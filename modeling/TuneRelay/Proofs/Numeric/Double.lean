import TuneRelay.Numeric
import TuneRelay.Proofs.Numeric.Order
import TuneRelay.Proofs.Sample.Bits
import Mathlib.Data.Nat.Prime.Basic
import Mathlib.Tactic.NormNum

/-!
# Samples and decimals as doubles

A sample survives as a double, and a double is read off any decimal that rounds to it.
-/
namespace TuneRelay.Numeric

section Samples

variable {s : Sample}

/-- The magnitude of a finite sample. -/
def sampleMagnitude (s : Sample) : Rat := Sample.significand s * (2 : Rat) ^ Sample.scale s

theorem significand_lt (s : Sample) : s.significand < 2 ^ 24 := by
  have : s.fraction < 8388608 := Nat.mod_lt _ (by decide)
  rw [Sample.significand]
  split_ifs <;> omega

theorem scale_ge (s : Sample) : -149 ≤ s.scale := by
  rw [Sample.scale]
  omega

theorem sampleMagnitude_nonneg (s : Sample) : 0 ≤ sampleMagnitude s := by
  rw [sampleMagnitude]
  positivity

/-- A sample is also a double. -/
theorem toBinary64_sampleMagnitude (s : Sample) :
    toBinary64 (sampleMagnitude s) = sampleMagnitude s := by
  have hscale := scale_ge s
  exact toBinary_eq_self ((significand_lt s).trans (by norm_num)) (by omega)

theorem sampleMagnitude_lt (h : s.exponentField < 255) : sampleMagnitude s < 2 ^ (128 : Int) := by
  have hscale : s.scale ≤ 104 := by
    rw [Sample.scale]
    omega
  calc sampleMagnitude s < 2 ^ (24 : Int) * 2 ^ s.scale := by
        rw [sampleMagnitude]
        gcongr
        exact_mod_cast significand_lt s
    _ ≤ 2 ^ (24 : Int) * 2 ^ (104 : Int) := by gcongr; norm_num
    _ = 2 ^ (128 : Int) := by norm_num

theorem sampleMagnitude_mul (s : Sample) :
    sampleMagnitude s * (2 : Rat) ^ (149 : Int) = Sample.steps s := by
  have hscale : s.scale + 149 = (s.exponentField - 1 : Nat) := by
    rw [Sample.scale]
    omega
  rw [sampleMagnitude, mul_assoc, ← zpow_add₀ two_ne_zero, hscale, Sample.steps, zpow_natCast]
  push_cast
  rfl

/-- Widening a sample and narrowing the double gives the sample back, unless it is a NaN. -/
theorem toSample_ofSample (hnan : ¬ s.isNaN = true) : (Binary64.ofSample s).toSample = s := by
  unfold Binary64.ofSample
  rw [if_neg hnan]
  split_ifs with hinf
  · exact Sample.nearest_of_isInfinite hinf
  · have hexponent := Sample.exponentField_lt hnan hinf
    change Sample.nearest _ (toBinary 24 (-149) (sampleMagnitude s) * 2 ^ (149 : Int)).num.toNat _
      = s
    rw [sampleMagnitude, toBinary_eq_self (significand_lt s) (scale_ge s), ← sampleMagnitude,
      sampleMagnitude_mul, Rat.num_natCast, Int.toNat_natCast, Sample.nearest_steps hexponent]

theorem isDouble_ofSample (s : Sample) : (Binary64.ofSample s).IsDouble := by
  unfold Binary64.ofSample
  split_ifs with hnan hinf
  · trivial
  · trivial
  · have hlt : sampleMagnitude s < Binary64.bound :=
      (sampleMagnitude_lt (Sample.exponentField_lt hnan hinf)).trans
        (zpow_lt_zpow_right₀ one_lt_two (by norm_num))
    exact ⟨sampleMagnitude_nonneg s, hlt, toBinary64_sampleMagnitude s⟩

end Samples

section Denominators

theorem exists_den_eq_two_pow (m e : Int) : ∃ k, (m * 2 ^ e : Rat).den = 2 ^ k := by
  obtain ⟨n, rfl | rfl⟩ := e.eq_nat_or_neg
  · refine ⟨0, ?_⟩
    have hwhole : (m * 2 ^ (n : Int) : Rat) = (m * 2 ^ n : Int) := by push_cast; rfl
    rw [hwhole, Rat.den_intCast, pow_zero]
  · have hratio : (m * 2 ^ (-n : Int) : Rat) = Rat.divInt m (2 ^ n) := by
      rw [Rat.divInt_eq_div, zpow_neg, zpow_natCast, ← div_eq_mul_inv]
      push_cast
      rfl
    have hdvd : ((m * 2 ^ (-n : Int) : Rat).den : Int) ∣ 2 ^ n := hratio ▸ Rat.den_dvd _ _
    obtain ⟨k, -, hk⟩ := (Nat.dvd_prime_pow Nat.prime_two).mp (by exact_mod_cast hdvd)
    exact ⟨k, hk⟩

theorem exists_den_of_toBinary64 {q : Rat} (h : toBinary64 q = q) : ∃ k, q.den = 2 ^ k := by
  unfold toBinary64 toBinary at h
  split_ifs at h
  · exact ⟨0, by rw [← h]; rfl⟩
  · rw [← h]
    exact exists_den_eq_two_pow _ _

end Denominators

section Decimals

variable {digits : Nat} {exponent : Int}

theorem decimal_lt (digits : Nat) (exponent : Int) :
    digits * (10 : Rat) ^ exponent < 10 ^ (exponent + (Nat.toDigits 10 digits).length) := by
  have hdigits : digits < 10 ^ (Nat.toDigits 10 digits).length :=
    (Nat.length_toDigits_le_iff (by norm_num) Nat.length_toDigits_pos).mp le_rfl
  rw [zpow_add₀ (by norm_num), mul_comm, zpow_natCast]
  gcongr
  exact_mod_cast hdigits

theorem le_decimal (h : digits ≠ 0) (exponent : Int) :
    (10 : Rat) ^ (exponent + (Nat.toDigits 10 digits).length - 1) ≤ digits * 10 ^ exponent := by
  obtain ⟨n, hn⟩ : ∃ n, (Nat.toDigits 10 digits).length = n + 1 :=
    Nat.exists_eq_succ_of_ne_zero (Nat.ne_of_gt Nat.length_toDigits_pos)
  have hdigits : 10 ^ n ≤ digits := by
    rcases Nat.eq_zero_or_pos n with rfl | hn0
    · exact Nat.one_le_iff_ne_zero.mpr h
    · have hiff := Nat.length_toDigits_le_iff (b := 10) (n := digits) (by norm_num) hn0
      omega
  rw [hn, Nat.cast_add_one, add_sub_assoc, add_sub_cancel_right, zpow_add₀ (by norm_num), mul_comm,
    zpow_natCast]
  gcongr
  exact_mod_cast hdigits

theorem two_pow_le_ten_pow (n : Nat) : (2 : Rat) ^ (3 * n) ≤ 10 ^ n := by
  rw [pow_mul]
  gcongr
  norm_num

theorem one_le_bound : 1 ≤ Binary64.bound := one_le_zpow₀ one_le_two (by norm_num)

/-- Below the limit of exponents a decimal is less than half of the smallest double. -/
theorem toBinary64_of_low
    (h : exponent + (Nat.toDigits 10 digits).length < -Binary64.exponentLimit) :
    toBinary64 (digits * 10 ^ exponent) = 0 := by
  rw [Binary64.exponentLimit] at h
  refine toBinary_eq_zero ?_
  calc digits * (10 : Rat) ^ exponent < 10 ^ (exponent + (Nat.toDigits 10 digits).length) :=
        decimal_lt _ _
    _ ≤ 10 ^ (-(401 : Nat) : Int) := by gcongr; norm_num; omega
    _ ≤ (2 ^ (3 * 401))⁻¹ := by
      rw [zpow_neg, zpow_natCast]
      exact inv_anti₀ (by positivity) (two_pow_le_ten_pow 401)
    _ ≤ 2 ^ (-1074 - 1 : Int) := by
      rw [← zpow_natCast, ← zpow_neg]
      gcongr <;> norm_num

/-- Above the limit of exponents a decimal is too large for a double. -/
theorem bound_le_toBinary64_of_high (hdigits : digits ≠ 0)
    (h : Binary64.exponentLimit < exponent + (Nat.toDigits 10 digits).length) :
    Binary64.bound ≤ toBinary64 (digits * 10 ^ exponent) := by
  rw [Binary64.exponentLimit] at h
  have hlarge : Binary64.bound ≤ digits * (10 : Rat) ^ exponent :=
    calc Binary64.bound = 2 ^ (1024 : Nat) := zpow_natCast 2 1024
      _ ≤ 2 ^ (3 * 400) := by gcongr <;> norm_num
      _ ≤ 10 ^ (400 : Int) := two_pow_le_ten_pow 400
      _ ≤ 10 ^ (exponent + (Nat.toDigits 10 digits).length - 1) := by gcongr; norm_num; omega
      _ ≤ digits * 10 ^ exponent := le_decimal hdigits _
  calc Binary64.bound = toBinary64 Binary64.bound := (toBinary64_zpow (by norm_num)).symm
    _ ≤ toBinary64 (digits * 10 ^ exponent) := toBinary64_mono hlarge

/-- The limits only cut calculations short: every decimal is read as the double nearest to it. -/
theorem ofDecimal_eq_nearest (negative : Bool) (digits : Nat) (exponent : Int) :
    Binary64.ofDecimal negative digits exponent =
      Binary64.nearest negative (digits * 10 ^ exponent) := by
  unfold Binary64.ofDecimal
  dsimp only
  split_ifs with hlow hhigh
  · have hzero : toBinary64 (digits * 10 ^ exponent) = 0 := by
      rw [Bool.or_eq_true, decide_eq_true_eq, decide_eq_true_eq] at hlow
      rcases hlow with rfl | hlow
      · simp [toBinary64, toBinary]
      · exact toBinary64_of_low hlow
    rw [Binary64.nearest, hzero, if_pos (zero_lt_one.trans_le one_le_bound)]
  · have hdigits : digits ≠ 0 := by
      rintro rfl
      exact hlow rfl
    exact (if_neg (not_lt.mpr (bound_le_toBinary64_of_high hdigits hhigh))).symm
  · rfl

end Decimals
end TuneRelay.Numeric
