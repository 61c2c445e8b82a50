import TuneRelay.Proofs.Numeric.Rounding

/-!
# Rounding keeps the order

A ratio that is rounded to a binary format does not pass any number of the format. In particular a
whole number stays on its side of a limit, and a quotient on its side of a half.
-/
namespace TuneRelay.Numeric

section Whole

variable {q r : Rat} {k : Int}

theorem floor_le_roundEven (q : Rat) : q.floor ≤ roundEven q := by
  unfold roundEven
  dsimp only
  split_ifs <;> omega

theorem roundEven_le_floor_add_one (q : Rat) : roundEven q ≤ q.floor + 1 := by
  unfold roundEven
  dsimp only
  split_ifs <;> omega

theorem roundEven_mono (h : q ≤ r) : roundEven q ≤ roundEven r := by
  rcases (Rat.floor_monotone h).lt_or_eq with hlt | heq
  · calc roundEven q ≤ q.floor + 1 := roundEven_le_floor_add_one q
      _ ≤ r.floor := hlt
      _ ≤ roundEven r := floor_le_roundEven r
  · -- over the same whole number, the one with the smaller rest
    unfold roundEven
    rw [heq]
    dsimp only
    split_ifs <;> first | omega | linarith

theorem le_roundEven (h : (k : Rat) ≤ q) : k ≤ roundEven q := by
  rw [← roundEven_intCast k]
  exact roundEven_mono h

theorem roundEven_le (h : q ≤ k) : roundEven q ≤ k := by
  rw [← roundEven_intCast k]
  exact roundEven_mono h

theorem roundHalfUp_mono (h : q ≤ r) : roundHalfUp q ≤ roundHalfUp r :=
  Rat.floor_monotone (by linarith)

theorem roundHalfUp_eq_iff : roundHalfUp q = k ↔ (k : Rat) - 1 / 2 ≤ q ∧ q < k + 1 / 2 := by
  have hfloor : roundHalfUp q = ⌊q + 1 / 2⌋ := rfl
  rw [hfloor, Int.floor_eq_iff, sub_le_iff_le_add]
  refine and_congr_right fun _ => ?_
  constructor
  · intro h
    linarith
  · intro h
    linarith

end Whole

theorem lt_zpow_binaryExponent {q : Rat} (h : 0 < q) : q < 2 ^ (binaryExponent q + 1) := by
  unfold binaryExponent
  dsimp only
  split_ifs with hle
  · -- the numerator stays below its next bit, the denominator reaches its leading one
    have hhigh : (q.num.toNat : Rat) < 2 ^ (q.num.toNat.log2 + 1 : Int) := by
      exact_mod_cast Nat.lt_log2_self
    have hlow : (2 : Rat) ^ (q.den.log2 : Int) ≤ q.den := by
      exact_mod_cast Nat.log2_self_le q.den_ne_zero
    calc q = q.num.toNat / q.den := (num_toNat_div_den h).symm
      _ < 2 ^ (q.num.toNat.log2 + 1 : Int) / 2 ^ (q.den.log2 : Int) := by gcongr
      _ = 2 ^ ((q.num.toNat.log2 : Int) - q.den.log2 + 1) := by
        rw [← zpow_sub₀ two_ne_zero, sub_add_eq_add_sub]
  · rw [sub_add_cancel]
    exact not_le.mp hle

theorem binaryExponent_mono {q r : Rat} (hq : 0 < q) (h : q ≤ r) :
    binaryExponent q ≤ binaryExponent r := by
  have hlt := h.trans_lt (lt_zpow_binaryExponent (hq.trans_le h))
  exact Int.lt_add_one_iff.mp (binaryExponent_lt hq hlt)

section Format

variable {bits : Nat} {least : Int} {q r : Rat}

theorem unitExponent_mono (bits : Nat) (least : Int) (hq : 0 < q) (h : q ≤ r) :
    unitExponent bits least q ≤ unitExponent bits least r := by
  have := binaryExponent_mono hq h
  rw [unitExponent, unitExponent]
  omega

theorem toBinary_nonneg (bits : Nat) (least : Int) (q : Rat) : 0 ≤ toBinary bits least q := by
  rcases le_or_gt q 0 with h | h
  · exact (if_pos h).ge
  · have hround : 0 ≤ roundEven (q / 2 ^ unitExponent bits least q) :=
      le_roundEven (by positivity)
    rw [toBinary_of_pos h]
    positivity

/-- What is left of a ratio below a multiple of its unit is not above it. -/
theorem toBinary_le_mul {k : Int} (hq : 0 < q) (h : q ≤ k * 2 ^ unitExponent bits least q) :
    toBinary bits least q ≤ k * 2 ^ unitExponent bits least q := by
  rw [toBinary_of_pos hq]
  gcongr
  exact roundEven_le ((div_le_iff₀ (by positivity)).mpr h)

theorem mul_le_toBinary {k : Int} (hq : 0 < q) (h : k * 2 ^ unitExponent bits least q ≤ q) :
    k * 2 ^ unitExponent bits least q ≤ toBinary bits least q := by
  rw [toBinary_of_pos hq]
  gcongr
  exact le_roundEven ((le_div_iff₀ (by positivity)).mpr h)

/-- Ratios are rounded in the same units, or the leading power of two of the larger one, which both
formats have, stands between them. -/
theorem toBinary_mono (hbits : 0 < bits) (h : q ≤ r) :
    toBinary bits least q ≤ toBinary bits least r := by
  rcases le_or_gt q 0 with hzero | hq
  · rw [toBinary, if_pos hzero]
    exact toBinary_nonneg bits least r
  have hr : 0 < r := hq.trans_le h
  rcases (unitExponent_mono bits least hq h).eq_or_lt with heq | hlt
  · rw [toBinary_of_pos hq, toBinary_of_pos hr, heq]
    gcongr
    exact roundEven_mono (by gcongr)
  have hunit : unitExponent bits least r = binaryExponent r - (bits - 1) := by
    unfold unitExponent at hlt ⊢
    omega
  have hexponent : binaryExponent q < binaryExponent r := by
    have hle : binaryExponent q - (bits - 1) ≤ unitExponent bits least q := le_max_left _ _
    omega
  have hplaces (e : Int) (he : e ≤ binaryExponent r) :
      ((2 ^ (binaryExponent r - e).toNat : Int) : Rat) * 2 ^ e = 2 ^ binaryExponent r := by
    push_cast
    rw [← zpow_natCast, ← zpow_add₀ two_ne_zero]
    congr 1
    omega
  have hlow := hplaces (unitExponent bits least q) (by omega)
  have hhigh := hplaces (unitExponent bits least r) (by omega)
  calc toBinary bits least q ≤ 2 ^ binaryExponent r := by
        rw [← hlow]
        apply toBinary_le_mul hq
        rw [hlow]
        calc q ≤ 2 ^ (binaryExponent q + 1) := (lt_zpow_binaryExponent hq).le
          _ ≤ 2 ^ binaryExponent r := by gcongr; norm_num; exact hexponent
    _ ≤ toBinary bits least r := by
        rw [← hhigh]
        apply mul_le_toBinary hr
        rw [hhigh]
        exact zpow_binaryExponent_le hr

/-- Above the least leading bit the error is a fraction of the ratio. -/
theorem abs_toBinary_sub_le_div (hq : 2 ^ (least + (bits - 1)) ≤ q) :
    |toBinary bits least q - q| ≤ q / 2 ^ bits := by
  have hpos : 0 < q := lt_of_lt_of_le (by positivity) hq
  have hlead : least + (bits - 1) < binaryExponent q + 1 :=
    (zpow_lt_zpow_iff_right₀ one_lt_two).mp (hq.trans_lt (lt_zpow_binaryExponent hpos))
  have hunit : unitExponent bits least q = binaryExponent q - bits + 1 := by
    rw [unitExponent]
    omega
  calc |toBinary bits least q - q| ≤ 2 ^ unitExponent bits least q / 2 :=
        abs_toBinary_sub_le bits least hpos
    _ = 2 ^ binaryExponent q / 2 ^ bits := by
        rw [hunit, zpow_add_one₀ two_ne_zero, mul_div_cancel_right₀ _ two_ne_zero,
          zpow_sub₀ two_ne_zero, zpow_natCast]
    _ ≤ q / 2 ^ bits := by
        gcongr
        exact zpow_binaryExponent_le hpos

end Format

section Doubles

variable {n d : Nat}

theorem toBinary64_mono {q r : Rat} (h : q ≤ r) : toBinary64 q ≤ toBinary64 r :=
  toBinary_mono (by norm_num) h

theorem toBinary64_natCast (h : n < 2 ^ 53) : toBinary64 n = n := by
  have hself : toBinary64 (n * 2 ^ (0 : Int)) = n * 2 ^ (0 : Int) :=
    toBinary_eq_self h (by norm_num)
  rwa [zpow_zero, mul_one] at hself

theorem toBinary64_zpow {e : Int} (h : -1074 ≤ e) : toBinary64 (2 ^ e) = 2 ^ e := by
  have hself : toBinary64 ((1 : Nat) * 2 ^ e) = (1 : Nat) * 2 ^ e :=
    toBinary_eq_self (by norm_num) h
  rwa [Nat.cast_one, one_mul] at hself

theorem toBinary64_half (h : n < 2 ^ 53) : toBinary64 (n / 2) = n / 2 := by
  have hself : toBinary64 (n * 2 ^ (-1 : Int)) = n * 2 ^ (-1 : Int) :=
    toBinary_eq_self h (by norm_num)
  rwa [zpow_neg_one, ← div_eq_mul_inv] at hself

/-- A whole number of any size exceeds a limit exactly if its double does. -/
theorem lt_toBinary64_iff {limit : Nat} (h : limit + 1 < 2 ^ 53) :
    (limit : Rat) < toBinary64 n ↔ limit < n := by
  constructor
  · intro hlt
    by_contra hle
    have hself : toBinary64 limit = limit := toBinary64_natCast (by omega)
    have hround : toBinary64 n ≤ toBinary64 limit :=
      toBinary64_mono (Nat.cast_le.mpr (not_lt.mp hle))
    exact absurd hlt (not_lt.mpr (hself ▸ hround))
  · intro hlt
    calc (limit : Rat) < (limit + 1 : Nat) := Nat.cast_lt.mpr (Nat.lt_succ_self limit)
      _ = toBinary64 (limit + 1 : Nat) := (toBinary64_natCast h).symm
      _ ≤ toBinary64 n := toBinary64_mono (Nat.cast_le.mpr hlt)

theorem roundHalfUp_div (hd : 0 < d) :
    roundHalfUp (n / d) = ((2 * n + d) / (2 * d) : Nat) := by
  have hd' : (0 : Rat) < d := Nat.cast_pos.mpr hd
  have hhalf : (n / d + 1 / 2 : Rat) = (2 * n + d : Nat) / (2 * d : Nat) := by
    push_cast
    field_simp
  rw [roundHalfUp, hhalf]
  exact Rat.floor_natCast_div_natCast _ _

/-- Between a quotient and the half above it there is room for half of one over the divisor. -/
theorem div_add_le_half {k : Int} (hd : 0 < d) (h : (n / d : Rat) < k + 1 / 2) :
    (n / d : Rat) + 1 / (2 * d) ≤ k + 1 / 2 := by
  have hd' : (0 : Rat) < d := Nat.cast_pos.mpr hd
  have hlt : (2 * n : Rat) < (2 * k + 1) * d := by
    rw [div_lt_iff₀ hd'] at h
    linarith
  have hle : (2 * n + 1 : Rat) ≤ (2 * k + 1) * d := by exact_mod_cast hlt
  have hsum : (n / d : Rat) + 1 / (2 * d) = (2 * n + 1) / (2 * d) := by
    field_simp
  rw [hsum, div_le_iff₀ (by positivity)]
  linarith

/-- The double of a quotient is rounded as the quotient is, unless its dividend is too large. -/
theorem roundHalfUp_toBinary64_div (h : 2 * n < 2 ^ 53) :
    roundHalfUp (toBinary64 (n / d)) = roundHalfUp (n / d) := by
  rcases Nat.eq_zero_or_pos d with rfl | hd
  · simp [toBinary64, toBinary]
  have hle : (n / d : Rat) ≤ n := div_le_self (Nat.cast_nonneg n) (by exact_mod_cast hd)
  obtain ⟨hlow, hhigh⟩ := roundHalfUp_eq_iff.mp (rfl : roundHalfUp (n / d : Rat) = _)
  set k := roundHalfUp (n / d : Rat)
  refine roundHalfUp_eq_iff.mpr ⟨?_, ?_⟩
  · rcases le_or_gt k 0 with hk | hk
    · have hk' : (k : Rat) ≤ 0 := by exact_mod_cast hk
      have hnonneg : 0 ≤ toBinary64 (n / d) := toBinary_nonneg 53 (-1074) _
      linarith
    · -- the half below the quotient is a double
      obtain ⟨m, hm⟩ : ∃ m : Nat, (k : Rat) - 1 / 2 = m / 2 := by
        refine ⟨(2 * k - 1).toNat, ?_⟩
        rw [← Int.cast_natCast, Int.toNat_of_nonneg (by omega)]
        push_cast
        ring
      have hmn : m ≤ 2 * n := by
        have : (m : Rat) ≤ 2 * n := by linarith
        exact_mod_cast this
      rw [hm] at hlow ⊢
      calc (m / 2 : Rat) = toBinary64 (m / 2) := (toBinary64_half (by omega)).symm
        _ ≤ toBinary64 (n / d) := toBinary64_mono hlow
  · rcases le_or_gt (n / d : Rat) (2 ^ (-2 : Int)) with hsmall | hlarge
    · have hk : 0 ≤ k := by
        have hpos : (0 : Rat) < k + 1 := by
          have hnonneg : (0 : Rat) ≤ n / d := by positivity
          linarith
        exact Int.lt_add_one_iff.mp (by exact_mod_cast hpos)
      have hk' : (0 : Rat) ≤ k := by exact_mod_cast hk
      calc toBinary64 (n / d) ≤ toBinary64 (2 ^ (-2 : Int)) := toBinary64_mono hsmall
        _ = 2 ^ (-2 : Int) := toBinary64_zpow (by norm_num)
        _ < k + 1 / 2 := by
          norm_num
          linarith
    · -- the error is less than the room that is left below the next half
      have herror : |toBinary64 (n / d) - n / d| ≤ n / d / 2 ^ 53 := by
        refine abs_toBinary_sub_le_div (le_trans ?_ hlarge.le)
        gcongr
        · norm_num
        · norm_num
      have hless : (n / d / 2 ^ 53 : Rat) < 1 / (2 * d) := by
        have hn : (2 * n / 2 ^ 53 : Rat) < 1 := by
          rw [div_lt_one (by positivity)]
          exact_mod_cast h
        calc (n / d / 2 ^ 53 : Rat) = 2 * n / 2 ^ 53 / (2 * d) := by field_simp
          _ < 1 / (2 * d) := by gcongr
      have hroom := div_add_le_half hd hhigh
      have := (abs_le.mp herror).2
      linarith

end Doubles
end TuneRelay.Numeric
