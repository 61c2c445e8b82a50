import TuneRelay.Numeric
import Mathlib.Algebra.Order.Field.Power
import Mathlib.Algebra.Order.Floor.Ring
import Mathlib.Data.Rat.Floor
import Mathlib.Tactic.FieldSimp
import Mathlib.Tactic.Linarith
import Mathlib.Tactic.Positivity
import Mathlib.Tactic.Ring

/-!
# What rounding does to a ratio

Rounding moves a ratio by half a unit at most, and leaves it alone when it fits.
-/
namespace TuneRelay.Numeric

theorem roundEven_intCast (k : Int) : roundEven k = k := by
  simp [roundEven]

theorem roundEven_of_small {q : Rat} (h0 : 0 ≤ q) (h : q < 1 / 2) : roundEven q = 0 := by
  have hfloor : q.floor = 0 := Int.floor_eq_zero_iff.mpr ⟨h0, by linarith⟩
  simp only [roundEven, hfloor, Int.cast_zero, sub_zero, if_pos h]

theorem abs_roundEven_sub_le (q : Rat) : |(roundEven q : Rat) - q| ≤ 1 / 2 := by
  have hlow : (q.floor : Rat) ≤ q := Int.floor_le q
  have hhigh : q < q.floor + 1 := Int.lt_floor_add_one q
  unfold roundEven
  dsimp only
  split_ifs <;> push_cast <;> rw [abs_le] <;> constructor <;> linarith

theorem num_toNat_div_den {q : Rat} (h : 0 < q) : (q.num.toNat : Rat) / q.den = q := by
  rw [← Int.cast_natCast, Int.toNat_of_nonneg (Rat.num_pos.mpr h).le, Rat.num_div_den]

/-- The leading power of two is not above a positive ratio. -/
theorem zpow_binaryExponent_le {q : Rat} (h : 0 < q) : (2 : Rat) ^ binaryExponent q ≤ q := by
  unfold binaryExponent
  dsimp only
  split_ifs with hle
  · exact hle
  · have hnum : q.num.toNat ≠ 0 := by
      have := Rat.num_pos.mpr h
      omega
    -- the numerator reaches its leading bit, the denominator stays below the next one
    have hlow : (2 : Rat) ^ (q.num.toNat.log2 : Int) ≤ q.num.toNat := by
      exact_mod_cast Nat.log2_self_le hnum
    have hhigh : (q.den : Rat) ≤ 2 ^ (q.den.log2 + 1 : Int) := by
      exact_mod_cast Nat.lt_log2_self.le
    have hden : (0 : Rat) < q.den := by exact_mod_cast q.den_pos
    calc (2 : Rat) ^ ((q.num.toNat.log2 : Int) - q.den.log2 - 1)
        = 2 ^ (q.num.toNat.log2 : Int) / 2 ^ (q.den.log2 + 1 : Int) := by
          rw [← zpow_sub₀ two_ne_zero, sub_sub]
      _ ≤ q.num.toNat / q.den := by gcongr
      _ = q := num_toNat_div_den h

theorem binaryExponent_lt {q : Rat} (h : 0 < q) {e : Int} (he : q < 2 ^ e) :
    binaryExponent q < e :=
  (zpow_lt_zpow_iff_right₀ one_lt_two).mp ((zpow_binaryExponent_le h).trans_lt he)

section Format

variable {bits : Nat} {least : Int} {q : Rat}

/-- The place of the last bit that rounding keeps. -/
def unitExponent (bits : Nat) (least : Int) (q : Rat) : Int :=
  max (binaryExponent q - (bits - 1)) least

theorem toBinary_of_pos (h : 0 < q) : toBinary bits least q =
    roundEven (q / 2 ^ unitExponent bits least q) * 2 ^ unitExponent bits least q :=
  if_neg (not_le.mpr h)

theorem abs_toBinary_sub_le (bits : Nat) (least : Int) (h : 0 < q) :
    |toBinary bits least q - q| ≤ 2 ^ unitExponent bits least q / 2 := by
  rw [toBinary_of_pos h]
  set unit : Rat := 2 ^ unitExponent bits least q with hunit
  have hpos : 0 < unit := by positivity
  calc |roundEven (q / unit) * unit - q|
      = |(roundEven (q / unit) - q / unit) * unit| := by
        rw [sub_mul, div_mul_cancel₀ q hpos.ne']
    _ = |roundEven (q / unit) - q / unit| * unit := by rw [abs_mul, abs_of_pos hpos]
    _ ≤ 1 / 2 * unit := by gcongr; exact abs_roundEven_sub_le _
    _ = unit / 2 := by ring

/-- A number with few enough bits above the least place is left alone. -/
theorem toBinary_eq_self {m : Nat} {e : Int} (hm : m < 2 ^ bits) (he : least ≤ e) :
    toBinary bits least (m * 2 ^ e) = m * 2 ^ e := by
  rcases Nat.eq_zero_or_pos m with rfl | hpos
  · simp [toBinary]
  have hq : (0 : Rat) < m * 2 ^ e := by positivity
  have hlt : (m * 2 ^ e : Rat) < 2 ^ (bits + e : Int) := by
    rw [zpow_add₀ two_ne_zero]
    gcongr
    exact_mod_cast hm
  have hunit : unitExponent bits least (m * 2 ^ e) ≤ e := by
    have := binaryExponent_lt hq hlt
    rw [unitExponent]
    omega
  obtain ⟨k, hk⟩ : ∃ k : Nat, e = k + unitExponent bits least (m * 2 ^ e) :=
    ⟨_, (sub_eq_iff_eq_add.mp (Int.toNat_of_nonneg (sub_nonneg.mpr hunit)).symm)⟩
  rw [toBinary_of_pos hq]
  set unit := unitExponent bits least (m * 2 ^ e)
  have hwhole : (m * 2 ^ e : Rat) / 2 ^ unit = (m * 2 ^ k : Int) := by
    rw [hk, zpow_add₀ two_ne_zero, zpow_natCast]
    push_cast
    field_simp
  rw [hwhole, roundEven_intCast, ← hwhole, div_mul_cancel₀ _ (by positivity)]

/-- What is less than half of the least place is lost. -/
theorem toBinary_eq_zero (hq : q < 2 ^ (least - 1)) : toBinary bits least q = 0 := by
  rcases le_or_gt q 0 with h | h
  · exact if_pos h
  have hunit : least ≤ unitExponent bits least q := le_max_right _ _
  have hhalf : q / 2 ^ unitExponent bits least q < 1 / 2 := by
    rw [div_lt_iff₀ (by positivity)]
    calc q < 2 ^ (least - 1) := hq
      _ ≤ 2 ^ (unitExponent bits least q - 1) := by gcongr; norm_num
      _ = 1 / 2 * 2 ^ unitExponent bits least q := by rw [zpow_sub_one₀ two_ne_zero]; ring
  rw [toBinary_of_pos h, roundEven_of_small (by positivity) hhalf]
  simp

end Format

end TuneRelay.Numeric
