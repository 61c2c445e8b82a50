import TuneRelay.Sample
import Mathlib

/-!
# Samples and their bits

A sample is its sign, exponent field and fraction, and any sample but a NaN is the nearest one to
the number it is. As a number there is only one NaN.
-/
namespace TuneRelay.Sample
open Float.Model Float.Model.UnpackedFloat

section Classes

variable {s : Sample}

theorem isNaN_iff : s.isNaN = true ↔ s.exponentField = 255 ∧ s.fraction ≠ 0 := by
  rw [isNaN, Bool.and_eq_true, beq_iff_eq, bne_iff_ne]

theorem isInfinite_iff : s.isInfinite = true ↔ s.exponentField = 255 ∧ s.fraction = 0 := by
  rw [isInfinite, Bool.and_eq_true, beq_iff_eq, beq_iff_eq]

theorem exponentField_lt (hnan : ¬ s.isNaN = true) (hinf : ¬ s.isInfinite = true) :
    s.exponentField < 255 := by
  have hbound : s.exponentField < 256 := Nat.mod_lt _ (by decide)
  have hne : s.exponentField ≠ 255 := fun h => hnan (isNaN_iff.mpr
    ⟨h, fun hzero => hinf (isInfinite_iff.mpr ⟨h, hzero⟩)⟩)
  omega

theorem unpackExponent_toNat (s : Sample) :
    (@unpackExponent .binary32 s.toBits.toBitVec).toNat = s.exponentField := by
  simp [unpackExponent, BitVec.extractLsb_toNat, Nat.shiftRight_eq_div_pow, exponentField]

theorem unpackMantissa_toNat (s : Sample) :
    (@unpackMantissa .binary32 s.toBits.toBitVec).toNat = s.fraction := by
  simp [unpackMantissa, BitVec.extractLsb_toNat, fraction]

theorem unpack_of_isNaN (h : s.isNaN = true) :
    UnpackedFloat.unpack .binary32 s.toBits.toBitVec = .notANumber := by
  obtain ⟨hexponent, hfraction⟩ := isNaN_iff.mp h
  have hones : @unpackExponent .binary32 s.toBits.toBitVec = -1#_ :=
    BitVec.eq_of_toNat_eq (by rw [unpackExponent_toNat, hexponent]; rfl)
  have hsome : @unpackMantissa .binary32 s.toBits.toBitVec ≠ 0#23 := fun hzero =>
    hfraction (by rw [← unpackMantissa_toNat, hzero]; rfl)
  simp only [UnpackedFloat.unpack, if_pos hones, if_neg hsome]

/-- Calculations do not tell NaNs apart. -/
theorem float_of_isNaN (h : s.isNaN = true) : s.float = nan.float := by
  have hnan : nan.isNaN = true := by decide
  simp only [float, Float32.ofBits, Float32.Model.ofBits, unpack_of_isNaN h, unpack_of_isNaN hnan]

end Classes

/-- The three fields of a sample are all of its bits. -/
theorem toBits_eq_fields (s : Sample) : s.toBits.toNat =
    s.exponentField * 8388608 + s.fraction + if isNegative s then 2147483648 else 0 := by
  have hlt := s.toBits.toNat_lt
  simp only [exponentField, fraction, isNegative, decide_eq_true_eq]
  split_ifs <;> omega

theorem eq_ofBits {s : Sample} {n : Nat} (h : n = s.toBits.toNat) : .ofBits n.toUInt32 = s := by
  rw [h, Nat.toUInt32_eq, UInt32.ofNat_toNat]

theorem halveNearest_mul_two_pow (m k : Nat) : halveNearest (m * 2 ^ k) k = m := by
  have hkept : (m * 2 ^ k) >>> k = m := by
    rw [Nat.shiftRight_eq_div_pow, Nat.mul_div_cancel _ (Nat.two_pow_pos k)]
  simp only [halveNearest, hkept, Nat.shiftLeft_eq, Nat.one_mul]
  refine if_pos ?_
  rw [Nat.sub_self, Bool.or_eq_true, decide_eq_true_eq]
  exact .inl (Nat.two_pow_pos k)

theorem log2_mul_two_pow {m : Nat} (h : m ≠ 0) (k : Nat) : (m * 2 ^ k).log2 = m.log2 + k := by
  induction k with
  | zero => simp
  | succ k ih =>
    have hne : m * 2 ^ k ≠ 0 := Nat.mul_ne_zero h (Nat.ne_of_gt (Nat.two_pow_pos k))
    rw [Nat.pow_succ', Nat.mul_left_comm, Nat.log2_two_mul hne, ih, Nat.add_assoc]

/-- A significand that has its leading bit, or stands at the least place, is kept as it is. -/
theorem magnitudeBits_mul_two_pow {m k : Nat} (hm : m < 16777216)
    (hlead : k = 0 ∨ 8388608 ≤ m) :
    magnitudeBits (m * 2 ^ k) (-149) = min (m + k * 8388608) 2139095040 := by
  rcases Nat.eq_zero_or_pos m with rfl | hpos
  · obtain rfl : k = 0 := by omega
    rfl
  have hne : m * 2 ^ k ≠ 0 := Nat.ne_of_gt (Nat.mul_pos hpos (Nat.two_pow_pos k))
  have hunit : max (-149 + ((m * 2 ^ k).log2 : Int) - 23) (-149) = -149 + k := by
    have hlog := log2_mul_two_pow (Nat.ne_of_gt hpos) k
    have hlt := (Nat.log2_lt (Nat.ne_of_gt hpos)).mpr (show m < 2 ^ 24 from hm)
    rcases hlead with rfl | hlead
    · omega
    · have hle := (Nat.le_log2 (Nat.ne_of_gt hpos)).mpr (show 2 ^ 23 ≤ m from hlead)
      omega
  have hplace : ((-149 + k + 149 : Int)).toNat = k := by omega
  have hshift : ((-149 + k - -149 : Int)).toNat = k := by omega
  simp only [magnitudeBits, if_neg hne, hunit, hplace, hshift, halveNearest_mul_two_pow]
  split_ifs with h
  · obtain rfl : k = 0 := by omega
    simp
  · rfl

/-- What a finite sample is, in units of the least place. -/
def steps (s : Sample) : Nat := s.significand * 2 ^ (s.exponentField - 1)

theorem magnitudeBits_steps {s : Sample} (h : s.exponentField < 255) :
    magnitudeBits s.steps (-149) = s.exponentField * 8388608 + s.fraction := by
  have hfraction : s.fraction < 8388608 := Nat.mod_lt _ (by decide)
  rw [steps, significand]
  split_ifs with hzero
  · rw [magnitudeBits_mul_two_pow (by omega) (by omega)]
    omega
  · rw [magnitudeBits_mul_two_pow (by omega) (by omega)]
    omega

theorem nearest_steps {s : Sample} (h : s.exponentField < 255) :
    nearest (isNegative s) s.steps (-149) = s :=
  eq_ofBits (by rw [magnitudeBits_steps h, toBits_eq_fields])

theorem nearest_of_isInfinite {s : Sample} (h : s.isInfinite = true) :
    nearest (isNegative s) 1 128 = s := by
  obtain ⟨hexponent, hfraction⟩ := isInfinite_iff.mp h
  have hbits : magnitudeBits 1 128 = 255 * 8388608 + 0 := by decide
  exact eq_ofBits (by rw [hbits, toBits_eq_fields, hexponent, hfraction])

end TuneRelay.Sample
