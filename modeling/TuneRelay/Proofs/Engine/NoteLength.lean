import TuneRelay.Engine
import TuneRelay.Proofs.Numeric.Order

/-!
# The length of a note

A note is as many frames long as a quarter note lasts, a half rounded up. The engine rounds a
double instead of the exact quotient, and that changes no length.
-/
namespace TuneRelay.Engine
open Numeric

namespace ToneEngine

variable {e : ToneEngine} {tempo : Nat}

theorem toBinary64_frames (h : e.sampleRate ≤ 4294967295) :
    toBinary64 (60 * e.sampleRate) = 60 * e.sampleRate := by
  have hself : toBinary64 (60 * e.sampleRate : Nat) = (60 * e.sampleRate : Nat) :=
    toBinary64_natCast (by omega)
  rwa [Nat.cast_mul, Nat.cast_ofNat] at hself

theorem roundHalfUp_double (h : e.sampleRate ≤ 4294967295) (tempo : Nat) :
    roundHalfUp (toBinary64 (60 * e.sampleRate / tempo)) =
      roundHalfUp (60 * e.sampleRate / tempo) := by
  have hround := roundHalfUp_toBinary64_div (n := 60 * e.sampleRate) (d := tempo) (by omega)
  rwa [Nat.cast_mul, Nat.cast_ofNat] at hround

theorem roundHalfUp_frames (rate : Nat) (ht : 0 < tempo) :
    roundHalfUp (60 * rate / tempo) = ((120 * rate + tempo) / (2 * tempo) : Nat) := by
  have hround := roundHalfUp_div (n := 60 * rate) ht
  rwa [← Nat.mul_assoc, Nat.cast_mul, Nat.cast_ofNat] at hround

theorem framesPerNote_eq (h : e.sampleRate ≤ 4294967295) (ht : 0 < tempo) :
    e.framesPerNote tempo = (120 * e.sampleRate + tempo) / (2 * tempo) := by
  have hmax : (120 * e.sampleRate + tempo) / (2 * tempo) ≤ maxFrames := by
    have hbeats : 120 * e.sampleRate ≤ maxFrames * tempo :=
      le_trans (by rw [maxFrames]; omega) (Nat.le_mul_of_pos_right maxFrames ht)
    have hone : tempo ≤ maxFrames * tempo := Nat.le_mul_of_pos_left tempo (by decide)
    apply Nat.div_le_of_le_mul
    calc 120 * e.sampleRate + tempo ≤ maxFrames * tempo + maxFrames * tempo :=
          Nat.add_le_add hbeats hone
      _ = 2 * tempo * maxFrames := by ring
  rw [framesPerNote, if_neg (Nat.ne_of_gt ht), roundHalfUp_double h, roundHalfUp_frames _ ht,
    Int.toNat_natCast, Nat.min_eq_left hmax]

theorem framesPerNote_eq_roundHalfUp (h : e.sampleRate ≤ 4294967295) (ht : 0 < tempo) :
    (e.framesPerNote tempo : Int) = roundHalfUp (60 * e.sampleRate / tempo) := by
  rw [framesPerNote_eq h ht, roundHalfUp_frames _ ht]

/-- The faster, the shorter. -/
theorem framesPerNote_anti (h : e.sampleRate ≤ 4294967295) (ht : 0 < tempo) {faster : Nat}
    (hle : tempo ≤ faster) : e.framesPerNote faster ≤ e.framesPerNote tempo := by
  have ht' : (0 : Rat) < tempo := Nat.cast_pos.mpr ht
  have hround : roundHalfUp (60 * e.sampleRate / faster) ≤
      roundHalfUp (60 * e.sampleRate / tempo) := by
    apply roundHalfUp_mono
    gcongr
  rw [← framesPerNote_eq_roundHalfUp h ht,
    ← framesPerNote_eq_roundHalfUp h (ht.trans_le hle)] at hround
  exact_mod_cast hround

theorem framesPerNote_mono {e' : ToneEngine} (h : e'.sampleRate ≤ 4294967295) (ht : 0 < tempo)
    (hle : e.sampleRate ≤ e'.sampleRate) : e.framesPerNote tempo ≤ e'.framesPerNote tempo := by
  have hround : roundHalfUp (60 * e.sampleRate / tempo) ≤
      roundHalfUp (60 * e'.sampleRate / tempo) := by
    apply roundHalfUp_mono
    gcongr
  rw [← framesPerNote_eq_roundHalfUp h ht,
    ← framesPerNote_eq_roundHalfUp (hle.trans h) ht] at hround
  exact_mod_cast hround

end ToneEngine

/-- A quarter note is rounded once, from the exact quotient, although the engine rounds a double:
the double of the frames of a minute is exact, and that of the quotient lies on the same side of
every half. So notes do not get longer with the tempo, nor shorter with the sample rate. -/
theorem quarter_note_rounded_once {e : ToneEngine} {tempo : Nat}
    (hrate : e.sampleRate ≤ 4294967295) (htempo : 1 ≤ tempo) :
    toBinary64 (60 * e.sampleRate) = 60 * e.sampleRate ∧
    roundHalfUp (toBinary64 (60 * e.sampleRate / tempo)) =
      roundHalfUp (60 * e.sampleRate / tempo) ∧
    (e.framesPerNote tempo : Int) = roundHalfUp (60 * e.sampleRate / tempo) ∧
    e.framesPerNote tempo = (120 * e.sampleRate + tempo) / (2 * tempo) ∧
    (∀ faster : Nat, tempo ≤ faster → e.framesPerNote faster ≤ e.framesPerNote tempo) ∧
    ∀ finer : ToneEngine, e.sampleRate ≤ finer.sampleRate → finer.sampleRate ≤ 4294967295 →
      e.framesPerNote tempo ≤ finer.framesPerNote tempo := by
  refine ⟨ToneEngine.toBinary64_frames hrate, ToneEngine.roundHalfUp_double hrate tempo,
    ToneEngine.framesPerNote_eq_roundHalfUp hrate htempo, ToneEngine.framesPerNote_eq hrate htempo,
    ?_, ?_⟩
  · intro faster hle
    exact ToneEngine.framesPerNote_anti hrate htempo hle
  · intro finer hle hmax
    exact ToneEngine.framesPerNote_mono hmax htempo hle

/-- At the largest sample rate, notes whose quotients are one part in twice the tempo short of a
half and above one. -/
theorem quarter_note_rounded_once_near_half :
    let e : ToneEngine := .new 4294967295 128
    e.sampleRate ≤ 4294967295 ∧ 1 ≤ 1870067 ∧ 1 ≤ 354711683 ∧
      (60 * e.sampleRate / 1870067 : Rat) = 137801 + 1 / 2 - 1 / (2 * 1870067) ∧
      e.framesPerNote 1870067 = 137801 ∧
      (60 * e.sampleRate / 354711683 : Rat) = 726 + 1 / 2 + 1 / (2 * 354711683) ∧
      e.framesPerNote 354711683 = 727 := by
  intro e
  have hrate : e.sampleRate ≤ 4294967295 := by decide
  obtain ⟨-, -, -, hbelow, -⟩ := quarter_note_rounded_once hrate (by decide : 1 ≤ 1870067)
  obtain ⟨-, -, -, habove, -⟩ := quarter_note_rounded_once hrate (by decide : 1 ≤ 354711683)
  have hsize : e.sampleRate = 4294967295 := by decide
  rw [hsize] at hbelow habove ⊢
  refine ⟨by decide, by decide, by decide, by norm_num, hbelow, by norm_num, habove⟩

end TuneRelay.Engine
