import TuneRelay.Proofs.Engine.Playback
import TuneRelay.Proofs.Mml.Deletion
import TuneRelay.Proofs.Text.Utf8

/-!
# Only printable bytes count

Input that is no blob is read as text, whether it is UTF-8 or not. Whatever is broken in it, its
printable bytes are kept and nothing else is, so two inputs with the same printable bytes lead to
the same output.
-/
namespace TuneRelay.Cli
open Engine Mml Text
open String (utf8EncodeChar)

def isPrintableByte (b : UInt8) : Bool := b == 0x0A || (0x20 ≤ b && b ≤ 0x7E)

/-- The printable bytes, each as a character. -/
def readable (bytes : List UInt8) : List Char :=
  (bytes.filter isPrintableByte).map fun b => Char.ofNat b.toNat

theorem isPrintable_eq (c : Char) :
    isPrintable c = (c.toNat == 0x0A || (0x20 ≤ c.toNat && c.toNat ≤ 0x7E)) := by
  have hnewline : (c == '\n') = (c.toNat == 0x0A) := by
    rw [Bool.eq_iff_iff, beq_iff_eq, beq_iff_eq]
    exact ⟨fun h => by rw [h]; rfl, fun h => Char.toNat_inj.1 h⟩
  rw [isPrintable, hnewline]
  rfl

theorem isPrintableByte_eq (b : UInt8) :
    isPrintableByte b = (b.toNat == 0x0A || (0x20 ≤ b.toNat && b.toNat ≤ 0x7E)) := by
  have hnewline : (b == 0x0A) = (b.toNat == 0x0A) := by
    rw [Bool.eq_iff_iff, beq_iff_eq, beq_iff_eq]
    exact UInt8.toNat_inj.symm
  rw [isPrintableByte, hnewline]
  rfl

theorem readable_append (left right : List UInt8) :
    readable (left ++ right) = readable left ++ readable right := by
  simp [readable]

/-- Bytes beyond ASCII are not printable. -/
theorem readable_of_le {bytes : List UInt8} (h : ∀ b ∈ bytes, 0x80 ≤ b.toNat) :
    readable bytes = [] := by
  have hnone : bytes.filter isPrintableByte = [] := by
    rw [List.filter_eq_nil_iff]
    intro b hb
    have := h b hb
    simp [isPrintableByte_eq]
    omega
  rw [readable, hnone, List.map_nil]

/-- A character is read from its bytes if it is printable, and nothing is if it is not. -/
theorem readable_utf8EncodeChar (c : Char) :
    readable (utf8EncodeChar c) = [c].filter isPrintable := by
  by_cases hc : c.toNat < 0x80
  · obtain ⟨b, hb, rfl⟩ : ∃ b : UInt8, b.toNat < 0x80 ∧ Char.ofNat b.toNat = c := by
      have hbyte : (UInt8.ofNat c.toNat).toNat = c.toNat := by
        rw [UInt8.toNat_ofNat']
        omega
      exact ⟨UInt8.ofNat c.toNat, by omega, by rw [hbyte, Char.ofNat_toNat]⟩
    have hprintable : isPrintable (Char.ofNat b.toNat) = isPrintableByte b := by
      rw [isPrintable_eq, toNat_ofNat (.inl (by omega)), isPrintableByte_eq]
    rw [utf8EncodeChar_ofNat_toNat hb, readable]
    cases hkept : isPrintableByte b with
    | true => simp [hprintable, hkept]
    | false => simp [hprintable, hkept]
  · have hbeyond : ∀ b ∈ utf8EncodeChar c, 0x80 ≤ b.toNat := by
      intro b hmem
      by_contra! hb
      rw [eq_of_mem_utf8EncodeChar hb hmem, toNat_ofNat (.inl (by omega))] at hc
      exact hc hb
    have hdropped : isPrintable c = false := by
      rw [isPrintable_eq]
      simp
      omega
    rw [readable_of_le hbeyond]
    simp [hdropped]

/-- A reading shows just the printable bytes as printable characters. -/
theorem filter_isPrintable {bytes : List UInt8} {text : List Char}
    (h : LossyReading bytes text) : text.filter isPrintable = readable bytes := by
  induction h with
  | done => rfl
  | char c h ih =>
    rw [readable_append, readable_utf8EncodeChar, ← ih, ← List.filter_append, List.singleton_append]
  | broken hpiece h ih =>
    have hnone := readable_of_le fun b hmem => hpiece.le_of_mem hmem
    rw [readable_append, hnone, List.nil_append, ← ih]
    rfl

theorem filter_decodeLossy (bytes : List UInt8) :
    (decodeLossy bytes).filter isPrintable = readable bytes :=
  filter_isPrintable (lossyReading_iff.2 rfl)

/-- Text is sanitized as if only its printable bytes had been there. -/
theorem sanitize_decodeLossy (bytes : List UInt8) :
    (Mml.sanitize (decodeLossy bytes)).text = (Mml.sanitize (readable bytes)).text := by
  have hchars : (Mml.sanitize (decodeLossy bytes)).text.chars =
      (Mml.sanitize (readable bytes)).text.chars := by
    rw [← filter_decodeLossy, sanitize_chars, sanitize_chars, foldl_pushChar_filter]
  exact SanitizedText.ext hchars

section Commands
variable {bytes bytes' : List UInt8}
  (htext : (Mml.sanitize (decodeLossy bytes')).text = (Mml.sanitize (decodeLossy bytes)).text)
include htext

theorem planCompile_congr (config : Config) (input output : String) :
    planCompile config input output bytes' = planCompile config input output bytes := by
  unfold planCompile compileText
  rw [htext]
  cases Mml.compile (Mml.sanitize (decodeLossy bytes)).text config.compiler <;> rfl

theorem planSanitize_congr : planSanitize bytes' = planSanitize bytes := by
  rw [planSanitize, planSanitize, htext]

theorem payloadOf_congr (hblob : ¬ ∃ tune, Blob.decode bytes = .ok tune)
    (hblob' : ¬ ∃ tune, Blob.decode bytes' = .ok tune) : payloadOf bytes' = payloadOf bytes := by
  cases hdecode : Blob.decode bytes with
  | ok tune => exact absurd ⟨tune, hdecode⟩ hblob
  | error fault =>
    cases hdecode' : Blob.decode bytes' with
    | ok tune => exact absurd ⟨tune, hdecode'⟩ hblob'
    | error fault' =>
      rw [payloadOf_of_decode_error hdecode, payloadOf_of_decode_error hdecode', htext]

end Commands

theorem planRender_congr {bytes bytes' : List UInt8} (h : payloadOf bytes' = payloadOf bytes)
    (lib : Libraries) (config : Config) (input output : String) (realtime : Bool) :
    planRender lib config input output realtime bytes' =
      planRender lib config input output realtime bytes := by
  have hblocks : blocksOf lib.functions config bytes' = blocksOf lib.functions config bytes := by
    rw [blocksOf_eq, blocksOf_eq, h]
  rw [planRender, planRender, hblocks]

/-- Bytes have one reading, which shows their printable bytes and no other printable character. So
text is sanitized as if only those had been there, and inputs with the same printable bytes lead
every command that reads them as text to the same result; only the warnings may differ. -/
theorem readable_bytes_decide (bytes : List UInt8) :
    (∀ text, LossyReading bytes text ↔ text = decodeLossy bytes) ∧
    (decodeLossy bytes).filter isPrintable = readable bytes ∧
    (Mml.sanitize (decodeLossy bytes)).text = (Mml.sanitize (readable bytes)).text ∧
    ∀ bytes', readable bytes' = readable bytes →
      (∀ options, (compileText (decodeLossy bytes') options).map Prod.fst =
        (compileText (decodeLossy bytes) options).map Prod.fst) ∧
      ∀ lib config input,
        (∀ output, (Command.compile input output).plan lib config bytes' =
          (Command.compile input output).plan lib config bytes) ∧
        (Command.sanitize input).plan lib config bytes' =
          (Command.sanitize input).plan lib config bytes ∧
        ((¬ ∃ tune, Blob.decode bytes = .ok tune) → (¬ ∃ tune, Blob.decode bytes' = .ok tune) →
          ∀ output realtime, (Command.render input output realtime).plan lib config bytes' =
            (Command.render input output realtime).plan lib config bytes) := by
  refine ⟨fun text => lossyReading_iff, filter_decodeLossy bytes, sanitize_decodeLossy bytes,
    fun bytes' hreadable => ?_⟩
  have htext : (Mml.sanitize (decodeLossy bytes')).text =
      (Mml.sanitize (decodeLossy bytes)).text := by
    rw [sanitize_decodeLossy, sanitize_decodeLossy, hreadable]
  refine ⟨fun options => ?_, fun lib config input => ⟨fun output => ?_, ?_, ?_⟩⟩
  · rw [compileText_value, compileText_value, htext]
  · exact planCompile_congr htext config input output
  · exact congrArg Except.ok (planSanitize_congr htext)
  · intro hblob hblob' output realtime
    exact planRender_congr (payloadOf_congr htext hblob hblob') lib config input output realtime

/-- A lead byte and a surrogate that stand in an escape do not hide it; without them it is deleted
too, though not with the same warnings. -/
theorem readable_bytes_decide_escape :
    let whole : List UInt8 := [0x24, 0x30, 0x62, 0x30, 0x30, 0x43]
    let broken : List UInt8 :=
      [0x24, 0x30, 0xF0, 0x9F, 0x62, 0xED, 0xA0, 0x80, 0x30, 0x30, 0xE2, 0x43, 0xC0]
    (Mml.sanitize (decodeLossy whole)).text.chars = ['C'] ∧
    (Mml.sanitize (decodeLossy broken)).warnings ≠ (Mml.sanitize (decodeLossy whole)).warnings ∧
    readable broken = readable whole ∧
    ∀ lib config input output realtime,
      (Command.render input output realtime).plan lib config broken =
        (Command.render input output realtime).plan lib config whole := by
  intro whole broken
  have hsame : readable broken = readable whole := by decide
  have hblob : ¬ ∃ tune, Blob.decode whole = .ok tune := by
    rintro ⟨tune, h⟩
    cases h
  have hblob' : ¬ ∃ tune, Blob.decode broken = .ok tune := by
    rintro ⟨tune, h⟩
    cases h
  refine ⟨by decide, by decide, hsame, fun lib config input output realtime => ?_⟩
  obtain ⟨-, hplans⟩ := (readable_bytes_decide whole).2.2.2 broken hsame
  exact (hplans lib config input).2.2 hblob hblob' output realtime

end TuneRelay.Cli
