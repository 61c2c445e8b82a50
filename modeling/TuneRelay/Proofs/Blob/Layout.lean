import TuneRelay.Blob
import TuneRelay.Proofs.Results

/-!
# The layout of a blob

Encoding writes one layout and decoding accepts no other: a list of bytes decodes exactly if it is
the layout of the fields that come out, with a tempo within its field.
-/
namespace TuneRelay

namespace Note

theorem ofLetter?_eq_some_iff {c : Char} {note : Note} :
    ofLetter? c = some note ↔ c = note.letter := by
  constructor
  · intro h
    unfold ofLetter? at h
    split at h
    all_goals cases h
    all_goals rfl
  · rintro rfl
    exact ofLetter?_letter note

theorem ofCode?_eq_some_iff {byte : UInt8} {note : Note} :
    ofCode? byte = some note ↔ byte = note.code := by
  constructor
  · intro h
    have hletter : Char.ofUInt8 byte = note.letter := ofLetter?_eq_some_iff.mp h
    rw [code, ← hletter]
    exact (UInt8.toUInt8_toUInt32 byte).symm
  · rintro rfl
    exact ofCode?_code note

theorem code_injective {m n : Note} (h : m.code = n.code) : m = n := by
  have hm : ofCode? m.code = some m := ofCode?_code m
  rw [h, ofCode?_code] at hm
  exact (Option.some.inj hm).symm

end Note

theorem TempoWidth.ofTag?_eq_some_iff {tag : UInt8} {width : TempoWidth} :
    ofTag? tag = some width ↔ tag = width.tag := by
  constructor
  · intro h
    unfold ofTag? at h
    split at h
    · cases h
      assumption
    · split at h
      · cases h
        assumption
      · cases h
  · rintro rfl
    exact ofTag?_tag width

namespace Blob

theorem encode_eq_ok_iff {tempo : Nat} {notes : List Note} {width : TempoWidth} {blob : Blob} :
    encode tempo notes width = .ok blob ↔
      tempo ≤ width.maxTempo ∧ blob.bytes = layout tempo notes width := by
  unfold encode
  split
  · rename_i hlt
    constructor
    · intro h
      cases h
    · rintro ⟨hle, -⟩
      omega
  · rename_i hle
    constructor
    · intro h
      cases h
      exact ⟨by omega, rfl⟩
    · rintro ⟨-, hbytes⟩
      exact congrArg Except.ok (Blob.ext hbytes.symm)

theorem encode_of_lt {tempo : Nat} {width : TempoWidth} (h : width.maxTempo < tempo)
    (notes : List Note) :
    encode tempo notes width = .error (.tempoOutOfRange tempo width.bits width.maxTempo) := by
  rw [encode, dif_pos h]

theorem tempoField_length (width : TempoWidth) (tempo : Nat) :
    (tempoField width tempo).length = width.bytes := by
  cases width <;> rfl

theorem layout_length (tempo : Nat) (notes : List Note) (width : TempoWidth) :
    (layout tempo notes width).length = headerLength + width.bytes + notes.length := by
  have hmagic : magic.length = 6 := rfl
  have hheader : headerLength = 8 := rfl
  simp only [layout, List.length_append, List.length_cons, List.length_map, tempoField_length]
  omega

theorem narrow_field (tempo : UInt8) : tempoField .narrow tempo.toNat = [tempo] := by
  simp [tempoField]

theorem narrow_value {tempo : Nat} (h : tempo ≤ 255) : tempo.toUInt8.toNat = tempo := by
  rw [Nat.toUInt8_eq, UInt8.toNat_ofNat']
  omega

theorem wide_field (high low : UInt8) :
    tempoField .wide (256 * high.toNat + low.toNat) = [high, low] := by
  have hl := low.toNat_lt
  have hhigh : (256 * high.toNat + low.toNat) / 256 = high.toNat := by omega
  have hlow : (256 * high.toNat + low.toNat).toUInt8 = low := by
    apply UInt8.toNat.inj
    rw [Nat.toUInt8_eq, UInt8.toNat_ofNat']
    omega
  simp [tempoField, hhigh, hlow]

theorem wide_value {tempo : Nat} (h : tempo ≤ 65535) :
    256 * (tempo / 256).toUInt8.toNat + tempo.toUInt8.toNat = tempo := by
  rw [Nat.toUInt8_eq, Nat.toUInt8_eq, UInt8.toNat_ofNat', UInt8.toNat_ofNat']
  omega

theorem readNotes_eq_ok_iff {offset : Nat} {known notes : List Note} {codes : List UInt8} :
    readNotes offset known codes = .ok notes ↔
      ∃ read, codes = read.map Note.code ∧ notes = known.reverse ++ read := by
  induction codes generalizing offset known with
  | nil =>
    simp only [readNotes, Except.ok.injEq]
    constructor
    · intro h
      exact ⟨[], rfl, by simp [h]⟩
    · rintro ⟨read, hcodes, hnotes⟩
      obtain rfl : read = [] := by simpa using hcodes.symm
      simp [hnotes]
  | cons byte rest ih =>
    cases hbyte : Note.ofCode? byte with
    | none =>
      simp only [readNotes, hbyte]
      constructor
      · intro h
        cases h
      · rintro ⟨read, hcodes, -⟩
        cases read with
        | nil => cases hcodes
        | cons note read =>
          obtain ⟨rfl, -⟩ : byte = note.code ∧ rest = read.map Note.code := by
            simpa using hcodes
          rw [Note.ofCode?_code] at hbyte
          cases hbyte
    | some note =>
      have hcode : byte = note.code := Note.ofCode?_eq_some_iff.mp hbyte
      simp only [readNotes, hbyte]
      rw [ih]
      constructor
      · rintro ⟨read, hcodes, hnotes⟩
        exact ⟨note :: read, by simp [hcode, hcodes], by simp [hnotes]⟩
      · rintro ⟨read, hcodes, hnotes⟩
        cases read with
        | nil => cases hcodes
        | cons first read =>
          obtain ⟨hfirst, hrest⟩ : byte = first.code ∧ rest = read.map Note.code := by
            simpa using hcodes
          obtain rfl : note = first := Note.code_injective (hcode.symm.trans hfirst)
          exact ⟨read, hrest, by simp [hnotes]⟩

theorem readNotes_codes {offset : Nat} {notes : List Note} {codes : List UInt8} :
    readNotes offset [] codes = .ok notes ↔ codes = notes.map Note.code := by
  simp [readNotes_eq_ok_iff]

theorem readTune_eq_ok_iff {length : Nat} {width : TempoWidth} {body : List UInt8} {tune : Tune} :
    readTune length width body = .ok tune ↔
      tune.version = version ∧ tune.width = width ∧ tune.tempo ≤ width.maxTempo ∧
        body = tempoField width tune.tempo ++ tune.notes.map Note.code := by
  constructor
  · intro h
    unfold readTune at h
    split at h
    · rename_i tempo codes
      obtain ⟨notes, hnotes, rfl⟩ := map_eq_ok_iff.mp h
      have hlt := tempo.toNat_lt
      refine ⟨rfl, rfl, Nat.le_of_lt_succ hlt, ?_⟩
      rw [narrow_field, readNotes_codes.mp hnotes]
      rfl
    · rename_i high low codes
      obtain ⟨notes, hnotes, rfl⟩ := map_eq_ok_iff.mp h
      have hhigh := high.toNat_lt
      have hlow := low.toNat_lt
      refine ⟨rfl, rfl, ?_, ?_⟩
      · simp only [TempoWidth.maxTempo]
        omega
      · rw [wide_field, readNotes_codes.mp hnotes]
        rfl
    · cases h
  · rintro ⟨hversion, hwidth, htempo, rfl⟩
    obtain ⟨version', width', tempo, notes⟩ := tune
    obtain rfl : version' = version := hversion
    obtain rfl : width' = width := hwidth
    cases width' with
    | narrow =>
      have hread : readNotes (headerLength + 1) [] (notes.map Note.code) = .ok notes :=
        readNotes_codes.mpr rfl
      simp only [tempoField, List.singleton_append, readTune, hread, narrow_value htempo]
      rfl
    | wide =>
      have hread : readNotes (headerLength + 2) [] (notes.map Note.code) = .ok notes :=
        readNotes_codes.mpr rfl
      simp only [tempoField, List.cons_append, List.nil_append, readTune, hread,
        wide_value htempo]
      rfl

theorem decode_eq_ok_iff {bytes : List UInt8} {tune : Tune} :
    decode bytes = .ok tune ↔
      tune.version = version ∧ tune.tempo ≤ tune.width.maxTempo ∧
        bytes = layout tune.tempo tune.notes tune.width := by
  constructor
  · intro h
    unfold decode at h
    split at h
    · rename_i found tag body hdrop
      split at h
      · cases h
      · rename_i hmagic
        split at h
        · cases h
        · rename_i hversion
          split at h
          · cases h
          · rename_i width hwidth
            obtain ⟨htune, rfl, htempo, hbody⟩ := readTune_eq_ok_iff.mp h
            refine ⟨htune, htempo, ?_⟩
            have htake : bytes.take magic.length = magic := by simpa using hmagic
            have hfound : found = version := by simpa using hversion
            have hsplit := List.take_append_drop magic.length bytes
            rw [htake, hdrop, hfound, TempoWidth.ofTag?_eq_some_iff.mp hwidth, hbody] at hsplit
            rw [← hsplit]
            simp [layout]
    · cases h
  · rintro ⟨hversion, htempo, rfl⟩
    have hread : readTune (layout tune.tempo tune.notes tune.width).length tune.width
        (tempoField tune.width tune.tempo ++ tune.notes.map Note.code) = .ok tune :=
      readTune_eq_ok_iff.mpr ⟨hversion, rfl, htempo, rfl⟩
    have hdrop : (layout tune.tempo tune.notes tune.width).drop magic.length =
        version :: tune.width.tag :: (tempoField tune.width tune.tempo ++
          tune.notes.map Note.code) := by
      simp [layout]
    have htake : (layout tune.tempo tune.notes tune.width).take magic.length = magic := by
      simp [layout]
    simp only [decode, hdrop, htake, TempoWidth.ofTag?_tag]
    simpa using hread

end Blob
end TuneRelay
