import Mathlib
import TuneRelay.Proofs.Blob.Layout
import TuneRelay.Relay

/-!
# The first fault of a blob

Decoding looks at the length, the magic, the version, the width tag, the tempo field and the notes
in this order, and reports the first of them that is wrong. It reads by indices and slices, and no
check comes after a read that needs it.
-/
namespace TuneRelay.Blob

/-- The codes of the letters `CDEFGABR`. -/
def noteCodes : List UInt8 := [67, 68, 69, 70, 71, 65, 66, 82]

/-- The number whose bytes these are, the most significant first. -/
def bigEndian (field : List UInt8) : Nat :=
  field.foldl (fun value byte => 256 * value + byte.toNat) 0

/-- The version-1 header of a blob, up to its width tag. -/
structure Header (bytes : List UInt8) (width : TempoWidth) : Prop where
  length : 8 ≤ bytes.length
  magic : bytes.take 6 = magic
  version : bytes[6]? = some 1
  tag : bytes[7]? = some width.tag

/-- What is wrong with bytes first, if one looks at them from the front. -/
inductive FirstFault (bytes : List UInt8) : FormatError → Prop
  | header (hlength : bytes.length < 8) : FirstFault bytes (.truncated bytes.length 8)
  | magic (hlength : 8 ≤ bytes.length) (hmagic : bytes.take 6 ≠ magic) :
      FirstFault bytes .badMagic
  | version {found : UInt8} (hlength : 8 ≤ bytes.length) (hmagic : bytes.take 6 = Blob.magic)
      (hfound : bytes[6]? = some found) (hversion : found ≠ 1) :
      FirstFault bytes (.unsupportedVersion found)
  | width {tag : UInt8} (hlength : 8 ≤ bytes.length) (hmagic : bytes.take 6 = Blob.magic)
      (hversion : bytes[6]? = some 1) (htag : bytes[7]? = some tag) (hne : tag ≠ 1 ∧ tag ≠ 2) :
      FirstFault bytes (.unknownTempoWidth tag)
  | tempo {width : TempoWidth} (hheader : Header bytes width)
      (hcut : bytes.length < 8 + width.bytes) :
      FirstFault bytes (.truncated bytes.length (8 + width.bytes))
  | note {width : TempoWidth} {offset : Nat} {byte : UInt8} (hheader : Header bytes width)
      (hoffset : 8 + width.bytes ≤ offset) (hbyte : bytes[offset]? = some byte)
      (hnote : byte ∉ noteCodes)
      (hfirst : ∀ k, 8 + width.bytes ≤ k → k < offset → ∃ code ∈ noteCodes,
        bytes[k]? = some code) :
      FirstFault bytes (.invalidNote offset byte)

def byteAt (bytes : List UInt8) (i : Nat) : Except OutOfRange UInt8 :=
  if h : i < bytes.length then .ok bytes[i] else .error ⟨bytes.length, i⟩

def sliceTo (bytes : List UInt8) (stop : Nat) : Except OutOfRange (List UInt8) :=
  if stop ≤ bytes.length then .ok (bytes.take stop) else .error ⟨bytes.length, stop⟩

def sliceFrom (bytes : List UInt8) (start : Nat) : Except OutOfRange (List UInt8) :=
  if start ≤ bytes.length then .ok (bytes.drop start) else .error ⟨bytes.length, start⟩

def readTempoIndexed (bytes : List UInt8) : TempoWidth → Except OutOfRange Nat
  | .narrow => return (← byteAt bytes headerLength).toNat
  | .wide => do
    let high ← byteAt bytes headerLength
    let low ← byteAt bytes (headerLength + 1)
    return bigEndian [high, low]

def readTuneIndexed (bytes : List UInt8) (width : TempoWidth) :
    Except OutOfRange (Except FormatError Tune) := do
  let start := headerLength + width.bytes
  if bytes.length < start then return .error (.truncated bytes.length start)
  let tempo ← readTempoIndexed bytes width
  let codes ← sliceFrom bytes start
  return (readNotes start [] codes).map (⟨version, width, tempo, ·⟩)

/-- Decoding with every index and every slice checked against the bytes there are. -/
def decodeIndexed (bytes : List UInt8) : Except OutOfRange (Except FormatError Tune) := do
  if bytes.length < headerLength then return .error (.truncated bytes.length headerLength)
  let front ← sliceTo bytes magic.length
  if front ≠ magic then return .error .badMagic
  let found ← byteAt bytes magic.length
  if found ≠ version then return .error (.unsupportedVersion found)
  let tag ← byteAt bytes (magic.length + 1)
  match TempoWidth.ofTag? tag with
  | none => return .error (.unknownTempoWidth tag)
  | some width => readTuneIndexed bytes width

theorem byteAt_of_lt {bytes : List UInt8} {i : Nat} (h : i < bytes.length) :
    byteAt bytes i = .ok bytes[i] := dif_pos h

theorem sliceTo_of_le {bytes : List UInt8} {stop : Nat} (h : stop ≤ bytes.length) :
    sliceTo bytes stop = .ok (bytes.take stop) := if_pos h

theorem sliceFrom_of_le {bytes : List UInt8} {start : Nat} (h : start ≤ bytes.length) :
    sliceFrom bytes start = .ok (bytes.drop start) := if_pos h

theorem mem_noteCodes_iff {byte : UInt8} : byte ∈ noteCodes ↔ ∃ note : Note, byte = note.code := by
  constructor
  · intro h
    simp only [noteCodes, List.mem_cons, List.not_mem_nil, or_false] at h
    rcases h with rfl | rfl | rfl | rfl | rfl | rfl | rfl | rfl
    exacts [⟨.c, rfl⟩, ⟨.d, rfl⟩, ⟨.e, rfl⟩, ⟨.f, rfl⟩, ⟨.g, rfl⟩, ⟨.a, rfl⟩, ⟨.b, rfl⟩,
      ⟨.rest, rfl⟩]
  · rintro ⟨note, rfl⟩
    cases note <;> decide

theorem ofCode?_eq_none_iff {byte : UInt8} : Note.ofCode? byte = none ↔ byte ∉ noteCodes := by
  simp only [mem_noteCodes_iff, Option.eq_none_iff_forall_ne_some, ne_eq,
    Note.ofCode?_eq_some_iff, not_exists]

theorem exists_map_code {codes : List UInt8} (h : ∀ code ∈ codes, code ∈ noteCodes) :
    ∃ notes : List Note, codes = notes.map Note.code := by
  induction codes with
  | nil => exact ⟨[], rfl⟩
  | cons code rest ih =>
    obtain ⟨note, rfl⟩ := mem_noteCodes_iff.mp (h code List.mem_cons_self)
    obtain ⟨notes, rfl⟩ := ih fun code hcode => h code (List.mem_cons_of_mem _ hcode)
    exact ⟨note :: notes, rfl⟩

theorem ofTag?_eq_none_iff {tag : UInt8} : TempoWidth.ofTag? tag = none ↔ tag ≠ 1 ∧ tag ≠ 2 := by
  by_cases h1 : tag = 1
  · simp [TempoWidth.ofTag?, h1]
  · simp [TempoWidth.ofTag?, h1]

theorem bigEndian_tempoField {width : TempoWidth} {tempo : Nat} (h : tempo ≤ width.maxTempo) :
    bigEndian (tempoField width tempo) = tempo := by
  cases width with
  | narrow => simpa [bigEndian, tempoField] using narrow_value h
  | wide => simpa [bigEndian, tempoField] using wide_value h

/-- A field of the right length is that of its own value. -/
theorem tempoField_bigEndian {width : TempoWidth} {field : List UInt8}
    (h : field.length = width.bytes) :
    tempoField width (bigEndian field) = field ∧ bigEndian field ≤ width.maxTempo := by
  cases width with
  | narrow =>
    obtain ⟨tempo, rfl⟩ := List.length_eq_one_iff.mp h
    have hlt := tempo.toNat_lt
    refine ⟨by simp [bigEndian, tempoField], ?_⟩
    simp only [bigEndian, List.foldl_cons, List.foldl_nil, TempoWidth.maxTempo]
    omega
  | wide =>
    obtain ⟨high, low, rfl⟩ := List.length_eq_two.mp h
    have hhigh := high.toNat_lt
    have hlow := low.toNat_lt
    refine ⟨by simpa [bigEndian] using wide_field high low, ?_⟩
    simp only [bigEndian, List.foldl_cons, List.foldl_nil, TempoWidth.maxTempo]
    omega

/-- Reading notes stops at the first byte that is no note code. -/
theorem readNotes_eq_error_iff {offset : Nat} {known : List Note} {codes : List UInt8}
    {fault : FormatError} : readNotes offset known codes = .error fault ↔
      ∃ i byte, codes[i]? = some byte ∧ byte ∉ noteCodes ∧
        (∀ k < i, ∃ code ∈ noteCodes, codes[k]? = some code) ∧
        fault = .invalidNote (offset + i) byte := by
  -- the offset moves on with every note, so the index counts from where the reading is
  induction codes generalizing offset known with
  | nil => simp [readNotes]
  | cons first rest ih =>
    cases hfirst : Note.ofCode? first with
    | none =>
      have hbad := ofCode?_eq_none_iff.mp hfirst
      simp only [readNotes, hfirst, Except.error.injEq]
      constructor
      · rintro rfl
        exact ⟨0, first, rfl, hbad, fun k hk => absurd hk k.not_lt_zero, rfl⟩
      · rintro ⟨i, byte, hbyte, -, hbefore, rfl⟩
        cases i with
        | zero =>
          obtain rfl : first = byte := by simpa using hbyte
          rfl
        | succ i =>
          obtain ⟨code, hcode, hzero⟩ := hbefore 0 i.succ_pos
          obtain rfl : first = code := by simpa using hzero
          exact absurd hcode hbad
    | some note =>
      have hgood : first ∈ noteCodes :=
        mem_noteCodes_iff.mpr ⟨note, Note.ofCode?_eq_some_iff.mp hfirst⟩
      simp only [readNotes, hfirst, ih]
      constructor
      · rintro ⟨i, byte, hbyte, hbad, hbefore, rfl⟩
        refine ⟨i + 1, byte, hbyte, hbad, ?_, by rw [Nat.add_assoc, Nat.add_comm 1]⟩
        intro k hk
        cases k with
        | zero => exact ⟨first, hgood, rfl⟩
        | succ k => exact hbefore k (Nat.lt_of_succ_lt_succ hk)
      · rintro ⟨i, byte, hbyte, hbad, hbefore, rfl⟩
        cases i with
        | zero =>
          obtain rfl : first = byte := by simpa using hbyte
          exact absurd hgood hbad
        | succ i =>
          exact ⟨i, byte, hbyte, hbad, fun k hk => hbefore (k + 1) (Nat.succ_lt_succ hk),
            by rw [Nat.add_assoc, Nat.add_comm 1]⟩

/-- The tempo and the notes by the positions of their bytes. -/
theorem readTune_eq {bytes : List UInt8} (h : 8 ≤ bytes.length) (width : TempoWidth) :
    readTune bytes.length width (bytes.drop 8) =
      if bytes.length < 8 + width.bytes then .error (.truncated bytes.length (8 + width.bytes))
      else (readNotes (8 + width.bytes) [] (bytes.drop (8 + width.bytes))).map
        (⟨version, width, bigEndian ((bytes.drop 8).take width.bytes), ·⟩) := by
  have hlength : bytes.length = 8 + (bytes.drop 8).length := by
    rw [List.length_drop]
    omega
  have hcut : bytes.length < 8 + width.bytes ↔ (bytes.drop 8).length < width.bytes := by omega
  rw [← List.drop_drop, if_congr hcut rfl rfl]
  cases width with
  | narrow =>
    rcases bytes.drop 8 with _ | ⟨tempo, codes⟩ <;>
      simp [readTune, bigEndian, TempoWidth.bytes, headerLength]
  | wide =>
    rcases bytes.drop 8 with _ | ⟨high, _ | ⟨low, codes⟩⟩ <;>
      simp [readTune, bigEndian, TempoWidth.bytes, headerLength]

theorem readTempoIndexed_eq {bytes : List UInt8} {width : TempoWidth}
    (h : 8 + width.bytes ≤ bytes.length) :
    readTempoIndexed bytes width = .ok (bigEndian ((bytes.drop 8).take width.bytes)) := by
  have h8 : 8 < bytes.length := by
    have : 0 < width.bytes := by cases width <;> decide
    omega
  rw [List.drop_eq_getElem_cons h8]
  cases width with
  | narrow =>
    simp only [readTempoIndexed, headerLength, byteAt_of_lt h8, TempoWidth.bytes,
      List.take_succ_cons, List.take_zero]
    simp only [bigEndian, List.foldl_cons, List.foldl_nil, Nat.mul_zero, Nat.zero_add]
    rfl
  | wide =>
    have h9 : 9 < bytes.length := h
    rw [List.drop_eq_getElem_cons h9]
    simp only [readTempoIndexed, headerLength, byteAt_of_lt h8, byteAt_of_lt h9, TempoWidth.bytes]
    rfl

theorem readTuneIndexed_eq {bytes : List UInt8} (h : 8 ≤ bytes.length) (width : TempoWidth) :
    readTuneIndexed bytes width = .ok (readTune bytes.length width (bytes.drop 8)) := by
  rw [readTune_eq h]
  by_cases hcut : bytes.length < headerLength + width.bytes
  · simp only [readTuneIndexed, if_pos hcut]
    rw [if_pos (show bytes.length < 8 + width.bytes from hcut)]
    rfl
  · have hle : 8 + width.bytes ≤ bytes.length := Nat.le_of_not_lt hcut
    have hcodes : sliceFrom bytes (headerLength + width.bytes) =
        .ok (bytes.drop (8 + width.bytes)) := sliceFrom_of_le hle
    simp only [readTuneIndexed, if_neg hcut, readTempoIndexed_eq hle, hcodes]
    rw [if_neg (Nat.not_lt.mpr hle)]
    rfl

/-- Past the header the tempo field may be cut, and then a byte may be no note. -/
theorem readTune_eq_error_iff {bytes : List UInt8} {width : TempoWidth}
    (hheader : Header bytes width) {fault : FormatError} :
    readTune bytes.length width (bytes.drop 8) = .error fault ↔
      bytes.length < 8 + width.bytes ∧ fault = .truncated bytes.length (8 + width.bytes) ∨
      ∃ offset byte, 8 + width.bytes ≤ offset ∧ bytes[offset]? = some byte ∧ byte ∉ noteCodes ∧
        (∀ k, 8 + width.bytes ≤ k → k < offset → ∃ code ∈ noteCodes, bytes[k]? = some code) ∧
        fault = .invalidNote offset byte := by
  rw [readTune_eq hheader.length]
  by_cases hcut : bytes.length < 8 + width.bytes
  · rw [if_pos hcut]
    constructor
    · intro h
      cases h
      exact .inl ⟨hcut, rfl⟩
    · rintro (⟨-, rfl⟩ | ⟨offset, byte, hoffset, hbyte, -⟩)
      · rfl
      · obtain ⟨hlt, -⟩ := List.getElem?_eq_some_iff.mp hbyte
        omega
  · rw [if_neg hcut, map_eq_error_iff, readNotes_eq_error_iff]
    simp only [List.getElem?_drop]
    constructor
    · rintro ⟨i, byte, hbyte, hnote, hbefore, rfl⟩
      refine .inr ⟨_, byte, Nat.le_add_right _ i, hbyte, hnote, ?_, rfl⟩
      intro k hk hki
      obtain ⟨j, rfl⟩ := Nat.exists_eq_add_of_le hk
      exact hbefore j (Nat.lt_of_add_lt_add_left hki)
    · rintro (⟨h, -⟩ | ⟨offset, byte, hoffset, hbyte, hnote, hbefore, rfl⟩)
      · exact absurd h hcut
      · obtain ⟨i, rfl⟩ := Nat.exists_eq_add_of_le hoffset
        exact ⟨i, byte, hbyte, hnote,
          fun j hj => hbefore _ (Nat.le_add_right _ j) (Nat.add_lt_add_left hj _), rfl⟩

theorem decode_of_lt {bytes : List UInt8} (h : bytes.length < 8) :
    decode bytes = .error (.truncated bytes.length 8) := by
  have hshort : (bytes.drop magic.length).length < 2 := by
    rw [List.length_drop]
    change bytes.length - 6 < 2
    omega
  rw [decode]
  split
  · rename_i found tag body hdrop
    rw [hdrop, List.length_cons, List.length_cons] at hshort
    omega
  · rfl

/-- The checks of the header by the positions of its bytes. -/
theorem decode_of_le {bytes : List UInt8} (h : 8 ≤ bytes.length) :
    decode bytes =
      if bytes.take 6 ≠ magic then .error .badMagic
      else if bytes[6] ≠ version then .error (.unsupportedVersion bytes[6])
      else (TempoWidth.ofTag? bytes[7]).elim (.error (.unknownTempoWidth bytes[7])) fun width =>
        readTune bytes.length width (bytes.drop 8) := by
  have hdrop : bytes.drop magic.length = bytes[6] :: bytes[7] :: bytes.drop 8 := by
    change bytes.drop 6 = _
    rw [List.drop_eq_getElem_cons (by omega), List.drop_eq_getElem_cons (by omega)]
  simp only [decode, hdrop]
  cases hwidth : TempoWidth.ofTag? bytes[7] <;> rfl

theorem decodeIndexed_eq (bytes : List UInt8) : decodeIndexed bytes = .ok (decode bytes) := by
  by_cases h : bytes.length < headerLength
  · rw [decode_of_lt h]
    simp only [decodeIndexed, if_pos h]
    rfl
  · have hle : 8 ≤ bytes.length := Nat.le_of_not_lt h
    have hslice : sliceTo bytes magic.length = .ok (bytes.take 6) :=
      sliceTo_of_le (show 6 ≤ bytes.length by omega)
    have hsix : byteAt bytes magic.length = .ok bytes[6] :=
      byteAt_of_lt (show 6 < bytes.length by omega)
    have hseven : byteAt bytes (magic.length + 1) = .ok bytes[7] :=
      byteAt_of_lt (show 7 < bytes.length by omega)
    rw [decode_of_le hle]
    simp only [decodeIndexed, if_neg h, hslice, hsix, hseven, bind, Except.bind]
    by_cases hmagic : bytes.take 6 ≠ magic
    · simp only [if_pos hmagic]
      rfl
    by_cases hversion : bytes[6] ≠ version
    · simp only [if_neg hmagic, if_pos hversion]
      rfl
    simp only [if_neg hmagic, if_neg hversion]
    cases TempoWidth.ofTag? bytes[7] with
    | none => rfl
    | some width => exact readTuneIndexed_eq hle width

theorem decode_of_version {bytes : List UInt8} {tag : UInt8} (hlength : 8 ≤ bytes.length)
    (hmagic : bytes.take 6 = magic) (hversion : bytes[6]? = some 1)
    (htag : bytes[7]? = some tag) :
    decode bytes = (TempoWidth.ofTag? tag).elim (.error (.unknownTempoWidth tag)) fun width =>
      readTune bytes.length width (bytes.drop 8) := by
  obtain ⟨_, hsix⟩ := List.getElem?_eq_some_iff.mp hversion
  obtain ⟨_, hseven⟩ := List.getElem?_eq_some_iff.mp htag
  have hsix : ¬ bytes[6] ≠ version := not_not.mpr hsix
  rw [decode_of_le hlength, if_neg (not_not.mpr hmagic), if_neg hsix, hseven]

theorem Header.decode_eq {bytes : List UInt8} {width : TempoWidth} (h : Header bytes width) :
    decode bytes = readTune bytes.length width (bytes.drop 8) := by
  rw [decode_of_version h.length h.magic h.version h.tag, TempoWidth.ofTag?_tag]
  rfl

theorem FirstFault.decode_eq {bytes : List UInt8} {fault : FormatError}
    (h : FirstFault bytes fault) : decode bytes = .error fault := by
  cases h with
  | header hlength => exact decode_of_lt hlength
  | magic hlength hmagic => rw [decode_of_le hlength, if_pos hmagic]
  | version hlength hmagic hfound hversion =>
    obtain ⟨_, rfl⟩ := List.getElem?_eq_some_iff.mp hfound
    have hne : bytes[6] ≠ Blob.version := hversion
    rw [decode_of_le hlength, if_neg (not_not.mpr hmagic), if_pos hne]
  | width hlength hmagic hversion htag hne =>
    rw [decode_of_version hlength hmagic hversion htag, ofTag?_eq_none_iff.mpr hne]
    rfl
  | tempo hheader hcut =>
    rw [hheader.decode_eq]
    exact (readTune_eq_error_iff hheader).mpr (.inl ⟨hcut, rfl⟩)
  | note hheader hoffset hbyte hnote hfirst =>
    rw [hheader.decode_eq]
    exact (readTune_eq_error_iff hheader).mpr
      (.inr ⟨_, _, hoffset, hbyte, hnote, hfirst, rfl⟩)

/-- Bytes long enough for a header have one, or a fault in it comes first. -/
theorem header_or_firstFault {bytes : List UInt8} (hlength : 8 ≤ bytes.length) :
    (∃ width, Header bytes width) ∨ ∃ fault, FirstFault bytes fault := by
  have hsix : bytes[6]? = some bytes[6] := List.getElem?_eq_getElem (by omega)
  have hseven : bytes[7]? = some bytes[7] := List.getElem?_eq_getElem (by omega)
  by_cases hmagic : bytes.take 6 ≠ magic
  · exact .inr ⟨_, .magic hlength hmagic⟩
  have hmagic := not_not.mp hmagic
  by_cases hversion : bytes[6] ≠ 1
  · exact .inr ⟨_, .version hlength hmagic hsix hversion⟩
  rw [not_not.mp hversion] at hsix
  cases hwidth : TempoWidth.ofTag? bytes[7] with
  | none => exact .inr ⟨_, .width hlength hmagic hsix hseven (ofTag?_eq_none_iff.mp hwidth)⟩
  | some width =>
    rw [TempoWidth.ofTag?_eq_some_iff.mp hwidth] at hseven
    exact .inl ⟨width, hlength, hmagic, hsix, hseven⟩

theorem firstFault_of_decode {bytes : List UInt8} {fault : FormatError}
    (h : decode bytes = .error fault) : FirstFault bytes fault := by
  -- decoding gives one fault only, so any first fault that is found is the one it gave
  have hsame {other : FormatError} (hother : FirstFault bytes other) : FirstFault bytes fault := by
    rw [hother.decode_eq] at h
    cases h
    exact hother
  by_cases hlength : 8 ≤ bytes.length
  · obtain ⟨width, hheader⟩ | ⟨other, hother⟩ := header_or_firstFault hlength
    · rw [hheader.decode_eq] at h
      obtain ⟨hcut, rfl⟩ | ⟨offset, byte, hoffset, hbyte, hnote, hfirst, rfl⟩ :=
        (readTune_eq_error_iff hheader).mp h
      · exact .tempo hheader hcut
      · exact .note hheader hoffset hbyte hnote hfirst
    · exact hsame hother
  · exact hsame (.header (Nat.lt_of_not_le hlength))

/-- What decodes is a header, a tempo field of its width and note codes, and nothing more. -/
theorem decode_eq_ok_iff_grammar {bytes : List UInt8} {tune : Tune} :
    decode bytes = .ok tune ↔ tune.version = 1 ∧ ∃ field : List UInt8,
      field.length = tune.width.bytes ∧ tune.tempo = bigEndian field ∧
      bytes = magic ++ 1 :: tune.width.tag :: (field ++ tune.notes.map Note.code) := by
  rw [decode_eq_ok_iff]
  constructor
  · rintro ⟨hversion, htempo, hbytes⟩
    refine ⟨hversion, _, tempoField_length tune.width tune.tempo, ?_, ?_⟩
    · exact (bigEndian_tempoField htempo).symm
    · simpa [layout, version] using hbytes
  · rintro ⟨hversion, field, hlength, htempo, hbytes⟩
    obtain ⟨hfield, hle⟩ := tempoField_bigEndian hlength
    refine ⟨hversion, htempo ▸ hle, ?_⟩
    rw [htempo, layout, hfield, hbytes]
    simp [version]

/-- Decoding accepts the version-1 grammar and nothing else, gives the first fault of all other
bytes, and reads no index and no slice that the bytes do not reach. -/
theorem decode_grammar_or_first_fault (bytes : List UInt8) :
    ((∃ tune, decode bytes = .ok tune) ↔ ∃ tag field codes,
      (tag = 1 ∧ field.length = 1 ∨ tag = 2 ∧ field.length = 2) ∧
      (∀ code ∈ codes, code ∈ noteCodes) ∧ bytes = magic ++ 1 :: tag :: (field ++ codes)) ∧
    (∀ tune, decode bytes = .ok tune ↔ tune.version = 1 ∧ ∃ field : List UInt8,
      field.length = tune.width.bytes ∧ tune.tempo = bigEndian field ∧
      bytes = magic ++ 1 :: tune.width.tag :: (field ++ tune.notes.map Note.code)) ∧
    (∀ fault, decode bytes = .error fault ↔ FirstFault bytes fault) ∧
    decodeIndexed bytes = .ok (decode bytes) := by
  refine ⟨?_, fun tune => decode_eq_ok_iff_grammar,
    fun fault => ⟨firstFault_of_decode, FirstFault.decode_eq⟩, decodeIndexed_eq bytes⟩
  constructor
  · rintro ⟨tune, htune⟩
    obtain ⟨-, field, hlength, -, hbytes⟩ := decode_eq_ok_iff_grammar.mp htune
    refine ⟨tune.width.tag, field, tune.notes.map Note.code, ?_, ?_, hbytes⟩
    · cases hwidth : tune.width with
      | narrow => exact .inl ⟨rfl, by rw [hlength, hwidth]; rfl⟩
      | wide => exact .inr ⟨rfl, by rw [hlength, hwidth]; rfl⟩
    · intro code hcode
      obtain ⟨note, -, rfl⟩ := List.mem_map.mp hcode
      exact mem_noteCodes_iff.mpr ⟨note, rfl⟩
  · rintro ⟨tag, field, codes, htag, hcodes, hbytes⟩
    obtain ⟨notes, rfl⟩ := exists_map_code hcodes
    obtain ⟨width, rfl, hlength⟩ : ∃ width : TempoWidth, tag = width.tag ∧
        field.length = width.bytes := by
      rcases htag with ⟨rfl, hlength⟩ | ⟨rfl, hlength⟩
      · exact ⟨.narrow, rfl, hlength⟩
      · exact ⟨.wide, rfl, hlength⟩
    exact ⟨⟨1, width, bigEndian field, notes⟩,
      decode_eq_ok_iff_grammar.mpr ⟨rfl, field, hlength, rfl, hbytes⟩⟩

end TuneRelay.Blob
