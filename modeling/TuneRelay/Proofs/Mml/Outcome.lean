import TuneRelay.Proofs.Blob.Bijection
import TuneRelay.Proofs.Mml.Rounds
import TuneRelay.Proofs.Mml.Tempo

/-!
# What compiling a text comes to

One scan drops the comments and keeps the lines apart: it leaves each line up to its first
semicolon. The text that counts then states a tempo and spells a list of notes. These two and the
options decide whether there is a blob, and else which fault is reported.
-/
namespace TuneRelay.Mml
open Text

/-- A line up to its first semicolon. -/
def cutLine (line : List Char) : List Char := line.takeWhile (· != ';')

/-- The lines of a text, each cut at its first semicolon. -/
def cutLines (text : List Char) : List Char :=
  ['\n'].intercalate ((text.splitOn '\n').map cutLine)

theorem CommentScan.read_newline (s : CommentScan) : s.read '\n' = ⟨'\n' :: s.kept, false⟩ := rfl

theorem CommentScan.read_of_inComment {s : CommentScan} (h : s.inComment = true) {c : Char}
    (hc : c ≠ '\n') : s.read c = s := by
  rcases s with ⟨kept, inComment⟩
  obtain rfl : inComment = true := h
  simp [read, hc]

theorem CommentScan.read_semicolon (s : CommentScan) : s.read ';' = ⟨s.kept, true⟩ := by
  simp [read]

theorem CommentScan.read_of_ne {s : CommentScan} (h : s.inComment = false) {c : Char}
    (hline : c ≠ '\n') (hcut : c ≠ ';') : s.read c = ⟨c :: s.kept, false⟩ := by
  simp [read, h, hline, hcut]

/-- A scan in the middle of a line: an open comment swallows the rest of that line only. -/
theorem CommentScan.kept_foldl {text first : List Char} {others : List (List Char)}
    (h : text.splitOn '\n' = first :: others) (s : CommentScan) :
    (text.foldl read s).kept.reverse = s.kept.reverse ++
      ['\n'].intercalate ((if s.inComment then [] else cutLine first) :: others.map cutLine) := by
  induction text generalizing s first others with
  | nil =>
    obtain ⟨rfl, rfl⟩ : [] = first ∧ [] = others := by simpa using h
    simp [cutLine]
  | cons c rest ih =>
    obtain ⟨first', others', hrest⟩ := List.exists_cons_of_ne_nil (List.splitOn_ne_nil '\n' rest)
    rw [List.splitOn_cons_eq_if_modifyHead, hrest] at h
    rw [List.foldl_cons, ih hrest]
    by_cases hline : c = '\n'
    · subst hline
      obtain ⟨rfl, rfl⟩ : [] = first ∧ first' :: others' = others := by simpa using h
      simp [read_newline, cutLine, List.intercalate_cons_cons]
    · obtain ⟨rfl, rfl⟩ : c :: first' = first ∧ others' = others := by simpa [hline] using h
      cases hopen : s.inComment with
      | true => simp [read_of_inComment hopen hline, hopen]
      | false =>
        by_cases hcut : c = ';'
        · subst hcut
          simp [read_semicolon, cutLine]
        · have hkeep : cutLine (c :: first') = c :: cutLine first' := by simp [cutLine, hcut]
          simp [read_of_ne hopen hline hcut, hkeep]

theorem stripComments_eq_cutLines (text : List Char) : stripComments text = cutLines text := by
  obtain ⟨first, others, h⟩ := List.exists_cons_of_ne_nil (List.splitOn_ne_nil '\n' text)
  have hkept := CommentScan.kept_foldl h {}
  rw [stripComments, hkept, cutLines, h]
  rfl

theorem CommentScan.mem_kept_foldl {text : List Char} {s : CommentScan} {c : Char}
    (h : c ∈ (text.foldl read s).kept) : c ∈ s.kept ∨ c ∈ text := by
  induction text generalizing s with
  | nil => exact .inl h
  | cons d rest ih =>
    have hread : c ∈ (s.read d).kept → c ∈ s.kept ∨ c = d := by
      unfold read
      split
      · intro hmem
        exact (List.mem_cons.mp hmem).symm
      · split
        · exact .inl
        · intro hmem
          exact (List.mem_cons.mp hmem).symm
    rcases ih h with hkept | hrest
    · rcases hread hkept with hs | rfl
      · exact .inl hs
      · exact .inr List.mem_cons_self
    · exact .inr (List.mem_cons_of_mem d hrest)

theorem mem_of_mem_stripComments {text : List Char} {c : Char} (h : c ∈ stripComments text) :
    c ∈ text := by
  rcases CommentScan.mem_kept_foldl (List.mem_reverse.mp h) with hnone | htext
  · cases hnone
  · exact htext

/-- The letters that are notes. -/
def noteLetters : NoteCase → List Char
  | .fold => ['C', 'D', 'E', 'F', 'G', 'A', 'B', 'R', 'c', 'd', 'e', 'f', 'g', 'a', 'b', 'r']
  | .exact => ['C', 'D', 'E', 'F', 'G', 'A', 'B', 'R']

/-- The notes that a text spells, in order and in uppercase. -/
def spelling (noteCase : NoteCase) (text : List Char) : List Char :=
  (text.filter (noteLetters noteCase).contains).map Char.toUpper

/-- The part of a text that counts. -/
def counting (text : SanitizedText) (options : CompileOptions) : List Char :=
  if options.stripComments then cutLines text.chars else text.chars

theorem toUpper_eq_self {c : Char} (h : ¬ ('a' ≤ c ∧ c ≤ 'z')) : c.toUpper = c := by
  unfold Char.toUpper
  exact dif_neg h

theorem mem_noteLetters_of_toUpper {c : Char} {note : Note} (h : c.toUpper = note.letter) :
    c ∈ noteLetters .fold := by
  by_cases hlower : 'a' ≤ c ∧ c ≤ 'z'
  · have hsmall : ∀ n < 123, (Note.ofLetter? (Char.ofNat n).toUpper).isSome = true →
        Char.ofNat n ∈ noteLetters .fold := by decide
    have hlt : c.toNat < 123 := Nat.lt_succ_of_le hlower.2
    have hc : Char.ofNat c.toNat = c := Char.ofNat_toNat c
    have hmem := hsmall c.toNat hlt
    rw [hc, h, Note.ofLetter?_letter] at hmem
    exact hmem rfl
  · rw [toUpper_eq_self hlower] at h
    rw [h]
    cases note
    all_goals decide

theorem noteOf?_eq_some {noteCase : NoteCase} {c : Char} {note : Note}
    (h : noteOf? noteCase c = some note) :
    c ∈ noteLetters noteCase ∧ note.letter = c.toUpper := by
  cases noteCase with
  | fold =>
    have hupper : c.toUpper = note.letter := Note.ofLetter?_eq_some_iff.mp h
    exact ⟨mem_noteLetters_of_toUpper hupper, hupper.symm⟩
  | exact =>
    obtain rfl : c = note.letter := Note.ofLetter?_eq_some_iff.mp h
    cases note
    all_goals decide

theorem noteOf?_isSome {noteCase : NoteCase} {c : Char} (h : c ∈ noteLetters noteCase) :
    (noteOf? noteCase c).isSome = true := by
  cases noteCase with
  | fold =>
    have hall : (noteLetters .fold).all (fun d => (noteOf? .fold d).isSome) = true := by decide
    exact List.all_eq_true.mp hall c h
  | exact =>
    have hall : (noteLetters .exact).all (fun d => (noteOf? .exact d).isSome) = true := by decide
    exact List.all_eq_true.mp hall c h

theorem extractNotes_letters (text : List Char) (noteCase : NoteCase) :
    (extractNotes text noteCase).map Note.letter = spelling noteCase text := by
  induction text with
  | nil => rfl
  | cons c rest ih =>
    rw [extractNotes] at ih
    rw [extractNotes, spelling]
    cases hnote : noteOf? noteCase c with
    | none =>
      have hc : ¬ (noteLetters noteCase).contains c = true := by
        intro hmem
        have hsome := noteOf?_isSome (List.contains_iff_mem.mp hmem)
        rw [hnote] at hsome
        cases hsome
      rw [List.filterMap_cons_none hnote, List.filter_cons_of_neg hc, ih, spelling]
    | some note =>
      obtain ⟨hmem, hletter⟩ := noteOf?_eq_some hnote
      rw [List.filterMap_cons_some hnote, List.filter_cons_of_pos (List.contains_iff_mem.mpr hmem),
        List.map_cons, List.map_cons, hletter, ih, spelling]

theorem body_eq_counting (text : SanitizedText) (options : CompileOptions) :
    body text options = counting text options := by
  unfold body counting
  split
  · exact stripComments_eq_cutLines text.chars
  · rfl

theorem isPrintable_of_mem_counting {text : SanitizedText} {options : CompileOptions} {c : Char}
    (h : c ∈ counting text options) : isPrintable c = true := by
  rw [← body_eq_counting] at h
  unfold body at h
  split at h
  · exact text.clean.printable c (mem_of_mem_stripComments h)
  · exact text.clean.printable c h

theorem compile_eq (text : SanitizedText) (options : CompileOptions) :
    compile text options =
      let tempo := statedTempo (counting text options)
      let notes := extractNotes (counting text options) options.noteCase
      if maxTextTempo < tempo then
        .error (.tempoOutOfRange (min tempo maxReportedTempo) 32 maxTextTempo)
      else if options.maxNotes < notes.length then
        .error (.tooManyNotes notes.length options.maxNotes)
      else (Blob.encode tempo notes options.tempoWidth).map (⟨·, tempo, notes⟩) := by
  have htempo := extractTempo_of_isPrintable fun c (hc : c ∈ counting text options) =>
    isPrintable_of_mem_counting hc
  unfold compile
  rw [body_eq_counting, htempo]
  by_cases hlarge : maxTextTempo < statedTempo (counting text options)
  · simp only [if_pos hlarge]
  · simp only [if_neg hlarge]

/-- Of its text, compiling reads only the part that counts. -/
theorem compile_congr {t u : SanitizedText} {options : CompileOptions}
    (h : body t options = body u options) : compile t options = compile u options := by
  simp only [compile, h]

/-- A result holds the notes of its text, and its blob is their encoding. -/
theorem compile_eq_ok {text : SanitizedText} {options : CompileOptions} {c : Compiled}
    (h : compile text options = .ok c) :
    c.notes = extractNotes (body text options) options.noteCase ∧
      Blob.encode c.tempo c.notes options.tempoWidth = .ok c.blob := by
  unfold compile at h
  split at h
  · cases h
  · dsimp only at h
    split_ifs at h
    obtain ⟨blob, hencode, rfl⟩ := map_eq_ok_iff.mp h
    exact ⟨rfl, hencode⟩

theorem decode_of_compile {text : SanitizedText} {options : CompileOptions} {c : Compiled}
    (h : compile text options = .ok c) :
    Blob.decode c.blob.bytes = .ok ⟨1, options.tempoWidth, c.tempo, c.notes⟩ :=
  Blob.decode_of_encode (compile_eq_ok h).2

theorem compileText_value (raw : List Char) (options : CompileOptions) :
    (compileText raw options).map Prod.fst = compile (sanitize raw).text options := by
  unfold compileText
  cases compile (sanitize raw).text options <;> rfl

/-- Compiling a text gives a blob of the tempo it states and the notes it spells, or the first of
three faults: no text may state so large a tempo, there are too many notes, or the tempo does not
fit its field. -/
theorem compile_outcome (text : SanitizedText) (options : CompileOptions) :
    let tempo := statedTempo (counting text options)
    let width := options.tempoWidth
    ∃ notes : List Note, notes.map Note.letter = spelling options.noteCase (counting text options) ∧
      if 4294967295 < tempo then
        compile text options =
          .error (.tempoOutOfRange (min tempo 18446744073709551615) 32 4294967295)
      else if options.maxNotes < notes.length then
        compile text options = .error (.tooManyNotes notes.length options.maxNotes)
      else if width.maxTempo < tempo then
        compile text options = .error (.tempoOutOfRange tempo width.bits width.maxTempo)
      else
        ∃ blob, compile text options = .ok ⟨blob, tempo, notes⟩ ∧
          blob.bytes.length = 8 + width.bytes + notes.length ∧
          Blob.decode blob.bytes = .ok ⟨1, width, tempo, notes⟩ := by
  intro tempo width
  let notes := extractNotes (counting text options) options.noteCase
  have hcompile : compile text options =
      if 4294967295 < tempo then
        .error (.tempoOutOfRange (min tempo 18446744073709551615) 32 4294967295)
      else if options.maxNotes < notes.length then
        .error (.tooManyNotes notes.length options.maxNotes)
      else (Blob.encode tempo notes width).map (⟨·, tempo, notes⟩) := compile_eq text options
  refine ⟨notes, extractNotes_letters _ _, ?_⟩
  by_cases hlarge : 4294967295 < tempo
  · rw [if_pos hlarge, hcompile, if_pos hlarge]
  · rw [if_neg hlarge, hcompile, if_neg hlarge]
    by_cases hmany : options.maxNotes < notes.length
    · rw [if_pos hmany, if_pos hmany]
    · rw [if_neg hmany, if_neg hmany]
      by_cases hwide : width.maxTempo < tempo
      · rw [if_pos hwide, Blob.encode_of_lt hwide]
        rfl
      · rw [if_neg hwide]
        obtain ⟨blob, hencode, hbytes⟩ := Blob.exists_encode (Nat.le_of_not_lt hwide) notes
        refine ⟨blob, ?_, ?_, Blob.decode_of_encode hencode⟩
        · rw [hencode]
          rfl
        · rw [hbytes, Blob.layout_length]
          rfl

end TuneRelay.Mml
