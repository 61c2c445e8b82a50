import TuneRelay.Proofs.Mml.Barriers

/-!
# Sanitizing as a retraction

Sanitizing always ends at a clean text, and a clean text is what it keeps. It keeps it without a
word about escapes that had to form first, so all that a second run can report are the prefixes that
the first has left.
-/
namespace TuneRelay.Mml
open Text

/-- Only printable characters and newlines, no zero escape, and none of the others. -/
def isClean (text : List Char) : Bool :=
  text.all isPrintable && !hasWindow isZeroEscape text && !hasWindow isHexEscape text

theorem hasWindow_cons {hit : List Char → Bool} {text : List Char}
    (h : hasWindow hit text = true) (c : Char) : hasWindow hit (c :: text) = true := by
  rcases text with _ | ⟨x, _ | ⟨y, _ | ⟨z, _ | ⟨u, text⟩⟩⟩⟩
  case cons.cons.cons.cons => rw [hasWindow, h, Bool.or_true]
  all_goals simp [hasWindow] at h

theorem hasWindow_of_split {hit : List Char → Bool} {w : List Char} (hw : hit w = true)
    (hlen : w.length = 5) (before after : List Char) :
    hasWindow hit (before ++ w ++ after) = true := by
  induction before with
  | nil =>
    rcases w with _ | ⟨a, _ | ⟨b, _ | ⟨c, _ | ⟨d, _ | ⟨e, _ | ⟨f, w⟩⟩⟩⟩⟩⟩
    any_goals simp at hlen
    simp [hasWindow, hw]
  | cons x before ih => exact hasWindow_cons ih x

theorem isClean_iff {text : List Char} : isClean text = true ↔ Clean text := by
  constructor
  · intro h
    obtain ⟨⟨hall, hzero⟩, hhex⟩ : (text.all isPrintable = true ∧
        hasWindow isZeroEscape text = false) ∧ hasWindow isHexEscape text = false := by
      simpa [isClean] using h
    refine ⟨List.all_eq_true.mp hall, ?_⟩
    rintro before w after rfl he
    rcases isEscape_eq_or.mp he with hw | hw
    · rw [hasWindow_of_split hw (isEscape_length he)] at hzero
      cases hzero
    · rw [hasWindow_of_split hw (isEscape_length he)] at hhex
      cases hhex
  · intro h
    have hall : text.all isPrintable = true := List.all_eq_true.mpr h.printable
    have hzero : hasWindow isZeroEscape text = false :=
      h.hasWindow_eq_false fun w hw => isEscape_eq_or.mpr (.inl hw)
    have hhex : hasWindow isHexEscape text = false :=
      h.hasWindow_eq_false fun w hw => isEscape_eq_or.mpr (.inr hw)
    rw [isClean, hall, hzero, hhex]
    rfl

/-- A scan of a clean text removes no escape, so it counts none. -/
theorem Clean.scan_counts {text : List Char} (h : Clean text) :
    (scan text).nested = 0 ∧ (scan text).spliced = 0 := by
  have hletters : letters text.zipIdx = text := List.zipIdx_map_fst 0 text
  have hrun : text.zipIdx.foldl Erasure.read ⟨[], []⟩ = ⟨text.zipIdx.reverse ++ [], []⟩ := by
    apply Erases.foldl_read_clean
    rw [List.reverse_nil, List.nil_append, hletters]
    exact h
  have hreads := reads_scan text
  rw [hrun] at hreads
  exact ⟨hreads.nested, hreads.spliced⟩

theorem Scan.warnings_of_counts {s : Scan} (hnested : s.nested = 0) (hspliced : s.spliced = 0) :
    s.warnings = [Warning.residualEscapePrefix (countPrefixes s.text)].filter
      (·.occurrences != 0) := by
  rw [warnings, hnested, hspliced]
  rfl

theorem Clean.warnings_eq {text : List Char} (h : Clean text) : (sanitize text).warnings =
    [Warning.residualEscapePrefix (countPrefixes text)].filter (·.occurrences != 0) := by
  obtain ⟨hnested, hspliced⟩ := h.scan_counts
  have htext : (scan text).text = text := sanitize_of_clean h
  have hwarnings := Scan.warnings_of_counts hnested hspliced
  rw [htext] at hwarnings
  exact hwarnings

/-- Of its warnings, the one about prefixes is what a scan says about its text. -/
theorem Scan.filter_residual (s : Scan) : (s.warnings.filter fun w => w.kind = .residual) =
    [Warning.residualEscapePrefix (countPrefixes s.text)].filter (·.occurrences != 0) := by
  rw [warnings, List.filter_filter]
  rfl

/-- Every text is sanitized to a clean part of it, and the clean texts are those that stay as they
are, without a warning about escapes that formed. Sanitizing once more changes nothing and repeats
the warning about prefixes, if there was one, and no other. -/
theorem sanitize_retracts (raw : List Char) :
    isClean (sanitize raw).text.chars = true ∧ (sanitize raw).text.chars.Sublist raw ∧
    ((sanitize raw).text.chars = raw ↔ isClean raw = true) ∧
    (isClean raw = true → ∀ w ∈ (sanitize raw).warnings, w.kind = .residual) ∧
    (sanitize (sanitize raw).text.chars).text.chars = (sanitize raw).text.chars ∧
    (sanitize (sanitize raw).text.chars).warnings =
      (sanitize raw).warnings.filter fun w => w.kind = .residual := by
  have hclean : Clean (sanitize raw).text.chars := clean_sanitize raw
  refine ⟨isClean_iff.mpr hclean, sanitize_sublist raw, ?_, ?_, sanitize_of_clean hclean, ?_⟩
  · rw [isClean_iff]
    constructor
    · intro heq
      rw [← heq]
      exact hclean
    · exact sanitize_of_clean
  · intro h w hw
    rw [(isClean_iff.mp h).warnings_eq] at hw
    obtain rfl := List.mem_singleton.mp (List.mem_filter.mp hw).1
    rfl
  · rw [hclean.warnings_eq]
    exact (scan raw).filter_residual.symm

/-- A clean text with a prefix in it, and one whose escapes form only as others go. -/
theorem sanitize_retracts_prefix :
    let clean := "c $0bzz d".toList
    let raw := "$0$0b00b00$\x070b41 $0B1f".toList
    let output := (sanitize raw).text.chars
    isClean clean = true ∧ (sanitize clean).text.chars = clean ∧
      (∀ w ∈ (sanitize clean).warnings, w.kind = .residual) ∧
      isClean raw = false ∧ isClean output = true ∧
      (sanitize raw).warnings = [.nestedEscape 1, .splicedEscape 1, .residualEscapePrefix 1] ∧
      (sanitize output).warnings = [.residualEscapePrefix 1] := by
  intro clean raw output
  have hclean : isClean clean = true := by decide
  have hwarnings : (sanitize raw).warnings =
      [.nestedEscape 1, .splicedEscape 1, .residualEscapePrefix 1] := by decide
  obtain ⟨-, -, hkept, hkinds, -, -⟩ := sanitize_retracts clean
  obtain ⟨houtput, -, -, -, -, hagain⟩ := sanitize_retracts raw
  rw [hwarnings] at hagain
  exact ⟨hclean, hkept.mpr hclean, hkinds hclean, by decide, houtput, hwarnings, hagain⟩

end TuneRelay.Mml
