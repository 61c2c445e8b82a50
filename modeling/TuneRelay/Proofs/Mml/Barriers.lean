import TuneRelay.Proofs.Mml.CommentErasure
import TuneRelay.Proofs.Mml.Diagnostics

/-!
# What stands in no escape keeps texts apart

A printable character that stands in no escape parts a text in two. Each part is sanitized as if it
were the whole text, and the counts of the warnings are added. A newline is such a character, so
sanitizing goes line by line.
-/
namespace TuneRelay.Mml
open Text

namespace Warning

inductive Kind | nested | spliced | residual
  deriving DecidableEq

def kind : Warning → Kind
  | nestedEscape _ => .nested
  | splicedEscape _ => .spliced
  | residualEscapePrefix _ => .residual

/-- The occurrences that warnings of a kind report; none if there is no such warning. -/
def reported (kind : Kind) (warnings : List Warning) : Nat :=
  (warnings.map fun w => if w.kind = kind then w.occurrences else 0).sum

end Warning

/-- A kept character, counted on from the end of a scan. -/
def Kept.behind (k : Kept) (before : Scan) : Kept :=
  ⟨k.char, before.offset + k.offset, before.stripped + k.stripped⟩

namespace Scan

/-- The state of a scan, counted on from the end of another. -/
def behind (s before : Scan) : Scan where
  kept := s.kept.map (·.behind before) ++ before.kept
  offset := before.offset + s.offset
  stripped := before.stripped + s.stripped
  nested := before.nested + s.nested
  spliced := before.spliced + s.spliced

theorem settle_eq_self {s : Scan}
    (h : ∀ w below, s.chars = w.reverse ++ below → ¬ isEscape w = true) : s.settle = s := by
  rcases s with ⟨kept, offset, stripped, nested, spliced⟩
  rcases kept with _ | ⟨last, _ | ⟨fourth, _ | ⟨third, _ | ⟨second, _ | ⟨first, below⟩⟩⟩⟩⟩
  any_goals rfl
  have hnone := h [first.char, second.char, third.char, fourth.char, last.char]
    (below.map Kept.char) rfl
  simp only [settle, if_neg hnone]

/-- What is kept above a separator settles as it does alone: the counts only move on together. -/
theorem settle_behind {before : Scan} {d : Kept} {below : List Kept}
    (hkept : before.kept = d :: below) (hd : Separator d.char) (s : Scan) :
    (s.behind before).settle = s.settle.behind before := by
  rcases s with ⟨kept, offset, stripped, nested, spliced⟩
  rcases kept with _ | ⟨last, _ | ⟨fourth, _ | ⟨third, _ | ⟨second, _ | ⟨first, above⟩⟩⟩⟩⟩
  case cons.cons.cons.cons.cons =>
    simp only [settle, behind, Kept.behind, List.map_cons, List.cons_append,
      Nat.add_lt_add_iff_left, Nat.add_sub_add_left]
    split
    · split
      · rfl
      · split <;> rfl
    · rfl
  -- fewer than five characters stand above the separator, so every window of five holds it
  all_goals
    apply settle_eq_self
    intro w tail hsplit
    simp only [chars, behind, hkept, List.map_append, List.map_cons] at hsplit
    exact hd.not_escape hsplit (by simp)

theorem read_behind {before : Scan} {d : Kept} {below : List Kept}
    (hkept : before.kept = d :: below) (hd : Separator d.char) (s : Scan) (c : Char) :
    (s.behind before).read c = (s.read c).behind before := by
  have hoffset : (s.behind before).offset + c.utf8Size =
    before.offset + (s.offset + c.utf8Size) := Nat.add_assoc ..
  unfold read
  rw [hoffset]
  split
  · exact settle_behind hkept hd
      { s with kept := ⟨c, s.offset, s.stripped⟩ :: s.kept, offset := s.offset + c.utf8Size }
  · rfl

theorem foldl_read_behind {before : Scan} {d : Kept} {below : List Kept}
    (hkept : before.kept = d :: below) (hd : Separator d.char) (text : List Char) (s : Scan) :
    text.foldl read (s.behind before) = (text.foldl read s).behind before := by
  induction text generalizing s with
  | nil => rfl
  | cons c rest ih => rw [List.foldl_cons, read_behind hkept hd, ih, List.foldl_cons]

theorem read_separator {d : Char} (hd : Separator d) (s : Scan) : s.read d =
    { s with kept := ⟨d, s.offset, s.stripped⟩ :: s.kept, offset := s.offset + d.utf8Size } := by
  rw [read, if_pos hd.printable]
  apply settle_eq_self
  intro w below hsplit
  have hnewest : [] ++ d :: s.chars = w.reverse ++ below := hsplit
  exact hd.not_escape hnewest (by decide)

theorem start_behind (before : Scan) : ({} : Scan).behind before = before := rfl

end Scan

theorem scan_append_separator {d : Char} (hd : Separator d) (a b : List Char) :
    scan (a ++ d :: b) = (scan b).behind ((scan a).read d) := by
  have hkept : ((scan a).read d).kept =
      ⟨d, (scan a).offset, (scan a).stripped⟩ :: (scan a).kept := by rw [Scan.read_separator hd]
  have hrun := Scan.foldl_read_behind hkept hd b {}
  rw [Scan.start_behind] at hrun
  rw [scan, List.foldl_append, List.foldl_cons]
  exact hrun

theorem Separator.ne {d c : Char} (hd : Separator d) (hc : isHexDigit c = true) : d ≠ c := by
  rintro rfl
  rw [hd.not_hex] at hc
  cases hc

theorem startsEscapePrefix_append {d : Char} (hd : Separator d) (text rest : List Char) :
    startsEscapePrefix (text ++ d :: rest) = startsEscapePrefix text := by
  have hzero : d ≠ '0' := hd.ne rfl
  have hlower : d ≠ 'b' := hd.ne rfl
  have hupper : d ≠ 'B' := hd.ne rfl
  rw [Bool.eq_iff_iff, startsEscapePrefix_iff, startsEscapePrefix_iff]
  -- three characters decide, and the separator is none of those that a prefix has
  rcases text with _ | ⟨x, _ | ⟨y, _ | ⟨z, text⟩⟩⟩
  · simp [hd.ne_dollar]
  · simp [hzero]
  · simp [hlower, hupper]
  · simp

theorem countPrefixes_append {d : Char} (hd : Separator d) (a b : List Char) :
    countPrefixes (a ++ d :: b) = countPrefixes a + countPrefixes b := by
  induction a with
  | nil =>
    have hstart : startsEscapePrefix ([] ++ d :: b) = startsEscapePrefix [] :=
      startsEscapePrefix_append hd [] b
    rw [List.nil_append] at hstart ⊢
    rw [countPrefixes_cons, hstart]
    simp [startsEscapePrefix, countPrefixes, countPrefixesFrom]
  | cons c a ih =>
    have hstart := startsEscapePrefix_append hd (c :: a) b
    rw [List.cons_append] at hstart ⊢
    rw [countPrefixes_cons, hstart, ih, countPrefixes_cons]
    omega

/-- What a scan counts for a kind of warning. -/
def Scan.count (s : Scan) : Warning.Kind → Nat
  | .nested => s.nested
  | .spliced => s.spliced
  | .residual => countPrefixes s.text

/-- A warning of no occurrences reports as much as none. -/
theorem Warning.reported_filter (kind : Kind) (warnings : List Warning) :
    reported kind (warnings.filter (·.occurrences != 0)) = reported kind warnings := by
  induction warnings with
  | nil => rfl
  | cons w rest ih =>
    unfold reported at ih ⊢
    by_cases hnone : w.occurrences = 0
    · simp [hnone, ih]
    · simp [hnone, ih]

theorem Scan.reported_warnings (kind : Warning.Kind) (s : Scan) :
    Warning.reported kind s.warnings = s.count kind := by
  rw [warnings, Warning.reported_filter]
  cases kind <;> simp [Warning.reported, Warning.kind, Warning.occurrences, count]

theorem Scan.text_behind (s before : Scan) : (s.behind before).text = before.text ++ s.text := by
  simp [text, behind, Kept.behind, Function.comp_def]

/-- Behind a separator, counting starts anew and is added. -/
theorem count_scan_append {d : Char} (hd : Separator d) (a b : List Char) (kind : Warning.Kind) :
    (scan (a ++ d :: b)).count kind = (scan a).count kind + (scan b).count kind := by
  rw [scan_append_separator hd, Scan.read_separator hd]
  cases kind with
  | nested => rfl
  | spliced => rfl
  | residual =>
    have htext : Scan.text { scan a with
        kept := ⟨d, (scan a).offset, (scan a).stripped⟩ :: (scan a).kept
        offset := (scan a).offset + d.utf8Size } = (scan a).text ++ [d] := by simp [Scan.text]
    rw [Scan.count, Scan.text_behind, htext, List.append_assoc, List.singleton_append,
      countPrefixes_append hd]
    rfl

theorem reported_append_separator {d : Char} (hd : Separator d) (a b : List Char)
    (kind : Warning.Kind) : Warning.reported kind (sanitize (a ++ d :: b)).warnings =
      Warning.reported kind (sanitize a).warnings +
        Warning.reported kind (sanitize b).warnings := by
  simp only [sanitize, Scan.reported_warnings]
  exact count_scan_append hd a b kind

/-- A text is a last line, or a line and a text after it. -/
theorem line_induction {P : List Char → Prop} (last : ∀ line, '\n' ∉ line → P line)
    (next : ∀ line rest, '\n' ∉ line → P rest → P (line ++ '\n' :: rest)) (text : List Char) :
    P text := by
  induction hn : text.length using Nat.strong_induction_on generalizing text with
  | _ length ih =>
    by_cases hline : '\n' ∈ text
    · obtain ⟨line, rest, rfl, hfirst⟩ := List.eq_append_cons_of_mem hline
      have hlt : rest.length < length := by
        rw [← hn, List.length_append, List.length_cons]
        omega
      exact next line rest hfirst (ih rest.length hlt rest rfl)
    · exact last text hline

theorem splitOn_sanitize (raw : List Char) : (sanitize raw).text.chars.splitOn '\n' =
    (raw.splitOn '\n').map fun line => (sanitize line).text.chars := by
  induction raw using line_induction with
  | last line hline =>
    rw [List.splitOn_eq_singleton hline, List.splitOn_eq_singleton (not_mem_sanitize hline)]
    rfl
  | next line rest hline ih =>
    rw [sanitize_append_separator separator_newline,
      List.splitOn_append_cons_self_of_not_mem (not_mem_sanitize hline), ih,
      List.splitOn_append_cons_self_of_not_mem hline, List.map_cons]

theorem reported_lines (kind : Warning.Kind) (raw : List Char) :
    Warning.reported kind (sanitize raw).warnings = ((raw.splitOn '\n').map fun line =>
      Warning.reported kind (sanitize line).warnings).sum := by
  induction raw using line_induction with
  | last line hline => simp [List.splitOn_eq_singleton hline]
  | next line rest hline ih =>
    rw [reported_append_separator separator_newline, ih,
      List.splitOn_append_cons_self_of_not_mem hline, List.map_cons, List.sum_cons]

/-- A character that can be part of no escape stays where it is, and what stands before it and after
it is sanitized apart, with the counts of each kind of warning added. So there are as many lines as
before, each is sanitized by itself, and nothing goes from one to another. -/
theorem separators_are_barriers :
    (∀ d, Separator d → ∀ a b : List Char,
      (sanitize (a ++ d :: b)).text.chars =
        (sanitize a).text.chars ++ d :: (sanitize b).text.chars ∧
      ∀ kind, Warning.reported kind (sanitize (a ++ d :: b)).warnings =
        Warning.reported kind (sanitize a).warnings +
          Warning.reported kind (sanitize b).warnings) ∧
    ∀ raw : List Char,
      let output := (sanitize raw).text.chars
      output.splitOn '\n' = (raw.splitOn '\n').map (fun line => (sanitize line).text.chars) ∧
      (output.splitOn '\n').length = (raw.splitOn '\n').length ∧
      List.Forall₂ List.Sublist (output.splitOn '\n') (raw.splitOn '\n') ∧
      ∀ kind, Warning.reported kind (sanitize raw).warnings = ((raw.splitOn '\n').map fun line =>
        Warning.reported kind (sanitize line).warnings).sum := by
  constructor
  · intro d hd a b
    exact ⟨sanitize_append_separator hd a b, reported_append_separator hd a b⟩
  · intro raw output
    have hlines : output.splitOn '\n' =
        (raw.splitOn '\n').map fun line => (sanitize line).text.chars := splitOn_sanitize raw
    refine ⟨hlines, ?_, ?_, fun kind => reported_lines kind raw⟩
    · rw [hlines, List.length_map]
    · rw [hlines, List.forall₂_map_left_iff]
      exact List.forall₂_same.mpr fun line _ => sanitize_sublist line

/-- On both sides of a letter escapes form and prefixes stay. -/
theorem separators_are_barriers_letter :
    let a := "$0$0b41b00$0b".toList
    let b := "$\x070b00c$0bg".toList
    let warnings := (sanitize (a ++ 'T' :: b)).warnings
    (∀ d ∈ ['\n', ';', ' ', 'T', 'g'], Separator d) ∧
      (sanitize (a ++ 'T' :: b)).text.chars = "$0bTc$0bg".toList ∧
      Warning.reported .nested warnings = 1 ∧ Warning.reported .spliced warnings = 1 ∧
      Warning.reported .residual warnings = 2 := by
  intro a b warnings
  have hseparators : ∀ d ∈ ['\n', ';', ' ', 'T', 'g'], Separator d := by
    intro d hd
    simp only [List.mem_cons, List.not_mem_nil, or_false] at hd
    rcases hd with rfl | rfl | rfl | rfl | rfl
    all_goals exact ⟨rfl, by decide, rfl⟩
  obtain ⟨htext, hreported⟩ := separators_are_barriers.1 'T' (hseparators 'T' (by decide)) a b
  exact ⟨hseparators, htext.trans (by decide), (hreported .nested).trans (by decide),
    (hreported .spliced).trans (by decide), (hreported .residual).trans (by decide)⟩

end TuneRelay.Mml
