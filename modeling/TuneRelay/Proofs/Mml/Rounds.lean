import TuneRelay.Mml
import TuneRelay.Proofs.Mml.Stack
import Mathlib.Dynamics.FixedPoints.Basic
import Mathlib.Logic.Function.Iterate

/-!
# One scan against repeated rounds

A round deletes whole escapes and characters that are not printable. Neither leaves a trace on the
stack of a scan, so a scan tells no text from its round. A round either keeps its text or shortens
it, and what a round keeps is clean.
-/
namespace TuneRelay.Mml
open Text

theorem isEscape_eq_or {w : List Char} :
    isEscape w = true ↔ isZeroEscape w = true ∨ isHexEscape w = true := by
  constructor
  · intro h
    rcases isEscape_iff.mp h with ⟨x, y, rfl, hx, hy⟩ | rfl
    · exact .inr (by simp [isHexEscape, hx, hy])
    · exact .inl rfl
  · rintro (h | h)
    · unfold isZeroEscape at h
      split at h
      · rename_i b
        obtain rfl | rfl : b = 'b' ∨ b = 'B' := by simpa using h
        · rfl
        · rfl
      · cases h
    · unfold isHexEscape at h
      split at h
      · rename_i x y
        obtain ⟨hx, hy⟩ := Bool.and_eq_true_iff.mp h
        exact isEscape_iff.mpr (.inl ⟨x, y, rfl, hx, hy⟩)
      · cases h

theorem isEscape_length {w : List Char} (h : isEscape w = true) : w.length = 5 := by
  rcases isEscape_iff.mp h with ⟨x, y, rfl, -⟩ | rfl
  · rfl
  · rfl

theorem deleteWindowsOnto_of_short {kept text : List Char} (hit : List Char → Bool)
    (short : ∀ a b c d e rest, text = a :: b :: c :: d :: e :: rest → False) :
    deleteWindowsOnto kept hit text = kept.reverse ++ text := by
  rw [deleteWindowsOnto]
  exact short

theorem deleteWindowsOnto_sublist (kept : List Char) (hit : List Char → Bool) (text : List Char) :
    List.Sublist (deleteWindowsOnto kept hit text) (kept.reverse ++ text) := by
  induction kept, text using deleteWindowsOnto.induct hit with
  | case1 kept a b c d e rest h ih =>
    rw [deleteWindowsOnto, if_pos h]
    have hrest : List.Sublist rest (a :: b :: c :: d :: e :: rest) :=
      List.sublist_append_right [a, b, c, d, e] rest
    exact ih.trans (hrest.append_left kept.reverse)
  | case2 kept a b c d e rest h ih =>
    rw [deleteWindowsOnto, if_neg h]
    simpa using ih
  | case3 kept text short => simp only [deleteWindowsOnto_of_short hit short, List.Sublist.refl]

theorem deleteWindows_sublist (hit : List Char → Bool) (text : List Char) :
    List.Sublist (deleteWindows hit text) text := by
  simpa [deleteWindows] using deleteWindowsOnto_sublist [] hit text

/-- A pass that deletes nothing has met no window to delete. -/
theorem not_hit_of_deleteWindowsOnto_eq {kept : List Char} {hit : List Char → Bool}
    {text : List Char} (h : deleteWindowsOnto kept hit text = kept.reverse ++ text)
    {before w after : List Char} (hw : text = before ++ w ++ after) (hlen : w.length = 5) :
    hit w = false := by
  induction kept, text using deleteWindowsOnto.induct hit generalizing before with
  | case1 kept a b c d e rest hhit ih =>
    rw [deleteWindowsOnto, if_pos hhit] at h
    -- This window is gone from the left side, which is too short then.
    have hle := (deleteWindowsOnto_sublist kept hit rest).length_le
    rw [h] at hle
    simp only [List.length_append, List.length_cons] at hle
    omega
  | case2 kept a b c d e rest hhit ih =>
    rw [deleteWindowsOnto, if_neg hhit] at h
    cases before with
    | nil =>
      have hwindow : w = [a, b, c, d, e] := by
        have ht := congrArg (List.take 5) hw
        rw [List.nil_append, ← hlen, List.take_left, hlen] at ht
        simpa using ht.symm
      rw [hwindow]
      simpa using hhit
    | cons x before =>
      obtain ⟨-, hrest⟩ := List.cons.inj hw
      exact ih (by simpa using h) hrest
  | case3 kept text short =>
    have hlen' := congrArg List.length hw
    rcases text with _ | ⟨a, _ | ⟨b, _ | ⟨c, _ | ⟨d, _ | ⟨e, rest⟩⟩⟩⟩⟩
    any_goals simp only [List.length_append, List.length_cons, List.length_nil] at hlen'; omega
    exact absurd rfl (short a b c d e rest)

theorem foldl_pushChar_deleteWindowsOnto {hit : List Char → Bool}
    (hhit : ∀ w, hit w = true → isEscape w = true) (kept text stack : List Char) :
    (deleteWindowsOnto kept hit text).foldl pushChar stack =
      (kept.reverse ++ text).foldl pushChar stack := by
  induction kept, text using deleteWindowsOnto.induct hit with
  | case1 kept a b c d e rest h ih =>
    rw [deleteWindowsOnto, if_pos h, ih, List.foldl_append, List.foldl_append]
    have hgone := foldl_pushChar_escape (hhit _ h) (kept.reverse.foldl pushChar stack)
    have hsplit : a :: b :: c :: d :: e :: rest = [a, b, c, d, e] ++ rest := rfl
    rw [hsplit, List.foldl_append, hgone]
  | case2 kept a b c d e rest h ih =>
    rw [deleteWindowsOnto, if_neg h, ih]
    simp
  | case3 kept text short => rw [deleteWindowsOnto_of_short hit short]

theorem foldl_pushChar_filter (text stack : List Char) :
    (text.filter isPrintable).foldl pushChar stack = text.foldl pushChar stack := by
  induction text generalizing stack with
  | nil => rfl
  | cons c rest ih =>
    cases hc : isPrintable c with
    | true => rw [List.filter_cons_of_pos hc, List.foldl_cons, List.foldl_cons, ih]
    | false =>
      rw [List.filter_cons_of_neg (by simp [hc]), List.foldl_cons, ih,
        pushChar_of_not_printable hc]

theorem foldl_pushChar_round (text stack : List Char) :
    (round text).foldl pushChar stack = text.foldl pushChar stack := by
  have hzero : ∀ w, isZeroEscape w = true → isEscape w = true :=
    fun w h => isEscape_eq_or.mpr (.inl h)
  have hhex : ∀ w, isHexEscape w = true → isEscape w = true :=
    fun w h => isEscape_eq_or.mpr (.inr h)
  rw [round, foldl_pushChar_filter, deleteWindows, foldl_pushChar_deleteWindowsOnto hhex,
    deleteWindows, List.reverse_nil, List.nil_append, foldl_pushChar_deleteWindowsOnto hzero,
    List.reverse_nil, List.nil_append]

theorem sanitize_round (text : List Char) :
    (sanitize (round text)).text.chars = (sanitize text).text.chars := by
  rw [sanitize_chars, sanitize_chars, foldl_pushChar_round]

theorem sanitize_iterate_round (n : Nat) (raw : List Char) :
    (sanitize (round^[n] raw)).text.chars = (sanitize raw).text.chars := by
  induction n with
  | zero => rfl
  | succ n ih => rw [Function.iterate_succ_apply', sanitize_round, ih]

theorem round_sublist (text : List Char) : List.Sublist (round text) text :=
  List.filter_sublist.trans ((deleteWindows_sublist _ _).trans (deleteWindows_sublist _ _))

theorem round_length_lt {text : List Char} (h : ¬ Function.IsFixedPt round text) :
    (round text).length < text.length := by
  by_contra hlt
  exact h ((round_sublist text).eq_of_length_le (by omega))

/-- What a round keeps is clean: none of its passes has found anything to delete. -/
theorem clean_of_isFixedPt {text : List Char} (h : Function.IsFixedPt round text) :
    Clean text := by
  have hround : round text = text := h
  have hzeroSub := deleteWindows_sublist isZeroEscape text
  have hhexSub := deleteWindows_sublist isHexEscape (deleteWindows isZeroEscape text)
  have hfilterSub : List.Sublist (round text)
      (deleteWindows isHexEscape (deleteWindows isZeroEscape text)) := List.filter_sublist
  have hzeroLen := hzeroSub.length_le
  have hhexLen := hhexSub.length_le
  have hfilterLen := hfilterSub.length_le
  rw [hround] at hfilterLen
  have hzero : deleteWindows isZeroEscape text = text := hzeroSub.eq_of_length_le (by omega)
  rw [hzero] at hhexSub hfilterLen
  have hhex : deleteWindows isHexEscape text = text := hhexSub.eq_of_length_le hfilterLen
  refine ⟨?_, ?_⟩
  · rw [round, hzero, hhex] at hround
    exact List.filter_eq_self.mp hround
  · intro before w after hw he
    have hlen := isEscape_length he
    rcases isEscape_eq_or.mp he with hz | hx
    · have hnot := not_hit_of_deleteWindowsOnto_eq hzero hw hlen
      rw [hz] at hnot
      cases hnot
    · have hnot := not_hit_of_deleteWindowsOnto_eq hhex hw hlen
      rw [hx] at hnot
      cases hnot

theorem exists_isFixedPt_round (raw : List Char) :
    ∃ n, Function.IsFixedPt round (round^[n] raw) := by
  induction hn : raw.length using Nat.strong_induction_on generalizing raw with
  | _ length ih =>
    by_cases h : Function.IsFixedPt round raw
    · exact ⟨0, h⟩
    · have hlt := round_length_lt h
      rw [hn] at hlt
      obtain ⟨n, hfixed⟩ := ih (round raw).length hlt (round raw) rfl
      exact ⟨n + 1, hfixed⟩

theorem sanitize_of_isFixedPt {raw : List Char} {n : Nat}
    (h : Function.IsFixedPt round (round^[n] raw)) :
    (sanitize raw).text.chars = round^[n] raw := by
  rw [← sanitize_iterate_round n raw]
  exact sanitize_of_clean (clean_of_isFixedPt h)

theorem isFixedPt_round_sanitize (raw : List Char) :
    Function.IsFixedPt round (sanitize raw).text.chars := by
  obtain ⟨n, hfixed⟩ := exists_isFixedPt_round raw
  rw [sanitize_of_isFixedPt hfixed]
  exact hfixed

theorem clean_sanitize (raw : List Char) : Clean (sanitize raw).text.chars :=
  clean_of_isFixedPt (isFixedPt_round_sanitize raw)

theorem SanitizedText.clean (text : SanitizedText) : Clean text.chars := by
  obtain ⟨raw, hraw⟩ := text.scanned
  rw [hraw]
  exact clean_sanitize raw

theorem exists_window_of_hasWindow {hit : List Char → Bool} {text : List Char}
    (h : hasWindow hit text = true) :
    ∃ before w after, text = before ++ w ++ after ∧ hit w = true := by
  induction text using hasWindow.induct with
  | case1 a b c d e rest ih =>
    rw [hasWindow] at h
    rcases Bool.or_eq_true_iff.mp h with hw | hlater
    · exact ⟨[], [a, b, c, d, e], rest, rfl, hw⟩
    · obtain ⟨before, w, after, hsplit, hw⟩ := ih hlater
      exact ⟨a :: before, w, after, by rw [hsplit]; rfl, hw⟩
  | case2 text short =>
    rw [hasWindow] at h
    · cases h
    · exact short

theorem Clean.hasWindow_eq_false {text : List Char} (h : Clean text) {hit : List Char → Bool}
    (hhit : ∀ w, hit w = true → isEscape w = true) : hasWindow hit text = false := by
  by_contra hfound
  obtain ⟨before, w, after, hsplit, hw⟩ := exists_window_of_hasWindow (by simpa using hfound)
  exact h.escapeFree before w after hsplit (hhit w hw)

/-- The rounds reach a fixed point, and one scan finds it. -/
theorem rounds_settle_at_sanitize (raw : List Char) :
    (∃ n, Function.IsFixedPt round (round^[n] raw)) ∧
      ∀ n, Function.IsFixedPt round (round^[n] raw) →
        (sanitize raw).text.chars = round^[n] raw := by
  refine ⟨exists_isFixedPt_round raw, ?_⟩
  intro n h
  exact sanitize_of_isFixedPt h

end TuneRelay.Mml
