import TuneRelay.Proofs.Mml.Outcome
import Mathlib.Logic.Relation

/-!
# Deleting in any order

A text is reduced by losing one character that is not printable, or one escape, at a time. A
deletion can complete an escape whose parts stood apart, or spoil one that stood whole. Still every
order of deletions comes to the same end: the sanitized text, from which nothing more can be
deleted.
-/
namespace TuneRelay.Mml

/-- One deletion: of a character that is not printable, or of one escape. -/
inductive Deletes : List Char → List Char → Prop
  | stripped (before : List Char) (c : Char) (after : List Char) (hc : isPrintable c = false) :
      Deletes (before ++ c :: after) (before ++ after)
  | escape (before w after : List Char) (hw : isZeroEscape w = true ∨ isHexEscape w = true) :
      Deletes (before ++ w ++ after) (before ++ after)

/-- Any number of deletions, one after the other. -/
abbrev Reduces : List Char → List Char → Prop := Relation.ReflTransGen Deletes

/-- What is deleted leaves no trace on the stack, wherever it stands. -/
theorem Deletes.foldl_pushChar {raw s : List Char} (h : Deletes raw s) (stack : List Char) :
    s.foldl pushChar stack = raw.foldl pushChar stack := by
  cases h with
  | stripped before c after hc =>
    simp only [List.foldl_append, List.foldl_cons, pushChar_of_not_printable hc]
  | escape before w after hw =>
    have hescape : isEscape w = true := isEscape_eq_or.mpr hw
    simp only [List.foldl_append, foldl_pushChar_escape hescape]

theorem Reduces.foldl_pushChar {raw s : List Char} (h : Reduces raw s) (stack : List Char) :
    s.foldl pushChar stack = raw.foldl pushChar stack := by
  induction h with
  | refl => rfl
  | tail _ hdelete ih => rw [hdelete.foldl_pushChar, ih]

theorem SanitizedText.ext {t u : SanitizedText} (h : t.chars = u.chars) : t = u := by
  cases t
  cases u
  cases h
  rfl

theorem sanitize_of_reduces {raw s : List Char} (h : Reduces raw s) :
    (sanitize s).text = (sanitize raw).text := by
  have hchars : (sanitize s).text.chars = (sanitize raw).text.chars := by
    rw [sanitize_chars, sanitize_chars, h.foldl_pushChar]
  exact SanitizedText.ext hchars

theorem Deletes.append {raw s : List Char} (h : Deletes raw s) (left right : List Char) :
    Deletes (left ++ raw ++ right) (left ++ s ++ right) := by
  cases h with
  | stripped before c after hc =>
    simpa using Deletes.stripped (left ++ before) c (after ++ right) hc
  | escape before w after hw =>
    simpa using Deletes.escape (left ++ before) w (after ++ right) hw

theorem Reduces.append {raw s : List Char} (h : Reduces raw s) (left right : List Char) :
    Reduces (left ++ raw ++ right) (left ++ s ++ right) := by
  induction h with
  | refl => exact .refl
  | tail _ hdelete ih => exact ih.tail (hdelete.append left right)

theorem Deletes.sublist {raw s : List Char} (h : Deletes raw s) : List.Sublist s raw := by
  cases h with
  | stripped before c after hc => exact (List.sublist_cons_self c after).append_left before
  | escape before w after hw =>
    exact (List.sublist_append_left before w).append_right after

theorem Reduces.sublist {raw s : List Char} (h : Reduces raw s) : List.Sublist s raw := by
  induction h with
  | refl => exact .refl _
  | tail _ hdelete ih => exact hdelete.sublist.trans ih

theorem reduces_settleChars (stack : List Char) :
    Reduces stack.reverse (settleChars stack).reverse := by
  unfold settleChars
  split
  · rename_i last fourth third second first below
    split
    · rename_i hescape
      have hdelete := Deletes.escape below.reverse [first, second, third, fourth, last] []
        (isEscape_eq_or.mp hescape)
      exact .single (by simpa using hdelete)
    · exact .refl
  · exact .refl

theorem reduces_pushChar (stack : List Char) (c : Char) :
    Reduces (stack.reverse ++ [c]) (pushChar stack c).reverse := by
  cases hc : isPrintable c with
  | true =>
    rw [pushChar, if_pos hc]
    simpa using reduces_settleChars (c :: stack)
  | false =>
    rw [pushChar_of_not_printable hc]
    exact .single (by simpa using Deletes.stripped stack.reverse c [] hc)

theorem reduces_foldl_pushChar (text stack : List Char) :
    Reduces (stack.reverse ++ text) (text.foldl pushChar stack).reverse := by
  induction text generalizing stack with
  | nil => simpa using Relation.ReflTransGen.refl
  | cons c rest ih =>
    have hpush : Reduces (stack.reverse ++ c :: rest) ((pushChar stack c).reverse ++ rest) := by
      simpa using (reduces_pushChar stack c).append [] rest
    exact hpush.trans (ih (pushChar stack c))

theorem reduces_sanitize (raw : List Char) : Reduces raw (sanitize raw).text.chars := by
  rw [sanitize_chars]
  exact reduces_foldl_pushChar raw []

theorem sanitize_sublist (raw : List Char) : List.Sublist (sanitize raw).text.chars raw :=
  (reduces_sanitize raw).sublist

theorem Clean.not_deletes {text s : List Char} (h : Clean text) : ¬ Deletes text s := by
  intro hdelete
  cases hdelete with
  | stripped before c after hc =>
    have hprintable := h.printable c (by simp)
    rw [hc] at hprintable
    cases hprintable
  | escape before w after hw =>
    exact h.escapeFree before w after rfl (isEscape_eq_or.mpr hw)

/-- No order of deletions changes what sanitizing leaves or what compiling gives, but for the
warnings; so two parts may be sanitized before they are joined. Sanitizing is itself such an order
of deletions, one that goes on until nothing can be deleted. -/
theorem deletion_order_irrelevant :
    (∀ raw s, Reduces raw s → (sanitize s).text = (sanitize raw).text ∧
      ∀ options, (compileText s options).map Prod.fst = (compileText raw options).map Prod.fst) ∧
    (∀ a b, (sanitize (a ++ b)).text =
      (sanitize ((sanitize a).text.chars ++ (sanitize b).text.chars)).text) ∧
    ∀ raw, Reduces raw (sanitize raw).text.chars ∧ ∀ s, ¬ Deletes (sanitize raw).text.chars s := by
  refine ⟨?_, ?_, ?_⟩
  · intro raw s h
    have htext := sanitize_of_reduces h
    refine ⟨htext, ?_⟩
    intro options
    rw [compileText_value, compileText_value, htext]
  · intro a b
    have hleft : Reduces (a ++ b) ((sanitize a).text.chars ++ b) := by
      simpa using (reduces_sanitize a).append [] b
    have hright : Reduces ((sanitize a).text.chars ++ b)
        ((sanitize a).text.chars ++ (sanitize b).text.chars) := by
      simpa using (reduces_sanitize b).append (sanitize a).text.chars []
    exact (sanitize_of_reduces (hleft.trans hright)).symm
  · intro raw
    refine ⟨reduces_sanitize raw, ?_⟩
    intro s
    exact (clean_sanitize raw).not_deletes

/-- A bell inside an escape goes first, then an escape inside the same one. -/
theorem deletion_order_irrelevant_nested :
    Reduces "$0$0b41b\x0700c".toList "$0b00c".toList ∧
      (sanitize "$0b00c".toList).text = (sanitize "$0$0b41b\x0700c".toList).text ∧
      (compileText "$0b00c".toList {}).map Prod.fst =
        (compileText "$0$0b41b\x0700c".toList {}).map Prod.fst ∧
      (sanitize "$0b00c".toList).text.chars = ['c'] ∧
      (compileText "$0b00c".toList {}).map (fun c => (c.1.tempo, c.1.notes)) =
        .ok (120, [.c]) := by
  have hbell : Deletes "$0$0b41b\x0700c".toList "$0$0b41b00c".toList :=
    .stripped "$0$0b41b".toList '\x07' "00c".toList rfl
  have hescape : Deletes "$0$0b41b00c".toList "$0b00c".toList :=
    .escape "$0".toList "$0b41".toList "b00c".toList (.inr rfl)
  have hreduces : Reduces "$0$0b41b\x0700c".toList "$0b00c".toList :=
    .tail (.single hbell) hescape
  obtain ⟨htext, hcompiled⟩ := deletion_order_irrelevant.1 _ _ hreduces
  exact ⟨hreduces, htext, hcompiled {}, by decide, by decide⟩

end TuneRelay.Mml
