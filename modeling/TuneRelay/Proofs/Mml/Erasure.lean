import TuneRelay.Proofs.Mml.Rounds
import Mathlib

/-!
# Which escapes go

Characters that keep their places tell one escape from another. Erasing lists the escapes as they
go, and every order of erasing that ends in a clean text lists the same ones: those that a scan
removes.
-/
namespace TuneRelay.Mml

/-- A character and its place in the raw text. -/
abbrev Placed := Char × Nat

def letters (text : List Placed) : List Char := text.map Prod.fst

/-- Characters that are not printable and whole escapes are erased, one after the other, until the
rest is left; the escapes are listed in the order in which they go. -/
inductive Erases : List Placed → List (List Placed) → List Placed → Prop
  | done (rest : List Placed) : Erases rest [] rest
  | stripped (before : List Placed) (p : Placed) (after : List Placed)
      (hp : isPrintable p.1 = false) {erased : List (List Placed)} {rest : List Placed}
      (h : Erases (before ++ after) erased rest) : Erases (before ++ p :: after) erased rest
  | escape (before w after : List Placed) (hw : isEscape (letters w) = true)
      {erased : List (List Placed)} {rest : List Placed}
      (h : Erases (before ++ after) erased rest) : Erases (before ++ w ++ after) (w :: erased) rest

namespace Erases

variable {text rest w : List Placed} {erased : List (List Placed)}

theorem isEscape_of_mem (h : Erases text erased rest) (hw : w ∈ erased) :
    isEscape (letters w) = true := by
  induction h with
  | done rest => cases hw
  | stripped before p after hp h ih => exact ih hw
  | escape before v after hv h ih =>
    rcases List.mem_cons.mp hw with rfl | hw
    · exact hv
    · exact ih hw

theorem sublist_of_mem (h : Erases text erased rest) (hw : w ∈ erased) : w.Sublist text := by
  induction h with
  | done rest => cases hw
  | stripped before p after hp h ih =>
    exact (ih hw).trans ((List.sublist_cons_self p after).append_left before)
  | escape before v after hv h ih =>
    rcases List.mem_cons.mp hw with rfl | hw
    · exact (List.sublist_append_right before w).trans (List.sublist_append_left _ after)
    · exact (ih hw).trans ((List.sublist_append_left before v).append_right after)

/-- The printable characters of a text are those of the escapes and those that are left. -/
theorem flatten_perm (h : Erases text erased rest) :
    (erased.flatten ++ rest.filter fun p => isPrintable p.1).Perm
      (text.filter fun p => isPrintable p.1) := by
  induction h with
  | done rest => exact .refl _
  | stripped before p after hp h ih => simpa [List.filter_append, hp] using ih
  | escape before w after hw h ih =>
    have hall : w.filter (fun p => isPrintable p.1) = w := by
      apply List.filter_eq_self.mpr
      intro p hp
      exact isPrintable_of_mem_escape hw (List.mem_map_of_mem hp)
    simp only [List.filter_append, hall, List.flatten_cons, List.append_assoc] at ih ⊢
    exact (ih.append_left w).trans (List.perm_append_comm_assoc ..)

theorem length_flatten (h : Erases text erased rest) :
    erased.flatten.length = 5 * erased.length := by
  have hfive : erased.map List.length = List.replicate erased.length 5 := by
    rw [List.map_eq_replicate_iff]
    intro w hw
    have hlen := isEscape_length (h.isEscape_of_mem hw)
    rwa [letters, List.length_map] at hlen
  rw [List.length_flatten, hfive, List.sum_replicate, smul_eq_mul, Nat.mul_comm]

/-- The printable characters of a text are those that are left and five for each escape. -/
theorem countP_isPrintable (h : Erases text erased rest)
    (hclean : ∀ c ∈ letters rest, isPrintable c = true) :
    (letters text).countP isPrintable = (letters rest).length + 5 * erased.length := by
  have hall : rest.filter (fun p => isPrintable p.1) = rest := by
    apply List.filter_eq_self.mpr
    intro p hp
    exact hclean p.1 (List.mem_map_of_mem hp)
  have hlen := h.flatten_perm.length_eq
  rw [hall, List.length_append, h.length_flatten, ← List.countP_eq_length_filter] at hlen
  rw [letters, letters, List.countP_map, List.length_map, Nat.add_comm]
  exact hlen.symm

theorem nodup (h : Erases text erased rest) (htext : text.Nodup) : erased.Nodup := by
  have hall : (erased.flatten ++ rest.filter fun p => isPrintable p.1).Nodup :=
    h.flatten_perm.nodup_iff.mpr (htext.filter _)
  have hdisjoint := (List.nodup_flatten.mp (List.nodup_append.mp hall).1).2
  refine hdisjoint.imp_of_mem ?_
  rintro w v hw - hwv rfl
  have hne : w ≠ [] := by
    rintro rfl
    cases h.isEscape_of_mem hw
  obtain ⟨p, hp⟩ := List.exists_mem_of_ne_nil w hne
  exact hwv hp hp

end Erases

/-- What a scan holds, newest first, and the escapes it has removed, newest first. -/
structure Erasure where
  stack : List Placed := []
  erased : List (List Placed) := []

namespace Erasure

def settle (t : Erasure) : Erasure :=
  match t.stack with
  | last :: fourth :: third :: second :: first :: below =>
    if isEscape [first.1, second.1, third.1, fourth.1, last.1] then
      ⟨below, [first, second, third, fourth, last] :: t.erased⟩
    else t
  | _ => t

def read (t : Erasure) (p : Placed) : Erasure :=
  if isPrintable p.1 then settle { t with stack := p :: t.stack } else t

theorem settle_cases (t : Erasure) : t.settle = t ∨ ∃ w below, isEscape (letters w) = true ∧
    t.stack = w.reverse ++ below ∧ t.settle = ⟨below, w :: t.erased⟩ := by
  unfold settle
  split
  · rename_i last fourth third second first below hstack
    split
    · rename_i he
      exact .inr ⟨[first, second, third, fourth, last], below, he, hstack, rfl⟩
    · exact .inl rfl
  · exact .inl rfl

theorem settle_of_chars {t : Erasure} (h : settleChars (letters t.stack) = letters t.stack) :
    t.settle = t := by
  rcases t with ⟨stack, erased⟩
  rcases stack with _ | ⟨last, _ | ⟨fourth, _ | ⟨third, _ | ⟨second, _ | ⟨first, below⟩⟩⟩⟩⟩
  any_goals rfl
  by_cases he : isEscape [first.1, second.1, third.1, fourth.1, last.1] = true
  · have hlen := congrArg List.length h
    simp only [letters, List.map_cons, settleChars, if_pos he, List.length_cons] at hlen
    omega
  · simp only [settle, if_neg he]

/-- What goes onto the stack of characters goes onto that of characters with their places. -/
theorem read_of_push {t : Erasure} {p : Placed}
    (h : pushChar (letters t.stack) p.1 = p.1 :: letters t.stack) :
    t.read p = { t with stack := p :: t.stack } := by
  by_cases hp : isPrintable p.1 = true
  · rw [pushChar, if_pos hp] at h
    rw [read, if_pos hp]
    exact settle_of_chars h
  · rw [pushChar, if_neg hp] at h
    have hlen := congrArg List.length h
    simp at hlen

theorem read_of_not_printable {p : Placed} (hp : isPrintable p.1 = false) (t : Erasure) :
    t.read p = t := by
  rw [read, if_neg (by simp [hp])]

/-- An escape that is read whole goes at once. -/
theorem foldl_read_escape {w : List Placed} (hw : isEscape (letters w) = true) (t : Erasure) :
    w.foldl read t = { t with erased := w :: t.erased } := by
  obtain ⟨b, x, y, hletters, hb, hx, hy⟩ : ∃ b x y, letters w = ['$', '0', b, x, y] ∧
      isPrintable b = true ∧ isPrintable x = true ∧ isPrintable y = true := by
    have hall : ∀ c ∈ letters w, isPrintable c = true := fun c => isPrintable_of_mem_escape hw
    rcases isEscape_iff.mp hw with ⟨x, y, hl, -⟩ | hl
    · rw [hl] at hall
      exact ⟨'b', x, y, hl, rfl, hall x (by simp), hall y (by simp)⟩
    · exact ⟨'B', '0', '0', hl, rfl, rfl, rfl⟩
  rw [hletters] at hw
  rcases w with _ | ⟨p₁, _ | ⟨p₂, _ | ⟨p₃, _ | ⟨p₄, _ | ⟨p₅, _ | ⟨p₆, w⟩⟩⟩⟩⟩⟩
  any_goals simp [letters] at hletters
  obtain ⟨h₁, h₂, h₃, h₄, h₅⟩ := hletters
  -- no escape ends before the fifth character, so four are pushed and the fifth settles
  have hpush₁ : t.read p₁ = { t with stack := p₁ :: t.stack } := by
    apply read_of_push
    rw [h₁]
    exact pushChar_dollar _
  have hpush₂ : ({ t with stack := p₁ :: t.stack } : Erasure).read p₂ =
      { t with stack := p₂ :: p₁ :: t.stack } := by
    apply read_of_push
    simp only [letters, List.map_cons, h₁, h₂]
    exact pushChar_zero _
  have hpush₃ : ({ t with stack := p₂ :: p₁ :: t.stack } : Erasure).read p₃ =
      { t with stack := p₃ :: p₂ :: p₁ :: t.stack } := by
    apply read_of_push
    simp only [letters, List.map_cons, h₁, h₂, h₃]
    exact pushChar_letter _ hb
  have hpush₄ : ({ t with stack := p₃ :: p₂ :: p₁ :: t.stack } : Erasure).read p₄ =
      { t with stack := p₄ :: p₃ :: p₂ :: p₁ :: t.stack } := by
    apply read_of_push
    simp only [letters, List.map_cons, h₁, h₂, h₃, h₄]
    exact pushChar_digit _ b hx
  simp only [List.foldl_cons, List.foldl_nil, hpush₁, hpush₂, hpush₃, hpush₄]
  rw [read, if_pos (h₅ ▸ hy), settle]
  simp only [h₁, h₂, h₃, h₄, h₅, hw, if_true]

/-- What was erased before is only carried along. -/
theorem read_erased (t : Erasure) (p : Placed) (before : List (List Placed)) :
    ({ t with erased := t.erased ++ before } : Erasure).read p =
      { t.read p with erased := (t.read p).erased ++ before } := by
  rcases t with ⟨stack, erased⟩
  unfold read
  split
  · rcases stack with _ | ⟨fourth, _ | ⟨third, _ | ⟨second, _ | ⟨first, below⟩⟩⟩⟩
    any_goals rfl
    simp only [settle]
    split <;> rfl
  · rfl

theorem foldl_read_erased (text : List Placed) (t : Erasure) (before : List (List Placed)) :
    text.foldl read { t with erased := t.erased ++ before } =
      { text.foldl read t with erased := (text.foldl read t).erased ++ before } := by
  induction text generalizing t with
  | nil => rfl
  | cons p text ih => rw [List.foldl_cons, List.foldl_cons, read_erased, ih]

theorem foldl_read_cons (text stack : List Placed) (w : List Placed)
    (before : List (List Placed)) :
    (text.foldl read ⟨stack, w :: before⟩).stack = (text.foldl read ⟨stack, before⟩).stack ∧
      (text.foldl read ⟨stack, w :: before⟩).erased.Perm
        (w :: (text.foldl read ⟨stack, before⟩).erased) := by
  have hwith := foldl_read_erased text ⟨stack, []⟩ (w :: before)
  have hwithout := foldl_read_erased text ⟨stack, []⟩ before
  simp only [List.nil_append] at hwith hwithout
  rw [hwith, hwithout]
  exact ⟨rfl, List.perm_middle⟩

end Erasure

open Erasure

namespace Erases

variable {text rest : List Placed} {erased : List (List Placed)}

/-- What is erased leaves no trace on the stack, and a scan would have removed the same escapes. -/
theorem foldl_read (h : Erases text erased rest) (t : Erasure) :
    (text.foldl read t).stack = (rest.foldl read t).stack ∧
      (text.foldl read t).erased.Perm (erased ++ (rest.foldl read t).erased) := by
  induction h with
  | done rest => exact ⟨rfl, .refl _⟩
  | stripped before p after hp h ih =>
    simpa only [List.foldl_append, List.foldl_cons, read_of_not_printable hp] using ih
  | escape before w after hw h ih =>
    obtain ⟨hstack, hperm⟩ := ih
    simp only [List.foldl_append, foldl_read_escape hw] at hstack hperm ⊢
    obtain ⟨hstack', hperm'⟩ := foldl_read_cons after (before.foldl read t).stack w
      (before.foldl read t).erased
    exact ⟨hstack'.trans hstack, hperm'.trans (hperm.cons w)⟩

/-- A clean text is read without a removal. -/
theorem foldl_read_clean {stack : List Placed} (h : Clean (letters (stack.reverse ++ rest))) :
    rest.foldl read ⟨stack, erased⟩ = ⟨rest.reverse ++ stack, erased⟩ := by
  induction rest generalizing stack with
  | nil => rfl
  | cons p rest ih =>
    have hletters : Clean ((letters stack).reverse ++ p.1 :: letters rest) := by
      simpa [letters] using h
    rw [List.foldl_cons, read_of_push (pushChar_of_clean hletters), ih (by simpa using h)]
    simp

/-- Every order of erasing that ends in a clean text comes to what a scan comes to. -/
theorem scan_eq (h : Erases text erased rest) (hclean : Clean (letters rest)) :
    (text.foldl read {}).stack = rest.reverse ∧ (text.foldl read {}).erased.Perm erased := by
  have hrest : rest.foldl read {} = ⟨rest.reverse ++ [], []⟩ := foldl_read_clean hclean
  obtain ⟨hstack, hperm⟩ := h.foldl_read {}
  rw [hrest, List.append_nil] at hstack hperm
  exact ⟨hstack, by simpa using hperm⟩

/-- An escape that stands together in a text goes as itself, in every order. -/
theorem mem_of_isEscape {before w after : List Placed}
    (h : Erases (before ++ w ++ after) erased rest) (hclean : Clean (letters rest))
    (hw : isEscape (letters w) = true) : w ∈ erased := by
  obtain ⟨-, hperm⟩ := h.scan_eq hclean
  simp only [List.foldl_append, foldl_read_escape hw] at hperm
  have hgone := (foldl_read_cons after (before.foldl read {}).stack w
    (before.foldl read {}).erased).2
  exact (hgone.symm.trans hperm).subset List.mem_cons_self

end Erases

/-- A scan is one order of erasing. -/
theorem exists_erases (text stack : List Placed) : ∃ erased,
    Erases (stack.reverse ++ text) erased (text.foldl read ⟨stack, []⟩).stack.reverse := by
  induction text generalizing stack with
  | nil => exact ⟨[], by simpa using Erases.done stack.reverse⟩
  | cons p text ih =>
    cases hp : isPrintable p.1 with
    | false =>
      obtain ⟨erased, h⟩ := ih stack
      rw [List.foldl_cons, read_of_not_printable hp]
      exact ⟨erased, .stripped _ p text hp h⟩
    | true =>
      have hread : (⟨stack, []⟩ : Erasure).read p = settle ⟨p :: stack, []⟩ := if_pos hp
      rw [List.foldl_cons, hread]
      rcases settle_cases ⟨p :: stack, []⟩ with hkept | ⟨w, below, he, hstack, hgone⟩
      · obtain ⟨erased, h⟩ := ih (p :: stack)
        rw [hkept]
        exact ⟨erased, by simpa using h⟩
      · obtain ⟨erased, h⟩ := ih below
        have hsplit : stack.reverse ++ p :: text = below.reverse ++ w ++ text := by
          simpa using congrArg (·.reverse ++ text) hstack
        rw [hgone, hsplit, (foldl_read_cons text below w []).1]
        exact ⟨w :: erased, .escape _ w text he h⟩

end TuneRelay.Mml
