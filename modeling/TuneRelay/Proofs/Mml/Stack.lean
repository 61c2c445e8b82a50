import TuneRelay.Mml

/-!
# The scan as a stack of characters

Offsets and counts do not decide what a scan keeps. Without them it is a fold over a stack of
characters, and an escape pushed onto any stack leaves that stack as it was.
-/
namespace TuneRelay.Mml
open Text

/-- Removes the escape that ends a stack, newest character first. -/
def settleChars (stack : List Char) : List Char :=
  match stack with
  | last :: fourth :: third :: second :: first :: below =>
    if isEscape [first, second, third, fourth, last] then below else stack
  | _ => stack

def pushChar (stack : List Char) (c : Char) : List Char :=
  if isPrintable c then settleChars (c :: stack) else stack

def Scan.chars (s : Scan) : List Char := s.kept.map Kept.char

theorem Scan.chars_settle (s : Scan) : s.settle.chars = settleChars s.chars := by
  rcases s with ⟨kept, offset, stripped, nested, spliced⟩
  rcases kept with _ | ⟨last, _ | ⟨fourth, _ | ⟨third, _ | ⟨second, _ | ⟨first, below⟩⟩⟩⟩⟩
  any_goals rfl
  simp only [settle, chars, settleChars, List.map_cons]
  split
  · split
    · rfl
    · split <;> rfl
  · rfl

theorem Scan.chars_read (s : Scan) (c : Char) : (s.read c).chars = pushChar s.chars c := by
  by_cases hc : isPrintable c = true
  · rw [read, if_pos hc, pushChar, if_pos hc, chars_settle]
    rfl
  · rw [read, if_neg hc, pushChar, if_neg hc]
    rfl

theorem Scan.chars_foldl (raw : List Char) (s : Scan) :
    (raw.foldl read s).chars = raw.foldl pushChar s.chars := by
  induction raw generalizing s with
  | nil => rfl
  | cons c rest ih => rw [List.foldl_cons, ih, chars_read, List.foldl_cons]

theorem sanitize_chars (raw : List Char) :
    (sanitize raw).text.chars = (raw.foldl pushChar []).reverse := by
  have h : (scan raw).chars = raw.foldl pushChar [] := Scan.chars_foldl raw {}
  rw [← h]
  simp [sanitize, Scan.text, Scan.chars]

theorem isEscape_iff {w : List Char} : isEscape w = true ↔
    (∃ x y, w = ['$', '0', 'b', x, y] ∧ isHexDigit x = true ∧ isHexDigit y = true) ∨
      w = ['$', '0', 'B', '0', '0'] := by
  constructor
  · intro h
    unfold isEscape at h
    split at h
    · rename_i b x y
      rcases Bool.or_eq_true_iff.mp h with hb | hzero
      · obtain ⟨⟨rfl, hx⟩, hy⟩ : (b = 'b' ∧ isHexDigit x = true) ∧ isHexDigit y = true := by
          simpa using hb
        exact .inl ⟨x, y, rfl, hx, hy⟩
      · obtain ⟨⟨rfl, rfl⟩, rfl⟩ : (b = 'B' ∧ x = '0') ∧ y = '0' := by simpa using hzero
        exact .inr rfl
    · cases h
  · rintro (⟨x, y, rfl, hx, hy⟩ | rfl)
    · simp [isEscape, hx, hy]
    · rfl

theorem isPrintable_of_isHexDigit {c : Char} (h : isHexDigit c = true) : isPrintable c = true := by
  simp only [isHexDigit, Bool.or_eq_true, Bool.and_eq_true, decide_eq_true_eq] at h
  have hc : ' ' ≤ c ∧ c ≤ '~' := by
    rcases h with (⟨hl, hu⟩ | ⟨hl, hu⟩) | ⟨hl, hu⟩
    · exact ⟨Char.le_trans (by decide : ' ' ≤ '0') hl, Char.le_trans hu (by decide : '9' ≤ '~')⟩
    · exact ⟨Char.le_trans (by decide : ' ' ≤ 'A') hl, Char.le_trans hu (by decide : 'F' ≤ '~')⟩
    · exact ⟨Char.le_trans (by decide : ' ' ≤ 'a') hl, Char.le_trans hu (by decide : 'f' ≤ '~')⟩
  simp [isPrintable, hc]

theorem eq_dollar_or_isHexDigit_of_mem {w : List Char} (he : isEscape w = true) {c : Char}
    (hc : c ∈ w) : c = '$' ∨ isHexDigit c = true := by
  rcases isEscape_iff.mp he with ⟨x, y, rfl, hx, hy⟩ | rfl
  · have hparts : c = '$' ∨ c = '0' ∨ c = 'b' ∨ c = x ∨ c = y := by simpa using hc
    rcases hparts with rfl | rfl | rfl | rfl | rfl
    · exact .inl rfl
    · exact .inr rfl
    · exact .inr rfl
    · exact .inr hx
    · exact .inr hy
  · have hparts : c = '$' ∨ c = '0' ∨ c = 'B' ∨ c = '0' := by simpa using hc
    rcases hparts with rfl | rfl | rfl | rfl
    · exact .inl rfl
    · exact .inr rfl
    · exact .inr rfl
    · exact .inr rfl

theorem isPrintable_of_mem_escape {w : List Char} (he : isEscape w = true) {c : Char}
    (hc : c ∈ w) : isPrintable c = true := by
  rcases eq_dollar_or_isHexDigit_of_mem he hc with rfl | hhex
  · rfl
  · exact isPrintable_of_isHexDigit hhex

/-- A stack whose newest five characters are no escape stays as it is. -/
theorem settleChars_eq_self {stack : List Char}
    (h : ∀ w below, stack = w.reverse ++ below → ¬ isEscape w = true) :
    settleChars stack = stack := by
  unfold settleChars
  split
  · rename_i last fourth third second first below
    have hw := h [first, second, third, fourth, last] below rfl
    rw [if_neg hw]
  · rfl

theorem pushChar_of_not_escape {stack : List Char} {c : Char} (hc : isPrintable c = true)
    (h : ∀ w below, c :: stack = w.reverse ++ below → ¬ isEscape w = true) :
    pushChar stack c = c :: stack := by
  rw [pushChar, if_pos hc, settleChars_eq_self h]

/-- The last five characters of a stack that ends in an escape. -/
theorem escape_on_stack {stack below w : List Char} (he : isEscape w = true)
    (h : stack = w.reverse ++ below) : ∃ y x b, stack = y :: x :: b :: '0' :: '$' :: below ∧
      b ≠ '$' ∧ isHexDigit x = true ∧ isHexDigit y = true := by
  rcases isEscape_iff.mp he with ⟨x, y, rfl, hx, hy⟩ | rfl
  · exact ⟨y, x, 'b', h, by decide, hx, hy⟩
  · exact ⟨'0', '0', 'B', h, by decide, rfl, rfl⟩

theorem pushChar_dollar (stack : List Char) : pushChar stack '$' = '$' :: stack := by
  apply pushChar_of_not_escape rfl
  intro w below h he
  obtain ⟨y, x, b, hs, -, -, hy⟩ := escape_on_stack he h
  obtain rfl : '$' = y := (List.cons.inj hs).1
  cases hy

theorem pushChar_zero (stack : List Char) : pushChar ('$' :: stack) '0' = '0' :: '$' :: stack := by
  apply pushChar_of_not_escape rfl
  intro w below h he
  obtain ⟨y, x, b, hs, -, hx, -⟩ := escape_on_stack he h
  obtain ⟨-, rfl, -⟩ : '0' = y ∧ '$' = x ∧ stack = b :: '0' :: '$' :: below := by simpa using hs
  cases hx

theorem pushChar_letter (stack : List Char) {b : Char} (hb : isPrintable b = true) :
    pushChar ('0' :: '$' :: stack) b = b :: '0' :: '$' :: stack := by
  apply pushChar_of_not_escape hb
  intro w below h he
  obtain ⟨y, x, b', hs, hb', -, -⟩ := escape_on_stack he h
  obtain ⟨-, -, rfl, -⟩ : b = y ∧ '0' = x ∧ '$' = b' ∧ stack = '0' :: '$' :: below := by
    simpa using hs
  exact hb' rfl

theorem pushChar_digit (stack : List Char) (b : Char) {x : Char} (hx : isPrintable x = true) :
    pushChar (b :: '0' :: '$' :: stack) x = x :: b :: '0' :: '$' :: stack := by
  apply pushChar_of_not_escape hx
  intro w below h he
  obtain ⟨y, x', b', hs, -, -, -⟩ := escape_on_stack he h
  -- The fourth newest character is a dollar sign, where an escape has its zero.
  simp at hs

/-- An escape that is pushed whole leaves no trace. -/
theorem foldl_pushChar_escape {w : List Char} (h : isEscape w = true) (stack : List Char) :
    w.foldl pushChar stack = stack := by
  have hremoved (b x y : Char) (hb : isPrintable b = true) (hx : isPrintable x = true)
      (hy : isPrintable y = true) (he : isEscape ['$', '0', b, x, y] = true) :
      ['$', '0', b, x, y].foldl pushChar stack = stack := by
    -- The stack below does not matter: the first four characters complete nothing with it.
    simp only [List.foldl_cons, List.foldl_nil, pushChar_dollar, pushChar_zero,
      pushChar_letter stack hb, pushChar_digit stack b hx]
    rw [pushChar, if_pos hy, settleChars, if_pos he]
  rcases isEscape_iff.mp h with ⟨x, y, rfl, hx, hy⟩ | rfl
  · exact hremoved 'b' x y rfl (isPrintable_of_isHexDigit hx) (isPrintable_of_isHexDigit hy) h
  · exact hremoved 'B' '0' '0' rfl rfl rfl h

theorem pushChar_of_not_printable {c : Char} (h : isPrintable c = false) (stack : List Char) :
    pushChar stack c = stack := by
  rw [pushChar, if_neg (by simp [h])]

/-- Printable text in which no escape stands. -/
structure Clean (text : List Char) : Prop where
  printable : ∀ c ∈ text, isPrintable c = true
  escapeFree : ∀ before w after, text = before ++ w ++ after → ¬ isEscape w = true

/-- A character of a clean text goes onto the stack of those before it. -/
theorem pushChar_of_clean {stack rest : List Char} {c : Char}
    (h : Clean (stack.reverse ++ c :: rest)) : pushChar stack c = c :: stack := by
  apply pushChar_of_not_escape (h.printable c (by simp))
  intro w below hs
  apply h.escapeFree below.reverse w rest
  have hr : stack.reverse ++ [c] = below.reverse ++ w := by
    simpa using congrArg List.reverse hs
  rw [← hr, List.append_assoc, List.singleton_append]

theorem foldl_pushChar_clean {text stack : List Char} (h : Clean (stack.reverse ++ text)) :
    text.foldl pushChar stack = text.reverse ++ stack := by
  induction text generalizing stack with
  | nil => rfl
  | cons c rest ih =>
    rw [List.foldl_cons, pushChar_of_clean h, ih (by simpa using h)]
    simp

theorem sanitize_of_clean {text : List Char} (h : Clean text) :
    (sanitize text).text.chars = text := by
  rw [sanitize_chars, foldl_pushChar_clean (by simpa using h)]
  simp

end TuneRelay.Mml
