import TuneRelay.Toml.Notation
import TuneRelay.Proofs.Numeric.Shortest

/-!
# Values that are read back

What is written for a name, a truth value, a whole number or a double is read as such, up to the end
of its line.
-/
namespace TuneRelay.Toml
open Numeric Text

/-- A text is read as a node when it stands alone before the end of its line. -/
def ReadsAs (written : List Char) (node : Node) : Prop :=
  ∀ rest, value depthLimit (dropSpace (written ++ '\n' :: rest)) = some (node, '\n' :: rest)

section Runs

variable {p : Char → Bool} {run : List Char} {c : Char}

theorem takeWhile_run (h : run.all p = true) (hc : p c = false) (rest : List Char) :
    (run ++ c :: rest).takeWhile p = run := by
  rw [List.takeWhile_append_of_pos (List.all_eq_true.mp h), List.takeWhile_cons, hc]
  exact List.append_nil run

theorem dropWhile_run (h : run.all p = true) (hc : p c = false) (rest : List Char) :
    (run ++ c :: rest).dropWhile p = c :: rest := by
  rw [List.dropWhile_append_of_pos (List.all_eq_true.mp h), List.dropWhile_cons, hc]
  rfl

end Runs

theorem readsAs_true : ReadsAs ['t', 'r', 'u', 'e'] (.boolean true) := fun _ => rfl

theorem readsAs_false : ReadsAs ['f', 'a', 'l', 's', 'e'] (.boolean false) := fun _ => rfl

/-- What stands in a string as it is. -/
def isPlain (c : Char) : Bool := isTextChar c && c != '"' && c != '\\'

theorem quotedChar_plain {c : Char} (h : isPlain c = true) (text : List Char) :
    quotedChar (c :: text) = some (c, text) := by
  simp only [isPlain, Bool.and_eq_true, bne_iff_ne] at h
  unfold quotedChar
  split
  case h_1 heq =>
    cases heq
    exact absurd rfl h.2
  case h_2 heq =>
    cases heq
    rw [if_pos h.1.1]
  case h_3 heq => cases heq

theorem basicBody_plain {name : List Char} (h : name.all isPlain = true) {fuel : Nat}
    (hfuel : name.length < fuel) (done rest : List Char) :
    basicBody fuel done (name ++ '"' :: rest) = some (done.reverse ++ name, rest) := by
  induction name generalizing done fuel with
  | nil =>
    obtain ⟨n, rfl⟩ := Nat.exists_eq_succ_of_ne_zero (Nat.ne_of_gt hfuel)
    simp [basicBody]
  | cons c name ih =>
    obtain ⟨n, rfl⟩ := Nat.exists_eq_succ_of_ne_zero (Nat.ne_zero_of_lt hfuel)
    rw [List.all_cons, Bool.and_eq_true] at h
    rw [List.cons_append, basicBody, quotedChar_plain h.1, Option.bind_some]
    · refine (ih h.2 (Nat.lt_of_succ_lt_succ hfuel) (c :: done)).trans ?_
      simp
    · rintro more heq
      cases heq
      exact absurd h.1 (by decide)

/-- Three quotes would open a string of several lines. -/
theorem anyString_quoted {c : Char} (hc : c ≠ '"') (text : List Char) :
    anyString ('"' :: c :: text) = basicBody ((c :: text).length + 1) [] (c :: text) := by
  rw [anyString]
  · rfl
  · rintro more heq
    exact hc (List.cons.inj (List.cons.inj heq).2).1
  · rintro more heq
    cases heq

theorem readsAs_quoted {text : List Char} (h : text.all isPlain = true) :
    ReadsAs ('"' :: text ++ ['"']) (.string text) := by
  intro rest
  have hbody : anyString ('"' :: (text ++ '"' :: '\n' :: rest)) = some (text, '\n' :: rest) := by
    cases text with
    | nil => rfl
    | cons c text =>
      have hc : c ≠ '"' := by
        rintro rfl
        simp [isPlain] at h
      rw [List.cons_append, anyString_quoted hc, ← List.cons_append]
      exact basicBody_plain h (by simp only [List.length_append, List.length_cons]; omega) [] _
  calc value depthLimit (dropSpace ('"' :: text ++ ['"'] ++ '\n' :: rest))
      = (anyString ('"' :: (text ++ '"' :: '\n' :: rest))).map
          fun read => (.string read.1, read.2) := by
        rw [List.append_assoc]
        rfl
    _ = some (.string text, '\n' :: rest) := by rw [hbody]; rfl

section Digits

variable {run : List Char} {c : Char} {rest : List Char}

/-- A character that ends a run of digits, and is no separator of times. -/
def endsDigits (c : Char) : Bool := c == '\n' || c == '.'

theorem isAsciiDigit_of_endsDigits (hc : endsDigits c = true) : isAsciiDigit c = false := by
  simp only [endsDigits, Bool.or_eq_true, beq_iff_eq] at hc
  rcases hc with rfl | rfl <;> rfl

theorem separated_digits (hne : run ≠ []) (h : run.all isAsciiDigit = true) :
    digitRun.separated run = true := by
  induction run with
  | nil => exact absurd rfl hne
  | cons d run ih =>
    rw [List.all_cons, Bool.and_eq_true] at h
    have hd : d ≠ '_' := by
      rintro rfl
      exact absurd h.1 (by decide)
    cases run with
    | nil => simp [digitRun.separated, hd]
    | cons e run => simpa [digitRun.separated, hd] using ih (List.cons_ne_nil _ _) h.2

theorem digitRun_digits (hne : run ≠ []) (h : run.all isAsciiDigit = true)
    (hc : endsDigits c = true) (rest : List Char) :
    digitRun isAsciiDigit (run ++ c :: rest) = some (run, c :: rest) := by
  have hplain : ∀ d ∈ run, d ≠ '_' := by
    rintro d hd rfl
    exact absurd (List.all_eq_true.mp h _ hd) (by decide)
  have hdigits : run.all (fun d => isAsciiDigit d || d == '_') = true :=
    List.all_eq_true.mpr fun d hd => by rw [List.all_eq_true.mp h d hd, Bool.true_or]
  have hstop : (isAsciiDigit c || c == '_') = false := by
    simp only [endsDigits, Bool.or_eq_true, beq_iff_eq] at hc
    rcases hc with rfl | rfl <;> rfl
  have hhead : (run.head? != some '_') = true := bne_iff_ne.mpr fun heq =>
    hplain _ (List.mem_of_head? heq) rfl
  have hfilter : run.filter (· != '_') = run :=
    List.filter_eq_self.mpr fun d hd => bne_iff_ne.mpr (hplain d hd)
  simp only [digitRun, takeWhile_run hdigits hstop, dropWhile_run hdigits hstop, hhead,
    separated_digits hne h, hfilter, Bool.and_self, if_true]

/-- After some digits of a run comes another one, or what ends the run. -/
theorem head?_drop_digits (h : run.all isAsciiDigit = true) {k : Nat} (hk : k ≤ run.length)
    {x : Char} (hx : ((run ++ c :: rest).drop k).head? = some x) :
    isAsciiDigit x = true ∨ x = c := by
  rw [List.drop_append_of_le_length hk] at hx
  cases hdrop : run.drop k with
  | nil =>
    rw [hdrop] at hx
    exact .inr (Option.some.inj hx).symm
  | cons d more =>
    rw [hdrop] at hx
    have hmem : d ∈ run := List.mem_of_mem_drop (hdrop ▸ List.mem_cons_self)
    exact .inl ((Option.some.inj hx) ▸ List.all_eq_true.mp h d hmem)

theorem literal_eq_none {x : Char} {text : List Char} (h : text.head? ≠ some x) :
    literal [x] text = none := by
  refine if_neg fun htake => h ?_
  cases text with
  | nil => cases htake
  | cons y text => exact congrArg some (List.cons.inj htake).1

theorem literal_digits (h : run.all isAsciiDigit = true) {k : Nat} (hk : k ≤ run.length)
    {x : Char} (hx : isAsciiDigit x = false) (hxc : x ≠ c) :
    literal [x] ((run ++ c :: rest).drop k) = none := by
  refine literal_eq_none fun hhead => ?_
  rcases head?_drop_digits h hk hhead with hdigit | heq
  · rw [hx] at hdigit
    cases hdigit
  · exact hxc heq

theorem field_digits (h : run.all isAsciiDigit = true) (hc : isAsciiDigit c = false)
    {count low high n : Nat} {after : List Char}
    (hfield : field count low high (run ++ c :: rest) = some (n, after)) :
    count ≤ run.length ∧ after = (run ++ c :: rest).drop count := by
  unfold field at hfield
  dsimp only at hfield
  split_ifs at hfield with hvalid
  cases hfield
  refine ⟨?_, rfl⟩
  by_contra hlt
  -- the end of the run is among the characters that are looked at
  obtain ⟨k, hk⟩ : ∃ k, count - run.length = k + 1 :=
    Nat.exists_eq_succ_of_ne_zero (by omega)
  have htake : (run ++ c :: rest).take count = run ++ c :: rest.take k := by
    rw [List.take_append, List.take_of_length_le (by omega), hk, List.take_succ_cons]
  have hlength : (((run ++ c :: rest).take count).takeWhile isAsciiDigit).length = run.length := by
    rw [htake, takeWhile_run h hc]
  simp only [Bool.and_eq_true, decide_eq_true_eq] at hvalid
  omega

/-- A run of digits that no separator follows is no date and no time. -/
theorem moment?_digits (h : run.all isAsciiDigit = true) (hc : endsDigits c = true) :
    moment? (run ++ c :: rest) = none := by
  have hend := isAsciiDigit_of_endsDigits hc
  have hseparator : '-' ≠ c ∧ ':' ≠ c := by
    simp only [endsDigits, Bool.or_eq_true, beq_iff_eq] at hc
    rcases hc with rfl | rfl <;> decide
  have hdate : date? (run ++ c :: rest) = none := by
    unfold date?
    cases hfield : field 4 0 9999 (run ++ c :: rest) with
    | none => rfl
    | some found =>
      obtain ⟨hle, hafter⟩ := field_digits h hend hfield
      simp [hafter, literal_digits h hle rfl hseparator.1]
  have htime : time? (run ++ c :: rest) = none := by
    unfold time?
    cases hfield : field 2 0 23 (run ++ c :: rest) with
    | none => rfl
    | some found =>
      obtain ⟨hle, hafter⟩ := field_digits h hend hfield
      simp [hafter, literal_digits h hle rfl hseparator.2]
  rw [moment?, hdate, htime]

end Digits

/-- A number may have a minus. -/
def signed (negative : Bool) (text : List Char) : List Char :=
  if negative then '-' :: text else text

section Signs

variable {d : Char}

theorem sign_signed (hd : isAsciiDigit d = true) (negative : Bool) (text : List Char) :
    sign (signed negative (d :: text)) = (negative, d :: text) := by
  cases negative with
  | true => rfl
  | false =>
    change sign (d :: text) = _
    rw [sign]
    all_goals
      rintro more heq
      cases heq
      exact absurd hd (by decide)

theorem special_digit (hd : isAsciiDigit d = true) (negative : Bool) (text : List Char) :
    special negative (d :: text) = none := by
  rw [special]
  all_goals
    rintro more heq
    cases heq
    exact absurd hd (by decide)

/-- What starts with a digit or a minus is a number unless it is a time. -/
theorem value_signed (hd : isAsciiDigit d = true) (negative : Bool) {text : List Char}
    (h : moment? (signed negative (d :: text)) = none) :
    value depthLimit (dropSpace (signed negative (d :: text))) =
      number (signed negative (d :: text)) := by
  cases negative with
  | true =>
    have hscalar : value depthLimit (dropSpace ('-' :: d :: text)) = scalar ('-' :: d :: text) :=
      rfl
    have hmoment : moment? ('-' :: d :: text) = none := h
    change value depthLimit (dropSpace ('-' :: d :: text)) = number ('-' :: d :: text)
    rw [hscalar, scalar, hmoment]
    all_goals
      rintro more heq
      cases heq
  | false =>
    have hmoment : moment? (d :: text) = none := h
    have hspace : ¬ isSpace d = true := fun h => by
      simp only [isSpace, Bool.or_eq_true, beq_iff_eq] at h
      rcases h with rfl | rfl <;> exact absurd hd (by decide)
    change value (78 + 1) (dropSpace (d :: text)) = number (d :: text)
    rw [dropSpace, List.dropWhile_cons, if_neg hspace, value, scalar, hmoment]
    all_goals
      rintro more heq
      cases heq
      exact absurd hd (by decide)

end Signs

section Numbers

variable {n : Nat} {c : Char} (rest : List Char)

theorem exists_toDigits_eq_cons (n : Nat) : ∃ d more,
    Nat.toDigits 10 n = d :: more ∧ isAsciiDigit d = true := by
  obtain ⟨d, more, h⟩ := List.exists_cons_of_ne_nil (Nat.toDigits_ne_nil (n := n) (b := 10))
  exact ⟨d, more, h, isAsciiDigit_of_mem_toDigits (h ▸ List.mem_cons_self)⟩

theorem wholePart_toDigits (hc : endsDigits c = true) :
    wholePart (Nat.toDigits 10 n ++ c :: rest) = some (Nat.toDigits 10 n, c :: rest) := by
  have hrun := digitRun_digits Nat.toDigits_ne_nil (toDigits_all_isAsciiDigit n) hc rest
  have hlead : ¬ ((Nat.toDigits 10 n).head? == some '0' &&
      ((Nat.toDigits 10 n ++ c :: rest).drop 1).head?.any
        (fun c => isAsciiDigit c || c == '_')) = true := by
    rw [Bool.and_eq_true, beq_iff_eq]
    rintro ⟨hzero, hnext⟩
    obtain rfl : n = 0 := by
      by_contra hn
      exact head?_toDigits hn hzero
    simp only [endsDigits, Bool.or_eq_true, beq_iff_eq] at hc
    rcases hc with rfl | rfl <;> cases hnext
  unfold wholePart
  rw [hrun]
  exact if_neg hlead

theorem signedNumber_signed (hc : endsDigits c = true) (negative : Bool) :
    signedNumber (signed negative (Nat.toDigits 10 n ++ c :: rest)) =
      if startsFraction (c :: rest) then float negative (Nat.toDigits 10 n) (c :: rest)
      else (integer (if negative then -n else n)).bind fun node => some (node, c :: rest) := by
  obtain ⟨d, more, hdigits, hd⟩ := exists_toDigits_eq_cons n
  have hwhole := wholePart_toDigits (n := n) rest hc
  rw [hdigits, List.cons_append] at hwhole
  unfold signedNumber
  rw [hdigits, List.cons_append, sign_signed hd]
  dsimp only
  rw [special_digit hd]
  dsimp only
  rw [hwhole, Option.bind_eq_bind, Option.bind_some, ← hdigits, decimalValue_toDigits]
  split_ifs <;> rfl

theorem number_signed (hc : endsDigits c = true) (negative : Bool) :
    number (signed negative (Nat.toDigits 10 n ++ c :: rest)) =
      signedNumber (signed negative (Nat.toDigits 10 n ++ c :: rest)) := by
  cases negative with
  | true => rfl
  | false =>
    have hdigits := toDigits_all_isAsciiDigit n
    have hnext : ∀ x : Char, isAsciiDigit x = false → endsDigits x = false →
        ((Nat.toDigits 10 n ++ c :: rest).drop 1).head? ≠ some x := fun x hx hend hhead => by
      rcases head?_drop_digits hdigits Nat.length_toDigits_pos hhead with hdigit | rfl
      · rw [hx] at hdigit
        cases hdigit
      · rw [hc] at hend
        cases hend
    change number (Nat.toDigits 10 n ++ c :: rest) = signedNumber (Nat.toDigits 10 n ++ c :: rest)
    unfold number
    split
    case h_1 heq => exact absurd (by rw [heq]; rfl) (hnext 'x' rfl rfl)
    case h_2 heq => exact absurd (by rw [heq]; rfl) (hnext 'o' rfl rfl)
    case h_3 heq => exact absurd (by rw [heq]; rfl) (hnext 'b' rfl rfl)
    case h_4 => rfl

theorem moment?_signed (hc : endsDigits c = true) (negative : Bool) :
    moment? (signed negative (Nat.toDigits 10 n ++ c :: rest)) = none := by
  cases negative with
  | true => rfl
  | false => exact moment?_digits (toDigits_all_isAsciiDigit n) hc

end Numbers

/-- What a signed run of digits is read as depends on what ends it. -/
theorem value_signed_toDigits {c : Char} (hc : endsDigits c = true) (negative : Bool) (n : Nat)
    (rest : List Char) :
    value depthLimit (dropSpace (signed negative (Nat.toDigits 10 n ++ c :: rest))) =
      if startsFraction (c :: rest) then float negative (Nat.toDigits 10 n) (c :: rest)
      else (integer (if negative then -n else n)).bind fun node => some (node, c :: rest) := by
  rw [← signedNumber_signed rest hc, ← number_signed rest hc]
  have hmoment := moment?_signed (n := n) rest hc negative
  obtain ⟨d, more, hdigits, hd⟩ := exists_toDigits_eq_cons n
  rw [hdigits, List.cons_append] at hmoment ⊢
  exact value_signed hd negative hmoment

theorem readsAs_natural {n : Nat} (h : n ≤ maxInteger) :
    ReadsAs (Nat.toDigits 10 n) (.integer n) := by
  intro rest
  have hrange : integer n = some (.integer n) := if_pos (by simp [maxInteger] at *; omega)
  have hvalue := value_signed_toDigits (c := '\n') rfl false n rest
  rw [if_neg (show ¬ startsFraction ('\n' :: rest) = true from Bool.false_ne_true)] at hvalue
  exact hvalue.trans (congrArg (Option.bind · _) hrange)

theorem readsAs_figures (f : Figures) {negative : Bool} {q : Rat}
    (h : Binary64.ofDecimal negative f.number (-(f.fraction.length : Int)) = .finite negative q) :
    ReadsAs (signed negative f.text) (.float (.finite negative q)) := by
  intro rest
  have hfraction : fractionPart ('.' :: (f.fraction ++ '\n' :: rest)) =
      some (f.fraction, '\n' :: rest) := digitRun_digits f.nonempty f.digits rfl rest
  have hfloat : float negative (Nat.toDigits 10 f.whole) ('.' :: (f.fraction ++ '\n' :: rest)) =
      some (.float (.finite negative q), '\n' :: rest) := by
    have hexponent : exponentPart ('\n' :: rest) = some (0, '\n' :: rest) := rfl
    rw [Figures.number] at h
    simp only [float, hfraction, hexponent, Option.bind_eq_bind, Option.bind_some, zero_sub, h]
    rfl
  have hvalue := value_signed_toDigits (c := '.') rfl negative f.whole (f.fraction ++ '\n' :: rest)
  rw [if_pos (show startsFraction ('.' :: _) = true from rfl), hfloat] at hvalue
  have htext : signed negative f.text ++ '\n' :: rest =
      signed negative (Nat.toDigits 10 f.whole ++ '.' :: (f.fraction ++ '\n' :: rest)) := by
    cases negative <;> simp [signed, Figures.text]
  rw [htext, hvalue]

theorem readsAs_inf : ReadsAs ['i', 'n', 'f'] (.float (.infinite false)) := fun _ => rfl

theorem readsAs_neg_inf : ReadsAs ['-', 'i', 'n', 'f'] (.float (.infinite true)) := fun _ => rfl

theorem readsAs_nan : ReadsAs ['n', 'a', 'n'] (.float .nan) := fun _ => rfl

/-- Every double is read back, a NaN as a NaN. -/
theorem readsAs_double {x : Binary64} (h : x.IsDouble) : ReadsAs x.text.toList (.float x) := by
  cases x with
  | nan => exact readsAs_nan
  | infinite negative =>
    cases negative with
    | true => exact readsAs_neg_inf
    | false => exact readsAs_inf
  | finite negative q =>
    obtain ⟨hnonneg, hlt, hq⟩ := h
    obtain ⟨f, htext, hread⟩ := Binary64.exists_figures hnonneg hlt hq
    have hsigned : (Binary64.finite negative q).text.toList = signed negative f.text := by
      rw [Binary64.text, String.toList_append, htext]
      cases negative <;> rfl
    rw [hsigned]
    exact readsAs_figures f (hread negative)

namespace Scalar

/-- Strings hold nothing that would have to be escaped, and floats are doubles. -/
def IsPlain : Scalar → Prop
  | string text => text.all isPlain = true
  | float x => x.IsDouble
  | _ => True

def node : Scalar → Node
  | string text => .string text
  | natural n => .integer n
  | float x => .float x
  | boolean b => .boolean b

@[simp] theorem toValue_node (s : Scalar) : s.node.toValue = s.value := by
  cases s <;> rw [node, Node.toValue, value]

/-- What is written for a scalar is read as it. -/
theorem readsAs {s : Scalar} (hplain : s.IsPlain) (hwritable : s.isWritable = true) :
    ReadsAs s.text s.node := by
  cases s with
  | string text => exact readsAs_quoted hplain
  | natural n => exact readsAs_natural (by simpa [isWritable] using hwritable)
  | float x => exact readsAs_double hplain
  | boolean b =>
    cases b with
    | true => exact readsAs_true
    | false => exact readsAs_false

end Scalar
end TuneRelay.Toml
