import TuneRelay.Mml
import Mathlib.Data.List.Induction
import Mathlib.Data.List.Infix
import Mathlib.Data.Nat.Digits.Defs

/-!
# The tempo that a text states

The leftmost `T` that a digit follows directly states the tempo, by the whole run of digits after
it. Printable text has no digits but those of ASCII. Elsewhere a run may be in any script, and
scripts may be mixed: it states the tempo that its value is, but only a run in ASCII is read by its
value, and any other is reported as the largest tempo there is a report for.
-/
namespace TuneRelay.Mml
open Text

/-- A `T` that a digit follows directly. -/
def startsTempo (isDigit : Char → Bool) : List Char → Bool
  | 'T' :: digit :: _ => isDigit digit
  | _ => false

/-- The run of digits after the leftmost `T` that a digit follows directly. -/
def leftmostRun? (isDigit : Char → Bool) (text : List Char) : Option (List Char) :=
  (text.tails.find? (startsTempo isDigit)).map fun start => start.tail.takeWhile isDigit

/-- The number that digits write, the most significant first. -/
def runValue (digits : List Char) : Nat :=
  Nat.ofDigits 10 (digits.map fun digit => digit.toNat - '0'.toNat).reverse

/-- The tempo of a text: what it states first, or else the default. -/
def statedTempo (text : List Char) : Nat :=
  match leftmostRun? isAsciiDigit text with
  | some digits => runValue digits
  | none => 120

theorem startsTempo_cons (isDigit : Char → Bool) (c : Char) (rest : List Char) :
    startsTempo isDigit (c :: rest) = (c == 'T' && !(rest.takeWhile isDigit).isEmpty) := by
  by_cases hc : c = 'T'
  · subst hc
    cases rest with
    | nil => rfl
    | cons digit rest =>
      cases hdigit : isDigit digit with
      | true => simp [startsTempo, hdigit]
      | false => simp [startsTempo, hdigit]
  · have hnot : startsTempo isDigit (c :: rest) = false := by
      unfold startsTempo
      split
      · rename_i heq
        exact absurd (List.cons.inj heq).1 hc
      · rfl
    simp [hnot, hc]

theorem takeWhile_eq_of_forall_mem {p q : Char → Bool} {l : List Char} (h : ∀ c ∈ l, p c = q c) :
    l.takeWhile p = l.takeWhile q := by
  induction l with
  | nil => rfl
  | cons c rest ih =>
    have hrest := ih fun d hd => h d (List.mem_cons_of_mem c hd)
    rw [List.takeWhile_cons, List.takeWhile_cons, h c List.mem_cons_self, hrest]

theorem tempoDigits?_eq {isDigit : Char → Bool} {text : List Char}
    (h : ∀ c ∈ text, isDecimalDigit c = isDigit c) :
    tempoDigits? text = leftmostRun? isDigit text := by
  induction text with
  | nil => rfl
  | cons c rest ih =>
    have hrun := takeWhile_eq_of_forall_mem fun d hd => h d (List.mem_cons_of_mem c hd)
    have hrest := ih fun d hd => h d (List.mem_cons_of_mem c hd)
    have hstart := startsTempo_cons isDigit c rest
    rw [tempoDigits?, hrun, ← hstart, hrest, leftmostRun?, leftmostRun?, List.tails_cons,
      List.find?_cons]
    cases startsTempo isDigit (c :: rest) with
    | true => rfl
    | false => rfl

theorem decimalValue_eq_runValue (digits : List Char) : decimalValue digits = runValue digits := by
  induction digits using List.reverseRecOn with
  | nil => rfl
  | append_singleton digits last ih =>
    have hvalue : decimalValue (digits ++ [last]) =
        10 * decimalValue digits + (last.toNat - '0'.toNat) := by
      rw [decimalValue, List.foldl_append]
      rfl
    have hrun : runValue (digits ++ [last]) = (last.toNat - '0'.toNat) + 10 * runValue digits := by
      simp [runValue, Nat.ofDigits_cons]
    rw [hvalue, hrun, ih, Nat.add_comm]

theorem isAsciiDigit_iff {c : Char} : isAsciiDigit c = true ↔ 48 ≤ c.toNat ∧ c.toNat ≤ 57 := by
  simp only [isAsciiDigit, Bool.and_eq_true, decide_eq_true_eq]
  exact Iff.rfl

/-- The digits of all other scripts have larger code points. -/
theorem isDecimalDigit_of_lt {c : Char} (h : c.toNat < 0x660) :
    isDecimalDigit c = isAsciiDigit c := by
  have hothers : ∀ first ∈ scriptZeros.tail, 0x660 ≤ first := by decide
  have hsplit : scriptZeros = 0x30 :: scriptZeros.tail := rfl
  have hnone : (scriptZeros.tail.any fun first =>
      first ≤ c.toNat && c.toNat < first + 10) = false := by
    rw [List.any_eq_false]
    intro first hfirst
    have hle := hothers first hfirst
    simp only [Bool.and_eq_true, decide_eq_true_eq]
    omega
  rw [isDecimalDigit, hsplit, List.any_cons, hnone, Bool.or_false, Bool.eq_iff_iff,
    isAsciiDigit_iff]
  simp only [Bool.and_eq_true, decide_eq_true_eq]
  omega

theorem isDecimalDigit_of_isPrintable {c : Char} (h : isPrintable c = true) :
    isDecimalDigit c = isAsciiDigit c := by
  apply isDecimalDigit_of_lt
  rcases Bool.or_eq_true_iff.mp h with hline | hrange
  · obtain rfl : c = '\n' := by simpa using hline
    decide
  · have hle : c ≤ '~' := by simpa using (Bool.and_eq_true_iff.mp hrange).2
    have hle : c.toNat ≤ '~'.toNat := hle
    exact Nat.lt_of_le_of_lt hle (by decide)

theorem readTempo_of_isAsciiDigit {digits : List Char} (h : digits.all isAsciiDigit = true) :
    readTempo digits = if maxTextTempo < runValue digits
      then .error (.tempoOutOfRange (min (runValue digits) maxReportedTempo) 32 maxTextTempo)
      else .ok (runValue digits) := by
  simp only [readTempo, h, if_true, decimalValue_eq_runValue]
  split
  · rename_i hle
    rw [if_neg (by omega)]
  · rename_i hlt
    rw [if_pos (by omega)]

/-- Printable text yields the tempo it states, or the fault that this is too large. -/
theorem extractTempo_of_isPrintable {text : List Char} (h : ∀ c ∈ text, isPrintable c = true) :
    extractTempo text = if maxTextTempo < statedTempo text
      then .error (.tempoOutOfRange (min (statedTempo text) maxReportedTempo) 32 maxTextTempo)
      else .ok (statedTempo text) := by
  have hdigits := tempoDigits?_eq fun c hc => isDecimalDigit_of_isPrintable (h c hc)
  rw [extractTempo, hdigits, statedTempo]
  cases hrun : leftmostRun? isAsciiDigit text with
  | none => rfl
  | some digits =>
    obtain ⟨start, -, rfl⟩ := Option.map_eq_some_iff.mp hrun
    exact readTempo_of_isAsciiDigit List.all_takeWhile

/-- What a decimal digit stands for, counted from the zero of its script. -/
def digitValue (c : Char) : Nat :=
  match scriptZeros.find? fun first => first ≤ c.toNat && c.toNat < first + 10 with
  | some first => c.toNat - first
  | none => 0

/-- The number that digits of any script write, the most significant first. -/
def numeralValue (digits : List Char) : Nat := Nat.ofDigits 10 (digits.map digitValue).reverse

/-- The tempo that a value states, or that it is too large. -/
def tempoOfValue (value : Nat) : Except FormatError Nat :=
  if value ≤ 4294967295 then .ok value
  else .error (.tempoOutOfRange (min value 18446744073709551615) 32 4294967295)

theorem digitValue_of_isAsciiDigit {c : Char} (h : isAsciiDigit c = true) :
    digitValue c = c.toNat - '0'.toNat := by
  have hfirst : scriptZeros = '0'.toNat :: scriptZeros.tail := rfl
  have hin : (decide ('0'.toNat ≤ c.toNat) && decide (c.toNat < '0'.toNat + 10)) = true := by
    obtain ⟨hlow, hhigh⟩ := isAsciiDigit_iff.mp h
    rw [Bool.and_eq_true, decide_eq_true_iff, decide_eq_true_iff]
    exact ⟨hlow, Nat.lt_succ_of_le hhigh⟩
  rw [digitValue, hfirst, List.find?_cons, hin]

theorem numeralValue_of_isAsciiDigit {digits : List Char} (h : digits.all isAsciiDigit = true) :
    numeralValue digits = runValue digits := by
  have hdigits : digits.map digitValue = digits.map fun digit => digit.toNat - '0'.toNat :=
    List.map_congr_left fun digit hdigit =>
      digitValue_of_isAsciiDigit (List.all_eq_true.mp h digit hdigit)
  rw [numeralValue, hdigits, runValue]

theorem readTempo_of_value {digits : List Char} (h : digits.all isAsciiDigit = true) :
    readTempo digits = tempoOfValue (numeralValue digits) := by
  rw [readTempo_of_isAsciiDigit h, numeralValue_of_isAsciiDigit h, tempoOfValue]
  by_cases hlarge : maxTextTempo < runValue digits
  · have hnot : ¬ runValue digits ≤ 4294967295 := Nat.not_le.mpr hlarge
    rw [if_pos hlarge, if_neg hnot]
    rfl
  · have hsmall : runValue digits ≤ 4294967295 := Nat.le_of_not_lt hlarge
    rw [if_neg hlarge, if_pos hsmall]

theorem readTempo_of_other_script {digits : List Char} (h : ¬ digits.all isAsciiDigit = true) :
    readTempo digits = .error (.tempoOutOfRange 18446744073709551615 32 4294967295) := by
  rw [readTempo, if_neg h]
  rfl

/-- A value is reported as the largest tempo exactly if it is at least that. -/
theorem tempoOfValue_eq_largest_iff {value : Nat} :
    .error (.tempoOutOfRange 18446744073709551615 32 4294967295) = tempoOfValue value ↔
      18446744073709551615 ≤ value := by
  unfold tempoOfValue
  split_ifs with hsmall
  · simp only [false_iff]
    omega
  · simp

/-- A text without a tempo has the default one, and a tempo in ASCII digits is its value, if that is
not too large. A run of digits that are not all of ASCII is reported as the largest tempo of all, so
the report agrees with the value only if that is as large. -/
theorem tempo_of_any_script (text : List Char) :
    match leftmostRun? isDecimalDigit text with
    | none => extractTempo text = .ok 120
    | some run =>
      extractTempo text =
        (if run.all isAsciiDigit then tempoOfValue (numeralValue run)
        else .error (.tempoOutOfRange 18446744073709551615 32 4294967295)) ∧
      (extractTempo text = tempoOfValue (numeralValue run) ↔
        run.all isAsciiDigit = true ∨ 18446744073709551615 ≤ numeralValue run) := by
  have hrun : tempoDigits? text = leftmostRun? isDecimalDigit text := tempoDigits?_eq fun _ _ => rfl
  cases hdigits : leftmostRun? isDecimalDigit text with
  | none =>
    rw [hdigits] at hrun
    rw [extractTempo, hrun]
    rfl
  | some run =>
    have hread : extractTempo text = readTempo run := by
      rw [extractTempo, hrun, hdigits]
    dsimp only
    rw [hread]
    by_cases hascii : run.all isAsciiDigit = true
    · rw [readTempo_of_value hascii, if_pos hascii]
      exact ⟨rfl, fun _ => .inl hascii, fun _ => rfl⟩
    · rw [readTempo_of_other_script hascii, if_neg hascii, tempoOfValue_eq_largest_iff]
      exact ⟨rfl, .inr, fun h => h.resolve_left hascii⟩

/-- A tempo of 150 in fullwidth digits is reported as too large. -/
theorem tempo_of_any_script_fullwidth :
    let digits : List Char := ['\uff11', '\uff15', '\uff10']
    leftmostRun? isDecimalDigit ('T' :: digits) = some digits ∧ numeralValue digits = 150 ∧
      tempoOfValue 150 = .ok 150 ∧
      extractTempo ('T' :: digits) =
        .error (.tempoOutOfRange 18446744073709551615 32 4294967295) := by
  decide

end TuneRelay.Mml
