import TuneRelay.Proofs.Numeric.Double
import TuneRelay.Text

/-!
# The text of a double reads back

The digits of a number read back as the number. Every decimal that is tried rounds to the double,
and the digits around the point have its value.
-/
namespace TuneRelay

namespace Text

theorem decimalValue_toDigits (n : Nat) : decimalValue (Nat.toDigits 10 n) = n :=
  Nat.ofDigitChars_ten_toDigits

theorem decimalValue_append (a b : List Char) :
    decimalValue (a ++ b) = decimalValue a * 10 ^ b.length + decimalValue b := by
  change Nat.ofDigitChars 10 (a ++ b) 0 = _
  rw [Nat.ofDigitChars_append, Nat.ofDigitChars_eq_ofDigitChars_zero, Nat.mul_comm]
  rfl

theorem decimalValue_replicate_zero (n : Nat) : decimalValue (List.replicate n '0') = 0 :=
  Nat.ofDigitChars_replicate_zero.trans (Nat.mul_zero _)

theorem isAsciiDigit_of_mem_toDigits {n : Nat} {c : Char} (h : c ∈ Nat.toDigits 10 n) :
    isAsciiDigit c = true :=
  Nat.isDigit_of_mem_toDigits (by decide) (by decide) h

theorem toDigits_all_isAsciiDigit (n : Nat) : (Nat.toDigits 10 n).all isAsciiDigit = true :=
  List.all_eq_true.mpr fun _ h => isAsciiDigit_of_mem_toDigits h

/-- Only the digits of zero start with a zero. -/
theorem head?_toDigits {n : Nat} (h : n ≠ 0) : (Nat.toDigits 10 n).head? ≠ some '0' := by
  induction n using Nat.strongRecOn with
  | ind n ih =>
    rw [Nat.toDigits_eq_if (by decide)]
    split_ifs with hlt
    · have hchar : ∀ d < 10, d ≠ 0 → d.digitChar ≠ '0' := by decide
      simpa using hchar n hlt h
    · have hdiv : n / 10 ≠ 0 := by omega
      obtain ⟨first, hfirst⟩ := Option.ne_none_iff_exists'.mp
        (mt List.head?_eq_none_iff.mp (Nat.toDigits_ne_nil (n := n / 10) (b := 10)))
      have hrest := ih (n / 10) (by omega) hdiv
      rwa [List.head?_append, hfirst, Option.some_or, ← hfirst]

end Text

namespace Numeric
open Text

namespace Decimal

variable {q : Rat} {d : Decimal}

theorem ofLength?_rounds {count : Nat} (h : ofLength? q count = some d) :
    toBinary64 d.value = q := by
  unfold ofLength? at h
  dsimp only at h
  split at h
  case h_1 hlower hupper =>
    split_ifs at h <;> cases h
    · exact beq_iff_eq.mp hlower
    · exact beq_iff_eq.mp hupper
  case h_2 hlower _ =>
    cases h
    exact beq_iff_eq.mp hlower
  case h_3 _ hupper =>
    cases h
    exact beq_iff_eq.mp hupper
  case h_4 => cases h

/-- A ratio whose denominator is a power of two is a decimal. -/
theorem exact_value {k : Nat} (h : 0 < q) (hden : q.den = 2 ^ k) : (exact q).value = q := by
  have hnum : ((q.num.toNat : Nat) : Rat) = q.num := by
    rw [← Int.cast_natCast, Int.toNat_of_nonneg (Rat.num_pos.mpr h).le]
  have hlog : q.den.log2 = k := by rw [hden, Nat.log2_two_pow]
  calc (exact q).value = q.num * 5 ^ k * (10 : Rat) ^ (-(k : Int)) := by
        simp [exact, value, hlog, hnum]
    _ = q.num * (5 ^ k / 10 ^ k) := by rw [zpow_neg, zpow_natCast, mul_assoc, div_eq_mul_inv]
    _ = q.num / q.den := by
      have hratio : (5 / 10 : Rat) = 1 / 2 := by norm_num
      rw [hden, ← div_pow, hratio, one_div_pow, Nat.cast_pow, Nat.cast_two, mul_one_div]
    _ = q := Rat.num_div_den q

theorem dropZeros_value (fuel : Nat) (d : Decimal) : (dropZeros fuel d).value = d.value := by
  induction fuel generalizing d with
  | zero => rfl
  | succ fuel ih =>
    unfold dropZeros
    split_ifs with h
    · have hten : d.digits = 10 * (d.digits / 10) := by
        simp only [Bool.and_eq_true, beq_iff_eq, decide_eq_true_eq] at h
        omega
      calc (dropZeros fuel ⟨d.digits / 10, d.exponent + 1⟩).value
          = (d.digits / 10 : Nat) * (10 : Rat) ^ (d.exponent + 1) := ih _
        _ = (10 * (d.digits / 10) : Nat) * (10 : Rat) ^ d.exponent := by
          rw [zpow_add_one₀ (by norm_num)]
          push_cast
          ring
        _ = d.value := by rw [← hten, value]
    · rfl

theorem shortest_rounds (h : 0 < q) (hq : toBinary64 q = q) :
    toBinary64 (shortest q).value = q := by
  unfold shortest
  dsimp only
  rw [dropZeros_value]
  cases hfound : (List.range 17).findSome? fun n => ofLength? q (n + 1) with
  | none =>
    obtain ⟨k, hden⟩ := exists_den_of_toBinary64 hq
    rw [Option.getD_none, exact_value h hden, hq]
  | some d =>
    obtain ⟨n, -, hn⟩ := List.exists_of_findSome?_eq_some hfound
    exact ofLength?_rounds hn

end Decimal

/-- A whole part and the digits after a point. -/
structure Figures where
  whole : Nat
  fraction : List Char
  digits : fraction.all isAsciiDigit = true
  nonempty : fraction ≠ []

namespace Figures

def text (f : Figures) : List Char := Nat.toDigits 10 f.whole ++ '.' :: f.fraction

/-- The figures without their point. -/
def number (f : Figures) : Nat := decimalValue (Nat.toDigits 10 f.whole ++ f.fraction)

def value (f : Figures) : Rat := f.number * (10 : Rat) ^ (-(f.fraction.length : Int))

theorem number_eq (f : Figures) :
    f.number = f.whole * 10 ^ f.fraction.length + decimalValue f.fraction := by
  rw [number, decimalValue_append, decimalValue_toDigits]

def ofWhole (n : Nat) : Figures := ⟨n, ['0'], rfl, List.cons_ne_nil _ _⟩

theorem ofWhole_value (n : Nat) : (ofWhole n).value = n := by
  have hzero : decimalValue ['0'] = 0 := rfl
  rw [value, number_eq, ofWhole, hzero]
  norm_num
  ring

/-- A remainder below a power of ten, with as many digits. -/
def ofParts (whole rest places : Nat) : Figures where
  whole
  fraction := List.replicate (places - (Nat.toDigits 10 rest).length) '0' ++ Nat.toDigits 10 rest
  digits := by
    rw [List.all_append, toDigits_all_isAsciiDigit, Bool.and_true, List.all_replicate]
    split_ifs <;> rfl
  nonempty := List.append_ne_nil_of_right_ne_nil _ Nat.toDigits_ne_nil

theorem ofParts_value (whole : Nat) {rest places : Nat} (hplaces : 0 < places)
    (hrest : rest < 10 ^ places) : (ofParts whole rest places).value =
      (whole * 10 ^ places + rest : Nat) * (10 : Rat) ^ (-(places : Int)) := by
  have hlength : (ofParts whole rest places).fraction.length = places := by
    have := (Nat.length_toDigits_le_iff (by norm_num) hplaces).mpr hrest
    simp only [ofParts, List.length_append, List.length_replicate]
    omega
  have hfraction : decimalValue (ofParts whole rest places).fraction = rest := by
    rw [ofParts, decimalValue_append, decimalValue_replicate_zero, Nat.zero_mul, Nat.zero_add,
      decimalValue_toDigits]
  rw [value, number_eq, hlength, hfraction]
  rfl

end Figures

/-- A decimal is written as figures that have its value. -/
theorem Decimal.positional_figures (d : Decimal) :
    ∃ f : Figures, d.positional.toList = f.text ∧ f.value = d.value := by
  unfold positional
  split_ifs with h
  · refine ⟨.ofWhole (d.digits * 10 ^ d.exponent.toNat), ?_, ?_⟩
    · simp [Figures.text, Figures.ofWhole, toString]
    · rw [Figures.ofWhole_value, value]
      obtain ⟨n, hn⟩ := Int.eq_ofNat_of_zero_le h
      rw [hn, Int.toNat_natCast, zpow_natCast]
      push_cast
      rfl
  · obtain ⟨places, hplaces⟩ : ∃ places : Nat, d.exponent = -places :=
      ⟨(-d.exponent).toNat, by omega⟩
    have hpos : 0 < places := by omega
    refine ⟨.ofParts (d.digits / 10 ^ places) (d.digits % 10 ^ places) places, ?_, ?_⟩
    · simp [Figures.text, Figures.ofParts, hplaces, toString]
    · rw [Figures.ofParts_value _ hpos (Nat.mod_lt _ (by positivity)), Nat.div_add_mod', value,
        hplaces]

/-- The figures of a double without its sign are read as the double, with either sign. -/
theorem Binary64.exists_figures {q : Rat} (h : 0 ≤ q) (hlt : q < bound)
    (hq : toBinary64 q = q) :
    ∃ f : Figures, (if q = 0 then "0.0" else (Decimal.shortest q).positional).toList = f.text ∧
      ∀ negative, ofDecimal negative f.number (-(f.fraction.length : Int)) =
        .finite negative q := by
  split_ifs with hzero
  · subst hzero
    exact ⟨.ofWhole 0, rfl, fun negative => rfl⟩
  · have hpos : 0 < q := lt_of_le_of_ne h (Ne.symm hzero)
    obtain ⟨f, htext, hvalue⟩ := (Decimal.shortest q).positional_figures
    have hround : toBinary64 f.value = q := by
      rw [hvalue, Decimal.shortest_rounds hpos hq]
    refine ⟨f, htext, fun negative => ?_⟩
    rw [ofDecimal_eq_nearest, ← Figures.value, Binary64.nearest, hround, if_pos hlt]

end Numeric
end TuneRelay
