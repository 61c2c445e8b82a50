import TuneRelay.Sample

/-!
# Exact ratios as doubles

Ratios are rounded to binary formats, and a double is written with the fewest decimal digits that
read back as it. If any decimal with a count of digits does, so does one of the double's two
neighbours among the decimals with that count; the counts are tried in ascending order.
-/
namespace TuneRelay.Numeric

/-- The nearest whole number; a half goes to the even neighbour. -/
def roundEven (q : Rat) : Int :=
  let rest := q - q.floor
  if rest < 1 / 2 then q.floor
  else if 1 / 2 < rest then q.floor + 1
  else if q.floor % 2 = 0 then q.floor else q.floor + 1

/-- The nearest whole number; a half goes up. -/
def roundHalfUp (q : Rat) : Int := (q + 1 / 2).floor

/-- The exponent of the largest power of two that is not above a positive ratio. -/
def binaryExponent (q : Rat) : Int :=
  let e : Int := q.num.toNat.log2 - q.den.log2
  if (2 : Rat) ^ e ≤ q then e else e - 1

/-- The nearest number with a given count of significant bits and no bit below `2 ^ least`; a half
goes to the even neighbour. -/
def toBinary (bits : Nat) (least : Int) (q : Rat) : Rat :=
  if q ≤ 0 then 0
  else
    let unit := (2 : Rat) ^ max (binaryExponent q - (bits - 1)) least
    roundEven (q / unit) * unit

/-- Rounding to double precision, without its largest number. -/
def toBinary64 (q : Rat) : Rat := toBinary 53 (-1074) q

inductive Binary64
  | nan
  | infinite (negative : Bool)
  | finite (negative : Bool) (magnitude : Rat)
  deriving DecidableEq

namespace Binary64

/-- No finite double reaches this bound. -/
def bound : Rat := (2 : Rat) ^ (1024 : Int)

/-- The magnitude of a finite double is one of those that doubles have. -/
def IsDouble : Binary64 → Prop
  | finite _ q => 0 ≤ q ∧ q < bound ∧ toBinary64 q = q
  | _ => True

/-- The nearest double to a signed magnitude, infinite from the bound on. -/
def nearest (negative : Bool) (q : Rat) : Binary64 :=
  if toBinary64 q < bound then .finite negative (toBinary64 q) else .infinite negative

/-- A decimal literal with so many digits before its exponent is zero or out of range. -/
def exponentLimit : Int := 400

/-- The nearest double to `digits * 10 ^ exponent`. -/
def ofDecimal (negative : Bool) (digits : Nat) (exponent : Int) : Binary64 :=
  let length : Int := (Nat.toDigits 10 digits).length
  if digits = 0 || exponent + length < -exponentLimit then .finite negative 0
  else if exponentLimit < exponent + length then .infinite negative
  else nearest negative (digits * (10 : Rat) ^ exponent)

/-- A sample as a double, which is exact. -/
def ofSample (s : Sample) : Binary64 :=
  if s.isNaN then .nan
  else if s.isInfinite then .infinite s.isNegative
  else .finite s.isNegative (s.significand * (2 : Rat) ^ s.scale)

def toSample : Binary64 → Sample
  | nan => Sample.nan
  | infinite negative => Sample.nearest negative 1 128
  | finite negative q =>
    Sample.nearest negative (toBinary 24 (-149) q * (2 : Rat) ^ (149 : Int)).num.toNat (-149)

end Binary64

structure Decimal where
  digits : Nat
  exponent : Int
  deriving DecidableEq

namespace Decimal

def value (d : Decimal) : Rat := d.digits * (10 : Rat) ^ d.exponent

/-- The exponent of the largest power of ten that is not above a positive ratio. -/
def leadingExponent (q : Rat) : Int :=
  let e : Int := (Nat.toDigits 10 q.num.toNat).length - (Nat.toDigits 10 q.den).length
  if (10 : Rat) ^ e ≤ q then e else e - 1

/-- The decimal with `count` digits that is nearest to a double, of those that read back as it; of
two equally near ones the larger. -/
def ofLength? (q : Rat) (count : Nat) : Option Decimal :=
  let exponent := leadingExponent q + 1 - count
  let below := (q / (10 : Rat) ^ exponent).floor.toNat
  let lower : Decimal := ⟨below, exponent⟩
  let upper : Decimal := ⟨below + 1, exponent⟩
  match toBinary64 lower.value == q, toBinary64 upper.value == q with
  | true, true => if q - lower.value < upper.value - q then some lower else some upper
  | true, false => some lower
  | false, true => some upper
  | false, false => none

def exact (q : Rat) : Decimal := ⟨q.num.toNat * Nat.pow 5 q.den.log2, -q.den.log2⟩

/-- Drops trailing zeros, at most as many as there is fuel for. -/
def dropZeros : Nat → Decimal → Decimal
  | 0, d => d
  | fuel + 1, d =>
    if d.digits ≠ 0 && d.digits % 10 == 0 then dropZeros fuel ⟨d.digits / 10, d.exponent + 1⟩ else d

/-- The fewest digits that read back as a positive double. -/
def shortest (q : Rat) : Decimal :=
  let d := ((List.range 17).findSome? fun n => ofLength? q (n + 1)).getD (exact q)
  dropZeros (Nat.toDigits 10 d.digits).length d

/-- Digits around a point, never an exponent, and at least one digit on either side. -/
def positional (d : Decimal) : String :=
  if 0 ≤ d.exponent then s!"{d.digits * Nat.pow 10 d.exponent.toNat}.0"
  else
    let places := (-d.exponent).toNat
    let whole := d.digits / Nat.pow 10 places
    let rest := Nat.toDigits 10 (d.digits % Nat.pow 10 places)
    s!"{whole}." ++ String.ofList (List.replicate (places - rest.length) '0' ++ rest)

end Decimal

/-- A double in positional notation with its sign; a NaN has none. -/
def Binary64.text : Binary64 → String
  | nan => "nan"
  | infinite negative => if negative then "-inf" else "inf"
  | finite negative q =>
    (if negative then "-" else "") ++ if q = 0 then "0.0" else (Decimal.shortest q).positional

/-- A ratio that is not negative, to two decimal places; a half goes to the even neighbour. -/
def twoPlaces (q : Rat) : String :=
  let hundredths := (roundEven (q * 100)).toNat
  let rest := hundredths % 100
  s!"{hundredths / 100}.{rest / 10}{rest % 10}"

end TuneRelay.Numeric
