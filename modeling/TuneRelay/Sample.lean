/-!
# Samples

A sample is a single-precision number, kept as its thirty-two bits: moving samples about changes no
bit of them, a NaN's bits included. Only where it is calculated with is a sample a number.

The remainder of two samples is exact. Sines and powers are summed in whole numbers, with far more
bits than a sample has, and are rounded once.
-/
namespace TuneRelay

structure Sample where ofBits ::
  toBits : UInt32
  deriving DecidableEq

namespace Sample

/-- The number that a sample is. -/
def float (s : Sample) : Float32 := .ofBits s.toBits

def ofFloat (x : Float32) : Sample := ⟨x.toBits⟩

def ofNat (n : Nat) : Sample := ofFloat n.toUInt64.toFloat32

/-- The whole part of a sample, zero if it is negative or a NaN. -/
def toNat (s : Sample) : Nat := s.float.toUInt64.toNat

instance : Add Sample := ⟨fun a b => ofFloat (a.float + b.float)⟩

instance : Sub Sample := ⟨fun a b => ofFloat (a.float - b.float)⟩

instance : Mul Sample := ⟨fun a b => ofFloat (a.float * b.float)⟩

instance : Div Sample := ⟨fun a b => ofFloat (a.float / b.float)⟩

instance : LT Sample := ⟨fun a b => a.float < b.float⟩

instance : LE Sample := ⟨fun a b => a.float ≤ b.float⟩

instance (a b : Sample) : Decidable (a < b) := inferInstanceAs (Decidable (a.float < b.float))

instance (a b : Sample) : Decidable (a ≤ b) := inferInstanceAs (Decidable (a.float ≤ b.float))

/-- Samples are compared as numbers: both zeros are equal, and a NaN is equal to nothing. -/
instance : BEq Sample := ⟨fun a b => a.float == b.float⟩

/-- Positive zero. -/
def silence : Sample := .ofBits 0

def one : Sample := .ofBits 0x3f800000

/-- Either zero is silent; a NaN is not. -/
def isSilent (s : Sample) : Bool := s == silence

def fraction (s : Sample) : Nat := s.toBits.toNat % 8388608

def exponentField (s : Sample) : Nat := s.toBits.toNat / 8388608 % 256

def isNegative (s : Sample) : Bool := 2147483648 ≤ s.toBits.toNat

def isNaN (s : Sample) : Bool := s.exponentField == 255 && s.fraction != 0

def isInfinite (s : Sample) : Bool := s.exponentField == 255 && s.fraction == 0

def abs (s : Sample) : Sample := .ofBits (s.toBits &&& 0x7fffffff)

/-- The whole number that a finite sample is, up to its sign, in units of `2 ^ scale`. -/
def significand (s : Sample) : Nat :=
  if s.exponentField = 0 then s.fraction else s.fraction + 8388608

def scale (s : Sample) : Int := max s.exponentField 1 - 150

/-- Half of `n`, and again, `shift` times, rounded once to the nearest whole number; a half goes to
the even neighbour. -/
def halveNearest (n shift : Nat) : Nat :=
  let kept := n >>> shift
  let rest := n - kept <<< shift
  let whole := 1 <<< shift
  if 2 * rest < whole || (2 * rest == whole && kept % 2 == 0) then kept else kept + 1

/-- The bits below the sign of the nearest sample to `n * 2 ^ scale`; a half goes to the even
neighbour, and what is too large becomes infinity. -/
def magnitudeBits (n : Nat) (scale : Int) : Nat :=
  if n = 0 then 0
  else
    let unit := max (scale + n.log2 - 23) (-149)
    let kept :=
      if unit ≤ scale then n <<< (scale - unit).toNat else halveNearest n (unit - scale).toNat
    min (kept + (unit + 149).toNat * 8388608) 2139095040

/-- The nearest sample to `n * 2 ^ scale`, with a sign. -/
def nearest (negative : Bool) (n : Nat) (scale : Int) : Sample :=
  .ofBits (magnitudeBits n scale + if negative then 2147483648 else 0).toUInt32

/-- What is left of a number of units `2 ^ a` after taking out a number of units `2 ^ b` as often as
possible, in the smaller unit. -/
def remainderUnits (n : Nat) (a : Int) (d : Nat) (b : Int) : Nat :=
  (n <<< (a - min a b).toNat) % (d <<< (b - min a b).toNat)

def nan : Sample := .ofBits 0x7fc00000

/-- The remainder of truncated division, which is always exact; its sign is that of `x`. -/
def remainder (x y : Sample) : Sample :=
  if x.isNaN || x.isInfinite || y.isNaN || y.isSilent then nan
  else if x.abs < y.abs then x
  else
    nearest (isNegative x) (remainderUnits (significand x) (scale x) (significand y) (scale y))
      (min (scale x) (scale y))

/-- Sines and powers are computed in units of `2 ^ -96`. -/
def unitScale : Nat := 96

def halfTurn : Nat := 248902613312231085230521944622

/-- The reciprocals of the odd factorials, the smallest first; more would not reach a unit. -/
def sineCoefficients : List Nat :=
  (List.range 15).foldl (fun done k => done.headD 0 / ((2 * k + 2) * (2 * k + 3)) :: done)
    [1 <<< unitScale]

/-- The sine series of a phase up to a quarter turn, by nested multiplication. -/
def sineUnits (x : Nat) : Nat :=
  let square := (x * x) >>> unitScale
  let factor := sineCoefficients.foldl (fun inner c => c - ((square * inner) >>> unitScale)) 0
  (x * factor) >>> unitScale

/-- Phases below this one, `2 ^ -12`, are their own sines: these are within half a unit of them. -/
def smallPhase : Sample := .ofBits 0x39800000

/-- The nearest sample to the sine of a phase from zero up to a whole turn. -/
def sine (phase : Sample) : Sample :=
  if phase < smallPhase then phase
  else
    let x := phase.significand <<< (phase.scale + unitScale).toNat
    if x ≤ halfTurn then nearest false (sineUnits (min x (halfTurn - x))) (-unitScale)
    else
      let y := x - halfTurn
      nearest true (sineUnits (min y (halfTurn - y))) (-unitScale)

/-- The natural logarithm of two. -/
def logTwo : Nat := 54916777467707473351141471128

/-- The reciprocals of the factorials, the smallest first; more would not reach a unit. -/
def powerCoefficients : List Nat :=
  (List.range 27).foldl (fun done k => done.headD 0 / (k + 1) :: done) [1 <<< unitScale]

/-- Two to a power below one, by the exponential series. -/
def powerUnits (x : Nat) : Nat :=
  let y := (x * logTwo) >>> unitScale
  powerCoefficients.foldl (fun inner c => c + ((y * inner) >>> unitScale)) 0

/-- The nearest sample to two to the power of a sample. -/
def powerOfTwo (exponent : Sample) : Sample :=
  if exponent.isNaN then exponent
  else if exponent < .ofBits 0xc3480000 then silence
  else if .ofBits 0x43480000 < exponent then .ofBits 0x7f800000
  else
    let size := exponent.significand <<< (exponent.scale + 149).toNat >>> (149 - unitScale)
    let units : Int := if exponent.isNegative then -size else size
    let unit : Nat := 1 <<< unitScale
    nearest false (powerUnits (units % unit).toNat) (units / unit - unitScale)

/-- Functions whose last bit is a platform's own. The defaults are correctly rounded. -/
structure Elementary where
  sine : Sample → Sample := Sample.sine
  powerOfTwo : Sample → Sample := Sample.powerOfTwo

end Sample

/-- The samples of one channel, in time order. -/
abbrev Channel := List Sample

namespace Channel

def silent (frames : Nat) : Channel := List.replicate frames Sample.silence

def isSilent (channel : Channel) : Bool := channel.all Sample.isSilent

end Channel
end TuneRelay
