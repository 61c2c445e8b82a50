/-!
# Digits and UTF-8

Digits are recognized in every script, but only those of ASCII have a value here. Bytes are read as
UTF-8 one at a time: a byte that cannot continue a sequence ends it and is read again as the
beginning of another, so no byte after a broken sequence is lost.
-/
namespace TuneRelay.Text

/-- The zero of each script of Unicode 16.0 that counts in tens; its one to nine are the nine code
points after it. -/
def scriptZeros : List Nat :=
  [0x30, 0x660, 0x6F0, 0x7C0, 0x966, 0x9E6, 0xA66, 0xAE6, 0xB66, 0xBE6, 0xC66, 0xCE6, 0xD66,
   0xDE6, 0xE50, 0xED0, 0xF20, 0x1040, 0x1090, 0x17E0, 0x1810, 0x1946, 0x19D0, 0x1A80, 0x1A90,
   0x1B50, 0x1BB0, 0x1C40, 0x1C50, 0xA620, 0xA8D0, 0xA900, 0xA9D0, 0xA9F0, 0xAA50, 0xABF0,
   0xFF10, 0x104A0, 0x10D30, 0x10D40, 0x11066, 0x110F0, 0x11136, 0x111D0, 0x112F0, 0x11450,
   0x114D0, 0x11650, 0x116C0, 0x116D0, 0x116DA, 0x11730, 0x118E0, 0x11950, 0x11BF0, 0x11C50,
   0x11D50, 0x11DA0, 0x11F50, 0x16130, 0x16A60, 0x16AC0, 0x16B50, 0x16D70, 0x1CCF0, 0x1D7CE,
   0x1D7D8, 0x1D7E2, 0x1D7EC, 0x1D7F6, 0x1E140, 0x1E2F0, 0x1E4F0, 0x1E5F1, 0x1E950, 0x1FBF0]

def isDecimalDigit (c : Char) : Bool :=
  scriptZeros.any fun first => first ≤ c.toNat && c.toNat < first + 10

def isAsciiDigit (c : Char) : Bool := '0' ≤ c && c ≤ '9'

/-- The number that a run of ASCII digits writes in base ten. -/
def decimalValue (digits : List Char) : Nat :=
  digits.foldl (fun value digit => 10 * value + (digit.toNat - 48)) 0

def isHexDigit (c : Char) : Bool :=
  ('0' ≤ c && c ≤ '9') || ('A' ≤ c && c ≤ 'F') || ('a' ≤ c && c ≤ 'f')

/-- The value of a hexadecimal digit of either case, and of nothing else. -/
def hexValue? (c : Char) : Option Nat :=
  if '0' ≤ c && c ≤ '9' then some (c.toNat - 48)
  else if 'A' ≤ c && c ≤ 'F' then some (c.toNat - 55)
  else if 'a' ≤ c && c ≤ 'f' then some (c.toNat - 87)
  else none

def hexDigit (n : Nat) : Char := Nat.digitChar n

/-- A byte as exactly two lowercase hexadecimal digits. -/
def hexByte (b : UInt8) : String :=
  String.ofList [hexDigit (b.toNat / 16), hexDigit (b.toNat % 16)]

def replacement : Char := Char.ofNat 0xFFFD

/-- A sequence that has begun: its bits so far, how many bytes are missing, and the range of the
next one. -/
structure OpenSequence where
  bits : Nat
  missing : Nat
  low : Nat := 0x80
  high : Nat := 0xBF

/-- The characters read so far, newest first, and the sequence that has begun. -/
structure Utf8Reader where
  chars : List Char := []
  pending : Option OpenSequence := none

namespace Utf8Reader

def put (r : Utf8Reader) (c : Char) : Utf8Reader :=
  { r with chars := c :: r.chars, pending := none }

/-- A sequence ends early, or a byte begins none. -/
def breakOff (r : Utf8Reader) : Utf8Reader := r.put replacement

/-- Reads a byte where a character must begin. The ranges rule out overlong forms, surrogates and
what lies beyond the last code point. -/
def begin (r : Utf8Reader) (byte : UInt8) : Utf8Reader :=
  let b := byte.toNat
  let opened (s : OpenSequence) : Utf8Reader := { r with pending := some s }
  if b < 0x80 then r.put (Char.ofNat b)
  else if 0xC2 ≤ b && b ≤ 0xDF then opened { bits := b - 0xC0, missing := 1 }
  else if b == 0xE0 then opened { bits := 0, missing := 2, low := 0xA0 }
  else if b == 0xED then opened { bits := 13, missing := 2, high := 0x9F }
  else if 0xE1 ≤ b && b ≤ 0xEF then opened { bits := b - 0xE0, missing := 2 }
  else if b == 0xF0 then opened { bits := 0, missing := 3, low := 0x90 }
  else if b == 0xF4 then opened { bits := 4, missing := 3, high := 0x8F }
  else if 0xF1 ≤ b && b ≤ 0xF3 then opened { bits := b - 0xF0, missing := 3 }
  else r.breakOff

def read (r : Utf8Reader) (byte : UInt8) : Utf8Reader :=
  match r.pending with
  | none => r.begin byte
  | some s =>
    if s.low ≤ byte.toNat && byte.toNat ≤ s.high then
      let bits := s.bits * 64 + (byte.toNat - 0x80)
      if s.missing = 1 then r.put (Char.ofNat bits)
      else { r with pending := some { bits, missing := s.missing - 1 } }
    else r.breakOff.begin byte

def finish (r : Utf8Reader) : Utf8Reader :=
  match r.pending with
  | none => r
  | some _ => r.breakOff

end Utf8Reader

def readUtf8 (bytes : List UInt8) : Utf8Reader := (bytes.foldl Utf8Reader.read {}).finish

/-- Each longest broken sequence becomes one replacement character. -/
def decodeLossy (bytes : List UInt8) : List Char := (readUtf8 bytes).chars.reverse

/-- The bytes of a text. -/
def encodeUtf8 (text : List Char) : List UInt8 := text.flatMap String.utf8EncodeChar

/-- The text whose bytes these are, if there is one. -/
def decodeUtf8? (bytes : List UInt8) : Option (List Char) :=
  if encodeUtf8 (decodeLossy bytes) = bytes then some (decodeLossy bytes) else none

end TuneRelay.Text
