import TuneRelay.Text

/-!
# Notes and the binary tune format

A blob is the magic, a version, a width tag, the tempo with its most significant byte first, and one
letter code for each note. Every blob that decodes is the encoding of its own fields.
-/
namespace TuneRelay
open Text

/-- A tone of the fixed octave, or a rest. -/
inductive Note | c | d | e | f | g | a | b | rest
  deriving DecidableEq, Repr

namespace Note

def letter : Note → Char
  | c => 'C' | d => 'D' | e => 'E' | f => 'F' | g => 'G' | a => 'A' | b => 'B' | rest => 'R'

def ofLetter? : Char → Option Note
  | 'C' => some c | 'D' => some d | 'E' => some e | 'F' => some f
  | 'G' => some g | 'A' => some a | 'B' => some b | 'R' => some rest
  | _ => none

/-- A note is stored as the ASCII code of its letter. -/
def code (note : Note) : UInt8 := note.letter.toUInt8

def ofCode? (byte : UInt8) : Option Note := ofLetter? (Char.ofUInt8 byte)

def isRest (note : Note) : Bool := note == rest

@[simp] theorem ofLetter?_letter (note : Note) : ofLetter? note.letter = some note := by
  cases note <;> rfl

@[simp] theorem ofCode?_code (note : Note) : ofCode? note.code = some note := by
  cases note <;> rfl

end Note

def noteText (notes : List Note) : String := String.ofList (notes.map Note.letter)

/-- The tempo field holds one byte or two. -/
inductive TempoWidth | narrow | wide
  deriving DecidableEq, Repr

namespace TempoWidth

def tag : TempoWidth → UInt8
  | narrow => 1
  | wide => 2

def ofTag? (tag : UInt8) : Option TempoWidth :=
  if tag = 1 then some narrow else if tag = 2 then some wide else none

def bytes : TempoWidth → Nat
  | narrow => 1
  | wide => 2

def bits (width : TempoWidth) : Nat := 8 * width.bytes

def maxTempo : TempoWidth → Nat
  | narrow => 255
  | wide => 65535

@[simp] theorem ofTag?_tag (width : TempoWidth) : ofTag? width.tag = some width := by
  cases width <;> rfl

end TempoWidth

inductive FormatError
  | tempoOutOfRange (tempo widthBits max : Nat)
  | tooManyNotes (count max : Nat)
  | truncated (length needed : Nat)
  | badMagic
  | unsupportedVersion (version : UInt8)
  | unknownTempoWidth (tag : UInt8)
  | invalidNote (offset : Nat) (byte : UInt8)
  deriving DecidableEq, Repr

def FormatError.message : FormatError → String
  | tempoOutOfRange tempo widthBits max =>
    s!"tempo {tempo} does not fit a {widthBits}-bit tempo field (max {max})"
  | tooManyNotes count max => s!"{count} note events exceed the limit of {max}"
  | truncated length needed => s!"blob is {length} bytes, shorter than the {needed}-byte header"
  | badMagic => "blob does not start with the ZMUSIC magic header"
  | unsupportedVersion version => s!"unsupported blob format version {version}"
  | unknownTempoWidth tag => s!"unknown tempo width tag 0x{hexByte tag}"
  | invalidNote offset byte => s!"byte 0x{hexByte byte} at offset {offset} is not a note code"

/-- The fields of a blob. -/
structure Tune where
  version : UInt8
  width : TempoWidth
  tempo : Nat
  notes : List Note
  deriving DecidableEq

namespace Blob

/-- The letters `ZMUSIC`. -/
def magic : List UInt8 := [90, 77, 85, 83, 73, 67]

def version : UInt8 := 1

/-- The magic, the version and the width tag. -/
def headerLength : Nat := 8

/-- The low bytes of a tempo, the most significant first. -/
def tempoField (width : TempoWidth) (tempo : Nat) : List UInt8 :=
  match width with
  | .narrow => [tempo.toUInt8]
  | .wide => [(tempo / 256).toUInt8, tempo.toUInt8]

def layout (tempo : Nat) (notes : List Note) (width : TempoWidth) : List UInt8 :=
  magic ++ version :: width.tag :: tempoField width tempo ++ notes.map Note.code

/-- Reads note codes; the first byte that is none is reported with its offset. -/
def readNotes (offset : Nat) (known : List Note) : List UInt8 → Except FormatError (List Note)
  | [] => .ok known.reverse
  | byte :: rest =>
    match Note.ofCode? byte with
    | some note => readNotes (offset + 1) (note :: known) rest
    | none => .error (.invalidNote offset byte)

def readTune (length : Nat) (width : TempoWidth) (body : List UInt8) : Except FormatError Tune :=
  match width, body with
  | .narrow, tempo :: codes =>
    (readNotes (headerLength + 1) [] codes).map (⟨version, .narrow, tempo.toNat, ·⟩)
  | .wide, high :: low :: codes =>
    (readNotes (headerLength + 2) [] codes).map
      (⟨version, .wide, 256 * high.toNat + low.toNat, ·⟩)
  | width, _ => .error (.truncated length (headerLength + width.bytes))

/-- The fields of a blob, or its first fault from the front. -/
def decode (bytes : List UInt8) : Except FormatError Tune :=
  match bytes.drop magic.length with
  | found :: tag :: body =>
    if bytes.take magic.length ≠ magic then .error .badMagic
    else if found ≠ version then .error (.unsupportedVersion found)
    else match TempoWidth.ofTag? tag with
      | none => .error (.unknownTempoWidth tag)
      | some width => readTune bytes.length width body
  | _ => .error (.truncated bytes.length headerLength)

end Blob

/-- An encoded tune: only encoding makes one, and reading bytes that decode. -/
@[ext]
structure Blob where
  bytes : List UInt8
  made : (∃ tempo notes width, tempo ≤ width.maxTempo ∧ bytes = Blob.layout tempo notes width) ∨
    ∃ tune, Blob.decode bytes = .ok tune
  deriving DecidableEq

namespace Blob

/-- A tempo that does not fit its field is refused, never cut. -/
def encode (tempo : Nat) (notes : List Note) (width : TempoWidth) : Except FormatError Blob :=
  if h : width.maxTempo < tempo then
    .error (.tempoOutOfRange tempo width.bits width.maxTempo)
  else
    .ok ⟨layout tempo notes width, .inl ⟨tempo, notes, width, Nat.le_of_not_lt h, rfl⟩⟩

/-- Bytes from elsewhere become a blob only if they decode. -/
def ofBytes (bytes : List UInt8) : Except FormatError Blob :=
  match h : decode bytes with
  | .error fault => .error fault
  | .ok tune => .ok ⟨bytes, .inr ⟨tune, h⟩⟩

end Blob
end TuneRelay
