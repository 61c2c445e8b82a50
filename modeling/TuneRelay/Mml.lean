import TuneRelay.Blob
import TuneRelay.Text

/-!
# Sanitizing and compiling tune text

A scan sanitizes: the kept characters form a stack. An escape has five characters, and only its
first is a dollar sign, so a removal can join no two parts of a new escape but at the end of what
has been read; looking at the end after each character finds them all. The same is reached by rounds
of three passes, each of which deletes what stands in the text when it begins.

Of sanitized text only the first tempo and the note letters are compiled; all other directives are
dropped. No tempo is ever cut to fit.
-/
namespace TuneRelay.Mml
open Text

def isPrintable (c : Char) : Bool := c == '\n' || (' ' ≤ c && c ≤ '~')

/-- A removable escape: `$0b` and two hexadecimal digits, or `$0B00`. -/
def isEscape : List Char → Bool
  | ['$', '0', b, x, y] =>
    (b == 'b' && isHexDigit x && isHexDigit y) || (b == 'B' && x == '0' && y == '0')
  | _ => false

/-- What had to be done beyond plain deletion, and how often. -/
inductive Warning
  | nestedEscape (occurrences : Nat)
  | splicedEscape (occurrences : Nat)
  | residualEscapePrefix (occurrences : Nat)
  deriving DecidableEq, Repr

namespace Warning

def occurrences : Warning → Nat
  | nestedEscape n | splicedEscape n | residualEscapePrefix n => n

def message : Warning → String
  | nestedEscape n => s!"{n} escape(s) formed after removing a nested escape"
  | splicedEscape n => s!"{n} escape(s) formed after stripping non-printable characters"
  | residualEscapePrefix n => s!"{n} `$0b` escape prefix(es) remain in the sanitized text"

end Warning

/-- A kept character, its byte in the raw text, and how many characters were stripped before it. -/
structure Kept where
  char : Char
  offset : Nat
  stripped : Nat

/-- The state of a scan; the newest kept character comes first. -/
structure Scan where
  kept : List Kept := []
  offset : Nat := 0
  stripped : Nat := 0
  nested : Nat := 0
  spliced : Nat := 0

namespace Scan

/-- Removes an escape that has just been completed. It is spliced when a character was stripped
between its ends, nested when its ends are otherwise further apart than five bytes. -/
def settle (s : Scan) : Scan :=
  match s.kept with
  | last :: fourth :: third :: second :: first :: below =>
    if isEscape [first.char, second.char, third.char, fourth.char, last.char] then
      if first.stripped < last.stripped then { s with kept := below, spliced := s.spliced + 1 }
      else if last.offset - first.offset = 4 then { s with kept := below }
      else { s with kept := below, nested := s.nested + 1 }
    else s
  | _ => s

def read (s : Scan) (c : Char) : Scan :=
  if isPrintable c then
    settle { s with kept := ⟨c, s.offset, s.stripped⟩ :: s.kept, offset := s.offset + c.utf8Size }
  else { s with offset := s.offset + c.utf8Size, stripped := s.stripped + 1 }

def text (s : Scan) : List Char := s.kept.reverse.map Kept.char

end Scan

def scan (raw : List Char) : Scan := raw.foldl Scan.read {}

def startsEscapePrefix : List Char → Bool
  | '$' :: '0' :: b :: _ => b == 'b' || b == 'B'
  | _ => false

def countPrefixesFrom (count : Nat) : List Char → Nat
  | [] => count
  | c :: rest =>
    countPrefixesFrom (if startsEscapePrefix (c :: rest) then count + 1 else count) rest

/-- The number of positions at which `$0b` or `$0B` starts. -/
def countPrefixes (text : List Char) : Nat := countPrefixesFrom 0 text

/-- Text that has been sanitized: only a scan makes it. -/
structure SanitizedText where
  chars : List Char
  scanned : ∃ raw, chars = (scan raw).text
  deriving DecidableEq

structure Sanitized where
  text : SanitizedText
  warnings : List Warning

/-- The warnings of a scan: nested before spliced before residual, none with a count of zero. -/
def Scan.warnings (s : Scan) : List Warning :=
  [.nestedEscape s.nested, .splicedEscape s.spliced,
    .residualEscapePrefix (countPrefixes s.text)].filter (·.occurrences != 0)

/-- Keeps printable ASCII and newlines, and removes escapes until none is left. -/
def sanitize (raw : List Char) : Sanitized :=
  let s := scan raw
  ⟨⟨s.text, raw, rfl⟩, s.warnings⟩

/-- The escape `$0b00` with either case of its letter. -/
def isZeroEscape : List Char → Bool
  | ['$', '0', b, '0', '0'] => b == 'b' || b == 'B'
  | _ => false

/-- The escape `$0b` with any two hexadecimal digits. -/
def isHexEscape : List Char → Bool
  | ['$', '0', 'b', x, y] => isHexDigit x && isHexDigit y
  | _ => false

def deleteWindowsOnto (kept : List Char) (hit : List Char → Bool) : List Char → List Char
  | a :: b :: c :: d :: e :: rest =>
    if hit [a, b, c, d, e] then deleteWindowsOnto kept hit rest
    else deleteWindowsOnto (a :: kept) hit (b :: c :: d :: e :: rest)
  | short => kept.reverse ++ short

/-- Deletes from left to right each window of five characters that is a hit. -/
def deleteWindows (hit : List Char → Bool) (text : List Char) : List Char :=
  deleteWindowsOnto [] hit text

/-- One round: the zero escapes, then the other escapes, then what is not printable. -/
def round (text : List Char) : List Char :=
  (deleteWindows isHexEscape (deleteWindows isZeroEscape text)).filter isPrintable

/-- A window of five characters that is a hit starts somewhere in the text. -/
def hasWindow (hit : List Char → Bool) : List Char → Bool
  | a :: b :: c :: d :: e :: rest => hit [a, b, c, d, e] || hasWindow hit (b :: c :: d :: e :: rest)
  | _ => false

/-- Whether lowercase letters are notes. -/
inductive NoteCase | fold | exact
  deriving DecidableEq, Repr

structure CompileOptions where
  tempoWidth : TempoWidth := .narrow
  noteCase : NoteCase := .fold
  stripComments : Bool := true
  maxNotes : Nat := 65535
  deriving DecidableEq

structure Compiled where
  blob : Blob
  tempo : Nat
  notes : List Note

def defaultTempo : Nat := 120

def maxTextTempo : Nat := 4294967295

/-- The largest tempo that a fault report states. -/
def maxReportedTempo : Nat := 18446744073709551615

/-- The digits after the first `T` that a decimal digit follows. -/
def tempoDigits? : List Char → Option (List Char)
  | [] => none
  | c :: rest =>
    if c == 'T' && !(rest.takeWhile isDecimalDigit).isEmpty then
      some (rest.takeWhile isDecimalDigit)
    else tempoDigits? rest

/-- Only ASCII digits have a value; a run with any other digit counts as too large to report. -/
def readTempo (digits : List Char) : Except FormatError Nat :=
  let value := if digits.all isAsciiDigit then decimalValue digits else maxReportedTempo
  if value ≤ maxTextTempo then .ok value
  else .error (.tempoOutOfRange (min value maxReportedTempo) 32 maxTextTempo)

def extractTempo (text : List Char) : Except FormatError Nat :=
  match tempoDigits? text with
  | none => .ok defaultTempo
  | some digits => readTempo digits

def noteOf? (noteCase : NoteCase) (c : Char) : Option Note :=
  match noteCase with
  | .fold => Note.ofLetter? c.toUpper
  | .exact => Note.ofLetter? c

def extractNotes (text : List Char) (noteCase : NoteCase) : List Note :=
  text.filterMap (noteOf? noteCase)

/-- The characters kept so far, newest first, and whether a comment is open. -/
structure CommentScan where
  kept : List Char := []
  inComment : Bool := false

def CommentScan.read (s : CommentScan) (c : Char) : CommentScan :=
  if c == '\n' then ⟨c :: s.kept, false⟩
  else if s.inComment || c == ';' then { s with inComment := true }
  else ⟨c :: s.kept, false⟩

/-- Cuts each line at its first semicolon. -/
def stripComments (text : List Char) : List Char :=
  (text.foldl CommentScan.read {}).kept.reverse

/-- The part of a text that the options make count. -/
def body (text : SanitizedText) (options : CompileOptions) : List Char :=
  if options.stripComments then stripComments text.chars else text.chars

/-- The tempo is read before the notes are counted, and its field is checked last. -/
def compile (text : SanitizedText) (options : CompileOptions) : Except FormatError Compiled :=
  match extractTempo (body text options) with
  | .error fault => .error fault
  | .ok tempo =>
    let notes := extractNotes (body text options) options.noteCase
    if options.maxNotes < notes.length then .error (.tooManyNotes notes.length options.maxNotes)
    else (Blob.encode tempo notes options.tempoWidth).map (⟨·, tempo, notes⟩)

/-- Sanitizes raw text first; the warnings come with the result. -/
def compileText (raw : List Char) (options : CompileOptions) :
    Except FormatError (Compiled × List Warning) :=
  (compile (sanitize raw).text options).map (·, (sanitize raw).warnings)

end TuneRelay.Mml
