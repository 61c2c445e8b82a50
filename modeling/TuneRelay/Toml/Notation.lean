import TuneRelay.Toml.Document
import TuneRelay.Text

/-!
# The notation of documents

Blanks, keys, strings, numbers, times and values are each read off the front of a text; a document
is read line by line. Sections are written with a field on each line.
-/
namespace TuneRelay.Toml
open Numeric Text

/-- A reader takes something off the front of a text, or fails. -/
abbrev Reader (α : Type) := List Char → Option (α × List Char)

def isSpace (c : Char) : Bool := c == ' ' || c == '\t'

def dropSpace (text : List Char) : List Char := text.dropWhile isSpace

/-- What comments and strings may hold: a tab, or anything but control characters. -/
def isTextChar (c : Char) : Bool := c == '\t' || (' ' ≤ c && c != '\x7f')

/-- The text after a line feed, which a carriage return may precede. -/
def newline? : List Char → Option (List Char)
  | '\n' :: rest | '\r' :: '\n' :: rest => some rest
  | _ => none

def lineEnd? : List Char → Option (List Char)
  | [] => some []
  | text => newline? text

def dropComment : List Char → List Char
  | '#' :: rest => rest.dropWhile isTextChar
  | text => text

def restOfLine? (text : List Char) : Option (List Char) := lineEnd? (dropComment (dropSpace text))

/-- Skips blanks, ends of lines and comments; the fuel bounds their number. -/
def skipLines : Nat → List Char → List Char
  | 0, text => text
  | fuel + 1, text =>
    let text := dropSpace text
    match newline? (dropComment text) with
    | some rest => skipLines fuel rest
    | none => text

/-- The character of a code point written in hexadecimal digits; surrogates have none. -/
def codePoint? (digits : List Char) : Option Char := do
  let n ← digits.foldlM (fun n c => return 16 * n + (← hexValue? c)) 0
  if n < 0xD800 || (0xDFFF < n && n < 0x110000) then some (Char.ofNat n) else none

/-- The character that an escape stands for, without its backslash. -/
def escape : Reader Char
  | 'b' :: rest => some ('\x08', rest)
  | 't' :: rest => some ('\t', rest)
  | 'n' :: rest => some ('\n', rest)
  | 'f' :: rest => some ('\x0c', rest)
  | 'r' :: rest => some ('\r', rest)
  | '"' :: rest => some ('"', rest)
  | '\\' :: rest => some ('\\', rest)
  | 'u' :: rest => do
    if rest.length < 4 then none else return (← codePoint? (rest.take 4), rest.drop 4)
  | 'U' :: rest => do
    if rest.length < 8 then none else return (← codePoint? (rest.take 8), rest.drop 8)
  | _ => none

def quotedChar : Reader Char
  | '\\' :: rest => escape rest
  | c :: rest => if isTextChar c then some (c, rest) else none
  | [] => none

/-- The rest of a string in double quotes; the fuel bounds its length. -/
def basicBody : Nat → List Char → Reader (List Char)
  | 0, _, _ => none
  | fuel + 1, done, text =>
    match text with
    | '"' :: rest => some (done.reverse, rest)
    | _ => (quotedChar text).bind fun (c, rest) => basicBody fuel (c :: done) rest

/-- A string in single quotes holds its characters as they are. -/
def literalBody (text : List Char) : Option (List Char × List Char) :=
  match text.dropWhile fun c => isTextChar c && c != '\'' with
  | '\'' :: rest => some (text.takeWhile fun c => isTextChar c && c != '\'', rest)
  | _ => none

/-- The end of a string in triple quotes: two quotes at most may stand before the closing ones. -/
def closing? (quote : Char) (text : List Char) : Option (List Char × List Char) :=
  let run := (text.take 5).takeWhile (· == quote)
  if run.length < 3 then none else some (run.drop 3, text.drop run.length)

/-- The text after a backslash that ends a line, from the next character that is not blank. -/
def continuation? : List Char → Option (List Char)
  | '\\' :: rest => (newline? (dropSpace rest)).map fun after =>
      let rec skip : Nat → List Char → List Char
        | 0, text => text
        | fuel + 1, text =>
          match newline? (dropSpace text) with
          | some rest => skip fuel rest
          | none => dropSpace text
      skip (after.length + 1) after
  | _ => none

/-- The rest of a string in triple quotes; escapes count only in double ones. -/
def multilineBody (quote : Char) : Nat → List Char → Reader (List Char)
  | 0, _, _ => none
  | fuel + 1, done, text =>
    match closing? quote text with
    | some (quotes, rest) => some (done.reverse ++ quotes, rest)
    | none =>
      match newline? text with
      | some rest => multilineBody quote fuel ('\n' :: done) rest
      | none =>
        if quote == '"' then
          match continuation? text with
          | some rest => multilineBody quote fuel done rest
          | none =>
            (quotedChar text).bind fun (c, rest) => multilineBody quote fuel (c :: done) rest
        else
          match text with
          | c :: rest => if isTextChar c then multilineBody quote fuel (c :: done) rest else none
          | [] => none

/-- A line end right after the opening quotes does not count. -/
def multilineString (quote : Char) (text : List Char) : Option (List Char × List Char) :=
  let body := (newline? text).getD text
  multilineBody quote (body.length + 1) [] body

def lineString : Reader (List Char)
  | '"' :: rest => basicBody (rest.length + 1) [] rest
  | '\'' :: rest => literalBody rest
  | _ => none

def anyString : Reader (List Char)
  | '"' :: '"' :: '"' :: rest => multilineString '"' rest
  | '\'' :: '\'' :: '\'' :: rest => multilineString '\'' rest
  | text => lineString text

def isBareKeyChar (c : Char) : Bool :=
  isAsciiDigit c || ('A' ≤ c && c ≤ 'Z') || ('a' ≤ c && c ≤ 'z') || c == '_' || c == '-'

def simpleKey (text : List Char) : Option (List Char × List Char) :=
  match text.takeWhile isBareKeyChar with
  | [] => lineString text
  | bare => some (bare, text.dropWhile isBareKeyChar)

/-- Keys joined by points, with blanks around each; the fuel bounds their number. -/
def keysBody : Nat → Reader (List (List Char))
  | 0, _ => none
  | fuel + 1, text => do
    let (key, rest) ← simpleKey (dropSpace text)
    match dropSpace rest with
    | '.' :: more =>
      let (keys, rest) ← keysBody fuel more
      return (key :: keys, rest)
    | rest => return ([key], rest)

/-- How many keys a path may have, and how many brackets may be open at once. -/
def depthLimit : Nat := 79

def keyPath (text : List Char) : Option (List (List Char) × List Char) :=
  keysBody depthLimit text

/-- Digits in which single underscores may stand between two of them. -/
def digitRun (isDigit : Char → Bool) (text : List Char) : Option (List Char × List Char) :=
  let run := text.takeWhile fun c => isDigit c || c == '_'
  let rec separated : List Char → Bool
    | [] => false
    | [c] => c != '_'
    | c :: d :: rest => !(c == '_' && d == '_') && separated (d :: rest)
  if run.head? != some '_' && separated run then
    some (run.filter (· != '_'), text.dropWhile fun c => isDigit c || c == '_')
  else none

/-- A sign, if there is one, and whether it is a minus. -/
def sign (text : List Char) : Bool × List Char :=
  match text with
  | '-' :: rest => (true, rest)
  | '+' :: rest => (false, rest)
  | _ => (false, text)

/-- Decimal digits without a leading zero. -/
def wholePart (text : List Char) : Option (List Char × List Char) := do
  let (digits, rest) ← digitRun isAsciiDigit text
  if digits.head? == some '0' && (text.drop 1).head?.any (fun c => isAsciiDigit c || c == '_') then
    none
  else return (digits, rest)

/-- The digits after a point; none if there is no point. -/
def fractionPart : Reader (List Char)
  | '.' :: rest => digitRun isAsciiDigit rest
  | text => some ([], text)

/-- The exponent after its letter; zero if there is no letter. -/
def exponentPart (text : List Char) : Option (Int × List Char) :=
  let read (rest : List Char) : Option (Int × List Char) := do
    let (negative, rest) := sign rest
    let (digits, rest) ← digitRun isAsciiDigit rest
    let n : Int := decimalValue digits
    return (if negative then -n else n, rest)
  match text with
  | 'e' :: rest | 'E' :: rest => read rest
  | _ => some (0, text)

def startsFraction : List Char → Bool
  | '.' :: _ | 'e' :: _ | 'E' :: _ => true
  | _ => false

/-- A float must not be too large for a double. -/
def float (negative : Bool) (whole : List Char) (text : List Char) : Option (Node × List Char) := do
  let (fraction, rest) ← fractionPart text
  let (exponent, rest) ← exponentPart rest
  match Binary64.ofDecimal negative (decimalValue (whole ++ fraction))
      (exponent - fraction.length) with
  | .infinite _ => none
  | value => return (.float value, rest)

/-- Integers have 64 bits and a sign. -/
def integer (value : Int) : Option Node :=
  if -9223372036854775808 ≤ value && value ≤ 9223372036854775807 then some (.integer value)
  else none

/-- An integer in a base whose letter has been read. -/
def based (base : Nat) (text : List Char) : Option (Node × List Char) := do
  let (digits, rest) ← digitRun (fun c => (hexValue? c).any (· < base)) text
  let value := digits.foldl (fun n c => base * n + (hexValue? c).getD 0) 0
  return (← integer value, rest)

def special (negative : Bool) : Reader Node
  | 'i' :: 'n' :: 'f' :: rest => some (.float (.infinite negative), rest)
  | 'n' :: 'a' :: 'n' :: rest => some (.float .nan, rest)
  | _ => none

def signedNumber (text : List Char) : Option (Node × List Char) :=
  let (negative, unsigned) := sign text
  match special negative unsigned with
  | some found => some found
  | none => do
    let (digits, rest) ← wholePart unsigned
    if startsFraction rest then float negative digits rest
    else
      let n : Int := decimalValue digits
      return (← integer (if negative then -n else n), rest)

def number : Reader Node
  | '0' :: 'x' :: rest => based 16 rest
  | '0' :: 'o' :: rest => based 8 rest
  | '0' :: 'b' :: rest => based 2 rest
  | text => signedNumber text

/-- Exactly so many digits, with a value in a range. -/
def field (count low high : Nat) (text : List Char) : Option (Nat × List Char) :=
  let digits := (text.take count).takeWhile isAsciiDigit
  let n := decimalValue digits
  if digits.length = count && low ≤ n && n ≤ high then some (n, text.drop count) else none

def literal (expected : List Char) (text : List Char) : Option (List Char) :=
  if text.take expected.length = expected then some (text.drop expected.length) else none

def isLeapYear (year : Nat) : Bool := year % 4 == 0 && (year % 100 != 0 || year % 400 == 0)

def daysOfMonth (year month : Nat) : Nat :=
  if month = 2 then (if isLeapYear year then 29 else 28)
  else if month = 4 || month = 6 || month = 9 || month = 11 then 30
  else 31

def date? (text : List Char) : Option (List Char) := do
  let (year, rest) ← field 4 0 9999 text
  let (month, rest) ← field 2 1 12 (← literal ['-'] rest)
  let (_, rest) ← field 2 1 (daysOfMonth year month) (← literal ['-'] rest)
  return rest

/-- The text after a time of day; the second may be a leap second. -/
def time? (text : List Char) : Option (List Char) := do
  let (_, rest) ← field 2 0 23 text
  let (_, rest) ← field 2 0 59 (← literal [':'] rest)
  let (_, rest) ← field 2 0 60 (← literal [':'] rest)
  match rest with
  | '.' :: d :: more => return if isAsciiDigit d then more.dropWhile isAsciiDigit else rest
  | _ => return rest

def offset? : List Char → Option (List Char)
  | 'Z' :: rest | 'z' :: rest => some rest
  | '+' :: rest | '-' :: rest => do
    let (_, rest) ← field 2 0 23 rest
    let (_, rest) ← field 2 0 59 (← literal [':'] rest)
    return rest
  | _ => none

/-- The text after a time that a date may precede, with an offset if it has both. -/
def moment? (text : List Char) : Option (List Char) :=
  match date? text with
  | none => time? text
  | some rest =>
    let time : Option (List Char) := match rest with
      | 'T' :: more | 't' :: more | ' ' :: more => time? more
      | _ => none
    match time with
    | none => some rest
    | some after => some ((offset? after).getD after)

def scalar (text : List Char) : Option (Node × List Char) :=
  match text with
  | '"' :: _ | '\'' :: _ => (anyString text).map fun (s, rest) => (.string s, rest)
  | 't' :: _ => (literal ['t', 'r', 'u', 'e'] text).map (.boolean true, ·)
  | 'f' :: _ => (literal ['f', 'a', 'l', 's', 'e'] text).map (.boolean false, ·)
  | _ =>
    match moment? text with
    | some rest => some (.moment, rest)
    | none => number text

/-- The items of an array after its bracket; the fuel bounds their number, and the lines between
two of them. -/
def arrayBody (item : Reader Node) : Nat → List Node → Reader (List Node)
  | 0, _, _ => none
  | fuel + 1, done, text =>
    match skipLines (fuel + 1) text with
    | ']' :: rest => some (done.reverse, rest)
    | start => do
      let (node, rest) ← item start
      match skipLines (fuel + 1) rest with
      | ',' :: more => arrayBody item fuel (node :: done) more
      | ']' :: more => return ((node :: done).reverse, more)
      | _ => none

def keyValue (item : Reader Node) (text : List Char) : Option ((List Key × Node) × List Char) := do
  let (path, rest) ← keyPath text
  match rest with
  | '=' :: more =>
    let (node, rest) ← item (dropSpace more)
    return ((path, node), rest)
  | _ => none

/-- The pairs of an inline table after its first key has been seen; no comma may end them. -/
def inlineBody (item : Reader Node) : Nat → List (List Key × Node) → Reader (List (List Key × Node))
  | 0, _, _ => none
  | fuel + 1, done, text => do
    let (pair, rest) ← keyValue item text
    match dropSpace rest with
    | ',' :: more => inlineBody item fuel (pair :: done) more
    | '}' :: more => return ((pair :: done).reverse, more)
    | _ => none

def inlineTable (item : Reader Node) (text : List Char) : Option (Node × List Char) :=
  match dropSpace text with
  | '}' :: rest => some (.inlineTable [], rest)
  | start => do
    let (pairs, rest) ← inlineBody item (start.length + 1) [] start
    return (.inlineTable (← inlineEntries pairs), rest)

/-- A value in which so many brackets may be open at once. -/
def value : Nat → Reader Node
  | 0, text => scalar text
  | depth + 1, text =>
    match text with
    | '[' :: rest => (arrayBody (value depth) (rest.length + 1) [] rest).map fun (items, rest) =>
        (.array items, rest)
    | '{' :: rest => inlineTable (value depth) rest
    | _ => scalar text

/-- The key path of a header whose opening brackets have been read, up to the end of its line. -/
def headerPath (closing : List Char) (text : List Char) : Option (List Key × List Char) := do
  let (path, rest) ← keyPath text
  return (path, ← restOfLine? (← literal closing rest))

def line (a : Assembly) (text : List Char) : Option (Assembly × List Char) :=
  match text with
  | '[' :: '[' :: rest => do
    let (path, rest) ← headerPath [']', ']'] rest
    return (← a.element path, rest)
  | '[' :: rest => do
    let (path, rest) ← headerPath [']'] rest
    return (← a.header path, rest)
  | _ => do
    let ((path, node), rest) ← keyValue (value depthLimit) text
    return (← a.pair path node, ← restOfLine? rest)

/-- Reads lines to the end; the fuel bounds their number. -/
def lines : Nat → Assembly → List Char → Option Assembly
  | 0, _, _ => none
  | fuel + 1, a, text =>
    match dropSpace text with
    | [] => some a
    | '#' :: rest => (lineEnd? (rest.dropWhile isTextChar)).bind (lines fuel a)
    | start =>
      match newline? start with
      | some rest => lines fuel a rest
      | none => (line a start).bind fun (next, rest) => lines fuel next rest

/-- The root table of a document, which a byte order mark may precede. -/
def parse (text : List Char) : Option Entries := do
  let body := match text with
    | '\uFEFF' :: rest => rest
    | _ => text
  let a ← lines (body.length + 1) {} body
  return (← a.close).entries

/-- A scalar as it is written; a string as it stands, between quotes. -/
def Scalar.text : Scalar → List Char
  | string text => '"' :: text ++ ['"']
  | natural n => Nat.toDigits 10 n
  | float x => x.text.toList
  | boolean b => if b then ['t', 'r', 'u', 'e'] else ['f', 'a', 'l', 's', 'e']

def fieldText (field : Key × Scalar) : List Char :=
  field.1 ++ ' ' :: '=' :: ' ' :: (field.2.text ++ ['\n'])

def sectionText (s : Key × Fields) : List Char :=
  '[' :: (s.1 ++ ']' :: '\n' :: s.2.flatMap fieldText)

/-- Sections with a blank line between two of them. -/
def documentText : Sections → List Char
  | [] => []
  | first :: more => sectionText first ++ more.flatMap fun s => '\n' :: sectionText s

def standard : Format where
  read text := (parse text).map documentOf
  write sections :=
    if sections.isWritable then .ok (documentText sections)
    else .error "out-of-range value for u64 type"

end TuneRelay.Toml
