import TuneRelay.Mml

/-!
# Checked results and the log of rules that were checked

The control path checks its own results. A check that holds puts the id of its rule in a log, which
contracts ask; a check that fails is a fault of the program.
-/
namespace TuneRelay.Audit
open Mml

inductive Rule
  | sanitizePrintable | sanitizeNoForbidden | sanitizeFixpoint
  | compileTempoFits | compileNotesAlphabet | blobLayout | decodeHeader | engineLifecycle
  deriving DecidableEq, Repr

namespace Rule

def id : Rule → Nat
  | sanitizePrintable => 1 | sanitizeNoForbidden => 2 | sanitizeFixpoint => 3
  | compileTempoFits => 4 | compileNotesAlphabet => 5
  | blobLayout => 6 | decodeHeader => 7 | engineLifecycle => 8

def statement : Rule → String
  | sanitizePrintable => "sanitized text is printable ASCII or newline"
  | sanitizeNoForbidden => "sanitized text contains no forbidden escape"
  | sanitizeFixpoint => "another round of the sanitizer passes leaves the text unchanged"
  | compileTempoFits => "compiled tempo fits the tempo field"
  | compileNotesAlphabet => "at most one note per source character"
  | blobLayout => "blob length is header + tempo field + one byte per note"
  | decodeHeader => "decoded tempo fits its field"
  | engineLifecycle => "engine stays ready across play"

end Rule

structure Check where
  rule : Rule
  holds : Bool
  deriving DecidableEq

def Check.violation (c : Check) : String :=
  s!"Invariant {c.rule.id} failed: {c.rule.statement}"

/-- A result and the checks made on the way to it, oldest first. -/
structure Audited (α : Type) where
  value : α
  checks : List Check := []

namespace Audited

instance : Monad Audited where
  pure a := ⟨a, []⟩
  bind x f := ⟨(f x.value).value, x.checks ++ (f x.value).checks⟩

@[simp] theorem value_pure {α : Type} (a : α) : (pure a : Audited α).value = a := rfl

@[simp] theorem value_bind {α β : Type} (x : Audited α) (f : α → Audited β) :
    (x >>= f).value = (f x.value).value := rfl

def check (rule : Rule) (holds : Bool) : Audited Unit := ⟨(), [⟨rule, holds⟩]⟩

def fault? (x : Audited α) : Option Check := x.checks.find? fun c => !c.holds

end Audited

/-- The ids of the rules that have been checked and held. -/
structure Log where
  ids : List Nat := []

namespace Log

/-- Adds the rules that held before the first failure. -/
def record (log : Log) (x : Audited α) : Log :=
  ⟨((x.checks.takeWhile Check.holds).map (·.rule.id)).foldl (fun ids id => ids.insert id) log.ids⟩

/-- The required ids that are not in the log, in the order required. -/
def missing (log : Log) (required : List Nat) : List Nat :=
  required.filter fun id => !log.ids.contains id

/-- What a contract has to say when an id is missing. -/
def contract (log : Log) (name : String) (required : List Nat) : Except String Unit :=
  match log.missing required with
  | [] => .ok ()
  | missing =>
    let list := ", ".intercalate (missing.map toString)
    .error s!"Contract test '{name}' failed: invariants not enforced: [{list}]"

end Log

def sanitize (raw : List Char) : Audited Sanitized := do
  let sanitized := Mml.sanitize raw
  let text := sanitized.text.chars
  .check .sanitizePrintable (text.all isPrintable)
  .check .sanitizeNoForbidden (!hasWindow isZeroEscape text && !hasWindow isHexEscape text)
  .check .sanitizeFixpoint (Mml.round text == text)
  return sanitized

/-- A result whose checks are made only if it is not a fault. -/
def ofResult {ε α : Type} (checks : α → List Check) (result : Except ε α) : Audited (Except ε α) :=
  ⟨result, match result with
    | .error _ => []
    | .ok a => checks a⟩

def layoutCheck (blob : Blob) (notes : List Note) (width : TempoWidth) : Check :=
  ⟨.blobLayout, blob.bytes.length == Blob.headerLength + width.bytes + notes.length⟩

def encode (tempo : Nat) (notes : List Note) (width : TempoWidth) :
    Audited (Except FormatError Blob) :=
  ofResult (fun blob => [layoutCheck blob notes width]) (Blob.encode tempo notes width)

def decode (bytes : List UInt8) : Audited (Except FormatError Tune) :=
  ofResult (fun tune => [⟨.decodeHeader, tune.tempo ≤ tune.width.maxTempo⟩]) (Blob.decode bytes)

def blobOfBytes (bytes : List UInt8) : Audited (Except FormatError Blob) := do
  let _ ← decode bytes
  return Blob.ofBytes bytes

/-- Encoding checks the layout of the blob before the rest is checked. -/
def compile (text : SanitizedText) (options : CompileOptions) :
    Audited (Except FormatError Compiled) :=
  ofResult (fun c => [
    layoutCheck c.blob c.notes options.tempoWidth,
    ⟨.compileTempoFits, c.tempo ≤ options.tempoWidth.maxTempo⟩,
    ⟨.compileNotesAlphabet, c.notes.length ≤ (body text options).length⟩])
    (Mml.compile text options)

def compileText (raw : List Char) (options : CompileOptions) :
    Audited (Except FormatError (Compiled × List Warning)) := do
  let sanitized ← sanitize raw
  return (← compile sanitized.text options).map (·, sanitized.warnings)

@[simp] theorem value_encode (tempo : Nat) (notes : List Note) (width : TempoWidth) :
    (encode tempo notes width).value = Blob.encode tempo notes width := rfl

@[simp] theorem value_decode (bytes : List UInt8) :
    (decode bytes).value = Blob.decode bytes := rfl

@[simp] theorem value_blobOfBytes (bytes : List UInt8) :
    (blobOfBytes bytes).value = Blob.ofBytes bytes := rfl

@[simp] theorem value_compile (text : SanitizedText) (options : CompileOptions) :
    (compile text options).value = Mml.compile text options := rfl

@[simp] theorem value_compileText (raw : List Char) (options : CompileOptions) :
    (compileText raw options).value = Mml.compileText raw options := rfl

end TuneRelay.Audit
