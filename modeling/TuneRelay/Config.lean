import TuneRelay.Mml
import TuneRelay.Numeric
import TuneRelay.Sample
import TuneRelay.Toml.Document

/-!
# Configurations

A configuration is a document of two sections. Every field may be left out, and none may be added.
How a document is written down is up to a format.
-/
namespace TuneRelay

def maxChannels : Nat := 32

structure RenderOptions where
  sampleRate : Nat := 48000
  quantum : Nat := 128
  channels : Nat := 2
  amplitude : Sample := .ofBits 0x3e800000
  deriving DecidableEq

structure Config where
  compiler : Mml.CompileOptions := {}
  render : RenderOptions := {}
  deriving DecidableEq

inductive ConfigFault
  | sampleRateNotPositive
  | quantumNotPositive
  | channelsOutOfRange
  | amplitudeOutOfRange
  | unwritable (reason : String)
  deriving DecidableEq, Repr

def ConfigFault.message : ConfigFault → String
  | sampleRateNotPositive => "render.sample_rate must be positive"
  | quantumNotPositive => "render.quantum must be positive"
  | channelsOutOfRange => s!"render.channels must be between 1 and {maxChannels}"
  | amplitudeOutOfRange => "render.amplitude must be within 0..=1"
  | unwritable reason => reason

inductive ConfigError
  | unreadable (path reason : String)
  | malformed
  | invalid (fault : ConfigFault)
  deriving DecidableEq, Repr

def ConfigError.message : ConfigError → String
  | unreadable path reason => s!"failed to read config {path}: {reason}"
  | malformed => "invalid config: TOML parse error"
  | invalid fault => s!"invalid config: {fault.message}"

namespace Config

/-- Both zeros are amplitudes; a NaN is none. -/
def isAmplitude (s : Sample) : Bool := Sample.silence ≤ s && s ≤ .one

/-- The first fault of the render options. -/
def validate (config : Config) : Except ConfigFault Unit :=
  if config.render.sampleRate = 0 then .error .sampleRateNotPositive
  else if config.render.quantum = 0 then .error .quantumNotPositive
  else if config.render.channels = 0 || maxChannels < config.render.channels then
    .error .channelsOutOfRange
  else if isAmplitude config.render.amplitude then .ok ()
  else .error .amplitudeOutOfRange

/-- A check with others after it is passed when it does not refuse and they are passed. -/
theorem check_eq_ok_iff {refused : Prop} [Decidable refused] {fault : ConfigFault}
    {rest : Except ConfigFault Unit} :
    (if refused then .error fault else rest) = .ok () ↔ ¬ refused ∧ rest = .ok () := by
  split <;> simp [*]

theorem validate_eq_ok_iff {config : Config} : config.validate = .ok () ↔
    0 < config.render.sampleRate ∧ 0 < config.render.quantum ∧ 0 < config.render.channels ∧
      config.render.channels ≤ maxChannels ∧ isAmplitude config.render.amplitude = true := by
  have hlast : (if isAmplitude config.render.amplitude = true then .ok ()
      else .error .amplitudeOutOfRange : Except ConfigFault Unit) = .ok () ↔
        isAmplitude config.render.amplitude = true := by
    split <;> simp [*]
  simp only [validate, check_eq_ok_iff, hlast, Bool.or_eq_true, decide_eq_true_eq, not_or,
    Nat.not_lt, Nat.pos_iff_ne_zero, ne_eq, and_assoc]

end Config
end TuneRelay

namespace TuneRelay.Config
open Mml Numeric Toml

/-- The values that a section gives to its fields: a table by name, with no other names, an array by
position. -/
def sectionFields (names : List String) : Value → Option (List (Option Value))
  | .table entries =>
    if entries.all fun entry => names.contains (String.ofList entry.1) then
      some (names.map fun name => entries.lookup name.toList)
    else none
  | .array items => some ((List.range names.length).map fun i => items[i]?)
  | _ => none

/-- A field that is not given has its default. -/
def fieldOr (default : α) (read : Value → Option α) : Option Value → Option α
  | none => some default
  | some value => read value

/-- A choice is its name, or a table whose only key is its name and whose value is empty. -/
def choiceName? : Value → Option String
  | .string text => some (String.ofList text)
  | .table [(key, .table [])] | .table [(key, .array [])] => some (String.ofList key)
  | _ => none

def tempoWidth? (value : Value) : Option TempoWidth :=
  match choiceName? value with
  | some "u8" => some .narrow
  | some "u16" => some .wide
  | _ => none

def noteCase? (value : Value) : Option NoteCase :=
  match choiceName? value with
  | some "fold" => some .fold
  | some "exact" => some .exact
  | _ => none

def boolean? : Value → Option Bool
  | .boolean b => some b
  | _ => none

/-- A whole number that is not negative and not above a bound. -/
def natural? (bound : Nat) : Value → Option Nat
  | .integer n => if 0 ≤ n && n.toNat ≤ bound then some n.toNat else none
  | _ => none

def maxCount : Nat := 18446744073709551615

/-- An amplitude is a float or an integer. -/
def amplitude? : Value → Option Sample
  | .float x => some x.toSample
  | .integer n => some (Binary64.nearest (n < 0) n.natAbs).toSample
  | _ => none

def compilerFields : List String := ["tempo_width", "note_case", "strip_comments", "max_notes"]

def compiler? (value : Value) : Option CompileOptions := do
  match ← sectionFields compilerFields value with
  | [width, noteCase, strip, max] =>
    return {
      tempoWidth := ← fieldOr .narrow tempoWidth? width
      noteCase := ← fieldOr .fold noteCase? noteCase
      stripComments := ← fieldOr true boolean? strip
      maxNotes := ← fieldOr 65535 (natural? maxCount) max }
  | _ => none

def renderFields : List String := ["sample_rate", "quantum", "channels", "amplitude"]

def render? (value : Value) : Option RenderOptions := do
  let defaults : RenderOptions := {}
  match ← sectionFields renderFields value with
  | [rate, quantum, channels, amplitude] =>
    return {
      sampleRate := ← fieldOr defaults.sampleRate (natural? 4294967295) rate
      quantum := ← fieldOr defaults.quantum (natural? maxCount) quantum
      channels := ← fieldOr defaults.channels (natural? maxCount) channels
      amplitude := ← fieldOr defaults.amplitude amplitude? amplitude }
  | _ => none

/-- A document as a configuration, without a look at its values. -/
def ofDocument? (document : Document) : Option Config := do
  match ← sectionFields ["compiler", "render"] (.table document) with
  | [compiler, render] =>
    return ⟨← fieldOr {} compiler? compiler, ← fieldOr {} render? render⟩
  | _ => none

def parse (format : Format) (text : List Char) : Except ConfigError Config :=
  match (format.read text).bind ofDocument? with
  | none => .error .malformed
  | some config =>
    match config.validate with
    | .ok _ => .ok config
    | .error fault => .error (.invalid fault)

def widthName : TempoWidth → String
  | .narrow => "u8"
  | .wide => "u16"

def noteCaseName : NoteCase → String
  | .fold => "fold"
  | .exact => "exact"

def compilerEntries (options : CompileOptions) : Fields :=
  [("tempo_width".toList, .string (widthName options.tempoWidth).toList),
    ("note_case".toList, .string (noteCaseName options.noteCase).toList),
    ("strip_comments".toList, .boolean options.stripComments),
    ("max_notes".toList, .natural options.maxNotes)]

def renderEntries (options : RenderOptions) : Fields :=
  [("sample_rate".toList, .natural options.sampleRate),
    ("quantum".toList, .natural options.quantum),
    ("channels".toList, .natural options.channels),
    ("amplitude".toList, .float (Binary64.ofSample options.amplitude))]

/-- Both sections with all their fields. -/
def sections (config : Config) : Sections :=
  [("compiler".toList, compilerEntries config.compiler),
    ("render".toList, renderEntries config.render)]

def toToml (format : Format) (config : Config) : Except ConfigError (List Char) :=
  (format.write config.sections).mapError fun reason => .invalid (.unwritable reason)

end TuneRelay.Config
