import TuneRelay.Cli.Arguments
import TuneRelay.Cli.Files
import TuneRelay.Config
import TuneRelay.Engine
import TuneRelay.Render
import TuneRelay.Text
import TuneRelay.Toml.Notation

/-!
# Commands

Everything is read and computed before anything is written, so a run that fails changes no file. The
operations on files may be those of any system, and the notations of arguments, configurations and
wave files those of any library.
-/
namespace TuneRelay.Cli
open Engine Mml Numeric Render Text

inductive CommandError
  | config (fault : ConfigError)
  | missingInput (path : String)
  | file (fault : FileError)
  | format (fault : FormatError)
  | engine (fault : EngineError)
  | wave (fault : FileError)
  deriving DecidableEq, Repr

def CommandError.message : CommandError → String
  | config fault => fault.message
  | missingInput path => s!"input file does not exist: {path}"
  | file fault => fault.message
  | format fault => s!"format: {fault.message}"
  | engine fault => s!"engine: {fault.message}"
  | wave fault => s!"wav: {fault.message}"

/-- What commands rely on: how arguments are read, the format of configurations, functions for
tones, and how interleaved samples become a wave file, given the number of channels and the sample
rate. -/
structure Libraries where
  arguments : List String → Except Stop Invocation
  toml : Toml.Format
  functions : Sample.Elementary
  wave : Nat → Nat → List Sample → List UInt8

def Libraries.standard : Libraries where
  arguments := parse
  toml := Toml.standard
  functions := {}
  wave := Wave.encode

/-- What is left to do: print a text, or write a file and then print one. -/
inductive Plan
  | print (text : String)
  | write (path : String) (bytes : List UInt8) (asError : FileError → CommandError) (text : String)

def readConfig (format : Toml.Format) (path : String) (content : Except FileError (List UInt8)) :
    Except CommandError Config :=
  match content with
  | .error fault => .error (.config (.unreadable path fault.message))
  | .ok bytes =>
    match decodeUtf8? bytes with
    | none => .error (.config (.unreadable path FileError.notText.message))
    | some text => (Config.parse format text).mapError .config

def planCompile (config : Config) (input output : String) (bytes : List UInt8) :
    Except CommandError Plan :=
  match compileText (decodeLossy bytes) config.compiler with
  | .error fault => .error (.format fault)
  | .ok (c, _) =>
    let size := c.blob.bytes.length
    .ok <| .write output c.blob.bytes .file <|
      s!"Compiled {input} -> {output} ({size} bytes, tempo {c.tempo}, {c.notes.length} notes)\n"

def planSanitize (bytes : List UInt8) : Plan :=
  .print (String.ofList ((Mml.sanitize (decodeLossy bytes)).text.chars ++ ['\n']))

def planInspect (bytes : List UInt8) : Except CommandError Plan :=
  match Blob.decode bytes with
  | .error fault => .error (.format fault)
  | .ok t =>
    .ok <| .print <| String.join [
      s!"version:     {t.version}\n",
      s!"tempo width: {t.width.bits} bits\n",
      s!"tempo:       {t.tempo}\n",
      s!"notes ({t.notes.length}):  {noteText t.notes}\n"]

/-- The blob that some bytes are. Bytes that do not start with the magic are not even decoded. -/
def readBlob? (bytes : List UInt8) : Option Blob :=
  if Blob.magic.isPrefixOf bytes then (Blob.ofBytes bytes).toOption else none

/-- Input that is no blob is text. -/
def payloadOf (bytes : List UInt8) : Payload :=
  match readBlob? bytes with
  | some blob => .blob blob
  | none => .text (Mml.sanitize (decodeLossy bytes)).text

def engineOf (functions : Sample.Elementary) (config : Config) : ToneEngine :=
  { (ToneEngine.new config.render.sampleRate config.render.quantum).withAmplitude
      config.render.amplitude with functions, options := config.compiler }

/-- The blocks that an input makes on a freshly installed engine. -/
def blocksOf (functions : Sample.Elementary) (config : Config) (bytes : List UInt8) :
    Except EngineError (List Block) :=
  let handle : Handle ToneEngine := { engine := engineOf functions config }
  match handle.install with
  | (.error fault, _) => .error fault
  | (.ok _, ready) => (ready.play (payloadOf bytes)).1.value

def renderSamples (config : Config) (realtime : Bool) (blocks : List Block) : List Sample :=
  let opts := config.render
  if realtime then (renderStream {} blocks opts.quantum opts.channels opts.sampleRate).1
  else (renderOffline {} blocks opts.quantum opts.channels).1

/-- The length of interleaved samples in seconds, in double precision. -/
def secondsOf (opts : RenderOptions) (samples : List Sample) : Rat :=
  toBinary64 (toBinary64 samples.length / toBinary64 (opts.channels * opts.sampleRate : Nat))

def planRender (lib : Libraries) (config : Config) (input output : String) (realtime : Bool)
    (bytes : List UInt8) : Except CommandError Plan :=
  match blocksOf lib.functions config bytes with
  | .error fault => .error (.engine fault)
  | .ok blocks =>
    let opts := config.render
    let samples := renderSamples config realtime blocks
    .ok <| .write output (lib.wave opts.channels opts.sampleRate samples) .wave <|
      s!"Rendered {input} -> {output} ({twoPlaces (secondsOf opts samples)}s)\n"

namespace Command

def input : Command → String
  | compile input _ | sanitize input | inspect input | render input _ _ => input

def plan (lib : Libraries) (config : Config) (bytes : List UInt8) :
    Command → Except CommandError Plan
  | compile input output => planCompile config input output bytes
  | sanitize _ => .ok (planSanitize bytes)
  | inspect _ => planInspect bytes
  | render input output realtime => planRender lib config input output realtime bytes

end Command

/-- How a run ends; one that stopped at its arguments has done nothing. -/
inductive Ending
  | stopped (stop : Stop)
  | done (text : String)
  | failed (fault : CommandError)

namespace Ending

def ofResult : Except CommandError String → Ending
  | .ok text => done text
  | .error fault => failed fault

def exitCode : Ending → Nat
  | stopped .help | done _ => 0
  | stopped .usage | failed _ => 1

end Ending

section Running

variable {m : Type → Type} [Monad m] (lib : Libraries) (fs : FileSystem m)

def attempt {α : Type} (asError : FileError → CommandError) (call : m (Except FileError α)) :
    ExceptT CommandError m α :=
  ExceptT.mk do return (← call).mapError asError

/-- The configuration of an invocation, which has defaults if it names no file. -/
def loadConfig : Option String → ExceptT CommandError m Config
  | none => return {}
  | some path => ExceptT.mk do return readConfig lib.toml path (← fs.read path)

def readInput (path : String) : ExceptT CommandError m (List UInt8) := do
  if ← fs.fileExists path then attempt .file (fs.read path) else throw (.missingInput path)

/-- The configuration is read before the input. -/
def prepare (invocation : Invocation) : ExceptT CommandError m Plan := do
  let config ← loadConfig lib fs invocation.config
  let bytes ← readInput fs invocation.command.input
  ExceptT.mk (pure (invocation.command.plan lib config bytes))

/-- Nothing is printed before all is written. -/
def carryOut : Plan → ExceptT CommandError m String
  | .print text => return text
  | .write path bytes asError text => do
    let handle ← attempt asError (fs.create path)
    attempt asError (fs.fill handle bytes)
    return text

def run (arguments : List String) : m Ending := do
  match lib.arguments arguments with
  | .error stop => return .stopped stop
  | .ok invocation => return .ofResult (← (prepare lib fs invocation >>= carryOut fs).run)

end Running
end TuneRelay.Cli
