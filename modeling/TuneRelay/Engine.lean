import TuneRelay.Audit
import TuneRelay.Blob
import TuneRelay.Mml
import TuneRelay.Numeric
import TuneRelay.Relay
import TuneRelay.Sample

/-!
# Playback engines

An engine is installed at most once, and a handle asks only one whose install succeeded to play. The
reference engine plays sine tones: every note lasts one beat of the tempo, a tone starts at the
phase where the tone before it ended, and a rest leaves the phase as it is.
-/
namespace TuneRelay.Engine
open Audit Mml Numeric Sample

inductive EngineError
  | notReady (stage : String)
  | installFailed (reason : String)
  | rejected (reason : String)
  | format (fault : FormatError)
  deriving DecidableEq, Repr

def EngineError.message : EngineError → String
  | notReady stage => s!"engine is not ready (state: {stage})"
  | installFailed reason => s!"engine install failed: {reason}"
  | rejected reason => s!"engine rejected payload: {reason}"
  | format fault => fault.message

inductive Payload
  | text (text : SanitizedText)
  | blob (blob : Blob)

/-- What an engine of state `σ` can do; each call may change its state, also when it fails. -/
class PlaybackEngine (σ : Type) where
  install : σ → Except EngineError Unit × σ
  compileAndPlay : σ → Payload → Audited (Except EngineError (List Block)) × σ
  resume : σ → Except EngineError Unit × σ := fun engine => (.ok (), engine)

inductive Stage
  | uninitialized
  | ready
  | failed (reason : String)
  deriving DecidableEq, Repr

namespace Stage

def name : Stage → String
  | uninitialized => "uninitialized"
  | ready => "ready"
  | failed _ => "failed"

def isReady (stage : Stage) : Bool := stage == ready

end Stage

structure Handle (σ : Type) where
  engine : σ
  stage : Stage := .uninitialized

namespace Handle

variable {σ : Type}

def isReady (h : Handle σ) : Bool := h.stage.isReady

def teardown (h : Handle σ) : σ := h.engine

variable [PlaybackEngine σ]

/-- Installs the engine once; what came of it is kept. -/
def install (h : Handle σ) : Except EngineError Unit × Handle σ :=
  match h.stage with
  | .ready => (.ok (), h)
  | .failed reason => (.error (.installFailed reason), h)
  | .uninitialized =>
    match PlaybackEngine.install h.engine with
    | (.ok _, engine) => (.ok (), ⟨engine, .ready⟩)
    | (.error fault, engine) => (.error fault, ⟨engine, .failed fault.message⟩)

def play (h : Handle σ) (payload : Payload) :
    Audited (Except EngineError (List Block)) × Handle σ :=
  if h.isReady then
    let (result, engine) := PlaybackEngine.compileAndPlay h.engine payload
    let next : Handle σ := { h with engine }
    (do
      match ← result with
      | .error fault => return .error fault
      | .ok blocks =>
        .check .engineLifecycle next.isReady
        return .ok blocks, next)
  else (pure (.error (.notReady h.stage.name)), h)

def resume (h : Handle σ) : Except EngineError Unit × Handle σ :=
  if h.isReady then
    let (result, engine) := PlaybackEngine.resume h.engine
    (result, { h with engine })
  else (.error (.notReady h.stage.name), h)

end Handle

/-- The key of a note, counted in semitones; a rest has none. -/
def key? : Note → Option Nat
  | .c => some 60
  | .d => some 62
  | .e => some 64
  | .f => some 65
  | .g => some 67
  | .a => some 69
  | .b => some 71
  | .rest => none

def concertKey : Nat := 69

/-- The pitch of the concert key: 440 hertz. -/
def concertPitch : Sample := .ofBits 0x43dc0000

/-- The pitch of a note in equal temperament; a rest has none. -/
def frequency (functions : Elementary) (note : Note) : Option Sample :=
  (key? note).map fun key =>
    concertPitch * functions.powerOfTwo ((.ofNat key - .ofNat concertKey) / .ofNat 12)

def turn : Sample := .ofBits 0x40c90fdb

/-- The length of the fade at either end of a tone: five milliseconds. -/
def fadeSeconds : Sample := .ofBits 0x3ba3d70a

def maxSeconds : Nat := 600

def maxFrames : Nat := 18446744073709551615

def defaultAmplitude : Sample := .ofBits 0x3e800000

/-- An amplitude within zero and one; a NaN stays what it is. -/
def clampAmplitude (amplitude : Sample) : Sample :=
  if amplitude < .silence then .silence
  else if .one < amplitude then .one
  else amplitude

structure ToneEngine where
  sampleRate : Nat
  quantum : Nat
  amplitude : Sample := defaultAmplitude
  functions : Elementary := {}
  options : CompileOptions := {}
  installed : Bool := false

/-- A tone in progress: the phase of the next sample, and the signal, newest sample first. -/
structure Oscillator where
  phase : Sample := .silence
  signal : List Sample := []

namespace Oscillator

/-- Adds one sample of a tone and turns the phase by one step. -/
def emit (sine : Sample → Sample) (step amplitude : Sample) (o : Oscillator)
    (envelope : Sample) : Oscillator :=
  ⟨Sample.remainder (o.phase + step) turn, sine o.phase * amplitude * envelope :: o.signal⟩

def rest (o : Oscillator) (frames : Nat) : Oscillator :=
  { o with signal := Channel.silent frames ++ o.signal }

end Oscillator

/-- The level of a frame: it rises over the fade from the first frame, and falls to the last. -/
def envelope (frames fade i : Nat) : Sample :=
  let level : Sample := .ofNat (min i (frames - 1 - i)) / .ofNat fade
  if level < .one then level else .one

namespace ToneEngine

/-- A sample rate or quantum of zero counts as one. -/
def new (sampleRate quantum : Nat) : ToneEngine :=
  { sampleRate := max sampleRate 1, quantum := max quantum 1 }

def withAmplitude (e : ToneEngine) (amplitude : Sample) : ToneEngine :=
  { e with amplitude := clampAmplitude amplitude }

/-- Frames of a quarter note: the quotient in double precision, a half rounded up. -/
def framesPerNote (e : ToneEngine) (tempo : Nat) : Nat :=
  if tempo = 0 then maxFrames
  else min (roundHalfUp (toBinary64 (60 * e.sampleRate / tempo))).toNat maxFrames

/-- The frames over which a tone of so many frames rises and falls. -/
def fadeFrames (e : ToneEngine) (frames : Nat) : Nat :=
  max (min (fadeSeconds * .ofNat e.sampleRate).toNat (frames / 2)) 1

def addNote (e : ToneEngine) (frames : Nat) (o : Oscillator) (note : Note) : Oscillator :=
  match frequency e.functions note with
  | none => o.rest frames
  | some pitch =>
    let step := turn * pitch / .ofNat e.sampleRate
    let fade := e.fadeFrames frames
    (List.range frames).foldl
      (fun o i => o.emit e.functions.sine step e.amplitude (envelope frames fade i)) o

/-- A performance is too long when its frames, in double precision, exceed the limit. -/
def isTooLong (e : ToneEngine) (frames notes : Nat) : Bool :=
  decide ((maxSeconds * e.sampleRate : Nat) < toBinary64 (min (frames * notes) maxFrames : Nat))

/-- Renders notes at a tempo to one channel. -/
def renderNotes (e : ToneEngine) (tempo : Nat) (notes : List Note) :
    Except EngineError (List Sample) :=
  if tempo = 0 then .error (.rejected "tempo must be positive")
  else if e.isTooLong (e.framesPerNote tempo) notes.length then
    .error (.rejected s!"performance longer than {maxSeconds} seconds")
  else .ok (notes.foldl (e.addNote (e.framesPerNote tempo)) {}).signal.reverse

/-- Cuts a signal into blocks of one quantum, the last one filled up with silence. -/
def sliceBlocks (e : ToneEngine) (signal : List Sample) : List Block :=
  let samples := signal.toArray
  (List.range ((samples.size + e.quantum - 1) / e.quantum)).map fun k =>
    let piece := (samples.extract (k * e.quantum) ((k + 1) * e.quantum)).toList
    .mono (piece ++ Channel.silent (e.quantum - piece.length))

def notesOf (e : ToneEngine) : Payload → Audited (Except EngineError (Nat × List Note))
  | .text text => do
    return (← Audit.compile text e.options).mapError .format |>.map fun c => (c.tempo, c.notes)
  | .blob blob => do
    return (← Audit.decode blob.bytes).mapError .format |>.map fun t => (t.tempo, t.notes)

def perform (e : ToneEngine) (payload : Payload) : Audited (Except EngineError (List Block)) := do
  match ← e.notesOf payload with
  | .error fault => return .error fault
  | .ok (tempo, notes) => return (e.renderNotes tempo notes).map e.sliceBlocks

instance : PlaybackEngine ToneEngine where
  install e := (.ok (), { e with installed := true })
  compileAndPlay e payload :=
    if e.installed then (e.perform payload, e)
    else (pure (.error (.notReady Stage.uninitialized.name)), e)

end ToneEngine
end TuneRelay.Engine
