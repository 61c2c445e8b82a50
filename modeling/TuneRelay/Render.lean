import TuneRelay.Numeric
import TuneRelay.Relay
import TuneRelay.Sample

/-!
# Rendering quanta

Each quantum takes the pending block of a relay, or silence, and signals what happened. The facts
are judged from the outputs themselves, not from what was meant to be put there. Quanta are
interleaved into one list of samples, offline as they are; streamed, they pass a ring of limited
size, and what does not fit is lost.
-/
namespace TuneRelay.Render
open Numeric

/-- Facts travel as small numbers; some numbers name no fact. -/
abbrev FactId := UInt8

namespace Fact

def blockDelivered : FactId := 1
def silenceFilled : FactId := 2
def extraChannelsSilenced : FactId := 3
def slotCleared : FactId := 4
def callbackClean : FactId := 5
def panicContained : FactId := 6

def name (id : FactId) : String :=
  if id = blockDelivered then "BLOCK_DELIVERED"
  else if id = silenceFilled then "SILENCE_FILLED"
  else if id = extraChannelsSilenced then "EXTRA_CHANNELS_SILENCED"
  else if id = slotCleared then "SLOT_CLEARED"
  else if id = callbackClean then "RT_CALLBACK_CLEAN"
  else if id = panicContained then "PANIC_CONTAINED"
  else "UNKNOWN"

def queueCapacity : Nat := 256

/-- Each signalled id with its number of occurrences, in ascending order of ids. -/
def counts (signals : List FactId) : List (FactId × Nat) :=
  let all := signals.toArray
  ((List.range 256).map fun n => (n.toUInt8, all.count n.toUInt8)).filter fun entry => entry.2 != 0

/-- All names that a fact can have, in alphabetical order. -/
def namesInOrder : List String :=
  ["BLOCK_DELIVERED", "EXTRA_CHANNELS_SILENCED", "PANIC_CONTAINED", "RT_CALLBACK_CLEAN",
    "SILENCE_FILLED", "SLOT_CLEARED", "UNKNOWN"]

def missing (signals required : List FactId) : List String :=
  (required.filter fun id => !signals.contains id).map name

def present (signals : List FactId) : List String :=
  namesInOrder.filter fun label => signals.any fun id => name id == label

def quotedList (names : List String) : String :=
  "[" ++ ", ".intercalate (names.map fun label => "\"" ++ label ++ "\"") ++ "]"

/-- What a contract has to say when a required fact was not signalled. -/
def contract (title : String) (signals required : List FactId) : Except String Unit :=
  match missing signals required with
  | [] => .ok ()
  | absent =>
    let list := quotedList absent
    let found := quotedList (present signals)
    .error s!"RT Contract '{title}' missing invariants: {list}. Present: {found}"

end Fact

structure Callback where
  relay : Relay := {}
  facts : Option (Ring FactId) := none
  quanta : Nat := 0
  delivered : Nat := 0

/-- The facts of one quantum, judged from what it received and what it left behind. -/
def factsOf (outcome : Outcome) (outputs : List Channel) (ready : Bool) : List FactId :=
  (match outcome with
    | .delivered _ =>
      Fact.blockDelivered ::
        if 2 < outputs.length && (outputs.drop 2).all Channel.isSilent then
          [Fact.extraChannelsSilenced] else []
    | .silence => if outputs.all Channel.isSilent then [Fact.silenceFilled] else [])
  ++ (if ready then [] else [Fact.slotCleared]) ++ [Fact.callbackClean]

/-- The outcome of one call: whether to go on, the filled outputs and the next callback. -/
structure Rendered where
  goOn : Bool
  outputs : List Channel
  callback : Callback

namespace Callback

def withFacts : Callback := { facts := some (.empty Fact.queueCapacity) }

def signal (cb : Callback) (ids : List FactId) : Callback :=
  { cb with facts := cb.facts.map (·.pushAll ids) }

def drain (cb : Callback) : List FactId × Callback :=
  match cb.facts with
  | none => ([], cb)
  | some queue => (queue.drain.1, { cb with facts := some queue.drain.2 })

/-- Renders one quantum; the session is only ever stopped from outside. -/
def process (cb : Callback) (outputs : List Channel) : Except OutOfRange Rendered :=
  (cb.relay.consumeInto outputs).map fun consumed =>
    let next := { cb with
      relay := consumed.relay
      quanta := cb.quanta + 1
      delivered := if consumed.outcome.isDelivered then cb.delivered + 1 else cb.delivered }
    ⟨true, consumed.out, next.signal (factsOf consumed.outcome consumed.out next.relay.isReady)⟩

/-- Renders one quantum; a fault silences the outputs and is signalled. -/
def processSafe (cb : Callback) (outputs : List Channel) : Rendered :=
  match cb.process outputs with
  | .ok rendered => { rendered with goOn := true }
  | .error _ =>
    ⟨true, outputs.map fun channel => .silent channel.length, cb.signal [Fact.panicContained]⟩

end Callback

/-- One sample of each channel for each frame of the first; a shorter channel reads as silence. -/
def interleave (channels : List Channel) : List Sample :=
  let arrays := channels.map List.toArray
  (List.range (channels.headD []).length).flatMap fun i =>
    arrays.map fun samples => samples.getD i .silence

def interleaveInto (out : List Sample) (channels : List Channel) : List Sample :=
  out ++ interleave channels

/-- A run in progress; the newest quantum comes first. -/
structure Run where
  callback : Callback
  outputs : List Channel
  quanta : List (List Channel) := []

namespace Run

def start (callback : Callback) (quantum channels : Nat) : Run :=
  ⟨callback, List.replicate channels (.silent quantum), []⟩

/-- Renders one quantum into the buffers of the quantum before. -/
def step (run : Run) : Run :=
  let rendered := run.callback.processSafe run.outputs
  ⟨rendered.callback, rendered.outputs, rendered.outputs :: run.quanta⟩

def offer (run : Run) (block : Block) : Run :=
  step { run with callback := { run.callback with relay := run.callback.relay.publish block } }

end Run

/-- Each block goes through one quantum; the answer is interleaved. -/
def renderOffline (callback : Callback) (blocks : List Block) (quantum channels : Nat) :
    List Sample × Callback :=
  match blocks with
  | [] => ([], callback)
  | _ =>
    let run := blocks.foldl Run.offer (.start callback quantum channels)
    ((run.quanta.reverse.map interleave).flatten, run.callback)

/-- A streamed run: what the ring let through is collected between any two quanta. -/
structure Stream where
  run : Run
  ring : Ring Sample
  collected : List (List Sample) := []

namespace Stream

/-- The ring holds one second of all channels. -/
def start (callback : Callback) (quantum channels sampleRate : Nat) : Stream :=
  ⟨.start callback quantum channels, .empty (sampleRate * channels), []⟩

def offer (s : Stream) (block : Block) : Stream :=
  let run := s.run.offer block
  let (samples, ring) := (s.ring.pushAll (interleave run.outputs)).drain
  { run, ring, collected := samples :: s.collected }

end Stream

/-- Each block goes through one quantum and the ring; quanta without a block are left out. -/
def renderStream (callback : Callback) (blocks : List Block) (quantum channels sampleRate : Nat) :
    List Sample × Callback :=
  match blocks with
  | [] => ([], callback)
  | _ =>
    let s := blocks.foldl Stream.offer (.start callback quantum channels sampleRate)
    (s.collected.reverse.flatten, s.run.callback)

/-- A callback with a signal queue, and the outputs of its latest quantum. -/
structure Rig where
  callback : Callback
  outputs : List Channel

namespace Rig

def new (quantum channels : Nat) : Rig :=
  ⟨.withFacts, List.replicate channels (.silent quantum)⟩

def publish (rig : Rig) (block : Block) : Rig :=
  { rig with callback := { rig.callback with relay := rig.callback.relay.publish block } }

/-- Renders one quantum; the answer tells whether it carried a block. -/
def runQuantum (rig : Rig) : Bool × Rig :=
  let rendered := rig.callback.processSafe rig.outputs
  (decide (rig.callback.delivered < rendered.callback.delivered),
    ⟨rendered.callback, rendered.outputs⟩)

def runQuanta (rig : Rig) : Nat → Nat × Rig
  | 0 => (0, rig)
  | times + 1 =>
    let (carried, next) := rig.runQuantum
    let (others, last) := next.runQuanta times
    (if carried then others + 1 else others, last)

def channel (rig : Rig) (index : Nat) : Except OutOfRange Channel :=
  match rig.outputs[index]? with
  | some samples => .ok samples
  | none => .error ⟨rig.outputs.length, index⟩

def isSilent (rig : Rig) : Bool := rig.outputs.all Channel.isSilent

def drain (rig : Rig) : List FactId × Rig :=
  let (signals, callback) := rig.callback.drain
  (signals, { rig with callback })

end Rig

structure Period where
  seconds : Nat
  nanoseconds : Nat
  deriving DecidableEq

/-- A length of time whose seconds do not fit 64 bits. -/
inductive PeriodError | tooLong
  deriving DecidableEq

def PeriodError.message : PeriodError → String
  | tooLong => "cannot convert float seconds to Duration: value is either too big or NaN"

/-- The quotient is rounded to double precision, then to the nearest nanosecond. -/
def quantumPeriod (quantum sampleRate : Nat) : Except PeriodError Period :=
  let seconds := toBinary64 (toBinary64 quantum / (max sampleRate 1 : Nat))
  if seconds < 18446744073709551616 then
    let nanoseconds := (roundEven (seconds * 1000000000)).toNat
    .ok ⟨nanoseconds / 1000000000, nanoseconds % 1000000000⟩
  else .error .tooLong

end TuneRelay.Render

namespace TuneRelay.Wave

/-- The low bytes of a number, the least significant first. -/
def littleEndian : Nat → Nat → List UInt8
  | 0, _ => []
  | count + 1, n => n.toUInt8 :: littleEndian count (n / 256)

def tag (name : String) : List UInt8 := name.toList.map Char.toUInt8

/-- The format of samples that are single-precision floats. -/
def floatFormat : List UInt8 :=
  [0x03, 0x00, 0x00, 0x00, 0x00, 0x00, 0x10, 0x00, 0x80, 0x00, 0x00, 0xAA, 0x00, 0x38, 0x9B, 0x71]

/-- Speaker positions, of which there are eighteen. -/
def channelMask (channels : Nat) : Nat := (1 <<< min channels 18) - 1

/-- The extensible header of a file with so many bytes of samples. -/
def header (channels sampleRate size : Nat) : List UInt8 :=
  tag "RIFF" ++ littleEndian 4 (size + 60) ++ tag "WAVE"
    ++ tag "fmt " ++ littleEndian 4 40
    ++ littleEndian 2 0xFFFE ++ littleEndian 2 channels ++ littleEndian 4 sampleRate
    ++ littleEndian 4 (sampleRate * 4 * channels) ++ littleEndian 2 (4 * channels)
    ++ littleEndian 2 32 ++ littleEndian 2 22 ++ littleEndian 2 32
    ++ littleEndian 4 (channelMask channels) ++ floatFormat
    ++ tag "data" ++ littleEndian 4 size

def encode (channels sampleRate : Nat) (samples : List Sample) : List UInt8 :=
  header channels sampleRate (4 * samples.length)
    ++ samples.flatMap fun s => littleEndian 4 s.toBits.toNat

end TuneRelay.Wave
