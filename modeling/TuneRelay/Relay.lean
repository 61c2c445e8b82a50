import TuneRelay.Sample

/-!
# The single-slot relay between a publisher and a renderer

Publishing replaces what is pending, and consuming takes it, so no block is heard twice and none
after a later one. A used block waits in a bounded queue until the publisher frees or refills it;
the renderer never has to.
-/
namespace TuneRelay

/-- A first-in first-out queue that refuses what does not fit. -/
@[ext]
structure Ring (α : Type) where
  capacity : Nat
  items : List α
  fits : items.length ≤ capacity

namespace Ring

def empty (capacity : Nat) : Ring α := ⟨capacity, [], Nat.zero_le _⟩

/-- Adds as many of the items as there is room for, the first ones first. -/
def pushAll (r : Ring α) (added : List α) : Ring α :=
  { r with
    items := r.items ++ added.take (r.capacity - r.items.length)
    fits := by
      have := r.fits
      simp only [List.length_append, List.length_take]
      omega }

def push (r : Ring α) (a : α) : Ring α := r.pushAll [a]

/-- Everything that waits, and the queue without it. -/
def drain (r : Ring α) : List α × Ring α := (r.items, empty r.capacity)

def pop (r : Ring α) : Option α × Ring α :=
  (r.items.head?, { r with
    items := r.items.tail
    fits := by
      have := r.fits
      simp only [List.length_tail]
      omega })

variable (r : Ring α)

@[simp] theorem pushAll_capacity (added : List α) : (r.pushAll added).capacity = r.capacity := rfl

@[simp] theorem pushAll_items (added : List α) :
    (r.pushAll added).items = r.items ++ added.take (r.capacity - r.items.length) := rfl

@[simp] theorem pushAll_nil : r.pushAll [] = r := by
  ext1
  · rfl
  · simp

/-- What comes in two parts fits as far as it does in one. -/
theorem pushAll_append (first rest : List α) :
    r.pushAll (first ++ rest) = (r.pushAll first).pushAll rest := by
  ext1
  · rfl
  · have hroom : r.capacity - (r.pushAll first).items.length =
        r.capacity - r.items.length - first.length := by
      simp only [pushAll_items, List.length_append, List.length_take]
      omega
    rw [pushAll_items, pushAll_items, pushAll_capacity, hroom, pushAll_items, List.take_append,
      List.append_assoc]

theorem pushAll_eq_foldl (added : List α) : r.pushAll added = added.foldl push r := by
  induction added generalizing r with
  | nil => exact r.pushAll_nil
  | cons a rest ih => exact (r.pushAll_append [a] rest).trans (ih (r.push a))

end Ring

inductive RelayError
  | channelLengthMismatch (left right : Nat)
  deriving DecidableEq, Repr

def RelayError.message : RelayError → String
  | channelLengthMismatch left right => s!"left channel has {left} samples but right has {right}"

structure Block where
  left : Channel
  right : Channel
  aligned : left.length = right.length

namespace Block

def ofChannels (left right : Channel) : Except RelayError Block :=
  if h : left.length = right.length then .ok ⟨left, right, h⟩
  else .error (.channelLengthMismatch left.length right.length)

def mono (samples : Channel) : Block := ⟨samples, samples, rfl⟩

def silence (frames : Nat) : Block := mono (Channel.silent frames)

def empty : Block := mono []

def length (b : Block) : Nat := b.left.length

def isEmpty (b : Block) : Bool := b.left.isEmpty

/-- Empties a used block and fills it again. -/
def refill (b : Block) (left right : Channel) (h : left.length = right.length) : Block where
  left := b.left.drop b.left.length ++ left
  right := b.right.drop b.right.length ++ right
  aligned := by simp [h]

/-- The source of an output channel: left for the first, right for the second, none beyond. -/
def source (b : Block) : Nat → Option Channel
  | 0 => some b.left
  | 1 => some b.right
  | _ => none

end Block

/-- An index or a range end that a buffer does not reach. -/
structure OutOfRange where
  length : Nat
  index : Nat
  deriving DecidableEq

def OutOfRange.message (fault : OutOfRange) : String :=
  s!"index out of bounds: the len is {fault.length} but the index is {fault.index}"

inductive Outcome
  | delivered (frames : Nat)
  | silence
  deriving DecidableEq, Repr

def Outcome.isDelivered : Outcome → Bool
  | delivered _ => true
  | silence => false

/-- How many used blocks may wait for the publisher. -/
def recycleCapacity : Nat := 64

/-- The slot holds at most one block, the latest published; used blocks wait to be collected. -/
structure Relay where
  pending : Option Block := none
  recycled : Ring Block := .empty recycleCapacity

structure Consumed (β : Type) where
  outcome : Outcome
  out : β
  relay : Relay

/-- Puts the first `n` samples of the source in place of the first `n` of the target, and silence
in place of the others. -/
def overwrite (source target : Channel) (n : Nat) : Except OutOfRange Channel :=
  if source.length < n then .error ⟨source.length, n⟩
  else if target.length < n then .error ⟨target.length, n⟩
  else .ok (source.take n ++ Channel.silent (target.length - n))

namespace Relay

/-- What the publisher sees of the slot. -/
def isPending (r : Relay) : Bool := r.pending.isSome

/-- What the renderer sees of the slot. -/
def isReady (r : Relay) : Bool := r.pending.isSome

/-- Drops the used blocks; the number tells how many there were. -/
def collectGarbage (r : Relay) : Nat × Relay :=
  (r.recycled.items.length, { r with recycled := r.recycled.drain.2 })

/-- The block replaces whatever is pending. -/
def publish (r : Relay) (block : Block) : Relay :=
  { r.collectGarbage.2 with pending := some block }

/-- Publishes a copy of two channels, in a used block if one waits. -/
def publishFrom (r : Relay) (left right : Channel) : Except RelayError Relay :=
  if h : left.length = right.length then
    let (used, recycled) := r.recycled.pop
    .ok ({ r with recycled }.publish ((used.getD .empty).refill left right h))
  else .error (.channelLengthMismatch left.length right.length)

def clear (r : Relay) : Option Block × Relay := (r.pending, { r with pending := none })

def finish (r : Relay) (block : Block) : Relay :=
  { pending := none, recycled := r.recycled.push block }

/-- Fills the output channel of a number as far as its source reaches, and counts the frames. -/
def fillChannel (block : Block) (index : Nat) (channel : Channel) :
    Except OutOfRange (Channel × Nat) :=
  match block.source index with
  | none => .ok (.silent channel.length, 0)
  | some source =>
    let n := min source.length channel.length
    (overwrite source channel n).map (·, n)

/-- Fills output channels from number `index` on; the count is that of the most frames copied. -/
def fillFrom (block : Block) (index : Nat) : List Channel → Except OutOfRange (List Channel × Nat)
  | [] => .ok ([], 0)
  | channel :: rest => do
    let (filled, frames) ← fillChannel block index channel
    let (others, most) ← fillFrom block (index + 1) rest
    return (filled :: others, max frames most)

/-- Moves the pending block into output channels of any lengths; silence where it does not reach. -/
def consumeInto (r : Relay) (outputs : List Channel) :
    Except OutOfRange (Consumed (List Channel)) :=
  match r.pending with
  | none => .ok ⟨.silence, outputs.map fun channel => .silent channel.length, r⟩
  | some block =>
    (fillFrom block 0 outputs).map fun (out, frames) => ⟨.delivered frames, out, r.finish block⟩

def consume (r : Relay) (frames channels : Nat) : Except OutOfRange (Consumed (List Channel)) :=
  r.consumeInto (List.replicate channels (.silent frames))

/-- The sample at a position of an interleaved buffer that receives the first `n` frames. -/
def interleavedSample (left right : Array Sample) (n channels position : Nat) : Sample :=
  if position / channels < n then
    match position % channels with
    | 0 => left.getD (position / channels) .silence
    | 1 => right.getD (position / channels) .silence
    | _ => .silence
  else .silence

/-- Moves the pending block into an interleaved buffer; a trailing partial frame is silent. -/
def consumeInterleaved (r : Relay) (out : List Sample) (channels : Nat) :
    Consumed (List Sample) :=
  match r.pending with
  | none => ⟨.silence, Channel.silent out.length, r⟩
  | some block =>
    if channels = 0 then ⟨.delivered 0, Channel.silent out.length, r.finish block⟩
    else
      let n := min block.length (out.length / channels)
      let sample := interleavedSample block.left.toArray block.right.toArray n channels
      ⟨.delivered n, (List.range out.length).map sample, r.finish block⟩

end Relay

/-- A block of audio whose channels may be missing. -/
inductive Message
  | data (left right : Option Channel)

inductive Applied
  | published (frames : Nat)
  | ignored
  deriving DecidableEq, Repr

namespace Message

def command : Message → String
  | data _ _ => "data"

/-- A message without both channels is ignored; one with unequal channels is refused. -/
def apply (relay : Relay) : Message → Except RelayError (Applied × Relay)
  | data (some left) (some right) =>
    (Block.ofChannels left right).map fun block => (.published block.length, relay.publish block)
  | data _ _ => .ok (.ignored, relay)

end Message
end TuneRelay
