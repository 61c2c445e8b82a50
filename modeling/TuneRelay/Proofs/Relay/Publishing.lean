import Mathlib
import TuneRelay.Proofs.Relay.Recycling

/-!
# Publishing in place

A publisher works on buffers one step after the other: it takes a used pair over, empties and fills
it, drops the others and swaps it into the slot. A failure does not undo the steps before it. The
three ways to publish leave the same buffers in the slot, fail before they touch anything, and keep
the desk they work on in step with the relay.
-/
namespace TuneRelay

/-- Two channels, each as long as it happens to be. -/
structure Buffers where
  left : Channel := []
  right : Channel := []

def Block.buffers (b : Block) : Buffers := ⟨b.left, b.right⟩

/-- Empties both buffers and appends to them. -/
def Buffers.refill (b : Buffers) (left right : Channel) : Buffers :=
  let b := { b with left := b.left.take 0 }
  let b := { b with left := b.left ++ left }
  let b := { b with right := b.right.take 0 }
  { b with right := b.right ++ right }

/-- A pair that has come back; it is not taken over as long as somebody shares it. -/
structure Used where
  buffers : Buffers
  shared : Bool

structure Desk where
  slot : Option Buffers := none
  waiting : List Used := []

namespace Desk

/-- Steps on a desk; one that fails keeps what the steps before it have done. -/
abbrev Steps := ExceptT RelayError (StateM Desk)

def perform (d : Desk) (steps : Steps α) : Except RelayError α × Desk := (steps.run.run d).run

def newBlock (left right : Channel) : Steps Buffers := do
  if left.length ≠ right.length then
    throw (.channelLengthMismatch left.length right.length)
  return ⟨left, right⟩

def swap (next : Option Buffers) : Steps (Option Buffers) :=
  modifyGet fun d => (d.slot, { d with slot := next })

/-- Takes used pairs from the queue until it is empty, and counts them. -/
def collect : Steps Nat := modifyGet fun d => (d.waiting.length, { d with waiting := [] })

/-- The first pair that nobody shares; those before it are dropped. -/
def takeOver : List Used → Option Buffers × List Used
  | [] => (none, [])
  | used :: rest => if used.shared then takeOver rest else (some used.buffers, rest)

def reclaim : Steps (Option Buffers) :=
  modifyGet fun d => ((takeOver d.waiting).1, { d with waiting := (takeOver d.waiting).2 })

def publish (b : Buffers) : Steps Unit := do
  discard collect
  discard (swap (some b))

def publishFrom (left right : Channel) : Steps Unit := do
  if left.length ≠ right.length then
    throw (.channelLengthMismatch left.length right.length)
  let used ← reclaim
  publish ((used.getD {}).refill left right)

def apply : Message → Steps Applied
  | .data (some left) (some right) => do
    let block ← newBlock left right
    publish block
    return .published block.left.length
  | .data _ _ => return .ignored

def answer : PublisherCall → Steps Unit
  | .publish block => publish block.buffers
  | .publishFrom left right => publishFrom left right
  | .apply message => discard (apply message)
  | .clear => discard (swap none)
  | .collectGarbage => discard collect
  | .isPending => return

/-- The renderer takes what is in the slot and hands it back, if there is room for it. -/
def handBack (d : Desk) (shared : Bool) : Desk :=
  match d.slot with
  | none => d
  | some b => { d with
    slot := none
    waiting := if d.waiting.length < recycleCapacity then d.waiting ++ [⟨b, shared⟩]
      else d.waiting }

/-- What a call leaves, where the pair that it hands back is shared or not. A publisher that is gone
does nothing. -/
def step (d : Desk) (publisher : Bool) (call : Call) (shared : Bool) : Desk :=
  match call with
  | .publisher call => if publisher then (d.perform (answer call)).2 else d
  | .take _ => d.handBack shared
  | .dropPublisher | .isReady | .drainFacts => d

/-- The desk after the calls of a session. -/
def after (d : Desk) (s : Session) : List (Call × Bool) → Desk
  | [] => d
  | (call, shared) :: rest => (d.step s.publisher call shared).after (s.step call).2 rest

/-- The desk after a publication. -/
def laid (b : Buffers) : Desk := { slot := some b }

theorem refill_eq (b : Buffers) (left right : Channel) : b.refill left right = ⟨left, right⟩ := rfl

theorem perform_newBlock (d : Desk) {left right : Channel} (h : left.length = right.length)
    (next : Buffers → Steps α) :
    d.perform (newBlock left right >>= next) = d.perform (next ⟨left, right⟩) := by
  simp only [newBlock, ne_eq, h, not_true_eq_false, if_false]
  rfl

theorem perform_newBlock_of_ne (d : Desk) {left right : Channel} (h : left.length ≠ right.length)
    (next : Buffers → Steps α) : d.perform (newBlock left right >>= next) =
      (.error (.channelLengthMismatch left.length right.length), d) := by
  simp only [newBlock, if_pos h]
  rfl

theorem perform_publish (d : Desk) (b : Buffers) : d.perform (publish b) = (.ok (), laid b) := rfl

theorem perform_publishFrom (d : Desk) {left right : Channel} (h : left.length = right.length) :
    d.perform (publishFrom left right) = (.ok (), laid ⟨left, right⟩) := by
  have hused : d.perform (publishFrom left right) =
      perform { d with waiting := (takeOver d.waiting).2 }
        (publish (((takeOver d.waiting).1.getD {}).refill left right)) := by
    simp only [publishFrom, ne_eq, h, not_true_eq_false, if_false]
    rfl
  -- whatever pair was taken over, nothing of it is left to publish
  rw [hused, refill_eq, perform_publish]

theorem perform_publishFrom_of_ne (d : Desk) {left right : Channel}
    (h : left.length ≠ right.length) : d.perform (publishFrom left right) =
      (.error (.channelLengthMismatch left.length right.length), d) := by
  simp only [publishFrom, if_pos h]
  rfl

theorem perform_apply (d : Desk) {left right : Channel} (h : left.length = right.length) :
    d.perform (apply (.data (some left) (some right))) =
      (.ok (.published left.length), laid ⟨left, right⟩) :=
  perform_newBlock d h _

theorem perform_apply_of_ne (d : Desk) {left right : Channel} (h : left.length ≠ right.length) :
    d.perform (apply (.data (some left) (some right))) =
      (.error (.channelLengthMismatch left.length right.length), d) :=
  perform_newBlock_of_ne d h _

/-- Dropping a result does not undo the steps that gave it. -/
theorem perform_discard (d : Desk) (steps : Steps α) :
    (d.perform (discard steps)).2 = (d.perform steps).2 := by
  change (d.perform (Function.const _ () <$> steps)).2 = _
  simp only [perform, ExceptT.run_map, StateT.run_map]
  rfl

end Desk

theorem Block.ofChannels_of_eq {left right : Channel} (h : left.length = right.length) :
    ofChannels left right = .ok ⟨left, right, h⟩ := dif_pos h

theorem Block.ofChannels_of_ne {left right : Channel} (h : left.length ≠ right.length) :
    ofChannels left right = .error (.channelLengthMismatch left.length right.length) := dif_neg h

theorem Relay.publishFrom_of_eq (r : Relay) {left right : Channel}
    (h : left.length = right.length) :
    r.publishFrom left right = .ok (r.publish ⟨left, right, h⟩) := by
  rw [publishFrom_eq, Block.ofChannels_of_eq h]
  rfl

theorem Relay.publishFrom_of_ne (r : Relay) {left right : Channel}
    (h : left.length ≠ right.length) : r.publishFrom left right =
      .error (.channelLengthMismatch left.length right.length) := by
  rw [publishFrom_eq, Block.ofChannels_of_ne h]
  rfl

theorem Message.apply_of_eq (r : Relay) {left right : Channel} (h : left.length = right.length) :
    (data (some left) (some right)).apply r =
      .ok (.published left.length, r.publish ⟨left, right, h⟩) := by
  rw [apply, Block.ofChannels_of_eq h]
  rfl

theorem Message.apply_of_ne (r : Relay) {left right : Channel} (h : left.length ≠ right.length) :
    (data (some left) (some right)).apply r =
      .error (.channelLengthMismatch left.length right.length) := by
  rw [apply, Block.ofChannels_of_ne h]
  rfl

theorem Message.apply_missing (r : Relay) {left right : Option Channel}
    (h : left = none ∨ right = none) : (data left right).apply r = .ok (.ignored, r) := by
  rcases left with _ | left
  · rfl
  · rcases right with _ | right
    · rfl
    · simp at h

namespace Desk

theorem perform_apply_missing (d : Desk) {left right : Option Channel}
    (h : left = none ∨ right = none) :
    d.perform (apply (.data left right)) = (.ok .ignored, d) := by
  rcases left with _ | left
  · rfl
  · rcases right with _ | right
    · rfl
    · simp at h

/-- The desk has in its slot and in its queue what the relay has. -/
structure Holds (d : Desk) (r : Relay) : Prop where
  slot : d.slot = r.pending.map Block.buffers
  waiting : d.waiting.map Used.buffers = r.recycled.items.map Block.buffers
  capacity : r.recycled.capacity = recycleCapacity

theorem holds_fresh : ({} : Desk).Holds {} := ⟨rfl, rfl, rfl⟩

variable {d : Desk} {r : Relay}

theorem Holds.laid (hd : d.Holds r) (b : Block) : (laid b.buffers).Holds (r.publish b) :=
  ⟨rfl, rfl, hd.capacity⟩

/-- What is in the slot of a desk in step with a relay is a block. -/
theorem Holds.aligned (hd : d.Holds r) {b : Buffers} (h : d.slot = some b) :
    b.left.length = b.right.length := by
  rw [hd.slot] at h
  obtain ⟨block, -, rfl⟩ := Option.map_eq_some_iff.mp h
  exact block.aligned

theorem Holds.handBack_none (hd : d.Holds r) (h : r.pending = none) (shared : Bool) :
    (d.handBack shared).Holds r := by
  have hslot : d.slot = none := by rw [hd.slot, h]; rfl
  rw [handBack, hslot]
  exact hd

theorem Holds.handBack_some (hd : d.Holds r) {b : Block} (h : r.pending = some b)
    (shared : Bool) : (d.handBack shared).Holds (r.finish b) := by
  have hslot : d.slot = some b.buffers := by rw [hd.slot, h]; rfl
  have hlength : d.waiting.length = r.recycled.items.length := by
    simpa using congrArg List.length hd.waiting
  have hfits := r.recycled.fits
  rw [hd.capacity] at hfits
  rw [handBack, hslot]
  refine ⟨rfl, ?_, hd.capacity⟩
  simp only [Relay.finish, Ring.push, Ring.pushAll_items, hd.capacity, List.map_append]
  -- a full queue refuses the pair, as that of the relay does
  by_cases hroom : d.waiting.length < recycleCapacity
  · have hone : [b].length ≤ recycleCapacity - r.recycled.items.length := by
      simp only [List.length_singleton]
      omega
    rw [if_pos hroom, List.take_of_length_le hone, List.map_append, hd.waiting]
    rfl
  · have hzero : recycleCapacity - r.recycled.items.length = 0 := by omega
    rw [if_neg hroom, hzero, hd.waiting]
    simp

theorem Holds.answer (hd : d.Holds r) (call : PublisherCall) :
    (d.perform (answer call)).2.Holds (call.perform r).2 := by
  cases call with
  | publish block => exact hd.laid block
  | publishFrom left right =>
    by_cases h : left.length = right.length
    · simp only [Desk.answer, d.perform_publishFrom h, PublisherCall.perform, r.publishFrom_of_eq h]
      exact hd.laid ⟨left, right, h⟩
    · simp only [Desk.answer, d.perform_publishFrom_of_ne h, PublisherCall.perform,
        r.publishFrom_of_ne h]
      exact hd
  | apply message =>
    simp only [Desk.answer, perform_discard, PublisherCall.perform]
    have hmissing {left right : Option Channel} (h : left = none ∨ right = none) :
        (d.perform (Desk.apply (.data left right))).2.Holds
          (PublisherCall.perform r (.apply (.data left right))).2 := by
      simp only [d.perform_apply_missing h, PublisherCall.perform, Message.apply_missing r h]
      exact hd
    rcases message with ⟨_ | left, right⟩
    · exact hmissing (.inl rfl)
    rcases right with _ | right
    · exact hmissing (.inr rfl)
    by_cases h : left.length = right.length
    · simp only [d.perform_apply h, Message.apply_of_eq r h]
      exact hd.laid ⟨left, right, h⟩
    · simp only [d.perform_apply_of_ne h, Message.apply_of_ne r h]
      exact hd
  | clear => exact ⟨rfl, hd.waiting, hd.capacity⟩
  | collectGarbage => exact ⟨hd.slot, rfl, hd.capacity⟩
  | isPending => exact hd

theorem Holds.step {d : Desk} {s : Session} (hd : d.Holds s.callback.relay) (call : Call)
    (shared : Bool) :
    (d.step s.publisher call shared).Holds (s.step call).2.callback.relay := by
  cases call with
  | publisher call =>
    by_cases hp : s.publisher = true
    · simp only [Desk.step, Session.step, hp, if_true]
      exact hd.answer call
    · simp only [Desk.step, Session.step, hp]
      exact hd
  | dropPublisher =>
    by_cases hp : s.publisher = true
    · simp only [Desk.step, Session.step, hp, if_true]
      exact hd
    · simp only [Desk.step, Session.step, hp]
      exact hd
  | take take =>
    cases h : s.callback.relay.pending with
    | none =>
      obtain ⟨-, hnext, -⟩ := Take.perform_none h take
      simp only [Desk.step, Session.step, hnext]
      exact hd.handBack_none h shared
    | some block =>
      obtain ⟨-, hnext, -⟩ := Take.perform_some h take
      simp only [Desk.step, Session.step, hnext]
      exact hd.handBack_some h shared
  | isReady => exact hd
  | drainFacts =>
    simp only [Desk.step, Session.step, Render.Callback.drain_relay]
    exact hd

theorem Holds.after {d : Desk} {s : Session} (hd : d.Holds s.callback.relay)
    (calls : List (Call × Bool)) :
    (d.after s calls).Holds (s.after (calls.map Prod.fst)).callback.relay := by
  induction calls generalizing d s with
  | nil => exact hd
  | cons call rest ih => exact ih (hd.step call.1 call.2)

end Desk

open Desk in
/-- After any calls on a fresh session, in place as on the relay: channels of one length end up in
the slot, by whichever of the three ways, with nothing left to collect and nothing of a used block
in them; channels of two lengths are refused with both lengths, and nothing changes; a message
without both channels is ignored. What is in the slot has two channels of one length. -/
theorem publishing_paths_agree (facts : Option (Ring Render.FactId)) (calls : List (Call × Bool))
    (left right : Channel) :
    let r := ((Session.fresh facts).after (calls.map Prod.fst)).callback.relay
    let d := ({} : Desk).after (Session.fresh facts) calls
    d.Holds r ∧
    (∀ b, d.slot = some b → b.left.length = b.right.length) ∧
    (∀ h : left.length = right.length,
      let next : Relay := ⟨some ⟨left, right, h⟩, .empty 64⟩
      let filled : Desk := ⟨some ⟨left, right⟩, []⟩
      filled.Holds next ∧
      (∃ block, Block.ofChannels left right = .ok block ∧ r.publish block = next ∧
        d.perform (newBlock left right >>= publish) = (.ok (), filled)) ∧
      (r.publishFrom left right = .ok next ∧
        d.perform (publishFrom left right) = (.ok (), filled)) ∧
      (Message.data (some left) (some right)).apply r = .ok (.published left.length, next) ∧
        d.perform (apply (.data (some left) (some right))) =
          (.ok (.published left.length), filled)) ∧
    (left.length ≠ right.length →
      let fault := RelayError.channelLengthMismatch left.length right.length
      (Block.ofChannels left right = .error fault ∧
        d.perform (newBlock left right >>= publish) = (.error fault, d)) ∧
      (PublisherCall.perform r (.publishFrom left right) = (.refused fault, r) ∧
        d.perform (publishFrom left right) = (.error fault, d)) ∧
      PublisherCall.perform r (.apply (.data (some left) (some right))) = (.refused fault, r) ∧
        d.perform (apply (.data (some left) (some right))) = (.error fault, d)) ∧
    ∀ left right : Option Channel, left = none ∨ right = none →
      (Message.data left right).apply r = .ok (.ignored, r) ∧
        d.perform (apply (.data left right)) = (.ok .ignored, d) := by
  intro r d
  have hd : d.Holds r := holds_fresh.after calls
  refine ⟨hd, fun b => hd.aligned, ?_, ?_, ?_⟩
  · intro h next filled
    have hnext : r.publish ⟨left, right, h⟩ = next := by
      simp only [Relay.publish, Relay.collectGarbage, Ring.drain, hd.capacity]
      rfl
    refine ⟨hnext ▸ hd.laid ⟨left, right, h⟩, ?_, ?_, ?_, ?_⟩
    · exact ⟨_, Block.ofChannels_of_eq h, hnext, perform_newBlock d h publish⟩
    · exact ⟨hnext ▸ r.publishFrom_of_eq h, d.perform_publishFrom h⟩
    · exact hnext ▸ Message.apply_of_eq r h
    · exact d.perform_apply h
  · intro h fault
    refine ⟨⟨Block.ofChannels_of_ne h, d.perform_newBlock_of_ne h publish⟩, ⟨?_, ?_⟩, ?_, ?_⟩
    · simp only [PublisherCall.perform, r.publishFrom_of_ne h]
      rfl
    · exact d.perform_publishFrom_of_ne h
    · simp only [PublisherCall.perform, Message.apply_of_ne r h]
      rfl
    · exact d.perform_apply_of_ne h
  · intro left right h
    exact ⟨Message.apply_missing r h, d.perform_apply_missing h⟩

open Desk in
/-- A shorter block in place of a used one, and what is refused or ignored leaves that one alone. -/
theorem publishing_paths_agree_reused :
    let loud : Sample := .ofBits 0x3e800000
    let calls : List (Call × Bool) :=
      [(.publisher (.publish (.mono [loud, loud, loud])), false), (.take (.consume 3 2), false)]
    let r := ((Session.fresh none).after (calls.map Prod.fst)).callback.relay
    let d := ({} : Desk).after (Session.fresh none) calls
    d.waiting = [⟨⟨[loud, loud, loud], [loud, loud, loud]⟩, false⟩] ∧
      [Sample.silence].length = [loud].length ∧
      r.publishFrom [.silence] [loud] = .ok ⟨some ⟨[.silence], [loud], rfl⟩, .empty 64⟩ ∧
      d.perform (publishFrom [.silence] [loud]) = (.ok (), ⟨some ⟨[.silence], [loud]⟩, []⟩) ∧
      [loud].length ≠ ([] : Channel).length ∧
      d.perform (publishFrom [loud] []) = (.error (.channelLengthMismatch 1 0), d) ∧
      d.perform (apply (.data none (some [loud]))) = (.ok .ignored, d) := by
  intro loud calls r d
  have hequal : [Sample.silence].length = [loud].length := rfl
  have hunequal : [loud].length ≠ ([] : Channel).length := by decide
  obtain ⟨-, -, hpublished, -, hignored⟩ :=
    publishing_paths_agree none calls [.silence] [loud]
  obtain ⟨-, -, ⟨hrelay, hdesk⟩, -⟩ := hpublished hequal
  obtain ⟨-, -, -, hrefused, -⟩ := publishing_paths_agree none calls [loud] []
  obtain ⟨-, ⟨-, hkept⟩, -⟩ := hrefused hunequal
  exact ⟨rfl, hequal, hrelay, hdesk, hunequal, hkept, (hignored none (some [loud]) (.inl rfl)).2⟩

end TuneRelay
