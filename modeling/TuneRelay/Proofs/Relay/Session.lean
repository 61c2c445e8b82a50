import TuneRelay.Proofs.Relay.Delivery
import TuneRelay.Relay

/-!
# Sessions: the two ends of one relay, call after call

Calls on both ends come in any order and with arguments of any shape, also such as are refused or
change nothing. A dropped publisher answers no more.
-/
namespace TuneRelay
open Render

/-- What may be asked of the publisher. -/
inductive PublisherCall
  | publish (block : Block)
  | publishFrom (left right : Channel)
  | apply (message : Message)
  | clear
  | collectGarbage
  | isPending

/-- The ways to take from the slot; the last two run a quantum of the callback. -/
inductive Take
  | consume (frames channels : Nat)
  | consumeInto (outputs : List Channel)
  | consumeInterleaved (out : List Sample) (channels : Nat)
  | process (outputs : List Channel)
  | processSafe (outputs : List Channel)

inductive Call
  | publisher (call : PublisherCall)
  | dropPublisher
  | take (take : Take)
  | isReady
  | drainFacts

inductive Output
  | planar (channels : List Channel)
  | interleaved (samples : List Sample)

inductive Reply
  | gone
  | dropped
  | published
  | refused (fault : RelayError)
  | applied (applied : Applied)
  | withdrawn (block : Option Block)
  | collected (count : Nat)
  | pending (waits : Bool)
  | taken (outcome : Outcome) (output : Output)
  | faulted (fault : OutOfRange)
  | ready (waits : Bool)
  | facts (ids : List FactId)

namespace Reply

/-- The call has published a block. -/
def publishes : Reply → Bool
  | published | applied (.published _) => true
  | _ => false

/-- The block that the call hands back. -/
def handedBack : Reply → Option Block
  | withdrawn block => block
  | _ => none

/-- The call has dropped the blocks that had come back. -/
def collects : Reply → Bool
  | collected _ => true
  | _ => false

/-- The call has taken a block from the slot. -/
def delivers : Reply → Bool
  | taken outcome _ => outcome.isDelivered
  | _ => false

end Reply

def PublisherCall.perform (r : Relay) : PublisherCall → Reply × Relay
  | publish block => (.published, r.publish block)
  | publishFrom left right =>
    match r.publishFrom left right with
    | .ok next => (.published, next)
    | .error fault => (.refused fault, r)
  | apply message =>
    match message.apply r with
    | .ok (applied, next) => (.applied applied, next)
    | .error fault => (.refused fault, r)
  | clear => (.withdrawn r.clear.1, r.clear.2)
  | collectGarbage => (.collected r.collectGarbage.1, r.collectGarbage.2)
  | isPending => (.pending r.isPending, r)

namespace Take

/-- Answers with what was consumed, and keeps the callback's counters. -/
def answer (cb : Callback) : Except OutOfRange (Consumed (List Channel)) → Reply × Callback
  | .ok consumed =>
    (.taken consumed.outcome (.planar consumed.out), { cb with relay := consumed.relay })
  | .error fault => (.faulted fault, cb)

/-- Answers with a quantum's outputs; its outcome is that of its own consumption. -/
def answerQuantum (consumed : Except OutOfRange (Consumed (List Channel))) (rendered : Rendered) :
    Reply × Callback :=
  match consumed with
  | .ok consumed => (.taken consumed.outcome (.planar rendered.outputs), rendered.callback)
  | .error fault => (.faulted fault, rendered.callback)

def perform (cb : Callback) : Take → Reply × Callback
  | consume frames channels => answer cb (cb.relay.consume frames channels)
  | consumeInto outputs => answer cb (cb.relay.consumeInto outputs)
  | consumeInterleaved out channels =>
    let consumed := cb.relay.consumeInterleaved out channels
    (.taken consumed.outcome (.interleaved consumed.out), { cb with relay := consumed.relay })
  | process outputs =>
    match cb.process outputs with
    | .ok rendered => answerQuantum (cb.relay.consumeInto outputs) rendered
    | .error fault => (.faulted fault, cb)
  | processSafe outputs =>
    answerQuantum (cb.relay.consumeInto outputs) (cb.processSafe outputs)

def isQuantum : Take → Bool
  | process _ | processSafe _ => true
  | _ => false

/-- The output that a block fills. -/
def heard (b : Block) : Take → Output
  | consume frames channels => .planar (b.heardPlanar (List.replicate channels (.silent frames)))
  | consumeInto outputs | process outputs | processSafe outputs => .planar (b.heardPlanar outputs)
  | consumeInterleaved out channels => .interleaved (b.heardInterleaved out.length channels)

/-- The frames that a block delivers. -/
def frames (b : Block) : Take → Nat
  | consume frames channels => b.framesInto (List.replicate channels (.silent frames))
  | consumeInto outputs | process outputs | processSafe outputs => b.framesInto outputs
  | consumeInterleaved out channels => min b.length (out.length / channels)

/-- The output when nothing is pending. -/
def silence : Take → Output
  | consume frames channels => .planar (List.replicate channels (.silent frames))
  | consumeInto outputs | process outputs | processSafe outputs =>
    .planar (silenced outputs)
  | consumeInterleaved out _ => .interleaved (Channel.silent out.length)

end Take

structure Session where
  callback : Callback
  publisher : Bool := true

namespace Session

/-- A fresh relay under a fresh callback, with a signal queue or without. -/
def fresh (facts : Option (Ring FactId)) : Session := { callback := { facts } }

/-- What the slot holds. -/
def slot (s : Session) : Option Block := s.callback.relay.pending

def step (s : Session) : Call → Reply × Session
  | .publisher call =>
    if s.publisher then
      let (reply, relay) := call.perform s.callback.relay
      (reply, { s with callback := { s.callback with relay } })
    else (.gone, s)
  | .dropPublisher => if s.publisher then (.dropped, { s with publisher := false }) else (.gone, s)
  | .take take =>
    let (reply, callback) := take.perform s.callback
    (reply, { s with callback })
  | .isReady => (.ready s.callback.relay.isReady, s)
  | .drainFacts => (.facts s.callback.drain.1, { s with callback := s.callback.drain.2 })

def after (s : Session) (calls : List Call) : Session :=
  calls.foldl (fun s call => (s.step call).2) s

theorem after_append (s : Session) (before later : List Call) :
    s.after (before ++ later) = (s.after before).after later := List.foldl_append

theorem after_concat (s : Session) (calls : List Call) (call : Call) :
    s.after (calls ++ [call]) = ((s.after calls).step call).2 :=
  s.after_append calls [call]

end Session

section
variable {α : Type} {first later : α → Prop}

/-- An entry of a longer history is its last or one of the shorter history. -/
theorem concat_eq_split {h before rest : List α} {a b : α} (hs : h ++ [a] = before ++ b :: rest) :
    rest = [] ∧ h = before ∧ a = b ∨ ∃ r, rest = r ++ [a] ∧ h = before ++ b :: r := by
  rcases List.eq_nil_or_concat rest with rfl | ⟨r, last, rfl⟩
  · obtain ⟨hh, ha⟩ := List.append_inj' hs rfl
    exact .inl ⟨rfl, hh, (List.cons.inj ha).1⟩
  · rw [List.concat_eq_append, ← List.cons_append, ← List.append_assoc] at hs
    obtain ⟨hh, ha⟩ := List.append_inj' hs rfl
    have hlast : a = last := (List.cons.inj ha).1
    exact .inr ⟨r, by rw [List.concat_eq_append, hlast], hh⟩

/-- Something happened, and only such as is named has happened after it. -/
def Since (first later : α → Prop) (h : List α) : Prop :=
  ∃ before a rest, h = before ++ a :: rest ∧ first a ∧ ∀ b ∈ rest, later b

theorem not_since_nil : ¬ Since first later [] := by
  rintro ⟨before, a, rest, h, -⟩
  cases before <;> cases h

theorem since_concat (h : List α) (a : α) :
    Since first later (h ++ [a]) ↔ first a ∨ later a ∧ Since first later h := by
  constructor
  · rintro ⟨before, b, rest, hsplit, hfirst, hlater⟩
    rcases concat_eq_split hsplit with ⟨rfl, rfl, rfl⟩ | ⟨r, rfl, rfl⟩
    · exact .inl hfirst
    · refine .inr ⟨hlater a (by simp), before, b, r, rfl, hfirst, ?_⟩
      intro c hc
      exact hlater c (List.mem_append_left _ hc)
  · rintro (hfirst | ⟨ha, before, b, rest, rfl, hfirst, hlater⟩)
    · exact ⟨h, a, [], rfl, hfirst, by simp⟩
    · refine ⟨before, b, rest ++ [a], by simp, hfirst, ?_⟩
      intro c hc
      rcases List.mem_append.mp hc with hc | hc
      · exact hlater c hc
      · rw [List.mem_singleton.mp hc]
        exact ha

end

/-- A refilled block holds nothing of what it held before. -/
theorem Block.refill_eq (b : Block) (left right : Channel) (h : left.length = right.length) :
    b.refill left right h = ⟨left, right, h⟩ := by
  simp [refill]

theorem Relay.publishFrom_eq (r : Relay) (left right : Channel) :
    r.publishFrom left right = (Block.ofChannels left right).map r.publish := by
  by_cases h : left.length = right.length
  · simp only [publishFrom, Block.ofChannels, dif_pos h, Except.map, Block.refill_eq]
    rfl
  · simp only [publishFrom, Block.ofChannels, dif_neg h, Except.map]

/-- The block that a call would publish. -/
def PublisherCall.offered : PublisherCall → Option Block
  | publish block => some block
  | publishFrom left right | apply (.data (some left) (some right)) =>
    (Block.ofChannels left right).toOption
  | _ => none

/-- All three ways to publish a block come to the same. -/
theorem PublisherCall.perform_offered {call : PublisherCall} {b : Block}
    (h : call.offered = some b) (r : Relay) :
    (call.perform r).2 = r.publish b ∧ (call.perform r).1.publishes = true := by
  cases call with
  | publish block =>
    cases h
    exact ⟨rfl, rfl⟩
  | publishFrom left right =>
    cases hb : Block.ofChannels left right with
    | error fault => simp [offered, hb, Except.toOption] at h
    | ok block =>
      have hb' : block = b := by simpa [offered, hb, Except.toOption] using h
      subst hb'
      simp [perform, Relay.publishFrom_eq, hb, Except.map, Reply.publishes]
  | apply message =>
    rcases message with ⟨_ | left, _ | right⟩
    · cases h
    · cases h
    · cases h
    · cases hb : Block.ofChannels left right with
      | error fault => simp [offered, hb, Except.toOption] at h
      | ok block =>
        have hb' : block = b := by simpa [offered, hb, Except.toOption] using h
        subst hb'
        simp [perform, Message.apply, hb, Except.map, Reply.publishes]
  | clear => cases h
  | collectGarbage => cases h
  | isPending => cases h

/-- Replies to a publisher that has changed nothing. -/
inductive Reply.Idle : Reply → Prop
  | refused (fault : RelayError) : Idle (.refused fault)
  | ignored : Idle (.applied .ignored)
  | pending (waits : Bool) : Idle (.pending waits)

theorem Reply.Idle.flags {reply : Reply} (h : reply.Idle) : reply.publishes = false ∧
    reply.collects = false ∧ reply.delivers = false ∧ reply.handedBack = none := by
  cases h <;> exact ⟨rfl, rfl, rfl, rfl⟩

theorem PublisherCall.perform_idle {call : PublisherCall} (ho : call.offered = none)
    (hclear : call ≠ .clear) (hcollect : call ≠ .collectGarbage) (r : Relay) :
    (call.perform r).2 = r ∧ (call.perform r).1.Idle := by
  cases call with
  | publish block => cases ho
  | publishFrom left right =>
    cases hb : Block.ofChannels left right with
    | error fault =>
      simp only [perform, Relay.publishFrom_eq, hb, Except.map]
      exact ⟨trivial, .refused fault⟩
    | ok block => simp [offered, hb, Except.toOption] at ho
  | apply message =>
    rcases message with ⟨_ | left, _ | right⟩
    · exact ⟨rfl, .ignored⟩
    · exact ⟨rfl, .ignored⟩
    · exact ⟨rfl, .ignored⟩
    · cases hb : Block.ofChannels left right with
      | error fault =>
        simp only [perform, Message.apply, hb, Except.map]
        exact ⟨trivial, .refused fault⟩
      | ok block => simp [offered, hb, Except.toOption] at ho
  | clear => exact absurd rfl hclear
  | collectGarbage => exact absurd rfl hcollect
  | isPending => exact ⟨rfl, .pending _⟩

/-- A call that offers no block clears the slot or leaves it alone. -/
theorem PublisherCall.perform_not_offered {call : PublisherCall} (h : call.offered = none)
    (r : Relay) : (call.perform r).1.publishes = false ∧
      ((call.perform r).1.handedBack = r.pending ∧ (call.perform r).2.pending = none ∨
        (call.perform r).1.handedBack = none ∧ (call.perform r).2.pending = r.pending) := by
  by_cases hclear : call = .clear
  · subst hclear
    exact ⟨rfl, .inl ⟨rfl, rfl⟩⟩
  · by_cases hcollect : call = .collectGarbage
    · subst hcollect
      exact ⟨rfl, .inr ⟨rfl, rfl⟩⟩
    · obtain ⟨hsame, hidle⟩ := perform_idle h hclear hcollect r
      obtain ⟨hpublishes, -, -, hback⟩ := hidle.flags
      exact ⟨hpublishes, .inr ⟨hback, congrArg Relay.pending hsame⟩⟩

theorem Take.perform_none {cb : Callback} (h : cb.relay.pending = none) (t : Take) :
    (t.perform cb).1 = .taken .silence t.silence ∧ (t.perform cb).2.relay = cb.relay ∧
      (t.perform cb).2.delivered = cb.delivered := by
  cases t with
  | consume frames channels =>
    simp [perform, answer, Relay.consume, Relay.consumeInto_none h, silence, silenced,
      Channel.silent]
  | consumeInto outputs => simp [perform, answer, Relay.consumeInto_none h, silence]
  | consumeInterleaved out channels => simp [perform, Relay.consumeInterleaved_none h, silence]
  | process outputs =>
    simp [perform, answerQuantum, Relay.consumeInto_none h, Callback.process_none h,
      Callback.rested, silence]
  | processSafe outputs =>
    simp [perform, answerQuantum, Relay.consumeInto_none h, Callback.processSafe_none h,
      Callback.rested, silence]

theorem Take.perform_some {cb : Callback} {b : Block} (h : cb.relay.pending = some b) (t : Take) :
    (t.perform cb).1 = .taken (.delivered (t.frames b)) (t.heard b) ∧
      (t.perform cb).2.relay = cb.relay.finish b ∧
      (t.perform cb).2.delivered = cb.delivered + t.isQuantum.toNat := by
  cases t with
  | consume frames channels =>
    simp [perform, answer, Relay.consume, Relay.consumeInto_some h, heard, Take.frames, isQuantum]
  | consumeInto outputs =>
    simp [perform, answer, Relay.consumeInto_some h, heard, Take.frames, isQuantum]
  | consumeInterleaved out channels =>
    simp [perform, Relay.consumeInterleaved_some h, heard, Take.frames, isQuantum]
  | process outputs =>
    simp [perform, answerQuantum, Relay.consumeInto_some h, Callback.process_some h,
      Callback.played, heard, Take.frames, isQuantum]
  | processSafe outputs =>
    simp [perform, answerQuantum, Relay.consumeInto_some h, Callback.processSafe_some h,
      Callback.played, heard, Take.frames, isQuantum]

end TuneRelay
