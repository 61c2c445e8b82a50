import Mathlib
import TuneRelay.Proofs.Render.FactWords

/-!
# A quantum in place

A quantum is written into buffers that still hold the one before it: the beginning of a channel is
copied over, and what is left of it is silenced. No such slice ends beyond its buffer, and nothing
of the old samples stays, so the pending block and the lengths of the channels decide what is heard.
-/
namespace TuneRelay
open Render

/-- Copies the first `n` samples of the source over those of the target. -/
def copyInto (target source : Channel) (n : Nat) : Except OutOfRange Channel :=
  if target.length < n then .error ⟨target.length, n⟩
  else if source.length < n then .error ⟨source.length, n⟩
  else .ok (source.take n ++ target.drop n)

/-- Silences the target from the sample at `n` on. -/
def silenceFrom (target : Channel) (n : Nat) : Except OutOfRange Channel :=
  if target.length < n then .error ⟨target.length, n⟩
  else .ok (target.take n ++ .silent (target.length - n))

/-- Writes a block into the channels from number `index` on, where `frames` is the most that has
been copied into one of those before. -/
def Block.writeFrom (b : Block) (index frames : Nat) :
    List Channel → Except OutOfRange (List Channel × Nat)
  | [] => .ok ([], frames)
  | channel :: rest =>
    match b.source index with
    | none => do
      let written ← silenceFrom channel 0
      let (others, most) ← b.writeFrom (index + 1) frames rest
      return (written :: others, most)
    | some source => do
      let n := min source.length channel.length
      let copied ← copyInto channel source n
      let written ← silenceFrom copied n
      let (others, most) ← b.writeFrom (index + 1) (max frames n) rest
      return (written :: others, most)

def silenceAll : List Channel → Except OutOfRange (List Channel)
  | [] => .ok []
  | channel :: rest => return (← silenceFrom channel 0) :: (← silenceAll rest)

/-- Consumption that overwrites its buffers one slice after the other. -/
def Relay.consumeInPlace (r : Relay) (outputs : List Channel) :
    Except OutOfRange (Consumed (List Channel)) :=
  match r.pending with
  | none => return ⟨.silence, ← silenceAll outputs, r⟩
  | some b => do
    let (out, frames) ← b.writeFrom 0 0 outputs
    return ⟨.delivered frames, out, r.finish b⟩

theorem silenceFrom_zero (target : Channel) :
    silenceFrom target 0 = .ok (.silent target.length) := by
  rw [silenceFrom, if_neg (Nat.not_lt_zero _)]
  rfl

theorem copyInto_of_le {target source : Channel} {n : Nat} (ht : n ≤ target.length)
    (hs : n ≤ source.length) :
    copyInto target source n = .ok (source.take n ++ target.drop n) := by
  rw [copyInto, if_neg (Nat.not_lt.mpr ht), if_neg (Nat.not_lt.mpr hs)]

/-- Behind a copy everything is silenced, so nothing of what was there before is left. -/
theorem silenceFrom_copied {target source : Channel} {n : Nat} (ht : n ≤ target.length)
    (hs : n ≤ source.length) : silenceFrom (source.take n ++ target.drop n) n =
      .ok (source.take n ++ .silent (target.length - n)) := by
  have htake : (source.take n).length = n := List.length_take_of_le hs
  have hlength : (source.take n ++ target.drop n).length = target.length := by
    rw [List.length_append, htake, List.length_drop]
    omega
  rw [silenceFrom, hlength, if_neg (Nat.not_lt.mpr ht), List.take_left' htake]

theorem silenceAll_eq (outputs : List Channel) : silenceAll outputs = .ok (silenced outputs) := by
  induction outputs with
  | nil => rfl
  | cons channel rest ih =>
    rw [silenceAll, silenceFrom_zero, ih]
    rfl

/-- Slice after slice comes to the same as channel after channel. -/
theorem Block.writeFrom_eq (b : Block) (index frames : Nat) (outputs : List Channel) :
    b.writeFrom index frames outputs =
      (Relay.fillFrom b index outputs).map fun filled => (filled.1, max frames filled.2) := by
  -- one maximum is taken on the way into the list, the other on the way out
  induction outputs generalizing index frames with
  | nil => simp [writeFrom, Relay.fillFrom, Except.map]
  | cons channel rest ih =>
    obtain ⟨others, hothers⟩ : ∃ others, Relay.fillFrom b (index + 1) rest = .ok others :=
      ⟨_, Relay.fillFrom_eq b (index + 1) rest⟩
    cases hsource : b.source index with
    | none =>
      simp only [writeFrom, hsource, silenceFrom_zero, ih, Relay.fillFrom, Relay.fillChannel,
        hothers, Except.map, bind, Except.bind, pure, Except.pure, Nat.zero_max]
    | some source =>
      have hs := Nat.min_le_left source.length channel.length
      have ht := Nat.min_le_right source.length channel.length
      simp only [writeFrom, hsource, copyInto_of_le ht hs, silenceFrom_copied ht hs, ih,
        Relay.fillFrom, Relay.fillChannel, Relay.overwrite_of_le hs ht, hothers, Except.map, bind,
        Except.bind, pure, Except.pure, max_assoc]

namespace Relay

theorem consumeInPlace_eq (r : Relay) (outputs : List Channel) :
    r.consumeInPlace outputs = r.consumeInto outputs := by
  cases h : r.pending with
  | none =>
    rw [consumeInto_none h]
    simp only [consumeInPlace, h, silenceAll_eq]
    rfl
  | some b =>
    rw [consumeInto_some h]
    simp only [consumeInPlace, h, Block.writeFrom_eq, fillFrom_eq, Nat.zero_max]
    simp only [Nat.zero_add]
    rfl

end Relay

theorem silenced_eq_map (outputs : List Channel) :
    silenced outputs = (outputs.map List.length).map Channel.silent := by
  simp [silenced]

namespace Block

theorem heardPlanar_eq_mapIdx (b : Block) (outputs : List Channel) :
    b.heardPlanar outputs = (outputs.map List.length).mapIdx b.heard := by
  apply List.ext_getElem
  · simp [heardPlanar]
  · intro k hk hk'
    simp [heardPlanar]

theorem framesInto_eq_map (b : Block) (outputs : List Channel) : b.framesInto outputs =
    (((outputs.map List.length).take 2).map (min b.length)).foldr max 0 := by
  rw [← List.map_take, List.map_map]
  rfl

theorem map_length_heardPlanar (b : Block) (outputs : List Channel) :
    (b.heardPlanar outputs).map List.length = outputs.map List.length := by
  apply List.ext_getElem
  · simp [heardPlanar]
  · intro k hk hk'
    simp [heardPlanar, heard]

theorem heardPlanar_getElem? (b : Block) {outputs : List Channel} {k : Nat} {channel : Channel}
    (h : outputs[k]? = some channel) :
    (b.heardPlanar outputs)[k]? = some (b.heard k channel.length) := by
  rw [heardPlanar, List.getElem?_mapIdx, h]
  rfl

end Block

/-- No relay fails to fill its channels, and it keeps their lengths. -/
theorem Relay.consumeInto_total (r : Relay) (outputs : List Channel) :
    ∃ taken : Consumed (List Channel), r.consumeInto outputs = .ok taken ∧
      taken.out.map List.length = outputs.map List.length := by
  cases h : r.pending with
  | none => exact ⟨_, consumeInto_none h outputs, by simp [silenced, Channel.silent]⟩
  | some b =>
    exact ⟨_, consumeInto_some h outputs, b.map_length_heardPlanar outputs⟩

/-- The pending block and the lengths of the channels decide a quantum. -/
theorem Relay.consumeInto_congr {r r' : Relay} (hpending : r'.pending = r.pending)
    {outputs outputs' : List Channel}
    (hlengths : outputs'.map List.length = outputs.map List.length)
    {taken taken' : Consumed (List Channel)} (h : r.consumeInto outputs = .ok taken)
    (h' : r'.consumeInto outputs' = .ok taken') :
    taken'.outcome = taken.outcome ∧ taken'.out = taken.out := by
  cases hblock : r.pending with
  | none =>
    rw [consumeInto_none hblock] at h
    rw [consumeInto_none (hpending.trans hblock)] at h'
    cases h
    cases h'
    exact ⟨rfl, by rw [silenced_eq_map, hlengths, ← silenced_eq_map]⟩
  | some b =>
    rw [consumeInto_some hblock] at h
    rw [consumeInto_some (hpending.trans hblock)] at h'
    cases h
    cases h'
    refine ⟨?_, ?_⟩
    · rw [b.framesInto_eq_map, hlengths, ← b.framesInto_eq_map]
    · rw [b.heardPlanar_eq_mapIdx, hlengths, ← b.heardPlanar_eq_mapIdx]

namespace Render.Callback

/-- A callback goes on after every quantum, with what was consumed and its counters moved on. -/
theorem process_consumed {cb : Callback} {outputs : List Channel}
    {taken : Consumed (List Channel)} (h : cb.relay.consumeInto outputs = .ok taken) :
    ∃ rendered : Rendered, cb.process outputs = .ok rendered ∧ cb.processSafe outputs = rendered ∧
      rendered.goOn = true ∧ rendered.outputs = taken.out ∧
      rendered.callback.relay = taken.relay ∧ rendered.callback.quanta = cb.quanta + 1 ∧
      rendered.callback.delivered = cb.delivered + taken.outcome.isDelivered.toNat ∧
      ∃ word : List FactId, rendered.callback.facts = cb.facts.map (·.pushAll word) ∧
        Fact.panicContained ∉ word := by
  cases hpending : cb.relay.pending with
  | none =>
    rw [Relay.consumeInto_none hpending] at h
    cases h
    refine ⟨_, process_none hpending outputs, processSafe_none hpending outputs, rfl, rfl, rfl, rfl,
      rfl, _, cb.rested_facts outputs, panicContained_not_mem_factWord _ _⟩
  | some b =>
    rw [Relay.consumeInto_some hpending] at h
    cases h
    exact ⟨_, process_some hpending outputs, processSafe_some hpending outputs, rfl, rfl, rfl, rfl,
      rfl, _, cb.played_facts b outputs, panicContained_not_mem_factWord _ _⟩

end Render.Callback

/-- A quantum keeps the lengths of its channels. With nothing pending all of it is silent; a pending
block goes into the first two channels as far as both reach, the rest of them and the others are
silent, and the frames are the most that one of the two takes. Relays with the same block pending
give the same to channels of the same lengths, whatever those held. Written in place or not, no
slice ends beyond its buffer, so the containment of a callback changes nothing and signals
nothing. -/
theorem block_and_lengths_decide_quantum (r : Relay) (outputs : List Channel) :
    ∃ taken : Consumed (List Channel),
      r.consumeInto outputs = .ok taken ∧ r.consumeInPlace outputs = .ok taken ∧
      taken.out.map List.length = outputs.map List.length ∧
      (r.pending = none → taken.outcome = .silence ∧
        ∀ channel ∈ taken.out, ∀ sample ∈ channel, sample = Sample.silence) ∧
      (∀ b : Block, r.pending = some b →
        taken.outcome = .delivered
          (((outputs.take 2).map fun channel => min b.length channel.length).foldr max 0) ∧
        (∀ channel : Channel, outputs[0]? = some channel → taken.out[0]? =
          some (b.left.take (min b.length channel.length) ++
            Channel.silent (channel.length - min b.length channel.length))) ∧
        (∀ channel : Channel, outputs[1]? = some channel → taken.out[1]? =
          some (b.right.take (min b.length channel.length) ++
            Channel.silent (channel.length - min b.length channel.length))) ∧
        ∀ (k : Nat) (channel : Channel), 2 ≤ k → outputs[k]? = some channel →
          taken.out[k]? = some (Channel.silent channel.length)) ∧
      (∀ (r' : Relay) (outputs' : List Channel) (taken' : Consumed (List Channel)),
        r'.pending = r.pending →
        outputs'.map List.length = outputs.map List.length →
        r'.consumeInto outputs' = .ok taken' →
        taken'.outcome = taken.outcome ∧ taken'.out = taken.out) ∧
      ∀ cb : Callback, cb.relay = r → ∃ rendered : Rendered, cb.process outputs = .ok rendered ∧
        cb.processSafe outputs = rendered ∧ rendered.goOn = true ∧
        rendered.outputs = taken.out ∧ rendered.callback.relay = taken.relay ∧
        rendered.callback.quanta = cb.quanta + 1 ∧
        rendered.callback.delivered = cb.delivered + taken.outcome.isDelivered.toNat ∧
        ∃ word : List FactId, rendered.callback.facts = cb.facts.map (·.pushAll word) ∧
          Fact.panicContained ∉ word := by
  obtain ⟨taken, htaken, hlengths⟩ := r.consumeInto_total outputs
  refine ⟨taken, htaken, (r.consumeInPlace_eq outputs).trans htaken, hlengths, ?_, ?_, ?_, ?_⟩
  · intro hpending
    rw [Relay.consumeInto_none hpending] at htaken
    cases htaken
    refine ⟨rfl, ?_⟩
    intro channel hchannel sample hsample
    obtain ⟨output, -, rfl⟩ := List.mem_map.mp hchannel
    exact (List.mem_replicate.mp hsample).2
  · intro b hpending
    rw [Relay.consumeInto_some hpending] at htaken
    cases htaken
    refine ⟨rfl, ?_, ?_, ?_⟩
    · intro channel hchannel
      have hleft : b.source 0 = some b.left := rfl
      rw [b.heardPlanar_getElem? hchannel, Block.heard_of_some hleft]
      rfl
    · intro channel hchannel
      have hright : b.source 1 = some b.right := rfl
      rw [b.heardPlanar_getElem? hchannel, Block.heard_of_some hright, Block.source_length hright]
    · intro k channel hk hchannel
      rw [b.heardPlanar_getElem? hchannel, b.heard_of_two_le hk]
  · intro r' outputs' taken' hpending hsame htaken'
    exact Relay.consumeInto_congr hpending hsame htaken htaken'
  · rintro cb rfl
    exact Callback.process_consumed htaken

/-- Two frames into channels of three frames, of one and of two, full of what was there before. -/
theorem block_and_lengths_decide_quantum_uneven :
    let loud : Sample := .ofBits 0x3e800000
    let block : Block := ⟨[loud, .silence], [.silence, loud], rfl⟩
    let r : Relay := { pending := some block }
    let outputs : List Channel := [[loud, loud, loud], [loud], [loud, loud]]
    r.pending = some block ∧ ∃ taken : Consumed (List Channel),
      r.consumeInto outputs = .ok taken ∧
      taken.outcome = .delivered 2 ∧
      taken.out[0]? = some [loud, Sample.silence, Sample.silence] ∧
      taken.out[1]? = some [Sample.silence] ∧
      taken.out[2]? = some [Sample.silence, Sample.silence] ∧
      ∃ rendered : Rendered, Callback.processSafe { relay := r } outputs = rendered ∧
        rendered.outputs = taken.out ∧ rendered.callback.delivered = 1 := by
  intro loud block r outputs
  obtain ⟨taken, htaken, -, -, -, hsome, -, hsafe⟩ := block_and_lengths_decide_quantum r outputs
  obtain ⟨houtcome, hleft, hright, hmore⟩ := hsome block rfl
  obtain ⟨rendered, -, hrendered, -, hout, -, -, hdelivered, -⟩ := hsafe { relay := r } rfl
  rw [houtcome] at hdelivered
  exact ⟨rfl, taken, htaken, houtcome, hleft _ rfl, hright _ rfl, hmore 2 _ (by decide) rfl,
    rendered, hrendered, hout, hdelivered⟩

end TuneRelay
