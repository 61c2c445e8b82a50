import TuneRelay.Render

/-!
# What a consumer copies out of the slot

An output sample is a sample of the pending block or silence, decided by the number of its channel
and of its frame alone. The copy loops are shown to put out exactly these samples and never to leave
a buffer's range, so no quantum ever has a fault to contain.
-/
namespace TuneRelay

/-- Output channels of the same lengths without a sound. -/
def silenced (outputs : List Channel) : List Channel :=
  outputs.map fun channel => Channel.silent channel.length

namespace Block

/-- The sample of an output channel at a frame; silence where the block does not reach. -/
def sampleAt (b : Block) (channel frame : Nat) : Sample :=
  ((b.source channel).getD [])[frame]?.getD .silence

/-- What the output channel of a number receives. -/
def heard (b : Block) (channel length : Nat) : Channel :=
  (List.range length).map (b.sampleAt channel)

def heardPlanar (b : Block) (outputs : List Channel) : List Channel :=
  outputs.mapIdx fun i channel => b.heard i channel.length

/-- The most frames that one of the first two channels takes. -/
def framesInto (b : Block) (outputs : List Channel) : Nat :=
  ((outputs.take 2).map fun channel => min b.length channel.length).foldr max 0

/-- Whole frames of all channels; what is left of the buffer after them is silent. -/
def heardInterleaved (b : Block) (length channels : Nat) : List Sample :=
  (List.range length).map fun position =>
    if position / channels < length / channels then
      b.sampleAt (position % channels) (position / channels)
    else .silence

theorem source_length {b : Block} {i : Nat} {source : Channel} (h : b.source i = some source) :
    source.length = b.length := by
  rcases i with _ | _ | i
  · cases h
    rfl
  · cases h
    exact b.aligned.symm
  · cases h

theorem lt_two_of_source {b : Block} {i : Nat} {source : Channel} (h : b.source i = some source) :
    i < 2 := by
  rcases i with _ | _ | i
  · decide
  · decide
  · cases h

theorem two_le_of_source {b : Block} {i : Nat} (h : b.source i = none) : 2 ≤ i := by
  rcases i with _ | _ | i
  · cases h
  · cases h
  · omega

theorem heard_of_none {b : Block} {i : Nat} (h : b.source i = none) (length : Nat) :
    b.heard i length = .silent length := by
  have hs : b.sampleAt i = fun _ => Sample.silence := by
    funext frame
    simp [sampleAt, h]
  rw [heard, hs, List.map_const', List.length_range]
  rfl

theorem heard_of_two_le (b : Block) {k : Nat} (hk : 2 ≤ k) (length : Nat) :
    b.heard k length = .silent length := by
  obtain ⟨j, rfl⟩ := Nat.exists_eq_add_of_le' hk
  exact heard_of_none rfl length

theorem heard_of_some {b : Block} {i : Nat} {source : Channel} (h : b.source i = some source)
    (length : Nat) : b.heard i length =
      source.take (min source.length length) ++ .silent (length - min source.length length) := by
  apply List.ext_getElem
  · simp only [heard, Channel.silent, List.length_map, List.length_range, List.length_append,
      List.length_take, List.length_replicate]
    omega
  · intro k hk hk'
    simp only [heard, List.length_map, List.length_range] at hk
    by_cases hs : k < source.length
    · rw [List.getElem_append_left (by simp only [List.length_take]; omega)]
      simp [heard, sampleAt, h, hs]
    · rw [List.getElem_append_right (by simp only [List.length_take]; omega)]
      simp [heard, sampleAt, h, Channel.silent, Nat.le_of_not_lt hs]

end Block

namespace Relay

theorem overwrite_of_le {source target : Channel} {n : Nat} (hs : n ≤ source.length)
    (ht : n ≤ target.length) :
    overwrite source target n = .ok (source.take n ++ .silent (target.length - n)) := by
  rw [overwrite, if_neg (Nat.not_lt.mpr hs), if_neg (Nat.not_lt.mpr ht)]

theorem fillChannel_eq (b : Block) (i : Nat) (channel : Channel) : fillChannel b i channel =
    .ok (b.heard i channel.length, if i < 2 then min b.length channel.length else 0) := by
  cases h : b.source i with
  | none =>
    have hi : ¬ i < 2 := Nat.not_lt.mpr (Block.two_le_of_source h)
    simp only [fillChannel, h, if_neg hi, Block.heard_of_none h]
  | some source =>
    have hi := Block.lt_two_of_source h
    have ho := overwrite_of_le (Nat.min_le_left source.length channel.length)
      (Nat.min_le_right source.length channel.length)
    simp only [fillChannel, h, ho, Except.map, if_pos hi, Block.heard_of_some h]
    rw [Block.source_length h]

/-- The channels from number `i` on; the count of frames looks at those of the first two. -/
theorem fillFrom_eq (b : Block) (i : Nat) (outputs : List Channel) : fillFrom b i outputs =
    .ok (outputs.mapIdx fun k channel => b.heard (i + k) channel.length,
      ((outputs.take (2 - i)).map fun channel => min b.length channel.length).foldr max 0) := by
  induction outputs generalizing i with
  | nil => simp [fillFrom]
  | cons channel rest ih =>
    have hx : (fun k (c : Channel) => b.heard (i + 1 + k) c.length) =
        fun k c => b.heard (i + (k + 1)) c.length := by
      funext k c
      rw [Nat.add_assoc, Nat.add_comm 1 k]
    simp only [fillFrom, fillChannel_eq, ih, bind, Except.bind, pure, Except.pure,
      List.mapIdx_cons, Nat.add_zero, hx]
    by_cases hi : i < 2
    · have ht : 2 - i = 2 - (i + 1) + 1 := by omega
      rw [if_pos hi, ht, List.take_succ_cons, List.map_cons, List.foldr_cons]
    · have ht : 2 - i = 0 := by omega
      have ht' : 2 - (i + 1) = 0 := by omega
      rw [if_neg hi, ht, ht', List.take_zero, List.take_zero]
      rfl

theorem consumeInto_none {r : Relay} (h : r.pending = none) (outputs : List Channel) :
    r.consumeInto outputs = .ok ⟨.silence, silenced outputs, r⟩ := by
  simp only [consumeInto, h, silenced]

theorem consumeInto_some {r : Relay} {b : Block} (h : r.pending = some b)
    (outputs : List Channel) : r.consumeInto outputs =
      .ok ⟨.delivered (b.framesInto outputs), b.heardPlanar outputs, r.finish b⟩ := by
  simp only [consumeInto, h, fillFrom_eq, Except.map, Nat.zero_add]
  rfl

theorem interleavedSample_eq (b : Block) (length channels position : Nat) :
    interleavedSample b.left.toArray b.right.toArray (min b.length (length / channels)) channels
      position = if position / channels < length / channels then
        b.sampleAt (position % channels) (position / channels) else .silence := by
  have hl : b.left.length = b.length := rfl
  have hr : b.right.length = b.length := b.aligned.symm
  by_cases hp : position / channels < length / channels
  · by_cases hb : position / channels < b.length
    · rw [interleavedSample, if_pos (Nat.lt_min.mpr ⟨hb, hp⟩), if_pos hp]
      rcases position % channels with _ | _ | k <;> simp [Block.sampleAt, Block.source, hl, hr, hb]
    · rw [interleavedSample, if_neg (fun h => hb (Nat.lt_min.mp h).1), if_pos hp]
      have hb' := Nat.le_of_not_lt hb
      rcases position % channels with _ | _ | k <;>
        simp [Block.sampleAt, Block.source, hl, hr, hb']
  · rw [interleavedSample, if_neg (fun h => hp (Nat.lt_min.mp h).2), if_neg hp]

theorem consumeInterleaved_none {r : Relay} (h : r.pending = none) (out : List Sample)
    (channels : Nat) :
    r.consumeInterleaved out channels = ⟨.silence, Channel.silent out.length, r⟩ := by
  simp only [consumeInterleaved, h]

theorem consumeInterleaved_some {r : Relay} {b : Block} (h : r.pending = some b)
    (out : List Sample) (channels : Nat) : r.consumeInterleaved out channels =
      ⟨.delivered (min b.length (out.length / channels)),
        b.heardInterleaved out.length channels, r.finish b⟩ := by
  by_cases hc : channels = 0
  · have hs : (fun position => if position / channels < out.length / channels then
        b.sampleAt (position % channels) (position / channels) else Sample.silence) =
          fun _ => Sample.silence := by
      funext position
      simp [hc]
    rw [Block.heardInterleaved, hs, List.map_const', List.length_range]
    simp [consumeInterleaved, h, hc, Channel.silent]
  · have hs : interleavedSample b.left.toArray b.right.toArray
        (min b.length (out.length / channels)) channels = fun position =>
          if position / channels < out.length / channels then
            b.sampleAt (position % channels) (position / channels) else .silence := by
      funext position
      exact interleavedSample_eq b out.length channels position
    simp only [consumeInterleaved, h, if_neg hc, hs]
    rfl

end Relay

namespace Render.Callback

@[simp] theorem signal_relay (cb : Callback) (ids : List FactId) :
    (cb.signal ids).relay = cb.relay := rfl

@[simp] theorem signal_delivered (cb : Callback) (ids : List FactId) :
    (cb.signal ids).delivered = cb.delivered := rfl

@[simp] theorem drain_relay (cb : Callback) : cb.drain.2.relay = cb.relay := by
  cases h : cb.facts <;> simp [drain, h]

/-- The callback after a quantum that found nothing. -/
def rested (cb : Callback) (outputs : List Channel) : Callback :=
  ({ cb with quanta := cb.quanta + 1 } : Callback).signal
    (factsOf .silence (silenced outputs) false)

/-- The callback after a quantum that took a block. -/
def played (cb : Callback) (b : Block) (outputs : List Channel) : Callback :=
  let next : Callback := { cb with
    relay := cb.relay.finish b
    quanta := cb.quanta + 1
    delivered := cb.delivered + 1 }
  next.signal
    (factsOf (.delivered (b.framesInto outputs)) (b.heardPlanar outputs) false)

theorem process_none {cb : Callback} (h : cb.relay.pending = none) (outputs : List Channel) :
    cb.process outputs = .ok ⟨true, silenced outputs, cb.rested outputs⟩ := by
  have hr : cb.relay.isReady = false := by simp [Relay.isReady, h]
  simp only [process, Relay.consumeInto_none h, Except.map, Outcome.isDelivered, hr]
  rfl

theorem process_some {cb : Callback} {b : Block} (h : cb.relay.pending = some b)
    (outputs : List Channel) :
    cb.process outputs = .ok ⟨true, b.heardPlanar outputs, cb.played b outputs⟩ := by
  simp only [process, Relay.consumeInto_some h, Except.map, Outcome.isDelivered]
  rfl

theorem processSafe_none {cb : Callback} (h : cb.relay.pending = none) (outputs : List Channel) :
    cb.processSafe outputs = ⟨true, silenced outputs, cb.rested outputs⟩ := by
  simp only [processSafe, process_none h]

theorem processSafe_some {cb : Callback} {b : Block} (h : cb.relay.pending = some b)
    (outputs : List Channel) :
    cb.processSafe outputs = ⟨true, b.heardPlanar outputs, cb.played b outputs⟩ := by
  simp only [processSafe, process_some h]

end Render.Callback
end TuneRelay
