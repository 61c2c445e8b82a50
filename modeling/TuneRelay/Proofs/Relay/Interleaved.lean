import TuneRelay.Proofs.Render.Offline

/-!
# Interleaved buffers and planar ones

A buffer of interleaved samples receives the frames that a quantum of planar channels would, one
after the other, and the samples of a frame that is cut off by its end are silent.
-/
namespace TuneRelay

/-- Positions counted frame by frame: whole frames, each with one position for each channel. -/
theorem map_range_mul {α : Type} (f : Nat → Nat → α) {channels : Nat} (hc : 0 < channels)
    (frames : Nat) :
    ((List.range (frames * channels)).map fun position =>
        f (position % channels) (position / channels)) =
      (List.range frames).flatMap fun i => (List.range channels).map fun k => f k i := by
  induction frames with
  | zero => simp
  | succ frames ih =>
    have hlast : ∀ k ∈ List.range channels,
        f ((frames * channels + k) % channels) ((frames * channels + k) / channels) =
          f k frames := by
      intro k hk
      have hk := List.mem_range.mp hk
      rw [Nat.mul_comm, Nat.mul_add_mod, Nat.mod_eq_of_lt hk, Nat.mul_add_div hc,
        Nat.div_eq_of_lt hk, Nat.add_zero]
    rw [Nat.add_mul, Nat.one_mul, List.range_add, List.map_append, ih, List.map_map,
      List.range_succ, List.flatMap_append, List.flatMap_singleton]
    exact congrArg _ (List.map_congr_left hlast)

namespace Block

/-- The whole frames of an interleaved buffer are those of a planar quantum. -/
theorem heardInterleaved_eq (b : Block) {channels : Nat} (hc : 0 < channels) (length : Nat) :
    b.heardInterleaved length channels =
      Render.interleave (b.planar (length / channels) channels) ++
        Channel.silent (length % channels) := by
  have hsplit : List.range length = List.range (length / channels * channels) ++
      (List.range (length % channels)).map (length / channels * channels + ·) := by
    rw [← List.range_add, Nat.div_add_mod']
  have hwhole : ∀ position ∈ List.range (length / channels * channels),
      (if position / channels < length / channels then
          b.sampleAt (position % channels) (position / channels) else Sample.silence) =
        b.sampleAt (position % channels) (position / channels) := by
    intro position hposition
    rw [if_pos ((Nat.div_lt_iff_lt_mul hc).mpr (List.mem_range.mp hposition))]
  have hrest : ∀ k ∈ List.range (length % channels),
      (if (length / channels * channels + k) / channels < length / channels then
          b.sampleAt ((length / channels * channels + k) % channels)
            ((length / channels * channels + k) / channels) else Sample.silence) =
        Sample.silence := by
    intro k hk
    have hge : length / channels ≤ (length / channels * channels + k) / channels := by
      rw [Nat.le_div_iff_mul_le hc]
      exact Nat.le_add_right _ _
    rw [if_neg (Nat.not_lt.mpr hge)]
  rw [heardInterleaved, hsplit, List.map_append, List.map_congr_left hwhole,
    map_range_mul b.sampleAt hc, ← b.interleave_planar _ hc, List.map_map]
  simp only [Function.comp_def, List.map_congr_left hrest, List.map_const', List.length_range]
  rfl

theorem sampleAt_empty (channel frame : Nat) : empty.sampleAt channel frame = .silence := by
  rcases channel with _ | _ | channel <;> rfl

/-- A block without frames fills buffers with silence. -/
theorem heardPlanar_empty (outputs : List Channel) :
    empty.heardPlanar outputs = silenced outputs := by
  apply List.ext_getElem
  · simp [heardPlanar, silenced]
  · intro k hk hk'
    have hsilent : empty.sampleAt k = fun _ => Sample.silence := funext (sampleAt_empty k)
    simp [heardPlanar, silenced, heard, hsilent, Channel.silent]

theorem heardInterleaved_empty (length channels : Nat) :
    empty.heardInterleaved length channels = Channel.silent length := by
  simp only [heardInterleaved, sampleAt_empty, ite_self, List.map_const', List.length_range]
  rfl

/-- Equally long channels take as many frames as each of them takes. -/
theorem framesInto_replicate (b : Block) (frames channels : Nat) :
    b.framesInto (List.replicate channels (Channel.silent frames)) =
      if channels = 0 then 0 else min b.length frames := by
  rcases channels with _ | _ | channels
  · rfl
  · simp [framesInto, Channel.silent]
  · simp [framesInto, Channel.silent, List.replicate_succ]

end Block

namespace Relay
open Render

/-- The sample at a position of an interleaved buffer, if the block reaches as far as it is read. -/
def readSample (b : Block) (n channels position : Nat) : Except OutOfRange Sample :=
  if position / channels < n then
    match b.source (position % channels) with
    | none => .ok .silence
    | some source =>
      if h : position / channels < source.length then .ok source[position / channels]
      else .error ⟨source.length, position / channels⟩
  else .ok .silence

/-- No sample is read beyond the end of its channel, since both are as long as the block. -/
theorem readSample_eq {b : Block} {n : Nat} (h : n ≤ b.length) (channels position : Nat) :
    readSample b n channels position =
      .ok (interleavedSample b.left.toArray b.right.toArray n channels position) := by
  by_cases hn : position / channels < n
  · have hleft : position / channels < b.left.length := Nat.lt_of_lt_of_le hn h
    have hright : position / channels < b.right.length := b.aligned ▸ hleft
    rw [readSample, interleavedSample, if_pos hn, if_pos hn]
    rcases position % channels with _ | _ | k
    · simp [Block.source, hleft]
    · simp [Block.source, hright]
    · rfl
  · rw [readSample, interleavedSample, if_neg hn, if_neg hn]

/-- The channels that a quantum of equal buffers receives, and its outcome. -/
theorem consume_none {r : Relay} (h : r.pending = none) (frames channels : Nat) :
    r.consume frames channels = .ok ⟨.silence, Block.empty.planar frames channels, r⟩ := by
  have hlengths : ∀ channel ∈ List.replicate channels (Channel.silent frames),
      channel.length = frames := by simp [Channel.silent]
  rw [consume, consumeInto_none h, ← Block.heardPlanar_empty,
    Block.heardPlanar_eq_planar hlengths, List.length_replicate]

theorem consume_some {r : Relay} {b : Block} (h : r.pending = some b) (frames channels : Nat) :
    r.consume frames channels = .ok ⟨.delivered (if channels = 0 then 0 else min b.length frames),
      b.planar frames channels, r.finish b⟩ := by
  have hlengths : ∀ channel ∈ List.replicate channels (Channel.silent frames),
      channel.length = frames := by simp [Channel.silent]
  rw [consume, consumeInto_some h, Block.heardPlanar_eq_planar hlengths, List.length_replicate,
    Block.framesInto_replicate]

/-- Taking a block into an interleaved buffer does what taking it into planar buffers and
interleaving them does, with the same outcome and the same relay after it; a frame that the buffer
cuts off is silent. Without channels the whole buffer is. No read leaves a channel's range. -/
theorem interleaved_agrees_with_planar (r : Relay) (out : List Sample) :
    (∀ channels, 0 < channels → ∃ taken, r.consume (out.length / channels) channels = .ok taken ∧
      r.consumeInterleaved out channels = ⟨taken.outcome,
        interleave taken.out ++ Channel.silent (out.length % channels), taken.relay⟩) ∧
    (∃ taken, r.consume 0 0 = .ok taken ∧
      r.consumeInterleaved out 0 = ⟨taken.outcome, Channel.silent out.length, taken.relay⟩) ∧
    ∀ block channels, r.pending = some block → 0 < channels →
      ((List.range out.length).mapM
          (readSample block (min block.length (out.length / channels)) channels)) =
        .ok (r.consumeInterleaved out channels).out := by
  refine ⟨?_, ?_, ?_⟩
  · intro channels hc
    cases h : r.pending with
    | none =>
      refine ⟨_, consume_none h _ channels, ?_⟩
      rw [consumeInterleaved_none h, ← Block.heardInterleaved_empty out.length channels,
        Block.heardInterleaved_eq _ hc]
    | some block =>
      refine ⟨_, consume_some h _ channels, ?_⟩
      rw [consumeInterleaved_some h, Block.heardInterleaved_eq _ hc, if_neg (Nat.ne_of_gt hc)]
  · cases h : r.pending with
    | none => exact ⟨_, consume_none h 0 0, consumeInterleaved_none h out 0⟩
    | some block =>
      refine ⟨_, consume_some h 0 0, ?_⟩
      simp only [consumeInterleaved, h, if_true]
  · intro block channels h hc
    have hread := funext fun position =>
      readSample_eq (Nat.min_le_left block.length (out.length / channels)) channels position
    have hout : (r.consumeInterleaved out channels).out = (List.range out.length).map
        (interleavedSample block.left.toArray block.right.toArray
          (min block.length (out.length / channels)) channels) := by
      simp only [consumeInterleaved, h, if_neg (Nat.ne_of_gt hc)]
    rw [hread, hout]
    exact List.mapM_pure

/-- Two frames on three channels in a buffer of eleven samples. -/
theorem interleaved_agrees_with_planar_cut :
    let loud : Sample := .ofBits 0x3e800000
    let block : Block := ⟨[loud, loud], [.silence, loud], rfl⟩
    let r : Relay := { pending := some block }
    let out : List Sample := List.replicate 11 loud
    0 < 3 ∧ r.pending = some block ∧ ∃ taken, r.consume 3 3 = .ok taken ∧
      taken.outcome = .delivered 2 ∧ (r.consumeInterleaved out 3).outcome = .delivered 2 ∧
      (r.consumeInterleaved out 3).out = interleave taken.out ++ Channel.silent 2 ∧
      (List.range 11).mapM (readSample block 2 3) = .ok (r.consumeInterleaved out 3).out := by
  intro loud block r out
  have hlength : out.length = 11 := List.length_replicate
  have hframes : min block.length (11 / 3) = 2 := rfl
  obtain ⟨hagrees, -, hreads⟩ := interleaved_agrees_with_planar r out
  obtain ⟨taken, htaken, hinterleaved⟩ := hagrees 3 (by decide)
  have hread := hreads block 3 rfl (by decide)
  rw [hlength] at htaken hinterleaved hread
  rw [hframes] at hread
  have hdelivered : (r.consumeInterleaved out 3).outcome = .delivered 2 := by
    rw [consumeInterleaved_some (b := block) rfl, hlength, hframes]
  refine ⟨by decide, rfl, taken, htaken, ?_, hdelivered, ?_, hread⟩
  · rw [hinterleaved] at hdelivered
    exact hdelivered
  · rw [hinterleaved]

end Relay
end TuneRelay
