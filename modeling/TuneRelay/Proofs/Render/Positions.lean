import TuneRelay.Proofs.Relay.Interleaved
import TuneRelay.Proofs.Render.Offline

/-!
# Where each sample of an offline run comes from

A run puts its blocks out in their order and each block frame by frame. The place of a sample
therefore tells its block, its frame and its channel, and these three tell the sample: neither the
callback that the run begins with nor the other blocks have a part in it.
-/
namespace TuneRelay

/-- Pieces of one length, put together: a place in the whole is a piece and a place in it. -/
theorem getElem?_flatMap_of_length {α β : Type} {f : α → List β} {length : Nat} {l : List α}
    (h : ∀ a ∈ l, (f a).length = length) (k : Nat) {place : Nat} (hplace : place < length) :
    (l.flatMap f)[k * length + place]? = l[k]?.bind fun a => (f a)[place]? := by
  induction l generalizing k with
  | nil => simp
  | cons a rest ih =>
    have ha : (f a).length = length := h a List.mem_cons_self
    have hrest : ∀ b ∈ rest, (f b).length = length := fun b hb => h b (List.mem_cons_of_mem a hb)
    rw [List.flatMap_cons]
    cases k with
    | zero =>
      rw [Nat.zero_mul, Nat.zero_add, List.getElem?_append_left (by rw [ha]; exact hplace)]
      rfl
    | succ k =>
      have hshift : (k + 1) * length + place = (f a).length + (k * length + place) := by
        rw [ha, Nat.add_mul, Nat.one_mul]
        omega
      rw [hshift, List.getElem?_append_right (Nat.le_add_right _ _), Nat.add_sub_cancel_left,
        ih hrest k, List.getElem?_cons_succ]

/-- The place of a channel in a frame lies in the quantum. -/
theorem place_lt {quantum channels i c : Nat} (hi : i < quantum) (hc : c < channels) :
    i * channels + c < quantum * channels := by
  have hlast : (i + 1) * channels ≤ quantum * channels := Nat.mul_le_mul_right channels hi
  rw [Nat.add_mul, Nat.one_mul] at hlast
  omega

namespace Block

/-- The samples of an interleaved quantum by their places. -/
theorem interleave_planar_eq_map (b : Block) (quantum channels : Nat) :
    Render.interleave (b.planar quantum channels) =
      (List.range (quantum * channels)).map fun place =>
        b.sampleAt (place % channels) (place / channels) := by
  rcases Nat.eq_zero_or_pos channels with rfl | hc
  · rfl
  · rw [b.interleave_planar quantum hc, map_range_mul b.sampleAt hc]

theorem getElem?_interleave_planar (b : Block) {quantum channels i c : Nat} (hi : i < quantum)
    (hc : c < channels) :
    (Render.interleave (b.planar quantum channels))[i * channels + c]? = some (b.sampleAt c i) := by
  have hframe : (i * channels + c) / channels = i := by
    rw [Nat.mul_comm, Nat.mul_add_div (Nat.zero_lt_of_lt hc), Nat.div_eq_of_lt hc, Nat.add_zero]
  have hchannel : (i * channels + c) % channels = c := by
    rw [Nat.mul_comm, Nat.mul_add_mod, Nat.mod_eq_of_lt hc]
  rw [b.interleave_planar_eq_map, List.getElem?_map, List.getElem?_range (place_lt hi hc),
    Option.map_some, hframe, hchannel]

/-- The left channel goes to the first output and the right one to the second, as far as they
reach. -/
theorem sampleAt_eq (b : Block) (c i : Nat) : b.sampleAt c i =
    match c with
    | 0 => b.left.getD i .silence
    | 1 => b.right.getD i .silence
    | _ => .silence := by
  rcases c with _ | _ | c
  · exact (List.getD_eq_getElem?_getD ..).symm
  · exact (List.getD_eq_getElem?_getD ..).symm
  · rfl

end Block

namespace Render

theorem Run.offer_callback_quanta (run : Run) (block : Block) :
    (run.offer block).callback.quanta = run.callback.quanta + 1 := by
  rw [offer_eq]
  rfl

theorem Run.foldl_callback_quanta (blocks : List Block) (run : Run) :
    (blocks.foldl Run.offer run).callback.quanta = run.callback.quanta + blocks.length := by
  induction blocks generalizing run with
  | nil => rfl
  | cons b rest ih =>
    rw [List.foldl_cons, ih, run.offer_callback_quanta, List.length_cons]
    omega

theorem renderOffline_quanta (callback : Callback) (blocks : List Block)
    (quantum channels : Nat) : (renderOffline callback blocks quantum channels).2.quanta =
      callback.quanta + blocks.length := by
  cases blocks with
  | nil => rfl
  | cons b rest => exact Run.foldl_callback_quanta (b :: rest) (.start callback quantum channels)

/-- The first block takes the place of whatever was pending, and the last one is taken too. -/
theorem renderOffline_pending_none {blocks : List Block} (h : blocks ≠ []) (callback : Callback)
    (quantum channels : Nat) :
    (renderOffline callback blocks quantum channels).2.relay.pending = none := by
  obtain ⟨b, rest, rfl⟩ := List.exists_cons_of_ne_nil h
  have hfirst : ((Run.start callback quantum channels).offer b).callback.relay.pending = none := by
    rw [Run.offer_eq]
    rfl
  exact Run.foldl_pending rest hfirst

theorem renderOffline_samples_length (callback : Callback) (blocks : List Block)
    (quantum channels : Nat) : (renderOffline callback blocks quantum channels).1.length =
      quantum * channels * blocks.length := by
  rw [renderOffline_samples, List.length_flatMap]
  simp only [Block.interleave_planar_eq_map, List.length_map, List.length_range, List.map_const',
    List.sum_replicate_nat]
  exact Nat.mul_comm ..

theorem renderOffline_getElem? (callback : Callback) (blocks : List Block)
    {quantum channels i c : Nat} (hi : i < quantum) (hc : c < channels) (k : Nat) :
    (renderOffline callback blocks quantum channels).1[(k * quantum + i) * channels + c]? =
      blocks[k]?.map fun b => b.sampleAt c i := by
  have hlength : ∀ b ∈ blocks,
      (interleave (b.planar quantum channels)).length = quantum * channels := by
    intro b _
    rw [b.interleave_planar_eq_map, List.length_map, List.length_range]
  have hsplit : (k * quantum + i) * channels + c =
      k * (quantum * channels) + (i * channels + c) := by
    rw [Nat.add_mul, Nat.mul_assoc, Nat.add_assoc]
  rw [renderOffline_samples, hsplit, getElem?_flatMap_of_length hlength k (place_lt hi hc),
    Option.map_eq_bind]
  simp only [Block.getElem?_interleave_planar _ hi hc]
  rfl

/-- An offline run puts out one sample for each block, frame and channel, whatever state it begins
in: the left and the right channel of the block as far as they and the quantum reach, and silence
else. Each block counts as one quantum and one delivery. If there is a block, nothing is pending
afterwards, so that a block from before is heard neither in the run nor after it; if there is none,
nothing changes. -/
theorem offline_run_of_blocks (callback : Callback) (blocks : List Block)
    (quantum channels : Nat) :
    let run := renderOffline callback blocks quantum channels
    run.1.length = quantum * channels * blocks.length ∧
    (∀ (k : Nat) (b : Block), blocks[k]? = some b → ∀ i < quantum, ∀ c < channels,
      run.1[(k * quantum + i) * channels + c]? = some
        (match c with
          | 0 => b.left.getD i .silence
          | 1 => b.right.getD i .silence
          | _ => .silence)) ∧
    run.2.quanta = callback.quanta + blocks.length ∧
    run.2.delivered = callback.delivered + blocks.length ∧
    (∀ other : Callback, (renderOffline other blocks quantum channels).1 = run.1) ∧
    (blocks ≠ [] → run.2.relay.pending = none ∧
      ∀ outputs : List Channel, (run.2.processSafe outputs).outputs = silenced outputs) ∧
    (blocks = [] → run.2 = callback) := by
  intro run
  refine ⟨renderOffline_samples_length .., ?_, renderOffline_quanta .., renderOffline_delivered ..,
    ?_, ?_, ?_⟩
  · intro k b hb i hi c hc
    rw [renderOffline_getElem? callback blocks hi hc k, hb, Option.map_some, b.sampleAt_eq]
  · intro other
    rw [renderOffline_samples, renderOffline_samples]
  · intro hblocks
    have hpending := renderOffline_pending_none hblocks callback quantum channels
    refine ⟨hpending, ?_⟩
    intro outputs
    rw [Callback.processSafe_none hpending]
  · rintro rfl
    rfl

/-- A long block and a short one in quanta of two frames on three channels, while a third block is
still pending. -/
theorem offline_run_of_blocks_uneven :
    let loud : Sample := .ofBits 0x3e800000
    let soft : Sample := .ofBits 0x3d800000
    let callback : Callback := { relay := { pending := some (.mono [loud, loud]) }, quanta := 7 }
    let blocks : List Block := [⟨[soft, loud, loud], [loud, soft, loud], rfl⟩, .mono [soft]]
    let run := renderOffline callback blocks 2 3
    blocks ≠ [] ∧ run.1.length = 12 ∧
      run.1[3]? = some loud ∧ run.1[4]? = some soft ∧ run.1[5]? = some Sample.silence ∧
      run.1[6]? = some soft ∧ run.1[9]? = some Sample.silence ∧
      run.2.quanta = 9 ∧ run.2.delivered = 2 ∧ run.2.relay.pending = none := by
  intro loud soft callback blocks run
  have hblocks : blocks ≠ [] := List.cons_ne_nil _ _
  obtain ⟨hlength, hsample, hquanta, hdelivered, -, hsome, -⟩ :=
    offline_run_of_blocks callback blocks 2 3
  -- the second frame of the first block, then the first and the second frame of the other
  exact ⟨hblocks, hlength, hsample 0 _ rfl 1 (by decide) 0 (by decide),
    hsample 0 _ rfl 1 (by decide) 1 (by decide), hsample 0 _ rfl 1 (by decide) 2 (by decide),
    hsample 1 _ rfl 0 (by decide) 0 (by decide), hsample 1 _ rfl 1 (by decide) 0 (by decide),
    hquanta, hdelivered, (hsome hblocks).1⟩

end Render
end TuneRelay
