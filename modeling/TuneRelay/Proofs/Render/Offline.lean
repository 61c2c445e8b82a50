import TuneRelay.Proofs.Relay.Delivery
import TuneRelay.Render
import Mathlib.Data.List.Basic

/-!
# What an offline run puts out

The buffers of a run keep their lengths, and nothing of what a quantum held before stays in them. So
a run puts out its blocks one after the other, each as it would go into silent buffers, and every
block is taken by the quantum after it.
-/
namespace TuneRelay

namespace Block

/-- A quantum into which the block has gone. -/
def planar (b : Block) (quantum channels : Nat) : List Channel :=
  (List.range channels).map fun k => b.heard k quantum

@[simp] theorem heard_length (b : Block) (k length : Nat) : (b.heard k length).length = length := by
  simp [heard]

/-- What buffers of the length of a quantum held before does not matter. -/
theorem heardPlanar_eq_planar {outputs : List Channel} {quantum : Nat}
    (h : ∀ channel ∈ outputs, channel.length = quantum) (b : Block) :
    b.heardPlanar outputs = b.planar quantum outputs.length := by
  apply List.ext_getElem
  · simp [heardPlanar, planar]
  · intro k hk hk'
    have hlen : k < outputs.length := by simpa [heardPlanar] using hk
    simp [heardPlanar, planar, h outputs[k] (List.getElem_mem hlen)]

/-- The frames of a quantum in time order, each with one sample for each channel. -/
theorem interleave_planar (b : Block) (quantum : Nat) {channels : Nat} (hc : 0 < channels) :
    Render.interleave (b.planar quantum channels) =
      (List.range quantum).flatMap fun i => (List.range channels).map fun k => b.sampleAt k i := by
  have hframes : ((b.planar quantum channels).headD []).length = quantum := by
    obtain ⟨others, rfl⟩ := Nat.exists_eq_succ_of_ne_zero (Nat.ne_of_gt hc)
    simp [planar, List.range_succ_eq_map]
  have hframe (i : Nat) (hi : i ∈ List.range quantum) :
      (((b.planar quantum channels).map List.toArray).map fun samples =>
          samples.getD i Sample.silence) =
        (List.range channels).map fun k => b.sampleAt k i := by
    have hi : i < quantum := List.mem_range.mp hi
    simp [planar, heard, hi]
  rw [Render.interleave, hframes]
  exact List.flatMap_congr hframe

end Block

namespace Render

/-- The callback when a block waits for it. -/
def Callback.awaiting (cb : Callback) (block : Block) : Callback :=
  { cb with relay := cb.relay.publish block }

namespace Run

theorem offer_eq (run : Run) (block : Block) :
    run.offer block = ⟨(run.callback.awaiting block).played block run.outputs,
      block.heardPlanar run.outputs, block.heardPlanar run.outputs :: run.quanta⟩ := by
  have hpending : (run.callback.awaiting block).relay.pending = some block := rfl
  have hquantum := Callback.processSafe_some hpending run.outputs
  exact congrArg (fun r : Rendered => (⟨r.callback, r.outputs, r.outputs :: run.quanta⟩ : Run))
    hquantum

/-- The buffers of a run: as many as there are channels, each as long as a quantum. -/
structure Shaped (run : Run) (quantum channels : Nat) : Prop where
  count : run.outputs.length = channels
  lengths : ∀ channel ∈ run.outputs, channel.length = quantum

theorem shaped_start (callback : Callback) (quantum channels : Nat) :
    (start callback quantum channels).Shaped quantum channels := by
  refine ⟨by simp [start], ?_⟩
  intro channel hmem
  obtain rfl : channel = Channel.silent quantum := (List.mem_replicate.mp hmem).2
  simp [Channel.silent]

variable {run : Run} {quantum channels : Nat}

theorem Shaped.offer_outputs (h : run.Shaped quantum channels) (block : Block) :
    (run.offer block).outputs = block.planar quantum channels := by
  rw [offer_eq, ← h.count]
  exact Block.heardPlanar_eq_planar h.lengths block

theorem Shaped.offer_quanta (h : run.Shaped quantum channels) (block : Block) :
    (run.offer block).quanta = block.planar quantum channels :: run.quanta := by
  rw [← h.offer_outputs block, offer_eq]

theorem Shaped.offer (h : run.Shaped quantum channels) (block : Block) :
    (run.offer block).Shaped quantum channels := by
  constructor
  · simp [h.offer_outputs, Block.planar]
  · intro channel hmem
    rw [h.offer_outputs] at hmem
    obtain ⟨k, -, rfl⟩ := List.mem_map.mp hmem
    exact block.heard_length k quantum

theorem Shaped.foldl_quanta (h : run.Shaped quantum channels) (blocks : List Block) :
    (blocks.foldl Run.offer run).quanta.reverse =
      run.quanta.reverse ++ blocks.map fun b => b.planar quantum channels := by
  induction blocks generalizing run with
  | nil => simp
  | cons b rest ih => simp [ih (h.offer b), h.offer_quanta]

theorem foldl_delivered (blocks : List Block) (run : Run) :
    (blocks.foldl Run.offer run).callback.delivered =
      run.callback.delivered + blocks.length := by
  induction blocks generalizing run with
  | nil => rfl
  | cons b rest ih =>
    have hb : (run.offer b).callback.delivered = run.callback.delivered + 1 := by
      rw [offer_eq]
      rfl
    rw [List.foldl_cons, ih, hb, List.length_cons]
    omega

/-- A quantum after each block leaves no block behind. -/
theorem foldl_pending (blocks : List Block) {run : Run} (h : run.callback.relay.pending = none) :
    (blocks.foldl Run.offer run).callback.relay.pending = none := by
  induction blocks generalizing run with
  | nil => exact h
  | cons b rest ih =>
    have hb : (run.offer b).callback.relay.pending = none := by
      rw [offer_eq]
      rfl
    exact ih hb

end Run

theorem renderOffline_samples (callback : Callback) (blocks : List Block)
    (quantum channels : Nat) : (renderOffline callback blocks quantum channels).1 =
      blocks.flatMap fun b => interleave (b.planar quantum channels) := by
  cases blocks with
  | nil => rfl
  | cons b rest =>
    have hquanta := (Run.shaped_start callback quantum channels).foldl_quanta (b :: rest)
    simp only [renderOffline, hquanta]
    simp [Run.start, List.flatMap, Function.comp_def]

theorem renderOffline_delivered (callback : Callback) (blocks : List Block)
    (quantum channels : Nat) : (renderOffline callback blocks quantum channels).2.delivered =
      callback.delivered + blocks.length := by
  cases blocks with
  | nil => rfl
  | cons b rest => exact Run.foldl_delivered (b :: rest) (.start callback quantum channels)

theorem renderOffline_pending {callback : Callback} (h : callback.relay.pending = none)
    (blocks : List Block) (quantum channels : Nat) :
    (renderOffline callback blocks quantum channels).2.relay.pending = none := by
  cases blocks with
  | nil => exact h
  | cons b rest => exact Run.foldl_pending (b :: rest) h

end Render
end TuneRelay
