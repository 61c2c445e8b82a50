import TuneRelay.Cli.Program
import TuneRelay.Proofs.Engine.Playback
import TuneRelay.Proofs.Render.Offline
import Mathlib.Algebra.Order.Floor.Div

/-!
# From the signal of an engine to the samples of a file

A signal is cut into blocks, each block passes the relay, and the quanta are interleaved. Read back
channel by channel, the samples are the signal and less than one quantum of silence after it.
-/
namespace TuneRelay

namespace Block

theorem heard_mono {k : Nat} (hk : k < 2) (samples : Channel) :
    (mono samples).heard k samples.length = samples := by
  have hsource : (mono samples).source k = some samples := by
    rcases k with _ | _ | k
    · rfl
    · rfl
    · omega
  rw [heard_of_some hsource]
  simp [Channel.silent]

end Block

namespace Render

/-- The samples of one channel out of interleaved ones, as far as there are whole frames. -/
def readBack (channels k : Nat) (samples : List Sample) : Channel :=
  (List.range (samples.length / channels)).filterMap fun i => samples[i * channels + k]?

variable {channels k : Nat}

theorem readBack_append (hk : k < channels) {first : List Sample} {frames : Nat}
    (h : first.length = frames * channels) (rest : List Sample) :
    readBack channels k (first ++ rest) =
      readBack channels k first ++ readBack channels k rest := by
  have hc : 0 < channels := Nat.zero_lt_of_lt hk
  have hfirst : first.length / channels = frames := by rw [h, Nat.mul_div_cancel _ hc]
  have hboth : (first ++ rest).length / channels = frames + rest.length / channels := by
    rw [List.length_append, h, Nat.mul_comm, Nat.mul_add_div hc]
  have hhead : ∀ i ∈ List.range frames,
      (first ++ rest)[i * channels + k]? = first[i * channels + k]? := by
    intro i hi
    have hlast : (i + 1) * channels ≤ frames * channels :=
      Nat.mul_le_mul_right channels (List.mem_range.mp hi)
    rw [Nat.add_mul, Nat.one_mul] at hlast
    exact List.getElem?_append_left (by omega)
  have htail (i : Nat) :
      (first ++ rest)[(frames + i) * channels + k]? = rest[i * channels + k]? := by
    have hshift : (frames + i) * channels + k = first.length + (i * channels + k) := by
      rw [h, Nat.add_mul, Nat.add_assoc]
    rw [hshift, List.getElem?_append_right (by omega), Nat.add_sub_cancel_left]
  rw [readBack, hboth, List.range_add, List.filterMap_append, List.filterMap_congr hhead,
    List.filterMap_map, readBack, hfirst, readBack]
  simp only [Function.comp_def, htail]

theorem readBack_nil (channels k : Nat) : readBack channels k [] = [] := by
  simp [readBack]

theorem readBack_flatMap (hk : k < channels) {α : Type} {f : α → List Sample} {frames : Nat}
    (l : List α) (h : ∀ a ∈ l, (f a).length = frames * channels) :
    readBack channels k (l.flatMap f) = l.flatMap fun a => readBack channels k (f a) := by
  induction l with
  | nil => exact readBack_nil channels k
  | cons a rest ih =>
    have ha := h a List.mem_cons_self
    have hrest := ih fun b hb => h b (List.mem_cons_of_mem a hb)
    rw [List.flatMap_cons, List.flatMap_cons, readBack_append hk ha, hrest]

theorem readBack_frame (hk : k < channels) (f : Nat → Sample) :
    readBack channels k ((List.range channels).map f) = [f k] := by
  have hone : channels / channels = 1 := Nat.div_self (Nat.zero_lt_of_lt hk)
  simp [readBack, hone, List.range_succ, hk]

theorem interleave_planar_length (b : Block) (quantum : Nat) (hc : 0 < channels) :
    (interleave (b.planar quantum channels)).length = quantum * channels := by
  rw [b.interleave_planar quantum hc]
  simp [List.length_flatMap]

/-- An interleaved quantum still holds what went into each of its channels. -/
theorem readBack_interleave (hk : k < channels) (b : Block) (quantum : Nat) :
    readBack channels k (interleave (b.planar quantum channels)) = b.heard k quantum := by
  have hlength : ∀ i ∈ List.range quantum,
      ((List.range channels).map fun j => b.sampleAt j i).length = 1 * channels := by simp
  rw [b.interleave_planar quantum (Nat.zero_lt_of_lt hk), readBack_flatMap hk _ hlength]
  simp only [readBack_frame hk, Block.heard]
  exact List.flatMap_pure_eq_map (b.sampleAt k) (List.range quantum)

theorem renderOffline_length (callback : Callback) (blocks : List Block) (quantum : Nat)
    (hc : 0 < channels) : (renderOffline callback blocks quantum channels).1.length =
      blocks.length * quantum * channels := by
  rw [renderOffline_samples, List.length_flatMap]
  simp only [interleave_planar_length _ _ hc]
  simp [Nat.mul_assoc]

theorem readBack_renderOffline (hk : k < channels) (callback : Callback) (blocks : List Block)
    (quantum : Nat) : readBack channels k (renderOffline callback blocks quantum channels).1 =
      blocks.flatMap fun b => b.heard k quantum := by
  have hc : 0 < channels := Nat.zero_lt_of_lt hk
  have hlength : ∀ b ∈ blocks,
      (interleave (b.planar quantum channels)).length = quantum * channels :=
    fun b _ => interleave_planar_length b quantum hc
  rw [renderOffline_samples, readBack_flatMap hk blocks hlength]
  simp only [readBack_interleave hk]

end Render

namespace Engine.ToneEngine

/-- A piece of a signal, filled up with silence to a quantum. -/
def fillUp (quantum : Nat) (piece : Channel) : Channel :=
  piece ++ Channel.silent (quantum - piece.length)

/-- The first so many pieces of a signal. -/
def slices (quantum : Nat) (signal : Channel) (count : Nat) : List Channel :=
  (List.range count).map fun k => fillUp quantum ((signal.drop (k * quantum)).take quantum)

theorem slices_succ (quantum : Nat) (signal : Channel) (count : Nat) :
    slices quantum signal (count + 1) =
      fillUp quantum (signal.take quantum) :: slices quantum (signal.drop quantum) count := by
  have hshift (k : Nat) : quantum + k * quantum = (k + 1) * quantum := by
    rw [Nat.add_mul, Nat.one_mul, Nat.add_comm]
  simp [slices, List.range_succ_eq_map, Function.comp_def, List.drop_drop, hshift]

theorem length_of_mem_slices {quantum count : Nat} {signal slice : Channel}
    (h : slice ∈ slices quantum signal count) : slice.length = quantum := by
  obtain ⟨k, -, rfl⟩ := List.mem_map.mp h
  have hpiece := List.length_take_le quantum (signal.drop (k * quantum))
  simp only [fillUp, Channel.silent, List.length_append, List.length_replicate]
  omega

/-- Enough pieces hold the whole signal in order, and then only silence. -/
theorem flatten_slices {quantum count : Nat} {signal : Channel}
    (h : signal.length ≤ count * quantum) : (slices quantum signal count).flatten =
      signal ++ Channel.silent (count * quantum - signal.length) := by
  induction count generalizing signal with
  | zero =>
    obtain rfl : signal = [] := by simpa using h
    simp [slices, Channel.silent]
  | succ count ih =>
    have hsplit : (count + 1) * quantum = count * quantum + quantum := by
      rw [Nat.add_mul, Nat.one_mul]
    rw [hsplit] at h ⊢
    have hdrop : (signal.drop quantum).length ≤ count * quantum := by
      rw [List.length_drop]
      omega
    have hrest := ih hdrop
    rw [slices_succ, List.flatten_cons, hrest, List.length_drop]
    by_cases hlong : quantum ≤ signal.length
    · have hfull : fillUp quantum (signal.take quantum) = signal.take quantum := by
        simp [fillUp, Channel.silent, hlong]
      have hrest' : count * quantum - (signal.length - quantum) =
          count * quantum + quantum - signal.length := by omega
      rw [hfull, ← List.append_assoc, List.take_append_drop, hrest']
    · have hshort : signal.length ≤ quantum := Nat.le_of_not_le hlong
      have hsilence : Channel.silent (quantum - signal.length) ++ Channel.silent (count * quantum) =
          Channel.silent (count * quantum + quantum - signal.length) := by
        rw [Channel.silent, Channel.silent, Channel.silent, List.replicate_append_replicate]
        congr 1
        omega
      rw [List.take_of_length_le hshort, List.drop_eq_nil_of_le hshort, fillUp, List.nil_append,
        Nat.sub_eq_zero_of_le hshort, Nat.sub_zero, List.append_assoc, hsilence]

theorem ceilDiv_mul_bounds (n : Nat) {quantum : Nat} (hq : 0 < quantum) :
    n ≤ n ⌈/⌉ quantum * quantum ∧ n ⌈/⌉ quantum * quantum - n < quantum := by
  have hdiv := Nat.div_add_mod (n + quantum - 1) quantum
  have hmod := Nat.mod_lt (n + quantum - 1) hq
  rw [Nat.ceilDiv_eq_add_pred_div, Nat.mul_comm]
  omega

theorem sliceBlocks_eq (e : ToneEngine) (signal : Channel) : e.sliceBlocks signal =
    (slices e.quantum signal (signal.length ⌈/⌉ e.quantum)).map Block.mono := by
  have hpiece (k : Nat) : (signal.toArray.extract (k * e.quantum) ((k + 1) * e.quantum)).toList =
      (signal.drop (k * e.quantum)).take e.quantum := by
    have hlength : (k + 1) * e.quantum - k * e.quantum = e.quantum := by
      rw [Nat.add_mul, Nat.one_mul, Nat.add_sub_cancel_left]
    rw [Array.toList_extract, List.extract_eq_take_drop, hlength]
  simp only [sliceBlocks, hpiece, slices, List.map_map, Nat.ceilDiv_eq_add_pred_div]
  rfl

theorem length_sliceBlocks (e : ToneEngine) (signal : Channel) :
    (e.sliceBlocks signal).length = signal.length ⌈/⌉ e.quantum := by
  rw [sliceBlocks_eq]
  simp [slices]

theorem mono_of_mem_sliceBlocks {e : ToneEngine} {signal : Channel} {b : Block}
    (h : b ∈ e.sliceBlocks signal) : b.length = e.quantum ∧ b.left = b.right := by
  rw [sliceBlocks_eq] at h
  obtain ⟨slice, hslice, rfl⟩ := List.mem_map.mp h
  exact ⟨length_of_mem_slices hslice, rfl⟩

theorem heard_sliceBlocks (e : ToneEngine) (signal : Channel) {k : Nat} (hk : k < 2) :
    ((e.sliceBlocks signal).flatMap fun b => b.heard k e.quantum) =
      (slices e.quantum signal (signal.length ⌈/⌉ e.quantum)).flatten := by
  have hheard : ∀ slice ∈ slices e.quantum signal (signal.length ⌈/⌉ e.quantum),
      (Block.mono slice).heard k e.quantum = slice := by
    intro slice hslice
    rw [← length_of_mem_slices hslice]
    exact Block.heard_mono hk slice
  rw [sliceBlocks_eq, List.flatMap_map, List.flatMap_congr hheard, List.flatMap_id']

theorem unheard_sliceBlocks (e : ToneEngine) (signal : Channel) {k : Nat} (hk : 2 ≤ k) :
    ((e.sliceBlocks signal).flatMap fun b => b.heard k e.quantum) =
      Channel.silent (signal.length ⌈/⌉ e.quantum * e.quantum) := by
  rw [← length_sliceBlocks]
  simp only [Block.heard_of_two_le _ hk]
  generalize e.sliceBlocks signal = blocks
  induction blocks with
  | nil => simp [Channel.silent]
  | cons b rest ih =>
    rw [List.flatMap_cons, ih, List.length_cons, Nat.add_mul, Nat.one_mul, Nat.add_comm]
    exact List.replicate_append_replicate

end Engine.ToneEngine

/-- Interleaved samples that carry a signal: the first two channels hold it and then less than a
quantum of silence, and all others are silent. -/
structure Carries (samples : List Sample) (signal : Channel) (quantum channels : Nat) : Prop where
  length_eq : samples.length = signal.length ⌈/⌉ quantum * quantum * channels
  heard : ∃ rest < quantum, ∀ k < 2, k < channels →
    Render.readBack channels k samples = signal ++ Channel.silent rest
  unheard : ∀ k, 2 ≤ k → k < channels →
    Render.readBack channels k samples = Channel.silent (signal.length ⌈/⌉ quantum * quantum)

open Engine Render

theorem carries_renderOffline (e : ToneEngine) (hq : 0 < e.quantum) {channels : Nat}
    (hc : 0 < channels) (callback : Callback) (signal : Channel) :
    Carries (renderOffline callback (e.sliceBlocks signal) e.quantum channels).1 signal e.quantum
      channels := by
  obtain ⟨hle, hlt⟩ := ToneEngine.ceilDiv_mul_bounds signal.length hq
  refine ⟨?_, ⟨_, hlt, ?_⟩, ?_⟩
  · rw [renderOffline_length callback _ e.quantum hc, e.length_sliceBlocks]
  · intro k hk hkc
    rw [readBack_renderOffline hkc, e.heard_sliceBlocks signal hk, ToneEngine.flatten_slices hle]
  · intro k hk hkc
    rw [readBack_renderOffline hkc, e.unheard_sliceBlocks signal hk]

theorem delivered_renderOffline_fresh (facts : Option (Ring FactId)) (blocks : List Block)
    (quantum channels : Nat) :
    (renderOffline { facts } blocks quantum channels).2.delivered = blocks.length := by
  rw [renderOffline_delivered]
  exact Nat.zero_add blocks.length

open Cli

theorem engineOf_quantum (functions : Sample.Elementary) {config : Config}
    (h : config.validate = .ok ()) :
    (engineOf functions config).quantum = config.render.quantum := by
  have hq : 0 < config.render.quantum := (Config.validate_eq_ok_iff.mp h).2.1
  exact Nat.max_eq_left hq

/-- What rendering plans to write is made of a signal. -/
theorem planRender_eq_ok {lib : Libraries} {config : Config} {input output : String}
    {bytes : List UInt8} {plan : Plan}
    (h : planRender lib config input output false bytes = .ok plan) :
    ∃ tempo notes signal text,
      ((engineOf lib.functions config).notesOf (payloadOf bytes)).value = .ok (tempo, notes) ∧
      (engineOf lib.functions config).renderNotes tempo notes = .ok signal ∧
      plan = .write output (lib.wave config.render.channels config.render.sampleRate
        (renderOffline {} ((engineOf lib.functions config).sliceBlocks signal) config.render.quantum
          config.render.channels).1) .wave text := by
  unfold planRender at h
  split at h
  · cases h
  · rename_i blocks hblocks
    rw [blocksOf_eq] at hblocks
    obtain ⟨tempo, notes, signal, hnotes, hsignal, rfl⟩ := ToneEngine.value_perform_ok hblocks
    cases h
    exact ⟨tempo, notes, signal, _, hnotes, hsignal, rfl⟩

/-- A signal goes through blocks, relay and interleaving without a sample lost, repeated or moved.
Under a valid configuration, that is what every offline rendering hands to the encoder of its wave
file. -/
theorem signal_reaches_output :
    (∀ (e : ToneEngine) (signal : Channel) (facts : Option (Ring FactId)) (channels : Nat),
      0 < e.quantum → 0 < channels →
      let blocks := e.sliceBlocks signal
      let run := renderOffline { facts } blocks e.quantum channels
      blocks.length = signal.length ⌈/⌉ e.quantum ∧
      (∀ b ∈ blocks, b.length = e.quantum ∧ b.left = b.right) ∧
      Carries run.1 signal e.quantum channels ∧
      run.2.delivered = blocks.length ∧ run.2.relay.pending = none) ∧
    ∀ (lib : Libraries) (config : Config), config.validate = .ok () →
      (engineOf lib.functions config).quantum = config.render.quantum ∧
      ∀ input output bytes plan, planRender lib config input output false bytes = .ok plan →
        ∃ tempo notes signal text,
          let quantum := config.render.quantum
          let channels := config.render.channels
          let blocks := (engineOf lib.functions config).sliceBlocks signal
          let run := renderOffline {} blocks quantum channels
          ((engineOf lib.functions config).notesOf (payloadOf bytes)).value = .ok (tempo, notes) ∧
          (engineOf lib.functions config).renderNotes tempo notes = .ok signal ∧
          plan = .write output (lib.wave channels config.render.sampleRate run.1) .wave text ∧
          Carries run.1 signal quantum channels ∧
          run.2.delivered = blocks.length ∧ run.2.relay.pending = none := by
  constructor
  · intro e signal facts channels hq hc blocks run
    exact ⟨e.length_sliceBlocks signal, fun b hb => ToneEngine.mono_of_mem_sliceBlocks hb,
      carries_renderOffline e hq hc _ signal, delivered_renderOffline_fresh facts blocks _ _,
      renderOffline_pending rfl blocks _ _⟩
  · intro lib config hvalid
    obtain ⟨-, hq, hc, -, -⟩ := Config.validate_eq_ok_iff.mp hvalid
    have hquantum := engineOf_quantum lib.functions hvalid
    refine ⟨hquantum, ?_⟩
    intro input output bytes plan hplan
    obtain ⟨tempo, notes, signal, text, hnotes, hsignal, rfl⟩ := planRender_eq_ok hplan
    have hpos : 0 < (engineOf lib.functions config).quantum := by rw [hquantum]; exact hq
    have hcarries := carries_renderOffline (engineOf lib.functions config) hpos hc {} signal
    rw [hquantum] at hcarries
    exact ⟨tempo, notes, signal, text, hnotes, hsignal, rfl, hcarries,
      delivered_renderOffline_fresh none _ _ _, renderOffline_pending rfl _ _ _⟩

/-- Three samples in quanta of two, on three channels; and the wave file of the text `T60rcr`. -/
theorem signal_reaches_output_uneven :
    let engine : ToneEngine := .new 8000 2
    let signal : Channel := [.ofBits 0x3e800000, .ofBits 0xbe800000, .ofBits 0x3f000000]
    let config : Config := { render := { sampleRate := 1, quantum := 2, channels := 3 } }
    let bytes : List UInt8 := [84, 54, 48, 114, 99, 114]
    (0 < engine.quantum ∧ (engine.sliceBlocks signal).length = 2 ∧
      Carries (renderOffline {} (engine.sliceBlocks signal) 2 3).1 signal 2 3) ∧
    config.validate = .ok () ∧
    ∃ plan, planRender .standard config "rests.mml" "rests.wav" false bytes = .ok plan ∧
      ∃ signal samples text, Carries samples signal 2 3 ∧
        plan = .write "rests.wav" (Wave.encode 3 1 samples) .wave text := by
  intro engine signal config bytes
  have hvalid : config.validate = .ok () := by decide
  have hplanned :
      (planRender .standard config "rests.mml" "rests.wav" false bytes).isOk = true := by
    decide +kernel
  obtain ⟨hlength, -, hcarries, -, -⟩ :=
    signal_reaches_output.1 engine signal none 3 (by decide) (by decide)
  refine ⟨⟨by decide, hlength.trans (by decide), hcarries⟩, hvalid, ?_⟩
  cases hplan : planRender .standard config "rests.mml" "rests.wav" false bytes with
  | error fault =>
    rw [hplan] at hplanned
    cases hplanned
  | ok plan =>
    obtain ⟨-, hfiles⟩ := signal_reaches_output.2 .standard config hvalid
    obtain ⟨_, _, played, text, -, -, hwritten, hheard, -, -⟩ := hfiles _ _ _ _ hplan
    exact ⟨plan, rfl, played, _, text, hheard, hwritten⟩

end TuneRelay
