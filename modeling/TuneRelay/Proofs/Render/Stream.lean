import TuneRelay.Cli.Program
import TuneRelay.Proofs.Render.Signal
import Mathlib.Data.List.ReduceOption

/-!
# What a streamed run lets through

The ring is empty whenever a quantum begins, so of each quantum that carries a block the ring lets
through as much as it holds: all of it, unless the quantum is longer than a second.
-/
namespace TuneRelay.Render

namespace Run

/-- A quantum that finds nothing silences the buffers and leaves the rest to the next one. -/
theorem step_of_pending_none {run : Run} (h : run.callback.relay.pending = none) :
    run.step = ⟨run.callback.rested run.outputs, silenced run.outputs,
      silenced run.outputs :: run.quanta⟩ := by
  have hquantum := Callback.processSafe_none h run.outputs
  exact congrArg (fun r : Rendered => (⟨r.callback, r.outputs, r.outputs :: run.quanta⟩ : Run))
    hquantum

theorem Shaped.silenced {run : Run} {quantum channels : Nat} (h : run.Shaped quantum channels)
    (callback : Callback) (quanta : List (List Channel)) :
    (⟨callback, TuneRelay.silenced run.outputs, quanta⟩ : Run).Shaped quantum channels := by
  constructor
  · simp [TuneRelay.silenced, h.count]
  · intro channel hmem
    obtain ⟨old, hold, rfl⟩ := List.mem_map.mp hmem
    simp [Channel.silent, h.lengths old hold]

end Run

namespace Stream

/-- A quantum that finds nothing; the silence that it sends through the ring is left out. -/
def idle (s : Stream) : Stream :=
  let run := s.run.step
  { s with run, ring := (s.ring.pushAll (interleave run.outputs)).drain.2 }

/-- A quantum, with a block before it or without one. -/
def beat (s : Stream) : Option Block → Stream
  | some block => s.offer block
  | none => s.idle

/-- Between two quanta nothing waits, neither in the slot nor in the ring. -/
structure Drained (s : Stream) (quantum channels capacity : Nat) : Prop where
  shaped : s.run.Shaped quantum channels
  pending : s.run.callback.relay.pending = none
  ring : s.ring = .empty capacity

variable {s : Stream} {quantum channels capacity : Nat}

theorem drained_start {callback : Callback} (h : callback.relay.pending = none)
    (quantum channels sampleRate : Nat) :
    (start callback quantum channels sampleRate).Drained quantum channels
      (sampleRate * channels) :=
  ⟨Run.shaped_start callback quantum channels, h, rfl⟩

theorem Drained.offer (h : s.Drained quantum channels capacity) (block : Block) :
    (s.offer block).Drained quantum channels capacity := by
  refine ⟨h.shaped.offer block, Run.foldl_pending [block] h.pending, ?_⟩
  simp [Stream.offer, h.ring, Ring.drain, Ring.empty]

theorem Drained.offer_collected (h : s.Drained quantum channels capacity) (block : Block) :
    (s.offer block).collected =
      (interleave (block.planar quantum channels)).take capacity :: s.collected := by
  simp [Stream.offer, h.shaped.offer_outputs, h.ring, Ring.drain, Ring.empty]

theorem Drained.idle (h : s.Drained quantum channels capacity) :
    s.idle.Drained quantum channels capacity := by
  have hstep := Run.step_of_pending_none h.pending
  refine ⟨?_, ?_, ?_⟩
  · simp only [Stream.idle, hstep]
    exact h.shaped.silenced _ _
  · simp only [Stream.idle, hstep]
    exact h.pending
  · simp [Stream.idle, h.ring, Ring.drain, Ring.empty]

theorem Drained.foldl_collected (h : s.Drained quantum channels capacity)
    (beats : List (Option Block)) : (beats.foldl beat s).collected.reverse.flatten =
      s.collected.reverse.flatten ++ beats.reduceOption.flatMap fun b =>
        (interleave (b.planar quantum channels)).take capacity := by
  induction beats generalizing s with
  | nil => simp
  | cons next rest ih =>
    cases next with
    | none => exact ih h.idle
    | some block =>
      rw [List.foldl_cons, beat, ih (h.offer block), h.offer_collected block]
      simp

end Stream

/-- What is collected of quanta with a block and quanta without one, in any order, if the ring is
drained after each. -/
def streamed (callback : Callback) (beats : List (Option Block))
    (quantum channels sampleRate : Nat) : List Sample :=
  (beats.foldl Stream.beat (.start callback quantum channels sampleRate)).collected.reverse.flatten

variable {callback : Callback}

theorem streamed_eq (h : callback.relay.pending = none) (beats : List (Option Block))
    (quantum channels sampleRate : Nat) : streamed callback beats quantum channels sampleRate =
      beats.reduceOption.flatMap fun b =>
        (interleave (b.planar quantum channels)).take (sampleRate * channels) := by
  have hall := (Stream.drained_start h quantum channels sampleRate).foldl_collected beats
  exact hall.trans (List.nil_append _)

theorem foldl_beat_some (blocks : List Block) (s : Stream) :
    (blocks.map some).foldl Stream.beat s = blocks.foldl Stream.offer s := by
  rw [List.foldl_map]
  rfl

theorem renderStream_samples (callback : Callback) (blocks : List Block)
    (quantum channels sampleRate : Nat) :
    (renderStream callback blocks quantum channels sampleRate).1 =
      streamed callback (blocks.map some) quantum channels sampleRate := by
  rw [streamed, foldl_beat_some]
  cases blocks with
  | nil => rfl
  | cons b rest => rfl

/-- Prefixes of equally long parts make up the same as the parts only if they are the parts. -/
theorem flatMap_take_eq_iff {α β : Type} {f : α → List β} {length : Nat} {l : List α}
    (h : ∀ a ∈ l, (f a).length = length) (n : Nat) :
    (l.flatMap fun a => (f a).take n) = l.flatMap f ↔ l = [] ∨ length ≤ n := by
  constructor
  · intro heq
    have htaken : ∀ a ∈ l, ((f a).take n).length = min n length := by
      intro a ha
      rw [List.length_take, h a ha]
    have hlengths := congrArg List.length heq
    rw [List.length_flatMap, List.length_flatMap, List.map_congr_left htaken,
      List.map_congr_left h] at hlengths
    simp only [List.map_const', List.sum_replicate_nat] at hlengths
    rcases Nat.eq_zero_or_pos l.length with hnil | hpos
    · exact .inl (List.eq_nil_of_length_eq_zero hnil)
    · have hmin := Nat.eq_of_mul_eq_mul_left hpos hlengths
      exact .inr (by omega)
  · rintro (rfl | hle)
    · rfl
    · refine List.flatMap_congr fun a ha => ?_
      rw [List.take_of_length_le (by rw [h a ha]; exact hle)]

/-- A stream with a ring of one second passes on as much of each quantum as the ring holds. Under a
valid configuration this is what an offline run of its blocks puts out exactly if no quantum is
longer than a second, or there is none. -/
theorem stream_keeps_one_second (config : Config) (hvalid : config.validate = .ok ())
    (beats : List (Option Block)) :
    let quantum := config.render.quantum
    let channels := config.render.channels
    let rate := config.render.sampleRate
    let blocks := beats.reduceOption
    let heard := streamed {} beats quantum channels rate
    (heard = blocks.flatMap fun b =>
      (renderOffline {} [b] quantum channels).1.take (rate * channels)) ∧
    (heard = (renderOffline {} blocks quantum channels).1 ↔ blocks = [] ∨ quantum ≤ rate) ∧
    Cli.renderSamples config true blocks = heard := by
  intro quantum channels rate blocks heard
  obtain ⟨-, -, hc, -, -⟩ := Config.validate_eq_ok_iff.mp hvalid
  have hheard : heard = blocks.flatMap fun b =>
      (interleave (b.planar quantum channels)).take (rate * channels) :=
    streamed_eq rfl beats quantum channels rate
  have hone (b : Block) :
      (renderOffline {} [b] quantum channels).1 = interleave (b.planar quantum channels) := by
    rw [renderOffline_samples, List.flatMap_singleton]
  refine ⟨?_, ?_, ?_⟩
  · simp only [hone]
    exact hheard
  · rw [hheard, renderOffline_samples,
      flatMap_take_eq_iff (fun b _ => interleave_planar_length b quantum hc),
      Nat.mul_le_mul_right_iff hc]
  · have hsome : (blocks.map some).reduceOption = blocks := by
      simp [List.reduceOption, List.filterMap_map]
    have hsame : streamed {} (blocks.map some) quantum channels rate = heard := by
      rw [streamed_eq rfl, hsome, hheard]
    exact (renderStream_samples {} blocks quantum channels rate).trans hsame

/-- Quanta of two frames and of three, at two frames a second: only the first ones arrive whole. -/
theorem stream_keeps_one_second_or_less :
    let loud : Sample := .ofBits 0x3e800000
    let config (quantum : Nat) : Config := { render := { sampleRate := 2, quantum, channels := 1 } }
    let beats (quantum : Nat) : List (Option Block) :=
      [none, some (.mono (List.replicate quantum loud)), none]
    (config 2).validate = .ok () ∧ (config 3).validate = .ok () ∧
      streamed {} (beats 2) 2 1 2 = (renderOffline {} (beats 2).reduceOption 2 1).1 ∧
      streamed {} (beats 3) 3 1 2 ≠ (renderOffline {} (beats 3).reduceOption 3 1).1 := by
  intro loud config beats
  have hshort : (config 2).validate = .ok () := by decide
  have hlong : (config 3).validate = .ok () := by decide
  obtain ⟨-, hwhole, -⟩ := stream_keeps_one_second (config 2) hshort (beats 2)
  obtain ⟨-, hcut, -⟩ := stream_keeps_one_second (config 3) hlong (beats 3)
  refine ⟨hshort, hlong, hwhole.mpr (.inr (Nat.le_refl 2)), ?_⟩
  intro heq
  rcases hcut.mp heq with hnone | hle
  · cases hnone
  · exact absurd hle (by decide)

end TuneRelay.Render
