import TuneRelay.Engine
import TuneRelay.Proofs.Numeric.Order
import Mathlib.Logic.Function.Iterate

/-!
# The slots of a performance

Every note fills a slot of its own, and all slots are equally long. What a slot holds depends on its
note and on the phase at its beginning; only tones move the phase on, so that rests can be put in or
left out without a change to any tone.
-/
namespace TuneRelay.Engine
open Numeric

theorem frequency_eq_none_iff {functions : Sample.Elementary} {note : Note} :
    frequency functions note = none ↔ note.isRest = true := by
  rw [frequency, Option.map_eq_none_iff]
  cases note <;> decide

namespace Oscillator

/-- The phase after one more sample. -/
def next (step phase : Sample) : Sample := Sample.remainder (phase + step) turn

variable (sine : Sample → Sample) (step amplitude : Sample)

/-- Samples with levels of their own are added in order, each with its phase. -/
theorem foldl_emit (level : Nat → Sample) (frames : Nat) (o : Oscillator) :
    (List.range frames).foldl (fun o i => o.emit sine step amplitude (level i)) o =
      ⟨(next step)^[frames] o.phase, ((List.range frames).map fun i =>
        sine ((next step)^[i] o.phase) * amplitude * level i).reverse ++ o.signal⟩ := by
  induction frames with
  | zero => rfl
  | succ n ih =>
    rw [List.range_succ, List.foldl_append, ih, List.foldl_cons, List.foldl_nil, emit,
      Function.iterate_succ_apply', List.map_append, List.reverse_append]
    rfl

end Oscillator

namespace ToneEngine

variable (e : ToneEngine) (frames : Nat)

/-- The phase of a tone turns so far with every sample. -/
def step (pitch : Sample) : Sample := turn * pitch / .ofNat e.sampleRate

/-- The samples of a tone from a phase on. -/
def tone (pitch phase : Sample) : Channel :=
  (List.range frames).map fun i =>
    e.functions.sine ((Oscillator.next (e.step pitch))^[i] phase) * e.amplitude *
      envelope frames (e.fadeFrames frames) i

/-- What a note sounds like from a phase on. -/
def sound (phase : Sample) (note : Note) : Channel :=
  match frequency e.functions note with
  | none => Channel.silent frames
  | some pitch => e.tone frames pitch phase

/-- The phase that a note leaves. -/
def turned (phase : Sample) (note : Note) : Sample :=
  match frequency e.functions note with
  | none => phase
  | some pitch => (Oscillator.next (e.step pitch))^[frames] phase

theorem addNote_eq (o : Oscillator) (note : Note) : e.addNote frames o note =
    ⟨e.turned frames o.phase note, (e.sound frames o.phase note).reverse ++ o.signal⟩ := by
  unfold addNote turned sound
  cases frequency e.functions note with
  | none => simp [Oscillator.rest, Channel.silent]
  | some pitch => exact Oscillator.foldl_emit _ _ _ _ frames o

theorem sound_rest {note : Note} (h : note.isRest = true) (phase : Sample) :
    e.sound frames phase note = Channel.silent frames := by
  rw [sound, frequency_eq_none_iff.mpr h]

theorem turned_rest {note : Note} (h : note.isRest = true) (phase : Sample) :
    e.turned frames phase note = phase := by
  rw [turned, frequency_eq_none_iff.mpr h]

theorem sound_length (phase : Sample) (note : Note) :
    (e.sound frames phase note).length = frames := by
  unfold sound
  split
  · simp [Channel.silent]
  · simp [tone]

theorem addNote_length (o : Oscillator) (note : Note) :
    (e.addNote frames o note).signal.length = frames + o.signal.length := by
  rw [addNote_eq, List.length_append, List.length_reverse, sound_length]

/-- The slots of notes, one after the other, from a phase on. -/
def slots : Sample → List Note → List Channel
  | _, [] => []
  | phase, note :: rest =>
    e.sound frames phase note :: slots (e.turned frames phase note) rest

theorem slots_length (phase : Sample) (notes : List Note) :
    (e.slots frames phase notes).length = notes.length := by
  induction notes generalizing phase with
  | nil => rfl
  | cons note rest ih => rw [slots, List.length_cons, ih, List.length_cons]

theorem length_of_mem_slots {phase : Sample} {notes : List Note} {slot : Channel}
    (h : slot ∈ e.slots frames phase notes) : slot.length = frames := by
  induction notes generalizing phase with
  | nil => cases h
  | cons note rest ih =>
    rcases List.mem_cons.mp h with rfl | hrest
    · exact e.sound_length frames phase note
    · exact ih hrest

theorem slots_flatten_length (phase : Sample) (notes : List Note) :
    (e.slots frames phase notes).flatten.length = notes.length * frames := by
  induction notes generalizing phase with
  | nil => simp [slots]
  | cons note rest ih =>
    rw [slots, List.flatten_cons, List.length_append, ih, sound_length,
      List.length_cons, Nat.add_mul, Nat.one_mul, Nat.add_comm]

/-- The slot of a note is what it sounds like at the phase that the notes before it leave. -/
theorem getElem?_slots (phase : Sample) (notes : List Note) (k : Nat) :
    (e.slots frames phase notes)[k]? = notes[k]?.map
      (e.sound frames ((notes.take k).foldl (e.turned frames) phase)) := by
  induction notes generalizing phase k with
  | nil => rfl
  | cons note rest ih =>
    cases k with
    | zero => rfl
    | succ k => exact ih (e.turned frames phase note) k

/-- Rests leave no trace in the phase. -/
theorem foldl_turned_filter (phase : Sample) (notes : List Note) :
    (notes.filter fun note => !note.isRest).foldl (e.turned frames) phase =
      notes.foldl (e.turned frames) phase := by
  induction notes generalizing phase with
  | nil => rfl
  | cons note rest ih =>
    cases hrest : note.isRest with
    | true => simp [hrest, ih, e.turned_rest frames hrest]
    | false => simp [hrest, ih]

/-- Without the rests, the tones still begin at their phases. -/
theorem slots_filter (phase : Sample) (notes : List Note) :
    e.slots frames phase (notes.filter fun note => !note.isRest) =
      ((notes.zip (e.slots frames phase notes)).filter fun filled => !filled.1.isRest).map
        Prod.snd := by
  induction notes generalizing phase with
  | nil => rfl
  | cons note rest ih =>
    cases hrest : note.isRest with
    | true => simp [slots, hrest, e.turned_rest frames hrest, ih]
    | false => simp [slots, hrest, ih]

theorem slots_append (phase : Sample) (a b : List Note) :
    (e.slots frames phase (a ++ b)).take a.length = e.slots frames phase a := by
  induction a generalizing phase with
  | nil => simp [slots]
  | cons note rest ih => simp [slots, ih]

/-- The samples that notes add to a tone in progress are those of their slots. -/
theorem foldl_addNote_signal (notes : List Note) (o : Oscillator) :
    (notes.foldl (e.addNote frames) o).signal.reverse =
      o.signal.reverse ++ (e.slots frames o.phase notes).flatten := by
  induction notes generalizing o with
  | nil => simp [slots]
  | cons note rest ih =>
    rw [List.foldl_cons, ih, addNote_eq]
    simp [slots]

variable {e frames}

/-- With fewer notes a performance does not get too long. -/
theorem isTooLong_mono {n m : Nat} (hle : m ≤ n) (h : e.isTooLong frames n = false) :
    e.isTooLong frames m = false := by
  rw [isTooLong, decide_eq_false_iff_not, not_lt] at h ⊢
  refine le_trans (toBinary64_mono ?_) h
  have hframes : frames * m ≤ frames * n := Nat.mul_le_mul_left frames hle
  gcongr

theorem renderNotes_eq_ok_iff {tempo : Nat} {notes : List Note} {signal : Channel} :
    e.renderNotes tempo notes = .ok signal ↔
      tempo ≠ 0 ∧ e.isTooLong (e.framesPerNote tempo) notes.length = false ∧
        signal = (e.slots (e.framesPerNote tempo) .silence notes).flatten := by
  have hsignal := e.foldl_addNote_signal (e.framesPerNote tempo) notes {}
  rw [List.reverse_nil, List.nil_append] at hsignal
  unfold renderNotes
  split_ifs with hzero hlong
  · simp [hzero]
  · simp [hlong]
  · rw [hsignal]
    simp [hzero, hlong, eq_comm]

/-- Fewer notes, whichever they are, are accepted at the same tempo. -/
theorem renderNotes_of_length_le {tempo : Nat} {notes fewer : List Note} {signal : Channel}
    (h : e.renderNotes tempo notes = .ok signal) (hle : fewer.length ≤ notes.length) :
    e.renderNotes tempo fewer =
      .ok (e.slots (e.framesPerNote tempo) .silence fewer).flatten := by
  obtain ⟨htempo, hshort, -⟩ := renderNotes_eq_ok_iff.mp h
  exact renderNotes_eq_ok_iff.mpr ⟨htempo, isTooLong_mono hle hshort, rfl⟩

end ToneEngine

/-- A performance consists of one slot for each note, in order and equally long. A slot holds what
its note sounds like at the phase that the tones before it leave: silence for a rest, and a sine
tone for any other note. The slots of the other notes are what these alone sound like, and the notes
up to any one of them sound like the beginning. -/
theorem performance_of_slots {e : ToneEngine} {tempo : Nat} {notes : List Note} {signal : Channel}
    (h : e.renderNotes tempo notes = .ok signal) :
    let frames := e.framesPerNote tempo
    ∃ slots : List Channel,
      slots.flatten = signal ∧ slots.length = notes.length ∧
      (∀ slot ∈ slots, slot.length = frames) ∧
      (∀ (k : Nat) (slot : Channel), notes[k]? = some .rest → slots[k]? = some slot →
        slot = Channel.silent frames) ∧
      (∀ (k : Nat) (note : Note) (slot : Channel), notes[k]? = some note →
        slots[k]? = some slot → slot = e.sound frames
          (((notes.take k).filter fun note => !note.isRest).foldl (e.turned frames) .silence)
          note) ∧
      e.renderNotes tempo (notes.filter fun note => !note.isRest) =
        .ok (((notes.zip slots).filter fun filled => !filled.1.isRest).map Prod.snd).flatten ∧
      ∀ a b : List Note, notes = a ++ b → ∃ first : Channel,
        e.renderNotes tempo a = .ok first ∧ first = (slots.take a.length).flatten ∧
          first <+: signal := by
  intro frames
  obtain ⟨htempo, hshort, hsignal⟩ := ToneEngine.renderNotes_eq_ok_iff.mp h
  have hsound (k : Nat) (note : Note) (slot : Channel) (hnote : notes[k]? = some note)
      (hslot : (e.slots frames .silence notes)[k]? = some slot) : slot = e.sound frames
        (((notes.take k).filter fun note => !note.isRest).foldl (e.turned frames) .silence)
        note := by
    rw [e.getElem?_slots, hnote, Option.map_some, Option.some.injEq] at hslot
    rw [e.foldl_turned_filter, hslot]
  refine ⟨e.slots frames .silence notes, hsignal.symm, e.slots_length frames _ notes,
    fun slot hslot => e.length_of_mem_slots frames hslot, ?_, hsound, ?_, ?_⟩
  · intro k slot hnote hslot
    rw [hsound k .rest slot hnote hslot, e.sound_rest frames rfl]
  · rw [← e.slots_filter]
    exact ToneEngine.renderNotes_of_length_le h (List.length_filter_le _ _)
  · rintro a b rfl
    have hle : a.length ≤ (a ++ b).length := by simp
    have hprefix : e.slots frames .silence a <+: e.slots frames .silence (a ++ b) := by
      rw [← e.slots_append frames .silence a b]
      exact List.take_prefix _ _
    refine ⟨_, ToneEngine.renderNotes_of_length_le h hle, ?_, ?_⟩
    · rw [e.slots_append]
    · rw [hsignal]
      exact hprefix.flatten

/-- Two tones of four frames, with a rest of four frames between them and without it. -/
theorem performance_of_slots_around_rest :
    let e : ToneEngine := .new 4 2
    let first : Channel := [0, 0x3e0e0b95, 0xbe6c5861, 0].map Sample.ofBits
    let last : Channel := [0x80000000, 0xbe35a303, 0xbe35a303, 0x80000000].map Sample.ofBits
    e.renderNotes 60 [.c, .rest, .a] = .ok (first ++ (Channel.silent 4 ++ last)) ∧
      e.renderNotes 60 [.c, .a] = .ok (first ++ last) ∧
      e.renderNotes 60 [.c, .rest] = .ok (first ++ Channel.silent 4) := by
  intro e first last
  have hframes : e.framesPerNote 60 = 4 := by decide +kernel
  obtain ⟨signal, hsignal⟩ : ∃ signal, e.renderNotes 60 [.c, .rest, .a] = .ok signal :=
    ⟨_, ToneEngine.renderNotes_eq_ok_iff.mpr ⟨by decide, by decide +kernel, rfl⟩⟩
  obtain ⟨slots, hflatten, hlength, -, hrest, hsound, htones, hsplit⟩ :=
    performance_of_slots hsignal
  rw [hframes] at hrest hsound
  obtain ⟨begin, middle, finish, rfl⟩ := List.length_eq_three.mp hlength
  obtain rfl : middle = Channel.silent 4 := hrest 1 middle rfl rfl
  obtain rfl : begin = first := (hsound 0 .c begin rfl rfl).trans (by decide +kernel)
  obtain rfl : finish = last := (hsound 2 .a finish rfl rfl).trans (by decide +kernel)
  obtain ⟨before, hbefore, rfl, -⟩ := hsplit [.c, .rest] [.a] rfl
  subst hflatten
  refine ⟨?_, ?_, ?_⟩
  · simpa using hsignal
  · simpa [Note.isRest] using htones
  · simpa using hbefore

end TuneRelay.Engine
