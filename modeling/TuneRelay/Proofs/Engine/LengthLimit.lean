import TuneRelay.Proofs.Engine.Slots

/-!
# The limit on the length of a performance

Whether a performance is too long is decided in doubles, and is decided as whole numbers decide it.
Within the limit every step of rendering goes well: no frame is counted past the end of its note, no
level is divided by an empty fade, and the samples fill the buffer that was allocated for them.
-/
namespace TuneRelay.Engine
open Numeric

/-- What a step of rendering may not do. -/
inductive RenderFault
  | belowZero
  | emptyFade
  | bufferFull
  | bufferTooLarge
  deriving DecidableEq, Repr

/-- Subtraction of whole numbers that stops below zero. -/
def checkedSub (a b : Nat) : Except RenderFault Nat :=
  if a < b then .error .belowZero else .ok (a - b)

/-- The level of a frame, step by step. -/
def checkedEnvelope (frames fade i : Nat) : Except RenderFault Sample := do
  let last ← checkedSub frames 1
  let left ← checkedSub last i
  if fade = 0 then .error .emptyFade
  else
    let level : Sample := .ofNat (min i left) / .ofNat fade
    return if level < .one then level else .one

/-- A buffer for so many samples, and no more than the limit. -/
def allocate (limit samples : Nat) : Except RenderFault Nat :=
  if limit < samples then .error .bufferTooLarge else .ok samples

/-- A tone in progress whose samples still fit their buffer. -/
def Oscillator.within (capacity : Nat) (o : Oscillator) : Except RenderFault Oscillator :=
  if capacity < o.signal.length then .error .bufferFull else .ok o

namespace ToneEngine

/-- Adds a note in a buffer, one sample of a tone at a time. -/
def checkedNote (e : ToneEngine) (capacity frames : Nat) (o : Oscillator) (note : Note) :
    Except RenderFault Oscillator :=
  match frequency e.functions note with
  | none => (o.rest frames).within capacity
  | some pitch =>
    let step := turn * pitch / .ofNat e.sampleRate
    (List.range frames).foldlM (fun o i => do
      let level ← checkedEnvelope frames (e.fadeFrames frames) i
      (o.emit e.functions.sine step e.amplitude level).within capacity) o

/-- Rendering into one buffer that is allocated before the first note. -/
def checkedRender (e : ToneEngine) (tempo : Nat) (notes : List Note) :
    Except RenderFault (Except EngineError (List Sample)) :=
  let frames := e.framesPerNote tempo
  if tempo = 0 then return .error (.rejected "tempo must be positive")
  else if e.isTooLong frames notes.length then
    return .error (.rejected s!"performance longer than {maxSeconds} seconds")
  else do
    let capacity ← allocate (maxSeconds * e.sampleRate) (min (frames * notes.length) maxFrames)
    let o ← notes.foldlM (e.checkedNote capacity frames) {}
    return .ok o.signal.reverse

variable {e : ToneEngine} {tempo frames : Nat} {notes : List Note}

theorem isTooLong_iff (h : e.sampleRate ≤ 4294967295) (n : Nat) :
    e.isTooLong frames n = true ↔ 600 * e.sampleRate < frames * n := by
  have hlimit : ((600 * e.sampleRate : Nat) : Rat) < toBinary64 (min (frames * n) maxFrames : Nat) ↔
      600 * e.sampleRate < min (frames * n) maxFrames := lt_toBinary64_iff (by omega)
  rw [isTooLong, decide_eq_true_iff, maxSeconds, hlimit, maxFrames]
  omega

theorem renderNotes_rejected_iff (h : e.sampleRate ≤ 4294967295) :
    (∃ reason, e.renderNotes tempo notes = .error (.rejected reason)) ↔
      tempo = 0 ∨ 600 * e.sampleRate < e.framesPerNote tempo * notes.length := by
  rw [← isTooLong_iff h]
  unfold renderNotes
  split_ifs with hzero hlong
  · simp [hzero]
  · simp [hlong]
  · simp [hzero, hlong]

theorem exists_renderNotes (h : e.sampleRate ≤ 4294967295) (ht : tempo ≠ 0)
    (hshort : e.framesPerNote tempo * notes.length ≤ 600 * e.sampleRate) :
    ∃ signal, e.renderNotes tempo notes = .ok signal ∧
      signal.length = e.framesPerNote tempo * notes.length := by
  have haccepted : e.isTooLong (e.framesPerNote tempo) notes.length = false := by
    rw [← Bool.not_eq_true, isTooLong_iff h]
    exact not_lt.mpr hshort
  refine ⟨_, renderNotes_eq_ok_iff.mpr ⟨ht, haccepted, rfl⟩, ?_⟩
  rw [slots_flatten_length, Nat.mul_comm]

theorem fadeFrames_pos (e : ToneEngine) (frames : Nat) : 0 < e.fadeFrames frames :=
  Nat.lt_of_lt_of_le Nat.zero_lt_one (Nat.le_max_right _ 1)

theorem checkedSub_of_le {a b : Nat} (h : b ≤ a) : checkedSub a b = .ok (a - b) :=
  if_neg (Nat.not_lt.mpr h)

theorem checkedEnvelope_eq {fade i : Nat} (hi : i < frames) (hfade : 0 < fade) :
    checkedEnvelope frames fade i = .ok (envelope frames fade i) := by
  have hlast : checkedSub frames 1 = .ok (frames - 1) := checkedSub_of_le (by omega)
  have hleft : checkedSub (frames - 1) i = .ok (frames - 1 - i) := checkedSub_of_le (by omega)
  simp only [checkedEnvelope, hlast, hleft, bind, Except.bind, if_neg (Nat.ne_of_gt hfade)]
  rfl

theorem within_of_le {capacity : Nat} {o : Oscillator} (h : o.signal.length ≤ capacity) :
    o.within capacity = .ok o :=
  if_neg (Nat.not_lt.mpr h)

/-- A loop whose steps each put the same number of samples into a buffer goes well if there is room
for all of them. -/
theorem foldlM_within {α : Type} {f : Oscillator → α → Except RenderFault Oscillator}
    {g : Oscillator → α → Oscillator} {l : List α} (capacity size : Nat)
    (hstep : ∀ o : Oscillator, ∀ a ∈ l, o.signal.length + size ≤ capacity →
      f o a = .ok (g o a) ∧ (g o a).signal.length = o.signal.length + size)
    {o : Oscillator} (h : o.signal.length + l.length * size ≤ capacity) :
    l.foldlM f o = .ok (l.foldl g o) := by
  induction l generalizing o with
  | nil => rfl
  | cons a rest ih =>
    rw [List.length_cons, Nat.add_mul, Nat.one_mul] at h
    obtain ⟨hone, hlength⟩ := hstep o a List.mem_cons_self (by omega)
    have hrest := ih (fun o b hb => hstep o b (List.mem_cons_of_mem a hb)) (o := g o a) (by omega)
    rw [List.foldlM_cons, hone, List.foldl_cons]
    exact hrest

theorem checkedNote_eq {capacity : Nat} {o : Oscillator} (note : Note)
    (h : o.signal.length + frames ≤ capacity) :
    e.checkedNote capacity frames o note = .ok (e.addNote frames o note) := by
  unfold checkedNote addNote
  cases frequency e.functions note with
  | none =>
    apply within_of_le
    simp only [Oscillator.rest, Channel.silent, List.length_append, List.length_replicate]
    omega
  | some pitch =>
    refine foldlM_within capacity 1 ?_ (by simpa using h)
    intro o i hi hroom
    have hlevel := checkedEnvelope_eq (List.mem_range.mp hi) (e.fadeFrames_pos frames)
    refine ⟨?_, rfl⟩
    rw [hlevel]
    exact within_of_le hroom

/-- All notes together just fill a buffer. -/
theorem foldlM_checkedNote (e : ToneEngine) (frames : Nat) (notes : List Note) :
    notes.foldlM (e.checkedNote (frames * notes.length) frames) {} =
      .ok (notes.foldl (e.addNote frames) {}) := by
  refine foldlM_within (frames * notes.length) frames ?_ ?_
  · intro o note _ hroom
    exact ⟨checkedNote_eq note hroom, by rw [addNote_length, Nat.add_comm]⟩
  · rw [List.length_nil, Nat.zero_add, Nat.mul_comm]

/-- In doubles, in whole numbers, with one buffer or with lists, rendering is the same, and no step
of it fails. -/
theorem checkedRender_eq (h : e.sampleRate ≤ 4294967295) (tempo : Nat) (notes : List Note) :
    e.checkedRender tempo notes = .ok (e.renderNotes tempo notes) := by
  unfold checkedRender renderNotes
  dsimp only
  split_ifs with hzero hlong
  · rfl
  · rfl
  · have hshort : e.framesPerNote tempo * notes.length ≤ 600 * e.sampleRate :=
      not_lt.mp fun hlt => hlong ((isTooLong_iff h _).mpr hlt)
    have htotal : min (e.framesPerNote tempo * notes.length) maxFrames =
        e.framesPerNote tempo * notes.length :=
      Nat.min_eq_left (by rw [maxFrames]; omega)
    have hallocated : allocate (maxSeconds * e.sampleRate)
        (e.framesPerNote tempo * notes.length) = .ok (e.framesPerNote tempo * notes.length) :=
      if_neg (not_lt.mpr hshort)
    have hloop := e.foldlM_checkedNote (e.framesPerNote tempo) notes
    rw [htotal, hallocated]
    exact congrArg (Except.map fun o => Except.ok o.signal.reverse) hloop

end ToneEngine

/-- A performance is rejected exactly if its tempo is zero or if it has more frames than six hundred
seconds, in whole numbers, although that is decided in doubles. Any other one has as many samples
as its notes have frames, and no step of rendering it fails. -/
theorem length_limit_exact (rate : UInt32) {e : ToneEngine} (he : e.sampleRate = max rate.toNat 1)
    (tempo : Nat) (notes : List Note) :
    let frames := e.framesPerNote tempo
    let limit := 600 * max rate.toNat 1
    toBinary64 limit = limit ∧
    ((∃ reason, e.renderNotes tempo notes = .error (.rejected reason)) ↔
      tempo = 0 ∨ limit < frames * notes.length) ∧
    (tempo ≠ 0 → frames * notes.length ≤ limit → ∃ signal : Channel,
      e.renderNotes tempo notes = .ok signal ∧ signal.length = frames * notes.length) ∧
    e.checkedRender tempo notes = .ok (e.renderNotes tempo notes) := by
  intro frames limit
  have hrate : e.sampleRate ≤ 4294967295 := by
    have := rate.toNat_lt
    omega
  have hlimit : limit = 600 * e.sampleRate := by rw [he]
  refine ⟨toBinary64_natCast (by omega), ?_, ?_, ToneEngine.checkedRender_eq hrate tempo notes⟩
  · rw [hlimit]
    exact ToneEngine.renderNotes_rejected_iff hrate
  · rw [hlimit]
    exact fun htempo hshort => ToneEngine.exists_renderNotes hrate htempo hshort

/-- With one frame a second: ten notes of a minute are just accepted and one more is not; notes too
short for a frame are always accepted. -/
theorem length_limit_exact_reached :
    let e : ToneEngine := .new 0 128
    let minutes (count : Nat) : List Note := List.replicate count .c
    e.sampleRate = max (0 : UInt32).toNat 1 ∧ e.framesPerNote 1 = 60 ∧ e.framesPerNote 121 = 0 ∧
      (∃ signal : Channel, e.renderNotes 1 (minutes 10) = .ok signal ∧ signal.length = 600) ∧
      (∃ reason, e.renderNotes 1 (minutes 11) = .error (.rejected reason)) ∧
      (∃ reason, e.renderNotes 0 (minutes 1) = .error (.rejected reason)) ∧
      ∃ signal : Channel, e.renderNotes 121 (minutes 1000) = .ok signal ∧
        e.checkedRender 121 (minutes 1000) = .ok (.ok signal) := by
  intro e minutes
  have hrate : e.sampleRate = max (0 : UInt32).toNat 1 := by decide
  have hminute : e.framesPerNote 1 = 60 := by decide +kernel
  have hnone : e.framesPerNote 121 = 0 := by decide +kernel
  have hlength (count : Nat) : (minutes count).length = count := List.length_replicate
  obtain ⟨-, -, hten, -⟩ := length_limit_exact 0 hrate 1 (minutes 10)
  obtain ⟨-, heleven, -, -⟩ := length_limit_exact 0 hrate 1 (minutes 11)
  obtain ⟨-, hzero, -, -⟩ := length_limit_exact 0 hrate 0 (minutes 1)
  obtain ⟨-, -, hshort, hsteps⟩ := length_limit_exact 0 hrate 121 (minutes 1000)
  rw [hminute, hlength] at hten heleven
  rw [hnone, Nat.zero_mul] at hshort
  obtain ⟨signal, hsignal, -⟩ := hshort (by decide) (by decide)
  rw [hsignal] at hsteps
  exact ⟨hrate, hminute, hnone, hten (by decide) (by decide), heleven.mpr (.inr (by decide)),
    hzero.mpr (.inl rfl), signal, hsignal, hsteps⟩

end TuneRelay.Engine
