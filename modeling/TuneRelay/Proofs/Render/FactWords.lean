import TuneRelay.Proofs.Relay.Session
import TuneRelay.Render

/-!
# The words of facts that quanta signal

Each quantum signals one word, and every fact of a word is true of its quantum. The queue keeps the
beginning of what is signalled, so a drain answers with the beginning of the words since the drain
before it.
-/
namespace TuneRelay
open Render

theorem isSilent_silent (frames : Nat) : (Channel.silent frames).isSilent = true := by
  have hsample : Sample.isSilent .silence = true := by decide
  simp [Channel.isSilent, Channel.silent, hsample]

theorem all_isSilent_silenced (outputs : List Channel) :
    (silenced outputs).all Channel.isSilent = true := by
  rw [silenced, List.all_map, List.all_eq_true]
  intro channel _
  exact isSilent_silent channel.length

/-- No block reaches the channels beyond the second. -/
theorem Block.heardPlanar_drop_two (b : Block) (outputs : List Channel) :
    (b.heardPlanar outputs).drop 2 = silenced (outputs.drop 2) := by
  apply List.ext_getElem
  · simp [heardPlanar, silenced]
  · intro k hk hk'
    simp [heardPlanar, silenced, heard_of_two_le b (Nat.le_add_right 2 k)]

namespace Render

/-- What the facts tell of a quantum. -/
inductive Fact.Holds (before : Callback) (outputs : List Channel) (rendered : Rendered) :
    FactId → Prop
  | blockDelivered (block : Block) (pending : before.relay.pending = some block)
    (copied : rendered.outputs = block.heardPlanar outputs) :
    Holds before outputs rendered Fact.blockDelivered
  | silenceFilled (idle : before.relay.pending = none)
    (silent : rendered.outputs = silenced outputs) :
    Holds before outputs rendered Fact.silenceFilled
  | extraChannelsSilenced (more : 2 < outputs.length)
    (silent : rendered.outputs.drop 2 = silenced (outputs.drop 2)) :
    Holds before outputs rendered Fact.extraChannelsSilenced
  | slotCleared (cleared : rendered.callback.relay.pending = none) :
    Holds before outputs rendered Fact.slotCleared
  | callbackClean (clean : before.process outputs = .ok rendered) :
    Holds before outputs rendered Fact.callbackClean
  | panicContained (fault : OutOfRange) (faulted : before.process outputs = .error fault)
    (silent : rendered.outputs = silenced outputs) :
    Holds before outputs rendered Fact.panicContained

/-- The facts of a quantum: it delivers a block into more than two channels or not more, or it
finds nothing. -/
def factWord (delivers : Bool) (channels : Nat) : List FactId :=
  if delivers then if 2 < channels then [1, 3, 4, 5] else [1, 4, 5] else [2, 4, 5]

theorem factsOf_silence (outputs : List Channel) :
    factsOf .silence (silenced outputs) false = factWord false outputs.length := by
  rw [factsOf, all_isSilent_silenced]
  rfl

theorem factsOf_delivered (b : Block) (outputs : List Channel) :
    factsOf (.delivered (b.framesInto outputs)) (b.heardPlanar outputs) false =
      factWord true outputs.length := by
  have hlength : (b.heardPlanar outputs).length = outputs.length := by simp [Block.heardPlanar]
  simp only [factsOf, hlength, b.heardPlanar_drop_two, all_isSilent_silenced, Bool.and_true]
  by_cases hmore : 2 < outputs.length
  · simp only [factWord, hmore]
    rfl
  · simp only [factWord, hmore]
    rfl

theorem panicContained_not_mem_factWord (delivers : Bool) (channels : Nat) :
    6 ∉ factWord delivers channels := by
  unfold factWord
  split
  · split <;> decide
  · decide

namespace Callback

theorem rested_facts (cb : Callback) (outputs : List Channel) :
    (cb.rested outputs).facts = cb.facts.map (·.pushAll (factWord false outputs.length)) := by
  rw [← factsOf_silence]
  rfl

theorem played_facts (cb : Callback) (b : Block) (outputs : List Channel) :
    (cb.played b outputs).facts = cb.facts.map (·.pushAll (factWord true outputs.length)) := by
  rw [← factsOf_delivered b]
  rfl

/-- The facts of a quantum that finds nothing. -/
theorem holds_of_mem_rested {cb : Callback} (h : cb.relay.pending = none)
    {outputs : List Channel} {id : FactId} (hid : id ∈ factWord false outputs.length) :
    Fact.Holds cb outputs ⟨true, silenced outputs, cb.rested outputs⟩ id := by
  have hid : id = 2 ∨ id = 4 ∨ id = 5 := by simpa [factWord] using hid
  rcases hid with rfl | rfl | rfl
  · exact .silenceFilled h rfl
  · exact .slotCleared h
  · exact .callbackClean (process_none h outputs)

/-- The facts of a quantum that takes a block. -/
theorem holds_of_mem_played {cb : Callback} {b : Block} (h : cb.relay.pending = some b)
    {outputs : List Channel} {id : FactId} (hid : id ∈ factWord true outputs.length) :
    Fact.Holds cb outputs ⟨true, b.heardPlanar outputs, cb.played b outputs⟩ id := by
  have hid : id = 1 ∨ (2 < outputs.length ∧ id = 3) ∨ id = 4 ∨ id = 5 := by
    by_cases hmore : 2 < outputs.length
    · simpa [factWord, hmore] using hid
    · simpa [factWord, hmore] using hid
  rcases hid with rfl | ⟨hmore, rfl⟩ | rfl | rfl
  · exact .blockDelivered b h rfl
  · exact .extraChannelsSilenced hmore (b.heardPlanar_drop_two outputs)
  · exact .slotCleared rfl
  · exact .callbackClean (process_some h outputs)

/-- A quantum signals its word, id after id, and every fact in it is true. -/
theorem process_signals (cb : Callback) (outputs : List Channel) :
    ∃ rendered, cb.process outputs = .ok rendered ∧ cb.processSafe outputs = rendered ∧
      rendered.callback.facts =
        cb.facts.map (·.pushAll (factWord cb.relay.pending.isSome outputs.length)) ∧
      ∀ id ∈ factWord cb.relay.pending.isSome outputs.length,
        Fact.Holds cb outputs rendered id := by
  cases h : cb.relay.pending with
  | none =>
    refine ⟨_, process_none h outputs, processSafe_none h outputs, cb.rested_facts outputs, ?_⟩
    intro id hid
    exact holds_of_mem_rested h hid
  | some b =>
    refine ⟨_, process_some h outputs, processSafe_some h outputs, cb.played_facts b outputs, ?_⟩
    intro id hid
    exact holds_of_mem_played h hid

end Callback
end Render

namespace Take

theorem answer_facts (cb : Callback) (consumed : Except OutOfRange (Consumed (List Channel))) :
    (answer cb consumed).2.facts = cb.facts := by
  cases consumed <;> rfl

theorem answerQuantum_callback (consumed : Except OutOfRange (Consumed (List Channel)))
    (rendered : Rendered) : (answerQuantum consumed rendered).2 = rendered.callback := by
  cases consumed <;> rfl

end Take

namespace Session

/-- The word of a call: only quanta signal. -/
def word (s : Session) (call : Call) : Option (List FactId) :=
  match call with
  | .take (.process outputs) | .take (.processSafe outputs) =>
    some (factWord (s.step call).1.delivers outputs.length)
  | _ => none

/-- The words of the quanta among some calls. -/
def words (s : Session) : List Call → List (List FactId)
  | [] => []
  | call :: rest => (s.word call).toList ++ (s.step call).2.words rest

theorem take_delivers (s : Session) (take : Take) :
    (s.step (.take take)).1.delivers = s.slot.isSome := by
  cases h : s.slot with
  | none =>
    obtain ⟨hr, -, -⟩ := Take.perform_none h take
    simp [step, hr, Reply.delivers, Outcome.isDelivered]
  | some block =>
    obtain ⟨hr, -, -⟩ := Take.perform_some h take
    simp [step, hr, Reply.delivers, Outcome.isDelivered]

theorem word_process (s : Session) (outputs : List Channel) :
    s.word (.take (.process outputs)) = some (factWord s.slot.isSome outputs.length) := by
  rw [word, take_delivers]

theorem word_processSafe (s : Session) (outputs : List Channel) :
    s.word (.take (.processSafe outputs)) = some (factWord s.slot.isSome outputs.length) := by
  rw [word, take_delivers]

/-- A call pushes its word, and nothing but a drain takes from the queue. -/
theorem step_facts (s : Session) {call : Call} (h : call ≠ .drainFacts) :
    (s.step call).2.callback.facts =
      s.callback.facts.map (·.pushAll ((s.word call).getD [])) := by
  have hquiet : s.callback.facts = s.callback.facts.map (·.pushAll []) := by
    simp only [Ring.pushAll_nil, Option.map_id_fun', id]
  cases call with
  | publisher call => by_cases hp : s.publisher = true <;> simp [step, hp, word]
  | dropPublisher => by_cases hp : s.publisher = true <;> simp [step, hp, word]
  | take take =>
    cases take with
    | consume frames channels => exact (Take.answer_facts _ _).trans hquiet
    | consumeInto outputs => exact (Take.answer_facts _ _).trans hquiet
    | consumeInterleaved out channels => exact hquiet
    | process outputs =>
      obtain ⟨rendered, hok, -, hfacts, -⟩ := s.callback.process_signals outputs
      simp only [step, Take.perform, hok, Take.answerQuantum_callback, word_process]
      exact hfacts
    | processSafe outputs =>
      obtain ⟨rendered, -, hsafe, hfacts, -⟩ := s.callback.process_signals outputs
      simp only [step, Take.perform, hsafe, Take.answerQuantum_callback, word_processSafe]
      exact hfacts
  | isReady => exact hquiet
  | drainFacts => exact absurd rfl h

/-- Between two drains the queue is filled with the words in order. -/
theorem after_facts {calls : List Call} (h : .drainFacts ∉ calls) (s : Session) :
    (s.after calls).callback.facts = s.callback.facts.map (·.pushAll (s.words calls).flatten) := by
  induction calls generalizing s with
  | nil => simp [after, words]
  | cons call rest ih =>
    have hcall : call ≠ .drainFacts := fun heq => h (heq ▸ List.mem_cons_self)
    have hrest : .drainFacts ∉ rest := fun hmem => h (List.mem_cons_of_mem call hmem)
    have hafter : s.after (call :: rest) = (s.step call).2.after rest := rfl
    rw [hafter, ih hrest, step_facts s hcall, Option.map_map]
    congr 1
    funext queue
    cases hword : s.word call <;> simp [words, hword, Ring.pushAll_append]

theorem step_capacity (s : Session) (call : Call) :
    (s.step call).2.callback.facts.map Ring.capacity = s.callback.facts.map Ring.capacity := by
  by_cases h : call = .drainFacts
  · subst h
    cases hfacts : s.callback.facts <;> simp [step, Callback.drain, hfacts, Ring.drain, Ring.empty]
  · rw [step_facts s h, Option.map_map]
    rfl

theorem after_capacity (s : Session) (calls : List Call) :
    (s.after calls).callback.facts.map Ring.capacity = s.callback.facts.map Ring.capacity := by
  induction calls generalizing s with
  | nil => rfl
  | cons call rest ih => exact (ih (s.step call).2).trans (s.step_capacity call)

theorem drain_of_facts {s : Session} {queue : Ring FactId} (h : s.callback.facts = some queue) :
    (s.step .drainFacts).1 = .facts queue.items ∧
      (s.step .drainFacts).2.callback.facts = some (.empty queue.capacity) := by
  simp [step, Callback.drain, h, Ring.drain]

/-- The calls so far end in a drain, or there are none yet. -/
def Drained (calls : List Call) : Prop := calls = [] ∨ ∃ earlier, calls = earlier ++ [.drainFacts]

theorem facts_of_drained {before : List Call} (h : Drained before) (capacity : Nat) :
    ((fresh (some (.empty capacity))).after before).callback.facts = some (.empty capacity) := by
  rcases h with rfl | ⟨earlier, rfl⟩
  · rfl
  · have hcapacity := (fresh (some (.empty capacity))).after_capacity earlier
    cases hfacts : ((fresh (some (.empty capacity))).after earlier).callback.facts with
    | none =>
      rw [hfacts] at hcapacity
      cases hcapacity
    | some queue =>
      rw [hfacts] at hcapacity
      have hqueue : queue.capacity = capacity := Option.some.inj hcapacity
      rw [after_concat, (drain_of_facts hfacts).2, hqueue]

/-- A drain answers with the beginning of what was signalled since the drain before it. -/
theorem drain_after {before later : List Call} (hbefore : Drained before)
    (hlater : .drainFacts ∉ later) (capacity : Nat) :
    let start := (fresh (some (.empty capacity))).after before
    ((start.after later).step .drainFacts).1 =
      .facts ((start.words later).flatten.take capacity) := by
  intro start
  have hfacts := after_facts hlater start
  rw [facts_of_drained hbefore capacity] at hfacts
  rw [(drain_of_facts hfacts).1]
  rfl

theorem exists_drained (calls : List Call) :
    ∃ before later, calls = before ++ later ∧ Drained before ∧ .drainFacts ∉ later := by
  induction calls with
  | nil => exact ⟨[], [], rfl, .inl rfl, List.not_mem_nil⟩
  | cons call rest ih =>
    obtain ⟨before, later, rfl, rfl | ⟨earlier, rfl⟩, hlater⟩ := ih
    · by_cases hcall : call = .drainFacts
      · exact ⟨[call], later, rfl, .inr ⟨[], by rw [hcall]; rfl⟩, hlater⟩
      · refine ⟨[], call :: later, rfl, .inl rfl, ?_⟩
        intro hmem
        rcases List.mem_cons.mp hmem with heq | hmem
        · exact hcall heq.symm
        · exact hlater hmem
    · exact ⟨call :: earlier ++ [.drainFacts], later, by simp, .inr ⟨call :: earlier, rfl⟩, hlater⟩

theorem panicContained_not_mem_words (s : Session) (calls : List Call) :
    6 ∉ (s.words calls).flatten := by
  induction calls generalizing s with
  | nil => exact List.not_mem_nil
  | cons call rest ih =>
    rw [words, List.flatten_append, List.mem_append, not_or]
    refine ⟨?_, ih _⟩
    cases call with
    | take take =>
      cases take with
      | process outputs | processSafe outputs =>
        simpa [word] using panicContained_not_mem_factWord _ outputs.length
      | consume | consumeInto | consumeInterleaved => simp [word]
    | publisher | dropPublisher | isReady | drainFacts => simp [word]

end Session

namespace Render.Rig

/-- What a rig does to its callback are calls of a session. -/
def session (rig : Rig) : Session := { callback := rig.callback }

theorem runQuantum_session (rig : Rig) :
    rig.runQuantum.2.session = (rig.session.step (.take (.processSafe rig.outputs))).2 := by
  simp only [session, runQuantum, Session.step, Take.perform, Take.answerQuantum_callback]

theorem runQuantum_carries (rig : Rig) : rig.runQuantum.1 = rig.session.slot.isSome := by
  cases h : rig.callback.relay.pending with
  | none =>
    simp [runQuantum, Callback.processSafe_none h, Callback.rested, session, Session.slot, h]
  | some b =>
    simp [runQuantum, Callback.processSafe_some h, Callback.played, session, Session.slot, h]

/-- A rig tells of a delivery exactly when the word of its quantum starts with one. -/
theorem runQuantum_iff_word (rig : Rig) : rig.runQuantum.1 = true ↔
    ∃ rest, rig.session.word (.take (.processSafe rig.outputs)) = some (1 :: rest) := by
  rw [runQuantum_carries, Session.word_processSafe]
  cases rig.session.slot with
  | none => simp [factWord]
  | some b =>
    by_cases hmore : 2 < rig.outputs.length
    · simp [factWord, hmore]
    · simp [factWord, hmore]

end Render.Rig

/-- After any calls on a fresh session with a queue for facts: each quantum signals the one word
that its delivery and the number of its channels decide, id after id, and every fact of it is true;
no other call signals; a drain answers with the first 256 ids of the words since the drain before
it; no panic is ever told of; and a rig, which is driven as a session is, tells a delivery by the
first id of the word. -/
theorem quanta_signal_words (calls : List Call) :
    let fresh := Session.fresh (some (.empty 256))
    let s := fresh.after calls
    (∀ outputs,
      let word := factWord s.slot.isSome outputs.length
      s.word (.take (.process outputs)) = some word ∧
      s.word (.take (.processSafe outputs)) = some word ∧
      ∃ rendered, s.callback.process outputs = .ok rendered ∧
        s.callback.processSafe outputs = rendered ∧
        rendered.callback.facts = s.callback.facts.map (fun queue => word.foldl Ring.push queue) ∧
        ∀ id ∈ word, Fact.Holds s.callback outputs rendered id) ∧
    (∀ call, s.word call = none → call ≠ .drainFacts →
      (s.step call).2.callback.facts = s.callback.facts) ∧
    (∀ before later, calls = before ++ later → Session.Drained before → .drainFacts ∉ later →
      (s.step .drainFacts).1 = .facts (((fresh.after before).words later).flatten.take 256)) ∧
    (∀ ids, (s.step .drainFacts).1 = .facts ids → 6 ∉ ids) ∧
    (∀ quantum channels, (Rig.new quantum channels).session = fresh) ∧
    ∀ rig : Rig,
      (rig.runQuantum.1 = true ↔
        ∃ rest, rig.session.word (.take (.processSafe rig.outputs)) = some (1 :: rest)) ∧
      rig.runQuantum.2.session = (rig.session.step (.take (.processSafe rig.outputs))).2 ∧
      (∀ block, (rig.publish block).session =
        (rig.session.step (.publisher (.publish block))).2) ∧
      rig.session.step .drainFacts = (.facts rig.drain.1, rig.drain.2.session) := by
  intro fresh s
  have hdrain (before later : List Call) (hcalls : calls = before ++ later)
      (hbefore : Session.Drained before) (hlater : .drainFacts ∉ later) : (s.step .drainFacts).1 =
        .facts (((fresh.after before).words later).flatten.take 256) := by
    have hs : s = (fresh.after before).after later := by
      rw [← Session.after_append, ← hcalls]
    rw [hs]
    exact Session.drain_after hbefore hlater 256
  refine ⟨?_, ?_, hdrain, ?_, fun _ _ => rfl, ?_⟩
  · intro outputs word
    obtain ⟨rendered, hok, hsafe, hfacts, hholds⟩ := s.callback.process_signals outputs
    refine ⟨s.word_process outputs, s.word_processSafe outputs, rendered, hok, hsafe, ?_, hholds⟩
    simp only [hfacts, Ring.pushAll_eq_foldl]
    rfl
  · intro call hword hcall
    rw [s.step_facts hcall, hword]
    simp
  · intro ids hids hmem
    obtain ⟨before, later, hcalls, hbefore, hlater⟩ := Session.exists_drained calls
    rw [hdrain before later hcalls hbefore hlater] at hids
    obtain rfl := Reply.facts.inj hids
    exact Session.panicContained_not_mem_words _ _ (List.mem_of_mem_take hmem)
  · intro rig
    exact ⟨rig.runQuantum_iff_word, rig.runQuantum_session, fun _ => rfl, rfl⟩

/-- A hundred quanta overflow the queue in the middle of a word. -/
theorem quanta_signal_words_overflow :
    let fresh := Session.fresh (some (.empty 256))
    let quanta := List.replicate 100 (Call.take (.process []))
    Session.Drained [] ∧ .drainFacts ∉ quanta ∧
      ((fresh.after quanta).step .drainFacts).1 =
        .facts ((List.replicate 85 [2, 4, 5]).flatten ++ [2]) := by
  intro fresh quanta
  have hbefore : Session.Drained [] := .inl rfl
  have hlater : .drainFacts ∉ quanta := by simp [quanta]
  refine ⟨hbefore, hlater, ?_⟩
  have hwords : (((fresh.after []).words quanta).flatten.take 256) =
      (List.replicate 85 [2, 4, 5]).flatten ++ [2] := by decide +kernel
  obtain ⟨-, -, hdrain, -⟩ := quanta_signal_words quanta
  rw [← hwords]
  exact hdrain [] quanta rfl hbefore hlater

end TuneRelay
