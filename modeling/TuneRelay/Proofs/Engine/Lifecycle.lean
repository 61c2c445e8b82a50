import TuneRelay.Proofs.Engine.Playback

/-!
# The life of a handle

A record of the calls that reach an engine changes none of its answers, so it tells when a handle
runs its engine: the first install runs it, and if that succeeds, all later calls but installs do.
-/
namespace TuneRelay.Engine
open Audit

/-- What a handle is asked, and its engine in turn. -/
inductive EngineCall
  | install
  | play (payload : Payload)
  | resume

def EngineCall.isInstall : EngineCall → Bool
  | install => true
  | _ => false

inductive EngineAnswer
  | done (result : Except EngineError Unit)
  | played (result : Except EngineError (List Block))

/-- The stage that an install leads to. -/
def Stage.ofInstall : Except EngineError Unit → Stage
  | .ok _ => ready
  | .error fault => failed fault.message

/-- What a handle answers without its engine, if it does. -/
def Stage.ownAnswer : Stage → EngineCall → Option EngineAnswer
  | uninitialized, .install => none
  | ready, .install => some (.done (.ok ()))
  | failed reason, .install => some (.done (.error (.installFailed reason)))
  | ready, _ => none
  | stage, .play _ => some (.played (.error (.notReady stage.name)))
  | stage, .resume => some (.done (.error (.notReady stage.name)))

variable {σ : Type} [PlaybackEngine σ]

/-- What an engine answers itself, and what it becomes. -/
def runEngine (e : σ) : EngineCall → EngineAnswer × σ
  | .install => (.done (PlaybackEngine.install e).1, (PlaybackEngine.install e).2)
  | .play payload => (.played (PlaybackEngine.compileAndPlay e payload).1.value,
      (PlaybackEngine.compileAndPlay e payload).2)
  | .resume => (.done (PlaybackEngine.resume e).1, (PlaybackEngine.resume e).2)

/-- An engine and the calls that have reached it. -/
structure Recorded (σ : Type) where
  engine : σ
  ran : List EngineCall := []

namespace Recorded

def record (r : Recorded σ) (call : EngineCall) : Recorded σ :=
  ⟨(runEngine r.engine call).2, r.ran ++ [call]⟩

instance : PlaybackEngine (Recorded σ) where
  install r := ((PlaybackEngine.install r.engine).1, r.record .install)
  compileAndPlay r payload :=
    ((PlaybackEngine.compileAndPlay r.engine payload).1, r.record (.play payload))
  resume r := ((PlaybackEngine.resume r.engine).1, r.record .resume)

theorem runEngine_eq (r : Recorded σ) (call : EngineCall) :
    runEngine r call = ((runEngine r.engine call).1, r.record call) := by
  cases call <;> rfl

end Recorded

namespace Handle

def new (e : σ) : Handle σ := { engine := e }

def step (h : Handle σ) : EngineCall → EngineAnswer × Handle σ
  | .install => (.done h.install.1, h.install.2)
  | .play payload => (.played (h.play payload).1.value, (h.play payload).2)
  | .resume => (.done h.resume.1, h.resume.2)

def after (h : Handle σ) (calls : List EngineCall) : Handle σ :=
  calls.foldl (fun h call => (h.step call).2) h

omit [PlaybackEngine σ] in
theorem isReady_iff (h : Handle σ) : h.isReady = true ↔ h.stage = .ready := by
  simp [isReady, Stage.isReady]

theorem step_own {h : Handle σ} {call : EngineCall} {answer : EngineAnswer}
    (ho : h.stage.ownAnswer call = some answer) : h.step call = (answer, h) := by
  rcases h with ⟨engine, _ | _ | reason⟩
  all_goals
    cases call <;> cases ho <;> rfl

theorem step_run {h : Handle σ} {call : EngineCall} (ho : h.stage.ownAnswer call = none) :
    h.step call = ((runEngine h.engine call).1, ⟨(runEngine h.engine call).2,
      if call.isInstall then .ofInstall (PlaybackEngine.install h.engine).1 else h.stage⟩) := by
  rcases h with ⟨engine, _ | _ | reason⟩
  · cases call with
    | install =>
      simp only [step, install, runEngine]
      rcases PlaybackEngine.install engine with ⟨_ | _, next⟩ <;> rfl
    | play payload => cases ho
    | resume => cases ho
  · cases call with
    | install => cases ho
    | play payload =>
      have hready : (Handle.mk engine Stage.ready).isReady = true := rfl
      simp only [step, value_play, hready, if_true]
      rfl
    | resume => rfl
  · cases call <;> cases ho

theorem step_ready {h : Handle σ} (hs : h.stage = .ready) {call : EngineCall}
    (hc : call.isInstall = false) :
    h.step call = ((runEngine h.engine call).1, ⟨(runEngine h.engine call).2, .ready⟩) := by
  have ho : h.stage.ownAnswer call = none := by
    rw [hs]
    cases call with
    | install => cases hc
    | play _ | resume => rfl
  rw [step_run ho, hc, hs]
  rfl

/-- The handle over the engine alone. -/
def forget (h : Handle (Recorded σ)) : Handle σ := ⟨h.engine.engine, h.stage⟩

theorem step_forget (h : Handle (Recorded σ)) (call : EngineCall) :
    h.forget.step call = ((h.step call).1, (h.step call).2.forget) := by
  cases ho : h.stage.ownAnswer call with
  | some answer =>
    have ho' : h.forget.stage.ownAnswer call = some answer := ho
    rw [step_own ho, step_own ho']
  | none =>
    have ho' : h.forget.stage.ownAnswer call = none := ho
    rw [step_run ho, step_run ho', Recorded.runEngine_eq]
    rfl

theorem after_forget (h : Handle (Recorded σ)) (calls : List EngineCall) :
    (h.after calls).forget = h.forget.after calls := by
  induction calls generalizing h with
  | nil => rfl
  | cons call rest ih =>
    have hstep := congrArg Prod.snd (h.step_forget call)
    exact (ih (h.step call).2).trans (congrArg (·.after rest) hstep.symm)

/-- The calls that reach an engine whose install comes to a result: none before the first install,
and after it, if that succeeded, all but installs. -/
def reached (installed : Except EngineError Unit) (calls : List EngineCall) : List EngineCall :=
  match calls.dropWhile (! ·.isInstall) with
  | [] => []
  | first :: later => first :: if installed.isOk then later.filter (! ·.isInstall) else []

/-- The stage after some calls: only an install leaves the first one. -/
def stageAfter (installed : Except EngineError Unit) (calls : List EngineCall) : Stage :=
  if calls.any (·.isInstall) then .ofInstall installed else .uninitialized

theorem after_cons (h : Handle σ) (call : EngineCall) (calls : List EngineCall) :
    h.after (call :: calls) = (h.step call).2.after calls := rfl

/-- Before an install nothing happens. -/
theorem after_uninitialized {h : Handle σ} (hs : h.stage = .uninitialized)
    {calls : List EngineCall} (hc : calls.any (·.isInstall) = false) : h.after calls = h := by
  induction calls with
  | nil => rfl
  | cons call rest ih =>
    obtain ⟨hcall, hrest⟩ := Bool.or_eq_false_iff.mp hc
    obtain ⟨answer, ho⟩ : ∃ answer, h.stage.ownAnswer call = some answer := by
      rw [hs]
      cases call with
      | install => cases hcall
      | play _ | resume => exact ⟨_, rfl⟩
    rw [after_cons, step_own ho]
    exact ih hrest

/-- A handle whose install failed changes no more. -/
theorem after_failed {h : Handle σ} {reason : String} (hs : h.stage = .failed reason)
    (calls : List EngineCall) : h.after calls = h := by
  induction calls with
  | nil => rfl
  | cons call rest ih =>
    obtain ⟨answer, ho⟩ : ∃ answer, h.stage.ownAnswer call = some answer := by
      rw [hs]
      cases call <;> exact ⟨_, rfl⟩
    rw [after_cons, step_own ho]
    exact ih

/-- A handle that is ready stays so, and passes on all calls but installs. -/
theorem after_ready {h : Handle (Recorded σ)} (hs : h.stage = .ready) (calls : List EngineCall) :
    (h.after calls).stage = .ready ∧
      (h.after calls).engine.ran = h.engine.ran ++ calls.filter (! ·.isInstall) := by
  induction calls generalizing h with
  | nil => simp [after, hs]
  | cons call rest ih =>
    cases call with
    | install =>
      have ho : h.stage.ownAnswer .install = some (.done (.ok ())) := by rw [hs]; rfl
      rw [after_cons, step_own ho]
      exact ih hs
    | play _ | resume =>
      rw [after_cons, step_ready hs rfl, Recorded.runEngine_eq]
      obtain ⟨hstage, hran⟩ := ih (h := ⟨h.engine.record _, .ready⟩) rfl
      exact ⟨hstage, hran.trans (List.append_assoc _ _ _)⟩

theorem after_new (e : σ) (calls : List EngineCall) :
    ((new (Recorded.mk e [])).after calls).stage =
        stageAfter (PlaybackEngine.install e).1 calls ∧
      ((new (Recorded.mk e [])).after calls).engine.ran =
        reached (PlaybackEngine.install e).1 calls := by
  induction calls with
  | nil => exact ⟨rfl, rfl⟩
  | cons call rest ih =>
    cases call with
    | install =>
      have howns : (new (Recorded.mk e [])).stage.ownAnswer .install = none := rfl
      have hstep := step_run howns
      have hengine : ((new (Recorded.mk e [])).step .install).2.engine.ran = [.install] := by
        rw [hstep]
        rfl
      have hstage : ((new (Recorded.mk e [])).step .install).2.stage =
          .ofInstall (PlaybackEngine.install e).1 := by
        rw [hstep]
        rfl
      rw [after_cons]
      cases hinstalled : (PlaybackEngine.install e).1 with
      | error fault =>
        rw [hinstalled] at hstage
        rw [after_failed hstage]
        exact ⟨hstage, hengine⟩
      | ok _ =>
        rw [hinstalled] at hstage
        obtain ⟨hready, hran⟩ := after_ready hstage rest
        rw [hengine] at hran
        exact ⟨hready, hran⟩
    | play _ | resume =>
      -- Nothing has happened yet.
      rw [after_cons, step_own rfl]
      exact ih

theorem forget_after_new (e : σ) (calls : List EngineCall) :
    ((new (Recorded.mk e [])).after calls).forget = (new e).after calls :=
  after_forget (new (Recorded.mk e [])) calls

/-- An engine that has gone through handle after handle, each asked some calls and torn down. -/
def relived (e : σ) (lives : List (List EngineCall)) : σ :=
  lives.foldl (fun e calls => ((new e).after calls).teardown) e

end Handle

theorem countP_reached_le (installed : Except EngineError Unit) (calls : List EngineCall) :
    (Handle.reached installed calls).countP EngineCall.isInstall ≤ 1 := by
  have hlater (later : List EngineCall) :
      (later.filter (! ·.isInstall)).countP EngineCall.isInstall = 0 := by
    rw [List.countP_eq_zero]
    intro call hmem
    simpa using (List.mem_filter.mp hmem).2
  unfold Handle.reached
  split
  · exact Nat.zero_le 1
  · rw [List.countP_cons]
    cases installed <;> simp [Except.isOk, Except.toBool, hlater] <;> split <;> omega

namespace ToneEngine

theorem value_perform_ne_notReady (e : ToneEngine) (payload : Payload) (stage : String) :
    (e.perform payload).value ≠ .error (.notReady stage) := by
  intro h
  cases payload with
  | text text =>
    cases hc : Mml.compile text e.options with
    | error fault =>
      rw [value_perform_text_error hc] at h
      cases h
    | ok c =>
      rw [value_perform_text hc] at h
      cases hr : e.renderNotes c.tempo c.notes with
      | error fault =>
        obtain ⟨reason, rfl⟩ := renderNotes_error hr
        rw [hr] at h
        cases h
      | ok signal =>
        rw [hr] at h
        cases h
  | blob blob =>
    rcases e.value_perform_blob_cases blob with ⟨blocks, hb⟩ | ⟨reason, hb⟩
    · rw [hb] at h
      cases h
    · rw [hb] at h
      cases h

theorem compileAndPlay_engine (e : ToneEngine) (payload : Payload) :
    (PlaybackEngine.compileAndPlay e payload).2 = e := by
  cases hinstalled : e.installed with
  | true => simp [PlaybackEngine.compileAndPlay, hinstalled]
  | false => simp [PlaybackEngine.compileAndPlay, hinstalled]

/-- Nothing but an install makes a handle ready, and nothing uninstalls its engine. -/
theorem installed_step {h : Handle ToneEngine}
    (hi : h.stage = .ready → h.engine.installed = true) (call : EngineCall) :
    (h.step call).2.stage = .ready → (h.step call).2.engine.installed = true := by
  cases ho : h.stage.ownAnswer call with
  | some answer =>
    rw [Handle.step_own ho]
    exact hi
  | none =>
    rw [Handle.step_run ho]
    cases call with
    | install => exact fun _ => rfl
    | play payload =>
      rw [runEngine, compileAndPlay_engine]
      exact hi
    | resume => exact hi

theorem installed_after {h : Handle ToneEngine}
    (hi : h.stage = .ready → h.engine.installed = true) (calls : List EngineCall) :
    (h.after calls).stage = .ready → (h.after calls).engine.installed = true := by
  induction calls generalizing h with
  | nil => exact hi
  | cons call rest ih => exact ih (installed_step hi call)

end ToneEngine

/-- Of any engine and any calls on a new handle over it: a record of the calls that reach the engine
changes no answer; the first install reaches it, and if that succeeds, all later calls but installs;
that install alone decides the stage, and its outcome is what later installs answer; a handle that
is not ready answers with its stage and leaves the engine alone, and one that is passes on what the
engine answers. A handle over an engine of tones is ready only if the engine counts as installed, so
the engine never has to say that it is not; and a new handle over it does not play until it is asked
to install, whatever handles there were before. -/
theorem install_runs_once :
    (∀ {σ : Type} [PlaybackEngine σ] (e : σ) (calls : List EngineCall),
      let installed := (PlaybackEngine.install e).1
      let h := (Handle.new (Recorded.mk e [])).after calls
      h.forget = (Handle.new e).after calls ∧
      (∀ call, (((Handle.new e).after calls).step call).1 = (h.step call).1) ∧
      h.engine.ran = Handle.reached installed calls ∧
      h.engine.ran.countP EngineCall.isInstall ≤ 1 ∧
      h.stage = Handle.stageAfter installed calls ∧
      (h.stage = .uninitialized →
        h.engine = ⟨e, []⟩ ∧ (h.step .install).1 = .done installed) ∧
      (h.stage = .ready → h.step .install = (.done (.ok ()), h)) ∧
      (∀ reason, h.stage = .failed reason →
        h.step .install = (.done (.error (.installFailed reason)), h)) ∧
      (h.stage ≠ .ready →
        (∀ payload, h.step (.play payload) = (.played (.error (.notReady h.stage.name)), h)) ∧
        h.step .resume = (.done (.error (.notReady h.stage.name)), h)) ∧
      (h.stage = .ready → ∀ call, call.isInstall = false →
        h.step call = ((runEngine h.engine.engine call).1, ⟨h.engine.record call, .ready⟩))) ∧
    ∀ (e : ToneEngine) (lives : List (List EngineCall)) (calls : List EngineCall),
      let h := (Handle.new (Handle.relived e lives)).after calls
      (h.isReady = true → h.engine.installed = true) ∧
      (h.isReady = true →
        ∀ payload stage, (h.play payload).1.value ≠ .error (.notReady stage)) ∧
      (calls.any (·.isInstall) = false →
        ∀ payload, (h.play payload).1.value = .error (.notReady "uninitialized")) := by
  constructor
  · intro σ _ e calls installed h
    obtain ⟨hstage, hran⟩ := Handle.after_new e calls
    refine ⟨Handle.forget_after_new e calls, ?_, hran, ?_, hstage, ?_, ?_, ?_, ?_, ?_⟩
    · intro call
      rw [← Handle.forget_after_new, Handle.step_forget]
    · rw [hran]
      exact countP_reached_le installed calls
    · intro hs
      have hc : calls.any (·.isInstall) = false := by
        rw [hs, Handle.stageAfter] at hstage
        cases hc : calls.any (·.isInstall) with
        | false => rfl
        | true =>
          rw [hc, if_pos rfl] at hstage
          cases hi : (PlaybackEngine.install e).1 <;> rw [hi] at hstage <;> cases hstage
      have hnew : h = Handle.new (Recorded.mk e []) := Handle.after_uninitialized rfl hc
      rw [hnew]
      exact ⟨rfl, congrArg Prod.fst (Handle.step_run rfl)⟩
    · intro hs
      exact Handle.step_own (by rw [hs]; rfl)
    · intro reason hs
      exact Handle.step_own (by rw [hs]; rfl)
    · intro hs
      constructor
      · intro payload
        apply Handle.step_own
        cases hstage : h.stage with
        | ready => exact absurd hstage hs
        | uninitialized | failed _ => rfl
      · apply Handle.step_own
        cases hstage : h.stage with
        | ready => exact absurd hstage hs
        | uninitialized | failed _ => rfl
    · intro hs call hc
      rw [Handle.step_ready hs hc, Recorded.runEngine_eq]
  · intro e lives calls h
    have hinstalled (hready : h.isReady = true) : h.engine.installed = true := by
      refine ToneEngine.installed_after ?_ calls (h.isReady_iff.mp hready)
      intro hnew
      cases hnew
    refine ⟨hinstalled, ?_, ?_⟩
    · intro hready payload stage
      rw [Handle.value_play, if_pos hready, ToneEngine.compileAndPlay_answer,
        if_pos (hinstalled hready)]
      exact h.engine.value_perform_ne_notReady payload stage
    · intro hc payload
      have hnew : h = Handle.new (Handle.relived e lives) := Handle.after_uninitialized rfl hc
      rw [hnew]
      rfl

/-- The engine counts as installed, and a new handle over it refuses to play all the same. -/
theorem install_runs_once_torn_down :
    let e := Handle.relived (ToneEngine.new 48000 128) [[.install]]
    e.installed = true ∧ [EngineCall.resume].any (·.isInstall) = false ∧
      ∀ payload, (((Handle.new e).after [.resume]).play payload).1.value =
        .error (.notReady "uninitialized") := by
  intro e
  have hinstalled : e.installed = true := rfl
  have hcalls : [EngineCall.resume].any (·.isInstall) = false := rfl
  refine ⟨hinstalled, hcalls, ?_⟩
  exact (install_runs_once.2 (ToneEngine.new 48000 128) [[.install]] [.resume]).2.2 hcalls

end TuneRelay.Engine
