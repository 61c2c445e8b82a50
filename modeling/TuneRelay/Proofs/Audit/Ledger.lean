import TuneRelay.Proofs.Blob.Bijection
import TuneRelay.Proofs.Engine.Playback
import TuneRelay.Proofs.Mml.Rounds
import Mathlib.Data.List.TakeWhile

/-!
# What the log holds

No check of the control path can fail, since the results that are checked have what the checks ask
for. So the log holds the rules of the calls that succeeded, and those of the calls that succeeded
within a call that was refused.
-/
namespace TuneRelay.Audit
open Engine Mml

/-- All checks of a result hold, and these are the ids of their rules. -/
structure Earns {α : Type} (x : Audited α) (ids : List Nat) : Prop where
  hold : ∀ c ∈ x.checks, c.holds = true
  ids_eq : x.checks.map (·.rule.id) = ids

variable {α β ε : Type}

theorem Earns.pure (a : α) : Earns (Pure.pure a) [] := ⟨by simp [Pure.pure], rfl⟩

theorem Earns.check {rule : Rule} {holds : Bool} (h : holds = true) :
    Earns (.check rule holds) [rule.id] := ⟨by simp [Audited.check, h], rfl⟩

theorem Earns.bind {x : Audited α} {f : α → Audited β} {ids more : List Nat}
    (hx : Earns x ids) (hf : Earns (f x.value) more) : Earns (x >>= f) (ids ++ more) := by
  have hchecks : (x >>= f).checks = x.checks ++ (f x.value).checks := rfl
  constructor
  · intro c hc
    rw [hchecks, List.mem_append] at hc
    rcases hc with hc | hc
    · exact hx.hold c hc
    · exact hf.hold c hc
  · rw [hchecks, List.map_append, hx.ids_eq, hf.ids_eq]

theorem Earns.bind_nil {x : Audited α} {f : α → Audited β} {ids : List Nat}
    (hx : Earns x ids) (hf : Earns (f x.value) []) : Earns (x >>= f) ids := by
  simpa using hx.bind hf

theorem Earns.check_then {rule : Rule} {holds : Bool} {x : Audited α} {ids : List Nat}
    (h : holds = true) (hx : Earns x ids) :
    Earns (Audited.check rule holds >>= fun _ => x) (rule.id :: ids) := (Earns.check h).bind hx

/-- These ids, if the result is not a fault. -/
def onSuccess (result : Except ε α) (ids : List Nat) : List Nat :=
  match result with
  | .ok _ => ids
  | .error _ => []

@[simp] theorem onSuccess_map (result : Except ε α) (f : α → β) (ids : List Nat) :
    onSuccess (result.map f) ids = onSuccess result ids := by
  cases result <;> rfl

theorem earns_sanitize (raw : List Char) : Earns (Audit.sanitize raw) [1, 2, 3] := by
  have hclean := clean_sanitize raw
  have hzero := hclean.hasWindow_eq_false fun w h => isEscape_eq_or.mpr (.inl h)
  have hhex := hclean.hasWindow_eq_false fun w h => isEscape_eq_or.mpr (.inr h)
  have hround : Mml.round (Mml.sanitize raw).text.chars = (Mml.sanitize raw).text.chars :=
    isFixedPt_round_sanitize raw
  refine .check_then ?_ (.check_then ?_ (.check_then ?_ (.pure _)))
  · exact List.all_eq_true.mpr hclean.printable
  · rw [hzero, hhex]
    rfl
  · rw [hround]
    exact beq_self_eq_true _

theorem Earns.ofResult {checks : α → List Check} {result : Except ε α} {ids : List Nat}
    (hhold : ∀ a, result = .ok a → ∀ c ∈ checks a, c.holds = true)
    (hids : ∀ a, (checks a).map (·.rule.id) = ids) :
    Earns (Audit.ofResult checks result) (onSuccess result ids) := by
  cases result with
  | error fault => exact .pure _
  | ok a => exact ⟨hhold a rfl, hids a⟩

theorem holds_layoutCheck {tempo : Nat} {notes : List Note} {width : TempoWidth} {blob : Blob}
    (h : Blob.encode tempo notes width = .ok blob) :
    (layoutCheck blob notes width).holds = true := by
  obtain ⟨-, hbytes⟩ := Blob.encode_eq_ok_iff.mp h
  rw [layoutCheck, hbytes, Blob.layout_length]
  exact beq_self_eq_true _

theorem earns_encode (tempo : Nat) (notes : List Note) (width : TempoWidth) :
    Earns (Audit.encode tempo notes width)
      (onSuccess (Audit.encode tempo notes width).value [6]) :=
  .ofResult (fun _ h => List.forall_mem_singleton.mpr (holds_layoutCheck h)) fun _ => rfl

theorem earns_decode (bytes : List UInt8) :
    Earns (Audit.decode bytes) (onSuccess (Audit.decode bytes).value [7]) := by
  refine .ofResult (fun tune h => List.forall_mem_singleton.mpr ?_) fun _ => rfl
  exact decide_eq_true (Blob.decode_eq_ok_iff.mp h).2.1

theorem onSuccess_ofBytes (bytes : List UInt8) (ids : List Nat) :
    onSuccess (Blob.ofBytes bytes) ids = onSuccess (Blob.decode bytes) ids := by
  unfold Blob.ofBytes
  split
  · rename_i fault h
    rw [h]
    rfl
  · rename_i tune h
    change ids = onSuccess (Blob.decode bytes) ids
    rw [h]
    rfl

theorem earns_blobOfBytes (bytes : List UInt8) :
    Earns (blobOfBytes bytes) (onSuccess (blobOfBytes bytes).value [7]) := by
  rw [value_blobOfBytes, onSuccess_ofBytes, ← value_decode]
  exact (earns_decode bytes).bind_nil (.pure _)

/-- The encoder is called last, and its check comes before those of the compiler. -/
theorem earns_compile (text : SanitizedText) (options : CompileOptions) :
    Earns (Audit.compile text options)
      (onSuccess (Audit.compile text options).value [6, 4, 5]) := by
  refine .ofResult (fun c h => ?_) fun _ => rfl
  obtain ⟨hnotes, hencode⟩ := compile_eq_ok h
  have htempo : c.tempo ≤ options.tempoWidth.maxTempo := (Blob.encode_eq_ok_iff.mp hencode).1
  have hlength : c.notes.length ≤ (body text options).length := by
    rw [hnotes]
    exact List.length_filterMap_le _ _
  simp [holds_layoutCheck hencode, htempo, hlength]

theorem earns_compileText (raw : List Char) (options : CompileOptions) :
    Earns (Audit.compileText raw options)
      ([1, 2, 3] ++ onSuccess (Audit.compileText raw options).value [6, 4, 5]) := by
  rw [value_compileText, Mml.compileText, onSuccess_map, ← value_compile]
  exact (earns_sanitize raw).bind ((earns_compile _ options).bind_nil (.pure _))

/-- A handle that is ready adds one check to those of its engine. -/
theorem earns_play {σ : Type} [PlaybackEngine σ] {h : Handle σ} {payload : Payload}
    {ids : List Nat} (hready : h.isReady = true)
    (hearns : Earns (PlaybackEngine.compileAndPlay h.engine payload).1 ids) :
    Earns (h.play payload).1 (ids ++ onSuccess (h.play payload).1.value [8]) := by
  rw [Handle.value_play, if_pos hready]
  unfold Handle.play
  rw [if_pos hready]
  refine hearns.bind ?_
  cases (PlaybackEngine.compileAndPlay h.engine payload).1.value with
  | error fault => exact .pure _
  | ok blocks => exact .check_then hready (.pure _)

theorem earns_play_of_not_ready {σ : Type} [PlaybackEngine σ] {h : Handle σ}
    (hready : h.isReady = false) (payload : Payload) : Earns (h.play payload).1 [] := by
  unfold Handle.play
  rw [hready]
  exact .pure _

/-- The ids of what an engine does to read a payload. -/
def idsOfReading (e : ToneEngine) : Payload → List Nat
  | .text text => onSuccess (Audit.compile text e.options).value [6, 4, 5]
  | .blob blob => onSuccess (Audit.decode blob.bytes).value [7]

theorem earns_perform (e : ToneEngine) (payload : Payload) :
    Earns (e.perform payload) (idsOfReading e payload) := by
  have hnotes : Earns (e.notesOf payload) (idsOfReading e payload) := by
    cases payload with
    | text text => exact (earns_compile text e.options).bind_nil (.pure _)
    | blob blob => exact (earns_decode blob.bytes).bind_nil (.pure _)
  refine hnotes.bind_nil ?_
  cases (e.notesOf payload).value with
  | error fault => exact .pure _
  | ok found => exact .pure _

theorem earns_compileAndPlay (e : ToneEngine) (payload : Payload) :
    Earns (PlaybackEngine.compileAndPlay e payload).1
      (if e.installed then idsOfReading e payload else []) := by
  rw [ToneEngine.compileAndPlay_answer]
  split
  · exact earns_perform e payload
  · exact .pure _

theorem earns_tone_play (h : Handle ToneEngine) (payload : Payload) :
    Earns (h.play payload).1
      ((if h.isReady && h.engine.installed then idsOfReading h.engine payload else []) ++
        onSuccess (h.play payload).1.value [8]) := by
  cases hready : h.isReady with
  | true => exact earns_play hready (earns_compileAndPlay h.engine payload)
  | false =>
    rw [Handle.value_play, hready]
    exact earns_play_of_not_ready hready payload

inductive ControlCall
  | sanitize (raw : List Char)
  | compile (text : SanitizedText) (options : CompileOptions)
  | compileText (raw : List Char) (options : CompileOptions)
  | encode (tempo : Nat) (notes : List Note) (width : TempoWidth)
  | decode (bytes : List UInt8)
  | ofBytes (bytes : List UInt8)
  | play (h : Handle ToneEngine) (payload : Payload)

/-- The ids that a call adds to the log. A play reads its payload if its handle is ready and its
engine installed, whatever becomes of the rendering. -/
def ControlCall.earned : ControlCall → List Nat
  | sanitize _ => [1, 2, 3]
  | compile text options => onSuccess (Audit.compile text options).value [6, 4, 5]
  | compileText raw options =>
    [1, 2, 3] ++ onSuccess (Audit.compileText raw options).value [6, 4, 5]
  | encode tempo notes width => onSuccess (Audit.encode tempo notes width).value [6]
  | decode bytes => onSuccess (Audit.decode bytes).value [7]
  | ofBytes bytes => onSuccess (blobOfBytes bytes).value [7]
  | play h payload =>
    (if h.isReady && h.engine.installed then idsOfReading h.engine payload else []) ++
      onSuccess (h.play payload).1.value [8]

def earned (calls : List ControlCall) : List Nat := calls.flatMap ControlCall.earned

/-- Logs the checks of a result; a check that fails ends the program with its message. -/
def Log.enter (log : Log) (x : Audited α) : Except String Log :=
  match x.fault? with
  | some check => .error check.violation
  | none => .ok (log.record x)

def Log.step (log : Log) : ControlCall → Except String Log
  | .sanitize raw => log.enter (Audit.sanitize raw)
  | .compile text options => log.enter (Audit.compile text options)
  | .compileText raw options => log.enter (Audit.compileText raw options)
  | .encode tempo notes width => log.enter (Audit.encode tempo notes width)
  | .decode bytes => log.enter (Audit.decode bytes)
  | .ofBytes bytes => log.enter (blobOfBytes bytes)
  | .play h payload => log.enter (h.play payload).1

def Log.after (log : Log) (calls : List ControlCall) : Except String Log :=
  calls.foldlM Log.step log

theorem mem_foldl_insert {ids seen : List Nat} {id : Nat} :
    id ∈ ids.foldl (fun seen id => seen.insert id) seen ↔ id ∈ seen ∨ id ∈ ids := by
  induction ids generalizing seen with
  | nil => simp
  | cons first rest ih =>
    rw [List.foldl_cons, ih, List.mem_insert_iff, List.mem_cons]
    tauto

theorem Log.enter_earned {x : Audited α} {ids : List Nat} (h : Earns x ids) (log : Log) :
    ∃ next, log.enter x = .ok next ∧ ∀ id, id ∈ next.ids ↔ id ∈ log.ids ∨ id ∈ ids := by
  have hfault : x.fault? = none := by
    rw [Audited.fault?, List.find?_eq_none]
    intro c hc
    simp [h.hold c hc]
  refine ⟨log.record x, ?_, ?_⟩
  · rw [enter, hfault]
  · intro id
    -- No check fails, so the log is not cut short.
    rw [record, List.takeWhile_eq_self_iff.mpr h.hold, h.ids_eq]
    exact mem_foldl_insert

theorem Log.step_earned (log : Log) (call : ControlCall) :
    ∃ next, log.step call = .ok next ∧
      ∀ id, id ∈ next.ids ↔ id ∈ log.ids ∨ id ∈ call.earned := by
  cases call with
  | sanitize raw => exact enter_earned (earns_sanitize raw) log
  | compile text options => exact enter_earned (earns_compile text options) log
  | compileText raw options => exact enter_earned (earns_compileText raw options) log
  | encode tempo notes width => exact enter_earned (earns_encode tempo notes width) log
  | decode bytes => exact enter_earned (earns_decode bytes) log
  | ofBytes bytes => exact enter_earned (earns_blobOfBytes bytes) log
  | play h payload => exact enter_earned (earns_tone_play h payload) log

theorem Log.after_earned (log : Log) (calls : List ControlCall) :
    ∃ next, log.after calls = .ok next ∧
      ∀ id, id ∈ next.ids ↔ id ∈ log.ids ∨ id ∈ earned calls := by
  induction calls generalizing log with
  | nil => exact ⟨log, rfl, by simp [earned]⟩
  | cons call rest ih =>
    obtain ⟨middle, hstep, hmiddle⟩ := log.step_earned call
    obtain ⟨next, hafter, hnext⟩ := ih middle
    refine ⟨next, ?_, ?_⟩
    · rw [after, List.foldlM_cons, hstep]
      exact hafter
    · intro id
      rw [hnext, hmiddle, earned, earned, List.flatMap_cons, List.mem_append, or_assoc]

theorem Log.contract_eq {log : Log} {ids : List Nat} (h : ∀ id, id ∈ log.ids ↔ id ∈ ids)
    (name : String) (required : List Nat) :
    log.contract name required =
      if ∀ id ∈ required, id ∈ ids then .ok ()
      else
        let list := ", ".intercalate ((required.filter (· ∉ ids)).map toString)
        .error s!"Contract test '{name}' failed: invariants not enforced: [{list}]" := by
  have hmissing : log.missing required = required.filter (· ∉ ids) := by
    apply List.filter_congr
    intro id _
    simp [h]
  rw [contract, hmissing]
  split
  · rename_i hnone
    rw [if_pos (by simpa using hnone)]
  · rename_i hsome
    rw [if_neg (by simpa using hsome)]

example : Log.contract ⟨[3, 2, 1]⟩ "compile" [4, 1, 6, 4] =
    .error "Contract test 'compile' failed: invariants not enforced: [4, 6, 4]" := by rfl

/-- From an empty log, calls of the control path end without a failed check, the log then holds what
they earned, and a contract asks for no more than that. -/
theorem log_of_control_calls (calls : List ControlCall) :
    ∃ log, Log.after {} calls = .ok log ∧
      (∀ id, id ∈ log.ids ↔ id ∈ earned calls) ∧
      ∀ name required, log.contract name required =
        if ∀ id ∈ required, id ∈ earned calls then .ok ()
        else
          let list := ", ".intercalate ((required.filter (· ∉ earned calls)).map toString)
          .error s!"Contract test '{name}' failed: invariants not enforced: [{list}]" := by
  obtain ⟨log, hafter, hids⟩ := Log.after_earned {} calls
  have hearned (id : Nat) : id ∈ log.ids ↔ id ∈ earned calls := by simpa using hids id
  exact ⟨log, hafter, hearned, Log.contract_eq hearned⟩

/-- A tempo too large for its field: what was sanitized stays in the log. -/
example : (Log.after {} [.compileText "T256 c".toList {}]).map Log.ids = .ok [3, 2, 1] := by rfl

end TuneRelay.Audit
