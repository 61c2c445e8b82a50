import TuneRelay.Proofs.Cli.Plans
import TuneRelay.Proofs.Cli.Stores

/-!
# Commands change one file or none

A command that cannot be planned, for its configuration, its input or what the input says, ends
before anything is written. One that can be planned writes one file at most, which then holds all of
what was planned.
-/
namespace TuneRelay.Cli
open Engine Mml Text

section Calls

variable {State α β : Type} {s next : State}

theorem run_bind_ok {x : ExceptT CommandError (StateM State) α} {a : α}
    (h : x.run s = (.ok a, next)) (f : α → ExceptT CommandError (StateM State) β) :
    (x >>= f).run s = (f a).run next := by
  change ExceptT.bindCont f (x.run s).1 (x.run s).2 = _
  rw [h]
  rfl

theorem run_bind_error {x : ExceptT CommandError (StateM State) α} {fault : CommandError}
    (h : x.run s = (.error fault, next)) (f : α → ExceptT CommandError (StateM State) β) :
    (x >>= f).run s = (.error fault, next) := by
  change ExceptT.bindCont f (x.run s).1 (x.run s).2 = _
  rw [h]
  rfl

end Calls

section Reading

variable {State File : Type} (lib : Libraries) (store : Store State File) (s : State)

/-- The configuration of a command comes from the file that it names, or is made of defaults. -/
inductive Configured : Option String → Config → Prop
  | default : Configured none {}
  | file {path config} (h : GoodConfig lib.toml (store.read s path) config) :
      Configured (some path) config

/-- A command has nothing to carry out: it names a file that is no configuration, its input is not
there or cannot be read, or the input is refused. -/
inductive Hindered (invocation : Invocation) : Prop
  | config {path} (hpath : invocation.config = some path)
      (h : BadConfig lib.toml (store.read s path))
  | missing (h : store.fileExists s invocation.command.input = false)
  | unreadable {fault} (h : store.read s invocation.command.input = .error fault)
  | refused {config bytes} (hconfig : Configured lib store s invocation.config config)
      (hinput : store.read s invocation.command.input = .ok bytes)
      (h : Refused lib.functions config bytes invocation.command)

/-- What reading the configuration comes to. -/
def configOf : Option String → Except CommandError Config
  | none => .ok {}
  | some path => readConfig lib.toml path (store.read s path)

def inputOf (path : String) : Except CommandError (List UInt8) :=
  if store.fileExists s path then (store.read s path).mapError .file
  else .error (.missingInput path)

def planOf (invocation : Invocation) : Except CommandError Plan :=
  (configOf lib store s invocation.config).bind fun config =>
    (inputOf store s invocation.command.input).bind fun bytes =>
      invocation.command.plan lib config bytes

theorem loadConfig_run (config : Option String) :
    (loadConfig lib store.fileSystem config).run s = (configOf lib store s config, s) := by
  cases config <;> rfl

theorem readInput_run (path : String) :
    (readInput store.fileSystem path).run s = (inputOf store s path, s) := by
  unfold inputOf
  change (ite (store.fileExists s path = true) (attempt .file (store.fileSystem.read path))
    (throw (.missingInput path)) : ExceptT CommandError (StateM State) (List UInt8)).run s = _
  split <;> rfl

theorem prepare_run (invocation : Invocation) :
    (prepare lib store.fileSystem invocation).run s = (planOf lib store s invocation, s) := by
  have hconfig := loadConfig_run lib store s invocation.config
  have hinput := readInput_run store s invocation.command.input
  unfold planOf prepare
  cases hload : configOf lib store s invocation.config with
  | error fault =>
    rw [hload] at hconfig
    exact run_bind_error hconfig _
  | ok config =>
    rw [hload] at hconfig
    refine (run_bind_ok hconfig _).trans ?_
    cases hread : inputOf store s invocation.command.input with
    | error fault =>
      rw [hread] at hinput
      exact run_bind_error hinput _
    | ok bytes =>
      rw [hread] at hinput
      exact run_bind_ok hinput _

variable {lib store s} {invocation : Invocation} {named : Option String}

theorem configOf_eq_ok_iff {config : Config} :
    configOf lib store s named = .ok config ↔ Configured lib store s named config := by
  cases named with
  | none =>
    constructor
    · rintro ⟨⟩
      exact .default
    · rintro ⟨⟩
      rfl
  | some path =>
    rw [configOf, readConfig_eq_ok_iff]
    constructor
    · exact .file
    · rintro (_ | h)
      exact h

theorem exists_configOf_error :
    (∃ fault, configOf lib store s named = .error fault) ↔
      ∃ path, named = some path ∧ BadConfig lib.toml (store.read s path) := by
  cases named with
  | none => simp [configOf]
  | some path => simp [configOf, exists_readConfig_error]

theorem inputOf_eq_ok_iff {path : String} {bytes : List UInt8} :
    inputOf store s path = .ok bytes ↔
      store.fileExists s path = true ∧ store.read s path = .ok bytes := by
  unfold inputOf
  cases store.fileExists s path <;> cases store.read s path <;> simp [Except.mapError]

theorem exists_inputOf_error {path : String} :
    (∃ fault, inputOf store s path = .error fault) ↔
      store.fileExists s path = false ∨ ∃ fault, store.read s path = .error fault := by
  unfold inputOf
  cases store.fileExists s path <;> cases store.read s path <;> simp [Except.mapError]

/-- A command is planned unless it is hindered. -/
theorem exists_planOf_error :
    (∃ fault, planOf lib store s invocation = .error fault) ↔
      Hindered lib store s invocation := by
  have hinput (hbad : store.fileExists s invocation.command.input = false ∨
      ∃ fault, store.read s invocation.command.input = .error fault) :
      ∃ fault, planOf lib store s invocation = .error fault := by
    rw [planOf, exists_bind_eq_error]
    cases hconfig : configOf lib store s invocation.config with
    | error fault => exact .inl ⟨fault, rfl⟩
    | ok config =>
      exact .inr ⟨config, rfl, exists_bind_eq_error.mpr (.inl (exists_inputOf_error.mpr hbad))⟩
  constructor
  · intro h
    rcases exists_bind_eq_error.mp h with hconfig | ⟨config, hconfig, hrest⟩
    · obtain ⟨path, hpath, hbad⟩ := exists_configOf_error.mp hconfig
      exact .config hpath hbad
    rcases exists_bind_eq_error.mp hrest with hbad | ⟨bytes, hbytes, hplan⟩
    · rcases exists_inputOf_error.mp hbad with hmissing | ⟨fault, hfault⟩
      · exact .missing hmissing
      · exact .unreadable hfault
    · exact .refused (configOf_eq_ok_iff.mp hconfig) (inputOf_eq_ok_iff.mp hbytes).2
        (exists_plan_error.mp hplan)
  · intro h
    cases h with
    | config hpath hbad =>
      exact exists_bind_eq_error.mpr (.inl (exists_configOf_error.mpr ⟨_, hpath, hbad⟩))
    | missing hmissing => exact hinput (.inl hmissing)
    | unreadable hfault => exact hinput (.inr ⟨_, hfault⟩)
    | refused hconfig hbytes hrefused =>
      cases hthere : store.fileExists s invocation.command.input with
      | false => exact hinput (.inl hthere)
      | true =>
        have hconfig := configOf_eq_ok_iff.mpr hconfig
        have hbytes := inputOf_eq_ok_iff.mpr ⟨hthere, hbytes⟩
        exact exists_bind_eq_error.mpr (.inr ⟨_, hconfig,
          exists_bind_eq_error.mpr (.inr ⟨_, hbytes, exists_plan_error.mpr hrefused⟩)⟩)

theorem planOf_eq_ok {plan : Plan} (h : planOf lib store s invocation = .ok plan) :
    ∃ config bytes, Configured lib store s invocation.config config ∧
      store.read s invocation.command.input = .ok bytes ∧
      invocation.command.plan lib config bytes = .ok plan := by
  obtain ⟨config, hconfig, hrest⟩ := bind_eq_ok_iff.mp h
  obtain ⟨bytes, hinput, hplan⟩ := bind_eq_ok_iff.mp hrest
  exact ⟨config, bytes, configOf_eq_ok_iff.mp hconfig, (inputOf_eq_ok_iff.mp hinput).2, hplan⟩

end Reading

section Running

variable {State File : Type} {lib : Libraries} {store : Store State File} {s : State}
  {arguments : List String} {invocation : Invocation}

theorem run_stopped {stop : Stop} (h : lib.arguments arguments = .error stop) :
    run lib store.fileSystem arguments s = (.stopped stop, s) := by
  unfold run
  rw [h]
  rfl

/-- An invocation ends as preparing and carrying out its plan ends. -/
theorem run_eq (h : lib.arguments arguments = .ok invocation) {ended : Except CommandError String}
    {next : State}
    (hrun : (prepare lib store.fileSystem invocation >>= carryOut store.fileSystem).run s =
      (ended, next)) :
    run lib store.fileSystem arguments s = (.ofResult ended, next) := by
  unfold run
  rw [h]
  change (Ending.ofResult ((prepare lib store.fileSystem invocation >>=
      carryOut store.fileSystem).run s).1,
    ((prepare lib store.fileSystem invocation >>= carryOut store.fileSystem).run s).2) = _
  rw [hrun]

theorem run_unplanned (h : lib.arguments arguments = .ok invocation) {fault : CommandError}
    (hplan : planOf lib store s invocation = .error fault) :
    run lib store.fileSystem arguments s = (.failed fault, s) := by
  have hprepare := prepare_run lib store s invocation
  rw [hplan] at hprepare
  exact run_eq h (run_bind_error hprepare _)

/-- A plan is carried out in the state that it was made in. -/
theorem run_planned (h : lib.arguments arguments = .ok invocation) {plan : Plan}
    (hplan : planOf lib store s invocation = .ok plan) {ended : Except CommandError String}
    {next : State} (hrun : (carryOut store.fileSystem plan).run s = (ended, next)) :
    run lib store.fileSystem arguments s = (.ofResult ended, next) := by
  have hprepare := prepare_run lib store s invocation
  rw [hplan] at hprepare
  exact run_eq h ((run_bind_ok hprepare _).trans hrun)

section Writing

variable {path text : String} {bytes : List UInt8} {asError : FileError → CommandError}

theorem attempt_run {α : Type} {call : StateM State (Except FileError α)}
    {result : Except FileError α} {next : State} (h : call s = (result, next)) :
    (attempt asError call).run s = (result.mapError asError, next) := by
  change ((call s).1.mapError asError, (call s).2) = _
  rw [h]

theorem carryOut_uncreated {fault : FileError} (h : store.create s path = .error fault) :
    (carryOut store.fileSystem (.write path bytes asError text)).run s =
      (.error (asError fault), s) := by
  have hcreate : store.fileSystem.create path s = (.error fault, s) := by
    simp only [Store.fileSystem, h]
  exact run_bind_error (attempt_run hcreate) _

theorem carryOut_written {file : File} {next after : State}
    (hcreate : store.create s path = .ok (file, next))
    (hfill : store.fill next file bytes = (.ok (), after)) :
    (carryOut store.fileSystem (.write path bytes asError text)).run s = (.ok text, after) := by
  have hcreated : store.fileSystem.create path s = (.ok file, next) := by
    simp only [Store.fileSystem, hcreate]
  have hfilled : store.fileSystem.fill file bytes next = (.ok (), after) := hfill
  exact (run_bind_ok (attempt_run hcreated) _).trans (run_bind_ok (attempt_run hfilled) _)

end Writing

/-- A file that holds a blob can be inspected. -/
theorem run_inspect_blob (hstore : store.Lawful) {path : String} {blob : Blob}
    (hread : store.read s path = .ok blob.bytes)
    (h : lib.arguments arguments = .ok ⟨none, .inspect path⟩) :
    ∃ text, run lib store.fileSystem arguments s = (.done text, s) := by
  obtain ⟨tune, htune⟩ := blob.decodes
  obtain ⟨file, hfile, -⟩ := (hstore.read_iff s path blob.bytes).mp hread
  have hinput : inputOf store s path = .ok blob.bytes :=
    inputOf_eq_ok_iff.mpr ⟨hstore.there s path file hfile, hread⟩
  have hplan : ∃ text, planOf lib store s ⟨none, .inspect path⟩ = .ok (.print text) := by
    simp [planOf, configOf, Command.input, hinput, Except.bind, Command.plan, planInspect, htune]
  obtain ⟨text, hplan⟩ := hplan
  exact ⟨text, run_planned h hplan rfl⟩

/-- How a run can end, and with what files. -/
inductive Outcome (lib : Libraries) (store : Store State File) (s : State)
    (invocation : Invocation) : Ending × State → Prop
  | hindered {fault} (h : Hindered lib store s invocation) :
      Outcome lib store s invocation (.failed fault, s)
  | printed {text} (hfree : ¬ Hindered lib store s invocation)
      (hnone : invocation.command.output? = none) :
      Outcome lib store s invocation (.done text, s)
  | uncreated {output reason fault} (hfree : ¬ Hindered lib store s invocation)
      (hsome : invocation.command.output? = some output)
      (h : store.create s output = .error reason) :
      Outcome lib store s invocation (.failed fault, s)
  | wrote {output created config bytes content text after}
      (hfree : ¬ Hindered lib store s invocation)
      (hsome : invocation.command.output? = some output)
      (hcreate : store.create s output = .ok created)
      (hconfig : Configured lib store s invocation.config config)
      (hinput : store.read s invocation.command.input = .ok bytes)
      (hproduct : Product lib config bytes invocation.command content)
      (h : store.Wrote s after output content) :
      Outcome lib store s invocation (.done text, after)

theorem run_outcome (hstore : store.Lawful) (hroom : store.HasRoom) (s : State)
    (h : lib.arguments arguments = .ok invocation) :
    Outcome lib store s invocation (run lib store.fileSystem arguments s) := by
  cases hplan : planOf lib store s invocation with
  | error fault =>
    rw [run_unplanned h hplan]
    exact .hindered (exists_planOf_error.mp ⟨fault, hplan⟩)
  | ok plan =>
    have hfree : ¬ Hindered lib store s invocation := by
      rw [← exists_planOf_error]
      rintro ⟨fault, hfault⟩
      rw [hplan] at hfault
      cases hfault
    obtain ⟨config, bytes, hconfig, hinput, hmade⟩ := planOf_eq_ok hplan
    rcases plan_eq_ok hmade with
      ⟨hnone, text, rfl⟩ | ⟨output, content, asError, text, hsome, hproduct, rfl⟩
    · rw [run_planned h hplan rfl]
      exact .printed hfree hnone
    · cases hcreate : store.create s output with
      | error reason =>
        rw [run_planned h hplan (carryOut_uncreated hcreate)]
        exact .uncreated hfree hsome hcreate
      | ok created =>
        obtain ⟨file, next⟩ := created
        obtain ⟨after, hfill⟩ := hroom s output file next content hcreate
        rw [run_planned h hplan (carryOut_written hcreate hfill)]
        exact .wrote hfree hsome hcreate hconfig hinput hproduct (hstore.wrote hcreate hfill)

section Outcomes

variable {ended : Ending × State} (h : Outcome lib store s invocation ended)
include h

theorem Outcome.eq_of_failed (hcode : ended.1.exitCode ≠ 0) : ended.2 = s := by
  cases h with
  | wrote => exact absurd rfl hcode
  | _ => rfl

theorem Outcome.eq_of_output_none (hnone : invocation.command.output? = none) : ended.2 = s := by
  cases h with
  | wrote _ hsome =>
    rw [hnone] at hsome
    cases hsome
  | _ => rfl

theorem Outcome.failed_iff : ended.1.exitCode ≠ 0 ↔ Hindered lib store s invocation ∨
    ∃ output fault, invocation.command.output? = some output ∧
      store.create s output = .error fault := by
  cases h with
  | hindered h => simp [Ending.exitCode, h]
  | printed hfree hnone => simp [Ending.exitCode, hfree, hnone]
  | uncreated hfree hsome h => simp [Ending.exitCode, hsome, h]
  | wrote hfree hsome hcreate => simp [Ending.exitCode, hfree, hsome, hcreate]

theorem Outcome.exists_product (hcode : ended.1.exitCode = 0) {output : String}
    (hsome : invocation.command.output? = some output) : ∃ config bytes content,
      Configured lib store s invocation.config config ∧
      store.read s invocation.command.input = .ok bytes ∧
      Product lib config bytes invocation.command content ∧
      store.Wrote s ended.2 output content := by
  cases h with
  | printed _ hnone =>
    rw [hnone] at hsome
    cases hsome
  | wrote _ hpath _ hconfig hinput hproduct h =>
    obtain rfl := Option.some.inj (hpath.symm.trans hsome)
    exact ⟨_, _, _, hconfig, hinput, hproduct, h⟩
  | _ => cases hcode

/-- What compiling leaves can be inspected. -/
theorem Outcome.run_inspect (hstore : store.Lawful) (hcode : ended.1.exitCode = 0)
    {input output : String} (hcommand : invocation.command = .compile input output)
    {again : List String} (hagain : lib.arguments again = .ok ⟨none, .inspect output⟩) :
    ∃ text, run lib store.fileSystem again ended.2 = (.done text, ended.2) := by
  obtain ⟨config, bytes, content, -, -, hproduct, file, hfile, hcontent, -⟩ :=
    h.exists_product hcode (by rw [hcommand]; rfl)
  rw [hcommand] at hproduct
  cases hproduct
  exact run_inspect_blob hstore ((hstore.read_iff _ _ _).mpr ⟨file, hfile, hcontent⟩) hagain

end Outcomes

/-- A run that fails changes no file. One fails exactly if its command is hindered or its output
cannot be created. A command that succeeds leaves its product where its output path leads, and
nothing else has changed, or nothing at all if it has no output; and the blob that compiling leaves
can be inspected. All this takes a store in which a file that has been created can be filled. -/
theorem runs_all_or_nothing (lib : Libraries) {store : Store State File} (hstore : store.Lawful)
    (hroom : store.HasRoom) (s : State) (arguments : List String) :
    let ended := run lib store.fileSystem arguments s
    (ended.1.exitCode ≠ 0 → ended.2 = s) ∧
    (∀ stop, lib.arguments arguments = .error stop → ended.2 = s) ∧
    ∀ invocation, lib.arguments arguments = .ok invocation →
      (ended.1.exitCode ≠ 0 ↔ Hindered lib store s invocation ∨
        ∃ output fault, invocation.command.output? = some output ∧
          store.create s output = .error fault) ∧
      (ended.1.exitCode = 0 →
        (invocation.command.output? = none → ended.2 = s) ∧
        (∀ output, invocation.command.output? = some output → ∃ config bytes content,
          Configured lib store s invocation.config config ∧
          store.read s invocation.command.input = .ok bytes ∧
          Product lib config bytes invocation.command content ∧
          store.Wrote s ended.2 output content) ∧
        ∀ input output again, invocation.command = .compile input output →
          lib.arguments again = .ok ⟨none, .inspect output⟩ →
            ∃ text, run lib store.fileSystem again ended.2 = (.done text, ended.2)) := by
  intro ended
  cases hparse : lib.arguments arguments with
  | error stop =>
    have hended : ended = (.stopped stop, s) := run_stopped hparse
    simp [hended]
  | ok invocation =>
    have houtcome : Outcome lib store s invocation ended := run_outcome hstore hroom s hparse
    refine ⟨houtcome.eq_of_failed, by simp, ?_⟩
    rintro _ ⟨⟩
    refine ⟨houtcome.failed_iff, fun hcode => ⟨houtcome.eq_of_output_none, ?_, ?_⟩⟩
    · exact fun output hsome => houtcome.exists_product hcode hsome
    · exact fun input output again hcommand hagain =>
        houtcome.run_inspect hstore hcode hcommand hagain

end Running

/-- The configuration, the input and the place of the output settle what compiling leaves there. -/
theorem lookup_of_compiled {lib : Libraries} {d after : Disk} {named : Option String}
    {input output : String} {config : Config} {bytes content : List UInt8} {place : Place}
    (hwritten : ∃ config bytes content, Configured lib Disk.store d named config ∧
      Disk.store.read d input = .ok bytes ∧
      Product lib config bytes (.compile input output) content ∧
      Disk.store.Wrote d after output content)
    (hconfig : configOf lib Disk.store d named = .ok config)
    (hinput : Disk.store.read d input = .ok bytes)
    (hcontent : (compileText (decodeLossy bytes) config.compiler).map
      (fun c => c.1.blob.bytes) = .ok content)
    (hplace : d.locate output = .file place) :
    after.files.lookup place = some content ∧
      ∀ other, other ≠ place → after.files.lookup other = d.files.lookup other := by
  obtain ⟨found, read, written, hfound, hread, hproduct, hwrote⟩ := hwritten
  rw [configOf_eq_ok_iff.mpr hfound] at hconfig
  cases hconfig
  rw [hread] at hinput
  cases hinput
  rw [hproduct.compile_eq] at hcontent
  cases hcontent
  exact Disk.lookup_of_wrote hwrote hplace

/-- A tune in a folder, another file, and two configurations, of which one is no text. -/
def tree : Disk where
  files := [(["tunes", "old", "a"], encodeUtf8 "T200 c".toList), (["out", "b"], [1, 2, 3]),
    (["good"], encodeUtf8 "[compiler]\ntempo_width = \"u16\"\n".toList), (["bad"], [0xff])]
  folders := [["tunes"], ["tunes", "old"], ["out"]]
  here := ["tunes"]

/-- How the program ends in that tree, and the tree that it leaves. -/
def runInTree (arguments : List String) : Ending × Disk :=
  run .standard Disk.store.fileSystem arguments tree

/-- The tune compiled over the other file as that configuration says, and over itself by default;
with the other configuration, or if there is no tune, it stays as it is. -/
theorem runs_all_or_nothing_in_place :
    let made := runInTree ["-c", "/good", "compile", "old/a", "../out/b"]
    let replaced := runInTree ["compile", "old/a", "/tunes/old/a"]
    let misconfigured := runInTree ["-c", "../bad", "compile", "old/a", "old/a"]
    let missing := runInTree ["render", "c", "old/a"]
    Disk.store.Lawful ∧ Disk.store.HasRoom ∧
      (made.1.exitCode = 0 ∧
        made.2.files.lookup ["out", "b"] = some [90, 77, 85, 83, 73, 67, 1, 2, 0, 200, 67] ∧
        made.2.files.lookup ["tunes", "old", "a"] = some (encodeUtf8 "T200 c".toList)) ∧
      (replaced.1.exitCode = 0 ∧ replaced.2.files.lookup ["tunes", "old", "a"] =
        some [90, 77, 85, 83, 73, 67, 1, 1, 200, 67]) ∧
      (misconfigured.1.exitCode ≠ 0 ∧ misconfigured.2 = tree) ∧
      missing.1.exitCode ≠ 0 ∧ missing.2 = tree := by
  dsimp only
  have hall := runs_all_or_nothing .standard Disk.lawful_store Disk.hasRoom_store tree
  have hrun : ∀ arguments, run .standard Disk.store.fileSystem arguments tree =
    runInTree arguments := fun _ => rfl
  simp only [hrun] at hall
  have hmade : (runInTree ["-c", "/good", "compile", "old/a", "../out/b"]).1.exitCode = 0 := by
    decide +kernel
  have hreplaced : (runInTree ["compile", "old/a", "/tunes/old/a"]).1.exitCode = 0 := by
    decide +kernel
  have hmisconfigured :
      (runInTree ["-c", "../bad", "compile", "old/a", "old/a"]).1.exitCode ≠ 0 := by
    decide +kernel
  have hmissing : (runInTree ["render", "c", "old/a"]).1.exitCode ≠ 0 := by
    decide +kernel
  have hinput : Disk.store.read tree "old/a" = .ok (encodeUtf8 "T200 c".toList) := by
    decide +kernel
  obtain ⟨-, hmadeFile, -⟩ :=
    ((hall _).2.2 ⟨some "/good", .compile "old/a" "../out/b"⟩ (by decide +kernel)).2 hmade
  obtain ⟨-, hreplacedFile, -⟩ :=
    ((hall _).2.2 ⟨none, .compile "old/a" "/tunes/old/a"⟩ (by decide +kernel)).2 hreplaced
  have hconfig : configOf .standard Disk.store tree (some "/good") =
      .ok { compiler := { tempoWidth := .wide } } := by decide +kernel
  have hdefault : configOf .standard Disk.store tree none = .ok {} := rfl
  have hwide : (compileText (decodeLossy (encodeUtf8 "T200 c".toList))
      { tempoWidth := .wide }).map (fun c => c.1.blob.bytes) =
        .ok [90, 77, 85, 83, 73, 67, 1, 2, 0, 200, 67] := by decide +kernel
  have hnarrow : (compileText (decodeLossy (encodeUtf8 "T200 c".toList)) {}).map
      (fun c => c.1.blob.bytes) = .ok [90, 77, 85, 83, 73, 67, 1, 1, 200, 67] := by
    decide +kernel
  have hother : tree.locate "../out/b" = .file ["out", "b"] := by decide +kernel
  have hself : tree.locate "/tunes/old/a" = .file ["tunes", "old", "a"] := by decide +kernel
  have htune : tree.files.lookup ["tunes", "old", "a"] = some (encodeUtf8 "T200 c".toList) := by
    decide +kernel
  obtain ⟨hmadeContent, hmadeRest⟩ :=
    lookup_of_compiled (hmadeFile _ rfl) hconfig hinput hwide hother
  obtain ⟨hreplacedContent, -⟩ :=
    lookup_of_compiled (hreplacedFile _ rfl) hdefault hinput hnarrow hself
  exact ⟨Disk.lawful_store, Disk.hasRoom_store,
    ⟨hmade, hmadeContent, (hmadeRest _ (by decide)).trans htune⟩, ⟨hreplaced, hreplacedContent⟩,
    ⟨hmisconfigured, (hall _).1 hmisconfigured⟩, hmissing, (hall _).1 hmissing⟩

end TuneRelay.Cli
