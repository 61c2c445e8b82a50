import TuneRelay.Cli.Program
import TuneRelay.Proofs.Engine.Playback
import TuneRelay.Proofs.Text.Utf8

/-!
# What a command needs and what it makes

A configuration file must be readable text that is a document of a valid configuration. Input must
be a text that compiles, a blob that decodes, or either of them for a performance that is neither
without a tempo nor too long. A command with all of this makes one product at most.
-/
namespace TuneRelay

namespace Engine.ToneEngine

theorem exists_renderNotes_error {e : ToneEngine} {tempo : Nat} {notes : List Note} :
    (∃ fault, e.renderNotes tempo notes = .error fault) ↔
      tempo = 0 ∨ e.isTooLong (e.framesPerNote tempo) notes.length = true := by
  unfold renderNotes
  split_ifs with hzero hlong
  · simp [hzero]
  · simp [hlong]
  · simp [hzero, hlong]

/-- An engine fails for its payload's notes or for their performance. -/
theorem exists_perform_error {e : ToneEngine} {payload : Payload} :
    (∃ fault, (e.perform payload).value = .error fault) ↔
      (∃ fault, (e.notesOf payload).value = .error fault) ∨
        ∃ tempo notes, (e.notesOf payload).value = .ok (tempo, notes) ∧
          (tempo = 0 ∨ e.isTooLong (e.framesPerNote tempo) notes.length = true) := by
  cases hnotes : (e.notesOf payload).value with
  | error fault => simp [perform, hnotes]
  | ok found =>
    obtain ⟨tempo, notes⟩ := found
    have hperform : (e.perform payload).value = (e.renderNotes tempo notes).map e.sliceBlocks := by
      simp only [perform, Audit.Audited.value_bind, hnotes, Audit.Audited.value_pure]
    rw [hperform, exists_map_eq_error, exists_renderNotes_error]
    simp

end Engine.ToneEngine

namespace Cli
open Engine Mml Text

section ConfigFiles

variable (format : Toml.Format)

/-- What is read of a file, if anything, is no configuration: it is no text, its text is no
document, the document says something else, or the configuration that it says is invalid. -/
inductive BadConfig : Except FileError (List UInt8) → Prop
  | unreadable {fault} : BadConfig (.error fault)
  | notText {bytes} (h : ∀ text, encodeUtf8 text ≠ bytes) : BadConfig (.ok bytes)
  | notDocument {text} (h : format.read text = none) : BadConfig (.ok (encodeUtf8 text))
  | notConfig {text document} (hread : format.read text = some document)
      (h : Config.ofDocument? document = none) : BadConfig (.ok (encodeUtf8 text))
  | invalid {text document config fault} (hread : format.read text = some document)
      (hconfig : Config.ofDocument? document = some config)
      (h : config.validate = .error fault) : BadConfig (.ok (encodeUtf8 text))

/-- What is read of a file is a text, a document and a valid configuration. -/
inductive GoodConfig : Except FileError (List UInt8) → Config → Prop
  | valid {text document config} (hread : format.read text = some document)
      (hconfig : Config.ofDocument? document = some config) (h : config.validate = .ok ()) :
      GoodConfig (.ok (encodeUtf8 text)) config

variable {format} {path : String} {content : Except FileError (List UInt8)}

theorem readConfig_encodeUtf8 (text : List Char) :
    readConfig format path (.ok (encodeUtf8 text)) =
      (Config.parse format text).mapError .config := by
  simp only [readConfig, decodeUtf8?_eq_some_iff.mpr rfl]

/-- A configuration file is bad, or good for one configuration. -/
theorem readConfig_cases (format : Toml.Format) (path : String)
    (content : Except FileError (List UInt8)) :
    (BadConfig format content ∧ ∃ fault, readConfig format path content = .error fault) ∨
      ∃ config, GoodConfig format content config ∧ readConfig format path content = .ok config := by
  cases content with
  | error fault => exact .inl ⟨.unreadable, _, rfl⟩
  | ok bytes =>
    cases htext : decodeUtf8? bytes with
    | none =>
      refine .inl ⟨.notText fun text hbytes => ?_, by simp [readConfig, htext]⟩
      rw [decodeUtf8?_eq_some_iff.mpr hbytes] at htext
      cases htext
    | some text =>
      obtain rfl := decodeUtf8?_eq_some_iff.mp htext
      rw [readConfig_encodeUtf8, Config.parse]
      cases hread : format.read text with
      | none => exact .inl ⟨.notDocument hread, _, rfl⟩
      | some document =>
        rw [Option.bind_some]
        cases hconfig : Config.ofDocument? document with
        | none => exact .inl ⟨.notConfig hread hconfig, _, rfl⟩
        | some config =>
          cases hvalid : config.validate with
          | error fault =>
            refine .inl ⟨.invalid hread hconfig hvalid, .config (.invalid fault), ?_⟩
            simp only [hvalid]
            rfl
          | ok _ =>
            refine .inr ⟨config, .valid hread hconfig hvalid, ?_⟩
            simp only [hvalid]
            rfl

theorem exists_readConfig_error :
    (∃ fault, readConfig format path content = .error fault) ↔ BadConfig format content := by
  constructor
  · rintro ⟨fault, hfault⟩
    rcases readConfig_cases format path content with ⟨hbad, -⟩ | ⟨config, -, hconfig⟩
    · exact hbad
    · rw [hfault] at hconfig
      cases hconfig
  · intro h
    cases h with
    | unreadable => exact ⟨_, rfl⟩
    | @notText bytes h =>
      have hnone : decodeUtf8? bytes = none := by
        rw [Option.eq_none_iff_forall_ne_some]
        exact fun text htext => h text (decodeUtf8?_eq_some_iff.mp htext)
      simp [readConfig, hnone]
    | notDocument h => simp [readConfig_encodeUtf8, Config.parse, h, Except.mapError]
    | notConfig hread h => simp [readConfig_encodeUtf8, Config.parse, hread, h, Except.mapError]
    | invalid hread hconfig h =>
      simp [readConfig_encodeUtf8, Config.parse, hread, hconfig, h, Except.mapError]

theorem readConfig_eq_ok_iff {config : Config} :
    readConfig format path content = .ok config ↔ GoodConfig format content config := by
  constructor
  · intro h
    rcases readConfig_cases format path content with ⟨-, fault, hfault⟩ | ⟨found, hgood, hfound⟩
    · rw [hfault] at h
      cases h
    · rw [h] at hfound
      cases hfound
      exact hgood
  · rintro ⟨hread, hconfig, h⟩
    simp [readConfig_encodeUtf8, Config.parse, hread, hconfig, h, Except.mapError]

end ConfigFiles

/-- What a command cannot do with its input under a configuration: compile a text, decode a blob, or
play the one or the other. -/
inductive Refused (functions : Sample.Elementary) (config : Config) (bytes : List UInt8) :
    Command → Prop
  | text {input output fault}
      (h : compileText (decodeLossy bytes) config.compiler = .error fault) :
      Refused functions config bytes (.compile input output)
  | blob {input fault} (h : Blob.decode bytes = .error fault) :
      Refused functions config bytes (.inspect input)
  | playedText {input output realtime rejection fault}
      (hblob : Blob.decode bytes = .error rejection)
      (h : compileText (decodeLossy bytes) config.compiler = .error fault) :
      Refused functions config bytes (.render input output realtime)
  | tempo {input output realtime notes}
      (h : ((engineOf functions config).notesOf (payloadOf bytes)).value = .ok (0, notes)) :
      Refused functions config bytes (.render input output realtime)
  | length {input output realtime tempo notes}
      (h : ((engineOf functions config).notesOf (payloadOf bytes)).value = .ok (tempo, notes))
      (hlong : (engineOf functions config).isTooLong
        ((engineOf functions config).framesPerNote tempo) notes.length) :
      Refused functions config bytes (.render input output realtime)

section Commands

variable {functions : Sample.Elementary} {config : Config} {bytes : List UInt8}

theorem exists_notesOf_error :
    (∃ fault, ((engineOf functions config).notesOf (payloadOf bytes)).value = .error fault) ↔
      (∃ rejection, Blob.decode bytes = .error rejection) ∧
        ∃ fault, compileText (decodeLossy bytes) config.compiler = .error fault := by
  cases hdecode : Blob.decode bytes with
  | ok tune =>
    obtain ⟨blob, hblob⟩ := exists_payloadOf_eq_blob.mpr ⟨tune, hdecode⟩
    obtain ⟨hbytes, -⟩ := payloadOf_eq_blob_iff.mp hblob
    simp [hblob, ToneEngine.notesOf, hbytes, hdecode, Except.mapError,
      Except.map]
  | error rejection =>
    rw [payloadOf_of_decode_error hdecode]
    have hnotes : ((engineOf functions config).notesOf
        (.text (Mml.sanitize (decodeLossy bytes)).text)).value =
          ((compile (Mml.sanitize (decodeLossy bytes)).text config.compiler).mapError
            EngineError.format).map fun c => (c.tempo, c.notes) := by
      simp only [ToneEngine.notesOf, Audit.Audited.value_bind, Audit.value_compile,
        Audit.Audited.value_pure]
      rfl
    rw [hnotes, exists_map_eq_error, compile_of_compileText rfl]
    cases compileText (decodeLossy bytes) config.compiler with
    | error fault => simp [Except.map, Except.mapError]
    | ok made => simp [Except.map, Except.mapError]

theorem exists_blocksOf_error {input output : String} {realtime : Bool} :
    (∃ fault, blocksOf functions config bytes = .error fault) ↔
      Refused functions config bytes (.render input output realtime) := by
  rw [blocksOf_eq]
  have hnotes : (installedEngine functions config).notesOf (payloadOf bytes) =
      (engineOf functions config).notesOf (payloadOf bytes) := rfl
  rw [ToneEngine.exists_perform_error, hnotes, exists_notesOf_error]
  constructor
  · rintro (⟨⟨rejection, hblob⟩, fault, htext⟩ | ⟨tempo, notes, hok, rfl | hlong⟩)
    · exact .playedText hblob htext
    · exact .tempo hok
    · exact .length hok hlong
  · intro h
    cases h with
    | playedText hblob htext => exact .inl ⟨⟨_, hblob⟩, _, htext⟩
    | tempo hok => exact .inr ⟨_, _, hok, .inl rfl⟩
    | length hok hlong => exact .inr ⟨_, _, hok, .inr hlong⟩

end Commands

section Plans

variable {lib : Libraries} {config : Config} {bytes : List UInt8} {command : Command}

/-- A command is planned unless its input is refused. -/
theorem exists_plan_error :
    (∃ fault, command.plan lib config bytes = .error fault) ↔
      Refused lib.functions config bytes command := by
  cases command with
  | compile input output =>
    constructor
    · rintro ⟨fault, h⟩
      cases htext : compileText (decodeLossy bytes) config.compiler with
      | error fault => exact .text htext
      | ok made => simp [Command.plan, planCompile, htext] at h
    · rintro ⟨htext⟩
      exact ⟨_, by simp only [Command.plan, planCompile, htext]; rfl⟩
  | sanitize input =>
    constructor
    · rintro ⟨fault, h⟩
      cases h
    · intro h
      cases h
  | inspect input =>
    constructor
    · rintro ⟨fault, h⟩
      cases hblob : Blob.decode bytes with
      | error fault => exact .blob hblob
      | ok tune => simp [Command.plan, planInspect, hblob] at h
    · intro h
      cases h with
      | blob hblob => exact ⟨_, by simp only [Command.plan, planInspect, hblob]; rfl⟩
  | render input output realtime =>
    constructor
    · rintro ⟨fault, h⟩
      cases hblocks : blocksOf lib.functions config bytes with
      | error fault => exact exists_blocksOf_error.mp ⟨fault, hblocks⟩
      | ok blocks => simp [Command.plan, planRender, hblocks] at h
    · intro h
      obtain ⟨fault, hblocks⟩ := exists_blocksOf_error.mpr h
      exact ⟨_, by simp only [Command.plan, planRender, hblocks]; rfl⟩

/-- The path that a command writes to. -/
def Command.output? : Command → Option String
  | .compile _ output | .render _ output _ => some output
  | .sanitize _ | .inspect _ => none

/-- The bytes that a command makes of its input. -/
inductive Product (lib : Libraries) (config : Config) (bytes : List UInt8) :
    Command → List UInt8 → Prop
  | blob {input output c warnings}
      (h : compileText (decodeLossy bytes) config.compiler = .ok (c, warnings)) :
      Product lib config bytes (.compile input output) c.blob.bytes
  | wave {input output realtime blocks} (h : blocksOf lib.functions config bytes = .ok blocks) :
      Product lib config bytes (.render input output realtime)
        (lib.wave config.render.channels config.render.sampleRate
          (renderSamples config realtime blocks))

theorem Product.compile_eq {input output : String} {content : List UInt8}
    (h : Product lib config bytes (.compile input output) content) :
    (compileText (decodeLossy bytes) config.compiler).map (fun c => c.1.blob.bytes) =
      .ok content := by
  cases h with
  | blob hcompile => rw [hcompile]; rfl

/-- A plan is to write all of the product, or to print. -/
theorem plan_eq_ok {plan : Plan} (h : command.plan lib config bytes = .ok plan) :
    (command.output? = none ∧ ∃ text, plan = .print text) ∨
      ∃ output content asError text, command.output? = some output ∧
        Product lib config bytes command content ∧ plan = .write output content asError text := by
  cases command with
  | compile input output =>
    cases htext : compileText (decodeLossy bytes) config.compiler with
    | error fault => simp [Command.plan, planCompile, htext] at h
    | ok made =>
      simp only [Command.plan, planCompile, htext, Except.ok.injEq] at h
      exact .inr ⟨output, _, _, _, rfl, .blob htext, h.symm⟩
  | sanitize input => exact .inl ⟨rfl, _, (Except.ok.inj h).symm⟩
  | inspect input =>
    cases hblob : Blob.decode bytes with
    | error fault => simp [Command.plan, planInspect, hblob] at h
    | ok tune =>
      simp only [Command.plan, planInspect, hblob, Except.ok.injEq] at h
      exact .inl ⟨rfl, _, h.symm⟩
  | render input output realtime =>
    cases hblocks : blocksOf lib.functions config bytes with
    | error fault => simp [Command.plan, planRender, hblocks] at h
    | ok blocks =>
      simp only [Command.plan, planRender, hblocks, Except.ok.injEq] at h
      exact .inr ⟨output, _, _, _, rfl, .wave hblocks, h.symm⟩

end Plans
end Cli
end TuneRelay
