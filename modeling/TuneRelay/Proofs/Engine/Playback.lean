import TuneRelay.Cli.Program
import TuneRelay.Proofs.Mml.Outcome

/-!
# Text plays as the blob it compiles to

An engine of tones renders the tempo and the notes of its payload. Text yields the same two whether
it is compiled by the engine or ahead of it, so it sounds alike, or is refused alike, either way.
-/
namespace TuneRelay

namespace Engine
open Audit Mml

namespace ToneEngine

theorem value_perform_text_error {e : ToneEngine} {text : SanitizedText} {fault : FormatError}
    (h : Mml.compile text e.options = .error fault) :
    (e.perform (.text text)).value = .error (.format fault) := by
  have hnotes : (e.notesOf (.text text)).value = .error (.format fault) := by
    simp only [notesOf, Audited.value_bind, Audited.value_pure, value_compile, h]
    rfl
  simp only [perform, Audited.value_bind, hnotes, Audited.value_pure]

theorem value_perform_text {e : ToneEngine} {text : SanitizedText} {c : Compiled}
    (h : Mml.compile text e.options = .ok c) :
    (e.perform (.text text)).value = (e.renderNotes c.tempo c.notes).map e.sliceBlocks := by
  have hnotes : (e.notesOf (.text text)).value = .ok (c.tempo, c.notes) := by
    simp only [notesOf, Audited.value_bind, Audited.value_pure, value_compile, h]
    rfl
  simp only [perform, Audited.value_bind, hnotes, Audited.value_pure]

theorem value_perform_compiled {e : ToneEngine} {text : SanitizedText} {c : Compiled}
    (h : Mml.compile text e.options = .ok c) :
    (e.perform (.text text)).value = (e.perform (.blob c.blob)).value := by
  rw [value_perform_text h, value_perform_blob (decode_of_compile h)]

/-- A blob is either rendered or rejected. -/
theorem value_perform_blob_cases (e : ToneEngine) (blob : Blob) :
    (∃ blocks, (e.perform (.blob blob)).value = .ok blocks) ∨
      ∃ reason, (e.perform (.blob blob)).value = .error (.rejected reason) := by
  obtain ⟨tune, htune⟩ := blob.decodes
  rw [value_perform_blob htune]
  cases hrender : e.renderNotes tune.tempo tune.notes with
  | ok signal => exact .inl ⟨_, rfl⟩
  | error fault =>
    obtain ⟨reason, rfl⟩ := renderNotes_error hrender
    exact .inr ⟨reason, rfl⟩

/-- What is played is the signal of some notes, cut into blocks. -/
theorem value_perform_ok {e : ToneEngine} {payload : Payload} {blocks : List Block}
    (h : (e.perform payload).value = .ok blocks) :
    ∃ tempo notes signal, (e.notesOf payload).value = .ok (tempo, notes) ∧
      e.renderNotes tempo notes = .ok signal ∧ blocks = e.sliceBlocks signal := by
  simp only [perform, Audited.value_bind] at h
  cases hnotes : (e.notesOf payload).value with
  | error fault =>
    rw [hnotes] at h
    cases h
  | ok found =>
    obtain ⟨tempo, notes⟩ := found
    rw [hnotes] at h
    obtain ⟨signal, hsignal, hblocks⟩ := map_eq_ok_iff.mp h
    exact ⟨tempo, notes, signal, rfl, hsignal, hblocks⟩

theorem perform_blob_options (e : ToneEngine) (options : CompileOptions) (blob : Blob) :
    ({ e with options } : ToneEngine).perform (.blob blob) = e.perform (.blob blob) := rfl

theorem compileAndPlay_answer (e : ToneEngine) (payload : Payload) :
    (PlaybackEngine.compileAndPlay e payload).1 = if e.installed then e.perform payload
      else pure (.error (.notReady Stage.uninitialized.name)) := by
  cases hinstalled : e.installed with
  | true => simp [PlaybackEngine.compileAndPlay, hinstalled]
  | false => simp [PlaybackEngine.compileAndPlay, hinstalled]

/-- The options are for text. -/
theorem compileAndPlay_blob_options (e : ToneEngine) (options : CompileOptions) (blob : Blob) :
    (PlaybackEngine.compileAndPlay { e with options } (.blob blob)).1 =
      (PlaybackEngine.compileAndPlay e (.blob blob)).1 := by
  rw [compileAndPlay_answer, compileAndPlay_answer, perform_blob_options]

theorem value_compileAndPlay_compiled {e : ToneEngine} {text : SanitizedText} {c : Compiled}
    (h : Mml.compile text e.options = .ok c) :
    (PlaybackEngine.compileAndPlay e (.text text)).1.value =
      (PlaybackEngine.compileAndPlay e (.blob c.blob)).1.value := by
  rw [compileAndPlay_answer, compileAndPlay_answer]
  split
  · exact value_perform_compiled h
  · rfl

end ToneEngine

/-- A handle passes on what its engine answers, if it is ready. -/
theorem Handle.value_play {σ : Type} [PlaybackEngine σ] (h : Handle σ) (payload : Payload) :
    (h.play payload).1.value = if h.isReady
      then (PlaybackEngine.compileAndPlay h.engine payload).1.value
      else .error (.notReady h.stage.name) := by
  unfold play
  split
  · simp only [Audited.value_bind]
    cases (PlaybackEngine.compileAndPlay h.engine payload).1.value <;> rfl
  · rfl

end Engine

namespace Cli
open Engine Mml Text

/-- Decoding checks the magic too. -/
theorem readBlob?_eq_some_iff {bytes : List UInt8} {blob : Blob} :
    readBlob? bytes = some blob ↔ Blob.ofBytes bytes = .ok blob := by
  unfold readBlob?
  split_ifs with hmagic
  · cases Blob.ofBytes bytes <;> simp [Except.toOption]
  · refine iff_of_false (by simp) fun h => hmagic ?_
    obtain ⟨-, tune, htune⟩ := Blob.ofBytes_eq_ok_iff.mp h
    obtain ⟨-, -, rfl⟩ := Blob.decode_eq_ok_iff.mp htune
    rw [List.isPrefixOf_iff_prefix]
    exact ⟨_, rfl⟩

theorem payloadOf_eq_blob_iff {bytes : List UInt8} {blob : Blob} :
    payloadOf bytes = .blob blob ↔ blob.bytes = bytes ∧ ∃ tune, Blob.decode bytes = .ok tune := by
  rw [← Blob.ofBytes_eq_ok_iff, ← readBlob?_eq_some_iff]
  unfold payloadOf
  cases readBlob? bytes with
  | none => simp
  | some made => simp

/-- A blob is played as itself. -/
theorem payloadOf_bytes (blob : Blob) : payloadOf blob.bytes = .blob blob :=
  payloadOf_eq_blob_iff.mpr ⟨rfl, blob.decodes⟩

theorem exists_payloadOf_eq_blob {bytes : List UInt8} :
    (∃ blob, payloadOf bytes = .blob blob) ↔ ∃ tune, Blob.decode bytes = .ok tune := by
  constructor
  · rintro ⟨blob, h⟩
    exact (payloadOf_eq_blob_iff.mp h).2
  · rintro ⟨tune, h⟩
    exact ⟨⟨bytes, .inr ⟨tune, h⟩⟩, payloadOf_eq_blob_iff.mpr ⟨rfl, tune, h⟩⟩

theorem payloadOf_of_decode_error {bytes : List UInt8} {fault : FormatError}
    (h : Blob.decode bytes = .error fault) :
    payloadOf bytes = .text (Mml.sanitize (decodeLossy bytes)).text := by
  cases hpayload : payloadOf bytes with
  | blob blob =>
    obtain ⟨-, tune, htune⟩ := payloadOf_eq_blob_iff.mp hpayload
    rw [h] at htune
    cases htune
  | text text =>
    unfold payloadOf at hpayload
    split at hpayload
    · cases hpayload
    · exact hpayload.symm

/-- The engine that renders an input. -/
def installedEngine (functions : Sample.Elementary) (config : Config) : ToneEngine :=
  { engineOf functions config with installed := true }

theorem blocksOf_eq (functions : Sample.Elementary) (config : Config) (bytes : List UInt8) :
    blocksOf functions config bytes =
      ((installedEngine functions config).perform (payloadOf bytes)).value := by
  have hready : (Handle.mk (installedEngine functions config) Stage.ready).isReady = true := rfl
  have hplay := Handle.value_play ⟨installedEngine functions config, .ready⟩ (payloadOf bytes)
  rw [if_pos hready] at hplay
  exact hplay

theorem compile_of_compileText {raw : List Char} {options : CompileOptions}
    {result : Except FormatError (Compiled × List Warning)}
    (h : compileText raw options = result) :
    compile (Mml.sanitize raw).text options = result.map Prod.fst := by
  rw [← compileText_value, h]

/-- Input that does not decode is played as text: as the blob it compiles to, or not at all if it
does not compile. -/
theorem text_plays_as_its_blob (lib : Libraries) (config : Config) (bytes : List UInt8) :
    ((∃ blob, payloadOf bytes = .blob blob) ↔ ∃ tune, Blob.decode bytes = .ok tune) ∧
    (∀ rejection, Blob.decode bytes = .error rejection →
      (∀ fault, compileText (decodeLossy bytes) config.compiler = .error fault →
        blocksOf lib.functions config bytes = .error (.format fault) ∧
        ∀ input output realtime, planRender lib config input output realtime bytes =
          .error (.engine (.format fault))) ∧
      (∀ c warnings, compileText (decodeLossy bytes) config.compiler = .ok (c, warnings) →
        (∀ e : ToneEngine, e.options = config.compiler →
          (PlaybackEngine.compileAndPlay e (payloadOf bytes)).1.value =
            (PlaybackEngine.compileAndPlay e (.blob c.blob)).1.value) ∧
        (∀ h : Handle ToneEngine, h.engine.options = config.compiler →
          (h.play (payloadOf bytes)).1.value = (h.play (.blob c.blob)).1.value) ∧
        blocksOf lib.functions config bytes = blocksOf lib.functions config c.blob.bytes ∧
        ((∃ blocks, blocksOf lib.functions config bytes = .ok blocks) ∨
          ∃ reason, blocksOf lib.functions config bytes = .error (.rejected reason)) ∧
        ∀ input output, planRender lib config input output false bytes =
          planRender lib config input output false c.blob.bytes)) ∧
    ∀ (e : ToneEngine) (options : CompileOptions) (blob : Blob),
      (PlaybackEngine.compileAndPlay { e with options } (.blob blob)).1 =
        (PlaybackEngine.compileAndPlay e (.blob blob)).1 := by
  refine ⟨exists_payloadOf_eq_blob, ?_, ToneEngine.compileAndPlay_blob_options⟩
  intro rejection hrejection
  have hpayload := payloadOf_of_decode_error hrejection
  constructor
  · intro fault hfault
    have hcompile := compile_of_compileText hfault
    have hblocks : blocksOf lib.functions config bytes = .error (.format fault) := by
      rw [blocksOf_eq, hpayload]
      exact ToneEngine.value_perform_text_error hcompile
    refine ⟨hblocks, ?_⟩
    intro input output realtime
    simp only [planRender, hblocks]
  · intro c warnings hc
    have hcompile := compile_of_compileText hc
    have hplay (e : ToneEngine) (he : e.options = config.compiler) :
        (PlaybackEngine.compileAndPlay e (payloadOf bytes)).1.value =
          (PlaybackEngine.compileAndPlay e (.blob c.blob)).1.value := by
      rw [← he] at hcompile
      rw [hpayload]
      exact ToneEngine.value_compileAndPlay_compiled hcompile
    have hblocks : blocksOf lib.functions config bytes =
        ((installedEngine lib.functions config).perform (.blob c.blob)).value := by
      rw [blocksOf_eq, hpayload]
      exact ToneEngine.value_perform_compiled hcompile
    have hsame : blocksOf lib.functions config bytes =
        blocksOf lib.functions config c.blob.bytes := by
      rw [hblocks, blocksOf_eq, payloadOf_bytes]
    refine ⟨hplay, ?_, hsame, ?_, ?_⟩
    · intro h hoptions
      rw [Handle.value_play, Handle.value_play, hplay h.engine hoptions]
    · rw [hblocks]
      exact (installedEngine lib.functions config).value_perform_blob_cases c.blob
    · intro input output
      simp only [planRender, hsame]

/-- The text `T200 ceg` at sixteen frames a second, which makes five frames of each of its notes. -/
theorem text_plays_as_its_blob_ceg :
    let text : List UInt8 := [84, 50, 48, 48, 32, 99, 101, 103]
    let blob : List UInt8 := [90, 77, 85, 83, 73, 67, 1, 1, 200, 67, 69, 71]
    let config : Config := { render := ⟨16, 8, 1, defaultAmplitude⟩ }
    Blob.decode text = .error .badMagic ∧
      (compileText (decodeLossy text) {}).map (fun c => (c.1.tempo, c.1.notes, c.1.blob.bytes)) =
        .ok (200, [.c, .e, .g], blob) ∧
      (blocksOf {} config text).map (List.map fun block => block.left.map Sample.toBits) = .ok
        [[0, 0x3e4d96b9, 0xbe75021d, 0x3daccb61, 0, 0x80000000, 0x3e458e74, 0xbd75c684],
          [0xbdc5da0f, 0, 0x80000000, 0x3e7ea877, 0xbe7eb462, 0x3e7ec014, 0x80000000, 0]] ∧
      blocksOf {} config text = blocksOf {} config blob ∧
      planRender .standard config "ceg.mml" "ceg.wav" false text =
        planRender .standard config "ceg.mml" "ceg.wav" false blob := by
  intro text blob config
  have hrejection : Blob.decode text = .error .badMagic := by decide
  have hcompile : (compileText (decodeLossy text) {}).map
      (fun c => (c.1.tempo, c.1.notes, c.1.blob.bytes)) = .ok (200, [.c, .e, .g], blob) := by
    rfl
  obtain ⟨⟨c, warnings⟩, hc, hblob⟩ := map_eq_ok_iff.mp hcompile
  obtain ⟨-, -, hsame, -, hplan⟩ :=
    ((text_plays_as_its_blob .standard config text).2.1 .badMagic hrejection).2 c warnings hc
  have hbytes : blob = c.blob.bytes := congrArg (fun made => made.2.2) hblob
  rw [← hbytes] at hsame hplan
  refine ⟨hrejection, hcompile, ?_, hsame, hplan "ceg.mml" "ceg.wav"⟩
  decide +kernel

end Cli
end TuneRelay
