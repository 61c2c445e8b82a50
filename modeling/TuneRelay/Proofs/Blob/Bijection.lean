import TuneRelay.Engine
import TuneRelay.Proofs.Blob.Layout

/-!
# Blobs and their fields

A tune whose tempo fits its field and the blob it encodes to determine each other. What has become a
blob decodes, so no engine of tones ever finds a fault in the format of one.
-/
namespace TuneRelay

namespace Blob

theorem decode_layout {tempo : Nat} {width : TempoWidth} (h : tempo ≤ width.maxTempo)
    (notes : List Note) : decode (layout tempo notes width) = .ok ⟨1, width, tempo, notes⟩ :=
  decode_eq_ok_iff.mpr ⟨rfl, h, rfl⟩

theorem exists_encode {tempo : Nat} {width : TempoWidth} (h : tempo ≤ width.maxTempo)
    (notes : List Note) :
    ∃ blob, encode tempo notes width = .ok blob ∧ blob.bytes = layout tempo notes width := by
  refine ⟨⟨layout tempo notes width, .inl ⟨tempo, notes, width, h, rfl⟩⟩, ?_, rfl⟩
  exact encode_eq_ok_iff.mpr ⟨h, rfl⟩

theorem decode_of_encode {tempo : Nat} {notes : List Note} {width : TempoWidth} {blob : Blob}
    (h : encode tempo notes width = .ok blob) :
    decode blob.bytes = .ok ⟨1, width, tempo, notes⟩ := by
  obtain ⟨htempo, hbytes⟩ := encode_eq_ok_iff.mp h
  rw [hbytes]
  exact decode_layout htempo notes

theorem ofBytes_eq_ok_iff {bytes : List UInt8} {blob : Blob} :
    ofBytes bytes = .ok blob ↔ blob.bytes = bytes ∧ ∃ tune, decode bytes = .ok tune := by
  unfold ofBytes
  split
  · rename_i fault hdecode
    constructor
    · intro h
      cases h
    · rintro ⟨-, tune, htune⟩
      rw [hdecode] at htune
      cases htune
  · rename_i tune hdecode
    constructor
    · intro h
      cases h
      exact ⟨rfl, tune, hdecode⟩
    · rintro ⟨rfl, -⟩
      rfl

theorem decodes (blob : Blob) : ∃ tune, decode blob.bytes = .ok tune := by
  rcases blob.made with ⟨tempo, notes, width, htempo, hbytes⟩ | hdecodes
  · rw [hbytes]
    exact ⟨_, decode_layout htempo notes⟩
  · exact hdecodes

end Blob

namespace Engine
open Audit

theorem ToneEngine.renderNotes_error {e : ToneEngine} {tempo : Nat} {notes : List Note}
    {fault : EngineError} (h : e.renderNotes tempo notes = .error fault) :
    ∃ reason, fault = .rejected reason := by
  unfold renderNotes at h
  split at h
  · cases h
    exact ⟨_, rfl⟩
  · split at h
    · cases h
      exact ⟨_, rfl⟩
    · cases h

theorem ToneEngine.value_perform_blob {blob : Blob} {tune : Tune}
    (h : Blob.decode blob.bytes = .ok tune) (e : ToneEngine) :
    (e.perform (.blob blob)).value =
      (e.renderNotes tune.tempo tune.notes).map e.sliceBlocks := by
  have hnotes : (e.notesOf (.blob blob)).value = .ok (tune.tempo, tune.notes) := by
    simp only [notesOf, Audited.value_bind, Audited.value_pure, value_decode, h]
    rfl
  simp only [perform, Audited.value_bind, hnotes, Audited.value_pure]

theorem ToneEngine.perform_blob_ne_format (e : ToneEngine) (blob : Blob) (fault : FormatError) :
    (e.perform (.blob blob)).value ≠ .error (.format fault) := by
  obtain ⟨tune, htune⟩ := blob.decodes
  rw [value_perform_blob htune]
  intro h
  cases hrender : e.renderNotes tune.tempo tune.notes with
  | ok signal =>
    rw [hrender] at h
    cases h
  | error other =>
    obtain ⟨reason, rfl⟩ := renderNotes_error hrender
    rw [hrender] at h
    cases h

theorem ToneEngine.compileAndPlay_blob_ne_format (e : ToneEngine) (blob : Blob)
    (fault : FormatError) :
    (PlaybackEngine.compileAndPlay e (.blob blob)).1.value ≠ .error (.format fault) := by
  cases hinstalled : e.installed with
  | true =>
    simpa [PlaybackEngine.compileAndPlay, hinstalled] using e.perform_blob_ne_format blob fault
  | false => simp [PlaybackEngine.compileAndPlay, hinstalled]

theorem Handle.play_blob_ne_format (h : Handle ToneEngine) (blob : Blob) (fault : FormatError) :
    (h.play (.blob blob)).1.value ≠ .error (.format fault) := by
  have hengine := h.engine.compileAndPlay_blob_ne_format blob
  unfold play
  split
  · generalize PlaybackEngine.compileAndPlay h.engine (.blob blob) = played at hengine
    intro hplay
    simp only [Audited.value_bind] at hplay
    cases hvalue : played.1.value with
    | error other =>
      rw [hvalue] at hplay
      cases hplay
      exact hengine fault hvalue
    | ok blocks =>
      rw [hvalue] at hplay
      cases hplay
  · intro hplay
    cases hplay

end Engine

open Engine in
/-- Encoding and decoding undo each other: a tempo within its field is encoded and comes back with
its width and its notes, and what decodes is encoded to the bytes it came from. So blobs of
different fields differ, every blob decodes, and playing one never fails for its format. -/
theorem Blob.encode_decode_inverse :
    (∀ width tempo notes, tempo ≤ width.maxTempo → ∃ blob, encode tempo notes width = .ok blob ∧
      decode blob.bytes = .ok ⟨1, width, tempo, notes⟩) ∧
    (∀ bytes tune, decode bytes = .ok tune → tune.version = 1 ∧
      (∃ blob, encode tune.tempo tune.notes tune.width = .ok blob ∧ blob.bytes = bytes) ∧
      (∃ blob, ofBytes bytes = .ok blob ∧ blob.bytes = bytes)) ∧
    (∀ width tempo notes width' tempo' notes' blob, encode tempo notes width = .ok blob →
      encode tempo' notes' width' = .ok blob →
      width = width' ∧ tempo = tempo' ∧ notes = notes') ∧
    (∀ blob : Blob, ∃ tune, decode blob.bytes = .ok tune) ∧
    (∀ (e : ToneEngine) (blob : Blob) (fault : FormatError),
      (PlaybackEngine.compileAndPlay e (.blob blob)).1.value ≠ .error (.format fault)) ∧
    ∀ (h : Handle ToneEngine) (blob : Blob) (fault : FormatError),
      (h.play (.blob blob)).1.value ≠ .error (.format fault) := by
  refine ⟨?_, ?_, ?_, decodes, ToneEngine.compileAndPlay_blob_ne_format,
    Handle.play_blob_ne_format⟩
  · intro width tempo notes htempo
    obtain ⟨blob, hencode, -⟩ := exists_encode htempo notes
    exact ⟨blob, hencode, decode_of_encode hencode⟩
  · intro bytes tune hdecode
    obtain ⟨hversion, htempo, hbytes⟩ := decode_eq_ok_iff.mp hdecode
    refine ⟨hversion, ?_, ?_⟩
    · obtain ⟨blob, hencode, hlayout⟩ := exists_encode htempo tune.notes
      exact ⟨blob, hencode, hlayout.trans hbytes.symm⟩
    · exact ⟨⟨bytes, .inr ⟨tune, hdecode⟩⟩, ofBytes_eq_ok_iff.mpr ⟨rfl, tune, hdecode⟩, rfl⟩
  · intro width tempo notes width' tempo' notes' blob hencode hencode'
    have hdecode := decode_of_encode hencode
    rw [decode_of_encode hencode'] at hdecode
    obtain ⟨hwidth, htempo, hnotes⟩ : width' = width ∧ tempo' = tempo ∧ notes' = notes := by
      simpa using hdecode
    exact ⟨hwidth.symm, htempo.symm, hnotes.symm⟩

end TuneRelay
