import TuneRelay.Config
import TuneRelay.Proofs.Toml.Sections

/-!
# Configurations and their text

A configuration is written as two plain sections. Whatever format reads back what it writes, a
configuration is read back from its text.
-/
namespace TuneRelay.Config
open Mml Numeric Toml

section Sections

theorem isPlain_widthName (width : TempoWidth) :
    (widthName width).toList.all isPlain = true := by
  cases width <;> rfl

theorem isPlain_noteCaseName (noteCase : NoteCase) :
    (noteCaseName noteCase).toList.all isPlain = true := by
  cases noteCase <;> rfl

theorem plain_compilerEntries (options : CompileOptions) : (compilerEntries options).Plain where
  distinct := show (compilerFields.map String.toList).Nodup by decide
  bare := show ∀ key ∈ compilerFields.map String.toList, IsBare key by decide
  scalars := by
    have hwidth := isPlain_widthName options.tempoWidth
    have hnoteCase := isPlain_noteCaseName options.noteCase
    simp_all [compilerEntries, Scalar.IsPlain]

theorem plain_renderEntries (options : RenderOptions) : (renderEntries options).Plain where
  distinct := show (renderFields.map String.toList).Nodup by decide
  bare := show ∀ key ∈ renderFields.map String.toList, IsBare key by decide
  scalars := by simp [renderEntries, Scalar.IsPlain, isDouble_ofSample]

theorem plain_sections (config : Config) : config.sections.Plain where
  distinct := show (["compiler", "render"].map String.toList).Nodup by decide
  bare := show ∀ name ∈ ["compiler", "render"].map String.toList, IsBare name by decide
  fields := by simp [sections, plain_compilerEntries, plain_renderEntries]

theorem isWritable_sections {config : Config} : config.sections.isWritable = true ↔
    config.compiler.maxNotes ≤ maxInteger ∧ config.render.sampleRate ≤ maxInteger ∧
      config.render.quantum ≤ maxInteger ∧ config.render.channels ≤ maxInteger := by
  simp [sections, compilerEntries, renderEntries, Toml.Sections.isWritable, Scalar.isWritable]

end Sections

section Read

theorem tempoWidth?_widthName (width : TempoWidth) :
    tempoWidth? (.string (widthName width).toList) = some width := by
  cases width <;> rfl

theorem noteCase?_noteCaseName (noteCase : NoteCase) :
    noteCase? (.string (noteCaseName noteCase).toList) = some noteCase := by
  cases noteCase <;> rfl

theorem natural?_integer {n bound : Nat} (h : n ≤ bound) :
    natural? bound (.integer n) = some n := by
  simp [natural?, h]

/-- The amplitude that is read back is the written one, or the one NaN. -/
def readBack (options : RenderOptions) : RenderOptions :=
  { options with amplitude := (Binary64.ofSample options.amplitude).toSample }

theorem compiler?_compilerEntries {options : CompileOptions}
    (hnotes : options.maxNotes ≤ maxCount) :
    compiler? (.table (compilerEntries options).document) = some options := by
  have hfields : sectionFields compilerFields (.table (compilerEntries options).document) = some [
      some (.string (widthName options.tempoWidth).toList),
      some (.string (noteCaseName options.noteCase).toList),
      some (.boolean options.stripComments), some (.integer options.maxNotes)] := rfl
  simp [compiler?, hfields, fieldOr, tempoWidth?_widthName, noteCase?_noteCaseName, boolean?,
    natural?_integer hnotes]

theorem render?_renderEntries {options : RenderOptions} (hrate : options.sampleRate ≤ 4294967295)
    (hquantum : options.quantum ≤ maxCount) (hchannels : options.channels ≤ maxCount) :
    render? (.table (renderEntries options).document) = some (readBack options) := by
  have hfields : sectionFields renderFields (.table (renderEntries options).document) = some [
      some (.integer options.sampleRate), some (.integer options.quantum),
      some (.integer options.channels),
      some (.float (Binary64.ofSample options.amplitude))] := rfl
  simp [render?, hfields, fieldOr, natural?_integer hrate, natural?_integer hquantum,
    natural?_integer hchannels, amplitude?, readBack]

theorem ofDocument?_sections {config : Config} (hrate : config.render.sampleRate ≤ 4294967295)
    (hnotes : config.compiler.maxNotes ≤ maxCount) (hquantum : config.render.quantum ≤ maxCount)
    (hchannels : config.render.channels ≤ maxCount) :
    ofDocument? config.sections.document = some ⟨config.compiler, readBack config.render⟩ := by
  have hfields : sectionFields ["compiler", "render"] (.table config.sections.document) = some [
      some (.table (compilerEntries config.compiler).document),
      some (.table (renderEntries config.render).document)] := rfl
  simp [ofDocument?, hfields, fieldOr, compiler?_compilerEntries hnotes,
    render?_renderEntries hrate hquantum hchannels]

/-- A NaN is no amplitude, whatever its bits. -/
theorem isAmplitude_of_isNaN {s : Sample} (h : s.isNaN = true) : isAmplitude s = false := by
  have hnan : isAmplitude Sample.nan = false := by decide
  have hsame : isAmplitude s = isAmplitude Sample.nan := by
    simp only [isAmplitude, LE.le, Sample.float_of_isNaN h]
  rw [hsame, hnan]

/-- Widening and narrowing an amplitude changes no verdict. -/
theorem validate_readBack (config : Config) :
    Config.validate ⟨config.compiler, readBack config.render⟩ = config.validate := by
  have hamplitude : isAmplitude (Binary64.ofSample config.render.amplitude).toSample =
      isAmplitude config.render.amplitude := by
    by_cases hnan : config.render.amplitude.isNaN = true
    · rw [Binary64.ofSample, if_pos hnan, isAmplitude_of_isNaN hnan]
      exact isAmplitude_of_isNaN rfl
    · rw [toSample_ofSample hnan]
  unfold validate readBack
  dsimp only
  rw [hamplitude]

/-- A valid configuration is read back bit for bit. -/
theorem readBack_of_valid {config : Config} (h : config.validate = .ok ()) :
    readBack config.render = config.render := by
  have hnan : ¬ config.render.amplitude.isNaN = true := fun hnan => by
    have hamplitude := (validate_eq_ok_iff.mp h).2.2.2.2
    rw [isAmplitude_of_isNaN hnan] at hamplitude
    cases hamplitude
  rw [readBack, toSample_ofSample hnan]

end Read

/-- Nothing that is read is invalid. -/
theorem validate_of_parse {format : Format} {text : List Char} {config : Config}
    (h : parse format text = .ok config) : config.validate = .ok () := by
  unfold parse at h
  split at h
  case h_1 => cases h
  case h_2 read _ =>
    split at h
    case h_1 heq =>
      cases h
      exact heq
    case h_2 => cases h

/-- A configuration, whose sample rate has 32 bits, survives its own text in every format that reads
back what it writes. With counts that fit a signed integer it is written, and what is written is
read back as that configuration, bit for bit, if it is valid, and refused for its own fault if it is
not. With a larger count it is not written. Nothing invalid is ever read. -/
theorem toml_round_trip {format : Format} (hformat : format.Faithful) (config : Config)
    (hrate : config.render.sampleRate ≤ 4294967295) :
    (config.compiler.maxNotes ≤ maxInteger → config.render.quantum ≤ maxInteger →
      config.render.channels ≤ maxInteger → ∃ text, config.toToml format = .ok text ∧
        (config.validate = .ok () → parse format text = .ok config) ∧
        ∀ fault, config.validate = .error fault →
          parse format text = .error (.invalid fault)) ∧
    (maxInteger < config.compiler.maxNotes ∨ maxInteger < config.render.quantum ∨
      maxInteger < config.render.channels →
        ∃ fault, config.toToml format = .error (.invalid fault)) ∧
    ∀ text read, parse format text = .ok read → read.validate = .ok () := by
  refine ⟨fun hnotes hquantum hchannels => ?_, fun h => ?_, fun _ _ => validate_of_parse⟩
  · have hfits : maxInteger ≤ maxCount := by decide
    have hwritable := isWritable_sections.mpr
      ⟨hnotes, hrate.trans (by decide), hquantum, hchannels⟩
    obtain ⟨text, hwrite, hread⟩ := hformat.reads_back _ (plain_sections config) hwritable
    have hdocument : (format.read text).bind ofDocument? =
        some ⟨config.compiler, readBack config.render⟩ := by
      rw [hread, Option.bind_some, ofDocument?_sections hrate (hnotes.trans hfits)
        (hquantum.trans hfits) (hchannels.trans hfits)]
    refine ⟨text, by rw [toToml, hwrite]; rfl, fun hvalid => ?_, fun fault hfault => ?_⟩
    · simp only [parse, hdocument, hvalid, readBack_of_valid hvalid]
    · simp only [parse, hdocument, validate_readBack, hfault]
  · have hunwritable : config.sections.isWritable = false := by
      rw [← Bool.not_eq_true, isWritable_sections]
      omega
    obtain ⟨reason, hwrite⟩ := hformat.refuses _ (plain_sections config) hunwritable
    exact ⟨.unwritable reason, by rw [toToml, hwrite]; rfl⟩

/-- The largest numbers that can be written, and a negative zero. -/
def extreme : Config where
  compiler := ⟨.wide, .exact, false, maxInteger⟩
  render := ⟨4294967295, maxInteger, maxChannels, .ofBits 0x80000000⟩

/-- The same with an amplitude that is a NaN with bits of its own. -/
def unheard : Config :=
  { extreme with render := { extreme.render with amplitude := .ofBits 0xffc12345 } }

/-- The same with one note too many. -/
def overfull : Config :=
  { extreme with compiler := { extreme.compiler with maxNotes := maxInteger + 1 } }

theorem toml_round_trip_extreme : Toml.standard.Faithful ∧
    extreme.render.sampleRate ≤ 4294967295 ∧
    (∃ text, extreme.toToml Toml.standard = .ok text ∧ parse Toml.standard text = .ok extreme) ∧
    (∃ text, unheard.toToml Toml.standard = .ok text ∧
      parse Toml.standard text = .error (.invalid .amplitudeOutOfRange)) ∧
    ∃ fault, overfull.toToml Toml.standard = .error (.invalid fault) := by
  have hrate : extreme.render.sampleRate ≤ 4294967295 := by decide
  obtain ⟨text, htext, hread, -⟩ :=
    (toml_round_trip faithful_standard extreme hrate).1 (by decide) (by decide) (by decide)
  obtain ⟨refused, hrefused, -, hfault⟩ :=
    (toml_round_trip faithful_standard unheard hrate).1 (by decide) (by decide) (by decide)
  exact ⟨faithful_standard, hrate, ⟨text, htext, hread (by decide)⟩,
    ⟨refused, hrefused, hfault _ (by decide)⟩,
    (toml_round_trip faithful_standard overfull hrate).2.1 (.inl (by decide))⟩

end TuneRelay.Config
