import TuneRelay.Proofs.Toml.Values

/-!
# Documents of sections

A document of tables with a field on each line is read as those tables, in their order.
-/
namespace TuneRelay.Toml

def IsBare (key : Key) : Prop := key ≠ [] ∧ key.all isBareKeyChar = true

instance (key : Key) : Decidable (IsBare key) :=
  inferInstanceAs (Decidable (key ≠ [] ∧ key.all isBareKeyChar = true))

section Keys

variable {key : Key}

theorem IsBare.exists_cons (h : IsBare key) :
    ∃ c more, key = c :: more ∧ isBareKeyChar c = true := by
  obtain ⟨c, more, rfl⟩ := List.exists_cons_of_ne_nil h.1
  exact ⟨c, more, rfl, List.all_eq_true.mp h.2 c List.mem_cons_self⟩

/-- What has a meaning of its own at the start of a line starts no bare key. -/
theorem IsBare.append_ne_cons (h : IsBare key) {c : Char} (hc : isBareKeyChar c = false)
    (rest after : List Char) : key ++ rest ≠ c :: after := by
  obtain ⟨d, more, rfl, hd⟩ := h.exists_cons
  intro heq
  rw [(List.cons.inj heq).1, hc] at hd
  cases hd

theorem dropSpace_bare (h : IsBare key) (rest : List Char) :
    dropSpace (key ++ rest) = key ++ rest := by
  obtain ⟨c, more, rfl, hc⟩ := h.exists_cons
  have hspace : ¬ isSpace c = true := fun hs => by
    simp only [isSpace, Bool.or_eq_true, beq_iff_eq] at hs
    rcases hs with rfl | rfl <;> exact absurd hc (by decide)
  rw [List.cons_append, dropSpace, List.dropWhile_cons, if_neg hspace]

theorem simpleKey_bare (h : IsBare key) {c : Char} (hc : isBareKeyChar c = false)
    (rest : List Char) : simpleKey (key ++ c :: rest) = some (key, c :: rest) := by
  unfold simpleKey
  rw [takeWhile_run h.2 hc, dropWhile_run h.2 hc]
  obtain ⟨d, more, rfl, -⟩ := h.exists_cons
  rfl

/-- A key path of one key ends where something other than a point follows. -/
theorem keyPath_bare (h : IsBare key) {c : Char} (hc : isBareKeyChar c = false)
    {rest next : List Char} (hnext : dropSpace (c :: rest) = next)
    (hpoint : next.head? ≠ some '.') : keyPath (key ++ c :: rest) = some ([key], next) := by
  change keysBody (78 + 1) _ = _
  rw [keysBody, dropSpace_bare h, simpleKey_bare h hc, Option.bind_eq_bind, Option.bind_some]
  dsimp only
  rw [hnext]
  split
  case h_1 => exact absurd rfl hpoint
  case h_2 => rfl

end Keys

theorem Table.put_new {t : Table} {key : Key} (h : Entries.find? t.entries key = none)
    (node : Node) : t.put key node = { t with entries := t.entries ++ [(key, node)] } := by
  rw [Table.put, h]
  rfl

theorem find?_append_eq_none {entries more : Entries} {key : Key} :
    Entries.find? (entries ++ more) key = none ↔
      Entries.find? entries key = none ∧ Entries.find? more key = none := by
  rw [Entries.find?, List.lookup_append, Option.or_eq_none_iff]
  rfl

theorem find?_singleton_eq_none {key other : Key} {node : Node} :
    Entries.find? [(other, node)] key = none ↔ key ≠ other := by
  rw [Entries.find?, List.lookup_cons]
  cases h : key == other <;> simp_all

/-- New keys that differ from one that is added are still new. -/
theorem find?_append_entry {α : Type} {items : List α} {key : α → Key} {entries : Entries}
    (hnew : ∀ i ∈ items, Entries.find? entries (key i) = none) {other : Key}
    (hother : other ∉ items.map key) (node : Node) :
    ∀ i ∈ items, Entries.find? (entries ++ [(other, node)]) (key i) = none := by
  intro i hi
  refine find?_append_eq_none.mpr ⟨hnew i hi, find?_singleton_eq_none.mpr fun heq => hother ?_⟩
  exact heq ▸ List.mem_map_of_mem hi

theorem Table.insert_new {t : Table} {key : Key} (horigin : t.origin = .declared)
    (h : Entries.find? t.entries key = none) (node : Node) :
    t.insert [] key node = some { t with entries := t.entries ++ [(key, node)] } := by
  rw [← put_new h, insert, descend, horigin, h]
  rfl

/-- Distinct bare keys, and what is read back. -/
structure Fields.Plain (fields : Fields) : Prop where
  distinct : (fields.map Prod.fst).Nodup
  bare : ∀ key ∈ fields.map Prod.fst, IsBare key
  scalars : ∀ scalar ∈ fields.map Prod.snd, scalar.IsPlain

/-- Distinct bare names over plain fields. -/
structure Sections.Plain (sections : Sections) : Prop where
  distinct : (sections.map Prod.fst).Nodup
  bare : ∀ name ∈ sections.map Prod.fst, IsBare name
  fields : ∀ fields ∈ sections.map Prod.snd, fields.Plain

def fieldEntry (field : Key × Scalar) : Key × Node := (field.1, field.2.node)

def sectionEntry (s : Key × Fields) : Key × Node :=
  (s.1, .table .declared (s.2.map fieldEntry))

/-- A field that is read back where it is written. -/
structure ReadableField (field : Key × Scalar) : Prop where
  bare : IsBare field.1
  reads : ReadsAs field.2.text field.2.node

/-- A section that is read back where it is written. -/
structure ReadableSection (s : Key × Fields) : Prop where
  bare : IsBare s.1
  distinct : (s.2.map Prod.fst).Nodup
  fields : ∀ field ∈ s.2, ReadableField field

/-- Lines that start with a bare key are no headers, comments or blank lines. -/
theorem lines_bare {key : Key} (h : IsBare key) (fuel : Nat) (a : Assembly) (rest : List Char) :
    lines (fuel + 1) a (key ++ rest) =
      (line a (key ++ rest)).bind fun (next, rest) => lines fuel next rest := by
  have hnewline : newline? (key ++ rest) = none := by
    rw [newline?] <;> exact fun _ => h.append_ne_cons rfl rest _
  rw [lines, dropSpace_bare h]
  split
  case h_1 heq => exact absurd (List.append_eq_nil_iff.mp heq).1 h.1
  case h_2 heq => exact absurd heq (h.append_ne_cons rfl rest _)
  case h_3 => rw [hnewline]

theorem line_bare {key : Key} (h : IsBare key) (a : Assembly) (rest : List Char) :
    line a (key ++ rest) = (keyValue (value depthLimit) (key ++ rest)).bind
      fun ((path, node), rest) => (a.pair path node).bind
        fun next => (restOfLine? rest).bind fun rest => some (next, rest) := by
  rw [line]
  · rfl
  · exact fun _ => h.append_ne_cons rfl rest _
  · exact fun _ => h.append_ne_cons rfl rest _

section Field

variable {f : Key × Scalar} {a : Assembly}

theorem line_field (hf : ReadableField f) (horigin : a.current.origin = .declared)
    (hnew : Entries.find? a.current.entries f.1 = none) (rest : List Char) :
    line a (fieldText f ++ rest) =
      some ({ a with current := ⟨.declared, a.current.entries ++ [fieldEntry f]⟩ }, rest) := by
  have hkey : keyPath (f.1 ++ ' ' :: ('=' :: ' ' :: (f.2.text ++ '\n' :: rest))) =
      some ([f.1], '=' :: ' ' :: (f.2.text ++ '\n' :: rest)) :=
    keyPath_bare hf.bare rfl rfl (by simp)
  have hpair : keyValue (value depthLimit)
      (f.1 ++ ' ' :: ('=' :: ' ' :: (f.2.text ++ '\n' :: rest))) =
        some (([f.1], f.2.node), '\n' :: rest) := by
    rw [keyValue, hkey]
    change (value depthLimit (dropSpace (f.2.text ++ '\n' :: rest))).bind _ = _
    rw [hf.reads]
    rfl
  have hinsert : a.pair [f.1] f.2.node =
      some { a with current := ⟨.declared, a.current.entries ++ [fieldEntry f]⟩ } := by
    change (a.current.insert [] f.1 f.2.node).bind _ = _
    rw [Table.insert_new horigin hnew, horigin]
    rfl
  have htext : fieldText f ++ rest = f.1 ++ ' ' :: ('=' :: ' ' :: (f.2.text ++ '\n' :: rest)) := by
    simp [fieldText]
  rw [htext, line_bare hf.bare, hpair, Option.bind_some]
  dsimp only
  rw [hinsert]
  rfl

theorem lines_field (hf : ReadableField f) (horigin : a.current.origin = .declared)
    (hnew : Entries.find? a.current.entries f.1 = none) (fuel : Nat) (rest : List Char) :
    lines (fuel + 1) a (fieldText f ++ rest) =
      lines fuel { a with current := ⟨.declared, a.current.entries ++ [fieldEntry f]⟩ } rest := by
  have hline := line_field hf horigin hnew rest
  rw [fieldText, List.append_assoc] at hline ⊢
  rw [lines_bare hf.bare, hline]
  rfl

end Field

/-- The lines of fields with new keys add their entries to the table. -/
theorem lines_fields {fields : Fields} (hfields : ∀ f ∈ fields, ReadableField f)
    (hkeys : (fields.map Prod.fst).Nodup) {a : Assembly} (horigin : a.current.origin = .declared)
    (hnew : ∀ f ∈ fields, Entries.find? a.current.entries f.1 = none)
    (fuel : Nat) (rest : List Char) :
    lines (fuel + fields.length) a (fields.flatMap fieldText ++ rest) =
      lines fuel { a with current := ⟨.declared, a.current.entries ++ fields.map fieldEntry⟩ }
        rest := by
  induction fields generalizing a with
  | nil =>
    obtain ⟨root, ⟨origin, entries⟩, place⟩ := a
    cases horigin
    simp
  | cons f fields ih =>
    rw [List.map_cons, List.nodup_cons] at hkeys
    rw [List.forall_mem_cons] at hfields
    have hrest := find?_append_entry (fun g hg => hnew g (List.mem_cons_of_mem _ hg)) hkeys.1
      f.2.node
    rw [List.length_cons, ← Nat.add_assoc, List.flatMap_cons, List.append_assoc,
      lines_field hfields.1 horigin (hnew f List.mem_cons_self), ih hfields.2 hkeys.2 rfl hrest]
    simp

theorem length_le_fieldTexts (fields : Fields) :
    fields.length ≤ (fields.flatMap fieldText).length := by
  induction fields with
  | nil => exact Nat.le_refl 0
  | cons f fields ih =>
    simp only [List.flatMap_cons, List.length_append, List.length_cons, fieldText]
    omega

theorem length_le_sectionText (s : Key × Fields) : s.2.length + 3 ≤ (sectionText s).length := by
  have := length_le_fieldTexts s.2
  simp only [sectionText, List.length_append, List.length_cons]
  omega

theorem header_new {a : Assembly} {done : Entries} {name : Key}
    (hclose : a.close = some { entries := done }) (hnew : Entries.find? done name = none) :
    a.header [name] = some ⟨{ entries := done }, {}, .table [] name⟩ := by
  have hsplit : splitPath [name] = some ([], name) := rfl
  simp only [Assembly.header, hsplit, hclose, descend, hnew, Option.bind_eq_bind, Option.bind_some]
  rfl

theorem close_table {done : Entries} (entries : Entries) {name : Key}
    (hnew : Entries.find? done name = none) :
    (⟨{ entries := done }, { entries }, .table [] name⟩ : Assembly).close =
      some { entries := done ++ [(name, .table .declared entries)] } := by
  have hput := Table.put_new (t := { entries := done }) hnew (.table .declared entries)
  change (descend false _ [] { entries := done }).map Prod.snd = _
  rw [descend, hnew, ← hput]
  rfl

theorem lines_header {name : Key} (h : IsBare name) (fuel : Nat) (a : Assembly) (rest : List Char) :
    lines (fuel + 1) a ('[' :: (name ++ ']' :: '\n' :: rest)) =
      (a.header [name]).bind fun next => lines fuel next rest := by
  have hkey : keyPath (name ++ ']' :: '\n' :: rest) = some ([name], ']' :: '\n' :: rest) :=
    keyPath_bare h rfl rfl (by simp)
  have hpath : headerPath [']'] (name ++ ']' :: '\n' :: rest) = some ([name], rest) := by
    rw [headerPath, hkey]
    rfl
  have hline : line a ('[' :: (name ++ ']' :: '\n' :: rest)) =
      (a.header [name]).bind fun next => some (next, rest) := by
    rw [line, hpath]
    · rfl
    · exact fun _ => h.append_ne_cons rfl _ _
  change (line a ('[' :: (name ++ ']' :: '\n' :: rest))).bind _ = _
  rw [hline, Option.bind_assoc]
  rfl

/-- A section is read as one more table. -/
theorem lines_section {s : Key × Fields} (hs : ReadableSection s) {a : Assembly} {done : Entries}
    (hclose : a.close = some { entries := done }) (hnew : Entries.find? done s.1 = none) :
    ∃ b : Assembly, b.close = some { entries := done ++ [sectionEntry s] } ∧
      ∀ fuel rest, lines (fuel + s.2.length + 1) a (sectionText s ++ rest) = lines fuel b rest := by
  refine ⟨⟨{ entries := done }, { entries := s.2.map fieldEntry }, .table [] s.1⟩,
    close_table _ hnew, fun fuel rest => ?_⟩
  have htext : sectionText s ++ rest =
      '[' :: (s.1 ++ ']' :: '\n' :: (s.2.flatMap fieldText ++ rest)) := by
    simp [sectionText]
  rw [htext, lines_header hs.bare, header_new hclose hnew, Option.bind_some,
    lines_fields hs.fields hs.distinct rfl (fun _ _ => rfl)]
  rfl

theorem lines_sections {sections : Sections} (hsections : ∀ s ∈ sections, ReadableSection s)
    (hnames : (sections.map Prod.fst).Nodup)
    {a : Assembly} {done : Entries} (hclose : a.close = some { entries := done })
    (hnew : ∀ s ∈ sections, Entries.find? done s.1 = none) {fuel : Nat}
    (hfuel : (sections.flatMap fun s => '\n' :: sectionText s).length < fuel) :
    (lines fuel a (sections.flatMap fun s => '\n' :: sectionText s)).bind Assembly.close =
      some { entries := done ++ sections.map sectionEntry } := by
  induction sections generalizing a done fuel with
  | nil =>
    obtain ⟨n, rfl⟩ := Nat.exists_eq_succ_of_ne_zero (Nat.ne_zero_of_lt hfuel)
    rw [List.map_nil, List.append_nil]
    exact hclose
  | cons s more ih =>
    rw [List.map_cons, List.nodup_cons] at hnames
    rw [List.forall_mem_cons] at hsections
    obtain ⟨b, hb, hlines⟩ := lines_section hsections.1 hclose (hnew s List.mem_cons_self)
    have hrest := find?_append_entry (fun r hr => hnew r (List.mem_cons_of_mem _ hr)) hnames.1
      (sectionEntry s).2
    -- a line for the blank, one for the header and one for each field
    rw [List.flatMap_cons, List.length_append, List.length_cons] at hfuel
    have hlength := length_le_sectionText s
    obtain ⟨n, rfl⟩ : ∃ n, fuel = n + s.2.length + 1 + 1 :=
      ⟨fuel - (s.2.length + 2), by omega⟩
    have hblank : lines (n + s.2.length + 1 + 1) a
        ((s :: more).flatMap fun s => '\n' :: sectionText s) =
          lines (n + s.2.length + 1) a
            (sectionText s ++ more.flatMap fun s => '\n' :: sectionText s) := rfl
    rw [hblank, hlines, ih hsections.2 hnames.2 hb hrest (by omega)]
    simp

/-- A document of sections is read as their tables. -/
theorem parse_documentText {sections : Sections} (hsections : ∀ s ∈ sections, ReadableSection s)
    (hnames : (sections.map Prod.fst).Nodup) :
    parse (documentText sections) = some (sections.map sectionEntry) := by
  cases sections with
  | nil => rfl
  | cons s more =>
    rw [List.map_cons, List.nodup_cons] at hnames
    rw [List.forall_mem_cons] at hsections
    have hstart : ({} : Assembly).close = some { entries := [] } := rfl
    obtain ⟨b, hb, hlines⟩ := lines_section hsections.1 hstart rfl
    have hempty : ∀ r ∈ more, Entries.find? [] r.1 = none := fun _ _ => rfl
    have hnew := find?_append_entry hempty hnames.1 (sectionEntry s).2
    have hlength := length_le_sectionText s
    obtain ⟨n, hn⟩ : ∃ n, (documentText (s :: more)).length + 1 = n + s.2.length + 1 :=
      ⟨(documentText (s :: more)).length - s.2.length, by
        rw [documentText, List.length_append]
        omega⟩
    have hfuel : (more.flatMap fun s => '\n' :: sectionText s).length < n := by
      rw [documentText, List.length_append] at hn
      omega
    have hparse : parse (documentText (s :: more)) =
        (lines (n + s.2.length + 1) {} (documentText (s :: more))).bind
          fun a => a.close.bind fun t => some t.entries := by
      rw [← hn]
      rfl
    rw [hparse, documentText, hlines, ← Option.bind_assoc,
      lines_sections hsections.2 hnames.2 hb hnew hfuel]
    rfl

theorem documentOf_eq_map (entries : Entries) :
    documentOf entries = entries.map fun entry => (entry.1, entry.2.toValue) := by
  induction entries with
  | nil => rw [documentOf, List.map_nil]
  | cons entry entries ih => rw [documentOf, List.map_cons, ih]

theorem documentOf_fieldEntries (fields : Fields) :
    documentOf (fields.map fieldEntry) = fields.document := by
  rw [documentOf_eq_map, List.map_map]
  exact List.map_congr_left fun field _ => by simp [fieldEntry]

theorem documentOf_sectionEntries (sections : Sections) :
    documentOf (sections.map sectionEntry) = sections.document := by
  rw [documentOf_eq_map, List.map_map]
  refine List.map_congr_left fun s _ => ?_
  simp [sectionEntry, Node.toValue, documentOf_fieldEntries]

/-- A format reads back the plain sections that it writes, and writes them just if their integers
have 64 bits. -/
structure Format.Faithful (format : Format) : Prop where
  reads_back : ∀ sections : Sections, sections.Plain → sections.isWritable = true →
    ∃ text, format.write sections = .ok text ∧ format.read text = some sections.document
  refuses : ∀ sections : Sections, sections.Plain → sections.isWritable = false →
    ∃ reason, format.write sections = .error reason

theorem Sections.Plain.readable {sections : Sections} (h : sections.Plain)
    (hwritable : sections.isWritable = true) : ∀ s ∈ sections, ReadableSection s := by
  intro s hs
  have hfields := h.fields s.2 (List.mem_map_of_mem hs)
  refine ⟨h.bare s.1 (List.mem_map_of_mem hs), hfields.distinct, fun field hfield => ?_⟩
  refine ⟨hfields.bare field.1 (List.mem_map_of_mem hfield), ?_⟩
  exact Scalar.readsAs (hfields.scalars field.2 (List.mem_map_of_mem hfield))
    (List.all_eq_true.mp (List.all_eq_true.mp hwritable s hs) field hfield)

theorem faithful_standard : standard.Faithful where
  reads_back sections hplain hwritable := by
    refine ⟨documentText sections, if_pos hwritable, ?_⟩
    change (parse (documentText sections)).map documentOf = _
    rw [parse_documentText (hplain.readable hwritable) hplain.distinct, Option.map_some,
      documentOf_sectionEntries]
  refuses sections _ hwritable := ⟨_, if_neg (by rw [hwritable]; exact Bool.false_ne_true)⟩

end TuneRelay.Toml
