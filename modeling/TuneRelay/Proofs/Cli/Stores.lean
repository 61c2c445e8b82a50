import TuneRelay.Cli.Files
import Mathlib.Data.List.Basic
import Mathlib.Tactic.SplitIfs

/-!
# Stores that keep to their paths

A lawful store finds what was written where it was written, and a write to one file changes no other
file, and no path that leads to one. The files of a disk are a lawful store.
-/
namespace TuneRelay.Cli

section Stores

variable {State File : Type}

/-- Everything but one file, and the paths to it, is the same in two states. -/
structure Store.SameBut (store : Store State File) (file : File) (before after : State) : Prop where
  contents : ∀ other, other ≠ file → store.content? after other = store.content? before other
  paths : ∀ path other, other ≠ file →
    (store.file? after path = some other ↔ store.file? before path = some other)

/-- A file that is read is there. One that is created is the file that its path leads to, or a new
one, and is empty; filling it gives it its content. -/
structure Store.Lawful (store : Store State File) : Prop where
  read_iff : ∀ s path bytes, store.read s path = .ok bytes ↔
    ∃ file, store.file? s path = some file ∧ store.content? s file = some bytes
  there : ∀ s path file, store.file? s path = some file → store.fileExists s path = true
  created : ∀ s path file next, store.create s path = .ok (file, next) →
    store.file? next path = some file ∧ store.content? next file = some [] ∧
      (∀ old, store.file? s path = some old → old = file) ∧ store.SameBut file s next
  filled : ∀ s path file bytes next, store.file? s path = some file →
    store.content? s file = some [] → store.fill s file bytes = (.ok (), next) →
      store.file? next path = some file ∧ store.content? next file = some bytes ∧
        store.SameBut file s next

/-- What can be created can be filled. -/
def Store.HasRoom (store : Store State File) : Prop :=
  ∀ s path file next bytes, store.create s path = .ok (file, next) →
    ∃ after, store.fill next file bytes = (.ok (), after)

/-- A path leads to a file with some content, the same file as before if it led to one, and nothing
else has changed. -/
def Store.Wrote (store : Store State File) (before after : State) (path : String)
    (content : List UInt8) : Prop :=
  ∃ file, store.file? after path = some file ∧ store.content? after file = some content ∧
    (∀ old, store.file? before path = some old → old = file) ∧ store.SameBut file before after

theorem Store.SameBut.trans {store : Store State File} {file : File} {a b c : State}
    (h : store.SameBut file a b) (h' : store.SameBut file b c) : store.SameBut file a c :=
  ⟨fun other hother => (h'.contents other hother).trans (h.contents other hother),
    fun path other hother => (h'.paths path other hother).trans (h.paths path other hother)⟩

theorem Store.Lawful.wrote {store : Store State File} (h : store.Lawful) {s next after : State}
    {path : String} {file : File} {bytes : List UInt8}
    (hcreate : store.create s path = .ok (file, next))
    (hfill : store.fill next file bytes = (.ok (), after)) : store.Wrote s after path bytes := by
  obtain ⟨hpath, hempty, hold, hcreated⟩ := h.created s path file next hcreate
  obtain ⟨hpath', hcontent, hfilled⟩ := h.filled next path file bytes after hpath hempty hfill
  exact ⟨file, hpath', hcontent, hold, hcreated.trans hfilled⟩

end Stores

namespace Disk

variable {d : Disk} {place : Place}

theorem lookup_filter_ne (files : List (Place × List UInt8)) (place : Place) :
    (files.filter (·.1 != place)).lookup place = none := by
  rw [List.lookup_eq_none_iff]
  intro entry hentry
  have hne : (entry.1 != place) = true := (List.mem_filter.mp hentry).2
  rw [bne_iff_ne] at hne
  exact bne_iff_ne.mpr hne.symm

theorem lookup_filter_of_ne {other : Place} (h : other ≠ place)
    (files : List (Place × List UInt8)) :
    (files.filter (·.1 != place)).lookup other = files.lookup other := by
  induction files with
  | nil => rfl
  | cons entry rest ih =>
    obtain ⟨key, content⟩ := entry
    by_cases hkey : key = place
    · subst hkey
      simp [List.lookup_cons, ih, beq_false_of_ne h]
    · by_cases hother : other = key
      · simp [hkey, hother]
      · simp [List.lookup_cons, hkey, beq_false_of_ne hother, ih]

@[simp] theorem lookup_put_self (d : Disk) (place : Place) (bytes : List UInt8) :
    (d.put place bytes).files.lookup place = some bytes := by
  simp [put, List.lookup_append, lookup_filter_ne]

theorem lookup_put_of_ne {other : Place} (h : other ≠ place) (d : Disk) (bytes : List UInt8) :
    (d.put place bytes).files.lookup other = d.files.lookup other := by
  have hlast : List.lookup other [(place, bytes)] = none := by
    simp [List.lookup_cons, beq_false_of_ne h]
  simp only [put, List.lookup_append, lookup_filter_of_ne h, hlast, Option.or_none]

theorem lookup_of_follow_file {start : Place} {names : List String}
    (h : d.follow start names = .file place) : (d.files.lookup place).isSome = true := by
  induction names generalizing start with
  | nil => cases h
  | cons name rest ih =>
    rw [follow] at h
    split_ifs at h with _ _ hthere
    · exact ih h
    · exact ih h
    · cases h
      exact hthere
    · exact ih h

theorem lookup_of_follow_vacant {start : Place} {names : List String}
    (h : d.follow start names = .vacant place) :
    d.files.lookup place = none ∧ d.folders.contains place = false := by
  induction names generalizing start with
  | nil => cases h
  | cons name rest ih =>
    rw [follow] at h
    split_ifs at h with _ _ hthere _ hfolder
    · exact ih h
    · exact ih h
    · exact ih h
    · cases h
      exact ⟨Option.not_isSome_iff_eq_none.mp hthere, Bool.eq_false_iff.mpr hfolder⟩

/-- A new file ends the paths that ended where it is. -/
theorem follow_put {start : Place} {names : List String} {other : Place}
    (h : (d.files.lookup place).isSome = true ∨ d.folders.contains place = false)
    (bytes : List UInt8) : (d.put place bytes).follow start names = .file other ↔
      d.follow start names = .file other ∨
        (other = place ∧ d.follow start names = .vacant other) := by
  induction names generalizing start with
  | nil => simp [follow]
  | cons name rest ih =>
    have hfolders : (d.put place bytes).folders = d.folders := rfl
    by_cases hplace : start ++ [name] = place
    · rw [follow, follow, hplace, lookup_put_self, hfolders]
      rcases h with hfile | hfolder
      · simp only [hfile, Option.isSome_some, if_true]
        split_ifs <;> simp_all
      · simp only [hfolder, Option.isSome_some, if_true]
        split_ifs <;> simp_all
    · rw [follow, follow, lookup_put_of_ne hplace, hfolders]
      split_ifs <;> simp_all

/-- A path is followed from one folder by the same names, whatever files there are. -/
theorem locate_eq_follow (here : Place) (path : String) :
    (∀ d : Disk, d.here = here → d.locate path = .nowhere) ∨
      ∃ start names, ∀ d : Disk, d.here = here → d.locate path = d.follow start names := by
  unfold locate
  split
  case h_1 rest _ =>
    split_ifs
    · exact .inl fun _ _ => rfl
    · exact .inr ⟨[], rest, fun _ _ => rfl⟩
  case h_2 => exact .inr ⟨here, _, fun d hd => by rw [hd]⟩

theorem lookup_of_locate_file {path : String} (h : d.locate path = .file place) :
    (d.files.lookup place).isSome = true := by
  rcases locate_eq_follow d.here path with hnowhere | ⟨start, names, hfollow⟩
  · rw [hnowhere d rfl] at h
    cases h
  · exact lookup_of_follow_file ((hfollow d rfl).symm.trans h)

theorem lookup_of_locate_vacant {path : String} (h : d.locate path = .vacant place) :
    d.files.lookup place = none ∧ d.folders.contains place = false := by
  rcases locate_eq_follow d.here path with hnowhere | ⟨start, names, hfollow⟩
  · rw [hnowhere d rfl] at h
    cases h
  · exact lookup_of_follow_vacant ((hfollow d rfl).symm.trans h)

theorem locate_put {other : Place}
    (h : (d.files.lookup place).isSome = true ∨ d.folders.contains place = false)
    (bytes : List UInt8) (path : String) : (d.put place bytes).locate path = .file other ↔
      d.locate path = .file other ∨ (other = place ∧ d.locate path = .vacant other) := by
  rcases locate_eq_follow d.here path with hnowhere | ⟨start, names, hfollow⟩
  · simp [hnowhere d rfl, hnowhere (d.put place bytes) rfl]
  · rw [hfollow d rfl, hfollow (d.put place bytes) rfl, follow_put h]

theorem file?_eq_some_iff {path : String} :
    store.file? d path = some place ↔ d.locate path = .file place := by
  simp only [store]
  split <;> simp_all

theorem sameBut_put
    (h : (d.files.lookup place).isSome = true ∨ d.folders.contains place = false)
    (bytes : List UInt8) : store.SameBut place d (d.put place bytes) where
  contents _ hother := lookup_put_of_ne hother d bytes
  paths path other hother := by
    rw [file?_eq_some_iff, file?_eq_some_iff, locate_put h]
    simp [hother]

theorem create_eq_ok_iff {path : String} {next : Disk} :
    d.create path = .ok (place, next) ↔
      (d.locate path = .file place ∨ d.locate path = .vacant place) ∧ next = d.put place [] := by
  unfold create
  constructor
  · intro h
    split at h
    case h_1 hplace =>
      cases h
      exact ⟨.inl hplace, rfl⟩
    case h_2 hplace =>
      cases h
      exact ⟨.inr hplace, rfl⟩
    all_goals cases h
  · rintro ⟨hplace | hplace, rfl⟩
    · rw [hplace]
    · rw [hplace]

theorem lawful_store : store.Lawful where
  read_iff d path bytes := by
    simp only [file?_eq_some_iff]
    change d.read path = _ ↔ _
    unfold read
    cases hplace : d.locate path with
    | file place =>
      obtain ⟨content, hcontent⟩ := Option.isSome_iff_exists.mp (lookup_of_locate_file hplace)
      simp [store, hcontent]
    | _ => simp
  there d path place h := by
    rw [file?_eq_some_iff] at h
    simp [store, fileExists, h]
  created d path place next h := by
    obtain ⟨hplace, rfl⟩ := create_eq_ok_iff.mp h
    have hfree : (d.files.lookup place).isSome = true ∨ d.folders.contains place = false := by
      rcases hplace with hfile | hvacant
      · exact .inl (lookup_of_locate_file hfile)
      · exact .inr (lookup_of_locate_vacant hvacant).2
    refine ⟨?_, lookup_put_self d place [], fun old hold => ?_, sameBut_put hfree []⟩
    · rw [file?_eq_some_iff, locate_put hfree]
      exact hplace.imp_right fun hvacant => ⟨rfl, hvacant⟩
    · rw [file?_eq_some_iff] at hold
      rcases hplace with hfile | hvacant
      · rw [hfile] at hold
        cases hold
        rfl
      · rw [hvacant] at hold
        cases hold
  filled d path place bytes next hpath _ h := by
    obtain rfl : d.put place bytes = next := (Prod.mk.inj h).2
    rw [file?_eq_some_iff] at hpath
    have hthere := lookup_of_locate_file hpath
    refine ⟨?_, lookup_put_self d place bytes, sameBut_put (.inl hthere) bytes⟩
    rw [file?_eq_some_iff, locate_put (.inl hthere)]
    exact .inl hpath

theorem lookup_of_wrote {path : String} {content : List UInt8} {after : Disk}
    (h : store.Wrote d after path content) (hplace : d.locate path = .file place) :
    after.files.lookup place = some content ∧
      ∀ other, other ≠ place → after.files.lookup other = d.files.lookup other := by
  obtain ⟨file, -, hcontent, hold, hsame⟩ := h
  obtain rfl := hold place (file?_eq_some_iff.mpr hplace)
  exact ⟨hcontent, hsame.contents⟩

theorem hasRoom_store : store.HasRoom := fun _ _ _ _ _ _ => ⟨_, rfl⟩

end Disk
end TuneRelay.Cli
