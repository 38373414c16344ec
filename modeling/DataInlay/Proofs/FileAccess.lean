/-
# DataInlay.Proofs.FileAccess — what a path leads to, and what may be done with it

Opening and creating follow a path to its location and then go by what stands there.
These laws say what comes of it by that entry (`FileTree.found?`), so that the conversion
of files need not follow paths itself.

Following a path looks at directories only. So putting a file where no directory is
leaves every path where it led, and changes what it leads to only if that is the file
(`FileTree.found?_of_put`).
-/
import DataInlay.Conversion.File

namespace DataInlay

namespace FileTree

/-! ## What a path leads to -/

/-- What stands at the end of a path. -/
def found? (t : FileTree) (p : Path) : Option Entry :=
  match t.locate p with
  | .ok l => t.get? l
  | .error _ => none

/-- Both paths lead to one file. -/
def SameFile (t : FileTree) (p q : Path) : Prop :=
  ∃ l content, t.locate p = .ok l ∧ t.locate q = .ok l ∧ t.get? l = some (.file content)

variable {t t' : FileTree} {p : Path} {l : Location}

theorem found?_of_locate (h : t.locate p = .ok l) : t.found? p = t.get? l := by
  rw [found?, h]

theorem locate_of_found? {e : Entry} (h : t.found? p = some e) :
    ∃ l, t.locate p = .ok l ∧ t.get? l = some e := by
  unfold found? at h
  split at h
  · next l hl => exact ⟨l, hl, h⟩
  · cases h

theorem isFile_iff : t.isFile p = true ↔ ∃ content, t.found? p = some (.file content) := by
  rw [isFile, found?]
  cases t.locate p with
  | error fault => simp
  | ok l =>
    dsimp only
    split
    · next content hfile => exact iff_of_true rfl ⟨content, hfile⟩
    · next hno =>
      refine iff_of_false Bool.false_ne_true ?_
      rintro ⟨content, hfile⟩
      exact hno content hfile

/-! ## Opening and creating, by what is there -/

theorem openInput_of_unreadable (h : t.found? p = none ∨ t.found? p = some .directory) :
    ∃ fault, t.openInput p = .error fault := by
  rw [openInput]
  cases hl : t.locate p with
  | error fault => exact ⟨fault, rfl⟩
  | ok l =>
    rw [found?_of_locate hl] at h
    rcases h with hnone | hdirectory
    · exact ⟨_, by rw [Except.bind, hnone]⟩
    · exact ⟨_, by rw [Except.bind, hdirectory]⟩

theorem openInput_of_file {content : Bytes} (hl : t.locate p = .ok l)
    (h : t.get? l = some (.file content)) : t.openInput p = .ok (l, .bytes content) := by
  rw [openInput, hl, Except.bind, h]

theorem read_of_file {content : Bytes} (h : t.found? p = some (.file content)) :
    t.read p = .ok content := by
  obtain ⟨l, hl, hfile⟩ := locate_of_found? h
  rw [read, openInput_of_file hl hfile]

/-- What is opened is a file, or a device with nothing or no end of it to read. -/
theorem openInput_eq_ok {opened : Input} (h : t.openInput p = .ok (l, opened)) :
    t.locate p = .ok l ∧ (
      (∃ content, opened = .bytes content ∧ t.get? l = some (.file content))
      ∨ opened = .bytes [] ∧ t.get? l = some .null
      ∨ opened = .endless ∧ t.get? l = some .full) := by
  rw [openInput] at h
  cases hl : t.locate p with
  | error fault =>
    rw [hl] at h
    cases h
  | ok k =>
    rw [hl, Except.bind] at h
    cases hk : t.get? k with
    | none =>
      rw [hk] at h
      cases h
    | some e =>
      rw [hk] at h
      cases e with
      | directory => cases h
      | file content =>
        cases h
        exact ⟨rfl, .inl ⟨content, rfl, hk⟩⟩
      | null =>
        cases h
        exact ⟨rfl, .inr (.inl ⟨rfl, hk⟩)⟩
      | full =>
        cases h
        exact ⟨rfl, .inr (.inr ⟨rfl, hk⟩)⟩

theorem create_of_uncreatable
    (h : (∃ fault, t.locate p = .error fault) ∨ t.found? p = some .directory) :
    ∃ fault, t.create p = .error fault := by
  rw [create]
  rcases h with ⟨fault, hl⟩ | hdirectory
  · exact ⟨fault, by rw [hl]; rfl⟩
  · obtain ⟨l, hl, h⟩ := locate_of_found? hdirectory
    exact ⟨_, by rw [hl, Except.bind, h]⟩

/-- A file is created where nothing is, and emptied where one is. -/
theorem create_of_creatable (hl : t.locate p = .ok l)
    (h : t.get? l = none ∨ ∃ old, t.get? l = some (.file old)) :
    t.create p = .ok (l, t.set l (.file [])) := by
  rw [create, hl, Except.bind]
  rcases h with hnone | ⟨old, hfile⟩
  · rw [hnone]
  · rw [hfile]

theorem not_directory_of_creatable (h : t.get? l = none ∨ ∃ old, t.get? l = some (.file old)) :
    t.get? l ≠ some .directory := by
  rcases h with hnone | ⟨old, hfile⟩
  · rw [hnone]
    exact nofun
  · rw [hfile]
    exact nofun

theorem ne_root_of_not_directory (h : t.get? l ≠ some .directory) : l ≠ [] := by
  rintro rfl
  exact h rfl

theorem create_of_full (hl : t.locate p = .ok l) (h : t.get? l = some .full) :
    t.create p = .ok (l, t) := by
  rw [create, hl, Except.bind, h]

/-- What is created is an empty file, or a device that was there. -/
theorem create_eq_ok (h : t.create p = .ok (l, t')) :
    t.locate p = .ok l ∧ (
      t' = t.set l (.file []) ∧ (t.get? l = none ∨ ∃ old, t.get? l = some (.file old))
      ∨ t' = t ∧ (t.get? l = some .null ∨ t.get? l = some .full)) := by
  rw [create] at h
  cases hl : t.locate p with
  | error fault =>
    rw [hl] at h
    cases h
  | ok k =>
    rw [hl, Except.bind] at h
    cases hk : t.get? k with
    | none =>
      rw [hk] at h
      cases h
      exact ⟨rfl, .inl ⟨rfl, .inl hk⟩⟩
    | some e =>
      rw [hk] at h
      cases e with
      | directory => cases h
      | file old =>
        cases h
        exact ⟨rfl, .inl ⟨rfl, .inr ⟨old, hk⟩⟩⟩
      | null =>
        cases h
        exact ⟨rfl, .inr ⟨rfl, .inl hk⟩⟩
      | full =>
        cases h
        exact ⟨rfl, .inr ⟨rfl, .inr hk⟩⟩

/-- Something stands where a file or a device has been created. -/
theorem get?_of_create (h : t.create p = .ok (l, t')) : ∃ e, t'.get? l = some e := by
  obtain ⟨-, ⟨rfl, hcreatable⟩ | ⟨rfl, hnull | hfull⟩⟩ := create_eq_ok h
  · have hroot := ne_root_of_not_directory (not_directory_of_creatable hcreatable)
    exact ⟨_, (get?_set t hroot _ l).trans (if_pos rfl)⟩
  · exact ⟨_, hnull⟩
  · exact ⟨_, hfull⟩

/-! ## Trees with the same directories -/

/-- Names lead to the same place as long as the directories are the same. -/
theorem walk_eq_ok_iff (h : ∀ k, t'.get? k = some .directory ↔ t.get? k = some .directory)
    (l : Location) (names : List Name) (k : Location) :
    t'.walk l names = .ok k ↔ t.walk l names = .ok k := by
  induction names generalizing l with
  | nil => exact Iff.rfl
  | cons name names ih =>
    have fails : ∀ t : FileTree, t.get? l ≠ some .directory → t.walk l (name :: names) ≠ .ok k := by
      intro t hno
      rw [walk]
      split
      · next hyes => exact absurd hyes hno
      · exact nofun
      · exact nofun
    by_cases hdirectory : t.get? l = some .directory
    · rw [walk, walk, hdirectory, (h l).mpr hdirectory]
      cases stepTo l name with
      | error fault => exact Iff.rfl
      | ok next => exact ih next
    · exact iff_of_false (fails t' (mt (h l).mp hdirectory)) (fails t hdirectory)

theorem locate_eq_ok_iff (h : ∀ k, t'.get? k = some .directory ↔ t.get? k = some .directory)
    (hworking : t'.workingDirectory = t.workingDirectory) (p : Path) (k : Location) :
    t'.locate p = .ok k ↔ t.locate p = .ok k := by
  simp only [locate, hworking]
  split
  · exact Iff.rfl
  · split
    · exact Iff.rfl
    · split
      · exact Iff.rfl
      · exact walk_eq_ok_iff h _ _ _

/-- **A file that is put in place** is what all paths to that place lead to, and no other
path leads to anything else than before. -/
theorem found?_of_put {content : Bytes} (hno : t.get? l ≠ some .directory)
    (hget : ∀ k, t'.get? k = if k = l then some (.file content) else t.get? k)
    (hworking : t'.workingDirectory = t.workingDirectory) (p : Path) :
    (t.locate p = .ok l → t'.found? p = some (.file content))
      ∧ (t.locate p ≠ .ok l → t'.found? p = t.found? p) := by
  have directories : ∀ k, t'.get? k = some .directory ↔ t.get? k = some .directory := by
    intro k
    rw [hget]
    split
    · next hk =>
      subst hk
      exact iff_of_false (nofun) hno
    · exact Iff.rfl
  have located := locate_eq_ok_iff directories hworking p
  constructor
  · intro hl
    rw [found?_of_locate ((located l).mpr hl), hget, if_pos rfl]
  · intro hl
    cases hp : t.locate p with
    | ok k =>
      have hk : k ≠ l := by
        rintro rfl
        exact hl hp
      rw [found?_of_locate ((located k).mpr hp), found?_of_locate hp, hget, if_neg hk]
    | error fault =>
      cases hp' : t'.locate p with
      | ok k => exact absurd ((located k).mp hp') (by rw [hp]; exact nofun)
      | error fault' => rw [found?, found?, hp, hp']

end FileTree

end DataInlay
