/-
# DataInlay.Proofs.TreesApart — file trees that differ only where nobody looks

Following a path looks at the locations that it leads through and at its own, and at no
others. So in two trees that agree outside some places, a path that keeps clear of these
leads to the same location, where the same stands, or fails alike.

Of what a path leads through, it asks only whether that is a directory. So in trees that
differ in files alone, a path that does not lead *to* one of these still leads to the same
location, or nowhere. Why it leads nowhere can then differ, for a path that goes on behind a
file which one of the trees has not: such a file is seen, but no more than this is seen of it.

Both are ways to lead alike (`FileTree.LeadsAlike`). What is done at such paths comes to the
same in both trees, and leaves them in agreement: opening and reading, creating, and a whole
conversion (`convertFile_alike`).
-/
import DataInlay.Proofs.FileAccess

namespace DataInlay

namespace FileTree

variable {t t' : FileTree} {S : Location → Prop} {exact : Prop}

/-! ## Agreement -/

/-- The trees start paths from the same directory, and hold the same at all locations but
those of `S`. -/
structure AgreeOutside (t t' : FileTree) (S : Location → Prop) : Prop where
  get? : ∀ l, ¬ S l → t.get? l = t'.get? l
  working : t.workingDirectory = t'.workingDirectory

/-- The path neither leads through a location of `S` nor to one. -/
def KeepsClear (t : FileTree) (S : Location → Prop) (p : Path) : Prop :=
  ∀ l ∈ locationsOf t p, ¬ S l

instance [DecidablePred S] (p : Path) : Decidable (t.KeepsClear S p) :=
  inferInstanceAs (Decidable (∀ l ∈ locationsOf t p, ¬ S l))

/-- The path does not lead to a location of `S`. -/
def EndsOutside (t : FileTree) (S : Location → Prop) (p : Path) : Prop :=
  ∀ l, t.locate p = .ok l → ¬ S l

instance [DecidablePred S] (p : Path) : Decidable (t.EndsOutside S p) :=
  match h : t.locate p with
  | .ok l => decidable_of_iff (¬ S l)
    ⟨fun outside _ hk => Except.ok.inj (h.symm.trans hk) ▸ outside, fun outside => outside l h⟩
  | .error _ => .isTrue fun _ hk => nomatch h.symm.trans hk

/-- Neither tree has a directory in `S`. -/
def NoDirectories (t t' : FileTree) (S : Location → Prop) : Prop :=
  ∀ l, S l → t.get? l ≠ some .directory ∧ t'.get? l ≠ some .directory

/-- The path leads to the same location in both trees, which is not in `S`, or to none. In
that case the fault is the same as well, if the trees are to be `exact` about it. -/
def LeadsAlike (exact : Prop) (t t' : FileTree) (S : Location → Prop) (p : Path) : Prop :=
  (∃ l, t.locate p = .ok l ∧ t'.locate p = .ok l ∧ ¬ S l)
    ∨ ∃ fault fault', t.locate p = .error fault ∧ t'.locate p = .error fault'
      ∧ (exact → fault = fault')

/-- Putting the same in the same place keeps trees in agreement. -/
theorem AgreeOutside.set (h : t.AgreeOutside t' S) {l : Location} (hl : l ≠ []) (e : Entry) :
    (t.set l e).AgreeOutside (t'.set l e) S := by
  refine ⟨fun k hk => ?_, h.working⟩
  rw [get?_set t hl, get?_set t' hl, h.get? k hk]

/-! ## Following a path that keeps clear -/

/-- The locations that lead to a name, the last of them first, and the one where it leads. -/
def passOn (start : Location) (seen : List Location) (name : Name) : List Location :=
  match stepTo (seen.headD start) name with
  | .ok l => l :: seen
  | .error _ => seen

theorem locationsOf_eq (t : FileTree) (p : Path) :
    ∃ start, (if p.head? = some Ascii.slash then [] else t.workingDirectory) = start
      ∧ locationsOf t p = ((names p).foldl (passOn start) [start]).reverse :=
  ⟨_, rfl, rfl⟩

theorem mem_passed {start k : Location} {seen : List Location} (h : k ∈ seen)
    (names : List Name) : k ∈ names.foldl (passOn start) seen := by
  induction names generalizing seen with
  | nil => exact h
  | cons name names ih =>
    apply ih
    unfold passOn
    split
    · exact List.mem_cons_of_mem _ h
    · exact h

/-- Names that keep clear of `S` lead to the same place in both trees, and not into `S`. -/
theorem walk_congr (h : t.AgreeOutside t' S) {start l : Location} {seen : List Location}
    {names : List Name} (clear : ∀ k ∈ names.foldl (passOn start) (l :: seen), ¬ S k) :
    t.walk l names = t'.walk l names ∧ ∀ k, t.walk l names = .ok k → ¬ S k := by
  have here : ¬ S l := clear l (mem_passed List.mem_cons_self names)
  induction names generalizing l seen with
  | nil =>
    refine ⟨rfl, fun k hk => ?_⟩
    cases hk
    exact here
  | cons name names ih =>
    rw [List.foldl_cons, passOn, List.headD_cons] at clear
    rw [walk, walk, ← h.get? l here]
    split
    · cases hstep : stepTo l name with
      | error fault => exact ⟨rfl, fun _ hl => by cases hl⟩
      | ok next =>
        rw [hstep] at clear
        exact ih clear (clear next (mem_passed List.mem_cons_self names))
    · exact ⟨rfl, fun _ hl => by cases hl⟩
    · exact ⟨rfl, fun _ hl => by cases hl⟩

variable {p : Path}

/-- A path that keeps clear of `S` leads to the same location, which is not in `S`. -/
theorem locate_congr (h : t.AgreeOutside t' S) (clear : t.KeepsClear S p) :
    t.locate p = t'.locate p ∧ t.EndsOutside S p := by
  obtain ⟨start, hstart, hlocations⟩ := locationsOf_eq t p
  have passed : ∀ k ∈ (names p).foldl (passOn start) [start], ¬ S k := by
    intro k hk
    apply clear
    rw [hlocations]
    exact List.mem_reverse.mpr hk
  rw [EndsOutside, locate, locate, ← h.working, hstart]
  split
  · exact ⟨rfl, fun _ hl => by cases hl⟩
  · split
    · exact ⟨rfl, fun _ hl => by cases hl⟩
    · split
      · exact ⟨rfl, fun _ hl => by cases hl⟩
      · exact walk_congr h passed

theorem leadsAlike_of_clear (h : t.AgreeOutside t' S) (clear : t.KeepsClear S p) :
    LeadsAlike True t t' S p := by
  obtain ⟨hlocate, houtside⟩ := locate_congr h clear
  cases hl : t.locate p with
  | ok l => exact .inl ⟨l, hl, hlocate ▸ hl, houtside l hl⟩
  | error fault => exact .inr ⟨fault, fault, hl, hlocate ▸ hl, fun _ => rfl⟩

/-! ## Following a path past files -/

theorem AgreeOutside.directory_iff (h : t.AgreeOutside t' S) (hS : NoDirectories t t' S)
    (k : Location) : t'.get? k = some .directory ↔ t.get? k = some .directory := by
  by_cases hk : S k
  · exact iff_of_false (hS k hk).2 (hS k hk).1
  · rw [h.get? k hk]

theorem leadsAlike_of_files (h : t.AgreeOutside t' S) (hS : NoDirectories t t' S)
    (outside : t.EndsOutside S p) : LeadsAlike False t t' S p := by
  have located := locate_eq_ok_iff (h.directory_iff hS) h.working.symm p
  cases hl : t.locate p with
  | ok l => exact .inl ⟨l, hl, (located l).mpr hl, outside l hl⟩
  | error fault =>
    cases hl' : t'.locate p with
    | ok l => exact absurd ((located l).mp hl') (by rw [hl]; exact nofun)
    | error fault' => exact .inr ⟨fault, fault', hl, hl', False.elim⟩

/-- Neither tree has the end of such a path in `S`. -/
theorem LeadsAlike.outside (lead : LeadsAlike exact t t' S p) {l : Location}
    (hl : t.locate p = .ok l ∨ t'.locate p = .ok l) : ¬ S l := by
  rcases lead with ⟨k, hk, hk', hS⟩ | ⟨fault, fault', hfault, hfault', -⟩
  · rw [hk, hk', or_self] at hl
    cases hl
    exact hS
  · rw [hfault, hfault'] at hl
    rcases hl with hl | hl <;> cases hl

/-! ## What is done at a path -/

theorem openInput_alike (h : t.AgreeOutside t' S) (lead : LeadsAlike exact t t' S p) :
    (∃ opened, t.openInput p = .ok opened ∧ t'.openInput p = .ok opened)
      ∨ ∃ fault fault', t.openInput p = .error fault ∧ t'.openInput p = .error fault'
        ∧ (exact → fault = fault') := by
  rw [openInput, openInput]
  rcases lead with ⟨l, hl, hl', hS⟩ | ⟨fault, fault', hl, hl', same⟩
  · rw [hl, hl', Except.bind, Except.bind, ← h.get? l hS]
    rcases t.get? l with _ | (_ | _ | _ | _)
    · exact .inr ⟨_, _, rfl, rfl, fun _ => rfl⟩
    · exact .inr ⟨_, _, rfl, rfl, fun _ => rfl⟩
    · exact .inl ⟨_, rfl, rfl⟩
    · exact .inl ⟨_, rfl, rfl⟩
    · exact .inl ⟨_, rfl, rfl⟩
  · rw [hl, hl']
    exact .inr ⟨fault, fault', rfl, rfl, same⟩

/-- Creating fails alike, or is done at the same location and keeps the trees in agreement. -/
theorem create_alike (h : t.AgreeOutside t' S) (lead : LeadsAlike exact t t' S p) :
    (∃ l u u', t.create p = .ok (l, u) ∧ t'.create p = .ok (l, u')
      ∧ ¬ S l ∧ u.AgreeOutside u' S)
    ∨ ∃ fault fault', t.create p = .error fault ∧ t'.create p = .error fault'
      ∧ (exact → fault = fault') := by
  rw [create, create]
  rcases lead with ⟨l, hl, hl', hS⟩ | ⟨fault, fault', hl, hl', same⟩
  · rw [hl, hl', Except.bind, Except.bind, ← h.get? l hS]
    have emptied (hno : t.get? l ≠ some .directory) :=
      h.set (ne_root_of_not_directory hno) (.file [])
    rcases hentry : t.get? l with _ | (_ | _ | _ | _)
    · exact .inl ⟨l, _, _, rfl, rfl, hS, emptied (by simp [hentry])⟩
    · exact .inr ⟨_, _, rfl, rfl, fun _ => rfl⟩
    · exact .inl ⟨l, _, _, rfl, rfl, hS, emptied (by simp [hentry])⟩
    · exact .inl ⟨l, t, t', rfl, rfl, hS, h⟩
    · exact .inl ⟨l, t, t', rfl, rfl, hS, h⟩
  · rw [hl, hl']
    exact .inr ⟨fault, fault', rfl, rfl, same⟩

end FileTree

/-! ## Errors that are reported alike -/

/-- The errors have the same code, message and help and name the same path. They may differ in
the fault behind them, and so in the cause that a report gives below the message. -/
structure InlayError.Alike (e e' : InlayError) : Prop where
  code : e.code = e'.code
  message : e.message = e'.message
  help? : e.help? = e'.help?
  path? : e.path? = e'.path?

/-- The conclusions are the same, or errors alike, and these the same ones if they are to be
`exact`. -/
inductive Conclusion.Alike (exact : Prop) {α : Type} :
    Conclusion InlayError α → Conclusion InlayError α → Prop
  | same (result : Conclusion InlayError α) : Alike exact result result
  | errors {e e' : InlayError} (h : e.Alike e') (same : exact → e = e') :
      Alike exact (.error e) (.error e')

/-! ## Conversions -/

section Conversions

variable {t t' : FileTree} {S : Location → Prop} {exact : Prop} {input output : Path}

theorem openInput_alike (h : t.AgreeOutside t' S)
    (lead : FileTree.LeadsAlike exact t t' S input) :
    (∃ opened, openInput t input = .ok opened ∧ openInput t' input = .ok opened)
      ∨ ∃ e e', openInput t input = .error e ∧ openInput t' input = .error e'
        ∧ e.Alike e' ∧ (exact → e = e') := by
  rw [openInput, openInput]
  rcases FileTree.openInput_alike h lead with ⟨opened, ho, ho'⟩ | ⟨fault, fault', ho, ho', same⟩
  · rw [ho, ho']
    exact .inl ⟨opened, rfl, rfl⟩
  · rw [ho, ho']
    exact .inr ⟨_, _, rfl, rfl, ⟨rfl, rfl, rfl, rfl⟩, fun hexact => by rw [same hexact]⟩

/-- **A conversion between paths that lead alike** drops the same lines and gives the same
summary or errors alike, and it keeps the trees in agreement. -/
theorem convertFile_alike (h : t.AgreeOutside t' S)
    (hinput : FileTree.LeadsAlike exact t t' S input)
    (houtput : FileTree.LeadsAlike exact t t' S output) (options : Options) :
    ∃ files files' dropped result result',
      convertFile t input output options = ⟨files, dropped, result⟩
      ∧ convertFile t' input output options = ⟨files', dropped, result'⟩
      ∧ Conclusion.Alike exact result result' ∧ files.AgreeOutside files' S := by
  rw [convertFile, convertFile]
  rcases openInput_alike h hinput with ⟨opened, ho, ho'⟩ | ⟨e, e', ho, ho', halike, hsame⟩
  · rw [ho, ho']
    rcases FileTree.create_alike h houtput with ⟨l, created, created', hcreate, hcreate', hS, agree⟩
      | ⟨fault, fault', hcreate, hcreate', same⟩
    · rw [createOutput, createOutput, hcreate, hcreate']
      dsimp only [Except.mapError]
      rw [← agree.get? l hS]
      split
      · next hfile =>
        have hroot : l ≠ [] := by
          apply FileTree.ne_root_of_not_directory (t := created)
          rw [hfile]
          exact nofun
        exact ⟨_, _, _, _, _, rfl, rfl, .same _, agree.set hroot _⟩
      · exact ⟨_, _, _, _, _, rfl, rfl, .same _, agree⟩
    · rw [createOutput, createOutput, hcreate, hcreate']
      refine ⟨t, t', [], _, _, rfl, rfl, .errors ⟨rfl, rfl, rfl, rfl⟩ ?_, h⟩
      exact fun hexact => by rw [same hexact]
  · rw [ho, ho']
    exact ⟨t, t', [], _, _, rfl, rfl, .errors halike hsame, h⟩

end Conversions

end DataInlay
