/-
# DataInlay.Proofs.DerivedPath — the output path, from the parts of the input path

An output path is computed by cutting bytes off the end of the input path, as many as its old
extension has, and setting the new extension on what is left. The cut does not look at what it
removes: slashes and `.` names behind the final name go first, and the final name may lose its
extension wholly, in part or not at all. Here the path is cut into its parts between slashes
instead (`FinalName`), and a name into what stands before its last dot and the rest (`IsStem`).

In all three cases the final name that is left has the old directory and stem
(`withExtension_eq`), which is what the second step goes on from. The one exception is a name
that turns into `..` by the cut, and then names no file (`withExtension_parentLike`).
-/
import DataInlay.Proofs.OutputExtension
import Mathlib.Data.List.Induction

namespace DataInlay

namespace Path

/-! ## The parts of a path -/

/-- A part that is passed over: nothing between two slashes, or a dot. -/
def Idle (part : Bytes) : Prop := part = [] ∨ part = [Ascii.dot]

instance (part : Bytes) : Decidable (Idle part) := inferInstanceAs (Decidable (_ ∨ _))

/-- Parts in front of the final name, each with the slash behind it. -/
def leadingText (front : List Bytes) : Bytes := front.flatMap (· ++ [Ascii.slash])

/-- Parts behind the final name, each with the slash before it. -/
def trailingText (back : List Bytes) : Bytes := back.flatMap (Ascii.slash :: ·)

@[simp] theorem trailingText_nil : trailingText [] = [] := rfl

theorem passed_nil : ∀ part ∈ ([] : List Bytes), Idle part :=
  fun _ hpart => absurd hpart List.not_mem_nil

/-- The final name of a path is its last part that is not passed over. -/
structure FinalName (p : Path) (front : List Bytes) (name : Bytes) (back : List Bytes) :
    Prop where
  parts : p.splitOn Ascii.slash = front ++ name :: back
  named : ¬ Idle name
  passed : ∀ part ∈ back, Idle part

theorem slash_not_mem_part {p : Path} {part : Bytes} (h : part ∈ p.splitOn Ascii.slash) :
    Ascii.slash ∉ part := by
  induction p generalizing part with
  | nil =>
    rw [List.splitOn_nil, List.mem_singleton] at h
    rw [h]
    exact List.not_mem_nil
  | cons b p ih =>
    rw [List.splitOn_cons_eq_if_modifyHead] at h
    split at h
    · rcases List.mem_cons.mp h with rfl | h
      · exact List.not_mem_nil
      · exact ih h
    · next hb =>
      obtain ⟨first, others, hparts⟩ :=
        List.exists_cons_of_ne_nil (List.splitOn_ne_nil Ascii.slash p)
      rw [hparts, List.modifyHead_cons] at h
      rcases List.mem_cons.mp h with rfl | h
      · rw [List.mem_cons, not_or]
        refine ⟨fun hslash => hb (beq_iff_eq.mpr hslash.symm), ih ?_⟩
        rw [hparts]
        exact List.mem_cons_self
      · apply ih
        rw [hparts]
        exact List.mem_cons_of_mem _ h

theorem intercalate_parts (front : List Bytes) (name : Bytes) (back : List Bytes) :
    [Ascii.slash].intercalate (front ++ name :: back)
      = leadingText front ++ name ++ trailingText back := by
  have behind : ∀ (back : List Bytes) (name : Bytes),
      [Ascii.slash].intercalate (name :: back) = name ++ trailingText back := by
    intro back
    induction back with
    | nil =>
      intro name
      rw [List.intercalate_singleton]
      exact (List.append_nil name).symm
    | cons part back ih =>
      intro name
      rw [List.intercalate_cons_cons, ih, List.append_assoc]
      rfl
  induction front with
  | nil => exact behind back name
  | cons part front ih =>
    have some : front ++ name :: back ≠ [] := List.append_ne_nil_of_right_ne_nil _ (by simp)
    rw [List.cons_append, List.intercalate_cons_of_ne_nil some, ih, leadingText, leadingText,
      List.flatMap_cons]
    simp only [List.append_assoc]

namespace FinalName

variable {p : Path} {front back : List Bytes} {name : Bytes}

/-- The path is the parts in front, the final name and the parts behind. -/
theorem text (final : FinalName p front name back) :
    p = leadingText front ++ name ++ trailingText back := by
  have whole : [Ascii.slash].intercalate (p.splitOn Ascii.slash) = p :=
    List.intercalate_splitOn Ascii.slash
  rw [← intercalate_parts, ← final.parts, whole]

theorem slash_not_mem (final : FinalName p front name back) : Ascii.slash ∉ name := by
  apply slash_not_mem_part (p := p)
  rw [final.parts]
  exact List.mem_append_right _ List.mem_cons_self

end FinalName

/-- A path has a final part, or all its parts are passed over. -/
theorem idle_or_finalName (p : Path) :
    (∀ part ∈ p.splitOn Ascii.slash, Idle part)
      ∨ ∃ front name back, FinalName p front name back := by
  have last : ∀ parts : List Bytes, (∀ part ∈ parts, Idle part)
      ∨ ∃ front name back, parts = front ++ name :: back ∧ ¬ Idle name
        ∧ ∀ part ∈ back, Idle part := by
    intro parts
    induction parts with
    | nil => exact .inl passed_nil
    | cons part parts ih =>
      rcases ih with hidle | ⟨front, name, back, hparts, hnamed, hpassed⟩
      · by_cases hpart : Idle part
        · exact .inl (List.forall_mem_cons.mpr ⟨hpart, hidle⟩)
        · exact .inr ⟨[], part, parts, rfl, hpart, hidle⟩
      · exact .inr ⟨part :: front, name, back, by rw [hparts]; rfl, hnamed, hpassed⟩
  refine (last (p.splitOn Ascii.slash)).imp_right ?_
  rintro ⟨front, name, back, hparts, hnamed, hpassed⟩
  exact ⟨front, name, back, hparts, hnamed, hpassed⟩

/-! ## The final name, read backwards -/

/-- Parts that are passed over make no difference behind anything. -/
theorem dropTrailing_behind (s : Bytes) {back : List Bytes} (h : ∀ part ∈ back, Idle part) :
    dropTrailing (s ++ trailingText back).reverse = dropTrailing s.reverse := by
  -- the last part is read first
  induction back using List.reverseRecOn with
  | nil => rw [trailingText_nil, List.append_nil]
  | append_singleton back part ih =>
    have earlier := ih fun part hpart => h part (List.mem_append_left _ hpart)
    have text : s ++ trailingText (back ++ [part])
        = s ++ trailingText back ++ Ascii.slash :: part := by
      rw [trailingText, List.flatMap_append, List.flatMap_singleton, ← List.append_assoc]
      rfl
    rw [text, List.reverse_append, List.reverse_cons, List.append_assoc, ← earlier]
    rcases h part (List.mem_append_right _ List.mem_cons_self) with rfl | rfl
    · rfl
    · exact (dropTrailing.eq_def _).trans rfl

/-- Nothing is dropped from a path that does not end in a slash or in a `.` name. -/
theorem dropTrailing_of_stops {c : UInt8} {before : Bytes} (hslash : c ≠ Ascii.slash)
    (hdot : c = Ascii.dot → ∃ d rest, before = d :: rest ∧ d ≠ Ascii.slash) :
    dropTrailing (c :: before) = c :: before := by
  rw [dropTrailing.eq_def]
  split
  · next h => exact absurd (List.cons.inj h).1 hslash
  · next h =>
    obtain ⟨d, rest, hbefore, hd⟩ := hdot (List.cons.inj h).1
    rw [hbefore] at h
    exact absurd (List.cons.inj (List.cons.inj h).2).1 hd
  · next h =>
    obtain ⟨d, rest, hbefore, -⟩ := hdot (List.cons.inj h).1
    rw [hbefore] at h
    exact absurd (List.cons.inj h).2 (List.cons_ne_nil d rest)
  · rfl

theorem dropTrailing_name (front : List Bytes) {name : Bytes} (named : ¬ Idle name)
    (hslash : Ascii.slash ∉ name) :
    dropTrailing (leadingText front ++ name).reverse = (leadingText front ++ name).reverse := by
  have some : name ≠ [] := fun h => named (.inl h)
  obtain ⟨before, c, rfl⟩ := (List.eq_nil_or_concat name).resolve_left some
  rw [List.concat_eq_append] at *
  rw [List.mem_append, List.mem_singleton, not_or] at hslash
  rw [← List.append_assoc, List.reverse_append, List.reverse_singleton, List.singleton_append]
  refine dropTrailing_of_stops (Ne.symm hslash.2) fun hdot => ?_
  have more : before ≠ [] := by
    rintro rfl
    exact named (.inr (by rw [hdot]; rfl))
  obtain ⟨before, d, rfl⟩ := (List.eq_nil_or_concat before).resolve_left more
  rw [List.concat_eq_append, List.mem_append, List.mem_singleton, not_or] at hslash
  refine ⟨d, (leadingText front ++ before).reverse, ?_, Ne.symm hslash.1.2⟩
  rw [List.concat_eq_append, ← List.append_assoc, List.reverse_append]
  rfl

/-- The parts in front end in a slash, if there are any. -/
theorem reverse_leadingText (front : List Bytes) :
    (leadingText front).reverse = []
      ∨ ∃ rest, (leadingText front).reverse = Ascii.slash :: rest := by
  rcases List.eq_nil_or_concat front with rfl | ⟨front, part, rfl⟩
  · exact .inl rfl
  · refine .inr ⟨(leadingText front ++ part).reverse, ?_⟩
    rw [List.concat_eq_append, leadingText, List.flatMap_append, List.flatMap_singleton,
      ← List.append_assoc, List.reverse_append]
    rfl

/-- A path splits into its directory and its final name, unless that is `..`. -/
theorem splitName?_text (front : List Bytes) {name : Bytes} {back : List Bytes}
    (named : ¬ Idle name) (hslash : Ascii.slash ∉ name) (hback : ∀ part ∈ back, Idle part) :
    splitName? (leadingText front ++ name ++ trailingText back)
      = if name = parentName then none else some (leadingText front, name) := by
  have plain : ∀ b ∈ name.reverse, (b != Ascii.slash) = true := fun b hb =>
    bne_iff_ne.mpr (ne_of_mem_of_not_mem (List.mem_reverse.mp hb) hslash)
  have stops : (leadingText front).reverse.takeWhile (· != Ascii.slash) = []
      ∧ (leadingText front).reverse.dropWhile (· != Ascii.slash) = (leadingText front).reverse := by
    rcases reverse_leadingText front with h | ⟨rest, h⟩ <;> rw [h] <;> exact ⟨rfl, rfl⟩
  have some : name ≠ [] := fun h => named (.inl h)
  rw [splitName?, dropTrailing_behind _ hback, dropTrailing_name front named hslash,
    List.reverse_append, List.takeWhile_append_of_pos plain, List.dropWhile_append_of_pos plain,
    stops.1, stops.2, List.append_nil, List.reverse_reverse, List.reverse_reverse]
  simp only [some, false_or]

/-- A path whose parts are all passed over has no final name. -/
theorem splitName?_of_idle {p : Path} (h : ∀ part ∈ p.splitOn Ascii.slash, Idle part) :
    p.splitName? = none := by
  obtain ⟨first, back, hparts⟩ := List.exists_cons_of_ne_nil (List.splitOn_ne_nil Ascii.slash p)
  rw [hparts] at h
  obtain ⟨hfirst, hback⟩ := List.forall_mem_cons.mp h
  have whole : p = first ++ trailingText back := by
    have text := intercalate_parts [] first back
    rw [List.nil_append, ← hparts, List.intercalate_splitOn] at text
    exact text
  have nothing : dropTrailing p.reverse = [] := by
    rw [whole, dropTrailing_behind first hback]
    rcases hfirst with rfl | rfl <;> rfl
  rw [splitName?, nothing]
  rfl

/-! ## Stems -/

/-- The stem of a name is what stands before its last dot; all of the name when it has no dot
but one at its head. -/
def IsStem (name stem : Bytes) : Prop :=
  (stem ≠ [] ∧ ∃ extension, Ascii.dot ∉ extension ∧ name = stem ++ Ascii.dot :: extension)
  ∨ (Ascii.dot ∉ name.tail ∧ stem = name)

theorem exists_stem (name : Bytes) : ∃ stem, IsStem name stem := by
  rcases name with _ | ⟨c, rest⟩
  · exact ⟨[], .inr ⟨List.not_mem_nil, rfl⟩⟩
  · by_cases hdot : Ascii.dot ∈ rest
    · obtain ⟨after, before, hsplit, hafter⟩ :=
        List.eq_append_cons_of_mem (List.mem_reverse.mpr hdot)
      refine ⟨c :: before.reverse, .inl ⟨List.cons_ne_nil _ _, after.reverse, ?_, ?_⟩⟩
      · rwa [List.mem_reverse]
      · rw [← rest.reverse_reverse, hsplit, List.reverse_append, List.reverse_cons]
        simp
    · exact ⟨c :: rest, .inr ⟨hdot, rfl⟩⟩

theorem splitExtension_of_dot {stem extension : Bytes} (hstem : stem ≠ [])
    (hdot : Ascii.dot ∉ extension) :
    splitExtension (stem ++ Ascii.dot :: extension) = (stem, some extension) := by
  obtain ⟨before, last, rfl⟩ := (List.eq_nil_or_concat stem).resolve_left hstem
  have plain : ∀ b ∈ extension.reverse, (b != Ascii.dot) = true := fun b hb =>
    bne_iff_ne.mpr (ne_of_mem_of_not_mem (List.mem_reverse.mp hb) hdot)
  have backwards : (before.concat last ++ Ascii.dot :: extension).reverse
      = extension.reverse ++ Ascii.dot :: last :: before.reverse := by simp
  have extension' : (Ascii.dot :: last :: before.reverse).takeWhile (· != Ascii.dot) = [] := rfl
  have stem' : (Ascii.dot :: last :: before.reverse).dropWhile (· != Ascii.dot)
      = Ascii.dot :: last :: before.reverse := rfl
  rw [splitExtension, backwards, List.takeWhile_append_of_pos plain,
    List.dropWhile_append_of_pos plain, extension', stem', List.append_nil, List.reverse_reverse]
  simp

theorem splitExtension_of_no_dot {name : Bytes} (h : Ascii.dot ∉ name.tail) :
    splitExtension name = (name, none) := by
  rcases name with _ | ⟨c, rest⟩
  · rfl
  · have plain : ∀ b ∈ rest.reverse, (b != Ascii.dot) = true := fun b hb =>
      bne_iff_ne.mpr (ne_of_mem_of_not_mem (List.mem_reverse.mp hb) h)
    rw [splitExtension, List.reverse_cons, List.dropWhile_append_of_pos plain]
    by_cases hc : c = Ascii.dot
    · simp [hc]
    · simp [hc]

theorem IsStem.isPrefix {name stem : Bytes} (h : IsStem name stem) : stem <+: name := by
  rcases h with ⟨-, extension, -, rfl⟩ | ⟨-, rfl⟩
  · exact List.prefix_append _ _
  · exact List.prefix_rfl

theorem IsStem.splitExtension_eq {name stem : Bytes} (h : IsStem name stem) :
    (splitExtension name).1 = stem := by
  rcases h with ⟨hstem, extension, hdot, rfl⟩ | ⟨hdot, rfl⟩
  · rw [splitExtension_of_dot hstem hdot]
  · rw [splitExtension_of_no_dot hdot]

/-! ## Changing the extension -/

/-- The text is `..` and then some, without another dot. Without its extension it is `..`. -/
def ParentLike (name : Bytes) : Prop :=
  ∃ rest, rest ≠ [] ∧ Ascii.dot ∉ rest ∧ name = parentName ++ rest

/-- The beginning of parts that are passed over is parts that are passed over. -/
theorem take_trailingText {back : List Bytes} (h : ∀ part ∈ back, Idle part) (count : Nat) :
    ∃ kept : List Bytes, (∀ part ∈ kept, Idle part)
      ∧ (trailingText back).take count = trailingText kept := by
  induction back generalizing count with
  | nil => exact ⟨[], passed_nil, List.take_nil⟩
  | cons part back ih =>
    obtain ⟨hpart, hback⟩ := List.forall_mem_cons.mp h
    have text : trailingText (part :: back) = Ascii.slash :: (part ++ trailingText back) := rfl
    rcases count with _ | count
    · exact ⟨[], passed_nil, rfl⟩
    · rw [text, List.take_succ_cons]
      rcases hpart with rfl | rfl
      · obtain ⟨kept, hkept, htext⟩ := ih hback count
        refine ⟨[] :: kept, List.forall_mem_cons.mpr ⟨.inl rfl, hkept⟩, ?_⟩
        rw [List.nil_append, htext]
        rfl
      · rcases count with _ | count
        · exact ⟨[[]], List.forall_mem_cons.mpr ⟨.inl rfl, passed_nil⟩, rfl⟩
        · obtain ⟨kept, hkept, htext⟩ := ih hback count
          refine ⟨[Ascii.dot] :: kept, List.forall_mem_cons.mpr ⟨.inr rfl, hkept⟩, ?_⟩
          rw [List.singleton_append, List.take_succ_cons, htext]
          rfl

theorem withExtension_of_unnamed {p : Path} (h : p.splitName? = none) (extension : Bytes) :
    p.withExtension extension = p := by
  have whole : p.take (p.length - (p.extension?.getD []).length) = p := by
    rw [extension?, h]
    exact List.take_length
  rw [withExtension, whole, setExtension, h]

/-- An extension is set behind the stem of the final name. -/
theorem setExtension_text (front : List Bytes) {name stem : Bytes} {back : List Bytes}
    (named : ¬ Idle name) (hslash : Ascii.slash ∉ name) (hback : ∀ part ∈ back, Idle part)
    (hparent : name ≠ parentName) (hstem : IsStem name stem) (extension : Bytes) :
    setExtension (leadingText front ++ name ++ trailingText back) extension
      = leadingText front ++ stem ++ if extension = [] then [] else Ascii.dot :: extension := by
  rw [setExtension, splitName?_text front named hslash hback, if_neg hparent]
  show _ ++ (splitExtension name).1 ++ _ = _
  rw [hstem.splitExtension_eq]

section Final

variable {p : Path} {front back : List Bytes} {name stem : Bytes}

theorem FinalName.splitName?_eq (final : FinalName p front name back) :
    p.splitName? = if name = parentName then none else some (leadingText front, name) := by
  rw [← splitName?_text front final.named final.slash_not_mem final.passed, ← final.text]

theorem FinalName.extension?_eq (final : FinalName p front name back) (h : name ≠ parentName) :
    p.extension? = (splitExtension name).2 := by
  rw [extension?, final.splitName?_eq, if_neg h]
  rfl

theorem not_idle_of_dot {stem : Bytes} (hstem : stem ≠ []) (rest : Bytes) :
    ¬ Idle (stem ++ Ascii.dot :: rest) := by
  obtain ⟨c, stem, rfl⟩ := List.exists_cons_of_ne_nil hstem
  rintro (h | h) <;> simp at h

/-- The cut takes off the length of the old extension, and leaves the length of what stands
behind the final name. -/
theorem FinalName.cut {old : Bytes} (final : FinalName p front (stem ++ Ascii.dot :: old) back)
    (hstem : stem ≠ []) (hold : Ascii.dot ∉ old) (hparent : stem ++ Ascii.dot :: old ≠ parentName) :
    p.take (p.length - (p.extension?.getD []).length) = leadingText front
      ++ (stem ++ Ascii.dot :: (old ++ trailingText back).take (trailingText back).length) := by
  have found := final.extension?_eq hparent
  rw [splitExtension_of_dot hstem hold] at found
  have text : p = leadingText front ++ stem ++ [Ascii.dot] ++ (old ++ trailingText back) := by
    rw [final.text]
    simp only [List.append_assoc, List.cons_append, List.nil_append]
  have left : p.length - old.length
      = (leadingText front ++ stem ++ [Ascii.dot]).length + (trailingText back).length := by
    rw [text]
    simp only [List.length_append]
    omega
  rw [found, Option.getD_some, left, text, List.take_length_add_append]
  simp only [List.append_assoc, List.cons_append, List.nil_append]

/-- The cut leaves `..` only of a name that is like it, and that ends the path. -/
theorem parentLike_of_cut {old : Bytes} (hstem : stem ≠ []) (hold : Ascii.dot ∉ old)
    (hshort : (trailingText back).length < old.length)
    (hlike : stem ++ Ascii.dot :: old.take (trailingText back).length = parentName) :
    back = [] ∧ ParentLike (stem ++ Ascii.dot :: old) := by
  have lengths := congrArg List.length hlike
  have positive := List.length_pos_iff.mpr hstem
  rw [List.length_append, List.length_cons, List.length_take_of_le (Nat.le_of_lt hshort)] at lengths
  change _ = 2 at lengths
  constructor
  · rcases back with _ | ⟨part, back⟩
    · rfl
    · change stem.length + ((part ++ trailingText back).length + 1 + 1) = 2 at lengths
      omega
  · obtain ⟨c, rfl⟩ := List.length_eq_one_iff.mp (by omega : stem.length = 1)
    obtain ⟨rfl, -⟩ := List.cons.inj hlike
    exact ⟨old, List.ne_nil_of_length_pos (by omega), hold, rfl⟩

/-- **The output path keeps directory and stem**, whatever the cut has removed of the old
extension and of what stands behind it. -/
theorem withExtension_eq (final : FinalName p front name back) (hparent : name ≠ parentName)
    (hstem : IsStem name stem) (hcut : ¬ (back = [] ∧ ParentLike name)) (extension : Bytes) :
    p.withExtension extension
      = leadingText front ++ stem ++ if extension = [] then [] else Ascii.dot :: extension := by
  have hslash := final.slash_not_mem
  rcases hstem with ⟨hsome, old, hold, rfl⟩ | ⟨hdot, rfl⟩
  · have stands : ∀ rest, Ascii.dot ∉ rest → IsStem (stem ++ Ascii.dot :: rest) stem :=
      fun rest hrest => .inl ⟨hsome, rest, hrest, rfl⟩
    rw [withExtension, final.cut hsome hold hparent]
    rcases Nat.lt_or_ge (trailingText back).length old.length with hshort | hlong
    · -- all that stands behind the final name goes, and an end of its extension
      have beginning := List.take_sublist (trailingText back).length old
      have named := not_idle_of_dot hsome (old.take (trailingText back).length)
      have unslashed : Ascii.slash ∉ stem ++ Ascii.dot :: old.take (trailingText back).length :=
        fun hmem => hslash (((beginning.cons_cons Ascii.dot).append_left stem).subset hmem)
      have unlike : stem ++ Ascii.dot :: old.take (trailingText back).length ≠ parentName :=
        fun hlike => hcut (parentLike_of_cut hsome hold hshort hlike)
      have set := setExtension_text front named unslashed passed_nil unlike
        (stands _ fun hmem => hold (beginning.subset hmem)) extension
      rw [List.take_append_of_le_length (Nat.le_of_lt hshort), ← set, trailingText_nil,
        List.append_nil]
    · -- only parts that are passed over go
      obtain ⟨kept, hkept, htext⟩ :=
        take_trailingText final.passed ((trailingText back).length - old.length)
      have set := setExtension_text front final.named hslash hkept hparent (stands old hold)
        extension
      rw [List.take_append, List.take_of_length_le hlong, htext, ← set]
      simp only [List.append_assoc, List.cons_append]
  · have whole : p.take (p.length - (p.extension?.getD []).length) = p := by
      rw [final.extension?_eq hparent, splitExtension_of_no_dot hdot]
      exact List.take_length
    rw [withExtension, whole, ← setExtension_text front final.named hslash final.passed hparent
      (.inr ⟨hdot, rfl⟩), ← final.text]

/-- A name that is `..` without its extension is left like that, and no extension is set. -/
theorem withExtension_parentLike {rest : Bytes} (final : FinalName p front (parentName ++ rest) [])
    (hsome : rest ≠ []) (hdot : Ascii.dot ∉ rest) (extension : Bytes) :
    p.withExtension extension = leadingText front ++ parentName := by
  have final' : FinalName p front ([Ascii.dot] ++ Ascii.dot :: rest) [] := final
  have differs : [Ascii.dot] ++ Ascii.dot :: rest ≠ parentName := by
    intro h
    exact hsome (List.cons.inj (List.cons.inj h).2).2
  have parent : splitName? (leadingText front ++ parentName) = none := by
    have named : ¬ Idle parentName := by decide
    have split := splitName?_text front named (by decide) passed_nil
    rwa [if_pos rfl, trailingText_nil, List.append_nil] at split
  rw [withExtension, final'.cut (List.cons_ne_nil _ _) hdot differs]
  show setExtension (leadingText front ++ parentName) extension = _
  rw [setExtension, parent]

end Final

/-! ## Output paths -/

/-- **The output path of an input** is, for an extension without a slash in it, the text of the
input path up to the end of the stem of its final name, with the extension behind; the dots in
front of an extension do not count, and an empty one takes its dot with it. An input path
without a final name, or with the final name `..`, is left as it is. One that ends in a name
which is `..` and then some, without another dot, only loses what follows the `..`. -/
theorem outputPath_keeps_directory_and_stem (p : Path) {extension : String}
    (hslash : '/' ∉ (trimDots extension).toList) :
    let e := utf8 (trimDots extension)
    ((∀ part ∈ p.splitOn Ascii.slash, Idle part) → p.outputPath? extension = some p)
    ∧ (∀ front back, FinalName p front parentName back → p.outputPath? extension = some p)
    ∧ (∀ front name back stem, FinalName p front name back → name ≠ parentName →
        IsStem name stem → ¬ (back = [] ∧ ParentLike name) →
        ∃ rest, p = (leadingText front ++ stem) ++ rest ∧ p.outputPath? extension
          = some (leadingText front ++ stem ++ if e = [] then [] else Ascii.dot :: e))
    ∧ (∀ front name, FinalName p front name [] → ParentLike name →
        ∃ kept rest, p = kept ++ rest ∧ name = parentName ++ rest
          ∧ p.outputPath? extension = some kept)
    ∧ ((∀ part ∈ p.splitOn Ascii.slash, Idle part)
        ∨ ∃ front name back stem, FinalName p front name back ∧ IsStem name stem) := by
  intro e
  have made : p.outputPath? extension = some (p.withExtension e) := by
    rw [outputPath?, if_neg]
    exact fun hmem => hslash ((ascii_mem_utf8 (c := '/') (by decide) _).mp hmem)
  rw [made]
  refine ⟨?unnamed, ?parent, ?named, ?parentLike, ?all⟩
  case unnamed =>
    intro hidle
    rw [withExtension_of_unnamed (splitName?_of_idle hidle)]
  case parent =>
    intro front back final
    rw [withExtension_of_unnamed]
    rw [final.splitName?_eq, if_pos rfl]
  case named =>
    intro front name back stem final hparent hstem hcut
    obtain ⟨rest, hname⟩ := hstem.isPrefix
    refine ⟨rest ++ trailingText back, ?_, by rw [withExtension_eq final hparent hstem hcut]⟩
    rw [final.text, ← hname]
    simp only [List.append_assoc]
  case parentLike =>
    rintro front name final ⟨rest, hsome, hdot, rfl⟩
    refine ⟨leadingText front ++ parentName, rest, ?_, rfl, ?_⟩
    · rw [final.text, trailingText_nil, List.append_nil, List.append_assoc]
    · rw [withExtension_parentLike final hsome hdot]
  case all =>
    refine (idle_or_finalName p).imp_right ?_
    rintro ⟨front, name, back, final⟩
    obtain ⟨stem, hstem⟩ := exists_stem name
    exact ⟨front, name, back, stem, final, hstem⟩

/-- The slash and the dot behind a name are cut off as if they were its extension. -/
theorem outputPath_behind_slash :
    '/' ∉ (trimDots ".h").toList
    ∧ outputPath? (utf8 "d.x/a.tar.json/.") ".h" = some (utf8 "d.x/a.tar.h") := by
  have hslash : '/' ∉ (trimDots ".h").toList := by decide +kernel
  have final : FinalName (utf8 "d.x/a.tar.json/.") [utf8 "d.x"] (utf8 "a.tar.json") [utf8 "."] :=
    ⟨by decide +kernel, by decide +kernel, by decide +kernel⟩
  have stem : IsStem (utf8 "a.tar.json") (utf8 "a.tar") :=
    .inl ⟨by decide +kernel, utf8 "json", by decide +kernel, by decide +kernel⟩
  obtain ⟨-, -, named, -⟩ :=
    outputPath_keeps_directory_and_stem (utf8 "d.x/a.tar.json/.") hslash
  obtain ⟨-, -, path⟩ := named _ _ _ _ final (by decide +kernel) stem fun h =>
    absurd h.1 (List.cons_ne_nil _ _)
  refine ⟨hslash, path.trans ?_⟩
  decide +kernel

end Path

end DataInlay
