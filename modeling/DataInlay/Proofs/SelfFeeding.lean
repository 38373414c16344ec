/-
# DataInlay.Proofs.SelfFeeding — files that feed on their own declaration

A conversion of a file onto itself reads what it writes. It writes six bytes for each byte of
data, and of these at most one is blank; the others are data again when they are read. What it
has written waits in the buffer for a while, but no more of it than a block. So once the text
is long enough, there is always more to read.

`SelfReads.none_of_plain` says so of plain text without blanks that is longer than a quarter of
a block: to read it has no end, and to convert it has none either
(`convertFile_endless_of_plain`).
-/
import DataInlay.Proofs.ContinuedLine
import DataInlay.Proofs.InPlace

namespace DataInlay

/-! ## What is written -/

/-- A literal and its separator have six bytes, but for the first. -/
theorem six_le_length_layout (width : Option Width) (written : Nat) (data : Bytes) :
    6 * data.length ≤ (layout width written data).length + if written = 0 then 2 else 0 := by
  induction data generalizing written with
  | nil => exact Nat.zero_le _
  | cons b data ih =>
    have rest := ih (written + 1)
    rw [if_neg (Nat.succ_ne_zero written)] at rest
    have between : (separator width written).length + (if written = 0 then 2 else 0) = 2 := by
      rcases separator_cases width written with ⟨hfirst, hnone⟩ | ⟨hlater, hrow | hwrap⟩
      · rw [hnone, if_pos hfirst]
        rfl
      · rw [hrow, if_neg hlater]
        rfl
      · rw [hwrap, if_neg hlater]
        rfl
    have four : (literal b).length = 4 := rfl
    rw [layout_cons, List.length_append, List.length_append, List.length_cons]
    omega

/-- And at most one of them is blank. -/
theorem blanks_layout_le (width : Option Width) (written : Nat) (data : Bytes) :
    (layout width written data).countP isBlank ≤ data.length := by
  induction data generalizing written with
  | nil => exact Nat.zero_le _
  | cons b data ih =>
    have rest := ih (written + 1)
    have one : (separator width written).countP isBlank ≤ 1 := by
      rcases separator_cases width written with ⟨-, hnone⟩ | ⟨-, hrow | hwrap⟩
      · rw [hnone]
        exact Nat.zero_le _
      · rw [hrow]
        decide +kernel
      · rw [hwrap]
        decide +kernel
    have none : (literal b).countP isBlank = 0 := by
      rw [List.countP_eq_zero]
      exact forall_mem_literal (by decide +kernel) (by decide) b
    rw [layout_cons, List.countP_append, List.countP_append, List.length_cons]
    omega

theorem layout_plain (width : Option Width) (written : Nat) (data : Bytes) :
    ∀ b ∈ layout width written data, IsPlain b := by
  have letters : ∀ b ∈ arrayLetters, IsPlain b := by decide +kernel
  exact fun b hb => letters b (layout_letters width written data b hb)

/-! ## What is read again -/

/-- Of plain lines, cleaning leaves what is not blank. -/
theorem flatMap_cleanLine_plain {taken : List Bytes} (h : ∀ b ∈ taken.flatten, IsPlain b) :
    taken.flatMap cleanLine = taken.flatten.filter (!isBlank ·) := by
  rw [List.filter_flatten, List.flatMap_def]
  congr 1
  apply List.map_congr_left
  exact fun line hline => cleanLine_plain fun b hb => h b (List.mem_flatten.mpr ⟨line, hline, hb⟩)

theorem length_filter_nonblank (s : Bytes) :
    (s.filter (!isBlank ·)).length + s.countP isBlank = s.length := by
  rw [← List.countP_eq_length_filter, Nat.add_comm, s.length_eq_countP_add_countP isBlank]
  simp

theorem storedBody_isPrefix_text (options : Options) (data : Bytes) :
    storedBody options data <+: header options.symbol ++ layout options.width 0 data := by
  have handed := (BlockBuffer.storeAll_spec (bodyPieces options data)).2.2
  rw [bodyPieces_flatten] at handed
  exact handed ▸ List.prefix_append _ _

/-- What is written of some data is stored, but for a block. -/
theorem six_le_length_storedBody (options : Options) (data : Bytes) :
    6 * data.length ≤ (storedBody options data).length + BlockBuffer.blockSize + 2 := by
  have written := six_le_length_layout options.width 0 data
  have stored := BlockBuffer.length_le_stored (bodyPieces options data)
  rw [bodyPieces_flatten, List.length_append] at stored
  rw [if_pos rfl] at written
  calc 6 * data.length ≤ (layout options.width 0 data).length + 2 := written
    _ ≤ (storedBody options data).length + BlockBuffer.blockSize + 2 :=
      Nat.add_le_add_right ((Nat.le_add_left _ _).trans stored) 2

section Reading

variable {options : Options} {first : Bytes} {taken : List Bytes}
  (hplain : ∀ b ∈ first, IsPlain b ∧ isBlank b = false)
  (hheader : (header options.symbol).length ≤ first.length)

include hheader in
/-- Behind a first block that is no shorter than the header, literals are met. -/
theorem met_behind_first (data : Bytes) :
    ((storedBody options data).drop first.length).Sublist (layout options.width 0 data) := by
  have behind := ((storedBody_isPrefix_text options data).drop first.length).sublist
  rw [List.drop_append, List.drop_eq_nil_of_le hheader, List.nil_append] at behind
  exact behind.trans (List.drop_sublist _ _)

include hplain hheader

/-- Of plain text that is read to its end, the first block is data, and so is at least half
of what has been stored. -/
theorem SelfReads.length_le_data (hreads : SelfReads options first [] taken) :
    first.length ≤ (taken.flatMap cleanLine).length
      ∧ (storedBody options (taken.flatMap cleanLine)).length
        ≤ 2 * (taken.flatMap cleanLine).length := by
  have met := hreads.flatten_eq List.nil_prefix
  rw [List.nil_append, fileMet] at met
  generalize hdata : taken.flatMap cleanLine = data at met
  have length : ((storedBody options data).drop first.length).length
      = (storedBody options data).length - first.length := List.length_drop
  have literals := met_behind_first hheader data
  generalize (storedBody options data).drop first.length = behind at met length literals
  have plain : ∀ b ∈ taken.flatten, IsPlain b := by
    intro b hb
    rw [met, List.mem_append] at hb
    rcases hb with hb | hb
    · exact (hplain b hb).1
    · exact layout_plain _ _ _ b (literals.subset hb)
  have full : first.countP isBlank = 0 := by
    rw [List.countP_eq_zero]
    intro b hb
    rw [(hplain b hb).2]
    exact Bool.false_ne_true
  -- the data are what is not blank, and there is a blank for each of them at most
  have kept : data.length + (first ++ behind).countP isBlank = (first ++ behind).length := by
    rw [← hdata, flatMap_cleanLine_plain plain, met]
    exact length_filter_nonblank _
  rw [List.countP_append, full, Nat.zero_add, List.length_append] at kept
  have within : behind.countP isBlank ≤ behind.length := List.countP_le_length
  have blanks : behind.countP isBlank ≤ data.length :=
    literals.countP_le.trans (blanks_layout_le options.width 0 data)
  omega

/-- **A reading without an end.** When the first block is plain text without blanks, and more
than a quarter of a block, there is always more to read. -/
theorem SelfReads.none_of_plain (hlong : BlockBuffer.blockSize < 4 * first.length) :
    ¬ ∃ taken, SelfReads options first [] taken := by
  rintro ⟨taken, hreads⟩
  obtain ⟨all, half⟩ := hreads.length_le_data hplain hheader
  have written := six_le_length_storedBody options (taken.flatMap cleanLine)
  rw [BlockBuffer.blockSize] at hlong written
  omega

end Reading

/-- **A conversion without an end.** A file of plain text without blanks, more than a quarter
of a block of it and no less than the header, is not converted onto itself: the conversion
goes on writing and reading what it has written. -/
theorem convertFile_endless_of_plain {t : FileTree} {input output : Path} {l : Location}
    {content : Bytes} {options : Options} (hinput : t.locate input = .ok l)
    (houtput : t.locate output = .ok l) (hfile : t.get? l = some (.file content))
    (hplain : ∀ b ∈ content.take BlockBuffer.blockSize, IsPlain b ∧ isBlank b = false)
    (hlong : BlockBuffer.blockSize < 4 * content.length)
    (hheader : (header options.symbol).length ≤ (content.take BlockBuffer.blockSize).length) :
    (convertFile t input output options).result = .endless := by
  rw [convertFile_in_place_endless_iff options hinput houtput hfile]
  apply SelfReads.none_of_plain hplain hheader
  rw [List.length_take]
  rw [BlockBuffer.blockSize] at hlong ⊢
  omega

end DataInlay
