/-
# DataInlay.Proofs.LineFeeds — the line feeds of an array

Every array ends in the literal of a line feed, which the conversion puts there. Other line
feeds are data: a line has one at most, as its last byte, and keeps it when it is `Sticky`. So
the literals of line feeds can be counted by lines, and an array ends in two of them when the
last line that leaves anything is sticky (`lineFeeds_of_array`).

For the same reason a line feed put behind an input is not always without effect. It is data
when the last line has none yet and would keep it (`AwaitsLineFeed`).
-/
import DataInlay.Proofs.ContinuedLine
import DataInlay.Proofs.LineLocality

namespace DataInlay

/-! ## Lines that keep their line feed -/

/-- The line ends in a line feed that is data: no comment takes it in, and the line without its
comments holds an odd number of double quotes. -/
def Sticky (line : Bytes) : Prop := line.getLast? = some Ascii.lineFeed ∧ KeepsBlanks line

instance (line : Bytes) : Decidable (Sticky line) := inferInstanceAs (Decidable (_ ∧ _))

theorem isBlank_lineFeed : ∀ b ∈ [Ascii.lineFeed], isBlank b = true :=
  List.forall_mem_singleton.mpr rfl

theorem sticky_concat_iff {s : Bytes} : Sticky (s ++ [Ascii.lineFeed]) ↔ KeepsBlanks s := by
  rw [Sticky, List.getLast?_concat, keepsBlanks_append_blanks isBlank_lineFeed]
  exact and_iff_right rfl

/-- A line has its line feed at the end, or none. -/
theorem isEndedLine_or_open {line input : Bytes} (h : line ∈ lines input) :
    IsEndedLine line ∨ Ascii.lineFeed ∉ line := by
  induction input using lines_induction with
  | unended s hs =>
    rw [lines_open hs] at h
    split at h
    · cases h
    · rw [List.mem_singleton.mp h]
      exact .inr hs
  | line s rest hs ih =>
    rw [lines_append_lineFeed hs, List.mem_cons] at h
    rcases h with rfl | h
    · exact .inl ⟨s, hs, rfl⟩
    · exact ih h

theorem lineFeed_not_mem_cleanLine {s : Bytes} (h : Ascii.lineFeed ∉ s) :
    Ascii.lineFeed ∉ cleanLine s :=
  fun hmem => h ((cleanLine_sublist s).subset hmem)

/-- What cleaning leaves of a line has a line feed only if the line is sticky, and then as its
last byte. -/
theorem exists_cleanLine_eq {line input : Bytes} (h : line ∈ lines input) :
    ∃ kept, Ascii.lineFeed ∉ kept
      ∧ cleanLine line = kept ++ if Sticky line then [Ascii.lineFeed] else [] := by
  rcases isEndedLine_or_open h with ⟨s, hs, rfl⟩ | hopen
  · refine ⟨cleanLine s, lineFeed_not_mem_cleanLine hs, ?_⟩
    rw [cleanLine_append_blanks isBlank_lineFeed]
    simp only [sticky_concat_iff]
  · have hsticky : ¬ Sticky line := fun hsticky => hopen (List.mem_of_getLast? hsticky.1)
    refine ⟨cleanLine line, lineFeed_not_mem_cleanLine hopen, ?_⟩
    rw [if_neg hsticky, List.append_nil]

theorem cleanLine_getLast?_iff {line input : Bytes} (h : line ∈ lines input) :
    (cleanLine line).getLast? = some Ascii.lineFeed ↔ Sticky line := by
  obtain ⟨kept, hkept, hclean⟩ := exists_cleanLine_eq h
  rw [hclean]
  split
  · next hsticky => exact iff_of_true List.getLast?_concat hsticky
  · next hsticky =>
    rw [List.append_nil]
    exact iff_of_false (fun hlast => hkept (List.mem_of_getLast? hlast)) hsticky

/-- It is enough that the last byte is looked at. -/
theorem lineFeed_mem_cleanLine_iff {line input : Bytes} (h : line ∈ lines input) :
    Ascii.lineFeed ∈ cleanLine line ↔ (cleanLine line).getLast? = some Ascii.lineFeed := by
  refine ⟨fun hmem => ?_, List.mem_of_getLast?⟩
  obtain ⟨kept, hkept, hclean⟩ := exists_cleanLine_eq h
  rw [hclean] at hmem ⊢
  split at hmem
  · next hsticky =>
    rw [if_pos hsticky]
    exact List.getLast?_concat
  · rw [List.append_nil] at hmem
    exact absurd hmem hkept

/-- One double quote is enough, if in single quotes, and a comment behind it takes the line feed
in. -/
example : Sticky (utf8 "'\"' 1\n") ∧ ¬ Sticky (utf8 "'\"' // 1\n") := by decide +kernel

/-! ## The line feeds among the data -/

theorem count_lineFeed_cleanLine {line input : Bytes} (h : line ∈ lines input) :
    (cleanLine line).count Ascii.lineFeed = if Sticky line then 1 else 0 := by
  obtain ⟨kept, hkept, hclean⟩ := exists_cleanLine_eq h
  rw [hclean, List.count_append, List.count_eq_zero_of_not_mem hkept, Nat.zero_add]
  split <;> rfl

/-- There is one for each sticky line. -/
theorem count_lineFeed_dataOf (input : Bytes) :
    (dataOf input).count Ascii.lineFeed = (lines input).countP (Sticky ·) := by
  have general : ∀ taken : List Bytes, (∀ line ∈ taken, line ∈ lines input) →
      (taken.flatMap cleanLine).count Ascii.lineFeed = taken.countP (Sticky ·) := by
    intro taken htaken
    induction taken with
    | nil => rfl
    | cons line taken ih =>
      obtain ⟨hline, htaken⟩ := List.forall_mem_cons.mp htaken
      rw [List.flatMap_cons, List.count_append, count_lineFeed_cleanLine hline, ih htaken,
        List.countP_cons, Nat.add_comm]
      simp only [decide_eq_true_eq]
  exact general (lines input) fun _ h => h

/-- The lines of an input that leave anything. -/
def emittedLines (input : Bytes) : List Bytes := (lines input).filter (cleanLine · ≠ [])

theorem dataOf_eq_emitted (input : Bytes) :
    dataOf input = (emittedLines input).flatMap cleanLine := by
  rw [dataOf, emittedLines]
  induction lines input with
  | nil => rfl
  | cons line taken ih =>
    by_cases hempty : cleanLine line = []
    · rw [List.flatMap_cons, hempty, ih, List.filter_cons_of_neg (by simpa using hempty)]
      rfl
    · rw [List.flatMap_cons, ih, List.filter_cons_of_pos (by simpa using hempty),
        List.flatMap_cons]

/-- The data end in a line feed when the last line that leaves anything is sticky. -/
theorem dataOf_getLast?_iff {input : Bytes} : (dataOf input).getLast? = some Ascii.lineFeed ↔
    ∃ line, (emittedLines input).getLast? = some line ∧ Sticky line := by
  rw [dataOf_eq_emitted]
  rcases List.eq_nil_or_concat (emittedLines input) with hnone | ⟨front, line, hemitted⟩
  · simp [hnone]
  · rw [List.concat_eq_append] at hemitted
    have hline : line ∈ emittedLines input := by
      rw [hemitted]
      exact List.mem_append_right _ List.mem_cons_self
    obtain ⟨hmem, hleaves⟩ := List.mem_filter.mp hline
    obtain ⟨b, hlast⟩ : ∃ b, (cleanLine line).getLast? = some b :=
      Option.ne_none_iff_exists'.mp fun hnone =>
        absurd (List.getLast?_eq_none_iff.mp hnone) (by simpa using hleaves)
    rw [hemitted, List.flatMap_append, List.flatMap_singleton, List.getLast?_append, hlast,
      List.getLast?_concat, Option.some_or, ← hlast, cleanLine_getLast?_iff hmem]
    simp

/-! ## A line feed behind the input -/

/-- The last line has no line feed, and would keep one. -/
def AwaitsLineFeed (input : Bytes) : Prop :=
  ∃ line, (lines input).getLast? = some line ∧ line ≠ [] ∧ Ascii.lineFeed ∉ line
    ∧ KeepsBlanks line

theorem not_keepsBlanks_nil : ¬ KeepsBlanks [] := by
  rw [KeepsBlanks, strip_nil]
  rintro ⟨-, hodd⟩
  exact absurd hodd (by decide)

theorem awaitsLineFeed_open {s : Bytes} (hs : Ascii.lineFeed ∉ s) :
    AwaitsLineFeed s ↔ KeepsBlanks s := by
  rw [AwaitsLineFeed, lines_open hs]
  split
  · next hnil => simp [hnil, not_keepsBlanks_nil]
  · next hne => simp [hne, hs]

theorem awaitsLineFeed_line {s : Bytes} (hs : Ascii.lineFeed ∉ s) (rest : Bytes) :
    AwaitsLineFeed (s ++ Ascii.lineFeed :: rest) ↔ AwaitsLineFeed rest := by
  rw [AwaitsLineFeed, AwaitsLineFeed, lines_append_lineFeed hs, List.getLast?_cons]
  cases (lines rest).getLast? with
  | none => simp
  | some line => rfl

/-- In that case, and only then, a line feed behind the input is data. -/
theorem dataOf_concat_lineFeed (input : Bytes) :
    (AwaitsLineFeed input → dataOf (input ++ [Ascii.lineFeed]) = dataOf input ++ [Ascii.lineFeed])
    ∧ (¬ AwaitsLineFeed input → dataOf (input ++ [Ascii.lineFeed]) = dataOf input) := by
  induction input using lines_induction with
  | unended s hs =>
    have ended : dataOf (s ++ [Ascii.lineFeed]) = cleanLine (s ++ [Ascii.lineFeed]) :=
      dataOf_of_isEndedLine ⟨s, hs, rfl⟩
    rw [awaitsLineFeed_open hs, ended, cleanLine_append_blanks isBlank_lineFeed, dataOf_open hs]
    constructor
    · intro hkeeps
      rw [if_pos hkeeps]
    · intro hkeeps
      rw [if_neg hkeeps, List.append_nil]
  | line s rest hs ih =>
    rw [awaitsLineFeed_line hs, List.append_assoc, List.cons_append, dataOf_append_lineFeed hs,
      dataOf_append_lineFeed hs]
    refine ⟨fun hawaits => ?_, fun hawaits => ?_⟩
    · rw [ih.1 hawaits, List.append_assoc]
    · rw [ih.2 hawaits]

/-! ## The line feeds of the array -/

/-- **Which literals of a line feed an array holds.** One for each sticky line, as the last byte
of what that line leaves, and one more at its end. So it ends in exactly one exactly when the
last line that leaves anything, if there is one, is not sticky. A line feed put behind the input
makes no difference to the declaration, unless the last line has none yet and would keep it; then
it is one more literal. -/
theorem lineFeeds_of_array (input : Bytes) (options : Options) :
    ∃ array, decode? options.symbol (writtenFor input options) = some array
      ∧ array = (lines input).flatMap cleanLine ++ [Ascii.lineFeed]
      ∧ array.count Ascii.lineFeed = 1 + (lines input).countP (Sticky ·)
      ∧ (∀ line ∈ lines input, ∃ kept, Ascii.lineFeed ∉ kept
          ∧ cleanLine line = kept ++ if Sticky line then [Ascii.lineFeed] else [])
      ∧ ([Ascii.lineFeed] <:+ array ∧ ¬ [Ascii.lineFeed, Ascii.lineFeed] <:+ array ↔
          ∀ line, (emittedLines input).getLast? = some line → ¬ Sticky line)
      ∧ (¬ AwaitsLineFeed input →
          writtenFor (input ++ [Ascii.lineFeed]) options = writtenFor input options)
      ∧ (AwaitsLineFeed input →
          decode? options.symbol (writtenFor (input ++ [Ascii.lineFeed]) options)
            = some (array ++ [Ascii.lineFeed])) := by
  obtain ⟨kept, dropped⟩ := dataOf_concat_lineFeed input
  refine ⟨dataOf input ++ [Ascii.lineFeed], decode?_writtenFor input options, rfl, ?count,
    fun line => exists_cleanLine_eq, ?ending, ?same, ?more⟩
  case count =>
    rw [List.count_append, count_lineFeed_dataOf, Nat.add_comm]
    rfl
  case ending =>
    have two : [Ascii.lineFeed, Ascii.lineFeed] <:+ dataOf input ++ [Ascii.lineFeed] ↔
        (dataOf input).getLast? = some Ascii.lineFeed := by
      rw [← List.singleton_suffix_iff_getLast?_eq_some]
      have split : [Ascii.lineFeed] ++ [Ascii.lineFeed] <:+ dataOf input ++ [Ascii.lineFeed] ↔
          [Ascii.lineFeed] <:+ dataOf input ∧ [Ascii.lineFeed] = [Ascii.lineFeed] :=
        List.suffix_append_inj_of_length_eq rfl
      rwa [and_iff_left rfl] at split
    rw [and_iff_right (List.suffix_append _ _), two, dataOf_getLast?_iff]
    simp only [not_exists, not_and]
  case same =>
    intro hawaits
    rw [writtenFor_eq, writtenFor_eq, dropped hawaits]
  case more =>
    intro hawaits
    rw [decode?_writtenFor, kept hawaits]
    rfl

end DataInlay
