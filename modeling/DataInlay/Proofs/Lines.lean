/-
# DataInlay.Proofs.Lines — how an input falls into lines

An input either holds no line feed, and then is one open line or nothing at all, or
it starts with a line that a line feed ends and goes on with an input of its own
(`open_or_ended`). `lines_induction` is that case distinction as an induction; every
law about whole inputs in this library runs along it.

`firstLine` is what a reader takes next: the other lines are those of what it leaves
(`lines_eq_cons`). `dataOf` is what an input contributes to an array: what cleaning
leaves of each line, in order. `linesWithin` names the lines that a reader has whole
when it has only seen the first bytes of an input, and `whole_lines_take` says that
cutting the input first gives the same lines.
-/
import DataInlay.Stream.Source

namespace DataInlay

/-! ## Cutting at the first line feed -/

theorem linesFrom_eq (cut : List Bytes) (current input : Bytes) :
    linesFrom cut current input = cut.reverse ++ linesFrom [] current input := by
  induction input generalizing cut current with
  | nil => cases current <;> simp [linesFrom]
  | cons b rest ih =>
    simp only [linesFrom]
    split
    · rw [ih ((b :: current).reverse :: cut), ih [(b :: current).reverse]]
      simp
    · exact ih cut (b :: current)

/-- Bytes without a line feed extend the line under way. -/
theorem linesFrom_open (current : Bytes) {s : Bytes} (h : Ascii.lineFeed ∉ s) (rest : Bytes) :
    linesFrom [] current (s ++ rest) = linesFrom [] (s.reverse ++ current) rest := by
  induction s generalizing current with
  | nil => rfl
  | cons b s ih =>
    have hb : b ≠ Ascii.lineFeed := fun e => h (by simp [e])
    have hs : Ascii.lineFeed ∉ s := fun m => h (by simp [m])
    rw [List.cons_append, linesFrom, if_neg hb, ih _ hs]
    simp

@[simp] theorem lines_nil : lines [] = [] := rfl

/-- An input without a line feed is one line, unless it is empty. -/
theorem lines_open {s : Bytes} (h : Ascii.lineFeed ∉ s) : lines s = if s = [] then [] else [s] := by
  have := linesFrom_open [] h []
  rw [List.append_nil] at this
  rw [lines, this]
  cases s <;> simp [linesFrom]

/-- The first line feed ends the first line, and the lines go on behind it. -/
theorem lines_append_lineFeed {s : Bytes} (h : Ascii.lineFeed ∉ s) (rest : Bytes) :
    lines (s ++ Ascii.lineFeed :: rest) = (s ++ [Ascii.lineFeed]) :: lines rest := by
  rw [lines, linesFrom_open [] h, linesFrom, if_pos rfl, linesFrom_eq]
  simp [lines]

/-- An input is an open line, or starts with a line that is ended. -/
theorem open_or_ended (input : Bytes) :
    Ascii.lineFeed ∉ input
      ∨ ∃ s rest, Ascii.lineFeed ∉ s ∧ input = s ++ Ascii.lineFeed :: rest := by
  by_cases hfeed : Ascii.lineFeed ∈ input
  · obtain ⟨s, rest, heq, hs⟩ := List.eq_append_cons_of_mem hfeed
    exact .inr ⟨s, rest, hs, heq⟩
  · exact .inl hfeed

/-- Induction along the lines of an input. -/
theorem lines_induction {motive : Bytes → Prop}
    (unended : ∀ s, Ascii.lineFeed ∉ s → motive s)
    (line : ∀ s rest, Ascii.lineFeed ∉ s → motive rest → motive (s ++ Ascii.lineFeed :: rest))
    (input : Bytes) : motive input := by
  induction h : input.length using Nat.strongRecOn generalizing input with
  | _ n ih =>
    rcases open_or_ended input with hopen | ⟨s, rest, hs, rfl⟩
    · exact unended input hopen
    · refine line s rest hs (ih rest.length ?_ rest rfl)
      rw [← h, List.length_append, List.length_cons]
      omega

/-! ## The first line -/

/-- The first line of an input; only an empty input has an empty one. -/
def firstLine (input : Bytes) : Bytes := (lines input).headD []

theorem firstLine_open {s : Bytes} (h : Ascii.lineFeed ∉ s) : firstLine s = s := by
  rw [firstLine, lines_open h]
  split
  · next hs => rw [hs]; rfl
  · rfl

theorem firstLine_append_lineFeed {s : Bytes} (h : Ascii.lineFeed ∉ s) (rest : Bytes) :
    firstLine (s ++ Ascii.lineFeed :: rest) = s ++ [Ascii.lineFeed] := by
  rw [firstLine, lines_append_lineFeed h]
  rfl

/-- Bytes without a line feed belong to the line that comes behind them. -/
theorem firstLine_open_append {s : Bytes} (h : Ascii.lineFeed ∉ s) (rest : Bytes) :
    firstLine (s ++ rest) = s ++ firstLine rest := by
  have both {u : Bytes} (hu : Ascii.lineFeed ∉ u) : Ascii.lineFeed ∉ s ++ u :=
    fun m => (List.mem_append.mp m).elim h hu
  rcases open_or_ended rest with hopen | ⟨u, rest, hu, rfl⟩
  · rw [firstLine_open (both hopen), firstLine_open hopen]
  · rw [← List.append_assoc, firstLine_append_lineFeed (both hu), firstLine_append_lineFeed hu,
      List.append_assoc]

/-- What is left behind the first line has the other lines. -/
theorem lines_eq_cons {input : Bytes} (h : input ≠ []) :
    lines input = firstLine input :: lines (input.drop (firstLine input).length) := by
  rcases open_or_ended input with hopen | ⟨s, rest, hs, rfl⟩
  · rw [firstLine_open hopen, List.drop_length, lines_open hopen, if_neg h, lines_nil]
  · rw [firstLine_append_lineFeed hs, lines_append_lineFeed hs,
      List.append_cons s Ascii.lineFeed rest, List.drop_left]

theorem head?_lines_eq_some_iff {input line : Bytes} :
    (lines input).head? = some line ↔ input ≠ [] ∧ firstLine input = line := by
  by_cases hnil : input = []
  · subst hnil
    simp
  · rw [lines_eq_cons hnil, List.head?_cons, Option.some_inj]
    exact (and_iff_right hnil).symm

theorem firstLine_eq_nil {input : Bytes} : firstLine input = [] ↔ input = [] := by
  constructor
  · intro h
    rcases open_or_ended input with hopen | ⟨s, rest, hs, rfl⟩
    · rwa [firstLine_open hopen] at h
    · rw [firstLine_append_lineFeed hs] at h
      exact absurd h (by simp)
  · rintro rfl
    rfl

theorem firstLine_isPrefix (input : Bytes) : firstLine input <+: input := by
  rcases open_or_ended input with hopen | ⟨s, rest, hs, rfl⟩
  · exact (firstLine_open hopen).symm ▸ List.prefix_rfl
  · rw [firstLine_append_lineFeed hs, List.append_cons s Ascii.lineFeed rest]
    exact List.prefix_append _ rest

/-- No line is empty, so there are at most as many as bytes. -/
theorem length_lines_le (input : Bytes) : (lines input).length ≤ input.length := by
  induction input using lines_induction with
  | unended s hs =>
    rw [lines_open hs]
    split
    · exact Nat.zero_le _
    · next hne => exact List.length_pos_iff.mpr hne
  | line s rest hs ih =>
    rw [lines_append_lineFeed hs, List.length_cons, List.length_append, List.length_cons]
    omega

/-- Behind the first few lines, the others are left. -/
theorem lines_drop {input : Bytes} {first others : List Bytes} (h : lines input = first ++ others) :
    lines (input.drop first.flatten.length) = others := by
  induction first generalizing input with
  | nil => exact h
  | cons line first ih =>
    have hne : input ≠ [] := by
      rintro rfl
      exact absurd h (by simp)
    rw [lines_eq_cons hne, List.cons_append, List.cons.injEq] at h
    rcases h with ⟨hline, hrest⟩
    rw [hline] at hrest
    rw [List.flatten_cons, List.length_append, ← List.drop_drop]
    exact ih hrest

/-! ## What an input contributes -/

/-- The data of an input: what cleaning leaves of its lines, in order. -/
def dataOf (input : Bytes) : Bytes := (lines input).flatMap cleanLine

theorem dataOf_append_lineFeed {s : Bytes} (h : Ascii.lineFeed ∉ s) (rest : Bytes) :
    dataOf (s ++ Ascii.lineFeed :: rest) = cleanLine (s ++ [Ascii.lineFeed]) ++ dataOf rest := by
  simp [dataOf, lines_append_lineFeed h]

theorem dataOf_open {s : Bytes} (h : Ascii.lineFeed ∉ s) : dataOf s = cleanLine s := by
  rw [dataOf, lines_open h]
  split
  · next hs => simp [hs, cleanLine, compact, compactFrom]
  · simp

/-! ## The lines within the first bytes -/

/-- The leading lines that end in a line feed and lie wholly within `count` bytes. -/
def linesWithin (count : Nat) : List Bytes → List Bytes
  | [] => []
  | line :: rest =>
    if Source.isWhole line ∧ line.length ≤ count then
      line :: linesWithin (count - line.length) rest
    else []

theorem linesWithin_isPrefix (count : Nat) (all : List Bytes) : linesWithin count all <+: all := by
  induction all generalizing count with
  | nil => exact List.nil_prefix
  | cons line rest ih =>
    rw [linesWithin]
    split
    · exact (List.prefix_cons_inj line).mpr (ih _)
    · exact List.nil_prefix

theorem isWhole_append_lineFeed (s : Bytes) : Source.isWhole (s ++ [Ascii.lineFeed]) = true := by
  simp [Source.isWhole]

theorem isWhole_of_not_mem {s : Bytes} (h : Ascii.lineFeed ∉ s) : Source.isWhole s = false := by
  simp only [Source.isWhole, decide_eq_false_iff_not]
  intro hlast
  exact h (List.mem_of_getLast? hlast)

theorem whole_lines_open {s : Bytes} (h : Ascii.lineFeed ∉ s) :
    (lines s).filter Source.isWhole = [] := by
  rw [lines_open h]
  split <;> simp [isWhole_of_not_mem h]

/-- A reader that is cut off after `count` bytes has exactly the lines of the whole
input that lie within those bytes. -/
theorem whole_lines_take (count : Nat) (input : Bytes) :
    (lines (input.take count)).filter Source.isWhole = linesWithin count (lines input) := by
  induction input using lines_induction generalizing count with
  | unended s hs =>
    rw [whole_lines_open (fun m => hs (List.mem_of_mem_take m)), lines_open hs]
    split <;> simp [linesWithin, isWhole_of_not_mem hs]
  | line s rest hs ih =>
    rw [lines_append_lineFeed hs, linesWithin]
    by_cases hcount : (s ++ [Ascii.lineFeed]).length ≤ count
    · rw [if_pos ⟨isWhole_append_lineFeed s, hcount⟩, ← ih, List.append_cons,
        List.take_append, List.take_of_length_le hcount, List.append_assoc, List.singleton_append,
        lines_append_lineFeed hs, List.filter_cons_of_pos (isWhole_append_lineFeed s)]
    · rw [if_neg (fun both => hcount both.2)]
      -- the cut falls into this line, and takes its line feed away
      have hshort : count ≤ s.length := by
        rw [List.length_append, List.length_singleton] at hcount
        omega
      rw [List.take_append_of_le_length hshort]
      exact whole_lines_open (fun m => hs (List.mem_of_mem_take m))

end DataInlay
