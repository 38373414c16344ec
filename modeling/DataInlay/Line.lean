/-
# DataInlay.Line — the lines of an input, and what is left of one

An input is cut behind each line feed, and a last line without one counts as a
line too. Cleaning strips the comments of a line and then compacts it; each line
is cleaned on its own, so no quote and no comment reaches past a line feed.
-/
import DataInlay.Comment.Strip
import DataInlay.Whitespace

namespace DataInlay

/-- The lines of an input, behind those already cut off and the bytes of the line
under way; both come last first. -/
def linesFrom (cut : List Bytes) (current : Bytes) : Bytes → List Bytes
  | [] => (if current.isEmpty then cut else current.reverse :: cut).reverse
  | b :: rest =>
    if b = Ascii.lineFeed then linesFrom ((b :: current).reverse :: cut) [] rest
    else linesFrom cut (b :: current) rest

/-- The lines of an input, each with the line feed that ends it. -/
def lines (input : Bytes) : List Bytes := linesFrom [] [] input

theorem linesFrom_flatten (cut : List Bytes) (current input : Bytes) :
    (linesFrom cut current input).flatten = cut.reverse.flatten ++ current.reverse ++ input := by
  induction input generalizing cut current with
  | nil => cases current <;> simp [linesFrom]
  | cons b rest ih =>
    simp only [linesFrom]
    split <;> simp [ih]

/-- Cutting into lines loses nothing. -/
theorem lines_flatten (input : Bytes) : (lines input).flatten = input := by
  simp [lines, linesFrom_flatten]

/-- What a line contributes: its bytes without comments, and without blanks
outside double quotes. -/
def cleanLine (line : Bytes) : Bytes := compact (strip line)

/-- Compaction drops no quote of either kind. -/
theorem isBlank_quote (q : Quote) : isBlank q.byte = false := by
  cases q <;> rfl

/-- Cleaning never adds a byte, and keeps the order of those it leaves. -/
theorem cleanLine_sublist (line : Bytes) : (cleanLine line).Sublist line :=
  (compact_sublist _).trans (strip_sublist line)

end DataInlay
