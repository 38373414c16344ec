/-
# DataInlay.Whitespace — blanks outside double quotes are dropped

Compaction removes the blanks that have an even number of double quotes before
them and keeps every other byte. It counts double quotes and nothing else: a
single quote protects nothing here, and a double quote flips the parity wherever
it stands.
-/
import DataInlay.Bytes

namespace DataInlay

/-- The six blanks: space, tab, line feed, carriage return, vertical tab and form feed. -/
def isBlank (b : UInt8) : Bool :=
  b = 0x20 || b = 0x09 || b = Ascii.lineFeed || b = 0x0d || b = 0x0b || b = 0x0c

/-- The quote that protects blanks. -/
def compactQuote : UInt8 := Ascii.doubleQuote

/-- Compacts the rest of a line. `inside` says that an odd number of quotes came
before it; the bytes kept so far come last first. -/
def compactFrom (inside : Bool) (kept : Bytes) : Bytes → Bytes
  | [] => kept.reverse
  | b :: rest =>
    if b = compactQuote then compactFrom (!inside) (b :: kept) rest
    else if isBlank b && !inside then compactFrom inside kept rest
    else compactFrom inside (b :: kept) rest

/-- The line without the blanks that stand outside double quotes. -/
def compact (line : Bytes) : Bytes := compactFrom false [] line

theorem compactFrom_eq (inside : Bool) (kept line : Bytes) :
    compactFrom inside kept line = kept.reverse ++ compactFrom inside [] line := by
  have general : ∀ (line : Bytes) (inside : Bool) (kept : Bytes),
      compactFrom inside kept line = kept.reverse ++ compactFrom inside [] line := by
    intro line
    induction line with
    | nil => simp [compactFrom]
    | cons b rest ih =>
      intro inside kept
      simp only [compactFrom]
      split
      · rw [ih _ (b :: kept), ih _ [b]]; simp
      · split
        · exact ih _ _
        · rw [ih _ (b :: kept), ih _ [b]]; simp
  exact general line inside kept

theorem compactFrom_sublist (inside : Bool) (line : Bytes) :
    (compactFrom inside [] line).Sublist line := by
  induction line generalizing inside with
  | nil => simp [compactFrom]
  | cons b rest ih =>
    simp only [compactFrom]
    split
    · rw [compactFrom_eq]; simpa using ih _
    · split
      · exact (ih _).trans (List.sublist_cons_self b rest)
      · rw [compactFrom_eq]; simpa using ih _

/-- Compaction never adds a byte, and keeps the order of those it leaves. -/
theorem compact_sublist (line : Bytes) : (compact line).Sublist line :=
  compactFrom_sublist false line

end DataInlay
