/-
# DataInlay.Declaration.Layout — how an array declaration is written

The declaration of an array is its header, one literal for each byte with a
separator between any two, and the closing. A literal is `0x` and two lowercase
hexadecimal digits. Between two literals stand a comma and a space; with a wrap
width, the space behind each full row of literals becomes a line feed.

`layout` states this for data that is given at once; the declaration of some data
ends in one more literal, a line feed (`declaration`).
-/
import DataInlay.Bytes

namespace DataInlay

/-- How many literals a row of the array holds. -/
abbrev Width := { n : Nat // 0 < n }

namespace Width

/-- The width that a count stands for; zero stands for none. -/
def ofNat? (n : Nat) : Option Width := if h : 0 < n then some ⟨n, h⟩ else none

end Width

/-- A lowercase hexadecimal digit, for values below sixteen. -/
def hexDigit (value : Nat) : UInt8 :=
  if value < 10 then UInt8.ofNat (0x30 + value) else UInt8.ofNat (0x57 + value)

/-- The literal of a byte: `0x` and its two hexadecimal digits, high half first. -/
def literal (b : UInt8) : Bytes :=
  [0x30, 0x78, hexDigit (b.toNat / 16), hexDigit (b.toNat % 16)]

/-- What stands between two literals of a row. -/
def rowSeparator : Bytes := utf8 ", "

/-- What stands between two rows of literals. -/
def wrapSeparator : Bytes := utf8 ",\n"

/-- What comes before a literal when `written` literals precede it. -/
def separator (width : Option Width) (written : Nat) : Bytes :=
  if written = 0 then []
  else match width with
    | none => rowSeparator
    | some w => if written % w.val = 0 then wrapSeparator else rowSeparator

/-- The byte that ends every array. -/
def trailingByte : UInt8 := Ascii.lineFeed

/-- The pieces of the header, in the order in which they are handed to a sink. -/
def headerPieces (symbol : String) : List Bytes :=
  [utf8 "static const char ", utf8 symbol, utf8 "[] = \x7b"]

/-- The header of the declaration, up to the brace; the symbol is used verbatim. -/
def header (symbol : String) : Bytes := (headerPieces symbol).flatten

/-- What follows the last literal. -/
def closing : Bytes := utf8 "\x7d;\n"

/-- The separated literals of some data when `written` literals precede it. -/
def layout (width : Option Width) (written : Nat) (data : Bytes) : Bytes :=
  (data.zipIdx written).flatMap fun entry => separator width entry.2 ++ literal entry.1

/-- The whole declaration of some data, which ends in the trailing byte. -/
def declaration (symbol : String) (width : Option Width) (data : Bytes) : Bytes :=
  header symbol ++ layout width 0 (data ++ [trailingByte]) ++ closing

/-- Nothing stands before the first literal, and one of the two separators before any other. -/
theorem separator_cases (width : Option Width) (written : Nat) :
    written = 0 ∧ separator width written = []
      ∨ written ≠ 0 ∧ (separator width written = rowSeparator
        ∨ separator width written = wrapSeparator) := by
  unfold separator
  split
  · next hfirst => exact .inl ⟨hfirst, rfl⟩
  · next hlater =>
    refine .inr ⟨hlater, ?_⟩
    split
    · exact .inl rfl
    · split
      · exact .inr rfl
      · exact .inl rfl

/-- What holds of the digits and of the `x` between them holds of all bytes of a literal. -/
theorem forall_mem_literal {P : UInt8 → Prop} (digits : ∀ value < 16, P (hexDigit value))
    (x : P 0x78) (b : UInt8) : ∀ c ∈ literal b, P c := by
  have small := b.toNat_lt
  have zero : P 0x30 := digits 0 (by decide)
  have high := digits (b.toNat / 16) (by omega)
  have low := digits (b.toNat % 16) (Nat.mod_lt _ (by decide))
  intro c hc
  simp only [literal, List.mem_cons, List.not_mem_nil, or_false] at hc
  rcases hc with rfl | rfl | rfl | rfl
  · exact zero
  · exact x
  · exact high
  · exact low

@[simp] theorem layout_nil (width : Option Width) (written : Nat) : layout width written [] = [] :=
  rfl

theorem layout_cons (width : Option Width) (written : Nat) (b : UInt8) (data : Bytes) :
    layout width written (b :: data) =
      separator width written ++ literal b ++ layout width (written + 1) data := by
  simp [layout]

/-- Laying out goes on where it stopped. -/
theorem layout_append (width : Option Width) (written : Nat) (a b : Bytes) :
    layout width written (a ++ b) =
      layout width written a ++ layout width (written + a.length) b := by
  simp [layout, List.zipIdx_append]

end DataInlay
