/-
# DataInlay.Bytes — byte strings, their ASCII letters and their text

Everything this library reads and writes is a string of bytes, held as a list
so that definitions recurse on it directly. Text enters as UTF-8 (`utf8`) and
leaves in two ways: `text?` insists on well-formed UTF-8, `displayText` shows
any bytes at all and puts U+FFFD where they are ill-formed.

The two readings agree wherever the strict one succeeds (`displayText_of_text?`),
so a lossy display of something that was written as text loses nothing.
-/

namespace DataInlay

/-- A byte string. -/
abbrev Bytes := List UInt8

/-! ## The ASCII bytes that carry meaning -/

namespace Ascii

/-- The line feed, which ends a line. -/
@[match_pattern] abbrev lineFeed : UInt8 := 0x0a

/-- The double quote. -/
@[match_pattern] abbrev doubleQuote : UInt8 := 0x22

/-- The single quote. -/
@[match_pattern] abbrev singleQuote : UInt8 := 0x27

/-- The star of a block comment's delimiters. -/
@[match_pattern] abbrev star : UInt8 := 0x2a

/-- The full stop, which starts the extension of a file name. -/
@[match_pattern] abbrev dot : UInt8 := 0x2e

/-- The slash, of comment delimiters and between the names of a path. -/
@[match_pattern] abbrev slash : UInt8 := 0x2f

end Ascii

/-! ## Text as bytes -/

/-- The UTF-8 bytes of a text. -/
def utf8 (s : String) : Bytes := s.toUTF8.data.toList

/-- The text whose UTF-8 form the bytes are; none when they are ill-formed. -/
def text? (b : Bytes) : Option String := String.fromUTF8? ⟨b.toArray⟩

theorem text?_utf8 (s : String) : text? (utf8 s) = some s := by
  have h : (⟨(utf8 s).toArray⟩ : ByteArray) = s.toByteArray := by simp [utf8]
  have valid := s.isValidUTF8
  simp [text?, h, String.fromUTF8?, valid, String.fromUTF8]

theorem utf8_append (s t : String) : utf8 (s ++ t) = utf8 s ++ utf8 t := by
  simp [utf8]

/-! ## Showing bytes that may be ill-formed -/

/-- The bytes that may follow `lead` in a well-formed sequence: the range of the
second byte, and how many continuation bytes there are in all. No byte below
0xC2 or above 0xF4 leads a sequence; the narrower second ranges keep out overlong
forms, surrogates and values past U+10FFFF. -/
def sequenceShape (lead : UInt8) : Option ((UInt8 × UInt8) × Nat) :=
  if lead < 0xc2 then none
  else if lead < 0xe0 then some ((0x80, 0xbf), 1)
  else if lead = 0xe0 then some ((0xa0, 0xbf), 2)
  else if lead = 0xed then some ((0x80, 0x9f), 2)
  else if lead < 0xf0 then some ((0x80, 0xbf), 2)
  else if lead = 0xf0 then some ((0x90, 0xbf), 3)
  else if lead < 0xf4 then some ((0x80, 0xbf), 3)
  else if lead = 0xf4 then some ((0x80, 0x8f), 3)
  else none

/-- Takes up to `count` continuation bytes, the first of them from `range`;
returns how many are missing, the value read so far and what follows. -/
def continuation (range : UInt8 × UInt8) : Nat → Nat → Bytes → Nat × Nat × Bytes
  | 0, value, rest => (0, value, rest)
  | count + 1, value, [] => (count + 1, value, [])
  | count + 1, value, b :: rest =>
    if range.1 ≤ b ∧ b ≤ range.2 then
      continuation (0x80, 0xbf) count (value * 64 + b.toNat % 64) rest
    else (count + 1, value, b :: rest)

theorem continuation_length_le (range : UInt8 × UInt8) (count value : Nat) (rest : Bytes) :
    (continuation range count value rest).2.2.length ≤ rest.length := by
  fun_induction continuation range count value rest <;> simp_all
  omega

/-- The bits of a lead byte that belong to the value, for `count` continuation bytes. -/
def leadValue (lead : UInt8) (count : Nat) : Nat := lead.toNat % (1 <<< (6 - count))

/-- Shows the bytes as text, with one U+FFFD for each longest run that starts a
sequence and cannot be completed, and for each byte that starts none. -/
def substituted (b : Bytes) : String := String.ofList (go b [])
where
  go : Bytes → List Char → List Char
    | [], shown => shown.reverse
    | lead :: rest, shown =>
      if lead < 0x80 then go rest (Char.ofNat lead.toNat :: shown)
      else match sequenceShape lead with
        | none => go rest ('\uFFFD' :: shown)
        | some (range, count) =>
          let taken := continuation range count (leadValue lead count) rest
          go taken.2.2 ((if taken.1 = 0 then Char.ofNat taken.2.1 else '\uFFFD') :: shown)
  termination_by b => b.length
  decreasing_by
    · simp
    · simp
    · have := continuation_length_le range count (leadValue lead count) rest
      simp only [List.length_cons]
      omega

/-- The text of the bytes, with U+FFFD where they are not well-formed UTF-8. -/
def displayText (b : Bytes) : String := (text? b).getD (substituted b)

/-- Well-formed bytes are shown as the text that they are. -/
theorem displayText_of_text? {b : Bytes} {s : String} (h : text? b = some s) :
    displayText b = s := by
  simp [displayText, h]

@[simp] theorem displayText_utf8 (s : String) : displayText (utf8 s) = s :=
  displayText_of_text? (text?_utf8 s)

end DataInlay
