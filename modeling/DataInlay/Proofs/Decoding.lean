/-
# DataInlay.Proofs.Decoding — reading a declaration back

A reader of declarations takes off the header and the closing, cuts what is left at the
separators, of a row or between rows alike, and reads each piece as a literal: `0x` and
two lowercase digits, and nothing else (`decode?`). It is told the symbol, as that may
hold anything, braces and commas and whole literals included; it is not told the width.

Decoding undoes declaring (`decode?_declaration`). So a declaration tells its data
(`declaration_inj`), and a conversion that of its input, however the literals are
wrapped (`transform_decodes`).
-/
import DataInlay.Proofs.StreamFaults

namespace DataInlay

/-! ## The reader -/

/-- The value of a lowercase hexadecimal digit. -/
def digitValue? (digit : UInt8) : Option Nat :=
  if 0x30 ≤ digit ∧ digit ≤ 0x39 then some (digit.toNat - 0x30)
  else if 0x61 ≤ digit ∧ digit ≤ 0x66 then some (digit.toNat - 0x57)
  else none

/-- Reads `0x` and two digits, the high one first. -/
def readLiteral? : Bytes → Option UInt8
  | [0x30, 0x78, high, low] =>
    (digitValue? high).bind fun high =>
      (digitValue? low).map fun low => UInt8.ofNat (16 * high + low)
  | _ => none

/-- Cuts bytes at every comma that a space or a line feed follows. -/
def splitAtSeparators : Bytes → List Bytes
  | [] => [[]]
  | 0x2c :: 0x20 :: rest => [] :: splitAtSeparators rest
  | 0x2c :: 0x0a :: rest => [] :: splitAtSeparators rest
  | b :: rest => (splitAtSeparators rest).modifyHead (b :: ·)

/-- Reads the literals of an array and gives the bytes that they stand for. -/
def readLiterals? (body : Bytes) : Option Bytes := (splitAtSeparators body).mapM readLiteral?

/-- What stands between the header for a symbol and the closing. -/
def bodyOf? (symbol : String) (text : Bytes) : Option Bytes :=
  let body := (text.drop (header symbol).length).take
    (text.length - (header symbol).length - closing.length)
  if header symbol ++ body ++ closing = text then some body else none

/-- Reads the bytes of a declared array. -/
def decode? (symbol : String) (text : Bytes) : Option Bytes :=
  (bodyOf? symbol text).bind readLiterals?

theorem bodyOf?_eq_some_iff {symbol : String} {text body : Bytes} :
    bodyOf? symbol text = some body ↔ text = header symbol ++ body ++ closing := by
  constructor
  · intro h
    dsimp only [bodyOf?] at h
    split at h
    · next same => rw [← Option.some.inj h, same]
    · cases h
  · rintro rfl
    have body' : ((header symbol ++ body ++ closing).drop (header symbol).length).take
        ((header symbol ++ body ++ closing).length - (header symbol).length - closing.length)
          = body := by
      rw [List.append_assoc, List.drop_left, List.length_append, List.length_append]
      exact List.take_left' (by omega)
    rw [bodyOf?, body', if_pos rfl]

/-! ## Reading what was laid out -/

theorem digitValue?_hexDigit : ∀ value < 16, digitValue? (hexDigit value) = some value := by decide

/-- A literal is read as the byte that it was written for. -/
theorem readLiteral?_literal (b : UInt8) : readLiteral? (literal b) = some b := by
  have small := b.toNat_lt
  have high := digitValue?_hexDigit (b.toNat / 16) (by omega)
  have low := digitValue?_hexDigit (b.toNat % 16) (Nat.mod_lt _ (by decide))
  rw [literal, readLiteral?, high, Option.bind_some, low, Option.map_some, Nat.div_add_mod,
    UInt8.ofNat_toNat]

theorem hexDigit_ge : ∀ value < 16, 0x30 ≤ hexDigit value := by decide

/-- All bytes of a literal are above those of the separators. -/
theorem literal_ge (b : UInt8) : ∀ c ∈ literal b, 0x30 ≤ c :=
  forall_mem_literal hexDigit_ge (by decide) b

theorem comma_not_mem_literal (b : UInt8) : (0x2c : UInt8) ∉ literal b :=
  fun hcomma => absurd (literal_ge b _ hcomma) (by decide)

/-- Bytes without a comma stay in front of the first piece. -/
theorem splitAtSeparators_append {s : Bytes} (h : (0x2c : UInt8) ∉ s) (rest : Bytes) :
    splitAtSeparators (s ++ rest) = (splitAtSeparators rest).modifyHead (s ++ ·) := by
  induction s with
  | nil => exact (congrFun List.modifyHead_id _).symm
  | cons b s ih =>
    rw [List.mem_cons, not_or] at h
    have plain : splitAtSeparators (b :: (s ++ rest))
        = (splitAtSeparators (s ++ rest)).modifyHead (b :: ·) := by
      rw [splitAtSeparators]
      · intro _ hb
        exact absurd hb.symm h.1
      · intro _ hb
        exact absurd hb.symm h.1
    rw [List.cons_append, plain, ih h.2, List.modifyHead_modifyHead]
    rfl

/-- Between two literals stands one of the two separators, and the cut is made there. -/
theorem splitAtSeparators_separator (width : Option Width) {written : Nat} (h : written ≠ 0)
    (rest : Bytes) :
    splitAtSeparators (separator width written ++ rest) = [] :: splitAtSeparators rest := by
  have row : splitAtSeparators (rowSeparator ++ rest) = [] :: splitAtSeparators rest := rfl
  have wrap : splitAtSeparators (wrapSeparator ++ rest) = [] :: splitAtSeparators rest := rfl
  rcases separator_cases width written with ⟨hfirst, -⟩ | ⟨-, hrow | hwrap⟩
  · exact absurd hfirst h
  · rwa [hrow]
  · rwa [hwrap]

/-- Cutting literals at their separators gives the literals back, one for each byte. -/
theorem splitAtSeparators_layout (width : Option Width) (written : Nat) (b : UInt8) (data : Bytes) :
    splitAtSeparators (literal b ++ layout width (written + 1) data)
      = (b :: data).map literal := by
  induction data generalizing b written with
  | nil =>
    rw [layout_nil, splitAtSeparators_append (comma_not_mem_literal b)]
    simp [splitAtSeparators]
  | cons c data ih =>
    rw [layout_cons, List.append_assoc, splitAtSeparators_append (comma_not_mem_literal b),
      splitAtSeparators_separator width (Nat.succ_ne_zero written), ih]
    simp

/-- An array that holds something is read as what was laid out, whatever the width. -/
theorem readLiterals?_layout (width : Option Width) {data : Bytes} (h : data ≠ []) :
    readLiterals? (layout width 0 data) = some data := by
  obtain ⟨b, data, rfl⟩ := List.exists_cons_of_ne_nil h
  have first : separator width 0 = [] := rfl
  have each : ∀ bytes : Bytes, (bytes.map literal).mapM readLiteral? = some bytes := by
    intro bytes
    induction bytes with
    | nil => rfl
    | cons b bytes ih => simp [readLiteral?_literal, ih]
  rw [readLiterals?, layout_cons, first, List.nil_append, splitAtSeparators_layout, each]

/-- **Decoding undoes declaring.** -/
theorem decode?_declaration (symbol : String) (width : Option Width) (data : Bytes) :
    decode? symbol (declaration symbol width data) = some (data ++ [trailingByte]) := by
  have body : bodyOf? symbol (declaration symbol width data) = some _ :=
    bodyOf?_eq_some_iff.mpr rfl
  rw [decode?, body, Option.bind_some]
  exact readLiterals?_layout width (by simp)

/-- Different data have different declarations. -/
theorem declaration_inj {symbol : String} {width : Option Width} {a b : Bytes}
    (h : declaration symbol width a = declaration symbol width b) : a = b := by
  have read := congrArg (decode? symbol) h
  rw [decode?_declaration, decode?_declaration] at read
  exact List.append_cancel_right (Option.some.inj read)

/-! ## Reading what a conversion wrote -/

/-- The bytes that a conversion of an input in memory leaves in its sink. -/
def writtenFor (input : Bytes) (options : Options) : Bytes :=
  (transform (.ofBytes input) ({} : BoundedSink) options).sink.content.toList

theorem writtenFor_eq (input : Bytes) (options : Options) :
    writtenFor input options = declaration options.symbol options.width (dataOf input) := by
  rw [writtenFor, transform_unlimited]

/-- **A conversion can be read back.** It succeeds, and what it writes is the header for
the symbol, a body and the closing; the body, cut at its separators, is the data of the
input and the trailing byte, literal by literal. So under one symbol and width, inputs give
the same text exactly when their data are the same, and under any two widths texts are read
alike exactly then. -/
theorem transform_decodes (input : Bytes) (symbol : String) (width : Option Width) :
    let data := (lines input).flatMap cleanLine
    let text := writtenFor input ⟨symbol, width⟩
    (∃ summary, (transform (.ofBytes input) ({} : BoundedSink) ⟨symbol, width⟩).result
        = .ok summary)
    ∧ (∃ body, text = utf8 ("static const char " ++ symbol ++ "[] = \x7b") ++ body ++ utf8 "\x7d;\n"
        ∧ readLiterals? body = some (data ++ [0x0a]))
    ∧ (∀ other, writtenFor other ⟨symbol, width⟩ = text ↔ dataOf other = data)
    ∧ ∀ other width', decode? symbol (writtenFor other ⟨symbol, width'⟩) = decode? symbol text
        ↔ dataOf other = data := by
  intro data text
  have written : text = declaration symbol width data := writtenFor_eq input ⟨symbol, width⟩
  have decoded : decode? symbol text = some (data ++ [trailingByte]) := by
    rw [written, decode?_declaration]
  refine ⟨⟨_, by rw [transform_unlimited]⟩, ?_, ?_, ?_⟩
  · obtain ⟨body, hbody, hread⟩ := Option.bind_eq_some_iff.mp decoded
    refine ⟨body, ?_, hread⟩
    rw [bodyOf?_eq_some_iff.mp hbody]
    simp only [header, headerPieces, closing, utf8_append, List.flatten_cons, List.flatten_nil,
      List.append_nil, List.append_assoc]
  · intro other
    rw [written, writtenFor_eq]
    constructor
    · exact declaration_inj
    · intro same
      rw [same]
  · intro other width'
    rw [decoded, writtenFor_eq, decode?_declaration, Option.some.injEq, List.append_left_inj]

end DataInlay
