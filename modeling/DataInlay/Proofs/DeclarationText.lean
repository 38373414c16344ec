/-
# DataInlay.Proofs.DeclarationText — a declaration is text

Between its header and its closing a declaration is written with few letters: hexadecimal
digits and the `x` of its literals, and the commas, spaces and line feeds between them
(`layout_letters`). So whatever the data, they can neither close the declaration nor add
anything behind it: the brace and the semicolon of the closing are the only ones behind the
header (`data_stays_in_array`).

The letters are ASCII, and in front of them stands the symbol, which is text to begin with. So
a declaration is the UTF-8 form of a text, also when the data are none, and showing it as text
changes nothing about it (`transformToString_eq`).
-/
import DataInlay.Proofs.StreamFaults
import Mathlib.Data.List.Basic

namespace DataInlay

/-! ## ASCII bytes are text -/

theorem utf8_ascii : ∀ n < 128, utf8 (String.singleton (Char.ofNat n)) = [UInt8.ofNat n] := by
  decide

theorem exists_utf8_of_ascii {bytes : Bytes} (h : ∀ b ∈ bytes, b.toNat < 128) :
    ∃ text, utf8 text = bytes := by
  induction bytes with
  | nil => exact ⟨"", rfl⟩
  | cons b bytes ih =>
    obtain ⟨text, rfl⟩ := ih fun c hc => h c (List.mem_cons_of_mem b hc)
    refine ⟨String.singleton (Char.ofNat b.toNat) ++ text, ?_⟩
    rw [utf8_append, utf8_ascii b.toNat (h b List.mem_cons_self), UInt8.ofNat_toNat]
    rfl

/-! ## The letters of an array -/

/-- The bytes with which literals and separators are written. -/
def arrayLetters : Bytes := utf8 "0123456789abcdefx, \n"

theorem hexDigit_letters : ∀ value < 16, hexDigit value ∈ arrayLetters := by decide +kernel

theorem literal_letters (b : UInt8) : ∀ c ∈ literal b, c ∈ arrayLetters :=
  forall_mem_literal hexDigit_letters (by decide +kernel) b

theorem separator_letters (width : Option Width) (written : Nat) :
    ∀ c ∈ separator width written, c ∈ arrayLetters := by
  have row : ∀ c ∈ rowSeparator, c ∈ arrayLetters := by decide +kernel
  have wrap : ∀ c ∈ wrapSeparator, c ∈ arrayLetters := by decide +kernel
  rcases separator_cases width written with ⟨-, hnone⟩ | ⟨-, hrow | hwrap⟩
  · simp [hnone]
  · rwa [hrow]
  · rwa [hwrap]

/-- Nothing else is needed to lay out data, whatever they are. -/
theorem layout_letters (width : Option Width) (written : Nat) (data : Bytes) :
    ∀ c ∈ layout width written data, c ∈ arrayLetters := by
  intro c hc
  obtain ⟨entry, -, hmem⟩ := List.mem_flatMap.mp hc
  rcases List.mem_append.mp hmem with hsep | hlit
  · exact separator_letters width entry.2 c hsep
  · exact literal_letters entry.1 c hlit

theorem arrayLetters_ascii : ∀ c ∈ arrayLetters, c.toNat < 128 := by decide +kernel

/-! ## The text of a declaration -/

theorem header_eq (symbol : String) :
    header symbol = utf8 ("static const char " ++ symbol ++ "[] = \x7b") := by
  simp only [utf8_append, header, headerPieces, List.flatten_cons, List.flatten_nil,
    List.append_nil, List.append_assoc]

/-- A declaration is the UTF-8 form of a text. -/
theorem exists_utf8_declaration (symbol : String) (width : Option Width) (data : Bytes) :
    ∃ text, utf8 text = declaration symbol width data := by
  obtain ⟨body, hbody⟩ := exists_utf8_of_ascii fun c hc =>
    arrayLetters_ascii c (layout_letters width 0 (data ++ [trailingByte]) c hc)
  refine ⟨"static const char " ++ symbol ++ "[] = \x7b" ++ body ++ "\x7d;\n", ?_⟩
  rw [utf8_append, utf8_append, hbody, ← header_eq]
  rfl

/-- A conversion in memory succeeds with the text of the declaration. -/
theorem transformToString_eq (input : Bytes) (options : Options) :
    ∃ text, transformToString input options = .ok text
      ∧ utf8 text = declaration options.symbol options.width (dataOf input) := by
  obtain ⟨text, htext⟩ := exists_utf8_declaration options.symbol options.width (dataOf input)
  refine ⟨text, ?_, htext⟩
  rw [transformToString, transform_unlimited, ← htext]
  show Except.ok (displayText (utf8 text)) = _
  rw [displayText_utf8]

/-- **Data stay in the array.** A conversion in memory always succeeds. Its text has exactly the
bytes that were written, for these are well-formed UTF-8 whatever the symbol and the data. Behind
the header they are digits, the letter `x`, commas, spaces and line feeds, up to the closing; its
brace and its semicolon are the only ones there, and nothing but the closing follows a brace. -/
theorem data_stays_in_array (input : Bytes) (symbol : String) (width : Option Width) :
    let written :=
      (transform (.ofBytes input) ({} : BoundedSink) ⟨symbol, width⟩).sink.content.toList
    ∃ text body, transformToString input ⟨symbol, width⟩ = .ok text
      ∧ text? written = some text ∧ utf8 text = written
      ∧ written = utf8 ("static const char " ++ symbol ++ "[] = \x7b") ++ (body ++ utf8 "\x7d;\n")
      ∧ (∀ c ∈ body, c ∈ utf8 "0123456789abcdefx, \n")
      ∧ (body ++ utf8 "\x7d;\n").count 0x7d = 1 ∧ (body ++ utf8 "\x7d;\n").count 0x3b = 1
      ∧ ∀ before after, body ++ utf8 "\x7d;\n" = before ++ 0x7d :: after →
          before = body ∧ after = utf8 ";\n" := by
  intro written
  obtain ⟨text, htext, hutf8⟩ := transformToString_eq input ⟨symbol, width⟩
  have hwritten : written = declaration symbol width (dataOf input) := by
    show (transform (.ofBytes input) ({} : BoundedSink) ⟨symbol, width⟩).sink.content.toList = _
    rw [transform_unlimited]
  have letters := layout_letters width 0 (dataOf input ++ [trailingByte])
  have noBrace : (0x7d : UInt8) ∉ layout width 0 (dataOf input ++ [trailingByte]) :=
    fun hbrace => absurd (letters _ hbrace) (by decide +kernel)
  have noSemicolon : (0x3b : UInt8) ∉ layout width 0 (dataOf input ++ [trailingByte]) :=
    fun hsemicolon => absurd (letters _ hsemicolon) (by decide +kernel)
  refine ⟨text, layout width 0 (dataOf input ++ [trailingByte]), htext, ?_, ?_, ?_, letters,
    ?brace, ?semicolon, ?once⟩
  · rw [hwritten, ← hutf8, text?_utf8]
  · rw [hwritten, hutf8]
  · rw [hwritten, declaration, header_eq, List.append_assoc]
    rfl
  case brace =>
    rw [List.count_append, List.count_eq_zero_of_not_mem noBrace]
    decide +kernel
  case semicolon =>
    rw [List.count_append, List.count_eq_zero_of_not_mem noSemicolon]
    decide +kernel
  case once =>
    intro before after hsplit
    have closingBytes : utf8 "\x7d;\n" = 0x7d :: utf8 ";\n" := by decide +kernel
    rw [closingBytes, List.append_cons_inj_of_notMem noBrace (by decide +kernel)] at hsplit
    exact ⟨hsplit.1.symm, hsplit.2.2.symm⟩

end DataInlay
