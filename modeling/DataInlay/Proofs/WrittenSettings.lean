/-
# DataInlay.Proofs.WrittenSettings — flat documents as they are written

A writer of flat documents puts each setting on a line of its own, `key = value`, with strings
as basic strings on one line and natural numbers in decimal. It has a choice for each character
of a string: most may stand as they are, some have an escape of one letter, and all can be
given by their code, in three lengths. `Toml.Writes` allows every such choice, so it holds for
any writer that follows the rules, and there is a way to write each character
(`Toml.exists_writesChar`).

Whatever was chosen, the document is read as the settings that were written, in their order
(`Toml.settings_of_writes`), as long as the keys are bare and differ.
-/
import DataInlay.Toml.Document
import Mathlib.Algebra.Group.Nat.Defs
import Mathlib.Data.List.Forall2
import Mathlib.Data.List.TakeWhile

namespace DataInlay.Toml

/-! ## Writing -/

/-- The character is a hexadecimal digit, in either case, for the value. -/
def IsHexDigit (value : Nat) (c : Char) : Prop :=
  "0123456789abcdef".toList[value]? = some c ∨ "0123456789ABCDEF".toList[value]? = some c

/-- The digits write the code in base sixteen. -/
def WritesCode (code : Nat) (digits : List Char) : Prop :=
  ∃ values : List Nat, List.Forall₂ IsHexDigit values digits
    ∧ values.foldl (fun code value => code * 16 + value) 0 = code

/-- The letters that stand for a character behind a backslash. -/
def escapeLetters : List (Char × Char) :=
  [('b', '\x08'), ('t', '\t'), ('n', '\n'), ('f', '\x0c'), ('r', '\r'), ('e', '\x1b'),
    ('"', '"'), ('\\', '\\')]

/-- The letters that announce a code behind a backslash, and how many digits it has. -/
def codeLetters : List (Char × Nat) := [('x', 2), ('u', 4), ('U', 8)]

/-- How a character may be written in a basic string. -/
inductive WritesChar : Char → List Char → Prop
  /-- As it is: the tab, and whatever is no control character, no quote and no backslash. -/
  | plain {c : Char} (printable : c = '\t' ∨ 0x20 ≤ c.toNat ∧ c.toNat ≠ 0x7f)
      (unquoted : c ≠ '"') (unescaped : c ≠ '\\') : WritesChar c [c]
  | letter {c letter : Char} (known : (letter, c) ∈ escapeLetters) : WritesChar c ['\\', letter]
  | code {c letter : Char} {digits : List Char} (known : (letter, digits.length) ∈ codeLetters)
      (code : WritesCode c.toNat digits) : WritesChar c ('\\' :: letter :: digits)

/-- How a value may be written: a text between double quotes, a natural number in decimal. -/
inductive WritesValue : Value → List Char → Prop
  | text {s : String} {forms : List (List Char)}
      (chars : List.Forall₂ WritesChar s.toList forms) :
      WritesValue (.text s) ('"' :: forms.flatten ++ ['"'])
  | integer (n : Nat) : WritesValue (.integer n) (toString n).toList

/-- How a setting may be written, with the line feed behind it. -/
def WritesSetting (setting : String × Value) (line : List Char) : Prop :=
  ∃ value, WritesValue setting.2 value
    ∧ line = setting.1.toList ++ " = ".toList ++ value ++ ['\n']

/-- How settings may be written as a document, in their order. -/
def Writes (settings : List (String × Value)) (document : String) : Prop :=
  ∃ lines, List.Forall₂ WritesSetting settings lines ∧ document.toList = lines.flatten

/-! ### There is always a way -/

/-- What can be written one by one can be written one behind the other. -/
theorem exists_forall₂ {α β : Type} {Writes : α → β → Prop} {l : List α}
    (h : ∀ x ∈ l, ∃ form, Writes x form) : ∃ forms, List.Forall₂ Writes l forms := by
  induction l with
  | nil => exact ⟨[], .nil⟩
  | cons x l ih =>
    obtain ⟨hx, hl⟩ := List.forall_mem_cons.mp h
    obtain ⟨form, hform⟩ := hx
    obtain ⟨forms, hforms⟩ := ih hl
    exact ⟨form :: forms, .cons hform hforms⟩

theorem isHexDigit_of_lt : ∀ value < 16, ∃ c, IsHexDigit value c := by
  intro value h
  have bound : value < "0123456789abcdef".toList.length := h
  exact ⟨_, .inl (List.getElem?_eq_getElem bound)⟩

/-- A code that is small enough can be written with any number of digits. -/
theorem exists_writesCode (count : Nat) {code : Nat} (h : code < 16 ^ count) :
    ∃ digits, digits.length = count ∧ WritesCode code digits := by
  induction count generalizing code with
  | zero =>
    obtain rfl : code = 0 := by simpa using h
    exact ⟨[], rfl, [], .nil, rfl⟩
  | succ count ih =>
    have front : code / 16 < 16 ^ count := by
      rw [Nat.pow_succ] at h
      omega
    obtain ⟨digits, hlength, values, hdigits, hvalue⟩ := ih front
    obtain ⟨c, hc⟩ := isHexDigit_of_lt (code % 16) (Nat.mod_lt _ (by decide))
    refine ⟨digits ++ [c], by rw [List.length_append, hlength]; rfl, values ++ [code % 16], ?_, ?_⟩
    · exact List.rel_append hdigits (.cons hc .nil)
    · rw [List.foldl_append, hvalue]
      show code / 16 * 16 + code % 16 = code
      omega

theorem exists_writesChar (c : Char) : ∃ form, WritesChar c form := by
  -- eight digits are enough for any code
  have small : c.toNat < 16 ^ 8 := c.val.toNat_lt
  obtain ⟨digits, hlength, hcode⟩ := exists_writesCode 8 small
  refine ⟨'\\' :: 'U' :: digits, .code ?_ hcode⟩
  rw [hlength]
  decide

theorem exists_writesText (s : String) : ∃ form, WritesValue (.text s) form := by
  obtain ⟨forms, hforms⟩ := exists_forall₂ (l := s.toList) fun c _ => exists_writesChar c
  exact ⟨_, .text hforms⟩

/-- Settings whose values can be written can be written as a document. -/
theorem exists_writes {settings : List (String × Value)}
    (h : ∀ setting ∈ settings, ∃ form, WritesValue setting.2 form) :
    ∃ document, Writes settings document := by
  have line : ∀ setting ∈ settings, ∃ line, WritesSetting setting line := by
    intro setting hsetting
    obtain ⟨form, hform⟩ := h setting hsetting
    exact ⟨_, form, hform, rfl⟩
  obtain ⟨lines, hlines⟩ := exists_forall₂ line
  exact ⟨String.ofList lines.flatten, lines, hlines, String.toList_ofList⟩

/-! ## Reading a character -/

theorem digit?_of_isHexDigit {value : Nat} {c : Char} (h : IsHexDigit value c) :
    digit? 16 c = some value := by
  have bound : value < 16 := by
    rcases h with h | h <;> exact (List.getElem?_eq_some_iff.mp h).1
  have read : ∀ value : Fin 16,
      digit? 16 "0123456789abcdef".toList[value] = some value.val
      ∧ digit? 16 "0123456789ABCDEF".toList[value] = some value.val := by decide
  rcases h with h | h <;> obtain ⟨-, rfl⟩ := List.getElem?_eq_some_iff.mp h
  · exact (read ⟨value, bound⟩).1
  · exact (read ⟨value, bound⟩).2

theorem hexValue?_of_writesCode {code : Nat} {digits : List Char} (h : WritesCode code digits) :
    hexValue? 0 digits = some code := by
  have general : ∀ {values : List Nat} {digits : List Char},
      List.Forall₂ IsHexDigit values digits → ∀ start,
      hexValue? start digits
        = some (values.foldl (fun code value => code * 16 + value) start) := by
    intro values digits hdigits
    induction hdigits with
    | nil => exact fun start => rfl
    | cons hdigit _ ih =>
      intro start
      rw [hexValue?, digit?_of_isHexDigit hdigit, Option.bind_some, ih, List.foldl_cons]
  obtain ⟨values, hdigits, rfl⟩ := h
  exact general hdigits 0

theorem charOfCode?_toNat (c : Char) : charOfCode? c.toNat = some c := by
  have valid : c.toNat.isValidChar := c.valid
  rw [charOfCode?, if_pos valid, Char.ofNat_toNat]

theorem numericEscape?_of_writesCode {c : Char} {digits : List Char}
    (h : WritesCode c.toNat digits) (rest : List Char) :
    numericEscape? digits.length (digits ++ rest) = some (c, rest) := by
  have enough : digits.length ≤ (digits ++ rest).length := by
    rw [List.length_append]
    omega
  rw [numericEscape?, if_pos enough, List.take_left, List.drop_left, hexValue?_of_writesCode h,
    Option.bind_some, charOfCode?_toNat]
  rfl

theorem escape?_of_letter {c letter : Char} (h : (letter, c) ∈ escapeLetters)
    (rest : List Char) : escape? (letter :: rest) = some (c, rest) := by
  have named : ∀ entry ∈ escapeLetters, namedEscape? entry.1 = some entry.2 := by decide
  have hnamed := named _ h
  dsimp only at hnamed
  rw [escape?, hnamed]

theorem escape?_of_code {c letter : Char} {digits : List Char}
    (h : (letter, digits.length) ∈ codeLetters) (hcode : WritesCode c.toNat digits)
    (rest : List Char) : escape? (letter :: (digits ++ rest)) = some (c, rest) := by
  have announced : ∀ entry ∈ codeLetters,
      namedEscape? entry.1 = none ∧ codeDigits? entry.1 = some entry.2 := by decide
  obtain ⟨hnamed, hcount⟩ := announced _ h
  dsimp only at hnamed hcount
  rw [escape?, hnamed, hcount]
  exact numericEscape?_of_writesCode hcode rest

theorem basicText?_of_escape {after rest : List Char} {c : Char}
    (h : escape? rest = some (c, after)) (read : List Char) :
    basicText? read ('\\' :: rest) = basicText? (c :: read) after := by
  rw [basicText?]
  split
  · next hescape =>
    rw [h] at hescape
    cases hescape
    rfl
  · next hescape =>
    rw [h] at hescape
    cases hescape

/-- A character is read as it was meant, however it was written. -/
theorem basicText?_of_writesChar {c : Char} {form : List Char} (h : WritesChar c form)
    (read rest : List Char) : basicText? read (form ++ rest) = basicText? (c :: read) rest := by
  cases h with
  | plain printable unquoted unescaped =>
    have text : isTextChar c = true := by
      rcases printable with rfl | ⟨hspace, hdelete⟩
      · rfl
      · have space : ' ' ≤ c := hspace
        have delete : c ≠ '\x7f' := fun h => hdelete (by rw [h]; rfl)
        simp [isTextChar, space, delete]
    rw [List.singleton_append, basicText?, if_pos text]
    · exact unquoted
    · exact unescaped
  | letter known => exact basicText?_of_escape (escape?_of_letter known rest) read
  | code known hcode => exact basicText?_of_escape (escape?_of_code known hcode rest) read

theorem basicText?_of_writes {s : List Char} {forms : List (List Char)}
    (h : List.Forall₂ WritesChar s forms) (read rest : List Char) :
    basicText? read (forms.flatten ++ '"' :: rest)
      = some (String.ofList (read.reverse ++ s), rest) := by
  induction h generalizing read with
  | nil =>
    rw [List.flatten_nil, List.nil_append, basicText?, List.append_nil]
  | cons hchar _ ih =>
    rw [List.flatten_cons, List.append_assoc, basicText?_of_writesChar hchar, ih,
      List.reverse_cons, List.append_assoc]
    rfl

/-! ## Reading a value -/

theorem digit?_of_isDigit {c : Char} (h : c.isDigit = true) :
    digit? 10 c = some (c.toNat - '0'.toNat) := by
  obtain ⟨hlow, hhigh⟩ := Char.isDigit_iff_toNat.mp h
  have low : '0' ≤ c := hlow
  have high : c ≤ '9' := hhigh
  have small : c.toNat - '0'.toNat < 10 := by
    change c.toNat ≤ 57 at hhigh
    change c.toNat - 48 < 10
    omega
  rw [digit?, if_pos (And.intro low high), if_pos small]

theorem digitsFrom?_of_isDigit {digits : List Char} (h : ∀ c ∈ digits, c.isDigit = true)
    (start : Nat) : digitsFrom? 10 start digits = some (Nat.ofDigitChars 10 digits start) := by
  induction digits generalizing start with
  | nil => rw [digitsFrom?, Nat.ofDigitChars_nil]
  | cons c digits ih =>
    obtain ⟨hc, hdigits⟩ := List.forall_mem_cons.mp h
    rw [digitsFrom?, digit?_of_isDigit hc, Option.bind_some, ih hdigits, Nat.ofDigitChars_cons,
      Nat.mul_comm]
    rintro c' rest' rfl
    exact absurd hc (by decide)

theorem isDigit_of_mem_toDigits (n : Nat) : ∀ c ∈ Nat.toDigits 10 n, c.isDigit = true :=
  fun _ hc => Nat.isDigit_of_mem_toDigits (by decide) (by decide) hc

theorem toDigits_eq_cons (n : Nat) :
    ∃ c rest, Nat.toDigits 10 n = c :: rest ∧ c.isDigit = true := by
  obtain ⟨c, rest, hdigits⟩ := List.exists_cons_of_ne_nil (Nat.toDigits_ne_nil (b := 10) (n := n))
  have head : c ∈ Nat.toDigits 10 n := by
    rw [hdigits]
    exact List.mem_cons_self
  exact ⟨c, rest, hdigits, isDigit_of_mem_toDigits n c head⟩

/-- The decimal digits of a number other than zero do not begin with one. -/
theorem exists_toDigits_eq {n : Nat} (h : n ≠ 0) :
    ∃ c rest, Nat.toDigits 10 n = c :: rest ∧ c ≠ '0' := by
  induction n using Nat.strongRecOn with
  | _ n ih =>
    by_cases hsmall : n < 10
    · have digit : ∀ n < 10, n ≠ 0 → n.digitChar ≠ '0' := by decide
      exact ⟨n.digitChar, [], Nat.toDigits_of_lt_base hsmall, digit n hsmall h⟩
    · have base : 10 ≤ n := Nat.le_of_not_lt hsmall
      obtain ⟨c, rest, hdigits, hc⟩ := ih (n / 10) (by omega) (by omega)
      refine ⟨c, rest ++ [(n % 10).digitChar], ?_, hc⟩
      rw [Nat.toDigits_of_base_le (by decide) base, hdigits]
      rfl

/-- A decimal number is read as itself. -/
theorem integer?_toDigits (n : Nat) : integer? (Nat.toDigits 10 n) = some (n : Int) := by
  by_cases hzero : n = 0
  · subst hzero
    rfl
  · have digits := isDigit_of_mem_toDigits n
    have value : Nat.ofDigitChars 10 (Nat.toDigits 10 n) 0 = n := Nat.ofDigitChars_ten_toDigits
    obtain ⟨c, rest, hdigits, hc⟩ := exists_toDigits_eq hzero
    rw [hdigits] at digits value ⊢
    obtain ⟨hdigit, hrest⟩ := List.forall_mem_cons.mp digits
    have zero : ∀ rest', c :: rest ≠ '0' :: rest' := fun _ h => hc (List.cons.inj h).1
    have sign : ∀ d, d.isDigit = false → ∀ rest', c :: rest ≠ d :: rest' := by
      intro d hd rest' h
      rw [← (List.cons.inj h).1, hdigit] at hd
      cases hd
    have unsigned : integer? (c :: rest) = (decimal? (c :: rest)).map Int.ofNat := by
      rw [integer?]
      · exact fun _ => zero _
      · exact fun _ => zero _
      · exact fun _ => zero _
      · exact sign '+' rfl
      · exact sign '-' rfl
    have read : decimal? (c :: rest) = some n := by
      rw [Nat.ofDigitChars_cons, Nat.mul_zero, Nat.zero_add] at value
      rw [decimal?, digits?, digit?_of_isDigit hdigit, Option.bind_some,
        digitsFrom?_of_isDigit hrest, value]
      · exact zero []
      · exact zero
    rw [unsigned, read]
    rfl

theorem endsValue_of_isDigit {c : Char} (h : c.isDigit = true) : endsValue c = false := by
  rw [Bool.eq_false_iff]
  intro hends
  simp only [endsValue, isSpace, Bool.or_eq_true, beq_iff_eq] at hends
  rcases hends with (((rfl | rfl) | rfl) | rfl) | rfl <;> exact absurd h (by decide)

/-- What is written between the quotes does not begin with a quote. -/
theorem ne_quotes_of_writes {s : List Char} {forms : List (List Char)}
    (h : List.Forall₂ WritesChar s forms) (rest rest' : List Char) :
    forms.flatten ++ '"' :: '\n' :: rest ≠ '"' :: '"' :: rest' := by
  intro heq
  cases h with
  | nil => exact absurd (List.cons.inj (List.cons.inj heq).2).1 (by decide)
  | cons hchar _ =>
    cases hchar with
    | plain _ unquoted _ => exact unquoted (List.cons.inj heq).1
    | letter _ => exact absurd (List.cons.inj heq).1 (by decide)
    | code _ _ => exact absurd (List.cons.inj heq).1 (by decide)

/-- A value is read up to the end of its line. -/
theorem value?_of_writes {value : Value} {form : List Char} (h : WritesValue value form)
    (rest : List Char) : value? (form ++ '\n' :: rest) = some (value, '\n' :: rest) := by
  cases h with
  | @text s forms chars =>
    have read : text? ('"' :: (forms.flatten ++ '"' :: '\n' :: rest)) = some (s, '\n' :: rest) := by
      rw [text?, basicText?_of_writes chars, List.reverse_nil, List.nil_append,
        String.ofList_toList]
      exact ne_quotes_of_writes chars rest
    have quoted : '"' :: forms.flatten ++ ['"'] ++ '\n' :: rest
        = '"' :: (forms.flatten ++ '"' :: '\n' :: rest) := by
      simp only [List.cons_append, List.append_assoc, List.nil_append]
    rw [quoted, value?, read]
    rfl
  | integer n =>
    have inner : ∀ c ∈ Nat.toDigits 10 n, (!endsValue c) = true := fun c hc => by
      rw [endsValue_of_isDigit (isDigit_of_mem_toDigits n c hc)]
      rfl
    have unquoted : ∀ quote rest', quote.isDigit = false →
        Nat.toDigits 10 n ++ '\n' :: rest ≠ quote :: rest' := by
      intro quote rest' hquote heq
      obtain ⟨c, others, hdigits, hc⟩ := toDigits_eq_cons n
      rw [hdigits] at heq
      rw [← (List.cons.inj heq).1, hc] at hquote
      cases hquote
    have after : ('\n' :: rest).takeWhile (!endsValue ·) = []
        ∧ ('\n' :: rest).dropWhile (!endsValue ·) = '\n' :: rest := ⟨rfl, rfl⟩
    rw [Nat.toString_eq_ofList_toDigits, String.toList_ofList, value?,
      List.takeWhile_append_of_pos inner, List.dropWhile_append_of_pos inner, after.1, after.2,
      List.append_nil, integer?_toDigits]
    · rfl
    · exact fun rest' => unquoted '"' rest' rfl
    · exact fun rest' => unquoted '\'' rest' rfl

/-- No value begins with a blank. -/
theorem skipSpaces_writesValue {value : Value} {form : List Char} (h : WritesValue value form)
    (rest : List Char) : skipSpaces (form ++ rest) = form ++ rest := by
  cases h with
  | text _ => rfl
  | integer n =>
    obtain ⟨c, others, hdigits, hc⟩ := toDigits_eq_cons n
    have blank : isSpace c = false := by
      have ends := endsValue_of_isDigit hc
      simp only [endsValue, Bool.or_eq_false_iff] at ends
      exact ends.1.1.1
    rw [Nat.toString_eq_ofList_toDigits, String.toList_ofList, hdigits, skipSpaces,
      List.cons_append, List.dropWhile_cons_of_neg (by rw [blank]; decide)]

/-! ## Reading a document -/

/-- The key may be written bare. -/
def IsBareKey (key : String) : Prop := key.toList ≠ [] ∧ key.toList.all isBareKeyChar = true

instance (key : String) : Decidable (IsBareKey key) := inferInstanceAs (Decidable (_ ∧ _))

theorem IsBareKey.chars {key : String} (h : IsBareKey key) :
    ∀ c ∈ key.toList, isBareKeyChar c = true :=
  List.all_eq_true.mp h.2

theorem IsBareKey.eq_cons {key : String} (h : IsBareKey key) :
    ∃ c name, key.toList = c :: name ∧ isBareKeyChar c = true := by
  obtain ⟨c, name, hkey⟩ := List.exists_cons_of_ne_nil h.1
  have head : c ∈ key.toList := by
    rw [hkey]
    exact List.mem_cons_self
  exact ⟨c, name, hkey, h.chars c head⟩

section FirstOfKey

variable {c : Char} (h : isBareKeyChar c = true)

include h

theorem cons_ne_of_isBareKeyChar {d : Char} (hd : isBareKeyChar d = false) (rest rest' : List Char) :
    c :: rest ≠ d :: rest' := by
  intro heq
  rw [← (List.cons.inj heq).1, h] at hd
  cases hd

theorem skipSpaces_of_key (rest : List Char) : skipSpaces (c :: rest) = c :: rest := by
  apply List.dropWhile_cons_of_neg
  intro hspace
  simp only [isSpace, Bool.or_eq_true, beq_iff_eq] at hspace
  rcases hspace with rfl | rfl <;> exact absurd h (by decide)

/-- A line that begins with a bare key is not empty. -/
theorem endOfLine?_of_key (rest : List Char) : endOfLine? (c :: rest) = none := by
  have comment : skipComment (c :: rest) = c :: rest := by
    rw [skipComment]
    exact fun _ => cons_ne_of_isBareKeyChar h rfl _ _
  have newline : newline? (c :: rest) = none := by
    rw [newline?]
    · exact fun _ => cons_ne_of_isBareKeyChar h rfl _ _
    · exact fun _ => cons_ne_of_isBareKeyChar h rfl _ _
  rw [endOfLine?, skipSpaces_of_key h, comment, lineBreak?, if_neg (List.cons_ne_nil c rest),
    newline]
  rfl

end FirstOfKey

theorem endOfLine?_lineFeed (rest : List Char) : endOfLine? ('\n' :: rest) = some rest := rfl

theorem key?_of_bare {key : String} (h : IsBareKey key) {rest : List Char}
    (hstops : rest.takeWhile isBareKeyChar = []) :
    key? (key.toList ++ rest) = some (key, rest) := by
  have dropped : rest.dropWhile isBareKeyChar = rest := by
    have whole := List.takeWhile_append_dropWhile (p := isBareKeyChar) (l := rest)
    rwa [hstops, List.nil_append] at whole
  have unquoted : ∀ quote, isBareKeyChar quote = false →
      ∀ rest', key.toList ++ rest ≠ quote :: rest' := by
    intro quote hquote rest'
    obtain ⟨c, name, hkey, bare⟩ := h.eq_cons
    rw [hkey]
    exact cons_ne_of_isBareKeyChar bare hquote _ _
  rw [key?, List.takeWhile_append_of_pos h.chars,
    List.dropWhile_append_of_pos h.chars, hstops, dropped, List.append_nil]
  · split
    · next hnil => exact absurd hnil h.1
    · rw [String.ofList_toList]
  · exact unquoted '"' rfl
  · exact unquoted '\'' rfl

/-- A written setting is read as what was written, and the reader goes on behind its line. -/
theorem line?_of_writes {setting : String × Value} (hkey : IsBareKey setting.1) {line : List Char}
    (h : WritesSetting setting line) (rest : List Char) :
    line? (line ++ rest) = some (some setting, rest) := by
  obtain ⟨form, hvalue, rfl⟩ := h
  have text : setting.1.toList ++ " = ".toList ++ form ++ ['\n'] ++ rest
      = setting.1.toList ++ ' ' :: '=' :: ' ' :: (form ++ '\n' :: rest) := by
    simp
  have read : setting? (setting.1.toList ++ ' ' :: '=' :: ' ' :: (form ++ '\n' :: rest))
      = some (setting, '\n' :: rest) := by
    rw [setting?, key?_of_bare hkey rfl, Option.bind_some]
    show (value? (skipSpaces (form ++ '\n' :: rest))).map _ = _
    rw [skipSpaces_writesValue hvalue, value?_of_writes hvalue]
    rfl
  obtain ⟨c, name, hname, bare⟩ := hkey.eq_cons
  rw [text]
  rw [hname, List.cons_append] at read ⊢
  rw [line?, endOfLine?_of_key bare, skipSpaces_of_key bare, read, Option.bind_some,
    endOfLine?_lineFeed]
  rfl

theorem settingsFrom_of_line {setting : String × Value} {s rest : List Char}
    (h : line? s = some (some setting, rest)) (hs : s ≠ []) {read : List (String × Value)}
    (hnew : setting.1 ∉ read.map Prod.fst) :
    settingsFrom read s = settingsFrom (setting :: read) rest := by
  have unread : ¬ (read.any (·.1 == setting.1)) = true := by
    rw [List.any_eq_true]
    rintro ⟨entry, hentry, hkey⟩
    exact hnew (List.mem_map.mpr ⟨entry, hentry, beq_iff_eq.mp hkey⟩)
  rw [settingsFrom, dif_neg hs]
  split
  · next hline =>
    rw [h] at hline
    cases hline
  · next hline =>
    rw [h] at hline
    cases hline
  · next hline =>
    rw [h] at hline
    cases hline
    exact if_neg unread

/-- Settings whose keys are bare and differ are read in their order. -/
theorem settingsFrom_of_writes {settings : List (String × Value)} {lines : List (List Char)}
    (h : List.Forall₂ WritesSetting settings lines)
    (hbare : ∀ setting ∈ settings, IsBareKey setting.1) {read : List (String × Value)}
    (hkeys : ((read ++ settings).map Prod.fst).Nodup) :
    settingsFrom read lines.flatten = .ok (read.reverse ++ settings) := by
  induction h generalizing read with
  | nil => rw [List.flatten_nil, settingsFrom, dif_pos rfl, List.append_nil]
  | @cons setting line settings lines hline _ ih =>
    obtain ⟨hkey, hbare⟩ := List.forall_mem_cons.mp hbare
    -- which keys there are in all does not change from line to line
    have hnext : ((setting :: read ++ settings).map Prod.fst).Nodup :=
      (List.perm_middle.map Prod.fst).nodup_iff.mp hkeys
    have hnew : setting.1 ∉ read.map Prod.fst := by
      rw [List.cons_append, List.map_cons, List.nodup_cons, List.map_append, List.mem_append,
        not_or] at hnext
      exact hnext.1.1
    have some : line ++ lines.flatten ≠ [] := by
      obtain ⟨form, -, rfl⟩ := hline
      simp
    rw [List.flatten_cons, settingsFrom_of_line (line?_of_writes hkey hline _) some hnew,
      ih hbare hnext, List.reverse_cons, List.append_assoc]
    rfl

/-- **A written document is read as the settings that it was written for**, in their order. -/
theorem settings_of_writes {written : List (String × Value)} {document : String}
    (h : Writes written document) (hbare : ∀ setting ∈ written, IsBareKey setting.1)
    (hkeys : (written.map Prod.fst).Nodup) : settings document = .ok written := by
  obtain ⟨lines, hlines, htext⟩ := h
  -- a document begins with a key, so there is no byte order mark to drop
  have unmarked : ∀ rest, lines.flatten ≠ '\uFEFF' :: rest := by
    intro rest heq
    cases hlines with
    | nil => cases heq
    | @cons setting line written lines hline _ =>
      obtain ⟨form, -, rfl⟩ := hline
      obtain ⟨c, name, hname, bare⟩ := (hbare setting List.mem_cons_self).eq_cons
      rw [hname] at heq
      exact cons_ne_of_isBareKeyChar bare rfl _ _ heq
  have read : settingsFrom [] lines.flatten = .ok written :=
    settingsFrom_of_writes hlines hbare hkeys
  rw [settings, htext]
  split
  · next heq => exact absurd heq (unmarked _)
  · exact read

end DataInlay.Toml
