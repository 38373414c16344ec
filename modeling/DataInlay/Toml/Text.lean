/-
# DataInlay.Toml.Text — strings in TOML

TOML writes a string in four ways. Basic strings stand between double quotes and
know escapes; literal strings stand between single quotes and know none. Either
has a form between triple quotes that may run over several lines: a line break
right behind the opening does not count, up to two quotes may touch the closing
from inside, and in the basic form a backslash at the end of a line takes all
blanks and line breaks up to the next character with it.

No form admits control characters other than the tab, and line breaks, LF or CRLF,
stand only in the forms between triple quotes. Each reader returns the text and
what follows it.
-/

namespace DataInlay.Toml

/-- The character may stand in a string or a comment as it is. -/
def isTextChar (c : Char) : Bool := c == '\t' || (' ' ≤ c && c != '\x7f')

/-- The blanks of TOML. -/
def isSpace (c : Char) : Bool := c == ' ' || c == '\t'

/-- A line break at the head, and what follows it. A carriage return counts only
together with its line feed. -/
def newline? : List Char → Option (List Char × List Char)
  | '\n' :: rest => some (['\n'], rest)
  | '\r' :: '\n' :: rest => some (['\r', '\n'], rest)
  | _ => none

/-! ## Escapes -/

/-- The value of a digit in a base of at most sixteen, in either case. -/
def digit? (base : Nat) (c : Char) : Option Nat :=
  let value :=
    if '0' ≤ c ∧ c ≤ '9' then c.toNat - '0'.toNat
    else if 'a' ≤ c ∧ c ≤ 'f' then c.toNat - 'a'.toNat + 10
    else if 'A' ≤ c ∧ c ≤ 'F' then c.toNat - 'A'.toNat + 10
    else base
  if value < base then some value else none

/-- The value of a run of hexadecimal digits, behind a value already read. -/
def hexValue? (value : Nat) : List Char → Option Nat
  | [] => some value
  | c :: rest => (digit? 16 c).bind fun d => hexValue? (value * 16 + d) rest

/-- The character with a code, which is no surrogate and not too large. -/
def charOfCode? (code : Nat) : Option Char :=
  if code.isValidChar then some (Char.ofNat code) else none

/-- The character whose code the next `count` hexadecimal digits give. -/
def numericEscape? (count : Nat) (s : List Char) : Option (Char × List Char) :=
  if count ≤ s.length then
    ((hexValue? 0 (s.take count)).bind charOfCode?).map fun c => (c, s.drop count)
  else none

/-- The character that a letter behind a backslash stands for. -/
def namedEscape? : Char → Option Char
  | 'b' => some '\x08'
  | 't' => some '\t'
  | 'n' => some '\n'
  | 'f' => some '\x0c'
  | 'r' => some '\r'
  | 'e' => some '\x1b'
  | '"' => some '"'
  | '\\' => some '\\'
  | _ => none

/-- How many digits of a code follow a letter behind a backslash. -/
def codeDigits? : Char → Option Nat
  | 'x' => some 2
  | 'u' => some 4
  | 'U' => some 8
  | _ => none

/-- Reads an escape behind its backslash. -/
def escape? : List Char → Option (Char × List Char)
  | [] => none
  | letter :: rest =>
    match namedEscape? letter, codeDigits? letter with
    | some c, _ => some (c, rest)
    | none, some count => numericEscape? count rest
    | none, none => none

theorem numericEscape?_length {count : Nat} {s rest : List Char} {c : Char}
    (h : numericEscape? count s = some (c, rest)) : rest.length ≤ s.length := by
  unfold numericEscape? at h
  split at h
  · obtain ⟨_, _, he⟩ := Option.map_eq_some_iff.mp h
    simp only [Prod.mk.injEq] at he
    simp [← he.2]
  · simp at h

theorem escape?_length {s rest : List Char} {c : Char} (h : escape? s = some (c, rest)) :
    rest.length < s.length := by
  unfold escape? at h
  split at h
  · simp at h
  · split at h
    · simp only [Option.some.injEq, Prod.mk.injEq] at h
      simp [← h.2]
    · have := numericEscape?_length h
      simp only [List.length_cons]
      omega
    · simp at h

/-! ## Strings on one line -/

/-- Reads a basic string behind its opening quote; `read` is its text so far, last first. -/
def basicText? (read : List Char) (s : List Char) : Option (String × List Char) :=
  match s with
  | '"' :: rest => some (String.ofList read.reverse, rest)
  | '\\' :: rest =>
    match _h : escape? rest with
    | some (c, after) => basicText? (c :: read) after
    | none => none
  | c :: rest => if isTextChar c then basicText? (c :: read) rest else none
  | [] => none
  termination_by s.length
  decreasing_by
    · have := escape?_length _h
      simp only [List.length_cons]
      omega
    · simp

theorem basicText?_length {read s rest : List Char} {text : String}
    (h : basicText? read s = some (text, rest)) : rest.length < s.length := by
  fun_induction basicText? read s with
  | case1 read after => simp only [Option.some.injEq, Prod.mk.injEq] at h; simp [← h.2]
  | case2 read after c tail he ih =>
    have := escape?_length he
    have := ih h
    simp only [List.length_cons]
    omega
  | case3 => simp at h
  | case4 read c after _ _ _ ih =>
    have := ih h
    simp only [List.length_cons]
    omega
  | case5 => simp at h
  | case6 => simp at h

/-- Reads a literal string behind its opening quote. -/
def literalText? (read : List Char) : List Char → Option (String × List Char)
  | '\'' :: rest => some (String.ofList read.reverse, rest)
  | c :: rest => if isTextChar c then literalText? (c :: read) rest else none
  | [] => none

theorem literalText?_length {read s rest : List Char} {text : String}
    (h : literalText? read s = some (text, rest)) : rest.length < s.length := by
  fun_induction literalText? read s with
  | case1 read after => simp only [Option.some.injEq, Prod.mk.injEq] at h; simp [← h.2]
  | case2 read c after _ _ ih =>
    have := ih h
    simp only [List.length_cons]
    omega
  | case3 => simp at h
  | case4 => simp at h

/-! ## Strings on several lines -/

/-- The closing triple quote at the head: the quotes in front of it that belong to
the text, two at most, and what follows it. -/
def closing? (quote : Char) (s : List Char) : Option (List Char × List Char) :=
  if [quote, quote, quote].isPrefixOf s then
    let inner := ((s.drop 3).take 2).takeWhile (· == quote)
    some (inner, s.drop (3 + inner.length))
  else none

theorem closing?_length {quote : Char} {s inner rest : List Char}
    (h : closing? quote s = some (inner, rest)) : rest.length < s.length := by
  unfold closing? at h
  split at h
  · rename_i whole
    have three := (List.isPrefixOf_iff_prefix.mp whole).length_le
    simp only [Option.some.injEq, Prod.mk.injEq] at h
    simp only [List.length_cons, List.length_nil] at three
    simp only [← h.2, List.length_drop]
    omega
  · simp at h

/-- Drops blanks and line breaks. -/
def skipBlankLines : List Char → List Char
  | ' ' :: rest => skipBlankLines rest
  | '\t' :: rest => skipBlankLines rest
  | '\n' :: rest => skipBlankLines rest
  | '\r' :: '\n' :: rest => skipBlankLines rest
  | rest => rest

theorem skipBlankLines_length (s : List Char) : (skipBlankLines s).length ≤ s.length := by
  fun_induction skipBlankLines s <;> simp_all <;> omega

/-- What follows a backslash at the end of a line, with all that the backslash takes. -/
def continued? (s : List Char) : Option (List Char) :=
  (newline? (s.dropWhile isSpace)).map fun taken => skipBlankLines taken.2

theorem newline?_length {s taken rest : List Char} (h : newline? s = some (taken, rest)) :
    rest.length < s.length := by
  unfold newline? at h
  split at h <;> simp at h
  · simp [← h.2]
  · simp only [← h.2, List.length_cons]; omega

theorem continued?_length {s rest : List Char} (h : continued? s = some rest) :
    rest.length < s.length := by
  obtain ⟨⟨taken, after⟩, hn, rfl⟩ := Option.map_eq_some_iff.mp h
  have := newline?_length hn
  have := skipBlankLines_length after
  have := (List.dropWhile_sublist isSpace (l := s)).length_le
  simp only
  omega

/-- Reads a basic string on several lines, behind its opening. -/
def basicLines? (read : List Char) (s : List Char) : Option (String × List Char) :=
  match closing? '"' s with
  | some (inner, rest) => some (String.ofList (read.reverse ++ inner), rest)
  | none =>
    match _hn : newline? s with
    | some (taken, rest) => basicLines? (taken.reverse ++ read) rest
    | none =>
      match s with
      | c :: rest =>
        if c = '\\' then
          match _hc : continued? rest with
          | some after => basicLines? read after
          | none =>
            match _he : escape? rest with
            | some (c, after) => basicLines? (c :: read) after
            | none => none
        else if isTextChar c then basicLines? (c :: read) rest
        else none
      | [] => none
  termination_by s.length
  decreasing_by
    · exact newline?_length _hn
    · have := continued?_length _hc
      simp only [List.length_cons]
      omega
    · have := escape?_length _he
      simp only [List.length_cons]
      omega
    · simp

theorem basicLines?_length {read s rest : List Char} {text : String}
    (h : basicLines? read s = some (text, rest)) : rest.length < s.length := by
  fun_induction basicLines? read s with
  | case1 read s inner after hc =>
    simp only [Option.some.injEq, Prod.mk.injEq] at h
    simpa [← h.2] using closing?_length hc
  | case2 read s _ taken after hn ih => have := newline?_length hn; have := ih h; omega
  | case3 read tail after hc _ _ ih =>
    have := continued?_length hc
    have := ih h
    simp only [List.length_cons]
    omega
  | case4 read tail _ c after he _ _ ih =>
    have := escape?_length he
    have := ih h
    simp only [List.length_cons]
    omega
  | case5 => simp at h
  | case6 read c tail _ _ _ _ ih =>
    have := ih h
    simp only [List.length_cons]
    omega
  | case7 => simp at h
  | case8 => simp at h

/-- Reads a literal string on several lines, behind its opening. -/
def literalLines? (read : List Char) (s : List Char) : Option (String × List Char) :=
  match closing? '\'' s with
  | some (inner, rest) => some (String.ofList (read.reverse ++ inner), rest)
  | none =>
    match _hn : newline? s with
    | some (taken, rest) => literalLines? (taken.reverse ++ read) rest
    | none =>
      match s with
      | c :: rest => if isTextChar c then literalLines? (c :: read) rest else none
      | [] => none
  termination_by s.length
  decreasing_by
    · exact newline?_length _hn
    · simp

theorem literalLines?_length {read s rest : List Char} {text : String}
    (h : literalLines? read s = some (text, rest)) : rest.length < s.length := by
  fun_induction literalLines? read s with
  | case1 read s inner after hc =>
    simp only [Option.some.injEq, Prod.mk.injEq] at h
    simpa [← h.2] using closing?_length hc
  | case2 read s _ taken after hn ih => have := newline?_length hn; have := ih h; omega
  | case3 read c tail _ _ _ ih =>
    have := ih h
    simp only [List.length_cons]
    omega
  | case4 => simp at h
  | case5 => simp at h

/-- Drops a line break at the head. -/
def dropNewline (s : List Char) : List Char :=
  match newline? s with
  | some (_, rest) => rest
  | none => s

theorem dropNewline_length (s : List Char) : (dropNewline s).length ≤ s.length := by
  unfold dropNewline
  split
  · rename_i h
    have := newline?_length h
    omega
  · omega

/-- Reads a string in any of the four forms. -/
def text? : List Char → Option (String × List Char)
  | '"' :: '"' :: '"' :: rest => basicLines? [] (dropNewline rest)
  | '"' :: rest => basicText? [] rest
  | '\'' :: '\'' :: '\'' :: rest => literalLines? [] (dropNewline rest)
  | '\'' :: rest => literalText? [] rest
  | _ => none

theorem text?_length {s rest : List Char} {text : String} (h : text? s = some (text, rest)) :
    rest.length < s.length := by
  unfold text? at h
  split at h
  · rename_i after
    have := basicLines?_length h
    have := dropNewline_length after
    simp only [List.length_cons]
    omega
  · have := basicText?_length h
    simp only [List.length_cons]
    omega
  · rename_i after
    have := literalLines?_length h
    have := dropNewline_length after
    simp only [List.length_cons]
    omega
  · have := literalText?_length h
    simp only [List.length_cons]
    omega
  · simp at h

end DataInlay.Toml
