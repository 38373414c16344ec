/-
# DataInlay.Toml.Document — flat TOML documents

A flat document is a list of `key = value` lines, with blank lines and comments
between them and a comment behind a value. Its values are strings and integers.
Tables, arrays, dotted keys and values of other types are well-formed TOML but no
part of a flat document, and are refused like text that is no TOML at all: a reader
of flat documents has no use for them in any place where they could stand.

Reading is by lines, except that a string may run over several. A byte order mark
in front of the document does not count. A key may be written bare or as a string
on one line, and must not be given twice.
-/
import DataInlay.Toml.Integer

namespace DataInlay.Toml

/-- The values of flat documents. -/
inductive Value
  | text (s : String)
  | integer (n : Int)
  deriving DecidableEq

/-- Why a text is no flat document. -/
inductive Problem
  /-- The line has no meaning. -/
  | malformed (line : String)
  /-- The key is given twice. -/
  | repeated (key : String)
  deriving DecidableEq

/-! ## Keys and values -/

/-- The character may stand in a bare key. -/
def isBareKeyChar (c : Char) : Bool :=
  ('a' ≤ c && c ≤ 'z') || ('A' ≤ c && c ≤ 'Z') || ('0' ≤ c && c ≤ '9') || c == '_' || c == '-'

/-- Reads a key, bare or quoted on one line. -/
def key? (s : List Char) : Option (String × List Char) :=
  match s with
  | '"' :: rest => basicText? [] rest
  | '\'' :: rest => literalText? [] rest
  | _ =>
    match s.takeWhile isBareKeyChar with
    | [] => none
    | name => some (String.ofList name, s.dropWhile isBareKeyChar)

/-- The character ends a value that is not quoted. -/
def endsValue (c : Char) : Bool := isSpace c || c == '\n' || c == '\r' || c == '#'

/-- Reads a value. -/
def value? (s : List Char) : Option (Value × List Char) :=
  match s with
  | '"' :: _ | '\'' :: _ => (text? s).map fun taken => (.text taken.1, taken.2)
  | _ => (integer? (s.takeWhile (!endsValue ·))).map fun n =>
      (.integer n, s.dropWhile (!endsValue ·))

/-! ## Lines -/

/-- Drops blanks at the head. -/
def skipSpaces (s : List Char) : List Char := s.dropWhile isSpace

/-- Drops a comment at the head. -/
def skipComment : List Char → List Char
  | '#' :: comment => comment.dropWhile isTextChar
  | s => s

/-- Reads a line break, or the end of the document; returns the lines that follow. -/
def lineBreak? (s : List Char) : Option (List Char) :=
  if s = [] then some [] else (newline? s).map (·.2)

/-- Reads blanks, a comment if there is one, and the end of the line. -/
def endOfLine? (s : List Char) : Option (List Char) := lineBreak? (skipComment (skipSpaces s))

/-- Reads a `key = value` up to the end of the value. -/
def setting? (s : List Char) : Option ((String × Value) × List Char) :=
  (key? s).bind fun key =>
    match skipSpaces key.2 with
    | '=' :: rest => (value? (skipSpaces rest)).map fun value => ((key.1, value.1), value.2)
    | _ => none

/-- Reads a line: the setting on it, if it holds one, and the lines that follow. -/
def line? (s : List Char) : Option (Option (String × Value) × List Char) :=
  match endOfLine? s with
  | some rest => some (none, rest)
  | none =>
    (setting? (skipSpaces s)).bind fun setting =>
      (endOfLine? setting.2).map fun rest => (some setting.1, rest)

/-! ### Every line takes something -/

theorem key?_length {s rest : List Char} {key : String} (h : key? s = some (key, rest)) :
    rest.length ≤ s.length := by
  unfold key? at h
  split at h
  · have := basicText?_length h
    simp only [List.length_cons]
    omega
  · have := literalText?_length h
    simp only [List.length_cons]
    omega
  · split at h
    · simp at h
    · simp only [Option.some.injEq, Prod.mk.injEq] at h
      simpa [← h.2] using (List.dropWhile_sublist isBareKeyChar (l := s)).length_le

theorem value?_length {s rest : List Char} {value : Value} (h : value? s = some (value, rest)) :
    rest.length ≤ s.length := by
  unfold value? at h
  split at h
  · obtain ⟨⟨_, after⟩, ht, he⟩ := Option.map_eq_some_iff.mp h
    simp only [Prod.mk.injEq] at he
    have := text?_length ht
    rw [← he.2]
    omega
  · obtain ⟨⟨_, after⟩, ht, he⟩ := Option.map_eq_some_iff.mp h
    simp only [Prod.mk.injEq] at he
    have := text?_length ht
    rw [← he.2]
    omega
  · obtain ⟨_, _, he⟩ := Option.map_eq_some_iff.mp h
    simp only [Prod.mk.injEq] at he
    simpa [← he.2] using (List.dropWhile_sublist (!endsValue ·) (l := s)).length_le

theorem skipSpaces_length (s : List Char) : (skipSpaces s).length ≤ s.length :=
  (List.dropWhile_sublist isSpace (l := s)).length_le

theorem skipComment_length (s : List Char) : (skipComment s).length ≤ s.length := by
  unfold skipComment
  split
  · rename_i comment
    have := (List.dropWhile_sublist isTextChar (l := comment)).length_le
    simp only [List.length_cons]
    omega
  · exact Nat.le_refl _

theorem lineBreak?_length {s rest : List Char} (h : lineBreak? s = some rest) :
    rest = [] ∨ rest.length < s.length := by
  unfold lineBreak? at h
  split at h
  · exact .inl (by simpa using h.symm)
  · obtain ⟨⟨_, after⟩, hn, he⟩ := Option.map_eq_some_iff.mp h
    rw [← he]
    exact .inr (newline?_length hn)

theorem endOfLine?_length {s rest : List Char} (h : endOfLine? s = some rest) :
    rest = [] ∨ rest.length < s.length := by
  have := skipSpaces_length s
  have := skipComment_length (skipSpaces s)
  cases lineBreak?_length h with
  | inl done => exact .inl done
  | inr shorter => exact .inr (by omega)

theorem setting?_length {s rest : List Char} {setting : String × Value}
    (h : setting? s = some (setting, rest)) : rest.length < s.length := by
  obtain ⟨⟨key, behind⟩, hk, h⟩ := Option.bind_eq_some_iff.mp h
  have := key?_length hk
  have := skipSpaces_length behind
  simp only at h
  split at h
  · rename_i after hs
    obtain ⟨⟨value, last⟩, hv, he⟩ := Option.map_eq_some_iff.mp h
    simp only [Prod.mk.injEq] at he
    have := value?_length hv
    have := skipSpaces_length after
    have := congrArg List.length hs
    simp only [List.length_cons] at this
    rw [← he.2]
    omega
  · simp at h

theorem line?_length {s rest : List Char} {setting : Option (String × Value)}
    (h : line? s = some (setting, rest)) (hs : s ≠ []) : rest.length < s.length := by
  have positive := List.length_pos_iff.mpr hs
  unfold line? at h
  split at h
  · rename_i he
    simp only [Option.some.injEq, Prod.mk.injEq] at h
    rw [← h.2]
    cases endOfLine?_length he with
    | inl done => simpa [done] using positive
    | inr shorter => exact shorter
  · obtain ⟨⟨found, behind⟩, hf, h⟩ := Option.bind_eq_some_iff.mp h
    obtain ⟨after, he, h⟩ := Option.map_eq_some_iff.mp h
    simp only [Prod.mk.injEq] at h he
    have := setting?_length hf
    have := skipSpaces_length s
    rw [← h.2]
    cases endOfLine?_length he with
    | inl done => simpa [done] using positive
    | inr shorter => omega

/-! ## Documents -/

/-- Reads the lines of a document; the settings so far come last first. -/
def settingsFrom (read : List (String × Value)) (s : List Char) :
    Except Problem (List (String × Value)) :=
  if _hs : s = [] then .ok read.reverse
  else match _hl : line? s with
    | none => .error (.malformed (String.ofList (s.takeWhile (· != '\n'))))
    | some (none, rest) => settingsFrom read rest
    | some (some (key, value), rest) =>
      if read.any (·.1 == key) then .error (.repeated key)
      else settingsFrom ((key, value) :: read) rest
  termination_by s.length
  decreasing_by
    · exact line?_length _hl _hs
    · exact line?_length _hl _hs

/-- The settings of a flat document, in order. -/
def settings (document : String) : Except Problem (List (String × Value)) :=
  match document.toList with
  | '\uFEFF' :: rest => settingsFrom [] rest
  | s => settingsFrom [] s

end DataInlay.Toml
