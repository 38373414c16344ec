/-
# DataInlay.Comment.Span — a line as a sequence of spans

A line is read from left to right as spans of six kinds: quoted text, closed or
running to the end of the line; a line comment; a block comment, closed or
running to the end of the line; and single plain bytes. Either quote character
opens quoted text and only the same one closes it; nothing escapes it, and no
comment starts inside. A block comment closes at the first `*/` behind its
opener, so the star of the opener is no half of a close and `/*/` stays open.

`spans` is that reading. Nothing is lost by it: the texts of the spans, put
together, are the line (`spans_text`).
-/
import DataInlay.Bytes

namespace DataInlay

/-! ## Spans -/

/-- The two characters that open and close quoted text. -/
inductive Quote
  | double
  | single
  deriving DecidableEq, Repr

namespace Quote

/-- The character itself. -/
def byte : Quote → UInt8
  | double => Ascii.doubleQuote
  | single => Ascii.singleQuote

/-- The quote that a byte is, if it is one. -/
def ofByte? (b : UInt8) : Option Quote :=
  if b = Ascii.doubleQuote then some double
  else if b = Ascii.singleQuote then some single
  else none

theorem ofByte?_eq_some_iff {b : UInt8} {q : Quote} : ofByte? b = some q ↔ b = q.byte := by
  have differ : Ascii.doubleQuote ≠ Ascii.singleQuote := by decide
  unfold ofByte?
  split
  · cases q <;> simp_all [byte]
  · split <;> cases q <;> simp_all [byte]

end Quote

/-- The byte opens or closes quoted text. -/
def isQuote (b : UInt8) : Bool := (Quote.ofByte? b).isSome

/-- A stretch of a line, in the left-to-right reading. -/
inductive Span
  /-- Quoted text with its closing quote. -/
  | quoted (quote : Quote) (body : Bytes)
  /-- Quoted text that the line ends inside. -/
  | unclosedQuoted (quote : Quote) (body : Bytes)
  /-- A comment up to the end of the line. -/
  | lineComment (body : Bytes)
  /-- A block comment with its closing delimiter. -/
  | blockComment (body : Bytes)
  /-- A block comment that the line ends inside. -/
  | unclosedBlockComment (body : Bytes)
  /-- A byte that is part of none of these. -/
  | plain (byte : UInt8)
  deriving DecidableEq, Repr

/-- The opening of a line comment. -/
def lineCommentOpen : Bytes := [Ascii.slash, Ascii.slash]

/-- The opening of a block comment. -/
def blockCommentOpen : Bytes := [Ascii.slash, Ascii.star]

/-- The close of a block comment. -/
def blockCommentClose : Bytes := [Ascii.star, Ascii.slash]

namespace Span

/-- The bytes of the line that the span covers. -/
def text : Span → Bytes
  | quoted q body => q.byte :: body ++ [q.byte]
  | unclosedQuoted q body => q.byte :: body
  | lineComment body => lineCommentOpen ++ body
  | blockComment body => blockCommentOpen ++ body ++ blockCommentClose
  | unclosedBlockComment body => blockCommentOpen ++ body
  | plain b => [b]

theorem text_ne_nil (part : Span) : part.text ≠ [] := by
  cases part <;> simp [text, lineCommentOpen, blockCommentOpen]

/-- The span is a comment of either kind. -/
def isComment : Span → Bool
  | lineComment _ | blockComment _ | unclosedBlockComment _ => true
  | quoted .. | unclosedQuoted .. | plain _ => false

/-- Splits text at the first close of a block comment: what stands before the
close, and what follows it. The bytes already passed are kept last first. -/
def splitAtClose (passed : Bytes) : Bytes → Option (Bytes × Bytes)
  | Ascii.star :: Ascii.slash :: rest => some (passed.reverse, rest)
  | b :: rest => splitAtClose (b :: passed) rest
  | [] => none

theorem splitAtClose_eq_some {passed s body rest : Bytes}
    (h : splitAtClose passed s = some (body, rest)) :
    passed.reverse ++ s = body ++ blockCommentClose ++ rest := by
  fun_induction splitAtClose passed s with
  | case1 passed tail =>
    simp only [Option.some.injEq, Prod.mk.injEq] at h
    obtain ⟨rfl, rfl⟩ := h
    simp [blockCommentClose]
  | case2 passed b tail _ ih => simpa using ih h
  | case3 => simp at h

/-- The span that starts with `b`, with `rest` behind it on the line, and what
the span leaves of `rest`. -/
def leading (b : UInt8) (rest : Bytes) : Span × Bytes :=
  match Quote.ofByte? b with
  | some q =>
    match rest.dropWhile (· != q.byte) with
    | _ :: tail => (quoted q (rest.takeWhile (· != q.byte)), tail)
    | [] => (unclosedQuoted q rest, [])
  | none =>
    if b = Ascii.slash then
      match rest with
      | Ascii.slash :: body => (lineComment body, [])
      | Ascii.star :: inner =>
        match splitAtClose [] inner with
        | some (body, tail) => (blockComment body, tail)
        | none => (unclosedBlockComment inner, [])
      | _ => (plain b, rest)
    else (plain b, rest)

/-- The leading span and what it leaves are the line, in this order. -/
theorem leading_text (b : UInt8) (rest : Bytes) :
    (leading b rest).1.text ++ (leading b rest).2 = b :: rest := by
  unfold leading
  split
  · rename_i q hq
    have hb := Quote.ofByte?_eq_some_iff.mp hq
    have whole := List.takeWhile_append_dropWhile (p := (· != q.byte)) (l := rest)
    split
    · rename_i c tail hdrop
      have hc : c = q.byte := by
        have := List.head?_dropWhile_not (· != q.byte) rest
        simpa [hdrop] using this
      subst hc
      simp [text, hb, ← hdrop, whole]
    · simp [text, hb]
  · split
    · rename_i hslash
      split
      · simp [text, lineCommentOpen, hslash]
      · split
        · rename_i inner _ body tail h
          have := splitAtClose_eq_some h
          simp only [List.reverse_nil, List.nil_append] at this
          simp [text, blockCommentOpen, hslash, this]
        · simp [text, blockCommentOpen, hslash]
      · simp [text]
    · simp [text]

theorem leading_length_le (b : UInt8) (rest : Bytes) :
    (leading b rest).2.length ≤ rest.length := by
  have h := congrArg List.length (leading_text b rest)
  have pos := List.length_pos_iff.mpr (leading b rest).1.text_ne_nil
  simp only [List.length_append, List.length_cons] at h
  omega

end Span

/-! ## The reading of a line -/

/-- The spans of a line behind those already read, which come last first. -/
def spansFrom (read : List Span) : Bytes → List Span
  | [] => read.reverse
  | b :: rest => spansFrom ((Span.leading b rest).1 :: read) (Span.leading b rest).2
  termination_by line => line.length
  decreasing_by
    have := Span.leading_length_le b rest
    simp only [List.length_cons]
    omega

/-- The spans of a line, from left to right. -/
def spans (line : Bytes) : List Span := spansFrom [] line

theorem spansFrom_eq (read : List Span) (line : Bytes) :
    spansFrom read line = read.reverse ++ spans line := by
  have general : ∀ (line : Bytes) (read : List Span),
      spansFrom read line = read.reverse ++ spansFrom [] line := by
    intro line
    induction h : line.length using Nat.strongRecOn generalizing line with
    | _ n ih =>
      intro read
      cases line with
      | nil => simp [spansFrom]
      | cons b rest =>
        have shorter : (Span.leading b rest).2.length < n := by
          have := Span.leading_length_le b rest
          simp only [List.length_cons] at h
          omega
        rw [spansFrom, spansFrom, ih _ shorter _ rfl, ih _ shorter _ rfl [_]]
        simp
  exact general line read

@[simp] theorem spans_nil : spans [] = [] := by simp [spans, spansFrom]

/-- The reading takes the leading span and goes on with what it leaves. -/
theorem spans_cons (b : UInt8) (rest : Bytes) :
    spans (b :: rest) = (Span.leading b rest).1 :: spans (Span.leading b rest).2 := by
  rw [spans, spansFrom, spansFrom_eq]
  simp

/-- Nothing is lost and nothing is added: the spans' texts are the line. -/
theorem spans_text (line : Bytes) : (spans line).flatMap Span.text = line := by
  induction h : line.length using Nat.strongRecOn generalizing line with
  | _ n ih =>
    cases line with
    | nil => simp
    | cons b rest =>
      have shorter : (Span.leading b rest).2.length < n := by
        have := Span.leading_length_le b rest
        simp only [List.length_cons] at h
        omega
      rw [spans_cons, List.flatMap_cons, ih _ shorter _ rfl, Span.leading_text]

end DataInlay
