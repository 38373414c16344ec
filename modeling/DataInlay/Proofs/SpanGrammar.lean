/-
# DataInlay.Proofs.SpanGrammar — the spans of a line as a grammar

`spans` is a scan: it looks ahead for the quote or the `*/` that ends a span and
goes on behind it. This file says without any scanning which sequences of spans make
up a line. A span `Fits` the text behind it by conditions on its body and on that
text alone, and a `Reading` of a line is a sequence of fitting spans whose texts, put
together, are the line.

Every line has exactly one reading, and it is the one that the scan finds: the scan's
spans fit (`reading_spans`), and a fitting span is what the scan finds at its place
(`leading_of_fits`), so no other reading is possible.
-/
import Mathlib.Data.List.TakeWhile
import Mathlib.Logic.ExistsUnique
import DataInlay.Comment.Strip

namespace DataInlay

/-! ## The grammar -/

/-- The close of a block comment that follows `body` is the first close there is, even
when the last byte of `body` and the first of the close are taken together. -/
def ClosesFirstBehind (body : Bytes) : Prop :=
  ∀ before after, body ++ blockCommentClose = before ++ blockCommentClose ++ after → after = []

namespace Span

/-- The span is one of the grammar, with `rest` behind it on the line. -/
def Fits (rest : Bytes) : Span → Prop
  | quoted q body => q.byte ∉ body
  | unclosedQuoted q body => q.byte ∉ body ∧ rest = []
  | lineComment _ => rest = []
  | blockComment body => ClosesFirstBehind body
  | unclosedBlockComment body => ¬ blockCommentClose <:+: body ∧ rest = []
  | plain b =>
    isQuote b = false
      ∧ ¬ (b = Ascii.slash ∧ (rest.head? = some Ascii.slash ∨ rest.head? = some Ascii.star))

end Span

/-- The spans are a reading of the line: each fits what follows it, and their texts are
the line. -/
inductive Reading : Bytes → List Span → Prop
  | nil : Reading [] []
  | cons {part : Span} {rest : Bytes} {parts : List Span} :
      part.Fits rest → Reading rest parts → Reading (part.text ++ rest) (part :: parts)

/-! ## The first close of a block comment -/

/-- A close is the first one exactly when none ends before the last byte. -/
theorem closesFirstBehind_iff {body : Bytes} :
    ClosesFirstBehind body ↔ ¬ blockCommentClose <:+: body ++ [Ascii.star] := by
  have last : body ++ blockCommentClose = body ++ [Ascii.star] ++ [Ascii.slash] := by
    simp [blockCommentClose]
  constructor
  · rintro first ⟨before, after, h⟩
    have := first before (after ++ [Ascii.slash]) (by rw [last, ← h]; simp)
    simp at this
  · intro none before after h
    rcases List.eq_nil_or_concat after with rfl | ⟨shorter, b, rfl⟩
    · rfl
    · rw [last, List.concat_eq_append, ← List.append_assoc] at h
      exact absurd ⟨before, shorter, (List.append_inj_left' h rfl).symm⟩ none

theorem close_infix_cons {b : UInt8} {s : Bytes} :
    blockCommentClose <:+: b :: s ↔
      (b = Ascii.star ∧ s.head? = some Ascii.slash) ∨ blockCommentClose <:+: s := by
  rw [List.infix_cons_iff, blockCommentClose, List.cons_prefix_cons]
  cases s with
  | nil => simp
  | cons c s => simp [eq_comm]

namespace Span

/-- The search stops at a close that it meets. -/
theorem splitAtClose_close (passed rest : Bytes) :
    splitAtClose passed (blockCommentClose ++ rest) = some (passed.reverse, rest) := rfl

/-- Bytes that open no close are passed, and stand in front of what the search finds. -/
theorem splitAtClose_cons {b : UInt8} {s : Bytes}
    (h : ¬ (b = Ascii.star ∧ s.head? = some Ascii.slash)) (passed : Bytes) :
    splitAtClose passed (b :: s) = splitAtClose (b :: passed) s := by
  rw [splitAtClose]
  rintro rest rfl rfl
  exact h ⟨rfl, rfl⟩

/-- The search fails exactly in text without a close. -/
theorem splitAtClose_eq_none_iff {passed s : Bytes} :
    splitAtClose passed s = none ↔ ¬ blockCommentClose <:+: s := by
  fun_induction splitAtClose passed s with
  | case1 passed tail => simp [close_infix_cons]
  | case2 passed b s noClose ih =>
    rw [ih, close_infix_cons, not_or]
    refine ⟨fun none => ⟨?_, none⟩, And.right⟩
    intro opens
    rcases opens with ⟨rfl, hhead⟩
    cases s with
    | nil => simp at hhead
    | cons c s => exact noClose s rfl (by simpa using hhead)
  | case3 => simp [blockCommentClose]

/-- The search stops at a close that is the first one. -/
theorem splitAtClose_of_first {body : Bytes} (h : ClosesFirstBehind body) (passed rest : Bytes) :
    splitAtClose passed (body ++ blockCommentClose ++ rest) = some (passed.reverse ++ body, rest) := by
  rw [closesFirstBehind_iff] at h
  induction body generalizing passed with
  | nil => rw [List.nil_append, splitAtClose_close, List.append_nil]
  | cons b body ih =>
    rw [List.cons_append, close_infix_cons, not_or] at h
    have unclosed : ¬ (b = Ascii.star
        ∧ (body ++ blockCommentClose ++ rest).head? = some Ascii.slash) := by
      intro opens
      rcases opens with ⟨rfl, hhead⟩
      refine h.1 ⟨rfl, ?_⟩
      cases body <;> simpa [blockCommentClose] using hhead
    rw [List.cons_append, List.cons_append, splitAtClose_cons unclosed, ih h.2]
    simp

/-- What the search finds is the first close: the text before it is what was passed and a
body behind which that close comes first. -/
theorem splitAtClose_first {passed s body rest : Bytes} (h : splitAtClose passed s = some (body, rest)) :
    ∃ between, body = passed.reverse ++ between ∧ s = between ++ blockCommentClose ++ rest
      ∧ ClosesFirstBehind between := by
  simp only [closesFirstBehind_iff]
  fun_induction splitAtClose passed s with
  | case1 passed tail =>
    simp only [Option.some.injEq, Prod.mk.injEq] at h
    rcases h with ⟨rfl, rfl⟩
    exact ⟨[], by simp, by simp [blockCommentClose], by decide⟩
  | case2 passed b s noClose ih =>
    obtain ⟨between, rfl, rfl, first⟩ := ih h
    refine ⟨b :: between, by simp, by simp, ?_⟩
    rw [List.cons_append, close_infix_cons, not_or]
    refine ⟨?_, first⟩
    intro opens
    rcases opens with ⟨rfl, hhead⟩
    -- the byte behind the star is the same with and without the text after the close
    cases between with
    | nil => exact absurd hhead (by decide)
    | cons c between =>
      rw [List.cons_append, List.head?_cons, Option.some.injEq] at hhead
      exact noClose (between ++ blockCommentClose ++ rest) rfl (by rw [hhead]; rfl)
  | case3 => simp at h

/-! ## The scan finds a reading -/

/-- The scan's span at a place is one that fits what follows it. -/
theorem leading_fits (b : UInt8) (rest : Bytes) : (leading b rest).1.Fits (leading b rest).2 := by
  unfold leading
  split
  · next q hq =>
    split
    · next c tail hdrop =>
      intro mem
      simpa using List.mem_takeWhile_imp mem
    · next hdrop =>
      refine ⟨?_, rfl⟩
      intro mem
      have := List.dropWhile_eq_nil_iff.mp hdrop _ mem
      simp at this
  · next hq =>
    have plainByte : isQuote b = false := by simp [isQuote, hq]
    split
    · split
      · rfl
      · split
        · next inner body tail h =>
          obtain ⟨between, rfl, -, first⟩ := splitAtClose_first h
          simpa [Fits] using first
        · next inner h => exact ⟨splitAtClose_eq_none_iff.mp h, rfl⟩
      · next noLine noBlock =>
        -- a slash is plain when neither opener matched
        refine ⟨plainByte, ?_⟩
        intro opens
        rcases opens with ⟨-, hslash | hstar⟩
        · cases rest with
          | nil => simp at hslash
          | cons c rest => exact noLine rest (by simpa using hslash)
        · cases rest with
          | nil => simp at hstar
          | cons c rest => exact noBlock rest (by simpa using hstar)
    · next hslash => exact ⟨plainByte, fun both => hslash both.1⟩

/-- Behind the opening of a block comment, the search for a close decides the span. -/
theorem leading_blockOpen (inner : Bytes) :
    leading Ascii.slash (Ascii.star :: inner) =
      (splitAtClose [] inner).elim (unclosedBlockComment inner, [])
        fun found => (blockComment found.1, found.2) := by
  unfold leading
  rw [show Quote.ofByte? Ascii.slash = none from rfl]
  dsimp only
  rw [if_pos rfl]
  split
  · next h => exact absurd (List.cons.inj h).1 (by decide)
  · next h =>
    obtain rfl := (List.cons.inj h).2
    cases splitAtClose [] inner <;> rfl
  · next noBlock => exact absurd rfl (noBlock inner)

theorem bne_of_not_mem {b : UInt8} {s : Bytes} (h : b ∉ s) : ∀ c ∈ s, (c != b) = true := by
  intro c hc
  rw [bne_iff_ne]
  rintro rfl
  exact h hc

/-- A span that fits what follows it is the one that the scan finds at its place. -/
theorem leading_of_fits {part : Span} {rest : Bytes} (h : part.Fits rest) :
    ∃ b behind, part.text ++ rest = b :: behind ∧ leading b behind = (part, rest) := by
  cases part with
  | quoted q body =>
    refine ⟨q.byte, body ++ q.byte :: rest, by simp [text], ?_⟩
    have hq : Quote.ofByte? q.byte = some q := Quote.ofByte?_eq_some_iff.mpr rfl
    have before := bne_of_not_mem h
    simp [leading, hq, List.dropWhile_append_of_pos before, List.takeWhile_append_of_pos before]
  | unclosedQuoted q body =>
    rcases h with ⟨noQuote, rfl⟩
    refine ⟨q.byte, body, by simp [text], ?_⟩
    have hq : Quote.ofByte? q.byte = some q := Quote.ofByte?_eq_some_iff.mpr rfl
    have none : body.dropWhile (· != q.byte) = [] :=
      List.dropWhile_eq_nil_iff.mpr (bne_of_not_mem noQuote)
    simp [leading, hq, none]
  | lineComment body =>
    obtain rfl : rest = [] := h
    exact ⟨Ascii.slash, Ascii.slash :: body, by simp [text, lineCommentOpen], rfl⟩
  | blockComment body =>
    refine ⟨Ascii.slash, Ascii.star :: (body ++ blockCommentClose ++ rest),
      by simp [text, blockCommentOpen], ?_⟩
    have found := splitAtClose_of_first h [] rest
    rw [List.reverse_nil, List.nil_append] at found
    rw [leading_blockOpen, found]
    rfl
  | unclosedBlockComment body =>
    rcases h with ⟨unclosed, rfl⟩
    refine ⟨Ascii.slash, Ascii.star :: body, by simp [text, blockCommentOpen], ?_⟩
    rw [leading_blockOpen, splitAtClose_eq_none_iff.mpr unclosed]
    rfl
  | plain b =>
    rcases h with ⟨noQuote, noComment⟩
    refine ⟨b, rest, rfl, ?_⟩
    have hb : Quote.ofByte? b = none := by simpa [isQuote] using noQuote
    unfold leading
    rw [hb]
    dsimp only
    split
    · next hslash =>
      split
      · exact absurd ⟨hslash, .inl rfl⟩ noComment
      · exact absurd ⟨hslash, .inr rfl⟩ noComment
      · rfl
    · rfl

end Span

/-! ## One reading, and what stripping keeps of it -/

/-- The spans that the scan finds are a reading of the line. -/
theorem reading_spans (line : Bytes) : Reading line (spans line) := by
  -- along the scan, which goes on with less of the line
  induction h : line.length using Nat.strongRecOn generalizing line with
  | _ n ih =>
    cases line with
    | nil =>
      rw [spans_nil]
      exact .nil
    | cons b rest =>
      have shorter : (Span.leading b rest).2.length < n := by
        have := Span.leading_length_le b rest
        simp only [List.length_cons] at h
        omega
      rw [spans_cons, ← Span.leading_text b rest]
      exact .cons (Span.leading_fits b rest) (ih _ shorter _ rfl)

/-- No line has another reading. -/
theorem Reading.eq_spans {line : Bytes} {parts : List Span} (h : Reading line parts) :
    parts = spans line := by
  induction h with
  | nil => rw [spans_nil]
  | cons fits _ ih =>
    obtain ⟨b, behind, htext, hleading⟩ := Span.leading_of_fits fits
    rw [htext, spans_cons, hleading, ih]

/-- A span that fits the text behind it comes first in the reading of the two. -/
theorem Span.Fits.spans_eq {part : Span} {rest : Bytes} (fits : part.Fits rest) :
    spans (part.text ++ rest) = part :: spans rest :=
  (Reading.cons fits (reading_spans rest)).eq_spans.symm

theorem Reading.text {line : Bytes} {parts : List Span} (h : Reading line parts) :
    parts.flatMap Span.text = line := by
  rw [h.eq_spans, spans_text]

/-- Only the empty line is read as no span at all. -/
theorem Reading.ne_nil {line : Bytes} {parts : List Span} (h : Reading line parts)
    (hparts : parts ≠ []) : line ≠ [] := by
  cases h with
  | nil => exact absurd rfl hparts
  | @cons part _ _ _ _ => exact List.append_ne_nil_of_left_ne_nil part.text_ne_nil _

/-- Each span of a reading fits the text of those behind it. -/
theorem Reading.fits_behind {line : Bytes} {before after : List Span} {part : Span}
    (h : Reading line (before ++ part :: after)) : part.Fits (after.flatMap Span.text) := by
  induction before generalizing line with
  | nil =>
    cases h with
    | cons fits reading => rwa [reading.text]
  | cons first before ih =>
    cases h with
    | cons _ reading => exact ih reading

/-- **The grammar of comment stripping.** Every line is in exactly one way a sequence of
spans that fit, and the line without its comments is the text of those of them that are
not comments, in order. -/
theorem strip_by_grammar (line : Bytes) :
    (∃! parts, Reading line parts) ∧
      ∀ parts, Reading line parts →
        strip line = (parts.filter (!·.isComment)).flatMap Span.text := by
  refine ⟨⟨spans line, reading_spans line, fun _ => Reading.eq_spans⟩, ?_⟩
  intro parts h
  rw [h.eq_spans, strip]

end DataInlay
