/-
# DataInlay.Proofs.QuotedText — where text in double quotes survives cleaning

Stripping reads text in either quotes as a span and keeps it whole. Compaction counts
double quotes, those in single quotes included. So the two agree on a span in double
quotes only when an even number of double quotes precedes it on the stripped line; behind
an odd number compaction takes the span for text between two others, and drops its blanks.

`contribution` is what a span adds to the cleaned line. `double_quoted_text_survives_iff`
says when it is the span itself, and that it always is on a line whose texts in single
quotes each hold an even number of double quotes.
-/
import DataInlay.Line
import DataInlay.Proofs.QuoteParity
import DataInlay.Proofs.SpanGrammar

namespace DataInlay

/-! ## What a span adds to the cleaned line -/

/-- What a span adds to the cleaned line: the bytes that cleaning leaves of the line up to
and with the span, behind those that it leaves of the spans before it. -/
def contribution (before : List Span) (part : Span) : Bytes :=
  (compact (keptText (before ++ [part]))).drop (compact (keptText before)).length

/-- A span that is kept adds what compaction leaves of it under the parity before it. -/
theorem contribution_eq {part : Span} (h : part.isComment = false) (before : List Span) :
    contribution before part = compactFrom (oddQuotes (keptText before)) [] part.text := by
  have kept : keptText [part] = part.text := by
    rw [keptText_cons, h]
    exact List.append_nil part.text
  rw [contribution, keptText_append, kept, compact_append, List.drop_left]

/-- What a span adds stands in the cleaned line behind what the spans before it leave. -/
theorem contribution_stands {line : Bytes} {before after : List Span} {part : Span}
    (h : spans line = before ++ part :: after) :
    compact (keptText before) ++ contribution before part <+: cleanLine line := by
  have grows : compact (keptText before) <+: compact (keptText (before ++ [part])) := by
    rw [keptText_append, compact_append]
    exact List.prefix_append _ _
  have through : compact (keptText before) ++ contribution before part
      = compact (keptText (before ++ [part])) :=
    List.prefix_iff_eq_append.mp grows
  rw [through, cleanLine, strip_eq_keptText, h, List.append_cons before part after,
    keptText_append _ after, compact_append]
  exact List.prefix_append _ _

/-! ## Text in double quotes under either parity -/

/-- The span is text in double quotes, with the quote that closes it or without. -/
inductive Span.DoubleQuoted (body : Bytes) : Span → Prop
  | closed : DoubleQuoted body (.quoted .double body)
  | unclosed : DoubleQuoted body (.unclosedQuoted .double body)

namespace Span.DoubleQuoted

variable {body rest : Bytes} {part : Span}

theorem isComment_eq_false (h : part.DoubleQuoted body) : part.isComment = false := by
  cases h <;> rfl

/-- There is no double quote in between, as the span fits its line. -/
theorem not_mem (h : part.DoubleQuoted body) (fits : part.Fits rest) : compactQuote ∉ body := by
  cases h with
  | closed => exact fits
  | unclosed => exact fits.1

/-- The text is a quote, the body and perhaps one more quote. -/
theorem text_eq (h : part.DoubleQuoted body) :
    ∃ close, part.text = compactQuote :: (body ++ close)
      ∧ (∀ odd, compactFrom odd [] close = close) := by
  cases h with
  | closed => exact ⟨[compactQuote], rfl, by decide⟩
  | unclosed => exact ⟨[], by rw [List.append_nil]; rfl, fun odd => rfl⟩

/-- Behind an even number of quotes, the text is kept. -/
theorem compactFrom_even (h : part.DoubleQuoted body) (hbody : compactQuote ∉ body) :
    compactFrom false [] part.text = part.text := by
  obtain ⟨close, htext, hclose⟩ := h.text_eq
  rw [htext, compactFrom_quote, compactFrom_append, hclose, Bool.not_false,
    compactFrom_inside hbody]

/-- Behind an odd number of quotes, it is kept when it holds no blank. -/
theorem compactFrom_odd_iff (h : part.DoubleQuoted body) (hbody : compactQuote ∉ body) :
    compactFrom true [] part.text = part.text ↔ ∀ b ∈ body, isBlank b = false := by
  obtain ⟨close, htext, hclose⟩ := h.text_eq
  rw [htext, compactFrom_quote, compactFrom_append, hclose, Bool.not_true,
    compactFrom_outside hbody, List.cons.injEq, List.append_left_inj, List.filter_eq_self]
  simp

end Span.DoubleQuoted

/-! ## The parity before a span -/

/-- Each span of a reading fits what follows it. -/
theorem Reading.fits {line : Bytes} {before after : List Span} {part : Span}
    (h : Reading line (before ++ part :: after)) : ∃ rest, part.Fits rest :=
  ⟨_, h.fits_behind⟩

theorem Span.oddQuotes_plain {b : UInt8} {rest : Bytes} (fits : (Span.plain b).Fits rest) :
    oddQuotes (Span.plain b).text = false := by
  apply oddQuotes_of_not_mem
  intro hquote
  rw [text, List.mem_singleton] at hquote
  subst hquote
  exact absurd fits.1 (by decide)

/-- A span that something follows holds an even number of double quotes, unless it is text
in single quotes. -/
theorem Span.even_quotes {part : Span} {rest : Bytes} (fits : part.Fits rest) (hrest : rest ≠ [])
    (hsingle : ∀ body, part = .quoted .single body → oddQuotes body = false) :
    oddQuotes (if part.isComment then [] else part.text) = false := by
  cases part with
  | quoted q body =>
    show oddQuotes (q.byte :: body ++ [q.byte]) = false
    rw [List.cons_append, oddQuotes_cons, oddQuotes_append]
    cases q with
    | double =>
      rw [oddQuotes_of_not_mem fits]
      rfl
    | single =>
      rw [hsingle body rfl]
      rfl
  | unclosedQuoted q body => exact absurd fits.2 hrest
  | plain b => exact oddQuotes_plain fits
  | lineComment body => rfl
  | blockComment body => rfl
  | unclosedBlockComment body => rfl

/-- So on a line whose texts in single quotes hold an even number of them, an even number
precedes every span. -/
theorem Reading.even_quotes_before {line : Bytes} {before after : List Span} {part : Span}
    (h : Reading line (before ++ part :: after))
    (hsingle : ∀ body, .quoted .single body ∈ before → oddQuotes body = false) :
    oddQuotes (keptText before) = false := by
  induction before generalizing line with
  | nil => rfl
  | cons first before ih =>
    cases h with
    | @cons _ rest _ fits reading =>
      -- something follows the first span, as there is another
      have hrest : rest ≠ [] :=
        reading.ne_nil (List.append_ne_nil_of_right_ne_nil before (List.cons_ne_nil part after))
      have hfirst := Span.even_quotes fits hrest fun body hbody =>
        hsingle body (hbody ▸ List.mem_cons_self)
      have hbefore := ih reading fun body hbody => hsingle body (List.mem_cons_of_mem _ hbody)
      rw [keptText_cons, oddQuotes_append, hfirst, hbefore]
      rfl

/-! ## Where it survives -/

/-- **Where text in double quotes survives.** What such a span adds to the cleaned line,
behind what the spans before it leave, is the span itself exactly when there is no blank
in it or an even number of double quotes precedes it on the stripped line. If all texts in
single quotes hold an even number of double quotes, it is the span itself. One that is not
closed is the last on its line, and need not be asked for that. -/
theorem double_quoted_text_survives_iff {line body : Bytes} {before after : List Span} {part : Span}
    (hspans : spans line = before ++ part :: after) (hpart : part.DoubleQuoted body) :
    compact (keptText before) ++ contribution before part <+: cleanLine line
    ∧ (contribution before part = part.text ↔
        (∀ b ∈ body, isBlank b = false) ∨ Even ((keptText before).count Ascii.doubleQuote))
    ∧ ((∀ text, .quoted .single text ∈ spans line → Even (text.count Ascii.doubleQuote)) →
        contribution before part = part.text) := by
  have reading : Reading line (before ++ part :: after) := hspans ▸ reading_spans line
  obtain ⟨rest, fits⟩ := reading.fits
  have hbody := hpart.not_mem fits
  have adds := contribution_eq hpart.isComment_eq_false before
  refine ⟨contribution_stands hspans, ?_, ?_⟩
  · show _ ↔ _ ∨ Even ((keptText before).count compactQuote)
    rw [adds, ← oddQuotes_eq_false_iff]
    cases oddQuotes (keptText before) with
    | false => exact iff_of_true (hpart.compactFrom_even hbody) (.inr rfl)
    | true => simp [hpart.compactFrom_odd_iff hbody]
  · intro hsingle
    have even : oddQuotes (keptText before) = false := by
      apply reading.even_quotes_before
      intro text htext
      apply oddQuotes_eq_false_iff.mpr
      apply hsingle
      rw [hspans]
      exact List.mem_append_left _ htext
    rw [adds, even, hpart.compactFrom_even hbody]

/-- A double quote in single quotes, and a comment behind it that is cut out: the text in
double quotes that follows loses its blank. -/
theorem odd_quote_costs_blank :
    let line := utf8 "'\"'/* \" */\"a b\" 1"
    let before : List Span := [.quoted .single (utf8 "\""), .blockComment (utf8 " \" ")]
    let part : Span := .quoted .double (utf8 "a b")
    ∃ after, spans line = before ++ part :: after ∧ part.DoubleQuoted (utf8 "a b")
      ∧ contribution before part ≠ part.text := by
  intro line before part
  have hspans : spans line = before ++ part :: [.plain 0x20, .plain 0x31] := by decide +kernel
  have survives := (double_quoted_text_survives_iff hspans .closed).2.1
  refine ⟨_, hspans, .closed, ?_⟩
  rw [Ne, survives]
  decide +kernel

end DataInlay
