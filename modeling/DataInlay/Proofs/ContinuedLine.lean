/-
# DataInlay.Proofs.ContinuedLine — text behind a line

Stripping looks ahead: for the byte behind a slash, for the quote or the `*/` that closes a
span. So text put behind a line may be read otherwise than on its own, and may change how the
line is read. It does neither when the line is `Complete`: its quotes and block comments are
closed, it has no line comment, and it does not end in a plain slash. Then the spans of the
whole are those of the two parts (`Reading.append`). A weaker condition would not do: behind
any other line there is text that is not stripped on its own (`complete_iff`).

Text without quotes and slashes is plain, byte by byte, and cleaning takes nothing from it but
its blanks (`cleanLine_plain`). Blanks themselves are such text, and may stand behind any line.
They close nothing either, and so belong to the last span if that is open, and are plain bytes
otherwise (`Reading.followed`). Cleaning keeps all of them or none (`cleanLine_append_blanks`).
-/
import DataInlay.Line
import DataInlay.Proofs.QuoteParity
import DataInlay.Proofs.SpanGrammar

namespace DataInlay

/-! ## Spans with text behind them -/

namespace Span

/-- The span has no end of its own, and takes in what is put behind the line. -/
def isOpen : Span → Bool
  | unclosedQuoted .. | lineComment _ | unclosedBlockComment _ => true
  | quoted .. | blockComment _ | plain _ => false

/-- The span is a comment without an end of its own. -/
def isOpenComment (part : Span) : Bool := part.isComment && part.isOpen

namespace Fits

variable {part : Span} {rest : Bytes}

/-- A span that something follows on its line is not open. -/
theorem isOpen_eq_false (fits : part.Fits rest) (hrest : rest ≠ []) : part.isOpen = false := by
  cases part with
  | quoted | blockComment | plain => rfl
  | unclosedQuoted q body => exact absurd fits.2 hrest
  | lineComment body => exact absurd fits hrest
  | unclosedBlockComment body => exact absurd fits.2 hrest

/-- A span that is not open fits a longer rest of the line as well. A plain slash is the only
one that looks at the byte behind it, and must have one. -/
theorem continued (fits : part.Fits rest) (hclosed : part.isOpen = false)
    (hslash : rest = [] → part ≠ .plain Ascii.slash) (c : Bytes) : part.Fits (rest ++ c) := by
  cases part with
  | quoted q body => exact fits
  | blockComment body => exact fits
  | plain b =>
    refine ⟨fits.1, ?_⟩
    rcases rest with _ | ⟨d, rest⟩
    · rintro ⟨rfl, -⟩
      exact hslash rfl rfl
    · exact fits.2
  | unclosedQuoted | lineComment | unclosedBlockComment => cases hclosed

theorem continued_of_ne_nil (fits : part.Fits rest) (hrest : rest ≠ []) (c : Bytes) :
    part.Fits (rest ++ c) :=
  fits.continued (fits.isOpen_eq_false hrest) (fun h => absurd h hrest) c

/-- Stripping cuts out the first span of a line when it is a comment, and keeps it otherwise. -/
theorem strip_eq (fits : part.Fits rest) :
    strip (part.text ++ rest) = (if part.isComment then [] else part.text) ++ strip rest := by
  rw [strip_eq_keptText, fits.spans_eq, keptText_cons, strip_eq_keptText]

/-- A span that nothing follows is the reading of its text. -/
theorem reading (fits : part.Fits []) : Reading part.text [part] := by
  have h := Reading.cons fits .nil
  rwa [List.append_nil] at h

end Fits

end Span

theorem Reading.of_nil {parts : List Span} (h : Reading [] parts) : parts = [] := by
  rw [h.eq_spans, spans_nil]

theorem Reading.strip_eq {line : Bytes} {parts : List Span} (h : Reading line parts) :
    strip line = keptText parts := by
  rw [strip_eq_keptText, h.eq_spans]

/-! ## Lines that end inside a comment -/

/-- The line ends inside a comment. -/
def endsInComment (line : Bytes) : Bool := (spans line).getLast?.any Span.isOpenComment

theorem endsInComment_of_reading {line : Bytes} {parts : List Span} (h : Reading line parts) :
    endsInComment line = parts.getLast?.any Span.isOpenComment := by
  rw [endsInComment, h.eq_spans]

theorem endsInComment_nil : endsInComment [] = false := endsInComment_of_reading .nil

/-- Every line but the empty one has a last span. -/
theorem exists_last_span {line : Bytes} (h : line ≠ []) :
    ∃ before last, Reading line (before ++ [last]) := by
  rcases List.eq_nil_or_concat (spans line) with hnil | ⟨before, last, hspans⟩
  · rw [← spans_text line, hnil] at h
    exact absurd rfl h
  · rw [List.concat_eq_append] at hspans
    exact ⟨before, last, hspans ▸ reading_spans line⟩

/-! ## Plain text -/

/-- The byte opens no quoted text and no comment, whatever follows it. -/
def IsPlain (b : UInt8) : Prop := isQuote b = false ∧ b ≠ Ascii.slash

instance (b : UInt8) : Decidable (IsPlain b) :=
  inferInstanceAs (Decidable (_ ∧ _))

theorem IsPlain.ne_quote {b : UInt8} (h : IsPlain b) (q : Quote) : b ≠ q.byte := by
  rintro rfl
  have quote : isQuote q.byte = true := by cases q <;> decide
  rw [h.1] at quote
  cases quote

/-- Plain text is read byte by byte. -/
theorem reading_plain {s : Bytes} (h : ∀ b ∈ s, IsPlain b) : Reading s (s.map .plain) := by
  induction s with
  | nil => exact .nil
  | cons b s ih =>
    have plain := h b List.mem_cons_self
    have fits : (Span.plain b).Fits s := ⟨plain.1, fun hslash => plain.2 hslash.1⟩
    exact .cons fits (ih fun c hc => h c (List.mem_cons_of_mem b hc))

theorem keptText_plain (s : Bytes) : keptText (s.map .plain) = s := by
  induction s with
  | nil => rfl
  | cons b s ih =>
    rw [List.map_cons, keptText_cons, ih]
    rfl

/-- So cleaning takes nothing from it but its blanks. -/
theorem cleanLine_plain {s : Bytes} (h : ∀ b ∈ s, IsPlain b) :
    cleanLine s = s.filter (!isBlank ·) := by
  have noQuote : compactQuote ∉ s := fun hquote => (h _ hquote).ne_quote .double rfl
  rw [cleanLine, (reading_plain h).strip_eq, keptText_plain, compact, compactFrom_outside noQuote]

/-! ## Blanks behind a line -/

theorem isPlain_of_isBlank {b : UInt8} (h : isBlank b = true) : IsPlain b := by
  constructor
  · by_contra hquote
    rw [Bool.not_eq_false, isQuote, Option.isSome_iff_exists] at hquote
    obtain ⟨q, hq⟩ := hquote
    rw [Quote.ofByte?_eq_some_iff.mp hq, isBlank_quote] at h
    cases h
  · rintro rfl
    cases h

/-- Text without a slash closes no block comment. -/
theorem close_infix_append {body s : Bytes} (hs : Ascii.slash ∉ s) :
    blockCommentClose <:+: body ++ s ↔ blockCommentClose <:+: body := by
  induction body with
  | nil =>
    refine iff_of_false (fun h => hs (h.subset ?_)) (by decide)
    exact List.mem_cons_of_mem _ List.mem_cons_self
  | cons b body ih =>
    have next : (body ++ s).head? = some Ascii.slash ↔ body.head? = some Ascii.slash := by
      rcases body with _ | ⟨c, body⟩
      · exact iff_of_false (fun h => hs (List.mem_of_head? h)) nofun
      · rfl
    rw [List.cons_append, close_infix_cons, close_infix_cons, ih, next]

namespace Span

/-- The last span of a line and the blanks put behind it, as spans. -/
def followedBy (blanks : Bytes) : Span → List Span
  | unclosedQuoted q body => [unclosedQuoted q (body ++ blanks)]
  | lineComment body => [lineComment (body ++ blanks)]
  | unclosedBlockComment body => [unclosedBlockComment (body ++ blanks)]
  | quoted q body => quoted q body :: blanks.map plain
  | blockComment body => blockComment body :: blanks.map plain
  | plain b => plain b :: blanks.map plain

theorem keptText_followedBy (blanks : Bytes) (part : Span) :
    keptText (part.followedBy blanks)
      = keptText [part] ++ if part.isOpenComment then [] else blanks := by
  cases part with
  | quoted | blockComment | plain =>
    rw [followedBy, keptText_cons, keptText_cons, keptText_plain]
    simp [isOpenComment, isOpen, keptText]
  | unclosedQuoted | lineComment | unclosedBlockComment =>
    simp [followedBy, keptText, isComment, isOpenComment, isOpen, text]

theorem isOpenComment_followedBy (blanks : Bytes) (before : List Span) (part : Span) :
    (before ++ part.followedBy blanks).getLast?.any isOpenComment = part.isOpenComment := by
  rw [List.getLast?_append]
  cases part with
  | quoted | blockComment | plain =>
    rw [followedBy, List.getLast?_cons, List.getLast?_map]
    cases blanks.getLast? <;> rfl
  | unclosedQuoted | lineComment | unclosedBlockComment => rfl

end Span

section Blanks

variable {blanks : Bytes} (hblanks : ∀ b ∈ blanks, isBlank b = true)

include hblanks

theorem quote_not_mem_blanks (q : Quote) : q.byte ∉ blanks := by
  intro hmem
  have h := hblanks _ hmem
  rw [isBlank_quote] at h
  cases h

theorem slash_not_mem_blanks : Ascii.slash ∉ blanks := fun hmem => nomatch hblanks _ hmem

theorem star_not_mem_blanks : Ascii.star ∉ blanks := fun hmem => nomatch hblanks _ hmem

/-- Blanks are plain bytes each. -/
theorem reading_blanks : Reading blanks (blanks.map .plain) := by
  exact reading_plain fun b hb => isPlain_of_isBlank (hblanks b hb)

theorem strip_of_blanks : strip blanks = blanks := by
  rw [(reading_blanks hblanks).strip_eq, keptText_plain]

theorem Span.Fits.followed {part : Span} (fits : part.Fits []) :
    Reading (part.text ++ blanks) (part.followedBy blanks) := by
  have plains := reading_blanks hblanks
  cases part with
  | quoted q body =>
    have before : (quoted q body).Fits blanks := fits
    exact .cons before plains
  | blockComment body =>
    have before : (blockComment body).Fits blanks := fits
    exact .cons before plains
  | plain b =>
    have before : (plain b).Fits blanks := by
      refine ⟨fits.1, ?_⟩
      rintro ⟨-, hslash | hstar⟩
      · exact slash_not_mem_blanks hblanks (List.mem_of_head? hslash)
      · exact star_not_mem_blanks hblanks (List.mem_of_head? hstar)
    exact .cons before plains
  | unclosedQuoted q body =>
    have longer : (unclosedQuoted q (body ++ blanks)).Fits [] := by
      refine ⟨?_, rfl⟩
      rw [List.mem_append, not_or]
      exact ⟨fits.1, quote_not_mem_blanks hblanks q⟩
    exact longer.reading
  | lineComment body =>
    have longer : (lineComment (body ++ blanks)).Fits [] := rfl
    exact longer.reading
  | unclosedBlockComment body =>
    have longer : (unclosedBlockComment (body ++ blanks)).Fits [] := by
      refine ⟨?_, rfl⟩
      rw [close_infix_append (slash_not_mem_blanks hblanks)]
      exact fits.1
    exact longer.reading

/-- Blanks behind a line change no span but the last. -/
theorem Reading.followed {line : Bytes} {before : List Span} {last : Span}
    (h : Reading line (before ++ [last])) :
    Reading (line ++ blanks) (before ++ last.followedBy blanks) := by
  induction before generalizing line with
  | nil =>
    cases h with
    | @cons _ rest _ fits hrest =>
      obtain rfl : rest = [] := by rw [← hrest.text, List.flatMap_nil]
      rw [List.append_nil]
      exact fits.followed hblanks
  | cons first before ih =>
    cases h with
    | @cons _ rest _ fits hrest =>
      have hne : rest ≠ [] :=
        hrest.ne_nil (List.append_ne_nil_of_right_ne_nil before (List.cons_ne_nil last []))
      rw [List.append_assoc]
      exact .cons (fits.continued_of_ne_nil hne blanks) (ih hrest)

/-- A line that ends inside a comment takes in the blanks behind it, and any other keeps them. -/
theorem strip_append_blanks (line : Bytes) :
    strip (line ++ blanks) = strip line ++ if endsInComment line then [] else blanks := by
  by_cases hline : line = []
  · rw [hline, List.nil_append, strip_of_blanks hblanks, strip_nil, endsInComment_nil]
    rfl
  · obtain ⟨before, last, h⟩ := exists_last_span hline
    rw [(h.followed hblanks).strip_eq, h.strip_eq, endsInComment_of_reading h,
      List.getLast?_concat, Option.any_some, keptText_append, keptText_append,
      Span.keptText_followedBy, List.append_assoc]

theorem endsInComment_append_blanks (line : Bytes) :
    endsInComment (line ++ blanks) = endsInComment line := by
  by_cases hline : line = []
  · rw [hline, List.nil_append, endsInComment_nil,
      endsInComment_of_reading (reading_blanks hblanks), List.getLast?_map]
    cases blanks.getLast? <;> rfl
  · obtain ⟨before, last, h⟩ := exists_last_span hline
    rw [endsInComment_of_reading (h.followed hblanks), endsInComment_of_reading h,
      Span.isOpenComment_followedBy, List.getLast?_concat, Option.any_some]

end Blanks

/-! ## Complete text -/

/-- The scan of the text leaves nothing open, and no slash that looks at the next byte. -/
structure Complete (a : Bytes) : Prop where
  /-- Quotes and block comments are closed, and there is no line comment. -/
  closed : ∀ part ∈ spans a, part.isOpen = false
  /-- The last span is not a slash. -/
  no_slash : (spans a).getLast? ≠ some (.plain Ascii.slash)

/-- Behind complete text, the reading goes on with that of the other text. -/
theorem Reading.append {a c : Bytes} {parts others : List Span} (ha : Reading a parts)
    (hclosed : ∀ part ∈ parts, part.isOpen = false)
    (hslash : parts.getLast? ≠ some (.plain Ascii.slash)) (hc : Reading c others) :
    Reading (a ++ c) (parts ++ others) := by
  induction ha with
  | nil => exact hc
  | @cons part rest parts fits hrest ih =>
    obtain ⟨hpart, hparts⟩ := List.forall_mem_cons.mp hclosed
    have last (h : rest = []) : part ≠ .plain Ascii.slash := by
      subst h
      rintro rfl
      exact hslash (by rw [hrest.of_nil]; rfl)
    have ends : parts.getLast? ≠ some (.plain Ascii.slash) := by
      intro h
      exact hslash (by rw [List.getLast?_cons, h]; rfl)
    rw [List.append_assoc]
    exact .cons (fits.continued hpart last c) (ih hparts ends)

/-- Complete text is stripped as if nothing stood behind it, and what stands behind it as if
nothing stood before. -/
theorem Complete.strip_append {a : Bytes} (ha : Complete a) (c : Bytes) :
    strip (a ++ c) = strip a ++ strip c := by
  have whole := (reading_spans a).append ha.closed ha.no_slash (reading_spans c)
  rw [whole.strip_eq, keptText_append, strip_eq_keptText, strip_eq_keptText]

/-- Blanks are complete. -/
theorem complete_of_blanks {blanks : Bytes} (hblanks : ∀ b ∈ blanks, isBlank b = true) :
    Complete blanks := by
  have hspans := (reading_blanks hblanks).eq_spans
  constructor
  · rw [← hspans]
    intro part hpart
    obtain ⟨b, -, rfl⟩ := List.mem_map.mp hpart
    rfl
  · rw [← hspans, List.getLast?_map]
    intro hlast
    obtain ⟨b, hb, hslash⟩ := Option.map_eq_some_iff.mp hlast
    cases hslash
    exact slash_not_mem_blanks hblanks (List.mem_of_getLast? hb)

/-- A span that ends its line, and lets any text behind it be stripped on its own, is not open
and no slash. -/
theorem Span.Fits.closed_of_strip_append {part : Span} (fits : part.Fits [])
    (h : ∀ c, strip (part.text ++ c) = strip part.text ++ strip c) :
    part.isOpen = false ∧ part ≠ .plain Ascii.slash := by
  -- an open comment takes in a blank
  have comment (hcomment : part.isOpenComment = true) : False := by
    have space : ∀ b ∈ [(0x20 : UInt8)], isBlank b = true := List.forall_mem_singleton.mpr rfl
    have taken := strip_append_blanks space part.text
    have ends : endsInComment part.text = true := by
      rw [endsInComment_of_reading fits.reading]
      exact hcomment
    rw [h, strip_of_blanks space, ends] at taken
    simp at taken
  cases part with
  | quoted q body => exact ⟨rfl, nofun⟩
  | blockComment body => exact ⟨rfl, nofun⟩
  | lineComment body => exact (comment rfl).elim
  | unclosedBlockComment body => exact (comment rfl).elim
  | unclosedQuoted q body =>
    -- quoted text takes in a line comment
    have longer : (unclosedQuoted q (body ++ lineCommentOpen)).Fits [] := by
      refine ⟨?_, rfl⟩
      rw [List.mem_append, not_or]
      exact ⟨fits.1, by cases q <;> decide⟩
    have taken : strip ((unclosedQuoted q body).text ++ lineCommentOpen) = _ :=
      longer.reading.strip_eq
    have alone : strip lineCommentOpen = [] := by decide +kernel
    rw [h, alone, fits.reading.strip_eq] at taken
    simp [keptText, isComment, text, lineCommentOpen] at taken
  | plain b =>
    refine ⟨rfl, ?_⟩
    rintro ⟨⟩
    -- a slash and another are a comment
    exact absurd (h [Ascii.slash]) (by decide +kernel)

/-- **Complete text is the only one** that lets any text behind it be stripped on its own. -/
theorem complete_iff {a : Bytes} : Complete a ↔ ∀ c, strip (a ++ c) = strip a ++ strip c := by
  refine ⟨Complete.strip_append, fun h => ?_⟩
  -- along the reading, whose last span decides
  have general : ∀ parts, Reading a parts → (∀ part ∈ parts, part.isOpen = false)
      ∧ parts.getLast? ≠ some (.plain Ascii.slash) := by
    intro parts reading
    induction reading with
    | nil => exact ⟨nofun, nofun⟩
    | @cons part rest parts fits hrest ih =>
      by_cases hne : rest = []
      · subst hne
        rw [List.append_nil] at h
        obtain ⟨hopen, hslash⟩ := fits.closed_of_strip_append h
        rw [hrest.of_nil]
        exact ⟨List.forall_mem_singleton.mpr hopen, fun hlast => hslash (Option.some.inj hlast)⟩
      · have split (c : Bytes) : strip (rest ++ c) = strip rest ++ strip c := by
          have whole := h c
          rw [List.append_assoc, (fits.continued_of_ne_nil hne c).strip_eq, fits.strip_eq,
            List.append_assoc] at whole
          exact List.append_cancel_left whole
        obtain ⟨hclosed, hlast⟩ := ih split
        refine ⟨List.forall_mem_cons.mpr ⟨fits.isOpen_eq_false hne, hclosed⟩, ?_⟩
        rcases parts with _ | ⟨second, parts⟩
        · exact absurd hrest.text.symm hne
        · rwa [List.getLast?_cons_cons]
  obtain ⟨hclosed, hslash⟩ := general (spans a) (reading_spans a)
  exact ⟨hclosed, hslash⟩

/-! ## Cleaning a line that is continued -/

/-- Blanks at the end of the line are data: it does not end inside a comment, and holds an odd
number of double quotes without its comments. -/
def KeepsBlanks (line : Bytes) : Prop :=
  endsInComment line = false ∧ Odd ((strip line).count Ascii.doubleQuote)

instance (line : Bytes) : Decidable (KeepsBlanks line) := inferInstanceAs (Decidable (_ ∧ _))

theorem keepsBlanks_iff {line : Bytes} :
    KeepsBlanks line ↔ endsInComment line = false ∧ oddQuotes (strip line) = true := by
  rw [KeepsBlanks, oddQuotes_eq_true_iff, compactQuote]

section Cleaning

variable {blanks : Bytes} (hblanks : ∀ b ∈ blanks, isBlank b = true)

include hblanks

theorem oddQuotes_of_blanks : oddQuotes blanks = false :=
  oddQuotes_of_not_mem (quote_not_mem_blanks hblanks .double)

/-- Compaction keeps all blanks of a run, or none. -/
theorem compactFrom_blanks (inside : Bool) :
    compactFrom inside [] blanks = if inside then blanks else [] := by
  have noQuote : compactQuote ∉ blanks := quote_not_mem_blanks hblanks .double
  cases inside with
  | true => exact compactFrom_inside noQuote
  | false =>
    rw [compactFrom_outside noQuote]
    apply List.filter_eq_nil_iff.mpr
    intro b hb
    simp [hblanks b hb]

/-- Blanks behind a line are kept, all of them, or make no difference. -/
theorem cleanLine_append_blanks (line : Bytes) :
    cleanLine (line ++ blanks) = cleanLine line ++ if KeepsBlanks line then blanks else [] := by
  rw [cleanLine, strip_append_blanks hblanks, compact_append, cleanLine]
  simp only [keepsBlanks_iff]
  cases endsInComment line with
  | true => simp [compactFrom]
  | false => simp [compactFrom_blanks hblanks]

/-- Whether a line keeps blanks does not depend on those that it has. -/
theorem keepsBlanks_append_blanks (line : Bytes) :
    KeepsBlanks (line ++ blanks) ↔ KeepsBlanks line := by
  have parity : oddQuotes (strip (line ++ blanks)) = oddQuotes (strip line) := by
    rw [strip_append_blanks hblanks, oddQuotes_append]
    cases endsInComment line with
    | true => simp
    | false => simp [oddQuotes_of_blanks hblanks]
  rw [keepsBlanks_iff, keepsBlanks_iff, endsInComment_append_blanks hblanks, parity]

end Cleaning

/-- **Comments and blanks are transparent.** Behind complete text, everything is stripped on its
own. So a block comment may be put there, whatever follows it, and a line comment, and neither
the stripped line nor the cleaned one is changed. Blanks may be put there as well, if an even
number of double quotes precedes them on the stripped line, and the cleaned line is the same. -/
theorem comments_and_blanks_transparent {a : Bytes} (ha : Complete a) :
    (∀ c, strip (a ++ c) = strip a ++ strip c)
    ∧ (∀ body b, ¬ blockCommentClose <:+: body →
        strip (a ++ (blockCommentOpen ++ body ++ blockCommentClose) ++ b) = strip (a ++ b)
        ∧ cleanLine (a ++ (blockCommentOpen ++ body ++ blockCommentClose) ++ b)
          = cleanLine (a ++ b))
    ∧ (∀ rest, strip (a ++ (lineCommentOpen ++ rest)) = strip a
        ∧ cleanLine (a ++ (lineCommentOpen ++ rest)) = cleanLine a)
    ∧ (Even ((strip a).count Ascii.doubleQuote) →
        ∀ blanks b, (∀ c ∈ blanks, isBlank c = true) →
          cleanLine (a ++ blanks ++ b) = cleanLine (a ++ b)) := by
  have split := complete_iff.mp ha
  have cleaned {s t : Bytes} (h : strip s = strip t) : cleanLine s = cleanLine t := by
    rw [cleanLine, h, cleanLine]
  refine ⟨split, ?block, ?line, ?blanks⟩
  case block =>
    intro body b hbody
    have first : ClosesFirstBehind body := by
      rw [closesFirstBehind_iff, close_infix_append (by decide)]
      exact hbody
    have fits : (Span.blockComment body).Fits b := first
    have stripped : strip (a ++ (blockCommentOpen ++ body ++ blockCommentClose) ++ b)
        = strip (a ++ b) := by
      rw [List.append_assoc, split, split b]
      exact congrArg (strip a ++ ·) fits.strip_eq
    exact ⟨stripped, cleaned stripped⟩
  case line =>
    intro rest
    have fits : (Span.lineComment rest).Fits [] := rfl
    have cut : strip (lineCommentOpen ++ rest) = [] := fits.reading.strip_eq
    have stripped : strip (a ++ (lineCommentOpen ++ rest)) = strip a := by
      rw [split, cut, List.append_nil]
    exact ⟨stripped, cleaned stripped⟩
  case blanks =>
    intro heven blanks b hblanks
    have even : oddQuotes (strip a) = false := oddQuotes_eq_false_iff.mpr heven
    have alone : strip (blanks ++ b) = blanks ++ strip b := by
      rw [(complete_of_blanks hblanks).strip_append, strip_of_blanks hblanks]
    rw [List.append_assoc, cleanLine, cleanLine, split, split b, alone, compact_append,
      compact_append, even, compactFrom_append, compactFrom_blanks hblanks,
      oddQuotes_of_blanks hblanks]
    rfl

/-- Text that ends in a comment, and behind it a slash; the comment put between them ends in
two stars. -/
theorem comment_before_slash :
    let a := utf8 "\"/*\" '//'/* \" */"
    let b := utf8 "/ 2"
    Complete a ∧ Even ((strip a).count Ascii.doubleQuote) ∧ ¬ blockCommentClose <:+: utf8 " '*"
    ∧ strip (a ++ (blockCommentOpen ++ utf8 " '*" ++ blockCommentClose) ++ b) = strip (a ++ b)
    ∧ cleanLine (a ++ utf8 " \t" ++ b) = cleanLine (a ++ b) := by
  intro a b
  have complete : Complete a := ⟨by decide +kernel, by decide +kernel⟩
  have even : Even ((strip a).count Ascii.doubleQuote) := by decide +kernel
  have unclosed : ¬ blockCommentClose <:+: utf8 " '*" := by decide +kernel
  obtain ⟨-, block, -, blanks⟩ := comments_and_blanks_transparent complete
  exact ⟨complete, even, unclosed, (block _ b unclosed).1, blanks even _ b (by decide +kernel)⟩

end DataInlay
