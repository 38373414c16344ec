/-
# DataInlay.Proofs.CleanTwice — when cleaning a cleaned line changes it

Stripping leaves no comment, and compaction leaves no blank that it would drop. But
compaction comes second, and where it drops the blanks between a plain slash and another
slash or a star, the two open a comment that the line did not have. That is the only way in
which cleaning a line a second time can change it (`clean_twice_iff`).

The two stages do not agree on what is quoted: stripping reads spans, and compaction counts
double quotes. So a span of the stripped line is followed through compaction under the parity
in front of it. Quoted text stays quoted text with a body that has lost some blanks. A plain
byte stays or goes, and what it must not meet is only of interest for a slash.
-/
import DataInlay.Proofs.QuotedText
import DataInlay.Proofs.StrippedLine

namespace DataInlay

/-! ## Slashes that blanks keep from opening a comment -/

/-- Behind a slash, the byte would open a comment. -/
def OpensComment (b : UInt8) : Prop := b = Ascii.slash ∨ b = Ascii.star

/-- The text starts with one or more blanks, and goes on with a byte that opens a comment
behind a slash. -/
def BlanksThenOpener (s : Bytes) : Prop :=
  ∃ blanks b rest, s = blanks ++ b :: rest ∧ blanks ≠ [] ∧ (∀ c ∈ blanks, isBlank c = true)
    ∧ OpensComment b

/-- Among spans with this parity in front of them, a plain slash is followed by blanks and an
opener, and compaction drops these blanks. -/
def SlashThenBlanks (inside : Bool) (parts : List Span) : Prop :=
  ∃ before after, parts = before ++ .plain Ascii.slash :: after
    ∧ (inside ^^ oddQuotes (before.flatMap Span.text)) = false
    ∧ BlanksThenOpener (after.flatMap Span.text)

theorem slashThenBlanks_cons {inside : Bool} {part : Span} {parts : List Span} :
    SlashThenBlanks inside (part :: parts) ↔
      (part = .plain Ascii.slash ∧ inside = false ∧ BlanksThenOpener (parts.flatMap Span.text))
        ∨ SlashThenBlanks (inside ^^ oddQuotes part.text) parts := by
  constructor
  · rintro ⟨_ | ⟨first, before⟩, after, hsplit, heven, hopener⟩
    · obtain ⟨rfl, rfl⟩ := List.cons.inj hsplit
      exact .inl ⟨rfl, by simpa using heven, hopener⟩
    · obtain ⟨rfl, rfl⟩ := List.cons.inj hsplit
      refine .inr ⟨before, after, rfl, ?_, hopener⟩
      rwa [List.flatMap_cons, oddQuotes_append, ← Bool.xor_assoc] at heven
  · rintro (⟨rfl, rfl, hopener⟩ | ⟨before, after, rfl, heven, hopener⟩)
    · exact ⟨[], parts, rfl, rfl, hopener⟩
    · refine ⟨part :: before, after, rfl, ?_, hopener⟩
      rwa [List.flatMap_cons, oddQuotes_append, ← Bool.xor_assoc]

/-! ## The first byte that compaction keeps -/

/-- Outside quotes, the first byte kept is the first that is no blank. -/
theorem head?_compactFrom_false {s : Bytes} {b : UInt8} :
    (compactFrom false [] s).head? = some b ↔ isBlank b = false
      ∧ ∃ blanks rest, s = blanks ++ b :: rest ∧ ∀ c ∈ blanks, isBlank c = true := by
  induction s with
  | nil =>
    refine iff_of_false nofun ?_
    rintro ⟨-, blanks, rest, hsplit, -⟩
    simp at hsplit
  | cons c s ih =>
    rw [compactFrom_cons]
    cases hc : isBlank c with
    | true =>
      rw [beq_false_of_ne (ne_compactQuote_of_isBlank hc)]
      refine ih.trans (and_congr_right fun hb => ?_)
      constructor
      · rintro ⟨blanks, rest, rfl, hblanks⟩
        exact ⟨c :: blanks, rest, rfl, List.forall_mem_cons.mpr ⟨hc, hblanks⟩⟩
      · rintro ⟨_ | ⟨d, blanks⟩, rest, hsplit, hblanks⟩
        · obtain ⟨rfl, -⟩ := List.cons.inj hsplit
          exact absurd (hb.symm.trans hc) nofun
        · obtain ⟨-, rfl⟩ := List.cons.inj hsplit
          exact ⟨blanks, rest, rfl, (List.forall_mem_cons.mp hblanks).2⟩
    | false =>
      show some c = some b ↔ _
      rw [Option.some.injEq]
      constructor
      · rintro rfl
        exact ⟨hc, [], s, rfl, nofun⟩
      · rintro ⟨-, _ | ⟨d, blanks⟩, rest, hsplit, hblanks⟩
        · exact (List.cons.inj hsplit).1
        · obtain ⟨rfl, -⟩ := List.cons.inj hsplit
          exact absurd (hc.symm.trans (List.forall_mem_cons.mp hblanks).1) nofun

/-- Inside quotes, it is the first byte there is. -/
theorem head?_compactFrom_true (s : Bytes) : (compactFrom true [] s).head? = s.head? := by
  rcases s with _ | ⟨b, s⟩
  · rfl
  · rw [compactFrom_cons, Bool.not_true, Bool.and_false]
    rfl

theorem OpensComment.not_blank {b : UInt8} (h : OpensComment b) : isBlank b = false := by
  rcases h with rfl | rfl <;> rfl

/-- Text that a plain slash may precede starts with an opener once it is compacted, if blanks
that are dropped were in front of one. -/
theorem opener_behind_blanks_iff {inside : Bool} {s : Bytes}
    (hs : ∀ b, s.head? = some b → ¬ OpensComment b) :
    (∃ b, (compactFrom inside [] s).head? = some b ∧ OpensComment b) ↔
      inside = false ∧ BlanksThenOpener s := by
  cases inside with
  | true =>
    rw [head?_compactFrom_true]
    exact iff_of_false (fun ⟨b, hhead, hopens⟩ => hs b hhead hopens) (fun h => nomatch h.1)
  | false =>
    simp only [head?_compactFrom_false, true_and]
    constructor
    · rintro ⟨b, ⟨-, blanks, rest, rfl, hblanks⟩, hopens⟩
      refine ⟨blanks, b, rest, rfl, ?_, hblanks, hopens⟩
      rintro rfl
      exact hs b rfl hopens
    · rintro ⟨blanks, b, rest, hsplit, -, hblanks, hopens⟩
      exact ⟨b, ⟨hopens.not_blank, blanks, rest, hsplit, hblanks⟩, hopens⟩

/-! ## Spans under compaction -/

/-- Quoted text is quoted text of the same kind after compaction, and fits whatever the text
behind it has become. -/
theorem Span.quoted_of_compactFrom {part : Span} (hcomment : part.isComment = false)
    (hplain : ∀ b, part ≠ .plain b) (inside : Bool) :
    ∃ part' : Span, compactFrom inside [] part.text = part'.text ∧ part'.isComment = false
      ∧ ∀ rest inside', part.Fits rest → part'.Fits (compactFrom inside' [] rest) := by
  have kept (q : Quote) (s : Bytes) : compactFrom inside [] (q.byte :: s)
      = q.byte :: compactFrom (inside ^^ (q.byte == compactQuote)) [] s := by
    rw [compactFrom_cons, isBlank_quote]
    rfl
  cases part with
  | quoted q body =>
    refine ⟨.quoted q (compactFrom (inside ^^ (q.byte == compactQuote)) [] body), ?_, rfl, ?_⟩
    · rw [text, List.cons_append, kept, compactFrom_append, compactFrom_cons, isBlank_quote]
      rfl
    · exact fun rest inside' fits hmem => fits ((compactFrom_sublist _ body).subset hmem)
  | unclosedQuoted q body =>
    refine ⟨.unclosedQuoted q (compactFrom (inside ^^ (q.byte == compactQuote)) [] body),
      kept q body, rfl, ?_⟩
    rintro rest inside' ⟨hquote, rfl⟩
    exact ⟨fun hmem => hquote ((compactFrom_sublist _ body).subset hmem), rfl⟩
  | plain b => exact absurd rfl (hplain b)
  | lineComment | blockComment | unclosedBlockComment => cases hcomment

/-- A slash and an opener directly behind it start a comment. -/
theorem hasComment_of_opener {b : UInt8} {s : Bytes} (h : s.head? = some b)
    (hopens : OpensComment b) : HasComment (Ascii.slash :: s) := by
  obtain ⟨c, rest, rfl⟩ : ∃ c rest, s = c :: rest := by
    rcases s with _ | ⟨c, rest⟩
    · cases h
    · exact ⟨c, rest, rfl⟩
  cases h
  rw [HasComment, spans_cons]
  refine ⟨_, List.mem_cons_self, ?_⟩
  rcases hopens with rfl | rfl
  · rfl
  · rw [Span.leading_blockOpen]
    cases Span.splitAtClose [] rest <;> rfl

/-- A plain byte with what compaction leaves behind it makes no comment, unless it is a slash
that meets an opener. -/
theorem hasComment_compactFrom_plain {b : UInt8} {rest : Bytes} (fits : (Span.plain b).Fits rest)
    (inside : Bool) :
    HasComment (compactFrom inside [] [b] ++ compactFrom inside [] rest) ↔
      (b = Ascii.slash ∧ inside = false ∧ BlanksThenOpener rest)
        ∨ HasComment (compactFrom inside [] rest) := by
  obtain ⟨hquote, hmeets⟩ := fits
  by_cases hslash : b = Ascii.slash
  · subst hslash
    have kept : compactFrom inside [] [Ascii.slash] = [Ascii.slash] := by cases inside <;> rfl
    have apart : ∀ b, rest.head? = some b → ¬ OpensComment b := by
      rintro b hhead (rfl | rfl)
      · exact hmeets ⟨rfl, .inl hhead⟩
      · exact hmeets ⟨rfl, .inr hhead⟩
    rw [kept, ← opener_behind_blanks_iff apart]
    by_cases meets : ∃ b, (compactFrom inside [] rest).head? = some b ∧ OpensComment b
    · obtain ⟨b, hhead, hopens⟩ := meets
      exact iff_of_true (hasComment_of_opener hhead hopens) (.inl ⟨rfl, b, hhead, hopens⟩)
    · have fits' : (Span.plain Ascii.slash).Fits (compactFrom inside [] rest) := by
        refine ⟨hquote, ?_⟩
        rintro ⟨-, hhead | hhead⟩
        · exact meets ⟨_, hhead, .inl rfl⟩
        · exact meets ⟨_, hhead, .inr rfl⟩
      refine (hasComment_append fits').trans ?_
      simp [meets, Span.isComment]
  · rw [compactFrom_cons]
    split
    · simp [hslash, compactFrom]
    · have fits' : (Span.plain b).Fits (compactFrom inside [] rest) :=
        ⟨hquote, fun h => hslash h.1⟩
      refine (hasComment_append fits').trans ?_
      simp [hslash, Span.isComment]

/-- **Where compaction makes a comment.** A reading without comments has one after compaction
exactly if a slash met an opener when the blanks between them were dropped. -/
theorem Reading.hasComment_compactFrom_iff {line : Bytes} {parts : List Span}
    (h : Reading line parts) (hparts : ∀ part ∈ parts, part.isComment = false) (inside : Bool) :
    HasComment (compactFrom inside [] line) ↔ SlashThenBlanks inside parts := by
  induction h generalizing inside with
  | nil =>
    refine iff_of_false not_hasComment_nil ?_
    rintro ⟨before, after, hsplit, -⟩
    simp at hsplit
  | @cons part rest parts fits hrest ih =>
    obtain ⟨hpart, hparts⟩ := List.forall_mem_cons.mp hparts
    have ih := ih hparts (inside ^^ oddQuotes part.text)
    rw [compactFrom_append, slashThenBlanks_cons, ← ih, hrest.text]
    by_cases hplain : ∃ b, part = .plain b
    · obtain ⟨b, rfl⟩ := hplain
      rw [Span.oddQuotes_plain fits, Bool.xor_false, Span.plain.injEq]
      exact hasComment_compactFrom_plain fits inside
    · rw [not_exists] at hplain
      obtain ⟨part', htext, hpart', hfits⟩ := Span.quoted_of_compactFrom hpart hplain inside
      rw [htext, hasComment_append (hfits rest _ fits), hpart']
      simp [hplain]

/-! ## Cleaning twice -/

/-- The line has a slash outside quoted text, with an even number of double quotes before it,
and behind it one or more blanks and then a slash or a star. -/
def GluesComment (line : Bytes) : Prop :=
  ∃ before after, spans line = before ++ .plain Ascii.slash :: after
    ∧ Even ((before.flatMap Span.text).count Ascii.doubleQuote)
    ∧ BlanksThenOpener (after.flatMap Span.text)

theorem hasComment_cleanLine_iff {line : Bytes} :
    HasComment (cleanLine line) ↔ GluesComment (strip line) := by
  have stripped : ∀ part ∈ spans (strip line), part.isComment = false := by
    intro part hpart
    exact Bool.eq_false_iff.mpr fun h => not_hasComment_strip line ⟨part, hpart, h⟩
  rw [cleanLine, compact, (reading_spans _).hasComment_compactFrom_iff stripped]
  simp only [SlashThenBlanks, GluesComment, Bool.false_xor, oddQuotes_eq_false_iff, compactQuote]

/-- A line is clean already when neither stage has anything to do. -/
theorem cleanLine_eq_self_iff {line : Bytes} :
    cleanLine line = line ↔ strip line = line ∧ compact line = line := by
  constructor
  · intro h
    have shorter := (compact_sublist (strip line)).length_le
    rw [← cleanLine, h] at shorter
    have stripped := (strip_sublist line).eq_of_length_le shorter
    rw [cleanLine, stripped] at h
    exact ⟨stripped, h⟩
  · rintro ⟨hstrip, hcompact⟩
    rw [cleanLine, hstrip, hcompact]

/-- **When cleaning twice is cleaning once.** A cleaned line is left alone by cleaning unless
the stripped line has a slash that the blanks behind it keep from opening a comment, and these
are dropped. In that case, and only then, the cleaned line has a comment, which the stripped
line has not, and the second cleaning makes it shorter. The lines that the first cleaning
leaves alone already are those without a comment and without a blank that an even number of
double quotes precedes. -/
theorem clean_twice_iff (line : Bytes) :
    (cleanLine (cleanLine line) = cleanLine line ↔ ¬ GluesComment (strip line))
    ∧ ¬ HasComment (strip line) ∧ (HasComment (cleanLine line) ↔ GluesComment (strip line))
    ∧ (GluesComment (strip line) →
        (cleanLine (cleanLine line)).length < (cleanLine line).length)
    ∧ (cleanLine line = line ↔ ¬ HasComment line
        ∧ ∀ before b after, line = before ++ b :: after → isBlank b = true →
          ¬ Even (before.count Ascii.doubleQuote)) := by
  have shorter (h : HasComment (cleanLine line)) :
      (cleanLine (cleanLine line)).length < (cleanLine line).length :=
    (compact_sublist _).length_le.trans_lt (strip_length_lt h)
  refine ⟨?_, not_hasComment_strip line, hasComment_cleanLine_iff, ?_, ?_⟩
  · rw [← hasComment_cleanLine_iff]
    constructor
    · intro hsame hcomment
      have := shorter hcomment
      rw [hsame] at this
      omega
    · intro hnone
      rw [cleanLine, strip_eq_self_iff.mpr hnone]
      exact compactFrom_compactFrom false (strip line)
  · exact fun hglues => shorter (hasComment_cleanLine_iff.mpr hglues)
  · rw [cleanLine_eq_self_iff, strip_eq_self_iff, compact, compactFrom_eq_self_iff]
    simp only [Bool.false_xor, ← Bool.not_eq_false, oddQuotes_eq_false_iff, compactQuote]

/-- A slash, a blank and the opening of what is no comment yet. -/
theorem glued_comment_is_cleaned_away :
    let line := utf8 "1/ *2*/ 3"
    GluesComment (strip line) ∧ cleanLine line = utf8 "1/*2*/3"
    ∧ cleanLine (cleanLine line) = utf8 "13"
    ∧ (cleanLine (cleanLine line)).length < (cleanLine line).length := by
  intro line
  have glues : GluesComment (strip line) := by
    refine ⟨[.plain 0x31], (utf8 " *2*/ 3").map .plain, by decide +kernel, by decide, ?_⟩
    exact ⟨[0x20], Ascii.star, utf8 "2*/ 3", by decide +kernel, nofun,
      List.forall_mem_singleton.mpr rfl, .inr rfl⟩
  obtain ⟨-, -, -, shorter, -⟩ := clean_twice_iff line
  exact ⟨glues, by decide +kernel, by decide +kernel, shorter glues⟩

end DataInlay
