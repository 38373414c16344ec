/-
# DataInlay.Proofs.StrippedLine — how a stripped line is read

Cutting text out of a line joins what stood around it, and joined text can be read anew: a
slash may meet another, or a quote open where it closed. Stripping does neither. A comment
starts with a slash, so it cannot stand right behind a plain slash, which would have opened a
comment of its own; and a quote that is not closed runs to the end of the line, so nothing
follows it that could be cut. The spans of a stripped line are therefore those spans of the
line that are no comments (`spans_strip`), and stripping leaves a line alone exactly when it
has no comment (`strip_eq_self_iff`).

Whether there is a comment can be seen without the scan going on: there is one exactly when a
`//` or a `/*` starts anywhere outside quoted text (`hasComment_iff`).
-/
import DataInlay.Proofs.SpanGrammar

namespace DataInlay

/-! ## What is left of a reading -/

/-- All comments start with a slash. -/
theorem Span.head?_of_comment {part : Span} (h : part.isComment = true) :
    part.text.head? = some Ascii.slash := by
  cases part with
  | quoted | unclosedQuoted | plain => cases h
  | lineComment | blockComment | unclosedBlockComment => rfl

/-- Text that starts with no slash starts with no comment, and what is kept of it starts like
the text itself. -/
theorem Reading.head?_keptText {line : Bytes} {parts : List Span} (h : Reading line parts)
    (hslash : line.head? ≠ some Ascii.slash) : (keptText parts).head? = line.head? := by
  cases h with
  | nil => rfl
  | @cons part rest parts _ _ =>
    obtain ⟨b, text, htext⟩ := List.exists_cons_of_ne_nil part.text_ne_nil
    cases hcomment : part.isComment with
    | true =>
      have hstart := Span.head?_of_comment hcomment
      rw [htext] at hstart hslash
      exact absurd hstart hslash
    | false =>
      rw [keptText_cons, hcomment, htext]
      rfl

/-- A span that is kept fits what is kept behind it. -/
theorem Span.Fits.kept {part : Span} {rest : Bytes} {parts : List Span} (fits : part.Fits rest)
    (hrest : Reading rest parts) (hpart : part.isComment = false) : part.Fits (keptText parts) := by
  cases part with
  | quoted q body => exact fits
  | unclosedQuoted q body =>
    obtain ⟨hquote, rfl⟩ := fits
    rw [hrest.eq_spans, spans_nil]
    exact ⟨hquote, rfl⟩
  | plain b =>
    refine ⟨fits.1, ?_⟩
    rintro ⟨rfl, hopens⟩
    have hslash : rest.head? ≠ some Ascii.slash := fun h => fits.2 ⟨rfl, .inl h⟩
    rw [hrest.head?_keptText hslash] at hopens
    exact fits.2 ⟨rfl, hopens⟩
  | lineComment | blockComment | unclosedBlockComment => cases hpart

/-- The spans that are kept are a reading of the text that is kept. -/
theorem Reading.kept {line : Bytes} {parts : List Span} (h : Reading line parts) :
    Reading (keptText parts) (parts.filter (!·.isComment)) := by
  induction h with
  | nil => exact .nil
  | @cons part rest parts fits hrest ih =>
    rw [keptText_cons, List.filter_cons]
    cases hpart : part.isComment with
    | true => exact ih
    | false => exact .cons (fits.kept hrest hpart) ih

/-- **The spans of a stripped line** are the spans of the line that are not comments. -/
theorem spans_strip (line : Bytes) : spans (strip line) = (spans line).filter (!·.isComment) :=
  (reading_spans line).kept.eq_spans.symm

/-! ## Lines with comments -/

/-- There is a comment among the spans of the line. -/
def HasComment (line : Bytes) : Prop := ∃ part ∈ spans line, part.isComment = true

theorem not_hasComment_nil : ¬ HasComment [] := by
  rw [HasComment, spans_nil]
  exact nofun

/-- A line that a fitting span starts has a comment if that is one, or the rest has one. -/
theorem hasComment_append {part : Span} {rest : Bytes} (fits : part.Fits rest) :
    HasComment (part.text ++ rest) ↔ part.isComment = true ∨ HasComment rest := by
  rw [HasComment, HasComment, fits.spans_eq]
  simp only [List.mem_cons, exists_eq_or_imp]

theorem not_hasComment_strip (line : Bytes) : ¬ HasComment (strip line) := by
  rw [HasComment, spans_strip]
  rintro ⟨part, hpart, hcomment⟩
  simp [hcomment] at hpart

/-- Stripping leaves a line alone exactly when there is no comment in it, -/
theorem strip_eq_self_iff {line : Bytes} : strip line = line ↔ ¬ HasComment line := by
  constructor
  · intro h
    rw [← h]
    exact not_hasComment_strip line
  · intro h
    have kept : (spans line).filter (!·.isComment) = spans line := by
      rw [List.filter_eq_self]
      intro part hpart
      simpa using fun hcomment => h ⟨part, hpart, hcomment⟩
    rw [strip, kept, spans_text]

/-- and makes it shorter otherwise. -/
theorem strip_length_lt {line : Bytes} (h : HasComment line) : (strip line).length < line.length := by
  apply Nat.lt_of_le_of_ne (strip_sublist line).length_le
  intro hlength
  exact strip_eq_self_iff.mp ((strip_sublist line).eq_of_length hlength) h

/-! ## Openings of comments -/

/-- The span is text in quotes, with the quote that closes it or without. -/
def Span.isQuoted : Span → Bool
  | quoted .. | unclosedQuoted .. => true
  | lineComment _ | blockComment _ | unclosedBlockComment _ | plain _ => false

/-- The marker stands on the line, and it starts within a span that is no quoted text. -/
def StartsOutsideQuotes (marker line : Bytes) : Prop :=
  ∃ before part after skipped behind, spans line = before ++ part :: after
    ∧ part.isQuoted = false ∧ part.text = skipped ++ behind ∧ behind ≠ []
    ∧ marker <+: behind ++ after.flatMap Span.text

/-- A comment starts with one of the two markers. -/
theorem Span.marker_of_comment {part : Span} (h : part.isComment = true) :
    lineCommentOpen <+: part.text ∨ blockCommentOpen <+: part.text := by
  cases part with
  | quoted | unclosedQuoted | plain => cases h
  | lineComment body => exact .inl (List.prefix_append _ body)
  | blockComment body =>
    rw [text, List.append_assoc]
    exact .inr (List.prefix_append _ _)
  | unclosedBlockComment body => exact .inr (List.prefix_append _ body)

/-- No marker starts at a plain byte. -/
theorem Span.Fits.no_marker {b : UInt8} {rest : Bytes} (fits : (Span.plain b).Fits rest) :
    ¬ lineCommentOpen <+: b :: rest ∧ ¬ blockCommentOpen <+: b :: rest := by
  have second {c d : UInt8} {s : Bytes} (h : [c, d] <+: b :: s) : b = c ∧ s.head? = some d := by
    obtain ⟨behind, h⟩ := h
    cases h
    exact ⟨rfl, rfl⟩
  refine ⟨fun h => ?_, fun h => ?_⟩
  · exact fits.2 ⟨(second h).1, .inl (second h).2⟩
  · exact fits.2 ⟨(second h).1, .inr (second h).2⟩

/-- A comment is a place where a marker starts outside quoted text, -/
theorem HasComment.starts {line : Bytes} (h : HasComment line) :
    StartsOutsideQuotes lineCommentOpen line ∨ StartsOutsideQuotes blockCommentOpen line := by
  obtain ⟨part, hpart, hcomment⟩ := h
  obtain ⟨before, after, hspans⟩ := List.append_of_mem hpart
  have outside : part.isQuoted = false := by
    cases part with
    | quoted | unclosedQuoted => cases hcomment
    | lineComment | blockComment | unclosedBlockComment | plain => rfl
  have starts {marker : Bytes} (hmarker : marker <+: part.text) :
      StartsOutsideQuotes marker line :=
    ⟨before, part, after, [], part.text, hspans, outside, rfl, part.text_ne_nil,
      hmarker.trans (List.prefix_append _ _)⟩
  exact (Span.marker_of_comment hcomment).imp starts starts

/-- and there is no other: at a plain byte the scan would have seen it. -/
theorem StartsOutsideQuotes.hasComment {marker line : Bytes} (h : StartsOutsideQuotes marker line)
    (hmarker : marker = lineCommentOpen ∨ marker = blockCommentOpen) : HasComment line := by
  obtain ⟨before, part, after, skipped, behind, hspans, houtside, htext, hbehind, hstarts⟩ := h
  refine ⟨part, by rw [hspans]; exact List.mem_append_right _ List.mem_cons_self, ?_⟩
  cases part with
  | quoted | unclosedQuoted => cases houtside
  | lineComment | blockComment | unclosedBlockComment => rfl
  | plain b =>
    have fits := (hspans ▸ reading_spans line).fits_behind
    obtain rfl : behind = [b] := by
      rcases skipped with _ | ⟨c, skipped⟩
      · exact htext.symm
      · simp [Span.text, hbehind] at htext
    rcases hmarker with rfl | rfl
    · exact absurd hstarts fits.no_marker.1
    · exact absurd hstarts fits.no_marker.2

theorem hasComment_iff {line : Bytes} : HasComment line ↔
    StartsOutsideQuotes lineCommentOpen line ∨ StartsOutsideQuotes blockCommentOpen line :=
  ⟨HasComment.starts, fun h => h.elim (·.hasComment (.inl rfl)) (·.hasComment (.inr rfl))⟩

/-- **Stripping leaves no comment behind.** A stripped line is left alone by stripping: no
marker of a comment starts outside its quoted text, so that no slash has met another or a star
where a comment was cut out, and its spans are those of the line that are no comments, so that
no quote opens or closes other text than it did. The lines that stripping leaves alone are
those on which no marker starts outside quoted text. -/
theorem strip_leaves_no_comment (line : Bytes) :
    strip (strip line) = strip line
    ∧ ¬ StartsOutsideQuotes lineCommentOpen (strip line)
    ∧ ¬ StartsOutsideQuotes blockCommentOpen (strip line)
    ∧ spans (strip line) = (spans line).filter (!·.isComment)
    ∧ (strip line = line ↔ ¬ StartsOutsideQuotes lineCommentOpen line
        ∧ ¬ StartsOutsideQuotes blockCommentOpen line) := by
  have none := not_hasComment_strip line
  have unmarked := none
  rw [hasComment_iff, not_or] at unmarked
  refine ⟨strip_eq_self_iff.mpr none, unmarked.1, unmarked.2, spans_strip line, ?_⟩
  rw [strip_eq_self_iff, hasComment_iff, not_or]

/-- A comment cut out between two stars, and a slash that a quote follows. -/
example : strip (strip (utf8 "*/**/* /'//'/*")) = utf8 "** /'//'" := by decide +kernel

end DataInlay
