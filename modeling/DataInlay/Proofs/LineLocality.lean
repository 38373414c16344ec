/-
# DataInlay.Proofs.LineLocality — what one line does to the others: nothing

A line is cleaned on its own, and a conversion keeps nothing of it but counts. So an input
that is cut at the start of a line falls into two inputs, whose data follow each other in
the array and whose counts add up, whatever quote or comment the first leaves open. Between
the two any line may stand and adds its own data there, and one that cleans to nothing adds
nothing (`transform_line_local`). Those are the lines of comments and blanks
(`cleanLine_eq_nil_iff`).
-/
import DataInlay.Proofs.QuoteParity
import DataInlay.Proofs.SummaryCounts

namespace DataInlay

/-! ## Cutting at the start of a line -/

/-- Behind the bytes a line starts: they are none, or end in a line feed. -/
def AtLineStart (before : Bytes) : Prop := before = [] ∨ before.getLast? = some Ascii.lineFeed

/-- The bytes are one line with the line feed that ends it. -/
def IsEndedLine (line : Bytes) : Prop := ∃ s, Ascii.lineFeed ∉ s ∧ line = s ++ [Ascii.lineFeed]

theorem IsEndedLine.atLineStart {line : Bytes} (h : IsEndedLine line) : AtLineStart line := by
  obtain ⟨s, -, rfl⟩ := h
  exact .inr List.getLast?_concat

theorem AtLineStart.append {a b : Bytes} (ha : AtLineStart a) (hb : AtLineStart b) :
    AtLineStart (a ++ b) := by
  rcases hb with rfl | hlast
  · rwa [List.append_nil]
  · right
    rw [List.getLast?_append, hlast]
    rfl

/-- The lines in front of a line's start and those behind it are the lines of the whole. -/
theorem lines_append {a : Bytes} (ha : AtLineStart a) (b : Bytes) :
    lines (a ++ b) = lines a ++ lines b := by
  induction a using lines_induction with
  | unended s hs =>
    rcases ha with rfl | hlast
    · rfl
    · exact absurd (List.mem_of_getLast? hlast) hs
  | line s rest hs ih =>
    have hrest : AtLineStart rest := by
      rcases rest with _ | ⟨c, rest⟩
      · exact .inl rfl
      · right
        simpa [AtLineStart] using ha
    rw [List.append_assoc, List.cons_append, lines_append_lineFeed hs, lines_append_lineFeed hs,
      ih hrest, List.cons_append]

theorem lines_of_isEndedLine {line : Bytes} (h : IsEndedLine line) : lines line = [line] := by
  obtain ⟨s, hs, rfl⟩ := h
  rw [lines_append_lineFeed hs, lines_nil]

theorem dataOf_append {a : Bytes} (ha : AtLineStart a) (b : Bytes) :
    dataOf (a ++ b) = dataOf a ++ dataOf b := by
  rw [dataOf, lines_append ha, List.flatMap_append, dataOf, dataOf]

theorem dataOf_of_isEndedLine {line : Bytes} (h : IsEndedLine line) :
    dataOf line = cleanLine line := by
  rw [dataOf, lines_of_isEndedLine h, List.flatMap_cons, List.flatMap_nil, List.append_nil]

/-- Lines that clean to nothing, put together, have no data, and a line starts behind them. -/
theorem dataOf_flatten_of_empty {inserted : List Bytes}
    (h : ∀ line ∈ inserted, IsEndedLine line ∧ cleanLine line = []) :
    AtLineStart inserted.flatten ∧ dataOf inserted.flatten = [] := by
  induction inserted with
  | nil => exact ⟨.inl rfl, rfl⟩
  | cons line inserted ih =>
    obtain ⟨hline, hempty⟩ := h line List.mem_cons_self
    obtain ⟨hstart, hdata⟩ := ih fun other hother => h other (List.mem_cons_of_mem line hother)
    rw [List.flatten_cons]
    refine ⟨hline.atLineStart.append hstart, ?_⟩
    rw [dataOf_append hline.atLineStart, dataOf_of_isEndedLine hline, hempty, hdata]
    rfl

/-! ## The lines that clean to nothing -/

/-- Blanks are all that compaction can drop. -/
theorem compact_eq_nil_iff {s : Bytes} : compact s = [] ↔ ∀ b ∈ s, isBlank b = true := by
  rw [compact]
  induction s with
  | nil => exact iff_of_true rfl (List.forall_mem_nil _)
  | cons b s ih =>
    rw [List.forall_mem_cons, compactFrom_cons]
    by_cases hblank : isBlank b = true
    · rw [beq_false_of_ne (ne_compactQuote_of_isBlank hblank)]
      simpa [hblank] using ih
    · simp [hblank]

namespace Span

/-- The span leaves nothing behind: it is a comment, or a blank outside quotes. -/
inductive Vanishes : Span → Prop
  | comment {part : Span} : part.isComment = true → Vanishes part
  | blank {b : UInt8} : isBlank b = true → Vanishes (.plain b)

theorem vanishes_iff {part : Span} :
    part.Vanishes ↔ ∀ b ∈ (if part.isComment then [] else part.text), isBlank b = true := by
  cases part with
  | plain b =>
    constructor
    · rintro (hcomment | hblank)
      · cases hcomment
      · simpa [isComment, text] using hblank
    · intro h
      exact .blank (h b List.mem_cons_self)
  | quoted q body | unclosedQuoted q body =>
    constructor
    · rintro (hcomment | -)
      cases hcomment
    · intro h
      exact absurd (h q.byte List.mem_cons_self) (by simp [isBlank_quote])
  | lineComment | blockComment | unclosedBlockComment =>
    exact iff_of_true (.comment rfl) (List.forall_mem_nil _)

end Span

/-- Only a line of comments and blanks cleans to nothing. -/
theorem cleanLine_eq_nil_iff {line : Bytes} :
    cleanLine line = [] ↔ ∀ part ∈ spans line, part.Vanishes := by
  rw [cleanLine, compact_eq_nil_iff, strip_eq_keptText]
  induction spans line with
  | nil => exact iff_of_true (List.forall_mem_nil _) (List.forall_mem_nil _)
  | cons part parts ih =>
    rw [keptText_cons, List.forall_mem_cons, Span.vanishes_iff, ← ih]
    simp only [List.mem_append, or_imp, forall_and]

/-! ## Counts -/

/-- The counts of lines and bytes add up; the trailing literal is there once. -/
theorem Summary.ofLines_append (a b : List Bytes) :
    (ofLines (a ++ b)).linesRead = (ofLines a).linesRead + (ofLines b).linesRead
    ∧ (ofLines (a ++ b)).linesEmitted = (ofLines a).linesEmitted + (ofLines b).linesEmitted
    ∧ (ofLines (a ++ b)).bytesRead = (ofLines a).bytesRead + (ofLines b).bytesRead
    ∧ (ofLines (a ++ b)).bytesEmitted + 1 = (ofLines a).bytesEmitted + (ofLines b).bytesEmitted := by
  refine ⟨List.length_append, List.countP_append, ?_, ?_⟩
  · show (a ++ b).flatten.length = a.flatten.length + b.flatten.length
    rw [List.flatten_append, List.length_append]
  · show ((a ++ b).flatMap cleanLine).length + 1 + 1
      = (a.flatMap cleanLine).length + 1 + ((b.flatMap cleanLine).length + 1)
    rw [List.flatMap_append, List.length_append]
    omega

theorem Summary.ofLines_append_bytesRemoved (a b : List Bytes) :
    (ofLines (a ++ b)).bytesRemoved = (ofLines a).bytesRemoved + (ofLines b).bytesRemoved := by
  obtain ⟨-, -, hread, hemitted⟩ := ofLines_append a b
  have both := ofLines_conserves (a ++ b)
  have first := ofLines_conserves a
  have second := ofLines_conserves b
  omega

/-! ## Conversions -/

/-- What the array of an input's conversion holds. -/
theorem decode?_writtenFor (input : Bytes) (options : Options) :
    decode? options.symbol (writtenFor input options) = some (dataOf input ++ [trailingByte]) := by
  rw [writtenFor_eq, decode?_declaration]

/-- **A line does nothing to the others.** Let an input be cut at the start of a line. Its
data are those of the first part and then those of the second, its lines and bytes are
counted in one of the two, and what is removed is removed there. A line that is put between
the two leaves all other lines what they are and adds its own data between theirs, so that
another in its place changes those data only. If lines are put there that clean to nothing,
and that is lines of comments and blanks, the text of the declaration stays the same. -/
theorem transform_line_local (options : Options) {a : Bytes} (ha : AtLineStart a) (b : Bytes) :
    (∃ dataA dataB,
      decode? options.symbol (writtenFor a options) = some (dataA ++ [trailingByte])
      ∧ decode? options.symbol (writtenFor b options) = some (dataB ++ [trailingByte])
      ∧ decode? options.symbol (writtenFor (a ++ b) options)
        = some (dataA ++ dataB ++ [trailingByte])
      ∧ ∀ line, IsEndedLine line →
        lines (a ++ line ++ b) = lines a ++ line :: lines b
        ∧ decode? options.symbol (writtenFor (a ++ line ++ b) options)
          = some (dataA ++ cleanLine line ++ dataB ++ [trailingByte]))
    ∧ (∃ countsA countsB counts,
      (transform (.ofBytes a) ({} : BoundedSink) options).result = .ok countsA
      ∧ (transform (.ofBytes b) ({} : BoundedSink) options).result = .ok countsB
      ∧ (transform (.ofBytes (a ++ b)) ({} : BoundedSink) options).result = .ok counts
      ∧ counts.linesRead = countsA.linesRead + countsB.linesRead
      ∧ counts.linesEmitted = countsA.linesEmitted + countsB.linesEmitted
      ∧ counts.bytesRead = countsA.bytesRead + countsB.bytesRead
      ∧ counts.bytesRemoved = countsA.bytesRemoved + countsB.bytesRemoved)
    ∧ (∀ inserted : List Bytes, (∀ line ∈ inserted, IsEndedLine line ∧ cleanLine line = []) →
      writtenFor (a ++ inserted.flatten ++ b) options = writtenFor (a ++ b) options)
    ∧ ∀ line, cleanLine line = [] ↔ ∀ part ∈ spans line, part.Vanishes := by
  refine ⟨⟨dataOf a, dataOf b, ?_, ?_, ?_, ?_⟩, ?counts, ?inserted, ?_⟩
  · exact decode?_writtenFor a options
  · exact decode?_writtenFor b options
  · rw [decode?_writtenFor, dataOf_append ha]
  · intro line hline
    have both : AtLineStart (a ++ line) := ha.append hline.atLineStart
    constructor
    · rw [lines_append both, lines_append ha, lines_of_isEndedLine hline, List.append_assoc,
        List.singleton_append]
    · rw [decode?_writtenFor, dataOf_append both, dataOf_append ha, dataOf_of_isEndedLine hline]
  case counts =>
    obtain ⟨hlines, hemitted, hread, -⟩ := Summary.ofLines_append (lines a) (lines b)
    have hremoved := Summary.ofLines_append_bytesRemoved (lines a) (lines b)
    rw [transform_unlimited, transform_unlimited, transform_unlimited, lines_append ha]
    exact ⟨_, _, _, rfl, rfl, rfl, hlines, hemitted, hread, hremoved⟩
  case inserted =>
    intro inserted h
    obtain ⟨hstart, hempty⟩ := dataOf_flatten_of_empty h
    rw [writtenFor_eq, writtenFor_eq, dataOf_append (ha.append hstart), dataOf_append ha,
      dataOf_append ha, hempty, List.append_nil]
  · exact fun line => cleanLine_eq_nil_iff

/-- A line that leaves a comment open, between one that leaves a quote open and one that has
nothing to close. -/
theorem open_comment_stays_in_line :
    let a := utf8 "\"open\n"
    let line := utf8 " /* open\n"
    let b := utf8 "*/ 1\n"
    AtLineStart a ∧ IsEndedLine line ∧ cleanLine line = []
    ∧ writtenFor (a ++ line ++ b) {} = writtenFor (a ++ b) {} := by
  intro a line b
  have ha : AtLineStart a := .inr (by decide +kernel)
  have hline : IsEndedLine line := ⟨utf8 " /* open", by decide +kernel, by decide +kernel⟩
  have hempty : cleanLine line = [] := by decide +kernel
  obtain ⟨-, -, inserted, -⟩ := transform_line_local {} ha b
  have same := inserted [line] fun other hother => by
    rw [List.mem_singleton.mp hother]
    exact ⟨hline, hempty⟩
  rw [List.flatten_singleton] at same
  exact ⟨ha, hline, hempty, same⟩

end DataInlay
