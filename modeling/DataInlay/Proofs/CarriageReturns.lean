/-
# DataInlay.Proofs.CarriageReturns — line ends of two bytes

A carriage return before every line feed moves no line's end, and is a blank at the end of its
line like the line feed itself. So cleaning keeps both of them or none: the data of an input
with such line ends are those of the input without, with a carriage return before every line
feed among them (`dataOf_withReturns`). The declarations are the same when there is none.
-/
import DataInlay.Proofs.LineFeeds

namespace DataInlay

/-! ## Putting carriage returns -/

/-- The carriage return. -/
def carriageReturn : UInt8 := 0x0d

/-- The bytes with a carriage return put before every line feed. -/
def withReturns (s : Bytes) : Bytes :=
  s.flatMap fun b => if b = Ascii.lineFeed then [carriageReturn, b] else [b]

theorem withReturns_append (a b : Bytes) :
    withReturns (a ++ b) = withReturns a ++ withReturns b := List.flatMap_append

theorem withReturns_lineFeed : withReturns [Ascii.lineFeed] = [carriageReturn, Ascii.lineFeed] :=
  rfl

theorem length_withReturns (s : Bytes) :
    (withReturns s).length = s.length + s.count Ascii.lineFeed := by
  induction s with
  | nil => rfl
  | cons b s ih =>
    have first : (withReturns [b]).length = 1 + [b].count Ascii.lineFeed := by
      by_cases hb : b = Ascii.lineFeed <;> simp [withReturns, hb]
    rw [← List.singleton_append, withReturns_append, List.length_append, first, ih,
      List.length_append, List.length_singleton, List.count_append]
    omega

theorem withReturns_of_not_mem {s : Bytes} (h : Ascii.lineFeed ∉ s) : withReturns s = s := by
  induction s with
  | nil => rfl
  | cons b s ih =>
    rw [List.mem_cons, not_or] at h
    rw [← List.singleton_append, withReturns_append, ih h.2]
    simp [withReturns, Ne.symm h.1]

/-- They change what has a line feed, and only that. -/
theorem withReturns_eq_self_iff {s : Bytes} : withReturns s = s ↔ Ascii.lineFeed ∉ s := by
  refine ⟨fun h => ?_, withReturns_of_not_mem⟩
  have longer := length_withReturns s
  rw [h] at longer
  apply List.count_eq_zero.mp
  omega

theorem withReturns_eq_nil_iff {s : Bytes} : withReturns s = [] ↔ s = [] := by
  refine ⟨fun h => ?_, fun h => by rw [h]; rfl⟩
  have longer := length_withReturns s
  rw [h, List.length_nil] at longer
  apply List.eq_nil_of_length_eq_zero
  omega

/-! ## Lines with carriage returns -/

/-- The lines are those of the input, each with its own carriage return. -/
theorem lines_withReturns (input : Bytes) :
    lines (withReturns input) = (lines input).map withReturns := by
  induction input using lines_induction with
  | unended s hs =>
    rw [withReturns_of_not_mem hs, lines_open hs]
    split
    · rfl
    · rw [List.map_singleton, withReturns_of_not_mem hs]
  | line s rest hs ih =>
    have longer : Ascii.lineFeed ∉ s ++ [carriageReturn] := by
      rw [List.mem_append, not_or]
      exact ⟨hs, by decide⟩
    have whole : withReturns (s ++ Ascii.lineFeed :: rest)
        = s ++ [carriageReturn] ++ Ascii.lineFeed :: withReturns rest := by
      rw [withReturns_append, withReturns_of_not_mem hs, List.append_assoc]
      rfl
    rw [whole, lines_append_lineFeed longer, ih, lines_append_lineFeed hs, List.map_cons,
      withReturns_append, withReturns_of_not_mem hs, withReturns_lineFeed, List.append_assoc]
    rfl

theorem isBlank_lineEnd : ∀ b ∈ [carriageReturn, Ascii.lineFeed], isBlank b = true :=
  List.forall_mem_cons.mpr ⟨rfl, isBlank_lineFeed⟩

/-- What cleaning leaves of a line has its carriage return where it has its line feed. -/
theorem cleanLine_withReturns {line input : Bytes} (h : line ∈ lines input) :
    cleanLine (withReturns line) = withReturns (cleanLine line) := by
  rcases isEndedLine_or_open h with ⟨s, hs, rfl⟩ | hopen
  · rw [withReturns_append, withReturns_of_not_mem hs, withReturns_lineFeed,
      cleanLine_append_blanks isBlank_lineEnd, cleanLine_append_blanks isBlank_lineFeed,
      withReturns_append, withReturns_of_not_mem (lineFeed_not_mem_cleanLine hs)]
    split <;> rfl
  · rw [withReturns_of_not_mem hopen, withReturns_of_not_mem (lineFeed_not_mem_cleanLine hopen)]

theorem dataOf_withReturns (input : Bytes) :
    dataOf (withReturns input) = withReturns (dataOf input) := by
  calc dataOf (withReturns input)
      = (lines input).flatMap fun line => cleanLine (withReturns line) := by
        rw [dataOf, lines_withReturns, List.flatMap_map]
    _ = (lines input).flatMap fun line => withReturns (cleanLine line) :=
        List.flatMap_congr fun line hline => cleanLine_withReturns hline
    _ = withReturns (dataOf input) := List.flatMap_assoc.symm

/-- No line becomes empty by cleaning or ceases to be, and so as many are emitted. -/
theorem countP_withReturns (input : Bytes) :
    ((lines input).map withReturns).countP (cleanLine · ≠ [])
      = (lines input).countP (cleanLine · ≠ []) := by
  rw [List.countP_map]
  apply List.countP_congr
  intro line hline
  simp [cleanLine_withReturns hline, withReturns_eq_nil_iff]

/-- **Line ends of two bytes.** An input with a carriage return before every line feed has the
declaration of the input without them exactly when no line keeps its line feed. In any case its
data are those of the input with a carriage return before each line feed that a line keeps, and
as many lines are read and emitted. -/
theorem carriage_returns_before_line_feeds (input : Bytes) (options : Options) :
    let data := (lines input).flatMap cleanLine
    (writtenFor (withReturns input) options = writtenFor input options ↔
      ∀ line ∈ lines input, (cleanLine line).getLast? ≠ some Ascii.lineFeed)
    ∧ decode? options.symbol (writtenFor input options) = some (data ++ [trailingByte])
    ∧ decode? options.symbol (writtenFor (withReturns input) options)
        = some (withReturns data ++ [trailingByte])
    ∧ lines (withReturns input) = (lines input).map withReturns
    ∧ (∀ line ∈ lines input, cleanLine (withReturns line) = withReturns (cleanLine line)
        ∧ (Ascii.lineFeed ∈ cleanLine line ↔ (cleanLine line).getLast? = some Ascii.lineFeed))
    ∧ ∃ counts counts',
      (transform (.ofBytes input) ({} : BoundedSink) options).result = .ok counts
      ∧ (transform (.ofBytes (withReturns input)) ({} : BoundedSink) options).result = .ok counts'
      ∧ counts'.linesRead = counts.linesRead ∧ counts'.linesEmitted = counts.linesEmitted := by
  intro data
  refine ⟨?same, decode?_writtenFor input options, ?data, lines_withReturns input, ?line, ?counts⟩
  case same =>
    have feedless : Ascii.lineFeed ∉ dataOf input ↔
        ∀ line ∈ lines input, (cleanLine line).getLast? ≠ some Ascii.lineFeed := by
      rw [dataOf, List.mem_flatMap]
      constructor
      · intro hnone line hline hlast
        exact hnone ⟨line, hline, List.mem_of_getLast? hlast⟩
      · rintro hnone ⟨line, hline, hmem⟩
        exact hnone line hline ((lineFeed_mem_cleanLine_iff hline).mp hmem)
    rw [← feedless, ← withReturns_eq_self_iff, writtenFor_eq, writtenFor_eq, dataOf_withReturns]
    exact ⟨declaration_inj, fun h => by rw [h]⟩
  case data => rw [decode?_writtenFor, dataOf_withReturns, dataOf]
  case line =>
    exact fun line hline => ⟨cleanLine_withReturns hline, lineFeed_mem_cleanLine_iff hline⟩
  case counts =>
    rw [transform_unlimited, transform_unlimited, lines_withReturns]
    exact ⟨_, _, rfl, rfl, List.length_map _, countP_withReturns input⟩

end DataInlay
