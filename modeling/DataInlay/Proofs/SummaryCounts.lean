/-
# DataInlay.Proofs.SummaryCounts — what the counts of a conversion count

A conversion counts lines and bytes while it takes them, and its writer counts the
literals. When it succeeds, whatever its sink, the summary is a function of the lines of
the input (`transform_of_success`), and each count is that of something which can be seen:
bytes and line feeds of the input, lines that clean to something, literals that stand in
the text. The numbers of the other lines are told one by one.

The bytes removed are computed from two of the counts, by a subtraction that would hide a
wrong count at zero. `summary_conserves` says that it is exact: no line becomes longer by
cleaning, and the trailing literal is the one byte more that was written than read.
-/
import DataInlay.Proofs.Decoding
import Mathlib.Algebra.BigOperators.Group.List.Basic
import Mathlib.Algebra.Order.Ring.Int

namespace DataInlay

/-! ## Counting lines -/

theorem count_lineFeed_of_not_mem {s : Bytes} (h : Ascii.lineFeed ∉ s) (rest : Bytes) :
    (s ++ Ascii.lineFeed :: rest).count Ascii.lineFeed = rest.count Ascii.lineFeed + 1 := by
  rw [List.count_append, List.count_eq_zero_of_not_mem h, List.count_cons_self, Nat.zero_add]

/-- There are as many lines as line feeds, and one more when the last line has none. -/
theorem length_lines (input : Bytes) :
    (lines input).length = input.count Ascii.lineFeed
      + (if input ≠ [] ∧ input.getLast? ≠ some Ascii.lineFeed then 1 else 0) := by
  induction input using lines_induction with
  | unended s hs =>
    have hlast : s.getLast? ≠ some Ascii.lineFeed := fun last => hs (List.mem_of_getLast? last)
    rw [lines_open hs, List.count_eq_zero_of_not_mem hs]
    by_cases hempty : s = []
    · simp [hempty]
    · simp [hempty, hlast]
  | line s rest hs ih =>
    -- the end of the input is that of the rest, unless nothing is left
    have ending : (s ++ Ascii.lineFeed :: rest ≠ []
          ∧ (s ++ Ascii.lineFeed :: rest).getLast? ≠ some Ascii.lineFeed)
        ↔ (rest ≠ [] ∧ rest.getLast? ≠ some Ascii.lineFeed) := by
      cases rest <;> simp
    rw [lines_append_lineFeed hs, List.length_cons, ih, count_lineFeed_of_not_mem hs]
    simp only [ending]
    omega

/-! ## The lines that are dropped -/

/-- Their numbers are told in increasing order. -/
theorem emptyNumbers_increasing (first : Nat) (taken : List Bytes) :
    (emptyNumbers first taken).Pairwise (· < ·) := by
  have numbers : (taken.zipIdx first).map (·.2) = List.range' first taken.length :=
    List.zipIdx_map_snd first taken
  have some : (emptyNumbers first taken).Sublist (List.range' first taken.length) := by
    rw [← numbers]
    exact List.filter_sublist.map _
  exact List.Pairwise.sublist some List.pairwise_lt_range'

/-- They are those of the lines that clean to nothing. -/
theorem mem_emptyNumbers {first n : Nat} {taken : List Bytes} :
    n ∈ emptyNumbers first taken ↔
      ∃ i line, n = first + i ∧ taken[i]? = some line ∧ cleanLine line = [] := by
  rw [emptyNumbers, List.mem_map]
  constructor
  · rintro ⟨⟨line, number⟩, hmem, rfl⟩
    rw [List.mem_filter, List.mk_mem_zipIdx_iff_le_and_getElem?_sub] at hmem
    obtain ⟨⟨hfirst, hline⟩, hempty⟩ := hmem
    refine ⟨number - first, line, ?_, hline, of_decide_eq_true hempty⟩
    show number = first + (number - first)
    omega
  · rintro ⟨i, line, rfl, hline, hempty⟩
    refine ⟨(line, first + i), ?_, rfl⟩
    rw [List.mem_filter, List.mk_mem_zipIdx_iff_le_and_getElem?_sub, Nat.add_sub_cancel_left]
    exact ⟨⟨Nat.le_add_right first i, hline⟩, decide_eq_true hempty⟩

/-! ## Bytes read, written and removed -/

theorem cleaned_length_le (taken : List Bytes) :
    (taken.flatMap cleanLine).length ≤ taken.flatten.length := by
  induction taken with
  | nil => exact Nat.le_refl 0
  | cons line taken ih =>
    have hline := (cleanLine_sublist line).length_le
    rw [List.flatMap_cons, List.flatten_cons, List.length_append, List.length_append]
    omega

/-- What cleaning takes from all lines is what it takes from each, summed up. -/
theorem removed_sum (taken : List Bytes) :
    (taken.map fun line => (line.length : ℤ) - (cleanLine line).length).sum
      = (taken.flatten.length : ℤ) - (taken.flatMap cleanLine).length := by
  induction taken with
  | nil => rfl
  | cons line taken ih =>
    rw [List.map_cons, List.sum_cons, ih, List.flatMap_cons, List.flatten_cons, List.length_append,
      List.length_append]
    omega

namespace Summary

/-- The bytes read and one more are those written and those removed. -/
theorem ofLines_conserves (taken : List Bytes) :
    (ofLines taken).bytesRead + 1 = (ofLines taken).bytesEmitted + (ofLines taken).bytesRemoved := by
  have hcleaned := cleaned_length_le taken
  show taken.flatten.length + 1 = (taken.flatMap cleanLine).length + 1
    + (taken.flatten.length + 1 - ((taken.flatMap cleanLine).length + 1))
  omega

theorem ofLines_bytesRemoved (taken : List Bytes) :
    ((ofLines taken).bytesRemoved : ℤ)
      = (taken.map fun line => (line.length : ℤ) - (cleanLine line).length).sum := by
  have conserved := ofLines_conserves taken
  have hread : (ofLines taken).bytesRead = taken.flatten.length := rfl
  have hemitted : (ofLines taken).bytesEmitted = (taken.flatMap cleanLine).length + 1 := rfl
  rw [removed_sum]
  omega

end Summary

/-! ## Conversions that succeed -/

/-- An account of the bytes that a sink has taken: a write that succeeds adds its bytes to
it, and a flush that succeeds adds nothing. -/
structure Account (σ : Type) [Sink σ] where
  taken : σ → Bytes
  write {s s' : σ} {piece : Bytes} : Sink.write s piece = .done s' → taken s' = taken s ++ piece
  flush {s s' : σ} : Sink.flush s = .done s' → taken s' = taken s

/-- A bounded sink holds what it has taken. -/
def BoundedSink.account : Account BoundedSink where
  taken s := s.content.toList
  write {s s' piece} h := by
    rw [write_eq] at h
    split at h
    · next hfits =>
      have room : s.room piece.length = piece.length := hfits
      cases h
      rw [BoundedSink.taken, room, List.take_length, Array.toList_appendList]
    · cases h
  flush {s s'} h := by
    rw [flush_eq] at h
    split at h
    · cases h
    · cases h
      rfl

section Success

variable {σ : Type} [Sink σ]

theorem Account.writeAll (account : Account σ) {s s' : σ} {pieces : List Bytes}
    (h : writeAll s pieces = .done s') : account.taken s' = account.taken s ++ pieces.flatten := by
  induction pieces generalizing s with
  | nil =>
    cases h
    rw [List.flatten_nil, List.append_nil]
  | cons piece pieces ih =>
    rw [← List.singleton_append, writeAll_append, writeAll_singleton] at h
    cases hfirst : Sink.write s piece with
    | failed fault s₁ =>
      rw [hfirst] at h
      cases h
    | done s₁ =>
      rw [hfirst] at h
      rw [ih h, account.write hfirst, List.flatten_cons, List.append_assoc]

/-- A conversion that succeeds tells the summary and the dropped lines of its input, and its
sink has taken the declaration of the input's data. -/
theorem transform_of_success (account : Account σ) {input : Bytes} {sink : σ} {options : Options}
    {summary : Summary} (h : (transform (.ofBytes input) sink options).result = .ok summary) :
    summary = .ofLines (lines input)
      ∧ (transform (.ofBytes input) sink options).dropped = emptyNumbers 1 (lines input)
      ∧ account.taken (transform (.ofBytes input) sink options).sink
        = account.taken sink ++ declaration options.symbol options.width (dataOf input) := by
  have readable : (Source.ofBytes input).fault? = none := rfl
  have data : (Source.ofBytes input).lines.flatMap cleanLine = dataOf input := rfl
  cases hraw : (writeAll sink (bodyPieces options (dataOf input)
      ++ endPieces options.width (dataOf input).length)).andThen Sink.flush with
  | failed fault s =>
    rw [← data] at hraw
    have failed := (transform_of_untaken readable hraw).2
    rw [failed] at h
    cases h
  | done s =>
    have taken := hraw
    rw [← data] at taken
    have settled := transform_of_taken readable taken
    rw [settled] at h
    cases h
    rw [settled]
    refine ⟨rfl, rfl, ?_⟩
    show account.taken s = _
    cases hwritten : writeAll sink (bodyPieces options (dataOf input)
        ++ endPieces options.width (dataOf input).length) with
    | failed fault s₁ =>
      rw [hwritten] at hraw
      cases hraw
    | done s₁ =>
      rw [hwritten] at hraw
      rw [account.flush hraw, account.writeAll hwritten, pieces_flatten]

end Success

/-- **The counts of a conversion.** Whatever its sink, a conversion that succeeds has
counted the bytes and the lines of its input, the lines that clean to something, and the
literals of the text that its sink has taken, as a reader of declarations finds them there;
and it has told the numbers of all other lines, in order. What it says to be removed is
what cleaning takes from each line, summed up, so that nothing gets lost between the
counts. None of them is greater than one more than the length of the input, so that none
overflows a word of 64 bits for any input below `2 ^ 64 - 1` bytes. -/
theorem summary_conserves {σ : Type} [Sink σ] (account : Account σ) {input : Bytes} {sink : σ}
    {options : Options} {summary : Summary}
    (success : (transform (.ofBytes input) sink options).result = .ok summary) :
    let report := transform (.ofBytes input) sink options
    summary.bytesRead = input.length
    ∧ summary.linesRead = input.count Ascii.lineFeed
        + (if input ≠ [] ∧ input.getLast? ≠ some Ascii.lineFeed then 1 else 0)
    ∧ summary.linesEmitted = (lines input).countP (cleanLine · ≠ [])
    ∧ report.dropped.Pairwise (· < ·)
    ∧ (∀ n, n ∈ report.dropped ↔
        ∃ i line, n = 1 + i ∧ (lines input)[i]? = some line ∧ cleanLine line = [])
    ∧ (∃ text data, account.taken report.sink = account.taken sink ++ text
        ∧ decode? options.symbol text = some data ∧ summary.bytesEmitted = data.length)
    ∧ (summary.bytesRemoved : ℤ)
        = ((lines input).map fun line => (line.length : ℤ) - (cleanLine line).length).sum
    ∧ summary.bytesRead + 1 = summary.bytesEmitted + summary.bytesRemoved
    ∧ summary.linesRead ≤ input.length ∧ summary.linesEmitted ≤ summary.linesRead
    ∧ summary.bytesEmitted ≤ input.length + 1 := by
  intro report
  obtain ⟨rfl, hdropped, htaken⟩ := transform_of_success account success
  have hread : (Summary.ofLines (lines input)).bytesRead = input.length :=
    congrArg List.length (lines_flatten input)
  have conserved := Summary.ofLines_conserves (lines input)
  refine ⟨hread, length_lines input, rfl, ?_, ?_, ?_, Summary.ofLines_bytesRemoved _, conserved,
    length_lines_le input, List.countP_le_length, ?_⟩
  · rw [show report.dropped = _ from hdropped]
    exact emptyNumbers_increasing 1 (lines input)
  · intro n
    rw [show report.dropped = _ from hdropped]
    exact mem_emptyNumbers
  · refine ⟨_, _, htaken, decode?_declaration _ _ _, ?_⟩
    rw [List.length_append, List.length_singleton]
    rfl
  · omega

/-- A conversion in memory of three lines, of which the second cleans to nothing and the
last has no line feed. -/
theorem summary_of_three_lines :
    let input := utf8 "[1, // one\n \n2]"
    let report := transform (.ofBytes input) ({} : BoundedSink) {}
    ∃ summary, report.result = .ok summary ∧ summary.linesRead = 2 + 1 ∧ 2 ∈ report.dropped
      ∧ summary.bytesRead + 1 = summary.bytesEmitted + summary.bytesRemoved := by
  intro input report
  have success : report.result = .ok (.ofLines (lines input)) := by
    rw [show report = _ from transform_unlimited input {}]
  obtain ⟨-, hlines, -, -, hdropped, -, -, conserved, -⟩ :=
    summary_conserves BoundedSink.account success
  refine ⟨_, success, ?_, ?_, conserved⟩
  · rw [hlines]
    decide +kernel
  · exact (hdropped 2).mpr ⟨1, utf8 " \n", rfl, by decide +kernel, by decide +kernel⟩

end DataInlay
