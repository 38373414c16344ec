/-
# DataInlay.Proofs.StreamFaults — conversions whose streams fail

A bounded sink does not care how its bytes are cut into pieces: pieces that fit
together are all taken, and otherwise it ends up holding as many of their bytes as
there was room for (`writeAll_eq`). With the pieces of a conversion known, this gives
the exact outcome for a sink that is full after any number of bytes, for a reader
that is cut off at any byte, and for both at once (`transform_under_faults`).

The faultless conversion is the case without a limit: it writes the declaration of
the input's data (`transform_unlimited`).
-/
import DataInlay.Proofs.Pieces

namespace DataInlay

namespace BoundedSink

/-! ## What a bounded sink makes of pieces -/

/-- The sink with as many of the bytes as there is room for. -/
def taken (s : BoundedSink) (bytes : Bytes) : BoundedSink :=
  { s with content := s.content ++ bytes.take (s.room bytes.length) }

/-- There is room for all of so many bytes. -/
def Fits (s : BoundedSink) (count : Nat) : Prop := s.room count = count

instance (s : BoundedSink) (count : Nat) : Decidable (s.Fits count) :=
  inferInstanceAs (Decidable (_ = _))

theorem write_eq (s : BoundedSink) (piece : Bytes) :
    Sink.write s piece =
      if s.Fits piece.length then .done (s.taken piece) else .failed "disk full" (s.taken piece) := by
  show s.write piece = _
  rw [write]
  by_cases h : s.Fits piece.length
  · have room : s.room piece.length = piece.length := h
    rw [if_pos room, if_pos h, taken, room, List.take_length]
  · have room : s.room piece.length ≠ piece.length := h
    rw [if_neg room, if_neg h, taken]

theorem room_le (s : BoundedSink) (count : Nat) : s.room count ≤ count := by
  unfold room
  split <;> omega

theorem taken_size (s : BoundedSink) (bytes : Bytes) :
    (s.taken bytes).content.size = s.content.size + s.room bytes.length := by
  have least := s.room_le bytes.length
  rw [← Array.length_toList, taken, Array.toList_appendList, List.length_append, List.length_take,
    Array.length_toList, Nat.min_eq_left least]

/-- A first part that fits uses up its length of the room, and no more. -/
theorem room_add {s : BoundedSink} {a : Bytes} (h : s.Fits a.length) (count : Nat) :
    s.room (a.length + count) = a.length + (s.taken a).room count := by
  have size := s.taken_size a
  rw [show s.room a.length = a.length from h] at size
  have limit : (s.taken a).limit = s.limit := rfl
  unfold Fits room at h
  unfold room
  rw [limit, size]
  cases hlimit : s.limit with
  | none => rfl
  | some most =>
    simp only [hlimit] at h ⊢
    omega

/-- A part that does not fit leaves no room for what follows it. -/
theorem room_of_not_fits {s : BoundedSink} {a : Bytes} (h : ¬ s.Fits a.length) (count : Nat) :
    s.room (a.length + count) = s.room a.length ∧ ¬ s.Fits (a.length + count) := by
  unfold Fits room at *
  cases hlimit : s.limit with
  | none => simp [hlimit] at h
  | some most =>
    simp only [hlimit] at h ⊢
    omega

theorem taken_nil (s : BoundedSink) : s.taken [] = s := by
  simp [taken]

theorem taken_append {s : BoundedSink} {a : Bytes} (h : s.Fits a.length) (b : Bytes) :
    s.taken (a ++ b) = (s.taken a).taken b := by
  have room := room_add h b.length
  rw [← List.length_append] at room
  have whole : s.room a.length = a.length := h
  have content : s.content ++ (a ++ b.take ((s.taken a).room b.length))
      = s.content ++ a ++ b.take ((s.taken a).room b.length) := by
    apply Array.ext'
    simp
  rw [taken, room, List.take_length_add_append, content]
  simp only [taken, whole, List.take_length]

theorem taken_append_of_not_fits {s : BoundedSink} {a : Bytes} (h : ¬ s.Fits a.length) (b : Bytes) :
    s.taken (a ++ b) = s.taken a := by
  have room := (room_of_not_fits h b.length).1
  have least := s.room_le a.length
  rw [← List.length_append] at room
  rw [taken, room, List.take_append_of_le_length least, taken]

theorem fits_append {s : BoundedSink} {a : Bytes} (h : s.Fits a.length) (b : Bytes) :
    s.Fits (a ++ b).length ↔ (s.taken a).Fits b.length := by
  rw [List.length_append, Fits, room_add h, Fits]
  omega

/-- Pieces are taken like their bytes at once. -/
theorem writeAll_eq (s : BoundedSink) (pieces : List Bytes) :
    writeAll s pieces =
      if s.Fits pieces.flatten.length then .done (s.taken pieces.flatten)
      else .failed "disk full" (s.taken pieces.flatten) := by
  -- behind a piece that does not fit there is no room for the next, so its bytes do not matter
  induction pieces generalizing s with
  | nil =>
    have : s.Fits 0 := Nat.le_zero.mp (s.room_le 0)
    rw [List.flatten_nil, taken_nil, List.length_nil, if_pos this]
    rfl
  | cons piece pieces ih =>
    rw [← List.singleton_append, writeAll_append, writeAll_singleton, write_eq,
      List.singleton_append, List.flatten_cons]
    by_cases h : s.Fits piece.length
    · rw [if_pos h, taken_append h, Attempt.andThen, ih]
      simp only [fits_append h]
    · have none := (room_of_not_fits h pieces.flatten.length).2
      rw [← List.length_append] at none
      rw [if_neg h, if_neg none, taken_append_of_not_fits h, Attempt.andThen]

theorem flush_eq (s : BoundedSink) :
    Sink.flush s =
      if s.flushFails then .failed "flush failed" { s with flushes := s.flushes + 1 }
      else .done { s with flushes := s.flushes + 1 } := rfl

/-- An empty sink with a limit has room for that many bytes. -/
theorem fits_empty {limit count : Nat} {flushFails : Bool} :
    ({ limit := some limit, flushFails } : BoundedSink).Fits count ↔ count ≤ limit := by
  show min count (limit - 0) = count ↔ count ≤ limit
  omega

/-- An empty sink with a limit is left with the first bytes, up to the limit. -/
theorem taken_empty (limit : Nat) (flushFails : Bool) (bytes : Bytes) :
    ({ limit := some limit, flushFails } : BoundedSink).taken bytes =
      { content := (bytes.take limit).toArray, limit := some limit, flushFails } := by
  have room : ({ limit := some limit, flushFails } : BoundedSink).room bytes.length
      = min limit bytes.length := Nat.min_comm _ _
  have content : (#[] : Array UInt8) ++ bytes.take limit = (bytes.take limit).toArray := by
    apply Array.ext'
    simp
  rw [taken, room, ← List.take_eq_take_min, content]

end BoundedSink

/-! ## Conversions without a fault -/

/-- Without a fault, the sink holds the declaration of the input's data and was flushed
once, the dropped lines are those that clean to nothing, and the summary counts all. -/
theorem transform_unlimited (input : Bytes) (options : Options) :
    transform (.ofBytes input) ({} : BoundedSink) options =
      ⟨{ content := (declaration options.symbol options.width (dataOf input)).toArray,
         flushes := 1 },
        emptyNumbers 1 (lines input), .ok (Summary.ofLines (lines input))⟩ := by
  apply transform_of_taken (rfl : (Source.ofBytes input).fault? = none)
  rw [BoundedSink.writeAll_eq]
  show (if _ then _ else _ : Attempt BoundedSink).andThen Sink.flush = _
  rw [show (Source.ofBytes input).lines.flatMap cleanLine = dataOf input from rfl, pieces_flatten,
    if_pos (show BoundedSink.Fits {} _ from rfl), Attempt.andThen, BoundedSink.flush_eq]
  have content : (#[] : Array UInt8) ++ declaration options.symbol options.width (dataOf input)
      = (declaration options.symbol options.width (dataOf input)).toArray := by
    apply Array.ext'
    simp
  simp [BoundedSink.taken, BoundedSink.room]

/-! ## Conversions with faults -/

/-- What a conversion writes before its reader fails behind the first `count` bytes: the
header, and the data of the lines that were whole by then. -/
def writtenBefore (count : Nat) (input : Bytes) (options : Options) : Bytes :=
  header options.symbol ++
    layout options.width 0 ((linesWithin count (lines input)).flatMap cleanLine)

/-- Before its reader fails, a conversion has written a beginning of the declaration. -/
theorem writtenBefore_isPrefix (count : Nat) (input : Bytes) (options : Options) :
    writtenBefore count input options
      <+: declaration options.symbol options.width (dataOf input) := by
  obtain ⟨later, hlater⟩ := linesWithin_isPrefix count (lines input)
  have data : dataOf input = (linesWithin count (lines input)).flatMap cleanLine
      ++ later.flatMap cleanLine :=
    (congrArg (List.flatMap cleanLine) hlater.symm).trans List.flatMap_append
  rw [declaration, data, List.append_assoc _ _ [trailingByte], layout_append, writtenBefore]
  refine ⟨layout options.width (0 + ((linesWithin count (lines input)).flatMap cleanLine).length)
    (later.flatMap cleanLine ++ [trailingByte]) ++ closing, ?_⟩
  simp only [List.append_assoc]

/-- What can be seen of a conversion: its result, the bytes in the sink, and how often the
sink was flushed. -/
def Report.outcome (r : Report BoundedSink) : Except InlayError Summary × Bytes × Nat :=
  (r.result, r.sink.content.toList, r.sink.flushes)

section Limited

variable (input : Bytes) (options : Options) (limit : Nat) (flushFails : Bool)

/-- With a limit, the sink is left with the first bytes of the declaration, and flushed
only when that is all of it. -/
theorem transform_limited :
    (transform (.ofBytes input) ({ limit := some limit, flushFails } : BoundedSink)
      options).outcome =
      if limit < (declaration options.symbol options.width (dataOf input)).length then
        (.error (.streamWrite "disk full"),
          (declaration options.symbol options.width (dataOf input)).take limit, 0)
      else if flushFails then
        (.error (.streamWrite "flush failed"),
          declaration options.symbol options.width (dataOf input), 1)
      else
        (.ok (Summary.ofLines (lines input)),
          declaration options.symbol options.width (dataOf input), 1) := by
  have handed := BoundedSink.writeAll_eq ({ limit := some limit, flushFails } : BoundedSink)
    (bodyPieces options (dataOf input) ++ endPieces options.width (dataOf input).length)
  rw [pieces_flatten, BoundedSink.taken_empty] at handed
  by_cases h : limit < (declaration options.symbol options.width (dataOf input)).length
  · rw [if_neg (by rw [BoundedSink.fits_empty]; exact Nat.not_le.mpr h)] at handed
    obtain ⟨hsink, hresult⟩ := transform_of_untaken (rfl : (Source.ofBytes input).fault? = none)
      (congrArg (Attempt.andThen · Sink.flush) handed)
    rw [if_pos h, Report.outcome, hsink, hresult]
  · rw [if_pos (by rw [BoundedSink.fits_empty]; exact Nat.not_lt.mp h),
      List.take_of_length_le (Nat.not_lt.mp h)] at handed
    rw [if_neg h]
    cases flushFails with
    | true =>
      obtain ⟨hsink, hresult⟩ := transform_of_untaken (rfl : (Source.ofBytes input).fault? = none)
        (congrArg (Attempt.andThen · Sink.flush) handed)
      rw [if_pos rfl, Report.outcome, hsink, hresult]
    | false =>
      rw [transform_of_taken (rfl : (Source.ofBytes input).fault? = none)
        (congrArg (Attempt.andThen · Sink.flush) handed)]
      rfl

/-- When the reader fails, what the lines before that give is all that is written, and a
sink that is full before then decides the result. -/
theorem transform_cut (count : Nat) :
    (transform (.cutAt count input) ({ limit := some limit, flushFails } : BoundedSink)
      options).outcome =
      if limit < (writtenBefore count input options).length then
        (.error (.streamWrite "disk full"), (writtenBefore count input options).take limit, 0)
      else (.error (.streamRead "device unplugged"), writtenBefore count input options, 0) := by
  have handed := BoundedSink.writeAll_eq ({ limit := some limit, flushFails } : BoundedSink)
    (bodyPieces options ((Source.cutAt count input).lines.flatMap cleanLine))
  have written : (bodyPieces options ((Source.cutAt count input).lines.flatMap cleanLine)).flatten
      = writtenBefore count input options := by
    rw [bodyPieces_flatten, writtenBefore, ← whole_lines_take]
    rfl
  rw [written, BoundedSink.taken_empty] at handed
  by_cases h : limit < (writtenBefore count input options).length
  · rw [if_neg (by rw [BoundedSink.fits_empty]; exact Nat.not_le.mpr h)] at handed
    obtain ⟨hsink, hresult⟩ := transform_of_refused handed
    rw [if_pos h, Report.outcome, hsink, hresult]
  · rw [if_pos (by rw [BoundedSink.fits_empty]; exact Nat.not_lt.mp h),
      List.take_of_length_le (Nat.not_lt.mp h)] at handed
    obtain ⟨hsink, hresult⟩ := transform_of_unread handed rfl
    rw [if_neg h, Report.outcome, hsink, hresult]

end Limited

/-- The source that a reader of the input is, with a fault behind so many bytes if at all. -/
def Source.ofReader (input : Bytes) : Option Nat → Source
  | none => .ofBytes input
  | some count => .cutAt count input

/-- **Conversions between failing streams.** With a sink that holds `limit` bytes and a
reader that may fail behind some byte, the first `limit` bytes of what is to be written
reach the sink; a sink that is full before all is written decides the result, and only a
declaration that is written to its end is flushed. In any case the sink holds a beginning
of the faultless declaration. -/
theorem transform_under_faults (input : Bytes) (options : Options) (limit : Nat)
    (readFault : Option Nat) (flushFails : Bool) :
    let faultless := (transform (.ofBytes input) ({} : BoundedSink) options).sink.content.toList
    let report := transform (.ofReader input readFault)
      ({ limit := some limit, flushFails } : BoundedSink) options
    (report.outcome =
      match readFault with
      | none =>
        if limit < faultless.length then
          (.error (.streamWrite "disk full"), faultless.take limit, 0)
        else if flushFails then (.error (.streamWrite "flush failed"), faultless, 1)
        else (.ok (Summary.ofLines (lines input)), faultless, 1)
      | some count =>
        if limit < (writtenBefore count input options).length then
          (.error (.streamWrite "disk full"), (writtenBefore count input options).take limit, 0)
        else (.error (.streamRead "device unplugged"), writtenBefore count input options, 0))
    ∧ report.sink.content.toList <+: faultless := by
  intro faultless report
  have whole : faultless = declaration options.symbol options.width (dataOf input) := by
    show (transform (.ofBytes input) ({} : BoundedSink) options).sink.content.toList = _
    rw [transform_unlimited]
  rw [whole]
  cases readFault with
  | none =>
    have outcome := transform_limited input options limit flushFails
    refine ⟨outcome, ?_⟩
    show report.outcome.2.1 <+: _
    rw [show report.outcome = _ from outcome]
    split
    · exact List.take_prefix _ _
    · split <;> exact List.prefix_rfl
  | some count =>
    have outcome := transform_cut input options limit flushFails count
    refine ⟨outcome, ?_⟩
    show report.outcome.2.1 <+: _
    rw [show report.outcome = _ from outcome]
    split
    · exact (List.take_prefix _ _).trans (writtenBefore_isPrefix count input options)
    · exact writtenBefore_isPrefix count input options

end DataInlay
