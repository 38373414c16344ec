/-
# DataInlay.Proofs.Pieces — a conversion as the pieces that it hands over

Whatever its sink, a conversion does nothing to it but hand over pieces in a fixed
order and flush it at the end. The pieces depend on the symbol, the width and the
data alone: the header's, then a separator and a literal for each byte, then those
that end the declaration. So what a conversion leaves in its sink, and whether it
fails, is decided by what becomes of those pieces (`writeAll`), and each kind of sink
needs laws about nothing else.

`Attempt.Follows` states this for an operation on a state that contains a sink: it
succeeds when the pieces are taken, with a known state, and otherwise fails with the
same fault and leaves the sink where the pieces left it. Following is kept by doing
one operation after the other, which carries it from the writer to the lines and from
there to the whole conversion.
-/
import DataInlay.Conversion
import DataInlay.Proofs.Lines

namespace DataInlay

variable {σ τ : Type}

/-! ## Handing over pieces -/

/-- Hands the pieces to the sink, one after the other. -/
def writeAll [Sink σ] (s : σ) (pieces : List Bytes) : Attempt σ :=
  Attempt.each Sink.write s pieces

theorem writeAll_append [Sink σ] (s : σ) (a b : List Bytes) :
    writeAll s (a ++ b) = (writeAll s a).andThen (writeAll · b) :=
  Attempt.each_append Sink.write s a b

theorem writeAll_singleton [Sink σ] (s : σ) (piece : Bytes) :
    writeAll s [piece] = Sink.write s piece := by
  rw [writeAll, Attempt.each]
  cases Sink.write s piece <;> rfl

namespace Attempt

theorem andThen_done (first : Attempt τ) : first.andThen done = first := by
  cases first <;> rfl

theorem andThen_assoc (first : Attempt τ) (second third : τ → Attempt τ) :
    (first.andThen second).andThen third = first.andThen fun t => (second t).andThen third := by
  cases first <;> rfl

theorem each_cons {α : Type} (step : τ → α → Attempt τ) (t : τ) (a : α) (rest : List α) :
    each step t (a :: rest) = (step t a).andThen (each step · rest) := by
  rw [each]
  cases step t a <;> rfl

/-- Operations on a part of a state, one after the other, as operations on the state. -/
theorem each_map {α : Type} {f : σ → τ} {step : σ → α → Attempt σ} {step' : τ → α → Attempt τ}
    (h : ∀ s a, step' (f s) a = (step s a).map f) (s : σ) (as : List α) :
    each step' (f s) as = (each step s as).map f := by
  induction as generalizing s with
  | nil => rfl
  | cons a as ih =>
    rw [each, each, h]
    cases step s a with
    | done s' => exact ih s'
    | failed fault s' => rfl

/-- The operation succeeds and fails with `raw`, which is an attempt on the sink alone:
`after` is the state that a success leaves, and `sinkOf` finds the sink in a state. -/
def Follows (sinkOf : τ → σ) (after : σ → τ) (raw : Attempt σ) (whole : Attempt τ) : Prop :=
  match raw with
  | done s => whole = done (after s)
  | failed fault s => ∃ t, whole = failed fault t ∧ sinkOf t = s

section Follows

variable {sinkOf : τ → σ} {after : σ → τ} {raw : Attempt σ} {whole : Attempt τ}

theorem Follows.of_done (follows : Follows sinkOf after raw whole) {s : σ} (h : raw = done s) :
    whole = done (after s) := by
  subst h
  exact follows

theorem Follows.of_failed (follows : Follows sinkOf after raw whole) {fault : Fault} {s : σ}
    (h : raw = failed fault s) : ∃ t, whole = failed fault t ∧ sinkOf t = s := by
  subst h
  exact follows

theorem follows_self (raw : Attempt σ) : Follows id id raw raw := by
  cases raw with
  | done s => rfl
  | failed fault s => exact ⟨s, rfl, rfl⟩

/-- Following is kept when the state is seen as part of a larger one. -/
theorem Follows.map {υ : Type} (follows : Follows sinkOf after raw whole) {f : τ → υ}
    {sinkOf' : υ → σ} (h : ∀ t, sinkOf' (f t) = sinkOf t) :
    Follows sinkOf' (fun s => f (after s)) raw (whole.map f) := by
  cases raw with
  | done s =>
    rw [follows.of_done rfl]
    rfl
  | failed fault s =>
    obtain ⟨t, rfl, ht⟩ := follows.of_failed rfl
    exact ⟨f t, rfl, (h t).trans ht⟩

/-- Following is kept by going on with operations that follow. -/
theorem Follows.andThen {after' : σ → τ} {next : σ → Attempt σ} {next' : τ → Attempt τ}
    (first : Follows sinkOf after raw whole)
    (second : ∀ s, Follows sinkOf after' (next s) (next' (after s))) :
    Follows sinkOf after' (raw.andThen next) (whole.andThen next') := by
  cases raw with
  | done s =>
    rw [first.of_done rfl]
    exact second s
  | failed fault s =>
    obtain ⟨t, rfl, ht⟩ := first.of_failed rfl
    exact ⟨t, rfl, ht⟩

end Follows

end Attempt

/-! ## The pieces of a declaration -/

/-- The separator, if one is due, and the literal of each byte. -/
def layoutPieces (width : Option Width) (written : Nat) (data : Bytes) : List Bytes :=
  (data.zipIdx written).flatMap fun entry =>
    (if entry.2 = 0 then [] else [separator width entry.2]) ++ [literal entry.1]

/-- The pieces before the trailing literal: the header and the literals of the data. -/
def bodyPieces (options : Options) (data : Bytes) : List Bytes :=
  headerPieces options.symbol ++ layoutPieces options.width 0 data

/-- The pieces that end a declaration of so many literals. -/
def endPieces (width : Option Width) (written : Nat) : List Bytes :=
  layoutPieces width written [trailingByte] ++ [closing]

theorem layoutPieces_cons (width : Option Width) (written : Nat) (b : UInt8) (data : Bytes) :
    layoutPieces width written (b :: data) =
      ((if written = 0 then [] else [separator width written]) ++ [literal b])
        ++ layoutPieces width (written + 1) data := by
  simp [layoutPieces]

theorem layoutPieces_append (width : Option Width) (written : Nat) (a b : Bytes) :
    layoutPieces width written (a ++ b) =
      layoutPieces width written a ++ layoutPieces width (written + a.length) b := by
  simp [layoutPieces, List.zipIdx_append]

/-- The pieces of some data make up its layout. -/
theorem layoutPieces_flatten (width : Option Width) (written : Nat) (data : Bytes) :
    (layoutPieces width written data).flatten = layout width written data := by
  induction data generalizing written with
  | nil => rfl
  | cons b data ih =>
    rw [layoutPieces_cons, layout_cons, List.flatten_append, ih]
    by_cases h : written = 0 <;> simp [h, separator]

theorem bodyPieces_flatten (options : Options) (data : Bytes) :
    (bodyPieces options data).flatten = header options.symbol ++ layout options.width 0 data := by
  rw [bodyPieces, List.flatten_append, layoutPieces_flatten, header]

/-- All pieces of a declaration make up the declaration. -/
theorem pieces_flatten (options : Options) (data : Bytes) :
    (bodyPieces options data ++ endPieces options.width data.length).flatten =
      declaration options.symbol options.width data := by
  rw [List.flatten_append, bodyPieces_flatten, endPieces, List.flatten_append,
    layoutPieces_flatten, declaration, layout_append]
  simp

/-! ## The writer -/

namespace Writer

/-- The writer with `count` more literals and the given sink. -/
def advance (w : Writer σ) (count : Nat) (s : σ) : Writer σ := ⟨s, w.width, w.written + count⟩

@[simp] theorem advance_sink (w : Writer σ) (count : Nat) (s : σ) : (w.advance count s).sink = s :=
  rfl

@[simp] theorem advance_width (w : Writer σ) (count : Nat) (s : σ) :
    (w.advance count s).width = w.width := rfl

@[simp] theorem advance_written (w : Writer σ) (count : Nat) (s : σ) :
    (w.advance count s).written = w.written + count := rfl

theorem advance_advance (w : Writer σ) (m n : Nat) (s s' : σ) :
    (w.advance m s).advance n s' = w.advance (m + n) s' := by
  simp only [advance, Nat.add_assoc]

variable [Sink σ]

theorem put_follows (w : Writer σ) (piece : Bytes) :
    Attempt.Follows sink (w.advance 0) (writeAll w.sink [piece]) (w.put piece) := by
  rw [writeAll_singleton]
  exact (Attempt.follows_self (Sink.write w.sink piece)).map fun _ => rfl

theorem flush_follows (w : Writer σ) :
    Attempt.Follows sink (w.advance 0) (Sink.flush w.sink) w.flush :=
  (Attempt.follows_self (Sink.flush w.sink)).map fun _ => rfl

/-- Putting several pieces follows handing them over. -/
theorem puts_follow (w : Writer σ) (pieces : List Bytes) :
    Attempt.Follows sink (w.advance 0) (writeAll w.sink pieces) (Attempt.each put w pieces) := by
  induction pieces generalizing w with
  | nil => rfl
  | cons piece pieces ih =>
    rw [Attempt.each_cons, ← List.singleton_append, writeAll_append]
    apply (w.put_follows piece).andThen
    intro s
    exact ih (w.advance 0 s)

theorem start_follows (s : σ) (symbol : String) (width : Option Width) :
    Attempt.Follows sink (⟨·, width, 0⟩) (writeAll s (headerPieces symbol))
      (start s symbol width) :=
  puts_follow ⟨s, width, 0⟩ (headerPieces symbol)

/-- The literal is counted when it has been taken. -/
theorem putLiteral_follows (w : Writer σ) (b : UInt8) :
    Attempt.Follows sink (w.advance 1) (writeAll w.sink [literal b])
      ((w.put (literal b)).andThen fun w => .done { w with written := w.written + 1 }) := by
  -- counting does nothing to the sink
  rw [← Attempt.andThen_done (writeAll w.sink [literal b])]
  exact (w.put_follows (literal b)).andThen fun s => rfl

theorem pushByte_follows (w : Writer σ) (b : UInt8) :
    Attempt.Follows sink (w.advance 1) (writeAll w.sink (layoutPieces w.width w.written [b]))
      (w.pushByte b) := by
  rw [layoutPieces_cons, pushByte]
  by_cases h : w.written = 0
  · rw [if_pos h, if_pos h]
    exact w.putLiteral_follows b
  · rw [if_neg h, if_neg h, List.append_assoc, writeAll_append]
    apply (w.put_follows _).andThen
    intro s
    exact (w.advance 0 s).putLiteral_follows b

/-- Pushing follows the pieces of the data that is pushed. -/
theorem push_follows (w : Writer σ) (data : Bytes) :
    Attempt.Follows sink (w.advance data.length)
      (writeAll w.sink (layoutPieces w.width w.written data)) (w.push data) := by
  induction data generalizing w with
  | nil => rfl
  | cons b data ih =>
    rw [← List.singleton_append, layoutPieces_append, writeAll_append, push, List.singleton_append,
      Attempt.each_cons]
    apply (w.pushByte_follows b).andThen
    intro s
    -- the first byte's literal is counted before the others are written
    have counted : (w.advance 1 s).advance data.length = w.advance (b :: data).length := by
      funext s'
      rw [advance_advance, List.length_cons, Nat.add_comm]
    have later := ih (w.advance 1 s)
    rw [counted] at later
    exact later

/-- Finishing follows the pieces that end the declaration and a flush. -/
theorem finish_follows (w : Writer σ) :
    Attempt.Follows sink (w.advance 1)
      ((writeAll w.sink (endPieces w.width w.written)).andThen Sink.flush) w.finish := by
  rw [endPieces, writeAll_append, finish]
  have closed : Attempt.Follows sink (w.advance 1)
      ((writeAll w.sink (layoutPieces w.width w.written [trailingByte])).andThen
        (writeAll · [closing]))
      ((w.pushByte trailingByte).andThen (·.put closing)) :=
    (w.pushByte_follows trailingByte).andThen fun s => (w.advance 1 s).put_follows closing
  apply closed.andThen
  intro s
  exact (w.advance 1 s).flush_follows

end Writer

/-! ## The lines of a conversion -/

/-- The summary of a conversion that has taken these lines and closed the declaration. -/
def Summary.ofLines (taken : List Bytes) : Summary where
  linesRead := taken.length
  linesEmitted := taken.countP (cleanLine · ≠ [])
  bytesRead := taken.flatten.length
  bytesEmitted := (taken.flatMap cleanLine).length + 1

/-- The numbers of the lines that clean to nothing, when the first has number `first`. -/
def emptyNumbers (first : Nat) (taken : List Bytes) : List Nat :=
  ((taken.zipIdx first).filter fun entry => cleanLine entry.1 = []).map (·.2)

namespace Progress

/-- The conversion when it has taken these lines as well and its sink is `s`. -/
def through (p : Progress σ) (taken : List Bytes) (s : σ) : Progress σ where
  writer := p.writer.advance (taken.flatMap cleanLine).length s
  summary := { p.summary with
    linesRead := p.summary.linesRead + taken.length
    linesEmitted := p.summary.linesEmitted + taken.countP (cleanLine · ≠ [])
    bytesRead := p.summary.bytesRead + taken.flatten.length }
  dropped := (emptyNumbers (p.summary.linesRead + 1) taken).reverse ++ p.dropped

/-- The conversion with its declaration closed and the sink `s`. -/
def closed (p : Progress σ) (s : σ) : Progress σ where
  writer := p.writer.advance 1 s
  summary := { p.summary with bytesEmitted := p.writer.written + 1 }
  dropped := p.dropped

theorem through_through (p : Progress σ) (a b : List Bytes) (s s' : σ) :
    (p.through a s).through b s' = p.through (a ++ b) s' := by
  simp only [through, Writer.advance_advance, emptyNumbers, List.flatMap_append, List.length_append,
    List.countP_append, List.flatten_append, List.zipIdx_append, List.filter_append, List.map_append,
    List.reverse_append, List.append_assoc, Nat.add_assoc, Nat.add_comm 1]

variable [Sink σ]

/-- Taking a line follows the pieces of what cleaning leaves of it. -/
theorem takeLine_follows (p : Progress σ) (line : Bytes) :
    Attempt.Follows (·.writer.sink) (p.through [line])
      (writeAll p.writer.sink (layoutPieces p.writer.width p.writer.written (cleanLine line)))
      (p.takeLine line) := by
  obtain ⟨writer, summary, dropped⟩ := p
  have pushed := writer.push_follows (cleanLine line)
  rw [takeLine]
  split
  · next h =>
    rw [h]
    simp [Attempt.Follows, writeAll, Attempt.each, layoutPieces, through, emptyNumbers, h,
      Writer.advance]
  · next h =>
    -- on a failure the line counts as read, but only the sink matters to `Follows`
    have kept : cleanLine line ≠ [] := h
    cases hraw : writeAll writer.sink (layoutPieces writer.width writer.written (cleanLine line)) with
    | done s =>
      rw [pushed.of_done hraw]
      simp [Attempt.Follows, through, emptyNumbers, kept]
    | failed fault s =>
      obtain ⟨w, hpush, hw⟩ := pushed.of_failed hraw
      rw [hpush]
      exact ⟨_, rfl, hw⟩

/-- Taking lines follows the pieces of what cleaning leaves of them all. -/
theorem takeLines_follow (p : Progress σ) (taken : List Bytes) :
    Attempt.Follows (·.writer.sink) (p.through taken)
      (writeAll p.writer.sink
        (layoutPieces p.writer.width p.writer.written (taken.flatMap cleanLine)))
      (Attempt.each takeLine p taken) := by
  induction taken generalizing p with
  | nil => rfl
  | cons line rest ih =>
    rw [List.flatMap_cons, layoutPieces_append, writeAll_append, Attempt.each_cons]
    apply (p.takeLine_follows line).andThen
    intro s
    have counted : (p.through [line] s).through rest = p.through (line :: rest) := by
      funext s'
      rw [through_through, List.singleton_append]
    have later := ih (p.through [line] s)
    rw [counted] at later
    simpa [through, Writer.advance] using later

/-- Closing the declaration follows its last pieces and a flush. -/
theorem finish_follows (p : Progress σ) :
    Attempt.Follows (·.writer.sink) p.closed
      ((writeAll p.writer.sink (endPieces p.writer.width p.writer.written)).andThen Sink.flush)
      p.finish :=
  p.writer.finish_follows.map fun _ => rfl

end Progress

/-! ## The whole conversion -/

section Transform

variable [Sink σ]

/-- A conversion that has written the header and taken all lines of its source. -/
def readAll (source : Source) (sink : σ) (options : Options) : Attempt (Progress σ) :=
  ((Writer.start sink options.symbol options.width).map (Progress.mk · {} [])).andThen
    (Attempt.each Progress.takeLine · source.lines)

/-- A conversion that has written the header and nothing else. -/
def Progress.begun (options : Options) (s : σ) : Progress σ := ⟨⟨s, options.width, 0⟩, {}, []⟩

/-- The state that taking these lines leaves, when nothing fails. -/
def Progress.ofLines (options : Options) (taken : List Bytes) (s : σ) : Progress σ :=
  (Progress.begun options s).through taken s

theorem transform_eq (source : Source) (sink : σ) (options : Options) :
    transform source sink options =
      match readAll source sink options, source.fault? with
      | .failed fault p, _ => .ofAttempt (.failed fault p)
      | .done p, some fault => ⟨p.writer.sink, p.dropped.reverse, .error (.streamRead fault)⟩
      | .done p, none => .ofAttempt p.finish := by
  rw [transform, readAll]
  cases (Writer.start sink options.symbol options.width).map (Progress.mk · {} []) <;> rfl

/-- Beginning follows the pieces of the header. -/
theorem begun_follows (sink : σ) (options : Options) :
    Attempt.Follows (·.writer.sink) (Progress.begun options)
      (writeAll sink (headerPieces options.symbol))
      ((Writer.start sink options.symbol options.width).map (Progress.mk · {} [])) :=
  (Writer.start_follows sink options.symbol options.width).map fun _ => rfl

/-- Before the declaration is closed, a conversion follows the pieces of the body. -/
theorem readAll_follows (source : Source) (sink : σ) (options : Options) :
    Attempt.Follows (·.writer.sink) (Progress.ofLines options source.lines)
      (writeAll sink (bodyPieces options (source.lines.flatMap cleanLine)))
      (readAll source sink options) := by
  rw [bodyPieces, writeAll_append, readAll]
  exact (begun_follows sink options).andThen fun s =>
    (Progress.begun options s).takeLines_follow source.lines

variable {source : Source} {sink s : σ} {options : Options} {fault : Fault}

/-- A sink that refuses a piece of the body ends the conversion there, whatever the
source would have done next. -/
theorem transform_of_refused
    (h : writeAll sink (bodyPieces options (source.lines.flatMap cleanLine)) = .failed fault s) :
    (transform source sink options).sink = s
      ∧ (transform source sink options).result = .error (.streamWrite fault) := by
  obtain ⟨p, hread, rfl⟩ := (readAll_follows source sink options).of_failed h
  rw [transform_eq, hread]
  exact ⟨rfl, rfl⟩

/-- A source that fails does so behind all of its lines, with the body written. -/
theorem transform_of_unread
    (h : writeAll sink (bodyPieces options (source.lines.flatMap cleanLine)) = .done s)
    (hfault : source.fault? = some fault) :
    (transform source sink options).sink = s
      ∧ (transform source sink options).result = .error (.streamRead fault) := by
  rw [transform_eq, (readAll_follows source sink options).of_done h, hfault]
  exact ⟨rfl, rfl⟩

/-- A source that can be read to its end decides nothing more: the conversion is the
reading of its lines and the closing of the declaration. -/
theorem transform_of_readable (hfault : source.fault? = none) :
    transform source sink options =
      .ofAttempt ((readAll source sink options).andThen Progress.finish) := by
  rw [transform_eq, hfault]
  cases readAll source sink options <;> rfl

/-- Such a conversion follows all pieces of the declaration and a flush. -/
theorem convertAll_follows (source : Source) (sink : σ) (options : Options) :
    Attempt.Follows (·.writer.sink) (fun s => (Progress.ofLines options source.lines s).closed s)
      ((writeAll sink (bodyPieces options (source.lines.flatMap cleanLine)
        ++ endPieces options.width (source.lines.flatMap cleanLine).length)).andThen Sink.flush)
      ((readAll source sink options).andThen Progress.finish) := by
  rw [writeAll_append, Attempt.andThen_assoc]
  apply (readAll_follows source sink options).andThen
  intro s
  have finished := (Progress.ofLines options source.lines s).finish_follows
  rw [show (Progress.ofLines options source.lines s).writer.written
    = (source.lines.flatMap cleanLine).length from Nat.zero_add _] at finished
  exact finished

/-- When the sink takes every piece, the summary is that of all lines. -/
theorem transform_of_taken (hfault : source.fault? = none)
    (h : (writeAll sink (bodyPieces options (source.lines.flatMap cleanLine)
      ++ endPieces options.width (source.lines.flatMap cleanLine).length)).andThen Sink.flush
        = .done s) :
    transform source sink options =
      ⟨s, emptyNumbers 1 source.lines, .ok (Summary.ofLines source.lines)⟩ := by
  rw [transform_of_readable hfault, (convertAll_follows source sink options).of_done h]
  simp [Report.ofAttempt, Progress.closed, Progress.ofLines, Progress.begun, Progress.through,
    Summary.ofLines, Writer.advance]

/-- A sink that stores whatever pieces it is handed, by the time that it is flushed, ends up
with the declaration of the input's data. -/
theorem transform_of_stored {stored : σ → Bytes}
    (h : ∀ pieces, ∃ s, (writeAll sink pieces).andThen Sink.flush = .done s
      ∧ stored s = pieces.flatten) (input : Bytes) (options : Options) :
    ∃ s, transform (.ofBytes input) sink options
        = ⟨s, emptyNumbers 1 (lines input), .ok (Summary.ofLines (lines input))⟩
      ∧ stored s = declaration options.symbol options.width (dataOf input) := by
  obtain ⟨s, htaken, hstored⟩ :=
    h (bodyPieces options (dataOf input) ++ endPieces options.width (dataOf input).length)
  exact ⟨s, transform_of_taken rfl htaken, hstored.trans (pieces_flatten options _)⟩

/-- When the sink refuses a piece or the flush, the conversion ends with its fault. -/
theorem transform_of_untaken (hfault : source.fault? = none)
    (h : (writeAll sink (bodyPieces options (source.lines.flatMap cleanLine)
      ++ endPieces options.width (source.lines.flatMap cleanLine).length)).andThen Sink.flush
        = .failed fault s) :
    (transform source sink options).sink = s
      ∧ (transform source sink options).result = .error (.streamWrite fault) := by
  obtain ⟨p, hread, rfl⟩ := (convertAll_follows source sink options).of_failed h
  rw [transform_of_readable hfault, hread]
  exact ⟨rfl, rfl⟩

end Transform

end DataInlay
