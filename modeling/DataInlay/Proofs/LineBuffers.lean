/-
# DataInlay.Proofs.LineBuffers — what a line buffer lets through

A line buffer hands completed lines to its device at once and lets the rest wait. Neither
adds, drops or moves a byte: in front of a store, a piece is taken like by any buffer
(`LineBuffer.put_takes`). So by the time of the flush all is stored, and a conversion that
is printed stores the same declaration as one that is written to a file.
-/
import DataInlay.Proofs.BlockBuffers

namespace DataInlay

namespace LineBuffer

/-- A piece is its completed lines and what follows them. -/
theorem splitLines_append (piece : Bytes) : (splitLines piece).1 ++ (splitLines piece).2 = piece := by
  have whole : (piece.reverse.dropWhile (· != Ascii.lineFeed)).reverse
      ++ (piece.reverse.takeWhile (· != Ascii.lineFeed)).reverse = piece := by
    rw [← List.reverse_append, List.takeWhile_append_dropWhile, List.reverse_reverse]
  have front : ∀ lines tail : Bytes,
      (lines ++ tail).take ((lines ++ tail).length - tail.length) = lines := by
    intro lines tail
    apply List.take_left'
    rw [List.length_append]
    omega
  have completed := front (piece.reverse.dropWhile (· != Ascii.lineFeed)).reverse
    (piece.reverse.takeWhile (· != Ascii.lineFeed)).reverse
  rw [whole] at completed
  show piece.take (piece.length - _) ++ _ = piece
  rw [completed]
  exact whole

variable {b : Buffer} {content : Array UInt8}

/-- A piece without a line feed waits, but not behind a completed line. -/
theorem wait_takes (h : b.device = .store content) (tail : Bytes) :
    b.Takes tail ((if b.pending.back? = some Ascii.lineFeed then b.drain else .done b).andThen
      (·.put tail)) := by
  have room : b.Takes [] (if b.pending.back? = some Ascii.lineFeed then b.drain else .done b) := by
    split
    · exact Buffer.drain_takes h
    · exact Buffer.takes_nothing h
  apply room.andThen
  intro b' _ hstore
  rcases hstore with ⟨content', h'⟩
  exact Buffer.put_takes h' tail

/-- Completed lines go to the device, together with what waited before them. -/
theorem complete_takes (h : b.device = .store content) (completed : Bytes) :
    b.Takes completed (if b.pending.isEmpty then b.pass completed
      else (b.put completed).andThen Buffer.drain) := by
  split
  · next hnone =>
    apply Buffer.pass_takes h
    exact .inl (Array.isEmpty_iff.mp hnone)
  · have drained : b.Takes (completed ++ []) ((b.put completed).andThen Buffer.drain) := by
      apply (Buffer.put_takes h completed).andThen
      intro b' _ hstore
      rcases hstore with ⟨content', h'⟩
      exact Buffer.drain_takes h'
    rwa [List.append_nil] at drained

theorem put_takes (h : b.device = .store content) (piece : Bytes) : b.Takes piece (put b piece) := by
  have split := splitLines_append piece
  rw [put]
  split
  · next tail hsplit =>
    rw [hsplit, List.nil_append] at split
    rw [← split]
    exact wait_takes h tail
  · next completed tail _ hsplit =>
    rw [hsplit] at split
    rw [← split]
    apply (complete_takes h completed).andThen
    intro b' _ hstore
    rcases hstore with ⟨content', h'⟩
    exact Buffer.put_takes h' tail

/-- The bytes that are stored. -/
def stored (b : LineBuffer) : Bytes := b.buffer.device.content.toList

/-- By the time of a flush, all pieces are stored. -/
theorem flush_writeAll (pieces : List Bytes) :
    ∃ b, (writeAll (ofDevice (.store #[])) pieces).andThen Sink.flush = .done b
      ∧ b.stored = pieces.flatten := by
  let empty : Buffer := { capacity := lineSize, device := .store #[] }
  have start : empty.device = .store #[] := rfl
  have written : Attempt.each Sink.write (mk empty) pieces
      = (Attempt.each put empty pieces).map mk :=
    Attempt.each_map (fun _ _ => rfl) empty pieces
  obtain ⟨all, hall, ⟨content, hstore⟩, hhanded, -⟩ := Buffer.each_takes put_takes start pieces
  obtain ⟨b, hdrain, hstored⟩ := Buffer.drain_stores hstore
  refine ⟨⟨b⟩, ?_, hstored.trans hhanded⟩
  show (Attempt.each Sink.write (mk empty) pieces).andThen Sink.flush = _
  rw [written, hall]
  show (Buffer.drain all).map mk = _
  rw [hdrain]
  rfl

end LineBuffer

/-- A conversion to a standard output that takes what is written succeeds, and prints the
declaration of the input's data. -/
theorem transform_to_output (input : Bytes) (options : Options) :
    ∃ b, transform (.ofBytes input) (LineBuffer.ofDevice (.store #[])) options
        = ⟨b, emptyNumbers 1 (lines input), .ok (.ofLines (lines input))⟩
      ∧ b.stored = declaration options.symbol options.width (dataOf input) :=
  transform_of_stored LineBuffer.flush_writeAll input options

end DataInlay
