/-
# DataInlay.Declaration.Writer — a declaration written piece by piece

A writer is a sink behind which a declaration has begun, and the count of its
literals so far. The count alone chooses the separator, so the text does not
depend on how the data was split into pushes. A separator and its literal are two
pieces: the literal counts only once it has arrived whole, and a writer whose push
failed may be used again.
-/
import DataInlay.Declaration.Layout
import DataInlay.Stream.Sink

namespace DataInlay

/-- A declaration under way. -/
structure Writer (σ : Type) where
  sink : σ
  /-- The wrap width. -/
  width : Option Width
  /-- How many literals have been written. -/
  written : Nat

namespace Writer

variable {σ : Type} [Sink σ]

/-- Hands a piece to the sink. -/
def put : Writer σ → Bytes → Attempt (Writer σ)
  | ⟨sink, width, written⟩, piece => (Sink.write sink piece).map (⟨·, width, written⟩)

/-- Flushes the sink. -/
def flush : Writer σ → Attempt (Writer σ)
  | ⟨sink, width, written⟩ => (Sink.flush sink).map (⟨·, width, written⟩)

/-- Begins a declaration: writes the header. -/
def start (sink : σ) (symbol : String) (width : Option Width) : Attempt (Writer σ) :=
  Attempt.each put ⟨sink, width, 0⟩ (headerPieces symbol)

/-- Writes the separator that is due and the literal of a byte. -/
def pushByte (w : Writer σ) (b : UInt8) : Attempt (Writer σ) :=
  (if w.written = 0 then .done w else w.put (separator w.width w.written)).andThen fun w =>
    (w.put (literal b)).andThen fun w => .done { w with written := w.written + 1 }

/-- Writes the literals of some bytes. -/
def push (w : Writer σ) (data : Bytes) : Attempt (Writer σ) := Attempt.each pushByte w data

/-- Writes the trailing byte and the closing, and flushes the sink. -/
def finish (w : Writer σ) : Attempt (Writer σ) :=
  ((w.pushByte trailingByte).andThen (·.put closing)).andThen flush

/-- Data pushed in two parts is written like data pushed at once. -/
theorem push_append (w : Writer σ) (a b : Bytes) :
    w.push (a ++ b) = (w.push a).andThen (·.push b) :=
  Attempt.each_append pushByte w a b

end Writer

end DataInlay
