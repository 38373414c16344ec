/-
# DataInlay.Stream.Buffer — devices, and the buffers in front of them

A device takes bytes or refuses them. A buffer gathers pieces in front of a
device: a piece that leaves room behind it is only kept; one that does not fit
drains the buffer first, and one as large as the whole buffer goes to the device
at once. Files are written through a buffer of blocks, standard output through
one that also hands over every completed line.

What a buffer holds back decides when a refusal shows, and what a reader of the
same file can see, so both buffers are followed exactly.
-/
import DataInlay.Stream.Sink

namespace DataInlay

/-! ## Devices -/

/-- What bytes can be written to. -/
inductive Device
  /-- Keeps everything, in order. -/
  | store (content : Array UInt8)
  /-- Takes everything and keeps nothing. -/
  | discard
  /-- Takes nothing. -/
  | full

namespace Device

/-- Hands bytes to the device. -/
def write (bytes : Array UInt8) : Device → Attempt Device
  | store content => .done (store (content ++ bytes))
  | discard => .done discard
  | full =>
    if bytes.isEmpty then .done full else .failed "No space left on device (os error 28)" full

/-- The bytes that the device holds. -/
def content : Device → Array UInt8
  | store content => content
  | discard | full => #[]

end Device

/-! ## The buffer itself -/

/-- A device with bytes that wait in front of it. -/
structure Buffer where
  /-- How many bytes may wait. -/
  capacity : Nat
  device : Device
  /-- The bytes that wait. -/
  pending : Array UInt8 := #[]

namespace Buffer

/-- Hands all waiting bytes to the device. -/
def drain : Buffer → Attempt Buffer
  | ⟨capacity, device, pending⟩ =>
    match device.write pending with
    | .done device => .done ⟨capacity, device, #[]⟩
    | .failed fault device => .failed fault ⟨capacity, device, pending⟩

/-- Hands a piece to the device, past the buffer. -/
def pass : Buffer → Bytes → Attempt Buffer
  | ⟨capacity, device, pending⟩, piece =>
    (device.write piece.toArray).map (⟨capacity, ·, pending⟩)

/-- Lets a piece wait. -/
def keep : Buffer → Bytes → Buffer
  | ⟨capacity, device, pending⟩, piece => ⟨capacity, device, pending ++ piece⟩

/-- Adds a piece that may have to make room first. -/
def putLarge (b : Buffer) (piece : Bytes) : Attempt Buffer :=
  (if b.capacity - b.pending.size < piece.length then b.drain else .done b).andThen fun b =>
    if b.capacity ≤ piece.length then b.pass piece else .done (b.keep piece)

/-- Adds a piece. -/
def put (b : Buffer) (piece : Bytes) : Attempt Buffer :=
  if piece.length < b.capacity - b.pending.size then .done (b.keep piece)
  else b.putLarge piece

end Buffer

/-! ## Blocks and lines -/

/-- A buffer that hands over whole blocks. -/
structure BlockBuffer where
  buffer : Buffer

namespace BlockBuffer

/-- The size of a block. -/
def blockSize : Nat := 8192

/-- The empty block buffer in front of a device. -/
def ofDevice (device : Device) : BlockBuffer := ⟨{ capacity := blockSize, device }⟩

instance : Sink BlockBuffer where
  write b piece := (b.buffer.put piece).map .mk
  flush b := b.buffer.drain.map .mk

end BlockBuffer

/-- A buffer that also hands over every completed line. -/
structure LineBuffer where
  buffer : Buffer

namespace LineBuffer

/-- How many bytes of an unfinished line may wait. -/
def lineSize : Nat := 1024

/-- The empty line buffer in front of a device. -/
def ofDevice (device : Device) : LineBuffer := ⟨{ capacity := lineSize, device }⟩

/-- The piece up to and with its last line feed, and what follows that. -/
def splitLines (piece : Bytes) : Bytes × Bytes :=
  let tail := (piece.reverse.takeWhile (· != Ascii.lineFeed)).reverse
  (piece.take (piece.length - tail.length), tail)

/-- Adds a piece. Lines that it completes go to the device, together with what
waited before them; a piece without a line feed only waits, but not behind a
completed line. -/
def put (b : Buffer) (piece : Bytes) : Attempt Buffer :=
  match splitLines piece with
  | ([], tail) =>
    (if b.pending.back? = some Ascii.lineFeed then b.drain else .done b).andThen (·.put tail)
  | (completed, tail) =>
    (if b.pending.isEmpty then b.pass completed
    else (b.put completed).andThen Buffer.drain).andThen (·.put tail)

instance : Sink LineBuffer where
  write b piece := (put b.buffer piece).map .mk
  flush b := b.buffer.drain.map .mk

end LineBuffer

end DataInlay
