/-
# DataInlay.Stream.BlockReader — reading a stored file block by block

A file is read in blocks: only when the bytes at hand run out is the next block
taken from the store, as the store is at that moment. While nothing writes to the
file this is the same as reading all of it. It is not when the file is emptied and
written anew under the reader: the block at hand is of the old content, and every
later one of the new.
-/
import DataInlay.Stream.Buffer

namespace DataInlay

/-- A reader of a stored file. -/
structure BlockReader where
  /-- The bytes at hand. -/
  ready : Bytes := []
  /-- How much of the file has been taken from the store. -/
  offset : Nat := 0

namespace BlockReader

/-- The block at the reader's offset. -/
def block (r : BlockReader) (content : Array UInt8) : Bytes :=
  (content.extract r.offset (r.offset + BlockBuffer.blockSize)).toList

/-- Takes the next block if no bytes are at hand. -/
def fill (r : BlockReader) (content : Array UInt8) : BlockReader :=
  if r.ready = [] then ⟨r.block content, r.offset + (r.block content).length⟩ else r

/-- How many bytes the reader may still come by. -/
def remaining (r : BlockReader) (content : Array UInt8) : Nat :=
  r.ready.length + (content.size - r.offset)

theorem remaining_fill (r : BlockReader) (content : Array UInt8) :
    (r.fill content).remaining content = r.remaining content := by
  unfold fill remaining
  split
  · rename_i h
    simp only [block, h, Array.length_toList, Array.size_extract, List.length_nil]
    omega
  · rfl

/-- Reads up to and with the next line feed, or else to the end of what the file
holds, behind the bytes of the line already read. -/
def readLineFrom (line : Bytes) (r : BlockReader) (content : Array UInt8) :
    Bytes × BlockReader :=
  match (r.fill content).ready.dropWhile (· != Ascii.lineFeed) with
  | _ :: rest =>
    (line ++ (r.fill content).ready.takeWhile (· != Ascii.lineFeed) ++ [Ascii.lineFeed],
      { r.fill content with ready := rest })
  | [] =>
    if _h : (r.fill content).ready = [] then (line, r.fill content)
    else readLineFrom (line ++ (r.fill content).ready) { r.fill content with ready := [] } content
  termination_by r.remaining content
  decreasing_by
    have := remaining_fill r content
    have := List.length_pos_iff.mpr _h
    simp only [remaining, List.length_nil] at *
    omega

/-- Reads a line; an empty one means that the file holds nothing more. -/
def readLine (r : BlockReader) (content : Array UInt8) : Bytes × BlockReader :=
  readLineFrom [] r content

end BlockReader

end DataInlay
