/-
# DataInlay.Stream.Source — input that arrives line by line

A source is the lines that can be read from it, and the fault that ends the
reading when one does. A fault in the middle of a line takes that line with it:
only lines that arrived whole count.
-/
import DataInlay.Line
import DataInlay.Stream.Sink

namespace DataInlay

/-- Lines to be read, and what comes behind the last of them. -/
structure Source where
  lines : List Bytes
  /-- The fault behind the last line; without one, the input is over there. -/
  fault? : Option Fault := none

namespace Source

/-- Input that can be read to its end. -/
def ofBytes (input : Bytes) : Source := { lines := DataInlay.lines input }

/-- The line arrived whole: a line feed ends it. -/
def isWhole (line : Bytes) : Bool := line.getLast? = some Ascii.lineFeed

/-- Input of which only the first `count` bytes can be read, with a fault behind
them — also when the input ends there anyway. -/
def cutAt (count : Nat) (input : Bytes) : Source where
  lines := (DataInlay.lines (input.take count)).filter isWhole
  fault? := some "device unplugged"

end Source

end DataInlay
