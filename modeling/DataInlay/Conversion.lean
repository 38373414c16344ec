/-
# DataInlay.Conversion — from an input to the declaration of its cleaned data

A conversion takes the lines of its source one by one, pushes what cleaning leaves
of each, and closes the declaration behind the last. Lines that clean to nothing
push nothing; their numbers are recorded. The summary counts what went in and what
came out, and the bytes removed follow from it.

Reading and writing may fail at any moment. The report of a conversion therefore
holds the sink as it was left, whatever the result.
-/
import DataInlay.Declaration.Writer
import DataInlay.Error
import DataInlay.Stream.Source

namespace DataInlay

/-! ## Options and summary -/

/-- The symbol of the array when none is chosen. -/
def defaultSymbol : String := "json"

/-- How a declaration is to be written. -/
structure Options where
  /-- The name of the array, used verbatim. -/
  symbol : String := defaultSymbol
  /-- How many literals a row holds; without one, all stand in one row. -/
  width : Option Width := none

/-- What a conversion read and wrote. -/
structure Summary where
  /-- Lines read, dropped ones included. -/
  linesRead : Nat := 0
  /-- Lines that had something left after cleaning. -/
  linesEmitted : Nat := 0
  /-- Bytes read. -/
  bytesRead : Nat := 0
  /-- Literals of the array, the trailing one included. -/
  bytesEmitted : Nat := 0
  deriving DecidableEq

namespace Summary

/-- The bytes that cleaning removed: the trailing literal was never read, and so
stands against one byte more than was. -/
def bytesRemoved (s : Summary) : Nat := s.bytesRead + 1 - s.bytesEmitted

end Summary

/-! ## The conversion of a source -/

/-- A conversion under way. -/
structure Progress (σ : Type) where
  writer : Writer σ
  /-- The counts so far; the literals are counted by the writer. -/
  summary : Summary := {}
  /-- The numbers of the lines that cleaned to nothing, last first. -/
  dropped : List Nat := []

namespace Progress

variable {σ : Type} [Sink σ]

/-- Takes a line. It counts as read in any case, and as emitted once all of its
literals have been written. -/
def takeLine : Progress σ → Bytes → Attempt (Progress σ)
  | ⟨writer, summary, dropped⟩, line =>
    let summary := { summary with
      linesRead := summary.linesRead + 1, bytesRead := summary.bytesRead + line.length }
    match cleanLine line with
    | [] => .done ⟨writer, summary, summary.linesRead :: dropped⟩
    | cleaned =>
      match writer.push cleaned with
      | .failed fault writer => .failed fault ⟨writer, summary, dropped⟩
      | .done writer =>
        .done ⟨writer, { summary with linesEmitted := summary.linesEmitted + 1 }, dropped⟩

/-- Closes the declaration. -/
def finish : Progress σ → Attempt (Progress σ)
  | ⟨writer, summary, dropped⟩ => writer.finish.map fun writer =>
    ⟨writer, { summary with bytesEmitted := writer.written }, dropped⟩

end Progress

/-- What became of a conversion. -/
structure Report (σ : Type) where
  /-- The sink as the conversion left it. -/
  sink : σ
  /-- The numbers of the lines that were dropped, in order. -/
  dropped : List Nat
  result : Except InlayError Summary

namespace Report

variable {σ : Type}

/-- The report of an attempt that was the last to be made. -/
def ofAttempt : Attempt (Progress σ) → Report σ
  | .done p => ⟨p.writer.sink, p.dropped.reverse, .ok p.summary⟩
  | .failed fault p => ⟨p.writer.sink, p.dropped.reverse, .error (.streamWrite fault)⟩

end Report

/-- Writes the declaration of a source's cleaned data to a sink. -/
def transform {σ : Type} [Sink σ] (source : Source) (sink : σ) (options : Options) :
    Report σ :=
  match (Writer.start sink options.symbol options.width).map (Progress.mk · {} []) with
  | .failed fault p => .ofAttempt (.failed fault p)
  | .done p =>
    match Attempt.each Progress.takeLine p source.lines, source.fault? with
    | .failed fault p, _ => .ofAttempt (.failed fault p)
    | .done p, some fault => ⟨p.writer.sink, p.dropped.reverse, .error (.streamRead fault)⟩
    | .done p, none => .ofAttempt p.finish

/-- The declaration of an input's cleaned data, as text. -/
def transformToString (input : Bytes) (options : Options) : Except InlayError String :=
  let report := transform (.ofBytes input) ({} : BoundedSink) options
  report.result.map fun _ => displayText report.sink.content.toList

end DataInlay
