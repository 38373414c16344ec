/-
# DataInlay.Conversion.File — conversion from one path to another

The input is opened and its first block read before the output is created, so an
input that cannot be read leaves an output of the same path alone, whatever state
that is in. Then the output is created, which empties it, and the declaration is
written through a buffer of blocks.

Not every conversion comes to an end. An input that has no end is read on and on
for its first line, when no more than the header has been written. And where both
paths lead to the same file, the reader has only its first block of what the file
held: later blocks are of the text that has been written by then
(`convertInPlace`), and there may always be more of that.
-/
import DataInlay.Conversion
import DataInlay.FileTree
import DataInlay.Stream.BlockReader

namespace DataInlay

/-! ## Conversions that need not end -/

/-- How a conversion goes. -/
structure Course (σ : Type) where
  /-- The sink as the conversion left it, or else as it was before the first line. -/
  sink : σ
  /-- The numbers of the lines that were dropped, in order, if the conversion ended. -/
  dropped : List Nat := []
  result : Conclusion InlayError Summary

/-- The course of a conversion that has ended. -/
def Report.course {σ : Type} (report : Report σ) : Course σ :=
  ⟨report.sink, report.dropped, .ofResult report.result⟩

/-- Converts what there is to read. Without an end, there is no line either. -/
def convert {σ : Type} [Sink σ] (input : Input) (sink : σ) (options : Options) : Course σ :=
  match input with
  | .bytes content => (transform (.ofBytes content) sink options).course
  | .endless =>
    match Writer.start sink options.symbol options.width with
    | .failed fault w => { sink := w.sink, result := .error (.streamWrite fault) }
    | .done w => { sink := w.sink, result := .endless }

theorem convert_bytes {σ : Type} [Sink σ] (content : Bytes) (sink : σ) (options : Options) :
    convert (.bytes content) sink options
      = (transform (.ofBytes content) sink options).course := rfl

/-! ## Reading and writing the same file -/

/-- Takes steps until one has a result. There may be none, however many are taken. -/
def untilResult {σ τ : Type} (step : σ → σ ⊕ τ) (s : σ) : Option τ :=
  match step s with
  | .inr result => some result
  | .inl next => by
    apply untilResult
    · exact step
    · exact next
partial_fixpoint

/-- The content of the file that a conversion writes to, as stored so far. -/
def Progress.stored (p : Progress BlockBuffer) : Array UInt8 :=
  p.writer.sink.buffer.device.content

/-- Converts the next line of the file that is being written, or closes the declaration
if there is none. -/
def convertTurn : BlockReader × Progress BlockBuffer →
    (BlockReader × Progress BlockBuffer) ⊕ Attempt (Progress BlockBuffer)
  | (reader, p) =>
    match reader.readLine p.stored with
    | ([], _) => .inr p.finish
    | (line, reader) =>
      match p.takeLine line with
      | .failed fault p => .inr (.failed fault p)
      | .done p => .inl (reader, p)

/-- Converts a file that holds `content` onto itself. -/
def convertInPlace (content : Bytes) (options : Options) : Course BlockBuffer :=
  let reader := BlockReader.fill {} content.toArray
  let emptied := BlockBuffer.ofDevice (.store #[])
  match (Writer.start emptied options.symbol options.width).map (Progress.mk · {} []) with
  | .failed fault p => (Report.ofAttempt (.failed fault p)).course
  | .done p =>
    match untilResult convertTurn (reader, p) with
    | some attempt => (Report.ofAttempt attempt).course
    | none => { sink := p.writer.sink, result := .endless }

/-! ## From path to path -/

/-- What became of a conversion between files. -/
structure FileReport where
  /-- The file tree as the conversion left it. One without an end goes on adding to its
  output, which is given here as it was before the first line. -/
  files : FileTree
  /-- The numbers of the lines that were dropped, in order, if the conversion ended. -/
  dropped : List Nat := []
  result : Conclusion InlayError Summary

/-- The device that an entry is written as. -/
def Entry.device : Entry → Device
  | file _ => .store #[]
  | null => .discard
  | full | directory => .full

/-- Opens the input at a path and reads its first block; later blocks come from the
same bytes unless they are overwritten. -/
def openInput (t : FileTree) (input : Path) : Except InlayError (Location × Input) :=
  (t.openInput input).mapError (.inputUnreadable input.display)

/-- Names the files behind the streams. -/
def InlayError.withPaths (input output : Path) (e : InlayError) : InlayError :=
  (e.withInputPath input.display).withOutputPath output.display

/-- Creates the output at a path. -/
def createOutput (t : FileTree) (output : Path) : Except InlayError (Location × FileTree) :=
  (t.create output).mapError (.outputUnwritable output.display)

/-- Converts what there is to read to a file, which may be the one that it is read from. -/
def convertToFile (input : Input) (same : Bool) (options : Options) : Course BlockBuffer :=
  match input, same with
  | .bytes content, true => convertInPlace content options
  | _, _ => convert input (BlockBuffer.ofDevice (.store #[])) options

/-- Writes the declaration of one file's cleaned data to another. -/
def convertFile (t : FileTree) (input output : Path) (options : Options) : FileReport :=
  match openInput t input with
  | .error e => { files := t, result := .error e }
  | .ok (source, content) =>
    match createOutput t output with
    | .error e => { files := t, result := .error e }
    | .ok (target, created) =>
      match created.get? target with
      | some (.file _) =>
        let course := convertToFile content (source = target) options
        { files := created.set target (.file course.sink.buffer.device.content.toList)
          dropped := course.dropped
          result := course.result.mapError (.withPaths input output) }
      | other =>
        let device := (other.map Entry.device).getD .full
        let course := convert content (BlockBuffer.ofDevice device) options
        { files := created
          dropped := course.dropped
          result := course.result.mapError (.withPaths input output) }

end DataInlay
