/-
# DataInlay.Declaration.Session — a sink and its writer, used step by step

A session has a sink. On it one declaration may be begun, pushed to and finished, and
between these steps the sink may be given another limit, or be told to refuse flushes.
A step that the session has come too early or too late for is answered and does nothing:
no data without a declaration begun, and nothing at all behind one that could not be
begun or was finished, well or not. A push that fails, on the other hand, leaves the
writer in place, to be pushed to again.
-/
import DataInlay.Declaration.Writer

namespace DataInlay

/-- A sink before, during and after the writing of a declaration. -/
inductive Session
  | fresh (sink : BoundedSink)
  | writing (writer : Writer BoundedSink)
  | ended (sink : BoundedSink)

namespace Session

/-- What may be done next. -/
inductive Step
  | start (symbol : String) (width : Option Width)
  | push (data : Bytes)
  | finish
  | setLimit (limit : Option Nat)
  | setFlushFails (flushFails : Bool)

/-- What comes of it. -/
inductive Answer
  | done
  /-- The declaration is finished, with so many literals. -/
  | finished (total : Nat)
  | failed (fault : Fault)
  /-- The session is not in a state to do it. -/
  | closed

/-- The sink of a session. -/
def sink : Session → BoundedSink
  | fresh sink => sink
  | writing writer => writer.sink
  | ended sink => sink

/-- Changes the sink of a session. -/
def mapSink (f : BoundedSink → BoundedSink) : Session → Session
  | fresh sink => fresh (f sink)
  | writing writer => writing { writer with sink := f writer.sink }
  | ended sink => ended (f sink)

/-- The bytes that have arrived. -/
def content (s : Session) : Bytes := s.sink.content.toList

/-- Takes a step. -/
def take : Session → Step → Session × Answer
  | fresh sink, .start symbol width =>
    match Writer.start sink symbol width with
    | .done writer => (writing writer, .done)
    | .failed fault writer => (ended writer.sink, .failed fault)
  | writing writer, .push data =>
    match writer.push data with
    | .done writer => (writing writer, .done)
    | .failed fault writer => (writing writer, .failed fault)
  | writing writer, .finish =>
    match writer.finish with
    | .done writer => (ended writer.sink, .finished writer.written)
    | .failed fault writer => (ended writer.sink, .failed fault)
  | s, .setLimit limit => (s.mapSink ({ · with limit }), .done)
  | s, .setFlushFails flushFails => (s.mapSink ({ · with flushFails }), .done)
  | s, _ => (s, .closed)

/-- The session when all steps of a script have been taken. -/
def after (s : Session) (script : List Step) : Session :=
  script.foldl (fun s step => (s.take step).1) s

/-- What comes of the steps of a script, in order. -/
def answers (s : Session) : List Step → List Answer
  | [] => []
  | step :: script => (s.take step).2 :: (s.take step).1.answers script

end Session

end DataInlay
