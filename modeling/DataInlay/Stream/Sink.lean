/-
# DataInlay.Stream.Sink — where bytes go, and attempts that may fail half-way

Handing bytes to a sink may stop part of the way, and what has reached the sink by
then stays there. So an operation does not give up its state when it fails: it is
an `Attempt`, which holds the state in either case, and the fault in one.

`BoundedSink` is the sink that faults on demand: it holds so many bytes and no
more, takes the part of a write that still fits, and may refuse to be flushed.
-/
import DataInlay.Bytes

namespace DataInlay

/-- What went wrong with a stream, in words. -/
abbrev Fault := String

/-! ## Attempts -/

/-- The end of an operation on a state, with the state that it left. -/
inductive Attempt (σ : Type) where
  | done (state : σ)
  | failed (fault : Fault) (state : σ)

namespace Attempt

variable {σ τ α : Type}

/-- The state after the operation, whether it failed or not. -/
def state : Attempt σ → σ
  | done s => s
  | failed _ s => s

/-- The fault that stopped the operation, if one did. -/
def fault? : Attempt σ → Option Fault
  | done _ => none
  | failed f _ => some f

/-- Goes on with another operation, unless this one failed. -/
def andThen (first : Attempt σ) (next : σ → Attempt σ) : Attempt σ :=
  match first with
  | done s => next s
  | failed f s => failed f s

/-- Sees the state as part of a larger one. -/
def map (f : σ → τ) : Attempt σ → Attempt τ
  | done s => done (f s)
  | failed fault s => failed fault (f s)

/-- Applies an operation for each item in turn, up to the first failure. -/
def each (step : σ → α → Attempt σ) (s : σ) : List α → Attempt σ
  | [] => done s
  | a :: rest =>
    match step s a with
    | done s => each step s rest
    | failed f s => failed f s

theorem each_append (step : σ → α → Attempt σ) (s : σ) (as bs : List α) :
    each step s (as ++ bs) = (each step s as).andThen (each step · bs) := by
  induction as generalizing s with
  | nil => rfl
  | cons a as ih =>
    simp only [List.cons_append, each]
    split
    · exact ih _
    · rfl

end Attempt

/-! ## Sinks -/

/-- A destination for bytes. -/
class Sink (σ : Type) where
  /-- Hands over the bytes, all of them unless it fails. -/
  write : σ → Bytes → Attempt σ
  /-- Sees that what was handed over has arrived. -/
  flush : σ → Attempt σ

/-- A sink in memory that takes up to `limit` bytes in all. -/
structure BoundedSink where
  /-- The bytes that have arrived. -/
  content : Array UInt8 := #[]
  /-- How many bytes it holds; without a limit, any number. -/
  limit : Option Nat := none
  /-- Flushing fails. -/
  flushFails : Bool := false
  /-- How often it was flushed, in vain or not. -/
  flushes : Nat := 0

namespace BoundedSink

/-- How many more of `wanted` bytes fit. -/
def room (s : BoundedSink) (wanted : Nat) : Nat :=
  match s.limit with
  | none => wanted
  | some limit => min wanted (limit - s.content.size)

/-- Takes what fits, and faults when something is left over. -/
def write (s : BoundedSink) (bytes : Bytes) : Attempt BoundedSink :=
  let wanted := bytes.length
  let fits := s.room wanted
  if fits = wanted then .done { s with content := s.content ++ bytes }
  else .failed "disk full" { s with content := s.content ++ bytes.take fits }

/-- Counts the call, and faults when told to. -/
def flush (s : BoundedSink) : Attempt BoundedSink :=
  let s := { s with flushes := s.flushes + 1 }
  if s.flushFails then .failed "flush failed" s else .done s

instance : Sink BoundedSink := ⟨write, flush⟩

end BoundedSink

end DataInlay
