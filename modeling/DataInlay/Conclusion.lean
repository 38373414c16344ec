/-
# DataInlay.Conclusion — what comes of something that need not end

Reading a file comes to its content or to a fault, unless there is no end of what there is
to read. The same goes for whatever reads a file: loading a configuration from it, or
converting it.
-/

namespace DataInlay

/-- What something that need not end comes to. -/
inductive Conclusion (ε α : Type)
  | ok (value : α)
  | error (e : ε)
  /-- Nothing, as it goes on, for as long as memory and storage last. -/
  | endless
  deriving DecidableEq

namespace Conclusion

variable {ε ε' α β : Type}

/-- The conclusion of what has ended. -/
def ofResult : Except ε α → Conclusion ε α
  | .ok value => ok value
  | .error e => error e

/-- Makes something else of the value. -/
def map (f : α → β) : Conclusion ε α → Conclusion ε β
  | ok value => ok (f value)
  | error e => error e
  | endless => endless

/-- Tells the error in another way. -/
def mapError (f : ε → ε') : Conclusion ε α → Conclusion ε' α
  | ok value => ok value
  | error e => error (f e)
  | endless => endless

/-- Telling an error in another way leaves a value, -/
theorem mapError_eq_ok_iff {f : ε → ε'} {result : Conclusion ε α} {value : α} :
    result.mapError f = .ok value ↔ result = .ok value := by
  cases result with
  | ok _ => simp only [mapError, ok.injEq]
  | error _ => exact iff_of_false nofun nofun
  | endless => exact iff_of_false nofun nofun

/-- and what does not end. -/
theorem mapError_eq_endless_iff {f : ε → ε'} {result : Conclusion ε α} :
    result.mapError f = .endless ↔ result = .endless := by
  cases result with
  | ok _ => exact iff_of_false nofun nofun
  | error _ => exact iff_of_false nofun nofun
  | endless => exact iff_of_true rfl rfl

end Conclusion

end DataInlay
