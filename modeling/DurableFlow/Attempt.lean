/-
Operations that can fail half way.

An attempt changes a state and ends with a value or an error. An error ends the
attempt but undoes nothing: what was done before it stays done, as it does when
files were written or numbers given out.
-/
import DurableFlow.Error

set_option autoImplicit false

namespace DurableFlow

/-- An operation on a state that may fail, leaving the state as it is at that moment. -/
def Attempt (σ α : Type) : Type := σ → EngineResult α × σ

namespace Attempt

variable {σ τ α β : Type}

/-- Does two things one after the other; an error of the first is the end. -/
def andThen (x : Attempt σ α) (f : α → Attempt σ β) : Attempt σ β := fun s =>
  match x s with
  | (.ok a, s) => f a s
  | (.error e, s) => (.error e, s)

instance : Monad (Attempt σ) where
  pure a := fun s => (.ok a, s)
  bind := andThen

/-- Reads something off the state. -/
def reading (f : σ → α) : Attempt σ α := fun s => (.ok (f s), s)

/-- Changes the state. -/
def update (f : σ → σ) : Attempt σ Unit := fun s => (.ok (), f s)

/-- Fails. -/
def fail (e : EngineError) : Attempt σ α := fun s => (.error e, s)

/-- Fails if a condition holds. -/
def failIf (condition : Bool) (e : EngineError) : Attempt σ Unit :=
  if condition then fail e else pure ()

/-- Reads something off the state, which may fail. -/
def trying (f : σ → EngineResult α) : Attempt σ α := fun s => (f s, s)

/-- Takes a value that has to be there. -/
def need (value : Option α) (e : EngineError) : Attempt σ α :=
  match value with
  | some a => pure a
  | none => fail e

/-- Does something to a part of the state. -/
def onPart (part : σ → τ) (put : τ → σ → σ) (x : Attempt τ α) : Attempt σ α := fun s =>
  let (result, t) := x (part s)
  (result, put t s)

/-- The state after an attempt, whatever came of it. -/
def after (x : Attempt σ α) (s : σ) : σ := (x s).2

end Attempt

end DurableFlow
