/-
Finding the objects behind handles again.

A saved program holds handles, not the objects behind them. Before it runs, each
handle is given to the resolver of its kind; all resolvers work at the same
time. The first one that fails ends the whole resolution, and so do a
cancellation and the time limit. What has not been answered is listed as pending
throughout, so that a program which is stuck in loading can say on what.
-/
import DurableFlow.Data.Order
import DurableFlow.Error
import DurableFlow.Script.Value

set_option autoImplicit false

namespace DurableFlow

open Script

/-- What brings the objects of one kind back. -/
structure Resolver where
  /-- How long an answer takes. -/
  delayMs : Nat := 0
  /-- The object behind a handle or why there is none; without either, no answer ever comes. -/
  answer : Handle → Option (Except String Val)

/-- A handle on its way: when its answer comes, and what it is. -/
structure Errand where
  dueAt : Nat
  handle : Handle
  answer : Option (Except String Val)

/-- What resolving comes to. -/
abbrev Resolved := EngineResult (Table Handle Val)

/-- A resolution under way. -/
structure Resolution where
  /-- When time runs out. -/
  deadline : Nat
  /-- The errands without an answer so far, in the order in which answers come. -/
  errands : List Errand := []
  /-- The handles that wait for an answer. -/
  pending : List Handle
  resolved : Table Handle Val := []
  /-- The result, once there is one. -/
  result : Option Resolved := none

namespace Resolution

/-- The errand of a handle, if its kind has a resolver. -/
def errand? (resolvers : Table String Resolver) (now : Nat) (handle : Handle) : Option Errand :=
  (Table.find? handle.kind resolvers).map fun resolver =>
    { dueAt := now + resolver.delayMs, handle, answer := resolver.answer handle }

/-- Starts a resolution. A kind without a resolver fails it at once. -/
def start (resolvers : Table String Resolver) (timeoutMs now : Nat) (handles : List Handle) :
    Resolution :=
  let fresh : Resolution := { deadline := now + timeoutMs, pending := handles }
  -- one handle that nobody can resolve is enough: no errand is sent for the others
  match handles.find? fun handle => !Table.contains handle.kind resolvers with
  | some handle =>
    { fresh with result := some (.error (.pickle handle.text "no resolver for this kind")) }
  | none =>
    { fresh with
      errands := sortByKey Errand.dueAt (handles.filterMap (errand? resolvers now)) }

/-- Takes in the answers that have come by now, up to the first failure. The list is that of
the errands to look at; the others are kept. -/
def collect (now : Nat) : List Errand → Resolution → Resolution
  | [], r => r
  | errand :: rest, r =>
    match errand.answer with
    | some answer =>
      if errand.dueAt ≤ now then
        match answer with
        | .ok value => collect now rest { r with
            pending := r.pending.filter (· != errand.handle)
            resolved := Table.insert errand.handle value r.resolved }
        | .error reason =>
          { r with result := some (.error (.pickle errand.handle.text reason)) }
      else collect now rest { r with errands := r.errands ++ [errand] }
    -- an errand without an answer waits until time runs out
    | none => collect now rest { r with errands := r.errands ++ [errand] }

/-- Ends a resolution that has nothing left to wait for or no time left to wait. -/
def conclude (now : Nat) (r : Resolution) : Resolution :=
  match r.result with
  | some _ => r
  | none =>
    if r.errands.isEmpty then { r with result := some (.ok r.resolved) }
    else if r.deadline ≤ now then
      { r with result := some (.error (.timeout "pickle resolution")) }
    else r

/-- **Brings a resolution up to date.** A result stays as it is. -/
def poll (now : Nat) (cancelled : Bool) (r : Resolution) : Resolution :=
  match r.result with
  | some _ => r
  | none =>
    if cancelled then { r with result := some (.error .cancelled) }
    else (collect now r.errands { r with errands := [] }).conclude now

end Resolution

end DurableFlow
