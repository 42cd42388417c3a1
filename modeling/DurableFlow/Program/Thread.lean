/-
Threads: a machine and what it waits for.

A thread can run when it has been given the input that its machine goes on with.
A thread without an input waits for a step. Whoever ends an execution early
replaces the input by a failure, which the machine sees at its next instruction.
-/
import DurableFlow.Error
import DurableFlow.Script.Codec

set_option autoImplicit false

namespace DurableFlow

open Script

/-- A line of history of its own that was opened for a body. -/
structure Branch where
  head : Nat
  /-- The node that opened it. -/
  start : Nat
deriving DecidableEq, Inhabited

/-- What is to be done when a thread ends. -/
inductive Completion where
  /-- The outcome is that of the whole program. -/
  | root
  /-- The outcome belongs to one of the bodies of a step. -/
  | body (step index : Nat) (branch : Option Branch)
deriving DecidableEq, Inhabited

/-- A thread of a running program. -/
structure Thread where
  id : Nat
  machine : Machine
  /-- What the machine goes on with; a thread that has it can run. -/
  input : Option Outcome := none
  /-- The head of the history that the thread extends. -/
  head : Nat
  /-- The step that the thread waits for. -/
  step : Option Nat := none
  completions : List Completion := []
  /-- The contextual variables. -/
  vars : Scope := []

namespace Thread

def isRunnable (thread : Thread) : Bool := thread.input.isSome

def isAlive (thread : Thread) : Bool := thread.machine.isResumable

/-- Gives a thread its input. A thread that has one refuses another. -/
def resume (thread : Thread) (input : Outcome) : EngineResult Thread :=
  match thread.input with
  | some _ => .error (.resumeAlreadyPending thread.id)
  | none => .ok { thread with input := some input }

/-- Replaces the input of a thread by a failure. -/
def inject (thread : Thread) (failure : Failure) : Thread :=
  { thread with input := some (.error failure) }

/-- Leaves a thread at a safepoint, from which it goes on with nothing. -/
def park (thread : Thread) : Thread :=
  { thread with input := some (thread.input.getD (.ok .null)) }

/-- The handles that a thread holds: in its machine, in its variables and in its input. -/
def handles (thread : Thread) : List Handle :=
  thread.machine.handles ++ Val.handlesFields thread.vars
    -- a failure holds no values
    ++ (match thread.input with
      | some (.ok value) => value.handles
      | _ => [])

end Thread

/-! ## Saved form of what a thread does at its end -/

/-- Numbers of threads and heads are below this. -/
def shortWordBound : Nat := Nat.pow 2 32

/-- A number of a thread or of a head. -/
def Document.shortNat? (d : Document) : Option Nat :=
  d.nat?.filter (· < shortWordBound)

def Branch.toJson (branch : Branch) : Json :=
  .obj [("head", .nat branch.head), ("start", .nat branch.start)]

def Branch.ofDocument? (d : Document) : Option Branch := do
  let fields ← d.record? ["head", "start"] 2
  return { head := ← fields.field? "head" Document.shortNat?
           start := ← fields.field? "start" Document.nat? }

def Completion.toJson : Completion → Json
  | .root => .obj [("type", .str "Root")]
  | .body step index branch =>
    .obj [("branch", Json.ofOption Branch.toJson branch), ("index", .nat index),
      ("step", .nat step), ("type", .str "Body")]

def Completion.ofDocument? (d : Document) : Option Completion := do
  let (kind, rest) ← d.variant? "type"
  match kind with
  | "Root" => if rest.hasNoFields then some .root else none
  | "Body" =>
    let fields ← rest.record? ["step", "index", "branch"] 3
    return .body (← fields.field? "step" Document.nat?) (← fields.field? "index" Document.nat?)
      (← fields.optional? "branch" Branch.ofDocument?)
  | _ => none

end DurableFlow
