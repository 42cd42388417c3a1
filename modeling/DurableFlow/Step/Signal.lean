/-
Signals: steps wait for a name, and whoever delivers to that name reaches the
step that has waited longest.

A board keeps one queue of waiters for each name, in the order in which they
came. A waiter is in a queue at most once. Waiters come again after a reload, so
a board is not saved.
-/
import DurableFlow.Step.Arguments

set_option autoImplicit false

namespace DurableFlow

open Script

/-- A step that waits: the execution it belongs to and its node there. -/
structure Waiter where
  execution : String
  node : Nat
deriving DecidableEq, Inhabited

/-- The waiters of each name, those that came first in front. -/
structure SignalBoard where
  queues : Table String (List Waiter) := []

namespace SignalBoard

/-- The waiters for a name. -/
def queue (board : SignalBoard) (name : String) : List Waiter :=
  (Table.find? name board.queues).getD []

/-- Replaces the queue of a name; an empty one is dropped. -/
def setQueue (board : SignalBoard) (name : String) (waiters : List Waiter) : SignalBoard :=
  { queues :=
      if waiters.isEmpty then Table.erase name board.queues
      else Table.insert name waiters board.queues }

/-- Puts a waiter at the end of the queue, unless its node is in it. -/
def register (board : SignalBoard) (name : String) (waiter : Waiter) : SignalBoard :=
  let waiters := board.queue name
  -- a waiter is known by its node alone
  if waiters.any (·.node == waiter.node) then board
  else board.setQueue name (waiters ++ [waiter])

/-- Takes the waiter of a node out of the queue. -/
def remove (board : SignalBoard) (name : String) (node : Nat) : SignalBoard :=
  board.setQueue name ((board.queue name).filter (·.node != node))

/-- Takes the waiter that came first. -/
def take (board : SignalBoard) (name : String) : Option Waiter × SignalBoard :=
  match board.queue name with
  | [] => (none, board)
  | waiter :: rest => (some waiter, board.setQueue name rest)

/-- How many steps wait for a name. -/
def waiting (board : SignalBoard) (name : String) : Nat := (board.queue name).length

end SignalBoard

namespace Step

/-- The signal that a call without an argument waits for. -/
def defaultSignal : String := "signal"

/-- The signal that a call waits for. -/
def signalName (args : List Val) : Except Failure String := do
  checkCount "wait_for_signal" args 0 1
  if args.isEmpty then return defaultSignal else stringArg "wait_for_signal" args 0

/-- The signal that a call waits for, its arguments being checked. -/
def signalOf (args : List Val) : String := (signalName args).toOption.getD defaultSignal

/-- `wait_for_signal(name?)` ends with what is delivered to the name. -/
def waitForSignal : StepDef where
  function := "wait_for_signal"
  displayName := fun args =>
    match signalName args with
    | .ok name => s!"Wait for signal '{name}'"
    | .error _ => "Wait for signal"
  create := fun _ args => do
    let _ ← signalName args
    return .empty
  start := fun view => { effects := [.listen (signalOf view.args)], reply := .later }
  stop := fun view cause =>
    { effects := [.unlisten (signalOf view.args), .deliver (.error cause)] }
  onResume := fun view =>
    -- it comes to the end of the queue again, for the board is not saved
    { effects := [.listen (signalOf view.args)], memory := view.memory }
  status := fun args _ =>
    let name := signalOf args
    some s!"waiting for signal '{name}'"

end Step

end DurableFlow
