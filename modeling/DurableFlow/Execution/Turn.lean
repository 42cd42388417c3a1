/-
Turns of the lane.

A turn handles the jobs that wait and runs threads until none can run, taking in
new jobs between any two threads. Jobs come before threads. A turn is a sequence
of moves, and a move is either one job or one thread's turn; before the first
thread runs, the record is marked. At the end of a turn the program is over, or
idle.
-/
import DurableFlow.Execution.Ending
import DurableFlow.Execution.Stopping

set_option autoImplicit false

namespace DurableFlow.Execution

/-- Does a job. -/
def handle (x : Execution) : Job → Execution
  | .run => x
  | .completeStep node => x.completeStep node
  | .startBodies node => x.startBodies node
  | .checkpoint => x.saveCheckpoint.2
  | .stopTargets scope cause => x.orderStop scope cause

/-- The state inside a turn: whether a thread has run in it. -/
structure Turn where
  advanced : Bool := false
  execution : Execution

/-- One move of a turn; without one the turn is over. -/
def Turn.move (t : Turn) : Option Turn :=
  match t.execution.inbox with
  | job :: rest =>
    some { t with execution := { t.execution with inbox := rest }.handle job }
  | [] =>
    if t.execution.program.finished || t.execution.shouldYield then none
    else
      match t.execution.program.nextRunnable with
      | none => none
      | some id =>
        -- the first thread of a turn makes what was saved out of date
        let x := if t.advanced then t.execution else t.execution.markStale
        some { advanced := true, execution := x.runThread id }

/-- Moves until there is no move left. The fuel bounds their number. -/
def Turn.exhaust : Nat → Turn → Turn
  | 0, t => t
  | fuel + 1, t =>
    match t.move with
    | none => t
    | some t => Turn.exhaust fuel t

/-- Ends the program of an execution. -/
def endProgram (x : Execution) : Execution :=
  let outcome := x.program.rootOutcome.getD (.error (.internal "program ended without a result"))
  (x.mapProgram fun p => { p with finished := true, rootOutcome := none }).finish outcome

/-- What follows when there is no move left. -/
def Turn.close (t : Turn) : Execution :=
  let x := t.execution
  if x.program.finished then x
  else if x.program.isOver then x.endProgram
  -- a turn in which no thread ran has changed nothing that must be saved
  else if t.advanced && !x.shouldYield then x.whenIdle
  else x

/-- How many moves a turn may have. -/
def moveLimit : Nat := 100000000

/-- **A turn of the lane.** -/
def turn (x : Execution) : Execution := (Turn.exhaust moveLimit { execution := x }).close

end DurableFlow.Execution
