/-
Asking an execution to pause, to go on, or to stop.

A request notes what it has to in the record, says so in the log and queues a
job; the lane does the rest in its turn. So a step can make the same requests of
its own execution as a host can.
-/
import DurableFlow.Execution.Checkpoint

set_option autoImplicit false

namespace DurableFlow.Execution

/-- Queues a job in a lane that has to serve. -/
def enqueue (job : Job) : Act Unit := do
  requireLane
  Attempt.update (·.submit job)

/-- **Pauses an execution or lets it go on.** Pausing ends with a checkpoint. Without a lane
only the flag is saved, and a program that is being loaded will look at it. -/
def pause (on : Bool) : Act Unit := do
  requireRunning
  Attempt.update fun x =>
    { x with paused := on, record := { x.record with paused := on } }
  match ← Attempt.reading lane with
  -- no lane would make the checkpoint
  | .absent => saveRecord
  | _ =>
    if on then
      Attempt.update (·.log "Pausing")
      enqueue .checkpoint
    else
      Attempt.update (·.log "Resuming")
      saveRecord
      enqueue .run

/-- Asks for the steps inside a block to be stopped, or for all. A program that is being loaded
is given up instead. -/
def stopScope (scope : Option Nat) (cause : Failure) : Act Unit := do
  match ← Attempt.reading stage with
  -- there are no steps yet that could be stopped
  | .loading => Attempt.update fun x => { x with loadCancelled := true }
  | _ => enqueue (.stopTargets scope cause)

/-- The failure that an interrupted program sees. -/
def interruption (result : FlowResult) (causes : List Failure) : Failure :=
  (Failure.interrupted ("interrupted with " ++ result.name)).suppressAll causes

/-- Notes the result that is asked for, and why. -/
def noteInterrupt (result : FlowResult) (causes : List Failure) (x : Execution) : Execution :=
  { x.editRecord fun r => { r.worsen result with causes := r.causes ++ causes } with
    interrupts := x.interrupts ++ [result] }

/-- **Interrupts an execution**: the result gets at least as bad as the given one, and all
running steps are stopped. -/
def interrupt (result : FlowResult) (causes : List Failure) : Act Unit := do
  if (← Attempt.reading record).done then return
  Attempt.update (noteInterrupt result causes)
  let cause := interruption result causes
  Attempt.update (·.log ("Interrupted: " ++ cause.text))
  -- the result is noted even if nothing can be stopped
  stopScope none cause

/-- Stops what runs inside the block that a node opened, and leaves all else alone. -/
def cancelScope (node : Nat) (cause : Failure) : Act Unit := do
  if (← Attempt.reading record).done then return
  stopScope (some node) cause

end DurableFlow.Execution
