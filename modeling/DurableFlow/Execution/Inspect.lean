/-
Looking at an execution from outside.

What the program is at is asked through the lane, so an answer never falls
between two halves of a move, and the lane takes its turn after it.
-/
import DurableFlow.Execution.Stopping

set_option autoImplicit false

namespace DurableFlow.Execution

open Script History

/-- Asks something through the lane. -/
def ask {α : Type} (question : Execution → α) : Act α := do
  requireLane
  let answer ← Attempt.reading question
  -- who asks wakes the lane
  Attempt.update (·.submit .run)
  return answer

/-- The tips of the history in the order of their heads; what cannot be read is left out. -/
def currentHeads (x : Execution) : List Node :=
  (Table.values x.record.heads).filterMap fun tip => (x.archive.node tip).toOption

/-- The running steps, or those of them around which no other step runs. -/
def stepInfos (x : Execution) (innermost : Bool) : List StepInfo :=
  let outer := if innermost then x.chains.flatMap Prod.snd else []
  ((Table.values x.program.steps).filter fun step => !outer.contains step.node).map
    (LiveStep.info x.engine.steps)

/-- The running steps of an execution that is served. -/
def currentSteps (innermost : Bool) : Act (List StepInfo) := do
  if (← Attempt.reading record).done then return []
  ask (·.stepInfos innermost)

/-- The handles that a program which is being loaded waits for. -/
def pendingHandles (x : Execution) : List Handle :=
  match x.loading with
  | .resolving _ resolution => resolution.pending
  | _ => []

/-- A dump of the threads of a program that is served. No answer comes in no time. -/
def dumpProgram : Act ThreadDump := do
  let dump ← ask fun x => x.program.dump x.engine.steps
  Attempt.failIf ((← Attempt.reading engine).settings.threadDumpTimeoutMs == 0)
    (.timeout "thread dump")
  return dump

/-- Where all threads are, or what the loading of the program waits for. -/
def threadDump : Act ThreadDump := do
  match ← Attempt.reading stage with
  | .loading => Attempt.reading fun x => { pendingHandles := x.pendingHandles }
  | .ready => dumpProgram
  | .created | .finished => return {}

end DurableFlow.Execution
