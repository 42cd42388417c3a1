/-
What happens to the steps of an execution: deliveries, the effects of hooks, and
the end of a step.
-/
import DurableFlow.Data.Order
import DurableFlow.Execution.Request

set_option autoImplicit false

namespace DurableFlow.Execution

open Script History

/-! ## Deliveries -/

/-- **Delivers an outcome** to a step. The first one that comes to an asynchronous step
queues its completion. -/
def deliver (x : Execution) (node : Nat) (outcome : Outcome) : Execution :=
  match x.step? node with
  | none => x
  | some step =>
    let (cell, schedule) := step.cell.deliver outcome
    let x := x.adjustStep node fun step => { step with cell }
    if schedule then x.submit (.completeStep node) else x

/-- Queues a body of a step and says which one it is. -/
def queueBody (x : Execution) (node : Nat) (source : BodySource) (overrides : Scope)
    (branch : Option String) : Nat × Execution :=
  match x.step? node with
  | none => (0, x)
  | some step =>
    let (cell, index, schedule) := step.cell.queueBody source overrides branch
    let x := x.adjustStep node fun step => { step with cell }
    (index, if schedule then x.submit (.startBodies node) else x)

/-- Completes the step that has waited longest for a signal, and says whether there was one. -/
def signal (x : Execution) (name : String) (outcome : Outcome) : Bool × Execution :=
  match x.board.take name with
  | (none, _) => (false, x)
  | (some waiter, board) => (true, { x with board }.deliver waiter.node outcome)

/-- Delivers to the steps whose time has come, in the order of their times. -/
def fireTimers (x : Execution) : Execution :=
  let due := sortByKey Timer.dueAt (x.timers.filter (·.dueAt ≤ x.now))
  -- what is due leaves the timers before the first of them is delivered
  due.foldl (fun x timer => x.deliver timer.node (.ok .null))
    { x with timers := x.timers.filter (x.now < ·.dueAt) }

/-- Compiles more script text and remembers it. -/
def loadScript (name source : String) : Act (Closure Val) := do
  let closure ← Attempt.trying fun _ => loadBody name source
  -- only a script that compiles is remembered
  Attempt.update (editRecord fun r =>
    { r with loadedScripts := Table.insert name source r.loadedScripts })
  return closure

/-! ## Effects of hooks -/

/-- Sets a timer for a step. What is due in the past is due now. -/
def setTimer (x : Execution) (node : Nat) (time : Text.Timestamp) : Execution :=
  let remaining := (time.millis - x.clock.millis).toNat
  { x with timers := x.timers ++ [{ node, dueAt := x.now + remaining }] }

/-- Carries out one effect of a hook of the step at a node. What fails in it is the end of that
effect only. -/
def applyEffect (node : Nat) (x : Execution) : StepEffect → Execution
  | .log line => x.log line
  | .attach action => (addAction node action).after x
  | .deliver outcome => x.deliver node outcome
  | .startBody source overrides branch => (x.queueBody node source overrides branch).2
  | .rememberScript name source =>
    x.editRecord fun r => { r with loadedScripts := Table.insert name source r.loadedScripts }
  | .bind handle object => { x with liveObjects := Table.insert handle object x.liveObjects }
  | .wakeAt time => x.setTimer node time
  | .cancelWake => { x with timers := x.timers.filter (·.node != node) }
  | .listen name => { x with board := x.board.register name { execution := x.record.id, node } }
  | .unlisten name => { x with board := x.board.remove name node }
  | .publish name => { x with published := Table.insert name node x.published }
  | .pause => (pause true).after x
  | .interrupt result => (interrupt result []).after x

/-- Carries out effects in order. -/
def applyEffects (node : Nat) (effects : List StepEffect) (x : Execution) : Execution :=
  effects.foldl (applyEffect node) x

/-- Takes over what a hook answered. -/
def react (node : Nat) (reaction : StepReaction) (x : Execution) : Execution :=
  applyEffects node reaction.effects
    (x.adjustStep node fun step => { step with memory := reaction.memory })

/-! ## The end of a step -/

/-- The failure in an outcome. -/
def failureOf? : Outcome → Option Failure
  | .ok _ => none
  | .error failure => some failure

/-- Closes the node of a step that is over. -/
def closeStepNode (step : LiveStep) (error : Option Failure) : Act Unit := do
  if step.isBlock then
    let _ ← closeBlock step.head step.node step.branchTips error
  else closeAtom step.node error

/-- Retires a live step and closes its node. -/
def finishStep (x : Execution) (node : Nat) (outcome : Outcome) : Execution :=
  match Table.find? node x.program.steps with
  | none => x
  | some step =>
    -- retired, not forgotten: what is delivered late still comes to its cell
    let x := { x with
      program := x.program.dropStep step
      retired := Table.insert node step x.retired }
    (closeStepNode step (failureOf? outcome)).after x

/-- Hands an outcome to a thread. If the thread is gone or has an input the outcome is lost. -/
def resumeThread (x : Execution) (id : Nat) (outcome : Outcome) : Execution :=
  match Table.find? id x.program.threads with
  | none => x.lose (.threadGone id)
  | some thread =>
    -- the thread waits for the step no longer, even if it does not take the outcome
    let thread := { thread with step := none }
    match thread.resume outcome with
    | .ok thread => x.mapProgram (·.putThread thread)
    | .error _ => (x.mapProgram (·.putThread thread)).lose (.threadBusy id)

/-- **Hands the outcome of a step to its thread**, once. -/
def completeStep (x : Execution) (node : Nat) : Execution :=
  match Table.find? node x.program.steps with
  | none => x
  | some step =>
    match step.cell.take with
    | (_, none) => x
    | (cell, some outcome) =>
      let x := x.adjustStep node fun step => { step with cell }
      -- the node is closed before the thread can go on
      (x.finishStep node outcome).resumeThread step.thread outcome

end DurableFlow.Execution
