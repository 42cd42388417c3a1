/-
Running threads.

A thread runs until it waits for a step, comes to a safepoint or ends. A step
that is over when it has started does not interrupt its thread.
-/
import DurableFlow.Execution.Bodies

set_option autoImplicit false

namespace DurableFlow.Execution

open Script History

/-! ## Starting steps -/

/-- What comes of a step call: an outcome at once, or a thread that waits. -/
structure StepCall where
  outcome : Option Outcome
  thread : Thread
  execution : Execution

/-- Takes in how a start ended. -/
def acknowledge (x : Execution) (node : Nat) (function : String) : StartReply → Execution
  | .later => x
  | .completed =>
    if ((x.step? node).bind fun step => step.cell.pending?).isSome then x
    else x.deliver node (.error (.internal
      s!"step '{function}' reported synchronous completion without an outcome"))
  | .failed failure => x.deliver node (.error failure)
  | .crashed message =>
    x.deliver node (.error
      { code := Failure.Code.stepFailed, message := s!"{function} panicked: {message}" })

/-- Takes the outcome of a step that is over, or leaves its thread waiting for it. -/
def awaitStep (x : Execution) (thread : Thread) (node : Nat) : StepCall :=
  match Table.find? node x.program.steps with
  | none => { outcome := none, thread, execution := x }
  | some step =>
    match step.cell.switchToAsync with
    | (cell, true) =>
      { outcome := none, thread
        execution := x.adjustStep node fun step => { step with cell } }
    | (_, false) =>
      match step.cell.take with
      | (_, none) => { outcome := none, thread, execution := x }
      | (cell, some outcome) =>
        let x := x.adjustStep node fun step => { step with cell }
        { outcome := some outcome, thread := { thread with step := none }
          execution := x.finishStep node outcome }

/-- Takes in what comes from another thread. -/
def interject (x : Execution) : Interjection → Execution
  | .asks node effect => x.applyEffect node effect
  | .signals name outcome => (x.signal name outcome).2
  | .timers => x.fireTimers

/-- Takes in what comes from other threads while the step at a node is being started. -/
def meanwhile (x : Execution) (node : Nat) : Execution := (x.engine.meanwhile node).foldl interject x

/-- Starts a step whose call was found to be in order and has its node. -/
def launch (x : Execution) (thread : Thread) (d : StepDef) (request : StepRequest)
    (memory : StepMemory) (node : Nat) : StepCall :=
  let (closure, program) := match request.body with
    | none => (none, x.program)
    | some body =>
      let (handle, program) := x.program.exportBlock body
      (some handle, program)
  let step : LiveStep :=
    { node, thread := thread.id, function := request.function
      displayName := d.displayName request.args, args := request.args
      vars := thread.vars, closure, head := thread.head, isBlock := d.isBlock, memory }
  -- the step is live when the effects of its hook are carried out
  let x := { x with program := program.putStep step }
  let started := d.start (x.viewOf step)
  let x := x.react node { effects := started.effects, memory := started.memory }
  -- bodies that the hook has queued are started in the call
  let x := (x.acknowledge node request.function started.reply).startBodies node
  -- the cell is looked at under a lock of its own, and others may come before
  (x.meanwhile node).awaitStep { thread with step := some node } node

/-- The answer to a call that fails before it has a node. -/
def refuse (x : Execution) (thread : Thread) (failure : Failure) : StepCall :=
  { outcome := some (.error failure), thread, execution := x }

/-- **Starts the step that a thread calls for.** -/
def startStep (x : Execution) (thread : Thread) (request : StepRequest) : StepCall :=
  let function := request.function
  -- calls that are refused are counted too
  let x := x.mapRecord (·.countCall function)
  match x.stepDef? function with
  | none =>
    x.refuse thread
      { code := Failure.Code.noSuchStep, message := s!"no step named '{function}'" }
  | some d =>
    if d.takesBody && request.body.isNone then
      x.refuse thread
        { code := Failure.Code.missingBody
          message := s!"'{function}' must be called with a block" }
    else
      -- arguments are looked at before there is a node: a call that is refused leaves none
      match d.create x.clock request.args with
      | .error failure => x.refuse thread failure
      | .ok memory =>
        let kind : NodeKind := if d.isBlock then .blockStart false else .atom
        match appendNode thread.head kind function (d.displayName request.args) x with
        | (.error e, x) => x.refuse thread e.toFailure
        | (.ok node, x) => x.launch thread d request memory node

/-! ## Ending threads -/

/-- Does what is to be done when a thread has ended. -/
def complete (thread : Nat) (outcome : Outcome) (x : Execution) : Completion → Execution
  | .root => x.mapProgram fun p => { p with rootOutcome := some outcome }
  | .body step index branch =>
    let x := x.mapProgram (·.adjustStep step fun s =>
      { s with children := Table.erase thread s.children })
    -- the branch ends first: the hook may end the step, and the end of the step joins its branches
    (x.closeBranch? step branch (failureOf? outcome)).endBody step index outcome

/-- Ends a thread that was taken out to run. -/
def endThread (x : Execution) (thread : Thread) (outcome : Outcome) : Execution :=
  thread.completions.foldl (complete thread.id outcome) x

/-! ## Running -/

/-- Drives a thread that was taken out until it waits, parks or ends; unless it ends, it is put
back. The fuel bounds the number of steps that are over at once. -/
def driveThread : Nat → Execution → Thread → Outcome → Execution
  | 0, x, thread, input => x.mapProgram (·.putThread { thread with input := some input })
  | fuel + 1, x, thread, input =>
    match driveUnder x.policy thread.machine input with
    | .pending machine input =>
      x.mapProgram (·.putThread { thread with machine, input := some input })
    | .yielded .safepoint machine =>
      x.mapProgram (·.putThread { thread with machine }.park)
    | .yielded (.completed outcome) machine => x.endThread { thread with machine } outcome
    | .yielded (.step request) machine =>
      let call := x.startStep { thread with machine } request
      match call.outcome with
      | none => call.execution.mapProgram (·.putThread call.thread)
      -- a step that is over at once does not end the turn of the thread
      | some outcome => driveThread fuel call.execution call.thread outcome

/-- How many steps may be over at once before a thread gives way. -/
def stepLimit : Nat := 100000000

/-- **Gives a thread its turn.** A running thread is not among the threads of the program. -/
def runThread (x : Execution) (id : Nat) : Execution :=
  let x := x.mapProgram fun p => { p with lastRun := some id }
  match Table.find? id x.program.threads with
  | none => x
  | some thread =>
    match thread.input with
    | none => x
    | some input =>
      -- while it runs the thread is not in the program, where it could be told or saved
      driveThread stepLimit (x.mapProgram (·.dropThread id)) { thread with input := none } input

end DurableFlow.Execution
