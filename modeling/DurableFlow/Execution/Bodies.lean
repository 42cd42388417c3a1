/-
Running the bodies of steps.

A body that calls no steps and ends soon runs in place; any other gets a thread.
A body that ended in place may make its step queue more of them, and these are
started before the ones that were queued earlier are looked at again. So the work
is a stack of tasks, and each task is one move.
-/
import DurableFlow.Execution.Steps

set_option autoImplicit false

namespace DurableFlow.Execution

open Script History

/-- Something to do about the bodies of a step. -/
inductive BodyTask where
  | start (step : Nat) (body : PendingBody)
  /-- See whether the step is over. -/
  | conclude (step : Nat)

/-! ## Branches -/

/-- Opens a branch behind the tip of a head. -/
def openBranch (head : Nat) (name : String) : Act Branch := do
  let forked ← forkHead head
  let start ← appendNode forked (.blockStart true) "branch" name
  return { head := forked, start }

/-- Opens the branch of a body that wants one. -/
def openBranch? (head : Nat) (name : Option String) : Act (Option Branch) :=
  match name with
  | none => pure none
  | some name => do return some (← openBranch head name)

/-- Closes the block of a branch and the branch with it, and gives its last node. -/
def endBranch (branch : Branch) (error : Option Failure) : Act Nat := do
  let _ ← closeBlock branch.head branch.start [] error
  dropHead branch.head

/-- Closes a branch and notes its last node with the step. -/
def closeBranch (x : Execution) (step : Nat) (branch : Branch) (error : Option Failure) :
    Execution :=
  match endBranch branch error x with
  | (.ok tip, x) =>
    x.mapProgram (·.adjustStep step fun s => { s with branchTips := s.branchTips ++ [tip] })
  | (.error _, x) => x

def closeBranch? (x : Execution) (step : Nat) (branch : Option Branch)
    (error : Option Failure) : Execution :=
  match branch with
  | none => x
  | some branch => x.closeBranch step branch error

/-! ## Threads for bodies -/

/-- Adds a thread that goes on with an input. -/
def addThread (x : Execution) (machine : Machine) (head : Nat) (vars : Scope)
    (completion : Completion) (input : Outcome) : Nat × Execution :=
  let (id, record) := x.record.allocateThread
  let thread : Thread :=
    { id, machine, head, vars, completions := [completion], input := some input }
  (id, { x with record, program := x.program.putThread thread })

/-- Runs a body as a thread of its own. -/
def spawnBody (x : Execution) (step : LiveStep) (body : PendingBody) (branch : Option Branch)
    (machine : Machine) : Execution :=
  -- a body without a branch goes on where the step was called
  let head := (branch.map Branch.head).getD step.head
  let vars := Table.insertAll body.overrides step.vars
  let (id, x) := x.addThread machine head vars (.body step.node body.index branch)
    (.ok .null)
  x.mapProgram (·.adjustStep step.node fun s =>
    { s with children := Table.insert id () s.children })

/-! ## Tasks -/

/-- Takes the bodies that a live step has queued, as tasks. -/
def takeBodies (x : Execution) (node : Nat) : List BodyTask × Execution :=
  match Table.find? node x.program.steps with
  | none => ([], x)
  | some step =>
    let (cell, bodies) := step.cell.drainBodies
    (bodies.map (.start node), x.adjustStep node fun step => { step with cell })

/-- Tells a step that one of its bodies ended. -/
def bodyEnded (x : Execution) (node index : Nat) (outcome : Outcome) :
    List BodyTask × Execution :=
  match Table.find? node x.program.steps with
  | none => ([], x)
  | some step =>
    let x := match x.stepDef? step.function with
      | some d => x.react node (d.onBody (x.viewOf step) index outcome)
      | none => x
    -- the hook may have queued more bodies: they start before it is seen whether the step is over
    let (tasks, x) := x.takeBodies node
    (tasks ++ [.conclude node], x)

/-- The closure of a body. -/
def bodyClosure? (x : Execution) : BodySource → Option (Closure Val)
  | .exported handle => Table.find? handle x.program.closures
  | .inline closure => some closure

/-- Starts a body of a live step. -/
def startBody (x : Execution) (step : LiveStep) (body : PendingBody) :
    List BodyTask × Execution :=
  match x.bodyClosure? body.source with
  | none =>
    x.bodyEnded step.node body.index (.error (.internal "body closure is no longer available"))
  | some closure =>
    -- the branch is there before the body is called, also for a body that ends at once
    match openBranch? step.head body.branch x with
    | (.error e, x) => x.bodyEnded step.node body.index (.error e.toFailure)
    | (.ok branch, x) =>
      match invokeBody x.engine.settings.safepointBudget closure with
      | .completed outcome =>
        (x.closeBranch? step.node branch (failureOf? outcome)).bodyEnded step.node body.index
          outcome
      | .deferred machine => ([], x.spawnBody step body branch machine)

/-- Does one task and says what it leads to. -/
def bodyTask (x : Execution) : BodyTask → List BodyTask × Execution
  | .start node body =>
    match Table.find? node x.program.steps with
    | none => ([], x)
    | some step => x.startBody step body
  | .conclude node =>
    match Table.find? node x.program.steps with
    | none => ([], x)
    | some step =>
      -- a step that is still being started takes its outcome from the cell itself
      if step.cell.isAsync && step.cell.pending?.isSome then ([], x.completeStep node)
      else ([], x)

/-- Does tasks, those that a task leads to before the others. The fuel bounds their number. -/
def doTasks : Nat → List BodyTask → Execution → Execution
  | 0, _, x => x
  | _, [], x => x
  | fuel + 1, task :: rest, x =>
    let (more, x) := x.bodyTask task
    doTasks fuel (more ++ rest) x

/-- How many tasks are done at a time. With the standard steps a body that is started leads to one more
task at most. -/
def taskLimit (tasks : List BodyTask) : Nat := 100000000 + 2 * tasks.length

/-- Starts the bodies that a step has queued. -/
def startBodies (x : Execution) (node : Nat) : Execution :=
  let (tasks, x) := x.takeBodies node
  doTasks (taskLimit tasks) tasks x

/-- Tells a step that one of its bodies ended, and does what follows. -/
def endBody (x : Execution) (node index : Nat) (outcome : Outcome) : Execution :=
  let (tasks, x) := x.bodyEnded node index outcome
  doTasks (taskLimit tasks) tasks x

end DurableFlow.Execution
