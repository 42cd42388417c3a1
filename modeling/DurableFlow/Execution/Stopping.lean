/-
Stopping what runs.

To stop a block means to stop the innermost steps in it; the steps around them
end because their bodies do. A thread that waits for no step is told directly.
Steps are stopped one after the other, the youngest first, and each has its time
to stop. A stop that fails in any way delivers the cause all the same, with the
problem suppressed in it.
-/
import DurableFlow.Execution.Threads
import DurableFlow.History.Graph

set_option autoImplicit false

namespace DurableFlow.Execution

open History

/-! ## What is to be stopped -/

/-- The blocks around a node; where the history cannot tell, none. -/
def blocksAround (x : Execution) (node : Nat) : List Nat :=
  match enclosingBlocks x.archive.history x.archive.tree node with
  | .ok blocks => blocks
  | .error _ => []

/-- Each live step with the blocks around it. -/
def chains (x : Execution) : List (LiveStep × List Nat) :=
  (Table.values x.program.steps).map fun step => (step, x.blocksAround step.node)

/-- Whether a step is the scope or lies in it. -/
def inScope (scope : Option Nat) (node : Nat) (blocks : List Nat) : Bool :=
  match scope with
  | none => true
  | some s => node == s || blocks.contains s

/-- Whether a step is left to end through another one inside it. -/
def isOuter (x : Execution) (step : LiveStep) : Bool :=
  x.program.hasLiveChild step
    || x.chains.any fun other => other.1.node != step.node && other.2.contains step.node

/-- The steps to stop, the youngest first. -/
def targets (x : Execution) (scope : Option Nat) : List Nat :=
  ((x.chains.filter fun c => inScope scope c.1.node c.2 && !x.isOuter c.1).map
    fun c => c.1.node).reverse

/-- Whether a thread is inside a scope. -/
def isThreadInScope (x : Execution) (scope : Option Nat) (thread : Thread) : Bool :=
  match scope with
  | none => true
  | some s =>
    match x.headTip thread.head with
    | none => false
    | some tip =>
      match isWithin x.archive.history x.archive.tree tip s with
      | .ok within => within
      | .error _ => false

/-- Whether a thread is to be told directly. -/
def isIdleIn (x : Execution) (scope : Option Nat) (thread : Thread) : Bool :=
  thread.step.isNone && thread.isAlive && x.isThreadInScope scope thread

/-- Tells the threads inside a scope that wait for no step. -/
def injectIdle (x : Execution) (scope : Option Nat) (cause : Failure) : Execution :=
  let tell (thread : Thread) : Thread :=
    if x.isIdleIn scope thread then thread.inject cause else thread
  -- who is told is decided in the state before any thread was told
  x.mapProgram fun p => { p with threads := Table.mapValues tell p.threads }

/-- **Finds what is to be stopped** and tells the threads that wait for no step. -/
def orderStop (x : Execution) (scope : Option Nat) (cause : Failure) : Execution :=
  let order : StopOrder := { targets := x.targets scope, cause }
  { x.injectIdle scope cause with stopping := x.stopping ++ [order] }

/-! ## Stopping a step -/

/-- Delivers a cause to a step that did not stop as it should. -/
def deliverProblem (x : Execution) (node : Nat) (cause problem : Failure) : Execution :=
  x.deliver node (.error (cause.suppress problem))

/-- The failure of a stop that took too long. -/
def stopTimeout (node limitMs : Nat) : Failure :=
  { code := Failure.Code.stopTimeout
    message := "step at node " ++ toString node ++ " did not stop within "
      ++ Settings.durationText limitMs }

/-- Waits for a stop until the time for it is over. -/
def stopOverdue (x : Execution) (node : Nat) (cause : Failure) : Execution :=
  let limit := x.engine.settings.stopTimeoutMs
  let x := { x with now := x.now + limit }.fireTimers
  let x := x.deliverProblem node cause (stopTimeout node limit)
  { x with now := x.now + 1 }

/-- **Stops a step.** -/
def stopStep (x : Execution) (node : Nat) (cause : Failure) : Execution :=
  match x.step? node with
  | none => x
  | some step =>
    match x.stepDef? step.function with
    | none => x
    | some d =>
      let stopped := d.stop (x.viewOf step) cause
      let x := x.applyEffects node stopped.effects
      match stopped.reply with
      | .stopped => x
      | .failed failure => x.deliverProblem node cause failure
      | .crashed message =>
        x.deliverProblem node cause (.internal
          s!"stop hook panicked: task {node} panicked with message \"{message}\"")
      | .overdue => x.stopOverdue node cause

/-- Carries out the first order by one step. -/
def stopNext (x : Execution) : Execution :=
  match x.stopping with
  | [] => x
  | order :: rest =>
    match order.targets with
    | [] => { x with stopping := rest }
    | node :: targets =>
      -- the step leaves the order before its hook runs, which may give orders itself
      { x with stopping := { order with targets } :: rest }.stopStep node order.cause

end DurableFlow.Execution
