/-
A program in execution: its threads, its running steps and the blocks that these
may still run.

Threads run one at a time, in turn: the next one is the first runnable thread
after the one that ran last, in the order of their numbers, going round at the
end. A step is live from its start until its outcome was handed over. The block
behind a call is exported to the step under a number of its own and goes with
it.
-/
import DurableFlow.Program.Thread
import DurableFlow.Step.Basic

set_option autoImplicit false

namespace DurableFlow

open Script Text

/-- A step that was started. -/
structure LiveStep where
  node : Nat
  /-- The thread that waits for it. -/
  thread : Nat
  function : String
  displayName : String
  args : List Val
  /-- The contextual variables around the call. -/
  vars : Scope
  /-- The number of the block behind the call. -/
  closure : Option Nat
  /-- The head of the history on which it was started. -/
  head : Nat
  isBlock : Bool
  /-- The last nodes of its branches that have ended, in that order. -/
  branchTips : List Nat := []
  /-- The threads that run its bodies. -/
  children : Table Nat Unit := []
  cell : StepCell := {}
  memory : StepMemory := .empty

/-- What the hooks of a step can see of it. -/
def LiveStep.view (step : LiveStep) (liveObjects : Table Handle Val) (clock : Timestamp) :
    StepView :=
  { node := step.node, thread := step.thread, function := step.function, args := step.args
    body := step.closure, vars := step.vars, liveObjects, clock
    memory := step.memory }

/-- **A program in execution.** -/
structure LiveProgram where
  threads : Table Nat Thread := []
  /-- The blocks exported to live steps. -/
  closures : Table Nat (Closure Val) := []
  nextClosure : Nat := 1
  steps : Table Nat LiveStep := []
  /-- How the script itself ended. -/
  rootOutcome : Option Outcome := none
  /-- The thread that ran last. -/
  lastRun : Option Nat := none
  finished : Bool := false

instance : Inhabited LiveProgram := ⟨{}⟩

namespace LiveProgram

/-! ## Threads -/

def putThread (p : LiveProgram) (thread : Thread) : LiveProgram :=
  { p with threads := Table.insert thread.id thread p.threads }

def dropThread (p : LiveProgram) (id : Nat) : LiveProgram :=
  { p with threads := Table.erase id p.threads }

/-- The threads in the order in which their turns come. -/
def queue (p : LiveProgram) : List (Nat × Thread) :=
  match p.lastRun with
  | none => p.threads
  -- threads above the last one stand here twice; only the first that can run is looked for
  | some last => p.threads.filter (fun entry => last < entry.1) ++ p.threads

/-- **Whose turn it is.** -/
def nextRunnable (p : LiveProgram) : Option Nat :=
  (p.queue.find? fun entry => entry.2.isRunnable).map Prod.fst

/-- Whether nothing is left to run or to wait for. -/
def isOver (p : LiveProgram) : Bool := p.threads.isEmpty && p.steps.isEmpty

/-! ## Steps -/

def putStep (p : LiveProgram) (step : LiveStep) : LiveProgram :=
  { p with steps := Table.insert step.node step p.steps }

def adjustStep (p : LiveProgram) (node : Nat) (f : LiveStep → LiveStep) : LiveProgram :=
  { p with steps := Table.adjust node f p.steps }

/-- Exports a block to a step and says under which number. -/
def exportBlock (p : LiveProgram) (closure : Closure Val) : Nat × LiveProgram :=
  (p.nextClosure,
    { p with
      closures := Table.insert p.nextClosure closure p.closures
      nextClosure := p.nextClosure + 1 })

/-- Takes a step out, and the block that was exported to it. -/
def dropStep (p : LiveProgram) (step : LiveStep) : LiveProgram :=
  { p with
    steps := Table.erase step.node p.steps
    closures := match step.closure with
      | some handle => Table.erase handle p.closures
      | none => p.closures }

/-- Whether a step has a body thread that has not ended. -/
def hasLiveChild (p : LiveProgram) (step : LiveStep) : Bool :=
  (Table.keys step.children).any fun child => Table.contains child p.threads

end LiveProgram

end DurableFlow
