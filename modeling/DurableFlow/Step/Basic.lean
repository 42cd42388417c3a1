/-
Steps: the work that scripts call for and do not do themselves.

A step is a value: a name, a check of its arguments, and a hook for each moment
of its life. A hook changes nothing by itself. It looks at a view of the running
step and answers with effects, which the execution carries out in order, and
with what the step remembers from then on. So a step is a pure function, and what
it may touch is the list of effects below.

What a step remembers between hooks is saved with the program, in a form of the
step's own choice.
-/
import DurableFlow.History.Node
import DurableFlow.History.Result
import DurableFlow.Program.Delivery

set_option autoImplicit false

namespace DurableFlow

open Script Text

/-- What a running step remembers between its hooks. -/
inductive StepMemory where
  | empty
  /-- The time at which it is over. -/
  | deadline (time : Timestamp)
  /-- The outcomes of its bodies so far, by index. -/
  | results (outcomes : Table Nat Outcome)

instance : Inhabited StepMemory := ⟨.empty⟩

/-- What a hook can see. -/
structure StepView where
  node : Nat
  thread : Nat
  function : String
  args : List Val
  /-- The block behind the call, if there is one. -/
  body : Option Nat
  /-- The contextual variables around the call. -/
  vars : Scope
  /-- The objects behind handles. -/
  liveObjects : Table Handle Val
  clock : Timestamp
  memory : StepMemory

/-- The argument of a number; one that is missing is null. -/
def StepView.arg (view : StepView) (i : Nat) : Val := view.args.getD i .null

/-- What a hook can ask for. -/
inductive StepEffect where
  /-- Write a line to the log of the execution. -/
  | log (line : String)
  /-- Remember something beside the step's node. -/
  | attach (action : History.Action)
  | deliver (outcome : Outcome)
  | startBody (source : BodySource) (overrides : Scope) (branch : Option String)
  /-- Keep the text of a script that was loaded. -/
  | rememberScript (name source : String)
  /-- Bind the object behind a handle. -/
  | bind (handle : Handle) (object : Val)
  /-- Deliver null at a time; one in the past has come. -/
  | wakeAt (time : Timestamp)
  | cancelWake
  /-- Wait for a signal. -/
  | listen (signal : String)
  | unlisten (signal : String)
  /-- Let the host reach the step under a name. -/
  | publish (name : String)
  /-- Pause the execution. -/
  | pause
  /-- Interrupt the execution. -/
  | interrupt (result : FlowResult)

/-- What the hooks after the first answer: effects and the memory from then on. -/
structure StepReaction where
  effects : List StepEffect := []
  memory : StepMemory

/-- How a start ended. -/
inductive StartReply where
  /-- The outcome was delivered. -/
  | completed
  /-- The outcome will come later. -/
  | later
  | failed (failure : Failure)
  | crashed (message : String)

/-- What the start of a step answers. -/
structure StepStart where
  effects : List StepEffect := []
  memory : StepMemory := .empty
  reply : StartReply

/-- How a stop ended. -/
inductive StopReply where
  | stopped
  | failed (failure : Failure)
  | crashed (message : String)
  /-- The stop took longer than the execution waits for it. -/
  | overdue

/-- What the stop of a step answers. -/
structure StepStop where
  effects : List StepEffect := []
  reply : StopReply := .stopped

/-- **A step.** -/
structure StepDef where
  function : String
  /-- Whether a call must have a block behind it. -/
  takesBody : Bool := false
  /-- Whether it opens a block of the history. -/
  isBlock : Bool := takesBody
  displayName : List Val → String := fun _ => function
  /-- Checks the arguments of a call. -/
  create : Timestamp → List Val → Except Failure StepMemory
  /-- Finds what a saved step remembered. -/
  restore : Timestamp → List Val → Option Json → Except Failure StepMemory :=
    fun clock args _ => create clock args
  start : StepView → StepStart
  stop : StepView → Failure → StepStop := fun _ cause => { effects := [.deliver (.error cause)] }
  /-- Called once when a saved step runs again. -/
  onResume : StepView → StepReaction := fun view => { memory := view.memory }
  /-- Called when one of the step's bodies ended. -/
  onBody : StepView → Nat → Outcome → StepReaction :=
    fun view _ outcome => { effects := [.deliver outcome], memory := view.memory }
  /-- What is saved of the memory. -/
  saveState : StepMemory → Option Json := fun _ => none
  /-- What the step is at, for a person to read. -/
  status : List Val → StepMemory → Option String := fun _ _ => none

/-- The steps that scripts can call; of two of one name the later one counts. -/
abbrev StepRegistry := List StepDef

def StepRegistry.find? (registry : StepRegistry) (function : String) : Option StepDef :=
  registry.reverse.find? (·.function == function)

end DurableFlow
