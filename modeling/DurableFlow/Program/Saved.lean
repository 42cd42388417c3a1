/-
Saving a program in execution.

What is saved is all that the program needs to go on: threads, exported blocks,
live steps with what they remember, and the list of handles that have to be
resolved before the threads may run. The list has each handle once, in order.
Machines and step states are kept as JSON here; they are read when the program
is put together again.
-/
import DurableFlow.Program.Live

set_option autoImplicit false

namespace DurableFlow

open Script

/-! ## What is saved -/

structure SavedThread where
  id : Nat
  machine : Json
  input : Option Outcome
  head : Nat
  step : Option Nat
  completions : List Completion
  vars : Scope

structure SavedStep where
  node : Nat
  thread : Nat
  function : String
  args : List Val
  /-- What the step remembers, in a form of its own. -/
  state : Option Json
  closure : Option Nat
  head : Nat
  isBlock : Bool
  branchTips : List Nat
  children : Table Nat Unit
  vars : Scope
  /-- The outcome that was delivered and not yet taken. -/
  outcome : Option Outcome
  nextBody : Nat
  bodies : List PendingBody

/-- A saved program. -/
structure SavedProgram where
  threads : List SavedThread
  closures : Table Nat (Closure Val)
  nextClosure : Nat
  steps : List SavedStep
  rootOutcome : Option Outcome
  /-- The handles to resolve before the threads run. -/
  handles : List Handle

/-! ## Saving -/

def Thread.save (thread : Thread) : SavedThread :=
  { id := thread.id, machine := thread.machine.toJson, input := thread.input
    head := thread.head, step := thread.step, completions := thread.completions
    vars := thread.vars }

def LiveStep.save (registry : StepRegistry) (step : LiveStep) : SavedStep :=
  { node := step.node, thread := step.thread, function := step.function, args := step.args
    state := (registry.find? step.function).bind fun d => d.saveState step.memory
    closure := step.closure, head := step.head, isBlock := step.isBlock
    branchTips := step.branchTips, children := step.children, vars := step.vars
    -- the marker of an outcome that was taken is not saved
    outcome := step.cell.pending?, nextBody := step.cell.nextBody, bodies := step.cell.bodies }

/-- The handles that a step holds in its arguments and its queued bodies. -/
def LiveStep.handles (step : LiveStep) : List Handle :=
  Val.handlesItems step.args ++ step.cell.bodies.flatMap PendingBody.handles

/-- The handles that a program holds. -/
def LiveProgram.handles (p : LiveProgram) : List Handle :=
  (Table.values p.threads).flatMap Thread.handles
    ++ (Table.values p.closures).flatMap (fun closure => Val.handlesFields closure.captured)
    ++ (Table.values p.steps).flatMap LiveStep.handles

/-- **Saves a program.** -/
def LiveProgram.save (registry : StepRegistry) (p : LiveProgram) : SavedProgram :=
  { threads := (Table.values p.threads).map Thread.save
    closures := p.closures
    nextClosure := p.nextClosure
    steps := (Table.values p.steps).map (LiveStep.save registry)
    rootOutcome := p.rootOutcome
    handles := Handle.sorted p.handles }

/-! ## As JSON -/

/-- A set of numbers as JSON. -/
def numbersToJson (set : Table Nat Unit) : Json := .arr ((Table.keys set).map .nat)

/-- Reads a set of numbers of threads. -/
def numbersOfDocument? (d : Document) : Option (Table Nat Unit) := do
  return Table.ofEntries ((← d.list? Document.shortNat?).map fun n => (n, ()))

def SavedThread.toJson (thread : SavedThread) : Json :=
  Json.object [("id", .nat thread.id), ("continuation", thread.machine),
    ("resume_value", Json.ofOption Outcome.toJson thread.input), ("head", .nat thread.head),
    ("step", Json.ofOption .nat thread.step),
    ("completions", .arr (thread.completions.map Completion.toJson)),
    ("variables", scopeToJson thread.vars)]

/-- The fields of a saved thread, in order. -/
def SavedThread.fieldNames : List String :=
  ["id", "continuation", "resume_value", "head", "step", "completions", "variables"]

def SavedThread.ofDocument? (d : Document) : Option SavedThread := do
  -- a list of six values will do: the last one has a default
  let fields ← d.record? SavedThread.fieldNames 6
  return {
    id := ← fields.field? "id" Document.shortNat?
    machine := ← fields.field? "continuation" Document.json?
    input := ← fields.optional? "resume_value" Outcome.ofDocument?
    head := ← fields.field? "head" Document.shortNat?
    step := ← fields.optional? "step" Document.nat?
    completions := ← fields.field? "completions" (·.list? Completion.ofDocument?)
    vars := ← fields.fieldD? "variables" scopeOfDocument? [] }

def SavedStep.toJson (step : SavedStep) : Json :=
  Json.object [("node", .nat step.node), ("thread", .nat step.thread),
    ("function", .str step.function), ("args", .arr (Val.itemsToJson step.args)),
    ("state", step.state.getD .null), ("closure", Json.ofOption .nat step.closure),
    ("head", .nat step.head), ("is_block", .bool step.isBlock),
    ("branch_tips", .arr (step.branchTips.map .nat)), ("children", numbersToJson step.children),
    ("variables", scopeToJson step.vars),
    ("outcome", Json.ofOption Outcome.toJson step.outcome), ("next_body", .nat step.nextBody),
    ("bodies", .arr (step.bodies.map PendingBody.toJson))]

/-- The fields of a saved step, in order. -/
def SavedStep.fieldNames : List String :=
  ["node", "thread", "function", "args", "state", "closure", "head", "is_block", "branch_tips",
    "children", "variables", "outcome", "next_body", "bodies"]

def SavedStep.ofDocument? (d : Document) : Option SavedStep := do
  let fields ← d.record? SavedStep.fieldNames 12
  return {
    node := ← fields.field? "node" Document.nat?
    thread := ← fields.field? "thread" Document.shortNat?
    function := ← fields.field? "function" Document.str?
    args := ← fields.field? "args" (·.list? Val.ofDocument?)
    state := ← fields.optional? "state" Document.json?
    closure := ← fields.optional? "closure" Document.nat?
    head := ← fields.field? "head" Document.shortNat?
    isBlock := ← fields.field? "is_block" Document.bool?
    branchTips := ← fields.fieldD? "branch_tips" (·.list? Document.nat?) []
    children := ← fields.fieldD? "children" numbersOfDocument? []
    vars := ← fields.fieldD? "variables" scopeOfDocument? []
    outcome := ← fields.optional? "outcome" Outcome.ofDocument?
    nextBody := ← fields.fieldD? "next_body" Document.nat? 0
    bodies := ← fields.fieldD? "bodies" (·.list? PendingBody.ofDocument?) [] }

def SavedProgram.toJson (p : SavedProgram) : Json :=
  Json.object [("threads", .arr (p.threads.map SavedThread.toJson)),
    ("closures", Json.ofNumbered Closure.toJson p.closures), ("next_closure", .nat p.nextClosure),
    ("steps", .arr (p.steps.map SavedStep.toJson)),
    ("root_outcome", Json.ofOption Outcome.toJson p.rootOutcome),
    ("pickles", .arr (p.handles.map Handle.toJson))]

/-- The fields of a saved program, in order. -/
def SavedProgram.fieldNames : List String :=
  ["threads", "closures", "next_closure", "steps", "root_outcome", "pickles"]

def SavedProgram.ofDocument? (d : Document) : Option SavedProgram := do
  let fields ← d.record? SavedProgram.fieldNames 6
  return {
    threads := ← fields.field? "threads" (·.list? SavedThread.ofDocument?)
    closures := ← fields.field? "closures" (Document.numbered? Json.wordBound Closure.ofDocument?)
    nextClosure := ← fields.field? "next_closure" Document.nat?
    steps := ← fields.field? "steps" (·.list? SavedStep.ofDocument?)
    rootOutcome := ← fields.optional? "root_outcome" Outcome.ofDocument?
    handles := ← fields.field? "pickles" (·.list? Handle.ofDocument?) }

/-- **Reads a saved program back.** -/
def SavedProgram.ofJson? (json : Json) : Option SavedProgram :=
  SavedProgram.ofDocument? (.ofJson json)

end DurableFlow
