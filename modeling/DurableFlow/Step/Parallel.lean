/-
`parallel(closure, ...)`: a step that runs closures side by side.

Each closure is a body on a branch of its own. The step is over when all of them
are: with the list of their values in the order of the arguments, or with the
failure of the first branch that failed, the later ones being suppressed in it.
In which order the branches end makes no difference, because their outcomes are
kept by index.
-/
import DurableFlow.Step.Arguments

set_option autoImplicit false

namespace DurableFlow.Step

open Script

/-- The closures that a call asks to run. -/
def closuresFrom (i : Nat) : List Val → Except Failure (List (Closure Val))
  | [] => .ok []
  | .closure c :: rest => (closuresFrom (i + 1) rest).map (c :: ·)
  | other :: _ => .error (wrongKind "parallel" i "closure" other)

def closures (args : List Val) : Except Failure (List (Closure Val)) := closuresFrom 0 args

/-- The outcomes that a step remembers. -/
def outcomesOf : StepMemory → Table Nat Outcome
  | .results outcomes => outcomes
  | _ => []

/-- Joins outcomes into one: all values, or the first failure with the others in it. -/
def join : List Outcome → Except Failure (List Val)
  | [] => .ok []
  | .ok value :: rest => (join rest).map (value :: ·)
  | .error failure :: rest =>
    .error (failure.suppressAll (rest.filterMap fun outcome =>
      match outcome with
      | .error failure => some failure
      | .ok _ => none))

/-- The outcome of all branches together. -/
def joined (outcomes : Table Nat Outcome) : Outcome := (join (Table.values outcomes)).map .list

/-- Takes in the outcome of a branch, and delivers when it was the last one. -/
def branchDone (branches : Nat) (outcomes : Table Nat Outcome) (index : Nat) (outcome : Outcome) :
    StepReaction :=
  let outcomes := Table.insert index outcome outcomes
  -- a branch that reports twice is counted once
  { effects := if outcomes.length < branches then [] else [.deliver (joined outcomes)]
    memory := .results outcomes }

/-- The start of each branch. -/
def startBranches (i : Nat) : List (Closure Val) → List StepEffect
  | [] => []
  | c :: rest =>
    .startBody (.inline c) [] (some ("Branch: " ++ toString (i + 1))) :: startBranches (i + 1) rest

/-- Reads the outcomes of a saved step. -/
def outcomesOfState? (state : Json) : Option (Table Nat Outcome) := do
  let fields ← (Document.ofJson state).record? ["results"] 1
  fields.field? "results" (Document.numbered? Json.wordBound Outcome.ofDocument?)

/-- The saved form of outcomes. -/
def outcomesToState (outcomes : Table Nat Outcome) : Json :=
  .obj [("results", Json.ofNumbered Outcome.toJson outcomes)]

/-- `parallel(closure, ...)` runs closures side by side. -/
def parallel : StepDef where
  function := "parallel"
  isBlock := true
  displayName := fun _ => "Execute in parallel"
  create := fun _ args => (closures args).map fun _ => .results []
  restore := fun _ args state => do
    let outcomes ← match state with
      | none => pure []
      | some state =>
        match outcomesOfState? state with
        | some outcomes => pure outcomes
        | none => .error (.internal "bad parallel state: no results")
    -- the branches are not saved with the outcomes: they are in the arguments
    let _ ← closures args
    return .results outcomes
  start := fun view =>
    match closures view.args with
    | .error failure => { reply := .failed failure }
    -- no branch would ever report
    | .ok [] =>
      { effects := [.deliver (.ok (.list []))], memory := .results [], reply := .completed }
    | .ok branches =>
      { effects := startBranches 0 branches, memory := .results [], reply := .later }
  onBody := fun view index outcome =>
    branchDone view.args.length (outcomesOf view.memory) index outcome
  saveState := fun memory => some (outcomesToState (outcomesOf memory))
  status := fun args memory =>
    let done := (outcomesOf memory).length
    let all := args.length
    some s!"{done} of {all} branches done"

end DurableFlow.Step
