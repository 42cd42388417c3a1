/-
Steps that run one body and end as it ends.
-/
import DurableFlow.Error
import DurableFlow.Step.Arguments

set_option autoImplicit false

namespace DurableFlow.Step

open Script

/-- Starts the block behind the call, with contextual variables of its own. -/
def startBlock (view : StepView) (overrides : Scope) : StepStart :=
  match view.body with
  | some handle =>
    { effects := [.startBody (.exported handle) overrides none], reply := .later }
  | none => { reply := .failed (EngineError.missingBody view.function).toFailure }

/-- `stage(name) { body }` runs its block under a name. -/
def stage : StepDef where
  function := "stage"
  takesBody := true
  displayName := fun args =>
    match args.head? with
    | some name => "Stage: " ++ name.text
    | none => "Stage"
  create := fun _ args => do
    checkCount "stage" args 1 1
    let _ ← stringArg "stage" args 0
    return .empty
  start := fun view => startBlock view []

/-- `with_context(key, value) { body }` runs its block with a contextual variable. -/
def withContext : StepDef where
  function := "with_context"
  takesBody := true
  create := fun _ args => do
    checkCount "with_context" args 2 2
    let _ ← stringArg "with_context" args 0
    return .empty
  start := fun view => startBlock view [(((view.arg 0).str?).getD "", view.arg 1)]

/-- `evaluate(name, source)` compiles more script text and runs it as a body. -/
def evaluate : StepDef where
  function := "evaluate"
  isBlock := true
  displayName := fun args =>
    match args.head? with
    | some name => "Evaluate " ++ name.text
    | none => "Evaluate"
  create := fun _ args => do
    checkCount "evaluate" args 2 2
    let _ ← stringArg "evaluate" args 0
    let _ ← stringArg "evaluate" args 1
    return .empty
  start := fun view =>
    let name := ((view.arg 0).str?).getD ""
    let source := ((view.arg 1).str?).getD ""
    match loadBody name source with
    | .ok body =>
      { effects := [.rememberScript name source, .startBody (.inline body) [] none]
        reply := .later }
    | .error e => { reply := .failed e.toFailure }

end DurableFlow.Step
