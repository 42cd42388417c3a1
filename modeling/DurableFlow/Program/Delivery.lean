/-
The outcome of a step: delivered any number of times, counted once.

A step reports to a cell. The first outcome is the step's outcome; what comes
later is kept as suppressed detail, also inside the first outcome if that is a
failure nobody has taken yet. The scheduler takes the outcome once and leaves a
marker behind.

A cell starts out synchronous: an outcome that is there when the step's start
returns is taken in place. If there is none, the cell becomes asynchronous for
good, and from then on the first delivery has to be announced to the scheduler.
So of the two ways in which an outcome reaches its thread, each delivery takes
exactly one. Bodies that the step wants to run are queued in the cell in the
same way.
-/
import DurableFlow.Script.Codec
import DurableFlow.Text.Blank

set_option autoImplicit false

namespace DurableFlow

open Script

/-- Where a body comes from. -/
inductive BodySource where
  /-- The block behind the step call. -/
  | exported (handle : Nat)
  /-- A closure that the step got otherwise. -/
  | inline (closure : Closure Val)

/-- A body that a step wants to run. -/
structure PendingBody where
  /-- Which of the step's bodies it is. -/
  index : Nat
  source : BodySource
  /-- Contextual variables for the body, over those of the step. -/
  overrides : Scope := []
  /-- The name of its branch, if the body runs on a branch of its own. -/
  branch : Option String := none

/-- What a step has reported. -/
structure StepCell where
  outcome : Option Outcome := none
  isAsync : Bool := false
  /-- What was delivered after the first outcome. -/
  suppressed : List Failure := []
  /-- Bodies that are queued and not yet started. -/
  bodies : List PendingBody := []
  /-- How many bodies were queued so far. -/
  nextBody : Nat := 0

namespace StepCell

/-- Whether an outcome is the marker of one that was taken. -/
def isMarker : Outcome → Bool
  | .error failure => failure.isAlreadyCompleted
  | .ok _ => false

/-- What is kept of an outcome that came too late. -/
def duplicate : Outcome → Failure
  | .ok value =>
    { code := Failure.Code.duplicateOutcome
      message := "step already completed; ignoring result " ++ value.text }
  | .error failure => failure

/-- A first outcome together with what came later; a marker and a value stay as they are. -/
def amend (first : Outcome) (late : Failure) : Outcome :=
  match first with
  | .ok value => .ok value
  | .error failure =>
    if failure.isAlreadyCompleted then .error failure else .error (failure.suppress late)

/-- **Delivers an outcome.** Says whether its completion has to be scheduled. -/
def deliver (cell : StepCell) (outcome : Outcome) : StepCell × Bool :=
  if isMarker outcome then (cell, false)
  else
    match cell.outcome with
    | none => ({ cell with outcome := some outcome }, cell.isAsync)
    | some first =>
      -- the first outcome stands: what comes later is kept beside it
      let late := duplicate outcome
      ({ cell with
          outcome := some (amend first late)
          suppressed := cell.suppressed ++ [late] }, false)

/-- The outcome that was delivered and not yet taken. -/
def pending? (cell : StepCell) : Option Outcome :=
  cell.outcome.filter fun outcome => !isMarker outcome

/-- Makes a cell without an outcome asynchronous, and says whether it did. -/
def switchToAsync (cell : StepCell) : StepCell × Bool :=
  match cell.outcome with
  | some _ => (cell, false)
  | none => ({ cell with isAsync := true }, true)

/-- **Takes the outcome** for its thread and leaves the marker behind. -/
def take (cell : StepCell) : StepCell × Option Outcome :=
  match cell.pending? with
  -- the marker keeps the cell from taking another first outcome
  | some outcome => ({ cell with outcome := some (.error .alreadyCompleted) }, some outcome)
  | none => (cell, none)

/-- Queues a body. Says which one it is and whether its start has to be scheduled. -/
def queueBody (cell : StepCell) (source : BodySource) (overrides : Scope)
    (branch : Option String) : StepCell × Nat × Bool :=
  let body : PendingBody := { index := cell.nextBody, source, overrides, branch }
  ({ cell with bodies := cell.bodies ++ [body], nextBody := cell.nextBody + 1 },
    cell.nextBody, cell.isAsync)

/-- Takes all queued bodies. -/
def drainBodies (cell : StepCell) : StepCell × List PendingBody :=
  ({ cell with bodies := [] }, cell.bodies)

end StepCell

/-! ## Objects with numbered members -/

/-- A number as the name of a member. -/
def Document.Name.number? (bound : Nat) (name : Document.Name) : Option Nat :=
  -- a number has one spelling, without signs, zeros in front or escapes
  (Text.natBelow? bound name.text).filter fun n => name.plain && toString n == name.text

/-- Reads an object whose members are named by numbers. -/
def Document.numbered? {α : Type} (bound : Nat) (f : Document → Option α) (d : Document) :
    Option (Table Nat α) :=
  d.table? (Document.Name.number? bound) f

/-- An object whose members are named by numbers. -/
def Json.ofNumbered {α : Type} (f : α → Json) (table : Table Nat α) : Json :=
  Json.object (table.map fun entry => (toString entry.1, f entry.2))

/-! ## Saved form of queued bodies -/

def BodySource.toJson : BodySource → Json
  | .exported handle => .obj [("Exported", .nat handle)]
  | .inline closure => .obj [("Inline", closure.toJson)]

def BodySource.ofDocument? (d : Document) : Option BodySource :=
  match d with
  | .obj [(⟨"Exported", _⟩, handle)] => handle.nat?.map .exported
  | .obj [(⟨"Inline", _⟩, closure)] => (Closure.ofDocument? closure).map .inline
  | _ => none

def PendingBody.toJson (body : PendingBody) : Json :=
  .obj [("branch", Json.ofOption .str body.branch), ("index", .nat body.index),
    ("overrides", scopeToJson body.overrides), ("source", body.source.toJson)]

def PendingBody.ofDocument? (d : Document) : Option PendingBody := do
  let fields ← d.record? ["index", "source", "overrides", "branch"] 4
  return {
    index := ← fields.field? "index" Document.nat?
    source := ← fields.field? "source" BodySource.ofDocument?
    overrides := ← fields.field? "overrides" scopeOfDocument?
    branch := ← fields.optional? "branch" Document.str? }

/-- The handles that a queued body holds. -/
def PendingBody.handles (body : PendingBody) : List Handle :=
  (match body.source with
    -- an exported block is among the closures of the program
    | .exported _ => []
    | .inline closure => Val.handlesFields closure.captured)
  ++ Val.handlesFields body.overrides

end DurableFlow
