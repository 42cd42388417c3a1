/-
Writing the history of an execution.

A node goes behind the tip of its head. A block that is closed gets an end node,
which joins the tips of its branches if it had any. A number that was given to a
node is used up even if the node could not be stored.
-/
import DurableFlow.Execution.State

set_option autoImplicit false

namespace DurableFlow.Execution

open History

/-- Gives out the number of a node. -/
def allocateNode : Act Nat := fun x =>
  let (id, record) := x.record.allocateNode
  (.ok id, { x with record })

/-- The tip of a head that has to be there. -/
def requireHead (head : Nat) : Act Nat := fun x =>
  match x.headTip head with
  | some tip => (.ok tip, x)
  | none => (.error (.missingHead head), x)

/-- Fails if the execution is over. -/
def requireRunning : Act Unit := fun x =>
  (if x.record.done then .error .alreadyComplete else .ok (), x)

/-- Whether writes to the history may wait. -/
def defers (x : Execution) : Bool := x.record.durability.defersActionWrites

/-- Stores a node in the way that the durability asks for. -/
def storeNode (node : Node) : Act Unit := fun x =>
  onArchive (Archive.store node x.defers) x

/-- Moves a head to a new node, which is remembered if it opens a block. -/
def advanceHead (head : Nat) (node : Node) (r : Record) : Record :=
  { r with
    heads := Table.insert head node.id r.heads
    startNodes := if node.isBlockStart then r.startNodes ++ [node.id] else r.startNodes }

/-- **Appends a node** behind the tip of a head. -/
def appendNode (head : Nat) (kind : NodeKind) (function displayName : String) : Act Nat := do
  requireRunning
  let parent ← requireHead head
  let id ← allocateNode
  let now ← Attempt.reading clock
  let node : Node :=
    { id, parents := [parent], kind, functionName := some function
      displayName := some displayName, startedAt := now }
  -- stored before the head moves: no head stands at a node that is not there
  storeNode node
  Attempt.update (editRecord (advanceHead head node))
  return id

/-- Opens a head at the tip of another one. -/
def forkHead (head : Nat) : Act Nat := do
  let tip ← requireHead head
  -- no node is made: the two heads part with the next one
  fun x =>
    let (forked, record) := x.record.allocateHead
    (.ok forked, { x with record := { record with heads := Table.insert forked tip record.heads } })

/-- Removes a head and gives its tip. -/
def dropHead (head : Nat) : Act Nat := do
  let tip ← requireHead head
  Attempt.update (mapRecord fun r => { r with heads := Table.erase head r.heads })
  return tip

/-- Notes the failure of a step in its node. -/
def markFailed (node : Node) (error : Option Failure) : Act Unit :=
  match error with
  | none => pure ()
  | some _ => storeNode { node with error }

/-- What the end of a block follows. -/
def endParents (head : Nat) (tips : List Nat) : Act (List Nat) := do
  if tips.isEmpty then return [← requireHead head]
  return tips

/-- **Closes the block** that a node opened. Its end follows the tips of its branches, or the
tip of the head if there are none. -/
def closeBlock (head start : Nat) (tips : List Nat) (error : Option Failure) : Act Nat := do
  requireRunning
  let parents ← endParents head tips
  let startNode ← Attempt.trying fun x => x.archive.node start
  -- a failure is noted at both ends of the block
  markFailed startNode error
  let id ← allocateNode
  let now ← Attempt.reading clock
  storeNode { id, parents, kind := .blockEnd start, functionName := startNode.functionName,
              displayName := startNode.displayName, error, startedAt := now }
  -- both ends are final now and wait no longer to be written
  onArchive (Archive.autopersist start)
  onArchive (Archive.autopersist id)
  Attempt.update <| editRecord fun r =>
    { r with
      heads := Table.insert head id r.heads
      startNodes := Record.eraseLast start r.startNodes }
  return id

/-- Closes the node of a step without a block. -/
def closeAtom (node : Nat) (error : Option Failure) : Act Unit := do
  if error.isSome then
    let stored ← Attempt.trying fun x => x.archive.node node
    storeNode { stored with error }
  onArchive (Archive.autopersist node)

/-- Remembers something beside a node. -/
def addAction (node : Nat) (action : Action) : Act Unit := do
  let actions ← Attempt.trying fun x => x.archive.actions node
  onArchive (Archive.saveActions node (actions ++ [action]))

end DurableFlow.Execution
