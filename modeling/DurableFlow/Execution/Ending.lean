/-
The end of an execution.

The end node follows all heads, and what is left is one head at the end node. The
result is the worst of all that led to it. Once the record says that the
execution is done, nothing here changes it again.
-/
import DurableFlow.Execution.Checkpoint

set_option autoImplicit false

namespace DurableFlow.Execution

open Script History

/-- The result that an outcome amounts to. -/
def resultOf : Outcome → FlowResult
  | .ok _ => .success
  | .error failure => if failure.isInterrupted then .aborted else .failure

/-- The first node of the history, which is made if there is none. -/
def ensureStart : Act Nat := do
  match (← Attempt.reading record).flowStart with
  | some start => return start
  | none =>
    let id ← allocateNode
    let now ← Attempt.reading clock
    onArchive (Archive.store { id, parents := [], kind := .flowStart, startedAt := now } false)
    Attempt.update (mapRecord fun r => { r with flowStart := some id })
    return id

/-- The head that is left at the end: the first one, or a new one if there is none. -/
def lastHead : Act Nat := fun x =>
  match x.record.heads with
  | (head, _) :: _ => (.ok head, x)
  | [] =>
    let (head, record) := x.record.allocateHead
    (.ok head, { x with record })

/-- Writes the end node behind all heads. -/
def writeEndNode (error : Option Failure) : Act Unit := do
  let start ← ensureStart
  let tips := Table.values (← Attempt.reading record).heads
  -- without a head the end follows the start
  let parents := if tips.isEmpty then [start] else tips
  let head ← lastHead
  let id ← allocateNode
  let now ← Attempt.reading clock
  onArchive (Archive.store { id, parents, kind := .flowEnd start, error, startedAt := now } false)
  Attempt.update <| mapRecord fun r =>
    { r with heads := [(head, id)], startNodes := [], done := true, completedAt := some now }

/-- Moves the history into one file, if the settings ask for it and it is not there. A history
that cannot be moved stays where it is. -/
def migrateHistory (x : Execution) : Execution :=
  if x.engine.settings.migrateStorageOnComplete && x.archive.history.kind == .perNode then
    match onArchive Archive.migrate x with
    -- from here on the record names the new file
    | (.ok (), x) => x.mapRecord fun r => { r with storage := .bulk }
    | (.error _, x) => x
  else x

/-- Writes the end of an execution that is not done. -/
def writeEnd (result : FlowResult) (error : Option Failure) : Act Unit := do
  Attempt.update (mapRecord fun r => { r.worsen result with error })
  writeEndNode error
  onArchive Archive.flush
  Attempt.update migrateHistory
  Attempt.update (mapRecord fun r => { r with clean := true })
  -- saved behind the history, of whose end it tells
  saveRecord

/-- Marks an execution done whose end could not be written. -/
def endUnwritten (x : Execution) : Execution :=
  x.mapRecord fun r => { r.worsen .failure with done := true }

/-- Closes the lane and says how the execution went. -/
def announceEnd (x : Execution) : Execution :=
  -- jobs that are still queued are dropped with the lane
  let x := { x with lane := .absent, inbox := [], stage := .finished }
  x.log ("Finished: " ++ (x.record.result.map FlowResult.name).getD "")

/-- **Ends an execution.** One that is done stays as it is. -/
def finish (x : Execution) (outcome : Outcome) : Execution :=
  if x.record.done then x
  else
    match writeEnd (resultOf outcome) (match outcome with
        | .ok _ => none
        | .error failure => some failure) x with
    | (.ok (), x) => x.announceEnd
    | (.error _, x) => x.endUnwritten.announceEnd

/-- Ends an execution that has failed for good. -/
def abandon (x : Execution) (failure : Failure) : Execution :=
  { x with halted := true, loadCancelled := true }.finish (.error failure)

end DurableFlow.Execution
