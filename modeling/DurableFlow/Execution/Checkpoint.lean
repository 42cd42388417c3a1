/-
Checkpoints: writing out what an execution needs to go on after a restart.

A checkpoint flushes the history, saves the program, flushes again and saves the
record, each part being attempted even if an earlier one failed. The record is
clean if all parts before it succeeded. Between checkpoints an execution that
does not save its program when idle marks its record as not clean before it runs
threads.
-/
import DurableFlow.Execution.History

set_option autoImplicit false

namespace DurableFlow.Execution

/-- Saves the record as it is. -/
def writeRecord : Act Unit := fun x => onArchive (Archive.saveRecord x.record) x

/-- Saves the record with the time of now. -/
def saveRecord : Act Unit := do
  -- an edit that changes nothing but the time
  Attempt.update (editRecord id)
  writeRecord

/-- Saves the program. -/
def saveProgram : Act Unit := fun x =>
  onArchive (Archive.saveProgram (x.program.save x.engine.steps)) x

/-- Attempts something and says whether it succeeded. -/
def succeeds (act : Act Unit) (x : Execution) : Bool × Execution :=
  match act x with
  | (.ok (), x) => (true, x)
  | (.error _, x) => (false, x)

/-- **Makes a checkpoint** and says whether all of it succeeded. -/
def saveCheckpoint (x : Execution) : Bool × Execution :=
  -- no part is left out because one before it failed
  let (flushed, x) := succeeds (onArchive Archive.flush) x
  let (saved, x) := succeeds saveProgram x
  let (flushedAgain, x) := succeeds (onArchive Archive.flush) x
  let clean := flushed && saved && flushedAgain
  -- the record tells of the parts before it, and so it is saved behind them
  let (recorded, x) := succeeds saveRecord (x.mapRecord fun r => { r with clean })
  (clean && recorded, x)

/-- What follows when all threads are waiting. -/
def whenIdle (x : Execution) : Execution :=
  if x.record.durability.persistsWhenIdle then x.saveCheckpoint.2 else x

/-- What precedes the running of threads: from here on what was saved is out of date. -/
def markStale (x : Execution) : Execution :=
  if x.record.durability.persistsWhenIdle || !x.record.clean then x
  else writeRecord.after (x.editRecord fun r => { r with clean := false })

end DurableFlow.Execution
