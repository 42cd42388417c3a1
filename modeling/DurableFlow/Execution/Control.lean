/-
Creating, starting and suspending executions, and letting them come to rest.

The host does something to an execution and then lets it settle: turns are taken
until no job waits, timers that are due fire, and orders to stop are carried out
one step at a time with the lane's turns between them.
-/
import DurableFlow.Execution.Loading

set_option autoImplicit false

namespace DurableFlow.Execution

open Script Text History

/-- What can be chosen for a new execution; the settings give the rest. -/
structure Options where
  scriptName : Option String := none
  durability : Option Durability := none
  sandbox : Option Bool := none

/-- Creates an execution that runs nothing yet. -/
def create (engine : Engine) (name id script : String) (options : Options) (archive : Archive)
    (clock : Timestamp) (now : Nat) : EngineResult Execution :=
  let durability := options.durability.getD engine.settings.durability
  let sandbox := options.sandbox.getD engine.settings.sandbox
  let record := Record.fresh id (options.scriptName.getD "Script1") script durability sandbox clock
  match Archive.openHistory record.storage archive with
  | (.error e, _) => .error e
  | (.ok (), archive) => .ok { engine, name, archive, record, now, clock }

/-! ## Starting -/

/-- Writes the first node and opens the first head at it. -/
def writeStart : Act Nat := do
  let head ← fun x =>
    let (head, record) := x.record.allocateHead
    (.ok head, { x with record })
  let id ← allocateNode
  let now ← Attempt.reading clock
  onArchive (Archive.store { id, parents := [], kind := .flowStart, startedAt := now } false)
  Attempt.update <| mapRecord fun r =>
    { r with flowStart := some id, heads := Table.insert head id r.heads }
  return head

/-- Makes the program of a compiled script, whose first thread can run. -/
def startProgram (program : Program Val) (head : Nat) : Act Unit := do
  Attempt.update fun x =>
    let machine := Machine.ofProgram program x.engine.settings.safepointBudget
    { (x.addThread machine head [] .root (.ok .null)).2 with lane := .closed }
  -- the lane does not serve before the start has been written
  onArchive Archive.flush
  saveRecord
  Attempt.update fun x =>
    let x := { x with stage := .ready, lane := .serving }
    if x.paused then x else x.submit .run

/-- **Starts an execution.** A script that does not compile ends it. -/
def start : Act Unit := do
  let record ← Attempt.reading record
  Attempt.failIf (record.done || record.flowStart.isSome) .alreadyComplete
  -- the history begins even if the script does not compile
  let head ← writeStart
  Attempt.update fun x => x.log ("Started " ++ x.name)
  match compileSource record.scriptName record.script with
  | .ok program => startProgram program head
  | .error e =>
    Attempt.update fun x =>
      (x.log e.message).finish
        (.error { code := Failure.Code.scriptError, message := e.message })

/-! ## Checkpoints and suspension -/

/-- Makes a checkpoint from outside. -/
def checkpoint : Act Bool := do
  requireLane
  fun x =>
    let (clean, x) := x.saveCheckpoint
    (.ok clean, x.submit .run)

/-- **Suspends an execution**: makes a checkpoint and closes the lane. A program that is being
loaded is given up. -/
def suspend (x : Execution) : Execution :=
  if x.record.done then x
  else
    let x := { x with halted := true }
    match x.lane with
    | .absent => { x with loadCancelled := true }
    | .closed => { x with lane := .absent }
    -- only a program that serves has threads to save
    | .serving => { x with lane := .absent, inbox := [] }.saveCheckpoint.2

/-! ## Coming to rest -/

/-- What an execution does by itself next. -/
def progress (x : Execution) : Option Execution :=
  -- jobs come before timers, and timers before stops
  if !x.inbox.isEmpty then some x.turn
  else if x.timers.any (·.dueAt ≤ x.now) then some x.fireTimers
  else if !x.stopping.isEmpty then some x.stopNext
  else none

/-- Lets an execution go on until it rests. The fuel bounds what it does. -/
def rest : Nat → Execution → Execution
  | 0, x => x
  | fuel + 1, x =>
    match x.progress with
    | none => x
    | some x => rest fuel x

/-- How much an execution may do before it is looked at again. -/
def restLimit : Nat := 100000000

/-- **Lets an execution settle.** -/
def settle (x : Execution) : Execution := rest restLimit x.pollLoad

/-- Lets time pass. -/
def advance (x : Execution) (ms : Nat) : Execution := { x with now := x.now + ms }.settle

/-- Waits until a step waits for a signal, for some time at most. -/
def awaitWaiter (x : Execution) (name : String) (ms : Nat) : Bool × Execution :=
  if 0 < x.board.waiting name then (true, x) else (false, x.advance (ms + 1))

end DurableFlow.Execution
