/-
Loading a saved execution.

Loading reads the record and opens the history it names. A history in which the
record's own nodes cannot be read is replaced by the shortest one there is, a
start and an end, so that what is loaded can always be used. An execution that
is done stays done. One that was not left clean ends here. Any other is restored:
the script is checked, the program read and its handles resolved before anything
runs.
-/
import DurableFlow.Execution.Turn

set_option autoImplicit false

namespace DurableFlow

open Script Text History

/-- Why nothing could be loaded. -/
inductive LoadError where
  | recordUnreadable (cause : EngineError)
  | placeholderUnwritable (cause : EngineError)

def LoadError.message : LoadError → String
  | .recordUnreadable _ => "Failed to load execution record"
  | .placeholderUnwritable _ => "Failed to write placeholder history"

namespace Archive

/-- Reads nodes that have to be there. -/
def checkNodes (a : Archive) : List Nat → EngineResult Unit
  | [] => .ok ()
  | id :: rest =>
    match a.node id with
    | .ok _ => a.checkNodes rest
    | .error e => .error e

/-- Opens the history that a record names and reads the nodes that it points at. -/
def openRecorded (record : Record) : Attempt Archive Unit := do
  openHistory record.storage
  let start ← Attempt.need record.flowStart (.storage "record has no flow start")
  Attempt.trying fun a => a.checkNodes (start :: Table.values record.heads ++ record.startNodes)

/-- The record of an execution whose history cannot be read. -/
def placeholderRecord (record : Record) (cause : Failure) (now : Timestamp) : Record :=
  { record.worsen .failure with
    -- numbers go on behind the two nodes of the placeholder
    nextNodeId := 3, nextHeadId := 2, flowStart := some 1, heads := [(1, 2)], startNodes := []
    done := true, error := some cause, storage := .bulk, completedAt := some now
    updatedAt := now }

/-- Replaces a history that cannot be read by a start and an end with the cause. -/
def writePlaceholder (record : Record) (cause : Failure) (now : Timestamp) :
    Attempt Archive Record := do
  replaceHistory
    [{ id := 1, parents := [], kind := .flowStart, startedAt := now },
      { id := 2, parents := [1], kind := .flowEnd 1, error := some cause, startedAt := now }]
  let record := placeholderRecord record cause now
  saveRecord record
  return record

/-- The failure of an execution whose history cannot be read. -/
def unreadableHistory (e : EngineError) : Failure :=
  { code := Failure.Code.loadFailed, message := "history could not be loaded: " ++ e.message }

/-- Opens the history of a record, or replaces it. -/
def recoverHistory (record : Record) (now : Timestamp) : Attempt Archive Record := fun a =>
  match openRecorded record a with
  | (.ok (), a) => (.ok record, a)
  -- the execution is not lost with its history: it is kept as one that failed
  | (.error e, a) => writePlaceholder record (unreadableHistory e) now a

end Archive

namespace Execution

/-! ## Putting a program together -/

/-- Restores threads. -/
def restoreThreads : List SavedThread → EngineResult (List Thread)
  | [] => .ok []
  | saved :: rest =>
    match Machine.ofJson? saved.machine with
    | none => .error (.serialization "unreadable machine")
    | some machine =>
      (restoreThreads rest).map fun threads =>
        { id := saved.id, machine, input := saved.input, head := saved.head, step := saved.step
          completions := saved.completions, vars := saved.vars } :: threads

/-- Restores a step. Its cell is asynchronous from the start. -/
def restoreStep (registry : StepRegistry) (clock : Timestamp) (saved : SavedStep) :
    EngineResult LiveStep :=
  match registry.find? saved.function with
  | none => .error (.stepRestore saved.function "no longer registered")
  | some d =>
    match d.restore clock saved.args saved.state with
    | .error failure => .error (.stepRestore saved.function failure.text)
    | .ok memory =>
      .ok { node := saved.node, thread := saved.thread, function := saved.function
            displayName := d.displayName saved.args, args := saved.args
            vars := saved.vars, closure := saved.closure, head := saved.head
            isBlock := saved.isBlock, branchTips := saved.branchTips, children := saved.children
            cell := { outcome := saved.outcome, isAsync := true, bodies := saved.bodies
                      nextBody := saved.nextBody }
            memory }

/-- Restores steps. -/
def restoreSteps (registry : StepRegistry) (clock : Timestamp) :
    List SavedStep → EngineResult (List LiveStep)
  | [] => .ok []
  | saved :: rest =>
    match restoreStep registry clock saved with
    | .error e => .error e
    | .ok step => (restoreSteps registry clock rest).map (step :: ·)

/-- **Puts a saved program together again.** -/
def restoreProgram (registry : StepRegistry) (clock : Timestamp) (saved : SavedProgram) :
    EngineResult LiveProgram :=
  match restoreThreads saved.threads with
  | .error e => .error e
  | .ok threads =>
    match restoreSteps registry clock saved.steps with
    | .error e => .error e
    | .ok steps =>
      -- the thread that ran last is not saved, so the first one has its turn
      .ok { threads := Table.ofEntries (threads.map fun thread => (thread.id, thread))
            closures := saved.closures
            nextClosure := max saved.nextClosure 1
            steps := Table.ofEntries (steps.map fun step => (step.node, step))
            rootOutcome := saved.rootOutcome }

/-- Queues what a restored step has open; a step without an outcome is told that it runs
again. -/
def reviveStep (x : Execution) (saved : SavedStep) : Execution :=
  let x := if saved.bodies.isEmpty then x else x.submit (.startBodies saved.node)
  -- an outcome that its thread never took is handed over again
  if saved.outcome.isSome then x.submit (.completeStep saved.node)
  else
    match Table.find? saved.node x.program.steps with
    | none => x
    | some step =>
      match x.stepDef? step.function with
      | none => x
      | some d => x.react saved.node (d.onResume (x.viewOf step))

/-! ## The stages of loading -/

/-- Ends an execution whose program could not be restored. -/
def failLoad (x : Execution) (e : EngineError) : Execution :=
  let x := { x with loading := .none, lane := .absent, inbox := [] }
  match e with
  | .cancelled => x.abandon (.interrupted "program load was cancelled")
  | e =>
    (x.log ("Failed to load program: " ++ e.message)).abandon
      { code := Failure.Code.loadFailed, message := e.message }

/-- Lets a restored program run, unless the execution is paused. -/
def revive (x : Execution) (saved : SavedProgram) (program : LiveProgram) : Execution :=
  let x := { x with program, lane := .serving, inbox := [], loading := .none }
  -- what the steps have open comes before the threads
  let x := { saved.steps.foldl reviveStep x with stage := .ready }
  if x.paused then x else x.submit .run

/-- Goes on when the handles are resolved. -/
def handlesResolved (x : Execution) (saved : SavedProgram) (objects : Table Handle Val) :
    Execution :=
  -- the objects are there before a hook of a step runs again
  let x := { x with liveObjects := Table.insertAll objects x.liveObjects }
  match restoreProgram x.engine.steps x.clock saved with
  | .error e => x.failLoad e
  | .ok program => x.revive saved program

/-- Looks whether the handles are resolved. -/
def pollHandles (x : Execution) (saved : SavedProgram) (resolution : Resolution) : Execution :=
  let resolution := resolution.poll x.now x.loadCancelled
  match resolution.result with
  | none => { x with loading := .resolving saved resolution }
  | some (.ok objects) => x.handlesResolved saved objects
  | some (.error e) => x.failLoad e

/-- Compiles scripts that were loaded on the way, to see that they still can be. -/
def checkScripts : List (String × String) → EngineResult Unit
  | [] => .ok ()
  | (name, source) :: rest =>
    match loadBody name source with
    | .ok _ => checkScripts rest
    | .error e => .error e

/-- Reads the saved program of an execution whose scripts are in order. -/
def readProgram (x : Execution) : EngineResult SavedProgram := do
  if !x.record.scriptMatches then .error .scriptMismatch
  checkScripts x.record.loadedScripts
  x.archive.loadProgram

/-- **Goes on with loading** as far as possible. -/
def pollLoad (x : Execution) : Execution :=
  match x.loading with
  | .none => x
  | .requested =>
    match x.readProgram with
    | .error e => x.failLoad e
    | .ok saved =>
      x.pollHandles saved (Resolution.start x.engine.resolvers x.engine.settings.pickleTimeoutMs
        x.now saved.handles)
  | .resolving saved resolution => x.pollHandles saved resolution

/-! ## Loading -/

/-- Why an execution that was not left clean does not go on. -/
def notResumable : Durability → EngineError
  | .performanceOptimized => .durabilityTooLow .performanceOptimized
  | _ => .notCleanlyShutDown

/-- Decides what becomes of an execution whose history is open. -/
def resumeFrom (x : Execution) : Execution :=
  if x.record.done then { x with stage := .finished }
  else
    let x := { x with stage := .loading }
    -- a record that was not left clean may not go with the program that was saved
    if x.record.clean then { x with loading := .requested }
    else
      let message := (notResumable x.record.durability).message
      (x.log message).abandon { code := Failure.Code.notResumable, message }

/-- **Loads a saved execution** from its archive. -/
def load (engine : Engine) (name : String) (archive : Archive) (clock : Timestamp) (now : Nat) :
    Except LoadError Execution × Archive :=
  match archive.loadRecord with
  | .error e => (.error (.recordUnreadable e), archive)
  | .ok record =>
    match Archive.recoverHistory record clock archive with
    | (.error e, archive) => (.error (.placeholderUnwritable e), archive)
    | (.ok record, archive) =>
      let x : Execution := { engine, name, archive, record, paused := record.paused, now, clock }
      (.ok x.resumeFrom, archive)

end Execution

end DurableFlow
