/-
The state of an execution.

An execution is a program, its record and its archive, together with the lane:
the queue of jobs through which everything reaches the program. Jobs are data, so
whatever may happen between two moves of the scheduler can be said: it is a list
of jobs. Nothing here knows about real time. Time is a number of milliseconds
that the host moves on, and the clock that timestamps come from is part of the
state.
-/
import DurableFlow.Execution.Archive
import DurableFlow.Handle.Resolution
import DurableFlow.Program.Dump
import DurableFlow.Script.Sandbox
import DurableFlow.Step.Signal

set_option autoImplicit false

namespace DurableFlow

open Script Text History

/-- What may come from another thread of the host while a step is being started. -/
inductive Interjection where
  /-- A step that was started, live or not, asks for something. -/
  | asks (node : Nat) (effect : StepEffect)
  /-- A signal is sent. -/
  | signals (name : String) (outcome : Outcome)
  /-- The timers that are due go off. -/
  | timers

/-- What executions share: settings, steps, resolvers and the policy of the sandbox. -/
structure Engine where
  settings : Settings := {}
  steps : StepRegistry
  /-- The resolvers of handles, by kind. -/
  resolvers : Table String Resolver := []
  policy : Option Policy := none
  /-- What comes from other threads while the step at a node is being started: the bodies that its hook
  has queued were started, and it was not seen yet whether its caller has to wait. -/
  meanwhile : Nat → List Interjection := fun _ => []

/-- Where an execution is in its life. -/
inductive LifeStage where
  | created
  /-- A saved program is being restored. -/
  | loading
  | ready
  | finished
deriving DecidableEq, Inhabited

/-- Whether jobs reach the program. -/
inductive Lane where
  | absent
  /-- There is a lane, but nothing takes jobs from it. -/
  | closed
  | serving
deriving DecidableEq, Inhabited

/-- What can be asked of a program in execution. -/
inductive Job where
  /-- Run threads; nothing more is asked. -/
  | run
  /-- Hand over the outcome of the step at a node. -/
  | completeStep (node : Nat)
  /-- Start the bodies that the step at a node has queued. -/
  | startBodies (node : Nat)
  | checkpoint
  /-- Find the steps to stop inside a block, or all of them. -/
  | stopTargets (scope : Option Nat) (cause : Failure)

/-- Steps that are to be stopped, and why. -/
structure StopOrder where
  targets : List Nat
  cause : Failure

/-- A step that is over at a time. -/
structure Timer where
  node : Nat
  dueAt : Nat

/-- An outcome that no thread could take, of which the host is warned. -/
inductive LostOutcome where
  /-- The thread that had called the step was gone. -/
  | threadGone (thread : Nat)
  /-- The thread that had called the step had an input. -/
  | threadBusy (thread : Nat)
deriving DecidableEq, Inhabited

/-- How far the restoring of a saved program has come. -/
inductive Loading where
  | none
  | requested
  /-- The handles are being resolved. -/
  | resolving (saved : SavedProgram) (resolution : Resolution)

/-- **An execution.** -/
structure Execution where
  engine : Engine
  /-- The name of what is executed. -/
  name : String
  archive : Archive
  record : Record
  stage : LifeStage := .created
  program : LiveProgram := {}
  /-- Steps whose outcome was handed over; a late delivery still reaches them. -/
  retired : Table Nat LiveStep := []
  lane : Lane := .absent
  /-- The jobs that wait in the lane, first come first. -/
  inbox : List Job := []
  paused : Bool := false
  /-- Set when the execution is being suspended or has failed for good. -/
  halted : Bool := false
  loading : Loading := .none
  loadCancelled : Bool := false
  /-- The objects behind handles. -/
  liveObjects : Table Handle Val := []
  board : SignalBoard := {}
  /-- Steps that the host can reach by a name. -/
  published : Table String Nat := []
  /-- Timers in the order in which they were set. -/
  timers : List Timer := []
  /-- Orders to stop steps that are still to be carried out. -/
  stopping : List StopOrder := []
  /-- The outcomes that were lost. -/
  lost : List LostOutcome := []
  /-- The results that interrupts asked for, in order. -/
  interrupts : List FlowResult := []
  /-- Milliseconds since some moment. -/
  now : Nat := 0
  clock : Timestamp

/-- An operation on an execution. -/
abbrev Act := Attempt Execution

namespace Execution

/-- Threads are not run while an execution is paused or halted. -/
def shouldYield (x : Execution) : Bool := x.paused || x.halted

/-- The policy of the sandbox, if the execution runs in it. -/
def policy (x : Execution) : Option Policy :=
  if x.record.sandbox then x.engine.policy else none

def log (x : Execution) (line : String) : Execution := { x with archive := x.archive.log line }

/-- Warns the host of an outcome that was lost. -/
def lose (x : Execution) (outcome : LostOutcome) : Execution :=
  { x with lost := x.lost ++ [outcome] }

/-- Does something to the record. -/
def mapRecord (f : Record → Record) (x : Execution) : Execution := { x with record := f x.record }

/-- Does something to the record and notes the time. -/
def editRecord (f : Record → Record) (x : Execution) : Execution :=
  { x with record := (f x.record).touch x.clock }

def mapProgram (f : LiveProgram → LiveProgram) (x : Execution) : Execution :=
  { x with program := f x.program }

/-- An operation on the archive. -/
def onArchive {α : Type} (act : Attempt Archive α) : Act α :=
  Attempt.onPart archive (fun archive x => { x with archive }) act

/-- Queues a job. Without a lane that serves it is dropped. -/
def submit (x : Execution) (job : Job) : Execution :=
  match x.lane with
  | .serving => { x with inbox := x.inbox ++ [job] }
  | _ => x

/-- Fails unless there is a lane that serves. -/
def requireLane : Act Unit := fun x =>
  match x.lane with
  | .serving => (.ok (), x)
  | .closed => (.error .laneClosed, x)
  | .absent => (.error .programNotReady, x)

/-- A step that was started, live or not. -/
def step? (x : Execution) (node : Nat) : Option LiveStep :=
  match Table.find? node x.program.steps with
  | some step => some step
  | none => Table.find? node x.retired

/-- Changes a step that was started, live or not. -/
def adjustStep (x : Execution) (node : Nat) (f : LiveStep → LiveStep) : Execution :=
  if Table.contains node x.program.steps then x.mapProgram (·.adjustStep node f)
  else { x with retired := Table.adjust node f x.retired }

/-- The last node of a line of the history. -/
def headTip (x : Execution) (head : Nat) : Option Nat := Table.find? head x.record.heads

/-- The step of a name. -/
def stepDef? (x : Execution) (function : String) : Option StepDef :=
  x.engine.steps.find? function

/-- What the hooks of a step can see. -/
def viewOf (x : Execution) (step : LiveStep) : StepView := step.view x.liveObjects x.clock

end Execution

end DurableFlow
