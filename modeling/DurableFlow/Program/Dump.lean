/-
What a person can see of a program in execution: where its threads are and what
its steps are at.
-/
import DurableFlow.Program.Live

set_option autoImplicit false

namespace DurableFlow

open Script

/-- A running step, as listed. -/
structure StepInfo where
  node : Nat
  thread : Nat
  function : String
  displayName : String
  status : Option String

/-- A thread, as listed. -/
structure ThreadInfo where
  id : Nat
  head : Nat
  isRunnable : Bool
  isAlive : Bool
  step : Option StepInfo
  frames : List Machine.StackFrame

/-- All threads at one moment, or the handles that a program waits for while it is loaded. -/
structure ThreadDump where
  threads : List ThreadInfo := []
  pendingHandles : List Handle := []

def LiveStep.info (registry : StepRegistry) (step : LiveStep) : StepInfo :=
  { node := step.node, thread := step.thread, function := step.function
    displayName := step.displayName
    status := (registry.find? step.function).bind fun d => d.status step.args step.memory }

def LiveProgram.threadInfo (registry : StepRegistry) (p : LiveProgram) (thread : Thread) :
    ThreadInfo :=
  { id := thread.id, head := thread.head, isRunnable := thread.isRunnable
    isAlive := thread.isAlive
    step := (thread.step.bind fun node => Table.find? node p.steps).map (LiveStep.info registry)
    frames := thread.machine.stackTrace }

def LiveProgram.dump (registry : StepRegistry) (p : LiveProgram) : ThreadDump :=
  { threads := (Table.values p.threads).map (p.threadInfo registry) }

/-! ## Text -/

/-- Lines, each with its end. -/
def unlines (lines : List String) : String := String.join (lines.map fun line => line ++ "\n")

def StepInfo.line (step : StepInfo) : String :=
  "    in " ++ step.displayName ++ " (node " ++ toString step.node ++ ")"
    ++ (step.status.map fun status => ": " ++ status).getD ""

def ThreadInfo.stateName (thread : ThreadInfo) : String :=
  if thread.isRunnable then "runnable" else if thread.isAlive then "waiting" else "finished"

def ThreadInfo.lines (thread : ThreadInfo) : List String :=
  ["Thread #" ++ toString thread.id ++ " (head " ++ toString thread.head ++ "): "
      ++ thread.stateName]
    ++ (thread.step.map StepInfo.line).toList
    ++ thread.frames.map fun frame => "    " ++ frame.text

/-- The text of a dump. -/
def ThreadDump.text (dump : ThreadDump) : String :=
  let loading :=
    if dump.pendingHandles.isEmpty then []
    else "Program is loading, waiting on:"
      :: dump.pendingHandles.map fun handle => "    " ++ handle.text
  unlines (loading ++ dump.threads.flatMap ThreadInfo.lines)

/-! ## As JSON -/

def StepInfo.toJson (step : StepInfo) : Json :=
  Json.object [("node", .nat step.node), ("thread", .nat step.thread),
    ("function", .str step.function), ("display_name", .str step.displayName),
    ("status", Json.ofOption .str step.status)]

def ThreadInfo.toJson (thread : ThreadInfo) : Json :=
  Json.object [("id", .nat thread.id), ("head", .nat thread.head),
    ("runnable", .bool thread.isRunnable), ("alive", .bool thread.isAlive),
    ("step", Json.ofOption StepInfo.toJson thread.step),
    ("frames", .arr (thread.frames.map fun frame =>
      Json.object [("function", .str frame.function), ("line", .nat frame.line)]))]

def ThreadDump.toJson (dump : ThreadDump) : Json :=
  Json.object [("threads", .arr (dump.threads.map ThreadInfo.toJson)),
    ("pending_pickles", .arr (dump.pendingHandles.map Handle.toJson))]

end DurableFlow
