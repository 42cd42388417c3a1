/-
The settings of an engine.

Durability says how eagerly the state of an execution is written out. The two
questions it answers for the rest of the library are whether history writes may
wait until a node is finished, and whether the program is saved whenever all its
threads are waiting.
-/
import DurableFlow.Text.Blank

set_option autoImplicit false

namespace DurableFlow

/-- How eagerly execution state is written out. -/
inductive Durability where
  /-- History in one file, state written at checkpoints only. -/
  | performanceOptimized
  /-- History node by node with deferred writes, program saved when idle. -/
  | survivableNonatomic
  /-- History node by node and at once, program and record saved when idle. -/
  | maxSurvivability
deriving DecidableEq, Inhabited

namespace Durability

/-- Whether history writes may wait until the node is finished. -/
def defersActionWrites (d : Durability) : Bool := d != .maxSurvivability

/-- Whether the program is saved each time all threads are waiting. -/
def persistsWhenIdle (d : Durability) : Bool := d != .performanceOptimized

def name : Durability → String
  | .performanceOptimized => "PERFORMANCE_OPTIMIZED"
  | .survivableNonatomic => "SURVIVABLE_NONATOMIC"
  | .maxSurvivability => "MAX_SURVIVABILITY"

/-- The durability of exactly this name. -/
def ofName? : String → Option Durability
  | "PERFORMANCE_OPTIMIZED" => some .performanceOptimized
  | "SURVIVABLE_NONATOMIC" => some .survivableNonatomic
  | "MAX_SURVIVABILITY" => some .maxSurvivability
  | _ => none

/-- How a person may write a name: any case, dashes for underscores, blanks around it. -/
def canonicalName (text : String) : String :=
  String.ofList ((Text.trim text.toList).map fun c => if c = '-' then '_' else c.toUpper)

/-- The durability that a text names; the error is the name that nothing has. -/
def ofText (text : String) : Except String Durability :=
  match ofName? (canonicalName text) with
  | some d => .ok d
  | none => .error s!"Unknown durability hint: {canonicalName text}"

end Durability

/-- The settings of an engine. -/
structure Settings where
  /-- Durability of new executions. -/
  durability : Durability := .maxSurvivability
  /-- Instructions that a script runs before it gives control back. -/
  safepointBudget : Nat := 10000
  /-- How long a step may take to stop. -/
  stopTimeoutMs : Nat := 10000
  /-- How long resolving the handles of a loaded program may take. -/
  pickleTimeoutMs : Nat := 60000
  /-- How long collecting a thread dump may take. -/
  threadDumpTimeoutMs : Nat := 60000
  /-- Whether the history of a finished execution moves into one file. -/
  migrateStorageOnComplete : Bool := true
  /-- Whether new executions run in the sandbox. -/
  sandbox : Bool := false
deriving Inhabited

namespace Settings

/-- Digits behind the point of a duration, without trailing zeros. -/
def fractionText (milliseconds : Nat) : String :=
  if milliseconds = 0 then ""
  else
    let digits := (Text.padded 3 milliseconds).toList
    "." ++ String.ofList (digits.reverse.dropWhile (· = '0')).reverse

/-- The text of a duration, in the largest of the units second, millisecond and nanosecond
that it fills. -/
def durationText (milliseconds : Nat) : String :=
  if 1000 ≤ milliseconds then
    toString (milliseconds / 1000) ++ fractionText (milliseconds % 1000) ++ "s"
  else if 0 < milliseconds then toString milliseconds ++ "ms"
  else "0ns"

end Settings

end DurableFlow
