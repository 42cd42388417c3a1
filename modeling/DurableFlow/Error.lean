/-
Errors of the engine itself.

They differ from failures in that no script ever catches one: they answer an
operation on an execution or on its files. Where one does reach a script or the
history, it becomes an internal failure with its message.
-/
import DurableFlow.Config.Settings
import DurableFlow.Failure
import DurableFlow.Script.Compile
import DurableFlow.Script.Parser

set_option autoImplicit false

namespace DurableFlow

open Script

/-- Why an operation of the engine could not be done. -/
inductive EngineError where
  | io (detail : String)
  | serialization (detail : String)
  | parse (error : ParseError)
  | compile (error : CompileError)
  | missingNode (id : Nat)
  | missingHead (id : Nat)
  | storage (detail : String)
  | resumeAlreadyPending (thread : Nat)
  | noSuchThread (thread : Nat)
  | missingBody (function : String)
  | laneClosed
  | programNotReady
  | notCleanlyShutDown
  | durabilityTooLow (durability : Durability)
  | scriptMismatch
  | stepRestore (function : String) (detail : String)
  | pickle (handle : String) (detail : String)
  | timeout (what : String)
  | alreadyComplete
  | cancelled

namespace EngineError

def message : EngineError → String
  | .io detail => s!"I/O error: {detail}"
  | .serialization detail => s!"serialization error: {detail}"
  | .parse error => s!"parse error: {error.message}"
  | .compile error => s!"compile error: {error.message}"
  | .missingNode id => s!"history node {id} not found"
  | .missingHead id => s!"flow head {id} not found"
  | .storage detail => s!"storage error: {detail}"
  | .resumeAlreadyPending thread => s!"thread {thread} already has a pending resume value"
  | .noSuchThread thread => s!"thread {thread} not found"
  | .missingBody function => s!"step {function} was not given a body"
  | .laneClosed => "scheduler lane is closed"
  | .programNotReady => "program is not loaded"
  | .notCleanlyShutDown => "execution was not cleanly shut down and cannot be resumed"
  | .durabilityTooLow durability =>
    s!"durability level {durability.name} is too low to resume after a restart"
  | .scriptMismatch => "script text does not match the saved fingerprint"
  | .stepRestore function detail => s!"step {function} could not be restored: {detail}"
  | .pickle handle detail => s!"pickle {handle} could not be resolved: {detail}"
  | .timeout what => s!"timed out waiting for {what}"
  | .alreadyComplete => "execution is already complete"
  | .cancelled => "program load was cancelled"

/-- The failure that an error becomes where a script or the history has to hold it. -/
def toFailure (error : EngineError) : Failure := .internal error.message

end EngineError

/-- The result of an operation of the engine. -/
abbrev EngineResult := Except EngineError

/-- Parses and compiles a script. -/
def compileSource (name source : String) : EngineResult (Program Val) :=
  match parse source with
  | .error e => .error (.parse e)
  | .ok script =>
    match compile name script with
    | .error e => .error (.compile e)
    | .ok program => .ok program

/-- A script as a closure that can be run as a body. -/
def loadBody (name source : String) : EngineResult (Closure Val) := do
  return { program := ← compileSource name source, chunk := 0, captured := [] }

end DurableFlow
