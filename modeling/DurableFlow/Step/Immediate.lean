/-
Steps that are over as soon as they have started.
-/
import DurableFlow.Step.Arguments

set_option autoImplicit false

namespace DurableFlow.Step

open Script

/-- Ends a start with a value. -/
def succeed (value : Val) (before : List StepEffect) : StepStart :=
  { effects := before ++ [.deliver (.ok value)], reply := .completed }

/-- What `echo` writes: the text of its argument, or nothing. -/
def echoText (args : List Val) : String := (args.head?.map Val.text).getD ""

/-- `echo(message?)` writes a line to the log and remembers it beside its node. -/
def echo : StepDef where
  function := "echo"
  displayName := fun _ => "Print Message"
  create := fun _ args => do
    checkCount "echo" args 0 1
    return .empty
  start := fun view =>
    let message := echoText view.args
    succeed .null [.log message,
      .attach { kind := "log", data := .obj [("message", .str message)] }]

/-- `error(message)` fails. -/
def error : StepDef where
  function := "error"
  displayName := fun _ => "Error signal"
  create := fun _ args => do
    checkCount "error" args 1 1
    return .empty
  start := fun view =>
    { reply := .failed { code := Failure.Code.stepFailed, message := (view.arg 0).text } }

/-- `instant(value?)` gives its argument back. -/
def instant : StepDef where
  function := "instant"
  create := fun _ args => do
    checkCount "instant" args 0 1
    return .empty
  start := fun view => succeed (view.arg 0) []

/-- `env(key)` gives a contextual variable, or null. -/
def env : StepDef where
  function := "env"
  create := fun _ args => do
    checkCount "env" args 1 1
    let _ ← stringArg "env" args 0
    return .empty
  start := fun view =>
    succeed (((view.arg 0).str?.bind fun key => Table.find? key view.vars).getD .null) []

end DurableFlow.Step
