/-
Checking the arguments of step calls.

How many there are is checked before what they are, and the texts of the
failures name the step and count arguments from one.
-/
import DurableFlow.Step.Basic

set_option autoImplicit false

namespace DurableFlow.Step

open Script

/-- Fails unless the number of arguments is in a range. -/
def checkCount (function : String) (args : List Val) (least most : Nat) : Except Failure Unit :=
  let count := args.length
  if least ≤ count ∧ count ≤ most then .ok ()
  else
    let expected := if least = most then toString least else s!"{least} to {most}"
    .error { code := Failure.Code.wrongArgumentCount
             message := s!"{function}: expected {expected} arguments, got {count}" }

/-- The failure of an argument that is of the wrong kind. -/
def wrongKind (function : String) (i : Nat) (wanted : String) (got : Val) : Failure :=
  { code := Failure.Code.wrongArgumentType
    message := function ++ ": argument " ++ toString (i + 1) ++ " must be a " ++ wanted ++ ", got "
      ++ got.typeName }

/-- The failure of an argument that is not there. -/
def missing (function : String) (i : Nat) : Failure :=
  { code := Failure.Code.wrongArgumentCount
    message := function ++ ": missing argument " ++ toString (i + 1) }

/-- An argument that must be a string. -/
def stringArg (function : String) (args : List Val) (i : Nat) : Except Failure String :=
  match args[i]? with
  | some (.str s) => .ok s
  | some other => .error (wrongKind function i "string" other)
  | none => .error (missing function i)

/-- An argument that must be a number. -/
def numberArg (function : String) (args : List Val) (i : Nat) : Except Failure Float :=
  match args[i]? with
  | some (.num x) => .ok x
  | some other => .error (wrongKind function i "number" other)
  | none => .error (missing function i)

end DurableFlow.Step
