/-
Failures: what a script can throw and catch, what a step can end with, and what
a history node remembers.

A failure is a code, a message and the failures that were pushed aside by it.
The code is an open set of names: scripts and steps may bring their own, so it
is a text, and the names the engine itself raises are collected in `Code`.
-/
set_option autoImplicit false

namespace DurableFlow

/-- A failure, with the later failures that were merged into it without replacing it. -/
structure Failure where
  code : String
  message : String
  suppressed : List Failure := []
deriving Inhabited

namespace Failure

/-! ## The engine's own failure codes -/

namespace Code

def scriptError : String := "ScriptError"
def typeError : String := "TypeError"
def undefinedVariable : String := "UndefinedVariable"
def divisionByZero : String := "DivisionByZero"
def stepFailed : String := "StepFailed"
def noSuchStep : String := "NoSuchStep"
def missingBody : String := "MissingBody"
def wrongArgumentCount : String := "WrongArgumentCount"
def wrongArgumentType : String := "WrongArgumentType"
def interrupted : String := "Interrupted"
def stopTimeout : String := "StopTimeout"
def duplicateOutcome : String := "DuplicateOutcome"
def sandboxRejected : String := "SandboxRejected"
def notResumable : String := "NotResumable"
def loadFailed : String := "LoadFailed"
def internal : String := "InternalError"
/-- Marks an outcome that has been handed over; no script ever sees it. -/
def alreadyCompleted : String := "AlreadyCompleted"

end Code

/-- A failure of the engine itself rather than of a script or a step. -/
def internal (message : String) : Failure :=
  { code := Code.internal, message }

/-- The failure that stops a running script from outside. -/
def interrupted (message : String) : Failure :=
  { code := Code.interrupted, message }

/-- The marker left behind where an outcome was taken. -/
def alreadyCompleted : Failure :=
  { code := Code.alreadyCompleted, message := "outcome already consumed" }

def isInterrupted (failure : Failure) : Bool :=
  failure.code == Code.interrupted

def isAlreadyCompleted (failure : Failure) : Bool :=
  failure.code == Code.alreadyCompleted

/-- Keeps `other` as a suppressed detail, after those already there. -/
def suppress (failure other : Failure) : Failure :=
  { failure with suppressed := failure.suppressed ++ [other] }

/-- Keeps each of `others` as a suppressed detail, in order. -/
def suppressAll (failure : Failure) (others : List Failure) : Failure :=
  { failure with suppressed := failure.suppressed ++ others }

mutual

/-- The text of a failure: code, message, then each suppressed failure in brackets. -/
def text : Failure → String
  | ⟨code, message, suppressed⟩ => code ++ ": " ++ message ++ textSuppressed suppressed

/-- The bracketed texts of suppressed failures. -/
def textSuppressed : List Failure → String
  | [] => ""
  | failure :: rest => " (suppressed " ++ text failure ++ ")" ++ textSuppressed rest

end

mutual

/-- Structural equality of failures. -/
def same : Failure → Failure → Bool
  | ⟨c, m, s⟩, ⟨c', m', s'⟩ => c == c' && m == m' && sameAll s s'

/-- Structural equality of lists of failures. -/
def sameAll : List Failure → List Failure → Bool
  | [], [] => true
  | a :: as, b :: bs => same a b && sameAll as bs
  | _, _ => false

end

instance : BEq Failure := ⟨same⟩

end Failure

end DurableFlow
