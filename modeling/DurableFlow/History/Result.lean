/-
How well an execution went, from best to worst. Results are only ever combined
into the worse one.
-/
set_option autoImplicit false

namespace DurableFlow

/-- The result of an execution, from best to worst. -/
inductive FlowResult where
  | success
  | unstable
  | failure
  | notBuilt
  | aborted
deriving DecidableEq, Inhabited

namespace FlowResult

/-- How bad a result is. -/
def severity : FlowResult → Nat
  | .success => 0
  | .unstable => 1
  | .failure => 2
  | .notBuilt => 3
  | .aborted => 4

/-- The worse of two results. -/
def combine (a b : FlowResult) : FlowResult :=
  if a.severity ≤ b.severity then b else a

def isWorseOrEqual (a b : FlowResult) : Bool := b.severity ≤ a.severity

def name : FlowResult → String
  | .success => "SUCCESS"
  | .unstable => "UNSTABLE"
  | .failure => "FAILURE"
  | .notBuilt => "NOT_BUILT"
  | .aborted => "ABORTED"

def ofName? : String → Option FlowResult
  | "SUCCESS" => some .success
  | "UNSTABLE" => some .unstable
  | "FAILURE" => some .failure
  | "NOT_BUILT" => some .notBuilt
  | "ABORTED" => some .aborted
  | _ => none

end FlowResult

end DurableFlow
