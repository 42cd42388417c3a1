/-
Running scripts that may call some steps only.

A call of a step that the policy does not permit never leaves the sandbox: it is
answered at once with a failure, which the script may catch. Nothing bounds how
often a script may ask again before it comes to a safepoint, so driving takes
fuel, one unit for each drive of the machine inside, and says so when it runs
out.
-/
import DurableFlow.Script.Machine

set_option autoImplicit false

namespace DurableFlow.Script

/-- **Which steps a script may call.** Any test of their names will do. Without one, the steps of a
list are permitted. -/
structure Policy where
  allowed : List String := []
  permits : String → Bool := fun function => allowed.contains function

/-- What comes of driving a machine. -/
inductive Drive where
  | yielded (y : Yield) (m : Machine)
  /-- Out of fuel: the machine still has to be driven with this input. -/
  | pending (m : Machine) (input : Outcome)

namespace Sandbox

/-- The failure that answers a forbidden call. -/
def rejection (function : String) : Failure :=
  { code := Failure.Code.sandboxRejected
    message := s!"'{function}' is not permitted in the sandbox" }

/-- Drives a machine until it yields something other than a forbidden call. -/
def drive (policy : Policy) : Nat → Machine → Outcome → Drive
  | 0, m, input => .pending m input
  | fuel + 1, m, input =>
    match m.run input with
    | (.step request, m) =>
      if policy.permits request.function then .yielded (.step request) m
      else drive policy fuel m (.error (rejection request.function))
    | (y, m) => .yielded y m

end Sandbox

/-- Rounds that a sandboxed machine is driven at a time. -/
def sandboxRounds : Nat := 10000000

/-- Drives a machine, inside a sandbox if there is a policy. -/
def driveUnder (policy : Option Policy) (m : Machine) (input : Outcome) : Drive :=
  match policy with
  | none =>
    let (y, m) := m.run input
    .yielded y m
  | some policy => Sandbox.drive policy sandboxRounds m input

end DurableFlow.Script
