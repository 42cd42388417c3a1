/-
The steps that every script can call.
-/
import DurableFlow.Step.Block
import DurableFlow.Step.Immediate
import DurableFlow.Step.Parallel
import DurableFlow.Step.Signal
import DurableFlow.Step.Sleep

set_option autoImplicit false

namespace DurableFlow.Step

/-- The standard steps. -/
def standard : StepRegistry :=
  [echo, error, instant, env, sleep, waitForSignal, stage, withContext, parallel, evaluate]

end DurableFlow.Step
