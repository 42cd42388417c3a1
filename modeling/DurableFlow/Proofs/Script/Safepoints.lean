/-
Where safepoints fall is nobody's business.

A budget cuts a run into drives and does nothing else. No instruction looks at it, and a machine at a
safepoint is as ready as it was in the middle of a drive, so it may be cut anywhere: behind a failure
that a handler took, behind the answer to a call, in the middle of leaving a loop. Whoever answers the
calls of two copies of a machine in the same way hears the same of both, whatever their budgets are.

The two runs are not in step with each other. Each of them is compared with a third one that has no
drives at all: the machine taken instruction by instruction, which is the same for every budget.
-/
import DurableFlow.Proofs.Script.Conversation

set_option autoImplicit false

namespace DurableFlow.Script

/-! ## Another budget -/

/-- The same machine with another budget. -/
def Machine.withBudget (m : Machine) (budget : Nat) : Machine := { m with budget }

namespace Progress

/-- What an instruction leads to, with another budget in the machine. -/
def withBudget (budget : Nat) : Progress → Progress
  | .continues m => .continues (m.withBudget budget)
  | .yields y m => .yields y (m.withBudget budget)
  | .raises failure m => .raises failure (m.withBudget budget)

/-- Goes on for at most `n` instructions. -/
def runFor (n : Nat) : Progress → Yield × Machine
  | .continues m => m.runFor n
  | .yields y m => (y, m)
  | .raises failure m => (.completed (.error failure), m)

end Progress

namespace Machine

variable {m : Machine} {budget : Nat}

theorem popThen_withBudget {next : Val → Machine → Progress}
    (h : ∀ value m, next value (withBudget m budget) = (next value m).withBudget budget) :
    (m.withBudget budget).popThen next = (m.popThen next).withBudget budget := by
  obtain ⟨program, chunk, pc, stack, scopes, handlers, phase, old⟩ := m
  cases stack with
  | nil => rfl
  | cons value stack => exact h value { program, chunk, pc, stack, scopes, handlers, phase, budget := old }

theorem popMany_withBudget {n : Nat} {next : List Val → Machine → Progress}
    (h : ∀ values m, next values (withBudget m budget) = (next values m).withBudget budget) :
    (m.withBudget budget).popMany n next = (m.popMany n next).withBudget budget := by
  unfold popMany
  by_cases hlength : n ≤ m.stack.length
  · rw [if_pos hlength, if_pos (show n ≤ (m.withBudget budget).stack.length from hlength)]
    exact h _ { m with stack := m.stack.drop n }
  · rw [if_neg hlength, if_neg (show ¬ n ≤ (m.withBudget budget).stack.length from hlength)]
    rfl

theorem pushOutcome_withBudget (m : Machine) (budget : Nat) (outcome : Outcome) :
    (m.withBudget budget).pushOutcome outcome = (m.pushOutcome outcome).withBudget budget := by
  cases outcome with
  | ok value => rfl
  | error failure => rfl

theorem request_withBudget (m : Machine) (budget : Nat) (function : String) (argc : Nat)
    (body : Option (Closure Val)) :
    (m.withBudget budget).request function argc body =
      (m.request function argc body).withBudget budget :=
  popMany_withBudget fun _ _ => rfl

theorem jumpWhen_withBudget (m : Machine) (budget target : Nat) (truthy : Bool) :
    (m.withBudget budget).jumpWhen target truthy = (m.jumpWhen target truthy).withBudget budget := by
  obtain ⟨program, chunk, pc, stack, scopes, handlers, phase, old⟩ := m
  cases stack with
  | nil => rfl
  | cons value stack =>
    simp only [jumpWhen, withBudget]
    split <;> rfl

/-- **No instruction looks at the budget.** -/
theorem execute_withBudget (m : Machine) (budget : Nat) (instr : Instr Val) :
    (m.withBudget budget).execute instr = (m.execute instr).withBudget budget := by
  cases instr with
  | load name =>
    have hscopes : (m.withBudget budget).scopes = m.scopes := rfl
    simp only [execute, hscopes]
    cases lookup name m.scopes <;> rfl
  | declare name | store name | pop | throw =>
    simp only [execute]
    exact popThen_withBudget fun _ _ => rfl
  | binary op =>
    simp only [execute]
    refine popThen_withBudget fun right m => ?_
    exact popThen_withBudget fun left m => pushOutcome_withBudget m budget _
  | unary op =>
    simp only [execute]
    exact popThen_withBudget fun _ m => pushOutcome_withBudget m budget _
  | makeList n =>
    simp only [execute]
    exact popMany_withBudget fun _ _ => rfl
  | call function argc body =>
    cases body with
    | false => exact request_withBudget m budget function argc none
    | true =>
      simp only [execute]
      refine popThen_withBudget fun value m => ?_
      cases value with
      | closure body => exact request_withBudget m budget function argc (some body)
      | _ => rfl
  | jumpIfFalse target =>
    simp only [execute]
    refine popThen_withBudget fun value m => ?_
    cases value.isTruthy <;> rfl
  | jumpIfFalseKeep target => exact jumpWhen_withBudget m budget target false
  | jumpIfTrueKeep target => exact jumpWhen_withBudget m budget target true
  | _ => rfl

theorem raise_withBudget (m : Machine) (budget : Nat) (failure : Failure) :
    (m.withBudget budget).raise failure = (m.raise failure).withBudget budget := by
  obtain ⟨program, chunk, pc, stack, scopes, handlers, phase, old⟩ := m
  cases handlers with
  | nil => rfl
  | cons handler outer => rfl

theorem step_withBudget (m : Machine) (budget : Nat) :
    (m.withBudget budget).step = m.step.withBudget budget := by
  have hchunks : (m.withBudget budget).program.chunks[(m.withBudget budget).chunk]? =
      m.program.chunks[m.chunk]? := rfl
  unfold step
  rw [hchunks]
  cases m.program.chunks[m.chunk]? with
  | none => rfl
  | some chunk =>
    have hcode : chunk.code[(m.withBudget budget).pc]? = chunk.code[m.pc]? := rfl
    dsimp only
    rw [hcode]
    cases chunk.code[m.pc]? with
    | none => rfl
    | some instr => exact execute_withBudget { m with pc := m.pc + 1 } budget instr

theorem advance_withBudget (m : Machine) (budget : Nat) :
    (m.withBudget budget).advance = m.advance.withBudget budget := by
  unfold advance
  rw [step_withBudget]
  cases m.step with
  | continues next => rfl
  | yields y next => rfl
  | raises failure next => exact raise_withBudget next budget failure

/-! ## What a machine makes of its input -/

/-- What comes of an input before any instruction is executed. -/
def resume (m : Machine) (input : Outcome) : Progress :=
  match m.phase, input with
  | .done, _ => .yields (.completed (.error
      { code := Failure.Code.notResumable, message := "script has already completed" })) m
  | .awaitingStep, .ok value => .continues ({ m with phase := .ready }.push value)
  | .awaitingStep, .error failure => { m with phase := .ready }.raise failure
  | .ready, .ok _ => .continues m
  | .ready, .error failure => m.raise failure

theorem runAfter_raise (before m : Machine) (failure : Failure) :
    before.runAfter (m.raise failure) = (m.raise failure).runFor m.budget := by
  unfold raise
  split <;> rfl

/-- **A drive** is what the machine makes of its input, and then instructions, one budget of them. -/
theorem run_eq (m : Machine) (input : Outcome) : m.run input = (m.resume input).runFor m.budget := by
  obtain ⟨program, chunk, pc, stack, scopes, handlers, phase, budget⟩ := m
  cases phase with
  | done => rfl
  | awaitingStep | ready =>
    cases input with
    | ok value => rfl
    | error failure =>
      exact runAfter_raise _ { program, chunk, pc, stack, scopes, handlers, phase := .ready, budget } failure

theorem resume_withBudget (m : Machine) (budget : Nat) (input : Outcome) :
    (m.withBudget budget).resume input = (m.resume input).withBudget budget := by
  obtain ⟨program, chunk, pc, stack, scopes, handlers, phase, old⟩ := m
  cases phase with
  | done => rfl
  | awaitingStep | ready =>
    cases input with
    | ok value => rfl
    | error failure => cases handlers <;> rfl

/-- At a safepoint a machine simply goes on. -/
theorem run_of_ready (hready : m.phase = .ready) : m.run (.ok .null) = m.runFor m.budget := by
  simp only [run, hready]

end Machine

/-! ## A machine that can be driven on -/

/-- What a machine comes to that has a budget: it goes on, waits for a call or is at its end. Safepoints
are made by drives alone, and no failure is left. -/
def Progress.Settled : Progress → Prop
  | .continues m => m.phase = .ready ∧ 0 < m.budget
  | .yields (.step _) m => m.phase = .awaitingStep ∧ 0 < m.budget
  | .yields (.completed _) _ => True
  | .yields .safepoint _ => False
  | .raises _ _ => False

namespace Machine

variable {m : Machine}

theorem settled_raise (hready : m.phase = .ready) (hbudget : 0 < m.budget) (failure : Failure) :
    (m.raise failure).Settled := by
  unfold raise
  split
  · exact ⟨hready, hbudget⟩
  · exact trivial

theorem settled_advance (hready : m.phase = .ready) (hbudget : 0 < m.budget) : m.advance.Settled := by
  have hsteady := steady_step m
  unfold advance
  cases hstep : m.step with
  | continues next =>
    rw [hstep] at hsteady
    exact ⟨hsteady.2.trans hready, hsteady.1 ▸ hbudget⟩
  | raises failure next =>
    rw [hstep] at hsteady
    exact settled_raise (hsteady.2.trans hready) (hsteady.1 ▸ hbudget) failure
  | yields y next =>
    rw [hstep] at hsteady
    cases y with
    | completed outcome => exact trivial
    | step request => exact ⟨hsteady.2, hsteady.1 ▸ hbudget⟩
    | safepoint => exact hsteady.elim

theorem settled_resume (hbudget : 0 < m.budget) (input : Outcome) : (m.resume input).Settled := by
  unfold resume
  split
  · exact trivial
  · exact ⟨rfl, hbudget⟩
  · exact settled_raise (m := { m with phase := .ready }) rfl hbudget _
  · next hphase => exact ⟨hphase, hbudget⟩
  · next hphase => exact settled_raise hphase hbudget _

end Machine

/-! ## What is heard of a machine -/

/-- **What whoever drives a machine hears**: the calls, each with the machine as it stands then, and the
end with the machine that is left. -/
structure Heard where
  calls : List (StepRequest × Machine) := []
  ending : Option (Outcome × Machine) := none

namespace Heard

/-- What is heard with a call in front. -/
def after (call : StepRequest × Machine) (h : Heard) : Heard := { h with calls := call :: h.calls }

/-- The same, with another budget in the machines. -/
def withBudget (budget : Nat) (h : Heard) : Heard where
  calls := h.calls.map fun call => (call.1, call.2.withBudget budget)
  ending := h.ending.map fun ending => (ending.1, ending.2.withBudget budget)

end Heard

/-- What is heard in so many drives, from what the first of them came to: calls get the next answer and
safepoints nothing. A call that has no answer is the last thing that is heard. -/
def heard : Nat → Yield × Machine → List Outcome → Heard
  | 0, _, _ => {}
  | _ + 1, (.completed outcome, m), _ => { ending := some (outcome, m) }
  | drives + 1, (.safepoint, m), answers => heard drives (m.run (.ok .null)) answers
  | _ + 1, (.step request, m), [] => { calls := [(request, m)] }
  | drives + 1, (.step request, m), answer :: answers =>
    (heard drives (m.run answer) answers).after (request, m)

/-- **What a machine says**, instruction by instruction. One may stop listening at any time. -/
inductive Says : Progress → List Outcome → Heard → Prop
  | silent (p : Progress) (answers : List Outcome) : Says p answers {}
  | continues {m : Machine} {answers : List Outcome} {h : Heard} (rest : Says m.advance answers h) :
    Says (.continues m) answers h
  | completes (outcome : Outcome) (m : Machine) (answers : List Outcome) :
    Says (.yields (.completed outcome) m) answers { ending := some (outcome, m) }
  | unanswered (request : StepRequest) (m : Machine) :
    Says (.yields (.step request) m) [] { calls := [(request, m)] }
  | answered {request : StepRequest} {m : Machine} {answer : Outcome} {answers : List Outcome} {h : Heard}
    (rest : Says (m.resume answer) answers h) :
    Says (.yields (.step request) m) (answer :: answers) (h.after (request, m))

/-- **What is heard is said**, wherever the drives are cut. -/
theorem says_heard (drives n : Nat) {p : Progress} (hp : p.Settled) (answers : List Outcome) :
    Says p answers (heard drives (p.runFor n) answers) := by
  induction drives generalizing p n answers with
  | zero => exact .silent p answers
  | succ drives ih =>
    have hyields : ∀ {y : Yield} {m : Machine}, (Progress.yields y m).Settled →
        Says (.yields y m) answers (heard (drives + 1) (y, m) answers) := by
      intro y m hm
      cases y with
      | completed outcome => exact .completes outcome m answers
      | safepoint => exact hm.elim
      | step request =>
        cases answers with
        | nil => exact .unanswered request m
        | cons answer answers =>
          rw [heard, m.run_eq]
          exact .answered (ih m.budget (Machine.settled_resume hm.2 answer) answers)
    induction n generalizing p with
    | zero =>
      cases p with
      | continues m =>
        -- a safepoint: the machine goes on from where it is
        show Says _ answers (heard drives (m.run (.ok .null)) answers)
        rw [Machine.run_of_ready hp.1]
        exact ih m.budget hp answers
      | yields y m => exact hyields hp
      | raises failure m => exact hp.elim
    | succ n ihn =>
      cases p with
      | continues m => exact .continues (ihn (Machine.settled_advance hp.1 hp.2))
      | yields y m => exact hyields hp
      | raises failure m => exact hp.elim

/-- **What is said is heard** with enough drives, wherever they are cut. -/
theorem Says.exists_heard {p : Progress} {answers : List Outcome} {h : Heard} (hspoken : Says p answers h)
    (hp : p.Settled) (n : Nat) : ∃ drives, heard drives (p.runFor n) answers = h := by
  induction hspoken generalizing n with
  | silent p answers => exact ⟨0, rfl⟩
  | @continues m answers h _ ih =>
    have hnext := Machine.settled_advance hp.1 hp.2
    cases n with
    | succ n => exact ih hnext n
    | zero =>
      -- the budget is used up here, and the next drive has one of at least one instruction
      obtain ⟨budget, hbudget⟩ := Nat.exists_eq_succ_of_ne_zero (Nat.ne_of_gt hp.2)
      obtain ⟨drives, hdrives⟩ := ih hnext budget
      refine ⟨drives + 1, ?_⟩
      show heard drives (m.run (.ok .null)) answers = h
      rw [Machine.run_of_ready hp.1, hbudget]
      exact hdrives
  | completes outcome m answers => exact ⟨1, rfl⟩
  | unanswered request m => exact ⟨1, rfl⟩
  | @answered request m answer answers h _ ih =>
    obtain ⟨drives, hdrives⟩ := ih (Machine.settled_resume hp.2 answer) m.budget
    refine ⟨drives + 1, ?_⟩
    show (heard drives (m.run answer) answers).after (request, m) = _
    rw [m.run_eq, hdrives]

/-- A machine says the same with every budget. -/
theorem Says.withBudget {p : Progress} {answers : List Outcome} {h : Heard} (hspoken : Says p answers h)
    (budget : Nat) : Says (p.withBudget budget) answers (h.withBudget budget) := by
  induction hspoken with
  | silent p answers => exact .silent _ answers
  | @continues m answers h _ ih =>
    refine .continues ?_
    rw [Machine.advance_withBudget]
    exact ih
  | completes outcome m answers => exact .completes outcome (m.withBudget budget) answers
  | unanswered request m => exact .unanswered request (m.withBudget budget)
  | @answered request m answer answers h _ ih =>
    refine .answered (h := h.withBudget budget) ?_
    rw [Machine.resume_withBudget]
    exact ih

/-- **The budget is unobservable.** Of two copies of a machine that differ in the budget, given the same
input and the same answers, all that is heard of the one in any number of drives is heard of the other in
some number of them: the same calls, the same end if there is one, and at each of them the same machine
but for the budget. -/
theorem budget_is_unobservable (m : Machine) {budget other : Nat} (hbudget : 1 ≤ budget)
    (hother : 1 ≤ other) (input : Outcome) (answers : List Outcome) (drives : Nat) :
    ∃ others, heard others ((m.withBudget other).run input) answers =
      (heard drives ((m.withBudget budget).run input) answers).withBudget other := by
  have hspoken := says_heard drives budget (Machine.settled_resume (m := m.withBudget budget) hbudget input) answers
  have hsame := hspoken.withBudget other
  rw [← Machine.resume_withBudget] at hsame
  rw [Machine.run_eq, Machine.run_eq]
  exact hsame.exists_heard (Machine.settled_resume (m := m.withBudget other) hother input) other

/-- A machine that asks until it is told, as in `while (true) { try { return ask() } catch (e) { } }`. -/
def asking : Machine :=
  let code : List (Instr Val) := [.pushHandler 3, .call "ask" 0 false, .ret, .pop, .jump 0]
  .ofProgram { name := "ask", chunks := [{ name := "ask", code, lines := [], callsSteps := true }] } 1

/-- At one instruction a drive the machine asks, is refused, asks again and ends; so it does when its
handler is set up and the call is made in one drive. -/
theorem budget_is_unobservable_asking :
    let answers : List Outcome := [.error { code := "Refused", message := "no" }, .ok (.bool true)]
    let slow := heard 9 ((asking.withBudget 1).run (.ok .null)) answers
    (∃ others, heard others ((asking.withBudget 3).run (.ok .null)) answers = slow.withBudget 3) ∧
      slow.calls.map (fun call => (call.1.function, call.2.pc)) = [("ask", 2), ("ask", 2)] ∧
      slow.ending.map Prod.fst = some (.ok (.bool true)) :=
  ⟨budget_is_unobservable asking (by decide) (by decide) _ _ 9, rfl, rfl⟩

end DurableFlow.Script
