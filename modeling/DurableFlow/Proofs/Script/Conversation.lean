/-
Driving a machine from its start to its end.

Whoever drives a machine answers its step calls and lets it go on at safepoints.
How many instructions lie between two safepoints is a matter of the budget, and
nothing else depends on it: a run can be told one instruction at a time, with the
answers taken in between, and every budget cuts the same run into pieces.
-/
import DurableFlow.Script.Machine

set_option autoImplicit false

namespace DurableFlow.Script.Machine

/-! ## Conversations -/

/-- Goes on from what a run came to: step calls get the next answer, safepoints nothing. The fuel
bounds how often the machine is driven. -/
def converse : Nat → Yield × Machine → List Outcome → Option (List StepRequest × Outcome)
  | _, (.completed outcome, _), _ => some ([], outcome)
  | 0, _, _ => none
  | turns + 1, (.safepoint, m), answers => converse turns (m.run (.ok .null)) answers
  | _ + 1, (.step _, _), [] => none
  | turns + 1, (.step request, m), answer :: answers =>
    (converse turns (m.run answer) answers).map fun rest => (request :: rest.1, rest.2)

/-- **Drives a machine to its end**: the step calls that it makes and its outcome, if the answers
and the fuel last. -/
def conversation (m : Machine) (turns : Nat) (answers : List Outcome) :
    Option (List StepRequest × Outcome) :=
  converse turns (m.run (.ok .null)) answers

/-- More fuel changes nothing. -/
theorem converse_succ {turns : Nat} {x : Yield × Machine} {answers : List Outcome}
    {result : List StepRequest × Outcome} (h : converse turns x answers = some result) :
    converse (turns + 1) x answers = some result := by
  induction turns generalizing x answers result with
  | zero =>
    obtain ⟨y, m⟩ := x
    cases y with
    | completed outcome => simpa only [converse] using h
    | step request => simp [converse] at h
    | safepoint => simp [converse] at h
  | succ turns ih =>
    obtain ⟨y, m⟩ := x
    cases y with
    | completed outcome => simpa only [converse] using h
    | safepoint =>
      rw [converse] at h ⊢
      exact ih h
    | step request =>
      cases answers with
      | nil => simp [converse] at h
      | cons answer answers =>
        rw [converse] at h ⊢
        obtain ⟨rest, hrest, rfl⟩ := Option.map_eq_some_iff.mp h
        rw [ih hrest]
        rfl

theorem converse_of_le {turns n : Nat} (hle : turns ≤ n) {x : Yield × Machine}
    {answers : List Outcome} {result : List StepRequest × Outcome}
    (h : converse turns x answers = some result) : converse n x answers = some result := by
  induction hle with
  | refl => exact h
  | step _ ih => exact converse_succ ih

/-! ## What an instruction leaves alone -/

/-- What an instruction leads to has the budget and, unless it suspends, the phase from before. A
safepoint is no instruction's doing. -/
def Steady (m : Machine) : Progress → Prop
  | .continues m' => m'.budget = m.budget ∧ m'.phase = m.phase
  | .yields (.step _) m' => m'.budget = m.budget ∧ m'.phase = .awaitingStep
  | .yields (.completed _) _ => True
  | .yields .safepoint _ => False
  | .raises _ m' => m'.budget = m.budget ∧ m'.phase = m.phase

theorem steady_popThen {m₀ m : Machine} (hb : m.budget = m₀.budget) (hp : m.phase = m₀.phase)
    {next : Val → Machine → Progress}
    (h : ∀ value stack, Steady m₀ (next value { m with stack })) : Steady m₀ (m.popThen next) := by
  unfold popThen
  split
  · exact h _ _
  · exact ⟨hb, hp⟩

theorem steady_popMany {m₀ m : Machine} (hb : m.budget = m₀.budget) (hp : m.phase = m₀.phase)
    (n : Nat) {next : List Val → Machine → Progress}
    (h : ∀ values stack, Steady m₀ (next values { m with stack })) :
    Steady m₀ (m.popMany n next) := by
  unfold popMany
  split
  · exact h _ _
  · exact ⟨hb, hp⟩

theorem steady_pushOutcome {m₀ m : Machine} (hb : m.budget = m₀.budget) (hp : m.phase = m₀.phase)
    (outcome : Outcome) : Steady m₀ (m.pushOutcome outcome) := by
  cases outcome <;> exact ⟨hb, hp⟩

theorem steady_request {m₀ m : Machine} (hb : m.budget = m₀.budget) (hp : m.phase = m₀.phase)
    (function : String) (argc : Nat) (body : Option (Closure Val)) :
    Steady m₀ (m.request function argc body) :=
  steady_popMany hb hp argc fun _ _ => ⟨hb, rfl⟩

theorem steady_jumpWhen {m₀ m : Machine} (hb : m.budget = m₀.budget) (hp : m.phase = m₀.phase)
    (target : Nat) (truthy : Bool) : Steady m₀ (m.jumpWhen target truthy) := by
  unfold jumpWhen
  split
  · refine ⟨?_, ?_⟩ <;> split <;> assumption
  · exact ⟨hb, hp⟩

theorem steady_execute {m₀ m : Machine} (hb : m.budget = m₀.budget) (hp : m.phase = m₀.phase)
    (instr : Instr Val) : Steady m₀ (m.execute instr) := by
  cases instr with
  | load name =>
    simp only [execute]
    split <;> exact ⟨hb, hp⟩
  | declare name | store name | pop =>
    rw [execute]
    exact steady_popThen hb hp fun _ _ => ⟨hb, hp⟩
  -- two values are taken off the stack, one after the other
  | binary op =>
    rw [execute]
    refine steady_popThen hb hp fun right stack => ?_
    refine steady_popThen ?_ ?_ fun left stack => steady_pushOutcome ?_ ?_ _ <;> assumption
  | unary op =>
    rw [execute]
    refine steady_popThen hb hp fun _ _ => steady_pushOutcome ?_ ?_ _ <;> assumption
  | makeList n =>
    rw [execute]
    exact steady_popMany hb hp n fun _ _ => ⟨hb, hp⟩
  | call function argc body =>
    cases body with
    | false => exact steady_request hb hp function argc none
    | true =>
      rw [execute]
      refine steady_popThen hb hp fun value stack => ?_
      split
      · refine steady_request ?_ ?_ function argc _ <;> assumption
      · exact ⟨hb, hp⟩
  | jumpIfFalse target =>
    rw [execute]
    refine steady_popThen hb hp fun value stack => ?_
    refine ⟨?_, ?_⟩ <;> split <;> assumption
  | jumpIfFalseKeep target => exact steady_jumpWhen hb hp target false
  | jumpIfTrueKeep target => exact steady_jumpWhen hb hp target true
  | throw =>
    rw [execute]
    exact steady_popThen hb hp fun _ _ => ⟨hb, hp⟩
  | ret => exact trivial
  | _ => exact ⟨hb, hp⟩

theorem steady_step (m : Machine) : Steady m m.step := by
  unfold step
  split
  · exact ⟨rfl, rfl⟩
  · split
    · exact trivial
    · exact steady_execute rfl rfl _

theorem steady_raise {m₀ m : Machine} (hb : m.budget = m₀.budget) (hp : m.phase = m₀.phase)
    (failure : Failure) : Steady m₀ (m.raise failure) := by
  unfold raise
  split
  · exact ⟨hb, hp⟩
  · exact trivial

theorem steady_advance (m : Machine) : Steady m m.advance := by
  have h := steady_step m
  unfold advance
  split
  · next failure m' heq =>
    rw [heq] at h
    exact steady_raise h.1 h.2 failure
  · exact h

/-! ## Runs by the instruction -/

/-- **A machine ends** with an outcome, its last instruction included, having made `calls` in all:
`made` of them before, and the others with the given answers. -/
inductive Ends (calls : List StepRequest) (outcome : Outcome) :
    Machine → List Outcome → List StepRequest → Prop where
  | continues {m m' : Machine} {answers : List Outcome} {made : List StepRequest}
      (advance : m.advance = .continues m') (rest : Ends calls outcome m' answers made) :
      Ends calls outcome m answers made
  | completes {m m' : Machine} {answers : List Outcome}
      (advance : m.advance = .yields (.completed outcome) m') :
      Ends calls outcome m answers calls
  | answered {m m' : Machine} {request : StepRequest} {value : Val} {answers : List Outcome}
      {made : List StepRequest} (advance : m.advance = .yields (.step request) m')
      (rest : Ends calls outcome ({ m' with phase := .ready }.push value) answers
        (made ++ [request])) :
      Ends calls outcome m (.ok value :: answers) made
  | caught {m m' m'' : Machine} {request : StepRequest} {failure : Failure}
      {answers : List Outcome} {made : List StepRequest}
      (advance : m.advance = .yields (.step request) m')
      (raise : { m' with phase := .ready }.raise failure = .continues m'')
      (rest : Ends calls outcome m'' answers (made ++ [request])) :
      Ends calls outcome m (.error failure :: answers) made
  | uncaught {m m' m'' : Machine} {request : StepRequest} {failure : Failure}
      {answers : List Outcome} {made : List StepRequest}
      (advance : m.advance = .yields (.step request) m')
      (raise : { m' with phase := .ready }.raise failure = .yields (.completed outcome) m'')
      (all : made ++ [request] = calls) :
      Ends calls outcome m (.error failure :: answers) made

/-- What is left to say of a machine that ends, once `n` more instructions of its budget are
known to be there. -/
def Concludes (calls : List StepRequest) (outcome : Outcome) (n : Nat) (m : Machine)
    (answers : List Outcome) (made : List StepRequest) : Prop :=
  ∃ (turns : Nat) (rest : List StepRequest),
    made ++ rest = calls ∧ converse turns (runFor n m) answers = some (rest, outcome)

/-- A machine whose budget is used up goes on with a new one. -/
theorem concludes_all {calls : List StepRequest} {outcome : Outcome} {m : Machine}
    {answers : List Outcome} {made : List StepRequest} (hready : m.phase = .ready)
    (hbudget : 0 < m.budget)
    (h : ∀ n, Concludes calls outcome (n + 1) m answers made) (n : Nat) :
    Concludes calls outcome n m answers made := by
  cases n with
  | succ n => exact h n
  | zero =>
    -- a safepoint takes one turn, and the budget is whole again
    obtain ⟨turns, rest, hall, hrest⟩ := h (m.budget - 1)
    rw [Nat.sub_add_cancel hbudget] at hrest
    refine ⟨turns + 1, rest, hall, ?_⟩
    simp only [runFor, converse, run, hready]
    exact hrest

/-- After a call was answered the machine goes on with what its call made of the answer. -/
theorem concludes_call {calls : List StepRequest} {outcome : Outcome} {n turns : Nat}
    {m m' : Machine} {request : StepRequest} {answer : Outcome} {answers : List Outcome}
    {made rest : List StepRequest} (hadv : m.advance = .yields (.step request) m')
    (hall : made ++ [request] ++ rest = calls)
    (hrest : converse turns (m'.run answer) answers = some (rest, outcome)) :
    Concludes calls outcome (n + 1) m (answer :: answers) made := by
  refine ⟨turns + 1, request :: rest, by rw [← hall]; simp, ?_⟩
  rw [runFor, hadv]
  simp only [converse, hrest, Option.map_some]

/-- **A run by the instruction is a run at every budget.** -/
theorem Ends.concludes {calls : List StepRequest} {outcome : Outcome} {m : Machine}
    {answers : List Outcome} {made : List StepRequest} (h : Ends calls outcome m answers made)
    (hready : m.phase = .ready) (hbudget : 0 < m.budget) (n : Nat) :
    Concludes calls outcome n m answers made := by
  -- the budget that is left is arbitrary, since a safepoint may come between any two instructions
  induction h generalizing n with
  | @continues m m' answers made advance _ ih =>
    have hs := steady_advance m
    rw [advance] at hs
    refine concludes_all hready hbudget (fun n => ?_) n
    obtain ⟨turns, rest, hall, hrest⟩ := ih (hs.2.trans hready) (hs.1 ▸ hbudget) n
    refine ⟨turns, rest, hall, ?_⟩
    rw [runFor, advance]
    exact hrest
  | @completes m m' answers advance =>
    refine concludes_all hready hbudget (fun n => ⟨0, [], by simp, ?_⟩) n
    rw [runFor, advance]
    simp only [converse]
  | @answered m m' request value answers made advance _ ih =>
    have hs := steady_advance m
    rw [advance] at hs
    obtain ⟨turns, rest, hall, hrest⟩ := ih rfl (hs.1 ▸ hbudget) m'.budget
    have hrun : converse turns (m'.run (.ok value)) answers = some (rest, outcome) := by
      simp only [run, hs.2]
      exact hrest
    exact concludes_all hready hbudget (fun _ => concludes_call advance hall hrun) n
  | @caught m m' m'' request failure answers made advance raise _ ih =>
    have hs := steady_advance m
    rw [advance] at hs
    -- the failure is caught, and the machine goes on in its handler with a whole budget
    have hr : Steady { m' with phase := .ready } ({ m' with phase := .ready }.raise failure) :=
      steady_raise rfl rfl failure
    rw [raise] at hr
    have hb : 0 < m''.budget := by rw [hr.1]; exact hs.1 ▸ hbudget
    obtain ⟨turns, rest, hall, hrest⟩ := ih hr.2 hb m''.budget
    have hrun : converse turns (m'.run (.error failure)) answers = some (rest, outcome) := by
      simp only [run, hs.2, raise, runAfter]
      exact hrest
    exact concludes_all hready hbudget (fun _ => concludes_call advance hall hrun) n
  | @uncaught m m' m'' request failure answers made advance raise all =>
    have hs := steady_advance m
    rw [advance] at hs
    have hrest : converse 0 (m'.run (.error failure)) answers = some ([], outcome) := by
      simp only [run, hs.2, raise, runAfter, converse]
    refine concludes_all hready hbudget (fun n => concludes_call advance ?_ hrest) n
    rw [List.append_nil, all]

/-- A machine that ends by the instruction is driven to that end. -/
theorem Ends.conversation {calls : List StepRequest} {outcome : Outcome} {m : Machine}
    {answers : List Outcome} (h : Ends calls outcome m answers []) (hready : m.phase = .ready)
    (hbudget : 0 < m.budget) :
    ∃ turns, ∀ n, turns ≤ n → m.conversation n answers = some (calls, outcome) := by
  obtain ⟨turns, rest, hall, hrest⟩ := h.concludes hready hbudget m.budget
  rw [List.nil_append] at hall
  subst hall
  refine ⟨turns, fun n hle => ?_⟩
  simp only [Machine.conversation, run, hready]
  exact converse_of_le hle hrest

end DurableFlow.Script.Machine
