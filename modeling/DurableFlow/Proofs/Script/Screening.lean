/-
What the sandbox changes, and what it does not.

A machine in a sandbox is driven like any other, but that nobody hears of a call that the policy
forbids: the machine is told at once that the call failed, and goes on. So there are two ways to say what
such a machine does. One is to drive it in the sandbox, in rounds, and to go on where the rounds were
used up. The other has no sandbox: it is the bare machine, and who drives it answers each forbidden call
with the failure. Both come to the same, for every machine and all inputs.

The failure is raised where the call is. It goes to the handler that is innermost there, as any failure
of a step does.
-/
import DurableFlow.Proofs.Script.Conversation
import DurableFlow.Script.Sandbox

set_option autoImplicit false

namespace DurableFlow.Script

namespace Sandbox

/-- Whether what a machine yields leaves the sandbox. -/
def lets (policy : Policy) : Yield → Bool
  | .step request => policy.permits request.function
  | _ => true

variable {policy : Policy} {m m' : Machine} {input : Outcome} {fuel : Nat}

/-! ## One drive -/

theorem drive_of_lets {y : Yield} (hrun : m.run input = (y, m')) (hlets : lets policy y = true) :
    drive policy (fuel + 1) m input = .yielded y m' := by
  rw [drive, hrun]
  cases y with
  | step request => exact if_pos hlets
  | completed outcome => rfl
  | safepoint => rfl

theorem drive_of_rejected {request : StepRequest} (hrun : m.run input = (.step request, m'))
    (hforbidden : policy.permits request.function = false) :
    drive policy (fuel + 1) m input = drive policy fuel m' (.error (rejection request.function)) := by
  rw [drive, hrun]
  exact if_neg (by rw [hforbidden]; exact Bool.false_ne_true)

/-- What a machine yields leaves the sandbox, or it is a call that is forbidden. -/
theorem lets_or_rejected (policy : Policy) (y : Yield) :
    lets policy y = true ∨ ∃ request, y = .step request ∧ policy.permits request.function = false := by
  cases y with
  | step request =>
    cases hpermits : policy.permits request.function with
    | true => exact .inl hpermits
    | false => exact .inr ⟨request, rfl, hpermits⟩
  | completed outcome => exact .inl rfl
  | safepoint => exact .inl rfl

/-- **No forbidden call leaves the sandbox.** -/
theorem lets_of_drive {y : Yield} (h : drive policy fuel m input = .yielded y m') : lets policy y = true := by
  induction fuel generalizing m input with
  | zero => cases h
  | succ fuel ih =>
    obtain ⟨z, next, hrun⟩ : ∃ z next, m.run input = (z, next) := ⟨_, _, rfl⟩
    rcases lets_or_rejected policy z with hlets | ⟨request, rfl, hforbidden⟩
    · rw [drive_of_lets hrun hlets] at h
      cases h
      exact hlets
    · rw [drive_of_rejected hrun hforbidden] at h
      exact ih h

/-- Rounds that are used up may be followed by others. -/
theorem drive_add (policy : Policy) (fuel more : Nat) (m : Machine) (input : Outcome) :
    drive policy (fuel + more) m input =
      match drive policy fuel m input with
      | .yielded y m => .yielded y m
      | .pending m input => drive policy more m input := by
  induction fuel generalizing m input with
  | zero => rw [Nat.zero_add, drive]
  | succ fuel ih =>
    obtain ⟨y, next, hrun⟩ : ∃ y next, m.run input = (y, next) := ⟨_, _, rfl⟩
    rw [Nat.succ_add]
    rcases lets_or_rejected policy y with hlets | ⟨request, rfl, hforbidden⟩
    · rw [drive_of_lets hrun hlets, drive_of_lets hrun hlets]
    · rw [drive_of_rejected hrun hforbidden, drive_of_rejected hrun hforbidden]
      exact ih _ _

end Sandbox

open Sandbox

/-- **A call that comes out of a sandbox is permitted.** -/
theorem permits_of_driveUnder {policy : Policy} {m m' : Machine} {input : Outcome} {request : StepRequest}
    (h : driveUnder (some policy) m input = .yielded (.step request) m') :
    policy.permits request.function = true := lets_of_drive h

/-! ## A machine and its inputs -/

/-- **A machine that is driven** under a policy, or without one, with one input after the other. The
yields are what comes out. A machine whose rounds are used up is driven again. -/
inductive Driven (policy : Option Policy) : Machine → List Outcome → List Yield → Machine → Prop
  | nil (m : Machine) : Driven policy m [] [] m
  | yielded {m next last : Machine} {input : Outcome} {inputs : List Outcome} {y : Yield} {ys : List Yield}
    (hdrive : driveUnder policy m input = .yielded y next) (rest : Driven policy next inputs ys last) :
    Driven policy m (input :: inputs) (y :: ys) last
  | pending {m next last : Machine} {input again : Outcome} {inputs : List Outcome} {ys : List Yield}
    (hdrive : driveUnder policy m input = .pending next again)
    (rest : Driven policy next (again :: inputs) ys last) : Driven policy m (input :: inputs) ys last

/-- **A bare machine whose forbidden calls are answered with a failure**, and that is given one input
after the other otherwise. -/
inductive Screened (policy : Policy) : Machine → List Outcome → List Yield → Machine → Prop
  | nil (m : Machine) : Screened policy m [] [] m
  | yielded {m next last : Machine} {input : Outcome} {inputs : List Outcome} {y : Yield} {ys : List Yield}
    (hrun : m.run input = (y, next)) (hlets : lets policy y = true)
    (rest : Screened policy next inputs ys last) : Screened policy m (input :: inputs) (y :: ys) last
  | rejected {m next last : Machine} {input : Outcome} {inputs : List Outcome} {request : StepRequest}
    {ys : List Yield} (hrun : m.run input = (.step request, next))
    (hforbidden : policy.permits request.function = false)
    (rest : Screened policy next (.error (rejection request.function) :: inputs) ys last) :
    Screened policy m (input :: inputs) ys last

variable {policy : Policy}

/-- A drive that yields is a bare machine with its forbidden calls answered. -/
theorem Screened.of_yielded {fuel : Nat} {m next last : Machine} {input : Outcome} {inputs : List Outcome}
    {y : Yield} {ys : List Yield} (hdrive : drive policy fuel m input = .yielded y next)
    (rest : Screened policy next inputs ys last) : Screened policy m (input :: inputs) (y :: ys) last := by
  induction fuel generalizing m input with
  | zero => cases hdrive
  | succ fuel ih =>
    obtain ⟨z, after, hrun⟩ : ∃ z after, m.run input = (z, after) := ⟨_, _, rfl⟩
    rcases lets_or_rejected policy z with hlets | ⟨request, rfl, hforbidden⟩
    · rw [drive_of_lets hrun hlets] at hdrive
      cases hdrive
      exact .yielded hrun hlets rest
    · rw [drive_of_rejected hrun hforbidden] at hdrive
      exact .rejected hrun hforbidden (ih hdrive)

/-- So is one whose rounds are used up. -/
theorem Screened.of_pending {fuel : Nat} {m next last : Machine} {input again : Outcome}
    {inputs : List Outcome} {ys : List Yield} (hdrive : drive policy fuel m input = .pending next again)
    (rest : Screened policy next (again :: inputs) ys last) : Screened policy m (input :: inputs) ys last := by
  induction fuel generalizing m input with
  | zero =>
    cases hdrive
    exact rest
  | succ fuel ih =>
    obtain ⟨z, after, hrun⟩ : ∃ z after, m.run input = (z, after) := ⟨_, _, rfl⟩
    rcases lets_or_rejected policy z with hlets | ⟨request, rfl, hforbidden⟩
    · rw [drive_of_lets hrun hlets] at hdrive
      cases hdrive
    · rw [drive_of_rejected hrun hforbidden] at hdrive
      exact .rejected hrun hforbidden (ih hdrive)

/-- There is at least one round. -/
theorem exists_round : ∃ rounds, sandboxRounds = rounds + 1 := ⟨9999999, rfl⟩

/-- **A forbidden call may stand in front.** What is driven after its failure is driven from the call
on; only the rounds are counted from one call earlier. -/
theorem Driven.rejected {m next last : Machine} {input : Outcome} {inputs : List Outcome}
    {request : StepRequest} {ys : List Yield} (hrun : m.run input = (.step request, next))
    (hforbidden : policy.permits request.function = false)
    (rest : Driven (some policy) next (.error (rejection request.function) :: inputs) ys last) :
    Driven (some policy) m (input :: inputs) ys last := by
  obtain ⟨rounds, hrounds⟩ := exists_round
  generalize hin : Except.error (rejection request.function) :: inputs = given at rest
  induction rest generalizing m input request inputs with
  | nil _ => cases hin
  | @yielded next after last second others y ys hdrive rest ih =>
    cases hin
    have hfirst : driveUnder (some policy) m input =
        drive policy rounds next (.error (rejection request.function)) := by
      show drive policy sandboxRounds m input = _
      rw [hrounds]
      exact drive_of_rejected hrun hforbidden
    have hall : drive policy (rounds + 1) next (.error (rejection request.function)) = .yielded y after := by
      rw [← hrounds]
      exact hdrive
    rw [drive_add] at hall
    cases hless : drive policy rounds next (.error (rejection request.function)) with
    | yielded y' after' =>
      rw [hless] at hall
      cases hall
      exact .yielded (hfirst.trans hless) rest
    | pending n again =>
      -- the last round yields, and so it does when it is the first one
      rw [hless] at hall
      refine .pending (hfirst.trans hless) (.yielded (y := y) ?_ rest)
      show drive policy sandboxRounds n again = _
      rw [hrounds, Nat.add_comm, drive_add]
      rw [show drive policy 1 n again = .yielded y after from hall]
  | @pending next after last second again others ys hdrive rest ih =>
    cases hin
    have hfirst : driveUnder (some policy) m input =
        drive policy rounds next (.error (rejection request.function)) := by
      show drive policy sandboxRounds m input = _
      rw [hrounds]
      exact drive_of_rejected hrun hforbidden
    have hall : drive policy (rounds + 1) next (.error (rejection request.function)) =
        .pending after again := by
      rw [← hrounds]
      exact hdrive
    rw [drive_add] at hall
    cases hless : drive policy rounds next (.error (rejection request.function)) with
    | yielded y' after' =>
      rw [hless] at hall
      cases hall
    | pending n input' =>
      rw [hless] at hall
      replace hall : drive policy (0 + 1) n input' = .pending after again := hall
      -- the last round was used up by another forbidden call
      obtain ⟨z, further, hlast⟩ : ∃ z further, n.run input' = (z, further) := ⟨_, _, rfl⟩
      rcases lets_or_rejected policy z with hlets | ⟨other, rfl, hother⟩
      · rw [drive_of_lets hlast hlets] at hall
        cases hall
      · rw [drive_of_rejected hlast hother] at hall
        cases hall
        exact .pending (hfirst.trans hless) (ih hlast hother rfl)

/-- **The sandbox is transparent.** A machine in a sandbox does what the bare machine does whose forbidden
calls are answered with the failure, whatever it is given, and all that comes out is the same. -/
theorem driven_iff_screened {m last : Machine} {inputs : List Outcome} {ys : List Yield} :
    Driven (some policy) m inputs ys last ↔ Screened policy m inputs ys last := by
  constructor
  · intro h
    induction h with
    | nil m => exact .nil m
    | yielded hdrive _ ih => exact .of_yielded hdrive ih
    | pending hdrive _ ih => exact .of_pending hdrive ih
  · intro h
    induction h with
    | nil m => exact .nil m
    | yielded hrun hlets _ ih =>
      obtain ⟨rounds, hrounds⟩ := exists_round
      refine .yielded ?_ ih
      show drive policy sandboxRounds _ _ = _
      rw [hrounds]
      exact drive_of_lets hrun hlets
    | rejected hrun hforbidden _ ih => exact ih.rejected hrun hforbidden

/-! ## Where the failure is raised -/

namespace Machine

/-- A machine that has called a step waits for it. -/
theorem phase_of_runFor {n : Nat} {m m' : Machine} {request : StepRequest}
    (h : m.runFor n = (.step request, m')) : m'.phase = .awaitingStep := by
  induction n generalizing m with
  | zero => cases h
  | succ n ih =>
    have hsteady := steady_advance m
    rw [runFor] at h
    cases hadvance : m.advance with
    | continues next =>
      rw [hadvance] at h
      exact ih h
    | yields y next =>
      rw [hadvance] at h hsteady
      cases h
      exact hsteady.2
    | raises failure next =>
      rw [hadvance] at h
      cases h

theorem phase_of_run {m m' : Machine} {input : Outcome} {request : StepRequest}
    (h : m.run input = (.step request, m')) : m'.phase = .awaitingStep := by
  have hafter : ∀ {m n : Machine} {failure : Failure},
      m.runAfter (n.raise failure) = (.step request, m') → m'.phase = .awaitingStep := by
    intro m n failure hraised
    unfold raise at hraised
    split at hraised
    · exact phase_of_runFor hraised
    · cases hraised
  unfold run at h
  split at h
  · cases h
  · exact phase_of_runFor h
  · exact hafter h
  · exact phase_of_runFor h
  · exact hafter h

/-- **A failure that answers a call is raised at the call**: it goes to the handlers that are there. -/
theorem run_error_of_call {m m' : Machine} {input : Outcome} {request : StepRequest}
    (h : m.run input = (.step request, m')) (failure : Failure) :
    m'.run (.error failure) = m'.runAfter ({ m' with phase := .ready }.raise failure) := by
  simp only [run, phase_of_run h]

end Machine

end DurableFlow.Script
