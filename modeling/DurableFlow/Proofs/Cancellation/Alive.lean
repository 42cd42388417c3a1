/-
No thread of a program has ended.

A thread is taken out of its program to run, and one whose script ends is not put back. What a run
leaves behind otherwise can go on: it stopped at a safepoint, or at a step call whose outcome is
still to come. A machine that is saved is read back in the phase in which it was saved. So in every
state of a run each thread of the program can go on, and a thread that is told of a failure will
see it.
-/
import DurableFlow.Proofs.Program.Upkeep
import DurableFlow.Proofs.Script.Conversation

set_option autoImplicit false

namespace DurableFlow

open Script

namespace Script

/-! ## Machines -/

namespace Machine

theorem isResumable_iff {m : Machine} : m.isResumable = true ↔ m.phase ≠ .done := by
  simp [isResumable]

/-- A run that has not ended can go on. -/
def Goes : Yield → Machine → Prop
  | .completed _, _ => True
  | .step _, m => m.isResumable = true
  | .safepoint, m => m.isResumable = true

theorem goes_runFor (n : Nat) {m : Machine} (h : m.phase ≠ .done) :
    Goes (runFor n m).1 (runFor n m).2 := by
  -- only a machine that is done cannot go on, and no step but the last leads there
  induction n generalizing m with
  | zero => exact isResumable_iff.mpr h
  | succ n ih =>
    have hsteady := steady_advance m
    rw [runFor]
    cases hadvance : m.advance with
    | continues next =>
      rw [hadvance] at hsteady
      apply ih
      rw [hsteady.2]
      exact h
    | raises failure next => trivial
    | yields y next =>
      rw [hadvance] at hsteady
      cases y with
      | completed outcome => trivial
      | safepoint => exact hsteady.elim
      | step request =>
        refine isResumable_iff.mpr ?_
        rw [hsteady.2]
        simp

/-- A failure that was handed to a machine ends it or lets it go on. -/
theorem goes_runAfter (n m : Machine) (h : m.phase ≠ .done) (failure : Failure) :
    Goes (n.runAfter (m.raise failure)).1 (n.runAfter (m.raise failure)).2 := by
  have hsteady : Steady m (m.raise failure) := steady_raise rfl rfl failure
  unfold raise at hsteady ⊢
  split at hsteady
  · exact goes_runFor _ h
  · trivial

/-- **A machine that is driven ends or can go on.** -/
theorem goes_run (m : Machine) (input : Outcome) : Goes (m.run input).1 (m.run input).2 := by
  have hready : Phase.ready ≠ .done := by simp
  unfold run
  split
  · trivial
  · exact goes_runFor _ hready
  · exact goes_runAfter m _ hready _
  · next hphase =>
    apply goes_runFor
    rw [hphase]
    exact hready
  · next hphase =>
    apply goes_runAfter
    rw [hphase]
    exact hready

end Machine

/-- What was driven and has not ended can go on. -/
def Drive.Goes : Drive → Prop
  | .yielded y m => Machine.Goes y m
  | .pending m _ => m.isResumable = true

/-- **A machine that is driven under a policy** ends or can go on. -/
theorem goes_driveUnder (policy : Option Policy) {m : Machine} (h : m.isResumable = true) (input : Outcome) :
    (driveUnder policy m input).Goes := by
  cases policy with
  | none => exact m.goes_run input
  | some policy =>
    unfold driveUnder
    generalize sandboxRounds = fuel
    dsimp only
    induction fuel generalizing m input with
    | zero => exact h
    | succ fuel ih =>
      have hrun := m.goes_run input
      rw [Sandbox.drive]
      split
      · next request next heq =>
        rw [heq] at hrun
        split
        · exact hrun
        · exact ih hrun _
      · next y next _ heq =>
        rw [heq] at hrun
        exact hrun

/-- A body that is put off can go on. -/
theorem resumable_of_deferred {budget : Nat} {closure : Closure Val} {m : Machine}
    (h : invokeBody budget closure = .deferred m) : m.isResumable = true := by
  unfold invokeBody at h
  dsimp only at h
  split at h
  · cases h
    rfl
  · have hrun := (Machine.ofClosure closure budget).goes_run (.ok .null)
    split at h
    · cases h
    · next next heq =>
      cases h
      rw [heq] at hrun
      exact hrun
    · cases h

/-- **A machine is read back in the phase in which it was saved.** -/
theorem phase_of_ofJson? {m restored : Machine} (h : Machine.ofJson? m.toJson = some restored) :
    restored.phase = m.phase := by
  have hnodup : ([("budget", Json.nat m.budget), ("chunk", .nat m.chunk),
      ("handlers", .arr (m.handlers.reverse.map Handler.toJson)), ("pc", .nat m.pc),
      ("program", m.program.toJson), ("scopes", .arr (m.scopes.reverse.map scopeToJson)),
      ("stack", .arr (Val.itemsToJson m.stack.reverse)),
      ("state", .str m.phase.name)].map Prod.fst).Nodup := by simp
  obtain ⟨fields, hfields, hof⟩ := Document.record?_ofJson Machine.fieldNames 8 hnodup
  rw [Machine.ofJson?, Machine.toJson, Machine.ofDocument?, hfields] at h
  rw [Machine.fieldNames] at hof
  have hstate : fields.field? "state" (fun d => (d.choice? false).bind Phase.ofName?) = some m.phase := by
    simp [-List.map_reverse, hof.field?_eq, Table.find?_cons, choice?_ofJson, m.phase.ofName?_name]
  simp only [Option.bind_eq_bind, Option.bind_some, Option.bind_eq_some_iff, hstate] at h
  obtain ⟨_, _, _, _, _, _, _, _, _, _, _, _, _, _, hrestored⟩ := h
  cases hrestored
  rfl

end Script

/-! ## Programs -/

/-- What was driven and has not ended can go on. -/
theorem resumable_of_left {d : Drive} (h : d.Goes) {m : Machine} (hleft : d.left? = some m) :
    m.isResumable = true := by
  cases d with
  | pending next input =>
    cases hleft
    exact h
  | yielded y next =>
    cases y with
    | completed outcome => cases hleft
    | step request =>
      cases hleft
      exact h
    | safepoint =>
      cases hleft
      exact h

/-- **A thread that can go on stays so** until it ends. -/
theorem lasting_alive : Lasting (fun thread => thread.isAlive = true) fun _ => True where
  first _ _ _ _ := rfl
  forBody _ _ _ _ hdeferred := resumable_of_deferred hdeferred
  waits _ _ halive := halive
  driven policy input halive hleft := resumable_of_left (goes_driveUnder policy halive input) hleft
  reread := by
    intro thread machine halive hmachine
    rw [Thread.isAlive, Machine.isResumable_iff, phase_of_ofJson? hmachine]
    exact Machine.isResumable_iff.mp halive
  called _ _ _ _ := trivial
  cell _ _ := trivial
  hook _ _ _ := trivial
  bodies _ _ _ := trivial
  restored _ _ := trivial

/-- **In every state of a run the threads of the program can go on.** -/
theorem Execution.isAlive_of_leads {x y : Execution} (hstart : Started x) (hrun : Leads x y) {t : Nat}
    {thread : Thread} (hthread : Table.find? t y.program.threads = some thread) : thread.isAlive = true :=
  (lasting_alive.upheld.leads hstart hrun).threads _ (Table.mem_of_find? hthread)

end DurableFlow
