/-
The invariant while bodies and threads run.

Bodies are started by tasks, one after the other, and a task may lead to more of them;
each task keeps the invariant, so all of them do. A step that is being started has no
body queued between two tasks, because whatever its hooks queue is taken at once. So
nothing is left behind unannounced when the step becomes asynchronous. A thread's turn
is a sequence of steps that are over at once, and then the thread waits, parks or ends.
-/
import DurableFlow.Proofs.Scheduler.Invariant

set_option autoImplicit false

namespace DurableFlow

open Script

namespace Execution

/-! ## What happens to the other steps -/

/-- The cells of all steps but one are as they were; steps may have gone. -/
def OtherCells (x y : Execution) (node : Nat) : Prop :=
  ∀ n step, n ≠ node → y.program.stepAt n = some step →
    ∃ old, x.program.stepAt n = some old ∧ step.cell = old.cell

namespace OtherCells

variable {x y z : Execution} {node : Nat}

theorem trans (hxy : OtherCells x y node) (hyz : OtherCells y z node) : OtherCells x z node := by
  intro n step hn hstep
  obtain ⟨middle, hmiddle, hcell⟩ := hyz n step hn hstep
  obtain ⟨old, hold, hcell'⟩ := hxy n middle hn hmiddle
  exact ⟨old, hold, hcell.trans hcell'⟩

theorem calm (hxy : Calm x y) : OtherCells x y node := by
  intro n step _ hstep
  rw [hxy.program] at hstep
  exact ⟨step, hstep, rfl⟩

theorem quiet (hxy : Quiet x y) : OtherCells x y node := calm hxy.calm

theorem refl (x : Execution) : OtherCells x x node := quiet (.refl x)

/-- Only the step itself is changed. -/
theorem adjust {f : LiveStep → LiveStep} (hprogram : y.program = x.program.adjustStep node f) :
    OtherCells x y node := by
  intro n step hn hstep
  rw [hprogram, LiveProgram.stepAt_adjustStep] at hstep
  obtain ⟨old, hold, rfl⟩ := Option.map_eq_some_iff.mp hstep
  rw [if_neg hn]
  exact ⟨old, hold, rfl⟩

theorem adjustStep (x : Execution) (node : Nat) (f : LiveStep → LiveStep) :
    OtherCells x (x.adjustStep node f) node := by
  unfold Execution.adjustStep
  split
  · exact adjust rfl
  · exact calm (.of_eq rfl rfl rfl rfl (Nat.le_refl _) rfl rfl)

theorem alongCells (node : Nat) : AlongCells (fun x y => OtherCells x y node) node where
  refl := refl
  trans := trans
  submit x job := quiet (quiet_submit x job)
  cell _ _ := adjustStep _ node _

theorem alongHooks (node : Nat) : AlongHooks (fun x y => OtherCells x y node) node :=
  .of_quiet (alongCells node).toChains quiet (alongCells node).deliver (alongCells node).queueBody
    (fun _ _ _ => calm (.of_eq rfl rfl rfl rfl (Nat.le_refl _) rfl rfl))
    fun _ _ _ _ => calm (.of_eq rfl rfl rfl rfl (Nat.le_refl _) rfl rfl)

theorem react (x : Execution) (node : Nat) (reaction : StepReaction) :
    OtherCells x (x.react node reaction) node :=
  (alongHooks node).react reaction (adjustStep x node _)

end OtherCells

/-! ## What effects do to the step that asks for them -/

section Effects

variable {x : Execution} {node : Nat} {step : LiveStep}

theorem stepAt_adjusted (h : x.program.stepAt node = some step) (f : LiveStep → LiveStep) :
    (x.adjustStep node f).program.stepAt node = some (f step) := by
  rw [adjustStep_of_live h]
  show (x.program.adjustStep node f).stepAt node = _
  rw [LiveProgram.stepAt_adjustStep_of_live h, changed_self]

theorem stepAt_announced (h : x.program.stepAt node = some step) (f : LiveStep → LiveStep)
    (schedule : Bool) (job : Job) :
    (if schedule then (x.adjustStep node f).submit job else x.adjustStep node f).program.stepAt node =
      some (f step) := by
  split
  · rw [(quiet_submit _ _).program]
    exact stepAt_adjusted h f
  · exact stepAt_adjusted h f

theorem step?_of_live (h : x.program.stepAt node = some step) : x.step? node = some step := by
  have hlive : Table.find? node x.program.steps = some step := h
  rw [step?, hlive]

theorem stepAt_deliver (h : x.program.stepAt node = some step) (outcome : Outcome) :
    (x.deliver node outcome).program.stepAt node =
      some { step with cell := (step.cell.deliver outcome).1 } := by
  unfold deliver
  rw [step?_of_live h]
  exact stepAt_announced h _ _ _

theorem stepAt_queueBody (h : x.program.stepAt node = some step) (source : BodySource)
    (overrides : Scope) (branch : Option String) :
    (x.queueBody node source overrides branch).2.program.stepAt node =
      some { step with cell := (step.cell.queueBody source overrides branch).1 } := by
  unfold queueBody
  rw [step?_of_live h]
  exact stepAt_announced h _ _ _

/-- **An effect reaches the cell** of the step that asks for it. -/
theorem stepAt_applyEffect (h : x.program.stepAt node = some step) (effect : StepEffect) :
    (x.applyEffect node effect).program.stepAt node =
      some { step with cell := step.cell.asked effect } := by
  cases effect with
  | deliver outcome => exact stepAt_deliver h outcome
  | startBody source overrides branch => exact stepAt_queueBody h source overrides branch
  | attach action =>
    show ((addAction node action).after x).program.stepAt node = some step
    rw [(Quiet.alongWrites.addAction node action x).program]
    exact h
  | pause =>
    show ((pause true).after x).program.stepAt node = some step
    rw [(Quiet.alongCheckpoints.pause true x).program]
    exact h
  | interrupt result =>
    show ((interrupt result []).after x).program.stepAt node = some step
    rw [(Quiet.alongCheckpoints.interrupt result [] x).program]
    exact h
  | _ => exact h

theorem stepAt_applyEffects (h : x.program.stepAt node = some step) (effects : List StepEffect) :
    (applyEffects node effects x).program.stepAt node =
      some { step with cell := effects.foldl StepCell.asked step.cell } := by
  induction effects generalizing x step with
  | nil => exact h
  | cons effect rest ih => exact ih (stepAt_applyEffect h effect)

/-- **What a hook leaves of its step**: the effects are in the cell, and the memory is new. -/
theorem stepAt_react (h : x.program.stepAt node = some step) (reaction : StepReaction) :
    (x.react node reaction).program.stepAt node =
      some { step with
        cell := reaction.effects.foldl StepCell.asked step.cell, memory := reaction.memory } :=
  stepAt_applyEffects (stepAt_adjusted h _) reaction.effects

/-- What one step asks for leaves another as it is. -/
theorem alongHooks_stepAt {n : Nat} (hne : n ≠ node) :
    AlongHooks (fun x y => y.program.stepAt n = x.program.stepAt n) node := by
  have hcells : AlongCells (fun x y => y.program.stepAt n = x.program.stepAt n) node :=
    { refl := fun _ => rfl
      trans := fun hxy hyz => hyz.trans hxy
      submit := fun x job => by rw [(quiet_submit x job).program]
      cell := fun _ _ => by
        unfold adjustStep
        split
        · exact LiveProgram.stepAt_adjustStep_of_ne hne _
        · rfl }
  exact .of_quiet hcells.toChains (fun hxy => by rw [hxy.program]) hcells.deliver hcells.queueBody
    (fun _ _ _ => rfl) fun _ _ _ _ => rfl

/-- A delivery leaves the bodies of every step alone. -/
theorem bodies_deliver {n : Nat} (h : x.program.stepAt n = some step) (node : Nat) (outcome : Outcome) :
    ∃ after, (x.deliver node outcome).program.stepAt n = some after ∧ after.cell.bodies = step.cell.bodies := by
  by_cases hn : n = node
  · subst hn
    exact ⟨_, stepAt_deliver h outcome, (StepCell.bodies_deliver _ outcome).1⟩
  · exact ⟨step, ((alongHooks_stepAt hn).deliver x outcome).trans h, rfl⟩

theorem bodies_signal {n : Nat} (h : x.program.stepAt n = some step) (name : String) (outcome : Outcome) :
    ∃ after, (x.signal name outcome).2.program.stepAt n = some after ∧ after.cell.bodies = step.cell.bodies := by
  unfold Execution.signal
  split
  · exact ⟨step, h, rfl⟩
  · next waiter board _ => exact @bodies_deliver { x with board } step n h waiter.node outcome

theorem bodies_fireTimers {n : Nat} (h : x.program.stepAt n = some step) :
    ∃ after, x.fireTimers.program.stepAt n = some after ∧ after.cell.bodies = step.cell.bodies := by
  have hall : ∀ (due : List Timer) (y : Execution) (before : LiveStep), y.program.stepAt n = some before →
      ∃ after, (due.foldl (fun y timer => y.deliver timer.node (.ok .null)) y).program.stepAt n = some after ∧
        after.cell.bodies = before.cell.bodies := by
    intro due
    induction due with
    | nil => exact fun y before hbefore => ⟨before, hbefore, rfl⟩
    | cons timer rest ih =>
      intro y before hbefore
      obtain ⟨between, hbetween, hsame⟩ := bodies_deliver hbefore timer.node (.ok .null)
      obtain ⟨after, hafter, hsame'⟩ := ih _ between hbetween
      exact ⟨after, hafter, hsame'.trans hsame⟩
  exact hall _ { x with timers := _ } step h

theorem bodies_interject {n : Nat} (h : x.program.stepAt n = some step) {interjection : Interjection}
    (hother : interjection.queuesBody n = false) :
    ∃ after, (x.interject interjection).program.stepAt n = some after ∧
      after.cell.bodies = step.cell.bodies := by
  cases interjection with
  | asks node effect =>
    by_cases hn : n = node
    · subst hn
      rw [Interjection.queuesBody, beq_self_eq_true, Bool.true_and] at hother
      have hnone : ∀ e ∈ [effect], e.startsBody = false := fun e he => List.mem_singleton.mp he ▸ hother
      exact ⟨_, stepAt_applyEffect h effect, StepCell.bodies_effects hnone⟩
    · exact ⟨step, ((alongHooks_stepAt hn).applyEffect x effect).trans h, rfl⟩
  | signals name outcome => exact bodies_signal h name outcome
  | timers => exact bodies_fireTimers h

/-- **What comes from other threads while a step is being started** leaves its bodies alone, unless it is
one. -/
theorem bodies_meanwhile (h : x.program.stepAt node = some step) (hnone : x.engine.queuesLate node = false) :
    ∃ after, (x.meanwhile node).program.stepAt node = some after ∧ after.cell.bodies = step.cell.bodies := by
  unfold Engine.queuesLate at hnone
  unfold Execution.meanwhile
  generalize x.engine.meanwhile node = interjections at hnone
  induction interjections generalizing x step with
  | nil => exact ⟨step, h, rfl⟩
  | cons first rest ih =>
    rw [List.any_cons, Bool.or_eq_false_iff] at hnone
    obtain ⟨between, hbetween, hsame⟩ := bodies_interject h hnone.1
    obtain ⟨after, hafter, hsame'⟩ := ih hbetween hnone.2
    exact ⟨after, hafter, hsame'.trans hsame⟩

end Effects

/-- **The step that is being started has no body queued.** -/
def Drained (x : Execution) (running : Option Thread) : Prop :=
  ∀ n step, Starting running n → x.program.stepAt n = some step → step.cell.bodies = []

/-- The same, but for one step. -/
def DrainedBut (x : Execution) (running : Option Thread) (node : Nat) : Prop :=
  ∀ n step, n ≠ node → Starting running n → x.program.stepAt n = some step → step.cell.bodies = []

theorem Drained.but {x y : Execution} {running : Option Thread} {node : Nat}
    (h : Drained x running) (hothers : OtherCells x y node) : DrainedBut y running node := by
  intro n step hn hstarting hstep
  obtain ⟨old, hold, hcell⟩ := hothers n step hn hstep
  rw [hcell]
  exact h n old hstarting hold

theorem DrainedBut.drained {x y : Execution} {running : Option Thread} {node : Nat}
    (h : DrainedBut x running node) (hothers : OtherCells x y node)
    (hnode : ∀ step, y.program.stepAt node = some step → Starting running node →
      step.cell.bodies = []) : Drained y running := by
  intro n step hstarting hstep
  by_cases hn : n = node
  · subst hn
    exact hnode step hstep hstarting
  · obtain ⟨old, hold, hcell⟩ := hothers n step hn hstep
    rw [hcell]
    exact h n old hn hstarting hold

theorem Drained.quiet {x y : Execution} {running : Option Thread} (h : Drained x running)
    (hxy : Quiet x y) : Drained y running := by
  intro n step hstarting hstep
  rw [hxy.program] at hstep
  exact h n step hstarting hstep

theorem stepAt_resumeThread (x : Execution) (id : Nat) (outcome : Outcome) :
    (x.resumeThread id outcome).program.stepAt = x.program.stepAt := by
  unfold resumeThread
  split
  · rfl
  · dsimp only
    split <;> rfl

/-- Handing an outcome over takes a step away and changes no other. -/
theorem Sound.stepAt_of_completeStep {x : Execution} {running : Option Thread}
    (h : Sound x running) {node n : Nat} {step : LiveStep}
    (hstep : (x.completeStep node).program.stepAt n = some step) :
    x.program.stepAt n = some step := by
  unfold Execution.completeStep at hstep
  split at hstep
  · exact hstep
  · next live hlive =>
    split at hstep
    · exact hstep
    · next cell outcome _ =>
      rw [stepAt_resumeThread, (h.dropped hlive cell outcome).steps] at hstep
      obtain ⟨_, hold⟩ := changed_none_eq_some.mp hstep
      exact hold

/-! ## Tasks -/

/-- A step whose bodies were taken has none queued. -/
theorem bodies_of_takeBodies {x : Execution} {node : Nat} {step : LiveStep}
    (hstep : (x.takeBodies node).2.program.stepAt node = some step) : step.cell.bodies = [] := by
  unfold Execution.takeBodies at hstep
  split at hstep
  · next hnone =>
    rw [LiveProgram.stepAt, hnone] at hstep
    cases hstep
  · next old hold =>
    have hlive : x.program.stepAt node = some old := hold
    dsimp only at hstep
    rw [adjustStep_of_live hlive, mapProgram, LiveProgram.stepAt_adjustStep] at hstep
    obtain ⟨_, -, rfl⟩ := Option.map_eq_some_iff.mp hstep
    rw [if_pos rfl]
    rfl

/-! ## Threads for bodies -/

section Spawning

variable {x : Execution} {running : Option Thread}

/-- The number of the next thread is free. -/
theorem threadAt_next (h : Sound x running) :
    x.program.threadAt running (x.record.threadsCreated + 1) = none := by
  cases hthread : x.program.threadAt running (x.record.threadsCreated + 1) with
  | none => rfl
  | some thread => exact absurd (h.threadNumber hthread) (Nat.not_succ_le_self _)

theorem running_ne_next (h : Sound x running) {r : Thread} (hr : running = some r) :
    x.record.threadsCreated + 1 ≠ r.id := by
  intro heq
  have hfree := threadAt_next h
  rw [heq, hr, LiveProgram.threadAt, changed_self] at hfree
  cases hfree

/-- **The thread of a body** has the next number, and calls nothing yet. -/
theorem threadAt_spawnBody (hfresh : ∀ r, running = some r → x.record.threadsCreated + 1 ≠ r.id)
    (step : LiveStep) (body : PendingBody) (branch : Option Branch) (machine : Machine) :
    (x.spawnBody step body branch machine).program.threadAt running =
      changed (x.program.threadAt running) (x.record.threadsCreated + 1)
        (some
          { id := x.record.threadsCreated + 1, machine
            head := (branch.map Branch.head).getD step.head
            vars := Table.insertAll body.overrides step.vars
            completions := [.body step.node body.index branch], input := some (.ok .null) }) :=
  LiveProgram.threadAt_putThread_of_ne x.program hfresh

/-- The steps have the cells of before. -/
theorem sameCells_spawnBody {step : LiveStep} {body : PendingBody} {branch : Option Branch} {machine : Machine}
    {n : Nat} {other : LiveStep} (h : (x.spawnBody step body branch machine).program.stepAt n = some other) :
    ∃ old, x.program.stepAt n = some old ∧ other.cell = old.cell := by
  obtain ⟨old, hold, rfl | rfl⟩ := LiveProgram.stepAt_adjustStep_cases h
  · exact ⟨_, hold, rfl⟩
  · exact ⟨old, hold, rfl⟩

end Spawning

/-! ## The invariant between tasks -/

/-- The invariant between two tasks. -/
structure Steady (x : Execution) (running : Option Thread) : Prop
    extends SoundBut x running (fun _ => False) where
  drained : Drained x running

namespace Steady

variable {x y : Execution} {running : Option Thread}

theorem toSound (h : Steady x running) : Sound x running := h.toSoundBut

theorem quiet (h : Steady x running) (hxy : Quiet x y) : Steady y running :=
  ⟨h.toSound.quiet hxy, h.drained.quiet hxy⟩

/-- Taking the bodies of a step leaves none. -/
theorem takeBodies (h : Sound x running) {node : Nat} (hothers : DrainedBut x running node) :
    Steady (x.takeBodies node).2 running := by
  refine ⟨?_, hothers.drained ((OtherCells.alongCells node).takeBodies x) fun _ hstep _ => bodies_of_takeBodies hstep⟩
  unfold Execution.takeBodies
  split
  · exact h
  · next step hstep =>
    have hlive : x.program.stepAt node = some step := hstep
    dsimp only
    rw [adjustStep_of_live hlive]
    have honward := onward_mapProgram x
      (·.adjustStep node fun s => { s with cell := step.cell.drainBodies.1 })
    refine h.adjust rfl (fun _ => ⟨rfl, rfl, rfl, rfl⟩) honward fun _ _ => ?_
    have hcell := (h.cells hlive).onward honward
    exact ⟨hcell.unmarked, hcell.mode, hcell.outcome, fun _ _ _ hne => absurd rfl hne⟩

/-- **A step is told that a body ended**, and what it queues is taken. -/
theorem bodyEnded (h : Steady x running) (node index : Nat) (outcome : Outcome) :
    Steady (x.bodyEnded node index outcome).2 running := by
  unfold Execution.bodyEnded
  split
  · exact h
  · next step hstep =>
    dsimp only
    split
    · next d hd =>
      exact takeBodies (h.toSound.react node _) (h.drained.but (.react x node _))
    · exact takeBodies h.toSound (h.drained.but (.refl x))

/-- A branch is closed. -/
theorem closeBranch? (h : Steady x running) (node : Nat) (branch : Option Branch)
    (error : Option Failure) : Steady (x.closeBranch? node branch error) running := by
  cases branch with
  | none => exact h
  | some branch =>
    show Steady (x.closeBranch node branch error) running
    unfold closeBranch
    split
    · next tip y heq =>
      have hy := h.quiet ((Quiet.alongWrites.endBranch branch error).leads heq)
      have honward := onward_mapProgram y
        (·.adjustStep node fun s => { s with branchTips := s.branchTips ++ [tip] })
      refine ⟨hy.toSound.adjust rfl (fun _ => ⟨rfl, rfl, rfl, rfl⟩) honward fun step hstep => ?_, ?_⟩
      · exact (hy.cells hstep).onward honward
      · refine (hy.drained.but (.refl y)).drained (.adjust rfl) fun step hstep hstarting => ?_
        rw [mapProgram, LiveProgram.stepAt_adjustStep] at hstep
        obtain ⟨old, hold, rfl⟩ := Option.map_eq_some_iff.mp hstep
        rw [if_pos rfl]
        exact hy.drained node old hstarting hold
    · next e y heq => exact h.quiet ((Quiet.alongWrites.endBranch branch error).leads heq)

/-- **A body gets a thread of its own.** -/
theorem spawnBody (h : Steady x running) {step : LiveStep}
    (hstep : x.program.stepAt step.node = some step) (body : PendingBody) (branch : Option Branch)
    (machine : Machine) : Steady (x.spawnBody step body branch machine) running := by
  let id := x.record.threadsCreated + 1
  let thread : Thread :=
    { id, machine, head := (branch.map Branch.head).getD step.head
      vars := Table.insertAll body.overrides step.vars
      completions := [.body step.node body.index branch], input := some (.ok .null) }
  let child (s : LiveStep) : LiveStep := { s with children := Table.insert id () s.children }
  -- the new number is above all that were given out
  have hfree : x.program.threadAt running id = none := threadAt_next h.toSound
  have hrunning : ∀ r, running = some r → thread.id ≠ r.id := fun _ hr => running_ne_next h.toSound hr
  have hthreads := threadAt_spawnBody hrunning step body branch machine
  have hcells := @sameCells_spawnBody x step body branch machine
  generalize hy : x.spawnBody step body branch machine = y at hthreads hcells
  have hprogram : y.program = (x.program.putThread thread).adjustStep step.node child := by
    rw [← hy]
    rfl
  have hsteps : y.program.stepAt =
      changed x.program.stepAt step.node (some (child step)) := by
    rw [hprogram]
    exact LiveProgram.stepAt_adjustStep_of_live hstep child
  -- as a change of one step for the links, and as a change of all for the exported blocks
  have hmapped : y.program.stepAt = fun n => (x.program.stepAt n).map fun s =>
      if n = step.node then child s else s := by
    rw [hprogram, LiveProgram.stepAt_adjustStep]
    rfl
  have hrecord : y.record.nextNodeId = x.record.nextNodeId ∧
      y.record.threadsCreated = x.record.threadsCreated + 1 := by
    rw [← hy]
    exact ⟨rfl, rfl⟩
  have hlane : y.lane = x.lane ∧ y.inbox = x.inbox ∧ y.lost = x.lost := by
    rw [← hy]
    exact ⟨rfl, rfl, rfl⟩
  have hengine : y.engine = x.engine := by
    rw [← hy]
    rfl
  refine ⟨?_, ?_⟩
  · constructor
    case threadsSorted => rw [hprogram]; exact h.threadsSorted.insert _ _
    case stepsSorted => rw [hprogram]; exact h.stepsSorted.adjust _ _
    case closuresSorted => rw [hprogram]; exact h.closuresSorted
    case out =>
      intro r hr
      have hout := h.out r hr
      rw [hprogram]
      exact ⟨(Table.find?_insert_of_ne (hrunning r hr).symm _ _).trans hout.1, hout.2⟩
    case input =>
      intro t other hfound
      rw [hprogram] at hfound
      rw [LiveProgram.adjustStep, LiveProgram.find?_putThread] at hfound
      split at hfound
      · cases hfound
        exact ⟨fun _ => rfl, fun _ => rfl⟩
      · exact h.input hfound
    case links =>
      have hunused : x.program.threadAt running thread.id = none := hfree
      rw [hthreads, hsteps]
      exact h.links.spawn hstep hunused rfl rfl
    case exports =>
      have hexports := h.exports.map_steps (f := fun n s => if n = step.node then child s else s)
        fun n s _ => by split <;> rfl
      rw [hmapped, hprogram]
      exact hexports
    -- the new thread runs for a step, so the thread of the script is the one that it was
    case rooted =>
      rw [hthreads, hprogram]
      refine h.rooted.changed_other ?_ ?_
      · rintro ⟨other, hother, _⟩
        rw [hfree] at hother
        cases hother
      · rintro _ ⟨⟩ hroot
        cases hroot with
        | tail _ hmem => cases hmem
    case threadNumber =>
      intro t other hother
      rw [hthreads] at hother
      rw [hrecord.2]
      exact changed_elim hother (Nat.le_refl _) fun hold => Nat.le_succ_of_le (h.threadNumber hold)
    case stepNumber =>
      intro n other hother
      obtain ⟨old, hold, _⟩ := hcells hother
      rw [hrecord.1]
      exact h.stepNumber hold
    case bodyNumber =>
      intro t other n hother hruns
      rw [hthreads] at hother
      rw [hrecord.1]
      rcases changed_eq_some.mp hother with ⟨_, heq⟩ | ⟨_, hold⟩
      · cases heq
        obtain ⟨index, b, hmem⟩ := hruns
        rw [List.mem_singleton] at hmem
        cases hmem
        exact h.stepNumber hstep
      · exact h.bodyNumber hold hruns
    case cells =>
      intro n other hother
      obtain ⟨old, hold, hcell⟩ := hcells hother
      have hok := h.cells hold
      rw [hcell]
      refine ⟨hok.unmarked, hok.mode, ?_, ?_⟩
      · rw [hlane.1, hlane.2.1]
        exact hok.outcome
      · rw [hlane.1, hlane.2.1, hengine]
        exact hok.bodies
    case lost => rw [hlane.2.2]; exact h.lost
  -- no cell is another one, so nothing is queued that was not
  · intro n other hstarting hother
    obtain ⟨old, hold, hcell⟩ := hcells hother
    rw [hcell]
    exact h.drained n old hstarting hold

/-- A body is started: in place, or as a thread. -/
theorem startBody (h : Steady x running) {step : LiveStep}
    (hstep : x.program.stepAt step.node = some step) (body : PendingBody) :
    Steady (x.startBody step body).2 running := by
  unfold Execution.startBody
  split
  · exact h.bodyEnded _ _ _
  · split
    · next e y heq =>
      exact (h.quiet ((Quiet.alongWrites.openBranch? _ _).leads heq)).bodyEnded _ _ _
    · next branch y heq =>
      have hquiet := (Quiet.alongWrites.openBranch? _ _).leads heq
      have hy := h.quiet hquiet
      split
      · exact (hy.closeBranch? _ _ _).bodyEnded _ _ _
      · refine hy.spawnBody ?_ body branch _
        rw [hquiet.program]
        exact hstep

/-- An outcome that is handed over leaves the other steps alone. -/
theorem completeStep (h : Steady x running) (node : Nat)
    (hasync : ∀ step, x.program.stepAt node = some step → step.cell.isAsync = true) :
    Steady (x.completeStep node) running := by
  refine ⟨h.toSound.completeStep node hasync, ?_⟩
  intro n step hstarting hstep
  exact h.drained n step hstarting (h.toSound.stepAt_of_completeStep hstep)

/-- **Each task keeps the invariant.** -/
theorem bodyTask (h : Steady x running) (task : BodyTask) :
    Steady (x.bodyTask task).2 running := by
  cases task with
  | start node body =>
    simp only [Execution.bodyTask]
    split
    · exact h
    · next step hstep =>
      refine h.startBody ?_ body
      rw [h.links.node hstep]
      exact hstep
  | conclude node =>
    simp only [Execution.bodyTask]
    split
    · exact h
    · next step hstep =>
      split
      · next hready =>
        rw [Bool.and_eq_true] at hready
        refine h.completeStep node fun other hother => ?_
        rw [LiveProgram.stepAt, hstep] at hother
        cases hother
        exact hready.1
      · exact h

/-- **All tasks together keep it.** -/
theorem doTasks (h : Steady x running) (fuel : Nat) (tasks : List BodyTask) :
    Steady (doTasks fuel tasks x) running := by
  induction fuel generalizing x tasks with
  | zero => exact h
  | succ fuel ih =>
    cases tasks with
    | nil => exact h
    | cons task rest => exact ih (h.bodyTask task) _

/-- **The bodies of a step are started.** -/
theorem startBodies (h : Sound x running) {node : Nat} (hothers : DrainedBut x running node) :
    Steady (x.startBodies node) running :=
  (takeBodies h hothers).doTasks (taskLimit _) _

/-- A body of a step has ended, with all that follows. -/
theorem endBody (h : Steady x running) (node index : Nat) (outcome : Outcome) :
    Steady (x.endBody node index outcome) running :=
  (h.bodyEnded node index outcome).doTasks (taskLimit _) _

/-- While nothing is being started there is nothing to drain. -/
theorem of_idle (h : Sound x none) : Steady x none :=
  ⟨h, fun _ _ ⟨_, hnone, _⟩ _ => (by cases hnone)⟩

end Steady

end Execution

end DurableFlow
