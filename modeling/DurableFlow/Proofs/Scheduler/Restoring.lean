/-
The invariant of a program that is restored.

A saved program has the threads and steps of the one it was saved from, and they hang
together as those did. What its steps hold is not announced yet: the steps are gone
through one by one, and each is announced or told that it runs again. So the invariant
holds from the start but for the steps that are still to come.
-/
import DurableFlow.Proofs.Scheduler.Lane

set_option autoImplicit false

namespace DurableFlow

open Script Text

/-- The step that a saved one is restored as, with what it remembers. -/
def SavedStep.restored (saved : SavedStep) (d : StepDef) (memory : StepMemory) : LiveStep :=
  { node := saved.node, thread := saved.thread, function := saved.function
    displayName := d.displayName saved.args, args := saved.args, vars := saved.vars, closure := saved.closure
    head := saved.head, isBlock := saved.isBlock, branchTips := saved.branchTips, children := saved.children
    cell := { outcome := saved.outcome, isAsync := true, bodies := saved.bodies, nextBody := saved.nextBody }
    memory }

namespace Execution

/-! ## Threads and steps that are put together again -/

/-- A thread and what it was restored to. -/
def ThreadRestored (old new : Thread) : Prop := new.Like old ∧ new.input = old.input

/-- A step and what it was restored to. -/
structure StepRestored (old new : LiveStep) : Prop extends new.Like old where
  isAsync : new.cell.isAsync = true
  outcome : new.cell.outcome = old.cell.pending?
  bodies : new.cell.bodies = old.cell.bodies

theorem rebuilt_restoreThreads {like : Thread → Thread → Prop}
    (hlike : ∀ thread machine, Machine.ofJson? thread.machine.toJson = some machine →
      like thread { thread with machine })
    {table : Table Nat Thread} {threads : List Thread} (hid : ∀ entry ∈ table, entry.2.id = entry.1)
    (h : restoreThreads ((Table.values table).map Thread.save) = .ok threads) :
    Table.Rebuilt like Thread.id table threads := by
  induction table generalizing threads with
  | nil =>
    cases h
    exact .nil
  | cons entry rest ih =>
    rw [Table.values, List.map_cons, List.map_cons, restoreThreads] at h
    split at h
    · cases h
    · next machine hmachine =>
      obtain ⟨others, hothers, rfl⟩ := map_eq_ok h
      refine .cons ⟨hid entry List.mem_cons_self, hlike entry.2 machine hmachine⟩ (ih ?_ hothers)
      exact fun other hmem => hid other (List.mem_cons_of_mem _ hmem)

/-- **A step that is restored** is found by its name, and its hook has read what it remembers. -/
theorem exists_of_restoreStep {registry : StepRegistry} {clock : Timestamp} {saved : SavedStep} {new : LiveStep}
    (h : restoreStep registry clock saved = .ok new) :
    ∃ d memory, registry.find? saved.function = some d ∧ d.restore clock saved.args saved.state = .ok memory ∧
      new = saved.restored d memory := by
  unfold restoreStep at h
  split at h
  · cases h
  · next d hd =>
    split at h
    · cases h
    · next memory hmemory =>
      cases h
      exact ⟨d, memory, hd, hmemory, rfl⟩

theorem restored_restoreStep {registry registry' : StepRegistry} {clock : Timestamp}
    {old new : LiveStep} (h : restoreStep registry clock (old.save registry') = .ok new) :
    StepRestored old new := by
  obtain ⟨d, memory, _, _, rfl⟩ := exists_of_restoreStep h
  exact ⟨⟨rfl, rfl, rfl, rfl⟩, rfl, rfl, rfl⟩

theorem rebuilt_restoreSteps {registry registry' : StepRegistry} {clock : Timestamp}
    {like : LiveStep → LiveStep → Prop} {table : Table Nat LiveStep} {steps : List LiveStep}
    (hlike : ∀ entry ∈ table, ∀ new, restoreStep registry clock (entry.2.save registry') = .ok new →
      like entry.2 new)
    (hnode : ∀ entry ∈ table, entry.2.node = entry.1)
    (h : restoreSteps registry clock ((Table.values table).map (LiveStep.save registry')) =
      .ok steps) :
    Table.Rebuilt like LiveStep.node table steps := by
  induction table generalizing steps with
  | nil =>
    cases h
    exact .nil
  | cons entry rest ih =>
    rw [Table.values, List.map_cons, List.map_cons, restoreSteps] at h
    split at h
    · cases h
    · next step hstep =>
      obtain ⟨others, hothers, rfl⟩ := map_eq_ok h
      refine .cons ⟨?_, hlike entry List.mem_cons_self step hstep⟩ (ih ?_ ?_ hothers)
      · exact (restored_restoreStep hstep).node.trans (hnode entry List.mem_cons_self)
      · exact fun other hmem => hlike other (List.mem_cons_of_mem _ hmem)
      · exact fun other hmem => hnode other (List.mem_cons_of_mem _ hmem)

/-- **A program is restored** from its threads and its steps, when each of them is. -/
theorem exists_of_restoreProgram {registry : StepRegistry} {clock : Timestamp} {saved : SavedProgram}
    {program : LiveProgram} (h : restoreProgram registry clock saved = .ok program) :
    ∃ threads steps, restoreThreads saved.threads = .ok threads ∧
      restoreSteps registry clock saved.steps = .ok steps ∧
      program =
        { threads := Table.ofEntries (threads.map fun thread => (thread.id, thread))
          closures := saved.closures, nextClosure := max saved.nextClosure 1
          steps := Table.ofEntries (steps.map fun step => (step.node, step)), rootOutcome := saved.rootOutcome } := by
  unfold restoreProgram at h
  split at h
  · cases h
  · next threads hthreads =>
    split at h
    · cases h
    · next steps hsteps =>
      cases h
      exact ⟨threads, steps, hthreads, hsteps, rfl⟩

/-- **A program that was put together again**: the threads and steps are those of before. -/
structure Reassembled (p q : LiveProgram) : Prop where
  threadsSorted : Table.Sorted q.threads
  stepsSorted : Table.Sorted q.steps
  threads : ∀ t, Option.Rel ThreadRestored (Table.find? t p.threads) (Table.find? t q.threads)
  steps : ∀ n, Option.Rel StepRestored (p.stepAt n) (q.stepAt n)
  closures : q.closures = p.closures
  nextClosure : p.nextClosure ≤ q.nextClosure
  rootOutcome : q.rootOutcome = p.rootOutcome
  finished : q.finished = false

/-- **The threads and steps of a restored program** are found under the numbers of those that they
were made of. -/
theorem Sound.rebuilt {y : Execution} (h : Sound y none) {registry registry' : StepRegistry}
    {clock : Timestamp} {program : LiveProgram}
    (hrestored : restoreProgram registry clock (y.program.save registry') = .ok program)
    {likeThread : Thread → Thread → Prop}
    (hthread : ∀ thread machine, Machine.ofJson? thread.machine.toJson = some machine →
      likeThread thread { thread with machine })
    {likeStep : LiveStep → LiveStep → Prop}
    (hstep : ∀ n step, y.program.stepAt n = some step → ∀ new,
      restoreStep registry clock (step.save registry') = .ok new → likeStep step new) :
    Table.Sorted program.threads ∧ Table.Sorted program.steps ∧
      (∀ t, Option.Rel likeThread (Table.find? t y.program.threads) (Table.find? t program.threads)) ∧
      ∀ n, Option.Rel likeStep (y.program.stepAt n) (program.stepAt n) := by
  have hid : ∀ entry ∈ y.program.threads, entry.2.id = entry.1 := fun entry hmem =>
    h.links.id (h.threadsSorted.find?_of_mem hmem)
  have hnode : ∀ entry ∈ y.program.steps, entry.2.node = entry.1 := fun entry hmem =>
    h.links.node (h.stepsSorted.find?_of_mem hmem)
  obtain ⟨threads, steps, hthreads, hsteps, rfl⟩ := exists_of_restoreProgram hrestored
  have hthreads := rebuilt_restoreThreads hthread hid hthreads
  have hsteps := rebuilt_restoreSteps
    (fun entry hmem => hstep entry.1 entry.2 (h.stepsSorted.find?_of_mem hmem)) hnode hsteps
  have hsorted := hthreads.sorted h.threadsSorted
  have hsorted' := hsteps.sorted h.stepsSorted
  unfold LiveProgram.stepAt
  dsimp only
  rw [Table.ofEntries_of_sorted hsorted, Table.ofEntries_of_sorted hsorted']
  exact ⟨hsorted, hsorted', hthreads.find?, hsteps.find?⟩

theorem Sound.reassembled {y : Execution} (h : Sound y none) {registry registry' : StepRegistry}
    {clock : Timestamp} {program : LiveProgram}
    (hrestored : restoreProgram registry clock (y.program.save registry') = .ok program) :
    Reassembled y.program program := by
  obtain ⟨hthreadsSorted, hstepsSorted, hthreads, hsteps⟩ :=
    @Sound.rebuilt y h _ _ _ _ hrestored ThreadRestored (fun _ _ _ => ⟨⟨rfl, rfl, rfl⟩, rfl⟩) StepRestored
      fun _ _ _ _ hnew => restored_restoreStep hnew
  obtain ⟨_, _, _, _, rfl⟩ := exists_of_restoreProgram hrestored
  constructor
  case threadsSorted => exact hthreadsSorted
  case stepsSorted => exact hstepsSorted
  case threads => exact hthreads
  case steps => exact hsteps
  case closures => rfl
  case nextClosure => exact Nat.le_max_left _ _
  case rootOutcome => rfl
  case finished => rfl

namespace Reassembled

variable {p q : LiveProgram}

theorem newThread (h : Reassembled p q) {t : Nat} {old : Thread}
    (hold : Table.find? t p.threads = some old) :
    ∃ new, Table.find? t q.threads = some new ∧ ThreadRestored old new :=
  Table.exists_new_of_rel (hold ▸ h.threads t)

theorem oldThread (h : Reassembled p q) {t : Nat} {new : Thread}
    (hnew : Table.find? t q.threads = some new) :
    ∃ old, Table.find? t p.threads = some old ∧ ThreadRestored old new :=
  Table.exists_old_of_rel (hnew ▸ h.threads t)

theorem oldStep (h : Reassembled p q) {n : Nat} {new : LiveStep} (hnew : q.stepAt n = some new) :
    ∃ old, p.stepAt n = some old ∧ StepRestored old new :=
  Table.exists_old_of_rel (hnew ▸ h.steps n)

theorem alike (h : Reassembled p q) : Alike (p.threadAt none) (q.threadAt none) where
  new hold := by
    obtain ⟨new, hnew, hlike⟩ := h.newThread hold
    exact ⟨new, hnew, hlike.1⟩
  old hnew := by
    obtain ⟨old, hold, hlike⟩ := h.oldThread hnew
    exact ⟨old, hold, hlike.1⟩

/-- The steps are those of before, each put in the place of the old one. -/
theorem stepAt_eq (h : Reassembled p q) :
    q.stepAt = fun n => (p.stepAt n).map fun step => (q.stepAt n).getD step := by
  funext n
  have hrel := h.steps n
  cases hnew : q.stepAt n <;> cases hold : p.stepAt n <;> rw [hnew, hold] at hrel <;> cases hrel
  · rfl
  · rfl

theorem getD_like (h : Reassembled p q) (n : Nat) (step : LiveStep) (hstep : p.stepAt n = some step) :
    ((q.stepAt n).getD step).Like step := by
  obtain ⟨new, hnew, hlike⟩ := Table.exists_new_of_rel (hstep ▸ h.steps n)
  rw [hnew]
  exact hlike.toLike

end Reassembled

/-- **The invariant of a program that was put together again**, with nothing announced. -/
theorem Sound.restored {x y : Execution} (h : Sound y none) (hopen : y.program.finished = false)
    (hsame : Reassembled y.program x.program) (hnodes : y.record.nextNodeId ≤ x.record.nextNodeId)
    (hthreads : y.record.threadsCreated ≤ x.record.threadsCreated) (hlost : x.lost = [])
    {late : Nat → Prop} (hlate : ∀ n step, x.program.stepAt n = some step → late n) :
    SoundBut x none late := by
  constructor
  case threadsSorted => exact hsame.threadsSorted
  case stepsSorted => exact hsame.stepsSorted
  case closuresSorted => rw [hsame.closures]; exact h.closuresSorted
  case out => exact fun _ hno => (by cases hno)
  case input =>
    intro t thread hthread
    obtain ⟨old, hold, hlike, hinput⟩ := hsame.oldThread hthread
    rw [hinput, hlike.step]
    exact h.input hold
  case links =>
    rw [hsame.stepAt_eq]
    exact (h.links.alike hsame.alike).map_steps hsame.getD_like
  case exports =>
    have hexported : x.program.isExported = y.program.isExported := by
      unfold LiveProgram.isExported
      rw [hsame.closures]
    rw [hsame.stepAt_eq, hexported]
    exact (h.exports.map_steps fun n step hstep => (hsame.getD_like n step hstep).closure).skip
      hsame.nextClosure
  case rooted =>
    have hrooted := h.rooted.alike hsame.alike
    rw [hopen] at hrooted
    rw [hsame.rootOutcome, hsame.finished]
    exact hrooted
  case threadNumber =>
    intro t thread hthread
    obtain ⟨old, hold, _⟩ := hsame.oldThread hthread
    exact Nat.le_trans (h.threadNumber hold) hthreads
  case stepNumber =>
    intro n step hstep
    obtain ⟨old, hold, _⟩ := hsame.oldStep hstep
    exact Nat.lt_of_lt_of_le (h.stepNumber hold) hnodes
  case bodyNumber =>
    intro t thread n hthread hruns
    obtain ⟨old, hold, hlike, _⟩ := hsame.oldThread hthread
    exact Nat.lt_of_lt_of_le (h.bodyNumber hold ((hlike.runsFor n).mp hruns)) hnodes
  case cells =>
    intro n step hstep
    -- all steps are late, so nothing has to be announced yet
    obtain ⟨old, hold, hlike⟩ := hsame.oldStep hstep
    have hstill := hlate n step hstep
    refine ⟨fun outcome hsome => ?_, ?_, fun hheard => absurd hstill hheard.2,
      fun _ hheard => absurd hstill hheard.2⟩
    · rw [hlike.outcome, StepCell.pending?, Option.filter_eq_some_iff] at hsome
      simpa using hsome.2
    · refine ⟨?_, fun _ => hlike.isAsync⟩
      rintro _ ⟨_, hno, _⟩
      cases hno
  case lost => exact hlost

/-! ## Announcing what restored steps hold -/

/-- **A step is announced.** -/
theorem SoundBut.announce {x : Execution} {late : Nat → Prop} (h : SoundBut x none late)
    {node : Nat} (hannounced : ∀ step, x.program.stepAt node = some step → x.lane = .serving →
      (step.cell.outcome.isSome = true → .completeStep node ∈ x.inbox) ∧
      (step.cell.bodies ≠ [] → .startBodies node ∈ x.inbox)) :
    SoundBut x none fun n => n ≠ node ∧ late n := by
  refine ⟨h.threadsSorted, h.stepsSorted, h.closuresSorted, h.out, h.input, h.links, h.exports,
    h.rooted, h.threadNumber, h.stepNumber, h.bodyNumber, ?_, h.lost⟩
  intro n step hstep
  have hok := h.cells hstep
  by_cases hn : n = node
  · subst hn
    refine ⟨hok.unmarked, hok.mode, fun hheard _ hsome => ?_, fun _ hheard _ hne => ?_⟩
    · exact (hannounced step hstep hheard.1).1 hsome
    · exact (hannounced step hstep hheard.1).2 hne
  · have hheard : x.lane = .serving ∧ ¬ (n ≠ node ∧ late n) → x.lane = .serving ∧ ¬ late n :=
      fun hh => ⟨hh.1, fun hlate => hh.2 ⟨hn, hlate⟩⟩
    exact ⟨hok.unmarked, hok.mode, fun hh => hok.outcome (hheard hh),
      fun honce hh => hok.bodies honce (hheard hh)⟩

/-- A step holds what was saved of it. -/
def HoldsSaved (x : Execution) (saved : SavedStep) : Prop :=
  ∀ step, x.program.stepAt saved.node = some step →
    step.cell.outcome = saved.outcome ∧ step.cell.bodies = saved.bodies

theorem HoldsSaved.other {x y : Execution} {node : Nat} {saved : SavedStep}
    (h : HoldsSaved x saved) (hothers : OtherCells x y node) (hne : saved.node ≠ node) :
    HoldsSaved y saved := by
  intro step hstep
  obtain ⟨old, hold, hcell⟩ := hothers saved.node step hne hstep
  rw [hcell]
  exact h old hold

theorem quiet_queueSaved (x : Execution) (saved : SavedStep) : Quiet x (x.queueSaved saved) := by
  unfold queueSaved
  split
  · exact .refl x
  · exact quiet_submit x _

theorem mem_queueSaved {x : Execution} {saved : SavedStep} (hne : saved.bodies ≠ [])
    (hlane : (x.queueSaved saved).lane = .serving) :
    .startBodies saved.node ∈ (x.queueSaved saved).inbox := by
  have hfull : ¬ saved.bodies.isEmpty = true := fun hempty => hne (List.isEmpty_iff.mp hempty)
  rw [queueSaved, if_neg hfull] at hlane ⊢
  exact mem_submit hlane

/-- **A restored step is announced, or told that it runs again.** -/
theorem SoundBut.reviveStep {x : Execution} {late : Nat → Prop} (h : SoundBut x none late)
    {saved : SavedStep} (hheld : HoldsSaved x saved) :
    SoundBut (x.reviveStep saved) none fun n => n ≠ saved.node ∧ late n := by
  have hqueued := h.quiet (quiet_queueSaved x saved)
  have hprogram := (quiet_queueSaved x saved).program
  have hbodies := @mem_queueSaved x saved
  unfold Execution.reviveStep
  rw [← queueSaved]
  dsimp only
  generalize x.queueSaved saved = y at hqueued hprogram hbodies
  have hholds : HoldsSaved y saved := by
    intro step hstep
    rw [hprogram] at hstep
    exact hheld step hstep
  split
  -- the job that hands the outcome over stands in the inbox, and that for the bodies before it
  · refine SoundBut.announce (hqueued.quiet (quiet_submit y _)) fun step hstep hlane => ?_
    rw [(quiet_submit y _).program] at hstep
    refine ⟨fun _ => mem_submit hlane, fun hne => ?_⟩
    rw [(hholds step hstep).2] at hne
    obtain ⟨hserving, hkept⟩ := (quiet_submit y _).inbox hlane
    exact hkept _ (hbodies hne hserving)
  · next hnone =>
    have hannounced : SoundBut y none fun n => n ≠ saved.node ∧ late n := by
      refine hqueued.announce fun step hstep hlane => ⟨fun hsome => ?_, fun hne => ?_⟩
      · rw [(hholds step hstep).1] at hsome
        exact absurd hsome hnone
      · rw [(hholds step hstep).2] at hne
        exact hbodies hne hlane
    split
    · exact hannounced
    · split
      · exact hannounced
      · exact hannounced.react _ _

theorem OtherCells.alongRevival (node : Nat) : AlongRevival (fun x y => OtherCells x y node) node where
  toAlongHooks := alongHooks node
  submit x job := quiet (quiet_submit x job)
  resumed _ _ := adjustStep _ node _

/-- **All restored steps are announced, one after the other.** -/
theorem SoundBut.reviveSteps {x : Execution} {saved : List SavedStep}
    (hnodup : (saved.map SavedStep.node).Nodup) (hheld : ∀ s ∈ saved, HoldsSaved x s)
    (h : SoundBut x none fun n => n ∈ saved.map SavedStep.node) :
    Sound (saved.foldl Execution.reviveStep x) none := by
  induction saved generalizing x with
  | nil =>
    have hnone : (fun n => n ∈ ([] : List SavedStep).map SavedStep.node) = fun _ => False := by
      simp
    rw [hnone] at h
    exact h
  | cons first rest ih =>
    rw [List.map_cons, List.nodup_cons] at hnodup
    have hstep := h.reviveStep (hheld first List.mem_cons_self)
    -- a step has its turn once, and is not late after it
    have hlate : (fun n => n ≠ first.node ∧ n ∈ (first :: rest).map SavedStep.node) =
        fun n => n ∈ rest.map SavedStep.node := by
      funext n
      rw [List.map_cons, List.mem_cons]
      refine propext ⟨fun hn => hn.2.resolve_left hn.1, fun hmem => ⟨?_, .inr hmem⟩⟩
      rintro rfl
      exact hnodup.1 hmem
    rw [hlate] at hstep
    refine ih hnodup.2 (fun s hs => ?_) hstep
    refine (hheld s (List.mem_cons_of_mem _ hs)).other ((OtherCells.alongRevival first.node).reviveStep x) fun heq => ?_
    exact hnodup.1 (heq ▸ List.mem_map_of_mem hs)

/-- **A restored program runs with the invariant of the one that was saved.** -/
theorem Sound.revive {x y : Execution} (h : Sound y none) (hopen : y.program.finished = false)
    (hnodes : y.record.nextNodeId ≤ x.record.nextNodeId)
    (hthreads : y.record.threadsCreated ≤ x.record.threadsCreated) (hlost : x.lost = [])
    {registry registry' : StepRegistry} {clock : Timestamp} {program : LiveProgram}
    (hrestored : restoreProgram registry clock (y.program.save registry') = .ok program) :
    Sound (x.revive (y.program.save registry') program) none := by
  have hsame := h.reassembled hrestored
  have hkeys : (y.program.save registry').steps.map SavedStep.node = Table.keys y.program.steps := by
    have hnode : ∀ entry ∈ y.program.steps, entry.2.node = entry.1 := fun entry hmem =>
      h.links.node (h.stepsSorted.find?_of_mem hmem)
    simp only [LiveProgram.save, Table.values, Table.keys, List.map_map]
    exact List.map_congr_left hnode
  let loaded : Execution := { x with program, lane := .serving, inbox := [], loading := .none }
  -- each step is revived once, from what was saved of itself
  have hsteps : Sound ((y.program.save registry').steps.foldl reviveStep loaded) none := by
    have hrecord : y.record.nextNodeId ≤ loaded.record.nextNodeId ∧
        y.record.threadsCreated ≤ loaded.record.threadsCreated := ⟨hnodes, hthreads⟩
    refine SoundBut.reviveSteps ?_ ?_ (h.restored hopen hsame hrecord.1 hrecord.2 hlost ?_)
    · rw [hkeys]
      refine (Table.sorted_iff_keys.mp h.stepsSorted).imp fun hlt heq => ?_
      rw [heq, Std.ReflOrd.compare_self] at hlt
      cases hlt
    · intro saved hmem step hstep
      obtain ⟨old, hold, rfl⟩ := List.mem_map.mp hmem
      obtain ⟨entry, hentry, rfl⟩ := List.mem_map.mp hold
      have hfound : y.program.stepAt entry.1 = some entry.2 := h.stepsSorted.find?_of_mem hentry
      obtain ⟨before, hbefore, hlike⟩ := hsame.oldStep hstep
      rw [show (entry.2.save registry').node = entry.1 from h.links.node hfound, hfound] at hbefore
      cases hbefore
      exact ⟨hlike.outcome, hlike.bodies⟩
    · intro n step hstep
      obtain ⟨old, hold, _⟩ := hsame.oldStep hstep
      rw [hkeys, Table.mem_keys, show Table.find? n y.program.steps = some old from hold]
      rfl
  have hready : Sound { (y.program.save registry').steps.foldl reviveStep loaded with
      stage := .ready } none := hsteps.calm (.of_eq rfl rfl rfl rfl (Nat.le_refl _) rfl rfl)
  unfold Execution.revive
  dsimp only
  split
  · exact hready
  · exact hready.quiet (quiet_submit _ _)

end Execution

end DurableFlow
