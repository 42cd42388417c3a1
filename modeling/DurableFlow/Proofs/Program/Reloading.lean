/-
A program that is saved and restored is the program that it was.

A program whose values can be stored is saved as a document that is read back. Its threads come
back because their machines do, and its steps because what a standard step has saved restores
what it remembers. What does not come back is which thread ran last, and what was delivered to a
step after its first outcome. The first of these matters: the thread whose turn is next depends
on it, so a program that was restored may go on in another order than one that was not.
-/
import DurableFlow.Proofs.Program.Upkeep

set_option autoImplicit false

namespace DurableFlow

open Script Text

/-! ## Programs that can be stored -/

/-- A thread whose values can be stored. -/
structure Thread.Storable (thread : Thread) : Prop where
  id : thread.id < shortWordBound
  machine : thread.machine.Storable
  input : ∀ outcome, thread.input = some outcome → Outcome.Storable outcome
  head : thread.head < shortWordBound
  completions : ∀ completion ∈ thread.completions, completion.Storable
  vars : Val.StorableFields thread.vars

instance (thread : Thread) : Decidable thread.Storable :=
  have : ∀ fields, Decidable (Val.StorableFields fields) := Val.decideStorableFields
  have : Decidable (∀ outcome, thread.input = some outcome → Outcome.Storable outcome) :=
    inferInstanceAs (Decidable (∀ outcome ∈ thread.input, Outcome.Storable outcome))
  decidable_of_iff (thread.id < shortWordBound ∧ thread.machine.Storable ∧
      (∀ outcome, thread.input = some outcome → Outcome.Storable outcome) ∧ thread.head < shortWordBound ∧
      (∀ completion ∈ thread.completions, completion.Storable) ∧ Val.StorableFields thread.vars)
    ⟨fun ⟨hid, hmachine, hinput, hhead, hcompletions, hvars⟩ => ⟨hid, hmachine, hinput, hhead, hcompletions, hvars⟩,
      fun h => ⟨h.id, h.machine, h.input, h.head, h.completions, h.vars⟩⟩

/-- A live step whose values can be stored. -/
structure LiveStep.Storable (step : LiveStep) : Prop where
  thread : step.thread < shortWordBound
  args : Val.StorableItems step.args
  memory : step.memory.Storable
  head : step.head < shortWordBound
  children : ∀ child ∈ Table.keys step.children, child < shortWordBound
  vars : Val.StorableFields step.vars
  outcome : ∀ outcome, step.cell.outcome = some outcome → Outcome.Storable outcome
  bodies : ∀ body ∈ step.cell.bodies, body.Storable

/-- **A program whose values can be stored**: its numbers are finite, and what has to fit into a word
does. -/
structure LiveProgram.Storable (p : LiveProgram) : Prop where
  threads : ∀ entry ∈ p.threads, entry.2.Storable
  closures : ∀ entry ∈ p.closures, entry.1 < Json.wordBound ∧ Closure.Storable entry.2
  steps : ∀ entry ∈ p.steps, entry.2.Storable
  rootOutcome : ∀ outcome, p.rootOutcome = some outcome → Outcome.Storable outcome

/-- A program that has threads and nothing else. -/
theorem LiveProgram.storable_of_threads {p : LiveProgram} (hthreads : ∀ entry ∈ p.threads, entry.2.Storable)
    (hclosures : p.closures = []) (hsteps : p.steps = []) (houtcome : p.rootOutcome = none) : p.Storable where
  threads := hthreads
  closures := by
    rw [hclosures]
    exact List.forall_mem_nil _
  steps := by
    rw [hsteps]
    exact List.forall_mem_nil _
  rootOutcome outcome hsome := by
    rw [houtcome] at hsome
    cases hsome

/-! ## What is saved can be read -/

theorem Thread.Storable.save {thread : Thread} (h : thread.Storable) : thread.save.Storable :=
  ⟨h.id, Machine.ordered_toJson h.machine, h.input, h.head, h.completions, h.vars⟩

/-- The state of a known step, as it is saved. -/
theorem LiveStep.KnownAs.state {step : LiveStep} {d : StepDef} (h : step.KnownAs d) :
    (step.save Step.standard).state = d.saveState step.memory := by
  unfold LiveStep.save
  rw [h.found]
  rfl

theorem LiveStep.Storable.save {step : LiveStep} (h : step.Storable) (hknown : step.Known)
    (hsorted : Table.Sorted step.children) : (step.save Step.standard).Storable where
  thread := h.thread
  args := h.args
  state := by
    obtain ⟨d, hd⟩ := hknown
    intro state hstate
    rw [hd.state] at hstate
    exact Step.saveState_ordered (Step.mem_standard hd.found).2 h.memory hstate
  head := h.head
  sorted := hsorted
  children := h.children
  vars := h.vars
  outcome outcome hpending := h.outcome outcome (Option.filter_eq_some_iff.mp hpending).1
  bodies := h.bodies

namespace Execution

variable {y : Execution}

/-- The live steps of a program are known. -/
def Knows (y : Execution) : Prop := ∀ {n step}, Table.find? n y.program.steps = some step → step.Known

theorem Sound.storable_save (h : Sound y none) (hknows : Knows y) (hstorable : y.program.Storable) :
    (y.program.save Step.standard).Storable where
  threads := by
    intro saved hmem
    obtain ⟨thread, hthread, rfl⟩ := List.mem_map.mp hmem
    obtain ⟨entry, hentry, rfl⟩ := List.mem_map.mp hthread
    exact (hstorable.threads entry hentry).save
  sorted := h.closuresSorted
  closures := hstorable.closures
  steps := by
    intro saved hmem
    obtain ⟨step, hstep, rfl⟩ := List.mem_map.mp hmem
    obtain ⟨entry, hentry, rfl⟩ := List.mem_map.mp hstep
    have hfound := h.stepsSorted.find?_of_mem hentry
    exact (hstorable.steps entry hentry).save (hknows hfound) (h.links.sorted hfound)
  rootOutcome := hstorable.rootOutcome

end Execution

/-! ## What is restored -/

/-- What becomes of a step: what was delivered too late is forgotten. -/
def LiveStep.reloaded (step : LiveStep) : LiveStep := { step with cell := { step.cell with suppressed := [] } }

/-- **What becomes of a program that is saved and restored**: nobody knows which thread ran last, and
what was delivered too late is forgotten. -/
def LiveProgram.reloaded (p : LiveProgram) : LiveProgram :=
  { p with steps := Table.mapValues LiveStep.reloaded p.steps, lastRun := none }

/-- The values of a table under their keys. -/
theorem Table.map_values_of_keys {κ α : Type} {key : α → κ} {table : Table κ α}
    (h : ∀ entry ∈ table, key entry.2 = entry.1) :
    (Table.values table).map (fun value => (key value, value)) = table := by
  rw [Table.values, List.map_map]
  conv_rhs => rw [← List.map_id table]
  exact List.map_congr_left fun entry hmem => Prod.ext (h entry hmem) rfl

namespace Execution

theorem restoreThreads_save {threads : List Thread} (h : ∀ thread ∈ threads, thread.machine.Storable) :
    restoreThreads (threads.map Thread.save) = .ok threads := by
  induction threads with
  | nil => rfl
  | cons thread rest ih =>
    have hmachine : Machine.ofJson? thread.save.machine = some thread.machine :=
      Machine.ofJson?_toJson (h thread List.mem_cons_self)
    rw [List.map_cons, restoreThreads, hmachine, ih fun other hmem => h other (List.mem_cons_of_mem _ hmem)]
    rfl

theorem restoreSteps_save {clock : Timestamp} {steps : List LiveStep}
    (h : ∀ step ∈ steps, restoreStep Step.standard clock (step.save Step.standard) = .ok step.reloaded) :
    restoreSteps Step.standard clock (steps.map (LiveStep.save Step.standard)) =
      .ok (steps.map LiveStep.reloaded) := by
  induction steps with
  | nil => rfl
  | cons step rest ih =>
    rw [List.map_cons, restoreSteps, h step List.mem_cons_self,
      ih fun other hmem => h other (List.mem_cons_of_mem _ hmem)]
    rfl

/-- **A step that is known and has its outcome still** comes back. -/
theorem restoreStep_save {clock : Timestamp} {step : LiveStep} (hknown : step.Known)
    (hstorable : step.memory.Storable) (hreachable : Step.Reachable step.function clock step.args)
    (hasync : step.cell.isAsync = true)
    (hunmarked : ∀ outcome, step.cell.outcome = some outcome → StepCell.isMarker outcome = false) :
    restoreStep Step.standard clock (step.save Step.standard) = .ok step.reloaded := by
  obtain ⟨d, hd⟩ := hknown
  obtain ⟨hname, hmem⟩ := Step.mem_standard hd.found
  obtain ⟨earlier, created, hcreate⟩ := hd.created
  -- the step is known, so what its memory was saved as is what its own hook reads
  have hrestore : d.restore clock step.args (step.save Step.standard).state = .ok step.memory := by
    rw [hd.state]
    refine Step.restore_saveState hmem hcreate ?_ hstorable ?_
    · rw [hname]
      exact hd.memory
    · rw [hname]
      exact hreachable
  -- only markers are left out of a save, and this outcome is none
  have hpending : step.cell.pending? = step.cell.outcome := by
    unfold StepCell.pending?
    cases houtcome : step.cell.outcome with
    | none => rfl
    | some outcome => rw [Option.filter_some, hunmarked outcome houtcome]; rfl
  have hfound : Step.standard.find? (step.save Step.standard).function = some d := hd.found
  have hargs : (step.save Step.standard).args = step.args := rfl
  unfold restoreStep
  rw [hfound]
  dsimp only
  rw [hargs, hrestore, ← hd.displayName]
  unfold LiveStep.reloaded LiveStep.save
  rw [hpending, ← hasync]

variable {y : Execution}

/-- **A saved program restores the program that it was saved from**, but for which thread ran last and
what was delivered too late. -/
theorem Sound.restoreProgram_save (h : Sound y none) (hknows : Knows y) (hstorable : y.program.Storable)
    (hopen : y.program.finished = false) (hnext : 1 ≤ y.program.nextClosure) {clock : Timestamp}
    (hreachable : ∀ n step, Table.find? n y.program.steps = some step →
      Step.Reachable step.function clock step.args) :
    restoreProgram Step.standard clock (y.program.save Step.standard) = .ok y.program.reloaded := by
  have hthreads : restoreThreads (y.program.save Step.standard).threads =
      .ok (Table.values y.program.threads) := by
    refine restoreThreads_save fun thread hmem => ?_
    obtain ⟨entry, hentry, rfl⟩ := List.mem_map.mp hmem
    exact (hstorable.threads entry hentry).machine
  have hsteps : restoreSteps Step.standard clock (y.program.save Step.standard).steps =
      .ok ((Table.values y.program.steps).map LiveStep.reloaded) := by
    refine restoreSteps_save fun step hmem => ?_
    obtain ⟨entry, hentry, rfl⟩ := List.mem_map.mp hmem
    have hfound := h.stepsSorted.find?_of_mem hentry
    exact restoreStep_save (hknows hfound) (hstorable.steps entry hentry).memory
      (hreachable entry.1 entry.2 hfound) (h.isAsync hfound) (h.cells hfound).unmarked
  -- the tables are made anew from their values, each under the number it bears
  have hids : ((Table.values y.program.threads).map fun thread => (thread.id, thread)) = y.program.threads :=
    Table.map_values_of_keys fun entry hmem => h.links.id (h.threadsSorted.find?_of_mem hmem)
  have hnodes : (((Table.values y.program.steps).map LiveStep.reloaded).map fun step => (step.node, step)) =
      Table.mapValues LiveStep.reloaded y.program.steps := by
    rw [Table.values, Table.mapValues, List.map_map, List.map_map]
    refine List.map_congr_left fun entry hmem => Prod.ext ?_ rfl
    have hnode : entry.2.node = entry.1 := h.links.node (h.stepsSorted.find?_of_mem hmem)
    exact hnode
  have hmax : max (y.program.save Step.standard).nextClosure 1 = y.program.nextClosure := Nat.max_eq_left hnext
  unfold restoreProgram
  rw [hthreads]
  dsimp only
  rw [hsteps]
  dsimp only
  rw [hids, hnodes, hmax, Table.ofEntries_of_sorted h.threadsSorted,
    Table.ofEntries_of_sorted (h.stepsSorted.mapValues _)]
  unfold LiveProgram.reloaded
  rw [hopen]
  rfl

/-! ## Runs -/

/-- **What a run has saved gives the program back.** In every state of a run, a program whose values can
be stored is saved as a document that is read, and what is restored from it is the program as it was,
but for which thread ran last and what was delivered too late. -/
theorem reload_gives_back {x y : Execution} (hstart : Started x) (hrun : Leads x y)
    (hopen : y.record.done = false) (hunfinished : y.program.finished = false)
    (hstorable : y.program.Storable) {clock : Timestamp}
    (hreachable : ∀ n step, Table.find? n y.program.steps = some step →
      Step.Reachable step.function clock step.args) :
    SavedProgram.ofJson? (y.program.save Step.standard).toJson = some (y.program.save Step.standard) ∧
      restoreProgram Step.standard clock (y.program.save Step.standard) = .ok y.program.reloaded := by
  obtain ⟨_, _, hsound⟩ := (hstart.inOrder hrun).of_open hopen
  -- a step of the program was called in this run, from a definition that is known
  have hknows : Knows y := fun hstep => known_of_leads hstart hrun hstep
  have hnext : 1 ≤ y.program.nextClosure := upheld_nextClosure.leads hstart hrun
  exact ⟨SavedProgram.ofJson?_toJson (hsound.storable_save hknows hstorable),
    hsound.restoreProgram_save hknows hstorable hunfinished hnext hreachable⟩

end Execution

end DurableFlow
