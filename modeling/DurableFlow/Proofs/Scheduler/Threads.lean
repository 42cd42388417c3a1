/-
The invariant over a thread's turn.

A thread is taken out of the program, drives its machine and starts steps, and is put
back when it waits or parks. Where it stands is the same to the other threads and to
the steps; what it does is to start a step, to go on with the outcome of one that is
over, or to end.
-/
import DurableFlow.Proofs.Scheduler.Running

set_option autoImplicit false

namespace DurableFlow

open Script History

namespace Execution

namespace Sound

variable {x y : Execution} {running : Option Thread}

/-! ## Taking out and putting back -/

/-- **Threads change places** or get and lose inputs, and nothing else does. -/
theorem reseat (h : Sound x running) {running' : Option Thread} (hxy : Onward x y)
    (hprogram : y.program =
      { x.program with threads := y.program.threads, lastRun := y.program.lastRun })
    (halike : Alike (x.program.threadAt running) (y.program.threadAt running'))
    (hsorted : Table.Sorted y.program.threads)
    (hout : ∀ r, running' = some r → Table.find? r.id y.program.threads = none ∧ r.input = none)
    (hinput : ∀ {t thread}, Table.find? t y.program.threads = some thread →
      (thread.input.isSome = true ↔ thread.step = none))
    (hstarting : ∀ n, Starting running' n ↔ Starting running n) : Sound y running' := by
  have hsteps : y.program.stepAt = x.program.stepAt := by
    rw [hprogram]
    rfl
  constructor
  case threadsSorted => exact hsorted
  case stepsSorted => rw [hprogram]; exact h.stepsSorted
  case closuresSorted => rw [hprogram]; exact h.closuresSorted
  case out => exact hout
  case input => exact hinput
  case links =>
    rw [hsteps]
    exact h.links.alike halike
  case exports =>
    rw [hsteps, hprogram]
    exact h.exports
  -- inputs do not tell which thread is that of the script
  case rooted =>
    have hrooted := h.rooted.alike halike
    rw [hprogram] at hrooted ⊢
    exact hrooted
  case threadNumber =>
    intro t thread hthread
    obtain ⟨old, hold, _⟩ := halike.old hthread
    rw [hxy.threads]
    exact h.threadNumber hold
  case stepNumber =>
    rw [hsteps]
    exact fun hstep => Nat.lt_of_lt_of_le (h.stepNumber hstep) hxy.nodes
  case bodyNumber =>
    intro t thread n hthread hruns
    obtain ⟨old, hold, hlike⟩ := halike.old hthread
    exact Nat.lt_of_lt_of_le (h.bodyNumber hold ((hlike.runsFor n).mp hruns)) hxy.nodes
  case cells =>
    intro n step hstep
    rw [hsteps] at hstep
    have hcell := (h.cells hstep).onward hxy
    exact ⟨hcell.unmarked, hcell.mode.trans (not_congr (hstarting n)).symm, hcell.outcome,
      hcell.bodies⟩
  case lost => rw [hxy.lost]; exact h.lost

/-- The machine of the running thread goes on. -/
theorem running_like {r r' : Thread} (h : Sound x (some r)) (hlike : r'.Like r)
    (hinput : r'.input = none) : Sound x (some r') := by
  have hthreads : x.program.threadAt (some r') =
      changed (x.program.threadAt (some r)) r.id (some r') :=
    LiveProgram.threadAt_goesOn rfl hlike.id
  refine h.reseat (.refl x) rfl ?_ h.threadsSorted ?_ h.input ?_
  · rw [hthreads]
    exact .changed (LiveProgram.threadAt_running _ r) hlike
  · rintro _ ⟨⟩
    rw [hlike.id]
    exact ⟨(h.out r rfl).1, hinput⟩
  · intro n
    simp only [Starting, Option.some.injEq, exists_eq_left', hlike.step]

/-- A thread that can go on is put back. -/
theorem putBack {r r' : Thread} (h : Sound x (some r)) (hlike : r'.Like r) (hidle : r.step = none)
    (hinput : r'.input.isSome = true) : Sound (x.mapProgram (·.putThread r')) none := by
  have hthreads : (x.program.putThread r').threadAt none =
      changed (x.program.threadAt (some r)) r.id (some r') := by
    rw [LiveProgram.threadAt_putThread, hlike.id]
    simp only [LiveProgram.threadAt, changed_changed]
  refine h.reseat (onward_mapProgram x _) rfl ?_ (h.threadsSorted.insert _ _)
    (fun _ hnone => (by cases hnone)) ?_ ?_
  · rw [mapProgram, hthreads]
    exact .changed (LiveProgram.threadAt_running _ r) hlike
  · intro t thread hfound
    rw [mapProgram, LiveProgram.find?_putThread] at hfound
    split at hfound
    · cases hfound
      rw [hlike.step]
      exact ⟨fun _ => hidle, fun _ => hinput⟩
    · exact h.input hfound
  · exact fun n => iff_of_false (not_starting_none n) (not_starting_of_idle hidle n)

/-- A thread that is taken out is found where it was. -/
theorem threadAt_dropThread {p : LiveProgram} (hsorted : Table.Sorted p.threads) {r : Thread}
    {id : Nat} (hid : r.id = id) :
    (p.dropThread id).threadAt (some r) = changed (p.threadAt none) id (some r) := by
  funext t
  simp only [LiveProgram.threadAt, changed, hid, LiveProgram.dropThread]
  by_cases ht : t = id
  · rw [if_pos ht, if_pos ht]
  · rw [if_neg ht, if_neg ht, Table.find?_erase hsorted, if_neg ht]

/-- A thread that can go on is taken out. -/
theorem takeOut (h : Sound x none) {id : Nat} {thread : Thread}
    (hthread : Table.find? id x.program.threads = some thread) (hidle : thread.step = none) :
    Sound (x.mapProgram (·.dropThread id)) (some { thread with input := none }) := by
  have hid : thread.id = id := h.links.id hthread
  have hlike : ({ thread with input := none } : Thread).Like thread := ⟨rfl, rfl, rfl⟩
  have hnone : ({ thread with input := none } : Thread).step = none := hidle
  have hthreads : (x.program.dropThread id).threadAt (some { thread with input := none }) =
      changed (x.program.threadAt none) id (some { thread with input := none }) :=
    threadAt_dropThread h.threadsSorted hid
  refine h.reseat (onward_mapProgram x _) rfl ?_ (h.threadsSorted.erase _) ?_ ?_ ?_
  · rw [mapProgram, hthreads]
    exact .changed hthread hlike
  · rintro _ ⟨⟩
    refine ⟨?_, rfl⟩
    exact (Table.find?_erase h.threadsSorted _ _).trans (if_pos hid)
  · intro t other hfound
    rw [mapProgram, LiveProgram.dropThread, Table.find?_erase h.threadsSorted] at hfound
    split at hfound
    · cases hfound
    · exact h.input hfound
  · exact fun n => iff_of_false (not_starting_of_idle hnone n) (not_starting_none n)

/-- Which thread ran last is no part of the invariant. -/
theorem ranLast (h : Sound x none) (last : Option Nat) :
    Sound (x.mapProgram fun p => { p with lastRun := last }) none :=
  h.reseat (onward_mapProgram x _) rfl (.refl _) h.threadsSorted (fun _ hnone => (by cases hnone))
    h.input fun _ => Iff.rfl

/-! ## Starting a step -/

/-- **A step is started** by the running thread, under a number that nothing refers to. -/
theorem started {r : Thread} (h : Sound x (some r)) (hidle : r.step = none) {step : LiveStep}
    {program : LiveProgram} (hfree : x.program.stepAt step.node = none)
    (hfresh : ∀ t other, x.program.threadAt (some r) t = some other → ¬ other.RunsFor step.node)
    (hnumber : step.node < x.record.nextNodeId) (hcaller : step.thread = r.id)
    (hchildren : step.children = []) (hcell : step.cell = {})
    (hprogram : program =
      { x.program with closures := program.closures, nextClosure := program.nextClosure })
    (hclosures : Table.Sorted program.closures)
    (hexports : Exports (changed x.program.stepAt step.node (some step)) program.isExported
      program.nextClosure) :
    Sound { x with program := program.putStep step } (some { r with step := some step.node }) := by
  have hthreads : (program.putStep step).threadAt (some { r with step := some step.node }) =
      changed (x.program.threadAt (some r)) r.id (some { r with step := some step.node }) :=
    LiveProgram.threadAt_goesOn (congrArg LiveProgram.threads hprogram) rfl
  have hsteps : (program.putStep step).stepAt =
      changed x.program.stepAt step.node (some step) := by
    rw [LiveProgram.stepAt_putStep, hprogram]
    rfl
  constructor
  case threadsSorted => rw [hprogram]; exact h.threadsSorted
  case stepsSorted => rw [hprogram]; exact h.stepsSorted.insert _ _
  case closuresSorted => exact hclosures
  case out =>
    rintro _ ⟨⟩
    rw [hprogram]
    exact h.out r rfl
  case input => rw [hprogram]; exact h.input
  case links =>
    rw [hthreads, hsteps]
    exact h.links.start (LiveProgram.threadAt_running _ r) hidle hfree hfresh rfl rfl rfl rfl hcaller hchildren
  case exports => rw [hsteps]; exact hexports
  case rooted =>
    have hrooted : Rooted
        (changed (x.program.threadAt (some r)) r.id (some { r with step := some step.node }))
        x.program.rootOutcome x.program.finished :=
      h.rooted.changed_like (LiveProgram.threadAt_running _ r) rfl
    rw [hthreads, hprogram]
    exact hrooted
  case threadNumber =>
    intro t other hother
    rw [hthreads] at hother
    exact changed_elim hother (h.threadNumber (LiveProgram.threadAt_running _ r)) h.threadNumber
  case stepNumber =>
    intro n other hother
    rw [hsteps] at hother
    exact changed_elim hother hnumber h.stepNumber
  case bodyNumber =>
    intro t other n hother
    rw [hthreads] at hother
    exact changed_elim hother (fun hruns => h.bodyNumber (LiveProgram.threadAt_running _ r) hruns)
      h.bodyNumber
  case cells =>
    intro n other hother
    rw [hsteps] at hother
    rcases changed_eq_some.mp hother with ⟨rfl, heq⟩ | ⟨hn, hold⟩
    · cases heq
      rw [hcell]
      refine ⟨fun _ hnone => (by cases hnone), ?_, fun _ hno => (by cases hno), fun _ _ hno => (by cases hno)⟩
      exact ⟨fun hno => (by cases hno), fun hno => absurd ⟨_, rfl, rfl⟩ hno⟩
    · -- the thread was starting nothing before, and is starting another step now
      have hok := h.cells hold
      have hnow : ¬ Starting (some { r with step := some step.node }) n :=
        fun hno => hn (Option.some.inj (starting_some.mp hno)).symm
      exact ⟨hok.unmarked, hok.mode.trans (not_congr (iff_of_false (not_starting_of_idle hidle n) hnow)),
        hok.outcome, hok.bodies⟩
  case lost => exact h.lost

/-- A block is exported together with the step that it belongs to. -/
theorem exportBlock {r : Thread} (h : Sound x (some r)) {step : LiveStep} (body : Closure Val)
    (hfree : x.program.stepAt step.node = none)
    (hclosure : step.closure = some (x.program.exportBlock body).1) :
    Exports (changed x.program.stepAt step.node (some step))
      (x.program.exportBlock body).2.isExported (x.program.exportBlock body).2.nextClosure := by
  have hexported : (x.program.exportBlock body).2.isExported =
      fun handle => handle == x.program.nextClosure || x.program.isExported handle := by
    funext handle
    unfold LiveProgram.isExported LiveProgram.exportBlock Table.contains
    rw [Table.find?_insert]
    by_cases hhandle : handle = x.program.nextClosure
    · simp [hhandle]
    · simp [hhandle]
  rw [hexported]
  exact h.exports.startWith hfree hclosure

/-- **A thread waits for the step that it started**, which becomes asynchronous. A body that it has
queued by then was queued too late. -/
theorem waits {r : Thread} (h : Sound x (some r)) {node : Nat} {step : LiveStep}
    (hwaits : r.step = some node) (hstep : x.program.stepAt node = some step)
    (hnone : step.cell.outcome = none)
    (hdrained : x.engine.queuesLate node = false → step.cell.bodies = []) :
    Sound ((x.mapProgram (·.adjustStep node fun s =>
      { s with cell := { step.cell with isAsync := true } })).mapProgram (·.putThread r)) none := by
  let f (s : LiveStep) : LiveStep := { s with cell := { step.cell with isAsync := true } }
  have hout := h.out r rfl
  generalize hy : (x.mapProgram (·.adjustStep node f)).mapProgram (·.putThread r) = y
  have hprogram : y.program = (x.program.adjustStep node f).putThread r := by
    rw [← hy]
    rfl
  have honward : Onward x y := by
    rw [← hy]
    exact (onward_mapProgram x _).trans (onward_mapProgram _ _)
  have hthreads : y.program.threadAt none = x.program.threadAt (some r) := by
    rw [hprogram, LiveProgram.threadAt_putThread]
    rfl
  have hsteps : y.program.stepAt =
      fun n => (x.program.stepAt n).map fun s => if n = node then f s else s := by
    rw [hprogram, ← LiveProgram.stepAt_adjustStep]
    rfl
  constructor
  case threadsSorted => rw [hprogram]; exact h.threadsSorted.insert _ _
  case stepsSorted => rw [hprogram]; exact h.stepsSorted.adjust _ _
  case closuresSorted => rw [hprogram]; exact h.closuresSorted
  case out => exact fun _ hno => (by cases hno)
  case input =>
    intro t other hfound
    rw [hprogram, LiveProgram.find?_putThread] at hfound
    split at hfound
    · cases hfound
      rw [hout.2, hwaits]
      exact ⟨fun hno => (by cases hno), fun hno => (by cases hno)⟩
    · exact h.input hfound
  case links =>
    rw [hthreads, hsteps]
    exact h.links.map_steps fun n s _ => by split <;> exact ⟨rfl, rfl, rfl, rfl⟩
  case exports =>
    have hexports := h.exports.map_steps (f := fun n s => if n = node then f s else s)
      fun n s _ => by split <;> rfl
    rw [hsteps, hprogram]
    exact hexports
  case rooted =>
    rw [hthreads, hprogram]
    exact h.rooted
  case threadNumber => rw [hthreads, honward.threads]; exact h.threadNumber
  case stepNumber =>
    intro n other hother
    rw [hsteps] at hother
    obtain ⟨old, hold, -⟩ := Option.map_eq_some_iff.mp hother
    exact Nat.lt_of_lt_of_le (h.stepNumber hold) honward.nodes
  case bodyNumber =>
    rw [hthreads]
    exact fun hthread hruns => Nat.lt_of_lt_of_le (h.bodyNumber hthread hruns) honward.nodes
  case cells =>
    intro n other hother
    rw [hsteps] at hother
    obtain ⟨old, hold, rfl⟩ := Option.map_eq_some_iff.mp hother
    have hok := (h.cells hold).onward honward
    by_cases hn : n = node
    · -- it has no outcome, and what it had queued was started
      subst hn
      rw [hstep] at hold
      cases hold
      rw [if_pos rfl]
      refine ⟨hok.unmarked, ⟨fun _ => not_starting_none _, fun _ => rfl⟩, ?_, ?_⟩
      · intro _ _ hsome
        rw [show (f step).cell.outcome = none from hnone] at hsome
        cases hsome
      · exact fun honce _ _ hne => absurd (hdrained (honward.engine ▸ honce)) hne
    · rw [if_neg hn]
      have hother : ¬ Starting (some r) n :=
        fun hno => hn (Option.some.inj ((starting_some.mp hno).symm.trans hwaits))
      exact ⟨hok.unmarked, ⟨fun _ => not_starting_none n, fun _ => hok.mode.mpr hother⟩, hok.outcome,
        hok.bodies⟩
  case lost => rw [honward.lost]; exact h.lost

end Sound

/-- A number that is given to a node was free. -/
theorem number_of_appendNode {head node : Nat} {kind : NodeKind} {function displayName : String}
    {x z : Execution} (h : appendNode head kind function displayName x = (.ok node, z)) :
    x.record.nextNodeId ≤ node ∧ node < z.record.nextNodeId := by
  obtain ⟨_, x₁, hrunning, h⟩ := Attempt.bind_eq_ok h
  obtain ⟨parent, x₂, hhead, h⟩ := Attempt.bind_eq_ok h
  obtain ⟨id, x₃, hallocate, h⟩ := Attempt.bind_eq_ok h
  obtain ⟨now, x₄, hclock, h⟩ := Attempt.bind_eq_ok h
  obtain ⟨_, x₅, hstore, h⟩ := Attempt.bind_eq_ok h
  obtain ⟨_, x₆, hupdate, h⟩ := Attempt.bind_eq_ok h
  have hbefore := (Quiet.alongWrites.requireRunning.leads hrunning).trans
    ((Quiet.alongWrites.requireHead head).leads hhead)
  have hafter := (Quiet.alongWrites.storeNode _).leads hstore
  cases hallocate
  cases hclock
  cases hupdate
  cases h
  exact ⟨hbefore.nodes, hafter.nodes⟩

/-! ## Step calls -/

/-- **How a step call leaves things**: the thread can go on, or it can be put back to wait. -/
def StepCall.Settled (call : StepCall) : Prop :=
  match call.outcome with
  | none => Sound (call.execution.mapProgram (·.putThread call.thread)) none
  | some _ => Sound call.execution (some call.thread) ∧ call.thread.step = none

/-- An outcome that is there and was not taken can be taken. -/
theorem take_of_unmarked {cell : StepCell} {outcome : Outcome} (hsome : cell.outcome = some outcome)
    (hunmarked : StepCell.isMarker outcome = false) :
    cell.take = ({ cell with outcome := some (.error .alreadyCompleted) }, some outcome) := by
  have hpending : cell.pending? = some outcome := by
    rw [StepCell.pending?, hsome]
    simp [hunmarked]
  rw [StepCell.take, hpending]

theorem switchToAsync_of_none {cell : StepCell} (h : cell.outcome = none) :
    cell.switchToAsync = ({ cell with isAsync := true }, true) := by
  unfold StepCell.switchToAsync
  split
  · next heq =>
    rw [h] at heq
    cases heq
  · rfl

theorem switchToAsync_of_some {cell : StepCell} {outcome : Outcome}
    (h : cell.outcome = some outcome) : cell.switchToAsync = (cell, false) := by
  rw [StepCell.switchToAsync, h]

namespace Sound

variable {x : Execution} {r : Thread}

/-- **The end of a start**: the outcome is taken, or the thread waits for it. -/
theorem awaitStep (h : Sound x (some r)) {node : Nat} (hwaits : r.step = some node)
    (hdrained : x.engine.queuesLate node = false → ∀ step, x.program.stepAt node = some step →
      step.cell.bodies = []) : (x.awaitStep r node).Settled := by
  obtain ⟨step, hstep, hcaller⟩ := h.links.waited (LiveProgram.threadAt_running _ r) hwaits
  have hfound : Table.find? node x.program.steps = some step := hstep
  unfold Execution.awaitStep
  cases houtcome : step.cell.outcome with
  | none =>
    simp only [hfound, switchToAsync_of_none houtcome]
    rw [adjustStep_of_live hstep]
    exact h.waits hwaits hstep houtcome fun honce => hdrained honce step hstep
  | some outcome =>
    have hunmarked := (h.cells hstep).unmarked outcome houtcome
    simp only [hfound, switchToAsync_of_some houtcome, take_of_unmarked houtcome hunmarked]
    have hdropped := h.dropped hstep
      { step.cell with outcome := some (.error .alreadyCompleted) } outcome
    generalize (x.adjustStep node fun s =>
      { s with cell := { step.cell with outcome := some (.error .alreadyCompleted) } }).finishStep
        node outcome = y at hdropped ⊢
    have hthread : x.program.threadAt (some r) step.thread = some r := by
      rw [hcaller]
      exact LiveProgram.threadAt_running _ r
    have hout := h.out r rfl
    refine ⟨h.finish { r with step := none } hstep hdropped (.refl y) rfl hthread rfl rfl rfl
      ?_ ?_ ?_ ?_ ?_, rfl⟩
    · rw [hcaller]
      exact LiveProgram.threadAt_goesOn hdropped.others rfl
    · rw [hdropped.others]
      exact h.threadsSorted
    · rintro _ ⟨⟩
      rw [hdropped.others]
      exact hout
    · rw [hdropped.others]
      exact h.input
    · -- the thread was starting this step and is starting nothing now
      intro n hn
      refine iff_of_false (not_starting_of_idle rfl n) fun hno => hn ?_
      exact Option.some.inj ((starting_some.mp hno).symm.trans hwaits)

/-- **The end of a start, after what other threads do**: they keep the invariant, and leave no body queued
unless they queue one. -/
theorem meanwhile_await (h : Steady x (some r)) {node : Nat} (hwaits : r.step = some node) :
    ((x.meanwhile node).awaitStep r node).Settled := by
  obtain ⟨step, hstep, _⟩ := h.links.waited (LiveProgram.threadAt_running _ r) hwaits
  have hkept : Sound (x.meanwhile node) (some r) := (SoundBut.alongHost (some r) _).meanwhile x node h.toSound
  refine hkept.awaitStep hwaits fun honce after hafter => ?_
  rw [(Onward.alongHost.meanwhile x node).engine] at honce
  obtain ⟨same, hsame, hbodies⟩ := bodies_meanwhile hstep honce
  cases hsame.symm.trans hafter
  exact hbodies.trans (h.drained node step (starting_some.mpr hwaits) hstep)

/-- **The start of a step**, with all that its hook asks for. -/
theorem launch (h : Sound x (some r)) (hidle : r.step = none) (d : StepDef)
    (request : StepRequest) (memory : StepMemory) {node : Nat}
    (hfree : x.program.stepAt node = none)
    (hfresh : ∀ t other, x.program.threadAt (some r) t = some other → ¬ other.RunsFor node)
    (hnumber : node < x.record.nextNodeId) :
    (x.launch r d request memory node).Settled := by
  have hrun : ∀ y : Execution, Sound y (some { r with step := some node }) →
      ∀ reaction reply, (((y.react node reaction).acknowledge node request.function
        reply).startBodies node |>.meanwhile node |>.awaitStep { r with step := some node } node).Settled := by
    intro y hy reaction reply
    have hreacted : Sound (y.react node reaction) _ := hy.react node reaction
    have hsound : Sound _ _ :=
      (SoundBut.alongHooks _ _ node).acknowledge (y.react node reaction) request.function reply hreacted
    -- the thread is starting no step but the new one
    refine meanwhile_await (Steady.startBodies hsound fun n step hn hstarting _ => ?_) rfl
    exact absurd (Option.some.inj (starting_some.mp hstarting)).symm hn
  unfold Execution.launch
  cases hbody : request.body with
  | none =>
    refine hrun _ (h.started hidle hfree hfresh hnumber rfl rfl rfl rfl h.closuresSorted ?_) _ _
    exact h.exports.start hfree rfl
  | some body =>
    refine hrun _ (h.started hidle hfree hfresh hnumber rfl rfl rfl rfl ?_ ?_) _ _
    · exact h.closuresSorted.insert _ _
    · exact h.exportBlock body hfree rfl

/-- A call that is refused leaves the thread free to go on. -/
theorem refuse (h : Sound x (some r)) (hidle : r.step = none) (failure : Failure) :
    (x.refuse r failure).Settled := ⟨h, hidle⟩

/-- **A step call**, however it goes. -/
theorem startStep (h : Sound x (some r)) (hidle : r.step = none) (request : StepRequest) :
    (x.startStep r request).Settled := by
  have hcounted : Sound (x.mapRecord (·.countCall request.function)) (some r) := by
    refine h.quiet (quiet_mapRecord ?_ x)
    exact ⟨fun _ => Nat.le_refl _, fun _ => rfl⟩
  unfold Execution.startStep
  dsimp only
  generalize x.mapRecord (·.countCall request.function) = y at hcounted ⊢
  split
  · exact hcounted.refuse hidle _
  · split
    · exact hcounted.refuse hidle _
    · split
      · exact hcounted.refuse hidle _
      · split
        · next e z heq =>
          exact Sound.refuse (hcounted.quiet ((Quiet.alongWrites.appendNode _ _ _ _).leads heq)) hidle _
        · next node z heq =>
          have hquiet := (Quiet.alongWrites.appendNode _ _ _ _).leads heq
          obtain ⟨hlow, hhigh⟩ := number_of_appendNode heq
          refine Sound.launch (hcounted.quiet hquiet) hidle _ _ _ ?_ ?_ hhigh
          · rw [hquiet.program]
            cases hstep : y.program.stepAt node with
            | none => rfl
            | some step => exact absurd (hcounted.stepNumber hstep) (Nat.not_lt.mpr hlow)
          · intro t other hother hruns
            rw [hquiet.program] at hother
            exact absurd (hcounted.bodyNumber hother hruns) (Nat.not_lt.mpr hlow)

/-! ## The end of a thread -/

/-- **A thread is gone**, and the step that it ran for has lost a child. -/
theorem retired {y : Execution} (h : Sound x (some r)) (hidle : r.step = none) {gone : Nat → Bool}
    (hgone : ∀ n, gone n = true ↔ r.RunsFor n) (hxy : Onward x y)
    (hprogram : y.program = { x.program with
      steps := y.program.steps, rootOutcome := y.program.rootOutcome })
    (hsorted : Table.Sorted y.program.steps)
    (hsteps : y.program.stepAt = fun n => (x.program.stepAt n).map fun step =>
      if gone n then { step with children := Table.erase r.id step.children } else step)
    (hrooted : Rooted (changed (x.program.threadAt (some r)) r.id none) y.program.rootOutcome
      x.program.finished) : Sound y none := by
  have hthreads : y.program.threadAt none = changed (x.program.threadAt (some r)) r.id none := by
    rw [hprogram]
    exact LiveProgram.threadAt_none (h.out r rfl).1
  constructor
  case threadsSorted => rw [hprogram]; exact h.threadsSorted
  case stepsSorted => exact hsorted
  case closuresSorted => rw [hprogram]; exact h.closuresSorted
  case out => exact fun _ hno => (by cases hno)
  case input => rw [hprogram]; exact h.input
  case links =>
    rw [hthreads, hsteps]
    exact h.links.retire (LiveProgram.threadAt_running _ r) hidle hgone
  case exports =>
    have hexports := h.exports.map_steps (f := fun n step =>
      if gone n then { step with children := Table.erase r.id step.children } else step)
      fun n step _ => by split <;> rfl
    rw [← hsteps] at hexports
    rw [hprogram] at hexports ⊢
    exact hexports
  case rooted =>
    rw [hthreads]
    rw [hprogram] at hrooted ⊢
    exact hrooted
  case threadNumber =>
    intro t other hother
    rw [hthreads] at hother
    rw [hxy.threads]
    obtain ⟨_, hold⟩ := changed_none_eq_some.mp hother
    exact h.threadNumber hold
  case stepNumber =>
    intro n step hstep
    rw [hsteps] at hstep
    obtain ⟨old, hold, -⟩ := Option.map_eq_some_iff.mp hstep
    exact Nat.lt_of_lt_of_le (h.stepNumber hold) hxy.nodes
  case bodyNumber =>
    intro t other n hother hruns
    rw [hthreads] at hother
    obtain ⟨_, hold⟩ := changed_none_eq_some.mp hother
    exact Nat.lt_of_lt_of_le (h.bodyNumber hold hruns) hxy.nodes
  -- a thread that is idle starts no step, so with it gone no cell changes its mode
  case cells =>
    intro n step hstep
    rw [hsteps] at hstep
    obtain ⟨old, hold, rfl⟩ := Option.map_eq_some_iff.mp hstep
    have hok := (h.cells hold).onward hxy
    have hmode := hok.mode.mpr (not_starting_of_idle hidle n)
    have hnew : CellOk y none (fun _ => False) n old.cell :=
      ⟨hok.unmarked, ⟨fun _ => not_starting_none n, fun _ => hmode⟩, hok.outcome, hok.bodies⟩
    split <;> exact hnew
  case lost => rw [hxy.lost]; exact h.lost

/-- The thread of the script ends, and its outcome is that of the script. -/
theorem rootEnded (h : Sound x (some r)) (hidle : r.step = none)
    (hroot : r.completions = [.root]) (outcome : Outcome) :
    Sound (x.mapProgram fun p => { p with rootOutcome := some outcome }) none := by
  have hgone : ∀ n, false = true ↔ r.RunsFor n := by
    refine fun n => ⟨fun hno => (by cases hno), fun ⟨index, branch, hmem⟩ => ?_⟩
    rw [hroot, List.mem_singleton] at hmem
    cases hmem
  refine h.retired hidle hgone (onward_mapProgram x _) rfl h.stepsSorted ?_ ?_
  · funext n
    exact Option.map_id'.symm
  · refine h.rooted.ended ⟨r, LiveProgram.threadAt_running _ r, ?_⟩ outcome
    rw [Thread.IsRoot, hroot]
    exact List.mem_cons_self

/-- The thread of a body ends, and its step is told. -/
theorem bodyThreadEnded (h : Sound x (some r)) (hidle : r.step = none) {node index : Nat}
    {branch : Option Branch} (hbody : r.completions = [.body node index branch]) :
    Sound (x.mapProgram (·.adjustStep node fun s =>
      { s with children := Table.erase r.id s.children })) none := by
  have hgone : ∀ n, (n == node) = true ↔ r.RunsFor n := by
    intro n
    rw [beq_iff_eq, Thread.RunsFor, hbody]
    simp
  refine h.retired hidle hgone (onward_mapProgram x _) rfl (h.stepsSorted.adjust _ _) ?_ ?_
  · rw [mapProgram, LiveProgram.stepAt_adjustStep]
    simp only [beq_iff_eq]
  · refine h.rooted.changed_other ?_ fun _ hno => (by cases hno)
    rintro ⟨thread, hthread, hroot⟩
    rw [LiveProgram.threadAt_running] at hthread
    cases hthread
    rw [Thread.IsRoot, hbody, List.mem_singleton] at hroot
    cases hroot

/-- **A thread ends.** -/
theorem endThread (h : Sound x (some r)) (hidle : r.step = none) (outcome : Outcome) :
    Sound (x.endThread r outcome) none := by
  obtain ⟨completion, hcompletion⟩ := h.links.single (LiveProgram.threadAt_running _ r)
  unfold Execution.endThread
  rw [hcompletion]
  cases completion with
  | root => exact h.rootEnded hidle hcompletion outcome
  | body node index branch =>
    have hidle := Steady.of_idle (h.bodyThreadEnded hidle hcompletion)
    exact ((hidle.closeBranch? node branch (failureOf? outcome)).endBody node index outcome).toSound

/-! ## A thread's turn -/

/-- **A thread is driven** until it waits, parks or ends. -/
theorem driveThread (h : Sound x (some r)) (hidle : r.step = none) (fuel : Nat) (input : Outcome) :
    Sound (driveThread fuel x r input) none := by
  induction fuel generalizing x r input with
  | zero => exact h.putBack ⟨rfl, rfl, rfl⟩ hidle rfl
  | succ fuel ih =>
    have hgoes : ∀ machine, Sound x (some { r with machine }) := fun machine =>
      h.running_like ⟨rfl, rfl, rfl⟩ (h.out r rfl).2
    simp only [Execution.driveThread]
    split
    · exact h.putBack ⟨rfl, rfl, rfl⟩ hidle rfl
    · exact h.putBack ⟨rfl, rfl, rfl⟩ hidle rfl
    · next outcome machine _ => exact (hgoes machine).endThread hidle outcome
    · next request machine _ =>
      have hcall := (hgoes machine).startStep hidle request
      generalize x.startStep { r with machine } request = call at hcall ⊢
      unfold StepCall.Settled at hcall
      split
      · next hnone =>
        rw [hnone] at hcall
        exact hcall
      · next outcome hsome =>
        rw [hsome] at hcall
        exact ih hcall.1 hcall.2 outcome

/-- **A thread has its turn.** -/
theorem runThread (h : Sound x none) (id : Nat) : Sound (x.runThread id) none := by
  have hlast := h.ranLast (some id)
  unfold Execution.runThread
  dsimp only
  generalize x.mapProgram (fun p => { p with lastRun := some id }) = y at hlast ⊢
  split
  · exact hlast
  · next thread hthread =>
    split
    · exact hlast
    · next input hinput =>
      have hidle : thread.step = none := (hlast.input hthread).mp (by rw [hinput]; rfl)
      exact (hlast.takeOut hthread hidle).driveThread hidle stepLimit input

end Sound

end Execution

end DurableFlow
