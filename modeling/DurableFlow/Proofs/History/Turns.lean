/-
The turns of threads keep an execution in order.

A thread that ends takes its branch with it before its step is told, so the outcome of a
body is noted for a step that no longer counts the body's thread as running. A turn is a
sequence of step calls that are over at once, and then the thread waits, parks or ends.
-/
import DurableFlow.Proofs.History.Calls
import DurableFlow.Proofs.Scheduler.Lane

set_option autoImplicit false

namespace DurableFlow

open Script History

namespace Execution

/-! ## The end of a thread -/

/-- A thread that was taken out to run has no post among those of the program. -/
theorem posts_retired {x : Execution} {r : Thread} (h : Sound x (some r)) :
    x.program.posts none = changed (x.program.posts (some r)) r.id none := by
  exact posts_of_threadAt (LiveProgram.threadAt_none (h.out r rfl).1)

theorem posts_running (p : LiveProgram) (r : Thread) : p.posts (some r) r.id = some r.post :=
  congrArg (Option.map Thread.post) (LiveProgram.threadAt_running p r)

/-- A body whose thread is gone is the one that its step is told of next. -/
theorem Books.ready_ended {I : Execution → Option Thread → List BodyTask → Prop}
    {tip : Execution → Nat → LiveStep → Option Nat} {asks : LiveStep → PendingBody → Prop}
    (B : Books I tip asks) {x y : Execution} {r : Thread} {node index : Nat} {branch : Option Branch}
    {step : LiveStep} (h : I x (some r) []) (hbody : r.completions = [.body node index branch])
    (hstep : x.program.stepAt node = some step) (hledgers : y.program.ledgers = x.program.ledgers)
    (hposts : y.program.posts none = changed (x.program.posts (some r)) r.id none) :
    Ready y none [] node index := by
  have hself := posts_running x.program r
  have haccount := B.account h hstep
  refine ⟨fun {step'} hstep' => ?_, fun body hmem => absurd hmem List.not_mem_nil, ?_⟩
  · have hledger : x.program.ledgers node = some step'.ledger := by
      rw [← hledgers]
      exact LiveProgram.ledgers_of_stepAt hstep'
    rw [LiveProgram.ledgers_of_stepAt hstep] at hledger
    obtain ⟨hlt, hnew, _⟩ := haccount.runs hself hbody
    rw [← Option.some.inj hledger]
    exact ⟨hlt, hnew⟩
  · intro t post other hpost hsame
    rw [hposts] at hpost
    obtain ⟨hne, hold⟩ := changed_none_eq_some.mp hpost
    exact hne (haccount.alone hold hself hsame hbody)

namespace Going

variable {x y : Execution} {origin : Origin} {node index : Nat} {r : Thread} {branch : Option Branch}

/-- The step whose body a thread runs is live. -/
theorem running_for (h : Going x origin (some r) []) (hbody : r.completions = [.body node index branch]) :
    ∃ step, x.program.stepAt node = some step := by
  obtain ⟨seat, hseat, _⟩ := h.orderly.runs (posts_running x.program r) ⟨index, branch, hbody⟩
  obtain ⟨step, hstep, _⟩ := Option.map_eq_some_iff.mp hseat
  exact ⟨step, hstep⟩

/-- **A thread without a branch is gone.** -/
theorem endPlain (h : Going x origin (some r) []) (hsound : Sound x (some r)) (hidle : r.step = none)
    (hplain : ∀ m i b, r.completions ≠ [.body m i (some b)]) {program : LiveProgram}
    (hthreads : program.threads = x.program.threads) (hseats : program.seats = x.program.seats)
    (hledgers : program.ledgers = x.program.ledgers) (honto : Onto x { x with program }) :
    Going { x with program } origin none [] := by
  have hposts : program.posts none = changed (x.program.posts (some r)) r.id none := by
    rw [← posts_retired hsound]
    unfold LiveProgram.posts LiveProgram.threadAt
    rw [hthreads]
  have hscene : scene { x with program } origin.head none = (x.scene origin.head (some r)).endPlain r.id :=
    scene_eq rfl rfl rfl rfl rfl rfl rfl hposts hseats
  refine h.onto honto h.sane (.refl _) h.record ?_ (Nat.le_refl _) fun n _ hover hnothing => ⟨?_, hnothing⟩
  · rw [hscene, hledgers]
    exact h.orderly.endPlain (posts_running _ r) hidle hplain
  · intro t post hpost
    rw [hposts] at hpost
    obtain ⟨_, hold⟩ := changed_none_eq_some.mp hpost
    exact hover t post hold

/-- **A thread is gone together with its branch.** -/
theorem endBranch (h : Going x origin (some r) []) (hsound : Sound x (some r)) (hidle : r.step = none)
    {branch : Branch} (hbody : r.completions = [.body node index (some branch)])
    (hy : x.mapProgram (·.adjustStep node fun s =>
      { s with children := Table.erase r.id s.children }) = y) (error : Option Failure) :
    Going (y.closeBranch node branch error) origin none [] ∧
      (y.closeBranch node branch error).program.ledgers = x.program.ledgers ∧
      (y.closeBranch node branch error).program.posts none =
        changed (x.program.posts (some r)) r.id none := by
  have hself := posts_running x.program r
  obtain ⟨seat, hseat, hblock⟩ := h.orderly.runs hself ⟨index, _, hbody⟩
  obtain ⟨step, hstep, rfl⟩ := Option.map_eq_some_iff.mp hseat
  obtain ⟨tip, htip⟩ : ∃ tip, x.headTip branch.head = some tip := by
    rw [← h.orderly.head_of_branch hself hbody]
    exact h.orderly.head_present hself
  obtain ⟨first, hfirst⟩ : ∃ first, x.archive.shapes branch.start = some first := by
    obtain ⟨_, first, hfirst, _⟩ := (h.orderly.branch hself hbody).1.start
    exact ⟨first, hfirst⟩
  -- the step loses a child, and keeps the node at which the branch ends
  let lose (s : LiveStep) : LiveStep := { s with children := Table.erase r.id s.children }
  let keep (s : LiveStep) : LiveStep :=
    { s with branchTips := s.branchTips ++ [x.record.nextNodeId] }
  obtain ⟨archive, last, hclose, hsane, hshapes, hid, hkind, hparents⟩ :=
    endBranch_eq (x := x.mapProgram (·.adjustStep node lose)) branch h.sane h.record.unfinished htip hfirst
      (h.orderly.graph.own hfirst) error
  let program : LiveProgram := (x.program.adjustStep node lose).adjustStep node keep
  let record : Record := (unbranched x.record branch.head branch.start).touch x.clock
  have hz : y.closeBranch node branch error = { x with archive, record, program } := by
    rw [← hy]
    unfold Execution.closeBranch
    rw [hclose]
    rfl
  have hlost : (x.program.adjustStep node lose).stepAt =
      changed x.program.stepAt node (some (lose step)) := LiveProgram.stepAt_adjustStep_of_live hstep lose
  have hkept : (x.program.adjustStep node lose).stepAt node = some (lose step) := by
    rw [hlost, changed_self]
  have hstepAt : program.stepAt = changed x.program.stepAt node (some (keep (lose step))) := by
    rw [show program.stepAt = _ from LiveProgram.stepAt_adjustStep_of_live hkept keep, hlost, changed_changed]
  have hledgers : program.ledgers = x.program.ledgers :=
    (map_stepAt_adjust (f := keep) (g := LiveStep.ledger) fun _ => rfl).trans
      (map_stepAt_adjust (f := lose) (g := LiveStep.ledger) fun _ => rfl)
  have hposts : program.posts none = changed (x.program.posts (some r)) r.id none :=
    posts_retired hsound
  -- the head is put at the end of its branch before it is taken away
  have htips : (fun k => Table.find? k record.heads) =
      changed (fun k => Table.find? k x.record.heads) branch.head none := by
    show (fun k => Table.find? k (Table.erase _ (Table.insert _ _ x.record.heads))) = _
    rw [tips_erase (h.record.sorted.insert _ _), tips_insert, changed_changed]
  have hscene : scene { x with archive, record, program } origin.head none =
      (x.scene origin.head (some r)).endBranch r.id node branch step.seat last :=
    scene_eq hshapes rfl rfl htips rfl rfl rfl hposts (seats_of_stepAt hstepAt)
  have honto : Onto x { x with archive, record, program } := by
    refine ⟨⟨rfl, rfl, rfl⟩, rfl, fun {n step'} hstep' => ?_⟩
    replace hstep' : program.stepAt n = some step' := hstep'
    rw [hstepAt] at hstep'
    rcases changed_eq_some.mp hstep' with ⟨rfl, heq⟩ | ⟨_, hold⟩
    · cases heq
      exact ⟨step, hstep, rfl, rfl, rfl⟩
    · exact ⟨_, hold, rfl, rfl, rfl⟩
  have hsorted : Table.Sorted record.heads := (h.record.sorted.insert _ _).erase _
  have horderly : Orderly (scene { x with archive, record, program } origin.head none) program.ledgers
      (bodiesIn []) := by
    rw [hscene, hledgers]
    exact h.orderly.endBranch hself hidle hbody hseat hid hkind htip hparents
  rw [hz]
  refine ⟨?_, hledgers, hposts⟩
  refine h.onto honto hsane (h.extends_next hshapes)
    ⟨h.record.unfinished, h.record.started, hsorted⟩ horderly (Nat.le_succ _)
    fun n _ hover hnothing => ⟨fun t post hpost => ?_, hnothing⟩
  rw [show Execution.program _ = program from rfl, hposts] at hpost
  obtain ⟨_, hold⟩ := changed_none_eq_some.mp hpost
  exact hover t post hold

/-- **A thread ends**, and the step whose body it was is told. -/
theorem endThread (h : Going x origin (some r) []) (hsound : Sound x (some r)) (hidle : r.step = none)
    (outcome : Outcome) : Going (x.endThread r outcome) origin none [] := by
  obtain ⟨completion, hsingle⟩ := hsound.links.single (LiveProgram.threadAt_running _ r)
  unfold Execution.endThread
  rw [hsingle]
  cases completion with
  | root =>
    refine h.endPlain hsound hidle ?_ rfl rfl rfl ⟨⟨rfl, rfl, rfl⟩, rfl, fun hstep => ?_⟩
    · rw [hsingle]
      exact fun m i b hno => by cases hno
    · exact ⟨_, hstep, rfl, rfl, rfl⟩
  | body node index branch =>
    -- the step has lost its child when its branch is closed and it is told
    have hlost := hsound.bodyThreadEnded hidle hsingle
    obtain ⟨step, hstep⟩ := h.running_for hsingle
    have hsteady := (Steady.of_idle hlost).closeBranch? node branch (failureOf? outcome)
    cases branch with
    | none =>
      let lose (s : LiveStep) : LiveStep := { s with children := Table.erase r.id s.children }
      have hplain : ∀ m i b, r.completions ≠ [.body m i (some b)] := by
        rw [hsingle]
        exact fun m i b hno => by cases hno
      have hledgers : (x.program.adjustStep node lose).ledgers = x.program.ledgers :=
        map_stepAt_adjust (f := lose) (g := LiveStep.ledger) fun _ => rfl
      have hseats : (x.program.adjustStep node lose).seats = x.program.seats :=
        map_stepAt_adjust (f := lose) (g := LiveStep.seat) fun _ => rfl
      have honto : Onto x (x.mapProgram (·.adjustStep node lose)) := by
        refine ⟨⟨rfl, rfl, rfl⟩, rfl, fun hstep => ?_⟩
        obtain ⟨old, hold, rfl | rfl⟩ := LiveProgram.stepAt_adjustStep_cases hstep
        · exact ⟨_, hold, rfl, rfl, rfl⟩
        · exact ⟨_, hold, rfl, rfl, rfl⟩
      have hended : Going (x.mapProgram (·.adjustStep node lose)) origin none [] :=
        h.endPlain hsound hidle hplain rfl hseats hledgers honto
      have hposts : (x.program.adjustStep node lose).posts none =
          changed (x.program.posts (some r)) r.id none := posts_retired hsound
      have hready : Ready (x.mapProgram (·.adjustStep node lose)) none [] node index :=
        (books origin).ready_ended h hsingle hstep hledgers hposts
      exact (works origin).endBody hended hsteady hready outcome
    | some branch =>
      obtain ⟨hended, hledgers, hposts⟩ :=
        h.endBranch hsound hidle hsingle rfl (failureOf? outcome)
      have hready := (books origin).ready_ended h hsingle hstep hledgers hposts
      exact (works origin).endBody hended hsteady hready outcome

end Going

/-! ## A thread's turn -/

/-- **An invariant of turns**: it is kept by what a thread does to the steps that it calls, and by the
end of a thread. -/
structure Turnwise (I : Execution → Option Thread → List BodyTask → Prop)
    (tip : Execution → Nat → LiveStep → Option Nat) (asks : LiveStep → PendingBody → Prop) : Prop
    extends Works I tip asks where
  startStep : ∀ {x r}, I x (some r) [] → Sound x (some r) → r.step = none →
    ∀ request, (x.startStep r request).Keeps I
  endThread : ∀ {x r}, I x (some r) [] → Sound x (some r) → r.step = none →
    ∀ outcome, I (x.endThread r outcome) none []

theorem Going.turnwise (origin : Origin) :
    Turnwise (fun x running tasks => Going x origin running tasks)
      (fun x _ step => Table.find? step.head x.record.heads) fun _ _ => True where
  toWorks := works origin
  startStep h := h.startStep
  endThread h := h.endThread

namespace Turnwise

variable {I : Execution → Option Thread → List BodyTask → Prop}
  {tip : Execution → Nat → LiveStep → Option Nat} {asks : LiveStep → PendingBody → Prop}
  (T : Turnwise I tip asks) {x : Execution} {r : Thread}

include T

/-- The machine of the running thread goes on. -/
theorem machine (h : I x (some r) []) (machine : Machine) : I x (some { r with machine }) [] := by
  refine T.reseat h ?_ rfl
  rw [LiveProgram.places_some, LiveProgram.places_some]
  rfl

/-- **A thread is driven** until it waits, parks or ends. -/
theorem driveThread (h : I x (some r) []) (hsound : Sound x (some r)) (hidle : r.step = none)
    (fuel : Nat) (input : Outcome) : I (Execution.driveThread fuel x r input) none [] := by
  induction fuel generalizing x r input with
  | zero => exact T.putBack h rfl rfl
  | succ fuel ih =>
    have hsound' : ∀ machine, Sound x (some { r with machine }) := fun machine =>
      hsound.running_like ⟨rfl, rfl, rfl⟩ (hsound.out r rfl).2
    simp only [Execution.driveThread]
    split
    · exact T.putBack h rfl rfl
    · exact T.putBack h rfl rfl
    · next outcome machine _ => exact T.endThread (T.machine h machine) (hsound' machine) hidle outcome
    · next request machine _ =>
      have hcall := T.startStep (T.machine h machine) (hsound' machine) hidle request
      have hsettled := (hsound' machine).startStep hidle request
      generalize x.startStep { r with machine } request = call at hcall hsettled ⊢
      unfold StepCall.Keeps at hcall
      unfold StepCall.Settled at hsettled
      split
      · next hnone =>
        rw [hnone] at hcall
        exact hcall
      · next outcome hsome =>
        rw [hsome] at hcall hsettled
        exact ih hcall hsettled.1 hsettled.2 outcome

/-- A thread that can go on is taken out. -/
theorem takeOut (h : I x none []) (hsound : Sound x none) {id : Nat} {thread : Thread}
    (hthread : Table.find? id x.program.threads = some thread) :
    I (x.mapProgram (·.dropThread id)) (some { thread with input := none }) [] := by
  have hid : thread.id = id := hsound.links.id hthread
  have hplaces : (x.program.dropThread id).places (some { thread with input := none }) =
      changed (x.program.places none) id (some thread.place) := by
    unfold LiveProgram.places
    rw [Sound.threadAt_dropThread (r := { thread with input := none }) hsound.threadsSorted hid]
    exact changed_map Thread.place _ _ _
  refine T.reseat h (hplaces.trans (changed_eq_self ?_)) rfl
  exact congrArg (Option.map Thread.place) hthread

/-- **A thread has its turn.** -/
theorem runThread (h : I x none []) (hsound : Sound x none) (id : Nat) :
    I (x.runThread id) none [] := by
  have hlast : I (x.mapProgram fun p => { p with lastRun := some id }) none [] := T.reseat h rfl rfl
  have hsound' := hsound.ranLast (some id)
  unfold Execution.runThread
  dsimp only
  generalize x.mapProgram (fun p => { p with lastRun := some id }) = y at hlast hsound' ⊢
  split
  · exact hlast
  · next thread hthread =>
    split
    · exact hlast
    · next input hinput =>
      have hidle : thread.step = none := (hsound'.input hthread).mp (by rw [hinput]; rfl)
      exact T.driveThread (T.takeOut hlast hsound' hthread) (hsound'.takeOut hthread hidle) hidle
        stepLimit input

end Turnwise

end Execution

end DurableFlow
