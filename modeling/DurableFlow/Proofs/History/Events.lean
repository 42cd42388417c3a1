/-
Events keep an execution in order.

What the host and the clock do reaches steps from outside: a signal and a timer deliver to a
step that waits for it, a stop to a step that was found without a live child. None of these
steps has a body left, and this stays so until it is over, so the delivery is in order. All
else that happens writes records, checkpoints and the log, or is the turn of a thread or a
job that a step has queued.
-/
import DurableFlow.Proofs.History.Turns
import DurableFlow.Proofs.Scheduler.Events

set_option autoImplicit false

namespace DurableFlow

open Script History

namespace Execution

/-! ## What is to be stopped -/

/-- A step without a live child is not waiting for a body. -/
theorem over_of_childless {p : LiveProgram} (h : Links (p.threadAt none) p.stepAt) {n : Nat}
    {step : LiveStep} (hstep : p.stepAt n = some step) (hchildless : p.hasLiveChild step = false) :
    History.Over (p.posts none) n := by
  intro t post hpost hruns
  obtain ⟨thread, hthread, rfl⟩ := Option.map_eq_some_iff.mp hpost
  have hchild := (h.children hstep t).mpr ⟨thread, hthread, thread.post_runsFor hruns⟩
  have hlive : Table.contains t p.threads = true := by
    unfold Table.contains
    rw [show Table.find? t p.threads = some thread from hthread]
    rfl
  unfold LiveProgram.hasLiveChild at hchildless
  exact absurd hlive (List.any_eq_false.mp hchildless t (Table.mem_keys.mpr hchild))

/-- **The steps to stop** are live steps in the scope that no other step in it keeps. -/
theorem mem_targets {x : Execution} (hsorted : Table.Sorted x.program.steps)
    (h : Links (x.program.threadAt none) x.program.stepAt) {scope : Option Nat} {n : Nat} :
    n ∈ x.targets scope ↔ ∃ step, x.program.stepAt n = some step ∧
      inScope scope n (x.blocksAround n) = true ∧ x.isOuter step = false := by
  unfold targets chains
  rw [List.mem_reverse, List.mem_map]
  constructor
  · rintro ⟨chain, hchain, rfl⟩
    obtain ⟨hmem, hkept⟩ := List.mem_filter.mp hchain
    obtain ⟨step, hstep, rfl⟩ := List.mem_map.mp hmem
    obtain ⟨entry, hentry, rfl⟩ := List.mem_map.mp hstep
    have hlive : x.program.stepAt entry.1 = some entry.2 := hsorted.find?_of_mem hentry
    rw [Bool.and_eq_true, Bool.not_eq_true'] at hkept
    exact ⟨entry.2, (h.node hlive).symm ▸ hlive, hkept⟩
  · rintro ⟨step, hstep, hscope, hinner⟩
    have hnode := h.node hstep
    refine ⟨(step, x.blocksAround step.node), List.mem_filter.mpr ⟨?_, ?_⟩, hnode⟩
    · exact List.mem_map.mpr ⟨step, List.mem_map.mpr ⟨_, Table.mem_of_find? hstep, rfl⟩, rfl⟩
    · dsimp only
      rw [hnode, hscope, hinner]
      rfl

/-- Where threads stand is the same when those that wait for no step are told of a stop. -/
theorem places_injectIdle (x : Execution) (scope : Option Nat) (cause : Failure) :
    (x.injectIdle scope cause).program.places none = x.program.places none := by
  funext t
  let tell (thread : Thread) : Thread :=
    if x.isIdleIn scope thread then thread.inject cause else thread
  have hplace : Thread.place ∘ tell = Thread.place := by
    funext thread
    unfold tell
    dsimp only [Function.comp_apply]
    split <;> rfl
  show (Table.find? t (Table.mapValues tell x.program.threads)).map Thread.place = _
  rw [Table.find?_mapValues, Option.map_map, hplace]
  rfl

/-- Threads that wait for no step are told of a stop, and stay where they are. -/
theorem posts_injectIdle (x : Execution) (scope : Option Nat) (cause : Failure) :
    (x.injectIdle scope cause).program.posts none = x.program.posts none :=
  LiveProgram.posts_of_places (places_injectIdle x scope cause)

namespace Books

variable {I : Execution → Option Thread → List BodyTask → Prop}
  {tip : Execution → Nat → LiveStep → Option Nat} {asks : LiveStep → PendingBody → Prop}
  (B : Books I tip asks) {x y : Execution} {running : Option Thread} {tasks : List BodyTask} {node : Nat}

include B

theorem withJobs (h : I x running tasks) (jobs : List Job) : I (x.withJobs jobs) running tasks :=
  B.outside h rfl rfl rfl rfl fun _ hn =>
    .inl ((show SameWaits x (x.withJobs jobs) from ⟨rfl, rfl, rfl⟩).named hn)

/-! ## Stops -/

theorem injectIdle (h : I x none []) (scope : Option Nat) (cause : Failure) :
    I (x.injectIdle scope cause) none [] := B.reseat h (places_injectIdle x scope cause) rfl

/-- **A stop is ordered.** -/
theorem orderStop (h : I x none []) (hsorted : Table.Sorted x.program.steps)
    (hlinks : Links (x.program.threadAt none) x.program.stepAt) (scope : Option Nat)
    (cause : Failure) : I (x.orderStop scope cause) none [] := by
  refine B.outside (B.injectIdle h scope cause) rfl rfl rfl rfl fun n hn => ?_
  rcases hn with ⟨hmem, hnode⟩ | hholds | ⟨hmem, hnode⟩
  · exact .inl (.timer hmem hnode)
  · exact .inl (.waiter hholds)
  · rcases List.mem_append.mp hmem with hmem | hmem
    · exact .inl (.target hmem hnode)
    · rw [List.mem_singleton.mp hmem] at hnode
      -- a target has no threads of its own, so none of its bodies is left
      obtain ⟨step, hstep, _, hinner⟩ := (mem_targets hsorted hlinks).mp hnode
      unfold isOuter at hinner
      rw [Bool.or_eq_false_iff] at hinner
      have hbelow : n < x.record.nextNodeId := B.below h hstep
      refine .inr ⟨hbelow, ?_, rfl⟩
      rw [posts_injectIdle]
      exact over_of_childless hlinks hstep hinner.1

/-- **A step is stopped**: it stops at once, and is over. -/
theorem stopStep (h : I x running tasks) (hfree : Free x running tasks node) (cause : Failure) :
    I (x.stopStep node cause) running tasks := by
  unfold Execution.stopStep
  split
  · exact h
  · next step _ =>
    split
    · exact h
    · next d hd =>
      rw [stepDef?, (B.engine h).steps] at hd
      obtain ⟨hends, hreply⟩ := Step.stop_standard d (Step.mem_standard hd).2 (x.viewOf step) cause
      dsimp only
      rw [hreply]
      exact B.applyEnds h hfree hends

/-- **The next stop is carried out.** -/
theorem stopNext (h : I x running tasks) : I x.stopNext running tasks := by
  unfold Execution.stopNext
  split
  · exact h
  · next order rest hstopping =>
    -- fewer orders name nobody new
    have hless : ∀ stopping : List StopOrder,
        (∀ other ∈ stopping, ∀ n ∈ other.targets, ∃ old ∈ x.stopping, n ∈ old.targets) →
        I { x with stopping } running tasks := by
      intro stopping hold
      refine B.outside h rfl rfl rfl rfl fun n hn => .inl ?_
      rcases hn with ⟨hmem, hnode⟩ | hholds | ⟨hmem, hnode⟩
      · exact .timer hmem hnode
      · exact .waiter hholds
      · obtain ⟨old, hmem', hnode'⟩ := hold _ hmem n hnode
        exact .target hmem' hnode'
    split
    · refine hless rest fun other hmem n hn => ⟨other, ?_, hn⟩
      rw [hstopping]
      exact List.mem_cons_of_mem _ hmem
    · next node targets htargets =>
      have hfree := B.named h (.target (hstopping ▸ List.mem_cons_self) (htargets ▸ List.mem_cons_self))
      have hleft := hless ({ order with targets } :: rest) fun other hmem n hn => ?_
      · exact B.stopStep hleft ⟨hfree.below, hfree.spent, hfree.nothing⟩ _
      rcases List.mem_cons.mp hmem with rfl | hmem
      · refine ⟨order, hstopping ▸ List.mem_cons_self, ?_⟩
        rw [htargets]
        exact List.mem_cons_of_mem _ hn
      · exact ⟨other, hstopping ▸ List.mem_cons_of_mem _ hmem, hn⟩

end Books

/-! ## Jobs -/

namespace Works

variable {I : Execution → Option Thread → List BodyTask → Prop}
  {tip : Execution → Nat → LiveStep → Option Nat} {asks : LiveStep → PendingBody → Prop}
  (W : Works I tip asks) {x : Execution}

include W

/-- **A job is done.** -/
theorem handle (h : I x none []) (hsound : Sound x none) (job : Job) (rest : List Job) :
    I ((x.withJobs rest).handle job) none [] := by
  have hleft : I (x.withJobs rest) none [] := W.withJobs h rest
  cases job with
  | run => exact hleft
  | completeStep node =>
    show I ((x.withJobs rest).completeStep node) none []
    rw [completeStep_withJobs]
    exact W.withJobs (W.completeStep h hsound node fun _ => hsound.isAsync) rest
  | startBodies node => exact W.startBodies hleft node
  | checkpoint =>
    exact W.quiet hleft (Quiet.alongCheckpoints.saveCheckpoint _) (Light.alongCheckpoints.saveCheckpoint _)
  | stopTargets scope cause => exact W.orderStop hleft hsound.stepsSorted hsound.links scope cause

theorem work (h : I x none []) (hsound : Sound x none) : I x.work none [] := by
  unfold Execution.work
  split
  · exact h
  · exact W.handle h hsound _ _

end Works

/-! ## Whatever happens -/

/-- **Each event from outside keeps an invariant of turns**; what the end of a turn of the lane does
is for the invariant to say. -/
theorem Turnwise.happen {I : Execution → Option Thread → List BodyTask → Prop}
    {tip : Execution → Nat → LiveStep → Option Nat} {asks : LiveStep → PendingBody → Prop}
    (T : Turnwise I tip asks) {x : Execution} (h : I x none []) (hsound : Sound x none) {event : Event}
    (houtside : event.isOutside = true) (hclose : ∀ advanced, event ≠ .close advanced) :
    I (x.happen event) none [] := by
  have hquiet := Quiet.alongCheckpoints
  have hlight := Light.alongCheckpoints
  cases event with
  | close advanced => exact absurd rfl (hclose advanced)
  | effect node effect => cases houtside
  | remember node memory => cases houtside
  | work => exact T.work h hsound
  | run thread => exact T.runThread h hsound thread
  | markStale => exact T.quiet h (hquiet.markStale x) (hlight.markStale x)
  | submit job => exact T.quiet h (quiet_submit x job) (light_submit x job)
  | signal name outcome => exact T.signal h name outcome
  | fireTimers => exact T.fireTimers h
  | stopNext => exact T.stopNext h
  | pause on => exact T.light h (hquiet.pause on) (hlight.pause on)
  | interrupt result causes =>
    exact T.light h (hquiet.interrupt result causes) (hlight.interrupt result causes)
  | cancelScope node cause =>
    exact T.light h (hquiet.cancelScope node cause) (hlight.cancelScope node cause)
  | checkpoint => exact T.light h hquiet.checkpoint hlight.checkpoint
  | suspend => exact T.quiet h (hquiet.suspend x) (hlight.suspend x)
  | pass now clock =>
    refine T.outside h rfl rfl rfl rfl fun n hn => .inl ?_
    exact (show SameWaits x { x with now, clock } from ⟨rfl, rfl, rfl⟩).named hn

end Execution

end DurableFlow
