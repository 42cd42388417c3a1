/-
What happens to an execution.

What happens to an execution is a sequence of events: jobs are done, threads have their
turns, steps deliver and queue bodies whenever they like, the host pauses, interrupts,
stops and suspends, time passes. A turn of the lane, and an execution that is let go on,
make such events and nothing else. A program begins with one thread, and each event keeps
the invariant of the scheduler.
-/
import DurableFlow.Proofs.Scheduler.Restoring
import DurableFlow.Step.Standard

set_option autoImplicit false

namespace DurableFlow

open Script Text

namespace Execution

/-! ## Events -/

/-- **What can happen to an execution** between two moves of its scheduler, in any order. -/
inductive Event where
  /-- The lane does its first job. -/
  | work
  /-- A thread has its turn. -/
  | run (thread : Nat)
  /-- What was saved is out of date. -/
  | markStale
  /-- A turn of the lane is over, in which a thread has run or not. -/
  | close (advanced : Bool)
  /-- Anybody queues a job. -/
  | submit (job : Job)
  /-- A step that was started, live or not, asks for something. -/
  | effect (node : Nat) (effect : StepEffect)
  /-- A step remembers something else. -/
  | remember (node : Nat) (memory : StepMemory)
  | signal (name : String) (outcome : Outcome)
  | fireTimers
  | stopNext
  | pause (on : Bool)
  | interrupt (result : FlowResult) (causes : List Failure)
  | cancelScope (node : Nat) (cause : Failure)
  | checkpoint
  | suspend
  /-- Time passes. -/
  | pass (now : Nat) (clock : Timestamp)

/-- What the lane, the clock and the host do. Steps act through their hooks only. -/
def Event.isOutside : Event → Bool
  | .effect _ _ => false
  | .remember _ _ => false
  | _ => true

/-- The lane does its first job. -/
def work (x : Execution) : Execution :=
  match x.inbox with
  | [] => x
  | job :: rest => (x.withJobs rest).handle job

/-- The state after an event. -/
def happen (x : Execution) : Event → Execution
  | .work => x.work
  | .run thread => x.runThread thread
  | .markStale => x.markStale
  | .close advanced => Turn.close { advanced, execution := x }
  | .submit job => x.submit job
  | .effect node effect => x.applyEffect node effect
  | .remember node memory => x.adjustStep node fun step => { step with memory }
  | .signal name outcome => (x.signal name outcome).2
  | .fireTimers => x.fireTimers
  | .stopNext => x.stopNext
  | .pause on => (Execution.pause on).after x
  | .interrupt result causes => (Execution.interrupt result causes).after x
  | .cancelScope node cause => (Execution.cancelScope node cause).after x
  | .checkpoint => Execution.checkpoint.after x
  | .suspend => x.suspend
  | .pass now clock => { x with now, clock }

/-- An execution in which nothing has run. -/
structure Fresh (x : Execution) : Prop where
  program : x.program = {}
  lost : x.lost = []

/-! ## The invariant along a run -/

/-- A program with one thread, which is that of the script and can run. -/
structure Begun (x : Execution) (thread : Thread) : Prop where
  program : x.program = ({} : LiveProgram).putThread thread
  idle : thread.step = none
  input : thread.input.isSome = true
  root : thread.completions = [.root]
  number : thread.id ≤ x.record.threadsCreated
  lost : x.lost = []

namespace Begun

variable {x y : Execution} {thread : Thread}

theorem quiet (h : Begun x thread) (hxy : Quiet x y) : Begun y thread := by
  refine ⟨hxy.program.trans h.program, h.idle, h.input, h.root, ?_, hxy.lost.trans h.lost⟩
  rw [hxy.threads]
  exact h.number

theorem sound (h : Begun x thread) : Sound x none := by
  have hthreads : x.program.threadAt none = changed (fun _ => none) thread.id (some thread) := by
    rw [h.program, LiveProgram.threadAt_putThread]
    rfl
  have hsteps : x.program.stepAt = fun _ => none := by
    rw [h.program]
    rfl
  constructor
  case threadsSorted => rw [h.program]; exact Table.Sorted.nil.insert _ _
  case stepsSorted => rw [h.program]; exact .nil
  case closuresSorted => rw [h.program]; exact .nil
  case out => exact fun _ hno => (by cases hno)
  case input =>
    intro t other hother
    replace hother : x.program.threadAt none t = some other := hother
    rw [hthreads] at hother
    obtain ⟨_, rfl⟩ := changed_only hother
    exact ⟨fun _ => h.idle, fun _ => h.input⟩
  case links =>
    rw [hthreads, hsteps]
    exact .ofRoot h.idle h.root
  case exports =>
    rw [hsteps, h.program]
    refine ⟨fun handle => ⟨fun hno => (by cases hno), fun ⟨_, _, hno, _⟩ => (by cases hno)⟩, ?_, ?_⟩
    · exact fun hno => (by cases hno)
    · exact fun hno => (by cases hno)
  -- the only thread is that of the script, which has not ended
  case rooted =>
    have hlive : RootAt (changed (fun _ => none) thread.id (some thread)) thread.id :=
      ⟨thread, changed_self _ _ _, by simp [Thread.IsRoot, h.root]⟩
    have honly : ∀ t, RootAt (changed (fun _ => none) thread.id (some thread)) t → t = thread.id := by
      rintro t ⟨other, hother, _⟩
      exact (changed_only hother).1
    rw [hthreads, h.program]
    refine ⟨fun _ => ⟨fun _ => rfl, fun _ => ⟨_, hlive⟩⟩, fun ht hu => ?_⟩
    exact (honly _ ht).trans (honly _ hu).symm
  case threadNumber =>
    intro t other hother
    rw [hthreads] at hother
    obtain ⟨rfl, _⟩ := changed_only hother
    exact h.number
  case stepNumber => rw [hsteps]; exact fun hno => (by cases hno)
  case bodyNumber =>
    intro t other n hother hruns
    rw [hthreads] at hother
    obtain ⟨_, rfl⟩ := changed_only hother
    obtain ⟨index, branch, hmem⟩ := hruns
    rw [h.root, List.mem_singleton] at hmem
    cases hmem
  case cells => rw [hsteps]; exact fun hno => (by cases hno)
  case lost => exact h.lost

end Begun

/-- **A program that was started** has one thread. -/
theorem begun_startProgram {x : Execution} (fresh : x.Fresh) (program : Program Val) (head : Nat) :
    ∃ thread, Begun ((startProgram program head).after x) thread := by
  let thread : Thread :=
    { id := x.record.threadsCreated + 1, head, completions := [.root], input := some (.ok .null)
      machine := Machine.ofProgram program x.engine.settings.safepointBudget }
  refine ⟨thread, Attempt.after_bind (P := (Begun · thread)) ?_ fun _ y hy => ?_⟩
  · refine ⟨?_, rfl, rfl, rfl, Nat.le_refl _, fresh.lost⟩
    show x.program.putThread thread = _
    rw [fresh.program]
  refine Attempt.after_bind (P := (Begun · thread)) (hy.quiet (Quietly.onArchive _ y)) fun _ y hy => ?_
  refine Attempt.after_bind (P := (Begun · thread)) (hy.quiet (Quiet.alongCheckpoints.saveRecord y)) fun _ y hy => ?_
  -- the lane is opened, and no step has to be announced
  have hopen : Begun { y with stage := .ready, lane := .serving } thread :=
    ⟨hy.program, hy.idle, hy.input, hy.root, hy.number, hy.lost⟩
  show Begun (if y.paused then { y with stage := .ready, lane := .serving }
    else submit { y with stage := .ready, lane := .serving } .run) thread
  split
  · exact hopen
  · exact hopen.quiet (quiet_submit _ _)

/-- **Each event keeps the invariant.** -/
theorem Sound.happen {x : Execution} (h : Sound x none) (event : Event) :
    Sound (x.happen event) none := by
  cases event with
  | work =>
    simp only [Execution.happen, Execution.work]
    split
    · exact h
    · next job rest hinbox => exact h.handle hinbox
  | run thread => exact h.runThread thread
  | markStale => exact h.quiet (Quiet.alongCheckpoints.markStale x)
  | close advanced => exact h.close advanced
  | submit job => exact h.quiet (quiet_submit x job)
  | effect node effect => exact (SoundBut.alongHooks none _ node).applyEffect x effect h
  | remember node memory => exact h.remember node memory
  | signal name outcome => exact (SoundBut.alongHost none _).signal x name outcome h
  | fireTimers => exact (SoundBut.alongHost none _).fireTimers x h
  | stopNext => exact (SoundBut.alongHost none _).stopNext x h
  | pause on => exact h.quiet (Quiet.alongCheckpoints.pause on x)
  | interrupt result causes => exact h.quiet (Quiet.alongCheckpoints.interrupt result causes x)
  | cancelScope node cause => exact h.quiet (Quiet.alongCheckpoints.cancelScope node cause x)
  | checkpoint => exact h.quiet (Quiet.alongCheckpoints.checkpoint x)
  | suspend => exact h.quiet (Quiet.alongCheckpoints.suspend x)
  | pass now clock => exact h.calm (.of_eq rfl rfl rfl rfl (Nat.le_refl _) rfl rfl)

/-! ## The scheduler makes these events -/

section Moves

variable {P : Execution → Prop}
  (hevent : ∀ x event, Event.isOutside event = true → P x → P (x.happen event))

include hevent

/-- **A turn of the lane** is a sequence of events. -/
theorem turn_of_events {x : Execution} (h : P x) : P x.turn := by
  have hmove : ∀ {t next : Turn}, P t.execution → t.move = some next → P next.execution := by
    intro t next ht hnext
    unfold Turn.move at hnext
    split at hnext
    · next job rest hinbox =>
      cases hnext
      have hworked := hevent _ .work rfl ht
      rw [happen, work, hinbox] at hworked
      exact hworked
    · split at hnext
      · cases hnext
      · split at hnext
        · cases hnext
        · next id _ =>
          cases hnext
          dsimp only
          split
          · exact hevent _ (.run id) rfl ht
          · exact hevent _ (.run id) rfl (hevent _ .markStale rfl ht)
  have hexhaust : ∀ (fuel : Nat) (t : Turn), P t.execution → P (Turn.exhaust fuel t).execution := by
    intro fuel
    induction fuel with
    | zero => exact fun t ht => ht
    | succ fuel ih =>
      intro t ht
      rw [Turn.exhaust]
      split
      · exact ht
      · next next hnext => exact ih next (hmove ht hnext)
  exact hevent _ (.close _) rfl (hexhaust moveLimit { execution := x } h)

/-- **An execution that is let go on** makes events only. -/
theorem rest_of_events {x : Execution} (h : P x) (fuel : Nat) : P (rest fuel x) := by
  induction fuel generalizing x with
  | zero => exact h
  | succ fuel ih =>
    rw [Execution.rest]
    split
    · exact h
    · next y hprogress =>
      refine ih ?_
      unfold progress at hprogress
      split at hprogress
      · cases hprogress
        exact turn_of_events hevent h
      · split at hprogress
        · cases hprogress
          exact hevent _ .fireTimers rfl h
        · split at hprogress
          · cases hprogress
            exact hevent _ .stopNext rfl h
          · cases hprogress

end Moves

end Execution

end DurableFlow
