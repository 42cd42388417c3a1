/-
An execution that sleeps.

Before its lane is opened, once it is suspended and after its end, an execution has no lane that serves
and no job that waits. Nothing runs then, and nothing that is queued is kept. Steps may still be told of
what they waited for, and their hooks and the host may ask for a few things beside the program: a line in
the log, an action beside a node, a script to remember, and, while the execution is not done, a note in
the record and the record saved. That is all, and the execution stays asleep.
-/
import DurableFlow.Proofs.Record.Operations

set_option autoImplicit false

namespace DurableFlow.Execution

open Script Text History

/-- **Nothing moves an execution**: no lane serves, and no job is left. -/
structure Asleep (x : Execution) : Prop where
  lane : x.lane ≠ .serving
  inbox : x.inbox = []

/-- **What happens to an execution that is asleep.** -/
inductive Stir (x : Execution) : Execution → Prop
  | aside {y : Execution} (h : Aside x y) : Stir x y
  | logged (line : String) : Stir x (x.log line)
  | attached (node : Nat) (actions : List Action) :
    Stir x { x with archive := (Archive.saveActions node actions).after x.archive }
  | remembered (name source : String) : Stir x (x.editRecord fun r =>
      { r with loadedScripts := Table.insert name source r.loadedScripts })
  | paused (on : Bool) (hopen : x.record.done = false) :
    Stir x { x with paused := on, record := { x.record with paused := on } }
  | interrupted (result : FlowResult) (causes : List Failure) (hopen : x.record.done = false) :
    Stir x (noteInterrupt result causes x)
  | saved (hopen : x.record.done = false) : Stir x (saveRecord.after x)

/-- **From one state to another, asleep** all the time. -/
inductive Dozes (x : Execution) : Execution → Prop
  | here (h : Asleep x) : Dozes x x
  | stirs {y z : Execution} (h : Dozes x y) (hstir : Stir y z) (hasleep : Asleep z) : Dozes x z

/-- Without a lane that serves, jobs are dropped. -/
theorem submit_of_lane {x : Execution} (h : x.lane ≠ .serving) (job : Job) : x.submit job = x := by
  unfold submit
  split
  · next hlane => exact absurd hlane h
  · rfl

namespace Dozes

variable {x y z : Execution}

/-- What dozes is asleep. -/
theorem asleep (h : Dozes x y) : Asleep y := by
  cases h with
  | here h => exact h
  | stirs _ _ hasleep => exact hasleep

theorem trans (hxy : Dozes x y) (hyz : Dozes y z) : Dozes x z := by
  induction hyz with
  | here _ => exact hxy
  | stirs _ hstir hasleep ih => exact ih.stirs hstir hasleep

/-- Something changes beside the record and the files, and beside the lane. -/
theorem aside (h : Dozes x y) (haside : Aside y z) (hlane : z.lane = y.lane) (hinbox : z.inbox = y.inbox) :
    Dozes x z :=
  h.stirs (.aside haside) ⟨hlane ▸ h.asleep.lane, hinbox.trans h.asleep.inbox⟩

/-! ## What steps are told -/

/-- A step that is told something does not wake the execution. -/
theorem adjustStep (h : Dozes x y) (node : Nat) (f : LiveStep → LiveStep) : Dozes x (y.adjustStep node f) := by
  unfold Execution.adjustStep
  split
  · exact h.aside ⟨rfl, rfl, rfl, rfl, rfl⟩ rfl rfl
  · exact h.aside ⟨rfl, rfl, rfl, rfl, rfl⟩ rfl rfl

theorem submit (h : Dozes x y) (job : Job) : Dozes x (y.submit job) := by
  rw [submit_of_lane h.asleep.lane]
  exact h

theorem alongCells (x : Execution) (node : Nat) : AlongCells (fun y z => Dozes x y → Dozes x z) node where
  refl _ h := h
  trans hyz hzw h := hzw (hyz h)
  submit _ job h := h.submit job
  cell _ _ h := h.adjustStep node _

/-- A job is refused where there is no lane. -/
theorem enqueue (h : Dozes x y) (job : Job) : Dozes x ((enqueue job).after y) := by
  have hrefused : (Execution.enqueue job).after y = y := after_requireLane h.asleep.lane _
  rw [hrefused]
  exact h

/-! ## What hooks and the host ask for -/

theorem logs (h : Dozes x y) (line : String) : Dozes x (y.log line) :=
  h.stirs (.logged line) ⟨h.asleep.lane, h.asleep.inbox⟩

/-- Saving the record wakes nobody. -/
theorem saves (h : Dozes x y) (hopen : y.record.done = false) : Dozes x (saveRecord.after y) :=
  h.stirs (.saved hopen) ⟨h.asleep.lane, h.asleep.inbox⟩

theorem pause (h : Dozes x y) (on : Bool) : Dozes x ((pause on).after y) := by
  cases hdone : y.record.done with
  | true =>
    have hrefused : (Execution.pause on).after y = y := by
      show (Attempt.andThen requireRunning _ y).2 = y
      simp only [Attempt.andThen, requireRunning, hdone, if_pos]
    rw [hrefused]
    exact h
  | false =>
    -- the record is saved only while the execution is not done
    let Open (z : Execution) : Prop := Dozes x z ∧ z.record.done = false
    have henqueues : ∀ {z : Execution} (job : Job), Open z → Open ((Execution.enqueue job).after z) := by
      intro z job hz
      have hrefused : (Execution.enqueue job).after z = z := after_requireLane hz.1.asleep.lane _
      rw [hrefused]
      exact hz
    have hsaves : ∀ {z : Execution}, Open z → Open (saveRecord.after z) := fun hz => ⟨hz.1.saves hz.2, hz.2⟩
    unfold Execution.pause
    refine And.left (b := _ = false) (Attempt.after_bind (P := Open) ⟨h, hdone⟩ fun _ z hz => ?_)
    refine Attempt.after_bind (P := Open) ⟨hz.1.stirs (.paused on hz.2) ⟨hz.1.asleep.lane, hz.1.asleep.inbox⟩, hz.2⟩
      fun _ z hz => ?_
    refine Attempt.after_bind (P := Open) hz fun lane z hz => ?_
    have hasked : Open ((if on then do
          Attempt.update (·.log "Pausing")
          Execution.enqueue .checkpoint
        else do
          Attempt.update (·.log "Resuming")
          saveRecord
          Execution.enqueue .run : Act Unit).after z) := by
      split
      · exact Attempt.after_bind (P := Open) ⟨hz.1.logs _, hz.2⟩ fun _ z hz => henqueues _ hz
      · refine Attempt.after_bind (P := Open) ⟨hz.1.logs _, hz.2⟩ fun _ z hz => ?_
        exact Attempt.after_bind (P := Open) (hsaves hz) fun _ z hz => henqueues _ hz
    cases lane with
    | absent => exact hsaves hz
    | closed => exact hasked
    | serving => exact hasked

/-- Without a lane there is nothing to be stopped. -/
theorem stopScope (h : Dozes x y) (scope : Option Nat) (cause : Failure) :
    Dozes x ((stopScope scope cause).after y) := by
  unfold Execution.stopScope
  refine Attempt.after_bind (P := (Dozes x ·)) h fun stage z hz => ?_
  cases stage with
  | loading => exact hz.aside ⟨rfl, rfl, rfl, rfl, rfl⟩ rfl rfl
  | created => exact hz.enqueue _
  | ready => exact hz.enqueue _
  | finished => exact hz.enqueue _

/-- An interrupt is noted in the record, and reaches no step. -/
theorem interrupt (h : Dozes x y) (result : FlowResult) (causes : List Failure) :
    Dozes x ((interrupt result causes).after y) := by
  cases hdone : y.record.done with
  | true =>
    rw [after_interrupt_of_done hdone]
    exact h
  | false =>
    have hnoted : Dozes x (noteInterrupt result causes y) :=
      h.stirs (.interrupted result causes hdone) ⟨h.asleep.lane, h.asleep.inbox⟩
    rw [after_interrupt_of_open hdone]
    exact Attempt.after_bind (P := (Dozes x ·)) (hnoted.logs _) fun _ z hz => hz.stopScope _ _

theorem cancelScope (h : Dozes x y) (node : Nat) (cause : Failure) :
    Dozes x ((cancelScope node cause).after y) := by
  unfold Execution.cancelScope
  refine Attempt.after_bind (P := (Dozes x ·)) h fun record z hz => ?_
  split
  · exact hz
  · exact hz.stopScope _ _

theorem addAction (h : Dozes x y) (node : Nat) (action : Action) : Dozes x ((addAction node action).after y) := by
  refine Attempt.after_bind (P := (Dozes x ·)) h fun actions z hz => ?_
  exact hz.stirs (.attached node _) ⟨hz.asleep.lane, hz.asleep.inbox⟩

/-- **Whatever a hook asks for** leaves the execution asleep. -/
theorem alongHooks (x : Execution) (node : Nat) : AlongHooks (fun y z => Dozes x y → Dozes x z) node where
  toChains := (alongCells x node).toChains
  deliver := (alongCells x node).deliver
  queueBody := (alongCells x node).queueBody
  log _ line h := h.logs line
  addAction action _ h := h.addAction node action
  pause _ h := h.pause true
  interrupt result _ h := h.interrupt result []
  loaded _ name source h := h.stirs (.remembered name source) ⟨h.asleep.lane, h.asleep.inbox⟩
  bound _ _ _ h := h.aside ⟨rfl, rfl, rfl, rfl, rfl⟩ rfl rfl
  aside _ _ _ _ h := h.aside ⟨rfl, rfl, rfl, rfl, rfl⟩ rfl rfl

/-! ## What the clock and the host do -/

theorem alongHost (x : Execution) : AlongHost fun y z => Dozes x y → Dozes x z where
  toChains := (alongCells x 0).toChains
  hooks := alongHooks x
  aside _ _ _ _ _ h := h.aside ⟨rfl, rfl, rfl, rfl, rfl⟩ rfl rfl

/-- Suspended, an execution that is asleep is asleep. -/
theorem suspend (h : Dozes x y) : Dozes x y.suspend := by
  unfold Execution.suspend
  split
  · exact h
  · dsimp only
    split
    · exact h.aside ⟨rfl, rfl, rfl, rfl, rfl⟩ rfl rfl
    · exact h.stirs (.aside ⟨rfl, rfl, rfl, rfl, rfl⟩) ⟨fun hno => (by cases hno), h.asleep.inbox⟩
    · next hlane => exact absurd hlane h.asleep.lane

/-- **Whatever happens to an execution that is asleep**, but what only the lane does. -/
theorem happen (h : Dozes x y) {event : Event} (hlane : event.isOfLane = false) : Dozes x (y.happen event) := by
  cases event with
  | work => cases hlane
  | run thread => cases hlane
  | markStale => cases hlane
  | close advanced => cases hlane
  | submit job => exact h.submit job
  | effect node effect => exact (alongHooks x node).applyEffect y effect h
  | remember node memory => exact h.adjustStep node _
  | signal name outcome => exact (alongHost x).signal y name outcome h
  | fireTimers => exact (alongHost x).fireTimers y h
  | stopNext => exact (alongHost x).stopNext y h
  | pause on => exact h.pause on
  | interrupt result causes => exact h.interrupt result causes
  | cancelScope node cause => exact h.cancelScope node cause
  | checkpoint =>
    show Dozes x (checkpoint.after y)
    rw [refused_checkpoint h.asleep.lane]
    exact h
  | suspend => exact h.suspend
  | pass now clock => exact h.aside ⟨rfl, rfl, rfl, rfl, rfl⟩ rfl rfl

/-- By itself, an execution that is asleep tells steps of the time and carries out orders to stop. -/
theorem progress (h : Dozes x y) : Dozes x (y.progress.getD y) := by
  unfold Execution.progress
  simp only [h.asleep.inbox, List.isEmpty_nil, Bool.not_true, Bool.false_eq_true, if_false]
  split
  · exact (alongHost x).fireTimers y h
  · split
    · exact (alongHost x).stopNext y h
    · exact h

end Dozes

end DurableFlow.Execution
