/-
Relations along operations.

An operation of an execution is put together of elementary ones: the record is edited, the archive is called,
jobs are queued. A relation between states that can be chained, and that holds along each of these, holds along
the whole operation. This is shown here once: for what writes the history, for what is asked of an execution, for
checkpoints, for what is done to the cell of a step and what its hooks ask for, for what the clock and the host do,
and for programs that go on after a reload. Of a relation it is left to show that it holds along what is elementary.
-/
import DurableFlow.Execution.Control
import DurableFlow.Proofs.Data.Attempts

set_option autoImplicit false

namespace DurableFlow

open Script History

/-- What can be done to a cell. -/
inductive StepCell.Turns (cell : StepCell) : StepCell → Prop
  | delivered (outcome : Outcome) : cell.Turns (cell.deliver outcome).1
  | queued (source : BodySource) (overrides : Scope) (branch : Option String) :
    cell.Turns (cell.queueBody source overrides branch).1
  | drained : cell.Turns cell.drainBodies.1
  | switched : cell.Turns cell.switchToAsync.1
  | taken : cell.Turns cell.take.1

namespace Execution

variable {α β : Type} {R : Execution → Execution → Prop} {x y : Execution}

/-- What is attempted leaves the state that it leaves. -/
theorem succeeds_state (act : Act Unit) (x : Execution) : (succeeds act x).2 = act.after x := by
  unfold succeeds Attempt.after
  split
  · next heq => rw [heq]
  · next heq => rw [heq]

/-- **A relation along an operation**: it holds between the states before and after, wherever the operation
begins. -/
def Along (R : Execution → Execution → Prop) (act : Act α) : Prop := ∀ x, R x (act.after x)

namespace Along

/-- A relation along an operation holds whatever its result is, also when it fails. -/
theorem leads {act : Act α} (h : Along R act) {result : EngineResult α} (heq : act x = (result, y)) : R x y := by
  have hx := h x
  rw [Attempt.after, heq] at hx
  exact hx

/-- It makes no difference whether the result is looked at. -/
theorem succeeds {act : Act Unit} (h : Along R act) (x : Execution) : R x (Execution.succeeds act x).2 := by
  rw [succeeds_state]
  exact h x

theorem update {f : Execution → Execution} (h : ∀ x, R x (f x)) : Along R (Attempt.update f) := h

/-- Both branches are looked at, whatever decides between them. -/
theorem ite {c : Prop} [Decidable c] {act act' : Act α} (h : Along R act) (h' : Along R act') :
    Along R (if c then act else act') := by
  split
  · exact h
  · exact h'

end Along

/-- **A relation that can be chained.** -/
structure Chains (R : Execution → Execution → Prop) : Prop where
  refl : ∀ x, R x x
  trans : ∀ {x y z}, R x y → R y z → R x z

namespace Chains

theorem pure (hR : Chains R) (a : α) : Along R (Pure.pure a : Act α) := hR.refl

theorem reading (hR : Chains R) (f : Execution → α) : Along R (Attempt.reading f : Act α) := hR.refl

theorem trying (hR : Chains R) (f : Execution → EngineResult α) : Along R (Attempt.trying f : Act α) := hR.refl

theorem failIf (hR : Chains R) (condition : Bool) (e : EngineError) : Along R (Attempt.failIf condition e) := by
  unfold Attempt.failIf
  exact .ite hR.refl hR.refl

/-- **Operations one after the other.** If the first one fails, the second one is not reached. -/
theorem bind (hR : Chains R) {act : Act α} {next : α → Act β} (hact : Along R act)
    (hnext : ∀ a, Along R (next a)) : Along R (act >>= next) := fun x =>
  Attempt.after_bind (P := R x) (hact x) fun a y hy => hR.trans hy (hnext a y)

theorem requireRunning (hR : Chains R) : Along R requireRunning := hR.refl

theorem requireHead (hR : Chains R) (head : Nat) : Along R (requireHead head) := by
  intro x
  unfold Attempt.after Execution.requireHead
  split
  · exact hR.refl x
  · exact hR.refl x

theorem requireLane (hR : Chains R) : Along R requireLane := by
  intro x
  unfold Attempt.after Execution.requireLane
  split
  · exact hR.refl x
  · exact hR.refl x
  · exact hR.refl x

end Chains

/-! ## Writing the history -/

/-- **A relation along what the history is written with.** -/
structure AlongWrites (R : Execution → Execution → Prop) : Prop extends Chains R where
  node : Along R allocateNode
  head : ∀ x : Execution, R x { x with record := x.record.allocateHead.2 }
  /-- The lines of the history end elsewhere, and other blocks are open. -/
  lines : ∀ (x : Execution) (heads : Table Nat Nat) (startNodes : List Nat),
    R x { x with record := { x.record with heads, startNodes } }
  start : ∀ (x : Execution) (id : Nat), R x { x with record := { x.record with flowStart := some id } }
  touch : ∀ x : Execution, R x { x with record := x.record.touch x.clock }
  store : ∀ (node : Node) (defer : Bool), Along R (onArchive (Archive.store node defer))
  autopersist : ∀ id, Along R (onArchive (Archive.autopersist id))
  actions : ∀ (id : Nat) (actions : List Action), Along R (onArchive (Archive.saveActions id actions))

namespace AlongWrites

variable (hR : AlongWrites R)

include hR

/-- Whether a node may wait is decided by the durability. -/
theorem storeNode (node : Node) : Along R (storeNode node) := fun x => hR.store node x.defers x

/-- The lines are moved, and the time of it is noted. -/
theorem moved {f : Record → Record}
    (h : ∀ r, ∃ heads startNodes, f r = { r with heads, startNodes }) : Along R (Attempt.update (editRecord f)) := by
  intro x
  obtain ⟨heads, startNodes, heq⟩ := h x.record
  show R x { x with record := (f x.record).touch x.clock }
  rw [heq]
  exact hR.trans (hR.lines x heads startNodes) (hR.touch _)

/-- **A node is appended**: its number is given out, it is stored, and the line ends at it. -/
theorem appendNode (head : Nat) (kind : NodeKind) (function displayName : String) :
    Along R (appendNode head kind function displayName) := by
  refine hR.bind hR.requireRunning fun _ => hR.bind (hR.requireHead head) fun parent => ?_
  refine hR.bind hR.node fun id => hR.bind (hR.reading _) fun now => ?_
  refine hR.bind (hR.storeNode _) fun _ => ?_
  exact hR.bind (hR.moved fun r => ⟨_, _, rfl⟩) fun _ => hR.pure _

/-- A line is forked: the new head has the tip of the old one. -/
theorem forkHead (head : Nat) : Along R (forkHead head) :=
  hR.bind (hR.requireHead head) fun _ x => hR.trans (hR.head x) (hR.lines _ _ _)

theorem dropHead (head : Nat) : Along R (dropHead head) := by
  refine hR.bind (hR.requireHead head) fun tip => ?_
  exact hR.bind (.update fun x => hR.lines x _ x.record.startNodes) fun _ => hR.pure _

/-- A node of something that failed is stored again with the failure. -/
theorem markFailed (node : Node) (error : Option Failure) : Along R (markFailed node error) := by
  cases error with
  | none => exact hR.pure _
  | some failure => exact hR.storeNode _

/-- What a block ends in is read off, without a change. -/
theorem endParents (head : Nat) (tips : List Nat) : Along R (endParents head tips) := by
  unfold Execution.endParents
  exact .ite (hR.bind (hR.requireHead head) fun _ => hR.pure _) (hR.pure _)

/-- **A block is closed**: its start may be marked, its end is stored, and the line ends there. -/
theorem closeBlock (head start : Nat) (tips : List Nat) (error : Option Failure) :
    Along R (closeBlock head start tips error) := by
  refine hR.bind hR.requireRunning fun _ => hR.bind (hR.endParents head tips) fun parents => ?_
  refine hR.bind (hR.trying _) fun startNode => hR.bind (hR.markFailed startNode error) fun _ => ?_
  refine hR.bind hR.node fun id => hR.bind (hR.reading _) fun now => ?_
  refine hR.bind (hR.storeNode _) fun _ => ?_
  -- both ends of the block are written, the start because it may have been marked
  refine hR.bind (hR.autopersist _) fun _ => hR.bind (hR.autopersist _) fun _ => ?_
  exact hR.bind (hR.moved fun r => ⟨_, _, rfl⟩) fun _ => hR.pure _

/-- The node of a step without a block has no end, so that only a failure is stored. -/
theorem closeAtom (node : Nat) (error : Option Failure) : Along R (closeAtom node error) := by
  unfold Execution.closeAtom
  refine .ite ?_ (hR.autopersist node)
  refine hR.bind (hR.trying _) fun stored => ?_
  exact hR.bind (hR.storeNode _) fun _ => hR.autopersist node

theorem addAction (node : Nat) (action : Action) : Along R (addAction node action) :=
  hR.bind (hR.trying _) fun _ => hR.actions node _

/-- The node of a step is closed as a block or as an atom. -/
theorem closeStepNode (step : LiveStep) (error : Option Failure) : Along R (closeStepNode step error) := by
  unfold Execution.closeStepNode
  exact .ite (hR.bind (hR.closeBlock _ _ _ _) fun _ => hR.pure _) (hR.closeAtom _ _)

/-- A body that wants a branch gets a head, and a node on it. -/
theorem openBranch? (head : Nat) (name : Option String) : Along R (openBranch? head name) := by
  cases name with
  | none => exact hR.pure _
  | some name =>
    refine hR.bind ?_ fun _ => hR.pure _
    refine hR.bind (hR.forkHead head) fun forked => ?_
    exact hR.bind (hR.appendNode _ _ _ _) fun _ => hR.pure _

/-- The block of a branch is closed before its head is given up. -/
theorem endBranch (branch : Branch) (error : Option Failure) : Along R (endBranch branch error) :=
  hR.bind (hR.closeBlock _ _ _ _) fun _ => hR.dropHead _

/-- The flow has its start already, or gets it now. -/
theorem ensureStart : Along R ensureStart := by
  refine hR.bind (hR.reading _) fun record => ?_
  cases record.flowStart with
  | some start => exact hR.pure _
  | none =>
    refine hR.bind hR.node fun id => hR.bind (hR.reading _) fun now => ?_
    refine hR.bind (hR.store _ _) fun _ => ?_
    exact hR.bind (.update fun x => hR.start x id) fun _ => hR.pure _

theorem lastHead : Along R lastHead := by
  intro x
  unfold Attempt.after Execution.lastHead
  split
  · exact hR.refl x
  · exact hR.head x

end AlongWrites

/-! ## Requests -/

/-- An execution that is done cannot be interrupted. -/
theorem after_interrupt_of_done (hdone : x.record.done = true) (result : FlowResult) (causes : List Failure) :
    (interrupt result causes).after x = x := by
  show ((if x.record.done = true then pure () else _ : Act Unit) x).2 = x
  rw [if_pos hdone]
  rfl

/-- Any other execution notes the interrupt and is stopped. -/
theorem after_interrupt_of_open (hopen : x.record.done = false) (result : FlowResult) (causes : List Failure) :
    (interrupt result causes).after x =
      (do
        Attempt.update (·.log ("Interrupted: " ++ (interruption result causes).text))
        stopScope none (interruption result causes) : Act Unit).after (noteInterrupt result causes x) := by
  show ((if x.record.done = true then pure () else _ : Act Unit) x).2 = _
  rw [if_neg (by rw [hopen]; exact Bool.false_ne_true)]
  rfl

/-- **A relation along what requests are made of.** -/
structure AlongRequests (R : Execution → Execution → Prop) : Prop extends Chains R where
  log : ∀ (x : Execution) (line : String), R x (x.log line)
  submit : ∀ (x : Execution) (job : Job), R x (x.submit job)
  touch : ∀ x : Execution, R x { x with record := x.record.touch x.clock }
  write : Along R writeRecord
  paused : ∀ (x : Execution) (on : Bool), R x { x with paused := on, record := { x.record with paused := on } }
  noted : ∀ {x : Execution} (result : FlowResult) (causes : List Failure), x.record.done = false →
    R x (noteInterrupt result causes x)
  /-- A program that is being loaded is given up. -/
  cancels : ∀ x : Execution, R x { x with loadCancelled := true }

namespace AlongRequests

variable (hR : AlongRequests R)

include hR

theorem saveRecord : Along R saveRecord := hR.bind (.update hR.touch) fun _ => hR.write

theorem enqueue (job : Job) : Along R (enqueue job) :=
  hR.bind hR.requireLane fun _ => .update fun x => hR.submit x job

/-- **An execution is paused or goes on.** Without a lane only the record is saved. -/
theorem pause (on : Bool) : Along R (pause on) := by
  refine hR.bind hR.requireRunning fun _ => hR.bind (.update fun x => hR.paused x on) fun _ => ?_
  refine hR.bind (hR.reading _) fun lane => ?_
  -- with a lane a checkpoint is asked for, or the threads are run
  have hon : Along R (if on then do
        Attempt.update (·.log "Pausing")
        Execution.enqueue .checkpoint
      else do
        Attempt.update (·.log "Resuming")
        Execution.saveRecord
        Execution.enqueue .run : Act Unit) := by
    refine .ite ?_ ?_
    · exact hR.bind (.update fun x => hR.log x _) fun _ => hR.enqueue _
    · refine hR.bind (.update fun x => hR.log x _) fun _ => ?_
      exact hR.bind hR.saveRecord fun _ => hR.enqueue _
  cases lane with
  | absent => exact hR.saveRecord
  | closed => exact hon
  | serving => exact hon

/-- **A scope is stopped** by a job, or by giving up a load. -/
theorem stopScope (scope : Option Nat) (cause : Failure) : Along R (stopScope scope cause) := by
  refine hR.bind (hR.reading _) fun stage => ?_
  cases stage with
  | loading => exact .update hR.cancels
  | created => exact hR.enqueue _
  | ready => exact hR.enqueue _
  | finished => exact hR.enqueue _

/-- **An execution is interrupted** once: it is noted and logged, and everything is stopped. -/
theorem interrupt (result : FlowResult) (causes : List Failure) : Along R (interrupt result causes) := by
  intro x
  cases hdone : x.record.done with
  | true =>
    rw [after_interrupt_of_done hdone]
    exact hR.refl x
  -- what has happened by then is more than one write, so that it is a part of its own
  | false =>
    rw [after_interrupt_of_open hdone]
    refine hR.trans (hR.noted result causes hdone) ?_
    exact hR.bind (.update fun x => hR.log x _) (fun _ => hR.stopScope _ _) _

/-- Nothing is stopped for a block when the execution is done. -/
theorem cancelScope (node : Nat) (cause : Failure) : Along R (cancelScope node cause) :=
  hR.bind (hR.reading _) fun _ => .ite (hR.pure _) (hR.stopScope _ _)

end AlongRequests

/-! ## Checkpoints -/

/-- **A relation along what checkpoints are made of.** -/
structure AlongCheckpoints (R : Execution → Execution → Prop) : Prop extends AlongRequests R where
  flush : Along R (onArchive Archive.flush)
  program : Along R saveProgram
  /-- The record says of itself that it is clean, or that it is not. -/
  marked : ∀ (x : Execution) (clean : Bool), R x (x.mapRecord fun r => { r with clean })
  halted : ∀ x : Execution, R x { x with halted := true }
  /-- The lane is given up. -/
  leaves : ∀ (x : Execution) (inbox : List Job), R x { x with lane := .absent, inbox }

namespace AlongCheckpoints

variable (hR : AlongCheckpoints R)

include hR

/-- A checkpoint is four writes, and a mark before the last one. -/
theorem saveCheckpoint (x : Execution) : R x x.saveCheckpoint.2 := by
  have hflushed := hR.flush.succeeds x
  have hsaved := hR.program.succeeds (succeeds (onArchive Archive.flush) x).2
  have hagain := hR.flush.succeeds (succeeds saveProgram (succeeds (onArchive Archive.flush) x).2).2
  refine hR.trans (hR.trans (hR.trans hflushed hsaved) hagain) ?_
  exact hR.trans (hR.marked _ _) (hR.saveRecord.succeeds _)

/-- When nothing is left to do, a checkpoint is made if the durability asks for it. -/
theorem whenIdle (x : Execution) : R x x.whenIdle := by
  unfold Execution.whenIdle
  split
  · exact hR.saveCheckpoint x
  · exact hR.refl x

/-- A record that says that it is clean is marked before anything changes. -/
theorem markStale (x : Execution) : R x x.markStale := by
  unfold Execution.markStale
  split
  · exact hR.refl x
  · exact hR.trans (hR.trans (hR.marked x false) (hR.touch _)) (hR.write _)

/-- A checkpoint that was asked for, with a job that tells of it. -/
theorem checkpoint : Along R checkpoint :=
  hR.bind hR.requireLane fun _ x => hR.trans (hR.saveCheckpoint x) (hR.submit _ _)

/-- **An execution is suspended**: a load is given up, or a checkpoint is made without a lane. -/
theorem suspend (x : Execution) : R x x.suspend := by
  unfold Execution.suspend
  split
  · exact hR.refl x
  · refine hR.trans (hR.halted x) ?_
    dsimp only
    split
    · exact hR.cancels _
    · exact hR.leaves _ x.inbox
    · exact hR.trans (hR.leaves _ []) (hR.saveCheckpoint _)

end AlongCheckpoints

/-! ## Cells -/

/-- A live step is found as one that was started. -/
theorem step?_of_find? {node : Nat} {step : LiveStep} (hstep : Table.find? node x.program.steps = some step) :
    x.step? node = some step := by
  unfold step?
  rw [hstep]

/-- **A relation along what is done to the cell of a step.** -/
structure AlongCells (R : Execution → Execution → Prop) (node : Nat) : Prop extends Chains R where
  submit : ∀ (x : Execution) (job : Job), R x (x.submit job)
  cell : ∀ {x : Execution} {step : LiveStep} {cell : StepCell}, x.step? node = some step →
    step.cell.Turns cell → R x (x.adjustStep node fun step => { step with cell })

namespace AlongCells

variable {node : Nat} (hR : AlongCells R node)

include hR

/-- What the cell asks for is queued. -/
theorem announced (h : R x y) (schedule : Bool) (job : Job) : R x (if schedule then y.submit job else y) := by
  split
  · exact hR.trans h (hR.submit y job)
  · exact h

/-- A step is told of its outcome, and this is announced. -/
theorem deliver (x : Execution) (outcome : Outcome) : R x (x.deliver node outcome) := by
  unfold Execution.deliver
  split
  · exact hR.refl x
  · next step hstep => exact hR.announced (hR.cell hstep (.delivered outcome)) _ _

/-- A body is queued with its step, and this is announced. -/
theorem queueBody (x : Execution) (source : BodySource) (overrides : Scope) (branch : Option String) :
    R x (x.queueBody node source overrides branch).2 := by
  unfold Execution.queueBody
  split
  · exact hR.refl x
  · next step hstep => exact hR.announced (hR.cell hstep (.queued source overrides branch)) _ _

theorem takeBodies (x : Execution) : R x (x.takeBodies node).2 := by
  unfold Execution.takeBodies
  split
  · exact hR.refl x
  · next step hstep => exact hR.cell (step?_of_find? hstep) .drained

end AlongCells

/-! ## Hooks -/

/-- **A relation along what the hooks of a step ask for.** -/
structure AlongHooks (R : Execution → Execution → Prop) (node : Nat) : Prop extends Chains R where
  deliver : ∀ (x : Execution) (outcome : Outcome), R x (x.deliver node outcome)
  queueBody : ∀ (x : Execution) (source : BodySource) (overrides : Scope) (branch : Option String),
    R x (x.queueBody node source overrides branch).2
  log : ∀ (x : Execution) (line : String), R x (x.log line)
  addAction : ∀ action, Along R (addAction node action)
  pause : Along R (pause true)
  interrupt : ∀ result, Along R (interrupt result [])
  loaded : ∀ (x : Execution) (name source : String),
    R x (x.editRecord fun r => { r with loadedScripts := Table.insert name source r.loadedScripts })
  bound : ∀ (x : Execution) (handle : Handle) (object : Val),
    R x { x with liveObjects := Table.insert handle object x.liveObjects }
  /-- What a step waits for, and what it has published. -/
  aside : ∀ (x : Execution) (timers : List Timer) (board : SignalBoard) (published : Table String Nat),
    R x { x with timers, board, published }

namespace AlongHooks

variable {node : Nat} (hR : AlongHooks R node)

include hR

/-- **Whatever a hook asks for.** -/
theorem applyEffect (x : Execution) (effect : StepEffect) : R x (x.applyEffect node effect) := by
  cases effect with
  | deliver outcome => exact hR.deliver x outcome
  | startBody source overrides branch => exact hR.queueBody x source overrides branch
  | log line => exact hR.log x line
  | attach action => exact hR.addAction action x
  | pause => exact hR.pause x
  | interrupt result => exact hR.interrupt result x
  | rememberScript name source => exact hR.loaded x name source
  | bind handle object => exact hR.bound x handle object
  | wakeAt time => exact hR.aside x _ x.board x.published
  | cancelWake => exact hR.aside x _ x.board x.published
  | listen name => exact hR.aside x x.timers _ x.published
  | unlisten name => exact hR.aside x x.timers _ x.published
  | publish name => exact hR.aside x x.timers x.board _

theorem applyEffects (x : Execution) (effects : List StepEffect) : R x (applyEffects node effects x) := by
  induction effects generalizing x with
  | nil => exact hR.refl x
  | cons effect rest ih => exact hR.trans (hR.applyEffect x effect) (ih _)

/-- What a hook answers is taken over, once the step has remembered what the hook left. -/
theorem react (reaction : StepReaction)
    (h : R x (x.adjustStep node fun step => { step with memory := reaction.memory })) :
    R x (x.react node reaction) :=
  hR.trans h (hR.applyEffects _ reaction.effects)

/-- **How a start ended**: a step that ended badly is told so, unless it has an outcome. -/
theorem acknowledge (x : Execution) (function : String) (reply : StartReply) :
    R x (x.acknowledge node function reply) := by
  unfold Execution.acknowledge
  split
  · exact hR.refl x
  · split
    · exact hR.refl x
    · exact hR.deliver x _
  · exact hR.deliver x _
  · exact hR.deliver x _

/-- What a relation along hooks leads to. -/
theorem imp {S : Execution → Execution → Prop} (hS : Chains S) (h : ∀ {x y}, R x y → S x y) : AlongHooks S node where
  toChains := hS
  deliver x outcome := h (hR.deliver x outcome)
  queueBody x source overrides branch := h (hR.queueBody x source overrides branch)
  log x line := h (hR.log x line)
  addAction action x := h (hR.addAction action x)
  pause x := h (hR.pause x)
  interrupt result x := h (hR.interrupt result x)
  loaded x name source := h (hR.loaded x name source)
  bound x handle object := h (hR.bound x handle object)
  aside x timers board published := h (hR.aside x timers board published)

end AlongHooks

/-! ## The clock and the host -/

/-- **A relation along what the clock and the host do.** -/
structure AlongHost (R : Execution → Execution → Prop) : Prop extends Chains R where
  hooks : ∀ node, AlongHooks R node
  /-- Time passes, and it is noted who waits and what is left to stop. -/
  aside : ∀ (x : Execution) (now : Nat) (timers : List Timer) (board : SignalBoard) (stopping : List StopOrder),
    R x { x with now, timers, board, stopping }

namespace AlongHost

variable (hR : AlongHost R)

include hR

/-- **Timers that are due** are taken off, and their steps are told. -/
theorem fireTimers (x : Execution) : R x x.fireTimers := by
  -- the timers were taken off together, and the steps are told one by one
  have hall : ∀ (due : List Timer) (y : Execution),
      R y (due.foldl (fun y timer => y.deliver timer.node (.ok .null)) y) := by
    intro due
    induction due with
    | nil => exact hR.refl
    | cons timer rest ih => exact fun y => hR.trans ((hR.hooks timer.node).deliver y _) (ih _)
  exact hR.trans (hR.aside x x.now _ x.board x.stopping) (hall _ _)

/-- A step that does not stop in time is given up: the time has passed, and timers were due meanwhile. -/
theorem stopOverdue (x : Execution) (node : Nat) (cause : Failure) : R x (x.stopOverdue node cause) := by
  let later : Execution := { x with now := x.now + x.engine.settings.stopTimeoutMs }
  have hfired : R x later.fireTimers := hR.trans (hR.aside x _ x.timers x.board x.stopping) (hR.fireTimers later)
  have hproblem : R x (later.fireTimers.deliverProblem node cause
      (stopTimeout node x.engine.settings.stopTimeoutMs)) := hR.trans hfired ((hR.hooks node).deliver _ _)
  exact hR.trans hproblem (hR.aside _ _ _ _ _)

/-- **A step is stopped**: what its hook asks for is done, and if it does not stop it is told why. -/
theorem stopStep (x : Execution) (node : Nat) (cause : Failure) : R x (x.stopStep node cause) := by
  unfold Execution.stopStep
  split
  · exact hR.refl x
  · next step _ =>
    split
    · exact hR.refl x
    · next d _ =>
      have hstopped := (hR.hooks node).applyEffects x (d.stop (x.viewOf step) cause).effects
      dsimp only
      -- the step stops, its hook fails or panics, or it does not stop in time
      split
      · exact hstopped
      · exact hR.trans hstopped ((hR.hooks node).deliver _ _)
      · exact hR.trans hstopped ((hR.hooks node).deliver _ _)
      · exact hR.trans hstopped (hR.stopOverdue _ node cause)

/-- The next step that is to be stopped is taken off the list. -/
theorem stopNext (x : Execution) : R x x.stopNext := by
  unfold Execution.stopNext
  split
  · exact hR.refl x
  · split
    · exact hR.aside x x.now x.timers x.board _
    · exact hR.trans (hR.aside x x.now x.timers x.board _) (hR.stopStep _ _ _)

/-- A signal takes its waiter off the board and tells the step. -/
theorem signal (x : Execution) (name : String) (outcome : Outcome) : R x (x.signal name outcome).2 := by
  unfold Execution.signal
  split
  · exact hR.refl x
  · exact hR.trans (hR.aside x x.now x.timers _ x.stopping) ((hR.hooks _).deliver _ outcome)

/-- What one other thread does is asked by a step, is a signal, or is the clock. -/
theorem interject (x : Execution) (interjection : Interjection) : R x (x.interject interjection) := by
  cases interjection with
  | asks node effect => exact (hR.hooks node).applyEffect x effect
  | signals name outcome => exact hR.signal x name outcome
  | timers => exact hR.fireTimers x

/-- **What comes from other threads** while a step is being started. -/
theorem meanwhile (x : Execution) (node : Nat) : R x (x.meanwhile node) := by
  have hall : ∀ (interjections : List Interjection) (y : Execution),
      R y (interjections.foldl Execution.interject y) := by
    intro interjections
    induction interjections with
    | nil => exact hR.refl
    | cons first rest ih => exact fun y => hR.trans (hR.interject y first) (ih _)
  exact hall _ x

end AlongHost

/-! ## Programs that go on -/

/-- The bodies of a restored step are announced. -/
def queueSaved (x : Execution) (saved : SavedStep) : Execution :=
  if saved.bodies.isEmpty then x else x.submit (.startBodies saved.node)

/-- An execution with a program that was put together again, before its steps are told of it. -/
def withProgram (x : Execution) (program : LiveProgram) : Execution :=
  { x with program, lane := .serving, inbox := [], loading := .none }

/-- **A relation along what a restored step is told.** -/
structure AlongRevival (R : Execution → Execution → Prop) (node : Nat) : Prop extends AlongHooks R node where
  submit : ∀ (x : Execution) (job : Job), R x (x.submit job)
  resumed : ∀ {x : Execution} {step : LiveStep} {d : StepDef}, Table.find? node x.program.steps = some step →
    x.stepDef? step.function = some d →
    R x (x.adjustStep node fun live => { live with memory := (d.onResume (x.viewOf step)).memory })

/-- **A restored step is told** that it runs again; its bodies are announced before that. -/
theorem AlongRevival.reviveStep {saved : SavedStep} (hR : AlongRevival R saved.node) (x : Execution) :
    R x (x.reviveStep saved) := by
  have hqueued : R x (x.queueSaved saved) := by
    unfold queueSaved
    split
    · exact hR.refl x
    · exact hR.submit x _
  unfold Execution.reviveStep
  -- the first thing that is done is named, so that it is not split together with the rest
  rw [← queueSaved]
  refine hR.trans hqueued ?_
  dsimp only
  split
  · exact hR.submit _ _
  · split
    · exact hR.refl _
    · next step hstep =>
      split
      · exact hR.refl _
      · next d hd => exact hR.react _ (hR.resumed hstep hd)

/-- **A program that was loaded goes on** from where it was put together. -/
theorem AlongRevival.revive (hR : ∀ node, AlongRevival R node)
    (hready : ∀ x : Execution, R x { x with stage := .ready }) (x : Execution) (saved : SavedProgram)
    (program : LiveProgram) :
    R (x.withProgram program) (x.revive saved program) := by
  -- the relations of all steps are the same one, so that they can be chained by any of them
  have hsteps : ∀ (steps : List SavedStep) (y : Execution), R y (steps.foldl Execution.reviveStep y) := by
    intro steps
    induction steps with
    | nil => exact (hR 0).refl
    | cons first rest ih => exact fun y => (hR 0).trans ((hR first.node).reviveStep y) (ih _)
  let ready : Execution :=
    { saved.steps.foldl Execution.reviveStep (x.withProgram program) with stage := .ready }
  have hall : R (x.withProgram program) ready :=
    (hR 0).trans (hsteps saved.steps (x.withProgram program)) (hready _)
  show R (x.withProgram program) (if ready.paused then ready else ready.submit .run)
  split
  · exact hall
  · exact (hR 0).trans hall ((hR 0).submit _ _)

end Execution

end DurableFlow
