/-
The scene of an execution, and what leaves it alone.

What the history needs to know of an execution is read off its archive, its record and its
program. Most of what an execution does changes nothing of it: outcomes are delivered,
actions are written, records are saved, requests are noted. Only the start of a step, the
start of a body and the end of a thread or of a step move on to another scene.
-/
import DurableFlow.Proofs.History.Archive
import DurableFlow.Proofs.History.Closing
import DurableFlow.Proofs.Scheduler.Running

set_option autoImplicit false

namespace DurableFlow

open Script History

/-- What a record knows of the history. -/
structure Index where
  flowStart : Option Nat
  startNodes : List Nat
  heads : Table Nat Nat
  nextNodeId : Nat
  nextHeadId : Nat
  done : Bool

def Record.index (r : Record) : Index where
  flowStart := r.flowStart
  startNodes := r.startNodes
  heads := r.heads
  nextNodeId := r.nextNodeId
  nextHeadId := r.nextHeadId
  done := r.done

/-- What the history needs to know of a thread. -/
def Thread.post (thread : Thread) : Post where
  head := thread.head
  step := thread.step
  completions := thread.completions

/-- What the history needs to know of a live step. -/
def LiveStep.seat (step : LiveStep) : Seat where
  thread := step.thread
  head := step.head
  isBlock := step.isBlock
  branchTips := step.branchTips

/-- A post tells which body its thread runs. -/
theorem Thread.post_runsFor {thread : Thread} {n : Nat} (h : thread.post.RunsFor n) :
    thread.RunsFor n := by
  obtain ⟨index, branch, hbody⟩ := h
  refine ⟨index, branch, ?_⟩
  rw [show thread.completions = [.body n index branch] from hbody]
  exact List.mem_singleton_self _

namespace LiveProgram

/-- The threads of a program as the history sees them. -/
def posts (p : LiveProgram) (running : Option Thread) : Nat → Option Post :=
  fun t => (p.threadAt running t).map Thread.post

/-- The live steps of a program as the history sees them. -/
def seats (p : LiveProgram) : Nat → Option Seat := fun n => (p.stepAt n).map LiveStep.seat

end LiveProgram

/-- What is changed at one place may be looked at through a function. -/
theorem changed_map {α β : Type} (g : α → β) (entries : Nat → Option α) (k : Nat) (value : Option α) :
    (fun n => (changed entries k value n).map g) =
      changed (fun n => (entries n).map g) k (value.map g) := by
  funext n
  unfold changed
  split <;> rfl

namespace Execution

/-- **The scene of an execution**, with the head of its script and the thread that is running. -/
def scene (x : Execution) (base : Nat) (running : Option Thread) : Scene where
  nodes := x.archive.shapes
  next := x.record.nextNodeId
  start := x.record.flowStart.getD 0
  tips := fun head => Table.find? head x.record.heads
  nextHead := x.record.nextHeadId
  opened := x.record.startNodes
  base := base
  posts := x.program.posts running
  seats := x.program.seats

/-! ## What does nothing to the history -/

/-- The record points at the same history, and the archive holds it. -/
structure Light (x y : Execution) : Prop where
  index : y.record.index = x.record.index
  archive : x.archive.Sane → Archive.Kept x.archive y.archive

namespace Light

theorem refl (x : Execution) : Light x x := ⟨rfl, fun h => h.kept⟩

theorem trans {x y z : Execution} (hxy : Light x y) (hyz : Light y z) : Light x z :=
  ⟨hyz.index.trans hxy.index, fun h => (hxy.archive h).trans (hyz.archive (hxy.archive h).sane)⟩

/-- Only the record is changed, and nothing of what it knows of the history. -/
theorem of_record {x y : Execution} (harchive : y.archive = x.archive)
    (hindex : y.record.index = x.record.index) : Light x y :=
  ⟨hindex, fun h => harchive ▸ h.kept⟩

end Light

/-- An operation that does nothing to the history. -/
def Lightly {α : Type} (act : Act α) : Prop := ∀ x, Light x (act x).2

/-- An edit of the record that leaves the index alone is light. -/
theorem light_mapRecord {f : Record → Record} (h : ∀ r, (f r).index = r.index) (x : Execution) :
    Light x (x.mapRecord f) := .of_record rfl (h x.record)

theorem light_log (x : Execution) (line : String) : Light x (x.log line) :=
  ⟨rfl, fun h => h.log line⟩

theorem light_submit (x : Execution) (job : Job) : Light x (x.submit job) := by
  unfold submit
  split
  · exact .of_record rfl rfl
  · exact .refl x

/-- **What is asked of an execution does nothing to the history**, and checkpoints only write what it holds. -/
theorem Light.alongCheckpoints : AlongCheckpoints Light where
  refl := .refl
  trans := .trans
  log := light_log
  submit := light_submit
  touch _ := .of_record rfl rfl
  write x := ⟨rfl, fun h => by
    obtain ⟨a', heq, hkept⟩ := h.saveRecord x.record
    show Archive.Kept x.archive (Archive.saveRecord x.record x.archive).2
    rw [heq]
    exact hkept⟩
  paused _ _ := .of_record rfl rfl
  noted _ _ _ := .of_record rfl rfl
  cancels _ := .of_record rfl rfl
  flush x := ⟨rfl, fun h => by
    obtain ⟨a', heq, hkept⟩ := h.flush
    show Archive.Kept x.archive (Archive.flush x.archive).2
    rw [heq]
    exact hkept⟩
  program x := ⟨rfl, fun h => by
    obtain ⟨a', heq, hkept⟩ := h.saveProgram (x.program.save x.engine.steps)
    show Archive.Kept x.archive (Archive.saveProgram _ x.archive).2
    rw [heq]
    exact hkept⟩
  marked _ _ := .of_record rfl rfl
  halted _ := .of_record rfl rfl
  leaves _ _ := .of_record rfl rfl

theorem lightly_addAction (node : Nat) (action : Action) : Lightly (addAction node action) := by
  have hR := Light.alongCheckpoints
  exact hR.bind (hR.trying _) fun _ x => ⟨rfl, fun h => h.saveActions node _⟩

/-! ## What leaves the scene alone -/

/-- **The scene is the same**, and so is the engine. -/
structure Still (x y : Execution) : Prop extends Light x y where
  engine : y.engine = x.engine
  posts : ∀ t, (Table.find? t y.program.threads).map Thread.post =
    (Table.find? t x.program.threads).map Thread.post
  seats : y.program.seats = x.program.seats

namespace Still

variable {x y z : Execution}

theorem refl (x : Execution) : Still x x := ⟨.refl x, rfl, fun _ => rfl, rfl⟩

theorem trans (hxy : Still x y) (hyz : Still y z) : Still x z where
  toLight := hxy.toLight.trans hyz.toLight
  engine := hyz.engine.trans hxy.engine
  posts t := (hyz.posts t).trans (hxy.posts t)
  seats := hyz.seats.trans hxy.seats

/-- What is quiet and does nothing to the history leaves the scene alone. -/
theorem of_quiet (hquiet : Quiet x y) (hlight : Light x y) : Still x y := by
  have hprogram := hquiet.program
  refine ⟨hlight, by rw [hquiet.rest], fun t => by rw [hprogram], by rw [hprogram]⟩

/-- What changes nothing in the history and no thread moves no post. -/
theorem postsAt (h : Still x y) (running : Option Thread) :
    y.program.posts running = x.program.posts running := by
  funext t
  cases running with
  | none => exact h.posts t
  -- the thread that runs stands in front of the one the program keeps under its number
  | some r =>
    have hposts : ∀ p : LiveProgram, p.posts (some r) t =
        changed (fun u => (Table.find? u p.threads).map Thread.post) r.id (some r.post) t :=
      fun p => congrFun (changed_map Thread.post (fun u => Table.find? u p.threads) r.id (some r)) t
    rw [hposts, hposts]
    unfold changed
    split
    · rfl
    · exact h.posts t

/-- **The scene that is left.** -/
theorem scene (h : Still x y) (hsane : x.archive.Sane) (base : Nat) (running : Option Thread) :
    y.scene base running = x.scene base running := by
  have hindex := h.index
  simp only [Record.index, Index.mk.injEq] at hindex
  obtain ⟨hstart, hopened, hheads, hnext, hnextHead, _⟩ := hindex
  unfold Execution.scene
  rw [(h.archive hsane).shapes, hstart, hopened, hheads, hnext, hnextHead, h.postsAt, h.seats]

end Still

/-! ### Steps that report -/

/-- **Only the cell and the memory of one step** are different. -/
structure Touch (x y : Execution) (node : Nat) : Prop where
  threads : y.program.threads = x.program.threads
  others : ∀ n, n ≠ node → y.program.stepAt n = x.program.stepAt n
  gone : x.program.stepAt node = none → y.program.stepAt node = none
  own : ∀ step, x.program.stepAt node = some step →
    ∃ cell memory, y.program.stepAt node = some { step with cell, memory }

namespace Touch

variable {x y z : Execution} {node : Nat}

theorem of_program (h : y.program = x.program) : Touch x y node := by
  refine ⟨by rw [h], fun n _ => by rw [h], fun hnone => by rw [h, hnone], fun step hstep => ?_⟩
  exact ⟨step.cell, step.memory, by rw [h, hstep]⟩

theorem refl (x : Execution) : Touch x x node := of_program rfl

theorem trans (hxy : Touch x y node) (hyz : Touch y z node) : Touch x z node where
  threads := hyz.threads.trans hxy.threads
  others n hn := (hyz.others n hn).trans (hxy.others n hn)
  gone hnone := hyz.gone (hxy.gone hnone)
  own step hstep := by
    obtain ⟨cell, memory, hy⟩ := hxy.own step hstep
    obtain ⟨cell', memory', hz⟩ := hyz.own _ hy
    exact ⟨cell', memory', hz⟩

/-- Seats do not tell cells and memories apart. -/
theorem seats (h : Touch x y node) : y.program.seats = x.program.seats := by
  funext n
  unfold LiveProgram.seats
  -- a seat does not show the cell and the memory, and only these of one step were changed
  by_cases hn : n = node
  · rw [hn]
    cases hstep : x.program.stepAt node with
    | none => rw [h.gone hstep]
    | some step =>
      obtain ⟨cell, memory, hy⟩ := h.own step hstep
      rw [hy]
      rfl
  · rw [h.others n hn]

theorem still (h : Touch x y node) (hlight : Light x y) (hengine : y.engine = x.engine) : Still x y :=
  ⟨hlight, hengine, fun t => by rw [h.threads], h.seats⟩

end Touch

/-- What is done to a step that was started, to its cell or its memory. -/
theorem touch_adjustStep (x : Execution) (node : Nat) {f : LiveStep → LiveStep}
    (hf : ∀ step, ∃ cell memory, f step = { step with cell, memory }) :
    Touch x (x.adjustStep node f) node ∧ Light x (x.adjustStep node f) ∧
      (x.adjustStep node f).engine = x.engine := by
  unfold adjustStep
  -- a step that is not in the program is not adjusted, and nothing changes
  split
  · refine ⟨⟨rfl, fun n hn => LiveProgram.stepAt_adjustStep_of_ne hn f, fun hnone => ?_,
      fun step hstep => ?_⟩, .of_record rfl rfl, rfl⟩
    · rw [mapProgram, LiveProgram.stepAt_adjustStep]
      dsimp only
      rw [hnone]
      rfl
    · obtain ⟨cell, memory, heq⟩ := hf step
      refine ⟨cell, memory, ?_⟩
      rw [mapProgram, LiveProgram.stepAt_adjustStep_of_live hstep, changed_self, heq]
  · exact ⟨.of_program rfl, .of_record rfl rfl, rfl⟩

/-- A step reports, or remembers: it is touched, and the scene is left alone. -/
structure Report (x y : Execution) (node : Nat) : Prop where
  touch : Touch x y node
  light : Light x y
  engine : y.engine = x.engine

namespace Report

variable {x y z : Execution} {node : Nat}

theorem refl (x : Execution) : Report x x node := ⟨.refl x, .refl x, rfl⟩

theorem trans (hxy : Report x y node) (hyz : Report y z node) : Report x z node :=
  ⟨hxy.touch.trans hyz.touch, hxy.light.trans hyz.light, hyz.engine.trans hxy.engine⟩

theorem still (h : Report x y node) : Still x y := h.touch.still h.light h.engine

theorem of_quiet (hquiet : Quiet x y) (hlight : Light x y) : Report x y node :=
  ⟨.of_program hquiet.program, hlight, by rw [hquiet.rest]⟩

theorem adjustStep (x : Execution) (node : Nat) {f : LiveStep → LiveStep}
    (hf : ∀ step, ∃ cell memory, f step = { step with cell, memory }) :
    Report x (x.adjustStep node f) node :=
  ⟨(touch_adjustStep x node hf).1, (touch_adjustStep x node hf).2.1, (touch_adjustStep x node hf).2.2⟩

theorem submit (x : Execution) (job : Job) : Report x (x.submit job) node :=
  of_quiet (quiet_submit x job) (light_submit x job)

theorem alongCells (node : Nat) : AlongCells (fun x y => Report x y node) node where
  refl := refl
  trans := trans
  submit := submit
  cell _ _ := adjustStep _ node fun step => ⟨_, step.memory, rfl⟩

/-- **Whatever a hook asks for is a report of its step.** -/
theorem alongHooks (node : Nat) : AlongHooks (fun x y => Report x y node) node where
  toChains := (alongCells node).toChains
  deliver := (alongCells node).deliver
  queueBody := (alongCells node).queueBody
  log x line := of_quiet (quiet_log x line) (light_log x line)
  addAction action x := of_quiet (Quiet.alongWrites.addAction node action x) (lightly_addAction node action x)
  pause x := of_quiet (Quiet.alongCheckpoints.pause true x) (Light.alongCheckpoints.pause true x)
  interrupt result x :=
    of_quiet (Quiet.alongCheckpoints.interrupt result [] x) (Light.alongCheckpoints.interrupt result [] x)
  loaded _ _ _ := ⟨.of_program rfl, .of_record rfl rfl, rfl⟩
  bound _ _ _ := ⟨.of_program rfl, .of_record rfl rfl, rfl⟩
  aside _ _ _ _ := ⟨.of_program rfl, .of_record rfl rfl, rfl⟩

theorem react (x : Execution) (node : Nat) (reaction : StepReaction) :
    Report x (x.react node reaction) node :=
  (alongHooks node).react reaction (adjustStep x node fun step => ⟨step.cell, reaction.memory, rfl⟩)

end Report

end Execution

end DurableFlow
