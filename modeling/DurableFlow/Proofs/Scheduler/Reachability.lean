/-
Nothing is lost: the invariant in every state that an execution can come to.

Each event keeps the invariant of the scheduler, and so does a restart from what a
checkpoint has left, if its texts read as what they were written from. So in every state
that can be reached each thread has an input or waits for a live step that will answer it,
and no outcome finds its thread gone or busy.

There is one exception. A step that is being started has its queued bodies started first and
is made asynchronous after that. What another thread queues in between waits until the step is
told of something else, and nobody may tell it.
-/
import DurableFlow.Proofs.Record.Restarts

set_option autoImplicit false

namespace DurableFlow

open Script Text

namespace Execution

/-! ## Runs -/

/-- **The states that an execution can come to** after its program was started, through any events and
any number of restarts. A program that has not ended goes on when it is ready again. -/
inductive Reachable : Execution → Prop where
  | started {x : Execution} (fresh : x.Fresh) (program : Program Val) (head : Nat) :
    Reachable ((startProgram program head).after x)
  | happened {x : Execution} (event : Event) (h : Reachable x) : Reachable (x.happen event)
  | restarted {engine : Engine} {x y : Execution} (h : Reachable x) (unended : x.program.finished = false)
    (restarts : Restarts engine x y) (ready : y.stage = .ready) : Reachable y

/-- **A program that goes on after a restart** has the invariant of the one that was saved. -/
theorem Sound.restarted {engine : Engine} {x y : Execution} (h : Sound x none)
    (hopen : x.program.finished = false) (hrestarts : Restarts engine x y) (hready : y.stage = .ready) :
    Sound y none := by
  obtain ⟨w, program, hrereads, _, hrestores, rfl⟩ := hrestarts.ready hready
  -- the record was saved at the checkpoint, which gives out no numbers
  have hquiet := Quiet.alongCheckpoints.saveCheckpoint x
  refine h.revive hopen ?_ ?_ hrereads.lost hrestores
  · rw [hrereads.record]
    exact hquiet.nodes
  · rw [hrereads.record]
    exact Nat.le_of_eq hquiet.threads.symm

/-- **The invariant holds in every state that can be reached.** -/
theorem Reachable.sound {x : Execution} (h : Reachable x) : Sound x none := by
  induction h with
  | started fresh program head =>
    obtain ⟨thread, hbegun⟩ := begun_startProgram fresh program head
    exact hbegun.sound
  | happened event _ ih => exact ih.happen event
  | restarted _ unended restarts ready ih => exact ih.restarted unended restarts ready

theorem Reachable.turn {x : Execution} (h : Reachable x) : Reachable x.turn :=
  turn_of_events (fun _ event _ hx => hx.happened event) h

/-- **An execution that is let go on stays among the reachable states.** -/
theorem Reachable.rest {x : Execution} (h : Reachable x) (fuel : Nat) : Reachable (rest fuel x) :=
  rest_of_events (fun _ event _ hx => hx.happened event) h fuel

/-! ## Nothing is lost -/

/-- **A program in which no thread, step or outcome is lost.** -/
structure Intact (x : Execution) : Prop where
  /-- A thread waits for a step exactly if the step is live and names the thread. -/
  waits : ∀ t n,
    (∃ thread, Table.find? t x.program.threads = some thread ∧ thread.step = some n) ↔
      ∃ step, Table.find? n x.program.steps = some step ∧ step.thread = t
  /-- A thread can run exactly if it waits for no step. -/
  runnable : ∀ t thread, Table.find? t x.program.threads = some thread →
    (thread.isRunnable = true ↔ thread.step = none)
  /-- The children of a live step are the live threads that run its bodies. -/
  children : ∀ n step, Table.find? n x.program.steps = some step → ∀ t,
    Table.contains t step.children = true ↔
      ∃ thread, Table.find? t x.program.threads = some thread ∧ thread.RunsFor n
  /-- The exported blocks are those of the live steps. -/
  closures : ∀ handle, Table.contains handle x.program.closures = true ↔
    ∃ n step, Table.find? n x.program.steps = some step ∧ step.closure = some handle
  /-- Until the program is finished, the script has a thread or an outcome, and not both. -/
  root : x.program.finished = false →
    ((∃ t thread, Table.find? t x.program.threads = some thread ∧ thread.IsRoot) ↔
      x.program.rootOutcome = none)
  /-- Between two moves every live step is asynchronous. -/
  async : ∀ n step, Table.find? n x.program.steps = some step → step.cell.isAsync = true
  /-- An outcome that waits to be taken is announced. -/
  outcomes : x.lane = .serving → ∀ n step, Table.find? n x.program.steps = some step →
    step.cell.pending?.isSome = true → .completeStep n ∈ x.inbox
  /-- Bodies that wait to be started are announced, but for one that another thread has queued while the
  step was being started. -/
  bodies : x.lane = .serving → ∀ n step, Table.find? n x.program.steps = some step →
    x.engine.queuesLate n = false → step.cell.bodies ≠ [] → .startBodies n ∈ x.inbox
  /-- No outcome found its thread gone or busy. -/
  handedOver : x.lost = []
  /-- A program that is over has a result to end with. -/
  concluded : x.program.finished = false → x.program.isOver = true →
    x.program.rootOutcome.isSome = true

/-- **In every state that can be reached nothing is lost.** -/
theorem nothing_is_lost {x : Execution} (h : Reachable x) : Intact x := by
  have hsound := h.sound
  constructor
  case waits =>
    intro t n
    constructor
    · rintro ⟨thread, hthread, hwaits⟩
      exact hsound.links.waited hthread hwaits
    · rintro ⟨step, hstep, rfl⟩
      exact hsound.links.caller hstep
  case runnable => exact fun t thread hthread => hsound.input hthread
  case children => exact fun n step hstep => hsound.links.children hstep
  case closures => exact hsound.exports.mem
  case root => exact hsound.rooted.live
  case async => exact fun n step hstep => hsound.isAsync hstep
  case outcomes =>
    intro hlane n step hstep hpending
    have hsome : step.cell.outcome.isSome = true := by
      rw [StepCell.pending?] at hpending
      cases houtcome : step.cell.outcome with
      | none =>
        rw [houtcome] at hpending
        cases hpending
      | some outcome => rfl
    exact (hsound.cells hstep).outcome ⟨hlane, not_false⟩ (hsound.isAsync hstep) hsome
  case bodies =>
    intro hlane n step hstep honce hne
    exact (hsound.cells hstep).bodies honce ⟨hlane, not_false⟩ (hsound.isAsync hstep) hne
  case handedOver => exact hsound.lost
  case concluded =>
    intro hopen hover
    cases houtcome : x.program.rootOutcome with
    | some outcome => rfl
    | none =>
      -- without an outcome the thread of the script is there, and the program is not over
      obtain ⟨t, thread, hthread, _⟩ := (hsound.rooted.live hopen).mpr houtcome
      unfold LiveProgram.isOver at hover
      rw [Bool.and_eq_true, List.isEmpty_iff] at hover
      rw [LiveProgram.threadAt, hover.1] at hthread
      cases hthread

/-- A stage whose body waits: `stage("s") { wait_for_signal("go") }`. -/
def stageThatWaits : ParsedScript :=
  let wait : Expr := .call "wait_for_signal" [.str "go" {}] none {}
  { body := .eval (.call "stage" [.str "s" {}] (some (.eval wait {})) {}) {}, span := {} }

/-- An execution with the standard steps, before its program is started. -/
def beforeStage : Execution :=
  { engine := { steps := Step.standard }, name := "staged", archive := {}, clock := ⟨0⟩
    record := { id := "staged", scriptName := "staged", script := "", scriptHash := ""
                heads := [(1, 1)], nextNodeId := 2, nextHeadId := 2
                durability := .performanceOptimized, createdAt := ⟨0⟩, updatedAt := ⟨0⟩ } }

/-- The script was started, its thread called the stage, the thread of the stage's body called the
wait, and the signal came. -/
def signalled (program : Program Val) : Execution :=
  [.run 1, .run 2, .signal "go" (.ok .null)].foldl happen
    ((startProgram program 1).after beforeStage)

/-- Both threads wait, and the outcome of the inner step is announced. -/
theorem nothing_is_lost_signalled :
    ∃ program, compile "staged" stageThatWaits = .ok program ∧
      (Table.values (signalled program).program.threads).map Thread.step = [some 2, some 3] ∧
      (Table.values (signalled program).program.steps).map (·.cell.outcome.isSome) =
        [false, true] ∧
      Intact (signalled program) := by
  obtain ⟨program, hcompiled⟩ : ∃ program, compile "staged" stageThatWaits = .ok program := ⟨_, rfl⟩
  have hstarted : Reachable ((startProgram program 1).after beforeStage) :=
    .started ⟨rfl, rfl⟩ program 1
  refine ⟨program, hcompiled, ?_, ?_, nothing_is_lost ?_⟩
  · cases hcompiled
    rfl
  · cases hcompiled
    rfl
  · exact ((hstarted.happened (.run 1)).happened (.run 2)).happened (.signal "go" (.ok .null))

/-! ## Between two looks at a cell -/

/-- Another thread asks for one more body of the stage, when the first one was started and the stage is
not asynchronous yet. -/
def beforeInterjection : Execution :=
  let again : StepEffect := .startBody (.exported 1) [] none
  { beforeStage with engine := { beforeStage.engine with
      meanwhile := fun node => if node = 2 then [.asks 2 again] else [] } }

/-- The script is started, and the execution goes on until it rests. -/
def interjected (program : Program Val) : Execution :=
  rest 8 ((startProgram program 1).after beforeInterjection)

/-- **A body that is queued in between is stranded**: the execution rests, the stage is asynchronous, and one
of its bodies waits to be started without a job that would start it. -/
theorem body_is_stranded :
    ∃ program, compile "staged" stageThatWaits = .ok program ∧ Reachable (interjected program) ∧
      (interjected program).progress.isNone = true ∧
      (Table.values (interjected program).program.steps).map
        (fun step => (step.cell.isAsync, step.cell.bodies.length)) = [(true, 1), (true, 0)] := by
  obtain ⟨program, hcompiled⟩ : ∃ program, compile "staged" stageThatWaits = .ok program := ⟨_, rfl⟩
  have hstarted : Reachable ((startProgram program 1).after beforeInterjection) :=
    .started ⟨rfl, rfl⟩ program 1
  refine ⟨program, hcompiled, hstarted.rest 8, ?_, ?_⟩
  · cases hcompiled
    rfl
  · cases hcompiled
    rfl

end Execution

end DurableFlow
