/-
An execution in order.

The invariant of a running execution, as far as its history goes: its scene is in order, the
bodies of its steps are accounted for, and whatever may deliver to a step from outside names a
step that has no body left. It is told of the state between two tasks, with the tasks that
are still to be done and with the thread that is running.

Most operations change one part of the state only. What they need to keep the invariant is
said here once for each part: a step that reports, a record that is edited, a program that
goes on to another scene.
-/
import DurableFlow.Proofs.History.Ledger
import DurableFlow.Proofs.History.Scene
import DurableFlow.Proofs.Step.Standard

set_option autoImplicit false

namespace DurableFlow

open Script History

/-! ## The accounts of a program -/

/-- What is known of the bodies of a live step. -/
def LiveStep.ledger (step : LiveStep) : Ledger where
  width := if Step.branching step.function then step.args.length else if step.isBlock then 1 else 0
  branching := Step.branching step.function
  settled :=
    if Step.branching step.function then Table.keys (Step.outcomesOf step.memory) else []
  spent := step.cell.outcome.isSome
  narrow := by
    intro hplain
    simp only [hplain, Bool.false_eq_true, reduceIte]
    split <;> omega

theorem LiveStep.ledger_of_branching {step : LiveStep} (h : Step.branching step.function = true) :
    step.ledger.width = step.args.length ∧
      step.ledger.settled = Table.keys (Step.outcomesOf step.memory) := by
  unfold LiveStep.ledger
  exact ⟨if_pos h, if_pos h⟩

/-- What a step has reported and what it remembers, in its ledger. -/
theorem LiveStep.ledger_with (step : LiveStep) (cell : StepCell) (memory : StepMemory) :
    LiveStep.ledger { step with cell, memory } = { step.ledger with
      settled := if Step.branching step.function then Table.keys (Step.outcomesOf memory) else []
      spent := cell.outcome.isSome } := rfl

theorem LiveStep.ledger_settled (step : LiveStep) : step.ledger.settled =
    if Step.branching step.function then Table.keys (Step.outcomesOf step.memory) else [] := rfl

/-- A step with bodies has a block. -/
theorem LiveStep.block_of_width {step : LiveStep}
    (hknown : ∃ d, Step.standard.find? step.function = some d ∧ d.isBlock = step.isBlock)
    (hwidth : 0 < step.ledger.width) : step.isBlock = true := by
  obtain ⟨d, hd, hblock⟩ := hknown
  obtain ⟨hname, hmem⟩ := Step.mem_standard hd
  unfold LiveStep.ledger at hwidth
  dsimp only at hwidth
  split at hwidth
  · next hbranching =>
    rw [← hblock]
    exact Step.block_of_branching d hmem (hname ▸ hbranching)
  · split at hwidth
    · next hyes => exact hyes
    · exact absurd hwidth (Nat.lt_irrefl _)

def LiveProgram.ledgers (p : LiveProgram) : Nat → Option Ledger :=
  fun n => (p.stepAt n).map LiveStep.ledger

theorem LiveProgram.ledgers_of_stepAt {p : LiveProgram} {n : Nat} {step : LiveStep}
    (h : p.stepAt n = some step) : p.ledgers n = some step.ledger := congrArg (Option.map _) h

theorem LiveProgram.seats_of_stepAt {p : LiveProgram} {n : Nat} {step : LiveStep}
    (h : p.stepAt n = some step) : p.seats n = some step.seat := congrArg (Option.map _) h

/-! ## Where threads stand -/

/-- What a thread keeps while it is moved about: its post, and its contextual variables. -/
def Thread.place (thread : Thread) : Post × Scope := (thread.post, thread.vars)

/-- The places of the threads of a program, the one that is running among them. -/
def LiveProgram.places (p : LiveProgram) (running : Option Thread) : Nat → Option (Post × Scope) :=
  fun t => (p.threadAt running t).map Thread.place

theorem LiveProgram.posts_of_places {p q : LiveProgram} {running running' : Option Thread}
    (h : q.places running' = p.places running) : q.posts running' = p.posts running := by
  have hposts : ∀ (p : LiveProgram) running, p.posts running = fun t =>
      (p.places running t).map Prod.fst := by
    intro p running
    funext t
    unfold LiveProgram.posts LiveProgram.places
    rw [Option.map_map]
    rfl
  rw [hposts, hposts, h]

theorem LiveProgram.places_some (p : LiveProgram) (r : Thread) :
    p.places (some r) = changed (p.places none) r.id (some r.place) := changed_map Thread.place _ _ _

/-! ## Who is on a board -/

namespace SignalBoard

/-- A step waits in one of the queues. -/
def Holds (board : SignalBoard) (n : Nat) : Prop :=
  ∃ entry ∈ board.queues, ∃ waiter ∈ entry.2, waiter.node = n

theorem holds_queue {board : SignalBoard} {name : String} {waiter : Waiter}
    (h : waiter ∈ board.queue name) : board.Holds waiter.node := by
  unfold queue at h
  cases hfound : Table.find? name board.queues with
  | none =>
    rw [hfound] at h
    exact absurd h List.not_mem_nil
  | some waiters =>
    rw [hfound] at h
    exact ⟨_, Table.mem_of_find? hfound, waiter, h, rfl⟩

theorem holds_setQueue {board : SignalBoard} {name : String} {waiters : List Waiter} {n : Nat}
    (h : (board.setQueue name waiters).Holds n) :
    (∃ waiter ∈ waiters, waiter.node = n) ∨ board.Holds n := by
  obtain ⟨entry, hentry, waiter, hmem, hnode⟩ := h
  unfold setQueue at hentry
  dsimp only at hentry
  split at hentry
  · exact .inr ⟨entry, (Table.erase_sublist _ _).subset hentry, waiter, hmem, hnode⟩
  · rcases Table.mem_insert hentry with rfl | hold
    · exact .inl ⟨waiter, hmem, hnode⟩
    · exact .inr ⟨entry, hold, waiter, hmem, hnode⟩

theorem holds_register {board : SignalBoard} {name : String} {waiter : Waiter} {n : Nat}
    (h : (board.register name waiter).Holds n) : n = waiter.node ∨ board.Holds n := by
  unfold register at h
  dsimp only at h
  split at h
  · exact .inr h
  · rcases holds_setQueue h with ⟨other, hmem, rfl⟩ | hold
    · rcases List.mem_append.mp hmem with hmem | hmem
      · exact .inr (holds_queue hmem)
      · exact .inl (congrArg Waiter.node (List.mem_singleton.mp hmem))
    · exact .inr hold

theorem holds_remove {board : SignalBoard} {name : String} {node n : Nat}
    (h : (board.remove name node).Holds n) : board.Holds n := by
  rcases holds_setQueue h with ⟨waiter, hmem, rfl⟩ | hold
  · exact holds_queue (List.mem_of_mem_filter hmem)
  · exact hold

/-- The waiter that is taken was on the board, and so were those that are left. -/
theorem holds_take {board left : SignalBoard} {name : String} {waiter : Waiter}
    (h : board.take name = (some waiter, left)) :
    board.Holds waiter.node ∧ ∀ n, left.Holds n → board.Holds n := by
  unfold take at h
  split at h
  · cases h
  · next first rest hqueue =>
    cases h
    have hin : ∀ {other}, other ∈ waiter :: rest → board.Holds other.node := by
      intro other hmem
      exact holds_queue (hqueue ▸ hmem)
    refine ⟨hin List.mem_cons_self, fun n hn => ?_⟩
    rcases holds_setQueue hn with ⟨other, hmem, rfl⟩ | hold
    · exact hin (List.mem_cons_of_mem _ hmem)
    · exact hold

end SignalBoard

namespace Execution

/-- The body that a task is about to start for a step. -/
def BodyTask.bodyFor? (n : Nat) : BodyTask → Option PendingBody
  | .start m body => if m = n then some body else none
  | .conclude _ => none

/-- The bodies of a step that are to be started by tasks. -/
def bodiesIn (tasks : List BodyTask) (n : Nat) : List PendingBody :=
  tasks.filterMap (BodyTask.bodyFor? n)

theorem bodiesIn_conclude (m n : Nat) (tasks : List BodyTask) :
    bodiesIn (.conclude m :: tasks) n = bodiesIn tasks n := rfl

theorem bodiesIn_start (m n : Nat) (body : PendingBody) (tasks : List BodyTask) :
    bodiesIn (.start m body :: tasks) n =
      if n = m then body :: bodiesIn tasks n else bodiesIn tasks n := by
  unfold bodiesIn
  by_cases hm : n = m
  · rw [if_pos hm, List.filterMap_cons_some]
    exact if_pos hm.symm
  · rw [if_neg hm, List.filterMap_cons_none]
    exact if_neg (Ne.symm hm)

theorem bodiesIn_starts (m n : Nat) (bodies : List PendingBody) :
    bodiesIn (bodies.map (.start m)) n = if n = m then bodies else [] := by
  induction bodies with
  | nil => exact (ite_self _).symm
  | cons body rest ih =>
    rw [List.map_cons, bodiesIn_start, ih]
    split <;> rfl

/-! ## The invariant -/

/-- **A step is named** by something that may deliver to it later. -/
inductive Named (x : Execution) (n : Nat) : Prop where
  | timer {timer : Timer} (hmem : timer ∈ x.timers) (hnode : timer.node = n)
  | waiter (hholds : x.board.Holds n)
  | target {order : StopOrder} (hmem : order ∈ x.stopping) (hnode : n ∈ order.targets)

/-- Nobody is named when nothing from outside is waited for. -/
theorem not_named {x : Execution} (htimers : x.timers = []) (hboard : x.board = {})
    (hstopping : x.stopping = []) {n : Nat} : ¬ Named x n := by
  intro hn
  cases hn with
  | timer hmem _ =>
    rw [htimers] at hmem
    cases hmem
  | waiter hholds =>
    rw [hboard] at hholds
    obtain ⟨_, hno, _⟩ := hholds
    cases hno
  | target hmem _ =>
    rw [hstopping] at hmem
    cases hmem

/-- Whatever may deliver from outside is the same. -/
structure SameWaits (x y : Execution) : Prop where
  timers : y.timers = x.timers
  board : y.board = x.board
  stopping : y.stopping = x.stopping

namespace SameWaits

variable {x y z : Execution}

theorem refl (x : Execution) : SameWaits x x := ⟨rfl, rfl, rfl⟩

theorem trans (hxy : SameWaits x y) (hyz : SameWaits y z) : SameWaits x z :=
  ⟨hyz.timers.trans hxy.timers, hyz.board.trans hxy.board, hyz.stopping.trans hxy.stopping⟩

theorem of_quiet (h : Quiet x y) : SameWaits x y :=
  ⟨by rw [h.rest], by rw [h.rest], by rw [h.rest]⟩

theorem named (h : SameWaits x y) {n : Nat} (hn : Named y n) : Named x n := by
  cases hn with
  | timer hmem hnode => exact .timer (h.timers ▸ hmem) hnode
  | waiter hholds => exact .waiter (h.board ▸ hholds)
  | target hmem hnode => exact .target (h.stopping ▸ hmem) hnode

theorem submit (x : Execution) (job : Job) : SameWaits x (x.submit job) := of_quiet (quiet_submit x job)

theorem adjustStep (x : Execution) (node : Nat) (f : LiveStep → LiveStep) :
    SameWaits x (x.adjustStep node f) := by
  unfold Execution.adjustStep
  split <;> exact ⟨rfl, rfl, rfl⟩

theorem alongCells (node : Nat) : AlongCells SameWaits node where
  refl := refl
  trans := trans
  submit := submit
  cell _ _ := adjustStep _ node _

end SameWaits

/-- A number that was given out, of which no body runs or is to be started. -/
structure Free (x : Execution) (running : Option Thread) (tasks : List BodyTask) (n : Nat) : Prop where
  below : n < x.record.nextNodeId
  spent : History.Over (x.program.posts running) n
  nothing : bodiesIn tasks n = []

/-- A record of an execution that is going on. -/
structure Ongoing (r : Record) : Prop where
  unfinished : r.done = false
  started : r.flowStart.isSome = true
  sorted : Table.Sorted r.heads

/-- What a history goes on from: the head of its script, and nodes that it has for good. -/
structure Origin where
  head : Nat
  past : Nodes

/-- **The invariant of an execution that is going on**, with what it goes on from, the thread that
is running and the tasks that are left. -/
structure Going (x : Execution) (origin : Origin) (running : Option Thread) (tasks : List BodyTask) :
    Prop where
  sane : x.archive.Sane
  engine : x.engine.IsStandard
  record : Ongoing x.record
  past : Extends origin.past x.archive.shapes
  orderly : Orderly (x.scene origin.head running) x.program.ledgers (bodiesIn tasks)
  known : ∀ {n step}, x.program.stepAt n = some step →
    ∃ d, Step.standard.find? step.function = some d ∧ d.isBlock = step.isBlock
  drained : ∀ {n step}, x.program.stepAt n = some step → step.cell.bodies = []
  named : ∀ {n}, Named x n → Free x running tasks n

namespace Going

variable {x y : Execution} {origin : Origin} {running : Option Thread} {tasks tasks' : List BodyTask}

theorem account (h : Going x origin running tasks) {n : Nat} {step : LiveStep}
    (hstep : x.program.stepAt n = some step) :
    Account (x.program.posts running) n step.ledger (bodiesIn tasks n)
      (Table.find? step.head x.record.heads) :=
  h.orderly.account (LiveProgram.ledgers_of_stepAt hstep) (LiveProgram.seats_of_stepAt hstep)

/-- A node with the next number is added to the others. -/
theorem extends_next (h : Going x origin running tasks) {nodes : Nodes} {node : Node}
    (hnodes : nodes = changed x.archive.shapes x.record.nextNodeId (some node)) :
    Extends x.archive.shapes nodes := hnodes ▸ h.orderly.graph.extends_append node

theorem block (h : Going x origin running tasks) {n : Nat} {step : LiveStep}
    (hstep : x.program.stepAt n = some step) (hwidth : 0 < step.ledger.width) :
    step.isBlock = true :=
  h.orderly.seat_of_ledger (LiveProgram.ledgers_of_stepAt hstep) (LiveProgram.seats_of_stepAt hstep)
    hwidth

/-! ### What does nothing to the program -/

theorem ongoing_congr {r r' : Record} (h : Ongoing r) (hindex : r'.index = r.index) : Ongoing r' := by
  simp only [Record.index, Index.mk.injEq] at hindex
  obtain ⟨hstart, _, hheads, _, _, hdone⟩ := hindex
  refine ⟨hdone.trans h.unfinished, ?_, ?_⟩
  · rw [hstart]
    exact h.started
  · rw [hheads]
    exact h.sorted

theorem next_congr {r r' : Record} (hindex : r'.index = r.index) : r'.nextNodeId = r.nextNodeId :=
  congrArg Index.nextNodeId hindex

/-- **The invariant depends on the scene, on the steps and on who is named.** -/
theorem still (h : Going x origin running tasks) (hxy : Still x y)
    (hsteps : y.program.stepAt = x.program.stepAt)
    (hnamed : ∀ n, Named y n → Named x n ∨ Free x running tasks n) : Going y origin running tasks := by
  have hposts := hxy.postsAt running
  constructor
  case sane => exact (hxy.archive h.sane).sane
  case engine => exact hxy.engine ▸ h.engine
  case record => exact ongoing_congr h.record hxy.index
  case past => rw [(hxy.archive h.sane).shapes]; exact h.past
  case orderly =>
    have hledgers : y.program.ledgers = x.program.ledgers := by
      unfold LiveProgram.ledgers
      rw [hsteps]
    rw [hxy.scene h.sane, hledgers]
    exact h.orderly
  case known => rw [hsteps]; exact h.known
  case drained => rw [hsteps]; exact h.drained
  case named =>
    intro n hn
    obtain ⟨hbelow, hover, hnothing⟩ := (hnamed n hn).elim h.named id
    exact ⟨by rw [next_congr hxy.index]; exact hbelow, by rw [hposts]; exact hover, hnothing⟩

/-- Tasks that are never done are forgotten. -/
theorem forget (h : Going x origin running tasks)
    (htasks : ∀ n, (bodiesIn tasks' n).Sublist (bodiesIn tasks n)) : Going x origin running tasks' where
  sane := h.sane
  engine := h.engine
  record := h.record
  past := h.past
  orderly := h.orderly.forget htasks
  known := h.known
  drained := h.drained
  named := by
    intro n hn
    obtain ⟨hbelow, hover, hnothing⟩ := h.named hn
    have hsub := htasks n
    rw [hnothing] at hsub
    exact ⟨hbelow, hover, List.sublist_nil.mp hsub⟩

/-! ### A step that reports -/

/-- **The account of a step is written anew**, with the bodies that it asks for. -/
theorem recount (h : Going x origin running tasks) {node : Nat} {step step' : LiveStep}
    (hxy : Report x y node) (hold : x.program.stepAt node = some step)
    (hnew : y.program.stepAt node = some step')
    (htasks : ∀ m, m ≠ node → bodiesIn tasks' m = bodiesIn tasks m)
    (hbodies : step'.cell.bodies = [])
    (haccount : Account (x.program.posts running) node step'.ledger (bodiesIn tasks' node)
      (Table.find? step.head x.record.heads))
    (hnamed : ∀ n, Named y n → Free x running tasks' n) : Going y origin running tasks' := by
  have htouch := hxy.touch
  obtain ⟨cell, memory, hown⟩ := htouch.own step hold
  rw [hnew] at hown
  cases hown
  constructor
  case sane => exact (hxy.light.archive h.sane).sane
  case engine => exact hxy.engine ▸ h.engine
  case record => exact ongoing_congr h.record hxy.light.index
  case past => rw [(hxy.light.archive h.sane).shapes]; exact h.past
  case orderly =>
    -- a report touches one step, so one line of the ledgers is written anew
    have hledgers : y.program.ledgers =
        changed x.program.ledgers node (some (LiveStep.ledger { step with cell, memory })) := by
      funext n
      by_cases hn : n = node
      · rw [hn, changed_self, LiveProgram.ledgers_of_stepAt hnew]
      · rw [changed_of_ne _ _ hn]
        unfold LiveProgram.ledgers
        rw [htouch.others n hn]
    have hblock : 0 < step.ledger.width → step.isBlock = true := h.block hold
    rw [hxy.still.scene h.sane, hledgers]
    exact h.orderly.recount (LiveProgram.seats_of_stepAt hold) hblock htasks haccount
  case known =>
    intro n other hother
    by_cases hn : n = node
    · rw [hn, hnew] at hother
      cases hother
      have hknown := h.known hold
      exact hknown
    · rw [htouch.others n hn] at hother
      exact h.known hother
  case drained =>
    intro n other hother
    by_cases hn : n = node
    · rw [hn, hnew] at hother
      cases hother
      exact hbodies
    · rw [htouch.others n hn] at hother
      exact h.drained hother
  -- no thread is put anywhere by a report
  case named =>
    intro n hn
    obtain ⟨hbelow, hover, hnothing⟩ := hnamed n hn
    refine ⟨?_, ?_, hnothing⟩
    · rw [next_congr hxy.light.index]
      exact hbelow
    · rw [hxy.still.postsAt]
      exact hover

end Going

/-- The scene of an execution, part by part. -/
theorem scene_eq {x : Execution} {base : Nat} {running : Option Thread} {σ : Scene}
    (hnodes : x.archive.shapes = σ.nodes) (hnext : x.record.nextNodeId = σ.next)
    (hstart : x.record.flowStart.getD 0 = σ.start)
    (htips : (fun head => Table.find? head x.record.heads) = σ.tips)
    (hnextHead : x.record.nextHeadId = σ.nextHead) (hopened : x.record.startNodes = σ.opened)
    (hbase : base = σ.base) (hposts : x.program.posts running = σ.posts)
    (hseats : x.program.seats = σ.seats) : x.scene base running = σ := by
  cases σ
  subst hnodes hnext hstart htips hnextHead hopened hbase hposts hseats
  rfl

/-! ## Going on to another scene -/

/-- **Only scenes differ**: no step is new or reports, and nobody else is named. -/
structure Onto (x y : Execution) : Prop extends SameWaits x y where
  engine : y.engine = x.engine
  steps : ∀ {n step'}, y.program.stepAt n = some step' → ∃ step, x.program.stepAt n = some step ∧
    step'.function = step.function ∧ step'.isBlock = step.isBlock ∧ step'.cell = step.cell

namespace Onto

variable {x y z : Execution}

theorem trans (hxy : Onto x y) (hyz : Onto y z) : Onto x z where
  toSameWaits := hxy.toSameWaits.trans hyz.toSameWaits
  engine := hyz.engine.trans hxy.engine
  steps := by
    intro n step'' hstep''
    obtain ⟨step', hstep', hfunction', hblock', hcell'⟩ := hyz.steps hstep''
    obtain ⟨step, hstep, hfunction, hblock, hcell⟩ := hxy.steps hstep'
    exact ⟨step, hstep, hfunction'.trans hfunction, hblock'.trans hblock, hcell'.trans hcell⟩

theorem of_quiet (h : Quiet x y) : Onto x y where
  toSameWaits := .of_quiet h
  engine := by rw [h.rest]
  steps := by
    rw [h.program]
    exact fun hstep => ⟨_, hstep, rfl, rfl, rfl⟩

end Onto

/-- **The invariant in another scene.** -/
theorem Going.onto {x y : Execution} {origin : Origin} {running running' : Option Thread}
    {tasks tasks' : List BodyTask} (h : Going x origin running tasks) (hxy : Onto x y)
    (hsane : y.archive.Sane) (hext : Extends x.archive.shapes y.archive.shapes)
    (hrecord : Ongoing y.record)
    (horderly : Orderly (y.scene origin.head running') y.program.ledgers (bodiesIn tasks'))
    (hnext : x.record.nextNodeId ≤ y.record.nextNodeId)
    (hfree : ∀ n, n < x.record.nextNodeId → History.Over (x.program.posts running) n → bodiesIn tasks n = [] →
      History.Over (y.program.posts running') n ∧ bodiesIn tasks' n = []) : Going y origin running' tasks' where
  sane := hsane
  engine := hxy.engine ▸ h.engine
  record := hrecord
  past := h.past.trans hext
  orderly := horderly
  known := by
    intro n step' hstep'
    obtain ⟨step, hstep, hfunction, hblock, _⟩ := hxy.steps hstep'
    rw [hfunction, hblock]
    exact h.known hstep
  drained := by
    intro n step' hstep'
    obtain ⟨step, hstep, _, _, hcell⟩ := hxy.steps hstep'
    rw [hcell]
    exact h.drained hstep
  named := by
    intro n hn
    obtain ⟨hbelow, hover, hnothing⟩ := h.named (hxy.named hn)
    obtain ⟨hover', hnothing'⟩ := hfree n hbelow hover hnothing
    exact ⟨Nat.lt_of_lt_of_le hbelow hnext, hover', hnothing'⟩

/-- It does not matter where a thread is kept. -/
theorem Going.reseat {x : Execution} {origin : Origin} {running running' : Option Thread}
    {tasks : List BodyTask} (h : Going x origin running tasks) {program : LiveProgram}
    (hplaces : program.places running' = x.program.places running)
    (hsteps : program.stepAt = x.program.stepAt) : Going { x with program } origin running' tasks := by
  have hposts : program.posts running' = x.program.posts running := LiveProgram.posts_of_places hplaces
  have hscene : scene { x with program } origin.head running' = x.scene origin.head running :=
    scene_eq rfl rfl rfl rfl rfl rfl rfl hposts (by unfold LiveProgram.seats; rw [hsteps]; rfl)
  have hledgers : program.ledgers = x.program.ledgers := by
    unfold LiveProgram.ledgers
    rw [hsteps]
  have honto : Onto x { x with program } := by
    refine ⟨⟨rfl, rfl, rfl⟩, rfl, fun hstep => ?_⟩
    rw [hsteps] at hstep
    exact ⟨_, hstep, rfl, rfl, rfl⟩
  refine h.onto honto h.sane (.refl _) h.record ?_ (Nat.le_refl _) fun n _ hover hnothing => ⟨?_, hnothing⟩
  · rw [hscene, hledgers]
    exact h.orderly
  · rw [hposts]
    exact hover

/-! ## Invariants that keep the books -/

/-- **An invariant that keeps the books of all steps.** Every live step has an account, with the tip
that is told for it, and whoever may deliver from outside names a step without bodies. The invariant
is kept where threads and steps are left alone, where threads are moved about, and where a step
reports whose account is written anew; what is asked of the bodies that the step gets then is for the
invariant to say. -/
structure Books (I : Execution → Option Thread → List BodyTask → Prop)
    (tip : Execution → Nat → LiveStep → Option Nat) (asks : LiveStep → PendingBody → Prop) : Prop where
  engine : ∀ {x running tasks}, I x running tasks → x.engine.IsStandard
  known : ∀ {x running tasks n step}, I x running tasks → x.program.stepAt n = some step →
    ∃ d, Step.standard.find? step.function = some d ∧ d.isBlock = step.isBlock
  drained : ∀ {x running tasks n step}, I x running tasks → x.program.stepAt n = some step →
    step.cell.bodies = []
  below : ∀ {x running tasks n step}, I x running tasks → x.program.stepAt n = some step →
    n < x.record.nextNodeId
  account : ∀ {x running tasks n step}, I x running tasks → x.program.stepAt n = some step →
    Account (x.program.posts running) n step.ledger (bodiesIn tasks n) (tip x n step)
  named : ∀ {x running tasks n}, I x running tasks → Named x n → Free x running tasks n
  forget : ∀ {x running tasks tasks'}, I x running tasks →
    (∀ n, (bodiesIn tasks' n).Sublist (bodiesIn tasks n)) → I x running tasks'
  still : ∀ {x y running tasks}, I x running tasks → Still x y →
    y.program.threads = x.program.threads → y.program.stepAt = x.program.stepAt →
    (∀ n, Named y n → Named x n ∨ Free x running tasks n) → I y running tasks
  reseat : ∀ {x running running' tasks program}, I x running tasks →
    program.places running' = x.program.places running → program.stepAt = x.program.stepAt →
    I { x with program } running' tasks
  recount : ∀ {x y running tasks tasks' node step step'}, I x running tasks → Report x y node →
    x.program.stepAt node = some step → y.program.stepAt node = some step' →
    (∀ m, m ≠ node → bodiesIn tasks' m = bodiesIn tasks m) → step'.cell.bodies = [] →
    Account (x.program.posts running) node step'.ledger (bodiesIn tasks' node) (tip x node step) →
    (∀ body ∈ bodiesIn tasks' node, body ∈ bodiesIn tasks node ∨ asks step body) →
    (∀ n, Named y n → Free x running tasks' n) → I y running tasks'

namespace Books

variable {I : Execution → Option Thread → List BodyTask → Prop}
  {tip : Execution → Nat → LiveStep → Option Nat} {asks : LiveStep → PendingBody → Prop}
  (B : Books I tip asks) {x y : Execution} {running : Option Thread} {tasks tasks' : List BodyTask}

include B

/-- What is quiet and does nothing to the history. -/
theorem quiet (h : I x running tasks) (hxy : Quiet x y) (hlight : Light x y) : I y running tasks :=
  B.still h (.of_quiet hxy hlight) (by rw [hxy.program]) (by rw [hxy.program]) fun _ hn =>
    .inl ((SameWaits.of_quiet hxy).named hn)

theorem light (h : I x running tasks) {α : Type} {act : Act α} (hquiet : Quietly act)
    (hlight : Lightly act) : I (act.after x) running tasks :=
  B.quiet h (hquiet x) (hlight x)

/-- What has to do with neither program, record nor history may change. -/
theorem outside (h : I x running tasks) (hprogram : y.program = x.program)
    (harchive : y.archive = x.archive) (hrecord : y.record = x.record) (hengine : y.engine = x.engine)
    (hnamed : ∀ n, Named y n → Named x n ∨ Free x running tasks n) : I y running tasks := by
  refine B.still h ⟨.of_record harchive (by rw [hrecord]), hengine, fun t => ?_, ?_⟩ ?_ ?_ hnamed
  all_goals rw [hprogram]

/-- Which tasks are left counts only as far as they start bodies. -/
theorem retask (h : I x running tasks) (htasks : ∀ n, bodiesIn tasks' n = bodiesIn tasks n) :
    I x running tasks' :=
  B.forget h fun n => by rw [htasks n]

/-- A step without a block has no bodies that are left. -/
theorem free_of_atom (h : I x running tasks) {n : Nat} {step : LiveStep}
    (hstep : x.program.stepAt n = some step) (hatom : step.isBlock = false) :
    Free x running tasks n := by
  have hnarrow : step.ledger.width ≤ step.ledger.settled.length := by
    refine Nat.le_of_not_lt fun hlt => ?_
    rw [LiveStep.block_of_width (B.known h hstep) (Nat.zero_lt_of_lt hlt)] at hatom
    cases hatom
  obtain ⟨hnothing, hover⟩ := (B.account h hstep).nothing_left hnarrow
  exact ⟨B.below h hstep, hover, hnothing⟩

/-- **A step that reports** and asks for no bodies. -/
theorem report (h : I x running tasks) {node : Nat} (hxy : Report x y node)
    (hnamed : ∀ n, Named y n → Named x n ∨ Free x running tasks n)
    (hstep : ∀ {step step'}, x.program.stepAt node = some step → y.program.stepAt node = some step' →
      step'.cell.bodies = [] ∧ ∀ tip, Account (x.program.posts running) node step.ledger
          (bodiesIn tasks node) tip →
        Account (x.program.posts running) node step'.ledger (bodiesIn tasks node) tip) :
    I y running tasks := by
  have htouch := hxy.touch
  -- a step that is over does not report, so nothing changes then
  cases hold : x.program.stepAt node with
  | none =>
    refine B.still h hxy.still htouch.threads ?_ hnamed
    funext n
    by_cases hn : n = node
    · rw [hn, htouch.gone hold, hold]
    · rw [htouch.others n hn]
  | some step =>
    obtain ⟨cell, memory, hnew⟩ := htouch.own step hold
    obtain ⟨hbodies, haccount⟩ := hstep hold hnew
    exact B.recount h hxy hold hnew (fun _ _ => rfl) hbodies (haccount _ (B.account h hold))
      (fun _ hmem => .inl hmem) fun n hn => (hnamed n hn).elim (B.named h) id

end Books

/-- The books of a history in order, with the tips of the heads of steps. -/
theorem Going.books (origin : Origin) : Books (fun x running tasks => Going x origin running tasks)
    (fun x _ step => Table.find? step.head x.record.heads) fun _ _ => True where
  engine h := h.engine
  known h := h.known
  drained h := h.drained
  below h hstep := h.orderly.seat_below (LiveProgram.seats_of_stepAt hstep)
  account h := h.account
  named h := h.named
  forget h := h.forget
  still h hxy _ := h.still hxy
  reseat h := h.reseat
  recount h hxy hold hnew htasks hbodies haccount _ := h.recount hxy hold hnew htasks hbodies haccount

namespace Going

variable {x y : Execution} {origin : Origin} {running : Option Thread} {tasks tasks' : List BodyTask}

theorem quiet (h : Going x origin running tasks) (hxy : Quiet x y) (hlight : Light x y) :
    Going y origin running tasks := (books origin).quiet h hxy hlight

theorem light (h : Going x origin running tasks) {α : Type} {act : Act α} (hquiet : Quietly act)
    (hlight : Lightly act) : Going (act.after x) origin running tasks :=
  (books origin).light h hquiet hlight

theorem outside (h : Going x origin running tasks) (hprogram : y.program = x.program)
    (harchive : y.archive = x.archive) (hrecord : y.record = x.record) (hengine : y.engine = x.engine)
    (hnamed : ∀ n, Named y n → Named x n ∨ Free x running tasks n) : Going y origin running tasks :=
  (books origin).outside h hprogram harchive hrecord hengine hnamed

theorem retask (h : Going x origin running tasks)
    (htasks : ∀ n, bodiesIn tasks' n = bodiesIn tasks n) : Going x origin running tasks' :=
  (books origin).retask h htasks

end Going

end Execution

end DurableFlow
