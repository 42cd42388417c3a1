/-
The start of an execution.

A new execution has an archive without nodes. Its start writes the first node and opens the
first head at it. From there a script that compiles goes on with one thread, and a script that
does not ends the execution.
-/
import DurableFlow.Proofs.History.Ending

set_option autoImplicit false

namespace DurableFlow

open Script History

/-- What a record says before anything is written. -/
def Index.blank : Index where
  flowStart := none
  startNodes := []
  heads := []
  nextNodeId := 1
  nextHeadId := 1
  done := false

/-- What a record says when the first node is written. -/
def Index.opened : Index where
  flowStart := some 1
  startNodes := []
  heads := [(1, 1)]
  nextNodeId := 2
  nextHeadId := 2
  done := false

/-- **An archive in which no execution was yet**, and in which nothing stands in the way. -/
structure Archive.Blank (a : Archive) : Prop where
  accepts : ∀ call, a.refuse call = none
  tidy : a.tree.Tidy
  unwritten : Unwritten a.tree

theorem Archive.blank_empty : ({} : Archive).Blank := ⟨fun _ => rfl, FileTree.tidy_empty, ⟨fun _ => rfl, rfl⟩⟩

namespace Execution

/-- Nothing has run, and nobody is told of anything later. -/
structure Idle (x : Execution) : Prop where
  engine : x.engine.IsStandard
  program : x.program = {}
  timers : x.timers = []
  board : x.board = {}
  stopping : x.stopping = []
  lost : x.lost = []

theorem Idle.quiet {x y : Execution} (h : Idle x) (hxy : Quiet x y) : Idle y where
  engine := by rw [hxy.rest]; exact h.engine
  program := hxy.program.trans h.program
  timers := by rw [hxy.rest]; exact h.timers
  board := by rw [hxy.rest]; exact h.board
  stopping := by rw [hxy.rest]; exact h.stopping
  lost := hxy.lost.trans h.lost

/-- **An execution that was created** in an empty history. -/
structure Created (x : Execution) : Prop extends Idle x where
  sane : x.archive.Sane
  empty : ∀ id, x.archive.shapes id = none
  index : x.record.index = .blank

/-- **An execution whose history is open**: it has its first node and nothing else. -/
structure Opened (x : Execution) : Prop extends Idle x where
  sane : x.archive.Sane
  node : ∃ node, x.archive.shapes = changed (fun _ => none) 1 (some node) ∧ node.id = 1 ∧
    node.parents = [] ∧ node.kind = .flowStart
  index : x.record.index = .opened

theorem Opened.light {x y : Execution} (h : Opened x) (hquiet : Quiet x y) (hlight : Light x y) :
    Opened y where
  toIdle := h.toIdle.quiet hquiet
  sane := (hlight.archive h.sane).sane
  node := by
    rw [(hlight.archive h.sane).shapes]
    exact h.node
  index := hlight.index.trans h.index

/-- **What is created is empty.** -/
theorem created_of_create {engine : Engine} {name id script : String} {options : Options}
    {archive : Archive} {clock : Text.Timestamp} {now : Nat} {x : Execution}
    (hsteps : engine.IsStandard) (hblank : archive.Blank)
    (h : create engine name id script options archive clock now = .ok x) : Created x := by
  unfold create at h
  dsimp only at h
  split at h
  · cases h
  · next opened hopen =>
    cases h
    obtain ⟨hsane, hempty⟩ := Archive.openHistory_unwritten hblank.accepts hblank.tidy hblank.unwritten hopen
    exact ⟨⟨hsteps, rfl, rfl, rfl, rfl, rfl⟩, hsane, hempty, rfl⟩

/-- **The first node is written**, and the first head is at it. -/
theorem Created.writeStart {x : Execution} (h : Created x) :
    ∃ y, writeStart x = (.ok 1, y) ∧ Opened y := by
  have hindex := h.index
  simp only [Record.index, Index.blank, Index.mk.injEq] at hindex
  obtain ⟨hstart, hopened, hheads, hnext, hnextHead, hdone⟩ := hindex
  let node : Node := { id := 1, parents := [], kind := .flowStart, startedAt := x.clock }
  obtain ⟨archive, hstore, hsane, hshapes⟩ := h.sane.store node false
  let record : Record :=
    { x.record with nextHeadId := 2, nextNodeId := 2, flowStart := some 1, heads := [(1, 1)] }
  refine ⟨{ x with archive, record }, ?_, ?_⟩
  · unfold Execution.writeStart
    refine Attempt.bind_eq_of_ok (a := x.record.nextHeadId)
      (y := { x with record := x.record.allocateHead.2 }) rfl ?_
    refine Attempt.bind_eq_of_ok (a := x.record.nextNodeId)
      (y := { x with record := x.record.allocateHead.2.allocateNode.2 }) rfl ?_
    refine Attempt.bind_eq_of_ok (a := x.clock) rfl ?_
    rw [hnext, hnextHead]
    refine Attempt.bind_eq_of_ok (onArchive_eq hstore) ?_
    show ((.ok 1 : EngineResult Nat), _) = _
    simp only [Record.allocateHead, Record.allocateNode, hheads, hnext, hnextHead, record, mapRecord]
    rfl
  · refine ⟨⟨h.engine, h.program, h.timers, h.board, h.stopping, h.lost⟩, hsane, ⟨node, ?_, rfl, rfl, rfl⟩, ?_⟩
    · rw [hshapes]
      refine congrArg (fun nodes => changed nodes 1 (some node)) (funext h.empty)
    · simp only [Record.index, Index.opened, record, hopened, hdone]

/-! ## With a program -/

namespace Opened

variable {x : Execution}

/-- The first thread stands at the first node. -/
theorem going (h : Opened x) (machine : Machine) :
    Going { (x.addThread machine 1 [] .root (.ok .null)).2 with lane := .closed } ⟨1, fun _ => none⟩ none
      [] := by
  obtain ⟨node, hshapes, hid, hparents, hkind⟩ := h.node
  have hindex := h.index
  simp only [Record.index, Index.opened, Index.mk.injEq] at hindex
  obtain ⟨hstart, hopened, hheads, hnext, hnextHead, hdone⟩ := hindex
  let thread : Thread :=
    { id := x.record.threadsCreated + 1, machine, head := 1, completions := [.root], input := some (.ok .null) }
  let begun : Execution := { (x.addThread machine 1 [] .root (.ok .null)).2 with lane := .closed }
  have hprogram : begun.program = ({} : LiveProgram).putThread thread := by
    show x.program.putThread thread = _
    rw [h.program]
  have hsteps : begun.program.stepAt = fun _ => none := by
    rw [hprogram]
    rfl
  -- one node, one head and one thread, which is where every history begins
  have hscene : begun.scene 1 none = Scene.first 1 1 thread.id node := by
    refine scene_eq hshapes hnext ?_ ?_ hnextHead hopened rfl ?_ ?_
    · show x.record.flowStart.getD 0 = 1
      rw [hstart]
      rfl
    · show (fun head => Table.find? head x.record.heads) = _
      rw [hheads]
      exact tips_insert [] 1 1
    · rw [hprogram]
      exact posts_of_threadAt (LiveProgram.threadAt_putThread _ thread)
    · unfold LiveProgram.seats
      rw [hsteps]
      rfl
  constructor
  case sane => exact h.sane
  case engine => exact h.engine
  case record =>
    refine ⟨hdone, ?_, ?_⟩
    · show x.record.flowStart.isSome = true
      rw [hstart]
      rfl
    · show Table.Sorted x.record.heads
      rw [hheads]
      exact Table.Sorted.nil.insert 1 1
  case past => exact fun _ _ hno => (by cases hno)
  case orderly =>
    have hledgers : begun.program.ledgers = fun _ => none := by
      unfold LiveProgram.ledgers
      rw [hsteps]
      rfl
    show Orderly (begun.scene 1 none) begun.program.ledgers _
    rw [hscene, hledgers]
    refine { toGrown := .first hid hparents hkind, kept := ?_, seated := ?_, account := ?_, idle := ?_ }
    · exact fun hno => (by cases hno)
    · exact fun hno => (by cases hno)
    · exact fun hno => (by cases hno)
    · exact fun _ => rfl
  case known =>
    show ∀ {n step}, begun.program.stepAt n = some step → _
    rw [hsteps]
    exact fun hno => (by cases hno)
  case drained =>
    show ∀ {n step}, begun.program.stepAt n = some step → _
    rw [hsteps]
    exact fun hno => (by cases hno)
  case named => exact fun hn => (not_named (x := begun) h.timers h.board h.stopping hn).elim

/-- **A program is started** in order. -/
theorem startProgram (h : Opened x) (program : Program Val) :
    Going ((Execution.startProgram program 1).after x) ⟨1, fun _ => none⟩ none [] := by
  unfold Execution.startProgram
  refine Attempt.after_bind (P := fun y => Going y _ none []) ?_ fun _ y hy => ?_
  · exact h.going (Machine.ofProgram program x.engine.settings.safepointBudget)
  refine Attempt.after_bind (P := fun y => Going y _ none [])
    (hy.light (Quietly.onArchive Archive.flush) Light.alongCheckpoints.flush) fun _ y hy => ?_
  refine Attempt.after_bind (P := fun y => Going y _ none [])
    (hy.light Quiet.alongCheckpoints.saveRecord Light.alongCheckpoints.saveRecord) fun _ y hy => ?_
  let ready : Execution := { y with stage := .ready, lane := .serving }
  have hready : Going ready ⟨1, fun _ => none⟩ none [] := by
    refine hy.outside rfl rfl rfl rfl fun n hn => .inl ?_
    exact (show SameWaits y ready from ⟨rfl, rfl, rfl⟩).named hn
  show Going (if ready.paused then ready else ready.submit .run) _ none []
  split
  · exact hready
  · exact hready.quiet (quiet_submit _ _) (light_submit _ _)

/-! ## Without a program -/

theorem standing (h : Opened x) : Standing x := by
  obtain ⟨node, hshapes, hid, hparents, hkind⟩ := h.node
  have hindex := h.index
  simp only [Record.index, Index.opened, Index.mk.injEq] at hindex
  obtain ⟨hstart, _, hheads, hnext, _⟩ := hindex
  have hgrown : Grown (Scene.first 1 1 0 node) := .first hid hparents hkind
  have htip : ∀ {head tip}, (head, tip) ∈ x.record.heads →
      (Scene.first 1 1 0 node).tips head = some tip := by
    intro head tip hmem
    rw [hheads, List.mem_singleton] at hmem
    cases hmem
    exact changed_self (fun _ => none) 1 (some 1)
  constructor
  case sane => exact h.sane
  case graph =>
    refine ⟨1, hstart, ?_⟩
    rw [hshapes, hnext]
    exact hgrown.graph
  all_goals rw [hshapes]
  case joins => exact hgrown.joins
  case tips => exact fun hmem => hgrown.tip (htip hmem)
  case lined => exact hgrown.lined
  case open_tips => exact fun _ _ _ hmem => hgrown.tip_open (htip hmem)

/-- **A script that does not compile** ends the execution. -/
theorem finish (h : Opened x) (outcome : Outcome) : Concluded (x.finish outcome) := by
  have hindex := h.index
  simp only [Record.index, Index.opened, Index.mk.injEq] at hindex
  obtain ⟨hstart, _, hheads, _, _, hdone⟩ := hindex
  have hends : Ends x (x.finish outcome) := by
    refine ends_finish h.sane hdone hstart ?_ outcome
    rw [hheads]
    exact List.cons_ne_nil _ _
  have hprogram : (x.finish outcome).program = {} := (quiet_finish x outcome).program.trans h.program
  refine ⟨h.standing.ends hdone hends, hends.done, hends.closed, fun t => ?_, fun n => ?_⟩
  · rw [hprogram]
    rfl
  · rw [hprogram]
    rfl

end Opened

/-! ## Starting -/

/-- **An execution that was started** goes on in order, or is over. -/
theorem Created.start {x : Execution} (h : Created x) :
    Going (Execution.start.after x) ⟨1, fun _ => none⟩ none [] ∧ Sound (Execution.start.after x) none ∨
      Concluded (Execution.start.after x) := by
  have hindex := h.index
  simp only [Record.index, Index.blank, Index.mk.injEq] at hindex
  obtain ⟨hstart, _, _, _, _, hdone⟩ := hindex
  obtain ⟨y, hwrite, hopened⟩ := h.writeStart
  have hlogged : Opened (y.log ("Started " ++ y.name)) := hopened.light (quiet_log _ _) (light_log _ _)
  have hallowed : Attempt.failIf (x.record.done || x.record.flowStart.isSome) .alreadyComplete x =
      (.ok (), x) := by
    rw [hdone, hstart]
    rfl
  -- behind the first node comes what depends on whether the script compiles
  have hreaches : ∃ next : Act Unit,
      Execution.start x = next (y.log ("Started " ++ y.name)) ∧
      (∀ program, compileSource x.record.scriptName x.record.script = .ok program →
        next = Execution.startProgram program 1) ∧
      ∀ e, compileSource x.record.scriptName x.record.script = .error e →
        next = Attempt.update fun z =>
          (z.log e.message).finish (.error { code := Failure.Code.scriptError, message := e.message }) := by
    unfold Execution.start
    refine ⟨_, Attempt.bind_eq_of_ok (a := x.record) rfl <| Attempt.bind_eq_of_ok hallowed <|
      Attempt.bind_eq_of_ok hwrite <| Attempt.bind_eq_of_ok (y := y.log ("Started " ++ y.name)) (a := ()) rfl rfl, ?_, ?_⟩
    · intro program hsource
      rw [hsource]
    · intro e hsource
      rw [hsource]
  obtain ⟨next, heq, hcompiled, hrefused⟩ := hreaches
  unfold Attempt.after
  rw [heq]
  cases hsource : compileSource x.record.scriptName x.record.script with
  | ok program =>
    rw [hcompiled program hsource]
    obtain ⟨thread, hbegun⟩ := begun_startProgram ⟨hlogged.program, hlogged.lost⟩ program 1
    exact .inl ⟨hlogged.startProgram program, hbegun.sound⟩
  | error e =>
    rw [hrefused e hsource]
    exact .inr ((hlogged.light (quiet_log _ _) (light_log _ _)).finish _)

end Execution

end DurableFlow
