/-
The history of whole runs.

A run starts with a script in a directory of its own, goes on through any events, and may be
reloaded from a checkpoint as often as one likes. Each event keeps the invariant of the history or
ends it. A reload is a load from the files that the checkpoint has left. They hold the history, and
so the load finds the nodes that were there, whatever becomes of the program. So the graph is well
formed in every state of every run, what was stored once stays, and a program that ends by itself
leaves one head, no open block, and one end behind that head.
-/
import DurableFlow.Proofs.History.Resuming
import DurableFlow.Proofs.Record.Restarts

set_option autoImplicit false

namespace DurableFlow

open Script History

namespace Archive

theorem shapes_of_node {a : Archive} {n : Nat} {node : Node} (h : a.node n = .ok node) :
    a.shapes n = some node.shape := by
  unfold Archive.shapes
  rw [h]
  rfl

end Archive

namespace Execution

/-! ## Runs -/

/-- **A script is started** with the standard steps, in an archive in which nothing stands in the
way. -/
inductive Started : Execution → Prop where
  | of_create {engine : Engine} {name id script : String} {options : Options} {archive : Archive}
    {clock : Text.Timestamp} {now : Nat} {created : Execution} (hsteps : engine.IsStandard)
    (hblank : archive.Blank)
    (hcreate : create engine name id script options archive clock now = .ok created) :
    Started (Execution.start.after created)

/-- On a host that lets the steps alone, in an archive with nothing in it. -/
theorem Started.of_script {name id script : String} {options : Options} {clock : Text.Timestamp} {now : Nat}
    {created : Execution} (h : create { steps := Step.standard } name id script options {} clock now = .ok created) :
    Started (Execution.start.after created) :=
  .of_create (.of_alone rfl fun _ => rfl) Archive.blank_empty h

/-- **What a state leads to**, through any events and any number of reloads. A reload is a restart that has
come to its end, well or badly: what the checkpoint has written reads as what it was written from, and the
numbers of nodes are words. -/
inductive Leads (x : Execution) : Execution → Prop where
  | here : Leads x x
  | happened {y : Execution} (h : Leads x y) (event : Event) (houtside : event.isOutside = true) :
    Leads x (y.happen event)
  | reloaded {engine : Engine} {y z : Execution} (h : Leads x y)
    (hunended : y.record.done = false → y.program.finished = false) (hengine : engine.IsStandard)
    (hlegible : y.saveCheckpoint.2.archive.history.Legible) (hwords : y.record.nextNodeId ≤ Json.wordBound)
    (hrestarts : Restarts engine y z) (hloaded : z.loading = .none) : Leads x z

namespace Leads

variable {x y z : Execution}

theorem trans (hxy : Leads x y) (hyz : Leads y z) : Leads x z := by
  induction hyz with
  | here => exact hxy
  | happened _ event houtside ih => exact ih.happened event houtside
  | reloaded _ hunended hengine hlegible hwords hrestarts hloaded ih =>
    exact ih.reloaded hunended hengine hlegible hwords hrestarts hloaded

theorem events (h : Leads x y) {events : List Event} (houtside : events.all Event.isOutside = true) :
    Leads x (events.foldl Execution.happen y) := by
  induction events generalizing y with
  | nil => exact h
  | cons event rest ih =>
    rw [List.all_cons, Bool.and_eq_true] at houtside
    exact ih (h.happened event houtside.1) houtside.2

/-- The scheduler by itself goes where events lead. -/
theorem turn (h : Leads x y) : Leads x y.turn :=
  turn_of_events (fun _ event houtside hy => hy.happened event houtside) h

theorem rest (h : Leads x y) (fuel : Nat) : Leads x (rest fuel y) :=
  rest_of_events (fun _ event houtside hy => hy.happened event houtside) h fuel

end Leads

/-! ## The invariant along a run -/

/-- **The invariant of a run**: it goes on in order or is over, and has some nodes for good. -/
inductive InOrder (past : Nodes) (x : Execution) : Prop where
  | going {head : Nat} (h : Going x ⟨head, past⟩ none []) (hsound : Sound x none)
  | ended (h : Concluded x) (hpast : Extends past x.archive.shapes)

namespace InOrder

variable {x y z : Execution} {past : Nodes}

/-- What is there now is there for good. -/
theorem rebase (h : InOrder past x) : InOrder x.archive.shapes x := by
  cases h with
  | going h hsound => exact .going { h with past := .refl _ } hsound
  | ended h _ => exact .ended h (.refl _)

theorem of_open (h : InOrder past x) (hopen : x.record.done = false) :
    ∃ head, Going x ⟨head, past⟩ none [] ∧ Sound x none := by
  cases h with
  | going h hsound => exact ⟨_, h, hsound⟩
  | ended h _ =>
    rw [h.done] at hopen
    cases hopen

theorem standing (h : InOrder past x) : Standing x ∧ Extends past x.archive.shapes := by
  cases h with
  | going h _ => exact ⟨h.standing, h.past⟩
  | ended h hpast => exact ⟨h.toStanding, hpast⟩

/-- The end of an execution is one more node. -/
theorem extends_ends (h : Standing x) (hends : Ends x y) : Extends x.archive.shapes y.archive.shapes := by
  obtain ⟨start, _, hgraph⟩ := h.graph
  obtain ⟨node, _, hshapes, _⟩ := hends.node
  rw [hshapes]
  exact hgraph.extends_append node

theorem happen (h : InOrder past x) (event : Event) (houtside : event.isOutside = true) :
    InOrder past (x.happen event) := by
  cases h with
  | going h hsound =>
    rcases h.happen hsound event houtside with hgoing | ⟨hends, hover⟩
    · exact .going hgoing (hsound.happen event)
    · exact .ended hover (h.past.trans (extends_ends h.standing hends.toEnds))
  | ended h hpast =>
    have hstill := h.still_happen event
    refine .ended (h.still hstill) ?_
    rw [(hstill.archive h.sane).shapes]
    exact hpast

/-- A checkpoint is no event of the history. -/
theorem saveCheckpoint (h : InOrder past x) : InOrder past x.saveCheckpoint.2 := by
  have hquiet := Quiet.alongCheckpoints.saveCheckpoint x
  have hlight := Light.alongCheckpoints.saveCheckpoint x
  cases h with
  | going h hsound => exact .going (h.quiet hquiet hlight) (hsound.quiet hquiet)
  | ended h hpast =>
    refine .ended (h.still (.of_quiet hquiet hlight)) ?_
    rw [(hlight.archive h.sane).shapes]
    exact hpast

/-- **The nodes that the record names are there.** -/
theorem named (h : InOrder past x) : ∃ start, x.record.flowStart = some start ∧
    ∀ n ∈ start :: Table.values x.record.heads ++ x.record.startNodes, ∃ node, x.archive.node n = .ok node := by
  obtain ⟨hstanding, _⟩ := h.standing
  obtain ⟨start, hstart, hgraph⟩ := hstanding.graph
  have hstored : ∀ {n}, (∃ shape, x.archive.shapes n = some shape) → ∃ node, x.archive.node n = .ok node := by
    rintro n ⟨shape, hshape⟩
    obtain ⟨node, hnode, _⟩ := Archive.node_of_shape hshape
    exact ⟨node, hnode⟩
  refine ⟨start, hstart, fun n hn => hstored ?_⟩
  rw [List.cons_append, List.mem_cons, List.mem_append] at hn
  rcases hn with rfl | htip | hopened
  · obtain ⟨first, hfirst, _⟩ := hgraph.started
    exact ⟨first, hfirst⟩
  · obtain ⟨entry, hmem, rfl⟩ := List.mem_map.mp htip
    exact hstanding.tips hmem
  · cases h with
    | going h _ =>
      obtain ⟨_, node, hnode, _⟩ := (h.orderly.opened.mp hopened).start
      exact ⟨node, hnode⟩
    | ended h _ =>
      rw [h.closed] at hopened
      cases hopened

/-! ### Reloads -/

/-- **The history can be opened**: the nodes that the record names are there. -/
theorem opens {opened left : Archive} {root : String} {e : EngineError} (h : InOrder past y)
    (hreloads : y.saveCheckpoint.2.archive.Reloads y.saveCheckpoint.2.record)
    (hlegible : y.saveCheckpoint.2.archive.history.Legible)
    (hopens : Archive.openAt root y.saveCheckpoint.2.archive.tree = .ok opened) :
    Archive.openRecorded y.saveCheckpoint.2.record opened ≠ (.error e, left) := by
  intro hunreadable
  obtain ⟨start, hstart, hnodes⟩ := h.saveCheckpoint.named
  obtain ⟨b, c, hb, _, hhistory⟩ := hreloads.loads hlegible hstart hnodes root
  cases hb.symm.trans hopens
  cases hhistory.symm.trans hunreadable

theorem recovered (h : Standing y) (hrecovers : Recovers y z) : Standing z :=
  h.of_same hrecovers.sane hrecovers.shapes hrecovers.index

/-- **An execution that is done** is loaded as it was left. -/
theorem reopened (h : InOrder past y) (hrecovers : Recovers y z) (hprogram : z.program = {})
    (hdone : z.record.done = true) : InOrder past z := by
  obtain ⟨hstanding, hpast⟩ := h.standing
  have hclosed : z.record.startNodes = [] := by
    cases h with
    | going h _ =>
      have hindex : z.record.done = y.record.done := congrArg Index.done hrecovers.index
      rw [hdone, h.record.unfinished] at hindex
      cases hindex
    | ended h _ => exact (congrArg Index.startNodes hrecovers.index).trans h.closed
  refine .ended ⟨recovered hstanding hrecovers, hdone, hclosed, fun t => ?_, fun n => ?_⟩ ?_
  · rw [hprogram]
    rfl
  · rw [hprogram]
    rfl
  · rw [hrecovers.shapes]
    exact hpast

/-- **A program that is given up** ends the execution. -/
theorem abandoned (h : InOrder past y) (hrecovers : Recovers y z) (hprogram : z.program = {})
    (hopen : z.record.done = false) (failure : Failure) : InOrder past (z.abandon failure) := by
  have hsame : z.record.done = y.record.done := congrArg Index.done hrecovers.index
  obtain ⟨head, hgoing, _⟩ := h.of_open (hsame.symm.trans hopen)
  obtain ⟨start, hstart⟩ := Option.isSome_iff_exists.mp hgoing.record.started
  obtain ⟨tip, htip⟩ := hgoing.tip_present
  have hheads : z.record.heads = y.record.heads := congrArg Index.heads hrecovers.index
  have hflowStart : z.record.flowStart = some start := (congrArg Index.flowStart hrecovers.index).trans hstart
  have hne : z.record.heads ≠ [] := by
    intro hnil
    rw [← hheads, hnil] at htip
    cases htip
  obtain ⟨hsane, hshapes, hindex, hengine, htimers, hboard, hstopping⟩ := hrecovers
  let halted : Execution := { z with halted := true, loadCancelled := true }
  have hhalted : Recovers y halted := ⟨hsane, hshapes, hindex, hengine, htimers, hboard, hstopping⟩
  have hstanding : Standing halted := recovered hgoing.standing hhalted
  have hends : Ends halted (halted.finish (.error failure)) := ends_finish hhalted.sane hopen hflowStart hne _
  have hended : (halted.finish (.error failure)).program = {} := (quiet_finish halted _).program.trans hprogram
  show InOrder past (halted.finish (.error failure))
  refine .ended ⟨hstanding.ends hopen hends, hends.done, hends.closed, fun t => ?_, fun n => ?_⟩ ?_
  · rw [hended]
    rfl
  · rw [hended]
    rfl
  · have hext := extends_ends hstanding hends
    rw [hhalted.shapes] at hext
    exact hgoing.past.trans hext

/-- **A program that goes on** keeps the invariant. -/
theorem resumed (h : InOrder past y) (hopen : y.program.finished = false) (hrecovers : Recovers y z)
    (hthreads : z.record.threadsCreated = y.record.threadsCreated) (hlost : z.lost = [])
    (hunfinished : z.record.done = false) {program : LiveProgram}
    (hreads : restoreProgram z.engine.steps z.clock (y.program.save Step.standard) = .ok program) :
    InOrder past (z.revive (y.program.save Step.standard) program) := by
  have hsame : z.record.done = y.record.done := congrArg Index.done hrecovers.index
  obtain ⟨head, hgoing, hsound⟩ := h.of_open (hsame.symm.trans hunfinished)
  rw [hrecovers.engine.steps] at hreads
  have hnodes := Nat.le_of_eq (congrArg Index.nextNodeId hrecovers.index).symm
  exact .going (hgoing.revive hsound hrecovers hreads)
    (hsound.revive hopen hnodes (Nat.le_of_eq hthreads.symm) hlost hreads)

end InOrder

/-- **A run on record**: it is in order, and its history is in its files. -/
structure OnRecord (past : Nodes) (x : Execution) : Prop where
  order : InOrder past x
  files : InFiles x

theorem Started.onRecord {x : Execution} (h : Started x) : OnRecord (fun _ => none) x := by
  cases h with
  | @of_create engine name id script options archive clock now created hsteps hblank hcreate =>
    have hcreated := created_of_create hsteps hblank hcreate
    constructor
    case order =>
      rcases hcreated.start with ⟨hgoing, hsound⟩ | hover
      · exact .going hgoing hsound
      · exact .ended hover fun _ _ hno => (by cases hno)
    case files =>
      refine InFiles.lasts.ends (endChanges_start created) ?_
      unfold create at hcreate
      dsimp only at hcreate
      split at hcreate
      · cases hcreate
      · next opened hopen =>
        cases hcreate
        obtain ⟨hfiles, hkind⟩ := Archive.inFiles_of_openHistory hcreated.sane.fine.tidy hopen
        exact ⟨hfiles, hkind⟩

namespace OnRecord

variable {engine : Engine} {w x y z : Execution} {past : Nodes}

theorem rebase (h : OnRecord past x) : OnRecord x.archive.shapes x := ⟨h.order.rebase, h.files⟩

theorem happen (h : OnRecord past x) (event : Event) (houtside : event.isOutside = true) :
    OnRecord past (x.happen event) :=
  ⟨h.order.happen event houtside, InFiles.lasts.perform x (.happen event) h.files⟩

/-- What the checkpoint of a restart has left can be loaded. -/
theorem reloads (h : OnRecord past y) (hlegible : y.saveCheckpoint.2.archive.history.Legible)
    (hrestarts : Restarts engine y z) :
    y.saveCheckpoint.2.archive.Reloads y.saveCheckpoint.2.record := by
  obtain ⟨hsaves, hreads⟩ := hrestarts.saved
  exact h.files.reloads hsaves ⟨hreads, hlegible⟩

/-- **What a load reads** is what the checkpoint has left. -/
theorem recovers (h : OnRecord past y) (hreloads : y.saveCheckpoint.2.archive.Reloads y.saveCheckpoint.2.record)
    (hlegible : y.saveCheckpoint.2.archive.history.Legible) (hwords : y.record.nextNodeId ≤ Json.wordBound)
    (hengine : engine.IsStandard) (hw : Rereads engine y w) : Recovers y.saveCheckpoint.2 w := by
  obtain ⟨_, hget⟩ := hw.found hreloads hlegible
  obtain ⟨hstanding, _⟩ := h.order.saveCheckpoint.standing
  obtain ⟨start, _, hgraph⟩ := hstanding.graph
  have hnext : y.saveCheckpoint.2.record.nextNodeId = y.record.nextNodeId :=
    congrArg Index.nextNodeId (Light.alongCheckpoints.saveCheckpoint y).index
  constructor
  case sane =>
    refine hw.sane hreloads hlegible hstanding.sane fun {n node} hnode => Nat.lt_of_lt_of_le ?_ hwords
    have hshape : y.saveCheckpoint.2.archive.shapes n = some node.shape := by
      rw [Archive.shapes_of_get hnode]
      rfl
    rw [← hnext]
    exact hgraph.below hshape
  case shapes => exact Archive.shapes_congr hget
  case index => rw [hw.record]
  case engine => exact hw.engine ▸ hengine
  case timers => exact hw.timers
  case board => exact hw.board
  case stopping => exact hw.stopping

/-- **A load that fails** ends the execution. -/
theorem failLoad (h : InOrder past y) (hrecovers : Recovers y w) (hprogram : w.program = {})
    (hopen : w.record.done = false) (e : EngineError) : InOrder past (w.failLoad e) := by
  obtain ⟨hsane, hshapes, hindex, hengine, htimers, hboard, hstopping⟩ := hrecovers
  let stopped : Execution := { w with loading := .none, lane := .absent, inbox := [] }
  have hstopped : Recovers y stopped := ⟨hsane, hshapes, hindex, hengine, htimers, hboard, hstopping⟩
  unfold Execution.failLoad
  dsimp only
  split
  · exact h.abandoned hstopped hprogram hopen _
  -- the failure is logged, which changes no node
  · have hkept := hsane.log ("Failed to load program: " ++ e.message)
    have hlogged : Recovers y (stopped.log ("Failed to load program: " ++ e.message)) :=
      ⟨hkept.sane, hkept.shapes.trans hshapes, hindex, hengine, htimers, hboard, hstopping⟩
    exact h.abandoned hlogged hprogram hopen _

/-- **A reload keeps the invariant.** -/
theorem reloaded (h : OnRecord past y) (hunended : y.record.done = false → y.program.finished = false)
    (hengine : engine.IsStandard) (hlegible : y.saveCheckpoint.2.archive.history.Legible)
    (hwords : y.record.nextNodeId ≤ Json.wordBound) (hrestarts : Restarts engine y z)
    (hloaded : z.loading = .none) : OnRecord past z := by
  have hreloads := h.reloads hlegible hrestarts
  have hsaved := h.order.saveCheckpoint
  have hrecovers := fun {w} (hw : Rereads engine y w) => h.recovers hreloads hlegible hwords hengine hw
  cases hrestarts.restarted with
  | replaced opens _ unreadable _ _ => exact absurd unreadable (h.order.opens hreloads hlegible opens)
  | closed hw done _ _ =>
    exact ⟨hsaved.reopened (hrecovers hw) hw.program done, (hw.found hreloads hlegible).1⟩
  | waits _ _ _ hloads => exact absurd hloaded hloads.loading
  | @fails w hw undone e =>
    obtain ⟨failure, given, hchanges, heq⟩ := failLoad_ends w e
    refine ⟨failLoad hsaved (hrecovers hw) hw.program undone e, ?_⟩
    have hfiles := (hw.found hreloads hlegible).1
    rw [heq]
    exact InFiles.lasts.finish _ _ (InFiles.lasts.changes hchanges (hfiles.of_same rfl rfl))
  | @resumes w program hw undone restores =>
    have hquiet := Quiet.alongCheckpoints.saveCheckpoint y
    have hlight := Light.alongCheckpoints.saveCheckpoint y
    have hsame : w.record.done = y.record.done :=
      (congrArg Record.done hw.record).trans (congrArg Index.done hlight.index)
    have hopen := hunended (hsame.symm.trans undone)
    obtain ⟨_, hgoing, _⟩ := h.order.of_open (hsame.symm.trans undone)
    have hfiles := (hw.found hreloads hlegible).1
    refine ⟨?_, InFiles.lasts.changes (Changes.revive w _ program) (hfiles.of_same rfl rfl)⟩
    rw [hgoing.engine.steps, ← hquiet.program] at restores ⊢
    rw [← hquiet.program] at hopen
    exact hsaved.resumed hopen (hrecovers hw) (congrArg Record.threadsCreated hw.record) hw.lost undone restores

/-- **Whatever happens along a run keeps the invariant.** -/
theorem leads (h : OnRecord past x) (hxy : Leads x y) : OnRecord past y := by
  induction hxy with
  | here => exact h
  | happened _ event houtside ih => exact ih.happen event houtside
  | reloaded _ hunended hengine hlegible hwords hrestarts hloaded ih =>
    exact ih.reloaded hunended hengine hlegible hwords hrestarts hloaded

end OnRecord

theorem Started.inOrder {x y : Execution} (h : Started x) (hrun : Leads x y) : InOrder (fun _ => none) y :=
  (h.onRecord.leads hrun).order

/-! ## What can be said of the history -/

/-- A node is stored that starts a block. -/
def StartsBlock (x : Execution) (s : Nat) : Prop :=
  ∃ node body, x.archive.node s = .ok node ∧ node.kind = .blockStart body

/-- A node is stored that ends the block of another one. -/
def EndsBlock (x : Execution) (e s : Nat) : Prop :=
  ∃ node, x.archive.node e = .ok node ∧ node.kind = .blockEnd s

/-- A node is stored that starts a branch of a block. -/
def StartsBranch (x : Execution) (s n : Nat) : Prop :=
  ∃ node, x.archive.node s = .ok node ∧ node.kind = .blockStart true ∧ node.parents = [n]

/-- **A history that is well formed**, with what the record and the program say about it. -/
structure WellFormed (x : Execution) : Prop where
  /-- A node is stored under its number, which was given out. -/
  ids : ∀ n node, x.archive.node n = .ok node → node.id = n ∧ n < x.record.nextNodeId
  /-- Parents are stored, and older. -/
  parents : ∀ n node, x.archive.node n = .ok node → ∀ p ∈ node.parents,
    p < n ∧ ∃ parent, x.archive.node p = .ok parent
  /-- There is one start of the flow. -/
  flowStart : ∃! s, ∃ node, x.archive.node s = .ok node ∧ node.kind = .flowStart
  /-- The end of a block names a stored start. -/
  ends : ∀ e s, x.EndsBlock e s → x.StartsBlock s
  /-- No block is ended twice. -/
  once : ∀ e e' s, x.EndsBlock e s → x.EndsBlock e' s → e = e'
  /-- Until the execution is done, the record lists the blocks without an end. -/
  startNodes : x.record.done = false → x.record.startNodes.Nodup ∧
    ∀ s, s ∈ x.record.startNodes ↔ x.StartsBlock s ∧ ∀ e, ¬ x.EndsBlock e s
  tips : ∀ head tip, (head, tip) ∈ x.record.heads → ∃ node, x.archive.node tip = .ok node
  heads : ∀ t thread, Table.find? t x.program.threads = some thread →
    Table.contains thread.head x.record.heads = true
  /-- The end of a block with branches joins the ends of the branches. -/
  joins : ∀ e n node, x.archive.node e = .ok node → node.kind = .blockEnd n →
    (∃ s, x.StartsBranch s n) →
      node.parents.Nodup ∧ ∀ p, p ∈ node.parents ↔ ∃ s, x.StartsBranch s n ∧ x.EndsBlock p s

/-- Each node that was stored is stored still, and only its error may be another one. -/
def Keeps (x y : Execution) : Prop :=
  ∀ n node, x.archive.node n = .ok node → ∃ error, y.archive.node n = .ok { node with error }

/-- **An execution is complete**: all blocks are ended, one head is left, and the one end of the flow
is behind what was the tip of that head. -/
structure Completes (x y : Execution) : Prop where
  closed : ∀ s, y.StartsBlock s → ∃ e, y.EndsBlock e s
  flowEnd : ∃ head tip e node start, x.record.heads = [(head, tip)] ∧ y.record.heads = [(head, e)] ∧
    y.archive.node e = .ok node ∧ node.kind = .flowEnd start ∧ node.parents = [tip] ∧
      ∀ n other s, y.archive.node n = .ok other → other.kind = .flowEnd s → n = e

/-! ## Reading it off the invariant -/

section Stored

variable {x : Execution} {s e n : Nat}

/-- What does not speak of errors is said of a node as it is stored, or as the graph has it. -/
theorem stored_iff {P : Node → Prop} (hshape : ∀ node : Node, P node.shape ↔ P node) :
    (∃ node, x.archive.shapes n = some node ∧ P node) ↔ ∃ node, x.archive.node n = .ok node ∧ P node := by
  constructor
  · rintro ⟨shape, hshapes, hP⟩
    obtain ⟨node, hnode, rfl⟩ := Archive.node_of_shape hshapes
    exact ⟨node, hnode, (hshape node).mp hP⟩
  · rintro ⟨node, hnode, hP⟩
    exact ⟨node.shape, Archive.shapes_of_node hnode, (hshape node).mpr hP⟩

theorem startsBlock_iff : x.StartsBlock s ↔ ∃ body, StartAt x.archive.shapes body s := by
  have hstored := @stored_iff x s (fun node => ∃ body, node.kind = .blockStart body) fun _ => .rfl
  constructor
  · rintro ⟨node, body, hnode, hkind⟩
    obtain ⟨shape, hshape, body, hkind⟩ := hstored.mpr ⟨node, hnode, body, hkind⟩
    exact ⟨body, shape, hshape, hkind⟩
  · rintro ⟨body, shape, hshape, hkind⟩
    obtain ⟨node, hnode, body, hkind⟩ := hstored.mp ⟨shape, hshape, body, hkind⟩
    exact ⟨node, body, hnode, hkind⟩

theorem endsBlock_iff : x.EndsBlock e s ↔ EndOf x.archive.shapes e s :=
  (stored_iff (P := fun node => node.kind = .blockEnd s) fun _ => .rfl).symm

theorem startsBranch_iff : x.StartsBranch s n ↔ BranchOf x.archive.shapes s n :=
  (stored_iff (P := fun node => node.kind = .blockStart true ∧ node.parents = [n]) fun _ => .rfl).symm

/-- A block that is open has a start and no end. -/
theorem open_iff : Open x.archive.shapes s ↔ x.StartsBlock s ∧ ∀ e, ¬ x.EndsBlock e s := by
  simp only [startsBlock_iff, endsBlock_iff]
  exact ⟨fun h => ⟨h.start, h.unended⟩, fun h => ⟨h.1, h.2⟩⟩

end Stored

namespace InOrder

variable {x y : Execution} {past : Nodes}

/-- **In order, a history is well formed.** -/
theorem wellFormed (h : InOrder past x) : WellFormed x := by
  obtain ⟨hstanding, _⟩ := h.standing
  obtain ⟨start, hstart, hgraph⟩ := hstanding.graph
  constructor
  case ids =>
    intro n node hnode
    have hshape := Archive.shapes_of_node hnode
    have hid : node.shape.id = n := hgraph.own hshape
    exact ⟨hid, hgraph.below hshape⟩
  case parents =>
    intro n node hnode p hp
    obtain ⟨hlt, parent, hparent⟩ := hgraph.parents (Archive.shapes_of_node hnode) p hp
    obtain ⟨stored, hstored, _⟩ := Archive.node_of_shape hparent
    exact ⟨hlt, stored, hstored⟩
  case flowStart =>
    obtain ⟨first, hfirst, _⟩ := hgraph.started
    obtain ⟨node, hnode, hkind⟩ :=
      (stored_iff (P := fun node => node.kind = .flowStart) fun _ => .rfl).mp
        ⟨first, hfirst, (hgraph.flowStart hfirst).mpr rfl⟩
    refine ⟨start, ⟨node, hnode, hkind⟩, ?_⟩
    rintro s ⟨other, hother, hkind'⟩
    exact (hgraph.flowStart (Archive.shapes_of_node hother)).mp hkind'
  case ends => exact fun e s hend => startsBlock_iff.mpr (hgraph.ends (endsBlock_iff.mp hend)).2
  case once =>
    exact fun e e' s hend hend' => hgraph.once (endsBlock_iff.mp hend) (endsBlock_iff.mp hend')
  -- only while it goes on: at the end the list is emptied
  case startNodes =>
    intro hopen
    obtain ⟨head, hgoing, _⟩ := h.of_open hopen
    exact ⟨hgoing.orderly.nodup, fun s => hgoing.orderly.opened.trans open_iff⟩
  case tips =>
    intro head tip hmem
    obtain ⟨shape, hshape⟩ := hstanding.tips hmem
    obtain ⟨node, hnode, _⟩ := Archive.node_of_shape hshape
    exact ⟨node, hnode⟩
  -- while the execution goes on each thread has its head; when it has ended there is no thread
  case heads =>
    intro t thread hthread
    cases h with
    | going h _ =>
      have hpost : x.program.posts none t = some thread.post := congrArg (Option.map Thread.post) hthread
      obtain ⟨tip, htip⟩ := h.orderly.head_present hpost
      exact Option.isSome_iff_exists.mpr ⟨tip, htip⟩
    | ended h _ =>
      rw [h.threads] at hthread
      cases hthread
  case joins =>
    rintro e n node hnode hkind ⟨s, hs⟩
    have hshape := Archive.shapes_of_node hnode
    obtain ⟨hnodup, hparents⟩ := hstanding.joins hshape hkind ⟨s, startsBranch_iff.mp hs⟩
    refine ⟨hnodup, fun p => (hparents p).trans ?_⟩
    simp only [startsBranch_iff, endsBlock_iff]

/-- **What is stored once stays**, whatever happens. -/
theorem keeps (h : OnRecord past x) (hxy : Leads x y) : Keeps x y := by
  obtain ⟨_, hext⟩ := (h.rebase.leads hxy).order.standing
  intro n node hnode
  obtain ⟨other, hother, hshape⟩ := Archive.node_of_shape (hext n _ (Archive.shapes_of_node hnode))
  refine ⟨other.error, ?_⟩
  rw [hother, Node.eq_of_shape hshape]

/-- **What ends by itself is complete.** -/
theorem completes_of_ends (h : Standing x) (hends : EndsAlone x y) : Completes x y := by
  obtain ⟨start, _, hgraph⟩ := h.graph
  obtain ⟨node, start', hshapes, _, hid, hkind, hparents⟩ := hends.node
  obtain ⟨head, tip, hheads⟩ := hends.head
  obtain ⟨head', tip', hmem, hindex⟩ := hends.index
  rw [hheads, List.mem_singleton] at hmem
  cases hmem
  have hnew : y.archive.shapes x.record.nextNodeId = some node := by
    rw [hshapes]
    exact changed_self _ _ _
  -- the other nodes are those of before
  have hold : ∀ {n other}, y.archive.shapes n = some other → (∀ s, other.kind ≠ .flowEnd s) →
      x.archive.shapes n = some other := by
    intro n other hother hne
    rw [hshapes] at hother
    rcases changed_eq_some.mp hother with ⟨_, heq⟩ | ⟨_, hother⟩
    · cases heq
      exact absurd hkind (hne start')
    · exact hother
  constructor
  case closed =>
    intro s hs
    obtain ⟨body, first, hfirst, hfirstKind⟩ := startsBlock_iff.mp hs
    have hfirst' := hold hfirst fun e => by rw [hfirstKind]; simp
    -- a block without an end now had none before, but none was open
    refine Classical.byContradiction fun hno => hends.closed s ⟨⟨body, first, hfirst', hfirstKind⟩, ?_⟩
    rintro e ⟨last, hlast, hlastKind⟩
    refine hno ⟨e, endsBlock_iff.mpr ⟨last, ?_, hlastKind⟩⟩
    rw [hshapes]
    exact hgraph.extends_append node e last hlast
  case flowEnd =>
    obtain ⟨stored, hstored, rfl⟩ := Archive.node_of_shape hnew
    refine ⟨head, tip, x.record.nextNodeId, stored, start', hheads, congrArg Index.heads hindex, hstored, hkind,
      ?_, ?_⟩
    · have htips : stored.shape.parents = [tip] := by
        rw [hparents, hheads]
        rfl
      exact htips
    · intro n other s hother hotherKind
      have hshape := Archive.shapes_of_node hother
      rw [hshapes] at hshape
      rcases changed_eq_some.mp hshape with ⟨hn, _⟩ | ⟨_, hbefore⟩
      · exact hn
      · exact absurd hotherKind (hends.unfinished hbefore s)

/-- **A program that ends by itself completes the execution.** -/
theorem completes (h : InOrder past x) {event : Event} (houtside : event.isOutside = true)
    (hopen : x.record.done = false) (hdone : (x.happen event).record.done = true) :
    Completes x (x.happen event) := by
  obtain ⟨head, hgoing, hsound⟩ := h.of_open hopen
  rcases hgoing.happen hsound event houtside with hon | ⟨hends, _⟩
  · rw [hon.record.unfinished] at hdone
    cases hdone
  · exact completes_of_ends hgoing.standing hends

end InOrder

/-! ## Whole runs -/

/-- **The history of every run is well formed in every state.** What was stored once stays but for its
error, and a program that ends by itself leaves no open block, one head, and one end of the flow
behind it. -/
theorem history_is_well_formed {x y : Execution} (hstart : Started x) (hrun : Leads x y) :
    WellFormed y ∧ (∀ z, Leads y z → Keeps y z) ∧
      ∀ event, event.isOutside = true → y.record.done = false → (y.happen event).record.done = true →
        Completes y (y.happen event) := by
  have hrecord := hstart.onRecord.leads hrun
  exact ⟨hrecord.order.wellFormed, fun _ hlater => InOrder.keeps hrecord hlater,
    fun _ houtside hopen hdone => hrecord.order.completes houtside hopen hdone⟩

/-- A stage with a block that waits is called, the block waits, and the signal comes. -/
theorem history_is_well_formed_signalled :
    ∃ created, create { steps := Step.standard } "staged" "1"
        "stage(\"s\") \x7b wait_for_signal(\"go\") \x7d" {} {} ⟨0⟩ 0 = .ok created ∧
      WellFormed ([.run 1, .run 2, .signal "go" (.ok .null), .work].foldl happen
        (Execution.start.after created)) := by
  obtain ⟨created, hcreated⟩ : ∃ created, create { steps := Step.standard } "staged" "1"
      "stage(\"s\") \x7b wait_for_signal(\"go\") \x7d" {} {} ⟨0⟩ 0 = .ok created := ⟨_, rfl⟩
  have hrun : Leads (Execution.start.after created)
      ([.run 1, .run 2, .signal "go" (.ok .null), .work].foldl happen (Execution.start.after created)) :=
    Leads.here.events rfl
  exact ⟨created, hcreated, (history_is_well_formed (.of_script hcreated) hrun).1⟩

end Execution

end DurableFlow
