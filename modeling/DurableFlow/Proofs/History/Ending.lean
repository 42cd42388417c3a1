/-
The end of an execution.

However an execution ends, one node goes behind all the heads that are left, and of the heads
one stays, at that node. What is done afterwards, flushing and perhaps moving the history
into one file, changes neither the nodes nor what the record says about them. When a program
is over by itself, no thread is left, so all blocks were closed and one head was left.
-/
import DurableFlow.Proofs.History.Events

set_option autoImplicit false

namespace DurableFlow

open Script History

/-- What a record says about a history that has ended: one head is left, at the last node. -/
def Index.ended (i : Index) (head : Nat) : Index :=
  { i with startNodes := [], heads := [(head, i.nextNodeId)], nextNodeId := i.nextNodeId + 1, done := true }

namespace Execution

/-! ## Writing the end -/

/-- **How an execution ends**: a node behind all heads, and one head left at it. -/
structure Ends (x y : Execution) : Prop where
  sane : y.archive.Sane
  node : ∃ node start, y.archive.shapes = changed x.archive.shapes x.record.nextNodeId (some node) ∧
    x.record.flowStart = some start ∧ node.id = x.record.nextNodeId ∧ node.kind = .flowEnd start ∧
    node.parents = Table.values x.record.heads
  index : ∃ head tip, (head, tip) ∈ x.record.heads ∧ y.record.index = x.record.index.ended head

namespace Ends

variable {x y z : Execution}

theorem closed (h : Ends x y) : y.record.startNodes = [] := by
  obtain ⟨_, _, _, hindex⟩ := h.index
  exact congrArg Index.startNodes hindex

theorem light (h : Ends x y) (hyz : Light y z) : Ends x z := by
  obtain ⟨hsane, ⟨node, start, hshapes, hnode⟩, head, tip, hmem, hindex⟩ := h
  have hkept := hyz.archive hsane
  exact ⟨hkept.sane, ⟨node, start, hkept.shapes.trans hshapes, hnode⟩, head, tip, hmem, hyz.index.trans hindex⟩

theorem of_light (hxy : Light x y) (hsane : x.archive.Sane) (h : Ends y z) : Ends x z := by
  obtain ⟨hsane', ⟨node, start, hshapes, hstart, hid, hkind, hparents⟩, head, tip, hmem, hindex⟩ := h
  have hheads : y.record.heads = x.record.heads := congrArg Index.heads hxy.index
  have hnext : y.record.nextNodeId = x.record.nextNodeId := congrArg Index.nextNodeId hxy.index
  rw [(hxy.archive hsane).shapes, hnext] at hshapes
  rw [hnext] at hid
  rw [hheads] at hparents hmem
  rw [hxy.index] at hindex
  exact ⟨hsane', ⟨node, start, hshapes, (congrArg Index.flowStart hxy.index).symm.trans hstart, hid, hkind,
    hparents⟩, head, tip, hmem, hindex⟩

end Ends

section Writing

variable {x : Execution}

theorem ensureStart_eq {start : Nat} (h : x.record.flowStart = some start) :
    ensureStart x = (.ok start, x) := by
  unfold ensureStart
  refine Attempt.bind_eq_of_ok (a := x.record) rfl ?_
  rw [h]
  rfl

/-- **The end node is written** behind all heads. -/
theorem writeEndNode_eq {start head tip : Nat} {rest : Table Nat Nat} (hsane : x.archive.Sane)
    (hstart : x.record.flowStart = some start) (hheads : x.record.heads = (head, tip) :: rest)
    (error : Option Failure) :
    ∃ y, writeEndNode error x = (.ok (), y) ∧ Ends x y := by
  let node : Node :=
    { id := x.record.nextNodeId, parents := Table.values x.record.heads, kind := .flowEnd start
      error, startedAt := x.clock }
  obtain ⟨archive, hstore, hsane', hshapes⟩ := hsane.store node false
  let record : Record :=
    { x.record.allocateNode.2 with
      heads := [(head, x.record.nextNodeId)], startNodes := [], done := true
      completedAt := some x.clock }
  refine ⟨{ x with archive, record }, ?_, ?_⟩
  · unfold writeEndNode
    refine Attempt.bind_eq_of_ok (ensureStart_eq hstart) ?_
    refine Attempt.bind_eq_of_ok (a := x.record) rfl ?_
    have hlast : lastHead x = (.ok head, x) := by
      unfold lastHead
      rw [hheads]
    refine Attempt.bind_eq_of_ok hlast ?_
    refine Attempt.bind_eq_of_ok (y := { x with record := x.record.allocateNode.2 }) (a := x.record.nextNodeId) rfl ?_
    refine Attempt.bind_eq_of_ok (a := x.clock) rfl ?_
    -- a head is left, so the end does not fall back on the first node
    have hparents : (if (Table.values x.record.heads).isEmpty then [start]
        else Table.values x.record.heads) = Table.values x.record.heads := by
      rw [hheads]
      rfl
    rw [hparents]
    refine Attempt.bind_eq_of_ok (y := { x with archive, record := x.record.allocateNode.2 })
      (onArchive_eq (x := { x with record := x.record.allocateNode.2 }) hstore) ?_
    rfl
  · refine ⟨hsane', ⟨node.shape, start, hshapes, hstart, rfl, rfl, rfl⟩, head, tip, ?_, rfl⟩
    rw [hheads]
    exact List.mem_cons_self

theorem light_migrateHistory (x : Execution) : Light x x.migrateHistory := by
  rcases x.migrateHistory_cases with hsame | ⟨hkind, hmoved⟩
  · rw [hsame]
    exact .refl x
  · have hlight : Light x { x with archive := (Archive.migrate x.archive).2 } := ⟨rfl, fun h => h.migrate hkind⟩
    rcases hmoved with ⟨a, hmove, heq⟩ | ⟨e, a, hmove, heq⟩
    · rw [hmove] at hlight
      rw [heq]
      exact hlight.trans (light_mapRecord (f := fun r => { r with storage := .bulk }) (fun _ => rfl) _)
    · rw [hmove] at hlight
      rw [heq]
      exact hlight

/-- What follows the end node. -/
def sealHistory : Act Unit := do
  onArchive Archive.flush
  Attempt.update migrateHistory
  Attempt.update (mapRecord fun r => { r with clean := true })
  saveRecord

theorem lightly_sealHistory : Lightly sealHistory := by
  have hR := Light.alongCheckpoints
  refine hR.bind hR.flush fun _ => hR.bind (.update light_migrateHistory) fun _ => ?_
  exact hR.bind (.update fun x => hR.marked x true) fun _ => hR.saveRecord

theorem ends_writeEnd {start : Nat} (hsane : x.archive.Sane)
    (hstart : x.record.flowStart = some start) (hheads : x.record.heads ≠ []) {result : FlowResult}
    {error : Option Failure} {written : EngineResult Unit} {y : Execution}
    (h : writeEnd result error x = (written, y)) : Ends x y := by
  obtain ⟨⟨head, tip⟩, rest, hcons⟩ := List.exists_cons_of_ne_nil hheads
  let worse : Execution := x.mapRecord fun r => { r.worsen result with error }
  have hworse : Light x worse :=
    light_mapRecord (f := fun r => { r.worsen result with error }) (fun _ => rfl) x
  obtain ⟨ended, hwrite, hends⟩ := writeEndNode_eq (x := worse) hsane hstart hcons error
  have hwritten : writeEnd result error x = sealHistory ended := by
    unfold writeEnd
    refine Attempt.bind_eq_of_ok (y := worse) rfl ?_
    exact Attempt.bind_eq_of_ok hwrite rfl
  have hsealed := (Ends.of_light hworse hsane hends).light (lightly_sealHistory ended)
  rw [← hwritten, h] at hsealed
  exact hsealed

theorem light_announceEnd (x : Execution) : Light x x.announceEnd :=
  ⟨rfl, fun h => h.log _⟩

/-- The record of an execution that is done cannot be marked as done again. -/
theorem light_endUnwritten {x : Execution} (h : x.record.done = true) : Light x x.endUnwritten := by
  refine .of_record rfl ?_
  show { x.record.index with done := true } = x.record.index
  rw [← h]
  rfl

theorem Ends.done {y : Execution} (h : Ends x y) : y.record.done = true := by
  obtain ⟨_, _, _, hindex⟩ := h.index
  exact congrArg Index.done hindex

/-- **An execution that is not done ends.** -/
theorem ends_finish {start : Nat} (hsane : x.archive.Sane) (hopen : x.record.done = false)
    (hstart : x.record.flowStart = some start) (hheads : x.record.heads ≠ []) (outcome : Outcome) :
    Ends x (x.finish outcome) := by
  unfold finish
  rw [if_neg (by rw [hopen]; exact Bool.false_ne_true)]
  split
  · next y heq =>
    exact (ends_writeEnd hsane hstart hheads heq).light (light_announceEnd y)
  · next e y heq =>
    have hends := ends_writeEnd hsane hstart hheads heq
    exact hends.light ((light_endUnwritten hends.done).trans (light_announceEnd _))

end Writing

/-! ## What outlives the program -/

/-- **A history that stands**, whatever becomes of the program. -/
structure Standing (x : Execution) : Prop where
  sane : x.archive.Sane
  graph : ∃ start, x.record.flowStart = some start ∧
    Graph x.archive.shapes x.record.nextNodeId start
  joins : Joins x.archive.shapes
  tips : ∀ {head tip}, (head, tip) ∈ x.record.heads → ∃ node, x.archive.shapes tip = some node
  lined : Lined x.archive.shapes
  /-- While the execution goes on, all blocks behind the tip of a head are open. -/
  open_tips : x.record.done = false → ∀ {head tip}, (head, tip) ∈ x.record.heads →
    ∃ blocks, After x.archive.shapes tip blocks ∧ ∀ s ∈ blocks, Open x.archive.shapes s

theorem Going.standing {x : Execution} {origin : Origin} {running : Option Thread} {tasks : List BodyTask}
    (h : Going x origin running tasks) : Standing x where
  sane := h.sane
  graph := by
    obtain ⟨start, hstart⟩ := Option.isSome_iff_exists.mp h.record.started
    have hgraph : Graph x.archive.shapes x.record.nextNodeId (x.record.flowStart.getD 0) := h.orderly.graph
    rw [hstart] at hgraph
    exact ⟨start, hstart, hgraph⟩
  joins := h.orderly.joins
  tips hmem := h.orderly.tip (h.record.sorted.find?_of_mem hmem)
  lined := h.orderly.lined
  open_tips _ _ _ hmem := h.orderly.tip_open (h.record.sorted.find?_of_mem hmem)

namespace Standing

variable {x y : Execution}

/-- What stands depends on the nodes and on what the record says about them. -/
theorem of_same (h : Standing x) (hsane : y.archive.Sane) (hshapes : y.archive.shapes = x.archive.shapes)
    (hindex : y.record.index = x.record.index) : Standing y := by
  obtain ⟨start, hstart, hgraph⟩ := h.graph
  have hnext : y.record.nextNodeId = x.record.nextNodeId := congrArg Index.nextNodeId hindex
  have hheads : y.record.heads = x.record.heads := congrArg Index.heads hindex
  have hdone : y.record.done = x.record.done := congrArg Index.done hindex
  constructor
  case sane => exact hsane
  case graph =>
    refine ⟨start, (congrArg Index.flowStart hindex).trans hstart, ?_⟩
    rw [hshapes, hnext]
    exact hgraph
  all_goals simp only [hshapes, hheads, hdone]
  case joins => exact h.joins
  case tips => exact h.tips
  case lined => exact h.lined
  case open_tips => exact h.open_tips

theorem light (h : Standing x) (hxy : Light x y) : Standing y :=
  h.of_same (hxy.archive h.sane).sane (hxy.archive h.sane).shapes hxy.index

/-- **A history that has ended stands as before**: its end is on the line of the first head. -/
theorem ends (h : Standing x) (hopen : x.record.done = false) (hends : Ends x y) : Standing y := by
  obtain ⟨start, hstart, hgraph⟩ := h.graph
  obtain ⟨node, start', hshapes, hstart', hid, hkind, hparents⟩ := hends.node
  obtain ⟨head, tip, hmem, hindex⟩ := hends.index
  have hnext : y.record.nextNodeId = x.record.nextNodeId + 1 := congrArg Index.nextNodeId hindex
  have hheads : y.record.heads = [(head, x.record.nextNodeId)] := congrArg Index.heads hindex
  have hnoEnd : ∀ s, node.kind ≠ .blockEnd s := by
    rw [hkind]
    exact fun s => NodeKind.noConfusion
  constructor
  case sane => exact hends.sane
  case graph =>
    refine ⟨start, (congrArg Index.flowStart hindex).trans hstart, ?_⟩
    rw [hshapes, hnext]
    refine hgraph.append hid (fun p hp => ?_) (by rw [hkind]; simp) fun s hs => absurd hs (hnoEnd s)
    rw [hparents] at hp
    obtain ⟨entry, hentry, rfl⟩ := List.mem_map.mp hp
    exact h.tips hentry
  case joins =>
    rw [hshapes]
    exact joins_append hgraph h.joins (fun hno => by rw [hkind] at hno; cases hno)
      (fun hno => absurd hno (hnoEnd _)) fun hno => absurd hno (hnoEnd _)
  case tips =>
    intro head' tip' hmem'
    rw [hheads, List.mem_singleton] at hmem'
    cases hmem'
    rw [hshapes]
    exact ⟨node, changed_self _ _ _⟩
  case lined =>
    obtain ⟨⟨first, last⟩, rest, hcons⟩ := List.exists_cons_of_ne_nil (List.ne_nil_of_mem hmem)
    obtain ⟨blocks, hafter, hblocks⟩ := h.open_tips hopen (hcons ▸ List.mem_cons_self)
    -- of all parents only the tip of the first head is on the line of the end
    have hline : node.lineParents = [last] := by
      rw [Node.lineParents, hkind, hparents, hcons]
      rfl
    rw [hshapes]
    exact h.lined.append_tip hgraph hline hafter hblocks fun s hs => absurd hs (hnoEnd s)
  case open_tips =>
    intro hno
    rw [hends.done] at hno
    cases hno

end Standing

/-- **An execution that is over**: its history stands, and nothing is left that could add to it. -/
structure Concluded (x : Execution) : Prop extends Standing x where
  done : x.record.done = true
  closed : x.record.startNodes = []
  threads : ∀ t, Table.find? t x.program.threads = none
  steps : ∀ n, x.program.stepAt n = none

namespace Concluded

variable {x y : Execution}

theorem still (h : Concluded x) (hxy : Still x y) : Concluded y := by
  refine ⟨h.toStanding.light hxy.toLight, ?_, ?_, fun t => ?_, fun n => ?_⟩
  · exact (congrArg Index.done hxy.index).trans h.done
  · exact (congrArg Index.startNodes hxy.index).trans h.closed
  · have hpost := hxy.posts t
    rw [h.threads] at hpost
    exact Option.map_eq_none_iff.mp hpost
  · have hseat := congrFun hxy.seats n
    unfold LiveProgram.seats at hseat
    rw [h.steps] at hseat
    exact Option.map_eq_none_iff.mp hseat

end Concluded

/-! ## Nothing happens to a history that has ended -/

section Stillness

variable {x y : Execution}

theorem Still.of_parts (hprogram : y.program = x.program) (harchive : y.archive = x.archive)
    (hrecord : y.record = x.record) (hengine : y.engine = x.engine) : Still x y := by
  refine ⟨.of_record harchive (by rw [hrecord]), hengine, fun t => ?_, ?_⟩ <;> rw [hprogram]

theorem still_hooks (node : Nat) : AlongHooks Still node :=
  (Report.alongHooks node).imp ⟨.refl, .trans⟩ Report.still

/-- **What the clock and the host do** leaves the history as it is. -/
theorem still_host : AlongHost Still where
  refl := .refl
  trans := .trans
  hooks := still_hooks
  aside _ _ _ _ _ := .of_parts rfl rfl rfl rfl

theorem still_orderStop (x : Execution) (scope : Option Nat) (cause : Failure) :
    Still x (x.orderStop scope cause) := by
  refine ⟨.of_record rfl rfl, rfl, fun t => ?_, rfl⟩
  exact congrFun (posts_injectIdle x scope cause) t

theorem Still.of_quiet_act {α : Type} {act : Act α} (hquiet : Quietly act) (hlight : Lightly act)
    (x : Execution) : Still x (act.after x) := .of_quiet (hquiet x) (hlight x)

end Stillness

namespace Concluded

variable {x : Execution}

/-- Without steps a job finds nothing to do. -/
theorem still_handle (h : Concluded x) (job : Job) : Still x (x.handle job) := by
  cases job with
  | run => exact .refl x
  | completeStep node =>
    show Still x (x.completeStep node)
    unfold Execution.completeStep
    rw [show Table.find? node x.program.steps = none from h.steps node]
    exact .refl x
  | startBodies node =>
    show Still x (x.startBodies node)
    unfold Execution.startBodies Execution.takeBodies
    rw [show Table.find? node x.program.steps = none from h.steps node]
    exact .refl x
  | checkpoint =>
    exact .of_quiet (Quiet.alongCheckpoints.saveCheckpoint x) (Light.alongCheckpoints.saveCheckpoint x)
  | stopTargets scope cause => exact still_orderStop x scope cause

theorem still_work (h : Concluded x) : Still x x.work := by
  unfold Execution.work
  split
  · exact .refl x
  · next job rest _ =>
    have htaken : Still x (x.withJobs rest) := .of_parts rfl rfl rfl rfl
    exact htaken.trans ((h.still htaken).still_handle job)

theorem still_runThread (h : Concluded x) (id : Nat) : Still x (x.runThread id) := by
  have hlast : Still x (x.mapProgram fun p => { p with lastRun := some id }) :=
    ⟨.of_record rfl rfl, rfl, fun _ => rfl, rfl⟩
  unfold Execution.runThread
  dsimp only
  rw [show Table.find? id (x.mapProgram fun p => { p with lastRun := some id }).program.threads = none
    from h.threads id]
  exact hlast

theorem still_close (h : Concluded x) (advanced : Bool) :
    Still x (Turn.close { advanced, execution := x }) := by
  unfold Turn.close
  dsimp only
  split
  · exact .refl x
  · split
    · have hended : Still x (x.mapProgram fun p => { p with finished := true, rootOutcome := none }) :=
        ⟨.of_record rfl rfl, rfl, fun _ => rfl, rfl⟩
      unfold Execution.endProgram
      rw [finish_done (x := x.mapProgram _) h.done]
      exact hended
    · split
      · exact .of_quiet (Quiet.alongCheckpoints.whenIdle x) (Light.alongCheckpoints.whenIdle x)
      · exact .refl x

/-- **Nothing happens to a history that has ended.** -/
theorem still_happen (h : Concluded x) (event : Event) : Still x (x.happen event) := by
  have hquiet := Quiet.alongCheckpoints
  have hlight := Light.alongCheckpoints
  cases event with
  | work => exact h.still_work
  | run thread => exact h.still_runThread thread
  | markStale => exact .of_quiet (hquiet.markStale x) (hlight.markStale x)
  | close advanced => exact h.still_close advanced
  | submit job => exact .of_quiet (quiet_submit x job) (light_submit x job)
  | effect node effect => exact (still_hooks node).applyEffect x effect
  | remember node memory =>
    exact (Report.adjustStep x node fun step => ⟨step.cell, memory, rfl⟩).still
  | signal name outcome => exact still_host.signal x name outcome
  | fireTimers => exact still_host.fireTimers x
  | stopNext => exact still_host.stopNext x
  | pause on => exact .of_quiet_act (hquiet.pause on) (hlight.pause on) x
  | interrupt result causes =>
    exact .of_quiet_act (hquiet.interrupt result causes) (hlight.interrupt result causes) x
  | cancelScope node cause =>
    exact .of_quiet_act (hquiet.cancelScope node cause) (hlight.cancelScope node cause) x
  | checkpoint => exact .of_quiet_act hquiet.checkpoint hlight.checkpoint x
  | suspend => exact .of_quiet (hquiet.suspend x) (hlight.suspend x)
  | pass now clock => exact .of_parts rfl rfl rfl rfl

end Concluded

/-! ## The end of a program that is over -/

/-- **A program ends by itself**: no thread is left, and one head is. -/
structure EndsAlone (x y : Execution) : Prop extends Ends x y where
  head : ∃ head tip, x.record.heads = [(head, tip)]
  unfinished : ∀ {n node}, x.archive.shapes n = some node → ∀ s, node.kind ≠ .flowEnd s
  closed : ∀ s, ¬ Open x.archive.shapes s

namespace Going

variable {x : Execution} {origin : Origin}

theorem tip_present {running : Option Thread} {tasks : List BodyTask} (h : Going x origin running tasks) :
    ∃ tip, Table.find? origin.head x.record.heads = some tip :=
  Option.isSome_iff_exists.mp (h.orderly.heads.mpr (.inl rfl))

/-- **The program is over**, and with it the execution. -/
theorem endProgram (h : Going x origin none []) (hover : x.program.isOver = true) :
    EndsAlone x x.endProgram ∧ Concluded x.endProgram := by
  obtain ⟨start, hstart⟩ := Option.isSome_iff_exists.mp h.record.started
  obtain ⟨tip, htip⟩ := h.tip_present
  unfold LiveProgram.isOver at hover
  rw [Bool.and_eq_true, List.isEmpty_iff, List.isEmpty_iff] at hover
  have hposts : ∀ t, x.program.posts none t = none := by
    intro t
    unfold LiveProgram.posts LiveProgram.threadAt
    rw [hover.1]
    rfl
  -- a head other than the first belongs to a thread, and no thread is left
  have hheads : x.record.heads = [(origin.head, tip)] := by
    refine h.record.sorted.ext (Table.Sorted.nil.insert origin.head tip) fun head => ?_
    show _ = Table.find? head (Table.insert origin.head tip [])
    rw [Table.find?_insert]
    split
    · next heq =>
      rw [heq]
      exact htip
    · next hne =>
      exact Option.not_isSome_iff_eq_none.mp (mt (h.orderly.one_head hposts).mp hne)
  -- an open block has a step or a branch that some thread is in
  have hnothing : ∀ s, ¬ Open x.archive.shapes s := by
    intro s hs
    have hmem := h.orderly.opened.mpr hs
    rw [h.orderly.nothing_open hposts] at hmem
    cases hmem
  let emptied : Execution := x.mapProgram fun p => { p with finished := true, rootOutcome := none }
  have hends : Ends x x.endProgram := by
    refine .of_light (y := emptied) (.of_record rfl rfl) h.sane ?_
    refine ends_finish (x := emptied) h.sane h.record.unfinished hstart ?_ _
    rw [show emptied.record.heads = x.record.heads from rfl, hheads]
    exact List.cons_ne_nil _ _
  have hprogram : x.endProgram.program = emptied.program := (quiet_finish emptied _).program
  refine ⟨⟨hends, ⟨_, tip, hheads⟩, h.orderly.unfinished, hnothing⟩, h.standing.ends h.record.unfinished hends,
    hends.done, hends.closed, ?_, ?_⟩
  · intro t
    rw [hprogram, show emptied.program.threads = x.program.threads from rfl, hover.1]
    rfl
  · intro n
    unfold LiveProgram.stepAt
    rw [hprogram, show emptied.program.steps = x.program.steps from rfl, hover.2]
    rfl

/-- A turn of the lane comes to its end. -/
theorem close (h : Going x origin none []) (advanced : Bool) :
    Going (Turn.close { advanced, execution := x }) origin none [] ∨
      EndsAlone x (Turn.close { advanced, execution := x }) ∧
        Concluded (Turn.close { advanced, execution := x }) := by
  unfold Turn.close
  dsimp only
  split
  · exact .inl h
  · split
    · next hover => exact .inr (h.endProgram hover)
    · split
      · exact .inl (h.quiet (Quiet.alongCheckpoints.whenIdle x) (Light.alongCheckpoints.whenIdle x))
      · exact .inl h

/-- **Each event keeps an execution in order, or ends it.** -/
theorem happen (h : Going x origin none []) (hsound : Sound x none) (event : Event)
    (houtside : event.isOutside = true) :
    Going (x.happen event) origin none [] ∨
      EndsAlone x (x.happen event) ∧ Concluded (x.happen event) := by
  cases event with
  | close advanced => exact h.close advanced
  | _ => exact .inl ((turnwise origin).happen h hsound houtside fun _ hno => (by cases hno))

end Going

end Execution

end DurableFlow
