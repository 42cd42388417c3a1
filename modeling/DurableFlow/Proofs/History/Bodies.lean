/-
Starting bodies keeps an execution in order.

A body whose turn has come is put on the head of its step or on a branch of its own. If it
gets a thread, that is one move of the scene. If it is over in place, the scene goes the way
of a thread that ends at once: its branch is opened and closed as if a thread with the next
number had been on it, and what is left of the body is its outcome, which is new to the step.
-/
import DurableFlow.Proofs.History.Finishing

set_option autoImplicit false

namespace DurableFlow

open Script History

namespace Execution

/-! ## Programs in which a step is adjusted -/

/-- What is read off a step and not adjusted is as before. -/
theorem map_stepAt_adjust {α : Type} {p : LiveProgram} {node : Nat} {f : LiveStep → LiveStep}
    {g : LiveStep → α} (hf : ∀ step, g (f step) = g step) :
    (fun n => ((p.adjustStep node f).stepAt n).map g) = fun n => (p.stepAt n).map g := by
  rw [LiveProgram.stepAt_adjustStep]
  funext n
  dsimp only
  rw [Option.map_map]
  congr 1
  funext step
  dsimp only [Function.comp]
  split
  · exact hf step
  · rfl

/-! ## Threads for bodies -/

section Spawning

variable {x : Execution} {running : Option Thread}

/-- The number of the next thread is free. -/
theorem posts_next (h : Sound x running) :
    x.program.posts running (x.record.threadsCreated + 1) = none :=
  congrArg (Option.map Thread.post) (threadAt_next h)

theorem posts_spawnBody (hfresh : ∀ r, running = some r → x.record.threadsCreated + 1 ≠ r.id)
    (step : LiveStep) (body : PendingBody) (branch : Option Branch) (machine : Machine) :
    (x.spawnBody step body branch machine).program.posts running =
      changed (x.program.posts running) (x.record.threadsCreated + 1)
        (some
          { head := (branch.map Branch.head).getD step.head, step := none
            completions := [.body step.node body.index branch] }) :=
  posts_of_threadAt (threadAt_spawnBody hfresh step body branch machine)

variable (x) (step : LiveStep) (body : PendingBody) (branch : Option Branch) (machine : Machine)

theorem seats_spawnBody :
    (x.spawnBody step body branch machine).program.seats = x.program.seats :=
  map_stepAt_adjust (p := x.program) (g := LiveStep.seat) fun _ => rfl

theorem ledgers_spawnBody :
    (x.spawnBody step body branch machine).program.ledgers = x.program.ledgers :=
  map_stepAt_adjust (p := x.program) (g := LiveStep.ledger) fun _ => rfl

theorem onto_spawnBody : Onto x (x.spawnBody step body branch machine) := by
  refine ⟨⟨rfl, rfl, rfl⟩, rfl, fun hstep' => ?_⟩
  obtain ⟨old, hold, rfl | rfl⟩ := LiveProgram.stepAt_adjustStep_cases hstep'
  · exact ⟨_, hold, rfl, rfl, rfl⟩
  · exact ⟨_, hold, rfl, rfl, rfl⟩

end Spawning

/-! ## A body whose turn has come -/

namespace Books

variable {I : Execution → Option Thread → List BodyTask → Prop}
  {tip : Execution → Nat → LiveStep → Option Nat} {asks : LiveStep → PendingBody → Prop}
  (B : Books I tip asks) {x : Execution} {running : Option Thread} {tasks : List BodyTask}
  {node : Nat} {step : LiveStep} {body : PendingBody}

include B

theorem forget_start (h : I x running (.start node body :: tasks)) : I x running tasks := by
  refine B.forget h fun n => ?_
  rw [bodiesIn_start]
  split
  · exact List.sublist_cons_self _ _
  · exact List.Sublist.refl _

/-- **A body that was to be started** is new to its step. -/
theorem ready_start (h : I x running (.start node body :: tasks))
    (hstep : x.program.stepAt node = some step) : Ready x running tasks node body.index := by
  have haccount := B.account h hstep
  rw [bodiesIn_start, if_pos rfl] at haccount
  have hmem : body ∈ body :: bodiesIn tasks node := List.mem_cons_self
  constructor
  case awaited =>
    intro step' hstep'
    rw [hstep] at hstep'
    cases hstep'
    exact ⟨(haccount.waits body hmem).1, (haccount.waits body hmem).2.1⟩
  case waits =>
    have hnodup := haccount.once
    rw [List.map_cons, List.nodup_cons] at hnodup
    intro other hother heq
    exact hnodup.1 (heq ▸ List.mem_map_of_mem hother)
  case runs =>
    intro t post branch hpost hbody
    exact (haccount.runs hpost hbody).2.2.2 body hmem rfl

end Books

namespace Going

variable {x y : Execution} {origin : Origin} {running : Option Thread} {tasks : List BodyTask}
  {node : Nat} {step : LiveStep} {body : PendingBody} {machine : Machine}

/-- The bodies of a step are left without the first one. -/
theorem pending_start (node : Nat) (body : PendingBody) (tasks : List BodyTask) (n : Nat) :
    bodiesIn tasks n = if n = node then [] ++ bodiesIn tasks node else
      bodiesIn (.start node body :: tasks) n := by
  rw [bodiesIn_start]
  by_cases hn : n = node
  · rw [if_pos hn, hn, List.nil_append]
  · rw [if_neg hn, if_neg hn]

theorem waits_start (node : Nat) (body : PendingBody) (tasks : List BodyTask) :
    bodiesIn (.start node body :: tasks) node = [] ++ body :: bodiesIn tasks node := by
  rw [bodiesIn_start, if_pos rfl, List.nil_append]

/-- Whoever is free has nothing to do with the body. -/
theorem free_start {n : Nat} (hnothing : bodiesIn (.start node body :: tasks) n = []) :
    n ≠ node ∧ bodiesIn tasks n = [] := by
  rw [bodiesIn_start] at hnothing
  split at hnothing
  · cases hnothing
  · next hn => exact ⟨hn, hnothing⟩

/-- One more thread runs for another step only. -/
theorem over_spawned {posts : Nat → Option Post} {t n index head : Nat} {waits : Option Nat}
    {branch : Option Branch} (hn : n ≠ node) (hover : History.Over posts n) :
    History.Over
      (changed posts t (some { head, step := waits, completions := [.body node index branch] })) n := by
  intro u other hother hruns
  rcases changed_eq_some.mp hother with ⟨_, heq⟩ | ⟨_, hold⟩
  · cases heq
    obtain ⟨i, b, hbody⟩ := hruns
    cases hbody
    exact hn rfl
  · exact hover u other hold hruns

/-- **A body gets a thread** on the head of its step. -/
theorem spawnPlain (h : Going x origin running (.start node body :: tasks)) (hsound : Sound x running)
    (hstep : x.program.stepAt node = some step) (hplain : body.branch = none) :
    Going (x.spawnBody step body none machine) origin running tasks := by
  have hnode : step.node = node := hsound.links.node hstep
  have hposts := posts_spawnBody (fun _ hr => running_ne_next hsound hr) step body none machine
  rw [hnode] at hposts
  have hscene : (x.spawnBody step body none machine).scene origin.head running =
      (x.scene origin.head running).spawn (x.record.threadsCreated + 1) node body.index step.seat :=
    scene_eq rfl rfl rfl rfl rfl rfl rfl hposts (seats_spawnBody x step body none machine)
  have hmove := h.orderly.spawn (posts_next hsound) (LiveProgram.seats_of_stepAt hstep)
    (LiveProgram.ledgers_of_stepAt hstep) (waits_start node body tasks) (pending_start node body tasks)
    hplain
  rw [← hscene, ← ledgers_spawnBody x step body none machine] at hmove
  refine h.onto (onto_spawnBody x step body none machine) h.sane (.refl _) ?_ hmove (Nat.le_refl _)
    fun n _ hover hnothing => ?_
  · exact ⟨h.record.unfinished, h.record.started, h.record.sorted⟩
  · obtain ⟨hn, hleft⟩ := free_start hnothing
    rw [hposts]
    exact ⟨over_spawned hn hover, hleft⟩

/-! ### Branches -/

/-- **A branch is opened** for a body, at the node of its step. -/
theorem openBranch_start (h : Going x origin running (.start node body :: tasks))
    (hstep : x.program.stepAt node = some step) (name : String) :
    ∃ archive, Execution.openBranch step.head name x =
        (.ok ⟨x.record.nextHeadId, x.record.nextNodeId⟩, { x with
          archive
          record := (branched x.record node
            (x.appended node (.blockStart true) "branch" name)).touch x.clock }) ∧
      archive.Sane ∧ archive.shapes = changed x.archive.shapes x.record.nextNodeId
        (some (x.appended node (.blockStart true) "branch" name)) := by
  have htip : (x.scene origin.head running).tips step.seat.head = some node :=
    h.orderly.tip_of_waiting (LiveProgram.seats_of_stepAt hstep)
      (LiveProgram.ledgers_of_stepAt hstep) (waits_start node body tasks)
  exact openBranch_eq h.sane h.record.unfinished htip name

/-- The record after a branch was opened, in the terms of a scene. -/
theorem tips_branched (r : Record) (tip : Nat) (node : Node) :
    (fun k => Table.find? k (branched r tip node).heads) =
      changed (fun k => Table.find? k r.heads) r.nextHeadId (some node.id) := by
  show (fun k => Table.find? k (Table.insert _ _ (Table.insert _ _ r.heads))) = _
  rw [tips_insert, tips_insert, changed_changed]

theorem ongoing_branched {r : Record} (h : Ongoing r) (tip : Nat) (node : Node) :
    Ongoing (branched r tip node) :=
  ⟨h.unfinished, h.started, (h.sorted.insert _ _).insert _ _⟩

/-- **A body gets a thread** on a branch of its own. -/
theorem spawnBranch (h : Going x origin running (.start node body :: tasks)) (hsound : Sound x running)
    (hstep : x.program.stepAt node = some step) {name : String} (hname : body.branch = some name)
    {branch : Branch} (hopen : Execution.openBranch step.head name x = (.ok branch, y)) :
    Going (y.spawnBody step body (some branch) machine) origin running tasks := by
  have hnode : step.node = node := hsound.links.node hstep
  -- the block of a step with bodies is open, so the branch can be opened
  obtain ⟨archive, heq, hsane, hshapes⟩ := h.openBranch_start hstep name
  rw [heq] at hopen
  cases hopen
  let first : Node := x.appended node (.blockStart true) "branch" name
  let opened : Execution := { x with archive, record := (branched x.record node first).touch x.clock }
  let branch : Branch := ⟨x.record.nextHeadId, x.record.nextNodeId⟩
  have hposts : (opened.spawnBody step body (some branch) machine).program.posts running = _ :=
    posts_spawnBody (fun _ hr => running_ne_next hsound hr) step body (some branch) machine
  rw [hnode] at hposts
  have hscene : (opened.spawnBody step body (some branch) machine).scene origin.head running =
      (x.scene origin.head running).openBranch (x.record.threadsCreated + 1) node body.index first :=
    scene_eq hshapes rfl rfl (tips_branched _ _ _) rfl rfl rfl hposts (seats_spawnBody _ _ _ _ _)
  have hmove : Orderly ((x.scene origin.head running).openBranch _ node body.index first) _ _ :=
    h.orderly.openBranch (posts_next hsound) (LiveProgram.seats_of_stepAt hstep)
      (LiveProgram.ledgers_of_stepAt hstep) (waits_start node body tasks)
      (pending_start node body tasks) (by rw [hname]; rfl) rfl rfl rfl
  rw [← hscene] at hmove
  have honto : Onto x opened := ⟨⟨rfl, rfl, rfl⟩, rfl, fun hold => ⟨_, hold, rfl, rfl, rfl⟩⟩
  have hledgers : (opened.spawnBody step body (some branch) machine).program.ledgers =
      x.program.ledgers := ledgers_spawnBody _ _ _ _ _
  rw [← hledgers] at hmove
  refine h.onto (honto.trans (onto_spawnBody _ _ _ _ _)) hsane (h.extends_next hshapes) ?_ hmove
    (Nat.le_succ _) fun n _ hover hnothing => ?_
  · have hongoing := ongoing_branched h.record node first
    exact ⟨hongoing.unfinished, hongoing.started, hongoing.sorted⟩
  · obtain ⟨hn, hleft⟩ := free_start hnothing
    rw [hposts]
    exact ⟨over_spawned hn hover, hleft⟩

/-- **A body with a branch is over in place**: the branch is closed, and the outcome is new. -/
theorem closeBranch_start (h : Going x origin running (.start node body :: tasks))
    (hsound : Sound x running) (hstep : x.program.stepAt node = some step) {name : String}
    (hname : body.branch = some name) {branch : Branch}
    (hopen : Execution.openBranch step.head name x = (.ok branch, y)) (error : Option Failure) :
    Going (y.closeBranch node branch error) origin running tasks ∧
      Ready (y.closeBranch node branch error) running tasks node body.index := by
  have hready := (books origin).ready_start h hstep
  obtain ⟨archive, heq, hsane, hshapes⟩ := h.openBranch_start hstep name
  rw [heq] at hopen
  cases hopen
  let first : Node := x.appended node (.blockStart true) "branch" name
  let opened : Execution := { x with archive, record := (branched x.record node first).touch x.clock }
  have hbranched := ongoing_branched h.record node first
  have hongoing : Ongoing opened.record := ⟨hbranched.unfinished, hbranched.started, hbranched.sorted⟩
  have htip : opened.headTip x.record.nextHeadId = some x.record.nextNodeId :=
    Table.find?_insert_self _ _ _
  have hfirst : opened.archive.shapes x.record.nextNodeId = some first := by
    rw [show opened.archive.shapes = _ from hshapes]
    exact changed_self _ _ _
  -- the branch is closed where it was opened
  obtain ⟨archive', last, hclose, hsane', hshapes', hid, hkind, hparents⟩ :=
    endBranch_eq (x := opened) ⟨x.record.nextHeadId, x.record.nextNodeId⟩ hsane
      hongoing.unfinished htip hfirst rfl error
  let left : Execution := { opened with
    archive := archive'
    record := (unbranched opened.record x.record.nextHeadId x.record.nextNodeId).touch x.clock }
  let keep (s : LiveStep) : LiveStep :=
    { s with branchTips := s.branchTips ++ [x.record.nextNodeId + 1] }
  have hz : opened.closeBranch node ⟨x.record.nextHeadId, x.record.nextNodeId⟩ error =
      left.mapProgram (·.adjustStep node keep) := by
    unfold Execution.closeBranch
    rw [hclose]
    rfl
  have hstepAt : (x.program.adjustStep node keep).stepAt =
      changed x.program.stepAt node (some (keep step)) := LiveProgram.stepAt_adjustStep_of_live hstep keep
  have hledgers : (x.program.adjustStep node keep).ledgers = x.program.ledgers :=
    map_stepAt_adjust (g := LiveStep.ledger) fun _ => rfl
  -- the thread that would have run the body comes and goes
  have hposts : (x.program.adjustStep node keep).posts running =
      changed (changed (x.program.posts running) (x.record.threadsCreated + 1)
        (some { head := x.record.nextHeadId, step := none
                completions := [.body node body.index
                  (some ⟨x.record.nextHeadId, x.record.nextNodeId⟩)] }))
        (x.record.threadsCreated + 1) none := by
    rw [changed_changed, changed_eq_self (posts_next hsound)]
    rfl
  have htips : (fun k => Table.find? k left.record.heads) =
      changed (changed (fun k => Table.find? k x.record.heads) x.record.nextHeadId
        (some x.record.nextNodeId)) x.record.nextHeadId none := by
    show (fun k => Table.find? k (Table.erase _ (Table.insert _ _ opened.record.heads))) = _
    rw [tips_erase (hongoing.sorted.insert _ _), tips_insert, changed_changed]
    exact congrArg (changed · _ _) (tips_branched _ _ _)
  have hnodes : archive'.shapes = changed (changed x.archive.shapes x.record.nextNodeId (some first))
      (x.record.nextNodeId + 1) (some last) := by
    rw [hshapes', ← hshapes]
    rfl
  have hstart : left.record.flowStart = x.record.flowStart := by
    simp only [left, opened, Record.touch, flowStart_unbranched, flowStart_branched]
  -- to the history this is the start and the end of a body with a branch
  have hscene : (left.mapProgram (·.adjustStep node keep)).scene origin.head running =
      ((x.scene origin.head running).openBranch (x.record.threadsCreated + 1) node body.index first).endBranch
        (x.record.threadsCreated + 1) node ⟨x.record.nextHeadId, x.record.nextNodeId⟩ step.seat last :=
    scene_eq hnodes rfl (congrArg (·.getD 0) hstart) htips rfl rfl rfl hposts (seats_of_stepAt hstepAt)
  have hopened : Orderly ((x.scene origin.head running).openBranch (x.record.threadsCreated + 1) node
      body.index first) _ _ :=
    h.orderly.openBranch (posts_next hsound) (LiveProgram.seats_of_stepAt hstep)
      (LiveProgram.ledgers_of_stepAt hstep) (waits_start node body tasks)
      (pending_start node body tasks) (by rw [hname]; rfl) rfl rfl rfl
  have hclosed : Orderly ((left.mapProgram (·.adjustStep node keep)).scene origin.head running)
      (x.program.adjustStep node keep).ledgers (bodiesIn tasks) := by
    rw [hscene, hledgers]
    exact hopened.endBranch (changed_self _ _ _) rfl rfl (LiveProgram.seats_of_stepAt hstep) hid hkind
      (changed_self _ _ _) hparents
  have honto : Onto x (left.mapProgram (·.adjustStep node keep)) := by
    refine ⟨⟨rfl, rfl, rfl⟩, rfl, fun hstep' => ?_⟩
    obtain ⟨old, hold, rfl | rfl⟩ := LiveProgram.stepAt_adjustStep_cases hstep'
    · exact ⟨_, hold, rfl, rfl, rfl⟩
    · exact ⟨_, hold, rfl, rfl, rfl⟩
  have hsorted : Table.Sorted left.record.heads := (hongoing.sorted.insert _ _).erase _
  have hext : Extends x.archive.shapes archive'.shapes := by
    rw [hnodes]
    exact (h.orderly.graph.extends_append first).trans (hopened.graph.extends_append last)
  rw [show (Execution.closeBranch _ node _ error) = _ from hz]
  refine ⟨?_, ?_⟩
  · refine h.onto honto hsane' hext ⟨hongoing.unfinished, hongoing.started, hsorted⟩ hclosed
      (Nat.le_add_right _ 2) fun n _ hover hnothing => ?_
    exact ⟨hover, (free_start hnothing).2⟩
  · refine ⟨fun hstep' => ?_, hready.waits, hready.runs⟩
    rw [show (left.mapProgram (·.adjustStep node keep)).program.stepAt = _ from hstepAt,
      changed_self] at hstep'
    cases hstep'
    have hawaited := hready.awaited hstep
    exact hawaited

/-- **A body is started.** -/
theorem startBody (h : Going x origin running (.start node body :: tasks)) (hsound : Sound x running)
    (hstep : x.program.stepAt node = some step) :
    Going (x.startBody step body).2 origin running ((x.startBody step body).1 ++ tasks) := by
  have hnode : step.node = node := hsound.links.node hstep
  have hready := (books origin).ready_start h hstep
  have hleft : Going x origin running tasks := (books origin).forget_start h
  unfold Execution.startBody
  rw [hnode]
  split
  · exact (books origin).bodyEnded hleft hready _
  · next closure _ =>
    cases hname : body.branch with
    | none =>
      have hopen : openBranch? step.head none x = (.ok none, x) := rfl
      rw [hopen]
      dsimp only
      split
      · exact (books origin).bodyEnded hleft hready _
      · exact h.spawnPlain hsound hstep hname
    | some name =>
      obtain ⟨archive, heq, _⟩ := h.openBranch_start hstep name
      have hopen : openBranch? step.head (some name) x =
          (.ok (some ⟨x.record.nextHeadId, x.record.nextNodeId⟩), _) := Attempt.bind_of_ok heq
      rw [hopen]
      dsimp only
      split
      · next outcome _ =>
        -- a body that is over in place gets no thread
        obtain ⟨hclosed, hready'⟩ :=
          h.closeBranch_start hsound hstep hname heq (failureOf? outcome)
        exact (books origin).bodyEnded hclosed hready' outcome
      · exact h.spawnBranch hsound hstep hname heq

/-- The history is kept in order by the work. -/
theorem works (origin : Origin) : Works (fun x running tasks => Going x origin running tasks)
    (fun x _ step => Table.find? step.head x.record.heads) fun _ _ => True where
  toBooks := books origin
  startBody h := h.startBody
  finish h hsound hstep hdone hthread hplace cell outcome hy f :=
    h.finish hsound hstep hdone hthread (congrArg Prod.fst hplace) cell outcome hy f

end Going

/-! ## Tasks -/

namespace Works

variable {I : Execution → Option Thread → List BodyTask → Prop}
  {tip : Execution → Nat → LiveStep → Option Nat} {asks : LiveStep → PendingBody → Prop}
  (W : Works I tip asks) {x : Execution} {running : Option Thread} {tasks : List BodyTask} {node : Nat}

include W

/-- **A task is done**, and what it leads to is left to do. -/
theorem bodyTask {task : BodyTask} (h : I x running (task :: tasks)) (hsteady : Steady x running) :
    I (x.bodyTask task).2 running ((x.bodyTask task).1 ++ tasks) := by
  cases task with
  | start node body =>
    unfold Execution.bodyTask
    dsimp only
    split
    · exact W.forget_start h
    · next step hlive => exact W.startBody h hsteady.toSound hlive
  | conclude node =>
    have hleft : I x running tasks := W.retask h fun _ => rfl
    unfold Execution.bodyTask
    dsimp only
    split
    · exact hleft
    · next step hlive =>
      split
      · next hready =>
        -- only an asynchronous step is completed
        refine W.completeStep hleft hsteady.toSound node fun other hother => ?_
        rw [show x.program.stepAt node = some step from hlive] at hother
        cases hother
        exact (Bool.and_eq_true_iff.mp hready).1
      · exact hleft

/-- **Doing tasks keeps the invariant**; those for which there is no time are forgotten. -/
theorem doTasks (h : I x running tasks) (hsteady : Steady x running) (fuel : Nat) :
    I (Execution.doTasks fuel tasks x) running [] := by
  induction fuel generalizing x tasks with
  | zero => exact W.forget h fun n => List.nil_sublist _
  | succ fuel ih =>
    cases tasks with
    | nil => exact h
    | cons task rest => exact ih (W.bodyTask h hsteady) (hsteady.bodyTask task)

/-- **The end of a body and what follows.** -/
theorem endBody (h : I x running []) (hsteady : Steady x running) {index : Nat}
    (hready : Ready x running [] node index) (outcome : Outcome) :
    I (x.endBody node index outcome) running [] := by
  have hended := W.bodyEnded h hready outcome
  rw [List.append_nil] at hended
  exact W.doTasks hended (hsteady.bodyEnded node index outcome) _

end Works

end Execution

end DurableFlow
