/-
Step calls keep an execution in order.

The node of a call goes behind the tip of its thread's head, and the step has that node. The
hook that starts it asks for all of its bodies at once, so these are the bodies of its account
from then on, or it asks for none and may have its outcome right away. Then the thread takes
the outcome, or waits.
-/
import DurableFlow.Proofs.History.Bodies
import DurableFlow.Proofs.Scheduler.Threads

set_option autoImplicit false

namespace DurableFlow

open Script History Text

namespace Step

/-- A call with branches starts without outcomes. -/
theorem outcomesOf_create : ∀ d ∈ standard, branching d.function = true →
    ∀ {clock args memory}, d.create clock args = .ok memory → outcomesOf memory = [] := by
  apply forall_standard
  case hparallel =>
    intro _ clock args memory h
    replace h : (closures args).map (fun _ => StepMemory.results []) = .ok memory := h
    cases hclosures : closures args with
    | error failure =>
      rw [hclosures] at h
      cases h
    | ok branches =>
      rw [hclosures] at h
      cases h
      rfl
  all_goals exact fun hno => absurd hno (by decide)

end Step

/-- A step starts with no outcome of a body taken in. -/
theorem LiveStep.settled_of_create {step : LiveStep} {d : StepDef} {clock : Timestamp}
    {args : List Val} {memory : StepMemory} (hd : Step.standard.find? step.function = some d)
    (hcreate : d.create clock args = .ok memory) (hmemory : step.memory = memory) :
    step.ledger.settled = [] := by
  obtain ⟨hname, hmem⟩ := Step.mem_standard hd
  rw [LiveStep.ledger_settled]
  split
  · next hbranching =>
    rw [hmemory, Step.outcomesOf_create d hmem (hname ▸ hbranching) hcreate]
    rfl
  · rfl

namespace Execution

/-! ## The node of a call -/

/-- The record after a node was appended for a step. -/
def called (x : Execution) (head tip : Nat) (kind : NodeKind) (function displayName : String) : Record :=
  (advanceHead head (x.appended tip kind function displayName) x.record.allocateNode.2).touch x.clock

/-- A step that was put among the others, before its start. -/
structure Placed (I : Execution → Option Thread → List BodyTask → Prop)
    (tip : Execution → Nat → LiveStep → Option Nat) (x : Execution) (r : Thread) (step : LiveStep) :
    Prop where
  kept : I x (some { r with step := some step.node }) []
  live : x.program.stepAt step.node = some step
  free : Free x (some { r with step := some step.node }) [] step.node
  unnamed : ¬ Named x step.node
  tip : tip x step.node step = some step.node

section Placing

variable {x : Execution} {origin : Origin} {r : Thread} {step : LiveStep} {program : LiveProgram}
  {archive : Archive} {tip : Nat} {function displayName : String}

/-- **A call gets its node, and the step that it starts is live.** -/
theorem Going.placed (h : Going x origin (some r) []) (hidle : r.step = none)
    (htip : x.headTip r.head = some tip) (hsane : archive.Sane)
    (hshapes : archive.shapes = changed x.archive.shapes x.record.nextNodeId
      (some (x.appended tip (if step.isBlock then .blockStart false else .atom) function displayName)))
    (hthreads : program.threads = x.program.threads) (hsteps : program.steps = x.program.steps)
    (hnode : step.node = x.record.nextNodeId) (hthread : step.thread = r.id)
    (hhead : step.head = r.head) (htips : step.branchTips = []) (hcell : step.cell = {})
    (hsettled : step.ledger.settled = [])
    (hknown : ∃ d, Step.standard.find? step.function = some d ∧ d.isBlock = step.isBlock) :
    Placed (fun x running tasks => Going x origin running tasks)
      (fun x _ step => Table.find? step.head x.record.heads)
      { x with
        archive, program := program.putStep step
        record := x.called r.head tip (if step.isBlock then .blockStart false else .atom) function
          displayName } r step := by
  let node : Node :=
    x.appended tip (if step.isBlock then .blockStart false else .atom) function displayName
  let waiting : Thread := { r with step := some step.node }
  let record : Record :=
    x.called r.head tip (if step.isBlock then .blockStart false else .atom) function displayName
  let y : Execution := { x with archive, record, program := program.putStep step }
  have hself : x.program.posts (some r) r.id = some r.post :=
    congrArg (Option.map Thread.post) (LiveProgram.threadAt_running x.program r)
  have hthreadAt : y.program.threadAt (some waiting) =
      changed (x.program.threadAt (some r)) r.id (some waiting) :=
    LiveProgram.threadAt_goesOn hthreads rfl
  have hstepAt : y.program.stepAt = changed x.program.stepAt x.record.nextNodeId (some step) := by
    rw [show y.program.stepAt = _ from LiveProgram.stepAt_putStep _ _, hnode,
      LiveProgram.stepAt_congr hsteps]
  have hposts : y.program.posts (some waiting) = changed (x.program.posts (some r)) r.id
      (some { r.post with step := some x.record.nextNodeId }) := by
    rw [posts_of_threadAt hthreadAt, Option.map_some]
    show changed _ _ (some { r.post with step := some step.node }) = _
    rw [hnode]
  have hseat : step.seat =
      { thread := r.id, head := r.head, isBlock := step.isBlock, branchTips := [] } := by
    unfold LiveStep.seat
    rw [hthread, hhead, htips]
  have hopened : record.startNodes =
      if step.isBlock then x.record.startNodes ++ [x.record.nextNodeId] else x.record.startNodes := by
    show (if node.isBlockStart then _ else _) = _
    cases hblock : step.isBlock <;>
      simp only [node, appended, hblock, Node.isBlockStart, Bool.false_eq_true, reduceIte] <;> rfl
  -- to the history a call is the move `startStep`, which keeps what is in order
  have hscene : y.scene origin.head (some waiting) =
      (x.scene origin.head (some r)).startStep r.id r.post node step.isBlock :=
    scene_eq hshapes rfl rfl (tips_insert _ _ _) rfl hopened rfl hposts
      ((seats_of_stepAt hstepAt).trans (by rw [Option.map_some, hseat]; rfl))
  -- the number is new, so no thread runs for it
  have hover : History.Over (y.program.posts (some waiting)) step.node := by
    intro u other hother
    rw [hposts] at hother
    rw [hnode]
    rcases changed_eq_some.mp hother with ⟨_, heq⟩ | ⟨_, hold⟩
    · cases heq
      exact fun hruns => h.orderly.not_runsFor_next hself hruns
    · exact h.orderly.not_runsFor_next hold
  have hwaits : SameWaits x y := ⟨rfl, rfl, rfl⟩
  have horderly : Orderly (y.scene origin.head (some waiting)) y.program.ledgers (bodiesIn []) := by
    rw [hscene, ledgers_of_stepAt hstepAt]
    exact h.orderly.startStep hself hidle rfl rfl htip rfl (LiveStep.block_of_width hknown) hsettled
  have hgoing : Going y origin (some waiting) [] := by
    constructor
    case sane => exact hsane
    case engine => exact h.engine
    case record => exact ⟨h.record.unfinished, h.record.started, h.record.sorted.insert _ _⟩
    case past => exact h.past.trans (h.extends_next hshapes)
    case orderly => exact horderly
    case known =>
      intro n other hother
      rw [hstepAt] at hother
      exact changed_elim hother hknown h.known
    case drained =>
      intro n other hother
      rw [hstepAt] at hother
      rcases changed_eq_some.mp hother with ⟨_, heq⟩ | ⟨_, hold⟩
      · cases heq
        rw [hcell]
      · exact h.drained hold
    case named =>
      intro n hn
      have hold : Named x n := hwaits.named hn
      obtain ⟨hbelow, hover, hnothing⟩ := h.named hold
      refine ⟨Nat.lt_succ_of_lt hbelow, fun u other hother => ?_, hnothing⟩
      rw [hposts] at hother
      exact changed_elim hother (fun hruns => hover _ _ hself hruns) fun hold => hover _ _ hold
  refine ⟨hgoing, ?_, ⟨?_, hover, rfl⟩, fun hn => ?_, ?_⟩
  · rw [hnode, show y.program.stepAt = _ from hstepAt, changed_self]
  · rw [hnode]
    exact Nat.lt_succ_self _
  · have hold : Named x step.node := hwaits.named hn
    have hbelow := (h.named hold).below
    rw [hnode] at hbelow
    exact Nat.lt_irrefl _ hbelow
  · rw [hhead, hnode]
    exact Table.find?_insert_self _ _ _

end Placing

/-! ## Starts -/

theorem doTasks_nil (fuel : Nat) (x : Execution) : Execution.doTasks fuel [] x = x := by
  cases fuel <;> rfl

theorem Books.acknowledge {I : Execution → Option Thread → List BodyTask → Prop}
    {tip : Execution → Nat → LiveStep → Option Nat} {asks : LiveStep → PendingBody → Prop}
    (B : Books I tip asks) {x : Execution} {running : Option Thread} {tasks : List BodyTask} {node : Nat}
    (h : I x running tasks) (hfree : Free x running tasks node) (function : String)
    (reply : StartReply) : I (x.acknowledge node function reply) running tasks := by
  unfold Execution.acknowledge
  split
  · exact h
  · split
    · exact h
    · exact B.deliver h hfree _
  · exact B.deliver h hfree _
  · exact B.deliver h hfree _

/-- No body is left in the cells, so none is started from there. -/
theorem Books.startBodies {I : Execution → Option Thread → List BodyTask → Prop}
    {tip : Execution → Nat → LiveStep → Option Nat} {asks : LiveStep → PendingBody → Prop}
    (B : Books I tip asks) {x : Execution} {running : Option Thread} (h : I x running []) (node : Nat) :
    I (x.startBodies node) running [] := by
  obtain ⟨hnone, htaken⟩ := B.takeBodies h node
  show I (Execution.doTasks (taskLimit _) (x.takeBodies node).1 (x.takeBodies node).2) running []
  rw [hnone, doTasks_nil]
  exact htaken

/-- The account of a step whose bodies are all about to be started. -/
theorem account_of_starts {posts : Nat → Option Post} {n : Nat} {ledger : Ledger}
    {bodies : List PendingBody} {tip : Option Nat} (hover : History.Over posts n) (hopen : ledger.spent = false)
    (hsettled : ledger.settled = [])
    (hindex : bodies.map PendingBody.index = List.range' 0 bodies.length)
    (hcount : bodies.length ≤ ledger.width)
    (hbranch : ∀ body ∈ bodies, body.branch.isSome = ledger.branching) (htip : tip = some n) :
    Account posts n ledger bodies tip where
  runs hpost hbody := absurd ⟨_, _, hbody⟩ (hover _ _ hpost)
  alone hpost _ hbody _ := absurd ⟨_, _, hbody⟩ (hover _ _ hpost)
  waits := by
    intro body hmem
    have hin : body.index ∈ List.range' 0 bodies.length := hindex ▸ List.mem_map_of_mem hmem
    rw [List.mem_range'_1] at hin
    refine ⟨by omega, ?_, hbranch body hmem⟩
    rw [hsettled]
    exact List.not_mem_nil
  once := by
    rw [hindex]
    exact List.nodup_range'
  bounded := by
    rw [hsettled]
    exact fun i hi => absurd hi List.not_mem_nil
  distinct := by
    rw [hsettled]
    exact List.nodup_nil
  spent hyes := by
    rw [hopen] at hyes
    cases hyes
  tip _ := htip

namespace Placed

variable {I : Execution → Option Thread → List BodyTask → Prop}
  {tip : Execution → Nat → LiveStep → Option Nat} {asks : LiveStep → PendingBody → Prop} {x : Execution}
  {r : Thread} {step : LiveStep} {started : StepStart}

/-- **A start that asks for no bodies**: the step may have its outcome. -/
theorem startPlain (B : Books I tip asks) (h : Placed I tip x r step) (hplain : started.Plain)
    (hmemory : Step.outcomesOf started.memory = []) (function : String) :
    I (((x.react step.node { effects := started.effects, memory := started.memory }).acknowledge
      step.node function started.reply).startBodies step.node)
      (some { r with step := some step.node }) [] := by
  have hreport : Report x
      (x.react step.node { effects := started.effects, memory := started.memory }) step.node :=
    .react x step.node _
  have hreacted : I (x.react step.node { effects := started.effects, memory := started.memory })
      (some { r with step := some step.node }) [] := by
    refine B.report h.kept hreport (fun n hn => ?_) fun hold hnew => ?_
    · rcases named_react hn with hold | ⟨rfl, _⟩
      · exact .inl hold
      · exact .inr h.free
    · rw [h.live] at hold
      cases hold
      rw [stepAt_react h.live] at hnew
      cases hnew
      refine ⟨?_, fun tip haccount => ?_⟩
      · exact (StepCell.bodies_effects hplain).trans (B.drained h.kept h.live)
      · rw [LiveStep.ledger_with]
        have hnone : (if Step.branching step.function = true then
            Table.keys (Step.outcomesOf started.memory) else []) = [] := by
          rw [hmemory]
          exact ite_self _
        simp only [hnone]
        refine .of_over h.free.spent (fun i hi => absurd hi List.not_mem_nil) List.nodup_nil
          fun hbranching => haccount.tip (.inl hbranching)
  have hreplied := B.acknowledge hreacted (h.free.still hreport.still) function started.reply
  exact B.startBodies hreplied step.node

/-- **A start that asks for bodies**: all of them are started. -/
theorem startRuns (W : Works I tip asks) (h : Placed I tip x r step)
    (hsound : Sound x (some { r with step := some step.node })) (hcell : step.cell = {})
    (hruns : started.Runs step.ledger.width step.ledger.branching)
    (hmemory : Step.outcomesOf started.memory = [])
    (hasks : ∀ body : PendingBody,
      .startBody body.source body.overrides body.branch ∈ started.effects → asks step body)
    (function : String) :
    I (((x.react step.node { effects := started.effects, memory := started.memory }).acknowledge
      step.node function started.reply).startBodies step.node)
      (some { r with step := some step.node }) [] := by
  let reaction : StepReaction := { effects := started.effects, memory := started.memory }
  let reacted : Execution := x.react step.node reaction
  let cell : StepCell := started.effects.foldl StepCell.asked step.cell
  obtain ⟨bodies, hqueued⟩ := step.cell.queued_effects started.effects
  have hbodies : cell.bodies = bodies := by
    rw [show cell.bodies = _ from hqueued.appended, hcell]
    rfl
  have hindex : bodies.map PendingBody.index = List.range' 0 bodies.length := by
    have hnumbers := hqueued.index
    rw [hcell] at hnumbers
    exact hnumbers
  have hreacted : reacted.program.stepAt step.node =
      some { step with cell, memory := started.memory } := stepAt_react h.live reaction
  have htaken : reacted.takeBodies step.node = (bodies.map (.start step.node),
      reacted.adjustStep step.node fun s => { s with cell := { cell with bodies := [] } }) := by
    have hlive : Table.find? step.node reacted.program.steps = _ := hreacted
    unfold Execution.takeBodies
    rw [hlive]
    dsimp only [StepCell.drainBodies]
    rw [hbodies]
  have hafter := stepAt_adjusted hreacted fun s => { s with cell := { cell with bodies := [] } }
  have hreport : Report x (reacted.takeBodies step.node).2 step.node :=
    (Report.react x step.node reaction).trans ((Report.alongCells step.node).takeBodies reacted)
  rw [htaken] at hreport
  -- a hook that asks for bodies makes nobody wait, so whoever is named was named before
  have hnamed : ∀ n, Named (reacted.adjustStep step.node fun s =>
      { s with cell := { cell with bodies := [] } }) n →
      Free x (some { r with step := some step.node }) (bodies.map (.start step.node)) n := by
    intro n hn
    have hold : Named x n := by
      refine (named_react ((SameWaits.adjustStep reacted step.node _).named hn)).resolve_right ?_
      rintro ⟨_, effect, hmem, hwaits⟩
      rw [(hruns.quiet effect hmem).2] at hwaits
      cases hwaits
    obtain ⟨hbelow, hover, _⟩ := W.named h.kept hold
    refine ⟨hbelow, hover, ?_⟩
    rw [bodiesIn_starts, if_neg fun heq : n = step.node => h.unnamed (heq ▸ hold)]
  -- all bodies wait at once, under the indices from zero on
  have hkept : I (reacted.adjustStep step.node fun s => { s with cell := { cell with bodies := [] } })
      (some { r with step := some step.node }) (bodies.map (.start step.node)) := by
    refine W.recount h.kept hreport h.live hafter (fun m hm => ?_) rfl ?_ (fun body hmem => ?_) hnamed
    · rw [bodiesIn_starts, if_neg hm]
      rfl
    · rw [bodiesIn_starts, if_pos rfl, LiveStep.ledger_with]
      refine account_of_starts h.free.spent ?_ ?_ hindex (hqueued.count ▸ hruns.count) ?_ h.tip
      · show cell.outcome.isSome = false
        rw [show cell.outcome = _ from
          StepCell.outcome_effects fun effect hmem => (hruns.quiet effect hmem).1, hcell]
        rfl
      · show (if _ then Table.keys (Step.outcomesOf started.memory) else []) = []
        rw [hmemory]
        exact ite_self _
      · exact fun body hmem => hruns.branch (hqueued.asked body hmem)
    · rw [bodiesIn_starts, if_pos rfl] at hmem
      exact .inr (hasks body (hqueued.asked body hmem))
  have hsteady : Steady (reacted.takeBodies step.node).2 (some { r with step := some step.node }) := by
    refine Steady.takeBodies (hsound.react step.node reaction) fun n other hn hstarting _ => ?_
    obtain ⟨_, hr, hsome⟩ := hstarting
    cases hr
    cases hsome
    exact absurd rfl hn
  -- such a hook replies nothing, so nothing is delivered before the bodies run
  have hlater : reacted.acknowledge step.node function started.reply = reacted := by
    rw [hruns.reply]
    rfl
  rw [show x.react step.node _ = reacted from rfl, hlater]
  show I (Execution.doTasks (taskLimit _) (reacted.takeBodies step.node).1
    (reacted.takeBodies step.node).2) _ []
  rw [htaken] at hsteady ⊢
  exact W.doTasks hkept hsteady (taskLimit _)

/-- **A step that was put among the others is started**, with all that its hook asks for. -/
theorem start (W : Works I tip asks) (h : Placed I tip x r step)
    (hsound : Sound x (some { r with step := some step.node })) (hcell : step.cell = {}) {d : StepDef}
    (hd : Step.standard.find? step.function = some d) (hblock : d.isBlock = step.isBlock)
    (hasks : ∀ body : PendingBody,
      .startBody body.source body.overrides body.branch ∈ (d.start (x.viewOf step)).effects →
        asks step body) :
    I (((x.react step.node
        { effects := (d.start (x.viewOf step)).effects, memory := (d.start (x.viewOf step)).memory }).acknowledge
          step.node step.function (d.start (x.viewOf step)).reply).startBodies step.node)
      (some { r with step := some step.node }) [] := by
  obtain ⟨hname, hmem⟩ := Step.mem_standard hd
  have hmemory := Step.outcomesOf_start d hmem (x.viewOf step)
  rcases Step.startsWell_standard d hmem (x.viewOf step) with hplain | ⟨hyes, hruns⟩
  · exact h.startPlain W.toBooks hplain hmemory _
  · refine h.startRuns W hsound hcell ?_ hmemory hasks _
    rw [hname] at hruns
    have hwidth : step.ledger.width =
        if Step.branching step.function then step.args.length else 1 := by
      unfold LiveStep.ledger
      dsimp only
      rw [← hblock, hyes]
      rfl
    rw [hwidth]
    exact hruns

end Placed

/-! ## How a call leaves things -/

/-- **A step call keeps an invariant**: the thread can go on, or it can be put back to wait. -/
def StepCall.Keeps (I : Execution → Option Thread → List BodyTask → Prop) (call : StepCall) : Prop :=
  match call.outcome with
  | none => I (call.execution.mapProgram (·.putThread call.thread)) none []
  | some _ => I call.execution (some call.thread) []

section Waiting

variable {I : Execution → Option Thread → List BodyTask → Prop}
  {tip : Execution → Nat → LiveStep → Option Nat} {asks : LiveStep → PendingBody → Prop} {x : Execution}
  {r : Thread}

/-- A thread that was running is put back. -/
theorem Books.putBack (B : Books I tip asks) (h : I x (some r) []) {r' : Thread} (hid : r'.id = r.id)
    (hplace : r'.place = r.place) : I (x.mapProgram (·.putThread r')) none [] := by
  refine B.reseat h ?_ rfl
  have hput : (x.program.putThread r').places none =
      changed (x.program.places none) r'.id (some r'.place) := by
    unfold LiveProgram.places
    rw [LiveProgram.threadAt_putThread]
    exact changed_map Thread.place _ _ _
  rw [hput, hid, hplace, LiveProgram.places_some]

/-- **The end of a start**: the outcome is taken, or the thread waits for it. -/
theorem Works.awaitStep (W : Works I tip asks) (h : I x (some r) []) (hsound : Sound x (some r))
    {node : Nat} (hwaits : r.step = some node) : (x.awaitStep r node).Keeps I := by
  obtain ⟨step, hstep, hcaller⟩ := hsound.links.waited (LiveProgram.threadAt_running _ r) hwaits
  have hfound : Table.find? node x.program.steps = some step := hstep
  unfold Execution.awaitStep
  cases houtcome : step.cell.outcome with
  | none =>
    simp only [hfound, switchToAsync_of_none houtcome]
    show I ((x.adjustStep node _).mapProgram (·.putThread r)) none []
    -- the account does not see whether the step is asynchronous
    refine W.putBack (r := r) (W.report h (.adjustStep x node fun s => ⟨_, s.memory, rfl⟩)
      (fun n hn => .inl ((SameWaits.adjustStep x node _).named hn)) fun hold hnew => ?_) rfl rfl
    rw [hstep] at hold
    cases hold
    rw [stepAt_adjusted hstep] at hnew
    cases hnew
    exact ⟨show step.cell.bodies = [] from W.drained h hstep, fun _ haccount => haccount⟩
  | some outcome =>
    have hunmarked := (hsound.cells hstep).unmarked outcome houtcome
    simp only [hfound, switchToAsync_of_some houtcome, take_of_unmarked houtcome hunmarked]
    have hthread : x.program.threadAt (some r) step.thread = some r := by
      rw [hcaller]
      exact LiveProgram.threadAt_running _ r
    have hdropped := hsound.dropped hstep
      { step.cell with outcome := some (.error .alreadyCompleted) } outcome
    have hfreed : Thread.place { r with step := none } = ({ r.post with step := none }, r.vars) := rfl
    refine W.finish h hsound hstep (by rw [houtcome]; rfl) hthread hfreed _ outcome rfl id rfl ?_
    rw [id, hcaller]
    exact LiveProgram.threadAt_goesOn hdropped.others rfl

/-- **A step that was put among the others is started**, and its thread waits for it or goes on. -/
theorem Placed.run (W : Works I tip asks) {step : LiveStep} (h : Placed I tip x r step)
    (hsound : Sound x (some { r with step := some step.node })) (hcell : step.cell = {}) {d : StepDef}
    (hd : Step.standard.find? step.function = some d) (hblock : d.isBlock = step.isBlock)
    (hasks : ∀ body : PendingBody,
      .startBody body.source body.overrides body.branch ∈ (d.start (x.viewOf step)).effects →
        asks step body) :
    ((((x.react step.node
        { effects := (d.start (x.viewOf step)).effects, memory := (d.start (x.viewOf step)).memory }).acknowledge
          step.node step.function (d.start (x.viewOf step)).reply).startBodies step.node).meanwhile
            step.node |>.awaitStep { r with step := some step.node } step.node).Keeps I := by
  have hstarted := h.start W hsound hcell hd hblock hasks
  refine W.awaitStep (W.meanwhile hstarted step.node) ((SoundBut.alongHost _ _).meanwhile _ _ ?_) rfl
  refine (Steady.startBodies ((SoundBut.alongHooks _ _ _).acknowledge _ _ _ (hsound.react _ _)) ?_).toSound
  intro n other hn hstarting _
  obtain ⟨_, hr, hsome⟩ := hstarting
  cases hr
  cases hsome
  exact absurd rfl hn

/-- **The start of a step** under a number that is free, whatever block comes with the call. -/
theorem Works.launch (W : Works I tip asks) {d : StepDef} {request : StepRequest} {memory : StepMemory}
    {node : Nat} (hsound : Sound x (some r)) (hidle : r.step = none)
    (hd : Step.standard.find? request.function = some d) (hfree : x.program.stepAt node = none)
    (hfresh : ∀ t other, x.program.threadAt (some r) t = some other → ¬ other.RunsFor node)
    (hnumber : node < x.record.nextNodeId)
    (hasks : ∀ (step : LiveStep) (view : StepView) (body : PendingBody),
      step.function = request.function → step.args = request.args → view.args = request.args →
      .startBody body.source body.overrides body.branch ∈ (d.start view).effects → asks step body)
    (hplaced : ∀ (closure : Option Nat) (program : LiveProgram),
      program.threads = x.program.threads → program.steps = x.program.steps →
      let step : LiveStep :=
        { node, thread := r.id, function := request.function
          displayName := d.displayName request.args, args := request.args
          vars := r.vars, closure, head := r.head, isBlock := d.isBlock, memory }
      Placed I tip { x with program := program.putStep step } r step) :
    (x.launch r d request memory node).Keeps I := by
  unfold Execution.launch
  cases hbody : request.body with
  | none =>
    refine (hplaced none x.program rfl rfl).run W ?_ rfl hd rfl fun body => hasks _ _ body rfl rfl rfl
    exact hsound.started hidle hfree hfresh hnumber rfl rfl rfl rfl hsound.closuresSorted
      (hsound.exports.start hfree rfl)
  | some body =>
    refine (hplaced _ (x.program.exportBlock body).2 rfl rfl).run W ?_ rfl hd rfl fun body =>
      hasks _ _ body rfl rfl rfl
    exact hsound.started hidle hfree hfresh hnumber rfl rfl rfl rfl (hsound.closuresSorted.insert _ _)
      (hsound.exportBlock body hfree rfl)

end Waiting

namespace Going

variable {x y : Execution} {origin : Origin} {r : Thread}

/-- A call that is refused leaves the thread free to go on. -/
theorem refuse (h : Going x origin (some r) []) (failure : Failure) :
    (x.refuse r failure).Keeps fun x running tasks => Going x origin running tasks := h

/-- **The start of a step** whose node was appended. -/
theorem launch (h : Going x origin (some r) []) (hidle : r.step = none) {tip : Nat}
    (htip : x.headTip r.head = some tip) {archive : Archive} (hsane : archive.Sane) {d : StepDef}
    {request : StepRequest} {memory : StepMemory} {kind : NodeKind}
    (hkind : kind = if d.isBlock then .blockStart false else .atom)
    (hd : Step.standard.find? request.function = some d)
    (hcreate : d.create x.clock request.args = .ok memory)
    (hshapes : archive.shapes = changed x.archive.shapes x.record.nextNodeId
      (some (x.appended tip kind request.function (d.displayName request.args))))
    (hy : y = { x with
      archive, record := x.called r.head tip kind request.function (d.displayName request.args) })
    (hsound : Sound y (some r)) :
    (y.launch r d request memory x.record.nextNodeId).Keeps fun x running tasks =>
      Going x origin running tasks := by
  have hprogram : y.program = x.program := by rw [hy]
  have hfree : y.program.stepAt x.record.nextNodeId = none := by
    rw [hprogram]
    exact Option.map_eq_none_iff.mp h.orderly.no_seat
  -- a thread that runs for a step has a post, and no post is for the next number
  have hfresh : ∀ t other, y.program.threadAt (some r) t = some other →
      ¬ other.RunsFor x.record.nextNodeId := by
    rintro t other hother ⟨index, branch, hruns⟩
    obtain ⟨completion, hsingle⟩ := hsound.links.single hother
    rw [hsingle, List.mem_singleton] at hruns
    subst hruns
    rw [hprogram] at hother
    exact h.orderly.not_runsFor_next (congrArg (Option.map Thread.post) hother) ⟨index, branch, hsingle⟩
  have hnumber : x.record.nextNodeId < y.record.nextNodeId := by
    rw [hy]
    exact Nat.lt_succ_self _
  refine (works origin).launch hsound hidle hd hfree hfresh hnumber (fun _ _ _ _ _ _ _ => trivial) ?_
  intro closure program hthreads hsteps step
  have hsettled : step.ledger.settled = [] := LiveStep.settled_of_create hd hcreate rfl
  rw [hprogram] at hthreads hsteps
  subst hy hkind
  exact h.placed hidle htip hsane hshapes hthreads hsteps rfl rfl rfl rfl rfl hsettled ⟨d, hd, rfl⟩

/-- **A step call**, however it goes. -/
theorem startStep (h : Going x origin (some r) []) (hsound : Sound x (some r)) (hidle : r.step = none)
    (request : StepRequest) :
    (x.startStep r request).Keeps fun x running tasks => Going x origin running tasks := by
  have hquiet : Quiet x (x.mapRecord (·.countCall request.function)) :=
    quiet_mapRecord (f := (·.countCall request.function)) ⟨fun _ => Nat.le_refl _, fun _ => rfl⟩ x
  have hlight : Light x (x.mapRecord (·.countCall request.function)) :=
    light_mapRecord (f := (·.countCall request.function)) (fun _ => rfl) x
  have hcounted := h.quiet hquiet hlight
  have hsound' := hsound.quiet hquiet
  unfold Execution.startStep
  dsimp only
  generalize x.mapRecord (·.countCall request.function) = y at hcounted hsound' ⊢
  split
  · exact hcounted.refuse _
  · next d hd =>
    split
    · exact hcounted.refuse _
    · split
      · exact hcounted.refuse _
      · next memory hcreate =>
        rw [stepDef?, hcounted.engine.steps] at hd
        have hpost : y.program.posts (some r) r.id = some r.post :=
          congrArg (Option.map Thread.post) (LiveProgram.threadAt_running _ r)
        obtain ⟨tip, htip⟩ : ∃ tip, y.headTip r.head = some tip :=
          hcounted.orderly.head_present hpost
        obtain ⟨archive, happend, hsane, hshapes⟩ := appendNode_eq hcounted.sane
          hcounted.record.unfinished htip (if d.isBlock then .blockStart false else .atom)
          request.function (d.displayName request.args)
        have hquiet := (Quiet.alongWrites.appendNode _ _ _ _).leads happend
        rw [happend]
        exact hcounted.launch hidle htip hsane rfl hd hcreate hshapes rfl (hsound'.quiet hquiet)

end Going

end Execution

end DurableFlow
