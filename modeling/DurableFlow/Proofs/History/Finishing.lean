/-
The end of a step keeps an execution in order.

A step that has its outcome has no bodies left. Its node is closed, its thread goes on, and of
the scene this is one move: the end of a block, or of a step without one. It is the same move
whether the thread was waiting for the step or is the one that has started it.
-/
import DurableFlow.Proofs.History.Reporting
import DurableFlow.Proofs.History.Writing

set_option autoImplicit false

namespace DurableFlow

open Script History Text

namespace Execution

/-! ## Scenes of executions -/

/-- What is found after one head was given a tip. -/
theorem tips_insert (heads : Table Nat Nat) (head tip : Nat) :
    (fun k => Table.find? k (Table.insert head tip heads)) =
      changed (fun k => Table.find? k heads) head (some tip) := by
  funext k
  exact Table.find?_insert _ _ _ _

theorem tips_erase {heads : Table Nat Nat} (h : Table.Sorted heads) (head : Nat) :
    (fun k => Table.find? k (Table.erase head heads)) =
      changed (fun k => Table.find? k heads) head none := by
  funext k
  exact Table.find?_erase h _ _

/-- One thread is different, as the history sees it. -/
theorem posts_of_threadAt {p q : LiveProgram} {running running' : Option Thread} {t : Nat}
    {thread : Option Thread}
    (h : q.threadAt running' = changed (p.threadAt running) t thread) :
    q.posts running' = changed (p.posts running) t (thread.map Thread.post) := by
  unfold LiveProgram.posts
  rw [h]
  exact changed_map _ _ _ _

theorem seats_of_stepAt {p q : LiveProgram} {n : Nat} {step : Option LiveStep}
    (h : q.stepAt = changed p.stepAt n step) :
    q.seats = changed p.seats n (step.map LiveStep.seat) := by
  unfold LiveProgram.seats
  rw [h]
  exact changed_map _ _ _ _

theorem ledgers_of_stepAt {p q : LiveProgram} {n : Nat} {step : Option LiveStep}
    (h : q.stepAt = changed p.stepAt n step) :
    q.ledgers = changed p.ledgers n (step.map LiveStep.ledger) := by
  unfold LiveProgram.ledgers
  rw [h]
  exact changed_map _ _ _ _

/-! ## Closing the node of a step -/

/-- What the end of a step leaves of the archive and of the record. -/
inductive NodeClosed (x y : Execution) (seat : Seat) (n : Nat) : Prop where
  | atom (hatom : seat.isBlock = false) (hkept : Archive.Kept x.archive y.archive)
    (hrecord : y.record = x.record)
  | block (hblock : seat.isBlock = true) (hsane : y.archive.Sane) (node : Node)
    (hshapes : y.archive.shapes = changed x.archive.shapes x.record.nextNodeId (some node))
    (hid : node.id = x.record.nextNodeId) (hkind : node.kind = .blockEnd n)
    (hparents : EndParents seat (Table.find? seat.head x.record.heads) node.parents) (now : Timestamp)
    (hrecord : y.record = (closed x.record seat.head n).touch now)

/-- **The node of a step that is over is closed**, and nothing else is done. -/
theorem closeStepNode_eq {x : Execution} (step : LiveStep) {shape : Node} (hsane : x.archive.Sane)
    (hopen : x.record.done = false) (hshape : x.archive.shapes step.node = some shape)
    (hid : shape.id = step.node) (htip : ∃ tip, x.headTip step.head = some tip) (error : Option Failure) :
    ∃ archive record, (closeStepNode step error).after x = { x with archive, record } ∧
      NodeClosed x { x with archive, record } step.seat step.node := by
  obtain ⟨tip, htip⟩ := htip
  cases hblock : step.isBlock with
  | false =>
    obtain ⟨archive, hclose, hkept⟩ := closeAtom_eq hsane hshape hid error
    refine ⟨archive, x.record, ?_, .atom hblock hkept rfl⟩
    unfold closeStepNode Attempt.after
    rw [if_neg (by simp [hblock]), hclose]
  | true =>
    have hparents : EndParents step.seat (Table.find? step.head x.record.heads)
        (if step.branchTips = [] then [tip] else step.branchTips) := by
      -- behind a block stand the ends of its branches, or the tip of its head if it had none
      by_cases hnil : step.branchTips = []
      · rw [if_pos hnil]
        exact .inl ⟨hnil, tip, htip, rfl⟩
      · rw [if_neg hnil]
        exact .inr ⟨hnil, rfl⟩
    obtain ⟨archive, node, hclose, hsane', hshapes, hnode, hkind, hends⟩ :=
      closeBlock_eq hsane hopen hparents hshape hid error
    refine ⟨archive, (closed x.record step.head step.node).touch x.clock, ?_, ?_⟩
    · unfold closeStepNode Attempt.after
      rw [if_pos hblock]
      exact congrArg Prod.snd (Attempt.bind_of_ok hclose)
    · exact .block hblock hsane' node hshapes hnode hkind (hends ▸ hparents) x.clock rfl

/-- The state after a live step was retired. -/
theorem finishStep_eq {x : Execution} {node : Nat} {step : LiveStep}
    (hstep : x.program.stepAt node = some step) (cell : StepCell) (outcome : Outcome) :
    ∃ program retired, (x.adjustStep node fun step => { step with cell }).finishStep node outcome =
      (closeStepNode { step with cell } (failureOf? outcome)).after { x with program, retired } := by
  have hlive : Table.find? node (x.adjustStep node fun step => { step with cell }).program.steps =
      some { step with cell } := stepAt_adjusted hstep _
  unfold finishStep
  rw [hlive, adjustStep_of_live hstep]
  exact ⟨_, _, rfl⟩

namespace Going

variable {x y z : Execution} {origin : Origin} {running running' : Option Thread}
  {tasks : List BodyTask} {node : Nat} {step : LiveStep} {thread free : Thread}

/-- **A step is over.** Its thread goes on, wherever it is kept. -/
theorem finish (h : Going x origin running tasks) (hsound : Sound x running)
    (hstep : x.program.stepAt node = some step) (hdone : step.cell.outcome.isSome = true)
    (hthread : x.program.threadAt running step.thread = some thread)
    (hpost : free.post = { thread.post with step := none }) (cell : StepCell) (outcome : Outcome)
    (hy : (x.adjustStep node fun step => { step with cell }).finishStep node outcome = y)
    (f : LiveProgram → LiveProgram) (hsteps : (f y.program).stepAt = y.program.stepAt)
    (hthreads : (f y.program).threadAt running' =
      changed (x.program.threadAt running) step.thread (some free)) :
    Going (y.mapProgram f) origin running' tasks := by
  have hdropped := hsound.dropped hstep cell outcome
  have hnode : step.node = node := hsound.links.node hstep
  have hseat := LiveProgram.seats_of_stepAt hstep
  have hledger := LiveProgram.ledgers_of_stepAt hstep
  have hcaller : x.program.posts running step.thread = some thread.post := congrArg _ hthread
  obtain ⟨shape, hshape⟩ : ∃ shape, x.archive.shapes node = some shape := h.orderly.stored_seat hseat
  have htip : ∃ tip, x.headTip step.head = some tip := by
    obtain ⟨caller, hcaller', _, hhead⟩ := h.orderly.caller hseat
    obtain ⟨tip, htip⟩ := h.orderly.head_present hcaller'
    rw [hhead] at htip
    exact ⟨tip, htip⟩
  -- the step is dropped, and then its node is closed
  obtain ⟨program, retired, heq⟩ := finishStep_eq hstep cell outcome
  have hown : shape.id = step.node := (h.orderly.graph.own hshape).trans hnode.symm
  obtain ⟨archive, record, hafter, hclosed⟩ := closeStepNode_eq (x := { x with program, retired })
    { step with cell } h.sane h.record.unfinished (hnode ▸ hshape) hown htip (failureOf? outcome)
  rw [heq, hafter] at hy hdropped
  subst hy
  have hposts : (f program).posts running' = changed (x.program.posts running) step.thread
      (some { thread.post with step := none }) := by
    rw [posts_of_threadAt hthreads, Option.map_some, hpost]
  have hstepAt : (f program).stepAt = changed x.program.stepAt node none :=
    hsteps.trans hdropped.steps
  have hseats : (f program).seats = changed x.program.seats node none := seats_of_stepAt hstepAt
  have hledgers : (f program).ledgers = changed x.program.ledgers node none :=
    ledgers_of_stepAt hstepAt
  have honto : Onto x (mapProgram f { x with program, retired, archive, record }) := by
    refine ⟨⟨rfl, rfl, rfl⟩, rfl, fun hstep' => ?_⟩
    rw [show (mapProgram f { x with program, retired, archive, record }).program.stepAt = _ from
      hstepAt] at hstep'
    obtain ⟨_, hold⟩ := changed_none_eq_some.mp hstep'
    exact ⟨_, hold, rfl, rfl, rfl⟩
  have hfree : ∀ n, History.Over (x.program.posts running) n → History.Over ((f program).posts running') n := by
    intro n hover u other hother
    rw [hposts] at hother
    rcases changed_eq_some.mp hother with ⟨_, heq⟩ | ⟨_, hold⟩
    · cases heq
      exact fun hruns => hover _ _ hcaller hruns
    · exact hover _ _ hold
  -- an atom is only written again; a block gets a node of its own for its end
  cases hclosed with
  | atom hatom hkept hrecord =>
    replace hrecord : record = x.record := hrecord
    subst hrecord
    have hscene : (mapProgram f { x with program, retired, archive }).scene origin.head running' =
        (x.scene origin.head running).finishAtom node step.seat thread.post :=
      scene_eq hkept.shapes rfl rfl rfl rfl rfl rfl hposts hseats
    refine h.onto honto hkept.sane (hkept.shapes ▸ .refl _) h.record ?_ (Nat.le_refl _)
      fun n _ hover hnothing => ⟨hfree n hover, hnothing⟩
    have hmove := h.orderly.finishAtom hseat hledger hdone hcaller hatom
    rw [← hscene, ← hledgers] at hmove
    exact hmove
  | block hblock hsane node' hshapes hid hkind hparents now hrecord =>
    replace hrecord : record = (closed x.record step.head step.node).touch now := hrecord
    subst hrecord
    have hscene : (mapProgram f { x with
          program, retired, archive
          record := (closed x.record step.head step.node).touch now }).scene origin.head running' =
        (x.scene origin.head running).finishBlock node step.seat thread.post node' :=
      scene_eq hshapes rfl rfl (tips_insert _ _ _) rfl (by rw [hnode]; rfl) rfl hposts hseats
    have hongoing : Ongoing ((closed x.record step.head step.node).touch now) :=
      ⟨h.record.unfinished, h.record.started, h.record.sorted.insert _ _⟩
    refine h.onto honto hsane (h.extends_next hshapes) hongoing ?_ (Nat.le_succ _)
      fun n _ hover hnothing => ⟨hfree n hover, hnothing⟩
    have hmove := h.orderly.finishBlock hseat hledger hdone hcaller hblock hid (hnode ▸ hkind) hparents
    rw [← hscene, ← hledgers] at hmove
    exact hmove

end Going

/-! ## Invariants of the work -/

/-- **An invariant that bodies that start and steps that end keep**, beside the books of its steps. -/
structure Works (I : Execution → Option Thread → List BodyTask → Prop)
    (tip : Execution → Nat → LiveStep → Option Nat) (asks : LiveStep → PendingBody → Prop) : Prop
    extends Books I tip asks where
  startBody : ∀ {x running tasks node body step}, I x running (.start node body :: tasks) →
    Sound x running → x.program.stepAt node = some step →
    I (x.startBody step body).2 running ((x.startBody step body).1 ++ tasks)
  finish : ∀ {x running running' tasks node step thread free y}, I x running tasks → Sound x running →
    x.program.stepAt node = some step → step.cell.outcome.isSome = true →
    x.program.threadAt running step.thread = some thread →
    Thread.place free = ({ thread.post with step := none }, thread.vars) →
    ∀ cell outcome, (x.adjustStep node fun step => { step with cell }).finishStep node outcome = y →
    ∀ f : LiveProgram → LiveProgram, (f y.program).stepAt = y.program.stepAt →
    (f y.program).threadAt running' = changed (x.program.threadAt running) step.thread (some free) →
    I (y.mapProgram f) running' tasks

/-- An outcome that can be taken was delivered. -/
theorem outcome_of_take {cell cell' : StepCell} {outcome : Outcome}
    (h : cell.take = (cell', some outcome)) : cell.outcome.isSome = true := by
  unfold StepCell.take StepCell.pending? at h
  cases hcell : cell.outcome with
  | none =>
    rw [hcell] at h
    cases h
  | some _ => rfl

/-- **The outcome of a step goes to the thread that waits for it.** -/
theorem Works.completeStep {I : Execution → Option Thread → List BodyTask → Prop}
    {tip : Execution → Nat → LiveStep → Option Nat} {asks : LiveStep → PendingBody → Prop}
    (W : Works I tip asks) {x : Execution} {running : Option Thread} {tasks : List BodyTask}
    (h : I x running tasks) (hsound : Sound x running) (node : Nat)
    (hasync : ∀ step, x.program.stepAt node = some step → step.cell.isAsync = true) :
    I (x.completeStep node) running tasks := by
  unfold Execution.completeStep
  split
  · exact h
  · next step hlive =>
    have hstep : x.program.stepAt node = some step := hlive
    split
    · exact h
    · next cell outcome htake =>
      have hdropped := hsound.dropped hstep cell outcome
      obtain ⟨thread, hthread, _, _, hresumed, hthreads⟩ :=
        hsound.resumed hstep (hasync step hstep) hdropped outcome
      dsimp only
      rw [hresumed]
      exact W.finish h hsound hstep (outcome_of_take htake) hthread rfl cell outcome rfl _ rfl hthreads

end Execution

end DurableFlow
