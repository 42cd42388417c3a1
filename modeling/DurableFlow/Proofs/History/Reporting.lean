/-
Deliveries and hooks keep an execution in order.

A delivery from outside comes to a step none of whose bodies is left, so that step may have
its outcome. A step whose body has ended takes the outcome in: its body was running until now,
so this outcome is new to it, and the last of them makes it deliver. In the standard steps no
hook but the start asks for bodies, so nothing else happens to the accounts.
-/
import DurableFlow.Execution.Threads
import DurableFlow.Proofs.History.Order

set_option autoImplicit false

namespace DurableFlow

open Script History

theorem mem_insertByKey {α : Type} {key : α → Nat} {entry a : α} {entries : List α} :
    a ∈ insertByKey key entry entries ↔ a = entry ∨ a ∈ entries := by
  induction entries with
  | nil => exact List.mem_cons
  | cons other rest ih =>
    rw [insertByKey]
    split
    · exact List.mem_cons
    · rw [List.mem_cons, ih, List.mem_cons]
      exact or_left_comm

theorem mem_sortByKey {α : Type} {key : α → Nat} {a : α} {entries : List α} :
    a ∈ sortByKey key entries ↔ a ∈ entries := by
  have hall : ∀ (rest sorted : List α),
      a ∈ rest.foldl (fun sorted entry => insertByKey key entry sorted) sorted ↔
        a ∈ rest ∨ a ∈ sorted := by
    intro rest
    induction rest with
    | nil => exact fun sorted => ⟨.inr, fun h => h.resolve_left List.not_mem_nil⟩
    | cons entry rest ih =>
      intro sorted
      rw [List.foldl_cons, ih, mem_insertByKey, List.mem_cons, or_left_comm, or_assoc]
  exact (hall entries []).trans ⟨fun h => h.resolve_right List.not_mem_nil, .inl⟩

namespace Execution

/-! ## What effects do to the step that asks for them -/

section Effects

variable {x : Execution} {node : Nat} {step : LiveStep}

/-- Who is named after an effect: the step itself, if it waits for something. -/
theorem named_applyEffect {n : Nat} {effect : StepEffect} (h : Named (x.applyEffect node effect) n) :
    Named x n ∨ n = node ∧ effect.waits = true := by
  cases effect with
  | wakeAt time =>
    cases h with
    | timer hmem hnode =>
      rcases List.mem_append.mp hmem with hmem | hmem
      · exact .inl (.timer hmem hnode)
      · rw [List.mem_singleton.mp hmem] at hnode
        exact .inr ⟨hnode.symm, rfl⟩
    | waiter hholds => exact .inl (.waiter hholds)
    | target hmem hnode => exact .inl (.target hmem hnode)
  | cancelWake =>
    cases h with
    | timer hmem hnode => exact .inl (.timer (List.mem_of_mem_filter hmem) hnode)
    | waiter hholds => exact .inl (.waiter hholds)
    | target hmem hnode => exact .inl (.target hmem hnode)
  | listen name =>
    cases h with
    | timer hmem hnode => exact .inl (.timer hmem hnode)
    | waiter hholds =>
      rcases SignalBoard.holds_register hholds with heq | hold
      · exact .inr ⟨heq, rfl⟩
      · exact .inl (.waiter hold)
    | target hmem hnode => exact .inl (.target hmem hnode)
  | unlisten name =>
    cases h with
    | timer hmem hnode => exact .inl (.timer hmem hnode)
    | waiter hholds => exact .inl (.waiter (SignalBoard.holds_remove hholds))
    | target hmem hnode => exact .inl (.target hmem hnode)
  -- the others set no timer, enter no line and order no stop
  | deliver outcome => exact .inl (((SameWaits.alongCells node).deliver x outcome).named h)
  | startBody source overrides branch =>
    exact .inl (((SameWaits.alongCells node).queueBody x source overrides branch).named h)
  | log line => exact .inl ((SameWaits.of_quiet (quiet_log x line)).named h)
  | attach action => exact .inl ((SameWaits.of_quiet (Quiet.alongWrites.addAction node action x)).named h)
  | pause => exact .inl ((SameWaits.of_quiet (Quiet.alongCheckpoints.pause true x)).named h)
  | interrupt result =>
    exact .inl ((SameWaits.of_quiet (Quiet.alongCheckpoints.interrupt result [] x)).named h)
  | rememberScript name source =>
    have hsame : SameWaits x (x.applyEffect node (.rememberScript name source)) := ⟨rfl, rfl, rfl⟩
    exact .inl (hsame.named h)
  | bind handle object =>
    have hsame : SameWaits x (x.applyEffect node (.bind handle object)) := ⟨rfl, rfl, rfl⟩
    exact .inl (hsame.named h)
  | publish name =>
    have hsame : SameWaits x (x.applyEffect node (.publish name)) := ⟨rfl, rfl, rfl⟩
    exact .inl (hsame.named h)

theorem named_applyEffects {n : Nat} {effects : List StepEffect}
    (h : Named (applyEffects node effects x) n) :
    Named x n ∨ n = node ∧ ∃ effect ∈ effects, effect.waits = true := by
  induction effects generalizing x with
  | nil => exact .inl h
  | cons effect rest ih =>
    rcases ih h with hold | ⟨hn, other, hmem, hwaits⟩
    · rcases named_applyEffect hold with hold | ⟨hn, hwaits⟩
      · exact .inl hold
      · exact .inr ⟨hn, effect, List.mem_cons_self, hwaits⟩
    · exact .inr ⟨hn, other, List.mem_cons_of_mem _ hmem, hwaits⟩

theorem named_react {n : Nat} {reaction : StepReaction} (h : Named (x.react node reaction) n) :
    Named x n ∨ n = node ∧ ∃ effect ∈ reaction.effects, effect.waits = true :=
  (named_applyEffects h).imp_left (SameWaits.adjustStep x node _).named

end Effects

/-! ## Deliveries -/

/-- A step that is free stays so when the scene is left alone. -/
theorem Free.still {x y : Execution} {running : Option Thread} {tasks : List BodyTask} {n : Nat}
    (h : Free x running tasks n) (hxy : Still x y) : Free y running tasks n := by
  refine ⟨?_, ?_, h.nothing⟩
  · rw [Going.next_congr hxy.index]
    exact h.below
  · rw [hxy.postsAt]
    exact h.spent

/-- **A body whose outcome is new** to its step: it is not over, does not run and is not to be
started. -/
structure Ready (x : Execution) (running : Option Thread) (tasks : List BodyTask) (node index : Nat) :
    Prop where
  awaited : ∀ {step}, x.program.stepAt node = some step →
    index < step.ledger.width ∧ index ∉ step.ledger.settled
  waits : ∀ body ∈ bodiesIn tasks node, body.index ≠ index
  runs : ∀ {t post branch}, x.program.posts running t = some post →
    post.completions ≠ [.body node index branch]

/-- The only body of a step without branches is over. -/
theorem over_of_single {posts : Nat → Option Post} {node index : Nat} {ledger : Ledger}
    {pending : List PendingBody} {tip : Option Nat} (haccount : Account posts node ledger pending tip)
    (hplain : ledger.branching = false) (hlt : index < ledger.width)
    (hwaits : ∀ body ∈ pending, body.index ≠ index)
    (hruns : ∀ {t post branch}, posts t = some post → post.completions ≠ [.body node index branch]) :
    pending = [] ∧ History.Over posts node := by
  have hnarrow := ledger.narrow hplain
  constructor
  · refine List.eq_nil_iff_forall_not_mem.mpr fun body hmem => ?_
    have hbody := (haccount.waits body hmem).1
    exact hwaits body hmem (by omega)
  · rintro u other hother ⟨i, branch, hbody⟩
    have hi := (haccount.runs hother hbody).1
    obtain rfl : i = index := by omega
    exact hruns hother hbody

/-- The outcome of a branch is kept beside the others. -/
theorem keys_branchDone {outcomes : Table Nat Outcome} {index : Nat}
    (hnew : index ∉ Table.keys outcomes) (outcome : Outcome) :
    (Table.keys (Table.insert index outcome outcomes)).Perm (index :: Table.keys outcomes) :=
  (Table.perm_insert outcome hnew).map Prod.fst

namespace Books

variable {I : Execution → Option Thread → List BodyTask → Prop}
  {tip : Execution → Nat → LiveStep → Option Nat} {asks : LiveStep → PendingBody → Prop}
  (B : Books I tip asks) {x y : Execution} {running : Option Thread} {tasks : List BodyTask}
  {node index : Nat} {step : LiveStep}

include B

/-- **A delivery to a step without bodies that are left.** -/
theorem deliver (h : I x running tasks) (hfree : Free x running tasks node)
    (outcome : Outcome) : I (x.deliver node outcome) running tasks := by
  refine B.report h ((Report.alongCells node).deliver x outcome)
    (fun _ hn => .inl (((SameWaits.alongCells node).deliver x outcome).named hn)) fun hold hnew => ?_
  rw [stepAt_deliver hold] at hnew
  cases hnew
  refine ⟨?_, fun tip haccount => ?_⟩
  · exact ((StepCell.bodies_deliver _ outcome).1).trans (B.drained h hold)
  · exact haccount.finish fun _ => .inr ⟨hfree.nothing, hfree.spent⟩

/-- What a step does when it is stopped. -/
theorem applyEnd (h : I x running tasks) (hfree : Free x running tasks node)
    {effect : StepEffect} (hends : Step.endsStep effect = true) :
    I (x.applyEffect node effect) running tasks := by
  have hplain : ∀ {y}, Still x y → y.program = x.program →
      (∀ n, Named y n → Named x n ∨ Free x running tasks n) → I y running tasks :=
    fun hxy hprogram hnamed => B.still h hxy (by rw [hprogram]) (by rw [hprogram]) hnamed
  cases effect with
  | deliver outcome => exact B.deliver h hfree outcome
  | unlisten name =>
    refine hplain ((Report.alongHooks node).applyEffect x (.unlisten name)).still rfl fun n hn => ?_
    exact (named_applyEffect hn).imp_right fun ⟨_, hno⟩ => (by cases hno)
  | cancelWake =>
    refine hplain ((Report.alongHooks node).applyEffect x .cancelWake).still rfl fun n hn => ?_
    exact (named_applyEffect hn).imp_right fun ⟨_, hno⟩ => (by cases hno)
  | _ => cases hends

theorem applyEnds (h : I x running tasks) (hfree : Free x running tasks node)
    {effects : List StepEffect} (hends : ∀ effect ∈ effects, Step.endsStep effect = true) :
    I (applyEffects node effects x) running tasks := by
  induction effects generalizing x with
  | nil => exact h
  | cons effect rest ih =>
    refine ih (B.applyEnd h hfree (hends effect List.mem_cons_self)) ?_ fun other hmem =>
      hends other (List.mem_cons_of_mem _ hmem)
    exact hfree.still ((Report.alongHooks node).applyEffect x effect).still

/-! ## Bodies that have ended -/

/-- **No body is left in the cells**, so none is taken out of them. -/
theorem takeBodies (h : I x running tasks) (node : Nat) :
    (x.takeBodies node).1 = [] ∧ I (x.takeBodies node).2 running tasks := by
  have hreport : Report x (x.takeBodies node).2 node :=
    (Report.alongCells node).takeBodies x
  cases hlive : Table.find? node x.program.steps with
  | none =>
    unfold Execution.takeBodies
    rw [hlive]
    exact ⟨rfl, h⟩
  | some step =>
    have hbodies : step.cell.bodies = [] := B.drained h hlive
    have heq : x.takeBodies node = ([], x.adjustStep node fun s =>
        { s with cell := { step.cell with bodies := [] } }) := by
      unfold Execution.takeBodies
      rw [hlive]
      dsimp only [StepCell.drainBodies]
      rw [hbodies, List.map_nil]
    rw [heq] at hreport ⊢
    refine ⟨rfl, B.report h hreport (fun _ hn => .inl ((SameWaits.adjustStep x node _).named hn)) ?_⟩
    intro old new hold hnew
    rw [show x.program.stepAt node = some step from hlive] at hold
    cases hold
    rw [stepAt_adjusted hlive] at hnew
    cases hnew
    exact ⟨rfl, fun tip haccount => haccount⟩

/-- **A step with branches takes in the outcome of one of them.** -/
theorem branchDone (h : I x running tasks) (hstep : x.program.stepAt node = some step)
    (hready : Ready x running tasks node index) (hbranching : Step.branching step.function = true)
    (outcome : Outcome) :
    I (x.react node
      (Step.branchDone step.args.length (Step.outcomesOf step.memory) index outcome)) running
      tasks := by
  obtain ⟨hlt, hnew⟩ := hready.awaited hstep
  obtain ⟨hwidth, hsettled⟩ := LiveStep.ledger_of_branching hbranching
  let outcomes := Table.insert index outcome (Step.outcomesOf step.memory)
  have hquiet : ∀ effect ∈ (Step.branchDone step.args.length (Step.outcomesOf step.memory) index
      outcome).effects, effect.waits = false ∧ effect.startsBody = false := by
    intro effect hmem
    dsimp only [Step.branchDone] at hmem
    split at hmem
    · cases hmem
    · rw [List.mem_singleton.mp hmem]
      exact ⟨rfl, rfl⟩
  refine B.report h (.react x node _) (fun n hn => ?_) fun hold hafter => ?_
  · refine .inl ((named_react hn).resolve_right ?_)
    rintro ⟨_, effect, hmem, hwaits⟩
    rw [(hquiet effect hmem).1] at hwaits
    cases hwaits
  · rw [hstep] at hold
    cases hold
    rw [stepAt_react hstep] at hafter
    cases hafter
    refine ⟨?_, fun tip haccount => ?_⟩
    · exact (StepCell.bodies_effects fun effect hmem => (hquiet effect hmem).2).trans (B.drained h hstep)
    · rw [hsettled] at hnew
      have hperm : (Table.keys outcomes).Perm (index :: step.ledger.settled) := by
        rw [hsettled]
        exact keys_branchDone hnew outcome
      -- the step delivers only when all outcomes are there
      have hdone : ((Step.branchDone step.args.length (Step.outcomesOf step.memory) index
          outcome).effects.foldl StepCell.asked step.cell).outcome.isSome = true →
          step.ledger.spent = true ∨ step.ledger.width ≤ (Table.keys outcomes).length := by
        intro hsome
        dsimp only [Step.branchDone] at hsome
        split at hsome
        · exact .inl hsome
        · next hlong =>
          refine .inr ?_
          rw [hwidth, Table.keys, List.length_map]
          exact Nat.le_of_not_lt hlong
      rw [LiveStep.ledger_with, if_pos hbranching]
      exact haccount.settle hlt (hsettled ▸ hnew) hready.waits hready.runs hperm hdone

/-- **A step with one body ends as the body does.** -/
theorem bodyDone (h : I x running tasks) (hstep : x.program.stepAt node = some step)
    (hready : Ready x running tasks node index) (hplain : Step.branching step.function = false)
    (outcome : Outcome) :
    I (x.react node { effects := [.deliver outcome], memory := step.memory }) running tasks := by
  refine B.report h (.react x node _) (fun n hn => ?_) fun hold hafter => ?_
  · refine .inl ((named_react hn).resolve_right ?_)
    rintro ⟨_, effect, hmem, hwaits⟩
    rw [List.mem_singleton.mp hmem] at hwaits
    cases hwaits
  · rw [hstep] at hold
    cases hold
    rw [stepAt_react hstep] at hafter
    cases hafter
    refine ⟨?_, fun tip haccount => ?_⟩
    · refine (StepCell.bodies_effects fun effect hmem => ?_).trans (B.drained h hstep)
      rw [List.mem_singleton.mp hmem]
      rfl
    · have hlt := (hready.awaited hstep).1
      rw [LiveStep.ledger_with, ← LiveStep.ledger_settled]
      exact haccount.finish fun _ =>
        .inr (over_of_single haccount hplain hlt hready.waits hready.runs)

/-- **What follows the end of a body** keeps the invariant. -/
theorem bodyEnded (h : I x running tasks) (hready : Ready x running tasks node index)
    (outcome : Outcome) :
    I (x.bodyEnded node index outcome).2 running ((x.bodyEnded node index outcome).1 ++ tasks) := by
  cases hlive : Table.find? node x.program.steps with
  | none =>
    unfold Execution.bodyEnded
    rw [hlive]
    exact h
  | some step =>
    obtain ⟨d, hd, _⟩ := B.known h hlive
    obtain ⟨hname, hmem⟩ := Step.mem_standard hd
    have hdef : x.stepDef? step.function = some d := by
      unfold stepDef?
      rw [(B.engine h).steps]
      exact hd
    have hreacted : I (x.react node (d.onBody (x.viewOf step) index outcome)) running tasks := by
      rw [Step.onBody_standard d hmem, hname]
      cases hbranching : Step.branching step.function with
      | true => exact B.branchDone h hlive hready hbranching outcome
      | false => exact B.bodyDone h hlive hready hbranching outcome
    obtain ⟨hnone, htaken⟩ := B.takeBodies hreacted node
    -- hooks that hear of the end of a body ask for no further ones
    have heq : x.bodyEnded node index outcome =
        ([.conclude node], ((x.react node (d.onBody (x.viewOf step) index outcome)).takeBodies
          node).2) := by
      unfold Execution.bodyEnded
      rw [hlive]
      dsimp only
      rw [hdef]
      dsimp only
      rw [hnone, List.nil_append]
    rw [heq]
    exact B.retask htaken fun n => bodiesIn_conclude node n tasks

/-! ## From outside -/

/-- Delivers to free steps one after the other. -/
theorem deliverAll (h : I x running tasks) (due : List Timer)
    (hfree : ∀ timer ∈ due, Free x running tasks timer.node) :
    I (due.foldl (fun x timer => x.deliver timer.node (.ok .null)) x) running tasks := by
  induction due generalizing x with
  | nil => exact h
  | cons timer rest ih =>
    have hself := hfree timer List.mem_cons_self
    refine ih (B.deliver h hself _) fun other hmem => ?_
    exact (hfree other (List.mem_cons_of_mem _ hmem)).still ((Report.alongCells timer.node).deliver x _).still

/-- **The timers that are due fire.** -/
theorem fireTimers (h : I x running tasks) : I x.fireTimers running tasks := by
  let left : Execution := { x with timers := x.timers.filter (x.now < ·.dueAt) }
  have hleft : I left running tasks := by
    refine B.outside h rfl rfl rfl rfl fun n hn => .inl ?_
    rcases hn with ⟨hmem, hnode⟩ | hholds | ⟨hmem, hnode⟩
    · exact .timer (List.mem_filter.mp hmem).1 hnode
    · exact .waiter hholds
    · exact .target hmem hnode
  refine B.deliverAll hleft _ fun timer hmem => ?_
  have hdue : timer ∈ x.timers := (List.mem_filter.mp (mem_sortByKey.mp hmem)).1
  have hfree := B.named h (.timer hdue rfl)
  exact ⟨hfree.below, hfree.spent, hfree.nothing⟩

/-- **A signal comes.** -/
theorem signal (h : I x running tasks) (name : String) (outcome : Outcome) :
    I (x.signal name outcome).2 running tasks := by
  unfold Execution.signal
  split
  · exact h
  · next waiter board htake =>
    obtain ⟨hheld, hleft⟩ := SignalBoard.holds_take htake
    have hfree := B.named h (.waiter hheld)
    have hboard : I { x with board } running tasks := by
      refine B.outside h rfl rfl rfl rfl fun n hn => .inl ?_
      rcases hn with ⟨hmem, hnode⟩ | hholds | ⟨hmem, hnode⟩
      · exact .timer hmem hnode
      · exact .waiter (hleft n hholds)
      · exact .target hmem hnode
    exact B.deliver hboard ⟨hfree.below, hfree.spent, hfree.nothing⟩ outcome

theorem interject (h : I x running tasks) {interjection : Interjection} (hhost : interjection.isOfHost = true) :
    I (x.interject interjection) running tasks := by
  cases interjection with
  | asks node effect => cases hhost
  | signals name outcome => exact B.signal h name outcome
  | timers => exact B.fireTimers h

/-- **What comes from other threads while a step is being started**: signals and timers, and no more. -/
theorem meanwhile (h : I x running tasks) (node : Nat) : I (x.meanwhile node) running tasks := by
  have hhost := (B.engine h).host node
  unfold Execution.meanwhile
  generalize x.engine.meanwhile node = interjections at hhost
  induction interjections generalizing x with
  | nil => exact h
  | cons first rest ih =>
    have hfirst := B.interject h (hhost first List.mem_cons_self)
    exact ih hfirst fun other hmem => hhost other (List.mem_cons_of_mem _ hmem)

end Books

end Execution

end DurableFlow
