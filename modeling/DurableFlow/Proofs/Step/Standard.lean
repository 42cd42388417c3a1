/-
What the standard steps ask for.

Of the hooks of a step the scheduler sees the effects only, so what is known of all standard
steps is said in terms of effects. A start asks for no bodies, or it asks for all bodies that
the step will ever have and for nothing else that counts. After that no hook asks for a body.
What a step waits for, a signal or a time, is asked for by steps without a block only.
-/
import DurableFlow.Proofs.Data.Table
import DurableFlow.Step.Standard

set_option autoImplicit false

namespace DurableFlow

open Script

/-! ## Effects -/

/-- An effect queues a body. -/
def StepEffect.startsBody : StepEffect → Bool
  | .startBody _ _ _ => true
  | _ => false

/-- An effect lets something from outside reach the step later. -/
def StepEffect.waits : StepEffect → Bool
  | .listen _ => true
  | .wakeAt _ => true
  | _ => false

def StepEffect.delivers : StepEffect → Bool
  | .deliver _ => true
  | _ => false

/-- What the cell of a step is after one of the step's effects. -/
def StepCell.asked (cell : StepCell) : StepEffect → StepCell
  | .deliver outcome => (cell.deliver outcome).1
  | .startBody source overrides branch => (cell.queueBody source overrides branch).1
  | _ => cell

theorem StepCell.bodies_deliver (cell : StepCell) (outcome : Outcome) :
    (cell.deliver outcome).1.bodies = cell.bodies ∧
      (cell.deliver outcome).1.nextBody = cell.nextBody := by
  unfold StepCell.deliver
  split
  · exact ⟨rfl, rfl⟩
  · split <;> exact ⟨rfl, rfl⟩

/-- What effects queue: one body for each effect that asks for one, numbered in order. -/
structure StepCell.Queued (cell cell' : StepCell) (effects : List StepEffect) (bodies : List PendingBody) :
    Prop where
  appended : cell'.bodies = cell.bodies ++ bodies
  next : cell'.nextBody = cell.nextBody + bodies.length
  index : bodies.map PendingBody.index = List.range' cell.nextBody bodies.length
  count : bodies.length = effects.countP StepEffect.startsBody
  asked : ∀ body ∈ bodies, .startBody body.source body.overrides body.branch ∈ effects

theorem StepCell.queued_effects (cell : StepCell) (effects : List StepEffect) :
    ∃ bodies, StepCell.Queued cell (effects.foldl StepCell.asked cell) effects bodies := by
  induction effects generalizing cell with
  | nil => exact ⟨[], (List.append_nil _).symm, rfl, rfl, rfl, fun _ hmem => absurd hmem List.not_mem_nil⟩
  | cons effect rest ih =>
    obtain ⟨bodies, hrest⟩ := ih (cell.asked effect)
    -- Only a request for a body adds to the queue or takes a number.
    have hsame : effect.startsBody = false → (cell.asked effect).bodies = cell.bodies ∧
        (cell.asked effect).nextBody = cell.nextBody := by
      intro hno
      cases effect with
      | startBody _ _ _ => cases hno
      | deliver outcome => exact cell.bodies_deliver outcome
      | _ => exact ⟨rfl, rfl⟩
    cases hstarts : effect.startsBody with
    | false =>
      obtain ⟨hbodies, hnext⟩ := hsame hstarts
      refine ⟨bodies, ?_, ?_, ?_, ?_, fun body hmem => List.mem_cons_of_mem _ (hrest.asked body hmem)⟩
      · rw [List.foldl_cons, hrest.appended, hbodies]
      · rw [List.foldl_cons, hrest.next, hnext]
      · rw [hrest.index, hnext]
      · rw [hrest.count, List.countP_cons_of_neg (by simp [hstarts])]
    | true =>
      cases effect with
      | startBody source overrides branch =>
        let body : PendingBody := { index := cell.nextBody, source, overrides, branch }
        refine ⟨body :: bodies, ?_, ?_, ?_, ?_, ?_⟩
        · rw [List.foldl_cons, hrest.appended]
          exact List.append_assoc _ _ _
        · rw [List.foldl_cons, hrest.next, List.length_cons]
          show cell.nextBody + 1 + _ = _
          omega
        · rw [List.map_cons, hrest.index, List.length_cons, List.range'_succ]
          rfl
        · rw [List.length_cons, hrest.count, List.countP_cons_of_pos hstarts]
        · intro other hmem
          rcases List.mem_cons.mp hmem with rfl | hmem
          · exact List.mem_cons_self
          · exact List.mem_cons_of_mem _ (hrest.asked other hmem)
      | _ => cases hstarts

/-- Effects that ask for no body leave the bodies alone. -/
theorem StepCell.bodies_effects {cell : StepCell} {effects : List StepEffect}
    (h : ∀ effect ∈ effects, effect.startsBody = false) :
    (effects.foldl StepCell.asked cell).bodies = cell.bodies := by
  obtain ⟨bodies, hqueued⟩ := cell.queued_effects effects
  have hnone : effects.countP StepEffect.startsBody = 0 :=
    List.countP_eq_zero.mpr fun effect hmem => by rw [h effect hmem]; exact Bool.false_ne_true
  have hnil : bodies = [] := List.length_eq_zero_iff.mp (hqueued.count.trans hnone)
  rw [hqueued.appended, hnil, List.append_nil]

/-- Effects without a delivery leave the outcome alone. -/
theorem StepCell.outcome_effects {cell : StepCell} {effects : List StepEffect}
    (h : ∀ effect ∈ effects, effect.delivers = false) :
    (effects.foldl StepCell.asked cell).outcome = cell.outcome := by
  induction effects generalizing cell with
  | nil => rfl
  | cons effect rest ih =>
    rw [List.foldl_cons, ih fun other hmem => h other (List.mem_cons_of_mem _ hmem)]
    have hno := h effect List.mem_cons_self
    cases effect with
    | deliver _ => cases hno
    | _ => rfl

/-! ## Starts -/

/-- A start that asks for no bodies. -/
def StepStart.Plain (started : StepStart) : Prop :=
  ∀ effect ∈ started.effects, effect.startsBody = false

/-- A start that asks for bodies, and for nothing that would reach the step otherwise. -/
structure StepStart.Runs (started : StepStart) (width : Nat) (branching : Bool) : Prop where
  reply : started.reply = .later
  quiet : ∀ effect ∈ started.effects, effect.delivers = false ∧ effect.waits = false
  count : started.effects.countP StepEffect.startsBody ≤ width
  branch : ∀ {source overrides branch}, .startBody source overrides branch ∈ started.effects →
    branch.isSome = branching

namespace Step

/-- The name of the step whose bodies are on branches of their own. -/
def branching (function : String) : Bool := function == "parallel"

/-- The steps that can be called under a name. -/
theorem mem_standard {function : String} {d : StepDef} (h : standard.find? function = some d) :
    d.function = function ∧ d ∈ standard := by
  unfold StepRegistry.find? at h
  refine ⟨?_, List.mem_reverse.mp (List.mem_of_find?_eq_some h)⟩
  have hname := List.find?_some h
  exact beq_iff_eq.mp hname

/-- A property of the standard steps, one by one. -/
theorem forall_standard {P : StepDef → Prop} (hecho : P echo) (herror : P error)
    (hinstant : P instant) (henv : P env) (hsleep : P sleep) (hwait : P waitForSignal)
    (hstage : P stage) (hcontext : P withContext) (hparallel : P parallel) (hevaluate : P evaluate) :
    ∀ d ∈ standard, P d := by
  intro d hd
  simp only [standard, List.mem_cons, List.not_mem_nil, or_false] at hd
  rcases hd with rfl | rfl | rfl | rfl | rfl | rfl | rfl | rfl | rfl | rfl <;> assumption

/-- What is known of the start of a step. -/
def StartsWell (d : StepDef) : Prop :=
  ∀ view, (d.start view).Plain ∨
    d.isBlock = true ∧
      (d.start view).Runs (if branching d.function then view.args.length else 1) (branching d.function)

theorem startsWell_of_plain {d : StepDef} (h : ∀ view, (d.start view).Plain) : StartsWell d :=
  fun view => .inl (h view)

theorem plain_of_nil {reply : StartReply} {memory : StepMemory} :
    StepStart.Plain { effects := [], memory, reply } :=
  fun _ hmem => absurd hmem List.not_mem_nil

theorem plain_succeed {value : Val} {before : List StepEffect}
    (h : ∀ effect ∈ before, effect.startsBody = false) : (succeed value before).Plain := by
  intro effect hmem
  rcases List.mem_append.mp hmem with hmem | hmem
  · exact h effect hmem
  · rw [List.mem_singleton.mp hmem]
    rfl

/-! ### What a start is -/

theorem startBlock_cases (view : StepView) (overrides : Scope) :
    (∃ failure, startBlock view overrides = { reply := .failed failure }) ∨
      ∃ source, startBlock view overrides =
        { effects := [.startBody source overrides none], reply := .later } := by
  unfold startBlock
  split
  · exact .inr ⟨_, rfl⟩
  · exact .inl ⟨_, rfl⟩

theorem sleep_cases (view : StepView) :
    (∃ failure, sleep.start view = { reply := .failed failure }) ∨
      ∃ time, sleep.start view =
        { effects := [.wakeAt time], memory := .deadline time, reply := .later } := by
  simp only [sleep]
  split
  · exact .inr ⟨_, rfl⟩
  · exact .inl ⟨_, rfl⟩

theorem evaluate_cases (view : StepView) :
    (∃ failure, evaluate.start view = { reply := .failed failure }) ∨
      ∃ name source closure, evaluate.start view =
        { effects := [.rememberScript name source, .startBody (.inline closure) [] none]
          reply := .later } := by
  simp only [evaluate]
  split
  · exact .inr ⟨_, _, _, rfl⟩
  · exact .inl ⟨_, rfl⟩

theorem parallel_cases (view : StepView) :
    (∃ failure, parallel.start view = { reply := .failed failure }) ∨
      (parallel.start view =
        { effects := [.deliver (.ok (.list []))], memory := .results [], reply := .completed }) ∨
      ∃ branches, closures view.args = .ok branches ∧ parallel.start view =
        { effects := startBranches 0 branches, memory := .results [], reply := .later } := by
  simp only [parallel]
  split
  · exact .inl ⟨_, rfl⟩
  · exact .inr (.inl rfl)
  · next branches _ hclosures => exact .inr (.inr ⟨branches, hclosures, rfl⟩)

/-- A step with one body, which is on the head of the step. -/
theorem runs_one (effects : List StepEffect) {source : BodySource} {overrides : Scope}
    (h : ∀ effect ∈ effects, effect.delivers = false ∧ effect.waits = false ∧ effect.startsBody = false) :
    StepStart.Runs { effects := effects ++ [.startBody source overrides none], reply := .later } 1 false := by
  refine ⟨rfl, fun effect hmem => ?_, ?_, fun hmem => ?_⟩
  · rcases List.mem_append.mp hmem with hmem | hmem
    · exact ⟨(h effect hmem).1, (h effect hmem).2.1⟩
    · rw [List.mem_singleton.mp hmem]
      exact ⟨rfl, rfl⟩
  · have hnone : effects.countP StepEffect.startsBody = 0 := by
      refine List.countP_eq_zero.mpr fun effect hmem => ?_
      rw [(h effect hmem).2.2]
      exact Bool.false_ne_true
    show (effects ++ [StepEffect.startBody source overrides none]).countP StepEffect.startsBody ≤ 1
    rw [List.countP_append, hnone]
    exact Nat.le_refl _
  · rcases List.mem_append.mp hmem with hmem | hmem
    · cases (h _ hmem).2.2
    · cases List.mem_singleton.mp hmem
      rfl

theorem mem_startBranches {effect : StepEffect} {i : Nat} {closures : List (Closure Val)}
    (h : effect ∈ startBranches i closures) :
    ∃ closure name, effect = .startBody (.inline closure) [] (some name) := by
  induction closures generalizing i with
  | nil => exact absurd h List.not_mem_nil
  | cons closure rest ih =>
    rw [startBranches] at h
    rcases List.mem_cons.mp h with rfl | h
    · exact ⟨_, _, rfl⟩
    · exact ih h

theorem countP_startBranches (i : Nat) (closures : List (Closure Val)) :
    (startBranches i closures).countP StepEffect.startsBody = closures.length := by
  induction closures generalizing i with
  | nil => rfl
  | cons closure rest ih => rw [startBranches, List.countP_cons_of_pos rfl, ih, List.length_cons]

theorem length_closuresFrom {args : List Val} {i : Nat} {closures : List (Closure Val)}
    (h : closuresFrom i args = .ok closures) : closures.length = args.length := by
  induction args generalizing i closures with
  | nil =>
    cases h
    rfl
  | cons arg rest ih =>
    cases arg with
    | closure c =>
      rw [closuresFrom] at h
      cases hrest : closuresFrom (i + 1) rest with
      | error failure =>
        rw [hrest] at h
        cases h
      | ok others =>
        rw [hrest] at h
        cases h
        rw [List.length_cons, List.length_cons, ih hrest]
    | _ => cases h

theorem startsWell_block (view : StepView) (overrides : Scope) :
    (startBlock view overrides).Plain ∨ true = true ∧ (startBlock view overrides).Runs 1 false := by
  rcases startBlock_cases view overrides with ⟨failure, heq⟩ | ⟨source, heq⟩
  · rw [heq]
    exact .inl plain_of_nil
  · rw [heq]
    exact .inr ⟨rfl, runs_one [] fun _ hmem => absurd hmem List.not_mem_nil⟩

/-- **The start of a standard step** asks for all of its bodies, or for none. -/
theorem startsWell_standard : ∀ d ∈ standard, StartsWell d := by
  apply forall_standard
  -- The steps without bodies succeed, fail or wait; stage, context, parallel and evaluate have bodies.
  case hecho =>
    refine startsWell_of_plain fun view => plain_succeed fun effect hmem => ?_
    rcases List.mem_cons.mp hmem with rfl | hmem
    · rfl
    · rw [List.mem_singleton.mp hmem]
      rfl
  case herror => exact startsWell_of_plain fun view => plain_of_nil
  case hinstant =>
    exact startsWell_of_plain fun view => plain_succeed fun _ hmem => absurd hmem List.not_mem_nil
  case henv =>
    exact startsWell_of_plain fun view => plain_succeed fun _ hmem => absurd hmem List.not_mem_nil
  case hsleep =>
    refine startsWell_of_plain fun view => ?_
    rcases sleep_cases view with ⟨failure, heq⟩ | ⟨time, heq⟩
    · rw [heq]
      exact plain_of_nil
    · rw [heq]
      intro effect hmem
      rw [List.mem_singleton.mp hmem]
      rfl
  case hwait =>
    refine startsWell_of_plain fun view effect hmem => ?_
    rw [List.mem_singleton.mp hmem]
    rfl
  case hstage => exact fun view => startsWell_block view []
  case hcontext => exact fun view => startsWell_block view _
  case hparallel =>
    intro view
    rcases parallel_cases view with ⟨failure, heq⟩ | heq | ⟨branches, hclosures, heq⟩
    · rw [heq]
      exact .inl plain_of_nil
    · rw [heq]
      refine .inl fun effect hmem => ?_
      rw [List.mem_singleton.mp hmem]
      rfl
    · rw [heq]
      refine .inr ⟨rfl, rfl, fun effect hmem => ?_, ?_, fun hmem => ?_⟩
      · obtain ⟨closure, name, rfl⟩ := mem_startBranches hmem
        exact ⟨rfl, rfl⟩
      · exact Nat.le_of_eq ((countP_startBranches 0 branches).trans (length_closuresFrom hclosures))
      · obtain ⟨closure, name, hsame⟩ := mem_startBranches hmem
        cases hsame
        rfl
  case hevaluate =>
    intro view
    rcases evaluate_cases view with ⟨failure, heq⟩ | ⟨name, source, closure, heq⟩
    · rw [heq]
      exact .inl plain_of_nil
    · rw [heq]
      refine .inr ⟨rfl, runs_one [.rememberScript name source] fun effect hmem => ?_⟩
      rw [List.mem_singleton.mp hmem]
      exact ⟨rfl, rfl, rfl⟩

/-- A step starts without outcomes of bodies. -/
theorem outcomesOf_start : ∀ d ∈ standard, ∀ view, outcomesOf (d.start view).memory = [] := by
  have hblock : ∀ view overrides, outcomesOf (startBlock view overrides).memory = [] := by
    intro view overrides
    rcases startBlock_cases view overrides with ⟨failure, heq⟩ | ⟨source, heq⟩ <;> rw [heq] <;> rfl
  apply forall_standard
  case hsleep =>
    intro view
    rcases sleep_cases view with ⟨failure, heq⟩ | ⟨time, heq⟩ <;> rw [heq] <;> rfl
  case hstage => exact fun view => hblock view []
  case hcontext => exact fun view => hblock view _
  case hparallel =>
    intro view
    rcases parallel_cases view with ⟨failure, heq⟩ | heq | ⟨branches, _, heq⟩ <;> rw [heq] <;> rfl
  case hevaluate =>
    intro view
    rcases evaluate_cases view with ⟨failure, heq⟩ | ⟨name, source, closure, heq⟩ <;> rw [heq] <;> rfl
  all_goals exact fun view => rfl

theorem block_of_branching : ∀ d ∈ standard, branching d.function = true → d.isBlock = true := by
  apply forall_standard
  case hparallel => exact fun _ => rfl
  all_goals exact fun hno => absurd hno (by decide)

/-! ## Later hooks -/

/-- An effect by which a step that is stopped ends. -/
def endsStep : StepEffect → Bool
  | .deliver _ => true
  | .unlisten _ => true
  | .cancelWake => true
  | _ => false

/-- **A standard step that is stopped** delivers, and waits no longer. -/
theorem stop_standard : ∀ d ∈ standard, ∀ view cause,
    (∀ effect ∈ (d.stop view cause).effects, endsStep effect = true) ∧
      (d.stop view cause).reply = .stopped := by
  -- A step that says nothing of its own about stopping fails with the cause.
  have hdefault : ∀ (cause : Failure), ∀ effect ∈ [StepEffect.deliver (.error cause)],
      endsStep effect = true := by
    intro cause effect hmem
    rw [List.mem_singleton.mp hmem]
    rfl
  apply forall_standard
  case hsleep =>
    refine fun view cause => ⟨fun effect hmem => ?_, rfl⟩
    rcases List.mem_cons.mp hmem with rfl | hmem
    · rfl
    · exact hdefault cause effect hmem
  case hwait =>
    refine fun view cause => ⟨fun effect hmem => ?_, rfl⟩
    rcases List.mem_cons.mp hmem with rfl | hmem
    · rfl
    · exact hdefault cause effect hmem
  all_goals exact fun view cause => ⟨hdefault cause, rfl⟩

/-- **A standard step that runs again** waits for what it waited for, if it has no block. -/
theorem onResume_standard : ∀ d ∈ standard, ∀ view,
    (d.onResume view).memory = view.memory ∧
      ((d.onResume view).effects = [] ∨ d.isBlock = false ∧
        ∃ effect, (d.onResume view).effects = [effect] ∧ effect.waits = true) := by
  apply forall_standard
  case hsleep =>
    intro view
    obtain ⟨_, _, _, _, _, _, _, _, memory⟩ := view
    cases memory <;> exact ⟨rfl, .inr ⟨rfl, _, rfl, rfl⟩⟩
  case hwait => exact fun view => ⟨rfl, .inr ⟨rfl, _, rfl, rfl⟩⟩
  all_goals exact fun view => ⟨rfl, .inl rfl⟩

/-- **A body of a standard step has ended**: the outcome is that of the step, or it is kept beside
the others. -/
theorem onBody_standard : ∀ d ∈ standard, ∀ view index outcome,
    d.onBody view index outcome =
      if branching d.function then branchDone view.args.length (outcomesOf view.memory) index outcome
      else { effects := [.deliver outcome], memory := view.memory } := by
  apply forall_standard
  all_goals exact fun view index outcome => rfl

end Step

end DurableFlow
