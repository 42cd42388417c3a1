/-
Branches that end in any order.

A `parallel` queues one body for each closure, and the cell numbers them as they are queued, so the number
of a body is the place of its closure among the arguments. What the step remembers is a table of outcomes
under these numbers. A table in key order does not tell in which order its entries came, and it is read
back as it was saved; so when the last branch has ended the table is the same for every order in which the
branches ended, and for any number of restarts on the way.
-/
import Mathlib.Data.List.Perm.Basic
import DurableFlow.Proofs.Step.Memory
import DurableFlow.Proofs.History.Reporting
import DurableFlow.Execution.Loading

set_option autoImplicit false

namespace DurableFlow.Step

open Script Text

/-! ## What comes of outcomes -/

/-- **What comes of branches together**: their values in the order of the arguments, or the failure of the
first one that failed, with the failures of the later ones suppressed in it, in that order. -/
structure ComesTogether (outcomes : List Outcome) (result : Outcome) : Prop where
  values : ∀ values : List Val, outcomes = values.map .ok → result = .ok (.list values)
  failures : ∀ (values : List Val) (failure : Failure) (later : List Outcome),
    outcomes = values.map .ok ++ .error failure :: later → result = .error { failure with
      suppressed := failure.suppressed ++ later.filterMap Execution.failureOf? }

theorem join_values (values : List Val) : join (values.map .ok) = .ok values := by
  induction values with
  | nil => rfl
  | cons value rest ih =>
    rw [List.map_cons, join, ih]
    rfl

theorem join_failure (values : List Val) (failure : Failure) (later : List Outcome) :
    join (values.map .ok ++ .error failure :: later) =
      .error (failure.suppressAll (later.filterMap Execution.failureOf?)) := by
  induction values with
  | nil =>
    rw [List.map_nil, List.nil_append, join]
    refine congrArg (Except.error ∘ failure.suppressAll) (List.filterMap_congr fun outcome _ => ?_)
    cases outcome <;> rfl
  | cons value rest ih =>
    rw [List.map_cons, List.cons_append, join, ih]
    rfl

theorem comesTogether_joined (outcomes : Table Nat Outcome) :
    ComesTogether (Table.values outcomes) (joined outcomes) := by
  unfold joined
  constructor
  · intro values h
    rw [h, join_values]
    rfl
  · intro values failure later h
    rw [h, join_failure]
    rfl

/-! ## The bodies -/

/-- The bodies of branches from a number on, as a cell keeps them. -/
def bodiesFrom (i : Nat) : List (Closure Val) → List PendingBody
  | [] => []
  | c :: rest =>
    { index := i, source := .inline c, overrides := [], branch := some ("Branch: " ++ toString (i + 1)) }
      :: bodiesFrom (i + 1) rest

/-- **The cell numbers the branches in the order of the arguments.** -/
theorem queued_startBranches (cell : StepCell) (branches : List (Closure Val)) :
    (startBranches cell.nextBody branches).foldl StepCell.asked cell =
      { cell with
        bodies := cell.bodies ++ bodiesFrom cell.nextBody branches
        nextBody := cell.nextBody + branches.length } := by
  induction branches generalizing cell with
  | nil =>
    show cell = _
    rw [bodiesFrom, List.append_nil]
    rfl
  | cons c rest ih =>
    have hnext := ih (cell.asked (.startBody (.inline c) [] (some ("Branch: " ++ toString (cell.nextBody + 1)))))
    rw [startBranches, List.foldl_cons]
    refine hnext.trans ?_
    simp only [StepCell.asked, StepCell.queueBody, bodiesFrom, List.append_assoc, List.cons_append,
      List.nil_append, List.length_cons, Nat.add_assoc, Nat.add_comm 1]

/-! ## What happens to a parallel step -/

/-- What happens to a `parallel` after its start: a branch ends, or the step is saved and restored. -/
inductive BranchEvent where
  | ended (index : Nat)
  | reloaded (clock : Timestamp)

/-- The branch that ends. -/
def BranchEvent.ended? : BranchEvent → Option Nat
  | .ended index => some index
  | .reloaded _ => none

/-- What the hooks of the step answer, if the branches have these outcomes. -/
def branchEvent (view : StepView) (outcome : Nat → Outcome) (memory : StepMemory) :
    BranchEvent → Except Failure StepReaction
  | .ended index => .ok (parallel.onBody { view with memory } index (outcome index))
  | .reloaded clock =>
    (parallel.restore clock view.args (parallel.saveState memory)).map fun memory =>
      parallel.onResume { view with memory, clock }

/-- What they answer to events in order: what is remembered in the end, and the effects asked for at each
event. -/
def branchEvents (view : StepView) (outcome : Nat → Outcome) :
    StepMemory → List BranchEvent → Except Failure (StepMemory × List (List StepEffect))
  | memory, [] => .ok (memory, [])
  | memory, event :: rest => do
    let reaction ← branchEvent view outcome memory event
    let (memory, effects) ← branchEvents view outcome reaction.memory rest
    return (memory, reaction.effects :: effects)

section Events

variable {view : StepView} {outcome : Nat → Outcome}

theorem branchEvents_append {memory middle last : StepMemory} {before after : List BranchEvent}
    {effects later : List (List StepEffect)}
    (hbefore : branchEvents view outcome memory before = .ok (middle, effects))
    (hafter : branchEvents view outcome middle after = .ok (last, later)) :
    branchEvents view outcome memory (before ++ after) = .ok (last, effects ++ later) := by
  induction before generalizing memory effects with
  | nil =>
    cases hbefore
    exact hafter
  | cons event rest ih =>
    obtain ⟨reaction, hreaction, hrest⟩ := bind_eq_ok.mp hbefore
    obtain ⟨⟨middle', effects'⟩, hmiddle, hdone⟩ := bind_eq_ok.mp hrest
    cases hdone
    rw [List.cons_append, branchEvents, hreaction]
    show (branchEvents view outcome reaction.memory (rest ++ after) >>= _) = _
    rw [ih hmiddle]
    rfl

/-! ### What is remembered -/

/-- The outcomes of the branches that have ended, in key order. -/
structure Remembered (outcome : Nat → Outcome) (ended : List Nat) (outcomes : Table Nat Outcome) : Prop where
  sorted : Table.Sorted outcomes
  entries : outcomes.Perm (ended.map fun i => (i, outcome i))

namespace Remembered

variable {ended : List Nat} {outcomes : Table Nat Outcome}

theorem length (h : Remembered outcome ended outcomes) : outcomes.length = ended.length := by
  rw [h.entries.length_eq, List.length_map]

/-- One more branch has ended. -/
theorem insert (h : Remembered outcome ended outcomes) {i : Nat} (hnew : i ∉ ended) :
    Remembered outcome (ended ++ [i]) (Table.insert i (outcome i) outcomes) := by
  have hkeys : i ∉ Table.keys outcomes := by
    intro hmem
    have hmem' := (h.entries.map Prod.fst).mem_iff.mp hmem
    simp only [List.map_map, List.mem_map, Function.comp_apply, exists_eq_right] at hmem'
    exact hnew hmem'
  refine ⟨h.sorted.insert i (outcome i), ?_⟩
  rw [List.map_append]
  have hlast := h.entries.cons (i, outcome i)
  exact (Table.perm_insert (outcome i) hkeys).trans (hlast.trans (List.perm_append_singleton _ _).symm)

/-- **When all have ended, nothing is left of the order.** -/
theorem values_eq (h : Remembered outcome ended outcomes) {n : Nat} (hall : ended.Perm (List.range n)) :
    Table.values outcomes = (List.range n).map outcome := by
  have hsorted : Table.Sorted ((List.range n).map fun i => (i, outcome i)) := by
    refine List.pairwise_map.mpr (List.pairwise_lt_range.imp fun hlt => ?_)
    exact Nat.compare_eq_lt.mpr hlt
  have htable : outcomes = (List.range n).map fun i => (i, outcome i) :=
    h.sorted.eq_of_perm hsorted (h.entries.trans (hall.map _))
  rw [htable, Table.values, List.map_map]
  rfl

theorem storable (h : Remembered outcome ended outcomes) {n : Nat} (hnumbers : n ≤ Json.wordBound)
    (hended : ∀ i ∈ ended, i < n) (hstorable : ∀ i < n, Outcome.Storable (outcome i)) :
    (StepMemory.results outcomes).Storable := by
  intro entry hmem
  obtain ⟨i, hi, rfl⟩ := List.mem_map.mp (h.entries.mem_iff.mp hmem)
  exact ⟨Nat.lt_of_lt_of_le (hended i hi) hnumbers, hstorable i (hended i hi)⟩

end Remembered

/-! ### Events -/

variable {branches : List (Closure Val)} {ended : List Nat} {outcomes : Table Nat Outcome}

/-- A restart brings back what was remembered and asks for nothing. -/
theorem branchEvent_reloaded (hcall : closures view.args = .ok branches) (h : Remembered outcome ended outcomes)
    (hstorable : (StepMemory.results outcomes).Storable) (clock : Timestamp) :
    branchEvent view outcome (.results outcomes) (.reloaded clock) = .ok { memory := .results outcomes } := by
  have hmem : parallel ∈ standard := by simp [standard]
  have hcreate : parallel.create clock view.args = .ok (.results []) := by
    simp only [parallel, hcall]
    rfl
  rw [branchEvent,
    restore_saveState hmem hcreate (.results h.sorted) hstorable fun hno => absurd hno (by decide)]
  rfl

theorem branchEvent_ended (view : StepView) (outcome : Nat → Outcome) (outcomes : Table Nat Outcome) (i : Nat) :
    branchEvent view outcome (.results outcomes) (.ended i) =
      .ok (branchDone view.args.length outcomes i (outcome i)) := rfl

/-- **Until the last branch ends**, nothing is asked for. -/
theorem branchEvents_before (hcall : closures view.args = .ok branches)
    (hnumbers : branches.length ≤ Json.wordBound)
    (hstorable : ∀ i < branches.length, Outcome.Storable (outcome i)) (events : List BranchEvent)
    (h : Remembered outcome ended outcomes) (hnodup : (ended ++ events.filterMap BranchEvent.ended?).Nodup)
    (hindex : ∀ i ∈ ended ++ events.filterMap BranchEvent.ended?, i < branches.length)
    (hleft : events.filterMap BranchEvent.ended? = [] ∨
      (ended ++ events.filterMap BranchEvent.ended?).length < branches.length) :
    ∃ outcomes', branchEvents view outcome (.results outcomes) events =
        .ok (.results outcomes', events.map fun _ => []) ∧
      Remembered outcome (ended ++ events.filterMap BranchEvent.ended?) outcomes' := by
  induction events generalizing ended outcomes with
  | nil => exact ⟨outcomes, rfl, by rwa [List.filterMap_nil, List.append_nil]⟩
  | cons event rest ih =>
    cases event with
    | reloaded clock =>
      have hsame : (BranchEvent.reloaded clock :: rest).filterMap BranchEvent.ended? =
          rest.filterMap BranchEvent.ended? := rfl
      rw [hsame] at hnodup hindex hleft ⊢
      have hended : ∀ i ∈ ended, i < branches.length := fun i hi => hindex i (List.mem_append_left _ hi)
      -- the table is read back as it was saved
      obtain ⟨outcomes', hrest, hkept⟩ := ih h hnodup hindex hleft
      refine ⟨outcomes', ?_, hkept⟩
      rw [branchEvents, branchEvent_reloaded hcall h (h.storable hnumbers hended hstorable)]
      show (branchEvents view outcome (.results outcomes) rest >>= _) = _
      rw [hrest]
      rfl
    | ended i =>
      have hsame : (BranchEvent.ended i :: rest).filterMap BranchEvent.ended? =
          i :: rest.filterMap BranchEvent.ended? := rfl
      have hshift : ended ++ i :: rest.filterMap BranchEvent.ended? =
          ended ++ [i] ++ rest.filterMap BranchEvent.ended? := by simp
      rw [hsame] at hleft
      rw [hsame, hshift] at hnodup hindex ⊢
      rw [hshift] at hleft
      replace hleft := hleft.resolve_left fun hno => (by cases hno)
      have hnew : i ∉ ended := by
        have hdisjoint := (List.nodup_append.mp (List.nodup_append.mp hnodup).1).2.2
        exact fun hmem => hdisjoint i hmem i (List.mem_singleton.mpr rfl) rfl
      have hinserted := h.insert hnew
      -- some branch is left, so the table is not full yet
      have hcount : (Table.insert i (outcome i) outcomes).length < view.args.length := by
        rw [hinserted.length, ← length_closuresFrom hcall]
        refine Nat.lt_of_le_of_lt ?_ hleft
        exact (List.prefix_append _ _).length_le
      obtain ⟨outcomes', hrest, hkept⟩ := ih hinserted hnodup hindex (.inr hleft)
      refine ⟨outcomes', ?_, hkept⟩
      rw [branchEvents, branchEvent_ended, branchDone, if_pos hcount]
      show (branchEvents view outcome (.results (Table.insert i (outcome i) outcomes)) rest >>= _) = _
      rw [hrest]
      rfl

/-- Events in which a branch ends have a last one in which one does. -/
theorem exists_last_ended {events : List BranchEvent} (h : events.filterMap BranchEvent.ended? ≠ []) :
    ∃ before last after, events = before ++ .ended last :: after ∧
      after.filterMap BranchEvent.ended? = [] ∧
      events.filterMap BranchEvent.ended? = before.filterMap BranchEvent.ended? ++ [last] := by
  induction events with
  | nil => exact absurd rfl h
  | cons event rest ih =>
    by_cases hrest : rest.filterMap BranchEvent.ended? = []
    · cases event with
      | reloaded clock => exact absurd hrest h
      | ended i => exact ⟨[], i, rest, rfl, hrest, congrArg (i :: ·) hrest⟩
    · obtain ⟨before, last, after, rfl, hafter, hended⟩ := ih hrest
      refine ⟨event :: before, last, after, rfl, hafter, ?_⟩
      cases event with
      | reloaded clock => exact hended
      | ended i => exact congrArg (i :: ·) hended

/-- The outcomes of all branches in the order of the arguments. -/
def outcomesUpTo (outcome : Nat → Outcome) (n : Nat) : Table Nat Outcome :=
  (List.range n).map fun i => (i, outcome i)

/-- **The end of the last branch** delivers what comes of all of them. -/
theorem branchEvent_last (hcall : closures view.args = .ok branches) (h : Remembered outcome ended outcomes)
    {last : Nat} (hnew : last ∉ ended) (hall : (ended ++ [last]).Perm (List.range branches.length)) :
    branchEvent view outcome (.results outcomes) (.ended last) = .ok
      { effects := [.deliver (joined (outcomesUpTo outcome branches.length))]
        memory := .results (Table.insert last (outcome last) outcomes) } := by
  have hwhole := h.insert hnew
  have hdone : ¬ (Table.insert last (outcome last) outcomes).length < view.args.length := by
    rw [hwhole.length, hall.length_eq, List.length_range, ← length_closuresFrom hcall]
    exact Nat.lt_irrefl _
  have hsame : joined (Table.insert last (outcome last) outcomes) =
      joined (outcomesUpTo outcome branches.length) := by
    rw [joined, hwhole.values_eq hall, joined, outcomesUpTo, Table.values, List.map_map]
    rfl
  rw [branchEvent_ended, branchDone, if_neg hdone, hsame]

/-- **All branches end**, in any order and with restarts: there is one delivery, at the last end. -/
theorem branchEvents_all (hcall : closures view.args = .ok branches)
    (hnumbers : branches.length ≤ Json.wordBound)
    (hstorable : ∀ i < branches.length, Outcome.Storable (outcome i)) (hsome : branches ≠ [])
    {events : List BranchEvent}
    (hall : (events.filterMap BranchEvent.ended?).Perm (List.range branches.length)) :
    ∃ before last after memory, events = before ++ .ended last :: after ∧
      after.filterMap BranchEvent.ended? = [] ∧
      branchEvents view outcome (.results []) events = .ok (memory, before.map (fun _ => []) ++
        [.deliver (joined (outcomesUpTo outcome branches.length))] :: after.map fun _ => []) := by
  obtain ⟨before, last, after, rfl, hafter, hended⟩ := exists_last_ended (by
    intro hno
    rw [hno] at hall
    exact hsome (List.length_eq_zero_iff.mp (by simpa using hall.length_eq.symm)))
  rw [hended] at hall
  have hnodup := hall.nodup_iff.mpr List.nodup_range
  have hindex : ∀ i ∈ before.filterMap BranchEvent.ended? ++ [last], i < branches.length :=
    fun i hi => List.mem_range.mp (hall.mem_iff.mp hi)
  have hcount : (before.filterMap BranchEvent.ended?).length < branches.length := by
    have hlast := hall.length_eq
    rw [List.length_append, List.length_range, List.length_singleton] at hlast
    omega
  -- the events before the last end, that end, and those behind it, which are restarts
  have hnothing : Remembered outcome [] [] := ⟨.nil, .refl _⟩
  obtain ⟨outcomes, hbefore, hmost⟩ := branchEvents_before hcall hnumbers hstorable before hnothing
    (List.nodup_append.mp hnodup).1 (fun i hi => hindex i (List.mem_append_left _ hi)) (.inr hcount)
  rw [List.nil_append] at hmost
  have hnew : last ∉ before.filterMap BranchEvent.ended? := fun hmem =>
    (List.nodup_append.mp hnodup).2.2 last hmem last (List.mem_singleton.mpr rfl) rfl
  obtain ⟨outcomes', hrest, -⟩ := branchEvents_before hcall hnumbers hstorable after (hmost.insert hnew)
    (by rw [hafter, List.append_nil]; exact hnodup) (by rw [hafter, List.append_nil]; exact hindex) (.inl hafter)
  refine ⟨before, last, after, .results outcomes', rfl, hafter, branchEvents_append hbefore ?_⟩
  rw [branchEvents, branchEvent_last hcall hmost hnew hall]
  show (branchEvents view outcome (.results (Table.insert last (outcome last) outcomes)) after >>= _) = _
  rw [hrest]
  rfl

end Events

theorem closuresFrom_map (i : Nat) (branches : List (Closure Val)) :
    closuresFrom i (branches.map .closure) = .ok branches := by
  induction branches generalizing i with
  | nil => rfl
  | cons c rest ih =>
    rw [List.map_cons, closuresFrom, ih]
    rfl

/-- The start of a step that was called with closures. -/
theorem start_parallel {view : StepView} {branches : List (Closure Val)}
    (hargs : view.args = branches.map .closure) :
    parallel.start view =
      if branches = [] then
        { effects := [.deliver (.ok (.list []))], memory := .results [], reply := .completed }
      else { effects := startBranches 0 branches, memory := .results [], reply := .later } := by
  have hcall : closures view.args = .ok branches := by
    rw [hargs]
    exact closuresFrom_map 0 branches
  cases branches with
  | nil => simp only [parallel, hcall, if_pos]
  | cons c rest => simp only [parallel, hcall, reduceCtorEq, if_false]

/-- **The result of a parallel step does not depend on the order in which its branches end.** For every
assignment of outcomes to the branches there is one result, and it is what comes of the outcomes in the
order of the arguments. Without branches it is delivered by the start. Otherwise the start queues the
branches, numbered in the order of the arguments. Then, in whatever order they end and however often the
step is saved and restored in between, the result is delivered once, when the last of them ends, and nothing
is asked for before or after. -/
theorem parallel_ignores_order {view : StepView} {branches : List (Closure Val)}
    (hargs : view.args = branches.map .closure) (hnumbers : branches.length ≤ Json.wordBound)
    (outcome : Nat → Outcome) (hstorable : ∀ i < branches.length, Outcome.Storable (outcome i)) :
    ∃ result, ComesTogether ((List.range branches.length).map outcome) result ∧
      (branches = [] → (parallel.start view).effects = [.deliver result] ∧
        ∀ events, events.filterMap BranchEvent.ended? = [] → ∃ memory,
          branchEvents view outcome (parallel.start view).memory events =
            .ok (memory, events.map fun _ => [])) ∧
      (branches ≠ [] →
        (parallel.start view).effects.foldl StepCell.asked {} =
          { bodies := bodiesFrom 0 branches, nextBody := branches.length } ∧
        ∀ events, (events.filterMap BranchEvent.ended?).Perm (List.range branches.length) →
          ∃ before last after memory, events = before ++ .ended last :: after ∧
            after.filterMap BranchEvent.ended? = [] ∧
            branchEvents view outcome (parallel.start view).memory events =
              .ok (memory, before.map (fun _ => []) ++ [.deliver result] :: after.map fun _ => [])) := by
  have hcall : closures view.args = .ok branches := by
    rw [hargs]
    exact closuresFrom_map 0 branches
  have hvalues : Table.values (outcomesUpTo outcome branches.length) =
      (List.range branches.length).map outcome := by
    rw [outcomesUpTo, Table.values, List.map_map]
    rfl
  have hstart := start_parallel hargs
  refine ⟨joined (outcomesUpTo outcome branches.length), hvalues ▸ comesTogether_joined _, fun hnil => ?_,
    fun hsome => ?_⟩
  · rw [if_pos hnil] at hstart
    subst hnil
    rw [hstart]
    refine ⟨rfl, fun events hevents => ?_⟩
    have hnothing : Remembered outcome [] [] := ⟨.nil, .refl _⟩
    obtain ⟨outcomes, hrun, -⟩ := branchEvents_before hcall hnumbers hstorable events hnothing
      (by rw [hevents]; exact List.nodup_nil) (by rw [hevents]; exact fun _ hno => (by cases hno)) (.inl hevents)
    exact ⟨.results outcomes, hrun⟩
  · rw [if_neg hsome] at hstart
    rw [hstart]
    refine ⟨?_, fun events hall => branchEvents_all hcall hnumbers hstorable hsome hall⟩
    have hqueued := queued_startBranches {} branches
    rwa [List.nil_append, Nat.zero_add] at hqueued

/-- Two branches that fail; the second one ends first, and the step is restored before the first one ends. -/
theorem parallel_ignores_order_failed :
    let branch : Closure Val := { program := { name := "", chunks := [] }, chunk := 0, captured := [] }
    let view : StepView :=
      { node := 1, thread := 1, function := "parallel", args := [.closure branch, .closure branch]
        body := none, vars := [], liveObjects := [], clock := ⟨0⟩, memory := .empty }
    let first : Failure := { code := "First", message := "" }
    let second : Failure := { code := "Second", message := "" }
    let outcome (i : Nat) : Outcome := .error (if i = 0 then first else second)
    ∃ memory, branchEvents view outcome (parallel.start view).memory [.ended 1, .reloaded ⟨5⟩, .ended 0] =
      .ok (memory, [[], [], [.deliver (.error { first with suppressed := [second] })]]) := by
  intro branch view first second outcome
  have hargs : view.args = [branch, branch].map .closure := rfl
  obtain ⟨result, htogether, -, hmany⟩ := parallel_ignores_order hargs (by decide) outcome fun i _ => trivial
  obtain ⟨-, hall⟩ := hmany (by simp)
  obtain ⟨before, last, after, memory, hevents, hafter, hrun⟩ :=
    hall [.ended 1, .reloaded ⟨5⟩, .ended 0] (by decide)
  have hresult : result = .error { first with suppressed := [second] } :=
    htogether.failures [] first [.error second] rfl
  -- the third event is the last end
  rcases before with _ | ⟨_, _ | ⟨_, _ | ⟨_, rest⟩⟩⟩
  · cases hevents
    cases hafter
  · cases hevents
  · cases hevents
    rw [hresult] at hrun
    exact ⟨memory, hrun⟩
  · have hlength := congrArg List.length hevents
    simp at hlength

end DurableFlow.Step

/-! ## In an execution -/

namespace DurableFlow.Execution

open Script Text Step

variable {x : Execution} {node : Nat} {step : LiveStep} {outcome : Nat → Outcome} {reaction : StepReaction}

/-- **The end of a body of a live `parallel`** is such an event: the step remembers what its hook answers,
and has the outcome that is delivered, if any. -/
theorem stepAt_bodyEnded_parallel (hengine : x.engine.steps = standard)
    (hstep : x.program.stepAt node = some step) (hname : step.function = "parallel") {index : Nat}
    (hevent : branchEvent (x.viewOf step) outcome step.memory (.ended index) = .ok reaction) :
    ∃ bodies, (x.bodyEnded node index (outcome index)).2.program.stepAt node = some { step with
      cell := { reaction.effects.foldl StepCell.asked step.cell with bodies }, memory := reaction.memory } := by
  obtain rfl := Except.ok.inj hevent
  have hdef : x.stepDef? step.function = some parallel := by
    rw [stepDef?, hengine, hname]
    rfl
  have hlive : Table.find? node x.program.steps = some step := hstep
  unfold bodyEnded
  rw [hlive]
  dsimp only
  rw [hdef]
  have hreacted := stepAt_react hstep (parallel.onBody (x.viewOf step) index (outcome index))
  have hfound : Table.find? node (x.react node (parallel.onBody (x.viewOf step) index
      (outcome index))).program.steps = _ := hreacted
  refine ⟨[], ?_⟩
  unfold takeBodies
  rw [hfound]
  exact stepAt_adjusted hreacted _

/-- **The restoring of a saved `parallel`** is such an event as well. -/
theorem memory_restoreStep_parallel {saved : SavedStep} {view : StepView} {memory : StepMemory}
    {clock : Timestamp} (hname : saved.function = "parallel") (hargs : view.args = saved.args)
    (hstate : saved.state = parallel.saveState memory)
    (hevent : branchEvent view outcome memory (.reloaded clock) = .ok reaction) :
    (restoreStep standard clock saved).map LiveStep.memory = .ok reaction.memory := by
  have hdef : standard.find? saved.function = some parallel := by
    rw [hname]
    rfl
  rw [branchEvent, hargs, ← hstate] at hevent
  unfold restoreStep
  rw [hdef]
  dsimp only
  cases hrestored : parallel.restore clock saved.args saved.state with
  | error failure =>
    rw [hrestored] at hevent
    cases hevent
  | ok restored =>
    rw [hrestored] at hevent
    obtain rfl := Except.ok.inj hevent
    rfl

end DurableFlow.Execution
