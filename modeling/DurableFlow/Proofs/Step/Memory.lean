/-
What the standard steps remember, and that it comes back.

A step was called with arguments that it found in order, and what it remembers has the form
that its hooks give it. So its saved state restores what it remembers: the deadline of a
sleep, the outcomes of the branches that have ended, and nothing for the others. A sleep
looks at its duration again when it is restored, so this has to lead to a time that can be
named from then on, too.
-/
import DurableFlow.Proofs.Data.Attempts
import DurableFlow.Proofs.Program.Saved
import DurableFlow.Step.Standard

set_option autoImplicit false

namespace DurableFlow

open Script Text

/-- **A memory that can be stored.** -/
def StepMemory.Storable : StepMemory → Prop
  | .empty => True
  | .deadline time => Timestamp.isDay (time.millis.fdiv 86400000) = true
  | .results outcomes => ∀ entry ∈ outcomes, entry.1 < Json.wordBound ∧ Outcome.Storable entry.2

namespace Step

/-! ## The forms of memories -/

/-- **What a step of a name can remember.** -/
inductive Holds : String → StepMemory → Prop
  | empty {function : String} (h : function ≠ "parallel") : Holds function .empty
  | deadline (time : Timestamp) : Holds "sleep" (.deadline time)
  | results {outcomes : Table Nat Outcome} (h : Table.Sorted outcomes) :
    Holds "parallel" (.results outcomes)

theorem Holds.sorted {function : String} {outcomes : Table Nat Outcome}
    (h : Holds function (.results outcomes)) : Table.Sorted outcomes := by
  cases h with
  | results hsorted => exact hsorted

theorem Holds.ne_parallel {function : String} (h : Holds function .empty) :
    function ≠ "parallel" := by
  cases h with
  | empty hne => exact hne

theorem Holds.eq_sleep {function : String} {time : Timestamp}
    (h : Holds function (.deadline time)) : function = "sleep" := by
  cases h with
  | deadline _ => rfl

theorem Holds.eq_parallel {function : String} {outcomes : Table Nat Outcome}
    (h : Holds function (.results outcomes)) : function = "parallel" := by
  cases h with
  | results _ => rfl

theorem Holds.eq_empty {function : String} {memory : StepMemory} (h : Holds function memory)
    (hsleep : function ≠ "sleep") (hparallel : function ≠ "parallel") : memory = .empty := by
  cases h with
  | empty _ => rfl
  | deadline _ => exact absurd rfl hsleep
  | results _ => exact absurd rfl hparallel

/-- The standard steps, one by one. -/
theorem standard_cases {P : StepDef → Prop} {d : StepDef} (hd : d ∈ standard) (echo : P echo)
    (error : P error) (instant : P instant) (env : P env) (sleep : P sleep)
    (wait : P waitForSignal) (stage : P stage) (context : P withContext) (parallel : P parallel)
    (evaluate : P evaluate) : P d := by
  simp only [standard, List.mem_cons, List.not_mem_nil, or_false] at hd
  rcases hd with rfl | rfl | rfl | rfl | rfl | rfl | rfl | rfl | rfl | rfl <;> assumption

theorem eq_sleep {d : StepDef} (hd : d ∈ standard) (h : d.function = "sleep") : d = sleep := by
  revert h
  refine standard_cases (P := fun d => d.function = "sleep" → d = sleep) hd
    ?_ ?_ ?_ ?_ (fun _ => rfl) ?_ ?_ ?_ ?_ ?_ <;> exact fun hno => absurd hno (by decide)

theorem eq_parallel {d : StepDef} (hd : d ∈ standard) (h : d.function = "parallel") :
    d = parallel := by
  revert h
  refine standard_cases (P := fun d => d.function = "parallel" → d = parallel) hd
    ?_ ?_ ?_ ?_ ?_ ?_ ?_ ?_ (fun _ => rfl) ?_ <;> exact fun hno => absurd hno (by decide)

/-! ## Steps that remember nothing -/

/-- A step that remembers nothing: it checks its arguments, whatever the time is. -/
structure Plain (d : StepDef) : Prop where
  create : ∀ {clock args memory}, d.create clock args = .ok memory →
    memory = .empty ∧ ∀ later state, d.restore later args state = .ok .empty
  start : ∀ view, (d.start view).memory = .empty
  onBody : ∀ view index outcome, (d.onBody view index outcome).memory = view.memory
  onResume : ∀ view, (d.onResume view).memory = view.memory
  saveState : ∀ memory, d.saveState memory = none

theorem plain_standard {d : StepDef} (hd : d ∈ standard) (hsleep : d.function ≠ "sleep")
    (hparallel : d.function ≠ "parallel") : Plain d := by
  revert hsleep hparallel
  refine standard_cases (P := fun d => d.function ≠ "sleep" → d.function ≠ "parallel" → Plain d)
    hd ?echo ?error ?instant ?env ?sleep ?wait ?stage ?context ?parallel ?evaluate
  case sleep => exact fun hno => absurd rfl hno
  case parallel => exact fun _ hno => absurd rfl hno
  -- The cases differ in how many arguments are read before the empty memory is returned.
  case echo | error | instant | wait =>
    refine fun _ _ => ⟨fun h => ?_, fun _ => rfl, fun _ _ _ => rfl, fun _ => rfl, fun _ => rfl⟩
    obtain ⟨_, _, hdone⟩ := bind_eq_ok.mp h
    cases hdone
    exact ⟨rfl, fun _ _ => h⟩
  case env =>
    refine fun _ _ => ⟨fun h => ?_, fun _ => rfl, fun _ _ _ => rfl, fun _ => rfl, fun _ => rfl⟩
    obtain ⟨_, _, hrest⟩ := bind_eq_ok.mp h
    obtain ⟨_, _, hdone⟩ := bind_eq_ok.mp hrest
    cases hdone
    exact ⟨rfl, fun _ _ => h⟩
  case stage | context =>
    refine fun _ _ => ⟨fun h => ?_, fun view => ?_, fun _ _ _ => rfl, fun _ => rfl, fun _ => rfl⟩
    · obtain ⟨_, _, hrest⟩ := bind_eq_ok.mp h
      obtain ⟨_, _, hdone⟩ := bind_eq_ok.mp hrest
      cases hdone
      exact ⟨rfl, fun _ _ => h⟩
    · show (startBlock view _).memory = .empty
      unfold startBlock
      split <;> rfl
  case evaluate =>
    refine fun _ _ => ⟨fun h => ?_, fun view => ?_, fun _ _ _ => rfl, fun _ => rfl, fun _ => rfl⟩
    · obtain ⟨_, _, hrest⟩ := bind_eq_ok.mp h
      obtain ⟨_, _, hlast⟩ := bind_eq_ok.mp hrest
      obtain ⟨_, _, hdone⟩ := bind_eq_ok.mp hlast
      cases hdone
      exact ⟨rfl, fun _ _ => h⟩
    · simp only [evaluate]
      split <;> rfl

/-! ## What the hooks leave -/

theorem holds_create {d : StepDef} (hd : d ∈ standard) {clock : Timestamp} {args : List Val}
    {memory : StepMemory} (h : d.create clock args = .ok memory) : Holds d.function memory := by
  by_cases hsleep : d.function = "sleep"
  -- A sleep has its deadline from its start, not from the call.
  · have hcreate : ∀ {m}, sleep.create clock args = .ok m → m = .empty := by
      intro m h
      obtain ⟨_, _, hrest⟩ := bind_eq_ok.mp h
      obtain ⟨_, _, hdone⟩ := bind_eq_ok.mp hrest
      cases hdone
      rfl
    rw [eq_sleep hd hsleep] at h ⊢
    rw [hcreate h]
    exact .empty (by decide)
  · by_cases hparallel : d.function = "parallel"
    · rw [eq_parallel hd hparallel] at h ⊢
      obtain ⟨_, _, rfl⟩ := map_eq_ok h
      exact .results .nil
    · rw [((plain_standard hd hsleep hparallel).create h).1]
      exact .empty hparallel

/-- A step that was called with arguments in order starts with a memory of its form. -/
theorem holds_start {d : StepDef} (hd : d ∈ standard) {view : StepView} {clock : Timestamp}
    {memory : StepMemory} (hcreate : d.create clock view.args = .ok memory) :
    Holds d.function (d.start view).memory := by
  by_cases hsleep : d.function = "sleep"
  · rw [eq_sleep hd hsleep]
    simp only [sleep]
    split
    · exact .deadline _
    · exact .empty (by decide)
  · by_cases hparallel : d.function = "parallel"
    · rw [eq_parallel hd hparallel] at hcreate ⊢
      obtain ⟨branches, hclosures, -⟩ := map_eq_ok hcreate
      simp only [parallel, hclosures]
      split
      · next hno => cases hno
      · exact .results .nil
      · exact .results .nil
    · rw [(plain_standard hd hsleep hparallel).start]
      exact .empty hparallel

theorem holds_onBody {d : StepDef} (hd : d ∈ standard) {view : StepView}
    (h : Holds d.function view.memory) (index : Nat) (outcome : Outcome) :
    Holds d.function (d.onBody view index outcome).memory := by
  by_cases hsleep : d.function = "sleep"
  · rw [eq_sleep hd hsleep] at h ⊢
    exact h
  · by_cases hparallel : d.function = "parallel"
    · rw [eq_parallel hd hparallel] at h ⊢
      -- Whatever the memory is, the outcomes that are read from it are in the order of the bodies.
      have hsorted : Table.Sorted (outcomesOf view.memory) := by
        generalize view.memory = memory at h
        cases memory with
        | empty => exact .nil
        | deadline time => exact .nil
        | results outcomes => exact h.sorted
      exact .results (hsorted.insert index outcome)
    · rw [(plain_standard hd hsleep hparallel).onBody]
      exact h

theorem onResume_memory {d : StepDef} (hd : d ∈ standard) (view : StepView) :
    (d.onResume view).memory = view.memory := by
  by_cases hsleep : d.function = "sleep"
  · rw [eq_sleep hd hsleep]
    simp only [sleep]
    split <;> rfl
  · by_cases hparallel : d.function = "parallel"
    · rw [eq_parallel hd hparallel]
      rfl
    · exact (plain_standard hd hsleep hparallel).onResume view

/-- **Whatever a step was saved as**, what it is restored to is a memory of its form. -/
theorem holds_restore {d : StepDef} (hd : d ∈ standard) {clock now : Timestamp} {args : List Val}
    {created memory : StepMemory} {state : Option Json} (hcreate : d.create clock args = .ok created)
    (h : d.restore now args state = .ok memory) : Holds d.function memory := by
  by_cases hsleep : d.function = "sleep"
  · rw [eq_sleep hd hsleep] at h ⊢
    obtain ⟨_, _, hrest⟩ := bind_eq_ok.mp h
    split at hrest
    · cases hrest
      exact .empty (by decide)
    · split at hrest
      · cases hrest
        exact .deadline _
      · cases hrest
  · by_cases hparallel : d.function = "parallel"
    · rw [eq_parallel hd hparallel] at h ⊢
      -- The branches are read from the arguments again; only the outcomes come from the saved state.
      have hfinish : ∀ outcomes : Table Nat Outcome, Table.Sorted outcomes →
          (do let _ ← closures args; return StepMemory.results outcomes) = Except.ok memory →
          Holds "parallel" memory := by
        intro outcomes hsorted hrest
        obtain ⟨_, _, hdone⟩ := bind_eq_ok.mp hrest
        cases hdone
        exact .results hsorted
      dsimp only [parallel] at h
      split at h
      · exact hfinish [] .nil h
      · split at h
        · next found hfound =>
          obtain ⟨fields, _, hfield⟩ := Option.bind_eq_some_iff.mp hfound
          obtain ⟨part, _, hread⟩ := Option.bind_eq_some_iff.mp hfield
          exact hfinish found (Document.sorted_numbered? hread) h
        · cases h
    · have hrestored := ((plain_standard hd hsleep hparallel).create hcreate).2 now state
      rw [h] at hrestored
      cases hrestored
      exact .empty hparallel

/-! ## Saved states -/

/-- The outcomes of branches are read back. -/
theorem outcomesOfState?_toState {outcomes : Table Nat Outcome} (hsorted : Table.Sorted outcomes)
    (h : ∀ entry ∈ outcomes, entry.1 < Json.wordBound ∧ Outcome.Storable entry.2) :
    outcomesOfState? (outcomesToState outcomes) = some outcomes := by
  have hnodup : ([("results", Json.ofNumbered Outcome.toJson outcomes)].map Prod.fst).Nodup := by
    simp
  obtain ⟨fields, hfields, hof⟩ := Document.record?_ofJson ["results"] 1 hnodup
  have hread : Document.numbered? Json.wordBound Outcome.ofDocument?
      (.ofJson (Json.ofNumbered Outcome.toJson outcomes)) = some outcomes :=
    Document.numbered?_ofNumbered hsorted (fun entry hmem => (h entry hmem).1)
      fun entry hmem => Outcome.ofDocument?_toJson (h entry hmem).2
  rw [outcomesToState, outcomesOfState?, hfields]
  simp [hof.field?_eq, Table.find?_cons, hread]

/-- The deadline of a sleep is read back. -/
theorem deadlineOfState?_text {time : Timestamp}
    (h : Timestamp.isDay (time.millis.fdiv 86400000) = true) :
    deadlineOfState? (.obj [("deadline", .str time.text)]) = some time := by
  have hnodup : ([("deadline", Json.str time.text)].map Prod.fst).Nodup := by simp
  obtain ⟨fields, hfields, hof⟩ := Document.record?_ofJson ["deadline"] 1 hnodup
  rw [deadlineOfState?, hfields]
  simp [hof.field?_eq, Table.find?_cons, History.timestampOfDocument?, str?_ofJson,
    Timestamp.parse?_text h]

/-- The duration of a sleep leads to a time that can be named. -/
def Reachable (function : String) (clock : Timestamp) (args : List Val) : Prop :=
  function = "sleep" → ∃ time, sleepDeadline clock args = .ok time

/-- **What a standard step has saved restores what it remembers.** -/
theorem restore_saveState {d : StepDef} (hd : d ∈ standard) {clock now : Timestamp}
    {args : List Val} {memory created : StepMemory} (hcreate : d.create clock args = .ok created)
    (hholds : Holds d.function memory) (hstorable : memory.Storable)
    (hreachable : Reachable d.function now args) :
    d.restore now args (d.saveState memory) = .ok memory := by
  by_cases hsleep : d.function = "sleep"
  · obtain ⟨time, htime⟩ := hreachable hsleep
    rw [eq_sleep hd hsleep] at hholds ⊢
    cases memory with
    | empty =>
      simp only [sleep, htime]
      rfl
    | deadline deadline =>
      simp only [sleep, htime, deadlineOfState?_text hstorable]
      rfl
    | results outcomes => exact absurd hholds.eq_parallel (by decide)
  · by_cases hparallel : d.function = "parallel"
    · rw [eq_parallel hd hparallel] at hcreate hholds ⊢
      obtain ⟨branches, hclosures, -⟩ := map_eq_ok hcreate
      cases memory with
      | results outcomes =>
        simp only [parallel, outcomesOf, outcomesOfState?_toState hholds.sorted hstorable,
          hclosures]
        rfl
      | empty => exact absurd rfl hholds.ne_parallel
      | deadline time => exact absurd hholds.eq_sleep (by decide)
    · have hplain := plain_standard hd hsleep hparallel
      have hempty : memory = .empty := hholds.eq_empty hsleep hparallel
      rw [hempty]
      exact (hplain.create hcreate).2 _ _

/-- A saved state is an object in key order. -/
theorem saveState_ordered {d : StepDef} (hd : d ∈ standard) {memory : StepMemory}
    (hstorable : memory.Storable) {state : Json} (h : d.saveState memory = some state) :
    state.Ordered ∧ state ≠ .null := by
  by_cases hsleep : d.function = "sleep"
  · rw [eq_sleep hd hsleep] at h
    simp only [sleep] at h
    split at h
    · cases h
      refine ⟨.obj (show ["deadline"].Pairwise _ by decide) ?_, fun hno => by cases hno⟩
      simp [Json.Ordered]
    · cases h
  · by_cases hparallel : d.function = "parallel"
    · rw [eq_parallel hd hparallel] at h
      cases h
      -- An outcome is written as it is kept, and what can be stored is in key order already.
      have hordered : (Json.ofNumbered Outcome.toJson (outcomesOf memory)).Ordered := by
        refine Document.ordered_ofNumbered fun entry hmem => Outcome.ordered_toJson ?_
        cases memory with
        | empty => cases hmem
        | deadline time => cases hmem
        | results outcomes => exact (hstorable entry hmem).2
      refine ⟨.obj (show ["results"].Pairwise _ by decide) ?_, fun hno => by cases hno⟩
      simp [hordered]
    · rw [(plain_standard hd hsleep hparallel).saveState] at h
      cases h

end Step

end DurableFlow
