/-
Stopping a scope.

To stop a block means to stop the innermost steps in it. What is chosen can be said without the
history: it is the steps that no body thread is nested in, and that are the block's own step or were
called by a thread nested in the block. The threads nested in it that wait for no step are told
directly, and nothing else is touched.

Nobody in the scope is missed. A thread in it is told, or it waits for a step that is to be stopped,
or the step that it waits for has a body thread, which is in the scope as well. Going from caller to
body the numbers of the steps grow, and there are finitely many.
-/
import DurableFlow.Proofs.Cancellation.Alive
import DurableFlow.Proofs.Cancellation.Nesting
import Mathlib.Logic.Relation

set_option autoImplicit false

namespace DurableFlow

open Script History

/-! ## What is in a scope -/

namespace LiveProgram

/-- A thread is in a scope: in a block it has to be nested. -/
def ThreadIn (p : LiveProgram) (scope : Option Nat) (t : Nat) : Prop := ∀ s, scope = some s → p.Nested s t

/-- A step is in a scope: it is the block's own step, or its caller is nested in the block. -/
def StepIn (p : LiveProgram) (scope : Option Nat) (step : LiveStep) : Prop :=
  ∀ s, scope = some s → step.node = s ∨ p.Nested s step.thread

/-- A thread runs a body of the step that another one waits for. -/
def ChildOf (p : LiveProgram) (t u : Nat) : Prop :=
  ∃ n step, Table.find? n p.steps = some step ∧ step.thread = t ∧ Table.contains u step.children = true ∧
    Table.contains u p.threads = true

theorem hasLiveChild_iff {p : LiveProgram} {step : LiveStep} : p.hasLiveChild step = true ↔
    ∃ u, Table.contains u step.children = true ∧ Table.contains u p.threads = true := by
  unfold hasLiveChild
  rw [List.any_eq_true]
  exact exists_congr fun u => and_congr_left fun _ => Table.mem_keys

end LiveProgram

namespace Execution

variable {x : Execution} {origin : Origin} {scope : Option Nat} {cause : Failure} {n t : Nat}
  {step : LiveStep} {thread : Thread}

/-- **An order to stop a scope** reaches what is in it, and nothing else. -/
structure StopsScope (x : Execution) (scope : Option Nat) (cause : Failure) : Prop where
  /-- The targets are the live steps in the scope that have no live child. -/
  targets : ∀ n, n ∈ x.targets scope ↔ ∃ step, Table.find? n x.program.steps = some step ∧
    x.program.StepIn scope step ∧
    ¬ ∃ u, Table.contains u step.children = true ∧ Table.contains u x.program.threads = true
  youngestFirst : (x.targets scope).Pairwise (· > ·)
  /-- For a thread that waits for no step, the tip of its head tells whether it is in the scope. -/
  tips : ∀ t thread, Table.find? t x.program.threads = some thread → thread.step = none →
    (x.isThreadInScope scope thread = true ↔ x.program.ThreadIn scope t)
  /-- The live threads that wait for no step and whose heads end in the scope are told. -/
  told : ∀ t thread, Table.find? t x.program.threads = some thread → thread.isAlive = true →
    thread.step = none → x.isThreadInScope scope thread = true →
    Table.find? t (x.orderStop scope cause).program.threads = some (thread.inject cause)
  /-- The other threads are left alone. -/
  untouched : ∀ t, (∀ thread, Table.find? t x.program.threads = some thread →
      ¬ (thread.isAlive = true ∧ thread.step = none ∧ x.isThreadInScope scope thread = true)) →
    Table.find? t (x.orderStop scope cause).program.threads = Table.find? t x.program.threads
  /-- Nothing is changed but threads, and the targets are noted. -/
  rest : x.orderStop scope cause = { x with
    program := { x.program with threads := (x.orderStop scope cause).program.threads }
    stopping := x.stopping ++ [{ targets := x.targets scope, cause }] }
  /-- Each thread in the scope is told or waits for a target, or one of its descendants does. -/
  complete : ∀ t thread, Table.find? t x.program.threads = some thread → thread.isAlive = true →
    x.program.ThreadIn scope t →
    ∃ u descendant, Relation.ReflTransGen x.program.ChildOf t u ∧
      Table.find? u x.program.threads = some descendant ∧ descendant.isAlive = true ∧
      (descendant.step = none ∧ x.isThreadInScope scope descendant = true ∨
        ∃ n ∈ x.targets scope, descendant.step = some n)

/-! ## The threads that are told -/

theorem find?_orderStop (x : Execution) (scope : Option Nat) (cause : Failure) (t : Nat) :
    Table.find? t (x.orderStop scope cause).program.threads =
      (Table.find? t x.program.threads).map fun thread =>
        if x.isIdleIn scope thread then thread.inject cause else thread := by
  let tell (thread : Thread) : Thread :=
    if x.isIdleIn scope thread then thread.inject cause else thread
  exact Table.find?_mapValues tell t x.program.threads

theorem isIdleIn_iff : x.isIdleIn scope thread = true ↔
    thread.isAlive = true ∧ thread.step = none ∧ x.isThreadInScope scope thread = true := by
  unfold isIdleIn
  simp only [Bool.and_eq_true, Option.isNone_iff_eq_none]
  exact ⟨fun h => ⟨h.1.2, h.1.1, h.2⟩, fun h => ⟨⟨h.2.1, h.1⟩, h.2.2⟩⟩

/-! ## The steps that are chosen -/

/-- A step that is left to end through another one has a live child. -/
theorem Going.isOuter_iff (h : Going x origin none []) (hsound : Sound x none)
    (hstep : Table.find? n x.program.steps = some step) :
    x.isOuter step = true ↔ x.program.hasLiveChild step = true := by
  unfold isOuter
  rw [Bool.or_eq_true]
  refine ⟨fun houter => houter.elim id fun hany => ?_, .inl⟩
  obtain ⟨⟨other, blocks⟩, hmem, hinside⟩ := List.any_eq_true.mp hany
  rw [Bool.and_eq_true, List.contains_iff_mem] at hinside
  obtain ⟨found, hfound, heq⟩ := List.mem_map.mp hmem
  cases heq
  obtain ⟨entry, hentry, rfl⟩ := List.mem_map.mp hfound
  have hother := hsound.stepsSorted.find?_of_mem hentry
  rw [hsound.links.node hstep, hsound.links.node hother] at hinside
  have hnested := (h.mem_blocksAround hother n).mp hinside.2
  -- a branch starts at a node of its own, so the other step is nested in a body of this one
  obtain ⟨u, thread, hthread, hruns⟩ := hnested.child fun u thread m index branch hthread hmem => by
    obtain ⟨completion, hsingle⟩ := hsound.links.single hthread
    rw [hsingle, List.mem_singleton] at hmem
    exact h.branch_apart hstep hthread (hmem ▸ hsingle)
  have hchild := (hsound.links.children hstep u).mpr ⟨thread, hthread, hruns⟩
  exact LiveProgram.hasLiveChild_iff.mpr ⟨u, hchild, by rw [Table.contains, hthread]; rfl⟩

/-- What is asked of a step that is to be stopped. -/
theorem Going.chosen_iff (h : Going x origin none []) (hsound : Sound x none)
    (hstep : Table.find? n x.program.steps = some step) :
    (inScope scope step.node (x.blocksAround step.node) && !x.isOuter step) = true ↔
      x.program.StepIn scope step ∧ x.program.hasLiveChild step = false := by
  rw [Bool.and_eq_true, Bool.not_eq_true', ← Bool.not_eq_true, h.isOuter_iff hsound hstep, Bool.not_eq_true]
  refine and_congr_left fun _ => ?_
  cases scope with
  | none => exact ⟨fun _ _ hno => (by cases hno), fun _ => rfl⟩
  | some s =>
    unfold inScope LiveProgram.StepIn
    rw [Bool.or_eq_true, beq_iff_eq, List.contains_iff_mem, hsound.links.node hstep, h.mem_blocksAround hstep]
    exact ⟨fun hs _ heq => Option.some.inj heq ▸ hs, fun hs => hs s rfl⟩

/-- **The targets** are the steps in the scope that have no live child. -/
theorem Going.mem_targets (h : Going x origin none []) (hsound : Sound x none) :
    n ∈ x.targets scope ↔ ∃ step, Table.find? n x.program.steps = some step ∧
      x.program.StepIn scope step ∧ x.program.hasLiveChild step = false := by
  unfold targets
  rw [List.mem_reverse, List.mem_map]
  constructor
  · rintro ⟨chain, hmem, rfl⟩
    obtain ⟨hchain, hchosen⟩ := List.mem_filter.mp hmem
    obtain ⟨step, hvalue, rfl⟩ := List.mem_map.mp hchain
    obtain ⟨entry, hentry, rfl⟩ := List.mem_map.mp hvalue
    have hstep := hsound.stepsSorted.find?_of_mem hentry
    have hnode := hsound.links.node hstep
    refine ⟨entry.2, ?_, (h.chosen_iff hsound hstep).mp hchosen⟩
    rw [← hnode] at hstep
    exact hstep
  · rintro ⟨step, hstep, hchosen⟩
    -- a chain is kept for each live step, under its node
    have hchain : (step, x.blocksAround step.node) ∈ x.chains :=
      List.mem_map.mpr ⟨step, List.mem_map.mpr ⟨_, Table.mem_of_find? hstep, rfl⟩, rfl⟩
    have hpicked := (h.chosen_iff hsound hstep).mpr hchosen
    exact ⟨_, List.mem_filter.mpr ⟨hchain, hpicked⟩, hsound.links.node hstep⟩

/-- **The youngest step comes first.** -/
theorem targets_descend (hsound : Sound x none) (scope : Option Nat) : (x.targets scope).Pairwise (· > ·) := by
  have hnodes : x.chains.map (fun chain => chain.1.node) = Table.keys x.program.steps := by
    unfold chains Table.values Table.keys
    rw [List.map_map, List.map_map]
    refine List.map_congr_left fun entry hentry => ?_
    exact hsound.links.node (hsound.stepsSorted.find?_of_mem hentry)
  have hkeys : (Table.keys x.program.steps).Pairwise (· < ·) :=
    (Table.sorted_iff_keys.mp hsound.stepsSorted).imp fun hlt => Nat.compare_eq_lt.mp hlt
  unfold targets
  rw [List.pairwise_reverse]
  refine List.Pairwise.sublist (List.Sublist.map _ List.filter_sublist) ?_
  rw [hnodes]
  exact hkeys

/-! ## Nobody is missed -/

theorem threadIn_of_child (h : Sound x none) (hstep : Table.find? n x.program.steps = some step)
    (hin : x.program.StepIn scope step) (hthread : Table.find? t x.program.threads = some thread)
    (hruns : thread.RunsFor n) : x.program.ThreadIn scope t := by
  intro s hs
  rcases hin s hs with hown | hnested
  · rw [h.links.node hstep] at hown
    exact .body hthread (hown ▸ hruns)
  · exact .inner hthread hruns hstep hnested

/-- A thread that is told, or that waits for a step that is to be stopped. -/
def Reached (x : Execution) (scope : Option Nat) (t : Nat) : Prop :=
  ∃ thread, Table.find? t x.program.threads = some thread ∧
    (thread.step = none ∧ x.program.ThreadIn scope t ∨ ∃ n ∈ x.targets scope, thread.step = some n)

/-- **From each step in the scope some thread is reached**, its caller or a descendant of it. -/
theorem Going.reaches (h : Going x origin none []) (hsound : Sound x none)
    (hstep : Table.find? n x.program.steps = some step) (hin : x.program.StepIn scope step) :
    ∃ u, Relation.ReflTransGen x.program.ChildOf step.thread u ∧ x.Reached scope u := by
  -- down the tree the numbers of the steps grow towards the next number
  induction hleft : x.record.nextNodeId - n using Nat.strongRecOn generalizing n step with
  | ind left ih =>
    subst hleft
    cases hchild : x.program.hasLiveChild step with
    | false =>
      obtain ⟨caller, hcaller, hwaits⟩ := hsound.links.caller hstep
      have htarget := (h.mem_targets hsound).mpr ⟨step, hstep, hin, hchild⟩
      exact ⟨_, .refl, caller, hcaller, .inr ⟨n, htarget, hwaits⟩⟩
    | true =>
      obtain ⟨u, hmine, hlive⟩ := LiveProgram.hasLiveChild_iff.mp hchild
      obtain ⟨thread, hthread, hruns⟩ := (hsound.links.children hstep u).mp hmine
      have hnested := threadIn_of_child hsound hstep hin hthread hruns
      have hdown : x.program.ChildOf step.thread u := ⟨n, step, hstep, rfl, hmine, hlive⟩
      cases hwaits : thread.step with
      | none => exact ⟨u, .single hdown, thread, hthread, .inl ⟨hwaits, hnested⟩⟩
      | some m =>
        obtain ⟨inner, hinner, rfl⟩ := hsound.links.waited hthread hwaits
        have hlt : n < m := h.lt_of_nested hinner (.body hthread hruns)
        have hbelow := hsound.stepNumber hinner
        obtain ⟨v, hpath, hreached⟩ :=
          ih _ (by omega) hinner (fun s hs => .inr (hnested s hs)) rfl
        exact ⟨v, .head hdown hpath, hreached⟩

/-- From each thread in the scope some thread is reached. -/
theorem Going.reaches_from (h : Going x origin none []) (hsound : Sound x none)
    (hthread : Table.find? t x.program.threads = some thread) (hin : x.program.ThreadIn scope t) :
    ∃ u, Relation.ReflTransGen x.program.ChildOf t u ∧ x.Reached scope u := by
  cases hwaits : thread.step with
  | none => exact ⟨t, .refl, thread, hthread, .inl ⟨hwaits, hin⟩⟩
  | some n =>
    obtain ⟨step, hstep, rfl⟩ := hsound.links.waited hthread hwaits
    exact h.reaches hsound hstep fun s hs => .inr (hin s hs)

/-! ## Orders -/

/-- **While an execution goes on**, an order to stop a scope reaches what is in it. -/
theorem Going.stopsScope (h : Going x origin none []) (hsound : Sound x none)
    (hlive : ∀ t thread, Table.find? t x.program.threads = some thread → thread.isAlive = true)
    (hscope : ∀ s, scope = some s → x.StartsBlock s) (cause : Failure) : StopsScope x scope cause := by
  -- a thread without a step is in a scope if the tip of its head is
  have htips : ∀ {t thread}, Table.find? t x.program.threads = some thread → thread.step = none →
      (x.isThreadInScope scope thread = true ↔ x.program.ThreadIn scope t) := by
    intro t thread hthread hidle
    cases scope with
    | none => exact ⟨fun _ _ hno => (by cases hno), fun _ => rfl⟩
    | some s =>
      rw [h.isThreadInScope_iff hthread hidle (hscope s rfl)]
      exact ⟨fun hs _ heq => Option.some.inj heq ▸ hs, fun hs => hs s rfl⟩
  constructor
  case targets =>
    intro n
    rw [h.mem_targets hsound]
    simp only [← LiveProgram.hasLiveChild_iff, Bool.not_eq_true]
  case youngestFirst => exact targets_descend hsound scope
  case tips => exact fun t thread hthread hidle => htips hthread hidle
  case told =>
    intro t thread hthread halive hidle hin
    rw [find?_orderStop, hthread, Option.map_some, if_pos (isIdleIn_iff.mpr ⟨halive, hidle, hin⟩)]
  case untouched =>
    intro t hnot
    rw [find?_orderStop]
    cases hthread : Table.find? t x.program.threads with
    | none => rfl
    | some thread => rw [Option.map_some, if_neg (mt isIdleIn_iff.mp (hnot thread hthread))]
  case rest => rfl
  case complete =>
    intro t thread hthread _ hin
    obtain ⟨u, hpath, descendant, hfound, hreached⟩ := h.reaches_from hsound hthread hin
    refine ⟨u, descendant, hpath, hfound, hlive u descendant hfound, ?_⟩
    exact hreached.imp_left fun hidle => ⟨hidle.1, (htips hfound hidle.1).mpr hidle.2⟩

/-- When an execution is over there is nothing to stop. -/
theorem Concluded.stopsScope (h : Concluded x) (scope : Option Nat) (cause : Failure) :
    StopsScope x scope cause := by
  have hnone : x.targets scope = [] := by
    have hsteps : x.program.steps = [] := List.isEmpty_iff.mp (Table.isEmpty_iff.mpr h.steps)
    unfold targets chains
    rw [hsteps]
    rfl
  have hgone : ∀ {t thread} {P : Prop}, Table.find? t x.program.threads = some thread → P := by
    intro t thread P hthread
    rw [h.threads] at hthread
    cases hthread
  constructor
  case targets =>
    intro n
    rw [hnone]
    refine ⟨fun hno => absurd hno List.not_mem_nil, ?_⟩
    rintro ⟨step, hstep, _⟩
    replace hstep : x.program.stepAt n = some step := hstep
    rw [h.steps] at hstep
    cases hstep
  case youngestFirst =>
    rw [hnone]
    exact .nil
  case tips => exact fun t thread hthread => hgone hthread
  case told => exact fun t thread hthread => hgone hthread
  case untouched =>
    intro t _
    rw [find?_orderStop, h.threads, Option.map_none]
  case rest => rfl
  case complete => exact fun t thread hthread => hgone hthread

/-! ## Runs -/

/-- **In every state of every run, stopping a scope reaches exactly what is in it.** -/
theorem stopping_is_scoped {x y : Execution} (hstart : Started x) (hrun : Leads x y) {scope : Option Nat}
    (hscope : ∀ s, scope = some s → y.StartsBlock s) (cause : Failure) : StopsScope y scope cause := by
  have hlive := fun t thread => @isAlive_of_leads x y hstart hrun t thread
  cases hstart.inOrder hrun with
  | going h hsound => exact h.stopsScope hsound hlive hscope cause
  | ended h _ => exact h.stopsScope scope cause

/-- The state after a script was started with the standard steps and events happened. -/
def scriptRun (script : String) (archive : Archive) (events : List Event) : Option Execution :=
  (create { steps := Step.standard } "staged" "1" script {} archive ⟨0⟩ 0).toOption.map fun created =>
    events.foldl happen (Execution.start.after created)

theorem leads_of_scriptRun {script : String} {events : List Event} (houtside : events.all Event.isOutside = true)
    (h : scriptRun script {} events = some x) : ∃ first, Started first ∧ Leads first x := by
  obtain ⟨created, hcreated, rfl⟩ := Option.map_eq_some_iff.mp h
  exact ⟨_, .of_script (eq_ok_of_toOption hcreated), Leads.here.events houtside⟩

theorem startsBlock_of_kind {s : Nat} {body : Bool}
    (h : (x.archive.node s).toOption.map Node.kind = some (.blockStart body)) : x.StartsBlock s := by
  obtain ⟨node, hnode, hkind⟩ := Option.map_eq_some_iff.mp h
  exact ⟨node, body, eq_ok_of_toOption hnode, hkind⟩

/-- A stage with a wait in its block, and a wait behind it. -/
def stageThenWait : String := "stage(\"a\") \x7b wait_for_signal(\"x\") \x7d\nwait_for_signal(\"y\")"

/-- While the wait in the block goes on, it is what is stopped for the stage. -/
theorem stopping_is_scoped_staged :
    ∃ x, scriptRun stageThenWait {} [.work, .run 1, .run 2] = some x ∧ x.targets (some 2) = [3] ∧
      StopsScope x (some 2) { code := "stopped", message := "enough" } := by
  have hrun : (scriptRun stageThenWait {} [.work, .run 1, .run 2]).map (fun x =>
      ((x.archive.node 2).toOption.map Node.kind, x.targets (some 2))) =
        some (some (.blockStart false), [3]) := by decide +kernel
  obtain ⟨x, hx, hsees⟩ := Option.map_eq_some_iff.mp hrun
  obtain ⟨first, hstart, hleads⟩ := leads_of_scriptRun rfl hx
  have hstage : x.StartsBlock 2 := startsBlock_of_kind (congrArg Prod.fst hsees)
  refine ⟨x, hx, congrArg Prod.snd hsees, ?_⟩
  exact stopping_is_scoped hstart hleads (fun s hs => Option.some.inj hs ▸ hstage) _

/-! ## A stage whose end cannot be stored -/

/-- An archive that refuses to store one node. -/
def archiveRefusing (node : Nat) : Archive where
  refuse call :=
    if call = .store node false ∨ call = .store node true then some (.storage "no space left") else none

/-- **When the end of a block cannot be stored**, the history goes on inside the block. A step that was
called behind it by the script itself is stopped for the stage. -/
theorem stopping_goes_beyond_unended_stage :
    ∃ x step, scriptRun stageThenWait (archiveRefusing 4)
        [.work, .run 1, .run 2, .signal "x" (.ok .null), .work, .run 2, .run 1] = some x ∧
      x.StartsBlock 2 ∧ 5 ∈ x.targets (some 2) ∧ Table.find? 5 x.program.steps = some step ∧
      ¬ x.program.StepIn (some 2) step ∧ ∀ cause, ¬ StopsScope x (some 2) cause := by
  let run := scriptRun stageThenWait (archiveRefusing 4)
    [.work, .run 1, .run 2, .signal "x" (.ok .null), .work, .run 2, .run 1]
  have hhistory : run.map (fun x => ((x.archive.node 2).toOption.map Node.kind, x.targets (some 2))) =
      some (some (.blockStart false), [5]) := by decide +kernel
  have hprogram : run.map (fun x =>
      ((Table.find? 5 x.program.steps).map fun step => (step.node, step.thread),
        (Table.find? 1 x.program.threads).map Thread.completions)) =
      some (some (5, 1), some [.root]) := by decide +kernel
  obtain ⟨x, hx, hsees⟩ := Option.map_eq_some_iff.mp hhistory
  rw [hx, Option.map_some, Option.some.injEq, Prod.mk.injEq] at hprogram
  obtain ⟨hkind, htargets⟩ := Prod.mk.inj hsees
  obtain ⟨step, hstep, hcaller⟩ := Option.map_eq_some_iff.mp hprogram.1
  obtain ⟨thread, hthread, hcompletions⟩ := Option.map_eq_some_iff.mp hprogram.2
  rw [Prod.mk.injEq] at hcaller
  -- the thread of the script runs no body, so it is nested in nothing
  have hfree : ∀ s, ¬ x.program.Nested s 1 := by
    intro s hnested
    cases hnested with
    | body hfound hruns | inner hfound hruns _ _ =>
      obtain ⟨index, branch, hmem⟩ := hruns
      rw [hthread] at hfound
      cases hfound
      rw [hcompletions, List.mem_singleton] at hmem
      cases hmem
    | branch hfound hmem _ =>
      rw [hthread] at hfound
      cases hfound
      rw [hcompletions, List.mem_singleton] at hmem
      cases hmem
  have hbeyond : ¬ x.program.StepIn (some 2) step := by
    intro hin
    rcases hin 2 rfl with hown | hnested
    · rw [hcaller.1] at hown
      cases hown
    · rw [hcaller.2] at hnested
      exact hfree 2 hnested
  have htarget : 5 ∈ x.targets (some 2) := by
    rw [htargets]
    exact List.mem_singleton_self 5
  refine ⟨x, step, hx, startsBlock_of_kind hkind, htarget, hstep, hbeyond, fun cause hstops => ?_⟩
  obtain ⟨found, hfound, hin, _⟩ := (hstops.targets 5).mp htarget
  rw [hstep] at hfound
  cases hfound
  exact hbeyond hin

end Execution

end DurableFlow
