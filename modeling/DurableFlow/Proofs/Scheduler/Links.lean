/-
How threads and steps hang together.

A thread that waits names a step, and the step names the thread. A step knows the
threads that run its bodies, and each of these threads knows what it runs for. The
two directions are kept in different maps, and every operation of the scheduler has
to change both. Here the maps are functions, so that a thread that was taken out to
run can be seen where it was, and each operation is told by what is found
afterwards.
-/
import DurableFlow.Proofs.Data.Table
import DurableFlow.Program.Live

set_option autoImplicit false

namespace DurableFlow

/-- A map that was changed in one place. -/
def changed {α : Type} (entries : Nat → Option α) (k : Nat) (value : Option α) :
    Nat → Option α := fun n => if n = k then value else entries n

theorem changed_self {α : Type} (entries : Nat → Option α) (k : Nat) (value : Option α) :
    changed entries k value k = value := if_pos rfl

theorem changed_of_ne {α : Type} (entries : Nat → Option α) {k n : Nat} (value : Option α)
    (h : n ≠ k) : changed entries k value n = entries n := if_neg h

theorem changed_changed {α : Type} (entries : Nat → Option α) (k : Nat) (first second : Option α) :
    changed (changed entries k first) k second = changed entries k second := by
  funext n
  unfold changed
  split <;> rfl

theorem changed_comm {α : Type} (entries : Nat → Option α) {k l : Nat} (hne : k ≠ l)
    (first second : Option α) :
    changed (changed entries k first) l second = changed (changed entries l second) k first := by
  funext n
  unfold changed
  by_cases hk : n = k
  · have hl : n ≠ l := fun heq => hne (hk.symm.trans heq)
    rw [if_neg hl, if_pos hk, if_pos hk]
  · rw [if_neg hk, if_neg hk]

/-- Putting in what is there changes nothing. -/
theorem changed_eq_self {α : Type} {entries : Nat → Option α} {k : Nat} {value : Option α}
    (h : entries k = value) : changed entries k value = entries := by
  funext n
  unfold changed
  split
  · next hn => rw [hn, h]
  · rfl

/-- What is found after a change is the new value or was there before. -/
theorem changed_eq_some {α : Type} {entries : Nat → Option α} {k n : Nat} {value : Option α}
    {a : α} : changed entries k value n = some a ↔
      n = k ∧ value = some a ∨ n ≠ k ∧ entries n = some a := by
  unfold changed
  by_cases h : n = k
  · rw [if_pos h]
    exact ⟨fun ha => .inl ⟨h, ha⟩, fun ha => ha.elim And.right fun hne => absurd h hne.1⟩
  · rw [if_neg h]
    exact ⟨fun ha => .inr ⟨h, ha⟩, fun ha => ha.elim (fun he => absurd he.1 h) And.right⟩

/-- What holds of all that was there, and of what is put in, holds of all that is found. -/
@[elab_as_elim]
theorem changed_elim {α : Type} {P : Nat → α → Prop} {entries : Nat → Option α} {k n : Nat}
    {value a : α} (h : changed entries k (some value) n = some a) (hvalue : P k value)
    (hentries : ∀ {m b}, entries m = some b → P m b) : P n a := by
  rcases changed_eq_some.mp h with ⟨rfl, heq⟩ | ⟨_, hold⟩
  · cases heq
    exact hvalue
  · exact hentries hold

/-- What is found after something was taken out was there before, in another place. -/
theorem changed_none_eq_some {α : Type} {entries : Nat → Option α} {k n : Nat} {a : α} :
    changed entries k none n = some a ↔ n ≠ k ∧ entries n = some a :=
  changed_eq_some.trans ⟨fun h => h.resolve_left fun hno => (by cases hno.2), .inr⟩

/-- What is found in a map with one entry. -/
theorem changed_only {α : Type} {k n : Nat} {a b : α}
    (h : changed (fun _ => none) k (some a) n = some b) : n = k ∧ b = a := by
  rcases changed_eq_some.mp h with ⟨hn, heq⟩ | ⟨_, hno⟩
  · exact ⟨hn, (Option.some.inj heq).symm⟩
  · cases hno

/-- What is there is not in a place where nothing is. -/
theorem ne_of_free {α : Type} {entries : Nat → Option α} {k n : Nat} {a : α}
    (hfree : entries k = none) (h : entries n = some a) : n ≠ k := by
  rintro rfl
  rw [hfree] at h
  cases h

/-- A change from one value to another leaves the places that hold something as they are. -/
theorem isSome_changed {α : Type} {entries : Nat → Option α} {k : Nat} {a : α}
    (h : entries k = some a) (b : α) (n : Nat) :
    (changed entries k (some b) n).isSome = (entries n).isSome := by
  by_cases hn : n = k
  · rw [hn, changed_self, h]
    rfl
  · rw [changed_of_ne _ _ hn]

/-- What is there stays when something new comes to a free place. -/
theorem changed_of_free {α : Type} {entries : Nat → Option α} {k n : Nat} {a : α}
    (hfree : entries k = none) (value : Option α) (h : entries n = some a) :
    changed entries k value n = some a :=
  (changed_of_ne _ _ (ne_of_free hfree h)).trans h

/-- A thread runs a body of a step. -/
def Thread.RunsFor (thread : Thread) (node : Nat) : Prop :=
  ∃ index branch, .body node index branch ∈ thread.completions

/-- A thread whose end is the end of the script. -/
def Thread.IsRoot (thread : Thread) : Prop := .root ∈ thread.completions

/-- A thread takes the place of another one. -/
structure Thread.Like (thread other : Thread) : Prop where
  id : thread.id = other.id
  step : thread.step = other.step
  completions : thread.completions = other.completions

/-- A step takes the place of another one. -/
structure LiveStep.Like (step other : LiveStep) : Prop where
  node : step.node = other.node
  thread : step.thread = other.thread
  closure : step.closure = other.closure
  children : step.children = other.children

theorem Thread.Like.refl (thread : Thread) : thread.Like thread := ⟨rfl, rfl, rfl⟩

theorem LiveStep.Like.refl (step : LiveStep) : step.Like step := ⟨rfl, rfl, rfl, rfl⟩

theorem Thread.Like.runsFor {thread other : Thread} (h : thread.Like other) (node : Nat) :
    thread.RunsFor node ↔ other.RunsFor node := by
  unfold Thread.RunsFor
  rw [h.completions]

theorem Thread.Like.isRoot {thread other : Thread} (h : thread.Like other) :
    thread.IsRoot ↔ other.IsRoot := by
  unfold Thread.IsRoot
  rw [h.completions]

/-- Each thread has one that takes its place, and no other is there. -/
structure Alike (threads threads' : Nat → Option Thread) : Prop where
  new : ∀ {t thread}, threads t = some thread → ∃ new, threads' t = some new ∧ new.Like thread
  old : ∀ {t thread}, threads' t = some thread → ∃ old, threads t = some old ∧ thread.Like old

namespace Alike

variable {threads : Nat → Option Thread}

theorem refl (threads : Nat → Option Thread) : Alike threads threads :=
  ⟨fun {_ thread} h => ⟨thread, h, .refl thread⟩, fun {_ thread} h => ⟨thread, h, .refl thread⟩⟩

/-- One thread takes the place of another one. -/
theorem changed {t : Nat} {thread thread' : Thread} (hthread : threads t = some thread)
    (hlike : thread'.Like thread) : Alike threads (changed threads t (some thread')) where
  new := by
    intro u old hold
    by_cases hu : u = t
    · subst hu
      rw [hthread] at hold
      cases hold
      exact ⟨thread', changed_self _ _ _, hlike⟩
    · exact ⟨old, (changed_of_ne _ _ hu).trans hold, .refl old⟩
  old := by
    intro u new hnew
    exact changed_elim hnew ⟨thread, hthread, hlike⟩ fun hold => ⟨_, hold, .refl _⟩

/-- Every thread is changed a little. -/
theorem map {f : Nat → Thread → Thread} (hf : ∀ t thread, (f t thread).Like thread) :
    Alike threads fun t => (threads t).map (f t) where
  new := by
    intro t thread hthread
    exact ⟨f t thread, by simp [hthread], hf t thread⟩
  old := by
    intro t thread hthread
    obtain ⟨old, hold, rfl⟩ := Option.map_eq_some_iff.mp hthread
    exact ⟨old, hold, hf t old⟩

end Alike

/-- **Threads and steps that hang together.** -/
structure Links (threads : Nat → Option Thread) (steps : Nat → Option LiveStep) : Prop where
  id : ∀ {t thread}, threads t = some thread → thread.id = t
  node : ∀ {n step}, steps n = some step → step.node = n
  /-- A step that a thread waits for is live and names the thread. -/
  waited : ∀ {t thread n}, threads t = some thread → thread.step = some n →
    ∃ step, steps n = some step ∧ step.thread = t
  /-- The thread of a live step is live and waits for it. -/
  caller : ∀ {n step}, steps n = some step →
    ∃ thread, threads step.thread = some thread ∧ thread.step = some n
  single : ∀ {t thread}, threads t = some thread → ∃ completion, thread.completions = [completion]
  sorted : ∀ {n step}, steps n = some step → Table.Sorted step.children
  /-- The children of a live step are the threads that run its bodies. -/
  children : ∀ {n step}, steps n = some step → ∀ t,
    (Table.find? t step.children).isSome = true ↔
      ∃ thread, threads t = some thread ∧ thread.RunsFor n

namespace Links

variable {threads : Nat → Option Thread} {steps : Nat → Option LiveStep}

/-- A thread that waits for nothing has called no live step. -/
theorem thread_ne_of_idle (h : Links threads steps) {t n : Nat} {thread : Thread} {step : LiveStep}
    (hthread : threads t = some thread) (hidle : thread.step = none) (hstep : steps n = some step) :
    step.thread ≠ t := by
  rintro rfl
  obtain ⟨caller, hcaller, hwaits⟩ := h.caller hstep
  rw [hthread] at hcaller
  cases hcaller
  rw [hidle] at hwaits
  cases hwaits

/-- A thread waits for one step only. -/
theorem eq_of_thread (h : Links threads steps) {m n : Nat} {first second : LiveStep}
    (hm : steps m = some first) (hn : steps n = some second) (heq : first.thread = second.thread) :
    m = n := by
  obtain ⟨thread, hthread, hwaits⟩ := h.caller hm
  obtain ⟨other, hother, hwaits'⟩ := h.caller hn
  rw [heq, hother] at hthread
  cases hthread
  exact Option.some.inj (hwaits.symm.trans hwaits')

/-- Steps change in what the links do not mention. -/
theorem map_steps (h : Links threads steps) {f : Nat → LiveStep → LiveStep}
    (hf : ∀ n step, steps n = some step → (f n step).Like step) :
    Links threads fun n => (steps n).map (f n) where
  id := h.id
  node := by
    intro n step hstep
    obtain ⟨old, hold, rfl⟩ := Option.map_eq_some_iff.mp hstep
    rw [(hf n old hold).node]
    exact h.node hold
  waited := by
    intro t thread n hthread hwaits
    obtain ⟨step, hstep, hname⟩ := h.waited hthread hwaits
    exact ⟨f n step, by simp [hstep], (hf n step hstep).thread.trans hname⟩
  caller := by
    intro n step hstep
    obtain ⟨old, hold, rfl⟩ := Option.map_eq_some_iff.mp hstep
    rw [(hf n old hold).thread]
    exact h.caller hold
  single := h.single
  sorted := by
    intro n step hstep
    obtain ⟨old, hold, rfl⟩ := Option.map_eq_some_iff.mp hstep
    rw [(hf n old hold).children]
    exact h.sorted hold
  children := by
    intro n step hstep
    obtain ⟨old, hold, rfl⟩ := Option.map_eq_some_iff.mp hstep
    rw [(hf n old hold).children]
    exact h.children hold

/-- Threads change in what the links do not mention. -/
theorem alike (h : Links threads steps) {threads' : Nat → Option Thread}
    (halike : Alike threads threads') : Links threads' steps where
  id := by
    intro t thread hthread
    obtain ⟨old, hold, hlike⟩ := halike.old hthread
    rw [hlike.id]
    exact h.id hold
  node := h.node
  waited := by
    intro t thread n hthread hwaits
    obtain ⟨old, hold, hlike⟩ := halike.old hthread
    rw [hlike.step] at hwaits
    exact h.waited hold hwaits
  caller := by
    intro n step hstep
    obtain ⟨thread, hthread, hwaits⟩ := h.caller hstep
    obtain ⟨new, hnew, hlike⟩ := halike.new hthread
    exact ⟨new, hnew, hlike.step.trans hwaits⟩
  single := by
    intro t thread hthread
    obtain ⟨old, hold, hlike⟩ := halike.old hthread
    rw [hlike.completions]
    exact h.single hold
  sorted := h.sorted
  children := by
    intro n step hstep t
    rw [h.children hstep t]
    constructor
    · rintro ⟨thread, hthread, hruns⟩
      obtain ⟨new, hnew, hlike⟩ := halike.new hthread
      exact ⟨new, hnew, (hlike.runsFor n).mpr hruns⟩
    · rintro ⟨thread, hthread, hruns⟩
      obtain ⟨old, hold, hlike⟩ := halike.old hthread
      exact ⟨old, hold, (hlike.runsFor n).mp hruns⟩

/-- **A body gets a thread**, and its step a child. -/
theorem spawn (h : Links threads steps) {n index : Nat} {step : LiveStep} {thread : Thread}
    {branch : Option Branch} (hstep : steps n = some step) (hfree : threads thread.id = none)
    (hidle : thread.step = none) (hruns : thread.completions = [.body n index branch]) :
    Links (changed threads thread.id (some thread))
      (changed steps n
        (some { step with children := Table.insert thread.id () step.children })) where
  id := by
    intro t other hother
    exact changed_elim hother rfl h.id
  node := by
    intro m other hother
    rcases changed_eq_some.mp hother with ⟨rfl, heq⟩ | ⟨_, hold⟩
    · cases heq
      have hnode : step.node = m := h.node hstep
      exact hnode
    · exact h.node hold
  waited := by
    intro t other m hother hwaits
    rcases changed_eq_some.mp hother with ⟨rfl, heq⟩ | ⟨_, hold⟩
    · cases heq
      rw [hidle] at hwaits
      cases hwaits
    · obtain ⟨waited, hwaited, hname⟩ := h.waited hold hwaits
      by_cases hm : m = n
      · subst hm
        rw [hstep] at hwaited
        cases hwaited
        exact ⟨_, changed_self _ _ _, hname⟩
      · exact ⟨waited, (changed_of_ne _ _ hm).trans hwaited, hname⟩
  caller := by
    intro m other hother
    have hcaller : ∀ old : LiveStep, steps m = some old →
        ∃ caller, changed threads thread.id (some thread) old.thread = some caller ∧
          caller.step = some m := by
      intro old hold
      obtain ⟨caller, hcaller, hwaits⟩ := h.caller hold
      exact ⟨caller, changed_of_free hfree _ hcaller, hwaits⟩
    rcases changed_eq_some.mp hother with ⟨rfl, heq⟩ | ⟨_, hold⟩
    · cases heq
      exact hcaller step hstep
    · exact hcaller other hold
  single := by
    intro t other hother
    exact changed_elim hother ⟨_, hruns⟩ h.single
  sorted := by
    intro m other hother
    exact changed_elim hother ((h.sorted hstep).insert _ _) h.sorted
  children := by
    intro m other hother t
    rcases changed_eq_some.mp hother with ⟨rfl, heq⟩ | ⟨hm, hold⟩
    · cases heq
      rw [Table.find?_insert]
      by_cases ht : t = thread.id
      · rw [if_pos ht, ht]
        exact ⟨fun _ => ⟨thread, changed_self _ _ _, index, branch, by simp [hruns]⟩, fun _ => rfl⟩
      · rw [if_neg ht, h.children hstep t, changed_of_ne _ _ ht]
    · rw [h.children hold t]
      by_cases ht : t = thread.id
      · -- the new thread runs for another step
        rw [ht, changed_self, hfree]
        refine ⟨fun ⟨_, hnone, _⟩ => (by cases hnone), fun ⟨child, hchild, i, b, hmem⟩ => ?_⟩
        cases hchild
        rw [hruns, List.mem_singleton] at hmem
        cases hmem
        exact absurd rfl hm
      · rw [changed_of_ne _ _ ht]

/-- The first thread of a script. -/
theorem ofRoot {thread : Thread} (hidle : thread.step = none)
    (hroot : thread.completions = [.root]) :
    Links (changed (fun _ => none) thread.id (some thread)) (fun _ => none) where
  id := by
    intro t other hother
    obtain ⟨rfl, rfl⟩ := changed_only hother
    rfl
  node := fun hnone => by cases hnone
  waited := by
    intro t other n hother hwaits
    obtain ⟨_, rfl⟩ := changed_only hother
    rw [hidle] at hwaits
    cases hwaits
  caller := fun hnone => by cases hnone
  single := by
    intro t other hother
    obtain ⟨_, rfl⟩ := changed_only hother
    exact ⟨_, hroot⟩
  sorted := fun hnone => by cases hnone
  children := fun hnone => by cases hnone

/-- **A thread ends**, and the step that it ran for loses a child. -/
theorem retire (h : Links threads steps) {t : Nat} {thread : Thread} {gone : Nat → Bool}
    (hthread : threads t = some thread) (hidle : thread.step = none)
    (hgone : ∀ n, gone n = true ↔ thread.RunsFor n) :
    Links (changed threads t none) (fun n => (steps n).map fun step =>
      if gone n then { step with children := Table.erase t step.children } else step) where
  id := by
    intro u other hother
    exact h.id (changed_none_eq_some.mp hother).2
  node := by
    intro n step hstep
    obtain ⟨old, hold, rfl⟩ := Option.map_eq_some_iff.mp hstep
    have hnode := h.node hold
    split <;> exact hnode
  waited := by
    intro u other n hother hwaits
    obtain ⟨_, hold⟩ := changed_none_eq_some.mp hother
    obtain ⟨step, hstep, hname⟩ := h.waited hold hwaits
    refine ⟨_, Option.map_eq_some_iff.mpr ⟨step, hstep, rfl⟩, ?_⟩
    split <;> exact hname
  caller := by
    intro n step hstep
    obtain ⟨old, hold, rfl⟩ := Option.map_eq_some_iff.mp hstep
    obtain ⟨caller, hcaller, hwaits⟩ := h.caller hold
    have hne := h.thread_ne_of_idle hthread hidle hold
    refine ⟨caller, ?_, hwaits⟩
    split <;> exact (changed_of_ne _ _ hne).trans hcaller
  single := by
    intro u other hother
    exact h.single (changed_none_eq_some.mp hother).2
  sorted := by
    intro n step hstep
    obtain ⟨old, hold, rfl⟩ := Option.map_eq_some_iff.mp hstep
    split
    · exact (h.sorted hold).erase _
    · exact h.sorted hold
  children := by
    intro n step hstep u
    obtain ⟨old, hold, rfl⟩ := Option.map_eq_some_iff.mp hstep
    -- the thread is taken from the children of exactly the steps that it ran for
    have hchildren := h.children hold u
    by_cases hu : u = t
    · subst hu
      rw [changed_self]
      refine ⟨fun hsome => ?_, fun ⟨_, hnone, _⟩ => (by cases hnone)⟩
      split at hsome
      · rw [Table.find?_erase (h.sorted hold), if_pos rfl] at hsome
        cases hsome
      · next hn =>
        obtain ⟨child, hchild, hruns⟩ := hchildren.mp hsome
        rw [hthread] at hchild
        cases hchild
        exact absurd ((hgone n).mpr hruns) hn
    · rw [changed_of_ne _ _ hu, ← hchildren]
      split
      · rw [Table.find?_erase (h.sorted hold), if_neg hu]
      · rfl

/-- **A thread starts a step** under a number that nothing refers to. -/
theorem start (h : Links threads steps) {t n : Nat} {thread waiting : Thread} {step : LiveStep}
    (hthread : threads t = some thread) (hidle : thread.step = none) (hfree : steps n = none)
    (hfresh : ∀ u other, threads u = some other → ¬ other.RunsFor n)
    (hid : waiting.id = thread.id) (hwaiting : waiting.step = some n)
    (hcompletions : waiting.completions = thread.completions) (hnode : step.node = n)
    (hcaller : step.thread = t) (hchildren : step.children = []) :
    Links (changed threads t (some waiting)) (changed steps n (some step)) where
  id := by
    intro u other hother
    exact changed_elim hother (hid.trans (h.id hthread)) h.id
  node := by
    intro m other hother
    exact changed_elim hother hnode h.node
  waited := by
    intro u other m hother hwaits
    rcases changed_eq_some.mp hother with ⟨rfl, heq⟩ | ⟨_, hold⟩
    · cases heq
      rw [hwaiting] at hwaits
      cases hwaits
      exact ⟨step, changed_self _ _ _, hcaller⟩
    · obtain ⟨waited, hwaited, hname⟩ := h.waited hold hwaits
      exact ⟨waited, changed_of_free hfree _ hwaited, hname⟩
  caller := by
    intro m other hother
    rcases changed_eq_some.mp hother with ⟨rfl, heq⟩ | ⟨_, hold⟩
    · cases heq
      rw [hcaller]
      exact ⟨waiting, changed_self _ _ _, hwaiting⟩
    · obtain ⟨caller, hcaller', hwaits⟩ := h.caller hold
      have hne := h.thread_ne_of_idle hthread hidle hold
      exact ⟨caller, (changed_of_ne _ _ hne).trans hcaller', hwaits⟩
  single := by
    intro u other hother
    refine changed_elim hother ?_ h.single
    rw [hcompletions]
    exact h.single hthread
  sorted := by
    intro m other hother
    refine changed_elim hother ?_ h.sorted
    rw [hchildren]
    exact .nil
  children := by
    intro m other hother u
    -- to wait is not to run for another step: the children are those of before
    have hruns : (∃ child, changed threads t (some waiting) u = some child ∧ child.RunsFor m) ↔
        ∃ child, threads u = some child ∧ child.RunsFor m := by
      by_cases hu : u = t
      · subst hu
        rw [changed_self, hthread]
        simp only [Option.some.injEq, exists_eq_left', Thread.RunsFor, hcompletions]
      · rw [changed_of_ne _ _ hu]
    rw [hruns]
    rcases changed_eq_some.mp hother with ⟨rfl, heq⟩ | ⟨_, hold⟩
    · cases heq
      rw [hchildren]
      refine ⟨fun hsome => (by cases hsome), fun ⟨child, hchild, hrun⟩ => ?_⟩
      exact absurd hrun (hfresh u child hchild)
    · exact h.children hold u

/-- **A step ends**, and its thread waits no longer. -/
theorem finish (h : Links threads steps) {n : Nat} {step : LiveStep} {thread free : Thread}
    (hstep : steps n = some step) (hthread : threads step.thread = some thread)
    (hid : free.id = thread.id) (hfree : free.step = none)
    (hcompletions : free.completions = thread.completions) :
    Links (changed threads step.thread (some free)) (changed steps n none) where
  id := by
    intro u other hother
    exact changed_elim hother (hid.trans (h.id hthread)) h.id
  node := by
    intro m other hother
    exact h.node (changed_none_eq_some.mp hother).2
  waited := by
    intro u other m hother hwaits
    rcases changed_eq_some.mp hother with ⟨_, heq⟩ | ⟨hu, hold⟩
    · cases heq
      rw [hfree] at hwaits
      cases hwaits
    · obtain ⟨waited, hwaited, hname⟩ := h.waited hold hwaits
      -- a step is waited for by its own thread only, so another thread waits for another step
      have hne : m ≠ n := by
        rintro rfl
        rw [hstep] at hwaited
        cases hwaited
        exact hu hname.symm
      exact ⟨waited, (changed_of_ne _ _ hne).trans hwaited, hname⟩
  caller := by
    intro m other hother
    obtain ⟨hm, hold⟩ := changed_none_eq_some.mp hother
    obtain ⟨caller, hcaller, hwaits⟩ := h.caller hold
    have hne : other.thread ≠ step.thread := fun heq => hm (h.eq_of_thread hold hstep heq)
    exact ⟨caller, (changed_of_ne _ _ hne).trans hcaller, hwaits⟩
  single := by
    intro u other hother
    refine changed_elim hother ?_ h.single
    rw [hcompletions]
    exact h.single hthread
  sorted := by
    intro m other hother
    exact h.sorted (changed_none_eq_some.mp hother).2
  children := by
    intro m other hother u
    rw [h.children (changed_none_eq_some.mp hother).2 u]
    by_cases hu : u = step.thread
    · rw [hu, changed_self, hthread]
      simp only [Option.some.injEq, exists_eq_left', Thread.RunsFor, hcompletions]
    · rw [changed_of_ne _ _ hu]

end Links

/-! ## Exported blocks -/

/-- **The exported blocks are those of the live steps**, each of one step. -/
structure Exports (steps : Nat → Option LiveStep) (exported : Nat → Bool) (next : Nat) : Prop where
  mem : ∀ handle, exported handle = true ↔
    ∃ n step, steps n = some step ∧ step.closure = some handle
  owner : ∀ {m n a b handle}, steps m = some a → steps n = some b →
    a.closure = some handle → b.closure = some handle → m = n
  below : ∀ {n step handle}, steps n = some step → step.closure = some handle → handle < next

namespace Exports

variable {steps : Nat → Option LiveStep} {exported : Nat → Bool} {next : Nat}

theorem map_steps (h : Exports steps exported next) {f : Nat → LiveStep → LiveStep}
    (hf : ∀ n step, steps n = some step → (f n step).closure = step.closure) :
    Exports (fun n => (steps n).map (f n)) exported next where
  mem := by
    intro handle
    rw [h.mem handle]
    constructor
    · rintro ⟨n, step, hstep, hclosure⟩
      exact ⟨n, f n step, by simp [hstep], (hf n step hstep).trans hclosure⟩
    · rintro ⟨n, step, hstep, hclosure⟩
      obtain ⟨old, hold, rfl⟩ := Option.map_eq_some_iff.mp hstep
      exact ⟨n, old, hold, (hf n old hold).symm.trans hclosure⟩
  owner := by
    intro m n a b handle ha hb hca hcb
    obtain ⟨olda, hma, rfl⟩ := Option.map_eq_some_iff.mp ha
    obtain ⟨oldb, hmb, rfl⟩ := Option.map_eq_some_iff.mp hb
    rw [hf m olda hma] at hca
    rw [hf n oldb hmb] at hcb
    exact h.owner hma hmb hca hcb
  below := by
    intro n step handle hstep hclosure
    obtain ⟨old, hold, rfl⟩ := Option.map_eq_some_iff.mp hstep
    rw [hf n old hold] at hclosure
    exact h.below hold hclosure

/-- Numbers may be left out. -/
theorem skip (h : Exports steps exported next) {next' : Nat} (hle : next ≤ next') :
    Exports steps exported next' :=
  ⟨h.mem, h.owner, fun hstep hclosure => Nat.lt_of_lt_of_le (h.below hstep hclosure) hle⟩

/-- A step without a block. -/
theorem start (h : Exports steps exported next) {n : Nat} {step : LiveStep}
    (hfree : steps n = none) (hclosure : step.closure = none) :
    Exports (changed steps n (some step)) exported next where
  mem := by
    intro handle
    rw [h.mem handle]
    constructor
    · rintro ⟨m, old, hold, hc⟩
      exact ⟨m, old, changed_of_free hfree _ hold, hc⟩
    · rintro ⟨m, other, hother, hc⟩
      rcases changed_eq_some.mp hother with ⟨_, heq⟩ | ⟨_, hold⟩
      · cases heq
        rw [hclosure] at hc
        cases hc
      · exact ⟨m, other, hold, hc⟩
  owner := by
    intro m l a b handle ha hb hca hcb
    rcases changed_eq_some.mp ha with ⟨_, heq⟩ | ⟨_, ha⟩
    · cases heq
      rw [hclosure] at hca
      cases hca
    rcases changed_eq_some.mp hb with ⟨_, heq⟩ | ⟨_, hb⟩
    · cases heq
      rw [hclosure] at hcb
      cases hcb
    exact h.owner ha hb hca hcb
  below := by
    intro m other handle hother hc
    rcases changed_eq_some.mp hother with ⟨_, heq⟩ | ⟨_, hold⟩
    · cases heq
      rw [hclosure] at hc
      cases hc
    · exact h.below hold hc

/-- A step with a block, which gets the next number. -/
theorem startWith (h : Exports steps exported next) {n : Nat} {step : LiveStep}
    (hfree : steps n = none) (hclosure : step.closure = some next) :
    Exports (changed steps n (some step)) (fun handle => handle == next || exported handle)
      (next + 1) where
  mem := by
    intro handle
    simp only [Bool.or_eq_true, beq_iff_eq]
    constructor
    · rintro (rfl | hold)
      · exact ⟨n, step, changed_self _ _ _, hclosure⟩
      · obtain ⟨m, old, hm, hc⟩ := (h.mem handle).mp hold
        exact ⟨m, old, changed_of_free hfree _ hm, hc⟩
    · rintro ⟨m, other, hother, hc⟩
      rcases changed_eq_some.mp hother with ⟨_, heq⟩ | ⟨_, hold⟩
      · cases heq
        rw [hclosure] at hc
        cases hc
        exact .inl rfl
      · exact .inr ((h.mem handle).mpr ⟨m, other, hold, hc⟩)
  owner := by
    intro m l a b handle ha hb hca hcb
    rcases changed_eq_some.mp ha with ⟨hm, heqa⟩ | ⟨_, hma⟩ <;>
    rcases changed_eq_some.mp hb with ⟨hl, heqb⟩ | ⟨_, hmb⟩
    · exact hm.trans hl.symm
    · -- the next number is above all that are in use
      cases heqa
      have hlt := h.below hmb hcb
      rw [hclosure] at hca
      cases hca
      exact absurd hlt (Nat.lt_irrefl _)
    · cases heqb
      have hlt := h.below hma hca
      rw [hclosure] at hcb
      cases hcb
      exact absurd hlt (Nat.lt_irrefl _)
    · exact h.owner hma hmb hca hcb
  below := by
    intro m other handle hother hc
    rcases changed_eq_some.mp hother with ⟨_, heq⟩ | ⟨_, hold⟩
    · cases heq
      rw [hclosure] at hc
      cases hc
      exact Nat.lt_succ_self _
    · exact Nat.lt_succ_of_lt (h.below hold hc)

/-- A step that ends takes its block with it. -/
theorem finish (h : Exports steps exported next) {n : Nat} {step : LiveStep}
    (hstep : steps n = some step) :
    Exports (changed steps n none) (fun handle => exported handle && step.closure != some handle)
      next where
  mem := by
    intro handle
    simp only [Bool.and_eq_true, bne_iff_ne]
    constructor
    · rintro ⟨hexported, hother⟩
      obtain ⟨m, old, hold, hc⟩ := (h.mem handle).mp hexported
      have hne : m ≠ n := by
        rintro rfl
        rw [hstep] at hold
        cases hold
        exact hother hc
      exact ⟨m, old, (changed_of_ne _ _ hne).trans hold, hc⟩
    · rintro ⟨m, other, hother, hc⟩
      obtain ⟨hm, hold⟩ := changed_none_eq_some.mp hother
      exact ⟨(h.mem handle).mpr ⟨m, other, hold, hc⟩,
        fun hsame => hm (h.owner hold hstep hc hsame)⟩
  owner := by
    intro m l a b handle ha hb
    exact h.owner (changed_none_eq_some.mp ha).2 (changed_none_eq_some.mp hb).2
  below := by
    intro m other handle hother
    exact h.below (changed_none_eq_some.mp hother).2

end Exports

/-! ## The root -/

/-- A thread whose end is the end of the script has a number. -/
def RootAt (threads : Nat → Option Thread) (t : Nat) : Prop :=
  ∃ thread, threads t = some thread ∧ thread.IsRoot

/-- **The script has one thread or an outcome**, as long as it is not finished. -/
structure Rooted (threads : Nat → Option Thread) (outcome : Option Script.Outcome)
    (finished : Bool) : Prop where
  live : finished = false → ((∃ t, RootAt threads t) ↔ outcome = none)
  one : ∀ {t u}, RootAt threads t → RootAt threads u → t = u

namespace Rooted

variable {threads threads' : Nat → Option Thread} {outcome : Option Script.Outcome}
  {finished : Bool}

theorem congr (h : Rooted threads outcome finished)
    (hsame : ∀ t, RootAt threads' t ↔ RootAt threads t) : Rooted threads' outcome finished where
  live hf := by
    rw [← h.live hf]
    exact exists_congr hsame
  one ht hu := h.one ((hsame _).mp ht) ((hsame _).mp hu)

/-- Threads that take the place of others are the root or not, as those were. -/
theorem alike (h : Rooted threads outcome finished) (halike : Alike threads threads') :
    Rooted threads' outcome finished := by
  refine h.congr fun t => ⟨fun ⟨thread, hthread, hroot⟩ => ?_, fun ⟨thread, hthread, hroot⟩ => ?_⟩
  · obtain ⟨old, hold, hlike⟩ := halike.old hthread
    exact ⟨old, hold, hlike.isRoot.mp hroot⟩
  · obtain ⟨new, hnew, hlike⟩ := halike.new hthread
    exact ⟨new, hnew, hlike.isRoot.mpr hroot⟩

/-- A thread that changes stays the root or not. -/
theorem changed_like (h : Rooted threads outcome finished) {t : Nat} {thread thread' : Thread}
    (hthread : threads t = some thread) (hlike : thread'.completions = thread.completions) :
    Rooted (changed threads t (some thread')) outcome finished := by
  refine h.congr fun u => ?_
  unfold RootAt
  by_cases hu : u = t
  · rw [hu, changed_self, hthread]
    simp only [Option.some.injEq, exists_eq_left', Thread.IsRoot, hlike]
  · rw [changed_of_ne _ _ hu]

/-- A thread that comes or goes is not the root. -/
theorem changed_other (h : Rooted threads outcome finished) {t : Nat} {value : Option Thread}
    (hold : ¬ RootAt threads t) (hnew : ∀ thread, value = some thread → ¬ thread.IsRoot) :
    Rooted (changed threads t value) outcome finished := by
  refine h.congr fun u => ?_
  by_cases hu : u = t
  · subst hu
    refine ⟨fun ⟨thread, hthread, hroot⟩ => ?_, fun hroot => absurd hroot hold⟩
    rw [changed_self] at hthread
    exact absurd hroot (hnew thread hthread)
  · unfold RootAt
    rw [changed_of_ne _ _ hu]

/-- The root ends with an outcome. -/
theorem ended (h : Rooted threads outcome finished) {t : Nat} (hroot : RootAt threads t)
    (result : Script.Outcome) : Rooted (changed threads t none) (some result) finished := by
  have hnone : ∀ u, ¬ RootAt (changed threads t none) u := by
    rintro u ⟨thread, hthread, hother⟩
    obtain ⟨hu, hold⟩ := changed_none_eq_some.mp hthread
    exact hu (h.one ⟨thread, hold, hother⟩ hroot)
  refine ⟨fun _ => ⟨fun ⟨u, hu⟩ => absurd hu (hnone u), fun heq => (by cases heq)⟩, ?_⟩
  intro u _ hu
  exact absurd hu (hnone u)

end Rooted

end DurableFlow
