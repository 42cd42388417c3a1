/-
No thread is overtaken twice.

Threads have their turns in the order of their numbers, going round at the end. Which thread ran last is
noted when a turn begins and by nothing else, so whatever is done between two turns, the next one goes to
the first thread that can run behind the last one.

Let a thread `t` wait for its turn all the time. While the last turn was before `t`, turns move up
towards `t` and cannot pass it. While it was at `t` or behind it, turns move up too, until they start again
from below, and from there they stay below `t`. Either way no number comes twice. The thread that ran last
need not be there any more; only its number counts.
-/
import Mathlib.Data.List.Nodup
import DurableFlow.Proofs.Scheduler.Evolution
import DurableFlow.Proofs.Scheduler.Reachability

set_option autoImplicit false

namespace DurableFlow

open Script Text

namespace Execution

/-! ## What does not give anybody a turn -/

/-- **Nobody has a turn between two states**: it is remembered who ran last, and the threads stay in order. -/
structure SameTurn (x y : Execution) : Prop where
  last : y.program.lastRun = x.program.lastRun
  sorted : Table.Sorted x.program.threads → Table.Sorted y.program.threads

namespace SameTurn

variable {x y : Execution} {r r' : Option Thread}

/-- **A move gives nobody a turn.** -/
theorem of_move {registry : StepRegistry} {m m' : Moment} (h : Move registry m m') :
    m'.program.lastRun = m.program.lastRun ∧
      (Table.Sorted m.program.threads → Table.Sorted m'.program.threads) := by
  cases h with
  | @call p thread c node d request =>
    cases request.body <;> exact ⟨rfl, id⟩
  | begin | spawn | resume | put => exact ⟨rfl, fun hsorted => hsorted.insert _ _⟩
  | tell told cause =>
    exact ⟨rfl, fun hsorted => Table.Sorted.mapValues hsorted fun t => if told t then t.inject cause else t⟩
  | take => exact ⟨rfl, fun hsorted => hsorted.erase _⟩
  | _ => exact ⟨rfl, id⟩

theorem of_becomes (h : Becomes x r y r') : SameTurn x y := by
  have hmoves := h.moves
  suffices hsame : (y.moment r').program.lastRun = (x.moment r).program.lastRun ∧
      (Table.Sorted (x.moment r).program.threads → Table.Sorted (y.moment r').program.threads) from
    ⟨hsame.1, hsame.2⟩
  generalize y.moment r' = m at hmoves ⊢
  induction hmoves with
  | refl => exact ⟨rfl, id⟩
  | tail _ hmove ih =>
    obtain ⟨hlast, hsorted⟩ := of_move hmove
    exact ⟨hlast.trans ih.1, fun hfirst => hsorted (ih.2 hfirst)⟩

/-- **No event but a turn gives anybody a turn.** -/
theorem happen (x : Execution) {event : Event} (hother : ∀ thread, event ≠ .run thread) :
    SameTurn x (x.happen event) := by
  cases event with
  | effect node effect => exact of_becomes ((Becomes.alongHooks none node).applyEffect x effect)
  | remember node memory =>
    show SameTurn x (x.adjustStep node _)
    unfold adjustStep
    split <;> exact ⟨rfl, id⟩
  | _ => exact of_becomes (.happen x rfl hother)

end SameTurn

/-- **A turn is noted when it begins**, and what the thread does then changes nothing about it. -/
theorem lastRun_runThread (x : Execution) (id : Nat) :
    (x.runThread id).program.lastRun = some id ∧
      (Table.Sorted x.program.threads → Table.Sorted (x.runThread id).program.threads) := by
  have hturn : SameTurn (x.noteTurn id) (x.runThread id) := .of_becomes (.runThread x id)
  exact ⟨hturn.last, hturn.sorted⟩

end Execution

/-! ## Whose turn it is -/

/-- In a table the first entry of a kind has the least key. -/
theorem Table.Sorted.find?_le {α : Type} {table : Table Nat α} (h : Table.Sorted table)
    {p : Nat × α → Bool} {entry other : Nat × α} (hentry : List.find? p table = some entry)
    (hother : other ∈ table) (hp : p other = true) : entry.1 ≤ other.1 := by
  obtain ⟨-, before, behind, rfl, hbefore⟩ := List.find?_eq_some_iff_append.mp hentry
  rcases List.mem_append.mp hother with hmem | hmem
  · exact absurd hp (by simpa using hbefore other hmem)
  · rcases List.mem_cons.mp hmem with rfl | hmem
    · exact Nat.le_refl _
    · have hlt := (List.pairwise_append.mp h).2.1
      exact Nat.le_of_lt (Nat.compare_eq_lt.mp (Table.Sorted.head_lt hlt hmem))

/-- A thread is there and can run. -/
def LiveProgram.CanRun (p : LiveProgram) (t : Nat) : Prop :=
  ∃ thread, Table.find? t p.threads = some thread ∧ thread.isRunnable = true

/-- **The next turn** goes to the first thread behind the last one that can run, and if there is none, to the
first one of all. -/
theorem LiveProgram.nextRunnable_found {p : LiveProgram} {id : Nat} (hnext : p.nextRunnable = some id) :
    (∃ last entry, p.lastRun = some last ∧ entry.1 = id ∧
      (p.threads.filter fun entry => last < entry.1).find? (fun entry => entry.2.isRunnable) = some entry) ∨
      (∀ last, p.lastRun = some last → ∀ entry ∈ p.threads, last < entry.1 → ¬ entry.2.isRunnable = true) ∧
        ∃ entry, entry.1 = id ∧ List.find? (fun entry => entry.2.isRunnable) p.threads = some entry := by
  obtain ⟨entry, hentry, rfl⟩ := Option.map_eq_some_iff.mp hnext
  unfold queue at hentry
  cases hlast : p.lastRun with
  | none =>
    rw [hlast] at hentry
    exact .inr ⟨fun _ hno => (by cases hno), entry, rfl, hentry⟩
  | some last =>
    rw [hlast] at hentry
    dsimp only at hentry
    rw [List.find?_append] at hentry
    cases hbehind : (p.threads.filter fun entry => last < entry.1).find? fun entry => entry.2.isRunnable with
    | none =>
      rw [hbehind, Option.none_or] at hentry
      refine .inr ⟨fun other hother entry hmem hlt => ?_, entry, rfl, hentry⟩
      cases hother
      exact List.find?_eq_none.mp hbehind entry (List.mem_filter.mpr ⟨hmem, by simpa using hlt⟩)
    | some found =>
      rw [hbehind, Option.some_or] at hentry
      exact .inl ⟨last, entry, rfl, rfl, hbehind.trans hentry⟩

/-- **Who may have a turn while `t` waits for one**: threads between the last one and `t`, or if the last
one is not before `t`, those behind it and those up to `t`. -/
theorem LiveProgram.nextRunnable_cases {p : LiveProgram} (hsorted : Table.Sorted p.threads) {t id : Nat}
    (hcan : p.CanRun t) (hnext : p.nextRunnable = some id) :
    id ≤ t ∨ ∃ last, p.lastRun = some last ∧ t ≤ last ∧ last < id := by
  obtain ⟨thread, hthread, hrunnable⟩ := hcan
  have hmem : (t, thread) ∈ p.threads := Table.mem_of_find? hthread
  rcases nextRunnable_found hnext with ⟨last, entry, hlast, rfl, hfound⟩ | ⟨-, entry, rfl, hfound⟩
  · by_cases hbefore : last < t
    · -- `t` is behind the last one as well
      have hrest : Table.Sorted (p.threads.filter fun entry => last < entry.1) := hsorted.filter _
      exact .inl (hrest.find?_le hfound (List.mem_filter.mpr ⟨hmem, by simpa using hbefore⟩) hrunnable)
    · have hbehind := (List.mem_filter.mp (List.mem_of_find?_eq_some hfound)).2
      exact .inr ⟨last, hlast, Nat.not_lt.mp hbefore, by simpa using hbehind⟩
  · exact .inl (hsorted.find?_le hfound hmem hrunnable)

/-- And if the last one is before `t`, nobody up to it. -/
theorem LiveProgram.lt_nextRunnable {p : LiveProgram} {t id last : Nat} (hcan : p.CanRun t)
    (hnext : p.nextRunnable = some id) (hlast : p.lastRun = some last) (hbefore : last < t) : last < id := by
  obtain ⟨thread, hthread, hrunnable⟩ := hcan
  rcases nextRunnable_found hnext with ⟨last', entry, hlast', rfl, hfound⟩ | ⟨hnone, -⟩
  · cases hlast.symm.trans hlast'
    simpa using (List.mem_filter.mp (List.mem_of_find?_eq_some hfound)).2
  · exact absurd hrunnable (hnone last hlast _ (Table.mem_of_find? hthread) hbefore)

namespace Execution

/-! ## Turns while a thread waits for its own -/

/-- **Some threads have their turns, in this order, while the thread `t` is there, can run and has no turn.**
Between the turns anything else may happen. -/
inductive Waits (t : Nat) : Execution → List Nat → Execution → Prop
  | here {x : Execution} (hcan : x.program.CanRun t) : Waits t x [] x
  | other {x y : Execution} {picked : List Nat} (h : Waits t x picked y) (event : Event)
    (hother : ∀ thread, event ≠ .run thread) (hcan : (y.happen event).program.CanRun t) :
    Waits t x picked (y.happen event)
  | pick {x y : Execution} {picked : List Nat} {id : Nat} (h : Waits t x picked y)
    (hnext : y.program.nextRunnable = some id) (hother : id ≠ t)
    (hcan : (y.runThread id).program.CanRun t) : Waits t x (picked ++ [id]) (y.runThread id)

/-- The thread that ran last and those that had a turn. While the last one is before `t`, there were turns
up to it and behind `t`; while it is behind `t`, only turns between the two. -/
def Swept (t : Nat) (last : Option Nat) (picked : List Nat) : Prop :=
  picked = [] ∨ ∃ id, last = some id ∧
    ((id < t ∧ ∀ k ∈ picked, k ≤ id ∨ t < k) ∨ (t < id ∧ ∀ k ∈ picked, t < k ∧ k ≤ id))

/-- **A turn sweeps on.** It is given to a thread that had none, and leaves the sweep as it says. -/
theorem Swept.pick {p : LiveProgram} (hsorted : Table.Sorted p.threads) {t id : Nat} {picked : List Nat}
    (h : Swept t p.lastRun picked) (hcan : p.CanRun t) (hnext : p.nextRunnable = some id) (hother : id ≠ t) :
    id ∉ picked ∧ Swept t (some id) (picked ++ [id]) := by
  have hcases := LiveProgram.nextRunnable_cases hsorted hcan hnext
  have hnew : ∀ {P : Nat → Prop}, P id → (∀ k ∈ picked, P k) → ∀ k ∈ picked ++ [id], P k := by
    intro P hid hold k hk
    rcases List.mem_append.mp hk with hk | hk
    · exact hold k hk
    · exact List.mem_singleton.mp hk ▸ hid
  rcases h with rfl | ⟨last, hlast, ⟨hbefore, hold⟩ | ⟨hbehind, hold⟩⟩
  · -- the first turn
    refine ⟨List.not_mem_nil, .inr ⟨id, rfl, ?_⟩⟩
    rcases Nat.lt_or_gt_of_ne hother with hlt | hgt
    · exact .inl ⟨hlt, hnew (.inl (Nat.le_refl _)) fun _ hno => (by cases hno)⟩
    · exact .inr ⟨hgt, hnew ⟨hgt, Nat.le_refl _⟩ fun _ hno => (by cases hno)⟩
  · -- below `t`: the turn goes to somebody between the last one and `t`
    have hup := LiveProgram.lt_nextRunnable hcan hnext hlast hbefore
    have hlt : id < t := by
      rcases hcases with hle | ⟨other, hother', hle, -⟩
      · omega
      · rw [hlast] at hother'
        cases hother'
        omega
    refine ⟨fun hmem => ?_, .inr ⟨id, rfl, .inl ⟨hlt, hnew (.inl (Nat.le_refl _)) fun k hk => ?_⟩⟩⟩
    · rcases hold id hmem with hle | hgt
      · omega
      · omega
    · rcases hold k hk with hle | hgt
      · exact .inl (by omega)
      · exact .inr hgt
  · rcases hcases with hle | ⟨other, hother', -, hup⟩
    · -- the sweep starts again from below
      have hlt : id < t := by omega
      refine ⟨fun hmem => ?_, .inr ⟨id, rfl, .inl ⟨hlt, hnew (.inl (Nat.le_refl _)) fun k hk => ?_⟩⟩⟩
      · have hpast := (hold id hmem).1
        omega
      · exact .inr (hold k hk).1
    · rw [hlast] at hother'
      cases hother'
      refine ⟨fun hmem => ?_, .inr ⟨id, rfl, .inr ⟨by omega, hnew ⟨by omega, Nat.le_refl _⟩ fun k hk => ?_⟩⟩⟩
      · have hupto := (hold id hmem).2
        omega
      · obtain ⟨hpast, hupto⟩ := hold k hk
        exact ⟨hpast, by omega⟩

namespace Waits

variable {t : Nat} {x y : Execution} {picked : List Nat}

theorem canRun (h : Waits t x picked y) : y.program.CanRun t := by
  cases h with
  | here hcan => exact hcan
  | other _ _ _ hcan => exact hcan
  | pick _ _ _ hcan => exact hcan

/-- What holds all the time a thread waits. -/
theorem swept (h : Waits t x picked y) (hsorted : Table.Sorted x.program.threads) :
    Table.Sorted y.program.threads ∧ Swept t y.program.lastRun picked ∧ picked.Nodup := by
  induction h with
  | here hcan => exact ⟨hsorted, .inl rfl, List.nodup_nil⟩
  | @other y picked h event hother hcan ih =>
    have hsame := SameTurn.happen y hother
    exact ⟨hsame.sorted ih.1, hsame.last ▸ ih.2.1, ih.2.2⟩
  | @pick y picked id h hnext hother hcan ih =>
    obtain ⟨hordered, hswept, hnodup⟩ := ih
    obtain ⟨hlast, hkept⟩ := lastRun_runThread y id
    obtain ⟨hnot, hnew⟩ := hswept.pick hordered h.canRun hnext hother
    refine ⟨hkept hordered, hlast ▸ hnew, ?_⟩
    rw [← List.concat_eq_append]
    exact List.Nodup.concat hnot hnodup

/-- **The moves of a turn of the lane are such turns and events.** -/
theorem move {turn next : Turn} (h : Waits t x picked turn.execution) (hmove : turn.move = some next)
    (hcan : next.execution.program.CanRun t)
    (hother : turn.execution.inbox = [] → turn.execution.program.nextRunnable ≠ some t) :
    ∃ more, Waits t x (picked ++ more) next.execution := by
  unfold Turn.move at hmove
  split at hmove
  -- a job is an event, and a thread that is picked is another one than `t`
  · next job rest hinbox =>
    cases hmove
    have hwork : turn.execution.happen .work = Execution.handle { turn.execution with inbox := rest } job := by
      rw [happen, work, hinbox]
      rfl
    refine ⟨[], ?_⟩
    rw [List.append_nil, ← hwork]
    refine h.other .work (fun _ hno => (by cases hno)) ?_
    rw [hwork]
    exact hcan
  · next hinbox =>
    split at hmove
    · cases hmove
    · split at hmove
      · cases hmove
      · next id hnext =>
        cases hmove
        have hne : id ≠ t := fun heq => hother hinbox (heq ▸ hnext)
        refine ⟨[id], ?_⟩
        dsimp only at hcan ⊢
        split
        · next hadvanced =>
          rw [if_pos hadvanced] at hcan
          exact h.pick hnext hne hcan
        · next hadvanced =>
          rw [if_neg hadvanced] at hcan
          have hprogram := (Quiet.alongCheckpoints.markStale turn.execution).program
          refine (h.other .markStale (fun _ hno => (by cases hno)) ?_).pick ?_ hne hcan
          · show turn.execution.markStale.program.CanRun t
            rw [hprogram]
            exact h.canRun
          · show turn.execution.markStale.program.nextRunnable = some id
            rw [hprogram]
            exact hnext

end Waits

/-- **No thread is overtaken twice.** While a thread is there, can run and has no turn, all turns go to
different threads, whatever happens between them. So each thread that is there at some moment has at most
one turn more before it. -/
theorem no_thread_is_overtaken_twice {t : Nat} {x y : Execution} {picked : List Nat}
    (hsorted : Table.Sorted x.program.threads) (h : Waits t x picked y) :
    picked.Nodup ∧ ∀ id ∈ Table.keys x.program.threads, picked.count id ≤ 1 := by
  obtain ⟨-, -, hnodup⟩ := h.swept hsorted
  exact ⟨hnodup, fun id _ => List.nodup_iff_count_le_one.mp hnodup id⟩

/-- A script that never comes to rest: `while (true) { }`. -/
def busyLoop : ParsedScript := { body := .whileDo (.bool true {}) (.block [] {}) {}, span := {} }

/-- Three threads that run it, of which the second had its turn. -/
def threeBusy (program : Program Val) : Execution :=
  let thread (id : Nat) : Thread :=
    { id, machine := .ofProgram program 2, head := 1, completions := [], input := some (.ok .null) }
  { beforeStage with
    program := { threads := [(1, thread 1), (2, thread 2), (3, thread 3)], lastRun := some 2 } }

/-- The second thread waits for the third and the first one, each of which comes to a safepoint. -/
theorem no_thread_is_overtaken_twice_busy :
    ∃ program, compile "busy" busyLoop = .ok program ∧
      Waits 2 (threeBusy program) [3, 1] (((threeBusy program).runThread 3).runThread 1) ∧
      (((threeBusy program).runThread 3).runThread 1).program.nextRunnable = some 2 ∧
      List.Nodup [3, 1] ∧ ∀ id ∈ Table.keys (threeBusy program).program.threads, [3, 1].count id ≤ 1 := by
  let program : Program Val := (compile "busy" busyLoop).toOption.getD { name := "", chunks := [] }
  have hcompiled : compile "busy" busyLoop = .ok program := rfl
  have hsorted : Table.Sorted (threeBusy program).program.threads := by
    refine List.pairwise_cons.mpr ⟨?_, List.pairwise_cons.mpr ⟨?_, List.pairwise_singleton _ _⟩⟩ <;>
    · intro entry hmem
      simp only [List.mem_cons, List.not_mem_nil, or_false] at hmem
      rcases hmem with rfl | rfl <;> rfl
  have hthird : Waits 2 (threeBusy program) [3] ((threeBusy program).runThread 3) :=
    (Waits.here ⟨_, rfl, rfl⟩).pick rfl (by decide) ⟨_, rfl, rfl⟩
  have hwaits : Waits 2 (threeBusy program) [3, 1] (((threeBusy program).runThread 3).runThread 1) :=
    hthird.pick rfl (by decide) ⟨_, rfl, rfl⟩
  exact ⟨program, hcompiled, hwaits, rfl, no_thread_is_overtaken_twice hsorted hwaits⟩

end Execution

end DurableFlow
