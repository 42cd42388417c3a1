/-
A step reports its outcome once, whatever is called on its cell and in whatever
order.

Deliveries come from anywhere and at any time; the scheduler asks at the end of a
start whether the cell becomes asynchronous, and later takes the outcome. A life of
a cell is a list of these three calls. The invariant says what a cell holds after
such a list in terms of two things only, the outcomes that were delivered and
whether one of them was taken: so each law below is read off it, and the order of
the calls never has to be looked at again.

The slot of the outcome also holds the marker of one that was taken. That is why
an outcome with the code of the marker counts as no delivery, and why the two
cases of the slot cannot be told apart without the invariant.
-/
import DurableFlow.Execution.Threads
import DurableFlow.Proofs.Scheduler.Along

set_option autoImplicit false

namespace DurableFlow

theorem Failure.suppressAll_nil (failure : Failure) : failure.suppressAll [] = failure := by
  cases failure
  simp [suppressAll]

namespace StepCell

open Script

/-! ## Lives of a cell -/

/-- What is called on a cell: deliveries by anyone, the other two by the scheduler. -/
inductive Call where
  | deliver (outcome : Outcome)
  | switchToAsync
  | take

/-- What a call answers. -/
inductive Answer where
  /-- Whether the completion of the step has to be scheduled. -/
  | delivered (schedules : Bool)
  /-- Whether the cell became asynchronous. -/
  | switched (toAsync : Bool)
  | taken (outcome : Option Outcome)

/-- Makes one call. -/
def call (cell : StepCell) : Call → StepCell × Answer
  | .deliver outcome => ((cell.deliver outcome).1, .delivered (cell.deliver outcome).2)
  | .switchToAsync => (cell.switchToAsync.1, .switched cell.switchToAsync.2)
  | .take => (cell.take.1, .taken cell.take.2)

/-- The cell after some calls. -/
def after (cell : StepCell) : List Call → StepCell
  | [] => cell
  | c :: rest => after (cell.call c).1 rest

/-- The answers to some calls, in order. -/
def answers (cell : StepCell) : List Call → List Answer
  | [] => []
  | c :: rest => (cell.call c).2 :: answers (cell.call c).1 rest

/-- Whether a call handed an outcome over. -/
def Answer.handsOver : Answer → Bool
  | .taken outcome => outcome.isSome
  | _ => false

/-- Whether a call scheduled the completion of the step. -/
def Answer.schedules : Answer → Bool
  | .delivered schedules => schedules
  | _ => false

/-- What the scheduler is told the first time it asks whether the cell becomes asynchronous. -/
def firstSwitch? : List Answer → Option Bool
  | [] => none
  | .switched toAsync :: _ => some toAsync
  | _ :: rest => firstSwitch? rest

/-- Whether an outcome is in the cell the first time the scheduler asks. What the scheduler is
told does not count here. -/
def found (cell : StepCell) : List Call → Bool
  | [] => false
  | .switchToAsync :: _ => cell.outcome.isSome
  | c :: rest => found (cell.call c).1 rest

/-- The outcome in a call that counts as a delivery. -/
def Call.delivery? : Call → Option Outcome
  | .deliver outcome => if isMarker outcome then none else some outcome
  | _ => none

/-- The outcomes that are delivered in some calls. -/
def deliveries (calls : List Call) : List Outcome := calls.filterMap Call.delivery?

/-- What outcomes, in the order of their delivery, amount to: the first one, and if it is a
failure then with all later ones suppressed in it. -/
def merged : List Outcome → Option Outcome
  | [] => none
  | .ok value :: _ => some (.ok value)
  | .error failure :: late => some (.error (failure.suppressAll (late.map duplicate)))

theorem after_append (cell : StepCell) (before rest : List Call) :
    cell.after (before ++ rest) = (cell.after before).after rest := by
  induction before generalizing cell with
  | nil => rfl
  | cons c before ih => exact ih (cell.call c).1

theorem deliveries_cons (c : Call) (rest : List Call) :
    deliveries (c :: rest) = c.delivery?.toList ++ deliveries rest := by
  unfold deliveries
  cases h : c.delivery? <;> simp [h]

/-! ## The invariant -/

/-- **What a cell holds** when `told` was delivered to it, and `taken` says whether the outcome
was handed over. -/
structure Holds (told : List Outcome) (taken : Bool) (cell : StepCell) : Prop where
  outcome : cell.outcome = if taken then some (.error .alreadyCompleted) else merged told
  suppressed : cell.suppressed = (told.drop 1).map duplicate
  genuine : ∀ o ∈ told, isMarker o = false
  told_of_taken : taken = true → told ≠ []

theorem isMarker_alreadyCompleted : isMarker (.error .alreadyCompleted) = true := by
  simp [isMarker, Failure.isAlreadyCompleted, Failure.alreadyCompleted]

theorem merged_eq_none {told : List Outcome} : merged told = none ↔ told = [] := by
  rcases told with - | ⟨- | -, late⟩ <;> simp [merged]

theorem Holds.outcome_eq_none {told : List Outcome} {taken : Bool} {cell : StepCell}
    (h : Holds told taken cell) : cell.outcome = none ↔ told = [] := by
  rw [h.outcome]
  cases taken with
  | false => simpa using merged_eq_none
  | true => simpa using h.told_of_taken rfl

/-- A merged outcome is no marker, because merging leaves the code of a failure alone. -/
theorem isMarker_of_merged {told : List Outcome} {o : Outcome}
    (hgen : ∀ o ∈ told, isMarker o = false) (h : merged told = some o) : isMarker o = false := by
  rcases told with - | ⟨failure | value, late⟩
  · simp [merged] at h
  · have hf := hgen (.error failure) (by simp)
    simp only [merged, Option.some.injEq] at h
    rw [← h]
    simpa [isMarker, Failure.isAlreadyCompleted, Failure.suppressAll] using hf
  · simp only [merged, Option.some.injEq] at h
    rw [← h]
    rfl

/-- One more delivery amends what the earlier ones amount to. -/
theorem merged_concat {told : List Outcome} {first o : Outcome}
    (hgen : ∀ o ∈ told, isMarker o = false) (h : merged told = some first) :
    merged (told ++ [o]) = some (amend first (duplicate o)) := by
  rcases told with - | ⟨failure | value, late⟩
  · simp [merged] at h
  · have hf := hgen (.error failure) (by simp)
    simp only [merged, Option.some.injEq] at h
    rw [← h]
    simp only [isMarker, Failure.isAlreadyCompleted] at hf
    simp [merged, amend, Failure.isAlreadyCompleted, Failure.suppressAll, Failure.suppress, hf]
  · simp only [merged, Option.some.injEq] at h
    rw [← h]
    rfl

/-- What was delivered and not taken can be seen, and nothing else can. -/
theorem Holds.pending {told : List Outcome} {taken : Bool} {cell : StepCell}
    (h : Holds told taken cell) : cell.pending? = if taken then none else merged told := by
  unfold pending?
  rw [h.outcome]
  cases taken with
  | true => simp [isMarker_alreadyCompleted]
  | false =>
    cases hm : merged told with
    | none => simp
    | some o => simp [isMarker_of_merged h.genuine hm]

/-! ## One call -/

/-- A delivery is added to what was told. -/
theorem Holds.deliver {told : List Outcome} {taken : Bool} {cell : StepCell}
    (h : Holds told taken cell) (o : Outcome) :
    Holds (told ++ (Call.deliver o).delivery?.toList) taken (cell.deliver o).1 := by
  unfold StepCell.deliver Call.delivery?
  by_cases ho : isMarker o
  · simpa [ho] using h
  · have hgen : ∀ p ∈ told ++ [o], isMarker p = false := by
      intro p hp
      rcases List.mem_append.mp hp with hp | hp
      · exact h.genuine p hp
      · rw [List.mem_singleton.mp hp]; simpa using ho
    cases hc : cell.outcome with
    | none =>
      have ht : told = [] := h.outcome_eq_none.mp hc
      subst ht
      -- Nothing was told, so nothing can have been taken.
      have htaken : taken = false := by
        cases taken with
        | false => rfl
        | true => exact absurd rfl (h.told_of_taken rfl)
      subst htaken
      refine ⟨?_, ?_, ?_, by simp⟩
      · simp only [ho]
        rcases o with f | v
        · exact congrArg some (congrArg Except.error (Failure.suppressAll_nil f).symm)
        · rfl
      · simp [ho, h.suppressed]
      · simpa only [ho, Bool.false_eq_true, if_false, Option.toList_some] using hgen
    | some first =>
      have hne : told ≠ [] := fun ht => by simp [h.outcome_eq_none.mpr ht] at hc
      refine ⟨?_, ?_, ?_, ?_⟩
      · simp only [ho]
        rw [h.outcome] at hc
        cases taken with
        | true =>
          simp only [if_true, Option.some.injEq] at hc
          simp [← hc, amend, Failure.isAlreadyCompleted, Failure.alreadyCompleted]
        | false =>
          simp only [Bool.false_eq_true, if_false] at hc
          simp [merged_concat h.genuine hc]
      · cases told with
        | nil => exact absurd rfl hne
        | cons t ts => simp [ho, h.suppressed]
      · simpa [ho] using hgen
      · simp [ho]

/-- Asking for asynchrony changes only the mode. -/
theorem Holds.switchToAsync {told : List Outcome} {taken : Bool} {cell : StepCell}
    (h : Holds told taken cell) : Holds told taken cell.switchToAsync.1 := by
  unfold StepCell.switchToAsync
  split <;> exact ⟨h.outcome, h.suppressed, h.genuine, h.told_of_taken⟩

/-- Taking takes what was told, once. -/
theorem Holds.take {told : List Outcome} {taken : Bool} {cell : StepCell}
    (h : Holds told taken cell) :
    cell.take.2 = (if taken then none else merged told) ∧
      Holds told (taken || cell.take.2.isSome) cell.take.1 := by
  unfold StepCell.take
  rw [h.pending]
  cases taken with
  | true => exact ⟨rfl, h⟩
  | false =>
    cases hm : merged told with
    | none => exact ⟨by simp, by simpa using h⟩
    | some o =>
      refine ⟨by simp, by simp, h.suppressed, h.genuine, fun _ ht => ?_⟩
      rw [ht] at hm
      simp [merged] at hm

/-- **One call keeps the invariant**: it adds its delivery to what was told, and its answer to
whether something was taken. -/
theorem Holds.call {told : List Outcome} {taken : Bool} {cell : StepCell}
    (h : Holds told taken cell) (c : Call) :
    Holds (told ++ c.delivery?.toList) (taken || (cell.call c).2.handsOver) (cell.call c).1 := by
  cases c with
  | deliver o => simpa [StepCell.call, Answer.handsOver] using h.deliver o
  | switchToAsync =>
    simpa [StepCell.call, Answer.handsOver, Call.delivery?] using h.switchToAsync
  | take => simpa [StepCell.call, Answer.handsOver, Call.delivery?] using h.take.2

/-- **Any number of calls keep the invariant.** -/
theorem Holds.after {told : List Outcome} {taken : Bool} {cell : StepCell}
    (h : Holds told taken cell) (calls : List Call) :
    Holds (told ++ deliveries calls) (taken || (cell.answers calls).any Answer.handsOver)
      (cell.after calls) := by
  induction calls generalizing told taken cell with
  | nil => simpa [deliveries, answers, StepCell.after] using h
  | cons c rest ih =>
    have := ih (h.call c)
    rw [deliveries_cons, ← List.append_assoc]
    simpa [answers, StepCell.after, Bool.or_assoc] using this

/-! ## The laws of a life -/

/-- A cell at the start of its life: new, or restored with the outcome that was saved. -/
structure Begins (cell : StepCell) : Prop where
  suppressed : cell.suppressed = []
  genuine : ∀ o, cell.outcome = some o → isMarker o = false

theorem Begins.holds {cell : StepCell} (h : Begins cell) :
    Holds cell.outcome.toList false cell := by
  refine ⟨?_, ?_, ?_, by simp⟩
  · rcases cell.outcome with - | ⟨f | v⟩
    · rfl
    · exact congrArg (some ∘ Except.error) (Failure.suppressAll_nil f).symm
    · rfl
  · rw [h.suppressed]
    cases cell.outcome <;> rfl
  · intro o ho
    exact h.genuine o (by simpa using ho)

/-- After something was taken nothing is. -/
theorem Holds.countP_handsOver {told : List Outcome} {taken : Bool} {cell : StepCell}
    (h : Holds told taken cell) (calls : List Call) :
    (cell.answers calls).countP Answer.handsOver + taken.toNat ≤ 1 := by
  induction calls generalizing told taken cell with
  | nil => cases taken <;> simp [answers]
  | cons c rest ih =>
    have hrest := ih (h.call c)
    rw [answers, List.countP_cons]
    cases htaken : taken with
    | false =>
      rw [htaken, Bool.false_or] at hrest
      cases hands : (cell.call c).2.handsOver <;> simpa [hands] using hrest
    | true =>
      -- a cell from which the outcome was taken hands nothing over
      have hnone : (cell.call c).2.handsOver = false := by
        cases c with
        | take => simp [StepCell.call, Answer.handsOver, h.take.1, htaken]
        | _ => rfl
      simpa [htaken, hnone] using hrest

/-- Asynchrony lasts through a call. -/
theorem isAsync_call {cell : StepCell} (h : cell.isAsync = true) (c : Call) :
    (cell.call c).1.isAsync = true := by
  cases c with
  | deliver o =>
    simp only [StepCell.call, StepCell.deliver]
    split
    · exact h
    · split <;> exact h
  | switchToAsync =>
    simp only [StepCell.call, StepCell.switchToAsync]
    split
    · exact h
    · rfl
  | take =>
    simp only [StepCell.call, StepCell.take]
    split <;> exact h

theorem isAsync_after {cell : StepCell} (h : cell.isAsync = true) (calls : List Call) :
    (cell.after calls).isAsync = true := by
  induction calls generalizing cell with
  | nil => exact h
  | cons c rest ih => exact ih (isAsync_call h c)

/-- Once something was told, no delivery schedules anything. -/
theorem Holds.countP_schedules_of_told {told : List Outcome} {taken : Bool} {cell : StepCell}
    (h : Holds told taken cell) (hne : told ≠ []) (calls : List Call) :
    (cell.answers calls).countP Answer.schedules = 0 := by
  induction calls generalizing told taken cell with
  | nil => rfl
  | cons c rest ih =>
    rw [answers, List.countP_cons, ih (h.call c) (by simp [hne])]
    have hquiet : (cell.call c).2.schedules = false := by
      cases c with
      | deliver o =>
        have hsome : cell.outcome ≠ none := fun hn => hne (h.outcome_eq_none.mp hn)
        simp only [StepCell.call, Answer.schedules, StepCell.deliver]
        split
        · rfl
        · split
          · contradiction
          · rfl
      | _ => rfl
    simp [hquiet]

/-- A call that delivers nothing leaves a cell untold, and schedules nothing. -/
theorem Holds.schedules_of_no_delivery {cell : StepCell} {c : Call}
    (h : c.delivery? = none) : (cell.call c).2.schedules = false := by
  cases c with
  | deliver o =>
    have ho : isMarker o = true := by
      by_cases ho : isMarker o
      · exact ho
      · simp [Call.delivery?, ho] at h
    simp [StepCell.call, Answer.schedules, StepCell.deliver, ho]
  | _ => rfl

/-- A first delivery schedules the completion exactly if the cell is asynchronous. -/
theorem Holds.schedules_of_first {taken : Bool} {cell : StepCell} (h : Holds [] taken cell)
    {c : Call} {o : Outcome} (hc : c.delivery? = some o) :
    (cell.call c).2.schedules = cell.isAsync := by
  cases c with
  | deliver p =>
    have hp : ¬isMarker p := fun hp => by simp [Call.delivery?, hp] at hc
    have hnone : cell.outcome = none := h.outcome_eq_none.mpr rfl
    simp [StepCell.call, Answer.schedules, StepCell.deliver, hp, hnone]
  | switchToAsync => simp [Call.delivery?] at hc
  | take => simp [Call.delivery?] at hc

/-- **A switch sees what was told**: with an outcome in it the cell stays as it is and the answer is
no, and without one it becomes asynchronous and the answer is yes. -/
theorem Holds.switch_eq {told : List Outcome} {taken : Bool} {cell : StepCell}
    (h : Holds told taken cell) : cell.switchToAsync =
      if told.isEmpty then ({ cell with isAsync := true }, true) else (cell, false) := by
  unfold StepCell.switchToAsync
  cases hc : cell.outcome with
  | none =>
    obtain rfl : told = [] := h.outcome_eq_none.mp hc
    rfl
  | some first =>
    have hne : told ≠ [] := fun ht => by simp [h.outcome_eq_none.mpr ht] at hc
    rw [if_neg (by simpa using hne)]

/-- The scheduler is told no exactly if an outcome is in the cell when it asks. -/
theorem firstSwitch_eq {cell : StepCell} {calls : List Call}
    (hasked : firstSwitch? (cell.answers calls) ≠ none) :
    firstSwitch? (cell.answers calls) = some !found cell calls := by
  induction calls generalizing cell with
  | nil => exact absurd rfl hasked
  | cons c rest ih =>
    cases c with
    | switchToAsync =>
      cases hc : cell.outcome <;> simp [answers, StepCell.call, StepCell.switchToAsync, firstSwitch?, found, hc]
    | deliver o => exact ih hasked
    | take => exact ih hasked

/-- In a cell that was told something the scheduler finds an outcome when it asks. -/
theorem Holds.found_of_told {told : List Outcome} {taken : Bool} {cell : StepCell}
    (h : Holds told taken cell) (hne : told ≠ []) (calls : List Call)
    (hasked : firstSwitch? (cell.answers calls) ≠ none) : found cell calls = true := by
  induction calls generalizing told taken cell with
  | nil => exact absurd rfl hasked
  | cons c rest ih =>
    rw [answers] at hasked
    have hrest := ih (h.call c) (by simp [hne])
    cases c with
    | switchToAsync =>
      rw [found, Option.isSome_iff_ne_none]
      exact fun hnone => hne (h.outcome_eq_none.mp hnone)
    | deliver o => exact hrest hasked
    | take => exact hrest hasked

/-- In an asynchronous cell exactly the first delivery schedules the completion. -/
theorem Holds.countP_schedules_of_async {taken : Bool} {cell : StepCell}
    (h : Holds [] taken cell) (hasync : cell.isAsync = true) (calls : List Call) :
    (cell.answers calls).countP Answer.schedules = (!(deliveries calls).isEmpty).toNat := by
  induction calls generalizing taken cell with
  | nil => rfl
  | cons c rest ih =>
    rw [answers, List.countP_cons, deliveries_cons]
    have hcall := h.call c
    cases hc : c.delivery? with
    | none =>
      rw [hc] at hcall
      rw [ih (by simpa using hcall) (isAsync_call hasync c), Holds.schedules_of_no_delivery hc]
      simp
    | some o =>
      rw [hcall.countP_schedules_of_told (by simp [hc]), h.schedules_of_first hc, hasync]
      simp

/-- **Of the two ways in which a first outcome reaches its thread each takes exactly one**: it is in
the cell when the scheduler asks for asynchrony, or its delivery schedules the completion. -/
theorem Holds.seen_or_scheduled {taken : Bool} {cell : StepCell} (h : Holds [] taken cell)
    (hsync : cell.isAsync = false) (calls : List Call)
    (hasked : firstSwitch? (cell.answers calls) ≠ none) (htold : deliveries calls ≠ []) :
    (cell.answers calls).countP Answer.schedules + (found cell calls).toNat = 1 := by
  induction calls generalizing taken cell with
  | nil => exact absurd rfl htold
  | cons c rest ih =>
    rw [answers] at hasked ⊢
    rw [deliveries_cons] at htold
    rw [List.countP_cons]
    have hcall := h.call c
    have hnone : cell.outcome = none := h.outcome_eq_none.mpr rfl
    cases c with
    | switchToAsync =>
      -- nothing was delivered yet, so the cell becomes asynchronous here
      have hasync : (cell.call .switchToAsync).1.isAsync = true := by
        simp [StepCell.call, StepCell.switchToAsync, hnone]
      have hall := Holds.countP_schedules_of_async (by simpa [Call.delivery?] using hcall)
        hasync rest
      have htold' : (deliveries rest).isEmpty = false := by
        simpa [Call.delivery?] using htold
      rw [hall, htold']
      simp [StepCell.call, hnone, found, Answer.schedules]
    | take =>
      have hstill : (cell.call .take).1.isAsync = false := by
        simp [StepCell.call, StepCell.take, StepCell.pending?, hnone, hsync]
      have := ih (by simpa [Call.delivery?] using hcall) hstill
        (by simpa [StepCell.call, firstSwitch?] using hasked)
        (by simpa [Call.delivery?] using htold)
      simpa [StepCell.call, Answer.schedules, found] using this
    | deliver o =>
      have hstill : (cell.call (.deliver o)).1.isAsync = false := by
        simp only [StepCell.call, StepCell.deliver, hnone]
        split <;> exact hsync
      by_cases ho : isMarker o
      · have := ih (by simpa [Call.delivery?, ho] using hcall) hstill
          (by simpa [StepCell.call, firstSwitch?] using hasked)
          (by simpa [Call.delivery?, ho] using htold)
        simpa [StepCell.call, Answer.schedules, found, StepCell.deliver, ho] using this
      · have hfirst : (Call.deliver o).delivery? = some o := by simp [Call.delivery?, ho]
        have hseen : found cell (.deliver o :: rest) = true :=
          hcall.found_of_told (by simp [hfirst]) rest (by simpa [StepCell.call, firstSwitch?] using hasked)
        rw [hcall.countP_schedules_of_told (by simp [hfirst]), h.schedules_of_first hfirst, hsync, hseen]
        rfl

/-- **A step's outcome is delivered once, and the first one wins.** The laws of a cell and the
calls made on it since the start of its life; `told` is all that was delivered, the outcome that
a restored cell starts with included. -/
structure DeliversOnce (cell : StepCell) (calls : List Call) : Prop where
  /-- At most one take hands an outcome over. -/
  handed_over_once : (cell.answers calls).countP Answer.handsOver ≤ 1
  /-- A take hands over what was told so far, unless an earlier one did. -/
  take_eq : (cell.after calls).take.2 =
    if (cell.answers calls).any Answer.handsOver then none
    else merged (cell.outcome.toList ++ deliveries calls)
  /-- Every delivery after the first is listed, in order. -/
  suppressed_eq : (cell.after calls).suppressed =
    ((cell.outcome.toList ++ deliveries calls).drop 1).map duplicate
  /-- What can be seen of the outcome is what a take would hand over, and never the marker. -/
  pending_eq : (cell.after calls).pending? = (cell.after calls).take.2
  pending_genuine : ∀ o, (cell.after calls).pending? = some o → isMarker o = false
  /-- Asynchrony is for good. -/
  async_lasts : ∀ more, (cell.after calls).isAsync = true →
    (cell.after (calls ++ more)).isAsync = true
  /-- A switch answers no exactly if something was told; otherwise it makes the cell asynchronous,
  and changes nothing else. -/
  switch_eq : (cell.after calls).switchToAsync =
    if (cell.outcome.toList ++ deliveries calls).isEmpty then
      ({ cell.after calls with isAsync := true }, true)
    else (cell.after calls, false)
  /-- What the scheduler is told the first time it asks is whether an outcome is in the cell. -/
  told_at_switch : firstSwitch? (cell.answers calls) ≠ none →
    firstSwitch? (cell.answers calls) = some !found cell calls
  /-- In a new cell, once the scheduler has asked for asynchrony and something was delivered, the
  first delivery was in the cell when it asked, or has scheduled one completion, and not both. -/
  found_or_scheduled : cell.outcome = none → cell.isAsync = false →
    firstSwitch? (cell.answers calls) ≠ none → deliveries calls ≠ [] →
    (cell.answers calls).countP Answer.schedules + (found cell calls).toNat = 1
  /-- In a cell restored without an outcome the first delivery schedules the one completion. -/
  scheduled_once : cell.outcome = none → cell.isAsync = true →
    (cell.answers calls).countP Answer.schedules = (!(deliveries calls).isEmpty).toNat
  /-- What is in the cell when the start of its step ends is what the call of the step answers, and
  without it the thread waits. No job is queued for it. -/
  consumed_in_place : ∀ (x : Execution) (thread : Thread) (node : Nat) (step : LiveStep),
    Table.find? node x.program.steps = some step → step.cell = cell.after calls →
    (x.awaitStep thread node).outcome = (cell.after calls).take.2 ∧
      (x.awaitStep thread node).execution.inbox = x.inbox
  /-- A delivery that schedules a completion queues one job for it, and any other queues none. -/
  job_queued : ∀ (x : Execution) (node : Nat) (step : LiveStep) (o : Outcome),
    x.lane = .serving → x.step? node = some step → step.cell = cell.after calls →
    (x.deliver node o).inbox = x.inbox ++
      if ((cell.after calls).call (.deliver o)).2.schedules then [.completeStep node] else []

theorem inbox_adjustStep (x : Execution) (node : Nat) (f : LiveStep → LiveStep) :
    (x.adjustStep node f).inbox = x.inbox ∧ (x.adjustStep node f).lane = x.lane := by
  unfold Execution.adjustStep
  split <;> exact ⟨rfl, rfl⟩

/-- What a delivery does to the queue of jobs. -/
theorem inbox_deliver {x : Execution} {node : Nat} {step : LiveStep} (o : Outcome)
    (hlane : x.lane = .serving) (hstep : x.step? node = some step) :
    (x.deliver node o).inbox = x.inbox ++
      if (step.cell.deliver o).2 then [.completeStep node] else [] := by
  have hframe := inbox_adjustStep x node fun s => { s with cell := (step.cell.deliver o).1 }
  unfold Execution.deliver
  rw [hstep]
  cases h : (step.cell.deliver o).2 with
  | false => simpa [h] using hframe.1
  | true => simp [h, Execution.submit, hframe.2, hframe.1, hlane]

/-- The history is written beside the queue of jobs. -/
theorem alongWrites_inbox : Execution.AlongWrites fun x y => y.inbox = x.inbox where
  refl _ := rfl
  trans hxy hyz := hyz.trans hxy
  node _ := rfl
  head _ := rfl
  lines _ _ _ := rfl
  start _ _ := rfl
  touch _ := rfl
  store _ _ _ := rfl
  autopersist _ _ := rfl
  actions _ _ _ := rfl

/-- A step that is over queues no job. -/
theorem inbox_finishStep (x : Execution) (node : Nat) (o : Outcome) : (x.finishStep node o).inbox = x.inbox := by
  unfold Execution.finishStep
  split
  · rfl
  · exact alongWrites_inbox.closeStepNode _ _ _

/-- **The end of a start** answers what would be taken from the cell of the step. -/
theorem awaitStep_eq {x : Execution} {node : Nat} {step : LiveStep} {told : List Outcome} {taken : Bool}
    (hstep : Table.find? node x.program.steps = some step) (h : Holds told taken step.cell) (thread : Thread) :
    (x.awaitStep thread node).outcome = step.cell.take.2 ∧
      (x.awaitStep thread node).execution.inbox = x.inbox := by
  unfold Execution.awaitStep
  simp only [hstep, h.switch_eq]
  cases told with
  | nil =>
    -- nothing is there that could be taken, and the thread waits
    have hnone : step.cell.take.2 = none := by
      rw [h.take.1]
      cases taken <;> rfl
    rw [hnone]
    exact ⟨rfl, (inbox_adjustStep _ _ _).1⟩
  | cons first late =>
    simp only [List.isEmpty_cons, Bool.false_eq_true, if_false]
    cases htake : step.cell.take with
    | mk cell outcome =>
      cases outcome with
      | none => exact ⟨rfl, rfl⟩
      | some o => exact ⟨rfl, (inbox_finishStep _ _ _).trans (inbox_adjustStep _ _ _).1⟩

/-- Every life of a cell obeys the laws of delivery. -/
theorem delivers_once (cell : StepCell) (hbegin : cell.Begins) (calls : List Call) :
    DeliversOnce cell calls := by
  have hlife := hbegin.holds.after calls
  rw [Bool.false_or] at hlife
  have huntold : cell.outcome = none → Holds [] false cell := by
    intro hnone
    simpa [hnone] using hbegin.holds
  exact {
    handed_over_once := by simpa using hbegin.holds.countP_handsOver calls
    take_eq := hlife.take.1
    suppressed_eq := hlife.suppressed
    pending_eq := hlife.pending.trans hlife.take.1.symm
    pending_genuine := by
      intro o ho
      rw [hlife.pending] at ho
      split at ho
      · cases ho
      · exact isMarker_of_merged hlife.genuine ho
    async_lasts := by
      intro more hasync
      rw [after_append]
      exact isAsync_after hasync more
    switch_eq := hlife.switch_eq
    told_at_switch := firstSwitch_eq
    found_or_scheduled := fun hnone hsync hasked htold =>
      (huntold hnone).seen_or_scheduled hsync calls hasked htold
    scheduled_once := fun hnone hasync =>
      (huntold hnone).countP_schedules_of_async hasync calls
    consumed_in_place := by
      intro x thread node step hstep hcell
      rw [← hcell]
      exact awaitStep_eq hstep (hcell ▸ hlife) thread
    job_queued := by
      intro x node step o hlane hstep hcell
      rw [inbox_deliver o hlane hstep, hcell]
      rfl }

/-- A failure is delivered while the step starts, a value while the scheduler has not asked yet,
and one more value after the outcome was taken. -/
theorem delivers_once_late_value : Begins {} ∧
    DeliversOnce {} [.deliver (.error (.internal "first")), .deliver (.ok .null), .switchToAsync,
      .take, .deliver (.ok (.bool true)), .take] :=
  have hbegin : Begins {} := ⟨rfl, by intro o ho; cases ho⟩
  ⟨hbegin, delivers_once {} hbegin _⟩

end StepCell

end DurableFlow
