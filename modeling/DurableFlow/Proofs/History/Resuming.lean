/-
An execution in order after a reload.

What the history knows of threads and steps is saved with them, so the scene of a restored
program is that of the program it was made of. Of what a step remembers the accounts need the
branches that have ended, and these are the names under which its outcomes were saved. Timers
and waiters are not saved: nobody is named at first, and a step that runs again names itself,
if it has no block.
-/
import DurableFlow.Proofs.History.Starting
import DurableFlow.Proofs.Step.Memory

set_option autoImplicit false

namespace DurableFlow

open Script History

namespace History

/-! ## Accounts that are restored -/

/-- A ledger says no more than another one. -/
structure Ledger.Restored (old new : Ledger) : Prop where
  width : new.width = old.width
  branching : new.branching = old.branching
  settled : old.settled.Nodup → new.settled.Perm old.settled
  spent : new.spent = true → old.spent = true

theorem Account.restored {posts : Nat → Option Post} {n : Nat} {old new : Ledger}
    {pending : List PendingBody} {tip : Option Nat} (h : Account posts n old pending tip)
    (hnew : old.Restored new) : Account posts n new pending tip := by
  have hsettled := hnew.settled h.distinct
  constructor
  case runs =>
    intro t post index branch hpost hbody
    obtain ⟨hlt, hout, hbranch, hapart⟩ := h.runs hpost hbody
    exact ⟨hnew.width ▸ hlt, mt hsettled.mem_iff.mp hout, hnew.branching ▸ hbranch, hapart⟩
  case alone => exact h.alone
  case waits =>
    intro body hmem
    obtain ⟨hlt, hout, hbranch⟩ := h.waits body hmem
    exact ⟨hnew.width ▸ hlt, mt hsettled.mem_iff.mp hout, hnew.branching ▸ hbranch⟩
  case once => exact h.once
  case bounded => exact fun i hi => hnew.width ▸ h.bounded i (hsettled.mem_iff.mp hi)
  case distinct => exact hsettled.nodup_iff.mpr h.distinct
  case spent => exact fun hover => h.spent (hnew.spent hover)
  case tip => exact fun hwhy => h.tip (hnew.branching ▸ hwhy)

theorem Orderly.restored {σ : Scene} {ledgers ledgers' : Nat → Option Ledger}
    {pending : Nat → List PendingBody} (h : Orderly σ ledgers pending)
    (hnew : ∀ n, Option.Rel Ledger.Restored (ledgers n) (ledgers' n)) : Orderly σ ledgers' pending := by
  have hold : ∀ {n new}, ledgers' n = some new → ∃ old, ledgers n = some old ∧ old.Restored new := by
    exact fun {n _} hledger => Table.exists_old_of_rel (hledger ▸ hnew n)
  refine { toGrown := h.toGrown, kept := ?_, seated := ?_, account := ?_, idle := ?_ }
  · intro n seat hseat
    obtain ⟨old, hledger⟩ := h.kept hseat
    obtain ⟨new, hfound, _⟩ := Table.exists_new_of_rel (hledger ▸ hnew n)
    exact ⟨new, hfound⟩
  · intro n new hledger
    obtain ⟨old, hfound, hlike⟩ := hold hledger
    obtain ⟨seat, hseat, hblock⟩ := h.seated hfound
    exact ⟨seat, hseat, fun hwidth => hblock (hlike.width ▸ hwidth)⟩
  · intro n new seat hledger hseat
    obtain ⟨old, hfound, hlike⟩ := hold hledger
    exact (h.account hfound hseat).restored hlike
  · intro n hnone
    have hrel := hnew n
    rw [hnone] at hrel
    cases hfound : ledgers n <;> rw [hfound] at hrel <;> cases hrel
    exact h.idle hfound

end History

/-! ## The branches of a step that is read back -/

namespace Step

/-- **The outcomes that are read back have the keys of those that were saved.** -/
theorem keys_of_state {outcomes found : Table Nat Outcome} (hnodup : (Table.keys outcomes).Nodup)
    (h : outcomesOfState? (outcomesToState outcomes) = some found) :
    (Table.keys found).Perm (Table.keys outcomes) := by
  have hnames : ([("results", Json.ofNumbered Outcome.toJson outcomes)].map Prod.fst).Nodup := by simp
  obtain ⟨fields, hfields, hof⟩ := Document.record?_ofJson ["results"] 1 hnames
  rw [outcomesToState, outcomesOfState?, hfields] at h
  replace h : fields.field? "results" (Document.numbered? Json.wordBound Outcome.ofDocument?) =
    some found := h
  rw [hof.field?_eq List.mem_cons_self] at h
  exact Document.keys_of_numbered? hnodup h

/-- A step with branches remembers outcomes under the names under which it saved them. -/
theorem keys_of_restore {function : String} {d : StepDef} (hd : standard.find? function = some d)
    (hbranching : branching function = true) {clock : Text.Timestamp} {args : List Script.Val}
    {old new : StepMemory} (hnodup : (Table.keys (outcomesOf old)).Nodup)
    (h : d.restore clock args (d.saveState old) = .ok new) :
    (Table.keys (outcomesOf new)).Perm (Table.keys (outcomesOf old)) := by
  obtain ⟨hname, hmem⟩ := mem_standard hd
  obtain rfl := eq_parallel hmem (hname.trans (beq_iff_eq.mp hbranching))
  dsimp only [parallel] at h
  split at h
  · next outcomes hstate =>
    obtain ⟨found, hfound, hrest⟩ := bind_eq_ok.mp h
    obtain ⟨_, _, hnew⟩ := bind_eq_ok.mp hrest
    cases hfound
    cases hnew
    exact keys_of_state hnodup hstate
  · cases h

end Step

namespace Execution

/-! ## The program that is restored -/

/-- What is known of a step before and after a reload. -/
structure StepReturned (old new : LiveStep) : Prop where
  seat : new.seat = old.seat
  function : new.function = old.function
  args : new.args = old.args
  vars : new.vars = old.vars
  bodies : new.cell.bodies = old.cell.bodies
  ledger : old.ledger.Restored new.ledger

theorem returned_restoreStep {clock : Text.Timestamp} {old new : LiveStep}
    (h : restoreStep Step.standard clock (old.save Step.standard) = .ok new) : StepReturned old new := by
  obtain ⟨d, memory, hd, hmemory, rfl⟩ := exists_of_restoreStep h
  replace hd : Step.standard.find? old.function = some d := hd
  refine ⟨rfl, rfl, rfl, rfl, rfl, rfl, rfl, fun hnodup => ?_, fun hover => ?_⟩
  · show List.Perm (if Step.branching old.function then Table.keys (Step.outcomesOf memory) else [])
      old.ledger.settled
    rw [LiveStep.ledger_settled] at hnodup ⊢
    split
    · next hbranching =>
      rw [if_pos hbranching] at hnodup
      replace hmemory : d.restore clock old.args
        ((Step.standard.find? old.function).bind fun d => d.saveState old.memory) = .ok memory := hmemory
      rw [hd] at hmemory
      exact Step.keys_of_restore hd hbranching hnodup hmemory
    · exact .refl _
  -- an outcome that is read was the outcome before
  · obtain ⟨outcome, hsome⟩ := Option.isSome_iff_exists.mp hover
    obtain ⟨hold, _⟩ := Option.filter_eq_some_iff.mp hsome
    exact Option.isSome_iff_exists.mpr ⟨outcome, hold⟩

/-- What the history and the record say is as it was left, and nobody is told of anything. -/
structure Recovers (y z : Execution) : Prop where
  sane : z.archive.Sane
  shapes : z.archive.shapes = y.archive.shapes
  index : z.record.index = y.record.index
  engine : z.engine.IsStandard
  timers : z.timers = []
  board : z.board = {}
  stopping : z.stopping = []

/-- What is related part by part looks the same through functions that the relation respects. -/
theorem map_eq_of_rel {α β : Type} {like : α → α → Prop} {f : α → β} {old new : Option α}
    (h : Option.Rel like old new) (hlike : ∀ {a b}, like a b → f b = f a) : new.map f = old.map f := by
  cases h with
  | none => rfl
  | some hab => exact congrArg some (hlike hab)

theorem ledgers_of_returned {old new : Option LiveStep} (h : Option.Rel StepReturned old new) :
    Option.Rel Ledger.Restored (old.map LiveStep.ledger) (new.map LiveStep.ledger) := by
  cases h with
  | none => exact .none
  | some hlike => exact .some hlike.ledger

variable {y z : Execution} {origin : Origin}

/-- **A restored program is in order**, before its steps are told that they run again. -/
theorem Going.reloaded (h : Going y origin none []) (hsound : Sound y none) (hrecovers : Recovers y z)
    (hrestored : restoreProgram Step.standard z.clock (y.program.save Step.standard) =
      .ok z.program) : Going z origin none [] := by
  obtain ⟨_, _, hthreads, hsteps⟩ := @Sound.rebuilt y hsound _ _ _ _ hrestored
    (fun old new => new.post = old.post) (fun _ _ _ => rfl) StepReturned
    fun _ _ _ _ hnew => returned_restoreStep hnew
  have hold : ∀ {n new}, z.program.stepAt n = some new →
      ∃ old, y.program.stepAt n = some old ∧ StepReturned old new := by
    exact fun {n _} hnew => Table.exists_old_of_rel (hnew ▸ hsteps n)
  constructor
  case sane => exact hrecovers.sane
  case engine => exact hrecovers.engine
  case record => exact ongoing_congr h.record hrecovers.index
  case past => rw [hrecovers.shapes]; exact h.past
  case orderly =>
    have hindex := hrecovers.index
    simp only [Record.index, Index.mk.injEq] at hindex
    obtain ⟨hstart, hopened, hheads, hnext, hnextHead, _⟩ := hindex
    -- the scene sees nothing of a thread and of a step but what is saved
    have hscene : z.scene origin.head none = y.scene origin.head none := by
      refine scene_eq hrecovers.shapes hnext ?_ ?_ hnextHead hopened rfl ?_ ?_
      · rw [hstart]
        rfl
      · rw [hheads]
        rfl
      · exact funext fun t => map_eq_of_rel (hthreads t) fun heq => heq
      · exact funext fun n => map_eq_of_rel (hsteps n) fun hlike => hlike.seat
    rw [hscene]
    refine h.orderly.restored fun n => ?_
    exact ledgers_of_returned (hsteps n)
  case known =>
    intro n new hnew
    obtain ⟨old, hstep, hlike⟩ := hold hnew
    have hblock : new.isBlock = old.isBlock := congrArg Seat.isBlock hlike.seat
    rw [hlike.function, hblock]
    exact h.known hstep
  case drained =>
    intro n new hnew
    obtain ⟨old, hstep, hlike⟩ := hold hnew
    exact hlike.bodies.trans (h.drained hstep)
  case named => exact fun hn => (not_named hrecovers.timers hrecovers.board hrecovers.stopping hn).elim

/-! ## Steps that run again -/

/-- An effect by which a step waits again. -/
theorem waits_cases {effect : StepEffect} (h : effect.waits = true) :
    effect.startsBody = false ∧ effect.delivers = false := by
  cases effect with
  | listen _ => exact ⟨rfl, rfl⟩
  | wakeAt _ => exact ⟨rfl, rfl⟩
  | _ => cases h

namespace Books

variable {I : Execution → Option Thread → List BodyTask → Prop}
  {tip : Execution → Nat → LiveStep → Option Nat} {asks : LiveStep → PendingBody → Prop}
  (B : Books I tip asks) {x : Execution}

include B

/-- **A step that is told that it runs again** waits for what it waited for. -/
theorem resumeStep {node : Nat} {step : LiveStep} {d : StepDef} (h : I x none [])
    (hstep : x.program.stepAt node = some step) (hd : Step.standard.find? step.function = some d) :
    I (x.react node (d.onResume (x.viewOf step))) none [] := by
  obtain ⟨hmemory, heffects⟩ := Step.onResume_standard d (Step.mem_standard hd).2 (x.viewOf step)
  -- a step that is told so asks at most to be woken
  have hwaits : ∀ effect ∈ (d.onResume (x.viewOf step)).effects, effect.waits = true := by
    intro effect hmem
    rcases heffects with hnone | ⟨_, other, hone, hother⟩
    · rw [hnone] at hmem
      cases hmem
    · rw [hone] at hmem
      rw [List.mem_singleton.mp hmem]
      exact hother
  -- only an atom asks for that, and an atom has no bodies
  refine B.report h (.react x node _) (fun n hn => ?_) fun hold hafter => ?_
  · refine (named_react hn).imp_right ?_
    rintro ⟨rfl, effect, hmem, _⟩
    rcases heffects with hnone | ⟨hatom, _⟩
    · rw [hnone] at hmem
      cases hmem
    · obtain ⟨d', hd', hblock⟩ := B.known h hstep
      rw [hd] at hd'
      cases hd'
      exact B.free_of_atom h hstep (hblock.symm.trans hatom)
  · rw [hstep] at hold
    cases hold
    rw [stepAt_react hstep] at hafter
    cases hafter
    refine ⟨?_, fun tip haccount => ?_⟩
    · exact (StepCell.bodies_effects fun effect hmem => (waits_cases (hwaits effect hmem)).1).trans
        (B.drained h hstep)
    · rw [LiveStep.ledger_with, hmemory,
        StepCell.outcome_effects fun effect hmem => (waits_cases (hwaits effect hmem)).2]
      exact haccount

theorem reviveStep (h : I x none []) (saved : SavedStep) : I (x.reviveStep saved) none [] := by
  have hqueued : I (x.queueSaved saved) none [] := by
    refine B.quiet h (quiet_queueSaved x saved) ?_
    unfold queueSaved
    split
    · exact .refl x
    · exact light_submit x _
  unfold Execution.reviveStep
  rw [← queueSaved]
  dsimp only
  split
  · exact B.quiet hqueued (quiet_submit _ _) (light_submit _ _)
  · split
    · exact hqueued
    · next step hstep =>
      split
      · exact hqueued
      · next d hd =>
        rw [stepDef?, (B.engine hqueued).steps] at hd
        exact B.resumeStep hqueued hstep hd

theorem reviveSteps (h : I x none []) (saved : List SavedStep) :
    I (saved.foldl Execution.reviveStep x) none [] := by
  induction saved generalizing x with
  | nil => exact h
  | cons first rest ih => exact ih (B.reviveStep h first)

/-- **A program that was put back** goes on, when each of its steps was told that it runs again. -/
theorem revive {program : LiveProgram} {saved : SavedProgram}
    (h : I { x with program, lane := .serving, inbox := [], loading := .none } none []) :
    I (x.revive saved program) none [] := by
  let loaded : Execution := { x with program, lane := .serving, inbox := [], loading := .none }
  let revived : Execution := saved.steps.foldl Execution.reviveStep loaded
  let ready : Execution := { revived with stage := .ready }
  have hready : I ready none [] := by
    refine B.outside (B.reviveSteps h saved.steps) rfl rfl rfl rfl fun n hn => .inl ?_
    exact (show SameWaits revived ready from ⟨rfl, rfl, rfl⟩).named hn
  unfold Execution.revive
  dsimp only
  split
  · exact hready
  · exact B.quiet hready (quiet_submit _ _) (light_submit _ _)

end Books

/-- **An execution that is loaded again goes on in order.** -/
theorem Going.revive (h : Going y origin none []) (hsound : Sound y none) (hrecovers : Recovers y z)
    {program : LiveProgram} (hrestored : restoreProgram Step.standard z.clock
      (y.program.save Step.standard) = .ok program) :
    Going (z.revive (y.program.save Step.standard) program) origin none [] := by
  refine (books origin).revive (h.reloaded hsound ?_ hrestored)
  obtain ⟨hsane, hshapes, hindex, hengine, htimers, hboard, hstopping⟩ := hrecovers
  exact ⟨hsane, hshapes, hindex, hengine, htimers, hboard, hstopping⟩

end Execution

end DurableFlow
