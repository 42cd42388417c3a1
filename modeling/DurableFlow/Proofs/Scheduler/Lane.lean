/-
The invariant over the turns of the lane.

A job leaves the queue before it is done. That breaks the invariant where the job was
what announced an outcome or a body, and doing the job mends it: the outcome is handed
over, the bodies are started. Doing a job does not look at the queue, so it may as well
be done first and taken from the queue afterwards.
-/
import DurableFlow.Proofs.Scheduler.Threads

set_option autoImplicit false

namespace DurableFlow

open Script History

namespace Execution

/-! ## What does not look at the queue -/

/-- The same execution with other jobs. -/
def withJobs (x : Execution) (jobs : List Job) : Execution := { x with inbox := jobs }

/-- An operation that does the same whatever jobs wait, and leaves them alone. -/
def Blind {α : Type} (act : Act α) : Prop :=
  ∀ x jobs, act (x.withJobs jobs) = ((act x).1, (act x).2.withJobs jobs)

namespace Blind

variable {α β : Type}

theorem pure (a : α) : Blind (Pure.pure a : Act α) := fun _ _ => rfl

theorem bind {act : Act α} {next : α → Act β} (hact : Blind act) (hnext : ∀ a, Blind (next a)) :
    Blind (act >>= next) := by
  intro x jobs
  show Attempt.andThen act next (x.withJobs jobs) = _
  unfold Attempt.andThen
  rw [hact x jobs]
  show _ = ((Attempt.andThen act next x).1, (Attempt.andThen act next x).2.withJobs jobs)
  unfold Attempt.andThen
  generalize act x = done
  obtain ⟨result, y⟩ := done
  cases result with
  | ok a => exact hnext a y jobs
  | error e => rfl

theorem ite {c : Prop} [Decidable c] {act act' : Act α} (h : Blind act) (h' : Blind act') :
    Blind (if c then act else act') := by
  split
  · exact h
  · exact h'

theorem onArchive (act : Attempt Archive α) : Blind (onArchive act) := fun _ _ => rfl

end Blind

theorem blind_requireHead (head : Nat) : Blind (requireHead head) := by
  intro x jobs
  show requireHead head (x.withJobs jobs) = _
  unfold requireHead
  rw [show (x.withJobs jobs).headTip head = x.headTip head from rfl]
  split <;> rfl

theorem blind_endParents (head : Nat) (tips : List Nat) : Blind (endParents head tips) := by
  unfold endParents
  exact .ite ((blind_requireHead head).bind fun _ => .pure _) (.pure _)

theorem blind_storeNode (node : Node) : Blind (storeNode node) := fun _ _ => rfl

theorem blind_markFailed (node : Node) (error : Option Failure) :
    Blind (markFailed node error) := by
  cases error with
  | none => exact .pure _
  | some failure => exact blind_storeNode _

theorem blind_closeBlock (head start : Nat) (tips : List Nat) (error : Option Failure) :
    Blind (closeBlock head start tips error) := by
  refine Blind.bind (fun _ _ => rfl) fun _ => ?_
  refine (blind_endParents head tips).bind fun parents => ?_
  refine Blind.bind (fun _ _ => rfl) fun startNode => ?_
  refine (blind_markFailed startNode error).bind fun _ => ?_
  refine Blind.bind (fun _ _ => rfl) fun id => ?_
  refine Blind.bind (fun _ _ => rfl) fun now => ?_
  refine (blind_storeNode _).bind fun _ => ?_
  refine (Blind.onArchive _).bind fun _ => ?_
  refine (Blind.onArchive _).bind fun _ => ?_
  exact Blind.bind (fun _ _ => rfl) fun _ => .pure _

theorem blind_closeAtom (node : Nat) (error : Option Failure) : Blind (closeAtom node error) := by
  unfold closeAtom
  refine .ite ?_ (Blind.onArchive _)
  refine Blind.bind (fun _ _ => rfl) fun stored => ?_
  exact (blind_storeNode _).bind fun _ => .onArchive _

theorem blind_closeStepNode (step : LiveStep) (error : Option Failure) :
    Blind (closeStepNode step error) := by
  unfold closeStepNode
  exact .ite ((blind_closeBlock _ _ _ _).bind fun _ => .pure _) (blind_closeAtom _ _)

theorem adjustStep_withJobs (x : Execution) (jobs : List Job) (node : Nat)
    (f : LiveStep → LiveStep) :
    (x.withJobs jobs).adjustStep node f = (x.adjustStep node f).withJobs jobs := by
  unfold adjustStep
  rw [show (x.withJobs jobs).program = x.program from rfl]
  split <;> rfl

theorem finishStep_withJobs (x : Execution) (jobs : List Job) (node : Nat) (outcome : Outcome) :
    (x.withJobs jobs).finishStep node outcome = (x.finishStep node outcome).withJobs jobs := by
  unfold finishStep
  rw [show (x.withJobs jobs).program = x.program from rfl]
  split
  · rfl
  · next step _ =>
    let dropped : Execution := { x with
      program := x.program.dropStep step
      retired := Table.insert node step x.retired }
    exact congrArg Prod.snd (blind_closeStepNode step (failureOf? outcome) dropped jobs)

theorem resumeThread_withJobs (x : Execution) (jobs : List Job) (id : Nat) (outcome : Outcome) :
    (x.withJobs jobs).resumeThread id outcome = (x.resumeThread id outcome).withJobs jobs := by
  unfold resumeThread
  rw [show (x.withJobs jobs).program = x.program from rfl]
  split
  · rfl
  · dsimp only
    split <;> rfl

/-- **Handing an outcome over does not look at the queue.** -/
theorem completeStep_withJobs (x : Execution) (jobs : List Job) (node : Nat) :
    (x.withJobs jobs).completeStep node = (x.completeStep node).withJobs jobs := by
  unfold completeStep
  rw [show (x.withJobs jobs).program = x.program from rfl]
  split
  · rfl
  · split
    · rfl
    · dsimp only
      rw [adjustStep_withJobs, finishStep_withJobs, resumeThread_withJobs]

theorem takeBodies_withJobs (x : Execution) (jobs : List Job) (node : Nat) :
    (x.withJobs jobs).takeBodies node =
      ((x.takeBodies node).1, (x.takeBodies node).2.withJobs jobs) := by
  unfold takeBodies
  rw [show (x.withJobs jobs).program = x.program from rfl]
  split
  · rfl
  · dsimp only
    rw [adjustStep_withJobs]

/-! ## Jobs -/

/-- What a job is queued for. -/
def Announces (job : Job) (n : Nat) (cell : StepCell) : Prop :=
  job = .completeStep n ∧ cell.outcome.isSome = true ∨ job = .startBodies n ∧ cell.bodies ≠ []

namespace Sound

variable {x : Execution}

/-- **A job that announces nothing is taken from the queue.** -/
theorem unqueue (h : Sound x none) {job : Job} {rest : List Job} (hinbox : x.inbox = job :: rest)
    (hdone : ∀ n step, x.program.stepAt n = some step → ¬ Announces job n step.cell) :
    Sound (x.withJobs rest) none := by
  refine ⟨h.threadsSorted, h.stepsSorted, h.closuresSorted, h.out, h.input, h.links, h.exports,
    h.rooted, h.threadNumber, h.stepNumber, h.bodyNumber, ?_, h.lost⟩
  intro n step hstep
  have hok := h.cells hstep
  have hother := hdone n step hstep
  refine ⟨hok.unmarked, hok.mode, fun hlane hasync hsome => ?_, fun honce hlane hasync hne => ?_⟩
  · have hmem := hok.outcome hlane hasync hsome
    rw [hinbox, List.mem_cons] at hmem
    exact hmem.resolve_left fun heq => hother (.inl ⟨heq.symm, hsome⟩)
  · have hmem := hok.bodies honce hlane hasync hne
    rw [hinbox, List.mem_cons] at hmem
    exact hmem.resolve_left fun heq => hother (.inr ⟨heq.symm, hne⟩)

/-- Between jobs every live step is asynchronous. -/
theorem isAsync (h : Sound x none) {n : Nat} {step : LiveStep}
    (hstep : x.program.stepAt n = some step) : step.cell.isAsync = true :=
  (h.cells hstep).mode.mpr fun ⟨_, hno, _⟩ => (by cases hno)

/-- A step that is live after its outcome was asked for has none. -/
theorem outcome_of_completeStep (h : Sound x none) {node : Nat} {step : LiveStep}
    (hstep : (x.completeStep node).program.stepAt node = some step) : step.cell.outcome = none := by
  have hbefore := h.stepAt_of_completeStep hstep
  have hfound : Table.find? node x.program.steps = some step := hbefore
  cases houtcome : step.cell.outcome with
  | none => rfl
  | some outcome =>
    have htake := take_of_unmarked houtcome ((h.cells hbefore).unmarked outcome houtcome)
    simp only [Execution.completeStep, hfound, htake] at hstep
    rw [stepAt_resumeThread, (h.dropped hbefore _ outcome).steps, changed_self] at hstep
    cases hstep

/-- **An outcome is handed over** by the job that announced it. -/
theorem handleComplete (h : Sound x none) {node : Nat} {rest : List Job}
    (hinbox : x.inbox = .completeStep node :: rest) :
    Sound ((x.withJobs rest).completeStep node) none := by
  -- no job is added, so the job that is done is still the first
  have hkept : (x.completeStep node).inbox = x.inbox := by
    have hsame := completeStep_withJobs x x.inbox node
    rw [show x.withJobs x.inbox = x from rfl] at hsame
    rw [hsame]
    rfl
  have hdone := h.completeStep node fun _ => h.isAsync
  rw [completeStep_withJobs]
  refine hdone.unqueue (hkept.trans hinbox) fun n step hstep => ?_
  rintro (⟨heq, hsome⟩ | ⟨heq, _⟩)
  · cases heq
    rw [h.outcome_of_completeStep hstep] at hsome
    cases hsome
  · cases heq

/-- **Bodies are started** by the job that announced them. -/
theorem handleStart (h : Sound x none) {node : Nat} {rest : List Job}
    (hinbox : x.inbox = .startBodies node :: rest) :
    Sound ((x.withJobs rest).startBodies node) none := by
  -- the bodies are taken while their job is still queued; after that it announces nothing
  have htaken : Sound (x.takeBodies node).2 none :=
    (Steady.takeBodies h fun _ _ _ ⟨_, hno, _⟩ _ => (by cases hno)).toSound
  have hkept : (x.takeBodies node).2.inbox = x.inbox := by
    have hsame := congrArg (fun taken => taken.2.inbox) (takeBodies_withJobs x x.inbox node)
    exact hsame
  unfold Execution.startBodies
  rw [takeBodies_withJobs]
  refine ((Steady.of_idle (htaken.unqueue (hkept.trans hinbox) ?_)).doTasks (taskLimit _) _).toSound
  intro n step hstep
  rintro (⟨heq, _⟩ | ⟨heq, hne⟩)
  · cases heq
  · cases heq
    exact hne (bodies_of_takeBodies hstep)

/-! ## Stopping -/

/-- Only threads that wait for no step are told. -/
theorem injectIdle (h : Sound x none) (scope : Option Nat) (cause : Failure) :
    Sound (x.injectIdle scope cause) none := by
  let tell (thread : Thread) : Thread :=
    if x.isIdleIn scope thread then thread.inject cause else thread
  have hlike : ∀ thread, (tell thread).Like thread := by
    intro thread
    unfold tell
    split <;> exact ⟨rfl, rfl, rfl⟩
  have hthreads : (x.injectIdle scope cause).program.threadAt none =
      fun t => (x.program.threadAt none t).map tell := by
    funext t
    exact Table.find?_mapValues tell t x.program.threads
  have honward : Onward x (x.injectIdle scope cause) := onward_mapProgram x
    fun p => { p with threads := Table.mapValues tell p.threads }
  refine h.reseat honward rfl ?_ (h.threadsSorted.mapValues tell)
    (fun _ hno => (by cases hno)) ?_ fun _ => Iff.rfl
  · rw [hthreads]
    exact .map fun _ => hlike
  · intro t thread hthread
    have hfound : (x.injectIdle scope cause).program.threadAt none t = some thread := hthread
    rw [hthreads] at hfound
    obtain ⟨old, hold, rfl⟩ := Option.map_eq_some_iff.mp hfound
    unfold tell
    split
    · next hidle =>
      have hnone : old.step = none := by
        unfold isIdleIn at hidle
        simp only [Bool.and_eq_true, Option.isNone_iff_eq_none] at hidle
        exact hidle.1.1
      exact ⟨fun _ => hnone, fun _ => rfl⟩
    · exact h.input hold

theorem orderStop (h : Sound x none) (scope : Option Nat) (cause : Failure) :
    Sound (x.orderStop scope cause) none :=
  (h.injectIdle scope cause).calm (.of_eq rfl rfl rfl rfl (Nat.le_refl _) rfl rfl)

/-! ## Turns -/

/-- **A job is taken from the queue and done.** -/
theorem handle (h : Sound x none) {job : Job} {rest : List Job} (hinbox : x.inbox = job :: rest) :
    Sound ((x.withJobs rest).handle job) none := by
  have hnothing : (∀ n cell, ¬ Announces job n cell) → Sound (x.withJobs rest) none :=
    fun hjob => h.unqueue hinbox fun n step _ => hjob n step.cell
  cases job with
  | completeStep node => exact h.handleComplete hinbox
  | startBodies node => exact h.handleStart hinbox
  | run => exact hnothing fun _ _ => by rintro (⟨hno, _⟩ | ⟨hno, _⟩) <;> cases hno
  | checkpoint =>
    have hunqueued := hnothing fun _ _ => by rintro (⟨hno, _⟩ | ⟨hno, _⟩) <;> cases hno
    exact hunqueued.quiet (Quiet.alongCheckpoints.saveCheckpoint _)
  | stopTargets scope cause =>
    have hunqueued := hnothing fun _ _ => by rintro (⟨hno, _⟩ | ⟨hno, _⟩) <;> cases hno
    exact hunqueued.orderStop scope cause

/-- **The program ends**, and with it the execution. -/
theorem endProgram (h : Sound x none) : Sound x.endProgram none := by
  let ended (p : LiveProgram) : LiveProgram := { p with finished := true, rootOutcome := none }
  have hended : Sound (x.mapProgram ended) none := by
    refine ⟨h.threadsSorted, h.stepsSorted, h.closuresSorted, h.out, h.input, h.links, h.exports,
      ?_, h.threadNumber, h.stepNumber, h.bodyNumber, ?_, h.lost⟩
    · exact ⟨fun hno => (by cases hno), h.rooted.one⟩
    · intro n step hstep
      exact (h.cells hstep).onward (onward_mapProgram x ended)
  exact hended.quiet (quiet_finish _ _)

theorem close (h : Sound x none) (advanced : Bool) :
    Sound (Turn.close { advanced, execution := x }) none := by
  unfold Turn.close
  dsimp only
  split
  · exact h
  · split
    · exact h.endProgram
    · split
      · exact h.quiet (Quiet.alongCheckpoints.whenIdle x)
      · exact h

end Sound

end Execution

end DurableFlow
