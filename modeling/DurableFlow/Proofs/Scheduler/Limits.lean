/-
Limits: work that may go on for long is counted, and the counts are never felt.

Tasks about the bodies of a step are done up to a limit. A standard step that hears of the end of a body
asks for no further one, so a body that is started leads to one more task at most. The limit is twice the
number of tasks and more, and no task is left over.

A thread goes through steps that are over at once up to a limit, and then it gives way. It is put back with
the input that it would have gone on with, and its next turn goes on from there. So such a limit divides
one long turn among several, and a turn that ends before it is the same under any greater one.
-/
import Mathlib.Logic.Function.Iterate
import DurableFlow.Proofs.Scheduler.Rounds
import DurableFlow.Proofs.Step.Standard

set_option autoImplicit false

namespace DurableFlow

open Script

namespace Execution

variable {x y : Execution} {running : Option Thread} {node : Nat}

/-! ## Tasks -/

/-- **All tasks are done**, with those that they lead to, and so many there are. -/
inductive AllDone : Nat → List BodyTask → Execution → Execution → Prop where
  | done (x : Execution) : AllDone 0 [] x x
  | task {n : Nat} {task : BodyTask} {rest : List BodyTask} {x y : Execution}
    (h : AllDone n ((x.bodyTask task).1 ++ rest) (x.bodyTask task).2 y) : AllDone (n + 1) (task :: rest) x y

/-- **What is done within the limit** is what is done without one. -/
theorem AllDone.doTasks_eq {n fuel : Nat} {tasks : List BodyTask} (h : AllDone n tasks x y) (hn : n ≤ fuel) :
    doTasks fuel tasks x = y := by
  induction h generalizing fuel with
  | done x => cases fuel <;> rfl
  | task _ ih =>
    cases fuel with
    | zero => exact absurd hn (Nat.not_succ_le_zero _)
    | succ fuel => exact ih (Nat.le_of_succ_le_succ hn)

/-- The step that a task is about. -/
def BodyTask.step : BodyTask → Nat
  | .start step _ => step
  | .conclude step => step

/-- How many tasks a task may come to. -/
def BodyTask.weight : BodyTask → Nat
  | .start _ _ => 2
  | .conclude _ => 1

/-- No body of a step is queued. -/
def Emptied (x : Execution) (node : Nat) : Prop :=
  ∀ step, x.program.stepAt node = some step → step.cell.bodies = []

namespace Emptied

theorem quiet (h : Emptied x node) (hxy : Quiet x y) : Emptied y node := by
  intro step hstep
  rw [hxy.program] at hstep
  exact h step hstep

theorem adjust (h : Emptied x node) (n : Nat) (f : LiveStep → LiveStep) (hf : ∀ step, (f step).cell = step.cell) :
    Emptied (x.mapProgram (·.adjustStep n f)) node := by
  intro step hstep
  obtain ⟨old, hold, hafter⟩ := LiveProgram.stepAt_adjustStep_cases hstep
  rcases hafter with rfl | rfl
  · exact h _ hold
  · rw [hf]
    exact h _ hold

theorem closeBranch? (h : Emptied x node) (n : Nat) (branch : Option Branch) (error : Option Failure) :
    Emptied (x.closeBranch? n branch error) node := by
  cases branch with
  | none => exact h
  | some branch =>
    show Emptied (x.closeBranch n branch error) node
    unfold Execution.closeBranch
    split
    · next heq => exact (h.quiet ((Quiet.alongWrites.endBranch branch error).leads heq)).adjust n _ fun _ => rfl
    · next heq => exact h.quiet ((Quiet.alongWrites.endBranch branch error).leads heq)

/-- **A standard step that hears of the end of a body asks for none.** -/
theorem onBody (h : Emptied x node) (hsteps : x.engine.steps = Step.standard) {step : LiveStep} {d : StepDef}
    (hstep : x.program.stepAt node = some step) (hd : x.stepDef? step.function = some d) (index : Nat)
    (outcome : Outcome) : Emptied (x.react node (d.onBody (x.viewOf step) index outcome)) node := by
  have hmem : d ∈ Step.standard := by
    unfold stepDef? at hd
    rw [hsteps] at hd
    exact (Step.mem_standard hd).2
  have hnone : ∀ effect ∈ (d.onBody (x.viewOf step) index outcome).effects, effect.startsBody = false := by
    rw [Step.onBody_standard d hmem]
    unfold Step.branchDone
    split
    · dsimp only
      split
      · exact fun _ hno => absurd hno List.not_mem_nil
      · exact fun effect he => List.mem_singleton.mp he ▸ rfl
    · exact fun effect he => List.mem_singleton.mp he ▸ rfl
  intro after hafter
  rw [stepAt_react hstep] at hafter
  cases hafter
  exact (StepCell.bodies_effects hnone).trans (h step hstep)

/-- No task comes of bodies that are not there. -/
theorem takeBodies (h : Emptied x node) : (x.takeBodies node).1 = [] := by
  unfold Execution.takeBodies
  split
  · rfl
  · next step hstep =>
    dsimp only [StepCell.drainBodies]
    rw [h step hstep]
    rfl

/-- **When a body has ended** it is seen whether the step is over, and nothing else is left to do. -/
theorem bodyEnded (h : Emptied x node) (hsteps : x.engine.steps = Step.standard) (index : Nat)
    (outcome : Outcome) :
    (∀ task ∈ (x.bodyEnded node index outcome).1, task = .conclude node) ∧
      (x.bodyEnded node index outcome).1.length ≤ 1 ∧ Emptied (x.bodyEnded node index outcome).2 node := by
  unfold Execution.bodyEnded
  split
  · exact ⟨fun _ hno => absurd hno List.not_mem_nil, Nat.zero_le 1, h⟩
  · next step hstep =>
    dsimp only
    have htold : ∀ y, Emptied y node →
        (∀ task ∈ (y.takeBodies node).1 ++ [.conclude node], task = .conclude node) ∧
          ((y.takeBodies node).1 ++ [BodyTask.conclude node]).length ≤ 1 ∧ Emptied (y.takeBodies node).2 node := by
      intro y hy
      rw [hy.takeBodies]
      exact ⟨fun _ hmem => List.mem_singleton.mp hmem, Nat.le_refl 1, fun _ => bodies_of_takeBodies⟩
    split
    · next d hd => exact htold _ (h.onBody hsteps hstep hd index outcome)
    · exact htold x h

end Emptied

/-- What is left to do about the bodies of a step: tasks about this step only, while none of its bodies is
queued. -/
structure Left (x : Execution) (running : Option Thread) (node : Nat) (tasks : List BodyTask) : Prop where
  steady : Steady x running
  steps : x.engine.steps = Step.standard
  emptied : Emptied x node
  own : ∀ task ∈ tasks, task.step = node

/-- How many tasks are left at most. -/
def workOf : List BodyTask → Nat
  | [] => 0
  | task :: rest => task.weight + workOf rest

theorem workOf_append (tasks rest : List BodyTask) : workOf (tasks ++ rest) = workOf tasks + workOf rest := by
  induction tasks with
  | nil => exact (Nat.zero_add _).symm
  | cons task tasks ih =>
    show task.weight + workOf (tasks ++ rest) = task.weight + workOf tasks + workOf rest
    rw [ih, Nat.add_assoc]

theorem workOf_concludes {tasks : List BodyTask} (hall : ∀ task ∈ tasks, task = .conclude node) :
    workOf tasks = tasks.length := by
  induction tasks with
  | nil => rfl
  | cons task rest ih =>
    have hrest := ih fun other hmem => hall other (List.mem_cons_of_mem _ hmem)
    rw [hall task List.mem_cons_self]
    show 1 + workOf rest = rest.length + 1
    rw [hrest, Nat.add_comm]

theorem workOf_le (tasks : List BodyTask) : workOf tasks ≤ 2 * tasks.length := by
  induction tasks with
  | nil => exact Nat.le_refl 0
  | cons task rest ih =>
    have hweight : task.weight ≤ 2 := by cases task <;> simp [BodyTask.weight]
    show task.weight + workOf rest ≤ 2 * (rest.length + 1)
    omega

/-- **A body that is started** leads to one more task at most. -/
theorem Emptied.startBody (h : Emptied x node) (hsteps : x.engine.steps = Step.standard) {step : LiveStep}
    (hnode : step.node = node) (body : PendingBody) :
    (∀ task ∈ (x.startBody step body).1, task = .conclude node) ∧ (x.startBody step body).1.length ≤ 1 ∧
      Emptied (x.startBody step body).2 node := by
  subst hnode
  unfold Execution.startBody
  split
  · exact h.bodyEnded hsteps _ _
  · split
    · next e y heq =>
      have hquiet := (Quiet.alongWrites.openBranch? step.head body.branch).leads heq
      exact (h.quiet hquiet).bodyEnded (by rw [hquiet.rest]; exact hsteps) _ _
    · next branch y heq =>
      have hquiet := (Quiet.alongWrites.openBranch? step.head body.branch).leads heq
      have hy := h.quiet hquiet
      have hysteps : y.engine.steps = Step.standard := by
        rw [hquiet.rest]
        exact hsteps
      split
      · next outcome _ =>
        have hclosed := Becomes.closeBranch? y none step.node branch (failureOf? outcome)
        exact (hy.closeBranch? step.node branch (failureOf? outcome)).bodyEnded (hclosed.engine ▸ hysteps) _ _
      -- a body that goes on has a thread, and its step one more child
      · refine ⟨fun _ hno => absurd hno List.not_mem_nil, Nat.zero_le 1, ?_⟩
        have hadded : ∀ machine, Emptied (y.addThread machine ((branch.map Branch.head).getD step.head)
            (Table.insertAll body.overrides step.vars) (.body step.node body.index branch) (.ok .null)).2 step.node :=
          fun _ => hy
        exact (hadded _).adjust step.node _ fun _ => rfl

/-- **A task leaves less to do.** -/
theorem Left.bodyTask {task : BodyTask} {rest : List BodyTask} (h : Left x running node (task :: rest)) :
    Left (x.bodyTask task).2 running node ((x.bodyTask task).1 ++ rest) ∧
      workOf ((x.bodyTask task).1 ++ rest) < workOf (task :: rest) := by
  have hsteps := (Becomes.bodyTask x none task).engine ▸ h.steps
  have hrest : ∀ other ∈ rest, other.step = node := fun other hmem => h.own other (List.mem_cons_of_mem _ hmem)
  have hnode := h.own task List.mem_cons_self
  suffices hled : (∀ more ∈ (x.bodyTask task).1, more = .conclude node) ∧
      (x.bodyTask task).1.length < task.weight ∧ Emptied (x.bodyTask task).2 node by
    obtain ⟨hmore, hless, hemptied⟩ := hled
    refine ⟨⟨h.steady.bodyTask task, hsteps, hemptied, fun other hmem => ?_⟩, ?_⟩
    · rcases List.mem_append.mp hmem with hnew | hold
      · rw [hmore other hnew]
        rfl
      · exact hrest other hold
    · rw [workOf_append, workOf_concludes hmore]
      exact Nat.add_lt_add_right hless _
  have hnothing : ∀ y, Emptied y node → (∀ more ∈ ([] : List BodyTask), more = .conclude node) ∧
      ([] : List BodyTask).length < task.weight ∧ Emptied y node := by
    intro y hy
    exact ⟨fun _ hno => absurd hno List.not_mem_nil, by cases task <;> simp [BodyTask.weight], hy⟩
  cases task with
  | start n body =>
    obtain rfl : n = node := hnode
    simp only [Execution.bodyTask]
    split
    · exact hnothing x h.emptied
    · next step hstep =>
      obtain ⟨hmore, hlength, hemptied⟩ := h.emptied.startBody h.steps (h.steady.links.node hstep) body
      exact ⟨hmore, Nat.lt_succ_of_le hlength, hemptied⟩
  | conclude n =>
    obtain rfl : n = node := hnode
    simp only [Execution.bodyTask]
    split
    · exact hnothing x h.emptied
    · split
      · exact hnothing _ fun step hstep => h.emptied step (h.steady.toSound.stepAt_of_completeStep hstep)
      · exact hnothing x h.emptied

/-- **All that is left is done**, in as many tasks as were counted. -/
theorem Left.allDone {tasks : List BodyTask} (h : Left x running node tasks) :
    ∃ n y, n ≤ workOf tasks ∧ AllDone n tasks x y := by
  -- the work that is left goes down with each task
  generalize hwork : workOf tasks = work
  induction work using Nat.strongRecOn generalizing x tasks with
  | ind work ih =>
    cases tasks with
    | nil => exact ⟨0, x, Nat.zero_le _, .done x⟩
    | cons task rest =>
      obtain ⟨hleft, hless⟩ := h.bodyTask
      obtain ⟨n, y, hn, hdone⟩ := ih _ (hwork ▸ hless) hleft rfl
      exact ⟨n + 1, y, Nat.le_trans (Nat.succ_le_succ hn) (hwork ▸ hless), .task hdone⟩

/-- **The limit of tasks is never reached**: what is done is all there was to do. -/
theorem Left.doTasks {tasks : List BodyTask} (h : Left x running node tasks) :
    ∃ n, AllDone n tasks x (doTasks (taskLimit tasks) tasks x) := by
  obtain ⟨n, y, hn, hdone⟩ := h.allDone
  have hlimit : n ≤ taskLimit tasks :=
    Nat.le_trans hn (Nat.le_trans (workOf_le tasks) (Nat.le_add_left _ _))
  exact ⟨n, hdone.doTasks_eq hlimit ▸ hdone⟩

theorem step_of_mem_takeBodies {task : BodyTask} (h : task ∈ (x.takeBodies node).1) : task.step = node := by
  unfold Execution.takeBodies at h
  split at h
  · cases h
  · obtain ⟨body, _, rfl⟩ := List.mem_map.mp h
    rfl

/-- When a body has ended, the tasks are about its step, which has no body queued. -/
theorem left_bodyEnded (h : Steady x running) (hsteps : x.engine.steps = Step.standard) (node index : Nat)
    (outcome : Outcome) : Left (x.bodyEnded node index outcome).2 running node (x.bodyEnded node index outcome).1 := by
  refine ⟨h.bodyEnded node index outcome, ?_, ?_, ?_⟩
  · exact (Becomes.bodyEnded x none node index outcome).engine ▸ hsteps
  · unfold Execution.bodyEnded
    split
    · next hnone =>
      intro step hstep
      cases hnone.symm.trans hstep
    · exact fun _ => bodies_of_takeBodies
  · unfold Execution.bodyEnded
    split
    · exact fun _ hno => absurd hno List.not_mem_nil
    · intro task hmem
      rcases List.mem_append.mp hmem with htaken | hlast
      · exact step_of_mem_takeBodies htaken
      · rw [List.mem_singleton.mp hlast]
        rfl

/-- **All bodies that a standard step has queued are started**, with all that follows. -/
theorem startBodies_does_all (h : Sound x running) (hothers : DrainedBut x running node)
    (hsteps : x.engine.steps = Step.standard) :
    ∃ n, AllDone n (x.takeBodies node).1 (x.takeBodies node).2 (x.startBodies node) := by
  have hleft : Left (x.takeBodies node).2 running node (x.takeBodies node).1 := by
    refine ⟨.takeBodies h hothers, ?_, fun _ => bodies_of_takeBodies, fun _ => step_of_mem_takeBodies⟩
    exact ((Becomes.alongCells none node).takeBodies x).engine ▸ hsteps
  exact hleft.doTasks

/-- **All that the end of a body leads to is done.** -/
theorem endBody_does_all (h : Steady x running) (hsteps : x.engine.steps = Step.standard) (node index : Nat)
    (outcome : Outcome) :
    ∃ n, AllDone n (x.bodyEnded node index outcome).1 (x.bodyEnded node index outcome).2
      (x.endBody node index outcome) :=
  (left_bodyEnded h hsteps node index outcome).doTasks

/-! ## Turns -/

/-- **A thread goes through calls** of steps that are over at once, so many of them. -/
inductive Passes : Nat → Execution → Thread → Outcome → Execution → Thread → Outcome → Prop where
  | here (x : Execution) (thread : Thread) (input : Outcome) : Passes 0 x thread input x thread input
  | call {n : Nat} {x y : Execution} {first thread : Thread} {start input outcome : Outcome}
    {request : StepRequest} {machine : Machine} (h : Passes n x first start y thread input)
    (calls : driveUnder y.policy thread.machine input = .yielded (.step request) machine)
    (answered : (y.startStep { thread with machine } request).outcome = some outcome) :
    Passes (n + 1) x first start (y.startStep { thread with machine } request).execution
      (y.startStep { thread with machine } request).thread outcome

section Turns

variable {first thread : Thread} {start input : Outcome} {n : Nat}

/-- What is left of a turn is what the thread does from there. -/
theorem Passes.driveThread_eq (h : Passes n x first start y thread input) (fuel : Nat) :
    driveThread (n + fuel) x first start = driveThread fuel y thread input := by
  induction h generalizing fuel with
  | here => rw [Nat.zero_add]
  | @call n x y first thread start input outcome request machine _ calls answered ih =>
    rw [Nat.add_right_comm, Nat.add_assoc, ih, driveThread, calls]
    dsimp only
    rw [answered]

/-- Some of the calls come first. -/
theorem Passes.split {m : Nat} (h : Passes (m + n) x first start y thread input) :
    ∃ z between after, Passes m x first start z between after := by
  induction n generalizing y thread input with
  | zero => exact ⟨y, thread, input, h⟩
  | succ n ih =>
    cases h with
    | call h _ _ => exact ih h

/-- **A turn that ends before the limit is the same under any greater one.** -/
theorem passes_or_ends (n : Nat) (x : Execution) (first : Thread) (start : Outcome) :
    (∃ y thread input, Passes n x first start y thread input) ∨
      ∀ more, driveThread (n + more) x first start = driveThread n x first start := by
  induction n with
  | zero => exact .inl ⟨x, first, start, .here x first start⟩
  | succ n ih =>
    rcases ih with ⟨y, thread, input, hpasses⟩ | hends
    · -- the next move of the thread is one more call that is over at once, or the end of the turn
      have hnext := fun more => hpasses.driveThread_eq (1 + more)
      by_cases hgoes : ∃ request machine outcome,
          driveUnder y.policy thread.machine input = .yielded (.step request) machine ∧
            (y.startStep { thread with machine } request).outcome = some outcome
      · obtain ⟨request, machine, outcome, hcalls, hover⟩ := hgoes
        exact .inl ⟨_, _, _, hpasses.call hcalls hover⟩
      · refine .inr fun more => ?_
        have hsame : driveThread (1 + more) y thread input = driveThread 1 y thread input := by
          rw [Nat.add_comm 1 more, driveThread, driveThread]
          cases hdrive : driveUnder y.policy thread.machine input with
          | pending machine input => rfl
          | yielded yielded machine =>
            cases yielded with
            | safepoint => rfl
            | completed outcome => rfl
            | step request =>
              cases hover : (y.startStep { thread with machine } request).outcome with
              | none =>
                dsimp only
                rw [hover]
              | some outcome => exact absurd ⟨request, machine, outcome, hdrive, hover⟩ hgoes
        rw [Nat.add_assoc, hnext, hsame]
        exact (hpasses.driveThread_eq 1).symm
    · exact .inr fun more => by rw [Nat.add_assoc, hends, hends]

/-- **A thread is taken out** to have its turn. -/
def takenOut (x : Execution) (id : Nat) : Execution :=
  (x.mapProgram fun p => { p with lastRun := some id }).mapProgram (·.dropThread id)

theorem runThread_eq {id : Nat} (hfound : Table.find? id x.program.threads = some thread)
    (hinput : thread.input = some input) :
    x.runThread id = driveThread stepLimit (x.takenOut id) { thread with input := none } input := by
  have hlast : Table.find? id (x.mapProgram fun p => { p with lastRun := some id }).program.threads =
      some thread := hfound
  unfold Execution.runThread
  dsimp only
  rw [hlast]
  dsimp only
  rw [hinput]
  rfl

/-- A call leaves a thread its number. -/
theorem id_startStep (x : Execution) (thread : Thread) (request : StepRequest) :
    (x.startStep thread request).thread.id = thread.id := by
  have hawait : ∀ (y : Execution) (waiting : Thread) (node : Nat),
      (y.awaitStep waiting node).thread.id = waiting.id := by
    intro y waiting node
    unfold awaitStep
    split
    · rfl
    · split
      · rfl
      · split <;> rfl
  unfold Execution.startStep
  dsimp only
  split
  · rfl
  · split
    · rfl
    · split
      · rfl
      · split
        · rfl
        · unfold launch
          exact hawait _ _ _

/-- **A thread that goes through calls** is out of the program, waits for nothing, and has its turn. -/
theorem Passes.keeps {id : Nat} (h : Passes n x first start y thread input) (hsound : Sound x (some first))
    (hidle : first.step = none) (hlast : x.program.lastRun = some id) (hid : first.id = id) :
    Sound y (some thread) ∧ thread.step = none ∧ y.program.lastRun = some id ∧ thread.id = id := by
  induction h with
  | here => exact ⟨hsound, hidle, hlast, hid⟩
  | @call n x y first thread start input outcome request machine _ calls answered ih =>
    obtain ⟨hsound, hidle, hlast, hid⟩ := ih hsound hidle hlast hid
    have hgoes : Sound y (some { thread with machine }) :=
      hsound.running_like ⟨rfl, rfl, rfl⟩ (hsound.out thread rfl).2
    have hsettled := hgoes.startStep hidle request
    have hsame : SameTurn y (y.startStep { thread with machine } request).execution :=
      .of_becomes (.startStep y { thread with machine } request)
    unfold StepCall.Settled at hsettled
    rw [answered] at hsettled
    exact ⟨hsettled.1, hsettled.2, hsame.last.trans hlast, (id_startStep y _ request).trans hid⟩

/-- A thread that was put back is taken out again. -/
theorem takenOut_putThread {id : Nat} (h : Sound y (some thread)) (hlast : y.program.lastRun = some id)
    (hid : thread.id = id) (input : Option Outcome) :
    (y.mapProgram (·.putThread { thread with input })).takenOut id = y := by
  have hprogram : ({ y.program.putThread { thread with input } with lastRun := some id }).dropThread id =
      y.program := by
    subst hid
    rw [← hlast]
    have hthreads := h.threadsSorted.erase_insert (h.out thread rfl).1 { thread with input }
    unfold LiveProgram.dropThread LiveProgram.putThread
    dsimp only
    rw [hthreads]
  exact congrArg (fun program => { y with program }) hprogram

/-- **A thread that gives way goes on with its next turn.** As long as the thread comes to the limit in each
of its turns, one after the other, together they are one longer turn. -/
theorem turns_are_one {id : Nat} (h : Sound x none) (hfound : Table.find? id x.program.threads = some first)
    (hinput : first.input = some start)
    (hgoes : Passes (n * stepLimit) (x.takenOut id) { first with input := none } start y thread input) :
    (fun z : Execution => z.runThread id)^[n + 1] x =
      driveThread ((n + 1) * stepLimit) (x.takenOut id) { first with input := none } start := by
  have hlast := h.ranLast (some id)
  have hidle : first.step = none := (h.input hfound).mp (by rw [hinput]; rfl)
  have hnumber : first.id = id := h.links.id hfound
  have hout : Sound (x.takenOut id) (some { first with input := none }) := hlast.takeOut hfound hidle
  induction n generalizing y thread input with
  | zero => exact (runThread_eq hfound hinput).trans (by rw [Nat.zero_add, Nat.one_mul])
  | succ n ih =>
    have hcalls := hgoes
    rw [Nat.add_mul, Nat.one_mul] at hcalls
    obtain ⟨z, between, after, hbefore⟩ := hcalls.split
    obtain ⟨hsound, _, hran, hid⟩ := hgoes.keeps hout hidle rfl hnumber
    rw [Function.iterate_succ_apply', ih hbefore]
    -- so far the limit has come when the thread was at the last call
    have hgave := hgoes.driveThread_eq 0
    rw [Nat.add_zero, driveThread] at hgave
    have hback : Table.find? id (y.mapProgram (·.putThread { thread with input := some input })).program.threads =
        some { thread with input := some input } := by
      rw [mapProgram, LiveProgram.find?_putThread, if_pos hid.symm]
    have hnone : ({ thread with input := none } : Thread) = thread := by
      rw [← (hsound.out thread rfl).2]
    rw [hgave, runThread_eq hback rfl, takenOut_putThread hsound hran hid, Nat.add_mul (n + 1), Nat.one_mul,
      hgoes.driveThread_eq stepLimit]
    exact congrArg (fun other => driveThread stepLimit y other input) hnone

end Turns

end Execution

end DurableFlow
