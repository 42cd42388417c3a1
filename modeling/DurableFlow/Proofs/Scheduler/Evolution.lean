/-
What becomes of a program.

The functions of the scheduler are many and call each other, but what they do to the program
comes down to few moves: a cell is filled or emptied, a hook remembers something, a step is
called or retired, a thread is taken out, driven, put back, begun or told of a failure. This
file says what the moves are and that whatever happens to an execution is a sequence of them.
To show that a property of programs is kept it is then enough to look at the moves. The turns of
threads are no moves: what a thread does in its turn is, once it is noted whose turn it is.
-/
import Mathlib.Logic.Relation
import DurableFlow.Proofs.Scheduler.Events

set_option autoImplicit false

namespace DurableFlow

open Script Text

/-! ## Moves -/

/-- **A program at one moment**, with the thread that was taken out to run and how many threads
there were so far. -/
structure Moment where
  program : LiveProgram
  running : Option Thread
  threads : Nat

/-- What a hook that sees a step this way makes it remember. -/
inductive StepDef.Leaves (d : StepDef) (view : StepView) : StepMemory → Prop
  | started : d.Leaves view (d.start view).memory
  | bodyEnded (index : Nat) (outcome : Outcome) : d.Leaves view (d.onBody view index outcome).memory
  | resumed : d.Leaves view (d.onResume view).memory

/-- The machine of a thread that was driven and has not ended. -/
def Script.Drive.left? : Drive → Option Machine
  | .yielded (.completed _) _ => none
  | .yielded _ m => some m
  | .pending m _ => some m

/-- Exports the block behind a call, if there is one. -/
def LiveProgram.exported (p : LiveProgram) : Option (Closure Val) → Option Nat × LiveProgram
  | none => (none, p)
  | some body => (some (p.exportBlock body).1, (p.exportBlock body).2)

@[simp] theorem LiveProgram.steps_exported (p : LiveProgram) (body : Option (Closure Val)) :
    (p.exported body).2.steps = p.steps := by
  cases body with
  | none => rfl
  | some body => rfl

@[simp] theorem LiveProgram.threads_exported (p : LiveProgram) (body : Option (Closure Val)) :
    (p.exported body).2.threads = p.threads := by
  cases body with
  | none => rfl
  | some body => rfl

/-- The step that a thread calls, before its hooks have seen it. -/
def LiveStep.called (p : LiveProgram) (thread : Thread) (d : StepDef) (request : StepRequest)
    (memory : StepMemory) (node : Nat) : LiveStep :=
  { node, thread := thread.id, function := request.function, displayName := d.displayName request.args
    args := request.args, vars := thread.vars, closure := (p.exported request.body).1
    head := thread.head, isBlock := d.isBlock, memory }

/-- The thread of a script that begins. -/
def Thread.first (program : Script.Program Val) (budget head id : Nat) : Thread :=
  { id, machine := Machine.ofProgram program budget, head, completions := [.root], input := some (.ok .null) }

/-- The thread for a body of a step. -/
def Thread.forBody (step : LiveStep) (body : PendingBody) (branch : Option Branch) (machine : Machine)
    (id : Nat) : Thread :=
  { id, machine, head := (branch.map Branch.head).getD step.head
    vars := Table.insertAll body.overrides step.vars
    completions := [.body step.node body.index branch], input := some (.ok .null) }

/-- **What can become of a program in one move**, under the steps that can be called. -/
inductive Move (registry : StepRegistry) : Moment → Moment → Prop
  /-- A step reports, or what it reported is taken. -/
  | cell {p : LiveProgram} {r : Option Thread} {c n : Nat} {step : LiveStep} {cell : StepCell}
    (hstep : Table.find? n p.steps = some step) (h : step.cell.Turns cell) :
    Move registry ⟨p, r, c⟩ ⟨p.adjustStep n fun step => { step with cell }, r, c⟩
  /-- A hook of a step remembers something. -/
  | hook {p : LiveProgram} {r : Option Thread} {c n : Nat} {step : LiveStep} {d : StepDef}
    {objects : Table Handle Val} {clock : Timestamp} {memory : StepMemory}
    (hstep : Table.find? n p.steps = some step) (hd : registry.find? step.function = some d)
    (h : d.Leaves (step.view objects clock) memory) :
    Move registry ⟨p, r, c⟩ ⟨p.adjustStep n fun step => { step with memory }, r, c⟩
  /-- A branch of a step has ended with a node. -/
  | branch {p : LiveProgram} {r : Option Thread} {c : Nat} (n tip : Nat) :
    Move registry ⟨p, r, c⟩
      ⟨p.adjustStep n fun step => { step with branchTips := step.branchTips ++ [tip] }, r, c⟩
  /-- A thread that ran a body of a step has ended. -/
  | orphan {p : LiveProgram} {r : Option Thread} {c : Nat} (n t : Nat) :
    Move registry ⟨p, r, c⟩
      ⟨p.adjustStep n fun step => { step with children := Table.erase t step.children }, r, c⟩
  | retire {p : LiveProgram} {r : Option Thread} {c n : Nat} {step : LiveStep}
    (hstep : Table.find? n p.steps = some step) :
    Move registry ⟨p, r, c⟩ ⟨p.dropStep step, r, c⟩
  /-- The running thread calls a step, with arguments that are in order. -/
  | call {p : LiveProgram} {thread : Thread} {c node : Nat} {d : StepDef} {request : StepRequest}
    {clock : Timestamp} {memory : StepMemory} (hd : registry.find? request.function = some d)
    (hcreate : d.create clock request.args = .ok memory) :
    Move registry ⟨p, some thread, c⟩
      ⟨(p.exported request.body).2.putStep (.called p thread d request memory node),
        some { thread with step := some node }, c⟩
  /-- The script begins. -/
  | begin {p : LiveProgram} {r : Option Thread} {c : Nat} (program : Script.Program Val) (budget head : Nat) :
    Move registry ⟨p, r, c⟩ ⟨p.putThread (.first program budget head (c + 1)), r, c + 1⟩
  /-- A body of a live step begins. -/
  | spawn {p : LiveProgram} {r : Option Thread} {c n budget : Nat} {step : LiveStep} {body : PendingBody}
    {branch : Option Branch} {closure : Closure Val} {machine : Machine}
    (hstep : Table.find? n p.steps = some step) (hdeferred : invokeBody budget closure = .deferred machine) :
    Move registry ⟨p, r, c⟩
      ⟨(p.putThread (.forBody step body branch machine (c + 1))).adjustStep step.node fun step =>
          { step with children := Table.insert (c + 1) () step.children }, r, c + 1⟩
  /-- A thread is handed the outcome that it waits for. -/
  | resume {p : LiveProgram} {r : Option Thread} {c t : Nat} {thread : Thread} (outcome : Outcome)
    (hthread : Table.find? t p.threads = some thread) :
    Move registry ⟨p, r, c⟩
      ⟨p.putThread { thread with step := none, input := some (thread.input.getD outcome) }, r, c⟩
  /-- Some threads are told of a failure. -/
  | tell {p : LiveProgram} {r : Option Thread} {c : Nat} (told : Thread → Bool) (cause : Failure) :
    Move registry ⟨p, r, c⟩
      ⟨{ p with threads := Table.mapValues (fun t => if told t then t.inject cause else t) p.threads }, r, c⟩
  /-- A thread is taken out to run. -/
  | take {p : LiveProgram} {c t : Nat} {thread : Thread} (hthread : Table.find? t p.threads = some thread)
    (hinput : thread.input.isSome = true) :
    Move registry ⟨p, none, c⟩ ⟨p.dropThread t, some { thread with input := none }, c⟩
  /-- The running thread is driven on. -/
  | drive {p : LiveProgram} {thread : Thread} {c : Nat} {machine : Machine} (policy : Option Policy)
    (input : Outcome) (h : (driveUnder policy thread.machine input).left? = some machine) :
    Move registry ⟨p, some thread, c⟩ ⟨p, some { thread with machine }, c⟩
  /-- The running thread took the outcome of a step in place. -/
  | pass {p : LiveProgram} {thread : Thread} {c : Nat} :
    Move registry ⟨p, some thread, c⟩ ⟨p, some { thread with step := none }, c⟩
  /-- The running thread is put back. -/
  | put {p : LiveProgram} {thread : Thread} {c : Nat} (input : Option Outcome) :
    Move registry ⟨p, some thread, c⟩ ⟨p.putThread { thread with input }, none, c⟩
  /-- The running thread has ended. -/
  | drop {p : LiveProgram} {thread : Thread} {c : Nat} :
    Move registry ⟨p, some thread, c⟩ ⟨p, none, c⟩
  /-- It is noted how the script ended, or that the program is over. -/
  | note {p : LiveProgram} {r : Option Thread} {c : Nat} (rootOutcome : Option Outcome) (finished : Bool) :
    Move registry ⟨p, r, c⟩ ⟨{ p with rootOutcome, finished }, r, c⟩

namespace Execution

/-- The program of an execution at this moment, with the thread that was taken out to run. -/
def moment (x : Execution) (running : Option Thread) : Moment where
  program := x.program
  running := running
  threads := x.record.threadsCreated

/-- It is noted whose turn it is. -/
def noteTurn (x : Execution) (id : Nat) : Execution := x.mapProgram fun p => { p with lastRun := some id }

/-- **One state becomes another** by moves of the program and by what leaves the program alone. -/
structure Becomes (x : Execution) (r : Option Thread) (y : Execution) (r' : Option Thread) : Prop where
  engine : y.engine = x.engine
  moves : Relation.ReflTransGen (Move x.engine.steps) (x.moment r) (y.moment r')

namespace Becomes

variable {x y z : Execution} {r r' r'' : Option Thread}

theorem refl (x : Execution) (r : Option Thread) : Becomes x r x r := ⟨rfl, .refl⟩

theorem trans (hxy : Becomes x r y r') (hyz : Becomes y r' z r'') : Becomes x r z r'' := by
  refine ⟨hyz.engine.trans hxy.engine, hxy.moves.trans ?_⟩
  rw [← hxy.engine]
  exact hyz.moves

/-- One move is enough. -/
theorem move (hengine : y.engine = x.engine) (h : Move x.engine.steps (x.moment r) (y.moment r')) :
    Becomes x r y r' := ⟨hengine, .single h⟩

/-- What leaves the program alone. -/
theorem of_same (hengine : y.engine = x.engine) (hprogram : y.program = x.program)
    (hthreads : y.record.threadsCreated = x.record.threadsCreated) : Becomes x r y r := by
  refine ⟨hengine, ?_⟩
  unfold moment
  rw [hprogram, hthreads]

/-- The archive and the record are no matter of the program. -/
theorem of_quiet (h : Quiet x y) : Becomes x r y r :=
  of_same (by rw [h.rest]) h.program h.threads

theorem of_quietly {α : Type} {act : Act α} (h : Quietly act) : Becomes x r (act.after x) r :=
  of_quiet (h x)

/-! ### Steps -/

/-- The cell of a step that was started is changed. Of a retired step nothing is seen. -/
theorem cell {node : Nat} {step : LiveStep} {cell : StepCell} (hstep : x.step? node = some step)
    (h : step.cell.Turns cell) : Becomes x r (x.adjustStep node fun step => { step with cell }) r := by
  unfold step? at hstep
  unfold adjustStep Table.contains
  cases hlive : Table.find? node x.program.steps with
  | none => exact of_same rfl rfl rfl
  | some live =>
    rw [hlive] at hstep
    cases hstep
    exact move rfl (.cell hlive h)

theorem submit (x : Execution) (job : Job) : Becomes x r (x.submit job) r := of_quiet (quiet_submit x job)

/-- What is done to the cell of a step is a move of its program, as long as the step is live. -/
theorem alongCells (r : Option Thread) (node : Nat) : AlongCells (fun x y => Becomes x r y r) node where
  refl x := refl x r
  trans := trans
  submit := submit
  cell := cell

theorem alongHooks (r : Option Thread) (node : Nat) : AlongHooks (fun x y => Becomes x r y r) node :=
  .of_quiet (alongCells r node).toChains of_quiet (alongCells r node).deliver (alongCells r node).queueBody
    (fun _ _ _ => of_same rfl rfl rfl) fun _ _ _ _ => of_same rfl rfl rfl

theorem alongHost (r : Option Thread) : AlongHost fun x y => Becomes x r y r where
  refl x := refl x r
  trans := trans
  hooks := alongHooks r
  aside _ _ _ _ _ := of_same rfl rfl rfl

/-- A hook leaves what it makes its step remember. -/
theorem remembers {node : Nat} {step : LiveStep} {d : StepDef} {memory : StepMemory}
    (hstep : Table.find? node x.program.steps = some step) (hd : x.stepDef? step.function = some d)
    (h : d.Leaves (x.viewOf step) memory) :
    Becomes x r (x.adjustStep node fun step => { step with memory }) r := by
  unfold adjustStep Table.contains
  rw [hstep]
  exact move rfl (.hook hstep hd h)

/-- What a hook of a live step answers is taken over. -/
theorem react {node : Nat} {step : LiveStep} {d : StepDef} {reaction : StepReaction}
    (hstep : Table.find? node x.program.steps = some step) (hd : x.stepDef? step.function = some d)
    (h : d.Leaves (x.viewOf step) reaction.memory) : Becomes x r (x.react node reaction) r :=
  (alongHooks r node).react reaction (remembers hstep hd h)

/-- A step that is over is dropped. -/
theorem finishStep (x : Execution) (r : Option Thread) (node : Nat) (outcome : Outcome) :
    Becomes x r (x.finishStep node outcome) r := by
  unfold Execution.finishStep
  split
  · exact refl x r
  · next step hstep =>
    refine Becomes.trans ?_ (of_quietly (Quiet.alongWrites.closeStepNode _ _))
    exact move rfl (.retire hstep)

/-- **An outcome is handed to the thread that waits**, or it is lost. -/
theorem resumeThread (x : Execution) (r : Option Thread) (id : Nat) (outcome : Outcome) :
    Becomes x r (x.resumeThread id outcome) r := by
  unfold Execution.resumeThread
  split
  · exact of_same rfl rfl rfl
  · next thread hthread =>
    have hmove : Move x.engine.steps (x.moment r)
        ⟨x.program.putThread { thread with step := none, input := some (thread.input.getD outcome) }, r,
          x.record.threadsCreated⟩ := .resume outcome hthread
    cases hinput : thread.input with
    | none =>
      rw [hinput] at hmove
      simp only [Thread.resume]
      exact move rfl hmove
    | some input =>
      rw [hinput] at hmove
      simp only [Thread.resume]
      exact move rfl hmove

/-- **A step is over**, and its thread goes on. -/
theorem completeStep (x : Execution) (r : Option Thread) (node : Nat) :
    Becomes x r (x.completeStep node) r := by
  unfold Execution.completeStep
  split
  · exact refl x r
  · next step hstep =>
    have htaken := cell (r := r) (step?_of_find? hstep) .taken
    split
    · exact refl x r
    · next cell outcome heq =>
      rw [heq] at htaken
      exact (htaken.trans (finishStep _ r node outcome)).trans (resumeThread _ r _ _)

/-! ### Bodies -/

theorem closeBranch? (x : Execution) (r : Option Thread) (node : Nat) (branch : Option Branch)
    (error : Option Failure) : Becomes x r (x.closeBranch? node branch error) r := by
  cases branch with
  | none => exact refl x r
  | some branch =>
    unfold Execution.closeBranch? closeBranch
    dsimp only
    split
    · next heq =>
      refine (of_quiet ((Quiet.alongWrites.endBranch branch error).leads heq)).trans ?_
      exact move rfl (.branch node _)
    · next heq => exact of_quiet ((Quiet.alongWrites.endBranch branch error).leads heq)

/-- **A body has ended.** The hook is one that sees the live step, so what it leaves is a move. -/
theorem bodyEnded (x : Execution) (r : Option Thread) (node index : Nat) (outcome : Outcome) :
    Becomes x r (x.bodyEnded node index outcome).2 r := by
  unfold Execution.bodyEnded
  split
  · exact refl x r
  · next step hstep =>
    refine Becomes.trans ?_ ((alongCells r node).takeBodies _)
    split
    · next d hd => exact react hstep hd (.bodyEnded index outcome)
    · exact refl x r

/-- **A body is started**, and gets the next thread if it does not end in place. -/
theorem startBody (r : Option Thread) {step : LiveStep} (body : PendingBody) {n : Nat}
    (hstep : Table.find? n x.program.steps = some step) : Becomes x r (x.startBody step body).2 r := by
  unfold Execution.startBody
  split
  · exact bodyEnded x r _ _ _
  · have hopens := Quiet.alongWrites.openBranch? step.head body.branch
    split
    · next heq => exact (of_quiet (hopens.leads heq)).trans (bodyEnded _ r _ _ _)
    · next y heq =>
      have hquiet := hopens.leads heq
      refine (of_quiet hquiet).trans ?_
      split
      · exact (closeBranch? _ r _ _ _).trans (bodyEnded _ r _ _ _)
      · next hdeferred =>
        -- opening a branch only writes history, so the step is still there
        rw [← hquiet.program] at hstep
        exact move rfl (.spawn hstep hdeferred)

/-- A task is a sequence of moves, and so are all that it leads to. -/
theorem bodyTask (x : Execution) (r : Option Thread) (task : BodyTask) :
    Becomes x r (x.bodyTask task).2 r := by
  cases task with
  | start node body =>
    simp only [Execution.bodyTask]
    split
    · exact refl x r
    · next step hstep => exact startBody r body hstep
  | conclude node =>
    simp only [Execution.bodyTask]
    split
    · exact refl x r
    · split
      · exact completeStep x r node
      · exact refl x r

theorem doTasks (x : Execution) (r : Option Thread) (fuel : Nat) (tasks : List BodyTask) :
    Becomes x r (doTasks fuel tasks x) r := by
  induction fuel generalizing x tasks with
  | zero =>
    rw [Execution.doTasks]
    exact refl x r
  | succ fuel ih =>
    cases tasks with
    | nil =>
      rw [Execution.doTasks]
      · exact refl x r
      · simp
    | cons task rest =>
      rw [Execution.doTasks]
      exact (bodyTask x r task).trans (ih _ _)

theorem startBodies (x : Execution) (r : Option Thread) (node : Nat) :
    Becomes x r (x.startBodies node) r :=
  ((alongCells r node).takeBodies x).trans (doTasks _ r _ _)

theorem endBody (x : Execution) (r : Option Thread) (node index : Nat) (outcome : Outcome) :
    Becomes x r (x.endBody node index outcome) r := (bodyEnded x r node index outcome).trans (doTasks _ r _ _)

/-! ### Threads -/

/-- A call becomes an execution with the thread that it gives back. -/
def Gives (x : Execution) (thread : Thread) (call : StepCall) : Prop :=
  Becomes x (some thread) call.execution (some call.thread)

/-- A step that is over goes on with its thread; for any other one the thread waits. -/
theorem awaitStep (x : Execution) (thread : Thread) (node : Nat) : Gives x thread (x.awaitStep thread node) := by
  unfold Gives Execution.awaitStep
  split
  · exact refl x _
  · next step hstep =>
    have hstep? := step?_of_find? hstep
    have hswitched := cell (r := some thread) hstep? .switched
    have htaken := cell (r := some thread) hstep? .taken
    split
    · next cell heq =>
      rw [heq] at hswitched
      exact hswitched
    · split
      · exact refl x _
      · next cell outcome heq =>
        rw [heq] at htaken
        refine (htaken.trans (finishStep _ _ node outcome)).trans ?_
        exact move rfl .pass

/-- **A step is started**: it is called, its hook is heard, and its thread waits or goes on. -/
theorem launch {thread : Thread} {d : StepDef} {request : StepRequest} {clock : Timestamp}
    {memory : StepMemory} (node : Nat) (hd : x.stepDef? request.function = some d)
    (hcreate : d.create clock request.args = .ok memory) :
    Gives x thread (x.launch thread d request memory node) := by
  let step := LiveStep.called x.program thread d request memory node
  let called : Execution := { x with program := (x.program.exported request.body).2.putStep step }
  let started := d.start (called.viewOf step)
  have hcalled : Becomes x (some thread) called (some { thread with step := some node }) :=
    move rfl (.call hd hcreate)
  have hstep : Table.find? node called.program.steps = some step := Table.find?_insert_self _ _ _
  have hreact : Becomes called (some { thread with step := some node })
      (called.react node { effects := started.effects, memory := started.memory }) _ :=
    react (d := d) hstep hd .started
  -- all that a launch does comes after the call is put down
  have hlaunch : x.launch thread d request memory node =
      ((((called.react node { effects := started.effects, memory := started.memory }).acknowledge node
        request.function started.reply).startBodies node).meanwhile node).awaitStep
          { thread with step := some node } node := by
    unfold Execution.launch
    cases hbody : request.body with
    | none => simp only [called, step, started, LiveStep.called, LiveProgram.exported, hbody]
    | some body => simp only [called, step, started, LiveStep.called, LiveProgram.exported, hbody]
  rw [hlaunch]
  refine Becomes.trans ?_ (awaitStep _ _ node)
  refine Becomes.trans ?_ ((alongHost _).meanwhile _ node)
  exact (hcalled.trans hreact).trans (((alongHooks _ node).acknowledge _ _ _).trans (startBodies _ _ node))

/-- A call that is refused makes no move. -/
theorem startStep (x : Execution) (thread : Thread) (request : StepRequest) :
    Gives x thread (x.startStep thread request) := by
  have hcounted : Becomes x (some thread) (x.mapRecord (·.countCall request.function)) (some thread) :=
    of_same rfl rfl rfl
  unfold Execution.startStep
  dsimp only
  split
  · exact hcounted
  · next d hd =>
    split
    · exact hcounted
    · split
      · exact hcounted
      · next memory hcreate =>
        split
        · next heq => exact hcounted.trans (of_quiet ((Quiet.alongWrites.appendNode _ _ _ _).leads heq))
        · next node y heq =>
          have hquiet := (Quiet.alongWrites.appendNode _ _ _ _).leads heq
          refine Becomes.trans (hcounted.trans (of_quiet hquiet)) (launch node ?_ hcreate)
          rw [stepDef?, hquiet.rest]
          exact hd

/-- A thread that ends is dropped from its step. -/
theorem endThread (x : Execution) (thread : Thread) (outcome : Outcome) :
    Becomes x none (x.endThread thread outcome) none := by
  have hcomplete : ∀ (y : Execution) (completion : Completion),
      Becomes y none (complete thread.id outcome y completion) none := by
    intro y completion
    cases completion with
    | root => exact move rfl (.note _ _)
    | body step index branch =>
      refine Becomes.trans ?_ ((closeBranch? _ none step branch _).trans (endBody _ none step index outcome))
      exact move rfl (.orphan step thread.id)
  unfold Execution.endThread
  induction thread.completions generalizing x with
  | nil => exact refl x none
  | cons completion rest ih => exact (hcomplete x completion).trans (ih _)

/-- **A thread that is driven** ends, or is put back. -/
theorem driveThread (x : Execution) (thread : Thread) (fuel : Nat) (input : Outcome) :
    Becomes x (some thread) (driveThread fuel x thread input) none := by
  induction fuel generalizing x thread input with
  | zero => exact move rfl (.put _)
  | succ fuel ih =>
    -- unless it ends, driving leaves a machine that is the thread's from then on
    have hdrive : ∀ machine, (driveUnder x.policy thread.machine input).left? = some machine →
        Becomes x (some thread) x (some { thread with machine }) :=
      fun machine h => move rfl (.drive x.policy input h)
    simp only [Execution.driveThread]
    split
    · next machine input heq =>
      rw [heq] at hdrive
      exact (hdrive machine rfl).trans (move rfl (.put _))
    · next machine heq =>
      rw [heq] at hdrive
      exact (hdrive machine rfl).trans (move rfl (.put _))
    · next outcome machine heq =>
      refine Becomes.trans (y := x) (move rfl .drop) (endThread _ _ _)
    · next request machine heq =>
      rw [heq] at hdrive
      have hcall := (hdrive machine rfl).trans (startStep x { thread with machine } request)
      split
      · exact hcall.trans (move rfl (.put _))
      · exact hcall.trans (ih _ _ _)

/-- **A turn of a thread**, once it is noted whose turn it is. -/
theorem runThread (x : Execution) (id : Nat) : Becomes (x.noteTurn id) none (x.runThread id) none := by
  unfold Execution.runThread
  dsimp only
  split
  · exact refl _ none
  · next thread hthread =>
    split
    · exact refl _ none
    · next input hinput =>
      refine Becomes.trans ?_ (driveThread _ { thread with input := none } _ input)
      exact move rfl (.take hthread (by rw [hinput]; rfl))

/-! ### Events -/

/-- A job is a sequence of moves. -/
theorem handle (x : Execution) (job : Job) : Becomes x none (x.handle job) none := by
  cases job with
  | run => exact refl x none
  | completeStep node => exact completeStep x none node
  | startBodies node => exact startBodies x none node
  | checkpoint => exact of_quiet (Quiet.alongCheckpoints.saveCheckpoint x)
  | stopTargets scope cause => exact move rfl (.tell (x.isIdleIn scope) cause)

/-- A program that is over ends, and keeps what it was. -/
theorem close (x : Execution) (advanced : Bool) :
    Becomes x none (Turn.close { advanced, execution := x }) none := by
  unfold Turn.close
  dsimp only
  split
  · exact refl x none
  · split
    · refine Becomes.trans ?_ (of_quiet (quiet_finish _ _))
      exact move rfl (.note _ _)
    · split
      · exact of_quiet (Quiet.alongCheckpoints.whenIdle x)
      · exact refl x none

/-- **Whatever happens to an execution**, apart from turns, is a sequence of moves of its program. -/
theorem happen (x : Execution) {event : Event} (houtside : event.isOutside = true)
    (hother : ∀ thread, event ≠ .run thread) : Becomes x none (x.happen event) none := by
  cases event with
  | work =>
    simp only [Execution.happen, Execution.work]
    split
    · exact refl x none
    · refine Becomes.trans ?_ (handle _ _)
      exact of_same rfl rfl rfl
  | run thread => exact absurd rfl (hother thread)
  | markStale => exact of_quiet (Quiet.alongCheckpoints.markStale x)
  | close advanced => exact close x advanced
  | submit job => exact submit x job
  | effect node effect => cases houtside
  | remember node memory => cases houtside
  | signal name outcome => exact (alongHost none).signal x name outcome
  | fireTimers => exact (alongHost none).fireTimers x
  | stopNext => exact (alongHost none).stopNext x
  | pause on => exact of_quietly (Quiet.alongCheckpoints.pause on)
  | interrupt result causes => exact of_quietly (Quiet.alongCheckpoints.interrupt result causes)
  | cancelScope node cause => exact of_quietly (Quiet.alongCheckpoints.cancelScope node cause)
  | checkpoint => exact of_quietly Quiet.alongCheckpoints.checkpoint
  | suspend => exact of_quiet (Quiet.alongCheckpoints.suspend x)
  | pass now clock => exact of_same rfl rfl rfl

/-! ### Starting and restoring -/

/-- The thread of the script is the first move. -/
theorem startProgram (program : Script.Program Val) (head : Nat) :
    Along (fun x y => Becomes x none y none) (startProgram program head) := by
  have hR := (alongHost none).toChains
  refine hR.bind (.update fun x => ?_) fun _ => hR.bind (fun _ => of_quietly (.onArchive _)) fun _ => ?_
  · exact move rfl (.begin program x.engine.settings.safepointBudget head)
  refine hR.bind (fun _ => of_quietly Quiet.alongCheckpoints.saveRecord) fun _ => .update fun x => ?_
  let ready : Execution := { x with stage := .ready, lane := .serving }
  have hready : Becomes x none ready none := of_same rfl rfl rfl
  show Becomes x none (if ready.paused then ready else ready.submit .run) none
  split
  · exact hready
  · exact hready.trans (submit _ _)

theorem writeStart : Along (fun x y => Becomes x none y none) writeStart := by
  have hR := (alongHost none).toChains
  refine hR.bind (fun _ => of_same rfl rfl rfl) fun _ => ?_
  refine hR.bind (fun _ => of_quietly Quiet.alongWrites.node) fun _ => ?_
  refine hR.bind (hR.reading _) fun _ => hR.bind (fun _ => of_quietly (.onArchive _)) fun _ => ?_
  exact hR.bind (.update fun _ => of_same rfl rfl rfl) fun _ => hR.pure _

/-- **The start of an execution** is a sequence of moves. -/
theorem start : Along (fun x y => Becomes x none y none) Execution.start := by
  have hR := (alongHost none).toChains
  refine hR.bind (hR.reading _) fun record => hR.bind (hR.failIf _ _) fun _ => hR.bind writeStart fun head => ?_
  refine hR.bind (.update fun x => of_quiet (quiet_log x _)) fun _ => ?_
  split
  · exact startProgram _ head
  · exact .update fun x => of_quiet ((quiet_log x _).trans (quiet_finish _ _))

theorem alongRevival (node : Nat) : AlongRevival (fun x y => Becomes x none y none) node where
  toAlongHooks := alongHooks none node
  submit := submit
  resumed hstep hd := remembers hstep hd .resumed

/-- The steps that go on are told so one after the other. -/
theorem revive (x : Execution) (saved : SavedProgram) (program : LiveProgram) :
    Becomes { x with program } none (x.revive saved program) none := by
  have hloaded : Becomes { x with program } none (x.withProgram program) none := of_same rfl rfl rfl
  exact hloaded.trans (AlongRevival.revive alongRevival (fun _ => of_same rfl rfl rfl) x saved program)

end Becomes

end Execution

end DurableFlow
