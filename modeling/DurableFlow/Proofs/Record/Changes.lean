/-
What operations are made of.

Whatever an execution does while its program goes on, it edits its record in one of a few ways, counts
a call, notes an interrupt, asks its archive for one call at a time, or does something beside all of
this. Each operation of the scheduler and of the host is shown here to be a sequence of such basic
changes. What each of them keeps is then kept by whatever happens, and no operation has to be looked at
again.

A step is called only after the sandbox has let the call through, so a call that is counted is one that
the policy permits.

Left out are the end of an execution, a checkpoint, and the mark that what was saved is out of date.
-/
import Mathlib.Logic.Relation
import DurableFlow.Proofs.Scheduler.Events
import DurableFlow.Proofs.Script.Screening

set_option autoImplicit false

namespace DurableFlow

open Script Text History

/-- **One edit of a record** whose execution goes on. -/
inductive Record.Edit (r : Record) : Record → Prop
  | touched (now : Timestamp) : Edit r (r.touch now)
  | node : Edit r r.allocateNode.2
  | head : Edit r r.allocateHead.2
  | thread : Edit r r.allocateThread.2
  | paused (on : Bool) : Edit r { r with paused := on }
  | loaded (name source : String) :
    Edit r { r with loadedScripts := Table.insert name source r.loadedScripts }
  /-- The lines of the history end elsewhere, and other blocks are open. -/
  | moved (heads : Table Nat Nat) (startNodes : List Nat) : Edit r { r with heads, startNodes }
  | begun (id : Nat) : Edit r { r with flowStart := some id }

/-- **One call on an archive** that saves neither the record nor the program, and leaves the history in
its layout. -/
inductive Archive.Call (a : Archive) : Archive → Prop
  | log (line : String) : Call a (a.log line)
  | store (node : Node) (defer : Bool) : Call a ((Archive.store node defer).after a)
  | flush : Call a (Archive.flush.after a)
  | saveActions (id : Nat) (actions : List Action) : Call a ((Archive.saveActions id actions).after a)
  | autopersist (id : Nat) : Call a ((Archive.autopersist id).after a)

namespace Execution

/-- **Two states that differ beside** what is kept for later: the record and the files, what was asked
for, what is to be loaded. -/
structure Aside (x y : Execution) : Prop where
  engine : y.engine = x.engine
  record : y.record = x.record
  archive : y.archive = x.archive
  interrupts : y.interrupts = x.interrupts
  loading : y.loading = x.loading

/-- **One basic change of an execution** whose program goes on. -/
inductive BasicChange : Execution → Execution → Prop
  | aside {x y : Execution} (h : Aside x y) : BasicChange x y
  | edit {x : Execution} {record : Record} (h : x.record.Edit record) : BasicChange x { x with record }
  /-- A call of a step is counted. In a sandbox it is one that is permitted. -/
  | called {x : Execution} (function : String)
    (hpermitted : ∀ policy, x.policy = some policy → policy.permits function = true) :
    BasicChange x (x.mapRecord (·.countCall function))
  | interrupted {x : Execution} (result : FlowResult) (causes : List Failure)
    (hopen : x.record.done = false) : BasicChange x (noteInterrupt result causes x)
  | call {x : Execution} {archive : Archive} (h : x.archive.Call archive) :
    BasicChange x { x with archive }
  /-- The record is saved as it is. -/
  | save {x : Execution} : BasicChange x (writeRecord.after x)

/-- A sequence of basic changes. -/
def Changes (x y : Execution) : Prop := Relation.ReflTransGen BasicChange x y

/-- An operation that is a sequence of basic changes from every state. -/
def Changing {α : Type} (act : Act α) : Prop := ∀ x, Changes x (act.after x)

namespace Aside

variable {x y z : Execution}

theorem refl (x : Execution) : Aside x x := ⟨rfl, rfl, rfl, rfl, rfl⟩

theorem trans (hxy : Aside x y) (hyz : Aside y z) : Aside x z :=
  ⟨hyz.engine.trans hxy.engine, hyz.record.trans hxy.record, hyz.archive.trans hxy.archive,
    hyz.interrupts.trans hxy.interrupts, hyz.loading.trans hxy.loading⟩

theorem submit (x : Execution) (job : Job) : Aside x (x.submit job) := by
  unfold Execution.submit
  split
  · exact ⟨rfl, rfl, rfl, rfl, rfl⟩
  · exact refl x

end Aside

namespace Changes

variable {x y z : Execution}

theorem refl (x : Execution) : Changes x x := Relation.ReflTransGen.refl

theorem trans (hxy : Changes x y) (hyz : Changes y z) : Changes x z := Relation.ReflTransGen.trans hxy hyz

theorem single (h : BasicChange x y) : Changes x y := Relation.ReflTransGen.single h

/-- A change beside what is kept. -/
theorem aside (hengine : y.engine = x.engine) (hrecord : y.record = x.record)
    (harchive : y.archive = x.archive) (hinterrupts : y.interrupts = x.interrupts)
    (hloading : y.loading = x.loading) : Changes x y :=
  single (.aside ⟨hengine, hrecord, harchive, hinterrupts, hloading⟩)

theorem edit {record : Record} (h : x.record.Edit record) : Changes x { x with record } := single (.edit h)

/-- A line of the log is one call on the archive. -/
theorem log (x : Execution) (line : String) : Changes x (x.log line) := .single (.call (.log line))

theorem submit (x : Execution) (job : Job) : Changes x (x.submit job) := .single (.aside (.submit x job))

end Changes

/-! ## Writing and asking -/

/-- A call on the archive. -/
theorem Changing.call {α : Type} {act : Attempt Archive α} (h : ∀ a : Archive, a.Call (act.after a)) :
    Changing (onArchive act) := fun x => .single (.call (h x.archive))

/-- **The history is written** by basic changes. -/
theorem Changes.alongWrites : AlongWrites Changes where
  refl := .refl
  trans := .trans
  node _ := .edit .node
  head _ := .edit .head
  lines _ _ _ := .edit (.moved _ _)
  start _ id := .edit (.begun id)
  touch x := .edit (.touched x.clock)
  store _ _ := Changing.call fun _ => .store _ _
  autopersist _ := Changing.call fun _ => .autopersist _
  actions _ _ := Changing.call fun _ => .saveActions _ _

/-- **What is asked of an execution** is noted by basic changes. -/
theorem Changes.alongRequests : AlongRequests Changes where
  refl := .refl
  trans := .trans
  log := .log
  submit := .submit
  touch x := .edit (.touched x.clock)
  write _ := .single .save
  -- the pause is noted twice, in the state and in the record
  paused _ on := .trans (.edit (.paused on)) (.aside rfl rfl rfl rfl rfl)
  noted result causes hopen := .single (.interrupted result causes hopen)
  cancels _ := .aside rfl rfl rfl rfl rfl

theorem changing_flush : Changing (onArchive Archive.flush) := .call fun _ => .flush

namespace Changes

variable {x y z : Execution}

/-! ## Steps -/

/-- **Whatever is done to the program** is done beside the record and the files. -/
theorem mapProgram (x : Execution) (f : LiveProgram → LiveProgram) : Changes x (x.mapProgram f) :=
  .aside rfl rfl rfl rfl rfl

/-- A step that is over can still be told something. -/
theorem adjustStep (x : Execution) (node : Nat) (f : LiveStep → LiveStep) :
    Changes x (x.adjustStep node f) := by
  unfold Execution.adjustStep
  split
  · exact .aside rfl rfl rfl rfl rfl
  · exact .aside rfl rfl rfl rfl rfl

/-- What is done to the cell of a step. -/
theorem alongCells (node : Nat) : AlongCells Changes node where
  refl := .refl
  trans := .trans
  submit := submit
  cell _ _ := adjustStep _ node _

/-- **What a hook asks for** is done beside the record, but for lines, actions, pauses and scripts. -/
theorem alongHooks (node : Nat) : AlongHooks Changes node where
  toChains := (alongCells node).toChains
  deliver := (alongCells node).deliver
  queueBody := (alongCells node).queueBody
  log := log
  addAction := alongWrites.addAction node
  pause := alongRequests.pause true
  interrupt result := alongRequests.interrupt result []
  loaded x name source := (edit (.loaded name source)).trans (edit (.touched x.clock))
  bound _ _ _ := .aside rfl rfl rfl rfl rfl
  aside _ _ _ _ := .aside rfl rfl rfl rfl rfl

/-- The hook has left a memory, and asks for something. -/
theorem react (x : Execution) (node : Nat) (reaction : StepReaction) : Changes x (x.react node reaction) :=
  (alongHooks node).react reaction (adjustStep x node _)

/-- A step that is over is taken off, and its node is closed. -/
theorem finishStep (x : Execution) (node : Nat) (outcome : Outcome) :
    Changes x (x.finishStep node outcome) := by
  unfold Execution.finishStep
  split
  · exact .refl _
  · refine Changes.trans ?_ (alongWrites.closeStepNode _ _ _)
    exact .aside rfl rfl rfl rfl rfl

/-- The thread that waited is handed the outcome, or the outcome is lost. -/
theorem resumeThread (x : Execution) (id : Nat) (outcome : Outcome) :
    Changes x (x.resumeThread id outcome) := by
  unfold Execution.resumeThread
  split
  · exact .aside rfl rfl rfl rfl rfl
  · dsimp only
    split
    · exact .aside rfl rfl rfl rfl rfl
    · exact .aside rfl rfl rfl rfl rfl

/-- **A step is over.** -/
theorem completeStep (x : Execution) (node : Nat) : Changes x (x.completeStep node) := by
  unfold Execution.completeStep
  split
  · exact .refl _
  · split
    · exact .refl _
    -- the outcome is taken, the node is closed, and the thread goes on
    · exact ((adjustStep x node _).trans (finishStep _ node _)).trans (resumeThread _ _ _)

/-! ## Bodies -/

/-- A branch is closed in the history, and the step notes the tip. -/
theorem closeBranch? (x : Execution) (node : Nat) (branch : Option Branch) (error : Option Failure) :
    Changes x (x.closeBranch? node branch error) := by
  cases branch with
  | none => exact .refl _
  | some branch =>
    unfold Execution.closeBranch? closeBranch
    dsimp only
    split
    · next heq => exact ((alongWrites.endBranch branch error).leads heq).trans (mapProgram _ _)
    · next heq => exact (alongWrites.endBranch branch error).leads heq

/-- The step hears of the end of a body, and what it queues is taken. -/
theorem bodyEnded (x : Execution) (node index : Nat) (outcome : Outcome) :
    Changes x (x.bodyEnded node index outcome).2 := by
  unfold Execution.bodyEnded
  split
  · exact .refl _
  · refine Changes.trans ?_ ((alongCells node).takeBodies _)
    split
    · exact react x node _
    · exact .refl _

/-- The thread of a body has the next number. -/
theorem spawnBody (x : Execution) (step : LiveStep) (body : PendingBody) (branch : Option Branch)
    (machine : Machine) : Changes x (x.spawnBody step body branch machine) :=
  (edit .thread).trans (.aside rfl rfl rfl rfl rfl)

/-- **A body is started**: on a branch of its own if it wants one, and in place if it ends soon. -/
theorem startBody (x : Execution) (step : LiveStep) (body : PendingBody) :
    Changes x (x.startBody step body).2 := by
  unfold Execution.startBody
  split
  · exact bodyEnded x _ _ _
  · have hopens := alongWrites.openBranch? step.head body.branch
    split
    · next heq => exact (hopens.leads heq).trans (bodyEnded _ _ _ _)
    · next heq =>
      refine (hopens.leads heq).trans ?_
      split
      · exact (closeBranch? _ _ _ _).trans (bodyEnded _ _ _ _)
      · exact spawnBody _ step body _ _

theorem bodyTask (x : Execution) (task : BodyTask) : Changes x (x.bodyTask task).2 := by
  cases task with
  | start node body =>
    simp only [Execution.bodyTask]
    split
    · exact .refl _
    · exact startBody x _ body
  | conclude node =>
    simp only [Execution.bodyTask]
    split
    · exact .refl _
    · split
      · exact completeStep x node
      · exact .refl _

/-- **All tasks together**, whatever their limit is. -/
theorem doTasks (x : Execution) (fuel : Nat) (tasks : List BodyTask) : Changes x (doTasks fuel tasks x) := by
  induction fuel generalizing x tasks with
  | zero =>
    rw [Execution.doTasks]
    exact .refl _
  | succ fuel ih =>
    cases tasks with
    | nil =>
      rw [Execution.doTasks]
      · exact .refl _
      · simp
    | cons task rest =>
      rw [Execution.doTasks]
      exact (bodyTask x task).trans (ih _ _)

theorem startBodies (x : Execution) (node : Nat) : Changes x (x.startBodies node) :=
  ((alongCells node).takeBodies x).trans (doTasks _ _ _)

theorem endBody (x : Execution) (node index : Nat) (outcome : Outcome) :
    Changes x (x.endBody node index outcome) := (bodyEnded x node index outcome).trans (doTasks _ _ _)

/-! ## The clock and the host -/

/-- What the clock and the host do is done to cells, or beside the record. -/
theorem alongHost : AlongHost Changes where
  refl := .refl
  trans := .trans
  hooks := alongHooks
  aside _ _ _ _ _ := .aside rfl rfl rfl rfl rfl

/-! ## Threads -/

/-- A step that is over when it has started is closed; any other one becomes asynchronous. -/
theorem awaitStep (x : Execution) (thread : Thread) (node : Nat) :
    Changes x (x.awaitStep thread node).execution := by
  unfold Execution.awaitStep
  split
  · exact .refl _
  · split
    · exact adjustStep x node _
    · split
      · exact .refl _
      · exact (adjustStep x node _).trans (finishStep _ node _)

/-- **A step that has its node** is started, and its thread waits or goes on. -/
theorem launch (x : Execution) (thread : Thread) (d : StepDef) (request : StepRequest)
    (memory : StepMemory) (node : Nat) : Changes x (x.launch thread d request memory node).execution := by
  unfold Execution.launch
  dsimp only
  -- taken off from the last change to the first
  refine Changes.trans ?_ (awaitStep _ _ node)
  refine Changes.trans ?_ (alongHost.meanwhile _ node)
  refine Changes.trans ?_ (startBodies _ node)
  refine Changes.trans ?_ ((alongHooks node).acknowledge _ _ _)
  refine Changes.trans ?_ (react _ node _)
  exact .aside rfl rfl rfl rfl rfl

/-- What comes of the start of a step, once the call is counted. -/
theorem startCounted (x : Execution) (thread : Thread) (request : StepRequest) :
    Changes (x.mapRecord (·.countCall request.function)) (x.startStep thread request).execution := by
  unfold Execution.startStep
  dsimp only
  split
  · exact .refl _
  · split
    · exact .refl _
    · split
      · exact .refl _
      · split
        · next heq => exact (alongWrites.appendNode _ _ _ _).leads heq
        · next heq => exact ((alongWrites.appendNode _ _ _ _).leads heq).trans (launch _ _ _ _ _ _)

/-- A step is started. The sandbox has let the call through. -/
theorem startStep (x : Execution) (thread : Thread) (request : StepRequest)
    (hpermitted : ∀ policy, x.policy = some policy → policy.permits request.function = true) :
    Changes x (x.startStep thread request).execution :=
  (single (.called _ hpermitted)).trans (startCounted x thread request)

/-- **A thread ends** with all that waits for it. -/
theorem endThread (x : Execution) (thread : Thread) (outcome : Outcome) :
    Changes x (x.endThread thread outcome) := by
  have hcomplete : ∀ (y : Execution) (completion : Completion),
      Changes y (complete thread.id outcome y completion) := by
    intro y completion
    cases completion with
    | root => exact mapProgram y fun p => { p with rootOutcome := some outcome }
    -- the branch ends before the step hears of the body
    | body step index branch =>
      refine Changes.trans ?_ ((closeBranch? _ step branch _).trans (endBody _ step index outcome))
      exact .aside rfl rfl rfl rfl rfl
  unfold Execution.endThread
  induction thread.completions generalizing x with
  | nil => exact .refl _
  | cons completion rest ih => exact (hcomplete x completion).trans (ih _)

/-- **A thread is driven** until it waits, parks or ends, or comes to its limit. -/
theorem driveThread (x : Execution) (thread : Thread) (fuel : Nat) (input : Outcome) :
    Changes x (driveThread fuel x thread input) := by
  induction fuel generalizing x thread input with
  | zero => exact mapProgram x _
  | succ fuel ih =>
    simp only [Execution.driveThread]
    split
    · exact mapProgram x _
    · exact mapProgram x _
    · exact endThread x _ _
    · next request machine heq =>
      -- the machine asks under the policy, so what it asks for is permitted
      have hcall := startStep x { thread with machine } request fun policy hpolicy =>
        permits_of_driveUnder (hpolicy ▸ heq)
      split
      · exact hcall.trans (mapProgram _ _)
      · exact hcall.trans (ih _ _ _)

/-- **The turn of a thread.** -/
theorem runThread (x : Execution) (id : Nat) : Changes x (x.runThread id) := by
  have hlast : Changes x (x.mapProgram fun p => { p with lastRun := some id }) := mapProgram x _
  unfold Execution.runThread
  refine hlast.trans ?_
  dsimp only
  split
  · exact .refl _
  · split
    · exact .refl _
    · exact (mapProgram _ _).trans (driveThread _ _ _ _)

theorem orderStop (x : Execution) (scope : Option Nat) (cause : Failure) :
    Changes x (x.orderStop scope cause) := .aside rfl rfl rfl rfl rfl

/-! ## Starting and going on -/

/-- A thread takes one number of the record. -/
theorem addThread (x : Execution) (machine : Machine) (head : Nat) (vars : Scope) (completion : Completion)
    (input : Outcome) : Changes x (x.addThread machine head vars completion input).2 :=
  (edit .thread).trans (.aside rfl rfl rfl rfl rfl)

end Changes

/-- The start of the flow is the first node, on the first head. -/
theorem changing_writeStart : Changing writeStart := by
  have hR := Changes.alongWrites
  refine hR.bind (fun x => hR.head x) fun head => hR.bind hR.node fun id => ?_
  refine hR.bind (hR.reading _) fun now => hR.bind (hR.store _ _) fun _ => ?_
  refine hR.bind (.update fun x => ?_) fun _ => hR.pure _
  exact (hR.start x id).trans (hR.lines _ _ x.record.startNodes)

/-- **A program is started**: its thread is added, what waits is written, and the record is saved. -/
theorem changing_startProgram (program : Script.Program Val) (head : Nat) :
    Changing (startProgram program head) := by
  have hR := Changes.alongRequests
  refine hR.bind (.update fun x => ?_) fun _ => hR.bind changing_flush fun _ => ?_
  · let machine := Machine.ofProgram program x.engine.settings.safepointBudget
    exact (Changes.addThread x machine head [] .root (.ok .null)).trans (.aside rfl rfl rfl rfl rfl)
  refine hR.bind hR.saveRecord fun _ => .update fun x => ?_
  -- a program that is paused waits with its first job
  let ready : Execution := { x with stage := .ready, lane := .serving }
  have hready : Changes x ready := .aside rfl rfl rfl rfl rfl
  show Changes x (if ready.paused then ready else ready.submit .run)
  split
  · exact hready
  · exact hready.trans (.submit _ _)

namespace Changes

variable {x y z : Execution}

theorem alongRevival (node : Nat) : AlongRevival Changes node where
  toAlongHooks := alongHooks node
  submit := submit
  resumed _ _ := adjustStep _ node _

/-- **A program that was loaded goes on** from where it was put together. -/
theorem revive (x : Execution) (saved : SavedProgram) (program : LiveProgram) :
    Changes (x.withProgram program) (x.revive saved program) :=
  AlongRevival.revive alongRevival (fun _ => .aside rfl rfl rfl rfl rfl) x saved program

/-! ## Jobs -/

/-- **A job is done**, unless it is a checkpoint. -/
theorem handle (x : Execution) {job : Job} (hjob : job ≠ .checkpoint) : Changes x (x.handle job) := by
  cases job with
  | run => exact .refl x
  | completeStep node => exact completeStep x node
  | startBodies node => exact startBodies x node
  | checkpoint => exact absurd rfl hjob
  | stopTargets scope cause => exact orderStop x scope cause

end Changes

end Execution

end DurableFlow
