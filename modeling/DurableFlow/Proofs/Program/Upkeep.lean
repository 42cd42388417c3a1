/-
What holds of a program throughout a run.

A property of programs that the empty program has, that the moves of a program keep and that
comes back with a program that is restored holds in every state of a run. Most such properties
are about one thread or one step at a time; for these it is said once what has to be looked at.
Three are proved here. A live step is one of the standard steps, called with arguments that were
in order, and remembers what such a step can. It has the contextual variables of its thread. And
the numbers of exported blocks start with one.
-/
import DurableFlow.Proofs.History.Runs
import DurableFlow.Proofs.Scheduler.Evolution

set_option autoImplicit false

namespace DurableFlow

open Script Text

namespace Execution

/-! ## What the moves keep -/

/-- **A property of programs that holds throughout a run**: it holds of the empty program, the moves
keep it, and so does a restart from what was saved. -/
structure Upheld (I : Moment → Prop) : Prop where
  blank : ∀ c, I ⟨{}, none, c⟩
  move : ∀ {m m' : Moment}, I m → Move Step.standard m m' → I m'
  turn : ∀ {p : LiveProgram} {c : Nat} (lastRun : Option Nat), I ⟨p, none, c⟩ → I ⟨{ p with lastRun }, none, c⟩
  restored : ∀ {y : Execution} {clock : Timestamp} {program : LiveProgram}, Sound y none → I (y.moment none) →
    restoreProgram Step.standard clock (y.program.save Step.standard) = .ok program →
    I ⟨program, none, y.record.threadsCreated⟩

namespace Upheld

variable {I : Moment → Prop} {w x y z : Execution} {r r' : Option Thread} {past : History.Nodes}

theorem becomes (h : Upheld I) (hx : I (x.moment r)) (hsteps : x.engine.steps = Step.standard)
    (hxy : Becomes x r y r') : I (y.moment r') := by
  have hmoves := hxy.moves
  rw [hsteps] at hmoves
  generalize y.moment r' = m at hmoves
  induction hmoves with
  | refl => exact hx
  | tail _ hmove ih => exact h.move ih hmove

/-- An execution with the standard steps whose program has the property. -/
def At (I : Moment → Prop) (x : Execution) : Prop :=
  x.engine.steps = Step.standard ∧ I (x.moment none)

theorem at_of_becomes (h : Upheld I) (hx : At I x) (hxy : Becomes x none y none) : At I y :=
  ⟨hxy.engine ▸ hx.1, h.becomes hx.2 hx.1 hxy⟩

/-- **Each event from outside** keeps the property. -/
theorem at_happened (h : Upheld I) (hx : At I x) {event : Event} (houtside : event.isOutside = true) :
    At I (x.happen event) := by
  cases event with
  | run thread =>
    have hturn : At I (x.noteTurn thread) := ⟨hx.1, h.turn (some thread) hx.2⟩
    exact h.at_of_becomes hturn (.runThread x thread)
  | _ => exact h.at_of_becomes hx (.happen x houtside fun _ hno => (by cases hno))

theorem at_of_blank (h : Upheld I) (hsteps : x.engine.steps = Step.standard) (hprogram : x.program = {}) :
    At I x := by
  refine ⟨hsteps, ?_⟩
  unfold moment
  rw [hprogram]
  exact h.blank _

theorem at_started (h : Upheld I) (hstart : Started x) : At I x := by
  cases hstart with
  | of_create hsteps hblank hcreate =>
    have hcreated := created_of_create hsteps hblank hcreate
    exact h.at_of_becomes (h.at_of_blank hcreated.engine.steps hcreated.program) (.start _)

/-- A load that fails leaves the program as it is. -/
theorem becomes_failLoad (x : Execution) (e : EngineError) : Becomes x none (x.failLoad e) none := by
  let stopped : Execution := { x with loading := .none, lane := .absent, inbox := [] }
  have habandoned : ∀ left : Execution, Becomes x none left none →
      ∀ failure, Becomes x none (left.abandon failure) none := by
    intro left hleft failure
    -- before the record is finished, two flags are set
    have hhalted : Becomes left none { left with halted := true, loadCancelled := true } none :=
      .of_same rfl rfl rfl
    exact (hleft.trans hhalted).trans (.of_quiet (quiet_finish _ _))
  have hstopped : Becomes x none stopped none := .of_same rfl rfl rfl
  unfold failLoad
  dsimp only
  split
  · exact habandoned stopped hstopped _
  · exact habandoned (stopped.log _) (hstopped.trans (.of_quiet (quiet_log _ _))) _

/-- A program that goes on from a checkpoint. -/
theorem at_resumed {engine : Engine} (h : Upheld I) (hx : At I y) (hsound : Sound y none)
    (hengine : engine.IsStandard) (hw : Rereads engine y w) {program : LiveProgram}
    (hreads : restoreProgram w.engine.steps w.clock (y.program.save y.engine.steps) = .ok program) :
    At I (w.revive (y.program.save y.engine.steps) program) := by
  have hsteps : w.engine.steps = Step.standard := hw.engine ▸ hengine.steps
  have hthreads : w.record.threadsCreated = y.record.threadsCreated :=
    (congrArg Record.threadsCreated hw.record).trans (Quiet.alongCheckpoints.saveCheckpoint y).threads
  rw [hsteps, hx.1] at hreads
  have hloaded : At I { w with program } := by
    refine ⟨hsteps, ?_⟩
    have hrestored := h.restored hsound hx.2 hreads
    rw [← hthreads] at hrestored
    exact hrestored
  exact h.at_of_becomes hloaded (.revive w _ program)

/-- **A reload that has come to its end** keeps the property, whether the program goes on or is given up. -/
theorem at_reloaded {engine : Engine} (h : Upheld I) (hx : At I y) (horder : InOrder past y)
    (hengine : engine.IsStandard) (hreloads : y.saveCheckpoint.2.archive.Reloads y.saveCheckpoint.2.record)
    (hlegible : y.saveCheckpoint.2.archive.history.Legible) (hrestarts : Restarts engine y z)
    (hloaded : z.loading = .none) : At I z := by
  have hblank : ∀ {w}, Rereads engine y w → At I w :=
    fun hw => h.at_of_blank (hw.engine ▸ hengine.steps) hw.program
  cases hrestarts.restarted with
  | replaced opens read unreadable _ _ =>
    exact absurd unreadable (horder.opens hreloads hlegible opens)
  | closed hw _ _ _ => exact hblank hw
  | waits _ _ _ hloads => exact absurd hloaded hloads.loading
  | fails hw _ e => exact h.at_of_becomes (hblank hw) (becomes_failLoad _ e)
  | @resumes w program hw undone restores =>
    have hindex := (Light.alongCheckpoints.saveCheckpoint y).index
    have hdone : y.record.done = false :=
      (congrArg Index.done hindex).symm.trans ((congrArg Record.done hw.record).symm.trans undone)
    obtain ⟨_, _, hsound⟩ := horder.of_open hdone
    exact h.at_resumed hx hsound hengine hw restores

/-- **A property that is upheld holds in every state of a run.** -/
theorem leads (h : Upheld I) (hstart : Started x) (hxy : Leads x y) : I (y.moment none) := by
  -- the engine is carried along: a program that goes on is restored with the same step functions
  refine And.right (a := y.engine.steps = Step.standard) ?_
  show At I y
  induction hxy with
  | here => exact h.at_started hstart
  | happened _ event houtside ih => exact h.at_happened ih houtside
  | @reloaded engine y z hxy hunended hengine hlegible hwords hrestarts hloaded ih =>
    have hrecord := hstart.onRecord.leads hxy
    exact h.at_reloaded ih hrecord.order hengine (hrecord.reloads hlegible hrestarts) hlegible hrestarts hloaded

end Upheld

end Execution

/-! ## Threads and steps one by one -/

open Execution

/-- **What lasts of each thread and of each step**: it holds of a thread that begins and of a step
that is called, and nothing that is done to a thread or a step puts an end to it. -/
structure Lasting (T : Thread → Prop) (K : LiveStep → Prop) : Prop where
  first : ∀ program budget head id, T (.first program budget head id)
  forBody : ∀ {step : LiveStep} {budget : Nat} {closure : Closure Val} {machine : Machine}
    (body : PendingBody) (branch : Option Branch) (id : Nat), K step →
    invokeBody budget closure = .deferred machine → T (.forBody step body branch machine id)
  waits : ∀ {thread : Thread} (step : Option Nat) (input : Option Outcome), T thread →
    T { thread with step, input }
  driven : ∀ {thread : Thread} {machine : Machine} (policy : Option Policy) (input : Outcome), T thread →
    (driveUnder policy thread.machine input).left? = some machine → T { thread with machine }
  reread : ∀ {thread : Thread} {machine : Machine}, T thread →
    Machine.ofJson? thread.machine.toJson = some machine → T { thread with machine }
  called : ∀ {p : LiveProgram} {thread : Thread} {d : StepDef} {request : StepRequest} {clock : Timestamp}
    {memory : StepMemory} (node : Nat), T thread → Step.standard.find? request.function = some d →
    d.create clock request.args = .ok memory → K (.called p thread d request memory node)
  cell : ∀ {step : LiveStep} {cell : StepCell}, K step → step.cell.Turns cell → K { step with cell }
  hook : ∀ {step : LiveStep} {d : StepDef} {objects : Table Handle Val} {clock : Timestamp}
    {memory : StepMemory}, K step → Step.standard.find? step.function = some d →
    d.Leaves (step.view objects clock) memory → K { step with memory }
  bodies : ∀ {step : LiveStep} (branchTips : List Nat) (children : Table Nat Unit), K step →
    K { step with branchTips, children }
  restored : ∀ {step new : LiveStep} {clock : Timestamp}, K step →
    restoreStep Step.standard clock (step.save Step.standard) = .ok new → K new

/-- Each thread and each live step has its property. -/
structure Each (T : Thread → Prop) (K : LiveStep → Prop) (m : Moment) : Prop where
  sorted : Table.Sorted m.program.steps
  threads : ∀ entry ∈ m.program.threads, T entry.2
  running : ∀ thread, m.running = some thread → T thread
  steps : ∀ {n step}, Table.find? n m.program.steps = some step → K step

namespace Lasting

variable {T : Thread → Prop} {K : LiveStep → Prop}

/-- A step is changed in a way that keeps its property. -/
theorem adjust {p : LiveProgram} {r : Option Thread} {c c' n : Nat} (h : Each T K ⟨p, r, c⟩)
    {f : LiveStep → LiveStep} (hf : ∀ {step}, Table.find? n p.steps = some step → K (f step)) :
    Each T K ⟨p.adjustStep n f, r, c'⟩ := by
  refine ⟨h.sorted.adjust n f, h.threads, h.running, fun {k step} hstep => ?_⟩
  replace hstep : Table.find? k (Table.adjust n f p.steps) = some step := hstep
  rw [Table.find?_adjust] at hstep
  split at hstep
  · next heq =>
    obtain ⟨old, hold, rfl⟩ := Option.map_eq_some_iff.mp hstep
    exact hf (heq ▸ hold)
  · exact h.steps hstep

/-- A thread that has the property is put in. -/
theorem putThread {p : LiveProgram} {r r' : Option Thread} {c c' : Nat} (h : Each T K ⟨p, r, c⟩)
    {thread : Thread} (hthread : T thread) (hr : ∀ t, r' = some t → r = some t) :
    Each T K ⟨p.putThread thread, r', c'⟩ := by
  refine ⟨h.sorted, fun entry hmem => ?_, fun t ht => h.running t (hr t ht), h.steps⟩
  rcases Table.mem_insert hmem with rfl | hold
  · exact hthread
  · exact h.threads entry hold

/-- A step is dropped. -/
theorem dropStep {p : LiveProgram} {r : Option Thread} {c : Nat} (h : Each T K ⟨p, r, c⟩) (step : LiveStep) :
    Each T K ⟨p.dropStep step, r, c⟩ := by
  refine ⟨h.sorted.erase step.node, h.threads, h.running, fun {k other} hother => ?_⟩
  replace hother : Table.find? k (Table.erase step.node p.steps) = some other := hother
  rw [Table.find?_erase h.sorted] at hother
  split at hother
  · cases hother
  · exact h.steps hother

/-- A thread calls a step that has the property, and waits for it. -/
theorem callStep {p : LiveProgram} {r waiting : Thread} {c : Nat} (h : Each T K ⟨p, some r, c⟩)
    (body : Option (Closure Val)) {step : LiveStep} (hwaiting : T waiting) (hstep : K step) :
    Each T K ⟨(p.exported body).2.putStep step, some waiting, c⟩ := by
  constructor
  case sorted =>
    -- Exporting the closure of the body changes the objects only.
    show Table.Sorted (Table.insert step.node step (p.exported body).2.steps)
    rw [p.steps_exported]
    exact h.sorted.insert step.node step
  case threads =>
    show ∀ entry ∈ (p.exported body).2.threads, T entry.2
    rw [p.threads_exported]
    exact h.threads
  case running =>
    intro t ht
    cases ht
    exact hwaiting
  case steps =>
    intro k other hother
    replace hother : Table.find? k (Table.insert step.node step (p.exported body).2.steps) = some other :=
      hother
    rw [Table.find?_insert, p.steps_exported] at hother
    split at hother
    · cases hother
      exact hstep
    · exact h.steps hother

/-- **What lasts of each thread and each step** is kept by every move. -/
theorem move (h : Lasting T K) {m m' : Moment} (hm : Each T K m) (hmove : Move Step.standard m m') :
    Each T K m' := by
  cases hmove with
  | cell hstep hturns =>
    refine adjust hm fun hfound => ?_
    rw [hstep] at hfound
    cases hfound
    exact h.cell (hm.steps hstep) hturns
  | hook hstep hd hleaves =>
    refine adjust hm fun hfound => ?_
    rw [hstep] at hfound
    cases hfound
    exact h.hook (hm.steps hstep) hd hleaves
  | branch n tip => exact adjust hm fun {step} hstep => h.bodies _ step.children (hm.steps hstep)
  | orphan n t => exact adjust hm fun {step} hstep => h.bodies step.branchTips _ (hm.steps hstep)
  | @retire p r c n step hstep => exact dropStep hm step
  | @call p thread c node d request clock memory hd hcreate =>
    have hthread := hm.running thread rfl
    exact callStep hm request.body (h.waits (some node) thread.input hthread) (h.called node hthread hd hcreate)
  | begin program budget head => exact putThread hm (h.first _ _ _ _) fun _ ht => ht
  | @spawn p r c n budget step body branch closure machine hstep hdeferred =>
    have hthread := h.forBody body branch (c + 1) (hm.steps hstep) hdeferred
    have hput : Each T K ⟨p.putThread (.forBody step body branch machine (c + 1)), r, c⟩ :=
      putThread hm hthread fun _ ht => ht
    exact adjust hput fun {step} hstep => h.bodies step.branchTips _ (hput.steps hstep)
  | @resume p r c t thread outcome hthread =>
    have hold := hm.threads _ (Table.mem_of_find? hthread)
    exact putThread hm (h.waits none _ hold) fun _ ht => ht
  -- A thread that is told a cause differs in its input, the others are as they were.
  | tell told cause =>
    refine ⟨hm.sorted, fun entry hmem => ?_, hm.running, hm.steps⟩
    obtain ⟨old, hold, rfl⟩ := List.mem_map.mp hmem
    dsimp only
    split
    · exact h.waits old.2.step _ (hm.threads old hold)
    · exact hm.threads old hold
  | @take p c t thread hthread hinput =>
    refine ⟨hm.sorted, fun entry hmem => ?_, fun other hother => ?_, hm.steps⟩
    · exact hm.threads entry ((Table.erase_sublist t p.threads).subset hmem)
    · cases hother
      exact h.waits thread.step none (hm.threads _ (Table.mem_of_find? hthread))
  | @drive p thread c machine policy input hdrive =>
    refine ⟨hm.sorted, hm.threads, fun other hother => ?_, hm.steps⟩
    cases hother
    exact h.driven policy input (hm.running thread rfl) hdrive
  | @pass p thread c =>
    refine ⟨hm.sorted, hm.threads, fun other hother => ?_, hm.steps⟩
    cases hother
    exact h.waits none thread.input (hm.running thread rfl)
  | @put p thread c input =>
    exact putThread hm (h.waits thread.step input (hm.running thread rfl)) fun _ hno => (by cases hno)
  | drop => exact ⟨hm.sorted, hm.threads, fun _ hno => (by cases hno), hm.steps⟩
  | note rootOutcome finished => exact ⟨hm.sorted, hm.threads, hm.running, hm.steps⟩

/-- **What lasts of each thread and each step** holds throughout a run. -/
theorem upheld (h : Lasting T K) : Upheld (Each T K) where
  blank c := by
    constructor
    case sorted => exact .nil
    case threads => exact fun _ hno => absurd hno List.not_mem_nil
    case running => exact fun _ hno => (by cases hno)
    case steps => exact fun hno => (by cases hno)
  move := h.move
  turn _ hm := ⟨hm.sorted, hm.threads, hm.running, hm.steps⟩
  restored := by
    intro y clock program hsound hy hrestored
    obtain ⟨hthreadsSorted, hstepsSorted, hthreads, hsteps⟩ := @Sound.rebuilt y hsound _ _ clock _ hrestored
      (fun old new => T old → T new) (fun _ _ hmachine hold => h.reread hold hmachine)
      (fun old new => K old → K new) fun _ _ _ _ hnew hold => h.restored hold hnew
    refine ⟨hstepsSorted, fun entry hmem => ?_, fun _ hno => (by cases hno), fun {n step} hstep => ?_⟩
    · have hfound := hthreadsSorted.find?_of_mem hmem
      obtain ⟨old, hold, hlasts⟩ := Table.exists_old_of_rel (hfound ▸ hthreads entry.1)
      exact hlasts (hy.threads _ (Table.mem_of_find? hold))
    · replace hstep : program.stepAt n = some step := hstep
      obtain ⟨old, hold, hlasts⟩ := Table.exists_old_of_rel (hstep ▸ hsteps n)
      exact hlasts (hy.steps hold)

end Lasting

/-! ## Known steps -/

/-- **A live step that is one of the standard steps**: it was called with arguments that were in order,
and remembers what such a step can. -/
structure LiveStep.KnownAs (step : LiveStep) (d : StepDef) : Prop where
  found : Step.standard.find? step.function = some d
  displayName : step.displayName = d.displayName step.args
  created : ∃ clock memory, d.create clock step.args = .ok memory
  memory : Step.Holds step.function step.memory

def LiveStep.Known (step : LiveStep) : Prop := ∃ d, step.KnownAs d

/-- **Live steps stay known.** -/
theorem lasting_known : Lasting (fun _ => True) LiveStep.Known where
  first _ _ _ _ := trivial
  forBody _ _ _ _ _ := trivial
  waits _ _ _ := trivial
  driven _ _ _ _ := trivial
  reread _ _ := trivial
  called := by
    intro p thread d request clock memory node _ hd hcreate
    obtain ⟨hname, hmem⟩ := Step.mem_standard hd
    refine ⟨d, hd, rfl, ⟨clock, memory, hcreate⟩, ?_⟩
    have hholds := Step.holds_create hmem hcreate
    rw [hname] at hholds
    exact hholds
  cell := by
    rintro step cell ⟨d, h⟩ _
    exact ⟨d, h.found, h.displayName, h.created, h.memory⟩
  bodies := by
    rintro step branchTips children ⟨d, h⟩
    exact ⟨d, h.found, h.displayName, h.created, h.memory⟩
  hook := by
    rintro step d objects clock memory ⟨d', h⟩ hd hleaves
    rw [h.found] at hd
    cases hd
    obtain ⟨hname, hmem⟩ := Step.mem_standard h.found
    obtain ⟨earlier, created, hcreate⟩ := h.created
    have hargs : d.create earlier (step.view objects clock).args = .ok created := hcreate
    have hholds : Step.Holds d.function (step.view objects clock).memory := hname ▸ h.memory
    refine ⟨d, h.found, h.displayName, h.created, ?_⟩
    show Step.Holds step.function memory
    rw [← hname]
    cases hleaves with
    | started => exact Step.holds_start hmem hargs
    | bodyEnded index outcome => exact Step.holds_onBody hmem hholds index outcome
    | resumed =>
      rw [Step.onResume_memory hmem]
      exact hholds
  restored := by
    rintro step new clock ⟨d, h⟩ hrestored
    obtain ⟨d', memory, hd, hmemory, rfl⟩ := exists_of_restoreStep hrestored
    cases h.found.symm.trans hd
    obtain ⟨hname, hmem⟩ := Step.mem_standard h.found
    obtain ⟨earlier, created, hcreate⟩ := h.created
    have hholds := Step.holds_restore hmem hcreate hmemory
    rw [hname] at hholds
    exact ⟨d, h.found, rfl, h.created, hholds⟩

/-- **Every live step of a run is one of the standard steps.** -/
theorem Execution.known_of_leads {x y : Execution} (hstart : Started x) (hrun : Leads x y) {n : Nat}
    {step : LiveStep} (hstep : Table.find? n y.program.steps = some step) : step.Known :=
  (lasting_known.upheld.leads hstart hrun).steps hstep

/-! ## Numbers of exported blocks -/

/-- Numbers of exported blocks start with one. -/
theorem upheld_nextClosure : Upheld fun m => 1 ≤ m.program.nextClosure where
  blank _ := Nat.le_refl 1
  move := by
    intro m m' h hmove
    cases hmove with
    | @call p thread c node d request =>
      show 1 ≤ (p.exported request.body).2.nextClosure
      cases request.body with
      | none => exact h
      | some body => exact Nat.le_succ_of_le h
    | _ => exact h
  turn _ h := h
  restored := by
    intro y clock program hsound _ hrestored
    obtain ⟨_, _, _, _, rfl⟩ := exists_of_restoreProgram hrestored
    exact Nat.le_max_right _ _

/-! ## Variables -/

/-- **A live step has the contextual variables of its thread.** The numbers of threads are those that
were given out, and the running thread is not among the others. -/
structure Shared (m : Moment) : Prop where
  stepsSorted : Table.Sorted m.program.steps
  threadsSorted : Table.Sorted m.program.threads
  out : ∀ r, m.running = some r → Table.find? r.id m.program.threads = none
  own : ∀ {t thread}, m.program.threadAt m.running t = some thread → thread.id = t ∧ t ≤ m.threads
  vars : ∀ {n step}, Table.find? n m.program.steps = some step → step.thread ≤ m.threads ∧
    ∀ thread, m.program.threadAt m.running step.thread = some thread → thread.vars = step.vars

namespace Shared

variable {p q : LiveProgram} {r r' : Option Thread} {c : Nat}

/-- A step is changed in what has nothing to do with its thread. -/
theorem adjust (h : Shared ⟨p, r, c⟩) (n : Nat) {f : LiveStep → LiveStep}
    (hf : ∀ step, (f step).thread = step.thread ∧ (f step).vars = step.vars) :
    Shared ⟨p.adjustStep n f, r, c⟩ := by
  have hthreads : (p.adjustStep n f).threadAt r = p.threadAt r := LiveProgram.threadAt_congr rfl r
  refine ⟨h.stepsSorted.adjust n f, h.threadsSorted, h.out, ?_, fun {k step} hstep => ?_⟩
  · dsimp only
    rw [hthreads]
    exact h.own
  · replace hstep : Table.find? k (Table.adjust n f p.steps) = some step := hstep
    dsimp only
    rw [hthreads]
    rw [Table.find?_adjust] at hstep
    split at hstep
    · obtain ⟨old, hold, rfl⟩ := Option.map_eq_some_iff.mp hstep
      rw [(hf old).1, (hf old).2]
      exact h.vars hold
    · exact h.vars hstep

/-- The threads change, and each has the number and the variables of one that was there. -/
theorem threads (h : Shared ⟨p, r, c⟩) (hsteps : q.steps = p.steps) (hsorted : Table.Sorted q.threads)
    (hout : ∀ running, r' = some running → Table.find? running.id q.threads = none)
    (hold : ∀ {t thread}, q.threadAt r' t = some thread → ∃ old, p.threadAt r t = some old ∧
      thread.id = old.id ∧ thread.vars = old.vars) : Shared ⟨q, r', c⟩ := by
  constructor
  case stepsSorted =>
    dsimp only
    rw [hsteps]
    exact h.stepsSorted
  case threadsSorted => exact hsorted
  case out => exact hout
  case own =>
    intro t thread hthread
    obtain ⟨old, hfound, hid, _⟩ := hold hthread
    rw [hid]
    exact h.own hfound
  case vars =>
    intro n step hstep
    dsimp only at hstep
    rw [hsteps] at hstep
    refine ⟨(h.vars hstep).1, fun thread hthread => ?_⟩
    obtain ⟨old, hfound, _, hvars⟩ := hold hthread
    exact hvars.trans ((h.vars hstep).2 old hfound)

/-- A thread of the program is seen where it is. -/
theorem found (h : Shared ⟨p, r, c⟩) {t : Nat} {thread : Thread} (hthread : Table.find? t p.threads = some thread) :
    p.threadAt r t = some thread ∧ thread.id = t ∧ ∀ running, r = some running → t ≠ running.id := by
  have hne : ∀ running, r = some running → t ≠ running.id := by
    rintro running hrunning rfl
    have hnone := h.out running hrunning
    dsimp only at hnone
    rw [hnone] at hthread
    cases hthread
  have hseen : p.threadAt r t = some thread := by
    cases r with
    | none => exact hthread
    | some running => exact (p.threadAt_of_ne (hne running rfl)).trans hthread
  exact ⟨hseen, (h.own hseen).1, hne⟩

/-- The running thread goes on as another one. -/
theorem running {thread thread' : Thread} (h : Shared ⟨p, some thread, c⟩) (hid : thread'.id = thread.id)
    (hvars : thread'.vars = thread.vars) : Shared ⟨p, some thread', c⟩ := by
  refine h.threads rfl h.threadsSorted (fun other hother => ?_) fun {t other} hother => ?_
  · cases hother
    rw [hid]
    exact h.out thread rfl
  · rcases LiveProgram.threadAt_eq_some.mp hother with ⟨rfl, heq⟩ | ⟨hne, hfound⟩
    · cases heq
      exact ⟨thread, hid ▸ p.threadAt_running thread, hid, hvars⟩
    · exact ⟨other, (p.threadAt_of_ne (hid ▸ hne)).trans hfound, rfl, rfl⟩

/-- A thread is put in whose number is the next one. -/
theorem begun (h : Shared ⟨p, r, c⟩) {thread : Thread} (hid : thread.id = c + 1) :
    Shared ⟨p.putThread thread, r, c + 1⟩ := by
  -- The next number is above all that were given out, that of the running thread included.
  have hne : ∀ running, r = some running → thread.id ≠ running.id := by
    rintro running rfl heq
    have hle : running.id ≤ c := (h.own (p.threadAt_running running)).2
    omega
  have hthreads := LiveProgram.threadAt_putThread_of_ne p hne
  have hfind : ∀ t, t ≠ c + 1 → (p.putThread thread).threadAt r t = p.threadAt r t := by
    intro t ht
    rw [hthreads]
    exact changed_of_ne _ _ (hid ▸ ht)
  constructor
  case stepsSorted => exact h.stepsSorted
  case threadsSorted => exact h.threadsSorted.insert _ _
  case out =>
    intro running hrunning
    dsimp only at hrunning ⊢
    rw [LiveProgram.find?_putThread, if_neg (hne running hrunning).symm]
    exact h.out running hrunning
  case own =>
    intro t other hother
    dsimp only at hother ⊢
    by_cases ht : t = c + 1
    · rw [hthreads, ht, ← hid, changed_self] at hother
      cases hother
      exact ⟨hid.trans ht.symm, Nat.le_of_eq ht⟩
    · rw [hfind t ht] at hother
      exact ⟨(h.own hother).1, Nat.le_succ_of_le (h.own hother).2⟩
  case vars =>
    intro n step hstep
    obtain ⟨hle, hvars⟩ := h.vars hstep
    dsimp only at hle ⊢
    refine ⟨Nat.le_succ_of_le hle, fun other hother => hvars other ?_⟩
    rw [hfind _ (by omega)] at hother
    exact hother

/-- A step is put in that has the variables of its thread. -/
theorem putStep (h : Shared ⟨p, r, c⟩) {step : LiveStep} (hle : step.thread ≤ c)
    (hvars : ∀ thread, p.threadAt r step.thread = some thread → thread.vars = step.vars) :
    Shared ⟨p.putStep step, r, c⟩ := by
  have hthreads : (p.putStep step).threadAt r = p.threadAt r := LiveProgram.threadAt_congr rfl r
  refine ⟨h.stepsSorted.insert _ _, h.threadsSorted, h.out, ?_, fun {k other} hother => ?_⟩
  · dsimp only
    rw [hthreads]
    exact h.own
  · replace hother : Table.find? k (Table.insert step.node step p.steps) = some other := hother
    dsimp only
    rw [hthreads]
    rw [Table.find?_insert] at hother
    split at hother
    · cases hother
      exact ⟨hle, hvars⟩
    · exact h.vars hother

/-- Something is noted of a program. -/
theorem noted (h : Shared ⟨p, r, c⟩) (hsteps : q.steps = p.steps) (hthreads : q.threads = p.threads) :
    Shared ⟨q, r, c⟩ := by
  refine h.threads hsteps (hthreads ▸ h.threadsSorted) (fun running hrunning => ?_) fun {t other} hother => ?_
  · rw [hthreads]
    exact h.out running hrunning
  · rw [LiveProgram.threadAt_congr hthreads] at hother
    exact ⟨other, hother, rfl, rfl⟩

/-- A step is dropped. -/
theorem dropStep (h : Shared ⟨p, r, c⟩) (step : LiveStep) : Shared ⟨p.dropStep step, r, c⟩ := by
  have hthreads : (p.dropStep step).threadAt r = p.threadAt r := LiveProgram.threadAt_congr rfl r
  refine ⟨h.stepsSorted.erase _, h.threadsSorted, h.out, ?_, fun {k other} hother => ?_⟩
  · dsimp only
    rw [hthreads]
    exact h.own
  · replace hother : Table.find? k (Table.erase step.node p.steps) = some other := hother
    rw [Table.find?_erase h.stepsSorted] at hother
    dsimp only
    rw [hthreads]
    split at hother
    · cases hother
    · exact h.vars hother

/-- A thread calls a step, which gets its variables, and waits for it. -/
theorem callStep {thread : Thread} (h : Shared ⟨p, some thread, c⟩) (node : Nat)
    (body : Option (Closure Val)) (step : LiveStep) (hcaller : step.thread = thread.id)
    (hvars : step.vars = thread.vars) :
    Shared ⟨(p.exported body).2.putStep step, some { thread with step := some node }, c⟩ := by
  have hcalling : Shared ⟨p, some { thread with step := some node }, c⟩ := h.running rfl rfl
  have hwaits := hcalling.noted (p.steps_exported body) (p.threads_exported body)
  refine hwaits.putStep ?_ fun other hother => ?_
  · rw [hcaller]
    exact (h.own (p.threadAt_running thread)).2
  · rw [hcaller] at hother
    cases (LiveProgram.threadAt_running _ _).symm.trans hother
    exact hvars.symm

/-- A thread of the program is put back changed. -/
theorem put (h : Shared ⟨p, r, c⟩) {thread thread' : Thread} {t : Nat}
    (hthread : Table.find? t p.threads = some thread) (hid : thread'.id = thread.id)
    (hvars : thread'.vars = thread.vars) : Shared ⟨p.putThread thread', r, c⟩ := by
  obtain ⟨hseen, ht, hne⟩ := h.found hthread
  have hapart : ∀ running, r = some running → thread'.id ≠ running.id := by
    rw [hid, ht]
    exact hne
  refine h.threads rfl (h.threadsSorted.insert _ _) (fun running hrunning => ?_) fun {u other} hother => ?_
  · rw [LiveProgram.find?_putThread, if_neg fun heq => hapart running hrunning heq.symm]
    exact h.out running hrunning
  · rw [LiveProgram.threadAt_putThread_of_ne p hapart, hid, ht] at hother
    exact changed_elim hother ⟨thread, hseen, hid, hvars⟩ fun hold => ⟨_, hold, rfl, rfl⟩

/-- The threads of the program are changed, but not the one that runs. -/
theorem mapped (h : Shared ⟨p, r, c⟩) {f : Thread → Thread} (hid : ∀ thread, (f thread).id = thread.id)
    (hvars : ∀ thread, (f thread).vars = thread.vars) :
    Shared ⟨{ p with threads := Table.mapValues f p.threads }, r, c⟩ := by
  have hold : ∀ {t other}, Table.find? t (Table.mapValues f p.threads) = some other →
      ∃ old, Table.find? t p.threads = some old ∧ other.id = old.id ∧ other.vars = old.vars := by
    intro t other hother
    rw [Table.find?_mapValues] at hother
    obtain ⟨old, hold, rfl⟩ := Option.map_eq_some_iff.mp hother
    exact ⟨old, hold, hid old, hvars old⟩
  have hsorted : Table.Sorted (Table.mapValues f p.threads) := Table.Sorted.mapValues h.threadsSorted f
  refine h.threads rfl hsorted (fun running hrunning => ?_) fun {t other} hother => ?_
  · dsimp only
    rw [Table.find?_mapValues, h.out running hrunning]
    rfl
  -- The running thread is not in the program, and the change does not reach it.
  · cases r with
    | none => exact hold hother
    | some running =>
      rcases LiveProgram.threadAt_eq_some.mp hother with ⟨rfl, heq⟩ | ⟨hne, hfound⟩
      · cases heq
        exact ⟨_, p.threadAt_running _, rfl, rfl⟩
      · obtain ⟨old, hbefore, hsame⟩ := hold hfound
        exact ⟨old, (p.threadAt_of_ne hne).trans hbefore, hsame⟩

/-- A thread is taken out to run. -/
theorem takenOut (h : Shared ⟨p, none, c⟩) {thread thread' : Thread} {t : Nat}
    (hthread : Table.find? t p.threads = some thread) (hid : thread'.id = thread.id)
    (hvars : thread'.vars = thread.vars) : Shared ⟨p.dropThread t, some thread', c⟩ := by
  obtain ⟨hseen, ht, _⟩ := h.found hthread
  refine h.threads rfl (h.threadsSorted.erase _) (fun running hrunning => ?_) fun {u other} hother => ?_
  · cases hrunning
    show Table.find? thread'.id (Table.erase t p.threads) = none
    rw [Table.find?_erase h.threadsSorted, if_pos (hid.trans ht)]
  · rcases LiveProgram.threadAt_eq_some.mp hother with ⟨rfl, heq⟩ | ⟨_, hfound⟩
    · cases heq
      exact ⟨thread, (hid.trans ht) ▸ hseen, hid, hvars⟩
    · replace hfound : Table.find? u (Table.erase t p.threads) = some other := hfound
      rw [Table.find?_erase h.threadsSorted] at hfound
      split at hfound
      · cases hfound
      · exact ⟨other, hfound, rfl, rfl⟩

/-- The running thread is put back. -/
theorem putBack {thread thread' : Thread} (h : Shared ⟨p, some thread, c⟩) (hid : thread'.id = thread.id)
    (hvars : thread'.vars = thread.vars) : Shared ⟨p.putThread thread', none, c⟩ := by
  refine h.threads rfl (h.threadsSorted.insert _ _) (fun _ hno => (by cases hno)) fun {u other} hother => ?_
  rw [LiveProgram.threadAt_putThread, hid] at hother
  rcases changed_eq_some.mp hother with ⟨rfl, heq⟩ | ⟨hne, hfound⟩
  · cases heq
    exact ⟨thread, p.threadAt_running thread, hid, hvars⟩
  · exact ⟨other, (p.threadAt_of_ne hne).trans hfound, rfl, rfl⟩

/-- **The moves keep the variables of steps and threads together.** -/
theorem move {m m' : Moment} (h : Shared m) (hmove : Move Step.standard m m') : Shared m' := by
  cases hmove with
  | cell _ _ => exact h.adjust _ fun _ => ⟨rfl, rfl⟩
  | hook _ _ _ => exact h.adjust _ fun _ => ⟨rfl, rfl⟩
  | branch n tip => exact h.adjust _ fun _ => ⟨rfl, rfl⟩
  | orphan n t => exact h.adjust _ fun _ => ⟨rfl, rfl⟩
  | @retire p r c n step hstep => exact h.dropStep step
  | @call p thread c node d request clock memory hd hcreate =>
    exact h.callStep node request.body (.called p thread d request memory node) rfl rfl
  | begin program budget head => exact h.begun rfl
  | @spawn p r c n budget step body branch closure machine hstep hdeferred =>
    have hbegun : Shared ⟨p.putThread (.forBody step body branch machine (c + 1)), r, c + 1⟩ := h.begun rfl
    exact hbegun.adjust _ fun _ => ⟨rfl, rfl⟩
  | @resume p r c t thread outcome hthread => exact h.put hthread rfl rfl
  | @tell p r c told cause =>
    refine h.mapped (fun thread => ?_) fun thread => ?_
    · split <;> rfl
    · split <;> rfl
  | @take p c t thread hthread hinput => exact h.takenOut hthread rfl rfl
  | @drive p thread c machine policy input hdrive => exact h.running rfl rfl
  | @pass p thread c => exact h.running rfl rfl
  | @put p thread c input => exact h.putBack rfl rfl
  | @drop p thread c =>
    refine h.threads rfl h.threadsSorted (fun _ hno => (by cases hno)) fun {u other} hother => ?_
    exact ⟨other, (h.found hother).1, rfl, rfl⟩
  | note rootOutcome finished => exact h.noted rfl rfl

end Shared

/-- **Throughout a run a live step has the variables of its thread.** -/
theorem upheld_shared : Upheld Shared where
  blank c := by
    constructor
    case stepsSorted => exact .nil
    case threadsSorted => exact .nil
    case out => exact fun _ _ => rfl
    case own => exact fun hno => (by cases hno)
    case vars => exact fun hno => (by cases hno)
  move h hmove := h.move hmove
  turn _ h := h.noted rfl rfl
  restored := by
    intro y clock program hsound hy hrestored
    -- A restored step names the thread it was saved with, and the variables are saved with it.
    have hstep : ∀ {old new : LiveStep}, restoreStep Step.standard clock (old.save Step.standard) = .ok new →
        new.thread = old.thread ∧ new.vars = old.vars := by
      intro old new hnew
      obtain ⟨d, memory, _, _, rfl⟩ := exists_of_restoreStep hnew
      exact ⟨rfl, rfl⟩
    obtain ⟨hthreadsSorted, hstepsSorted, hthreads, hsteps⟩ := @Sound.rebuilt y hsound _ _ clock _ hrestored
      (fun old new => new.id = old.id ∧ new.vars = old.vars) (fun _ _ _ => ⟨rfl, rfl⟩)
      (fun old new => new.thread = old.thread ∧ new.vars = old.vars) fun _ _ _ _ hnew => hstep hnew
    constructor
    case stepsSorted => exact hstepsSorted
    case threadsSorted => exact hthreadsSorted
    case out => exact fun _ hno => (by cases hno)
    case own =>
      intro t thread hthread
      replace hthread : Table.find? t program.threads = some thread := hthread
      obtain ⟨old, hold, hid, _⟩ := Table.exists_old_of_rel (hthread ▸ hthreads t)
      rw [hid]
      exact hy.own hold
    case vars =>
      intro n step hstep
      replace hstep : program.stepAt n = some step := hstep
      obtain ⟨old, hold, hthread, hvars⟩ := Table.exists_old_of_rel (hstep ▸ hsteps n)
      rw [hthread, hvars]
      obtain ⟨hle, hshared⟩ := hy.vars hold
      refine ⟨hle, fun thread hfound => ?_⟩
      replace hfound : Table.find? old.thread program.threads = some thread := hfound
      obtain ⟨earlier, hearlier, _, hsame⟩ := Table.exists_old_of_rel (hfound ▸ hthreads old.thread)
      exact hsame.trans (hshared earlier hearlier)

end DurableFlow
