/-
Contextual variables follow the nesting of blocks.

Around a thread are the steps whose bodies it is in: the step whose body it runs, the one whose
body that step was called in, and so on to the script. They are found by going from threads to
the steps that they run for, and from steps to the threads that have called them, and it does
not matter where the text of a body was written. The variables of a thread are those that these
steps put over each other, and no other step has a part in them. So `env` finds what the
innermost `with_context` around it has set.

This holds in the middle of a turn as well, when a thread has gone through some calls already,
after any events and any number of restarts from what a checkpoint has left.
-/
import DurableFlow.Proofs.Scheduler.Limits
import DurableFlow.Proofs.Variables.Descent

set_option autoImplicit false

namespace DurableFlow

open Script History Text

/-! ## Steps around a thread -/

/-- **The steps around a thread**, the innermost first: live steps, each called by the thread of a body
of the next one. -/
inductive LiveProgram.Enclosing (p : LiveProgram) : Thread → List LiveStep → Prop where
  | script {thread : Thread} (root : thread.completions = [.root]) : Enclosing p thread []
  | body {thread caller : Thread} {n index : Nat} {branch : Option Branch} {step : LiveStep}
    {steps : List LiveStep} (runs : thread.completions = [.body n index branch])
    (live : Table.find? n p.steps = some step) (calls : Table.find? step.thread p.threads = some caller)
    (around : Enclosing p caller steps) : Enclosing p thread (step :: steps)

/-- There is one list of steps around a thread. -/
theorem LiveProgram.Enclosing.unique {p : LiveProgram} {thread : Thread} {steps others : List LiveStep}
    (h : p.Enclosing thread steps) (hothers : p.Enclosing thread others) : others = steps := by
  induction h generalizing others with
  | script root =>
    cases hothers with
    | script _ => rfl
    | body runs _ _ _ => cases root.symm.trans runs
  | body runs live calls _ ih =>
    cases hothers with
    | script root => cases root.symm.trans runs
    | body runs' live' calls' around' =>
      cases runs.symm.trans runs'
      cases live.symm.trans live'
      cases calls.symm.trans calls'
      rw [ih around']

/-- **The value of a contextual variable** inside some steps: what the innermost of those that set it
gives it. -/
def contextual (key : String) (steps : List LiveStep) : Option Val :=
  steps.findSome? fun step => Table.find? key step.overrides

theorem contextual_cons (key : String) (step : LiveStep) (steps : List LiveStep) :
    contextual key (step :: steps) =
      (Table.find? key step.overrides).or (contextual key steps) := by
  unfold contextual
  rw [List.findSome?_cons]
  cases Table.find? key step.overrides <;> rfl

namespace Execution

/-! ## Runs -/

/-- **The states of a script that runs with the standard steps**, through any events from outside and
any number of restarts. Nothing is asked of the archive: it may refuse to write. -/
inductive Ran : Execution → Prop where
  | started {x : Execution} (idle : Idle x) (program : Program Val) (head : Nat) :
    Ran ((startProgram program head).after x)
  | happened {x : Execution} (h : Ran x) (event : Event) (outside : event.isOutside = true) :
    Ran (x.happen event)
  | restarted {engine : Engine} {x y : Execution} (h : Ran x) (unended : x.program.finished = false)
    (standard : engine.IsStandard) (restarts : Restarts engine x y) (ready : y.stage = .ready) : Ran y

theorem Ran.events {x : Execution} (h : Ran x) {events : List Event}
    (houtside : events.all Event.isOutside = true) : Ran (events.foldl happen x) := by
  induction events generalizing x with
  | nil => exact h
  | cons event rest ih =>
    rw [List.all_cons, Bool.and_eq_true] at houtside
    exact ih (h.happened event houtside.1) houtside.2

/-- **A thread in the middle of its turn**: it was taken out, and has gone through calls that were over
at once. With it go the state, the input that it goes on with, and how many more calls it may make. -/
inductive Underway (x : Execution) (id fuel : Nat) (y : Execution) (thread : Thread) (input : Outcome) : Prop where
  | of_passes {first : Thread} {start : Outcome} {n : Nat} (found : Table.find? id x.program.threads = some first)
    (runnable : first.input = some start) (left : n + fuel = stepLimit)
    (passes : Passes n (x.takenOut id) { first with input := none } start y thread input) :
    Underway x id fuel y thread input

/-- What is left of a turn is what the thread does from there. -/
theorem Underway.runThread {x y : Execution} {id fuel : Nat} {thread : Thread} {input : Outcome}
    (h : Underway x id fuel y thread input) : x.runThread id = driveThread fuel y thread input := by
  obtain ⟨found, runnable, left, passes⟩ := h
  rw [runThread_eq found runnable, ← left, passes.driveThread_eq]

/-! ## Variables go down along a run -/

namespace Contained

variable {x y z : Execution}

/-- The program has no step yet, and its thread has no variables. -/
theorem begun (h : Idle x) (machine : Machine) (head : Nat) :
    Contained { (x.addThread machine head [] .root (.ok .null)).2 with lane := .closed } none [] := by
  let thread : Thread :=
    { id := x.record.threadsCreated + 1, machine, head, completions := [.root], input := some (.ok .null) }
  let begun : Execution := { (x.addThread machine head [] .root (.ok .null)).2 with lane := .closed }
  have hprogram : begun.program = ({} : LiveProgram).putThread thread := by
    show x.program.putThread thread = _
    rw [h.program]
  have hsteps : ∀ {n step}, begun.program.stepAt n ≠ some step := by
    intro n step hno
    rw [hprogram] at hno
    cases hno
  have hthread : ∀ {t other}, begun.program.threadAt none t = some other → other = thread := by
    intro t other hother
    rw [hprogram, LiveProgram.threadAt_putThread] at hother
    exact (changed_only hother).2
  constructor
  case engine => exact h.engine
  case named => exact fun hn => (not_named (x := begun) h.timers h.board h.stopping hn).elim
  case inherited =>
    rintro t n other hother ⟨index, branch, hbody⟩
    rw [hthread hother] at hbody
    cases hbody
  case root =>
    intro t other hother _
    rw [hthread hother]
  case shared => exact fun _ hstep => absurd hstep hsteps
  all_goals exact fun hstep => absurd hstep hsteps

/-- **A program is started.** -/
theorem startProgram (h : Idle x) (program : Program Val) (head : Nat) :
    Contained ((Execution.startProgram program head).after x) none [] := by
  unfold Execution.startProgram
  refine Attempt.after_bind (P := fun y => Contained y none []) ?_ fun _ y hy => ?_
  · exact begun h (Machine.ofProgram program x.engine.settings.safepointBudget) head
  refine Attempt.after_bind (P := fun y => Contained y none []) (hy.quiet (Quietly.onArchive _ y)) fun _ y hy => ?_
  refine Attempt.after_bind (P := fun y => Contained y none [])
    (hy.quiet (Quiet.alongCheckpoints.saveRecord y)) fun _ y hy => ?_
  let ready : Execution := { y with stage := .ready, lane := .serving }
  have hready : Contained ready none [] := by
    refine hy.remains (.of_program rfl (Nat.le_refl _) rfl) fun _ hn => .inl ?_
    exact (show SameWaits y ready from ⟨rfl, rfl, rfl⟩).named hn
  show Contained (if ready.paused then ready else ready.submit .run) none []
  split
  · exact hready
  · exact hready.quiet (quiet_submit _ _)

/-- A turn of the lane comes to its end, and the program may end with it. -/
theorem close (h : Contained x none []) (advanced : Bool) :
    Contained (Turn.close { advanced, execution := x }) none [] := by
  unfold Turn.close
  dsimp only
  split
  · exact h
  · split
    · let emptied : Execution := x.mapProgram fun p => { p with finished := true, rootOutcome := none }
      have hemptied : Contained emptied none [] := books.reseat h rfl rfl
      exact hemptied.quiet (quiet_finish emptied _)
    · split
      · exact h.quiet (Quiet.alongCheckpoints.whenIdle x)
      · exact h

/-- **Each event from outside keeps the invariant.** -/
theorem happen (h : Contained x none []) (hsound : Sound x none) (event : Event)
    (houtside : event.isOutside = true) : Contained (x.happen event) none [] := by
  cases event with
  | close advanced => exact h.close advanced
  | _ => exact turnwise.happen h hsound houtside fun _ hno => (by cases hno)

/-- **A program that is put together again** has the threads and steps that it was made of. -/
theorem reloaded (h : Contained y none []) (hsound : Sound y none) (hengine : z.engine.IsStandard)
    (htimers : z.timers = []) (hboard : z.board = {}) (hstopping : z.stopping = [])
    (hnodes : y.record.nextNodeId ≤ z.record.nextNodeId)
    (hrestored : restoreProgram Step.standard z.clock (y.program.save Step.standard) = .ok z.program) :
    Contained z none [] := by
  obtain ⟨_, _, hthreads, hsteps⟩ := @Sound.rebuilt y hsound _ _ _ _ hrestored
    (fun old new => new.place = old.place) (fun _ _ _ => rfl) StepReturned
    fun _ _ _ _ hnew => returned_restoreStep hnew
  have hold : ∀ {n new}, z.program.stepAt n = some new →
      ∃ old, y.program.stepAt n = some old ∧ StepReturned old new :=
    fun {n _} hnew => Table.exists_old_of_rel (hnew ▸ hsteps n)
  have hplaces : z.program.places none = y.program.places none :=
    funext fun t => map_eq_of_rel (hthreads t) fun heq => heq
  have hposts : z.program.posts none = y.program.posts none := LiveProgram.posts_of_places hplaces
  have hthread : ∀ {t new}, z.program.threadAt none t = some new →
      ∃ old, y.program.threadAt none t = some old ∧ old.place = new.place := by
    intro t new hnew
    have hplace : y.program.places none t = some new.place := by
      rw [← hplaces]
      exact congrArg (Option.map Thread.place) hnew
    exact Option.map_eq_some_iff.mp hplace
  -- what named steps was not saved: timers, waiters and orders are gone
  have hunnamed : ∀ {n}, ¬ Named z n := not_named htimers hboard hstopping
  constructor
  case engine => exact hengine
  case named => exact fun hn => (hunnamed hn).elim
  case known =>
    intro n new hnew
    obtain ⟨old, hstep, hlike⟩ := hold hnew
    have hblock : new.isBlock = old.isBlock := congrArg Seat.isBlock hlike.seat
    rw [hlike.function, hblock]
    exact h.known hstep
  case drained =>
    intro n new hnew
    obtain ⟨old, hstep, hlike⟩ := hold hnew
    exact hlike.bodies.trans (h.drained hstep)
  case below =>
    intro n new hnew
    obtain ⟨old, hstep, _⟩ := hold hnew
    exact Nat.lt_of_lt_of_le (h.below hstep) hnodes
  case account =>
    intro n new hnew
    obtain ⟨old, hstep, hlike⟩ := hold hnew
    rw [hposts]
    exact (h.account hstep).restored hlike.ledger
  case asked => exact fun _ body hmem => absurd hmem List.not_mem_nil
  case shared =>
    intro t n new step hnew hstep hcaller
    obtain ⟨old, hthread, hplace⟩ := hthread hnew
    obtain ⟨step', hstep', hlike⟩ := hold hstep
    have hsame : step.thread = step'.thread := congrArg Seat.thread hlike.seat
    have hvars := h.shared hthread hstep' (hsame.symm.trans hcaller)
    exact hlike.vars.trans (hvars.trans (congrArg Prod.snd hplace))
  -- the call and the thread of the body come back with the variables that they were saved with
  case inherited =>
    intro t n new hnew hruns
    obtain ⟨old, hthread, hplace⟩ := hthread hnew
    have hpost : old.post = new.post := congrArg Prod.fst hplace
    obtain ⟨step, hstep, hless, hvars⟩ := h.inherited hthread (hpost ▸ hruns)
    obtain ⟨step', hstep', hlike⟩ := Table.exists_new_of_rel (hstep ▸ hsteps n)
    have hsame : step'.thread = step.thread := congrArg Seat.thread hlike.seat
    refine ⟨step', hstep', hsame ▸ hless, ?_⟩
    rw [LiveStep.overrides, hlike.function, hlike.args, hlike.vars]
    exact (congrArg Prod.snd hplace).symm.trans hvars
  case root =>
    intro t new hnew hroot
    obtain ⟨old, hthread, hplace⟩ := hthread hnew
    have hpost : old.post = new.post := congrArg Prod.fst hplace
    have hcompletions : old.completions = new.completions := congrArg Post.completions hpost
    exact (congrArg Prod.snd hplace).symm.trans (h.root hthread (hcompletions.trans hroot))

end Contained

/-- What is read from a checkpoint has not begun. -/
theorem Rereads.idle {engine : Engine} {x y : Execution} (h : Rereads engine y x) (hengine : engine.IsStandard) :
    Idle x where
  engine := h.engine ▸ hengine
  program := h.program
  timers := h.timers
  board := h.board
  stopping := h.stopping
  lost := h.lost

/-- **A program that goes on after a restart** has the variables of the one that was saved. -/
theorem Contained.restarted {engine : Engine} {x y : Execution} (h : Contained x none []) (hsound : Sound x none)
    (hengine : engine.IsStandard) (hrestarts : Restarts engine x y) (hready : y.stage = .ready) :
    Contained y none [] := by
  obtain ⟨w, program, hrereads, _, hrestores, rfl⟩ := hrestarts.ready hready
  have hidle := hrereads.idle hengine
  have hnodes : x.record.nextNodeId ≤ w.record.nextNodeId := by
    rw [hrereads.record]
    exact (Quiet.alongCheckpoints.saveCheckpoint x).nodes
  refine books.revive ?_
  rw [h.engine.steps, hidle.engine.steps] at hrestores
  exact h.reloaded hsound hidle.engine hidle.timers hidle.board hidle.stopping hnodes hrestores

/-- **The invariant holds along every run.** -/
theorem Ran.contained {x : Execution} (h : Ran x) : Contained x none [] ∧ Sound x none := by
  induction h with
  | started idle program head =>
    obtain ⟨thread, hbegun⟩ := begun_startProgram ⟨idle.program, idle.lost⟩ program head
    exact ⟨.startProgram idle program head, hbegun.sound⟩
  | happened _ event outside ih => exact ⟨ih.1.happen ih.2 event outside, ih.2.happen event⟩
  | restarted _ unended standard restarts ready ih =>
    exact ⟨ih.1.restarted ih.2 standard restarts ready, ih.2.restarted unended restarts ready⟩

/-- A thread that goes through calls keeps the invariant, and waits for nothing. -/
theorem Contained.passes {x y : Execution} {n : Nat} {first thread : Thread} {start input : Outcome}
    (h : Contained x (some first) []) (hsound : Sound x (some first)) (hidle : first.step = none)
    (hpasses : Passes n x first start y thread input) :
    Contained y (some thread) [] ∧ Sound y (some thread) ∧ thread.step = none := by
  induction hpasses with
  | here => exact ⟨h, hsound, hidle⟩
  | @call n x y first thread start input outcome request machine _ _ answered ih =>
    obtain ⟨hcontained, hsound, hidle⟩ := ih h hsound hidle
    have hsound' : Sound y (some { thread with machine }) :=
      hsound.running_like ⟨rfl, rfl, rfl⟩ (hsound.out thread rfl).2
    have hcall := (Contained.turnwise.machine hcontained machine).startStep hsound' hidle request
    have hsettled := hsound'.startStep hidle request
    unfold StepCall.Keeps at hcall
    unfold StepCall.Settled at hsettled
    rw [answered] at hcall hsettled
    exact ⟨hcall, hsettled⟩

/-- A thread in its turn waits for nothing, and the invariant holds with it taken out. -/
theorem Underway.contained {x y : Execution} {id fuel : Nat} {thread : Thread} {input : Outcome}
    (hran : Ran x) (h : Underway x id fuel y thread input) :
    Contained y (some thread) [] ∧ Sound y (some thread) ∧ thread.step = none := by
  obtain ⟨hcontained, hsound⟩ := hran.contained
  obtain ⟨found, runnable, _, passes⟩ := h
  have hidle := (hsound.input found).mp (by rw [runnable]; rfl)
  have hlast := hsound.ranLast (some id)
  have hcontained' : Contained (x.mapProgram fun p => { p with lastRun := some id }) none [] :=
    Contained.books.reseat hcontained rfl rfl
  exact (Contained.turnwise.takeOut hcontained' hlast found).passes (hlast.takeOut found hidle) hidle passes

/-! ## What a thread sees -/

/-- **The variables of a thread** are those that the steps around it put over each other. -/
theorem Contained.enclosing {x : Execution} {running : Option Thread} (h : Contained x running [])
    (hsound : Sound x running) (hidle : ∀ r, running = some r → r.step = none) {t : Nat}
    {thread : Thread} (hthread : x.program.threadAt running t = some thread) :
    ∃ steps, x.program.Enclosing thread steps ∧
      ∀ key, Table.find? key thread.vars = contextual key steps := by
  -- the thread that has called a step is older than those that run the bodies of the step
  induction t using Nat.strongRecOn generalizing thread with
  | ind t ih =>
    obtain ⟨completion, hsingle⟩ := hsound.links.single hthread
    cases completion with
    | root =>
      refine ⟨[], .script hsingle, fun key => ?_⟩
      rw [h.root hthread hsingle]
      rfl
    | body n index branch =>
      obtain ⟨step, hstep, hless, hvars⟩ := h.inherited hthread ⟨index, branch, hsingle⟩
      obtain ⟨caller, hcaller, hwaits⟩ := hsound.links.caller hstep
      have hfound : Table.find? step.thread x.program.threads = some caller := by
        cases running with
        | none => exact hcaller
        | some other =>
          -- the one that is running waits for nothing
          refine ((LiveProgram.threadAt_eq_some.mp hcaller).resolve_left ?_).2
          rintro ⟨_, hsame⟩
          rw [← Option.some.inj hsame, hidle other rfl] at hwaits
          cases hwaits
      obtain ⟨steps, haround, hkeys⟩ := ih step.thread hless hcaller
      refine ⟨step :: steps, .body hsingle hstep hfound haround, fun key => ?_⟩
      rw [contextual_cons, hvars, Table.find?_insertAll step.nodup_overrides,
        h.shared hcaller hstep rfl, hkeys]

section Answers

variable {x : Execution} {r : Thread} {node : Nat} {value : Val}

/-- The step at a node was told a value, which nobody has taken. -/
def Told (x : Execution) (node : Nat) (value : Val) : Prop :=
  ∃ step, x.program.stepAt node = some step ∧ step.cell.outcome = some (.ok value)

/-- **What a step was told stays** until somebody takes it, whatever else it is told. -/
theorem Told.alongHost (node : Nat) (value : Val) : AlongHost fun x y => Told x node value → Told y node value := by
  have hdeliver : ∀ (n : Nat) (x : Execution) (outcome : Outcome), Told x node value →
      Told (x.deliver n outcome) node value := by
    rintro n x outcome ⟨step, hstep, hvalue⟩
    by_cases hn : node = n
    · subst hn
      refine ⟨_, stepAt_deliver hstep outcome, ?_⟩
      unfold StepCell.deliver
      rw [hvalue]
      split
      · exact hvalue
      · rfl
    · exact ⟨step, ((alongHooks_stepAt hn).deliver x outcome).trans hstep, hvalue⟩
  have hqueue : ∀ (n : Nat) (x : Execution) (source : BodySource) (overrides : Scope) (branch : Option String),
      Told x node value → Told (x.queueBody n source overrides branch).2 node value := by
    rintro n x source overrides branch ⟨step, hstep, hvalue⟩
    by_cases hn : node = n
    · subst hn
      exact ⟨_, stepAt_queueBody hstep source overrides branch, hvalue⟩
    · exact ⟨step, ((alongHooks_stepAt hn).queueBody x source overrides branch).trans hstep, hvalue⟩
  have hR : Chains fun x y => Told x node value → Told y node value := ⟨fun _ h => h, fun hxy hyz h => hyz (hxy h)⟩
  refine ⟨hR, fun n => .of_quiet hR ?_ (hdeliver n) (hqueue n) (fun _ _ _ h => h) fun _ _ _ _ h => h,
    fun _ _ _ _ _ h => h⟩
  rintro x y hxy ⟨step, hstep, hvalue⟩
  exact ⟨step, hxy.program ▸ hstep, hvalue⟩

/-- A step that was told a value when its start ends is over. -/
theorem Told.outcome_awaitStep (h : Told x node value) (thread : Thread) :
    (x.awaitStep thread node).outcome = some (.ok value) := by
  obtain ⟨step, hstep, hvalue⟩ := h
  have hlive : Table.find? node x.program.steps = some step := hstep
  unfold Execution.awaitStep
  simp only [hlive, switchToAsync_of_some hvalue, take_of_unmarked hvalue rfl]

/-- **A step that delivers as it starts** is over at once. -/
theorem outcome_of_delivered {step : LiveStep} (hstep : x.program.stepAt node = some step)
    (hcell : step.cell = {}) (memory : StepMemory) (function : String) (thread : Thread) :
    ((((x.react node { effects := [.deliver (.ok value)], memory }).acknowledge node function
      .completed).startBodies node).meanwhile node |>.awaitStep thread node).outcome = some (.ok value) := by
  let cell : StepCell := { outcome := some (.ok value) }
  have hreacted : (x.react node { effects := [.deliver (.ok value)], memory }).program.stepAt node =
      some { step with cell, memory } := by
    have hafter := stepAt_react hstep { effects := [.deliver (.ok value)], memory }
    rw [hcell] at hafter
    exact hafter
  generalize x.react node { effects := [.deliver (.ok value)], memory } = y at hreacted ⊢
  have hreplied : y.acknowledge node function .completed = y := by
    unfold Execution.acknowledge
    dsimp only
    rw [step?_of_live hreacted]
    rfl
  have hstarted : (y.startBodies node).program.stepAt node = some { step with cell, memory } := by
    have hlive : Table.find? node y.program.steps = _ := hreacted
    unfold Execution.startBodies takeBodies
    rw [hlive]
    dsimp only [StepCell.drainBodies]
    rw [show ([] : List PendingBody).map (BodyTask.start node) = [] from rfl, doTasks_nil]
    exact stepAt_adjusted hreacted _
  rw [hreplied]
  have htold : Told (y.startBodies node) node value := ⟨_, hstarted, rfl⟩
  exact ((Told.alongHost node value).meanwhile _ node htold).outcome_awaitStep thread

theorem outcome_launch {d : StepDef} {request : StepRequest} {memory : StepMemory}
    (hstart : ∀ view : StepView, view.args = request.args → view.vars = r.vars →
      d.start view = Step.succeed value []) :
    (x.launch r d request memory node).outcome = some (.ok value) := by
  unfold Execution.launch
  cases request.body with
  | none =>
    dsimp only
    rw [hstart _ rfl rfl]
    exact outcome_of_delivered ((congrFun (LiveProgram.stepAt_putStep _ _) node).trans
      (changed_self _ _ _)) rfl _ _ _
  | some body =>
    dsimp only
    rw [hstart _ rfl rfl]
    exact outcome_of_delivered ((congrFun (LiveProgram.stepAt_putStep _ _) node).trans
      (changed_self _ _ _)) rfl _ _ _

/-- **What `env` answers**: the variable of the thread, or null, if its node can be written. -/
theorem outcome_env {request : StepRequest} {key : String} (hengine : x.engine.IsStandard)
    (hname : request.function = "env") (hargs : request.args = [.str key]) :
    (x.startStep r request).outcome = some (.ok ((Table.find? key r.vars).getD .null)) ∨
      ∃ e y, appendNode r.head .atom "env" (Step.env.displayName request.args)
          (x.mapRecord (·.countCall "env")) = (.error e, y) ∧
        (x.startStep r request).outcome = some (.error e.toFailure) := by
  unfold Execution.startStep
  dsimp only
  have hdef : (x.mapRecord (·.countCall "env")).stepDef? "env" = some Step.env := by
    unfold stepDef?
    rw [show (x.mapRecord (·.countCall "env")).engine = x.engine from rfl, hengine.steps]
    rfl
  have hcreate : ∀ clock, Step.env.create clock request.args = .ok .empty := by
    intro clock
    rw [hargs]
    rfl
  rw [hname, hdef]
  simp only [show Step.env.takesBody = false from rfl, show Step.env.isBlock = false from rfl,
    Bool.false_and, Bool.false_eq_true, reduceIte, hcreate]
  cases hnode : appendNode r.head .atom "env" (Step.env.displayName request.args)
      (x.mapRecord (·.countCall "env")) with
  | mk result y =>
    cases result with
    | error e => exact .inr ⟨e, y, rfl, rfl⟩
    | ok node =>
      refine .inl (outcome_launch fun view hview hvars => ?_)
      show Step.succeed _ _ = _
      rw [StepView.arg, hview, hargs, hvars]
      rfl

end Answers

/-- **Contextual variables follow the nesting of blocks.** In every state of every run, around the thread
that calls `env` in its turn are steps that are found in one way only. The thread goes on with what the
innermost `with_context` among them has set, or with null; the call fails only if its node cannot be
written. Meanwhile each other thread has the variables of the steps around it, and of no others. -/
theorem env_follows_nesting {x y : Execution} {id fuel : Nat} {thread : Thread} {input : Outcome}
    {request : StepRequest} {machine : Machine} {key : String} (hran : Ran x)
    (hturn : Underway x id (fuel + 1) y thread input)
    (hcalls : driveUnder y.policy thread.machine input = .yielded (.step request) machine)
    (hname : request.function = "env") (hargs : request.args = [.str key]) :
    (∃ steps answer, y.program.Enclosing thread steps ∧
      (∀ others, y.program.Enclosing thread others → others = steps) ∧
      x.runThread id = driveThread fuel (y.startStep { thread with machine } request).execution
        (y.startStep { thread with machine } request).thread answer ∧
      (answer = .ok ((contextual key steps).getD .null) ∨
        ∃ e z, appendNode thread.head .atom "env" (Step.env.displayName request.args)
            (y.mapRecord (·.countCall "env")) = (.error e, z) ∧ answer = .error e.toFailure)) ∧
    ∀ t other, Table.find? t y.program.threads = some other →
      ∃ steps, y.program.Enclosing other steps ∧
        ∀ key, Table.find? key other.vars = contextual key steps := by
  obtain ⟨hcontained, hsound, hidle⟩ := hturn.contained hran
  have hwaits : ∀ r, some thread = some r → r.step = none := by
    rintro _ ⟨⟩
    exact hidle
  constructor
  · obtain ⟨steps, haround, hkeys⟩ :=
      hcontained.enclosing hsound hwaits (LiveProgram.threadAt_running y.program thread)
    have hgoes : ∀ {answer}, (y.startStep { thread with machine } request).outcome = some answer →
        x.runThread id = driveThread fuel (y.startStep { thread with machine } request).execution
          (y.startStep { thread with machine } request).thread answer := by
      intro answer hanswer
      rw [hturn.runThread, driveThread, hcalls]
      dsimp only
      rw [hanswer]
    rcases outcome_env (r := { thread with machine }) hcontained.engine hname hargs with
      hanswer | ⟨e, z, hfailed, hanswer⟩
    · refine ⟨steps, _, haround, fun others => haround.unique, hgoes hanswer, .inl ?_⟩
      rw [← hkeys]
    · exact ⟨steps, _, haround, fun others => haround.unique, hgoes hanswer, .inr ⟨e, z, hfailed, rfl⟩⟩
  · intro t other hother
    have hne : t ≠ thread.id := by
      rintro rfl
      rw [(hsound.out thread rfl).1] at hother
      cases hother
    exact hcontained.enclosing hsound hwaits ((LiveProgram.threadAt_of_ne y.program hne).trans hother)

/-- Two branches inside a context, one of which sets the same variable again for a body that waits:
`with_context("user", "ann") { parallel({ with_context("user", "bob") { wait_for_signal("go") } },
{ stage("s") { env("user") } }) }`. -/
def layered : ParsedScript :=
  let inside (value : String) (body : Expr) : Expr :=
    .call "with_context" [.str "user" {}, .str value {}] (some (.eval body {})) {}
  let waits : Expr := inside "bob" (.call "wait_for_signal" [.str "go" {}] none {})
  let asks : Expr := .call "stage" [.str "s" {}] (some (.eval (.call "env" [.str "user" {}] none {}) {})) {}
  let branches : Expr := .call "parallel" [.closure (.eval waits {}) {}, .closure (.eval asks {}) {}] none {}
  { body := .eval (inside "ann" branches) {}, span := {} }

/-- All threads of the script wait, but that of the stage. -/
def beforeAsking (program : Program Val) : Execution :=
  [.run 1, .run 2, .run 3, .run 5, .run 4].foldl happen ((startProgram program 1).after beforeStage)

/-- The thread of the stage asks, and is told what was set around both branches. -/
theorem env_follows_nesting_layered :
    ∃ program, compile "layered" layered = .ok program ∧
      ∃ y thread input request machine steps,
        Underway (beforeAsking program) 6 stepLimit y thread input ∧
        driveUnder y.policy thread.machine input = .yielded (.step request) machine ∧
        request.function = "env" ∧ request.args = [.str "user"] ∧
        y.program.Enclosing thread steps ∧
        steps.map LiveStep.function = ["stage", "parallel", "with_context"] ∧
        contextual "user" steps = some (.str "ann") ∧
        (y.startStep { thread with machine } request).outcome = some (.ok (.str "ann")) ∧
        ∀ others, y.program.Enclosing thread others → others = steps := by
  obtain ⟨program, hcompiled⟩ : ∃ program, compile "layered" layered = .ok program := ⟨_, rfl⟩
  obtain ⟨y, thread, input, request, machine, steps, hturn, hcalls, hname, hargs, haround, hsteps, hvalue,
      hanswer⟩ : ∃ y thread input request machine steps,
        Underway (beforeAsking program) 6 stepLimit y thread input ∧
        driveUnder y.policy thread.machine input = .yielded (.step request) machine ∧
        request.function = "env" ∧ request.args = [.str "user"] ∧
        y.program.Enclosing thread steps ∧
        steps.map LiveStep.function = ["stage", "parallel", "with_context"] ∧
        contextual "user" steps = some (.str "ann") ∧
        (y.startStep { thread with machine } request).outcome = some (.ok (.str "ann")) := by
    cases hcompiled
    exact ⟨_, _, _, _, _, _, .of_passes rfl rfl (Nat.zero_add _) (.here _ _ _), rfl, rfl, rfl,
      .body rfl rfl rfl (.body rfl rfl rfl (.body rfl rfl rfl (.script rfl))), rfl, rfl, rfl⟩
  have hstarted : Ran ((startProgram program 1).after beforeStage) :=
    .started ⟨.of_alone rfl fun _ => rfl, rfl, rfl, rfl, rfl, rfl⟩ program 1
  have hran : Ran (beforeAsking program) := hstarted.events rfl
  have hlimit : stepLimit = 99999999 + 1 := rfl
  obtain ⟨⟨found, _, _, hunique, _⟩, _⟩ :=
    env_follows_nesting hran (hlimit ▸ hturn) hcalls hname hargs
  cases hunique steps haround
  exact ⟨program, hcompiled, y, thread, input, request, machine, steps, hturn, hcalls, hname, hargs, haround,
    hsteps, hvalue, hanswer, hunique⟩

end Execution

end DurableFlow
