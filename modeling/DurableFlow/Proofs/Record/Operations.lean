/-
Everything that can be asked of an execution.

The host creates an execution or loads one, and asks for what it likes in any order. The lane takes its
turns, steps deliver between any two of its moves, programs that are being loaded are looked at, and
calls on the archive are refused now and then. Whatever is asked for, the execution goes on, or it comes
to its end in that operation and for one of a few reasons.

What is true of basic changes, of checkpoints and of the end is therefore true of whole lives.
-/
import DurableFlow.Execution.Control
import DurableFlow.Proofs.Record.Courses

set_option autoImplicit false

namespace DurableFlow.Execution

open Script Text History

/-! ## Going on -/

/-- **An execution proceeds**: it goes on, something changes beside its record and its files, or the host
refuses other calls on the archive than before. -/
inductive Proceeds (x : Execution) : Execution → Prop
  | goesOn {y : Execution} (h : GoesOn x y) : Proceeds x y
  | beside {y : Execution} (hengine : y.engine = x.engine) (hrecord : y.record = x.record)
    (harchive : y.archive = x.archive) (hinterrupts : y.interrupts = x.interrupts) : Proceeds x y
  | refuses (refuse : ArchiveCall → Option EngineError) :
    Proceeds x { x with archive := { x.archive with refuse } }

/-- The course of an execution that does not come to its end. -/
def Course (x y : Execution) : Prop := Relation.ReflTransGen Proceeds x y

namespace Course

variable {x y z : Execution}

theorem refl (x : Execution) : Course x x := Relation.ReflTransGen.refl

theorem trans (hxy : Course x y) (hyz : Course y z) : Course x z := Relation.ReflTransGen.trans hxy hyz

theorem goesOn (h : GoesOn x y) : Course x y := Relation.ReflTransGen.single (.goesOn h)

theorem changes (h : Changes x y) : Course x y := goesOn (.changes h)

theorem beside (hengine : y.engine = x.engine) (hrecord : y.record = x.record) (harchive : y.archive = x.archive)
    (hinterrupts : y.interrupts = x.interrupts) : Course x y :=
  Relation.ReflTransGen.single (.beside hengine hrecord harchive hinterrupts)

/-- A move of the lane does not end an execution. -/
theorem move {t next : Turn} (h : t.move = some next) : Course t.execution next.execution := by
  have hevent : ∀ (x : Execution) (event : Event), (∀ advanced, event ≠ .close advanced) →
      Course x (x.happen event) := fun x _ hclose => goesOn (goesOn_happen x hclose)
  unfold Turn.move at h
  split at h
  · next job rest hinbox =>
    cases h
    have hworks := hevent t.execution .work (by simp)
    rw [happen, work, hinbox] at hworks
    exact hworks
  · split at h
    · cases h
    · split at h
      · cases h
      · next id _ =>
        cases h
        dsimp only
        split
        · exact hevent _ (.run id) (by simp)
        -- the first thread of a turn runs after the mark
        · exact (hevent _ .markStale (by simp)).trans (hevent _ (.run id) (by simp))

theorem exhaust (fuel : Nat) (t : Turn) : Course t.execution (Turn.exhaust fuel t).execution := by
  induction fuel generalizing t with
  | zero => exact .refl _
  | succ fuel ih =>
    rw [Turn.exhaust]
    split
    · exact .refl _
    · next next hnext => exact (move hnext).trans (ih next)

end Course

/-- **A turn of the lane**: the execution goes on, or in the end its program is over. -/
theorem turn_cases (x : Execution) : Course x x.turn ∨
    ∃ y, Course x y ∧ y.program.finished = false ∧ y.program.isOver = true ∧ x.turn = y.endProgram := by
  let exhausted := Turn.exhaust moveLimit { execution := x }
  have hmoves : Course x exhausted.execution := .exhaust moveLimit { execution := x }
  rcases close_cases exhausted.execution exhausted.advanced with hgoes | ⟨hopen, hover, heq⟩
  · exact .inl (hmoves.trans (.goesOn hgoes))
  · exact .inr ⟨_, hmoves, hopen, hover, heq⟩

/-! ## Operations -/

/-- **What can be asked of an execution.** -/
inductive Operation where
  | happen (event : Event)
  /-- Whatever the execution does by itself next. -/
  | progress
  | start
  /-- A program that is being loaded is looked at. -/
  | poll
  | finish (outcome : Outcome)
  | abandon (failure : Failure)
  /-- The host refuses these calls on the archive from now on, and no others. -/
  | refuse (refuse : ArchiveCall → Option EngineError)
  /-- It is decided what becomes of an execution whose files were read. -/
  | resume

/-- The state after an operation. -/
def perform (x : Execution) : Operation → Execution
  | .happen event => x.happen event
  | .progress => x.progress.getD x
  | .start => Execution.start.after x
  | .poll => x.pollLoad
  | .finish outcome => x.finish outcome
  | .abandon failure => x.abandon failure
  | .refuse refuse => { x with archive := { x.archive with refuse } }
  | .resume => x.resumeFrom

/-- What only a lane does that serves. -/
def Event.isOfLane : Event → Bool
  | .work => true
  | .run _ => true
  | .markStale => true
  | .close _ => true
  | _ => false

/-- Operations that may find a program over. -/
def Operation.mayConclude : Operation → Bool
  | .progress => true
  | .happen (.close _) => true
  | _ => false

/-- The failure that is raised when a program could not be loaded. -/
def loadFailure : EngineError → Failure
  | .cancelled => .interrupted "program load was cancelled"
  | e => { code := Failure.Code.loadFailed, message := e.message }

/-- The failure of an execution that was not left clean. -/
def resumeFailure (durability : Durability) : Failure :=
  { code := Failure.Code.notResumable, message := (notResumable durability).message }

/-- **Why an execution ends** in an operation, and with which outcome. -/
inductive Concludes (x z : Execution) : Operation → Outcome → Prop
  /-- The program is over. Its outcome is that of its first thread. -/
  | concluded {y : Execution} {operation : Operation} (hoperation : operation.mayConclude = true)
    (hcourse : Course x y) (hopen : y.program.finished = false) (hover : y.program.isOver = true)
    (hz : z = y.mapProgram fun p => { p with finished := true, rootOutcome := none }) :
    Concludes x z operation
      (y.program.rootOutcome.getD (.error (.internal "program ended without a result")))
  | uncompiled (e : EngineError) (h : compileSource x.record.scriptName x.record.script = .error e) :
    Concludes x z .start (.error (uncompiled e))
  | unloaded (e : EngineError) (hloads : x.loading ≠ .none) : Concludes x z .poll (.error (loadFailure e))
  | unclean (hopen : x.record.done = false) (hunclean : x.record.clean = false) :
    Concludes x z .resume (.error (resumeFailure x.record.durability))
  | finished (outcome : Outcome) (hz : z = x) : Concludes x z (.finish outcome) outcome
  | abandoned (failure : Failure) (hz : z = { x with halted := true, loadCancelled := true }) :
    Concludes x z (.abandon failure) (.error failure)

/-- **What an operation leads to**: the execution goes on, or it comes to its end. -/
inductive Outgrows (x : Execution) (operation : Operation) : Execution → Prop
  | goesOn {y : Execution} (h : Course x y) : Outgrows x operation y
  | ends {z : Execution} {outcome : Outcome} (hcourse : Course x z)
    (hconcludes : Concludes x z operation outcome) : Outgrows x operation (z.finish outcome)

theorem Outgrows.of_program {x y : Execution} {operation : Operation}
    (hoperation : operation.mayConclude = true) (hcourse : Course x y)
    (hopen : y.program.finished = false) (hover : y.program.isOver = true) :
    Outgrows x operation y.endProgram :=
  .ends (hcourse.trans (.beside rfl rfl rfl rfl)) (.concluded hoperation hcourse hopen hover rfl)

theorem Outgrows.of_happen (x : Execution) (event : Event) :
    Outgrows x (.happen event) (x.happen event) := by
  by_cases hclose : ∀ advanced, event ≠ .close advanced
  · exact .goesOn (.goesOn (goesOn_happen x hclose))
  · obtain ⟨advanced, rfl⟩ : ∃ advanced, event = .close advanced := by
      simpa only [not_forall, not_not] using hclose
    show Outgrows x _ (Turn.close { advanced, execution := x })
    rcases close_cases x advanced with hgoes | ⟨hopen, hover, heq⟩
    · exact .goesOn (.goesOn hgoes)
    · rw [heq]
      exact .of_program rfl (.refl x) hopen hover

theorem Outgrows.of_progress (x : Execution) : Outgrows x .progress (x.progress.getD x) := by
  unfold Execution.progress
  split
  · show Outgrows x .progress x.turn
    rcases turn_cases x with hgoes | ⟨y, hcourse, hopen, hover, heq⟩
    · exact .goesOn hgoes
    · rw [heq]
      exact .of_program rfl hcourse hopen hover
  · split
    · exact .goesOn (.changes (Changes.alongHost.fireTimers x))
    · split
      · exact .goesOn (.changes (Changes.alongHost.stopNext x))
      · exact .goesOn (.refl x)

theorem Outgrows.of_start (x : Execution) : Outgrows x .start (start.after x) := by
  rcases start_cases x with hchanges | ⟨e, hcompiles, y, hchanges, heq⟩
  · exact .goesOn (.changes hchanges)
  · rw [heq]
    exact .ends (.changes hchanges) (.uncompiled e hcompiles)

theorem Outgrows.of_abandon {x y : Execution} {operation : Operation} {failure : Failure} (hcourse : Course x y)
    (hconcludes : Concludes x { y with halted := true, loadCancelled := true } operation (.error failure)) :
    Outgrows x operation (y.abandon failure) :=
  .ends (hcourse.trans (.beside rfl rfl rfl rfl)) hconcludes

/-- A load that fails is the end. -/
theorem Outgrows.of_failLoad {x y : Execution} (hcourse : Course x y) (hloads : x.loading ≠ .none)
    (e : EngineError) : Outgrows x .poll (y.failLoad e) := by
  let given : Execution := { y with loading := .none, lane := .absent, inbox := [] }
  have hgiven : Course x given := hcourse.trans (.beside rfl rfl rfl rfl)
  -- a load that was cancelled is not logged
  by_cases hcancelled : e = .cancelled
  · subst hcancelled
    exact .of_abandon hgiven (.unloaded .cancelled hloads)
  · have hfailed : y.failLoad e =
        (given.log ("Failed to load program: " ++ e.message)).abandon (loadFailure e) := by
      cases e with
      | cancelled => exact absurd rfl hcancelled
      | _ => rfl
    rw [hfailed]
    exact .of_abandon (hgiven.trans (.changes (.log given _))) (.unloaded e hloads)

/-- A program that is being loaded is waited for, goes on, or is the end. -/
theorem Outgrows.of_polls {x y : Execution} (h : Polls x y) : Outgrows x .poll y := by
  cases h with
  | idle _ => exact .goesOn (.refl x)
  | waits _ => exact .goesOn (.beside rfl rfl rfl rfl)
  | fails objects e hloads =>
    let found : Execution := { x with liveObjects := objects }
    have hfound : Course x found := .beside rfl rfl rfl rfl
    exact .of_failLoad hfound hloads e
  | revives objects saved program _ =>
    let found : Execution := { x with liveObjects := objects }
    have hgiven : Course x (found.withProgram program) := .beside rfl rfl rfl rfl
    exact .goesOn (hgiven.trans (.changes (.revive found saved program)))

theorem Outgrows.of_resume (x : Execution) : Outgrows x .resume x.resumeFrom := by
  unfold resumeFrom
  split
  · exact .goesOn (.beside rfl rfl rfl rfl)
  · next hopen =>
    dsimp only
    split
    · exact .goesOn (.beside rfl rfl rfl rfl)
    · next hunclean =>
      let loading : Execution := { x with stage := .loading }
      have hloading : Course x loading := .beside rfl rfl rfl rfl
      refine .of_abandon (hloading.trans (.changes (.log loading _))) ?_
      exact .unclean (Bool.eq_false_iff.mpr hopen) (Bool.eq_false_iff.mpr hunclean)

/-- **Whatever is asked of an execution**, it goes on, or it comes to its end for a reason. -/
theorem outgrows_perform (x : Execution) (operation : Operation) :
    Outgrows x operation (x.perform operation) := by
  cases operation with
  | happen event => exact .of_happen x event
  | progress => exact .of_progress x
  | start => exact .of_start x
  | poll => exact .of_polls (polls_pollLoad x)
  | finish outcome => exact .ends (.refl x) (.finished outcome rfl)
  | abandon failure => exact .of_abandon (.refl x) (.abandoned failure rfl)
  | refuse refuse => exact .goesOn (Relation.ReflTransGen.single (.refuses refuse))
  | resume => exact .of_resume x

/-! ## What lasts -/

/-- **A relation between states that continues** while an execution goes on. -/
structure Continues (R : Execution → Execution → Prop) : Prop where
  refl : ∀ x, R x x
  trans : ∀ {x y z}, R x y → R y z → R x z
  basic : ∀ {x y}, BasicChange x y → R x y
  /-- A checkpoint saves the program. -/
  program : ∀ x, R x (saveProgram.after x)
  /-- The record says of itself that it is clean, or that it is not. -/
  marked : ∀ (x : Execution) clean, R x (x.mapRecord fun r => { r with clean })

/-- **A relation that is carried on** by whatever does not end an execution. -/
structure Carried (R : Execution → Execution → Prop) : Prop extends Continues R where
  beside : ∀ {x y}, y.engine = x.engine → y.record = x.record → y.archive = x.archive →
    y.interrupts = x.interrupts → R x y
  refuses : ∀ (x : Execution) refuse, R x { x with archive := { x.archive with refuse } }

/-- **A relation that lasts**: it is carried on over the end of an execution too. -/
structure Lasts (R : Execution → Execution → Prop) : Prop extends Carried R where
  ending : ∀ {x y}, EndChange x y → R x y

section

variable {R : Execution → Execution → Prop} {x y : Execution}

namespace Continues

theorem changes (hR : Continues R) (h : Changes x y) : R x y := by
  unfold Changes at h
  induction h with
  | refl => exact hR.refl x
  | tail _ hchange ih => exact hR.trans ih (hR.basic hchange)

/-- What continues does so over checkpoints. -/
theorem alongCheckpoints (hR : Continues R) : AlongCheckpoints R where
  refl := hR.refl
  trans := hR.trans
  log x line := hR.changes (.log x line)
  submit x job := hR.changes (.submit x job)
  touch x := hR.basic (.edit (.touched x.clock))
  write _ := hR.basic .save
  paused x on := hR.changes (Changes.alongRequests.paused x on)
  noted result causes hopen := hR.basic (.interrupted result causes hopen)
  cancels _ := hR.basic (.aside ⟨rfl, rfl, rfl, rfl, rfl⟩)
  flush x := hR.changes (changing_flush x)
  program := hR.program
  marked := hR.marked
  halted _ := hR.basic (.aside ⟨rfl, rfl, rfl, rfl, rfl⟩)
  leaves _ _ := hR.basic (.aside ⟨rfl, rfl, rfl, rfl, rfl⟩)

theorem goesOn (hR : Continues R) (h : GoesOn x y) : R x y := by
  cases h with
  | changes h => exact hR.changes h
  | @saves between _ haside hafter =>
    have hbetween := hR.alongCheckpoints.saveCheckpoint between
    exact hR.trans (hR.trans (hR.basic (.aside haside)) hbetween) (hR.basic (.aside hafter))
  | marks => exact hR.alongCheckpoints.markStale x

end Continues

theorem Carried.course (hR : Carried R) (h : Course x y) : R x y := by
  unfold Course at h
  induction h with
  | refl => exact hR.refl x
  | tail _ hproceeds ih =>
    refine hR.trans ih ?_
    cases hproceeds with
    | goesOn h => exact hR.goesOn h
    | beside hengine hrecord harchive hinterrupts => exact hR.beside hengine hrecord harchive hinterrupts
    | refuses refuse => exact hR.refuses _ refuse

namespace Lasts

theorem ends (hR : Lasts R) (h : EndChanges x y) : R x y := by
  unfold EndChanges at h
  induction h with
  | refl => exact hR.refl x
  | tail _ hchange ih => exact hR.trans ih (hR.ending hchange)

theorem finish (hR : Lasts R) (x : Execution) (outcome : Outcome) : R x (x.finish outcome) :=
  hR.ends (endChanges_finish x outcome)

/-- **Whatever is asked of an execution**, what lasts is kept. -/
theorem perform (hR : Lasts R) (x : Execution) (operation : Operation) : R x (x.perform operation) := by
  have houtgrows := outgrows_perform x operation
  generalize x.perform operation = y at houtgrows
  cases houtgrows with
  | goesOn h => exact hR.course h
  | @ends z outcome h _ => exact hR.trans (hR.course h) (hR.finish z outcome)

end Lasts

end

/-! ## Lives -/

/-- An execution whose record and history were just read, before anything becomes of it. -/
structure Reread (x : Execution) : Prop where
  asRead : x = { engine := x.engine, name := x.name, archive := x.archive, record := x.record,
                 paused := x.record.paused, now := x.now, clock := x.clock }
  begun : x.record.flowStart.isSome = true

/-- **Whether an operation can be asked for.** Only a lane that serves does jobs and runs threads. No one
ends an execution by hand whose program is still being loaded, and what was read is resumed once. -/
def Allows (x : Execution) : Operation → Prop
  | .happen event => event.isOfLane = true → x.lane = .serving
  | .finish _ => x.loading = .none
  | .abandon _ => x.loading = .none
  | .resume => x.Reread
  | _ => True

/-- **What operations lead to**, in any order and number. -/
inductive Runs (x : Execution) : Execution → Prop where
  | here : Runs x x
  | performed {y : Execution} (h : Runs x y) (operation : Operation) (hallowed : y.Allows operation) :
    Runs x (y.perform operation)

namespace Runs

variable {x y z : Execution}

theorem trans (hxy : Runs x y) (hyz : Runs y z) : Runs x z := by
  induction hyz with
  | here => exact hxy
  | performed _ operation hallowed ih => exact ih.performed operation hallowed

/-- An execution that is let go on. -/
theorem rest (h : Runs x y) (fuel : Nat) : Runs x (rest fuel y) := by
  induction fuel generalizing y with
  | zero => exact h
  | succ fuel ih =>
    rw [Execution.rest]
    split
    · exact h
    · next z hprogress =>
      have hperformed : y.perform .progress = z := by
        show y.progress.getD y = z
        rw [hprogress]
        rfl
      exact ih (hperformed ▸ h.performed .progress trivial)

/-- **An execution that is let settle** makes operations only. -/
theorem settle (h : Runs x y) : Runs x y.settle := (h.performed .poll trivial).rest restLimit

theorem advance (h : Runs x y) (ms : Nat) : Runs x (y.advance ms) := by
  have hlater : Runs x { y with now := y.now + ms } :=
    h.performed (.happen (.pass (y.now + ms) y.clock)) fun hlane => Bool.noConfusion hlane
  exact hlater.settle

/-- What lasts is kept over whole runs. -/
theorem lasts {R : Execution → Execution → Prop} (hR : Lasts R) (h : Runs x y) : R x y := by
  induction h with
  | here => exact hR.refl x
  | performed _ operation _ ih => exact hR.trans ih (hR.perform _ operation)

end Runs

/-- **Where a life begins**: with an execution that was created, or with one whose record and history were
read from its files. -/
inductive Begins : Execution → Prop where
  | created {engine : Engine} {name id script : String} {options : Options} {archive : Archive}
    {clock : Timestamp} {now : Nat} {x : Execution}
    (hcreate : create engine name id script options archive clock now = .ok x) : Begins x
  | opened {engine : Engine} {name : String} {archive archive' : Archive} {clock : Timestamp} {now : Nat}
    {record record' : Record} (hread : archive.loadRecord = .ok record)
    (hrecover : Archive.recoverHistory record clock archive = (.ok record', archive')) :
    Begins { engine, name, archive := archive', record := record', paused := record'.paused, now, clock }

/-! ## Loads -/

section Loads

variable {record record' : Record} {archive opened archive' : Archive} {clock : Timestamp}

theorem recoverHistory_of_opened (h : Archive.openRecorded record archive = (.ok (), opened)) :
    Archive.recoverHistory record clock archive = (.ok record, opened) := by
  unfold Archive.recoverHistory
  rw [h]

theorem recoverHistory_of_unreadable {e : EngineError}
    (h : Archive.openRecorded record archive = (.error e, opened)) :
    Archive.recoverHistory record clock archive =
      Archive.writePlaceholder record (Archive.unreadableHistory e) clock opened := by
  unfold Archive.recoverHistory
  rw [h]

/-- **A history is gone on with or replaced.** -/
theorem recoverHistory_cases (h : Archive.recoverHistory record clock archive = (.ok record', archive')) :
    (record' = record ∧ Archive.openRecorded record archive = (.ok (), archive')) ∨
      ∃ e opened, Archive.openRecorded record archive = (.error e, opened) ∧
        Archive.writePlaceholder record (Archive.unreadableHistory e) clock opened = (.ok record', archive') := by
  rcases hopen : Archive.openRecorded record archive with ⟨_ | _, opened⟩
  · rw [recoverHistory_of_unreadable hopen] at h
    exact .inr ⟨_, opened, rfl, h⟩
  · rw [recoverHistory_of_opened hopen] at h
    cases h
    exact .inl ⟨rfl, rfl⟩

end Loads

/-- **What is loaded** begins with what was read, and is resumed. -/
theorem load_eq_ok {engine : Engine} {name : String} {archive archive' : Archive} {clock : Timestamp}
    {now : Nat} {x : Execution} (h : load engine name archive clock now = (.ok x, archive')) :
    ∃ record record', archive.loadRecord = .ok record ∧
      Archive.recoverHistory record clock archive = (.ok record', archive') ∧
      x = Execution.perform { engine, name, archive := archive', record := record',
                              paused := record'.paused, now, clock } .resume := by
  unfold load at h
  split at h
  · cases h
  · next record hread =>
    split at h
    · cases h
    · next record' opened hrecover =>
      cases h
      exact ⟨record, record', hread, hrecover, rfl⟩

end DurableFlow.Execution
