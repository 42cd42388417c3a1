/-
The invariant of the scheduler.

It holds between any two operations, also while a thread is taken out to run. A
running thread is seen where it was; if it is starting a step, that step is the only
one whose outcome would be taken in place, and every other live step is asynchronous,
so that what it has to hand over is announced in the lane. One thing escapes that: a body
that another thread queues after the start has taken the queued bodies and before the step
is asynchronous.
-/
import DurableFlow.Proofs.Scheduler.Frame
import DurableFlow.Proofs.Scheduler.Links
import DurableFlow.Proofs.Step.Standard

set_option autoImplicit false

namespace DurableFlow

open Script

namespace LiveProgram

/-- The threads of a program by number, with the one that was taken out to run. -/
def threadAt (p : LiveProgram) : Option Thread → Nat → Option Thread
  | none => fun t => Table.find? t p.threads
  | some running => changed (fun t => Table.find? t p.threads) running.id (some running)

/-- The live steps of a program by node. -/
def stepAt (p : LiveProgram) (n : Nat) : Option LiveStep := Table.find? n p.steps

/-- Whether a block is exported under a number. -/
def isExported (p : LiveProgram) (handle : Nat) : Bool := Table.contains handle p.closures

theorem stepAt_adjustStep (p : LiveProgram) (node : Nat) (f : LiveStep → LiveStep) :
    (p.adjustStep node f).stepAt =
      fun n => (p.stepAt n).map fun step => if n = node then f step else step := by
  funext n
  rw [stepAt, adjustStep, Table.find?_adjust]
  by_cases h : n = node
  · simp only [if_pos h]
    rfl
  · simp only [if_neg h]
    exact Option.map_id'.symm

/-- An adjustment leaves the other steps alone. -/
theorem stepAt_adjustStep_of_ne {p : LiveProgram} {node n : Nat} (h : n ≠ node)
    (f : LiveStep → LiveStep) : (p.adjustStep node f).stepAt n = p.stepAt n := by
  rw [stepAt_adjustStep]
  simp only [if_neg h]
  exact Option.map_id'

theorem stepAt_adjustStep_of_live {p : LiveProgram} {node : Nat} {step : LiveStep}
    (h : p.stepAt node = some step) (f : LiveStep → LiveStep) :
    (p.adjustStep node f).stepAt = changed p.stepAt node (some (f step)) := by
  funext n
  unfold changed
  by_cases hn : n = node
  · rw [if_pos hn, stepAt_adjustStep, hn]
    dsimp only
    rw [h, Option.map_some, if_pos rfl]
  · rw [if_neg hn]
    exact stepAt_adjustStep_of_ne hn f

/-- A step that is found after an adjustment was there before. -/
theorem stepAt_adjustStep_cases {p : LiveProgram} {node n : Nat} {f : LiveStep → LiveStep} {step' : LiveStep}
    (h : (p.adjustStep node f).stepAt n = some step') :
    ∃ step, p.stepAt n = some step ∧ (step' = step ∨ step' = f step) := by
  rw [stepAt_adjustStep] at h
  obtain ⟨step, hstep, rfl⟩ := Option.map_eq_some_iff.mp h
  refine ⟨step, hstep, ?_⟩
  split
  · exact .inr rfl
  · exact .inl rfl

theorem stepAt_congr {p q : LiveProgram} (h : q.steps = p.steps) : q.stepAt = p.stepAt := by
  funext n
  rw [stepAt, h, stepAt]

theorem stepAt_putStep (p : LiveProgram) (step : LiveStep) :
    (p.putStep step).stepAt = changed p.stepAt step.node (some step) := by
  funext n
  exact Table.find?_insert step.node n step p.steps

theorem stepAt_dropStep {p : LiveProgram} (hsorted : Table.Sorted p.steps) (step : LiveStep) :
    (p.dropStep step).stepAt = changed p.stepAt step.node none := by
  funext n
  exact Table.find?_erase hsorted step.node n

theorem isExported_dropStep {p : LiveProgram} (hsorted : Table.Sorted p.closures) (step : LiveStep)
    (handle : Nat) :
    (p.dropStep step).isExported handle = (p.isExported handle && step.closure != some handle) := by
  unfold isExported dropStep Table.contains
  cases hclosure : step.closure with
  | none => simp
  | some own =>
    rw [Table.find?_erase hsorted]
    by_cases h : handle = own
    · simp [h]
    · rw [if_neg h]
      simp [Ne.symm h]

theorem find?_putThread (p : LiveProgram) (thread : Thread) (t : Nat) :
    Table.find? t (p.putThread thread).threads =
      if t = thread.id then some thread else Table.find? t p.threads :=
  Table.find?_insert thread.id t thread p.threads

theorem threadAt_congr {p q : LiveProgram} (h : p.threads = q.threads) (running : Option Thread) :
    p.threadAt running = q.threadAt running := by
  cases running <;> simp only [threadAt, h]

/-- The running thread is found under its number. -/
theorem threadAt_running (p : LiveProgram) (r : Thread) : p.threadAt (some r) r.id = some r := by
  rw [threadAt]
  exact changed_self _ _ _

/-- The other threads are found where they are. -/
theorem threadAt_of_ne (p : LiveProgram) {r : Thread} {t : Nat} (hne : t ≠ r.id) :
    p.threadAt (some r) t = Table.find? t p.threads := by
  rw [threadAt]
  exact changed_of_ne _ _ hne

theorem threadAt_eq_some {p : LiveProgram} {r thread : Thread} {t : Nat} :
    p.threadAt (some r) t = some thread ↔
      t = r.id ∧ some r = some thread ∨ t ≠ r.id ∧ Table.find? t p.threads = some thread := by
  rw [threadAt]
  exact changed_eq_some

/-- The thread that runs goes on under its number; the others are as they were. -/
theorem threadAt_goesOn {p q : LiveProgram} (h : q.threads = p.threads) {r r' : Thread}
    (hid : r'.id = r.id) :
    q.threadAt (some r') = changed (p.threadAt (some r)) r.id (some r') := by
  simp only [threadAt, h, hid, changed_changed]

/-- A thread that was taken out to run is not among those of the program. -/
theorem threadAt_none {p : LiveProgram} {r : Thread} (hout : Table.find? r.id p.threads = none) :
    p.threadAt none = changed (p.threadAt (some r)) r.id none := by
  simp only [threadAt, changed_changed]
  exact (changed_eq_self hout).symm

/-- A thread that is put in, while none is running. -/
theorem threadAt_putThread (p : LiveProgram) (thread : Thread) :
    (p.putThread thread).threadAt none = changed (p.threadAt none) thread.id (some thread) := by
  funext t
  exact Table.find?_insert thread.id t thread p.threads

/-- A thread that is put in, while another one is running. -/
theorem threadAt_putThread_of_ne (p : LiveProgram) {thread : Thread} {running : Option Thread}
    (h : ∀ r, running = some r → thread.id ≠ r.id) :
    (p.putThread thread).threadAt running =
      changed (p.threadAt running) thread.id (some thread) := by
  cases running with
  | none => exact threadAt_putThread p thread
  | some r =>
    have hput := threadAt_putThread p thread
    simp only [threadAt] at hput ⊢
    rw [hput]
    exact changed_comm _ (h r rfl) _ _

end LiveProgram

/-- What comes from another thread is not asked by a step. -/
def Interjection.isOfHost : Interjection → Bool
  | .asks _ _ => false
  | .signals _ _ => true
  | .timers => true

/-- **The standard steps**: they start no threads of their own, so what comes from other threads while a
step is being started are signals and timers. -/
structure Engine.IsStandard (e : Engine) : Prop where
  steps : e.steps = Step.standard
  host : ∀ n, ∀ interjection ∈ e.meanwhile n, interjection.isOfHost = true

theorem Engine.IsStandard.of_alone {e : Engine} (hsteps : e.steps = Step.standard)
    (halone : ∀ n, e.meanwhile n = []) : e.IsStandard where
  steps := hsteps
  host n interjection hmem := by
    rw [halone n] at hmem
    cases hmem

/-- What comes from another thread queues a body of the step at a node. -/
def Interjection.queuesBody (n : Nat) : Interjection → Bool
  | .asks node effect => node == n && effect.startsBody
  | .signals _ _ => false
  | .timers => false

/-- A body of the step at a node is queued by another thread while the step is being started. -/
def Engine.queuesLate (e : Engine) (n : Nat) : Bool := (e.meanwhile n).any (Interjection.queuesBody n)

namespace Execution

/-- The running thread is starting a step. -/
def Starting (running : Option Thread) (n : Nat) : Prop := ∃ r, running = some r ∧ r.step = some n

theorem starting_some {r : Thread} {n : Nat} : Starting (some r) n ↔ r.step = some n := by
  simp only [Starting, Option.some.injEq, exists_eq_left']

theorem not_starting_none (n : Nat) : ¬ Starting none n := by
  rintro ⟨_, hno, _⟩
  cases hno

/-- A thread that waits for nothing is starting nothing. -/
theorem not_starting_of_idle {r : Thread} (hidle : r.step = none) (n : Nat) : ¬ Starting (some r) n := by
  rw [starting_some, hidle]
  exact nofun

/-- **The cell of a live step**: nobody has taken its outcome, it is asynchronous unless the step is
being started, and what it holds is announced, unless it is late. Of a body that was queued while the
step was being started nothing is known. -/
structure CellOk (x : Execution) (running : Option Thread) (late : Nat → Prop) (n : Nat)
    (cell : StepCell) : Prop where
  unmarked : ∀ outcome, cell.outcome = some outcome → StepCell.isMarker outcome = false
  mode : cell.isAsync = true ↔ ¬ Starting running n
  outcome : x.lane = .serving ∧ ¬ late n → cell.isAsync = true → cell.outcome.isSome = true →
    .completeStep n ∈ x.inbox
  bodies : x.engine.queuesLate n = false → x.lane = .serving ∧ ¬ late n → cell.isAsync = true →
    cell.bodies ≠ [] → .startBodies n ∈ x.inbox

/-- **The invariant of the scheduler**, with the thread that was taken out to run. While a program
is restored, what some of its steps hold is still to be announced. -/
structure SoundBut (x : Execution) (running : Option Thread) (late : Nat → Prop) : Prop where
  threadsSorted : Table.Sorted x.program.threads
  stepsSorted : Table.Sorted x.program.steps
  closuresSorted : Table.Sorted x.program.closures
  out : ∀ r, running = some r → Table.find? r.id x.program.threads = none ∧ r.input = none
  input : ∀ {t thread}, Table.find? t x.program.threads = some thread →
    (thread.input.isSome = true ↔ thread.step = none)
  links : Links (x.program.threadAt running) x.program.stepAt
  exports : Exports x.program.stepAt x.program.isExported x.program.nextClosure
  rooted : Rooted (x.program.threadAt running) x.program.rootOutcome x.program.finished
  threadNumber : ∀ {t thread}, x.program.threadAt running t = some thread →
    t ≤ x.record.threadsCreated
  stepNumber : ∀ {n step}, x.program.stepAt n = some step → n < x.record.nextNodeId
  bodyNumber : ∀ {t thread n}, x.program.threadAt running t = some thread → thread.RunsFor n →
    n < x.record.nextNodeId
  cells : ∀ {n step}, x.program.stepAt n = some step → CellOk x running late n step.cell
  lost : x.lost = []

/-- The invariant when nothing is late. -/
abbrev Sound (x : Execution) (running : Option Thread) : Prop :=
  SoundBut x running fun _ => False

theorem CellOk.onward {x y : Execution} {running : Option Thread} {late : Nat → Prop} {n : Nat}
    {cell : StepCell} (h : CellOk x running late n cell) (hxy : Onward x y) :
    CellOk y running late n cell where
  unmarked := h.unmarked
  mode := h.mode
  outcome hheard hasync hsome := by
    obtain ⟨hx, hjobs⟩ := hxy.inbox hheard.1
    exact hjobs _ (h.outcome ⟨hx, hheard.2⟩ hasync hsome)
  bodies honce hheard hasync hne := by
    obtain ⟨hx, hjobs⟩ := hxy.inbox hheard.1
    exact hjobs _ (h.bodies (hxy.engine ▸ honce) ⟨hx, hheard.2⟩ hasync hne)

namespace SoundBut

variable {x y : Execution} {running : Option Thread} {late : Nat → Prop}

/-- What leaves the program alone keeps the invariant. -/
theorem calm (h : SoundBut x running late) (hxy : Calm x y) : SoundBut y running late := by
  have hprogram := hxy.program
  constructor
  case threadsSorted => rw [hprogram]; exact h.threadsSorted
  case stepsSorted => rw [hprogram]; exact h.stepsSorted
  case closuresSorted => rw [hprogram]; exact h.closuresSorted
  case out => rw [hprogram]; exact h.out
  case input => rw [hprogram]; exact h.input
  case links => rw [hprogram]; exact h.links
  case exports => rw [hprogram]; exact h.exports
  case rooted => rw [hprogram]; exact h.rooted
  case threadNumber => rw [hprogram, hxy.threads]; exact h.threadNumber
  case stepNumber =>
    rw [hprogram]
    exact fun hstep => Nat.lt_of_lt_of_le (h.stepNumber hstep) hxy.nodes
  case bodyNumber =>
    rw [hprogram]
    exact fun hthread hruns => Nat.lt_of_lt_of_le (h.bodyNumber hthread hruns) hxy.nodes
  case cells =>
    rw [hprogram]
    exact fun hstep => (h.cells hstep).onward hxy.toOnward
  case lost => rw [hxy.lost]; exact h.lost

theorem quiet (h : SoundBut x running late) (hxy : Quiet x y) : SoundBut y running late :=
  h.calm hxy.calm

/-- **A step changes** in its cell, its memory or its branches, and nothing else does. -/
theorem adjust (h : SoundBut x running late) {node : Nat} {f : LiveStep → LiveStep}
    (hprogram : y.program = x.program.adjustStep node f) (hlike : ∀ step, (f step).Like step)
    (hxy : Onward x y)
    (hcell : ∀ step, x.program.stepAt node = some step → CellOk y running late node (f step).cell) :
    SoundBut y running late := by
  have hthreads : y.program.threadAt running = x.program.threadAt running := by
    rw [hprogram]
    cases running <;> rfl
  have hsteps : y.program.stepAt =
      fun n => (x.program.stepAt n).map fun step => if n = node then f step else step := by
    rw [hprogram, LiveProgram.stepAt_adjustStep]
  have hmapped : ∀ n (step : LiveStep), (if n = node then f step else step).Like step := by
    intro n step
    split
    · exact hlike step
    · exact .refl step
  constructor
  case threadsSorted => rw [hprogram]; exact h.threadsSorted
  case stepsSorted => rw [hprogram]; exact h.stepsSorted.adjust node f
  case closuresSorted => rw [hprogram]; exact h.closuresSorted
  case out => rw [hprogram]; exact h.out
  case input => rw [hprogram]; exact h.input
  -- threads are linked to steps by what a change of this kind leaves alone
  case links =>
    rw [hthreads, hsteps]
    exact h.links.map_steps fun n step _ => hmapped n step
  case exports =>
    have hexports := h.exports.map_steps fun n step _ => (hmapped n step).closure
    rw [hsteps, hprogram]
    exact hexports
  case rooted => rw [hthreads, hprogram]; exact h.rooted
  case threadNumber => rw [hthreads, hxy.threads]; exact h.threadNumber
  case stepNumber =>
    intro n step hstep
    rw [hsteps] at hstep
    obtain ⟨old, hold, -⟩ := Option.map_eq_some_iff.mp hstep
    exact Nat.lt_of_lt_of_le (h.stepNumber hold) hxy.nodes
  case bodyNumber =>
    rw [hthreads]
    exact fun hthread hruns => Nat.lt_of_lt_of_le (h.bodyNumber hthread hruns) hxy.nodes
  case cells =>
    intro n step hstep
    rw [hsteps] at hstep
    obtain ⟨old, hold, rfl⟩ := Option.map_eq_some_iff.mp hstep
    split
    · next hn =>
      rw [hn] at hold ⊢
      exact hcell old hold
    · exact (h.cells hold).onward hxy
  case lost => rw [hxy.lost]; exact h.lost

end SoundBut

/-! ## Deliveries -/

theorem isMarker_amend (first : Outcome) (late : Failure) :
    StepCell.isMarker (StepCell.amend first late) = StepCell.isMarker first := by
  cases first with
  | ok value => rfl
  | error failure =>
    simp only [StepCell.amend]
    split <;> rfl

theorem onward_submit (x : Execution) (job : Job) : Onward x (x.submit job) :=
  (quiet_submit x job).toOnward

theorem onward_adjustStep (x : Execution) (node : Nat) (f : LiveStep → LiveStep) :
    Onward x (x.adjustStep node f) := by
  unfold adjustStep
  split
  · exact onward_mapProgram x _
  · exact .of_eq rfl rfl rfl (Nat.le_refl _) rfl rfl

theorem Onward.alongCells (node : Nat) : AlongCells Onward node where
  refl := .refl
  trans := .trans
  submit := onward_submit
  cell _ _ := onward_adjustStep _ node _

/-- **What the host and the hooks of steps do** gives no number out again and takes no job back. -/
theorem Onward.alongHost : AlongHost Onward where
  refl := .refl
  trans := .trans
  hooks node := .of_quiet (alongCells node).toChains Quiet.toOnward (alongCells node).deliver
    (alongCells node).queueBody (fun _ _ _ => .of_eq rfl rfl rfl (Nat.le_refl _) rfl rfl)
    fun _ _ _ _ => .of_eq rfl rfl rfl (Nat.le_refl _) rfl rfl
  aside _ _ _ _ _ := .of_eq rfl rfl rfl (Nat.le_refl _) rfl rfl

theorem mem_submit {x : Execution} {job : Job} (h : (x.submit job).lane = .serving) :
    job ∈ (x.submit job).inbox := by
  unfold submit at h ⊢
  split
  · exact List.mem_append_right _ List.mem_cons_self
  · next hlane =>
    split at h
    · next hserving => exact absurd hserving (by assumption)
    · exact absurd h (by assumption)

/-- A delivery that has to be announced is announced. -/
theorem CellOk.deliver {x y : Execution} {running : Option Thread} {late : Nat → Prop} {n : Nat}
    {cell : StepCell}
    (h : CellOk x running late n cell) (outcome : Outcome) (hxy : Onward x y)
    (hjob : (cell.deliver outcome).2 = true → y.lane = .serving → .completeStep n ∈ y.inbox) :
    CellOk y running late n (cell.deliver outcome).1 := by
  have hy := h.onward hxy
  unfold StepCell.deliver at hjob ⊢
  by_cases hmarker : StepCell.isMarker outcome = true
  · simp only [if_pos hmarker] at hjob ⊢
    exact hy
  · simp only [if_neg hmarker] at hjob ⊢
    cases hcell : cell.outcome with
    | none =>
      simp only [hcell] at hjob ⊢
      refine ⟨?_, hy.mode, fun hheard hasync _ => hjob hasync hheard.1, hy.bodies⟩
      rintro _ ⟨⟩
      simpa using hmarker
    | some first =>
      simp only
      refine ⟨?_, hy.mode, fun hheard hasync _ => ?_, hy.bodies⟩
      · rintro _ ⟨⟩
        rw [isMarker_amend]
        exact hy.unmarked first hcell
      · exact hy.outcome hheard hasync (by rw [hcell]; rfl)

theorem CellOk.queueBody {x y : Execution} {running : Option Thread} {late : Nat → Prop} {n : Nat}
    {cell : StepCell}
    (h : CellOk x running late n cell) (source : BodySource) (overrides : Scope)
    (branch : Option String) (hxy : Onward x y)
    (hjob : cell.isAsync = true → y.lane = .serving → .startBodies n ∈ y.inbox) :
    CellOk y running late n (cell.queueBody source overrides branch).1 := by
  have hy := h.onward hxy
  exact ⟨hy.unmarked, hy.mode, hy.outcome, fun _ hheard hasync _ => hjob hasync hheard.1⟩

/-- A step that is live is changed where it is. -/
theorem adjustStep_of_live {x : Execution} {node : Nat} {step : LiveStep}
    (h : x.program.stepAt node = some step) (f : LiveStep → LiveStep) :
    x.adjustStep node f = x.mapProgram (·.adjustStep node f) := by
  have hcontains : Table.contains node x.program.steps = true := by
    unfold Table.contains
    rw [← LiveProgram.stepAt, h]
    rfl
  rw [adjustStep, if_pos hcontains]

/-- A change of a step that is over leaves the program alone. -/
theorem calm_adjustStep {x : Execution} {node : Nat} (h : x.program.stepAt node = none)
    (f : LiveStep → LiveStep) : Calm x (x.adjustStep node f) := by
  have hcontains : ¬ Table.contains node x.program.steps = true := by
    unfold Table.contains
    rw [← LiveProgram.stepAt, h]
    simp
  rw [adjustStep, if_neg hcontains]
  exact .of_eq rfl rfl rfl rfl (Nat.le_refl _) rfl rfl

namespace SoundBut

variable {x y : Execution} {running : Option Thread} {late : Nat → Prop}

/-- The cell of a live step changes, and a job is queued if the change asks for it. -/
theorem adjust_announced (h : SoundBut x running late) {node : Nat} {live : LiveStep}
    (hlive : x.program.stepAt node = some live) (cell : StepCell) (schedule : Bool) (job : Job)
    (hcell : ∀ {y}, Onward x y → (schedule = true → y.lane = .serving → job ∈ y.inbox) →
      CellOk y running late node cell) :
    SoundBut (if schedule then (x.adjustStep node fun step => { step with cell }).submit job
      else x.adjustStep node fun step => { step with cell }) running late := by
  rw [adjustStep_of_live hlive]
  have honward := onward_mapProgram x (·.adjustStep node fun step => { step with cell })
  split
  · refine h.adjust (quiet_submit _ job).program (fun step => ⟨rfl, rfl, rfl, rfl⟩)
      (honward.trans (onward_submit _ job)) fun step _ => ?_
    exact hcell (honward.trans (onward_submit _ job)) fun _ hlane => mem_submit hlane
  · next hno =>
    refine h.adjust rfl (fun step => ⟨rfl, rfl, rfl, rfl⟩) honward fun step _ => ?_
    exact hcell honward fun hschedule => absurd hschedule hno

/-- The same for a step that is over. -/
theorem adjust_retired (h : SoundBut x running late) {node : Nat} (hlive : x.program.stepAt node = none)
    (f : LiveStep → LiveStep) (schedule : Bool) (job : Job) :
    SoundBut (if schedule then (x.adjustStep node f).submit job else x.adjustStep node f) running late := by
  have hcalm := calm_adjustStep hlive f
  split
  · exact (h.calm hcalm).quiet (quiet_submit _ job)
  · exact h.calm hcalm

/-- **A delivery keeps the invariant**, whichever step it is for. -/
theorem deliver (h : SoundBut x running late) (node : Nat) (outcome : Outcome) :
    SoundBut (x.deliver node outcome) running late := by
  unfold Execution.deliver
  split
  · exact h
  · next step hstep =>
    cases hlive : x.program.stepAt node with
    | none => exact h.adjust_retired hlive _ _ _
    | some live =>
      have hsame : live = step := by
        rw [step?, ← LiveProgram.stepAt, hlive] at hstep
        exact Option.some.inj hstep
      subst hsame
      exact h.adjust_announced hlive _ _ _ fun hxy hjob => (h.cells hlive).deliver outcome hxy hjob

theorem queueBody (h : SoundBut x running late) (node : Nat) (source : BodySource) (overrides : Scope)
    (branch : Option String) : SoundBut (x.queueBody node source overrides branch).2 running late := by
  unfold Execution.queueBody
  split
  · exact h
  · next step hstep =>
    cases hlive : x.program.stepAt node with
    | none => exact h.adjust_retired hlive _ _ _
    | some live =>
      have hsame : live = step := by
        rw [step?, ← LiveProgram.stepAt, hlive] at hstep
        exact Option.some.inj hstep
      subst hsame
      exact h.adjust_announced hlive _ _ _ fun hxy hjob =>
        (h.cells hlive).queueBody source overrides branch hxy hjob

/-- **Whatever a hook asks for keeps the invariant.** -/
theorem alongHooks (running : Option Thread) (late : Nat → Prop) (node : Nat) :
    AlongHooks (fun x y => SoundBut x running late → SoundBut y running late) node :=
  .of_quiet ⟨fun _ h => h, fun hxy hyz h => hyz (hxy h)⟩ (fun hxy h => h.quiet hxy)
    (fun _ outcome h => h.deliver node outcome)
    (fun _ source overrides branch h => h.queueBody node source overrides branch)
    (fun _ _ _ h => h.calm (.of_eq rfl rfl rfl rfl (Nat.le_refl _) rfl rfl))
    fun _ _ _ _ h => h.calm (.of_eq rfl rfl rfl rfl (Nat.le_refl _) rfl rfl)

/-- **What the clock and the host do keeps the invariant.** -/
theorem alongHost (running : Option Thread) (late : Nat → Prop) :
    AlongHost fun x y => SoundBut x running late → SoundBut y running late where
  refl _ h := h
  trans hxy hyz h := hyz (hxy h)
  hooks := alongHooks running late
  aside _ _ _ _ _ h := h.calm (.of_eq rfl rfl rfl rfl (Nat.le_refl _) rfl rfl)

/-- A step remembers something else. -/
theorem remember (h : SoundBut x running late) (node : Nat) (memory : StepMemory) :
    SoundBut (x.adjustStep node fun step => { step with memory }) running late := by
  cases hlive : x.program.stepAt node with
  | none => exact h.calm (calm_adjustStep hlive _)
  | some live =>
    rw [adjustStep_of_live hlive]
    have honward := onward_mapProgram x (·.adjustStep node fun step => { step with memory })
    refine h.adjust rfl (fun step => ⟨rfl, rfl, rfl, rfl⟩) honward fun step hstep => ?_
    exact (h.cells hstep).onward honward

theorem react (h : SoundBut x running late) (node : Nat) (reaction : StepReaction) :
    SoundBut (x.react node reaction) running late :=
  (alongHooks running late node).react reaction (fun h => h.remember node reaction.memory) h

end SoundBut

/-! ## The end of a step -/

/-- **A step was taken out of a program**, with its block; everything else is in its place. -/
structure Dropped (x y : Execution) (node : Nat) (step : LiveStep) : Prop extends Onward x y where
  others : y.program.threads = x.program.threads
  steps : y.program.stepAt = changed x.program.stepAt node none
  exported : ∀ handle, y.program.isExported handle =
    (x.program.isExported handle && step.closure != some handle)
  nextClosure : y.program.nextClosure = x.program.nextClosure
  rootOutcome : y.program.rootOutcome = x.program.rootOutcome
  finished : y.program.finished = x.program.finished
  stepsSorted : Table.Sorted y.program.steps
  closuresSorted : Table.Sorted y.program.closures

theorem Dropped.quiet {x y z : Execution} {node : Nat} {step : LiveStep}
    (h : Dropped x y node step) (hyz : Quiet y z) : Dropped x z node step := by
  have hprogram := hyz.program
  constructor
  case toOnward => exact h.toOnward.trans hyz.toOnward
  case others => rw [hprogram]; exact h.others
  case steps => rw [hprogram]; exact h.steps
  case exported => rw [hprogram]; exact h.exported
  case nextClosure => rw [hprogram]; exact h.nextClosure
  case rootOutcome => rw [hprogram]; exact h.rootOutcome
  case finished => rw [hprogram]; exact h.finished
  case stepsSorted => rw [hprogram]; exact h.stepsSorted
  case closuresSorted => rw [hprogram]; exact h.closuresSorted

namespace Sound

variable {x y : Execution} {running : Option Thread}

/-- A step whose outcome was taken is dropped, and its node is closed. -/
theorem dropped (h : Sound x running) {node : Nat} {step : LiveStep}
    (hstep : x.program.stepAt node = some step) (cell : StepCell) (outcome : Outcome) :
    Dropped x ((x.adjustStep node fun step => { step with cell }).finishStep node outcome) node
      step := by
  rw [adjustStep_of_live hstep]
  have hsteps := LiveProgram.stepAt_adjustStep_of_live hstep fun step => { step with cell }
  have hfound : Table.find? node (x.program.adjustStep node fun step => { step with cell }).steps =
      some { step with cell } := (congrFun hsteps node).trans (changed_self _ _ _)
  have hnode : step.node = node := h.links.node hstep
  have hadjusted : Table.Sorted (x.program.adjustStep node fun step => { step with cell }).steps :=
    h.stepsSorted.adjust node _
  unfold finishStep
  simp only [mapProgram, hfound]
  refine Dropped.quiet ?_ (Quiet.alongWrites.closeStepNode _ _ _)
  constructor
  case toOnward => exact .of_eq rfl rfl rfl (Nat.le_refl _) rfl rfl
  case others => rfl
  case steps =>
    rw [LiveProgram.stepAt_dropStep hadjusted, hsteps, hnode, changed_changed]
  case exported => exact fun handle => LiveProgram.isExported_dropStep h.closuresSorted _ handle
  case nextClosure => rfl
  case rootOutcome => rfl
  case finished => rfl
  case stepsSorted => exact hadjusted.erase _
  case closuresSorted =>
    unfold LiveProgram.dropStep
    split
    · exact Table.Sorted.erase h.closuresSorted _
    · exact h.closuresSorted

/-- **A step is over and its thread is free.** The thread is put back among the others, or it is
the one that runs. -/
theorem finish (h : Sound x running) {node : Nat} {step : LiveStep} {thread : Thread}
    (free : Thread) {running' : Option Thread} {z : Execution} (hstep : x.program.stepAt node = some step)
    (hdropped : Dropped x y node step) (hyz : Onward y z)
    (hprogram : z.program = { y.program with threads := z.program.threads })
    (hthread : x.program.threadAt running step.thread = some thread) (hid : free.id = thread.id)
    (hfree : free.step = none) (hcompletions : free.completions = thread.completions)
    (hthreads : z.program.threadAt running' =
      changed (x.program.threadAt running) step.thread (some free))
    (hsorted : Table.Sorted z.program.threads)
    (hout : ∀ r, running' = some r → Table.find? r.id z.program.threads = none ∧ r.input = none)
    (hinput : ∀ {t thread}, Table.find? t z.program.threads = some thread →
      (thread.input.isSome = true ↔ thread.step = none))
    (hstarting : ∀ n, n ≠ node → (Starting running' n ↔ Starting running n)) :
    Sound z running' := by
  -- the step is dropped first, and then the thread is put where it goes on
  have hxz := hdropped.toOnward.trans hyz
  have hsteps : z.program.stepAt = changed x.program.stepAt node none := by
    rw [hprogram]
    exact hdropped.steps
  constructor
  case threadsSorted => exact hsorted
  case stepsSorted => rw [hprogram]; exact hdropped.stepsSorted
  case closuresSorted => rw [hprogram]; exact hdropped.closuresSorted
  case out => exact hout
  case input => exact hinput
  case links =>
    rw [hthreads, hsteps]
    exact h.links.finish hstep hthread hid hfree hcompletions
  case exports =>
    have hexports := h.exports.finish hstep
    rw [← funext hdropped.exported, ← hdropped.nextClosure] at hexports
    rw [hsteps, hprogram]
    exact hexports
  case rooted =>
    have hrooted := h.rooted.changed_like hthread hcompletions
    rw [← hthreads, ← hdropped.rootOutcome, ← hdropped.finished] at hrooted
    rw [hprogram] at hrooted ⊢
    exact hrooted
  case threadNumber =>
    intro t other hother
    rw [hthreads] at hother
    rw [hxz.threads]
    exact changed_elim hother (h.threadNumber hthread) h.threadNumber
  case stepNumber =>
    intro n other hother
    rw [hsteps] at hother
    obtain ⟨_, hold⟩ := changed_none_eq_some.mp hother
    exact Nat.lt_of_lt_of_le (h.stepNumber hold) hxz.nodes
  -- the thread runs for the same steps as before, now without waiting
  case bodyNumber =>
    intro t other n hother hruns
    rw [hthreads] at hother
    refine Nat.lt_of_lt_of_le ?_ hxz.nodes
    rcases changed_eq_some.mp hother with ⟨_, heq⟩ | ⟨_, hold⟩
    · cases heq
      refine h.bodyNumber hthread ?_
      unfold Thread.RunsFor at hruns ⊢
      rw [hcompletions] at hruns
      exact hruns
    · exact h.bodyNumber hold hruns
  -- the cells of the other steps are as they were, and none of them starts to be asynchronous
  case cells =>
    intro n other hother
    rw [hsteps] at hother
    obtain ⟨hn, hold⟩ := changed_none_eq_some.mp hother
    have hcell := (h.cells hold).onward hxz
    exact ⟨hcell.unmarked, hcell.mode.trans (not_congr (hstarting n hn)).symm, hcell.outcome,
      hcell.bodies⟩
  case lost => rw [hxz.lost]; exact h.lost

/-- The thread of an asynchronous step is among the others and waits without an input. -/
theorem waiting (h : Sound x running) {node : Nat} {step : LiveStep}
    (hstep : x.program.stepAt node = some step) (hasync : step.cell.isAsync = true) :
    ∃ thread, Table.find? step.thread x.program.threads = some thread ∧
      thread.step = some node ∧ thread.input = none ∧ thread.id = step.thread ∧
      ∀ r, running = some r → step.thread ≠ r.id := by
  obtain ⟨thread, hthread, hwaits⟩ := h.links.caller hstep
  have hother : ∀ r, running = some r → step.thread ≠ r.id := by
    -- the running thread waits only for the step that it is starting
    intro r hr heq
    subst hr
    rw [LiveProgram.threadAt, heq, changed_self] at hthread
    cases hthread
    exact (h.cells hstep).mode.mp hasync ⟨_, rfl, hwaits⟩
  have hfound : Table.find? step.thread x.program.threads = some thread := by
    cases running with
    | none => exact hthread
    | some r =>
      rw [LiveProgram.threadAt, changed_of_ne _ _ (hother r rfl)] at hthread
      exact hthread
  refine ⟨thread, hfound, hwaits, ?_, h.links.id hthread, hother⟩
  cases hinput : thread.input with
  | none => rfl
  | some input =>
    have hidle := (h.input hfound).mp (by rw [hinput]; rfl)
    rw [hidle] at hwaits
    cases hwaits

/-- **The thread of a step that is over takes the outcome**: it was waiting, and goes on. -/
theorem resumed (h : Sound x running) {node : Nat} {step : LiveStep}
    (hstep : x.program.stepAt node = some step) (hasync : step.cell.isAsync = true)
    (hdropped : Dropped x y node step) (outcome : Outcome) :
    ∃ thread, x.program.threadAt running step.thread = some thread ∧ thread.id = step.thread ∧
      (∀ r, running = some r → step.thread ≠ r.id) ∧
      y.resumeThread step.thread outcome =
        y.mapProgram (·.putThread { thread with step := none, input := some outcome }) ∧
      (y.program.putThread { thread with step := none, input := some outcome }).threadAt running =
        changed (x.program.threadAt running) step.thread
          (some { thread with step := none, input := some outcome }) := by
  obtain ⟨thread, hthread, hwaits, hinput, hid, hother⟩ := h.waiting hstep hasync
  refine ⟨thread, ?_, hid, hother, ?_, ?_⟩
  · cases running with
    | none => exact hthread
    | some r =>
      rw [LiveProgram.threadAt, changed_of_ne _ _ (hother r rfl)]
      exact hthread
  · rw [resumeThread, hdropped.others, hthread]
    simp only [Thread.resume, hinput]
  · rw [← LiveProgram.threadAt_congr hdropped.others, ← hid]
    exact LiveProgram.threadAt_putThread_of_ne _ fun r hr => hid ▸ hother r hr

/-- **The outcome of an asynchronous step reaches its thread.** -/
theorem completeStep (h : Sound x running) (node : Nat)
    (hasync : ∀ step, x.program.stepAt node = some step → step.cell.isAsync = true) :
    Sound (x.completeStep node) running := by
  unfold Execution.completeStep
  split
  · exact h
  · next step hfound =>
    have hstep : x.program.stepAt node = some step := hfound
    split
    · exact h
    · next cell outcome htake =>
      have hdropped := h.dropped hstep cell outcome
      dsimp only
      generalize (x.adjustStep node fun step => { step with cell }).finishStep node outcome = y
        at hdropped ⊢
      obtain ⟨thread, hthreadAt, hid, hother, hresumed, hthreads⟩ :=
        h.resumed hstep (hasync step hstep) hdropped outcome
      -- the thread stays where it is, and differs in what it waits for and goes on with
      let free : Thread := { thread with step := none, input := some outcome }
      rw [hresumed]
      refine h.finish free hstep hdropped (onward_mapProgram y _) rfl hthreadAt rfl rfl rfl hthreads ?_
        ?_ ?_ fun _ _ => Iff.rfl
      · have hsorted := h.threadsSorted.insert free.id free
        rw [← hdropped.others] at hsorted
        exact hsorted
      · intro r hr
        have hne : r.id ≠ free.id := fun heq => hother r hr (hid ▸ heq.symm)
        have hout := h.out r hr
        rw [← hdropped.others] at hout
        exact ⟨(Table.find?_insert_of_ne hne _ _).trans hout.1, hout.2⟩
      · intro t other hfound
        rw [mapProgram, LiveProgram.find?_putThread, hdropped.others] at hfound
        split at hfound
        · cases hfound
          exact ⟨fun _ => rfl, fun _ => rfl⟩
        · exact h.input hfound

end Sound

end Execution

end DurableFlow
