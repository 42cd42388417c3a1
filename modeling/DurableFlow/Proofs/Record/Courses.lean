/-
What becomes of an execution.

An event leads to basic changes, to a checkpoint, or to the mark that what was saved is out of date;
only the close of a turn may end the program. So does the start, and so does each look at a program that
is being loaded: the execution goes on, or it comes to its end from where it is. The end is told twice.
As a whole it is what makes an execution done. In its parts it is a sequence of small changes again, for
whatever is kept by each of them.
-/
import DurableFlow.Proofs.History.Writing
import DurableFlow.Proofs.Record.Changes

set_option autoImplicit false

namespace DurableFlow.Execution

open Script Text History

/-! ## The end in its parts -/

/-- **One change at the end** of an execution. -/
inductive EndChange : Execution → Execution → Prop
  | basic {x y : Execution} (h : BasicChange x y) : EndChange x y
  | concluded {x : Execution} (result : FlowResult) (error : Option Failure) :
    EndChange x (x.mapRecord fun r => { r.worsen result with error })
  /-- The last node was written. -/
  | ended {x : Execution} (heads : Table Nat Nat) (now : Timestamp) :
    EndChange x (x.mapRecord fun r =>
      { r with heads, startNodes := [], done := true, completedAt := some now })
  | unwritten {x : Execution} : EndChange x x.endUnwritten
  | migrated {x : Execution} : EndChange x x.migrateHistory
  /-- An execution that is done is clean. -/
  | settled {x : Execution} (hdone : x.record.done = true) :
    EndChange x (x.mapRecord fun r => { r with clean := true })

/-- A sequence of changes at the end. -/
def EndChanges (x y : Execution) : Prop := Relation.ReflTransGen EndChange x y

namespace EndChanges

variable {x y z : Execution}

theorem refl (x : Execution) : EndChanges x x := Relation.ReflTransGen.refl

theorem trans (hxy : EndChanges x y) (hyz : EndChanges y z) : EndChanges x z :=
  Relation.ReflTransGen.trans hxy hyz

theorem single (h : EndChange x y) : EndChanges x y := Relation.ReflTransGen.single h

theorem of_after {α : Type} {act : Act α} (h : EndChanges x (act.after y)) {result : EngineResult α}
    (heq : act y = (result, z)) : EndChanges x z := by
  rw [Attempt.after, heq] at h
  exact h

end EndChanges

theorem Changes.ends {x y : Execution} (h : Changes x y) : EndChanges x y := by
  unfold Changes at h
  induction h with
  | refl => exact .refl x
  | tail _ hchange ih => exact ih.trans (.single (.basic hchange))

/-- What an operation of the history leads to, if it comes at the end. -/
theorem EndChanges.changing {α : Type} {x y : Execution} {act : Act α} (h : EndChanges x y)
    (hact : Changing act) : EndChanges x (act.after y) := h.trans (hact y).ends

theorem endChanges_writeEndNode (error : Option Failure) (x : Execution) :
    EndChanges x ((writeEndNode error).after x) := by
  have hstart : EndChanges x (ensureStart.after x) := (Changes.alongWrites.ensureStart x).ends
  refine Attempt.after_bind (P := EndChanges x) hstart fun start y hy => ?_
  refine Attempt.after_bind (P := EndChanges x) hy fun record y hy => ?_
  refine Attempt.after_bind (P := EndChanges x) (hy.changing Changes.alongWrites.lastHead) fun head y hy => ?_
  refine Attempt.after_bind (P := EndChanges x) (hy.changing Changes.alongWrites.node) fun id y hy => ?_
  refine Attempt.after_bind (P := EndChanges x) hy fun now y hy => ?_
  refine Attempt.after_bind (P := EndChanges x) (hy.changing (.call fun _ => .store _ _)) fun _ y hy => ?_
  exact hy.trans (.single (.ended _ _))

/-- An end node that was written marks the execution as done. -/
theorem done_of_writeEndNode {x y : Execution} {error : Option Failure}
    (h : writeEndNode error x = (.ok (), y)) : y.record.done = true := by
  obtain ⟨start, _, _, h⟩ := Attempt.bind_eq_ok h
  obtain ⟨record, _, _, h⟩ := Attempt.bind_eq_ok h
  obtain ⟨head, _, _, h⟩ := Attempt.bind_eq_ok h
  obtain ⟨id, _, _, h⟩ := Attempt.bind_eq_ok h
  obtain ⟨now, _, _, h⟩ := Attempt.bind_eq_ok h
  obtain ⟨_, _, _, h⟩ := Attempt.bind_eq_ok h
  cases h
  rfl

/-- **Moving the history** changes the files and where the history is kept, and nothing else. -/
theorem migrateHistory_eq (x : Execution) : ∃ archive storage,
    x.migrateHistory = { x with archive, record := { x.record with storage } } := by
  rcases x.migrateHistory_cases with hsame | ⟨_, ⟨a, _, heq⟩ | ⟨_, a, _, heq⟩⟩
  · exact ⟨x.archive, x.record.storage, hsame⟩
  · exact ⟨a, .bulk, heq⟩
  · exact ⟨a, x.record.storage, heq⟩

theorem migrateHistory_record (x : Execution) :
    x.migrateHistory.record = { x.record with storage := x.migrateHistory.record.storage } := by
  obtain ⟨archive, storage, heq⟩ := migrateHistory_eq x
  rw [heq]

theorem endChanges_writeEnd (result : FlowResult) (error : Option Failure) (x : Execution) :
    EndChanges x ((writeEnd result error).after x) := by
  let noted := x.mapRecord fun r => { r.worsen result with error }
  have hnoted : EndChanges x noted := .single (.concluded result error)
  have hnode := hnoted.trans (endChanges_writeEndNode error noted)
  show EndChanges x (Attempt.andThen (writeEndNode error) _ noted).2
  unfold Attempt.andThen
  split
  · next y heq =>
    replace hnode := hnode.of_after heq
    -- from here on the execution is done, so that the record may say that it is clean
    have hdone : y.record.done = true := done_of_writeEndNode heq
    refine And.left (b := _ = true) (Attempt.after_bind (P := fun z => EndChanges x z ∧ z.record.done = true)
      ⟨hnode.changing changing_flush, hdone⟩ fun _ y₁ h₁ => ?_)
    have hmigrated : y₁.migrateHistory.record.done = true := by
      rw [migrateHistory_record]
      exact h₁.2
    refine Attempt.after_bind (P := fun z => EndChanges x z ∧ z.record.done = true)
      ⟨h₁.1.trans (.single .migrated), hmigrated⟩ fun _ y₂ h₂ => ?_
    refine Attempt.after_bind (P := fun z => EndChanges x z ∧ z.record.done = true)
      ⟨h₂.1.trans (.single (.settled h₂.2)), h₂.2⟩ fun _ y₃ h₃ => ?_
    exact ⟨h₃.1.changing Changes.alongRequests.saveRecord, h₃.2⟩
  · next heq => exact hnode.of_after heq

theorem Changes.announceEnd (x : Execution) : Changes x x.announceEnd := by
  let closed : Execution := { x with lane := .absent, inbox := [], stage := .finished }
  have hclosed : Changes x closed := .aside rfl rfl rfl rfl rfl
  exact hclosed.trans (.log closed _)

/-- **The end of an execution**, in its parts. -/
theorem endChanges_finish (x : Execution) (outcome : Outcome) : EndChanges x (x.finish outcome) := by
  unfold Execution.finish
  split
  · exact .refl _
  · split
    · next heq => exact ((endChanges_writeEnd _ _ x).of_after heq).trans (Changes.announceEnd _).ends
    · next heq =>
      refine ((endChanges_writeEnd _ _ x).of_after heq).trans ?_
      exact EndChanges.trans (.single .unwritten) (Changes.announceEnd _).ends

/-! ## Events -/

/-- **An event makes a checkpoint** if one is asked for, from outside or by a job that comes first, if
the execution is suspended, or if the program is idle and is saved when it is. -/
inductive Saves (x : Execution) : Event → Prop
  | asked : Saves x .checkpoint
  | suspended : Saves x .suspend
  | job {rest : List Job} (hinbox : x.inbox = .checkpoint :: rest) : Saves x .work
  | idle {advanced : Bool} (hpersists : x.record.durability.persistsWhenIdle = true) :
    Saves x (.close advanced)

/-- **Whatever else happens**, but the close of a turn, is a sequence of basic changes. -/
theorem Changes.happen (x : Execution) {event : Event} (hsaves : ¬ x.Saves event)
    (hstale : event ≠ .markStale) (hclose : ∀ advanced, event ≠ .close advanced) :
    Changes x (x.happen event) := by
  cases event with
  | work =>
    simp only [Execution.happen, Execution.work]
    split
    · exact .refl x
    · next job rest hinbox =>
      have hjob : job ≠ .checkpoint := fun heq => hsaves (.job (heq ▸ hinbox))
      have hwithout : Changes x (x.withJobs rest) := .aside rfl rfl rfl rfl rfl
      exact hwithout.trans (handle _ hjob)
  | run thread => exact runThread x thread
  | markStale => exact absurd rfl hstale
  | close advanced => exact absurd rfl (hclose advanced)
  | submit job => exact submit x job
  | effect node effect => exact (alongHooks node).applyEffect x effect
  | remember node memory => exact adjustStep x node _
  | signal name outcome => exact alongHost.signal x name outcome
  | fireTimers => exact alongHost.fireTimers x
  | stopNext => exact alongHost.stopNext x
  | pause on => exact Changes.alongRequests.pause on x
  | interrupt result causes => exact Changes.alongRequests.interrupt result causes x
  | cancelScope node cause => exact Changes.alongRequests.cancelScope node cause x
  | checkpoint => exact absurd .asked hsaves
  | suspend => exact absurd .suspended hsaves
  | pass now clock => exact .aside rfl rfl rfl rfl rfl

/-- **An execution goes on**: by basic changes, over a checkpoint, or to the mark that what was saved is
out of date. -/
inductive GoesOn (x : Execution) : Execution → Prop
  | changes {y : Execution} (h : Changes x y) : GoesOn x y
  | saves {y z : Execution} (h : Aside x y) (h' : Aside y.saveCheckpoint.2 z) : GoesOn x z
  | marks : GoesOn x x.markStale

/-- Without a lane that serves, what goes through the lane is refused. -/
theorem after_requireLane {α : Type} {x : Execution} (h : x.lane ≠ .serving) (next : Unit → Act α) :
    (requireLane >>= next).after x = x := by
  have hrefused : ∃ e, requireLane x = (.error e, x) := by
    unfold requireLane
    cases hlane : x.lane with
    | serving => exact absurd hlane h
    | closed => exact ⟨_, rfl⟩
    | absent => exact ⟨_, rfl⟩
  obtain ⟨e, hrefused⟩ := hrefused
  rw [Attempt.after, Attempt.bind_of_error hrefused]

theorem refused_checkpoint {x : Execution} (h : x.lane ≠ .serving) : checkpoint.after x = x :=
  after_requireLane h _

theorem goesOn_checkpoint (x : Execution) : GoesOn x (checkpoint.after x) := by
  by_cases hlane : x.lane = .serving
  · have hlives : requireLane x = (.ok (), x) := by
      unfold requireLane
      rw [hlane]
    have hcheckpoint : checkpoint.after x = x.saveCheckpoint.2.submit .run :=
      congrArg Prod.snd (Attempt.bind_of_ok hlives)
    rw [hcheckpoint]
    exact .saves (.refl x) (.submit _ _)
  · rw [refused_checkpoint hlane]
    exact .changes (.refl x)

theorem goesOn_suspend (x : Execution) : GoesOn x x.suspend := by
  unfold suspend
  split
  · exact .changes (.refl x)
  · dsimp only
    split
    · exact .changes (.aside rfl rfl rfl rfl rfl)
    · exact .changes (.aside rfl rfl rfl rfl rfl)
    · refine .saves (y := { x with halted := true, lane := .absent, inbox := [] }) ?_ (.refl _)
      exact ⟨rfl, rfl, rfl, rfl, rfl⟩

/-- **What happens does not end an execution**, unless a turn is closed. -/
theorem goesOn_happen (x : Execution) {event : Event} (hclose : ∀ advanced, event ≠ .close advanced) :
    GoesOn x (x.happen event) := by
  by_cases hstale : event = .markStale
  · rw [hstale]
    exact .marks
  · by_cases hsaves : x.Saves event
    · cases hsaves with
      | asked => exact goesOn_checkpoint x
      | suspended => exact goesOn_suspend x
      | @job rest hinbox =>
        show GoesOn x x.work
        unfold work
        rw [hinbox]
        exact .saves (y := x.withJobs rest) ⟨rfl, rfl, rfl, rfl, rfl⟩ (.refl _)
      | @idle advanced _ => exact absurd rfl (hclose advanced)
    · exact .changes (.happen x hsaves hstale hclose)

/-- **A turn is closed**: the execution goes on, or its program is over and ends. -/
theorem close_cases (x : Execution) (advanced : Bool) :
    GoesOn x (Turn.close { advanced, execution := x }) ∨
      x.program.finished = false ∧ x.program.isOver = true ∧
        Turn.close { advanced, execution := x } = x.endProgram := by
  unfold Turn.close
  dsimp only
  split
  · exact .inl (.changes (.refl x))
  · next hopen =>
    split
    · next hover => exact .inr ⟨Bool.eq_false_iff.mpr hopen, hover, rfl⟩
    · split
      · unfold whenIdle
        split
        · exact .inl (.saves (.refl x) (.refl _))
        · exact .inl (.changes (.refl x))
      · exact .inl (.changes (.refl x))

/-- **Whatever happens without a checkpoint**, and is not the mark, in its parts. -/
theorem EndChanges.happen (x : Execution) {event : Event} (hsaves : ¬ x.Saves event)
    (hstale : event ≠ .markStale) : EndChanges x (x.happen event) := by
  by_cases hclose : ∀ advanced, event ≠ .close advanced
  · exact (Changes.happen x hsaves hstale hclose).ends
  · obtain ⟨advanced, rfl⟩ : ∃ advanced, event = .close advanced := by
      simpa only [not_forall, not_not] using hclose
    show EndChanges x (Turn.close { advanced, execution := x })
    rcases close_cases x advanced with hgoes | ⟨_, _, heq⟩
    · have hidle : x.whenIdle = x := by
        unfold whenIdle
        rw [if_neg fun hpersists => hsaves (.idle hpersists)]
      unfold Turn.close
      dsimp only
      split
      · exact .refl x
      · split
        · exact (Changes.mapProgram x _).ends.trans (endChanges_finish _ _)
        · rw [hidle]
          split
          · exact .refl x
          · exact .refl x
    · rw [heq]
      exact (Changes.mapProgram x _).ends.trans (endChanges_finish _ _)

/-! ## The start and loading -/

/-- **An execution comes to its end** with an outcome, from where basic changes have led it. -/
def EndsFrom (x : Execution) (outcome : Outcome) (z : Execution) : Prop :=
  ∃ y, Changes x y ∧ z = y.finish outcome

/-- The failure of a script that does not compile. -/
def uncompiled (e : EngineError) : Failure := { code := Failure.Code.scriptError, message := e.message }

/-- **An execution is started**: it goes on, or its script does not compile and it ends. -/
theorem start_cases (x : Execution) : Changes x (start.after x) ∨
    ∃ e, compileSource x.record.scriptName x.record.script = .error e ∧
      EndsFrom x (.error (uncompiled e)) (start.after x) := by
  let Comes (z : Execution) : Prop := Changes x z ∨
    ∃ e, compileSource x.record.scriptName x.record.script = .error e ∧ EndsFrom x (.error (uncompiled e)) z
  have hread : Attempt.reading record x = (.ok x.record, x) := rfl
  change Comes (start x).2
  rw [start, Attempt.bind_of_ok hread]
  refine Attempt.after_bind_of (Q := Comes) (Changes.alongWrites.failIf _ _ x) (fun y hy => .inl hy) fun _ y hy => ?_
  refine Attempt.after_bind_of (Q := Comes) (hy.trans (changing_writeStart y)) (fun y hy => .inl hy) fun head y hy => ?_
  refine Attempt.after_bind_of (P := Changes x) (Q := Comes) (hy.trans (.log y _)) (fun y hy => .inl hy)
    fun _ y hy => ?_
  cases hcompiles : compileSource x.record.scriptName x.record.script with
  | ok program => exact .inl (hy.trans (changing_startProgram program head y))
  | error e => exact .inr ⟨e, hcompiles, _, hy.trans (.log y _), rfl⟩

/-- The start in its parts, whatever comes of it. -/
theorem endChanges_start (x : Execution) : EndChanges x (start.after x) := by
  rcases start_cases x with hchanges | ⟨e, _, y, hchanges, heq⟩
  · exact hchanges.ends
  · rw [heq]
    exact hchanges.ends.trans (endChanges_finish _ _)

/-- A load that fails is the end. -/
theorem failLoad_ends (x : Execution) (e : EngineError) : ∃ failure,
    EndsFrom { x with loading := .none, lane := .absent, inbox := [] } (.error failure) (x.failLoad e) := by
  let given : Execution := { x with loading := .none, lane := .absent, inbox := [] }
  have hhalted : ∀ y : Execution, Changes given y →
      Changes given { y with halted := true, loadCancelled := true } :=
    fun y hy => hy.trans (.aside rfl rfl rfl rfl rfl)
  unfold failLoad
  dsimp only
  split
  · exact ⟨_, _, hhalted given (.refl given), rfl⟩
  · exact ⟨_, _, hhalted _ (.log given _), rfl⟩

/-- **What comes of looking at a program that is being loaded.** -/
inductive Polls (x : Execution) : Execution → Prop
  | idle (hidle : x.loading = .none) : Polls x x
  | waits {saved : SavedProgram} {resolution : Resolution} (hloads : x.loading ≠ .none) :
    Polls x { x with loading := .resolving saved resolution }
  | fails (objects : Table Handle Val) (e : EngineError) (hloads : x.loading ≠ .none) :
    Polls x ({ x with liveObjects := objects }.failLoad e)
  | revives (objects : Table Handle Val) (saved : SavedProgram) (program : LiveProgram)
    (hloads : x.loading ≠ .none) : Polls x ({ x with liveObjects := objects }.revive saved program)

theorem polls_handles {x : Execution} (hloads : x.loading ≠ .none) (saved : SavedProgram)
    (resolution : Resolution) : Polls x (x.pollHandles saved resolution) := by
  unfold pollHandles
  dsimp only
  split
  · exact .waits hloads
  · unfold handlesResolved
    dsimp only
    split
    · exact .fails _ _ hloads
    · exact .revives _ _ _ hloads
  · exact .fails x.liveObjects _ hloads

theorem polls_pollLoad (x : Execution) : Polls x x.pollLoad := by
  unfold pollLoad
  split
  · next hidle => exact .idle hidle
  · next hrequested =>
    have hloads : x.loading ≠ .none := by simp [hrequested]
    split
    · exact .fails x.liveObjects _ hloads
    · exact polls_handles hloads _ _
  · next hresolving =>
    have hloads : x.loading ≠ .none := by simp [hresolving]
    exact polls_handles hloads _ _

end DurableFlow.Execution
