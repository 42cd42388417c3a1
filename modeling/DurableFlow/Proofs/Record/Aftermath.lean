/-
After the end.

An execution that is over is done, asleep, and no program is being loaded for it. What may still happen
then is little: steps that are late are told things, a line is logged, an action is put beside a node, a
script is remembered. None of it changes how the execution went or what its history says, and nothing
that can be asked for wakes it.

That every execution that is done is over has to be shown along its whole life. What might go wrong is
a program that is being loaded while the execution ends: it would be put together and run. So it is shown
too that an execution sleeps while its program is being loaded, and cannot be started.
-/
import DurableFlow.Proofs.Record.Results
import DurableFlow.Proofs.Record.Suspension
import DurableFlow.Proofs.Record.Files

set_option autoImplicit false

namespace DurableFlow

open Script Text History

/-! ## Late changes -/

namespace Archive

variable {a : Archive}

theorem node_congr {a' : Archive} {n : Nat}
    (h : a'.history.get a'.tree n = a.history.get a.tree n) : a'.node n = a.node n := by
  unfold Archive.node Storage.node
  rw [h]

/-- A line in the log changes no node. -/
theorem node_log (a : Archive) (line : String) (n : Nat) : (a.log line).node n = a.node n := by
  refine node_congr (Storage.get_congr_tree a.history (fun id => ?_) n)
  refine FileTree.read_nodePath id (FileTree.sameAt_append _ (nodePath_ne_top id "log")) ?_
  have hdirectory : FileTree.SameAt a.tree (a.log line).tree nodeDirectory :=
    FileTree.sameAt_append _ (by decide)
  unfold FileTree.isFile
  rw [hdirectory]

/-- Actions beside a node change no node. -/
theorem node_saveActions (a : Archive) (id : Nat) (actions : List Action) (n : Nat) :
    ((saveActions id actions).after a).node n = a.node n := by
  let save : Storage → FileTree → EngineResult Unit × Storage × FileTree :=
    fun s tree => s.saveActions tree id actions
  obtain ⟨journal, ⟨e, heq⟩ | heq⟩ := historyCall_cases (.saveActions id) save a
  · rw [Attempt.after, saveActions, heq]
    rfl
  · rw [Attempt.after, saveActions, heq]
    exact node_congr (Storage.get_saveActions a.history a.tree id actions n)

end Archive

namespace Execution

variable {x y z : Execution}

/-- **What may still happen** to an execution that is over. -/
inductive Late (x : Execution) : Execution → Prop
  | aside {y : Execution} (h : Aside x y) : Late x y
  | logged (line : String) : Late x (x.log line)
  | attached (node : Nat) (actions : List Action) :
    Late x { x with archive := (Archive.saveActions node actions).after x.archive }
  | remembered (name source : String) : Late x (x.editRecord fun r =>
      { r with loadedScripts := Table.insert name source r.loadedScripts })
  | refuses (refuse : ArchiveCall → Option EngineError) :
    Late x { x with archive := { x.archive with refuse } }

/-- Late changes, one after the other. -/
def Lingers (x y : Execution) : Prop := Relation.ReflTransGen Late x y

/-- **How an execution went, and what its history says**, is as it was. -/
structure Frozen (x y : Execution) : Prop where
  done : y.record.done = x.record.done
  result : y.record.result = x.record.result
  error : y.record.error = x.record.error
  heads : y.record.heads = x.record.heads
  startNodes : y.record.startNodes = x.record.startNodes
  node : ∀ n, y.archive.node n = x.archive.node n

namespace Frozen

theorem refl (x : Execution) : Frozen x x := ⟨rfl, rfl, rfl, rfl, rfl, fun _ => rfl⟩

theorem trans (hxy : Frozen x y) (hyz : Frozen y z) : Frozen x z where
  done := hyz.done.trans hxy.done
  result := hyz.result.trans hxy.result
  error := hyz.error.trans hxy.error
  heads := hyz.heads.trans hxy.heads
  startNodes := hyz.startNodes.trans hxy.startNodes
  node n := (hyz.node n).trans (hxy.node n)

/-- Another archive with the same nodes, and the same record. -/
theorem of_node (hrecord : y.record = x.record) (hnode : ∀ n, y.archive.node n = x.archive.node n) :
    Frozen x y := by
  refine ⟨?_, ?_, ?_, ?_, ?_, hnode⟩ <;> rw [hrecord]

theorem late (h : Late x y) : Frozen x y := by
  cases h with
  | aside h => exact of_node h.record fun n => by rw [h.archive]
  | logged line => exact of_node rfl (x.archive.node_log line)
  | attached node actions => exact of_node rfl (x.archive.node_saveActions node actions)
  | remembered name source => exact ⟨rfl, rfl, rfl, rfl, rfl, fun _ => rfl⟩
  | refuses refuse => exact of_node rfl fun _ => rfl

/-- **Nothing that comes late changes how an execution went.** -/
theorem lingers (h : Lingers x y) : Frozen x y := by
  unfold Lingers at h
  induction h with
  | refl => exact refl x
  | tail _ hlate ih => exact ih.trans (late hlate)

end Frozen

/-! ## Over -/

/-- **An execution that is over.** -/
structure Over (x : Execution) : Prop extends Asleep x where
  done : x.record.done = true
  loading : x.loading = .none

/-- An execution that is done or has begun cannot be started. -/
theorem start_refused (h : (x.record.done || x.record.flowStart.isSome) = true) : start.after x = x := by
  have hread : Attempt.reading record x = (.ok x.record, x) := rfl
  have hguard : (Attempt.failIf (x.record.done || x.record.flowStart.isSome) .alreadyComplete : Act Unit) x =
      (.error .alreadyComplete, x) := by
    rw [h]
    rfl
  show (Execution.start x).2 = x
  rw [Execution.start, Attempt.bind_of_ok hread, Attempt.bind_of_error hguard]

/-- Asleep, an execution does not become done, and no program comes to be loaded. -/
theorem Dozes.kept (h : Dozes x y) :
    y.record.done = x.record.done ∧ y.record.flowStart = x.record.flowStart ∧ y.loading = x.loading := by
  induction h with
  | here _ => exact ⟨rfl, rfl, rfl⟩
  | @stirs y z _ hstir _ ih =>
    have hsame : z.record.done = y.record.done ∧ z.record.flowStart = y.record.flowStart ∧
        z.loading = y.loading := by
      cases hstir with
      | aside h => exact ⟨by rw [h.record], by rw [h.record], h.loading⟩
      | _ => exact ⟨rfl, rfl, rfl⟩
    rw [hsame.1, hsame.2.1, hsame.2.2]
    exact ih

/-- An execution that is done and asleep lingers. -/
theorem Dozes.lingers (h : Dozes x y) (hdone : x.record.done = true) : Lingers x y := by
  induction h with
  | here _ => exact Relation.ReflTransGen.refl
  | @stirs y z hdozes hstir _ ih =>
    -- three of the changes are made only while the execution is not done
    have hopen : y.record.done ≠ false := by
      rw [hdozes.kept.1, hdone]
      exact Bool.noConfusion
    refine Relation.ReflTransGen.tail ih ?_
    cases hstir with
    | aside h => exact .aside h
    | logged line => exact .logged line
    | attached node actions => exact .attached node actions
    | remembered name source => exact .remembered name source
    | paused on h => exact absurd h hopen
    | interrupted result causes h => exact absurd h hopen
    | saved h => exact absurd h hopen

namespace Over

theorem dozes (h : Over x) (hdozes : Dozes x y) : Lingers x y ∧ Over y := by
  obtain ⟨hdone, _, hloading⟩ := hdozes.kept
  exact ⟨hdozes.lingers h.done, hdozes.asleep, hdone.trans h.done, hloading.trans h.loading⟩

/-- **Nothing that can be asked for** wakes an execution that is over. -/
theorem perform (h : Over x) {operation : Operation} (hallowed : x.Allows operation) :
    Lingers x (x.perform operation) ∧ Over (x.perform operation) := by
  have hhere : Dozes x x := .here h.toAsleep
  have hstays : Lingers x x ∧ Over x := h.dozes hhere
  have hsame : ∀ {y : Execution}, Aside x y → y.lane = x.lane → y.inbox = x.inbox → Lingers x y ∧ Over y :=
    fun haside hlane hinbox => h.dozes (hhere.aside haside hlane hinbox)
  cases operation with
  | happen event =>
    -- an event of the lane is allowed only where there is one
    have hlane : event.isOfLane = false := by
      by_contra hof
      exact h.lane (hallowed (by simpa using hof))
    exact h.dozes (hhere.happen hlane)
  | progress => exact h.dozes hhere.progress
  | start =>
    show Lingers x (Execution.start.after x) ∧ Over (Execution.start.after x)
    rw [start_refused (by rw [h.done, Bool.true_or])]
    exact hstays
  | poll =>
    have hidle : x.pollLoad = x := by rw [pollLoad, h.loading]
    show Lingers x x.pollLoad ∧ Over x.pollLoad
    rw [hidle]
    exact hstays
  | finish outcome =>
    have hover : x.finish outcome = x := by simp only [Execution.finish, h.done, if_pos]
    show Lingers x (x.finish outcome) ∧ Over (x.finish outcome)
    rw [hover]
    exact hstays
  | abandon failure =>
    let halted : Execution := { x with halted := true, loadCancelled := true }
    have hover : x.abandon failure = halted := by
      unfold Execution.abandon Execution.finish
      rw [if_pos h.done]
    show Lingers x (x.abandon failure) ∧ Over (x.abandon failure)
    rw [hover]
    exact hsame ⟨rfl, rfl, rfl, rfl, rfl⟩ rfl rfl
  | refuse refuse =>
    exact ⟨Relation.ReflTransGen.single (.refuses refuse), ⟨h.lane, h.inbox⟩, h.done, h.loading⟩
  | resume =>
    have hover : x.resumeFrom = { x with stage := .finished } := by rw [resumeFrom, if_pos h.done]
    show Lingers x x.resumeFrom ∧ Over x.resumeFrom
    rw [hover]
    exact hsame ⟨rfl, rfl, rfl, rfl, rfl⟩ rfl rfl

end Over

/-! ## No program is loaded when it should not be -/

/-- **No program comes to be loaded** or is no longer so. -/
theorem continues_loading : Continues fun x y => y.loading = x.loading where
  refl _ := rfl
  trans hxy hyz := hyz.trans hxy
  basic h := by
    cases h with
    | aside h => exact h.loading
    | _ => rfl
  program _ := rfl
  marked _ _ := rfl

theorem loading_finish (x : Execution) (outcome : Outcome) : (x.finish outcome).loading = x.loading := by
  have hends := endChanges_finish x outcome
  unfold EndChanges at hends
  generalize x.finish outcome = y at hends
  induction hends with
  | refl => rfl
  | @tail y z _ hchange ih =>
    refine Eq.trans ?_ ih
    cases hchange with
    | basic h => exact continues_loading.basic h
    | migrated =>
      obtain ⟨archive, storage, heq⟩ := migrateHistory_eq y
      rw [heq]
    | _ => rfl

/-- What happens has nothing to do with programs that are being loaded. -/
theorem loading_happen (x : Execution) (event : Event) : (x.happen event).loading = x.loading := by
  -- only the end of the lane may bring the execution to its end
  by_cases hclose : ∀ advanced, event ≠ .close advanced
  · exact continues_loading.goesOn (goesOn_happen x hclose)
  · obtain ⟨advanced, rfl⟩ : ∃ advanced, event = .close advanced := by
      simpa only [not_forall, not_not] using hclose
    show (Turn.close { advanced, execution := x }).loading = x.loading
    rcases close_cases x advanced with hgoes | ⟨_, _, heq⟩
    · exact continues_loading.goesOn hgoes
    · rw [heq]
      exact loading_finish _ _

/-- What an operation leads to that comes to no end is done as before. -/
theorem Course.done (h : Course x y) : y.record.done = x.record.done := (carried_undone.course h).1

/-- **An execution that an operation makes done** is asleep then. -/
theorem asleep_of_done (operation : Operation) (hopen : x.record.done = false)
    (hdone : (x.perform operation).record.done = true) : Asleep (x.perform operation) := by
  -- what goes on is done as before, so the operation came to an end, and an end closes the lane
  have houtgrows := outgrows_perform x operation
  generalize x.perform operation = y at houtgrows hdone
  cases houtgrows with
  | goesOn h =>
    rw [h.done, hopen] at hdone
    cases hdone
  | @ends z outcome h _ =>
    obtain ⟨_, _, hlane, hinbox⟩ := ended_finish (h.done.trans hopen) outcome
    exact ⟨by simp [hlane], hinbox⟩

/-- Where no program is being loaded, only a resumption asks for one. -/
theorem loading_perform {operation : Operation} (hidle : x.loading = .none) (hresume : operation ≠ .resume) :
    (x.perform operation).loading = .none := by
  cases operation with
  | happen event => exact (loading_happen x event).trans hidle
  | progress =>
    show (x.progress.getD x).loading = .none
    unfold Execution.progress
    split
    · exact turn_of_events (P := fun y => y.loading = .none)
        (fun y event _ hy => (loading_happen y event).trans hy) hidle
    · split
      · exact (loading_happen x .fireTimers).trans hidle
      · split
        · exact (loading_happen x .stopNext).trans hidle
        · exact hidle
  | start =>
    show (Execution.start.after x).loading = .none
    rcases start_cases x with hchanges | ⟨_, _, y, hchanges, heq⟩
    · exact (continues_loading.changes hchanges).trans hidle
    · rw [heq]
      exact (loading_finish _ _).trans ((continues_loading.changes hchanges).trans hidle)
  | poll =>
    show x.pollLoad.loading = .none
    rw [pollLoad, hidle]
    exact hidle
  | finish outcome => exact (loading_finish x outcome).trans hidle
  | abandon failure => exact (loading_finish _ _).trans hidle
  | refuse refuse => exact hidle
  | resume => exact absurd rfl hresume

/-- **A life that is in order**: an execution that is done is over, and one whose program is being loaded
has begun and is asleep. -/
structure Proper (x : Execution) : Prop where
  settled : x.record.done = true → Over x
  loads : x.loading ≠ .none → Asleep x ∧ x.record.flowStart.isSome = true

namespace Proper

theorem of_over (h : Over x) : Proper x := ⟨fun _ => h, fun hloads => absurd h.loading hloads⟩

/-- Where no program is being loaded. -/
theorem of_idle (hidle : y.loading = .none) (hasleep : y.record.done = true → Asleep y) : Proper y :=
  ⟨fun hdone => ⟨hasleep hdone, hdone, hidle⟩, fun hloads => absurd hidle hloads⟩

/-- An execution whose program is being loaded goes on being asleep. -/
theorem dozes (hopen : x.record.done = false) (hbegun : x.record.flowStart.isSome = true)
    (h : Dozes x y) : Proper y := by
  obtain ⟨hdone, hstart, _⟩ := h.kept
  refine ⟨fun hover => ?_, fun _ => ⟨h.asleep, by rw [hstart]; exact hbegun⟩⟩
  rw [hdone, hopen] at hover
  cases hover

/-- What an execution is resumed to. -/
theorem resume (h : x.Reread) : Proper x.resumeFrom := by
  -- what was just read from the files has neither lane nor program
  have hlane : x.lane = .absent := by rw [h.asRead]
  have hinbox : x.inbox = [] := by rw [h.asRead]
  have hidle : x.loading = .none := by rw [h.asRead]
  have hasleep : Asleep x := ⟨by simp [hlane], hinbox⟩
  cases hdone : x.record.done with
  | true =>
    have hover : Over x := ⟨hasleep, hdone, hidle⟩
    have hallowed : x.Allows .resume := h
    exact .of_over (hover.perform hallowed).2
  | false =>
    cases hclean : x.record.clean with
    | true =>
      have hloading : x.resumeFrom = { x with stage := .loading, loading := .requested } := by
        simp [resumeFrom, hdone, hclean]
      rw [hloading]
      refine ⟨fun hover => ?_, fun _ => ⟨⟨hasleep.lane, hasleep.inbox⟩, h.begun⟩⟩
      rw [show x.record.done = true from hover] at hdone
      cases hdone
    | false =>
      refine .of_idle ?_ (asleep_of_done .resume hdone)
      unfold resumeFrom
      simp only [hdone, hclean, Bool.false_eq_true, if_false]
      exact (loading_finish _ _).trans hidle

/-- A program that is being loaded is looked at. -/
theorem poll (h : Proper x) (hopen : x.record.done = false) (hloads : x.loading ≠ .none) :
    Proper x.pollLoad := by
  have hpolls := polls_pollLoad x
  have hasleep := asleep_of_done .poll hopen
  change x.pollLoad.record.done = true → Asleep x.pollLoad at hasleep
  generalize x.pollLoad = y at hpolls hasleep
  cases hpolls with
  | idle hidle => exact absurd hidle hloads
  | @waits saved resolution _ =>
    obtain ⟨hdozes, hbegun⟩ := h.loads hloads
    refine ⟨fun hdone => ?_, fun _ => ⟨⟨hdozes.lane, hdozes.inbox⟩, hbegun⟩⟩
    rw [show x.record.done = true from hdone] at hopen
    cases hopen
  | fails objects e _ =>
    obtain ⟨_, z, hchanges, heq⟩ := failLoad_ends { x with liveObjects := objects } e
    rw [heq] at hasleep ⊢
    exact .of_idle ((loading_finish _ _).trans (continues_loading.changes hchanges)) hasleep
  | revives objects saved program _ =>
    exact .of_idle (continues_loading.changes (.revive _ saved program)) hasleep

/-- **What is asked of a life in order** leaves it in order. -/
theorem perform (h : Proper x) {operation : Operation} (hallowed : x.Allows operation) :
    Proper (x.perform operation) := by
  cases hdone : x.record.done with
  | true => exact .of_over ((h.settled hdone).perform hallowed).2
  | false =>
    by_cases hresume : operation = .resume
    · subst hresume
      exact .resume hallowed
    by_cases hidle : x.loading = .none
    · exact .of_idle (loading_perform hidle hresume) (asleep_of_done operation hdone)
    · obtain ⟨hasleep, hbegun⟩ := h.loads hidle
      have hhere : Dozes x x := .here hasleep
      cases operation with
      | happen event =>
        have hlane : event.isOfLane = false := by
          by_contra hof
          exact hasleep.lane (hallowed (by simpa using hof))
        exact .dozes hdone hbegun (hhere.happen hlane)
      | progress => exact .dozes hdone hbegun hhere.progress
      | start =>
        show Proper (Execution.start.after x)
        rw [start_refused (by rw [hbegun, Bool.or_true])]
        exact h
      | poll => exact h.poll hdone hidle
      | finish outcome => exact absurd hallowed hidle
      | abandon failure => exact absurd hallowed hidle
      | refuse refuse => exact ⟨fun hno => (by rw [show x.record.done = true from hno] at hdone; cases hdone),
          fun _ => ⟨⟨hasleep.lane, hasleep.inbox⟩, hbegun⟩⟩
      | resume => exact absurd rfl hresume

end Proper

end Execution

end DurableFlow
