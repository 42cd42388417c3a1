/-
What leaves the scheduler alone.

Most of what an execution does has nothing to do with its threads and steps: history
is written, records are saved, requests are noted, time passes. All of this is quiet:
the program stays as it is, jobs are only added while the lane serves, and numbers
that were given out are not given out again.
-/
import DurableFlow.Proofs.Data.Table
import DurableFlow.Proofs.Scheduler.Along

set_option autoImplicit false

namespace DurableFlow

open Script History

namespace Execution

/-- **One state comes after another** in the life of an execution: jobs are kept while the lane
serves, numbers are not given out again, no outcome was lost. A lane may be closed, but not
opened. -/
structure Onward (x y : Execution) : Prop where
  engine : y.engine = x.engine
  inbox : y.lane = .serving → x.lane = .serving ∧ ∀ job ∈ x.inbox, job ∈ y.inbox
  nodes : x.record.nextNodeId ≤ y.record.nextNodeId
  threads : y.record.threadsCreated = x.record.threadsCreated
  lost : y.lost = x.lost

namespace Onward

/-- States that agree on the lane and the numbers. -/
theorem of_eq {x y : Execution} (hengine : y.engine = x.engine) (hlane : y.lane = x.lane)
    (hinbox : y.inbox = x.inbox) (hnodes : x.record.nextNodeId ≤ y.record.nextNodeId)
    (hthreads : y.record.threadsCreated = x.record.threadsCreated) (hlost : y.lost = x.lost) : Onward x y :=
  ⟨hengine, fun h => ⟨hlane ▸ h, fun _ hmem => hinbox ▸ hmem⟩, hnodes, hthreads, hlost⟩

theorem refl (x : Execution) : Onward x x := of_eq rfl rfl rfl (Nat.le_refl _) rfl rfl

theorem trans {x y z : Execution} (hxy : Onward x y) (hyz : Onward y z) : Onward x z where
  engine := hyz.engine.trans hxy.engine
  inbox h := by
    obtain ⟨hy, hjobs⟩ := hyz.inbox h
    obtain ⟨hx, hjobs'⟩ := hxy.inbox hy
    exact ⟨hx, fun job hmem => hjobs job (hjobs' job hmem)⟩
  nodes := Nat.le_trans hxy.nodes hyz.nodes
  threads := hyz.threads.trans hxy.threads
  lost := hyz.lost.trans hxy.lost

end Onward

theorem onward_mapProgram (x : Execution) (f : LiveProgram → LiveProgram) :
    Onward x (x.mapProgram f) := .of_eq rfl rfl rfl (Nat.le_refl _) rfl rfl

/-- One state comes after another with the same program. -/
structure Calm (x y : Execution) : Prop extends Onward x y where
  program : y.program = x.program

/-- States that agree on what the scheduler looks at. -/
theorem Calm.of_eq {x y : Execution} (hengine : y.engine = x.engine) (hprogram : y.program = x.program)
    (hlane : y.lane = x.lane) (hinbox : y.inbox = x.inbox) (hnodes : x.record.nextNodeId ≤ y.record.nextNodeId)
    (hthreads : y.record.threadsCreated = x.record.threadsCreated) (hlost : y.lost = x.lost) :
    Calm x y :=
  ⟨.of_eq hengine hlane hinbox hnodes hthreads hlost, hprogram⟩

/-- **One state follows another quietly**: only the record, the history, the lane and what is
asked of it may be different. -/
structure Quiet (x y : Execution) : Prop extends Onward x y where
  rest : y = { x with
    archive := y.archive, record := y.record, stage := y.stage, lane := y.lane, inbox := y.inbox
    paused := y.paused, halted := y.halted, loadCancelled := y.loadCancelled
    interrupts := y.interrupts }

namespace Quiet

theorem refl (x : Execution) : Quiet x x := ⟨.refl x, rfl⟩

theorem trans {x y z : Execution} (hxy : Quiet x y) (hyz : Quiet y z) : Quiet x z :=
  ⟨hxy.toOnward.trans hyz.toOnward, by rw [hyz.rest, hxy.rest]⟩

/-- States that agree on what the scheduler looks at. -/
theorem of_eq {x y : Execution} (hrest : y = { x with
      archive := y.archive, record := y.record, stage := y.stage, lane := y.lane, inbox := y.inbox
      paused := y.paused, halted := y.halted, loadCancelled := y.loadCancelled
      interrupts := y.interrupts })
    (hlane : y.lane = x.lane) (hinbox : y.inbox = x.inbox)
    (hnodes : x.record.nextNodeId ≤ y.record.nextNodeId)
    (hthreads : y.record.threadsCreated = x.record.threadsCreated) : Quiet x y :=
  ⟨.of_eq (by rw [hrest]) hlane hinbox hnodes hthreads (by rw [hrest]), hrest⟩

/-- The lane is closed, and nothing else that the scheduler looks at is changed. -/
theorem of_closed {x y : Execution} (hrest : y = { x with
      archive := y.archive, record := y.record, stage := y.stage, lane := y.lane, inbox := y.inbox
      paused := y.paused, halted := y.halted, loadCancelled := y.loadCancelled
      interrupts := y.interrupts })
    (hlane : y.lane ≠ .serving) (hrecord : y.record = x.record) : Quiet x y :=
  ⟨⟨by rw [hrest], fun h => absurd h hlane, Nat.le_of_eq (congrArg Record.nextNodeId hrecord.symm),
    congrArg Record.threadsCreated hrecord, by rw [hrest]⟩, hrest⟩

theorem program {x y : Execution} (h : Quiet x y) : y.program = x.program := by rw [h.rest]

theorem calm {x y : Execution} (h : Quiet x y) : Calm x y := ⟨h.toOnward, h.program⟩

end Quiet

/-- An operation that is quiet from every state. -/
def Quietly {α : Type} (act : Act α) : Prop := ∀ x, Quiet x (act x).2

theorem Quietly.onArchive {α : Type} (act : Attempt Archive α) : Quietly (onArchive act) := fun _ =>
  .of_eq rfl rfl rfl (Nat.le_refl _) rfl

/-- A change of the record that gives out no thread and takes no node back. -/
structure KeepsNumbers (f : Record → Record) : Prop where
  nodes : ∀ r, r.nextNodeId ≤ (f r).nextNodeId
  threads : ∀ r, (f r).threadsCreated = r.threadsCreated

theorem quiet_mapRecord {f : Record → Record} (h : KeepsNumbers f) (x : Execution) :
    Quiet x (x.mapRecord f) := .of_eq rfl rfl rfl (h.nodes _) (h.threads _)

theorem quiet_log (x : Execution) (line : String) : Quiet x (x.log line) :=
  .of_eq rfl rfl rfl (Nat.le_refl _) rfl

theorem quiet_submit (x : Execution) (job : Job) : Quiet x (x.submit job) := by
  unfold submit
  split
  · next hlane =>
    exact ⟨⟨rfl, fun _ => ⟨hlane, fun _ hmem => List.mem_append_left _ hmem⟩, Nat.le_refl _, rfl, rfl⟩,
      rfl⟩
  · exact .refl x

/-- **The history is written quietly.** -/
theorem Quiet.alongWrites : AlongWrites Quiet where
  refl := .refl
  trans := .trans
  node _ := .of_eq rfl rfl rfl (Nat.le_succ _) rfl
  head _ := .of_eq rfl rfl rfl (Nat.le_refl _) rfl
  lines _ _ _ := .of_eq rfl rfl rfl (Nat.le_refl _) rfl
  start _ _ := .of_eq rfl rfl rfl (Nat.le_refl _) rfl
  touch _ := .of_eq rfl rfl rfl (Nat.le_refl _) rfl
  store _ _ := Quietly.onArchive _
  autopersist _ := Quietly.onArchive _
  actions _ _ := Quietly.onArchive _

/-- **What is asked of an execution is noted quietly**, and checkpoints are made so. -/
theorem Quiet.alongCheckpoints : AlongCheckpoints Quiet where
  refl := .refl
  trans := .trans
  log := quiet_log
  submit := quiet_submit
  touch _ := .of_eq rfl rfl rfl (Nat.le_refl _) rfl
  write _ := .of_eq rfl rfl rfl (Nat.le_refl _) rfl
  paused _ _ := .of_eq rfl rfl rfl (Nat.le_refl _) rfl
  noted _ _ _ := .of_eq rfl rfl rfl (Nat.le_refl _) rfl
  cancels _ := .of_eq rfl rfl rfl (Nat.le_refl _) rfl
  flush := Quietly.onArchive _
  program _ := .of_eq rfl rfl rfl (Nat.le_refl _) rfl
  marked _ _ := .of_eq rfl rfl rfl (Nat.le_refl _) rfl
  halted _ := .of_eq rfl rfl rfl (Nat.le_refl _) rfl
  leaves _ _ := .of_closed rfl (by simp) rfl

/-- **What hooks ask for besides what they report** is quiet, or aside. -/
theorem AlongHooks.of_quiet {R : Execution → Execution → Prop} {node : Nat} (hR : Chains R)
    (hquiet : ∀ {x y}, Quiet x y → R x y) (hdeliver : ∀ x outcome, R x (x.deliver node outcome))
    (hqueue : ∀ x source overrides branch, R x (x.queueBody node source overrides branch).2)
    (hbound : ∀ (x : Execution) (handle : Handle) (object : Val),
      R x { x with liveObjects := Table.insert handle object x.liveObjects })
    (haside : ∀ (x : Execution) (timers : List Timer) (board : SignalBoard) (published : Table String Nat),
      R x { x with timers, board, published }) : AlongHooks R node where
  toChains := hR
  deliver := hdeliver
  queueBody := hqueue
  log x line := hquiet (quiet_log x line)
  addAction action x := hquiet (Quiet.alongWrites.addAction node action x)
  pause x := hquiet (Quiet.alongCheckpoints.pause true x)
  interrupt result x := hquiet (Quiet.alongCheckpoints.interrupt result [] x)
  loaded _ _ _ := hquiet (.of_eq rfl rfl rfl (Nat.le_refl _) rfl)
  bound := hbound
  aside := haside

/-! ## The end -/

theorem quietly_writeEndNode (error : Option Failure) : Quietly (writeEndNode error) := by
  have hR := Quiet.alongWrites
  refine hR.bind hR.ensureStart fun start => hR.bind (hR.reading _) fun record => ?_
  refine hR.bind hR.lastHead fun head => hR.bind hR.node fun id => ?_
  refine hR.bind (hR.reading _) fun now => hR.bind (hR.store _ _) fun _ => ?_
  refine .update fun x => quiet_mapRecord ?_ x
  exact ⟨fun _ => Nat.le_refl _, fun _ => rfl⟩

theorem quiet_migrateHistory (x : Execution) : Quiet x x.migrateHistory := by
  have hmigrate := Quietly.onArchive Archive.migrate x
  unfold migrateHistory
  split
  · split
    · next heq =>
      rw [heq] at hmigrate
      refine hmigrate.trans (quiet_mapRecord ?_ _)
      exact ⟨fun _ => Nat.le_refl _, fun _ => rfl⟩
    · next heq =>
      rw [heq] at hmigrate
      exact hmigrate
  · exact .refl x

theorem quietly_writeEnd (result : FlowResult) (error : Option Failure) :
    Quietly (writeEnd result error) := by
  have hR := Quiet.alongCheckpoints
  refine hR.bind (.update fun x => quiet_mapRecord ?_ x) fun _ => ?_
  · exact ⟨fun _ => Nat.le_refl _, fun _ => rfl⟩
  refine hR.bind (quietly_writeEndNode error) fun _ => hR.bind hR.flush fun _ => ?_
  refine hR.bind (.update quiet_migrateHistory) fun _ => ?_
  exact hR.bind (.update fun x => hR.marked x true) fun _ => hR.saveRecord

theorem quiet_announceEnd (x : Execution) : Quiet x x.announceEnd :=
  .of_closed rfl (by simp [announceEnd, log]) rfl

/-- However the writing of the end went, the lane is closed. -/
theorem quiet_afterEnd {x : Execution} (written : EngineResult Unit × Execution) :
    Quiet x written.2 → Quiet x (match written with
      | (.ok (), y) => y.announceEnd
      | (.error _, y) => y.endUnwritten.announceEnd) := by
  intro h
  split
  · exact h.trans (quiet_announceEnd _)
  · refine h.trans ((quiet_mapRecord ?_ _).trans (quiet_announceEnd _))
    exact ⟨fun _ => Nat.le_refl _, fun _ => rfl⟩

/-- An execution that is done stays as it is. -/
theorem finish_done {x : Execution} (h : x.record.done = true) (outcome : Outcome) : x.finish outcome = x := by
  unfold finish
  rw [if_pos h]

theorem quiet_finish (x : Execution) (outcome : Outcome) : Quiet x (x.finish outcome) := by
  unfold finish
  split
  · exact .refl x
  · exact quiet_afterEnd _ (quietly_writeEnd _ _ x)

end Execution

end DurableFlow
