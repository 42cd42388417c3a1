/-
A sandboxed execution never starts a step that is forbidden.

The sandbox stands between a machine and the scheduler, so a forbidden call is answered before anybody
hears of it. Each call that is heard of is counted in the record when its step is to be started. So it is
enough to look at the record: whatever is asked of an execution, no name is taken off the count, and a
name is only added that the policy permits. The same count is in the file of the record, and it is what
an execution goes on with that is loaded from there.

Bodies that run in place need no sandbox. They are given no way to start a step.
-/
import DurableFlow.Proofs.Record.Checkpoints
import DurableFlow.Proofs.Record.Operations

set_option autoImplicit false

namespace DurableFlow

open Script Text History FileTree

/-- The steps that an execution has been asked to start. -/
def Record.called (r : Record) : List String := Table.keys r.internalCalls

theorem Record.mem_called_countCall {r : Record} {function other : String} :
    other ∈ (r.countCall function).called ↔ other = function ∨ other ∈ r.called := Table.mem_keys_insert

namespace Execution

variable {x y z : Execution}

/-! ## What an execution keeps to -/

/-- **A later state keeps to the sandbox** of an earlier one. What has been called is still counted, and
what is counted in between is permitted. The file of the record stays, or holds a record of the time in
between. -/
structure Keeping (x y : Execution) : Prop where
  engine : y.engine = x.engine
  sandbox : y.record.sandbox = x.record.sandbox
  kept : x.record.called ⊆ y.record.called
  permitted : ∀ function ∈ y.record.called, function ∈ x.record.called ∨
    ∀ policy, x.policy = some policy → policy.permits function = true
  file : SameAt x.archive.tree y.archive.tree Archive.recordPath ∨
    ∃ record, y.archive.HoldsRecord record ∧ record.sandbox = x.record.sandbox ∧
      record.called ⊆ y.record.called

namespace Keeping

theorem policy (h : Keeping x y) : y.policy = x.policy := by
  unfold Execution.policy
  rw [h.engine, h.sandbox]

theorem refl (x : Execution) : Keeping x x := ⟨rfl, rfl, fun _ h => h, fun _ h => .inl h, .inl rfl⟩

theorem trans (hxy : Keeping x y) (hyz : Keeping y z) : Keeping x z := by
  constructor
  case engine => exact hyz.engine.trans hxy.engine
  case sandbox => exact hyz.sandbox.trans hxy.sandbox
  case kept => exact List.Subset.trans hxy.kept hyz.kept
  case permitted =>
    intro function hcalled
    rcases hyz.permitted function hcalled with hbefore | hpermitted
    · exact hxy.permitted function hbefore
    · exact .inr fun policy hpolicy => hpermitted policy (hxy.policy.trans hpolicy)
  case file =>
    -- the file is what the last write left
    rcases hyz.file with hsame | ⟨record, hholds, hsandbox, hcalled⟩
    · rcases hxy.file with hsame' | ⟨record, hholds, hsandbox, hcalled⟩
      · exact .inl (hsame'.trans hsame)
      · exact .inr ⟨record, hholds.of_sameAt hsame, hsandbox, List.Subset.trans hcalled hyz.kept⟩
    · exact .inr ⟨record, hholds, hsandbox.trans hxy.sandbox, hcalled⟩

/-- Nothing was called, and the file of the record was not written. -/
theorem of_sameAt (hengine : y.engine = x.engine) (hsandbox : y.record.sandbox = x.record.sandbox)
    (hcalls : y.record.internalCalls = x.record.internalCalls)
    (hfile : SameAt x.archive.tree y.archive.tree Archive.recordPath) : Keeping x y := by
  have hcalled : y.record.called = x.record.called := congrArg Table.keys hcalls
  refine ⟨hengine, hsandbox, ?_, fun function h => .inl ?_, .inl hfile⟩
  · rw [hcalled]
    exact fun _ h => h
  · rw [hcalled] at h
    exact h

theorem of_record (hengine : y.engine = x.engine) (hrecord : y.record = x.record)
    (hfile : SameAt x.archive.tree y.archive.tree Archive.recordPath) : Keeping x y :=
  of_sameAt hengine (congrArg Record.sandbox hrecord) (congrArg Record.internalCalls hrecord) hfile

/-- The record is written as it is. -/
theorem writeRecord (x : Execution) : Keeping x (writeRecord.after x) := by
  refine ⟨rfl, rfl, fun _ h => h, fun _ h => .inl h, ?_⟩
  rcases Archive.saveRecord_cases x.record x.archive with ⟨_, hholds⟩ | ⟨_, hsame⟩
  · exact .inr ⟨x.record, hholds, rfl, fun _ h => h⟩
  · exact .inl hsame

/-! ## Everything keeps to the sandbox -/

theorem basic (h : BasicChange x y) : Keeping x y := by
  cases h with
  | aside h => exact .of_record h.engine h.record (by rw [h.archive]; rfl)
  | edit h => cases h with | _ => exact .of_sameAt rfl rfl rfl rfl
  | called function hpermitted =>
    refine ⟨rfl, rfl, fun _ h => Record.mem_called_countCall.mpr (.inr h), fun other h => ?_, .inl rfl⟩
    rcases Record.mem_called_countCall.mp h with rfl | hbefore
    · exact .inr hpermitted
    · exact .inl hbefore
  | interrupted result causes _ => exact .of_sameAt rfl rfl rfl rfl
  | call hcall => exact .of_record rfl rfl (hcall.sameAt Archive.aloof_recordPath)
  | save => exact writeRecord x

theorem ending (h : EndChange x y) : Keeping x y := by
  cases h with
  | basic h => exact basic h
  | migrated =>
    have hfile := sameAt_migrateHistory Archive.aloof_recordPath x
    obtain ⟨archive, storage, heq⟩ := migrateHistory_eq x
    rw [heq] at hfile ⊢
    exact .of_sameAt rfl rfl rfl hfile
  | _ => exact .of_sameAt rfl rfl rfl rfl

/-- **Whatever is asked of an execution**, it keeps to its sandbox. -/
theorem lasts : Lasts Keeping where
  refl := refl
  trans := trans
  basic := basic
  program y := .of_record rfl rfl (Archive.sameAt_saveProgram Archive.apart_program_record _ y.archive)
  marked _ _ := .of_sameAt rfl rfl rfl rfl
  beside hengine hrecord harchive _ := .of_record hengine hrecord (by rw [harchive]; rfl)
  refuses _ _ := .of_record rfl rfl rfl
  ending := ending

end Keeping

/-- **A step that is to be started is counted first**, whatever comes of it. -/
theorem called_startStep (x : Execution) (thread : Thread) (request : StepRequest) :
    request.function ∈ (x.startStep thread request).execution.record.called :=
  (Keeping.lasts.changes (.startCounted x thread request)).kept (Record.mem_called_countCall.mpr (.inl rfl))

/-! ## Sandboxed executions -/

/-- **The states of a sandboxed execution** on an engine with a policy, through whatever is asked of it
and any number of loads. What is loaded is a record that was saved before, so that it has not counted
more than an earlier state of the execution had. -/
inductive Sandboxed (policy : Policy) : Execution → Prop where
  | created {engine : Engine} {name id script : String} {options : Options} {archive : Archive}
    {clock : Timestamp} {now : Nat} {x : Execution} (hpolicy : engine.policy = some policy)
    (hcreate : create engine name id script options archive clock now = .ok x)
    (hsandbox : x.record.sandbox = true) : Sandboxed policy x
  | performed {x : Execution} (h : Sandboxed policy x) (operation : Operation) :
    Sandboxed policy (x.perform operation)
  | loaded {engine : Engine} {name : String} {archive archive' : Archive} {clock : Timestamp} {now : Nat}
    {x y : Execution} {record : Record} (h : Sandboxed policy x) (hpolicy : engine.policy = some policy)
    (hread : archive.loadRecord = .ok record) (hsandbox : record.sandbox = true)
    (hcalled : record.called ⊆ x.record.called)
    (hload : load engine name archive clock now = (.ok y, archive')) : Sandboxed policy y

/-- The execution runs under the policy, and has been asked to start permitted steps only. -/
structure Obeys (policy : Policy) (x : Execution) : Prop where
  runsUnder : x.policy = some policy
  called : ∀ function ∈ x.record.called, policy.permits function = true

theorem Obeys.sandbox {policy : Policy} (h : Obeys policy x) : x.record.sandbox = true := by
  have hpolicy := h.runsUnder
  unfold Execution.policy at hpolicy
  split at hpolicy
  · assumption
  · cases hpolicy

theorem Obeys.keeping {policy : Policy} (h : Obeys policy x) (hxy : Keeping x y) : Obeys policy y := by
  refine ⟨hxy.policy.trans h.runsUnder, fun function hcalled => ?_⟩
  rcases hxy.permitted function hcalled with hbefore | hpermitted
  · exact h.called function hbefore
  · exact hpermitted policy h.runsUnder

/-- A new execution has been asked for nothing. -/
theorem called_create {engine : Engine} {name id script : String} {options : Options} {archive : Archive}
    {clock : Timestamp} {now : Nat} (h : create engine name id script options archive clock now = .ok x) :
    x.engine = engine ∧ x.record.called = [] := by
  unfold create at h
  dsimp only at h
  split at h
  · cases h
  · cases h
    exact ⟨rfl, rfl⟩

/-- A history that is replaced takes nothing from the record that was asked for before. -/
theorem called_recoverHistory {record record' : Record} {clock : Timestamp} {archive archive' : Archive}
    (h : Archive.recoverHistory record clock archive = (.ok record', archive')) :
    record'.sandbox = record.sandbox ∧ record'.called = record.called := by
  rcases recoverHistory_cases h with ⟨rfl, _⟩ | ⟨_, _, _, hwrite⟩
  · exact ⟨rfl, rfl⟩
  · obtain ⟨_, _, _, hrest⟩ := Attempt.bind_eq_ok hwrite
    obtain ⟨_, _, _, hreturn⟩ := Attempt.bind_eq_ok hrest
    cases hreturn
    exact ⟨rfl, rfl⟩

theorem Sandboxed.obeys {policy : Policy} (h : Sandboxed policy x) : Obeys policy x := by
  have hunder : ∀ {y : Execution}, y.engine.policy = some policy → y.record.sandbox = true →
      y.policy = some policy := by
    intro y hpolicy hsandbox
    unfold Execution.policy
    rw [if_pos hsandbox, hpolicy]
  induction h with
  | created hpolicy hcreate hsandbox =>
    obtain ⟨hengine, hcalled⟩ := called_create hcreate
    refine ⟨hunder (hengine ▸ hpolicy) hsandbox, fun function hmem => ?_⟩
    rw [hcalled] at hmem
    cases hmem
  | performed _ operation ih => exact ih.keeping (Keeping.lasts.perform _ operation)
  | @loaded _ _ _ _ _ _ _ _ read _ hpolicy hread hsandbox hsaved hload ih =>
    obtain ⟨record, record', hread', hrecover, rfl⟩ := load_eq_ok hload
    obtain rfl : read = record := Except.ok.inj (hread.symm.trans hread')
    obtain ⟨hsandbox', hcalled⟩ := called_recoverHistory hrecover
    -- what is read was saved before, so that it counts permitted calls only
    refine Obeys.keeping ⟨hunder hpolicy (hsandbox'.trans hsandbox), fun function hmem => ?_⟩
      (Keeping.lasts.perform _ _)
    replace hmem : function ∈ record'.called := hmem
    rw [hcalled] at hmem
    exact ih.called function (hsaved hmem)

/-- **What a sandbox guarantees** in a state of an execution. -/
structure Guarded (policy : Policy) (x : Execution) : Prop where
  /-- Every step that was to be started is permitted. -/
  called : ∀ function ∈ x.record.called, policy.permits function = true
  /-- A step that is to be started is counted as called, whatever comes of it. -/
  counts : ∀ thread request, request.function ∈ (x.startStep thread request).execution.record.called
  /-- What was called stays counted, whatever is asked of the execution. -/
  stays : ∀ operation, x.record.called ⊆ (x.perform operation).record.called
  /-- The file of the record stays, or holds a record with the sandbox and with permitted calls only. -/
  saved : ∀ operation,
    SameAt x.archive.tree (x.perform operation).archive.tree Archive.recordPath ∨
      ∃ record, (x.perform operation).archive.HoldsRecord record ∧ record.sandbox = true ∧
        record.called ⊆ (x.perform operation).record.called ∧
        ∀ function ∈ record.called, policy.permits function = true
  /-- No thread calls for a step that is forbidden, wherever its machine comes from. -/
  calls : ∀ (m m' : Machine) (input : Outcome) (request : StepRequest),
    driveUnder x.policy m input = .yielded (.step request) m' → policy.permits request.function = true
  /-- A machine does in the sandbox what it does without one if its forbidden calls are answered with the
  failure. -/
  transparent : ∀ (m last : Machine) (inputs : List Outcome) (ys : List Yield),
    Driven x.policy m inputs ys last ↔ Screened policy m inputs ys last
  /-- That failure is raised at the call, among the handlers that are there. -/
  raised : ∀ (m m' : Machine) (input : Outcome) (request : StepRequest),
    m.run input = (.step request, m') → policy.permits request.function = false →
      (Sandbox.rejection request.function).code = Failure.Code.sandboxRejected ∧
        m'.run (.error (Sandbox.rejection request.function)) =
          m'.runAfter ({ m' with phase := .ready }.raise (Sandbox.rejection request.function))

/-- **A sandboxed execution never starts a forbidden step**, whatever its script, whatever is asked of
it and however often it is loaded; and but for the failures at forbidden calls its threads do what they
would do without a sandbox. -/
theorem sandbox_is_kept {policy : Policy} (h : Sandboxed policy x) : Guarded policy x := by
  have hobeys := h.obeys
  constructor
  case called => exact hobeys.called
  case counts => exact called_startStep x
  case stays => exact fun operation => (Keeping.lasts.perform x operation).kept
  case saved =>
    intro operation
    have hthen := hobeys.keeping (Keeping.lasts.perform x operation)
    refine (Keeping.lasts.perform x operation).file.imp_right fun ⟨record, hholds, hsandbox, hcalled⟩ => ?_
    exact ⟨record, hholds, hsandbox.trans hobeys.sandbox, hcalled, fun f hmem => hthen.called f (hcalled hmem)⟩
  case calls =>
    intro m m' input request hdrive
    exact permits_of_driveUnder (hobeys.runsUnder ▸ hdrive)
  case transparent =>
    intro m last inputs ys
    rw [hobeys.runsUnder]
    exact driven_iff_screened
  case raised =>
    intro m m' input request hrun _
    exact ⟨rfl, Machine.run_error_of_call hrun _⟩

/-- A script that may wait for signals, tries to sleep, and waits when it is refused. -/
theorem sandbox_is_kept_caught :
    ∃ created, create { steps := Step.standard, policy := some { allowed := ["wait_for_signal"] } } "boxed" "1"
        "try \x7b sleep(5) \x7d catch (e) \x7b wait_for_signal(\"go\") \x7d" { sandbox := some true } {} ⟨0⟩ 0 =
          .ok created ∧
      ((created.perform .start).perform (.happen (.run 1))).record.called = ["wait_for_signal"] ∧
      Guarded { allowed := ["wait_for_signal"] } ((created.perform .start).perform (.happen (.run 1))) := by
  obtain ⟨created, hcreated⟩ : ∃ created, create
      { steps := Step.standard, policy := some { allowed := ["wait_for_signal"] } } "boxed" "1"
      "try \x7b sleep(5) \x7d catch (e) \x7b wait_for_signal(\"go\") \x7d" { sandbox := some true } {} ⟨0⟩ 0 =
        .ok created := ⟨_, rfl⟩
  refine ⟨created, hcreated, ?_, sandbox_is_kept ?_⟩
  · cases hcreated
    decide +kernel
  · refine .performed (.performed (.created rfl hcreated ?_) .start) _
    cases hcreated
    rfl

end Execution

end DurableFlow
