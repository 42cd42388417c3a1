/-
The end of an execution is final, and its result only gets worse.

An execution may be created or loaded, and anything may be asked of it in any order. Its result is at any
time no better than before. It comes to its end once, in one operation, and the result it ends with is
the worst of what it began with, of what interrupts asked for on the way, of the severity of its outcome,
and of a failure if the end could not be recorded. From then on nothing changes it any more, nor the error,
the heads, the open blocks and the nodes of the history.

A load reads what was recorded. So a load changes nothing after the end if the end was recorded and every
write was taken. An end that could not be recorded is in memory only: the next load finds the execution as
it was saved last.
-/
import DurableFlow.Proofs.History.Codec
import DurableFlow.Proofs.Record.Codec
import DurableFlow.Proofs.Record.Loading

set_option autoImplicit false

namespace DurableFlow

open Script Text History FileTree

/-! ## Where a life begins -/

namespace Archive

variable {a a' : Archive} {record record' : Record}

/-- A history that is written at once is in its file. -/
theorem holds_of_flush {bulk whole : Bulk} {tree tree' : FileTree} (hdirty : bulk.dirty = true)
    (h : bulk.flush tree = (.ok (), whole, tree')) :
    whole = { bulk with dirty := false } ∧ Storage.HoldsAll tree' bulk.nodes := by
  unfold Bulk.flush at h
  rw [if_pos hdirty] at h
  rcases @writeJson_cases tree bulkPath (by decide) (by decide)
    (.arr ((Table.values bulk.nodes).map StoredNode.toJson)) with ⟨hok, hfile⟩ | ⟨⟨e, herror⟩, _⟩
  · split at h
    · next heq =>
      rw [heq] at hfile
      cases h
      exact ⟨rfl, hfile⟩
    · cases h
  · split at h
    · next heq =>
      rw [heq] at herror
      cases herror
    · cases h

/-- **Replacing the history** is refused, or the nodes are written to one file. -/
theorem replaceHistory_eq (nodes : List Node) (a : Archive) : replaceHistory nodes a =
    match a.refuse .freshHistory with
    | some e => (.error e, { a with journal := a.journal ++ [.freshHistory] })
    | none =>
      match (nodes.foldl Bulk.store .fresh).flush a.tree with
      | (.ok (), bulk, tree) => (.ok (), { a with
          journal := a.journal ++ [.freshHistory], history := .bulk bulk, tree, isWatched := false })
      | (.error e, _, tree) => (.error e, { a with journal := a.journal ++ [.freshHistory], tree }) := by
  show Attempt.andThen (announce .freshHistory) _ a = _
  simp only [Attempt.andThen, announce]
  cases a.refuse .freshHistory with
  | some e => rfl
  | none =>
    dsimp only
    generalize (nodes.foldl Bulk.store .fresh).flush a.tree = flushed
    obtain ⟨result, bulk, tree⟩ := flushed
    cases result <;> rfl

/-- A history that is replaced is in its file. -/
theorem replaceHistory_eq_ok {nodes : List Node} (h : replaceHistory nodes a = (.ok (), a')) :
    ∃ whole, a'.history = .bulk whole ∧ whole.Ordered ∧ a'.history.Flushed a'.tree := by
  obtain ⟨hordered, hdirty⟩ := Bulk.ordered_fresh.stores rfl nodes
  rw [replaceHistory_eq] at h
  split at h
  · cases h
  · split at h
    · next hflush =>
      obtain ⟨rfl, hholds⟩ := holds_of_flush hdirty hflush
      cases h
      exact ⟨_, rfl, hordered.written, rfl, hholds⟩
    · cases h

/-- **A history that replaces an unreadable one** is in its file, and so is its record. -/
theorem writePlaceholder_eq_ok {cause : Failure} {now : Timestamp}
    (h : writePlaceholder record cause now a = (.ok record', a')) :
    record'.storage = .bulk ∧ a'.HoldsRecord record' ∧ ∃ whole, a'.history = .bulk whole ∧
      whole.Ordered ∧ a'.history.Flushed a'.tree := by
  obtain ⟨_, replaced, hreplace, hrest⟩ := Attempt.bind_eq_ok h
  obtain ⟨_, saved, hsave, hreturn⟩ := Attempt.bind_eq_ok hrest
  obtain rfl : placeholderRecord record cause now = record' := Except.ok.inj (congrArg Prod.fst hreturn)
  obtain rfl : saved = a' := congrArg Prod.snd hreturn
  obtain ⟨whole, hwhole, hordered, hflushed⟩ := replaceHistory_eq_ok hreplace
  have hhistory : saved.history = replaced.history := by
    have hsame := history_saveRecord (placeholderRecord record cause now) replaced
    rw [hsave] at hsame
    exact hsame
  have hfile := sameAt_saveRecord apart_record_bulk (placeholderRecord record cause now) replaced
  rw [hsave] at hfile
  have hholds : saved.HoldsRecord (placeholderRecord record cause now) := by
    rcases saveRecord_cases (placeholderRecord record cause now) replaced with ⟨_, hholds⟩ | ⟨⟨e, herror⟩, _⟩
    · rw [hsave] at hholds
      exact hholds
    · rw [hsave] at herror
      cases herror
  refine ⟨rfl, hholds, whole, hhistory.trans hwhole, hordered, ?_⟩
  rw [hhistory]
  exact hflushed.of_sameAt hfile

/-- What is opened is what a load finds there. -/
theorem reloads_of_openRecorded (hread : a.loadRecord = .ok record)
    (hopen : openRecorded record a = (.ok (), a')) (htidy : a'.tree.Tidy) : a'.Reloads record := by
  obtain ⟨_, history, tree, hstorage, rfl⟩ := openRecorded_eq_ok hopen
  have hreads := reads_of_loadRecord hread
  rcases Storage.openIn_eq_ok hstorage with ⟨hkind, rfl, rfl⟩ | ⟨hkind, rfl, whole, hwhole, rfl⟩
  · refine ⟨htidy, hreads.of_sameAt ?_, hkind.symm, rfl, fun id stored hno => by cases hno⟩
    exact sameAt_addDirectories (by decide)
  · exact ⟨htidy, hreads, hkind.symm, whole, hwhole, fun _ => rfl⟩

end Archive

namespace Execution

variable {x₀ x y z : Execution}

theorem Recorded.reloads (h : Recorded x) (hlegible : Legible x) : x.archive.Reloads x.record where
  tidy := h.files.tidy
  reads := by
    obtain ⟨n, hfile⟩ := h.record
    exact ⟨n, _, hfile, hlegible.record⟩
  kind := h.kind
  reopens := Storage.InFiles.reopens h.files h.flushed hlegible.history

namespace Begins

/-- Where a life begins nothing has been asked for yet, and the execution is asleep. -/
theorem fresh (h : Begins x) : x.interrupts = [] ∧ x.loading = .none ∧ Asleep x := by
  cases h with
  | created hcreate =>
    unfold create at hcreate
    dsimp only at hcreate
    split at hcreate
    · cases hcreate
    · cases hcreate
      exact ⟨rfl, rfl, fun hno => (by cases hno), rfl⟩
  | opened _ _ => exact ⟨rfl, rfl, fun hno => (by cases hno), rfl⟩

theorem proper (h : Begins x) : Proper x := .of_idle h.fresh.2.1 fun _ => h.fresh.2.2

/-- **Where a life begins the history is in its files**, if the device takes every write. -/
theorem inFiles (h : Begins x) (htidy : x.archive.tree.Tidy) : InFiles x := by
  cases h with
  | @created engine name id script options archive clock now _ hcreate =>
    unfold create at hcreate
    dsimp only at hcreate
    split at hcreate
    · cases hcreate
    · next archive' hopen =>
      cases hcreate
      obtain ⟨hfiles, hkind⟩ := Archive.inFiles_of_openHistory htidy hopen
      exact ⟨hfiles, hkind⟩
  | @opened engine name archive archive' clock now record record' hread hrecover =>
    rcases recoverHistory_cases hrecover with ⟨rfl, hopen⟩ | ⟨_, _, _, hwrite⟩
    · obtain ⟨_, history, tree, hstorage, rfl⟩ := Archive.openRecorded_eq_ok hopen
      obtain ⟨hkind, hfiled⟩ := Storage.filed_openIn hstorage
      exact ⟨⟨htidy, hfiled⟩, hkind⟩
    · obtain ⟨hstorage, _, whole, hwhole, hordered, hflushed⟩ := Archive.writePlaceholder_eq_ok hwrite
      have hfiled : archive'.history.Filed archive'.tree := by
        rw [hwhole] at hflushed ⊢
        exact .of_holds hordered hflushed.2
      refine ⟨⟨htidy, hfiled⟩, ?_⟩
      show archive'.history.kind = record'.storage
      rw [hwhole, hstorage]
      rfl

/-- **What begins done** is what a load finds. -/
theorem reloads (h : Begins x) (hdone : x.record.done = true) (htidy : x.archive.tree.Tidy)
    (hlegible : Legible x) : x.archive.Reloads x.record := by
  have hfiles := h.inFiles htidy
  cases h with
  | created hcreate =>
    unfold create at hcreate
    dsimp only at hcreate
    split at hcreate
    · cases hcreate
    · cases hcreate
      cases hdone
  | @opened engine name archive archive' clock now record record' hread hrecover =>
    rcases recoverHistory_cases hrecover with ⟨rfl, hopen⟩ | ⟨_, _, _, hwrite⟩
    · exact Archive.reloads_of_openRecorded hread hopen htidy
    · obtain ⟨_, hholds, whole, hwhole, _, hflushed⟩ := Archive.writePlaceholder_eq_ok hwrite
      exact Recorded.reloads ⟨hfiles, hflushed, hholds⟩ hlegible

end Begins

/-! ## Lives in order -/

namespace Runs

/-- **Whatever is asked for in a life**, it stays in order. -/
theorem proper (h : Runs x y) (hx : Proper x) : Proper y := by
  induction h with
  | here => exact hx
  | performed _ operation hallowed ih => exact ih.perform hallowed

/-- **Nothing that is asked for after the end** changes how the execution went. -/
theorem lingers (h : Runs x y) (hx : Over x) : Lingers x y ∧ Over y := by
  induction h with
  | here => exact ⟨Relation.ReflTransGen.refl, hx⟩
  | performed _ operation hallowed ih =>
    obtain ⟨hlingers, hover⟩ := ih.2.perform hallowed
    exact ⟨ih.1.trans hlingers, hover⟩

/-- **As long as an execution is not done**, its result is the worst of what it began with and of what
interrupts asked for. -/
theorem tallies {noted : List FlowResult} (h : Runs x y) (hx : Proper x) (hnoted : Tallies noted x)
    (hopen : y.record.done = false) : Tallies noted y := by
  induction h with
  | here => exact hnoted
  | @performed y hruns operation hallowed ih =>
    have hbefore : y.record.done = false := by
      by_contra hdone
      have hover := (hruns.proper hx).settled (by simpa using hdone)
      rw [(hover.perform hallowed).2.done] at hopen
      cases hopen
    have houtgrows := outgrows_perform y operation
    generalize y.perform operation = z at houtgrows hopen
    cases houtgrows with
    | goesOn h => exact (ih hbefore).course h
    | @ends z outcome h _ =>
      rw [(ended_finish (h.done.trans hbefore) outcome).1] at hopen
      cases hopen

end Runs

/-! ## The end -/

/-- **An operation completes an execution** that began as it began: it goes on to where it ends, with an
outcome and for a reason. The result is the worst of all there was, the error is the failure in the
outcome. If the end is recorded and every write was taken, no load changes anything any more. -/
inductive Finishes (x₀ x : Execution) (operation : Operation) : Execution → Prop
  | ends {z : Execution} {outcome : Outcome} (hcourse : Course x z)
    (hconcludes : Concludes x z operation outcome)
    (hresult : FlowResult.IsWorstOf (x₀.record.result.toList ++ [resultOf outcome] ++
      (if z.records outcome then [] else [.failure]) ++ (z.finish outcome).interrupts)
      (z.finish outcome).record.result)
    (herror : (z.finish outcome).record.error = failureOf? outcome)
    (hloads : z.records outcome = true → x₀.archive.tree.Tidy → Legible (z.finish outcome) →
      ∀ w, Later (z.finish outcome) w → Frozen (z.finish outcome) w) :
    Finishes x₀ x operation (z.finish outcome)

/-- An operation that makes an execution done completes it. -/
theorem Runs.finishes {operation : Operation} (h : Runs x₀ x) (hbegins : Begins x₀)
    (hopen : x.record.done = false) (hdone : (x.perform operation).record.done = true)
    (hallowed : x.Allows operation) : Finishes x₀ x operation (x.perform operation) := by
  have hover := ((h.proper hbegins.proper).perform hallowed).settled hdone
  have hnoted : Tallies x₀.record.result.toList x₀ := by
    unfold Tallies
    rw [hbegins.fresh.1, List.append_nil]
    exact FlowResult.IsWorstOf.toList _
  have htallies := h.tallies hbegins.proper hnoted hopen
  have houtgrows := outgrows_perform x operation
  generalize x.perform operation = y at houtgrows hdone hover
  cases houtgrows with
  | goesOn hcourse =>
    rw [hcourse.done, hopen] at hdone
    cases hdone
  | @ends z outcome hcourse hconcludes =>
    have hz : z.record.done = false := hcourse.done.trans hopen
    have hfinish := (htallies.course hcourse).finish hz outcome
    refine .ends hcourse hconcludes hfinish (ended_finish hz outcome).2.1 fun hrecords htidy hlegible w hlater => ?_
    have hfiles : InFiles z :=
      InFiles.lasts.course hcourse (h.lasts InFiles.lasts (hbegins.inFiles htidy))
    have hreloads := (hfiles.finish hz hrecords).reloads hlegible
    exact (hlater.frozen hover hreloads).1

/-- **Completion is terminal, and the result only gets worse.** -/
theorem completion_is_terminal (hbegins : Begins x₀) (hruns : Runs x₀ x) :
    (∀ operation, NoBetter x (x.perform operation)) ∧
      (∀ operation, x.Allows operation → x.record.done = false →
        (x.perform operation).record.done = true → Finishes x₀ x operation (x.perform operation)) ∧
      (x.record.done = true → ∀ y, Runs x y → Frozen x y) ∧
      (x₀.record.done = true → x₀.archive.tree.Tidy → Legible x₀ → ∀ w, Later x₀ w → Frozen x₀ w) := by
  refine ⟨fun operation => NoBetter.lasts.perform x operation,
    fun operation hallowed hopen hdone => hruns.finishes hbegins hopen hdone hallowed,
    fun hdone y hy => ?_, fun hdone htidy hlegible w hlater => ?_⟩
  · have hover := (hruns.proper hbegins.proper).settled hdone
    exact .lingers (hy.lingers hover).1
  · have hover := hbegins.proper.settled hdone
    exact (hlater.frozen hover (hbegins.reloads hdone htidy hlegible)).1

/-! ## A life that is told by its operations -/

/-- Whether an operation can be asked for that ends nothing by hand and resumes nothing. -/
def admits (x : Execution) : Operation → Bool
  | .happen event => !event.isOfLane || x.lane == .serving
  | .finish _ | .abandon _ | .resume => false
  | _ => true

theorem allows_of_admits {operation : Operation} (h : x.admits operation = true) : x.Allows operation := by
  cases operation with
  | happen event =>
    intro hlane
    simpa [admits, hlane] using h
  | finish outcome => cases h
  | abandon failure => cases h
  | resume => cases h
  | _ => trivial

/-- What is asked for in order, as long as each operation can be asked for. -/
def performAll (x : Execution) : List Operation → Option Execution
  | [] => some x
  | operation :: rest => if x.admits operation then (x.perform operation).performAll rest else none

theorem Runs.performAll {operations : List Operation} (hruns : Runs x y)
    (h : y.performAll operations = some z) : Runs x z := by
  induction operations generalizing y with
  | nil =>
    cases h
    exact hruns
  | cons operation rest ih =>
    rw [Execution.performAll] at h
    split at h
    · next hadmits => exact ih (hruns.performed operation (allows_of_admits hadmits)) h
    · cases h

/-- An execution of a script with the standard steps, on an empty archive. Its history stays in files of its
own when it is over. -/
def scripted (script : String) : EngineResult Execution :=
  create { steps := Step.standard, settings := { migrateStorageOnComplete := false } } "flow"
    "00000000000000000000000000000001" script {} {} ⟨0⟩ 0

/-- What a script is asked for that waits for a signal: it starts, runs, rests, and then the signal comes. -/
def waitThenSignal : List Operation :=
  [.start, .happen .work, .happen (.run 1), .happen (.close true), .happen (.signal "a" (.ok .null)),
    .happen .work, .happen (.run 1)]

def untilSignal : Option Execution :=
  (scripted "wait_for_signal(\"a\")").toOption.bind (·.performAll waitThenSignal)

theorem runs_untilSignal (h : untilSignal = some x) :
    ∃ first, Begins first ∧ Runs first x := by
  obtain ⟨first, hfirst, hruns⟩ := Option.bind_eq_some_iff.mp h
  exact ⟨first, .created (eq_ok_of_toOption hfirst), Runs.here.performAll hruns⟩

/-- A script that waits for a signal gets it, and when the turn is closed it is complete. -/
theorem completion_is_terminal_signalled :
    ∃ first x, untilSignal = some x ∧ Begins first ∧ Runs first x ∧
      (x.perform (.happen (.close true))).record.result = some .success ∧
      Finishes first x (.happen (.close true)) (x.perform (.happen (.close true))) := by
  have hrun : untilSignal.map (fun x =>
      (x.record.done, x.lane, (x.perform (.happen (.close true))).record.done,
        (x.perform (.happen (.close true))).record.result)) =
      some (false, .serving, true, some .success) := by decide +kernel
  obtain ⟨x, hx, hsees⟩ := Option.map_eq_some_iff.mp hrun
  simp only [Prod.mk.injEq] at hsees
  obtain ⟨hopen, hlane, hdone, hresult⟩ := hsees
  obtain ⟨first, hbegins, hruns⟩ := runs_untilSignal hx
  refine ⟨first, x, hx, hbegins, hruns, hresult, ?_⟩
  exact (completion_is_terminal hbegins hruns).2.1 (.happen (.close true)) (fun _ => hlane) hopen hdone

/-! ## An end that could not be recorded -/

/-- A host that saves no record any more. -/
def savesNoRecord (call : ArchiveCall) : Option EngineError :=
  if call = .saveRecord then some (.storage "no space left") else none

/-- An execution that was started, and whose host then saves no record any more. -/
def unsaved (created : Execution) : Execution := (created.perform .start).perform (.refuse savesNoRecord)

theorem runs_unsaved (created : Execution) : Runs created (unsaved created) :=
  (Runs.here.performed .start trivial).performed (.refuse savesNoRecord) trivial

/-- A script on an empty archive begins with an empty history in files of its own. -/
theorem tidy_scripted {script : String} {created : Execution} (h : scripted script = .ok created) :
    created.archive.tree.Tidy := by
  unfold scripted create at h
  dsimp only at h
  split at h
  · cases h
  · next opened hopen =>
    cases h
    obtain ⟨history, tree, hstorage, rfl⟩ := Archive.openHistory_eq_ok hopen
    rcases Storage.openIn_eq_ok hstorage with ⟨_, _, rfl⟩ | ⟨_, rfl, _⟩
    · exact (tidy_empty.addDirectories fun path hpath => List.mem_singleton.mp hpath).1
    · exact tidy_empty

/-- What the record of a script says when it is started. -/
structure SavedAtStart (r : Record) : Prop where
  id : r.id = "00000000000000000000000000000001"
  scripts : r.loadedScripts = []
  history : r.flowStart = some 1 ∧ r.startNodes = [] ∧ r.heads = [(1, 1)]
  numbers : r.nextNodeId = 2 ∧ r.nextHeadId = 2 ∧ r.threadsCreated = 1
  calls : r.internalCalls = []
  causes : r.causes.isEmpty = true ∧ r.error.isNone = true
  times : r.createdAt = ⟨0⟩ ∧ r.updatedAt = ⟨0⟩ ∧ r.completedAt = none
  state : r.done = false ∧ r.clean = true ∧ r.result = none ∧ r.storage = .perNode

instance (r : Record) : Decidable (SavedAtStart r) :=
  decidable_of_iff
    (r.id = "00000000000000000000000000000001" ∧ r.loadedScripts = [] ∧
      (r.flowStart = some 1 ∧ r.startNodes = [] ∧ r.heads = [(1, 1)]) ∧
      (r.nextNodeId = 2 ∧ r.nextHeadId = 2 ∧ r.threadsCreated = 1) ∧ r.internalCalls = [] ∧
      (r.causes.isEmpty = true ∧ r.error.isNone = true) ∧
      (r.createdAt = ⟨0⟩ ∧ r.updatedAt = ⟨0⟩ ∧ r.completedAt = none) ∧
      (r.done = false ∧ r.clean = true ∧ r.result = none ∧ r.storage = .perNode))
    ⟨fun ⟨hid, hscripts, hhistory, hnumbers, hcalls, hcauses, htimes, hstate⟩ =>
      ⟨hid, hscripts, hhistory, hnumbers, hcalls, hcauses, htimes, hstate⟩,
    fun ⟨hid, hscripts, hhistory, hnumbers, hcalls, hcauses, htimes, hstate⟩ =>
      ⟨hid, hscripts, hhistory, hnumbers, hcalls, hcauses, htimes, hstate⟩⟩

theorem SavedAtStart.storable {r : Record} (h : SavedAtStart r) : r.Storable := by
  obtain ⟨hid, hscripts, ⟨hstart, hopen, hheads⟩, ⟨hnode, hhead, hthread⟩, hcalls, ⟨hcauses, herror⟩,
    ⟨hcreated, hupdated, hcompleted⟩, _⟩ := h
  have hdated : Timestamp.IsDated ⟨0⟩ := by decide
  exact {
    id := by rw [hid]; decide
    scripts := by rw [hscripts]; exact .nil
    scriptNames := by rw [hscripts]; exact List.forall_mem_nil _
    flowStart := fun n hn => by rw [hstart] at hn; cases hn; decide
    startNodes := by rw [hopen]; exact List.forall_mem_nil _
    heads := by rw [hheads]; exact List.pairwise_singleton _ _
    headNumbers := by rw [hheads]; exact List.forall_mem_singleton.mpr (by decide)
    nextNodeId := by rw [hnode]; decide
    nextHeadId := by rw [hhead]; decide
    threadsCreated := by rw [hthread]; decide
    calls := by rw [hcalls]; exact .nil
    callNames := by rw [hcalls]; exact List.forall_mem_nil _
    callNumbers := by rw [hcalls]; exact List.forall_mem_nil _
    causes := by rw [List.isEmpty_iff.mp hcauses]; exact List.forall_mem_nil _
    error := fun failure hfailure => by rw [hfailure] at herror; cases herror
    createdAt := by rw [hcreated]; exact hdated
    updatedAt := by rw [hupdated]; exact hdated
    completedAt := fun time htime => by rw [hcompleted] at htime; cases htime }

/-- Whether all of a history is in files of its own, and no more than its order is said there. -/
def isFiled : Storage → Bool
  | .perNode files => files.deferred.isEmpty && files.cache.all fun entry => entry.2.isBare
  | .bulk _ => false

theorem flushed_of_isFiled {storage : Storage} (h : isFiled storage = true) (tree : FileTree) :
    storage.Flushed tree ∧ storage.Legible := by
  cases storage with
  | bulk whole => cases h
  | perNode files =>
    obtain ⟨hwritten, hbare⟩ := Bool.and_eq_true_iff.mp h
    have hstorable : Storage.Storable (.perNode files) := by
      intro stored hstored
      obtain ⟨entry, hentry, rfl⟩ := List.mem_map.mp hstored
      exact StoredNode.storable_of_isBare (List.all_eq_true.mp hbare entry hentry) 124
    exact ⟨List.isEmpty_iff.mp hwritten, hstorable.legible⟩

/-- **An end that could not be recorded** is in memory only. A script is started, and then the host saves no
record any more. When the execution is ended it is done, with a failure because its end could not be recorded.
A load finds its history as it was written, and an execution that is not done, because that is what was
saved last. -/
theorem unrecorded_end_is_forgotten :
    ∃ created ended w, scripted "wait_for_signal(\"a\")" = .ok created ∧ Begins created ∧
      Runs created (unsaved created) ∧ (unsaved created).record.done = false ∧
      (unsaved created).Allows (.finish (.ok .null)) ∧ ended = (unsaved created).perform (.finish (.ok .null)) ∧
      ended.record.done = true ∧ ended.record.result = some .failure ∧
      Later ended w ∧ w.record.done = false ∧ w.record.result = none ∧ ¬ Frozen ended w := by
  have hrun : (scripted "wait_for_signal(\"a\")").toOption.map (fun created =>
      let started := start created
      let ended := (unsaved created).perform (.finish (.ok .null))
      ((started.1.isOk, decide (SavedAtStart started.2.record)),
        (ended.record.done, ended.record.result, ended.record.storage),
        isFiled ended.archive.history, (ended.archive.node 1).isOk)) =
      some ((true, true), (true, some .failure, .perNode), true, true) := by decide +kernel
  obtain ⟨created, hcreated, hsees⟩ := Option.map_eq_some_iff.mp hrun
  simp only [Prod.mk.injEq, decide_eq_true_eq] at hsees
  obtain ⟨⟨hok, hsaved⟩, ⟨hdone, hresult, hkind⟩, hfiled, hnode⟩ := hsees
  have hcreate := eq_ok_of_toOption hcreated
  obtain ⟨started, hstart⟩ : ∃ started, start created = (.ok (), started) := by
    obtain ⟨_, hresult⟩ := exists_ok_of_isOk hok
    exact ⟨(start created).2, Prod.ext hresult rfl⟩
  have hstarted : created.perform .start = started := congrArg Prod.snd hstart
  rw [hstart] at hsaved
  have hbegins : Begins created := .created hcreate
  have hruns := runs_unsaved created
  have hstate := hsaved.state
  have hidle : (unsaved created).loading = .none :=
    loading_perform (loading_perform hbegins.fresh.2.1 (by simp)) (by simp)
  -- the start saves the record, and the end does not
  let ended := (unsaved created).perform (.finish (.ok .null))
  have hwritten : started.archive.HoldsRecord started.record := holdsRecord_of_start hstart hstate.1
  have hholds : ended.archive.HoldsRecord started.record := by
    refine holdsRecord_finish (show SavesNoRecord (unsaved created) from rfl) ?_ _
    rw [unsaved, hstarted]
    exact hwritten
  -- so a load finds the record of the start, and the history as it was written
  have hfiles : InFiles ended :=
    (hruns.performed (.finish (.ok .null)) hidle).lasts InFiles.lasts (hbegins.inFiles (tidy_scripted hcreate))
  obtain ⟨hflushed, hlegible⟩ := flushed_of_isFiled hfiled ended.archive.tree
  have hreloads : ended.archive.Reloads started.record := by
    obtain ⟨n, hfile⟩ := hholds
    refine ⟨hfiles.files.tidy, ⟨n, _, hfile, hsaved.storable.readsBack⟩, ?_,
      Storage.InFiles.reopens hfiles.files hflushed hlegible⟩
    exact (hfiles.kind.trans hkind).trans hstate.2.2.2.symm
  have hnodes : ∀ n ∈ 1 :: Table.values started.record.heads ++ started.record.startNodes,
      ∃ node, ended.archive.node n = .ok node := by
    rw [hsaved.history.2.2, hsaved.history.2.1]
    intro n hn
    obtain rfl : n = 1 := by simpa [Table.values] using hn
    exact exists_ok_of_isOk hnode
  obtain ⟨w, hlater, hw⟩ := Later.resumes hreloads hlegible hsaved.history.1 hnodes hstate.1 hstate.2.1
  have hopen : w.record.done = false := by
    rw [hw]
    exact hstate.1
  refine ⟨created, ended, w, hcreate, hbegins, hruns, ?_, hidle, rfl, hdone, hresult, hlater, hopen, ?_, ?_⟩
  · rw [unsaved, hstarted]
    exact hstate.1
  · rw [hw]
    exact hstate.2.2.1
  · intro hfrozen
    have hkept : w.record.done = true := hfrozen.done.trans hdone
    rw [hopen] at hkept
    cases hkept

end Execution

end DurableFlow
