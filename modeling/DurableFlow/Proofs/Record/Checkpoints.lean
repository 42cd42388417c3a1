/-
What the files say about an execution.

A record that says that it is clean promises that the saved program can be gone on with. Two things
are shown of this promise. When a checkpoint succeeds, the files of the record and of the program
are of the same moment: each number in the program is one that the record has given out, and the
blocks that the record lists as open are those that the program has open. And from the mark that
what was saved is out of date until the next checkpoint, neither the record in memory nor the one
in its file makes the promise, unless the execution is done.

Both need that the device accepts what is written at that moment. Between the two files of a
checkpoint, or after a mark that could not be saved, the files may promise too much.
-/
import DurableFlow.Proofs.History.Runs

set_option autoImplicit false

namespace DurableFlow

open Script Text History FileTree

/-- No edit makes a record clean or done, or takes that back. -/
theorem clean_of_edit {r r' : Record} (h : r.Edit r') : r'.clean = r.clean ∧ r'.done = r.done := by
  cases h with
  | _ => exact ⟨rfl, rfl⟩

namespace Execution

variable {x y : Execution}

/-! ## Files of one moment -/

/-- **A saved program of the same moment as a record.** -/
structure Belongs (p : SavedProgram) (r : Record) : Prop where
  threads : ∀ thread ∈ p.threads, thread.id ≤ r.threadsCreated ∧ Table.contains thread.head r.heads = true
  steps : ∀ step ∈ p.steps, step.node < r.nextNodeId ∧ Table.contains step.head r.heads = true
  distinct : r.startNodes.Nodup
  /-- The open blocks are those of the steps and of the branches. -/
  startNodes : ∀ n, n ∈ r.startNodes ↔ (∃ step ∈ p.steps, step.node = n ∧ step.isBlock = true) ∨
    ∃ thread ∈ p.threads, ∃ step index head, .body step index (some ⟨head, n⟩) ∈ thread.completions

/-- The threads of a saved program are those of the program. -/
theorem mem_save_threads {p : LiveProgram} {registry : StepRegistry} {saved : SavedThread} :
    saved ∈ (p.save registry).threads ↔ ∃ entry ∈ p.threads, entry.2.save = saved := by
  simp [LiveProgram.save, Table.values]

theorem mem_save_steps {p : LiveProgram} {registry : StepRegistry} {saved : SavedStep} :
    saved ∈ (p.save registry).steps ↔ ∃ entry ∈ p.steps, entry.2.save registry = saved := by
  simp [LiveProgram.save, Table.values]

/-- **In order, a program belongs to the record.** -/
theorem Going.belongs {origin : Origin} (h : Going x origin none []) (hsound : Sound x none)
    (registry : StepRegistry) : Belongs (x.program.save registry) x.record := by
  have horderly := h.orderly
  have hthread : ∀ {entry}, entry ∈ x.program.threads → x.program.threadAt none entry.1 = some entry.2 :=
    fun hmem => hsound.threadsSorted.find?_of_mem hmem
  have hstep : ∀ {entry}, entry ∈ x.program.steps → x.program.stepAt entry.1 = some entry.2 :=
    fun hmem => hsound.stepsSorted.find?_of_mem hmem
  have hpost : ∀ {t thread}, x.program.threadAt none t = some thread →
      x.program.posts none t = some thread.post := fun hfound => congrArg (Option.map Thread.post) hfound
  have hhead : ∀ {t thread}, x.program.threadAt none t = some thread →
      Table.contains thread.head x.record.heads = true := by
    intro t thread hfound
    obtain ⟨tip, htip⟩ := horderly.head_present (hpost hfound)
    exact Option.isSome_iff_exists.mpr ⟨tip, htip⟩
  constructor
  case threads =>
    intro saved hsaved
    obtain ⟨entry, hmem, rfl⟩ := mem_save_threads.mp hsaved
    have hid : entry.2.id = entry.1 := hsound.links.id (hthread hmem)
    refine ⟨?_, hhead (hthread hmem)⟩
    show entry.2.id ≤ x.record.threadsCreated
    rw [hid]
    exact hsound.threadNumber (hthread hmem)
  case steps =>
    intro saved hsaved
    obtain ⟨entry, hmem, rfl⟩ := mem_save_steps.mp hsaved
    have hnode : entry.2.node = entry.1 := hsound.links.node (hstep hmem)
    have hbelow : entry.2.node < x.record.nextNodeId := by
      rw [hnode]
      exact hsound.stepNumber (hstep hmem)
    refine ⟨hbelow, ?_⟩
    -- a step is on the head of the thread that waits for it
    obtain ⟨post, hcaller, _, hsame⟩ := horderly.caller (LiveProgram.seats_of_stepAt (hstep hmem))
    obtain ⟨tip, htip⟩ := horderly.head_present hcaller
    rw [hsame] at htip
    exact Option.isSome_iff_exists.mpr ⟨tip, htip⟩
  case distinct => exact horderly.nodup
  case startNodes =>
    intro n
    refine horderly.opened.trans ⟨fun hopen => ?_, ?_⟩
    · obtain ⟨body, hstart⟩ := hopen.start
      cases body with
      | false =>
        obtain ⟨seat, hseat⟩ := horderly.stepOpen hopen hstart
        obtain ⟨step, hfound, rfl⟩ := Option.map_eq_some_iff.mp hseat
        refine .inl ⟨step.save registry, mem_save_steps.mpr ⟨(n, step), Table.mem_of_find? hfound, rfl⟩,
          hsound.links.node hfound, ?_⟩
        cases hblock : step.isBlock with
        | true => exact hblock
        | false =>
          obtain ⟨⟨node, hnode, hkind⟩, _⟩ := horderly.atom hseat hblock
          obtain ⟨node', hnode', hkind'⟩ := hstart
          rw [hnode] at hnode'
          cases hnode'
          rw [hkind] at hkind'
          cases hkind'
      | true =>
        obtain ⟨t, post, m, index, head, hfound, hcompletions⟩ := horderly.branchOpen hopen hstart
        obtain ⟨thread, hthread, rfl⟩ := Option.map_eq_some_iff.mp hfound
        refine .inr ⟨thread.save, mem_save_threads.mpr ⟨(t, thread), Table.mem_of_find? hthread, rfl⟩,
          m, index, head, ?_⟩
        have hown : thread.completions = [.body m index (some ⟨head, n⟩)] := hcompletions
        show _ ∈ thread.completions
        rw [hown]
        exact List.mem_singleton_self _
    · rintro (⟨saved, hsaved, hnode, hblock⟩ | ⟨saved, hsaved, m, index, head, hmem⟩)
      · obtain ⟨entry, hentry, rfl⟩ := mem_save_steps.mp hsaved
        have hown : entry.1 = n := (hsound.links.node (hstep hentry)).symm.trans hnode
        exact hown ▸ (horderly.block (LiveProgram.seats_of_stepAt (hstep hentry)) hblock).1
      · obtain ⟨entry, hentry, rfl⟩ := mem_save_threads.mp hsaved
        obtain ⟨completion, hsingle⟩ := hsound.links.single (hthread hentry)
        have hcompletion : entry.2.completions = [.body m index (some ⟨head, n⟩)] := by
          have hin : Completion.body m index (some ⟨head, n⟩) ∈ entry.2.completions := hmem
          rw [hsingle, List.mem_singleton] at hin
          rw [hsingle, hin]
        exact (horderly.branch (hpost (hthread hentry)) hcompletion).1

theorem Belongs.congr {p : SavedProgram} {r r' : Record} (h : Belongs p r) (hindex : r'.index = r.index)
    (hthreads : r'.threadsCreated = r.threadsCreated) : Belongs p r' := by
  have hheads : r'.heads = r.heads := congrArg Index.heads hindex
  have hnodes : r'.nextNodeId = r.nextNodeId := congrArg Index.nextNodeId hindex
  have hopen : r'.startNodes = r.startNodes := congrArg Index.startNodes hindex
  constructor
  case threads =>
    rw [hheads, hthreads]
    exact h.threads
  case steps =>
    rw [hheads, hnodes]
    exact h.steps
  case distinct =>
    rw [hopen]
    exact h.distinct
  case startNodes =>
    rw [hopen]
    exact h.startNodes

/-- **A checkpoint leaves files of one moment.** In every state of a run that is not done, a checkpoint
succeeds, and then the file of the record holds a clean record and the file of the program the program
that belongs to it. -/
theorem checkpoint_files_belong {x y : Execution} (hstart : Started x) (hrun : Leads x y)
    (hopen : y.record.done = false) :
    y.saveCheckpoint.1 = true ∧ ∃ r, y.saveCheckpoint.2.archive.HoldsRecord r ∧ r.clean = true ∧
      r.done = false ∧ y.saveCheckpoint.2.archive.HoldsProgram (y.program.save y.engine.steps) ∧
      Belongs (y.program.save y.engine.steps) r := by
  obtain ⟨head, hgoing, hsound⟩ := (hstart.inOrder hrun).of_open hopen
  have hok := saveCheckpoint_ok hgoing.sane
  obtain ⟨hclean, hrecord, hprogram⟩ := saveCheckpoint_holds hok
  have hindex := (Light.alongCheckpoints.saveCheckpoint y).index
  refine ⟨hok, _, hrecord, hclean, (congrArg Index.done hindex).trans hopen, hprogram, ?_⟩
  exact (hgoing.belongs hsound y.engine.steps).congr hindex (Quiet.alongCheckpoints.saveCheckpoint y).threads

/-- A script waits, the program and the record are saved, and they belong together. -/
theorem checkpoint_files_belong_waiting :
    ∃ created y, create { steps := Step.standard } "flow" "1" "wait_for_signal(\"a\")" {} {} ⟨0⟩ 0 = .ok created ∧
      y = [.run 1].foldl happen (Execution.start.after created) ∧ y.record.done = false ∧
      y.saveCheckpoint.1 = true ∧ ∃ r, y.saveCheckpoint.2.archive.HoldsRecord r ∧
        Belongs (y.program.save y.engine.steps) r := by
  obtain ⟨created, hcreated⟩ : ∃ created, create { steps := Step.standard } "flow" "1"
      "wait_for_signal(\"a\")" {} {} ⟨0⟩ 0 = .ok created := ⟨_, rfl⟩
  have hrun : Leads (Execution.start.after created) ([.run 1].foldl happen (Execution.start.after created)) :=
    Leads.here.events rfl
  have hopen : ([.run 1].foldl happen (Execution.start.after created)).record.done = false := by
    cases hcreated
    decide +kernel
  obtain ⟨hsaves, r, hrecord, _, _, _, hbelongs⟩ :=
    checkpoint_files_belong (.of_script hcreated) hrun hopen
  exact ⟨created, _, hcreated, rfl, hopen, hsaves, r, hrecord, hbelongs⟩

/-! ## Between checkpoints -/

/-- **Neither record promises anything**, unless the execution is done. -/
structure Outdated (x : Execution) : Prop where
  memory : x.record.clean = true → x.record.done = true
  file : ∃ r, x.archive.HoldsRecord r ∧ (r.clean = true → r.done = true)

/-- Nothing is promised by a record that is as clean and as done as before. -/
theorem Outdated.of_record (h : Outdated x) (hclean : y.record.clean = x.record.clean)
    (hdone : y.record.done = x.record.done) (harchive : y.archive = x.archive) : Outdated y := by
  obtain ⟨r, hr, hstale⟩ := h.file
  refine ⟨?_, r, harchive ▸ hr, hstale⟩
  rw [hclean, hdone]
  exact h.memory

/-- A file beside that of the record is written. -/
theorem Outdated.of_sameAt (h : Outdated x) (hclean : y.record.clean = x.record.clean)
    (hdone : y.record.done = x.record.done)
    (hsame : FileTree.SameAt x.archive.tree y.archive.tree Archive.recordPath) : Outdated y := by
  obtain ⟨r, hr, hstale⟩ := h.file
  refine ⟨?_, r, hr.of_sameAt hsame, hstale⟩
  rw [hclean, hdone]
  exact h.memory

theorem Outdated.basic (h : Outdated x) (hxy : BasicChange x y) : Outdated y := by
  cases hxy with
  | aside haside =>
    exact h.of_record (congrArg Record.clean haside.record) (congrArg Record.done haside.record) haside.archive
  | edit hedit => exact h.of_record (clean_of_edit hedit).1 (clean_of_edit hedit).2 rfl
  | called function _ => exact h.of_record rfl rfl rfl
  | interrupted result causes _ => exact h.of_record rfl rfl rfl
  | call hcall => exact h.of_sameAt rfl rfl (hcall.sameAt Archive.aloof_recordPath)
  | save =>
    obtain ⟨r, hr, hstale⟩ := h.file
    refine ⟨h.memory, ?_⟩
    rcases Archive.saveRecord_cases x.record x.archive with ⟨_, hsaved⟩ | ⟨_, hsame⟩
    · exact ⟨x.record, hsaved, h.memory⟩
    · exact ⟨r, hr.of_sameAt hsame, hstale⟩

/-- At the end the record is clean when it is done. -/
theorem Outdated.ending (h : Outdated x) (hxy : EndChange x y) : Outdated y := by
  cases hxy with
  | basic hbasic => exact h.basic hbasic
  | concluded result error => exact h.of_record rfl rfl rfl
  | ended heads now => exact ⟨fun _ => rfl, h.file⟩
  | unwritten => exact ⟨fun _ => rfl, h.file⟩
  | migrated =>
    refine h.of_sameAt ?_ ?_ (sameAt_migrateHistory Archive.aloof_recordPath x)
    · rw [migrateHistory_record]
    · rw [migrateHistory_record]
  | settled hdone => exact ⟨fun _ => hdone, h.file⟩

theorem Outdated.changes (h : Outdated x) (hxy : EndChanges x y) : Outdated y := by
  unfold EndChanges at hxy
  induction hxy with
  | refl => exact h
  | tail _ hchange ih => exact ih.ending hchange

/-- The mark does not undo itself. -/
theorem Outdated.markStale (h : Outdated x) : Outdated x.markStale := by
  unfold Execution.markStale
  split
  · exact h
  · have hmarked : Outdated (x.editRecord fun r => { r with clean := false }) :=
      ⟨fun hno => absurd hno Bool.false_ne_true, h.file⟩
    exact hmarked.basic .save

/-- **What was saved stays out of date** as long as no checkpoint is made. -/
theorem Outdated.happen (h : Outdated x) {event : Event} (hsaves : ¬ x.Saves event) :
    Outdated (x.happen event) := by
  by_cases hstale : event = .markStale
  · rw [hstale]
    exact h.markStale
  · exact h.changes (.happen x hsaves hstale)

/-- Events of which none makes a checkpoint. -/
inductive Unsaved : Execution → List Event → Prop
  | nil (x : Execution) : Unsaved x []
  | cons {x : Execution} {event : Event} {rest : List Event} (hsaves : ¬ x.Saves event)
    (h : Unsaved (x.happen event) rest) : Unsaved x (event :: rest)

theorem Outdated.events {events : List Event} (h : Outdated x) (hunsaved : Unsaved x events) :
    Outdated (events.foldl Execution.happen x) := by
  induction hunsaved with
  | nil => exact h
  | cons hsaves _ ih => exact ih (h.happen hsaves)

/-! ## From the start on -/

theorem clean_of_ending (h : x.record.clean = true) (hxy : EndChange x y) : y.record.clean = true := by
  cases hxy with
  | basic hbasic =>
    cases hbasic with
    | aside haside => exact (congrArg Record.clean haside.record).trans h
    | edit hedit => exact (clean_of_edit hedit).1.trans h
    | _ => exact h
  | migrated =>
    rw [migrateHistory_record]
    exact h
  | settled _ => rfl
  | _ => exact h

theorem clean_of_changes (h : x.record.clean = true) (hxy : EndChanges x y) : y.record.clean = true := by
  unfold EndChanges at hxy
  induction hxy with
  | refl => exact h
  | tail _ hchange ih => exact clean_of_ending ih hchange

/-- **What the record says of itself**: either that nothing has run since the last checkpoint, or
nothing is promised, here or in the file. -/
def Agrees (x : Execution) : Prop := x.record.clean = true ∨ Outdated x

/-- **The mark takes back** what the record and its file promise. -/
theorem Agrees.outdated_markStale (h : Agrees x) (hsane : x.archive.Sane)
    (hlazy : x.record.durability.persistsWhenIdle = false) : Outdated x.markStale := by
  rcases h with hclean | houtdated
  · let marked := x.editRecord fun r => { r with clean := false }
    have hmark : x.markStale = writeRecord.after marked := by
      unfold Execution.markStale
      rw [if_neg (by simp [hlazy, hclean])]
    rw [hmark]
    have hno : marked.record.clean = true → marked.record.done = true := fun hno => absurd hno Bool.false_ne_true
    obtain ⟨a', hsaves, _⟩ := hsane.saveRecord marked.record
    rcases Archive.saveRecord_cases marked.record marked.archive with ⟨_, hholds⟩ | ⟨⟨e, herror⟩, _⟩
    · exact ⟨hno, marked.record, hholds, hno⟩
    · have hok : (Archive.saveRecord marked.record marked.archive).1 = .ok () := congrArg Prod.fst hsaves
      rw [herror] at hok
      cases hok
  · exact houtdated.markStale

theorem Agrees.markStale (h : Agrees x) (hsane : x.archive.Sane) : Agrees x.markStale := by
  cases hlazy : x.record.durability.persistsWhenIdle with
  | false => exact .inr (h.outdated_markStale hsane hlazy)
  | true =>
    have hsame : x.markStale = x := by
      unfold Execution.markStale
      rw [if_pos (by simp [hlazy])]
    rw [hsame]
    exact h

theorem Agrees.ends (h : Agrees x) (hxy : EndChanges x y) : Agrees y :=
  h.imp (clean_of_changes · hxy) (·.changes hxy)

theorem Agrees.goesOn (h : Agrees x) (hsane : x.archive.Sane) (hxy : GoesOn x y) : Agrees y := by
  cases hxy with
  | changes hchanges => exact h.ends hchanges.ends
  | saves haside hafter =>
    refine .inl ?_
    rw [hafter.record]
    exact (saveCheckpoint_holds (saveCheckpoint_ok (haside.archive ▸ hsane))).1
  | marks => exact h.markStale hsane

theorem Agrees.happen (h : Agrees x) (hsane : x.archive.Sane) (event : Event) : Agrees (x.happen event) := by
  by_cases hclose : ∀ advanced, event ≠ .close advanced
  · exact h.goesOn hsane (goesOn_happen x hclose)
  · obtain ⟨advanced, rfl⟩ : ∃ advanced, event = .close advanced := by
      simpa only [not_forall, not_not] using hclose
    rcases close_cases x advanced with hgoes | ⟨_, _, heq⟩
    · exact h.goesOn hsane hgoes
    · show Agrees (Turn.close { advanced, execution := x })
      rw [heq]
      exact h.ends ((Changes.mapProgram x _).ends.trans (endChanges_finish _ _))

/-- A new execution is clean, and its start leaves it so. -/
theorem Started.agrees (h : Started x) : Agrees x := by
  cases h with
  | of_create _ _ hcreate =>
    refine .inl (clean_of_changes ?_ (endChanges_start _))
    unfold create at hcreate
    dsimp only at hcreate
    split at hcreate
    · cases hcreate
    · cases hcreate
      rfl

theorem Agrees.events {past : Nodes} (h : Agrees x) (hin : InOrder past x) {events : List Event}
    (houtside : events.all Event.isOutside = true) :
    Agrees (events.foldl Execution.happen x) ∧ InOrder past (events.foldl Execution.happen x) := by
  induction events generalizing x with
  | nil => exact ⟨h, hin⟩
  | cons event rest ih =>
    rw [List.all_cons, Bool.and_eq_true] at houtside
    exact ih (h.happen hin.standing.1.sane event) (hin.happen event houtside.1) houtside.2

/-- **Nothing is promised until the next checkpoint.** An execution whose program is not saved when it
is idle was started, and anything has happened to it. Then it is marked, as it is before its threads run.
Whatever happens after that, the execution is done before a checkpoint is made, or neither the record
in memory nor the one in its file says that it is clean. -/
theorem outdated_until_checkpoint {earlier later : List Event} (hstart : Started x)
    (houtside : earlier.all Event.isOutside = true) (hy : earlier.foldl Execution.happen x = y)
    (hlazy : y.record.durability.persistsWhenIdle = false) (hunsaved : Unsaved y.markStale later) :
    Outdated (later.foldl Execution.happen y.markStale) := by
  obtain ⟨hagrees, hin⟩ := hstart.agrees.events (hstart.inOrder .here) houtside
  rw [hy] at hagrees hin
  exact (hagrees.outdated_markStale hin.standing.1.sane hlazy).events hunsaved

end Execution

end DurableFlow
