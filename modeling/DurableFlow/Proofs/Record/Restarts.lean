/-
Restarts: a checkpoint is made, and what it has left is loaded.

A load takes over the directory, reads the record and opens the history that the record names. Then the
saved program is read, its handles are resolved, and it is put together and goes on. What comes of this
is found out here by following the load, with one premise: the texts of the record and of the program
read as what they were written from. Nothing is said about the archive. The history may turn out to be
unreadable, a handle may not be resolved, and a step may not be restored; but if the execution gets
ready, it goes on with the program that was saved and with the record of the same moment.
-/
import DurableFlow.Proofs.Record.Loading
import DurableFlow.Proofs.Storage.Migration

set_option autoImplicit false

namespace DurableFlow

open Script Text History FileTree

/-- The text of a saved program reads as the program. -/
def SavedProgram.ReadsBack (p : SavedProgram) : Prop :=
  (Json.document? (p.toJson.render .indented)).bind (·.json?.bind SavedProgram.ofJson?) = some p

/-! ## What a load reads -/

namespace Archive

variable {a b c : Archive} {path : Path} {record : Record} {program : SavedProgram}

theorem loadProgram_of_holds (h : a.HoldsProgram program) (hreads : program.ReadsBack) :
    a.loadProgram = .ok program := by
  obtain ⟨n, hfile⟩ := h
  unfold loadProgram
  rw [FileTree.readJson_of_file hfile hreads]

/-- A directory is taken over, and no file but the log is touched. -/
theorem sameAt_openAt {root : String} {tree : FileTree} (h : openAt root tree = .ok b) (hpath : path ≠ logPath) :
    SameAt tree b.tree path := by
  unfold openAt FileTree.openFile at h
  cases hnumber : tree.number? logPath with
  | some n =>
    rw [hnumber] at h
    cases h
    rfl
  | none =>
    rw [hnumber] at h
    cases hput : tree.put logPath "" with
    | error e =>
      rw [hput] at h
      cases h
    | ok made =>
      rw [hput] at h
      cases h
      exact (FileTree.put_eq_ok hput).2 path hpath List.not_mem_nil

/-- A history is opened, and no file is touched. -/
theorem sameAt_openRecorded (h : openRecorded record b = (.ok (), c)) (hpath : path ≠ nodeDirectory) :
    SameAt b.tree c.tree path := by
  obtain ⟨_, history, tree, hopen, rfl⟩ := openRecorded_eq_ok h
  rcases Storage.openIn_eq_ok hopen with ⟨_, _, rfl⟩ | ⟨_, rfl, _⟩
  · exact sameAt_addDirectories fun hmem => hpath (List.mem_singleton.mp hmem)
  · rfl

end Archive

namespace Execution

variable {engine : Engine} {x y : Execution}

/-! ## Restarts -/

/-- **A restart**, as far as it has come: a checkpoint was made, what it has left was loaded, and the program
was looked at while it was being loaded. Meanwhile time passes, and the load may be cancelled. -/
inductive Restarts (engine : Engine) (y : Execution) : Execution → Prop where
  | loaded {x : Execution} {name root : String} {opened archive : Archive} {clock : Timestamp} {now : Nat}
    (saves : y.saveCheckpoint.1 = true) (record : y.saveCheckpoint.2.record.ReadsBack)
    (program : (y.program.save y.engine.steps).ReadsBack)
    (opens : Archive.openAt root y.saveCheckpoint.2.archive.tree = .ok opened)
    (loads : load engine name opened clock now = (.ok x, archive)) : Restarts engine y x
  | polled {x : Execution} (h : Restarts engine y x) (loads : x.loading ≠ .none) (now : Nat)
    (clock : Timestamp) (loadCancelled : Bool) :
    Restarts engine y { x with now, clock, loadCancelled }.pollLoad

/-- **Nothing has run yet** in an execution that was read from what a checkpoint has left. -/
structure Rereads (engine : Engine) (y x : Execution) : Prop where
  engine : x.engine = engine
  record : x.record = y.saveCheckpoint.2.record
  history : ∃ root opened, Archive.openAt root y.saveCheckpoint.2.archive.tree = .ok opened ∧
    opened.loadRecord = .ok x.record ∧ Archive.openRecorded x.record opened = (.ok (), x.archive)
  holds : x.archive.HoldsProgram (y.program.save y.engine.steps)
  readable : (y.program.save y.engine.steps).ReadsBack
  program : x.program = {}
  timers : x.timers = []
  board : x.board = {}
  stopping : x.stopping = []
  lost : x.lost = []

/-- What is being loaded is the program that was saved. -/
def LoadsSaved (y x : Execution) : Prop :=
  x.loading = .requested ∨ ∃ resolution, x.loading = .resolving (y.program.save y.engine.steps) resolution

theorem LoadsSaved.loading (h : LoadsSaved y x) : x.loading ≠ .none := by
  rintro hnone
  rcases h with hrequested | ⟨_, hresolving⟩
  · cases hrequested.symm.trans hnone
  · cases hresolving.symm.trans hnone

/-- **What a restart comes to.** -/
inductive Restarted (engine : Engine) (y : Execution) : Execution → Prop where
  /-- The history could not be opened, and a placeholder was written. -/
  | replaced {x : Execution} {root : String} {opened left : Archive} {e : EngineError}
    (opens : Archive.openAt root y.saveCheckpoint.2.archive.tree = .ok opened)
    (read : opened.loadRecord = .ok y.saveCheckpoint.2.record)
    (unreadable : Archive.openRecorded y.saveCheckpoint.2.record opened = (.error e, left))
    (stage : x.stage = .finished) (loading : x.loading = .none) : Restarted engine y x
  /-- The execution was done. -/
  | closed {x : Execution} (h : Rereads engine y x) (done : x.record.done = true) (stage : x.stage = .finished)
    (loading : x.loading = .none) : Restarted engine y x
  | waits {x : Execution} (h : Rereads engine y x) (undone : x.record.done = false) (stage : x.stage = .loading)
    (loads : LoadsSaved y x) : Restarted engine y x
  | fails {x : Execution} (h : Rereads engine y x) (undone : x.record.done = false) (e : EngineError) :
    Restarted engine y (x.failLoad e)
  /-- The program goes on. -/
  | resumes {x : Execution} {program : LiveProgram} (h : Rereads engine y x) (undone : x.record.done = false)
    (restores : restoreProgram x.engine.steps x.clock (y.program.save y.engine.steps) = .ok program) :
    Restarted engine y (x.revive (y.program.save y.engine.steps) program)

/-- A program that is read is that in the file. -/
theorem loadProgram_of_readProgram {saved : SavedProgram} (h : x.readProgram = .ok saved) :
    x.archive.loadProgram = .ok saved := by
  unfold readProgram at h
  cases hmatches : x.record.scriptMatches with
  | false =>
    rw [hmatches] at h
    cases h
  | true =>
    rw [hmatches] at h
    obtain ⟨_, _, hread⟩ := bind_eq_ok.mp
      (show (checkScripts x.record.loadedScripts >>= fun _ => x.archive.loadProgram) = .ok saved from h)
    exact hread

namespace Rereads

/-- What a load notes beside the record and the archive. -/
theorem beside (h : Rereads engine y x) (loading : Loading) (now : Nat) (clock : Timestamp)
    (loadCancelled : Bool) (liveObjects : Table Handle Val) :
    Rereads engine y { x with loading, now, clock, loadCancelled, liveObjects } := by
  obtain ⟨hengine, hrecord, hhistory, hholds, hreadable, hprogram, htimers, hboard, hstopping, hlost⟩ := h
  exact ⟨hengine, hrecord, hhistory, hholds, hreadable, hprogram, htimers, hboard, hstopping, hlost⟩

/-- **The handles are looked at**: they are waited for, or the load fails, or the program goes on. -/
theorem pollHandles (h : Rereads engine y x) (hopen : x.record.done = false) (hstage : x.stage = .loading)
    (resolution : Resolution) :
    Restarted engine y (x.pollHandles (y.program.save y.engine.steps) resolution) := by
  have hbeside := fun loading objects => h.beside loading x.now x.clock x.loadCancelled objects
  unfold Execution.pollHandles
  dsimp only
  split
  · exact .waits (hbeside _ x.liveObjects) hopen hstage (.inr ⟨_, rfl⟩)
  · next objects _ =>
    unfold handlesResolved
    dsimp only
    have hfound := hbeside x.loading (Table.insertAll objects x.liveObjects)
    split
    · exact .fails hfound hopen _
    · next program hprogram => exact .resumes hfound hopen hprogram
  · exact .fails h hopen _

/-- **A program that is being loaded is looked at.** -/
theorem pollLoad (h : Rereads engine y x) (hopen : x.record.done = false) (hstage : x.stage = .loading)
    (hloads : LoadsSaved y x) : Restarted engine y x.pollLoad := by
  rcases hloads with hrequested | ⟨resolution, hresolving⟩
  · unfold Execution.pollLoad
    rw [hrequested]
    dsimp only
    split
    · exact .fails h hopen _
    · next saved hread =>
      -- the scripts were in order, and the file holds the program that was saved
      have hload := Archive.loadProgram_of_holds h.holds h.readable
      obtain rfl : y.program.save y.engine.steps = saved :=
        Except.ok.inj (hload.symm.trans (loadProgram_of_readProgram hread))
      exact h.pollHandles hopen hstage _
  · unfold Execution.pollLoad
    rw [hresolving]
    exact h.pollHandles hopen hstage resolution

end Rereads

/-- An execution that ends is finished. -/
theorem stage_finish (h : x.record.done = false) (outcome : Outcome) : (x.finish outcome).stage = .finished := by
  rw [finish_of_open h]
  split <;> rfl

theorem stage_failLoad (h : x.record.done = false) (e : EngineError) : (x.failLoad e).stage = .finished := by
  obtain ⟨failure, z, hchanges, heq⟩ := failLoad_ends x e
  rw [heq]
  exact stage_finish ((carried_undone.changes hchanges).1.trans h) _

theorem loading_failLoad (x : Execution) (e : EngineError) : (x.failLoad e).loading = .none := by
  obtain ⟨failure, z, hchanges, heq⟩ := failLoad_ends x e
  rw [heq]
  exact (loading_finish _ _).trans (continues_loading.changes hchanges)

theorem loading_revive (x : Execution) (saved : SavedProgram) (program : LiveProgram) :
    (x.revive saved program).loading = .none :=
  continues_loading.changes (Changes.revive x saved program)

/-- **What a load decides.** -/
theorem Rereads.resumeFrom (h : Rereads engine y x) (hclean : x.record.clean = true)
    (hloading : x.loading = .none) : Restarted engine y x.resumeFrom := by
  obtain ⟨hengine, hrecord, hhistory, hholds, hreadable, hprogram, htimers, hboard, hstopping, hlost⟩ := h
  unfold Execution.resumeFrom
  split
  · next hdone =>
    refine .closed ?_ hdone rfl hloading
    exact ⟨hengine, hrecord, hhistory, hholds, hreadable, hprogram, htimers, hboard, hstopping, hlost⟩
  · next hopen =>
    dsimp only
    rw [if_pos hclean]
    refine .waits ?_ (Bool.eq_false_iff.mpr hopen) rfl (.inl rfl)
    exact ⟨hengine, hrecord, hhistory, hholds, hreadable, hprogram, htimers, hboard, hstopping, hlost⟩

/-- **A restart goes on with what was saved**, or the execution is over. -/
theorem Restarts.restarted (h : Restarts engine y x) : Restarted engine y x := by
  induction h with
  | @loaded x name root opened archive clock now saves record program opens loads =>
    obtain ⟨hclean, hrecorded, hprogram⟩ := saveCheckpoint_holds saves
    have hsame : ∀ {path : Path}, path ≠ Archive.logPath →
        SameAt y.saveCheckpoint.2.archive.tree opened.tree path := fun hpath => Archive.sameAt_openAt opens hpath
    have hread := ((hrecorded.of_sameAt (hsame (by decide))).reads record).loads
    obtain ⟨found, record', hfound, hrecover, rfl⟩ := load_eq_ok loads
    obtain rfl : y.saveCheckpoint.2.record = found := Except.ok.inj (hread.symm.trans hfound)
    rcases recoverHistory_cases hrecover with ⟨rfl, hopen⟩ | ⟨e, left, hunreadable, hwrite⟩
    · have hholds := (hprogram.of_sameAt (hsame (by decide))).of_sameAt
        (Archive.sameAt_openRecorded hopen (by decide))
      refine Rereads.resumeFrom ?_ hclean rfl
      exact ⟨rfl, rfl, ⟨root, opened, opens, hread, hopen⟩, hholds, program, rfl, rfl, rfl, rfl, rfl⟩
    -- the record of a placeholder says that the execution is done
    · obtain ⟨_, replaced, _, hrest⟩ := Attempt.bind_eq_ok hwrite
      obtain ⟨_, saved, _, hreturn⟩ := Attempt.bind_eq_ok hrest
      cases hreturn
      exact .replaced opens hread hunreadable rfl rfl
  | @polled x _ loads now clock loadCancelled ih =>
    cases ih with
    | replaced _ _ _ _ loading => exact absurd loading loads
    | closed _ _ _ loading => exact absurd loading loads
    | waits h undone stage hloads =>
      exact (h.beside x.loading now clock loadCancelled x.liveObjects).pollLoad undone stage hloads
    | fails _ _ e => exact absurd (loading_failLoad _ e) loads
    | resumes _ _ _ => exact absurd (loading_revive _ _ _) loads

/-- **A restart that gets ready** has put the saved program together. -/
theorem Restarts.ready (h : Restarts engine y x) (hready : x.stage = .ready) :
    ∃ w program, Rereads engine y w ∧ w.record.done = false ∧
      restoreProgram w.engine.steps w.clock (y.program.save y.engine.steps) = .ok program ∧
        x = w.revive (y.program.save y.engine.steps) program := by
  cases h.restarted with
  | replaced _ _ _ stage _ => cases hready.symm.trans stage
  | closed _ _ stage _ => cases hready.symm.trans stage
  | waits _ _ stage _ => cases hready.symm.trans stage
  | fails _ hopen e => cases hready.symm.trans (stage_failLoad hopen e)
  | resumes hrereads hopen hrestores => exact ⟨_, _, hrereads, hopen, hrestores, rfl⟩

/-- A restart begins with a checkpoint that succeeds, and whose record can be read. -/
theorem Restarts.saved (h : Restarts engine y x) :
    y.saveCheckpoint.1 = true ∧ y.saveCheckpoint.2.record.ReadsBack := by
  induction h with
  | loaded saves record _ _ _ => exact ⟨saves, record⟩
  | polled _ _ _ _ _ ih => exact ih

end Execution

/-! ## A history that is opened again -/

/-- **What is in its files and does not wait** is there when it is opened again. -/
theorem History.Storage.InFiles.reopens_of_settled {s : Storage} {tree : FileTree} (h : s.InFiles tree)
    (hsettled : Opened.Settled { storage := s, tree }) (hlegible : s.Legible) : s.Reopens tree := by
  cases s with
  | perNode files => exact ⟨hsettled, h.filed⟩
  | bulk bulk =>
    have hclean : bulk.dirty = false := hsettled
    have hfiled : bulk.Filed tree := h.filed
    -- nothing was stored since the file was opened, or all of it was written
    rcases hfiled.written hclean with hopen | hholds
    · exact ⟨bulk, hopen, fun _ => rfl⟩
    · exact ⟨_, openIn_of_holdsAll hfiled.ordered hclean hholds hlegible, fun _ => rfl⟩

namespace Execution

variable {engine : Engine} {x y : Execution}

theorem settled_saveCheckpoint (h : y.saveCheckpoint.1 = true) : y.saveCheckpoint.2.archive.opened.Settled := by
  obtain ⟨a, b, c, _, _, hagain, hrecord⟩ := saveCheckpoint_eq_ok h
  obtain ⟨hflush, _⟩ := of_onArchive hagain
  obtain ⟨hsave, _⟩ := of_saveRecord hrecord
  have hsettled := Archive.settled_of_flush hflush
  have hhistory := Archive.history_saveRecord y.saveCheckpoint.2.record c.archive
  rw [show Archive.saveRecord _ c.archive = _ from hsave] at hhistory
  -- whether something waits is seen from what is in memory alone
  unfold Archive.opened Opened.Settled at hsettled ⊢
  rw [hhistory]
  exact hsettled

theorem InFiles.saveCheckpoint (h : InFiles y) : InFiles y.saveCheckpoint.2 :=
  InFiles.lasts.alongCheckpoints.saveCheckpoint y h

/-- **What a checkpoint has left can be loaded**, if it reads as what it was written from. -/
theorem InFiles.reloads (h : InFiles y) (hsaves : y.saveCheckpoint.1 = true)
    (hlegible : Legible y.saveCheckpoint.2) : y.saveCheckpoint.2.archive.Reloads y.saveCheckpoint.2.record where
  tidy := h.saveCheckpoint.files.tidy
  reads := by
    obtain ⟨n, hfile⟩ := (saveCheckpoint_holds hsaves).2.1
    exact ⟨n, _, hfile, hlegible.record⟩
  kind := h.saveCheckpoint.kind
  reopens := Storage.InFiles.reopens_of_settled h.saveCheckpoint.files (settled_saveCheckpoint hsaves) hlegible.history

namespace Rereads

/-- **The history is found as it was left.** -/
theorem found (h : Rereads engine y x) (hreloads : y.saveCheckpoint.2.archive.Reloads y.saveCheckpoint.2.record)
    (hlegible : y.saveCheckpoint.2.archive.history.Legible) :
    InFiles x ∧ ∀ n, x.archive.history.get x.archive.tree n =
      y.saveCheckpoint.2.archive.history.get y.saveCheckpoint.2.archive.tree n := by
  obtain ⟨root, opened, hopens, hread, hopen⟩ := h.history
  obtain ⟨_, hreloads', hget⟩ := hreloads.load hlegible hopens hread hopen
  obtain ⟨_, history, tree, hstorage, heq⟩ := Archive.openRecorded_eq_ok hopen
  obtain ⟨_, hfiled⟩ := Storage.filed_openIn hstorage
  refine ⟨⟨⟨hreloads'.tidy, ?_⟩, hreloads'.kind.trans (congrArg Record.storage h.record).symm⟩, hget⟩
  rw [heq]
  exact hfiled

/-- **The history stands as it was left**, where the numbers of nodes are words. -/
theorem sane (h : Rereads engine y x) (hreloads : y.saveCheckpoint.2.archive.Reloads y.saveCheckpoint.2.record)
    (hlegible : y.saveCheckpoint.2.archive.history.Legible) (hsane : y.saveCheckpoint.2.archive.Sane)
    (hwords : ∀ {n node}, y.saveCheckpoint.2.archive.history.get y.saveCheckpoint.2.archive.tree n =
      .ok (some node) → n < Json.wordBound) : x.archive.Sane := by
  obtain ⟨hfiles, hget⟩ := h.found hreloads hlegible
  obtain ⟨root, opened, hopens, _, hopen⟩ := h.history
  obtain ⟨_, history, tree, _, heq⟩ := Archive.openRecorded_eq_ok hopen
  have hrefuse : opened.refuse = fun _ => none := by
    unfold Archive.openAt at hopens
    split at hopens
    · cases hopens
      rfl
    · cases hopens
  refine ⟨fun call => ?_, hfiles.files.tidy, fun n => ?_, fun {n node} hnode => ?_, fun {n node} hnode => .inr ?_⟩
  · rw [heq]
    exact congrFun hrefuse call
  · rw [hget]
    exact hsane.fine.reads n
  · rw [hget] at hnode
    exact hsane.fine.own hnode
  · rw [hget] at hnode
    exact hwords hnode

end Rereads

end Execution

end DurableFlow
