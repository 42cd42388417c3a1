/-
What can be loaded, and what a load cannot find.

An execution can be loaded from files in which its record is legible and the nodes are there that it names. The
record in them is the one that was saved last. As long as the host refuses to save the record, its file stays
as it was, whatever else is written. So an end that the host does not let through is in memory only, and a
load goes on from before it.
-/
import DurableFlow.Proofs.Record.Reloads

set_option autoImplicit false

namespace DurableFlow

open Script Text History FileTree

/-! ## What can be loaded -/

namespace Archive

variable {a a' b : Archive} {r : Record} {root : String}

theorem openAt_of_tidy {tree : FileTree} (htidy : tree.Tidy) (root : String) : ∃ b, openAt root tree = .ok b := by
  have hhome : Home logPath := home_top (by decide) (by decide)
  obtain ⟨made, hput, _⟩ := htidy.put hhome.toPlace ""
  unfold openAt FileTree.openFile
  cases hnumber : tree.number? logPath with
  | some n => exact ⟨_, rfl⟩
  | none =>
    rw [hput]
    exact ⟨_, rfl⟩

theorem checkNodes_of_read {ids : List Nat} (h : ∀ id ∈ ids, ∃ node, a.node id = .ok node) :
    a.checkNodes ids = .ok () := by
  induction ids with
  | nil => rfl
  | cons id rest ih =>
    obtain ⟨node, hnode⟩ := h id List.mem_cons_self
    rw [checkNodes, hnode]
    exact ih fun other hmem => h other (List.mem_cons_of_mem id hmem)

/-- A history that can be opened again is opened. -/
theorem openIn_of_reopens {storage : Storage} {tree : FileTree} (h : storage.Reopens tree) (htidy : tree.Tidy) :
    ∃ found tree', Storage.openIn storage.kind tree = .ok (found, tree') := by
  cases storage with
  | perNode files =>
    exact ⟨_, _, Storage.openIn_perNode (NodeFiles.openIn_of_place htidy.place)⟩
  | bulk whole =>
    obtain ⟨found, hfound, _⟩ := h
    exact ⟨.bulk found, tree, Storage.openIn_bulk hfound⟩

/-- **What is there can be loaded**: the record is read, and its history is opened. -/
theorem Reloads.loads {start : Nat} (h : a.Reloads r) (hlegible : a.history.Legible) (hbegun : r.flowStart = some start)
    (hnodes : ∀ n ∈ start :: Table.values r.heads ++ r.startNodes, ∃ node, a.node n = .ok node) (root : String) :
    ∃ b c, openAt root a.tree = .ok b ∧ b.loadRecord = .ok r ∧ openRecorded r b = (.ok (), c) := by
  obtain ⟨b, hopen⟩ := openAt_of_tidy h.tidy root
  obtain ⟨htidy, hothers⟩ := openAt_eq_ok h.tidy hopen
  have hfiles : ∀ id, SameAt a.tree b.tree (nodePath id) := fun id =>
    hothers _ (nodePath_ne_top id "log") (home_nodePath id).ne
  have hread : b.loadRecord = .ok r := (h.reads.of_sameAt (hothers _ (by decide) (by decide))).loads
  have hreopens : a.history.Reopens b.tree := h.reopens.of_sameAt hfiles (hothers _ (by decide) (by decide))
  obtain ⟨history, tree, hstorage⟩ := openIn_of_reopens hreopens htidy
  obtain ⟨_, _, _, hget, _⟩ := hreopens.openIn htidy hlegible hstorage
  let opened : Archive := { b with history, tree, isWatched := true }
  have hhistory : openHistory r.storage b = (.ok (), opened) := by
    unfold openHistory
    rw [← h.kind, hstorage]
  -- the history that is opened has the nodes of before, also those that the record names
  have hsame : ∀ n, opened.node n = a.node n := fun n => by
    refine node_congr ((hget n).trans (Storage.get_congr_tree a.history (fun id => ?_) n))
    exact h.tidy.read_congr htidy (home_nodePath id).toPlace (hfiles id)
  have hcheck : opened.checkNodes (start :: Table.values r.heads ++ r.startNodes) = .ok () := by
    refine checkNodes_of_read fun n hn => ?_
    rw [hsame]
    exact hnodes n hn
  refine ⟨b, opened, hopen, hread, ?_⟩
  show Attempt.andThen (openHistory r.storage) _ b = _
  simp only [Attempt.andThen, hhistory]
  show Attempt.andThen (Attempt.need r.flowStart _) _ opened = _
  simp only [Attempt.andThen, Attempt.need, hbegun]
  exact congrArg (fun checked => (checked, opened)) hcheck

/-! ## While the record is not saved -/

theorem Call.refuse (h : a.Call a') : a'.refuse = a.refuse := by
  have hhistory : ∀ (call : ArchiveCall) (f : Storage → FileTree → EngineResult Unit × Storage × FileTree),
      ((historyCall call f).after a).refuse = a.refuse := fun call f => by
    obtain ⟨journal, ⟨e, heq⟩ | heq⟩ := historyCall_cases call f a
    · rw [Attempt.after, heq]
    · rw [Attempt.after, heq]
  cases h with
  | log line => rfl
  | store node defer => exact hhistory _ _
  | flush => exact hhistory _ _
  | saveActions id actions => exact hhistory _ _
  | autopersist id => exact hhistory _ _

theorem refuse_migrate (a : Archive) : (migrate.after a).refuse = a.refuse := by
  obtain ⟨journal, ⟨e, heq⟩ | ⟨nodes, bulk, _, _, heq⟩⟩ := migrate_eq a
  · rw [Attempt.after, heq]
  · rw [Attempt.after, heq, migrated]
    split <;> rfl

end Archive

namespace Execution

variable {x y : Execution} {r : Record}

/-- The host refuses to save the record. -/
def SavesNoRecord (x : Execution) : Prop := (x.archive.refuse .saveRecord).isSome = true

/-- **The record is not saved from one state to another**: its file stays as it was, and the host refuses what
it refused before. -/
structure LeavesRecord (x y : Execution) : Prop where
  refuse : y.archive.refuse = x.archive.refuse
  file : SameAt x.archive.tree y.archive.tree Archive.recordPath

namespace LeavesRecord

theorem of_archive (h : y.archive = x.archive) : LeavesRecord x y := by
  refine ⟨by rw [h], ?_⟩
  rw [h]
  rfl

theorem basic (h : BasicChange x y) (hrefuses : SavesNoRecord x) : LeavesRecord x y := by
  cases h with
  | aside haside => exact of_archive haside.archive
  | edit _ => exact of_archive rfl
  | called _ _ => exact of_archive rfl
  | interrupted _ _ _ => exact of_archive rfl
  | call hcall => exact ⟨hcall.refuse, hcall.sameAt Archive.aloof_recordPath⟩
  | save =>
    obtain ⟨e, hrefused⟩ := Option.isSome_iff_exists.mp hrefuses
    -- the host refuses before the file is touched
    have hsave : Archive.saveRecord x.record x.archive =
        (.error e, { x.archive with journal := x.archive.journal ++ [.saveRecord] }) := by
      show Attempt.andThen (Archive.announce .saveRecord) _ x.archive = _
      simp only [Attempt.andThen, Archive.announce, hrefused]
    have harchive : (writeRecord.after x).archive = (Archive.saveRecord x.record x.archive).2 := rfl
    rw [hsave] at harchive
    exact ⟨by rw [harchive], by rw [harchive]; rfl⟩

theorem change (h : EndChange x y) (hrefuses : SavesNoRecord x) : LeavesRecord x y := by
  cases h with
  | basic hbasic => exact basic hbasic hrefuses
  | migrated =>
    refine ⟨?_, sameAt_migrateHistory Archive.aloof_recordPath x⟩
    have hmigrate := Archive.refuse_migrate x.archive
    unfold migrateHistory
    split
    · have hsame : (onArchive Archive.migrate x).2.archive = Archive.migrate.after x.archive := rfl
      split
      · next heq =>
        rw [heq] at hsame
        exact (congrArg Archive.refuse hsame).trans hmigrate
      · next heq =>
        rw [heq] at hsame
        exact (congrArg Archive.refuse hsame).trans hmigrate
    · rfl
  | _ => exact of_archive rfl

/-- **Whatever the end consists of**, the record is not saved if the host refuses it. -/
theorem changes (h : EndChanges x y) (hrefuses : SavesNoRecord x) : LeavesRecord x y := by
  unfold EndChanges at h
  induction h with
  | refl => exact of_archive rfl
  | tail _ hchange ih =>
    have hlast := change hchange (by rw [SavesNoRecord, ih.refuse]; exact hrefuses)
    exact ⟨hlast.refuse.trans ih.refuse, ih.file.trans hlast.file⟩

end LeavesRecord

/-- An end that the host does not let through leaves the record that was saved last. -/
theorem holdsRecord_finish (hrefuses : SavesNoRecord x) (h : x.archive.HoldsRecord r) (outcome : Outcome) :
    (x.finish outcome).archive.HoldsRecord r :=
  h.of_sameAt (LeavesRecord.changes (endChanges_finish x outcome) hrefuses).file

theorem done_finish (x : Execution) (outcome : Outcome) : (x.finish outcome).record.done = true := by
  by_cases hdone : x.record.done = true
  · rw [finish_done hdone]
    exact hdone
  · exact (ended_finish (Bool.eq_false_iff.mpr hdone) outcome).1

/-- **The start saves the record**, unless it is the end. -/
theorem holdsRecord_of_start (h : start x = (.ok (), y)) (hopen : y.record.done = false) :
    y.archive.HoldsRecord y.record := by
  obtain ⟨record, _, _, h⟩ := Attempt.bind_eq_ok h
  obtain ⟨_, _, _, h⟩ := Attempt.bind_eq_ok h
  obtain ⟨head, _, _, h⟩ := Attempt.bind_eq_ok h
  obtain ⟨_, begun, _, h⟩ := Attempt.bind_eq_ok h
  cases hcompile : compileSource record.scriptName record.script with
  | ok program =>
    rw [hcompile] at h
    obtain ⟨_, _, _, h⟩ := Attempt.bind_eq_ok h
    obtain ⟨_, _, _, h⟩ := Attempt.bind_eq_ok h
    obtain ⟨_, saved, hsave, h⟩ := Attempt.bind_eq_ok h
    have hholds := holdsRecord_of_save hsave
    obtain rfl := of_update h
    dsimp only
    split
    · exact hholds
    · have haside := Aside.submit { saved with stage := .ready, lane := .serving } .run
      rw [haside.archive, haside.record]
      exact hholds
  | error e =>
    rw [hcompile] at h
    obtain rfl := of_update h
    rw [done_finish] at hopen
    exact absurd hopen (by simp)

/-- What is loaded from files in which the execution is not done goes on from the record in them. -/
theorem Later.resumes {start : Nat} (hreloads : y.archive.Reloads r) (hlegible : y.archive.history.Legible)
    (hbegun : r.flowStart = some start)
    (hnodes : ∀ n ∈ start :: Table.values r.heads ++ r.startNodes, ∃ node, y.archive.node n = .ok node)
    (hopen : r.done = false) (hclean : r.clean = true) : ∃ w, Later y w ∧ w.record = r := by
  obtain ⟨b, c, hopens, hread, hhistory⟩ := hreloads.loads hlegible hbegun hnodes ""
  let read : Execution :=
    { engine := y.engine, name := y.name, archive := c, record := r, paused := r.paused, clock := ⟨0⟩ }
  have hload : load y.engine y.name b ⟨0⟩ 0 = (.ok read.resumeFrom, c) := by
    unfold load
    simp only [hread, recoverHistory_of_opened hhistory]
    rfl
  refine ⟨read.resumeFrom, .loaded .here hlegible hopens ⟨r, c, hread, hhistory⟩ hload, ?_⟩
  unfold resumeFrom
  simp only [read, hopen, hclean]
  rfl

end Execution

end DurableFlow
