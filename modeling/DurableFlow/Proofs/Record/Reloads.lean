/-
What a load finds after the end.

When the end of an execution is recorded its files hold the record and the whole history. What may still
happen afterwards writes to the log, and to the file of a node when an action is put beside it. So a load
finds the record as it was at the end, and under every number the same node, whatever has happened in
between, and it may be loaded again and again.

A load reads texts. That what was written reads as what it was written from is a premise here: it is what
makes a history readable.
-/
import DurableFlow.Proofs.Record.Aftermath
import DurableFlow.Proofs.Record.Filing

set_option autoImplicit false

namespace DurableFlow

open Script Text History FileTree

/-! ## What can be read back -/

/-- The text of a record reads as the record. -/
def Record.ReadsBack (r : Record) : Prop :=
  (Json.document? (r.toJson.render .indented)).bind Record.ofDocument? = some r

namespace History

variable {tree tree' : FileTree}

namespace Storage

variable {s s' : Storage}

/-- **What is held and was written reads as what it is.** -/
def Legible : Storage → Prop
  | .perNode files => ∀ id stored, Table.find? id files.cache = some stored →
    Table.find? id files.deferred = none → stored.ReadsBack
  | .bulk whole => whole.dirty = false →
    (Json.document? ((Json.arr ((Table.values whole.nodes).map StoredNode.toJson)).render .indented)).bind
      (·.list? StoredNode.ofDocument?) = some (Table.values whole.nodes)

/-- **The file that holds all nodes** is opened as what it holds. -/
theorem openIn_of_holdsAll {whole : Bulk} (hordered : whole.Ordered) (hclean : whole.dirty = false)
    (hholds : HoldsAll tree whole.nodes) (hlegible : (Storage.bulk whole).Legible) :
    Bulk.openIn tree = .ok { nodes := whole.nodes } := by
  obtain ⟨n, hfile⟩ := hholds
  unfold Bulk.openIn
  rw [FileTree.readJson_of_file hfile (hlegible hclean)]
  dsimp only [Option.getD_some]
  rw [Bulk.ofEntries_values hordered.sorted hordered.own]

/-- **Opened again, a history has the same nodes.** -/
def Reopens : Storage → FileTree → Prop
  | .perNode files, tree => files.deferred = [] ∧ files.Filed tree
  | .bulk whole, tree => ∃ found, Bulk.openIn tree = .ok found ∧
    ∀ id, (Table.find? id found.nodes).map StoredNode.node = (Table.find? id whole.nodes).map StoredNode.node

/-- **What is in its files and does not wait** is there when it is opened again. -/
theorem InFiles.reopens (h : s.InFiles tree) (hflushed : s.Flushed tree) (hlegible : s.Legible) :
    s.Reopens tree := by
  cases s with
  | perNode files => exact ⟨hflushed, h.filed⟩
  | bulk bulk =>
    have hfiled : bulk.Filed tree := h.filed
    obtain ⟨hclean, hholds⟩ := hflushed
    exact ⟨{ nodes := bulk.nodes }, openIn_of_holdsAll hfiled.ordered hclean hholds hlegible, fun _ => rfl⟩

theorem Reopens.of_sameAt (h : s.Reopens tree) (hnodes : ∀ id, SameAt tree tree' (nodePath id))
    (hbulk : SameAt tree tree' bulkPath) : s.Reopens tree' := by
  cases s with
  | perNode files =>
    exact ⟨h.1, fun id stored hstored hwaits => (h.2 id stored hstored hwaits).of_sameAt (hnodes id)⟩
  | bulk bulk =>
    obtain ⟨found, hopen, hsame⟩ := h
    exact ⟨found, (Bulk.openIn_congr hbulk).trans hopen, hsame⟩

/-- Actions are written beside a node, and what would be opened has the same nodes. -/
theorem Reopens.saveActions (h : s.Reopens tree) (htidy : tree.Tidy) (id : Nat) (actions : List Action) :
    (s.saveActions tree id actions).2.2.Tidy ∧
      (s.saveActions tree id actions).2.1.Reopens (s.saveActions tree id actions).2.2 := by
  cases s with
  | perNode files =>
    have hwaits : (files.saveActions tree id actions).2.1.deferred = files.deferred := by
      unfold NodeFiles.saveActions
      split
      · rfl
      · rfl
      · dsimp only
        split <;> rfl
    have hfiles : (Storage.perNode files).InFiles tree := ⟨htidy, h.2⟩
    obtain ⟨htidy', hfiled⟩ := hfiles.saveActions id actions
    exact ⟨htidy', hwaits.trans h.1, hfiled⟩
  | bulk bulk =>
    obtain ⟨found, hopen, hsame⟩ := h
    refine ⟨htidy, found, hopen, fun m => (hsame m).trans ?_⟩
    exact (Except.ok.inj (get_saveActions (.bulk bulk) tree id actions m)).symm

/-- **A history is opened again.** -/
theorem Reopens.openIn (h : s.Reopens tree) (htidy : tree.Tidy) (hlegible : s.Legible)
    (hopen : Storage.openIn s.kind tree = .ok (s', tree')) : tree'.Tidy ∧ s'.kind = s.kind ∧
      s'.Reopens tree' ∧ (∀ id, s'.get tree' id = s.get tree id) ∧
      ∀ path, path ≠ nodeDirectory → SameAt tree tree' path := by
  cases s with
  | bulk bulk =>
    obtain ⟨found, hfound, hsame⟩ := h
    rcases openIn_eq_ok hopen with ⟨hno, _, _⟩ | ⟨_, rfl, whole, hwhole, rfl⟩
    · cases hno
    · obtain rfl : found = whole := Except.ok.inj (hfound.symm.trans hwhole)
      refine ⟨htidy, rfl, ⟨found, hfound, fun _ => rfl⟩, fun id => ?_, fun _ _ => rfl⟩
      rw [get_bulk, get_bulk, hsame]
  | perNode files =>
    rcases openIn_eq_ok hopen with ⟨_, rfl, rfl⟩ | ⟨hno, _⟩
    case inr => cases hno
    have hdirectories : ∀ p ∈ nodeDirectory.ancestors ++ [nodeDirectory], p = nodeDirectory :=
      fun p hp => List.mem_singleton.mp hp
    obtain ⟨htree, hothers⟩ := htidy.addDirectories hdirectories
    refine ⟨htree, rfl, ⟨rfl, fun id stored hno => (by cases hno)⟩, fun id => ?_, hothers⟩
    -- nothing is in memory now, so what was there is read from its file
    have hread : ({} : NodeFiles).read
        (tree.addDirectories (nodeDirectory.ancestors ++ [nodeDirectory])) id = files.read tree id := by
      have hfile := hothers (nodePath id) (home_nodePath id).ne
      cases hcached : Table.find? id files.cache with
      | some stored =>
        have hwaits : Table.find? id files.deferred = none := by
          rw [h.1]
          rfl
        obtain ⟨n, hholds⟩ := (h.2 id stored hcached hwaits).of_sameAt hfile
        rw [NodeFiles.read_of_cached hcached]
        exact FileTree.readJson_of_file hholds (hlegible id stored hcached hwaits)
      | none =>
        unfold NodeFiles.read
        rw [hcached]
        exact FileTree.readJson_congr (htidy.read_congr htree (home_nodePath id).toPlace hfile)
    rw [get_files, get_files, hread]

end Storage

end History

/-! ## Archives -/

namespace Archive

variable {a b c : Archive} {r record : Record}

/-- The file of the record reads as a record. -/
def ReadsRecord (a : Archive) (record : Record) : Prop :=
  ∃ n text, Table.find? recordPath a.tree.entries = some (.file n text) ∧
    (Json.document? text).bind Record.ofDocument? = some record

/-- **What a load finds** in an archive: this record, and a history with the same nodes. -/
structure Reloads (a : Archive) (record : Record) : Prop where
  tidy : a.tree.Tidy
  reads : a.ReadsRecord record
  kind : a.history.kind = record.storage
  reopens : a.history.Reopens a.tree

theorem ReadsRecord.of_sameAt (h : a.ReadsRecord record) (hsame : SameAt a.tree b.tree recordPath) :
    b.ReadsRecord record := by
  obtain ⟨n, text, hfile, hread⟩ := h
  exact ⟨n, text, Eq.trans hsame hfile, hread⟩

theorem HoldsRecord.reads (h : a.HoldsRecord record) (hreads : record.ReadsBack) : a.ReadsRecord record := by
  obtain ⟨n, hfile⟩ := h
  exact ⟨n, _, hfile, hreads⟩

/-- A record whose file can be read is the one that is loaded. -/
theorem ReadsRecord.loads (h : a.ReadsRecord record) : a.loadRecord = .ok record := by
  obtain ⟨n, text, hfile, htext⟩ := h
  unfold loadRecord
  rw [FileTree.readJson_of_file hfile htext]

theorem reads_of_loadRecord (h : a.loadRecord = .ok record) : a.ReadsRecord record := by
  have hread : a.tree.readJson Record.ofDocument? recordPath = .ok (some record) := by
    unfold loadRecord at h
    split at h
    · cases h
    · next heq =>
      cases h
      exact heq
    · cases h
  unfold FileTree.readJson at hread
  split at hread
  · cases hread
  · cases hread
  · next text htext =>
    split at hread
    · next found hfound =>
      cases hread
      unfold FileTree.read at htext
      split at htext
      · next n other hfile =>
        cases htext
        exact ⟨n, text, hfile, hfound⟩
      · cases htext
      · cases htext
    · cases hread

theorem Reloads.log (h : a.Reloads record) (line : String) : (a.log line).Reloads record where
  tidy := by
    have hhome : Home logPath := home_top (by decide) (by decide)
    exact (h.tidy.append hhome.toPlace a.logFile (line ++ "\n")).1
  reads := h.reads.of_sameAt (sameAt_append _ (by decide))
  kind := h.kind
  reopens := h.reopens.of_sameAt (fun id => sameAt_append _ (nodePath_ne_top id "log"))
    (sameAt_append _ (by decide))

theorem Reloads.saveActions (h : a.Reloads record) (id : Nat) (actions : List Action) :
    ((saveActions id actions).after a).Reloads record := by
  have hfile : SameAt a.tree ((Archive.saveActions id actions).after a).tree recordPath :=
    sameAt_historyCall _ a (Storage.sameAt_saveActions aloof_recordPath _ _ id actions)
  obtain ⟨htidy, hreopens⟩ := h.reopens.saveActions h.tidy id actions
  have hreads := h.reads.of_sameAt hfile
  obtain ⟨journal, ⟨e, heq⟩ | heq⟩ :=
    historyCall_cases (.saveActions id) (fun s tree => s.saveActions tree id actions) a
  · rw [Attempt.after, Archive.saveActions, heq]
    exact ⟨h.tidy, h.reads, h.kind, h.reopens⟩
  · rw [Attempt.after, Archive.saveActions, heq] at hreads ⊢
    exact ⟨htidy, hreads, (Storage.kind_saveActions _ _ _ _).trans h.kind, hreopens⟩

/-- The record of an archive can be read, and the nodes that it names. -/
def Readable (a : Archive) : Prop :=
  ∃ record a', a.loadRecord = .ok record ∧ openRecorded record a = (.ok (), a')

/-- A directory is taken over, and its log is opened. -/
theorem openAt_eq_ok {root : String} {tree : FileTree} (htidy : tree.Tidy) (h : openAt root tree = .ok b) :
    b.tree.Tidy ∧ ∀ path, path ≠ logPath → path ≠ nodeDirectory → SameAt tree b.tree path := by
  have hhome : Home logPath := home_top (by decide) (by decide)
  obtain ⟨made, hput, hmade, _, hothers⟩ := htidy.put hhome.toPlace ""
  unfold openAt FileTree.openFile at h
  cases hnumber : tree.number? logPath with
  | some n =>
    rw [hnumber] at h
    cases h
    exact ⟨htidy, fun _ _ _ => rfl⟩
  | none =>
    rw [hnumber, hput] at h
    cases h
    exact ⟨hmade, hothers⟩

/-- A history that is opened. -/
theorem openHistory_eq_ok {kind : StorageKind} (h : openHistory kind b = (.ok (), c)) :
    ∃ history tree, Storage.openIn kind b.tree = .ok (history, tree) ∧
      c = { b with history, tree, isWatched := true } := by
  unfold openHistory at h
  split at h
  · next history tree heq =>
    cases h
    exact ⟨history, tree, heq, rfl⟩
  · cases h

/-- A history that is opened as its record says. -/
theorem openRecorded_eq_ok (h : openRecorded record b = (.ok (), c)) :
    record.flowStart.isSome = true ∧ ∃ history tree,
      Storage.openIn record.storage b.tree = .ok (history, tree) ∧
        c = { b with history, tree, isWatched := true } := by
  obtain ⟨_, opened, hopen, hrest⟩ := Attempt.bind_eq_ok h
  obtain ⟨start, found, hneed, hcheck⟩ := Attempt.bind_eq_ok hrest
  have hfound : record.flowStart.isSome = true ∧ found = opened := by
    unfold Attempt.need at hneed
    cases hstart : record.flowStart with
    | none =>
      rw [hstart] at hneed
      cases hneed
    | some first =>
      rw [hstart] at hneed
      exact ⟨rfl, (congrArg Prod.snd hneed).symm⟩
  obtain ⟨hbegun, rfl⟩ := hfound
  obtain rfl : found = c := congrArg Prod.snd hcheck
  exact ⟨hbegun, openHistory_eq_ok hopen⟩

/-- **A history that was opened is in its files.** -/
theorem inFiles_of_openHistory {kind : StorageKind} (htidy : c.tree.Tidy) (h : openHistory kind b = (.ok (), c)) :
    c.InFiles ∧ c.history.kind = kind := by
  obtain ⟨history, tree, hstorage, rfl⟩ := openHistory_eq_ok h
  obtain ⟨hkind, hfiled⟩ := Storage.filed_openIn hstorage
  exact ⟨⟨htidy, hfiled⟩, hkind⟩

/-- **What is loaded after the end** is what was there at the end. -/
theorem Reloads.load {root : String} (h : a.Reloads r) (hlegible : a.history.Legible)
    (hopen : openAt root a.tree = .ok b) (hread : b.loadRecord = .ok record)
    (hhistory : openRecorded record b = (.ok (), c)) :
    record = r ∧ c.Reloads r ∧ ∀ n, c.history.get c.tree n = a.history.get a.tree n := by
  obtain ⟨htidy, hothers⟩ := openAt_eq_ok h.tidy hopen
  have hreads : b.ReadsRecord r := h.reads.of_sameAt (hothers _ (by decide) (by decide))
  have hnodes : ∀ id, SameAt a.tree b.tree (nodePath id) := fun id =>
    hothers _ (nodePath_ne_top id "log") (home_nodePath id).ne
  have hreopens : a.history.Reopens b.tree :=
    h.reopens.of_sameAt hnodes (hothers _ (by decide) (by decide))
  obtain rfl : r = record := Except.ok.inj (hreads.loads.symm.trans hread)
  obtain ⟨_, history, tree, hopens, rfl⟩ := openRecorded_eq_ok hhistory
  rw [← h.kind] at hopens
  obtain ⟨htree, hkind, hagain, hget, hpaths⟩ := hreopens.openIn htidy hlegible hopens
  refine ⟨rfl, ⟨htree, ?_, hkind.trans h.kind, hagain⟩, fun n => ?_⟩
  · obtain ⟨m, text, hfile, htext⟩ := hreads
    exact ⟨m, text, Eq.trans (hpaths _ (by decide)) hfile, htext⟩
  · refine (hget n).trans (Storage.get_congr_tree a.history (fun id => ?_) n)
    exact h.tidy.read_congr htidy (home_nodePath id).toPlace (hnodes id)

end Archive

/-! ## Executions -/

namespace Execution

variable {w x y z : Execution} {r : Record}

theorem Late.reloads (hlate : Late x y) (h : x.archive.Reloads r) : y.archive.Reloads r := by
  cases hlate with
  | aside haside =>
    rw [haside.archive]
    exact h
  | logged line => exact h.log line
  | attached node actions => exact h.saveActions node actions
  | remembered name source => exact h
  | refuses refuse => exact ⟨h.tidy, h.reads, h.kind, h.reopens⟩

theorem Lingers.reloads (hlingers : Lingers x y) (h : x.archive.Reloads r) : y.archive.Reloads r := by
  unfold Lingers at hlingers
  induction hlingers with
  | refl => exact h
  | tail _ hlate ih => exact hlate.reloads ih

/-- **What an execution holds reads back**: its record, and its history as far as it was written. -/
structure Legible (x : Execution) : Prop where
  record : x.record.ReadsBack
  history : x.archive.history.Legible

/-- **What operations and loads lead to**, in any order and number. A load is one whose history is
readable: what was written reads as what it is, and the nodes that the record names are there. -/
inductive Later (y : Execution) : Execution → Prop where
  | here : Later y y
  | performed {w : Execution} (h : Later y w) (operation : Operation) (hallowed : w.Allows operation) :
    Later y (w.perform operation)
  | loaded {w z : Execution} {engine : Engine} {name root : String} {archive archive' : Archive}
    {clock : Timestamp} {now : Nat} (h : Later y w) (hlegible : w.archive.history.Legible)
    (hopen : Archive.openAt root w.archive.tree = .ok archive) (hreadable : archive.Readable)
    (hload : load engine name archive clock now = (.ok z, archive')) : Later y z

/-- **Nothing that comes later**, loads included, changes how an execution went. -/
theorem Later.frozen (h : Later y w) (hover : Over y) (hreloads : y.archive.Reloads y.record) :
    Frozen y w ∧ Over w ∧ w.archive.Reloads y.record := by
  induction h with
  | here => exact ⟨.refl y, hover, hreloads⟩
  | performed _ operation hallowed ih =>
    obtain ⟨hfrozen, hover, hreloads⟩ := ih
    obtain ⟨hlingers, hover'⟩ := hover.perform hallowed
    exact ⟨hfrozen.trans (.lingers hlingers), hover', hlingers.reloads hreloads⟩
  | @loaded w z engine name root archive archive' clock now _ hlegible hopen hreadable hload ih =>
    obtain ⟨hfrozen, _, hreloads⟩ := ih
    obtain ⟨record, opened, hread, hhistory⟩ := hreadable
    obtain ⟨hsame, hreloads', hget⟩ := hreloads.load hlegible hopen hread hhistory
    subst hsame
    obtain ⟨found, record, hread', hrecover, rfl⟩ := load_eq_ok hload
    obtain rfl : y.record = found := Except.ok.inj (hread.symm.trans hread')
    rw [recoverHistory_of_opened hhistory] at hrecover
    cases hrecover
    -- what is read is done, and resumed it stays as it is
    let read : Execution := { engine, name, archive := archive', record := y.record,
                              paused := y.record.paused, now, clock }
    have hread : Over read := ⟨⟨by simp [read], rfl⟩, hover.done, rfl⟩
    have hallowed : read.Allows .resume := ⟨rfl, (Archive.openRecorded_eq_ok hhistory).1⟩
    obtain ⟨hlingers, hover'⟩ := hread.perform hallowed
    have hfirst : Frozen y read := .of_node rfl fun n => (Archive.node_congr (hget n)).trans (hfrozen.node n)
    exact ⟨hfirst.trans (.lingers hlingers), hover', hlingers.reloads hreloads'⟩

end Execution

end DurableFlow
