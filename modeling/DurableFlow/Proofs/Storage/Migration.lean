/-
Moving the history into one file.

At the end of an execution its node files are copied into one file, and the archive changes over to the
copy when that file is written. What is copied is what can be listed, so a move that succeeds loses
nothing: nodes that wait, nodes that only have a file, actions. A move that fails leaves the node files in
charge, and none of them was touched. Nothing is assumed about the device.

Then the record is saved, and it names the layout that is in charge. Opened in that layout the files hold
the whole history, if every node was secure before the end was written. A node is not secure if the only
request that was to write it failed; no later flush knows of it, and so a move that fails leaves a record
that names files without it. A move that succeeds puts it into the one file.
-/
import DurableFlow.Proofs.History.Ending
import DurableFlow.Proofs.Storage.Failures

set_option autoImplicit false

namespace DurableFlow

open Script Text History FileTree

/-! ## Node files as they come to be -/

namespace History

namespace Storage.Numbered

variable {s s' : Storage} {tree tree' : FileTree}

/-- The same nodes under the same numbers. -/
theorem congr (h : s.Numbered tree) (hget : ∀ m, s'.get tree' m = s.get tree m)
    (hholds : ∀ m, s.holds m = true → s'.holds m = true) : s'.Numbered tree' where
  own hnode := h.own (hget _ ▸ hnode)
  short := by
    intro m node hnode
    exact (h.short (hget m ▸ hnode)).imp_left (hholds m)

/-- One node is replaced, and it stands under its own number. -/
theorem replace (h : s.Numbered tree) {id : Nat} {node : Node} (hown : node.id = id)
    (hself : s'.get tree' id = .ok (some node)) (hheld : s'.holds id = true)
    (hother : ∀ m, m ≠ id → s'.get tree' m = s.get tree m)
    (hholds : ∀ m, s.holds m = true → s'.holds m = true) : s'.Numbered tree' where
  own := by
    intro m found hfound
    by_cases hm : m = id
    · rw [hm, hself] at hfound
      cases hfound
      rw [hown, hm]
    · exact h.own (hother m hm ▸ hfound)
  short := by
    intro m found hfound
    by_cases hm : m = id
    · exact .inl (hm ▸ hheld)
    · exact (h.short (hother m hm ▸ hfound)).imp_left (hholds m)

end Storage.Numbered

namespace NodeFiles

variable {files files' : NodeFiles} {tree : FileTree} {m : Nat}

/-- A node that is not held is not written. -/
theorem read_writeAll_of_absent (habsent : Table.find? m files.cache = none) (tree : FileTree)
    (ids : List Nat) : (files.writeAll tree ids).2.read (nodePath m) = tree.read (nodePath m) := by
  have hwrite : ∀ (tree : FileTree) id,
      (files.write tree id).2.read (nodePath m) = tree.read (nodePath m) := by
    intro tree id
    by_cases hid : m = id
    · rw [← hid, write, habsent]
    · exact files.read_write tree id hid
  induction ids generalizing tree with
  | nil => rfl
  | cons id rest ih =>
    have hfirst := hwrite tree id
    unfold writeAll
    split
    · next heq =>
      rw [heq] at hfirst
      exact (ih _).trans hfirst
    · next heq =>
      rw [heq] at hfirst
      exact hfirst

/-- **Writing changes no answer.** -/
theorem read_writeAll (hcache : Table.find? m files'.cache = Table.find? m files.cache) (tree : FileTree)
    (ids : List Nat) : files'.read (files'.writeAll tree ids).2 m = files.read tree m :=
  read_congr hcache fun habsent => read_writeAll_of_absent (hcache.trans habsent) tree ids

/-- **Node files in good order**: what is held is sorted, and every node stands under its own number. -/
structure Orderly (files : NodeFiles) (tree : FileTree) : Prop where
  sorted : Table.Sorted files.cache
  numbered : (Storage.perNode files).Numbered tree

/-- **Whatever is asked of node files**, and whichever writes fail, they stay in good order. -/
theorem Orderly.ask (h : files.Orderly tree) (request : Request) : ∃ files' tree',
    (Opened.ask { storage := .perNode files, tree } request).2 =
        { storage := .perNode files', tree := tree' } ∧ files'.Orderly tree' := by
  obtain ⟨files', hturns, hask, _⟩ := files.ask_turns tree request
  refine ⟨files', _, hask, ?_⟩
  have hsame : ∀ m, Table.find? m files'.cache = Table.find? m files.cache →
      (Storage.perNode files').get (files'.writeAll tree (files.toWrite tree request)).2 m =
        (Storage.perNode files).get tree m := by
    intro m hheld
    have hread := read_writeAll hheld tree (files.toWrite tree request)
    rw [Storage.get_files, Storage.get_files, hread]
  rcases hturns.cache with hcache | ⟨id, stored, hreplaces, hcache, hgiven⟩
  · have hget := fun m => hsame m (by rw [hcache])
    refine ⟨hcache ▸ h.sorted, h.numbered.congr hget fun m hheld => ?_⟩
    rw [Storage.holds, hcache]
    exact hheld
  · have hother := fun m (hm : m ≠ id) => hsame m (by rw [hcache, Table.find?_insert_of_ne hm])
    have hself : (Storage.perNode files').get (files'.writeAll tree (files.toWrite tree request)).2 id =
        .ok (some stored.node) := by
      rw [Storage.get_files, read_of_cached (hcache ▸ Table.find?_insert_self id stored files.cache)]
      rfl
    -- the node that is replaced was given under its number, or it is the one that was there
    have hown : stored.node.id = id := by
      cases request with
      | store node defer =>
        rw [hgiven node defer rfl]
        exact Option.some.inj hreplaces
      | saveActions other actions =>
        obtain rfl : other = id := Option.some.inj hreplaces
        have hkept := Storage.get_saveActions (.perNode files) tree other actions other
        have hstorage := congrArg History.Opened.storage hask
        have htree := congrArg History.Opened.tree hask
        simp only [Opened.ask] at hstorage htree
        rw [hstorage, htree, hself] at hkept
        exact h.numbered.own hkept.symm
      | autopersist other => cases hreplaces
      | flush => cases hreplaces
      | get other => cases hreplaces
      | node other => cases hreplaces
      | actions other => cases hreplaces
      | nodes => cases hreplaces
    have hheld : (Storage.perNode files').holds id = true := by
      rw [Storage.holds, hcache]
      exact Storage.contains_insert_self _ _ _
    refine ⟨hcache ▸ h.sorted.insert id stored, h.numbered.replace hown hself hheld hother fun m hholds => ?_⟩
    by_cases hm : m = id
    · exact hm ▸ hheld
    · rw [Storage.holds, hcache, Table.contains, Table.find?_insert_of_ne hm]
      exact hholds

/-- **Several requests** leave node files in good order. -/
theorem Orderly.run (h : files.Orderly tree) (requests : List Request) : ∃ files' tree',
    (Opened.run { storage := .perNode files, tree } requests).2 =
        { storage := .perNode files', tree := tree' } ∧ files'.Orderly tree' := by
  induction requests generalizing files tree with
  | nil => exact ⟨files, tree, rfl, h⟩
  | cons request rest ih =>
    obtain ⟨files', tree', hask, horderly⟩ := h.ask request
    have hrest := ih horderly
    rw [← hask] at hrest
    exact hrest

end NodeFiles

end History

/-! ## The move -/

namespace Archive

variable {a b : Archive} {files : NodeFiles} {nodes : List Node} {bulk : Bulk} {id : Nat}

/-- **One archive answers as another does**: under every number that a name can say or that is held in
memory, and when it lists its nodes. -/
structure AnswersAs (b a : Archive) : Prop where
  read : ∀ id, a.history.holds id = true ∨ id < Json.wordBound →
    b.history.read b.tree id = a.history.read a.tree id
  nodes : b.nodes = a.nodes

/-- **The copy answers as the node files do.** -/
theorem Copying.answersAs (hhistory : a.history = .perNode files) (hfiles : files.Orderly a.tree)
    (hnodes : a.nodes = .ok nodes) (h : Copying a bulk []) (hordered : bulk.Ordered)
    (hcopied : b.history = .bulk { bulk with dirty := false }) : b.AnswersAs a := by
  have hlisted : files.nodes a.tree = .ok nodes := by
    unfold Archive.nodes at hnodes
    rw [hhistory] at hnodes
    exact hnodes
  have hfind : ∀ id found, files.read a.tree id = .ok found → found = Table.find? id bulk.nodes := by
    intro id found hread
    refine h.find?_eq ?_
    rw [hhistory]
    exact hread
  obtain ⟨ids, stored, hall, rfl, hsorted, hothers⟩ := nodes_eq_ok hlisted
  constructor
  · intro id hid
    rw [hhistory] at hid
    obtain ⟨found, hread⟩ : ∃ found, files.read a.tree id = .ok found := by
      rcases hothers id hid with hmem | hnone
      · exact NodeFiles.read_of_readAll hall hmem
      · exact ⟨none, hnone⟩
    rw [hcopied, hhistory]
    show Except.ok (Table.find? id bulk.nodes) = files.read a.tree id
    rw [hread, hfind id found hread]
  · -- what is listed is read in the order of the numbers, and so the copy holds it
    have hvalues : stored = Table.values bulk.nodes := by
      obtain ⟨found, hreads, rfl⟩ := NodeFiles.readAll_eq_ok hall
      rw [List.filterMap_congr fun id hid => hfind id _ (hreads id hid)]
      refine hordered.sorted.filterMap_find? (hsorted hfiles.sorted) fun id hkey => ?_
      obtain ⟨one, hone⟩ := Option.isSome_iff_exists.mp (Table.mem_keys.mp hkey)
      have hread : files.read a.tree id = .ok (some one) := by
        have hcopy := h.copied hone
        rw [hhistory] at hcopy
        exact hcopy
      have hget := Storage.get_of_read (s := .perNode files) hread
      refine (hothers id (hfiles.numbered.short hget)).resolve_right fun hnone => ?_
      cases hread.symm.trans hnone
    rw [hnodes, hvalues]
    unfold Archive.nodes
    rw [hcopied]
    rfl

/-- A move that succeeds has made a copy and written it. -/
theorem migrate_eq_ok (hmoved : migrate a = (.ok (), b)) : ∃ journal nodes bulk, a.nodes = .ok nodes ∧
    copyInto { a with journal } .fresh nodes = .ok bulk ∧ bulk.Ordered ∧
      b.history = .bulk { bulk with dirty := false } ∧ Storage.HoldsAll b.tree bulk.nodes := by
  obtain ⟨journal, ⟨e, heq⟩ | ⟨nodes, bulk, hnodes, hcopy, heq⟩⟩ := migrate_eq a
  · rw [heq] at hmoved
    cases hmoved
  · obtain ⟨hordered, hdirty⟩ := ordered_copyInto hcopy Bulk.ordered_fresh rfl
    refine ⟨journal, nodes, bulk, hnodes, hcopy, hordered, ?_⟩
    rcases bulk.flush_cases a.tree with ⟨hclean, _⟩ | ⟨_, ⟨tree, hflush, hholds⟩ | ⟨e, tree, hflush⟩⟩
    · rw [hdirty] at hclean
      cases hclean
    · rw [heq, hflush] at hmoved
      cases hmoved
      exact ⟨rfl, hholds⟩
    · rw [heq, hflush] at hmoved
      cases hmoved

/-- **A move that succeeds keeps the history**: every node with its actions, also those that waited and
those that only had a file. -/
theorem answersAs_of_migrate (hhistory : a.history = .perNode files) (hfiles : files.Orderly a.tree)
    (hmoved : migrate a = (.ok (), b)) : b.AnswersAs a := by
  obtain ⟨journal, nodes, bulk, hnodes, hcopy, hordered, hcopied, _⟩ := migrate_eq_ok hmoved
  let noted : Archive := { a with journal }
  have hnumbered : noted.history.Numbered noted.tree := by
    show a.history.Numbered a.tree
    rw [hhistory]
    exact hfiles.numbered
  have hcopying : Copying noted bulk [] := copying_of_copyInto hhistory hnumbered hnodes hcopy
  have hanswers : b.AnswersAs noted := hcopying.answersAs hhistory hfiles hnodes hordered hcopied
  exact ⟨hanswers.read, hanswers.nodes⟩

/-- **The file that a move has written** is opened with the same history, if its text reads as what it was
written from. -/
theorem openIn_of_migrate (hmoved : migrate a = (.ok (), b)) (hlegible : b.history.Legible) :
    ∃ storage, Storage.openIn .bulk b.tree = .ok (storage, b.tree) ∧
      ∀ c : Archive, c.history = storage → c.AnswersAs b := by
  obtain ⟨_, _, bulk, _, _, hordered, hcopied, hholds⟩ := migrate_eq_ok hmoved
  rw [hcopied] at hlegible
  have hopen := Storage.openIn_of_holdsAll hordered.written rfl hholds hlegible
  refine ⟨.bulk { nodes := bulk.nodes }, Storage.openIn_bulk hopen, fun c hopened => ⟨fun id _ => ?_, ?_⟩⟩
  · rw [hcopied, hopened]
    rfl
  · unfold Archive.nodes
    rw [hcopied, hopened]
    rfl

/-- A move that fails leaves the node files in charge. -/
theorem history_of_migrate_error {e : EngineError} (hfailed : migrate a = (.error e, b)) :
    b.history = a.history := by
  obtain ⟨journal, ⟨e, heq⟩ | ⟨nodes, bulk, _, _, heq⟩⟩ := migrate_eq a
  · rw [heq] at hfailed
    cases hfailed
    rfl
  · rw [heq, migrated] at hfailed
    split at hfailed
    · cases hfailed
    · cases hfailed
      rfl

/-- **No node file is touched** by writing one file for all. -/
theorem leaves_flush (bulk : Bulk) (tree : FileTree) :
    (∀ id, SameAt tree (bulk.flush tree).2.2 (nodePath id)) ∧
      (bulk.flush tree).2.2.isFile nodeDirectory = tree.isFile nodeDirectory := by
  let json := Json.arr ((Table.values bulk.nodes).map StoredNode.toJson)
  have hapart : ∀ id, bulkPath.Apart (nodePath id) := fun id =>
    ⟨nodePath_ne_top id _, nodePath_ne_top id _, List.not_mem_nil⟩
  have hnodes : ∀ id, SameAt tree (tree.writeJson bulkPath json).2 (nodePath id) :=
    fun id => sameAt_writeJson (hapart id) json
  have hdirectory : (tree.writeJson bulkPath json).2.isFile nodeDirectory = tree.isFile nodeDirectory :=
    isFile_writeJson json (by decide) (by decide)
  unfold Bulk.flush
  split
  · split
    · next heq =>
      rw [heq] at hdirectory
      simp only [json, heq] at hnodes
      exact ⟨hnodes, hdirectory⟩
    · next heq =>
      rw [heq] at hdirectory
      simp only [json, heq] at hnodes
      exact ⟨hnodes, hdirectory⟩
  · exact ⟨fun _ => rfl, rfl⟩

/-- **No node file is touched** by a move, whether it succeeds or not. -/
theorem leaves_migrate (a : Archive) : (∀ id, SameAt a.tree (migrate a).2.tree (nodePath id)) ∧
    (migrate a).2.tree.isFile nodeDirectory = a.tree.isFile nodeDirectory := by
  obtain ⟨journal, ⟨e, heq⟩ | ⟨nodes, bulk, _, _, heq⟩⟩ := migrate_eq a
  · rw [heq]
    exact ⟨fun _ => rfl, rfl⟩
  · have hleaves := leaves_flush bulk a.tree
    rw [heq, migrated]
    split
    · exact hleaves
    · exact hleaves

end Archive

/-! ## What the files hold at the end -/

namespace Archive

variable {a b : Archive}

/-- What is in memory and what is in the files. -/
def opened (a : Archive) : Opened := { storage := a.history, tree := a.tree }

/-- **The history is safe**: every node waits to be written, or it is in its file. -/
structure Safe (a : Archive) : Prop where
  order : a.opened.InOrder
  secure : ∀ id, a.opened.Secure id

/-- **The files hold the history**: it is safe, and nothing waits. -/
structure Complete (a : Archive) : Prop extends Safe a where
  settled : a.opened.Settled

/-- **A flush that succeeds** leaves nothing that waits. -/
theorem settled_of_flush (h : Archive.flush a = (.ok (), b)) : b.opened.Settled := by
  obtain ⟨journal, ⟨e, heq⟩ | heq⟩ := historyCall_cases .flush Storage.flush a
  · rw [Archive.flush, heq] at h
    cases h
  · rw [Archive.flush, heq] at h
    obtain ⟨hok, rfl⟩ := Prod.mk.inj h
    have hdone : ¬ (a.opened.ask .flush).1.IsFailure := by
      show ¬ (Answer.done (a.history.flush a.tree).1).IsFailure
      rw [hok]
      exact id
    exact Opened.settled_of_flush hdone

/-- A call that succeeds is a request that does not fail. -/
theorem Safe.call {call : ArchiveCall} {f : Storage → FileTree → EngineResult Unit × Storage × FileTree}
    (h : a.Safe) (request : Request)
    (hask : a.opened.ask request = (.done (f a.history a.tree).1,
      { storage := (f a.history a.tree).2.1, tree := (f a.history a.tree).2.2 }))
    (hcall : historyCall call f a = (.ok (), b)) :
    b.Safe ∧ ¬ (a.opened.ask request).1.IsFailure ∧ b.opened = (a.opened.ask request).2 := by
  obtain ⟨journal, ⟨e, heq⟩ | heq⟩ := historyCall_cases call f a
  · rw [heq] at hcall
    cases hcall
  · rw [heq] at hcall
    obtain ⟨hok, rfl⟩ := Prod.mk.inj hcall
    have hdone : ¬ (a.opened.ask request).1.IsFailure := by
      rw [hask, hok]
      exact id
    have hopened : (a.opened.ask request).2 =
        { storage := (f a.history a.tree).2.1, tree := (f a.history a.tree).2.2 } := by rw [hask]
    refine ⟨⟨?_, fun id => ?_⟩, hdone, hopened.symm⟩
    · have horder := h.order.ask request
      rw [hopened] at horder
      exact horder
    · have hsecure := (h.secure id).ask h.order fun hfailed => absurd hfailed hdone
      rw [hopened] at hsecure
      exact hsecure

theorem Safe.store (h : a.Safe) {node : Node} {defer : Bool} (hstore : store node defer a = (.ok (), b)) :
    b.Safe ∧ b.history.kind = a.history.kind := by
  obtain ⟨hsafe, _, hopened⟩ := h.call (.store node defer) rfl hstore
  refine ⟨hsafe, ?_⟩
  have hstorage : b.history = (a.history.store a.tree node defer).2.1 := congrArg Opened.storage hopened
  rw [hstorage, Storage.kind_store]

/-- **A flush that succeeds** leaves all of a safe history in its files. -/
theorem Safe.flush (h : a.Safe) (hflush : flush a = (.ok (), b)) :
    b.Complete ∧ b.history.kind = a.history.kind := by
  obtain ⟨hsafe, _, hopened⟩ := h.call .flush rfl hflush
  refine ⟨⟨hsafe, settled_of_flush hflush⟩, ?_⟩
  have hstorage : b.history = (a.history.flush a.tree).2.1 := congrArg Opened.storage hopened
  rw [hstorage, Storage.kind_flush]

/-- Node files that hold the history hold it when they are the same. -/
theorem Complete.of_sameAt (h : a.Complete) (hhistory : b.history = a.history)
    (hnodes : ∀ id, SameAt a.tree b.tree (nodePath id))
    (hdirectory : b.tree.isFile nodeDirectory = a.tree.isFile nodeDirectory)
    (hbulk : a.history.kind = .bulk → SameAt a.tree b.tree bulkPath) : b.Complete := by
  obtain ⟨⟨horder, hsecure⟩, hsettled⟩ := h
  obtain ⟨root, tree, logFile, history⟩ := a
  obtain ⟨root', tree', logFile', history'⟩ := b
  obtain rfl : history' = history := hhistory
  cases history' with
  | perNode files =>
    refine ⟨⟨⟨horder.1, hdirectory.trans horder.2⟩, fun id => ?_⟩, hsettled⟩
    rcases hsecure id with hwaits | hholds
    · exact .inl hwaits
    · exact .inr fun stored hstored => (hholds stored hstored).of_sameAt (hnodes id)
  | bulk whole =>
    refine ⟨⟨horder, fun id => ?_⟩, hsettled⟩
    rcases hsecure id with hdirty | ⟨n, hfile⟩ | hopen
    · exact .inl hdirty
    · exact .inr (.inl ⟨n, Eq.trans (hbulk rfl) hfile⟩)
    · exact .inr (.inr ((Bulk.openIn_congr (hbulk rfl)).trans hopen))

/-- **A move leaves the history in its files**, in the layout that it ends in. -/
theorem Complete.migrate (h : a.Complete) (hkind : a.history.kind = .perNode) :
    (Archive.migrate a).2.Complete := by
  obtain ⟨result, b, hmove⟩ : ∃ result b, Archive.migrate a = (result, b) := ⟨_, _, rfl⟩
  obtain ⟨hnodes, hdirectory⟩ := leaves_migrate a
  rw [hmove] at hnodes hdirectory ⊢
  cases result with
  | error e =>
    refine h.of_sameAt (history_of_migrate_error hmove) hnodes hdirectory fun hbulk => ?_
    rw [hkind] at hbulk
    cases hbulk
  | ok =>
    obtain ⟨_, _, bulk, _, _, hordered, hcopied, hholds⟩ := migrate_eq_ok hmove
    obtain ⟨root, tree, logFile, history⟩ := b
    obtain rfl : history = .bulk { bulk with dirty := false } := hcopied
    exact ⟨⟨hordered.written, fun _ => .inr (.inl hholds)⟩, rfl⟩

/-- Saving the record leaves the history in its files. -/
theorem Complete.saveRecord (h : a.Complete) (record : Record) : (Archive.saveRecord record a).2.Complete := by
  have hnodes : ∀ id, recordPath.Apart (nodePath id) := fun id =>
    ⟨nodePath_ne_top id _, nodePath_ne_top id _, List.not_mem_nil⟩
  refine h.of_sameAt (history_saveRecord record a) (fun id => sameAt_saveRecord (hnodes id) record a) ?_
    fun _ => sameAt_saveRecord apart_record_bulk record a
  obtain ⟨journal, ⟨e, heq⟩ | heq⟩ := onTree_cases .saveRecord (·.writeJson recordPath record.toJson) a
  · rw [Archive.saveRecord, heq]
  · rw [Archive.saveRecord, heq]
    exact isFile_writeJson record.toJson (by decide) (by decide)

/-- **Files that hold the history are opened with all of it**, in the layout that is in charge, if what was
written can be read back. -/
theorem Complete.openIn (h : a.Complete) (hlegible : a.history.Legible) : ∃ storage tree,
    Storage.openIn a.history.kind a.tree = .ok (storage, tree) ∧
      ∀ id, storage.read tree id = a.history.read a.tree id := by
  obtain ⟨storage, tree, hopen, _⟩ := (h.secure 0).reopened h.order h.settled hlegible
  refine ⟨storage, tree, hopen, fun id => ?_⟩
  obtain ⟨storage', tree', hopen', hread⟩ := (h.secure id).reopened h.order h.settled hlegible
  obtain ⟨rfl, rfl⟩ := Prod.mk.inj (Except.ok.inj (hopen.symm.trans hopen'))
  exact hread

end Archive

/-! ## Executions -/

namespace Execution

variable {x y : Execution}

/-- **What a move at the end comes to**: all of the history is in one file, and the record says so, or the
record, the node files and what is held of them are as they were. -/
theorem migrateHistory_keeps {files : NodeFiles} (hhistory : x.archive.history = .perNode files)
    (hfiles : files.Orderly x.archive.tree) :
    (x.migrateHistory.record.storage = .bulk ∧ x.migrateHistory.archive.history.kind = .bulk ∧
        x.migrateHistory.archive.AnswersAs x.archive) ∨
      x.migrateHistory.record = x.record ∧ x.migrateHistory.archive.history = x.archive.history ∧
        ∀ id, SameAt x.archive.tree x.migrateHistory.archive.tree (nodePath id) := by
  rcases x.migrateHistory_cases with hsame | ⟨_, ⟨a, hmove, heq⟩ | ⟨e, a, hmove, heq⟩⟩
  · rw [hsame]
    exact .inr ⟨rfl, rfl, fun _ => rfl⟩
  · rw [heq]
    obtain ⟨_, _, bulk, _, _, _, hcopied, _⟩ := Archive.migrate_eq_ok hmove
    refine .inl ⟨rfl, ?_, Archive.answersAs_of_migrate hhistory hfiles hmove⟩
    show a.history.kind = .bulk
    rw [hcopied]
    rfl
  · rw [heq]
    have hleaves := (Archive.leaves_migrate x.archive).1
    rw [hmove] at hleaves
    exact .inr ⟨rfl, Archive.history_of_migrate_error hmove, hleaves⟩

/-- An execution whose first node waits to be written. -/
def withWaitingStart : Execution :=
  let files : History.Opened := { storage := .perNode {}, tree := { entries := [(nodeDirectory, .directory)] } }
  let opened := (files.ask (.store History.Opened.waitingStart true)).2
  { engine := { steps := Step.standard }, name := "flow", clock := ⟨0⟩
    archive := { history := opened.storage, tree := opened.tree }
    record := Record.fresh "flow" "Script1" "" .survivableNonatomic false ⟨0⟩ }

/-- The node is moved along. -/
theorem migrateHistory_keeps_waiting :
    ∃ files, withWaitingStart.archive.history = .perNode files ∧ files.Orderly withWaitingStart.archive.tree ∧
      withWaitingStart.migrateHistory.archive.history.kind = .bulk ∧
      withWaitingStart.migrateHistory.archive.AnswersAs withWaitingStart.archive := by
  let bare : FileTree := { entries := [(nodeDirectory, .directory)] }
  have hempty : NodeFiles.Orderly {} bare := by
    have hnone : ∀ id, (Storage.perNode {}).get bare id = .ok none := fun id => by
      have habsent : Table.find? (nodePath id) bare.entries = none :=
        (Table.find?_cons _ _ _ _).trans (if_neg (home_nodePath id).ne)
      have hplace : bare.isFile nodeDirectory = false := rfl
      rw [Storage.get_files, show NodeFiles.read {} bare id = _ from NodeFiles.readJson_absent hplace habsent]
      rfl
    refine ⟨.nil, ⟨fun {id node} hnode => ?_, fun {id node} hnode => ?_⟩⟩
    · cases (hnone id).symm.trans hnode
    · cases (hnone id).symm.trans hnode
  obtain ⟨files, tree, hask, hfiles⟩ := hempty.ask (.store History.Opened.waitingStart true)
  have hhistory : withWaitingStart.archive.history = .perNode files := congrArg History.Opened.storage hask
  have htree : withWaitingStart.archive.tree = tree := congrArg History.Opened.tree hask
  have hmoved : withWaitingStart.migrateHistory.archive.history.kind = .bulk := by decide +kernel
  refine ⟨files, hhistory, htree ▸ hfiles, hmoved, ?_⟩
  rcases migrateHistory_keeps hhistory (htree ▸ hfiles) with ⟨_, _, hanswers⟩ | ⟨_, hstays, _⟩
  · exact hanswers
  · rw [hstays, hhistory] at hmoved
    cases hmoved

/-- **The history is safe, and the record names its layout.** -/
structure Safe (x : Execution) : Prop where
  archive : x.archive.Safe
  kind : x.archive.history.kind = x.record.storage

/-- **The files hold the history, and the record names their layout.** -/
structure Complete (x : Execution) : Prop where
  archive : x.archive.Complete
  kind : x.archive.history.kind = x.record.storage

theorem Safe.store (h : Safe x) {node : Node} {defer : Bool}
    (hstore : onArchive (Archive.store node defer) x = (.ok (), y)) : Safe y := by
  have hon : onArchive (Archive.store node defer) x = ((Archive.store node defer x.archive).1,
    { x with archive := (Archive.store node defer x.archive).2 }) := rfl
  rw [hon] at hstore
  obtain ⟨hok, rfl⟩ := Prod.mk.inj hstore
  obtain ⟨hsafe, hkind⟩ := h.archive.store (Prod.ext hok rfl)
  exact ⟨hsafe, hkind.trans h.kind⟩

/-- The first node is written if there is none. -/
theorem Safe.ensureStart (h : Safe x) {start : Nat} (hstart : ensureStart x = (.ok start, y)) : Safe y := by
  cases hbegun : x.record.flowStart with
  | some first =>
    rw [ensureStart_eq hbegun] at hstart
    cases hstart
    exact h
  | none =>
    obtain ⟨record, _, hread, hrest⟩ := Attempt.bind_eq_ok hstart
    cases hread
    rw [hbegun] at hrest
    obtain ⟨id, allocated, hallocate, hrest⟩ := Attempt.bind_eq_ok hrest
    cases hallocate
    obtain ⟨now, clocked, hclock, hrest⟩ := Attempt.bind_eq_ok hrest
    cases hclock
    obtain ⟨_, stored, hstore, hrest⟩ := Attempt.bind_eq_ok hrest
    obtain ⟨_, _, hupdate, hrest⟩ := Attempt.bind_eq_ok hrest
    cases hupdate
    cases hrest
    have hallocated : Safe { x with record := x.record.allocateNode.2 } := ⟨h.archive, h.kind⟩
    have hstored := hallocated.store hstore
    exact ⟨hstored.archive, hstored.kind⟩

/-- The last node is written. -/
theorem Safe.writeEndNode (h : Safe x) {error : Option Failure}
    (hnode : writeEndNode error x = (.ok (), y)) : Safe y := by
  obtain ⟨start, begun, hstart, hrest⟩ := Attempt.bind_eq_ok hnode
  have hbegun := h.ensureStart hstart
  obtain ⟨record, _, hread, hrest⟩ := Attempt.bind_eq_ok hrest
  cases hread
  obtain ⟨head, headed, hhead, hrest⟩ := Attempt.bind_eq_ok hrest
  have hheaded : Safe headed := by
    unfold lastHead at hhead
    split at hhead
    · cases hhead
      exact hbegun
    · cases hhead
      exact ⟨hbegun.archive, hbegun.kind⟩
  obtain ⟨id, allocated, hallocate, hrest⟩ := Attempt.bind_eq_ok hrest
  cases hallocate
  obtain ⟨now, clocked, hclock, hrest⟩ := Attempt.bind_eq_ok hrest
  cases hclock
  obtain ⟨_, stored, hstore, hrest⟩ := Attempt.bind_eq_ok hrest
  cases hrest
  have hallocated : Safe { headed with record := headed.record.allocateNode.2 } :=
    ⟨hheaded.archive, hheaded.kind⟩
  have hstored := hallocated.store hstore
  exact ⟨hstored.archive, hstored.kind⟩

/-- **Moving the history at the end**: the record names the layout that is in charge, and its files hold all
that the files held. -/
theorem Complete.migrateHistory (h : Complete x) : Complete x.migrateHistory := by
  rcases x.migrateHistory_cases with hsame | ⟨hkind, ⟨a, hmove, heq⟩ | ⟨e, a, hmove, heq⟩⟩
  · rw [hsame]
    exact h
  · have hcomplete := h.archive.migrate hkind
    obtain ⟨_, _, bulk, _, _, _, hcopied, _⟩ := Archive.migrate_eq_ok hmove
    rw [hmove] at hcomplete
    rw [heq]
    refine ⟨hcomplete, ?_⟩
    show a.history.kind = .bulk
    rw [hcopied]
    rfl
  · have hcomplete := h.archive.migrate hkind
    rw [hmove] at hcomplete
    rw [heq]
    refine ⟨hcomplete, ?_⟩
    show a.history.kind = x.record.storage
    rw [Archive.history_of_migrate_error hmove, h.kind]

/-- The record is saved, and the files hold the history as before. -/
theorem Complete.save (h : Complete x) (hsave : saveRecord x = (.ok (), y)) : Complete y := by
  obtain ⟨_, touched, htouched, hwrite⟩ := Attempt.bind_eq_ok hsave
  obtain rfl := of_update htouched
  let touched := x.editRecord id
  have hon : writeRecord touched = ((Archive.saveRecord touched.record touched.archive).1,
    { touched with archive := (Archive.saveRecord touched.record touched.archive).2 }) := rfl
  rw [hon] at hwrite
  obtain ⟨_, rfl⟩ := Prod.mk.inj hwrite
  have hhistory : (Archive.saveRecord touched.record touched.archive).2.history = x.archive.history :=
    Archive.history_onTree .saveRecord _ touched.archive
  exact ⟨h.archive.saveRecord _, (congrArg Storage.kind hhistory).trans h.kind⟩

/-- What waits is flushed at the end. -/
theorem Safe.flush (h : Safe x) (hflush : onArchive Archive.flush x = (.ok (), y)) : Complete y := by
  have hon : onArchive Archive.flush x =
    ((Archive.flush x.archive).1, { x with archive := (Archive.flush x.archive).2 }) := rfl
  rw [hon] at hflush
  obtain ⟨hok, rfl⟩ := Prod.mk.inj hflush
  obtain ⟨hcomplete, hkind⟩ := h.archive.flush (Prod.ext hok rfl)
  exact ⟨hcomplete, hkind.trans h.kind⟩

/-- **An end that is written is complete**: the file of the record holds the record, the record names a
layout, and the files of that layout are opened with the whole history, if it was safe before and if what
was written can be read back. -/
theorem Safe.writeEnd (h : Safe x) {result : FlowResult} {error : Option Failure}
    (hwrites : writeEnd result error x = (.ok (), y)) (hlegible : y.archive.history.Legible) :
    y.archive.HoldsRecord y.record ∧ ∃ storage tree,
      Storage.openIn y.record.storage y.archive.tree = .ok (storage, tree) ∧
        ∀ id, storage.read tree id = y.archive.history.read y.archive.tree id := by
  let noted := x.mapRecord fun r => { r.worsen result with error }
  have hnoted : Safe noted := ⟨h.archive, h.kind⟩
  obtain ⟨_, z, hz, hwrites⟩ := Attempt.bind_eq_ok hwrites
  obtain rfl := of_update hz
  obtain ⟨_, ended, hnode, hwrites⟩ := Attempt.bind_eq_ok hwrites
  obtain ⟨_, flushed, hflush, hwrites⟩ := Attempt.bind_eq_ok hwrites
  have hmigrated := ((hnoted.writeEndNode hnode).flush hflush).migrateHistory
  obtain ⟨_, moved, hmoved, hwrites⟩ := Attempt.bind_eq_ok hwrites
  rw [of_update hmoved] at hmigrated
  obtain ⟨_, settled, hsettled, hsave⟩ := Attempt.bind_eq_ok hwrites
  obtain rfl := of_update hsettled
  have hsettled : Complete (moved.mapRecord fun r => { r with clean := true }) :=
    ⟨hmigrated.archive, hmigrated.kind⟩
  have hsaved := hsettled.save hsave
  refine ⟨holdsRecord_of_save hsave, ?_⟩
  rw [← hsaved.kind]
  exact hsaved.archive.openIn hlegible

end Execution

end DurableFlow
