/-
The nodes of an archive without faults.

Nothing is refused, nothing stands in the way, and every node that has a file can be read.
Then a node that is stored is found with the next read, the other nodes are as before, and
what else is written (the record, the program, the log, actions, nodes that had to wait)
changes no node. This is so for both layouts, and also when the history moves from one file
for each node to one file for all.
-/
import DurableFlow.Execution.Ending
import DurableFlow.Proofs.History.Files
import DurableFlow.Proofs.History.Lines

set_option autoImplicit false

namespace DurableFlow

open History

theorem eq_ok_of_toOption {ε α : Type} {result : Except ε α} {a : α} (h : result.toOption = some a) :
    result = .ok a := by
  cases result with
  | error e => cases h
  | ok b => exact congrArg Except.ok (Option.some.inj h)

theorem exists_ok_of_isOk {ε α : Type} {result : Except ε α} (h : result.isOk = true) : ∃ a, result = .ok a := by
  cases result with
  | error e => cases h
  | ok a => exact ⟨a, rfl⟩

namespace History

/-! ## Node files -/

namespace NodeFiles

variable {s : NodeFiles} {tree : FileTree}

/-- **A node that is held in memory is written to its file**, and the nodes that are not held are
read as before. -/
theorem write_tidy (h : tree.Tidy) (s : NodeFiles) (id : Nat) :
    ∃ tree', s.write tree id = (.ok (), tree') ∧ tree'.Tidy ∧
      ∀ m, Table.find? m s.cache = none → tree'.read (nodePath m) = tree.read (nodePath m) := by
  unfold write
  cases hstored : Table.find? id s.cache with
  | none => exact ⟨tree, rfl, h, fun _ _ => rfl⟩
  | some stored =>
    obtain ⟨tree', hwrite, htidy, _, hothers⟩ := h.writeJson (home_nodePath id) stored.toJson
    refine ⟨tree', hwrite, htidy, fun m hm => ?_⟩
    have hne : m ≠ id := by
      rintro rfl
      rw [hm] at hstored
      cases hstored
    refine h.read_congr htidy (home_nodePath m).toPlace (hothers _ ?_ ?_ (home_nodePath m).ne)
    · exact fun heq => hne (nodePath_injective heq)
    · exact nodePath_ne_neighbour m id

theorem writeAll_tidy (h : tree.Tidy) (s : NodeFiles) (ids : List Nat) :
    ∃ tree', s.writeAll tree ids = (.ok (), tree') ∧ tree'.Tidy ∧
      ∀ m, Table.find? m s.cache = none → tree'.read (nodePath m) = tree.read (nodePath m) := by
  induction ids generalizing tree with
  | nil => exact ⟨tree, rfl, h, fun _ _ => rfl⟩
  | cons id rest ih =>
    obtain ⟨first, hwrite, htidy, hsame⟩ := write_tidy h s id
    obtain ⟨tree', hrest, htidy', hsame'⟩ := ih htidy
    refine ⟨tree', ?_, htidy', fun m hm => (hsame' m hm).trans (hsame m hm)⟩
    rw [writeAll, hwrite]
    exact hrest

/-- A node is read from memory, or from its file. -/
theorem read_congr {s s' : NodeFiles} {tree tree' : FileTree} {id : Nat}
    (hcache : Table.find? id s'.cache = Table.find? id s.cache)
    (hfile : Table.find? id s.cache = none → tree'.read (nodePath id) = tree.read (nodePath id)) :
    s'.read tree' id = s.read tree id := by
  unfold read
  rw [hcache]
  cases hstored : Table.find? id s.cache with
  | some stored => rfl
  | none => exact FileTree.readJson_congr (hfile hstored)

theorem read_of_cached {id : Nat} {stored : StoredNode} (h : Table.find? id s.cache = some stored) :
    s.read tree id = .ok (some stored) := by
  rw [read, h]

/-- Without its file a node is not there. -/
theorem readJson_absent {tree : FileTree} {id : Nat} (hplace : tree.isFile nodeDirectory = false)
    (habsent : Table.find? (nodePath id) tree.entries = none) :
    tree.readJson StoredNode.ofDocument? (nodePath id) = .ok none := by
  refine FileTree.readJson_none ?_ habsent
  show [nodeDirectory].any tree.isFile = false
  rw [List.any_cons, hplace, List.any_nil, Bool.or_false]

/-! ### Reading several nodes -/

section Several

variable {ids : List Nat}

/-- Reading several nodes of which it is known what each is read as. -/
theorem readAll_of_read {found : Nat → Option StoredNode}
    (h : ∀ id ∈ ids, s.read tree id = .ok (found id)) :
    s.readAll tree ids = .ok (ids.filterMap found) := by
  induction ids with
  | nil => rfl
  | cons id rest ih =>
    rw [readAll, h id List.mem_cons_self, ih fun m hm => h m (List.mem_cons_of_mem _ hm)]
    cases hfound : found id with
    | none => rw [List.filterMap_cons_none hfound]; rfl
    | some stored => rw [List.filterMap_cons_some hfound]; rfl

/-- Every node of several that are read can be read. -/
theorem read_of_readAll {stored : List StoredNode} (hall : s.readAll tree ids = .ok stored)
    {id : Nat} (hid : id ∈ ids) : ∃ found, s.read tree id = .ok found := by
  induction ids generalizing stored with
  | nil => cases hid
  | cons m rest ih =>
    rw [readAll] at hall
    cases hread : s.read tree m with
    | error e =>
      rw [hread] at hall
      cases hall
    | ok found =>
      rcases List.mem_cons.mp hid with rfl | hid
      · exact ⟨found, hread⟩
      · rw [hread] at hall
        cases hrest : s.readAll tree rest with
        | error e =>
          simp only [hrest] at hall
          cases hall
        | ok others => exact ih hrest hid

/-- **What is read of several nodes** is what each is read as, without those that are not there. -/
theorem readAll_eq_ok {stored : List StoredNode} (hall : s.readAll tree ids = .ok stored) :
    ∃ found : Nat → Option StoredNode, (∀ id ∈ ids, s.read tree id = .ok (found id)) ∧
      stored = ids.filterMap found := by
  have hreads : ∀ id ∈ ids, s.read tree id = .ok (s.read tree id).toOption.join := by
    intro id hid
    obtain ⟨found, hread⟩ := read_of_readAll hall hid
    rw [hread]
    rfl
  exact ⟨_, hreads, Except.ok.inj (hall.symm.trans (readAll_of_read hreads))⟩

end Several

/-- The name of a node's file says which node it is. -/
theorem idOfName?_toString {n : Nat} (h : n < Json.wordBound) :
    idOfName? (toString n ++ ".json") = some n := by
  have hchars : (toString n ++ ".json").toList = (toString n).toList ++ nameEnd := by
    rw [String.toList_append]
    rfl
  unfold idOfName?
  rw [hchars]
  have hsuffix : nameEnd.isSuffixOf ((toString n).toList ++ nameEnd) = true :=
    List.isSuffixOf_iff_suffix.mpr ⟨_, rfl⟩
  have htake : ((toString n).toList ++ nameEnd).take
      (((toString n).toList ++ nameEnd).length - nameEnd.length) = (toString n).toList := by
    rw [List.length_append, Nat.add_sub_cancel, List.take_left]
  dsimp only
  rw [if_pos hsuffix, htake]
  exact Text.natBelow?_toString h

end NodeFiles

namespace Storage

/-! ## Either layout -/

/-- The nodes that are held in memory. -/
def holds : Storage → Nat → Bool
  | .perNode s, id => Table.contains id s.cache
  | .bulk s, id => Table.contains id s.nodes

/-- **Every node stands under its own number.** The number of a node that only has a file is the
name of the file, so it is one that names can say. -/
structure Numbered (s : Storage) (tree : FileTree) : Prop where
  own : ∀ {id node}, s.get tree id = .ok (some node) → node.id = id
  short : ∀ {id node}, s.get tree id = .ok (some node) → s.holds id = true ∨ id < Json.wordBound

/-- **A history that can be read and written.** The number of a node that only has a file is the
name of the file, so it is one that names can say. -/
structure Fine (s : Storage) (tree : FileTree) : Prop where
  tidy : tree.Tidy
  reads : ∀ id, ∃ found, s.get tree id = .ok found
  own : ∀ {id node}, s.get tree id = .ok (some node) → node.id = id
  short : ∀ {id node}, s.get tree id = .ok (some node) → s.holds id = true ∨ id < Json.wordBound

namespace Fine

variable {s s' : Storage} {tree tree' : FileTree}

theorem numbered (h : Fine s tree) : s.Numbered tree := ⟨h.own, h.short⟩

/-- A history with the same nodes. -/
theorem congr (h : Fine s tree) (htidy : tree'.Tidy) (hget : ∀ id, s'.get tree' id = s.get tree id)
    (hholds : ∀ id, s.holds id = true → s'.holds id = true) : Fine s' tree' where
  tidy := htidy
  reads id := by
    rw [hget]
    exact h.reads id
  own hnode := by
    rw [hget] at hnode
    exact h.own hnode
  short hnode := by
    rw [hget] at hnode
    exact (h.short hnode).imp_left (hholds _)

/-- A history with one more node, or with another one in its place. -/
theorem stored (h : Fine s tree) {node : Node} (htidy : tree'.Tidy)
    (hget : ∀ id, s'.get tree' id = if id = node.id then .ok (some node) else s.get tree id)
    (hself : s'.holds node.id = true) (hholds : ∀ id, s.holds id = true → s'.holds id = true) :
    Fine s' tree' where
  tidy := htidy
  reads id := by
    rw [hget]
    split
    · exact ⟨_, rfl⟩
    · exact h.reads id
  own := by
    intro id other hnode
    rw [hget] at hnode
    split at hnode
    · next hid =>
      cases hnode
      exact hid.symm
    · exact h.own hnode
  short := by
    intro id other hnode
    rw [hget] at hnode
    split at hnode
    · next hid =>
      rw [hid]
      exact .inl hself
    · exact (h.short hnode).imp_left (hholds _)

end Fine

theorem get_of_read {s : Storage} {tree : FileTree} {id : Nat} {found : Option StoredNode}
    (h : s.read tree id = .ok found) : s.get tree id = .ok (found.map StoredNode.node) := by
  rw [get, h]
  rfl

theorem read_of_get {s : Storage} {tree : FileTree} {id : Nat} {found : Option Node}
    (h : s.get tree id = .ok found) :
    ∃ stored, s.read tree id = .ok stored ∧ found = stored.map StoredNode.node := by
  unfold get at h
  cases hread : s.read tree id with
  | error e =>
    rw [hread] at h
    cases h
  | ok stored =>
    rw [hread] at h
    cases h
    exact ⟨stored, rfl, rfl⟩

theorem contains_insert {α : Type} {table : Table Nat α} {key id : Nat} {value : α}
    (h : Table.contains id table = true) : Table.contains id (Table.insert key value table) = true := by
  unfold Table.contains at h ⊢
  rw [Table.find?_insert]
  split
  · rfl
  · exact h

theorem contains_insert_self {α : Type} (table : Table Nat α) (key : Nat) (value : α) :
    Table.contains key (Table.insert key value table) = true := by
  unfold Table.contains
  rw [Table.find?_insert_self]
  rfl

theorem get_files (files : NodeFiles) (tree : FileTree) (id : Nat) :
    (Storage.perNode files).get tree id =
      (files.read tree id).map fun found => found.map StoredNode.node := rfl

theorem get_bulk (bulk : Bulk) (tree : FileTree) (id : Nat) :
    (Storage.bulk bulk).get tree id = .ok ((Table.find? id bulk.nodes).map StoredNode.node) := rfl

/-! ### What an operation does to the nodes -/

variable {s : Storage} {tree : FileTree}

/-- One entry of the memory of node files is replaced, and it may be written to its file. -/
theorem get_perNode (files files' : NodeFiles) {tree tree' : FileTree} {key : Nat}
    {stored : StoredNode} (hcache : files'.cache = Table.insert key stored files.cache)
    (hfiles : ∀ m, Table.find? m files'.cache = none → tree'.read (nodePath m) = tree.read (nodePath m))
    (id : Nat) : (Storage.perNode files').get tree' id =
      if id = key then .ok (some stored.node) else (Storage.perNode files).get tree id := by
  have hfound : Table.find? id files'.cache =
      if id = key then some stored else Table.find? id files.cache := by
    rw [hcache, Table.find?_insert]
  by_cases hid : id = key
  · rw [if_pos hid]
    rw [if_pos hid] at hfound
    have hread : (Storage.perNode files').read tree' id = .ok (some stored) :=
      NodeFiles.read_of_cached hfound
    exact get_of_read hread
  · rw [if_neg hid]
    rw [if_neg hid] at hfound
    have hread : files'.read tree' id = files.read tree id :=
      NodeFiles.read_congr hfound fun hnone => hfiles id (hfound.trans hnone)
    rw [get_files, get_files, hread]

/-- **A node that is stored is there**, and the others are as before. -/
theorem Fine.store (h : Fine s tree) (node : Node) (defer : Bool) :
    ∃ s' tree', s.store tree node defer = (.ok (), s', tree') ∧ Fine s' tree' ∧
      ∀ id, s'.get tree' id = if id = node.id then .ok (some node) else s.get tree id := by
  cases s with
  | bulk bulk =>
    have hget : ∀ id, (Storage.bulk (bulk.store node)).get tree id =
        if id = node.id then .ok (some node) else (Storage.bulk bulk).get tree id := by
      intro id
      rw [get_bulk, get_bulk]
      simp only [Bulk.store, Table.find?_insert]
      split <;> rfl
    refine ⟨.bulk (bulk.store node), tree, rfl, ?_, hget⟩
    exact h.stored h.tidy hget (contains_insert_self _ _ _) fun id => contains_insert
  | perNode files =>
    -- the node that is replaced is read first, since its actions are kept
    obtain ⟨found, hfound⟩ := h.reads node.id
    obtain ⟨existing, hread, _⟩ := read_of_get hfound
    have hread' : files.read tree node.id = .ok existing := hread
    let stored : StoredNode := { node, actions := (existing.map StoredNode.actions).getD [] }
    cases defer with
    | true =>
      let files' : NodeFiles :=
        { cache := Table.insert node.id stored files.cache
          deferred := Table.insert node.id () files.deferred }
      have hget : ∀ id, (Storage.perNode files').get tree id =
          if id = node.id then .ok (some node) else (Storage.perNode files).get tree id :=
        get_perNode files files' rfl fun _ _ => rfl
      refine ⟨.perNode files', tree, ?_, ?_, hget⟩
      · simp only [Storage.store, NodeFiles.store, hread', reduceIte]
        rfl
      · exact h.stored h.tidy hget (contains_insert_self _ _ _) fun id => contains_insert
    | false =>
      let files' : NodeFiles :=
        { cache := Table.insert node.id stored files.cache
          deferred := Table.erase node.id files.deferred }
      obtain ⟨tree', hwrite, htidy, hsame⟩ := NodeFiles.write_tidy h.tidy files' node.id
      have hget := get_perNode files files' rfl hsame
      refine ⟨.perNode files', tree', ?_, ?_, hget⟩
      · simp only [Storage.store, NodeFiles.store, hread', Bool.false_eq_true, reduceIte]
        rw [hwrite]
      · exact h.stored htidy hget (contains_insert_self _ _ _) fun id => contains_insert

/-- A history in one file is written. -/
theorem flush_bulk (h : tree.Tidy) (bulk : Bulk) :
    ∃ bulk' tree', bulk.flush tree = (.ok (), bulk', tree') ∧ bulk'.nodes = bulk.nodes ∧
      tree'.Tidy := by
  unfold Bulk.flush
  by_cases hdirty : bulk.dirty = true
  · have hhome : Home bulkPath := home_top (by decide) (by decide)
    obtain ⟨tree', hwrite, htidy, _⟩ := h.writeJson hhome
      (.arr ((Table.values bulk.nodes).map StoredNode.toJson))
    rw [if_pos hdirty, hwrite]
    exact ⟨_, tree', rfl, rfl, htidy⟩
  · rw [if_neg hdirty]
    exact ⟨bulk, tree, rfl, rfl, h⟩

/-- **What waits is written**, and the nodes are as before. -/
theorem Fine.flush (h : Fine s tree) :
    ∃ s' tree', s.flush tree = (.ok (), s', tree') ∧ Fine s' tree' ∧
      ∀ id, s'.get tree' id = s.get tree id := by
  cases s with
  | bulk bulk =>
    obtain ⟨bulk', tree', hflush, hsame, htidy⟩ := flush_bulk h.tidy bulk
    have hget : ∀ id, (Storage.bulk bulk').get tree' id = (Storage.bulk bulk).get tree id := by
      intro id
      rw [get_bulk, get_bulk, hsame]
    refine ⟨.bulk bulk', tree', ?_, h.congr htidy hget fun id hid => ?_, hget⟩
    · simp only [Storage.flush, hflush]
    · show Table.contains id bulk'.nodes = true
      rw [hsame]
      exact hid
  | perNode files =>
    obtain ⟨tree', hwrite, htidy, hsame⟩ :=
      NodeFiles.writeAll_tidy h.tidy files (Table.keys files.deferred)
    have hget : ∀ id, (Storage.perNode { files with deferred := [] }).get tree' id =
        (Storage.perNode files).get tree id := by
      intro id
      have hread : NodeFiles.read { files with deferred := [] } tree' id = files.read tree id :=
        NodeFiles.read_congr rfl (hsame id)
      rw [get_files, get_files, hread]
    refine ⟨.perNode { files with deferred := [] }, tree', ?_, ?_, hget⟩
    · simp only [Storage.flush, NodeFiles.flush, hwrite]
    · exact h.congr htidy hget fun _ => id

/-- **A node that had to wait is written**, and the nodes are as before. -/
theorem Fine.autopersist (h : Fine s tree) (id : Nat) :
    ∃ s' tree', s.autopersist tree id = (.ok (), s', tree') ∧ Fine s' tree' ∧
      ∀ m, s'.get tree' m = s.get tree m := by
  cases s with
  | bulk bulk => exact ⟨.bulk bulk, tree, rfl, h, fun _ => rfl⟩
  | perNode files =>
    by_cases hwaits : Table.contains id files.deferred = true
    · let files' : NodeFiles := { files with deferred := Table.erase id files.deferred }
      obtain ⟨tree', hwrite, htidy, hsame⟩ := NodeFiles.write_tidy h.tidy files' id
      have hget : ∀ m, (Storage.perNode files').get tree' m = (Storage.perNode files).get tree m := by
        intro m
        have hread : files'.read tree' m = files.read tree m :=
          NodeFiles.read_congr rfl (hsame m)
        rw [get_files, get_files, hread]
      refine ⟨.perNode files', tree', ?_, ?_, hget⟩
      · simp only [Storage.autopersist, NodeFiles.autopersist, if_pos hwaits]
        rw [hwrite]
      · exact h.congr htidy hget fun _ => fun hm => hm
    · refine ⟨.perNode files, tree, ?_, h, fun _ => rfl⟩
      simp only [Storage.autopersist, NodeFiles.autopersist, if_neg hwaits]

/-- Actions change no node. -/
theorem Fine.saveActions (h : Fine s tree) (id : Nat) (actions : List Action) :
    ∃ result s' tree', s.saveActions tree id actions = (result, s', tree') ∧ Fine s' tree' ∧
      ∀ m, s'.get tree' m = s.get tree m := by
  cases s with
  | bulk bulk =>
    cases hstored : Table.find? id bulk.nodes with
    | none =>
      refine ⟨.error (.missingNode id), .bulk bulk, tree, ?_, h, fun _ => rfl⟩
      simp only [Storage.saveActions, Bulk.saveActions, hstored]
    | some stored =>
      let bulk' : Bulk :=
        { nodes := Table.insert id { stored with actions } bulk.nodes, dirty := true }
      have hget : ∀ m, (Storage.bulk bulk').get tree m = (Storage.bulk bulk).get tree m := by
        intro m
        rw [get_bulk, get_bulk, Table.find?_insert]
        split
        · next hm =>
          rw [hm, hstored]
          rfl
        · rfl
      refine ⟨.ok (), .bulk bulk', tree, ?_, ?_, hget⟩
      · simp only [Storage.saveActions, Bulk.saveActions, hstored]
        rfl
      · exact h.congr h.tidy hget fun _ => contains_insert
  | perNode files =>
    obtain ⟨found, hfound⟩ := h.reads id
    obtain ⟨existing, hread, _⟩ := read_of_get hfound
    have hread' : files.read tree id = .ok existing := hread
    cases existing with
    | none =>
      refine ⟨.error (.missingNode id), .perNode files, tree, ?_, h, fun _ => rfl⟩
      simp only [Storage.saveActions, NodeFiles.saveActions, hread']
    | some stored =>
      let files' : NodeFiles :=
        { files with cache := Table.insert id { stored with actions } files.cache }
      have hsame : ∀ tree', (∀ m, Table.find? m files'.cache = none →
          tree'.read (nodePath m) = tree.read (nodePath m)) →
          ∀ m, (Storage.perNode files').get tree' m = (Storage.perNode files).get tree m := by
        intro tree' hfiles m
        rw [get_perNode files files' rfl hfiles]
        split
        · next hm =>
          rw [hm, get_of_read hread]
          rfl
        · rfl
      -- a node that waits is written later, with the actions it has then
      by_cases hwaits : Table.contains id files.deferred = true
      · have hget := hsame tree fun _ _ => rfl
        refine ⟨.ok (), .perNode files', tree, ?_, ?_, hget⟩
        · simp only [Storage.saveActions, NodeFiles.saveActions, hread', if_pos hwaits]
          rfl
        · exact h.congr h.tidy hget fun _ => contains_insert
      · obtain ⟨tree', hwrite, htidy, hfiles⟩ := NodeFiles.write_tidy h.tidy files' id
        refine ⟨.ok (), .perNode files', tree', ?_, ?_, hsame tree' hfiles⟩
        · simp only [Storage.saveActions, NodeFiles.saveActions, hread', if_neg hwaits]
          rw [hwrite]
        · exact h.congr htidy (hsame tree' hfiles) fun _ => contains_insert

end Storage

end History

namespace Archive

/-! ## The archive -/

/-- **An archive without faults.** -/
structure Sane (a : Archive) : Prop where
  accepts : ∀ call, a.refuse call = none
  fine : a.history.Fine a.tree

/-- The nodes of an archive, without their failures. -/
def shapes (a : Archive) : Nodes := fun id => (a.node id).toOption.map Node.shape

/-- **An archive without faults that holds the same nodes.** -/
structure Kept (a a' : Archive) : Prop where
  sane : a'.Sane
  shapes : a'.shapes = a.shapes

variable {a : Archive}

theorem Sane.kept (h : a.Sane) : Kept a a := ⟨h, rfl⟩

theorem Kept.trans {a' a'' : Archive} (h : Kept a a') (h' : Kept a' a'') : Kept a a'' :=
  ⟨h'.sane, h'.shapes.trans h.shapes⟩

theorem shapes_of_get {id : Nat} {found : Option Node} (h : a.history.get a.tree id = .ok found) :
    a.shapes id = found.map Node.shape := by
  unfold shapes Archive.node Storage.node
  rw [h]
  cases found <;> rfl

theorem shapes_congr {a' : Archive} (h : ∀ id, a'.history.get a'.tree id = a.history.get a.tree id) :
    a'.shapes = a.shapes := by
  funext id
  unfold shapes Archive.node Storage.node
  rw [h]

/-- **A node that is there can be read.** -/
theorem node_of_shape {id : Nat} {shape : Node} (h : a.shapes id = some shape) :
    ∃ node, a.node id = .ok node ∧ node.shape = shape := by
  obtain ⟨node, hnode, hshape⟩ := Option.map_eq_some_iff.mp h
  exact ⟨node, eq_ok_of_toOption hnode, hshape⟩

theorem reads_shapes (a : Archive) : Reads a.node a.shapes := fun _ _ hshape => node_of_shape hshape

/-! ### Calls on the history -/

/-- A call that is not refused is carried out. -/
theorem historyCall_eq (h : a.Sane) (call : ArchiveCall)
    {f : Storage → FileTree → EngineResult Unit × Storage × FileTree} {result : EngineResult Unit}
    {history : Storage} {tree : FileTree} (hf : f a.history a.tree = (result, history, tree)) :
    ∃ journal, historyCall call f a = (result, { a with journal, history, tree }) := by
  have hon : ∀ journal, onHistory f { a with journal } =
      (result, { a with journal, history, tree }) := by
    intro journal
    unfold onHistory
    rw [hf]
  by_cases hwatched : a.isWatched = true
  · refine ⟨a.journal ++ [call], ?_⟩
    show (if a.isWatched = true then (do announce call; onHistory f) else onHistory f :
      Attempt Archive Unit) a = _
    rw [if_pos hwatched]
    show Attempt.andThen (announce call) _ a = _
    simp only [Attempt.andThen, announce, h.accepts]
    exact hon _
  · refine ⟨a.journal, ?_⟩
    show (if a.isWatched = true then (do announce call; onHistory f) else onHistory f :
      Attempt Archive Unit) a = _
    rw [if_neg hwatched]
    exact hon a.journal

theorem Sane.of_fine (h : a.Sane) {journal : List ArchiveCall} {history : Storage} {tree : FileTree}
    (hfine : history.Fine tree) : Sane { a with journal, history, tree } := ⟨h.accepts, hfine⟩

/-- **A node is stored.** -/
theorem Sane.store (h : a.Sane) (node : Node) (defer : Bool) :
    ∃ a', Archive.store node defer a = (.ok (), a') ∧ a'.Sane ∧
      a'.shapes = changed a.shapes node.id (some node.shape) := by
  obtain ⟨s', tree', hstore, hfine, hget⟩ := h.fine.store node defer
  obtain ⟨journal, heq⟩ := historyCall_eq h (.store node.id defer)
    (f := fun s tree => s.store tree node defer) hstore
  refine ⟨_, heq, h.of_fine hfine, ?_⟩
  funext id
  obtain ⟨found, hfound⟩ := h.fine.reads id
  unfold changed
  split
  · next hid =>
    have hnew := hget id
    rw [if_pos hid] at hnew
    exact shapes_of_get (a := { a with journal, history := s', tree := tree' }) hnew
  · next hid =>
    have hold := hget id
    rw [if_neg hid, hfound] at hold
    rw [shapes_of_get hfound]
    exact shapes_of_get (a := { a with journal, history := s', tree := tree' }) hold

/-- **What waits is written.** -/
theorem Sane.flush (h : a.Sane) : ∃ a', Archive.flush a = (.ok (), a') ∧ Kept a a' := by
  obtain ⟨s', tree', hflush, hfine, hget⟩ := h.fine.flush
  obtain ⟨journal, heq⟩ := historyCall_eq h .flush (f := Storage.flush) hflush
  exact ⟨_, heq, h.of_fine hfine, shapes_congr hget⟩

theorem Sane.autopersist (h : a.Sane) (id : Nat) :
    ∃ a', Archive.autopersist id a = (.ok (), a') ∧ Kept a a' := by
  obtain ⟨s', tree', hwrite, hfine, hget⟩ := h.fine.autopersist id
  obtain ⟨journal, heq⟩ := historyCall_eq h (.autopersist id)
    (f := fun s tree => s.autopersist tree id) hwrite
  exact ⟨_, heq, h.of_fine hfine, shapes_congr hget⟩

theorem Sane.saveActions (h : a.Sane) (id : Nat) (actions : List Action) :
    Kept a (Archive.saveActions id actions a).2 := by
  obtain ⟨result, s', tree', hsave, hfine, hget⟩ := h.fine.saveActions id actions
  obtain ⟨journal, heq⟩ := historyCall_eq h (.saveActions id)
    (f := fun s tree => s.saveActions tree id actions) hsave
  have hkept : Kept a { a with journal, history := s', tree := tree' } :=
    ⟨h.of_fine hfine, shapes_congr hget⟩
  unfold Archive.saveActions
  rw [heq]
  exact hkept

/-! ### Other files -/

/-- A change of the tree that leaves the files of the nodes alone. -/
theorem Sane.retree (h : a.Sane) (journal : List ArchiveCall) (lines : List String) {tree : FileTree}
    (htidy : tree.Tidy) (hsame : ∀ id, tree.read (nodePath id) = a.tree.read (nodePath id)) :
    Kept a { a with journal, tree, lines } := by
  have hget : ∀ id, a.history.get tree id = a.history.get a.tree id := by
    intro id
    cases hhistory : a.history with
    | bulk bulk => rfl
    | perNode files =>
      have hread : files.read tree id = files.read a.tree id :=
        NodeFiles.read_congr rfl fun _ => hsame id
      rw [Storage.get_files, Storage.get_files, hread]
  exact ⟨⟨h.accepts, h.fine.congr htidy hget fun _ => fun hm => hm⟩, shapes_congr hget⟩

/-- **A file at the top is written.** -/
theorem Sane.writeTop (h : a.Sane) {name : String} (hhome : Home [name]) (json : Json)
    (call : ArchiveCall) :
    ∃ a', (do announce call; onTree (·.writeJson [name] json) : Attempt Archive Unit) a = (.ok (), a') ∧
      Kept a a' := by
  obtain ⟨tree', hwrite, htidy, _, hothers⟩ := h.fine.tidy.writeJson hhome json
  have hkept : Kept a { a with journal := a.journal ++ [call], tree := tree' } := by
    refine h.retree (a.journal ++ [call]) a.lines htidy fun id => ?_
    refine h.fine.tidy.read_congr htidy (home_nodePath id).toPlace (hothers _ ?_ ?_ ?_)
    · exact nodePath_ne_top id name
    · exact nodePath_ne_top id (name ++ ".tmp")
    · exact (home_nodePath id).ne
  refine ⟨_, ?_, hkept⟩
  show Attempt.andThen (announce call) _ a = _
  simp only [Attempt.andThen, announce, h.accepts, onTree, hwrite]

theorem Sane.saveRecord (h : a.Sane) (record : Record) :
    ∃ a', Archive.saveRecord record a = (.ok (), a') ∧ Kept a a' :=
  h.writeTop (home_top (by decide) (by decide)) record.toJson .saveRecord

theorem Sane.saveProgram (h : a.Sane) (program : SavedProgram) :
    ∃ a', Archive.saveProgram program a = (.ok (), a') ∧ Kept a a' :=
  h.writeTop (home_top (by decide) (by decide)) program.toJson .saveProgram

/-- **A line is logged.** -/
theorem Sane.log (h : a.Sane) (line : String) : Kept a (a.log line) := by
  have hhome : Home logPath := home_top (by decide) (by decide)
  obtain ⟨htidy, hothers⟩ := h.fine.tidy.append hhome.toPlace a.logFile (line ++ "\n")
  refine h.retree a.journal (a.lines ++ [line]) htidy fun id => ?_
  exact h.fine.tidy.read_congr htidy (home_nodePath id).toPlace (hothers _ (nodePath_ne_top id "log"))

/-! ### Opening a history -/

/-- A directory in which no history was kept. -/
structure Unwritten (tree : FileTree) : Prop where
  node : ∀ id, Table.find? (nodePath id) tree.entries = none
  bulk : Table.find? bulkPath tree.entries = none

/-- A file that is not there is not found. -/
theorem readJson_absent {α : Type} {read? : Document → Option α} {tree : FileTree} {path : Path}
    (h : tree.Tidy) (hplace : Place path) (hnone : Table.find? path tree.entries = none) :
    tree.readJson read? path = .ok none :=
  FileTree.readJson_none (h.isBlocked hplace) hnone

/-- **A history that is opened in an unwritten directory is empty.** -/
theorem openHistory_unwritten {a' : Archive} {kind : StorageKind}
    (haccepts : ∀ call, a.refuse call = none) (htidy : a.tree.Tidy) (hnew : Unwritten a.tree)
    (hopen : openHistory kind a = (.ok (), a')) : a'.Sane ∧ ∀ id, a'.shapes id = none := by
  -- in either layout no node is found, and that is all that is asked of the history
  have hempty : ∀ {history : Storage} {tree : FileTree} {b : Archive}, tree.Tidy →
      b.refuse = a.refuse → b.history = history → b.tree = tree →
      (∀ id, history.get tree id = .ok none) → b.Sane ∧ ∀ id, b.shapes id = none := by
    rintro history tree b htree hrefuse rfl rfl hget
    refine ⟨⟨?_, htree, fun id => ⟨_, hget id⟩, ?_, ?_⟩, fun id => shapes_of_get (hget id)⟩
    · rw [hrefuse]
      exact haccepts
    · intro id node hnode
      rw [hget] at hnode
      cases hnode
    · intro id node hnode
      rw [hget] at hnode
      cases hnode
  cases kind with
  | bulk =>
    have hbulk : Bulk.openIn a.tree = .ok {} := by
      have hhome : Home bulkPath := home_top (by decide) (by decide)
      unfold Bulk.openIn
      rw [readJson_absent htidy hhome.toPlace hnew.bulk]
      rfl
    unfold openHistory at hopen
    rw [Storage.openIn_bulk hbulk] at hopen
    cases hopen
    exact hempty htidy rfl rfl rfl fun _ => rfl
  | perNode =>
    have hdirectories : ∀ p ∈ nodeDirectory.ancestors ++ [nodeDirectory], p = nodeDirectory :=
      fun p hp => List.mem_singleton.mp hp
    obtain ⟨htree, hothers⟩ := htidy.addDirectories hdirectories
    unfold openHistory at hopen
    rw [Storage.openIn_perNode (NodeFiles.openIn_of_place htidy.place)] at hopen
    cases hopen
    refine hempty htree rfl rfl rfl fun id => ?_
    have habsent : ({} : NodeFiles).read
        (a.tree.addDirectories (nodeDirectory.ancestors ++ [nodeDirectory])) id = .ok none := by
      refine readJson_absent htree (home_nodePath id).toPlace ?_
      exact (hothers _ (home_nodePath id).ne).trans (hnew.node id)
    rw [Storage.get_files, habsent]
    rfl

/-! ### Moving the history into one file -/

/-- What happens after a call was announced, unless it is refused. -/
theorem announce_cases {α : Type} (call : ArchiveCall) (act : Attempt Archive α) (a : Archive) :
    (∃ e, (do announce call; act : Attempt Archive α) a =
        (.error e, { a with journal := a.journal ++ [call] })) ∨
      (do announce call; act : Attempt Archive α) a = act { a with journal := a.journal ++ [call] } := by
  show (∃ e, Attempt.andThen (announce call) (fun _ => act) a = _) ∨
    Attempt.andThen (announce call) (fun _ => act) a = _
  simp only [Attempt.andThen, announce]
  cases a.refuse call with
  | none => exact .inr rfl
  | some e => exact .inl ⟨e, rfl⟩

/-- What a migration leaves of an archive once the copy was written, or could not be. -/
def migrated (a : Archive) (written : EngineResult Unit × Bulk × FileTree) : EngineResult Unit × Archive :=
  match written.1 with
  | .ok () => (.ok (), { a with history := .bulk written.2.1, tree := written.2.2, isWatched := false })
  | .error e => (.error e, { a with tree := written.2.2 })

/-- **Moving the history** fails before anything is written, or a copy of it is written. -/
theorem migrate_eq (a : Archive) : ∃ journal,
    (∃ e, migrate a = (.error e, { a with journal })) ∨
      ∃ nodes bulk, a.nodes = .ok nodes ∧ copyInto { a with journal } .fresh nodes = .ok bulk ∧
        migrate a = migrated { a with journal } (bulk.flush a.tree) := by
  let noted : Archive := { a with journal := a.journal ++ [.freshHistory] }
  let copied : Attempt Archive Unit := do
    let nodes ← Attempt.trying nodes
    let bulk ← Attempt.trying fun a => a.copyInto .fresh nodes
    fun a => a.migrated (bulk.flush a.tree)
  refine ⟨noted.journal, ?_⟩
  -- it fails when it is announced, when the nodes are listed or when they are copied
  rcases announce_cases .freshHistory copied a with ⟨e, heq⟩ | heq
  · exact .inl ⟨e, heq⟩
  · have hmigrate : migrate a = copied noted := heq
    rw [hmigrate]
    cases hnodes : noted.nodes with
    | error e =>
      refine .inl ⟨e, ?_⟩
      show Attempt.andThen (Attempt.trying Archive.nodes) _ noted = _
      simp only [Attempt.andThen, Attempt.trying, hnodes]
      rfl
    | ok nodes =>
      have hread : Attempt.trying Archive.nodes noted = (.ok nodes, noted) := by rw [Attempt.trying, hnodes]
      cases hcopy : noted.copyInto .fresh nodes with
      | error e =>
        refine .inl ⟨e, ?_⟩
        show Attempt.andThen (Attempt.trying Archive.nodes) _ noted = _
        simp only [Attempt.andThen, hread]
        show Attempt.andThen (Attempt.trying fun a => a.copyInto .fresh nodes) _ noted = _
        simp only [Attempt.andThen, Attempt.trying, hcopy]
        rfl
      | ok bulk =>
        refine .inr ⟨nodes, bulk, hnodes, hcopy, ?_⟩
        show Attempt.andThen (Attempt.trying Archive.nodes) _ noted = _
        simp only [Attempt.andThen, hread]
        show Attempt.andThen (Attempt.trying fun a => a.copyInto .fresh nodes) _ noted = _
        simp only [Attempt.andThen, Attempt.trying, hcopy]
        rfl

/-- What is read of several nodes. -/
theorem mem_readAll {files : NodeFiles} {tree : FileTree} {ids : List Nat} {found : List StoredNode}
    (h : files.readAll tree ids = .ok found) (stored : StoredNode) :
    stored ∈ found ↔ ∃ id ∈ ids, files.read tree id = .ok (some stored) := by
  obtain ⟨each, hreads, rfl⟩ := NodeFiles.readAll_eq_ok h
  rw [List.mem_filterMap]
  constructor
  · rintro ⟨id, hid, hstored⟩
    exact ⟨id, hid, hstored ▸ hreads id hid⟩
  · rintro ⟨id, hid, hread⟩
    exact ⟨id, hid, Except.ok.inj ((hreads id hid).symm.trans hread)⟩

/-- A node that only has a file has a file of its name. -/
theorem file_of_get {files : NodeFiles} {tree : FileTree} {id : Nat} {node : Node}
    (hget : (Storage.perNode files).get tree id = .ok (some node))
    (habsent : Table.find? id files.cache = none) :
    ∃ entry, (nodePath id, entry) ∈ tree.entries := by
  cases hentry : Table.find? (nodePath id) tree.entries with
  | some entry => exact ⟨entry, Table.mem_of_find? hentry⟩
  | none =>
    have hread : tree.readJson StoredNode.ofDocument? (nodePath id) ≠
        .ok (none : Option StoredNode) ∧
        ∀ stored, tree.readJson StoredNode.ofDocument? (nodePath id) ≠ .ok (some stored) := by
      constructor
      · intro hno
        rw [Storage.get_files, NodeFiles.read, habsent, hno] at hget
        cases hget
      · intro stored hno
        unfold FileTree.readJson FileTree.read at hno
        rw [hentry] at hno
        by_cases hblocked : tree.isBlocked (nodePath id) = true
        · rw [if_pos hblocked] at hno
          cases hno
        · rw [if_neg hblocked] at hno
          cases hno
    rw [Storage.get_files, NodeFiles.read, habsent] at hget
    cases hfound : tree.readJson StoredNode.ofDocument? (nodePath id) with
    | error e =>
      rw [hfound] at hget
      cases hget
    | ok found =>
      cases found with
      | none => exact absurd hfound hread.1
      | some stored => exact absurd hfound (hread.2 stored)

/-- **Finitely many nodes are stored**, no more than the bound on their number: a node is in memory, or it has
a file, and no two nodes have the same one. -/
theorem exists_ids (s : Storage) (tree : FileTree) : ∃ ids : List Nat, ids.length ≤ s.sizeBound tree ∧
    ∀ id node, s.get tree id = .ok (some node) → id ∈ ids := by
  cases s with
  | bulk bulk =>
    refine ⟨Table.keys bulk.nodes, Nat.le_of_eq (List.length_map _), fun id node hnode => ?_⟩
    rw [Storage.get_bulk] at hnode
    obtain ⟨stored, hstored, _⟩ := Option.map_eq_some_iff.mp (Except.ok.inj hnode)
    rw [Table.mem_keys, hstored]
    rfl
  | perNode files =>
    -- the file of a node tells its number
    have hpath : Function.LeftInverse (Function.invFun nodePath) nodePath :=
      Function.leftInverse_invFun fun _ _ => nodePath_injective
    refine ⟨Table.keys files.cache ++ (Table.keys tree.entries).map (Function.invFun nodePath), ?_,
      fun id node hnode => ?_⟩
    · rw [List.length_append, List.length_map, Table.keys, Table.keys, List.length_map, List.length_map]
      exact Nat.le_refl _
    · rw [List.mem_append]
      cases hcached : Table.find? id files.cache with
      | some stored =>
        refine .inl ?_
        rw [Table.mem_keys, hcached]
        rfl
      | none =>
        obtain ⟨entry, hentry⟩ := file_of_get hnode hcached
        exact .inr (List.mem_map.mpr ⟨nodePath id, List.mem_map.mpr ⟨_, hentry, rfl⟩, hpath id⟩)

/-- **A node that is in memory or has a file is listed.** The name of its file says which node it is. -/
theorem mem_listed {files : NodeFiles} {tree : FileTree} {names : List String} {id : Nat}
    (hlist : tree.list nodeDirectory = .ok names)
    (hthere : Table.contains id files.cache = true ∨
      id < Json.wordBound ∧ ∃ entry, (nodePath id, entry) ∈ tree.entries) :
    id ∈ Table.keys (Table.insertAll ((names.filterMap NodeFiles.idOfName?).map fun id => (id, ()))
      (Table.mapValues (fun _ => ()) files.cache)) := by
  rw [Table.mem_keys_insertAll]
  rcases hthere with hheld | ⟨hword, entry, hentry⟩
  · refine .inr ?_
    rw [Table.keys_mapValues, Table.mem_keys]
    exact hheld
  · refine .inl (List.mem_map.mpr ⟨(id, ()), List.mem_map.mpr ⟨id, ?_, rfl⟩, rfl⟩)
    refine List.mem_filterMap.mpr ⟨toString id ++ ".json", ?_, NodeFiles.idOfName?_toString hword⟩
    unfold FileTree.list at hlist
    split at hlist
    · cases hlist
      exact List.mem_filterMap.mpr ⟨_, hentry, rfl⟩
    · cases hlist

/-- Where names are listed there is no file. -/
theorem isFile_of_list {tree : FileTree} {path : Path} {names : List String} (hpath : path.isEmpty = false)
    (hlist : tree.list path = .ok names) : tree.isFile path = false := by
  unfold FileTree.list FileTree.isDirectory at hlist
  unfold FileTree.isFile
  split
  · next heq =>
    rw [heq] at hlist
    simp only [hpath, Bool.false_eq_true, reduceIte] at hlist
    cases hlist
  · rfl

/-- **What is listed is read.** Under a number that is not among those listed, and that a name can say,
there is nothing. -/
theorem nodes_eq_ok {files : NodeFiles} {tree : FileTree} {found : List Node}
    (hnodes : files.nodes tree = .ok found) : ∃ ids stored, files.readAll tree ids = .ok stored ∧
      found = stored.map StoredNode.node ∧
      (Table.Sorted files.cache → ids.Pairwise fun a b => compare a b = .lt) ∧
      ∀ id, (Storage.perNode files).holds id = true ∨ id < Json.wordBound →
        id ∈ ids ∨ files.read tree id = .ok none := by
  unfold NodeFiles.nodes at hnodes
  cases hlist : tree.list nodeDirectory with
  | error e =>
    rw [hlist] at hnodes
    cases hnodes
  | ok names =>
    rw [hlist] at hnodes
    dsimp only at hnodes
    generalize htable : Table.insertAll ((names.filterMap NodeFiles.idOfName?).map
      fun id => (id, ())) (Table.mapValues (fun _ => ()) files.cache) = table at hnodes
    cases hall : files.readAll tree (Table.keys table) with
    | error e =>
      rw [hall] at hnodes
      cases hnodes
    | ok stored =>
      rw [hall] at hnodes
      cases hnodes
      refine ⟨Table.keys table, stored, hall, rfl, fun hsorted => ?_, fun id hid => ?_⟩
      · rw [← htable]
        exact Table.sorted_iff_keys.mp ((hsorted.mapValues _).insertAll _)
      · rw [← htable]
        cases hcached : Table.find? id files.cache with
        | some stored => exact .inl (mem_listed hlist (.inl (Option.isSome_of_mem hcached)))
        | none =>
          -- a node that is not in memory can only be listed by the name of its file
          have hword : id < Json.wordBound := by
            refine hid.resolve_left fun hheld => ?_
            rw [Storage.holds, Table.contains, hcached] at hheld
            cases hheld
          cases hentry : Table.find? (nodePath id) tree.entries with
          | some entry => exact .inl (mem_listed hlist (.inr ⟨hword, entry, Table.mem_of_find? hentry⟩))
          | none =>
            refine .inr ?_
            rw [NodeFiles.read, hcached]
            exact NodeFiles.readJson_absent (isFile_of_list rfl hlist) hentry

/-- **All nodes are listed**, and nothing else is. -/
theorem mem_nodes {files : NodeFiles} {tree : FileTree} (h : (Storage.perNode files).Numbered tree)
    {found : List Node} (hnodes : files.nodes tree = .ok found) (node : Node) :
    node ∈ found ↔ (Storage.perNode files).get tree node.id = .ok (some node) := by
  obtain ⟨ids, stored, hall, rfl, _, hlisted⟩ := nodes_eq_ok hnodes
  rw [List.mem_map]
  constructor
  · rintro ⟨one, hone, rfl⟩
    obtain ⟨id, _, hread⟩ := (mem_readAll hall one).mp hone
    have hget : (Storage.perNode files).get tree id = .ok (some one.node) :=
      Storage.get_of_read (s := .perNode files) hread
    rw [h.own hget]
    exact hget
  · intro hget
    obtain ⟨one, hread, hsame⟩ := Storage.read_of_get hget
    obtain ⟨one, rfl, rfl⟩ := Option.map_eq_some_iff.mp hsame.symm
    refine ⟨one, (mem_readAll hall one).mpr ⟨one.node.id, ?_, hread⟩, rfl⟩
    refine (hlisted _ (h.short hget)).resolve_right fun hnone => ?_
    cases hread.symm.trans hnone

/-- What has been copied of the nodes of a history, and what is still to come. -/
structure Copying (a : Archive) (bulk : Bulk) (nodes : List Node) : Prop where
  copied : ∀ {id stored}, Table.find? id bulk.nodes = some stored →
    a.history.read a.tree id = .ok (some stored)
  coming : ∀ {node}, node ∈ nodes → a.history.get a.tree node.id = .ok (some node)
  all : ∀ {id node}, a.history.get a.tree id = .ok (some node) →
    node ∈ nodes ∨ (Table.find? id bulk.nodes).isSome = true

/-- One node is copied. -/
theorem Copying.next (hnumbered : a.history.Numbered a.tree) {bulk bulk' : Bulk} {node : Node}
    {rest : List Node} {actions : List Action} (h : Copying a bulk (node :: rest))
    (hread : a.history.read a.tree node.id = .ok (some { node, actions }))
    (hnodes : ∀ id, Table.find? id bulk'.nodes =
      if id = node.id then some { node, actions } else Table.find? id bulk.nodes) :
    Copying a bulk' rest where
  copied := by
    intro id stored hstored
    rw [hnodes] at hstored
    split at hstored
    · next hid =>
      cases hstored
      rw [hid]
      exact hread
    · exact h.copied hstored
  coming := fun hmem => h.coming (List.mem_cons_of_mem _ hmem)
  all := by
    intro id found hfound
    rw [hnodes]
    rcases h.all hfound with hmem | hsome
    · rcases List.mem_cons.mp hmem with rfl | hmem
      · rw [if_pos (hnumbered.own hfound).symm]
        exact .inr rfl
      · exact .inl hmem
    · refine .inr ?_
      split
      · rfl
      · exact hsome

/-- **The copy holds the same nodes**, with the same actions. -/
theorem Copying.copyInto (hnumbered : a.history.Numbered a.tree) {bulk bulk' : Bulk} {nodes : List Node}
    (h : Copying a bulk nodes) (hcopy : a.copyInto bulk nodes = .ok bulk') : Copying a bulk' [] := by
  induction nodes generalizing bulk with
  | nil =>
    cases hcopy
    exact h
  | cons node rest ih =>
    obtain ⟨found, hread, hnode⟩ := Storage.read_of_get (h.coming List.mem_cons_self)
    obtain ⟨stored, rfl, hstored⟩ := Option.map_eq_some_iff.mp hnode.symm
    have hactions : a.actions node.id = .ok stored.actions := by
      rw [Archive.actions, Storage.actions, hread]
      rfl
    have hwhole : a.history.read a.tree node.id = .ok (some { node, actions := stored.actions }) := by
      rw [hread, ← hstored]
    -- a node that is copied twice has the actions it had the first time
    have hheld : ((Table.find? node.id bulk.nodes).map StoredNode.actions).getD [] = [] ∨
        ((Table.find? node.id bulk.nodes).map StoredNode.actions).getD [] = stored.actions := by
      cases hfirst : Table.find? node.id bulk.nodes with
      | none => exact .inl rfl
      | some first =>
        obtain rfl : first = stored := Option.some.inj (Except.ok.inj ((h.copied hfirst).symm.trans hread))
        exact .inr rfl
    have hnext : ∀ id, Table.find? id (bulk.store node).nodes = if id = node.id then
        some { node, actions := ((Table.find? node.id bulk.nodes).map StoredNode.actions).getD [] }
        else Table.find? id bulk.nodes := fun id => Table.find?_insert _ _ _ _
    rw [Archive.copyInto, hactions] at hcopy
    dsimp only at hcopy
    split at hcopy
    · next hempty =>
      have hnone : stored.actions = [] := List.isEmpty_iff.mp hempty
      rw [hnone, or_self] at hheld
      rw [hheld] at hnext
      exact ih (h.next hnumbered (hnone ▸ hwhole) hnext) hcopy
    · split at hcopy
      · next second hsaved =>
        unfold Bulk.saveActions at hsaved
        rw [hnext, if_pos rfl] at hsaved
        cases hsaved
        refine ih (h.next hnumbered hwhole fun id => ?_) hcopy
        rw [Table.find?_insert, hnext]
        split <;> rfl
      · cases hcopy

/-- **A history is copied**, and the copy holds what the history does. -/
theorem copying_of_copyInto {files : NodeFiles} {nodes : List Node} {bulk : Bulk}
    (hhistory : a.history = .perNode files) (hnumbered : a.history.Numbered a.tree)
    (hnodes : a.nodes = .ok nodes) (hcopy : a.copyInto .fresh nodes = .ok bulk) : Copying a bulk [] := by
  have hlisted : files.nodes a.tree = .ok nodes := by
    unfold Archive.nodes at hnodes
    rw [hhistory] at hnodes
    exact hnodes
  have hfiles : (Storage.perNode files).Numbered a.tree := hhistory ▸ hnumbered
  have hbegin : Copying a .fresh nodes := by
    refine ⟨fun hno => (by cases hno), fun {node} hmem => ?_, fun {id node} hnode => .inl ?_⟩
    · rw [hhistory]
      exact (mem_nodes hfiles hlisted node).mp hmem
    · have hown := hnumbered.own hnode
      rw [hhistory, ← hown] at hnode
      exact (mem_nodes hfiles hlisted node).mpr hnode
  exact hbegin.copyInto hnumbered hcopy

/-- What was copied is what is read. -/
theorem Copying.find?_eq {bulk : Bulk} {id : Nat} {found : Option StoredNode} (h : Copying a bulk [])
    (hread : a.history.read a.tree id = .ok found) : found = Table.find? id bulk.nodes := by
  cases hcopied : Table.find? id bulk.nodes with
  | some stored => exact Except.ok.inj (hread.symm.trans (h.copied hcopied))
  | none =>
    cases found with
    | none => rfl
    | some stored =>
      have hsome := (h.all (Storage.get_of_read hread)).resolve_left List.not_mem_nil
      rw [hcopied] at hsome
      cases hsome

/-- **A history that was copied** takes the place of the other one. -/
theorem Copying.kept (hsane : a.Sane) {bulk : Bulk} (h : Copying a bulk []) {tree : FileTree}
    (htidy : tree.Tidy) :
    Kept a { a with history := .bulk bulk, tree, isWatched := false } := by
  have hget : ∀ id, (Storage.bulk bulk).get tree id = a.history.get a.tree id := by
    intro id
    obtain ⟨found, hfound⟩ := hsane.fine.reads id
    obtain ⟨stored, hread, rfl⟩ := Storage.read_of_get hfound
    rw [Storage.get_bulk, hfound, h.find?_eq hread]
  refine ⟨⟨hsane.accepts, htidy, fun id => ?_, fun hnode => ?_, fun hnode => .inl ?_⟩,
    shapes_congr hget⟩
  · rw [hget]
    exact hsane.fine.reads id
  · rw [hget] at hnode
    exact hsane.fine.own hnode
  · rw [hget] at hnode
    exact (h.all hnode).resolve_left List.not_mem_nil

/-- **Moving the history changes no node**, whether it succeeds or not. -/
theorem Sane.migrate (h : a.Sane) (hkind : a.history.kind = .perNode) :
    Kept a (Archive.migrate a).2 := by
  obtain ⟨journal, ⟨e, heq⟩ | ⟨nodes, bulk, hnodes, hcopy, heq⟩⟩ := migrate_eq a
  · rw [heq]
    exact ⟨⟨h.accepts, h.fine⟩, rfl⟩
  · have hstart : Kept a { a with journal } := ⟨⟨h.accepts, h.fine⟩, rfl⟩
    cases hhistory : a.history with
    | bulk other =>
      rw [hhistory] at hkind
      cases hkind
    | perNode files =>
      have hend : Copying { a with journal } bulk [] :=
        copying_of_copyInto (a := { a with journal }) hhistory h.fine.numbered hnodes hcopy
      -- writing the one file does not fail
      obtain ⟨bulk', tree, hflush, hsame, htidy⟩ := Storage.flush_bulk h.fine.tidy bulk
      have hwritten : Copying { a with journal } bulk' [] := by
        refine ⟨fun hstored => hend.copied (hsame ▸ hstored), hend.coming, fun hnode => ?_⟩
        rw [hsame]
        exact hend.all hnode
      rw [heq, hflush]
      exact hstart.trans (hwritten.kept hstart.sane htidy)

/-- There is a list of all nodes that is no longer than the bound on their number. -/
theorem Sane.ids (h : a.Sane) : ∃ ids : List Nat, ids.length ≤ a.history.sizeBound a.tree ∧
    ∀ id node, a.shapes id = some node → id ∈ ids := by
  obtain ⟨ids, hlength, hids⟩ := exists_ids a.history a.tree
  refine ⟨ids, hlength, fun id node hshape => ?_⟩
  obtain ⟨found, hfound⟩ := h.fine.reads id
  rw [shapes_of_get hfound] at hshape
  obtain ⟨full, rfl, _⟩ := Option.map_eq_some_iff.mp hshape
  exact hids id full hfound

end Archive

/-- **An execution's history is moved**, or the move fails, or it was not to be moved. -/
theorem Execution.migrateHistory_cases (x : Execution) : x.migrateHistory = x ∨
    x.archive.history.kind = .perNode ∧
      ((∃ a, Archive.migrate x.archive = (.ok (), a) ∧
          x.migrateHistory = { x with archive := a, record := { x.record with storage := .bulk } }) ∨
        ∃ e a, Archive.migrate x.archive = (.error e, a) ∧ x.migrateHistory = { x with archive := a }) := by
  unfold migrateHistory
  split
  · next hmigrates =>
    rw [Bool.and_eq_true, beq_iff_eq] at hmigrates
    refine .inr ⟨hmigrates.2, ?_⟩
    obtain ⟨result, a, hmove⟩ : ∃ result a, Archive.migrate x.archive = (result, a) := ⟨_, _, rfl⟩
    have hon : onArchive Archive.migrate x = (result, { x with archive := a }) := by
      show ((Archive.migrate x.archive).1, { x with archive := (Archive.migrate x.archive).2 }) = _
      rw [hmove]
    rw [hon]
    cases result with
    | ok => exact .inl ⟨a, hmove, rfl⟩
    | error e => exact .inr ⟨e, a, hmove, rfl⟩
  · exact .inl rfl

end DurableFlow
