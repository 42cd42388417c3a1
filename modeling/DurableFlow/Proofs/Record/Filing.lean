/-
What an execution holds is in its files.

If the device takes every write and nothing stands in the way, a node that is held in memory is in its
file, unless it waits to be written. A history in one file is written only when it is flushed, and until
something new is stored the file is what was opened or written last. So after a flush the files hold the
whole history. The last node of an execution is flushed before the record is saved that says how it
ended, and so the files hold the history as it was at the end, in the layout that the record names.

The host may still refuse calls on the archive: a call that is refused changes neither the memory nor the
files.
-/
import DurableFlow.Proofs.Record.Results
import DurableFlow.Proofs.Record.Saving
import DurableFlow.Proofs.Storage.Refinement

set_option autoImplicit false

namespace DurableFlow

open Script Text History FileTree

/-- A file at the top is read as before if it is the same. -/
theorem FileTree.read_top {tree tree' : FileTree} {name : String} (hsame : SameAt tree tree' [name]) :
    tree'.read [name] = tree.read [name] := by
  have hfree : ∀ tree : FileTree, tree.isBlocked [name] = false := fun _ => rfl
  unfold FileTree.read
  rw [hsame, hfree, hfree]

namespace History

/-! ## One file per node -/

/-- The file of a node holds the node. -/
def HoldsNode (tree : FileTree) (id : Nat) (stored : StoredNode) : Prop :=
  ∃ n, Table.find? (nodePath id) tree.entries = some (.file n (stored.toJson.render .indented))

theorem HoldsNode.of_sameAt {tree tree' : FileTree} {id : Nat} {stored : StoredNode}
    (h : HoldsNode tree id stored) (hsame : SameAt tree tree' (nodePath id)) : HoldsNode tree' id stored := by
  obtain ⟨n, hfile⟩ := h
  exact ⟨n, Eq.trans hsame hfile⟩

namespace NodeFiles

variable {s : NodeFiles} {tree : FileTree}

/-- **Each node that is held and does not wait is in its file.** -/
def Filed (s : NodeFiles) (tree : FileTree) : Prop :=
  ∀ id stored, Table.find? id s.cache = some stored → Table.find? id s.deferred = none →
    HoldsNode tree id stored

/-- A node that is held is written, and the other files are as before. -/
theorem holds_write (h : tree.Tidy) (s : NodeFiles) (id : Nat) : ∃ tree',
    s.write tree id = (.ok (), tree') ∧ tree'.Tidy ∧
      (∀ stored, Table.find? id s.cache = some stored → HoldsNode tree' id stored) ∧
      ∀ m, m ≠ id → SameAt tree tree' (nodePath m) := by
  unfold write
  cases hstored : Table.find? id s.cache with
  | none => exact ⟨tree, rfl, h, fun _ hno => (by cases hno), fun _ _ => rfl⟩
  | some stored =>
    obtain ⟨tree', hwrite, htidy, hfile, hothers⟩ := h.writeJson (home_nodePath id) stored.toJson
    refine ⟨tree', hwrite, htidy, fun other hother => ?_, fun m hm => ?_⟩
    · cases hother
      exact hfile
    · have hne : nodePath m ≠ nodePath id := fun heq => hm (nodePath_injective heq)
      exact hothers _ hne (nodePath_ne_neighbour m id) (home_nodePath m).ne

/-- **A node is written**, after which all that do not wait are in their files if the others were. -/
theorem Filed.write (h : tree.Tidy) (s : NodeFiles) (id : Nat)
    (hothers : ∀ m stored, m ≠ id → Table.find? m s.cache = some stored → Table.find? m s.deferred = none →
      HoldsNode tree m stored) :
    (s.write tree id).2.Tidy ∧ s.Filed (s.write tree id).2 := by
  obtain ⟨tree', hwrite, htidy, hself, hsame⟩ := holds_write h s id
  rw [hwrite]
  refine ⟨htidy, fun m stored hstored hwaits => ?_⟩
  by_cases hm : m = id
  · subst hm
    exact hself stored hstored
  · exact (hothers m stored hm hstored hwaits).of_sameAt (hsame m hm)

/-- **Several nodes are written**, and then all are in their files if the others were. -/
theorem holds_writeAll (h : tree.Tidy) (s : NodeFiles) (ids : List Nat)
    (hothers : ∀ m stored, m ∉ ids → Table.find? m s.cache = some stored → HoldsNode tree m stored) :
    ∃ tree', s.writeAll tree ids = (.ok (), tree') ∧ tree'.Tidy ∧
      ∀ m stored, Table.find? m s.cache = some stored → HoldsNode tree' m stored := by
  induction ids generalizing tree with
  | nil => exact ⟨tree, rfl, h, fun m stored => hothers m stored List.not_mem_nil⟩
  | cons id rest ih =>
    obtain ⟨first, hwrite, htidy, hself, hsame⟩ := holds_write h s id
    have hnext : ∀ m stored, m ∉ rest → Table.find? m s.cache = some stored → HoldsNode first m stored := by
      intro m stored hm hstored
      by_cases hid : m = id
      · subst hid
        exact hself stored hstored
      · have hnone : m ∉ id :: rest := fun hmem => (List.mem_cons.mp hmem).elim hid hm
        exact (hothers m stored hnone hstored).of_sameAt (hsame m hid)
    obtain ⟨tree', hrest, htidy', hall⟩ := ih htidy hnext
    refine ⟨tree', ?_, htidy', hall⟩
    rw [writeAll, hwrite]
    exact hrest

/-- A node that does not wait is not among those that do. -/
theorem Filed.waits (h : s.Filed tree) : ∀ m stored, m ∉ Table.keys s.deferred →
    Table.find? m s.cache = some stored → HoldsNode tree m stored := by
  intro m stored hm hstored
  refine h m stored hstored ?_
  rw [Table.mem_keys] at hm
  simpa using hm

end NodeFiles

/-! ## One file for all -/

/-- The one file holds these nodes. -/
def Storage.HoldsAll (tree : FileTree) (contents : Contents) : Prop :=
  ∃ n, Table.find? bulkPath tree.entries =
    some (.file n ((Json.arr ((Table.values contents).map StoredNode.toJson)).render .indented))

namespace Bulk

/-- The file is opened as before if it is the same. -/
theorem openIn_congr {tree tree' : FileTree} (hsame : SameAt tree tree' bulkPath) : openIn tree' = openIn tree := by
  have hread : tree'.read bulkPath = tree.read bulkPath := FileTree.read_top hsame
  unfold openIn
  rw [FileTree.readJson_congr hread]

/-- **The nodes of one file** are in the order of their numbers, each under its own. -/
structure Ordered (bulk : Bulk) : Prop where
  sorted : Table.Sorted bulk.nodes
  own : Contents.Own bulk.nodes

theorem ordered_fresh : Ordered .fresh := ⟨.nil, fun _ _ hno => by cases hno⟩

theorem Ordered.written {bulk : Bulk} (h : bulk.Ordered) : Ordered { bulk with dirty := false } :=
  ⟨h.sorted, h.own⟩

theorem Ordered.store {bulk : Bulk} (h : bulk.Ordered) (node : Node) : (bulk.store node).Ordered :=
  ⟨Contents.sorted_ask h.sorted (.store node false), h.own.ask (.store node false)⟩

theorem Ordered.saveActions {bulk : Bulk} (h : bulk.Ordered) (id : Nat) (actions : List Action) :
    (bulk.saveActions id actions).2.Ordered := by
  have hnodes : (bulk.saveActions id actions).2.nodes =
      (Contents.ask bulk.nodes (.saveActions id actions)).2 := by
    cases hfound : Table.find? id bulk.nodes with
    | none => simp only [Bulk.saveActions, Contents.ask, hfound]
    | some stored => simp only [Bulk.saveActions, Contents.ask, hfound]
  constructor
  · rw [hnodes]
    exact Contents.sorted_ask h.sorted _
  · rw [hnodes]
    exact h.own.ask _

/-- Several nodes are stored. -/
theorem Ordered.stores {bulk : Bulk} (h : bulk.Ordered) (hdirty : bulk.dirty = true) (nodes : List Node) :
    (nodes.foldl Bulk.store bulk).Ordered ∧ (nodes.foldl Bulk.store bulk).dirty = true := by
  induction nodes generalizing bulk with
  | nil => exact ⟨h, hdirty⟩
  | cons node rest ih => exact ih (h.store node) rfl

/-- **A history in one file is filed**: it is in order, and unless something new waits the file is as it was
opened or written. -/
structure Filed (bulk : Bulk) (tree : FileTree) : Prop where
  ordered : bulk.Ordered
  written : bulk.dirty = false → openIn tree = .ok bulk ∨ Storage.HoldsAll tree bulk.nodes

theorem Filed.of_dirty {bulk : Bulk} (hordered : bulk.Ordered) (hdirty : bulk.dirty = true) (tree : FileTree) :
    bulk.Filed tree :=
  ⟨hordered, fun hno => absurd (hdirty.symm.trans hno) Bool.noConfusion⟩

theorem Filed.of_holds {bulk : Bulk} (hordered : bulk.Ordered) {tree : FileTree}
    (hholds : Storage.HoldsAll tree bulk.nodes) : bulk.Filed tree :=
  ⟨hordered, fun _ => .inr hholds⟩

theorem Filed.of_sameAt {bulk : Bulk} {tree tree' : FileTree} (h : bulk.Filed tree)
    (hsame : SameAt tree tree' bulkPath) : bulk.Filed tree' := by
  refine ⟨h.ordered, fun hclean => (h.written hclean).imp (openIn_congr hsame).trans ?_⟩
  exact fun ⟨n, hfile⟩ => ⟨n, Eq.trans hsame hfile⟩

theorem Filed.saveActions {bulk : Bulk} {tree : FileTree} (h : bulk.Filed tree) (id : Nat) (actions : List Action) :
    (bulk.saveActions id actions).2.Filed tree := by
  have hordered := h.ordered.saveActions id actions
  unfold Bulk.saveActions at hordered ⊢
  split
  · exact h
  -- what is put beside a node waits to be written
  · next heq =>
    rw [heq] at hordered
    exact .of_dirty hordered rfl tree

/-- The nodes that a file holds are put in order. -/
theorem ordered_openIn {whole : Bulk} {tree : FileTree} (h : Bulk.openIn tree = .ok whole) : whole.Ordered := by
  unfold Bulk.openIn at h
  split at h
  · cases h
  · cases h
    refine ⟨Table.Sorted.ofEntries _, fun id stored hstored => ?_⟩
    obtain ⟨other, _, heq⟩ := List.mem_map.mp (Table.mem_ofEntries (Table.mem_of_find? hstored))
    cases heq
    rfl

end Bulk

/-! ## Either layout -/

namespace Storage

/-- **What is held is filed**, in either layout. -/
def Filed : Storage → FileTree → Prop
  | .perNode files, tree => files.Filed tree
  | .bulk whole, tree => whole.Filed tree

/-- **A history in its files**, in a tree in which nothing stands in the way. -/
structure InFiles (s : Storage) (tree : FileTree) : Prop where
  tidy : tree.Tidy
  filed : s.Filed tree

variable {s : Storage} {tree : FileTree}

theorem InFiles.of_sameAt {tree' : FileTree} (h : s.InFiles tree) (htidy : tree'.Tidy)
    (hsame : ∀ id, SameAt tree tree' (nodePath id)) (hbulk : SameAt tree tree' bulkPath) : s.InFiles tree' := by
  refine ⟨htidy, ?_⟩
  cases s with
  | perNode files => exact fun id stored hstored hwaits => (h.filed id stored hstored hwaits).of_sameAt (hsame id)
  | bulk bulk =>
    have hfiled : bulk.Filed tree := h.filed
    exact hfiled.of_sameAt hbulk

theorem InFiles.store (h : s.InFiles tree) (node : Node) (defer : Bool) :
    (s.store tree node defer).2.1.InFiles (s.store tree node defer).2.2 := by
  cases s with
  | bulk bulk =>
    have hfiled : bulk.Filed tree := h.filed
    exact ⟨h.tidy, .of_dirty (hfiled.ordered.store node) rfl tree⟩
  | perNode files =>
    have hfiled : files.Filed tree := h.filed
    simp only [Storage.store, NodeFiles.store]
    split
    · exact h
    · next existing _ =>
      let stored : StoredNode := { node, actions := (existing.map StoredNode.actions).getD [] }
      -- of the other nodes neither the files nor what is in memory has changed
      have hothers : ∀ m other, m ≠ node.id →
          Table.find? m (Table.insert node.id stored files.cache) = some other →
          Table.find? m files.deferred = none → HoldsNode tree m other := by
        intro m other hm hother hwaits
        rw [Table.find?_insert_of_ne hm] at hother
        exact hfiled m other hother hwaits
      cases defer with
      | true =>
        refine ⟨h.tidy, fun m other hother hwaits => ?_⟩
        change Table.find? m (Table.insert node.id () files.deferred) = none at hwaits
        have hm : m ≠ node.id := by
          rintro rfl
          rw [Table.find?_insert_self] at hwaits
          cases hwaits
        rw [Table.find?_insert_of_ne hm] at hwaits
        exact hothers m other hm hother hwaits
      | false =>
        let files' : NodeFiles :=
          { cache := Table.insert node.id stored files.cache
            deferred := Table.erase node.id files.deferred }
        have hwritten := NodeFiles.Filed.write h.tidy files' node.id fun m other hm hother hwaits =>
          hothers m other hm hother ((Table.find?_erase_of_ne hm _).symm.trans hwaits)
        exact ⟨hwritten.1, hwritten.2⟩

theorem InFiles.saveActions (h : s.InFiles tree) (id : Nat) (actions : List Action) :
    (s.saveActions tree id actions).2.1.InFiles (s.saveActions tree id actions).2.2 := by
  cases s with
  | bulk bulk =>
    have hfiled : bulk.Filed tree := h.filed
    exact ⟨h.tidy, hfiled.saveActions id actions⟩
  | perNode files =>
    have hfiled : files.Filed tree := h.filed
    simp only [Storage.saveActions, NodeFiles.saveActions]
    split
    · exact h
    · exact h
    · next stored _ =>
      let files' : NodeFiles :=
        { files with cache := Table.insert id { stored with actions } files.cache }
      have hothers : ∀ m other, m ≠ id → Table.find? m files'.cache = some other →
          Table.find? m files.deferred = none → HoldsNode tree m other := by
        intro m other hm hother hwaits
        rw [Table.find?_insert_of_ne hm] at hother
        exact hfiled m other hother hwaits
      split
      · next hdeferred =>
        refine ⟨h.tidy, fun m other hother hwaits => hothers m other ?_ hother hwaits⟩
        rintro rfl
        change Table.find? m files.deferred = none at hwaits
        rw [Table.contains, hwaits] at hdeferred
        cases hdeferred
      · have hwritten := NodeFiles.Filed.write h.tidy files' id hothers
        exact ⟨hwritten.1, hwritten.2⟩

theorem InFiles.autopersist (h : s.InFiles tree) (id : Nat) :
    (s.autopersist tree id).2.1.InFiles (s.autopersist tree id).2.2 := by
  cases s with
  | bulk bulk => exact h
  | perNode files =>
    have hfiled : files.Filed tree := h.filed
    simp only [Storage.autopersist, NodeFiles.autopersist]
    split
    · let files' : NodeFiles := { files with deferred := Table.erase id files.deferred }
      have hwritten := NodeFiles.Filed.write h.tidy files' id fun m other hm hother hwaits =>
        hfiled m other hother ((Table.find?_erase_of_ne hm _).symm.trans hwaits)
      exact ⟨hwritten.1, hwritten.2⟩
    · exact h

/-! ## After a flush -/

/-- **Nothing waits to be written.** -/
def Flushed : Storage → FileTree → Prop
  | .perNode files, _ => files.deferred = []
  | .bulk whole, tree => whole.dirty = false ∧ HoldsAll tree whole.nodes

/-- Whether a flush writes the history: node files always do, one file if there is something new. -/
def IsDirty : Storage → Prop
  | .perNode _ => True
  | .bulk whole => whole.dirty = true

/-- A history in one file is written, and no file of a node is touched. -/
theorem flush_dirty (h : tree.Tidy) {bulk : Bulk} (hdirty : bulk.dirty = true) : ∃ tree',
    bulk.flush tree = (.ok (), { bulk with dirty := false }, tree') ∧ tree'.Tidy ∧
      HoldsAll tree' bulk.nodes := by
  have hhome : Home bulkPath := home_top (by decide) (by decide)
  obtain ⟨tree', hwrite, htidy, hfile, _⟩ := h.writeJson hhome
    (.arr ((Table.values bulk.nodes).map StoredNode.toJson))
  refine ⟨tree', ?_, htidy, hfile⟩
  unfold Bulk.flush
  rw [if_pos hdirty, hwrite]

theorem InFiles.flush (h : s.InFiles tree) : (s.flush tree).2.1.InFiles (s.flush tree).2.2 ∧
    (s.IsDirty → (s.flush tree).2.1.Flushed (s.flush tree).2.2) := by
  cases s with
  | bulk bulk =>
    cases hdirty : bulk.dirty with
    | true =>
      obtain ⟨tree', hflush, htidy, hholds⟩ := flush_dirty h.tidy hdirty
      have hfiled : bulk.Filed tree := h.filed
      simp only [Storage.flush, hflush]
      exact ⟨⟨htidy, .of_holds hfiled.ordered.written hholds⟩, fun _ => ⟨rfl, hholds⟩⟩
    | false =>
      have hflush : bulk.flush tree = (.ok (), bulk, tree) := by
        simp only [Bulk.flush, hdirty, Bool.false_eq_true, if_false]
      simp only [Storage.flush, hflush]
      refine ⟨h, fun hno => ?_⟩
      rw [show bulk.dirty = true from hno] at hdirty
      cases hdirty
  | perNode files =>
    have hfiled : files.Filed tree := h.filed
    obtain ⟨tree', hwrite, htidy, hall⟩ :=
      NodeFiles.holds_writeAll h.tidy files (Table.keys files.deferred) hfiled.waits
    simp only [Storage.flush, NodeFiles.flush, hwrite]
    exact ⟨⟨htidy, fun id stored hstored _ => hall id stored hstored⟩, fun _ => rfl⟩

theorem Flushed.of_sameAt {tree' : FileTree} (h : s.Flushed tree) (hsame : SameAt tree tree' bulkPath) :
    s.Flushed tree' := by
  cases s with
  | perNode files => exact h
  | bulk bulk =>
    obtain ⟨hclean, n, hfile⟩ := h
    exact ⟨hclean, n, Eq.trans hsame hfile⟩

/-- What is stored has to be written. -/
theorem dirty_store (s : Storage) (tree : FileTree) (node : Node) (defer : Bool) :
    (s.store tree node defer).2.1.IsDirty := by
  cases s with
  | perNode files => trivial
  | bulk bulk => rfl

/-! ## What is opened -/

/-- **A layout is opened** on the files that are there. -/
theorem openIn_eq_ok {s : Storage} {tree tree' : FileTree} {kind : StorageKind}
    (h : Storage.openIn kind tree = .ok (s, tree')) :
    (kind = .perNode ∧ s = .perNode {} ∧
        tree' = tree.addDirectories (nodeDirectory.ancestors ++ [nodeDirectory])) ∨
      kind = .bulk ∧ tree' = tree ∧ ∃ whole, Bulk.openIn tree = .ok whole ∧ s = .bulk whole := by
  cases kind with
  | perNode =>
    cases hplace : tree.isFile nodeDirectory with
    | false =>
      rw [openIn_perNode (NodeFiles.openIn_of_place hplace)] at h
      cases h
      exact .inl ⟨rfl, rfl, rfl⟩
    | true =>
      unfold Storage.openIn NodeFiles.openIn FileTree.makeDirectory at h
      rw [hplace] at h
      cases h
  | bulk =>
    cases hopen : Bulk.openIn tree with
    | error e =>
      unfold Storage.openIn at h
      rw [hopen] at h
      cases h
    | ok whole =>
      rw [openIn_bulk hopen] at h
      cases h
      exact .inr ⟨rfl, rfl, whole, rfl, rfl⟩

theorem filed_openIn {s : Storage} {tree tree' : FileTree} {kind : StorageKind}
    (h : Storage.openIn kind tree = .ok (s, tree')) : s.kind = kind ∧ s.Filed tree' := by
  rcases openIn_eq_ok h with ⟨rfl, rfl, _⟩ | ⟨rfl, rfl, whole, hopen, rfl⟩
  · exact ⟨rfl, fun id stored hno => by cases hno⟩
  · exact ⟨rfl, Bulk.ordered_openIn hopen, fun _ => .inl hopen⟩

/-! ## Layouts -/

theorem kind_store (s : Storage) (tree : FileTree) (node : Node) (defer : Bool) :
    (s.store tree node defer).2.1.kind = s.kind := by
  cases s <;> rfl

theorem kind_flush (s : Storage) (tree : FileTree) : (s.flush tree).2.1.kind = s.kind := by
  cases s <;> rfl

theorem kind_saveActions (s : Storage) (tree : FileTree) (id : Nat) (actions : List Action) :
    (s.saveActions tree id actions).2.1.kind = s.kind := by
  cases s <;> rfl

theorem kind_autopersist (s : Storage) (tree : FileTree) (id : Nat) :
    (s.autopersist tree id).2.1.kind = s.kind := by
  cases s <;> rfl

end Storage

end History

/-! ## Archives -/

namespace Archive

variable {a a' : Archive}

/-- **The history of an archive is in its files.** -/
def InFiles (a : Archive) : Prop := a.history.InFiles a.tree

/-- Writing a file at the top leaves the history in memory as it is. -/
theorem history_onTree (call : ArchiveCall) (f : FileTree → EngineResult Unit × FileTree) (a : Archive) :
    ((do announce call; onTree f : Attempt Archive Unit).after a).history = a.history := by
  obtain ⟨journal, ⟨e, heq⟩ | heq⟩ := onTree_cases call f a
  · rw [Attempt.after, heq]
  · rw [Attempt.after, heq]

theorem history_saveRecord (record : Record) (a : Archive) : (saveRecord record a).2.history = a.history :=
  history_onTree .saveRecord (·.writeJson recordPath record.toJson) a

/-- A file at the top is written or refused. -/
theorem InFiles.writeTop (h : a.InFiles) {name : String} (hhome : Home [name])
    (hbulk : Path.Apart [name] bulkPath) (json : Json) (call : ArchiveCall) :
    InFiles ((do announce call; onTree (·.writeJson [name] json) : Attempt Archive Unit).after a) := by
  obtain ⟨tree', hwrite, htidy, _, hothers⟩ := h.tidy.writeJson hhome json
  have hsame : ∀ id, SameAt a.tree tree' (nodePath id) := fun id =>
    hothers _ (nodePath_ne_top id name) (nodePath_ne_top id (name ++ ".tmp")) (home_nodePath id).ne
  obtain ⟨journal, ⟨e, heq⟩ | heq⟩ := onTree_cases call (·.writeJson [name] json) a
  · rw [Attempt.after, heq]
    exact h
  · rw [Attempt.after, heq]
    show a.history.InFiles (a.tree.writeJson [name] json).2
    have hsameBulk : SameAt a.tree (a.tree.writeJson [name] json).2 bulkPath := sameAt_writeJson hbulk json
    rw [hwrite] at hsameBulk ⊢
    exact h.of_sameAt htidy hsame hsameBulk

theorem apart_record_bulk : recordPath.Apart bulkPath := ⟨by decide, by decide, by decide⟩

theorem InFiles.saveRecord (h : a.InFiles) (record : Record) : InFiles ((saveRecord record).after a) :=
  h.writeTop (home_top (by decide) (by decide)) apart_record_bulk record.toJson .saveRecord

theorem InFiles.saveProgram (h : a.InFiles) (program : SavedProgram) :
    InFiles ((saveProgram program).after a) :=
  h.writeTop (home_top (by decide) (by decide)) ⟨by decide, by decide, by decide⟩ program.toJson .saveProgram

theorem InFiles.log (h : a.InFiles) (line : String) : (a.log line).InFiles := by
  have hhome : Home logPath := home_top (by decide) (by decide)
  obtain ⟨htidy, hothers⟩ := h.tidy.append hhome.toPlace a.logFile (line ++ "\n")
  exact Storage.InFiles.of_sameAt h htidy (fun id => hothers _ (nodePath_ne_top id "log")) (hothers _ (by decide))

/-- A call on the history. -/
theorem InFiles.historyCall (h : a.InFiles) (call : ArchiveCall)
    {f : Storage → FileTree → EngineResult Unit × Storage × FileTree}
    (hf : (f a.history a.tree).2.1.InFiles (f a.history a.tree).2.2)
    (hkind : (f a.history a.tree).2.1.kind = a.history.kind) :
    InFiles ((historyCall call f).after a) ∧ ((historyCall call f).after a).history.kind = a.history.kind := by
  obtain ⟨journal, ⟨e, heq⟩ | heq⟩ := historyCall_cases call f a
  · rw [Attempt.after, heq]
    exact ⟨h, rfl⟩
  · rw [Attempt.after, heq]
    exact ⟨hf, hkind⟩

/-- **Calls on the history and the log** leave it in its files and in its layout. -/
theorem InFiles.call (h : a.InFiles) (hcall : a.Call a') :
    a'.InFiles ∧ a'.history.kind = a.history.kind := by
  have hfiles : a.history.InFiles a.tree := h
  cases hcall with
  | log line => exact ⟨h.log line, rfl⟩
  | store node defer => exact h.historyCall _ (hfiles.store node defer) (Storage.kind_store _ _ _ _)
  | flush => exact h.historyCall _ hfiles.flush.1 (Storage.kind_flush _ _)
  | saveActions id actions =>
    exact h.historyCall _ (hfiles.saveActions id actions) (Storage.kind_saveActions _ _ _ _)
  | autopersist id => exact h.historyCall _ (hfiles.autopersist id) (Storage.kind_autopersist _ _ _)

/-- A node was stored. -/
theorem dirty_of_store {node : Node} {defer : Bool} (h : store node defer a = (.ok (), a')) :
    a'.history.IsDirty := by
  obtain ⟨journal, ⟨e, heq⟩ | heq⟩ :=
    historyCall_cases (.store node.id defer) (fun s tree => s.store tree node defer) a
  · rw [store, heq] at h
    cases h
  · rw [store, heq] at h
    obtain ⟨_, rfl⟩ := Prod.mk.inj h
    exact Storage.dirty_store _ _ _ _

/-- **What had to be written is written.** -/
theorem InFiles.flushed (hfiles : a.InFiles) (hdirty : a.history.IsDirty) (h : flush a = (.ok (), a')) :
    a'.history.Flushed a'.tree := by
  obtain ⟨journal, ⟨e, heq⟩ | heq⟩ := historyCall_cases .flush Storage.flush a
  · rw [flush, heq] at h
    cases h
  · rw [flush, heq] at h
    obtain ⟨_, rfl⟩ := Prod.mk.inj h
    exact (Storage.InFiles.flush hfiles).2 hdirty

/-- A copy of a history is in the order of the numbers of its nodes, and has to be written. -/
theorem ordered_copyInto {bulk bulk' : Bulk} {nodes : List Node} (hcopy : a.copyInto bulk nodes = .ok bulk')
    (h : bulk.Ordered) (hdirty : bulk.dirty = true) : bulk'.Ordered ∧ bulk'.dirty = true := by
  induction nodes generalizing bulk with
  | nil =>
    cases hcopy
    exact ⟨h, hdirty⟩
  | cons node rest ih =>
    have hstored := h.store node
    rw [copyInto] at hcopy
    split at hcopy
    · cases hcopy
    · next actions _ =>
      dsimp only at hcopy
      split at hcopy
      · exact ih hcopy hstored rfl
      · split at hcopy
        · next saved hsaved =>
          have hordered := hstored.saveActions node.id actions
          rw [hsaved] at hordered
          refine ih hcopy hordered ?_
          unfold Bulk.saveActions at hsaved
          split at hsaved
          · cases hsaved
          · cases hsaved
            rfl
        · cases hcopy

/-- **Moving the history** leaves it where it is, or writes all of it to one file. -/
theorem InFiles.migrate (h : a.InFiles) : (∃ e journal, migrate a = (.error e, { a with journal })) ∨
    ∃ a', Archive.migrate a = (.ok (), a') ∧ a'.InFiles ∧ a'.history.Flushed a'.tree ∧
      a'.history.kind = .bulk := by
  obtain ⟨journal, ⟨e, heq⟩ | ⟨nodes, bulk, _, hcopy, heq⟩⟩ := migrate_eq a
  · exact .inl ⟨e, journal, heq⟩
  · obtain ⟨hordered, hdirty⟩ := ordered_copyInto hcopy Bulk.ordered_fresh rfl
    obtain ⟨tree', hflush, htidy, hholds⟩ := Storage.flush_dirty h.tidy hdirty
    rw [hflush] at heq
    exact .inr ⟨_, heq, ⟨htidy, .of_holds hordered.written hholds⟩, ⟨rfl, hholds⟩, rfl⟩

end Archive

/-! ## Executions -/

namespace Execution

variable {x y : Execution}

/-- **The history of an execution is in its files**, in the layout that the record names. -/
structure InFiles (x : Execution) : Prop where
  files : x.archive.InFiles
  kind : x.archive.history.kind = x.record.storage

namespace InFiles

theorem of_same (h : InFiles x) (harchive : y.archive = x.archive)
    (hstorage : y.record.storage = x.record.storage) : InFiles y :=
  ⟨harchive ▸ h.files, by rw [harchive, hstorage]; exact h.kind⟩

theorem basic (h : InFiles x) (hxy : BasicChange x y) : InFiles y := by
  cases hxy with
  | aside haside => exact h.of_same haside.archive (by rw [haside.record])
  | edit hedit =>
    refine h.of_same rfl ?_
    cases hedit with | _ => rfl
  | called function _ => exact h.of_same rfl rfl
  | interrupted result causes _ => exact h.of_same rfl rfl
  | call hcall =>
    obtain ⟨hfiles, hkind⟩ := h.files.call hcall
    exact ⟨hfiles, hkind.trans h.kind⟩
  | save =>
    refine ⟨h.files.saveRecord x.record, Eq.trans ?_ h.kind⟩
    exact congrArg Storage.kind (Archive.history_onTree _ _ x.archive)

/-- Moving the history leaves it in its files, and nothing waits that did not. -/
theorem migrated (h : InFiles x) : InFiles x.migrateHistory ∧
    (x.archive.history.Flushed x.archive.tree →
      x.migrateHistory.archive.history.Flushed x.migrateHistory.archive.tree) := by
  rcases x.migrateHistory_cases with hsame | ⟨_, ⟨a, hmove, heq⟩ | ⟨e, a, hmove, heq⟩⟩
  · rw [hsame]
    exact ⟨h, id⟩
  · rcases h.files.migrate with ⟨e, journal, hfailed⟩ | ⟨a', hmoved, hfiles, hflushed, hkind⟩
    · cases hmove.symm.trans hfailed
    · cases hmove.symm.trans hmoved
      rw [heq]
      exact ⟨⟨hfiles, hkind⟩, fun _ => hflushed⟩
  · rcases h.files.migrate with ⟨e, journal, hfailed⟩ | ⟨a', hmoved, _⟩
    · cases hmove.symm.trans hfailed
      rw [heq]
      exact ⟨⟨h.files, h.kind⟩, id⟩
    · cases hmove.symm.trans hmoved

/-- **Whatever is asked of an execution**, its history stays in its files. -/
theorem lasts : Lasts fun x y => InFiles x → InFiles y where
  refl _ h := h
  trans hxy hyz h := hyz (hxy h)
  basic hxy h := h.basic hxy
  program x h := by
    refine ⟨h.files.saveProgram _, Eq.trans ?_ h.kind⟩
    exact congrArg Storage.kind (Archive.history_onTree _ _ x.archive)
  marked _ _ h := h.of_same rfl rfl
  beside _ hrecord harchive _ h := h.of_same harchive (by rw [hrecord])
  refuses _ _ h := ⟨h.files, h.kind⟩
  ending hxy h := by
    cases hxy with
    | basic hbasic => exact h.basic hbasic
    | migrated => exact h.migrated.1
    | _ => exact h.of_same rfl rfl

end InFiles

/-! ## At the end -/

/-- **The end is recorded**: nothing waits to be written, and the file of the record holds the record. -/
structure Recorded (x : Execution) : Prop extends InFiles x where
  flushed : x.archive.history.Flushed x.archive.tree
  record : x.archive.HoldsRecord x.record

theorem dirty_of_writeEndNode {error : Option Failure} (h : writeEndNode error x = (.ok (), y)) :
    y.archive.history.IsDirty := by
  obtain ⟨start, _, _, h⟩ := Attempt.bind_eq_ok h
  obtain ⟨record, _, _, h⟩ := Attempt.bind_eq_ok h
  obtain ⟨head, _, _, h⟩ := Attempt.bind_eq_ok h
  obtain ⟨id, _, _, h⟩ := Attempt.bind_eq_ok h
  obtain ⟨now, z, _, h⟩ := Attempt.bind_eq_ok h
  obtain ⟨_, stored, hstore, h⟩ := Attempt.bind_eq_ok h
  cases h
  obtain ⟨hok, rfl⟩ := Prod.mk.inj hstore
  exact Archive.dirty_of_store (a := z.archive) (Prod.ext hok rfl)

/-- What an update leads to. -/
theorem of_update {f : Execution → Execution} {done : Unit} (h : Attempt.update f x = (.ok done, y)) : f x = y :=
  congrArg Prod.snd h

namespace InFiles

/-- What has to be written is flushed. -/
theorem flush (h : InFiles x) (hdirty : x.archive.history.IsDirty)
    (hflush : onArchive Archive.flush x = (.ok (), y)) :
    InFiles y ∧ y.archive.history.Flushed y.archive.tree := by
  obtain ⟨hflushed, heq⟩ := of_onArchive hflush
  have hcall : InFiles { x with archive := Archive.flush.after x.archive } := h.basic (.call .flush)
  rw [Attempt.after, hflushed, ← heq] at hcall
  exact ⟨hcall, h.files.flushed hdirty hflushed⟩

/-- The record is saved when nothing waits any more. -/
theorem save (h : InFiles x) (hflushed : x.archive.history.Flushed x.archive.tree)
    (hsave : saveRecord x = (.ok (), y)) : Recorded y := by
  obtain ⟨hwritten, _⟩ := of_saveRecord hsave
  have hafter : writeRecord.after (x.editRecord id) = y := congrArg Prod.snd hsave
  have htouched : InFiles (x.editRecord id) := h.of_same rfl rfl
  have hhistory := Archive.history_saveRecord y.record x.archive
  have hsame := Archive.sameAt_saveRecord Archive.apart_record_bulk y.record x.archive
  rw [hwritten] at hhistory hsame
  refine ⟨hafter ▸ htouched.basic .save, ?_, holdsRecord_of_save hsave⟩
  rw [hhistory]
  exact hflushed.of_sameAt hsame

/-- **Writing the end records it.** -/
theorem write {outcome : Outcome} (h : InFiles x) (hwrites : writeOutcome outcome x = (.ok (), y)) :
    Recorded y := by
  let noted := x.mapRecord fun r => { r.worsen (resultOf outcome) with error := failureOf? outcome }
  have hnoted : InFiles noted := h.of_same rfl rfl
  obtain ⟨_, z, hz, hwrites⟩ := Attempt.bind_eq_ok hwrites
  obtain rfl := of_update hz
  -- the last node has to be written, and so the flush writes all there is
  obtain ⟨_, ended, hnode, hwrites⟩ := Attempt.bind_eq_ok hwrites
  have hends := endChanges_writeEndNode (failureOf? outcome) noted
  rw [Attempt.after, hnode] at hends
  obtain ⟨_, flushed, hflush, hwrites⟩ := Attempt.bind_eq_ok hwrites
  obtain ⟨hfiles, hflushed⟩ := (lasts.ends hends hnoted).flush (dirty_of_writeEndNode hnode) hflush
  obtain ⟨hmigrated, hwritten⟩ := hfiles.migrated
  obtain ⟨_, moved, hmoved, hwrites⟩ := Attempt.bind_eq_ok hwrites
  rw [of_update hmoved] at hmigrated hwritten
  obtain ⟨_, settled, hsettled, hsave⟩ := Attempt.bind_eq_ok hwrites
  obtain rfl := of_update hsettled
  have hsettled : InFiles (moved.mapRecord fun r => { r with clean := true }) := hmigrated.of_same rfl rfl
  exact hsettled.save (hwritten hflushed) hsave

/-- **An execution whose end can be recorded** has it recorded at the end. -/
theorem finish {outcome : Outcome} (h : InFiles x) (hopen : x.record.done = false)
    (hrecords : x.records outcome = true) : Recorded (x.finish outcome) := by
  obtain ⟨y, hwrites⟩ := writes_of_records hrecords
  obtain ⟨hfiles, hflushed, hrecord⟩ := h.write hwrites
  have hfinish : x.finish outcome = y.announceEnd := by
    rw [finish_of_open hopen, if_pos hrecords, Attempt.after, hwrites]
  have hlog : ∀ {path : Path}, path ≠ Archive.logPath →
      SameAt y.archive.tree y.announceEnd.archive.tree path := fun hpath => sameAt_append _ hpath
  rw [hfinish]
  refine ⟨⟨hfiles.files.log _, hfiles.kind⟩, ?_, ?_⟩
  · exact hflushed.of_sameAt (hlog (by decide))
  · exact hrecord.of_sameAt (hlog (by decide))

end InFiles

end Execution

end DurableFlow
