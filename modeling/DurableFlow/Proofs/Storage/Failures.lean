/-
What a failed write leaves behind.

A node that is not in its file yet is on the list of those that wait, and a flush writes that list. Node
files take a node off the list before they write it. If the write fails, the node is held in memory, it
is not in its file, and nothing knows of it: the next flush writes nothing and reports that all is well.
A flush that fails does the same to every node behind the one that failed. One file for all keeps its
mark until the file is written, and forgets nothing.

So what can be relied on is said of each node: it is secure as long as no request fails that was to
write it. After a flush that succeeds, a storage opened anew answers for a secure node as this one does.
Nothing is assumed about the device: any write may be refused, and anything may stand in the way.
-/
import DurableFlow.Proofs.History.Codec

set_option autoImplicit false

namespace DurableFlow.History

open FileTree

/-! ## One write and several -/

namespace NodeFiles

variable {s : NodeFiles} {tree : FileTree} {id m : Nat}

/-- **A node that is held is written, or its file is as it was.** -/
theorem write_cases (s : NodeFiles) (tree : FileTree) (id : Nat) :
    ((s.write tree id).1 = .ok () ∧
        ∀ stored, Table.find? id s.cache = some stored → HoldsNode (s.write tree id).2 id stored) ∨
      (∃ e, (s.write tree id).1 = .error e) ∧ SameAt tree (s.write tree id).2 (nodePath id) := by
  unfold write
  cases hstored : Table.find? id s.cache with
  | none => exact .inl ⟨rfl, fun _ hno => by cases hno⟩
  | some stored =>
    have hne := nodePath_ne_neighbour id id
    have habove : nodePath id ∉ (nodePath id).neighbour.ancestors :=
      fun hmem => (home_nodePath id).ne (List.mem_singleton.mp hmem)
    rcases writeJson_cases hne habove stored.toJson with ⟨hok, hfile⟩ | hfailed
    · refine .inl ⟨hok, fun other hother => ?_⟩
      cases hother
      exact hfile
    · exact .inr hfailed

theorem sameAt_write_of_ne (s : NodeFiles) (tree : FileTree) (h : m ≠ id) :
    SameAt tree (s.write tree id).2 (nodePath m) := by
  have habove : nodePath m ∉ (nodePath id).neighbour.ancestors :=
    fun hmem => (home_nodePath m).ne (List.mem_singleton.mp hmem)
  unfold write
  split
  · exact sameAt_writeJson ⟨fun heq => h (nodePath_injective heq), nodePath_ne_neighbour m id, habove⟩ _
  · rfl

theorem sameAt_writeAll_of_notMem (s : NodeFiles) {ids : List Nat} (tree : FileTree) (h : m ∉ ids) :
    SameAt tree (s.writeAll tree ids).2 (nodePath m) := by
  induction ids generalizing tree with
  | nil => rfl
  | cons id rest ih =>
    have hwrite := s.sameAt_write_of_ne tree (fun heq => h (List.mem_cons.mpr (.inl heq)))
    unfold writeAll
    split
    · next written hok =>
      rw [hok] at hwrite
      exact hwrite.trans (ih written fun hmem => h (List.mem_cons_of_mem _ hmem))
    · next written hfailed =>
      rw [hfailed] at hwrite
      exact hwrite

/-- **Nodes are written up to the first that fails.** Those before it are in their files, its own file
and the files behind it are as they were. -/
theorem writeAll_cases (s : NodeFiles) (tree : FileTree) {ids : List Nat} (hnodup : ids.Nodup) :
    ∃ written left, ids = written ++ left ∧
      (∀ id ∈ written, ∀ stored, Table.find? id s.cache = some stored →
        HoldsNode (s.writeAll tree ids).2 id stored) ∧
      (∀ id ∈ left, SameAt tree (s.writeAll tree ids).2 (nodePath id)) ∧
      ((s.writeAll tree ids).1 = .ok () ∧ left = [] ∨
        (∃ e, (s.writeAll tree ids).1 = .error e) ∧ left ≠ []) := by
  induction ids generalizing tree with
  | nil => exact ⟨[], [], rfl, fun _ hno => (by cases hno), fun _ hno => (by cases hno), .inl ⟨rfl, rfl⟩⟩
  | cons id rest ih =>
    obtain ⟨hid, hrest⟩ := List.nodup_cons.mp hnodup
    rcases s.write_cases tree id with ⟨hok, hself⟩ | ⟨⟨e, hfailed⟩, hsame⟩
    · obtain ⟨first, hwrite⟩ : ∃ first, s.write tree id = (.ok (), first) := ⟨_, Prod.ext hok rfl⟩
      obtain ⟨written, left, rfl, hholds, hleft, hresult⟩ := ih first hrest
      have hunfold : s.writeAll tree (id :: (written ++ left)) = s.writeAll first (written ++ left) := by
        rw [writeAll, hwrite]
      rw [hunfold]
      refine ⟨id :: written, left, rfl, fun m hm stored hstored => ?_, fun m hm => ?_, hresult⟩
      · rcases List.mem_cons.mp hm with rfl | hm
        · have hfirst : HoldsNode first m stored := by
            have hheld := hself stored hstored
            rwa [hwrite] at hheld
          -- no node is named twice, so the writes behind this one leave its file alone
          exact hfirst.of_sameAt (s.sameAt_writeAll_of_notMem first hid)
        · exact hholds m hm stored hstored
      · have hne : m ≠ id := by
          rintro rfl
          exact hid (List.mem_append_right _ hm)
        have hbefore : SameAt tree first (nodePath m) := by
          have hother := s.sameAt_write_of_ne tree hne
          rwa [hwrite] at hother
        exact hbefore.trans (hleft m hm)
    · obtain ⟨first, hwrite⟩ : ∃ first, s.write tree id = (.error e, first) := ⟨_, Prod.ext hfailed rfl⟩
      have hunfold : s.writeAll tree (id :: rest) = (.error e, first) := by
        rw [writeAll, hwrite]
      rw [hwrite] at hsame
      rw [hunfold]
      refine ⟨[], id :: rest, rfl, fun _ hno => (by cases hno), fun m hm => ?_,
        .inr ⟨⟨e, rfl⟩, List.cons_ne_nil _ _⟩⟩
      rcases List.mem_cons.mp hm with rfl | hm
      · exact hsame
      · have hother := s.sameAt_write_of_ne tree fun heq : m = id => hid (heq ▸ hm)
        rwa [hwrite] at hother

/-- What is written is what is held; the list of those that wait has no part in it. -/
theorem writeAll_congr (s s' : NodeFiles) (h : s'.cache = s.cache) (tree : FileTree) (ids : List Nat) :
    s'.writeAll tree ids = s.writeAll tree ids := by
  have hwrite : ∀ tree id, s'.write tree id = s.write tree id := by
    intro tree id
    rw [write, write, h]
  induction ids generalizing tree with
  | nil => rfl
  | cons id rest ih =>
    rw [writeAll, writeAll, hwrite]
    simp only [ih]

theorem writeAll_singleton (s : NodeFiles) (tree : FileTree) (id : Nat) :
    s.writeAll tree [id] = s.write tree id := by
  rw [writeAll]
  split
  · next heq =>
    rw [heq]
    rfl
  · next heq => rw [heq]

end NodeFiles

/-! ## What a request does to node files -/

/-- The request could not be carried out. -/
def Answer.IsFailure : Answer → Prop
  | .done (.error _) => True
  | _ => False

/-- The node that a request replaces. -/
def Request.replaces? : Request → Option Nat
  | .store given _ => some given.id
  | .saveActions id _ => some id
  | _ => none

namespace NodeFiles

variable {s : NodeFiles} {tree : FileTree} {request : Request} {id m : Nat}

/-- **The nodes that a request writes.** A node that cannot be read is not replaced, and then it is not
written. -/
def toWrite (s : NodeFiles) (tree : FileTree) : Request → List Nat
  | .store node defer =>
    match s.read tree node.id with
    | .ok _ => if defer then [] else [node.id]
    | .error _ => []
  | .saveActions id _ =>
    match s.read tree id with
    | .ok (some _) => if Table.contains id s.deferred then [] else [id]
    | _ => []
  | .autopersist id => if Table.contains id s.deferred then [id] else []
  | .flush => Table.keys s.deferred
  | _ => []

theorem nodup_toWrite (h : Table.Sorted s.deferred) (tree : FileTree) (request : Request) :
    (s.toWrite tree request).Nodup := by
  cases request with
  | store node defer =>
    simp only [toWrite]
    split
    · split <;> simp
    · exact List.nodup_nil
  | saveActions id actions =>
    simp only [toWrite]
    split
    · split <;> simp
    · exact List.nodup_nil
  | autopersist id =>
    simp only [toWrite]
    split <;> simp
  | flush => exact h.nodup_keys
  | get id => exact List.nodup_nil
  | node id => exact List.nodup_nil
  | actions id => exact List.nodup_nil
  | nodes => exact List.nodup_nil

/-- **A request changes what is held, and then it writes.** What it writes is off the list of those
that wait before the first write begins. -/
structure Turns (s s' : NodeFiles) (request : Request) (ids : List Nat) : Prop where
  /-- A node that is not replaced is held as before. -/
  held : ∀ m, request.replaces? ≠ some m → Table.find? m s'.cache = Table.find? m s.cache
  /-- A node that is neither replaced nor written waits if it did. -/
  marks : ∀ m, request.replaces? ≠ some m → m ∉ ids →
    Table.contains m s'.deferred = Table.contains m s.deferred
  /-- A node that is replaced and not written waits, if anything of it changed at all. -/
  waits : ∀ m, m ∉ ids → Table.contains m s'.deferred = true ∨
    Table.find? m s'.cache = Table.find? m s.cache ∧
      Table.contains m s'.deferred = Table.contains m s.deferred
  /-- A node that is written does not wait any more, whether its write succeeds or not. -/
  dropped : Table.Sorted s.deferred → ∀ m ∈ ids, Table.contains m s'.deferred = false
  /-- The list stays in order. -/
  sorted : Table.Sorted s.deferred → Table.Sorted s'.deferred
  /-- One node is replaced at most, and a node that is stored is what was given. -/
  cache : s'.cache = s.cache ∨ ∃ id stored, request.replaces? = some id ∧
    s'.cache = Table.insert id stored s.cache ∧
    ∀ node defer, request = .store node defer → stored.node = node

theorem Turns.refl (s : NodeFiles) (request : Request) : s.Turns s request [] where
  held _ _ := rfl
  marks _ _ _ := rfl
  waits _ _ := .inr ⟨rfl, rfl⟩
  dropped _ _ hno := by cases hno
  sorted h := h
  cache := .inl rfl

theorem contains_erase_of_ne {table : Table Nat Unit} (h : m ≠ id) :
    Table.contains m (Table.erase id table) = Table.contains m table := by
  rw [Table.contains, Table.find?_erase_of_ne h, Table.contains]

theorem contains_erase_self {table : Table Nat Unit} (h : Table.Sorted table) :
    Table.contains id (Table.erase id table) = false := by
  rw [Table.contains, Table.find?_erase h, if_pos rfl]
  rfl

theorem contains_insert_of_ne {table : Table Nat Unit} (h : m ≠ id) :
    Table.contains m (Table.insert id () table) = Table.contains m table := by
  rw [Table.contains, Table.find?_insert_of_ne h, Table.contains]

section Replacing

variable {stored : StoredNode} {deferred : Table Nat Unit} (hreplaces : request.replaces? = some id)
  (hgiven : ∀ node defer, request = .store node defer → stored.node = node)
  (hothers : ∀ m, m ≠ id → Table.contains m deferred = Table.contains m s.deferred)
  (hsorted : Table.Sorted s.deferred → Table.Sorted deferred)

include hreplaces hgiven hothers hsorted

/-- One node is replaced, and has to wait for its write. -/
theorem Turns.waiting (hwaits : Table.contains id deferred = true) :
    s.Turns { cache := Table.insert id stored s.cache, deferred } request [] where
  held m hm := Table.find?_insert_of_ne (fun heq => hm (hreplaces.trans (congrArg some heq.symm))) _ _
  marks m hm _ := hothers m fun heq => hm (hreplaces.trans (congrArg some heq.symm))
  waits m _ := by
    by_cases hm : m = id
    · rw [hm]
      exact .inl hwaits
    · exact .inr ⟨Table.find?_insert_of_ne hm _ _, hothers m hm⟩
  dropped _ _ hno := by cases hno
  sorted := hsorted
  cache := .inr ⟨id, stored, hreplaces, rfl, hgiven⟩

/-- One node is replaced and written. -/
theorem Turns.written (hdropped : Table.Sorted s.deferred → Table.contains id deferred = false) :
    s.Turns { cache := Table.insert id stored s.cache, deferred } request [id] where
  held m hm := Table.find?_insert_of_ne (fun heq => hm (hreplaces.trans (congrArg some heq.symm))) _ _
  marks m _ hm := hothers m fun heq => hm (List.mem_singleton.mpr heq)
  waits m hm := by
    have hne : m ≠ id := fun heq => hm (List.mem_singleton.mpr heq)
    exact .inr ⟨Table.find?_insert_of_ne hne _ _, hothers m hne⟩
  dropped h m hm := by
    rw [List.mem_singleton.mp hm]
    exact hdropped h
  sorted := hsorted
  cache := .inr ⟨id, stored, hreplaces, rfl, hgiven⟩

end Replacing

/-- A node that waits is written. -/
theorem Turns.persisted (s : NodeFiles) (id : Nat) :
    s.Turns { s with deferred := Table.erase id s.deferred } (.autopersist id) [id] where
  held _ _ := rfl
  marks _ _ hm := contains_erase_of_ne fun heq => hm (List.mem_singleton.mpr heq)
  waits _ hm := .inr ⟨rfl, contains_erase_of_ne fun heq => hm (List.mem_singleton.mpr heq)⟩
  dropped h m hm := by
    rw [List.mem_singleton.mp hm]
    exact contains_erase_self h
  sorted h := h.erase _
  cache := .inl rfl

/-- All nodes that wait are written. -/
theorem Turns.flushed (s : NodeFiles) :
    s.Turns { s with deferred := [] } .flush (Table.keys s.deferred) := by
  have hunmarked : ∀ m, m ∉ Table.keys s.deferred → Table.contains m s.deferred = false := by
    intro m hm
    simpa only [Table.mem_keys, Bool.not_eq_true, Table.contains] using hm
  constructor
  case held => exact fun _ _ => rfl
  case marks => exact fun m _ hm => (hunmarked m hm).symm
  case waits => exact fun m hm => .inr ⟨rfl, (hunmarked m hm).symm⟩
  case dropped => exact fun _ _ _ => rfl
  case sorted => exact fun _ => .nil
  case cache => exact .inl rfl

/-- What is asked of node files does, in turn, something to the memory and something to the files. -/
theorem ask_turns (s : NodeFiles) (tree : FileTree) (request : Request) : ∃ s',
    s.Turns s' request (s.toWrite tree request) ∧
      (Opened.ask { storage := .perNode s, tree } request).2 =
        { storage := .perNode s', tree := (s'.writeAll tree (s.toWrite tree request)).2 } ∧
      (s.toWrite tree request ≠ [] → (Opened.ask { storage := .perNode s, tree } request).1 =
        .done (s'.writeAll tree (s.toWrite tree request)).1) := by
  have hquestion : s.Turns s request [] := .refl s request
  cases request with
  | store node defer =>
    simp only [Opened.ask, Storage.store, NodeFiles.store, toWrite]
    cases hread : s.read tree node.id with
    | error e => exact ⟨s, hquestion, rfl, fun hno => absurd rfl hno⟩
    | ok existing =>
      let stored : StoredNode := { node, actions := (existing.map StoredNode.actions).getD [] }
      let cache := Table.insert node.id stored s.cache
      have hgiven : ∀ given defer', Request.store node defer = .store given defer' →
          stored.node = given := by
        intro given defer' hsame
        cases hsame
        rfl
      cases defer with
      | true =>
        refine ⟨{ cache, deferred := Table.insert node.id () s.deferred }, ?_, rfl, fun hno => absurd rfl hno⟩
        exact .waiting rfl hgiven (fun m hm => contains_insert_of_ne hm) (fun h => h.insert _ _)
          (Storage.contains_insert_self _ _ _)
      | false =>
        refine ⟨{ cache, deferred := Table.erase node.id s.deferred }, ?_, ?_, fun _ => ?_⟩
        · exact .written rfl hgiven (fun m hm => contains_erase_of_ne hm) (fun h => h.erase _)
            contains_erase_self
        · simp only [Bool.false_eq_true, reduceIte, writeAll_singleton]
          rfl
        · simp only [Bool.false_eq_true, reduceIte, writeAll_singleton]
          rfl
  | saveActions id actions =>
    simp only [Opened.ask, Storage.saveActions, NodeFiles.saveActions, toWrite]
    cases hread : s.read tree id with
    | error e => exact ⟨s, hquestion, rfl, fun hno => absurd rfl hno⟩
    | ok existing =>
      cases existing with
      | none => exact ⟨s, hquestion, rfl, fun hno => absurd rfl hno⟩
      | some stored =>
        have hgiven : ∀ given defer, Request.saveActions id actions = .store given defer →
            ({ stored with actions } : StoredNode).node = given := fun _ _ hno => by cases hno
        refine ⟨{ s with cache := Table.insert id { stored with actions } s.cache }, ?_⟩
        -- whether the node waits is as before, so it is written unless it waits
        cases hwaits : Table.contains id s.deferred with
        | true =>
          refine ⟨?_, rfl, fun hno => absurd rfl hno⟩
          exact .waiting rfl hgiven (fun _ _ => rfl) (fun h => h) hwaits
        | false =>
          refine ⟨.written rfl hgiven (fun _ _ => rfl) (fun h => h) fun _ => hwaits, ?_, fun _ => ?_⟩
          · simp only [Bool.false_eq_true, reduceIte, writeAll_singleton]
          · simp only [Bool.false_eq_true, reduceIte, writeAll_singleton]
  | autopersist id =>
    simp only [Opened.ask, Storage.autopersist, NodeFiles.autopersist, toWrite]
    cases hwaits : Table.contains id s.deferred with
    | false => exact ⟨s, hquestion, rfl, fun hno => absurd rfl hno⟩
    | true =>
      refine ⟨{ s with deferred := Table.erase id s.deferred }, .persisted s id, ?_, fun _ => ?_⟩
      · simp only [reduceIte, writeAll_singleton]
      · simp only [reduceIte, writeAll_singleton]
  | flush =>
    -- the list is written as it was, and by then it is empty
    have hwritten := writeAll_congr s { s with deferred := [] } rfl tree (Table.keys s.deferred)
    simp only [Opened.ask, Storage.flush, NodeFiles.flush, toWrite]
    exact ⟨{ s with deferred := [] }, .flushed s, by rw [hwritten], fun _ => by rw [hwritten]⟩
  | get id => exact ⟨s, hquestion, rfl, fun hno => absurd rfl hno⟩
  | node id => exact ⟨s, hquestion, rfl, fun hno => absurd rfl hno⟩
  | actions id => exact ⟨s, hquestion, rfl, fun hno => absurd rfl hno⟩
  | nodes => exact ⟨s, hquestion, rfl, fun hno => absurd rfl hno⟩

/-- Writing nodes makes no file of their directory. -/
theorem isFile_writeAll (s : NodeFiles) (tree : FileTree) (ids : List Nat) :
    (s.writeAll tree ids).2.isFile nodeDirectory = tree.isFile nodeDirectory := by
  have hwrite : ∀ (tree : FileTree) id,
      (s.write tree id).2.isFile nodeDirectory = tree.isFile nodeDirectory := by
    intro tree id
    unfold write
    split
    · exact isFile_writeJson _ (Ne.symm (home_nodePath id).ne) (Ne.symm (home_nodePath id).neighbour.ne)
    · rfl
  induction ids generalizing tree with
  | nil => rfl
  | cons id rest ih =>
    have hfirst := hwrite tree id
    unfold writeAll
    split
    · next heq =>
      rw [heq] at hfirst
      exact (ih _).trans hfirst
    · next heq =>
      rw [heq] at hfirst
      exact hfirst

/-- **Node files can be opened** where no file is in the place of their directory, and then they answer
what the files hold. -/
theorem openIn_files (hplace : tree.isFile nodeDirectory = false) : ∃ tree',
    Storage.openIn .perNode tree = .ok (.perNode {}, tree') ∧
      ∀ id, NodeFiles.read {} tree' id = tree.readJson StoredNode.ofDocument? (nodePath id) := by
  refine ⟨tree.addDirectories (nodeDirectory.ancestors ++ [nodeDirectory]),
    Storage.openIn_perNode (NodeFiles.openIn_of_place hplace), fun id => ?_⟩
  have hsame : SameAt tree (tree.addDirectories (nodeDirectory.ancestors ++ [nodeDirectory])) (nodePath id) :=
    sameAt_addDirectories fun hmem => (home_nodePath id).ne (List.mem_singleton.mp hmem)
  exact readJson_congr (read_nodePath id hsame (isFile_addDirectories tree _ _))

end NodeFiles

/-- **One file for all is written if it has to be**, or it still has to be. -/
theorem Bulk.flush_cases (whole : Bulk) (tree : FileTree) :
    whole.dirty = false ∧ whole.flush tree = (.ok (), whole, tree) ∨
      whole.dirty = true ∧
        ((∃ tree', whole.flush tree = (.ok (), { whole with dirty := false }, tree') ∧
            Storage.HoldsAll tree' whole.nodes) ∨
          ∃ e tree', whole.flush tree = (.error e, whole, tree')) := by
  have hne : bulkPath ≠ bulkPath.neighbour := by decide
  have habove : bulkPath ∉ bulkPath.neighbour.ancestors := by decide
  let json := Json.arr ((Table.values whole.nodes).map StoredNode.toJson)
  unfold flush
  cases hdirty : whole.dirty with
  | false => exact .inl ⟨rfl, rfl⟩
  | true =>
    refine .inr ⟨rfl, ?_⟩
    rcases @writeJson_cases tree bulkPath hne habove json with ⟨hok, hfile⟩ | ⟨⟨e, hfailed⟩, _⟩
    · obtain ⟨tree', hwrite⟩ : ∃ tree', tree.writeJson bulkPath json = (.ok (), tree') := ⟨_, Prod.ext hok rfl⟩
      rw [hwrite] at hfile
      rw [if_pos rfl, hwrite]
      exact .inl ⟨tree', rfl, hfile⟩
    · obtain ⟨tree', hwrite⟩ : ∃ tree', tree.writeJson bulkPath json = (.error e, tree') :=
        ⟨_, Prod.ext hfailed rfl⟩
      rw [if_pos rfl, hwrite]
      exact .inr ⟨e, tree', rfl⟩

/-! ## What can be relied on -/

namespace Opened

variable {o : Opened} {request : Request} {id : Nat}

/-- The nodes whose own files a request writes. -/
def toWrite (o : Opened) (request : Request) : List Nat :=
  match o.storage with
  | .perNode files => files.toWrite o.tree request
  | .bulk _ => []

/-- **A node is secure** if it waits to be written, or the files hold what is held of it in memory. One
file for all waits or holds as a whole. -/
def Secure (o : Opened) (id : Nat) : Prop :=
  match o.storage with
  | .perNode files => Table.contains id files.deferred = true ∨
      ∀ stored, Table.find? id files.cache = some stored → HoldsNode o.tree id stored
  | .bulk whole => whole.dirty = true ∨ Storage.HoldsAll o.tree whole.nodes ∨
      Bulk.openIn o.tree = .ok { nodes := whole.nodes }

/-- **A storage in order**: the list of those that wait is sorted, and where the directory of the node
files goes there is no file; the nodes of one file are sorted. -/
def InOrder (o : Opened) : Prop :=
  match o.storage with
  | .perNode files => Table.Sorted files.deferred ∧ o.tree.isFile nodeDirectory = false
  | .bulk whole => whole.Ordered

/-- Nothing waits to be written. -/
def Settled (o : Opened) : Prop :=
  match o.storage with
  | .perNode files => files.deferred = []
  | .bulk whole => whole.dirty = false

/-! ### One request -/

theorem InOrder.ask (h : o.InOrder) (request : Request) : (o.ask request).2.InOrder := by
  obtain ⟨storage, tree⟩ := o
  cases storage with
  | perNode files =>
    obtain ⟨hsorted, hplace⟩ := h
    obtain ⟨files', hturns, hask, _⟩ := files.ask_turns tree request
    rw [hask]
    exact ⟨hturns.sorted hsorted, (files'.isFile_writeAll tree _).trans hplace⟩
  | bulk whole =>
    have hordered : whole.Ordered := h
    cases request with
    | store node defer => exact hordered.store node
    | saveActions id actions => exact hordered.saveActions id actions
    | flush =>
      simp only [Opened.ask, Storage.flush]
      rcases whole.flush_cases tree with ⟨_, hflush⟩ | ⟨_, ⟨tree', hflush, _⟩ | ⟨e, tree', hflush⟩⟩
      · rw [hflush]
        exact h
      · rw [hflush]
        exact hordered.written
      · rw [hflush]
        exact h
    | autopersist id => exact h
    | get id => exact h
    | node id => exact h
    | actions id => exact h
    | nodes => exact h

/-- **One file for all keeps its mark** until the file is written, so nothing of it is forgotten. -/
theorem secure_ask_bulk {whole : Bulk} {tree : FileTree} (h : Secure { storage := .bulk whole, tree } id)
    (request : Request) : Secure (ask { storage := .bulk whole, tree } request).2 id := by
  cases request with
  | store node defer => exact .inl rfl
  | saveActions other actions =>
    simp only [Opened.ask, Storage.saveActions, Bulk.saveActions]
    split
    · exact h
    · exact .inl rfl
  | flush =>
    simp only [Opened.ask, Storage.flush]
    rcases whole.flush_cases tree with ⟨_, hflush⟩ | ⟨hdirty, ⟨tree', hflush, hholds⟩ | ⟨e, tree', hflush⟩⟩
    · rw [hflush]
      exact h
    · rw [hflush]
      exact .inr (.inl hholds)
    · rw [hflush]
      exact .inl hdirty
  | autopersist other => exact h
  | get other => exact h
  | node other => exact h
  | actions other => exact h
  | nodes => exact h

/-- What was to be written is in the files, if the request did not fail. -/
theorem secure_of_written (h : o.InOrder) (hwrites : id ∈ o.toWrite request)
    (hdone : ¬ (o.ask request).1.IsFailure) : (o.ask request).2.Secure id := by
  obtain ⟨storage, tree⟩ := o
  cases storage with
  | bulk whole => cases hwrites
  | perNode files =>
    obtain ⟨hsorted, _⟩ := h
    obtain ⟨files', hturns, hask, hanswer⟩ := files.ask_turns tree request
    have hwritten : id ∈ files.toWrite tree request := hwrites
    rw [hanswer (List.ne_nil_of_mem hwritten)] at hdone
    obtain ⟨written, left, hids, hholds, _, hresult⟩ :=
      files'.writeAll_cases tree (files.nodup_toWrite hsorted tree request)
    rw [hask]
    rcases hresult with ⟨_, rfl⟩ | ⟨⟨e, hfailed⟩, _⟩
    · rw [List.append_nil] at hids
      exact .inr (hholds id (hids ▸ hwritten))
    · rw [hfailed] at hdone
      exact absurd trivial hdone

/-- **A node stays secure** unless a request fails that was to write it. -/
theorem Secure.ask (h : o.Secure id) (horder : o.InOrder)
    (hspared : (o.ask request).1.IsFailure → id ∉ o.toWrite request) : (o.ask request).2.Secure id := by
  by_cases hwrites : id ∈ o.toWrite request
  · exact secure_of_written horder hwrites fun hfailed => hspared hfailed hwrites
  · obtain ⟨storage, tree⟩ := o
    cases storage with
    | bulk whole => exact secure_ask_bulk h request
    | perNode files =>
      obtain ⟨files', hturns, hask, _⟩ := files.ask_turns tree request
      have hsame := files'.sameAt_writeAll_of_notMem tree hwrites
      rw [hask]
      rcases hturns.waits id hwrites with hwaits | ⟨hheld, hmark⟩
      · exact .inl hwaits
      · rcases h with hwaits | hholds
        · exact .inl (hmark.trans hwaits)
        · exact .inr fun stored hstored => (hholds stored (hheld ▸ hstored)).of_sameAt hsame

/-- **What is forgotten stays forgotten**: a node that is not secure is not secured by any request but
one that replaces it. Neither a flush nor an autopersist knows of it. -/
theorem insecure_ask {files : NodeFiles} {tree : FileTree}
    (h : ¬ Secure { storage := .perNode files, tree } id) (hother : request.replaces? ≠ some id) :
    ¬ (ask { storage := .perNode files, tree } request).2.Secure id := by
  obtain ⟨hmark, hholds⟩ := not_or.mp h
  -- written is what waits or what is replaced, and the node is neither
  have hwrites : id ∉ files.toWrite tree request := by
    intro hmem
    cases request with
    | store node defer =>
      simp only [NodeFiles.toWrite] at hmem
      split at hmem
      · split at hmem
        · cases hmem
        · exact hother (congrArg some (List.mem_singleton.mp hmem).symm)
      · cases hmem
    | saveActions other actions =>
      simp only [NodeFiles.toWrite] at hmem
      split at hmem
      · split at hmem
        · cases hmem
        · exact hother (congrArg some (List.mem_singleton.mp hmem).symm)
      · cases hmem
    | autopersist other =>
      simp only [NodeFiles.toWrite] at hmem
      split at hmem
      · next hwaits => exact hmark (List.mem_singleton.mp hmem ▸ hwaits)
      · cases hmem
    | flush => exact hmark (Table.mem_keys.mp hmem)
    | get other => cases hmem
    | node other => cases hmem
    | actions other => cases hmem
    | nodes => cases hmem
  obtain ⟨files', hturns, hask, _⟩ := files.ask_turns tree request
  have hsame := files'.sameAt_writeAll_of_notMem tree hwrites
  rw [hask]
  rintro (hwaits | hheld)
  · exact hmark ((hturns.marks id hother hwrites).symm.trans hwaits)
  · refine hholds fun stored hstored => ?_
    obtain ⟨n, hfile⟩ := hheld stored ((hturns.held id hother).trans hstored)
    exact ⟨n, Eq.trans (Eq.symm hsame) hfile⟩

/-- **A request that fails to write forgets a node**: it does not wait any more, and its file is as it
was before. -/
theorem failure_forgets {files : NodeFiles} {tree : FileTree} (hsorted : Table.Sorted files.deferred)
    (hwrites : files.toWrite tree request ≠ [])
    (hfailed : (ask { storage := .perNode files, tree } request).1.IsFailure) :
    ∃ files' tree', (ask { storage := .perNode files, tree } request).2 =
        { storage := .perNode files', tree := tree' } ∧
      ∃ id ∈ files.toWrite tree request, Table.contains id files'.deferred = false ∧
        SameAt tree tree' (nodePath id) := by
  obtain ⟨files', hturns, hask, hanswer⟩ := files.ask_turns tree request
  rw [hanswer hwrites] at hfailed
  obtain ⟨written, left, hids, _, hleft, hresult⟩ :=
    files'.writeAll_cases tree (files.nodup_toWrite hsorted tree request)
  refine ⟨files', _, hask, ?_⟩
  -- the first of those that are left is the one whose write failed
  rcases hresult with ⟨hok, _⟩ | ⟨_, hne⟩
  · rw [hok] at hfailed
    exact hfailed.elim
  · obtain ⟨id, hid⟩ := List.exists_mem_of_ne_nil left hne
    have hmem : id ∈ files.toWrite tree request := hids ▸ List.mem_append_right _ hid
    exact ⟨id, hmem, hturns.dropped hsorted id hmem, hleft id hid⟩

/-- After a flush, whatever became of it, node files have nothing to write. -/
theorem flush_flush (files : NodeFiles) (tree : FileTree) :
    ask (ask { storage := .perNode files, tree } .flush).2 .flush =
      (.done (.ok ()), (ask { storage := .perNode files, tree } .flush).2) := rfl

/-- **A node is lost** whose only write the device refuses: the storage answers for it, the flush after
the one that failed reports that all is well, and a storage opened anew knows nothing of it. -/
theorem refused_node_is_lost (node : Node) {tree : FileTree} (hplace : tree.isFile nodeDirectory = false)
    (habsent : Table.find? (nodePath node.id) tree.entries = none)
    (hrefuses : tree.refuses tree.writes = true) : ∃ o e,
      run { storage := .perNode {}, tree } [.store node true, .flush, .flush, .get node.id] =
        ([.done (.ok ()), .done (.error e), .done (.ok ()), .found (.ok (some node))], o) ∧
      ∃ storage tree', Storage.openIn .perNode o.tree = .ok (storage, tree') ∧
        storage.get tree' node.id = .ok none := by
  let counted : FileTree := { tree with writes := tree.writes + 1 }
  let stored : StoredNode := { node, actions := [] }
  let files : NodeFiles := { cache := [(node.id, stored)] }
  let waiting : NodeFiles := { files with deferred := [(node.id, ())] }
  have hself : Table.find? node.id files.cache = some stored := by
    simp only [files, Table.find?_cons, if_pos]
  have hstore : NodeFiles.store {} tree node true = (.ok (), waiting, tree) := by
    have hread : NodeFiles.read {} tree node.id = .ok none := NodeFiles.readJson_absent hplace habsent
    unfold NodeFiles.store
    rw [hread]
    rfl
  have hflush : waiting.flush tree = (.error (.io "write refused"), files, counted) := by
    have hwrite : waiting.writeAll tree [node.id] = (.error (.io "write refused"), counted) := by
      rw [NodeFiles.writeAll_singleton, NodeFiles.write, show Table.find? node.id waiting.cache = _ from hself]
      simp only [FileTree.writeJson, FileTree.replace, hrefuses, if_true]
      rfl
    unfold NodeFiles.flush
    rw [show Table.keys waiting.deferred = [node.id] from rfl, hwrite]
  have hagain : files.flush counted = (.ok (), files, counted) := rfl
  have hget : (Storage.perNode files).get counted node.id = .ok (some node) := by
    rw [Storage.get_files, NodeFiles.read_of_cached hself]
    rfl
  refine ⟨{ storage := .perNode files, tree := counted }, .io "write refused", ?_, ?_⟩
  · simp only [run, ask, Storage.store, Storage.flush, hstore, hflush, hagain, hget]
  · have hplace' : counted.isFile nodeDirectory = false := hplace
    have habsent' : Table.find? (nodePath node.id) counted.entries = none := habsent
    obtain ⟨tree', hopen, hread⟩ := NodeFiles.openIn_files hplace'
    refine ⟨.perNode {}, tree', hopen, ?_⟩
    rw [Storage.get_files, hread, NodeFiles.readJson_absent hplace' habsent']
    rfl

/-! ### Sessions -/

/-- No request fails that was to write the node. -/
def Spares (id : Nat) : Opened → List Request → Prop
  | _, [] => True
  | o, request :: rest =>
    ((o.ask request).1.IsFailure → id ∉ o.toWrite request) ∧ Spares id (o.ask request).2 rest

theorem InOrder.run (h : o.InOrder) (requests : List Request) : (o.run requests).2.InOrder := by
  induction requests generalizing o with
  | nil => exact h
  | cons request rest ih => exact ih (h.ask request)

/-- **A node stays secure along a session** that fails no write of it. -/
theorem Secure.run (h : o.Secure id) (horder : o.InOrder) {requests : List Request}
    (hspared : Spares id o requests) : (o.run requests).2.Secure id := by
  induction requests generalizing o with
  | nil => exact h
  | cons request rest ih => exact ih (h.ask horder hspared.1) (horder.ask request) hspared.2

/-- **A storage that was just opened** is in order, and all nodes are secure. -/
theorem secure_openIn {kind : StorageKind} {tree : FileTree}
    (h : Storage.openIn kind tree = .ok (o.storage, o.tree)) : o.InOrder ∧ ∀ id, o.Secure id := by
  obtain ⟨storage, tree'⟩ := o
  rcases Storage.openIn_eq_ok h with ⟨rfl, hstorage, htree⟩ | ⟨rfl, htree, whole, hopen, hstorage⟩
  · have hplace : tree.isFile nodeDirectory = false := by
      cases hfile : tree.isFile nodeDirectory with
      | false => rfl
      | true =>
        unfold Storage.openIn NodeFiles.openIn FileTree.makeDirectory at h
        rw [hfile] at h
        cases h
    cases hstorage
    cases htree
    exact ⟨⟨.nil, (isFile_addDirectories tree _ _).trans hplace⟩, fun id => .inr fun _ hno => by cases hno⟩
  · cases hstorage
    cases htree
    refine ⟨Bulk.ordered_openIn hopen, fun id => .inr (.inr ?_)⟩
    have hclean : whole = { nodes := whole.nodes } := by
      unfold Bulk.openIn at hopen
      split at hopen
      · cases hopen
      · cases hopen
        rfl
    rw [← hclean]
    exact hopen

/-- A flush that succeeds leaves nothing to write. -/
theorem settled_of_flush (h : ¬ (o.ask .flush).1.IsFailure) : (o.ask .flush).2.Settled := by
  obtain ⟨storage, tree⟩ := o
  cases storage with
  | perNode files => rfl
  | bulk whole =>
    simp only [Opened.ask, Storage.flush] at h ⊢
    rcases whole.flush_cases tree with ⟨hclean, hflush⟩ | ⟨_, ⟨tree', hflush, _⟩ | ⟨e, tree', hflush⟩⟩
    · rw [hflush]
      exact hclean
    · rw [hflush]
      rfl
    · rw [hflush] at h
      exact absurd trivial h

/-- **Opened anew, a storage answers for a secure node as it did**, if nothing waits and what was written
can be read back. -/
theorem Secure.reopened (h : o.Secure id) (horder : o.InOrder) (hsettled : o.Settled)
    (hlegible : o.storage.Legible) : ∃ storage tree,
      Storage.openIn o.storage.kind o.tree = .ok (storage, tree) ∧
        storage.read tree id = o.storage.read o.tree id := by
  obtain ⟨storage, tree⟩ := o
  cases storage with
  | perNode files =>
    obtain ⟨_, hplace⟩ := horder
    have hdeferred : files.deferred = [] := hsettled
    obtain ⟨tree', hopen, hread⟩ := NodeFiles.openIn_files hplace
    refine ⟨_, _, hopen, ?_⟩
    show NodeFiles.read {} tree' id = files.read tree id
    rw [hread]
    -- what is not in memory is read from its file before and afterwards
    cases hcached : Table.find? id files.cache with
    | none => rw [NodeFiles.read, hcached]
    | some stored =>
      have hholds : HoldsNode tree id stored := by
        rcases h with hwaits | hholds
        · rw [hdeferred] at hwaits
          cases hwaits
        · exact hholds stored hcached
      obtain ⟨n, hfile⟩ := hholds
      rw [NodeFiles.read_of_cached hcached]
      exact readJson_of_file hfile (hlegible id stored hcached (by rw [hdeferred]; rfl))
  | bulk whole =>
    have hclean : whole.dirty = false := hsettled
    have hordered : whole.Ordered := horder
    have hopen : Bulk.openIn tree = .ok { nodes := whole.nodes } := by
      rcases h with hdirty | hholds | hopen
      · rw [hclean] at hdirty
        cases hdirty
      · exact Storage.openIn_of_holdsAll hordered hclean hholds hlegible
      · exact hopen
    exact ⟨.bulk { nodes := whole.nodes }, tree, Storage.openIn_bulk hopen, rfl⟩

/-- **A flush that succeeds keeps what no write failed of**: a storage is opened and asked, and then it
is flushed; opened anew, it answers for a node as it did after the flush, if no request failed that was
to write the node. In one file for all no node has to be spared. -/
theorem kept_after_flush {kind : StorageKind} {tree : FileTree}
    (hopen : Storage.openIn kind tree = .ok (o.storage, o.tree)) {requests : List Request}
    (hspared : Spares id o requests) (hflush : ¬ ((o.run requests).2.ask .flush).1.IsFailure)
    (hlegible : ((o.run requests).2.ask .flush).2.storage.Legible) :
    ∃ storage tree, Storage.openIn ((o.run requests).2.ask .flush).2.storage.kind
        ((o.run requests).2.ask .flush).2.tree = .ok (storage, tree) ∧
      storage.read tree id =
        ((o.run requests).2.ask .flush).2.storage.read ((o.run requests).2.ask .flush).2.tree id := by
  obtain ⟨horder, hsecure⟩ := secure_openIn hopen
  have horder' := horder.run requests
  have hsecure' : ((o.run requests).2.ask .flush).2.Secure id :=
    ((hsecure id).run horder hspared).ask horder' fun hfailed => absurd hfailed hflush
  exact hsecure'.reopened (horder'.ask .flush) (settled_of_flush hflush) hlegible

/-- Node files on a device that refuses the first write. -/
def grudging : Opened where
  storage := .perNode {}
  tree := { entries := [(nodeDirectory, .directory)], refuses := (· == 0) }

/-- A first node that is to wait. -/
def waitingStart : Node := { id := 1, parents := [], kind := .flowStart, startedAt := default }

/-- The first node waits, and another one is written at once. -/
def waitThenWrite : List Request :=
  [.store waitingStart true, .store { id := 2, parents := [1], kind := .atom, startedAt := default } false]

/-- The write of the other node fails, and the node that waited is kept. -/
theorem kept_after_flush_spared :
    Storage.openIn .perNode { refuses := (· == 0) } = .ok (grudging.storage, grudging.tree) ∧
      (∃ e, (grudging.run waitThenWrite).1 = [.done (.ok ()), .done (.error e)]) ∧
      ∃ storage tree, Storage.openIn .perNode ((grudging.run waitThenWrite).2.ask .flush).2.tree =
          .ok (storage, tree) ∧ storage.read tree 1 = .ok (some { node := waitingStart }) := by
  have hopen : Storage.openIn .perNode { refuses := (· == 0) } = .ok (grudging.storage, grudging.tree) := rfl
  have hspared : Spares 1 grudging waitThenWrite := by
    have hother : (1 : Nat) ∉ [2] := by decide
    exact ⟨fun hfailed => (by cases hfailed), fun _ => hother, trivial⟩
  have hstorable : ((grudging.run waitThenWrite).2.ask .flush).2.storage.Storable := by
    intro stored hstored
    refine StoredNode.storable_of_isBare ?_ 124
    rcases List.mem_cons.mp hstored with rfl | hstored
    · rfl
    · rw [List.mem_singleton.mp hstored]
      rfl
  exact ⟨hopen, ⟨_, rfl⟩, kept_after_flush hopen hspared not_false hstorable.legible⟩

end Opened

end DurableFlow.History
