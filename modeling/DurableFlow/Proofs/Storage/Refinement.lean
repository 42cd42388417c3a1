/-
Both layouts keep the one store.

If nothing stands in the way of the files, every write is accepted and what was written can be read
back, a storage answers every request as the store does of which it is a layout. It may be closed at
any time. Opened again it is the store as the files give it back: after a flush all of it, and
otherwise each node as it was when it was written last.

That what was written can be read back is a premise, and it is one about the contents that occur: the
text of each node, and the text of all of them, reads as what it was made from.
-/
import DurableFlow.Proofs.History.Archive
import DurableFlow.Proofs.Record.Files
import DurableFlow.Proofs.Storage.Shelf

set_option autoImplicit false

namespace DurableFlow

open History

/-! ## Directories stay -/

namespace FileTree

variable {tree : FileTree} {path other : Path}

theorem directory_addDirectories (h : Table.find? other tree.entries = some .directory) (paths : List Path) :
    Table.find? other (tree.addDirectories paths).entries = some .directory := by
  unfold addDirectories
  revert h
  generalize tree.entries = entries
  intro h
  dsimp only
  induction paths generalizing entries with
  | nil => exact h
  | cons first rest ih =>
    rw [List.foldl_cons]
    refine ih _ ?_
    split
    · exact h
    · rw [Table.find?_insert]
      split
      · rfl
      · exact h

theorem directory_put {tree' : FileTree} {text : String}
    (h : Table.find? other tree.entries = some .directory) (hput : tree.put path text = .ok tree') :
    Table.find? other tree'.entries = some .directory := by
  -- A file is put where no directory is.
  have hne : ∀ {entries : Table Path FileEntry}, Table.find? other entries = some .directory →
      Table.find? path tree.entries ≠ some .directory → ∀ n,
      Table.find? other (Table.insert path (.file n text) entries) = some .directory := by
    intro entries hother hpath n
    rw [Table.find?_insert_of_ne _ _ _]
    · exact hother
    · rintro rfl
      exact hpath h
  unfold FileTree.put at hput
  split at hput
  · cases hput
  · split at hput
    · next hentry =>
      cases hput
      exact hne h (by rw [hentry]; simp) _
    · cases hput
    · next hentry =>
      split at hput
      · cases hput
      · cases hput
        exact hne (directory_addDirectories h _) (by rw [hentry]; simp) _

/-- **A directory stays a directory**, whatever is written. -/
theorem directory_writeJson (h : Table.find? other tree.entries = some .directory) (path : Path) (json : Json) :
    Table.find? other (tree.writeJson path json).2.entries = some .directory := by
  have hreplace : ∀ text, Table.find? other (tree.replace path text).2.entries = some .directory := by
    intro text
    -- The text is put beside the file and renamed over it: neither place can be a directory.
    have hcounted : Table.find? other { tree with writes := tree.writes + 1 }.entries = some .directory := h
    unfold FileTree.replace
    dsimp only
    split
    · exact h
    · split
      · exact h
      · next written hput =>
        have hwritten := directory_put hcounted hput
        split
        · exact hwritten
        · next renamed hrename =>
          obtain ⟨⟨n, hfile⟩, _⟩ := put_eq_ok hput
          have hsource : other ≠ path.neighbour := by
            rintro rfl
            rw [hfile] at hwritten
            cases hwritten
          have htarget : other ≠ path := by
            rintro rfl
            have hdirectory : written.isDirectory other = true := by
              unfold isDirectory
              rw [hwritten]
            unfold rename at hrename
            rw [hfile] at hrename
            simp only [hdirectory, if_pos] at hrename
            cases hrename
          exact Eq.trans ((rename_eq_ok hrename).2 other hsource htarget) hwritten
  have hwritten := hreplace (json.render .indented)
  unfold FileTree.writeJson
  split
  · next heq =>
    rw [heq] at hwritten
    exact hwritten
  · next heq =>
    rw [heq] at hwritten
    exact hwritten

/-- What is read of a JSON file that is there. -/
theorem readJson_of_file {α : Type} {read? : Document → Option α} {n : Nat} {text : String} {value : α}
    (hfile : Table.find? path tree.entries = some (.file n text))
    (hread : (Json.document? text).bind read? = some value) : tree.readJson read? path = .ok (some value) := by
  unfold FileTree.readJson FileTree.read
  rw [hfile]
  dsimp only
  rw [hread]

end FileTree

namespace History

/-! ## What can be read back -/

/-- The text of a node reads as the node. -/
def StoredNode.ReadsBack (stored : StoredNode) : Prop :=
  (Json.document? (stored.toJson.render .indented)).bind StoredNode.ofDocument? = some stored

/-- **Contents whose texts read as what they were made from.** The number of a node is a word. -/
structure Contents.Legible (contents : Contents) : Prop where
  word : ∀ entry ∈ contents, entry.1 < Json.wordBound
  each : ∀ entry ∈ contents, entry.2.ReadsBack
  all : (Json.document? ((Json.arr ((Table.values contents).map StoredNode.toJson)).render .indented)).bind
    (·.list? StoredNode.ofDocument?) = some (Table.values contents)

theorem Contents.Legible.readsBack {contents : Contents} {id : Nat} {stored : StoredNode}
    (h : contents.Legible) (hthere : Table.find? id contents = some stored) : stored.ReadsBack :=
  h.each (id, stored) (Table.mem_of_find? hthere)

theorem Contents.Legible.isWord {contents : Contents} {id : Nat} {stored : StoredNode}
    (h : contents.Legible) (hthere : Table.find? id contents = some stored) : id < Json.wordBound :=
  h.word (id, stored) (Table.mem_of_find? hthere)

/-- All that is there while requests are answered can be read back. -/
def Contents.LegibleAlong (contents : Contents) : List Request → Prop
  | [] => contents.Legible
  | request :: rest => contents.Legible ∧ Contents.LegibleAlong (contents.ask request).2 rest

theorem Contents.LegibleAlong.legible {contents : Contents} {requests : List Request}
    (h : contents.LegibleAlong requests) : contents.Legible := by
  cases requests with
  | nil => exact h
  | cons request rest => exact h.1

/-! ## One file per node -/

namespace NodeFiles

variable {files : NodeFiles} {tree : FileTree} {id : Nat} {stored : StoredNode}

/-- **A node that is held in memory is written**, and then it is in its file. -/
theorem write_legible (htidy : tree.Tidy)
    (hdirectory : Table.find? nodeDirectory tree.entries = some .directory)
    (hstored : Table.find? id files.cache = some stored) (hreads : stored.ReadsBack) :
    ∃ tree', files.write tree id = (.ok (), tree') ∧ tree'.Tidy ∧
      Table.find? nodeDirectory tree'.entries = some .directory ∧
      ∀ m, tree'.readJson StoredNode.ofDocument? (nodePath m) =
        if m = id then .ok (some stored) else tree.readJson StoredNode.ofDocument? (nodePath m) := by
  obtain ⟨tree', hwrite, htidy', ⟨n, hfile⟩, hothers⟩ := htidy.writeJson (home_nodePath id) stored.toJson
  have hkept := FileTree.directory_writeJson hdirectory (nodePath id) stored.toJson
  rw [hwrite] at hkept
  refine ⟨tree', ?_, htidy', hkept, fun m => ?_⟩
  · unfold write
    rw [hstored]
    exact hwrite
  · split
    -- Only two files change, the one of the node and the one beside it.
    · next hm =>
      rw [hm]
      exact FileTree.readJson_of_file hfile hreads
    · next hm =>
      refine FileTree.readJson_congr (htidy.read_congr htidy' (home_nodePath m).toPlace ?_)
      exact hothers _ (fun heq => hm (nodePath_injective heq)) (nodePath_ne_neighbour m id) (home_nodePath m).ne

/-- **Several nodes are written.** -/
theorem writeAll_legible (htidy : tree.Tidy)
    (hdirectory : Table.find? nodeDirectory tree.entries = some .directory) {ids : List Nat}
    (hstored : ∀ id ∈ ids, ∃ stored, Table.find? id files.cache = some stored ∧ stored.ReadsBack) :
    ∃ tree', files.writeAll tree ids = (.ok (), tree') ∧ tree'.Tidy ∧
      Table.find? nodeDirectory tree'.entries = some .directory ∧
      ∀ m, tree'.readJson StoredNode.ofDocument? (nodePath m) =
        if m ∈ ids then .ok (Table.find? m files.cache)
        else tree.readJson StoredNode.ofDocument? (nodePath m) := by
  -- Each write starts from the tree that the one before it left.
  induction ids generalizing tree with
  | nil => exact ⟨tree, rfl, htidy, hdirectory, fun m => by rw [if_neg List.not_mem_nil]⟩
  | cons id rest ih =>
    obtain ⟨stored, hfound, hreads⟩ := hstored id List.mem_cons_self
    obtain ⟨first, hwrite, htidy', hdirectory', hfirst⟩ := write_legible htidy hdirectory hfound hreads
    obtain ⟨tree', hrest, htidy'', hdirectory'', hread⟩ :=
      ih htidy' hdirectory' fun m hm => hstored m (List.mem_cons_of_mem _ hm)
    refine ⟨tree', ?_, htidy'', hdirectory'', fun m => ?_⟩
    · rw [writeAll, hwrite]
      exact hrest
    · rw [hread, hfirst]
      by_cases hm : m ∈ rest
      · rw [if_pos hm, if_pos (List.mem_cons_of_mem _ hm)]
      · rw [if_neg hm]
        by_cases hid : m = id
        · rw [if_pos hid, if_pos (List.mem_cons.mpr (.inl hid)), hid, hfound]
        · rw [if_neg hid, if_neg (fun hmem => (List.mem_cons.mp hmem).elim hid hm)]

/-- **The files of a shelf**: the memory holds what is answered, the files hold what is filed, and a
node that waits is in memory. -/
structure Keeps (files : NodeFiles) (tree : FileTree) (shelf : Shelf) : Prop where
  tidy : tree.Tidy
  directory : Table.find? nodeDirectory tree.entries = some .directory
  sorted : Table.Sorted files.cache
  held : ∀ {id stored}, Table.find? id files.cache = some stored →
    Table.find? id shelf.contents = some stored
  filed : ∀ id, tree.readJson StoredNode.ofDocument? (nodePath id) = .ok (Table.find? id shelf.filed)
  waiting : files.deferred = shelf.waiting
  waits : ∀ {id}, Table.contains id files.deferred = true → Table.contains id files.cache = true
  order : shelf.InOrder .perNode

namespace Keeps

variable {shelf : Shelf}

/-- A node that is not in memory is answered from its file. -/
theorem filed_of_absent (h : Keeps files tree shelf) (habsent : Table.find? id files.cache = none) :
    Table.find? id shelf.filed = Table.find? id shelf.contents := by
  refine h.order.settled rfl id ?_
  cases hwaits : Table.contains id shelf.waiting with
  | false => rfl
  | true =>
    have hheld := h.waits (h.waiting ▸ hwaits)
    rw [Table.contains, habsent] at hheld
    cases hheld

/-- **What is read is what is there.** -/
theorem read (h : Keeps files tree shelf) (id : Nat) :
    files.read tree id = .ok (Table.find? id shelf.contents) := by
  unfold NodeFiles.read
  cases hcached : Table.find? id files.cache with
  | some stored => rw [h.held hcached]
  | none =>
    rw [← h.filed_of_absent hcached]
    exact h.filed id

/-- What a request writes is in the files as it is there after the request. -/
theorem filed_next (h : Keeps files tree shelf) {tree' : FileTree} (request : Request)
    (hfiles : ∀ id, tree'.readJson StoredNode.ofDocument? (nodePath id) =
      if shelf.writes .perNode request id then .ok (Table.find? id (shelf.contents.ask request).2)
      else tree.readJson StoredNode.ofDocument? (nodePath id)) (id : Nat) :
    tree'.readJson StoredNode.ofDocument? (nodePath id) =
      .ok (Table.find? id (shelf.next .perNode request).filed) := by
  rw [hfiles]
  cases hwrites : shelf.writes .perNode request id with
  | true =>
    rw [h.order.filed_written request hwrites]
    rfl
  | false =>
    rw [h.order.filed_unwritten request hwrites]
    exact h.filed id

/-- A request that changes nothing and would write nothing new. -/
theorem same (h : Keeps files tree shelf) {request : Request}
    (hcontents : (shelf.contents.ask request).2 = shelf.contents)
    (hwaiting : shelf.waitingAfter request = shelf.waiting)
    (hwrites : ∀ id, shelf.writes .perNode request id = true →
      Table.find? id shelf.filed = Table.find? id shelf.contents) :
    Keeps files tree (shelf.next .perNode request) where
  tidy := h.tidy
  directory := h.directory
  sorted := h.sorted
  held := by
    intro id stored hcached
    show Table.find? id (shelf.contents.ask request).2 = some stored
    rw [hcontents]
    exact h.held hcached
  filed := by
    refine h.filed_next request fun id => ?_
    split
    · next hwrite => rw [h.filed, hwrites id hwrite, hcontents]
    · rfl
  waiting := h.waiting.trans hwaiting.symm
  waits := h.waits
  order := h.order.next request

/-- One node is replaced in memory, and it waits or it is written. -/
theorem replaced (h : Keeps files tree shelf) {request : Request} {key : Nat} {stored : StoredNode}
    {deferred : Table Nat Unit} {tree' : FileTree}
    (hcontents : (shelf.contents.ask request).2 = Table.insert key stored shelf.contents)
    (hdeferred : deferred = shelf.waitingAfter request)
    (hwaits : ∀ id, id ≠ key → Table.contains id deferred = true → Table.contains id files.deferred = true)
    (htidy : tree'.Tidy) (hdirectory : Table.find? nodeDirectory tree'.entries = some .directory)
    (hfiles : ∀ id, tree'.readJson StoredNode.ofDocument? (nodePath id) =
      if shelf.writes .perNode request id then .ok (Table.find? id (shelf.contents.ask request).2)
      else tree.readJson StoredNode.ofDocument? (nodePath id)) :
    Keeps { cache := Table.insert key stored files.cache, deferred } tree' (shelf.next .perNode request) where
  tidy := htidy
  directory := hdirectory
  sorted := h.sorted.insert _ _
  held := by
    intro id other hcached
    show Table.find? id (shelf.contents.ask request).2 = some other
    rw [hcontents]
    rw [Table.find?_insert] at hcached ⊢
    split at hcached
    · next hid =>
      rw [if_pos hid]
      exact hcached
    · next hid =>
      rw [if_neg hid]
      exact h.held hcached
  filed := h.filed_next request hfiles
  waiting := hdeferred
  waits := by
    intro id hwait
    -- What waits is held in memory: the new node is, and the others were.
    by_cases hid : id = key
    · rw [hid]
      exact Storage.contains_insert_self _ _ _
    · exact Storage.contains_insert (h.waits (hwaits id hid hwait))
  order := h.order.next request

/-- One node is replaced in memory and written. -/
theorem written (h : Keeps files tree shelf) {request : Request} {key : Nat} {stored : StoredNode}
    {deferred : Table Nat Unit}
    (hcontents : (shelf.contents.ask request).2 = Table.insert key stored shelf.contents)
    (hdeferred : deferred = shelf.waitingAfter request)
    (hwaits : ∀ id, id ≠ key → Table.contains id deferred = true → Table.contains id files.deferred = true)
    (hwrites : ∀ id, shelf.writes .perNode request id = (id == key))
    (hlegible : (shelf.next .perNode request).contents.Legible) :
    ∃ tree', NodeFiles.write { cache := Table.insert key stored files.cache, deferred } tree key = (.ok (), tree') ∧
      Keeps { cache := Table.insert key stored files.cache, deferred } tree' (shelf.next .perNode request) := by
  let files' : NodeFiles := { cache := Table.insert key stored files.cache, deferred }
  have hcached : Table.find? key files'.cache = some stored := Table.find?_insert_self _ _ _
  have hthere : Table.find? key (shelf.contents.ask request).2 = some stored := by
    rw [hcontents]
    exact Table.find?_insert_self _ _ _
  obtain ⟨tree', hwrite, htidy, hdirectory, hfiles⟩ :=
    write_legible h.tidy h.directory hcached (hlegible.readsBack hthere)
  refine ⟨tree', hwrite, h.replaced hcontents hdeferred hwaits htidy hdirectory fun id => ?_⟩
  rw [hfiles, hwrites]
  by_cases hid : id = key
  · rw [if_pos hid, if_pos (by rw [hid]; exact beq_self_eq_true key), hid, hthere]
  · rw [if_neg hid, if_neg (by simpa using hid)]

/-- **A node is stored.** -/
theorem store (h : Keeps files tree shelf) (node : Node) (defer : Bool)
    (hlegible : (shelf.next .perNode (.store node defer)).contents.Legible) :
    ∃ files' tree', files.store tree node defer = (.ok (), files', tree') ∧
      Keeps files' tree' (shelf.next .perNode (.store node defer)) := by
  have hread := h.read node.id
  cases defer with
  | true =>
    have hadded : Table.insert node.id () files.deferred = shelf.waitingAfter (.store node true) := by
      rw [h.waiting]
      rfl
    refine ⟨_, tree, ?_, h.replaced rfl hadded (fun id hid hwait => ?_) h.tidy h.directory fun id => ?_⟩
    · simp only [NodeFiles.store, hread, reduceIte]
    · rwa [Table.contains, Table.find?_insert_of_ne hid] at hwait
    · rw [if_neg (by simp [Shelf.writes])]
  | false =>
    have herased : Table.erase node.id files.deferred = shelf.waitingAfter (.store node false) := by
      rw [h.waiting]
      rfl
    obtain ⟨tree', hwrite, hkeeps⟩ := h.written rfl herased (fun id hid hwait => by
      rwa [Table.contains, Table.find?_erase (h.waiting ▸ h.order.waiting), if_neg hid] at hwait)
      (fun id => by simp [Shelf.writes]) hlegible
    refine ⟨_, tree', ?_, hkeeps⟩
    simp only [NodeFiles.store, hread, Bool.false_eq_true, reduceIte]
    rw [hwrite]

/-- **The actions of a node are replaced**, if there is the node. -/
theorem saveActions (h : Keeps files tree shelf) (id : Nat) (actions : List Action)
    (hlegible : (shelf.next .perNode (.saveActions id actions)).contents.Legible) :
    ∃ result files' tree', files.saveActions tree id actions = (result, files', tree') ∧
      (shelf.contents.ask (.saveActions id actions)).1 = .done result ∧
      Keeps files' tree' (shelf.next .perNode (.saveActions id actions)) := by
  have hread := h.read id
  cases hthere : Table.find? id shelf.contents with
  | none =>
    rw [hthere] at hread
    have hask : shelf.contents.ask (.saveActions id actions) =
        (.done (.error (.missingNode id)), shelf.contents) := by
      simp only [Contents.ask, hthere]
    refine ⟨.error (.missingNode id), files, tree, ?_, by rw [hask], ?_⟩
    · simp only [NodeFiles.saveActions, hread]
    -- A node that is not there is not filed either, so nothing was to be written.
    · refine h.same (by rw [hask]) rfl fun m hwrite => ?_
      obtain rfl : m = id := by
        simp only [Shelf.writes, Bool.and_eq_true, beq_iff_eq] at hwrite
        exact hwrite.1
      have hnext : Table.find? m (shelf.next .perNode (.saveActions m actions)).contents = none := by
        show Table.find? m (shelf.contents.ask (.saveActions m actions)).2 = none
        rw [hask]
        exact hthere
      rw [h.order.unfiled _ hnext, hthere]
  | some stored =>
    rw [hthere] at hread
    have hask : shelf.contents.ask (.saveActions id actions) =
        (.done (.ok ()), Table.insert id { stored with actions } shelf.contents) := by
      simp only [Contents.ask, hthere]
    have hcontents := congrArg Prod.snd hask
    refine ⟨.ok (), ?_⟩
    cases hwaits : Table.contains id files.deferred with
    | true =>
      refine ⟨_, tree, ?_, by rw [hask],
        h.replaced hcontents h.waiting (fun _ _ hwait => hwait) h.tidy h.directory fun m => ?_⟩
      · simp only [NodeFiles.saveActions, hread, hwaits, reduceIte]
      · rw [if_neg (by simp [Shelf.writes, ← h.waiting, hwaits])]
    | false =>
      obtain ⟨tree', hwrite, hkeeps⟩ := h.written hcontents h.waiting (fun _ _ hwait => hwait)
        (fun m => by simp [Shelf.writes, ← h.waiting, hwaits]) hlegible
      refine ⟨_, tree', ?_, by rw [hask], hkeeps⟩
      simp only [NodeFiles.saveActions, hread, hwaits, Bool.false_eq_true, reduceIte]
      rw [hwrite]

/-- Nodes that waited have been written. -/
theorem persisted (h : Keeps files tree shelf) {request : Request} {deferred : Table Nat Unit}
    {tree' : FileTree} (hcontents : (shelf.contents.ask request).2 = shelf.contents)
    (hdeferred : deferred = shelf.waitingAfter request)
    (hwaits : ∀ id, Table.contains id deferred = true → Table.contains id files.deferred = true)
    (htidy : tree'.Tidy) (hdirectory : Table.find? nodeDirectory tree'.entries = some .directory)
    (hfiles : ∀ id, tree'.readJson StoredNode.ofDocument? (nodePath id) =
      if shelf.writes .perNode request id then .ok (Table.find? id shelf.contents)
      else tree.readJson StoredNode.ofDocument? (nodePath id)) :
    Keeps { files with deferred } tree' (shelf.next .perNode request) where
  tidy := htidy
  directory := hdirectory
  sorted := h.sorted
  held := by
    intro id stored hcached
    show Table.find? id (shelf.contents.ask request).2 = some stored
    rw [hcontents]
    exact h.held hcached
  filed := h.filed_next request fun id => by rw [hfiles, hcontents]
  waiting := hdeferred
  waits hwait := h.waits (hwaits _ hwait)
  order := h.order.next request

/-- What waits is in memory as it is there. -/
theorem waiting_held (h : Keeps files tree shelf) (hlegible : shelf.contents.Legible)
    (hwaits : Table.contains id files.deferred = true) :
    ∃ stored, Table.find? id files.cache = some stored ∧ stored.ReadsBack ∧
      Table.find? id shelf.contents = some stored := by
  obtain ⟨stored, hcached⟩ := Option.isSome_iff_exists.mp (h.waits hwaits)
  exact ⟨stored, hcached, hlegible.readsBack (h.held hcached), h.held hcached⟩

/-- **A node that waits is written when it is asked to be.** -/
theorem autopersist (h : Keeps files tree shelf) (id : Nat) (hlegible : shelf.contents.Legible) :
    ∃ files' tree', files.autopersist tree id = (.ok (), files', tree') ∧
      Keeps files' tree' (shelf.next .perNode (.autopersist id)) := by
  have hsorted : Table.Sorted files.deferred := h.waiting ▸ h.order.waiting
  have herased : Table.erase id files.deferred = shelf.waitingAfter (.autopersist id) := by
    rw [h.waiting]
    rfl
  cases hwaits : Table.contains id files.deferred with
  | false =>
    -- what does not wait cannot be erased from what waits
    have hsame : shelf.waitingAfter (.autopersist id) = shelf.waiting := by
      rw [← herased, ← h.waiting]
      refine (hsorted.erase id).ext hsorted fun m => ?_
      rw [Table.find?_erase hsorted]
      split
      · next hm =>
        rw [Table.contains, Option.isSome_eq_false_iff, Option.isNone_iff_eq_none] at hwaits
        rw [hm, hwaits]
      · rfl
    refine ⟨files, tree, ?_, h.same rfl hsame fun m hwrite => ?_⟩
    · simp only [NodeFiles.autopersist, hwaits, Bool.false_eq_true, reduceIte]
    · simp [Shelf.writes, ← h.waiting, hwaits] at hwrite
  | true =>
    obtain ⟨stored, hcached, hreads, hthere⟩ := h.waiting_held hlegible hwaits
    let files' : NodeFiles := { files with deferred := Table.erase id files.deferred }
    have hcached' : Table.find? id files'.cache = some stored := hcached
    obtain ⟨tree', hwrite, htidy, hdirectory, hfiles⟩ := write_legible h.tidy h.directory hcached' hreads
    refine ⟨files', tree', ?_, h.persisted rfl herased (fun m hwait => ?_) htidy hdirectory fun m => ?_⟩
    · simp only [NodeFiles.autopersist, hwaits, reduceIte]
      rw [hwrite]
    · rw [Table.contains, Table.find?_erase hsorted] at hwait
      split at hwait
      · cases hwait
      · exact hwait
    · rw [hfiles]
      by_cases hm : m = id
      · rw [if_pos hm, if_pos (by simp [Shelf.writes, hm, ← h.waiting, hwaits]), hm, hthere]
      · rw [if_neg hm, if_neg (by simp [Shelf.writes, hm])]

/-- **All that waits is written.** -/
theorem flush (h : Keeps files tree shelf) (hlegible : shelf.contents.Legible) :
    ∃ files' tree', files.flush tree = (.ok (), files', tree') ∧
      Keeps files' tree' (shelf.next .perNode .flush) := by
  have hheld : ∀ id ∈ Table.keys files.deferred, ∃ stored,
      Table.find? id files.cache = some stored ∧ stored.ReadsBack := by
    intro id hmem
    obtain ⟨stored, hcached, hreads, _⟩ := h.waiting_held hlegible (Table.mem_keys.mp hmem)
    exact ⟨stored, hcached, hreads⟩
  obtain ⟨tree', hwrite, htidy, hdirectory, hfiles⟩ := writeAll_legible h.tidy h.directory hheld
  refine ⟨{ files with deferred := [] }, tree', ?_,
    h.persisted rfl rfl (fun m hwait => ?_) htidy hdirectory fun m => ?_⟩
  · simp only [NodeFiles.flush, hwrite]
  · cases hwait
  · rw [hfiles]
    by_cases hm : m ∈ Table.keys files.deferred
    · obtain ⟨stored, hcached, _, hthere⟩ := h.waiting_held hlegible (Table.mem_keys.mp hm)
      have hwaits : Table.contains m shelf.waiting = true := h.waiting ▸ Table.mem_keys.mp hm
      rw [if_pos hm, if_pos (show shelf.writes .perNode .flush m = true from hwaits), hcached, hthere]
    · have hwaits : ¬ Table.contains m shelf.waiting = true := by
        rw [← h.waiting]
        exact fun hwait => hm (Table.mem_keys.mpr hwait)
      rw [if_neg hm, if_neg (show ¬ shelf.writes .perNode .flush m = true from hwaits)]

/-- **All nodes are listed in the order of their numbers.** -/
theorem nodes (h : Keeps files tree shelf) (hlegible : shelf.contents.Legible) :
    files.nodes tree = .ok ((Table.values shelf.contents).map StoredNode.node) := by
  obtain ⟨names, hlist⟩ : ∃ names, tree.list nodeDirectory = .ok names := by
    unfold FileTree.list FileTree.isDirectory
    rw [h.directory]
    exact ⟨_, rfl⟩
  have hsorted : Table.Sorted (Table.insertAll ((names.filterMap idOfName?).map fun id => (id, ()))
      (Table.mapValues (fun _ => ()) files.cache)) := (h.sorted.mapValues _).insertAll _
  unfold NodeFiles.nodes
  rw [hlist]
  dsimp only
  rw [readAll_of_read fun id _ => h.read id, h.order.contents.filterMap_find? (Table.sorted_iff_keys.mp hsorted)]
  · rfl
  · intro id hmem
    obtain ⟨stored, hthere⟩ := Option.isSome_iff_exists.mp (Table.mem_keys.mp hmem)
    refine Archive.mem_listed hlist ?_
    cases hcached : Table.find? id files.cache with
    | some other => exact .inl (Option.isSome_of_mem hcached)
    | none =>
      have hget : (Storage.perNode files).get tree id = .ok (some stored.node) := by
        rw [Storage.get_files, h.read, hthere]
        rfl
      exact .inr ⟨hlegible.isWord hthere, Archive.file_of_get hget hcached⟩

end Keeps

/-- **Node files are opened** on what the files hold. -/
theorem keeps_openIn {filed : Contents} (htidy : tree.Tidy) (hsorted : Table.Sorted filed) (hown : filed.Own)
    (hfiles : ∀ id, tree.readJson StoredNode.ofDocument? (nodePath id) = .ok (Table.find? id filed)) :
    ∃ files' tree', openIn tree = .ok (files', tree') ∧ Keeps files' tree' (.opened filed) := by
  have hdirectories : ∀ p ∈ nodeDirectory.ancestors ++ [nodeDirectory], p = nodeDirectory :=
    fun p hp => List.mem_singleton.mp hp
  obtain ⟨htidy', hothers⟩ := htidy.addDirectories hdirectories
  refine ⟨{}, tree.addDirectories (nodeDirectory.ancestors ++ [nodeDirectory]), ?_, ?_⟩
  · have hblocked : tree.isBlocked nodeDirectory = false := rfl
    unfold openIn FileTree.makeDirectory
    rw [htidy.place, hblocked]
    rfl
  · refine ⟨htidy', ?_, .nil, fun hno => (by cases hno), fun id => ?_, rfl, fun hno => (by cases hno),
      .opened hsorted hown⟩
    · show Table.find? nodeDirectory (if Table.contains nodeDirectory tree.entries = true then tree.entries
        else Table.insert nodeDirectory .directory tree.entries) = some .directory
      split
      · next hthere =>
        obtain ⟨entry, hentry⟩ := Option.isSome_iff_exists.mp hthere
        cases entry with
        | directory => exact hentry
        | file n text =>
          have hplace := htidy.place
          unfold FileTree.isFile at hplace
          rw [hentry] at hplace
          cases hplace
      · exact Table.find?_insert_self _ _ _
    · refine Eq.trans (FileTree.readJson_congr ?_) (hfiles id)
      exact htidy.read_congr htidy' (home_nodePath id).toPlace (hothers _ (home_nodePath id).ne)

end NodeFiles

/-! ## One file for all -/

namespace Bulk

variable {bulk : Bulk} {tree : FileTree} {shelf : Shelf}

/-- **The file of a shelf**: the memory is what is answered, and the file is what is filed. -/
structure Keeps (bulk : Bulk) (tree : FileTree) (shelf : Shelf) : Prop where
  tidy : tree.Tidy
  held : bulk.nodes = shelf.contents
  filed : openIn tree = .ok { nodes := shelf.filed }
  clean : bulk.dirty = false → shelf.filed = shelf.contents
  order : shelf.InOrder .bulk

/-- A table is made again from its values. -/
theorem ofEntries_values {contents : Contents} (h : Table.Sorted contents) (hown : contents.Own) :
    Table.ofEntries ((Table.values contents).map fun stored => (stored.node.id, stored)) = contents := by
  have hentries : (Table.values contents).map (fun stored => (stored.node.id, stored)) = contents := by
    unfold Table.values
    rw [List.map_map]
    refine (List.map_congr_left fun entry hentry => ?_).trans (List.map_id contents)
    exact Prod.ext (hown _ _ (h.find?_of_mem hentry)) rfl
  rw [hentries]
  exact Table.ofEntries_of_sorted h

namespace Keeps

/-- A request other than a flush leaves the file as it is. -/
theorem memory (h : Keeps bulk tree shelf) {request : Request} {bulk' : Bulk} (hrequest : request ≠ .flush)
    (hheld : bulk'.nodes = (shelf.contents.ask request).2)
    (hclean : bulk'.dirty = false → bulk.dirty = false ∧ (shelf.contents.ask request).2 = shelf.contents) :
    Keeps bulk' tree (shelf.next .bulk request) := by
  have hfiled : (shelf.next .bulk request).filed = shelf.filed := by
    refine (h.order.next request).filed.ext h.order.filed fun id => ?_
    refine h.order.filed_unwritten request ?_
    cases request with
    | flush => exact absurd rfl hrequest
    | _ => rfl
  refine ⟨h.tidy, hheld, ?_, fun hdirty => ?_, h.order.next request⟩
  · rw [hfiled]
    exact h.filed
  · obtain ⟨hbefore, hsame⟩ := hclean hdirty
    rw [hfiled, h.clean hbefore]
    exact hsame.symm

/-- **The history is written as a whole.** -/
theorem flush (h : Keeps bulk tree shelf) (hlegible : shelf.contents.Legible) :
    ∃ bulk' tree', bulk.flush tree = (.ok (), bulk', tree') ∧ Keeps bulk' tree' (shelf.next .bulk .flush) := by
  have hfiled := h.order.filed_flush
  cases hdirty : bulk.dirty with
  | false =>
    refine ⟨bulk, tree, ?_, h.tidy, h.held, ?_, fun _ => hfiled, h.order.next _⟩
    · simp only [Bulk.flush, hdirty, Bool.false_eq_true, reduceIte]
    · rw [hfiled, ← h.clean hdirty]
      exact h.filed
  | true =>
    have hhome : Home bulkPath := home_top (by decide) (by decide)
    obtain ⟨tree', hwrite, htidy, ⟨n, hfile⟩, _⟩ := h.tidy.writeJson hhome
      (.arr ((Table.values bulk.nodes).map StoredNode.toJson))
    refine ⟨{ bulk with dirty := false }, tree', ?_, htidy, h.held, ?_, fun _ => hfiled, h.order.next _⟩
    · simp only [Bulk.flush, hdirty, reduceIte, hwrite]
    · rw [h.held] at hfile
      unfold openIn
      rw [FileTree.readJson_of_file hfile hlegible.all, hfiled]
      dsimp only [Option.getD_some]
      rw [ofEntries_values h.order.contents h.order.own]

end Keeps

theorem keeps_openIn {filed : Contents} (htidy : tree.Tidy) (hsorted : Table.Sorted filed) (hown : filed.Own)
    (hopen : openIn tree = .ok { nodes := filed }) : Keeps { nodes := filed } tree (.opened filed) :=
  ⟨htidy, rfl, hopen, fun _ => rfl, .opened hsorted hown⟩

end Bulk

/-! ## Either layout -/

/-- A storage with the files it is on. -/
structure Opened where
  storage : Storage
  tree : FileTree

namespace Opened

/-- What a storage answers, and what becomes of it and its files. -/
def ask (o : Opened) : Request → Answer × Opened
  | .store node defer =>
    let (result, storage, tree) := o.storage.store o.tree node defer
    (.done result, { storage, tree })
  | .saveActions id actions =>
    let (result, storage, tree) := o.storage.saveActions o.tree id actions
    (.done result, { storage, tree })
  | .autopersist id =>
    let (result, storage, tree) := o.storage.autopersist o.tree id
    (.done result, { storage, tree })
  | .flush =>
    let (result, storage, tree) := o.storage.flush o.tree
    (.done result, { storage, tree })
  | .get id => (.found (o.storage.get o.tree id), o)
  | .node id => (.node (o.storage.node o.tree id), o)
  | .actions id => (.actions (o.storage.actions o.tree id), o)
  | .nodes => (.nodes (o.storage.nodes o.tree), o)

/-- The answers to several requests. -/
def run (o : Opened) : List Request → List Answer × Opened
  | [] => ([], o)
  | request :: rest =>
    let (answer, o) := o.ask request
    let (answers, o) := o.run rest
    (answer :: answers, o)

/-- A storage of one layout that keeps a shelf. -/
def Keeps (kind : StorageKind) (o : Opened) (shelf : Shelf) : Prop :=
  match kind, o.storage with
  | .perNode, .perNode files => files.Keeps o.tree shelf
  | .bulk, .bulk bulk => bulk.Keeps o.tree shelf
  | _, _ => False

variable {kind : StorageKind} {o : Opened} {shelf : Shelf}

/-- A question of node files changes nothing. -/
theorem question_perNode {files : NodeFiles} {tree : FileTree} (h : files.Keeps tree shelf) {request : Request}
    (hanswer : ask { storage := .perNode files, tree } request =
      ((shelf.contents.ask request).1, { storage := .perNode files, tree }))
    (hcontents : (shelf.contents.ask request).2 = shelf.contents)
    (hwaiting : shelf.waitingAfter request = shelf.waiting)
    (hwrites : ∀ id, shelf.writes .perNode request id = false) :
    ∃ o', ask { storage := .perNode files, tree } request = ((shelf.contents.ask request).1, o') ∧
      o'.Keeps .perNode (shelf.next .perNode request) := by
  have hkeeps : files.Keeps tree (shelf.next .perNode request) := by
    refine h.same hcontents hwaiting fun id hwrite => ?_
    rw [hwrites] at hwrite
    cases hwrite
  exact ⟨_, hanswer, hkeeps⟩

/-- **Node files do what they are asked.** -/
theorem ask_perNode {files : NodeFiles} {tree : FileTree} (h : files.Keeps tree shelf) (request : Request)
    (hlegible : (shelf.next .perNode request).contents.Legible) :
    ∃ o', ask { storage := .perNode files, tree } request = ((shelf.contents.ask request).1, o') ∧
      o'.Keeps .perNode (shelf.next .perNode request) := by
  have hread : ∀ id, (Storage.perNode files).read tree id = .ok (Table.find? id shelf.contents) := h.read
  cases request with
  | store node defer =>
    obtain ⟨files', tree', hstore, hkeeps⟩ := h.store node defer hlegible
    refine ⟨{ storage := .perNode files', tree := tree' }, ?_, hkeeps⟩
    simp only [ask, Storage.store, hstore]
    rfl
  | saveActions id actions =>
    obtain ⟨result, files', tree', hsave, hanswer, hkeeps⟩ := h.saveActions id actions hlegible
    refine ⟨{ storage := .perNode files', tree := tree' }, ?_, hkeeps⟩
    simp only [ask, Storage.saveActions, hsave, hanswer]
  | autopersist id =>
    obtain ⟨files', tree', hpersist, hkeeps⟩ := h.autopersist id hlegible
    refine ⟨{ storage := .perNode files', tree := tree' }, ?_, hkeeps⟩
    simp only [ask, Storage.autopersist, hpersist]
    rfl
  | flush =>
    obtain ⟨files', tree', hflush, hkeeps⟩ := h.flush hlegible
    refine ⟨{ storage := .perNode files', tree := tree' }, ?_, hkeeps⟩
    simp only [ask, Storage.flush, hflush]
    rfl
  -- a question changes no file, and what waits goes on waiting
  | get id =>
    refine question_perNode h ?_ rfl rfl fun _ => rfl
    simp only [ask, Storage.get, hread]
    rfl
  | node id =>
    refine question_perNode h ?_ (Contents.ask_node _ _) rfl fun _ => rfl
    simp only [ask, Storage.node, Storage.get, hread, Contents.ask]
    cases Table.find? id shelf.contents <;> rfl
  | actions id =>
    refine question_perNode h ?_ rfl rfl fun _ => rfl
    simp only [ask, Storage.actions, hread]
    rfl
  | nodes =>
    refine question_perNode h ?_ rfl rfl fun _ => rfl
    simp only [ask, Storage.nodes, h.nodes hlegible]
    rfl

/-- A question of one file for all changes nothing. -/
theorem question_bulk {bulk : Bulk} {tree : FileTree} (h : bulk.Keeps tree shelf) {request : Request}
    (hanswer : ask { storage := .bulk bulk, tree } request =
      ((shelf.contents.ask request).1, { storage := .bulk bulk, tree }))
    (hrequest : request ≠ .flush) (hcontents : (shelf.contents.ask request).2 = shelf.contents) :
    ∃ o', ask { storage := .bulk bulk, tree } request = ((shelf.contents.ask request).1, o') ∧
      o'.Keeps .bulk (shelf.next .bulk request) := by
  have hkeeps : bulk.Keeps tree (shelf.next .bulk request) :=
    h.memory hrequest (h.held.trans hcontents.symm) fun hdirty => ⟨hdirty, hcontents⟩
  exact ⟨_, hanswer, hkeeps⟩

/-- **One file for all does what it is asked.** -/
theorem ask_bulk {bulk : Bulk} {tree : FileTree} (h : bulk.Keeps tree shelf) (request : Request)
    (hlegible : (shelf.next .bulk request).contents.Legible) :
    ∃ o', ask { storage := .bulk bulk, tree } request = ((shelf.contents.ask request).1, o') ∧
      o'.Keeps .bulk (shelf.next .bulk request) := by
  cases request with
  | store node defer =>
    have hkeeps : (bulk.store node).Keeps tree (shelf.next .bulk (.store node defer)) := by
      refine h.memory (by simp) ?_ fun hno => by cases hno
      simp only [Bulk.store, h.held, Contents.ask]
    exact ⟨{ storage := .bulk (bulk.store node), tree }, rfl, hkeeps⟩
  | saveActions id actions =>
    cases hthere : Table.find? id shelf.contents with
    | none =>
      have hask : shelf.contents.ask (.saveActions id actions) =
          (.done (.error (.missingNode id)), shelf.contents) := by
        simp only [Contents.ask, hthere]
      refine question_bulk h ?_ (by simp) (by rw [hask])
      simp only [ask, Storage.saveActions, Bulk.saveActions, h.held, hthere, hask]
    | some stored =>
      have hask : shelf.contents.ask (.saveActions id actions) =
          (.done (.ok ()), Table.insert id { stored with actions } shelf.contents) := by
        simp only [Contents.ask, hthere]
      let bulk' : Bulk := { nodes := Table.insert id { stored with actions } bulk.nodes, dirty := true }
      have hkeeps : bulk'.Keeps tree (shelf.next .bulk (.saveActions id actions)) := by
        refine h.memory (by simp) ?_ fun hno => by cases hno
        rw [hask, ← h.held]
      refine ⟨{ storage := .bulk bulk', tree }, ?_, hkeeps⟩
      simp only [ask, Storage.saveActions, Bulk.saveActions, h.held, hthere, hask, bulk']
  -- with one file for all nothing is written before a flush
  | autopersist id => exact question_bulk h rfl (by simp) rfl
  | flush =>
    obtain ⟨bulk', tree', hflush, hkeeps⟩ := h.flush hlegible
    refine ⟨{ storage := .bulk bulk', tree := tree' }, ?_, hkeeps⟩
    simp only [ask, Storage.flush, hflush]
    rfl
  | get id =>
    refine question_bulk h ?_ (by simp) rfl
    simp only [ask, Storage.get_bulk, h.held, Contents.ask]
  | node id =>
    refine question_bulk h ?_ (by simp) (Contents.ask_node _ _)
    simp only [ask, Storage.node, Storage.get_bulk, h.held, Contents.ask]
    cases Table.find? id shelf.contents <;> rfl
  | actions id =>
    refine question_bulk h ?_ (by simp) rfl
    simp only [ask, Storage.actions, Storage.read, h.held]
    rfl
  | nodes =>
    refine question_bulk h ?_ (by simp) rfl
    simp only [ask, Storage.nodes, h.held]
    rfl

/-- **A storage answers as the store does.** -/
theorem Keeps.ask (h : o.Keeps kind shelf) (request : Request)
    (hlegible : (shelf.next kind request).contents.Legible) :
    ∃ o', o.ask request = ((shelf.contents.ask request).1, o') ∧ o'.Keeps kind (shelf.next kind request) := by
  obtain ⟨storage, tree⟩ := o
  cases kind with
  | perNode =>
    cases storage with
    | perNode files => exact ask_perNode h request hlegible
    | bulk bulk => exact h.elim
  | bulk =>
    cases storage with
    | perNode files => exact h.elim
    | bulk bulk => exact ask_bulk h request hlegible

/-- **And so it does along a session.** -/
theorem Keeps.run (h : o.Keeps kind shelf) {requests : List Request}
    (hlegible : shelf.contents.LegibleAlong requests) :
    ∃ o', o.run requests = ((shelf.contents.run requests).1, o') ∧ o'.Keeps kind (shelf.after kind requests) := by
  induction requests generalizing o shelf with
  | nil => exact ⟨o, rfl, h⟩
  | cons request rest ih =>
    obtain ⟨o', hask, hkeeps⟩ := h.ask request hlegible.2.legible
    obtain ⟨o'', hrun, hkeeps'⟩ := ih hkeeps hlegible.2
    refine ⟨o'', ?_, hkeeps'⟩
    rw [Opened.run, hask]
    dsimp only
    rw [hrun]
    rfl

end Opened

/-! ## Sessions -/

/-- **What a storage is opened on**: the files give back contents. -/
structure Filed (kind : StorageKind) (tree : FileTree) (filed : Contents) : Prop where
  tidy : tree.Tidy
  sorted : Table.Sorted filed
  own : filed.Own
  files : kind = .perNode → ∀ id,
    tree.readJson StoredNode.ofDocument? (nodePath id) = .ok (Table.find? id filed)
  file : kind = .bulk → Bulk.openIn tree = .ok { nodes := filed }

variable {kind : StorageKind} {tree : FileTree} {filed : Contents}

/-- A storage may be opened on its files. -/
theorem Filed.openIn (h : Filed kind tree filed) :
    ∃ o : Opened, Storage.openIn kind tree = .ok (o.storage, o.tree) ∧ o.Keeps kind (.opened filed) := by
  cases kind with
  | perNode =>
    obtain ⟨files, tree', hopen, hkeeps⟩ := NodeFiles.keeps_openIn h.tidy h.sorted h.own (h.files rfl)
    exact ⟨{ storage := .perNode files, tree := tree' }, Storage.openIn_perNode hopen, hkeeps⟩
  | bulk =>
    have hopen := h.file rfl
    exact ⟨{ storage := .bulk { nodes := filed }, tree }, Storage.openIn_bulk hopen,
      Bulk.keeps_openIn h.tidy h.sorted h.own hopen⟩

/-- A storage may be closed at any time. -/
theorem Opened.Keeps.closed {o : Opened} {shelf : Shelf} (h : o.Keeps kind shelf) :
    Filed kind o.tree shelf.filed := by
  obtain ⟨storage, tree⟩ := o
  cases kind with
  | perNode =>
    cases storage with
    | perNode files =>
      have hkeeps : files.Keeps tree shelf := h
      exact ⟨hkeeps.tidy, hkeeps.order.filed, hkeeps.order.ownFiled, fun _ => hkeeps.filed, fun hno => by cases hno⟩
    | bulk bulk => exact h.elim
  | bulk =>
    cases storage with
    | perNode files => exact h.elim
    | bulk bulk =>
      have hkeeps : bulk.Keeps tree shelf := h
      exact ⟨hkeeps.tidy, hkeeps.order.filed, hkeeps.order.ownFiled, fun hno => (by cases hno), fun _ => hkeeps.filed⟩

/-- The answers of a storage that is opened for one session after the other. -/
def Storage.sessions (kind : StorageKind) (tree : FileTree) :
    List (List Request) → EngineResult (List (List Answer))
  | [] => .ok []
  | session :: rest =>
    match Storage.openIn kind tree with
    | .error e => .error e
    | .ok (storage, tree) =>
      let (answers, o) := Opened.run { storage, tree } session
      (Storage.sessions kind o.tree rest).map (answers :: ·)

/-- What the store answers in one session after the other. Each begins with what the files give back. -/
def Contents.sessions (kind : StorageKind) (filed : Contents) : List (List Request) → List (List Answer)
  | [] => []
  | session :: rest =>
    (filed.run session).1 :: Contents.sessions kind ((Shelf.opened filed).after kind session).filed rest

/-- All that is there during sessions can be read back. -/
def Contents.LegibleDuring (kind : StorageKind) (filed : Contents) : List (List Request) → Prop
  | [] => True
  | session :: rest =>
    filed.LegibleAlong session ∧
      Contents.LegibleDuring kind ((Shelf.opened filed).after kind session).filed rest

/-- **One session after the other is answered as the store answers it.** -/
theorem Filed.sessions (h : Filed kind tree filed) {sessions : List (List Request)}
    (hlegible : filed.LegibleDuring kind sessions) :
    Storage.sessions kind tree sessions = .ok (filed.sessions kind sessions) := by
  induction sessions generalizing tree filed with
  | nil => rfl
  | cons session rest ih =>
    obtain ⟨hsession, hrest⟩ := hlegible
    obtain ⟨o, hopen, hkeeps⟩ := h.openIn
    obtain ⟨o', hrun, hkeeps'⟩ := hkeeps.run hsession
    rw [Storage.sessions, hopen]
    dsimp only
    rw [hrun]
    dsimp only
    rw [ih hkeeps'.closed hrest]
    rfl

/-- **Both layouts are one store.** Each is opened where none of its files is. In the first session both
answer what the store answers that was empty. What they are opened on afterwards is what the files give
back: after a flush all that was there; of one file per node, each node as it was after the last request
that wrote it; of one file for all, all as it was at the last flush. -/
theorem storages_are_one_store {tree tree' : FileTree} (htidy : tree.Tidy) (htidy' : tree'.Tidy)
    (hempty : ∀ id, Table.find? (nodePath id) tree.entries = none)
    (hempty' : Table.find? bulkPath tree'.entries = none) (first : List Request)
    (later : List (List Request)) (hlegible : ∀ kind, Contents.LegibleDuring kind [] (first :: later)) :
    Storage.sessions .perNode tree (first :: later) = .ok ((Contents.run [] first).1 ::
        Contents.sessions .perNode ((Shelf.opened []).after .perNode first).filed later) ∧
      Storage.sessions .bulk tree' (first :: later) = .ok ((Contents.run [] first).1 ::
        Contents.sessions .bulk ((Shelf.opened []).after .bulk first).filed later) ∧
      (∀ kind, ((Shelf.opened []).after kind (first ++ [.flush])).filed = (Contents.run [] first).2) ∧
      (∀ kind before request after id, first = before ++ request :: after →
        ((Shelf.opened []).after kind before).writes kind request id = true →
        (∀ between next rest, after = between ++ next :: rest →
          ((Shelf.opened []).after kind (before ++ request :: between)).writes kind next id = false) →
        Table.find? id ((Shelf.opened []).after kind first).filed =
          Table.find? id (Contents.run [] (before ++ [request])).2) ∧
      ∀ kind id, (∀ before request after, first = before ++ request :: after →
          ((Shelf.opened []).after kind before).writes kind request id = false) →
        Table.find? id ((Shelf.opened []).after kind first).filed = none := by
  have hown : Contents.Own [] := fun _ _ hno => by cases hno
  have horder : ∀ kind, (Shelf.opened []).InOrder kind := fun kind => .opened .nil hown
  have hfiles : Filed .perNode tree [] := by
    refine ⟨htidy, .nil, hown, fun _ id => ?_, fun hno => by cases hno⟩
    exact Archive.readJson_absent htidy (home_nodePath id).toPlace (hempty id)
  have hfile : Filed .bulk tree' [] := by
    refine ⟨htidy', .nil, hown, fun hno => (by cases hno), fun _ => ?_⟩
    have hhome : Home bulkPath := home_top (by decide) (by decide)
    unfold Bulk.openIn
    rw [Archive.readJson_absent htidy' hhome.toPlace hempty']
    rfl
  refine ⟨hfiles.sessions (hlegible .perNode), hfile.sessions (hlegible .bulk), fun kind => ?_, ?_,
    fun kind id hwrites => Shelf.find?_filed_after (horder kind) hwrites⟩
  · rw [Shelf.after_append]
    exact ((horder kind).after first).filed_flush.trans (Shelf.contents_after kind _ first)
  · rintro kind before request after id rfl hwrite hlast
    rw [Shelf.find?_filed_of_last_write (horder kind) hwrite hlast, Shelf.contents_after]
    rfl

/-! ### Contents that can be seen to be legible -/

/-- Whether two nodes without a failure are the same. -/
def Node.sameAs (node other : Node) : Bool :=
  node.id == other.id && node.parents == other.parents && node.kind == other.kind &&
    node.functionName == other.functionName && node.displayName == other.displayName &&
    node.error.isNone && other.error.isNone && node.startedAt == other.startedAt

theorem Node.eq_of_sameAs {node other : Node} (h : node.sameAs other = true) : node = other := by
  obtain ⟨id, parents, kind, functionName, displayName, error, startedAt⟩ := node
  obtain ⟨id', parents', kind', functionName', displayName', error', startedAt'⟩ := other
  simp only [sameAs, Bool.and_eq_true, beq_iff_eq, Option.isNone_iff_eq_none] at h
  obtain ⟨⟨⟨⟨⟨⟨⟨rfl, rfl⟩, rfl⟩, rfl⟩, rfl⟩, rfl⟩, rfl⟩, rfl⟩ := h
  rfl

/-- Whether two actions that hold a text are the same. -/
def Action.sameAs (action other : Action) : Bool :=
  action.kind == other.kind && action.data.str?.isSome && action.data.str? == other.data.str?

theorem Action.eq_of_sameAs {action other : Action} (h : action.sameAs other = true) : action = other := by
  obtain ⟨kind, data⟩ := action
  obtain ⟨kind', data'⟩ := other
  simp only [sameAs, Bool.and_eq_true, beq_iff_eq] at h
  obtain ⟨⟨rfl, hsome⟩, hsame⟩ := h
  cases data <;> cases hsome
  cases data' <;> cases hsame
  rfl

theorem eq_of_isEqv {α : Type} {same : α → α → Bool} (hsame : ∀ a b, same a b = true → a = b)
    {as bs : List α} (h : as.isEqv bs same = true) : as = bs := by
  induction as generalizing bs with
  | nil =>
    cases bs with
    | nil => rfl
    | cons b rest => cases h
  | cons a rest ih =>
    cases bs with
    | nil => cases h
    | cons b others =>
      simp only [List.isEqv, Bool.and_eq_true] at h
      rw [hsame a b h.1, ih h.2]

def StoredNode.sameAs (stored other : StoredNode) : Bool :=
  stored.node.sameAs other.node && stored.actions.isEqv other.actions Action.sameAs

theorem StoredNode.eq_of_sameAs {stored other : StoredNode} (h : stored.sameAs other = true) :
    stored = other := by
  obtain ⟨node, actions⟩ := stored
  obtain ⟨node', actions'⟩ := other
  simp only [sameAs, Bool.and_eq_true] at h
  rw [Node.eq_of_sameAs h.1, eq_of_isEqv (fun _ _ => Action.eq_of_sameAs) h.2]

/-- Reads all texts of contents and compares. Of failures and of data other than texts it does not say
that they are the same. -/
def Contents.isLegible (contents : Contents) : Bool :=
  contents.all (fun entry => decide (entry.1 < Json.wordBound) &&
      ((Json.document? (entry.2.toJson.render .indented)).bind StoredNode.ofDocument?).any
        (·.sameAs entry.2)) &&
    ((Json.document? ((Json.arr ((Table.values contents).map StoredNode.toJson)).render .indented)).bind
      (·.list? StoredNode.ofDocument?)).any (·.isEqv (Table.values contents) StoredNode.sameAs)

theorem Contents.legible_of_isLegible {contents : Contents} (h : contents.isLegible = true) :
    contents.Legible := by
  have hread : ∀ {α : Type} {read : Option α} {p : α → Bool} {value : α},
      (∀ found, p found = true → found = value) → read.any p = true → read = some value := by
    intro α read p value hvalue hany
    cases read with
    | none => cases hany
    | some found => rw [hvalue found hany]
  simp only [isLegible, Bool.and_eq_true, List.all_eq_true, decide_eq_true_eq] at h
  obtain ⟨heach, hall⟩ := h
  exact ⟨fun entry hentry => (heach entry hentry).1,
    fun entry hentry => hread (fun _ => StoredNode.eq_of_sameAs) (heach entry hentry).2,
    hread (fun _ => eq_of_isEqv fun _ _ => StoredNode.eq_of_sameAs) hall⟩

/-- The first node of a history, which waits, and actions of a node that is not there. -/
def waitingSession : List Request :=
  [.saveActions 7 [], .store { id := 1, parents := [], kind := .flowStart, startedAt := default } true, .nodes]

/-- A node that waits is lost, and the next session may store it again. -/
theorem storages_are_one_store_waiting :
    (∀ kind, Contents.LegibleDuring kind [] [waitingSession, [.get 1, .node 1]]) ∧
      Storage.sessions .perNode {} [waitingSession, [.get 1, .node 1]] =
        .ok ((Contents.run [] waitingSession).1 :: Contents.sessions .perNode
          ((Shelf.opened []).after .perNode waitingSession).filed [[.get 1, .node 1]]) := by
  have hnone : Contents.Legible [] := Contents.legible_of_isLegible (by decide +kernel)
  have hone : Contents.Legible
      [(1, { node := { id := 1, parents := [], kind := .flowStart, startedAt := default } })] :=
    Contents.legible_of_isLegible (by decide +kernel)
  have hlegible : ∀ kind, Contents.LegibleDuring kind [] [waitingSession, [.get 1, .node 1]] := by
    intro kind
    unfold waitingSession
    cases kind with
    | perNode => exact ⟨⟨hnone, hnone, hone, hone⟩, ⟨hnone, hnone, hnone⟩, trivial⟩
    | bulk => exact ⟨⟨hnone, hnone, hone, hone⟩, ⟨hnone, hnone, hnone⟩, trivial⟩
  have hsessions := storages_are_one_store FileTree.tidy_empty FileTree.tidy_empty (fun _ => rfl) rfl waitingSession
    [[.get 1, .node 1]] hlegible
  exact ⟨hlegible, hsessions.1⟩

end History

end DurableFlow
