/-
Files in which nothing stands in the way.

An execution writes a few files at the top of its directory and one file for each node in a
directory below it. If no directory stands where such a file goes, and the device refuses no
write, every write succeeds and is seen by the next read, and no other file of the execution
is touched: a file is replaced through a neighbour of its own.
-/
import DurableFlow.History.Storage
import DurableFlow.Proofs.Data.Table
import DurableFlow.Proofs.Text.Timestamp

set_option autoImplicit false

namespace DurableFlow

open History

/-- **A path at which an execution keeps a file**: at the top or among the files of the nodes. -/
structure Place (path : Path) : Prop where
  above : ∀ p ∈ path.ancestors, p = nodeDirectory
  ne : path ≠ nodeDirectory
  full : path ≠ []

/-- A file that is replaced through a neighbour. -/
structure Home (path : Path) : Prop extends Place path where
  neighbour : Place path.neighbour
  apart : path.neighbour ≠ path

theorem home_nodePath (n : Nat) : Home (nodePath n) where
  above := by
    intro p hp
    exact List.mem_singleton.mp hp
  ne := fun heq => by cases heq
  full := fun heq => by cases heq
  neighbour := by
    refine ⟨fun p hp => List.mem_singleton.mp hp, fun heq => ?_, fun heq => by cases heq⟩
    cases heq
  apart := by
    -- the name of the file that is written first is the longer one
    intro heq
    have hlength := congrArg String.length (List.cons.inj (List.cons.inj heq).2).1
    rw [String.length_append] at hlength
    exact absurd hlength (by simp)

theorem home_top {name : String} (h : name.length ≠ 5) (h' : (name ++ ".tmp").length ≠ 5) :
    Home [name] := by
  have hplace : ∀ {other : String}, other.length ≠ 5 → Place [other] := by
    intro other hother
    refine ⟨fun p hp => absurd hp List.not_mem_nil, fun heq => ?_, fun heq => by cases heq⟩
    rw [(List.cons.inj heq).1] at hother
    exact hother (by decide)
  refine ⟨hplace h, hplace h', fun heq => ?_⟩
  have hlength := congrArg String.length (List.cons.inj heq).1
  rw [String.length_append] at hlength
  exact absurd hlength (by simp)

/-- The file of a node is no neighbour of another one. -/
theorem nodePath_ne_neighbour (m n : Nat) : nodePath m ≠ (nodePath n).neighbour := by
  intro heq
  have hname : toString m ++ ".json" = toString n ++ ".json" ++ ".tmp" :=
    (List.cons.inj (List.cons.inj heq).2).1
  have hlast := congrArg (fun s => s.toList.getLast?) hname
  simp only [String.toList_append] at hlast
  rw [List.getLast?_append_of_ne_nil _ (by decide), List.getLast?_append_of_ne_nil _ (by decide)]
    at hlast
  exact absurd hlast (by decide)

theorem nodePath_injective {m n : Nat} (h : nodePath m = nodePath n) : m = n := by
  have hname : toString m ++ ".json" = toString n ++ ".json" :=
    (List.cons.inj (List.cons.inj h).2).1
  have hdigits := congrArg String.toList hname
  rw [String.toList_append, String.toList_append, List.append_cancel_right_eq] at hdigits
  exact Text.toString_injective (String.toList_inj.mp hdigits)

/-- A file at the top is no file of a node, and its neighbour is none either. -/
theorem nodePath_ne_top (n : Nat) (name : String) : nodePath n ≠ [name] := fun heq => by cases heq

namespace FileTree

/-- **A tree in which nothing stands in the way** of the files of an execution. -/
structure Tidy (tree : FileTree) : Prop where
  accepts : ∀ n, tree.refuses n = false
  sorted : Table.Sorted tree.entries
  clear : ∀ path, Table.find? path tree.entries = some .directory → path = nodeDirectory
  place : tree.isFile nodeDirectory = false

/-- Nothing stands in the way where nothing is. -/
theorem tidy_empty : Tidy {} := ⟨fun _ => rfl, .nil, fun _ hno => (by cases hno), rfl⟩

/-- Trees with the same entry at a path. -/
def SameAt (tree tree' : FileTree) (path : Path) : Prop :=
  Table.find? path tree'.entries = Table.find? path tree.entries

variable {tree : FileTree} {path : Path}

theorem Tidy.isBlocked (h : Tidy tree) (hplace : Place path) : tree.isBlocked path = false := by
  refine List.any_eq_false.mpr fun p hp => ?_
  rw [hplace.above p hp, h.place]
  exact Bool.false_ne_true

/-- What is read depends on the entry alone. -/
theorem Tidy.read_congr {tree' : FileTree} (h : Tidy tree) (h' : Tidy tree') (hplace : Place path)
    (hsame : SameAt tree tree' path) : tree'.read path = tree.read path := by
  unfold FileTree.read
  rw [hsame, h.isBlocked hplace, h'.isBlocked hplace]

theorem Tidy.addDirectory (h : Tidy tree) :
    Tidy (tree.addDirectories [nodeDirectory]) ∧
      ∀ other, other ≠ nodeDirectory → SameAt tree (tree.addDirectories [nodeDirectory]) other := by
  by_cases hthere : Table.contains nodeDirectory tree.entries = true
  · have hsame : tree.addDirectories [nodeDirectory] = tree := by
      simp only [FileTree.addDirectories, List.foldl_cons, List.foldl_nil, if_pos hthere]
    rw [hsame]
    exact ⟨h, fun _ _ => rfl⟩
  · have hentries : (tree.addDirectories [nodeDirectory]).entries =
        Table.insert nodeDirectory .directory tree.entries := by
      simp only [FileTree.addDirectories, List.foldl_cons, List.foldl_nil, if_neg hthere]
    refine ⟨⟨h.accepts, ?_, ?_, ?_⟩, fun other hother => ?_⟩
    · rw [hentries]
      exact h.sorted.insert _ _
    · intro q hq
      by_cases hqd : q = nodeDirectory
      · exact hqd
      · rw [hentries, Table.find?_insert_of_ne hqd] at hq
        exact h.clear q hq
    · unfold FileTree.isFile
      rw [hentries, Table.find?_insert_self]
    · unfold SameAt
      rw [hentries, Table.find?_insert_of_ne hother]

/-- The directory of the nodes may be made, and made again. -/
theorem Tidy.addDirectories (h : Tidy tree) {paths : List Path}
    (habove : ∀ p ∈ paths, p = nodeDirectory) :
    Tidy (tree.addDirectories paths) ∧
      ∀ other, other ≠ nodeDirectory → SameAt tree (tree.addDirectories paths) other := by
  induction paths generalizing tree with
  | nil => exact ⟨h, fun _ _ => rfl⟩
  | cons p rest ih =>
    obtain rfl := habove p List.mem_cons_self
    -- what stands above a file can only be the directory of the nodes
    have hstep := h.addDirectory
    obtain ⟨htidy, hsame⟩ := ih hstep.1 fun q hq => habove q (List.mem_cons_of_mem _ hq)
    exact ⟨htidy, fun other hother => (hsame other hother).trans (hstep.2 other hother)⟩

/-- A file in place of another one or of nothing leaves the tree tidy. -/
theorem Tidy.insertFile (h : Tidy tree) (hplace : Place path) {tree' : FileTree} {n : Nat}
    {text : String} (hrefuses : tree'.refuses = tree.refuses)
    (hentries : tree'.entries = Table.insert path (.file n text) tree.entries) : Tidy tree' where
  accepts := by
    rw [hrefuses]
    exact h.accepts
  sorted := by
    rw [hentries]
    exact h.sorted.insert _ _
  clear := by
    intro q hq
    rw [hentries, Table.find?_insert] at hq
    split at hq
    · cases hq
    · exact h.clear q hq
  place := by
    rw [← h.place]
    unfold FileTree.isFile
    rw [hentries, Table.find?_insert_of_ne (Ne.symm hplace.ne)]

theorem Tidy.eraseFile (h : Tidy tree) (hplace : Place path) :
    Tidy { tree with entries := Table.erase path tree.entries } := by
  refine ⟨h.accepts, h.sorted.erase _, fun q hq => ?_, ?_⟩
  · rw [Table.find?_erase h.sorted] at hq
    split at hq
    · cases hq
    · exact h.clear q hq
  · rw [← h.place]
    unfold FileTree.isFile
    rw [Table.find?_erase h.sorted, if_neg (Ne.symm hplace.ne)]

/-- **A text is put at its place.** -/
theorem Tidy.put (h : Tidy tree) (hplace : Place path) (text : String) :
    ∃ tree', tree.put path text = .ok tree' ∧ Tidy tree' ∧
      (∃ n, Table.find? path tree'.entries = some (.file n text)) ∧
      ∀ other, other ≠ path → other ≠ nodeDirectory → SameAt tree tree' other := by
  have hunblocked : ¬ tree.isBlocked path = true := by
    rw [h.isBlocked hplace]
    exact Bool.false_ne_true
  unfold FileTree.put
  rw [if_neg hunblocked]
  cases hentry : Table.find? path tree.entries with
  -- a new file: the directories above it are made first
  | none =>
    dsimp only
    rw [if_neg (by simpa using hplace.full)]
    obtain ⟨htidy, hsame⟩ := h.addDirectories hplace.above
    refine ⟨_, rfl, htidy.insertFile hplace rfl rfl, ⟨_, Table.find?_insert_self _ _ _⟩, ?_⟩
    intro other hother hdirectory
    exact (Table.find?_insert_of_ne hother _ _).trans (hsame other hdirectory)
  | some entry =>
    cases entry with
    | directory => exact absurd (h.clear path hentry) hplace.ne
    | file n old =>
      refine ⟨_, rfl, h.insertFile hplace rfl rfl, ⟨n, Table.find?_insert_self _ _ _⟩, ?_⟩
      exact fun other hother _ => Table.find?_insert_of_ne hother _ _

/-- **A file is replaced.** -/
theorem Tidy.replace (h : Tidy tree) (hhome : Home path) (text : String) :
    ∃ tree', tree.replace path text = (.ok (), tree') ∧ Tidy tree' ∧
      (∃ n, Table.find? path tree'.entries = some (.file n text)) ∧
      ∀ other, other ≠ path → other ≠ path.neighbour → other ≠ nodeDirectory →
        SameAt tree tree' other := by
  have hcounted : Tidy { tree with writes := tree.writes + 1 } :=
    ⟨h.accepts, h.sorted, h.clear, h.place⟩
  -- the text is written beside the file and then moved over it
  obtain ⟨written, hput, htidy, ⟨n, hfile⟩, hothers⟩ := hcounted.put hhome.neighbour text
  -- nothing is moved over a directory, and the file is none
  have htarget : written.isDirectory path = false := by
    unfold FileTree.isDirectory
    cases hentry : Table.find? path written.entries with
    | none => simpa using hhome.full
    | some entry =>
      cases entry with
      | directory => exact absurd (htidy.clear path hentry) hhome.ne
      | file n text => simpa using hhome.full
  have hmoved : written.rename path.neighbour path = .ok { written with
      entries := Table.insert path (.file n text) (Table.erase path.neighbour written.entries) } := by
    unfold FileTree.rename
    rw [hfile]
    simp only [htarget, Bool.false_eq_true, reduceIte]
  refine ⟨{ written with
      entries := Table.insert path (.file n text) (Table.erase path.neighbour written.entries) },
    ?_, ?_, ⟨n, Table.find?_insert_self _ _ _⟩, ?_⟩
  · unfold FileTree.replace
    simp only [h.accepts, Bool.false_eq_true, reduceIte, hput, hmoved]
  · have hleft := htidy.eraseFile hhome.neighbour
    exact hleft.insertFile hhome.toPlace rfl rfl
  · intro other hother hneighbour hdirectory
    have hsame := hothers other hneighbour hdirectory
    show Table.find? other (Table.insert path _ (Table.erase path.neighbour written.entries)) = _
    rw [Table.find?_insert_of_ne hother, Table.find?_erase htidy.sorted, if_neg hneighbour]
    exact hsame

/-- A line is added to the log. -/
theorem Tidy.append (h : Tidy tree) (hplace : Place path) (number : Nat) (text : String) :
    Tidy (tree.append number path text) ∧
      ∀ other, other ≠ path → SameAt tree (tree.append number path text) other := by
  unfold FileTree.append
  split
  · split
    · refine ⟨h.insertFile hplace rfl rfl, ?_⟩
      exact fun other hother => Table.find?_insert_of_ne hother _ _
    · exact ⟨h, fun _ _ => rfl⟩
  · exact ⟨h, fun _ _ => rfl⟩

/-- **A JSON file is written.** -/
theorem Tidy.writeJson (h : Tidy tree) (hhome : Home path) (json : Json) :
    ∃ tree', tree.writeJson path json = (.ok (), tree') ∧ Tidy tree' ∧
      (∃ n, Table.find? path tree'.entries = some (.file n (json.render .indented))) ∧
      ∀ other, other ≠ path → other ≠ path.neighbour → other ≠ nodeDirectory →
        SameAt tree tree' other := by
  obtain ⟨tree', hreplace, htidy, hfile, hothers⟩ := h.replace hhome (json.render .indented)
  refine ⟨tree', ?_, htidy, hfile, hothers⟩
  unfold FileTree.writeJson
  rw [hreplace]

theorem readJson_congr {α : Type} {read? : Document → Option α} {tree' : FileTree}
    (hsame : tree'.read path = tree.read path) :
    tree'.readJson read? path = tree.readJson read? path := by
  unfold FileTree.readJson
  rw [hsame]

/-- A file that is not there is not found. -/
theorem readJson_none {α : Type} {read? : Document → Option α} {tree : FileTree}
    (hfree : tree.isBlocked path = false) (hnone : Table.find? path tree.entries = none) :
    tree.readJson read? path = .ok none := by
  unfold FileTree.readJson FileTree.read
  rw [hnone, hfree]
  rfl

end FileTree

namespace History

variable {tree : FileTree}

/-! ## Opening what is there -/

/-- Node files can be opened where no file is in the place of their directory. -/
theorem NodeFiles.openIn_of_place (hplace : tree.isFile nodeDirectory = false) :
    NodeFiles.openIn tree = .ok ({}, tree.addDirectories (nodeDirectory.ancestors ++ [nodeDirectory])) := by
  have hblocked : tree.isBlocked nodeDirectory = false := rfl
  unfold NodeFiles.openIn FileTree.makeDirectory
  rw [hplace, hblocked]
  rfl

theorem Storage.openIn_perNode {files : NodeFiles} {tree' : FileTree} (h : NodeFiles.openIn tree = .ok (files, tree')) :
    Storage.openIn .perNode tree = .ok (.perNode files, tree') := by
  unfold Storage.openIn
  rw [h]
  rfl

theorem Storage.openIn_bulk {whole : Bulk} (h : Bulk.openIn tree = .ok whole) :
    Storage.openIn .bulk tree = .ok (.bulk whole, tree) := by
  unfold Storage.openIn
  rw [h]
  rfl

end History

end DurableFlow
