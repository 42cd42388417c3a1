/-
The files of the record and of the program.

A file is replaced as a whole or stays as it was, whatever goes wrong on the way, and no other file
is touched. So the file of the record always holds the record that was saved last, and the file of
the program is written by checkpoints only. Nothing is assumed about the device here: writes may be
refused, and directories may stand where files go. Lines in the log and actions beside a node are
written too, and change no node that is read.
-/
import DurableFlow.Proofs.Record.Changes
import DurableFlow.Proofs.History.Archive

set_option autoImplicit false

namespace DurableFlow

open Script Text History

/-! ## Trees -/

/-- Writing a file at a path has nothing to do with another path. -/
structure Path.Apart (path other : Path) : Prop where
  ne : other ≠ path
  neighbour : other ≠ path.neighbour
  above : other ∉ path.neighbour.ancestors

namespace FileTree

variable {tree tree' : FileTree} {path other : Path} {text : String}

theorem SameAt.trans {tree'' : FileTree} (h : SameAt tree tree' other) (h' : SameAt tree' tree'' other) :
    SameAt tree tree'' other := Eq.trans h' h

theorem sameAt_addDirectories {paths : List Path} (h : other ∉ paths) :
    SameAt tree (tree.addDirectories paths) other := by
  unfold SameAt addDirectories
  generalize tree.entries = entries
  dsimp only
  induction paths generalizing entries with
  | nil => rfl
  | cons first rest ih =>
    rw [List.foldl_cons, ih fun hmem => h (List.mem_cons_of_mem _ hmem)]
    split
    · rfl
    · exact Table.find?_insert_of_ne (fun heq => h (List.mem_cons.mpr (.inl heq))) _ _

/-- A text that is put at a path is found there, and no other file is touched. -/
theorem put_eq_ok (h : tree.put path text = .ok tree') :
    (∃ n, Table.find? path tree'.entries = some (.file n text)) ∧
      ∀ other, other ≠ path → other ∉ path.ancestors → SameAt tree tree' other := by
  unfold FileTree.put at h
  split at h
  · cases h
  · split at h
    · cases h
      exact ⟨⟨_, Table.find?_insert_self _ _ _⟩, fun other hne _ => Table.find?_insert_of_ne hne _ _⟩
    · cases h
    · split at h
      · cases h
      · cases h
        refine ⟨⟨_, Table.find?_insert_self _ _ _⟩, fun other hne habove => ?_⟩
        exact (Table.find?_insert_of_ne hne _ _).trans (sameAt_addDirectories habove)

theorem rename_eq_ok {source target : Path} (h : tree.rename source target = .ok tree') :
    Table.find? target tree'.entries = Table.find? source tree.entries ∧
      ∀ other, other ≠ source → other ≠ target → SameAt tree tree' other := by
  unfold FileTree.rename at h
  split at h
  · cases h
  · next entry hentry =>
    split at h
    · cases h
    · cases h
      refine ⟨(Table.find?_insert_self _ _ _).trans hentry.symm, fun other hsource htarget => ?_⟩
      exact (Table.find?_insert_of_ne htarget _ _).trans (Table.find?_erase_of_ne hsource _)

/-- **Replacing a file touches no other file**, whatever becomes of it. -/
theorem sameAt_replace (h : path.Apart other) : SameAt tree (tree.replace path text).2 other := by
  have hcounted : SameAt tree { tree with writes := tree.writes + 1 } other := rfl
  unfold FileTree.replace
  dsimp only
  split
  · exact hcounted
  · split
    · exact hcounted
    · next written hput =>
      have hwritten := hcounted.trans ((put_eq_ok hput).2 other h.neighbour h.above)
      split
      · exact hwritten
      · next renamed hrename => exact hwritten.trans ((rename_eq_ok hrename).2 other h.neighbour h.ne)

/-- **A file is replaced as a whole, or it stays as it was.** -/
theorem replace_cases (hne : path ≠ path.neighbour) (habove : path ∉ path.neighbour.ancestors) :
    ((tree.replace path text).1 = .ok () ∧
        ∃ n, Table.find? path (tree.replace path text).2.entries = some (.file n text)) ∨
      (∃ e, (tree.replace path text).1 = .error e) ∧ SameAt tree (tree.replace path text).2 path := by
  -- a write is counted whether or not it succeeds
  have hcounted : SameAt tree { tree with writes := tree.writes + 1 } path := rfl
  unfold FileTree.replace
  dsimp only
  split
  · exact .inr ⟨⟨_, rfl⟩, hcounted⟩
  · split
    · exact .inr ⟨⟨_, rfl⟩, hcounted⟩
    · next written hput =>
      obtain ⟨⟨n, hfile⟩, hothers⟩ := put_eq_ok hput
      split
      · exact .inr ⟨⟨_, rfl⟩, hcounted.trans (hothers path hne habove)⟩
      · next renamed hrename => exact .inl ⟨rfl, n, (rename_eq_ok hrename).1.trans hfile⟩

theorem sameAt_writeJson (h : path.Apart other) (json : Json) :
    SameAt tree (tree.writeJson path json).2 other := by
  have hsame : SameAt tree (tree.replace path (json.render .indented)).2 other := sameAt_replace h
  unfold FileTree.writeJson
  split
  · next heq =>
    rw [heq] at hsame
    exact hsame
  · next heq =>
    rw [heq] at hsame
    exact hsame

theorem writeJson_cases (hne : path ≠ path.neighbour) (habove : path ∉ path.neighbour.ancestors) (json : Json) :
    ((tree.writeJson path json).1 = .ok () ∧
        ∃ n, Table.find? path (tree.writeJson path json).2.entries = some (.file n (json.render .indented))) ∨
      (∃ e, (tree.writeJson path json).1 = .error e) ∧ SameAt tree (tree.writeJson path json).2 path := by
  unfold FileTree.writeJson
  rcases @replace_cases tree path (json.render .indented) hne habove with
    ⟨hok, hfile⟩ | ⟨⟨e, herror⟩, hsame⟩
  · split
    · next heq =>
      rw [heq] at hfile
      exact .inl ⟨rfl, hfile⟩
    · next heq =>
      rw [heq] at hok
      cases hok
  · split
    · next heq =>
      rw [heq] at herror
      cases herror
    · next heq =>
      rw [heq] at hsame
      exact .inr ⟨⟨_, rfl⟩, hsame⟩

theorem sameAt_append (number : Nat) (h : other ≠ path) : SameAt tree (tree.append number path text) other := by
  unfold FileTree.append
  split
  · split
    · exact Table.find?_insert_of_ne h _ _
    · rfl
  · rfl

/-! ### What is a file -/

/-- Directories that are made are no files, and take no file's place. -/
theorem isFile_addDirectories (tree : FileTree) (paths : List Path) (other : Path) :
    (tree.addDirectories paths).isFile other = tree.isFile other := by
  unfold addDirectories isFile
  generalize tree.entries = entries
  dsimp only
  induction paths generalizing entries with
  | nil => rfl
  | cons first rest ih =>
    rw [List.foldl_cons, ih]
    by_cases hthere : Table.contains first entries = true
    · rw [if_pos hthere]
    · rw [if_neg hthere, Table.find?_insert]
      by_cases heq : other = first
      -- a directory is made where nothing was, and nothing is no file either
      · have hnone : Table.find? first entries = none := by
          simpa [Table.contains] using hthere
        rw [if_pos heq, heq, hnone]
      · rw [if_neg heq]

theorem isFile_put (hput : tree.put path text = .ok tree') (h : other ≠ path) :
    tree'.isFile other = tree.isFile other := by
  unfold FileTree.put at hput
  split at hput
  · cases hput
  · split at hput
    · cases hput
      simp only [isFile, Table.find?_insert_of_ne h]
    · cases hput
    · split at hput
      · cases hput
      · cases hput
        rw [← isFile_addDirectories tree path.ancestors other]
        simp only [isFile, Table.find?_insert_of_ne h]

/-- **What is a file stays one, and what is none becomes none**, but at the path that is written. -/
theorem isFile_writeJson (json : Json) (h : other ≠ path) (hneighbour : other ≠ path.neighbour) :
    (tree.writeJson path json).2.isFile other = tree.isFile other := by
  have hreplace : (tree.replace path (json.render .indented)).2.isFile other = tree.isFile other := by
    let counted : FileTree := { tree with writes := tree.writes + 1 }
    unfold FileTree.replace
    dsimp only
    split
    · rfl
    · split
      · rfl
      · next written hput =>
        have hwritten : written.isFile other = counted.isFile other := isFile_put hput hneighbour
        split
        · exact hwritten
        · next renamed hrename =>
          have hsame := (rename_eq_ok hrename).2 other hneighbour h
          unfold isFile at hwritten ⊢
          rw [hsame]
          exact hwritten
  unfold FileTree.writeJson
  split
  · next heq => rw [heq] at hreplace; exact hreplace
  · next heq => rw [heq] at hreplace; exact hreplace

/-- The file of a node is read as before if it is the same, and its directory is no other thing. -/
theorem read_nodePath (id : Nat) (hsame : SameAt tree tree' (nodePath id))
    (hdirectory : tree'.isFile nodeDirectory = tree.isFile nodeDirectory) :
    tree'.read (nodePath id) = tree.read (nodePath id) := by
  have hblocked : tree'.isBlocked (nodePath id) = tree.isBlocked (nodePath id) := by
    show [nodeDirectory].any tree'.isFile = [nodeDirectory].any tree.isFile
    simp only [List.any_cons, List.any_nil, hdirectory]
  unfold FileTree.read
  rw [hsame, hblocked]

end FileTree

/-! ## Histories -/

/-- A path that is not among those of a history or of the log. -/
structure Path.Aloof (path : Path) : Prop where
  node : ∀ id, (nodePath id).Apart path
  bulk : bulkPath.Apart path
  log : path ≠ Archive.logPath

open FileTree (SameAt)

namespace History

variable {tree tree' : FileTree} {path : Path}

theorem NodeFiles.sameAt_write (h : path.Aloof) (s : NodeFiles) (tree : FileTree) (id : Nat) :
    SameAt tree (s.write tree id).2 path := by
  unfold NodeFiles.write
  split
  · exact FileTree.sameAt_writeJson (h.node id) _
  · rfl

theorem NodeFiles.sameAt_writeAll (h : path.Aloof) (s : NodeFiles) (tree : FileTree) (ids : List Nat) :
    SameAt tree (s.writeAll tree ids).2 path := by
  induction ids generalizing tree with
  | nil => rfl
  | cons id rest ih =>
    have hwrite := s.sameAt_write h tree id
    unfold NodeFiles.writeAll
    split
    · next heq =>
      rw [heq] at hwrite
      exact hwrite.trans (ih _)
    · next heq =>
      rw [heq] at hwrite
      exact hwrite

theorem Bulk.sameAt_flush (h : path.Aloof) (s : Bulk) (tree : FileTree) :
    SameAt tree (s.flush tree).2.2 path := by
  unfold Bulk.flush
  split
  · have hwrite : SameAt tree _ path := FileTree.sameAt_writeJson h.bulk
      (.arr ((Table.values s.nodes).map StoredNode.toJson))
    split
    · next heq =>
      rw [heq] at hwrite
      exact hwrite
    · next heq =>
      rw [heq] at hwrite
      exact hwrite
  · rfl

theorem Storage.sameAt_flush (h : path.Aloof) (s : Storage) (tree : FileTree) :
    SameAt tree (s.flush tree).2.2 path := by
  cases s with
  | perNode files => exact files.sameAt_writeAll h tree _
  | bulk bulk => exact bulk.sameAt_flush h tree

theorem Storage.sameAt_store (h : path.Aloof) (s : Storage) (tree : FileTree) (node : Node) (defer : Bool) :
    SameAt tree (s.store tree node defer).2.2 path := by
  cases s with
  | perNode files =>
    simp only [Storage.store, NodeFiles.store]
    split
    · rfl
    · split
      · rfl
      · exact NodeFiles.sameAt_write h _ tree _
  | bulk bulk => rfl

theorem Storage.sameAt_saveActions (h : path.Aloof) (s : Storage) (tree : FileTree) (id : Nat)
    (actions : List Action) : SameAt tree (s.saveActions tree id actions).2.2 path := by
  cases s with
  | perNode files =>
    simp only [Storage.saveActions, NodeFiles.saveActions]
    split
    · rfl
    · rfl
    · split
      · rfl
      · exact NodeFiles.sameAt_write h _ tree _
  | bulk bulk => rfl

theorem Storage.sameAt_autopersist (h : path.Aloof) (s : Storage) (tree : FileTree) (id : Nat) :
    SameAt tree (s.autopersist tree id).2.2 path := by
  cases s with
  | perNode files =>
    simp only [Storage.autopersist, NodeFiles.autopersist]
    split
    · exact NodeFiles.sameAt_write h _ tree _
    · rfl
  | bulk bulk => rfl

/-! ### The nodes that are read -/

/-- A history answers as before if the files of its nodes are read as before. -/
theorem Storage.get_congr_tree (s : Storage) (h : ∀ id, tree'.read (nodePath id) = tree.read (nodePath id))
    (id : Nat) : s.get tree' id = s.get tree id := by
  cases s with
  | bulk bulk => rfl
  | perNode files =>
    have hread : files.read tree' id = files.read tree id := NodeFiles.read_congr rfl fun _ => h id
    rw [Storage.get_files, Storage.get_files, hread]

/-- One node's file is written, or it is not: the files of the others are read as before. -/
theorem NodeFiles.read_write (s : NodeFiles) (tree : FileTree) (id : Nat) {m : Nat} (h : m ≠ id) :
    (s.write tree id).2.read (nodePath m) = tree.read (nodePath m) := by
  have hne : nodePath m ≠ nodePath id := fun heq => h (nodePath_injective heq)
  have hneighbour := nodePath_ne_neighbour m id
  have habove : nodePath m ∉ (nodePath id).neighbour.ancestors :=
    fun hmem => (home_nodePath m).ne (List.mem_singleton.mp hmem)
  unfold NodeFiles.write
  split
  · exact FileTree.read_nodePath m (FileTree.sameAt_writeJson ⟨hne, hneighbour, habove⟩ _)
      (FileTree.isFile_writeJson _ (Ne.symm (home_nodePath id).ne) (Ne.symm (home_nodePath id).neighbour.ne))
  · rfl

/-- **Actions change no node**, whatever becomes of their writing. -/
theorem Storage.get_saveActions (s : Storage) (tree : FileTree) (id : Nat) (actions : List Action) (m : Nat) :
    (s.saveActions tree id actions).2.1.get (s.saveActions tree id actions).2.2 m = s.get tree m := by
  cases s with
  | bulk bulk =>
    simp only [Storage.saveActions, Bulk.saveActions]
    split
    · rfl
    · next stored hstored =>
      rw [get_bulk, get_bulk, Table.find?_insert]
      split
      · next hm =>
        rw [hm, hstored]
        rfl
      · rfl
  | perNode files =>
    simp only [Storage.saveActions, NodeFiles.saveActions]
    cases hread : files.read tree id with
    | error e => rfl
    | ok existing =>
      cases existing with
      | none => rfl
      | some stored =>
        let files' : NodeFiles :=
          { files with cache := Table.insert id { stored with actions } files.cache }
        -- whether the file is written now or later, the other nodes are read as before
        have hsame : ∀ tree', (∀ m, m ≠ id → tree'.read (nodePath m) = tree.read (nodePath m)) →
            (Storage.perNode files').get tree' m = (Storage.perNode files).get tree m := by
          intro tree' hfiles
          rw [get_perNode files files' rfl fun m hnone => hfiles m fun heq => ?_]
          · split
            · next hm =>
              have hfound : (Storage.perNode files).read tree id = .ok (some stored) := hread
              have hget : (Storage.perNode files).get tree id = .ok (some stored.node) := get_of_read hfound
              rw [hm, hget]
            · rfl
          · rw [heq] at hnone
            exact absurd hnone (by simp [files', Table.find?_insert_self])
        dsimp only
        split
        · exact hsame tree fun _ _ => rfl
        · exact hsame _ fun m hm => files'.read_write tree id hm

end History

/-! ## Archives -/

namespace Archive

variable {a a' : Archive} {path : Path}

/-- **A call on the history** is refused, or it is carried out. -/
theorem historyCall_cases (call : ArchiveCall)
    (f : Storage → FileTree → EngineResult Unit × Storage × FileTree) (a : Archive) : ∃ journal,
      (∃ e, historyCall call f a = (.error e, { a with journal })) ∨ historyCall call f a =
        ((f a.history a.tree).1,
          { a with journal, history := (f a.history a.tree).2.1, tree := (f a.history a.tree).2.2 }) := by
  have hcall : historyCall call f a =
      (if a.isWatched = true then (do announce call; onHistory f) else onHistory f : Attempt Archive Unit) a := rfl
  rw [hcall]
  split
  · refine ⟨a.journal ++ [call], ?_⟩
    rcases announce_cases call (onHistory f) a with ⟨e, heq⟩ | heq
    · exact .inl ⟨e, heq⟩
    · exact .inr heq
  · exact ⟨a.journal, .inr rfl⟩

theorem sameAt_historyCall (call : ArchiveCall)
    {f : Storage → FileTree → EngineResult Unit × Storage × FileTree} (a : Archive)
    (h : SameAt a.tree (f a.history a.tree).2.2 path) : SameAt a.tree ((historyCall call f).after a).tree path := by
  obtain ⟨journal, ⟨e, heq⟩ | heq⟩ := historyCall_cases call f a
  · rw [Attempt.after, heq]
    rfl
  · rw [Attempt.after, heq]
    exact h

/-- A file at the top is written or refused, and the history is left alone. -/
theorem onTree_cases (call : ArchiveCall) (f : FileTree → EngineResult Unit × FileTree) (a : Archive) :
    ∃ journal, (∃ e, (do announce call; onTree f : Attempt Archive Unit) a = (.error e, { a with journal })) ∨
      (do announce call; onTree f : Attempt Archive Unit) a =
        ((f a.tree).1, { a with journal, tree := (f a.tree).2 }) := by
  refine ⟨a.journal ++ [call], ?_⟩
  rcases announce_cases call (onTree f) a with ⟨e, heq⟩ | heq
  · exact .inl ⟨e, heq⟩
  · exact .inr heq

theorem sameAt_onTree (call : ArchiveCall) {f : FileTree → EngineResult Unit × FileTree} (a : Archive)
    (h : SameAt a.tree (f a.tree).2 path) :
    SameAt a.tree ((do announce call; onTree f : Attempt Archive Unit).after a).tree path := by
  obtain ⟨journal, ⟨e, heq⟩ | heq⟩ := onTree_cases call f a
  · rw [Attempt.after, heq]
    rfl
  · rw [Attempt.after, heq]
    exact h

/-- Moving the history writes the file of the history. -/
theorem sameAt_migrate (h : path.Aloof) (a : Archive) : SameAt a.tree (migrate.after a).tree path := by
  obtain ⟨journal, ⟨e, heq⟩ | ⟨nodes, bulk, _, _, heq⟩⟩ := migrate_eq a
  · rw [Attempt.after, heq]
    rfl
  · have hflush : SameAt a.tree (bulk.flush a.tree).2.2 path := bulk.sameAt_flush h a.tree
    rw [Attempt.after, heq, migrated]
    split
    · exact hflush
    · exact hflush

/-- **Calls on the history and the log** touch no other file. -/
theorem Call.sameAt (hcall : a.Call a') (h : path.Aloof) : SameAt a.tree a'.tree path := by
  cases hcall with
  | log line => exact FileTree.sameAt_append _ h.log
  | store node defer => exact sameAt_historyCall _ a (Storage.sameAt_store h _ _ node defer)
  | flush => exact sameAt_historyCall _ a (Storage.sameAt_flush h _ _)
  | saveActions id actions => exact sameAt_historyCall _ a (Storage.sameAt_saveActions h _ _ id actions)
  | autopersist id => exact sameAt_historyCall _ a (Storage.sameAt_autopersist h _ _ id)

end Archive

/-- Moving the history at the end touches no other file. -/
theorem Execution.sameAt_migrateHistory {path : Path} (h : path.Aloof) (x : Execution) :
    FileTree.SameAt x.archive.tree x.migrateHistory.archive.tree path := by
  have hmigrate := Archive.sameAt_migrate h x.archive
  rcases x.migrateHistory_cases with hsame | ⟨_, ⟨a, hmove, heq⟩ | ⟨e, a, hmove, heq⟩⟩
  · rw [hsame]
    rfl
  · rw [Attempt.after, hmove] at hmigrate
    rw [heq]
    exact hmigrate
  · rw [Attempt.after, hmove] at hmigrate
    rw [heq]
    exact hmigrate

end DurableFlow
