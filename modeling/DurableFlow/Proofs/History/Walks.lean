/-
The search for the blocks around a node, on whatever is stored.

In the history of a run the search goes back from a node to older ones, so it comes to its end for a
reason of the history. Nothing of that is assumed here. What is stored may have been damaged: nodes may
be their own parents or run in circles, the end of a block may name a node that starts none or is not
there, and there may be any number of flow starts. The search ends all the same, because it does not go
on from a node to which it came before. The node that it starts from does not count among those, so a
circle through it is gone through once more, up to the second time that the search comes to its start.

The search is told here round by round and without fuel. A walk that went on for ever would have no
rounds to tell, so that there are some says that it ends; the fuel with which it is computed is then
seen to be enough.
-/
import DurableFlow.History.Graph
import DurableFlow.Proofs.History.Archive
import Mathlib.Data.Set.Card

set_option autoImplicit false

namespace DurableFlow.History

/-! ## Rounds -/

section Rounds

/-- The block that a node starts. -/
def Node.opened (node : Node) : List Nat :=
  if node.isBlockStart then [node.id] else []

/-- **One round of the walk** at a node, when some numbers were come to before: the number from which it
goes on, with the node there, or nothing where the walk is over. -/
def nextRound (lookup : Nat → EngineResult Node) (seen : List Nat) (node : Node) :
    EngineResult (Option (Nat × Node)) :=
  match previous? lookup node with
  | .error e => .error e
  | .ok none => .ok none
  | .ok (some next) =>
    if next ∈ seen then .ok none
    else
      match lookup next with
      | .error e => .error e
      | .ok found => if found.kind = .flowStart then .ok none else .ok (some (next, found))

/-- The numbers that are looked up in a round: that of the block which ends at the node, and the next
one if it is new. -/
def asked (lookup : Nat → EngineResult Node) (seen : List Nat) (node : Node) : List Nat :=
  (match node.kind with
    | .blockEnd start => [start]
    | _ => []) ++
  match previous? lookup node with
  | .ok (some next) => if next ∈ seen then [] else [next]
  | _ => []

/-- **The walk, round by round**: from a node on, when some numbers were come to before, it takes so many
rounds, looks up some numbers and has a result. -/
inductive Goes (lookup : Nat → EngineResult Node) :
    List Nat → Node → Nat → List Nat → EngineResult (List Nat) → Prop where
  /-- The walk is over. -/
  | ends {seen : List Nat} {node : Node} (hround : nextRound lookup seen node = .ok none) :
    Goes lookup seen node 1 (asked lookup seen node) (.ok [])
  /-- A node is not there. -/
  | fails {seen : List Nat} {node : Node} {e : EngineError}
    (hround : nextRound lookup seen node = .error e) :
    Goes lookup seen node 1 (asked lookup seen node) (.error e)
  /-- The walk comes to a node, and another round follows. -/
  | further {seen : List Nat} {node : Node} {next : Nat} {found : Node} {rounds : Nat} {later : List Nat}
    {result : EngineResult (List Nat)} (hround : nextRound lookup seen node = .ok (some (next, found)))
    (hrest : Goes lookup (next :: seen) found rounds later result) :
    Goes lookup seen node (rounds + 1) (asked lookup seen node ++ later)
      (result.map (found.opened ++ ·))

/-- **The search around a node**, round by round: the node is looked up itself, and the walk goes on from
there with nothing seen. -/
inductive Searches (lookup : Nat → EngineResult Node) (id : Nat) :
    Nat → List Nat → EngineResult (List Nat) → Prop where
  | missing {e : EngineError} (hnode : lookup id = .error e) : Searches lookup id 0 [id] (.error e)
  | found {node : Node} {rounds : Nat} {later : List Nat} {result : EngineResult (List Nat)}
    (hnode : lookup id = .ok node) (hwalk : Goes lookup [] node rounds later result) :
    Searches lookup id rounds (id :: later) result

variable {lookup : Nat → EngineResult Node} {seen reached : List Nat} {node found : Node}
  {id next rounds fuel : Nat} {result : EngineResult (List Nat)}

/-! ### What a round does -/

/-- **A round that goes on** comes to a number that is new and has a node. -/
theorem nextRound_eq_some (h : nextRound lookup seen node = .ok (some (next, found))) :
    next ∉ seen ∧ lookup next = .ok found := by
  unfold nextRound at h
  split at h
  · cases h
  · cases h
  · next n _ =>
    by_cases hseen : n ∈ seen
    · rw [if_pos hseen] at h
      cases h
    · rw [if_neg hseen] at h
      cases hnext : lookup n with
      | error e =>
        rw [hnext] at h
        cases h
      | ok other =>
        simp only [hnext] at h
        split at h
        · cases h
        · cases h
          exact ⟨hseen, hnext⟩

/-- **A round that fails** has looked up a number in vain. -/
theorem nextRound_eq_error {e : EngineError} (h : nextRound lookup seen node = .error e) :
    ∃ n ∈ asked lookup seen node, lookup n = .error e := by
  unfold nextRound at h
  split at h
  · next e' hprevious =>
    cases h
    -- only the start of a block that ends here is looked up to know the number that comes next
    unfold previous? at hprevious
    split at hprevious
    · next start hkind =>
      refine ⟨start, ?_, ?_⟩
      · simp [asked, hkind]
      · cases hstart : lookup start with
        | error e' =>
          rw [hstart] at hprevious
          exact congrArg Except.error (Except.error.inj hprevious)
        | ok other =>
          rw [hstart] at hprevious
          cases hprevious
    · cases hprevious
  · cases h
  · next n hprevious =>
    by_cases hseen : n ∈ seen
    · rw [if_pos hseen] at h
      cases h
    · rw [if_neg hseen] at h
      refine ⟨n, ?_, ?_⟩
      · simp [asked, hprevious, hseen]
      · cases hnext : lookup n with
        | error e' =>
          simp only [hnext] at h
          exact congrArg Except.error (Except.error.inj h)
        | ok other =>
          simp only [hnext] at h
          split at h
          · cases h
          · cases h

/-- **The walk is computed round by round.** -/
theorem walk_eq_nextRound : walk lookup (fuel + 1) seen node =
    match nextRound lookup seen node with
    | .error e => .error e
    | .ok none => .ok []
    | .ok (some (next, found)) => (walk lookup fuel (next :: seen) found).map (found.opened ++ ·) := by
  rw [walk]
  unfold nextRound
  cases hprevious : previous? lookup node with
  | error e => rfl
  | ok next =>
    cases next with
    | none => rfl
    | some n =>
      by_cases hseen : n ∈ seen
      · simp only [List.contains_iff_mem, hseen, if_true]
      · simp only [List.contains_iff_mem, hseen, if_false]
        cases hnext : lookup n with
        | error e => rfl
        | ok other =>
          dsimp only
          generalize hrest : walk lookup fuel (n :: seen) other = rest
          cases hkind : other.kind with
          | flowStart => rfl
          | blockStart body => simp [hrest, Node.opened, Node.isBlockStart, hkind]
          | flowEnd start | atom | blockEnd start =>
            cases rest <;> simp [hrest, Node.opened, Node.isBlockStart, hkind, Except.map]

/-! ### What the walk does -/

/-- **Fuel for all rounds is enough**: the walk then has the result that it has round by round. -/
theorem Goes.walk_eq (h : Goes lookup seen node rounds reached result) (hfuel : rounds ≤ fuel) :
    walk lookup fuel seen node = result := by
  induction h generalizing fuel with
  | ends hround | fails hround =>
    obtain ⟨fuel, rfl⟩ := Nat.exists_eq_add_of_le' hfuel
    rw [walk_eq_nextRound, hround]
  | @further seen node next found rounds later result hround _ ih =>
    obtain ⟨fuel, rfl⟩ : ∃ n, fuel = n + 1 := ⟨fuel - 1, by omega⟩
    rw [walk_eq_nextRound, hround]
    dsimp only
    rw [ih (by omega)]

/-- **A walk that fails** has looked up a number in vain. -/
theorem Goes.error (h : Goes lookup seen node rounds reached result) {e : EngineError}
    (hresult : result = .error e) : ∃ n ∈ reached, lookup n = .error e := by
  induction h with
  | ends hround => cases hresult
  | fails hround =>
    cases hresult
    exact nextRound_eq_error hround
  | @further seen node next found rounds later result _ _ ih =>
    cases result with
    | ok blocks => cases hresult
    | error e' =>
      obtain ⟨n, hn, hlookup⟩ := ih hresult
      exact ⟨n, List.mem_append_right _ hn, hlookup⟩

/-- **What a walk finds** are starts of blocks, none of them twice and none that was come to before. -/
theorem Goes.blocks (hown : ∀ n node, lookup n = .ok node → node.id = n)
    (h : Goes lookup seen node rounds reached result) {blocks : List Nat} (hresult : result = .ok blocks) :
    blocks.Nodup ∧ ∀ b ∈ blocks, b ∉ seen ∧ ∃ node, lookup b = .ok node ∧ node.isBlockStart = true := by
  -- each round notes its number, so what comes later is new against it
  induction h generalizing blocks with
  | ends hround =>
    cases hresult
    exact ⟨List.nodup_nil, fun b hb => absurd hb List.not_mem_nil⟩
  | fails hround => cases hresult
  | @further seen node next found rounds later result hround _ ih =>
    obtain ⟨hnew, hnext⟩ := nextRound_eq_some hround
    cases result with
    | error e => cases hresult
    | ok rest =>
      obtain rfl : found.opened ++ rest = blocks := Except.ok.inj hresult
      obtain ⟨hnodup, hrest⟩ := ih rfl
      have hbehind : ∀ b ∈ rest, b ∉ seen ∧ ∃ node, lookup b = .ok node ∧ node.isBlockStart = true := by
        intro b hb
        obtain ⟨hseen, hstart⟩ := hrest b hb
        exact ⟨fun hmem => hseen (List.mem_cons_of_mem _ hmem), hstart⟩
      by_cases hstart : found.isBlockStart = true
      · rw [Node.opened, if_pos hstart, hown next found hnext, List.singleton_append]
        refine ⟨List.nodup_cons.mpr ⟨fun hmem => (hrest next hmem).1 List.mem_cons_self, hnodup⟩, ?_⟩
        intro b hb
        rcases List.mem_cons.mp hb with rfl | hb
        · exact ⟨hnew, found, hnext, hstart⟩
        · exact hbehind b hb
      · rw [Node.opened, if_neg hstart, List.nil_append]
        exact ⟨hnodup, hbehind⟩

/-- A round that goes on leaves one number less of those that have nodes and were not come to. -/
theorem card_unseen_lt {ids : Finset Nat} (hids : ∀ n node, lookup n = .ok node → n ∈ ids)
    (h : nextRound lookup seen node = .ok (some (next, found))) :
    (ids \ (next :: seen).toFinset).card < (ids \ seen.toFinset).card := by
  obtain ⟨hnew, hnext⟩ := nextRound_eq_some h
  have hmem : next ∈ ids \ seen.toFinset :=
    Finset.mem_sdiff.mpr ⟨hids next found hnext, fun hseen => hnew (List.mem_toFinset.mp hseen)⟩
  rw [List.toFinset_cons, Finset.sdiff_insert]
  exact Finset.card_erase_lt_of_mem hmem

/-- **The walk ends.** Each round but the last one comes to a node that was not come to before, so the
induction is on how many of those there are. -/
theorem exists_goes {ids : Finset Nat} (hids : ∀ n node, lookup n = .ok node → n ∈ ids)
    (seen : List Nat) (node : Node) : ∃ rounds reached result,
      Goes lookup seen node rounds reached result ∧ rounds ≤ (ids \ seen.toFinset).card + 1 := by
  induction hleft : (ids \ seen.toFinset).card using Nat.strongRecOn generalizing seen node with
  | ind left ih =>
    cases hround : nextRound lookup seen node with
    | error e => exact ⟨_, _, _, .fails hround, Nat.le_add_left ..⟩
    | ok comes =>
      cases comes with
      | none => exact ⟨_, _, _, .ends hround, Nat.le_add_left ..⟩
      | some pair =>
        obtain ⟨next, found⟩ := pair
        have hless := card_unseen_lt hids hround
        obtain ⟨rounds, reached, result, hgoes, hle⟩ := ih _ (hleft ▸ hless) (next :: seen) found rfl
        exact ⟨_, _, _, .further hround hgoes, by omega⟩

end Rounds

/-! ## What is stored -/

namespace Storage

variable {s : Storage} {tree : FileTree} {id : Nat} {node : Node}

/-- A storage has a node for a number. -/
def Stores (s : Storage) (tree : FileTree) (id : Nat) : Prop := ∃ node, s.get tree id = .ok (some node)

/-- **Nodes are stored under their own numbers**: whatever number is asked for, there is nothing, or there is a
node that has this number. -/
def KeepsOwn (s : Storage) (tree : FileTree) : Prop :=
  ∀ id, ∃ found, s.get tree id = .ok found ∧ ∀ node, found = some node → node.id = id

theorem node_eq_ok_iff : s.node tree id = .ok node ↔ s.get tree id = .ok (some node) := by
  unfold Storage.node
  split
  · next hget => simp [hget]
  · next hget => simp [hget]
  · next hget => simp [hget]

/-- Where nodes are stored under their own numbers, only a missing one is not to be had. -/
theorem KeepsOwn.error {e : EngineError} (hown : s.KeepsOwn tree) (h : s.node tree id = .error e) :
    s.get tree id = .ok none ∧ e = .missingNode id := by
  obtain ⟨found, hget, -⟩ := hown id
  unfold Storage.node at h
  rw [hget] at h
  cases found with
  | none => exact ⟨hget, (Except.error.inj h).symm⟩
  | some node => cases h

/-- Where nodes are stored under their own numbers, the node that is had has the number asked for. -/
theorem KeepsOwn.id_eq (hown : s.KeepsOwn tree) (h : s.node tree id = .ok node) : node.id = id := by
  obtain ⟨found, hget, hid⟩ := hown id
  rw [node_eq_ok_iff, hget] at h
  exact hid node (Except.ok.inj h)

/-- **Finitely many nodes are stored**, and their number is bounded as the search bounds it. -/
theorem stores_finite (s : Storage) (tree : FileTree) :
    {id | s.Stores tree id}.Finite ∧ {id | s.Stores tree id}.ncard ≤ s.sizeBound tree := by
  obtain ⟨ids, hlength, hids⟩ := Archive.exists_ids s tree
  have hsub : {id | s.Stores tree id} ⊆ (ids.toFinset : Set Nat) := by
    rintro id ⟨node, hnode⟩
    exact Finset.mem_coe.mpr (List.mem_toFinset.mpr (hids id node hnode))
  refine ⟨ids.toFinset.finite_toSet.subset hsub, ?_⟩
  calc {id | s.Stores tree id}.ncard
      ≤ (ids.toFinset : Set Nat).ncard := Set.ncard_le_ncard hsub ids.toFinset.finite_toSet
    _ = ids.toFinset.card := Set.ncard_coe_finset _
    _ ≤ ids.length := ids.toFinset_card_le
    _ ≤ s.sizeBound tree := hlength

end Storage

/-! ## The search -/

variable {s : Storage} {tree : FileTree} {id rounds : Nat} {reached : List Nat}
  {result : EngineResult (List Nat)}

/-- **The search has an end**, one round at most behind as many as there are nodes. -/
theorem exists_searches (s : Storage) (tree : FileTree) (id : Nat) :
    ∃ rounds reached, Searches (s.node tree) id rounds reached (enclosingBlocks s tree id) ∧
      rounds ≤ {n | s.Stores tree n}.ncard + 1 := by
  obtain ⟨hfinite, hbound⟩ := s.stores_finite tree
  unfold enclosingBlocks
  cases hnode : s.node tree id with
  | error e => exact ⟨0, [id], .missing hnode, Nat.zero_le _⟩
  | ok node =>
    have hids : ∀ n node, s.node tree n = .ok node → n ∈ hfinite.toFinset := by
      intro n node hn
      rw [Set.Finite.mem_toFinset]
      exact ⟨node, Storage.node_eq_ok_iff.mp hn⟩
    obtain ⟨rounds, reached, result, hgoes, hrounds⟩ := exists_goes hids [] node
    rw [List.toFinset_nil, Finset.sdiff_empty, ← Set.ncard_eq_toFinset_card _ hfinite] at hrounds
    refine ⟨rounds, id :: reached, .found hnode ?_, hrounds⟩
    show Goes (s.node tree) [] node rounds reached (walk (s.node tree) (s.sizeBound tree + 1) [] node)
    rw [hgoes.walk_eq (Nat.le_trans hrounds (Nat.succ_le_succ hbound))]
    exact hgoes

/-- A search that fails has looked up a number in vain: it has no node, or the storage cannot be read there. -/
theorem Searches.error {e : EngineError} (h : Searches (s.node tree) id rounds reached (.error e)) :
    ∃ n ∈ reached, s.node tree n = .error e := by
  cases h with
  | missing hnode => exact ⟨id, List.mem_singleton_self id, hnode⟩
  | found _ hwalk =>
    obtain ⟨n, hn, hlookup⟩ := hwalk.error rfl
    exact ⟨n, List.mem_cons_of_mem id hn, hlookup⟩

/-- What a search finds are starts of blocks, none of them twice. -/
theorem Searches.blocks (hown : s.KeepsOwn tree) {blocks : List Nat}
    (h : Searches (s.node tree) id rounds reached (.ok blocks)) :
    blocks.Nodup ∧ ∀ b ∈ blocks, ∃ node, s.get tree b = .ok (some node) ∧ node.isBlockStart = true := by
  cases h with
  | found _ hwalk =>
    obtain ⟨hnodup, hstarts⟩ :=
      hwalk.blocks (fun n node hn => hown.id_eq hn) rfl
    refine ⟨hnodup, fun b hb => ?_⟩
    obtain ⟨-, node, hlookup, hstart⟩ := hstarts b hb
    exact ⟨node, Storage.node_eq_ok_iff.mp hlookup, hstart⟩

/-- **The search for the blocks around a node ends on every graph.** Where nodes are stored under their own
numbers, and whatever else is wrong with them, it takes at most one round more than there are nodes. Its result
names a number that it looked up and that has no node, or it is a list of starts of blocks that are
stored, none of them twice. -/
theorem enclosing_blocks_end (s : Storage) (tree : FileTree) (hown : s.KeepsOwn tree) (id : Nat) :
    ∃ rounds reached, Searches (s.node tree) id rounds reached (enclosingBlocks s tree id) ∧
      rounds ≤ {n | s.Stores tree n}.ncard + 1 ∧
      ((∃ n ∈ reached, s.get tree n = .ok none ∧ enclosingBlocks s tree id = .error (.missingNode n)) ∨
        ∃ blocks, enclosingBlocks s tree id = .ok blocks ∧ blocks.Nodup ∧
          ∀ b ∈ blocks, ∃ node, s.get tree b = .ok (some node) ∧ node.isBlockStart = true) := by
  obtain ⟨rounds, reached, hsearch, hrounds⟩ := exists_searches s tree id
  refine ⟨rounds, reached, hsearch, hrounds, ?_⟩
  cases hresult : enclosingBlocks s tree id with
  | error e =>
    rw [hresult] at hsearch
    obtain ⟨n, hn, hlookup⟩ := hsearch.error
    obtain ⟨hmissing, rfl⟩ := hown.error hlookup
    exact .inl ⟨n, hn, hmissing, rfl⟩
  | ok blocks =>
    rw [hresult] at hsearch
    exact .inr ⟨blocks, rfl, hsearch.blocks hown⟩

/-! ### A history that runs in circles -/

/-- Nodes that are not those of a run: `1` starts a block and comes from the end of a block that `3`
starts, which comes from `4`, and that comes from `1`; `5` comes from a node that is not there. -/
def circle : Storage := .bulk
  { nodes := [(1, [2], .blockStart true), (2, [1], .blockEnd 3), (3, [4], .blockStart false),
      (4, [1], .atom), (5, [9], .atom)].map fun (id, parents, kind) =>
        (id, { node := { id, parents, kind, startedAt := ⟨0⟩ } }) }

theorem circle_keepsOwn : circle.KeepsOwn {} := by
  intro id
  refine ⟨_, by rw [circle, Storage.get_bulk], fun node hfound => ?_⟩
  obtain ⟨stored, hstored, rfl⟩ := Option.map_eq_some_iff.mp hfound
  have hentries := Table.mem_of_find? hstored
  simp only [List.map_cons, List.map_nil, List.mem_cons, List.not_mem_nil, or_false] at hentries
  rcases hentries with h | h | h | h | h
  all_goals
    cases h
    rfl

/-- From the start of the block the circle is gone through once, and then the search ends with that block;
from the last node it ends with what is missing. -/
theorem enclosing_blocks_end_circle : circle.KeepsOwn {} ∧
    enclosingBlocks circle {} 5 = .error (.missingNode 9) ∧
    ∃ rounds reached, Searches (circle.node {}) 1 rounds reached (.ok [1]) ∧
      rounds ≤ {n | circle.Stores {} n}.ncard + 1 := by
  have hblocks : enclosingBlocks circle {} 1 = .ok [1] := rfl
  obtain ⟨rounds, reached, hsearch, hrounds, -⟩ := enclosing_blocks_end circle {} circle_keepsOwn 1
  rw [hblocks] at hsearch
  exact ⟨circle_keepsOwn, rfl, rounds, reached, hsearch, hrounds⟩

end DurableFlow.History
