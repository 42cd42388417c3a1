/-
The blocks around the nodes of a history.

A node lies inside the blocks that were open on its line of execution when it was appended. This can
be read off the graph without going back along first parents: a block was open there if its start is
somewhere before the node, by way of whatever parents, and if no end of it has a number up to that of
the node. The search for the blocks around a node finds just these, innermost first, although it looks
at one parent of each node only and passes over the blocks that it finds closed.

The induction goes over the numbers of the nodes. Behind all the nodes that a node goes on from are the
same blocks, so it does not matter which parent is taken. Where the next node back ends a block, that
block is dropped from what is behind it; a block that is still open has no such end on the way.

All this needs the ends of blocks to be stored. Where the end of a block cannot be stored, the program
goes on, and the search goes on finding the block.
-/
import DurableFlow.Proofs.Cancellation.Scopes

set_option autoImplicit false

namespace DurableFlow

open Script History

namespace History

/-! ## Lines in a graph -/

section Graph

variable {nodes : Nodes} {next start n p s : Nat} {node : Node} {blocks : List Nat}

/-- A node goes on from another one on its line. -/
def Follows (nodes : Nodes) (p n : Nat) : Prop := ∃ node, nodes n = some node ∧ p ∈ node.lineParents

/-- **A node comes before another one** on the line of that one. -/
def Precedes (nodes : Nodes) : Nat → Nat → Prop := Relation.TransGen (Follows nodes)

theorem Follows.lt (hgraph : Graph nodes next start) (h : Follows nodes p n) : p < n := by
  obtain ⟨node, hnode, hp⟩ := h
  exact (hgraph.parents hnode p (Node.lineParents_subset hp)).1

theorem Precedes.lt (hgraph : Graph nodes next start) (h : Precedes nodes s n) : s < n := by
  induction h with
  | single h => exact h.lt hgraph
  | tail _ h ih => exact Nat.lt_trans ih (h.lt hgraph)

/-- The start of the flow goes on from nothing. -/
theorem Follows.not_flowStart (hgraph : Graph nodes next start) (h : Follows nodes p n)
    (hnode : nodes n = some node) : node.kind ≠ .flowStart := by
  intro hkind
  obtain ⟨other, hother, hp⟩ := h
  obtain rfl := Option.some.inj (hnode.symm.trans hother)
  obtain ⟨first, hfirst, hnone⟩ := hgraph.started
  rw [(hgraph.flowStart hnode).mp hkind] at hnode
  obtain rfl := Option.some.inj (hnode.symm.trans hfirst)
  have hmem := Node.lineParents_subset hp
  rw [hnone] at hmem
  cases hmem

/-- A node follows one on the line of which another one is, or just that one. -/
theorem Precedes.last (h : Precedes nodes s n) :
    ∃ p, Follows nodes p n ∧ (s = p ∨ Precedes nodes s p) := by
  cases h with
  | single h => exact ⟨s, h, .inl rfl⟩
  | tail hbefore h => exact ⟨_, h, .inr hbefore⟩

/-! ## What is around a node -/

/-- The blocks around a node, by those that were open when it was appended. -/
def Node.around (node : Node) (blocks : List Nat) : List Nat :=
  match node.kind with
  | .blockEnd _ => blocks.tail
  | _ => blocks

/-- **Behind a node** are the blocks around it, and the one that it starts. -/
theorem Behind.after_self (h : Behind nodes n node blocks) (hnode : nodes n = some node)
    (hstart : node.kind ≠ .flowStart) (hend : ∀ s, node.kind ≠ .flowEnd s) :
    After nodes n (if node.isBlockStart then n :: node.around blocks else node.around blocks) := by
  obtain ⟨p, rest, hparents⟩ := List.exists_cons_of_ne_nil h.onward
  have hafter : After nodes p blocks := h.after p (hparents ▸ List.mem_cons_self)
  have hparent : node.parents.head? = some p := by
    rw [← Node.lineParents_of_ne hend, hparents]
    rfl
  unfold Node.isBlockStart Node.around
  cases hkind : node.kind with
  | flowStart => exact absurd hkind hstart
  | flowEnd s => exact absurd hkind (hend s)
  | atom => exact .atom hnode hkind hparent hafter
  | blockStart body => exact .blockStart hnode hkind hparent hafter
  | blockEnd s =>
    obtain ⟨outer, rfl⟩ := h.innermost s hkind
    have hopened : After nodes s (s :: outer) := hafter.innermost
    obtain ⟨body, hs⟩ := hopened.startAt s List.mem_cons_self
    exact hopened.ended hs ⟨node, hnode, hkind⟩

/-- What is behind a node by its kind. -/
theorem Behind.mem_around (hgraph : Graph nodes next start) (h : Behind nodes n node blocks)
    (hnode : nodes n = some node) (s : Nat) :
    s ∈ node.around blocks ↔ s ∈ blocks ∧ ¬ EndOf nodes n s := by
  have hends : EndOf nodes n s ↔ node.kind = .blockEnd s := by
    refine ⟨fun hend => ?_, fun hkind => ⟨node, hnode, hkind⟩⟩
    obtain ⟨other, hother, hkind⟩ := hend
    rw [hnode] at hother
    cases hother
    exact hkind
  rw [hends]
  unfold Node.around
  split
  · next t hkind =>
    obtain ⟨outer, rfl⟩ := h.innermost t hkind
    obtain ⟨p, hp⟩ := List.exists_mem_of_ne_nil _ h.onward
    have hnot : t ∉ outer := fun ht =>
      Nat.lt_irrefl t ((List.pairwise_cons.mp ((h.after p hp).descends hgraph)).1 t ht)
    rw [hkind, List.tail_cons, List.mem_cons]
    constructor
    · intro hs
      refine ⟨.inr hs, fun heq => hnot ?_⟩
      rw [NodeKind.blockEnd.inj heq]
      exact hs
    · rintro ⟨rfl | hs, hne⟩
      · exact absurd rfl hne
      · exact hs
  · next hno => exact ⟨fun hs => ⟨hs, hno s⟩, And.left⟩

/-- What is behind a node that another one goes on from is the same from either of them. -/
theorem Behind.eq_around (h : Behind nodes n node blocks) (hnode : nodes n = some node)
    (hp : Follows nodes p n) {last : Node} {before : List Nat} (hlast : nodes p = some last)
    (hbefore : Behind nodes p last before) (hstart : last.kind ≠ .flowStart) :
    blocks = if last.isBlockStart then p :: last.around before else last.around before := by
  obtain ⟨other, hother, hmem⟩ := hp
  obtain rfl := Option.some.inj (hnode.symm.trans hother)
  have hafter := h.after p hmem
  refine hafter.unique (hbefore.after_self hlast hstart fun s hkind => ?_)
  have hinv := hafter.inv hlast
  rw [hkind] at hinv
  exact hinv

/-- **The blocks behind a node were open when it was appended**, and all blocks that were open on its
line are among them. -/
theorem Lined.mem_iff (h : Lined nodes) (hgraph : Graph nodes next start) (hnode : nodes n = some node)
    (hbehind : Behind nodes n node blocks) {body : Bool} (hs : StartAt nodes body s) :
    s ∈ blocks ↔ Precedes nodes s n ∧ ∀ e, EndOf nodes e s → n ≤ e := by
  induction n using Nat.strongRecOn generalizing node blocks with
  | ind n ih =>
  constructor
  · intro hmem
    refine ⟨?_, hbehind.unended s hmem⟩
    obtain ⟨p, hp⟩ := List.exists_mem_of_ne_nil _ hbehind.onward
    have hfollows : Follows nodes p n := ⟨node, hnode, hp⟩
    have hafter := hbehind.after p hp
    obtain ⟨last, hlast⟩ := hafter.stored
    by_cases hkind : last.kind = .flowStart
    · have hinv := hafter.inv hlast
      rw [hkind] at hinv
      rw [hinv] at hmem
      cases hmem
    · obtain ⟨before, hbefore⟩ := h p last hlast hkind
      have hearlier : s ∈ last.around before → Precedes nodes s n := by
        intro hs'
        have hin := ((hbefore.mem_around hgraph hlast s).mp hs').1
        exact ((ih p (hfollows.lt hgraph) hlast hbefore).mp hin).1.tail hfollows
      rw [hbehind.eq_around hnode hfollows hlast hbefore hkind] at hmem
      split at hmem
      · rcases List.mem_cons.mp hmem with rfl | hmem
        · exact .single hfollows
        · exact hearlier hmem
      · exact hearlier hmem
  · rintro ⟨hprecedes, hunended⟩
    obtain ⟨p, hfollows, heq | hbefore⟩ := hprecedes.last
    · -- the node goes on from the start of the block itself
      obtain ⟨other, hother, hp⟩ := hfollows
      obtain rfl := Option.some.inj (hnode.symm.trans hother)
      obtain ⟨first, hfirst, hkind⟩ := hs
      rw [heq] at hfirst ⊢
      obtain ⟨_, before, _, _, hblocks⟩ := (hbehind.after p hp).of_blockStart hfirst hkind
      rw [hblocks]
      exact List.mem_cons_self
    · have hlt := hfollows.lt hgraph
      obtain ⟨q, hq, _⟩ := hbefore.last
      have ⟨last, hlast, _⟩ := hq
      have hkind := hq.not_flowStart hgraph hlast
      obtain ⟨before, hbehind'⟩ := h p last hlast hkind
      have hin : s ∈ before := (ih p hlt hlast hbehind').mpr
        ⟨hbefore, fun e he => Nat.le_of_lt (Nat.lt_of_lt_of_le hlt (hunended e he))⟩
      have haround : s ∈ last.around before := (hbehind'.mem_around hgraph hlast s).mpr
        ⟨hin, fun he => absurd (hunended p he) (Nat.not_le_of_lt hlt)⟩
      rw [hbehind.eq_around hnode hfollows hlast hbehind' hkind]
      split
      · exact List.mem_cons_of_mem _ haround
      · exact haround

/-- **The blocks around a node are those that were open on its line when it was appended.** -/
theorem Lined.mem_around_iff (h : Lined nodes) (hgraph : Graph nodes next start)
    (hnode : nodes n = some node) (hbehind : Behind nodes n node blocks) {body : Bool}
    (hs : StartAt nodes body s) :
    s ∈ node.around blocks ↔ Precedes nodes s n ∧ ∀ e, EndOf nodes e s → n < e := by
  rw [hbehind.mem_around hgraph hnode, h.mem_iff hgraph hnode hbehind hs, and_assoc]
  refine and_congr_right fun _ => ⟨fun ⟨hle, hno⟩ e he => ?_, fun hlt => ⟨fun e he => ?_, fun he => ?_⟩⟩
  · refine Nat.lt_of_le_of_ne (hle e he) ?_
    rintro rfl
    exact hno he
  · exact Nat.le_of_lt (hlt e he)
  · exact Nat.lt_irrefl n (hlt n he)

end Graph

/-! ## The search -/

section Search

variable {storage : Storage} {tree : FileTree} {nodes : Nodes} {next start n : Nat} {ids : List Nat}
  {node : Node} (hreads : Reads (storage.node tree) nodes) (hgraph : Graph nodes next start)
  (hids : ∀ n a, nodes n = some a → n ∈ ids) (hlength : ids.length ≤ storage.sizeBound tree)

include hreads hgraph hids hlength

theorem enclosingBlocks_flowStart (hnode : nodes n = some node) (hkind : node.kind = .flowStart) :
    enclosingBlocks storage tree n = .ok [] := by
  refine enclosingBlocks_eq hreads hgraph hids hlength hnode ?_
  rw [Node.isBlockStart, hkind]
  exact .start hnode hkind

/-- **The search finds what is around a node.** -/
theorem enclosingBlocks_of_behind {blocks : List Nat} (hnode : nodes n = some node)
    (hbehind : Behind nodes n node blocks) (hstart : node.kind ≠ .flowStart) :
    enclosingBlocks storage tree n = .ok (node.around blocks) := by
  by_cases hend : ∀ s, node.kind ≠ .flowEnd s
  · exact enclosingBlocks_eq hreads hgraph hids hlength hnode (hbehind.after_self hnode hstart hend)
  · -- the end of the flow is behind the tip of the first head
    obtain ⟨first, hkind⟩ := not_forall_not.mp hend
    have hline : node.lineParents = node.parents.take 1 := by rw [Node.lineParents, hkind]
    obtain ⟨p, rest, hparents⟩ : ∃ p rest, node.parents = p :: rest := by
      refine List.exists_cons_of_ne_nil fun hnone => hbehind.onward ?_
      rw [hline, hnone]
      rfl
    have hafter : After nodes p blocks := by
      refine hbehind.after p ?_
      rw [hline, hparents]
      exact List.mem_cons_self
    obtain ⟨found, hfound, rfl⟩ := hreads _ _ hnode
    have hprevious : previous? (storage.node tree) found = .ok (some p) := by
      have hkind' : found.kind = .flowEnd first := hkind
      have hparents' : found.parents = p :: rest := hparents
      rw [previous?, hkind', hparents']
      rfl
    have hfuel : countUpTo ids p < storage.sizeBound tree + 1 := by
      have hle : countUpTo ids p ≤ ids.length := List.length_filter_le _ _
      omega
    have haround : found.shape.around blocks = blocks := by rw [Node.around, hkind]
    rw [enclosingBlocks, hfound, haround]
    exact walk_eq hreads hgraph hids hafter hprevious (fun t ht => absurd ht List.not_mem_nil) hfuel

end Search

end History

/-! ## In a run -/

namespace Execution

/-- A node goes on from another one on its line. -/
def Follows (x : Execution) (p n : Nat) : Prop :=
  ∃ node, x.archive.node n = .ok node ∧ p ∈ node.lineParents

/-- **A block was open around a node** on its line of execution when the node was appended: the start
of the block is somewhere before the node, and if the block has an end, then that came later. -/
structure OpenAround (x : Execution) (s n : Nat) : Prop where
  start : x.StartsBlock s
  before : Relation.TransGen x.Follows s n
  unended : ∀ e, x.EndsBlock e s → n < e

/-- **The blocks around the nodes of a history are found.** -/
structure FindsBlocks (x : Execution) : Prop where
  /-- Around each node are the blocks that were open, from the innermost outwards. -/
  found : ∀ n node, x.archive.node n = .ok node → ∃ blocks,
    enclosingBlocks x.archive.history x.archive.tree n = .ok blocks ∧ blocks.Pairwise (· > ·) ∧
      (∀ s, s ∈ blocks ↔ x.OpenAround s n) ∧ n ∉ blocks ∧
      ∀ inner s outer, blocks = inner ++ s :: outer →
        enclosingBlocks x.archive.history x.archive.tree s = .ok outer
  /-- Around the end of a block is what is around its start. -/
  ended : ∀ e s, x.EndsBlock e s → enclosingBlocks x.archive.history x.archive.tree e =
    enclosingBlocks x.archive.history x.archive.tree s
  within : ∀ n node s, x.archive.node n = .ok node → x.StartsBlock s →
    ∃ inside, isWithin x.archive.history x.archive.tree n s = .ok inside ∧
      (inside = true ↔ n = s ∨ x.OpenAround s n)
  /-- Around the node of a live step are the blocks that its caller is nested in. -/
  nested : ∀ n step, Table.find? n x.program.steps = some step → ∀ s, x.OpenAround s n ↔
    x.program.Nested s step.thread

variable {x y : Execution} {origin : Origin} {past : Nodes} {s n p : Nat}

theorem follows_eq : x.Follows = History.Follows x.archive.shapes := by
  funext p n
  exact propext (stored_iff (P := fun node => p ∈ node.lineParents) fun _ => .rfl).symm

theorem openAround_iff : x.OpenAround s n ↔ (∃ body, StartAt x.archive.shapes body s) ∧
    History.Precedes x.archive.shapes s n ∧ ∀ e, EndOf x.archive.shapes e s → n < e := by
  rw [← startsBlock_iff]
  simp only [← endsBlock_iff, History.Precedes, ← follows_eq]
  exact ⟨fun h => ⟨h.start, h.before, h.unended⟩, fun ⟨hs, hbefore, hends⟩ => ⟨hs, hbefore, hends⟩⟩

namespace Standing

theorem blocks_of_behind (h : Standing x) {node : Node} {blocks : List Nat}
    (hnode : x.archive.shapes n = some node) (hbehind : Behind x.archive.shapes n node blocks)
    (hstart : node.kind ≠ .flowStart) :
    enclosingBlocks x.archive.history x.archive.tree n = .ok (node.around blocks) := by
  obtain ⟨_, _, hgraph⟩ := h.graph
  obtain ⟨ids, hlength, hids⟩ := h.sane.ids
  exact enclosingBlocks_of_behind x.archive.reads_shapes hgraph hids hlength hnode hbehind hstart

/-- Nothing is around the start of the flow. -/
theorem blocks_of_flowStart (h : Standing x) {node : Node} (hnode : x.archive.shapes n = some node)
    (hkind : node.kind = .flowStart) : enclosingBlocks x.archive.history x.archive.tree n = .ok [] := by
  obtain ⟨_, _, hgraph⟩ := h.graph
  obtain ⟨ids, hlength, hids⟩ := h.sane.ids
  exact enclosingBlocks_flowStart x.archive.reads_shapes hgraph hids hlength hnode hkind

/-- Around the start of a block is what is behind it but for the block. -/
theorem blocks_of_start (h : Standing x) {outer : List Nat}
    (hafter : After x.archive.shapes s (s :: outer)) :
    enclosingBlocks x.archive.history x.archive.tree s = .ok outer := by
  obtain ⟨_, _, hgraph⟩ := h.graph
  obtain ⟨ids, hlength, hids⟩ := h.sane.ids
  obtain ⟨body, node, hnode, hkind⟩ := hafter.startAt s List.mem_cons_self
  refine enclosingBlocks_eq x.archive.reads_shapes hgraph hids hlength hnode ?_
  rw [Node.isBlockStart, hkind, if_pos rfl]
  exact hafter

/-- **What is found around a node**, by what was open there when it was appended. -/
theorem found (h : Standing x) {node : Node} (hnode : x.archive.shapes n = some node) :
    ∃ blocks, enclosingBlocks x.archive.history x.archive.tree n = .ok blocks ∧
      blocks.Pairwise (· > ·) ∧ (∀ s, s ∈ blocks ↔ x.OpenAround s n) ∧ n ∉ blocks ∧
        ∀ inner s outer, blocks = inner ++ s :: outer →
          enclosingBlocks x.archive.history x.archive.tree s = .ok outer := by
  obtain ⟨_, _, hgraph⟩ := h.graph
  have hbefore : ∀ {s}, x.OpenAround s n → s < n := fun hs => (openAround_iff.mp hs).2.1.lt hgraph
  by_cases hkind : node.kind = .flowStart
  · -- nothing is before the start of the flow
    have hnone : ∀ s, ¬ x.OpenAround s n := by
      intro s hs
      obtain ⟨p, hp, _⟩ := (openAround_iff.mp hs).2.1.last
      exact hp.not_flowStart hgraph hnode hkind
    refine ⟨[], h.blocks_of_flowStart hnode hkind, .nil, fun s => ?_, List.not_mem_nil, ?_⟩
    · exact ⟨fun hno => absurd hno List.not_mem_nil, fun hs => absurd hs (hnone s)⟩
    · intro inner s outer heq
      simp at heq
  · obtain ⟨blocks, hbehind⟩ := h.lined n node hnode hkind
    obtain ⟨p, hp⟩ := List.exists_mem_of_ne_nil _ hbehind.onward
    have hafter := hbehind.after p hp
    -- what is around the node is all that is behind it, or that without the innermost block
    obtain ⟨closed, hclosed⟩ : ∃ closed, blocks = closed ++ node.around blocks := by
      unfold Node.around
      split
      · next t hend =>
        obtain ⟨outer, rfl⟩ := hbehind.innermost t hend
        exact ⟨[t], rfl⟩
      · exact ⟨[], rfl⟩
    have hmem : ∀ s, s ∈ node.around blocks ↔ x.OpenAround s n := by
      intro s
      rw [openAround_iff]
      constructor
      · intro hs
        obtain ⟨body, hstart⟩ := hafter.startAt s ((hbehind.mem_around hgraph hnode s).mp hs).1
        exact ⟨⟨body, hstart⟩, (h.lined.mem_around_iff hgraph hnode hbehind hstart).mp hs⟩
      · rintro ⟨⟨body, hstart⟩, hopen⟩
        exact (h.lined.mem_around_iff hgraph hnode hbehind hstart).mpr hopen
    refine ⟨node.around blocks, h.blocks_of_behind hnode hbehind hkind, ?_, hmem, fun hn => ?_, ?_⟩
    · have hdescends := hafter.descends hgraph
      rw [hclosed] at hdescends
      exact (List.pairwise_append.mp hdescends).2.1
    · exact Nat.lt_irrefl n (hbefore ((hmem n).mp hn))
    · intro inner s outer heq
      have houter : blocks = (closed ++ inner) ++ s :: outer := by rw [hclosed, heq, List.append_assoc]
      exact h.blocks_of_start (hafter.within houter)

/-- Around the end of a block is what is around its start. -/
theorem found_ended (h : Standing x) {e : Nat} (hend : EndOf x.archive.shapes e s) :
    enclosingBlocks x.archive.history x.archive.tree e =
      enclosingBlocks x.archive.history x.archive.tree s := by
  obtain ⟨node, hnode, hkind⟩ := hend
  have hne : node.kind ≠ .flowStart := by
    rw [hkind]
    exact NodeKind.noConfusion
  obtain ⟨blocks, hbehind⟩ := h.lined e node hnode hne
  obtain ⟨outer, rfl⟩ := hbehind.innermost s hkind
  obtain ⟨p, hp⟩ := List.exists_mem_of_ne_nil _ hbehind.onward
  have hstart : After x.archive.shapes s (s :: outer) := (hbehind.after p hp).innermost
  rw [h.blocks_of_start hstart, h.blocks_of_behind hnode hbehind hne, Node.around, hkind, List.tail_cons]

end Standing

/-- **In order, the blocks around the nodes are found.** -/
theorem InOrder.findsBlocks (h : InOrder past x) : FindsBlocks x := by
  obtain ⟨hstanding, _⟩ := h.standing
  constructor
  case found => exact fun n node hnode => hstanding.found (Archive.shapes_of_node hnode)
  case ended => exact fun e s hend => hstanding.found_ended (endsBlock_iff.mp hend)
  case within =>
    intro n node s hnode _
    obtain ⟨blocks, hfound, _, hmem, _⟩ := hstanding.found (Archive.shapes_of_node hnode)
    unfold isWithin
    by_cases heq : n = s
    · exact ⟨true, if_pos heq, fun _ => .inl heq, fun _ => rfl⟩
    · refine ⟨blocks.contains s, ?_, ?_⟩
      · rw [if_neg heq, hfound]
        rfl
      · rw [List.contains_iff_mem, hmem]
        exact ⟨.inr, fun hor => hor.resolve_left heq⟩
  case nested =>
    intro n step hstep s
    cases h with
    | going h _ =>
      obtain ⟨node, hnode, _⟩ := h.node_of_step hstep
      obtain ⟨blocks, hfound, _, hmem, _⟩ := hstanding.found hnode
      rw [← hmem, ← h.mem_blocksAround hstep, blocksAround, hfound]
    | ended h _ =>
      exact absurd ((h.steps n).symm.trans hstep) (by simp)

/-- What is around a node stays around it. -/
theorem OnRecord.blocks_stay (h : OnRecord past x) (hxy : Leads x y) {node : Node}
    (hnode : x.archive.node n = .ok node) :
    enclosingBlocks y.archive.history y.archive.tree n =
      enclosingBlocks x.archive.history x.archive.tree n := by
  obtain ⟨hstanding, _⟩ := h.order.standing
  obtain ⟨hlater, hext⟩ := (h.rebase.leads hxy).order.standing
  have hshape := Archive.shapes_of_node hnode
  have hshape' := hext n _ hshape
  by_cases hkind : node.shape.kind = .flowStart
  · rw [hstanding.blocks_of_flowStart hshape hkind, hlater.blocks_of_flowStart hshape' hkind]
  · obtain ⟨blocks, hbehind⟩ := hstanding.lined n _ hshape hkind
    obtain ⟨blocks', hbehind'⟩ := hlater.lined n _ hshape' hkind
    obtain ⟨p, hp⟩ := List.exists_mem_of_ne_nil _ hbehind.onward
    obtain rfl := ((hbehind.after p hp).mono hext).unique (hbehind'.after p hp)
    rw [hstanding.blocks_of_behind hshape hbehind hkind, hlater.blocks_of_behind hshape' hbehind' hkind]

/-- **In the history of every run the blocks around a node are those that were open on its line when it
was appended**, innermost first, and they stay what they were. -/
theorem enclosing_blocks_are_open {x y : Execution} (hstart : Started x) (hrun : Leads x y) :
    FindsBlocks y ∧ ∀ z, Leads y z → ∀ n node, y.archive.node n = .ok node →
      enclosingBlocks z.archive.history z.archive.tree n =
        enclosingBlocks y.archive.history y.archive.tree n := by
  have hrecord := hstart.onRecord.leads hrun
  exact ⟨hrecord.order.findsBlocks, fun _ hlater _ _ hnode => hrecord.blocks_stay hlater hnode⟩

/-- Until the stage is over, what comes in it is around by it; what comes behind it is not. -/
theorem enclosing_blocks_are_open_staged :
    ∃ x, scriptRun stageThenWait {} [.work, .run 1, .run 2, .signal "x" (.ok .null), .work, .run 2, .run 1] =
        some x ∧ FindsBlocks x ∧
      [3, 4, 5].map (fun n => (enclosingBlocks x.archive.history x.archive.tree n).toOption) =
        [some [2], some [], some []] := by
  have hrun : (scriptRun stageThenWait {}
      [.work, .run 1, .run 2, .signal "x" (.ok .null), .work, .run 2, .run 1]).map (fun x =>
        [3, 4, 5].map fun n => (enclosingBlocks x.archive.history x.archive.tree n).toOption) =
      some [some [2], some [], some []] := by decide +kernel
  obtain ⟨x, hx, hsees⟩ := Option.map_eq_some_iff.mp hrun
  obtain ⟨first, hstart, hleads⟩ := leads_of_scriptRun rfl hx
  exact ⟨x, hx, (enclosing_blocks_are_open hstart hleads).1, hsees⟩

/-! ## A block whose end cannot be stored -/

/-- An archive with node files where a directory is in the way of the file of one node. -/
def archiveBlocking (node : Nat) : Archive where
  tree := { entries := [(nodeDirectory, .directory), ((nodePath node).neighbour, .directory)] }
  history := .perNode {}

theorem endsBlock_of_kind {e : Nat} (h : (x.archive.node e).toOption.map Node.kind = some (.blockEnd s)) :
    x.EndsBlock e s := by
  obtain ⟨node, hnode, hkind⟩ := Option.map_eq_some_iff.mp h
  exact ⟨node, eq_ok_of_toOption hnode, hkind⟩

/-- **When the end of a block cannot be written**, it is in the history, but what comes after it goes on
inside the block: the search finds a block that was ended before. -/
theorem unwritten_end_keeps_block :
    ∃ x, scriptRun stageThenWait (archiveBlocking 4)
        [.work, .run 1, .run 2, .signal "x" (.ok .null), .work, .run 2, .run 1] = some x ∧
      x.EndsBlock 4 2 ∧ enclosingBlocks x.archive.history x.archive.tree 5 = .ok [2] ∧
      ¬ x.OpenAround 2 5 ∧ ¬ FindsBlocks x := by
  have hrun : (scriptRun stageThenWait (archiveBlocking 4)
      [.work, .run 1, .run 2, .signal "x" (.ok .null), .work, .run 2, .run 1]).map (fun x =>
        ((x.archive.node 4).toOption.map Node.kind, (x.archive.node 5).toOption.isSome,
          (enclosingBlocks x.archive.history x.archive.tree 5).toOption)) =
      some (some (.blockEnd 2), true, some [2]) := by decide +kernel
  obtain ⟨x, hx, hsees⟩ := Option.map_eq_some_iff.mp hrun
  obtain ⟨hkind, hstored, hblocks⟩ : _ ∧ _ ∧ _ := ⟨congrArg (·.1) hsees, congrArg (·.2.1) hsees,
    congrArg (·.2.2) hsees⟩
  have hends : x.EndsBlock 4 2 := endsBlock_of_kind hkind
  have hfound : enclosingBlocks x.archive.history x.archive.tree 5 = .ok [2] := eq_ok_of_toOption hblocks
  have hclosed : ¬ x.OpenAround 2 5 := fun hopen => absurd (hopen.unended 4 hends) (by decide)
  refine ⟨x, hx, hends, hfound, hclosed, fun hfinds => hclosed ?_⟩
  obtain ⟨node, hnode⟩ := Option.isSome_iff_exists.mp hstored
  obtain ⟨blocks, heq, _, hmem, _⟩ := hfinds.found 5 node (eq_ok_of_toOption hnode)
  rw [hfound] at heq
  cases heq
  exact (hmem 2).mp List.mem_cons_self

end Execution

end DurableFlow
