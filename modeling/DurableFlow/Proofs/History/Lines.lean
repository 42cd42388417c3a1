/-
Lines of execution in the history.

A node says what was done before it through its first parent, and the end of a block
leads past the block to what was before its start. So each node has a list of blocks
that are open behind it, innermost first: this list is the line on which the next node
would be appended. The list is defined by going back one node at a time, and it does not
change when the history grows, because nodes only point at older ones.

The search of the graph for the open blocks around a node comes to the same list. It never
meets a node twice, since numbers go down, and so it is done before its fuel is.
-/
import Mathlib.Data.List.Nodup
import DurableFlow.History.Graph
import DurableFlow.Proofs.Scheduler.Links

set_option autoImplicit false

namespace DurableFlow.History

/-! ## Nodes by number -/

/-- A node without its failure. Nothing else of a node changes once it is stored. -/
def Node.shape (node : Node) : Node := { node with error := none }

/-- Nodes of one shape differ in their errors only. -/
theorem Node.eq_of_shape {node other : Node} (h : other.shape = node.shape) :
    other = { node with error := other.error } := by
  cases other
  cases node
  simp only [Node.shape, Node.mk.injEq] at h ⊢
  simp only [h, and_self]

/-- The nodes of a history by number. -/
abbrev Nodes := Nat → Option Node

/-- A node that starts a block, of a step or of one of its branches. -/
def StartAt (nodes : Nodes) (body : Bool) (s : Nat) : Prop :=
  ∃ node, nodes s = some node ∧ node.kind = .blockStart body

/-- A node that ends the block of another one. -/
def EndOf (nodes : Nodes) (e s : Nat) : Prop :=
  ∃ node, nodes e = some node ∧ node.kind = .blockEnd s

/-- A node that starts a branch of a block. -/
def BranchOf (nodes : Nodes) (s n : Nat) : Prop :=
  ∃ node, nodes s = some node ∧ node.kind = .blockStart true ∧ node.parents = [n]

/-- A block that was started and not ended. -/
structure Open (nodes : Nodes) (s : Nat) : Prop where
  start : ∃ body, StartAt nodes body s
  unended : ∀ e, ¬ EndOf nodes e s

/-- **A well-formed graph**: each node is stored under its number, its parents are older, there is
one start of the flow, and no block is ended twice. -/
structure Graph (nodes : Nodes) (next start : Nat) : Prop where
  own : ∀ {n node}, nodes n = some node → node.id = n
  below : ∀ {n node}, nodes n = some node → n < next
  parents : ∀ {n node}, nodes n = some node → ∀ p ∈ node.parents, p < n ∧ ∃ parent, nodes p = some parent
  started : ∃ node, nodes start = some node ∧ node.parents = []
  flowStart : ∀ {n node}, nodes n = some node → (node.kind = .flowStart ↔ n = start)
  ends : ∀ {e s}, EndOf nodes e s → s < e ∧ ∃ body, StartAt nodes body s
  once : ∀ {e e' s}, EndOf nodes e s → EndOf nodes e' s → e = e'

/-- All nodes of one history are in another one. -/
def Extends (nodes nodes' : Nodes) : Prop :=
  ∀ n node, nodes n = some node → nodes' n = some node

theorem Extends.refl (nodes : Nodes) : Extends nodes nodes := fun _ _ h => h

theorem Extends.trans {nodes nodes' nodes'' : Nodes} (h : Extends nodes nodes')
    (h' : Extends nodes' nodes'') : Extends nodes nodes'' :=
  fun n node hn => h' n node (h n node hn)

theorem extends_changed {nodes : Nodes} {n : Nat} (hfree : nodes n = none) (node : Node) :
    Extends nodes (changed nodes n (some node)) := by
  intro m old hold
  exact changed_of_free hfree _ hold

namespace Extends

variable {nodes nodes' : Nodes} (h : Extends nodes nodes')

include h

theorem startAt {body : Bool} {s : Nat} (hs : StartAt nodes body s) : StartAt nodes' body s := by
  obtain ⟨node, hnode, hkind⟩ := hs
  exact ⟨node, h s node hnode, hkind⟩

theorem endOf {e s : Nat} (he : EndOf nodes e s) : EndOf nodes' e s := by
  obtain ⟨node, hnode, hkind⟩ := he
  exact ⟨node, h e node hnode, hkind⟩

theorem branchOf {s n : Nat} (hs : BranchOf nodes s n) : BranchOf nodes' s n := by
  obtain ⟨node, hnode, hkind⟩ := hs
  exact ⟨node, h s node hnode, hkind⟩

end Extends

theorem BranchOf.startAt {nodes : Nodes} {s n : Nat} (h : BranchOf nodes s n) :
    StartAt nodes true s := by
  obtain ⟨node, hnode, hkind, _⟩ := h
  exact ⟨node, hnode, hkind⟩

theorem BranchOf.unique {nodes : Nodes} {s m n : Nat} (h : BranchOf nodes s m)
    (h' : BranchOf nodes s n) : m = n := by
  obtain ⟨node, hnode, _, hparents⟩ := h
  obtain ⟨node', hnode', _, hparents'⟩ := h'
  rw [hnode] at hnode'
  cases hnode'
  rw [hparents] at hparents'
  exact (List.cons.inj hparents').1

theorem EndOf.unique {nodes : Nodes} {e s t : Nat} (h : EndOf nodes e s) (h' : EndOf nodes e t) :
    s = t := by
  obtain ⟨node, hnode, hkind⟩ := h
  obtain ⟨node', hnode', hkind'⟩ := h'
  rw [hnode] at hnode'
  cases hnode'
  rw [hkind] at hkind'
  exact NodeKind.blockEnd.inj hkind'

theorem StartAt.unique {nodes : Nodes} {s : Nat} {body body' : Bool} (h : StartAt nodes body s)
    (h' : StartAt nodes body' s) : body = body' := by
  obtain ⟨node, hnode, hkind⟩ := h
  obtain ⟨node', hnode', hkind'⟩ := h'
  rw [hnode] at hnode'
  cases hnode'
  rw [hkind] at hkind'
  exact NodeKind.blockStart.inj hkind'

namespace Graph

variable {nodes : Nodes} {next start : Nat}

theorem free (h : Graph nodes next start) : nodes next = none := by
  cases hnode : nodes next with
  | none => rfl
  | some node => exact absurd (h.below hnode) (Nat.lt_irrefl _)

theorem extends_append (h : Graph nodes next start) (node : Node) :
    Extends nodes (changed nodes next (some node)) :=
  extends_changed h.free node

/-- Nothing points at a number that was not given out. -/
theorem not_endOf (h : Graph nodes next start) (e : Nat) : ¬ EndOf nodes e next := by
  intro hend
  obtain ⟨_, body, node, hnode, _⟩ := h.ends hend
  exact absurd (h.below hnode) (Nat.lt_irrefl _)

/-- A branch is younger than the node of its step. -/
theorem lt_of_branchOf (h : Graph nodes next start) {s n : Nat} (hs : BranchOf nodes s n) :
    n < s ∧ s < next := by
  obtain ⟨node, hnode, _, hparents⟩ := hs
  have hmem : n ∈ node.parents := by
    rw [hparents]
    exact List.mem_cons_self
  exact ⟨(h.parents hnode n hmem).1, h.below hnode⟩

theorem not_branchOf (h : Graph nodes next start) (s : Nat) : ¬ BranchOf nodes s next :=
  fun hs => Nat.lt_asymm (h.lt_of_branchOf hs).1 (h.lt_of_branchOf hs).2

/-- **The graph stays well formed when a node is appended** behind nodes that are there; if it
ends a block, then one that was open. -/
theorem append (h : Graph nodes next start) {node : Node} (hid : node.id = next)
    (hparents : ∀ p ∈ node.parents, ∃ parent, nodes p = some parent)
    (hstart : node.kind ≠ .flowStart) (hend : ∀ s, node.kind = .blockEnd s → Open nodes s) :
    Graph (changed nodes next (some node)) (next + 1) start where
  own := by
    intro n old hold
    exact changed_elim hold hid h.own
  below := by
    intro n old hold
    exact changed_elim hold (Nat.lt_succ_self _) fun hold => Nat.lt_succ_of_lt (h.below hold)
  parents := by
    intro n old hold p hp
    rcases changed_eq_some.mp hold with ⟨rfl, heq⟩ | ⟨_, hold⟩
    · cases heq
      obtain ⟨parent, hparent⟩ := hparents p hp
      exact ⟨h.below hparent, parent, h.extends_append node p parent hparent⟩
    · obtain ⟨hlt, parent, hparent⟩ := h.parents hold p hp
      exact ⟨hlt, parent, h.extends_append node p parent hparent⟩
  started := by
    obtain ⟨first, hfirst, hparents⟩ := h.started
    exact ⟨first, h.extends_append node start first hfirst, hparents⟩
  flowStart := by
    intro n old hold
    rcases changed_eq_some.mp hold with ⟨rfl, heq⟩ | ⟨_, hold⟩
    · cases heq
      refine ⟨fun hkind => absurd hkind hstart, fun heq => ?_⟩
      obtain ⟨first, hfirst, _⟩ := h.started
      rw [← heq, h.free] at hfirst
      cases hfirst
    · exact h.flowStart hold
  ends := by
    rintro e s ⟨old, hold, hkind⟩
    rcases changed_eq_some.mp hold with ⟨rfl, heq⟩ | ⟨_, hold⟩
    · cases heq
      obtain ⟨body, hs⟩ := (hend s hkind).start
      have ⟨first, hfirst, _⟩ := hs
      exact ⟨h.below hfirst, body, (h.extends_append _).startAt hs⟩
    · obtain ⟨hlt, body, hs⟩ := h.ends ⟨old, hold, hkind⟩
      exact ⟨hlt, body, (h.extends_append _).startAt hs⟩
  once := by
    rintro e e' s ⟨old, hold, hkind⟩ ⟨old', hold', hkind'⟩
    -- if one of the two ends is the new node, the block was open, so there is no other
    rcases changed_eq_some.mp hold with ⟨he, heq⟩ | ⟨_, hbefore⟩ <;>
    rcases changed_eq_some.mp hold' with ⟨he', heq'⟩ | ⟨_, hbefore'⟩
    · exact he.trans he'.symm
    · cases heq
      exact absurd ⟨old', hbefore', hkind'⟩ ((hend s hkind).unended e')
    · cases heq'
      exact absurd ⟨old, hbefore, hkind⟩ ((hend s hkind').unended e)
    · exact h.once ⟨old, hbefore, hkind⟩ ⟨old', hbefore', hkind'⟩

/-! ### What a new node is to the others -/

variable {node : Node}

theorem endOf_append (h : Graph nodes next start) {e s : Nat} :
    EndOf (changed nodes next (some node)) e s ↔
      e = next ∧ node.kind = .blockEnd s ∨ EndOf nodes e s := by
  constructor
  · rintro ⟨old, hold, hkind⟩
    rcases changed_eq_some.mp hold with ⟨rfl, heq⟩ | ⟨_, hold⟩
    · cases heq
      exact .inl ⟨rfl, hkind⟩
    · exact .inr ⟨old, hold, hkind⟩
  · rintro (⟨rfl, hkind⟩ | hend)
    · exact ⟨node, changed_self _ _ _, hkind⟩
    · exact (h.extends_append node).endOf hend

theorem startAt_append (h : Graph nodes next start) {s : Nat} {body : Bool} :
    StartAt (changed nodes next (some node)) body s ↔
      s = next ∧ node.kind = .blockStart body ∨ StartAt nodes body s := by
  constructor
  · rintro ⟨old, hold, hkind⟩
    rcases changed_eq_some.mp hold with ⟨rfl, heq⟩ | ⟨_, hold⟩
    · cases heq
      exact .inl ⟨rfl, hkind⟩
    · exact .inr ⟨old, hold, hkind⟩
  · rintro (⟨rfl, hkind⟩ | hstart)
    · exact ⟨node, changed_self _ _ _, hkind⟩
    · exact (h.extends_append node).startAt hstart

theorem branchOf_append (h : Graph nodes next start) {s n : Nat} :
    BranchOf (changed nodes next (some node)) s n ↔
      s = next ∧ node.kind = .blockStart true ∧ node.parents = [n] ∨ BranchOf nodes s n := by
  constructor
  · rintro ⟨old, hold, hkind⟩
    rcases changed_eq_some.mp hold with ⟨rfl, heq⟩ | ⟨_, hold⟩
    · cases heq
      exact .inl ⟨rfl, hkind⟩
    · exact .inr ⟨old, hold, hkind⟩
  · rintro (⟨rfl, hkind⟩ | hbranch)
    · exact ⟨node, changed_self _ _ _, hkind⟩
    · exact (h.extends_append node).branchOf hbranch

/-- A new node opens a block if it starts one, and closes the one that it ends. -/
theorem open_append (h : Graph nodes next start) {s : Nat} :
    Open (changed nodes next (some node)) s ↔
      s = next ∧ (∃ body, node.kind = .blockStart body) ∨
        Open nodes s ∧ node.kind ≠ .blockEnd s := by
  constructor
  · rintro ⟨⟨body, hstart⟩, hends⟩
    rcases h.startAt_append.mp hstart with ⟨rfl, hkind⟩ | hold
    · exact .inl ⟨rfl, body, hkind⟩
    · refine .inr ⟨⟨⟨body, hold⟩, fun e he => ?_⟩, fun hkind => ?_⟩
      · exact hends e (h.endOf_append.mpr (.inr he))
      · exact hends next (h.endOf_append.mpr (.inl ⟨rfl, hkind⟩))
  · rintro (⟨rfl, body, hkind⟩ | ⟨⟨⟨body, hold⟩, hends⟩, hkind⟩)
    · refine ⟨⟨body, h.startAt_append.mpr (.inl ⟨rfl, hkind⟩)⟩, fun e he => ?_⟩
      rcases h.endOf_append.mp he with ⟨_, hend⟩ | hend
      · rw [hkind] at hend
        cases hend
      · exact h.not_endOf e hend
    · refine ⟨⟨body, h.startAt_append.mpr (.inr hold)⟩, fun e he => ?_⟩
      rcases h.endOf_append.mp he with ⟨_, hend⟩ | hend
      · exact hkind hend
      · exact hends e hend

/-- What started before is open if it is open behind a new node. -/
theorem open_of_append (h : Graph nodes next start) {body : Bool} {s : Nat}
    (hs : StartAt nodes body s) (hopen : Open (changed nodes next (some node)) s) : Open nodes s := by
  refine ((h.open_append.mp hopen).resolve_left fun hno => ?_).1
  obtain ⟨first, hfirst, _⟩ := hs
  exact ne_of_free h.free hfirst hno.1

/-- The ends of the branches of a step stay what they were, unless the new node ends one of them. -/
theorem branchEnd_append (h : Graph nodes next start) {m e : Nat}
    (hnode : ∀ s, node.kind = .blockEnd s → ¬ BranchOf nodes s m) :
    (∃ s, BranchOf (changed nodes next (some node)) s m ∧
      EndOf (changed nodes next (some node)) e s) ↔
      ∃ s, BranchOf nodes s m ∧ EndOf nodes e s := by
  constructor
  · rintro ⟨s, hs, he⟩
    rcases h.branchOf_append.mp hs with ⟨rfl, hkind, _⟩ | hold
    · -- a new branch has no end yet
      rcases h.endOf_append.mp he with ⟨_, hno⟩ | hno
      · rw [hkind] at hno
        cases hno
      · exact absurd hno (h.not_endOf e)
    · exact ⟨s, hold, (h.endOf_append.mp he).resolve_left fun hno => hnode s hno.2 hold⟩
  · rintro ⟨s, hs, he⟩
    exact ⟨s, (h.extends_append node).branchOf hs, (h.extends_append node).endOf he⟩

/-! ### The end of a block as a new node -/

section Ended

variable {b : Nat} (h : Graph nodes next start) (hkind : node.kind = .blockEnd b)

include h hkind

theorem endOf_ended {e s : Nat} :
    EndOf (changed nodes next (some node)) e s ↔ e = next ∧ s = b ∨ EndOf nodes e s := by
  rw [h.endOf_append, hkind]
  refine or_congr_left (and_congr_right fun _ => ⟨fun heq => ?_, fun heq => by rw [heq]⟩)
  exact (NodeKind.blockEnd.inj heq).symm

theorem branchOf_ended {s m : Nat} :
    BranchOf (changed nodes next (some node)) s m ↔ BranchOf nodes s m := by
  rw [h.branchOf_append, hkind]
  exact ⟨fun hs => hs.resolve_left fun hno => NodeKind.noConfusion hno.2.1, .inr⟩

theorem startAt_ended {s : Nat} {body : Bool} :
    StartAt (changed nodes next (some node)) body s ↔ StartAt nodes body s := by
  rw [h.startAt_append, hkind]
  exact ⟨fun hs => hs.resolve_left fun hno => NodeKind.noConfusion hno.2, .inr⟩

theorem open_ended {s : Nat} :
    Open (changed nodes next (some node)) s ↔ Open nodes s ∧ s ≠ b := by
  rw [h.open_append, hkind]
  constructor
  · rintro (⟨_, body, hno⟩ | ⟨hs, hne⟩)
    · cases hno
    · exact ⟨hs, fun heq => hne (by rw [heq])⟩
  · rintro ⟨hs, hne⟩
    exact .inr ⟨hs, fun heq => hne (NodeKind.blockEnd.inj heq).symm⟩

end Ended

end Graph

/-! ## The blocks open behind a node -/

/-- **The blocks open behind a node**, innermost first. -/
inductive After (nodes : Nodes) : Nat → List Nat → Prop
  | start {n : Nat} {node : Node} (hnode : nodes n = some node) (hkind : node.kind = .flowStart) :
    After nodes n []
  | atom {n p : Nat} {node : Node} {blocks : List Nat} (hnode : nodes n = some node)
    (hkind : node.kind = .atom) (hparent : node.parents.head? = some p)
    (h : After nodes p blocks) : After nodes n blocks
  | blockStart {n p : Nat} {node : Node} {body : Bool} {blocks : List Nat}
    (hnode : nodes n = some node) (hkind : node.kind = .blockStart body)
    (hparent : node.parents.head? = some p) (h : After nodes p blocks) :
    After nodes n (n :: blocks)
  | blockEnd {n s p : Nat} {node first : Node} {blocks : List Nat} (hnode : nodes n = some node)
    (hkind : node.kind = .blockEnd s) (hfirst : nodes s = some first)
    (hparent : first.parents.head? = some p) (h : After nodes p blocks) : After nodes n blocks

theorem After.mono {nodes nodes' : Nodes} (hext : Extends nodes nodes') {n : Nat}
    {blocks : List Nat} (h : After nodes n blocks) : After nodes' n blocks := by
  induction h with
  | start hnode hkind => exact .start (hext _ _ hnode) hkind
  | atom hnode hkind hparent _ ih => exact .atom (hext _ _ hnode) hkind hparent ih
  | blockStart hnode hkind hparent _ ih => exact .blockStart (hext _ _ hnode) hkind hparent ih
  | blockEnd hnode hkind hfirst hparent _ ih =>
    exact .blockEnd (hext _ _ hnode) hkind (hext _ _ hfirst) hparent ih

theorem After.stored {nodes : Nodes} {n : Nat} {blocks : List Nat} (h : After nodes n blocks) :
    ∃ node, nodes n = some node := by
  cases h with
  | start hnode _ => exact ⟨_, hnode⟩
  | atom hnode _ _ _ => exact ⟨_, hnode⟩
  | blockStart hnode _ _ _ => exact ⟨_, hnode⟩
  | blockEnd hnode _ _ _ _ => exact ⟨_, hnode⟩

/-- What stands behind a node, by its kind. -/
theorem After.inv {nodes : Nodes} {n : Nat} {node : Node} {blocks : List Nat} (h : After nodes n blocks)
    (hnode : nodes n = some node) :
    match node.kind with
    | .flowStart => blocks = []
    | .atom => ∃ p, node.parents.head? = some p ∧ After nodes p blocks
    | .blockStart _ => ∃ p before, node.parents.head? = some p ∧ After nodes p before ∧ blocks = n :: before
    | .blockEnd s => ∃ first p, nodes s = some first ∧ first.parents.head? = some p ∧ After nodes p blocks
    | .flowEnd _ => False := by
  cases h with
  | start hnode' hkind =>
    obtain rfl := Option.some.inj (hnode'.symm.trans hnode)
    rw [hkind]
  | atom hnode' hkind hparent hbefore =>
    obtain rfl := Option.some.inj (hnode'.symm.trans hnode)
    rw [hkind]
    exact ⟨_, hparent, hbefore⟩
  | blockStart hnode' hkind hparent hbefore =>
    obtain rfl := Option.some.inj (hnode'.symm.trans hnode)
    rw [hkind]
    exact ⟨_, _, hparent, hbefore, rfl⟩
  | blockEnd hnode' hkind hfirst hparent hbefore =>
    obtain rfl := Option.some.inj (hnode'.symm.trans hnode)
    rw [hkind]
    exact ⟨_, _, hfirst, hparent, hbefore⟩

/-- The blocks behind the start of a block are that block and those before it. -/
theorem After.of_blockStart {nodes : Nodes} {n : Nat} {node : Node} {body : Bool}
    {blocks : List Nat} (h : After nodes n blocks) (hnode : nodes n = some node)
    (hkind : node.kind = .blockStart body) :
    ∃ p before, node.parents.head? = some p ∧ After nodes p before ∧ blocks = n :: before := by
  have hinv := h.inv hnode
  rw [hkind] at hinv
  exact hinv

/-- The blocks behind a node are determined. -/
theorem After.unique {nodes : Nodes} {n : Nat} {blocks others : List Nat} (h : After nodes n blocks)
    (h' : After nodes n others) : blocks = others := by
  induction h generalizing others with
  | start hnode hkind =>
    have hinv := h'.inv hnode
    rw [hkind] at hinv
    exact hinv.symm
  | atom hnode hkind hparent _ ih =>
    have hinv := h'.inv hnode
    rw [hkind] at hinv
    obtain ⟨p, hp, hbefore⟩ := hinv
    obtain rfl := Option.some.inj (hparent.symm.trans hp)
    exact ih hbefore
  | blockStart hnode hkind hparent _ ih =>
    obtain ⟨p, before, hp, hbefore, rfl⟩ := h'.of_blockStart hnode hkind
    obtain rfl := Option.some.inj (hparent.symm.trans hp)
    rw [ih hbefore]
  | blockEnd hnode hkind hfirst hparent _ ih =>
    have hinv := h'.inv hnode
    rw [hkind] at hinv
    obtain ⟨first, p, hfirst', hp, hbefore⟩ := hinv
    obtain rfl := Option.some.inj (hfirst.symm.trans hfirst')
    obtain rfl := Option.some.inj (hparent.symm.trans hp)
    exact ih hbefore

/-- **Behind a block that is open are those that were open when it was started.** -/
theorem After.within {nodes : Nodes} {n : Nat} {blocks : List Nat} (h : After nodes n blocks)
    {inner outer : List Nat} {s : Nat} (heq : blocks = inner ++ s :: outer) :
    After nodes s (s :: outer) := by
  induction h generalizing inner with
  | start _ _ => simp at heq
  | atom _ _ _ _ ih => exact ih heq
  | blockStart hnode hkind hparent hbefore ih =>
    cases inner with
    | nil =>
      cases heq
      exact .blockStart hnode hkind hparent hbefore
    | cons _ inner => exact ih (List.cons.inj heq).2
  | blockEnd _ _ _ _ _ ih => exact ih heq

/-- Behind the innermost block are those that were open when it was started. -/
theorem After.innermost {nodes : Nodes} {n s : Nat} {outer : List Nat} (h : After nodes n (s :: outer)) :
    After nodes s (s :: outer) :=
  h.within (List.nil_append _).symm

/-- **A block that ends leaves the line on which it was started.** -/
theorem After.ended {nodes : Nodes} {e s : Nat} {body : Bool} {blocks : List Nat}
    (h : After nodes s (s :: blocks)) (hs : StartAt nodes body s) (he : EndOf nodes e s) :
    After nodes e blocks := by
  obtain ⟨first, hfirst, hkind⟩ := hs
  obtain ⟨p, before, hparent, hbefore, heq⟩ := h.of_blockStart hfirst hkind
  obtain ⟨node, hnode, hend⟩ := he
  rw [(List.cons.inj heq).2]
  exact .blockEnd hnode hend hfirst hparent hbefore

/-- Blocks behind a node are not younger than the node. -/
theorem After.le {nodes : Nodes} {next start : Nat} (hgraph : Graph nodes next start) {n : Nat}
    {blocks : List Nat} (h : After nodes n blocks) : ∀ s ∈ blocks, s ≤ n := by
  induction h with
  | start _ _ => exact fun s hs => absurd hs List.not_mem_nil
  | atom hnode _ hparent _ ih =>
    intro s hs
    have hlt := (hgraph.parents hnode _ (List.mem_of_mem_head? hparent)).1
    exact Nat.le_trans (ih s hs) (Nat.le_of_lt hlt)
  | blockStart hnode _ hparent _ ih =>
    intro s hs
    have hlt := (hgraph.parents hnode _ (List.mem_of_mem_head? hparent)).1
    rcases List.mem_cons.mp hs with rfl | hs
    · exact Nat.le_refl _
    · exact Nat.le_trans (ih s hs) (Nat.le_of_lt hlt)
  | blockEnd hnode hkind hfirst hparent _ ih =>
    intro s hs
    have hlt := (hgraph.parents hfirst _ (List.mem_of_mem_head? hparent)).1
    have hend := (hgraph.ends ⟨_, hnode, hkind⟩).1
    have hle := ih s hs
    omega

/-- Of the blocks behind a node, the inner ones are younger. -/
theorem After.descends {nodes : Nodes} {next start : Nat} (hgraph : Graph nodes next start) {n : Nat}
    {blocks : List Nat} (h : After nodes n blocks) : blocks.Pairwise (· > ·) := by
  induction h with
  | start _ _ => exact .nil
  | atom _ _ _ _ ih => exact ih
  | blockStart hnode _ hparent hbefore ih =>
    refine .cons (fun s hs => ?_) ih
    have hlt := (hgraph.parents hnode _ (List.mem_of_mem_head? hparent)).1
    exact Nat.lt_of_le_of_lt (hbefore.le hgraph s hs) hlt
  | blockEnd _ _ _ _ _ ih => exact ih

/-- Blocks behind a node were started. -/
theorem After.startAt {nodes : Nodes} {n : Nat} {blocks : List Nat} (h : After nodes n blocks) :
    ∀ s ∈ blocks, ∃ body, StartAt nodes body s := by
  induction h with
  | start _ _ => exact fun s hs => absurd hs List.not_mem_nil
  | atom _ _ _ _ ih => exact ih
  | blockStart hnode hkind _ _ ih =>
    intro s hs
    rcases List.mem_cons.mp hs with rfl | hs
    · exact ⟨_, _, hnode, hkind⟩
    · exact ih s hs
  | blockEnd _ _ _ _ _ ih => exact ih

/-! ## The blocks around a node when it was appended -/

/-- **The nodes that a node goes on from on its line.** The end of a block goes on from all that it
joins; the end of the flow stays on one head, and goes on from the tip of that one. -/
def Node.lineParents (node : Node) : List Nat :=
  match node.kind with
  | .flowEnd _ => node.parents.take 1
  | _ => node.parents

theorem Node.lineParents_subset {node : Node} {p : Nat} (h : p ∈ node.lineParents) : p ∈ node.parents := by
  unfold lineParents at h
  split at h
  · exact List.mem_of_mem_take h
  · exact h

theorem Node.lineParents_of_ne {node : Node} (h : ∀ s, node.kind ≠ .flowEnd s) :
    node.lineParents = node.parents := by
  unfold lineParents
  split
  · next s hkind => exact absurd hkind (h s)
  · rfl

/-- **The blocks that were open when a node was appended**, innermost first: those behind each of the
nodes that it goes on from. The end of a block closes the innermost one. -/
structure Behind (nodes : Nodes) (n : Nat) (node : Node) (blocks : List Nat) : Prop where
  onward : node.lineParents ≠ []
  after : ∀ p ∈ node.lineParents, After nodes p blocks
  unended : ∀ s ∈ blocks, ∀ e, EndOf nodes e s → n ≤ e
  innermost : ∀ s, node.kind = .blockEnd s → ∃ outer, blocks = s :: outer

/-- **Every node was appended on a line**, except for the start of the flow. -/
def Lined (nodes : Nodes) : Prop :=
  ∀ n node, nodes n = some node → node.kind ≠ .flowStart → ∃ blocks, Behind nodes n node blocks

/-- **Nodes stay on their lines when another one is appended** where all that is behind it is open. -/
theorem Lined.append {nodes : Nodes} {next start : Nat} (h : Lined nodes) (hgraph : Graph nodes next start)
    {node : Node} {blocks : List Nat} (hsome : node.lineParents ≠ [])
    (hafter : ∀ p ∈ node.lineParents, After nodes p blocks) (hopen : ∀ s ∈ blocks, Open nodes s)
    (hinnermost : ∀ s, node.kind = .blockEnd s → ∃ outer, blocks = s :: outer) :
    Lined (changed nodes next (some node)) := by
  have hext := hgraph.extends_append node
  intro n old hold hkind
  rcases changed_eq_some.mp hold with ⟨rfl, heq⟩ | ⟨_, hbefore⟩
  · cases heq
    refine ⟨blocks, hsome, fun p hp => (hafter p hp).mono hext, fun s hs e he => ?_, hinnermost⟩
    rcases hgraph.endOf_append.mp he with ⟨rfl, _⟩ | he
    · exact Nat.le_refl _
    · exact absurd he ((hopen s hs).unended e)
  · obtain ⟨around, hbehind⟩ := h n old hbefore hkind
    refine ⟨around, hbehind.onward, fun p hp => (hbehind.after p hp).mono hext, fun s hs e he => ?_,
      hbehind.innermost⟩
    rcases hgraph.endOf_append.mp he with ⟨rfl, _⟩ | he
    · exact Nat.le_of_lt (hgraph.below hbefore)
    · exact hbehind.unended s hs e he

/-- **Nodes stay on their lines when another one is appended behind the tip of a line.** -/
theorem Lined.append_tip {nodes : Nodes} {next start : Nat} (h : Lined nodes) (hgraph : Graph nodes next start)
    {node : Node} {p : Nat} {blocks : List Nat} (hline : node.lineParents = [p])
    (hafter : After nodes p blocks) (hopen : ∀ s ∈ blocks, Open nodes s)
    (hinnermost : ∀ s, node.kind = .blockEnd s → ∃ outer, blocks = s :: outer) :
    Lined (changed nodes next (some node)) := by
  refine h.append hgraph (by rw [hline]; exact List.cons_ne_nil _ _) (fun q hq => ?_) hopen hinnermost
  rw [hline, List.mem_singleton] at hq
  rw [hq]
  exact hafter

/-- Behind the start of a branch, and behind its end, is what is behind the step's own node. -/
theorem Lined.after_endOf {nodes : Nodes} (h : Lined nodes) {e s n : Nat} {blocks : List Nat}
    (hbranch : BranchOf nodes s n) (hend : EndOf nodes e s) (hafter : After nodes n blocks) :
    After nodes e blocks := by
  obtain ⟨node, hnode, hkind⟩ := hend
  obtain ⟨around, hbehind⟩ := h e node hnode (by rw [hkind]; exact NodeKind.noConfusion)
  obtain ⟨outer, rfl⟩ := hbehind.innermost s hkind
  obtain ⟨p, hp⟩ := List.exists_mem_of_ne_nil _ hbehind.onward
  -- the block that the node ends is the innermost one behind it
  have hstart : After nodes s (s :: outer) := (hbehind.after p hp).innermost
  obtain ⟨first, hfirst, hfirstKind, hparents⟩ := hbranch
  obtain ⟨q, before, hq, hbefore, heq⟩ := hstart.of_blockStart hfirst hfirstKind
  cases heq
  rw [hparents] at hq
  cases hq
  rw [hafter.unique hbefore]
  exact .blockEnd hnode hkind hfirst (by rw [hparents]; rfl) hbefore

/-! ## Finding the open blocks -/

/-- A way of reading that finds all nodes, with the failures that they have by now. -/
def Reads (lookup : Nat → EngineResult Node) (nodes : Nodes) : Prop :=
  ∀ n a, nodes n = some a → ∃ node, lookup n = .ok node ∧ node.shape = a

/-- How many of some numbers are at most a given one. -/
def countUpTo (ids : List Nat) (n : Nat) : Nat := (ids.filter (· ≤ n)).length

/-- Below a number that is there, there are fewer. -/
theorem countUpTo_lt {ids : List Nat} {m n : Nat} (hn : n ∈ ids) (hlt : m < n) :
    countUpTo ids m < countUpTo ids n := by
  induction ids with
  | nil => cases hn
  | cons k rest ih =>
    have hle : countUpTo rest m ≤ countUpTo rest n := by
      refine List.Sublist.length_le (List.monotone_filter_right rest fun k hk => ?_)
      simp only [decide_eq_true_eq] at hk ⊢
      omega
    unfold countUpTo at ih hle ⊢
    rw [List.filter_cons, List.filter_cons]
    rcases List.mem_cons.mp hn with rfl | hmem
    · rw [if_neg (by simpa using hlt), if_pos (by simp), List.length_cons]
      omega
    · have hrest := ih hmem
      by_cases hk : k ≤ m
      · rw [if_pos (by simpa using hk), if_pos (by simp; omega), List.length_cons,
          List.length_cons]
        omega
      · rw [if_neg (by simpa using hk)]
        split
        · rw [List.length_cons]
          omega
        · exact hrest

/-- One round of the search. -/
theorem walk_succ {lookup : Nat → EngineResult Node} {fuel p : Nat} {seen : List Nat}
    {node next : Node} (hprevious : previous? lookup node = .ok (some p)) (hseen : p ∉ seen)
    (hnext : lookup p = .ok next) :
    walk lookup (fuel + 1) seen node =
      match next.kind with
      | .flowStart => .ok []
      | .blockStart _ => (walk lookup fuel (p :: seen) next).map (next.id :: ·)
      | _ => walk lookup fuel (p :: seen) next := by
  have hcontains : ¬ seen.contains p = true := by
    simpa using hseen
  rw [walk, hprevious]
  dsimp only
  rw [if_neg hcontains]
  exact hnext ▸ rfl

section Search

variable {lookup : Nat → EngineResult Node} {nodes : Nodes} {next start : Nat} {ids : List Nat}
  (hreads : Reads lookup nodes) (hgraph : Graph nodes next start)
  (hids : ∀ n a, nodes n = some a → n ∈ ids)

include hreads hgraph hids

/-- **The search from a node on finds the blocks behind the node before it.** -/
theorem walk_eq {p : Nat} {blocks : List Nat} (h : After nodes p blocks) {fuel : Nat}
    {seen : List Nat} {node : Node} (hprevious : previous? lookup node = .ok (some p))
    (hseen : ∀ s ∈ seen, p < s) (hfuel : countUpTo ids p < fuel) :
    walk lookup fuel seen node = .ok blocks := by
  -- the way goes down in the numbers: what was seen lies above, and the nodes below get fewer
  induction h generalizing fuel seen node with
  | @start n a hnode hkind =>
    obtain ⟨found, hfound, rfl⟩ := hreads _ _ hnode
    have hkind' : found.kind = .flowStart := hkind
    obtain ⟨fuel, rfl⟩ : ∃ f, fuel = f + 1 := ⟨fuel - 1, by omega⟩
    rw [walk_succ hprevious (fun hmem => Nat.lt_irrefl _ (hseen n hmem)) hfound, hkind']
  | @atom n q a _ hnode hkind hparent _ ih =>
    obtain ⟨found, hfound, rfl⟩ := hreads _ _ hnode
    have hkind' : found.kind = .atom := hkind
    have hparent' : found.parents.head? = some q := hparent
    have hlt := (hgraph.parents hnode q (List.mem_of_mem_head? hparent)).1
    have hcount := countUpTo_lt (hids _ _ hnode) hlt
    obtain ⟨fuel, rfl⟩ : ∃ f, fuel = f + 1 := ⟨fuel - 1, by omega⟩
    rw [walk_succ hprevious (fun hmem => Nat.lt_irrefl _ (hseen n hmem)) hfound, hkind']
    refine ih ?_ ?_ (by omega)
    · rw [previous?, hkind', hparent']
    · exact List.forall_mem_cons.mpr ⟨hlt, fun s hs => Nat.lt_trans hlt (hseen s hs)⟩
  | @blockStart n q a body before hnode hkind hparent _ ih =>
    obtain ⟨found, hfound, rfl⟩ := hreads _ _ hnode
    have hkind' : found.kind = .blockStart body := hkind
    have hparent' : found.parents.head? = some q := hparent
    have hid : found.shape.id = n := hgraph.own hnode
    have hlt := (hgraph.parents hnode q (List.mem_of_mem_head? hparent)).1
    have hcount := countUpTo_lt (hids _ _ hnode) hlt
    obtain ⟨fuel, rfl⟩ : ∃ f, fuel = f + 1 := ⟨fuel - 1, by omega⟩
    have hrest : walk lookup fuel (n :: seen) found = .ok before := by
      refine ih ?_ ?_ (by omega)
      · rw [previous?, hkind', hparent']
      · exact List.forall_mem_cons.mpr ⟨hlt, fun s hs => Nat.lt_trans hlt (hseen s hs)⟩
    rw [walk_succ hprevious (fun hmem => Nat.lt_irrefl _ (hseen n hmem)) hfound, hkind', hrest]
    exact congrArg (fun m => Except.ok (m :: before)) hid
  | @blockEnd n s q a first before hnode hkind hfirst hparent _ ih =>
    obtain ⟨found, hfound, rfl⟩ := hreads _ _ hnode
    obtain ⟨opened, hopened, rfl⟩ := hreads _ _ hfirst
    have hkind' : found.kind = .blockEnd s := hkind
    have hparent' : opened.parents.head? = some q := hparent
    have hend := (hgraph.ends ⟨_, hnode, hkind⟩).1
    have hbefore := (hgraph.parents hfirst q (List.mem_of_mem_head? hparent)).1
    have hlt : q < n := Nat.lt_trans hbefore hend
    have hcount := countUpTo_lt (hids _ _ hnode) hlt
    obtain ⟨fuel, rfl⟩ : ∃ f, fuel = f + 1 := ⟨fuel - 1, by omega⟩
    rw [walk_succ hprevious (fun hmem => Nat.lt_irrefl _ (hseen n hmem)) hfound, hkind']
    refine ih ?_ ?_ (by omega)
    · rw [previous?, hkind']
      show (lookup s).map (fun node => node.parents.head?) = _
      rw [hopened]
      exact congrArg Except.ok hparent'
    · exact List.forall_mem_cons.mpr ⟨hlt, fun s hs => Nat.lt_trans hlt (hseen s hs)⟩

end Search

/-- **The blocks around a node are found**: those behind it, without the one that it starts. -/
theorem enclosingBlocks_eq {s : Storage} {tree : FileTree} {nodes : Nodes} {next start : Nat}
    {ids : List Nat} (hreads : Reads (s.node tree) nodes) (hgraph : Graph nodes next start)
    (hids : ∀ n a, nodes n = some a → n ∈ ids) (hlength : ids.length ≤ s.sizeBound tree)
    {n : Nat} {node : Node} {blocks : List Nat} (hnode : nodes n = some node)
    (h : After nodes n (if node.isBlockStart then n :: blocks else blocks)) :
    enclosingBlocks s tree n = .ok blocks := by
  obtain ⟨found, hfound, rfl⟩ := hreads _ _ hnode
  have hfuel : ∀ p, countUpTo ids p < s.sizeBound tree + 1 := by
    intro p
    have hle : countUpTo ids p ≤ ids.length := List.length_filter_le _ _
    omega
  rw [enclosingBlocks, hfound]
  generalize hseen : (if found.shape.isBlockStart = true then n :: blocks else blocks) = around at h
  cases h with
  | start hnode' hkind =>
    -- the start of the flow has no parents
    rw [hnode] at hnode'
    cases hnode'
    have hkind' : found.kind = .flowStart := hkind
    have hblocks : blocks = [] := by
      simpa [Node.isBlockStart, Node.shape, hkind'] using hseen
    obtain ⟨first, hfirst, hparents⟩ := hgraph.started
    rw [← (hgraph.flowStart hnode).mp hkind, hnode] at hfirst
    cases hfirst
    have hparents' : found.parents = [] := hparents
    have hprevious : previous? (s.node tree) found = .ok none := by
      rw [previous?, hkind', hparents']
      rfl
    rw [hblocks]
    simp only [walk, hprevious]
  | atom hnode' hkind hparent hbefore =>
    rw [hnode] at hnode'
    cases hnode'
    have hkind' : found.kind = .atom := hkind
    have hblocks : blocks = around := by
      simpa [Node.isBlockStart, Node.shape, hkind'] using hseen
    rw [hblocks]
    refine walk_eq hreads hgraph hids hbefore ?_ (fun t ht => absurd ht List.not_mem_nil) (hfuel _)
    rw [previous?, hkind']
    exact congrArg Except.ok hparent
  | blockStart hnode' hkind hparent hbefore =>
    rw [hnode] at hnode'
    cases hnode'
    have hkind' : found.kind = .blockStart _ := hkind
    rw [Node.isBlockStart, show found.shape.kind = _ from hkind, if_pos rfl] at hseen
    rw [(List.cons.inj hseen).2]
    refine walk_eq hreads hgraph hids hbefore ?_ (fun t ht => absurd ht List.not_mem_nil) (hfuel _)
    rw [previous?, hkind']
    exact congrArg Except.ok hparent
  | blockEnd hnode' hkind hfirst hparent hbefore =>
    rw [hnode] at hnode'
    cases hnode'
    obtain ⟨opened, hopened, rfl⟩ := hreads _ _ hfirst
    have hkind' : found.kind = .blockEnd _ := hkind
    have hblocks : blocks = around := by
      simpa [Node.isBlockStart, Node.shape, hkind'] using hseen
    rw [hblocks]
    refine walk_eq hreads hgraph hids hbefore ?_ (fun t ht => absurd ht List.not_mem_nil) (hfuel _)
    rw [previous?, hkind']
    show (s.node tree _).map (fun node => node.parents.head?) = _
    rw [hopened]
    exact congrArg Except.ok hparent

end DurableFlow.History
