/-
Nested threads, and the blocks of the history around them.

Which threads are inside a block is a matter of the tree of threads and steps: those that run a body
of the step whose block it is, those on the branch that the block belongs to, and those that run a
body of a step that such a thread has called. When a scope is stopped nobody looks at this tree. The
history is gone back from the node of a step, or from the tip of a head, and what is found are the
blocks that are open there.

Both come to the same. A step lies behind the blocks that its caller is nested in, and so does the
tip of a head on which a thread goes on. For a thread that waits this is not so: the tip of its head
may have been moved on by the bodies of the step that it waits for.
-/
import DurableFlow.Proofs.History.Runs

set_option autoImplicit false

namespace DurableFlow

open History

/-! ## The tree of threads and steps -/

namespace LiveProgram

/-- **A thread is nested in a block**: it runs a body of the step at its start, or it is on the branch
that its start belongs to, or it runs a body of a step whose caller is nested in it. -/
inductive Nested (p : LiveProgram) (s : Nat) : Nat → Prop
  | body {t : Nat} {thread : Thread} (hthread : Table.find? t p.threads = some thread)
    (hruns : thread.RunsFor s) : Nested p s t
  | branch {t n index : Nat} {branch : Branch} {thread : Thread}
    (hthread : Table.find? t p.threads = some thread)
    (hruns : .body n index (some branch) ∈ thread.completions) (hstart : branch.start = s) : Nested p s t
  | inner {t n : Nat} {thread : Thread} {step : LiveStep} (hthread : Table.find? t p.threads = some thread)
    (hruns : thread.RunsFor n) (hstep : Table.find? n p.steps = some step) (h : Nested p s step.thread) :
    Nested p s t

variable {p : LiveProgram} {n t : Nat}

theorem posts_of_find? {thread : Thread} (h : Table.find? t p.threads = some thread) :
    p.posts none t = some thread.post :=
  congrArg (Option.map Thread.post) h

/-- A step that threads are nested in has a body that is running. -/
theorem Nested.child (h : p.Nested n t)
    (hplain : ∀ u thread m index branch, Table.find? u p.threads = some thread →
      .body m index (some branch) ∈ thread.completions → branch.start ≠ n) :
    ∃ u thread, Table.find? u p.threads = some thread ∧ thread.RunsFor n := by
  induction h with
  | body hthread hruns => exact ⟨_, _, hthread, hruns⟩
  | branch hthread hruns hstart => exact absurd hstart (hplain _ _ _ _ _ hthread hruns)
  | inner _ _ _ _ ih => exact ih

end LiveProgram

/-! ## Places in the tree -/

namespace History.Located

variable {p : LiveProgram} {base t head s : Nat} {blocks : List Nat}

theorem nested (h : Located (p.posts none) p.seats base t head blocks) (hs : s ∈ blocks) :
    p.Nested s t := by
  induction h with
  | root _ _ => exact absurd hs List.not_mem_nil
  | body hpost hbody hseat _ ih =>
    obtain ⟨thread, hthread, rfl⟩ := Option.map_eq_some_iff.mp hpost
    obtain ⟨step, hstep, rfl⟩ := Option.map_eq_some_iff.mp hseat
    have hruns := Thread.post_runsFor ⟨_, _, hbody⟩
    rcases List.mem_cons.mp hs with rfl | hs
    · exact .body hthread hruns
    · exact .inner hthread hruns hstep (ih hs)
  | @branch _ n index _ branch _ _ _ hpost hbody hseat _ ih =>
    obtain ⟨thread, hthread, rfl⟩ := Option.map_eq_some_iff.mp hpost
    obtain ⟨step, hstep, rfl⟩ := Option.map_eq_some_iff.mp hseat
    have hruns := Thread.post_runsFor ⟨_, _, hbody⟩
    rcases List.mem_cons.mp hs with hs | hs
    · have hmem : .body n index (some branch) ∈ thread.post.completions := by
        rw [hbody]
        exact List.mem_singleton_self _
      exact .branch hthread hmem hs.symm
    · rcases List.mem_cons.mp hs with rfl | hs
      · exact .body hthread hruns
      · exact .inner hthread hruns hstep (ih hs)

/-- **The blocks around a place** are those that the thread is nested in. -/
theorem mem_iff (h : Located (p.posts none) p.seats base t head blocks) :
    s ∈ blocks ↔ p.Nested s t := by
  refine ⟨h.nested, fun hnested => ?_⟩
  induction hnested generalizing head blocks with
  | body hthread hruns =>
    obtain ⟨index, branch, hmem⟩ := hruns
    obtain ⟨_, _, _, _, _, _, rfl⟩ := h.around (LiveProgram.posts_of_find? hthread) hmem
    simp
  | branch hthread hmem hstart =>
    obtain ⟨_, _, _, _, _, _, rfl⟩ := h.around (LiveProgram.posts_of_find? hthread) hmem
    simp [hstart]
  | inner hthread hruns hstep _ ih =>
    obtain ⟨index, branch, hmem⟩ := hruns
    obtain ⟨seat, _, outer, hseat, hcaller, _, rfl⟩ := h.around (LiveProgram.posts_of_find? hthread) hmem
    obtain ⟨found, hfound, rfl⟩ := Option.map_eq_some_iff.mp hseat
    rw [LiveProgram.stepAt, hstep] at hfound
    cases hfound
    have houter := ih hcaller
    simp [houter]

end History.Located

/-! ## What the history tells -/

namespace Execution.Going

variable {x : Execution} {origin : Origin} {n t : Nat} {step : LiveStep} {thread : Thread}

/-- **The blocks that are found around a node** are those behind it, without the one that it starts. -/
theorem blocks_found (h : Going x origin none []) {node : Node} {blocks : List Nat}
    (hnode : x.archive.shapes n = some node)
    (hafter : After x.archive.shapes n (if node.isBlockStart then n :: blocks else blocks)) :
    enclosingBlocks x.archive.history x.archive.tree n = .ok blocks := by
  obtain ⟨ids, hlength, hids⟩ := h.sane.ids
  exact enclosingBlocks_eq x.archive.reads_shapes h.orderly.graph hids hlength hnode hafter

/-- A live step is at a node that starts a block if it has one. -/
theorem node_of_step (h : Going x origin none []) (hstep : Table.find? n x.program.steps = some step) :
    ∃ node, x.archive.shapes n = some node ∧ node.isBlockStart = step.isBlock := by
  have hseat : (x.scene origin.head none).seats n = some step.seat := LiveProgram.seats_of_stepAt hstep
  cases hblock : step.isBlock with
  | true =>
    obtain ⟨_, node, hnode, hkind⟩ := h.orderly.block hseat hblock
    exact ⟨node, hnode, by rw [Node.isBlockStart, hkind]⟩
  | false =>
    obtain ⟨⟨node, hnode, hkind⟩, _⟩ := h.orderly.atom hseat hblock
    exact ⟨node, hnode, by rw [Node.isBlockStart, hkind]⟩

/-- A branch starts at a node of its own. -/
theorem branch_apart (h : Going x origin none []) (hstep : Table.find? n x.program.steps = some step)
    (hthread : Table.find? t x.program.threads = some thread) {m index : Nat} {branch : Branch}
    (hbody : thread.completions = [.body m index (some branch)]) : branch.start ≠ n := by
  rintro rfl
  have hbranch := (h.orderly.branch (LiveProgram.posts_of_find? hthread) hbody).2.1.startAt
  have hseat : (x.scene origin.head none).seats branch.start = some step.seat :=
    LiveProgram.seats_of_stepAt hstep
  cases hblock : step.isBlock with
  | true =>
    have hstart := (h.orderly.block hseat hblock).2
    cases hstart.unique hbranch
  | false =>
    obtain ⟨⟨node, hnode, hatom⟩, _⟩ := h.orderly.atom hseat hblock
    obtain ⟨first, hfirst, hkind⟩ := hbranch
    rw [hnode] at hfirst
    cases hfirst
    rw [hatom] at hkind
    cases hkind

/-- **Around a live step the history has the blocks that its caller is nested in.** -/
theorem mem_blocksAround (h : Going x origin none []) (hstep : Table.find? n x.program.steps = some step)
    (s : Nat) : s ∈ x.blocksAround n ↔ x.program.Nested s step.thread := by
  obtain ⟨node, hnode, hkind⟩ := h.node_of_step hstep
  obtain ⟨blocks, hlocated, hafter⟩ := h.orderly.placed (LiveProgram.seats_of_stepAt hstep)
  have hfound : enclosingBlocks x.archive.history x.archive.tree n = .ok blocks := by
    refine h.blocks_found hnode ?_
    rw [hkind]
    exact hafter
  unfold blocksAround
  rw [hfound]
  exact hlocated.mem_iff

/-- A step is younger than the blocks that its caller is nested in. -/
theorem lt_of_nested (h : Going x origin none []) (hstep : Table.find? n x.program.steps = some step)
    {s : Nat} (hs : x.program.Nested s step.thread) : s < n := by
  obtain ⟨blocks, hlocated, hafter⟩ := h.orderly.placed (LiveProgram.seats_of_stepAt hstep)
  have hmem := hlocated.mem_iff.mpr hs
  have hseat : (x.scene origin.head none).seats n = some step.seat := LiveProgram.seats_of_stepAt hstep
  -- the blocks around the caller are behind the node of the step
  cases hblock : step.isBlock with
  | true =>
    obtain ⟨_, node, hnode, hkind⟩ := h.orderly.block hseat hblock
    rw [show step.seat.isBlock = true from hblock, if_pos rfl] at hafter
    obtain ⟨parent, before, hparent, hbefore, heq⟩ := hafter.of_blockStart hnode hkind
    cases heq
    have hle := hbefore.le h.orderly.graph s hmem
    have hlt := (h.orderly.graph.parents hnode parent (List.mem_of_mem_head? hparent)).1
    omega
  | false =>
    obtain ⟨⟨node, hnode, hkind⟩, _⟩ := h.orderly.atom hseat hblock
    rw [show step.seat.isBlock = false from hblock, if_neg Bool.false_ne_true] at hafter
    have hle := hafter.le h.orderly.graph s hmem
    -- the node of the step starts no block
    obtain ⟨body, first, hfirst, hstart⟩ := hafter.startAt s hmem
    have hne : s ≠ n := by
      rintro rfl
      rw [hnode] at hfirst
      cases hfirst
      rw [hkind] at hstart
      cases hstart
    omega

/-- **The tip of the head of a thread that goes on** lies inside the blocks that the thread is nested
in. -/
theorem isThreadInScope_iff (h : Going x origin none []) (hthread : Table.find? t x.program.threads = some thread)
    (hidle : thread.step = none) {s : Nat} (hs : x.StartsBlock s) :
    x.isThreadInScope (some s) thread = true ↔ x.program.Nested s t := by
  obtain ⟨blocks, hlocated, htip⟩ := h.orderly.located (LiveProgram.posts_of_find? hthread)
  obtain ⟨tip, hhead, hafter⟩ := htip hidle
  rw [← hlocated.mem_iff]
  have hfound : x.headTip thread.head = some tip := hhead
  obtain ⟨node, hnode⟩ := hafter.stored
  unfold isThreadInScope isWithin
  simp only [hfound]
  by_cases heq : tip = s
  · -- the head is at the start of the block
    obtain ⟨body, first, hfirst, hkind⟩ := startsBlock_iff.mp hs
    rw [← heq] at hfirst
    obtain ⟨_, before, _, _, rfl⟩ := hafter.of_blockStart hfirst hkind
    simp [heq]
  · rw [if_neg heq]
    have hsearch : ∀ {inner}, After x.archive.shapes tip (if node.isBlockStart then tip :: inner else inner) →
        enclosingBlocks x.archive.history x.archive.tree tip = .ok inner := h.blocks_found hnode
    cases hkind : node.isBlockStart with
    | true =>
      obtain ⟨body, hstart⟩ : ∃ body, node.kind = .blockStart body := by
        unfold Node.isBlockStart at hkind
        split at hkind
        · exact ⟨_, by assumption⟩
        · cases hkind
      obtain ⟨_, before, _, _, rfl⟩ := hafter.of_blockStart hnode hstart
      rw [hkind] at hsearch
      simp [hsearch hafter, Except.map, Ne.symm heq]
    | false =>
      rw [hkind] at hsearch
      simp [hsearch hafter, Except.map]

end Execution.Going

end DurableFlow
