/-
Writing to a history without faults.

Where nothing is refused, no operation on the history fails that finds its head and its
nodes: a node is appended, a branch is opened, a block is closed, and it is said which node
is new and what the record knows afterwards. What the history holds besides the new node is
as before, up to the failures that are noted in nodes.
-/
import DurableFlow.Execution.Bodies
import DurableFlow.Proofs.History.Scene

set_option autoImplicit false

namespace DurableFlow

open History

namespace Execution

theorem requireHead_eq {x : Execution} {head tip : Nat} (h : x.headTip head = some tip) :
    requireHead head x = (.ok tip, x) := by
  unfold requireHead
  rw [h]

theorem requireRunning_eq {x : Execution} (h : x.record.done = false) :
    requireRunning x = (.ok (), x) := by
  unfold requireRunning
  simp only [h, Bool.false_eq_true, reduceIte]

/-- What is done on the archive. -/
theorem onArchive_eq {α : Type} {act : Attempt Archive α} {x : Execution} {result : EngineResult α}
    {archive : Archive} (h : act x.archive = (result, archive)) :
    onArchive act x = (result, { x with archive }) := by
  unfold onArchive Attempt.onPart
  rw [h]

/-- **A node is stored.** -/
theorem storeNode_eq {x : Execution} (h : x.archive.Sane) (node : Node) :
    ∃ archive, storeNode node x = (.ok (), { x with archive }) ∧ archive.Sane ∧
      archive.shapes = changed x.archive.shapes node.id (some node.shape) := by
  obtain ⟨archive, hstore, hsane, hshapes⟩ := h.store node x.defers
  exact ⟨archive, onArchive_eq hstore, hsane, hshapes⟩

/-- A node that has its failure noted is the same node. -/
theorem noted_eq {x : Execution} (h : x.archive.Sane) {node : Node}
    (hnode : x.archive.shapes node.id = some node.shape) (error : Option Failure) :
    ∃ archive, storeNode { node with error } x = (.ok (), { x with archive }) ∧
      Archive.Kept x.archive archive := by
  obtain ⟨archive, hstore, hsane, hshapes⟩ := storeNode_eq h { node with error }
  exact ⟨archive, hstore, hsane, hshapes.trans (changed_eq_self hnode)⟩

theorem markFailed_eq {x : Execution} (h : x.archive.Sane) {node : Node}
    (hnode : x.archive.shapes node.id = some node.shape) (error : Option Failure) :
    ∃ archive, markFailed node error x = (.ok (), { x with archive }) ∧
      Archive.Kept x.archive archive := by
  cases error with
  | none => exact ⟨x.archive, rfl, h.kept⟩
  | some failure => exact noted_eq h hnode (some failure)

theorem autopersist_eq {x : Execution} (h : x.archive.Sane) (id : Nat) :
    ∃ archive, onArchive (Archive.autopersist id) x = (.ok (), { x with archive }) ∧
      Archive.Kept x.archive archive := by
  obtain ⟨archive, hwrite, hkept⟩ := h.autopersist id
  exact ⟨archive, onArchive_eq hwrite, hkept⟩

/-- A node that is there is read under its number. -/
theorem readNode {x : Execution} {n : Nat} {shape : Node}
    (hshape : x.archive.shapes n = some shape) :
    ∃ node, x.archive.node n = .ok node ∧ node.shape = shape ∧
      (shape.id = n → x.archive.shapes node.id = some node.shape) := by
  obtain ⟨node, hnode, rfl⟩ := Archive.node_of_shape hshape
  refine ⟨node, hnode, rfl, fun hid => ?_⟩
  have hid' : node.id = n := hid
  rw [hid', hshape]

/-! ## Appending -/

/-- The node that is appended. -/
def appended (x : Execution) (tip : Nat) (kind : NodeKind) (function displayName : String) : Node where
  id := x.record.nextNodeId
  parents := [tip]
  kind := kind
  functionName := some function
  displayName := some displayName
  startedAt := x.clock

/-- **A node is appended** behind the tip of its head. -/
theorem appendNode_eq {x : Execution} (hsane : x.archive.Sane) (hopen : x.record.done = false)
    {head tip : Nat} (htip : x.headTip head = some tip) (kind : NodeKind) (function displayName : String) :
    ∃ archive, appendNode head kind function displayName x =
        (.ok x.record.nextNodeId, { x with
          archive
          record := (advanceHead head (x.appended tip kind function displayName)
            x.record.allocateNode.2).touch x.clock }) ∧
      archive.Sane ∧ archive.shapes = changed x.archive.shapes x.record.nextNodeId
        (some (x.appended tip kind function displayName)) := by
  let numbered : Execution := { x with record := x.record.allocateNode.2 }
  obtain ⟨archive, hstore, hstored, hshapes⟩ :=
    storeNode_eq (x := numbered) hsane (x.appended tip kind function displayName)
  refine ⟨archive, ?_, hstored, hshapes⟩
  refine Attempt.bind_eq_of_ok (requireRunning_eq hopen) ?_
  refine Attempt.bind_eq_of_ok (requireHead_eq htip) ?_
  refine Attempt.bind_eq_of_ok (y := numbered) (a := x.record.nextNodeId) rfl ?_
  refine Attempt.bind_eq_of_ok (y := numbered) (a := x.clock) rfl ?_
  exact Attempt.bind_eq_of_ok hstore rfl

/-- The record after a branch was opened. -/
def branched (r : Record) (tip : Nat) (node : Node) : Record :=
  advanceHead r.nextHeadId node
    { r.allocateHead.2 with
      heads := Table.insert r.nextHeadId tip r.heads, nextNodeId := r.nextNodeId + 1 }

@[simp] theorem flowStart_branched (r : Record) (tip : Nat) (node : Node) :
    (branched r tip node).flowStart = r.flowStart := rfl

/-- **A branch is opened** at the tip of a head. -/
theorem openBranch_eq {x : Execution} (hsane : x.archive.Sane) (hopen : x.record.done = false)
    {head tip : Nat} (htip : x.headTip head = some tip) (name : String) :
    ∃ archive, openBranch head name x =
        (.ok ⟨x.record.nextHeadId, x.record.nextNodeId⟩, { x with
          archive
          record := (branched x.record tip (x.appended tip (.blockStart true) "branch" name)).touch
            x.clock }) ∧
      archive.Sane ∧ archive.shapes = changed x.archive.shapes x.record.nextNodeId
        (some (x.appended tip (.blockStart true) "branch" name)) := by
  let forked : Execution := { x with
    record := { x.record.allocateHead.2 with
      heads := Table.insert x.record.nextHeadId tip x.record.heads } }
  have hfork : forkHead head x = (.ok x.record.nextHeadId, forked) :=
    Attempt.bind_eq_of_ok (requireHead_eq htip) rfl
  have hforkedTip : forked.headTip x.record.nextHeadId = some tip := Table.find?_insert_self _ _ _
  obtain ⟨archive, happend, hstored, hshapes⟩ :=
    appendNode_eq (x := forked) hsane hopen hforkedTip (.blockStart true) "branch" name
  refine ⟨archive, ?_, hstored, hshapes⟩
  refine Attempt.bind_eq_of_ok hfork ?_
  exact Attempt.bind_eq_of_ok happend rfl

/-! ## Closing -/

/-- The record after a block was closed. -/
def closed (r : Record) (head start : Nat) : Record :=
  { r with
    nextNodeId := r.nextNodeId + 1
    heads := Table.insert head r.nextNodeId r.heads
    startNodes := Record.eraseLast start r.startNodes }

/-- **A block is closed.** -/
theorem closeBlock_eq {x : Execution} (hsane : x.archive.Sane) (hopen : x.record.done = false)
    {head start : Nat} {tips parents : List Nat} {first : Node}
    (hparents : tips = [] ∧ (∃ tip, x.headTip head = some tip ∧ parents = [tip]) ∨
      tips ≠ [] ∧ parents = tips)
    (hfirst : x.archive.shapes start = some first) (hid : first.id = start) (error : Option Failure) :
    ∃ archive node, closeBlock head start tips error x =
        (.ok x.record.nextNodeId, { x with
          archive, record := (closed x.record head start).touch x.clock }) ∧
      archive.Sane ∧ archive.shapes = changed x.archive.shapes x.record.nextNodeId (some node) ∧
      node.id = x.record.nextNodeId ∧ node.kind = .blockEnd start ∧ node.parents = parents := by
  have hends : endParents head tips x = (.ok parents, x) := by
    unfold endParents
    rcases hparents with ⟨rfl, tip, htip, rfl⟩ | ⟨hne, rfl⟩
    · exact Attempt.bind_eq_of_ok (requireHead_eq htip) rfl
    · rw [if_neg (by simpa using hne)]
      rfl
  -- the failure is noted at the start of the block, and then the end is written
  obtain ⟨startNode, hread, rfl, hstored⟩ := readNode hfirst
  obtain ⟨marked, hmark, hkept⟩ := markFailed_eq hsane (hstored hid) error
  let numbered : Execution := { x with archive := marked, record := x.record.allocateNode.2 }
  let node : Node :=
    { id := x.record.nextNodeId, parents, kind := .blockEnd start
      functionName := startNode.functionName, displayName := startNode.displayName, error
      startedAt := x.clock }
  obtain ⟨archive, hstore, hsane', hshapes⟩ := storeNode_eq (x := numbered) hkept.sane node
  obtain ⟨first', hwrite, hkept'⟩ := autopersist_eq (x := { numbered with archive }) hsane' start
  obtain ⟨last, hwrite', hkept''⟩ :=
    autopersist_eq (x := { numbered with archive := first' }) hkept'.sane x.record.nextNodeId
  refine ⟨last, node.shape, ?_, hkept''.sane, ?_, rfl, rfl, rfl⟩
  · refine Attempt.bind_eq_of_ok (requireRunning_eq hopen) ?_
    refine Attempt.bind_eq_of_ok hends ?_
    refine Attempt.bind_eq_of_ok (y := x) (a := startNode) (by rw [Attempt.trying, hread]) ?_
    refine Attempt.bind_eq_of_ok hmark ?_
    refine Attempt.bind_eq_of_ok (y := numbered) (a := x.record.nextNodeId) rfl ?_
    refine Attempt.bind_eq_of_ok (y := numbered) (a := x.clock) rfl ?_
    refine Attempt.bind_eq_of_ok hstore ?_
    refine Attempt.bind_eq_of_ok hwrite ?_
    exact Attempt.bind_eq_of_ok hwrite' rfl
  · rw [hkept''.shapes, hkept'.shapes, hshapes]
    exact congrArg (changed · _ _) hkept.shapes

/-- The record after a branch was closed. -/
def unbranched (r : Record) (head start : Nat) : Record :=
  { r with
    nextNodeId := r.nextNodeId + 1
    heads := Table.erase head (Table.insert head r.nextNodeId r.heads)
    startNodes := Record.eraseLast start r.startNodes }

@[simp] theorem flowStart_unbranched (r : Record) (head start : Nat) :
    (unbranched r head start).flowStart = r.flowStart := rfl

/-- **A branch is closed**, and its head goes. -/
theorem endBranch_eq {x : Execution} (branch : Branch) (hsane : x.archive.Sane)
    (hopen : x.record.done = false) {tip : Nat} (htip : x.headTip branch.head = some tip) {first : Node}
    (hfirst : x.archive.shapes branch.start = some first) (hid : first.id = branch.start)
    (error : Option Failure) :
    ∃ archive node, endBranch branch error x =
        (.ok x.record.nextNodeId, { x with
          archive, record := (unbranched x.record branch.head branch.start).touch x.clock }) ∧
      archive.Sane ∧ archive.shapes = changed x.archive.shapes x.record.nextNodeId (some node) ∧
      node.id = x.record.nextNodeId ∧ node.kind = .blockEnd branch.start ∧ node.parents = [tip] := by
  obtain ⟨archive, node, hclose, hsane', hshapes, hnode⟩ :=
    closeBlock_eq hsane hopen (.inl ⟨rfl, tip, htip, rfl⟩) hfirst hid error
  refine ⟨archive, node, ?_, hsane', hshapes, hnode⟩
  refine Attempt.bind_eq_of_ok hclose ?_
  have hleft : (Execution.headTip { x with
      archive, record := (closed x.record branch.head branch.start).touch x.clock } branch.head) =
      some x.record.nextNodeId := Table.find?_insert_self _ _ _
  exact Attempt.bind_eq_of_ok (requireHead_eq hleft) rfl

/-- **The node of a step without a block is closed.** -/
theorem closeAtom_eq {x : Execution} (hsane : x.archive.Sane) {n : Nat} {shape : Node}
    (hshape : x.archive.shapes n = some shape) (hid : shape.id = n) (error : Option Failure) :
    ∃ archive, closeAtom n error x = (.ok (), { x with archive }) ∧
      Archive.Kept x.archive archive := by
  unfold closeAtom
  by_cases hfailed : error.isSome = true
  · obtain ⟨node, hread, rfl, hstored⟩ := readNode hshape
    obtain ⟨noted, hnote, hkept⟩ := noted_eq hsane (hstored hid) error
    obtain ⟨archive, hwrite, hkept'⟩ := autopersist_eq (x := { x with archive := noted }) hkept.sane n
    refine ⟨archive, ?_, hkept.trans hkept'⟩
    simp only [if_pos hfailed]
    refine Attempt.bind_eq_of_ok (y := x) (a := node) (by rw [Attempt.trying, hread]) ?_
    exact Attempt.bind_eq_of_ok hnote hwrite
  · obtain ⟨archive, hwrite, hkept⟩ := autopersist_eq hsane n
    refine ⟨archive, ?_, hkept⟩
    simp only [if_neg hfailed]
    exact hwrite

end Execution

end DurableFlow
