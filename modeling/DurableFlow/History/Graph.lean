/-
Walking the history graph.

The blocks open around a node are found by going back along first parents. A
block end leads straight to the parent of its start, so blocks that were closed
before the node are passed over. The walk stops at the start of the flow, at a
node without parents, or where it would come to a node for the second time;
hence it takes at most one round more than there are nodes.
-/
import DurableFlow.History.Storage

set_option autoImplicit false

namespace DurableFlow.History

/-- The node from which the walk goes on. -/
def previous? (lookup : Nat → EngineResult Node) (node : Node) : EngineResult (Option Nat) :=
  match node.kind with
  -- behind the end of a block the walk goes on in front of the block, which is not open
  | .blockEnd start => (lookup start).map fun node => node.parents.head?
  | _ => .ok node.parents.head?

/-- Collects the open blocks behind a node, innermost first. The fuel is a bound on the rounds. -/
def walk (lookup : Nat → EngineResult Node) : Nat → List Nat → Node → EngineResult (List Nat)
  | 0, _, _ => .ok []
  | fuel + 1, seen, node =>
    match previous? lookup node with
    | .error e => .error e
    | .ok none => .ok []
    | .ok (some next) =>
      -- a history that was damaged may lead in a circle
      if seen.contains next then .ok []
      else
        match lookup next with
        | .error e => .error e
        | .ok node =>
          match node.kind with
          | .flowStart => .ok []
          | .blockStart _ => (walk lookup fuel (next :: seen) node).map (node.id :: ·)
          | _ => walk lookup fuel (next :: seen) node

/-- The blocks open around a node, innermost first, without the node itself. -/
def enclosingBlocks (s : Storage) (tree : FileTree) (id : Nat) : EngineResult (List Nat) :=
  match s.node tree id with
  | .error e => .error e
  | .ok node => walk (s.node tree) (s.sizeBound tree + 1) [] node

/-- Whether a node is a block or lies inside it. -/
def isWithin (s : Storage) (tree : FileTree) (id scope : Nat) : EngineResult Bool :=
  if id = scope then .ok true
  else (enclosingBlocks s tree id).map fun blocks => blocks.contains scope

end DurableFlow.History
