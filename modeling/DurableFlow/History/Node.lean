/-
The history of an execution: a graph of nodes that only grows.

A node names its parents, which are older. Blocks are pairs of a start and an
end; the end names the start it closes. What a step wants to remember beside its
node (log lines and the like) hangs on it as actions.
-/
import DurableFlow.Script.Codec
import DurableFlow.Text.Timestamp

set_option autoImplicit false

namespace DurableFlow.History

open Text

inductive NodeKind where
  | flowStart
  | flowEnd (start : Nat)
  /-- A step without a block. -/
  | atom
  /-- The start of a block: of one of a step's bodies, or of the step itself. -/
  | blockStart (body : Bool)
  | blockEnd (start : Nat)
deriving DecidableEq, Inhabited

/-- A node of the history. -/
structure Node where
  id : Nat
  parents : List Nat
  kind : NodeKind
  functionName : Option String := none
  displayName : Option String := none
  error : Option Failure := none
  startedAt : Timestamp
deriving Inhabited

def Node.isBlockStart (node : Node) : Bool :=
  match node.kind with
  | .blockStart _ => true
  | _ => false

/-- Something remembered beside a node. -/
structure Action where
  kind : String
  data : Json
deriving Inhabited

/-- A node with its actions. -/
structure StoredNode where
  node : Node
  actions : List Action := []
deriving Inhabited

/-! ## Saved form -/

def NodeKind.toJson : NodeKind → Json
  | .flowStart => .obj [("type", .str "FlowStart")]
  | .flowEnd start => .obj [("start", .nat start), ("type", .str "FlowEnd")]
  | .atom => .obj [("type", .str "Atom")]
  | .blockStart body => .obj [("body", .bool body), ("type", .str "BlockStart")]
  | .blockEnd start => .obj [("start", .nat start), ("type", .str "BlockEnd")]

def NodeKind.ofDocument? (d : Document) : Option NodeKind := do
  let (kind, rest) ← d.variant? "type"
  let start := do (← rest.record? ["start"] 1).field? "start" Document.nat?
  match kind with
  | "FlowStart" => if rest.hasNoFields then some .flowStart else none
  | "FlowEnd" => start.map .flowEnd
  | "Atom" => if rest.hasNoFields then some .atom else none
  | "BlockStart" =>
    return .blockStart (← (← rest.record? ["body"] 1).field? "body" Document.bool?)
  | "BlockEnd" => start.map .blockEnd
  | _ => none

def timestampOfDocument? (d : Document) : Option Timestamp := d.str?.bind Timestamp.parse?

def Node.toJson (node : Node) : Json :=
  Json.object <|
    [("id", .nat node.id), ("parents", .arr (node.parents.map .nat)),
      ("kind", node.kind.toJson), ("started_at", .str node.startedAt.text)]
    ++ Json.optionalMember "function_name" .str node.functionName
    ++ Json.optionalMember "display_name" .str node.displayName
    ++ Json.optionalMember "error" Failure.toJson node.error

/-- The fields of a node, in order. -/
def Node.fieldNames : List String :=
  ["id", "parents", "kind", "function_name", "display_name", "error", "started_at"]

def Node.ofDocument? (d : Document) : Option Node := do
  let fields ← d.record? Node.fieldNames 7
  return {
    id := ← fields.field? "id" Document.nat?
    parents := ← fields.field? "parents" (·.list? Document.nat?)
    kind := ← fields.field? "kind" NodeKind.ofDocument?
    functionName := ← fields.optional? "function_name" Document.str?
    displayName := ← fields.optional? "display_name" Document.str?
    error := ← fields.optional? "error" Failure.ofDocument?
    startedAt := ← fields.field? "started_at" timestampOfDocument? }

def Action.toJson (action : Action) : Json :=
  .obj [("data", action.data), ("kind", .str action.kind)]

def Action.ofDocument? (d : Document) : Option Action := do
  let fields ← d.record? ["kind", "data"] 2
  return { kind := ← fields.field? "kind" Document.str?
           data := ← fields.field? "data" Document.json? }

def StoredNode.toJson (stored : StoredNode) : Json :=
  .obj [("actions", .arr (stored.actions.map Action.toJson)), ("node", stored.node.toJson)]

def StoredNode.ofDocument? (d : Document) : Option StoredNode := do
  let fields ← d.record? ["node", "actions"] 1
  return {
    node := ← fields.field? "node" Node.ofDocument?
    actions := ← fields.fieldD? "actions" (·.list? Action.ofDocument?) [] }

end DurableFlow.History
