/-
Where the history is kept.

There are two layouts. One file per node is durable after every write; a write
may be deferred, and then the node lives in memory until it is persisted or all
is flushed. The other layout holds the whole history in memory and writes it to
one file when flushed.

Both answer the same questions about the same nodes. An operation that fails
says why and still may have changed what is held in memory: a node that was
stored and could not be written is stored.
-/
import DurableFlow.Data.FileTree
import DurableFlow.Error
import DurableFlow.History.Node
import DurableFlow.Json.Reader

set_option autoImplicit false

namespace DurableFlow

/-! ## JSON files -/

def FileError.toEngineError : FileError → EngineError
  | .notFound => .io "not found"
  | .other detail => .io detail

/-- Reads a JSON file; without the file there is nothing. -/
def FileTree.readJson {α : Type} (read? : Document → Option α) (path : Path) (tree : FileTree) :
    EngineResult (Option α) :=
  match tree.read path with
  | .error .notFound => .ok none
  | .error e => .error e.toEngineError
  | .ok text =>
    match (Json.document? text).bind read? with
    | some value => .ok (some value)
    | none => .error (.serialization "unreadable")

/-- Replaces a JSON file. -/
def FileTree.writeJson (path : Path) (json : Json) (tree : FileTree) :
    EngineResult Unit × FileTree :=
  match tree.replace path (json.render .indented) with
  | (.ok (), tree) => (.ok (), tree)
  | (.error e, tree) => (.error e.toEngineError, tree)

namespace History

/-- The two layouts. -/
inductive StorageKind where
  | perNode
  | bulk
deriving DecidableEq, Inhabited

def StorageKind.name : StorageKind → String
  | .perNode => "per_node"
  | .bulk => "bulk"

def StorageKind.ofName? : String → Option StorageKind
  | "per_node" => some .perNode
  | "bulk" => some .bulk
  | _ => none

/-! ## One file per node -/

/-- The directory of the node files. -/
def nodeDirectory : Path := ["nodes"]

/-- The file of a node. -/
def nodePath (id : Nat) : Path := nodeDirectory ++ [toString id ++ ".json"]

/-- Node files with what is held in memory: the nodes stored since opening, and those of them
that still have to be written. -/
structure NodeFiles where
  cache : Table Nat StoredNode := []
  deferred : Table Nat Unit := []

namespace NodeFiles

/-- Opens the node files, making their directory. -/
def openIn (tree : FileTree) : EngineResult (NodeFiles × FileTree) :=
  match tree.makeDirectory nodeDirectory with
  | .ok tree => .ok ({}, tree)
  | .error e => .error e.toEngineError

/-- A node from memory or else from its file. -/
def read (s : NodeFiles) (tree : FileTree) (id : Nat) : EngineResult (Option StoredNode) :=
  match Table.find? id s.cache with
  | some stored => .ok (some stored)
  | none => tree.readJson StoredNode.ofDocument? (nodePath id)

/-- Writes a node held in memory to its file. -/
def write (s : NodeFiles) (tree : FileTree) (id : Nat) : EngineResult Unit × FileTree :=
  match Table.find? id s.cache with
  | some stored => tree.writeJson (nodePath id) stored.toJson
  | none => (.ok (), tree)

/-- Stores a node, keeping the actions it has. -/
def store (s : NodeFiles) (tree : FileTree) (node : Node) (defer : Bool) :
    EngineResult Unit × NodeFiles × FileTree :=
  match s.read tree node.id with
  | .error e => (.error e, s, tree)
  | .ok existing =>
    let actions := (existing.map StoredNode.actions).getD []
    -- memory has the node even if it cannot be written
    let s := { s with cache := Table.insert node.id { node, actions } s.cache }
    if defer then (.ok (), { s with deferred := Table.insert node.id () s.deferred }, tree)
    else
      -- what is written now need not be written again
      let s := { s with deferred := Table.erase node.id s.deferred }
      let (result, tree) := s.write tree node.id
      (result, s, tree)

/-- Writes nodes until one write fails. -/
def writeAll (s : NodeFiles) (tree : FileTree) : List Nat → EngineResult Unit × FileTree
  | [] => (.ok (), tree)
  | id :: ids =>
    match s.write tree id with
    | (.ok (), tree) => s.writeAll tree ids
    | (.error e, tree) => (.error e, tree)

/-- Writes all deferred nodes. -/
def flush (s : NodeFiles) (tree : FileTree) : EngineResult Unit × NodeFiles × FileTree :=
  let (result, tree) := s.writeAll tree (Table.keys s.deferred)
  -- none of the nodes is written later, whether its turn came or not
  (result, { s with deferred := [] }, tree)

/-- Replaces the actions of a node. -/
def saveActions (s : NodeFiles) (tree : FileTree) (id : Nat) (actions : List Action) :
    EngineResult Unit × NodeFiles × FileTree :=
  match s.read tree id with
  | .error e => (.error e, s, tree)
  | .ok none => (.error (.missingNode id), s, tree)
  | .ok (some stored) =>
    let s := { s with cache := Table.insert id { stored with actions } s.cache }
    -- a node that waits is written with its actions
    if Table.contains id s.deferred then (.ok (), s, tree)
    else
      let (result, tree) := s.write tree id
      (result, s, tree)

/-- Writes a node if it was deferred. -/
def autopersist (s : NodeFiles) (tree : FileTree) (id : Nat) :
    EngineResult Unit × NodeFiles × FileTree :=
  if Table.contains id s.deferred then
    let s := { s with deferred := Table.erase id s.deferred }
    let (result, tree) := s.write tree id
    (result, s, tree)
  else (.ok (), s, tree)

/-- How the name of a node file ends. -/
def nameEnd : List Char := ['.', 'j', 's', 'o', 'n']

/-- The id that the name of a node file stands for. -/
def idOfName? (name : String) : Option Nat :=
  let cs := name.toList
  if nameEnd.isSuffixOf cs then
    Text.natOfChars? Json.wordBound (cs.take (cs.length - nameEnd.length))
  else none

/-- Reads nodes in the order of their ids. -/
def readAll (s : NodeFiles) (tree : FileTree) : List Nat → EngineResult (List StoredNode)
  | [] => .ok []
  | id :: ids =>
    match s.read tree id with
    | .error e => .error e
    | .ok found =>
      match s.readAll tree ids with
      | .error e => .error e
      | .ok rest => .ok (found.toList ++ rest)

/-- All nodes, those in memory and those that only have a file, in the order of their ids. -/
def nodes (s : NodeFiles) (tree : FileTree) : EngineResult (List Node) :=
  match tree.list nodeDirectory with
  | .error e => .error e.toEngineError
  | .ok names =>
    let ids := Table.insertAll ((names.filterMap idOfName?).map fun id => (id, ()))
      (Table.mapValues (fun _ => ()) s.cache)
    (s.readAll tree (Table.keys ids)).map fun stored => stored.map StoredNode.node

end NodeFiles

/-! ## One file for all -/

/-- The file of the whole history. -/
def bulkPath : Path := ["nodes.json"]

/-- The whole history in memory, and whether it has to be written. -/
structure Bulk where
  nodes : Table Nat StoredNode := []
  dirty : Bool := false

namespace Bulk

/-- Opens the file of the history; without one the history is empty. -/
def openIn (tree : FileTree) : EngineResult Bulk :=
  match tree.readJson (·.list? StoredNode.ofDocument?) bulkPath with
  | .error e => .error e
  | .ok stored => .ok { nodes := Table.ofEntries ((stored.getD []).map fun s => (s.node.id, s)) }

/-- An empty history that replaces the file when flushed. -/
def fresh : Bulk := { dirty := true }

/-- Stores a node, keeping the actions it has. -/
def store (s : Bulk) (node : Node) : Bulk :=
  let actions := ((Table.find? node.id s.nodes).map StoredNode.actions).getD []
  { nodes := Table.insert node.id { node, actions } s.nodes, dirty := true }

/-- Writes the whole history if it changed. -/
def flush (s : Bulk) (tree : FileTree) : EngineResult Unit × Bulk × FileTree :=
  if s.dirty then
    match tree.writeJson bulkPath (.arr ((Table.values s.nodes).map StoredNode.toJson)) with
    | (.ok (), tree) => (.ok (), { s with dirty := false }, tree)
    | (.error e, tree) => (.error e, s, tree)
  else (.ok (), s, tree)

/-- Replaces the actions of a node. -/
def saveActions (s : Bulk) (id : Nat) (actions : List Action) : EngineResult Unit × Bulk :=
  match Table.find? id s.nodes with
  | none => (.error (.missingNode id), s)
  | some stored =>
    (.ok (), { nodes := Table.insert id { stored with actions } s.nodes, dirty := true })

end Bulk

/-! ## Either layout -/

/-- The history of an execution in one of the two layouts. -/
inductive Storage where
  | perNode (s : NodeFiles)
  | bulk (s : Bulk)

instance : Inhabited Storage := ⟨.bulk {}⟩

namespace Storage

def kind : Storage → StorageKind
  | .perNode _ => .perNode
  | .bulk _ => .bulk

/-- Opens a layout on the files that are there. -/
def openIn (kind : StorageKind) (tree : FileTree) : EngineResult (Storage × FileTree) :=
  match kind with
  | .perNode => do
    let (s, tree) ← NodeFiles.openIn tree
    return (.perNode s, tree)
  | .bulk => do return (.bulk (← Bulk.openIn tree), tree)

def read (s : Storage) (tree : FileTree) (id : Nat) : EngineResult (Option StoredNode) :=
  match s with
  | .perNode s => s.read tree id
  | .bulk s => .ok (Table.find? id s.nodes)

def get (s : Storage) (tree : FileTree) (id : Nat) : EngineResult (Option Node) :=
  (s.read tree id).map fun found => found.map StoredNode.node

/-- A node that has to be there. -/
def node (s : Storage) (tree : FileTree) (id : Nat) : EngineResult Node :=
  match s.get tree id with
  | .error e => .error e
  | .ok none => .error (.missingNode id)
  | .ok (some node) => .ok node

/-- The actions of a node; one that is not there has none. -/
def actions (s : Storage) (tree : FileTree) (id : Nat) : EngineResult (List Action) :=
  (s.read tree id).map fun found => (found.map StoredNode.actions).getD []

def store (s : Storage) (tree : FileTree) (node : Node) (defer : Bool) :
    EngineResult Unit × Storage × FileTree :=
  match s with
  | .perNode s =>
    let (result, s, tree) := s.store tree node defer
    (result, .perNode s, tree)
  | .bulk s => (.ok (), .bulk (s.store node), tree)

def flush (s : Storage) (tree : FileTree) : EngineResult Unit × Storage × FileTree :=
  match s with
  | .perNode s =>
    let (result, s, tree) := s.flush tree
    (result, .perNode s, tree)
  | .bulk s =>
    let (result, s, tree) := s.flush tree
    (result, .bulk s, tree)

def saveActions (s : Storage) (tree : FileTree) (id : Nat) (actions : List Action) :
    EngineResult Unit × Storage × FileTree :=
  match s with
  | .perNode s =>
    let (result, s, tree) := s.saveActions tree id actions
    (result, .perNode s, tree)
  | .bulk s =>
    let (result, s) := s.saveActions id actions
    (result, .bulk s, tree)

def autopersist (s : Storage) (tree : FileTree) (id : Nat) :
    EngineResult Unit × Storage × FileTree :=
  match s with
  | .perNode s =>
    let (result, s, tree) := s.autopersist tree id
    (result, .perNode s, tree)
  | .bulk s => (.ok (), .bulk s, tree)

/-- All nodes in the order of their ids. -/
def nodes (s : Storage) (tree : FileTree) : EngineResult (List Node) :=
  match s with
  | .perNode s => s.nodes tree
  | .bulk s => .ok ((Table.values s.nodes).map StoredNode.node)

/-- At least the number of ids that have a node. -/
def sizeBound (s : Storage) (tree : FileTree) : Nat :=
  match s with
  | .perNode s => s.cache.length + tree.entries.length
  | .bulk s => s.nodes.length

end Storage

end History

end DurableFlow
