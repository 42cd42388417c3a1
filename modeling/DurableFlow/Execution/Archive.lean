/-
The archive of an execution: all of its files.

There is the record, the saved program, the log and the history. Every call that
is meant to write is noted in a journal, whether it succeeds or not, and whoever
hosts the execution may refuse calls; a refused call does nothing else. A history
that the engine made afresh is not watched in this way.
-/
import DurableFlow.Attempt
import DurableFlow.Execution.Record
import DurableFlow.History.Graph
import DurableFlow.Program.Saved

set_option autoImplicit false

namespace DurableFlow

open History

/-- A call that is meant to write. -/
inductive ArchiveCall where
  | saveRecord
  | saveProgram
  /-- A new history in one file. -/
  | freshHistory
  | flush
  | store (node : Nat) (deferred : Bool)
  | saveActions (node : Nat)
  | autopersist (node : Nat)
deriving DecidableEq

/-- The files of an execution. -/
structure Archive where
  /-- The name of the directory, for messages. -/
  root : String := ""
  tree : FileTree := {}
  /-- The number of the file that is the log. -/
  logFile : Nat := 0
  history : Storage := .bulk {}
  /-- Whether calls on the history are noted and may be refused. -/
  isWatched : Bool := true
  /-- The calls so far, in order. -/
  journal : List ArchiveCall := []
  /-- What the host refuses, and with which error. -/
  refuse : ArchiveCall → Option EngineError := fun _ => none
  /-- The lines logged since the archive was opened, in order. -/
  lines : List String := []

instance : Inhabited Archive := ⟨{}⟩

namespace Archive

def recordPath : Path := ["execution.json"]
def programPath : Path := ["program.json"]
def logPath : Path := ["log"]

/-- Takes over a directory and opens its log. -/
def openAt (root : String) (tree : FileTree) : EngineResult Archive :=
  match tree.openFile logPath with
  | .ok (logFile, tree) => .ok { root, tree, logFile }
  | .error e => .error e.toEngineError

/-- Writes a line to the log that was opened. -/
def log (a : Archive) (line : String) : Archive :=
  { a with
    tree := a.tree.append a.logFile logPath (line ++ "\n")
    lines := a.lines ++ [line] }

/-! ## Watched calls -/

/-- Notes a call in the journal, and fails if the host refuses it. -/
def announce (call : ArchiveCall) : Attempt Archive Unit := fun a =>
  let a := { a with journal := a.journal ++ [call] }
  match a.refuse call with
  | some e => (.error e, a)
  | none => (.ok (), a)

/-- Writes to the tree. -/
def onTree (f : FileTree → EngineResult Unit × FileTree) : Attempt Archive Unit := fun a =>
  let (result, tree) := f a.tree
  (result, { a with tree })

/-- Writes to the history. -/
def onHistory (f : Storage → FileTree → EngineResult Unit × Storage × FileTree) :
    Attempt Archive Unit := fun a =>
  let (result, history, tree) := f a.history a.tree
  (result, { a with history, tree })

/-- A call on the history, noted if the history is watched. -/
def historyCall (call : ArchiveCall)
    (f : Storage → FileTree → EngineResult Unit × Storage × FileTree) : Attempt Archive Unit := do
  if ← Attempt.reading isWatched then announce call
  onHistory f

def store (node : Node) (defer : Bool) : Attempt Archive Unit :=
  historyCall (.store node.id defer) fun s tree => s.store tree node defer

def flush : Attempt Archive Unit := historyCall .flush Storage.flush

def saveActions (id : Nat) (actions : List Action) : Attempt Archive Unit :=
  historyCall (.saveActions id) fun s tree => s.saveActions tree id actions

def autopersist (id : Nat) : Attempt Archive Unit :=
  historyCall (.autopersist id) fun s tree => s.autopersist tree id

/-- Saves the record. -/
def saveRecord (record : Record) : Attempt Archive Unit := do
  announce .saveRecord
  onTree (·.writeJson recordPath record.toJson)

/-- Saves the program. -/
def saveProgram (program : SavedProgram) : Attempt Archive Unit := do
  announce .saveProgram
  onTree (·.writeJson programPath program.toJson)

/-! ## Reading -/

def node (a : Archive) (id : Nat) : EngineResult Node := a.history.node a.tree id

def nodes (a : Archive) : EngineResult (List Node) := a.history.nodes a.tree

def actions (a : Archive) (id : Nat) : EngineResult (List Action) := a.history.actions a.tree id

/-- The path of a file, for messages. -/
def fullPath (a : Archive) (path : Path) : String := a.root ++ "/" ++ path.text

/-- Reads the saved record. -/
def loadRecord (a : Archive) : EngineResult Record :=
  match a.tree.readJson Record.ofDocument? recordPath with
  | .error e => .error e
  | .ok (some record) => .ok record
  | .ok none => .error (.storage ("no execution record at " ++ a.fullPath recordPath))

/-- Reads the saved program. -/
def loadProgram (a : Archive) : EngineResult SavedProgram :=
  match a.tree.readJson (·.json?.bind SavedProgram.ofJson?) programPath with
  | .error e => .error e
  | .ok (some program) => .ok program
  | .ok none => .error (.storage ("no saved program at " ++ a.fullPath programPath))

/-! ## The history as a whole -/

/-- Opens the history of a layout. -/
def openHistory (kind : StorageKind) : Attempt Archive Unit := fun a =>
  match Storage.openIn kind a.tree with
  | .ok (history, tree) => (.ok (), { a with history, tree, isWatched := true })
  | .error e => (.error e, a)

/-- Copies nodes with their actions into a history in one file. -/
def copyInto (a : Archive) : Bulk → List Node → EngineResult Bulk
  | bulk, [] => .ok bulk
  | bulk, node :: rest =>
    match a.actions node.id with
    | .error e => .error e
    | .ok actions =>
      let bulk := bulk.store node
      if actions.isEmpty then copyInto a bulk rest
      else
        match bulk.saveActions node.id actions with
        | (.ok (), bulk) => copyInto a bulk rest
        | (.error e, _) => .error e

/-- **Moves the history into one file.** Only when that file is written does the archive
change over to it. -/
def migrate : Attempt Archive Unit := do
  announce .freshHistory
  let nodes ← Attempt.trying nodes
  let bulk ← Attempt.trying fun a => a.copyInto .fresh nodes
  fun a =>
    let (result, bulk, tree) := bulk.flush a.tree
    match result with
    | .ok () => (.ok (), { a with history := .bulk bulk, tree, isWatched := false })
    | .error e => (.error e, { a with tree })

/-- Replaces the history by given nodes, in one file. -/
def replaceHistory (nodes : List Node) : Attempt Archive Unit := do
  announce .freshHistory
  fun a =>
    let (result, bulk, tree) := (nodes.foldl Bulk.store .fresh).flush a.tree
    match result with
    | .ok () => (.ok (), { a with history := .bulk bulk, tree, isWatched := false })
    | .error e => (.error e, { a with tree })

end Archive

end DurableFlow
