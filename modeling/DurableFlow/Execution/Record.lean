/-
The record of an execution: what is known of it without its program.

The record names nodes of the history, heads and threads by number only, so it
is small and can be read on its own. Numbers are given out here, each once. The
fingerprint of the script is kept beside it, and a program is only ever restored
for a script that still has it.
-/
import DurableFlow.History.Result
import DurableFlow.History.Storage
import DurableFlow.Program.Thread
import DurableFlow.Program.Delivery
import DurableFlow.Text.Sha256

set_option autoImplicit false

namespace DurableFlow

open Text History

/-- The record of an execution. -/
structure Record where
  id : String
  scriptName : String
  script : String
  /-- The fingerprint of the script. -/
  scriptHash : String
  /-- Script texts that were loaded on the way, by name. -/
  loadedScripts : Table String String := []
  sandbox : Bool := false
  result : Option FlowResult := none
  done : Bool := false
  /-- The first node of the history. -/
  flowStart : Option Nat := none
  /-- The block starts without an end, innermost last. -/
  startNodes : List Nat := []
  /-- The last node of each line of the history. -/
  heads : Table Nat Nat := []
  nextNodeId : Nat := 1
  nextHeadId : Nat := 1
  threadsCreated : Nat := 0
  /-- How often each step was called. -/
  internalCalls : Table String Nat := []
  durability : Durability := .maxSurvivability
  paused : Bool := false
  /-- Whether the last checkpoint succeeded in all its parts. -/
  clean : Bool := false
  /-- Where the history is kept. -/
  storage : StorageKind := .perNode
  /-- Why the execution was interrupted. -/
  causes : List Failure := []
  /-- The failure that the execution ended with. -/
  error : Option Failure := none
  createdAt : Timestamp
  updatedAt : Timestamp
  completedAt : Option Timestamp := none

namespace Record

/-- Where the history is kept while an execution of some durability runs. -/
def storageFor : Durability → StorageKind
  | .performanceOptimized => .bulk
  | _ => .perNode

/-- The record of a new execution. -/
def fresh (id scriptName script : String) (durability : Durability) (sandbox : Bool)
    (now : Timestamp) : Record :=
  { id, scriptName, script, scriptHash := Sha256.hex script, sandbox, durability, clean := true
    storage := storageFor durability, createdAt := now, updatedAt := now }

/-- Whether the script still has its fingerprint. -/
def scriptMatches (r : Record) : Bool := Sha256.hex r.script == r.scriptHash

/-- Whether the execution could go on after a restart. -/
def isResumable (r : Record) : Bool := !r.done && (r.durability.persistsWhenIdle || r.clean)

/-! ## Giving out numbers -/

def allocateNode (r : Record) : Nat × Record :=
  (r.nextNodeId, { r with nextNodeId := r.nextNodeId + 1 })

def allocateHead (r : Record) : Nat × Record :=
  (r.nextHeadId, { r with nextHeadId := r.nextHeadId + 1 })

/-- The first thread has the number one. -/
def allocateThread (r : Record) : Nat × Record :=
  (r.threadsCreated + 1, { r with threadsCreated := r.threadsCreated + 1 })

/-- Counts a call of a step. -/
def countCall (r : Record) (function : String) : Record :=
  let calls := (Table.find? function r.internalCalls).getD 0
  { r with internalCalls := Table.insert function (calls + 1) r.internalCalls }

/-! ## Results -/

/-- The worst of the result so far and another one. -/
def worseResult (r : Record) (result : FlowResult) : FlowResult :=
  match r.result with
  | some current => current.combine result
  | none => result

/-- Makes the result at least as bad as another one. -/
def worsen (r : Record) (result : FlowResult) : Record :=
  { r with result := some (r.worseResult result) }

/-! ## Open blocks -/

/-- Removes the last occurrence of a number. -/
def eraseLast (n : Nat) (numbers : List Nat) : List Nat := (numbers.reverse.erase n).reverse

def touch (r : Record) (now : Timestamp) : Record := { r with updatedAt := now }

/-! ## Saved form -/

/-- The lengths of the groups of hexadecimal digits in an identifier. -/
def idGroups : List Nat := [8, 4, 4, 4, 12]

def isHex (c : Char) : Bool :=
  ('0' ≤ c && c ≤ '9') || ('a' ≤ c && c ≤ 'f') || ('A' ≤ c && c ≤ 'F')

/-- An identifier without what may stand around its groups: braces, or a mark in front. -/
def unframed : List Char → List Char
  | '\x7b' :: rest => if rest.getLast? = some '\x7d' then rest.dropLast else []
  | 'u' :: 'r' :: 'n' :: ':' :: 'u' :: 'u' :: 'i' :: 'd' :: ':' :: rest => rest
  | cs => cs

/-- Whether a text is hexadecimal digits in groups of the right lengths with dashes between
them. -/
def isGrouped (cs : List Char) : Bool :=
  let groups := cs.splitOn '-'
  groups.map List.length == idGroups && groups.all (·.all isHex)

/-- **Whether a text is an identifier**: thirty-two hexadecimal digits all together, or in groups,
around which a frame may stand. -/
def isId (text : String) : Bool :=
  let cs := text.toList
  (cs.length == 32 && cs.all isHex) || isGrouped (unframed cs)

def idOfDocument? (d : Document) : Option String := d.str?.filter isId

def toJson (r : Record) : Json :=
  Json.object <|
    [("id", .str r.id), ("script_name", .str r.scriptName), ("script", .str r.script),
      ("script_hash", .str r.scriptHash),
      ("loaded_scripts", .obj (Table.mapValues .str r.loadedScripts)),
      ("sandbox", .bool r.sandbox),
      ("result", Json.ofOption (fun result => .str result.name) r.result),
      ("done", .bool r.done), ("flow_start", Json.ofOption .nat r.flowStart),
      ("start_nodes", .arr (r.startNodes.map .nat)), ("heads", Json.ofNumbered .nat r.heads),
      ("next_node_id", .nat r.nextNodeId), ("next_head_id", .nat r.nextHeadId),
      ("threads_created", .nat r.threadsCreated),
      ("internal_calls", .obj (Table.mapValues .nat r.internalCalls)),
      ("durability", .str r.durability.name), ("paused", .bool r.paused),
      ("clean", .bool r.clean), ("storage", .str r.storage.name),
      ("created_at", .str r.createdAt.text), ("updated_at", .str r.updatedAt.text),
      ("completed_at", Json.ofOption (fun time => .str (Timestamp.text time)) r.completedAt)]
    ++ (if r.causes.isEmpty then [] else [("causes", .arr (Failure.toJsonAll r.causes))])
    ++ Json.optionalMember "error" Failure.toJson r.error

/-- The fields of a record, in order. -/
def fieldNames : List String :=
  ["id", "script_name", "script", "script_hash", "loaded_scripts", "sandbox", "result", "done",
    "flow_start", "start_nodes", "heads", "next_node_id", "next_head_id", "threads_created",
    "internal_calls", "durability", "paused", "clean", "storage", "causes", "error",
    "created_at", "updated_at", "completed_at"]

def ofDocument? (d : Document) : Option Record := do
  let fields ← d.record? fieldNames 24
  return {
    id := ← fields.field? "id" idOfDocument?
    scriptName := ← fields.field? "script_name" Document.str?
    script := ← fields.field? "script" Document.str?
    scriptHash := ← fields.field? "script_hash" Document.str?
    loadedScripts := ← fields.fieldD? "loaded_scripts" (·.named? Document.str?) []
    sandbox := ← fields.fieldD? "sandbox" Document.bool? false
    result := ← fields.optional? "result" fun d => (d.choice? false).bind FlowResult.ofName?
    done := ← fields.fieldD? "done" Document.bool? false
    flowStart := ← fields.optional? "flow_start" Document.nat?
    startNodes := ← fields.fieldD? "start_nodes" (·.list? Document.nat?) []
    heads := ← fields.fieldD? "heads" (Document.numbered? shortWordBound Document.nat?) []
    nextNodeId := ← fields.field? "next_node_id" Document.nat?
    nextHeadId := ← fields.field? "next_head_id" Document.shortNat?
    threadsCreated := ← fields.fieldD? "threads_created" Document.shortNat? 0
    internalCalls := ← fields.fieldD? "internal_calls" (·.named? Document.nat?) []
    durability := ← fields.fieldD? "durability" (fun d => (d.choice? false).bind Durability.ofName?)
      .maxSurvivability
    paused := ← fields.fieldD? "paused" Document.bool? false
    clean := ← fields.fieldD? "clean" Document.bool? false
    storage := ← fields.fieldD? "storage" (fun d => (d.choice? false).bind StorageKind.ofName?)
      .perNode
    causes := ← fields.fieldD? "causes" (·.list? Failure.ofDocument?) []
    error := ← fields.optional? "error" Failure.ofDocument?
    createdAt := ← fields.field? "created_at" timestampOfDocument?
    updatedAt := ← fields.field? "updated_at" timestampOfDocument?
    completedAt := ← fields.optional? "completed_at" timestampOfDocument? }

end Record

end DurableFlow
