/-
Saved form of failures, values, code and machines.

Values, instructions and machines are written as JSON objects and read back. A
value is an object with its kind under `t` and its contents under `v`, an
instruction one with `op` and `arg`. All are read from documents of JSON values,
which may also have the form of arrays. Lists that a machine keeps innermost first
are written outermost first. A number that is not finite is written as null, which
no reader of numbers accepts: such a value is the one thing that cannot be read
back.
-/
import DurableFlow.Json.Document
import DurableFlow.Script.Machine

set_option autoImplicit false

namespace DurableFlow

/-- A double as JSON; what is not finite becomes null. -/
def Json.ofFloat (x : Float) : Json :=
  if Number.isFinite x then .num (.float x) else .null

namespace Failure

mutual

def toJson : Failure → Json
  | ⟨code, message, []⟩ => .obj [("code", .str code), ("message", .str message)]
  | ⟨code, message, first :: rest⟩ =>
    .obj [("code", .str code), ("message", .str message),
      ("suppressed", .arr (toJson first :: toJsonAll rest))]

def toJsonAll : List Failure → List Json
  | [] => []
  | failure :: rest => toJson failure :: toJsonAll rest

end

/-- Reads a failure. -/
def ofDocument? (d : Document) : Option Failure := do
  let fields ← d.record? ["code", "message", "suppressed"] 2
  let code ← fields.field? "code" Document.str?
  let message ← fields.field? "message" Document.str?
  match fields.part? "suppressed" with
  | none => return { code, message }
  | some ⟨v, _⟩ =>
    let suppressed ← (← v.items?).mapM fun ⟨x, _⟩ => ofDocument? x
    return { code, message, suppressed }
termination_by sizeOf d

end Failure

namespace Script

def Handle.toJson (h : Handle) : Json :=
  .obj [("key", .str h.key), ("kind", .str h.kind)]

def Handle.ofDocument? (d : Document) : Option Handle := do
  let fields ← d.record? ["kind", "key"] 2
  return { kind := ← fields.field? "kind" Document.str?
           key := ← fields.field? "key" Document.str? }

def BinaryOp.name : BinaryOp → String
  | .and => "And"
  | .or => "Or"
  | .eq => "Eq"
  | .ne => "Ne"
  | .lt => "Lt"
  | .lte => "Lte"
  | .gt => "Gt"
  | .gte => "Gte"
  | .add => "Add"
  | .sub => "Sub"
  | .mul => "Mul"
  | .div => "Div"
  | .mod => "Mod"

def BinaryOp.ofName? : String → Option BinaryOp
  | "And" => some .and
  | "Or" => some .or
  | "Eq" => some .eq
  | "Ne" => some .ne
  | "Lt" => some .lt
  | "Lte" => some .lte
  | "Gt" => some .gt
  | "Gte" => some .gte
  | "Add" => some .add
  | "Sub" => some .sub
  | "Mul" => some .mul
  | "Div" => some .div
  | "Mod" => some .mod
  | _ => none

def UnaryOp.name : UnaryOp → String
  | .not => "Not"
  | .neg => "Neg"

def UnaryOp.ofName? : String → Option UnaryOp
  | "Not" => some .not
  | "Neg" => some .neg
  | _ => none

/-! ## Writing values and code -/

/-- An object with a kind and contents. -/
def tagged (kind : String) (contents : Json) : Json :=
  .obj [("t", .str kind), ("v", contents)]

/-- An instruction with an argument. -/
def operation (name : String) (arg : Json) : Json :=
  .obj [("arg", arg), ("op", .str name)]

/-- An instruction without an argument. -/
def bareOperation (name : String) : Json := .obj [("op", .str name)]

mutual

def Val.toJson : Val → Json
  | .null => .obj [("t", .str "Null")]
  | .bool b => tagged "Bool" (.bool b)
  | .num x => tagged "Num" (Json.ofFloat x)
  | .str s => tagged "Str" (.str s)
  | .list items => tagged "List" (.arr (Val.itemsToJson items))
  | .map fields => tagged "Map" (.obj (Val.fieldsToJson fields))
  | .closure c => tagged "Closure" (closureToJson c)
  | .error failure => tagged "Error" failure.toJson
  | .handle h => tagged "Handle" h.toJson

def Val.itemsToJson : List Val → List Json
  | [] => []
  | item :: rest => Val.toJson item :: Val.itemsToJson rest

def Val.fieldsToJson : List (String × Val) → List (String × Json)
  | [] => []
  | (name, value) :: rest => (name, Val.toJson value) :: Val.fieldsToJson rest

def closureToJson : Closure Val → Json
  | ⟨program, chunk, captured⟩ =>
    .obj [("captured", .obj (Val.fieldsToJson captured)), ("chunk", .nat chunk),
      ("program", programToJson program)]

def programToJson : Program Val → Json
  | ⟨name, chunks⟩ => .obj [("chunks", .arr (chunksToJson chunks)), ("name", .str name)]

def chunksToJson : List (Chunk Val) → List Json
  | [] => []
  | chunk :: rest => chunkToJson chunk :: chunksToJson rest

def chunkToJson : Chunk Val → Json
  | ⟨name, code, lines, callsSteps⟩ =>
    .obj [("calls_steps", .bool callsSteps), ("code", .arr (codeToJson code)),
      ("lines", .arr (lines.map .nat)), ("name", .str name)]

def codeToJson : List (Instr Val) → List Json
  | [] => []
  | instr :: rest => instrToJson instr :: codeToJson rest

def instrToJson : Instr Val → Json
  | .const value => operation "Const" (Val.toJson value)
  | .load name => operation "Load" (.str name)
  | .declare name => operation "Declare" (.str name)
  | .store name => operation "Store" (.str name)
  | .pop => bareOperation "Pop"
  | .binary op => operation "Binary" (.str op.name)
  | .unary op => operation "Unary" (.str op.name)
  | .makeList n => operation "MakeList" (.nat n)
  | .makeClosure n => operation "MakeClosure" (.nat n)
  | .call function argc body => operation "Call"
      (.obj [("argc", .nat argc), ("body", .bool body), ("function", .str function)])
  | .jump n => operation "Jump" (.nat n)
  | .jumpIfFalse n => operation "JumpIfFalse" (.nat n)
  | .jumpIfFalseKeep n => operation "JumpIfFalseKeep" (.nat n)
  | .jumpIfTrueKeep n => operation "JumpIfTrueKeep" (.nat n)
  | .enterScope => bareOperation "EnterScope"
  | .exitScope => bareOperation "ExitScope"
  | .pushHandler n => operation "PushHandler" (.nat n)
  | .popHandler => bareOperation "PopHandler"
  | .throw => bareOperation "Throw"
  | .ret => bareOperation "Return"

end

def Closure.toJson (c : Closure Val) : Json := closureToJson c

def Program.toJson (p : Program Val) : Json := programToJson p

def scopeToJson (scope : Scope) : Json := .obj (Val.fieldsToJson scope)

def Outcome.toJson : Outcome → Json
  | .ok value => .obj [("Ok", value.toJson)]
  | .error failure => .obj [("Err", failure.toJson)]

/-! ## Reading values and code -/

/-- The instruction of this name that has no argument. -/
def bareInstr? : String → Option (Instr Val)
  | "Pop" => some .pop
  | "EnterScope" => some .enterScope
  | "ExitScope" => some .exitScope
  | "PopHandler" => some .popHandler
  | "Throw" => some .throw
  | "Return" => some .ret
  | _ => none

/-- Reads the argument of a call, which has its fields by name. -/
def callOfDocument? (d : Document) : Option (Instr Val) :=
  match d with
  | .obj _ => do
    let fields ← d.record? ["function", "argc", "body"] 3
    return .call (← fields.field? "function" Document.str?)
      (← fields.field? "argc" Document.nat?) (← fields.field? "body" Document.bool?)
  | _ => none

/-- The instruction of this name whose argument holds no value. -/
def plainInstr? (loose : Bool) (name : String) (arg : Document) : Option (Instr Val) :=
  match name with
  | "Load" => arg.str?.map .load
  | "Declare" => arg.str?.map .declare
  | "Store" => arg.str?.map .store
  | "Binary" => ((arg.choice? loose).bind BinaryOp.ofName?).map .binary
  | "Unary" => ((arg.choice? loose).bind UnaryOp.ofName?).map .unary
  | "MakeList" => arg.nat?.map .makeList
  | "MakeClosure" => arg.nat?.map .makeClosure
  | "Call" => callOfDocument? arg
  | "Jump" => arg.nat?.map .jump
  | "JumpIfFalse" => arg.nat?.map .jumpIfFalse
  | "JumpIfFalseKeep" => arg.nat?.map .jumpIfFalseKeep
  | "JumpIfTrueKeep" => arg.nat?.map .jumpIfTrueKeep
  | "PushHandler" => arg.nat?.map .pushHandler
  | _ => none

/-- The value of this kind whose contents hold no further value. -/
def plainVal? (kind : String) (contents : Document) : Option Val :=
  match kind with
  | "Bool" => contents.bool?.map .bool
  | "Num" => contents.float?.map .num
  | "Str" => contents.str?.map .str
  | "Error" => (Failure.ofDocument? contents).map .error
  | "Handle" => (Handle.ofDocument? contents).map .handle
  | _ => none

/-- Whether contents are missing or null, as those of a kind without contents must be. -/
def isEmptyContents {d : Document} : Option (Document.Part d) → Bool
  | none | some ⟨.null, _⟩ => true
  | _ => false

mutual

/-- Reads a value. -/
def valOf? (loose : Bool) (d : Document) : Option Val := do
  let (kind, contents) ← d.tagged? loose "t" "v"
  if kind = "Null" then
    if isEmptyContents contents then some .null else none
  else
    let ⟨v, _⟩ ← contents
    if kind = "List" then
      return .list (← (← v.items?).mapM fun ⟨x, _⟩ => valOf? loose x)
    else if kind = "Map" then
      return .map (← (← v.members?).mapM fun ⟨k, x, _⟩ => do return (k, ← valOf? loose x))
    else if kind = "Closure" then return .closure (← closureOf? loose v)
    else plainVal? kind v
termination_by sizeOf d

/-- Reads a closure. -/
def closureOf? (loose : Bool) (d : Document) : Option (Closure Val) := do
  let fields ← d.record? ["program", "chunk", "captured"] 3
  let ⟨p, _⟩ ← fields.part? "program"
  let program ← programOf? loose p
  let chunk ← fields.field? "chunk" Document.nat?
  let ⟨c, _⟩ ← fields.part? "captured"
  let captured ← (← c.members?).mapM fun ⟨k, x, _⟩ => do return (k, ← valOf? loose x)
  return { program, chunk, captured }
termination_by sizeOf d

/-- Reads a program. -/
def programOf? (loose : Bool) (d : Document) : Option (Program Val) := do
  let fields ← d.record? ["name", "chunks"] 2
  let name ← fields.field? "name" Document.str?
  let ⟨c, _⟩ ← fields.part? "chunks"
  return { name, chunks := ← (← c.items?).mapM fun ⟨x, _⟩ => chunkOf? loose x }
termination_by sizeOf d

/-- Reads a chunk. -/
def chunkOf? (loose : Bool) (d : Document) : Option (Chunk Val) := do
  let fields ← d.record? ["name", "code", "lines", "calls_steps"] 4
  let name ← fields.field? "name" Document.str?
  let ⟨c, _⟩ ← fields.part? "code"
  let code ← (← c.items?).mapM fun ⟨x, _⟩ => instrOf? loose x
  let lines ← fields.field? "lines" (·.list? Document.nat?)
  let callsSteps ← fields.field? "calls_steps" Document.bool?
  return { name, code, lines, callsSteps }
termination_by sizeOf d

/-- Reads an instruction. In an argument that is given by its name, names are taken loosely. -/
def instrOf? (loose : Bool) (d : Document) : Option (Instr Val) := do
  let (name, contents) ← d.tagged? loose "op" "arg"
  match bareInstr? name with
  | some instr => if isEmptyContents contents then some instr else none
  | none =>
    let ⟨arg, _⟩ ← contents
    let loose := loose || d.members?.isSome
    if name = "Const" then return .const (← valOf? loose arg)
    else plainInstr? loose name arg
termination_by sizeOf d

end

def Val.ofDocument? (d : Document) : Option Val := valOf? false d

def Closure.ofDocument? (d : Document) : Option (Closure Val) := closureOf? false d

def Program.ofDocument? (d : Document) : Option (Program Val) := programOf? false d

/-- Reads a scope, whose members are in key order. -/
def scopeOfDocument? (d : Document) : Option Scope := do
  (← d.members?).mapM fun member => do return (member.1, ← Val.ofDocument? member.2.val)

def Outcome.ofDocument? (d : Document) : Option Outcome :=
  match d with
  | .obj [(⟨"Ok", _⟩, value)] => (Val.ofDocument? value).map .ok
  | .obj [(⟨"Err", _⟩, failure)] => (Failure.ofDocument? failure).map .error
  | _ => none

/-! ## Machines -/

def Handler.toJson (h : Handler) : Json :=
  .obj [("catch_pc", .nat h.catchPc), ("scope_len", .nat h.scopeLen),
    ("stack_len", .nat h.stackLen)]

def Handler.ofDocument? (d : Document) : Option Handler := do
  let fields ← d.record? ["catch_pc", "stack_len", "scope_len"] 3
  return {
    catchPc := ← fields.field? "catch_pc" Document.nat?
    stackLen := ← fields.field? "stack_len" Document.nat?
    scopeLen := ← fields.field? "scope_len" Document.nat? }

def Phase.name : Phase → String
  | .ready => "Ready"
  | .awaitingStep => "AwaitingStep"
  | .done => "Done"

def Phase.ofName? : String → Option Phase
  | "Ready" => some .ready
  | "AwaitingStep" => some .awaitingStep
  | "Done" => some .done
  | _ => none

/-- **The saved form of a machine.** -/
def Machine.toJson (m : Machine) : Json :=
  .obj [("budget", .nat m.budget), ("chunk", .nat m.chunk),
    ("handlers", .arr (m.handlers.reverse.map Handler.toJson)), ("pc", .nat m.pc),
    ("program", m.program.toJson), ("scopes", .arr (m.scopes.reverse.map scopeToJson)),
    ("stack", .arr (Val.itemsToJson m.stack.reverse)), ("state", .str m.phase.name)]

/-- The fields of a machine, in order. -/
def Machine.fieldNames : List String :=
  ["program", "chunk", "pc", "stack", "scopes", "handlers", "state", "budget"]

def Machine.ofDocument? (d : Document) : Option Machine := do
  let fields ← d.record? Machine.fieldNames 8
  return {
    program := ← fields.field? "program" Program.ofDocument?
    chunk := ← fields.field? "chunk" Document.nat?
    pc := ← fields.field? "pc" Document.nat?
    stack := (← fields.field? "stack" (·.list? Val.ofDocument?)).reverse
    scopes := (← fields.field? "scopes" (·.list? scopeOfDocument?)).reverse
    handlers := (← fields.field? "handlers" (·.list? Handler.ofDocument?)).reverse
    phase := ← fields.field? "state" fun d => (d.choice? false).bind Phase.ofName?
    budget := ← fields.field? "budget" Document.nat? }

/-- **Reads a saved machine back.** -/
def Machine.ofJson? (json : Json) : Option Machine := Machine.ofDocument? (.ofJson json)

end Script

end DurableFlow
