/-
Script values and the operators on them.

Only null and false are false. Equality is structural, with numbers compared as
numbers (a NaN differs from itself, the two zeros are equal). Adding to a string
joins texts; every other operator asks for operands of its kind and fails with a
`TypeError` that names the kinds it got.
-/
import DurableFlow.Failure
import DurableFlow.Data.Table
import DurableFlow.Number.Shortest
import DurableFlow.Script.Code

set_option autoImplicit false

namespace DurableFlow.Script

/-- A durable reference to an object that lives outside the script. -/
structure Handle where
  kind : String
  key : String
deriving DecidableEq, Inhabited

namespace Handle

def text (handle : Handle) : String := handle.kind ++ ":" ++ handle.key

/-- The order of handles: by kind, then by key. -/
def order (a b : Handle) : Ordering :=
  (compare a.kind b.kind).then (compare a.key b.key)

instance : Ord Handle := ⟨order⟩

/-- The handles of a list, each once, in order. -/
def sorted (handles : List Handle) : List Handle :=
  Table.keys (Table.ofEntries (handles.map fun handle => (handle, ())))

end Handle

/-- A script value; the fields of a map are in key order. -/
inductive Val where
  | null
  | bool (b : Bool)
  | num (x : Float)
  | str (s : String)
  | list (items : List Val)
  | map (fields : List (String × Val))
  | closure (c : Closure Val)
  | error (failure : Failure)
  | handle (h : Handle)

instance : Inhabited Val := ⟨.null⟩

/-- The variables of one scope. -/
abbrev Scope := Table String Val

/-- How a computation ended: with a value or with a failure. -/
abbrev Outcome := Except Failure Val

namespace Val

def typeName : Val → String
  | .null => "null"
  | .bool _ => "bool"
  | .num _ => "number"
  | .str _ => "string"
  | .list _ => "list"
  | .map _ => "map"
  | .closure _ => "closure"
  | .error _ => "error"
  | .handle _ => "handle"

/-- Only null and false are not true. -/
def isTruthy : Val → Bool
  | .null | .bool false => false
  | _ => true

def str? : Val → Option String
  | .str s => some s
  | _ => none

def num? : Val → Option Float
  | .num x => some x
  | _ => none

def closure? : Val → Option (Closure Val)
  | .closure c => some c
  | _ => none

/-! ## Text -/

/-- The text of a number: a whole number below 10^15 as an integer, so without the sign of
a zero, and any other number with all its places. -/
def numberText (x : Float) : String :=
  match Number.truncate? x with
  | some n =>
    if Number.isWhole x && n.natAbs < Nat.pow 10 15 then toString n else Number.plainText x
  | none => Number.plainText x

mutual

/-- The text of a value. -/
def text : Val → String
  | .null => "null"
  | .bool true => "true"
  | .bool false => "false"
  | .num x => numberText x
  | .str s => s
  | .list items => "[" ++ textItems true items ++ "]"
  | .map fields => "\x7b" ++ textFields true fields ++ "\x7d"
  | .closure c => "<" ++ c.name ++ ">"
  | .error failure => failure.message
  | .handle h => "<" ++ h.text ++ ">"

/-- The texts of list items, with commas between them. -/
def textItems (first : Bool) : List Val → String
  | [] => ""
  | item :: rest => (if first then "" else ", ") ++ text item ++ textItems false rest

/-- The texts of map fields, with commas between them. -/
def textFields (first : Bool) : List (String × Val) → String
  | [] => ""
  | (name, value) :: rest =>
    (if first then "" else ", ") ++ name ++ ": " ++ text value ++ textFields false rest

end

/-- The failure that throwing a value raises. -/
def toFailure : Val → Failure
  | .error failure => failure
  | value => { code := Failure.Code.scriptError, message := value.text }

/-! ## Handles -/

mutual

/-- Every handle reachable from a value: through lists, maps and captured variables. -/
def handles : Val → List Handle
  | .handle h => [h]
  | .list items => handlesItems items
  | .map fields => handlesFields fields
  | .closure ⟨_, _, captured⟩ => handlesFields captured
  | _ => []

/-- Every handle reachable from the items of a list. -/
def handlesItems : List Val → List Handle
  | [] => []
  | item :: rest => handles item ++ handlesItems rest

/-- Every handle reachable from named values. -/
def handlesFields : List (String × Val) → List Handle
  | [] => []
  | (_, value) :: rest => handles value ++ handlesFields rest

end

/-! ## Equality -/

mutual

/-- Structural equality, with numbers compared as numbers. -/
def same : Val → Val → Bool
  | .null, .null => true
  | .bool a, .bool b => a == b
  | .num a, .num b => a == b
  | .str a, .str b => a == b
  | .list a, .list b => sameItems a b
  | .map a, .map b => sameFields a b
  | .closure a, .closure b => sameClosure a b
  | .error a, .error b => a == b
  | .handle a, .handle b => a == b
  | _, _ => false

def sameItems : List Val → List Val → Bool
  | [], [] => true
  | a :: as, b :: bs => same a b && sameItems as bs
  | _, _ => false

def sameFields : List (String × Val) → List (String × Val) → Bool
  | [], [] => true
  | (k, a) :: as, (l, b) :: bs => k == l && same a b && sameFields as bs
  | _, _ => false

def sameClosure : Closure Val → Closure Val → Bool
  | ⟨p, chunk, captured⟩, ⟨p', chunk', captured'⟩ =>
    sameProgram p p' && chunk == chunk' && sameFields captured captured'

def sameProgram : Program Val → Program Val → Bool
  | ⟨name, chunks⟩, ⟨name', chunks'⟩ => name == name' && sameChunks chunks chunks'

def sameChunks : List (Chunk Val) → List (Chunk Val) → Bool
  | [], [] => true
  | a :: as, b :: bs => sameChunk a b && sameChunks as bs
  | _, _ => false

def sameChunk : Chunk Val → Chunk Val → Bool
  | ⟨name, code, lines, calls⟩, ⟨name', code', lines', calls'⟩ =>
    name == name' && sameCode code code' && lines == lines' && calls == calls'

def sameCode : List (Instr Val) → List (Instr Val) → Bool
  | [], [] => true
  | a :: as, b :: bs => sameInstr a b && sameCode as bs
  | _, _ => false

def sameInstr : Instr Val → Instr Val → Bool
  | .const a, .const b => same a b
  | .load a, .load b => a == b
  | .declare a, .declare b => a == b
  | .store a, .store b => a == b
  | .pop, .pop => true
  | .binary a, .binary b => a == b
  | .unary a, .unary b => a == b
  | .makeList a, .makeList b => a == b
  | .makeClosure a, .makeClosure b => a == b
  | .call f n b, .call f' n' b' => f == f' && n == n' && b == b'
  | .jump a, .jump b => a == b
  | .jumpIfFalse a, .jumpIfFalse b => a == b
  | .jumpIfFalseKeep a, .jumpIfFalseKeep b => a == b
  | .jumpIfTrueKeep a, .jumpIfTrueKeep b => a == b
  | .enterScope, .enterScope => true
  | .exitScope, .exitScope => true
  | .pushHandler a, .pushHandler b => a == b
  | .popHandler, .popHandler => true
  | .throw, .throw => true
  | .ret, .ret => true
  | _, _ => false

end

instance : BEq Val := ⟨same⟩

/-! ## Operators -/

def typeError (op : BinaryOp) (left right : Val) : Failure :=
  { code := Failure.Code.typeError
    message := "cannot apply '" ++ op.symbol ++ "' to " ++ left.typeName ++ " and "
      ++ right.typeName }

/-- The order of two numbers or of two strings; a NaN has none. -/
def order? : Val → Val → Option Ordering
  | .num a, .num b =>
    if a < b then some .lt else if b < a then some .gt else if a == b then some .eq else none
  | .str a, .str b => some (compare a b)
  | _, _ => none

/-- Whether a comparison holds of two operands in this order. -/
def holds (op : BinaryOp) (order : Ordering) : Bool :=
  match op with
  | .lt => order.isLT
  | .lte => order.isLE
  | .gt => order.isGT
  | _ => order.isGE

def add (left right : Val) : Outcome :=
  match left, right with
  | .num a, .num b => .ok (.num (a + b))
  | .str _, _ | _, .str _ => .ok (.str (left.text ++ right.text))
  | .list a, .list b => .ok (.list (a ++ b))
  | _, _ => .error (typeError .add left right)

/-- Subtraction, multiplication, division and remainder of numbers. -/
def arithmetic (op : BinaryOp) (a b : Float) : Outcome :=
  match op with
  | .sub => .ok (.num (a - b))
  | .mul => .ok (.num (a * b))
  | op =>
    if b == 0.0 then
      .error { code := Failure.Code.divisionByZero, message := "division by zero" }
    else if op = .div then .ok (.num (a / b))
    else .ok (.num (Number.remainder a b))

/-- Applies a binary operator to two values. The operators that may leave their right operand
out are jumps in compiled code and are refused here. -/
def binary (op : BinaryOp) (left right : Val) : Outcome :=
  match op with
  | .eq => .ok (.bool (left == right))
  | .ne => .ok (.bool (left != right))
  | .add => add left right
  | .sub | .mul | .div | .mod =>
    match left, right with
    | .num a, .num b => arithmetic op a b
    | _, _ => .error (typeError op left right)
  | .lt | .lte | .gt | .gte =>
    match order? left right with
    | some order => .ok (.bool (holds op order))
    | none => .error (typeError op left right)
  | .and | .or => .error (.internal "short-circuit operator evaluated eagerly")

def unary (op : UnaryOp) (operand : Val) : Outcome :=
  match op, operand with
  | .not, operand => .ok (.bool !operand.isTruthy)
  | .neg, .num x => .ok (.num (-x))
  | .neg, operand =>
    .error { code := Failure.Code.typeError, message := "cannot negate " ++ operand.typeName }

end Val

end DurableFlow.Script
