/-
JSON values.

Every saved file and every saved program state is one of these. Objects are
tables, so their members are in key order; a number is an integer when it was
written as one that fits a 64-bit word, and a double otherwise, and readers that
want an integer refuse a double even when it is whole.
-/
import DurableFlow.Data.Table

set_option autoImplicit false

namespace DurableFlow

/-- A JSON number. -/
inductive Json.Number where
  | int (n : Int)
  | float (x : Float)
deriving Inhabited

/-- A number of either form, as a double. -/
def Json.Number.toFloat : Json.Number → Float
  | .float x => x
  | .int n => if 0 ≤ n then n.toNat.toUInt64.toFloat else -(-n).toNat.toUInt64.toFloat

/-- A JSON value; the members of an object are in key order. -/
inductive Json where
  | null
  | bool (b : Bool)
  | num (n : Json.Number)
  | str (s : String)
  | arr (items : List Json)
  | obj (members : List (String × Json))
deriving Inhabited

namespace Json

/-- An object from its members in any order; the last member of a name stays. -/
def object (members : List (String × Json)) : Json :=
  .obj (Table.ofEntries members)

def nat (n : Nat) : Json := .num (.int n)

/-- Largest natural number that a saved word can hold, plus one. -/
def wordBound : Nat := Nat.pow 2 64

/-- An optional value, absence being null. -/
def ofOption {α : Type} (f : α → Json) : Option α → Json
  | none => .null
  | some a => f a

/-- A member that is left out when there is no value. -/
def optionalMember {α : Type} (name : String) (f : α → Json) : Option α → List (String × Json)
  | none => []
  | some a => [(name, f a)]

/-! ## Taking values apart -/

/-- The member `name` of an object. -/
def member? (name : String) : Json → Option Json
  | .obj members => Table.find? name members
  | _ => none

def bool? : Json → Option Bool
  | .bool b => some b
  | _ => none

def str? : Json → Option String
  | .str s => some s
  | _ => none

/-- A natural number written as an integer. -/
def nat? : Json → Option Nat
  | .num (.int n) => if 0 ≤ n then some n.toNat else none
  | _ => none

def items? : Json → Option (List Json)
  | .arr items => some items
  | _ => none

def members? : Json → Option (List (String × Json))
  | .obj members => some members
  | _ => none

/-- A number of either form, as a double. -/
def float? : Json → Option Float
  | .num n => some n.toFloat
  | _ => none

end Json

end DurableFlow
