/-
JSON documents: values as they are written.

A text may hold more than a reader asks for. A document keeps the members of an
object in the order of the text, repeated ones included, and keeps a place for
what is well formed and has no value: a reader of a record passes over members it
does not know, whatever is in them, and refuses a field that is given twice. As a
value, a document has to be usable throughout, and of members with one name the
last one stays.

Records have two forms: an object with the fields by name, and an array with the
fields by place. What comes in several kinds also has two: an object in which one
member names the kind, and an array that starts with the name.
-/
import DurableFlow.Json.Basic

set_option autoImplicit false

namespace DurableFlow

/-- The name of a member as it is written. A number as a name is written without escapes. -/
structure Document.Name where
  text : String
  plain : Bool := true
deriving DecidableEq, Inhabited

/-- A JSON value as it is written. -/
inductive Document where
  | null
  | bool (b : Bool)
  | num (n : Json.Number)
  | str (s : String)
  | arr (items : List Document)
  /-- The members in the order of the text. -/
  | obj (members : List (Document.Name × Document))
  /-- Something well formed without a value: a number beyond the largest double, a string with
  half of a surrogate pair, an object with such a name, or what is nested too deep. -/
  | unusable
deriving Inhabited

namespace Document

/-! ## Documents and values -/

mutual

/-- A value as a document. -/
def ofJson : Json → Document
  | .null => .null
  | .bool b => .bool b
  | .num n => .num n
  | .str s => .str s
  | .arr items => .arr (ofItems items)
  | .obj members => .obj (ofMembers members)

def ofItems : List Json → List Document
  | [] => []
  | item :: rest => ofJson item :: ofItems rest

def ofMembers : List (String × Json) → List (Name × Document)
  | [] => []
  | (name, value) :: rest => (⟨name, true⟩, ofJson value) :: ofMembers rest

end

mutual

/-- **The value of a document**, if all of it is usable. -/
def json? : Document → Option Json
  | .null => some .null
  | .bool b => some (.bool b)
  | .num n => some (.num n)
  | .str s => some (.str s)
  | .arr items => (jsonItems? items).map .arr
  | .obj members => (jsonMembers? [] members).map .obj
  | .unusable => none

def jsonItems? : List Document → Option (List Json)
  | [] => some []
  | item :: rest => do
    let value ← json? item
    return value :: (← jsonItems? rest)

/-- The values of members; the last member of a name stays. -/
def jsonMembers? (acc : Table String Json) :
    List (Name × Document) → Option (Table String Json)
  | [] => some acc
  | (name, member) :: rest => do
    let value ← json? member
    jsonMembers? (Table.insert name.text value acc) rest

end

/-! ## Single values -/

def bool? : Document → Option Bool
  | .bool b => some b
  | _ => none

def str? : Document → Option String
  | .str s => some s
  | _ => none

/-- A natural number written as an integer. -/
def nat? : Document → Option Nat
  | .num (.int n) => if 0 ≤ n then some n.toNat else none
  | _ => none

/-- A number of either form, as a double. -/
def float? : Document → Option Float
  | .num n => some n.toFloat
  | _ => none

/-- One of several names: a string, or an object whose only member has the name and is null. Where
names are taken loosely, an empty object may stand for the null. -/
def choice? (loose : Bool) : Document → Option String
  | .str s => some s
  | .obj [(name, .null)] => some name.text
  | .obj [(name, .obj [])] => if loose then some name.text else none
  | _ => none

/-- Reads a value that may be null with `f`. -/
def option? {α : Type} (f : Document → Option α) : Document → Option (Option α)
  | .null => some none
  | d => (f d).map some

/-! ## Parts -/

/-- A part of a document, known to be smaller. -/
abbrev Part (d : Document) := { part : Document // sizeOf part < sizeOf d }

/-- The fields of a record by their names. -/
abbrev Fields (d : Document) := List (String × Part d)

/-- The items of an array. -/
def items? (d : Document) : Option (List (Part d)) :=
  match d with
  | .arr items => some <| items.attach.map fun ⟨v, h⟩ =>
      ⟨v, by have := List.sizeOf_lt_of_mem h; simp; omega⟩
  | _ => none

/-- The members of an object with their names as they are written. -/
def entries? (d : Document) : Option (List (Name × Part d)) :=
  match d with
  | .obj members => some <| members.attach.map fun ⟨(k, v), h⟩ =>
      (k, ⟨v, by have := List.sizeOf_lt_of_mem h; simp at this ⊢; omega⟩)
  | _ => none

/-- The members of an object. -/
def members? (d : Document) : Option (Fields d) :=
  d.entries?.map fun entries => entries.map fun entry => (entry.1.text, entry.2)

/-- Reads every item of an array with `f`. -/
def list? {α : Type} (f : Document → Option α) (d : Document) : Option (List α) := do
  (← d.items?).mapM fun item => f item.val

/-- Reads the members of an object, names with `key` and values with `f`; the last member of a
name stays. -/
def table? {κ α : Type} [Ord κ] (key : Name → Option κ) (f : Document → Option α)
    (d : Document) : Option (Table κ α) := do
  let entries ← (← d.entries?).mapM fun entry => do
    return (← key entry.1, ← f entry.2.val)
  return Table.ofEntries entries

/-- Reads the members of an object whose names can be any. -/
def named? {α : Type} (f : Document → Option α) (d : Document) : Option (Table String α) :=
  d.table? (fun name => some name.text) f

/-! ## Records -/

/-- **The fields of a record.** In an object each known name stands at most once and other
members are passed over; in an array the fields stand in order, at least so many of them. -/
def record? (names : List String) (least : Nat) (d : Document) : Option (Fields d) :=
  match d.members?, d.items? with
  | some members, _ =>
    let known := members.filter fun member => names.contains member.1
    if (known.map Prod.fst).Nodup then some known else none
  | none, some items =>
    if least ≤ items.length ∧ items.length ≤ names.length then some (names.zip items) else none
  | none, none => none

namespace Fields

variable {α : Type} {d : Document}

/-- A field as a part of its record. -/
def part? (fields : Fields d) (name : String) : Option (Part d) := Table.find? name fields

/-- Reads a field that has to be there. -/
def field? (fields : Fields d) (name : String) (f : Document → Option α) : Option α := do
  f (← fields.part? name).val

/-- Reads a field that may be missing, in which case it has the given value. -/
def fieldD? (fields : Fields d) (name : String) (f : Document → Option α) (fallback : α) :
    Option α :=
  match fields.part? name with
  | none => some fallback
  | some part => f part.val

/-- Reads a field that may be missing or null. -/
def optional? (fields : Fields d) (name : String) (f : Document → Option α) :
    Option (Option α) :=
  fields.fieldD? name (option? f) none

end Fields

/-! ## Kinds -/

/-- The kind of something whose contents are kept apart from it, and the contents. -/
def tagged? (loose : Bool) (tag contents : String) (d : Document) :
    Option (String × Option (Part d)) := do
  let fields ← d.record? [tag, contents] 2
  return (← fields.field? tag (choice? loose), fields.part? contents)

/-- The kind of something that has its fields beside it, and a document of these fields. All of
it has to be usable. -/
def variant? (tag : String) (d : Document) : Option (String × Document) :=
  if d.json?.isNone then none
  else
    match d with
    | .obj members =>
      match members.filter fun member => member.1.text == tag with
      | [(_, .str kind)] => some (kind, .obj (members.filter fun member => member.1.text != tag))
      | _ => none
    | .arr (.str kind :: rest) => some (kind, .arr rest)
    | _ => none

/-- Whether these can be the fields of a kind that has none. -/
def hasNoFields : Document → Bool
  | .obj _ => true
  | .arr items => items.isEmpty
  | _ => false

end Document

end DurableFlow
