/-
Finite maps as association lists in strictly increasing key order.

Every keyed collection of the library (variables in a scope, threads by id,
history nodes by id, files by path) is one of these. The order is part of the
meaning: wherever a collection is listed, shown or searched "from the first",
the answer is in key order, so the representation is the order itself and
nothing has to be sorted later.
-/
set_option autoImplicit false

namespace DurableFlow

/-- A finite map: its entries, in strictly increasing key order. -/
abbrev Table (κ α : Type) := List (κ × α)

namespace Table

variable {κ α β : Type} [Ord κ]

/-- Binds `key` to `value`, replacing an earlier binding of the same key. -/
def insert (key : κ) (value : α) : Table κ α → Table κ α
  | [] => [(key, value)]
  | (k, v) :: rest =>
    match compare key k with
    | .lt => (key, value) :: (k, v) :: rest
    | .eq => (key, value) :: rest
    | .gt => (k, v) :: insert key value rest

/-- The value bound to `key`. -/
def find? (key : κ) : Table κ α → Option α
  | [] => none
  | (k, v) :: rest =>
    match compare key k with
    | .eq => some v
    | _ => find? key rest

/-- Removes the binding of `key`, if there is one. -/
def erase (key : κ) : Table κ α → Table κ α
  | [] => []
  | (k, v) :: rest =>
    match compare key k with
    | .eq => rest
    | _ => (k, v) :: erase key rest

/-- Applies `f` to the value bound to `key`; without such a binding nothing changes. -/
def adjust (key : κ) (f : α → α) : Table κ α → Table κ α
  | [] => []
  | (k, v) :: rest =>
    match compare key k with
    | .eq => (k, f v) :: rest
    | _ => (k, v) :: adjust key f rest

/-- Whether `key` is bound. -/
def contains (key : κ) (table : Table κ α) : Bool :=
  (find? key table).isSome

/-- The keys in increasing order. -/
def keys (table : Table κ α) : List κ :=
  table.map Prod.fst

/-- The values in the order of their keys. -/
def values (table : Table κ α) : List α :=
  table.map Prod.snd

/-- Binds every entry in turn, so that the last binding of a key stays. -/
def insertAll (entries : List (κ × α)) (table : Table κ α) : Table κ α :=
  entries.foldl (fun acc entry => insert entry.1 entry.2 acc) table

/-- The map of a list of entries; the last binding of a key stays. -/
def ofEntries (entries : List (κ × α)) : Table κ α :=
  insertAll entries []

/-- Applies `f` to every value. -/
def mapValues (f : α → β) (table : Table κ α) : Table κ β :=
  table.map fun entry => (entry.1, f entry.2)

end Table

end DurableFlow
