/-
Sorting by a number, keeping the order of what has the same number.
-/
set_option autoImplicit false

namespace DurableFlow

variable {α : Type}

/-- Puts an entry into a sorted list, behind all that have the same number. -/
def insertByKey (key : α → Nat) (entry : α) : List α → List α
  | [] => [entry]
  | other :: rest =>
    if key entry < key other then entry :: other :: rest
    else other :: insertByKey key entry rest

/-- Sorts by a number. Entries of the same number stay in their order. -/
def sortByKey (key : α → Nat) (entries : List α) : List α :=
  entries.foldl (fun sorted entry => insertByKey key entry sorted) []

end DurableFlow
