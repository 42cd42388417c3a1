/-
Sets of characters.

A set is the list of its boundaries in increasing order: it begins at the first
number, ends before the second, begins again at the third, and so on. This is the
form in which the ranges of a Unicode property are kept.
-/
set_option autoImplicit false

namespace DurableFlow.Text

/-- Whether a number is in the set with the given boundaries. -/
def inSet : List Nat → Nat → Bool
  | [], _ => false
  | [start], n => start ≤ n
  | start :: stop :: rest, n => start ≤ n && (n < stop || inSet rest n)

end DurableFlow.Text
