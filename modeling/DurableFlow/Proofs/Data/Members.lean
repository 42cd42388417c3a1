/-
Deciding what holds of the members of a list or of an option.

A statement about every member is one about the values of a type as well, and where that
type can be searched as a whole, as the characters can, a search through all of it is a way
to decide the statement too. These instances go through the members only, and where they
are opened they are tried before any other.
-/
set_option autoImplicit false

namespace DurableFlow.Members

variable {α : Type} {p : α → Prop} [DecidablePred p]

scoped instance (priority := 2000) decidableForallMemList {members : List α} : Decidable (∀ a ∈ members, p a) :=
  List.decidableBAll p members

scoped instance (priority := 2000) decidableForallMemOption {member : Option α} : Decidable (∀ a ∈ member, p a) :=
  member.decidableForallMem

scoped instance (priority := 2000) decidableExistsMemOption {member : Option α} : Decidable (∃ a ∈ member, p a) :=
  member.decidableExistsMem

end DurableFlow.Members
