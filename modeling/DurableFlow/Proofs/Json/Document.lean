/-
Reading back what was written.

Saved files are read as documents, field by field. A value that was written by this
library has its members in key order and each of them once, so the readers of records
find each field where its name says, and a value that is read as such is the value
that was written.
-/
import DurableFlow.Json.Document
import DurableFlow.Proofs.Data.Table

set_option autoImplicit false

namespace DurableFlow

/-! ## Values as values -/

mutual

/-- The members of all objects are in key order. -/
def Json.Ordered : Json → Prop
  | .arr items => Json.OrderedItems items
  | .obj members => Table.Sorted members ∧ Json.OrderedMembers members
  | _ => True

def Json.OrderedItems : List Json → Prop
  | [] => True
  | item :: rest => item.Ordered ∧ Json.OrderedItems rest

def Json.OrderedMembers : List (String × Json) → Prop
  | [] => True
  | (_, value) :: rest => value.Ordered ∧ Json.OrderedMembers rest

end

theorem Json.orderedItems_iff {items : List Json} :
    Json.OrderedItems items ↔ ∀ item ∈ items, item.Ordered := by
  induction items with
  | nil => simp [Json.OrderedItems]
  | cons item rest ih => rw [Json.OrderedItems, ih, List.forall_mem_cons]

theorem Json.orderedMembers_iff {members : List (String × Json)} :
    Json.OrderedMembers members ↔ ∀ member ∈ members, member.2.Ordered := by
  induction members with
  | nil => simp [Json.OrderedMembers]
  | cons member rest ih => rw [Json.OrderedMembers, ih, List.forall_mem_cons]

/-- An object is ordered whose names are in order and whose values are ordered. -/
theorem Json.Ordered.obj {members : List (String × Json)}
    (hkeys : (members.map Prod.fst).Pairwise fun a b => compare a b = .lt)
    (hvalues : ∀ member ∈ members, member.2.Ordered) : (Json.obj members).Ordered := by
  rw [Json.Ordered, Json.orderedMembers_iff]
  exact ⟨Table.sorted_iff_keys.mpr hkeys, hvalues⟩

theorem Json.Ordered.arr {items : List Json} (h : ∀ item ∈ items, item.Ordered) :
    (Json.arr items).Ordered := by
  rw [Json.Ordered]
  exact Json.orderedItems_iff.mpr h

/-- A number has no members that could be out of order. -/
theorem Json.Ordered.nat (n : Nat) : (Json.nat n).Ordered := by
  simp [Json.nat, Json.Ordered]

namespace Document

mutual

/-- **A value is read back as it was written.** -/
theorem json?_ofJson : ∀ (j : Json), j.Ordered → json? (ofJson j) = some j
  | .null, _ => by rw [ofJson, json?]
  | .bool b, _ => by rw [ofJson, json?]
  | .num n, _ => by rw [ofJson, json?]
  | .str s, _ => by rw [ofJson, json?]
  | .arr items, h => by
    rw [Json.Ordered] at h
    rw [ofJson, json?, jsonItems?_ofItems items h]
    rfl
  | .obj members, h => by
    rw [Json.Ordered] at h
    rw [ofJson, json?, jsonMembers?_ofMembers members [] (by simpa using h.1) h.2]
    rfl

/-- Items are read back one by one. -/
theorem jsonItems?_ofItems :
    ∀ (items : List Json), Json.OrderedItems items → jsonItems? (ofItems items) = some items
  | [], _ => by rw [ofItems, jsonItems?]
  | item :: rest, h => by
    rw [Json.OrderedItems] at h
    rw [ofItems, jsonItems?, json?_ofJson item h.1, jsonItems?_ofItems rest h.2]
    rfl

/-- Members are collected in the order in which they were written. The accumulator holds those that were
read, so the members behind it have to come later in the order. -/
theorem jsonMembers?_ofMembers :
    ∀ (members acc : List (String × Json)), Table.Sorted (acc ++ members) →
      Json.OrderedMembers members → jsonMembers? acc (ofMembers members) = some (acc ++ members)
  | [], acc, _, _ => by rw [ofMembers, jsonMembers?, List.append_nil]
  | (name, value) :: rest, acc, hsorted, h => by
    rw [Json.OrderedMembers] at h
    have hlast : Table.insert name value acc = acc ++ [(name, value)] := by
      refine Table.insert_of_gt value fun entry hmem => ?_
      exact (List.pairwise_append.mp hsorted).2.2 entry hmem _ List.mem_cons_self
    rw [ofMembers, jsonMembers?, json?_ofJson value h.1]
    show jsonMembers? (Table.insert name value acc) (ofMembers rest) = _
    rw [hlast, jsonMembers?_ofMembers rest _ (by simpa using hsorted) h.2]
    simp

end

/-! ## Parts -/

theorem ofItems_eq (items : List Json) : ofItems items = items.map ofJson := by
  induction items with
  | nil => rw [ofItems, List.map_nil]
  | cons item rest ih => rw [ofItems, ih, List.map_cons]

theorem ofMembers_eq (members : List (String × Json)) :
    ofMembers members = members.map fun member => (⟨member.1, true⟩, ofJson member.2) := by
  induction members with
  | nil => rw [ofMembers, List.map_nil]
  | cons member rest ih => rw [ofMembers, ih, List.map_cons]

/-- The parts that a list is taken apart into are its items. -/
theorem items?_arr (items : List Document) :
    ∃ parts, (Document.arr items).items? = some parts ∧ parts.map Subtype.val = items := by
  refine ⟨_, rfl, ?_⟩
  rw [List.map_map]
  exact List.attach_map_subtype_val items

/-- The parts that an object is taken apart into are its members, escapes or not. -/
theorem members?_obj (members : List (Name × Document)) :
    ∃ parts, (Document.obj members).members? = some parts ∧
      parts.map (fun part => (part.1, part.2.val)) =
        members.map fun member => (member.1.text, member.2) := by
  refine ⟨_, rfl, ?_⟩
  rw [List.map_map, List.map_map]
  have hval := List.attach_map_subtype_val members
  conv_rhs => rw [← hval]
  rw [List.map_map]
  rfl

/-- Reading the parts of an array with a reader is reading its items. -/
theorem mapM_parts {α : Type} {d : Document} {parts : List (Part d)} {items : List Document}
    (h : parts.map Subtype.val = items) (f : Document → Option α) :
    (parts.mapM fun part => f part.val) = items.mapM f := by
  rw [← h, List.mapM_map]
  rfl

/-! ## Records -/

/-- **The fields of a record are those of an object**: each is found under its name. -/
structure Fields.Of {d : Document} (fields : Fields d) (names : List String)
    (members : List (String × Json)) : Prop where
  part : ∀ name ∈ names, (fields.part? name).map Subtype.val =
    (Table.find? name members).map ofJson

/-- Leaving out other names does not lose a member. -/
theorem find?_filter_of_mem {α : Type} {names : List String} {name : String}
    (hname : name ∈ names) (members : List (String × α)) :
    Table.find? name (members.filter fun member => names.contains member.1) =
      Table.find? name members := by
  induction members with
  | nil => rfl
  | cons member rest ih =>
    obtain ⟨key, value⟩ := member
    by_cases hkey : name = key
    · have hcontains : names.contains key = true := by
        rw [← hkey]
        simpa using hname
      rw [List.filter_cons, if_pos hcontains, Table.find?_cons, Table.find?_cons, if_pos hkey,
        if_pos hkey]
    · rw [Table.find?_cons, if_neg hkey, List.filter_cons]
      split
      · rw [Table.find?_cons, if_neg hkey]
        exact ih
      · exact ih

/-- **An object without repeated names is read as a record.** -/
theorem record?_ofJson (names : List String) (least : Nat) {members : List (String × Json)}
    (hnodup : (members.map Prod.fst).Nodup) :
    ∃ fields : Fields (ofJson (.obj members)),
      record? names least (ofJson (.obj members)) = some fields ∧ fields.Of names members := by
  obtain ⟨parts, hparts, hval⟩ := members?_obj (ofMembers members)
  have htexts : (ofMembers members).map (fun member => (member.1.text, member.2)) =
      members.map fun member => (member.1, ofJson member.2) := by
    rw [ofMembers_eq, List.map_map]
    rfl
  have hval := hval.trans htexts
  have hkeys : parts.map Prod.fst = members.map Prod.fst := by
    have hfst := congrArg (List.map Prod.fst) hval
    rw [List.map_map, List.map_map] at hfst
    exact hfst
  have hknown : ((parts.filter fun member => names.contains member.1).map Prod.fst).Nodup := by
    refine List.Nodup.sublist (List.filter_sublist.map Prod.fst) ?_
    rw [hkeys]
    exact hnodup
  rw [ofJson]
  refine ⟨parts.filter fun member => names.contains member.1, ?_, ⟨fun name hname => ?_⟩⟩
  · rw [record?, hparts]
    exact if_pos hknown
  · rw [Fields.part?, find?_filter_of_mem hname, ← Table.find?_mapValues,
      ← Table.find?_mapValues ofJson]
    exact congrArg (Table.find? name) hval

namespace Fields.Of

variable {α : Type} {d : Document} {fields : Fields d} {names : List String}
  {members : List (String × Json)} {name : String} {value : Json}

theorem part?_eq (h : fields.Of names members) (name : String) (hname : name ∈ names)
    (hfind : Table.find? name members = some value) :
    ∃ hsize, fields.part? name = some ⟨ofJson value, hsize⟩ := by
  have hpart := h.part name hname
  rw [hfind, Option.map_some] at hpart
  obtain ⟨part, heq, hval⟩ := Option.map_eq_some_iff.mp hpart
  exact ⟨hval ▸ part.property, by rw [heq]; congr; exact Subtype.ext hval⟩

/-- **A field is read from the member of its name**, and missing where there is none. -/
theorem field?_eq (h : fields.Of names members) (hname : name ∈ names)
    (f : Document → Option α) :
    fields.field? name f = (Table.find? name members).bind fun value => f (ofJson value) := by
  cases hfind : Table.find? name members with
  | none =>
    have hpart := h.part name hname
    rw [hfind, Option.map_none, Option.map_eq_none_iff] at hpart
    rw [Fields.field?, hpart]
    rfl
  | some value =>
    obtain ⟨hsize, hpart⟩ := h.part?_eq name hname hfind
    rw [Fields.field?, hpart]
    rfl

/-- A field with a default is the default where there is no member. -/
theorem fieldD?_eq (h : fields.Of names members) (hname : name ∈ names)
    (f : Document → Option α) (fallback : α) :
    fields.fieldD? name f fallback =
      ((Table.find? name members).map fun value => f (ofJson value)).getD (some fallback) := by
  cases hfind : Table.find? name members with
  | none =>
    have hpart := h.part name hname
    rw [hfind, Option.map_none, Option.map_eq_none_iff] at hpart
    rw [Fields.fieldD?, hpart]
    rfl
  | some value =>
    obtain ⟨hsize, hpart⟩ := h.part?_eq name hname hfind
    rw [Fields.fieldD?, hpart]
    rfl

/-- An optional field is absent where there is no member, and may be null where there is one. -/
theorem optional?_eq (h : fields.Of names members) (hname : name ∈ names)
    (f : Document → Option α) :
    fields.optional? name f =
      ((Table.find? name members).map fun value => option? f (ofJson value)).getD (some none) :=
  h.fieldD?_eq hname _ _

end Fields.Of

end Document

end DurableFlow
