/-
Objects that are made of members, as they are read back.

Saved files are objects. Some members are left out when there is nothing to say, tables stand under names of
their own, and what is written has to be within the bounds of what the reader takes: words, plain names, and
not too many levels. Records and nodes say what their fields need, and the rest is here.
-/
import DurableFlow.Proofs.Json.RoundTrip
import DurableFlow.Proofs.Program.Saved

set_option autoImplicit false

namespace DurableFlow

open Text
open scoped Members

/-- What is bound in one of two tables, the first of them going before. -/
theorem Table.find?_append {κ α : Type} [Ord κ] (k : κ) (table table' : Table κ α) :
    Table.find? k (table ++ table') = (Table.find? k table).or (Table.find? k table') := by
  induction table with
  | nil => rfl
  | cons entry rest ih =>
    rw [List.cons_append, Table.find?, Table.find?]
    split
    · rfl
    · exact ih

namespace Json

variable {α : Type} {depth : Nat}

/-! ## Members that may be left out -/

/-- A member that may be left out is found where it was written. -/
theorem find?_optionalMember (key name : String) (f : α → Json) (value : Option α) :
    Table.find? key (optionalMember name f value) = if key = name then value.map f else none := by
  cases value with
  | none => exact (ite_self none).symm
  | some a => exact Table.find?_cons key name (f a) []

theorem names_optionalMember (name : String) (f : α → Json) (value : Option α) :
    ((optionalMember name f value).map Prod.fst).Sublist [name] := by
  cases value with
  | none => exact List.nil_sublist _
  | some a => exact List.Sublist.refl _

/-! ## What fits -/

instance (name : String) : Decidable (IsPlain name) :=
  inferInstanceAs (Decidable (∀ c ∈ name.toList, escapeChar c = [c]))

/-- A number as a name is plain. -/
theorem isPlain_toString (n : Nat) : IsPlain (toString n) := by
  intro c hc
  have hdigit : isDigit c = true := by
    refine isDigit_of_mem_digits (n := n) ?_
    rwa [← String.toList_ofList (l := Nat.toDigits 10 n)]
  have hrange : 48 ≤ c.toNat ∧ c.toNat ≤ 57 := by
    simpa [isDigit, Char.le_def, UInt32.le_iff_toNat_le] using hdigit
  have hall : ∀ k < 58, 48 ≤ k → escapeChar (Char.ofNat k) = [Char.ofNat k] := by decide
  have hplain := hall c.toNat (by omega) hrange.1
  rwa [Char.ofNat_toNat] at hplain

/-- Items fit when each of them does. -/
theorem fitsItems_iff {items : List Json} : FitsItems depth items ↔ ∀ item ∈ items, item.Fits depth := by
  induction items with
  | nil => simp [FitsItems]
  | cons item rest ih => rw [FitsItems, ih, List.forall_mem_cons]

theorem fitsMembers_iff {members : List (String × Json)} :
    FitsMembers depth members ↔ ∀ member ∈ members, IsPlain member.1 ∧ member.2.Fits depth := by
  induction members with
  | nil => simp [FitsMembers]
  | cons member rest ih => rw [FitsMembers, ih, List.forall_mem_cons, and_assoc]

namespace Fits

theorem arr {items : List Json} (h : ∀ item ∈ items, item.Fits depth) : (Json.arr items).Fits (depth + 1) := by
  rw [Fits]
  exact ⟨Nat.succ_pos depth, fitsItems_iff.mpr h⟩

theorem obj {members : List (String × Json)} (hnames : ∀ name ∈ members.map Prod.fst, IsPlain name)
    (hvalues : ∀ member ∈ members, member.2.Fits depth) : (Json.obj members).Fits (depth + 1) := by
  rw [Fits]
  refine ⟨Nat.succ_pos depth, fitsMembers_iff.mpr fun member hmem => ⟨?_, hvalues member hmem⟩⟩
  exact hnames member.1 (List.mem_map_of_mem hmem)

/-- **An object fits** when its names are plain and its members are less deep. -/
theorem object {members : List (String × Json)} (hnames : ∀ name ∈ members.map Prod.fst, IsPlain name)
    (hvalues : ∀ member ∈ members, member.2.Fits depth) : (Json.object members).Fits (depth + 1) := by
  refine obj (fun name hname => ?_) fun member hmem => hvalues member (Table.mem_ofEntries hmem)
  obtain ⟨member, hmem, rfl⟩ := List.mem_map.mp hname
  exact hnames member.1 (List.mem_map_of_mem (Table.mem_ofEntries hmem))

theorem str (s : String) : (Json.str s).Fits depth := by
  rw [Fits]
  trivial

theorem bool (b : Bool) : (Json.bool b).Fits depth := by
  rw [Fits]
  trivial

/-- A number fits when it is a word. -/
theorem nat {n : Nat} (h : n < wordBound) : (Json.nat n).Fits depth := by
  rw [wordBound, Nat.pow_eq] at h
  rw [Json.nat, Fits]
  exact ⟨by omega, by omega⟩

theorem nats {numbers : List Nat} (h : ∀ n ∈ numbers, n < wordBound) :
    (Json.arr (numbers.map .nat)).Fits (depth + 1) := by
  refine arr fun item hitem => ?_
  obtain ⟨n, hn, rfl⟩ := List.mem_map.mp hitem
  exact nat (h n hn)

theorem ofOption {f : α → Json} {value : Option α} (h : ∀ a, value = some a → (f a).Fits depth) :
    (Json.ofOption f value).Fits depth := by
  cases value with
  | none =>
    rw [Json.ofOption, Fits]
    trivial
  | some a => exact h a rfl

/-- A member that was left out fits anyway. -/
theorem optionalMember {name : String} {f : α → Json} {value : Option α}
    (h : ∀ a, value = some a → (f a).Fits depth) :
    ∀ member ∈ Json.optionalMember name f value, member.2.Fits depth := by
  cases value with
  | none => exact fun _ hno => absurd hno List.not_mem_nil
  | some a =>
    intro member hmem
    obtain rfl := List.mem_singleton.mp hmem
    exact h a rfl

/-- A table of numbers is written with numbers as names, which are plain. -/
theorem ofNumbered {f : α → Json} {table : Table Nat α} (h : ∀ entry ∈ table, (f entry.2).Fits depth) :
    (Json.ofNumbered f table).Fits (depth + 1) := by
  refine object (fun name hname => ?_) fun member hmem => ?_
  · rw [List.map_map] at hname
    obtain ⟨entry, _, rfl⟩ := List.mem_map.mp hname
    exact isPlain_toString entry.1
  · obtain ⟨entry, hentry, rfl⟩ := List.mem_map.mp hmem
    exact h entry hentry

theorem mapValues {f : α → Json} {table : Table String α} (hnames : ∀ name ∈ Table.keys table, IsPlain name)
    (h : ∀ entry ∈ table, (f entry.2).Fits depth) : (Json.obj (Table.mapValues f table)).Fits (depth + 1) := by
  refine obj (fun name hname => hnames name ?_) fun member hmem => ?_
  · rw [← Table.keys_mapValues f table]
    exact hname
  · obtain ⟨entry, hentry, rfl⟩ := List.mem_map.mp hmem
    exact h entry hentry

end Fits

end Json

namespace Document

variable {α : Type}

/-- **A table with names as keys is read back.** -/
theorem named?_mapValues {f : Document → Option α} {g : α → Json} {table : Table String α}
    (hsorted : Table.Sorted table) (hread : ∀ entry ∈ table, f (ofJson (g entry.2)) = some entry.2) :
    named? f (ofJson (.obj (Table.mapValues g table))) = some table := by
  have hback : ((Table.mapValues g table).mapM fun member => do
      return (← some member.1, ← f (ofJson member.2))) = some table := by
    refine mapM_eq_some fun entry hentry => ?_
    rw [hread entry hentry]
    rfl
  have hentries := entries?_ofJson (fun name => some name.text) f (Table.mapValues g table)
  rw [named?, table?, ← bind_assoc, hentries, hback]
  exact congrArg some (Table.ofEntries_of_sorted hsorted)

/-- A member that may be left out is read as what it was made from. -/
theorem Fields.Of.optional?_of_member {d : Document} {fields : Fields d} {names : List String}
    {members : List (String × Json)} {name : String} (h : fields.Of names members) (hname : name ∈ names)
    {f : Document → Option α} {g : α → Json} {value : Option α} (hfind : Table.find? name members = value.map g)
    (hread : ∀ a, value = some a → f (ofJson (g a)) = some a) (hnull : ∀ a, ofJson (g a) ≠ .null) :
    fields.optional? name f = some value := by
  rw [h.optional?_eq hname, hfind]
  cases value with
  | none => rfl
  | some a => exact option?_ofOption hread hnull

end Document

/-! ## Failures and times -/

theorem Failure.toJsonAll_eq (failures : List Failure) : Failure.toJsonAll failures = failures.map Failure.toJson := by
  induction failures with
  | nil => rw [Failure.toJsonAll, List.map_nil]
  | cons failure rest ih => rw [Failure.toJsonAll, ih, List.map_cons]

/-- A failure is never read as missing. -/
theorem Failure.ofJson_toJson_ne_null (failure : Failure) : Document.ofJson failure.toJson ≠ .null := by
  obtain ⟨code, message, _ | ⟨first, rest⟩⟩ := failure
  · rw [Failure.toJson]
    exact Document.ofJson_obj_ne_null _
  · rw [Failure.toJson]
    exact Document.ofJson_obj_ne_null _

/-- Whether the day of a time has a date. -/
def Text.Timestamp.IsDated (t : Timestamp) : Prop := Timestamp.isDay (t.millis.fdiv 86400000) = true

instance (t : Timestamp) : Decidable t.IsDated :=
  inferInstanceAs (Decidable (Timestamp.isDay (t.millis.fdiv 86400000) = true))

theorem History.timestampOfDocument?_ofJson {t : Timestamp} (h : t.IsDated) :
    History.timestampOfDocument? (Document.ofJson (.str t.text)) = some t := by
  rw [History.timestampOfDocument?, str?_ofJson, Option.bind_some, Timestamp.parse?_text h]

end DurableFlow
