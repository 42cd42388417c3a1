/-
The laws of finite maps.

Looking up is the one way in which a map is observed, so each operation has one law
that says what is found afterwards. Binding, changing and mapping obey theirs on any
list of entries. Removing takes out one entry only, and what it says about the key
it removes needs the order: in a list in key order no key occurs twice.
-/
import Mathlib.Data.List.Forall2
import DurableFlow.Data.Table

set_option autoImplicit false

namespace DurableFlow.Table

variable {κ α β : Type} [Ord κ]

/-- The entries are in strictly increasing key order. -/
def Sorted (table : Table κ α) : Prop :=
  table.Pairwise fun a b => compare a.1 b.1 = .lt

theorem Sorted.nil : Sorted ([] : Table κ α) := List.Pairwise.nil

/-! ## Looking up -/

section Lookup

variable [Std.LawfulEqOrd κ] [DecidableEq κ]

theorem find?_cons (key k : κ) (v : α) (rest : Table κ α) :
    find? key ((k, v) :: rest) = if key = k then some v else find? key rest := by
  rw [find?]
  by_cases h : key = k
  · rw [if_pos h, Std.LawfulEqOrd.compare_eq_iff_eq.mpr h]
  · rw [if_neg h]
    split
    · next heq => exact absurd (Std.LawfulEqOrd.eq_of_compare heq) h
    · rfl

theorem find?_insert (key k : κ) (value : α) (table : Table κ α) :
    find? k (insert key value table) = if k = key then some value else find? k table := by
  induction table with
  | nil => exact find?_cons k key value []
  | cons entry rest ih =>
    obtain ⟨k', v'⟩ := entry
    rw [insert]
    split
    · exact find?_cons k key value _
    · next heq =>
      -- the entry that is replaced has the same key
      have hkey := Std.LawfulEqOrd.eq_of_compare heq
      subst hkey
      rw [find?_cons, find?_cons]
      split <;> rfl
    · next hgt =>
      rw [find?_cons, find?_cons, ih]
      by_cases hk : k = k'
      · have hne : k ≠ key := by
          rintro rfl
          rw [hk, Std.ReflOrd.compare_self] at hgt
          cases hgt
        rw [if_pos hk, if_pos hk, if_neg hne]
      · rw [if_neg hk, if_neg hk]

theorem find?_insert_self (key : κ) (value : α) (table : Table κ α) :
    find? key (insert key value table) = some value := by
  rw [find?_insert, if_pos rfl]

theorem find?_insert_of_ne {key k : κ} (h : k ≠ key) (value : α) (table : Table κ α) :
    find? k (insert key value table) = find? k table := by
  rw [find?_insert, if_neg h]

theorem find?_adjust (key k : κ) (f : α → α) (table : Table κ α) :
    find? k (adjust key f table) = if k = key then (find? k table).map f else find? k table := by
  induction table with
  | nil => rw [adjust, find?, Option.map_none, ite_self]
  | cons entry rest ih =>
    obtain ⟨k', v'⟩ := entry
    rw [adjust]
    split
    · next heq =>
      have hkey := Std.LawfulEqOrd.eq_of_compare heq
      subst hkey
      rw [find?_cons, find?_cons]
      split <;> rfl
    · next hne =>
      rw [find?_cons, find?_cons, ih]
      by_cases hk : k = k'
      · have hkey : k ≠ key := by
          rintro rfl
          exact hne (Std.LawfulEqOrd.compare_eq_iff_eq.mpr hk)
        rw [if_pos hk, if_pos hk, if_neg hkey]
      · rw [if_neg hk, if_neg hk]

/-- What is removed is not looked for under another key. -/
theorem find?_erase_of_ne {key k : κ} (h : k ≠ key) (table : Table κ α) :
    find? k (erase key table) = find? k table := by
  induction table with
  | nil => rfl
  | cons entry rest ih =>
    rw [erase]
    split
    · next heq =>
      rw [find?_cons, if_neg fun hk => h (hk.trans (Std.LawfulEqOrd.eq_of_compare heq).symm)]
    · rw [find?_cons, find?_cons, ih]

theorem find?_mapValues (f : α → β) (k : κ) (table : Table κ α) :
    find? k (mapValues f table) = (find? k table).map f := by
  induction table with
  | nil => rfl
  | cons entry rest ih =>
    obtain ⟨k', v'⟩ := entry
    rw [mapValues, List.map_cons, find?_cons, find?_cons, ← mapValues, ih]
    split <;> rfl

theorem mem_keys {k : κ} {table : Table κ α} : k ∈ keys table ↔ (find? k table).isSome := by
  induction table with
  | nil => simp [keys, find?]
  | cons entry rest ih =>
    obtain ⟨k', v'⟩ := entry
    rw [find?_cons, keys, List.map_cons, List.mem_cons, ← keys, ih]
    by_cases hk : k = k'
    · rw [if_pos hk]
      exact ⟨fun _ => rfl, fun _ => .inl hk⟩
    · rw [if_neg hk]
      exact ⟨fun h => h.resolve_left hk, .inr⟩

theorem mem_of_find? {k : κ} {v : α} {table : Table κ α} (h : find? k table = some v) :
    (k, v) ∈ table := by
  induction table with
  | nil => cases h
  | cons entry rest ih =>
    obtain ⟨k', v'⟩ := entry
    rw [find?_cons] at h
    by_cases hk : k = k'
    · rw [if_pos hk] at h
      cases h
      rw [hk]
      exact List.mem_cons_self
    · rw [if_neg hk] at h
      exact List.mem_cons_of_mem _ (ih h)

theorem isEmpty_iff {table : Table κ α} : table.isEmpty = true ↔ ∀ k, find? k table = none := by
  cases table with
  | nil => exact ⟨fun _ _ => rfl, fun _ => rfl⟩
  | cons entry rest =>
    refine ⟨fun h => (by cases h), fun h => ?_⟩
    have hfirst := h entry.1
    rw [find?_cons, if_pos rfl] at hfirst
    cases hfirst

end Lookup

/-! ## Tables in key order -/

section Order

theorem Sorted.tail {entry : κ × α} {table : Table κ α} (h : Sorted (entry :: table)) :
    Sorted table := (List.pairwise_cons.mp h).2

theorem Sorted.head_lt {entry other : κ × α} {table : Table κ α} (h : Sorted (entry :: table))
    (hmem : other ∈ table) : compare entry.1 other.1 = .lt := (List.pairwise_cons.mp h).1 other hmem

/-- What is bound after an insertion was bound before, or is the new entry. -/
theorem mem_insert {key : κ} {value : α} {entry : κ × α} {table : Table κ α}
    (h : entry ∈ insert key value table) : entry = (key, value) ∨ entry ∈ table := by
  induction table with
  | nil => exact .inl (List.mem_singleton.mp h)
  | cons first rest ih =>
    rw [insert] at h
    split at h
    · exact List.mem_cons.mp h
    · rcases List.mem_cons.mp h with h | h
      · exact .inl h
      · exact .inr (List.mem_cons_of_mem _ h)
    · rcases List.mem_cons.mp h with h | h
      · exact .inr (h ▸ List.mem_cons_self)
      · exact (ih h).imp_right (List.mem_cons_of_mem _)

theorem Sorted.insert [Std.TransOrd κ] [Std.LawfulEqOrd κ] {table : Table κ α} (h : Sorted table) (key : κ)
    (value : α) : Sorted (Table.insert key value table) := by
  induction table with
  | nil => exact List.pairwise_singleton _ _
  | cons first rest ih =>
    rw [Table.insert]
    split
    · next hlt =>
      refine List.pairwise_cons.mpr ⟨fun entry hmem => ?_, h⟩
      rcases List.mem_cons.mp hmem with rfl | hmem
      · exact hlt
      · exact Std.TransCmp.lt_trans hlt (h.head_lt hmem)
    · next heq =>
      have hkey := Std.LawfulEqOrd.eq_of_compare heq
      refine List.pairwise_cons.mpr ⟨fun entry hmem => ?_, h.tail⟩
      rw [hkey]
      exact h.head_lt hmem
    · next hgt =>
      refine List.pairwise_cons.mpr ⟨fun entry hmem => ?_, ih h.tail⟩
      rcases mem_insert hmem with rfl | hmem
      · exact Std.OrientedCmp.lt_of_gt hgt
      · exact h.head_lt hmem

theorem erase_sublist (key : κ) (table : Table κ α) : (erase key table).Sublist table := by
  induction table with
  | nil => exact List.Sublist.refl _
  | cons first rest ih =>
    rw [erase]
    split
    · exact List.sublist_cons_self _ _
    · exact ih.cons_cons _

theorem Sorted.erase {table : Table κ α} (h : Sorted table) (key : κ) :
    Sorted (Table.erase key table) := List.Pairwise.sublist (erase_sublist key table) h

theorem keys_adjust (key : κ) (f : α → α) (table : Table κ α) :
    keys (adjust key f table) = keys table := by
  induction table with
  | nil => rfl
  | cons first rest ih =>
    rw [adjust]
    split
    · rfl
    · exact congrArg (first.1 :: ·) ih

omit [Ord κ] in
theorem keys_mapValues (f : α → β) (table : Table κ α) :
    keys (mapValues f table) = keys table := by
  simp [keys, mapValues, Function.comp_def]

/-- Only the keys matter for the order. -/
theorem sorted_iff_keys {table : Table κ α} :
    Sorted table ↔ (keys table).Pairwise fun a b => compare a b = .lt := by
  rw [keys, List.pairwise_map]
  rfl

theorem Sorted.adjust {table : Table κ α} (h : Sorted table) (key : κ) (f : α → α) :
    Sorted (Table.adjust key f table) := by
  rw [sorted_iff_keys, keys_adjust]
  exact sorted_iff_keys.mp h

theorem Sorted.mapValues {table : Table κ α} (h : Sorted table) (f : α → β) :
    Sorted (Table.mapValues f table) := by
  rw [sorted_iff_keys, keys_mapValues]
  exact sorted_iff_keys.mp h

variable [Std.LawfulEqOrd κ] [DecidableEq κ]

/-- Nothing is found under a key below all keys. -/
theorem find?_eq_none_of_lt {k : κ} {table : Table κ α}
    (h : ∀ entry ∈ table, compare k entry.1 = .lt) : find? k table = none := by
  induction table with
  | nil => rfl
  | cons first rest ih =>
    have hne : k ≠ first.1 := by
      intro heq
      have hlt := h first List.mem_cons_self
      rw [heq, Std.ReflOrd.compare_self] at hlt
      cases hlt
    rw [find?_cons, if_neg hne]
    exact ih fun entry hmem => h entry (List.mem_cons_of_mem _ hmem)

theorem find?_erase {table : Table κ α} (h : Sorted table) (key k : κ) :
    find? k (erase key table) = if k = key then none else find? k table := by
  induction table with
  | nil => rw [erase, find?, ite_self]
  | cons first rest ih =>
    rw [erase]
    split
    · next heq =>
      have hkey := Std.LawfulEqOrd.eq_of_compare heq
      by_cases hk : k = key
      · rw [if_pos hk]
        exact find?_eq_none_of_lt fun entry hmem => by
          rw [hk, hkey]
          exact h.head_lt hmem
      · rw [if_neg hk, find?_cons, if_neg (hkey ▸ hk)]
    · next hne =>
      rw [find?_cons, find?_cons, ih h.tail]
      by_cases hk : k = first.1
      · have hkey : k ≠ key := by
          rintro rfl
          exact hne (Std.LawfulEqOrd.compare_eq_iff_eq.mpr hk)
        rw [if_pos hk, if_pos hk, if_neg hkey]
      · rw [if_neg hk, if_neg hk]

/-- In a table in key order an entry is what is found under its key. -/
theorem Sorted.find?_of_mem {table : Table κ α} (h : Sorted table) {entry : κ × α}
    (hmem : entry ∈ table) : find? entry.1 table = some entry.2 := by
  induction table with
  | nil => cases hmem
  | cons first rest ih =>
    rw [find?_cons]
    rcases List.mem_cons.mp hmem with rfl | hmem
    · rw [if_pos rfl]
    · have hne : entry.1 ≠ first.1 := by
        intro heq
        have hlt := h.head_lt hmem
        rw [heq, Std.ReflOrd.compare_self] at hlt
        cases hlt
      rw [if_neg hne]
      exact ih h.tail hmem

end Order

/-! ## Tables from lists of entries -/

section Entries

variable [Std.TransOrd κ]

/-- A key above all others is bound at the end. -/
theorem insert_of_gt {key : κ} (value : α) {table : Table κ α}
    (h : ∀ entry ∈ table, compare entry.1 key = .lt) :
    insert key value table = table ++ [(key, value)] := by
  induction table with
  | nil => rfl
  | cons first rest ih =>
    have hgt : compare key first.1 = .gt :=
      Std.OrientedCmp.gt_of_lt (h first List.mem_cons_self)
    rw [insert, hgt]
    exact congrArg (first :: ·) (ih fun entry hmem => h entry (List.mem_cons_of_mem _ hmem))

theorem insertAll_of_sorted {entries table : Table κ α} (h : Sorted (table ++ entries)) :
    insertAll entries table = table ++ entries := by
  induction entries generalizing table with
  | nil => rw [List.append_nil]; rfl
  | cons first rest ih =>
    have hlast : insert first.1 first.2 table = table ++ [first] := by
      refine insert_of_gt first.2 fun entry hmem => ?_
      exact (List.pairwise_append.mp h).2.2 entry hmem first List.mem_cons_self
    rw [insertAll, List.foldl_cons, hlast, ← insertAll, ih (by simpa using h)]
    simp

/-- Entries in key order are the table that is made of them. -/
theorem ofEntries_of_sorted {entries : Table κ α} (h : Sorted entries) :
    ofEntries entries = entries := insertAll_of_sorted h

end Entries

/-- A table that is made of entries has no others. -/
theorem mem_ofEntries {entry : κ × α} {entries : Table κ α} (h : entry ∈ ofEntries entries) :
    entry ∈ entries := by
  have hall : ∀ (entries table : Table κ α), entry ∈ insertAll entries table →
      entry ∈ entries ∨ entry ∈ table := by
    intro entries
    induction entries with
    | nil => exact fun _ hmem => .inr hmem
    | cons first rest ih =>
      intro table hmem
      rcases ih _ hmem with hrest | htable
      · exact .inl (List.mem_cons_of_mem _ hrest)
      · rcases mem_insert htable with rfl | hold
        · exact .inl List.mem_cons_self
        · exact .inr hold
  exact (hall entries [] h).resolve_right fun hno => by cases hno

/-! ## Keys of a table that is made of entries -/

section Keys

variable [Std.LawfulEqOrd κ] [DecidableEq κ]

theorem mem_keys_insert {key k : κ} {value : α} {table : Table κ α} :
    k ∈ keys (insert key value table) ↔ k = key ∨ k ∈ keys table := by
  rw [mem_keys, find?_insert, mem_keys]
  by_cases hk : k = key
  · rw [if_pos hk]
    exact ⟨fun _ => .inl hk, fun _ => rfl⟩
  · rw [if_neg hk]
    exact ⟨.inr, fun h => h.resolve_left hk⟩

theorem mem_keys_insertAll {k : κ} {entries table : Table κ α} :
    k ∈ keys (insertAll entries table) ↔ k ∈ keys entries ∨ k ∈ keys table := by
  induction entries generalizing table with
  | nil => exact ⟨.inr, fun h => h.resolve_left List.not_mem_nil⟩
  | cons entry rest ih =>
    have hcons : k ∈ keys (entry :: rest) ↔ k = entry.1 ∨ k ∈ keys rest := List.mem_cons
    rw [insertAll, List.foldl_cons, ← insertAll, ih, mem_keys_insert, hcons]
    exact or_left_comm.trans or_assoc.symm

theorem mem_keys_ofEntries {k : κ} {entries : Table κ α} :
    k ∈ keys (ofEntries entries) ↔ k ∈ keys entries := by
  rw [ofEntries, mem_keys_insertAll]
  exact ⟨fun h => h.resolve_right List.not_mem_nil, .inl⟩

end Keys

/-! ## Keys that occur once -/

theorem Sorted.nodup_keys [Std.ReflOrd κ] {table : Table κ α} (h : Sorted table) :
    (keys table).Nodup := by
  refine (sorted_iff_keys.mp h).imp fun hlt heq => ?_
  rw [heq, Std.ReflOrd.compare_self] at hlt
  cases hlt

section Once

variable [Std.LawfulEqOrd κ] [DecidableEq κ]

theorem find?_insertAll {k : κ} {entries table : Table κ α} (hnodup : (keys entries).Nodup) :
    find? k (insertAll entries table) = (find? k entries).or (find? k table) := by
  induction entries generalizing table with
  | nil => rfl
  | cons entry rest ih =>
    rw [keys, List.map_cons, List.nodup_cons] at hnodup
    rw [insertAll, List.foldl_cons, ← insertAll, ih hnodup.2, find?_insert]
    obtain ⟨k', v⟩ := entry
    rw [find?_cons]
    by_cases hk : k = k'
    · have hnone : find? k rest = none := by
        cases hfound : find? k rest with
        | none => rfl
        | some value =>
          have hmem : k ∈ keys rest := mem_keys.mpr (by rw [hfound]; rfl)
          exact absurd (hk ▸ hmem) hnodup.1
      rw [if_pos hk, if_pos hk, hnone]
      rfl
    · rw [if_neg hk, if_neg hk]

/-- What is found in a table made of entries without repeated keys. -/
theorem find?_ofEntries {k : κ} {entries : Table κ α} (hnodup : (keys entries).Nodup) :
    find? k (ofEntries entries) = find? k entries := by
  rw [ofEntries, find?_insertAll hnodup]
  cases find? k entries <;> rfl

omit [DecidableEq κ] in
theorem Sorted.insertAll [Std.TransOrd κ] {table : Table κ α} (h : Sorted table) (entries : Table κ α) :
    Sorted (Table.insertAll entries table) := by
  induction entries generalizing table with
  | nil => exact h
  | cons entry rest ih => exact ih (h.insert _ _)

omit [DecidableEq κ] in
theorem Sorted.ofEntries [Std.TransOrd κ] (entries : Table κ α) :
    Sorted (Table.ofEntries entries) := Sorted.insertAll .nil entries

/-- **Tables in key order in which the same is found are the same.** -/
theorem Sorted.ext [Std.TransOrd κ] {table table' : Table κ α} (h : Sorted table)
    (h' : Sorted table') (heq : ∀ k, find? k table = find? k table') : table = table' := by
  induction table generalizing table' with
  | nil =>
    cases table' with
    | nil => rfl
    | cons entry rest =>
      have hfound := heq entry.1
      rw [h'.find?_of_mem List.mem_cons_self] at hfound
      cases hfound
  | cons entry rest ih =>
    cases table' with
    | nil =>
      have hfound := heq entry.1
      rw [h.find?_of_mem List.mem_cons_self] at hfound
      cases hfound
    | cons entry' rest' =>
      have hfirst := heq entry.1
      have hfirst' := heq entry'.1
      rw [h.find?_of_mem List.mem_cons_self] at hfirst
      rw [h'.find?_of_mem List.mem_cons_self] at hfirst'
      -- the least key of one is in the other, and the other way round
      have hkey : entry.1 = entry'.1 := by
        by_cases hk : entry.1 = entry'.1
        · exact hk
        · rw [find?_cons, if_neg hk] at hfirst
          rw [find?_cons, if_neg (Ne.symm hk)] at hfirst'
          have hlt := h'.head_lt (mem_of_find? hfirst.symm)
          have hlt' := h.head_lt (mem_of_find? hfirst')
          have hself := Std.TransCmp.lt_trans hlt hlt'
          rw [Std.ReflOrd.compare_self] at hself
          cases hself
      have hvalue : entry.2 = entry'.2 := by
        rw [find?_cons, if_pos hkey] at hfirst
        exact Option.some.inj hfirst
      have hentry : entry = entry' := Prod.ext hkey hvalue
      subst hentry
      refine congrArg (entry :: ·) (ih h.tail h'.tail fun k => ?_)
      by_cases hk : k = entry.1
      · rw [hk, find?_eq_none_of_lt fun other hmem => h.head_lt hmem,
          find?_eq_none_of_lt fun other hmem => h'.head_lt hmem]
      · have hrest := heq k
        rw [find?_cons, find?_cons, if_neg hk, if_neg hk] at hrest
        exact hrest

/-- A key that was free is free again when its entry is taken away. -/
theorem Sorted.erase_insert [Std.TransOrd κ] {table : Table κ α} (h : Sorted table) {key : κ}
    (hfree : find? key table = none) (value : α) : Table.erase key (Table.insert key value table) = table := by
  refine ((h.insert key value).erase key).ext h fun k => ?_
  rw [find?_erase (h.insert key value)]
  split
  · next hk => rw [hk, hfree]
  · next hk => exact find?_insert_of_ne hk value table

/-- **What is found of keys in order, if they are all the keys of a table and more, is what the table
holds.** -/
theorem Sorted.filterMap_find? [Std.TransOrd κ] {table : Table κ α} (h : Sorted table) {names : List κ}
    (hnames : names.Pairwise fun a b => compare a b = .lt) (hall : ∀ k ∈ keys table, k ∈ names) :
    names.filterMap (fun k => find? k table) = values table := by
  have hne : ∀ {a b : κ}, compare a b = .lt → a ≠ b := by
    rintro a b hlt rfl
    rw [Std.ReflOrd.compare_self] at hlt
    cases hlt
  induction names generalizing table with
  | nil =>
    cases table with
    | nil => rfl
    | cons entry rest => exact absurd (hall entry.1 List.mem_cons_self) List.not_mem_nil
  | cons name rest ih =>
    obtain ⟨hlt, hrest⟩ := List.pairwise_cons.mp hnames
    by_cases hname : name ∈ keys table
    · cases table with
      | nil => exact absurd hname List.not_mem_nil
      | cons entry others =>
        -- the least name is the least key
        have hfirst : name = entry.1 := by
          rcases List.mem_cons.mp (hall entry.1 List.mem_cons_self) with heq | hmem
          · exact heq.symm
          · obtain ⟨other, hother, rfl⟩ := List.mem_map.mp hname
            rcases List.mem_cons.mp hother with rfl | hother
            · rfl
            · have hself := Std.TransCmp.lt_trans (hlt entry.1 hmem) (h.head_lt hother)
              exact absurd rfl (hne hself)
        have hothers : ∀ k ∈ keys others, k ∈ rest := by
          intro k hk
          obtain ⟨other, hother, rfl⟩ := List.mem_map.mp hk
          refine (List.mem_cons.mp (hall _ (List.mem_cons_of_mem _ hk))).resolve_left fun heq => ?_
          exact hne (h.head_lt hother) (hfirst.symm.trans heq.symm)
        have hskip : rest.filterMap (fun k => find? k (entry :: others)) =
            rest.filterMap fun k => find? k others := by
          refine List.filterMap_congr fun k hk => ?_
          rw [find?_cons, if_neg fun heq => hne (hlt k hk) (hfirst.trans heq.symm)]
        have hfound : find? name (entry :: others) = some entry.2 := by
          rw [find?_cons, if_pos hfirst]
        simp only [List.filterMap_cons, hfound, hskip, ih h.tail hrest hothers]
        rfl
    · have hnone : find? name table = none := by
        rw [← Option.not_isSome_iff_eq_none]
        exact fun hsome => hname (mem_keys.mpr hsome)
      simp only [List.filterMap_cons, hnone]
      refine ih h hrest fun k hk => (List.mem_cons.mp (hall k hk)).resolve_left ?_
      rintro rfl
      exact hname hk

omit [DecidableEq κ] in
theorem perm_insert {key : κ} (value : α) {table : Table κ α} (h : key ∉ keys table) :
    (insert key value table).Perm ((key, value) :: table) := by
  induction table with
  | nil => exact .refl _
  | cons entry rest ih =>
    rw [keys, List.map_cons, List.mem_cons, not_or] at h
    rw [insert]
    split
    · exact .refl _
    · next heq => exact absurd (Std.LawfulEqOrd.eq_of_compare heq) h.1
    · exact ((ih h.2).cons _).trans (.swap _ _ _)

omit [DecidableEq κ] in
theorem perm_insertAll {entries table : Table κ α} (hnodup : (keys (entries ++ table)).Nodup) :
    (insertAll entries table).Perm (entries ++ table) := by
  induction entries generalizing table with
  | nil => exact .refl _
  | cons entry rest ih =>
    rw [keys, List.cons_append, List.map_cons, List.nodup_cons, List.map_append, List.mem_append,
      not_or] at hnodup
    have hinsert := perm_insert entry.2 hnodup.1.2
    have hmiddle : (rest ++ insert entry.1 entry.2 table).Perm (entry :: rest ++ table) :=
      (hinsert.append_left rest).trans List.perm_middle
    refine (ih ?_).trans hmiddle
    have hkeys := hmiddle.map Prod.fst
    rw [keys, hkeys.nodup_iff, List.cons_append, List.map_cons, List.nodup_cons, List.map_append,
      List.mem_append, not_or]
    exact hnodup

omit [DecidableEq κ] in
/-- Entries without repeated keys are put in order, and none is lost. -/
theorem perm_ofEntries {entries : Table κ α} (hnodup : (keys entries).Nodup) :
    (ofEntries entries).Perm entries := by
  have hperm : (insertAll entries []).Perm (entries ++ []) :=
    perm_insertAll (by rwa [List.append_nil])
  rwa [List.append_nil] at hperm

end Once

/-- There is one way to put entries in order. -/
theorem Sorted.eq_of_perm [Std.OrientedOrd κ] {table table' : Table κ α} (h : Sorted table)
    (h' : Sorted table') (hperm : table.Perm table') : table = table' := by
  refine List.Perm.eq_of_pairwise (fun a b _ _ hab hba => ?_) h h' hperm
  rw [Std.OrientedOrd.eq_swap, hba] at hab
  cases hab

/-! ## Rebuilding -/

/-- What is related to something is something. -/
theorem exists_old_of_rel {like : α → β → Prop} {old : Option α} {new : β} (h : Option.Rel like old (some new)) :
    ∃ a, old = some a ∧ like a new := by
  cases h with
  | some hlike => exact ⟨_, rfl, hlike⟩

theorem exists_new_of_rel {like : α → β → Prop} {old : α} {new : Option β} (h : Option.Rel like (some old) new) :
    ∃ b, new = some b ∧ like old b := by
  cases h with
  | some hlike => exact ⟨_, rfl, hlike⟩

/-- The entries of a table and the values that were made of them, under the same keys. -/
abbrev Rebuilt (like : α → β → Prop) (key : β → κ) (table : Table κ α) (values : List β) : Prop :=
  List.Forall₂ (fun entry value => key value = entry.1 ∧ like entry.2 value) table values

omit [Ord κ] in
theorem Rebuilt.keys {like : α → β → Prop} {key : β → κ} {table : Table κ α} {values : List β}
    (h : Rebuilt like key table values) : values.map key = Table.keys table := by
  induction h with
  | nil => rfl
  | cons hentry _ ih => rw [List.map_cons, ih, hentry.1]; rfl

theorem Rebuilt.sorted {like : α → β → Prop} {key : β → κ} {table : Table κ α} {values : List β}
    (h : Rebuilt like key table values) (hsorted : Sorted table) :
    Sorted (values.map fun value => (key value, value)) := by
  rw [sorted_iff_keys, Table.keys, List.map_map]
  rw [sorted_iff_keys, ← h.keys] at hsorted
  exact hsorted

/-- **What is found in a table that was rebuilt** is like what was found before. -/
theorem Rebuilt.find? [Std.LawfulEqOrd κ] [DecidableEq κ] {like : α → β → Prop} {key : β → κ}
    {table : Table κ α} {values : List β} (h : Rebuilt like key table values) (k : κ) :
    Option.Rel like (find? k table) (find? k (values.map fun value => (key value, value))) := by
  induction h with
  | nil => exact .none
  | @cons entry value rest values hentry _ ih =>
    obtain ⟨k', old⟩ := entry
    rw [List.map_cons, find?_cons, find?_cons, hentry.1]
    by_cases hk : k = k'
    · rw [if_pos hk, if_pos hk]
      exact .some hentry.2
    · rw [if_neg hk, if_neg hk]
      exact ih

end DurableFlow.Table
