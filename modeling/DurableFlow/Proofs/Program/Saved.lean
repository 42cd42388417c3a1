/-
A saved program is read back as it was saved.

Threads, live steps, exported blocks and all that is queued with them are written field by
field. Tables with numbers as keys are written as objects, in the order of the digits, and
are put back into the order of the numbers. Numbers of threads and heads have to fit into
a short word, keys into a long one.
-/
import Mathlib.Data.List.Nodup
import Mathlib.Data.List.Perm.Basic
import DurableFlow.Program.Saved
import DurableFlow.Proofs.Script.Codec
import DurableFlow.Proofs.Text.Timestamp

set_option autoImplicit false

namespace DurableFlow

open Script Text

namespace Document

/-! ## Objects that are written in key order -/

/-- The fields of an object that is made of members without repeated names. -/
theorem record?_object (names : List String) (least : Nat) {members : List (String × Json)}
    (hnodup : (members.map Prod.fst).Nodup) :
    ∃ fields : Fields (ofJson (Json.object members)),
      record? names least (ofJson (Json.object members)) = some fields ∧
        fields.Of names members := by
  have hsorted : Table.Sorted (Table.ofEntries members) := .ofEntries members
  unfold Json.object
  obtain ⟨fields, hfields, hof⟩ := record?_ofJson names least hsorted.nodup_keys
  refine ⟨fields, hfields, ⟨fun name hname => ?_⟩⟩
  rw [hof.part name hname, Table.find?_ofEntries hnodup]

/-- A value that is not null is no absent one. -/
theorem option?_ofOption {α : Type} {f : Document → Option α} {g : α → Json} {value : Option α}
    (hread : ∀ a, value = some a → f (ofJson (g a)) = some a)
    (hnull : ∀ a, ofJson (g a) ≠ .null) :
    option? f (ofJson (Json.ofOption g value)) = some value := by
  cases value with
  | none => rw [Json.ofOption, ofJson, option?]
  | some a =>
    rw [Json.ofOption]
    unfold option?
    split
    · next hno => exact absurd hno (hnull a)
    · rw [hread a rfl]
      rfl

theorem ofJson_nat_ne_null (n : Nat) : ofJson (.nat n) ≠ .null := by
  rw [Json.nat, ofJson]
  exact fun hno => by cases hno

theorem ofJson_str_ne_null (s : String) : ofJson (.str s) ≠ .null := by
  rw [ofJson]
  exact fun hno => by cases hno

theorem ofJson_obj_ne_null (members : List (String × Json)) : ofJson (.obj members) ≠ .null := by
  rw [ofJson]
  exact fun hno => by cases hno

/-! ## Fields that are found and read -/

namespace Fields.Of

variable {α : Type} {d : Document} {fields : Fields d} {names : List String}
  {members : List (String × Json)} {name : String} {value : Json} {a : α}

theorem field?_of_read (h : fields.Of names members) (hname : name ∈ names)
    (hfind : Table.find? name members = some value) {f : Document → Option α}
    (hread : f (ofJson value) = some a) : fields.field? name f = some a := by
  rw [h.field?_eq hname, hfind, Option.bind_some, hread]

theorem fieldD?_of_read (h : fields.Of names members) (hname : name ∈ names)
    (hfind : Table.find? name members = some value) {f : Document → Option α} {fallback : α}
    (hread : f (ofJson value) = some a) : fields.fieldD? name f fallback = some a := by
  rw [h.fieldD?_eq hname, hfind, Option.map_some, hread, Option.getD_some]

theorem optional?_of_read (h : fields.Of names members) (hname : name ∈ names)
    (hfind : Table.find? name members = some value) {f : Document → Option α} {found : Option α}
    (hread : option? f (ofJson value) = some found) : fields.optional? name f = some found :=
  h.fieldD?_of_read hname hfind hread

end Fields.Of

/-! ## Tables with numbers as keys -/

/-- Items that can be read are read one by one. -/
theorem mapM_eq_filterMap {α β : Type} {f : α → Option β} {items : List α}
    (h : ∀ a ∈ items, (f a).isSome = true) : items.mapM f = some (items.filterMap f) := by
  induction items with
  | nil => rfl
  | cons item rest ih =>
    obtain ⟨b, hb⟩ := Option.isSome_iff_exists.mp (h item List.mem_cons_self)
    rw [List.mapM_cons, hb, ih fun a ha => h a (List.mem_cons_of_mem _ ha),
      List.filterMap_cons_some hb]
    rfl

/-- Reading the members of an object that was written, names included. -/
theorem entries?_ofJson {α β : Type} (key : Name → Option α) (f : Document → Option β)
    (members : List (String × Json)) :
    ((ofJson (.obj members)).entries? >>= fun entries => entries.mapM fun entry => do
      return (← key entry.1, ← f entry.2.val)) =
      members.mapM fun member => do return (← key ⟨member.1, true⟩, ← f (ofJson member.2)) := by
  have hentries : ∃ entries, (ofJson (.obj members)).entries? = some entries ∧
      entries.map (fun entry => (entry.1, entry.2.val)) = ofMembers members := by
    rw [ofJson]
    refine ⟨_, rfl, ?_⟩
    rw [List.map_map]
    exact List.attach_map_subtype_val _
  obtain ⟨entries, heq, hval⟩ := hentries
  have hread : (entries.mapM fun entry => do return (← key entry.1, ← f entry.2.val)) =
      (entries.map fun entry => (entry.1, entry.2.val)).mapM fun entry => do
        return (← key entry.1, ← f entry.2) := by
    rw [List.mapM_map]
    rfl
  rw [heq]
  show (entries.mapM fun entry => do return (← key entry.1, ← f entry.2.val)) = _
  rw [hread, hval, ofMembers_eq, List.mapM_map]
  rfl

theorem number?_toString {bound n : Nat} (h : n < bound) :
    Name.number? bound ⟨toString n, true⟩ = some n := by
  rw [Name.number?, Text.natBelow?_toString h]
  simp

/-- Different numbers have different names. -/
theorem nodup_toString {α : Type} {bound : Nat} {table : Table Nat α} (hsorted : Table.Sorted table)
    (hkey : ∀ entry ∈ table, entry.1 < bound) (g : α → Json) :
    (Table.keys (table.map fun entry => (toString entry.1, g entry.2))).Nodup := by
  -- the numbers are read back from their digits
  refine List.Nodup.of_map (Text.natBelow? bound) ?_
  have hdigits : (Table.keys (table.map fun entry => (toString entry.1, g entry.2))).map
      (Text.natBelow? bound) = (Table.keys table).map some := by
    rw [Table.keys, Table.keys, List.map_map, List.map_map, List.map_map]
    exact List.map_congr_left fun entry hmem => Text.natBelow?_toString (hkey entry hmem)
  rw [hdigits]
  exact hsorted.nodup_keys.map fun _ _ heq => Option.some.inj heq

/-- **A table with numbers as keys is read back.** -/
theorem numbered?_ofNumbered {α : Type} {bound : Nat} {f : Document → Option α} {g : α → Json}
    {table : Table Nat α} (hsorted : Table.Sorted table)
    (hkey : ∀ entry ∈ table, entry.1 < bound)
    (hread : ∀ entry ∈ table, f (ofJson (g entry.2)) = some entry.2) :
    numbered? bound f (ofJson (Json.ofNumbered g table)) = some table := by
  let written := table.map fun entry => (toString entry.1, g entry.2)
  let read (member : String × Json) : Option (Nat × α) := do
    return (← Name.number? bound ⟨member.1, true⟩, ← f (ofJson member.2))
  have hback : ∀ entry ∈ table, read (toString entry.1, g entry.2) = some entry := by
    intro entry hmem
    show (do return (← Name.number? bound ⟨toString entry.1, true⟩, ← f (ofJson (g entry.2)))) = _
    rw [number?_toString (hkey entry hmem), hread entry hmem]
    rfl
  have hnodup : (Table.keys written).Nodup := nodup_toString hsorted hkey g
  have hperm : (Table.ofEntries written).Perm written := Table.perm_ofEntries hnodup
  have hall : ∀ member ∈ Table.ofEntries written, (read member).isSome = true := by
    intro member hmem
    obtain ⟨entry, hentry, rfl⟩ := List.mem_map.mp (hperm.mem_iff.mp hmem)
    rw [hback entry hentry]
    rfl
  have hfound : written.filterMap read = table := by
    rw [List.filterMap_map]
    refine (List.filterMap_congr (g := some) fun entry hmem => ?_).trans List.filterMap_some
    exact hback entry hmem
  have hagain : ((Table.ofEntries written).filterMap read).Perm table :=
    hfound ▸ hperm.filterMap read
  have hkeys : (Table.keys ((Table.ofEntries written).filterMap read)).Nodup :=
    (hagain.map Prod.fst).nodup_iff.mpr hsorted.nodup_keys
  rw [numbered?, table?, Json.ofNumbered, Json.object, ← bind_assoc, entries?_ofJson,
    mapM_eq_filterMap hall]
  have htable : Table.ofEntries ((Table.ofEntries written).filterMap read) = table :=
    (Table.Sorted.ofEntries _).eq_of_perm hsorted ((Table.perm_ofEntries hkeys).trans hagain)
  exact congrArg some htable

theorem map_of_mapM_eq_some {α β γ : Type} {f : α → Option β} {g : α → γ} {g' : β → γ}
    {items : List α} {found : List β} (h : items.mapM f = some found)
    (hsame : ∀ a ∈ items, ∀ b, f a = some b → g' b = g a) : found.map g' = items.map g := by
  induction items generalizing found with
  | nil =>
    cases h
    rfl
  | cons a rest ih =>
    rw [List.mapM_cons] at h
    cases ha : f a with
    | none =>
      rw [ha] at h
      cases h
    | some b =>
      cases hrest : rest.mapM f with
      | none =>
        rw [ha, hrest] at h
        cases h
      | some others =>
        rw [ha, hrest] at h
        cases h
        rw [List.map_cons, List.map_cons, hsame a List.mem_cons_self b ha,
          ih hrest fun c hc => hsame c (List.mem_cons_of_mem _ hc)]

/-- A table that is read is sorted, whatever it is read of. -/
theorem sorted_numbered? {α : Type} {bound : Nat} {f : Document → Option α} {d : Document} {found : Table Nat α}
    (h : numbered? bound f d = some found) : Table.Sorted found := by
  obtain ⟨members, _, hrest⟩ := Option.bind_eq_some_iff.mp h
  obtain ⟨entries, _, heq⟩ := Option.bind_eq_some_iff.mp hrest
  cases heq
  exact .ofEntries entries

/-- **Whatever is read of a table with numbers as keys has the keys of that table**, if it can be
read at all. -/
theorem keys_of_numbered? {α β : Type} {bound : Nat} {f : Document → Option β} {g : α → Json}
    {table : Table Nat α} {found : Table Nat β} (hnodup : (Table.keys table).Nodup)
    (h : numbered? bound f (ofJson (Json.ofNumbered g table)) = some found) :
    (Table.keys found).Perm (Table.keys table) := by
  let written := table.map fun entry => (toString entry.1, g entry.2)
  have hnames : Table.keys written = (Table.keys table).map toString := by
    simp only [written, Table.keys, List.map_map]
    rfl
  have hdistinct : (Table.keys written).Nodup := by
    rw [hnames]
    exact hnodup.map Text.toString_injective
  have hperm : (Table.ofEntries written).Perm written := Table.perm_ofEntries hdistinct
  rw [numbered?, table?, Json.ofNumbered, Json.object, ← bind_assoc, entries?_ofJson] at h
  obtain ⟨entries, hentries, hfound⟩ := Option.bind_eq_some_iff.mp h
  have hread : entries.map (fun entry => toString entry.1) =
      (Table.ofEntries written).map Prod.fst := by
    refine map_of_mapM_eq_some hentries fun member hmem entry hentry => ?_
    obtain ⟨old, _, rfl⟩ := List.mem_map.mp (hperm.mem_iff.mp hmem)
    obtain ⟨key, hkey, hrest⟩ := Option.bind_eq_some_iff.mp hentry
    obtain ⟨value, _, heq⟩ := Option.bind_eq_some_iff.mp hrest
    cases heq
    obtain ⟨_, hname⟩ := Option.filter_eq_some_iff.mp hkey
    rw [Bool.and_eq_true, beq_iff_eq] at hname
    exact hname.2
  have hkeys : (Table.keys entries).Perm (Table.keys table) := by
    refine (List.map_perm_map_iff Text.toString_injective).mp ?_
    rw [← hnames, Table.keys, List.map_map]
    exact (List.Perm.of_eq hread).trans (hperm.map Prod.fst)
  cases hfound
  exact ((Table.perm_ofEntries (hkeys.nodup_iff.mpr hnodup)).map Prod.fst).trans hkeys

/-- The kind of an object is found among its members, and the others are its fields. -/
theorem variant?_ofJson {tag kind : String} {members : List (String × Json)}
    (hordered : (Json.obj members).Ordered)
    (hkind : (members.filter fun member => member.1 == tag) = [(tag, .str kind)]) :
    variant? tag (ofJson (.obj members)) =
      some (kind, ofJson (.obj (members.filter fun member => member.1 != tag))) := by
  have hjson := json?_ofJson _ hordered
  have hfilter : ((ofMembers members).filter fun member => member.1.text == tag) =
      [(⟨tag, true⟩, .str kind)] := by
    rw [ofMembers_eq, List.filter_map]
    show (members.filter fun member => member.1 == tag).map _ = _
    rw [hkind, List.map_singleton, ofJson]
  have hothers : ((ofMembers members).filter fun member => member.1.text != tag) =
      ofMembers (members.filter fun member => member.1 != tag) := by
    rw [ofMembers_eq, ofMembers_eq, List.filter_map]
    rfl
  unfold variant?
  rw [hjson, ofJson]
  simp only [Option.isNone_some, Bool.false_eq_true, reduceIte, hfilter, hothers, ofJson]

theorem ordered_ofNumbered {α : Type} {g : α → Json} {table : Table Nat α}
    (h : ∀ entry ∈ table, (g entry.2).Ordered) : (Json.ofNumbered g table).Ordered := by
  rw [Json.ofNumbered, Json.object]
  refine .obj (Table.sorted_iff_keys.mp (Table.Sorted.ofEntries _)) fun member hmem => ?_
  obtain ⟨entry, hentry, rfl⟩ := List.mem_map.mp (Table.mem_ofEntries hmem)
  exact h entry hentry

theorem shortNat?_ofJson {n : Nat} (h : n < shortWordBound) :
    shortNat? (ofJson (.nat n)) = some n := by
  rw [shortNat?, nat?_ofJson, Option.filter_some, if_pos (decide_eq_true h)]

end Document

open Document

/-! ## Completions -/

theorem Branch.ofDocument?_toJson {branch : Branch} (h : branch.head < shortWordBound) :
    Branch.ofDocument? (ofJson branch.toJson) = some branch := by
  have hnodup : ([("head", Json.nat branch.head), ("start", .nat branch.start)].map
      Prod.fst).Nodup := by simp
  obtain ⟨fields, hfields, hof⟩ := record?_ofJson ["head", "start"] 2 hnodup
  rw [Branch.toJson, Branch.ofDocument?, hfields]
  simp [hof.field?_eq, Table.find?_cons, nat?_ofJson, shortNat?_ofJson h]

/-- The head of a branch fits into a short word. -/
def Completion.Storable : Completion → Prop
  | .root => True
  | .body _ _ branch => ∀ b, branch = some b → b.head < shortWordBound

instance (completion : Completion) : Decidable completion.Storable :=
  match completion with
  | .root => .isTrue trivial
  | .body _ _ branch => inferInstanceAs (Decidable (∀ b ∈ branch, b.head < shortWordBound))

theorem Completion.ordered_toJson (completion : Completion) : completion.toJson.Ordered := by
  cases completion with
  | root =>
    refine .obj (show ["type"].Pairwise _ by decide) ?_
    simp [Json.Ordered]
  | body step index branch =>
    have hbranch : (Json.ofOption Branch.toJson branch).Ordered := by
      cases branch with
      | none => simp [Json.ofOption, Json.Ordered]
      | some b =>
        refine .obj (show ["head", "start"].Pairwise _ by decide) ?_
        simp [Json.Ordered.nat]
    refine .obj (show ["branch", "index", "step", "type"].Pairwise _ by decide) ?_
    simp [hbranch, Json.Ordered.nat, Json.Ordered]

/-- **A completion is read back.** -/
theorem Completion.ofDocument?_toJson {completion : Completion} (h : completion.Storable) :
    Completion.ofDocument? (ofJson completion.toJson) = some completion := by
  have hordered := completion.ordered_toJson
  cases completion with
  | root =>
    rw [Completion.toJson] at hordered ⊢
    rw [Completion.ofDocument?, variant?_ofJson hordered rfl]
    rfl
  | body step index branch =>
    have hnodup : ([("branch", Json.ofOption Branch.toJson branch), ("index", .nat index),
        ("step", .nat step)].map Prod.fst).Nodup := by simp
    obtain ⟨fields, hfields, hof⟩ := record?_ofJson ["step", "index", "branch"] 3 hnodup
    have hbranch : option? Branch.ofDocument? (ofJson (Json.ofOption Branch.toJson branch)) =
        some branch :=
      option?_ofOption (fun b hb => Branch.ofDocument?_toJson (h b hb))
        fun b => ofJson_obj_ne_null _
    rw [Completion.toJson] at hordered ⊢
    rw [Completion.ofDocument?, variant?_ofJson hordered rfl]
    show (record? ["step", "index", "branch"] 3 (ofJson (.obj
        [("branch", Json.ofOption Branch.toJson branch), ("index", .nat index),
          ("step", .nat step)])) >>= fun fields => do
      return Completion.body (← fields.field? "step" nat?) (← fields.field? "index" nat?)
        (← fields.optional? "branch" Branch.ofDocument?)) = _
    rw [hfields]
    simp [hof.field?_eq, hof.optional?_eq, Table.find?_cons, nat?_ofJson, hbranch]

/-! ## Queued bodies -/

/-- A body whose closure and variables can be stored. -/
structure PendingBody.Storable (body : PendingBody) : Prop where
  source : ∀ closure, body.source = .inline closure → Closure.Storable closure
  overrides : Val.StorableFields body.overrides

/-- **A queued body is read back.** -/
theorem PendingBody.ofDocument?_toJson {body : PendingBody} (h : body.Storable) :
    PendingBody.ofDocument? (ofJson body.toJson) = some body := by
  have hsource : BodySource.ofDocument? (ofJson body.source.toJson) = some body.source := by
    cases heq : body.source with
    | exported handle =>
      rw [BodySource.toJson, ofJson, ofMembers, ofMembers, BodySource.ofDocument?, nat?_ofJson]
      rfl
    | inline closure =>
      rw [BodySource.toJson, ofJson, ofMembers, ofMembers, BodySource.ofDocument?,
        Closure.ofDocument?_toJson (h.source closure heq)]
      rfl
  have hbranch : option? str? (ofJson (Json.ofOption .str body.branch)) = some body.branch :=
    option?_ofOption (fun name _ => str?_ofJson name) ofJson_str_ne_null
  have hnodup : ([("branch", Json.ofOption .str body.branch), ("index", .nat body.index),
      ("overrides", scopeToJson body.overrides), ("source", body.source.toJson)].map
      Prod.fst).Nodup := by simp
  obtain ⟨fields, hfields, hof⟩ :=
    record?_ofJson ["index", "source", "overrides", "branch"] 4 hnodup
  rw [PendingBody.toJson, PendingBody.ofDocument?, hfields]
  simp [hof.field?_eq, hof.optional?_eq, Table.find?_cons, nat?_ofJson, hsource, hbranch,
    scopeOfDocument?_toJson h.overrides]

/-! ## Threads, steps and programs -/

theorem list?_map {α : Type} {f : Document → Option α} {g : α → Json} {items : List α}
    (h : ∀ a ∈ items, f (ofJson (g a)) = some a) :
    (ofJson (.arr (items.map g))).list? f = some items := by
  rw [list?, items?_ofJson]
  exact mapM_eq_some h

/-- An outcome that may be missing is read back. -/
theorem option?_outcome {outcome : Option Outcome}
    (h : ∀ o, outcome = some o → Outcome.Storable o) :
    option? Outcome.ofDocument? (ofJson (Json.ofOption Outcome.toJson outcome)) = some outcome := by
  refine option?_ofOption (fun o ho => Outcome.ofDocument?_toJson (h o ho)) fun o => ?_
  cases o <;> exact ofJson_obj_ne_null _

theorem option?_nat (n : Option Nat) : option? nat? (ofJson (Json.ofOption .nat n)) = some n :=
  option?_ofOption (fun n _ => nat?_ofJson n) ofJson_nat_ne_null

/-- A saved thread that can be read back. -/
structure SavedThread.Storable (thread : SavedThread) : Prop where
  id : thread.id < shortWordBound
  machine : thread.machine.Ordered
  input : ∀ outcome, thread.input = some outcome → Outcome.Storable outcome
  head : thread.head < shortWordBound
  completions : ∀ completion ∈ thread.completions, completion.Storable
  vars : Val.StorableFields thread.vars

/-- **A saved thread is read back.** -/
theorem SavedThread.ofDocument?_toJson {thread : SavedThread} (h : thread.Storable) :
    SavedThread.ofDocument? (ofJson thread.toJson) = some thread := by
  have hnodup : ([("id", .nat thread.id), ("continuation", thread.machine),
      ("resume_value", Json.ofOption Outcome.toJson thread.input), ("head", .nat thread.head),
      ("step", Json.ofOption .nat thread.step),
      ("completions", .arr (thread.completions.map Completion.toJson)),
      ("variables", scopeToJson thread.vars)].map Prod.fst).Nodup := by simp
  obtain ⟨fields, hfields, hof⟩ := record?_object SavedThread.fieldNames 6 hnodup
  have hcompletions : (ofJson (.arr (thread.completions.map Completion.toJson))).list?
      Completion.ofDocument? = some thread.completions :=
    list?_map fun completion hmem => Completion.ofDocument?_toJson (h.completions completion hmem)
  rw [SavedThread.toJson, SavedThread.ofDocument?, hfields]
  rw [SavedThread.fieldNames] at hof
  simp [hof.field?_eq, hof.fieldD?_eq, hof.optional?_eq, Table.find?_cons, shortNat?_ofJson h.id,
    shortNat?_ofJson h.head, json?_ofJson _ h.machine, option?_outcome h.input, option?_nat,
    hcompletions, scopeOfDocument?_toJson h.vars]

/-- A saved step that can be read back. -/
structure SavedStep.Storable (step : SavedStep) : Prop where
  thread : step.thread < shortWordBound
  args : Val.StorableItems step.args
  state : ∀ state, step.state = some state → state.Ordered ∧ state ≠ .null
  head : step.head < shortWordBound
  sorted : Table.Sorted step.children
  children : ∀ child ∈ Table.keys step.children, child < shortWordBound
  vars : Val.StorableFields step.vars
  outcome : ∀ outcome, step.outcome = some outcome → Outcome.Storable outcome
  bodies : ∀ body ∈ step.bodies, body.Storable

/-- A set of numbers of threads is read back. -/
theorem numbersOfDocument?_toJson {set : Table Nat Unit} (hsorted : Table.Sorted set)
    (h : ∀ n ∈ Table.keys set, n < shortWordBound) :
    numbersOfDocument? (ofJson (numbersToJson set)) = some set := by
  have hentries : (Table.keys set).map (fun n => (n, ())) = set := by
    rw [Table.keys, List.map_map]
    exact List.map_id' set
  rw [numbersOfDocument?, numbersToJson, list?_map fun n hn => shortNat?_ofJson (h n hn)]
  show some (Table.ofEntries ((Table.keys set).map fun n => (n, ()))) = _
  rw [hentries, Table.ofEntries_of_sorted hsorted]

/-- What a step remembers is read back, if there is any. -/
theorem option?_json {state : Option Json}
    (h : ∀ j, state = some j → j.Ordered ∧ j ≠ .null) :
    option? json? (ofJson (state.getD .null)) = some state := by
  cases state with
  | none => rw [Option.getD_none, ofJson, option?]
  | some j =>
    obtain ⟨hordered, hnull⟩ := h j rfl
    have hread := json?_ofJson j hordered
    rw [Option.getD_some]
    unfold option?
    split
    · next hno =>
      rw [hno, json?] at hread
      exact absurd (Option.some.inj hread).symm hnull
    · rw [hread]
      rfl

/-- **A saved step is read back.** -/
theorem SavedStep.ofDocument?_toJson {step : SavedStep} (h : step.Storable) :
    SavedStep.ofDocument? (ofJson step.toJson) = some step := by
  have hnodup : ([("node", .nat step.node), ("thread", .nat step.thread),
      ("function", .str step.function), ("args", .arr (Val.itemsToJson step.args)),
      ("state", step.state.getD .null), ("closure", Json.ofOption .nat step.closure),
      ("head", .nat step.head), ("is_block", .bool step.isBlock),
      ("branch_tips", .arr (step.branchTips.map .nat)), ("children", numbersToJson step.children),
      ("variables", scopeToJson step.vars),
      ("outcome", Json.ofOption Outcome.toJson step.outcome), ("next_body", .nat step.nextBody),
      ("bodies", .arr (step.bodies.map PendingBody.toJson))].map Prod.fst).Nodup := by simp
  obtain ⟨fields, hfields, hof⟩ := record?_object SavedStep.fieldNames 12 hnodup
  have hbodies : (ofJson (.arr (step.bodies.map PendingBody.toJson))).list?
      PendingBody.ofDocument? = some step.bodies :=
    list?_map fun body hmem => PendingBody.ofDocument?_toJson (h.bodies body hmem)
  rw [SavedStep.fieldNames] at hof
  rw [SavedStep.toJson, SavedStep.ofDocument?]
  refine (bind_eq_of_some hfields).trans ?_
  refine (bind_eq_of_some (hof.field?_of_read (show "node" ∈ _ by decide) rfl (nat?_ofJson _))).trans ?_
  refine (bind_eq_of_some (hof.field?_of_read (show "thread" ∈ _ by decide) rfl (shortNat?_ofJson h.thread))).trans ?_
  refine (bind_eq_of_some (hof.field?_of_read (show "function" ∈ _ by decide) rfl (str?_ofJson _))).trans ?_
  refine (bind_eq_of_some (hof.field?_of_read (show "args" ∈ _ by decide) rfl (list?_values h.args))).trans ?_
  refine (bind_eq_of_some (hof.optional?_of_read (show "state" ∈ _ by decide) rfl (option?_json h.state))).trans ?_
  refine (bind_eq_of_some (hof.optional?_of_read (show "closure" ∈ _ by decide) rfl (option?_nat _))).trans ?_
  refine (bind_eq_of_some (hof.field?_of_read (show "head" ∈ _ by decide) rfl (shortNat?_ofJson h.head))).trans ?_
  refine (bind_eq_of_some (hof.field?_of_read (show "is_block" ∈ _ by decide) rfl (bool?_ofJson _))).trans ?_
  refine (bind_eq_of_some (hof.fieldD?_of_read (show "branch_tips" ∈ _ by decide) rfl (list?_nats _))).trans ?_
  refine (bind_eq_of_some (hof.fieldD?_of_read (show "children" ∈ _ by decide) rfl
    (numbersOfDocument?_toJson h.sorted h.children))).trans ?_
  refine (bind_eq_of_some (hof.fieldD?_of_read (show "variables" ∈ _ by decide) rfl
    (scopeOfDocument?_toJson h.vars))).trans ?_
  refine (bind_eq_of_some (hof.optional?_of_read (show "outcome" ∈ _ by decide) rfl
    (option?_outcome h.outcome))).trans ?_
  refine (bind_eq_of_some (hof.fieldD?_of_read (show "next_body" ∈ _ by decide) rfl (nat?_ofJson _))).trans ?_
  exact bind_eq_of_some (hof.fieldD?_of_read (show "bodies" ∈ _ by decide) rfl hbodies)

/-- A saved program that can be read back. -/
structure SavedProgram.Storable (p : SavedProgram) : Prop where
  threads : ∀ thread ∈ p.threads, thread.Storable
  sorted : Table.Sorted p.closures
  closures : ∀ entry ∈ p.closures, entry.1 < Json.wordBound ∧ Closure.Storable entry.2
  steps : ∀ step ∈ p.steps, step.Storable
  rootOutcome : ∀ outcome, p.rootOutcome = some outcome → Outcome.Storable outcome

/-- **A saved program is read back.** -/
theorem SavedProgram.ofJson?_toJson {p : SavedProgram} (h : p.Storable) :
    SavedProgram.ofJson? p.toJson = some p := by
  have hnodup : ([("threads", .arr (p.threads.map SavedThread.toJson)),
      ("closures", Json.ofNumbered Closure.toJson p.closures), ("next_closure", .nat p.nextClosure),
      ("steps", .arr (p.steps.map SavedStep.toJson)),
      ("root_outcome", Json.ofOption Outcome.toJson p.rootOutcome),
      ("pickles", .arr (p.handles.map Handle.toJson))].map Prod.fst).Nodup := by simp
  obtain ⟨fields, hfields, hof⟩ := record?_object SavedProgram.fieldNames 6 hnodup
  have hthreads : (ofJson (.arr (p.threads.map SavedThread.toJson))).list?
      SavedThread.ofDocument? = some p.threads :=
    list?_map fun thread hmem => SavedThread.ofDocument?_toJson (h.threads thread hmem)
  have hclosures : numbered? Json.wordBound Closure.ofDocument?
      (ofJson (Json.ofNumbered Closure.toJson p.closures)) = some p.closures :=
    numbered?_ofNumbered h.sorted (fun entry hmem => (h.closures entry hmem).1)
      fun entry hmem => Closure.ofDocument?_toJson (h.closures entry hmem).2
  have hsteps : (ofJson (.arr (p.steps.map SavedStep.toJson))).list? SavedStep.ofDocument? =
      some p.steps :=
    list?_map fun step hmem => SavedStep.ofDocument?_toJson (h.steps step hmem)
  have hhandles : (ofJson (.arr (p.handles.map Handle.toJson))).list? Handle.ofDocument? =
      some p.handles :=
    list?_map fun handle _ => handle.ofDocument?_toJson
  rw [SavedProgram.ofJson?, SavedProgram.toJson, SavedProgram.ofDocument?, hfields]
  rw [SavedProgram.fieldNames] at hof
  simp [hof.field?_eq, hof.optional?_eq, Table.find?_cons, nat?_ofJson, hthreads, hclosures,
    hsteps, hhandles, option?_outcome h.rootOutcome]

end DurableFlow
