/-
The saved form of values, code and machines can be read back, and is in order.

What a program holds can be stored when its numbers are finite and the fields of its maps are in key
order, as those of every map are. Then all of it is read back from the JSON values that it is written
as, and these have the members of their objects in key order, so that their texts can be read as well.
-/
import DurableFlow.Proofs.Script.Snapshots

set_option autoImplicit false

namespace DurableFlow

open Script Document

namespace Script

/-! ## What can be stored -/

mutual

/-- **A value that can be stored**: its numbers are finite and its maps are in key order. -/
def Val.Storable : Val → Prop
  | .num x => Number.isFinite x = true
  | .list items => Val.StorableItems items
  | .map fields => Table.Sorted fields ∧ Val.StorableFields fields
  | .closure c => Closure.Storable c
  | _ => True

def Val.StorableItems : List Val → Prop
  | [] => True
  | item :: rest => item.Storable ∧ Val.StorableItems rest

def Val.StorableFields : List (String × Val) → Prop
  | [] => True
  | (_, value) :: rest => value.Storable ∧ Val.StorableFields rest

def Closure.Storable : Closure Val → Prop
  | ⟨program, _, captured⟩ =>
    Program.Storable program ∧ Table.Sorted captured ∧ Val.StorableFields captured

def Program.Storable : Program Val → Prop
  | ⟨_, chunks⟩ => Chunk.StorableAll chunks

def Chunk.StorableAll : List (Chunk Val) → Prop
  | [] => True
  | chunk :: rest => Chunk.Storable chunk ∧ Chunk.StorableAll rest

def Chunk.Storable : Chunk Val → Prop
  | ⟨_, code, _, _⟩ => Instr.StorableAll code

def Instr.StorableAll : List (Instr Val) → Prop
  | [] => True
  | instr :: rest => Instr.Storable instr ∧ Instr.StorableAll rest

def Instr.Storable : Instr Val → Prop
  | .const value => value.Storable
  | _ => True

end

/-! ## Whether something can be stored -/

mutual

/-- Whether a value can be stored, by its own recursion. -/
def Val.decideStorable : ∀ v : Val, Decidable v.Storable
  | .num x => inferInstanceAs (Decidable (Number.isFinite x = true))
  | .list items => Val.decideStorableItems items
  | .map fields =>
    have := Val.decideStorableFields fields
    inferInstanceAs (Decidable (fields.Pairwise (fun a b => compare a.1 b.1 = .lt) ∧ Val.StorableFields fields))
  | .closure c => Closure.decideStorable c
  | .null | .bool _ | .str _ | .error _ | .handle _ => .isTrue trivial

def Val.decideStorableItems : ∀ items : List Val, Decidable (Val.StorableItems items)
  | [] => .isTrue trivial
  | item :: rest =>
    have := Val.decideStorable item
    have := Val.decideStorableItems rest
    inferInstanceAs (Decidable (item.Storable ∧ Val.StorableItems rest))

def Val.decideStorableFields : ∀ fields : List (String × Val), Decidable (Val.StorableFields fields)
  | [] => .isTrue trivial
  | (_, value) :: rest =>
    have := Val.decideStorable value
    have := Val.decideStorableFields rest
    inferInstanceAs (Decidable (value.Storable ∧ Val.StorableFields rest))

/-- What a closure has captured stands in a list of its own, which has to be in order too. -/
def Closure.decideStorable : ∀ c : Closure Val, Decidable (Closure.Storable c)
  | ⟨program, _, captured⟩ =>
    have := Program.decideStorable program
    have := Val.decideStorableFields captured
    inferInstanceAs (Decidable (Program.Storable program ∧
      captured.Pairwise (fun a b => compare a.1 b.1 = .lt) ∧ Val.StorableFields captured))

def Program.decideStorable : ∀ p : Program Val, Decidable (Program.Storable p)
  | ⟨_, chunks⟩ => Chunk.decideStorableAll chunks

def Chunk.decideStorableAll : ∀ chunks : List (Chunk Val), Decidable (Chunk.StorableAll chunks)
  | [] => .isTrue trivial
  | ⟨_, code, _, _⟩ :: rest =>
    have := Instr.decideStorableAll code
    have := Chunk.decideStorableAll rest
    inferInstanceAs (Decidable (Instr.StorableAll code ∧ Chunk.StorableAll rest))

def Instr.decideStorableAll : ∀ code : List (Instr Val), Decidable (Instr.StorableAll code)
  | [] => .isTrue trivial
  | instr :: rest =>
    have := Instr.decideStorable instr
    have := Instr.decideStorableAll rest
    inferInstanceAs (Decidable (Instr.Storable instr ∧ Instr.StorableAll rest))

/-- Only a constant can be one that cannot be stored. -/
def Instr.decideStorable : ∀ instr : Instr Val, Decidable (Instr.Storable instr)
  | .const value => Val.decideStorable value
  | .load _ | .declare _ | .store _ | .pop | .binary _ | .unary _ | .makeList _ | .makeClosure _
  | .call _ _ _ | .jump _ | .jumpIfFalse _ | .jumpIfFalseKeep _ | .jumpIfTrueKeep _ | .enterScope | .exitScope
  | .pushHandler _ | .popHandler | .throw | .ret => .isTrue trivial

end

/-! ## What can be stored is finite -/

mutual

/-- **All numbers in a value that can be stored are finite.** By the recursion of values, code and closures. -/
theorem Val.finite_of_storable : ∀ v : Val, v.Storable → ∀ x ∈ v.numbers, Number.isFinite x = true
  | .num x, h => by
    rw [Val.Storable] at h
    rw [Val.numbers]
    exact List.forall_mem_singleton.mpr h
  | .list items, h => by
    rw [Val.Storable] at h
    rw [Val.numbers]
    exact Val.finite_of_storableItems items h
  | .map fields, h => by
    rw [Val.Storable] at h
    rw [Val.numbers]
    exact Val.finite_of_storableFields fields h.2
  | .closure c, h => by
    rw [Val.Storable] at h
    rw [Val.numbers]
    exact Closure.finite_of_storable c h
  | .null, _ | .bool _, _ | .str _, _ | .error _, _ | .handle _, _ => by simp [Val.numbers]

theorem Val.finite_of_storableItems : ∀ items : List Val, Val.StorableItems items →
    ∀ x ∈ Val.numbersInItems items, Number.isFinite x = true
  | [], _ => by simp [Val.numbersInItems]
  | item :: rest, h => by
    rw [Val.StorableItems] at h
    rw [Val.numbersInItems, List.forall_mem_append]
    exact ⟨Val.finite_of_storable item h.1, Val.finite_of_storableItems rest h.2⟩

theorem Val.finite_of_storableFields : ∀ fields : List (String × Val), Val.StorableFields fields →
    ∀ x ∈ Val.numbersInFields fields, Number.isFinite x = true
  | [], _ => by simp [Val.numbersInFields]
  | (_, value) :: rest, h => by
    rw [Val.StorableFields] at h
    rw [Val.numbersInFields, List.forall_mem_append]
    exact ⟨Val.finite_of_storable value h.1, Val.finite_of_storableFields rest h.2⟩

/-- The numbers of a closure are those of its code and of what it has captured. -/
theorem Closure.finite_of_storable : ∀ c : Closure Val, Closure.Storable c →
    ∀ x ∈ Closure.numbers c, Number.isFinite x = true
  | ⟨program, _, captured⟩, h => by
    rw [Closure.Storable] at h
    rw [Closure.numbers, List.forall_mem_append]
    exact ⟨Program.finite_of_storable program h.1, Val.finite_of_storableFields captured h.2.2⟩

/-- Of a program only its constants have numbers, so that the names and the lines do not matter. -/
theorem Program.finite_of_storable : ∀ p : Program Val, Program.Storable p →
    ∀ x ∈ Program.numbers p, Number.isFinite x = true
  | ⟨_, chunks⟩, h => by
    rw [Program.Storable] at h
    rw [Program.numbers]
    exact Chunk.finite_of_storableAll chunks h

theorem Chunk.finite_of_storableAll : ∀ chunks : List (Chunk Val), Chunk.StorableAll chunks →
    ∀ x ∈ Chunk.numbersInAll chunks, Number.isFinite x = true
  | [], _ => by simp [Chunk.numbersInAll]
  | ⟨_, code, _, _⟩ :: rest, h => by
    rw [Chunk.StorableAll, Chunk.Storable] at h
    rw [Chunk.numbersInAll, Chunk.numbers, List.forall_mem_append]
    exact ⟨Instr.finite_of_storableAll code h.1, Chunk.finite_of_storableAll rest h.2⟩

theorem Instr.finite_of_storableAll : ∀ code : List (Instr Val), Instr.StorableAll code →
    ∀ x ∈ Instr.numbersInCode code, Number.isFinite x = true
  | [], _ => by simp [Instr.numbersInCode]
  | instr :: rest, h => by
    rw [Instr.StorableAll] at h
    rw [Instr.numbersInCode, List.forall_mem_append]
    exact ⟨Instr.finite_of_storable instr h.1, Instr.finite_of_storableAll rest h.2⟩

/-- Only a constant holds a value. -/
theorem Instr.finite_of_storable : ∀ instr : Instr Val, Instr.Storable instr →
    ∀ x ∈ Instr.numbers instr, Number.isFinite x = true
  | .const value, h => by
    rw [Instr.Storable] at h
    rw [Instr.numbers]
    exact Val.finite_of_storable value h
  | .load _, _ | .declare _, _ | .store _, _ | .pop, _ | .binary _, _ | .unary _, _
  | .makeList _, _ | .makeClosure _, _ | .call _ _ _, _ | .jump _, _ | .jumpIfFalse _, _
  | .jumpIfFalseKeep _, _ | .jumpIfTrueKeep _, _ | .enterScope, _ | .exitScope, _
  | .pushHandler _, _ | .popHandler, _ | .throw, _ | .ret, _ => by simp [Instr.numbers]

end

/-! ## What can be stored is read back -/

/-- **A value is read back.** -/
theorem Val.ofDocument?_toJson {v : Val} (h : v.Storable) :
    Val.ofDocument? (ofJson v.toJson) = some v :=
  (valOf?_toJson false v).trans (whenFinite_eq_some_iff.mpr ⟨v.finite_of_storable h, rfl⟩)

/-- Values in a list are read back, in their order. -/
theorem list?_values {items : List Val} (h : Val.StorableItems items) :
    (ofJson (.arr (Val.itemsToJson items))).list? Val.ofDocument? = some items :=
  (list?_values_eq items).trans (whenFinite_eq_some_iff.mpr ⟨Val.finite_of_storableItems items h, rfl⟩)

/-- A closure is read back with its whole program. -/
theorem Closure.ofDocument?_toJson {c : Closure Val} (h : Closure.Storable c) :
    Closure.ofDocument? (ofJson c.toJson) = some c :=
  (closureOf?_toJson false c).trans (whenFinite_eq_some_iff.mpr ⟨Closure.finite_of_storable c h, rfl⟩)

/-- Variables are read back with their names. -/
theorem scopeOfDocument?_toJson {scope : Scope} (h : Val.StorableFields scope) :
    scopeOfDocument? (ofJson (scopeToJson scope)) = some scope :=
  (scopeOfDocument?_eq scope).trans
    (whenFinite_eq_some_iff.mpr ⟨Val.finite_of_storableFields scope h, rfl⟩)

/-- An outcome that can be stored. -/
def Outcome.Storable : Outcome → Prop
  | .ok value => value.Storable
  | .error _ => True

instance (outcome : Outcome) : Decidable (Outcome.Storable outcome) :=
  match outcome with
  | .ok value => value.decideStorable
  | .error _ => .isTrue trivial

/-- **An outcome is read back.** -/
theorem Outcome.ofDocument?_toJson {outcome : Outcome} (h : Outcome.Storable outcome) :
    Outcome.ofDocument? (ofJson (Outcome.toJson outcome)) = some outcome := by
  cases outcome with
  | ok value =>
    rw [Outcome.toJson, ofJson, ofMembers, ofMembers, Outcome.ofDocument?, Val.ofDocument?_toJson h]
    rfl
  | error failure =>
    rw [Outcome.toJson, ofJson, ofMembers, ofMembers, Outcome.ofDocument?,
      failure.ofDocument?_toJson]
    rfl

/-- **A machine that can be stored.** -/
structure Machine.Storable (m : Machine) : Prop where
  program : Program.Storable m.program
  stack : Val.StorableItems m.stack.reverse
  scopes : ∀ scope ∈ m.scopes, Table.Sorted scope ∧ Val.StorableFields scope

instance (m : Machine) : Decidable m.Storable :=
  have : ∀ p, Decidable (Program.Storable p) := Program.decideStorable
  have : ∀ items, Decidable (Val.StorableItems items) := Val.decideStorableItems
  have : ∀ fields, Decidable (Val.StorableFields fields) := Val.decideStorableFields
  decidable_of_iff (Program.Storable m.program ∧ Val.StorableItems m.stack.reverse ∧
      ∀ scope ∈ m.scopes, scope.Pairwise (fun (a b : String × Val) => compare a.1 b.1 = .lt) ∧ Val.StorableFields scope)
    ⟨fun ⟨hprogram, hstack, hscopes⟩ => ⟨hprogram, hstack, hscopes⟩,
      fun h => ⟨h.program, h.stack, h.scopes⟩⟩

/-- The numbers of a machine are in its program, on its stack and in its scopes. -/
theorem Machine.Storable.finite {m : Machine} (h : m.Storable) :
    ∀ x ∈ m.numbers, Number.isFinite x = true := by
  have hstack := Val.finite_of_storableItems _ h.stack
  simp only [Val.numbersInItems_eq, List.mem_flatMap, List.mem_reverse] at hstack
  simp only [Machine.numbers, List.forall_mem_append, Val.numbersInItems_eq, List.mem_flatMap]
  -- the stack is written from its bottom, which makes no difference to its numbers
  refine ⟨Program.finite_of_storable _ h.program, hstack, ?_⟩
  rintro x ⟨scope, hscope, hx⟩
  exact Val.finite_of_storableFields scope (h.scopes scope hscope).2 x hx

/-- **A machine is read back.** -/
theorem Machine.ofJson?_toJson {m : Machine} (h : m.Storable) :
    Machine.ofJson? m.toJson = some m :=
  m.ofJson?_eq.trans (whenFinite_eq_some_iff.mpr ⟨h.finite, rfl⟩)

/-! ## What is written is in order -/

/-- The kind of a value stands in front of its contents. -/
theorem ordered_tagged {kind : String} {contents : Json} (h : contents.Ordered) :
    (tagged kind contents).Ordered := by
  refine .obj (show ["t", "v"].Pairwise _ by decide) ?_
  simp [h, Json.Ordered]

/-- An instruction that has an argument names it first. -/
theorem ordered_operation {name : String} {arg : Json} (h : arg.Ordered) :
    (operation name arg).Ordered := by
  refine .obj (show ["arg", "op"].Pairwise _ by decide) ?_
  simp [h, Json.Ordered]

/-- An instruction without an argument has one member only. -/
theorem ordered_bareOperation (name : String) : (bareOperation name).Ordered := by
  refine .obj (show ["op"].Pairwise _ by decide) ?_
  simp [Json.Ordered]

/-- The fields of a map have the same names when they are written. -/
theorem keys_fieldsToJson (fields : List (String × Val)) :
    (Val.fieldsToJson fields).map Prod.fst = fields.map Prod.fst := by
  induction fields with
  | nil => rw [Val.fieldsToJson, List.map_nil, List.map_nil]
  | cons field rest ih => rw [Val.fieldsToJson, List.map_cons, List.map_cons, ih]

/-- **A map in key order is written in order.** -/
theorem ordered_fields {fields : List (String × Val)} (hsorted : Table.Sorted fields)
    (h : Json.OrderedMembers (Val.fieldsToJson fields)) :
    (Json.obj (Val.fieldsToJson fields)).Ordered := by
  rw [Json.Ordered]
  -- whether members are in order is seen from their names alone
  refine ⟨Table.sorted_iff_keys.mpr ?_, h⟩
  rw [Table.keys, keys_fieldsToJson]
  exact Table.sorted_iff_keys.mp hsorted

mutual

/-- **A failure is written in order**, with those that it has suppressed. -/
theorem ordered_failure : ∀ failure : Failure, failure.toJson.Ordered
  -- without suppressed failures there is no member for them
  | ⟨code, message, []⟩ => by
    rw [Failure.toJson]
    refine .obj (show ["code", "message"].Pairwise _ by decide) ?_
    simp [Json.Ordered]
  | ⟨code, message, first :: rest⟩ => by
    rw [Failure.toJson]
    refine .obj (show ["code", "message", "suppressed"].Pairwise _ by decide) ?_
    simp [Json.Ordered, Json.OrderedItems, ordered_failure first, ordered_failures rest]

theorem ordered_failures : ∀ failures : List Failure,
    Json.OrderedItems (Failure.toJsonAll failures)
  | [] => by rw [Failure.toJsonAll, Json.OrderedItems]; trivial
  | failure :: rest => by
    rw [Failure.toJsonAll, Json.OrderedItems]
    exact ⟨ordered_failure failure, ordered_failures rest⟩

end

theorem Handle.ordered_toJson (h : Handle) : h.toJson.Ordered := by
  refine .obj (show ["key", "kind"].Pairwise _ by decide) ?_
  simp [Json.Ordered]

/-- A number is written without members, whether it is finite or not. -/
theorem ordered_ofFloat (x : Float) : (Json.ofFloat x).Ordered := by
  rw [Json.ofFloat]
  split <;> simp [Json.Ordered]

/-- Of the instructions only a constant has a value in it; the others are in order whatever they name. -/
theorem ordered_instr_plain {instr : Instr Val} (h : ∀ value, instr ≠ .const value) :
    (instrToJson instr).Ordered := by
  cases instr with
  | const value => exact absurd rfl (h value)
  | pop | enterScope | exitScope | popHandler | throw | ret =>
    rw [instrToJson]
    exact ordered_bareOperation _
  | load name | declare name | store name =>
    rw [instrToJson]
    exact ordered_operation (by simp [Json.Ordered])
  | binary op | unary op =>
    rw [instrToJson]
    exact ordered_operation (by simp [Json.Ordered])
  | makeList n | makeClosure n | jump n | jumpIfFalse n | jumpIfFalseKeep n | jumpIfTrueKeep n
  | pushHandler n =>
    rw [instrToJson]
    exact ordered_operation (.nat n)
  | call function argc body =>
    rw [instrToJson]
    refine ordered_operation (.obj (show ["argc", "body", "function"].Pairwise _ by decide) ?_)
    simp [Json.Ordered, Json.Ordered.nat]

mutual

/-- **A value that can be stored is written in order.** A map is, because its fields are in key order. -/
theorem Val.ordered_toJson : ∀ v : Val, v.Storable → v.toJson.Ordered
  | .null, _ => by
    rw [Val.toJson]
    refine .obj (show ["t"].Pairwise _ by decide) ?_
    simp [Json.Ordered]
  | .bool b, _ => by
    rw [Val.toJson]
    exact ordered_tagged (by simp [Json.Ordered])
  | .num x, _ => by
    rw [Val.toJson]
    exact ordered_tagged (ordered_ofFloat x)
  | .str s, _ => by
    rw [Val.toJson]
    exact ordered_tagged (by simp [Json.Ordered])
  | .error failure, _ => by
    rw [Val.toJson]
    exact ordered_tagged (ordered_failure failure)
  | .handle handle, _ => by
    rw [Val.toJson]
    exact ordered_tagged handle.ordered_toJson
  | .list items, h => by
    rw [Val.Storable] at h
    rw [Val.toJson]
    refine ordered_tagged ?_
    rw [Json.Ordered]
    exact Val.ordered_itemsToJson items h
  | .map fields, h => by
    rw [Val.Storable] at h
    rw [Val.toJson]
    exact ordered_tagged (ordered_fields h.1 (Val.ordered_fieldsToJson fields h.2))
  | .closure c, h => by
    rw [Val.Storable] at h
    rw [Val.toJson]
    exact ordered_tagged (ordered_closureToJson c h)

theorem Val.ordered_itemsToJson : ∀ items : List Val, Val.StorableItems items →
    Json.OrderedItems (Val.itemsToJson items)
  | [], _ => by rw [Val.itemsToJson, Json.OrderedItems]; trivial
  | item :: rest, h => by
    rw [Val.StorableItems] at h
    rw [Val.itemsToJson, Json.OrderedItems]
    exact ⟨Val.ordered_toJson item h.1, Val.ordered_itemsToJson rest h.2⟩

theorem Val.ordered_fieldsToJson : ∀ fields : List (String × Val), Val.StorableFields fields →
    Json.OrderedMembers (Val.fieldsToJson fields)
  | [], _ => by rw [Val.fieldsToJson, Json.OrderedMembers]; trivial
  | (_, value) :: rest, h => by
    rw [Val.StorableFields] at h
    rw [Val.fieldsToJson, Json.OrderedMembers]
    exact ⟨Val.ordered_toJson value h.1, Val.ordered_fieldsToJson rest h.2⟩

/-- The members of a closure are in order, and so is what each of them holds. -/
theorem ordered_closureToJson : ∀ c : Closure Val, Closure.Storable c → (closureToJson c).Ordered
  | ⟨program, chunk, captured⟩, h => by
    rw [Closure.Storable] at h
    rw [closureToJson]
    refine .obj (show ["captured", "chunk", "program"].Pairwise _ by decide) ?_
    have hcaptured := ordered_fields h.2.1 (Val.ordered_fieldsToJson captured h.2.2)
    simp [hcaptured, Json.Ordered.nat, ordered_programToJson program h.1]

theorem ordered_programToJson : ∀ p : Program Val, Program.Storable p → (programToJson p).Ordered
  | ⟨name, chunks⟩, h => by
    rw [Program.Storable] at h
    rw [programToJson]
    refine .obj (show ["chunks", "name"].Pairwise _ by decide) ?_
    simp [Json.Ordered, ordered_chunksToJson chunks h]

theorem ordered_chunksToJson : ∀ chunks : List (Chunk Val), Chunk.StorableAll chunks →
    Json.OrderedItems (chunksToJson chunks)
  | [], _ => by rw [chunksToJson, Json.OrderedItems]; trivial
  | chunk :: rest, h => by
    rw [Chunk.StorableAll] at h
    rw [chunksToJson, Json.OrderedItems]
    exact ⟨ordered_chunkToJson chunk h.1, ordered_chunksToJson rest h.2⟩

/-- A chunk has its lines beside its code, and lines are numbers. -/
theorem ordered_chunkToJson : ∀ chunk : Chunk Val, Chunk.Storable chunk →
    (chunkToJson chunk).Ordered
  | ⟨name, code, lines, callsSteps⟩, h => by
    rw [Chunk.Storable] at h
    rw [chunkToJson]
    refine .obj (show ["calls_steps", "code", "lines", "name"].Pairwise _ by decide) ?_
    -- what the chunk is called and whether it calls steps is written without members
    have hlines : Json.OrderedItems (lines.map .nat) := by
      refine Json.orderedItems_iff.mpr fun item hitem => ?_
      obtain ⟨n, _, rfl⟩ := List.mem_map.mp hitem
      exact .nat n
    simp [hlines, Json.Ordered, ordered_codeToJson code h]

theorem ordered_codeToJson : ∀ code : List (Instr Val), Instr.StorableAll code →
    Json.OrderedItems (codeToJson code)
  | [], _ => by rw [codeToJson, Json.OrderedItems]; trivial
  | instr :: rest, h => by
    rw [Instr.StorableAll] at h
    rw [codeToJson, Json.OrderedItems]
    exact ⟨ordered_instrToJson instr h.1, ordered_codeToJson rest h.2⟩

theorem ordered_instrToJson : ∀ instr : Instr Val, Instr.Storable instr →
    (instrToJson instr).Ordered
  | .const value, h => by
    rw [Instr.Storable] at h
    rw [instrToJson]
    exact ordered_operation (Val.ordered_toJson value h)
  | .load _, _ | .declare _, _ | .store _, _ | .pop, _ | .binary _, _ | .unary _, _
  | .makeList _, _ | .makeClosure _, _ | .call _ _ _, _ | .jump _, _ | .jumpIfFalse _, _
  | .jumpIfFalseKeep _, _ | .jumpIfTrueKeep _, _ | .enterScope, _ | .exitScope, _
  | .pushHandler _, _ | .popHandler, _ | .throw, _ | .ret, _ =>
    ordered_instr_plain fun _ hno => by cases hno

end

/-- An outcome has one member, which says whether it is a value or a failure. -/
theorem Outcome.ordered_toJson {outcome : Outcome} (h : Outcome.Storable outcome) :
    (Outcome.toJson outcome).Ordered := by
  cases outcome with
  | ok value =>
    refine .obj (show ["Ok"].Pairwise _ by decide) ?_
    simp [Val.ordered_toJson value h]
  | error failure =>
    refine .obj (show ["Err"].Pairwise _ by decide) ?_
    simp [ordered_failure failure]

/-- **A machine is written in order**, each of its eight members included. -/
theorem Machine.ordered_toJson {m : Machine} (h : m.Storable) : m.toJson.Ordered := by
  have hhandlers : (Json.arr (m.handlers.reverse.map Handler.toJson)).Ordered := by
    refine .arr fun item hitem => ?_
    obtain ⟨handler, _, rfl⟩ := List.mem_map.mp hitem
    refine .obj (show ["catch_pc", "scope_len", "stack_len"].Pairwise _ by decide) ?_
    simp [Json.Ordered.nat]
  have hscopes : (Json.arr (m.scopes.reverse.map scopeToJson)).Ordered := by
    refine .arr fun item hitem => ?_
    obtain ⟨scope, hmem, rfl⟩ := List.mem_map.mp hitem
    have hscope := h.scopes scope (List.mem_reverse.mp hmem)
    exact ordered_fields hscope.1 (Val.ordered_fieldsToJson scope hscope.2)
  have hstack : (Json.arr (Val.itemsToJson m.stack.reverse)).Ordered := by
    rw [Json.Ordered]
    exact Val.ordered_itemsToJson _ h.stack
  have hprogram : m.program.toJson.Ordered := ordered_programToJson _ h.program
  have hstate : (Json.str m.phase.name).Ordered := by simp [Json.Ordered]
  -- the members were written in this order, and each has its fact from above
  refine .obj (show ["budget", "chunk", "handlers", "pc", "program", "scopes", "stack",
    "state"].Pairwise _ by decide) fun member hmem => ?_
  simp only [List.mem_cons, List.not_mem_nil, or_false] at hmem
  rcases hmem with rfl | rfl | rfl | rfl | rfl | rfl | rfl | rfl
  · exact .nat _
  · exact .nat _
  · exact hhandlers
  · exact .nat _
  · exact hprogram
  · exact hscopes
  · exact hstack
  · exact hstate

end Script

end DurableFlow
