/-
The record of an execution is read back as it was saved.

A record can be stored if its numbers fit the words they are kept in, its tables are in order and have plain
names, its times have dates, and its identifier is one. Then its file reads as the record, whatever state the
execution is in.
-/
import DurableFlow.Proofs.Json.Members
import DurableFlow.Proofs.Record.Reloads

set_option autoImplicit false

namespace DurableFlow

open Text History Document

/-! ## Names -/

theorem FlowResult.ofName?_name (result : FlowResult) : FlowResult.ofName? result.name = some result := by
  cases result <;> rfl

theorem Durability.ofName?_name (durability : Durability) : Durability.ofName? durability.name = some durability := by
  cases durability <;> rfl

theorem History.StorageKind.ofName?_name (kind : StorageKind) : StorageKind.ofName? kind.name = some kind := by
  cases kind <;> rfl

/-- A name is read as what it is the name of. -/
theorem choice?_name {α : Type} {ofName? : String → Option α} {name : String} {value : α}
    (h : ofName? name = some value) :
    ((ofJson (.str name)).choice? false).bind ofName? = some value := by
  rw [Script.choice?_ofJson, Option.bind_some, h]

namespace Record

/-! ## Records that can be stored -/

/-- **A record that can be stored.** -/
structure Storable (r : Record) : Prop where
  id : isId r.id = true
  scripts : Table.Sorted r.loadedScripts
  scriptNames : ∀ name ∈ Table.keys r.loadedScripts, Json.IsPlain name
  flowStart : ∀ n, r.flowStart = some n → n < Json.wordBound
  startNodes : ∀ n ∈ r.startNodes, n < Json.wordBound
  heads : Table.Sorted r.heads
  headNumbers : ∀ entry ∈ r.heads, entry.1 < shortWordBound ∧ entry.2 < Json.wordBound
  nextNodeId : r.nextNodeId < Json.wordBound
  nextHeadId : r.nextHeadId < shortWordBound
  threadsCreated : r.threadsCreated < shortWordBound
  calls : Table.Sorted r.internalCalls
  callNames : ∀ name ∈ Table.keys r.internalCalls, Json.IsPlain name
  callNumbers : ∀ entry ∈ r.internalCalls, entry.2 < Json.wordBound
  causes : ∀ cause ∈ r.causes, cause.toJson.Fits 125
  error : ∀ failure, r.error = some failure → failure.toJson.Fits 126
  createdAt : r.createdAt.IsDated
  updatedAt : r.updatedAt.IsDated
  completedAt : ∀ time, r.completedAt = some time → time.IsDated

/-! ## Members -/

variable {r : Record}

/-- The members that every record is written with. -/
def fixedMembers (r : Record) : List (String × Json) :=
  [("id", .str r.id), ("script_name", .str r.scriptName), ("script", .str r.script),
    ("script_hash", .str r.scriptHash),
    ("loaded_scripts", .obj (Table.mapValues .str r.loadedScripts)),
    ("sandbox", .bool r.sandbox),
    ("result", Json.ofOption (fun result => .str result.name) r.result),
    ("done", .bool r.done), ("flow_start", Json.ofOption .nat r.flowStart),
    ("start_nodes", .arr (r.startNodes.map .nat)), ("heads", Json.ofNumbered .nat r.heads),
    ("next_node_id", .nat r.nextNodeId), ("next_head_id", .nat r.nextHeadId),
    ("threads_created", .nat r.threadsCreated),
    ("internal_calls", .obj (Table.mapValues .nat r.internalCalls)),
    ("durability", .str r.durability.name), ("paused", .bool r.paused),
    ("clean", .bool r.clean), ("storage", .str r.storage.name),
    ("created_at", .str r.createdAt.text), ("updated_at", .str r.updatedAt.text),
    ("completed_at", Json.ofOption (fun time => .str (Timestamp.text time)) r.completedAt)]

/-- The causes are written if there are any. -/
def causeMembers (r : Record) : List (String × Json) :=
  if r.causes.isEmpty then [] else [("causes", .arr (Failure.toJsonAll r.causes))]

/-- The members that a record is written with. -/
def members (r : Record) : List (String × Json) :=
  r.fixedMembers ++ r.causeMembers ++ Json.optionalMember "error" Failure.toJson r.error

theorem toJson_eq (r : Record) : r.toJson = Json.object r.members := rfl

/-- Causes are found only where they were written. -/
theorem find?_causeMembers (r : Record) (key : String) : Table.find? key r.causeMembers =
    if key = "causes" ∧ r.causes ≠ [] then some (.arr (Failure.toJsonAll r.causes)) else none := by
  unfold causeMembers
  cases r.causes with
  | nil => simp [Table.find?]
  | cons cause rest => simp [Table.find?_cons, Table.find?]

/-- The names stand in the order of the reader, and some may be missing. -/
theorem names_members (r : Record) : (r.members.map Prod.fst).Sublist
    (r.fixedMembers.map Prod.fst ++ ["causes"] ++ ["error"]) := by
  rw [members, List.map_append, List.map_append]
  refine ((List.Sublist.refl _).append ?_).append (Json.names_optionalMember ..)
  unfold causeMembers
  split
  · exact List.nil_sublist _
  · exact List.Sublist.refl _

theorem nodup_members (r : Record) : (r.members.map Prod.fst).Nodup := by
  refine r.names_members.nodup ?_
  show (["id", "script_name", "script", "script_hash", "loaded_scripts", "sandbox", "result", "done",
    "flow_start", "start_nodes", "heads", "next_node_id", "next_head_id", "threads_created",
    "internal_calls", "durability", "paused", "clean", "storage", "created_at", "updated_at", "completed_at",
    "causes", "error"] : List String).Nodup
  decide

theorem plain_members (r : Record) : ∀ name ∈ r.members.map Prod.fst, Json.IsPlain name := by
  have hplain : ∀ name ∈ fieldNames, Json.IsPlain name := by decide +kernel
  -- the names that are written are among those that are read
  have hall : ∀ name ∈ r.fixedMembers.map Prod.fst ++ ["causes"] ++ ["error"], name ∈ fieldNames := by
    show ∀ name ∈ ["id", "script_name", "script", "script_hash", "loaded_scripts", "sandbox", "result", "done",
      "flow_start", "start_nodes", "heads", "next_node_id", "next_head_id", "threads_created",
      "internal_calls", "durability", "paused", "clean", "storage", "created_at", "updated_at", "completed_at",
      "causes", "error"], name ∈ fieldNames
    decide
  exact fun name hname => hplain name (hall name (r.names_members.subset hname))

/-! ## Reading a record back -/

/-- Causes that were not written are read as none. -/
theorem read_causes {fields : Fields (ofJson (Json.object r.members))} (hof : fields.Of fieldNames r.members) :
    fields.fieldD? "causes" (·.list? Failure.ofDocument?) [] = some r.causes := by
  have hfixed : Table.find? "causes" r.fixedMembers = none := rfl
  have hfind : Table.find? "causes" r.members =
      if r.causes ≠ [] then some (.arr (Failure.toJsonAll r.causes)) else none := by
    rw [members, Table.find?_append, Table.find?_append, hfixed, find?_causeMembers, Json.find?_optionalMember]
    simp
  rw [hof.fieldD?_eq (by decide), hfind]
  by_cases hnone : r.causes = []
  · rw [if_neg (not_not_intro hnone), hnone]
    rfl
  · have hcauses := items?_ofJson Failure.ofDocument? (Failure.toJsonAll r.causes)
    rw [Failure.ofDocument?_all] at hcauses
    rw [if_pos hnone, Option.map_some, Option.getD_some, list?, hcauses]

/-- A failure that was not written is read as none. -/
theorem read_error {fields : Fields (ofJson (Json.object r.members))} (hof : fields.Of fieldNames r.members) :
    fields.optional? "error" Failure.ofDocument? = some r.error := by
  have hfixed : Table.find? "error" r.fixedMembers = none := rfl
  have hfind : Table.find? "error" r.members = r.error.map Failure.toJson := by
    rw [members, Table.find?_append, Table.find?_append, hfixed, find?_causeMembers, Json.find?_optionalMember]
    simp
  exact hof.optional?_of_member (by decide) hfind (fun failure _ => failure.ofDocument?_toJson)
    Failure.ofJson_toJson_ne_null

/-- **A record is read back.** -/
theorem ofDocument?_toJson (h : r.Storable) : Record.ofDocument? (ofJson r.toJson) = some r := by
  obtain ⟨fields, hfields, hof⟩ := record?_object fieldNames 24 r.nodup_members
  have hid : idOfDocument? (ofJson (.str r.id)) = some r.id := by
    rw [idOfDocument?, str?_ofJson, Option.filter_some, if_pos h.id]
  have hresult : option? (fun d => (d.choice? false).bind FlowResult.ofName?)
      (ofJson (Json.ofOption (fun result => .str result.name) r.result)) = some r.result :=
    option?_ofOption (fun result _ => choice?_name result.ofName?_name) fun result => ofJson_str_ne_null _
  have hcompleted : option? timestampOfDocument?
      (ofJson (Json.ofOption (fun time => .str (Timestamp.text time)) r.completedAt)) = some r.completedAt :=
    option?_ofOption (fun time htime => timestampOfDocument?_ofJson (h.completedAt time htime))
      fun time => ofJson_str_ne_null _
  have hheads : numbered? shortWordBound nat? (ofJson (Json.ofNumbered .nat r.heads)) = some r.heads :=
    numbered?_ofNumbered h.heads (fun entry hmem => (h.headNumbers entry hmem).1) fun entry _ => nat?_ofJson entry.2
  have hscripts : named? str? (ofJson (.obj (Table.mapValues .str r.loadedScripts))) = some r.loadedScripts :=
    named?_mapValues h.scripts fun entry _ => str?_ofJson entry.2
  have hcalls : named? nat? (ofJson (.obj (Table.mapValues .nat r.internalCalls))) = some r.internalCalls :=
    named?_mapValues h.calls fun entry _ => nat?_ofJson entry.2
  have hcauses := read_causes hof
  have herror := read_error hof
  rw [fieldNames] at hof
  -- the reader takes one member after the other, and finds each as it was written
  rw [toJson_eq, Record.ofDocument?]
  refine (bind_eq_of_some hfields).trans ?_
  refine (bind_eq_of_some (hof.field?_of_read (show "id" ∈ _ by decide) rfl hid)).trans ?_
  refine (bind_eq_of_some (hof.field?_of_read (show "script_name" ∈ _ by decide) rfl (str?_ofJson _))).trans ?_
  refine (bind_eq_of_some (hof.field?_of_read (show "script" ∈ _ by decide) rfl (str?_ofJson _))).trans ?_
  refine (bind_eq_of_some (hof.field?_of_read (show "script_hash" ∈ _ by decide) rfl (str?_ofJson _))).trans ?_
  refine (bind_eq_of_some (hof.fieldD?_of_read (show "loaded_scripts" ∈ _ by decide) rfl hscripts)).trans ?_
  refine (bind_eq_of_some (hof.fieldD?_of_read (show "sandbox" ∈ _ by decide) rfl (bool?_ofJson _))).trans ?_
  refine (bind_eq_of_some (hof.optional?_of_read (show "result" ∈ _ by decide) rfl hresult)).trans ?_
  refine (bind_eq_of_some (hof.fieldD?_of_read (show "done" ∈ _ by decide) rfl (bool?_ofJson _))).trans ?_
  refine (bind_eq_of_some (hof.optional?_of_read (show "flow_start" ∈ _ by decide) rfl (option?_nat _))).trans ?_
  refine (bind_eq_of_some (hof.fieldD?_of_read (show "start_nodes" ∈ _ by decide) rfl
    (Script.list?_nats _))).trans ?_
  refine (bind_eq_of_some (hof.fieldD?_of_read (show "heads" ∈ _ by decide) rfl hheads)).trans ?_
  refine (bind_eq_of_some (hof.field?_of_read (show "next_node_id" ∈ _ by decide) rfl (nat?_ofJson _))).trans ?_
  refine (bind_eq_of_some (hof.field?_of_read (show "next_head_id" ∈ _ by decide) rfl
    (shortNat?_ofJson h.nextHeadId))).trans ?_
  refine (bind_eq_of_some (hof.fieldD?_of_read (show "threads_created" ∈ _ by decide) rfl
    (shortNat?_ofJson h.threadsCreated))).trans ?_
  refine (bind_eq_of_some (hof.fieldD?_of_read (show "internal_calls" ∈ _ by decide) rfl hcalls)).trans ?_
  refine (bind_eq_of_some (hof.fieldD?_of_read (show "durability" ∈ _ by decide) rfl
    (choice?_name r.durability.ofName?_name))).trans ?_
  refine (bind_eq_of_some (hof.fieldD?_of_read (show "paused" ∈ _ by decide) rfl (bool?_ofJson _))).trans ?_
  refine (bind_eq_of_some (hof.fieldD?_of_read (show "clean" ∈ _ by decide) rfl (bool?_ofJson _))).trans ?_
  refine (bind_eq_of_some (hof.fieldD?_of_read (show "storage" ∈ _ by decide) rfl
    (choice?_name r.storage.ofName?_name))).trans ?_
  refine (bind_eq_of_some hcauses).trans ?_
  refine (bind_eq_of_some herror).trans ?_
  refine (bind_eq_of_some (hof.field?_of_read (show "created_at" ∈ _ by decide) rfl
    (timestampOfDocument?_ofJson h.createdAt))).trans ?_
  refine (bind_eq_of_some (hof.field?_of_read (show "updated_at" ∈ _ by decide) rfl
    (timestampOfDocument?_ofJson h.updatedAt))).trans ?_
  exact bind_eq_of_some (hof.optional?_of_read (show "completed_at" ∈ _ by decide) rfl hcompleted)

/-- What a record is written as is within the bounds of the reader. -/
theorem fits_toJson (h : r.Storable) : r.toJson.Fits Json.maxDepth := by
  have hfixed : ∀ member ∈ r.fixedMembers, member.2.Fits 126 := by
    simp only [fixedMembers, List.forall_mem_cons, Json.Fits.str, Json.Fits.bool, true_and]
    refine ⟨.mapValues h.scriptNames fun entry _ => .str _, .ofOption fun result _ => .str _,
      .ofOption fun n hn => .nat (h.flowStart n hn), .nats h.startNodes,
      .ofNumbered fun entry hmem => .nat (h.headNumbers entry hmem).2, .nat h.nextNodeId, .nat ?_, .nat ?_,
      .mapValues h.callNames fun entry hmem => .nat (h.callNumbers entry hmem), .ofOption fun time _ => .str _,
      List.forall_mem_nil _⟩
    · exact Nat.lt_trans h.nextHeadId (by decide)
    · exact Nat.lt_trans h.threadsCreated (by decide)
  have hcauses : ∀ member ∈ r.causeMembers, member.2.Fits 126 := by
    unfold causeMembers
    split
    · exact List.forall_mem_nil _
    · refine List.forall_mem_singleton.mpr (.arr fun item hitem => ?_)
      rw [Failure.toJsonAll_eq] at hitem
      obtain ⟨cause, hmem, rfl⟩ := List.mem_map.mp hitem
      exact h.causes cause hmem
  rw [toJson_eq]
  refine .object r.plain_members (List.forall_mem_append.mpr ⟨List.forall_mem_append.mpr ⟨hfixed, hcauses⟩, ?_⟩)
  exact .optionalMember h.error

/-- **The file of a record reads as the record.** -/
theorem Storable.readsBack (h : r.Storable) : r.ReadsBack := by
  rw [ReadsBack, Json.document?_render .indented (fits_toJson h), Option.bind_some, ofDocument?_toJson h]

end Record

end DurableFlow
