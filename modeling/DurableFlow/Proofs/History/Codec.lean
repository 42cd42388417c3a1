/-
A node of the history is read back as it was written, with its actions.

What a node needs is what the reader asks for: its numbers are words, its time has a date, and what a step has
left beside it is in key order, without doubles, and not nested too deep. Then its file reads as the node, and
the file of a whole history reads as all of its nodes.
-/
import DurableFlow.Proofs.Json.Members
import DurableFlow.Proofs.Record.Reloads

set_option autoImplicit false

namespace DurableFlow.History

open Text Document

/-! ## Kinds -/

/-- The start that a node closes, if it is an end. -/
def NodeKind.closes : NodeKind → Option Nat
  | .flowEnd start => some start
  | .blockEnd start => some start
  | _ => none

/-- The kind of a node is written as a tagged object in order. -/
theorem NodeKind.ordered_toJson (kind : NodeKind) : kind.toJson.Ordered := by
  cases kind with
  | flowStart | atom =>
    refine .obj (show ["type"].Pairwise _ by decide) ?_
    simp [Json.Ordered]
  | flowEnd start | blockEnd start =>
    refine .obj (show ["start", "type"].Pairwise _ by decide) ?_
    simp [Json.Ordered, Json.Ordered.nat]
  | blockStart body =>
    refine .obj (show ["body", "type"].Pairwise _ by decide) ?_
    simp [Json.Ordered]

/-- The start that an end names is read back. -/
theorem start_ofJson (start : Nat) :
    ((record? ["start"] 1 (ofJson (.obj [("start", .nat start)]))).bind fun fields =>
      fields.field? "start" nat?) = some start := by
  obtain ⟨fields, hfields, hof⟩ :=
    record?_ofJson ["start"] 1 (show ([("start", Json.nat start)].map Prod.fst).Nodup by simp)
  rw [hfields, Option.bind_some, hof.field?_of_read (by decide) rfl (nat?_ofJson start)]

/-- **A kind is read back**, with the start that it closes. -/
theorem NodeKind.ofDocument?_toJson (kind : NodeKind) : NodeKind.ofDocument? (ofJson kind.toJson) = some kind := by
  have hordered := kind.ordered_toJson
  cases kind with
  | flowStart | atom =>
    rw [NodeKind.toJson] at hordered ⊢
    rw [NodeKind.ofDocument?, variant?_ofJson hordered rfl]
    rfl
  | flowEnd start =>
    rw [NodeKind.toJson] at hordered ⊢
    rw [NodeKind.ofDocument?, variant?_ofJson hordered rfl]
    exact congrArg (Option.map NodeKind.flowEnd) (start_ofJson start)
  | blockEnd start =>
    rw [NodeKind.toJson] at hordered ⊢
    rw [NodeKind.ofDocument?, variant?_ofJson hordered rfl]
    exact congrArg (Option.map NodeKind.blockEnd) (start_ofJson start)
  | blockStart body =>
    obtain ⟨fields, hfields, hof⟩ :=
      record?_ofJson ["body"] 1 (show ([("body", Json.bool body)].map Prod.fst).Nodup by simp)
    rw [NodeKind.toJson] at hordered ⊢
    rw [NodeKind.ofDocument?, variant?_ofJson hordered rfl]
    show (record? ["body"] 1 (ofJson (.obj [("body", .bool body)])) >>= fun fields => do
      return NodeKind.blockStart (← fields.field? "body" bool?)) = _
    refine (bind_eq_of_some hfields).trans ?_
    exact bind_eq_of_some (hof.field?_of_read (by decide) rfl (bool?_ofJson body))

theorem NodeKind.fits_toJson {kind : NodeKind} (h : ∀ start, kind.closes = some start → start < Json.wordBound)
    (depth : Nat) : kind.toJson.Fits (depth + 1) := by
  cases kind with
  | flowStart | atom => exact .obj (show ∀ name ∈ ["type"], Json.IsPlain name by decide) (by simp [Json.Fits.str])
  | flowEnd start | blockEnd start =>
    refine .obj (show ∀ name ∈ ["start", "type"], Json.IsPlain name by decide) ?_
    simp [Json.Fits.str, Json.Fits.nat (h start rfl)]
  | blockStart body =>
    refine .obj (show ∀ name ∈ ["body", "type"], Json.IsPlain name by decide) ?_
    simp [Json.Fits.str, Json.Fits.bool]

/-! ## Nodes -/

/-- **A node that can be stored** where so many levels may be nested in it. -/
structure Node.Storable (depth : Nat) (node : Node) : Prop where
  id : node.id < Json.wordBound
  parents : ∀ parent ∈ node.parents, parent < Json.wordBound
  kind : ∀ start, node.kind.closes = some start → start < Json.wordBound
  error : ∀ failure, node.error = some failure → failure.toJson.Fits depth
  startedAt : node.startedAt.IsDated

/-- The members that a node is written with. -/
def Node.members (node : Node) : List (String × Json) :=
  [("id", .nat node.id), ("parents", .arr (node.parents.map .nat)), ("kind", node.kind.toJson),
    ("started_at", .str node.startedAt.text)]
  ++ Json.optionalMember "function_name" .str node.functionName
  ++ Json.optionalMember "display_name" .str node.displayName
  ++ Json.optionalMember "error" Failure.toJson node.error

theorem Node.toJson_eq (node : Node) : node.toJson = Json.object node.members := rfl

/-- The members come in this order, and those without a value are left out. -/
theorem Node.names_members (node : Node) : (node.members.map Prod.fst).Sublist
    ["id", "parents", "kind", "started_at", "function_name", "display_name", "error"] := by
  rw [Node.members, List.map_append, List.map_append, List.map_append]
  have hfixed : ["id", "parents", "kind", "started_at"].Sublist ["id", "parents", "kind", "started_at"] :=
    List.Sublist.refl _
  exact ((hfixed.append (Json.names_optionalMember ..)).append (Json.names_optionalMember ..)).append
    (Json.names_optionalMember ..)

/-- **A node is read back.** -/
theorem Node.ofDocument?_toJson {depth : Nat} {node : Node} (h : node.Storable depth) :
    Node.ofDocument? (ofJson node.toJson) = some node := by
  have hnodup : (node.members.map Prod.fst).Nodup := node.names_members.nodup (by decide)
  obtain ⟨fields, hfields, hof⟩ := record?_object Node.fieldNames 7 hnodup
  have hfunction : Table.find? "function_name" node.members = node.functionName.map .str := by
    simp [Node.members, Table.find?_append, Json.find?_optionalMember, Table.find?_cons, Table.find?]
  have hdisplay : Table.find? "display_name" node.members = node.displayName.map .str := by
    simp [Node.members, Table.find?_append, Json.find?_optionalMember, Table.find?_cons, Table.find?]
  have herror : Table.find? "error" node.members = node.error.map Failure.toJson := by
    simp [Node.members, Table.find?_append, Json.find?_optionalMember, Table.find?_cons, Table.find?]
  rw [Node.toJson_eq, Node.ofDocument?]
  refine (bind_eq_of_some hfields).trans ?_
  refine (bind_eq_of_some (hof.field?_of_read (show "id" ∈ _ by decide) rfl (nat?_ofJson _))).trans ?_
  refine (bind_eq_of_some (hof.field?_of_read (show "parents" ∈ _ by decide) rfl (Script.list?_nats _))).trans ?_
  refine (bind_eq_of_some (hof.field?_of_read (show "kind" ∈ _ by decide) rfl node.kind.ofDocument?_toJson)).trans ?_
  refine (bind_eq_of_some (hof.optional?_of_member (show "function_name" ∈ _ by decide) hfunction
    (fun name _ => str?_ofJson name) ofJson_str_ne_null)).trans ?_
  refine (bind_eq_of_some (hof.optional?_of_member (show "display_name" ∈ _ by decide) hdisplay
    (fun name _ => str?_ofJson name) ofJson_str_ne_null)).trans ?_
  refine (bind_eq_of_some (hof.optional?_of_member (show "error" ∈ _ by decide) herror
    (fun failure _ => failure.ofDocument?_toJson) Failure.ofJson_toJson_ne_null)).trans ?_
  exact bind_eq_of_some (hof.field?_of_read (show "started_at" ∈ _ by decide) rfl
    (timestampOfDocument?_ofJson h.startedAt))

/-- A node adds two levels around its failure. -/
theorem Node.fits_toJson {depth : Nat} {node : Node} (h : node.Storable (depth + 1)) :
    node.toJson.Fits (depth + 2) := by
  have hplain : ∀ name ∈ ["id", "parents", "kind", "started_at", "function_name", "display_name", "error"],
      Json.IsPlain name := by decide
  rw [Node.toJson_eq]
  refine .object (fun name hname => hplain name (node.names_members.subset hname)) ?_
  have hfixed : ∀ member ∈ [("id", .nat node.id), ("parents", .arr (node.parents.map .nat)),
      ("kind", node.kind.toJson), ("started_at", .str node.startedAt.text)], member.2.Fits (depth + 1) := by
    simp only [List.forall_mem_cons]
    exact ⟨.nat h.id, .nats h.parents, NodeKind.fits_toJson h.kind depth, .str _, List.forall_mem_nil _⟩
  have hnames : ∀ (name : String) (value : Option String),
      ∀ member ∈ Json.optionalMember name .str value, member.2.Fits (depth + 1) :=
    fun name value => .optionalMember fun text _ => .str text
  rw [Node.members]
  refine List.forall_mem_append.mpr ⟨List.forall_mem_append.mpr ⟨List.forall_mem_append.mpr ⟨hfixed, ?_⟩, ?_⟩, ?_⟩
  · exact hnames "function_name" node.functionName
  · exact hnames "display_name" node.displayName
  · exact .optionalMember h.error

/-! ## Nodes with their actions -/

/-- **An action that can be stored** where so many levels may be nested in it. -/
structure Action.Storable (depth : Nat) (action : Action) : Prop where
  ordered : action.data.Ordered
  fits : action.data.Fits depth

/-- **An action is read back.** -/
theorem Action.ofDocument?_toJson {depth : Nat} {action : Action} (h : action.Storable depth) :
    Action.ofDocument? (ofJson action.toJson) = some action := by
  have hnodup : ([("data", action.data), ("kind", .str action.kind)].map Prod.fst).Nodup := by simp
  obtain ⟨fields, hfields, hof⟩ := record?_ofJson ["kind", "data"] 2 hnodup
  rw [Action.toJson, Action.ofDocument?]
  refine (bind_eq_of_some hfields).trans ?_
  refine (bind_eq_of_some (hof.field?_of_read (by decide) rfl (str?_ofJson _))).trans ?_
  exact bind_eq_of_some (hof.field?_of_read (by decide) rfl (json?_ofJson _ h.ordered))

theorem Action.fits_toJson {depth : Nat} {action : Action} (h : action.Storable depth) :
    action.toJson.Fits (depth + 1) := by
  refine .obj (show ∀ name ∈ ["data", "kind"], Json.IsPlain name by decide) ?_
  simp only [List.forall_mem_cons]
  exact ⟨h.fits, .str _, List.forall_mem_nil _⟩

/-- **A node that can be stored with its actions** where so many levels may be nested in them. -/
structure StoredNode.Storable (depth : Nat) (stored : StoredNode) : Prop where
  node : stored.node.Storable (depth + 1)
  actions : ∀ action ∈ stored.actions, action.Storable depth

variable {depth : Nat} {stored : StoredNode}

/-- **A node is read back with its actions.** -/
theorem StoredNode.ofDocument?_toJson (h : stored.Storable depth) :
    StoredNode.ofDocument? (ofJson stored.toJson) = some stored := by
  have hnodup : ([("actions", .arr (stored.actions.map Action.toJson)),
      ("node", stored.node.toJson)].map Prod.fst).Nodup := by simp
  obtain ⟨fields, hfields, hof⟩ := record?_ofJson ["node", "actions"] 1 hnodup
  have hactions : (ofJson (.arr (stored.actions.map Action.toJson))).list? Action.ofDocument? =
      some stored.actions :=
    list?_map fun action hmem => Action.ofDocument?_toJson (h.actions action hmem)
  rw [StoredNode.toJson, StoredNode.ofDocument?]
  refine (bind_eq_of_some hfields).trans ?_
  refine (bind_eq_of_some (hof.field?_of_read (by decide) rfl (Node.ofDocument?_toJson h.node))).trans ?_
  exact bind_eq_of_some (hof.fieldD?_of_read (by decide) rfl hactions)

/-- A node with its actions adds three levels. -/
theorem StoredNode.fits_toJson (h : stored.Storable depth) : stored.toJson.Fits (depth + 3) := by
  have hactions : (Json.arr (stored.actions.map Action.toJson)).Fits (depth + 2) := by
    refine .arr fun item hitem => ?_
    obtain ⟨action, hmem, rfl⟩ := List.mem_map.mp hitem
    exact Action.fits_toJson (h.actions action hmem)
  refine .obj (show ∀ name ∈ ["actions", "node"], Json.IsPlain name by decide) ?_
  simp only [List.forall_mem_cons]
  exact ⟨hactions, Node.fits_toJson h.node, List.forall_mem_nil _⟩

/-- **The file of a node reads as the node**, with its actions. -/
theorem StoredNode.readsBack (h : stored.Storable 124) : stored.ReadsBack := by
  rw [StoredNode.ReadsBack, Json.document?_render .indented (StoredNode.fits_toJson h), Option.bind_some,
    StoredNode.ofDocument?_toJson h]

/-- **The file of a history reads as its nodes.** -/
theorem StoredNode.allReadBack {nodes : List StoredNode} (h : ∀ stored ∈ nodes, stored.Storable 123) :
    (Json.document? ((Json.arr (nodes.map StoredNode.toJson)).render .indented)).bind
      (·.list? StoredNode.ofDocument?) = some nodes := by
  have hfits : (Json.arr (nodes.map StoredNode.toJson)).Fits Json.maxDepth := by
    refine .arr fun item hitem => ?_
    obtain ⟨stored, hmem, rfl⟩ := List.mem_map.mp hitem
    exact StoredNode.fits_toJson (h stored hmem)
  rw [Json.document?_render .indented hfits, Option.bind_some]
  exact list?_map fun stored hmem => StoredNode.ofDocument?_toJson (h stored hmem)

/-- Whether a node says no more than where it stands in the history, and when it was made. -/
def StoredNode.isBare (stored : StoredNode) : Bool :=
  decide (stored.node.id < Json.wordBound) && stored.node.parents.all (· < Json.wordBound) &&
    stored.node.kind.closes.all (· < Json.wordBound) && stored.node.error.isNone &&
    Timestamp.isDay (stored.node.startedAt.millis.fdiv 86400000) && stored.actions.isEmpty

/-- What is bare has nothing in it that could be nested too deep. -/
theorem StoredNode.storable_of_isBare (h : stored.isBare = true) (depth : Nat) : stored.Storable depth := by
  simp only [isBare, Bool.and_eq_true, decide_eq_true_eq, List.all_eq_true, Option.isNone_iff_eq_none,
    List.isEmpty_iff, Option.all_eq_true_iff_get] at h
  obtain ⟨⟨⟨⟨⟨hid, hparents⟩, hkind⟩, herror⟩, hdated⟩, hactions⟩ := h
  refine ⟨⟨hid, hparents, fun start hstart => ?_, fun failure hfailure => ?_, hdated⟩, fun action hmem => ?_⟩
  · simpa [hstart] using hkind
  · rw [herror] at hfailure
    cases hfailure
  · rw [hactions] at hmem
    cases hmem

/-- The nodes that are held can be stored, each in its own file or all in one. -/
def Storage.Storable : Storage → Prop
  | .perNode files => ∀ stored ∈ Table.values files.cache, stored.Storable 124
  | .bulk whole => ∀ stored ∈ Table.values whole.nodes, stored.Storable 123

/-- **What can be stored is legible.** -/
theorem Storage.Storable.legible {storage : Storage} (h : storage.Storable) : storage.Legible := by
  cases storage with
  | perNode files =>
    intro id stored hstored _
    exact StoredNode.readsBack (h stored (List.mem_map_of_mem (Table.mem_of_find? hstored)))
  | bulk whole => exact fun _ => StoredNode.allReadBack h

end DurableFlow.History
