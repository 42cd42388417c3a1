/-
A saved machine comes back as it was, or it does not come back.

What is written of a value is an object for each of its parts, and each part is read where it was
written. One thing is lost on the way: a number that is not finite is written as null, and null is read
as no number. So a value is read back exactly when all numbers in it are finite, however deep in lists,
maps, captured variables and the constants of programs they are. A closure is written with the program
that it belongs to, so values, code and closures are read back together, and a machine with them.
-/
import DurableFlow.Proofs.Json.Document
import DurableFlow.Script.Codec

set_option autoImplicit false

namespace DurableFlow

open Script

namespace Document

/-! ## Kinds -/

/-- The kind and the contents of an object are found under their names. -/
theorem tagged?_ofJson (loose : Bool) (tag contents : String) {kind : String}
    {members : List (String × Json)} (hnodup : (members.map Prod.fst).Nodup)
    (hkind : Table.find? tag members = some (.str kind)) :
    ∃ part, tagged? loose tag contents (ofJson (.obj members)) = some (kind, part) ∧
      part.map Subtype.val = (Table.find? contents members).map ofJson := by
  obtain ⟨fields, hfields, hof⟩ := record?_ofJson [tag, contents] 2 hnodup
  refine ⟨fields.part? contents, ?_, hof.part contents (by simp)⟩
  have hchoice : fields.field? tag (choice? loose) = some kind := by
    rw [hof.field?_eq (by simp), hkind, Option.bind_some, ofJson, choice?]
  rw [tagged?, hfields]
  simp only [Option.bind_eq_bind, Option.bind_some, hchoice]
  rfl

theorem tagged?_some (loose : Bool) (tag contents : String) {kind : String} {value : Json}
    {members : List (String × Json)} (hnodup : (members.map Prod.fst).Nodup)
    (hkind : Table.find? tag members = some (.str kind))
    (hvalue : Table.find? contents members = some value) :
    ∃ hsize, tagged? loose tag contents (ofJson (.obj members)) =
      some (kind, some ⟨ofJson value, hsize⟩) := by
  obtain ⟨part, htagged, hval⟩ := tagged?_ofJson loose tag contents hnodup hkind
  rw [hvalue, Option.map_some] at hval
  obtain ⟨⟨doc, hsize⟩, rfl, rfl⟩ := Option.map_eq_some_iff.mp hval
  exact ⟨hsize, htagged⟩

theorem tagged?_none (loose : Bool) (tag contents : String) {kind : String}
    {members : List (String × Json)} (hnodup : (members.map Prod.fst).Nodup)
    (hkind : Table.find? tag members = some (.str kind))
    (hvalue : Table.find? contents members = none) :
    tagged? loose tag contents (ofJson (.obj members)) = some (kind, none) := by
  obtain ⟨part, htagged, hval⟩ := tagged?_ofJson loose tag contents hnodup hkind
  rw [hvalue, Option.map_none, Option.map_eq_none_iff] at hval
  rw [htagged, hval]

theorem tagged?_tagged (loose : Bool) (kind : String) (contents : Json) :
    ∃ hsize, tagged? loose "t" "v" (ofJson (tagged kind contents)) =
      some (kind, some ⟨ofJson contents, hsize⟩) :=
  tagged?_some loose "t" "v" (by simp) (by simp [Table.find?_cons]) (by simp [Table.find?_cons])

theorem tagged?_operation (loose : Bool) (name : String) (arg : Json) :
    ∃ hsize, tagged? loose "op" "arg" (ofJson (operation name arg)) =
      some (name, some ⟨ofJson arg, hsize⟩) :=
  tagged?_some loose "op" "arg" (by simp) (by simp [Table.find?_cons]) (by simp [Table.find?_cons])

theorem tagged?_bareOperation (loose : Bool) (name : String) :
    tagged? loose "op" "arg" (ofJson (bareOperation name)) = some (name, none) :=
  tagged?_none loose "op" "arg" (by simp) (by simp [Table.find?_cons]) rfl

/-! ## Whole numbers -/

theorem nat?_ofJson (n : Nat) : nat? (ofJson (.nat n)) = some n := by
  rw [Json.nat, ofJson, nat?, if_pos (Int.natCast_nonneg n)]
  rfl

end Document

open Document

/-- Items that can be read are read in their order. -/
theorem mapM_eq_some {α β : Type} {f : α → Option β} {g : β → α} {items : List β}
    (h : ∀ b ∈ items, f (g b) = some b) : (items.map g).mapM f = some items := by
  induction items with
  | nil => rfl
  | cons item rest ih =>
    rw [List.map_cons, List.mapM_cons, h item List.mem_cons_self,
      ih fun b hb => h b (List.mem_cons_of_mem _ hb)]
    rfl

theorem str?_ofJson (s : String) : str? (ofJson (.str s)) = some s := by rw [ofJson, str?]

theorem bool?_ofJson (b : Bool) : bool? (ofJson (.bool b)) = some b := by rw [ofJson, bool?]

/-- Reading the items of an array that was written. -/
theorem items?_ofJson {α : Type} (f : Document → Option α) (items : List Json) :
    ((ofJson (.arr items)).items? >>= fun parts => parts.mapM fun part => f part.val) =
      items.mapM fun item => f (ofJson item) := by
  obtain ⟨parts, hparts, hval⟩ := items?_arr (ofItems items)
  rw [ofJson, hparts]
  show (parts.mapM fun part => f part.val) = _
  rw [mapM_parts hval, ofItems_eq, List.mapM_map]
  rfl

mutual

/-- **A failure is read back**, with what was suppressed in it. -/
theorem Failure.ofDocument?_toJson : ∀ failure : Failure,
    Failure.ofDocument? (ofJson failure.toJson) = some failure
  | ⟨code, message, []⟩ => by
    rw [Failure.toJson]
    have hnodup : ([("code", Json.str code), ("message", .str message)].map Prod.fst).Nodup := by
      simp
    obtain ⟨fields, hfields, hof⟩ := record?_ofJson ["code", "message", "suppressed"] 2 hnodup
    have hnone : fields.part? "suppressed" = none := by
      simpa [Table.find?_cons, Table.find?] using hof.part "suppressed" (by simp)
    rw [Failure.ofDocument?, hfields]
    simp [hof.field?_eq, Table.find?_cons, str?_ofJson, hnone]
  | ⟨code, message, first :: rest⟩ => by
    rw [Failure.toJson]
    -- what was suppressed is written only if there is any, and read by the same reader
    have hnodup : ([("code", Json.str code), ("message", .str message),
        ("suppressed", .arr (first.toJson :: Failure.toJsonAll rest))].map Prod.fst).Nodup := by
      simp
    obtain ⟨fields, hfields, hof⟩ := record?_ofJson ["code", "message", "suppressed"] 2 hnodup
    obtain ⟨hsize, hpart⟩ := hof.part?_eq "suppressed" (by simp)
      (by simp [Table.find?_cons]; rfl)
    have hitems := items?_ofJson Failure.ofDocument? (first.toJson :: Failure.toJsonAll rest)
    rw [List.mapM_cons, Failure.ofDocument?_toJson first, Failure.ofDocument?_all rest] at hitems
    rw [Failure.ofDocument?, hfields]
    simp only [Option.bind_eq_bind, Option.bind_some, hof.field?_eq, Table.find?_cons, str?_ofJson,
      hpart, reduceIte, String.reduceEq, List.mem_cons, true_or, or_true] at hitems ⊢
    rw [← Option.bind_assoc, hitems]
    rfl

theorem Failure.ofDocument?_all : ∀ failures : List Failure,
    ((Failure.toJsonAll failures).mapM fun j => Failure.ofDocument? (ofJson j)) = some failures
  | [] => by rw [Failure.toJsonAll, List.mapM_nil]; rfl
  | failure :: rest => by
    rw [Failure.toJsonAll, List.mapM_cons, Failure.ofDocument?_toJson failure,
      Failure.ofDocument?_all rest]
    rfl

end

/-- Reading the members of an object that was written. -/
theorem members?_ofJson {α : Type} (f : Document → Option α) (members : List (String × Json)) :
    ((ofJson (.obj members)).members? >>= fun parts => parts.mapM fun part => do
      return (part.1, ← f part.2.val)) =
      members.mapM fun member => do return (member.1, ← f (ofJson member.2)) := by
  obtain ⟨parts, hparts, hval⟩ := members?_obj (ofMembers members)
  -- the parts that a reader gets know their sizes, which the values do not depend on
  have hread : (parts.mapM fun part => do return (part.1, ← f part.2.val)) =
      (parts.map fun part => (part.1, part.2.val)).mapM fun entry => do
        return (entry.1, ← f entry.2) := by
    rw [List.mapM_map]
    rfl
  rw [ofJson, hparts]
  show (parts.mapM fun part => do return (part.1, ← f part.2.val)) = _
  rw [hread, hval, ofMembers_eq, List.map_map, List.mapM_map]
  rfl

namespace Script

theorem Handle.ofDocument?_toJson (h : Handle) : Handle.ofDocument? (ofJson h.toJson) = some h := by
  have hnodup : ([("key", Json.str h.key), ("kind", .str h.kind)].map Prod.fst).Nodup := by simp
  obtain ⟨fields, hfields, hof⟩ := record?_ofJson ["kind", "key"] 2 hnodup
  rw [Handle.toJson, Handle.ofDocument?, hfields]
  simp [hof.field?_eq, Table.find?_cons, str?_ofJson]

theorem BinaryOp.ofName?_name (op : BinaryOp) : BinaryOp.ofName? op.name = some op := by
  cases op <;> rfl

theorem UnaryOp.ofName?_name (op : UnaryOp) : UnaryOp.ofName? op.name = some op := by
  cases op <;> rfl

theorem list?_nats (numbers : List Nat) :
    (ofJson (.arr (numbers.map .nat))).list? nat? = some numbers := by
  rw [list?, items?_ofJson]
  exact mapM_eq_some fun n _ => nat?_ofJson n

theorem choice?_ofJson (loose : Bool) (s : String) : choice? loose (ofJson (.str s)) = some s := by
  rw [ofJson, choice?]

/-! ## The numbers in a value -/

mutual

/-- **The numbers that occur in a value**, in a closure those of what it captured and of its whole
program. -/
def Val.numbers : Val → List Float
  | .num x => [x]
  | .list items => Val.numbersInItems items
  | .map fields => Val.numbersInFields fields
  | .closure c => Closure.numbers c
  | .null | .bool _ | .str _ | .error _ | .handle _ => []

def Val.numbersInItems : List Val → List Float
  | [] => []
  | item :: rest => item.numbers ++ Val.numbersInItems rest

def Val.numbersInFields : List (String × Val) → List Float
  | [] => []
  | (_, value) :: rest => value.numbers ++ Val.numbersInFields rest

def Closure.numbers : Closure Val → List Float
  | ⟨program, _, captured⟩ => Program.numbers program ++ Val.numbersInFields captured

/-- The numbers that occur in the constants of a program. -/
def Program.numbers : Program Val → List Float
  | ⟨_, chunks⟩ => Chunk.numbersInAll chunks

def Chunk.numbersInAll : List (Chunk Val) → List Float
  | [] => []
  | chunk :: rest => Chunk.numbers chunk ++ Chunk.numbersInAll rest

def Chunk.numbers : Chunk Val → List Float
  | ⟨_, code, _, _⟩ => Instr.numbersInCode code

def Instr.numbersInCode : List (Instr Val) → List Float
  | [] => []
  | instr :: rest => Instr.numbers instr ++ Instr.numbersInCode rest

def Instr.numbers : Instr Val → List Float
  | .const value => value.numbers
  | _ => []

end

theorem Val.numbersInItems_eq (items : List Val) :
    Val.numbersInItems items = items.flatMap Val.numbers := by
  induction items with
  | nil => rw [numbersInItems, List.flatMap_nil]
  | cons item rest ih => rw [numbersInItems, ih, List.flatMap_cons]

/-- What is read back of something with these numbers in it. -/
def whenFinite {α : Type} (numbers : List Float) (a : α) : Option α :=
  if numbers.all Number.isFinite then some a else none

section

variable {α β γ : Type} {numbers : List Float} {a : α}

theorem whenFinite_eq_some_iff {b : α} :
    whenFinite numbers a = some b ↔ (∀ x ∈ numbers, Number.isFinite x = true) ∧ b = a := by
  rw [← List.all_eq_true, whenFinite]
  cases numbers.all Number.isFinite with
  | false => exact ⟨fun h => (Option.some_ne_none b h.symm).elim, fun h => (Bool.false_ne_true h.1).elim⟩
  | true => exact ⟨fun h => ⟨rfl, (Option.some.inj h).symm⟩, fun h => congrArg some h.2.symm⟩

theorem bind_whenFinite (f : α → β) (numbers : List Float) (a : α) :
    (do return f (← whenFinite numbers a)) = whenFinite numbers (f a) := by
  unfold whenFinite
  cases numbers.all Number.isFinite <;> rfl

/-- Two parts are read back together when each of them is. -/
theorem whenFinite_append (f : α → β → γ) (first second : List Float) (a : α) (b : β) :
    (do return f (← whenFinite first a) (← whenFinite second b)) =
      whenFinite (first ++ second) (f a b) := by
  unfold whenFinite
  rw [List.all_append]
  cases first.all Number.isFinite with
  | false => rfl
  | true => cases second.all Number.isFinite <;> rfl

/-- Items are read back together when each of them is. -/
theorem mapM_whenFinite {f : β → Option α} {g : α → β} {numbers : α → List Float} {items : List α}
    (h : ∀ item ∈ items, f (g item) = whenFinite (numbers item) item) :
    (items.map g).mapM f = whenFinite (items.flatMap numbers) items := by
  induction items with
  | nil => rfl
  | cons item rest ih =>
    rw [List.map_cons, List.mapM_cons, h item List.mem_cons_self,
      ih fun other hother => h other (List.mem_cons_of_mem _ hother), List.flatMap_cons]
    exact whenFinite_append List.cons _ _ item rest

end

/-- **A number is read back if it is finite**; what is not is null in the file. -/
theorem float?_ofFloat (x : Float) : float? (ofJson (Json.ofFloat x)) = whenFinite [x] x := by
  have hall : [x].all Number.isFinite = Number.isFinite x := Bool.and_true _
  rw [Json.ofFloat, whenFinite, hall]
  split <;> rfl

/-! ## Reading values and code back -/

theorem bareInstr?_read {name : String} {instr : Instr Val} (h : bareInstr? name = some instr)
    (loose : Bool) : instrOf? loose (ofJson (bareOperation name)) = some instr := by
  rw [instrOf?, tagged?_bareOperation]
  simp only [Option.bind_eq_bind, Option.bind_some, h, isEmptyContents, reduceIte]

theorem plainInstr?_read {name : String} {arg : Json} {instr : Instr Val}
    (hbare : bareInstr? name = none) (hconst : name ≠ "Const")
    (h : ∀ loose, plainInstr? loose name (ofJson arg) = some instr) (loose : Bool) :
    instrOf? loose (ofJson (operation name arg)) = some instr := by
  obtain ⟨hsize, htag⟩ := tagged?_operation loose name arg
  rw [instrOf?, htag]
  simp only [Option.bind_eq_bind, Option.bind_some, hbare, if_neg hconst, h]

theorem valOf?_plain {kind : String} (hkind : kind ∉ ["Null", "List", "Map", "Closure"])
    (loose : Bool) (contents : Json) :
    valOf? loose (ofJson (tagged kind contents)) = plainVal? kind (ofJson contents) := by
  obtain ⟨hsize, htag⟩ := tagged?_tagged loose kind contents
  simp only [List.mem_cons, List.not_mem_nil, or_false, not_or] at hkind
  rw [valOf?, htag]
  simp only [Option.bind_eq_bind, Option.bind_some, if_neg hkind.1, if_neg hkind.2.1,
    if_neg hkind.2.2.1, if_neg hkind.2.2.2]

theorem callOfDocument?_read (function : String) (argc : Nat) (body : Bool) :
    callOfDocument? (ofJson (.obj [("argc", .nat argc), ("body", .bool body),
      ("function", .str function)])) = some (.call function argc body) := by
  have hnodup : ([("argc", Json.nat argc), ("body", .bool body),
      ("function", .str function)].map Prod.fst).Nodup := by simp
  obtain ⟨fields, hfields, hof⟩ := record?_ofJson ["function", "argc", "body"] 3 hnodup
  unfold callOfDocument?
  split
  · rw [hfields]
    simp [hof.field?_eq, Table.find?_cons, str?_ofJson, nat?_ofJson, bool?_ofJson]
  · next hother => exact absurd (by rw [ofJson]) (hother _)

/-- An instruction that holds no value is read back. -/
theorem instrOf?_plain (loose : Bool) {instr : Instr Val} (h : ∀ value, instr ≠ .const value) :
    instrOf? loose (ofJson (instrToJson instr)) = some instr := by
  cases instr with
  | const value => exact absurd rfl (h value)
  | pop | enterScope | exitScope | popHandler | throw | ret =>
    rw [instrToJson]
    exact bareInstr?_read rfl loose
  | load name | declare name | store name =>
    rw [instrToJson]
    refine plainInstr?_read rfl (by simp) (fun _ => ?_) loose
    rw [plainInstr?, str?_ofJson]
    rfl
  | binary op | unary op =>
    rw [instrToJson]
    refine plainInstr?_read rfl (by simp) (fun _ => ?_) loose
    rw [plainInstr?, choice?_ofJson, Option.bind_some, op.ofName?_name]
    rfl
  | makeList n | makeClosure n | jump n | jumpIfFalse n | jumpIfFalseKeep n | jumpIfTrueKeep n
  | pushHandler n =>
    rw [instrToJson]
    refine plainInstr?_read rfl (by simp) (fun _ => ?_) loose
    rw [plainInstr?, nat?_ofJson]
    rfl
  | call function argc body =>
    rw [instrToJson]
    refine plainInstr?_read rfl (by simp) (fun _ => ?_) loose
    rw [plainInstr?, callOfDocument?_read]

mutual

/-- **A value is read back if its numbers are finite**, and refused if they are not. -/
theorem valOf?_toJson (loose : Bool) : ∀ v : Val,
    valOf? loose (ofJson v.toJson) = whenFinite v.numbers v
  | .null => by
    rw [Val.toJson, valOf?, tagged?_none loose "t" "v" (by simp) (by simp [Table.find?_cons]; rfl) rfl]
    rfl
  | .bool b => by
    rw [Val.toJson, valOf?_plain (by simp), plainVal?, bool?_ofJson, Val.numbers]
    rfl
  | .num x => by
    rw [Val.toJson, valOf?_plain (by simp), plainVal?, float?_ofFloat, Val.numbers, Option.map_eq_bind]
    exact bind_whenFinite Val.num [x] x
  | .str s => by
    rw [Val.toJson, valOf?_plain (by simp), plainVal?, str?_ofJson, Val.numbers]
    rfl
  | .error failure => by
    rw [Val.toJson, valOf?_plain (by simp), plainVal?, failure.ofDocument?_toJson, Val.numbers]
    rfl
  | .handle handle => by
    rw [Val.toJson, valOf?_plain (by simp), plainVal?, handle.ofDocument?_toJson, Val.numbers]
    rfl
  -- What holds other values is written under a tag, which is read first.
  | .list items => by
    obtain ⟨hsize, htag⟩ := tagged?_tagged loose "List" (.arr (Val.itemsToJson items))
    have hitems := items?_ofJson (valOf? loose) (Val.itemsToJson items)
    rw [valOf?_itemsToJson loose items, Option.bind_eq_bind] at hitems
    rw [Val.toJson, valOf?, htag, Val.numbers]
    simp only [Option.bind_eq_bind, Option.bind_some, reduceIte, String.reduceEq]
    rw [← Option.bind_assoc, hitems]
    exact bind_whenFinite Val.list _ items
  | .map fields => by
    obtain ⟨hsize, htag⟩ := tagged?_tagged loose "Map" (.obj (Val.fieldsToJson fields))
    have hfields := members?_ofJson (valOf? loose) (Val.fieldsToJson fields)
    rw [valOf?_fieldsToJson loose fields] at hfields
    rw [Val.toJson, valOf?, htag, Val.numbers]
    simp only [Option.bind_eq_bind, Option.bind_some, reduceIte, String.reduceEq] at hfields ⊢
    rw [← Option.bind_assoc, hfields]
    exact bind_whenFinite Val.map _ fields
  | .closure c => by
    obtain ⟨hsize, htag⟩ := tagged?_tagged loose "Closure" (closureToJson c)
    rw [Val.toJson, valOf?, htag, Val.numbers]
    simp only [Option.bind_eq_bind, Option.bind_some, reduceIte, String.reduceEq]
    rw [closureOf?_toJson loose c]
    exact bind_whenFinite Val.closure _ c

theorem valOf?_itemsToJson (loose : Bool) : ∀ items : List Val,
    ((Val.itemsToJson items).mapM fun j => valOf? loose (ofJson j)) =
      whenFinite (Val.numbersInItems items) items
  | [] => by rw [Val.itemsToJson, List.mapM_nil]; rfl
  | item :: rest => by
    rw [Val.itemsToJson, List.mapM_cons, valOf?_toJson loose item, valOf?_itemsToJson loose rest,
      Val.numbersInItems]
    exact whenFinite_append List.cons _ _ item rest

theorem valOf?_fieldsToJson (loose : Bool) : ∀ fields : List (String × Val),
    ((Val.fieldsToJson fields).mapM fun member => do
      return (member.1, ← valOf? loose (ofJson member.2))) =
      whenFinite (Val.numbersInFields fields) fields
  | [] => by rw [Val.fieldsToJson, List.mapM_nil]; rfl
  | (name, value) :: rest => by
    rw [Val.fieldsToJson, List.mapM_cons, valOf?_toJson loose value, valOf?_fieldsToJson loose rest,
      Val.numbersInFields, ← whenFinite_append fun value rest => (name, value) :: rest]
    cases whenFinite value.numbers value with
    | none => rfl
    | some value => rfl

/-- **A closure is read back** with its program and what it captured, if all numbers there are finite. -/
theorem closureOf?_toJson (loose : Bool) : ∀ c : Closure Val,
    closureOf? loose (ofJson (closureToJson c)) = whenFinite (Closure.numbers c) c
  | ⟨program, chunk, captured⟩ => by
    have hnodup : ([("captured", Json.obj (Val.fieldsToJson captured)), ("chunk", .nat chunk),
        ("program", programToJson program)].map Prod.fst).Nodup := by simp
    obtain ⟨fields, hfields, hof⟩ := record?_ofJson ["program", "chunk", "captured"] 3 hnodup
    obtain ⟨hsize, hprogram⟩ := hof.part?_eq "program" (by simp)
      (by simp [Table.find?_cons]; rfl)
    obtain ⟨hsize', hcaptured⟩ := hof.part?_eq "captured" (by simp)
      (by simp [Table.find?_cons]; rfl)
    have hmembers := members?_ofJson (valOf? loose) (Val.fieldsToJson captured)
    rw [valOf?_fieldsToJson loose captured] at hmembers
    rw [closureToJson, closureOf?, hfields, Closure.numbers]
    simp only [Option.bind_eq_bind, Option.bind_some, hprogram, programOf?_toJson loose program,
      hof.field?_eq, Table.find?_cons, reduceIte, String.reduceEq, List.mem_cons, true_or, or_true,
      nat?_ofJson, hcaptured] at hmembers ⊢
    -- the numbers of the program come first, and those of what was captured behind them
    rw [← whenFinite_append fun program captured => (⟨program, chunk, captured⟩ : Closure Val)]
    refine congrArg (whenFinite _ _).bind (funext fun program => ?_)
    rw [← Option.bind_assoc, hmembers]
    rfl

theorem programOf?_toJson (loose : Bool) : ∀ p : Program Val,
    programOf? loose (ofJson (programToJson p)) = whenFinite (Program.numbers p) p
  | ⟨name, chunks⟩ => by
    have hnodup : ([("chunks", Json.arr (chunksToJson chunks)), ("name", .str name)].map
        Prod.fst).Nodup := by simp
    obtain ⟨fields, hfields, hof⟩ := record?_ofJson ["name", "chunks"] 2 hnodup
    obtain ⟨hsize, hchunks⟩ := hof.part?_eq "chunks" (by simp)
      (by simp [Table.find?_cons]; rfl)
    have hitems := items?_ofJson (chunkOf? loose) (chunksToJson chunks)
    rw [chunkOf?_chunksToJson loose chunks, Option.bind_eq_bind] at hitems
    rw [programToJson, programOf?, hfields, Program.numbers]
    simp only [Option.bind_eq_bind, Option.bind_some, hof.field?_eq, Table.find?_cons, reduceIte,
      String.reduceEq, List.mem_cons, true_or, str?_ofJson, hchunks]
    rw [← Option.bind_assoc, hitems]
    exact bind_whenFinite (Program.mk name) _ chunks

theorem chunkOf?_chunksToJson (loose : Bool) : ∀ chunks : List (Chunk Val),
    ((chunksToJson chunks).mapM fun j => chunkOf? loose (ofJson j)) =
      whenFinite (Chunk.numbersInAll chunks) chunks
  | [] => by rw [chunksToJson, List.mapM_nil]; rfl
  | chunk :: rest => by
    rw [chunksToJson, List.mapM_cons, chunkOf?_toJson loose chunk, chunkOf?_chunksToJson loose rest,
      Chunk.numbersInAll]
    exact whenFinite_append List.cons _ _ chunk rest

theorem chunkOf?_toJson (loose : Bool) : ∀ chunk : Chunk Val,
    chunkOf? loose (ofJson (chunkToJson chunk)) = whenFinite (Chunk.numbers chunk) chunk
  | ⟨name, code, lines, callsSteps⟩ => by
    have hnodup : ([("calls_steps", Json.bool callsSteps), ("code", .arr (codeToJson code)),
        ("lines", .arr (lines.map .nat)), ("name", .str name)].map Prod.fst).Nodup := by simp
    obtain ⟨fields, hfields, hof⟩ := record?_ofJson ["name", "code", "lines", "calls_steps"] 4 hnodup
    obtain ⟨hsize, hcode⟩ := hof.part?_eq "code" (by simp)
      (by simp [Table.find?_cons]; rfl)
    have hitems := items?_ofJson (instrOf? loose) (codeToJson code)
    rw [instrOf?_codeToJson loose code, Option.bind_eq_bind] at hitems
    rw [chunkToJson, chunkOf?, hfields, Chunk.numbers]
    simp only [Option.bind_eq_bind, Option.bind_some, hof.field?_eq, Table.find?_cons, reduceIte,
      String.reduceEq, List.mem_cons, true_or, or_true, str?_ofJson, bool?_ofJson, hcode,
      list?_nats]
    rw [← Option.bind_assoc, hitems]
    exact bind_whenFinite (fun code => (⟨name, code, lines, callsSteps⟩ : Chunk Val)) _ code

theorem instrOf?_codeToJson (loose : Bool) : ∀ code : List (Instr Val),
    ((codeToJson code).mapM fun j => instrOf? loose (ofJson j)) =
      whenFinite (Instr.numbersInCode code) code
  | [] => by rw [codeToJson, List.mapM_nil]; rfl
  | instr :: rest => by
    rw [codeToJson, List.mapM_cons, instrOf?_toJson loose instr, instrOf?_codeToJson loose rest,
      Instr.numbersInCode]
    exact whenFinite_append List.cons _ _ instr rest

/-- **An instruction is read back** if the numbers of its constant are finite. -/
theorem instrOf?_toJson (loose : Bool) : ∀ instr : Instr Val,
    instrOf? loose (ofJson (instrToJson instr)) = whenFinite (Instr.numbers instr) instr
  | .const value => by
    obtain ⟨hsize, htag⟩ := tagged?_operation loose "Const" value.toJson
    rw [instrToJson, instrOf?, htag, Instr.numbers]
    simp only [Option.bind_eq_bind, Option.bind_some, bareInstr?, reduceIte, valOf?_toJson _ value]
    exact bind_whenFinite Instr.const _ value
  | .load _ | .declare _ | .store _ | .pop | .binary _ | .unary _ | .makeList _ | .makeClosure _
  | .call _ _ _ | .jump _ | .jumpIfFalse _ | .jumpIfFalseKeep _ | .jumpIfTrueKeep _ | .enterScope
  | .exitScope | .pushHandler _ | .popHandler | .throw | .ret =>
    instrOf?_plain loose fun _ hno => by cases hno

end

theorem list?_values_eq (items : List Val) :
    (ofJson (.arr (Val.itemsToJson items))).list? Val.ofDocument? =
      whenFinite (Val.numbersInItems items) items := by
  rw [list?, items?_ofJson]
  exact valOf?_itemsToJson false items

theorem scopeOfDocument?_eq (scope : Scope) :
    scopeOfDocument? (ofJson (scopeToJson scope)) = whenFinite (Val.numbersInFields scope) scope := by
  rw [scopeOfDocument?, scopeToJson, members?_ofJson]
  exact valOf?_fieldsToJson false scope

/-! ## Machines -/

theorem Handler.ofDocument?_toJson (h : Handler) :
    Handler.ofDocument? (ofJson h.toJson) = some h := by
  have hnodup : ([("catch_pc", Json.nat h.catchPc), ("scope_len", .nat h.scopeLen),
      ("stack_len", .nat h.stackLen)].map Prod.fst).Nodup := by simp
  obtain ⟨fields, hfields, hof⟩ := record?_ofJson ["catch_pc", "stack_len", "scope_len"] 3 hnodup
  rw [Handler.toJson, Handler.ofDocument?, hfields]
  simp [hof.field?_eq, Table.find?_cons, nat?_ofJson]

theorem Phase.ofName?_name (phase : Phase) : Phase.ofName? phase.name = some phase := by
  cases phase <;> rfl

/-- **The numbers that occur in a machine**: in its program, on its stack and in its scopes. -/
def Machine.numbers (m : Machine) : List Float :=
  Program.numbers m.program ++ (Val.numbersInItems m.stack ++ m.scopes.flatMap Val.numbersInFields)

/-- Lists are written outermost first, which makes no difference to the numbers in them. -/
theorem all_flatMap_reverse {α : Type} (numbers : α → List Float) (items : List α) :
    (items.reverse.flatMap numbers).all Number.isFinite = (items.flatMap numbers).all Number.isFinite := by
  rw [List.all_flatMap, List.all_flatMap, List.all_reverse]

/-- **What a saved machine is read as**: the machine, if its numbers are finite. -/
theorem Machine.ofJson?_eq (m : Machine) : Machine.ofJson? m.toJson = whenFinite m.numbers m := by
  have hscopes : (ofJson (.arr (m.scopes.reverse.map scopeToJson))).list? scopeOfDocument? =
      whenFinite (m.scopes.reverse.flatMap Val.numbersInFields) m.scopes.reverse := by
    rw [list?, items?_ofJson]
    exact mapM_whenFinite fun scope _ => scopeOfDocument?_eq scope
  have hhandlers : (ofJson (.arr (m.handlers.reverse.map Handler.toJson))).list?
      Handler.ofDocument? = some m.handlers.reverse := by
    rw [list?, items?_ofJson]
    exact mapM_eq_some fun handler _ => handler.ofDocument?_toJson
  have hstack := list?_values_eq m.stack.reverse
  rw [Val.numbersInItems_eq] at hstack
  have hprogram : Program.ofDocument? (ofJson m.program.toJson) = whenFinite (Program.numbers m.program) m.program :=
    programOf?_toJson false m.program
  have hnodup : ([("budget", Json.nat m.budget), ("chunk", .nat m.chunk),
      ("handlers", .arr (m.handlers.reverse.map Handler.toJson)), ("pc", .nat m.pc),
      ("program", m.program.toJson), ("scopes", .arr (m.scopes.reverse.map scopeToJson)),
      ("stack", .arr (Val.itemsToJson m.stack.reverse)),
      ("state", .str m.phase.name)].map Prod.fst).Nodup := by simp
  obtain ⟨fields, hfields, hof⟩ := record?_ofJson Machine.fieldNames 8 hnodup
  -- three parts hold numbers and may be refused for them; all others are read whatever they are
  have hread : Machine.ofJson? m.toJson = (do
      let program ← whenFinite (Program.numbers m.program) m.program
      let stack ← whenFinite (m.stack.reverse.flatMap Val.numbers) m.stack.reverse
      let scopes ← whenFinite (m.scopes.reverse.flatMap Val.numbersInFields) m.scopes.reverse
      return { m with program, stack := stack.reverse, scopes := scopes.reverse }) := by
    rw [Machine.ofJson?, Machine.toJson, Machine.ofDocument?, hfields]
    rw [Machine.fieldNames] at hof
    simp [-List.map_reverse, hof.field?_eq, Table.find?_cons, nat?_ofJson, hprogram, hstack, hscopes,
      hhandlers, choice?_ofJson, m.phase.ofName?_name]
  rw [hread, Machine.numbers, Val.numbersInItems_eq]
  unfold whenFinite
  rw [List.all_append, List.all_append, all_flatMap_reverse, all_flatMap_reverse]
  cases (Program.numbers m.program).all Number.isFinite with
  | false => rfl
  | true =>
    cases (m.stack.flatMap Val.numbers).all Number.isFinite with
    | false => rfl
    | true =>
      cases (m.scopes.flatMap Val.numbersInFields).all Number.isFinite with
      | false => rfl
      | true =>
        -- stack and scopes are saved from the bottom, and turned around twice they are as they were
        show some { m with stack := m.stack.reverse.reverse, scopes := m.scopes.reverse.reverse } = some m
        rw [List.reverse_reverse, List.reverse_reverse]

/-- **A saved machine is restored exactly, and precisely when it can be.** It is read back if and only if
every number that occurs in it is finite. What is read back is the machine that was saved, so it goes on
as that one does. -/
theorem Machine.restored_iff_finite (m : Machine) :
    ((∃ restored, Machine.ofJson? m.toJson = some restored) ↔ ∀ x ∈ m.numbers, Number.isFinite x = true) ∧
      ∀ restored, Machine.ofJson? m.toJson = some restored → restored = m := by
  rw [m.ofJson?_eq]
  refine ⟨⟨fun ⟨_, hrestored⟩ => (whenFinite_eq_some_iff.mp hrestored).1, fun hfinite => ?_⟩, ?_⟩
  · exact ⟨m, whenFinite_eq_some_iff.mpr ⟨hfinite, rfl⟩⟩
  · exact fun restored hrestored => (whenFinite_eq_some_iff.mp hrestored).2

end Script

end DurableFlow
