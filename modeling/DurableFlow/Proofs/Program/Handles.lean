/-
The handles of a saved program and the objects behind them.

A value can hold a handle at any depth: in the items of a list, in the fields of a map, in the
variables that a closure has captured. A saved program lists the handles that have to be resolved
before it goes on, and a handle that is missing from the list would only be noticed when a script
uses it after a restart. So the list is compared here with what a program keeps: the values that
its threads, its exported blocks and its live steps hold. The variables of a live step are not
looked through when the list is made. They are those of the thread that waits for it, which is
live, so nothing is missed.

Three places are not among them: the outcomes that a step remembers of its bodies, an outcome that
was delivered and not yet taken, and the outcome of the script itself. A handle that is in one of
these alone is not listed.
-/
import DurableFlow.Proofs.Program.Reloading

set_option autoImplicit false

namespace DurableFlow

open Script Text

/-! ## Handles in values -/

/-- **A value holds a handle**: it is the handle, or an item, a field or a captured variable holds it. -/
inductive Script.Val.Holds (handle : Handle) : Val → Prop
  | handle : Holds handle (.handle handle)
  | item {items : List Val} {item : Val} (hmem : item ∈ items) (h : Holds handle item) :
    Holds handle (.list items)
  | field {fields : List (String × Val)} {entry : String × Val} (hmem : entry ∈ fields)
    (h : Holds handle entry.2) : Holds handle (.map fields)
  | captured {closure : Closure Val} {entry : String × Val} (hmem : entry ∈ closure.captured)
    (h : Holds handle entry.2) : Holds handle (.closure closure)

namespace Script.Val

variable {handle : Handle}

theorem mem_handlesItems {items : List Val} :
    handle ∈ handlesItems items ↔ ∃ item ∈ items, handle ∈ item.handles := by
  induction items with
  | nil => simp [handlesItems]
  | cons item rest ih => simp [handlesItems, ih]

theorem mem_handlesFields {fields : List (String × Val)} :
    handle ∈ handlesFields fields ↔ ∃ entry ∈ fields, handle ∈ entry.2.handles := by
  induction fields with
  | nil => simp [handlesFields]
  | cons entry rest ih => simp [handlesFields, ih]

/-- A value in a named entry is smaller than the entries. -/
theorem sizeOf_entry_lt {entry : String × Val} {fields : List (String × Val)} (h : entry ∈ fields) :
    sizeOf entry.2 < sizeOf fields := by
  have hentry : sizeOf entry.2 < sizeOf entry := by
    obtain ⟨name, value⟩ := entry
    simp only [Prod.mk.sizeOf_spec]
    omega
  exact Nat.lt_trans hentry (List.sizeOf_lt_of_mem h)

theorem holds_of_mem (value : Val) (h : handle ∈ value.handles) : value.Holds handle := by
  match value with
  | .null | .bool _ | .num _ | .str _ | .error _ => exact absurd h List.not_mem_nil
  | .handle _ => exact List.mem_singleton.mp h ▸ .handle
  | .list items =>
    obtain ⟨item, hmem, hitem⟩ := mem_handlesItems.mp h
    exact .item hmem (holds_of_mem item hitem)
  | .map fields =>
    obtain ⟨entry, hmem, hentry⟩ := mem_handlesFields.mp h
    exact .field hmem (holds_of_mem entry.2 hentry)
  | .closure ⟨program, chunk, captured⟩ =>
    obtain ⟨entry, hmem, hentry⟩ := mem_handlesFields.mp h
    exact .captured hmem (holds_of_mem entry.2 hentry)
termination_by sizeOf value
decreasing_by
  · have hlt := List.sizeOf_lt_of_mem hmem
    simp
    omega
  · have hlt := sizeOf_entry_lt hmem
    simp
    omega
  · have hlt := sizeOf_entry_lt hmem
    simp
    omega

/-- **The handles that are collected from a value are those that it holds.** -/
theorem mem_handles {value : Val} : handle ∈ value.handles ↔ value.Holds handle := by
  refine ⟨holds_of_mem value, fun h => ?_⟩
  induction h with
  | handle => exact List.mem_singleton_self handle
  | item hmem _ ih => exact mem_handlesItems.mpr ⟨_, hmem, ih⟩
  | field hmem _ ih => exact mem_handlesFields.mpr ⟨_, hmem, ih⟩
  | captured hmem _ ih => exact mem_handlesFields.mpr ⟨_, hmem, ih⟩

theorem mem_handlesItems_iff {items : List Val} :
    handle ∈ handlesItems items ↔ ∃ item ∈ items, item.Holds handle := by
  rw [mem_handlesItems]
  simp only [mem_handles]

theorem mem_handlesFields_iff {fields : List (String × Val)} :
    handle ∈ handlesFields fields ↔ ∃ entry ∈ fields, entry.2.Holds handle := by
  rw [mem_handlesFields]
  simp only [mem_handles]

end Script.Val

/-! ## Lists of handles -/

namespace Script.Handle

instance : Std.TransOrd Handle :=
  inferInstanceAs (Std.TransCmp (compareLex (compareOn Handle.kind) (compareOn Handle.key)))

instance : Std.LawfulEqOrd Handle where
  eq_of_compare {a b} h := by
    obtain ⟨hkind, hkey⟩ := Ordering.then_eq_eq.mp h
    cases a
    cases b
    rw [Handle.mk.injEq]
    exact ⟨Std.LawfulEqOrd.eq_of_compare hkind, Std.LawfulEqOrd.eq_of_compare hkey⟩

/-- Listing handles in order leaves none out and adds none. -/
theorem mem_sorted {handle : Handle} {handles : List Handle} :
    handle ∈ sorted handles ↔ handle ∈ handles := by
  unfold sorted
  rw [Table.mem_keys_ofEntries, Table.keys, List.map_map]
  exact Iff.of_eq (congrArg (handle ∈ ·) (List.map_id handles))

/-- Handles are listed in order, each once. -/
theorem pairwise_sorted (handles : List Handle) :
    (sorted handles).Pairwise fun a b => compare a b = .lt :=
  Table.sorted_iff_keys.mp (Table.Sorted.ofEntries _)

end Script.Handle

/-! ## What a program keeps -/

/-- **A thread keeps a value**: in its machine, in its variables or as the input it goes on with. -/
inductive Thread.Keeps (thread : Thread) : Val → Prop
  | stack {value : Val} (hmem : value ∈ thread.machine.stack) : Keeps thread value
  | scope {scope : Scope} {entry : String × Val} (hscope : scope ∈ thread.machine.scopes)
    (hmem : entry ∈ scope) : Keeps thread entry.2
  | var {entry : String × Val} (hmem : entry ∈ thread.vars) : Keeps thread entry.2
  | input {value : Val} (hinput : thread.input = some (.ok value)) : Keeps thread value

/-- A queued body keeps what its block has captured and what it overrides. -/
inductive PendingBody.Keeps (body : PendingBody) : Val → Prop
  | captured {closure : Closure Val} {entry : String × Val} (hsource : body.source = .inline closure)
    (hmem : entry ∈ closure.captured) : Keeps body entry.2
  | override {entry : String × Val} (hmem : entry ∈ body.overrides) : Keeps body entry.2

/-- **A live step keeps a value**: as an argument, as a variable or in a body that it has queued. -/
inductive LiveStep.Keeps (step : LiveStep) : Val → Prop
  | argument {value : Val} (hmem : value ∈ step.args) : Keeps step value
  | var {entry : String × Val} (hmem : entry ∈ step.vars) : Keeps step entry.2
  | body {body : PendingBody} {value : Val} (hmem : body ∈ step.cell.bodies) (h : body.Keeps value) :
    Keeps step value

/-- **A program keeps a value** in a thread, in an exported block or in a live step. -/
inductive LiveProgram.Keeps (p : LiveProgram) : Val → Prop
  | thread {entry : Nat × Thread} {value : Val} (hmem : entry ∈ p.threads) (h : entry.2.Keeps value) :
    Keeps p value
  | block {entry : Nat × Closure Val} {named : String × Val} (hmem : entry ∈ p.closures)
    (hnamed : named ∈ entry.2.captured) : Keeps p named.2
  | step {entry : Nat × LiveStep} {value : Val} (hmem : entry ∈ p.steps) (h : entry.2.Keeps value) :
    Keeps p value

/-- A handle that something keeps somewhere. -/
def Kept (keeps : Val → Prop) (handle : Handle) : Prop := ∃ value, keeps value ∧ value.Holds handle

theorem Thread.mem_handles {thread : Thread} {handle : Handle} :
    handle ∈ thread.handles ↔ Kept thread.Keeps handle := by
  unfold Thread.handles Machine.handles
  rw [List.mem_append, List.mem_append, Handle.mem_sorted, List.mem_append, List.mem_flatMap,
    Val.mem_handlesItems_iff, Val.mem_handlesFields_iff]
  constructor
  · rintro (((⟨value, hmem, hholds⟩ | ⟨scope, hscope, hin⟩) | ⟨entry, hmem, hholds⟩) | hinput)
    · exact ⟨value, .stack hmem, hholds⟩
    · obtain ⟨entry, hmem, hholds⟩ := Val.mem_handlesFields_iff.mp hin
      exact ⟨entry.2, .scope hscope hmem, hholds⟩
    · exact ⟨entry.2, .var hmem, hholds⟩
    · split at hinput
      · next value hvalue => exact ⟨value, .input hvalue, Val.mem_handles.mp hinput⟩
      · exact absurd hinput List.not_mem_nil
  · rintro ⟨value, hkeeps, hholds⟩
    cases hkeeps with
    | stack hmem => exact .inl (.inl (.inl ⟨value, hmem, hholds⟩))
    | scope hscope hmem =>
      exact .inl (.inl (.inr ⟨_, hscope, Val.mem_handlesFields_iff.mpr ⟨_, hmem, hholds⟩⟩))
    | var hmem => exact .inl (.inr ⟨_, hmem, hholds⟩)
    | input hinput =>
      rw [hinput]
      exact .inr (Val.mem_handles.mpr hholds)

theorem PendingBody.mem_handles {body : PendingBody} {handle : Handle} :
    handle ∈ body.handles ↔ Kept body.Keeps handle := by
  unfold PendingBody.handles
  rw [List.mem_append, Val.mem_handlesFields_iff]
  constructor
  · rintro (hsource | ⟨entry, hmem, hholds⟩)
    · split at hsource
      · exact absurd hsource List.not_mem_nil
      · next closure hclosure =>
        obtain ⟨entry, hmem, hholds⟩ := Val.mem_handlesFields_iff.mp hsource
        exact ⟨entry.2, .captured hclosure hmem, hholds⟩
    · exact ⟨entry.2, .override hmem, hholds⟩
  · rintro ⟨value, hkeeps, hholds⟩
    cases hkeeps with
    | captured hsource hmem =>
      rw [hsource]
      exact .inl (Val.mem_handlesFields_iff.mpr ⟨_, hmem, hholds⟩)
    | override hmem => exact .inr ⟨_, hmem, hholds⟩

/-- The handles that are collected from a step are those it keeps outside its variables. -/
theorem LiveStep.mem_handles {step : LiveStep} {handle : Handle} :
    handle ∈ step.handles ↔ (∃ value ∈ step.args, value.Holds handle) ∨
      ∃ body ∈ step.cell.bodies, Kept body.Keeps handle := by
  unfold LiveStep.handles
  rw [List.mem_append, List.mem_flatMap, Val.mem_handlesItems_iff]
  simp only [PendingBody.mem_handles]

/-- **The handles that are collected from a program** are those that it keeps, if each live step has
the variables of a thread. -/
theorem LiveProgram.mem_handles {p : LiveProgram} {handle : Handle}
    (hvars : ∀ entry ∈ p.steps, ∃ caller ∈ p.threads, caller.2.vars = entry.2.vars) :
    handle ∈ p.handles ↔ Kept p.Keeps handle := by
  have hvalues : ∀ {α : Type} {f : α → List Handle} {table : Table Nat α},
      handle ∈ (Table.values table).flatMap f ↔ ∃ entry ∈ table, handle ∈ f entry.2 := by
    intro α f table
    rw [Table.values, List.mem_flatMap]
    simp only [List.mem_map, exists_exists_and_eq_and]
  unfold LiveProgram.handles
  rw [List.mem_append, List.mem_append, hvalues, hvalues, hvalues]
  constructor
  · rintro ((⟨entry, hmem, hin⟩ | ⟨entry, hmem, hin⟩) | ⟨entry, hmem, hin⟩)
    · obtain ⟨value, hkeeps, hholds⟩ := Thread.mem_handles.mp hin
      exact ⟨value, .thread hmem hkeeps, hholds⟩
    · obtain ⟨named, hnamed, hholds⟩ := Val.mem_handlesFields_iff.mp hin
      exact ⟨named.2, .block hmem hnamed, hholds⟩
    · rcases LiveStep.mem_handles.mp hin with ⟨value, harg, hholds⟩ | ⟨body, hbody, value, hkeeps, hholds⟩
      · exact ⟨value, .step hmem (.argument harg), hholds⟩
      · exact ⟨value, .step hmem (.body hbody hkeeps), hholds⟩
  · rintro ⟨value, hkeeps, hholds⟩
    cases hkeeps with
    | thread hmem h => exact .inl (.inl ⟨_, hmem, Thread.mem_handles.mpr ⟨value, h, hholds⟩⟩)
    | block hmem hnamed => exact .inl (.inr ⟨_, hmem, Val.mem_handlesFields_iff.mpr ⟨_, hnamed, hholds⟩⟩)
    | step hmem h =>
      cases h with
      | argument harg => exact .inr ⟨_, hmem, LiveStep.mem_handles.mpr (.inl ⟨value, harg, hholds⟩)⟩
      | body hbody h => exact .inr ⟨_, hmem, LiveStep.mem_handles.mpr (.inr ⟨_, hbody, value, h, hholds⟩)⟩
      | var hvar =>
        -- the list does not look here; the thread that waits for the step has the same variables
        obtain ⟨caller, hcaller, hsame⟩ := hvars _ hmem
        exact .inl (.inl ⟨caller, hcaller, Thread.mem_handles.mpr ⟨_, .var (hsame ▸ hvar), hholds⟩⟩)

namespace Execution

/-- In every state of a run a live step has the variables of a thread. -/
theorem vars_of_leads {x y : Execution} (hstart : Started x) (hrun : Leads x y) :
    ∀ entry ∈ y.program.steps, ∃ caller ∈ y.program.threads, caller.2.vars = entry.2.vars := by
  intro entry hmem
  have hshared : Shared (y.moment none) := upheld_shared.leads hstart hrun
  have hstep := hshared.stepsSorted.find?_of_mem hmem
  cases hstart.inOrder hrun with
  | going _ hsound =>
    obtain ⟨thread, hthread, _⟩ := hsound.links.caller hstep
    exact ⟨_, Table.mem_of_find? hthread, (hshared.vars hstep).2 thread hthread⟩
  | ended h =>
    have hnone : Table.find? entry.1 y.program.steps = none := h.steps entry.1
    exact absurd (hstep.symm.trans hnone) (Option.some_ne_none _)

/-- **A saved program lists the handles that the program keeps**, each once and in order, in every
state of a run. -/
theorem save_lists_handles {x y : Execution} (hstart : Started x) (hrun : Leads x y) :
    (y.program.save y.engine.steps).handles.Pairwise (fun a b => compare a b = .lt) ∧
      ∀ handle, handle ∈ (y.program.save y.engine.steps).handles ↔ Kept y.program.Keeps handle := by
  refine ⟨Handle.pairwise_sorted _, fun handle => ?_⟩
  exact Handle.mem_sorted.trans (LiveProgram.mem_handles (vars_of_leads hstart hrun))

end Execution

/-! ## The objects behind handles -/

namespace Resolution

variable {resolvers : Table String Resolver} {handles : List Handle} {r : Resolution}
  {todo : List Errand}

/-- The resolver of the handle's kind answers with an object. -/
def Answers (resolvers : Table String Resolver) (handle : Handle) (object : Val) : Prop :=
  ∃ resolver, Table.find? handle.kind resolvers = some resolver ∧
    resolver.answer handle = some (.ok object)

/-- The right object is there. -/
def Finds (resolvers : Table String Resolver) (objects : Table Handle Val) (handle : Handle) : Prop :=
  ∃ object, Table.find? handle objects = some object ∧ Answers resolvers handle object

/-- **How far a resolution has come**, with some errands still to look at: each errand will bring
what the resolver of its kind answers, each handle has its object or an errand, and success means
that all of them have their objects. -/
structure Tracks (resolvers : Table String Resolver) (handles : List Handle) (r : Resolution)
    (todo : List Errand) : Prop where
  errands : ∀ errand ∈ r.errands ++ todo, ∃ resolver,
    Table.find? errand.handle.kind resolvers = some resolver ∧ errand.answer = resolver.answer errand.handle
  covered : r.result = none → ∀ handle ∈ handles,
    Finds resolvers r.resolved handle ∨ ∃ errand ∈ r.errands ++ todo, errand.handle = handle
  success : ∀ objects, r.result = some (.ok objects) → ∀ handle ∈ handles, Finds resolvers objects handle

theorem Finds.insert {objects : Table Handle Val} {handle key : Handle} {object : Val}
    (h : Finds resolvers objects handle) (hanswers : Answers resolvers key object) :
    Finds resolvers (Table.insert key object objects) handle := by
  obtain ⟨old, hold, holds⟩ := h
  by_cases heq : handle = key
  · subst heq
    exact ⟨object, Table.find?_insert_self _ _ _, hanswers⟩
  · exact ⟨old, (Table.find?_insert_of_ne heq _ _).trans hold, holds⟩

/-- A resolution that has failed has nothing left to show. -/
theorem tracks_failed {e : EngineError} (hresult : r.result = some (.error e))
    (herrands : ∀ errand ∈ r.errands ++ todo, ∃ resolver,
      Table.find? errand.handle.kind resolvers = some resolver ∧ errand.answer = resolver.answer errand.handle) :
    Tracks resolvers handles r todo := by
  refine ⟨herrands, fun hnone => ?_, fun objects hok => ?_⟩
  · rw [hresult] at hnone
    cases hnone
  · rw [hresult] at hok
    cases hok

theorem tracks_start (resolvers : Table String Resolver) (timeoutMs now : Nat) (handles : List Handle) :
    Tracks resolvers handles (start resolvers timeoutMs now handles) [] := by
  unfold start
  cases hunknown : handles.find? fun handle => !Table.contains handle.kind resolvers with
  | some handle => exact tracks_failed rfl fun _ hno => absurd hno List.not_mem_nil
  -- every kind has a resolver: each handle is sent out, and nothing is there yet
  | none =>
    constructor
    case errands =>
      intro errand hmem
      rw [List.append_nil] at hmem
      obtain ⟨handle, _, hsent⟩ := List.mem_filterMap.mp (mem_sortByKey.mp hmem)
      obtain ⟨resolver, hresolver, rfl⟩ := Option.map_eq_some_iff.mp hsent
      exact ⟨resolver, hresolver, rfl⟩
    case covered =>
      intro _ handle hmem
      have hknown : Table.contains handle.kind resolvers = true := by
        simpa using List.find?_eq_none.mp hunknown handle hmem
      obtain ⟨resolver, hresolver⟩ := Option.isSome_iff_exists.mp hknown
      refine .inr ⟨{ dueAt := now + resolver.delayMs, handle, answer := resolver.answer handle }, ?_, rfl⟩
      rw [List.append_nil]
      refine mem_sortByKey.mpr (List.mem_filterMap.mpr ⟨handle, hmem, ?_⟩)
      unfold errand?
      rw [hresolver]
      rfl
    case success => exact fun _ hno => (by cases hno)

/-- An errand is kept for later. -/
theorem Tracks.keep {errand : Errand} {rest : List Errand} (h : Tracks resolvers handles r (errand :: rest)) :
    Tracks resolvers handles { r with errands := r.errands ++ [errand] } rest := by
  have hsame : (r.errands ++ [errand]) ++ rest = r.errands ++ errand :: rest := List.append_assoc _ _ _
  constructor
  case errands =>
    dsimp only
    rw [hsame]
    exact h.errands
  case covered =>
    dsimp only
    rw [hsame]
    exact h.covered
  case success => exact h.success

/-- An errand has brought an object. -/
theorem Tracks.brought {errand : Errand} {rest : List Errand} {object : Val}
    (h : Tracks resolvers handles r (errand :: rest)) (hanswer : errand.answer = some (.ok object)) :
    Tracks resolvers handles { r with
      pending := r.pending.filter (· != errand.handle)
      resolved := Table.insert errand.handle object r.resolved } rest := by
  have hanswers : Answers resolvers errand.handle object := by
    obtain ⟨resolver, hresolver, heq⟩ := h.errands errand (by simp)
    exact ⟨resolver, hresolver, heq.symm.trans hanswer⟩
  constructor
  case errands =>
    intro other hmem
    refine h.errands other ?_
    rcases List.mem_append.mp hmem with hkept | hrest
    · exact List.mem_append_left _ hkept
    · exact List.mem_append_right _ (List.mem_cons_of_mem _ hrest)
  case covered =>
    intro hnone handle hmem
    -- the object is there now for its handle, and the others are as before
    rcases h.covered hnone handle hmem with hfinds | ⟨other, hother, rfl⟩
    · exact .inl (hfinds.insert hanswers)
    rcases List.mem_append.mp hother with hkept | hrest
    · exact .inr ⟨other, List.mem_append_left _ hkept, rfl⟩
    rcases List.mem_cons.mp hrest with rfl | hrest
    · exact .inl ⟨object, Table.find?_insert_self _ _ _, hanswers⟩
    · exact .inr ⟨other, List.mem_append_right _ hrest, rfl⟩
  case success => exact h.success

theorem Tracks.collect (now : Nat) (h : Tracks resolvers handles r todo) :
    Tracks resolvers handles (Resolution.collect now todo r) [] := by
  induction todo generalizing r with
  | nil => exact h
  | cons errand rest ih =>
    unfold Resolution.collect
    split
    · next answer hanswer =>
      -- an errand that is due has an answer, and a refusal ends the resolution
      split
      · split
        · next object => exact ih (h.brought hanswer)
        · next reason =>
          refine tracks_failed rfl fun other hmem => h.errands other ?_
          rw [List.append_nil] at hmem
          exact List.mem_append_left _ hmem
      · exact ih h.keep
    · exact ih h.keep

theorem Tracks.conclude (now : Nat) (h : Tracks resolvers handles r []) :
    Tracks resolvers handles (r.conclude now) [] := by
  unfold Resolution.conclude
  split
  · exact h
  · next hnone =>
    split
    · next hempty =>
      refine ⟨h.errands, fun hno => (by cases hno), fun objects hok handle hmem => ?_⟩
      cases hok
      refine (h.covered hnone handle hmem).resolve_right ?_
      rintro ⟨errand, hin, _⟩
      rw [List.isEmpty_iff.mp hempty] at hin
      exact List.not_mem_nil hin
    · split
      · exact tracks_failed rfl h.errands
      · exact h

theorem Tracks.poll (now : Nat) (cancelled : Bool) (h : Tracks resolvers handles r []) :
    Tracks resolvers handles (r.poll now cancelled) [] := by
  unfold Resolution.poll
  split
  · exact h
  · next hnone =>
    split
    · exact tracks_failed rfl h.errands
    · refine Tracks.conclude now (Tracks.collect now ⟨?_, ?_, ?_⟩)
      · have herrands := h.errands
        rwa [List.append_nil] at herrands
      · have hcovered := h.covered
        rwa [List.append_nil] at hcovered
      · exact h.success

/-- **A resolution that succeeds has found them all**: however often and whenever it was looked at,
each handle has the object with which the resolver of its kind answers. -/
theorem finds_of_success {timeoutMs now : Nat} {polls : List (Nat × Bool)} {objects : Table Handle Val}
    (h : (polls.foldl (fun r poll => r.poll poll.1 poll.2) (start resolvers timeoutMs now handles)).result =
      some (.ok objects)) : ∀ handle ∈ handles, Finds resolvers objects handle := by
  have htracks : ∀ {r}, Tracks resolvers handles r [] →
      Tracks resolvers handles (polls.foldl (fun r poll => r.poll poll.1 poll.2) r) [] := by
    clear h
    intro r hr
    induction polls generalizing r with
    | nil => exact hr
    | cons poll rest ih => exact ih (hr.poll poll.1 poll.2)
  exact (htracks (tracks_start resolvers timeoutMs now handles)).success objects h

end Resolution

namespace Execution

variable {x y z : Execution} {handle : Handle}

/-- The object behind a handle is at hand. -/
def HasObject (x : Execution) (handle : Handle) : Prop :=
  ∃ object, Table.find? handle x.liveObjects = some object

theorem HasObject.congr (h : x.HasObject handle) (hsame : y.liveObjects = x.liveObjects) :
    y.HasObject handle := by
  obtain ⟨object, hobject⟩ := h
  exact ⟨object, hsame ▸ hobject⟩

theorem HasObject.quiet (h : x.HasObject handle) (hxy : Quiet x y) : y.HasObject handle :=
  h.congr (by rw [hxy.rest])

theorem HasObject.adjustStep (h : x.HasObject handle) (n : Nat) (f : LiveStep → LiveStep) :
    (x.adjustStep n f).HasObject handle := by
  unfold Execution.adjustStep
  split
  · exact h.congr rfl
  · exact h.congr rfl

theorem HasObject.alongCells (handle : Handle) (node : Nat) :
    AlongCells (fun x y => x.HasObject handle → y.HasObject handle) node where
  refl _ h := h
  trans hxy hyz h := hyz (hxy h)
  submit x job h := h.quiet (quiet_submit x job)
  cell _ _ h := h.adjustStep node _

theorem HasObject.bound (h : x.HasObject handle) (key : Handle) (object : Val) :
    { x with liveObjects := Table.insert key object x.liveObjects }.HasObject handle := by
  obtain ⟨old, hold⟩ := h
  by_cases heq : handle = key
  · exact ⟨object, heq ▸ Table.find?_insert_self _ _ _⟩
  · exact ⟨old, (Table.find?_insert_of_ne heq _ _).trans hold⟩

/-- Effects of hooks may bind objects and take none away. -/
theorem HasObject.alongRevival (handle : Handle) (node : Nat) :
    AlongRevival (fun x y => x.HasObject handle → y.HasObject handle) node where
  toAlongHooks := .of_quiet (alongCells handle node).toChains (fun hxy h => h.quiet hxy)
    (alongCells handle node).deliver (alongCells handle node).queueBody
    (fun _ key object h => h.bound key object) fun _ _ _ _ h => h.congr rfl
  submit x job h := h.quiet (quiet_submit x job)
  resumed _ _ h := h.adjustStep node _

/-- A program that goes on has the objects that were there before. -/
theorem HasObject.revive (h : x.HasObject handle) (saved : SavedProgram) (program : LiveProgram) :
    (x.revive saved program).HasObject handle := by
  have hloaded : (x.withProgram program).HasObject handle := h.congr rfl
  exact AlongRevival.revive (alongRevival handle) (fun _ hy => hy.congr rfl) x saved program hloaded

/-- A program that was reloaded keeps nothing new. -/
theorem kept_of_reloaded {p : LiveProgram} {value : Val} (h : p.reloaded.Keeps value) : p.Keeps value := by
  cases h with
  | thread hmem h => exact .thread hmem h
  | block hmem hnamed => exact .block hmem hnamed
  | step hmem h =>
    obtain ⟨old, hold, rfl⟩ := List.mem_map.mp hmem
    cases h with
    | argument harg => exact .step hold (.argument harg)
    | var hvar => exact .step hold (.var hvar)
    | body hbody h => exact .step hold (.body hbody h)

/-- **After a reload the object behind each handle is at hand.** In every state of a run, if the handles
that were saved with a program could all be resolved, the program goes on, and for each handle that it
keeps there is an object. -/
theorem objects_after_reload (hstart : Started x) (hrun : Leads x y) (hopen : y.record.done = false)
    (hunfinished : y.program.finished = false) (hstorable : y.program.Storable)
    (hsteps : z.engine.steps = Step.standard)
    (hreachable : ∀ n step, Table.find? n y.program.steps = some step →
      Step.Reachable step.function z.clock step.args)
    {timeoutMs now : Nat} {polls : List (Nat × Bool)} {objects : Table Handle Val}
    (hresolved : (polls.foldl (fun r poll => r.poll poll.1 poll.2) (Resolution.start z.engine.resolvers
      timeoutMs now (y.program.save Step.standard).handles)).result = some (.ok objects)) :
    ∃ program, z.handlesResolved (y.program.save Step.standard) objects =
        { z with liveObjects := Table.insertAll objects z.liveObjects }.revive
          (y.program.save Step.standard) program ∧
      ∀ handle, Kept program.Keeps handle →
        (z.handlesResolved (y.program.save Step.standard) objects).HasObject handle := by
  -- the program comes back as it was, so that what it keeps was listed when it was saved
  have hrestores : restoreProgram z.engine.steps z.clock (y.program.save Step.standard) =
      .ok y.program.reloaded := by
    rw [hsteps]
    exact (reload_gives_back hstart hrun hopen hunfinished hstorable hreachable).2
  have hgoes : z.handlesResolved (y.program.save Step.standard) objects =
      { z with liveObjects := Table.insertAll objects z.liveObjects }.revive
        (y.program.save Step.standard) y.program.reloaded := by
    unfold handlesResolved
    dsimp only
    rw [hrestores]
  refine ⟨y.program.reloaded, hgoes, fun handle hkept => ?_⟩
  obtain ⟨value, hkeeps, hholds⟩ := hkept
  have hlisted : handle ∈ (y.program.save Step.standard).handles :=
    ((save_lists_handles hstart hrun).2 handle).mpr ⟨value, kept_of_reloaded hkeeps, hholds⟩
  obtain ⟨object, hobject, _⟩ := Resolution.finds_of_success hresolved handle hlisted
  have hkey : handle ∈ Table.keys (Table.insertAll objects z.liveObjects) := by
    refine Table.mem_keys_insertAll.mpr (.inl (Table.mem_keys.mpr ?_))
    rw [hobject]
    rfl
  rw [hgoes]
  refine HasObject.revive ?_ _ _
  exact Option.isSome_iff_exists.mp (Table.mem_keys.mp hkey)

/-- A script that waits for a connection. -/
def connecting : EngineResult Execution :=
  create { steps := Step.standard } "flow" "1" "let c = wait_for_signal(\"conn\")" {} {} ⟨0⟩ 0

/-- The script waits, and the signal brings the handle of the connection. -/
def connected (created : Execution) : Execution :=
  [.work, .run 1, .signal "conn" (.ok (.handle { kind := "conn", key := "k" })), .work].foldl happen
    (Execution.start.after created)

/-- The same execution on a host that finds connections again. -/
def reconnecting (created : Execution) : Execution :=
  let conn : Resolver := { answer := fun handle => some (.ok (.str handle.key)) }
  { created with engine := { created.engine with resolvers := [("conn", conn)] } }

/-- The thread goes on with a handle, and the connection is found at the first poll. -/
theorem objects_after_reload_connected :
    ∃ created y objects, connecting = .ok created ∧ connected created = y ∧
      y.program.threads.map (fun entry => entry.2.handles.map Handle.key) = [["k"]] ∧
      ∃ program : LiveProgram, ∀ handle, Kept program.Keeps handle →
        ((reconnecting created).handlesResolved (y.program.save Step.standard) objects).HasObject handle := by
  have hruns : connecting.toOption.map (fun created =>
      let y := connected created
      let resolution := Resolution.start (reconnecting created).engine.resolvers 1 0
        (y.program.save Step.standard).handles
      ((y.record.done, y.program.finished), decide (∀ entry ∈ y.program.threads, entry.2.Storable),
        (y.program.closures.isEmpty, y.program.steps.isEmpty, y.program.rootOutcome.isNone),
        decide (y.program.threads.map (fun entry => entry.2.handles.map Handle.key) = [["k"]]),
        (resolution.poll 0 false).result.any Except.isOk)) =
      some ((false, false), true, (true, true, true), true, true) := by decide +kernel
  obtain ⟨created, hcreated, hsees⟩ := Option.map_eq_some_iff.mp hruns
  simp only [Prod.mk.injEq, decide_eq_true_eq, List.isEmpty_iff, Option.isNone_iff_eq_none] at hsees
  obtain ⟨⟨hopen, hunfinished⟩, hthreads, ⟨hclosures, hsteps, houtcome⟩, hhandles, hresolves⟩ := hsees
  have hcreate := eq_ok_of_toOption hcreated
  have hstart : Started (Execution.start.after created) := .of_script hcreate
  have hrun : Leads (Execution.start.after created) (connected created) := Leads.here.events rfl
  have hengine : (reconnecting created).engine.steps = Step.standard :=
    (created_of_create (.of_alone rfl fun _ => rfl) Archive.blank_empty hcreate).engine.steps
  -- from here on it does not matter how the state came about, only what was seen of it
  obtain ⟨y, hy⟩ : ∃ y, connected created = y := ⟨_, rfl⟩
  rw [hy] at hopen hunfinished hthreads hclosures hsteps houtcome hhandles hresolves hrun
  have hstorable : y.program.Storable := LiveProgram.storable_of_threads hthreads hclosures hsteps houtcome
  have hreachable : ∀ n step, Table.find? n y.program.steps = some step →
      Step.Reachable step.function (reconnecting created).clock step.args := by
    intro n step hstep
    rw [hsteps] at hstep
    cases hstep
  obtain ⟨objects, hresolved⟩ : ∃ objects, ([(0, false)].foldl (fun r poll => r.poll poll.1 poll.2)
      (Resolution.start (reconnecting created).engine.resolvers 1 0
        (y.program.save Step.standard).handles)).result = some (.ok objects) := by
    obtain ⟨result, hresult, hok⟩ := (Option.any_eq_true _ _).mp hresolves
    obtain ⟨objects, rfl⟩ := exists_ok_of_isOk hok
    exact ⟨objects, hresult⟩
  obtain ⟨program, -, hobjects⟩ :=
    objects_after_reload hstart hrun hopen hunfinished hstorable hengine hreachable hresolved
  exact ⟨created, y, objects, hcreate, hy, hhandles, program, hobjects⟩

end Execution

end DurableFlow
