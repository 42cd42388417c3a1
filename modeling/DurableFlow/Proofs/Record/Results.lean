/-
The result of an execution only gets worse.

A result is noted in three places: when an execution is interrupted, when it ends, and when its end could
not be written. Each time it is combined with what is there. So the result is the worst of all that was
ever noted, whatever the order. What interrupts asked for is kept beside the record, which makes it
possible to say at any time which results these are, and at the end of an execution what its program, its
interrupts and its archive have added to what it began with.
-/
import DurableFlow.Proofs.Record.Operations

set_option autoImplicit false

namespace DurableFlow

/-! ## The worst of several results -/

namespace FlowResult

/-- **The worst of several results**, if there are any. -/
def IsWorstOf (rs : List FlowResult) : Option FlowResult → Prop
  | none => rs = []
  | some w => w ∈ rs ∧ ∀ r ∈ rs, r.severity ≤ w.severity

/-- The worse of two results is one of them, and neither is worse. -/
theorem combine_cases (a b : FlowResult) :
    a.combine b = a ∧ b.severity ≤ a.severity ∨ a.combine b = b ∧ a.severity ≤ b.severity := by
  unfold combine
  split
  · next hle => exact .inr ⟨rfl, hle⟩
  · next hgt => exact .inl ⟨rfl, by omega⟩

theorem IsWorstOf.toList (result : Option FlowResult) : IsWorstOf result.toList result := by
  cases result with
  | none => rfl
  | some r => simp [IsWorstOf]

/-- No result that was there is worse. -/
theorem IsWorstOf.worst {rs : List FlowResult} {result : Option FlowResult} (h : IsWorstOf rs result)
    {r : FlowResult} (hr : r ∈ rs) : ∃ w, result = some w ∧ r.severity ≤ w.severity := by
  cases result with
  | none =>
    rw [show rs = [] from h] at hr
    cases hr
  | some w => exact ⟨w, rfl, h.2 r hr⟩

/-- **One more result is noted.** -/
theorem IsWorstOf.worsen {rs rs' : List FlowResult} {record : Record} {r : FlowResult}
    (h : IsWorstOf rs record.result) (hmem : ∀ s, s ∈ rs' ↔ s = r ∨ s ∈ rs) :
    IsWorstOf rs' (record.worsen r).result := by
  have hself : r ∈ rs' := (hmem r).mpr (.inl rfl)
  unfold Record.worsen Record.worseResult
  dsimp only
  cases hresult : record.result with
  | none =>
    rw [hresult] at h
    refine ⟨hself, fun s hs => ?_⟩
    rcases (hmem s).mp hs with rfl | hs
    · exact Nat.le_refl _
    · rw [show rs = [] from h] at hs
      cases hs
  | some current =>
    rw [hresult] at h
    obtain ⟨hin, hworst⟩ := h
    rcases combine_cases current r with ⟨hsame, hle⟩ | ⟨hnew, hle⟩
    · dsimp only
      rw [hsame]
      refine ⟨(hmem current).mpr (.inr hin), fun s hs => ?_⟩
      rcases (hmem s).mp hs with rfl | hs
      · exact hle
      · exact hworst s hs
    · dsimp only
      rw [hnew]
      refine ⟨hself, fun s hs => ?_⟩
      rcases (hmem s).mp hs with rfl | hs
      · exact Nat.le_refl _
      · exact Nat.le_trans (hworst s hs) hle

end FlowResult

open Script Text History FlowResult

/-- An edit leaves the result alone, and what comes with it. -/
theorem result_of_edit {r r' : Record} (h : r.Edit r') :
    r'.result = r.result ∧ r'.error = r.error ∧ r'.done = r.done := by
  cases h with | _ => exact ⟨rfl, rfl, rfl⟩

namespace Execution

variable {x y z : Execution}

/-! ## Never better -/

/-- **The result of a later state is no better.** -/
def NoBetter (x y : Execution) : Prop :=
  ∀ r, x.record.result = some r → ∃ r', y.record.result = some r' ∧ r.severity ≤ r'.severity

namespace NoBetter

theorem of_result (h : y.record.result = x.record.result) : NoBetter x y :=
  fun r hr => ⟨r, h.trans hr, Nat.le_refl _⟩

theorem trans (hxy : NoBetter x y) (hyz : NoBetter y z) : NoBetter x z := by
  intro r hr
  obtain ⟨r', hr', hle⟩ := hxy r hr
  obtain ⟨r'', hr'', hle'⟩ := hyz r' hr'
  exact ⟨r'', hr'', Nat.le_trans hle hle'⟩

theorem of_worsen {r : FlowResult} (h : y.record.result = (x.record.worsen r).result) : NoBetter x y := by
  intro current hcurrent
  have hworst : IsWorstOf (r :: x.record.result.toList) (x.record.worsen r).result :=
    (IsWorstOf.toList x.record.result).worsen fun s => by simp
  rw [← h, hcurrent] at hworst
  exact hworst.worst (by simp)

theorem basic (h : BasicChange x y) : NoBetter x y := by
  cases h with
  | aside h => exact .of_result (congrArg Record.result h.record)
  | edit h => exact .of_result (result_of_edit h).1
  | interrupted result causes _ => exact .of_worsen (r := result) rfl
  | _ => exact .of_result rfl

/-- **Whatever is asked of an execution**, its result gets no better. -/
theorem lasts : Lasts NoBetter where
  refl _ := of_result rfl
  trans := trans
  basic := basic
  program _ := of_result rfl
  marked _ _ := of_result rfl
  beside _ hrecord _ _ := of_result (congrArg Record.result hrecord)
  refuses _ _ := of_result rfl
  ending := by
    intro x y h
    cases h with
    | basic h => exact basic h
    | concluded result error => exact .of_worsen (r := result) rfl
    | unwritten => exact .of_worsen (r := .failure) rfl
    | migrated =>
      refine .of_result ?_
      rw [migrateHistory_record]
    | _ => exact .of_result rfl

end NoBetter

/-! ## What was noted -/

/-- **The result is the worst** of some results and of those that interrupts asked for. -/
def Tallies (noted : List FlowResult) (x : Execution) : Prop :=
  IsWorstOf (noted ++ x.interrupts) x.record.result

namespace Tallies

variable {noted : List FlowResult}

theorem of_result (h : Tallies noted x) (hinterrupts : y.interrupts = x.interrupts)
    (hresult : y.record.result = x.record.result) : Tallies noted y := by
  unfold Tallies
  rw [hinterrupts, hresult]
  exact h

/-- A result is noted that no interrupt asked for. -/
theorem noting (h : Tallies noted x) {r : FlowResult} (hinterrupts : y.interrupts = x.interrupts)
    (hresult : y.record.result = (x.record.worsen r).result) : Tallies (noted ++ [r]) y := by
  unfold Tallies
  rw [hinterrupts, hresult]
  exact IsWorstOf.worsen h fun s => by simp only [List.mem_append, List.mem_singleton]; grind

theorem basic (h : Tallies noted x) (hxy : BasicChange x y) : Tallies noted y := by
  cases hxy with
  | aside haside => exact h.of_result haside.interrupts (congrArg Record.result haside.record)
  | edit hedit => exact h.of_result rfl (result_of_edit hedit).1
  | interrupted result causes _ =>
    show IsWorstOf (noted ++ (x.interrupts ++ [result])) (x.record.worsen result).result
    exact IsWorstOf.worsen h fun s => by simp only [List.mem_append, List.mem_singleton]; grind
  | _ => exact h.of_result rfl rfl

theorem carried : Carried fun x y => ∀ noted, Tallies noted x → Tallies noted y where
  refl _ _ h := h
  trans hxy hyz noted h := hyz noted (hxy noted h)
  basic hxy _ h := h.basic hxy
  program _ _ h := h.of_result rfl rfl
  marked _ _ _ h := h.of_result rfl rfl
  beside _ hrecord _ hinterrupts _ h := h.of_result hinterrupts (congrArg Record.result hrecord)
  refuses _ _ _ h := h.of_result rfl rfl

theorem course (h : Tallies noted x) (hxy : Course x y) : Tallies noted y := carried.course hxy noted h

theorem changes {α : Type} {act : Act α} (h : Tallies noted x) (hact : Changing act) :
    Tallies noted (act.after x) := carried.changes (hact x) noted h

end Tallies

/-! ## Not done yet -/

/-- **An execution goes on undone**: nothing but an end makes it done or notes what it ended with. -/
def Undone (x y : Execution) : Prop := y.record.done = x.record.done ∧ y.record.error = x.record.error

theorem undone_of_record (h : y.record = x.record) : Undone x y :=
  ⟨congrArg Record.done h, congrArg Record.error h⟩

theorem carried_undone : Carried Undone where
  refl _ := ⟨rfl, rfl⟩
  trans hxy hyz := ⟨hyz.1.trans hxy.1, hyz.2.trans hxy.2⟩
  basic h := by
    cases h with
    | aside h => exact undone_of_record h.record
    | edit h => exact ⟨(result_of_edit h).2.2, (result_of_edit h).2.1⟩
    | _ => exact ⟨rfl, rfl⟩
  program _ := ⟨rfl, rfl⟩
  marked _ _ := ⟨rfl, rfl⟩
  beside _ hrecord _ _ := undone_of_record hrecord
  refuses _ _ := ⟨rfl, rfl⟩

/-! ## At the end -/

/-- The writing of the end of an execution that ends with an outcome. -/
def writeOutcome (outcome : Outcome) : Act Unit := writeEnd (resultOf outcome) (failureOf? outcome)

/-- Whether the end can be recorded. -/
def records (x : Execution) (outcome : Outcome) : Bool :=
  match (writeOutcome outcome x).1 with
  | .ok () => true
  | .error _ => false

/-- **How an execution ends** that is not done. -/
theorem finish_of_open (h : x.record.done = false) (outcome : Outcome) : x.finish outcome =
    if x.records outcome then ((writeOutcome outcome).after x).announceEnd
    else ((writeOutcome outcome).after x).endUnwritten.announceEnd := by
  unfold Execution.finish records Attempt.after
  rw [if_neg (by rw [h]; exact Bool.false_ne_true)]
  cases outcome with
  | _ =>
    unfold writeOutcome failureOf?
    dsimp only
    generalize writeEnd _ _ x = written
    obtain ⟨result, y⟩ := written
    cases result with
    | ok _ => rfl
    | error _ => rfl

/-- **Writing the end** notes the severity of the outcome and the failure in it. -/
theorem noted_writeOutcome (x : Execution) (outcome : Outcome) :
    (∀ noted, Tallies noted x → Tallies (noted ++ [resultOf outcome]) ((writeOutcome outcome).after x)) ∧
      ((writeOutcome outcome).after x).record.error = failureOf? outcome := by
  let Noted (y : Execution) : Prop :=
    (∀ noted, Tallies noted x → Tallies (noted ++ [resultOf outcome]) y) ∧ y.record.error = failureOf? outcome
  have hsame : ∀ {y z : Execution}, Noted y → z.interrupts = y.interrupts → z.record.result = y.record.result →
      z.record.error = y.record.error → Noted z :=
    fun hy hinterrupts hresult herror =>
      ⟨fun noted h => (hy.1 noted h).of_result hinterrupts hresult, herror.trans hy.2⟩
  have hact : ∀ {α : Type} {act : Act α} {y : Execution}, Noted y → Changing act → Noted (act.after y) :=
    fun hy hact =>
      ⟨fun noted h => (hy.1 noted h).changes hact, (carried_undone.changes (hact _)).2.trans hy.2⟩
  have hnode : ∀ {y : Execution} (error : Option Failure), Noted y → Noted ((writeEndNode error).after y) := by
    intro y error hy
    refine Attempt.after_bind (P := Noted) (hact hy Changes.alongWrites.ensureStart) fun start y hy => ?_
    refine Attempt.after_bind (P := Noted) hy fun record y hy => ?_
    refine Attempt.after_bind (P := Noted) (hact hy Changes.alongWrites.lastHead) fun head y hy => ?_
    refine Attempt.after_bind (P := Noted) (hact hy Changes.alongWrites.node) fun id y hy => ?_
    refine Attempt.after_bind (P := Noted) hy fun now y hy => ?_
    refine Attempt.after_bind (P := Noted) (hact hy (.call fun _ => .store _ _)) fun _ y hy => ?_
    exact hsame hy rfl rfl rfl
  have hmigrate : ∀ {y : Execution}, Noted y → Noted y.migrateHistory := by
    intro y hy
    obtain ⟨archive, storage, heq⟩ := migrateHistory_eq y
    rw [heq]
    exact hsame hy rfl rfl rfl
  -- both are noted first, and what is written after that leaves them alone
  refine Attempt.after_bind (P := Noted) ⟨fun noted h => h.noting rfl rfl, rfl⟩ fun _ y hy => ?_
  refine Attempt.after_bind (P := Noted) (hnode _ hy) fun _ y hy => ?_
  refine Attempt.after_bind (P := Noted) (hact hy changing_flush) fun _ y hy => ?_
  refine Attempt.after_bind (P := Noted) (hmigrate hy) fun _ y hy => ?_
  refine Attempt.after_bind (P := Noted) (hsame hy rfl rfl rfl) fun _ y hy => ?_
  exact hact hy Changes.alongRequests.saveRecord

/-- **What an execution ends with**: the worst of all that was noted before, the severity of the outcome,
and a failure if the end could not be recorded. -/
theorem Tallies.finish {noted : List FlowResult} (h : Tallies noted x) (hopen : x.record.done = false)
    (outcome : Outcome) :
    Tallies (noted ++ [resultOf outcome] ++ if x.records outcome then [] else [.failure]) (x.finish outcome) := by
  have hwritten := (noted_writeOutcome x outcome).1 noted h
  rw [finish_of_open hopen]
  cases x.records outcome with
  | true =>
    rw [if_pos rfl, if_pos rfl, List.append_nil]
    exact hwritten.of_result rfl rfl
  | false =>
    rw [if_neg Bool.false_ne_true, if_neg Bool.false_ne_true]
    exact hwritten.noting rfl rfl

/-- What is recorded is written. -/
theorem writes_of_records {outcome : Outcome} (h : x.records outcome = true) :
    ∃ y, writeOutcome outcome x = (.ok (), y) := by
  unfold records at h
  split at h
  · next heq => exact ⟨_, Prod.ext heq rfl⟩
  · cases h

/-- **Writing the end** makes an execution done, if it succeeds. -/
theorem done_of_writeOutcome {outcome : Outcome} (h : x.records outcome = true) :
    ((writeOutcome outcome).after x).record.done = true := by
  obtain ⟨z, hz⟩ := writes_of_records h
  obtain ⟨_, y₀, _, hwritten⟩ := Attempt.bind_eq_ok hz
  obtain ⟨_, y, hnode, hrest⟩ := Attempt.bind_eq_ok hwritten
  have hdone : y.record.done = true := done_of_writeEndNode hnode
  -- the record is done with the node of its end; what follows keeps it so
  have hafter : ((do
      onArchive Archive.flush
      Attempt.update migrateHistory
      Attempt.update (mapRecord fun r => { r with clean := true })
      saveRecord : Act Unit).after y).record.done = true := by
    refine Attempt.after_bind (P := fun z : Execution => z.record.done = true) hdone fun _ y hy => ?_
    refine Attempt.after_bind (P := fun z : Execution => z.record.done = true) ?_ fun _ y hy => ?_
    · show y.migrateHistory.record.done = true
      rw [migrateHistory_record]
      exact hy
    exact Attempt.after_bind (P := fun z : Execution => z.record.done = true) hy fun _ y hy => hy
  rw [Attempt.after, hz]
  rw [Attempt.after, hrest] at hafter
  exact hafter

/-- An execution that has ended is done, its lane is gone, and its error is the failure that it ended
with. -/
theorem ended_finish (hopen : x.record.done = false) (outcome : Outcome) :
    (x.finish outcome).record.done = true ∧ (x.finish outcome).record.error = failureOf? outcome ∧
      (x.finish outcome).lane = .absent ∧ (x.finish outcome).inbox = [] := by
  have herror := (noted_writeOutcome x outcome).2
  rw [finish_of_open hopen]
  cases hrecords : x.records outcome with
  | true =>
    rw [if_pos rfl]
    exact ⟨done_of_writeOutcome hrecords, herror, rfl, rfl⟩
  | false =>
    rw [if_neg Bool.false_ne_true]
    exact ⟨rfl, herror, rfl, rfl⟩

end Execution

end DurableFlow
