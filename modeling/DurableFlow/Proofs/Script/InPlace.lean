/-
A body that is run in place does what it would do as a thread.

A chunk says of itself whether it calls steps, and it says so of its own code only: the calls of a closure
literal belong to another chunk. A machine never leaves its chunk, so one whose chunk calls nothing has
nothing to ask for, whatever it is given. Its body may then be run where it is called for, until its
budget is used up. What is left of it goes on as a thread, and whoever drives that thread hears what he
would have heard of the body from its start.

That nothing is executed twice or left out is said of the machines that the instructions find. Those that
are met in place and those that are met in the drives of the thread are, one behind the other, those that
are met when the body is taken instruction by instruction.
-/
import DurableFlow.Proofs.Script.Safepoints
import DurableFlow.Proofs.Script.Safety

set_option autoImplicit false

namespace DurableFlow.Script

open Compile

/-! ## Code that calls steps -/

/-- A chunk says whether it calls steps. -/
def Chunk.IsFrank (chunk : Chunk Val) : Prop :=
  chunk.callsSteps = true ↔ ∃ function argc body, Instr.call function argc body ∈ chunk.code

theorem isFrank_chunkOf (name : String) (f : Fragment) : (chunkOf name f).IsFrank := by
  unfold Chunk.IsFrank chunkOf
  simp only [List.any_eq_true, List.mem_map]
  constructor
  · rintro ⟨⟨instr, line⟩, hmem, hcall⟩
    cases instr with
    | call function argc body => exact ⟨function, argc, body, _, hmem, rfl⟩
    | _ => cases hcall
  · rintro ⟨function, argc, body, ⟨instr, line⟩, hmem, rfl⟩
    exact ⟨_, hmem, rfl⟩

theorem Compile.Numbered.isFrank {program : String} {k : Nat} {bodies : List Stmt} {chunks : List (Chunk Val)}
    (h : Numbered program k bodies chunks) : ∀ chunk ∈ chunks, chunk.IsFrank := by
  induction h with
  | nil k => exact fun _ hno => (by cases hno)
  | @cons k line body inner bodies chunks compiled rest ih =>
    intro chunk hmem
    rcases List.mem_cons.mp hmem with rfl | hmem
    · exact isFrank_chunkOf _ inner
    · exact ih chunk hmem

/-- **Compiled chunks say whether they call steps.** -/
theorem isFrank_compile {name : String} {script : ParsedScript} {program : Program Val}
    (h : compile name script = .ok program) : ∀ chunk ∈ program.chunks, chunk.IsFrank := by
  unfold compile at h
  simp only [bind_eq_ok, pure, Except.pure, Except.ok.injEq] at h
  obtain ⟨main, hmain, rfl⟩ := h
  intro chunk hmem
  rcases List.mem_cons.mp hmem with rfl | hmem
  · exact isFrank_chunkOf name main
  · exact (numbered_stmt script.body hmain).isFrank chunk hmem

/-! ## Machines that ask for nothing -/

/-- No step is asked for. -/
def Progress.AsksNothing (p : Progress) : Prop := ∀ request m, p ≠ .yields (.step request) m

/-- The machine runs a chunk in which there is no call. -/
def Machine.CallsNothing (m : Machine) : Prop :=
  ∃ chunk, m.program.chunks[m.chunk]? = some chunk ∧
    ∀ function argc body, Instr.call function argc body ∉ chunk.code

namespace Machine

theorem asksNothing_popThen {m : Machine} {next : Val → Machine → Progress}
    (h : ∀ value m, (next value m).AsksNothing) : (m.popThen next).AsksNothing := by
  unfold popThen
  split
  · exact h _ _
  · exact fun _ _ hno => (by cases hno)

theorem asksNothing_pushOutcome (m : Machine) (outcome : Outcome) : (m.pushOutcome outcome).AsksNothing := by
  cases outcome <;> exact fun _ _ hno => (by cases hno)

/-- **Only a call asks for a step.** -/
theorem asksNothing_execute (m : Machine) {instr : Instr Val}
    (h : ∀ function argc body, instr ≠ .call function argc body) : (m.execute instr).AsksNothing := by
  have none : ∀ {m : Machine}, (Progress.continues m).AsksNothing := fun _ _ hno => (by cases hno)
  have raised : ∀ {f : Failure} {m : Machine}, (Progress.raises f m).AsksNothing := fun _ _ hno => (by cases hno)
  cases instr with
  | call function argc body => exact absurd rfl (h function argc body)
  | load name =>
    simp only [execute]
    split
    · exact none
    · exact raised
  | declare | store | pop | jumpIfFalse =>
    rw [execute]
    exact asksNothing_popThen fun _ _ => none
  | throw =>
    rw [execute]
    exact asksNothing_popThen fun _ _ => raised
  | binary op =>
    rw [execute]
    refine asksNothing_popThen fun right m => ?_
    exact asksNothing_popThen fun left m => asksNothing_pushOutcome m _
  | unary op =>
    rw [execute]
    exact asksNothing_popThen fun _ m => asksNothing_pushOutcome m _
  | makeList n =>
    simp only [execute, popMany]
    split
    · exact none
    · exact raised
  | jumpIfFalseKeep | jumpIfTrueKeep =>
    simp only [execute, jumpWhen]
    split
    · exact none
    · exact raised
  | ret => exact fun _ _ hno => (by cases hno)
  | _ => exact none

theorem asksNothing_raise (m : Machine) (failure : Failure) : (m.raise failure).AsksNothing := by
  unfold raise
  split <;> exact fun _ _ hno => (by cases hno)

theorem CallsNothing.asksNothing_step {m : Machine} (h : m.CallsNothing) : m.step.AsksNothing := by
  obtain ⟨chunk, hchunk, hcalls⟩ := h
  unfold step
  rw [hchunk]
  dsimp only
  split
  · exact fun _ _ hno => (by cases hno)
  · next instr hinstr =>
    refine asksNothing_execute _ fun function argc body hcall => ?_
    subst hcall
    exact hcalls function argc body (List.mem_of_getElem? hinstr)

theorem CallsNothing.asksNothing_advance {m : Machine} (h : m.CallsNothing) : m.advance.AsksNothing := by
  have hstep := h.asksNothing_step
  unfold advance
  split
  · exact asksNothing_raise _ _
  · exact hstep

theorem SameCode.callsNothing {m m' : Machine} (h : m.SameCode m') (hm : m.CallsNothing) : m'.CallsNothing := by
  unfold CallsNothing
  rw [h.1, h.2]
  exact hm

theorem sameCode_resume (m : Machine) (input : Outcome) : m.SameCode (m.resume input).machine := by
  unfold resume
  split
  · exact SameCode.refl m
  · exact ⟨rfl, rfl⟩
  · exact sameCode_raise { m with phase := .ready } _
  · exact SameCode.refl m
  · exact sameCode_raise m _

theorem sameCode_runFor (n : Nat) (m : Machine) : m.SameCode (m.runFor n).2 := by
  induction n generalizing m with
  | zero => exact SameCode.refl m
  | succ n ih =>
    have hsame := m.sameCode_advance
    rw [runFor]
    generalize m.advance = p at hsame
    cases p with
    | continues next => exact hsame.trans (ih next)
    | yields y next => exact hsame
    | raises failure next => exact hsame

/-- **A drive never leaves its chunk.** -/
theorem sameCode_run (m : Machine) (input : Outcome) : m.SameCode (m.run input).2 := by
  rw [run_eq]
  refine (m.sameCode_resume input).trans ?_
  generalize m.resume input = p
  cases p with
  | continues next => exact next.sameCode_runFor m.budget
  | yields y next => exact SameCode.refl next
  | raises failure next => exact SameCode.refl next

/-- A machine that is driven with some inputs, one after the other. -/
def driven (m : Machine) (inputs : List Outcome) : Machine := inputs.foldl (fun m input => (m.run input).2) m

theorem sameCode_driven (m : Machine) (inputs : List Outcome) : m.SameCode (m.driven inputs) := by
  induction inputs generalizing m with
  | nil => exact SameCode.refl m
  | cons input rest ih => exact (m.sameCode_run input).trans (ih _)

/-- **A drive of a machine that calls nothing asks for no step**, whatever the machine is given. -/
theorem CallsNothing.asksNothing_runFor {m : Machine} (h : m.CallsNothing) (n : Nat) (request : StepRequest)
    (left : Machine) : m.runFor n ≠ (.step request, left) := by
  induction n generalizing m with
  | zero => exact fun hno => (by cases hno)
  | succ n ih =>
    have hsame := m.sameCode_advance
    have hasks := h.asksNothing_advance
    rw [runFor]
    generalize m.advance = p at hsame hasks
    cases p with
    | continues next => exact ih (hsame.callsNothing h)
    | yields y next =>
      intro heq
      cases heq
      exact hasks request left rfl
    | raises failure next => exact fun hno => (by cases hno)

theorem CallsNothing.asksNothing_run {m : Machine} (h : m.CallsNothing) (input : Outcome) (request : StepRequest)
    (left : Machine) : m.run input ≠ (.step request, left) := by
  have hsame := m.sameCode_resume input
  have hresume : (m.resume input).AsksNothing := by
    unfold resume
    split
    · exact fun _ _ hno => (by cases hno)
    · exact fun _ _ hno => (by cases hno)
    · exact asksNothing_raise _ _
    · exact fun _ _ hno => (by cases hno)
    · exact asksNothing_raise _ _
  rw [run_eq]
  generalize m.resume input = p at hsame hresume
  cases p with
  | continues next => exact (hsame.callsNothing h).asksNothing_runFor m.budget request left
  | yields y next =>
    intro heq
    cases heq
    exact hresume request left rfl
  | raises failure next => exact fun hno => (by cases hno)

end Machine

/-! ## The instructions of a run -/

/-- The instructions that are executed for a budget of `n`, each with the machine that it finds. -/
def Progress.performed : Nat → Progress → List Machine
  | 0, _ => []
  | n + 1, .continues m => m :: performed n m.advance
  | _ + 1, _ => []

/-- The instructions of one drive. -/
def Machine.performed (m : Machine) (input : Outcome) : List Machine := (m.resume input).performed m.budget

/-- The instructions of so many more drives, from what the last one came to. Calls get the next answer and
safepoints nothing, as in `heard`. -/
def performedLater : Nat → Yield × Machine → List Outcome → List Machine
  | drives + 1, (.safepoint, m), answers =>
    m.performed (.ok .null) ++ performedLater drives (m.run (.ok .null)) answers
  | drives + 1, (.step _, m), answer :: answers =>
    m.performed answer ++ performedLater drives (m.run answer) answers
  | _, _, _ => []

/-- The instructions of a thread in its first drive and so many more. -/
def Machine.executed (m : Machine) (drives : Nat) (answers : List Outcome) : List Machine :=
  m.performed (.ok .null) ++ performedLater drives (m.run (.ok .null)) answers

/-- **The course of a machine** without any drives: the instructions among its first moves, a move being
an instruction or the taking of an answer. -/
def course : Nat → Progress → List Outcome → List Machine
  | moves + 1, .continues m, answers => m :: course moves m.advance answers
  | moves + 1, .yields (.step _) m, answer :: answers => course moves (m.resume answer) answers
  | _, _, _ => []

theorem performedLater_zero (x : Yield × Machine) (answers : List Outcome) :
    performedLater 0 x answers = [] := by
  rw [performedLater] <;> simp

theorem performed_of_yields (n : Nat) (y : Yield) (m : Machine) : (Progress.yields y m).performed n = [] := by
  cases n <;> rfl

theorem resume_of_ready {m : Machine} (hready : m.phase = .ready) : m.resume (.ok .null) = .continues m := by
  simp only [Machine.resume, hready]

theorem runFor_succ (n : Nat) (m : Machine) : m.runFor (n + 1) = m.advance.runFor n := by
  rw [Machine.runFor]
  cases m.advance <;> rfl

/-- **Drives execute what is in the course**, and nothing else. -/
theorem exists_course (drives n : Nat) {p : Progress} (hp : p.Settled) (answers : List Outcome) :
    ∃ moves, p.performed n ++ performedLater drives (p.runFor n) answers = course moves p answers := by
  induction drives generalizing p n answers with
  | zero =>
    -- the drive alone
    induction n generalizing p with
    | zero => exact ⟨0, rfl⟩
    | succ n ihn =>
      cases p with
      | continues m =>
        obtain ⟨moves, hmoves⟩ := ihn (Machine.settled_advance hp.1 hp.2)
        exact ⟨moves + 1, congrArg (m :: ·) hmoves⟩
      | yields y m => exact ⟨0, rfl⟩
      | raises failure m => exact hp.elim
  | succ drives ih =>
    have hyields : ∀ {y : Yield} {m : Machine}, (Progress.yields y m).Settled →
        ∃ moves, performedLater (drives + 1) (y, m) answers = course moves (.yields y m) answers := by
      intro y m hm
      cases y with
      | completed outcome => exact ⟨0, rfl⟩
      | safepoint => exact hm.elim
      | step request =>
        cases answers with
        | nil => exact ⟨0, rfl⟩
        | cons answer answers =>
          obtain ⟨moves, hmoves⟩ := ih m.budget (Machine.settled_resume hm.2 answer) answers
          refine ⟨moves + 1, ?_⟩
          rw [performedLater, m.run_eq]
          exact hmoves
    induction n generalizing p with
    | zero =>
      cases p with
      | continues m =>
        -- a safepoint: the next drive executes what comes next
        obtain ⟨moves, hmoves⟩ := ih m.budget hp answers
        refine ⟨moves, ?_⟩
        show m.performed (.ok .null) ++ performedLater drives (m.run (.ok .null)) answers = _
        rw [Machine.performed, m.run_eq, resume_of_ready hp.1]
        exact hmoves
      | yields y m => exact hyields hp
      | raises failure m => exact hp.elim
    | succ n ihn =>
      cases p with
      | continues m =>
        obtain ⟨moves, hmoves⟩ := ihn (Machine.settled_advance hp.1 hp.2)
        refine ⟨moves + 1, ?_⟩
        show m :: (m.advance.performed n ++ performedLater (drives + 1) (m.runFor (n + 1)) answers) = _
        rw [runFor_succ, hmoves]
        rfl
      | yields y m => exact hyields hp
      | raises failure m => exact hp.elim

/-- **The course is executed** with enough drives, wherever they are cut. -/
theorem course_prefix (moves : Nat) {p : Progress} (hp : p.Settled) (answers : List Outcome) (n : Nat) :
    ∃ drives, course moves p answers <+: p.performed n ++ performedLater drives (p.runFor n) answers := by
  induction moves generalizing p answers n with
  | zero => exact ⟨0, List.nil_prefix⟩
  | succ moves ih =>
    cases p with
    | raises failure m => exact hp.elim
    | continues m =>
      have hnext := Machine.settled_advance hp.1 hp.2
      have hgoes : ∀ n, ∃ drives, course (moves + 1) (.continues m) answers <+:
          (Progress.continues m).performed (n + 1) ++ performedLater drives (m.runFor (n + 1)) answers := by
        intro n
        obtain ⟨drives, hdrives⟩ := ih hnext answers n
        refine ⟨drives, ?_⟩
        rw [runFor_succ]
        exact (List.prefix_cons_inj m).mpr hdrives
      cases n with
      | succ n => exact hgoes n
      | zero =>
        -- the budget is used up here, and the next drive has one of at least one instruction
        obtain ⟨budget, hbudget⟩ := Nat.exists_eq_succ_of_ne_zero (Nat.ne_of_gt hp.2)
        obtain ⟨drives, hdrives⟩ := hgoes budget
        refine ⟨drives + 1, ?_⟩
        show _ <+: m.performed (.ok .null) ++ performedLater drives (m.run (.ok .null)) answers
        rw [Machine.performed, Machine.run_of_ready hp.1, resume_of_ready hp.1, hbudget]
        exact hdrives
    | yields y m =>
      cases y with
      | completed outcome => exact ⟨0, List.nil_prefix⟩
      | safepoint => exact hp.elim
      | step request =>
        cases answers with
        | nil => exact ⟨0, List.nil_prefix⟩
        | cons answer answers =>
          obtain ⟨drives, hdrives⟩ := ih (Machine.settled_resume hp.2 answer) answers m.budget
          refine ⟨drives + 1, ?_⟩
          show course moves (m.resume answer) answers <+: (Progress.yields (.step request) m).performed n ++
            (m.performed answer ++ performedLater drives (m.run answer) answers)
          rw [performed_of_yields, List.nil_append, m.run_eq]
          exact hdrives

/-! ## Bodies in place -/

/-- The instructions that are executed where a body is called for. -/
def performedInPlace (budget : Nat) (closure : Closure Val) : List Machine :=
  if closure.callsSteps then [] else (Machine.ofClosure closure budget).performed (.ok .null)

/-- **A body that is run in place for a budget does what it would do as a thread.** -/
structure RunsInPlace (budget : Nat) (closure : Closure Val) : Prop where
  /-- If it is run in place at all, it asks for no step there. -/
  asksNothing : closure.callsSteps = false → ∀ request m,
    (Machine.ofClosure closure budget).run (.ok .null) ≠ (.step request, m)
  /-- If it ends there, then as the body ends when it is driven from its start. -/
  completes : ∀ outcome, invokeBody budget closure = .completed outcome →
    closure.callsSteps = false ∧ ∀ other, 1 ≤ other → ∀ answers, ∃ drives m,
      heard drives ((Machine.ofClosure closure other).run (.ok .null)) answers =
        { ending := some (outcome, m) }
  /-- What is heard of the rest of it is heard of the body from its start, whatever answers its calls. -/
  continues : ∀ m, invokeBody budget closure = .deferred m → ∀ other, 1 ≤ other → ∀ answers,
    (∀ drives, ∃ others, heard others ((Machine.ofClosure closure other).run (.ok .null)) answers =
      (heard drives (m.run (.ok .null)) answers).withBudget other) ∧
    ∀ others, ∃ drives, heard drives (m.run (.ok .null)) answers =
      (heard others ((Machine.ofClosure closure other).run (.ok .null)) answers).withBudget budget
  /-- What is executed in place, and then by the thread, is the course of the body. -/
  performs : ∀ m, invokeBody budget closure = .deferred m → ∀ answers,
    (∀ drives, ∃ moves, performedInPlace budget closure ++ m.executed drives answers =
      course moves (.continues (.ofClosure closure budget)) answers) ∧
    ∀ moves, ∃ drives, course moves (.continues (.ofClosure closure budget)) answers <+:
      performedInPlace budget closure ++ m.executed drives answers

section Body

variable {budget : Nat} {closure : Closure Val} {m : Machine}

/-- What is left of a body is its machine at the start, or at the first safepoint. -/
theorem deferred_cases (h : invokeBody budget closure = .deferred m) :
    (closure.callsSteps = true ∧ m = .ofClosure closure budget) ∨
      (closure.callsSteps = false ∧ (Machine.ofClosure closure budget).run (.ok .null) = (.safepoint, m)) := by
  unfold invokeBody at h
  dsimp only at h
  split at h
  · next hcalls =>
    cases h
    exact .inl ⟨hcalls, rfl⟩
  · next hcalls =>
    split at h
    · cases h
    · next heq =>
      cases h
      exact .inr ⟨Bool.eq_false_iff.mpr hcalls, heq⟩
    · cases h

/-- A body that ended in place ended in the first drive, unless it asked for a step. -/
theorem completed_cases {outcome : Outcome} (h : invokeBody budget closure = .completed outcome) :
    closure.callsSteps = false ∧
      ((∃ left, (Machine.ofClosure closure budget).run (.ok .null) = (.completed outcome, left)) ∨
        ∃ request left, (Machine.ofClosure closure budget).run (.ok .null) = (.step request, left)) := by
  unfold invokeBody at h
  dsimp only at h
  split at h
  · cases h
  · next hcalls =>
    refine ⟨Bool.eq_false_iff.mpr hcalls, ?_⟩
    split at h
    · next heq =>
      cases h
      exact .inl ⟨_, heq⟩
    · cases h
    · next heq => exact .inr ⟨_, _, heq⟩

/-- The machine of a body with one budget or with another. -/
theorem ofClosure_withBudget (closure : Closure Val) {budget other : Nat} (h : 1 ≤ other) :
    Machine.ofClosure closure other = (Machine.ofClosure closure budget).withBudget other := by
  unfold Machine.ofClosure Machine.start Machine.withBudget
  simp only [Nat.max_eq_left h]

/-- What is heard of the rest of a body is heard of the body with the same budget. -/
theorem heard_deferred (h : invokeBody budget closure = .deferred m) (answers : List Outcome) :
    (∀ drives, ∃ others, heard others ((Machine.ofClosure closure budget).run (.ok .null)) answers =
      heard drives (m.run (.ok .null)) answers) ∧
    ∀ others, ∃ drives, heard drives (m.run (.ok .null)) answers =
      heard others ((Machine.ofClosure closure budget).run (.ok .null)) answers := by
  rcases deferred_cases h with ⟨-, rfl⟩ | ⟨-, hrun⟩
  · exact ⟨fun drives => ⟨drives, rfl⟩, fun others => ⟨others, rfl⟩⟩
  · rw [hrun]
    refine ⟨fun drives => ⟨drives + 1, rfl⟩, fun others => ?_⟩
    cases others with
    | zero => exact ⟨0, rfl⟩
    | succ others => exact ⟨others, rfl⟩

/-- What is executed for a body in place and by its thread is what a thread executes from the start. -/
theorem executed_deferred (h : invokeBody budget closure = .deferred m) (answers : List Outcome) :
    (∀ drives, ∃ others, performedInPlace budget closure ++ m.executed drives answers =
      (Machine.ofClosure closure budget).executed others answers) ∧
    ∀ others, ∃ drives, (Machine.ofClosure closure budget).executed others answers <+:
      performedInPlace budget closure ++ m.executed drives answers := by
  unfold performedInPlace
  rcases deferred_cases h with ⟨hcalls, rfl⟩ | ⟨hcalls, hrun⟩
  · rw [if_pos hcalls]
    exact ⟨fun drives => ⟨drives, rfl⟩, fun others => ⟨others, List.prefix_refl _⟩⟩
  · rw [if_neg (by rw [hcalls]; decide)]
    have hlater : ∀ drives, (Machine.ofClosure closure budget).executed (drives + 1) answers =
        (Machine.ofClosure closure budget).performed (.ok .null) ++ m.executed drives answers := by
      intro drives
      rw [Machine.executed, hrun]
      rfl
    refine ⟨fun drives => ⟨drives + 1, (hlater drives).symm⟩, fun others => ?_⟩
    cases others with
    | succ others => exact ⟨others, (hlater others) ▸ List.prefix_refl _⟩
    | zero =>
      refine ⟨0, ?_⟩
      rw [Machine.executed, performedLater_zero, List.append_nil]
      exact List.prefix_append _ _

/-- **A body without calls runs in place as it runs as a thread.** -/
theorem runsInPlace (hbudget : 1 ≤ budget)
    (hcalls : closure.callsSteps = false → (Machine.ofClosure closure budget).CallsNothing) :
    RunsInPlace budget closure := by
  have hpositive : 0 < (Machine.ofClosure closure budget).budget :=
    Nat.lt_of_lt_of_le Nat.one_pos (Nat.le_max_right _ _)
  have hsettled : (Progress.continues (Machine.ofClosure closure budget)).Settled := ⟨rfl, hpositive⟩
  have hself : Machine.ofClosure closure budget = (Machine.ofClosure closure budget).withBudget budget :=
    ofClosure_withBudget closure hbudget
  constructor
  case asksNothing => exact fun hnone request m => (hcalls hnone).asksNothing_run _ request m
  case completes =>
    intro outcome h
    obtain ⟨hnone, ⟨left, hrun⟩ | ⟨request, left, hrun⟩⟩ := completed_cases h
    · refine ⟨hnone, fun other hother answers => ?_⟩
      obtain ⟨others, hothers⟩ := budget_is_unobservable (Machine.ofClosure closure budget) hbudget hother
        (.ok .null) answers 1
      rw [← ofClosure_withBudget closure hother, ← hself, hrun] at hothers
      exact ⟨others, _, hothers⟩
    · exact absurd hrun ((hcalls hnone).asksNothing_run _ request left)
  case continues =>
    intro m h other hother answers
    -- both are compared with the body from its start with its own budget
    obtain ⟨hrest, hstart⟩ := heard_deferred h answers
    constructor
    · intro drives
      obtain ⟨others, hothers⟩ := hrest drives
      rw [← hothers]
      have hsame := budget_is_unobservable (Machine.ofClosure closure budget) hbudget hother (.ok .null) answers
        others
      rwa [← ofClosure_withBudget closure hother, ← hself] at hsame
    · intro others
      obtain ⟨drives, hdrives⟩ := budget_is_unobservable (Machine.ofClosure closure budget) hother hbudget
        (.ok .null) answers others
      rw [← ofClosure_withBudget closure hother, ← hself] at hdrives
      rw [← hdrives]
      exact hstart drives
  case performs =>
    intro m h answers
    obtain ⟨hrest, hstart⟩ := executed_deferred h answers
    constructor
    · intro drives
      obtain ⟨others, hothers⟩ := hrest drives
      rw [hothers]
      exact exists_course others _ hsettled answers
    · intro moves
      obtain ⟨others, hothers⟩ := course_prefix moves hsettled answers (Machine.ofClosure closure budget).budget
      obtain ⟨drives, hdrives⟩ := hstart others
      exact ⟨drives, hothers.trans hdrives⟩

end Body

/-- A closure runs a chunk of a program. -/
def Closure.RunsIn (program : Program Val) (closure : Closure Val) : Prop :=
  closure.program = program ∧ closure.chunk < program.chunks.length

/-- The closures that the machines of a compiled program create run its chunks. -/
theorem runsIn_created {name : String} {script : ParsedScript} {program : Program Val}
    (hcompiled : compile name script = .ok program) {m : Machine} {closure : Closure Val}
    (hm : Reached program m) (hready : m.phase = .ready) (hcreated : m.created? = some closure) :
    closure.RunsIn program := by
  obtain ⟨hprogram, body, chunk, -, hchunk, -⟩ := (hm.entered hready hcreated 1).standing hcompiled
  exact ⟨hprogram, (List.getElem?_eq_some_iff.mp hchunk).1⟩

/-- **Bodies run in place as they run as threads.** In a compiled program a chunk is marked exactly if its
code holds a call. A machine on a chunk that is not marked asks for no step, whatever it is driven with and
however often. The closures that are created run chunks of the program, and with every budget such a closure
is run in place as it would be run from its start by a thread. -/
theorem bodies_run_in_place {name : String} {script : ParsedScript} {program : Program Val}
    (hcompiled : compile name script = .ok program) :
    (∀ chunk ∈ program.chunks, chunk.callsSteps = true ↔
      ∃ function argc body, Instr.call function argc body ∈ chunk.code) ∧
    (∀ (m : Machine) (chunk : Chunk Val), m.program = program → program.chunks[m.chunk]? = some chunk →
      chunk.callsSteps = false → ∀ inputs input request left,
      (m.driven inputs).run input ≠ (.step request, left)) ∧
    (∀ (m : Machine) (closure : Closure Val), Reached program m → m.phase = .ready →
      m.created? = some closure → closure.RunsIn program) ∧
    ∀ closure : Closure Val, closure.RunsIn program → ∀ budget, 1 ≤ budget → RunsInPlace budget closure := by
  have hfrank := isFrank_compile hcompiled
  have hnothing : ∀ (m : Machine) (chunk : Chunk Val), m.program = program →
      program.chunks[m.chunk]? = some chunk → chunk.callsSteps = false → m.CallsNothing := by
    intro m chunk hprogram hchunk hflag
    refine ⟨chunk, hprogram ▸ hchunk, fun function argc body hmem => ?_⟩
    have hcalls := (hfrank chunk (List.mem_of_getElem? hchunk)).mpr ⟨function, argc, body, hmem⟩
    rw [hflag] at hcalls
    cases hcalls
  refine ⟨hfrank, fun m chunk hprogram hchunk hflag inputs input request left => ?_,
    fun m closure => runsIn_created hcompiled, fun closure hruns budget hbudget =>
      runsInPlace hbudget fun hflag => ?_⟩
  · have hdriven := (m.sameCode_driven inputs).callsNothing (hnothing m chunk hprogram hchunk hflag)
    exact hdriven.asksNothing_run input request left
  · obtain ⟨chunk, hchunk⟩ : ∃ chunk, program.chunks[closure.chunk]? = some chunk :=
      ⟨_, List.getElem?_eq_getElem hruns.2⟩
    refine hnothing _ chunk hruns.1 hchunk ?_
    rw [Closure.callsSteps, Closure.body?, hruns.1, hchunk] at hflag
    exact hflag

/-- A script with a block that calls nothing inside one that does: `stage() { return each() { return [] } }`. -/
def blockInBlock : ParsedScript :=
  let inner : Stmt := .ret (some (.list [.bool true {}] {})) {}
  let each : Expr := .call "each" [] (some inner) {}
  { body := .eval (.call "stage" [] (some (.ret (some each) {})) {}) {}, span := {} }

/-- The inner block ends in place, or gives way at its first safepoint and ends as a thread; the outer
one is left to a thread at once. -/
theorem bodies_run_in_place_nested :
    ∃ program, compile "nested" blockInBlock = .ok program ∧
      program.chunks.map Chunk.callsSteps = [true, true, false] ∧
      (let inner : Closure Val := { program, chunk := 2, captured := [] }
       RunsInPlace 9 inner ∧ invokeBody 9 inner = .completed (.ok (.list [.bool true])) ∧
         RunsInPlace 1 inner ∧ (performedInPlace 1 inner).map Machine.pc = [0] ∧
         ∃ m, invokeBody 1 inner = .deferred m ∧ (m.executed 9 []).map Machine.pc = [1, 2]) ∧
      (let outer : Closure Val := { program, chunk := 1, captured := [] }
       RunsInPlace 9 outer ∧ performedInPlace 9 outer = []) := by
  let program : Program Val := (compile "nested" blockInBlock).toOption.getD { name := "", chunks := [] }
  have hcompiled : compile "nested" blockInBlock = .ok program := rfl
  obtain ⟨-, -, -, hruns⟩ := bodies_run_in_place hcompiled
  have hlength : program.chunks.length = 3 := rfl
  refine ⟨program, hcompiled, rfl, ⟨?_, rfl, ?_, rfl, ?_⟩, ?_, rfl⟩
  · exact hruns _ ⟨rfl, by rw [hlength]; decide⟩ 9 (by decide)
  · exact hruns _ ⟨rfl, by rw [hlength]; decide⟩ 1 (by decide)
  · exact ⟨_, rfl, rfl⟩
  · exact hruns _ ⟨rfl, by rw [hlength]; decide⟩ 9 (by decide)

end DurableFlow.Script
