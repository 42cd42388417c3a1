/-
How long a drive in a sandbox lasts.

A run ends after as many instructions as the budget says. In a sandbox a forbidden call is answered at
once, and the machine is run again with a new budget: so the budget bounds the way from one forbidden
call to the next, and nothing bounds the drive. A script that asks, catches the failure and asks again
never comes out, if its budget is large enough for one round; with a smaller one it comes to a safepoint.

Each of the calls has to be caught, for a failure that nobody catches ends the run. And something has to
jump back: a script without loops comes out of the sandbox whatever it calls and catches. There the
weight of a machine says how much it can do at most. The place of the machine and the places of its
handlers all weigh the more, the more code there is behind them, and whatever goes forward gets lighter.
-/
import DurableFlow.Proofs.Script.Safety
import DurableFlow.Proofs.Script.Screening
import Mathlib.Algebra.Order.BigOperators.Group.List
import Mathlib.Algebra.Order.Group.Nat
import Mathlib.Tactic.IntervalCases

set_option autoImplicit false

namespace DurableFlow.Script

/-! ## Code that goes forward -/

mutual

/-- Whether a statement has no loop, but for those in the closures that it makes. -/
def Stmt.isLoopFree : Stmt → Bool
  | .block body _ => Stmt.areLoopFree body
  | .ifThen _ yes none _ => yes.isLoopFree
  | .ifThen _ yes (some no) _ => yes.isLoopFree && no.isLoopFree
  | .whileDo .. => false
  | .tryCatch body _ handler _ => body.isLoopFree && handler.isLoopFree
  | _ => true

def Stmt.areLoopFree : List Stmt → Bool
  | [] => true
  | s :: ss => s.isLoopFree && Stmt.areLoopFree ss

end

namespace Compile

/-- **Code that only goes forward**: a place that an instruction names lies behind it. The code begins
at the address `first`. -/
def Forward (first : Nat) (code : List (Instr Val)) : Prop :=
  ∀ i instr, code[i]? = some instr → ∀ target, instr.target? = some target → first + i < target

@[simp] theorem forward_nil (first : Nat) : Forward first [] := fun i _ hno => by simp at hno

@[simp] theorem forward_cons {first : Nat} {instr : Instr Val} {rest : List (Instr Val)} :
    Forward first (instr :: rest) ↔
      (∀ target, instr.target? = some target → first < target) ∧ Forward (first + 1) rest := by
  constructor
  · intro h
    refine ⟨fun target ht => h 0 instr rfl target ht, fun i other hi target ht => ?_⟩
    have := h (i + 1) other hi target ht
    omega
  · rintro ⟨hfirst, hrest⟩ i other hi target ht
    cases i with
    | zero =>
      cases hi
      exact hfirst target ht
    | succ i =>
      have := hrest i other hi target ht
      omega

@[simp] theorem forward_append {first : Nat} {code more : List (Instr Val)} :
    Forward first (code ++ more) ↔ Forward first code ∧ Forward (first + code.length) more := by
  induction code generalizing first with
  | nil => simp
  | cons instr rest ih =>
    rw [List.cons_append, forward_cons, forward_cons, ih, List.length_cons, and_assoc,
      Nat.add_assoc, Nat.add_comm 1]

mutual

/-- **The code of an expression goes forward.** -/
theorem forward_expr {program : String} (e : Expr) {c : Cursor} {f : Fragment}
    (h : expr program c e = .ok f) : Forward c.address (f.code.map Prod.fst) := by
  match e with
  | .null _ | .bool _ _ | .num _ _ | .str _ _ | .ident _ _ =>
    simp only [expr, Except.ok.injEq] at h
    subst h
    simp [Instr.target?]
  | .list elements _ =>
    simp only [expr, bind_eq_ok, pure, Except.pure, Except.ok.injEq] at h
    obtain ⟨items, hitems, rfl⟩ := h
    simpa [Instr.target?] using forward_exprs elements hitems
  | .call _ args none _ =>
    simp only [expr, bind_eq_ok, pure, Except.pure, Except.ok.injEq] at h
    obtain ⟨given, hgiven, rfl⟩ := h
    simpa [Instr.target?] using forward_exprs args hgiven
  | .call _ args (some body) _ =>
    simp only [expr, bind_eq_ok, pure, Except.pure, Except.ok.injEq] at h
    obtain ⟨given, hgiven, inner, -, rfl⟩ := h
    simpa [Instr.target?] using forward_exprs args hgiven
  | .closure body _ =>
    simp only [expr, bind_eq_ok, pure, Except.pure, Except.ok.injEq] at h
    obtain ⟨inner, -, rfl⟩ := h
    simp [Instr.target?]
  | .unary _ operand _ =>
    simp only [expr, bind_eq_ok, pure, Except.pure, Except.ok.injEq] at h
    obtain ⟨value, hvalue, rfl⟩ := h
    simpa [Instr.target?] using forward_expr operand hvalue
  | .binary op left right _ =>
    simp only [expr, bind_eq_ok] at h
    obtain ⟨first, hfirst, h⟩ := h
    have hleft := forward_expr left hfirst
    cases op <;>
    · simp only [bind_eq_ok, pure, Except.pure, Except.ok.injEq] at h
      obtain ⟨second, hsecond, rfl⟩ := h
      have hright := forward_expr right hsecond
      have hover : c.address + first.code.length <
          c.address + first.code.length + 1 + 1 + second.code.length := by omega
      simp only [Cursor.address_after, Cursor.address_skip, Cursor.address_onSpan] at hleft hright
      simp [Instr.target?, hleft, hright, hover]

theorem forward_exprs {program : String} (es : List Expr) {c : Cursor} {f : Fragment}
    (h : exprs program c es = .ok f) : Forward c.address (f.code.map Prod.fst) := by
  match es with
  | [] =>
    simp only [exprs, Except.ok.injEq] at h
    subst h
    simp
  | e :: es =>
    simp only [exprs, bind_eq_ok, pure, Except.pure, Except.ok.injEq] at h
    obtain ⟨first, hfirst, rest, hrest, rfl⟩ := h
    have hleft := forward_expr e hfirst
    have hright := forward_exprs es hrest
    simpa using And.intro hleft hright

end

theorem forward_optional {program : String} (e : Option Expr) {c : Cursor} {f : Fragment}
    (h : optional program c e = .ok f) : Forward c.address (f.code.map Prod.fst) := by
  cases e with
  | none =>
    simp only [optional, Except.ok.injEq] at h
    subst h
    simp [Instr.target?]
  | some e => exact forward_expr e (by simpa only [optional] using h)

mutual

/-- **The code of a statement without loops goes forward.** Outside of a loop there is none to leave. -/
theorem forward_stmt {program : String} (s : Stmt) {ctx : Context} {c : Cursor} {f : Fragment}
    (h : stmt program ctx c s = .ok f) (hloop : ctx.loop = none) (hfree : s.isLoopFree = true) :
    Forward c.address (f.code.map Prod.fst) := by
  match s with
  | .block body _ =>
    simp only [stmt, bind_eq_ok, pure, Except.pure, Except.ok.injEq] at h
    obtain ⟨inner, hinner, rfl⟩ := h
    have hbody := forward_stmts body hinner hloop (by simpa only [Stmt.isLoopFree] using hfree)
    simpa [Instr.target?] using hbody
  | .bind _ value _ | .ret value _ =>
    simp only [stmt, bind_eq_ok, pure, Except.pure, Except.ok.injEq] at h
    obtain ⟨code, hcode, rfl⟩ := h
    simpa [Instr.target?] using forward_optional value hcode
  | .assign _ value _ | .throw value _ | .eval value _ =>
    simp only [stmt, bind_eq_ok, pure, Except.pure, Except.ok.injEq] at h
    obtain ⟨code, hcode, rfl⟩ := h
    simpa [Instr.target?] using forward_expr value hcode
  | .ifThen test yes none _ =>
    simp only [stmt, bind_eq_ok, pure, Except.pure, Except.ok.injEq] at h
    obtain ⟨t, ht, y, hy, rfl⟩ := h
    have htest := forward_expr test ht
    have hyes := forward_stmt yes hy hloop (by simpa only [Stmt.isLoopFree] using hfree)
    have hover : c.address + t.code.length < c.address + t.code.length + 1 + y.code.length := by omega
    simp only [Cursor.address_after, Cursor.address_skip, Cursor.address_onLine] at htest hyes
    simpa [Instr.target?] using ⟨htest, hover, hyes⟩
  | .ifThen test yes (some no) _ =>
    simp only [stmt, bind_eq_ok, pure, Except.pure, Except.ok.injEq] at h
    obtain ⟨t, ht, y, hy, n, hn, rfl⟩ := h
    simp only [Stmt.isLoopFree, Bool.and_eq_true] at hfree
    have htest := forward_expr test ht
    have hyes := forward_stmt yes hy hloop hfree.1
    have hno := forward_stmt no hn hloop hfree.2
    simp only [Cursor.address_after, Cursor.address_skip, Cursor.address_onLine] at htest hyes hno
    simp [Instr.target?, htest, hyes, hno]
    omega
  | .whileDo _ _ _ => cases hfree
  | .tryCatch body _ handler _ =>
    simp only [stmt, bind_eq_ok, pure, Except.pure, Except.ok.injEq] at h
    obtain ⟨b, hb, g, hg, rfl⟩ := h
    simp only [Stmt.isLoopFree, Bool.and_eq_true] at hfree
    have hbody := forward_stmt body hb hloop hfree.1
    have hhandler := forward_stmt handler hg hloop hfree.2
    simp only [Cursor.address_after, Cursor.address_skip, Cursor.address_onLine] at hbody hhandler
    simp [Instr.target?, hbody, hhandler]
    omega
  | .breakLoop _ | .continueLoop _ =>
    simp only [stmt, leaveLoop, hloop] at h
    cases h

theorem forward_stmts {program : String} (ss : List Stmt) {ctx : Context} {c : Cursor} {f : Fragment}
    (h : stmts program ctx c ss = .ok f) (hloop : ctx.loop = none) (hfree : Stmt.areLoopFree ss = true) :
    Forward c.address (f.code.map Prod.fst) := by
  match ss with
  | [] =>
    simp only [stmts, Except.ok.injEq] at h
    subst h
    simp
  | s :: ss =>
    simp only [stmts, bind_eq_ok, pure, Except.pure, Except.ok.injEq] at h
    obtain ⟨first, hfirst, rest, hrest, rfl⟩ := h
    simp only [Stmt.areLoopFree, Bool.and_eq_true] at hfree
    have hleft := forward_stmt s hfirst hloop hfree.1
    have hright := forward_stmts ss hrest hloop hfree.2
    simpa using And.intro hleft hright

end

/-- **A chunk goes forward** if its body has no loop. -/
theorem forward_chunkOf {program title : String} {body : Stmt} {c : Cursor} {f : Fragment}
    (h : stmt program {} c body = .ok f) (haddress : c.address = 0) (hfree : body.isLoopFree = true) :
    Forward 0 (chunkOf title f).code := by
  have hbody := forward_stmt body h rfl hfree
  rw [haddress] at hbody
  simpa [chunkOf, Instr.target?] using hbody

end Compile

/-- **The chunks of a compiled script go forward** where they are compiled from bodies without loops. -/
theorem forward_compile {name : String} {script : ParsedScript} {program : Program Val}
    (h : compile name script = .ok program) {k : Nat} {body : Stmt} {chunk : Chunk Val}
    (hbody : script.bodies[k]? = some body) (hchunk : program.chunks[k]? = some chunk)
    (hfree : body.isLoopFree = true) : Compile.Forward 0 chunk.code := by
  simp only [compile, bind_eq_ok, pure, Except.pure, Except.ok.injEq] at h
  obtain ⟨main, hmain, rfl⟩ := h
  cases k with
  | zero =>
    cases hbody
    cases hchunk
    exact Compile.forward_chunkOf hmain rfl hfree
  | succ k =>
    have hnumbered := Compile.numbered_stmt script.body hmain
    obtain ⟨line, inner, hcompiled, hplaced⟩ := hnumbered.chunk_of_body hbody
    have hsame : main.chunks[k]? = some chunk := hchunk
    rw [hplaced] at hsame
    cases hsame
    exact Compile.forward_chunkOf hcompiled rfl hfree

/-! ## The weight of a machine -/

/-- The weight of a place in code of some length. Two places behind it weigh less than it does. -/
def placeWeight (length place : Nat) : Nat := 3 ^ (length - place)

theorem placeWeight_pos (length place : Nat) : 0 < placeWeight length place := Nat.pow_pos (by decide)

theorem placeWeight_le {length place target : Nat} (h : place < length) (htarget : place < target) :
    3 * placeWeight length target ≤ placeWeight length place := by
  unfold placeWeight
  calc 3 * 3 ^ (length - target) = 3 ^ (length - target + 1) := by rw [Nat.pow_succ, Nat.mul_comm]
    _ ≤ 3 ^ (length - place) := Nat.pow_le_pow_right (by decide) (by omega)

namespace Machine

variable {m m' : Machine} {instr : Instr Val} {failure : Failure}

/-- The code of the chunk that a machine runs. -/
def code (m : Machine) : List (Instr Val) := ((m.program.chunks[m.chunk]?).map Chunk.code).getD []

/-- **The weight of a machine**: what its place weighs, and what the places of its handlers weigh. -/
def weight (m : Machine) : Nat :=
  placeWeight m.code.length m.pc +
    (m.handlers.map fun handler => placeWeight m.code.length handler.catchPc).sum

/-- The code of a machine only goes forward. -/
def Forward (m : Machine) : Prop := Compile.Forward 0 m.code

theorem SameCode.code_eq (h : m.SameCode m') : m'.code = m.code := by
  rw [code, h.1, h.2, code]

theorem SameCode.forward (h : m.SameCode m') (hforward : m.Forward) : m'.Forward := by
  rw [Forward, h.code_eq]
  exact hforward

/-- **Where an instruction leads**: on, with the handlers that were there or fewer; to the place that it
names; or on, with one more handler, which leads to that place. -/
theorem execute_moves (m : Machine) (instr : Instr Val) :
    (m.execute instr).machine.pc = m.pc ∧ (m.execute instr).machine.handlers.Sublist m.handlers ∨
      ∃ target, instr.target? = some target ∧
        ((m.execute instr).machine.pc = target ∧ (m.execute instr).machine.handlers = m.handlers ∨
          (m.execute instr).machine.pc = m.pc ∧ ∃ handler : Handler, handler.catchPc = target ∧
            (m.execute instr).machine.handlers = handler :: m.handlers) := by
  cases instr with
  | jump target => exact .inr ⟨target, rfl, .inl ⟨rfl, rfl⟩⟩
  | pushHandler target => exact .inr ⟨target, rfl, .inr ⟨rfl, _, rfl, rfl⟩⟩
  | jumpIfFalse target =>
    simp only [execute, popThen]
    split
    · simp only [Progress.machine]
      split
      · exact .inl ⟨rfl, .refl _⟩
      · exact .inr ⟨target, rfl, .inl ⟨rfl, rfl⟩⟩
    · exact .inl ⟨rfl, .refl _⟩
  | jumpIfFalseKeep target | jumpIfTrueKeep target =>
    simp only [execute, jumpWhen]
    split
    · simp only [Progress.machine]
      split
      · exact .inr ⟨target, rfl, .inl ⟨rfl, rfl⟩⟩
      · exact .inl ⟨rfl, .refl _⟩
    · exact .inl ⟨rfl, .refl _⟩
  | popHandler => exact .inl ⟨rfl, List.tail_sublist _⟩
  | ret => exact .inl ⟨rfl, List.nil_sublist _⟩
  -- a call stops the run or fails, in either case where it stands
  | call function argc body =>
    refine .inl ?_
    cases body <;>
    · simp only [execute, popThen, request, popMany]
      repeat' split
      all_goals exact ⟨rfl, .refl _⟩
  | binary op | unary op =>
    refine .inl ?_
    simp only [execute, popThen]
    repeat' split
    all_goals first
      | exact ⟨rfl, .refl _⟩
      | unfold pushOutcome
        split <;> exact ⟨rfl, .refl _⟩
  | load name =>
    simp only [execute]
    split <;> exact .inl ⟨rfl, .refl _⟩
  | declare | store | pop | throw | makeList =>
    simp only [execute, popThen, popMany]
    split <;> exact .inl ⟨rfl, .refl _⟩
  -- the others neither jump nor set up a handler
  | _ => exact .inl ⟨rfl, .refl _⟩

/-- **An instruction that leads forward makes a machine lighter.** -/
theorem lighter_execute (hforward : m.Forward) (hinstr : m.code[m.pc]? = some instr) :
    (execute { m with pc := m.pc + 1 } instr).machine.weight < m.weight := by
  have hplace : m.pc < m.code.length := (List.getElem?_eq_some_iff.mp hinstr).1
  have hcode : (execute { m with pc := m.pc + 1 } instr).machine.code = m.code :=
    SameCode.code_eq (sameCode_execute { m with pc := m.pc + 1 } instr)
  have hnext := placeWeight_le hplace (Nat.lt_add_one m.pc)
  have hpos := placeWeight_pos m.code.length (m.pc + 1)
  unfold weight
  rw [hcode]
  rcases execute_moves { m with pc := m.pc + 1 } instr with
    ⟨hpc, hfewer⟩ | ⟨target, htarget, ⟨hpc, hsame⟩ | ⟨hpc, handler, hcatch, hmore⟩⟩
  · have hsum := (hfewer.map fun handler => placeWeight m.code.length handler.catchPc).sum_le_sum
      fun _ _ => Nat.zero_le _
    rw [hpc]
    dsimp only at hsum ⊢
    omega
  · have hjump := placeWeight_le hplace (Nat.zero_add m.pc ▸ hforward _ _ hinstr target htarget)
    have hpos' := placeWeight_pos m.code.length target
    rw [hpc, hsame]
    dsimp only
    omega
  · -- one place becomes two, and both lie behind it
    have hjump := placeWeight_le hplace (Nat.zero_add m.pc ▸ hforward _ _ hinstr target htarget)
    rw [hpc, hmore, List.map_cons, List.sum_cons, hcatch]
    dsimp only
    omega

/-- A machine whose failure is taken by a handler gets lighter. -/
theorem lighter_raise (h : m.raise failure = .continues m') : m.SameCode m' ∧ m'.weight < m.weight := by
  have hsame := sameCode_raise m failure
  rw [h] at hsame
  refine ⟨hsame, ?_⟩
  have hcode : m'.code = m.code := SameCode.code_eq hsame
  have hpos := placeWeight_pos m.code.length m.pc
  unfold raise at h
  split at h
  · next handler outer hhandlers =>
    cases h
    -- the place of the handler was counted before; the place of the machine is given up
    unfold weight
    rw [hcode, hhandlers, List.map_cons, List.sum_cons]
    dsimp only
    omega
  · cases h

/-- **One step makes a machine lighter**, unless the run ends. -/
theorem lighter_advance (hforward : m.Forward) :
    (∃ outcome m', m.advance = .yields (.completed outcome) m') ∨ m.advance.machine.weight < m.weight := by
  -- a failure ends the run or goes to a handler, which is used up by that
  have hraised : ∀ {n : Machine}, n.weight ≤ m.weight → ∀ failure : Failure,
      (∃ outcome m', n.raise failure = .yields (.completed outcome) m') ∨
        (n.raise failure).machine.weight < m.weight := by
    intro n hle failure
    cases hraise : n.raise failure with
    | continues m' => exact .inr (Nat.lt_of_lt_of_le (lighter_raise hraise).2 hle)
    | yields y m' =>
      unfold raise at hraise
      split at hraise
      · cases hraise
      · cases hraise
        exact .inl ⟨_, _, rfl⟩
    | raises other m' =>
      unfold raise at hraise
      split at hraise <;> cases hraise
  have hcode : ∀ {chunk : Chunk Val}, m.program.chunks[m.chunk]? = some chunk → m.code = chunk.code := by
    intro chunk hchunk
    rw [code, hchunk]
    rfl
  unfold advance step
  cases hchunk : m.program.chunks[m.chunk]? with
  | none => exact hraised (Nat.le_refl _) _
  | some chunk =>
    dsimp only
    cases hinstr : chunk.code[m.pc]? with
    | none => exact .inl ⟨_, _, rfl⟩
    | some instr =>
      have hlighter := lighter_execute hforward (show m.code[m.pc]? = some instr by rw [hcode hchunk, hinstr])
      dsimp only
      cases hexecute : execute { m with pc := m.pc + 1 } instr with
      | continues n =>
        rw [hexecute] at hlighter
        exact .inr hlighter
      | yields y n =>
        rw [hexecute] at hlighter
        exact .inr hlighter
      | raises failure n =>
        rw [hexecute] at hlighter
        exact hraised (Nat.le_of_lt hlighter) failure

/-- A machine that has called a step is lighter than it was. -/
theorem lighter_runFor {n : Nat} {request : StepRequest} (hforward : m.Forward)
    (h : m.runFor n = (.step request, m')) : m.SameCode m' ∧ m'.weight < m.weight := by
  induction n generalizing m with
  | zero => cases h
  | succ n ih =>
    have hsame := sameCode_advance m
    have hlighter := lighter_advance hforward
    rw [runFor] at h
    cases hadvance : m.advance with
    | continues next =>
      rw [hadvance] at h hsame hlighter
      have hless : next.weight < m.weight := by
        refine hlighter.resolve_left ?_
        rintro ⟨_, _, hno⟩
        cases hno
      obtain ⟨hrest, hlast⟩ := ih (SameCode.forward hsame hforward) h
      exact ⟨SameCode.trans hsame hrest, Nat.lt_trans hlast hless⟩
    | yields y next =>
      rw [hadvance] at h hsame hlighter
      cases h
      refine ⟨hsame, hlighter.resolve_left ?_⟩
      rintro ⟨_, _, hno⟩
      cases hno
    | raises failure next =>
      rw [hadvance] at h
      cases h

/-- **A run that ends with a call makes the machine lighter**, whatever it is given. -/
theorem lighter_run {input : Outcome} {request : StepRequest} (hforward : m.Forward)
    (h : m.run input = (.step request, m')) : m.SameCode m' ∧ m'.weight < m.weight := by
  have hanswered : ∀ {n : Machine}, n.runFor m.budget = (.step request, m') → m.SameCode n →
      n.weight = m.weight → m.SameCode m' ∧ m'.weight < m.weight := by
    intro n hrun hsame hweight
    obtain ⟨hrest, hless⟩ := lighter_runFor (SameCode.forward hsame hforward) hrun
    exact ⟨SameCode.trans hsame hrest, hweight ▸ hless⟩
  have hfailed : ∀ {n : Machine} {failure : Failure}, m.runAfter (n.raise failure) = (.step request, m') →
      m.SameCode n → n.weight = m.weight → m.SameCode m' ∧ m'.weight < m.weight := by
    intro n failure hrun hsame hweight
    unfold runAfter at hrun
    split at hrun
    · next next hraise =>
      obtain ⟨hcaught, hless⟩ := lighter_raise hraise
      have hsame' := SameCode.trans hsame hcaught
      obtain ⟨hrest, hless'⟩ := lighter_runFor (SameCode.forward hsame' hforward) hrun
      exact ⟨SameCode.trans hsame' hrest, hweight ▸ Nat.lt_trans hless' hless⟩
    · next y next hraise =>
      unfold raise at hraise
      split at hraise
      · cases hraise
      · cases hraise
        cases hrun
    · cases hrun
  unfold run at h
  split at h
  · cases h
  · exact hanswered h ⟨rfl, rfl⟩ rfl
  · exact hfailed h ⟨rfl, rfl⟩ rfl
  · exact hanswered h ⟨rfl, rfl⟩ rfl
  · exact hfailed h ⟨rfl, rfl⟩ rfl

end Machine

/-! ## Drives that come to an end -/

namespace Sandbox

variable {policy : Policy} {m m' : Machine} {input : Outcome} {request : StepRequest}

/-- A forbidden call whose failure nobody catches ends the drive. -/
theorem drive_of_unhandled (hrun : m.run input = (.step request, m'))
    (hforbidden : policy.permits request.function = false) (hnone : m'.handlers = []) (rounds : Nat) :
    ∃ last, drive policy (rounds + 2) m input =
      .yielded (.completed (.error (rejection request.function))) last := by
  have hfailed : ∃ last, m'.run (.error (rejection request.function)) =
      (.completed (.error (rejection request.function)), last) := by
    rw [Machine.run_error_of_call hrun]
    unfold Machine.raise
    rw [show ({ m' with phase := .ready } : Machine).handlers = [] from hnone]
    exact ⟨_, rfl⟩
  obtain ⟨last, hlast⟩ := hfailed
  exact ⟨last, (drive_of_rejected hrun hforbidden).trans (drive_of_lets hlast rfl)⟩

/-- **Code that goes forward comes out of the sandbox**, after no more rounds than the machine weighs. -/
theorem drive_of_forward (policy : Policy) {rounds : Nat} (hforward : m.Forward) (input : Outcome)
    (hrounds : m.weight < rounds) : ∃ y m', drive policy rounds m input = .yielded y m' := by
  induction rounds generalizing m input with
  | zero => exact absurd hrounds (Nat.not_lt_zero _)
  | succ rounds ih =>
    obtain ⟨y, next, hrun⟩ : ∃ y next, m.run input = (y, next) := ⟨_, _, rfl⟩
    rcases lets_or_rejected policy y with hlets | ⟨request, rfl, hforbidden⟩
    · exact ⟨y, next, drive_of_lets hrun hlets⟩
    · obtain ⟨hsame, hlighter⟩ := Machine.lighter_run hforward hrun
      rw [drive_of_rejected hrun hforbidden]
      exact ih (hsame.forward hforward) _ (Nat.lt_of_lt_of_le hlighter (Nat.le_of_lt_succ hrounds))

/-- What comes out of the sandbox is a machine that the script can come to. -/
theorem reached_drive {program : Program Val} {rounds : Nat} {y : Yield} (h : Reached program m)
    (hdrive : drive policy rounds m input = .yielded y m') : Reached program m' := by
  induction rounds generalizing m input with
  | zero => cases hdrive
  | succ rounds ih =>
    obtain ⟨z, next, hrun⟩ : ∃ z next, m.run input = (z, next) := ⟨_, _, rfl⟩
    have hnext : Reached program next := by
      have hreached := h.run input
      rwa [hrun] at hreached
    rcases lets_or_rejected policy z with hlets | ⟨request, rfl, hforbidden⟩
    · rw [drive_of_lets hrun hlets] at hdrive
      cases hdrive
      exact hnext
    · rw [drive_of_rejected hrun hforbidden] at hdrive
      exact ih hnext hdrive

end Sandbox

/-- **A script without loops always comes out of the sandbox**, wherever it stands, whatever it is given
and whatever the policy forbids; and so it does the next time. -/
theorem sandbox_returns_of_loopFree {name : String} {script : ParsedScript} {program : Program Val}
    (hcompiled : compile name script = .ok program) {m : Machine} (hm : Reached program m)
    (hfree : ∀ body, script.bodies[m.chunk]? = some body → body.isLoopFree = true) (policy : Policy)
    (input : Outcome) : ∃ bound, ∀ rounds, bound < rounds →
      ∃ y m', Sandbox.drive policy rounds m input = .yielded y m' ∧ Reached program m' := by
  obtain ⟨hprogram, body, chunk, hbody, hchunk, -, -⟩ := hm.standing hcompiled
  have hcode : m.code = chunk.code := by
    rw [Machine.code, hprogram, hchunk]
    rfl
  have hforward : m.Forward := by
    rw [Machine.Forward, hcode]
    exact forward_compile hcompiled hbody hchunk (hfree body hbody)
  refine ⟨m.weight, fun rounds hrounds => ?_⟩
  obtain ⟨y, m', hdrive⟩ := Sandbox.drive_of_forward policy hforward input hrounds
  exact ⟨y, m', hdrive, Sandbox.reached_drive hm hdrive⟩

/-! ## Drives that do not -/

namespace Sandbox

/-- **A drive without end**: however many rounds there are, they are used up. -/
def Endless (policy : Policy) (m : Machine) (input : Outcome) : Prop :=
  ∀ rounds, ∃ m' again, drive policy rounds m input = .pending m' again

variable {policy : Policy} {m m' : Machine} {input : Outcome} {request : StepRequest}

/-- **A drive has no end** if it comes to a forbidden call, and from there it has none. -/
theorem endless_iff : Endless policy m input ↔ ∃ request m', m.run input = (.step request, m') ∧
    policy.permits request.function = false ∧ Endless policy m' (.error (rejection request.function)) := by
  constructor
  · intro h
    obtain ⟨y, m', hrun⟩ : ∃ y m', m.run input = (y, m') := ⟨_, _, rfl⟩
    rcases lets_or_rejected policy y with hlets | ⟨request, rfl, hforbidden⟩
    · obtain ⟨n, again, hpending⟩ := h 1
      rw [drive_of_lets hrun hlets] at hpending
      cases hpending
    · refine ⟨request, m', hrun, hforbidden, fun rounds => ?_⟩
      have hmore := h (rounds + 1)
      rwa [drive_of_rejected hrun hforbidden] at hmore
  · rintro ⟨request, m', hrun, hforbidden, hrest⟩ rounds
    cases rounds with
    | zero => exact ⟨m, input, rfl⟩
    | succ rounds =>
      rw [drive_of_rejected hrun hforbidden]
      exact hrest rounds

/-- **Machines that stay among themselves** as long as their calls are forbidden never come out. -/
theorem endless_of_closed {closed : Machine → Outcome → Prop}
    (hclosed : ∀ m input, closed m input → ∃ request m', m.run input = (.step request, m') ∧
      policy.permits request.function = false ∧ closed m' (.error (rejection request.function)))
    (h : closed m input) : Endless policy m input := by
  intro rounds
  induction rounds generalizing m input with
  | zero => exact ⟨m, input, rfl⟩
  | succ rounds ih =>
    obtain ⟨request, m', hrun, hforbidden, hrest⟩ := hclosed m input h
    rw [drive_of_rejected hrun hforbidden]
    exact ih hrest

/-- Each failure in a drive without end is caught. -/
theorem Endless.caught (h : Endless policy m input) (hrun : m.run input = (.step request, m')) :
    m'.handlers ≠ [] := by
  intro hnone
  obtain ⟨other, next, hother, hforbidden, -⟩ := endless_iff.mp h
  rw [hrun] at hother
  cases hother
  obtain ⟨last, hdrive⟩ := drive_of_unhandled hrun hforbidden hnone 0
  obtain ⟨n, again, hpending⟩ := h 2
  rw [hdrive] at hpending
  cases hpending

/-- In a drive without end something jumps back. -/
theorem Endless.not_forward (h : Endless policy m input) : ¬ m.Forward := by
  intro hforward
  obtain ⟨y, n, hdrive⟩ := drive_of_forward policy hforward input (Nat.lt_add_one m.weight)
  obtain ⟨n', again, hpending⟩ := h (m.weight + 1)
  rw [hdrive] at hpending
  cases hpending

end Sandbox

/-! ## A script that asks again and again -/

/-- A script that asks, catches the failure and asks again: `while (true) { try { ask() } catch (e) { } }`. -/
def insistent : ParsedScript where
  body := .whileDo (.bool true {})
    (.tryCatch (.block [.eval (.call "ask" [] none {}) {}] {}) "e" (.block [] {}) {}) {}
  span := {}

/-- Its code. -/
def insistentProgram : Program Val where
  name := "insistent"
  chunks := [{
    name := "insistent"
    code := [.const (.bool true), .jumpIfFalse 15, .pushHandler 9, .enterScope, .call "ask" 0 false, .pop,
      .exitScope, .popHandler, .jump 14, .enterScope, .declare "e", .enterScope, .exitScope, .exitScope,
      .jump 0, .const .null, .ret]
    lines := List.replicate 17 1
    callsSteps := true }]

/-- The machine at its call. Each time it comes back there it is the same. -/
def insistentAsking (budget : Nat) : Machine where
  program := insistentProgram
  chunk := 0
  pc := 5
  stack := []
  scopes := [[], []]
  handlers := [{ catchPc := 9, stackLen := 0, scopeLen := 1 }]
  phase := .awaitingStep
  budget

theorem insistent_first (n : Nat) : (Machine.ofProgram insistentProgram (n + 5)).run (.ok .null) =
    (.step { function := "ask", args := [], body := none }, insistentAsking (n + 5)) := rfl

/-- The failure is caught, and it takes 11 instructions to come back to the call. -/
theorem insistent_again (n : Nat) (failure : Failure) : (insistentAsking (n + 11)).run (.error failure) =
    (.step { function := "ask", args := [], body := none }, insistentAsking (n + 11)) := rfl

/-- With a budget for fewer instructions there is a safepoint on the way. -/
theorem insistent_rests {policy : Policy} (hforbidden : policy.permits "ask" = false) {budget : Nat}
    (h : budget < 11) : ∃ m', Sandbox.drive policy 2 (.ofProgram insistentProgram budget) (.ok .null) =
      .yielded .safepoint m' := by
  rcases Nat.lt_or_ge budget 5 with hfirst | hfirst
  · have hrun : ∃ m', (Machine.ofProgram insistentProgram budget).run (.ok .null) = (.safepoint, m') := by
      interval_cases budget <;> exact ⟨_, rfl⟩
    obtain ⟨m', hrun⟩ := hrun
    exact ⟨m', Sandbox.drive_of_lets hrun rfl⟩
  · obtain ⟨n, rfl⟩ := Nat.exists_eq_add_of_le' hfirst
    have hrun : ∃ m', (insistentAsking (n + 5)).run (.error (Sandbox.rejection "ask")) = (.safepoint, m') := by
      have hless : n < 6 := by omega
      interval_cases n <;> exact ⟨_, rfl⟩
    obtain ⟨m', hrun⟩ := hrun
    exact ⟨m', (Sandbox.drive_of_rejected (insistent_first n) hforbidden).trans (Sandbox.drive_of_lets hrun rfl)⟩

/-- **A script that catches and asks again never comes out** of a sandbox that forbids the call, if its
budget is large enough for one round. With a smaller one it comes to a safepoint. -/
theorem insistent_endless_iff : compile "insistent" insistent = .ok insistentProgram ∧
    ∀ policy : Policy, policy.permits "ask" = false → ∀ budget,
      Sandbox.Endless policy (.ofProgram insistentProgram budget) (.ok .null) ↔ 11 ≤ budget := by
  refine ⟨rfl, fun policy hforbidden budget => ⟨fun hendless => ?_, fun hlarge => ?_⟩⟩
  · by_contra hsmall
    obtain ⟨m', hrests⟩ := insistent_rests hforbidden (Nat.lt_of_not_le hsmall)
    obtain ⟨n, again, hpending⟩ := hendless 2
    rw [hrests] at hpending
    cases hpending
  · obtain ⟨n, rfl⟩ := Nat.exists_eq_add_of_le' hlarge
    let atCall (m : Machine) (input : Outcome) : Prop :=
      m = insistentAsking (n + 11) ∧ input = .error (Sandbox.rejection "ask")
    have hclosed : ∀ m input, atCall m input → ∃ request m', m.run input = (.step request, m') ∧
        policy.permits request.function = false ∧ atCall m' (.error (Sandbox.rejection request.function)) := by
      rintro m input ⟨rfl, rfl⟩
      exact ⟨_, _, insistent_again n _, hforbidden, rfl, rfl⟩
    exact Sandbox.endless_iff.mpr ⟨_, _, insistent_first (n + 6), hforbidden,
      Sandbox.endless_of_closed hclosed ⟨rfl, rfl⟩⟩

/-- A sandbox that permits nothing, and a budget for one round. -/
theorem insistent_endless_one_round : ({} : Policy).permits "ask" = false ∧
    Sandbox.Endless {} (.ofProgram insistentProgram 11) (.ok .null) :=
  ⟨rfl, (insistent_endless_iff.2 {} rfl 11).mpr (Nat.le_refl 11)⟩

end DurableFlow.Script
