/-
The machine runs compiled scripts the way the evaluator runs their syntax trees.

The argument goes backwards. If a run ends well from the address behind a piece of
code, with the state in which the evaluator leaves the piece, then it ends well from
the address of the piece, with the state in which the evaluator begins. Each way to
leave a statement has an address of its own where the run is to end well: behind the
statement, the start or the exit of the loop around it, the innermost handler.

Operands are on the stack only while an expression is evaluated, so a handler finds
an empty stack and leaves one.
-/
import DurableFlow.Proofs.Script.Placement
import DurableFlow.Proofs.Script.Conversation

set_option autoImplicit false

namespace DurableFlow.Script

open Direct Compile

/-! ## A chunk that is run -/

/-- **A chunk of a program** that a machine runs. -/
structure Frame where
  program : Program Val
  chunk : Nat
  budget : Nat
  body : Chunk Val
  fetched : program.chunks[chunk]? = some body

namespace Frame

/-- The machine that is about to execute the instruction at an address. -/
def machine (frame : Frame) (pc : Nat) (stack : List Val) (handlers : List Handler)
    (scopes : List Scope) : Machine :=
  { program := frame.program, chunk := frame.chunk, pc, stack, scopes, handlers, phase := .ready
    budget := frame.budget }

/-- A piece of code stands at an address. -/
def Has (frame : Frame) (address : Nat) (code : List (Instr Val × Nat)) : Prop :=
  ∀ i instr, (code.map Prod.fst)[i]? = some instr → frame.body.code[address + i]? = some instr

theorem has_append {frame : Frame} {address : Nat} {code code' : List (Instr Val × Nat)} :
    frame.Has address (code ++ code') ↔
      frame.Has address code ∧ frame.Has (address + code.length) code' := by
  refine ⟨fun h => ⟨fun i instr hi => ?_, fun i instr hi => ?_⟩, fun h i instr hi => ?_⟩
  · refine h i instr ?_
    rw [List.map_append, List.getElem?_append_left (List.getElem?_eq_some_iff.mp hi).1]
    exact hi
  · rw [Nat.add_assoc]
    refine h (code.length + i) instr ?_
    rw [List.map_append, List.getElem?_append_right (by simp)]
    simpa using hi
  · rw [List.map_append, List.getElem?_append] at hi
    split at hi
    · exact h.1 i instr hi
    · next hlt =>
      have := h.2 (i - code.length) instr (by simpa using hi)
      rw [List.length_map] at hlt
      rwa [show address + code.length + (i - code.length) = address + i by omega] at this

theorem has_cons {frame : Frame} {address line : Nat} {instr : Instr Val}
    {code : List (Instr Val × Nat)} :
    frame.Has address ((instr, line) :: code) ↔
      frame.body.code[address]? = some instr ∧ frame.Has (address + 1) code := by
  refine ⟨fun h => ⟨h 0 instr rfl, fun i instr hi => ?_⟩, fun h i instr' hi => ?_⟩
  · rw [show address + 1 + i = address + (i + 1) by omega]
    exact h (i + 1) instr hi
  · cases i with
    | zero =>
      simp only [List.map_cons, List.getElem?_cons_zero, Option.some.injEq] at hi
      exact hi ▸ h.1
    | succ i =>
      rw [show address + (i + 1) = address + 1 + i by omega]
      exact h.2 i instr' hi

variable {frame : Frame} {calls : List StepRequest} {outcome : Outcome}

/-- One instruction is fetched and executed. -/
theorem step_at {pc : Nat} {instr : Instr Val} (hcode : frame.body.code[pc]? = some instr)
    (stack : List Val) (handlers : List Handler) (scopes : List Scope) :
    (frame.machine pc stack handlers scopes).step =
      (frame.machine (pc + 1) stack handlers scopes).execute instr := by
  have hfetched : (frame.machine pc stack handlers scopes).program.chunks[
      (frame.machine pc stack handlers scopes).chunk]? = some frame.body := frame.fetched
  rw [Machine.step, hfetched]
  simp only [machine, hcode]

/-! ## Where a run ends well -/

/-- **A run ends** with the calls and the outcome if it begins at an address, in a state of the
evaluator. -/
def Ends (frame : Frame) (calls : List StepRequest) (outcome : Outcome) (pc : Nat)
    (stack : List Val) (handlers : List Handler) (s : State) : Prop :=
  Machine.Ends calls outcome (frame.machine pc stack handlers s.scopes) s.answers s.calls

/-- A run ends after a failure: at the innermost handler, or else with the failure. -/
def Fails (frame : Frame) (calls : List StepRequest) (outcome : Outcome) (failure : Failure)
    (s : State) : List Handler → Prop
  | [] => s.calls = calls ∧ outcome = .error failure
  | handler :: outer =>
    frame.Ends calls outcome handler.catchPc [.error failure] outer
      { s with scopes := Machine.keepOldest handler.scopeLen s.scopes }

/-- A run ends after an expression: with its value on the stack, or with its failure raised. -/
def Resumes (frame : Frame) (calls : List StepRequest) (outcome : Outcome) (next : Nat)
    (stack : List Val) (handlers : List Handler) : Outcome × State → Prop
  | (.ok value, s) => frame.Ends calls outcome next (value :: stack) handlers s
  | (.error failure, s) => frame.Fails calls outcome failure s handlers

/-- A run ends after some expressions, the value of the last one on top. -/
def ResumesAll (frame : Frame) (calls : List StepRequest) (outcome : Outcome) (next : Nat)
    (stack : List Val) (handlers : List Handler) : Except Failure (List Val) × State → Prop
  | (.ok values, s) => frame.Ends calls outcome next (values.reverse ++ stack) handlers s
  | (.error failure, s) => frame.Fails calls outcome failure s handlers

/-- What a statement stands in: the loop around it, and how many handlers and scopes were opened
in the loop. -/
structure Surroundings where
  loop : Option Loop
  handlers : Nat
  scopes : Nat

namespace Surroundings

/-- One more scope is open. -/
def inScope (around : Surroundings) : Surroundings := { around with scopes := around.scopes + 1 }

/-- One more handler is set up. -/
def inHandler (around : Surroundings) : Surroundings :=
  { around with handlers := around.handlers + 1 }

/-- The compiler knows what a statement stands in. -/
def Of (around : Surroundings) (ctx : Context) : Prop :=
  ctx.loop = around.loop ∧ ctx.Open around.handlers around.scopes

theorem Of.inScope {around : Surroundings} {ctx : Context} (h : around.Of ctx) :
    around.inScope.Of { ctx with scopes := ctx.scopes + 1 } := ⟨h.1, h.2.scope⟩

theorem Of.inHandler {around : Surroundings} {ctx : Context} (h : around.Of ctx) :
    around.inHandler.Of { ctx with handlers := ctx.handlers + 1 } := ⟨h.1, h.2.handler⟩

end Surroundings

/-- A run ends after a statement, whichever way control leaves it. -/
def Leaves (frame : Frame) (calls : List StepRequest) (outcome : Outcome) (around : Surroundings)
    (next : Nat) (handlers : List Handler) : Flow × State → Prop
  | (.next, s) => frame.Ends calls outcome next [] handlers s
  | (.broke, s) => ∀ loop, around.loop = some loop →
    frame.Ends calls outcome loop.exit [] (handlers.drop around.handlers)
      { s with scopes := s.scopes.drop around.scopes }
  | (.continued, s) => ∀ loop, around.loop = some loop →
    frame.Ends calls outcome loop.start [] (handlers.drop around.handlers)
      { s with scopes := s.scopes.drop around.scopes }
  | (.returned value, s) => s.calls = calls ∧ outcome = .ok value
  | (.raised failure, s) => frame.Fails calls outcome failure s handlers

/-- Handlers that were set up between statements, where nothing is on the stack. -/
def Level (handlers : List Handler) : Prop := ∀ handler ∈ handlers, handler.stackLen = 0

theorem Level.cons {handlers : List Handler} (h : Level handlers) {catchPc scopeLen : Nat} :
    Level ({ catchPc, stackLen := 0, scopeLen } :: handlers) := by
  intro handler hmem
  rcases List.mem_cons.mp hmem with rfl | hmem
  · rfl
  · exact h handler hmem

/-! ## One instruction -/

/-- An instruction that goes on. -/
theorem Ends.of_continues {pc pc' : Nat} {instr : Instr Val} {stack stack' : List Val}
    {handlers handlers' : List Handler} {s : State} {scopes' : List Scope}
    (hcode : frame.body.code[pc]? = some instr)
    (hexec : (frame.machine (pc + 1) stack handlers s.scopes).execute instr =
      .continues (frame.machine pc' stack' handlers' scopes'))
    (hrest : frame.Ends calls outcome pc' stack' handlers' { s with scopes := scopes' }) :
    frame.Ends calls outcome pc stack handlers s := by
  refine .continues ?_ hrest
  rw [Machine.advance, step_at hcode, hexec]

/-- What a failure does to a machine is told by its handlers and its scopes. -/
theorem raise_at {failure : Failure} {s : State} {handlers : List Handler} (hlevel : Level handlers)
    (h : frame.Fails calls outcome failure s handlers) (pc : Nat) (stack : List Val) :
    (∃ m, (frame.machine pc stack handlers s.scopes).raise failure =
      .yields (.completed outcome) m ∧ s.calls = calls) ∨
    (∃ m, (frame.machine pc stack handlers s.scopes).raise failure = .continues m ∧
      Machine.Ends calls outcome m s.answers s.calls) := by
  cases handlers with
  | nil =>
    obtain ⟨hcalls, rfl⟩ := h
    exact .inl ⟨_, rfl, hcalls⟩
  | cons handler outer =>
    refine .inr ⟨_, rfl, ?_⟩
    have hempty : Machine.keepOldest handler.stackLen stack = [] := by
      rw [hlevel handler List.mem_cons_self]
      simp [Machine.keepOldest]
    simp only [machine, hempty]
    exact h

/-- An instruction that raises. -/
theorem Ends.of_raises {pc pc' : Nat} {instr : Instr Val} {stack stack' : List Val}
    {handlers : List Handler} {s : State} {failure : Failure} (hlevel : Level handlers)
    (hcode : frame.body.code[pc]? = some instr)
    (hexec : (frame.machine (pc + 1) stack handlers s.scopes).execute instr =
      .raises failure (frame.machine pc' stack' handlers s.scopes))
    (hrest : frame.Fails calls outcome failure s handlers) :
    frame.Ends calls outcome pc stack handlers s := by
  have hadvance : (frame.machine pc stack handlers s.scopes).advance =
      (frame.machine pc' stack' handlers s.scopes).raise failure := by
    rw [Machine.advance, step_at hcode, hexec]
  rcases raise_at hlevel hrest pc' stack' with ⟨m, hraise, hcalls⟩ | ⟨m, hraise, hends⟩
  · rw [hraise] at hadvance
    unfold Ends
    rw [hcalls]
    exact .completes hadvance
  · rw [hraise] at hadvance
    exact .continues hadvance hends

/-- An instruction that pushes the outcome of an operator. -/
theorem Ends.of_pushOutcome {pc : Nat} {instr : Instr Val} {stack stack' : List Val}
    {handlers : List Handler} {s : State} {result : Outcome} (hlevel : Level handlers)
    (hcode : frame.body.code[pc]? = some instr)
    (hexec : (frame.machine (pc + 1) stack handlers s.scopes).execute instr =
      (frame.machine (pc + 1) stack' handlers s.scopes).pushOutcome result)
    (hrest : frame.Resumes calls outcome (pc + 1) stack' handlers (result, s)) :
    frame.Ends calls outcome pc stack handlers s := by
  cases result with
  | ok value => exact .of_continues hcode hexec hrest
  | error failure => exact .of_raises hlevel hcode hexec hrest

/-- An instruction that calls a step, and the answer. -/
theorem Ends.of_call {pc : Nat} {instr : Instr Val} {stack stack' : List Val}
    {handlers : List Handler} {s : State} {request : StepRequest} {x : Outcome × State}
    (hlevel : Level handlers) (hcode : frame.body.code[pc]? = some instr)
    (hexec : (frame.machine (pc + 1) stack handlers s.scopes).execute instr =
      .yields (.step request)
        { frame.machine (pc + 1) stack' handlers s.scopes with phase := .awaitingStep })
    (hcall : callStep request s = some x)
    (hrest : frame.Resumes calls outcome (pc + 1) stack' handlers x) :
    frame.Ends calls outcome pc stack handlers s := by
  have hadvance : (frame.machine pc stack handlers s.scopes).advance = .yields (.step request)
      { frame.machine (pc + 1) stack' handlers s.scopes with phase := .awaitingStep } := by
    rw [Machine.advance, step_at hcode, hexec]
  obtain ⟨scopes, answers, made⟩ := s
  cases answers with
  | nil => simp [callStep] at hcall
  | cons answer answers =>
    simp only [callStep, Option.some.injEq] at hcall
    subst hcall
    cases answer with
    | ok value => exact .answered hadvance hrest
    | error failure =>
      rcases raise_at hlevel hrest (pc + 1) stack' with ⟨m, hraise, hcalls⟩ | ⟨m, hraise, hends⟩
      · exact .uncaught hadvance hraise hcalls
      · exact .caught hadvance hraise hends

/-! ## Expressions -/

/-- Evaluation in two parts fails in the first one or goes on with its value. -/
theorem thenEval_eq_some {α β : Type} {x : Option (Except Failure α × State)}
    {next : α → State → Option (Except Failure β × State)} {r : Except Failure β × State}
    (h : thenEval x next = some r) :
    (∃ failure s, x = some (.error failure, s) ∧ r = (.error failure, s)) ∨
    (∃ a s, x = some (.ok a, s) ∧ next a s = some r) := by
  match x, h with
  | some (.error failure, s), h => exact .inl ⟨failure, s, rfl, (Option.some.inj h).symm⟩
  | some (.ok a, s), h => exact .inr ⟨a, s, rfl, h⟩

/-- **Evaluation in two parts**: what is said of the whole where it fails is said of the first part
there, and the second part goes on with a value of the first. -/
theorem of_thenEval {α β : Type} {first : Option (Except Failure α × State)}
    {next : α → State → Option (Except Failure β × State)} {x : Except Failure β × State}
    {After : Except Failure α × State → Prop} {Rest : Except Failure β × State → Prop} {Run : Prop}
    (heval : thenEval first next = some x) (hfirst : ∀ {y}, first = some y → After y → Run)
    (hrest : Rest x) (hfails : ∀ failure s, Rest (.error failure, s) → After (.error failure, s))
    (hnext : ∀ a s, first = some (.ok a, s) → next a s = some x → After (.ok a, s)) : Run := by
  rcases thenEval_eq_some heval with ⟨failure, s, hfailed, rfl⟩ | ⟨a, s, hvalue, hx⟩
  · exact hfirst hfailed (hfails failure s hrest)
  · exact hfirst hvalue (hnext a s hvalue hx)

/-- The topmost values of a stack are those that were pushed last. -/
theorem popMany_reverse {pc n : Nat} {values stack : List Val} {handlers : List Handler}
    {scopes : List Scope} (hn : values.length = n) (next : List Val → Machine → Progress) :
    (frame.machine pc (values.reverse ++ stack) handlers scopes).popMany n next =
      next values (frame.machine pc stack handlers scopes) := by
  subst hn
  simp [Machine.popMany, machine]

/-- As many values as expressions. -/
theorem length_evalExprs {program : Program Val} {k : Nat} (es : List Expr) {s s' : State}
    {values : List Val} (h : evalExprs program k es s = some (.ok values, s')) :
    values.length = es.length := by
  induction es generalizing k s s' values with
  | nil =>
    simp only [evalExprs, Option.some.injEq, Prod.mk.injEq, Except.ok.injEq] at h
    rw [← h.1]
    rfl
  | cons e es ih =>
    rw [evalExprs] at h
    rcases thenEval_eq_some h with ⟨_, _, _, h⟩ | ⟨first, s₁, _, h⟩
    · cases h
    rcases thenEval_eq_some h with ⟨_, _, _, h⟩ | ⟨rest, s₂, hrest, h⟩
    · cases h
    simp only [Option.some.injEq, Prod.mk.injEq, Except.ok.injEq] at h
    rw [← h.1, List.length_cons, List.length_cons, ih hrest]

theorem execute_makeClosure (pc : Nat) (stack : List Val) (handlers : List Handler)
    (scopes : List Scope) (k : Nat) :
    (frame.machine pc stack handlers scopes).execute (.makeClosure k) =
      .continues (frame.machine pc
        (.closure { program := frame.program, chunk := k, captured := Machine.visible scopes }
          :: stack) handlers scopes) := rfl

theorem execute_call_body (pc : Nat) (stack : List Val) (handlers : List Handler)
    (scopes : List Scope) (callee : String) (argc : Nat) (body : Closure Val) :
    (frame.machine pc (.closure body :: stack) handlers scopes).execute (.call callee argc true) =
      (frame.machine pc stack handlers scopes).request callee argc (some body) := rfl

/-- The jump of an operator that may not need its right operand. -/
inductive KeepJump (target : Nat) : BinaryOp → Instr Val → Prop where
  | and : KeepJump target .and (.jumpIfFalseKeep target)
  | or : KeepJump target .or (.jumpIfTrueKeep target)

theorem KeepJump.execute_eq {op : BinaryOp} {instr : Instr Val} {target : Nat}
    (hinstr : KeepJump target op instr) (pc : Nat) (value : Val) (stack : List Val)
    (handlers : List Handler) (scopes : List Scope) :
    (frame.machine pc (value :: stack) handlers scopes).execute instr =
      .continues (frame.machine (if decides op value then target else pc) (value :: stack)
        handlers scopes) := by
  cases hinstr <;>
  · simp only [Machine.execute, Machine.jumpWhen, machine, decides]
    by_cases htruthy : value.isTruthy = true <;> simp [htruthy]

/-- An operator decided by its left operand jumps with it; otherwise the operand is dropped. -/
theorem Ends.of_keepJump {op : BinaryOp} {instr : Instr Val} {target : Nat}
    (hinstr : KeepJump target op instr) {pc : Nat} {value : Val} {stack : List Val}
    {handlers : List Handler} {s : State} (hjump : frame.body.code[pc]? = some instr)
    (hpop : frame.body.code[pc + 1]? = some .pop)
    (hdecided : decides op value = true →
      frame.Ends calls outcome target (value :: stack) handlers s)
    (hopen : decides op value = false → frame.Ends calls outcome (pc + 1 + 1) stack handlers s) :
    frame.Ends calls outcome pc (value :: stack) handlers s := by
  refine .of_continues hjump (hinstr.execute_eq _ _ _ _ _) ?_
  by_cases hvalue : decides op value = true
  · rw [if_pos hvalue]
    exact hdecided hvalue
  · rw [if_neg hvalue]
    exact .of_continues hpop rfl (hopen (by simpa using hvalue))

mutual

/-- **Expressions**: a run that ends behind an expression ends from its beginning on. -/
theorem ends_expr {name : String} (e : Expr) {c : Cursor} {f : Fragment}
    (hcompiled : expr name c e = .ok f) {a k : Nat} (ha : c.address = a) (hk : c.chunk = k)
    (hcode : frame.Has a f.code) {handlers : List Handler} (hlevel : Level handlers)
    {stack : List Val} {s : State} {x : Outcome × State}
    (heval : evalExpr frame.program k e s = some x)
    (hrest : frame.Resumes calls outcome (a + f.code.length) stack handlers x) :
    frame.Ends calls outcome a stack handlers s := by
  match e with
  | .null _ | .bool _ _ | .num _ _ | .str _ _ =>
    simp only [expr, Except.ok.injEq] at hcompiled
    simp only [evalExpr, Option.some.injEq] at heval
    subst hcompiled heval
    simp only [Cursor.code_emit, List.map_cons, has_cons] at hcode
    exact .of_continues hcode.1 rfl hrest
  | .ident x span =>
    simp only [expr, Except.ok.injEq] at hcompiled
    simp only [evalExpr, Option.some.injEq] at heval
    subst hcompiled heval
    simp only [Cursor.code_emit, List.map_cons, has_cons] at hcode
    refine .of_pushOutcome hlevel hcode.1 ?_ hrest
    simp only [Machine.execute, variableOf, nearest?_eq, machine]
    cases Machine.lookup x s.scopes <;> rfl
  | .list elements span =>
    simp only [expr, bind_eq_ok, pure, Except.pure, Except.ok.injEq] at hcompiled
    obtain ⟨items, hitems, rfl⟩ := hcompiled
    simp only [Fragment.code_append, Cursor.code_emit, List.map_cons, List.map_nil, has_append,
      has_cons, List.length_append, List.length_cons, List.length_nil, ← Nat.add_assoc,
      Nat.add_zero] at hcode hrest
    rw [evalExpr] at heval
    refine of_thenEval heval (ends_exprs elements hitems (by simp [ha]) (by simp [hk]) hcode.1 hlevel)
      hrest (fun _ _ h => h) fun values s₁ hvalues hx => ?_
    cases hx
    refine .of_continues hcode.2.1 ?_ hrest
    rw [Machine.execute, popMany_reverse (length_evalExprs elements hvalues)]
    rfl
  | .call callee args none span =>
    simp only [expr, bind_eq_ok, pure, Except.pure, Except.ok.injEq] at hcompiled
    obtain ⟨given, hgiven, rfl⟩ := hcompiled
    simp only [Fragment.code_append, Cursor.code_emit, List.map_cons, List.map_nil, has_append,
      has_cons, List.length_append, List.length_cons, List.length_nil, ← Nat.add_assoc,
      Nat.add_zero] at hcode hrest
    rw [evalExpr] at heval
    refine of_thenEval heval (ends_exprs args hgiven (by simp [ha]) (by simp [hk]) hcode.1 hlevel)
      hrest (fun _ _ h => h) fun values s₁ hvalues hx => ?_
    refine .of_call hlevel hcode.2.1 ?_ hx hrest
    rw [Machine.execute, Machine.request, popMany_reverse (length_evalExprs args hvalues)]
  | .call callee args (some body) span =>
    simp only [expr, bind_eq_ok, pure, Except.pure, Except.ok.injEq] at hcompiled
    obtain ⟨given, hgiven, inner, hinner, rfl⟩ := hcompiled
    simp only [Fragment.code_append, Cursor.code_emit, code_closureLiteral, List.map_cons,
      List.map_nil, has_append, has_cons, List.length_append, List.length_cons, List.length_nil,
      ← Nat.add_assoc, Nat.add_zero] at hcode hrest
    rw [evalExpr] at heval
    refine of_thenEval heval (ends_exprs args hgiven (by simp [ha]) (by simp [hk]) hcode.1.1 hlevel)
      hrest (fun _ _ h => h) fun values s₁ hvalues hx => ?_
    -- the literal's chunk is the next one after those of the arguments
    have hchunk : ((c.onSpan span).after given).chunk = k + (closuresInExprs args).length := by
      simp [hk, length_chunks_exprs hgiven]
    rw [hchunk] at hcode
    refine .of_continues hcode.1.2.1 (execute_makeClosure _ _ _ _ _) ?_
    refine .of_call hlevel hcode.2.1 ?_ hx hrest
    rw [execute_call_body, Machine.request, popMany_reverse (length_evalExprs args hvalues), closureOf,
      captured_eq]
  | .closure body span =>
    simp only [expr, bind_eq_ok, pure, Except.pure, Except.ok.injEq] at hcompiled
    obtain ⟨inner, hinner, rfl⟩ := hcompiled
    simp only [code_closureLiteral, has_cons, Cursor.chunk_onSpan, hk] at hcode
    simp only [evalExpr, Option.some.injEq] at heval
    subst heval
    refine .of_continues hcode.1 (execute_makeClosure _ _ _ _ _) ?_
    simpa [Resumes, closureOf, captured_eq] using hrest
  | .unary op operand span =>
    simp only [expr, bind_eq_ok, pure, Except.pure, Except.ok.injEq] at hcompiled
    obtain ⟨value, hvalue, rfl⟩ := hcompiled
    simp only [Fragment.code_append, Cursor.code_emit, List.map_cons, List.map_nil, has_append,
      has_cons, List.length_append, List.length_cons, List.length_nil, ← Nat.add_assoc,
      Nat.add_zero] at hcode hrest
    rw [evalExpr] at heval
    refine of_thenEval heval (ends_expr operand hvalue (by simp [ha]) (by simp [hk]) hcode.1 hlevel)
      hrest (fun _ _ h => h) fun v s₁ _ hx => ?_
    cases hx
    exact .of_pushOutcome hlevel hcode.2.1 rfl hrest
  | .binary op left right span =>
    simp only [expr, bind_eq_ok] at hcompiled
    obtain ⟨first, hfirst, hcompiled⟩ := hcompiled
    rw [evalExpr] at heval
    have hk' : (c.onSpan span).chunk + first.chunks.length = k + (closuresInExpr left).length := by
      simp [hk, length_chunks_expr hfirst]
    -- the left operand comes first, whichever operator it is
    have hleft : frame.Has a first.code := by
      cases op <;>
      · simp only [bind_eq_ok, pure, Except.pure, Except.ok.injEq] at hcompiled
        obtain ⟨second, -, rfl⟩ := hcompiled
        simp only [Fragment.code_append, has_append] at hcode
        exact hcode.1.1
    refine of_thenEval heval (ends_expr left hfirst (by simp [ha]) (by simp [hk]) hleft hlevel) hrest
      (fun _ _ h => h) fun v s₁ _ hx => ?_
    cases op with
    | and | or =>
      simp only [bind_eq_ok, pure, Except.pure, Except.ok.injEq] at hcompiled
      obtain ⟨second, hsecond, rfl⟩ := hcompiled
      simp only [Fragment.code_append, Cursor.code_emit, List.map_cons, List.map_nil, has_append,
        has_cons, List.length_append, List.length_cons, List.length_nil, ← Nat.add_assoc,
        Nat.add_zero] at hcode hrest
      -- the right operand is evaluated only if the left one does not decide
      refine .of_keepJump (by constructor) hcode.1.2.1 hcode.1.2.2.1 (fun hdecided => ?_)
        (fun hopen => ?_)
      · rw [hdecided] at hx
        cases hx
        simpa [Resumes, ha, ← Nat.add_assoc] using hrest
      · rw [hopen] at hx
        refine of_thenEval hx (ends_expr right hsecond (by simp [ha]) hk' hcode.2 hlevel) hrest
          (fun _ _ h => h) fun w s₂ _ hx => ?_
        cases hx
        exact hrest
    | _ =>
      simp only [bind_eq_ok, pure, Except.pure, Except.ok.injEq] at hcompiled
      obtain ⟨second, hsecond, rfl⟩ := hcompiled
      simp only [Fragment.code_append, Cursor.code_emit, List.map_cons, List.map_nil, has_append,
        has_cons, List.length_append, List.length_cons, List.length_nil, ← Nat.add_assoc,
        Nat.add_zero] at hcode hrest
      refine of_thenEval hx (ends_expr right hsecond (by simp [ha]) hk' hcode.1.2 hlevel) hrest
        (fun _ _ h => h) fun w s₂ _ hx => ?_
      cases hx
      exact .of_pushOutcome hlevel hcode.2.1 rfl hrest

theorem ends_exprs {name : String} (es : List Expr) {c : Cursor} {f : Fragment}
    (hcompiled : exprs name c es = .ok f) {a k : Nat} (ha : c.address = a) (hk : c.chunk = k)
    (hcode : frame.Has a f.code) {handlers : List Handler} (hlevel : Level handlers)
    {stack : List Val} {s : State} {x : Except Failure (List Val) × State}
    (heval : evalExprs frame.program k es s = some x)
    (hrest : frame.ResumesAll calls outcome (a + f.code.length) stack handlers x) :
    frame.Ends calls outcome a stack handlers s := by
  match es with
  | [] =>
    simp only [exprs, Except.ok.injEq] at hcompiled
    simp only [evalExprs, Option.some.injEq] at heval
    subst hcompiled heval
    exact hrest
  | e :: es =>
    simp only [exprs, bind_eq_ok, pure, Except.pure, Except.ok.injEq] at hcompiled
    obtain ⟨first, hfirst, rest, hes, rfl⟩ := hcompiled
    simp only [Fragment.code_append, has_append] at hcode
    rw [evalExprs] at heval
    refine of_thenEval heval (ends_expr e hfirst ha hk hcode.1 hlevel) hrest (fun _ _ h => h)
      fun v s₁ _ hx => ?_
    have hk' : (c.after first).chunk = k + (closuresInExpr e).length := by
      simp [hk, length_chunks_expr hfirst]
    refine of_thenEval hx (ends_exprs es hes (by simp [ha]) hk' hcode.2 hlevel) hrest (fun _ _ h => h)
      fun vs s₂ _ hx => ?_
    cases hx
    simpa [ResumesAll, Nat.add_assoc] using hrest

end

/-- An expression that is left out is null. -/
theorem ends_optional {name : String} (e : Option Expr) {c : Cursor} {f : Fragment}
    (hcompiled : optional name c e = .ok f) {a k : Nat} (ha : c.address = a) (hk : c.chunk = k)
    (hcode : frame.Has a f.code) {handlers : List Handler} (hlevel : Level handlers)
    {stack : List Val} {s : State} {x : Outcome × State}
    (heval : evalOptional frame.program k e s = some x)
    (hrest : frame.Resumes calls outcome (a + f.code.length) stack handlers x) :
    frame.Ends calls outcome a stack handlers s := by
  cases e with
  | none =>
    simp only [Compile.optional, Except.ok.injEq] at hcompiled
    simp only [evalOptional, Option.some.injEq] at heval
    subst hcompiled heval
    simp only [Cursor.code_emit, List.map_cons, has_cons] at hcode
    exact .of_continues hcode.1 rfl hrest
  | some e =>
    rw [Compile.optional] at hcompiled
    exact ends_expr e hcompiled ha hk hcode hlevel heval hrest

/-! ## Statements -/

/-- What follows an expression gets its value, or the expression fails. -/
theorem orRaise_eq_some {x : Option (Outcome × State)} {next : Val → State → Option (Flow × State)}
    {r : Flow × State} (h : orRaise x next = some r) :
    (∃ failure s, x = some (.error failure, s) ∧ r = (.raised failure, s)) ∨
    (∃ value s, x = some (.ok value, s) ∧ next value s = some r) := by
  match x, h with
  | some (.error failure, s), h => exact .inl ⟨failure, s, rfl, (Option.some.inj h).symm⟩
  | some (.ok value, s), h => exact .inr ⟨value, s, rfl, h⟩

/-- **A statement that begins with an expression**: a failure of the expression leaves the statement,
and the rest of it goes on with a value. -/
theorem Ends.of_orRaise {value : Option (Outcome × State)} {next : Val → State → Option (Flow × State)}
    {x : Flow × State} {around : Surroundings} {first mid last : Nat} {handlers : List Handler} {s : State}
    (heval : orRaise value next = some x)
    (hvalue : ∀ {y}, value = some y → frame.Resumes calls outcome mid [] handlers y →
      frame.Ends calls outcome first [] handlers s)
    (hrest : frame.Leaves calls outcome around last handlers x)
    (hnext : ∀ v s₁, next v s₁ = some x → frame.Ends calls outcome mid [v] handlers s₁) :
    frame.Ends calls outcome first [] handlers s := by
  rcases orRaise_eq_some heval with ⟨failure, s₁, hfailed, rfl⟩ | ⟨v, s₁, hv, hx⟩
  · exact hvalue hfailed hrest
  · exact hvalue hv (hnext v s₁ hx)

/-- Handlers are given up one after the other. -/
theorem Ends.of_popHandlers {line : Nat} {stack : List Val} {s : State} (n : Nat) {pc : Nat}
    {handlers : List Handler}
    (hcode : frame.Has pc ((List.replicate n .popHandler).map fun i => (i, line)))
    (hrest : frame.Ends calls outcome (pc + n) stack (handlers.drop n) s) :
    frame.Ends calls outcome pc stack handlers s := by
  induction n generalizing pc handlers with
  | zero => exact hrest
  | succ n ih =>
    simp only [List.replicate_succ, List.map_cons, has_cons] at hcode
    have hnext : frame.Ends calls outcome (pc + 1) stack handlers.tail s := by
      refine ih hcode.2 ?_
      rw [show pc + 1 + n = pc + (n + 1) by omega, List.drop_tail]
      exact hrest
    exact .of_continues hcode.1 rfl hnext

/-- Scopes are closed one after the other. -/
theorem Ends.of_exitScopes {line : Nat} {stack : List Val} {handlers : List Handler} (n : Nat)
    {pc : Nat} {s : State}
    (hcode : frame.Has pc ((List.replicate n .exitScope).map fun i => (i, line)))
    (hrest : frame.Ends calls outcome (pc + n) stack handlers
      { s with scopes := s.scopes.drop n }) :
    frame.Ends calls outcome pc stack handlers s := by
  induction n generalizing pc s with
  | zero => exact hrest
  | succ n ih =>
    simp only [List.replicate_succ, List.map_cons, has_cons] at hcode
    have hnext : frame.Ends calls outcome (pc + 1) stack handlers
        { s with scopes := s.scopes.tail } := by
      refine ih hcode.2 ?_
      rw [show pc + 1 + n = pc + (n + 1) by omega, List.drop_tail]
      exact hrest
    exact .of_continues hcode.1 rfl hnext

/-- A return ends the run. -/
theorem Ends.of_ret {pc : Nat} {value : Val} {stack : List Val} {handlers : List Handler}
    {s : State} (hcode : frame.body.code[pc]? = some .ret) (hcalls : s.calls = calls) :
    frame.Ends calls (.ok value) pc (value :: stack) handlers s := by
  have hadvance : ∃ m, (frame.machine pc (value :: stack) handlers s.scopes).advance =
      .yields (.completed (.ok value)) m := by
    rw [Machine.advance, step_at hcode]
    exact ⟨_, rfl⟩
  obtain ⟨m, hm⟩ := hadvance
  unfold Ends
  rw [hcalls]
  exact .completes hm

/-- **Leaving a loop** gives up what was opened in it and goes where `target` says. -/
theorem ends_leaveLoop {ctx : Context} {around : Surroundings} (haround : around.Of ctx)
    {c : Cursor} {keyword : String} {target : Loop → Nat} {f : Fragment}
    (hcompiled : leaveLoop ctx c keyword target = .ok f) {a : Nat} (hcode : frame.Has a f.code)
    {handlers : List Handler} {s : State}
    (hrest : ∀ loop, around.loop = some loop →
      frame.Ends calls outcome (target loop) [] (handlers.drop around.handlers)
        { s with scopes := s.scopes.drop around.scopes }) :
    frame.Ends calls outcome a [] handlers s := by
  unfold leaveLoop at hcompiled
  split at hcompiled
  · cases hcompiled
  · next loop hctx =>
    obtain ⟨hh, hs⟩ := haround.2 loop hctx
    simp only [Except.ok.injEq] at hcompiled
    subst hcompiled
    rw [Cursor.code_emit, show ctx.handlers - loop.handlers = around.handlers by omega,
      show ctx.scopes - loop.scopes = around.scopes by omega] at hcode
    simp only [List.map_append, has_append, List.map_cons, has_cons, List.length_map,
      List.length_append, List.length_replicate, ← Nat.add_assoc] at hcode
    refine .of_popHandlers _ hcode.1.1 (.of_exitScopes _ hcode.1.2 ?_)
    exact .of_continues hcode.2.1 rfl (hrest loop (haround.1 ▸ hctx))

/-- A test goes on behind the jump, or jumps. -/
theorem Ends.of_jumpIfFalse {pc target : Nat} {value : Val} {stack : List Val}
    {handlers : List Handler} {s : State}
    (hcode : frame.body.code[pc]? = some (.jumpIfFalse target))
    (htrue : value.isTruthy = true → frame.Ends calls outcome (pc + 1) stack handlers s)
    (hfalse : ¬ value.isTruthy = true → frame.Ends calls outcome target stack handlers s) :
    frame.Ends calls outcome pc (value :: stack) handlers s := by
  by_cases htruthy : value.isTruthy = true
  · refine .of_continues hcode ?_ (htrue htruthy)
    simp [Machine.execute, Machine.popThen, machine, htruthy]
  · refine .of_continues hcode ?_ (hfalse htruthy)
    simp [Machine.execute, Machine.popThen, machine, htruthy]

/-- **Rounds of a loop**, by the number of rounds that are left: a round starts with the test, and
the body goes back to the start whichever way it goes on. -/
theorem ends_loop (loop : Loop) {test : State → Option (Outcome × State)}
    {body : State → Option (Flow × State)} {branch back : Nat} {handlers : List Handler}
    (htest : ∀ {s : State} {x : Outcome × State}, test s = some x →
      frame.Resumes calls outcome branch [] handlers x →
      frame.Ends calls outcome loop.start [] handlers s)
    (hbranch : frame.body.code[branch]? = some (.jumpIfFalse loop.exit))
    (hbody : ∀ {s : State} {x : Flow × State}, body s = some x →
      frame.Leaves calls outcome { loop := some loop, handlers := 0, scopes := 0 } back handlers x →
      frame.Ends calls outcome (branch + 1) [] handlers s)
    (hback : frame.body.code[back]? = some (.jump loop.start)) {around : Surroundings}
    (fuel : Nat) {s : State} {x : Flow × State} (heval : Direct.loop test body fuel s = some x)
    (hrest : frame.Leaves calls outcome around loop.exit handlers x) :
    frame.Ends calls outcome loop.start [] handlers s := by
  -- the rounds that are left bound both the evaluation and the number of times the code is gone through
  induction fuel generalizing s with
  | zero => simp [Direct.loop] at heval
  | succ fuel ih =>
    rw [Direct.loop] at heval
    refine .of_orRaise heval htest hrest fun v s₁ hx => ?_
    refine .of_jumpIfFalse hbranch (fun htruthy => ?_) (fun hfalsy => ?_)
    · rw [if_pos htruthy] at hx
      split at hx
      · cases hx
      · next s₂ hflow =>
        exact hbody hflow (.of_continues hback rfl (ih hx))
      · next s₂ hflow =>
        refine hbody hflow ?_
        -- the loop around the body is this one, so the body goes on to its start or to its exit
        rintro _ ⟨⟩
        exact ih hx
      · next s₂ hflow =>
        cases hx
        refine hbody hflow ?_
        rintro _ ⟨⟩
        exact hrest
      · next value s₂ hflow =>
        cases hx
        exact hbody hflow hrest
      · next failure s₂ hflow =>
        cases hx
        exact hbody hflow hrest
    · rw [if_neg hfalsy] at hx
      cases hx
      exact hrest

/-- The end of a block closes its scope, and so does everything that leaves the loop around it. -/
theorem Leaves.of_closeScope {around : Surroundings} {pc : Nat} {handlers : List Handler}
    {x : Flow × State} (hcode : frame.body.code[pc]? = some .exitScope)
    (h : frame.Leaves calls outcome around (pc + 1) handlers (closeScope x)) :
    frame.Leaves calls outcome around.inScope pc handlers x := by
  match x with
  | (.next, s) => exact .of_continues hcode rfl h
  | (.broke, s) | (.continued, s) =>
    intro loop hloop
    have hends := h loop hloop
    simp only [List.drop_tail] at hends
    exact hends
  | (.returned value, s) | (.raised failure, s) => exact h

/-- The end of a protected block gives up its handler; a failure in it has found its handler. -/
theorem Leaves.of_protected {around : Surroundings} {leave catchPc next : Nat}
    {handlers : List Handler} {scopeLen : Nat} {x : Flow × State}
    (hpop : frame.body.code[leave]? = some .popHandler)
    (hjump : frame.body.code[leave + 1]? = some (.jump next))
    (hcaught : ∀ failure s, x = (.raised failure, s) →
      frame.Ends calls outcome catchPc [.error failure] handlers
        { s with scopes := Machine.keepOldest scopeLen s.scopes })
    (h : (∀ failure s, x ≠ (.raised failure, s)) →
      frame.Leaves calls outcome around next handlers x) :
    frame.Leaves calls outcome around.inHandler leave
      ({ catchPc, stackLen := 0, scopeLen } :: handlers) x := by
  match x with
  | (.next, s) =>
    exact .of_continues hpop rfl (.of_continues hjump rfl (h (by simp)))
  | (.broke, s) | (.continued, s) => exact h (by simp)
  | (.returned value, s) => exact h (by simp)
  | (.raised failure, s) => exact hcaught failure s rfl

/-- A jump behind a statement changes where it goes on, and nothing else. -/
theorem Leaves.of_jump {around : Surroundings} {pc next : Nat} {handlers : List Handler}
    {x : Flow × State} (hcode : frame.body.code[pc]? = some (.jump next))
    (h : frame.Leaves calls outcome around next handlers x) :
    frame.Leaves calls outcome around pc handlers x := by
  match x with
  | (.next, s) => exact .of_continues hcode rfl h
  | (.broke, s) | (.continued, s) | (.returned value, s) | (.raised failure, s) => exact h

theorem execute_pushHandler (pc : Nat) (handlers : List Handler) (scopes : List Scope)
    (catchPc : Nat) :
    (frame.machine pc [] handlers scopes).execute (.pushHandler catchPc) =
      .continues (frame.machine pc []
        ({ catchPc, stackLen := 0, scopeLen := scopes.length } :: handlers) scopes) := rfl

/-- A handler binds the failure in a scope of its own. -/
theorem Ends.of_catch {pc : Nat} {name : String} {failure : Failure} {handlers : List Handler}
    {s : State} (henter : frame.body.code[pc]? = some .enterScope)
    (hdeclare : frame.body.code[pc + 1]? = some (.declare name))
    (hrest : frame.Ends calls outcome (pc + 1 + 1) [] handlers
      { s with scopes := bindInnermost name (.error failure) ([] :: s.scopes) }) :
    frame.Ends calls outcome pc [.error failure] handlers s := by
  rw [bindInnermost_eq] at hrest
  have hdeclared : frame.Ends calls outcome (pc + 1) [.error failure] handlers
      { s with scopes := [] :: s.scopes } := .of_continues hdeclare rfl hrest
  exact .of_continues henter rfl hdeclared

mutual

/-- **Statements**: a run that ends wherever control leaves a statement ends from its beginning
on. -/
theorem ends_stmt {name : String} {fuel : Nat} (t : Stmt) {ctx : Context} {around : Surroundings}
    (haround : around.Of ctx) {c : Cursor} {f : Fragment} (hcompiled : stmt name ctx c t = .ok f)
    {a k : Nat} (ha : c.address = a) (hk : c.chunk = k) (hcode : frame.Has a f.code)
    {handlers : List Handler} (hlevel : Level handlers) {s : State} {x : Flow × State}
    (heval : evalStmt frame.program fuel k t s = some x)
    (hrest : frame.Leaves calls outcome around (a + f.code.length) handlers x) :
    frame.Ends calls outcome a [] handlers s := by
  match t with
  | .block body _ =>
    simp only [stmt, bind_eq_ok, pure, Except.pure, Except.ok.injEq] at hcompiled
    obtain ⟨inner, hinner, rfl⟩ := hcompiled
    simp only [Fragment.code_append, Cursor.code_emit, List.map_cons, List.map_nil, has_append,
      has_cons, List.length_append, List.length_cons, List.length_nil, ← Nat.add_assoc,
      Nat.add_zero] at hcode hrest
    rw [evalStmt] at heval
    obtain ⟨y, hy, rfl⟩ := Option.map_eq_some_iff.mp heval
    obtain ⟨⟨⟨henter, -⟩, hbodyCode⟩, hexit, -⟩ := hcode
    refine .of_continues henter rfl ?_
    exact ends_stmts body haround.inScope hinner (by simp [ha]) (by simp [hk]) hbodyCode hlevel hy
      (.of_closeScope hexit hrest)
  | .bind x init _ =>
    simp only [stmt, bind_eq_ok, pure, Except.pure, Except.ok.injEq] at hcompiled
    obtain ⟨value, hvalue, rfl⟩ := hcompiled
    simp only [Fragment.code_append, Cursor.code_emit, List.map_cons, List.map_nil, has_append,
      has_cons, List.length_append, List.length_cons, List.length_nil, ← Nat.add_assoc,
      Nat.add_zero] at hcode hrest
    rw [evalStmt] at heval
    refine .of_orRaise heval (ends_optional init hvalue (by simp [ha]) (by simp [hk]) hcode.1 hlevel) hrest
      fun v s₁ hx => ?_
    cases hx
    rw [bindInnermost_eq] at hrest
    exact .of_continues hcode.2.1 rfl hrest
  | .assign x value _ =>
    simp only [stmt, bind_eq_ok, pure, Except.pure, Except.ok.injEq] at hcompiled
    obtain ⟨code, hvalue, rfl⟩ := hcompiled
    simp only [Fragment.code_append, Cursor.code_emit, List.map_cons, List.map_nil, has_append,
      has_cons, List.length_append, List.length_cons, List.length_nil, ← Nat.add_assoc,
      Nat.add_zero] at hcode hrest
    rw [evalStmt] at heval
    refine .of_orRaise heval (ends_expr value hvalue (by simp [ha]) (by simp [hk]) hcode.1 hlevel) hrest
      fun v s₁ hx => ?_
    cases hx
    rw [assignNearest_eq] at hrest
    exact .of_continues hcode.2.1 rfl hrest
  | .ifThen test yes none _ =>
    simp only [stmt, bind_eq_ok, pure, Except.pure, Except.ok.injEq] at hcompiled
    obtain ⟨t, ht, y, hy, rfl⟩ := hcompiled
    simp only [Fragment.code_append, Cursor.code_emit, List.map_cons, List.map_nil, has_append,
      has_cons, List.length_append, List.length_cons, List.length_nil, ← Nat.add_assoc,
      Nat.add_zero] at hcode hrest
    rw [evalStmt] at heval
    refine .of_orRaise heval (ends_expr test ht (by simp [ha]) (by simp [hk]) hcode.1.1 hlevel) hrest
      fun v s₁ hx => ?_
    refine .of_jumpIfFalse hcode.1.2.1 (fun htruthy => ?_) (fun hfalsy => ?_)
    · rw [if_pos htruthy] at hx
      exact ends_stmt yes haround hy (by simp [ha]) (by simp [hk, length_chunks_expr ht]) hcode.2
        hlevel hx hrest
    · rw [if_neg hfalsy] at hx
      cases hx
      simpa [Leaves, ha, ← Nat.add_assoc] using hrest
  | .ifThen test yes (some no) _ =>
    simp only [stmt, bind_eq_ok, pure, Except.pure, Except.ok.injEq] at hcompiled
    obtain ⟨t, ht, y, hy, n, hn, rfl⟩ := hcompiled
    simp only [Fragment.code_append, Cursor.code_emit, List.map_cons, List.map_nil, has_append,
      has_cons, List.length_append, List.length_cons, List.length_nil, ← Nat.add_assoc,
      Nat.add_zero] at hcode hrest
    rw [evalStmt] at heval
    obtain ⟨⟨⟨⟨htestCode, hjump, -⟩, hyesCode⟩, hskip, -⟩, hnoCode⟩ := hcode
    refine .of_orRaise heval (ends_expr test ht (by simp [ha]) (by simp [hk]) htestCode hlevel) hrest
      fun v s₁ hx => ?_
    refine .of_jumpIfFalse hjump (fun htruthy => ?_) (fun hfalsy => ?_)
    · rw [if_pos htruthy] at hx
      refine ends_stmt yes haround hy (by simp [ha]) (by simp [hk, length_chunks_expr ht])
        hyesCode hlevel hx (.of_jump hskip ?_)
      simpa [ha, ← Nat.add_assoc] using hrest
    · rw [if_neg hfalsy] at hx
      refine ends_stmt no haround hn rfl ?_ ?_ hlevel hx ?_
      · simp [hk, length_chunks_expr ht, length_chunks_stmt hy]
      · simpa [ha] using hnoCode
      · simpa [ha] using hrest
  | .whileDo test body span =>
    simp only [stmt, bind_eq_ok, pure, Except.pure, Except.ok.injEq] at hcompiled
    obtain ⟨t, ht, b, hb, rfl⟩ := hcompiled
    simp only [Fragment.code_append, Cursor.code_emit, List.map_cons, List.map_nil, has_append,
      has_cons, List.length_append, List.length_cons, List.length_nil, ← Nat.add_assoc,
      Nat.add_zero] at hcode hrest
    rw [evalStmt] at heval
    have hsize := length_stmt body (Context.Open.loop ctx _ _) hb
    subst ha
    -- the compiler knew where the loop ends before it compiled the body
    let loop : Loop :=
      { start := c.address, exit := c.address + t.code.length + 1 + codeSize 0 0 body + 1
        handlers := ctx.handlers, scopes := ctx.scopes }
    have hexit : frame.Leaves calls outcome around loop.exit handlers x := by
      rw [hsize] at hrest
      exact hrest
    obtain ⟨⟨⟨htestCode, hjump, -⟩, hbodyCode⟩, hback, -⟩ := hcode
    refine ends_loop loop (fun hv hnext => ?_) hjump (fun hy hnext => ?_) hback fuel heval hexit
    · exact ends_expr test ht rfl (by simp [hk]) htestCode hlevel hv hnext
    · exact ends_stmt body ⟨rfl, Context.Open.loop ctx _ _⟩ hb (by simp)
        (by simp [hk, length_chunks_expr ht]) hbodyCode hlevel hy hnext
  | .tryCatch body catchVar handler span =>
    simp only [stmt, bind_eq_ok, pure, Except.pure, Except.ok.injEq] at hcompiled
    obtain ⟨b, hb, g, hg, rfl⟩ := hcompiled
    simp only [Fragment.code_append, Cursor.code_emit, List.map_cons, List.map_nil, has_append,
      has_cons, List.length_append, List.length_cons, List.length_nil, ← Nat.add_assoc,
      Nat.add_zero, Cursor.address_skip, Cursor.address_after, Cursor.address_onLine, ha]
      at hcode hrest
    rw [evalStmt] at heval
    cases hy : evalStmt frame.program fuel k body s with
    | none =>
      rw [hy] at heval
      cases heval
    | some y =>
      rw [hy] at heval
      obtain ⟨⟨⟨⟨⟨⟨hpush, -⟩, hbodyCode⟩, hpop, hskip, -⟩, henter, hdeclare, -⟩, hhandlerCode⟩,
        hexit, -⟩ := hcode
      refine .of_continues hpush (execute_pushHandler _ _ _ _) ?_
      refine ends_stmt body haround.inHandler hb (by simp [ha]) (by simp [hk]) hbodyCode hlevel.cons hy
        (.of_protected hpop hskip ?_ (fun hother => ?_))
      · rintro failure s₁ rfl
        obtain ⟨z, hz, rfl⟩ := Option.map_eq_some_iff.mp heval
        refine .of_catch henter hdeclare ?_
        exact ends_stmt handler haround.inScope hg (by simp [ha])
          (by simp [hk, length_chunks_stmt hb]) hhandlerCode hlevel hz (.of_closeScope hexit hrest)
      · -- whatever else the body does, the whole does
        have hx : y = x := by
          unfold caught at heval
          split at heval
          · next failure s₁ hraised => exact absurd (Option.some.inj hraised) (hother failure s₁)
          · exact Option.some.inj heval
        rw [hx]
        exact hrest
  | .ret value _ =>
    simp only [stmt, bind_eq_ok, pure, Except.pure, Except.ok.injEq] at hcompiled
    obtain ⟨code, hvalue, rfl⟩ := hcompiled
    simp only [Fragment.code_append, Cursor.code_emit, List.map_cons, List.map_nil, has_append,
      has_cons, List.length_append, List.length_cons, List.length_nil, ← Nat.add_assoc,
      Nat.add_zero] at hcode hrest
    rw [evalStmt] at heval
    refine .of_orRaise heval (ends_optional value hvalue (by simp [ha]) (by simp [hk]) hcode.1 hlevel) hrest
      fun v s₁ hx => ?_
    cases hx
    obtain ⟨hcalls, rfl⟩ := hrest
    exact .of_ret hcode.2.1 hcalls
  | .throw value _ =>
    simp only [stmt, bind_eq_ok, pure, Except.pure, Except.ok.injEq] at hcompiled
    obtain ⟨code, hvalue, rfl⟩ := hcompiled
    simp only [Fragment.code_append, Cursor.code_emit, List.map_cons, List.map_nil, has_append,
      has_cons, List.length_append, List.length_cons, List.length_nil, ← Nat.add_assoc,
      Nat.add_zero] at hcode hrest
    rw [evalStmt] at heval
    refine .of_orRaise heval (ends_expr value hvalue (by simp [ha]) (by simp [hk]) hcode.1 hlevel) hrest
      fun v s₁ hx => ?_
    cases hx
    exact .of_raises hlevel hcode.2.1 rfl hrest
  | .eval e _ =>
    simp only [stmt, bind_eq_ok, pure, Except.pure, Except.ok.injEq] at hcompiled
    obtain ⟨code, hvalue, rfl⟩ := hcompiled
    simp only [Fragment.code_append, Cursor.code_emit, List.map_cons, List.map_nil, has_append,
      has_cons, List.length_append, List.length_cons, List.length_nil, ← Nat.add_assoc,
      Nat.add_zero] at hcode hrest
    rw [evalStmt] at heval
    refine .of_orRaise heval (ends_expr e hvalue (by simp [ha]) (by simp [hk]) hcode.1 hlevel) hrest
      fun v s₁ hx => ?_
    cases hx
    exact .of_continues hcode.2.1 rfl hrest
  | .breakLoop _ =>
    cases heval
    exact ends_leaveLoop haround hcompiled hcode hrest
  | .continueLoop _ =>
    cases heval
    exact ends_leaveLoop haround hcompiled hcode hrest

theorem ends_stmts {name : String} {fuel : Nat} (ts : List Stmt) {ctx : Context}
    {around : Surroundings} (haround : around.Of ctx) {c : Cursor} {f : Fragment}
    (hcompiled : stmts name ctx c ts = .ok f) {a k : Nat} (ha : c.address = a)
    (hk : c.chunk = k) (hcode : frame.Has a f.code) {handlers : List Handler}
    (hlevel : Level handlers) {s : State} {x : Flow × State}
    (heval : evalStmts frame.program fuel k ts s = some x)
    (hrest : frame.Leaves calls outcome around (a + f.code.length) handlers x) :
    frame.Ends calls outcome a [] handlers s := by
  match ts with
  | [] =>
    simp only [stmts, Except.ok.injEq] at hcompiled
    simp only [evalStmts, Option.some.injEq] at heval
    subst hcompiled heval
    exact hrest
  | t :: ts =>
    simp only [stmts, bind_eq_ok, pure, Except.pure, Except.ok.injEq] at hcompiled
    obtain ⟨first, hfirst, rest, hts, rfl⟩ := hcompiled
    simp only [Fragment.code_append, has_append, List.length_append, ← Nat.add_assoc] at hcode hrest
    rw [evalStmts] at heval
    split at heval
    · next s₁ hy =>
      refine ends_stmt t haround hfirst ha hk hcode.1 hlevel hy ?_
      exact ends_stmts ts haround hts (by simp [ha]) (by simp [hk, length_chunks_stmt hfirst])
        hcode.2 hlevel heval hrest
    · next hother =>
      -- control does not go on to the rest
      refine ends_stmt t haround hfirst ha hk hcode.1 hlevel heval ?_
      match x with
      | (.next, s₁) => exact absurd heval (hother s₁)
      | (.broke, s₁) | (.continued, s₁) | (.returned value, s₁) | (.raised failure, s₁) =>
        exact hrest

end

/-- **A chunk that was compiled from a body runs it**: behind the last statement it returns
null. -/
theorem ends_body {name title : String} {fuel : Nat} {body : Stmt} {c : Cursor} {f : Fragment}
    (hcompiled : stmt name {} c body = .ok f) (ha : c.address = 0)
    (hbody : frame.body = chunkOf title f) {s s' : State} {flow : Flow}
    (heval : evalStmt frame.program fuel c.chunk body s = some (flow, s'))
    (houtcome : flow.outcome? = some outcome) : frame.Ends s'.calls outcome 0 [] [] s := by
  have hcode : frame.Has 0 (f.code ++ [(.const .null, f.line), (.ret, f.line)]) := by
    intro i instr hi
    rw [hbody, Nat.zero_add]
    exact hi
  simp only [has_append, has_cons] at hcode
  have haround : (Surroundings.mk none 0 0).Of {} := by
    refine ⟨rfl, ?_⟩
    rintro _ ⟨⟩
  refine ends_stmt body haround hcompiled ha rfl hcode.1 (fun _ hmem => by cases hmem) heval ?_
  cases flow with
  | next =>
    cases houtcome
    have hret : frame.Ends s'.calls (.ok .null) (0 + f.code.length + 1) [.null] [] s' :=
      .of_ret hcode.2.2.1 rfl
    exact .of_continues hcode.2.1 rfl hret
  | broke => cases houtcome
  | continued => cases houtcome
  | returned value =>
    cases houtcome
    exact ⟨rfl, rfl⟩
  | raised failure =>
    cases houtcome
    exact ⟨rfl, rfl⟩

/-- A machine at the start of such a chunk is driven to where the evaluator comes. -/
theorem conversation_body {name title : String} {fuel : Nat} {body : Stmt} {c : Cursor}
    {f : Fragment} (hcompiled : stmt name {} c body = .ok f) (ha : c.address = 0)
    {program : Program Val} {chunk : Nat} (hchunk : program.chunks[chunk]? = some (chunkOf title f))
    {visible : Scope} {answers : List Outcome}
    (heval : runBody program fuel c.chunk body visible answers = some (calls, outcome))
    (budget : Nat) :
    ∃ turns, ∀ n, turns ≤ n →
      (Machine.start program chunk visible budget).conversation n answers =
        some (calls, outcome) := by
  unfold runBody at heval
  split at heval
  · cases heval
  · next flow s hflow =>
    obtain ⟨_, ho, heq⟩ := Option.map_eq_some_iff.mp heval
    cases heq
    let frame : Frame :=
      { program, chunk, budget := max budget 1, body := chunkOf title f, fetched := hchunk }
    have hends : frame.Ends s.calls outcome 0 [] [] { scopes := [visible], answers, calls := [] } :=
      ends_body hcompiled ha rfl hflow ho
    refine Machine.Ends.conversation hends rfl ?_
    exact Nat.lt_of_lt_of_le Nat.zero_lt_one (Nat.le_max_right budget 1)

end Frame

/-! ## Compiled scripts -/

/-- **Compiled scripts do what they mean.** A machine for a compiled script, driven with any answers
at any budget, makes the calls that the evaluator makes, in that order, and comes to its outcome;
and so does a machine for each closure literal of the script, whatever it has captured. -/
theorem compiled_does_as_evaluated {name : String} {script : ParsedScript} {program : Program Val}
    (hcompiled : compile name script = .ok program) (fuel budget : Nat) (answers : List Outcome)
    (calls : List StepRequest) (outcome : Outcome) :
    (runBody program fuel 1 script.body [] answers = some (calls, outcome) →
      ∃ turns, ∀ n, turns ≤ n →
        (Machine.ofProgram program budget).conversation n answers = some (calls, outcome)) ∧
    ∀ (i : Nat) (body : Stmt), (closuresIn script.body)[i]? = some body → ∀ captured : Scope,
      runBody program fuel (i + 2) body captured answers = some (calls, outcome) →
      ∃ turns, ∀ n, turns ≤ n →
        (Machine.ofClosure { program, chunk := i + 1, captured } budget).conversation n answers =
          some (calls, outcome) := by
  simp only [compile, bind_eq_ok, pure, Except.pure, Except.ok.injEq] at hcompiled
  obtain ⟨main, hmain, rfl⟩ := hcompiled
  refine ⟨fun heval => ?_, fun i body hbody captured heval => ?_⟩
  · exact Frame.conversation_body hmain rfl rfl heval budget
  · obtain ⟨line, inner, hinner, hchunk⟩ := (numbered_stmt script.body hmain).chunk_of_body hbody
    rw [show 1 + i + 1 = i + 2 by omega] at hinner
    exact Frame.conversation_body hinner rfl (by simpa using hchunk) heval budget

/-- A script that asks until it is told, and reports each failure with a block behind the call:
`while (true) { try { return ask() } catch (e) { report(true) { return } } }`. -/
def askUntilTold : ParsedScript :=
  let report : Expr := .call "report" [.bool true {}] (some (.ret none {})) {}
  { body := .whileDo (.bool true {})
      (.tryCatch (.ret (some (.call "ask" [] none {})) {}) "e" (.eval report {}) {}) {}
    span := {} }

/-- One failure is reported, and the second answer is the outcome. -/
theorem compiled_does_as_evaluated_retry :
    ∃ program calls,
      compile "retry" askUntilTold = .ok program ∧
      (∃ turns, ∀ n, turns ≤ n →
        (Machine.ofProgram program 1).conversation n
          [.error { code := "Timeout", message := "late" }, .ok .null, .ok (.bool true)] =
          some (calls, .ok (.bool true))) ∧
      calls.map StepRequest.function = ["ask", "report", "ask"] := by
  obtain ⟨program, hcompiled⟩ : ∃ program, compile "retry" askUntilTold = .ok program := ⟨_, rfl⟩
  refine ⟨program, ?calls, hcompiled, (compiled_does_as_evaluated hcompiled 2 1 _ _ _).1 ?run,
    ?names⟩
  case run => rfl
  case names => rfl

end DurableFlow.Script
