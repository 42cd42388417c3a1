/-
What a script means, without code and without a machine.

The evaluator here walks over the syntax tree. Variables live in a list of
scopes, the innermost first. A step call takes the next of the answers that it was
given and notes what was called. A statement says how control leaves it, and a
failure is one of the ways; nothing is unwound, because the evaluator of the
enclosing statement gets control back.

A closure literal is known by its number: literals are counted in the order in
which they begin, those inside a literal after it. The value of a literal holds
the number, the program it is a literal of and all variables that are visible.
-/
import DurableFlow.Script.Compile
import DurableFlow.Script.Machine

set_option autoImplicit false

namespace DurableFlow.Script.Direct

/-! ## Scopes -/

/-- The value of a name in the nearest scope that binds it. -/
def nearest? (name : String) (scopes : List Scope) : Option Val :=
  scopes.findSome? (Table.find? name)

/-- Binds a name in the innermost scope. -/
def bindInnermost (name : String) (value : Val) (scopes : List Scope) : List Scope :=
  Table.insert name value (scopes.headD []) :: scopes.tail

/-- Assigns to a name in the nearest scope that binds it, or else in the outermost scope. -/
def assignNearest (name : String) (value : Val) (scopes : List Scope) : List Scope :=
  match scopes.findIdx? (Table.contains name) with
  | some i => scopes.modify i (Table.insert name value)
  | none => scopes.dropLast ++ [Table.insert name value (scopes.getLastD [])]

/-- All variables, those of inner scopes hiding those of outer ones. -/
def captured (scopes : List Scope) : Scope := scopes.foldr Table.insertAll []

/-- Closes all scopes but the `n` that were opened first. -/
def reopened (n : Nat) (scopes : List Scope) : List Scope := scopes.drop (scopes.length - n)

/-! ## Closure literals -/

mutual

/-- The bodies of the closure literals in a statement, in the order of their numbers. -/
def closuresIn : Stmt → List Stmt
  | .block body _ => closuresInAll body
  | .bind _ none _ | .ret none _ | .breakLoop _ | .continueLoop _ => []
  | .bind _ (some e) _ | .ret (some e) _ | .assign _ e _ | .throw e _ | .eval e _ =>
    closuresInExpr e
  | .ifThen test yes none _ => closuresInExpr test ++ closuresIn yes
  | .ifThen test yes (some no) _ => closuresInExpr test ++ closuresIn yes ++ closuresIn no
  | .whileDo test body _ => closuresInExpr test ++ closuresIn body
  | .tryCatch body _ handler _ => closuresIn body ++ closuresIn handler

/-- The bodies of the closure literals in some statements. -/
def closuresInAll : List Stmt → List Stmt
  | [] => []
  | s :: ss => closuresIn s ++ closuresInAll ss

/-- The bodies of the closure literals in an expression; a block behind a call is one. -/
def closuresInExpr : Expr → List Stmt
  | .null _ | .bool _ _ | .num _ _ | .str _ _ | .ident _ _ => []
  | .list elements _ => closuresInExprs elements
  | .call _ args none _ => closuresInExprs args
  | .call _ args (some body) _ => closuresInExprs args ++ body :: closuresIn body
  | .closure body _ => body :: closuresIn body
  | .unary _ operand _ => closuresInExpr operand
  | .binary _ left right _ => closuresInExpr left ++ closuresInExpr right

/-- The bodies of the closure literals in some expressions. -/
def closuresInExprs : List Expr → List Stmt
  | [] => []
  | e :: es => closuresInExpr e ++ closuresInExprs es

end

/-! ## Expressions -/

/-- What an evaluation goes through: the scopes, the answers that are left, the calls so far. -/
structure State where
  scopes : List Scope
  answers : List Outcome
  calls : List StepRequest

/-- Goes on with a value; a failure is the end. -/
def thenEval {α β : Type} (x : Option (Except Failure α × State))
    (next : α → State → Option (Except Failure β × State)) : Option (Except Failure β × State) :=
  match x with
  | none => none
  | some (.error failure, s) => some (.error failure, s)
  | some (.ok a, s) => next a s

/-- Calls a step: the call is noted, and the next answer is its outcome. -/
def callStep (request : StepRequest) (s : State) : Option (Outcome × State) :=
  match s.answers with
  | [] => none
  | answer :: rest => some (answer, { s with answers := rest, calls := s.calls ++ [request] })

/-- The value of the closure literal of a number. -/
def closureOf (program : Program Val) (k : Nat) (s : State) : Closure Val :=
  { program, chunk := k, captured := captured s.scopes }

/-- The value of a name, or the failure that there is none. -/
def variableOf (name : String) (s : State) : Outcome :=
  match nearest? name s.scopes with
  | some value => .ok value
  | none => .error
      { code := Failure.Code.undefinedVariable, message := s!"'{name}' is not defined" }

/-- Whether the left operand decides, so that the right one is not evaluated. -/
def decides : BinaryOp → Val → Bool
  | .and, left => !left.isTruthy
  | .or, left => left.isTruthy
  | _, _ => false

/-- The value of an operator whose left operand does not decide. -/
def applied : BinaryOp → Val → Val → Outcome
  | .and, _, right | .or, _, right => .ok right
  | op, left, right => Val.binary op left right

mutual

/-- **Evaluates an expression** whose first closure literal has the number `k`. -/
def evalExpr (program : Program Val) (k : Nat) : Expr → State → Option (Outcome × State)
  | .null _, s => some (.ok .null, s)
  | .bool value _, s => some (.ok (.bool value), s)
  | .num value _, s => some (.ok (.num value), s)
  | .str value _, s => some (.ok (.str value), s)
  | .list elements _, s =>
    thenEval (evalExprs program k elements s) fun items s => some (.ok (.list items), s)
  | .ident name _, s => some (variableOf name s, s)
  | .call callee args none _, s =>
    thenEval (evalExprs program k args s) fun args s =>
      callStep { function := callee, args, body := none } s
  | .call callee args (some _) _, s =>
    thenEval (evalExprs program k args s) fun given s =>
      let body := closureOf program (k + (closuresInExprs args).length) s
      callStep { function := callee, args := given, body := some body } s
  | .closure _ _, s => some (.ok (.closure (closureOf program k s)), s)
  | .unary op operand _, s =>
    thenEval (evalExpr program k operand s) fun value s => some (Val.unary op value, s)
  | .binary op left right _, s =>
    thenEval (evalExpr program k left s) fun first s =>
      if decides op first then some (.ok first, s)
      else
        thenEval (evalExpr program (k + (closuresInExpr left).length) right s) fun second s =>
          some (applied op first second, s)

/-- Evaluates expressions from left to right. -/
def evalExprs (program : Program Val) (k : Nat) :
    List Expr → State → Option (Except Failure (List Val) × State)
  | [], s => some (.ok [], s)
  | e :: es, s =>
    thenEval (evalExpr program k e s) fun first s =>
      thenEval (evalExprs program (k + (closuresInExpr e).length) es s) fun rest s =>
        some (.ok (first :: rest), s)

end

/-- Evaluates an expression that may be left out and is null then. -/
def evalOptional (program : Program Val) (k : Nat) :
    Option Expr → State → Option (Outcome × State)
  | none, s => some (.ok .null, s)
  | some e, s => evalExpr program k e s

/-! ## Statements -/

/-- How control leaves a statement. -/
inductive Flow where
  | next
  | broke
  | continued
  | returned (value : Val)
  | raised (failure : Failure)

/-- Goes on with a value; a failure is raised. -/
def orRaise (x : Option (Outcome × State)) (next : Val → State → Option (Flow × State)) :
    Option (Flow × State) :=
  match x with
  | none => none
  | some (.error failure, s) => some (.raised failure, s)
  | some (.ok value, s) => next value s

/-- Closes the innermost scope. A failure leaves that to whoever catches it. -/
def closeScope : Flow × State → Flow × State
  | (.returned value, s) => (.returned value, s)
  | (.raised failure, s) => (.raised failure, s)
  | (flow, s) => (flow, { s with scopes := s.scopes.tail })

/-- Repeats a body while a test holds. The fuel bounds the number of rounds. -/
def loop (test : State → Option (Outcome × State)) (body : State → Option (Flow × State)) :
    Nat → State → Option (Flow × State)
  | 0, _ => none
  | fuel + 1, s =>
    orRaise (test s) fun value s =>
      if value.isTruthy then
        match body s with
        | none => none
        | some (.next, s) | some (.continued, s) => loop test body fuel s
        | some (.broke, s) => some (.next, s)
        | some (.returned value, s) => some (.returned value, s)
        | some (.raised failure, s) => some (.raised failure, s)
      else some (.next, s)

/-- Runs a handler if a failure was raised: with the scopes that were open at the start, and the
failure bound in one of its own. -/
def caught (name : String) (n : Nat) (handler : State → Option (Flow × State)) :
    Option (Flow × State) → Option (Flow × State)
  | some (.raised failure, s) =>
    (handler { s with
      scopes := bindInnermost name (.error failure) ([] :: reopened n s.scopes) }).map closeScope
  | other => other

mutual

/-- **Evaluates a statement** whose first closure literal has the number `k`. -/
def evalStmt (program : Program Val) (fuel k : Nat) : Stmt → State → Option (Flow × State)
  | .block body _, s =>
    (evalStmts program fuel k body { s with scopes := [] :: s.scopes }).map closeScope
  | .bind name init _, s =>
    orRaise (evalOptional program k init s) fun value s =>
      some (.next, { s with scopes := bindInnermost name value s.scopes })
  | .assign name value _, s =>
    orRaise (evalExpr program k value s) fun value s =>
      some (.next, { s with scopes := assignNearest name value s.scopes })
  | .ifThen test yes none _, s =>
    orRaise (evalExpr program k test s) fun value s =>
      if value.isTruthy then
        evalStmt program fuel (k + (closuresInExpr test).length) yes s
      else some (.next, s)
  | .ifThen test yes (some no) _, s =>
    orRaise (evalExpr program k test s) fun value s =>
      if value.isTruthy then
        evalStmt program fuel (k + (closuresInExpr test).length) yes s
      else
        evalStmt program fuel
          (k + (closuresInExpr test).length + (closuresIn yes).length) no s
  | .whileDo test body _, s =>
    loop (evalExpr program k test)
      (evalStmt program fuel (k + (closuresInExpr test).length) body) fuel s
  | .tryCatch body name handler _, s =>
    caught name s.scopes.length
      (evalStmt program fuel (k + (closuresIn body).length) handler)
      (evalStmt program fuel k body s)
  | .ret value _, s =>
    orRaise (evalOptional program k value s) fun value s => some (.returned value, s)
  | .throw value _, s =>
    orRaise (evalExpr program k value s) fun value s => some (.raised value.toFailure, s)
  | .eval e _, s => orRaise (evalExpr program k e s) fun _ s => some (.next, s)
  | .breakLoop _, s => some (.broke, s)
  | .continueLoop _, s => some (.continued, s)

/-- Evaluates statements one after the other, as long as control goes on. -/
def evalStmts (program : Program Val) (fuel k : Nat) :
    List Stmt → State → Option (Flow × State)
  | [], s => some (.next, s)
  | stmt :: rest, s =>
    match evalStmt program fuel k stmt s with
    | some (.next, s) => evalStmts program fuel (k + (closuresIn stmt).length) rest s
    | other => other

end

/-- The outcome of a body that control has left; there is no loop around a body to leave. -/
def Flow.outcome? : Flow → Option Outcome
  | .next => some (.ok .null)
  | .returned value => some (.ok value)
  | .raised failure => some (.error failure)
  | .broke | .continued => none

/-- **Runs a body** with the variables that it can see: the calls that it makes and its outcome,
if the answers and the fuel last. -/
def runBody (program : Program Val) (fuel k : Nat) (body : Stmt) (visible : Scope)
    (answers : List Outcome) : Option (List StepRequest × Outcome) :=
  match evalStmt program fuel k body { scopes := [visible], answers, calls := [] } with
  | none => none
  | some (flow, s) => flow.outcome?.map fun outcome => (s.calls, outcome)

/-! ## The machine keeps the same scopes -/

/-- The machine looks a name up from the innermost scope, too. -/
theorem nearest?_eq (name : String) (scopes : List Scope) :
    nearest? name scopes = Machine.lookup name scopes := by
  induction scopes with
  | nil => rfl
  | cons scope outer ih =>
    rw [nearest?, List.findSome?_cons, Machine.lookup]
    cases Table.find? name scope with
    | none => exact ih
    | some value => rfl

theorem bindInnermost_eq (name : String) (value : Val) (scopes : List Scope) :
    bindInnermost name value scopes = Machine.declare name value scopes := by
  cases scopes <;> rfl

theorem assignNearest_cons {name : String} {scope : Scope} (value : Val) (outer : List Scope)
    (hfree : Table.contains name scope = false) (hne : outer ≠ []) :
    assignNearest name value (scope :: outer) = scope :: assignNearest name value outer := by
  simp only [assignNearest, List.findIdx?_cons, hfree]
  cases outer.findIdx? (Table.contains name) with
  | some i => simp
  | none =>
    cases outer with
    | nil => exact absurd rfl hne
    | cons next rest => simp [List.getLastD_eq_getLast?]

/-- **An assignment** goes to the scope that binds the name, on both sides. -/
theorem assignNearest_eq (name : String) (value : Val) (scopes : List Scope) :
    assignNearest name value scopes = Machine.assign name value scopes := by
  induction scopes with
  | nil => rfl
  | cons scope outer ih =>
    cases outer with
    | nil =>
      -- bound or not, there is only one scope to assign in
      cases h : Table.contains name scope <;> simp [assignNearest, Machine.assign, h]
    | cons next rest =>
      rw [Machine.assign.eq_def]
      cases h : Table.contains name scope with
      | true => simp [assignNearest, List.findIdx?_cons, h]
      | false =>
        rw [assignNearest_cons value (next :: rest) h (by simp), ih]
        simp [h]

/-- What a closure captures is what is visible where it is made. -/
theorem captured_eq (scopes : List Scope) : captured scopes = Machine.visible scopes := by
  induction scopes with
  | nil => rfl
  | cons scope outer ih => rw [captured, List.foldr_cons, ← captured, ih, Machine.visible]

end DurableFlow.Script.Direct
