/-
What the compiler refuses.

Compiling fails for one reason only, a `break` or a `continue` that is in no loop,
and it carries its answer in the loop of the context: set where the body of a loop
is compiled, forgotten where a closure literal begins. So the question is put to
the tree instead. All the jumps of a script are listed in the order in which they
are compiled, each with the word whether a loop of its own closure is around it,
and the compiler's error is that of the first jump without one.
-/
import DurableFlow.Proofs.Script.Placement

set_option autoImplicit false

namespace DurableFlow.Script

open Direct

/-! ## The jumps of a script -/

/-- A `break` or a `continue`. -/
structure LoopJump where
  keyword : String
  line : Nat
  /-- Whether it stands in the body of a loop that belongs to the same closure literal, or to the
  script where no literal is around it. -/
  inLoop : Bool

/-- Why a jump is refused, if it is. -/
def LoopJump.refused (jump : LoopJump) : Option CompileError :=
  if jump.inLoop then none else some (.outsideLoop jump.keyword jump.line)

mutual

/-- The jumps in a statement, with those in its closure literals, from left to right. The test of a
loop is not in the loop. -/
def jumpsIn (inLoop : Bool) : Stmt → List LoopJump
  | .block body _ => jumpsInAll inLoop body
  | .bind _ none _ | .ret none _ => []
  | .bind _ (some e) _ | .ret (some e) _ | .assign _ e _ | .throw e _ | .eval e _ => jumpsInExpr e
  | .ifThen test yes none _ => jumpsInExpr test ++ jumpsIn inLoop yes
  | .ifThen test yes (some no) _ => jumpsInExpr test ++ jumpsIn inLoop yes ++ jumpsIn inLoop no
  | .whileDo test body _ => jumpsInExpr test ++ jumpsIn true body
  | .tryCatch body _ handler _ => jumpsIn inLoop body ++ jumpsIn inLoop handler
  | .breakLoop span => [{ keyword := "break", line := span.lineNumber, inLoop }]
  | .continueLoop span => [{ keyword := "continue", line := span.lineNumber, inLoop }]

/-- The jumps in some statements. -/
def jumpsInAll (inLoop : Bool) : List Stmt → List LoopJump
  | [] => []
  | s :: ss => jumpsIn inLoop s ++ jumpsInAll inLoop ss

/-- The jumps in the closure literals of an expression: what is around the literal does not count
for them. -/
def jumpsInExpr : Expr → List LoopJump
  | .null _ | .bool _ _ | .num _ _ | .str _ _ | .ident _ _ => []
  | .list elements _ => jumpsInExprs elements
  | .call _ args none _ => jumpsInExprs args
  | .call _ args (some body) _ => jumpsInExprs args ++ jumpsIn false body
  | .closure body _ => jumpsIn false body
  | .unary _ operand _ => jumpsInExpr operand
  | .binary _ left right _ => jumpsInExpr left ++ jumpsInExpr right

/-- The jumps in the closure literals of some expressions. -/
def jumpsInExprs : List Expr → List LoopJump
  | [] => []
  | e :: es => jumpsInExpr e ++ jumpsInExprs es

end

namespace Compile

/-! ## The error of a computation -/

/-- The error that a computation ended with, if it did. -/
def errorOf {α : Type} : Except CompileError α → Option CompileError
  | .error e => some e
  | .ok _ => none

@[simp] theorem errorOf_ok {α : Type} (a : α) : errorOf (.ok a) = none := rfl

@[simp] theorem errorOf_pure {α : Type} (a : α) : errorOf (pure a) = none := rfl

theorem errorOf_eq_none {α : Type} {x : Except CompileError α} :
    errorOf x = none ↔ ∃ a, x = .ok a := by
  cases x with
  | error e => exact ⟨fun h => (by cases h), fun ⟨_, h⟩ => (by cases h)⟩
  | ok a => exact ⟨fun _ => ⟨a, rfl⟩, fun _ => rfl⟩

theorem errorOf_eq_some {α : Type} {x : Except CompileError α} {e : CompileError} :
    errorOf x = some e ↔ x = .error e := by
  cases x with
  | error e' => simp [errorOf]
  | ok a => simp

/-- **The error of two parts** is that of the first one, or else that of the second, if the latter
does not depend on what the first one gave. -/
theorem errorOf_bind {α β : Type} {x : Except CompileError α} {f : α → Except CompileError β}
    {first second : Option CompileError} (hx : errorOf x = first)
    (hf : ∀ a, errorOf (f a) = second) : errorOf (x >>= f) = first.or second := by
  subst hx
  cases x with
  | error e => rfl
  | ok a => exact hf a

/-- A last part that cannot fail. -/
theorem errorOf_bind_pure {α β : Type} {x : Except CompileError α} {g : α → β}
    {first : Option CompileError} (hx : errorOf x = first) :
    errorOf (x >>= fun a => pure (g a)) = first := by
  rw [errorOf_bind hx fun _ => errorOf_pure _, Option.or_none]

/-- The error of the first jump that is refused. -/
def firstRefused (jumps : List LoopJump) : Option CompileError := jumps.findSome? LoopJump.refused

@[simp] theorem firstRefused_nil : firstRefused [] = none := rfl

theorem firstRefused_append (first rest : List LoopJump) :
    firstRefused (first ++ rest) = (firstRefused first).or (firstRefused rest) :=
  List.findSome?_append

theorem firstRefused_eq_none {jumps : List LoopJump} :
    firstRefused jumps = none ↔ ∀ jump ∈ jumps, jump.inLoop = true := by
  simp [firstRefused, List.findSome?_eq_none_iff, LoopJump.refused]

theorem exists_firstRefused {jumps : List LoopJump} :
    (∃ e, firstRefused jumps = some e) ↔ ∃ jump ∈ jumps, jump.inLoop = false := by
  rw [← Option.isSome_iff_exists, ← Option.ne_none_iff_isSome, Ne, firstRefused_eq_none]
  simp

/-- The error is that of a jump without a loop behind jumps that all have one. -/
theorem firstRefused_eq_some {jumps : List LoopJump} {e : CompileError}
    (h : firstRefused jumps = some e) : ∃ before jump behind,
      jumps = before ++ jump :: behind ∧ (∀ earlier ∈ before, earlier.inLoop = true) ∧
      jump.inLoop = false ∧ e = .outsideLoop jump.keyword jump.line := by
  obtain ⟨before, jump, behind, hjumps, hrefused, hbefore⟩ := List.findSome?_eq_some_iff.mp h
  refine ⟨before, jump, behind, hjumps, ?_, ?_⟩
  · simpa [LoopJump.refused] using hbefore
  · cases hloop : jump.inLoop <;> simp_all [LoopJump.refused]

/-- A jump is refused where the context has no loop. -/
theorem errorOf_leaveLoop (ctx : Context) (c : Cursor) (keyword : String) (target : Loop → Nat) :
    errorOf (leaveLoop ctx c keyword target) =
      firstRefused [{ keyword, line := c.line, inLoop := ctx.loop.isSome }] := by
  unfold leaveLoop
  cases hloop : ctx.loop <;> rfl

/-! ## The error of the compiler -/

mutual

/-- **A statement fails to compile with its first refused jump**. What the context has open beside
the loop plays no part, nor does the cursor. -/
theorem errorOf_stmt (program : String) (s : Stmt) (ctx : Context) (c : Cursor) :
    errorOf (stmt program ctx c s) = firstRefused (jumpsIn ctx.loop.isSome s) := by
  match s with
  | .block body _ =>
    simp only [stmt, jumpsIn]
    exact errorOf_bind_pure (errorOf_stmts program body _ _)
  | .bind _ none _ | .ret none _ => rfl
  | .bind _ (some value) _ | .ret (some value) _ =>
    simp only [stmt, optional, jumpsIn]
    exact errorOf_bind_pure (errorOf_expr program value _)
  | .assign _ value _ | .throw value _ | .eval value _ =>
    simp only [stmt, jumpsIn]
    exact errorOf_bind_pure (errorOf_expr program value _)
  | .ifThen test yes none _ =>
    simp only [stmt, jumpsIn, firstRefused_append]
    refine errorOf_bind (errorOf_expr program test _) fun t => ?_
    exact errorOf_bind_pure (errorOf_stmt program yes ctx _)
  | .ifThen test yes (some no) _ =>
    simp only [stmt, jumpsIn, firstRefused_append, Option.or_assoc]
    refine errorOf_bind (errorOf_expr program test _) fun t => ?_
    refine errorOf_bind (errorOf_stmt program yes ctx _) fun y => ?_
    exact errorOf_bind_pure (errorOf_stmt program no ctx _)
  | .whileDo test body _ =>
    simp only [stmt, jumpsIn, firstRefused_append]
    refine errorOf_bind (errorOf_expr program test _) fun t => ?_
    exact errorOf_bind_pure (errorOf_stmt program body _ _)
  | .tryCatch body _ handler _ =>
    simp only [stmt, jumpsIn, firstRefused_append]
    refine errorOf_bind (errorOf_stmt program body _ _) fun b => ?_
    exact errorOf_bind_pure (errorOf_stmt program handler _ _)
  | .breakLoop _ | .continueLoop _ => exact errorOf_leaveLoop ctx _ _ _

theorem errorOf_stmts (program : String) (ss : List Stmt) (ctx : Context) (c : Cursor) :
    errorOf (stmts program ctx c ss) = firstRefused (jumpsInAll ctx.loop.isSome ss) := by
  match ss with
  | [] => rfl
  | s :: ss =>
    simp only [stmts, jumpsInAll, firstRefused_append]
    refine errorOf_bind (errorOf_stmt program s ctx c) fun first => ?_
    exact errorOf_bind_pure (errorOf_stmts program ss ctx _)

theorem errorOf_expr (program : String) (e : Expr) (c : Cursor) :
    errorOf (expr program c e) = firstRefused (jumpsInExpr e) := by
  match e with
  | .null _ | .bool _ _ | .num _ _ | .str _ _ | .ident _ _ => rfl
  | .list elements _ =>
    simp only [expr, jumpsInExpr]
    exact errorOf_bind_pure (errorOf_exprs program elements _)
  | .call _ args none _ =>
    simp only [expr, jumpsInExpr]
    exact errorOf_bind_pure (errorOf_exprs program args _)
  | .call _ args (some body) _ =>
    simp only [expr, jumpsInExpr, firstRefused_append]
    refine errorOf_bind (errorOf_exprs program args _) fun given => ?_
    -- A literal begins with an empty context, so no loop is around its body.
    exact errorOf_bind_pure (errorOf_stmt program body {} _)
  | .closure body _ =>
    simp only [expr, jumpsInExpr]
    exact errorOf_bind_pure (errorOf_stmt program body {} _)
  | .unary _ operand _ =>
    simp only [expr, jumpsInExpr]
    exact errorOf_bind_pure (errorOf_expr program operand _)
  | .binary op left right _ =>
    simp only [expr, jumpsInExpr, firstRefused_append]
    refine errorOf_bind (errorOf_expr program left _) fun first => ?_
    cases op <;> exact errorOf_bind_pure (errorOf_expr program right _)

theorem errorOf_exprs (program : String) (es : List Expr) (c : Cursor) :
    errorOf (exprs program c es) = firstRefused (jumpsInExprs es) := by
  match es with
  | [] => rfl
  | e :: es =>
    simp only [exprs, jumpsInExprs, firstRefused_append]
    refine errorOf_bind (errorOf_expr program e c) fun first => ?_
    exact errorOf_bind_pure (errorOf_exprs program es _)

end

end Compile

/-- **A script fails to compile with its first refused jump.** -/
theorem errorOf_compile (name : String) (script : ParsedScript) :
    Compile.errorOf (compile name script) = Compile.firstRefused (jumpsIn false script.body) :=
  Compile.errorOf_bind_pure (Compile.errorOf_stmt name script.body {} _)

end DurableFlow.Script
