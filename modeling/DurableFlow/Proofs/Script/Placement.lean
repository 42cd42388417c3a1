/-
Where the compiler puts things.

A fragment is placed at the address of its cursor, so what the compiler has to get
right are three counts: the instructions of a statement, because the exit of a
loop is written before its body is compiled; the chunks of the closure literals
before a literal, because they give the literal its number; and for each number
the body that its chunk was compiled from.
-/
import DurableFlow.Proofs.Data.Attempts
import DurableFlow.Proofs.Script.Evaluation

set_option autoImplicit false

namespace DurableFlow.Script

open Direct Compile

namespace Compile

/-! ## Fragments -/

@[simp] theorem Fragment.code_append (a b : Fragment) : (a ++ b).code = a.code ++ b.code := rfl

@[simp] theorem Fragment.chunks_append (a b : Fragment) : (a ++ b).chunks = a.chunks ++ b.chunks :=
  rfl

@[simp] theorem Cursor.code_emit (c : Cursor) (instrs : List (Instr Val)) :
    (c.emit instrs).code = instrs.map fun i => (i, c.line) := rfl

@[simp] theorem Cursor.chunks_emit (c : Cursor) (instrs : List (Instr Val)) :
    (c.emit instrs).chunks = [] := rfl

@[simp] theorem Cursor.address_after (c : Cursor) (f : Fragment) :
    (c.after f).address = c.address + f.code.length := rfl

@[simp] theorem Cursor.chunk_after (c : Cursor) (f : Fragment) :
    (c.after f).chunk = c.chunk + f.chunks.length := rfl

@[simp] theorem Cursor.address_skip (c : Cursor) : c.skip.address = c.address + 1 := rfl

@[simp] theorem Cursor.chunk_skip (c : Cursor) : c.skip.chunk = c.chunk := rfl

@[simp] theorem Cursor.address_onLine (c : Cursor) (line : Nat) :
    (c.onLine line).address = c.address := rfl

@[simp] theorem Cursor.chunk_onLine (c : Cursor) (line : Nat) :
    (c.onLine line).chunk = c.chunk := rfl

@[simp] theorem Cursor.address_onSpan (c : Cursor) (span : Text.Span) :
    (c.onSpan span).address = c.address := by
  unfold Cursor.onSpan
  split <;> rfl

@[simp] theorem Cursor.chunk_onSpan (c : Cursor) (span : Text.Span) :
    (c.onSpan span).chunk = c.chunk := by
  unfold Cursor.onSpan
  split <;> rfl

@[simp] theorem code_closureLiteral (program : String) (c : Cursor) (body : Fragment) :
    (closureLiteral program c body).code = [(.makeClosure c.chunk, c.line)] := rfl

@[simp] theorem chunks_closureLiteral (program : String) (c : Cursor) (body : Fragment) :
    (closureLiteral program c body).chunks =
      chunkOf s!"{program}#closure{c.chunk}" body :: body.chunks := rfl

/-! ## The number of instructions -/

mutual

/-- **The instructions of an expression are counted right** beforehand. By the recursion of the compiler. -/
theorem length_expr {program : String} (e : Expr) {c : Cursor} {f : Fragment}
    (h : expr program c e = .ok f) : f.code.length = exprSize e := by
  match e with
  | .null _ | .bool _ _ | .num _ _ | .str _ _ | .ident _ _ =>
    simp only [expr, Except.ok.injEq] at h
    subst h
    rfl
  | .list elements _ =>
    simp only [expr, bind_eq_ok, pure, Except.pure, Except.ok.injEq] at h
    obtain ⟨items, hitems, rfl⟩ := h
    simp [exprSize, length_exprs elements hitems]
  | .call _ args none _ =>
    simp only [expr, bind_eq_ok, pure, Except.pure, Except.ok.injEq] at h
    obtain ⟨given, hgiven, rfl⟩ := h
    simp [exprSize, length_exprs args hgiven]
  | .call _ args (some body) _ =>
    simp only [expr, bind_eq_ok, pure, Except.pure, Except.ok.injEq] at h
    obtain ⟨given, hgiven, inner, -, rfl⟩ := h
    simp [exprSize, length_exprs args hgiven]
  | .closure body _ =>
    simp only [expr, bind_eq_ok, pure, Except.pure, Except.ok.injEq] at h
    obtain ⟨inner, -, rfl⟩ := h
    rfl
  | .unary _ operand _ =>
    simp only [expr, bind_eq_ok, pure, Except.pure, Except.ok.injEq] at h
    obtain ⟨value, hvalue, rfl⟩ := h
    simp [exprSize, length_expr operand hvalue]
  | .binary op left right _ =>
    simp only [expr, bind_eq_ok] at h
    obtain ⟨first, hfirst, h⟩ := h
    have hleft := length_expr left hfirst
    -- `and` and `or` jump over the right operand, and the others compute with it; the sizes agree
    cases op <;>
    · simp only [bind_eq_ok, pure, Except.pure, Except.ok.injEq] at h
      obtain ⟨second, hsecond, rfl⟩ := h
      have hright := length_expr right hsecond
      simp only [exprSize, Fragment.code_append, Cursor.code_emit, List.length_append,
        List.length_map, List.length_cons, List.length_nil]
      omega

theorem length_exprs {program : String} (es : List Expr) {c : Cursor} {f : Fragment}
    (h : exprs program c es = .ok f) : f.code.length = exprsSize es := by
  match es with
  | [] =>
    simp only [exprs, Except.ok.injEq] at h
    subst h
    rfl
  | e :: es =>
    simp only [exprs, bind_eq_ok, pure, Except.pure, Except.ok.injEq] at h
    obtain ⟨first, hfirst, rest, hrest, rfl⟩ := h
    simp [exprsSize, length_expr e hfirst, length_exprs es hrest]

end

theorem length_optional {program : String} (e : Option Expr) {c : Cursor} {f : Fragment}
    (h : optional program c e = .ok f) : f.code.length = optionalSize e := by
  cases e with
  | none =>
    simp only [optional, Except.ok.injEq] at h
    subst h
    rfl
  | some e => exact length_expr e (by simpa only [optional] using h)

/-- What a context has open since the innermost loop began. Without a loop this says nothing,
as no code depends on it then. -/
def Context.Open (ctx : Context) (handlers scopes : Nat) : Prop :=
  ∀ loop, ctx.loop = some loop →
    ctx.handlers = loop.handlers + handlers ∧ ctx.scopes = loop.scopes + scopes

theorem Context.Open.handler {ctx : Context} {handlers scopes : Nat}
    (h : ctx.Open handlers scopes) :
    Context.Open { ctx with handlers := ctx.handlers + 1 } (handlers + 1) scopes := by
  intro loop hloop
  have := h loop hloop
  exact ⟨by simp only; omega, this.2⟩

theorem Context.Open.scope {ctx : Context} {handlers scopes : Nat}
    (h : ctx.Open handlers scopes) :
    Context.Open { ctx with scopes := ctx.scopes + 1 } handlers (scopes + 1) := by
  intro loop hloop
  have := h loop hloop
  exact ⟨this.1, by simp only; omega⟩

/-- A loop begins with nothing open in it. -/
theorem Context.Open.loop (ctx : Context) (start exit : Nat) :
    Context.Open { ctx with
      loop := some { start, exit, handlers := ctx.handlers, scopes := ctx.scopes } } 0 0 := by
  rintro _ ⟨⟩
  exact ⟨rfl, rfl⟩

/-- What leaves a loop takes off all that was opened in it, and then jumps. -/
theorem length_leaveLoop {ctx : Context} {handlers scopes : Nat} (hopen : ctx.Open handlers scopes)
    {c : Cursor} {keyword : String} {target : Loop → Nat} {f : Fragment}
    (h : leaveLoop ctx c keyword target = .ok f) : f.code.length = handlers + scopes + 1 := by
  unfold leaveLoop at h
  split at h
  · cases h
  · next loop hloop =>
    obtain ⟨hh, hs⟩ := hopen loop hloop
    -- what was opened since the loop began is closed, and then comes the jump
    simp only [Except.ok.injEq] at h
    subst h
    simp only [Cursor.code_emit, List.length_map, List.length_append, List.length_replicate,
      List.length_cons, List.length_nil]
    omega

mutual

/-- **The instructions of a statement are counted right** beforehand. -/
theorem length_stmt {program : String} (s : Stmt) {ctx : Context} {handlers scopes : Nat}
    (hopen : ctx.Open handlers scopes) {c : Cursor} {f : Fragment}
    (h : stmt program ctx c s = .ok f) : f.code.length = codeSize handlers scopes s := by
  match s with
  | .block body _ =>
    simp only [stmt, bind_eq_ok, pure, Except.pure, Except.ok.injEq] at h
    obtain ⟨inner, hinner, rfl⟩ := h
    have := length_stmts body hopen.scope hinner
    simp only [codeSize, Fragment.code_append, Cursor.code_emit, List.length_append,
      List.length_map, List.length_cons, List.length_nil]
    omega
  | .bind _ init _ =>
    simp only [stmt, bind_eq_ok, pure, Except.pure, Except.ok.injEq] at h
    obtain ⟨value, hvalue, rfl⟩ := h
    simp [codeSize, length_optional init hvalue]
  | .assign _ value _ | .throw value _ | .eval value _ =>
    simp only [stmt, bind_eq_ok, pure, Except.pure, Except.ok.injEq] at h
    obtain ⟨code, hcode, rfl⟩ := h
    simp [codeSize, length_expr value hcode]
  | .ret value _ =>
    simp only [stmt, bind_eq_ok, pure, Except.pure, Except.ok.injEq] at h
    obtain ⟨code, hcode, rfl⟩ := h
    simp [codeSize, length_optional value hcode]
  | .ifThen test yes none _ =>
    simp only [stmt, bind_eq_ok, pure, Except.pure, Except.ok.injEq] at h
    obtain ⟨t, ht, y, hy, rfl⟩ := h
    have := length_expr test ht
    have := length_stmt yes hopen hy
    simp only [codeSize, Fragment.code_append, Cursor.code_emit, List.length_append,
      List.length_map, List.length_cons, List.length_nil]
    omega
  | .ifThen test yes (some no) _ =>
    simp only [stmt, bind_eq_ok, pure, Except.pure, Except.ok.injEq] at h
    obtain ⟨t, ht, y, hy, n, hn, rfl⟩ := h
    have := length_expr test ht
    have := length_stmt yes hopen hy
    have := length_stmt no hopen hn
    simp only [codeSize, Fragment.code_append, Cursor.code_emit, List.length_append,
      List.length_map, List.length_cons, List.length_nil]
    omega
  -- inside of the loop nothing is open that a jump out of it would have to close
  | .whileDo test body _ =>
    simp only [stmt, bind_eq_ok, pure, Except.pure, Except.ok.injEq] at h
    obtain ⟨t, ht, b, hb, rfl⟩ := h
    have := length_expr test ht
    have := length_stmt body (Context.Open.loop ctx _ _) hb
    simp only [codeSize, Fragment.code_append, Cursor.code_emit, List.length_append,
      List.length_map, List.length_cons, List.length_nil]
    omega
  | .tryCatch body _ handler _ =>
    simp only [stmt, bind_eq_ok, pure, Except.pure, Except.ok.injEq] at h
    obtain ⟨b, hb, g, hg, rfl⟩ := h
    have := length_stmt body hopen.handler hb
    have := length_stmt handler hopen.scope hg
    simp only [codeSize, Fragment.code_append, Cursor.code_emit, List.length_append,
      List.length_map, List.length_cons, List.length_nil]
    omega
  | .breakLoop _ | .continueLoop _ =>
    simp only [stmt] at h
    exact length_leaveLoop hopen h

theorem length_stmts {program : String} (ss : List Stmt) {ctx : Context} {handlers scopes : Nat}
    (hopen : ctx.Open handlers scopes) {c : Cursor} {f : Fragment}
    (h : stmts program ctx c ss = .ok f) : f.code.length = codesSize handlers scopes ss := by
  match ss with
  | [] =>
    simp only [stmts, Except.ok.injEq] at h
    subst h
    rfl
  | s :: ss =>
    simp only [stmts, bind_eq_ok, pure, Except.pure, Except.ok.injEq] at h
    obtain ⟨first, hfirst, rest, hrest, rfl⟩ := h
    simp [codesSize, length_stmt s hopen hfirst, length_stmts ss hopen hrest]

end

/-! ## The chunks of closure literals -/

/-- **Chunks that belong to closure literals**: each is compiled from the body of its literal, and
the numbers go up from `k`. -/
inductive Numbered (program : String) : Nat → List Stmt → List (Chunk Val) → Prop where
  | nil (k : Nat) : Numbered program k [] []
  | cons {k line : Nat} {body : Stmt} {inner : Fragment} {bodies : List Stmt}
      {chunks : List (Chunk Val)}
      (compiled : stmt program {} { address := 0, line, chunk := k + 1 } body = .ok inner)
      (rest : Numbered program (k + 1) bodies chunks) :
      Numbered program k (body :: bodies) (chunkOf s!"{program}#closure{k}" inner :: chunks)

namespace Numbered

variable {program : String} {k : Nat} {bodies : List Stmt} {chunks : List (Chunk Val)}

theorem length_eq (h : Numbered program k bodies chunks) : chunks.length = bodies.length := by
  induction h with
  | nil => rfl
  | cons _ _ ih => simp [ih]

/-- Further literals have the numbers behind. -/
theorem append (h : Numbered program k bodies chunks) {bodies' : List Stmt}
    {chunks' : List (Chunk Val)} (h' : Numbered program (k + chunks.length) bodies' chunks') :
    Numbered program k (bodies ++ bodies') (chunks ++ chunks') := by
  induction h with
  | nil k => exact h'
  | cons compiled _ ih =>
    refine .cons compiled (ih ?_)
    simpa only [List.length_cons, Nat.add_assoc, Nat.add_comm 1] using h'

/-- The chunk of a literal is compiled from its body. -/
theorem chunk_of_body (h : Numbered program k bodies chunks) {i : Nat} {body : Stmt}
    (hbody : bodies[i]? = some body) :
    ∃ (line : Nat) (inner : Fragment),
      stmt program {} { address := 0, line, chunk := k + i + 1 } body = .ok inner ∧
      chunks[i]? = some (chunkOf s!"{program}#closure{k + i}" inner) := by
  induction h generalizing i with
  | nil => simp at hbody
  | @cons k line _ inner _ _ compiled _ ih =>
    cases i with
    | zero =>
      simp only [List.getElem?_cons_zero, Option.some.injEq] at hbody
      subst hbody
      exact ⟨line, inner, compiled, rfl⟩
    -- the number of the first literal is counted up along with its place
    | succ i =>
      obtain ⟨line, inner, hcompiled, hchunk⟩ := ih hbody
      refine ⟨line, inner, ?_, ?_⟩
      · rw [show k + (i + 1) + 1 = k + 1 + i + 1 by omega]
        exact hcompiled
      · rw [show k + (i + 1) = k + 1 + i by omega]
        exact hchunk

end Numbered

mutual

/-- **The chunks of a statement belong to its closure literals**, in the order in which they stand. -/
theorem numbered_stmt {program : String} (s : Stmt) {ctx : Context} {c : Cursor} {f : Fragment}
    (h : stmt program ctx c s = .ok f) : Numbered program c.chunk (closuresIn s) f.chunks := by
  match s with
  | .block body _ =>
    simp only [stmt, bind_eq_ok, pure, Except.pure, Except.ok.injEq] at h
    obtain ⟨inner, hinner, rfl⟩ := h
    simpa [closuresIn] using numbered_stmts body hinner
  | .bind _ none _ | .ret none _ =>
    simp only [stmt, optional, bind_eq_ok, pure, Except.pure, Except.ok.injEq] at h
    obtain ⟨_, rfl, rfl⟩ := h
    exact .nil _
  | .bind _ (some value) _ | .ret (some value) _ | .assign _ value _ | .throw value _
  | .eval value _ =>
    simp only [stmt, optional, bind_eq_ok, pure, Except.pure, Except.ok.injEq] at h
    obtain ⟨code, hcode, rfl⟩ := h
    simpa [closuresIn] using numbered_expr value hcode
  | .ifThen test yes none _ =>
    simp only [stmt, bind_eq_ok, pure, Except.pure, Except.ok.injEq] at h
    obtain ⟨t, ht, y, hy, rfl⟩ := h
    have htest := numbered_expr test ht
    have hyes := numbered_stmt yes hy
    simpa [closuresIn] using htest.append hyes
  | .ifThen test yes (some no) _ =>
    simp only [stmt, bind_eq_ok, pure, Except.pure, Except.ok.injEq] at h
    obtain ⟨t, ht, y, hy, n, hn, rfl⟩ := h
    have htest := numbered_expr test ht
    have hyes := numbered_stmt yes hy
    have hno := numbered_stmt no hn
    -- the literals of the branches are numbered one branch after the other
    have hfirst := htest.append hyes
    simpa [closuresIn] using hfirst.append (by simpa [Nat.add_assoc] using hno)
  | .whileDo test body _ =>
    simp only [stmt, bind_eq_ok, pure, Except.pure, Except.ok.injEq] at h
    obtain ⟨t, ht, b, hb, rfl⟩ := h
    have htest := numbered_expr test ht
    have hbody := numbered_stmt body hb
    simpa [closuresIn] using htest.append hbody
  | .tryCatch body _ handler _ =>
    simp only [stmt, bind_eq_ok, pure, Except.pure, Except.ok.injEq] at h
    obtain ⟨b, hb, g, hg, rfl⟩ := h
    have hbody := numbered_stmt body hb
    have hhandler := numbered_stmt handler hg
    simpa [closuresIn] using hbody.append hhandler
  | .breakLoop _ | .continueLoop _ =>
    simp only [stmt, leaveLoop] at h
    split at h
    · cases h
    · simp only [Except.ok.injEq] at h
      subst h
      exact .nil _

theorem numbered_stmts {program : String} (ss : List Stmt) {ctx : Context} {c : Cursor}
    {f : Fragment} (h : stmts program ctx c ss = .ok f) :
    Numbered program c.chunk (closuresInAll ss) f.chunks := by
  match ss with
  | [] =>
    simp only [stmts, Except.ok.injEq] at h
    subst h
    exact .nil _
  | s :: ss =>
    simp only [stmts, bind_eq_ok, pure, Except.pure, Except.ok.injEq] at h
    obtain ⟨first, hfirst, rest, hrest, rfl⟩ := h
    exact (numbered_stmt s hfirst).append (numbered_stmts ss hrest)

/-- The chunks of an expression belong to the closure literals in it. -/
theorem numbered_expr {program : String} (e : Expr) {c : Cursor} {f : Fragment}
    (h : expr program c e = .ok f) : Numbered program c.chunk (closuresInExpr e) f.chunks := by
  match e with
  | .null _ | .bool _ _ | .num _ _ | .str _ _ | .ident _ _ =>
    simp only [expr, Except.ok.injEq] at h
    subst h
    exact .nil _
  | .list elements _ =>
    simp only [expr, bind_eq_ok, pure, Except.pure, Except.ok.injEq] at h
    obtain ⟨items, hitems, rfl⟩ := h
    simpa [closuresInExpr] using numbered_exprs elements hitems
  | .call _ args none _ =>
    simp only [expr, bind_eq_ok, pure, Except.pure, Except.ok.injEq] at h
    obtain ⟨given, hgiven, rfl⟩ := h
    simpa [closuresInExpr] using numbered_exprs args hgiven
  | .call _ args (some body) _ =>
    simp only [expr, bind_eq_ok, pure, Except.pure, Except.ok.injEq] at h
    obtain ⟨given, hgiven, inner, hinner, rfl⟩ := h
    have hargs := numbered_exprs args hgiven
    -- the body is numbered behind the arguments, and what is in it behind the body
    have hbody := Numbered.cons hinner (numbered_stmt body hinner)
    simpa [closuresInExpr] using hargs.append (by simpa using hbody)
  | .closure body _ =>
    simp only [expr, bind_eq_ok, pure, Except.pure, Except.ok.injEq] at h
    obtain ⟨inner, hinner, rfl⟩ := h
    simpa [closuresInExpr] using Numbered.cons hinner (numbered_stmt body hinner)
  | .unary _ operand _ =>
    simp only [expr, bind_eq_ok, pure, Except.pure, Except.ok.injEq] at h
    obtain ⟨value, hvalue, rfl⟩ := h
    simpa [closuresInExpr] using numbered_expr operand hvalue
  | .binary op left right _ =>
    simp only [expr, bind_eq_ok] at h
    obtain ⟨first, hfirst, h⟩ := h
    have hleft := numbered_expr left hfirst
    cases op <;>
    · simp only [bind_eq_ok, pure, Except.pure, Except.ok.injEq] at h
      obtain ⟨second, hsecond, rfl⟩ := h
      have hright := numbered_expr right hsecond
      simpa [closuresInExpr] using hleft.append (by simpa using hright)

theorem numbered_exprs {program : String} (es : List Expr) {c : Cursor} {f : Fragment}
    (h : exprs program c es = .ok f) :
    Numbered program c.chunk (closuresInExprs es) f.chunks := by
  match es with
  | [] =>
    simp only [exprs, Except.ok.injEq] at h
    subst h
    exact .nil _
  | e :: es =>
    simp only [exprs, bind_eq_ok, pure, Except.pure, Except.ok.injEq] at h
    obtain ⟨first, hfirst, rest, hrest, rfl⟩ := h
    exact (numbered_expr e hfirst).append (numbered_exprs es hrest)

end

/-- As many chunks are made for an expression as there are closure literals in it. -/
theorem length_chunks_expr {program : String} {e : Expr} {c : Cursor} {f : Fragment}
    (h : expr program c e = .ok f) : f.chunks.length = (closuresInExpr e).length :=
  (numbered_expr e h).length_eq

theorem length_chunks_exprs {program : String} {es : List Expr} {c : Cursor} {f : Fragment}
    (h : exprs program c es = .ok f) : f.chunks.length = (closuresInExprs es).length :=
  (numbered_exprs es h).length_eq

theorem length_chunks_stmt {program : String} {s : Stmt} {ctx : Context} {c : Cursor}
    {f : Fragment} (h : stmt program ctx c s = .ok f) :
    f.chunks.length = (closuresIn s).length :=
  (numbered_stmt s h).length_eq

end Compile

end DurableFlow.Script
