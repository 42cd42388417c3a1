/-
The chunks of a script and its closure literals.

A chunk is made for every closure literal, and the numbers follow the text: a
literal comes before the literals in its own body, and these before what stands
behind it. The number is written twice, in the place of the chunk and in the
instruction that makes the closure, and nothing in the compiler compares the two.
What ties them together is that a literal's number is the count of the literals
before it, on both sides. So the literals that stand directly in a body are listed
with their numbers, the instructions of its chunk are read off that list, and the
lists of all bodies together have every literal in them once.
-/
import Mathlib.Data.List.Nodup
import Mathlib.Data.List.Pairwise
import DurableFlow.Proofs.Script.Jumps
import DurableFlow.Proofs.Script.Verification

set_option autoImplicit false

namespace DurableFlow.Script

open Direct

/-! ## The literals that stand directly in a body -/

mutual

/-- The closure literals that stand in a statement but in no other literal of it, each with its
number where the first one has number `k`. -/
def literalsOf (k : Nat) : Stmt → List (Stmt × Nat)
  | .block body _ => literalsOfAll k body
  | .bind _ none _ | .ret none _ | .breakLoop _ | .continueLoop _ => []
  | .bind _ (some e) _ | .ret (some e) _ | .assign _ e _ | .throw e _ | .eval e _ =>
    literalsOfExpr k e
  | .ifThen test yes none _ =>
    literalsOfExpr k test ++ literalsOf (k + (closuresInExpr test).length) yes
  | .ifThen test yes (some no) _ =>
    literalsOfExpr k test ++ literalsOf (k + (closuresInExpr test).length) yes
      ++ literalsOf (k + (closuresInExpr test ++ closuresIn yes).length) no
  | .whileDo test body _ =>
    literalsOfExpr k test ++ literalsOf (k + (closuresInExpr test).length) body
  | .tryCatch body _ handler _ =>
    literalsOf k body ++ literalsOf (k + (closuresIn body).length) handler

/-- The closure literals that stand directly in some statements. -/
def literalsOfAll (k : Nat) : List Stmt → List (Stmt × Nat)
  | [] => []
  | s :: ss => literalsOf k s ++ literalsOfAll (k + (closuresIn s).length) ss

/-- The closure literals that stand directly in an expression. -/
def literalsOfExpr (k : Nat) : Expr → List (Stmt × Nat)
  | .null _ | .bool _ _ | .num _ _ | .str _ _ | .ident _ _ => []
  | .list elements _ => literalsOfExprs k elements
  | .call _ args none _ => literalsOfExprs k args
  | .call _ args (some body) _ =>
    literalsOfExprs k args ++ [(body, k + (closuresInExprs args).length)]
  | .closure body _ => [(body, k)]
  | .unary _ operand _ => literalsOfExpr k operand
  | .binary _ left right _ =>
    literalsOfExpr k left ++ literalsOfExpr (k + (closuresInExpr left).length) right

/-- The closure literals that stand directly in some expressions. -/
def literalsOfExprs (k : Nat) : List Expr → List (Stmt × Nat)
  | [] => []
  | e :: es => literalsOfExpr k e ++ literalsOfExprs (k + (closuresInExpr e).length) es

end

/-- The literals that stand directly in the bodies with the numbers `k`, `k + 1` and so on. A body
comes before its literals, so the first one of these has the number behind it. -/
def literalsWithin (k : Nat) (bodies : List Stmt) : List (Stmt × Nat) :=
  (bodies.zipIdx (k + 1)).flatMap fun body => literalsOf body.2 body.1

theorem literalsWithin_cons (k : Nat) (body : Stmt) (bodies : List Stmt) :
    literalsWithin k (body :: bodies) = literalsOf (k + 1) body ++ literalsWithin (k + 1) bodies := by
  rw [literalsWithin, List.zipIdx_cons, List.flatMap_cons, literalsWithin]

theorem literalsWithin_append (k : Nat) (first rest : List Stmt) :
    literalsWithin k (first ++ rest) =
      literalsWithin k first ++ literalsWithin (k + first.length) rest := by
  simp only [literalsWithin, List.zipIdx_append, List.flatMap_append, Nat.add_right_comm k 1]

/-! ## Every literal stands in one body -/

/-- What is found for two parts, first directly and then within. -/
theorem literals_perm_append {k : Nat} {direct direct' : List (Stmt × Nat)}
    {bodies bodies' : List Stmt}
    (h : (direct ++ literalsWithin k bodies).Perm (bodies.zipIdx k))
    (h' : (direct' ++ literalsWithin (k + bodies.length) bodies').Perm
      (bodies'.zipIdx (k + bodies.length))) :
    (direct ++ direct' ++ literalsWithin k (bodies ++ bodies')).Perm ((bodies ++ bodies').zipIdx k) := by
  have hswap : (direct' ++ literalsWithin k bodies).Perm (literalsWithin k bodies ++ direct') :=
    List.perm_append_comm
  have hboth := h.append h'
  rw [literalsWithin_append, List.zipIdx_append]
  refine List.Perm.trans ?_ hboth
  simpa only [List.append_assoc] using
    (hswap.append_right (literalsWithin (k + bodies.length) bodies')).append_left direct

/-- A literal stands directly in what it is, and its own ones stand in its body. -/
theorem literals_perm_literal {k : Nat} {body : Stmt}
    (h : (literalsOf (k + 1) body ++ literalsWithin (k + 1) (closuresIn body)).Perm
      ((closuresIn body).zipIdx (k + 1))) :
    ([(body, k)] ++ literalsWithin k (body :: closuresIn body)).Perm
      ((body :: closuresIn body).zipIdx k) := by
  rw [literalsWithin_cons, List.zipIdx_cons]
  exact h.cons (body, k)

mutual

/-- **Every literal of a statement stands directly in one place**: in the statement or in one of the
literals of it. -/
theorem literals_perm_stmt (s : Stmt) (k : Nat) :
    (literalsOf k s ++ literalsWithin k (closuresIn s)).Perm ((closuresIn s).zipIdx k) := by
  match s with
  | .block body _ => simpa only [literalsOf, closuresIn] using literals_perm_stmts body k
  | .bind _ none _ | .ret none _ | .breakLoop _ | .continueLoop _ => exact .nil
  | .bind _ (some e) _ | .ret (some e) _ | .assign _ e _ | .throw e _ | .eval e _ =>
    simpa only [literalsOf, closuresIn] using literals_perm_expr e k
  | .ifThen test yes none _ | .whileDo test yes _ =>
    simp only [literalsOf, closuresIn]
    exact literals_perm_append (literals_perm_expr test k) (literals_perm_stmt yes _)
  | .ifThen test yes (some no) _ =>
    simp only [literalsOf, closuresIn]
    have hfirst := literals_perm_append (literals_perm_expr test k) (literals_perm_stmt yes _)
    exact literals_perm_append hfirst (literals_perm_stmt no _)
  | .tryCatch body _ handler _ =>
    simp only [literalsOf, closuresIn]
    exact literals_perm_append (literals_perm_stmt body k) (literals_perm_stmt handler _)

theorem literals_perm_stmts (ss : List Stmt) (k : Nat) :
    (literalsOfAll k ss ++ literalsWithin k (closuresInAll ss)).Perm
      ((closuresInAll ss).zipIdx k) := by
  match ss with
  | [] => exact .nil
  | s :: ss =>
    simp only [literalsOfAll, closuresInAll]
    exact literals_perm_append (literals_perm_stmt s k) (literals_perm_stmts ss _)

theorem literals_perm_expr (e : Expr) (k : Nat) :
    (literalsOfExpr k e ++ literalsWithin k (closuresInExpr e)).Perm
      ((closuresInExpr e).zipIdx k) := by
  match e with
  | .null _ | .bool _ _ | .num _ _ | .str _ _ | .ident _ _ => exact .nil
  | .list elements _ =>
    simpa only [literalsOfExpr, closuresInExpr] using literals_perm_exprs elements k
  | .call _ args none _ =>
    simpa only [literalsOfExpr, closuresInExpr] using literals_perm_exprs args k
  | .call _ args (some body) _ =>
    simp only [literalsOfExpr, closuresInExpr]
    have hbody := literals_perm_literal (literals_perm_stmt body (k + (closuresInExprs args).length + 1))
    exact literals_perm_append (literals_perm_exprs args k) hbody
  | .closure body _ =>
    simp only [literalsOfExpr, closuresInExpr]
    exact literals_perm_literal (literals_perm_stmt body (k + 1))
  | .unary _ operand _ =>
    simpa only [literalsOfExpr, closuresInExpr] using literals_perm_expr operand k
  | .binary _ left right _ =>
    simp only [literalsOfExpr, closuresInExpr]
    exact literals_perm_append (literals_perm_expr left k) (literals_perm_expr right _)

theorem literals_perm_exprs (es : List Expr) (k : Nat) :
    (literalsOfExprs k es ++ literalsWithin k (closuresInExprs es)).Perm
      ((closuresInExprs es).zipIdx k) := by
  match es with
  | [] => exact .nil
  | e :: es =>
    simp only [literalsOfExprs, closuresInExprs]
    exact literals_perm_append (literals_perm_expr e k) (literals_perm_exprs es _)

end

/-! ## The instructions that make closures -/

/-- The number of the closure literal that an instruction makes a value of. -/
def Instr.literal? {V : Type} : Instr V → Option Nat
  | .makeClosure chunk => some chunk
  | _ => none

/-- The numbers of the closure literals that a chunk makes values of, once for each instruction that
does and in the order of the code. -/
def Chunk.literals (chunk : Chunk Val) : List Nat := chunk.code.filterMap Instr.literal?

namespace Compile

/-- The numbers of the closure literals that a fragment makes values of. -/
def Fragment.literals (f : Fragment) : List Nat := f.code.filterMap fun i => i.1.literal?

@[simp] theorem Fragment.literals_append (a b : Fragment) :
    (a ++ b).literals = a.literals ++ b.literals := List.filterMap_append

@[simp] theorem Cursor.literals_emit (c : Cursor) (instrs : List (Instr Val)) :
    (c.emit instrs).literals = instrs.filterMap Instr.literal? := List.filterMap_map

@[simp] theorem literals_closureLiteral (program : String) (c : Cursor) (body : Fragment) :
    (closureLiteral program c body).literals = [c.chunk] := rfl

/-- What returns null at the end of a chunk makes no closure. -/
theorem literals_chunkOf (name : String) (f : Fragment) : (chunkOf name f).literals = f.literals := by
  simp [Chunk.literals, Fragment.literals, chunkOf, Instr.literal?, List.filterMap_map, Function.comp_def]

/-- Leaving a loop makes no closure. -/
theorem literals_leaveLoop {ctx : Context} {c : Cursor} {keyword : String} {target : Loop → Nat}
    {f : Fragment} (h : leaveLoop ctx c keyword target = .ok f) : f.literals = [] := by
  unfold leaveLoop at h
  split at h
  · cases h
  · simp only [Except.ok.injEq] at h
    subst h
    simp [Instr.literal?]

mutual

/-- **A statement makes the closures that stand directly in it**, each with its number. -/
theorem literals_stmt {program : String} (s : Stmt) {ctx : Context} {c : Cursor} {f : Fragment}
    (h : stmt program ctx c s = .ok f) : f.literals = (literalsOf c.chunk s).map Prod.snd := by
  match s with
  | .block body _ =>
    simp only [stmt, bind_eq_ok, pure, Except.pure, Except.ok.injEq] at h
    obtain ⟨inner, hinner, rfl⟩ := h
    simpa [literalsOf, List.filterMap_cons, Instr.literal?] using literals_stmts body hinner
  | .bind _ none _ | .ret none _ =>
    simp only [stmt, optional, bind_eq_ok, pure, Except.pure, Except.ok.injEq] at h
    obtain ⟨_, rfl, rfl⟩ := h
    rfl
  | .bind _ (some value) _ | .ret (some value) _ | .assign _ value _ | .throw value _
  | .eval value _ =>
    simp only [stmt, optional, bind_eq_ok, pure, Except.pure, Except.ok.injEq] at h
    obtain ⟨code, hcode, rfl⟩ := h
    simpa [literalsOf, List.filterMap_cons, Instr.literal?] using literals_expr value hcode
  | .ifThen test yes none _ =>
    simp only [stmt, bind_eq_ok, pure, Except.pure, Except.ok.injEq] at h
    obtain ⟨t, ht, y, hy, rfl⟩ := h
    simp [literalsOf, List.filterMap_cons, Instr.literal?, literals_expr test ht,
      literals_stmt yes hy, length_chunks_expr ht]
  | .ifThen test yes (some no) _ =>
    simp only [stmt, bind_eq_ok, pure, Except.pure, Except.ok.injEq] at h
    obtain ⟨t, ht, y, hy, n, hn, rfl⟩ := h
    simp [literalsOf, List.filterMap_cons, Instr.literal?, literals_expr test ht, literals_stmt yes hy,
      literals_stmt no hn, length_chunks_expr ht, length_chunks_stmt hy, Nat.add_assoc]
  | .whileDo test body _ =>
    simp only [stmt, bind_eq_ok, pure, Except.pure, Except.ok.injEq] at h
    obtain ⟨t, ht, b, hb, rfl⟩ := h
    simp [literalsOf, List.filterMap_cons, Instr.literal?, literals_expr test ht,
      literals_stmt body hb, length_chunks_expr ht]
  | .tryCatch body _ handler _ =>
    simp only [stmt, bind_eq_ok, pure, Except.pure, Except.ok.injEq] at h
    obtain ⟨b, hb, g, hg, rfl⟩ := h
    simp [literalsOf, List.filterMap_cons, Instr.literal?, literals_stmt body hb, literals_stmt handler hg,
      length_chunks_stmt hb]
  | .breakLoop _ | .continueLoop _ =>
    simp only [stmt] at h
    exact literals_leaveLoop h

theorem literals_stmts {program : String} (ss : List Stmt) {ctx : Context} {c : Cursor}
    {f : Fragment} (h : stmts program ctx c ss = .ok f) :
    f.literals = (literalsOfAll c.chunk ss).map Prod.snd := by
  match ss with
  | [] =>
    simp only [stmts, Except.ok.injEq] at h
    subst h
    rfl
  | s :: ss =>
    simp only [stmts, bind_eq_ok, pure, Except.pure, Except.ok.injEq] at h
    obtain ⟨first, hfirst, rest, hrest, rfl⟩ := h
    simp [literalsOfAll, literals_stmt s hfirst, literals_stmts ss hrest, length_chunks_stmt hfirst]

theorem literals_expr {program : String} (e : Expr) {c : Cursor} {f : Fragment}
    (h : expr program c e = .ok f) : f.literals = (literalsOfExpr c.chunk e).map Prod.snd := by
  match e with
  | .null _ | .bool _ _ | .num _ _ | .str _ _ | .ident _ _ =>
    simp only [expr, Except.ok.injEq] at h
    subst h
    rfl
  | .list elements _ =>
    simp only [expr, bind_eq_ok, pure, Except.pure, Except.ok.injEq] at h
    obtain ⟨items, hitems, rfl⟩ := h
    simpa [literalsOfExpr, List.filterMap_cons, Instr.literal?] using literals_exprs elements hitems
  | .call _ args none _ =>
    simp only [expr, bind_eq_ok, pure, Except.pure, Except.ok.injEq] at h
    obtain ⟨given, hgiven, rfl⟩ := h
    simpa [literalsOfExpr, List.filterMap_cons, Instr.literal?] using literals_exprs args hgiven
  | .call _ args (some body) _ =>
    simp only [expr, bind_eq_ok, pure, Except.pure, Except.ok.injEq] at h
    obtain ⟨given, hgiven, inner, -, rfl⟩ := h
    simp [literalsOfExpr, List.filterMap_cons, Instr.literal?, literals_exprs args hgiven,
      length_chunks_exprs hgiven]
  | .closure body _ =>
    simp only [expr, bind_eq_ok, pure, Except.pure, Except.ok.injEq] at h
    obtain ⟨inner, -, rfl⟩ := h
    simp [literalsOfExpr]
  | .unary _ operand _ =>
    simp only [expr, bind_eq_ok, pure, Except.pure, Except.ok.injEq] at h
    obtain ⟨value, hvalue, rfl⟩ := h
    simpa [literalsOfExpr, List.filterMap_cons, Instr.literal?] using literals_expr operand hvalue
  | .binary op left right _ =>
    simp only [expr, bind_eq_ok] at h
    obtain ⟨first, hfirst, h⟩ := h
    have hleft := literals_expr left hfirst
    cases op <;>
    · simp only [bind_eq_ok, pure, Except.pure, Except.ok.injEq] at h
      obtain ⟨second, hsecond, rfl⟩ := h
      have hright := literals_expr right hsecond
      simp [literalsOfExpr, List.filterMap_cons, Instr.literal?, hleft, hright, length_chunks_expr hfirst]

theorem literals_exprs {program : String} (es : List Expr) {c : Cursor} {f : Fragment}
    (h : exprs program c es = .ok f) : f.literals = (literalsOfExprs c.chunk es).map Prod.snd := by
  match es with
  | [] =>
    simp only [exprs, Except.ok.injEq] at h
    subst h
    rfl
  | e :: es =>
    simp only [exprs, bind_eq_ok, pure, Except.pure, Except.ok.injEq] at h
    obtain ⟨first, hfirst, rest, hrest, rfl⟩ := h
    simp [literalsOfExprs, literals_expr e hfirst, literals_exprs es hrest, length_chunks_expr hfirst]

end

end Compile

/-! ## The chunks of a script -/

/-- The name of a chunk: the script's own one, or one made of it and the literal's number. -/
def chunkName (name : String) (k : Nat) : String := if k = 0 then name else s!"{name}#closure{k}"

/-- **A chunk for every closure literal**: the literals have the numbers from one up in the order of
the text, the script itself has number zero. -/
structure ChunkPerLiteral (name : String) (script : ParsedScript) (program : Program Val) : Prop where
  length_eq : program.chunks.length = (closuresIn script.body).length + 1
  /-- Each chunk is compiled from the body of its number and makes the closures that stand directly
  in it, with their numbers. -/
  compiled : ∀ k body, script.bodies[k]? = some body → ∃ line f,
    Compile.stmt name {} { address := 0, line, chunk := k + 1 } body = .ok f ∧
    program.chunks[k]? = some (Compile.chunkOf (chunkName name k) f) ∧
    (Compile.chunkOf (chunkName name k) f).literals = (literalsOf (k + 1) body).map Prod.snd
  /-- Each literal is made by one instruction only, in the chunk of the body that it stands in. -/
  once : ∀ n literal, (closuresIn script.body)[n]? = some literal → ∃ p body chunk,
    p ≤ n ∧ script.bodies[p]? = some body ∧ (literal, n + 1) ∈ literalsOf (p + 1) body ∧
    program.chunks[p]? = some chunk ∧ chunk.literals.count (n + 1) = 1 ∧
    ∀ (q : Nat) (other : Chunk Val), q ≠ p → program.chunks[q]? = some other → n + 1 ∉ other.literals
  lines : ∀ chunk ∈ program.chunks, chunk.lines.length = chunk.code.length

/-- The bodies of a script with their literals hold each literal of it once. -/
theorem literals_perm_script (script : ParsedScript) :
    (literalsWithin 0 script.bodies).Perm ((closuresIn script.body).zipIdx 1) := by
  rw [ParsedScript.bodies, literalsWithin_cons]
  exact literals_perm_stmt script.body 1

/-- A body with its number, as `literalsWithin` goes through them. -/
theorem mem_numbered_bodies {bodies : List Stmt} {p : Nat} {body : Stmt} :
    (body, p + 1) ∈ bodies.zipIdx 1 ↔ bodies[p]? = some body := by
  rw [Nat.add_comm p 1]
  exact List.mk_add_mem_zipIdx_iff_getElem?

theorem literal_stands {script : ParsedScript} {n : Nat} {literal : Stmt}
    (h : (closuresIn script.body)[n]? = some literal) :
    ∃ p body, script.bodies[p]? = some body ∧ (literal, n + 1) ∈ literalsOf (p + 1) body := by
  have hmem := (literals_perm_script script).mem_iff.mpr (mem_numbered_bodies.mpr h)
  obtain ⟨⟨body, k⟩, hbody, hliteral⟩ := List.mem_flatMap.mp hmem
  obtain ⟨p, rfl⟩ : ∃ p, k = p + 1 := ⟨k - 1, by have := List.le_snd_of_mem_zipIdx hbody; omega⟩
  exact ⟨p, body, mem_numbered_bodies.mp hbody, hliteral⟩

/-- No number is given twice, neither in one body nor in two. -/
theorem literals_apart (script : ParsedScript) :
    (∀ p body, script.bodies[p]? = some body →
      ((literalsOf (p + 1) body).map Prod.snd).Nodup) ∧
    ∀ p body q other, script.bodies[p]? = some body → script.bodies[q]? = some other → q ≠ p →
      ((literalsOf (p + 1) body).map Prod.snd).Disjoint ((literalsOf (q + 1) other).map Prod.snd) := by
  have hnodup : ((literalsWithin 0 script.bodies).map Prod.snd).Nodup := by
    rw [((literals_perm_script script).map Prod.snd).nodup_iff, List.zipIdx_map_snd]
    exact List.nodup_range'
  rw [literalsWithin, List.map_flatMap, List.nodup_flatMap] at hnodup
  obtain ⟨hone, htwo⟩ := hnodup
  refine ⟨fun p body hbody => hone _ (mem_numbered_bodies.mpr hbody), ?_⟩
  intro p body q other hbody hother hne
  have hsymm : Std.Symm (Function.onFun List.Disjoint
      fun body : Stmt × Nat => (literalsOf body.2 body.1).map Prod.snd) := ⟨fun _ _ h n hn hn' => h hn' hn⟩
  exact htwo.forall (mem_numbered_bodies.mpr hbody) (mem_numbered_bodies.mpr hother)
    fun h => hne (by simpa using (congrArg Prod.snd h).symm)

/-- The numbers of the literals in a body are greater than its own. -/
theorem le_of_mem_literalsOf {k n : Nat} {s literal : Stmt} (h : (literal, n) ∈ literalsOf k s) :
    k ≤ n :=
  List.le_snd_of_mem_zipIdx
    ((literals_perm_stmt s k).mem_iff.mp (List.mem_append_left _ h))

/-- The chunk of a number is compiled from the body of that number. -/
theorem chunk_of_compiled_body {name : String} {script : ParsedScript} {program : Program Val}
    (h : compile name script = .ok program) {k : Nat} {body : Stmt}
    (hbody : script.bodies[k]? = some body) : ∃ line f,
      Compile.stmt name {} { address := 0, line, chunk := k + 1 } body = .ok f ∧
      program.chunks[k]? = some (Compile.chunkOf (chunkName name k) f) := by
  simp only [compile, bind_eq_ok, pure, Except.pure, Except.ok.injEq] at h
  obtain ⟨main, hmain, rfl⟩ := h
  cases k with
  | zero =>
    cases hbody
    exact ⟨0, main, hmain, rfl⟩
  | succ k =>
    have hnumbered := Compile.numbered_stmt script.body hmain
    obtain ⟨line, f, hf, hchunk⟩ := hnumbered.chunk_of_body hbody
    rw [Nat.add_comm 1 k] at hf hchunk
    exact ⟨line, f, hf, hchunk⟩

/-- A chunk makes the closures that stand directly in the body it was compiled from. -/
theorem literals_compiled {program title : String} {line k : Nat} {body : Stmt}
    {f : Compile.Fragment}
    (h : Compile.stmt program {} { address := 0, line, chunk := k + 1 } body = .ok f) :
    (Compile.chunkOf title f).literals = (literalsOf (k + 1) body).map Prod.snd := by
  rw [Compile.literals_chunkOf, Compile.literals_stmt _ h]

/-- **What the chunks of a compiled script are.** -/
theorem chunkPerLiteral_compile {name : String} {script : ParsedScript} {program : Program Val}
    (h : compile name script = .ok program) : ChunkPerLiteral name script program := by
  have hlength : program.chunks.length = script.bodies.length := (verified_compile h).length_eq.symm
  -- Also the other way round: what is in a chunk is known from a body.
  have hfrom : ∀ k chunk, program.chunks[k]? = some chunk → ∃ body f,
      script.bodies[k]? = some body ∧ chunk = Compile.chunkOf (chunkName name k) f ∧
      chunk.literals = (literalsOf (k + 1) body).map Prod.snd := by
    intro k chunk hchunk
    have hk : k < script.bodies.length := hlength ▸ (List.getElem?_eq_some_iff.mp hchunk).1
    obtain ⟨line, f, hf, hplaced⟩ := chunk_of_compiled_body h (List.getElem?_eq_getElem hk)
    rw [hchunk, Option.some.injEq] at hplaced
    exact ⟨_, f, List.getElem?_eq_getElem hk, hplaced, hplaced ▸ literals_compiled hf⟩
  refine { length_eq := hlength, compiled := ?_, once := ?_, lines := ?_ }
  · intro k body hbody
    obtain ⟨line, f, hf, hchunk⟩ := chunk_of_compiled_body h hbody
    exact ⟨line, f, hf, hchunk, literals_compiled hf⟩
  · intro n literal hliteral
    obtain ⟨p, body, hbody, hmem⟩ := literal_stands hliteral
    obtain ⟨hone, htwo⟩ := literals_apart script
    obtain ⟨line, f, hf, hchunk⟩ := chunk_of_compiled_body h hbody
    have hnumber : n + 1 ∈ (literalsOf (p + 1) body).map Prod.snd := List.mem_map_of_mem hmem
    refine ⟨p, body, _, Nat.le_of_succ_le_succ (le_of_mem_literalsOf hmem), hbody, hmem, hchunk, ?_, ?_⟩
    · rw [literals_compiled hf]
      exact List.count_eq_one_of_mem (hone p body hbody) hnumber
    · intro q other hne hother
      obtain ⟨body', _, hbody', -, hliterals⟩ := hfrom q other hother
      rw [hliterals]
      exact htwo p body q body' hbody hbody' hne hnumber
  · intro chunk hmem
    obtain ⟨k, hk⟩ := List.mem_iff_getElem?.mp hmem
    obtain ⟨_, f, -, rfl, -⟩ := hfrom k chunk hk
    simp [Compile.chunkOf]

/-- **The compiler refuses the misplaced `break` and `continue`, and nothing else.** It fails exactly
if a jump of the script is in no loop of its own closure, and the error is that of the first such
jump; otherwise there is a program with a chunk for every closure literal. -/
theorem compile_refuses_misplaced_jumps (name : String) (script : ParsedScript) :
    ((∃ e, compile name script = .error e) ↔
      ∃ jump ∈ jumpsIn false script.body, jump.inLoop = false) ∧
    (∀ e, compile name script = .error e → ∃ before jump behind,
      jumpsIn false script.body = before ++ jump :: behind ∧
      (∀ earlier ∈ before, earlier.inLoop = true) ∧ jump.inLoop = false ∧
      e = .outsideLoop jump.keyword jump.line) ∧
    ((∀ jump ∈ jumpsIn false script.body, jump.inLoop = true) →
      ∃ program, compile name script = .ok program ∧ ChunkPerLiteral name script program) := by
  have herror := errorOf_compile name script
  refine ⟨?_, ?_, ?_⟩
  · rw [← Compile.exists_firstRefused, ← herror]
    exact exists_congr fun e => Compile.errorOf_eq_some.symm
  · intro e he
    rw [Compile.errorOf_eq_some.mpr he] at herror
    exact Compile.firstRefused_eq_some herror.symm
  · intro hall
    rw [Compile.firstRefused_eq_none.mpr hall] at herror
    obtain ⟨program, hprogram⟩ := Compile.errorOf_eq_none.mp herror
    exact ⟨program, hprogram, chunkPerLiteral_compile hprogram⟩

end DurableFlow.Script
