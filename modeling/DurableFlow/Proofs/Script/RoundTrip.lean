/-
Parsing undoes rendering.

By induction on statements and expressions every one of them that the language can
express is read back from its text. The text of a whole script is therefore parsed, into
the very statements that it was written from; so no two scripts share a text, and each
has one.
-/
import DurableFlow.Proofs.Script.Statements

set_option autoImplicit false

namespace DurableFlow.Script

open Text Text.Peg Grammar
open scoped Members

/-! ## Every statement and every expression -/

mutual

/-- **Every statement of the language is read back.** -/
theorem Stmt.WellFormed.readsBack : (s : Stmt) → s.WellFormed → s.ReadsBack
  | .block body span, h => by
    rw [Stmt.WellFormed] at h
    exact readsBack_block (WellFormedStmts.readsBack body h) span
  | .bind name none span, h => by
    rw [Stmt.WellFormed] at h
    exact readsBack_bind_none h span
  | .bind name (some value) span, h => by
    rw [Stmt.WellFormed] at h
    exact readsBack_bind h.1 (Expr.WellFormed.readsBack value h.2) span
  | .assign name value span, h => by
    rw [Stmt.WellFormed] at h
    exact readsBack_assign h.1 (Expr.WellFormed.readsBack value h.2) span
  | .ifThen test yes none span, h => by
    rw [Stmt.WellFormed] at h
    obtain ⟨htest, hblock, hyes⟩ := h
    exact readsBack_ifThen_none span (Expr.WellFormed.readsBack test htest) hblock
      ((Stmt.WellFormed.readsBack yes hyes).braced hblock)
  | .ifThen test yes (some no) span, h => by
    rw [Stmt.WellFormed] at h
    obtain ⟨htest, ⟨hblock, hyes⟩, hkind, hno⟩ := h
    exact readsBack_ifThen span (Expr.WellFormed.readsBack test htest) hblock
      ((Stmt.WellFormed.readsBack yes hyes).braced hblock) hkind (Stmt.WellFormed.readsBack no hno)
  | .whileDo test body span, h => by
    rw [Stmt.WellFormed] at h
    obtain ⟨htest, hblock, hbody⟩ := h
    exact readsBack_whileDo span (Expr.WellFormed.readsBack test htest) hblock
      ((Stmt.WellFormed.readsBack body hbody).braced hblock)
  | .tryCatch body name handler span, h => by
    rw [Stmt.WellFormed] at h
    obtain ⟨⟨hblock, hbody⟩, hname, hhandler, hcaught⟩ := h
    exact readsBack_tryCatch span hblock ((Stmt.WellFormed.readsBack body hbody).braced hblock) hname hhandler
      ((Stmt.WellFormed.readsBack handler hcaught).braced hhandler)
  | .ret none span, _ => readsBack_ret_none span
  | .ret (some value) span, h => by
    rw [Stmt.WellFormed] at h
    exact readsBack_ret (Expr.WellFormed.readsBack value h) span
  | .throw value span, h => by
    rw [Stmt.WellFormed] at h
    exact readsBack_throw (Expr.WellFormed.readsBack value h) span
  | .eval expr span, h => by
    rw [Stmt.WellFormed] at h
    exact readsBack_eval (Expr.WellFormed.readsBack expr h) span
  | .breakLoop span, _ => readsBack_breakLoop span
  | .continueLoop span, _ => readsBack_continueLoop span

/-- **Every expression of the language is read back.** -/
theorem Expr.WellFormed.readsBack : (e : Expr) → e.WellFormed → e.ReadsBack
  | .null span, _ => readsBack_null span
  | .bool value span, _ => readsBack_bool value span
  | .num value span, h => by
    rw [Expr.WellFormed] at h
    exact readsBack_num span h
  | .str value span, _ => readsBack_str value span
  | .list elements span, h => by
    rw [Expr.WellFormed] at h
    exact readsBack_list span (WellFormedExprs.readsBack elements h)
  | .ident name span, h => by
    rw [Expr.WellFormed] at h
    exact readsBack_ident span h
  | .call callee args none span, h => by
    rw [Expr.WellFormed] at h
    exact readsBack_call span h.1 (WellFormedExprs.readsBack args h.2)
  | .call callee args (some body) span, h => by
    rw [Expr.WellFormed] at h
    obtain ⟨hcallee, hargs, hblock, hbody⟩ := h
    exact readsBack_call_body span hcallee (WellFormedExprs.readsBack args hargs) hblock
      ((Stmt.WellFormed.readsBack body hbody).braced hblock)
  | .closure body span, h => by
    rw [Expr.WellFormed] at h
    exact readsBack_closure span h.1 ((Stmt.WellFormed.readsBack body h.2).braced h.1)
  | .unary op operand span, h => by
    rw [Expr.WellFormed] at h
    exact readsBack_unary span h.1 (Expr.WellFormed.readsBack operand h.2)
  | .binary op left right span, h => by
    rw [Expr.WellFormed] at h
    exact readsBack_binary op span (Expr.WellFormed.readsBack left h.1) (Expr.WellFormed.readsBack right h.2)

theorem WellFormedStmts.readsBack : (ss : List Stmt) → WellFormedStmts ss → ∀ s ∈ ss, s.ReadsBack
  | [], _ => nofun
  | s :: ss, h => by
    rw [WellFormedStmts] at h
    intro t ht
    rcases List.mem_cons.mp ht with heq | hmem
    · exact heq ▸ Stmt.WellFormed.readsBack s h.1
    · exact WellFormedStmts.readsBack ss h.2 t hmem

theorem WellFormedExprs.readsBack : (es : List Expr) → WellFormedExprs es → ∀ e ∈ es, e.ReadsBack
  | [], _ => nofun
  | e :: es, h => by
    rw [WellFormedExprs] at h
    intro f hf
    rcases List.mem_cons.mp hf with heq | hmem
    · exact heq ▸ Expr.WellFormed.readsBack e h.1
    · exact WellFormedExprs.readsBack es h.2 f hmem

end

/-! ## Scripts -/

/-- The end of the source adds no statement. -/
theorem Part.stmts?_finish (parts : List Part) : Part.stmts? (parts ++ [Part.finish]) = Part.stmts? parts := by
  induction parts with
  | nil => rfl
  | cons part parts ih =>
    by_cases hfinish : part = .finish
    · subst hfinish
      rw [List.cons_append, Part.stmts?, Part.stmts?, ih]
    · rw [List.cons_append, Part.stmts?, Part.stmts?, ih]
      · exact hfinish
      · exact hfinish

/-- The parts of a program: there is one, and it is these statements, up to spans. -/
def IsProgram (ss : List Stmt) (parts : List Part) : Prop :=
  ∃ found span, parts = [.braced found span] ∧ bareStmts found = bareStmts ss

/-- The text of a script is read as a program. -/
theorem reads_program {body : List Stmt} (h : ∀ s ∈ body, s.ReadsBack) :
    Reads (.rule .program) (writeStmts body []) [] (IsProgram body) := by
  have hrounds := rounds_statements h follows_nil (refuses_statement (by simp))
  have hend : Reads (.rule .endOfInput) [] [] (fun parts => parts = [.finish]) :=
    .node (P := Silent) (.inl rfl) (by decide) .atEnd fun span parts _ => ⟨.finish, node_eq_ok rfl, rfl⟩
  refine .node (.inl rfl) (by decide) (.silent_seq (.text [] _)
    (skips_none (follows_statements h follows_nil).stands) (.seq hrounds.many (skips_none stands_nil) hend))
    fun span parts hparts => ?_
  obtain ⟨parts, _, rfl, ⟨found, hfound, hbare⟩, rfl⟩ := hparts
  refine ⟨.braced found span, node_eq_ok ?_, found, span, rfl, hbare⟩
  simp [Part.ofNode, Part.stmts?_finish, hfound]

/-- A tree that stands for statements is a script. -/
theorem parse_of_tree {source : String} {tree : Peg.Tree Rule} {found : List Stmt} {span : Span}
    (htree : grammar.parse .program source = .ok tree) (hvalue : Part.ofTree tree = .ok (.braced found span)) :
    parse source = .ok ⟨.block found span, span⟩ := by
  unfold parse
  rw [htree]
  dsimp only
  rw [hvalue]

/-- What is read as a program is parsed. -/
theorem parse_of_reads {source : String} {ss : List Stmt}
    (h : Reads (.rule .program) source.toList [] (IsProgram ss)) :
    ∃ found span, parse source = .ok ⟨.block found span, span⟩ ∧ bareStmts found = bareStmts ss := by
  have hone : ∀ parts, IsProgram ss parts → parts.length = 1 := by
    rintro parts ⟨found, span, rfl, -⟩
    rfl
  obtain ⟨tree, value, htree, hvalue, found, span, hparts, hbare⟩ := h.parse measured (by decide) (by decide) hone
  rw [List.singleton_inj.mp hparts] at hvalue
  exact ⟨found, span, parse_of_tree htree ((ofTree_eq tree).trans hvalue), hbare⟩

/-- **Parsing undoes rendering.** The text of statements that the language can express is a script, the
script has these very statements, up to spans, and no other statements have this text. -/
theorem parse_render (body : List Stmt) (h : WellFormedStmts body) :
    (∃ found span, parse (render body) = .ok ⟨.block found span, span⟩ ∧ bareStmts found = bareStmts body) ∧
      ∀ other, WellFormedStmts other → render other = render body → bareStmts other = bareStmts body := by
  have hparse : ∀ body, WellFormedStmts body → ∃ found span,
      parse (render body) = .ok ⟨.block found span, span⟩ ∧ bareStmts found = bareStmts body := by
    intro body h
    refine parse_of_reads ?_
    rw [render, String.toList_ofList]
    exact reads_program (WellFormedStmts.readsBack body h)
  refine ⟨hparse body h, fun other hother htext => ?_⟩
  obtain ⟨found, span, hfound, hbare⟩ := hparse body h
  obtain ⟨again, at_, hagain, hsame⟩ := hparse other hother
  rw [htext, hfound] at hagain
  simp only [Except.ok.injEq, ParsedScript.mk.injEq, Stmt.block.injEq] at hagain
  rw [← hsame, ← hbare, hagain.1.1]

/-- A condition without another branch, in front of a name that looks like one: `if(x){}elseif=-3;`. -/
def lookalike : List Stmt :=
  [.ifThen (.ident "x" {}) (.block [] {}) none {}, .assign "elseif" (.num (Float.ofInt (-3)) {}) {}]

theorem lookalike_wellFormed : WellFormedStmts lookalike := by
  have hx : IsName "x" := ⟨⟨'x', rfl, rfl⟩, by decide, by decide⟩
  have hname : IsName "elseif" := ⟨⟨'e', rfl, rfl⟩, by decide, by decide⟩
  have hnumeral : IsNumeral (Float.ofInt (-3)) := ⟨-3, by decide, rfl⟩
  simp [lookalike, WellFormedStmts, Stmt.WellFormed, Expr.WellFormed, Stmt.isBlock, hx, hname, hnumeral]

theorem parse_render_lookalike : WellFormedStmts lookalike ∧ ∃ found span,
    parse (render lookalike) = .ok ⟨.block found span, span⟩ ∧ bareStmts found = bareStmts lookalike :=
  ⟨lookalike_wellFormed, (parse_render lookalike lookalike_wellFormed).1⟩

end DurableFlow.Script
