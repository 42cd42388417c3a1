/-
Reading the tree never fails.

The functions that read a tree look at the kinds of its parts only and have a way out
for every other combination, which the grammar is to exclude. Here the parts of every
rule are described, and by the description of its parts each rule can be read: so a
source that the grammar accepts is a script. The same descriptions say what cannot be
in a script: a keyword as a name, a body that is no block, an `else` in front of
something other than a block or an `if`, and a minus in front of a number.
-/
import DurableFlow.Proofs.Text.Descriptions
import DurableFlow.Proofs.Script.RoundTrip

set_option autoImplicit false

namespace DurableFlow.Script

open Text Text.Peg DurableFlow.Script.Grammar

/-! ## The statements of the language -/

mutual

/-- **A statement as the language has them**: its names are names, its bodies are blocks, and what
follows an `else` is a block or an `if`. -/
def Stmt.Shaped : Stmt → Prop
  | .block body _ => ShapedStmts body
  | .bind name none _ => IsName name
  | .bind name (some value) _ => IsName name ∧ value.Shaped
  | .assign name value _ => IsName name ∧ value.Shaped
  | .ifThen test yes none _ => test.Shaped ∧ yes.isBlock = true ∧ yes.Shaped
  | .ifThen test yes (some no) _ => test.Shaped ∧ (yes.isBlock = true ∧ yes.Shaped) ∧
    (no.isBlock = true ∨ no.isIf = true) ∧ no.Shaped
  | .whileDo test body _ => test.Shaped ∧ body.isBlock = true ∧ body.Shaped
  | .tryCatch body name handler _ => (body.isBlock = true ∧ body.Shaped) ∧ IsName name ∧
    handler.isBlock = true ∧ handler.Shaped
  | .ret none _ => True
  | .ret (some value) _ => value.Shaped
  | .throw value _ => value.Shaped
  | .eval expr _ => expr.Shaped
  | .breakLoop _ => True
  | .continueLoop _ => True

/-- **An expression as the language has them**: a minus in front of a number is part of it. -/
def Expr.Shaped : Expr → Prop
  | .null _ => True
  | .bool _ _ => True
  | .num _ _ => True
  | .str _ _ => True
  | .list elements _ => ShapedExprs elements
  | .ident name _ => IsName name
  | .call callee args none _ => IsName callee ∧ ShapedExprs args
  | .call callee args (some body) _ => IsName callee ∧ ShapedExprs args ∧ body.isBlock = true ∧
    body.Shaped
  | .closure body _ => body.isBlock = true ∧ body.Shaped
  | .unary op operand _ => ¬(op = .neg ∧ operand.isNumber = true) ∧ operand.Shaped
  | .binary _ left right _ => left.Shaped ∧ right.Shaped

def ShapedStmts : List Stmt → Prop
  | [] => True
  | stmt :: rest => stmt.Shaped ∧ ShapedStmts rest

def ShapedExprs : List Expr → Prop
  | [] => True
  | expr :: rest => expr.Shaped ∧ ShapedExprs rest

end

/-! ## What each rule leaves -/

/-- A name. -/
def OneName (parts : List Part) : Prop := ∃ name span, parts = [.name name span] ∧ IsName name

/-- An expression that is told from a name and from braces. -/
def OneExpr (parts : List Part) : Prop := ∃ e, parts = [.expr e] ∧ e.Shaped

/-- Something that is used as a value. -/
def OneValue (parts : List Part) : Prop := ∃ part e, parts = [part] ∧ part.expr? = some e ∧ e.Shaped

/-- Statements between braces. -/
def OneBraced (parts : List Part) : Prop := ∃ body span, parts = [.braced body span] ∧ ShapedStmts body

/-- A statement of some kind. -/
def OneStmt (P : Stmt → Prop) (parts : List Part) : Prop := ∃ s, parts = [.stmt s] ∧ P s ∧ s.Shaped

/-- The arguments of a call. -/
def OneArgs (parts : List Part) : Prop := ∃ es, parts = [.args es] ∧ ShapedExprs es

/-- An operator between two operands. -/
def OneBinary (parts : List Part) : Prop := ∃ op, parts = [.binaryOp op]

/-- A sign in front of an operand. -/
def OneSign (parts : List Part) : Prop := ∃ op, parts = [.unaryOp op]

/-- The characters of a string. -/
def OneQuoted (parts : List Part) : Prop := ∃ text, parts = [.quoted text]

/-- **What a rule leaves.** A keyword is only tried where a name may stand and leaves nothing. -/
def Rule.describe : Rule → List Part → Prop
  | .program | .block | .closure => OneBraced
  | .endOfInput => fun parts => parts = [.finish]
  | .ifStmt => OneStmt fun s => s.isIf = true
  | .elseClause => OneStmt fun s => s.isBlock = true ∨ s.isIf = true
  | .statement | .assignStmt | .exprStmt | .letStmt | .whileStmt | .tryStmt | .returnStmt
  | .throwStmt | .breakStmt | .continueStmt => OneStmt fun _ => True
  | .expression | .orExpr | .andExpr | .equalityExpr | .comparisonExpr | .additiveExpr
  | .multiplicativeExpr | .unaryExpr | .callExpr | .listLit | .literal | .nullLit | .boolLit | .number
  | .string => OneExpr
  | .primary => OneValue
  | .argList => OneArgs
  | .opOr | .opAnd | .opEq | .opNe | .opLte | .opGte | .opLt | .opGt | .opAdd | .opSub | .opMul
  | .opDiv | .opMod => OneBinary
  | .opNot | .opNeg => OneSign
  | .doubleQuoted | .singleQuoted => OneQuoted
  | .identifier => OneName
  | .keyword => fun _ => False

-- below, each rule is unfolded to what it says of its parts
attribute [local simp] Stmt.Shaped Expr.Shaped ShapedStmts ShapedExprs Rule.describe define seqs Part.ofNode
  Exp.Describes

/-! ## Values -/

theorem OneExpr.value {parts : List Part} (h : OneExpr parts) : OneValue parts := by
  obtain ⟨e, rfl, he⟩ := h
  exact ⟨.expr e, e, rfl, rfl, he⟩

/-- A name used as a value is a variable. -/
theorem OneName.value {parts : List Part} (h : OneName parts) : OneValue parts := by
  obtain ⟨name, span, rfl, hname⟩ := h
  refine ⟨.name name span, .ident name span, rfl, rfl, ?_⟩
  rwa [Expr.Shaped]

theorem shaped_block {body : List Stmt} (h : ShapedStmts body) (span : Span) :
    (Stmt.block body span).isBlock = true ∧ (Stmt.block body span).Shaped := by
  refine ⟨rfl, ?_⟩
  rwa [Stmt.Shaped]

/-- Braces used as a value are a closure. -/
theorem OneBraced.value {parts : List Part} (h : OneBraced parts) : OneValue parts := by
  obtain ⟨body, span, rfl, hbody⟩ := h
  refine ⟨.braced body span, .closure (.block body span) span, rfl, rfl, ?_⟩
  rw [Expr.Shaped]
  exact shaped_block hbody span

/-- Some expressions in a row are the elements of a list. -/
theorem elements_of_repeated {parts : List Part} (h : Repeated OneExpr parts) :
    ∃ es, parts.mapM Part.expr? = some es ∧ ShapedExprs es := by
  induction h with
  | nil => exact ⟨[], rfl, by rw [ShapedExprs]; trivial⟩
  | cons first _ ih =>
    obtain ⟨e, rfl, he⟩ := first
    obtain ⟨es, hes, hshaped⟩ := ih
    refine ⟨e :: es, ?_, by rw [ShapedExprs]; exact ⟨he, hshaped⟩⟩
    simp [hes, Part.expr?]

/-- Statements in a row are those of a block. -/
theorem stmts_of_repeated {P : Stmt → Prop} {parts : List Part} (h : Repeated (OneStmt P) parts) :
    ∃ ss, Part.stmts? parts = some ss ∧ ShapedStmts ss := by
  induction h with
  | nil => exact ⟨[], rfl, by rw [ShapedStmts]; trivial⟩
  | cons first _ ih =>
    obtain ⟨s, rfl, -, hs⟩ := first
    obtain ⟨ss, hss, hshaped⟩ := ih
    refine ⟨s :: ss, Part.stmts?_cons rfl hss, by rw [ShapedStmts]; exact ⟨hs, hshaped⟩⟩

/-! ## Operators -/

/-- **A chain of operands can be joined.** -/
theorem joinChain_of_repeated {rest : List Part} (h : Repeated (Then OneBinary OneExpr) rest)
    (left : Expr) (hleft : left.Shaped) : ∃ e, Part.joinChain left rest = some e ∧ e.Shaped := by
  induction h generalizing left with
  | nil => exact ⟨left, rfl, hleft⟩
  | cons first _ ih =>
    obtain ⟨_, _, rfl, ⟨op, rfl⟩, e, rfl, he⟩ := first
    obtain ⟨joined, hjoined, hshaped⟩ := ih (.binary op left e (left.span.merge e.span))
      (by rw [Expr.Shaped]; exact ⟨hleft, he⟩)
    refine ⟨joined, ?_, hshaped⟩
    simpa [Part.joinChain, Part.expr?] using hjoined

/-- A sign in front of an operand leaves no minus in front of a number. -/
theorem shaped_applySign (span : Span) (op : UnaryOp) {operand : Expr} (h : operand.Shaped) :
    (Part.applySign span op operand).Shaped := by
  unfold Part.applySign
  split
  · rw [Expr.Shaped]
    trivial
  · next hno =>
    rw [Expr.Shaped]
    refine ⟨?_, h⟩
    rintro ⟨rfl, hnumber⟩
    cases operand with
    | num value inner => exact hno value inner rfl rfl
    | _ => cases hnumber

/-- **Signs in front of an operand can be applied.** -/
theorem applySigns_of_repeated {signs operand : List Part} (span : Span) (h : Repeated OneSign signs)
    (hoperand : OneValue operand) :
    ∃ e, Part.applySigns span (signs ++ operand) = some e ∧ e.Shaped := by
  induction h with
  | nil =>
    obtain ⟨part, e, rfl, hpart, he⟩ := hoperand
    exact ⟨e, by rw [List.nil_append, Part.applySigns, hpart], he⟩
  | @cons us vs first _ ih =>
    obtain ⟨op, rfl⟩ := first
    obtain ⟨e, happly, he⟩ := ih
    refine ⟨Part.applySign span op e, ?_, shaped_applySign span op he⟩
    -- behind a sign there is something that it is applied to
    rcases hrest : vs ++ operand with _ | ⟨part, parts⟩
    · rw [hrest] at happly
      cases happly
    · rw [hrest] at happly
      simp only [List.cons_append, List.nil_append, hrest, Part.applySigns, happly, Option.map_some]

/-! ## Rules with parts -/

/-- The values of an expression of the grammar. -/
abbrev Describes (exp : Exp Rule) (parts : List Part) : Prop := exp.Describes Rule.describe parts

/-- The values of a choice are those of one of its expressions. -/
theorem describes_alts {es : List (Exp Rule)} {parts : List Part} (hne : es ≠ [])
    (h : Describes (alts es) parts) : ∃ e ∈ es, Describes e parts := by
  induction es with
  | nil => exact absurd rfl hne
  | cons e es ih =>
    by_cases hes : es = []
    · subst hes
      exact ⟨e, List.mem_cons_self, h⟩
    · rw [alts_cons hes] at h
      rcases h with hfirst | hrest
      · exact ⟨e, List.mem_cons_self, hfirst⟩
      · obtain ⟨f, hf, hdescribes⟩ := ih hes hrest
        exact ⟨f, List.mem_cons_of_mem e hf, hdescribes⟩

/-- A rule turns its parts into one part of its description. -/
def Builds (rule : Rule) (span : Span) (parts : List Part) : Prop :=
  ∃ part, Part.ofNode rule span parts = some part ∧ rule.describe [part]

variable {span : Span} {parts : List Part}

/-- **A chain of operands is one expression.** -/
theorem chain_joined {operand : Rule} {ops : List Rule} (hops : ops ≠ [])
    (hoperand : operand.describe = OneExpr) (hbinary : ∀ op ∈ ops, op.describe = OneBinary)
    (h : Describes (chain operand ops) parts) :
    ∃ first rest e, parts = .expr first :: rest ∧ Part.joinChain first rest = some e ∧ e.Shaped := by
  obtain ⟨_, rest, rfl, hfirst, hrest⟩ := h
  simp only [Exp.Describes, hoperand] at hfirst
  obtain ⟨first, rfl, hshaped⟩ := hfirst
  have hmore : Repeated (Then OneBinary OneExpr) rest := by
    refine hrest.mono fun values hvalues => ?_
    obtain ⟨op, right, rfl, hop, hright⟩ := hvalues
    obtain ⟨e, he, hdescribes⟩ := describes_alts (by simpa using hops) hop
    obtain ⟨name, hname, rfl⟩ := List.mem_map.mp he
    simp only [Exp.Describes, hoperand] at hright
    exact ⟨op, right, rfl, by rw [← hbinary name hname]; exact hdescribes, hright⟩
  obtain ⟨e, hjoin, he⟩ := joinChain_of_repeated hmore first hshaped
  exact ⟨first, rest, e, rfl, hjoin, he⟩

theorem builds_unary (h : Describes (define .unaryExpr).body parts) : Builds .unaryExpr span parts := by
  obtain ⟨signs, operand, rfl, hsigns, hoperand⟩ := h
  have hsign : Repeated OneSign signs := hsigns.mono fun values hvalues => by
    rcases hvalues with h | h
    · exact h
    · exact h
  obtain ⟨e, happly, he⟩ := applySigns_of_repeated span hsign hoperand
  exact ⟨.expr e, by simp [happly], e, rfl, he⟩

theorem builds_call (h : Describes (define .callExpr).body parts) : Builds .callExpr span parts := by
  simp only [define, plain, seqs, word, Describes, Exp.Describes, silent_then, Rule.describe] at h
  obtain ⟨_, rest, rfl, ⟨callee, at_, rfl, hcallee⟩, hrest⟩ := h
  have hnone : ShapedExprs [] := by
    rw [ShapedExprs]
    trivial
  -- what stands behind the name is written in five ways
  obtain ⟨args, body, hcall, hargs, hbody⟩ : ∃ args body,
      Part.ofCall span (.name callee at_ :: rest) = some (.call callee args body span) ∧
      ShapedExprs args ∧ ∀ s ∈ body, s.isBlock = true ∧ s.Shaped := by
    rcases hrest with ⟨_, _, rfl, rfl | ⟨args, rfl, hargs⟩, rfl | ⟨body, inner, rfl, hbody⟩⟩ |
      ⟨body, inner, rfl, hbody⟩
    · exact ⟨[], none, rfl, hnone, nofun⟩
    · exact ⟨[], _, rfl, hnone, fun s hs => Option.some.inj hs ▸ shaped_block hbody inner⟩
    · exact ⟨args, none, rfl, hargs, nofun⟩
    · exact ⟨args, _, rfl, hargs, fun s hs => Option.some.inj hs ▸ shaped_block hbody inner⟩
    · exact ⟨[], _, rfl, hnone, fun s hs => Option.some.inj hs ▸ shaped_block hbody inner⟩
  refine ⟨.expr (.call callee args body span), by simp [hcall], _, rfl, ?_⟩
  cases body with
  | none =>
    rw [Expr.Shaped]
    exact ⟨hcallee, hargs⟩
  | some s =>
    rw [Expr.Shaped]
    exact ⟨hcallee, hargs, hbody s rfl⟩

/-- Expressions between commas. -/
theorem repeated_of_commaSeparated (h : Describes commaSeparated parts) : Repeated OneExpr parts := by
  obtain ⟨first, rest, rfl, hfirst, hrest⟩ := h
  refine .cons hfirst (hrest.mono fun values hvalues => ?_)
  simpa [Exp.Describes, word, Rule.describe] using hvalues

theorem builds_args (h : Describes (define .argList).body parts) : Builds .argList span parts := by
  obtain ⟨es, hes, hshaped⟩ := elements_of_repeated (repeated_of_commaSeparated h)
  exact ⟨.args es, by simp [hes], es, rfl, hshaped⟩

theorem builds_list (h : Describes (define .listLit).body parts) : Builds .listLit span parts := by
  simp only [define, plain, seqs, word, Describes, Exp.Describes, silent_then, then_silent] at h
  obtain ⟨es, hes, hshaped⟩ : ∃ es, parts.mapM Part.expr? = some es ∧ ShapedExprs es := by
    rcases h with rfl | h
    · exact elements_of_repeated .nil
    · exact elements_of_repeated (repeated_of_commaSeparated h)
  refine ⟨.expr (.list es span), by simp [hes], _, rfl, ?_⟩
  rwa [Expr.Shaped]

theorem builds_string (h : Describes (define .string).body parts) : Builds .string span parts := by
  simp only [define, seqs, Describes, Exp.Describes, silent_then, then_silent, Rule.describe, either_self] at h
  obtain ⟨text, rfl⟩ := h
  refine ⟨_, rfl, _, rfl, ?_⟩
  rw [Expr.Shaped]
  trivial

/-- **Braces are statements**, with or without the end of the source behind them. -/
theorem builds_braced {rule : Rule} (hrule : rule = .block ∨ rule = .closure)
    (h : Describes braced parts) : Builds rule span parts := by
  simp only [braced, seqs, word, Describes, Exp.Describes, silent_then, then_silent, Rule.describe] at h
  obtain ⟨ss, hss, hshaped⟩ := stmts_of_repeated h
  rcases hrule with rfl | rfl
  · exact ⟨.braced ss span, by simp [hss], ss, span, rfl, hshaped⟩
  · exact ⟨.braced ss span, by simp [hss], ss, span, rfl, hshaped⟩

theorem builds_program (h : Describes (define .program).body parts) : Builds .program span parts := by
  simp only [define, plain, seqs, Describes, Exp.Describes, silent_then, Rule.describe] at h
  obtain ⟨stmts, _, rfl, hstmts, rfl⟩ := h
  obtain ⟨ss, hss, hshaped⟩ := stmts_of_repeated hstmts
  exact ⟨.braced ss span, by simp [Part.stmts?_finish, hss], ss, span, rfl, hshaped⟩

/-! ## Statements -/

/-- A statement that its rule reads from its parts. -/
theorem builds_stmt {rule : Rule} {s : Stmt} {P : Stmt → Prop} (hrule : rule.describe = OneStmt P)
    (hnode : Part.ofNode rule span parts = some (.stmt s)) (hP : P s) (hs : s.Shaped) :
    Builds rule span parts :=
  ⟨.stmt s, hnode, by rw [hrule]; exact ⟨s, rfl, hP, hs⟩⟩

theorem builds_assign (h : Describes (define .assignStmt).body parts) : Builds .assignStmt span parts := by
  simp only [define, plain, seqs, word, semicolon, Describes, Exp.Describes, silent_then, then_silent, either_self,
    Rule.describe] at h
  obtain ⟨_, _, rfl, ⟨name, at_, rfl, hname⟩, value, rfl, hvalue⟩ := h
  refine builds_stmt rfl rfl trivial ?_
  rw [Stmt.Shaped]
  exact ⟨hname, hvalue⟩

theorem builds_let (h : Describes (define .letStmt).body parts) : Builds .letStmt span parts := by
  simp only [define, plain, seqs, word, semicolon, Describes, Exp.Describes, silent_then, then_silent, either_self,
    Rule.describe] at h
  obtain ⟨_, _, rfl, ⟨name, at_, rfl, hname⟩, rfl | ⟨value, rfl, hvalue⟩⟩ := h
  · refine builds_stmt rfl rfl trivial ?_
    rwa [Stmt.Shaped]
  · refine builds_stmt rfl rfl trivial ?_
    rw [Stmt.Shaped]
    exact ⟨hname, hvalue⟩

theorem builds_if (h : Describes (define .ifStmt).body parts) : Builds .ifStmt span parts := by
  simp only [define, plain, seqs, word, Describes, Exp.Describes, silent_then, Rule.describe] at h
  obtain ⟨_, _, rfl, ⟨test, rfl, htest⟩, _, _, rfl, ⟨yes, inner, rfl, hyes⟩, hno⟩ := h
  rcases hno with rfl | ⟨no, rfl, hkind, hno⟩
  · refine builds_stmt rfl rfl rfl ?_
    rw [Stmt.Shaped]
    exact ⟨htest, shaped_block hyes inner⟩
  · refine builds_stmt rfl rfl rfl ?_
    rw [Stmt.Shaped]
    exact ⟨htest, shaped_block hyes inner, hkind, hno⟩

theorem builds_else (h : Describes (define .elseClause).body parts) : Builds .elseClause span parts := by
  simp only [define, plain, word, Describes, Exp.Describes, silent_then, Rule.describe] at h
  rcases h with ⟨s, rfl, hkind, hs⟩ | ⟨body, inner, rfl, hbody⟩
  · exact builds_stmt rfl rfl (.inr hkind) hs
  · obtain ⟨hblock, hshaped⟩ := shaped_block hbody inner
    exact builds_stmt rfl rfl (.inl hblock) hshaped

theorem builds_while (h : Describes (define .whileStmt).body parts) : Builds .whileStmt span parts := by
  simp only [define, plain, seqs, word, Describes, Exp.Describes, silent_then, Rule.describe] at h
  obtain ⟨_, _, rfl, ⟨test, rfl, htest⟩, body, inner, rfl, hbody⟩ := h
  refine builds_stmt rfl rfl trivial ?_
  rw [Stmt.Shaped]
  exact ⟨htest, shaped_block hbody inner⟩

theorem builds_try (h : Describes (define .tryStmt).body parts) : Builds .tryStmt span parts := by
  simp only [define, plain, seqs, word, Describes, Exp.Describes, silent_then, Rule.describe] at h
  obtain ⟨_, _, rfl, ⟨body, inner, rfl, hbody⟩, _, _, rfl, ⟨name, at_, rfl, hname⟩, handler, around, rfl,
    hhandler⟩ := h
  refine builds_stmt rfl rfl trivial ?_
  rw [Stmt.Shaped]
  exact ⟨shaped_block hbody inner, hname, shaped_block hhandler around⟩

theorem builds_return (h : Describes (define .returnStmt).body parts) : Builds .returnStmt span parts := by
  simp only [define, plain, seqs, word, semicolon, Describes, Exp.Describes, silent_then, then_silent, either_self,
    Rule.describe] at h
  rcases h with rfl | ⟨value, rfl, hvalue⟩
  · refine builds_stmt rfl rfl trivial ?_
    rw [Stmt.Shaped]
    trivial
  · refine builds_stmt rfl rfl trivial ?_
    rwa [Stmt.Shaped]

theorem builds_throw (h : Describes (define .throwStmt).body parts) : Builds .throwStmt span parts := by
  simp only [define, plain, seqs, word, semicolon, Describes, Exp.Describes, silent_then, then_silent, either_self,
    Rule.describe] at h
  obtain ⟨value, rfl, hvalue⟩ := h
  refine builds_stmt rfl rfl trivial ?_
  rwa [Stmt.Shaped]

theorem builds_eval (h : Describes (define .exprStmt).body parts) : Builds .exprStmt span parts := by
  simp only [define, plain, word, semicolon, Describes, Exp.Describes, then_silent, either_self, Rule.describe] at h
  obtain ⟨value, rfl, hvalue⟩ := h
  refine builds_stmt rfl rfl trivial ?_
  rwa [Stmt.Shaped]

theorem builds_break (h : Describes (define .breakStmt).body parts) : Builds .breakStmt span parts := by
  simp only [define, plain, word, semicolon, Describes, Exp.Describes, silent_then, either_self] at h
  subst h
  refine builds_stmt rfl rfl trivial ?_
  rw [Stmt.Shaped]
  trivial

theorem builds_continue (h : Describes (define .continueStmt).body parts) :
    Builds .continueStmt span parts := by
  simp only [define, plain, word, semicolon, Describes, Exp.Describes, silent_then, either_self] at h
  subst h
  refine builds_stmt rfl rfl trivial ?_
  rw [Stmt.Shaped]
  trivial

/-- Something that is used as a statement. -/
def OneDone (parts : List Part) : Prop := ∃ part s, parts = [part] ∧ part.stmt? = some s ∧ s.Shaped

theorem OneStmt.done {P : Stmt → Prop} (h : OneStmt P parts) : OneDone parts := by
  obtain ⟨s, rfl, -, hs⟩ := h
  exact ⟨.stmt s, s, rfl, rfl, hs⟩

/-- Braces used as a statement are a block. -/
theorem OneBraced.done (h : OneBraced parts) : OneDone parts := by
  obtain ⟨body, inner, rfl, hbody⟩ := h
  exact ⟨.braced body inner, .block body inner, rfl, rfl, (shaped_block hbody inner).2⟩

theorem builds_statement (h : Describes (define .statement).body parts) : Builds .statement span parts := by
  obtain ⟨e, he, hdescribes⟩ := describes_alts (by simp) h
  obtain ⟨rule, hrule, rfl⟩ := List.mem_map.mp he
  have hdone : OneDone parts := by
    simp only [List.mem_cons, List.not_mem_nil, or_false] at hrule
    rcases hrule with rfl | rfl | rfl | rfl | rfl | rfl | rfl | rfl | rfl | rfl | rfl
    · exact OneBraced.done hdescribes
    all_goals exact OneStmt.done hdescribes
  obtain ⟨part, s, rfl, hpart, hs⟩ := hdone
  exact builds_stmt rfl (by simp [hpart]) trivial hs

/-! ## All rules -/

/-- **Every rule with parts can be read.** -/
theorem builds (rule : Rule) (hkind : (define rule).kind = .plain ∨ (define rule).kind = .compound)
    (h : Describes (define rule).body parts) : Builds rule span parts := by
  match rule with
  | .program => exact builds_program h
  | .endOfInput => exact ⟨.finish, rfl, rfl⟩
  | .statement => exact builds_statement h
  | .block => exact builds_braced (.inl rfl) h
  | .closure => exact builds_braced (.inr rfl) h
  | .assignStmt => exact builds_assign h
  | .exprStmt => exact builds_eval h
  | .letStmt => exact builds_let h
  | .ifStmt => exact builds_if h
  | .elseClause => exact builds_else h
  | .whileStmt => exact builds_while h
  | .tryStmt => exact builds_try h
  | .returnStmt => exact builds_return h
  | .throwStmt => exact builds_throw h
  | .breakStmt => exact builds_break h
  | .continueStmt => exact builds_continue h
  | .expression =>
    obtain ⟨e, rfl, he⟩ := h
    exact ⟨.expr e, rfl, e, rfl, he⟩
  | .orExpr | .andExpr | .equalityExpr | .comparisonExpr | .additiveExpr | .multiplicativeExpr =>
    obtain ⟨first, rest, e, rfl, hjoin, he⟩ := chain_joined (by simp) rfl (by simp) h
    exact ⟨.expr e, by simp [Part.expr?, hjoin], e, rfl, he⟩
  | .unaryExpr => exact builds_unary h
  | .callExpr => exact builds_call h
  | .argList => exact builds_args h
  | .listLit => exact builds_list h
  | .string => exact builds_string h
  | .opOr | .opAnd | .opEq | .opNe | .opLte | .opGte | .opLt | .opGt | .opAdd | .opSub | .opMul
  | .opDiv | .opMod | .opNot | .opNeg => exact ⟨_, rfl, _, rfl⟩
  | .primary | .literal | .nullLit | .boolLit | .number | .doubleQuoted | .singleQuoted | .keyword
  | .identifier => rcases hkind with hno | hno <;> cases hno

/-- A silent rule leaves what one of its alternatives leaves. -/
theorem describe_silent (rule : Rule) (hkind : (define rule).kind = .silent)
    (h : Describes (define rule).body parts) : rule.describe parts := by
  match rule with
  | .primary =>
    rcases h with h | h | h | h | h | h
    · exact OneExpr.value h
    · exact OneExpr.value h
    · exact OneBraced.value h
    · exact OneExpr.value h
    · exact OneName.value h
    · simp only [alts, seqs, word, Exp.Describes, silent_then, then_silent, Rule.describe] at h
      exact OneExpr.value h
  | .literal =>
    rcases h with h | h | h | h
    · exact h
    · exact h
    · exact h
    · exact h

theorem isNameChar_of_isNameStart {c : Char} (h : isNameStart c = true) : isNameChar c = true := by
  unfold isNameStart at h
  unfold isNameChar
  rcases Bool.or_eq_true_iff.mp h with hletter | hscore
  · rw [hletter]
    rfl
  · rw [hscore, Bool.or_true]

/-- **What is matched as a name is one**: the longest text of name characters at its place, which starts
as a name does and is no keyword. -/
theorem has_identifier {input : Input} {k : Match Rule}
    (h : grammar.Settles .spaced (.rule .identifier) input k) : language.Has OneName k.trees := by
  obtain ⟨cs, pos⟩ := input
  by_cases hhead : ∃ c ∈ cs.head?, isNameStart c = true
  · have hsplit := List.takeWhile_append_dropWhile (p := isNameChar) (l := cs)
    -- a name goes as far as there are characters of names
    have hrest : Parts (cs.dropWhile isNameChar) := by
      intro c hc
      have hno := List.head?_dropWhile_not isNameChar cs
      rw [hc] at hno
      simpa using hno
    -- that text may still be a keyword, which the rule refuses
    by_cases hkeyword : String.ofList (cs.takeWhile isNameChar) ∈ keywords
    · have hrefuses := refuses_name_of_keyword hkeyword hrest
      rw [String.toList_ofList, hsplit] at hrefuses
      exact absurd h hrefuses.not_settles
    · have hname : IsName (String.ofList (cs.takeWhile isNameChar)) := by
        obtain ⟨c, hc, hstart⟩ := hhead
        refine ⟨⟨c, ?_, hstart⟩, ?_, hkeyword⟩
        · rw [String.toList_ofList, List.head?_takeWhile, hc]
          simp [isNameChar_of_isNameStart hstart]
        · rw [String.toList_ofList]
          exact fun d hd => List.mem_takeWhile_imp hd
      have hreads := reads_name hname hrest
      rw [String.toList_ofList, hsplit] at hreads
      refine (hreads.has h).mono fun values hvalues => ?_
      obtain ⟨span, rfl⟩ := hvalues
      exact ⟨_, span, rfl, hname⟩
  · refine absurd h (refuses_name_of_head fun c hc => ?_).not_settles
    rw [← Bool.not_eq_true]
    exact fun hstart => hhead ⟨c, hc, hstart⟩

/-- **Every leaf can be read.** -/
theorem has_leaf (rule : Rule) {input : Input} {k : Match Rule} (hused : rule ≠ .keyword)
    (hkind : (define rule).kind = .atomic) (h : grammar.Settles .spaced (.rule rule) input k) :
    language.Has rule.describe k.trees := by
  obtain ⟨span, text, htrees⟩ := h.leaf hkind
  match rule with
  | .identifier => exact has_identifier h
  | .nullLit | .boolLit | .number =>
    rw [htrees]
    exact .leaf (leaf_eq_ok rfl) ⟨_, rfl, by rw [Expr.Shaped]; trivial⟩
  | .doubleQuoted | .singleQuoted =>
    rw [htrees]
    exact .leaf (leaf_eq_ok rfl) ⟨text, rfl⟩
  | .keyword => exact absurd rfl hused

/-- **The trees of the grammar are described** rule by rule. -/
def described : language.Described where
  used rule := rule ≠ .keyword
  describe := Rule.describe
  leaves rule := by cases rule <;> decide
  silent rule _ hkind h := describe_silent rule hkind h
  node rule span values hkind h := by
    obtain ⟨part, hnode, hdescribe⟩ := builds rule hkind h
    exact ⟨part, node_eq_ok hnode, hdescribe⟩
  leaf rule _ _ hused hkind h := has_leaf rule (by simpa using hused) hkind h

/-! ## Scripts -/

/-- **The builder never rejects what the grammar accepts.** A source is parsed exactly if the program
rule matches it, an error is always the grammar's, and a script has names that are no keywords, blocks
as bodies, a block or an `if` behind each `else` and no minus in front of a number. -/
theorem parse_accepted (source : String) :
    (grammar.Accepts .program source ↔ ∃ script, parse source = .ok script) ∧
    (∀ e, parse source = .error e → ∃ place, e = .rejected place) ∧
    ∀ script, parse source = .ok script → script.body.isBlock = true ∧ script.body.Shaped := by
  -- a program is one part
  have hone : ∀ parts, described.describe .program parts → parts.length = 1 := by
    rintro _ ⟨body, span, rfl, -⟩
    rfl
  have haccepted : grammar.Accepts .program source → ∃ body span,
      parse source = .ok ⟨.block body span, span⟩ ∧ ShapedStmts body := by
    intro h
    obtain ⟨tree, value, htree, hvalue, body, span, hparts, hbody⟩ :=
      described.parse_of_accepts measured (by decide) (by decide) rfl hone h
    rw [List.singleton_inj.mp hparts] at hvalue
    exact ⟨body, span, parse_of_tree htree ((ofTree_eq tree).trans hvalue), hbody⟩
  have hrejected : ¬ grammar.Accepts .program source → ∃ place, parse source = .error (.rejected place) := by
    intro h
    unfold parse
    rcases htree : grammar.parse .program source with place | tree
    · exact ⟨place, rfl⟩
    · exact absurd (Peg.Grammar.accepts_of_parse measured (by decide) (by decide) htree) h
  by_cases h : grammar.Accepts .program source
  · obtain ⟨body, span, hparse, hbody⟩ := haccepted h
    rw [hparse]
    refine ⟨iff_of_true h ⟨_, rfl⟩, nofun, ?_⟩
    rintro _ ⟨⟩
    exact shaped_block hbody span
  · obtain ⟨place, hparse⟩ := hrejected h
    rw [hparse]
    refine ⟨iff_of_false h nofun, ?_, nofun⟩
    rintro _ ⟨⟩
    exact ⟨place, rfl⟩

end DurableFlow.Script
