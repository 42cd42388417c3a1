/-
Expressions are read back.

An expression is read back if its text is read in front of whatever closes it. There is
one lemma for each kind of expression: what it is made of is read back, and so is it.
Each starts with a character that every alternative tried before its own refuses.
-/
import DurableFlow.Proofs.Number.Integers
import DurableFlow.Proofs.Script.Operators

set_option autoImplicit false

namespace DurableFlow.Script

open Text Text.Peg Grammar
open scoped Members

variable {cs mid later rest : List Char} {P Q : List Part → Prop} {e : Expr}

/-! ## Primary expressions -/

theorem refuses_literal (hnull : language.Refuses .atomic (wholeWord ["null"]) cs)
    (hbool : language.Refuses .atomic (wholeWord ["true", "false"]) cs)
    (hhead : ∀ c ∈ cs.head?, isDigit c = false ∧ c ≠ singleQuote ∧ c ≠ doubleQuote) :
    Refuses (.rule .literal) cs := by
  have hdigit : language.Refuses .atomic (.char isDigit) cs := .char fun c hc => (hhead c hc).1
  have hquote : ∀ q ∈ [singleQuote, doubleQuote], language.Refuses .compound (.text [q]) cs := by
    intro q hq
    refine .text (not_starts rfl fun hc => ?_)
    have hno := hhead q hc
    simp only [List.mem_cons, List.not_mem_nil, or_false] at hq
    rcases hq with rfl | rfl
    · exact hno.2.1 rfl
    · exact hno.2.2 rfl
  refine .rule (refuses_alts fun exp hexp => ?_)
  simp only [List.mem_cons, List.not_mem_nil, or_false] at hexp
  rcases hexp with rfl | rfl | rfl | rfl
  · exact .rule hnull
  · exact .rule hbool
  · exact .rule (.seq_left (.seq_left hdigit))
  · exact .rule (.alt (.seq_left (hquote _ (by simp))) (.seq_left (hquote _ (by simp))))

/-- Whether a text starts with neither a name nor a literal. -/
def Bare (cs : List Char) : Prop := ∀ c ∈ cs.head?,
  isNameStart c = false ∧ isDigit c = false ∧ c ≠ singleQuote ∧ c ≠ doubleQuote

/-- Other characters begin neither a name nor a literal. -/
theorem bare_cons {c : Char} (h : isNameStart c = false ∧ isDigit c = false ∧ c ≠ singleQuote ∧ c ≠ doubleQuote) :
    Bare (c :: rest) := by
  intro d hd
  rw [← Option.some.inj hd]
  exact h

theorem Bare.refuses_literal (h : Bare cs) : Refuses (.rule .literal) cs := by
  have hname : ∀ c ∈ cs.head?, isNameStart c = false := fun c hc => (h c hc).1
  exact Script.refuses_literal (refuses_keyword_of_head (by decide) hname)
    (refuses_keyword_of_head (by decide) hname) fun c hc => (h c hc).2

theorem Bare.refuses_name (h : Bare cs) : Refuses (.rule .identifier) cs :=
  refuses_name_of_head fun c hc => (h c hc).1

theorem refuses_literal_of_name {name : String} (hname : IsName name) (hrest : Parts rest) :
    Refuses (.rule .literal) (name.toList ++ rest) := by
  refine refuses_literal (refuses_keyword_of_name (by decide) hname hrest)
    (refuses_keyword_of_name (by decide) hname hrest) fun c hc => ?_
  have hno : ∀ d, isNameStart d = false → c ≠ d := by
    rintro d hd rfl
    exact head_ne_of_name hname rest hd hc
  obtain ⟨d, hhead, hstart⟩ := head_of_name hname rest
  rw [hhead] at hc
  obtain rfl : d = c := Option.some.inj hc
  exact ⟨(classes_of_isNameStart hstart).2, hno _ (by decide), hno _ (by decide)⟩

/-- A keyword that is no literal is refused as one, whatever follows its word. -/
theorem refuses_literal_of_keyword {w : String} (hw : w ∈ keywords) (hno : w ∉ ["null", "true", "false"])
    (hrest : Parts rest) : Refuses (.rule .literal) (w.toList ++ rest) := by
  have hnull : w ∉ ["null"] := fun h => hno (by simp at h ⊢; exact .inl h)
  have hbool : w ∉ ["true", "false"] := fun h => hno (List.mem_cons_of_mem _ h)
  refine refuses_literal (refuses_other_keyword (by decide) hw hnull hrest)
    (refuses_other_keyword (by decide) hw hbool hrest) fun c hc => ?_
  have hhead : ∀ w ∈ keywords, ∃ c, w.toList.head? = some c ∧
      isDigit c = false ∧ c ≠ singleQuote ∧ c ≠ doubleQuote := by decide
  obtain ⟨d, hd, hclasses⟩ := hhead w hw
  rw [List.head?_append, hd] at hc
  obtain rfl := Option.some.inj hc
  exact hclasses

theorem reads_literal (h : Reads (.rule .literal) cs rest P) : Reads (.rule .primary) cs rest P :=
  .silent_rule rfl (reads_alts [] (by simp) h)

/-- A variable, with neither arguments nor a block behind it. -/
theorem reads_variable {name : String} {span : Span} (hname : IsName name) (hrest : Closes rest) :
    Reads (.rule .primary) (name.toList ++ rest) rest (Value (.ident name span)) := by
  have hread := reads_name hname hrest.parts
  refine .silent_rule rfl ((reads_alts [.rule .literal, .rule .callExpr, .rule .closure, .rule .listLit]
    (fun exp hexp => ?_) hread).mono fun parts hparts => ?_)
  · simp only [List.mem_cons, List.not_mem_nil, or_false] at hexp
    rcases hexp with rfl | rfl | rfl | rfl
    · exact refuses_literal_of_name hname hrest.parts
    · refine .rule (.seq_right hread (skips_none hrest.stands) (.alt (.seq_left ?_) (.rule (.seq_left ?_))))
      · exact refuses_word (hrest.refuses_word (by decide) (by decide))
      · exact refuses_word (hrest.refuses_word (by decide) (by decide))
    · exact .rule (.seq_left (refuses_symbol rfl (head_ne_of_name hname rest (by decide))))
    · exact .rule (.seq_left (refuses_symbol rfl (head_ne_of_name hname rest (by decide))))
  · obtain ⟨inner, rfl⟩ := hparts
    exact ⟨.name name inner, rfl, .ident name inner, rfl, by rw [Expr.bare, Expr.bare]⟩

/-! ### Several expressions -/

/-- **An expression is read back** from its text in front of whatever closes it. -/
structure Expr.ReadsBack (e : Expr) : Prop where
  stands : ∀ rest, Stands (e.write rest)
  apart : ∀ rest, (e.write rest).head? ≠ some '='
  reads : ∀ rest, Closes rest → Reads (.rule .expression) (e.write rest) rest (Value e)

/-- The parts are these expressions. -/
def Values (es : List Expr) (parts : List Part) : Prop :=
  ∃ found, parts.mapM Part.expr? = some found ∧ bareExprs found = bareExprs es

/-- A value and those behind it are read as one list. -/
theorem Values.of_then {es : List Expr} {parts : List Part} (h : Then (Value e) (Values es) parts) :
    Values (e :: es) parts := by
  obtain ⟨_, others, rfl, ⟨part, rfl, first, hfirst, hbare⟩, found, hfound, hbares⟩ := h
  refine ⟨first :: found, ?_, by rw [bareExprs, bareExprs, hbare, hbares]⟩
  rw [List.singleton_append, List.mapM_cons, hfirst, hfound]
  rfl

theorem closes_others {others : List Expr} (hrest : Closes rest) : Closes (writeOthers others rest) := by
  cases others with
  | nil => rwa [writeOthers]
  | cons e others =>
    rw [writeOthers]
    exact closes_cons (by simp)

/-- The expressions behind the first one, each behind a comma. -/
theorem rounds_others {others : List Expr} (h : ∀ e ∈ others, e.ReadsBack) (hrest : Closes rest)
    (hcomma : rest.head? ≠ some ',') : language.Rounds .spaced (.seq (word ",") (.rule .expression)) rest
      (writeOthers others rest) (Values others) := by
  induction others with
  | nil =>
    rw [writeOthers]
    exact .stop (skips_none hrest.stands) (.seq_left (refuses_symbol rfl hcomma)) ⟨[], rfl, rfl⟩
  | cons e others ih =>
    rw [writeOthers]
    have hback := h e List.mem_cons_self
    have hone : Reads (.seq (word ",") (.rule .expression)) (',' :: e.write (writeOthers others rest))
        (writeOthers others rest) (Value e) :=
      .silent_seq (reads_word "," _) (skips_none (hback.stands _)) (hback.reads _ (closes_others hrest))
    refine .round (skips_none (stands_cons rfl (by decide))) hone (ih fun other hother => ?_)
      fun _ => Values.of_then
    exact h other (List.mem_cons_of_mem e hother)

/-- **Values between commas are read back**, up to what is no comma. -/
theorem reads_commaSeparated {others : List Expr} (he : e.ReadsBack) (h : ∀ e ∈ others, e.ReadsBack)
    (hrest : Closes rest) (hcomma : rest.head? ≠ some ',') :
    Reads commaSeparated (e.write (writeOthers others rest)) rest (Values (e :: others)) := by
  have hclose : Closes (writeOthers others rest) := closes_others hrest
  have hmore := (rounds_others h hrest hcomma).many
  exact (Language.Reads.seq (he.reads _ hclose) (skips_none hclose.stands) hmore).mono fun _ => Values.of_then

/-! ### Parentheses, lists and calls -/

/-- What an opening bracket starts is neither a literal nor a call. -/
theorem refuses_before_bracket {c : Char} (hc : c ∈ ['(', '[', '\x7b']) (more : List Char) :
    Refuses (.rule .literal) (c :: more) ∧ Refuses (.rule .callExpr) (c :: more) ∧
      Refuses (.rule .identifier) (c :: more) := by
  have hclasses : ∀ c ∈ ['(', '[', '\x7b'],
      isNameStart c = false ∧ isDigit c = false ∧ c ≠ singleQuote ∧ c ≠ doubleQuote := by decide
  have hbare : Bare (c :: more) := bare_cons (hclasses c hc)
  exact ⟨hbare.refuses_literal, .rule (.seq_left hbare.refuses_name), hbare.refuses_name⟩

/-- What does not open a brace is no closure. -/
theorem refuses_closure (h : cs.head? ≠ some '\x7b') : Refuses (.rule .closure) cs :=
  .rule (.seq_left (refuses_symbol rfl h))

theorem refuses_list (h : cs.head? ≠ some '[') : Refuses (.rule .listLit) cs :=
  .rule (.seq_left (refuses_symbol rfl h))

/-- **An expression in parentheses**, whatever follows. -/
theorem reads_parentheses (he : e.ReadsBack) (rest : List Char) :
    Reads (.rule .primary) ('(' :: e.write (')' :: rest)) rest (Value e) := by
  have hclose : Closes (')' :: rest) := closes_cons (by simp)
  obtain ⟨hliteral, hcall, hname⟩ := refuses_before_bracket (by simp : '(' ∈ _) (e.write (')' :: rest))
  have hinner : Reads (seqs [word "(", .rule .expression, word ")"]) ('(' :: e.write (')' :: rest)) rest
      (Value e) :=
    .silent_seq (reads_word "(" _) (skips_none (he.stands _))
      (.seq_silent (he.reads _ hclose) (skips_none hclose.stands) (reads_word ")" rest))
  refine .silent_rule rfl (reads_alts
    [.rule .literal, .rule .callExpr, .rule .closure, .rule .listLit, .rule .identifier] (fun exp hexp => ?_) hinner)
  simp only [List.mem_cons, List.not_mem_nil, or_false] at hexp
  rcases hexp with rfl | rfl | rfl | rfl | rfl
  · exact hliteral
  · exact hcall
  · exact refuses_closure (by simp)
  · exact refuses_list (by simp)
  · exact hname

/-- What starts with no sign, no bracket, no literal and no name is no expression. -/
theorem refuses_expression (hstands : Stands cs)
    (hhead : ∀ c ∈ ['!', '-', '(', '[', '\x7b'], cs.head? ≠ some c) (hliteral : Refuses (.rule .literal) cs)
    (hname : Refuses (.rule .identifier) cs) : Refuses (.rule .expression) cs := by
  have hprimary : Refuses (.rule .primary) cs := by
    refine .rule (refuses_alts fun exp hexp => ?_)
    simp only [List.mem_cons, List.not_mem_nil, or_false] at hexp
    rcases hexp with rfl | rfl | rfl | rfl | rfl | rfl
    · exact hliteral
    · exact .rule (.seq_left hname)
    · exact refuses_closure (hhead '\x7b' (by simp))
    · exact refuses_list (hhead '[' (by simp))
    · exact hname
    · exact .seq_left (refuses_symbol rfl (hhead '(' (by simp)))
  have hsign : Unsigned cs := ⟨hhead '!' (by simp), hhead '-' (by simp)⟩
  -- Each level starts with an operand of the one below.
  have hlevel : ∀ level ≤ 6, Refuses (.rule (levelRule level)) cs := by
    intro level
    induction level with
    | zero => exact fun _ => .rule (.seq_right (.many_none (refuses_sign hsign)) (skips_none hstands) hprimary)
    | succ level ih =>
      intro hle
      refine .rule ?_
      rw [define_level (by omega)]
      exact .seq_left (ih (by omega))
  exact .rule (hlevel 6 (Nat.le_refl 6))

/-- Nothing that closes an expression starts one. -/
theorem Closes.refuses_expression (h : Closes cs) : Refuses (.rule .expression) cs := by
  have hstands := h.stands
  obtain ⟨c, more, rfl, hc⟩ := h
  have hclasses : ∀ c ∈ [')', ']', ',', ';'], (isNameStart c = false ∧ isDigit c = false ∧
      c ≠ singleQuote ∧ c ≠ doubleQuote) ∧ c ∉ ['!', '-', '(', '[', '\x7b'] := by decide
  obtain ⟨hplain, hno⟩ := hclasses c hc
  have hbare : Bare (c :: more) := bare_cons hplain
  refine Script.refuses_expression hstands (fun d hd heq => ?_) hbare.refuses_literal hbare.refuses_name
  exact hno (Option.some.inj heq ▸ hd)

/-- A list is read back from its bracket to the other. -/
theorem reads_list {elements : List Expr} {span : Span} (h : ∀ e ∈ elements, e.ReadsBack) (rest : List Char) :
    Reads (.rule .primary) ('[' :: writeExprs elements (']' :: rest)) rest (Value (.list elements span)) := by
  have hclose : Closes (']' :: rest) := closes_cons (by simp)
  obtain ⟨hliteral, hcall, hname⟩ :=
    refuses_before_bracket (by simp : '[' ∈ _) (writeExprs elements (']' :: rest))
  have hitems : Skips (writeExprs elements (']' :: rest)) (writeExprs elements (']' :: rest)) ∧
      Reads (.opt commaSeparated) (writeExprs elements (']' :: rest)) (']' :: rest) (Values elements) := by
    cases elements with
    | nil =>
      rw [writeExprs]
      refine ⟨skips_none hclose.stands, (Language.Reads.opt_none (.seq_left hclose.refuses_expression)).mono ?_⟩
      rintro parts rfl
      exact ⟨[], rfl, rfl⟩
    | cons e others =>
      rw [writeExprs]
      have he := h e List.mem_cons_self
      refine ⟨skips_none (he.stands _), .opt (reads_commaSeparated he (fun other hother => ?_) hclose (by simp))⟩
      exact h other (List.mem_cons_of_mem e hother)
  have hlist : Reads (.rule .listLit) ('[' :: writeExprs elements (']' :: rest)) rest
      (Value (.list elements span)) := by
    refine .node (P := Values elements) (.inl rfl) (by decide) ?_ fun inner parts hparts => ?_
    · exact .silent_seq (reads_word "[" _) hitems.1
        (.seq_silent hitems.2 (skips_none hclose.stands) (reads_word "]" rest))
    · obtain ⟨found, hfound, hbare⟩ := hparts
      refine ⟨.expr (.list found inner), node_eq_ok ?_, .of_expr ?_⟩
      · simp [Part.ofNode, hfound]
      · rw [Expr.bare, Expr.bare, hbare]
  refine .silent_rule rfl (reads_alts [.rule .literal, .rule .callExpr, .rule .closure] (fun exp hexp => ?_) hlist)
  simp only [List.mem_cons, List.not_mem_nil, or_false] at hexp
  rcases hexp with rfl | rfl | rfl
  · exact hliteral
  · exact hcall
  · exact refuses_closure (by simp)

/-! ### Blocks as values -/

/-- The part is statements between braces, and as a block they are this one. -/
def Part.ShowsBody (part : Part) (body : Stmt) : Prop :=
  ∃ found span, part = .braced found span ∧ (Stmt.block found span).bare = body.bare

/-- **Statements between braces are read back** as a block and as a closure. -/
def Stmt.ReadsBraced (body : Stmt) : Prop := ∀ rule, rule = .block ∨ rule = .closure → ∀ rest,
  Reads (.rule rule) (body.write rest) rest (fun parts => ∃ part, parts = [part] ∧ part.ShowsBody body)

theorem stands_body {body : Stmt} (h : body.isBlock = true) (rest : List Char) : Stands (body.write rest) := by
  obtain ⟨statements, span, rfl⟩ := exists_of_isBlock h
  rw [Stmt.write]
  exact stands_cons rfl (by decide)

/-- A closure is tried behind literals and calls, none of which opens with a brace. -/
theorem reads_closure {body : Stmt} {span : Span} (hblock : body.isBlock = true) (h : body.ReadsBraced)
    (rest : List Char) : Reads (.rule .primary) (body.write rest) rest (Value (.closure body span)) := by
  have hclosure := h .closure (.inr rfl) rest
  obtain ⟨statements, inner, rfl⟩ := exists_of_isBlock hblock
  rw [Stmt.write] at hclosure ⊢
  obtain ⟨hliteral, hcall, -⟩ :=
    refuses_before_bracket (by simp : '\x7b' ∈ _) (writeStmts statements ('\x7d' :: rest))
  refine .silent_rule rfl ((reads_alts [.rule .literal, .rule .callExpr] (fun exp hexp => ?_) hclosure).mono
    fun parts hparts => ?_)
  · simp only [List.mem_cons, List.not_mem_nil, or_false] at hexp
    rcases hexp with rfl | rfl
    · exact hliteral
    · exact hcall
  · obtain ⟨part, rfl, found, at_, rfl, hbare⟩ := hparts
    refine ⟨.braced found at_, rfl, .closure (.block found at_) at_, rfl, ?_⟩
    rw [Expr.bare, Expr.bare, hbare]

/-- The parts between the parentheses of a call: none, or some arguments. -/
def Arguments (args : List Expr) (parts : List Part) : Prop :=
  (parts = [] ∧ args = []) ∨ ∃ found, parts = [.args found] ∧ bareExprs found = bareExprs args

/-- The parts behind the parentheses of a call: none, or a block. -/
def Trailing (body : Option Stmt) (parts : List Part) : Prop :=
  (parts = [] ∧ body = none) ∨ ∃ part block, parts = [part] ∧ body = some block ∧ part.ShowsBody block

/-- **A call is the same with and without arguments or a block.** -/
theorem ofCall_eq {callee : String} {args : List Expr} {body : Option Stmt} {given trailing : List Part}
    (hgiven : Arguments args given) (htrailing : Trailing body trailing) (span inner outer : Span) :
    ∃ found, Part.ofCall span ([.name callee inner] ++ (given ++ trailing)) = some found ∧
      found.bare = (Expr.call callee args body outer).bare := by
  rcases hgiven with ⟨rfl, rfl⟩ | ⟨found, rfl, hargs⟩
  · rcases htrailing with ⟨rfl, rfl⟩ | ⟨part, block, rfl, rfl, body, at_, rfl, hbody⟩
    · exact ⟨.call callee [] none span, rfl, by rw [Expr.bare, Expr.bare]⟩
    · exact ⟨.call callee [] (some (.block body at_)) span, rfl, by rw [Expr.bare, Expr.bare, hbody]⟩
  · rcases htrailing with ⟨rfl, rfl⟩ | ⟨part, block, rfl, rfl, body, at_, rfl, hbody⟩
    · exact ⟨.call callee found none span, rfl, by rw [Expr.bare, Expr.bare, hargs]⟩
    · exact ⟨.call callee found (some (.block body at_)) span, rfl, by rw [Expr.bare, Expr.bare, hargs, hbody]⟩

/-- Arguments are read back, also if there are none. -/
theorem reads_arguments {args : List Expr} (h : ∀ e ∈ args, e.ReadsBack) (rest : List Char) :
    Skips (writeExprs args (')' :: rest)) (writeExprs args (')' :: rest)) ∧
      Reads (.opt (.rule .argList)) (writeExprs args (')' :: rest)) (')' :: rest) (Arguments args) := by
  have hclose : Closes (')' :: rest) := closes_cons (by simp)
  cases args with
  | nil =>
    rw [writeExprs]
    refine ⟨skips_none hclose.stands,
      (Language.Reads.opt_none (.rule (.seq_left hclose.refuses_expression))).mono ?_⟩
    rintro parts rfl
    exact .inl ⟨rfl, rfl⟩
  | cons e others =>
    rw [writeExprs]
    have he := h e List.mem_cons_self
    have hitems := reads_commaSeparated he (fun other hother => h other (List.mem_cons_of_mem e hother)) hclose
      (by simp)
    refine ⟨skips_none (he.stands _), .opt (.node (P := Values (e :: others)) (.inl rfl) (by decide) hitems
      fun span parts hparts => ?_)⟩
    obtain ⟨found, hfound, hbare⟩ := hparts
    refine ⟨.args found, node_eq_ok ?_, .inr ⟨found, rfl, hbare⟩⟩
    simp [Part.ofNode, hfound]

/-- **A call**, with what may stand behind its parentheses. -/
theorem reads_call {callee : String} {args : List Expr} {body : Option Stmt} {span : Span}
    (hcallee : IsName callee) (hargs : ∀ e ∈ args, e.ReadsBack) (hstands : Stands later)
    (hlater : Reads (.opt (.rule .closure)) later rest (Trailing body)) :
    Reads (.rule .primary) (lexeme callee ('(' :: writeExprs args (')' :: later))) rest
      (Value (.call callee args body span)) := by
  have hparts : Parts ('(' :: writeExprs args (')' :: later)) := parts_cons rfl
  have hclose : Closes (')' :: later) := closes_cons (by simp)
  obtain ⟨hskips, hgiven⟩ := reads_arguments hargs later
  have hbracket : Reads (seqs [word "(", .opt (.rule .argList), word ")", .opt (.rule .closure)])
      ('(' :: writeExprs args (')' :: later)) rest (Then (Arguments args) (Trailing body)) :=
    .silent_seq (reads_word "(" _) hskips
      (.seq hgiven (skips_none hclose.stands) (.silent_seq (reads_word ")" later) (skips_none hstands) hlater))
  have hcall : Reads (.rule .callExpr) (lexeme callee ('(' :: writeExprs args (')' :: later))) rest
      (Value (.call callee args body span)) := by
    refine .node (.inl rfl) (by decide) (.seq (reads_name hcallee hparts)
      (skips_none (stands_cons rfl (by decide))) (.alt_left hbracket)) fun outer parts h => ?_
    obtain ⟨_, _, rfl, ⟨inner, rfl⟩, given, trailing, rfl, hgiven, htrailing⟩ := h
    obtain ⟨found, hfound, hbare⟩ := ofCall_eq hgiven htrailing outer inner span
    refine ⟨.expr found, node_eq_ok ?_, .of_expr hbare⟩
    rw [Part.ofNode, hfound]
    rfl
  refine .silent_rule rfl (reads_alts [.rule .literal] (fun exp hexp => ?_) hcall)
  obtain rfl := List.mem_singleton.mp hexp
  exact refuses_literal_of_name hcallee hparts

/-! ## Every kind of expression -/

/-- What is read back as the innermost kind of expression is read back as any. -/
theorem Expr.ReadsBack.of_primary (hstarts : ∀ rest, Starts (e.write rest))
    (h : ∀ rest, Closes rest → Reads (.rule .primary) (e.write rest) rest (Value e)) : e.ReadsBack where
  stands rest := (hstarts rest).stands
  apart rest := (hstarts rest).apart
  reads rest hrest :=
    reads_expression (Nat.zero_le 6) (reads_unsigned (h rest hrest) (hstarts rest).stands (hstarts rest).unsigned)
      hrest

theorem readsBack_null (span : Span) : (Expr.null span).ReadsBack := by
  refine .of_primary (fun rest => ?_) fun rest hrest => ?_
  · rw [Expr.write]
    exact starts_keyword (by decide) rest
  · rw [Expr.write]
    have hnull := (reads_null hrest.parts).mono (Q := Value (.null span)) fun parts hparts => by
      obtain ⟨inner, rfl⟩ := hparts
      exact .of_expr (by rw [Expr.bare, Expr.bare])
    exact reads_literal (.silent_rule rfl (reads_alts [] (by simp) hnull))

theorem readsBack_bool (value : Bool) (span : Span) : (Expr.bool value span).ReadsBack := by
  obtain ⟨w, hw, hvalue, hwrite⟩ := write_bool value span
  have hkeyword : w ∈ keywords ∧ w ∉ ["null"] := by
    rcases hw with rfl | rfl
    · decide
    · decide
  refine .of_primary (fun rest => ?_) fun rest hrest => ?_
  · rw [hwrite]
    exact starts_keyword hkeyword.1 rest
  · rw [hwrite]
    have hbool := (reads_bool hw hrest.parts).mono (Q := Value (.bool value span)) fun parts hparts => by
      obtain ⟨inner, rfl⟩ := hparts
      exact .of_expr (by rw [Expr.bare, Expr.bare, hvalue])
    refine reads_literal (.silent_rule rfl (reads_alts [.rule .nullLit] (fun exp hexp => ?_) hbool))
    obtain rfl := List.mem_singleton.mp hexp
    exact .rule (refuses_other_keyword (by decide) hkeyword.1 hkeyword.2 hrest.parts)

theorem readsBack_str (value : String) (span : Span) : (Expr.str value span).ReadsBack := by
  refine .of_primary (fun rest => ?_) fun rest hrest => ?_
  · rw [Expr.write]
    exact starts_cons (by decide)
  · rw [Expr.write]
    have hstring := (reads_string value rest).mono (Q := Value (.str value span)) fun parts hparts => by
      obtain ⟨inner, rfl⟩ := hparts
      exact .of_expr (by rw [Expr.bare, Expr.bare])
    have hhead : ∀ c ∈ (singleQuote :: (value.toList.flatMap escapeQuoted ++ singleQuote :: rest)).head?,
        isNameStart c = false ∧ isDigit c = false := by
      intro c hc
      obtain rfl := Option.some.inj hc
      decide
    refine reads_literal (.silent_rule rfl (reads_alts [.rule .nullLit, .rule .boolLit, .rule .number]
      (fun exp hexp => ?_) hstring))
    simp only [List.mem_cons, List.not_mem_nil, or_false] at hexp
    rcases hexp with rfl | rfl | rfl
    · exact .rule (refuses_keyword_of_head (by decide) fun c hc => (hhead c hc).1)
    · exact .rule (refuses_keyword_of_head (by decide) fun c hc => (hhead c hc).1)
    · exact .rule (.seq_left (.seq_left (.char fun c hc => (hhead c hc).2)))

/-- A minus sign in front of a number is part of it. -/
theorem bare_applySign_num {found : Expr} {value : Float} {inner : Span}
    (hbare : found.bare = (Expr.num value inner).bare) (span : Span) :
    (Part.applySign span .neg found).bare = .num (-value) {} := by
  rw [Expr.bare] at hbare
  cases found with
  | num number at_ =>
    rw [Expr.bare] at hbare
    injection hbare with hnumber
    rw [Part.applySign, Expr.bare, hnumber]
  | call callee args body at_ =>
    cases body with
    | none => rw [Expr.bare] at hbare; cases hbare
    | some body => rw [Expr.bare] at hbare; cases hbare
  | _ => rw [Expr.bare] at hbare; cases hbare

/-- A numeral is the digits of its magnitude, behind a minus sign if it is negative. -/
theorem write_num {n : Int} (h : n.natAbs < 2 ^ 53) (span : Span) (rest : List Char) :
    (Expr.num (Float.ofInt n) span).write rest =
      (if n < 0 then ['-'] else []) ++ (Nat.toDigits 10 n.natAbs ++ rest) := by
  rw [Expr.write, numeralText, Number.truncate?_ofInt h]
  simp only [List.append_assoc, Number.Decimal.digitText]

/-- Digits are read as a literal. -/
theorem reads_digits (n : Nat) (span : Span) (hrest : Closes rest) :
    Reads (.rule .primary) (Nat.toDigits 10 n ++ rest) rest (Value (.num (Float.ofNat n) span)) := by
  have hdigit : ∀ c ∈ rest.head?, isDigit c = false := by
    obtain ⟨c, more, rfl, hc⟩ := hrest
    have hno : ∀ c ∈ [')', ']', ',', ';'], isDigit c = false := by decide
    intro d hd
    obtain rfl := Option.some.inj hd
    exact hno _ hc
  have hnumber := (reads_number n hdigit (hrest.refuses_word (by decide) (by decide))).mono
    (Q := Value (.num (Float.ofNat n) span)) fun parts hparts => by
      obtain ⟨inner, rfl⟩ := hparts
      exact .of_expr (by rw [Expr.bare, Expr.bare])
  have hhead : ∀ c ∈ (Nat.toDigits 10 n ++ rest).head?, isNameStart c = false := by
    obtain ⟨c, hhead, hc⟩ := head_of_digits n rest
    intro d hd
    rw [hhead] at hd
    obtain rfl := Option.some.inj hd
    rw [← Bool.not_eq_true]
    intro hstart
    rw [(classes_of_isNameStart hstart).2] at hc
    cases hc
  refine reads_literal (.silent_rule rfl (reads_alts [.rule .nullLit, .rule .boolLit] (fun exp hexp => ?_) hnumber))
  simp only [List.mem_cons, List.not_mem_nil, or_false] at hexp
  rcases hexp with rfl | rfl
  · exact .rule (refuses_keyword_of_head (by decide) hhead)
  · exact .rule (refuses_keyword_of_head (by decide) hhead)

/-- **A numeral**: a minus sign in front of digits is part of the number. -/
theorem readsBack_num {value : Float} (span : Span) (h : IsNumeral value) : (Expr.num value span).ReadsBack := by
  obtain ⟨n, hn, rfl⟩ := h
  by_cases hsign : n < 0
  · have hstands : ∀ rest, Stands ((Expr.num (Float.ofInt n) span).write rest) := by
      intro rest
      rw [write_num hn, if_pos hsign]
      exact stands_cons rfl (by decide)
    have hvalue : -(Float.ofNat n.natAbs) = Float.ofInt n := by
      obtain n | n := n
      · exact absurd hsign (Int.not_lt.mpr (Int.natCast_nonneg n))
      · rfl
    refine ⟨hstands, fun rest => ?_, fun rest hrest => ?_⟩
    · rw [write_num hn, if_pos hsign]
      exact fun heq => absurd (Option.some.inj heq) (by decide)
    rw [write_num hn, if_pos hsign]
    have hstarts := starts_digits n.natAbs rest
    have hread := reads_signed .neg (reads_digits n.natAbs span hrest) hstarts.stands hstarts.unsigned
    refine reads_expression (Nat.zero_le 6) (hread.mono fun parts hparts => ?_) hrest
    obtain ⟨inner, found, rfl, hbare⟩ := hparts
    refine .of_expr ?_
    rw [bare_applySign_num hbare, hvalue, Expr.bare]
  · have hvalue : Float.ofNat n.natAbs = Float.ofInt n := by
      obtain n | n := n
      · rfl
      · exact absurd (Int.negSucc_lt_zero n) hsign
    refine .of_primary (fun rest => ?_) fun rest hrest => ?_
    · rw [write_num hn, if_neg hsign]
      exact starts_digits n.natAbs rest
    · rw [write_num hn, if_neg hsign, ← hvalue]
      exact reads_digits n.natAbs span hrest

theorem readsBack_list {elements : List Expr} (span : Span) (h : ∀ e ∈ elements, e.ReadsBack) :
    (Expr.list elements span).ReadsBack := by
  refine .of_primary (fun rest => ?_) fun rest _ => ?_
  · rw [Expr.write]
    exact starts_cons (by decide)
  · rw [Expr.write]
    exact reads_list h rest

theorem readsBack_ident {name : String} (span : Span) (hname : IsName name) : (Expr.ident name span).ReadsBack := by
  refine .of_primary (fun rest => ?_) fun rest hrest => ?_
  · rw [Expr.write]
    exact starts_name hname rest
  · rw [Expr.write]
    exact reads_variable hname hrest

theorem readsBack_call {callee : String} {args : List Expr} (span : Span) (hcallee : IsName callee)
    (hargs : ∀ e ∈ args, e.ReadsBack) : (Expr.call callee args none span).ReadsBack := by
  refine .of_primary (fun rest => ?_) fun rest hrest => ?_
  · rw [Expr.write]
    exact starts_name hcallee _
  · rw [Expr.write]
    refine reads_call hcallee hargs hrest.stands ((Language.Reads.opt_none (refuses_closure ?_)).mono ?_)
    · obtain ⟨c, more, rfl, hc⟩ := hrest
      have hno : ∀ c ∈ [')', ']', ',', ';'], c ≠ '\x7b' := by decide
      exact fun heq => hno c hc (Option.some.inj heq)
    · rintro parts rfl
      exact .inl ⟨rfl, rfl⟩

/-- A call may have a body behind its brackets. -/
theorem readsBack_call_body {callee : String} {args : List Expr} {body : Stmt} (span : Span)
    (hcallee : IsName callee) (hargs : ∀ e ∈ args, e.ReadsBack) (hblock : body.isBlock = true)
    (hbody : body.ReadsBraced) : (Expr.call callee args (some body) span).ReadsBack := by
  refine .of_primary (fun rest => ?_) fun rest _ => ?_
  · rw [Expr.write]
    exact starts_name hcallee _
  · rw [Expr.write]
    have hclosure := hbody .closure (.inr rfl) rest
    refine reads_call hcallee hargs (stands_body hblock rest) (.opt (hclosure.mono fun parts hparts => ?_))
    obtain ⟨part, rfl, hshows⟩ := hparts
    exact .inr ⟨part, body, rfl, rfl, hshows⟩

theorem readsBack_closure {body : Stmt} (span : Span) (hblock : body.isBlock = true) (hbody : body.ReadsBraced) :
    (Expr.closure body span).ReadsBack := by
  refine .of_primary (fun rest => ?_) fun rest _ => ?_
  · rw [Expr.write]
    obtain ⟨statements, inner, rfl⟩ := exists_of_isBlock hblock
    rw [Stmt.write]
    exact starts_cons (by decide)
  · rw [Expr.write]
    exact reads_closure hblock hbody rest

/-! ### Operators between parentheses -/

/-- A sign in front of what is no number is an operator. -/
theorem bare_applySign {op : UnaryOp} {found operand : Expr} (hbare : found.bare = operand.bare)
    (hop : ¬(op = .neg ∧ operand.isNumber = true)) (span inner : Span) :
    (Part.applySign span op found).bare = (Expr.unary op operand inner).bare := by
  unfold Part.applySign
  split
  · next value at_ =>
    rw [← isNumber_bare operand, ← hbare, isNumber_bare] at hop
    exact absurd ⟨rfl, rfl⟩ hop
  · rw [Expr.bare, Expr.bare, hbare]

/-- Parentheses stand on every level up to an operator that binds less tightly. -/
theorem reads_operand {level : Nat} (hlevel : level ≤ 6) (he : e.ReadsBack) (hrest : Stands rest)
    (hops : ∀ low < level, Refuses (operators low) rest) :
    Reads (.rule (levelRule level)) ('(' :: e.write (')' :: rest)) rest (Value e) := by
  have hunsigned := reads_unsigned (reads_parentheses he rest) (stands_cons rfl (by decide))
    (unsigned_cons (by decide))
  exact reads_above (Nat.zero_le level) hlevel hunsigned hrest fun low _ hlow => hops low hlow

/-- An operator is read back with its operand in brackets. A minus sign before a number is part of the
number, so that one is left out. -/
theorem readsBack_unary {op : UnaryOp} {operand : Expr} (span : Span)
    (hop : ¬(op = .neg ∧ operand.isNumber = true)) (h : operand.ReadsBack) :
    (Expr.unary op operand span).ReadsBack where
  stands rest := by
    rw [Expr.write]
    cases op with
    | not => exact stands_cons rfl (by decide)
    | neg => exact stands_cons rfl (by decide)
  apart rest := by
    rw [Expr.write]
    cases op with
    | not => exact fun heq => absurd (Option.some.inj heq) (by decide)
    | neg => exact fun heq => absurd (Option.some.inj heq) (by decide)
  reads rest hrest := by
    rw [Expr.write]
    have hsigned := reads_signed op (reads_parentheses h rest) (stands_cons rfl (by decide))
      (unsigned_cons (by decide))
    refine reads_expression (Nat.zero_le 6) (hsigned.mono fun parts hparts => ?_) hrest
    obtain ⟨inner, found, rfl, hbare⟩ := hparts
    exact .of_expr (bare_applySign hbare hop inner span)

theorem stands_operator (op : BinaryOp) (more : List Char) : Stands (op.symbol.toList ++ '(' :: more) := by
  by_cases hdiv : op = .div
  · -- One slash alone starts no comment.
    subst hdiv
    refine ⟨fun c hc => ?_, fun h => ?_, fun h => ?_⟩
    · obtain rfl := Option.some.inj hc
      rfl
    · exact absurd (List.cons_prefix_cons.mp (List.cons_prefix_cons.mp h).2).1 (by decide)
    · exact absurd (List.cons_prefix_cons.mp (List.cons_prefix_cons.mp h).2).1 (by decide)
  · cases op with
    | div => exact absurd rfl hdiv
    | _ => exact stands_cons rfl (by decide)

/-- An operator is read back between its operands, each of which is in brackets. -/
theorem readsBack_binary {left right : Expr} (op : BinaryOp) (span : Span) (hleft : left.ReadsBack)
    (hright : right.ReadsBack) : (Expr.binary op left right span).ReadsBack where
  stands rest := by
    rw [Expr.write]
    exact stands_cons rfl (by decide)
  apart rest := by
    rw [Expr.write]
    exact fun heq => absurd (Option.some.inj heq) (by decide)
  reads rest hrest := by
    rw [Expr.write]
    have hlevel : op.level < 6 := by cases op <;> decide
    have hstands := stands_operator op (right.write (')' :: rest))
    have hl := reads_operand (Nat.le_of_lt hlevel) hleft hstands fun low hlow => refuses_looser op hlow _
    have hr := reads_operand (Nat.le_of_lt hlevel) hright hrest.stands fun low _ => hrest.operators low
    exact reads_expression hlevel (reads_binary hl hstands hr hrest.stands (hrest.operators op.level)) hrest

end DurableFlow.Script
