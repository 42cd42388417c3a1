/-
Operands and operators are read back.

The levels of precedence form a row of rules, each a chain of operands of the level
below. An operand is read on every level above its own as long as no operator of these
levels follows; so it is enough to say which rule reads an expression first, and which
operators a text does not start with.
-/
import DurableFlow.Proofs.Script.Lexemes

set_option autoImplicit false

namespace DurableFlow.Script

open Text Text.Peg Grammar
open scoped Members

variable {cs mid later rest : List Char} {P Q : List Part → Prop} {e : Expr}

/-! ## What parts stand for -/

/-- Used as a value, a part is this expression, up to spans. -/
def Part.Shows (part : Part) (e : Expr) : Prop :=
  ∃ found, part.expr? = some found ∧ found.bare = e.bare

/-- There is one part, and it is this expression. -/
def Value (e : Expr) (parts : List Part) : Prop := ∃ part, parts = [part] ∧ part.Shows e

theorem Value.of_expr {found : Expr} (h : found.bare = e.bare) : Value e [.expr found] :=
  ⟨.expr found, rfl, found, rfl, h⟩

/-! ## Operators -/

/-- The rule of an operator. -/
def BinaryOp.rule : BinaryOp → Rule
  | .and => .opAnd
  | .or => .opOr
  | .eq => .opEq
  | .ne => .opNe
  | .lt => .opLt
  | .lte => .opLte
  | .gt => .opGt
  | .gte => .opGte
  | .add => .opAdd
  | .sub => .opSub
  | .mul => .opMul
  | .div => .opDiv
  | .mod => .opMod

/-- The levels of precedence, from the tightest on. -/
def levelRule : Nat → Rule
  | 0 => .unaryExpr
  | 1 => .multiplicativeExpr
  | 2 => .additiveExpr
  | 3 => .comparisonExpr
  | 4 => .equalityExpr
  | 5 => .andExpr
  | _ => .orExpr

/-- The operators between operands of a level, in the order in which they are tried. -/
def levelOps : Nat → List BinaryOp
  | 0 => [.mul, .div, .mod]
  | 1 => [.add, .sub]
  | 2 => [.lte, .gte, .lt, .gt]
  | 3 => [.eq, .ne]
  | 4 => [.and]
  | _ => [.or]

/-- The level of the operands of an operator. -/
def BinaryOp.level : BinaryOp → Nat
  | .mul => 0
  | .div => 0
  | .mod => 0
  | .add => 1
  | .sub => 1
  | .lt => 2
  | .lte => 2
  | .gt => 2
  | .gte => 2
  | .eq => 3
  | .ne => 3
  | .and => 4
  | .or => 5

/-- Any of the operators between operands of a level. -/
def operators (level : Nat) : Exp Rule := alts ((levelOps level).map fun op => .rule op.rule)

theorem define_level {level : Nat} (h : level < 6) : language.grammar.define (levelRule (level + 1)) =
    plain (.seq (.rule (levelRule level)) (.many (.seq (operators level) (.rule (levelRule level))))) := by
  match level with
  | 0 => rfl
  | 1 => rfl
  | 2 => rfl
  | 3 => rfl
  | 4 => rfl
  | 5 => rfl

theorem ofNode_level {level : Nat} (h : level < 6) (span : Span) (first : Part) (others : List Part) :
    Part.ofNode (levelRule (level + 1)) span (first :: others) =
      (do return .expr (← Part.joinChain (← first.expr?) others)) := by
  match level with
  | 0 => rfl
  | 1 => rfl
  | 2 => rfl
  | 3 => rfl
  | 4 => rfl
  | 5 => rfl

theorem define_operator (op : BinaryOp) :
    language.grammar.define op.rule = plain (word op.symbol) := by
  cases op <;> rfl

theorem ofNode_operator (op : BinaryOp) (span : Span) :
    Part.ofNode op.rule span [] = some (.binaryOp op) := by
  cases op <;> rfl

theorem refuses_operator {op : BinaryOp} (h : ¬ op.symbol.toList <+: cs) : Refuses (.rule op.rule) cs := by
  refine .rule ?_
  rw [define_operator]
  exact refuses_word h

theorem reads_operator (op : BinaryOp) (rest : List Char) :
    Reads (.rule op.rule) (op.symbol.toList ++ rest) rest (fun parts => parts = [.binaryOp op]) := by
  have hkind : (language.grammar.define op.rule).kind = .plain := by rw [define_operator]; rfl
  refine .node (P := Silent) (.inl hkind) (by decide) ?_ fun span parts h =>
    ⟨.binaryOp op, node_eq_ok ?_, rfl⟩
  · rw [define_operator]
    exact reads_word op.symbol rest
  · rw [show parts = [] from h]
    exact ofNode_operator op span

/-- No operator of a level is refused at each of them. -/
theorem refuses_operators {level : Nat} (h : ∀ op ∈ levelOps level, ¬ op.symbol.toList <+: cs) :
    Refuses (operators level) cs := by
  refine refuses_alts fun exp hexp => ?_
  obtain ⟨op, hop, rfl⟩ := List.mem_map.mp hexp
  exact refuses_operator (h op hop)

/-- In front of a parenthesis only the symbol of the operator itself matters. -/
theorem symbol_starts {op other : BinaryOp} {more : List Char}
    (h : other.symbol.toList <+: op.symbol.toList ++ '(' :: more) :
    other.symbol.toList.isPrefixOf (op.symbol.toList ++ ['(']) = true := by
  have hlength : ∀ op other : BinaryOp, other.symbol.toList.length ≤ (op.symbol.toList ++ ['(']).length := by
    intro op other
    cases op <;> cases other <;> decide
  have hwhole : op.symbol.toList ++ ['('] <+: op.symbol.toList ++ '(' :: more :=
    (List.prefix_append_right_inj _).mpr ⟨more, rfl⟩
  exact List.isPrefixOf_iff_prefix.mpr (List.prefix_of_prefix_length_le h hwhole (hlength op other))

/-- On its own level an operator is read. -/
theorem reads_operators (op : BinaryOp) (more : List Char) :
    Reads (operators op.level) (op.symbol.toList ++ '(' :: more) ('(' :: more)
      (fun parts => parts = [.binaryOp op]) := by
  -- of the operators of a level the first that is a prefix counts, as `<=` has to come before `<`
  have hfirst : (levelOps op.level).find? (fun other =>
      other.symbol.toList.isPrefixOf (op.symbol.toList ++ ['('])) = some op := by
    cases op <;> decide
  obtain ⟨-, before, after, hsplit, hbefore⟩ := List.find?_eq_some_iff_append.mp hfirst
  unfold operators
  rw [hsplit, List.map_append, List.map_cons]
  refine reads_alts _ (fun exp hexp => ?_) (reads_operator op _)
  obtain ⟨other, hother, rfl⟩ := List.mem_map.mp hexp
  refine refuses_operator fun hprefix => ?_
  have hno := hbefore other hother
  rw [symbol_starts hprefix] at hno
  cases hno

/-- On a tighter level it is not. -/
theorem refuses_looser (op : BinaryOp) {level : Nat} (h : level < op.level) (more : List Char) :
    Refuses (operators level) (op.symbol.toList ++ '(' :: more) := by
  have hapart : ∀ op : BinaryOp, ∀ level < op.level, ∀ other ∈ levelOps level,
      other.symbol.toList.isPrefixOf (op.symbol.toList ++ ['(']) = false := by
    intro op
    cases op <;> decide
  refine refuses_operators fun other hother hprefix => ?_
  have hno := hapart op level h other hother
  rw [symbol_starts hprefix] at hno
  cases hno

/-! ## Levels -/

/-- An operand with no operator behind it. -/
theorem reads_alone {level : Nat} (hlevel : level < 6)
    (h : Reads (.rule (levelRule level)) cs rest (Value e)) (hrest : Stands rest)
    (hops : Refuses (operators level) rest) : Reads (.rule (levelRule (level + 1))) cs rest (Value e) := by
  have hkind : (language.grammar.define (levelRule (level + 1))).kind = .plain := by
    rw [define_level hlevel]
    rfl
  refine .node (P := Value e) (.inl hkind) (by decide) ?_ fun span parts hparts => ?_
  -- the operand is read, and no round of operator and operand follows
  · rw [define_level hlevel]
    exact .seq_silent h (skips_none hrest) (.many_none (.seq_left hops))
  · obtain ⟨part, rfl, found, hfound, hbare⟩ := hparts
    refine ⟨.expr found, node_eq_ok ?_, .of_expr hbare⟩
    rw [ofNode_level hlevel, hfound]
    rfl

/-- An operand is read on each level above its own whose operators do not follow. -/
theorem reads_above {low high : Nat} (hle : low ≤ high) (hhigh : high ≤ 6)
    (h : Reads (.rule (levelRule low)) cs rest (Value e)) (hrest : Stands rest)
    (hops : ∀ level, low ≤ level → level < high → Refuses (operators level) rest) :
    Reads (.rule (levelRule high)) cs rest (Value e) := by
  induction hle with
  | refl => exact h
  | @step high hle ih =>
    have hbelow := ih (by omega) fun level hlow hlevel => hops level hlow (by omega)
    exact reads_alone (by omega) hbelow hrest (hops high hle (by omega))

/-- **Two operands with an operator between them.** -/
theorem reads_binary {op : BinaryOp} {left right : Expr} {span : Span} {more : List Char}
    (hleft : Reads (.rule (levelRule op.level)) cs (op.symbol.toList ++ '(' :: more) (Value left))
    (hstands : Stands (op.symbol.toList ++ '(' :: more))
    (hright : Reads (.rule (levelRule op.level)) ('(' :: more) rest (Value right)) (hrest : Stands rest)
    (hops : Refuses (operators op.level) rest) :
    Reads (.rule (levelRule (op.level + 1))) cs rest (Value (.binary op left right span)) := by
  have hlevel : op.level < 6 := by cases op <;> decide
  have hkind : (language.grammar.define (levelRule (op.level + 1))).kind = .plain := by
    rw [define_level hlevel]
    rfl
  -- one round reads the operator and the right operand, and no operator follows
  have hmany : Reads (.many (.seq (operators op.level) (.rule (levelRule op.level))))
      (op.symbol.toList ++ '(' :: more) rest (Then (fun parts => parts = [.binaryOp op]) (Value right)) := by
    have hround := Language.Reads.seq (reads_operators op more) (skips_none (stands_cons rfl (by decide))) hright
    exact Language.Rounds.many (.one (skips_none hstands) hround (skips_none hrest) (.seq_left hops))
  refine .node (P := Then (Value left) (Then (fun parts => parts = [.binaryOp op]) (Value right)))
    (.inl hkind) (by decide) ?_ fun inner parts hparts => ?_
  · rw [define_level hlevel]
    exact .seq hleft (skips_none hstands) hmany
  · obtain ⟨_, _, rfl, ⟨first, rfl, l, hl, hlbare⟩, _, _, rfl, rfl, second, rfl, r, hr, hrbare⟩ := hparts
    refine ⟨.expr (.binary op l r (l.span.merge r.span)), node_eq_ok ?_, .of_expr ?_⟩
    · simp only [List.cons_append, List.nil_append]
      rw [ofNode_level hlevel, hl]
      simp [Part.joinChain, hr]
    · rw [Expr.bare, Expr.bare, hlbare, hrbare]

/-! ## Expressions at their ends -/

/-- A text that goes on behind an expression. -/
def Closes (cs : List Char) : Prop := ∃ c more, cs = c :: more ∧ c ∈ [')', ']', ',', ';']

theorem closes_cons {c : Char} (h : c ∈ [')', ']', ',', ';']) : Closes (c :: rest) := ⟨c, rest, rfl, h⟩

theorem Closes.stands (h : Closes cs) : Stands cs := by
  obtain ⟨c, more, rfl, hc⟩ := h
  have hno : ∀ c ∈ [')', ']', ',', ';'], isBlank c = false ∧ c ≠ '/' := by decide
  exact stands_cons (hno c hc).1 (hno c hc).2

theorem Closes.parts (h : Closes cs) : Parts cs := by
  obtain ⟨c, more, rfl, hc⟩ := h
  have hno : ∀ c ∈ [')', ']', ',', ';'], isNameChar c = false := by decide
  exact parts_cons (hno c hc)

theorem Closes.refuses_word {w : String} (hno : ∀ c ∈ w.toList.head?, c ∉ [')', ']', ',', ';'])
    (hw : w.toList ≠ []) (h : Closes cs) : ¬ w.toList <+: cs := by
  obtain ⟨c, more, rfl, hc⟩ := h
  rcases hsplit : w.toList with _ | ⟨d, ds⟩
  · exact absurd hsplit hw
  · intro hprefix
    rw [hsplit] at hno
    obtain rfl := (List.cons_prefix_cons.mp hprefix).1
    exact hno d rfl hc

/-- No operator follows an expression. -/
theorem Closes.operators (h : Closes cs) (level : Nat) : Refuses (operators level) cs := by
  have hhead : ∀ op : BinaryOp, (∀ c ∈ op.symbol.toList.head?, c ∉ [')', ']', ',', ';']) ∧
      op.symbol.toList ≠ [] := by
    intro op
    cases op <;> decide
  exact refuses_operators fun op _ => h.refuses_word (hhead op).1 (hhead op).2

/-- **An expression is read from any of its levels.** -/
theorem reads_expression {level : Nat} (hlevel : level ≤ 6)
    (h : Reads (.rule (levelRule level)) cs rest (Value e)) (hrest : Closes rest) :
    Reads (.rule .expression) cs rest (Value e) := by
  have hor : Reads (.rule (levelRule 6)) cs rest (Value e) :=
    reads_above hlevel (Nat.le_refl 6) h hrest.stands fun level _ _ => hrest.operators level
  refine .node (P := Value e) (.inl rfl) (by decide) hor fun span parts hparts => ?_
  obtain ⟨part, rfl, found, hfound, hbare⟩ := hparts
  refine ⟨.expr found, node_eq_ok ?_, .of_expr hbare⟩
  simp [Part.ofNode, hfound]

/-! ## Heads of texts -/

/-- A text that starts with another character does not start with a word. -/
theorem not_starts {w cs : List Char} {c : Char} (hw : w.head? = some c) (h : cs.head? ≠ some c) : ¬ w <+: cs := by
  rintro ⟨more, rfl⟩
  obtain _ | ⟨d, w⟩ := w
  · cases hw
  · exact h hw

theorem refuses_symbol {w : String} {c : Char} (hw : w.toList.head? = some c) (h : cs.head? ≠ some c) :
    Refuses (word w) cs := refuses_word (not_starts hw h)

/-- What may start a name is neither a blank nor a digit. -/
theorem classes_of_isNameStart {c : Char} (h : isNameStart c = true) :
    isBlank c = false ∧ isDigit c = false := by
  have hcode : ∀ d : Char, c = d ↔ c.toNat = d.toNat := fun d => Char.toNat_inj.symm
  simp only [isNameStart, isLetter, isBlank, isDigit, Bool.or_eq_true, Bool.and_eq_true, Bool.or_eq_false_iff,
    Bool.and_eq_false_iff, decide_eq_true_eq, decide_eq_false_iff_not, Char.le_def,
    UInt32.le_iff_toNat_le, hcode] at h ⊢
  simp at h ⊢
  omega

/-- A name starts like a name. -/
theorem head_of_name {name : String} (hname : IsName name) (rest : List Char) :
    ∃ c, (name.toList ++ rest).head? = some c ∧ isNameStart c = true := by
  obtain ⟨⟨c, hc, hstart⟩, -, -⟩ := hname
  refine ⟨c, ?_, hstart⟩
  rw [List.head?_append, hc]
  rfl

/-- What is no start of a name does not stand at the start of one. -/
theorem head_ne_of_name {name : String} (hname : IsName name) (rest : List Char) {c : Char}
    (hc : isNameStart c = false) : (name.toList ++ rest).head? ≠ some c := by
  obtain ⟨d, hhead, hstart⟩ := head_of_name hname rest
  rw [hhead]
  intro heq
  rw [Option.some.inj heq, hc] at hstart
  cases hstart

/-- A keyword starts like a name. -/
theorem head_of_keyword {w : String} (hw : w ∈ keywords) (rest : List Char) :
    ∃ c, (w.toList ++ rest).head? = some c ∧ isNameStart c = true := by
  have hhead : ∀ w ∈ keywords, ∃ c, w.toList.head? = some c ∧ isNameStart c = true := by decide
  obtain ⟨c, hc, hstart⟩ := hhead w hw
  refine ⟨c, ?_, hstart⟩
  rw [List.head?_append, hc]
  rfl

/-- Digits start with one. -/
theorem head_of_digits (n : Nat) (rest : List Char) :
    ∃ c, (Nat.toDigits 10 n ++ rest).head? = some c ∧ isDigit c = true := by
  rcases hsplit : Nat.toDigits 10 n with _ | ⟨c, digits⟩
  · exact absurd hsplit Nat.toDigits_ne_nil
  · exact ⟨c, rfl, isDigit_of_mem_toDigits (hsplit ▸ List.mem_cons_self)⟩

/-- Whether a text starts without a sign. -/
def Unsigned (cs : List Char) : Prop := cs.head? ≠ some '!' ∧ cs.head? ≠ some '-'

/-- The start of an operand without a sign, as a text. -/
structure Starts (cs : List Char) : Prop where
  stands : Stands cs
  unsigned : Unsigned cs
  apart : cs.head? ≠ some '='

theorem starts_cons {c : Char} (h : isBlank c = false ∧ c ∉ ['/', '!', '-', '=']) : Starts (c :: rest) := by
  obtain ⟨hblank, hc⟩ := h
  simp only [List.mem_cons, List.not_mem_nil, or_false, not_or] at hc
  refine ⟨stands_cons hblank hc.1, ⟨?_, ?_⟩, ?_⟩
  · exact fun heq => hc.2.1 (Option.some.inj heq)
  · exact fun heq => hc.2.2.1 (Option.some.inj heq)
  · exact fun heq => hc.2.2.2 (Option.some.inj heq)

/-- A name or a number is such a start. -/
theorem starts_of_head {c : Char} (hhead : cs.head? = some c) (hc : isNameStart c = true ∨ isDigit c = true) :
    Starts cs := by
  obtain ⟨d, more, rfl⟩ : ∃ d more, cs = d :: more := by
    obtain _ | ⟨d, more⟩ := cs
    · cases hhead
    · exact ⟨d, more, rfl⟩
  obtain rfl := Option.some.inj hhead
  refine starts_cons ⟨?_, fun hmem => ?_⟩
  · rw [← Bool.not_eq_true]
    intro hblank
    simp only [isBlank, Bool.or_eq_true, decide_eq_true_eq] at hblank
    rcases hblank with ((rfl | rfl) | rfl) | rfl
    all_goals exact absurd hc (by decide)
  -- a blank or one of these signs is neither a letter nor a digit
  · have hno : ∀ c ∈ ['/', '!', '-', '='], ¬(isNameStart c = true ∨ isDigit c = true) := by decide
    exact hno _ hmem hc

theorem starts_name {name : String} (hname : IsName name) (rest : List Char) : Starts (name.toList ++ rest) := by
  obtain ⟨c, hhead, hstart⟩ := head_of_name hname rest
  exact starts_of_head hhead (.inl hstart)

theorem starts_keyword {w : String} (hw : w ∈ keywords) (rest : List Char) : Starts (w.toList ++ rest) := by
  obtain ⟨c, hhead, hstart⟩ := head_of_keyword hw rest
  exact starts_of_head hhead (.inl hstart)

theorem starts_digits (n : Nat) (rest : List Char) : Starts (Nat.toDigits 10 n ++ rest) := by
  obtain ⟨c, hhead, hdigit⟩ := head_of_digits n rest
  exact starts_of_head hhead (.inr hdigit)

theorem unsigned_cons {c : Char} (h : c ≠ '!' ∧ c ≠ '-') : Unsigned (c :: rest) :=
  ⟨fun heq => h.1 (Option.some.inj heq), fun heq => h.2 (Option.some.inj heq)⟩

/-! ## Signs -/

/-- The rule of a sign. -/
def UnaryOp.rule : UnaryOp → Rule
  | .not => .opNot
  | .neg => .opNeg

theorem refuses_sign (h : Unsigned cs) : Refuses (.alt (.rule .opNot) (.rule .opNeg)) cs :=
  .alt (.rule (refuses_symbol rfl h.1)) (.rule (refuses_symbol rfl h.2))

theorem reads_sign (op : UnaryOp) (rest : List Char) : Reads (.alt (.rule .opNot) (.rule .opNeg))
    (op.symbol.toList ++ rest) rest (fun parts => parts = [.unaryOp op]) := by
  cases op with
  | not =>
    refine .alt_left (.node (P := Silent) (.inl rfl) (by decide) (reads_word "!" rest) fun span parts h => ?_)
    rw [show parts = [] from h]
    exact ⟨_, rfl, rfl⟩
  | neg =>
    refine .alt_right (.rule (refuses_symbol rfl (show some '-' ≠ some '!' by decide))) ?_
    refine .node (P := Silent) (.inl rfl) (by decide) (reads_word "-" rest) fun span parts h => ?_
    rw [show parts = [] from h]
    exact ⟨_, rfl, rfl⟩

/-- An operand without a sign. -/
theorem reads_unsigned (h : Reads (.rule .primary) cs rest (Value e)) (hstands : Stands cs)
    (hsign : Unsigned cs) : Reads (.rule (levelRule 0)) cs rest (Value e) := by
  refine .node (P := Value e) (.inl rfl) (by decide) ?_ fun span parts hparts => ?_
  · exact .silent_seq (.many_none (refuses_sign hsign)) (skips_none hstands) h
  · obtain ⟨part, rfl, found, hfound, hbare⟩ := hparts
    refine ⟨.expr found, node_eq_ok ?_, .of_expr hbare⟩
    simp [levelRule, Part.ofNode, Part.applySigns, hfound]

/-- An operand with a sign in front of it. -/
theorem reads_signed (op : UnaryOp) (h : Reads (.rule .primary) cs rest (Value e)) (hstands : Stands cs)
    (hsign : Unsigned cs) : Reads (.rule (levelRule 0)) (op.symbol.toList ++ cs) rest
      (fun parts => ∃ span found, parts = [.expr (Part.applySign span op found)] ∧ found.bare = e.bare) := by
  have hsigns : Reads (.many (.alt (.rule .opNot) (.rule .opNeg))) (op.symbol.toList ++ cs) cs
      (fun parts => parts = [.unaryOp op]) :=
    Language.Rounds.many (.one (skips_none (by cases op <;> exact stands_cons rfl (by decide)))
      (reads_sign op cs) (skips_none hstands) (refuses_sign hsign))
  refine .node (.inl rfl) (by decide) (.seq hsigns (skips_none hstands) h) fun span parts hparts => ?_
  obtain ⟨_, _, rfl, rfl, part, rfl, found, hfound, hbare⟩ := hparts
  refine ⟨.expr (Part.applySign span op found), node_eq_ok ?_, span, found, rfl, hbare⟩
  simp [levelRule, Part.ofNode, Part.applySigns, hfound]

end DurableFlow.Script
