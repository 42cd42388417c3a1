/-
Where the statements and expressions of a script stand in its source.

A node of the syntax takes its span from the place where a rule of the grammar has matched, with
two exceptions: a binary expression covers its operands, so brackets around them are not part of
it, and a number with signs in front of it has the span of the signs and the digits. Either way the
span of a node lies in the source, the spans of its parts lie inside it, and they follow each other
in the order in which the parts are written.

The trees of the grammar stand in rows, and what a rule reads from its parts are the statements and
expressions that the parts hold, in the same order. So it is enough to look at each rule by itself.
-/
import DurableFlow.Proofs.Script.Lexemes
import DurableFlow.Proofs.Text.Spans
import Mathlib.Logic.Relation

set_option autoImplicit false

namespace DurableFlow.Script

open Text Text.Peg

/-! ## Phrases -/

/-- A node of the syntax: a statement or an expression. -/
inductive Phrase where
  | stmt (s : Stmt)
  | expr (e : Expr)

namespace Phrase

def span : Phrase → Span
  | .stmt s => s.span
  | .expr e => e.span

/-- The nodes directly below a node, in the order in which they are written. -/
def parts : Phrase → List Phrase
  | .stmt (.block body _) => body.map .stmt
  | .stmt (.bind _ init _) => init.toList.map .expr
  | .stmt (.assign _ value _) => [.expr value]
  | .stmt (.ifThen test yes no _) => .expr test :: .stmt yes :: no.toList.map .stmt
  | .stmt (.whileDo test body _) => [.expr test, .stmt body]
  | .stmt (.tryCatch body _ handler _) => [.stmt body, .stmt handler]
  | .stmt (.ret value _) => value.toList.map .expr
  | .stmt (.throw value _) => [.expr value]
  | .stmt (.eval value _) => [.expr value]
  | .stmt (.breakLoop _) => []
  | .stmt (.continueLoop _) => []
  | .expr (.null _) => []
  | .expr (.bool _ _) => []
  | .expr (.num _ _) => []
  | .expr (.str _ _) => []
  | .expr (.list elements _) => elements.map .expr
  | .expr (.ident _ _) => []
  | .expr (.call _ args body _) => args.map .expr ++ body.toList.map .stmt
  | .expr (.closure body _) => [.stmt body]
  | .expr (.unary _ operand _) => [.expr operand]
  | .expr (.binary _ left right _) => [.expr left, .expr right]

/-- **A node occurs in another one**, anywhere below it or as that node itself. -/
def Holds : Phrase → Phrase → Prop := Relation.ReflTransGen fun p q => q ∈ p.parts

/-- **A node that stands where it says**: its span is one of the source, and those of its parts lie
inside it and follow each other. -/
structure Consistent (source : String) (p : Phrase) : Prop where
  lies : p.span.Lies source
  covers : ∀ q ∈ p.parts, p.span.Covers q.span
  ordered : p.parts.Pairwise fun q r => q.span.Before r.span

/-- All that occurs in a node stands where it says. -/
def Sound (source : String) (p : Phrase) : Prop := ∀ q, p.Holds q → q.Consistent source

/-- A node in a span of the source. -/
structure StandsIn (source : String) (lo hi : Nat) (p : Phrase) : Prop where
  from_le : lo ≤ p.span.start.offset
  le_upto : p.span.stop.offset ≤ hi
  sound : p.Sound source

/-- Nodes that stand in a row. -/
abbrev Line (source : String) : Nat → List Phrase → Nat → Prop :=
  Row source fun span => StandsIn source span.start.offset span.stop.offset

variable {source : String} {lo hi : Nat} {p : Phrase} {span : Span}

theorem Sound.lies (h : p.Sound source) : p.span.Lies source := (h p .refl).lies

/-- A node is sound if it stands where it says and its parts are sound. -/
theorem Sound.of_parts (h : p.Consistent source) (hparts : ∀ q ∈ p.parts, q.Sound source) :
    p.Sound source := by
  intro q hq
  rcases Relation.ReflTransGen.cases_head hq with rfl | ⟨r, hr, hq⟩
  · exact h
  · exact hparts r hr q hq

/-- **A node is sound if its parts stand in a row** inside its span. -/
theorem Sound.of_line (hspan : p.span.Lies source)
    (h : Line source p.span.start.offset p.parts p.span.stop.offset) : p.Sound source := by
  refine .of_parts ⟨hspan, fun q hq => ?_, ?_⟩ fun q hq => ?_
  · obtain ⟨span, hfrom, hupto, -, hstands⟩ := h.span_of_mem hq
    exact ⟨Nat.le_trans hfrom hstands.from_le, Nat.le_trans hstands.le_upto hupto⟩
  · refine h.pairwise.imp fun {q r} ⟨a, b, hq, hr, hbefore⟩ => ?_
    exact Nat.le_trans hq.le_upto (Nat.le_trans hbefore hr.from_le)
  · obtain ⟨span, -, -, -, hstands⟩ := h.span_of_mem hq
    exact hstands.sound

/-- A sound node stands in its own span. -/
theorem Sound.stands (h : p.Sound source) : p.StandsIn source p.span.start.offset p.span.stop.offset :=
  ⟨Nat.le_refl _, Nat.le_refl _, h⟩

/-- **A node stands in its span** if its parts stand in a row there. -/
theorem StandsIn.of_line (hp : p.span = span) (hspan : span.Lies source)
    (h : Line source span.start.offset p.parts span.stop.offset) :
    p.StandsIn source span.start.offset span.stop.offset := by
  subst hp
  exact (Sound.of_line hspan h).stands

/-- What stands somewhere stands in what is wider. -/
theorem StandsIn.mono {lo' hi' : Nat} (h : p.StandsIn source lo hi) (hlo : lo' ≤ lo) (hhi : hi ≤ hi') :
    p.StandsIn source lo' hi' :=
  ⟨Nat.le_trans hlo h.from_le, Nat.le_trans h.le_upto hhi, h.sound⟩

/-- A node alone is a row. -/
theorem StandsIn.alone (h : p.StandsIn source lo hi) : Line source lo [p] hi :=
  .one h.from_le h.sound.lies h.sound.stands h.le_upto

end Phrase

/-! ## Parts of the tree -/

/-- **A part of the tree in a span**: the statements and expressions in it stand there. -/
def Part.Stands (source : String) (span : Span) : Part → Prop
  | .name _ inner => inner = span
  | .expr e => (Phrase.expr e).StandsIn source span.start.offset span.stop.offset
  | .args es => Phrase.Line source span.start.offset (es.map .expr) span.stop.offset
  | .braced body inner => inner = span ∧
      Phrase.Line source span.start.offset (body.map .stmt) span.stop.offset
  | .stmt s => (Phrase.stmt s).StandsIn source span.start.offset span.stop.offset
  | .quoted _ => True
  | .binaryOp _ => True
  | .unaryOp _ => True
  | .finish => True

/-- Parts of a tree in a row. -/
abbrev Part.Line (source : String) : Nat → List Part → Nat → Prop := Row source (Part.Stands source)

/-- **The statements and expressions that parts hold**, in their order: a part may be used as a value or as
a statement, it may be arguments, or it may be left out. -/
inductive Part.Hold : List Part → List Phrase → Prop where
  | nil : Hold [] []
  | skip {part : Part} {parts : List Part} {phrases : List Phrase} (rest : Hold parts phrases) :
    Hold (part :: parts) phrases
  | expr {part : Part} {parts : List Part} {phrases : List Phrase} {e : Expr}
    (value : part.expr? = some e) (rest : Hold parts phrases) : Hold (part :: parts) (.expr e :: phrases)
  | stmt {part : Part} {parts : List Part} {phrases : List Phrase} {s : Stmt}
    (value : part.stmt? = some s) (rest : Hold parts phrases) : Hold (part :: parts) (.stmt s :: phrases)
  | args {es : List Expr} {parts : List Part} {phrases : List Phrase} (rest : Hold parts phrases) :
    Hold (.args es :: parts) (es.map .expr ++ phrases)

variable {source : String} {span : Span} {part : Part} {parts : List Part} {phrases : List Phrase}
  {p : Phrase} {e : Expr} {s : Stmt} {lo hi : Nat}

/-- Braces are a block. -/
theorem Part.Stands.block {body : List Stmt} {inner : Span} (h : (Part.braced body inner).Stands source span)
    (hspan : span.Lies source) :
    (Phrase.stmt (.block body inner)).StandsIn source span.start.offset span.stop.offset := by
  obtain ⟨rfl, hline⟩ := h
  exact .of_line rfl hspan hline

/-- A part used as a value stands where the part does. -/
theorem Part.Stands.value (h : part.Stands source span) (hspan : span.Lies source)
    (he : part.expr? = some e) : (Phrase.expr e).StandsIn source span.start.offset span.stop.offset := by
  cases part with
  | expr e' =>
    obtain rfl := Option.some.inj he
    exact h
  | name text inner =>
    obtain rfl := Option.some.inj he
    obtain rfl : inner = span := h
    exact .of_line rfl hspan (.nil hspan.forward)
  | braced body inner =>
    obtain rfl := Option.some.inj he
    obtain ⟨rfl, -⟩ := id h
    exact .of_line rfl hspan (h.block hspan).alone
  | _ => cases he

/-- A part used as a statement stands where the part does. -/
theorem Part.Stands.statement (h : part.Stands source span) (hspan : span.Lies source)
    (hs : part.stmt? = some s) : (Phrase.stmt s).StandsIn source span.start.offset span.stop.offset := by
  cases part with
  | stmt s' =>
    obtain rfl := Option.some.inj hs
    exact h
  | braced body inner =>
    obtain rfl := Option.some.inj hs
    exact h.block hspan
  | _ => cases hs

/-- **What parts in a row hold stands in a row.** -/
theorem Part.Hold.line (h : Part.Hold parts phrases) (hline : Part.Line source lo parts hi) :
    Phrase.Line source lo phrases hi := by
  induction h generalizing lo with
  | nil => exact .nil hline.le
  | skip _ ih =>
    cases hline with
    | cons hlo hspan _ hrest => exact (ih hrest).from_le (Nat.le_trans hlo hspan.forward)
  | expr value _ ih =>
    cases hline with
    | cons hlo hspan hpart hrest => exact .cons hlo hspan (hpart.value hspan value) (ih hrest)
  | stmt value _ ih =>
    cases hline with
    | cons hlo hspan hpart hrest => exact .cons hlo hspan (hpart.statement hspan value) (ih hrest)
  | args _ ih =>
    cases hline with
    | cons hlo hspan hpart hrest => exact (hpart.from_le hlo).append (ih hrest)

/-- **What a rule reads from its parts** stands in the span of the rule, if that is its span and it has in it
what the parts hold. -/
theorem Part.Hold.stands (h : Part.Hold parts p.parts) (hp : p.span = span) (hspan : span.Lies source)
    (hline : Part.Line source span.start.offset parts span.stop.offset) :
    p.StandsIn source span.start.offset span.stop.offset :=
  .of_line hp hspan (h.line hline)

/-! ## Each rule -/

theorem hold_of_stmts {body : List Stmt} (h : Part.stmts? parts = some body) :
    Part.Hold parts (body.map .stmt) := by
  induction parts generalizing body with
  | nil =>
    obtain rfl := Option.some.inj h
    exact .nil
  | cons part rest ih =>
    by_cases hfinish : part = .finish
    · subst hfinish
      exact .skip (ih h)
    · rw [Part.stmts?.eq_3 part rest hfinish] at h
      obtain ⟨s, hs, hrest⟩ := Option.bind_eq_some_iff.mp h
      obtain ⟨ss, hss, heq⟩ := Option.bind_eq_some_iff.mp hrest
      obtain rfl := Option.some.inj heq
      exact .stmt hs (ih hss)

theorem hold_of_exprs {es : List Expr} (h : parts.mapM Part.expr? = some es) :
    Part.Hold parts (es.map .expr) := by
  induction parts generalizing es with
  | nil =>
    obtain rfl := Option.some.inj h
    exact .nil
  | cons part rest ih =>
    rw [List.mapM_cons] at h
    obtain ⟨e, he, hrest⟩ := Option.bind_eq_some_iff.mp h
    obtain ⟨es, hes, heq⟩ := Option.bind_eq_some_iff.mp hrest
    obtain rfl := Option.some.inj heq
    exact .expr he (ih hes)

/-- **Two operands in a row are one expression**, from the start of the first to the end of the second. -/
theorem stands_binary {op : BinaryOp} {left right : Expr} {mid : Nat}
    (hleft : (Phrase.expr left).StandsIn source lo mid) (hright : (Phrase.expr right).StandsIn source mid hi) :
    (Phrase.expr (.binary op left right (left.span.merge right.span))).StandsIn source lo hi := by
  have hfirst : left.span.Lies source := hleft.sound.lies
  have hsecond : right.span.Lies source := hright.sound.lies
  have hfrom : lo ≤ left.span.start.offset := hleft.from_le
  have hbefore : left.span.stop.offset ≤ right.span.start.offset :=
    Nat.le_trans hleft.le_upto hright.from_le
  have hupto : right.span.stop.offset ≤ hi := hright.le_upto
  have hforward := hfirst.forward
  -- the operands are in order, so the merge starts with the first one and stops with the second one
  have hline : Phrase.Line source (left.span.merge right.span).start.offset [.expr left, .expr right]
      (left.span.merge right.span).stop.offset := by
    rw [Span.offset_start_merge, Span.offset_stop_merge]
    refine .cons (Nat.min_le_left _ _) hfirst hleft.sound.stands ?_
    exact .one hbefore hsecond hright.sound.stands (Nat.le_max_right _ _)
  have hstands : (Phrase.expr (.binary op left right (left.span.merge right.span))).StandsIn source
      (left.span.merge right.span).start.offset (left.span.merge right.span).stop.offset :=
    .of_line rfl (hfirst.merge hsecond) hline
  rw [Span.offset_start_merge, Span.offset_stop_merge] at hstands
  have hend := hsecond.forward
  exact hstands.mono (by omega) (by omega)

/-- **A chain of operands in a row is one expression.** What was joined so far ends where the rest starts. -/
theorem stands_joinChain {left : Expr} {rest : List Part} {mid : Nat}
    (hleft : (Phrase.expr left).StandsIn source lo mid) (hrest : Part.Line source mid rest hi)
    (h : Part.joinChain left rest = some e) : (Phrase.expr e).StandsIn source lo hi := by
  match rest with
  | [] =>
    obtain rfl := Option.some.inj h
    exact hleft.mono (Nat.le_refl _) hrest.le
  | .binaryOp op :: right :: more =>
    rw [Part.joinChain] at h
    obtain ⟨value, hvalue, hmore⟩ := Option.bind_eq_some_iff.mp h
    cases hrest with
    | cons hafter hop _ hoperands =>
      cases hoperands with
      | cons hbehind hspan hpart hlater =>
        have hoperand := (hpart.value hspan hvalue).mono
          (Nat.le_trans hafter (Nat.le_trans hop.forward hbehind)) (Nat.le_refl _)
        exact stands_joinChain (stands_binary hleft hoperand) hlater hmore
  | .binaryOp op :: [] => cases h
  | .name _ _ :: _ | .quoted _ :: _ | .unaryOp _ :: _ | .expr _ :: _ | .args _ :: _ | .braced _ _ :: _
  | .stmt _ :: _ | .finish :: _ => cases h

/-- A sign in front of an operand gives what is read the span of the whole, whether it is an operator or
part of a number. -/
theorem stands_applySign {op : UnaryOp} (hspan : span.Lies source)
    (h : (Phrase.expr e).StandsIn source span.start.offset span.stop.offset) :
    (Phrase.expr (Part.applySign span op e)).StandsIn source span.start.offset span.stop.offset := by
  unfold Part.applySign
  split
  · exact .of_line rfl hspan (.nil hspan.forward)
  · exact .of_line rfl hspan h.alone

/-- **Signs in front of an operand**, from the innermost on: each is put around what is read behind it. -/
theorem stands_applySigns (hspan : span.Lies source)
    (hline : Part.Line source span.start.offset parts span.stop.offset)
    (h : Part.applySigns span parts = some e) :
    (Phrase.expr e).StandsIn source span.start.offset span.stop.offset := by
  induction parts generalizing e with
  | nil => cases h
  | cons part rest ih =>
    cases hline with
    | cons hfrom hpart hstands hrest =>
      unfold Part.applySigns at h
      split at h
      · next operand heq =>
        obtain ⟨rfl, rfl⟩ := List.cons.inj heq
        exact (hstands.value hpart h).mono hfrom hrest.le
      · next op more _ heq =>
        obtain ⟨rfl, rfl⟩ := List.cons.inj heq
        obtain ⟨operand, hoperand, rfl⟩ := Option.map_eq_some_iff.mp h
        have hbehind := hrest.from_le (Nat.le_trans hfrom hpart.forward)
        exact stands_applySign hspan (ih hbehind hoperand)
      · cases h

/-- **A call** stands where its rule has matched, and its arguments and its block stand in it. -/
theorem hold_of_call (h : Part.ofCall span parts = some e) :
    e.span = span ∧ Part.Hold parts (Phrase.expr e).parts := by
  unfold Part.ofCall at h
  split at h
  · obtain rfl := Option.some.inj h
    exact ⟨rfl, .skip .nil⟩
  · next callee at_ given =>
    obtain rfl := Option.some.inj h
    exact ⟨rfl, .skip (.args .nil)⟩
  · next callee at_ body inner =>
    obtain rfl := Option.some.inj h
    exact ⟨rfl, .skip (.stmt rfl .nil)⟩
  · next callee at_ given body inner =>
    obtain rfl := Option.some.inj h
    exact ⟨rfl, .skip (.args (.stmt rfl .nil))⟩
  · cases h

/-- **A statement** stands where its rule has matched, and it has in it what the parts of the rule hold. -/
theorem hold_of_statement {rule : Rule} (h : Part.ofStatement rule span parts = some s) :
    s.span = span ∧ Part.Hold parts (Phrase.stmt s).parts := by
  unfold Part.ofStatement at h
  -- a name that is given a value, or under which a failure is caught, is no phrase and is left out
  split at h
  · obtain ⟨value, hvalue, heq⟩ := Option.bind_eq_some_iff.mp h
    obtain rfl := Option.some.inj heq
    exact ⟨rfl, .skip (.expr hvalue .nil)⟩
  · obtain ⟨value, hvalue, heq⟩ := Option.bind_eq_some_iff.mp h
    obtain rfl := Option.some.inj heq
    exact ⟨rfl, .expr hvalue .nil⟩
  · obtain rfl := Option.some.inj h
    exact ⟨rfl, .skip .nil⟩
  · obtain ⟨value, hvalue, heq⟩ := Option.bind_eq_some_iff.mp h
    obtain rfl := Option.some.inj heq
    exact ⟨rfl, .skip (.expr hvalue .nil)⟩
  · obtain ⟨test, htest, hrest⟩ := Option.bind_eq_some_iff.mp h
    obtain ⟨yes, hyes, heq⟩ := Option.bind_eq_some_iff.mp hrest
    obtain rfl := Option.some.inj heq
    exact ⟨rfl, .expr htest (.stmt hyes .nil)⟩
  · obtain ⟨test, htest, hrest⟩ := Option.bind_eq_some_iff.mp h
    obtain ⟨yes, hyes, hrest⟩ := Option.bind_eq_some_iff.mp hrest
    obtain ⟨no, hno, heq⟩ := Option.bind_eq_some_iff.mp hrest
    obtain rfl := Option.some.inj heq
    exact ⟨rfl, .expr htest (.stmt hyes (.stmt hno .nil))⟩
  · obtain ⟨test, htest, hrest⟩ := Option.bind_eq_some_iff.mp h
    obtain ⟨body, hbody, heq⟩ := Option.bind_eq_some_iff.mp hrest
    obtain rfl := Option.some.inj heq
    exact ⟨rfl, .expr htest (.stmt hbody .nil)⟩
  · obtain ⟨body, hbody, hrest⟩ := Option.bind_eq_some_iff.mp h
    obtain ⟨handler, hhandler, heq⟩ := Option.bind_eq_some_iff.mp hrest
    obtain rfl := Option.some.inj heq
    exact ⟨rfl, .stmt hbody (.skip (.stmt hhandler .nil))⟩
  · obtain rfl := Option.some.inj h
    exact ⟨rfl, .nil⟩
  · obtain ⟨value, hvalue, heq⟩ := Option.bind_eq_some_iff.mp h
    obtain rfl := Option.some.inj heq
    exact ⟨rfl, .expr hvalue .nil⟩
  · obtain ⟨value, hvalue, heq⟩ := Option.bind_eq_some_iff.mp h
    obtain rfl := Option.some.inj heq
    exact ⟨rfl, .expr hvalue .nil⟩
  · obtain rfl := Option.some.inj h
    exact ⟨rfl, .nil⟩
  · obtain rfl := Option.some.inj h
    exact ⟨rfl, .nil⟩
  · cases h

/-- **What is read from a leaf** stands in the span of the leaf. -/
theorem stands_of_ofLeaf {rule : Rule} {text : String} (hspan : span.Lies source)
    (h : Part.ofLeaf rule span text = some part) : part.Stands source span := by
  unfold Part.ofLeaf at h
  split at h
  · obtain rfl := Option.some.inj h
    exact rfl
  · obtain rfl := Option.some.inj h
    exact Phrase.StandsIn.of_line rfl hspan (.nil hspan.forward)
  · obtain rfl := Option.some.inj h
    exact Phrase.StandsIn.of_line rfl hspan (.nil hspan.forward)
  · obtain rfl := Option.some.inj h
    exact Phrase.StandsIn.of_line rfl hspan (.nil hspan.forward)
  · obtain rfl := Option.some.inj h
    exact trivial
  · obtain rfl := Option.some.inj h
    exact trivial
  · cases h

/-- An operator has nothing in it. -/
theorem stands_of_ofOperator {rule : Rule} (h : Part.ofOperator rule = some part) :
    part.Stands source span := by
  unfold Part.ofOperator at h
  split at h
  all_goals cases h
  all_goals exact trivial

/-- **What is read from a rule stands in the span of the rule**, if what is read from its parts stands in a row
there. -/
theorem stands_of_ofNode {rule : Rule} (hspan : span.Lies source)
    (hline : Part.Line source span.start.offset parts span.stop.offset)
    (h : Part.ofNode rule span parts = some part) : part.Stands source span := by
  cases rule with
  | endOfInput =>
    -- the end of the source is a part of the script, but nothing is read from it
    obtain rfl := Option.some.inj h
    exact trivial
  | program | block | closure =>
    obtain ⟨body, hbody, heq⟩ := Option.bind_eq_some_iff.mp h
    obtain rfl := Option.some.inj heq
    exact ⟨rfl, (hold_of_stmts hbody).line hline⟩
  | statement | elseClause =>
    unfold Part.ofNode at h
    dsimp only at h
    split at h
    · obtain ⟨s, hs, rfl⟩ := Option.map_eq_some_iff.mp h
      cases hline with
      | cons hfrom honly hstands hrest => exact (hstands.statement honly hs).mono hfrom hrest.le
    · cases h
  | expression =>
    unfold Part.ofNode at h
    dsimp only at h
    split at h
    · obtain ⟨e, he, rfl⟩ := Option.map_eq_some_iff.mp h
      cases hline with
      | cons hfrom honly hstands hrest => exact (hstands.value honly he).mono hfrom hrest.le
    · cases h
  | orExpr | andExpr | equalityExpr | comparisonExpr | additiveExpr | multiplicativeExpr =>
    cases hline with
    | nil => cases h
    | cons hfrom hfirst hstands hrest =>
      -- the first operand alone is where the chain starts, however far in front of it the rule began
      obtain ⟨left, hleft, hjoin⟩ := Option.bind_eq_some_iff.mp h
      obtain ⟨e, hchain, heq⟩ := Option.bind_eq_some_iff.mp hjoin
      obtain rfl := Option.some.inj heq
      have hoperand := (hstands.value hfirst hleft).mono hfrom (Nat.le_refl _)
      exact stands_joinChain hoperand hrest hchain
  | unaryExpr =>
    obtain ⟨e, he, rfl⟩ := Option.map_eq_some_iff.mp h
    exact stands_applySigns hspan hline he
  | callExpr =>
    obtain ⟨e, he, rfl⟩ := Option.map_eq_some_iff.mp h
    obtain ⟨hown, hheld⟩ := hold_of_call he
    exact hheld.stands hown hspan hline
  | argList =>
    obtain ⟨es, hes, rfl⟩ := Option.map_eq_some_iff.mp h
    exact (hold_of_exprs hes).line hline
  | listLit =>
    obtain ⟨es, hes, heq⟩ := Option.bind_eq_some_iff.mp h
    obtain rfl := Option.some.inj heq
    exact (hold_of_exprs hes).stands rfl hspan hline
  | string =>
    unfold Part.ofNode at h
    dsimp only at h
    split at h
    · obtain rfl := Option.some.inj h
      exact Phrase.StandsIn.of_line rfl hspan (.nil hspan.forward)
    · cases h
  | _ =>
    unfold Part.ofNode at h
    dsimp only at h
    split at h
    · next op hop =>
      obtain rfl := Option.some.inj h
      exact stands_of_ofOperator hop
    · obtain ⟨s, hs, rfl⟩ := Option.map_eq_some_iff.mp h
      obtain ⟨hown, hheld⟩ := hold_of_statement hs
      exact hheld.stands hown hspan hline

/-- **What the trees of a source stand for stands where the trees do.** -/
theorem places (source : String) : language.Places source (Part.Stands source) where
  leaf rule span text part hspan h := by
    dsimp only [language] at h
    split at h
    · next found hfound =>
      obtain rfl := Except.ok.inj h
      exact stands_of_ofLeaf hspan hfound
    · cases h
  node rule span parts part hspan hline h := by
    dsimp only [language] at h
    split at h
    · next found hfound =>
      obtain rfl := Except.ok.inj h
      exact stands_of_ofNode hspan hline hfound
    · cases h

/-- **Every node of a script that is read stands where its span says.** Whatever the source, and however deep
the node is in the script: the span is one of the source, so it starts not behind its end and ends not behind
the end of the source, between two characters each time, with the lines and columns of these places; the spans
of what is in the node lie inside it; and the parts of the node follow each other in the source. The script
has the span of its body. -/
theorem spans_consistent (source : String) (script : ParsedScript) (h : parse source = .ok script) :
    script.span = script.body.span ∧
      ∀ phrase, (Phrase.stmt script.body).Holds phrase → phrase.Consistent source := by
  unfold parse at h
  split at h
  · cases h
  · next tree htree =>
    split at h
    · cases h
    · next body span hbody =>
      obtain rfl := Except.ok.inj h
      rw [ofTree_eq] at hbody
      obtain ⟨at_, hlies, hstands⟩ := (places source).of_parse htree hbody
      exact ⟨rfl, (hstands.block hlies).sound⟩
    · cases h

/-- A comment and a string with letters of two bytes, and a sum over two lines: it ends inside the brackets of
its second operand. -/
theorem spans_consistent_sum :
    ∃ script, parse "// é\nf('ü', g) +\n(h)" = .ok script ∧
      ((Phrase.stmt script.body).parts.flatMap Phrase.parts).map Phrase.span =
        [⟨⟨6, 1, 0⟩, ⟨21, 2, 2⟩⟩] ∧
      ∀ phrase, (Phrase.stmt script.body).Holds phrase →
        phrase.Consistent "// é\nf('ü', g) +\n(h)" := by
  have hread : (parse "// é\nf('ü', g) +\n(h)").toOption.map (fun script =>
      ((Phrase.stmt script.body).parts.flatMap Phrase.parts).map Phrase.span) =
      some [⟨⟨6, 1, 0⟩, ⟨21, 2, 2⟩⟩] := by decide +kernel
  rcases hparse : parse "// é\nf('ü', g) +\n(h)" with e | script
  · rw [hparse] at hread
    cases hread
  · rw [hparse] at hread
    exact ⟨script, rfl, Option.some.inj hread, (spans_consistent _ script hparse).2⟩

end DurableFlow.Script
