/-
Statements as source text.

Every statement and expression that the language can express has one text here. An
operand stands in parentheses, and so does an expression that is a statement; strings
stand in single quotes, in which a quote or a backslash gets a backslash in front; a
simple statement ends with a semicolon. Blanks stand only behind keywords that would
otherwise run into a name. Text is written in front of the text that follows it.

What the language cannot express is left out by a predicate: a name that is a keyword,
a body that is no block, a number that is no integer of at most 53 bits, and a minus
in front of a number, which the reader makes part of the number.
-/
import Mathlib.Algebra.Group.Nat.Defs
import DurableFlow.Script.Parser

set_option autoImplicit false

namespace DurableFlow.Script

open Text Number

/-! ## Up to spans -/

mutual

/-- A statement without the stretches of source it came from. -/
def Stmt.bare : Stmt → Stmt
  | .block body _ => .block (bareStmts body) {}
  | .bind name none _ => .bind name none {}
  | .bind name (some value) _ => .bind name (some value.bare) {}
  | .assign name value _ => .assign name value.bare {}
  | .ifThen test yes none _ => .ifThen test.bare yes.bare none {}
  | .ifThen test yes (some no) _ => .ifThen test.bare yes.bare (some no.bare) {}
  | .whileDo test body _ => .whileDo test.bare body.bare {}
  | .tryCatch body name handler _ => .tryCatch body.bare name handler.bare {}
  | .ret none _ => .ret none {}
  | .ret (some value) _ => .ret (some value.bare) {}
  | .throw value _ => .throw value.bare {}
  | .eval expr _ => .eval expr.bare {}
  | .breakLoop _ => .breakLoop {}
  | .continueLoop _ => .continueLoop {}

/-- An expression without the stretches of source it came from. -/
def Expr.bare : Expr → Expr
  | .null _ => .null {}
  | .bool value _ => .bool value {}
  | .num value _ => .num value {}
  | .str value _ => .str value {}
  | .list elements _ => .list (bareExprs elements) {}
  | .ident name _ => .ident name {}
  | .call callee args none _ => .call callee (bareExprs args) none {}
  | .call callee args (some body) _ => .call callee (bareExprs args) (some body.bare) {}
  | .closure body _ => .closure body.bare {}
  | .unary op operand _ => .unary op operand.bare {}
  | .binary op left right _ => .binary op left.bare right.bare {}

def bareStmts : List Stmt → List Stmt
  | [] => []
  | stmt :: rest => stmt.bare :: bareStmts rest

def bareExprs : List Expr → List Expr
  | [] => []
  | expr :: rest => expr.bare :: bareExprs rest

end

/-! ## What the language expresses -/

/-- Whether a text is a name: letters, digits and underscores, no digit in front, and no keyword. -/
def IsName (name : String) : Prop :=
  (∃ c ∈ name.toList.head?, Grammar.isNameStart c = true) ∧
    (∀ c ∈ name.toList, Grammar.isNameChar c = true) ∧ name ∉ Grammar.keywords

/-- Whether a number is an integer of at most 53 bits; minus zero is none. -/
def IsNumeral (value : Float) : Prop :=
  ∃ n : Int, n.natAbs < 2 ^ 53 ∧ value = Float.ofInt n

def Expr.isNumber : Expr → Bool
  | .num _ _ => true
  | _ => false

def Stmt.isBlock : Stmt → Bool
  | .block _ _ => true
  | _ => false

def Stmt.isIf : Stmt → Bool
  | .ifThen _ _ _ _ => true
  | _ => false

theorem isNumber_bare (e : Expr) : e.bare.isNumber = e.isNumber := by
  cases e with
  | call callee args body span =>
    cases body with
    | none => rw [Expr.bare]; rfl
    | some body => rw [Expr.bare]; rfl
  | _ => rw [Expr.bare]; rfl

mutual

/-- **A statement that the language can express.** -/
def Stmt.WellFormed : Stmt → Prop
  | .block body _ => WellFormedStmts body
  | .bind name none _ => IsName name
  | .bind name (some value) _ => IsName name ∧ value.WellFormed
  | .assign name value _ => IsName name ∧ value.WellFormed
  | .ifThen test yes none _ => test.WellFormed ∧ yes.isBlock = true ∧ yes.WellFormed
  | .ifThen test yes (some no) _ => test.WellFormed ∧ (yes.isBlock = true ∧ yes.WellFormed) ∧
    (no.isBlock = true ∨ no.isIf = true) ∧ no.WellFormed
  | .whileDo test body _ => test.WellFormed ∧ body.isBlock = true ∧ body.WellFormed
  | .tryCatch body name handler _ => (body.isBlock = true ∧ body.WellFormed) ∧ IsName name ∧
    handler.isBlock = true ∧ handler.WellFormed
  | .ret none _ => True
  | .ret (some value) _ => value.WellFormed
  | .throw value _ => value.WellFormed
  | .eval expr _ => expr.WellFormed
  | .breakLoop _ => True
  | .continueLoop _ => True

/-- **An expression that the language can express.** -/
def Expr.WellFormed : Expr → Prop
  | .null _ => True
  | .bool _ _ => True
  | .num value _ => IsNumeral value
  | .str _ _ => True
  | .list elements _ => WellFormedExprs elements
  | .ident name _ => IsName name
  | .call callee args none _ => IsName callee ∧ WellFormedExprs args
  | .call callee args (some body) _ => IsName callee ∧ WellFormedExprs args ∧ body.isBlock = true ∧
    body.WellFormed
  | .closure body _ => body.isBlock = true ∧ body.WellFormed
  | .unary op operand _ => ¬(op = .neg ∧ operand.isNumber = true) ∧ operand.WellFormed
  | .binary _ left right _ => left.WellFormed ∧ right.WellFormed

def WellFormedStmts : List Stmt → Prop
  | [] => True
  | stmt :: rest => stmt.WellFormed ∧ WellFormedStmts rest

def WellFormedExprs : List Expr → Prop
  | [] => True
  | expr :: rest => expr.WellFormed ∧ WellFormedExprs rest

end

/-! ## Writing -/

/-- The digits of an integer, behind a sign if it is negative. -/
def numeralText (value : Float) : List Char :=
  match truncate? value with
  | some n => (if n < 0 then ['-'] else []) ++ Decimal.digitText n.natAbs
  | none => []

/-- How a character is written between single quotes. -/
def escapeQuoted (c : Char) : List Char :=
  if c = Grammar.singleQuote ∨ c = Grammar.backslash then [Grammar.backslash, c] else [c]

/-- The sign of an operator in front of its operand. -/
def UnaryOp.symbol : UnaryOp → String
  | .not => "!"
  | .neg => "-"

/-- A word in front of `rest`. -/
def lexeme (word : String) (rest : List Char) : List Char := word.toList ++ rest

mutual

/-- Writes a statement in front of `rest`. -/
def Stmt.write : Stmt → List Char → List Char
  | .block body _, rest => '\x7b' :: writeStmts body ('\x7d' :: rest)
  | .bind name none _, rest => lexeme "let " (lexeme name (';' :: rest))
  | .bind name (some value) _, rest =>
    lexeme "let " (lexeme name ('=' :: value.write (';' :: rest)))
  | .assign name value _, rest => lexeme name ('=' :: value.write (';' :: rest))
  | .ifThen test yes none _, rest => lexeme "if(" (test.write (')' :: yes.write rest))
  | .ifThen test yes (some no) _, rest =>
    lexeme "if(" (test.write (')' :: yes.write (lexeme "else " (no.write rest))))
  | .whileDo test body _, rest => lexeme "while(" (test.write (')' :: body.write rest))
  | .tryCatch body name handler _, rest =>
    lexeme "try" (body.write (lexeme "catch(" (lexeme name (')' :: handler.write rest))))
  | .ret none _, rest => lexeme "return;" rest
  | .ret (some value) _, rest => lexeme "return " (value.write (';' :: rest))
  | .throw value _, rest => lexeme "throw " (value.write (';' :: rest))
  | .eval expr _, rest => '(' :: expr.write (')' :: ';' :: rest)
  | .breakLoop _, rest => lexeme "break;" rest
  | .continueLoop _, rest => lexeme "continue;" rest

/-- Writes an expression in front of `rest`. -/
def Expr.write : Expr → List Char → List Char
  | .null _, rest => lexeme "null" rest
  | .bool true _, rest => lexeme "true" rest
  | .bool false _, rest => lexeme "false" rest
  | .num value _, rest => numeralText value ++ rest
  | .str value _, rest =>
    Grammar.singleQuote :: (value.toList.flatMap escapeQuoted ++ Grammar.singleQuote :: rest)
  | .list elements _, rest => '[' :: writeExprs elements (']' :: rest)
  | .ident name _, rest => lexeme name rest
  | .call callee args none _, rest => lexeme callee ('(' :: writeExprs args (')' :: rest))
  | .call callee args (some body) _, rest =>
    lexeme callee ('(' :: writeExprs args (')' :: body.write rest))
  | .closure body _, rest => body.write rest
  | .unary op operand _, rest => lexeme op.symbol ('(' :: operand.write (')' :: rest))
  | .binary op left right _, rest =>
    '(' :: left.write (')' :: lexeme op.symbol ('(' :: right.write (')' :: rest)))

/-- Writes statements one behind the other. -/
def writeStmts : List Stmt → List Char → List Char
  | [], rest => rest
  | stmt :: others, rest => stmt.write (writeStmts others rest)

/-- Writes expressions with commas between them. -/
def writeExprs : List Expr → List Char → List Char
  | [], rest => rest
  | expr :: others, rest => expr.write (writeOthers others rest)

/-- Writes the expressions behind the first one. -/
def writeOthers : List Expr → List Char → List Char
  | [], rest => rest
  | expr :: others, rest => ',' :: expr.write (writeOthers others rest)

end

theorem exists_of_isBlock {body : Stmt} (h : body.isBlock = true) :
    ∃ statements span, body = .block statements span := by
  unfold Stmt.isBlock at h
  split at h
  · exact ⟨_, _, rfl⟩
  · exact absurd h Bool.false_ne_true

theorem head_write_of_isBlock {body : Stmt} (h : body.isBlock = true) (rest : List Char) :
    (body.write rest).head? = some '\x7b' := by
  obtain ⟨statements, span, rfl⟩ := exists_of_isBlock h
  rw [Stmt.write]
  rfl

/-- The text of a truth value is the word that it is read from. -/
theorem write_bool (value : Bool) (span : Span) : ∃ w, (w = "true" ∨ w = "false") ∧ (w == "true") = value ∧
    ∀ rest, (Expr.bool value span).write rest = w.toList ++ rest := by
  cases value with
  | true => exact ⟨"true", .inl rfl, rfl, fun rest => by rw [Expr.write]; rfl⟩
  | false => exact ⟨"false", .inr rfl, by decide, fun rest => by rw [Expr.write]; rfl⟩

/-- **The text of a script.** -/
def render (body : List Stmt) : String := String.ofList (writeStmts body [])

end DurableFlow.Script
