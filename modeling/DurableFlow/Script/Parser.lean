/-
From source text to statements.

The grammar leaves a tree; this file reads the tree bottom up. Each rule turns
the parts below it into one `Part`, by a function that looks at the kinds of the
parts only, so a tree of the grammar is read by one pass of `Tree.fold`.

A minus sign in front of a number literal is part of the literal. Operators of
one precedence associate to the left, and a binary expression spans from its
first operand to its last.
-/
import DurableFlow.Script.Grammar
import DurableFlow.Script.Syntax
import DurableFlow.Number.Shortest

set_option autoImplicit false

namespace DurableFlow.Script

open Text

/-- Why a text is no script. -/
inductive ParseError where
  /-- The grammar does not match; the place is the furthest at which a rule failed. -/
  | rejected (place : Pos)
  /-- The grammar matched, but its tree could not be read. -/
  | malformed (span : Span)

namespace ParseError

def message : ParseError → String
  | .rejected place =>
    s!"unexpected input at line {place.line + 1}, column {place.column + 1}"
  | .malformed _ => "unexpected structure"

end ParseError

/-- What a part of the tree stands for. -/
inductive Part where
  | name (text : String) (span : Span)
  | quoted (text : String)
  | binaryOp (op : BinaryOp)
  | unaryOp (op : UnaryOp)
  | expr (e : Expr)
  | args (es : List Expr)
  /-- Statements between braces. -/
  | braced (body : List Stmt) (span : Span)
  | stmt (s : Stmt)
  | finish

namespace Part

/-! ## Kinds of parts -/

/-- A part used as a value: a name is a variable, braces are a closure. -/
def expr? : Part → Option Expr
  | .expr e => some e
  | .name text span => some (.ident text span)
  | .braced body span => some (.closure (.block body span) span)
  | _ => none

/-- A part used as a statement: braces are a block. -/
def stmt? : Part → Option Stmt
  | .stmt s => some s
  | .braced body span => some (.block body span)
  | _ => none

/-- The statements among the parts of a script or of braces. -/
def stmts? : List Part → Option (List Stmt)
  | [] => some []
  | .finish :: rest => stmts? rest
  | part :: rest => do return (← part.stmt?) :: (← stmts? rest)

/-! ## Reading one rule -/

/-- Joins operands to the left of what follows. -/
def joinChain : Expr → List Part → Option Expr
  | left, [] => some left
  | left, .binaryOp op :: right :: rest => do
    let right ← right.expr?
    joinChain (.binary op left right (left.span.merge right.span)) rest
  | _, _ => none

/-- Applies one sign in front of an operand; a minus before a number is part of the number. -/
def applySign (span : Span) (op : UnaryOp) (operand : Expr) : Expr :=
  match op, operand with
  | .neg, .num value _ => .num (-value) span
  | op, operand => .unary op operand span

/-- Applies signs in front of an operand, the innermost first. -/
def applySigns (span : Span) : List Part → Option Expr
  | [operand] => operand.expr?
  | .unaryOp op :: rest => (applySigns span rest).map (applySign span op)
  | _ => none

/-- Undoes the escapes of a string: `n`, `t` and `r` stand for control characters, any other
character for itself. -/
def unescape : List Char → List Char
  | [] => []
  | [c] => [c]
  | c :: d :: rest =>
    if c = Grammar.backslash then
      (if d = 'n' then '\n' else if d = 't' then '\t' else if d = 'r' then '\r' else d)
        :: unescape rest
    else c :: unescape (d :: rest)

/-- The number that decimal digits with at most one point stand for. -/
def numberValue (text : String) : Float :=
  let whole := text.toList.takeWhile Grammar.isDigit
  -- what stands behind the digits can only be the point
  let fraction := (text.toList.drop whole.length).drop 1
  let digits := (whole ++ fraction).foldl (fun n c => 10 * n + (c.toNat - 48)) 0
  Number.ofDecimal digits (-(fraction.length : Int))

/-- What an atomic rule stands for. -/
def ofLeaf (rule : Rule) (span : Span) (text : String) : Option Part :=
  match rule with
  | .identifier => some (.name text span)
  | .nullLit => some (.expr (.null span))
  | .boolLit => some (.expr (.bool (text == "true") span))
  | .number => some (.expr (.num (numberValue text) span))
  | .doubleQuoted | .singleQuoted => some (.quoted text)
  | _ => none

/-- What a statement rule stands for. -/
def ofStatement (rule : Rule) (span : Span) (parts : List Part) : Option Stmt :=
  match rule, parts with
  | .assignStmt, [.name target _, value] => do return .assign target (← value.expr?) span
  | .exprStmt, [value] => do return .eval (← value.expr?) span
  | .letStmt, [.name target _] => some (.bind target none span)
  | .letStmt, [.name target _, value] => do return .bind target (some (← value.expr?)) span
  | .ifStmt, [test, yes] => do return .ifThen (← test.expr?) (← yes.stmt?) none span
  | .ifStmt, [test, yes, no] => do
    return .ifThen (← test.expr?) (← yes.stmt?) (some (← no.stmt?)) span
  | .whileStmt, [test, body] => do return .whileDo (← test.expr?) (← body.stmt?) span
  | .tryStmt, [body, .name target _, handler] => do
    return .tryCatch (← body.stmt?) target (← handler.stmt?) span
  | .returnStmt, [] => some (.ret none span)
  | .returnStmt, [value] => do return .ret (some (← value.expr?)) span
  | .throwStmt, [value] => do return .throw (← value.expr?) span
  | .breakStmt, [] => some (.breakLoop span)
  | .continueStmt, [] => some (.continueLoop span)
  | _, _ => none

/-- What an operator rule stands for. -/
def ofOperator : Rule → Option Part
  | .opOr => some (.binaryOp .or)
  | .opAnd => some (.binaryOp .and)
  | .opEq => some (.binaryOp .eq)
  | .opNe => some (.binaryOp .ne)
  | .opLte => some (.binaryOp .lte)
  | .opGte => some (.binaryOp .gte)
  | .opLt => some (.binaryOp .lt)
  | .opGt => some (.binaryOp .gt)
  | .opAdd => some (.binaryOp .add)
  | .opSub => some (.binaryOp .sub)
  | .opMul => some (.binaryOp .mul)
  | .opDiv => some (.binaryOp .div)
  | .opMod => some (.binaryOp .mod)
  | .opNot => some (.unaryOp .not)
  | .opNeg => some (.unaryOp .neg)
  | _ => none

/-- What a step call stands for: arguments and a block may both be missing. -/
def ofCall (span : Span) : List Part → Option Expr
  | [.name callee _] => some (.call callee [] none span)
  | [.name callee _, .args given] => some (.call callee given none span)
  | [.name callee _, .braced body inner] =>
    some (.call callee [] (some (.block body inner)) span)
  | [.name callee _, .args given, .braced body inner] =>
    some (.call callee given (some (.block body inner)) span)
  | _ => none

/-- What a rule with parts stands for. -/
def ofNode (rule : Rule) (span : Span) (parts : List Part) : Option Part :=
  match rule with
  | .endOfInput => some .finish
  | .program | .block | .closure => do return .braced (← stmts? parts) span
  | .statement | .elseClause =>
    match parts with
    | [part] => part.stmt?.map .stmt
    | _ => none
  | .expression =>
    match parts with
    | [part] => part.expr?.map .expr
    | _ => none
  | .orExpr | .andExpr | .equalityExpr | .comparisonExpr | .additiveExpr
  | .multiplicativeExpr =>
    match parts with
    | first :: rest => do return .expr (← joinChain (← first.expr?) rest)
    | [] => none
  | .unaryExpr => (applySigns span parts).map .expr
  | .callExpr => (ofCall span parts).map .expr
  | .argList => (parts.mapM expr?).map .args
  | .listLit => do return .expr (.list (← parts.mapM expr?) span)
  | .string =>
    match parts with
    | [.quoted text] => some (.expr (.str (String.ofList (unescape text.toList)) span))
    | _ => none
  | rule =>
    match ofOperator rule with
    | some part => some part
    | none => (ofStatement rule span parts).map .stmt

/-- Reads a whole tree. -/
def ofTree (tree : Peg.Tree Rule) : Except ParseError Part :=
  let orMalformed (span : Span) : Option Part → Except ParseError Part
    | some part => .ok part
    | none => .error (.malformed span)
  tree.fold (fun rule span text => orMalformed span (ofLeaf rule span text))
    (fun rule span parts => orMalformed span (ofNode rule span parts))

end Part

/-- **Reads a script**: its statements become one block that spans the source. -/
def parse (source : String) : Except ParseError ParsedScript :=
  match grammar.parse .program source with
  | .error place => .error (.rejected place)
  | .ok tree =>
    match Part.ofTree tree with
    | .error e => .error e
    | .ok (.braced body span) => .ok ⟨.block body span, span⟩
    -- the tree of a program is always read as statements
    | .ok _ => .error (.malformed {})

/-- Reads a script; one with a single statement is that statement. -/
def parseStatement (source : String) : Except ParseError Stmt :=
  match parse source with
  | .error e => .error e
  | .ok script =>
    match script.body with
    | .block [only] _ => .ok only
    | body => .ok body

end DurableFlow.Script
