/-
The script language: statements and expressions.

A script is a block of statements. Calling a step is an expression, with a block
of its own if it has one; a closure is a block used as a value. Every node keeps
the stretch of source it came from, which later gives instructions their lines.
-/
import DurableFlow.Text.Span

set_option autoImplicit false

namespace DurableFlow.Script

open Text

inductive BinaryOp where
  | and | or
  | eq | ne
  | lt | lte | gt | gte
  | add | sub | mul | div | mod
deriving DecidableEq, Inhabited

inductive UnaryOp where
  | not | neg
deriving DecidableEq, Inhabited

mutual

/-- A statement. -/
inductive Stmt where
  | block (body : List Stmt) (span : Span)
  | bind (name : String) (init : Option Expr) (span : Span)
  | assign (name : String) (value : Expr) (span : Span)
  | ifThen (test : Expr) (thenS : Stmt) (elseS : Option Stmt) (span : Span)
  | whileDo (test : Expr) (body : Stmt) (span : Span)
  | tryCatch (body : Stmt) (catchVar : String) (catchBody : Stmt) (span : Span)
  | ret (value : Option Expr) (span : Span)
  | throw (value : Expr) (span : Span)
  | eval (expr : Expr) (span : Span)
  | breakLoop (span : Span)
  | continueLoop (span : Span)

/-- An expression. -/
inductive Expr where
  | null (span : Span)
  | bool (value : Bool) (span : Span)
  | num (value : Float) (span : Span)
  | str (value : String) (span : Span)
  | list (elements : List Expr) (span : Span)
  | ident (name : String) (span : Span)
  /-- A step call, with the block behind it if there is one. -/
  | call (callee : String) (args : List Expr) (body : Option Stmt) (span : Span)
  | closure (body : Stmt) (span : Span)
  | unary (op : UnaryOp) (operand : Expr) (span : Span)
  | binary (op : BinaryOp) (left right : Expr) (span : Span)

end

instance : Inhabited Stmt := ⟨.breakLoop {}⟩

instance : Inhabited Expr := ⟨.null {}⟩

def Stmt.span : Stmt → Span
  | .block _ s | .bind _ _ s | .assign _ _ s | .ifThen _ _ _ s | .whileDo _ _ s
  | .tryCatch _ _ _ s
  | .ret _ s | .throw _ s | .eval _ s | .breakLoop s | .continueLoop s => s

def Expr.span : Expr → Span
  | .null s | .bool _ s | .num _ s | .str _ s | .list _ s | .ident _ s | .call _ _ _ s
  | .closure _ s | .unary _ _ s | .binary _ _ _ s => s

/-- A parsed script: its statements as one block, and the stretch of source it covers. -/
structure ParsedScript where
  body : Stmt
  span : Span
deriving Inhabited

/-- The sign an operator is written with. -/
def BinaryOp.symbol : BinaryOp → String
  | .and => "&&"
  | .or => "||"
  | .eq => "=="
  | .ne => "!="
  | .lt => "<"
  | .lte => "<="
  | .gt => ">"
  | .gte => ">="
  | .add => "+"
  | .sub => "-"
  | .mul => "*"
  | .div => "/"
  | .mod => "%"

end DurableFlow.Script
