/-
Syntax trees as JSON, for tools that look at parsed scripts. A node without a
place in a source text is written without its span.
-/
import DurableFlow.Script.Codec

set_option autoImplicit false

namespace DurableFlow

def Text.Span.toJson (s : Text.Span) : Json :=
  .obj [("end", .nat s.stop.offset), ("end_col", .nat s.stop.column),
    ("end_line", .nat s.stop.line), ("start", .nat s.start.offset),
    ("start_col", .nat s.start.column), ("start_line", .nat s.start.line)]

namespace Script

/-- A node of the syntax tree: its kind, its members and its span. -/
def syntaxNode (kind : String) (span : Text.Span) (members : List (String × Json)) : Json :=
  Json.object <|
    ("t", .str kind) :: (if span.isBlank then [] else [("span", span.toJson)]) ++ members

mutual

def Stmt.toJson : Stmt → Json
  | .block body span => syntaxNode "Block" span [("body", .arr (stmtsToJson body))]
  | .bind name init span =>
    syntaxNode "Let" span [("name", .str name), ("init", optionalToJson init)]
  | .assign name value span =>
    syntaxNode "Assign" span [("name", .str name), ("value", Expr.toJson value)]
  | .ifThen test yes no span =>
    syntaxNode "If" span
      [("test", Expr.toJson test), ("then_s", Stmt.toJson yes), ("else_s", branchToJson no)]
  | .whileDo test body span =>
    syntaxNode "While" span [("test", Expr.toJson test), ("body", Stmt.toJson body)]
  | .tryCatch body name handler span =>
    syntaxNode "Try" span
      [("body", Stmt.toJson body), ("catch_var", .str name), ("catch_body", Stmt.toJson handler)]
  | .ret value span => syntaxNode "Return" span [("value", optionalToJson value)]
  | .throw value span => syntaxNode "Throw" span [("value", Expr.toJson value)]
  | .eval e span => syntaxNode "Expr" span [("expr", Expr.toJson e)]
  | .breakLoop span => syntaxNode "Break" span []
  | .continueLoop span => syntaxNode "Continue" span []

def stmtsToJson : List Stmt → List Json
  | [] => []
  | s :: ss => Stmt.toJson s :: stmtsToJson ss

def branchToJson : Option Stmt → Json
  | none => .null
  | some s => Stmt.toJson s

def optionalToJson : Option Expr → Json
  | none => .null
  | some e => Expr.toJson e

def Expr.toJson : Expr → Json
  | .null span => syntaxNode "LitNull" span []
  | .bool value span => syntaxNode "LitBool" span [("v", .bool value)]
  | .num value span => syntaxNode "LitNum" span [("v", Json.ofFloat value)]
  | .str value span => syntaxNode "LitStr" span [("v", .str value)]
  | .list elements span => syntaxNode "LitList" span [("elements", .arr (exprsToJson elements))]
  | .ident name span => syntaxNode "Ident" span [("name", .str name)]
  | .call callee args body span =>
    syntaxNode "Call" span
      [("callee", .str callee), ("args", .arr (exprsToJson args)), ("body", branchToJson body)]
  | .closure body span => syntaxNode "Closure" span [("body", Stmt.toJson body)]
  | .unary op operand span =>
    syntaxNode "Unary" span [("op", .str op.name), ("operand", Expr.toJson operand)]
  | .binary op left right span =>
    syntaxNode "Binary" span
      [("op", .str op.name), ("left", Expr.toJson left), ("right", Expr.toJson right)]

def exprsToJson : List Expr → List Json
  | [] => []
  | e :: es => Expr.toJson e :: exprsToJson es

end

def ParsedScript.toJson (script : ParsedScript) : Json :=
  .obj [("body", script.body.toJson), ("span", script.span.toJson)]

end Script

end DurableFlow
