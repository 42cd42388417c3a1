/-
The grammar of scripts.

Statements need no separator; a semicolon after one is allowed. The alternatives
of a statement are ordered so that a name which only begins like a keyword
(`letter`, `returned`) is read as a name: assignments and expressions are tried
before the keyword statements, and an expression never starts with a keyword.
-/
import DurableFlow.Text.Peg

set_option autoImplicit false

namespace DurableFlow.Script

open Text.Peg

/-- The named parts of a script. -/
inductive Rule where
  | program | endOfInput
  | statement | block | assignStmt | exprStmt | letStmt | ifStmt | elseClause | whileStmt
  | tryStmt | returnStmt | throwStmt | breakStmt | continueStmt
  | expression | orExpr | andExpr | equalityExpr | comparisonExpr | additiveExpr
  | multiplicativeExpr | unaryExpr | primary
  | callExpr | argList | closure | listLit
  | opOr | opAnd | opEq | opNe | opLte | opGte | opLt | opGt | opAdd | opSub | opMul | opDiv
  | opMod | opNot | opNeg
  | literal | nullLit | boolLit | number | string | doubleQuoted | singleQuoted
  | keyword | identifier
deriving DecidableEq, Inhabited

namespace Grammar

/-! ## Character classes -/

def isDigit (c : Char) : Bool := '0' ≤ c && c ≤ '9'

def isLetter (c : Char) : Bool := ('a' ≤ c && c ≤ 'z') || ('A' ≤ c && c ≤ 'Z')

/-- What may stand at the start of a name. -/
def isNameStart (c : Char) : Bool := isLetter c || c = '_'

/-- What may stand inside a name. -/
def isNameChar (c : Char) : Bool := isLetter c || isDigit c || c = '_'

def isBlank (c : Char) : Bool := c = ' ' || c = '\t' || c = '\r' || c = '\n'

def doubleQuote : Char := '\x22'

def singleQuote : Char := '\x27'

def backslash : Char := '\x5c'

/-- The words that are no names. -/
def keywords : List String :=
  ["let", "if", "else", "while", "try", "catch", "return", "throw", "break", "continue",
    "true", "false", "null"]

/-! ## Building expressions -/

/-- This very text. -/
def word (s : String) : Exp Rule := .text s.toList

/-- One part after the other. -/
def seqs : List (Exp Rule) → Exp Rule
  | [] => .text []
  | [e] => e
  | e :: es => .seq e (seqs es)

/-- The first part that matches. -/
def alts : List (Exp Rule) → Exp Rule
  | [] => .char fun _ => false
  | [e] => e
  | e :: es => .alt e (alts es)

/-- At least one round. -/
def many1 (e : Exp Rule) : Exp Rule := .seq e (.many e)

def semicolon : Exp Rule := .opt (word ";")

/-- An operand, then any number of operators with another operand. -/
def chain (operand : Rule) (ops : List Rule) : Exp Rule :=
  .seq (.rule operand) (.many (.seq (alts (ops.map .rule)) (.rule operand)))

/-- Expressions between commas. -/
def commaSeparated : Exp Rule :=
  .seq (.rule .expression) (.many (.seq (word ",") (.rule .expression)))

/-- Statements between braces. -/
def braced : Exp Rule :=
  seqs [word "\x7b", .many (.rule .statement), word "\x7d"]

/-- One of some words, with no name going on behind it. -/
def wholeWord (words : List String) : Exp Rule :=
  .seq (alts (words.map word)) (.without (.char isNameChar))

/-- The characters of a string up to the quote that ends it; a backslash keeps the character
behind it from ending the string. -/
def quotedChars (quote : Char) : Exp Rule :=
  .many (.alt (.seq (.text [backslash]) (.char fun _ => true))
    (.char fun c => c ≠ quote && c ≠ backslash))

/-! ## The rules -/

def plain (body : Exp Rule) : RuleDef Rule := ⟨.plain, body⟩

def define : Rule → RuleDef Rule
  -- The empty text in front lets the script start with blanks.
  | .program => plain <| seqs [.text [], .many (.rule .statement), .rule .endOfInput]
  | .endOfInput => plain .atEnd
  -- The first that matches counts: an assignment starts with what would be an expression.
  | .statement => plain <| alts <| List.map Exp.rule
      [.block, .assignStmt, .exprStmt, .letStmt, .ifStmt, .whileStmt, .tryStmt, .returnStmt,
        .throwStmt, .breakStmt, .continueStmt]
  | .block => plain braced
  | .assignStmt => plain <| seqs
      [.rule .identifier, word "=", .without (word "="), .rule .expression, semicolon]
  | .exprStmt => plain <| .seq (.rule .expression) semicolon
  | .letStmt => plain <| seqs
      [word "let", .rule .identifier, .opt (.seq (word "=") (.rule .expression)), semicolon]
  | .ifStmt => plain <| seqs
      [word "if", word "(", .rule .expression, word ")", .rule .block,
        .opt (.rule .elseClause)]
  | .elseClause => plain <| .seq (word "else") (.alt (.rule .ifStmt) (.rule .block))
  | .whileStmt => plain <| seqs
      [word "while", word "(", .rule .expression, word ")", .rule .block]
  | .tryStmt => plain <| seqs
      [word "try", .rule .block, word "catch", word "(", .rule .identifier, word ")",
        .rule .block]
  | .returnStmt => plain <| seqs [word "return", .opt (.rule .expression), semicolon]
  | .throwStmt => plain <| seqs [word "throw", .rule .expression, semicolon]
  | .breakStmt => plain <| .seq (word "break") semicolon
  | .continueStmt => plain <| .seq (word "continue") semicolon
  | .expression => plain (.rule .orExpr)
  | .orExpr => plain (chain .andExpr [.opOr])
  | .andExpr => plain (chain .equalityExpr [.opAnd])
  | .equalityExpr => plain (chain .comparisonExpr [.opEq, .opNe])
  -- The longer operators are tried first.
  | .comparisonExpr => plain (chain .additiveExpr [.opLte, .opGte, .opLt, .opGt])
  | .additiveExpr => plain (chain .multiplicativeExpr [.opAdd, .opSub])
  | .multiplicativeExpr => plain (chain .unaryExpr [.opMul, .opDiv, .opMod])
  | .unaryExpr => plain <|
      .seq (.many (.alt (.rule .opNot) (.rule .opNeg))) (.rule .primary)
  -- A call is tried before the name it starts with.
  | .primary => ⟨.silent, alts
      [.rule .literal, .rule .callExpr, .rule .closure, .rule .listLit, .rule .identifier,
        seqs [word "(", .rule .expression, word ")"]]⟩
  | .callExpr => plain <| .seq (.rule .identifier) <| .alt
      (seqs [word "(", .opt (.rule .argList), word ")", .opt (.rule .closure)])
      (.rule .closure)
  | .argList => plain commaSeparated
  | .closure => plain braced
  | .listLit => plain <| seqs [word "[", .opt commaSeparated, word "]"]
  | .opOr => plain (word "||")
  | .opAnd => plain (word "&&")
  | .opEq => plain (word "==")
  | .opNe => plain (word "!=")
  | .opLte => plain (word "<=")
  | .opGte => plain (word ">=")
  | .opLt => plain (word "<")
  | .opGt => plain (word ">")
  | .opAdd => plain (word "+")
  | .opSub => plain (word "-")
  | .opMul => plain (word "*")
  | .opDiv => plain (word "/")
  | .opMod => plain (word "%")
  | .opNot => plain (word "!")
  | .opNeg => plain (word "-")
  | .literal => ⟨.silent, alts
      [.rule .nullLit, .rule .boolLit, .rule .number, .rule .string]⟩
  -- Words end where no name goes on: `nullable` is a name.
  | .nullLit => ⟨.atomic, wholeWord ["null"]⟩
  | .boolLit => ⟨.atomic, wholeWord ["true", "false"]⟩
  | .number => ⟨.atomic, .seq (many1 (.char isDigit))
      (.opt (.seq (word ".") (many1 (.char isDigit))))⟩
  | .string => ⟨.compound, .alt
      (seqs [.text [doubleQuote], .rule .doubleQuoted, .text [doubleQuote]])
      (seqs [.text [singleQuote], .rule .singleQuoted, .text [singleQuote]])⟩
  | .doubleQuoted => ⟨.atomic, quotedChars doubleQuote⟩
  | .singleQuoted => ⟨.atomic, quotedChars singleQuote⟩
  | .keyword => ⟨.atomic, wholeWord keywords⟩
  | .identifier => ⟨.atomic, seqs
      [.without (.rule .keyword), .char isNameStart, .many (.char isNameChar)]⟩

/-- Blanks: white space, comments to the end of the line, and closed bracketed comments. -/
def blanks : Exp Rule :=
  let space := Exp.many (.char isBlank)
  let lineComment := Exp.seq (word "//") (.many (.char fun c => c ≠ '\n'))
  -- a comment that is not closed is no blank
  let blockComment := seqs
    [word "/*", .many (.seq (.without (word "*/")) (.char fun _ => true)), word "*/"]
  .seq space (.many (.seq (.alt lineComment blockComment) space))

end Grammar

/-- The grammar of scripts. Its rules have fewer than 400 expressions together. -/
def grammar : Grammar Rule :=
  { define := Grammar.define, blanks := Grammar.blanks, size := 400 }

end DurableFlow.Script
