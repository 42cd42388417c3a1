/-
Compiling statements to code.

Each statement or expression is compiled at a cursor (the address of its first
instruction, the current source line, the number of the next closure) to a
fragment, which is placed exactly there; so jump targets are sums of lengths and
are right when they are written. The one target that lies ahead of code not yet
compiled, the exit of a loop, is found from `codeSize`, which counts the
instructions of a statement beforehand.

Leaving a loop with `break` or `continue` first gives up the handlers and the
scopes opened since the loop began. Outside of a loop the two are refused, and
this is the only way in which compiling fails.
-/
import DurableFlow.Script.Value

set_option autoImplicit false

namespace DurableFlow.Script

/-- Why a script cannot be compiled. -/
inductive CompileError where
  /-- `break` or `continue` on this line stands outside of a loop. -/
  | outsideLoop (keyword : String) (line : Nat)

def CompileError.message : CompileError → String
  | .outsideLoop keyword line => s!"line {line}: '{keyword}' outside of a loop"

namespace Compile

/-! ## Counting instructions -/

mutual

/-- The number of instructions of an expression. -/
def exprSize : Expr → Nat
  | .null _ | .bool _ _ | .num _ _ | .str _ _ | .ident _ _ | .closure _ _ => 1
  | .list elements _ => exprsSize elements + 1
  | .call _ args none _ => exprsSize args + 1
  | .call _ args (some _) _ => exprsSize args + 2
  | .unary _ operand _ => exprSize operand + 1
  | .binary .and left right _ | .binary .or left right _ => exprSize left + 2 + exprSize right
  | .binary _ left right _ => exprSize left + exprSize right + 1

/-- The number of instructions of some expressions. -/
def exprsSize : List Expr → Nat
  | [] => 0
  | e :: es => exprSize e + exprsSize es

end

/-- The number of instructions of an expression that may be left out. -/
def optionalSize : Option Expr → Nat
  | none => 1
  | some e => exprSize e

mutual

/-- The number of instructions of a statement that stands inside so many handlers and scopes
opened since the innermost loop began. -/
def codeSize (handlers scopes : Nat) : Stmt → Nat
  | .block body _ => codesSize handlers (scopes + 1) body + 2
  | .bind _ init _ => optionalSize init + 1
  | .assign _ value _ => exprSize value + 1
  | .ifThen test yes none _ => exprSize test + 1 + codeSize handlers scopes yes
  | .ifThen test yes (some no) _ =>
    exprSize test + 1 + codeSize handlers scopes yes + 1 + codeSize handlers scopes no
  | .whileDo test body _ => exprSize test + 1 + codeSize 0 0 body + 1
  | .tryCatch body _ handler _ =>
    codeSize (handlers + 1) scopes body + 6 + codeSize handlers (scopes + 1) handler
  | .ret value _ => optionalSize value + 1
  | .throw value _ => exprSize value + 1
  | .eval e _ => exprSize e + 1
  | .breakLoop _ | .continueLoop _ => handlers + scopes + 1

/-- The number of instructions of some statements. -/
def codesSize (handlers scopes : Nat) : List Stmt → Nat
  | [] => 0
  | s :: ss => codeSize handlers scopes s + codesSize handlers scopes ss

end

/-! ## Fragments -/

/-- Compiled code with its lines, the chunks of the closures in it, and the line that was
current at its end. -/
structure Fragment where
  code : List (Instr Val × Nat)
  chunks : List (Chunk Val)
  line : Nat

namespace Fragment

/-- One fragment after the other. -/
def append (a b : Fragment) : Fragment :=
  { code := a.code ++ b.code, chunks := a.chunks ++ b.chunks, line := b.line }

instance : Append Fragment := ⟨append⟩

end Fragment

/-- Where code is to be placed: its address, the current line, the next closure's chunk. -/
structure Cursor where
  address : Nat
  line : Nat
  chunk : Nat

namespace Cursor

/-- The cursor behind a fragment. -/
def after (c : Cursor) (f : Fragment) : Cursor :=
  { address := c.address + f.code.length, line := f.line, chunk := c.chunk + f.chunks.length }

/-- The cursor behind one more instruction. -/
def skip (c : Cursor) : Cursor := { c with address := c.address + 1 }

def onLine (c : Cursor) (line : Nat) : Cursor := { c with line }

/-- An expression moves the current line if it came from source text. -/
def onSpan (c : Cursor) (span : Text.Span) : Cursor :=
  if 0 < span.stop.offset then c.onLine span.lineNumber else c

/-- Instructions on the current line. -/
def emit (c : Cursor) (instrs : List (Instr Val)) : Fragment :=
  { code := instrs.map fun i => (i, c.line), chunks := [], line := c.line }

end Cursor

/-- A loop around the code: where it starts and ends, and what was open when it began. -/
structure Loop where
  start : Nat
  exit : Nat
  handlers : Nat
  scopes : Nat

/-- What is open around the code inside its chunk. -/
structure Context where
  handlers : Nat := 0
  scopes : Nat := 0
  loop : Option Loop := none

/-- A chunk from its code: without a return of its own it returns null. -/
def chunkOf (name : String) (f : Fragment) : Chunk Val :=
  let code := f.code ++ [(.const .null, f.line), (.ret, f.line)]
  { name
    code := code.map Prod.fst
    lines := code.map Prod.snd
    callsSteps := code.any fun i => match i.1 with
      | .call .. => true
      | _ => false }

/-- Gives up what was opened since the innermost loop began, then jumps where `target` says. -/
def leaveLoop (ctx : Context) (c : Cursor) (keyword : String) (target : Loop → Nat) :
    Except CompileError Fragment :=
  match ctx.loop with
  | none => .error (.outsideLoop keyword c.line)
  | some loop => .ok <| c.emit <|
      List.replicate (ctx.handlers - loop.handlers) .popHandler
        ++ List.replicate (ctx.scopes - loop.scopes) .exitScope
        ++ [.jump (target loop)]

/-- Where the body of a closure literal is compiled: at the start of a chunk of its own. -/
def Cursor.closureBody (c : Cursor) (body : Stmt) : Cursor :=
  { address := 0, line := body.span.lineNumber, chunk := c.chunk + 1 }

/-- A closure literal from its compiled body: the body becomes the next chunk, followed by the
chunks of the closures inside it, and one instruction makes the value. -/
def closureLiteral (program : String) (c : Cursor) (body : Fragment) : Fragment :=
  { code := [(.makeClosure c.chunk, c.line)]
    chunks := chunkOf s!"{program}#closure{c.chunk}" body :: body.chunks
    line := c.line }

/-! ## The compiler -/

mutual

/-- Compiles a statement. -/
def stmt (program : String) (ctx : Context) (c : Cursor) : Stmt → Except CompileError Fragment
  | .block body span => do
    let c := c.onLine span.lineNumber
    let inner ← stmts program { ctx with scopes := ctx.scopes + 1 } c.skip body
    return c.emit [.enterScope] ++ inner ++ (c.skip.after inner).emit [.exitScope]
  | .bind name init span => do
    let c := c.onLine span.lineNumber
    let value ← optional program c init
    return value ++ (c.after value).emit [.declare name]
  | .assign name value span => do
    let c := c.onLine span.lineNumber
    let value ← expr program c value
    return value ++ (c.after value).emit [.store name]
  | .ifThen test yes none span => do
    let c := c.onLine span.lineNumber
    let test ← expr program c test
    let branch := c.after test
    let yes ← stmt program ctx branch.skip yes
    return test ++ branch.emit [.jumpIfFalse (branch.skip.after yes).address] ++ yes
  | .ifThen test yes (some no) span => do
    let c := c.onLine span.lineNumber
    let test ← expr program c test
    let branch := c.after test
    let yes ← stmt program ctx branch.skip yes
    let join := branch.skip.after yes
    let no ← stmt program ctx join.skip no
    return test ++ branch.emit [.jumpIfFalse join.skip.address] ++ yes
      ++ join.emit [.jump (join.skip.after no).address] ++ no
  | .whileDo test body span => do
    let c := c.onLine span.lineNumber
    let test ← expr program c test
    let branch := c.after test
    -- the body needs the address behind it, so it is measured before it is compiled
    let exit := branch.address + 1 + codeSize 0 0 body + 1
    let loop : Loop :=
      { start := c.address, exit, handlers := ctx.handlers, scopes := ctx.scopes }
    let body ← stmt program { ctx with loop := some loop } branch.skip body
    return test ++ branch.emit [.jumpIfFalse exit] ++ body
      ++ (branch.skip.after body).emit [.jump c.address]
  | .tryCatch body catchVar handler span => do
    let c := c.onLine span.lineNumber
    let body ← stmt program { ctx with handlers := ctx.handlers + 1 } c.skip body
    let leave := c.skip.after body
    -- behind the body two instructions pass over the handler
    let catchAt := leave.skip.skip
    let handler ← stmt program { ctx with scopes := ctx.scopes + 1 } catchAt.skip.skip handler
    let close := catchAt.skip.skip.after handler
    return c.emit [.pushHandler catchAt.address] ++ body
      ++ leave.emit [.popHandler, .jump close.skip.address]
      ++ catchAt.emit [.enterScope, .declare catchVar] ++ handler
      ++ close.emit [.exitScope]
  | .ret value span => do
    let c := c.onLine span.lineNumber
    let value ← optional program c value
    return value ++ (c.after value).emit [.ret]
  | .throw value span => do
    let c := c.onLine span.lineNumber
    let value ← expr program c value
    return value ++ (c.after value).emit [.throw]
  | .eval e span => do
    let c := c.onLine span.lineNumber
    let value ← expr program c e
    return value ++ (c.after value).emit [.pop]
  | .breakLoop span => leaveLoop ctx (c.onLine span.lineNumber) "break" Loop.exit
  | .continueLoop span => leaveLoop ctx (c.onLine span.lineNumber) "continue" Loop.start

/-- Compiles statements one after the other. -/
def stmts (program : String) (ctx : Context) (c : Cursor) :
    List Stmt → Except CompileError Fragment
  | [] => .ok (c.emit [])
  | s :: ss => do
    let first ← stmt program ctx c s
    let rest ← stmts program ctx (c.after first) ss
    return first ++ rest

/-- Compiles an expression that may be left out and is null then. -/
def optional (program : String) (c : Cursor) : Option Expr → Except CompileError Fragment
  | none => .ok (c.emit [.const .null])
  | some e => expr program c e

/-- Compiles an expression. -/
def expr (program : String) (c : Cursor) : Expr → Except CompileError Fragment
  | .null span => .ok ((c.onSpan span).emit [.const .null])
  | .bool value span => .ok ((c.onSpan span).emit [.const (.bool value)])
  | .num value span => .ok ((c.onSpan span).emit [.const (.num value)])
  | .str value span => .ok ((c.onSpan span).emit [.const (.str value)])
  | .list elements span => do
    let c := c.onSpan span
    let items ← exprs program c elements
    return items ++ (c.after items).emit [.makeList elements.length]
  | .ident name span => .ok ((c.onSpan span).emit [.load name])
  | .call callee args none span => do
    let c := c.onSpan span
    let given ← exprs program c args
    -- the call is on the line where it starts, wherever its arguments end
    return given ++ ((c.after given).onLine span.lineNumber).emit
      [.call callee args.length false]
  | .call callee args (some body) span => do
    let c := c.onSpan span
    let given ← exprs program c args
    let inner ← stmt program {} ((c.after given).closureBody body) body
    let literal := closureLiteral program (c.after given) inner
    return given ++ literal ++ (((c.after given).after literal).onLine span.lineNumber).emit
      [.call callee args.length true]
  | .closure body span => do
    let c := c.onSpan span
    let inner ← stmt program {} (c.closureBody body) body
    return closureLiteral program c inner
  | .unary op operand span => do
    let c := c.onSpan span
    let value ← expr program c operand
    return value ++ (c.after value).emit [.unary op]
  | .binary op left right span => do
    let c := c.onSpan span
    let first ← expr program c left
    let middle := c.after first
    match op with
    -- the left value stays where it is if the right operand is left out
    | .and => do
      let second ← expr program middle.skip.skip right
      return first
        ++ middle.emit [.jumpIfFalseKeep (middle.skip.skip.after second).address, .pop]
        ++ second
    | .or => do
      let second ← expr program middle.skip.skip right
      return first
        ++ middle.emit [.jumpIfTrueKeep (middle.skip.skip.after second).address, .pop]
        ++ second
    | op => do
      let second ← expr program middle right
      return first ++ second ++ (middle.after second).emit [.binary op]

/-- Compiles expressions from left to right. -/
def exprs (program : String) (c : Cursor) : List Expr → Except CompileError Fragment
  | [] => .ok (c.emit [])
  | e :: es => do
    let first ← expr program c e
    let rest ← exprs program (c.after first) es
    return first ++ rest

end

end Compile

/-- **Compiles a script** into a program of the given name. -/
def compile (name : String) (script : ParsedScript) : Except CompileError (Program Val) := do
  -- the closures have the chunks behind the one of the script
  let main ← Compile.stmt name {} { address := 0, line := 0, chunk := 1 } script.body
  return { name, chunks := Compile.chunkOf name main :: main.chunks }

end DurableFlow.Script
