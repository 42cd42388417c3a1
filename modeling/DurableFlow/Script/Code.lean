/-
Compiled scripts.

A program is a list of chunks, chunk 0 being the script itself and each other
chunk the body of one closure literal. A chunk is a flat list of instructions
with explicit jumps, so all that a suspended run has to remember of its place is
a chunk and an index into it. The types are over the constants that instructions
hold, because constants are script values and a script value can be a closure,
which holds a program.
-/
import DurableFlow.Script.Syntax

set_option autoImplicit false

namespace DurableFlow.Script

/-- An instruction over constants `V`. Jump targets are indices into the same chunk. -/
inductive Instr (V : Type) where
  | const (value : V)
  | load (name : String)
  /-- Pops a value and binds it in the innermost scope. -/
  | declare (name : String)
  /-- Pops a value and assigns it to the nearest binding. -/
  | store (name : String)
  | pop
  | binary (op : BinaryOp)
  | unary (op : UnaryOp)
  | makeList (length : Nat)
  | makeClosure (chunk : Nat)
  /-- Pops the body, if there is one, and the arguments, and calls a step. -/
  | call (function : String) (argc : Nat) (body : Bool)
  | jump (target : Nat)
  | jumpIfFalse (target : Nat)
  /-- Jumps on a value that it leaves where it is. -/
  | jumpIfFalseKeep (target : Nat)
  | jumpIfTrueKeep (target : Nat)
  | enterScope
  | exitScope
  | pushHandler (target : Nat)
  | popHandler
  | throw
  | ret

/-- Straight code: one script body or one closure body. -/
structure Chunk (V : Type) where
  name : String
  code : List (Instr V)
  /-- The source line of each instruction, counted from one. -/
  lines : List Nat
  /-- Whether the code holds a step call. -/
  callsSteps : Bool

/-- A compiled script. -/
structure Program (V : Type) where
  name : String
  chunks : List (Chunk V)

/-- A closure literal with the variables that were visible where it was created. -/
structure Closure (V : Type) where
  program : Program V
  chunk : Nat
  captured : List (String × V)

/-- The line of the instruction at `pc`; past the end, that of the last instruction. -/
def Chunk.lineAt {V : Type} (chunk : Chunk V) (pc : Nat) : Nat :=
  (chunk.lines[pc]?).getD (chunk.lines.getLast?.getD 0)

/-- The chunk that a closure runs. -/
def Closure.body? {V : Type} (closure : Closure V) : Option (Chunk V) :=
  closure.program.chunks[closure.chunk]?

/-- The name of the chunk that a closure runs. -/
def Closure.name {V : Type} (closure : Closure V) : String :=
  (closure.body?.map Chunk.name).getD "<closure>"

/-- Whether running a closure can reach a step call. -/
def Closure.callsSteps {V : Type} (closure : Closure V) : Bool :=
  (closure.body?.map Chunk.callsSteps).getD true

end DurableFlow.Script
