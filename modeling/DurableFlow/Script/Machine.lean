/-
The machine that runs compiled scripts and can be put aside at any time.

A machine is a value: where it is (chunk and index), what it holds (operand
stack, scopes, handlers, innermost first in each) and in which phase it is.
`step` executes one instruction; `run` executes at most `budget` of them, so a
script that loops gives control back at a safepoint. A step call does not
happen here: the machine stops with the request and goes on when it is given the
call's outcome. A failure, wherever it comes from, goes to the innermost
handler, which restores the stack and the scopes that were there when the
handler was set up, or else ends the run.
-/
import DurableFlow.Script.Value

set_option autoImplicit false

namespace DurableFlow.Script

/-- A step call that a script asks for. -/
structure StepRequest where
  function : String
  args : List Val
  /-- The block behind the call, if there is one. -/
  body : Option (Closure Val)

/-- Why a run stopped. -/
inductive Yield where
  | completed (outcome : Outcome)
  | step (request : StepRequest)
  /-- The budget was used up; the run goes on when it is driven again. -/
  | safepoint

/-- An active try block: where its handler is and what was there when it was set up. -/
structure Handler where
  catchPc : Nat
  stackLen : Nat
  scopeLen : Nat
deriving DecidableEq, Inhabited

inductive Phase where
  | ready
  /-- Suspended on a step call, whose outcome is the next input. -/
  | awaitingStep
  | done
deriving DecidableEq, Inhabited

/-- A running script; stack, scopes and handlers are innermost first. -/
structure Machine where
  program : Program Val
  chunk : Nat
  pc : Nat
  stack : List Val
  scopes : List Scope
  handlers : List Handler
  phase : Phase
  /-- Instructions per run before a safepoint. -/
  budget : Nat

/-- What one instruction leads to. -/
inductive Progress where
  | continues (m : Machine)
  | yields (y : Yield) (m : Machine)
  | raises (failure : Failure) (m : Machine)

namespace Machine

/-- A machine at the start of a chunk, with the variables that the chunk can see. -/
def start (program : Program Val) (chunk : Nat) (visible : Scope) (budget : Nat) : Machine :=
  { program, chunk, pc := 0, stack := [], scopes := [visible], handlers := [], phase := .ready
    -- each run makes one step at least
    budget := max budget 1 }

/-- A machine for a whole program. -/
def ofProgram (program : Program Val) (budget : Nat) : Machine :=
  start program 0 [] budget

/-- A machine for the body of a closure. -/
def ofClosure (closure : Closure Val) (budget : Nat) : Machine :=
  start closure.program closure.chunk closure.captured budget

def isResumable (m : Machine) : Bool := m.phase != .done

/-! ## Variables -/

/-- The nearest binding of a name. -/
def lookup (name : String) : List Scope → Option Val
  | [] => none
  | scope :: outer =>
    match Table.find? name scope with
    | some value => some value
    | none => lookup name outer

/-- Binds a name in the innermost scope; without any scope one is opened. -/
def declare (name : String) (value : Val) : List Scope → List Scope
  | [] => [[(name, value)]]
  | scope :: outer => Table.insert name value scope :: outer

/-- Assigns to the nearest binding of a name, or else binds it in the outermost scope. -/
def assign (name : String) (value : Val) : List Scope → List Scope
  | [] => [[(name, value)]]
  | [scope] => [Table.insert name value scope]
  | scope :: outer =>
    if Table.contains name scope then Table.insert name value scope :: outer
    else scope :: assign name value outer

/-- All visible variables, inner ones hiding outer ones. -/
def visible : List Scope → Scope
  | [] => []
  | scope :: outer => Table.insertAll scope (visible outer)

/-! ## Failures -/

/-- Keeps the oldest `n` entries of a list that has the newest first. -/
def keepOldest {α : Type} (n : Nat) (entries : List α) : List α :=
  entries.drop (entries.length - n)

/-- Hands a failure to the innermost handler, or ends the run with it. -/
def raise (m : Machine) (failure : Failure) : Progress :=
  match m.handlers with
  | handler :: outer =>
    .continues { m with
      handlers := outer
      stack := .error failure :: keepOldest handler.stackLen m.stack
      scopes := keepOldest handler.scopeLen m.scopes
      pc := handler.catchPc }
  | [] => .yields (.completed (.error failure)) { m with phase := .done, stack := [] }

/-! ## One instruction -/

def underflow : Failure := .internal "operand stack underflow"

/-- Goes on with the top of the stack, if there is one. -/
def popThen (m : Machine) (next : Val → Machine → Progress) : Progress :=
  match m.stack with
  | value :: stack => next value { m with stack }
  | [] => .raises underflow m

/-- Goes on with the topmost `n` values, oldest first. -/
def popMany (m : Machine) (n : Nat) (next : List Val → Machine → Progress) : Progress :=
  if n ≤ m.stack.length then
    next (m.stack.take n).reverse { m with stack := m.stack.drop n }
  else .raises underflow m

def push (m : Machine) (value : Val) : Machine := { m with stack := value :: m.stack }

/-- Pushes the result of an operator or raises its failure. -/
def pushOutcome (m : Machine) : Outcome → Progress
  | .ok value => .continues (m.push value)
  | .error failure => .raises failure m

/-- Asks for a step call with the topmost values as arguments. -/
def request (m : Machine) (function : String) (argc : Nat) (body : Option (Closure Val)) :
    Progress :=
  m.popMany argc fun args m =>
    .yields (.step { function, args, body }) { m with phase := .awaitingStep }

/-- Jumps on the top of the stack, which stays there. -/
def jumpWhen (m : Machine) (target : Nat) (truthy : Bool) : Progress :=
  match m.stack with
  | value :: _ => .continues (if value.isTruthy == truthy then { m with pc := target } else m)
  | [] => .raises underflow m

/-- Executes one instruction, the index already pointing behind it. -/
def execute (m : Machine) : Instr Val → Progress
  | .const value => .continues (m.push value)
  | .load name =>
    match lookup name m.scopes with
    | some value => .continues (m.push value)
    | none => .raises
        { code := Failure.Code.undefinedVariable, message := s!"'{name}' is not defined" } m
  | .declare name =>
    m.popThen fun value m => .continues { m with scopes := declare name value m.scopes }
  | .store name =>
    m.popThen fun value m => .continues { m with scopes := assign name value m.scopes }
  | .pop => m.popThen fun _ m => .continues m
  | .binary op =>
    -- the right operand was pushed last
    m.popThen fun right m => m.popThen fun left m => m.pushOutcome (Val.binary op left right)
  | .unary op => m.popThen fun operand m => m.pushOutcome (Val.unary op operand)
  | .makeList n => m.popMany n fun items m => .continues (m.push (.list items))
  | .makeClosure chunk =>
    .continues (m.push (.closure { program := m.program, chunk, captured := visible m.scopes }))
  | .call function argc true =>
    m.popThen fun value m =>
      match value with
      | .closure body => m.request function argc (some body)
      | other => .raises (.internal ("expected closure body, found " ++ other.typeName)) m
  | .call function argc false => m.request function argc none
  | .jump target => .continues { m with pc := target }
  | .jumpIfFalse target =>
    m.popThen fun value m => .continues (if value.isTruthy then m else { m with pc := target })
  | .jumpIfFalseKeep target => m.jumpWhen target false
  | .jumpIfTrueKeep target => m.jumpWhen target true
  | .enterScope => .continues { m with scopes := [] :: m.scopes }
  | .exitScope => .continues { m with scopes := m.scopes.tail }
  | .pushHandler catchPc =>
    .continues { m with
      handlers := { catchPc, stackLen := m.stack.length, scopeLen := m.scopes.length }
        :: m.handlers }
  | .popHandler => .continues { m with handlers := m.handlers.tail }
  | .throw => m.popThen fun value m => .raises value.toFailure m
  | .ret =>
    .yields (.completed (.ok (m.stack.head?.getD .null)))
      { m with phase := .done, stack := [], handlers := [] }

/-- Fetches and executes one instruction. Behind the last one the run ends with null. -/
def step (m : Machine) : Progress :=
  match m.program.chunks[m.chunk]? with
  | none => .raises (.internal s!"no chunk {m.chunk}") m
  | some chunk =>
    match chunk.code[m.pc]? with
    | none => .yields (.completed (.ok .null)) { m with phase := .done }
    | some instr => execute { m with pc := m.pc + 1 } instr

/-- Executes one instruction and hands a failure of it to the handlers. -/
def advance (m : Machine) : Progress :=
  match m.step with
  | .raises failure m => m.raise failure
  | progress => progress

/-! ## Runs -/

/-- Executes at most `n` instructions. -/
def runFor : Nat → Machine → Yield × Machine
  | 0, m => (.safepoint, m)
  | n + 1, m =>
    match m.advance with
    | .continues m => runFor n m
    | .yields y m => (y, m)
    -- `advance` raises nothing.
    | .raises failure m => (.completed (.error failure), m)

/-- Goes on after a failure was handed to the handlers. -/
def runAfter (m : Machine) : Progress → Yield × Machine
  | .continues m => runFor m.budget m
  | .yields y m => (y, m)
  | .raises failure _ => (.completed (.error failure), m)

/-- **Drives a machine** to its end, the next step call or the next safepoint. The input is
the outcome of the call it waits for; anywhere else only a failure is noticed. -/
def run (m : Machine) (input : Outcome) : Yield × Machine :=
  match m.phase, input with
  | .done, _ =>
    (.completed (.error
      { code := Failure.Code.notResumable, message := "script has already completed" }), m)
  | .awaitingStep, .ok value => runFor m.budget ({ m with phase := .ready }.push value)
  | .awaitingStep, .error failure => m.runAfter ({ m with phase := .ready }.raise failure)
  | .ready, .ok _ => runFor m.budget m
  | .ready, .error failure => m.runAfter (m.raise failure)

/-! ## Looking at a machine -/

/-- A place in a running script, as shown in a thread dump. -/
structure StackFrame where
  function : String
  line : Nat

def StackFrame.text (frame : StackFrame) : String :=
  s!"at {frame.function}:{frame.line}"

/-- Where the machine is: the line of the instruction executed last. -/
def stackTrace (m : Machine) : List StackFrame :=
  match m.program.chunks[m.chunk]? with
  | none => []
  | some chunk => [{ function := chunk.name, line := chunk.lineAt (m.pc - 1) }]

/-- The handles that the machine holds in its stack and its scopes, each once, in order. -/
def handles (m : Machine) : List Handle :=
  Handle.sorted (Val.handlesItems m.stack ++ m.scopes.flatMap Val.handlesFields)

end Machine

/-! ## Bodies -/

/-- What comes of running a closure in place. -/
inductive BodyCall where
  | completed (outcome : Outcome)
  /-- The rest has to run as a thread of its own. -/
  | deferred (m : Machine)

/-- Runs a closure in place if it calls no steps and ends within one budget. -/
def invokeBody (budget : Nat) (closure : Closure Val) : BodyCall :=
  let m := Machine.ofClosure closure budget
  if closure.callsSteps then .deferred m
  else
    match m.run (.ok .null) with
    | (.completed outcome, _) => .completed outcome
    -- the thread goes on from here: nothing is done twice
    | (.safepoint, m) => .deferred m
    | (.step request, _) =>
      .completed (.error
        (.internal s!"body without step calls requested '{request.function}'"))

end DurableFlow.Script
