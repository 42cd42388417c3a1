/-
Compiled code is well behaved on the machine, whatever it is answered.

The levels say what is open at each instruction, and the compiler's code agrees with them. A
machine that stands at an instruction, with as many operands, scopes and handlers as the level
there says, is led by the instruction to another such place. A failure is handed to the innermost
handler, whose level is on record, so it does no harm when it strikes between any two instructions.
What cannot happen to a machine at such a place cannot happen at all: no operand is missing, no
block behind a call is something else than a closure, no jump leaves the chunk and the first scope
stays.
-/
import DurableFlow.Proofs.Script.Verification
import DurableFlow.Proofs.Script.Conversation

set_option autoImplicit false

namespace DurableFlow.Script

open Compile

/-! ## The failures of operators -/

theorem Val.not_internal_binary {op : BinaryOp} {left right : Val} {failure : Failure}
    (hand : op ≠ .and) (hor : op ≠ .or) (h : Val.binary op left right = .error failure) :
    failure.code ≠ Failure.Code.internal := by
  have htype : Failure.Code.typeError ≠ Failure.Code.internal := by decide
  cases op with
  | and => exact absurd rfl hand
  | or => exact absurd rfl hor
  | eq | ne => cases h
  | add =>
    unfold binary add at h
    dsimp only at h
    split at h <;> cases h
    exact htype
  | sub | mul | div | mod =>
    unfold binary at h
    dsimp only at h
    split at h
    · unfold arithmetic at h
      dsimp only at h
      repeat' split at h
      all_goals cases h
      all_goals decide
    · cases h
      exact htype
  | lt | lte | gt | gte =>
    unfold binary at h
    dsimp only at h
    split at h <;> cases h
    exact htype

theorem Val.not_internal_unary {op : UnaryOp} {operand : Val} {failure : Failure}
    (h : Val.unary op operand = .error failure) : failure.code ≠ Failure.Code.internal := by
  unfold unary at h
  split at h <;> cases h
  exact (by decide : Failure.Code.typeError ≠ Failure.Code.internal)

/-- A thrown value raises an internal failure only if it is one. -/
theorem Val.eq_error_of_internal {value : Val} (h : value.toFailure.code = Failure.Code.internal) :
    value = .error value.toFailure := by
  unfold toFailure at h ⊢
  split at h
  · rfl
  · exact absurd h (by decide : Failure.Code.scriptError ≠ Failure.Code.internal)

/-- The machine that comes of an instruction. -/
def Progress.machine : Progress → Machine
  | .continues m | .yields _ m | .raises _ m => m

namespace Machine

/-! ## Scopes -/

theorem length_declare (name : String) (value : Val) {scopes : List Scope} (h : 1 ≤ scopes.length) :
    (declare name value scopes).length = scopes.length := by
  cases scopes with
  | nil => cases h
  | cons scope outer => rfl

theorem length_assign (name : String) (value : Val) {scopes : List Scope} (h : 1 ≤ scopes.length) :
    (assign name value scopes).length = scopes.length := by
  induction scopes with
  | nil => cases h
  | cons scope outer ih =>
    cases outer with
    | nil => rfl
    | cons next outer =>
      simp only [assign]
      split
      · rfl
      · rw [List.length_cons, List.length_cons, ih (by simp)]

theorem length_keepOldest {α : Type} {n : Nat} {entries : List α} (h : n ≤ entries.length) :
    (keepOldest n entries).length = n := by
  rw [keepOldest, List.length_drop]
  omega

end Machine

/-! ## A machine at a level -/

/-- **The handlers of a machine are those of a level**: each was set up on an empty stack and leads
to its place in the code with the scopes that were open, the outer handlers and the failure. -/
inductive Guarded (levels : List Level) : List Nat → List Handler → Prop where
  | nil : Guarded levels [] []
  | cons {scopes : Nat} {outer : List Nat} {handler : Handler} {handlers : List Handler}
      (stack : handler.stackLen = 0) (scope : handler.scopeLen = scopes)
      (leads : Leads levels handler.catchPc { handlers := outer, scopes, operands := 1 })
      (rest : Guarded levels outer handlers) : Guarded levels (scopes :: outer) (handler :: handlers)

/-- **A machine has what a level tells of.** -/
structure Fits (levels : List Level) (here : Level) (m : Machine) : Prop where
  scopes : m.scopes.length = here.scopes
  stack : m.stack.length = here.operands
  block : here.block = true → ∃ body rest, m.stack = .closure body :: rest
  handlers : Guarded levels here.handlers m.handlers

theorem Guarded.length_eq {levels : List Level} {outer : List Nat} {handlers : List Handler}
    (h : Guarded levels outer handlers) : handlers.length = outer.length := by
  induction h with
  | nil => rfl
  | cons _ _ _ _ ih => rw [List.length_cons, List.length_cons, ih]

theorem Guarded.tail {levels : List Level} {scopes : Nat} {outer : List Nat} {handlers : List Handler}
    (h : Guarded levels (scopes :: outer) handlers) : Guarded levels outer handlers.tail := by
  cases h with
  | cons _ _ _ rest => exact rest

/-- Each handler is one of the level. -/
theorem Guarded.handler {levels : List Level} {outer : List Nat} {handlers : List Handler}
    (h : Guarded levels outer handlers) {handler : Handler} (hmem : handler ∈ handlers) :
    handler.stackLen = 0 ∧ handler.scopeLen ∈ outer ∧ handler.catchPc < levels.length := by
  induction h with
  | nil => cases hmem
  | cons stack scope leads rest ih =>
    rcases List.mem_cons.mp hmem with rfl | hmem
    · exact ⟨stack, scope ▸ List.mem_cons_self, (List.getElem?_eq_some_iff.mp leads.1).1⟩
    · obtain ⟨hempty, hscope, hcatch⟩ := ih hmem
      exact ⟨hempty, List.mem_cons_of_mem _ hscope, hcatch⟩

/-- **Where a machine stands** in code with these levels: before an instruction, behind a step call
whose outcome it waits for, or at its end. -/
inductive Poised (levels : List Level) (m : Machine) : Prop where
  | ready {here : Level} (phase : m.phase = .ready) (level : levels[m.pc]? = some here)
      (fits : Fits levels here m)
  | awaiting {below : Level} (phase : m.phase = .awaitingStep)
      (leads : levels[m.pc]? = some (below.push 1)) (plain : below.block = false)
      (fits : Fits levels below m)
  | done (phase : m.phase = .done) (bound : m.pc ≤ levels.length) (handlers : m.handlers = [])
      (base : 1 ≤ m.scopes.length)

/-- What an instruction of a machine may come to: another place, a step call, the end, or a failure,
which is internal only when the script itself throws such a failure. -/
inductive Comes (levels : List Level) (instr : Instr Val) (m : Machine) : Progress → Prop where
  | places {m' : Machine} {next : Level} (phase : m'.phase = .ready)
      (level : levels[m'.pc]? = some next) (fits : Fits levels next m') :
      Comes levels instr m (.continues m')
  | calls {request : StepRequest} {m' : Machine} {below : Level} (phase : m'.phase = .awaitingStep)
      (leads : levels[m'.pc]? = some (below.push 1)) (plain : below.block = false)
      (fits : Fits levels below m') : Comes levels instr m (.yields (.step request) m')
  | ends {outcome : Outcome} {m' : Machine} (phase : m'.phase = .done) (pc : m'.pc = m.pc)
      (handlers : m'.handlers = []) (scopes : m'.scopes = m.scopes) :
      Comes levels instr m (.yields (.completed outcome) m')
  | fails {failure : Failure} {m' : Machine} (phase : m'.phase = m.phase) (pc : m'.pc = m.pc)
      (handlers : m'.handlers = m.handlers) (scopes : m'.scopes = m.scopes)
      (cause : failure.code = Failure.Code.internal →
        instr = .throw ∧ m.stack.head? = some (.error failure)) :
      Comes levels instr m (.raises failure m')

section Execution

variable {limit : Nat} {levels : List Level} {pc : Nat} {here : Level} {m : Machine}

/-- Going on at an address with a level that the machine fits. -/
theorem Comes.leads {instr : Instr Val} {m' : Machine} (next : Level)
    (phase : m'.phase = .ready) (leads : Leads levels m'.pc next)
    (scopes : m'.scopes.length = next.scopes) (stack : m'.stack.length = next.operands)
    (handlers : Guarded levels next.handlers m'.handlers) :
    Comes levels instr m (.continues m') := by
  refine .places phase leads.1 ⟨scopes, stack, fun hblock => ?_, handlers⟩
  rw [leads.2] at hblock
  cases hblock

/-- The result of an operator is pushed, or its failure is raised. -/
theorem comes_pushOutcome {instr : Instr Val} {below : Level} {m' : Machine} {outcome : Outcome}
    (phase : m'.phase = .ready) (hphase : m'.phase = m.phase) (hpc : m'.pc = m.pc)
    (hhandlers : m'.handlers = m.handlers) (hscopes : m'.scopes = m.scopes)
    (leads : Leads levels m'.pc (below.push 1)) (scopes : m'.scopes.length = below.scopes)
    (stack : m'.stack.length = below.operands) (handlers : Guarded levels below.handlers m'.handlers)
    (cause : ∀ failure, outcome = .error failure → failure.code ≠ Failure.Code.internal) :
    Comes levels instr m (m'.pushOutcome outcome) := by
  cases outcome with
  | ok value => exact .leads (below.push 1) phase leads scopes (congrArg (· + 1) stack) handlers
  | error failure =>
    exact .fails hphase hpc hhandlers hscopes fun hcode => absurd hcode (cause failure rfl)

/-- A step call takes its arguments off the stack. -/
theorem comes_request {instr : Instr Val} {below : Level} {m' : Machine} (function : String)
    {argc : Nat} (body : Option (Closure Val)) (leads : Leads levels m'.pc (below.push 1))
    (scopes : m'.scopes.length = below.scopes) (stack : m'.stack.length = below.operands + argc)
    (handlers : Guarded levels below.handlers m'.handlers) :
    Comes levels instr m (m'.request function argc body) := by
  unfold Machine.request Machine.popMany
  rw [if_pos (by omega)]
  refine .calls rfl leads.1 leads.2 ⟨scopes, ?_, fun hblock => ?_, handlers⟩
  · show (m'.stack.drop argc).length = below.operands
    rw [List.length_drop, stack, Nat.add_sub_cancel]
  · rw [show below.block = false from leads.2] at hblock
    cases hblock

/-- A jump on the top of the stack leaves everything else as it is. -/
theorem comes_jumpWhen {instr : Instr Val} {target : Nat} (truthy : Bool) (hready : m.phase = .ready)
    (hfits : Fits levels here m) (hone : 1 ≤ here.operands) (hnext : Leads levels m.pc here)
    (htarget : Leads levels target here) : Comes levels instr m (m.jumpWhen target truthy) := by
  obtain ⟨value, stack, hstack⟩ := List.exists_cons_of_length_pos (hfits.stack ▸ hone)
  have hlength : (value :: stack).length = here.operands := hstack ▸ hfits.stack
  simp only [Machine.jumpWhen, hstack]
  split
  · exact .leads here hready htarget hfits.scopes hlength hfits.handlers
  · exact .leads here hready hnext hfits.scopes hfits.stack hfits.handlers

/-- The topmost of the operands that a level has. -/
theorem exists_top {below : Level} {n : Nat} (hlength : m.stack.length = (below.push (n + 1)).operands) :
    ∃ value stack, m.stack = value :: stack ∧ stack.length = below.operands + n := by
  obtain ⟨value, stack, hstack⟩ := List.exists_cons_of_length_pos (l := m.stack)
    (hlength ▸ Nat.succ_pos _)
  refine ⟨value, stack, hstack, ?_⟩
  rw [hstack, List.length_cons] at hlength
  exact Nat.succ.inj hlength

/-- **An instruction that agrees with the levels leads a machine from its level to another.** -/
theorem comes_execute {instr : Instr Val} (hagrees : Agrees limit levels pc here instr)
    (hnested : here.Nested) (hpc : m.pc = pc + 1) (hready : m.phase = .ready)
    (hfits : Fits levels here m) : Comes levels instr m (m.execute instr) := by
  have hbase : 1 ≤ m.scopes.length := hfits.scopes ▸ hnested.base
  obtain ⟨hscopes, hstack, hblock, hhandlers⟩ := hfits
  have hnextAt : ∀ {next : Level}, Leads levels (pc + 1) next → Leads levels m.pc next :=
    fun hleads => hpc ▸ hleads
  cases instr with
  | const value => exact .leads (here.push 1) hready (hnextAt hagrees) hscopes (congrArg (· + 1) hstack) hhandlers
  | load name =>
    simp only [Machine.execute]
    split
    · exact .leads (here.push 1) hready (hnextAt hagrees) hscopes (congrArg (· + 1) hstack) hhandlers
    · exact .fails rfl rfl rfl rfl fun hcode =>
        absurd hcode (by decide : Failure.Code.undefinedVariable ≠ Failure.Code.internal)
  | makeClosure k =>
    rcases hagrees.2 with hnext | hnext
    · exact .leads (here.push 1) hready (hnextAt hnext) hscopes (congrArg (· + 1) hstack) hhandlers
    -- the closure is the block of a call, which looks for it on top
    · replace hnext : levels[m.pc]? = some (here.push 1).onBlock := hpc ▸ hnext
      exact .places hready hnext
        ⟨hscopes, congrArg (· + 1) hstack, fun _ => ⟨_, _, rfl⟩, hhandlers⟩
  | declare name =>
    obtain ⟨below, rfl, hnext⟩ := hagrees
    obtain ⟨value, stack, htaken, hrest⟩ := exists_top hstack
    simp only [Machine.execute, Machine.popThen, htaken]
    exact .leads below hready (hnextAt hnext) ((Machine.length_declare name value hbase).trans hscopes)
      hrest hhandlers
  | store name =>
    obtain ⟨below, rfl, hnext⟩ := hagrees
    obtain ⟨value, stack, htaken, hrest⟩ := exists_top hstack
    simp only [Machine.execute, Machine.popThen, htaken]
    exact .leads below hready (hnextAt hnext) ((Machine.length_assign name value hbase).trans hscopes)
      hrest hhandlers
  | pop =>
    obtain ⟨below, rfl, hnext⟩ := hagrees
    obtain ⟨value, stack, htaken, hrest⟩ := exists_top hstack
    simp only [Machine.execute, Machine.popThen, htaken]
    exact .leads below hready (hnextAt hnext) hscopes hrest hhandlers
  | binary op =>
    obtain ⟨hand, hor, below, rfl, hnext⟩ := hagrees
    obtain ⟨right, stack, htaken, hrest⟩ := exists_top (n := 1) hstack
    obtain ⟨left, stack, rfl⟩ := List.exists_cons_of_length_pos (l := stack) (hrest ▸ Nat.succ_pos _)
    simp only [Machine.execute, Machine.popThen, htaken]
    exact comes_pushOutcome hready rfl rfl rfl rfl (hnextAt hnext) hscopes (Nat.succ.inj hrest) hhandlers
      fun failure hfailure => Val.not_internal_binary hand hor hfailure
  | unary op =>
    obtain ⟨below, rfl, hnext⟩ := hagrees
    obtain ⟨operand, stack, htaken, hrest⟩ := exists_top hstack
    simp only [Machine.execute, Machine.popThen, htaken]
    exact comes_pushOutcome hready rfl rfl rfl rfl (hnextAt hnext) hscopes hrest hhandlers
      fun failure hfailure => Val.not_internal_unary hfailure
  | makeList n =>
    obtain ⟨below, rfl, hnext⟩ := hagrees
    have henough : n ≤ m.stack.length := hstack ▸ Nat.le_add_left _ _
    simp only [Machine.execute, Machine.popMany, if_pos henough]
    refine .leads (below.push 1) hready (hnextAt hnext) hscopes ?_ hhandlers
    show (m.stack.drop n).length + 1 = below.operands + 1
    rw [List.length_drop, hstack, Level.push, Nat.add_sub_cancel]
  | call function argc body =>
    cases body with
    | false =>
      obtain ⟨below, rfl, hnext⟩ := hagrees
      exact comes_request function none (hnextAt hnext) hscopes hstack hhandlers
    | true =>
      obtain ⟨below, rfl, hnext⟩ := hagrees
      -- a level with a block on top counts the block among its operands
      obtain ⟨body, rest, htaken⟩ := hblock rfl
      have hrest : rest.length = below.operands + argc := by
        rw [htaken] at hstack
        exact Nat.succ.inj hstack
      simp only [Machine.execute, Machine.popThen, htaken]
      exact comes_request function (some body) (hnextAt hnext) hscopes hrest hhandlers
  | jump target => exact .leads here hready hagrees hscopes hstack hhandlers
  | jumpIfFalse target =>
    obtain ⟨below, rfl, hnext, htarget⟩ := hagrees
    obtain ⟨value, stack, htaken, hrest⟩ := exists_top hstack
    simp only [Machine.execute, Machine.popThen, htaken]
    split
    · exact .leads below hready (hnextAt hnext) hscopes hrest hhandlers
    · exact .leads below hready htarget hscopes hrest hhandlers
  | jumpIfFalseKeep target | jumpIfTrueKeep target =>
    exact comes_jumpWhen _ hready ⟨hscopes, hstack, hblock, hhandlers⟩ hagrees.1 (hnextAt hagrees.2.1)
      hagrees.2.2
  | enterScope =>
    exact .leads here.inScope hready (hnextAt hagrees) (congrArg (· + 1) hscopes) hstack hhandlers
  | exitScope =>
    obtain ⟨below, rfl, hnext⟩ := hagrees
    refine .leads below hready (hnextAt hnext) ?_ hstack hhandlers
    show m.scopes.tail.length = below.scopes
    rw [List.length_tail, hscopes, Level.inScope, Nat.add_sub_cancel]
  | pushHandler target =>
    obtain ⟨hempty, hnext, htarget⟩ := hagrees
    -- what is on the stack when the handler is found is the failure, as the stack is empty now
    refine .leads here.inHandler hready (hnextAt hnext) hscopes hstack
      (.cons (hstack.trans hempty) hscopes ?_ hhandlers)
    have hblock := htarget.2
    obtain ⟨handlers, scopes, operands, block⟩ := here
    obtain rfl : operands = 0 := hempty
    obtain rfl : block = false := hblock
    exact htarget
  | popHandler =>
    obtain ⟨scopes, outer, heq, hnext⟩ := hagrees
    rw [heq] at hhandlers
    exact .leads { here with handlers := outer } hready (hnextAt hnext) hscopes hstack hhandlers.tail
  | throw =>
    replace hagrees : 1 ≤ here.operands := hagrees
    obtain ⟨value, stack, htaken⟩ := List.exists_cons_of_length_pos (l := m.stack) (hstack ▸ hagrees)
    simp only [Machine.execute, Machine.popThen, htaken]
    refine .fails rfl rfl rfl rfl fun hcode => ⟨rfl, ?_⟩
    rw [htaken, List.head?_cons, ← Val.eq_error_of_internal hcode]
  | ret => exact .ends rfl rfl rfl rfl

/-- **A failure goes to a place** when it is handed to the handlers of a level, or it is the end. -/
theorem poised_raise (hphase : m.phase = .ready) (hpc : m.pc ≤ levels.length)
    (hbase : 1 ≤ m.scopes.length) {outer : List Nat} (hguarded : Guarded levels outer m.handlers)
    (hroom : ∀ scopes ∈ outer, scopes ≤ m.scopes.length) (failure : Failure) :
    Poised levels (m.raise failure).machine := by
  unfold Machine.raise
  cases hhandlers : m.handlers with
  | nil => exact .done rfl hpc rfl hbase
  | cons handler handlers =>
    rw [hhandlers] at hguarded
    cases hguarded with
    | cons stack scope leads rest =>
      refine .ready hphase leads.1 ⟨?_, ?_, fun hblock => (by cases hblock), rest⟩
      · show (Machine.keepOldest handler.scopeLen m.scopes).length = _
        rw [Machine.length_keepOldest (scope ▸ hroom _ List.mem_cons_self), scope]
      · show (Machine.keepOldest handler.stackLen m.stack).length + 1 = 1
        rw [stack, Machine.length_keepOldest (Nat.zero_le _)]

end Execution

/-! ## A machine in a chunk -/

/-- The instruction that a machine executes next. -/
def Machine.instr? (m : Machine) : Option (Instr Val) :=
  m.program.chunks[m.chunk]?.bind fun chunk => chunk.code[m.pc]?

/-- The closure that a machine creates next, if it does. -/
def Machine.created? (m : Machine) : Option (Closure Val) :=
  match m.instr? with
  | some (.makeClosure chunk) => some { program := m.program, chunk, captured := visible m.scopes }
  | _ => none

section Chunk

variable {limit : Nat} {body : Stmt} {chunk : Chunk Val} {m : Machine}

/-- Where a machine stands, there is an instruction, which agrees with the level of the place. -/
theorem Compile.Verified.fetched (h : Verified limit body chunk) {pc : Nat} {here : Level}
    (hlevel : (bodyLevels body)[pc]? = some here) :
    ∃ instr, chunk.code[pc]? = some instr ∧ Agrees limit (bodyLevels body) pc here instr := by
  have hpc : pc < chunk.code.length := h.length ▸ (List.getElem?_eq_some_iff.mp hlevel).1
  obtain ⟨instr, level, hinstr, hsame, hagrees⟩ := h.agrees pc (Nat.zero_le pc) hpc
  obtain rfl : level = here := Option.some.inj (hsame.symm.trans hlevel)
  exact ⟨instr, hinstr, hagrees⟩

theorem nested_at {pc : Nat} {here : Level} (hlevel : (bodyLevels body)[pc]? = some here) :
    here.Nested :=
  nested_body body here (List.mem_of_getElem? hlevel)

/-- **What the next instruction of a machine comes to.** -/
theorem Poised.comes_step (h : Verified limit body chunk) (hchunk : m.program.chunks[m.chunk]? = some chunk)
    (hready : m.phase = .ready) {here : Level} (hlevel : (bodyLevels body)[m.pc]? = some here)
    (hfits : Fits (bodyLevels body) here m) :
    ∃ instr, m.instr? = some instr ∧
      Comes (bodyLevels body) instr { m with pc := m.pc + 1 } m.step := by
  obtain ⟨instr, hinstr, hagrees⟩ := h.fetched hlevel
  refine ⟨instr, ?_, ?_⟩
  · rw [Machine.instr?, hchunk]
    exact hinstr
  · simp only [Machine.step, hchunk, hinstr]
    exact comes_execute hagrees (nested_at hlevel) rfl hready
      ⟨hfits.scopes, hfits.stack, hfits.block, hfits.handlers⟩

/-- A level's handlers have no more scopes than a machine that fits. -/
theorem Fits.room {levels : List Level} {here : Level} (hfits : Fits levels here m)
    (hnested : here.Nested) : ∀ scopes ∈ here.handlers, scopes ≤ m.scopes.length :=
  fun scopes hmem => hfits.scopes ▸ hnested.handlers scopes hmem

/-- **Executing an instruction leads from place to place.** -/
theorem Poised.advance (h : Verified limit body chunk) (hchunk : m.program.chunks[m.chunk]? = some chunk)
    (hready : m.phase = .ready) (hpoised : Poised (bodyLevels body) m) :
    Poised (bodyLevels body) m.advance.machine := by
  cases hpoised with
  | awaiting phase => exact absurd (phase.symm.trans hready) (by decide)
  | done phase => exact absurd (phase.symm.trans hready) (by decide)
  | ready phase hlevel hfits =>
    obtain ⟨instr, -, hcomes⟩ := Poised.comes_step h hchunk hready hlevel hfits
    have hnested := nested_at hlevel
    have hbound : m.pc + 1 ≤ (bodyLevels body).length := (List.getElem?_eq_some_iff.mp hlevel).1
    have hbase : 1 ≤ m.scopes.length := hfits.scopes ▸ hnested.base
    unfold Machine.advance
    generalize m.step = progress at hcomes
    cases hcomes with
    | places phase level fits => exact .ready phase level fits
    | calls phase leads plain fits => exact .awaiting phase leads plain fits
    | ends phase pc handlers scopes => exact .done phase (pc ▸ hbound) handlers (scopes ▸ hbase)
    | fails phase pc handlers scopes _ =>
      exact poised_raise (phase.trans hready) (pc ▸ hbound) (scopes ▸ hbase)
        (handlers ▸ hfits.handlers) (scopes ▸ hfits.room hnested) _

/-- A machine that waits goes on with the value it is given. -/
theorem Poised.answered {levels : List Level} (hpoised : Poised levels m)
    (hawaiting : m.phase = .awaitingStep) (value : Val) :
    Poised levels ({ m with phase := .ready }.push value) := by
  cases hpoised with
  | ready phase => exact absurd (phase.symm.trans hawaiting) (by decide)
  | done phase => exact absurd (phase.symm.trans hawaiting) (by decide)
  | awaiting phase leads plain fits =>
    refine .ready rfl leads ⟨fits.scopes, congrArg (· + 1) fits.stack, fun hblock => ?_, fits.handlers⟩
    rw [Level.push, plain] at hblock
    cases hblock

/-- **A failure from outside leads from place to place**, wherever the machine is. -/
theorem Poised.failed (hpoised : Poised (bodyLevels body) m) (hrunning : m.phase ≠ .done)
    (failure : Failure) :
    Poised (bodyLevels body) ({ m with phase := .ready }.raise failure).machine := by
  have raised : ∀ {here : Level} {n : Nat}, (bodyLevels body)[m.pc]? = some (here.push n) →
      Fits (bodyLevels body) here m →
      Poised (bodyLevels body) ({ m with phase := .ready }.raise failure).machine := by
    intro here n hlevel hfits
    have hnested : here.Nested := ⟨(nested_at hlevel).base, (nested_at hlevel).handlers⟩
    exact poised_raise (m := { m with phase := .ready }) rfl (Nat.le_of_lt (List.getElem?_eq_some_iff.mp hlevel).1)
      (hfits.scopes ▸ hnested.base) hfits.handlers (hfits.room hnested) failure
  cases hpoised with
  | ready phase level fits => exact raised (n := 0) level fits
  | awaiting phase leads plain fits => exact raised leads fits
  | done phase => exact absurd phase hrunning

end Chunk

/-! ## The machines of a program -/

/-- **The machines that a program can come to.** A machine is started on the program or on a closure
that such a machine creates; then instructions are executed one at a time, a step call is answered,
and failures strike wherever a machine is not at its end. -/
inductive Reached (program : Program Val) : Machine → Prop where
  | started (budget : Nat) : Reached program (.ofProgram program budget)
  | entered {m : Machine} {closure : Closure Val} (reached : Reached program m)
      (ready : m.phase = .ready) (created : m.created? = some closure) (budget : Nat) :
      Reached program (.ofClosure closure budget)
  | advanced {m : Machine} (reached : Reached program m) (ready : m.phase = .ready) :
      Reached program m.advance.machine
  | answered {m : Machine} (reached : Reached program m) (awaiting : m.phase = .awaitingStep)
      (value : Val) : Reached program ({ m with phase := .ready }.push value)
  | failed {m : Machine} (reached : Reached program m) (running : m.phase ≠ .done)
      (failure : Failure) : Reached program ({ m with phase := .ready }.raise failure).machine

section Drive

variable {program : Program Val} {m : Machine}

theorem Reached.runFor (n : Nat) (h : Reached program m) (hready : m.phase = .ready) :
    Reached program (m.runFor n).2 := by
  induction n generalizing m with
  | zero => exact h
  | succ n ih =>
    have hadvanced := h.advanced hready
    have hsteady := Machine.steady_advance m
    unfold Machine.runFor
    generalize m.advance = progress at hadvanced hsteady
    cases progress with
    | continues m' => exact ih hadvanced (hsteady.2.trans hready)
    | yields y m' => exact hadvanced
    | raises failure m' => exact hadvanced

/-- **Driving a machine** to its next stop, with any outcome, leads to a machine that its program can
come to. -/
theorem Reached.run (h : Reached program m) (input : Outcome) : Reached program (m.run input).2 := by
  have after : ∀ failure, m.phase ≠ .done →
      Reached program (m.runAfter ({ m with phase := .ready }.raise failure)).2 := by
    intro failure hrunning
    have hfailed := h.failed hrunning failure
    have hsteady : Machine.Steady { m with phase := .ready } ({ m with phase := .ready }.raise failure) :=
      Machine.steady_raise rfl rfl failure
    generalize { m with phase := .ready }.raise failure = progress at hfailed hsteady
    cases progress with
    | continues m' => exact hfailed.runFor _ hsteady.2
    | yields y m' => exact hfailed
    | raises failure m' => exact h
  unfold Machine.run
  split
  · exact h
  · next value hphase => exact (h.answered hphase value).runFor _ rfl
  · next failure hphase => exact after failure (by rw [hphase]; decide)
  · next hphase => exact h.runFor _ hphase
  · next failure hphase =>
    have hafter := after failure (by rw [hphase]; decide)
    rwa [← hphase] at hafter

end Drive

/-! ## What a machine never leaves -/

/-- Two machines run the same chunk of the same program. -/
def Machine.SameCode (m m' : Machine) : Prop := m'.program = m.program ∧ m'.chunk = m.chunk

theorem Machine.SameCode.refl (m : Machine) : m.SameCode m := ⟨rfl, rfl⟩

theorem Machine.SameCode.trans {a b c : Machine} (hab : a.SameCode b) (hbc : b.SameCode c) : a.SameCode c :=
  ⟨hbc.1.trans hab.1, hbc.2.trans hab.2⟩

theorem Machine.sameCode_execute (m : Machine) (instr : Instr Val) :
    m.SameCode (m.execute instr).machine := by
  cases instr with
  | call function argc body =>
    cases body <;>
    · simp only [execute, popThen, request, popMany]
      repeat' split
      all_goals exact ⟨rfl, rfl⟩
  | binary op | unary op =>
    simp only [execute, popThen]
    repeat' split
    all_goals first
      | exact ⟨rfl, rfl⟩
      | unfold pushOutcome
        split <;> exact ⟨rfl, rfl⟩
  | load name =>
    simp only [execute]
    split <;> exact ⟨rfl, rfl⟩
  | declare | store | pop | throw | makeList =>
    simp only [execute, popThen, popMany]
    split <;> exact ⟨rfl, rfl⟩
  | jumpIfFalse | jumpIfFalseKeep | jumpIfTrueKeep =>
    simp only [execute, popThen, jumpWhen]
    split
    · refine ⟨?_, ?_⟩ <;> simp only [Progress.machine] <;> split <;> rfl
    · exact ⟨rfl, rfl⟩
  | _ => exact ⟨rfl, rfl⟩

theorem Machine.sameCode_raise (m : Machine) (failure : Failure) :
    m.SameCode (m.raise failure).machine := by
  unfold raise
  split <;> exact ⟨rfl, rfl⟩

theorem Machine.sameCode_advance (m : Machine) : m.SameCode m.advance.machine := by
  have hstep : m.SameCode m.step.machine := by
    unfold step
    split
    · exact ⟨rfl, rfl⟩
    · split
      · exact ⟨rfl, rfl⟩
      · exact sameCode_execute { m with pc := m.pc + 1 } _
  unfold advance
  split
  · next failure m' heq =>
    rw [heq] at hstep
    have hraise := m'.sameCode_raise failure
    exact hstep.trans hraise
  · exact hstep

section Compiled

variable {name : String} {script : ParsedScript} {program : Program Val}

/-- A chunk of a compiled script and the body that it is compiled from. -/
theorem chunk_of_compile (h : compile name script = .ok program) {k : Nat}
    (hk : k < program.chunks.length) :
    ∃ body chunk, script.bodies[k]? = some body ∧ program.chunks[k]? = some chunk ∧
      Verified program.chunks.length body chunk := by
  have hverified := verified_compile h
  have hbodies : k < script.bodies.length := hverified.length_eq ▸ hk
  refine ⟨_, _, List.getElem?_eq_getElem hbodies, List.getElem?_eq_getElem hk, ?_⟩
  exact hverified.get hbodies hk

/-- A machine stands somewhere in a chunk of its program. -/
def Standing (script : ParsedScript) (program : Program Val) (m : Machine) : Prop :=
  m.program = program ∧ ∃ body chunk, script.bodies[m.chunk]? = some body ∧
    program.chunks[m.chunk]? = some chunk ∧ Verified program.chunks.length body chunk ∧
    Poised (bodyLevels body) m

/-- A chunk is entered at the level of its first instruction. -/
theorem standing_start (h : compile name script = .ok program) {k : Nat}
    (hk : k < program.chunks.length) (visible : Scope) (budget : Nat) :
    Standing script program (.start program k visible budget) := by
  obtain ⟨body, chunk, hbody, hchunk, hverified⟩ := chunk_of_compile h hk
  refine ⟨rfl, body, chunk, hbody, hchunk, hverified, ?_⟩
  have hplaced : Placed (bodyLevels body) 0
      (stmtLevels .base none body ++ [.base, Level.base.push 1]) := placed_self
  rw [placed_append, placed_cons] at hplaced
  have hentry := entry_stmt body hplaced.1 hplaced.2.1
  exact .ready rfl hentry ⟨rfl, rfl, fun hno => (by cases hno), .nil⟩

/-- **Every machine that a compiled script comes to stands somewhere in its chunk.** -/
theorem Reached.standing (h : compile name script = .ok program) {m : Machine}
    (hm : Reached program m) : Standing script program m := by
  induction hm with
  | started budget =>
    have hlength := (verified_compile h).length_eq
    exact standing_start h (by rw [← hlength]; exact Nat.succ_pos _) [] budget
  | @entered m closure reached ready created budget ih =>
    obtain ⟨rfl, body, chunk, hbody, hchunk, hverified, hpoised⟩ := ih
    cases hpoised with
    | awaiting phase => exact absurd (phase.symm.trans ready) (by decide)
    | done phase => exact absurd (phase.symm.trans ready) (by decide)
    | ready phase hlevel hfits =>
      -- a closure is created where its literal stands, and its chunk is verified with this one
      obtain ⟨instr, hinstr, hagrees⟩ := hverified.fetched hlevel
      have hnext : m.instr? = some instr := by
        rw [Machine.instr?, hchunk]
        exact hinstr
      unfold Machine.created? at created
      rw [hnext] at created
      split at created
      · next k heq =>
        cases created
        obtain rfl : instr = .makeClosure k := Option.some.inj heq
        exact standing_start h hagrees.1 _ budget
      · cases created
  | @advanced m reached ready ih =>
    obtain ⟨rfl, body, chunk, hbody, hchunk, hverified, hpoised⟩ := ih
    have hsame := m.sameCode_advance
    refine ⟨hsame.1, body, chunk, hsame.2 ▸ hbody, hsame.2 ▸ hchunk, hverified, ?_⟩
    exact hpoised.advance hverified hchunk ready
  | answered reached awaiting value ih =>
    obtain ⟨rfl, body, chunk, hbody, hchunk, hverified, hpoised⟩ := ih
    exact ⟨rfl, body, chunk, hbody, hchunk, hverified, hpoised.answered awaiting value⟩
  | @failed m reached running failure ih =>
    obtain ⟨rfl, body, chunk, hbody, hchunk, hverified, hpoised⟩ := ih
    have hsame := Machine.sameCode_raise { m with phase := .ready } failure
    have hplace : ({ m with phase := .ready }.raise failure).machine.chunk = m.chunk := hsame.2
    refine ⟨hsame.1, body, chunk, ?_, ?_, hverified, hpoised.failed running failure⟩
    · rw [hplace]
      exact hbody
    · rw [hplace]
      exact hchunk

end Compiled

/-! ## Well-behaved machines -/

/-- The place that an instruction names, if it names one. -/
def Instr.target? {V : Type} : Instr V → Option Nat
  | .jump target | .jumpIfFalse target | .jumpIfFalseKeep target | .jumpIfTrueKeep target
  | .pushHandler target => some target
  | _ => none

/-- **A chunk is in order** in a program: it names places and chunks that are there, and ends by
returning. -/
structure InOrder (program : Program Val) (chunk : Chunk Val) : Prop where
  targets : ∀ instr ∈ chunk.code, ∀ target, instr.target? = some target → target < chunk.code.length
  closures : ∀ k, .makeClosure k ∈ chunk.code → k < program.chunks.length
  returns : chunk.code.getLast? = some .ret

/-- **A machine is well behaved** in a chunk that is compiled from a body. -/
structure Behaves (program : Program Val) (body : Stmt) (chunk : Chunk Val) (m : Machine) : Prop where
  /-- The chunk that it runs is there. -/
  place : m.program = program ∧ program.chunks[m.chunk]? = some chunk
  /-- It is at an instruction, and as many scopes and handlers are open as the nesting says. -/
  running : m.phase ≠ .done → ∃ instr level, m.instr? = some instr ∧
    (bodyLevels body)[m.pc]? = some level ∧ m.scopes.length = level.scopes ∧
    m.handlers.length = level.handlers.length
  /-- At its end it is not beyond the end of the code, and no handler is left. -/
  ended : m.phase = .done → m.pc ≤ chunk.code.length ∧ m.handlers = []
  /-- The first scope is there, and is not the one that is closed. -/
  base : 1 ≤ m.scopes.length
  closes : m.phase = .ready → m.instr? = some .exitScope → 2 ≤ m.scopes.length
  /-- A handler goes back to an empty stack, to scopes that are there and to a place in the code. -/
  handlers : ∀ handler ∈ m.handlers, handler.stackLen = 0 ∧ handler.scopeLen ≤ m.scopes.length ∧
    handler.catchPc < chunk.code.length
  /-- Between statements the stack is empty. -/
  between : m.phase ≠ .done → m.pc ∈ bodyBounds body → m.stack = []
  /-- An instruction raises an internal failure only when the script throws one that it holds. -/
  failures : m.phase = .ready → ∀ failure m', m.step = .raises failure m' →
    failure.code = Failure.Code.internal →
    m.instr? = some .throw ∧ m.stack.head? = some (.error failure)

section Behaviour

variable {limit : Nat} {body : Stmt} {chunk : Chunk Val}

/-- The places that an instruction names have levels. -/
theorem Compile.Agrees.target {levels : List Level} {pc : Nat} {here : Level} {instr : Instr Val}
    (h : Agrees limit levels pc here instr) {target : Nat} (ht : instr.target? = some target) :
    target < levels.length := by
  have leads : ∀ {level : Level}, Leads levels target level → target < levels.length :=
    fun hleads => (List.getElem?_eq_some_iff.mp hleads.1).1
  cases instr with
  | jump => cases ht; exact leads h
  | jumpIfFalse =>
    cases ht
    obtain ⟨below, -, -, htarget⟩ := h
    exact leads htarget
  | jumpIfFalseKeep | jumpIfTrueKeep | pushHandler => cases ht; exact leads h.2.2
  | _ => cases ht

theorem Compile.Verified.inOrder {program : Program Val}
    (h : Verified program.chunks.length body chunk) : InOrder program chunk := by
  have agrees : ∀ instr ∈ chunk.code, ∃ pc level,
      Agrees program.chunks.length (bodyLevels body) pc level instr := by
    intro instr hmem
    obtain ⟨pc, hpc, rfl⟩ := List.getElem_of_mem hmem
    obtain ⟨instr, level, hinstr, -, hagrees⟩ := h.agrees pc (Nat.zero_le pc) hpc
    rw [List.getElem?_eq_getElem hpc] at hinstr
    cases hinstr
    exact ⟨pc, level, hagrees⟩
  refine ⟨fun instr hmem target ht => ?_, fun k hmem => ?_, h.returns⟩
  · obtain ⟨pc, level, hagrees⟩ := agrees instr hmem
    exact h.length ▸ hagrees.target ht
  · obtain ⟨pc, level, hagrees⟩ := agrees _ hmem
    exact hagrees.1

/-- **A machine at a place behaves well.** -/
theorem Poised.behaves {program : Program Val} {m : Machine}
    (h : Verified program.chunks.length body chunk) (hprogram : m.program = program)
    (hchunk : program.chunks[m.chunk]? = some chunk) (hpoised : Poised (bodyLevels body) m) :
    Behaves program body chunk m := by
  subst hprogram
  have fetched : ∀ {here : Level}, (bodyLevels body)[m.pc]? = some here →
      ∃ instr, m.instr? = some instr ∧
        Agrees m.program.chunks.length (bodyLevels body) m.pc here instr := by
    intro here hlevel
    obtain ⟨instr, hinstr, hagrees⟩ := h.fetched hlevel
    refine ⟨instr, ?_, hagrees⟩
    rw [Machine.instr?, hchunk]
    exact hinstr
  cases hpoised with
  | ready phase hlevel hfits =>
    have hnested := nested_at hlevel
    obtain ⟨instr, hinstr, hagrees⟩ := fetched hlevel
    refine ⟨⟨rfl, hchunk⟩, fun _ => ⟨instr, _, hinstr, hlevel, hfits.scopes, hfits.handlers.length_eq⟩,
      fun hdone => absurd (phase.symm.trans hdone) (by decide), hfits.scopes ▸ hnested.base,
      fun _ hexit => ?_, fun handler hmem => ?_, fun _ hbound => ?_, fun _ failure m' hraises hcode => ?_⟩
    · obtain rfl : instr = .exitScope := Option.some.inj (hinstr.symm.trans hexit)
      obtain ⟨below, rfl, hnext⟩ := hagrees
      rw [hfits.scopes]
      exact Nat.succ_le_succ (nested_at hnext.1).base
    · obtain ⟨hempty, hscope, hcatch⟩ := hfits.handlers.handler hmem
      exact ⟨hempty, hfits.room hnested _ hscope, h.length ▸ hcatch⟩
    · obtain ⟨level, hsame, hempty⟩ := operands_body hbound
      rw [hlevel] at hsame
      cases hsame
      exact List.length_eq_zero_iff.mp (hfits.stack.trans hempty)
    · obtain ⟨instr', hinstr', hcomes⟩ := Poised.comes_step h hchunk phase hlevel hfits
      rw [hraises] at hcomes
      cases hcomes with
      | fails _ _ _ _ cause =>
        obtain ⟨rfl, hhead⟩ := cause hcode
        exact ⟨hinstr', hhead⟩
  | @awaiting below phase hlevel plain hfits =>
    have hnested : below.Nested := ⟨(nested_at hlevel).base, (nested_at hlevel).handlers⟩
    have hnot : m.phase ≠ .ready := by
      rw [phase]
      decide
    obtain ⟨instr, hinstr, -⟩ := fetched hlevel
    refine ⟨⟨rfl, hchunk⟩, fun _ => ⟨instr, _, hinstr, hlevel, hfits.scopes, hfits.handlers.length_eq⟩,
      fun hdone => absurd (phase.symm.trans hdone) (by decide), hfits.scopes ▸ hnested.base,
      fun hready => absurd hready hnot, fun handler hmem => ?_, fun _ hbound => ?_,
      fun hready => absurd hready hnot⟩
    · obtain ⟨hempty, hscope, hcatch⟩ := hfits.handlers.handler hmem
      exact ⟨hempty, hfits.room hnested _ hscope, h.length ▸ hcatch⟩
    · -- the outcome of a call is an operand still to come, so no statement ends here
      obtain ⟨level, hsame, hempty⟩ := operands_body hbound
      rw [hlevel] at hsame
      cases hsame
      exact absurd hempty (Nat.succ_ne_zero _)
  | done phase bound handlers base =>
    have hnot : m.phase ≠ .ready := by
      rw [phase]
      decide
    refine ⟨⟨rfl, hchunk⟩, fun hrunning => absurd phase hrunning, fun _ => ⟨h.length ▸ bound, handlers⟩,
      base, fun hready => absurd hready hnot, fun handler hmem => ?_,
      fun hrunning => absurd phase hrunning, fun hready => absurd hready hnot⟩
    rw [handlers] at hmem
    cases hmem

end Behaviour

/-- **Compiled code is well behaved under any inputs.** Every machine that a compiled script can come
to runs a chunk in order and behaves well in it, and driving it with any outcome leads to another
such machine. -/
theorem compiled_is_well_behaved {name : String} {script : ParsedScript} {program : Program Val}
    (hcompiled : compile name script = .ok program) {m : Machine} (hm : Reached program m) :
    (∃ body chunk, script.bodies[m.chunk]? = some body ∧ InOrder program chunk ∧
      Behaves program body chunk m) ∧
    ∀ input, Reached program (m.run input).2 := by
  obtain ⟨hprogram, body, chunk, hbody, hchunk, hverified, hpoised⟩ := hm.standing hcompiled
  exact ⟨⟨body, chunk, hbody, hverified.inOrder, hpoised.behaves hverified hprogram hchunk⟩, hm.run⟩

/-- A script that leaves a loop from inside a try block once it has told, with a block behind the
call: `while (true) { try { tell() { return } break } catch (e) { continue } }`. -/
def tellOnce : ParsedScript :=
  let tell : Expr := .call "tell" [] (some (.ret none {})) {}
  { body := .whileDo (.bool true {})
      (.tryCatch (.block [.eval tell {}, .breakLoop {}] {}) "e" (.continueLoop {}) {}) {}
    span := {} }

/-- The call fails, and the machine is well behaved where the failure is caught. -/
theorem compiled_is_well_behaved_tell :
    ∃ program m, compile "tell" tellOnce = .ok program ∧ Reached program m ∧
      m.stack = [.error { code := "Refused", message := "no" }] ∧
      (∃ body chunk, tellOnce.bodies[m.chunk]? = some body ∧ InOrder program chunk ∧
        Behaves program body chunk m) ∧ ∀ input, Reached program (m.run input).2 := by
  let program : Program Val := (compile "tell" tellOnce).toOption.getD { name := "", chunks := [] }
  have hcompiled : compile "tell" tellOnce = .ok program := rfl
  have hstart : Reached program (.ofProgram program 9) := .started 9
  have hwaits : Reached program
      { program, chunk := 0, pc := 6, stack := [], scopes := [[], []],
        handlers := [{ catchPc := 13, stackLen := 0, scopeLen := 1 }], phase := .awaitingStep,
        budget := 9 } := hstart.run (.ok .null)
  have hcaught := hwaits.failed (by decide) { code := "Refused", message := "no" }
  exact ⟨program, _, hcompiled, hcaught, rfl, compiled_is_well_behaved hcompiled hcaught⟩

end DurableFlow.Script
