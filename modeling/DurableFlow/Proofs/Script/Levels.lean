/-
What is open at each instruction of a compiled statement.

The nesting of the source says, for each instruction, how many handlers and scopes are open
when it is executed and how many operands are on the stack. It is written here by recursion
over the syntax tree, in the order of the code: a block and a handler's body stand in one
more scope, a protected body in one more handler, and an operand counts from the end of its
own code to the instruction that takes it. Only `break` and `continue` leave what is open step
by step: they give up handlers, then scopes, down to what was open when the loop began.
-/
import DurableFlow.Proofs.Script.Placement

set_option autoImplicit false

namespace DurableFlow.Script

open Compile

namespace Compile

/-! ## Levels -/

/-- **What is open at an instruction.** -/
structure Level where
  /-- For each handler, the innermost first, how many scopes were open when it was set up. -/
  handlers : List Nat
  /-- How many scopes are open, the first one included. -/
  scopes : Nat
  /-- How many values are on the operand stack. -/
  operands : Nat
  /-- Whether the topmost value is the block behind a step call. -/
  block : Bool := false
deriving DecidableEq

namespace Level

/-- A chunk begins with one scope. -/
def base : Level := { handlers := [], scopes := 1, operands := 0 }

def push (here : Level) (n : Nat) : Level := { here with operands := here.operands + n }

def onBlock (here : Level) : Level := { here with block := true }

def inScope (here : Level) : Level := { here with scopes := here.scopes + 1 }

/-- One more handler, which remembers the scopes that are open. -/
def inHandler (here : Level) : Level := { here with handlers := here.scopes :: here.handlers }

theorem push_push (here : Level) (m n : Nat) : (here.push m).push n = here.push (m + n) := by
  simp only [push, Nat.add_assoc]

/-- The first scope is open, and no handler remembers more scopes than there are. -/
structure Nested (here : Level) : Prop where
  base : 1 ≤ here.scopes
  handlers : ∀ scopes ∈ here.handlers, scopes ≤ here.scopes

/-- What is open inside of a level is still open, and more may be. -/
structure Within (outer here : Level) : Prop where
  handlers : outer.handlers <:+ here.handlers
  scopes : outer.scopes ≤ here.scopes
  operands : outer.operands = here.operands
  block : outer.block = here.block

variable {outer here : Level}

theorem Within.refl (here : Level) : here.Within here :=
  ⟨List.suffix_refl _, Nat.le_refl _, rfl, rfl⟩

/-- A scope more is still within. -/
theorem Within.inScope (h : outer.Within here) : outer.Within here.inScope :=
  ⟨h.handlers, Nat.le_succ_of_le h.scopes, h.operands, h.block⟩

theorem Within.inHandler (h : outer.Within here) : outer.Within here.inHandler :=
  ⟨h.handlers.trans (List.suffix_cons _ _), h.scopes, h.operands, h.block⟩

theorem Nested.push (h : here.Nested) (n : Nat) : (here.push n).Nested := ⟨h.base, h.handlers⟩

theorem Nested.onBlock (h : here.Nested) : here.onBlock.Nested := ⟨h.base, h.handlers⟩

theorem Nested.inScope (h : here.Nested) : here.inScope.Nested :=
  ⟨Nat.le_succ_of_le h.base, fun scopes hmem => Nat.le_succ_of_le (h.handlers scopes hmem)⟩

/-- A handler that is put in place remembers the level it stands at. -/
theorem Nested.inHandler (h : here.Nested) : here.inHandler.Nested := by
  refine ⟨h.base, fun scopes hmem => ?_⟩
  rcases List.mem_cons.mp hmem with rfl | hmem
  · exact Nat.le_refl _
  · exact h.handlers scopes hmem

end Level

/-! ## The levels of code -/

mutual

/-- The level of each instruction of an expression that begins at a level. -/
def exprLevels (here : Level) : Expr → List Level
  | .null _ | .bool _ _ | .num _ _ | .str _ _ | .ident _ _ | .closure _ _ => [here]
  | .list elements _ => exprsLevels here elements ++ [here.push elements.length]
  | .call _ args none _ => exprsLevels here args ++ [here.push args.length]
  | .call _ args (some _) _ =>
    exprsLevels here args ++ [here.push args.length, (here.push (args.length + 1)).onBlock]
  | .unary _ operand _ => exprLevels here operand ++ [here.push 1]
  | .binary .and left right _ | .binary .or left right _ =>
    exprLevels here left ++ [here.push 1, here.push 1] ++ exprLevels here right
  | .binary _ left right _ =>
    exprLevels here left ++ exprLevels (here.push 1) right ++ [here.push 2]

/-- The levels of expressions that are evaluated from left to right. -/
def exprsLevels (here : Level) : List Expr → List Level
  | [] => []
  | e :: es => exprLevels here e ++ exprsLevels (here.push 1) es

end

/-- The levels of an expression that may be left out. -/
def optionalLevels (here : Level) : Option Expr → List Level
  | none => [here]
  | some e => exprLevels here e

/-- The level on the way out of a loop after so many steps: handlers are given up first, then
scopes. -/
def leaveLevel (here loop : Level) (steps : Nat) : Level :=
  let handlers := here.handlers.length - loop.handlers.length
  { here with
    handlers := here.handlers.drop (min steps handlers)
    scopes := here.scopes - (steps - handlers) }

/-- The levels on the way out of a loop. -/
def leaveLevels (here loop : Level) : List Level :=
  (List.range (here.handlers.length - loop.handlers.length + (here.scopes - loop.scopes) + 1)).map
    (leaveLevel here loop)

mutual

/-- The level of each instruction of a statement that begins at a level, inside a loop or not. -/
def stmtLevels (here : Level) (loop : Option Level) : Stmt → List Level
  | .block body _ => here :: (stmtsLevels here.inScope loop body ++ [here.inScope])
  | .bind _ init _ => optionalLevels here init ++ [here.push 1]
  | .assign _ value _ | .throw value _ | .eval value _ => exprLevels here value ++ [here.push 1]
  | .ret value _ => optionalLevels here value ++ [here.push 1]
  | .ifThen test yes none _ => exprLevels here test ++ [here.push 1] ++ stmtLevels here loop yes
  | .ifThen test yes (some no) _ =>
    exprLevels here test ++ [here.push 1] ++ stmtLevels here loop yes ++ [here]
      ++ stmtLevels here loop no
  | .whileDo test body _ =>
    exprLevels here test ++ [here.push 1] ++ stmtLevels here (some here) body ++ [here]
  | .tryCatch body _ handler _ =>
    here :: (stmtLevels here.inHandler loop body ++ [here.inHandler, here]
      ++ [here.push 1, here.inScope.push 1] ++ stmtLevels here.inScope loop handler
      ++ [here.inScope])
  | .breakLoop _ | .continueLoop _ =>
    match loop with
    | none => []
    | some loop => leaveLevels here loop

/-- The levels of statements that follow each other. -/
def stmtsLevels (here : Level) (loop : Option Level) : List Stmt → List Level
  | [] => []
  | s :: ss => stmtLevels here loop s ++ stmtsLevels here loop ss

end

/-- **The levels of a chunk** that is compiled from a body. -/
def bodyLevels (body : Stmt) : List Level :=
  stmtLevels .base none body ++ [.base, Level.base.push 1]

/-! ## Where statements begin and end -/

mutual

/-- The addresses at which a statement, or one inside it, begins or ends. -/
def stmtBounds (here : Level) (loop : Option Level) (address : Nat) (s : Stmt) : List Nat :=
  address :: (address + (stmtLevels here loop s).length) :: innerBounds here loop address s
termination_by (sizeOf s, 1)

/-- The addresses at which the statements inside a statement begin or end. -/
def innerBounds (here : Level) (loop : Option Level) (address : Nat) : Stmt → List Nat
  | .block body _ => stmtsBounds here.inScope loop (address + 1) body
  | .ifThen test yes none _ =>
    stmtBounds here loop (address + (exprLevels here test).length + 1) yes
  | .ifThen test yes (some no) _ =>
    let begins := address + (exprLevels here test).length + 1
    stmtBounds here loop begins yes
      ++ stmtBounds here loop (begins + (stmtLevels here loop yes).length + 1) no
  | .whileDo test body _ =>
    stmtBounds here (some here) (address + (exprLevels here test).length + 1) body
  | .tryCatch body _ handler _ =>
    stmtBounds here.inHandler loop (address + 1) body
      ++ stmtBounds here.inScope loop
        (address + 1 + (stmtLevels here.inHandler loop body).length + 2 + 2) handler
  | _ => []
termination_by s => (sizeOf s, 0)

/-- The addresses at which statements that follow each other begin or end. -/
def stmtsBounds (here : Level) (loop : Option Level) (address : Nat) : List Stmt → List Nat
  | [] => []
  | s :: ss =>
    stmtBounds here loop address s
      ++ stmtsBounds here loop (address + (stmtLevels here loop s).length) ss
termination_by ss => (sizeOf ss, 0)

end

/-- **The boundaries of the statements** of a body, as addresses in its chunk. -/
def bodyBounds (body : Stmt) : List Nat := stmtBounds .base none 0 body

/-! ## Pieces of a list -/

/-- A piece of a list stands at an address. -/
def Placed {α : Type} (whole : List α) (address : Nat) (piece : List α) : Prop :=
  ∀ i a, piece[i]? = some a → whole[address + i]? = some a

section Placed

variable {α : Type} {whole piece piece' : List α} {address : Nat} {a : α}

/-- A piece is in its place if both its parts are in theirs. -/
theorem placed_append : Placed whole address (piece ++ piece') ↔
    Placed whole address piece ∧ Placed whole (address + piece.length) piece' := by
  refine ⟨fun h => ⟨fun i a hi => ?_, fun i a hi => ?_⟩, fun h i a hi => ?_⟩
  · refine h i a ?_
    rw [List.getElem?_append_left (List.getElem?_eq_some_iff.mp hi).1]
    exact hi
  · rw [Nat.add_assoc]
    refine h (piece.length + i) a ?_
    rw [List.getElem?_append_right (Nat.le_add_right _ _), Nat.add_sub_cancel_left]
    exact hi
  · rw [List.getElem?_append] at hi
    split at hi
    · exact h.1 i a hi
    · next hle =>
      have hplaced := h.2 (i - piece.length) a hi
      rwa [show address + piece.length + (i - piece.length) = address + i by omega] at hplaced

theorem placed_cons : Placed whole address (a :: piece) ↔
    whole[address]? = some a ∧ Placed whole (address + 1) piece := by
  refine ⟨fun h => ⟨h 0 a rfl, fun i b hi => ?_⟩, fun h i b hi => ?_⟩
  · rw [show address + 1 + i = address + (i + 1) by omega]
    exact h (i + 1) b hi
  · cases i with
    | zero =>
      simp only [List.getElem?_cons_zero, Option.some.injEq] at hi
      exact hi ▸ h.1
    | succ i =>
      rw [show address + (i + 1) = address + 1 + i by omega]
      exact h.2 i b hi

/-- All of it is in place from the beginning. -/
theorem placed_self : Placed whole 0 whole := fun i a hi => by rwa [Nat.zero_add]

end Placed

/-! ## Where levels begin -/

/-- Expressions begin at the level around them, and so does what follows when there are none. -/
theorem head_exprs {here : Level} {levels : List Level} {address : Nat} (es : List Expr)
    (hexpr : ∀ e ∈ es, ∃ rest, exprLevels here e = here :: rest)
    (h : Placed levels address (exprsLevels here es))
    (hend : levels[address + (exprsLevels here es).length]? = some (here.push es.length)) :
    levels[address]? = some here := by
  cases es with
  | nil => exact hend
  | cons e es =>
    obtain ⟨rest, hrest⟩ := hexpr e List.mem_cons_self
    rw [exprsLevels, hrest, placed_append, placed_cons] at h
    exact h.1.1

/-- **An expression begins at the level around it.** -/
theorem head_expr (here : Level) (e : Expr) : ∃ rest, exprLevels here e = here :: rest := by
  match e with
  | .null _ | .bool _ _ | .num _ _ | .str _ _ | .ident _ _ | .closure _ _ => exact ⟨[], rfl⟩
  | .list [] _ | .call _ [] none _ | .call _ [] (some _) _ =>
    simp only [exprLevels, exprsLevels, List.nil_append]
    exact ⟨_, rfl⟩
  | .list (e :: _) _ | .call _ (e :: _) none _ | .call _ (e :: _) (some _) _ | .unary _ e _ =>
    obtain ⟨rest, hrest⟩ := head_expr here e
    simp only [exprLevels, exprsLevels, hrest, List.cons_append]
    exact ⟨_, rfl⟩
  | .binary op left _ _ =>
    obtain ⟨rest, hrest⟩ := head_expr here left
    cases op <;>
    · simp only [exprLevels, hrest, List.cons_append]
      exact ⟨_, rfl⟩

theorem head_optional (here : Level) (e : Option Expr) :
    ∃ rest, optionalLevels here e = here :: rest := by
  cases e with
  | none => exact ⟨[], rfl⟩
  | some e => exact head_expr here e

/-- Leaving a loop begins at the level where it is left. -/
theorem head_leave (here loop : Level) : ∃ rest, leaveLevels here loop = here :: rest := by
  have hfirst : leaveLevel here loop 0 = here := by
    simp only [leaveLevel, Nat.zero_min, List.drop_zero, Nat.zero_sub, Nat.sub_zero]
  rw [leaveLevels, List.range_succ_eq_map, List.map_cons, hfirst]
  exact ⟨_, rfl⟩

/-- Leaving a loop ends at the level of the loop. -/
theorem last_leave {here loop : Level} (h : loop.Within here) :
    leaveLevel here loop (here.handlers.length - loop.handlers.length + (here.scopes - loop.scopes)) =
      loop := by
  obtain ⟨opened, hopened⟩ := h.handlers
  have hdrop : here.handlers.drop (here.handlers.length - loop.handlers.length) = loop.handlers := by
    rw [← hopened, List.length_append, Nat.add_sub_cancel, List.drop_left]
  have hscopes := h.scopes
  unfold leaveLevel
  dsimp only
  rw [Nat.min_eq_right (Nat.le_add_right _ _), hdrop, Nat.add_sub_cancel_left,
    Nat.sub_sub_self hscopes, ← h.operands, ← h.block]

/-- **A statement begins at the level around it**, or what follows it does. -/
theorem entry_stmt {here : Level} {loop : Option Level} {levels : List Level} {address : Nat}
    (s : Stmt) (h : Placed levels address (stmtLevels here loop s))
    (hend : levels[address + (stmtLevels here loop s).length]? = some here) :
    levels[address]? = some here := by
  have of_head : ∀ {piece : List Level}, (∃ rest, piece = here :: rest) →
      Placed levels address piece → levels[address]? = some here := by
    rintro _ ⟨rest, rfl⟩ hplaced
    exact (placed_cons.mp hplaced).1
  match s with
  | .block _ _ | .tryCatch _ _ _ _ =>
    simp only [stmtLevels] at h
    exact of_head ⟨_, rfl⟩ h
  | .bind _ e _ | .ret e _ =>
    simp only [stmtLevels, placed_append] at h
    exact of_head (head_optional here e) h.1
  | .assign _ e _ | .throw e _ | .eval e _ =>
    simp only [stmtLevels, placed_append] at h
    exact of_head (head_expr here e) h.1
  | .ifThen e _ none _ =>
    simp only [stmtLevels, placed_append] at h
    exact of_head (head_expr here e) h.1.1
  | .ifThen e _ (some _) _ =>
    simp only [stmtLevels, placed_append] at h
    exact of_head (head_expr here e) h.1.1.1.1
  | .whileDo e _ _ =>
    simp only [stmtLevels, placed_append] at h
    exact of_head (head_expr here e) h.1.1.1
  | .breakLoop _ | .continueLoop _ =>
    cases loop with
    | none => exact hend
    | some loop => exact of_head (head_leave here loop) h

/-- Statements are entered at the level they stand at, also if there are none. -/
theorem entry_stmts {here : Level} {loop : Option Level} {levels : List Level} {address : Nat}
    (ss : List Stmt) (h : Placed levels address (stmtsLevels here loop ss))
    (hend : levels[address + (stmtsLevels here loop ss).length]? = some here) :
    levels[address]? = some here := by
  induction ss generalizing address with
  | nil => exact hend
  | cons s ss ih =>
    rw [stmtsLevels, placed_append] at h
    rw [stmtsLevels, List.length_append, ← Nat.add_assoc] at hend
    exact entry_stmt s h.1 (ih h.2 hend)

/-! ## Levels are nested -/

mutual

/-- **The levels of an expression are nested**: no handler remembers more than there is. By the recursion of
syntax trees. -/
theorem nested_expr {here : Level} (h : here.Nested) (e : Expr) :
    ∀ level ∈ exprLevels here e, level.Nested := by
  match e with
  | .null _ | .bool _ _ | .num _ _ | .str _ _ | .ident _ _ | .closure _ _ =>
    intro level hmem
    rw [exprLevels, List.mem_singleton] at hmem
    exact hmem ▸ h
  | .list es _ | .call _ es none _ =>
    intro level hmem
    rw [exprLevels, List.mem_append, List.mem_singleton] at hmem
    rcases hmem with hmem | rfl
    · exact nested_exprs h es level hmem
    · exact h.push _
  | .call _ es (some _) _ =>
    intro level hmem
    rw [exprLevels, List.mem_append, List.mem_cons, List.mem_singleton] at hmem
    rcases hmem with hmem | rfl | rfl
    · exact nested_exprs h es level hmem
    · exact h.push _
    · exact (h.push _).onBlock
  | .unary _ e _ =>
    intro level hmem
    rw [exprLevels, List.mem_append, List.mem_singleton] at hmem
    rcases hmem with hmem | rfl
    · exact nested_expr h e level hmem
    · exact h.push _
  | .binary op left right _ =>
    intro level hmem
    have hleft := nested_expr h left
    cases op with
    | and | or =>
      simp only [exprLevels, List.mem_append, List.mem_cons, List.not_mem_nil, or_false] at hmem
      rcases hmem with (hmem | rfl | rfl) | hmem
      · exact hleft level hmem
      · exact h.push _
      · exact h.push _
      · exact nested_expr h right level hmem
    | _ =>
      simp only [exprLevels, List.mem_append, List.mem_singleton] at hmem
      rcases hmem with (hmem | hmem) | rfl
      · exact hleft level hmem
      · exact nested_expr (h.push 1) right level hmem
      · exact h.push _

theorem nested_exprs {here : Level} (h : here.Nested) (es : List Expr) :
    ∀ level ∈ exprsLevels here es, level.Nested := by
  match es with
  | [] => exact fun _ hno => (by cases hno)
  | e :: es =>
    intro level hmem
    rw [exprsLevels, List.mem_append] at hmem
    rcases hmem with hmem | hmem
    · exact nested_expr h e level hmem
    · exact nested_exprs (h.push 1) es level hmem

end

theorem nested_optional {here : Level} (h : here.Nested) (e : Option Expr) :
    ∀ level ∈ optionalLevels here e, level.Nested := by
  cases e with
  | none =>
    intro level hmem
    rw [optionalLevels, List.mem_singleton] at hmem
    exact hmem ▸ h
  | some e => exact nested_expr h e

/-- Handlers are left before scopes, so on the way out of a loop every level is nested. -/
theorem nested_leave {here loop : Level} (h : here.Nested) (hloop : loop.Nested)
    (hwithin : loop.Within here) : ∀ level ∈ leaveLevels here loop, level.Nested := by
  intro level hmem
  simp only [leaveLevels, List.mem_map, List.mem_range] at hmem
  obtain ⟨steps, hsteps, rfl⟩ := hmem
  -- not more scopes are given up than were opened in the loop
  have hkept : loop.scopes ≤
      here.scopes - (steps - (here.handlers.length - loop.handlers.length)) := by
    have := hwithin.scopes
    omega
  refine ⟨Nat.le_trans hloop.base hkept, fun scopes hin => ?_⟩
  replace hin : scopes ∈ here.handlers.drop
    (min steps (here.handlers.length - loop.handlers.length)) := hin
  rcases Nat.le_total steps (here.handlers.length - loop.handlers.length) with hfew | hmany
  · show scopes ≤ here.scopes - (steps - (here.handlers.length - loop.handlers.length))
    rw [Nat.sub_eq_zero_of_le hfew]
    exact h.handlers scopes (List.mem_of_mem_drop hin)
  · obtain ⟨opened, hopened⟩ := hwithin.handlers
    rw [Nat.min_eq_right hmany, ← hopened, List.length_append, Nat.add_sub_cancel,
      List.drop_left] at hin
    exact Nat.le_trans (hloop.handlers scopes hin) hkept

mutual

theorem nested_stmt {here : Level} {loop : Option Level} (h : here.Nested)
    (hloop : ∀ l, loop = some l → l.Nested ∧ l.Within here) (s : Stmt) :
    ∀ level ∈ stmtLevels here loop s, level.Nested := by
  intro level hmem
  match s with
  | .block body _ =>
    simp only [stmtLevels, List.mem_cons, List.mem_append, List.not_mem_nil, or_false] at hmem
    rcases hmem with rfl | hmem | rfl
    · exact h
    · exact nested_stmts h.inScope (fun l hl => (hloop l hl).imp_right .inScope) body level hmem
    · exact h.inScope
  | .bind _ e _ | .ret e _ =>
    simp only [stmtLevels, List.mem_append, List.mem_singleton] at hmem
    rcases hmem with hmem | rfl
    · exact nested_optional h e level hmem
    · exact h.push _
  | .assign _ e _ | .throw e _ | .eval e _ =>
    simp only [stmtLevels, List.mem_append, List.mem_singleton] at hmem
    rcases hmem with hmem | rfl
    · exact nested_expr h e level hmem
    · exact h.push _
  | .ifThen test yes none _ =>
    simp only [stmtLevels, List.mem_append, List.mem_singleton] at hmem
    rcases hmem with (hmem | rfl) | hmem
    · exact nested_expr h test level hmem
    · exact h.push _
    · exact nested_stmt h hloop yes level hmem
  | .ifThen test yes (some no) _ =>
    simp only [stmtLevels, List.mem_append, List.mem_singleton] at hmem
    rcases hmem with (((hmem | rfl) | hmem) | rfl) | hmem
    · exact nested_expr h test level hmem
    · exact h.push _
    · exact nested_stmt h hloop yes level hmem
    · exact h
    · exact nested_stmt h hloop no level hmem
  -- inside the body the loop is this one, and nothing was opened since it began
  | .whileDo test body _ =>
    simp only [stmtLevels, List.mem_append, List.mem_singleton] at hmem
    rcases hmem with ((hmem | rfl) | hmem) | rfl
    · exact nested_expr h test level hmem
    · exact h.push _
    · exact nested_stmt h (fun _ hl => Option.some.inj hl ▸ ⟨h, .refl here⟩) body level hmem
    · exact h
  | .tryCatch body _ handler _ =>
    simp only [stmtLevels, List.mem_cons, List.mem_append, List.not_mem_nil, or_false] at hmem
    rcases hmem with rfl | (((hmem | rfl | rfl) | rfl | rfl) | hmem) | rfl
    · exact h
    · exact nested_stmt h.inHandler (fun l hl => (hloop l hl).imp_right .inHandler) body level hmem
    · exact h.inHandler
    · exact h
    · exact h.push _
    · exact h.inScope.push _
    · exact nested_stmt h.inScope (fun l hl => (hloop l hl).imp_right .inScope) handler level hmem
    · exact h.inScope
  -- without a loop around it nothing is compiled
  | .breakLoop _ | .continueLoop _ =>
    cases loop with
    | none =>
      rw [stmtLevels] at hmem
      cases hmem
    | some loop =>
      rw [stmtLevels] at hmem
      exact nested_leave h (hloop loop rfl).1 (hloop loop rfl).2 level hmem

theorem nested_stmts {here : Level} {loop : Option Level} (h : here.Nested)
    (hloop : ∀ l, loop = some l → l.Nested ∧ l.Within here) (ss : List Stmt) :
    ∀ level ∈ stmtsLevels here loop ss, level.Nested := by
  intro level hmem
  match ss with
  | [] =>
    rw [stmtsLevels] at hmem
    cases hmem
  | s :: ss =>
    rw [stmtsLevels, List.mem_append] at hmem
    rcases hmem with hmem | hmem
    · exact nested_stmt h hloop s level hmem
    · exact nested_stmts h hloop ss level hmem

end

/-- **The levels of a chunk are nested.** -/
theorem nested_body (body : Stmt) : ∀ level ∈ bodyLevels body, level.Nested := by
  have hbase : Level.base.Nested := ⟨Nat.le_refl _, fun _ hno => (by cases hno)⟩
  have hnone : ∀ l : Level, none = some l → l.Nested ∧ l.Within .base := fun _ hno => (by cases hno)
  intro level hmem
  simp only [bodyLevels, List.mem_append, List.mem_cons, List.not_mem_nil, or_false] at hmem
  rcases hmem with hmem | rfl | rfl
  · exact nested_stmt hbase hnone body level hmem
  · exact hbase
  · exact hbase.push 1

/-! ## No operands between statements -/

mutual

/-- **Where a statement begins or ends, there are as many operands as around it.** -/
theorem operands_stmt {levels : List Level} {address n : Nat} {here : Level} {loop : Option Level}
    (s : Stmt) (h : Placed levels address (stmtLevels here loop s))
    (hend : levels[address + (stmtLevels here loop s).length]? = some here)
    (hn : n ∈ stmtBounds here loop address s) :
    ∃ level, levels[n]? = some level ∧ level.operands = here.operands := by
  rw [stmtBounds, List.mem_cons, List.mem_cons] at hn
  -- an address where it begins, one where it ends, or one inside it
  rcases hn with rfl | rfl | hn
  · exact ⟨here, entry_stmt s h hend, rfl⟩
  · exact ⟨here, hend, rfl⟩
  match s with
  | .block body _ =>
    simp only [stmtLevels, placed_cons, placed_append] at h
    simp only [innerBounds] at hn
    have hinner := operands_stmts body h.2.1 h.2.2.1 hn
    exact hinner
  | .ifThen test yes none _ =>
    simp only [stmtLevels, placed_cons, placed_append, List.length_append, List.length_singleton,
      ← Nat.add_assoc] at h hend
    simp only [innerBounds] at hn
    exact operands_stmt yes h.2 hend hn
  | .ifThen test yes (some no) _ =>
    simp only [stmtLevels, placed_cons, placed_append, List.length_append, List.length_singleton,
      ← Nat.add_assoc] at h hend
    simp only [innerBounds, List.mem_append] at hn
    rcases hn with hn | hn
    · exact operands_stmt yes h.1.1.2 h.1.2.1 hn
    · exact operands_stmt no h.2 hend hn
  | .whileDo test body _ =>
    simp only [stmtLevels, placed_cons, placed_append, List.length_append, List.length_singleton,
      ← Nat.add_assoc] at h hend
    simp only [innerBounds] at hn
    exact operands_stmt body h.1.2 h.2.1 hn
  | .tryCatch body _ handler _ =>
    simp only [stmtLevels, placed_cons, placed_append, List.length_append, List.length_cons,
      List.length_nil, ← Nat.add_assoc, Nat.zero_add] at h
    simp only [innerBounds, List.mem_append] at hn
    rcases hn with hn | hn
    · have hbody := operands_stmt body h.2.1.1.1.1 h.2.1.1.1.2.1 hn
      exact hbody
    · have hhandler := operands_stmt handler h.2.1.2 h.2.2.1 hn
      exact hhandler
  | .bind _ _ _ | .assign _ _ _ | .ret _ _ | .throw _ _ | .eval _ _ | .breakLoop _
  | .continueLoop _ =>
    rw [innerBounds] at hn
    · cases hn
    all_goals intros; simp_all

theorem operands_stmts {levels : List Level} {address n : Nat} {here : Level} {loop : Option Level}
    (ss : List Stmt) (h : Placed levels address (stmtsLevels here loop ss))
    (hend : levels[address + (stmtsLevels here loop ss).length]? = some here)
    (hn : n ∈ stmtsBounds here loop address ss) :
    ∃ level, levels[n]? = some level ∧ level.operands = here.operands := by
  match ss with
  | [] =>
    rw [stmtsBounds] at hn
    cases hn
  | s :: ss =>
    rw [stmtsLevels, placed_append] at h
    rw [stmtsLevels, List.length_append, ← Nat.add_assoc] at hend
    rw [stmtsBounds, List.mem_append] at hn
    rcases hn with hn | hn
    · exact operands_stmt s h.1 (entry_stmts ss h.2 hend) hn
    · exact operands_stmts ss h.2 hend hn

end

/-- **At the boundaries of statements the stack of a chunk is empty.** -/
theorem operands_body {body : Stmt} {n : Nat} (hn : n ∈ bodyBounds body) :
    ∃ level, (bodyLevels body)[n]? = some level ∧ level.operands = 0 := by
  have hplaced : Placed (bodyLevels body) 0 (bodyLevels body) := placed_self
  rw [bodyLevels, placed_append, placed_cons] at hplaced
  exact operands_stmt body hplaced.1 hplaced.2.1 hn

end Compile

end DurableFlow.Script
