/-
Compiled code agrees with its levels.

An instruction at a level leads to instructions whose levels are what it makes of its own. This
is said of one instruction at a time, and holds of every instruction that the compiler emits:
in the middle of a piece of code because the levels are written in the same order, at its end
because the level behind the piece is known, and at jumps because a loop and a handler have the
level of the place they were written at.
-/
import DurableFlow.Proofs.Data.Table
import DurableFlow.Proofs.Script.Levels
import Mathlib.Data.List.Forall2

set_option autoImplicit false

namespace DurableFlow.Script

open Direct Compile

namespace Compile

/-! ## One instruction -/

/-- An address has a level without a block on top. -/
def Leads (levels : List Level) (address : Nat) (level : Level) : Prop :=
  levels[address]? = some level ∧ level.block = false

/-- **An instruction agrees with the levels**: what it needs is there, what it leads to has the level
that it leaves, and the chunks it names are below a limit. -/
def Agrees (limit : Nat) (levels : List Level) (pc : Nat) (here : Level) : Instr Val → Prop
  | .const _ | .load _ => Leads levels (pc + 1) (here.push 1)
  | .makeClosure k =>
    k < limit ∧
      (Leads levels (pc + 1) (here.push 1) ∨ levels[pc + 1]? = some (here.push 1).onBlock)
  | .declare _ | .store _ | .pop => ∃ below : Level, here = below.push 1 ∧ Leads levels (pc + 1) below
  | .binary op =>
    op ≠ .and ∧ op ≠ .or ∧ ∃ below : Level, here = below.push 2 ∧ Leads levels (pc + 1) (below.push 1)
  | .unary _ => ∃ below : Level, here = below.push 1 ∧ Leads levels (pc + 1) (below.push 1)
  | .makeList n => ∃ below : Level, here = below.push n ∧ Leads levels (pc + 1) (below.push 1)
  | .call _ argc false => ∃ below : Level, here = below.push argc ∧ Leads levels (pc + 1) (below.push 1)
  | .call _ argc true =>
    ∃ below : Level, here = (below.push (argc + 1)).onBlock ∧ Leads levels (pc + 1) (below.push 1)
  | .jump target => Leads levels target here
  | .jumpIfFalse target =>
    ∃ below : Level, here = below.push 1 ∧ Leads levels (pc + 1) below ∧ Leads levels target below
  | .jumpIfFalseKeep target | .jumpIfTrueKeep target =>
    1 ≤ here.operands ∧ Leads levels (pc + 1) here ∧ Leads levels target here
  | .enterScope => Leads levels (pc + 1) here.inScope
  | .exitScope => ∃ below : Level, here = below.inScope ∧ Leads levels (pc + 1) below
  | .pushHandler target =>
    here.operands = 0 ∧ Leads levels (pc + 1) here.inHandler ∧ Leads levels target (here.push 1)
  | .popHandler =>
    ∃ scopes outer, here.handlers = scopes :: outer ∧
      Leads levels (pc + 1) { here with handlers := outer }
  | .throw => 1 ≤ here.operands
  | .ret => True

/-- A stretch of code agrees with the levels. -/
def AgreesOn (limit : Nat) (code : List (Instr Val)) (levels : List Level) (first past : Nat) : Prop :=
  ∀ pc, first ≤ pc → pc < past → ∃ instr level,
    code[pc]? = some instr ∧ levels[pc]? = some level ∧ Agrees limit levels pc level instr

section AgreesOn

variable {limit : Nat} {code : List (Instr Val)} {levels : List Level} {a b c : Nat}

theorem AgreesOn.nil : AgreesOn limit code levels a a := fun _ hle hlt => by omega

/-- Levels agree with two pieces of code in a row if they agree with each. -/
theorem AgreesOn.append (h : AgreesOn limit code levels a b) (h' : AgreesOn limit code levels b c) :
    AgreesOn limit code levels a c := by
  intro pc hle hlt
  rcases Nat.lt_or_ge pc b with hbelow | habove
  · exact h pc hle hbelow
  · exact h' pc habove hlt

theorem AgreesOn.one {instr : Instr Val} {here : Level} (hcode : code[a]? = some instr)
    (hlevel : levels[a]? = some here) (h : Agrees limit levels a here instr) :
    AgreesOn limit code levels a (a + 1) := by
  intro pc hle hlt
  obtain rfl : pc = a := by omega
  exact ⟨instr, here, hcode, hlevel, h⟩

/-- One more instruction at the end. -/
theorem AgreesOn.snoc {instr : Instr Val} {here : Level} (h : AgreesOn limit code levels a b)
    (hcode : code[b]? = some instr) (hlevel : levels[b]? = some here)
    (hagrees : Agrees limit levels b here instr) : AgreesOn limit code levels a (b + 1) :=
  h.append (.one hcode hlevel hagrees)

end AgreesOn

/-! ## As many levels as instructions -/

mutual

/-- There is one level for each instruction of an expression. -/
theorem length_exprLevels (here : Level) (e : Expr) : (exprLevels here e).length = exprSize e := by
  match e with
  | .null _ | .bool _ _ | .num _ _ | .str _ _ | .ident _ _ | .closure _ _ => rfl
  | .list es _ | .call _ es none _ | .call _ es (some _) _ =>
    simp [exprLevels, exprSize, length_exprsLevels here es]
  | .unary _ e _ => simp [exprLevels, exprSize, length_exprLevels here e]
  | .binary op left right _ =>
    have hleft := length_exprLevels here left
    cases op with
    | and | or =>
      simp only [exprLevels, exprSize, List.length_append, List.length_cons, List.length_nil, hleft,
        length_exprLevels here right]
    | _ =>
      simp only [exprLevels, exprSize, List.length_append, List.length_cons, List.length_nil, hleft,
        length_exprLevels (here.push 1) right]

theorem length_exprsLevels (here : Level) (es : List Expr) :
    (exprsLevels here es).length = exprsSize es := by
  match es with
  | [] => rfl
  | e :: es =>
    simp [exprsLevels, exprsSize, length_exprLevels here e, length_exprsLevels (here.push 1) es]

end

theorem length_optionalLevels (here : Level) (e : Option Expr) :
    (optionalLevels here e).length = optionalSize e := by
  cases e with
  | none => rfl
  | some e => exact length_exprLevels here e

/-- **The level at which a statement is compiled**: the context counts what is open at it, and so does
the loop around it. -/
structure Level.Of (here : Level) (loop : Option Level) (ctx : Context) : Prop where
  handlers : here.handlers.length = ctx.handlers
  scopes : here.scopes = ctx.scopes + 1
  /-- Statements begin with an empty stack. -/
  empty : here.operands = 0
  plain : here.block = false
  loop : Option.Rel
    (fun l (lp : Loop) => l.handlers.length = lp.handlers ∧ l.scopes = lp.scopes + 1 ∧ l.Within here)
    loop ctx.loop

namespace Level.Of

variable {here : Level} {loop : Option Level} {ctx : Context}

/-- The level of the loop lies around this one. -/
theorem within (h : here.Of loop ctx) (l : Level) (hl : loop = some l) : l.Within here := by
  obtain ⟨_, _, _, _, hwithin⟩ := Table.exists_new_of_rel (hl ▸ h.loop)
  exact hwithin

/-- A context in the same loop, with the level that goes with it. -/
theorem mono {here' : Level} {ctx' : Context} (h : here.Of loop ctx) (hctx : ctx'.loop = ctx.loop)
    (hhandlers : here'.handlers.length = ctx'.handlers) (hscopes : here'.scopes = ctx'.scopes + 1)
    (hempty : here'.operands = 0) (hplain : here'.block = false)
    (hwithin : ∀ l : Level, l.Within here → l.Within here') : here'.Of loop ctx' := by
  refine ⟨hhandlers, hscopes, hempty, hplain, ?_⟩
  have hrel := h.loop
  rw [hctx]
  generalize ctx.loop = around at hrel ⊢
  cases hrel with
  | none => exact .none
  | some hl => exact .some ⟨hl.1, hl.2.1, hwithin _ hl.2.2⟩

theorem inScope (h : here.Of loop ctx) : here.inScope.Of loop { ctx with scopes := ctx.scopes + 1 } :=
  h.mono rfl h.handlers (congrArg (· + 1) h.scopes) h.empty h.plain fun _ hl => hl.inScope

theorem inHandler (h : here.Of loop ctx) :
    here.inHandler.Of loop { ctx with handlers := ctx.handlers + 1 } :=
  h.mono rfl (congrArg (· + 1) h.handlers) h.scopes h.empty h.plain fun _ hl => hl.inHandler

/-- A loop has the level at which it begins. -/
theorem inLoop (h : here.Of loop ctx) (start exit : Nat) : here.Of (some here)
    { ctx with loop := some { start, exit, handlers := ctx.handlers, scopes := ctx.scopes } } :=
  ⟨h.handlers, h.scopes, h.empty, h.plain, .some ⟨h.handlers, h.scopes, .refl here⟩⟩

/-- A body is compiled at the first level. -/
theorem base : Level.base.Of none {} := ⟨rfl, rfl, rfl, rfl, .none⟩

end Level.Of

/-- What `break` and `continue` leave behind them takes one instruction each. -/
theorem length_leaveLevels {here : Level} {loop : Option Level} {ctx : Context} (h : here.Of loop ctx)
    {c : Cursor} {keyword : String} {target : Loop → Nat} {f : Fragment}
    (hf : leaveLoop ctx c keyword target = .ok f) :
    ∃ l, loop = some l ∧ (leaveLevels here l).length = f.code.length := by
  unfold leaveLoop at hf
  split at hf
  · cases hf
  · next lp hlp =>
    obtain ⟨l, hloop, hl⟩ := Table.exists_old_of_rel (hlp ▸ h.loop)
    have hhandlers := h.handlers
    have hscopes := h.scopes
    cases hf
    refine ⟨l, hloop, ?_⟩
    simp only [leaveLevels, Cursor.code_emit, List.length_append, List.length_map, List.length_range,
      List.length_singleton, List.length_replicate]
    omega

mutual

/-- There is one level for each instruction of a statement that compiles. -/
theorem length_stmtLevels {program : String} (s : Stmt) {here : Level} {loop : Option Level}
    {ctx : Context} (h : here.Of loop ctx) {c : Cursor} {f : Fragment}
    (hf : stmt program ctx c s = .ok f) : (stmtLevels here loop s).length = f.code.length := by
  match s with
  | .block body _ =>
    simp only [stmt, bind_eq_ok, pure, Except.pure, Except.ok.injEq] at hf
    obtain ⟨inner, hinner, rfl⟩ := hf
    have := length_stmtsLevels body h.inScope hinner
    simp [stmtLevels, this, Nat.add_comm]
  | .bind _ e _ | .ret e _ =>
    simp only [stmt, bind_eq_ok, pure, Except.pure, Except.ok.injEq] at hf
    obtain ⟨value, hvalue, rfl⟩ := hf
    simp [stmtLevels, length_optionalLevels, length_optional e hvalue]
  | .assign _ e _ | .throw e _ | .eval e _ =>
    simp only [stmt, bind_eq_ok, pure, Except.pure, Except.ok.injEq] at hf
    obtain ⟨value, hvalue, rfl⟩ := hf
    simp [stmtLevels, length_exprLevels, length_expr e hvalue]
  | .ifThen test yes none _ =>
    simp only [stmt, bind_eq_ok, pure, Except.pure, Except.ok.injEq] at hf
    obtain ⟨t, ht, y, hy, rfl⟩ := hf
    simp [stmtLevels, length_exprLevels, length_expr test ht, length_stmtLevels yes h hy]
  | .ifThen test yes (some no) _ =>
    simp only [stmt, bind_eq_ok, pure, Except.pure, Except.ok.injEq] at hf
    obtain ⟨t, ht, y, hy, n, hn, rfl⟩ := hf
    simp [stmtLevels, length_exprLevels, length_expr test ht, length_stmtLevels yes h hy,
      length_stmtLevels no h hn]
  | .whileDo test body _ =>
    simp only [stmt, bind_eq_ok, pure, Except.pure, Except.ok.injEq] at hf
    obtain ⟨t, ht, b, hb, rfl⟩ := hf
    simp [stmtLevels, length_exprLevels, length_expr test ht, length_stmtLevels body (h.inLoop _ _) hb]
  | .tryCatch body _ handler _ =>
    simp only [stmt, bind_eq_ok, pure, Except.pure, Except.ok.injEq] at hf
    obtain ⟨b, hb, g, hg, rfl⟩ := hf
    have hbody := length_stmtLevels body h.inHandler hb
    have hhandler := length_stmtLevels handler h.inScope hg
    simp only [stmtLevels, Fragment.code_append, Cursor.code_emit, List.length_append, List.length_map,
      List.length_cons, List.length_nil, hbody, hhandler]
    omega
  | .breakLoop _ | .continueLoop _ =>
    simp only [stmt] at hf
    obtain ⟨l, rfl, hlength⟩ := length_leaveLevels h hf
    exact hlength

theorem length_stmtsLevels {program : String} (ss : List Stmt) {here : Level} {loop : Option Level}
    {ctx : Context} (h : here.Of loop ctx) {c : Cursor} {f : Fragment}
    (hf : stmts program ctx c ss = .ok f) : (stmtsLevels here loop ss).length = f.code.length := by
  match ss with
  | [] =>
    simp only [stmts, Except.ok.injEq] at hf
    subst hf
    rfl
  | s :: ss =>
    simp only [stmts, bind_eq_ok, pure, Except.pure, Except.ok.injEq] at hf
    obtain ⟨first, hfirst, rest, hrest, rfl⟩ := hf
    simp [stmtsLevels, length_stmtLevels s h hfirst, length_stmtsLevels ss h hrest]

end

/-! ## Compiled expressions -/

section Agreement

variable {limit : Nat} {code : List (Instr Val)} {levels : List Level}

/-- One instruction behind a piece of code that agrees. -/
theorem agrees_snoc {part : Fragment} {c : Cursor} {instr : Instr Val} {xs : List Level} {top : Level}
    {next : Option Level} {a : Nat} (hlength : xs.length = part.code.length)
    (hcode : Placed code a ((part ++ c.emit [instr]).code.map Prod.fst))
    (hlevels : Placed levels a (xs ++ [top]))
    (hend : levels[a + (part ++ c.emit [instr]).code.length]? = next)
    (hpart : Placed code a (part.code.map Prod.fst) → Placed levels a xs →
      levels[a + part.code.length]? = some top → AgreesOn limit code levels a (a + part.code.length))
    (hinstr : levels[a + part.code.length + 1]? = next →
      Agrees limit levels (a + part.code.length) top instr) :
    AgreesOn limit code levels a (a + (part ++ c.emit [instr]).code.length) := by
  simp only [Fragment.code_append, Cursor.code_emit, List.map_append, List.map_cons, List.map_nil,
    placed_append, placed_cons, List.length_append, List.length_map, List.length_singleton, hlength,
    ← Nat.add_assoc] at hcode hlevels hend ⊢
  exact (hpart hcode.1 hlevels.1 hlevels.2.1).snoc hcode.2.1 hlevels.2.1 (hinstr hend)

mutual

/-- **The code of an expression agrees with its levels** if one more operand is there behind it. -/
theorem agrees_expr {program : String} (e : Expr) {c : Cursor} {f : Fragment}
    (hf : expr program c e = .ok f) {a : Nat} (ha : c.address = a)
    (hchunks : c.chunk + f.chunks.length ≤ limit) {here : Level}
    (hcode : Placed code a (f.code.map Prod.fst)) (hlevels : Placed levels a (exprLevels here e))
    (hplain : here.block = false)
    (hend : levels[a + f.code.length]? = some (here.push 1)) :
    AgreesOn limit code levels a (a + f.code.length) := by
  match e with
  | .null _ | .bool _ _ | .num _ _ | .str _ _ | .ident _ _ =>
    simp only [expr, Except.ok.injEq] at hf
    subst hf
    exact .one (placed_cons.mp hcode).1 (placed_cons.mp hlevels).1 ⟨hend, hplain⟩
  | .closure body _ =>
    simp only [expr, bind_eq_ok, pure, Except.pure, Except.ok.injEq] at hf
    obtain ⟨inner, -, rfl⟩ := hf
    simp only [chunks_closureLiteral, List.length_cons, Cursor.chunk_onSpan] at hchunks
    refine .one (placed_cons.mp hcode).1 (placed_cons.mp hlevels).1 ⟨?_, .inl ⟨hend, hplain⟩⟩
    rw [Cursor.chunk_onSpan]
    omega
  | .list es _ =>
    simp only [expr, bind_eq_ok, pure, Except.pure, Except.ok.injEq] at hf
    obtain ⟨items, hitems, rfl⟩ := hf
    rw [exprLevels] at hlevels
    refine agrees_snoc (by rw [length_exprsLevels, length_exprs es hitems]) hcode hlevels hend
      (fun hcode hlevels htop => ?_) fun hend => ⟨here, rfl, hend, hplain⟩
    exact agrees_exprs es hitems (by simp [ha]) (by simpa using hchunks) hcode hlevels hplain htop
  | .call _ es none _ =>
    simp only [expr, bind_eq_ok, pure, Except.pure, Except.ok.injEq] at hf
    obtain ⟨given, hgiven, rfl⟩ := hf
    rw [exprLevels] at hlevels
    refine agrees_snoc (by rw [length_exprsLevels, length_exprs es hgiven]) hcode hlevels hend
      (fun hcode hlevels htop => ?_) fun hend => ⟨here, rfl, hend, hplain⟩
    exact agrees_exprs es hgiven (by simp [ha]) (by simpa using hchunks) hcode hlevels hplain htop
  | .call _ es (some body) span =>
    simp only [expr, bind_eq_ok, pure, Except.pure, Except.ok.injEq] at hf
    obtain ⟨given, hgiven, inner, -, rfl⟩ := hf
    simp only [exprLevels, Fragment.code_append, Fragment.chunks_append, Cursor.code_emit,
      Cursor.chunks_emit, code_closureLiteral, chunks_closureLiteral, List.map_append, List.map_cons,
      List.map_nil, placed_append, placed_cons, List.length_append, List.length_map, List.length_cons,
      List.length_nil, length_exprsLevels, ← length_exprs es hgiven, ← Nat.add_assoc, Nat.add_zero]
      at hcode hlevels hend hchunks ⊢
    have hargs : (c.onSpan span).chunk + given.chunks.length ≤ limit := by
      rw [Cursor.chunk_onSpan]
      omega
    obtain ⟨⟨hgivenCode, hmake, -⟩, hcall, -⟩ := hcode
    obtain ⟨hgivenLevels, hmakeLevel, hcallLevel, -⟩ := hlevels
    have hgivenAgrees := agrees_exprs es hgiven (by simp [ha]) hargs hgivenCode hgivenLevels hplain
      hmakeLevel
    -- the block of the call lies on top of the arguments
    have hmakeAgrees := hgivenAgrees.snoc hmake hmakeLevel ⟨by
      rw [Cursor.chunk_after, Cursor.chunk_onSpan]
      omega, .inr (by rw [Level.push_push]; exact hcallLevel)⟩
    exact hmakeAgrees.snoc hcall hcallLevel ⟨here, rfl, hend, hplain⟩
  | .unary _ e _ =>
    simp only [expr, bind_eq_ok, pure, Except.pure, Except.ok.injEq] at hf
    obtain ⟨value, hvalue, rfl⟩ := hf
    rw [exprLevels] at hlevels
    refine agrees_snoc (by rw [length_exprLevels, length_expr e hvalue]) hcode hlevels hend
      (fun hcode hlevels htop => ?_) fun hend => ⟨here, rfl, hend, hplain⟩
    exact agrees_expr e hvalue (by simp [ha]) (by simpa using hchunks) hcode hlevels hplain htop
  | .binary op left right span =>
    simp only [expr, bind_eq_ok] at hf
    obtain ⟨first, hfirst, hf⟩ := hf
    cases op with
    | and | or =>
      simp only [bind_eq_ok, pure, Except.pure, Except.ok.injEq] at hf
      obtain ⟨second, hsecond, rfl⟩ := hf
      simp only [exprLevels, Fragment.code_append, Fragment.chunks_append, Cursor.code_emit,
        Cursor.chunks_emit, List.map_append, List.map_cons, List.map_nil, placed_append, placed_cons,
        List.length_append, List.length_map, List.length_cons, List.length_nil, length_exprLevels,
        ← length_expr left hfirst, ← Nat.add_assoc, Nat.add_zero, Nat.zero_add, Cursor.address_after,
        Cursor.address_skip, Cursor.address_onSpan, ha] at hcode hlevels hend hchunks ⊢
      obtain ⟨⟨hleftCode, hjump, hpop, -⟩, hrightCode⟩ := hcode
      obtain ⟨⟨hleftLevels, hjumpLevel, hpopLevel, -⟩, hrightLevels⟩ := hlevels
      have hright : levels[a + first.code.length + 2]? = some here := by
        obtain ⟨rest, hrest⟩ := head_expr here right
        rw [hrest, placed_cons] at hrightLevels
        exact hrightLevels.1
      have hbelow : (c.onSpan span).chunk + first.chunks.length ≤ limit := by
        rw [Cursor.chunk_onSpan]
        omega
      have hleftAgrees := agrees_expr left hfirst (by simp [ha]) hbelow hleftCode hleftLevels hplain
        hjumpLevel
      -- the jump keeps the left operand as the result, and on the other path it is dropped
      have htest := (hleftAgrees.snoc hjump hjumpLevel
        ⟨Nat.le_add_left _ _, ⟨hpopLevel, hplain⟩, hend, hplain⟩).snoc hpop hpopLevel
          ⟨here, rfl, hright, hplain⟩
      exact htest.append (agrees_expr right hsecond (by simp [ha]) (by simpa using hchunks) hrightCode
        hrightLevels hplain hend)
    | _ =>
      simp only [bind_eq_ok, pure, Except.pure, Except.ok.injEq] at hf
      obtain ⟨second, hsecond, rfl⟩ := hf
      simp only [exprLevels, Fragment.code_append, Fragment.chunks_append, Cursor.code_emit,
        Cursor.chunks_emit, List.map_append, List.map_cons, List.map_nil, placed_append, placed_cons,
        List.length_append, List.length_map, List.length_cons, List.length_nil, length_exprLevels,
        ← length_expr left hfirst, ← length_expr right hsecond, ← Nat.add_assoc, Nat.add_zero]
        at hcode hlevels hend hchunks ⊢
      obtain ⟨⟨hleftCode, hrightCode⟩, hop, -⟩ := hcode
      obtain ⟨⟨hleftLevels, hrightLevels⟩, hopLevel, -⟩ := hlevels
      have hright : levels[a + first.code.length]? = some (here.push 1) := by
        obtain ⟨rest, hrest⟩ := head_expr (here.push 1) right
        rw [hrest, placed_cons] at hrightLevels
        exact hrightLevels.1
      have hbelow : (c.onSpan span).chunk + first.chunks.length ≤ limit := by
        rw [Cursor.chunk_onSpan]
        omega
      have hleftAgrees := agrees_expr left hfirst (by simp [ha]) hbelow hleftCode hleftLevels hplain hright
      have hrightAgrees := agrees_expr right hsecond (by simp [ha]) (by simpa using hchunks) hrightCode
        hrightLevels hplain (by rw [Level.push_push]; exact hopLevel)
      exact (hleftAgrees.append hrightAgrees).snoc hop hopLevel ⟨nofun, nofun, here, rfl, hend, hplain⟩

/-- Each value is put on top of those before it. -/
theorem agrees_exprs {program : String} (es : List Expr) {c : Cursor} {f : Fragment}
    (hf : exprs program c es = .ok f) {a : Nat} (ha : c.address = a)
    (hchunks : c.chunk + f.chunks.length ≤ limit) {here : Level}
    (hcode : Placed code a (f.code.map Prod.fst)) (hlevels : Placed levels a (exprsLevels here es))
    (hplain : here.block = false)
    (hend : levels[a + f.code.length]? = some (here.push es.length)) :
    AgreesOn limit code levels a (a + f.code.length) := by
  match es with
  | [] =>
    simp only [exprs, Except.ok.injEq] at hf
    subst hf
    exact .nil
  | e :: es =>
    simp only [exprs, bind_eq_ok, pure, Except.pure, Except.ok.injEq] at hf
    obtain ⟨first, hfirst, rest, hrest, rfl⟩ := hf
    simp only [exprsLevels, Fragment.code_append, Fragment.chunks_append, List.map_append,
      placed_append, List.length_append, List.length_map, List.length_cons, length_exprLevels,
      ← length_expr e hfirst, ← Nat.add_assoc] at hcode hlevels hend hchunks ⊢
    have hend' : levels[a + first.code.length + rest.code.length]? =
        some ((here.push 1).push es.length) := by
      rw [Level.push_push, Nat.add_comm 1]
      exact hend
    have hnext : levels[a + first.code.length]? = some (here.push 1) := by
      refine head_exprs es (fun e _ => head_expr _ e) hlevels.2 ?_
      rw [length_exprsLevels, ← length_exprs es hrest]
      exact hend'
    have hothers := agrees_exprs es hrest (by simp [ha]) (by simpa using hchunks) hcode.2 hlevels.2 hplain hend'
    exact (agrees_expr e hfirst ha (by omega) hcode.1 hlevels.1 hplain hnext).append hothers

end

theorem agrees_optional {program : String} (e : Option Expr) {c : Cursor} {f : Fragment}
    (hf : optional program c e = .ok f) {a : Nat} (ha : c.address = a)
    (hchunks : c.chunk + f.chunks.length ≤ limit) {here : Level}
    (hcode : Placed code a (f.code.map Prod.fst)) (hlevels : Placed levels a (optionalLevels here e))
    (hplain : here.block = false)
    (hend : levels[a + f.code.length]? = some (here.push 1)) :
    AgreesOn limit code levels a (a + f.code.length) := by
  cases e with
  | none =>
    simp only [optional, Except.ok.injEq] at hf
    subst hf
    exact .one (placed_cons.mp hcode).1 (placed_cons.mp hlevels).1 ⟨hend, hplain⟩
  | some e => exact agrees_expr e (by simpa only [optional] using hf) ha hchunks hcode hlevels hplain hend

/-! ## Compiled statements -/

/-- A loop that is left with `break` or `continue` is left at its own level. -/
def Lands (levels : List Level) (loop : Option Level) (ctx : Context) : Prop :=
  ∀ l lp, loop = some l → ctx.loop = some lp → Leads levels lp.start l ∧ Leads levels lp.exit l

/-- On the way out of a loop a handler is given up as long as there are more than around the loop. -/
theorem leaveLevel_popped {here l : Level} {i : Nat}
    (hi : i < here.handlers.length - l.handlers.length) :
    ∃ scopes outer, (leaveLevel here l i).handlers = scopes :: outer ∧
      leaveLevel here l (i + 1) = { leaveLevel here l i with handlers := outer } := by
  have hlt : i < here.handlers.length := by omega
  refine ⟨here.handlers[i], here.handlers.drop (i + 1), ?_, ?_⟩
  · show here.handlers.drop (min i _) = _
    rw [Nat.min_eq_left (Nat.le_of_lt hi), List.drop_eq_getElem_cons hlt]
  · unfold leaveLevel
    dsimp only
    rw [Nat.min_eq_left (show i + 1 ≤ here.handlers.length - l.handlers.length by omega),
      Nat.sub_eq_zero_of_le (show i + 1 ≤ here.handlers.length - l.handlers.length by omega),
      Nat.sub_eq_zero_of_le (Nat.le_of_lt hi)]

/-- Then scopes are given up, as long as there are more than around the loop. -/
theorem leaveLevel_exited {here l : Level} {i : Nat}
    (hpopped : here.handlers.length - l.handlers.length ≤ i)
    (hi : i < here.handlers.length - l.handlers.length + (here.scopes - l.scopes)) :
    leaveLevel here l i = (leaveLevel here l (i + 1)).inScope := by
  unfold leaveLevel Level.inScope
  dsimp only
  rw [Nat.min_eq_right hpopped, Nat.min_eq_right (Nat.le_succ_of_le hpopped)]
  congr 1
  omega

/-- **A jump out of a loop agrees**: it leaves handlers and scopes one by one, and arrives at the level of
the loop. -/
theorem agrees_leave {here : Level} {loop : Option Level} {ctx : Context} (h : here.Of loop ctx)
    {c : Cursor} {keyword : String} {target : Loop → Nat} {f : Fragment}
    (hf : leaveLoop ctx c keyword target = .ok f)
    (htarget : ∀ l lp, loop = some l → ctx.loop = some lp → Leads levels (target lp) l) {a : Nat}
    (hcode : Placed code a (f.code.map Prod.fst))
    (hlevels : ∀ l, loop = some l → Placed levels a (leaveLevels here l)) :
    AgreesOn limit code levels a (a + f.code.length) := by
  obtain ⟨l, rfl, hlength⟩ := length_leaveLevels h hf
  have hwithin := h.within l rfl
  have hplaced := hlevels l rfl
  have hrel := h.loop
  unfold leaveLoop at hf
  split at hf
  · cases hf
  next lp hlp =>
  rw [hlp] at hrel
  cases hrel with
  | some hl =>
  cases hf
  obtain ⟨hhandlers, hscopes, -⟩ := hl
  have hpops : ctx.handlers - lp.handlers = here.handlers.length - l.handlers.length := by
    rw [h.handlers, hhandlers]
  have hexits : ctx.scopes - lp.scopes = here.scopes - l.scopes := by
    rw [h.scopes, hscopes]
    omega
  simp only [Cursor.code_emit, List.map_map, hpops, hexits] at hcode hlength ⊢
  -- the level after so many steps stands where the code has come to
  have hlevel : ∀ i, i ≤ here.handlers.length - l.handlers.length + (here.scopes - l.scopes) →
      levels[a + i]? = some (leaveLevel here l i) := by
    intro i hi
    refine hplaced i _ ?_
    rw [leaveLevels, List.getElem?_map, List.getElem?_range (by omega)]
    rfl
  have hplain : ∀ i, (leaveLevel here l i).block = false := fun _ => h.plain
  intro pc hle hlt
  obtain ⟨i, rfl⟩ := Nat.exists_eq_add_of_le hle
  replace hlt : i < here.handlers.length - l.handlers.length + (here.scopes - l.scopes) + 1 := by
    rw [← hlength, leaveLevels, List.length_map, List.length_range] at hlt
    omega
  have hinstr : ∀ instr, (List.replicate (here.handlers.length - l.handlers.length) .popHandler ++
      List.replicate (here.scopes - l.scopes) .exitScope ++ [.jump (target lp)])[i]? = some instr →
      code[a + i]? = some instr := by
    intro instr hi
    refine hcode i instr ?_
    rw [show (Prod.fst ∘ fun i : Instr Val => (i, c.line)) = id from rfl, List.map_id]
    exact hi
  rcases Nat.lt_or_ge i (here.handlers.length - l.handlers.length) with hpop | hpopped
  · -- a handler is given up
    refine ⟨.popHandler, leaveLevel here l i, hinstr _ ?_, hlevel i (by omega), ?_⟩
    · rw [List.append_assoc, List.getElem?_append_left (by simpa using hpop),
        List.getElem?_replicate, if_pos hpop]
    · obtain ⟨scopes, outer, hhandlers, hnext⟩ := leaveLevel_popped hpop
      refine ⟨scopes, outer, hhandlers, ?_, h.plain⟩
      rw [Nat.add_assoc, hlevel (i + 1) (by omega), hnext]
  rcases Nat.lt_or_ge i (here.handlers.length - l.handlers.length + (here.scopes - l.scopes))
    with hexit | hout
  · -- a scope is given up
    refine ⟨.exitScope, leaveLevel here l i, hinstr _ ?_, hlevel i (by omega), ?_⟩
    · rw [List.append_assoc, List.getElem?_append_right (by simpa using hpopped), List.length_replicate,
        List.getElem?_append_left (by simp; omega), List.getElem?_replicate, if_pos (by omega)]
    · refine ⟨leaveLevel here l (i + 1), leaveLevel_exited hpopped hexit, ?_, h.plain⟩
      rw [Nat.add_assoc]
      exact hlevel (i + 1) (by omega)
  · -- the loop is left
    obtain rfl : i = here.handlers.length - l.handlers.length + (here.scopes - l.scopes) := by omega
    refine ⟨.jump (target lp), l, hinstr _ ?_, ?_, htarget l lp rfl hlp⟩
    · rw [List.getElem?_append_right (by simp), List.length_append, List.length_replicate,
        List.length_replicate, Nat.sub_self]
      rfl
    · rw [hlevel _ (Nat.le_refl _), last_leave hwithin]

mutual

/-- **The code of a statement agrees with its levels** if the level is the same behind it. -/
theorem agrees_stmt {program : String} (s : Stmt) {here : Level} {loop : Option Level} {ctx : Context}
    (h : here.Of loop ctx) {c : Cursor} {f : Fragment} (hf : stmt program ctx c s = .ok f) {a : Nat}
    (ha : c.address = a) (hchunks : c.chunk + f.chunks.length ≤ limit)
    (hcode : Placed code a (f.code.map Prod.fst))
    (hlevels : Placed levels a (stmtLevels here loop s))
    (hend : levels[a + f.code.length]? = some here) (hlands : Lands levels loop ctx) :
    AgreesOn limit code levels a (a + f.code.length) := by
  match s with
  | .block body span =>
    simp only [stmt, bind_eq_ok, pure, Except.pure, Except.ok.injEq] at hf
    obtain ⟨inner, hinner, rfl⟩ := hf
    simp only [stmtLevels, Fragment.code_append, Fragment.chunks_append, Cursor.code_emit,
      Cursor.chunks_emit, List.map_append, List.map_cons, List.map_nil, List.cons_append,
      List.nil_append, placed_append, placed_cons, List.length_append, List.length_map,
      List.length_nil, length_stmtsLevels body h.inScope hinner] at hcode hlevels hchunks
    rw [show a + (Cursor.emit (c.onLine span.lineNumber) [.enterScope] ++ inner ++
      Cursor.emit _ [.exitScope]).code.length = a + 1 + inner.code.length + 1 by simp; omega] at hend ⊢
    obtain ⟨henter, hbodyCode, hexit, -⟩ := hcode
    obtain ⟨henterLevel, hbodyLevels, hexitLevel, -⟩ := hlevels
    have hbody : levels[a + 1]? = some here.inScope := by
      refine entry_stmts body hbodyLevels ?_
      rw [length_stmtsLevels body h.inScope hinner]
      exact hexitLevel
    have henterAgrees : AgreesOn limit code levels a (a + 1) := .one henter henterLevel ⟨hbody, h.plain⟩
    have hbodyAgrees := agrees_stmts body h.inScope hinner (by simp [ha]) (by simpa using hchunks) hbodyCode
      hbodyLevels hexitLevel hlands
    exact (henterAgrees.append hbodyAgrees).snoc hexit hexitLevel ⟨here, rfl, hend, h.plain⟩
  | .bind _ e _ =>
    simp only [stmt, bind_eq_ok, pure, Except.pure, Except.ok.injEq] at hf
    obtain ⟨value, hvalue, rfl⟩ := hf
    rw [stmtLevels] at hlevels
    refine agrees_snoc (by rw [length_optionalLevels, length_optional e hvalue]) hcode hlevels hend
      (fun hcode hlevels htop => ?_) fun hend => ⟨here, rfl, hend, h.plain⟩
    exact agrees_optional e hvalue (by simp [ha]) (by simpa using hchunks) hcode hlevels h.plain htop
  | .ret e _ =>
    simp only [stmt, bind_eq_ok, pure, Except.pure, Except.ok.injEq] at hf
    obtain ⟨value, hvalue, rfl⟩ := hf
    rw [stmtLevels] at hlevels
    refine agrees_snoc (by rw [length_optionalLevels, length_optional e hvalue]) hcode hlevels hend
      (fun hcode hlevels htop => ?_) fun _ => trivial
    exact agrees_optional e hvalue (by simp [ha]) (by simpa using hchunks) hcode hlevels h.plain htop
  | .assign _ e _ | .eval e _ =>
    simp only [stmt, bind_eq_ok, pure, Except.pure, Except.ok.injEq] at hf
    obtain ⟨value, hvalue, rfl⟩ := hf
    rw [stmtLevels] at hlevels
    refine agrees_snoc (by rw [length_exprLevels, length_expr e hvalue]) hcode hlevels hend
      (fun hcode hlevels htop => ?_) fun hend => ⟨here, rfl, hend, h.plain⟩
    exact agrees_expr e hvalue (by simp [ha]) (by simpa using hchunks) hcode hlevels h.plain htop
  | .throw e _ =>
    simp only [stmt, bind_eq_ok, pure, Except.pure, Except.ok.injEq] at hf
    obtain ⟨value, hvalue, rfl⟩ := hf
    rw [stmtLevels] at hlevels
    refine agrees_snoc (by rw [length_exprLevels, length_expr e hvalue]) hcode hlevels hend
      (fun hcode hlevels htop => ?_) fun _ => Nat.le_add_left _ _
    exact agrees_expr e hvalue (by simp [ha]) (by simpa using hchunks) hcode hlevels h.plain htop
  | .ifThen test yes none span =>
    simp only [stmt, bind_eq_ok, pure, Except.pure, Except.ok.injEq] at hf
    obtain ⟨t, ht, y, hy, rfl⟩ := hf
    simp only [stmtLevels, Fragment.code_append, Fragment.chunks_append, Cursor.code_emit,
      Cursor.chunks_emit, List.map_append, List.map_cons, List.map_nil, placed_append, placed_cons,
      List.length_append, List.length_map, List.length_cons, List.length_nil, length_exprLevels,
      ← length_expr test ht, ← Nat.add_assoc, Nat.add_zero, Nat.zero_add, Cursor.address_after,
      Cursor.address_skip, Cursor.address_onLine, ha] at hcode hlevels hend hchunks ⊢
    obtain ⟨⟨htestCode, hjump, -⟩, hyesCode⟩ := hcode
    obtain ⟨⟨htestLevels, hjumpLevel, -⟩, hyesLevels⟩ := hlevels
    have hyes : levels[a + t.code.length + 1]? = some here := by
      refine entry_stmt yes hyesLevels ?_
      rw [length_stmtLevels yes h hy]
      exact hend
    have hbelow : (c.onLine span.lineNumber).chunk + t.chunks.length ≤ limit := by
      rw [Cursor.chunk_onLine]
      omega
    have htestAgrees := agrees_expr test ht (by simp [ha]) hbelow htestCode htestLevels h.plain hjumpLevel
    have hyesAgrees := agrees_stmt yes h hy (by simp [ha]) (by simpa using hchunks) hyesCode hyesLevels hend
      hlands
    exact (htestAgrees.snoc hjump hjumpLevel ⟨here, rfl, ⟨hyes, h.plain⟩, hend, h.plain⟩).append hyesAgrees
  | .ifThen test yes (some no) span =>
    simp only [stmt, bind_eq_ok, pure, Except.pure, Except.ok.injEq] at hf
    obtain ⟨t, ht, y, hy, n, hn, rfl⟩ := hf
    simp only [stmtLevels, Fragment.code_append, Fragment.chunks_append, Cursor.code_emit,
      Cursor.chunks_emit, List.map_append, List.map_cons, List.map_nil, placed_append, placed_cons,
      List.length_append, List.length_map, List.length_cons, List.length_nil, length_exprLevels,
      ← length_expr test ht, length_stmtLevels yes h hy, ← Nat.add_assoc, Nat.add_zero, Nat.zero_add,
      Cursor.address_after, Cursor.address_skip, Cursor.address_onLine, ha] at hcode hlevels hend hchunks ⊢
    obtain ⟨⟨⟨⟨htestCode, hjump, -⟩, hyesCode⟩, hskip, -⟩, hnoCode⟩ := hcode
    obtain ⟨⟨⟨⟨htestLevels, hjumpLevel, -⟩, hyesLevels⟩, hskipLevel, -⟩, hnoLevels⟩ := hlevels
    have hyes : levels[a + t.code.length + 1]? = some here := by
      refine entry_stmt yes hyesLevels ?_
      rw [length_stmtLevels yes h hy]
      exact hskipLevel
    have hno : levels[a + t.code.length + 1 + y.code.length + 1]? = some here := by
      refine entry_stmt no hnoLevels ?_
      rw [length_stmtLevels no h hn]
      exact hend
    have hbelow : (c.onLine span.lineNumber).chunk + t.chunks.length ≤ limit := by
      rw [Cursor.chunk_onLine]
      omega
    have hbelow' : (Cursor.after (c.onLine span.lineNumber) t).skip.chunk + y.chunks.length ≤ limit := by
      rw [Cursor.chunk_skip, Cursor.chunk_after, Cursor.chunk_onLine]
      omega
    have htestAgrees := agrees_expr test ht (by simp [ha]) hbelow htestCode htestLevels h.plain hjumpLevel
    have hyesAgrees := agrees_stmt yes h hy (by simp [ha]) hbelow' hyesCode hyesLevels hskipLevel hlands
    have hnoAgrees := agrees_stmt no h hn (by simp [ha]) (by simpa [Nat.add_assoc] using hchunks) hnoCode
      hnoLevels hend hlands
    have hchosen := htestAgrees.snoc hjump hjumpLevel ⟨here, rfl, ⟨hyes, h.plain⟩, hno, h.plain⟩
    exact ((hchosen.append hyesAgrees).snoc hskip hskipLevel ⟨hend, h.plain⟩).append hnoAgrees
  | .whileDo test body span =>
    simp only [stmt, bind_eq_ok, pure, Except.pure, Except.ok.injEq] at hf
    obtain ⟨t, ht, b, hb, rfl⟩ := hf
    have hsize := length_stmt body (Context.Open.loop ctx _ _) hb
    simp only [stmtLevels, Fragment.code_append, Fragment.chunks_append, Cursor.code_emit,
      Cursor.chunks_emit, List.map_append, List.map_cons, List.map_nil, placed_append, placed_cons,
      List.length_append, List.length_map, List.length_cons, List.length_nil, length_exprLevels,
      ← length_expr test ht, length_stmtLevels body (h.inLoop _ _) hb, ← hsize, ← Nat.add_assoc,
      Nat.add_zero, Nat.zero_add, Cursor.address_after, Cursor.address_onLine, ha]
      at hcode hlevels hend hchunks ⊢
    obtain ⟨⟨⟨htestCode, hjump, -⟩, hbodyCode⟩, hback, -⟩ := hcode
    obtain ⟨⟨⟨htestLevels, hjumpLevel, -⟩, hbodyLevels⟩, hbackLevel, -⟩ := hlevels
    have hstart : levels[a]? = some here := by
      obtain ⟨rest, hrest⟩ := head_expr here test
      rw [hrest, placed_cons] at htestLevels
      exact htestLevels.1
    have hbody : levels[a + t.code.length + 1]? = some here := by
      refine entry_stmt body hbodyLevels ?_
      rw [length_stmtLevels body (h.inLoop _ _) hb]
      exact hbackLevel
    have hbelow : (c.onLine span.lineNumber).chunk + t.chunks.length ≤ limit := by
      rw [Cursor.chunk_onLine]
      omega
    have htestAgrees := agrees_expr test ht (by simp [ha]) hbelow htestCode htestLevels h.plain hjumpLevel
    have hbodyAgrees := agrees_stmt body (h.inLoop _ _) hb (by simp [ha]) (by simpa using hchunks) hbodyCode
      hbodyLevels hbackLevel (by
        -- both ends of the loop have the level at which it begins
        rintro l lp ⟨⟩ ⟨⟩
        refine ⟨⟨?_, h.plain⟩, ?_, h.plain⟩
        · simpa [ha] using hstart
        · simpa [ha, ← hsize] using hend)
    have hentered := htestAgrees.snoc hjump hjumpLevel ⟨here, rfl, ⟨hbody, h.plain⟩, hend, h.plain⟩
    exact (hentered.append hbodyAgrees).snoc hback hbackLevel ⟨hstart, h.plain⟩
  | .tryCatch body name handler span =>
    simp only [stmt, bind_eq_ok, pure, Except.pure, Except.ok.injEq] at hf
    obtain ⟨b, hb, g, hg, rfl⟩ := hf
    simp only [stmtLevels, Fragment.code_append, Fragment.chunks_append, Cursor.code_emit,
      Cursor.chunks_emit, List.map_append, List.map_cons, List.map_nil, List.cons_append, List.nil_append,
      List.append_assoc, placed_append, placed_cons, List.length_append, List.length_map,
      List.length_nil, length_stmtLevels body h.inHandler hb,
      length_stmtLevels handler h.inScope hg, Cursor.address_after, Cursor.address_skip,
      Cursor.address_onLine, ha] at hcode hlevels hchunks
    rw [show a + (Cursor.emit (c.onLine span.lineNumber) [.pushHandler _] ++ b ++ Cursor.emit _ [.popHandler, .jump _]
        ++ Cursor.emit _ [.enterScope, .declare name] ++ g ++ Cursor.emit _ [.exitScope]).code.length
      = a + 1 + b.code.length + 1 + 1 + 1 + 1 + g.code.length + 1 by simp; omega] at hend ⊢
    obtain ⟨hpush, hbodyCode, hpop, hskip, henter, hdeclare, hhandlerCode, hexit, -⟩ := hcode
    obtain ⟨hpushLevel, hbodyLevels, hpopLevel, hskipLevel, henterLevel, hdeclareLevel, hhandlerLevels,
      hexitLevel, -⟩ := hlevels
    have hbody : levels[a + 1]? = some here.inHandler := by
      refine entry_stmt body hbodyLevels ?_
      rw [length_stmtLevels body h.inHandler hb]
      exact hpopLevel
    have hhandler : levels[a + 1 + b.code.length + 1 + 1 + 1 + 1]? = some here.inScope := by
      refine entry_stmt handler hhandlerLevels ?_
      rw [length_stmtLevels handler h.inScope hg]
      exact hexitLevel
    have hbelow : (c.onLine span.lineNumber).skip.chunk + b.chunks.length ≤ limit := by
      rw [Cursor.chunk_skip, Cursor.chunk_onLine]
      omega
    -- the handler begins with the error on the stack, and so does the code at its address
    have hpushAgrees : AgreesOn limit code levels a (a + 1) :=
      .one hpush hpushLevel ⟨h.empty, ⟨hbody, h.plain⟩, henterLevel, h.plain⟩
    have hbodyAgrees := agrees_stmt body h.inHandler hb (by simp [ha]) hbelow hbodyCode hbodyLevels
      hpopLevel hlands
    have hhandlerAgrees := agrees_stmt handler h.inScope hg (by simp [ha])
      (by simpa [Nat.add_assoc] using hchunks) hhandlerCode hhandlerLevels hexitLevel hlands
    have hprotected := ((hpushAgrees.append hbodyAgrees).snoc hpop hpopLevel
      ⟨here.scopes, here.handlers, rfl, hskipLevel, h.plain⟩).snoc hskip hskipLevel ⟨hend, h.plain⟩
    have hcaught := (hprotected.snoc henter henterLevel ⟨hdeclareLevel, h.plain⟩).snoc hdeclare
      hdeclareLevel ⟨here.inScope, rfl, hhandler, h.plain⟩
    exact (hcaught.append hhandlerAgrees).snoc hexit hexitLevel ⟨here, rfl, hend, h.plain⟩
  | .breakLoop _ =>
    simp only [stmt] at hf
    refine agrees_leave h hf (fun l lp hl hlp => (hlands l lp hl hlp).2) hcode fun l hl => ?_
    subst hl
    exact hlevels
  | .continueLoop _ =>
    simp only [stmt] at hf
    refine agrees_leave h hf (fun l lp hl hlp => (hlands l lp hl hlp).1) hcode fun l hl => ?_
    subst hl
    exact hlevels

/-- Each statement of a list begins and ends at the level of the list. -/
theorem agrees_stmts {program : String} (ss : List Stmt) {here : Level} {loop : Option Level}
    {ctx : Context} (h : here.Of loop ctx) {c : Cursor} {f : Fragment}
    (hf : stmts program ctx c ss = .ok f) {a : Nat} (ha : c.address = a)
    (hchunks : c.chunk + f.chunks.length ≤ limit) (hcode : Placed code a (f.code.map Prod.fst))
    (hlevels : Placed levels a (stmtsLevels here loop ss))
    (hend : levels[a + f.code.length]? = some here) (hlands : Lands levels loop ctx) :
    AgreesOn limit code levels a (a + f.code.length) := by
  match ss with
  | [] =>
    simp only [stmts, Except.ok.injEq] at hf
    subst hf
    exact .nil
  | s :: ss =>
    simp only [stmts, bind_eq_ok, pure, Except.pure, Except.ok.injEq] at hf
    obtain ⟨first, hfirst, rest, hrest, rfl⟩ := hf
    simp only [stmtsLevels, Fragment.code_append, Fragment.chunks_append, List.map_append,
      placed_append, List.length_append, List.length_map, length_stmtLevels s h hfirst,
      ← Nat.add_assoc] at hcode hlevels hend hchunks ⊢
    have hnext : levels[a + first.code.length]? = some here := by
      refine entry_stmts ss hlevels.2 ?_
      rw [length_stmtsLevels ss h hrest]
      exact hend
    exact (agrees_stmt s h hfirst ha (by omega) hcode.1 hlevels.1 hnext hlands).append
      (agrees_stmts ss h hrest (by simp [ha]) (by simpa using hchunks) hcode.2 hlevels.2 hend hlands)

end

end Agreement

/-! ## The chunks of a program -/

/-- **A chunk is verified**: it has a level for each instruction, and agrees with them. -/
structure Verified (limit : Nat) (body : Stmt) (chunk : Chunk Val) : Prop where
  length : chunk.code.length = (bodyLevels body).length
  agrees : AgreesOn limit chunk.code (bodyLevels body) 0 chunk.code.length
  returns : chunk.code.getLast? = some .ret

/-- **The chunk of a body is verified.** -/
theorem verified_chunkOf {program title : String} {body : Stmt} {c : Cursor} {f : Fragment}
    (hf : stmt program {} c body = .ok f) (haddress : c.address = 0) {limit : Nat}
    (hchunks : c.chunk + f.chunks.length ≤ limit) : Verified limit body (chunkOf title f) := by
  have hlength := length_stmtLevels body Level.Of.base hf
  have hcode : (chunkOf title f).code = f.code.map Prod.fst ++ [.const .null, .ret] := by
    simp [chunkOf]
  have hsize : (chunkOf title f).code.length = 0 + f.code.length + 1 + 1 := by
    simp [hcode]
  have hplaced : Placed (chunkOf title f).code 0 (f.code.map Prod.fst ++ [.const .null, .ret]) :=
    hcode ▸ placed_self
  have hlevels : Placed (bodyLevels body) 0
      (stmtLevels .base none body ++ [.base, Level.base.push 1]) := placed_self
  simp only [placed_append, placed_cons, List.length_map] at hplaced
  simp only [placed_append, placed_cons, hlength] at hlevels
  refine ⟨?_, ?_, by rw [hcode]; simp⟩
  · rw [hsize, bodyLevels, List.length_append, hlength]
    simp
  · rw [hsize]
    refine ((agrees_stmt body Level.Of.base hf haddress hchunks hplaced.1 hlevels.1 hlevels.2.1
      fun _ _ hno => (by cases hno)).snoc hplaced.2.1 hlevels.2.1 ⟨hlevels.2.2.1, rfl⟩).snoc
      hplaced.2.2.1 hlevels.2.2.1 trivial

/-- Each body in a list is followed by the bodies of the closure literals in it. -/
def Roomy (bodies : List Stmt) : Prop :=
  ∀ i body, bodies[i]? = some body → i + 1 + (closuresIn body).length ≤ bodies.length

theorem Roomy.append {bodies bodies' : List Stmt} (h : Roomy bodies) (h' : Roomy bodies') :
    Roomy (bodies ++ bodies') := by
  intro i body hi
  rw [List.getElem?_append] at hi
  rw [List.length_append]
  split at hi
  · exact Nat.le_trans (h i body hi) (Nat.le_add_right _ _)
  · next hle =>
    have := h' _ body hi
    omega

theorem Roomy.literal {body : Stmt} (h : Roomy (closuresIn body)) : Roomy (body :: closuresIn body) := by
  intro i other hi
  cases i with
  | zero =>
    cases hi
    rw [List.length_cons]
    omega
  | succ i =>
    have := h i other hi
    rw [List.length_cons]
    omega

theorem Roomy.nil : Roomy [] := fun _ _ hno => (by cases hno)

mutual

/-- **In each chunk there is room for the chunks of its closures**, which were put behind it. By the
recursion of syntax trees. -/
theorem roomy_stmt (s : Stmt) : Roomy (closuresIn s) := by
  match s with
  | .block body _ => simpa only [closuresIn] using roomy_stmts body
  | .bind _ none _ | .ret none _ | .breakLoop _ | .continueLoop _ =>
    simpa only [closuresIn] using .nil
  | .bind _ (some e) _ | .ret (some e) _ | .assign _ e _ | .throw e _ | .eval e _ =>
    simpa only [closuresIn] using roomy_expr e
  | .ifThen test yes none _ =>
    simpa only [closuresIn] using (roomy_expr test).append (roomy_stmt yes)
  | .ifThen test yes (some no) _ =>
    simpa only [closuresIn] using ((roomy_expr test).append (roomy_stmt yes)).append (roomy_stmt no)
  | .whileDo test body _ => simpa only [closuresIn] using (roomy_expr test).append (roomy_stmt body)
  | .tryCatch body _ handler _ =>
    simpa only [closuresIn] using (roomy_stmt body).append (roomy_stmt handler)

theorem roomy_stmts (ss : List Stmt) : Roomy (closuresInAll ss) := by
  match ss with
  | [] => exact .nil
  | s :: ss => simpa only [closuresInAll] using (roomy_stmt s).append (roomy_stmts ss)

theorem roomy_expr (e : Expr) : Roomy (closuresInExpr e) := by
  match e with
  | .null _ | .bool _ _ | .num _ _ | .str _ _ | .ident _ _ => exact .nil
  | .list es _ | .call _ es none _ => simpa only [closuresInExpr] using roomy_exprs es
  | .call _ es (some body) _ =>
    simpa only [closuresInExpr] using (roomy_exprs es).append (.literal (roomy_stmt body))
  | .closure body _ => simpa only [closuresInExpr] using Roomy.literal (roomy_stmt body)
  | .unary _ e _ => simpa only [closuresInExpr] using roomy_expr e
  | .binary _ left right _ =>
    simpa only [closuresInExpr] using (roomy_expr left).append (roomy_expr right)

theorem roomy_exprs (es : List Expr) : Roomy (closuresInExprs es) := by
  match es with
  | [] => exact .nil
  | e :: es => simpa only [closuresInExprs] using (roomy_expr e).append (roomy_exprs es)

end

end Compile

/-- The bodies that the chunks of a script are compiled from: the script itself, then those of its
closure literals. -/
def ParsedScript.bodies (script : ParsedScript) : List Stmt := script.body :: closuresIn script.body

/-- **Every chunk of a compiled script is verified.** -/
theorem verified_compile {name : String} {script : ParsedScript} {program : Program Val}
    (h : compile name script = .ok program) :
    List.Forall₂ (Verified program.chunks.length) script.bodies program.chunks := by
  simp only [compile, bind_eq_ok, pure, Except.pure, Except.ok.injEq] at h
  obtain ⟨main, hmain, rfl⟩ := h
  have hnumbered : Numbered name 1 (closuresIn script.body) main.chunks := numbered_stmt script.body hmain
  have hroomy := roomy_stmt script.body
  refine .cons (verified_chunkOf hmain rfl (Nat.le_of_eq (Nat.add_comm _ _))) ?_
  refine List.forall₂_iff_get.mpr ⟨hnumbered.length_eq.symm, fun i hi hi' => ?_⟩
  obtain ⟨line, inner, hcompiled, hchunk⟩ := hnumbered.chunk_of_body (List.getElem?_eq_getElem hi)
  rw [List.getElem?_eq_getElem hi', Option.some.injEq] at hchunk
  rw [List.get_eq_getElem, List.get_eq_getElem, hchunk]
  refine verified_chunkOf hcompiled rfl ?_
  have hroom := hroomy i _ (List.getElem?_eq_getElem hi)
  rw [← length_chunks_stmt hcompiled, ← hnumbered.length_eq] at hroom
  simp only [List.length_cons]
  omega

end DurableFlow.Script
