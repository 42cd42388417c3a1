/-
What the trees of a grammar stand for, whatever the text.

Reading a text says what a rule does with a text that is known. Here nothing is known
of the text but that the grammar accepts it, and the question is which values its tree
can have. A description of the values of each rule gives one for every expression, and
it holds of all trees if it holds of each rule by itself: of a node whose parts have
the values that the body of the rule describes, and of a leaf with a text that the rule
has matched.

Fuel matters here, as a match that is tried and must fail also fails for want of fuel.
So everything is said of matches that no further fuel changes.
-/
import DurableFlow.Proofs.Text.Reading

set_option autoImplicit false

namespace DurableFlow.Text.Peg

variable {ρ ε α : Type}

/-! ## Matches that are settled -/

namespace Grammar

variable (g : Grammar ρ)

/-- **A match that no further fuel changes.** -/
def Settles (mode : Mode) (exp : Exp ρ) (input : Input) (k : Match ρ) : Prop :=
  ∃ enough, ∀ fuel, enough ≤ fuel → g.result fuel mode exp input = some k

/-- **A rule accepts a text**: it matches at the start of it, with whatever fuel from some amount on. -/
def Accepts (name : ρ) (source : String) : Prop :=
  ∃ k, g.Settles .spaced (.rule name) ⟨source.toList, {}⟩ k

variable {g} {mode : Mode} {exp : Exp ρ} {input : Input} {k : Match ρ} {fuel : Nat}

theorem Measured.settles (m : g.Measured) (henough : m.Enough fuel mode exp input)
    (h : g.result fuel mode exp input = some k) : g.Settles mode exp input k := by
  refine ⟨fuel, fun fuel' hfuel => ?_⟩
  rw [← h]
  exact (m.settled fuel').1 fuel mode exp input ⟨henough.fits, Nat.le_trans henough.le hfuel⟩ henough

theorem Settles.unique {k' : Match ρ} (h : g.Settles mode exp input k) (h' : g.Settles mode exp input k') :
    k = k' := by
  obtain ⟨enough, h⟩ := h
  obtain ⟨enough', h'⟩ := h'
  have hboth := h (max enough enough') (Nat.le_max_left _ _)
  rw [h' _ (Nat.le_max_right _ _)] at hboth
  exact (Option.some.inj hboth).symm

/-- An atomic rule leaves a leaf, and blanks play no part in it. -/
theorem result_atomic_rule {name : ρ} (hkind : (g.define name).kind = .atomic) (hmode : mode ≠ .atomic) :
    g.result (fuel + 1) mode (.rule name) input =
      (g.result fuel .atomic (g.define name).body input).map fun k =>
        ⟨[.leaf name ⟨input.pos, k.input.pos⟩ (input.textUntil k.input)], k.input⟩ := by
  rw [result_rule, hkind]
  cases mode with
  | atomic => exact absurd rfl hmode
  | spaced | compound => rfl

theorem Settles.spaced {name : ρ} (hkind : (g.define name).kind = .atomic) (hmode : mode ≠ .atomic)
    (h : g.Settles mode (.rule name) input k) : g.Settles .spaced (.rule name) input k := by
  obtain ⟨enough, h⟩ := h
  refine ⟨enough + 1, fun fuel hfuel => ?_⟩
  obtain ⟨n, rfl, hn⟩ := Language.exists_succ hfuel
  have hmatch := h (n + 1) (by omega)
  rw [result_atomic_rule hkind hmode] at hmatch
  rw [result_atomic_rule hkind (by decide)]
  exact hmatch

/-- What an atomic rule leaves is one leaf. -/
theorem Settles.leaf {name : ρ} (hkind : (g.define name).kind = .atomic)
    (h : g.Settles .spaced (.rule name) input k) :
    ∃ span text, k.trees = [.leaf name span text] := by
  obtain ⟨enough, h⟩ := h
  have hmatch := h (enough + 1) (by omega)
  rw [result_atomic_rule hkind (by decide), Option.map_eq_some_iff] at hmatch
  obtain ⟨body, -, rfl⟩ := hmatch
  exact ⟨_, _, rfl⟩

end Grammar

/-! ## Descriptions of expressions -/

/-- Values of one description, any number of times. -/
inductive Repeated (P : List α → Prop) : List α → Prop where
  | nil : Repeated P []
  | cons {us vs : List α} (first : P us) (rest : Repeated P vs) : Repeated P (us ++ vs)

/-- Values of one of two descriptions. -/
def Either (P Q : List α → Prop) (values : List α) : Prop := P values ∨ Q values

@[simp] theorem silent_then (Q : List α → Prop) : Then Silent Q = Q := by
  funext values
  refine propext ⟨Then.of_silent, fun h => ⟨[], values, rfl, rfl, h⟩⟩

@[simp] theorem then_silent (P : List α → Prop) : Then P Silent = P := by
  funext values
  refine propext ⟨Then.silent, fun h => ⟨values, [], by rw [List.append_nil], h, rfl⟩⟩

@[simp] theorem either_self (P : List α → Prop) : Either P P = P := by
  funext values
  exact propext (or_self_iff)

theorem Repeated.mono {P Q : List α → Prop} {values : List α} (h : Repeated P values)
    (hPQ : ∀ values, P values → Q values) : Repeated Q values := by
  induction h with
  | nil => exact .nil
  | cons first _ ih => exact .cons (hPQ _ first) ih

namespace Exp

/-- Whether an expression leaves trees of certain rules only. What is tried and must not match leaves
none. -/
def leavesOnly (used : ρ → Bool) : Exp ρ → Bool
  | .text _ | .char _ | .atEnd | .without _ => true
  | .rule name => used name
  | .seq first second | .alt first second => first.leavesOnly used && second.leavesOnly used
  | .many body | .opt body => body.leavesOnly used

/-- **The values of an expression**, where those of the rules are described. -/
def Describes (describe : ρ → List α → Prop) : Exp ρ → List α → Prop
  | .text _ | .char _ | .atEnd | .without _ => Silent
  | .rule name => describe name
  | .seq first second => Then (first.Describes describe) (second.Describes describe)
  | .alt first second => Either (first.Describes describe) (second.Describes describe)
  | .many body => Repeated (body.Describes describe)
  | .opt body => Either Silent (body.Describes describe)

end Exp

/-! ## Descriptions of rules -/

namespace Language

/-- Trees that have values of a description. -/
def Has (L : Language ρ ε α) (P : List α → Prop) (trees : List (Tree ρ)) : Prop :=
  ∃ values, Tree.foldAll L.leaf L.node trees = .ok values ∧ P values

section

variable {L : Language ρ ε α} {P Q : List α → Prop} {mode : Mode} {exp : Exp ρ} {cs rest : List Char}
  {pos : Pos} {k : Match ρ}

theorem Has.nil (h : P []) : L.Has P [] := ⟨[], by rw [Tree.foldAll], h⟩

theorem Has.append {left right : List (Tree ρ)} (hleft : L.Has P left) (hright : L.Has Q right) :
    L.Has (Then P Q) (left ++ right) := by
  obtain ⟨us, hus, hP⟩ := hleft
  obtain ⟨vs, hvs, hQ⟩ := hright
  exact ⟨us ++ vs, Tree.foldAll_append hus hvs, us, vs, rfl, hP, hQ⟩

theorem Has.mono {trees : List (Tree ρ)} (h : L.Has P trees) (hPQ : ∀ values, P values → Q values) :
    L.Has Q trees := by
  obtain ⟨values, hfold, hP⟩ := h
  exact ⟨values, hfold, hPQ values hP⟩

/-- A leaf with a value. -/
theorem Has.leaf {name : ρ} {span : Span} {text : String} {value : α}
    (hvalue : L.leaf name span text = .ok value) (h : P [value]) : L.Has P [.leaf name span text] := by
  refine ⟨[value], ?_, h⟩
  rw [Tree.foldAll, Tree.fold, hvalue]
  simp only [Tree.foldAll]

/-- A node with a value. -/
theorem Has.node {name : ρ} {span : Span} {parts : List (Tree ρ)} (hparts : L.Has P parts)
    (hnode : ∀ values, P values → ∃ value, L.node name span values = .ok value ∧ Q [value]) :
    L.Has Q [.node name span parts] := by
  obtain ⟨values, hfold, hP⟩ := hparts
  obtain ⟨value, hvalue, hQ⟩ := hnode values hP
  refine ⟨[value], ?_, hQ⟩
  rw [Tree.foldAll, Tree.fold, hfold]
  simp only [hvalue, Tree.foldAll]

/-- What is refused does not match. -/
theorem Refuses.not_settles (h : L.Refuses mode exp cs) : ¬ L.grammar.Settles mode exp ⟨cs, pos⟩ k := by
  rintro ⟨enough, hk⟩
  obtain ⟨enough', hno⟩ := h
  have hboth := hk (max enough enough') (Nat.le_max_left _ _)
  rw [hno _ (Nat.le_max_right _ _)] at hboth
  cases hboth

/-- What is read matches in no other way. -/
theorem Reads.has (h : L.Reads mode exp cs rest P) (hk : L.grammar.Settles mode exp ⟨cs, pos⟩ k) :
    L.Has P k.trees := by
  obtain ⟨enough, hk⟩ := hk
  obtain ⟨enough', h⟩ := h
  obtain ⟨trees, pos', values, hresult, hfold, hP⟩ := h (max enough enough') (Nat.le_max_right _ _) pos
  rw [hk _ (Nat.le_max_left _ _)] at hresult
  obtain rfl := Option.some.inj hresult
  exact ⟨values, hfold, hP⟩

end

/-- **A description of the values of each rule**, which holds of each rule if it holds of its parts. -/
structure Described (L : Language ρ ε α) where
  /-- The rules that leave trees. -/
  used : ρ → Bool
  describe : ρ → List α → Prop
  leaves : ∀ name, used name = true → (L.grammar.define name).kind ≠ .atomic →
    (L.grammar.define name).body.leavesOnly used = true
  silent : ∀ name values, (L.grammar.define name).kind = .silent →
    (L.grammar.define name).body.Describes describe values → describe name values
  node : ∀ name span values,
    (L.grammar.define name).kind = .plain ∨ (L.grammar.define name).kind = .compound →
    (L.grammar.define name).body.Describes describe values →
    ∃ value, L.node name span values = .ok value ∧ describe name [value]
  leaf : ∀ name input k, used name = true → (L.grammar.define name).kind = .atomic →
    L.grammar.Settles .spaced (.rule name) input k → L.Has (describe name) k.trees

namespace Described

variable {L : Language ρ ε α} (d : L.Described)

variable {d}

/-- What a rule leaves that is not atomic, from what its body leaves. -/
theorem has_rule {name : ρ} {mode : Mode} {input : Input} {k : Match ρ}
    (hmode : mode ≠ .atomic) (hkind : (L.grammar.define name).kind ≠ .atomic)
    (h : L.Has ((L.grammar.define name).body.Describes d.describe) k.trees) :
    L.Has (d.describe name) ((L.grammar.define name).kind.trees mode name input k) := by
  have hnode : (L.grammar.define name).kind = .plain ∨ (L.grammar.define name).kind = .compound →
      L.Has (d.describe name) [.node name ⟨input.pos, k.input.pos⟩ k.trees] :=
    fun hone => h.node fun values => d.node name _ values hone
  cases hk : (L.grammar.define name).kind with
  | atomic => exact absurd hk hkind
  | silent =>
    have hsilent := h.mono fun values => d.silent name values hk
    cases mode with
    | atomic => exact absurd rfl hmode
    | spaced | compound => exact hsilent
  | plain =>
    cases mode with
    | atomic => exact absurd rfl hmode
    | spaced | compound => exact hnode (.inl hk)
  | compound =>
    cases mode with
    | atomic => exact absurd rfl hmode
    | spaced | compound => exact hnode (.inr hk)

theorem inner_ne_atomic {kind : RuleKind} {mode : Mode} (hkind : kind ≠ .atomic) (hmode : mode ≠ .atomic) :
    kind.inner mode ≠ .atomic := by
  cases kind with
  | atomic => exact absurd rfl hkind
  | plain | silent => exact hmode
  | compound => exact nofun

/-- **All trees of a grammar have the values that are described**, as far as the fuel was enough for
them. The induction is on the fuel, and what it was enough for it is enough for the parts of. -/
theorem has_result (m : L.grammar.Measured) (fuel : Nat) :
    (∀ mode exp input k, mode ≠ .atomic → exp.leavesOnly d.used = true → m.Enough fuel mode exp input →
      L.grammar.result fuel mode exp input = some k → L.Has (exp.Describes d.describe) k.trees) ∧
    (∀ mode body done k, mode ≠ .atomic → body.leavesOnly d.used = true →
      m.EnoughRounds fuel body done.input → L.grammar.moreRounds fuel mode body done = some k →
      ∃ trees, k.trees = done.trees ++ trees ∧
        L.Has (Repeated (body.Describes d.describe)) trees) := by
  induction fuel with
  | zero =>
    refine ⟨fun mode exp input k _ _ _ h => ?_, fun mode body done k _ _ _ h => ?_⟩
    · cases h
    · cases h
  | succ fuel ih =>
    obtain ⟨hresult, hmore⟩ := ih
    refine ⟨fun mode exp input n hmode hleaves henough h => ?_,
      fun mode body done n hmode hleaves henough h => ?_⟩
    · -- an atomic rule is described by its text, whatever its body is made of
      by_cases hatomic : ∃ name, exp = .rule name ∧ (L.grammar.define name).kind = .atomic
      · obtain ⟨name, rfl, hkind⟩ := hatomic
        exact d.leaf name input n hleaves hkind ((m.settles henough h).spaced hkind hmode)
      cases Grammar.made h with
      | text _ | char _ | atEnd _ | without _ => exact .nil rfl
      | optNone _ => exact .nil (.inl rfl)
      | manyNone _ => exact .nil .nil
      | @rule name k hbody =>
        have hkind : (L.grammar.define name).kind ≠ .atomic := fun hkind => hatomic ⟨name, rfl, hkind⟩
        exact has_rule hmode hkind
          (hresult _ _ _ _ (inner_ne_atomic hkind hmode) (d.leaves name hleaves hkind) henough.rule hbody)
      | seq hk hl =>
        simp only [Exp.leavesOnly, Bool.and_eq_true] at hleaves
        have hfirst := hresult _ _ _ _ hmode hleaves.1 henough.seq_first hk
        have hsecond := hresult _ _ _ _ hmode hleaves.2 (henough.seq_second hk) hl
        exact hfirst.append hsecond
      | left hk =>
        simp only [Exp.leavesOnly, Bool.and_eq_true] at hleaves
        exact (hresult _ _ _ _ hmode hleaves.1 henough.left hk).mono fun _ => .inl
      | right _ hk =>
        simp only [Exp.leavesOnly, Bool.and_eq_true] at hleaves
        exact (hresult _ _ _ _ hmode hleaves.2 henough.right hk).mono fun _ => .inr
      | @opt body _ hk => exact (hresult _ body _ _ hmode hleaves henough.opt hk).mono fun _ => .inr
      | @many body _ _ hk h =>
        have hfirst := hresult _ body _ _ hmode hleaves henough.many hk
        obtain ⟨trees, htrees, hrest⟩ := hmore _ body _ _ hmode hleaves (henough.rounds hk) h
        rw [htrees]
        exact (hfirst.append hrest).mono fun _ ⟨_, _, hsplit, hP, hQ⟩ => hsplit ▸ .cons hP hQ
    · cases Grammar.madeRounds h with
      | stop _ => exact ⟨[], by rw [List.append_nil], .nil .nil⟩
      | @more k _ hk h =>
        have hfirst := hresult _ _ _ _ hmode hleaves henough.round hk
        obtain ⟨trees, htrees, hrest⟩ := hmore _ _ _ _ hmode hleaves (henough.more hk) h
        refine ⟨k.trees ++ trees, by rw [htrees, List.append_assoc], ?_⟩
        exact (hfirst.append hrest).mono fun _ ⟨_, _, hsplit, hP, hQ⟩ => hsplit ▸ .cons hP hQ

/-! ## Whole texts -/

variable {name : ρ}

/-- **What is accepted is parsed, and what is parsed has a value** as it is described. -/
theorem parse_of_accepts (m : L.grammar.Measured) (hlimit : m.limit ≤ L.grammar.size + 4)
    (hrank : m.rank name < L.grammar.size + 4) (hused : d.used name = true)
    (hone : ∀ values, d.describe name values → values.length = 1) {source : String}
    (h : L.grammar.Accepts name source) :
    ∃ tree value, L.grammar.parse name source = .ok tree ∧ tree.fold L.leaf L.node = .ok value ∧
      d.describe name [value] := by
  obtain ⟨k, enough, hk⟩ := h
  have hmatch := hk (max enough ((L.grammar.size + 4) * (source.toList.length + 2))) (by omega)
  have henough := m.enough_parse name source hlimit hrank (Nat.le_max_right enough _)
  obtain ⟨values, hfold, hvalues⟩ := (has_result m _).1 _ (.rule name) _ _ (by decide) hused henough hmatch
  obtain ⟨value, rfl⟩ := List.length_eq_one_iff.mp (hone values hvalues)
  obtain ⟨trees, rest⟩ := k
  obtain ⟨tree, rfl⟩ := List.length_eq_one_iff.mp (Tree.length_foldAll hfold)
  refine ⟨tree, value, m.parse_eq_ok hlimit hrank (by omega) hmatch, ?_, hvalues⟩
  rw [Tree.foldAll, Tree.foldAll] at hfold
  rcases htree : tree.fold L.leaf L.node with e | found
  · simp [htree] at hfold
  · simp only [htree, Except.ok.injEq, List.cons.injEq, and_true] at hfold
    rw [hfold]

end Described

end Language

/-- A text that is parsed is accepted. -/
theorem Grammar.accepts_of_parse {g : Grammar ρ} (m : g.Measured) {name : ρ} {source : String}
    {tree : Tree ρ} (hlimit : m.limit ≤ g.size + 4) (hrank : m.rank name < g.size + 4)
    (h : g.parse name source = .ok tree) : g.Accepts name source := by
  unfold Grammar.parse at h
  dsimp only at h
  split at h
  · next furthest found rest hrun =>
    have henough := m.enough_parse name source hlimit hrank (Nat.le_refl _)
    exact ⟨⟨[found], rest⟩, m.settles henough (congrArg Prod.snd hrun)⟩
  · cases h

end DurableFlow.Text.Peg
