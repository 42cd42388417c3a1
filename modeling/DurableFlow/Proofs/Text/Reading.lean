/-
Reading texts by a grammar.

A grammar together with what its trees stand for is a language. An expression of it
reads a text up to a rest when from some fuel on, wherever the text stands, it
consumes what is in front of the rest and leaves trees with values of some
description; it refuses a text when from some fuel on it fails everywhere. Fuel
and places are thereby out of sight: there is one rule for each way in which each
kind of expression reads or refuses, and what the rules say of a whole text is
true of the parser, since its fuel is enough.
-/
import DurableFlow.Proofs.Text.Fuel

set_option autoImplicit false

namespace DurableFlow.Text.Peg

/-- A grammar with what its trees stand for. -/
structure Language (ρ ε α : Type) where
  grammar : Grammar ρ
  leaf : ρ → Span → String → Except ε α
  node : ρ → Span → List α → Except ε α

variable {ρ ε α : Type}

/-! ## Descriptions of values -/

/-- There are no values. -/
def Silent (values : List α) : Prop := values = []

/-- Values of one description and behind them values of another. -/
def Then (P Q : List α → Prop) (values : List α) : Prop :=
  ∃ us vs, values = us ++ vs ∧ P us ∧ Q vs

theorem Then.of_silent {Q : List α → Prop} {values : List α} (h : Then Silent Q values) : Q values := by
  obtain ⟨us, vs, rfl, rfl, hQ⟩ := h
  exact hQ

theorem Then.silent {P : List α → Prop} {values : List α} (h : Then P Silent values) : P values := by
  obtain ⟨us, vs, rfl, hP, rfl⟩ := h
  rw [List.append_nil]
  exact hP

/-- The values of two rows of trees, one behind the other. -/
theorem Tree.foldAll_append {leaf : ρ → Span → String → Except ε α}
    {node : ρ → Span → List α → Except ε α} {left right : List (Tree ρ)} {us vs : List α}
    (hleft : Tree.foldAll leaf node left = .ok us) (hright : Tree.foldAll leaf node right = .ok vs) :
    Tree.foldAll leaf node (left ++ right) = .ok (us ++ vs) := by
  induction left generalizing us with
  | nil =>
    rw [Tree.foldAll] at hleft
    obtain rfl : [] = us := Except.ok.inj hleft
    exact hright
  | cons tree trees ih =>
    rw [Tree.foldAll] at hleft
    rw [List.cons_append, Tree.foldAll]
    rcases htree : Tree.fold leaf node tree with e | value
    · simp [htree] at hleft
    · rcases htrees : Tree.foldAll leaf node trees with e | values
      · simp [htree, htrees] at hleft
      · simp only [htree, htrees, Except.ok.injEq] at hleft
        rw [ih htrees, ← hleft]
        rfl

theorem Tree.length_foldAll {leaf : ρ → Span → String → Except ε α}
    {node : ρ → Span → List α → Except ε α} {trees : List (Tree ρ)} {values : List α}
    (h : Tree.foldAll leaf node trees = .ok values) : trees.length = values.length := by
  induction trees generalizing values with
  | nil =>
    rw [Tree.foldAll] at h
    rw [← Except.ok.inj h]
    rfl
  | cons tree trees ih =>
    rw [Tree.foldAll] at h
    rcases htree : Tree.fold leaf node tree with e | value
    · simp [htree] at h
    · rcases htrees : Tree.foldAll leaf node trees with e | others
      · simp [htree, htrees] at h
      · simp only [htree, htrees, Except.ok.injEq] at h
        rw [← h, List.length_cons, List.length_cons, ih htrees]

namespace Language

variable (L : Language ρ ε α) (mode : Mode)

/-! ## Reading and refusing -/

/-- **An expression reads a text up to a rest** and leaves values of some description. -/
def Reads (exp : Exp ρ) (cs rest : List Char) (P : List α → Prop) : Prop :=
  ∃ enough, ∀ fuel, enough ≤ fuel → ∀ pos, ∃ trees pos' values,
    L.grammar.result fuel mode exp ⟨cs, pos⟩ = some ⟨trees, ⟨rest, pos'⟩⟩ ∧
      Tree.foldAll L.leaf L.node trees = .ok values ∧ P values

/-- **An expression refuses a text.** -/
def Refuses (exp : Exp ρ) (cs : List Char) : Prop :=
  ∃ enough, ∀ fuel, enough ≤ fuel → ∀ pos, L.grammar.result fuel mode exp ⟨cs, pos⟩ = none

/-- Between two parts a text is skipped up to a rest. -/
def Skips (cs rest : List Char) : Prop :=
  ∃ enough, ∀ fuel, enough ≤ fuel → ∀ pos, ∃ pos', L.grammar.skip fuel mode ⟨cs, pos⟩ = ⟨rest, pos'⟩

/-- After a round, further rounds read a text up to a rest. -/
def ReadsOn (body : Exp ρ) (cs rest : List Char) (P : List α → Prop) : Prop :=
  ∃ enough, ∀ fuel, enough ≤ fuel → ∀ pos done, ∃ trees pos' values,
    L.grammar.moreRounds fuel mode body ⟨done, ⟨cs, pos⟩⟩ = some ⟨done ++ trees, ⟨rest, pos'⟩⟩ ∧
      Tree.foldAll L.leaf L.node trees = .ok values ∧ P values

variable {L mode} {P Q : List α → Prop} {cs mid later rest : List Char} {exp first second body : Exp ρ}

/-- What was read may be described more loosely. -/
theorem Reads.mono (h : L.Reads mode exp cs rest P) (hPQ : ∀ values, P values → Q values) :
    L.Reads mode exp cs rest Q := by
  obtain ⟨enough, h⟩ := h
  refine ⟨enough, fun fuel hfuel pos => ?_⟩
  obtain ⟨trees, pos', values, hresult, hfold, hP⟩ := h fuel hfuel pos
  exact ⟨trees, pos', values, hresult, hfold, hPQ values hP⟩

theorem ReadsOn.mono (h : L.ReadsOn mode body cs rest P) (hPQ : ∀ values, P values → Q values) :
    L.ReadsOn mode body cs rest Q := by
  obtain ⟨enough, h⟩ := h
  refine ⟨enough, fun fuel hfuel pos done => ?_⟩
  obtain ⟨trees, pos', values, hresult, hfold, hP⟩ := h fuel hfuel pos done
  exact ⟨trees, pos', values, hresult, hfold, hPQ values hP⟩

/-- From some fuel on there is a unit for the expression itself. -/
theorem exists_succ {enough fuel : Nat} (h : enough + 1 ≤ fuel) : ∃ n, fuel = n + 1 ∧ enough ≤ n :=
  ⟨fuel - 1, by omega, by omega⟩

/-! ### Words and characters -/

/-- A word that stands in front is dropped, and the place behind it is some place. -/
theorem dropWord_append (word rest : List Char) (pos : Pos) :
    ∃ pos', Input.dropWord word ⟨word ++ rest, pos⟩ = some ⟨rest, pos'⟩ := by
  induction word generalizing pos with
  | nil => exact ⟨pos, rfl⟩
  | cons c word ih =>
    obtain ⟨pos', hdrop⟩ := ih (pos.next c)
    exact ⟨pos', by rw [List.cons_append, Input.dropWord, if_pos rfl, hdrop]⟩

/-- Only a word that stands in front can be dropped. -/
theorem dropWord_eq_none {word cs : List Char} (h : ¬ word <+: cs) (pos : Pos) :
    Input.dropWord word ⟨cs, pos⟩ = none := by
  -- the first character that differs decides, wherever it stands
  induction word generalizing cs pos with
  | nil => exact absurd List.nil_prefix h
  | cons c word ih =>
    obtain _ | ⟨d, cs⟩ := cs
    · rfl
    · rw [Input.dropWord]
      split
      · next heq =>
        subst heq
        refine ih (fun hword => h ?_) _
        exact (List.cons_prefix_cons).mpr ⟨rfl, hword⟩
      · rfl

/-- A word is read where it stands. -/
theorem Reads.text (word rest : List Char) : L.Reads mode (.text word) (word ++ rest) rest Silent := by
  refine ⟨0 + 1, fun fuel hfuel pos => ?_⟩
  obtain ⟨n, rfl, -⟩ := exists_succ hfuel
  obtain ⟨pos', hdrop⟩ := dropWord_append word rest pos
  exact ⟨[], pos', [], by rw [Grammar.result_text, hdrop]; rfl, by rw [Tree.foldAll], rfl⟩

/-- A word refuses a text that starts otherwise. -/
theorem Refuses.text {word : List Char} (h : ¬ word <+: cs) : L.Refuses mode (.text word) cs := by
  refine ⟨0 + 1, fun fuel hfuel pos => ?_⟩
  obtain ⟨n, rfl, -⟩ := exists_succ hfuel
  rw [Grammar.result_text, dropWord_eq_none h pos]
  rfl

theorem Reads.char {accept : Char → Bool} {c : Char} (h : accept c = true) :
    L.Reads mode (.char accept) (c :: rest) rest Silent := by
  refine ⟨0 + 1, fun fuel hfuel pos => ?_⟩
  obtain ⟨n, rfl, -⟩ := exists_succ hfuel
  refine ⟨[], pos.next c, [], ?_, by rw [Tree.foldAll], rfl⟩
  rw [Grammar.result_char, Input.dropChar, if_pos h]
  rfl

/-- A class of characters refuses a text that starts with none of them. -/
theorem Refuses.char {accept : Char → Bool} (h : ∀ c ∈ cs.head?, accept c = false) :
    L.Refuses mode (.char accept) cs := by
  refine ⟨0 + 1, fun fuel hfuel pos => ?_⟩
  obtain ⟨n, rfl, -⟩ := exists_succ hfuel
  rw [Grammar.result_char]
  obtain _ | ⟨c, cs⟩ := cs
  · rfl
  · rw [Input.dropChar, if_neg (by rw [h c rfl]; exact Bool.false_ne_true)]
    rfl

/-- The end is read where nothing is left. -/
theorem Reads.atEnd : L.Reads mode .atEnd [] [] Silent := by
  refine ⟨0 + 1, fun fuel hfuel pos => ?_⟩
  obtain ⟨n, rfl, -⟩ := exists_succ hfuel
  exact ⟨[], pos, [], by rw [Grammar.result_atEnd]; rfl, by rw [Tree.foldAll], rfl⟩

/-! ### One part after the other -/

theorem Skips.of_atomic (cs : List Char) : L.Skips .atomic cs cs :=
  ⟨0, fun _ _ pos => ⟨pos, Grammar.skip_atomic ..⟩⟩

theorem Skips.of_compound (cs : List Char) : L.Skips .compound cs cs :=
  ⟨0, fun _ _ pos => ⟨pos, Grammar.skip_compound ..⟩⟩

/-- What is skipped is what blanks read. -/
theorem Skips.of_blanks (h : L.Reads .atomic L.grammar.blanks cs rest P) : L.Skips .spaced cs rest := by
  obtain ⟨a, h⟩ := h
  refine ⟨a + 1, fun fuel hfuel pos => ?_⟩
  obtain ⟨n, rfl, hn⟩ := exists_succ hfuel
  obtain ⟨trees, p, values, hresult, -⟩ := h n hn pos
  refine ⟨p, ?_⟩
  rw [Grammar.skip_spaced, hresult]
  rfl

/-- **One part after the other.** In between, what may be skipped is. -/
theorem Reads.seq (hfirst : L.Reads mode first cs mid P) (hskip : L.Skips mode mid later)
    (hsecond : L.Reads mode second later rest Q) :
    L.Reads mode (.seq first second) cs rest (Then P Q) := by
  obtain ⟨a, hfirst⟩ := hfirst
  obtain ⟨b, hskip⟩ := hskip
  obtain ⟨c, hsecond⟩ := hsecond
  -- one unit for the sequence, and behind that enough for each of its three parts
  refine ⟨max a (max b c) + 1, fun fuel hfuel pos => ?_⟩
  obtain ⟨n, rfl, hn⟩ := exists_succ hfuel
  obtain ⟨ltrees, p, us, hl, hlfold, hP⟩ := hfirst n (by omega) pos
  obtain ⟨q, hq⟩ := hskip n (by omega) p
  obtain ⟨rtrees, r, vs, hr, hrfold, hQ⟩ := hsecond n (by omega) q
  refine ⟨ltrees ++ rtrees, r, us ++ vs, ?_, Tree.foldAll_append hlfold hrfold, us, vs, rfl, hP, hQ⟩
  rw [Grammar.result_seq, hl, Option.bind_some, hq, hr]
  rfl

/-- Two parts refuse a text that the first one refuses. -/
theorem Refuses.seq_left (h : L.Refuses mode first cs) : L.Refuses mode (.seq first second) cs := by
  obtain ⟨a, h⟩ := h
  refine ⟨a + 1, fun fuel hfuel pos => ?_⟩
  obtain ⟨n, rfl, hn⟩ := exists_succ hfuel
  rw [Grammar.result_seq, h n hn pos]
  rfl

/-- Two parts refuse a text when the second one refuses what the first one has left. -/
theorem Refuses.seq_right (hfirst : L.Reads mode first cs mid P) (hskip : L.Skips mode mid later)
    (hsecond : L.Refuses mode second later) : L.Refuses mode (.seq first second) cs := by
  obtain ⟨a, hfirst⟩ := hfirst
  obtain ⟨b, hskip⟩ := hskip
  obtain ⟨c, hsecond⟩ := hsecond
  refine ⟨max a (max b c) + 1, fun fuel hfuel pos => ?_⟩
  obtain ⟨n, rfl, hn⟩ := exists_succ hfuel
  obtain ⟨ltrees, p, us, hl, -, -⟩ := hfirst n (by omega) pos
  obtain ⟨q, hq⟩ := hskip n (by omega) p
  rw [Grammar.result_seq, hl, Option.bind_some, hq, hsecond n (by omega) q]
  rfl

/-- A part without values in front of another one. -/
theorem Reads.silent_seq (hfirst : L.Reads mode first cs mid Silent) (hskip : L.Skips mode mid later)
    (hsecond : L.Reads mode second later rest Q) : L.Reads mode (.seq first second) cs rest Q :=
  (hfirst.seq hskip hsecond).mono fun _ => Then.of_silent

/-- A part without values behind another one. -/
theorem Reads.seq_silent (hfirst : L.Reads mode first cs mid P) (hskip : L.Skips mode mid later)
    (hsecond : L.Reads mode second later rest Silent) : L.Reads mode (.seq first second) cs rest P :=
  (hfirst.seq hskip hsecond).mono fun _ => Then.silent

/-! ### Choices -/

/-- **The first choice is taken** where it reads the text. -/
theorem Reads.alt_left (h : L.Reads mode first cs rest P) : L.Reads mode (.alt first second) cs rest P := by
  obtain ⟨a, h⟩ := h
  refine ⟨a + 1, fun fuel hfuel pos => ?_⟩
  obtain ⟨n, rfl, hn⟩ := exists_succ hfuel
  obtain ⟨trees, p, values, hresult, hrest⟩ := h n hn pos
  exact ⟨trees, p, values, by rw [Grammar.result_alt, hresult, Option.some_or], hrest⟩

/-- The second choice is taken only where the first one refuses the text. -/
theorem Reads.alt_right (hfirst : L.Refuses mode first cs) (h : L.Reads mode second cs rest P) :
    L.Reads mode (.alt first second) cs rest P := by
  obtain ⟨a, hfirst⟩ := hfirst
  obtain ⟨b, h⟩ := h
  refine ⟨max a b + 1, fun fuel hfuel pos => ?_⟩
  obtain ⟨n, rfl, hn⟩ := exists_succ hfuel
  obtain ⟨trees, p, values, hresult, hrest⟩ := h n (by omega) pos
  refine ⟨trees, p, values, ?_, hrest⟩
  rw [Grammar.result_alt, hfirst n (by omega) pos, Option.none_or, hresult]

theorem Refuses.alt (hfirst : L.Refuses mode first cs) (hsecond : L.Refuses mode second cs) :
    L.Refuses mode (.alt first second) cs := by
  obtain ⟨a, hfirst⟩ := hfirst
  obtain ⟨b, hsecond⟩ := hsecond
  refine ⟨max a b + 1, fun fuel hfuel pos => ?_⟩
  obtain ⟨n, rfl, hn⟩ := exists_succ hfuel
  rw [Grammar.result_alt, hfirst n (by omega) pos, hsecond n (by omega) pos]
  rfl

theorem Reads.opt (h : L.Reads mode body cs rest P) : L.Reads mode (.opt body) cs rest P := by
  obtain ⟨a, h⟩ := h
  refine ⟨a + 1, fun fuel hfuel pos => ?_⟩
  obtain ⟨n, rfl, hn⟩ := exists_succ hfuel
  obtain ⟨trees, p, values, hresult, hrest⟩ := h n hn pos
  exact ⟨trees, p, values, by rw [Grammar.result_opt, hresult, Option.some_or], hrest⟩

/-- A part that may be missing is. -/
theorem Reads.opt_none (h : L.Refuses mode body cs) : L.Reads mode (.opt body) cs cs Silent := by
  obtain ⟨a, h⟩ := h
  refine ⟨a + 1, fun fuel hfuel pos => ?_⟩
  obtain ⟨n, rfl, hn⟩ := exists_succ hfuel
  refine ⟨[], pos, [], ?_, by rw [Tree.foldAll], rfl⟩
  rw [Grammar.result_opt, h n hn pos, Option.none_or]

/-- Where a part is refused, its absence is read, and nothing is consumed. -/
theorem Reads.without (h : L.Refuses mode body cs) : L.Reads mode (.without body) cs cs Silent := by
  obtain ⟨a, h⟩ := h
  refine ⟨a + 1, fun fuel hfuel pos => ?_⟩
  obtain ⟨n, rfl, hn⟩ := exists_succ hfuel
  refine ⟨[], pos, [], ?_, by rw [Tree.foldAll], rfl⟩
  rw [Grammar.result_without, h n hn pos]
  rfl

theorem Refuses.without (h : L.Reads mode body cs rest P) : L.Refuses mode (.without body) cs := by
  obtain ⟨a, h⟩ := h
  refine ⟨a + 1, fun fuel hfuel pos => ?_⟩
  obtain ⟨n, rfl, hn⟩ := exists_succ hfuel
  obtain ⟨trees, p, values, hresult, -⟩ := h n hn pos
  rw [Grammar.result_without, hresult]
  rfl

/-! ### Rounds -/

/-- The rounds stop where another one is refused, and what was skipped in front of it stays. -/
theorem ReadsOn.stop (hskip : L.Skips mode cs later) (h : L.Refuses mode body later) :
    L.ReadsOn mode body cs cs Silent := by
  obtain ⟨a, hskip⟩ := hskip
  obtain ⟨b, h⟩ := h
  refine ⟨max a b + 1, fun fuel hfuel pos done => ?_⟩
  obtain ⟨n, rfl, hn⟩ := exists_succ hfuel
  obtain ⟨q, hq⟩ := hskip n (by omega) pos
  -- the place is that in front of the blanks
  refine ⟨[], pos, [], ?_, by rw [Tree.foldAll], rfl⟩
  rw [Grammar.moreRounds_succ, hq, h n (by omega) q, List.append_nil]
  rfl

/-- **One more round**, and those behind it. -/
theorem ReadsOn.more (hskip : L.Skips mode cs later) (h : L.Reads mode body later mid P)
    (hmore : L.ReadsOn mode body mid rest Q) : L.ReadsOn mode body cs rest (Then P Q) := by
  obtain ⟨a, hskip⟩ := hskip
  obtain ⟨b, h⟩ := h
  obtain ⟨c, hmore⟩ := hmore
  refine ⟨max a (max b c) + 1, fun fuel hfuel pos done => ?_⟩
  obtain ⟨n, rfl, hn⟩ := exists_succ hfuel
  obtain ⟨q, hq⟩ := hskip n (by omega) pos
  obtain ⟨trees, p, us, hresult, hfold, hP⟩ := h n (by omega) q
  -- the rounds behind this one add to all trees that there are by then
  obtain ⟨more, r, vs, hrounds, hmorefold, hQ⟩ := hmore n (by omega) p (done ++ trees)
  refine ⟨trees ++ more, r, us ++ vs, ?_, Tree.foldAll_append hfold hmorefold, us, vs, rfl, hP, hQ⟩
  rw [Grammar.moreRounds_succ, hq, hresult, Option.map_some, Option.getD_some]
  dsimp only
  rw [hrounds, List.append_assoc]

/-- **A first round and further ones.** In front of the first one nothing is skipped. -/
theorem Reads.many (h : L.Reads mode body cs mid P) (hmore : L.ReadsOn mode body mid rest Q) :
    L.Reads mode (.many body) cs rest (Then P Q) := by
  obtain ⟨a, h⟩ := h
  obtain ⟨b, hmore⟩ := hmore
  refine ⟨max a b + 1, fun fuel hfuel pos => ?_⟩
  obtain ⟨n, rfl, hn⟩ := exists_succ hfuel
  obtain ⟨trees, p, us, hresult, hfold, hP⟩ := h n (by omega) pos
  obtain ⟨more, r, vs, hrounds, hmorefold, hQ⟩ := hmore n (by omega) p trees
  refine ⟨trees ++ more, r, us ++ vs, ?_, Tree.foldAll_append hfold hmorefold, us, vs, rfl, hP, hQ⟩
  rw [Grammar.result_many, hresult, Option.map_some, Option.getD_some, hrounds]

theorem Reads.many_none (h : L.Refuses mode body cs) : L.Reads mode (.many body) cs cs Silent := by
  obtain ⟨a, h⟩ := h
  refine ⟨a + 1, fun fuel hfuel pos => ?_⟩
  obtain ⟨n, rfl, hn⟩ := exists_succ hfuel
  refine ⟨[], pos, [], ?_, by rw [Tree.foldAll], rfl⟩
  rw [Grammar.result_many, h n hn pos]
  rfl

/-! ### Rules -/

variable {name : ρ}

/-- A rule refuses what its body refuses, whatever its kind. -/
theorem Refuses.rule
    (h : L.Refuses ((L.grammar.define name).kind.inner mode) (L.grammar.define name).body cs) :
    L.Refuses mode (.rule name) cs := by
  obtain ⟨a, h⟩ := h
  refine ⟨a + 1, fun fuel hfuel pos => ?_⟩
  obtain ⟨n, rfl, hn⟩ := exists_succ hfuel
  rw [Grammar.result_rule, h n hn pos]
  rfl

/-- A rule without a node of its own leaves what its body leaves. -/
theorem Reads.silent_rule (hkind : (L.grammar.define name).kind = .silent)
    (h : L.Reads mode (L.grammar.define name).body cs rest P) : L.Reads mode (.rule name) cs rest P := by
  obtain ⟨a, h⟩ := h
  refine ⟨a + 1, fun fuel hfuel pos => ?_⟩
  obtain ⟨n, rfl, hn⟩ := exists_succ hfuel
  obtain ⟨trees, p, values, hresult, hrest⟩ := h n hn pos
  refine ⟨trees, p, values, ?_, hrest⟩
  have hinner : RuleKind.silent.inner mode = mode := rfl
  rw [Grammar.result_rule, hkind, hinner, hresult, Option.map_some]
  cases mode <;> rfl

/-- Inside an atomic rule no rule has a node. -/
theorem Reads.atomic_rule (hkind : (L.grammar.define name).kind = .atomic)
    (h : L.Reads .atomic (L.grammar.define name).body cs rest P) : L.Reads .atomic (.rule name) cs rest P := by
  obtain ⟨a, h⟩ := h
  refine ⟨a + 1, fun fuel hfuel pos => ?_⟩
  obtain ⟨n, rfl, hn⟩ := exists_succ hfuel
  obtain ⟨trees, p, values, hresult, hrest⟩ := h n hn pos
  refine ⟨trees, p, values, ?_, hrest⟩
  have hinner : RuleKind.atomic.inner .atomic = .atomic := rfl
  rw [Grammar.result_rule, hkind, hinner, hresult]
  rfl

/-- **A rule with parts** has the value of its node. -/
theorem Reads.node (hkind : (L.grammar.define name).kind = .plain ∨ (L.grammar.define name).kind = .compound)
    (hmode : mode ≠ .atomic)
    (h : L.Reads ((L.grammar.define name).kind.inner mode) (L.grammar.define name).body cs rest P)
    (hvalue : ∀ span values, P values → ∃ value, L.node name span values = .ok value ∧ Q [value]) :
    L.Reads mode (.rule name) cs rest Q := by
  obtain ⟨a, h⟩ := h
  refine ⟨a + 1, fun fuel hfuel pos => ?_⟩
  obtain ⟨n, rfl, hn⟩ := exists_succ hfuel
  obtain ⟨trees, p, values, hresult, hfold, hP⟩ := h n hn pos
  obtain ⟨value, hnode, hQ⟩ := hvalue ⟨pos, p⟩ values hP
  refine ⟨[.node name ⟨pos, p⟩ trees], p, [value], ?_, ?_, hQ⟩
  · rw [Grammar.result_rule, hresult, Option.map_some]
    rcases hkind with hkind | hkind
    · rw [hkind]
      cases mode with
      | atomic => exact absurd rfl hmode
      | spaced => rfl
      | compound => rfl
    · rw [hkind]
      cases mode with
      | atomic => exact absurd rfl hmode
      | spaced => rfl
      | compound => rfl
  · simp only [Tree.foldAll, Tree.fold, hfold, hnode]

/-- The text of a node is what stands between the places. -/
theorem textUntil_append (word rest : List Char) (p q : Pos) :
    Input.textUntil ⟨word ++ rest, p⟩ ⟨rest, q⟩ = String.ofList word := by
  rw [Input.textUntil]
  dsimp only
  rw [List.length_append, Nat.add_sub_cancel, List.take_left]

/-- **An atomic rule** has the value of the text that it consumed. -/
theorem Reads.leaf {word : List Char} (hkind : (L.grammar.define name).kind = .atomic) (hmode : mode ≠ .atomic)
    (h : L.Reads .atomic (L.grammar.define name).body (word ++ rest) rest P)
    (hvalue : ∀ span, ∃ value, L.leaf name span (String.ofList word) = .ok value ∧ Q [value]) :
    L.Reads mode (.rule name) (word ++ rest) rest Q := by
  obtain ⟨a, h⟩ := h
  refine ⟨a + 1, fun fuel hfuel pos => ?_⟩
  obtain ⟨n, rfl, hn⟩ := exists_succ hfuel
  obtain ⟨trees, p, values, hresult, -, -⟩ := h n hn pos
  obtain ⟨value, hleaf, hQ⟩ := hvalue ⟨pos, p⟩
  -- the trees of the body are dropped: a leaf has its text alone
  refine ⟨[.leaf name ⟨pos, p⟩ (String.ofList word)], p, [value], ?_, ?_, hQ⟩
  · have hinner : RuleKind.atomic.inner mode = .atomic := rfl
    rw [Grammar.result_rule, hkind, hinner, hresult, Option.map_some]
    rw [← textUntil_append word rest pos p]
    cases mode with
    | atomic => exact absurd rfl hmode
    | spaced => rfl
    | compound => rfl
  · simp only [Tree.foldAll, Tree.fold, hleaf]

/-- **A row of rounds up to a rest**: each stands where it starts and is read up to the next one, and
behind the last one another is refused. -/
inductive Rounds (L : Language ρ ε α) (mode : Mode) (body : Exp ρ) (rest : List Char) :
    List Char → (List α → Prop) → Prop where
  | stop {P : List α → Prop} (hskip : L.Skips mode rest rest) (h : L.Refuses mode body rest) (hP : P []) :
    Rounds L mode body rest rest P
  | round {cs mid : List Char} {P Q R : List α → Prop} (hskip : L.Skips mode cs cs)
    (h : L.Reads mode body cs mid P) (hmore : Rounds L mode body rest mid Q)
    (hR : ∀ values, Then P Q values → R values) : Rounds L mode body rest cs R

theorem Rounds.readsOn (h : Rounds L mode body rest cs P) : L.ReadsOn mode body cs rest P := by
  induction h with
  | stop hskip h hP =>
    refine (ReadsOn.stop hskip h).mono ?_
    rintro values rfl
    exact hP
  | round hskip h _ hR ih => exact (ReadsOn.more hskip h ih).mono hR

/-- **A repetition reads a row of rounds.** -/
theorem Rounds.many (h : Rounds L mode body rest cs P) : L.Reads mode (.many body) cs rest P := by
  cases h with
  | stop hskip h hP =>
    refine (Reads.many_none h).mono ?_
    rintro values rfl
    exact hP
  | round hskip h hmore hR => exact (Reads.many h hmore.readsOn).mono hR

/-- A single round, behind which another one is refused. -/
theorem Rounds.one (hskip : L.Skips mode cs cs) (h : L.Reads mode body cs rest P)
    (hrest : L.Skips mode rest rest) (hstop : L.Refuses mode body rest) : Rounds L mode body rest cs P :=
  have hlast : Rounds L mode body rest rest Silent := .stop hrest hstop rfl
  .round hskip h hlast fun _ => Then.silent

/-- Without blanks in between, the texts of some items are read one by one. -/
theorem Reads.each {β : Type} {text : β → List Char} {items : List β}
    (hitem : ∀ item ∈ items, ∀ rest, L.Reads .atomic body (text item ++ rest) rest Silent)
    (hrest : L.Refuses .atomic body rest) :
    L.Reads .atomic (.many body) (items.flatMap text ++ rest) rest Silent := by
  refine Rounds.many ?_
  induction items with
  | nil => exact .stop (.of_atomic rest) hrest rfl
  | cons item items ih =>
    rw [List.flatMap_cons, List.append_assoc]
    refine .round (.of_atomic _) (hitem item List.mem_cons_self _) (ih fun other hother => ?_)
      fun _ => Then.of_silent
    exact hitem other (List.mem_cons_of_mem item hother)

/-- **A run of characters** of one class is read up to the first character of another one. -/
theorem Reads.chars {accept : Char → Bool} {word : List Char} (hword : ∀ c ∈ word, accept c = true)
    (hrest : ∀ c ∈ rest.head?, accept c = false) :
    L.Reads .atomic (.many (.char accept)) (word ++ rest) rest Silent := by
  have heach : L.Reads .atomic (.many (.char accept)) (word.flatMap (fun c => [c]) ++ rest) rest Silent :=
    .each (fun c hc rest => .char (hword c hc)) (.char hrest)
  rwa [List.flatMap_singleton'] at heach

/-! ## Parsing -/

/-- **What a rule reads to its end is parsed**, and the tree has the value that was read. -/
theorem Reads.parse (m : L.grammar.Measured) (hlimit : m.limit ≤ L.grammar.size + 4)
    (hrank : m.rank name < L.grammar.size + 4) {source : String}
    (h : L.Reads .spaced (.rule name) source.toList [] P) (hone : ∀ values, P values → values.length = 1) :
    ∃ tree value, L.grammar.parse name source = .ok tree ∧ tree.fold L.leaf L.node = .ok value ∧
      P [value] := by
  obtain ⟨enough, h⟩ := h
  obtain ⟨trees, pos, values, hresult, hfold, hP⟩ :=
    h (max enough ((L.grammar.size + 4) * (source.toList.length + 2))) (by omega) {}
  -- one value, so one tree, which is what the parser asks for
  have hlength := (Tree.length_foldAll hfold).trans (hone values hP)
  obtain ⟨tree, rfl⟩ := List.length_eq_one_iff.mp hlength
  obtain ⟨value, rfl⟩ := List.length_eq_one_iff.mp (hone values hP)
  refine ⟨tree, value, m.parse_eq_ok hlimit hrank (by omega) hresult, ?_, hP⟩
  rw [Tree.foldAll, Tree.foldAll] at hfold
  rcases htree : tree.fold L.leaf L.node with e | found
  · simp [htree] at hfold
  · simp only [htree, Except.ok.injEq, List.cons.injEq, and_true] at hfold
    rw [hfold]

end Language

end DurableFlow.Text.Peg
