/-
What a match leaves, without the account of failures.

A match of an expression notes on the way how far a rule has failed, for messages. It
changes no result, so here a match is what it leaves, and each kind of expression has
one equation for that.
-/
import DurableFlow.Text.Peg

set_option autoImplicit false

namespace DurableFlow.Text.Peg

variable {ρ : Type}

/-- Two outcomes with one result. -/
theorem outcomes_of_snd {a b : Pos × Option (Match ρ)} (h : a.2 = b.2) :
    (∃ x y, a = (x, none) ∧ b = (y, none)) ∨ ∃ x y k, a = (x, some k) ∧ b = (y, some k) := by
  obtain ⟨x, _ | k⟩ := a
  · exact .inl ⟨x, b.1, rfl, Prod.ext rfl h.symm⟩
  · exact .inr ⟨x, b.1, k, rfl, Prod.ext rfl h.symm⟩

namespace Grammar

variable (g : Grammar ρ)

mutual

/-- **The furthest failure changes no result.** -/
theorem snd_run_congr (fuel : Nat) (mode : Mode) (exp : Exp ρ) (input : Input) (p q : Pos) :
    (g.run fuel mode exp input p).2 = (g.run fuel mode exp input q).2 := by
  match fuel with
  | 0 => rfl
  | fuel + 1 =>
    cases exp with
    | text word => rfl
    | char accept => rfl
    | atEnd => rfl
    | rule name =>
      simp only [run]
      rcases outcomes_of_snd (snd_run_congr fuel ((g.define name).kind.inner mode) (g.define name).body input p q)
        with ⟨x, y, hp, hq⟩ | ⟨x, y, k, hp, hq⟩
      · rw [hp, hq]
      · rw [hp, hq]
    | seq first second =>
      simp only [run]
      rcases outcomes_of_snd (snd_run_congr fuel mode first input p q) with ⟨x, y, hp, hq⟩ | ⟨x, y, k, hp, hq⟩
      · rw [hp, hq]
      · simp only [hp, hq]
        rcases outcomes_of_snd (snd_run_congr fuel mode second (g.skip fuel mode k.input) x y) with
          ⟨x', y', hp, hq⟩ | ⟨x', y', l, hp, hq⟩
        · rw [hp, hq]
        · rw [hp, hq]
    | alt first second =>
      simp only [run]
      rcases outcomes_of_snd (snd_run_congr fuel mode first input p q) with ⟨x, y, hp, hq⟩ | ⟨x, y, k, hp, hq⟩
      · rw [hp, hq]
        exact snd_run_congr fuel mode second input x y
      · rw [hp, hq]
    | many body =>
      simp only [run]
      rcases outcomes_of_snd (snd_run_congr fuel mode body input p q) with ⟨x, y, hp, hq⟩ | ⟨x, y, k, hp, hq⟩
      · rw [hp, hq]
      · rw [hp, hq]
        exact snd_rounds_congr fuel mode body k x y
    | opt body =>
      simp only [run]
      rcases outcomes_of_snd (snd_run_congr fuel mode body input p q) with ⟨x, y, hp, hq⟩ | ⟨x, y, k, hp, hq⟩
      · rw [hp, hq]
      · rw [hp, hq]
    | without body =>
      simp only [run]
      rcases outcomes_of_snd (snd_run_congr fuel mode body input p q) with ⟨x, y, hp, hq⟩ | ⟨x, y, k, hp, hq⟩
      · rw [hp, hq]
      · rw [hp, hq]

theorem snd_rounds_congr (fuel : Nat) (mode : Mode) (body : Exp ρ) (done : Match ρ) (p q : Pos) :
    (g.rounds fuel mode body done p).2 = (g.rounds fuel mode body done q).2 := by
  match fuel with
  | 0 => rfl
  | fuel + 1 =>
    simp only [rounds]
    rcases outcomes_of_snd (snd_run_congr fuel mode body (g.skip fuel mode done.input) p q) with
      ⟨x, y, hp, hq⟩ | ⟨x, y, k, hp, hq⟩
    · rw [hp, hq]
    · rw [hp, hq]
      exact snd_rounds_congr fuel mode body _ x y

end

/-- What a match leaves, whatever failed on the way. -/
def result (fuel : Nat) (mode : Mode) (exp : Exp ρ) (input : Input) : Option (Match ρ) :=
  (g.run fuel mode exp input {}).2

/-- What further rounds leave. -/
def moreRounds (fuel : Nat) (mode : Mode) (body : Exp ρ) (done : Match ρ) : Option (Match ρ) :=
  (g.rounds fuel mode body done {}).2

/-- From whatever failure a match starts, it leaves the same. -/
theorem snd_run (fuel : Nat) (mode : Mode) (exp : Exp ρ) (input : Input) (p : Pos) :
    (g.run fuel mode exp input p).2 = g.result fuel mode exp input :=
  g.snd_run_congr fuel mode exp input p {}

theorem snd_rounds (fuel : Nat) (mode : Mode) (body : Exp ρ) (done : Match ρ) (p : Pos) :
    (g.rounds fuel mode body done p).2 = g.moreRounds fuel mode body done :=
  g.snd_rounds_congr fuel mode body done p {}

/-! ### What each expression does -/

variable (fuel : Nat) (mode : Mode) (input : Input)

theorem result_text (word : List Char) : g.result (fuel + 1) mode (.text word) input =
    (input.dropWord word).map fun rest => ⟨[], rest⟩ := rfl

theorem result_char (accept : Char → Bool) : g.result (fuel + 1) mode (.char accept) input =
    (input.dropChar accept).map fun rest => ⟨[], rest⟩ := rfl

theorem result_atEnd : g.result (fuel + 1) mode .atEnd input =
    if input.rest.isEmpty then some ⟨[], input⟩ else none := rfl

/-- A rule is its body in the mode that the rule asks for, with a tree for what was matched if the rule
makes one. -/
theorem result_rule (name : ρ) : g.result (fuel + 1) mode (.rule name) input =
    (g.result fuel ((g.define name).kind.inner mode) (g.define name).body input).map fun k =>
      ⟨(g.define name).kind.trees mode name input k, k.input⟩ := by
  simp only [result, run]
  rcases g.run fuel ((g.define name).kind.inner mode) (g.define name).body input {} with ⟨x, _ | k⟩
  · rfl
  · rfl

/-- The second part is matched behind the blanks that follow the first. -/
theorem result_seq (first second : Exp ρ) : g.result (fuel + 1) mode (.seq first second) input =
    (g.result fuel mode first input).bind fun k =>
      (g.result fuel mode second (g.skip fuel mode k.input)).map fun l => ⟨k.trees ++ l.trees, l.input⟩ := by
  simp only [result, run]
  rcases g.run fuel mode first input {} with ⟨x, _ | k⟩
  · rfl
  · simp only [Option.bind_some]
    rw [← result, ← g.snd_run fuel mode second _ x]
    rcases g.run fuel mode second (g.skip fuel mode k.input) x with ⟨y, _ | l⟩
    · rfl
    · rfl

/-- The second alternative is matched only where the first fails, and from the same place. -/
theorem result_alt (first second : Exp ρ) : g.result (fuel + 1) mode (.alt first second) input =
    (g.result fuel mode first input).or (g.result fuel mode second input) := by
  simp only [result, run]
  rcases g.run fuel mode first input {} with ⟨x, _ | k⟩
  · exact g.snd_run fuel mode second input x
  · rfl

theorem result_opt (body : Exp ρ) : g.result (fuel + 1) mode (.opt body) input =
    (g.result fuel mode body input).or (some ⟨[], input⟩) := by
  simp only [result, run]
  rcases g.run fuel mode body input {} with ⟨x, _ | k⟩
  · rfl
  · rfl

theorem result_without (body : Exp ρ) : g.result (fuel + 1) mode (.without body) input =
    (g.result fuel mode body input).elim (some ⟨[], input⟩) fun _ => none := by
  simp only [result, run]
  rcases g.run fuel mode body input {} with ⟨x, _ | k⟩
  · rfl
  · rfl

/-- A repetition that matches nothing succeeds where it stands. -/
theorem result_many (body : Exp ρ) : g.result (fuel + 1) mode (.many body) input =
    ((g.result fuel mode body input).map (g.moreRounds fuel mode body)).getD (some ⟨[], input⟩) := by
  simp only [result, run]
  rcases g.run fuel mode body input {} with ⟨x, _ | k⟩
  · rfl
  · exact g.snd_rounds fuel mode body k x

/-- A round that fails gives back the blanks that were skipped for it. -/
theorem moreRounds_succ (body : Exp ρ) (done : Match ρ) : g.moreRounds (fuel + 1) mode body done =
    ((g.result fuel mode body (g.skip fuel mode done.input)).map fun k =>
      g.moreRounds fuel mode body ⟨done.trees ++ k.trees, k.input⟩).getD (some done) := by
  simp only [moreRounds, result, rounds]
  rcases g.run fuel mode body (g.skip fuel mode done.input) {} with ⟨x, _ | k⟩
  · rfl
  · exact g.snd_rounds fuel mode body _ x

/-- Blanks that fail are no blanks. -/
theorem skip_spaced : g.skip (fuel + 1) .spaced input =
    ((g.result fuel .atomic g.blanks input).map Match.input).getD input := by
  simp only [result, skip]
  rcases g.run fuel .atomic g.blanks input {} with ⟨x, _ | k⟩
  · rfl
  · rfl

theorem skip_compound : g.skip fuel .compound input = input := by
  cases fuel <;> rfl

theorem skip_atomic : g.skip fuel .atomic input = input := by
  cases fuel <;> rfl

/-! ### The ways to match -/

/-- **The ways in which an expression matches**, from what its parts match on one unit of fuel less. -/
inductive Made (g : Grammar ρ) (fuel : Nat) (mode : Mode) (input : Input) : Exp ρ → Match ρ → Prop
  | text {word : List Char} {rest : Input} (drop : input.dropWord word = some rest) :
    Made g fuel mode input (.text word) ⟨[], rest⟩
  | char {accept : Char → Bool} {rest : Input} (drop : input.dropChar accept = some rest) :
    Made g fuel mode input (.char accept) ⟨[], rest⟩
  | atEnd (ended : input.rest.isEmpty = true) : Made g fuel mode input .atEnd ⟨[], input⟩
  | rule {name : ρ} {k : Match ρ}
    (body : g.result fuel ((g.define name).kind.inner mode) (g.define name).body input = some k) :
    Made g fuel mode input (.rule name) ⟨(g.define name).kind.trees mode name input k, k.input⟩
  | seq {first second : Exp ρ} {k l : Match ρ} (left : g.result fuel mode first input = some k)
    (right : g.result fuel mode second (g.skip fuel mode k.input) = some l) :
    Made g fuel mode input (.seq first second) ⟨k.trees ++ l.trees, l.input⟩
  | left {first second : Exp ρ} {k : Match ρ} (left : g.result fuel mode first input = some k) :
    Made g fuel mode input (.alt first second) k
  | right {first second : Exp ρ} {k : Match ρ} (left : g.result fuel mode first input = none)
    (right : g.result fuel mode second input = some k) : Made g fuel mode input (.alt first second) k
  | opt {body : Exp ρ} {k : Match ρ} (one : g.result fuel mode body input = some k) :
    Made g fuel mode input (.opt body) k
  | optNone {body : Exp ρ} (none : g.result fuel mode body input = none) :
    Made g fuel mode input (.opt body) ⟨[], input⟩
  | many {body : Exp ρ} {k n : Match ρ} (one : g.result fuel mode body input = some k)
    (more : g.moreRounds fuel mode body k = some n) : Made g fuel mode input (.many body) n
  | manyNone {body : Exp ρ} (none : g.result fuel mode body input = none) :
    Made g fuel mode input (.many body) ⟨[], input⟩
  | without {body : Exp ρ} (none : g.result fuel mode body input = none) :
    Made g fuel mode input (.without body) ⟨[], input⟩

/-- **The ways in which further rounds go.** -/
inductive MadeRounds (g : Grammar ρ) (fuel : Nat) (mode : Mode) (body : Exp ρ) (done : Match ρ) : Match ρ → Prop
  | stop (none : g.result fuel mode body (g.skip fuel mode done.input) = none) :
    MadeRounds g fuel mode body done done
  | more {k n : Match ρ} (one : g.result fuel mode body (g.skip fuel mode done.input) = some k)
    (more : g.moreRounds fuel mode body ⟨done.trees ++ k.trees, k.input⟩ = some n) :
    MadeRounds g fuel mode body done n

variable {g fuel mode input}

/-- **A match is made in one of the ways.** -/
theorem made {exp : Exp ρ} {n : Match ρ} (h : g.result (fuel + 1) mode exp input = some n) :
    g.Made fuel mode input exp n := by
  cases exp with
  | text word =>
    rw [result_text, Option.map_eq_some_iff] at h
    obtain ⟨rest, hdrop, rfl⟩ := h
    exact .text hdrop
  | char accept =>
    rw [result_char, Option.map_eq_some_iff] at h
    obtain ⟨rest, hdrop, rfl⟩ := h
    exact .char hdrop
  | atEnd =>
    rw [result_atEnd, Option.ite_none_right_eq_some] at h
    obtain ⟨hended, hsame⟩ := h
    obtain rfl := Option.some.inj hsame
    exact .atEnd hended
  | rule name =>
    rw [result_rule, Option.map_eq_some_iff] at h
    obtain ⟨k, hbody, rfl⟩ := h
    exact .rule hbody
  | seq first second =>
    simp only [result_seq, Option.bind_eq_some_iff, Option.map_eq_some_iff] at h
    obtain ⟨k, hfirst, l, hsecond, rfl⟩ := h
    exact .seq hfirst hsecond
  | alt first second =>
    rw [result_alt, Option.or_eq_some_iff] at h
    rcases h with hfirst | ⟨hnone, hsecond⟩
    · exact .left hfirst
    · exact .right hnone hsecond
  | opt body =>
    rw [result_opt, Option.or_eq_some_iff] at h
    rcases h with hone | ⟨hnone, hsame⟩
    · exact .opt hone
    · obtain rfl := Option.some.inj hsame
      exact .optNone hnone
  | many body =>
    rw [result_many] at h
    cases hone : g.result fuel mode body input with
    | none =>
      rw [hone] at h
      obtain rfl := Option.some.inj h
      exact .manyNone hone
    | some k =>
      rw [hone] at h
      exact .many hone h
  | without body =>
    rw [result_without] at h
    cases hone : g.result fuel mode body input with
    | none =>
      rw [hone] at h
      obtain rfl := Option.some.inj h
      exact .without hone
    | some k =>
      rw [hone] at h
      cases h

/-- **Further rounds go in one of the ways.** -/
theorem madeRounds {body : Exp ρ} {done n : Match ρ} (h : g.moreRounds (fuel + 1) mode body done = some n) :
    g.MadeRounds fuel mode body done n := by
  rw [moreRounds_succ] at h
  cases hone : g.result fuel mode body (g.skip fuel mode done.input) with
  | none =>
    rw [hone] at h
    obtain rfl := Option.some.inj h
    exact .stop hone
  | some k =>
    rw [hone] at h
    exact .more hone h

/-- Skipping moves along blanks that match, or not at all. -/
theorem skip_cases (g : Grammar ρ) (fuel : Nat) (mode : Mode) (input : Input) :
    g.skip (fuel + 1) mode input = input ∨
      ∃ k, g.result fuel .atomic g.blanks input = some k ∧ g.skip (fuel + 1) mode input = k.input := by
  cases mode with
  | spaced =>
    rw [skip_spaced]
    cases hblanks : g.result fuel .atomic g.blanks input with
    | none => exact .inl rfl
    | some k => exact .inr ⟨k, rfl, rfl⟩
  | compound => exact .inl (g.skip_compound _ input)
  | atomic => exact .inl (g.skip_atomic _ input)

end Grammar

end DurableFlow.Text.Peg
