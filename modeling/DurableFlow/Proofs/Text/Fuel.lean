/-
How much fuel a match takes.

A match runs on fuel, one unit for each step into an expression, and a match that
runs out of it fails like any other. Here a grammar is measured: which of its
expressions may match nothing, and how many of them are entered before something is
consumed. When these measures are finite, a match from a place takes at most so much
fuel for each character that is left, and with that much its result no longer
depends on the fuel: no text is refused because the fuel was short.

The measures are given rule by rule and checked once, by evaluation.
-/
import DurableFlow.Proofs.Text.Results

set_option autoImplicit false

namespace DurableFlow.Text.Peg

variable {ρ : Type}

/-! ## Measures of expressions -/

namespace Exp

/-- Whether an expression may match without consuming, where this is known of the rules. -/
def mayBeEmpty (empty : ρ → Bool) : Exp ρ → Bool
  | .text word => word.isEmpty
  | .char _ => false
  | .atEnd => true
  | .rule name => empty name
  | .seq first second => first.mayBeEmpty empty && second.mayBeEmpty empty
  | .alt first second => first.mayBeEmpty empty || second.mayBeEmpty empty
  | .many _ => true
  | .opt _ => true
  | .without _ => true

/-- How many expressions are entered one inside the other before something is consumed, where this
is known of the rules and of the blanks between two parts. -/
def depth (empty : ρ → Bool) (rank : ρ → Nat) (blanks : Nat) : Exp ρ → Nat
  | .text _ => 1
  | .char _ => 1
  | .atEnd => 1
  | .rule name => rank name + 1
  | .seq first second =>
    max (first.depth empty rank blanks)
      (if first.mayBeEmpty empty then max blanks (second.depth empty rank blanks) else 0) + 1
  | .alt first second => max (first.depth empty rank blanks) (second.depth empty rank blanks) + 1
  | .many body => body.depth empty rank blanks + 1
  | .opt body => body.depth empty rank blanks + 1
  | .without body => body.depth empty rank blanks + 1

/-- Whether all that is entered behind something consumed stays within a limit, and no round of a
repetition may match nothing. -/
def within (empty : ρ → Bool) (rank : ρ → Nat) (blanks limit : Nat) : Exp ρ → Bool
  | .text _ => true
  | .char _ => true
  | .atEnd => true
  | .rule _ => true
  | .seq first second =>
    first.within empty rank blanks limit && second.within empty rank blanks limit &&
      decide (second.depth empty rank blanks < limit)
  | .alt first second =>
    first.within empty rank blanks limit && second.within empty rank blanks limit
  | .many body =>
    body.within empty rank blanks limit && !body.mayBeEmpty empty &&
      decide (body.depth empty rank blanks < limit)
  | .opt body => body.within empty rank blanks limit
  | .without body => body.within empty rank blanks limit

-- what is known of an expression is known from its parts
attribute [simp] mayBeEmpty depth within

variable (empty : ρ → Bool) (rank : ρ → Nat) (blanks : Nat)

/-- To enter an expression takes a unit of fuel, whatever it is. -/
theorem depth_pos (exp : Exp ρ) : 0 < exp.depth empty rank blanks := by
  cases exp <;> simp [depth]

/-- Without blanks between the parts not more is entered. -/
theorem depth_zero_le (exp : Exp ρ) : exp.depth empty rank 0 ≤ exp.depth empty rank blanks := by
  induction exp with
  | seq first second hfirst hsecond =>
    simp only [depth]
    split <;> omega
  | alt first second hfirst hsecond =>
    simp only [depth]
    omega
  | many body ih | opt body ih | without body ih =>
    simp only [depth]
    omega
  | _ => exact Nat.le_refl _

end Exp

/-! ## Measures of grammars -/

namespace Grammar

/-- **The measures of a grammar.** A rule is measured by its body, and blanks are matched without
blanks between their own parts. -/
structure Measured (g : Grammar ρ) where
  /-- Which rules may match nothing. -/
  empty : ρ → Bool
  /-- How many expressions are entered inside a rule before something is consumed. -/
  rank : ρ → Nat
  /-- The fuel for skipping blanks at one place. -/
  blanks : Nat
  /-- The fuel for one character. -/
  limit : Nat
  empty_of_body : ∀ name, (g.define name).body.mayBeEmpty empty = true → empty name = true
  depth_body : ∀ name, (g.define name).body.depth empty rank blanks ≤ rank name
  body_within : ∀ name, (g.define name).body.within empty rank blanks limit = true
  blanks_within : g.blanks.within empty rank blanks limit = true
  depth_blanks : g.blanks.depth empty rank 0 < blanks
  blanks_lt : blanks < limit

variable {g : Grammar ρ} (m : g.Measured)

namespace Measured

/-- The fuel for the blanks between two parts. -/
def gap : Mode → Nat
  | .spaced => m.blanks
  | .compound => 0
  | .atomic => 0

/-- The fuel that an expression takes in front of so many characters. -/
def need (mode : Mode) (exp : Exp ρ) (length : Nat) : Nat :=
  m.limit * length + exp.depth m.empty m.rank (m.gap mode)

/-- Whether an expression keeps to the limit of the grammar. -/
def Fits (exp : Exp ρ) : Prop := exp.within m.empty m.rank m.blanks m.limit = true

/-- In no mode more blanks are skipped than in the one that skips them. -/
theorem gap_le (mode : Mode) : m.gap mode ≤ m.blanks := by
  cases mode with
  | spaced => exact Nat.le_refl _
  | compound => exact Nat.zero_le _
  | atomic => exact Nat.zero_le _

theorem depth_le (mode : Mode) (exp : Exp ρ) :
    exp.depth m.empty m.rank (m.gap mode) ≤ exp.depth m.empty m.rank m.blanks := by
  cases mode with
  | spaced => exact Nat.le_refl _
  | compound => exact exp.depth_zero_le ..
  | atomic => exact exp.depth_zero_le ..

end Measured

/-! ## What a match consumes -/

/-- A word consumes its characters. -/
theorem dropWord_length {word : List Char} {input rest : Input} (h : input.dropWord word = some rest) :
    input.rest.length = word.length + rest.rest.length := by
  induction word generalizing input with
  | nil =>
    obtain rfl : input = rest := Option.some.inj h
    simp
  | cons c word ih =>
    obtain ⟨_ | ⟨d, cs⟩, pos⟩ := input
    · cases h
    · unfold Input.dropWord at h
      split at h
      · have hrest := ih h
        simp only [List.length_cons] at hrest ⊢
        omega
      · cases h

/-- A character consumes one. -/
theorem dropChar_length {accept : Char → Bool} {input rest : Input}
    (h : input.dropChar accept = some rest) : input.rest.length = rest.rest.length + 1 := by
  obtain ⟨_ | ⟨c, cs⟩, pos⟩ := input
  · cases h
  · simp only [Input.dropChar] at h
    split at h
    · rw [← Option.some.inj h]
      simp
    · cases h

namespace Measured

/-- **What a match leaves of the input**: never more than there was, and less if it cannot be empty. -/
theorem consumes (fuel : Nat) :
    (∀ mode exp input k, g.result fuel mode exp input = some k →
      k.input.rest.length ≤ input.rest.length ∧
        (exp.mayBeEmpty m.empty = false → k.input.rest.length < input.rest.length)) ∧
    (∀ mode body done k, g.moreRounds fuel mode body done = some k →
      k.input.rest.length ≤ done.input.rest.length) ∧
    (∀ mode input, (g.skip fuel mode input).rest.length ≤ input.rest.length) := by
  induction fuel with
  | zero =>
    refine ⟨fun mode exp input k h => ?_, fun mode body done k h => ?_, fun mode input => ?_⟩
    · cases h
    · cases h
    · exact Nat.le_refl _
  | succ fuel ih =>
    obtain ⟨hresult, hmore, hskip⟩ := ih
    refine ⟨fun mode exp input n h => ?_, fun mode body done n h => ?_, fun mode input => ?_⟩
    · cases made h with
      | text hdrop =>
        have hlength := dropWord_length hdrop
        refine ⟨by simp only; omega, fun hword => ?_⟩
        simp only [Exp.mayBeEmpty, List.isEmpty_eq_false_iff, ← List.length_pos_iff] at hword
        simp only
        omega
      | char hdrop =>
        have hlength := dropChar_length hdrop
        exact ⟨by simp only; omega, fun _ => by simp only; omega⟩
      | @rule name k hbody =>
        obtain ⟨hle, hlt⟩ := hresult _ _ _ _ hbody
        refine ⟨hle, fun hno => hlt ?_⟩
        rw [← Bool.not_eq_true] at hno ⊢
        intro hempty
        exact hno (m.empty_of_body name hempty)
      | @seq first second k l hfirst hsecond =>
        obtain ⟨hle, hlt⟩ := hresult _ _ _ _ hfirst
        obtain ⟨hle', hlt'⟩ := hresult _ _ _ _ hsecond
        have hgap := hskip mode k.input
        refine ⟨by simp only; omega, fun hno => ?_⟩
        simp only [Exp.mayBeEmpty, Bool.and_eq_false_iff] at hno
        simp only
        rcases hno with hno | hno
        · have := hlt hno
          omega
        · have := hlt' hno
          omega
      | left hfirst =>
        obtain ⟨hle, hlt⟩ := hresult _ _ _ _ hfirst
        exact ⟨hle, fun hno => hlt (Bool.or_eq_false_iff.mp hno).1⟩
      | right _ hsecond =>
        obtain ⟨hle, hlt⟩ := hresult _ _ _ _ hsecond
        exact ⟨hle, fun hno => hlt (Bool.or_eq_false_iff.mp hno).2⟩
      | opt hone => exact ⟨(hresult _ _ _ _ hone).1, nofun⟩
      | many hone hrest =>
        exact ⟨Nat.le_trans (hmore _ _ _ _ hrest) (hresult _ _ _ _ hone).1, nofun⟩
      | atEnd | optNone | manyNone | without => exact ⟨Nat.le_refl _, nofun⟩
    · cases madeRounds h with
      | stop => exact Nat.le_refl _
      | more hone hrest =>
        have hle := (hresult _ _ _ _ hone).1
        exact Nat.le_trans (hmore _ _ _ _ hrest) (Nat.le_trans hle (hskip mode done.input))
    · rcases g.skip_cases fuel mode input with hstays | ⟨k, hblanks, hmoves⟩
      · exact Nat.le_of_eq (by rw [hstays])
      · rw [hmoves]
        exact (hresult _ _ _ _ hblanks).1

/-! ## Enough fuel -/

/-- One character less leaves fuel for a part behind it. -/
theorem limit_mul_lt {a b : Nat} (h : a < b) : m.limit * a + m.limit ≤ m.limit * b :=
  Nat.mul_le_mul_left m.limit h

/-- **Enough fuel** for an expression at a place of the input. -/
structure Enough (fuel : Nat) (mode : Mode) (exp : Exp ρ) (input : Input) : Prop where
  fits : m.Fits exp
  le : m.need mode exp input.rest.length ≤ fuel

/-- Enough fuel for further rounds at a place of the input, with the blanks in front of each. -/
structure EnoughRounds (fuel : Nat) (body : Exp ρ) (input : Input) : Prop where
  fits : m.Fits (.many body)
  le : m.limit * input.rest.length + m.limit ≤ fuel

/-- Enough fuel for the blanks at a place of the input. -/
def EnoughGap (fuel : Nat) (mode : Mode) (input : Input) : Prop :=
  m.limit * input.rest.length + m.gap mode ≤ fuel

section

variable {m} {fuel : Nat} {mode : Mode} {first second body : Exp ρ} {input : Input}

/-- What has enough fuel has some. -/
theorem Enough.pos {exp : Exp ρ} (h : m.Enough fuel mode exp input) : ∃ n, fuel = n + 1 := by
  have hpos := exp.depth_pos m.empty m.rank (m.gap mode)
  have hle := h.le
  unfold need at hle
  exact ⟨fuel - 1, by omega⟩

theorem EnoughRounds.pos (h : m.EnoughRounds fuel body input) : ∃ n, fuel = n + 1 := by
  have hpos := m.blanks_lt
  have hle := h.le
  exact ⟨fuel - 1, by omega⟩

theorem EnoughGap.pos (h : m.EnoughGap fuel .spaced input) : ∃ n, fuel = n + 1 := by
  have hpos := m.depth_blanks
  simp only [EnoughGap, Measured.gap] at h
  exact ⟨fuel - 1, by omega⟩

/-- The body of a rule is ranked below the rule, so the unit for entering it is enough. -/
theorem Enough.rule {name : ρ} (h : m.Enough (fuel + 1) mode (.rule name) input) :
    m.Enough fuel ((g.define name).kind.inner mode) (g.define name).body input := by
  have hdepth := Nat.le_trans (m.depth_le ((g.define name).kind.inner mode) (g.define name).body)
    (m.depth_body name)
  have hle := h.le
  simp only [need, Exp.depth] at hle
  exact ⟨m.body_within name, by unfold need; omega⟩

theorem Enough.left (h : m.Enough (fuel + 1) mode (.alt first second) input) :
    m.Enough fuel mode first input := by
  obtain ⟨hfits, hle⟩ := h
  simp only [Fits, Exp.within, Bool.and_eq_true] at hfits
  simp only [need, Exp.depth] at hle
  exact ⟨hfits.1, by unfold need; omega⟩

theorem Enough.right (h : m.Enough (fuel + 1) mode (.alt first second) input) :
    m.Enough fuel mode second input := by
  obtain ⟨hfits, hle⟩ := h
  simp only [Fits, Exp.within, Bool.and_eq_true] at hfits
  simp only [need, Exp.depth] at hle
  exact ⟨hfits.2, by unfold need; omega⟩

theorem Enough.opt (h : m.Enough (fuel + 1) mode (.opt body) input) : m.Enough fuel mode body input := by
  have hle := h.le
  simp only [need, Exp.depth] at hle
  exact ⟨h.fits, by unfold need; omega⟩

theorem Enough.without (h : m.Enough (fuel + 1) mode (.without body) input) :
    m.Enough fuel mode body input := by
  have hle := h.le
  simp only [need, Exp.depth] at hle
  exact ⟨h.fits, by unfold need; omega⟩

theorem Enough.seq_first (h : m.Enough (fuel + 1) mode (.seq first second) input) :
    m.Enough fuel mode first input := by
  obtain ⟨hfits, hle⟩ := h
  simp only [Fits, Exp.within, Bool.and_eq_true] at hfits
  simp only [need, Exp.depth] at hle
  exact ⟨hfits.1.1, by unfold need; omega⟩

/-- Behind the first part there is less input, or the measure has counted the second part too. -/
theorem Enough.behind {used : Nat} {k : Match ρ} (h : m.Enough (fuel + 1) mode (.seq first second) input)
    (hk : g.result used mode first input = some k) : m.limit * k.input.rest.length +
      max (m.gap mode) (second.depth m.empty m.rank (m.gap mode)) ≤ fuel := by
  obtain ⟨hfits, hle⟩ := h
  simp only [Fits, Exp.within, Bool.and_eq_true, decide_eq_true_eq] at hfits
  simp only [need, Exp.depth] at hle
  obtain ⟨hshorter, hless⟩ := (m.consumes used).1 mode first input k hk
  have hgap := m.gap_le mode
  have hdepth := m.depth_le mode second
  have hblanks := m.blanks_lt
  by_cases hempty : first.mayBeEmpty m.empty = true
  · rw [if_pos hempty] at hle
    have := Nat.mul_le_mul_left m.limit hshorter
    omega
  · have := m.limit_mul_lt (hless (Bool.not_eq_true _ ▸ hempty))
    omega

theorem Enough.gap {used : Nat} {k : Match ρ} (h : m.Enough (fuel + 1) mode (.seq first second) input)
    (hk : g.result used mode first input = some k) : m.EnoughGap fuel mode k.input := by
  have := h.behind hk
  unfold EnoughGap
  omega

/-- Behind what was consumed there is fuel for the second part: if the first one consumed nothing it was
counted in the depth, and otherwise the limit for a character has become free. -/
theorem Enough.seq_second {used skipped : Nat} {k : Match ρ}
    (h : m.Enough (fuel + 1) mode (.seq first second) input)
    (hk : g.result used mode first input = some k) :
    m.Enough fuel mode second (g.skip skipped mode k.input) := by
  have hfits := h.fits
  simp only [Fits, Exp.within, Bool.and_eq_true] at hfits
  have hbehind := h.behind hk
  have hskip := Nat.mul_le_mul_left m.limit ((m.consumes skipped).2.2 mode k.input)
  exact ⟨hfits.1.2, by unfold need; omega⟩

theorem Enough.many (h : m.Enough (fuel + 1) mode (.many body) input) : m.Enough fuel mode body input := by
  obtain ⟨hfits, hle⟩ := h
  simp only [Fits, Exp.within, Bool.and_eq_true] at hfits
  simp only [need, Exp.depth] at hle
  exact ⟨hfits.1.1, by unfold need; omega⟩

/-- No round matches nothing, so behind one there is less input. -/
theorem Enough.rounds {used : Nat} {k : Match ρ} (h : m.Enough (fuel + 1) mode (.many body) input)
    (hk : g.result used mode body input = some k) : m.EnoughRounds fuel body k.input := by
  obtain ⟨hfits, hle⟩ := h
  have hparts := hfits
  simp only [Fits, Exp.within, Bool.and_eq_true, Bool.not_eq_true'] at hparts
  simp only [need, Exp.depth] at hle
  have hless := m.limit_mul_lt (((m.consumes used).1 mode body input k hk).2 hparts.1.2)
  exact ⟨hfits, by omega⟩

theorem EnoughRounds.gap (h : m.EnoughRounds (fuel + 1) body input) : m.EnoughGap fuel mode input := by
  have hgap := m.gap_le mode
  have hblanks := m.blanks_lt
  have hle := h.le
  unfold EnoughGap
  omega

/-- The next round has enough fuel, also behind blanks. -/
theorem EnoughRounds.round {skipped : Nat} (h : m.EnoughRounds (fuel + 1) body input) :
    m.Enough fuel mode body (g.skip skipped mode input) := by
  obtain ⟨hfits, hle⟩ := h
  simp only [Fits, Exp.within, Bool.and_eq_true, decide_eq_true_eq] at hfits
  have hdepth := m.depth_le mode body
  have hskip := Nat.mul_le_mul_left m.limit ((m.consumes skipped).2.2 mode input)
  exact ⟨hfits.1.1, by unfold need; omega⟩

/-- Each round consumes something, and so leaves enough for those behind it. -/
theorem EnoughRounds.more {used skipped : Nat} {done k : Match ρ} {trees : List (Tree ρ)}
    (h : m.EnoughRounds (fuel + 1) body done.input)
    (hk : g.result used mode body (g.skip skipped mode done.input) = some k) :
    m.EnoughRounds fuel body (Match.mk trees k.input).input := by
  obtain ⟨hfits, hle⟩ := h
  have hparts := hfits
  simp only [Fits, Exp.within, Bool.and_eq_true, Bool.not_eq_true'] at hparts
  have hskip := Nat.mul_le_mul_left m.limit ((m.consumes skipped).2.2 mode done.input)
  have hless := m.limit_mul_lt (((m.consumes used).1 mode body _ k hk).2 hparts.1.2)
  have hblanks := m.blanks_lt
  exact ⟨hfits, by simp only; omega⟩

/-- Blanks are matched without blanks between their own parts. -/
theorem EnoughGap.blanks (h : m.EnoughGap (fuel + 1) .spaced input) :
    m.Enough fuel .atomic g.blanks input := by
  have hdepth := m.depth_blanks
  unfold EnoughGap at h
  simp only [Measured.gap] at h
  exact ⟨m.blanks_within, by unfold need; simp only [Measured.gap]; omega⟩

end

/-- **Enough fuel is enough**: with what an expression needs, its result is the one of any other amount
of fuel that is enough. -/
theorem settled (fuel : Nat) :
    (∀ fuel' mode exp input, m.Enough fuel mode exp input → m.Enough fuel' mode exp input →
      g.result fuel mode exp input = g.result fuel' mode exp input) ∧
    (∀ fuel' mode body done, m.EnoughRounds fuel body done.input → m.EnoughRounds fuel' body done.input →
      g.moreRounds fuel mode body done = g.moreRounds fuel' mode body done) ∧
    (∀ fuel' mode input, m.EnoughGap fuel mode input → m.EnoughGap fuel' mode input →
      g.skip fuel mode input = g.skip fuel' mode input) := by
  induction fuel with
  | zero =>
    refine ⟨fun fuel' mode exp input h h' => ?_, fun fuel' mode body done h h' => ?_,
      fun fuel' mode input h h' => ?_⟩
    · obtain ⟨n, hn⟩ := h.pos
      cases hn
    · obtain ⟨n, hn⟩ := h.pos
      cases hn
    · cases mode with
      | spaced =>
        obtain ⟨n, hn⟩ := h.pos
        cases hn
      | compound => rw [skip_compound, skip_compound]
      | atomic => rw [skip_atomic, skip_atomic]
  | succ fuel ih =>
    obtain ⟨hresult, hmore, hskip⟩ := ih
    refine ⟨fun fuel' mode exp input h h' => ?_, fun fuel' mode body done h h' => ?_,
      fun fuel' mode input h h' => ?_⟩
    · obtain ⟨fuel', rfl⟩ := h'.pos
      cases exp with
      | text word => rfl
      | char accept => rfl
      | atEnd => rfl
      | rule name => rw [result_rule, result_rule, hresult fuel' _ _ input h.rule h'.rule]
      | seq first second =>
        rw [result_seq, result_seq, hresult fuel' mode first input h.seq_first h'.seq_first]
        rcases hk : g.result fuel' mode first input with _ | k
        · rfl
        simp only [Option.bind_some]
        rw [hskip fuel' mode k.input (h.gap hk) (h'.gap hk),
          hresult fuel' mode second _ (h.seq_second hk) (h'.seq_second hk)]
      | alt first second =>
        rw [result_alt, result_alt, hresult fuel' mode first input h.left h'.left,
          hresult fuel' mode second input h.right h'.right]
      | many body =>
        rw [result_many, result_many, hresult fuel' mode body input h.many h'.many]
        rcases hk : g.result fuel' mode body input with _ | k
        · rfl
        exact hmore fuel' mode body k (h.rounds hk) (h'.rounds hk)
      | opt body => rw [result_opt, result_opt, hresult fuel' mode body input h.opt h'.opt]
      | without body =>
        rw [result_without, result_without, hresult fuel' mode body input h.without h'.without]
    · obtain ⟨fuel', rfl⟩ := h'.pos
      rw [moreRounds_succ, moreRounds_succ, hskip fuel' mode done.input h.gap h'.gap,
        hresult fuel' mode body _ h.round h'.round]
      rcases hk : g.result fuel' mode body (g.skip fuel' mode done.input) with _ | k
      · rfl
      exact hmore fuel' mode body _ (h.more hk) (h'.more hk)
    · cases mode with
      | spaced =>
        obtain ⟨fuel', rfl⟩ := h'.pos
        rw [skip_spaced, skip_spaced, hresult fuel' .atomic g.blanks input h.blanks h'.blanks]
      | compound => rw [skip_compound, skip_compound]
      | atomic => rw [skip_atomic, skip_atomic]

/-- The parser has enough fuel for a rule at the start of a text. -/
theorem enough_parse (name : ρ) (source : String) (hlimit : m.limit ≤ g.size + 4)
    (hrank : m.rank name < g.size + 4) {fuel : Nat}
    (henough : (g.size + 4) * (source.toList.length + 2) ≤ fuel) :
    m.Enough fuel .spaced (.rule name) ⟨source.toList, {}⟩ := by
  have := Nat.mul_le_mul_right source.toList.length hlimit
  refine ⟨rfl, ?_⟩
  simp only [need, Exp.depth, Nat.mul_add] at henough ⊢
  omega

/-- **A text is parsed as it would be with any more fuel.** -/
theorem parse_eq_ok {name : ρ} {source : String} {tree : Tree ρ} {rest : Input} {fuel : Nat}
    (hlimit : m.limit ≤ g.size + 4) (hrank : m.rank name < g.size + 4)
    (henough : (g.size + 4) * (source.toList.length + 2) ≤ fuel)
    (h : g.result fuel .spaced (.rule name) ⟨source.toList, {}⟩ = some ⟨[tree], rest⟩) :
    g.parse name source = .ok tree := by
  rw [(m.settled fuel).1 _ _ _ _ (m.enough_parse _ source hlimit hrank henough)
    (m.enough_parse _ source hlimit hrank (Nat.le_refl _))] at h
  unfold result at h
  unfold parse
  rcases hrun : g.run ((g.size + 4) * (source.toList.length + 2)) .spaced (.rule name)
      ⟨source.toList, {}⟩ {} with ⟨furthest, found⟩
  rw [hrun] at h
  obtain rfl : found = some ⟨[tree], rest⟩ := h
  simp only [hrun]

end Measured

end Grammar

end DurableFlow.Text.Peg
