/-
Parsing expression grammars and their parse trees.

An expression is matched at a place of the input and either fails or consumes a
stretch of it. Choices are ordered and repetition is greedy, so there is one
result. Between the two sides of a sequence, and between the rounds of a
repetition, blanks are skipped unless the match happens inside an atomic rule;
the skip before a round that then fails is undone, the skip before an optional
part that then matches nothing is not.

A named rule leaves a node in the tree: a leaf with its text when it is atomic,
else a node with what its parts left. A failed match is explained by the
furthest place at which a named rule failed to start; what is tried inside an
atomic rule does not count, the atomic rule itself does.

`Grammar.run` takes fuel, one unit for each step into an expression.
`Grammar.parse` provides enough of it for every grammar in which no rule reaches
itself without consuming: at one place of the input at most all expressions of
the grammar are entered before something is consumed.
-/
import DurableFlow.Text.Span

set_option autoImplicit false

namespace DurableFlow.Text.Peg

variable {ρ : Type}

/-- A parsing expression over rule names `ρ`. -/
inductive Exp (ρ : Type) where
  /-- This very text. -/
  | text (word : List Char)
  /-- One character of a class. -/
  | char (accept : Char → Bool)
  /-- The end of the input. -/
  | atEnd
  | rule (name : ρ)
  | seq (first second : Exp ρ)
  /-- The first that matches. -/
  | alt (first second : Exp ρ)
  /-- As many rounds as match. -/
  | many (body : Exp ρ)
  | opt (body : Exp ρ)
  /-- Matches nothing, where the body does not match. -/
  | without (body : Exp ρ)

/-- How a rule takes part in the tree and whether blanks are skipped inside it. -/
inductive RuleKind where
  /-- A node with its parts; blanks as in the surrounding rule. -/
  | plain
  /-- No node of its own. -/
  | silent
  /-- A leaf; no blanks are skipped inside. -/
  | atomic
  /-- A node with its parts; no blanks are skipped inside. -/
  | compound
deriving DecidableEq

structure RuleDef (ρ : Type) where
  kind : RuleKind
  body : Exp ρ

/-- A grammar: its rules, what counts as a blank, and how many expressions it has in all. -/
structure Grammar (ρ : Type) where
  define : ρ → RuleDef ρ
  blanks : Exp ρ
  size : Nat

/-- The tree that a match leaves. -/
inductive Tree (ρ : Type) where
  | leaf (name : ρ) (span : Span) (text : String)
  | node (name : ρ) (span : Span) (parts : List (Tree ρ))

/-- What is left of the input, and where that is. -/
structure Input where
  rest : List Char
  pos : Pos

/-- The trees that a match left and the input after it. -/
structure Match (ρ : Type) where
  trees : List (Tree ρ)
  input : Input

/-- Whether blanks are skipped and whether rules are noticed. -/
inductive Mode where
  | spaced
  | compound
  | atomic
deriving DecidableEq

namespace Input

/-- Consumes `word`. -/
def dropWord : List Char → Input → Option Input
  | [], input => some input
  | c :: word, ⟨d :: rest, pos⟩ => if c = d then dropWord word ⟨rest, pos.next d⟩ else none
  | _ :: _, ⟨[], _⟩ => none

/-- Consumes one character of a class. -/
def dropChar (accept : Char → Bool) : Input → Option Input
  | ⟨c :: rest, pos⟩ => if accept c then some ⟨rest, pos.next c⟩ else none
  | ⟨[], _⟩ => none

/-- The text between this place and a later one. -/
def textUntil (start stop : Input) : String :=
  String.ofList (start.rest.take (start.rest.length - stop.rest.length))

end Input

/-- The mode in which the body of a rule is matched. -/
def RuleKind.inner (kind : RuleKind) (mode : Mode) : Mode :=
  match kind with
  | .atomic => .atomic
  | .compound => .compound
  | .plain | .silent => mode

/-- What a rule that matched leaves in the tree. -/
def RuleKind.trees (kind : RuleKind) (mode : Mode) (name : ρ) (start : Input) (m : Match ρ) :
    List (Tree ρ) :=
  match mode, kind with
  | .atomic, _ | _, .silent => m.trees
  | _, .atomic => [.leaf name ⟨start.pos, m.input.pos⟩ (start.textUntil m.input)]
  | _, _ => [.node name ⟨start.pos, m.input.pos⟩ m.trees]

/-- The furthest failure, after a rule failed at `start`. -/
def RuleKind.noteFailure (kind : RuleKind) (mode : Mode) (start furthest : Pos) : Pos :=
  match mode, kind with
  | .atomic, _ | _, .silent => furthest
  | _, _ => furthest.latest start

namespace Grammar

variable (g : Grammar ρ)

mutual

/-- Matches an expression: the furthest failure so far, and the match if there is one. -/
def run : Nat → Mode → Exp ρ → Input → Pos → Pos × Option (Match ρ)
  | 0, _, _, _, furthest => (furthest, none)
  | fuel + 1, mode, exp, input, furthest =>
    match exp with
    | .text word => (furthest, (input.dropWord word).map fun rest => ⟨[], rest⟩)
    | .char accept => (furthest, (input.dropChar accept).map fun rest => ⟨[], rest⟩)
    | .atEnd => (furthest, if input.rest.isEmpty then some ⟨[], input⟩ else none)
    | .seq first second =>
      match run fuel mode first input furthest with
      | (furthest, none) => (furthest, none)
      | (furthest, some m) =>
        match run fuel mode second (skip fuel mode m.input) furthest with
        | (furthest, none) => (furthest, none)
        | (furthest, some n) => (furthest, some ⟨m.trees ++ n.trees, n.input⟩)
    | .alt first second =>
      match run fuel mode first input furthest with
      | (furthest, none) => run fuel mode second input furthest
      | found => found
    | .opt body =>
      match run fuel mode body input furthest with
      | (furthest, none) => (furthest, some ⟨[], input⟩)
      | found => found
    | .without body =>
      match run fuel mode body input furthest with
      -- what fails or matches while looking ahead is not noted
      | (_, none) => (furthest, some ⟨[], input⟩)
      | (_, some _) => (furthest, none)
    | .many body =>
      match run fuel mode body input furthest with
      | (furthest, none) => (furthest, some ⟨[], input⟩)
      | (furthest, some m) => rounds fuel mode body m furthest
    | .rule name =>
      let kind := (g.define name).kind
      match run fuel (kind.inner mode) (g.define name).body input furthest with
      | (furthest, none) => (kind.noteFailure mode input.pos furthest, none)
      | (furthest, some m) => (furthest, some ⟨kind.trees mode name input m, m.input⟩)

/-- Matches further rounds of a repetition after `done`. -/
def rounds : Nat → Mode → Exp ρ → Match ρ → Pos → Pos × Option (Match ρ)
  | 0, _, _, _, furthest => (furthest, none)
  | fuel + 1, mode, body, done, furthest =>
    match run fuel mode body (skip fuel mode done.input) furthest with
    | (furthest, none) => (furthest, some done)
    | (furthest, some m) => rounds fuel mode body ⟨done.trees ++ m.trees, m.input⟩ furthest

/-- Skips blanks where the mode asks for it. -/
def skip : Nat → Mode → Input → Input
  | 0, _, input => input
  | fuel + 1, mode, input =>
    match mode with
    | .spaced =>
      match run fuel .atomic g.blanks input {} with
      | (_, some m) => m.input
      | (_, none) => input
    | _ => input

end

/-- Matches a rule at the start of a text: its tree, or the furthest place at which a rule
failed. -/
def parse (name : ρ) (source : String) : Except Pos (Tree ρ) :=
  let chars := source.toList
  -- each expression may be entered once for each character
  let fuel := (g.size + 4) * (chars.length + 2)
  match g.run fuel .spaced (.rule name) ⟨chars, {}⟩ {} with
  | (_, some ⟨[tree], _⟩) => .ok tree
  | (furthest, _) => .error furthest

end Grammar

namespace Tree

mutual

/-- Computes a value from a tree, bottom up: `leaf` for a leaf, `node` from the values of the
parts. -/
def fold {ε α : Type} (leaf : ρ → Span → String → Except ε α)
    (node : ρ → Span → List α → Except ε α) : Tree ρ → Except ε α
  | .leaf name span text => leaf name span text
  | .node name span parts =>
    match foldAll leaf node parts with
    | .error e => .error e
    | .ok values => node name span values

/-- Computes the values of trees from left to right. -/
def foldAll {ε α : Type} (leaf : ρ → Span → String → Except ε α)
    (node : ρ → Span → List α → Except ε α) : List (Tree ρ) → Except ε (List α)
  | [] => .ok []
  | tree :: trees =>
    match fold leaf node tree with
    | .error e => .error e
    | .ok value =>
      match foldAll leaf node trees with
      | .error e => .error e
      | .ok values => .ok (value :: values)

end

end Tree

end DurableFlow.Text.Peg
