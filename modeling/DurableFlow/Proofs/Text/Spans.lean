/-
Where the parts of a text stand.

A position is three counts, and the positions of a tree are made by walking over the text, so
every one of them describes one place: what its counts say can be checked against the text in
front of it. A match goes on where the one before it has stopped, and what it leaves in the tree
has the span that it has consumed. So the trees of a match stand one behind the other between its
start and its end, and the parts of a node stand so inside the span of the node.

That is said here of values: a language gives a value to each tree, and if a value stands in a
span as soon as those of the parts stand in a row inside it, then the value of a whole text stands
in a span of the text. What it is for a value to stand in a span is up to the language.
-/
import DurableFlow.Proofs.Text.Reading
import Mathlib.Data.List.DropRight

set_option autoImplicit false

namespace DurableFlow.Text

/-! ## Places and spans of a text -/

/-- **A position marks a place of a text**: between two characters of it, where its counts are the
bytes in front, the newlines in front, and the characters since the last of those. -/
def Pos.Marks (p : Pos) (source : String) : Prop :=
  ∃ before after : String, source = before ++ after ∧ p.offset = before.utf8ByteSize ∧
    p.line = before.toList.count '\n' ∧ p.column = (before.toList.rtakeWhile (· ≠ '\n')).length

/-- **A span of a text**: from one place of it to another one that is not before. -/
structure Span.Lies (span : Span) (source : String) : Prop where
  start : span.start.Marks source
  stop : span.stop.Marks source
  forward : span.start.offset ≤ span.stop.offset
  within : span.stop.offset ≤ source.utf8ByteSize

/-- A span inside another one. -/
def Span.Covers (outer inner : Span) : Prop :=
  outer.start.offset ≤ inner.start.offset ∧ inner.stop.offset ≤ outer.stop.offset

/-- A span that ends where another one starts, or before that. -/
def Span.Before (first second : Span) : Prop := first.stop.offset ≤ second.start.offset

/-- A place is not behind the end of the text. -/
theorem Pos.Marks.le {p : Pos} {source : String} (h : p.Marks source) :
    p.offset ≤ source.utf8ByteSize := by
  obtain ⟨before, after, rfl, hoffset, -, -⟩ := h
  rw [hoffset, String.utf8ByteSize_append]
  exact Nat.le_add_right _ _

theorem Pos.advance_append (p : Pos) (cs ds : List Char) :
    p.advance (cs ++ ds) = (p.advance cs).advance ds := List.foldl_append

/-- **Walking over a text counts** its bytes, its newlines, and the characters since the last of those. -/
theorem Pos.advance_start (cs : List Char) : ({} : Pos).advance cs =
    ⟨(String.ofList cs).utf8ByteSize, cs.count '\n', (cs.rtakeWhile (· ≠ '\n')).length⟩ := by
  induction cs using List.reverseRecOn with
  | nil => rfl
  | append_singleton cs c ih =>
    have hbytes : (String.ofList (cs ++ [c])).utf8ByteSize = (String.ofList cs).utf8ByteSize + c.utf8Size := by
      rw [String.ofList_append, String.utf8ByteSize_append, ← String.singleton_eq_ofList,
        String.utf8ByteSize_singleton]
    rw [Pos.advance_append, ih, hbytes, List.count_append, List.rtakeWhile_concat]
    show Pos.next _ c = _
    unfold Pos.next
    by_cases hc : c = '\n'
    · simp [hc]
    · simp [hc]

/-- Walking over some of a text does not lead back. -/
theorem Pos.offset_le_advance (p : Pos) (cs : List Char) : p.offset ≤ (p.advance cs).offset := by
  induction cs generalizing p with
  | nil => exact Nat.le_refl _
  | cons c cs ih =>
    have hnext : p.offset ≤ (p.next c).offset := by
      unfold Pos.next
      split <;> exact Nat.le_add_right _ _
    exact Nat.le_trans hnext (ih (p.next c))

theorem Span.offset_start_merge (a b : Span) :
    (a.merge b).start.offset = min a.start.offset b.start.offset := by
  unfold Span.merge
  dsimp only
  split <;> omega

theorem Span.offset_stop_merge (a b : Span) :
    (a.merge b).stop.offset = max a.stop.offset b.stop.offset := by
  unfold Span.merge
  dsimp only
  split <;> omega

/-- **The merge of two spans of a text is one**: each of its ends is an end of one of them. -/
theorem Span.Lies.merge {a b : Span} {source : String} (ha : a.Lies source) (hb : b.Lies source) :
    (a.merge b).Lies source := by
  have hstart : (a.merge b).start.Marks source := by
    unfold Span.merge
    dsimp only
    split
    · exact ha.start
    · exact hb.start
  have hstop : (a.merge b).stop.Marks source := by
    unfold Span.merge
    dsimp only
    split
    · exact ha.stop
    · exact hb.stop
  refine ⟨hstart, hstop, ?_, hstop.le⟩
  have hforward := ha.forward
  rw [Span.offset_start_merge, Span.offset_stop_merge]
  omega

/-! ## Rows -/

/-- **Values that stand in a row** between two places of a text, each in a span of its own. -/
inductive Row {α : Type} (source : String) (Stands : Span → α → Prop) : Nat → List α → Nat → Prop where
  | nil {lo hi : Nat} (hle : lo ≤ hi) : Row source Stands lo [] hi
  | cons {lo hi : Nat} {span : Span} {value : α} {values : List α} (hlo : lo ≤ span.start.offset)
    (hspan : span.Lies source) (hvalue : Stands span value)
    (hrest : Row source Stands span.stop.offset values hi) : Row source Stands lo (value :: values) hi

namespace Row

variable {α : Type} {source : String} {Stands : Span → α → Prop} {lo mid hi : Nat} {us vs : List α}

theorem le (h : Row source Stands lo vs hi) : lo ≤ hi := by
  induction h with
  | nil hle => exact hle
  | cons hlo hspan _ _ ih => exact Nat.le_trans hlo (Nat.le_trans hspan.forward ih)

/-- A row has room to spare in front. -/
theorem from_le {lo' : Nat} (h : Row source Stands lo vs hi) (hle : lo' ≤ lo) :
    Row source Stands lo' vs hi := by
  cases h with
  | nil hlo => exact .nil (Nat.le_trans hle hlo)
  | cons hlo hspan hvalue hrest => exact .cons (Nat.le_trans hle hlo) hspan hvalue hrest

/-- A row goes on with another one. -/
theorem append (h : Row source Stands lo us mid) (h' : Row source Stands mid vs hi) :
    Row source Stands lo (us ++ vs) hi := by
  induction h with
  | nil hle => exact h'.from_le hle
  | cons hlo hspan hvalue _ ih => exact .cons hlo hspan hvalue (ih h')

/-- One value alone. -/
theorem one {span : Span} {value : α} (hlo : lo ≤ span.start.offset) (hspan : span.Lies source)
    (hvalue : Stands span value) (hhi : span.stop.offset ≤ hi) : Row source Stands lo [value] hi :=
  .cons hlo hspan hvalue (.nil hhi)

/-- A value of a row stands in a span between the two places. -/
theorem span_of_mem (h : Row source Stands lo vs hi) {value : α} (hmem : value ∈ vs) :
    ∃ span : Span, lo ≤ span.start.offset ∧ span.stop.offset ≤ hi ∧ span.Lies source ∧ Stands span value := by
  induction h with
  | nil hle => cases hmem
  | cons hlo hspan hvalue hrest ih =>
    rcases List.mem_cons.mp hmem with rfl | hmem
    · exact ⟨_, hlo, hrest.le, hspan, hvalue⟩
    · obtain ⟨span, hfrom, hupto, hlies, hstands⟩ := ih hmem
      exact ⟨span, Nat.le_trans hlo (Nat.le_trans hspan.forward hfrom), hupto, hlies, hstands⟩

/-- **What stands in a row stands in order.** -/
theorem pairwise (h : Row source Stands lo vs hi) : vs.Pairwise fun u v =>
    ∃ a b : Span, Stands a u ∧ Stands b v ∧ a.Before b := by
  induction h with
  | nil hle => exact .nil
  | cons hlo hspan hvalue hrest ih =>
    refine .cons (fun v hv => ?_) ih
    obtain ⟨span, hfrom, -, -, hstands⟩ := hrest.span_of_mem hv
    exact ⟨_, span, hvalue, hstands, hfrom⟩

end Row

namespace Peg

variable {ρ ε α : Type}

/-! ## What a match passes -/

/-- **An input that is left** when some of another one has been consumed. -/
def Input.Leads (a b : Input) : Prop := ∃ cs, a.rest = cs ++ b.rest ∧ b.pos = a.pos.advance cs

namespace Input

variable {a b c : Input}

/-- A text that nothing has been consumed of. -/
def start (source : String) : Input := ⟨source.toList, {}⟩

theorem Leads.refl (a : Input) : a.Leads a := ⟨[], rfl, rfl⟩

theorem Leads.trans (h : a.Leads b) (h' : b.Leads c) : a.Leads c := by
  obtain ⟨cs, hrest, hpos⟩ := h
  obtain ⟨ds, hrest', hpos'⟩ := h'
  refine ⟨cs ++ ds, ?_, ?_⟩
  · rw [hrest, hrest', List.append_assoc]
  · rw [hpos', hpos, Pos.advance_append]

theorem Leads.le (h : a.Leads b) : a.pos.offset ≤ b.pos.offset := by
  obtain ⟨cs, -, hpos⟩ := h
  rw [hpos]
  exact a.pos.offset_le_advance cs

theorem leads_of_dropChar {accept : Char → Bool} (h : a.dropChar accept = some b) : a.Leads b := by
  obtain ⟨_ | ⟨c, cs⟩, pos⟩ := a
  · cases h
  · simp only [dropChar] at h
    split at h
    · cases h
      exact ⟨[c], rfl, rfl⟩
    · cases h

theorem leads_of_dropWord {word : List Char} (h : a.dropWord word = some b) : a.Leads b := by
  induction word generalizing a with
  | nil =>
    obtain rfl : a = b := Option.some.inj h
    exact .refl a
  | cons c word ih =>
    obtain ⟨_ | ⟨d, cs⟩, pos⟩ := a
    · cases h
    · unfold dropWord at h
      split at h
      · have hfirst : Leads ⟨d :: cs, pos⟩ ⟨cs, pos.next d⟩ := ⟨[d], rfl, rfl⟩
        exact hfirst.trans (ih h)
      · cases h

/-- **Wherever a match comes to is a place of the text.** -/
theorem Leads.marks {source : String} (h : (start source).Leads a) : a.pos.Marks source := by
  obtain ⟨cs, hrest, hpos⟩ := h
  refine ⟨String.ofList cs, String.ofList a.rest, ?_, ?_⟩
  · rw [← String.ofList_append, ← hrest]
    exact String.ofList_toList.symm
  · rw [hpos]
    show (Pos.advance {} cs).offset = _ ∧ (Pos.advance {} cs).line = _ ∧ (Pos.advance {} cs).column = _
    rw [Pos.advance_start, String.toList_ofList]
    exact ⟨rfl, rfl, rfl⟩

/-- From one place that a match comes to, to a later one, is a span of the text. -/
theorem Leads.lies {source : String} (h : (start source).Leads a) (h' : a.Leads b) :
    (Span.mk a.pos b.pos).Lies source :=
  ⟨h.marks, (h.trans h').marks, h'.le, (h.trans h').marks.le⟩

end Input

namespace Grammar

variable (g : Grammar ρ)

/-- **A match consumes what it passes**, so it comes from its input to the one that it leaves; and so do
further rounds and the skipping of blanks. -/
theorem leads (fuel : Nat) :
    (∀ mode exp input k, g.result fuel mode exp input = some k → Input.Leads input k.input) ∧
    (∀ mode body done k, g.moreRounds fuel mode body done = some k → Input.Leads done.input k.input) ∧
    (∀ mode input, Input.Leads input (g.skip fuel mode input)) := by
  induction fuel with
  | zero =>
    refine ⟨fun mode exp input k h => ?_, fun mode body done k h => ?_, fun mode input => ?_⟩
    · cases h
    · cases h
    · exact .refl input
  | succ fuel ih =>
    obtain ⟨hresult, hmore, hskip⟩ := ih
    refine ⟨fun mode exp input n h => ?_, fun mode body done n h => ?_, fun mode input => ?_⟩
    · cases made h with
      | text hdrop => exact Input.leads_of_dropWord hdrop
      | char hdrop => exact Input.leads_of_dropChar hdrop
      | @rule name k hbody => exact hresult _ _ _ k hbody
      | @seq first second k l hfirst hsecond =>
        exact ((hresult _ _ _ k hfirst).trans (hskip mode k.input)).trans (hresult _ _ _ l hsecond)
      | left hone | right _ hone | opt hone => exact hresult _ _ _ _ hone
      | many hone hrest => exact (hresult _ _ _ _ hone).trans (hmore _ _ _ _ hrest)
      | atEnd | optNone | manyNone | without => exact .refl input
    · cases madeRounds h with
      | stop => exact .refl _
      | @more k n hone hrest =>
        have hround := (hskip mode done.input).trans (hresult _ _ _ _ hone)
        exact hround.trans (hmore mode body ⟨done.trees ++ k.trees, k.input⟩ n hrest)
    · rcases g.skip_cases fuel mode input with hstays | ⟨k, hblanks, hmoves⟩
      · rw [hstays]
        exact .refl input
      · rw [hmoves]
        exact hresult _ _ _ _ hblanks

end Grammar

/-! ## What a match leaves -/

theorem Tree.foldAll_append_eq_ok {leaf : ρ → Span → String → Except ε α}
    {node : ρ → Span → List α → Except ε α} {left right : List (Tree ρ)} {values : List α}
    (h : Tree.foldAll leaf node (left ++ right) = .ok values) :
    ∃ us vs, values = us ++ vs ∧ Tree.foldAll leaf node left = .ok us ∧
      Tree.foldAll leaf node right = .ok vs := by
  induction left generalizing values with
  | nil => exact ⟨[], values, rfl, by rw [Tree.foldAll], h⟩
  | cons tree trees ih =>
    rw [List.cons_append, Tree.foldAll] at h
    rw [Tree.foldAll]
    rcases htree : Tree.fold leaf node tree with e | value
    · simp [htree] at h
    · rcases htrees : Tree.foldAll leaf node (trees ++ right) with e | rest
      · simp [htree, htrees] at h
      · obtain ⟨us, vs, rfl, hleft, hright⟩ := ih htrees
        simp only [htree, htrees, Except.ok.injEq] at h
        refine ⟨value :: us, vs, h.symm, ?_, hright⟩
        simp only [hleft]

/-- The value of one tree alone. -/
theorem Tree.foldAll_singleton_eq_ok {leaf : ρ → Span → String → Except ε α}
    {node : ρ → Span → List α → Except ε α} {tree : Tree ρ} {values : List α}
    (h : Tree.foldAll leaf node [tree] = .ok values) :
    ∃ value, values = [value] ∧ Tree.fold leaf node tree = .ok value := by
  rw [Tree.foldAll, Tree.foldAll] at h
  rcases htree : Tree.fold leaf node tree with e | value
  · simp [htree] at h
  · simp only [htree, Except.ok.injEq] at h
    exact ⟨value, h.symm, rfl⟩

namespace Language

variable {L : Language ρ ε α} {source : String} {Stands : Span → α → Prop}

/-- **A language whose values stand in spans of a text**: that of a leaf in the span of the leaf, and that of
a node in the span of the node, if those of the parts stand in a row inside it. -/
structure Places (L : Language ρ ε α) (source : String) (Stands : Span → α → Prop) : Prop where
  leaf : ∀ name span text value, span.Lies source → L.leaf name span text = .ok value → Stands span value
  node : ∀ name (span : Span) values value, span.Lies source →
    Row source Stands span.start.offset values span.stop.offset →
    L.node name span values = .ok value → Stands span value

/-- **What a rule leaves stands in a row**, if what its body leaves does. -/
theorem Places.row_rule (h : L.Places source Stands) {name : ρ} {mode : Mode} {input : Input} {k : Match ρ}
    (hspan : (Span.mk input.pos k.input.pos).Lies source)
    (hbody : ∀ values, Tree.foldAll L.leaf L.node k.trees = .ok values →
      Row source Stands input.pos.offset values k.input.pos.offset) {values : List α}
    (hvalues : Tree.foldAll L.leaf L.node ((L.grammar.define name).kind.trees mode name input k) = .ok values) :
    Row source Stands input.pos.offset values k.input.pos.offset := by
  have hleaf : Tree.foldAll L.leaf L.node
      [.leaf name ⟨input.pos, k.input.pos⟩ (input.textUntil k.input)] = .ok values →
      Row source Stands input.pos.offset values k.input.pos.offset := by
    intro hfold
    obtain ⟨value, rfl, hvalue⟩ := Tree.foldAll_singleton_eq_ok hfold
    rw [Tree.fold] at hvalue
    exact .one (Nat.le_refl _) hspan (h.leaf _ _ _ _ hspan hvalue) (Nat.le_refl _)
  have hnode : Tree.foldAll L.leaf L.node [.node name ⟨input.pos, k.input.pos⟩ k.trees] = .ok values →
      Row source Stands input.pos.offset values k.input.pos.offset := by
    intro hfold
    obtain ⟨value, rfl, hvalue⟩ := Tree.foldAll_singleton_eq_ok hfold
    rw [Tree.fold] at hvalue
    rcases hparts : Tree.foldAll L.leaf L.node k.trees with e | parts
    · simp [hparts] at hvalue
    · simp only [hparts] at hvalue
      exact .one (Nat.le_refl _) hspan (h.node _ _ _ _ hspan (hbody parts hparts) hvalue) (Nat.le_refl _)
  unfold RuleKind.trees at hvalues
  split at hvalues
  · exact hbody values hvalues
  · exact hbody values hvalues
  · exact hleaf hvalues
  · exact hnode hvalues

/-- **What a match leaves stands in a row** between the places where it starts and where it stops. The
induction is on the fuel, along the ways in which a match is made of others. -/
theorem Places.row (h : L.Places source Stands) (fuel : Nat) :
    (∀ mode exp input k values, (Input.start source).Leads input →
      L.grammar.result fuel mode exp input = some k → Tree.foldAll L.leaf L.node k.trees = .ok values →
      Row source Stands input.pos.offset values k.input.pos.offset) ∧
    (∀ mode body done k lo values, (Input.start source).Leads done.input →
      (∀ us, Tree.foldAll L.leaf L.node done.trees = .ok us →
        Row source Stands lo us done.input.pos.offset) →
      L.grammar.moreRounds fuel mode body done = some k →
      Tree.foldAll L.leaf L.node k.trees = .ok values →
      Row source Stands lo values k.input.pos.offset) := by
  induction fuel with
  | zero =>
    refine ⟨fun mode exp input k values _ hk _ => ?_, fun mode body done k lo values _ _ hk _ => ?_⟩
    · cases hk
    · cases hk
  | succ fuel ih =>
    obtain ⟨hresult, hmore⟩ := ih
    obtain ⟨hleads, -, hskips⟩ := L.grammar.leads fuel
    -- what leaves nothing leaves an empty row
    have hnone : ∀ {a b : Input} {values : List α}, a.Leads b →
        Tree.foldAll L.leaf L.node ([] : List (Tree ρ)) = .ok values →
        Row source Stands a.pos.offset values b.pos.offset := by
      intro a b values hab hvalues
      rw [Tree.foldAll] at hvalues
      obtain rfl := Except.ok.inj hvalues
      exact .nil hab.le
    refine ⟨fun mode exp input n values hin hn hvalues => ?_,
      fun mode body done n lo values hin hdone hn hvalues => ?_⟩
    · have hpassed := (L.grammar.leads (fuel + 1)).1 mode exp input n hn
      cases Grammar.made hn with
      | text _ | char _ | atEnd _ | optNone _ | manyNone _ | without _ => exact hnone hpassed hvalues
      | @rule name k hbody =>
        exact h.row_rule (k := k) (hin.lies hpassed) (fun us hus => hresult _ _ _ k us hin hbody hus) hvalues
      | @seq first second k l hfirst hsecond =>
        obtain ⟨us, vs, rfl, hus, hvs⟩ := Tree.foldAll_append_eq_ok hvalues
        have hgap := hskips mode k.input
        have hbehind := (hin.trans (hleads _ _ _ _ hfirst)).trans hgap
        have hrow := hresult _ _ _ _ us hin hfirst hus
        exact hrow.append ((hresult _ _ _ _ vs hbehind hsecond hvs).from_le hgap.le)
      | left hone | right _ hone | opt hone => exact hresult _ _ _ _ values hin hone hvalues
      | @many body k n hone hrest =>
        refine hmore _ body k _ _ values (hin.trans (hleads _ _ _ _ hone)) (fun us hus => ?_) hrest hvalues
        exact hresult _ _ _ _ us hin hone hus
    · cases Grammar.madeRounds hn with
      | stop _ => exact hdone values hvalues
      | @more k n hone hrest =>
        have hgap := hskips mode done.input
        have hbehind := (hin.trans hgap).trans (hleads _ _ _ _ hone)
        refine hmore mode body ⟨done.trees ++ k.trees, k.input⟩ n lo values hbehind (fun ws hws => ?_)
          hrest hvalues
        obtain ⟨us, vs, rfl, hus, hvs⟩ := Tree.foldAll_append_eq_ok hws
        exact (hdone us hus).append ((hresult _ _ _ _ vs (hin.trans hgap) hone hvs).from_le hgap.le)

/-- **The value of a text that is parsed stands in a span of the text.** -/
theorem Places.of_parse (h : L.Places source Stands) {name : ρ} {tree : Tree ρ} {value : α}
    (htree : L.grammar.parse name source = .ok tree) (hvalue : tree.fold L.leaf L.node = .ok value) :
    ∃ span : Span, span.Lies source ∧ Stands span value := by
  unfold Grammar.parse at htree
  dsimp only at htree
  split at htree
  · next furthest found rest hrun =>
    obtain rfl := Except.ok.inj htree
    have hfold : Tree.foldAll L.leaf L.node [found] = .ok [value] := by
      rw [Tree.foldAll, hvalue]
      simp only [Tree.foldAll]
    have hrow := (h.row _).1 _ _ _ ⟨[found], rest⟩ [value] (.refl _) (congrArg Prod.snd hrun) hfold
    obtain ⟨span, -, -, hspan, hstands⟩ := hrow.span_of_mem (List.mem_singleton_self value)
    exact ⟨span, hspan, hstands⟩
  · cases htree

end Language

end Peg

end DurableFlow.Text
