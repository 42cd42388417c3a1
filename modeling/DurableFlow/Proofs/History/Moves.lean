/-
The moves of a growing history.

Each move keeps the invariant of a scene. A move touches one head: that of the thread that
starts a step or ends, or of the step that is over. That thread or step is the only one that
may extend the head, so what the invariant says of the tips of the others is as before.
-/
import DurableFlow.Proofs.History.Growth

set_option autoImplicit false

namespace DurableFlow.History

/-- **A new node keeps the joins**, if it adds or ends branches of open blocks only, and joins
the ends of all branches when it ends a block itself. -/
theorem joins_append {nodes : Nodes} {next start : Nat} (hgraph : Graph nodes next start)
    (hjoins : Joins nodes) {node : Node}
    (hbranch : ∀ {m}, node.kind = .blockStart true → node.parents = [m] → Open nodes m)
    (hend : ∀ {s m}, node.kind = .blockEnd s → BranchOf nodes s m → Open nodes m)
    (hjoin : ∀ {m}, node.kind = .blockEnd m → (∃ s, BranchOf nodes s m) →
      node.parents.Nodup ∧ ∀ p, p ∈ node.parents ↔ ∃ s, BranchOf nodes s m ∧ EndOf nodes p s) :
    Joins (changed nodes next (some node)) := by
  rintro e m last hlast hkind ⟨s, hs⟩
  rcases changed_eq_some.mp hlast with ⟨_, heq⟩ | ⟨_, hold⟩
  · cases heq
    have hbefore := (hgraph.branchOf_append.mp hs).resolve_left fun hno => by
      rw [hkind] at hno
      cases hno.2.1
    obtain ⟨hnodup, hmem⟩ := hjoin hkind ⟨s, hbefore⟩
    refine ⟨hnodup, fun p => (hmem p).trans (hgraph.branchEnd_append ?_).symm⟩
    -- a block is no branch of itself
    intro r hr hbranchOf
    obtain rfl : m = r := NodeKind.blockEnd.inj (hkind.symm.trans hr)
    exact Nat.lt_irrefl _ (hgraph.lt_of_branchOf hbranchOf).1
  · -- a block that is closed gets no new branch, and none of its branches is open
    have hclosed : ¬ Open nodes m := fun hopen => hopen.unended e ⟨last, hold, hkind⟩
    have hbefore := (hgraph.branchOf_append.mp hs).resolve_left fun hno =>
      hclosed (hbranch hno.2.1 hno.2.2)
    obtain ⟨hnodup, hmem⟩ := hjoins hold hkind ⟨s, hbefore⟩
    refine ⟨hnodup, fun p => (hmem p).trans (hgraph.branchEnd_append ?_).symm⟩
    exact fun r hr hbranchOf => hclosed (hend hr hbranchOf)

/-! ## What several moves have in common -/

/-- Threads that run for the same, on the same heads, as others did. -/
structure SamePosts (posts posts' : Nat → Option Post) : Prop where
  new : ∀ {t post}, posts t = some post →
    ∃ post', posts' t = some post' ∧ post'.completions = post.completions ∧ post'.head = post.head
  old : ∀ {t post'}, posts' t = some post' →
    ∃ post, posts t = some post ∧ post'.completions = post.completions ∧ post'.head = post.head

namespace SamePosts

variable {posts posts' : Nat → Option Post}

/-- One thread waits for something else. -/
theorem changed {t : Nat} {post : Post} (hpost : posts t = some post) (step : Option Nat) :
    SamePosts posts (changed posts t (some { post with step })) where
  new := by
    intro u other hother
    by_cases hu : u = t
    · subst hu
      rw [hpost] at hother
      cases hother
      exact ⟨_, changed_self _ _ _, rfl, rfl⟩
    · exact ⟨other, (changed_of_ne _ _ hu).trans hother, rfl, rfl⟩
  old := by
    intro u other hother
    exact changed_elim hother ⟨post, hpost, rfl, rfl⟩ fun hold => ⟨_, hold, rfl, rfl⟩

theorem runsFor (h : SamePosts posts posts') {n : Nat} :
    (∃ t post, posts' t = some post ∧ post.RunsFor n) ↔
      ∃ t post, posts t = some post ∧ post.RunsFor n := by
  constructor
  · rintro ⟨t, post, hpost, hruns⟩
    obtain ⟨old, hold, hsame, _⟩ := h.old hpost
    unfold Post.RunsFor at hruns
    rw [hsame] at hruns
    exact ⟨t, old, hold, hruns⟩
  · rintro ⟨t, post, hpost, hruns⟩
    obtain ⟨new, hnew, hsame, _⟩ := h.new hpost
    refine ⟨t, new, hnew, ?_⟩
    unfold Post.RunsFor
    rw [hsame]
    exact hruns

/-- A head that no body of a step uses was not used before. -/
theorem free (h : SamePosts posts posts') {n : Nat}
    (hfree : ∀ t post, posts' t = some post → ∀ index, post.completions ≠ [.body n index none]) :
    ∀ t post, posts t = some post → ∀ index, post.completions ≠ [.body n index none] := by
  intro t post hpost index hbody
  obtain ⟨new, hnew, hsame, _⟩ := h.new hpost
  exact hfree t new hnew index (hsame.trans hbody)

/-- Leaves are leaves as before. -/
theorem leaf (h : SamePosts posts posts') {post : Post} : Leaf posts' post ↔ Leaf posts post := by
  constructor
  · intro hleaf n hn u other hother index hbody
    obtain ⟨new, hnew, hsame, _⟩ := h.new hother
    exact hleaf n hn u new hnew index (hsame.trans hbody)
  · intro hleaf n hn u other hother index hbody
    obtain ⟨old, hold, hsame, _⟩ := h.old hother
    exact hleaf n hn u old hold index (hsame.symm.trans hbody)

/-- The same branches are on the heads. -/
theorem branches (h : SamePosts posts posts') (head : Nat) :
    (∃ t post n index s, posts t = some post ∧ post.completions = [.body n index (some ⟨head, s⟩)]) ↔
      ∃ t post n index s, posts' t = some post ∧
        post.completions = [.body n index (some ⟨head, s⟩)] := by
  constructor
  · rintro ⟨t, post, n, index, s, hpost, hbody⟩
    obtain ⟨new, hnew, hsame, _⟩ := h.new hpost
    exact ⟨t, new, n, index, s, hnew, hsame.trans hbody⟩
  · rintro ⟨t, post, n, index, s, hpost, hbody⟩
    obtain ⟨old, hold, hsame, _⟩ := h.old hpost
    exact ⟨t, old, n, index, s, hold, hsame.symm.trans hbody⟩

/-- What a thread runs for, it ran for before. -/
theorem body (h : SamePosts posts posts') {t : Nat} {post' : Post} {completions : List Completion}
    (hpost : posts' t = some post') (hbody : post'.completions = completions) :
    ∃ post, posts t = some post ∧ post.completions = completions := by
  obtain ⟨old, hold, hsame, _⟩ := h.old hpost
  exact ⟨old, hold, hsame.symm.trans hbody⟩

end SamePosts

namespace Grown

variable {σ : Scene} {t u m n : Nat} {post other : Post} {seat : Seat}

/-! ### A thread waits for something else -/

section Same

variable {posts' : Nat → Option Post} (h : Grown σ) (hsame : SamePosts σ.posts posts')

include h hsame

/-- A branch belongs to one thread. -/
theorem one_of_same {i j : Nat} {b c : Branch} (hpost : posts' t = some post)
    (hother : posts' u = some other) (hbody : post.completions = [.body m i (some b)])
    (hbody' : other.completions = [.body n j (some c)]) :
    (b.start = c.start → t = u) ∧ (b.head = c.head → t = u) := by
  obtain ⟨old, hold, hb⟩ := hsame.body hpost hbody
  obtain ⟨old', hold', hc⟩ := hsame.body hother hbody'
  exact ⟨h.oneStart hold hold' hb hc, h.oneHead hold hold' hb hc⟩

theorem branchOpen_of_same {s : Nat} (hopen : Open σ.nodes s) (hstart : StartAt σ.nodes true s) :
    ∃ t post n index head, posts' t = some post ∧
      post.completions = [.body n index (some ⟨head, s⟩)] := by
  obtain ⟨t, post, n, index, head, hpost, hbody⟩ := h.branchOpen hopen hstart
  obtain ⟨new, hnew, hcompletions, _⟩ := hsame.new hpost
  exact ⟨t, new, n, index, head, hnew, hcompletions.trans hbody⟩

/-- The heads that are in use stay so when one of them gets a new tip. -/
theorem heads_of_same {k p : Nat} (htip : σ.tips k = some p) (q head : Nat) :
    (changed σ.tips k (some q) head).isSome = true ↔ head = σ.base ∨
      ∃ t post n index s, posts' t = some post ∧
        post.completions = [.body n index (some ⟨head, s⟩)] := by
  rw [isSome_changed htip, h.heads]
  exact or_congr_right (hsame.branches head)

end Same

/-- Whoever goes on on a head did so before, if the thread that changes did. -/
theorem exclusive_changed (h : Grown σ) (hpost : σ.posts t = some post) (hleaf : Leaf σ.posts post)
    {step : Option Nat} {u v : Nat} {first second : Post}
    (hu : changed σ.posts t (some { post with step }) u = some first)
    (hv : changed σ.posts t (some { post with step }) v = some second)
    (hleafu : Leaf (changed σ.posts t (some { post with step })) first)
    (hleafv : Leaf (changed σ.posts t (some { post with step })) second)
    (heads : first.head = second.head) : u = v := by
  have hsame := SamePosts.changed hpost step
  have hold : ∀ {w other}, changed σ.posts t (some { post with step }) w = some other →
      Leaf (changed σ.posts t (some { post with step })) other →
      ∃ old, σ.posts w = some old ∧ Leaf σ.posts old ∧ old.head = other.head := by
    intro w other hw hleafw
    rcases changed_eq_some.mp hw with ⟨rfl, heq⟩ | ⟨_, hold⟩
    · cases heq
      exact ⟨post, hpost, hleaf, rfl⟩
    · exact ⟨other, hold, hsame.leaf.mp hleafw, rfl⟩
  obtain ⟨oldu, holdu, hleafu', hheadu⟩ := hold hu hleafu
  obtain ⟨oldv, holdv, hleafv', hheadv⟩ := hold hv hleafv
  exact h.exclusive holdu holdv hleafu' hleafv' (hheadu.trans (heads.trans hheadv.symm))

/-! ### A node comes to the others -/

section Append

variable {node : Node} (h : Grown σ)

include h

theorem unfinished_append (hkind : ∀ s, node.kind ≠ .flowEnd s) {old : Node}
    (hold : changed σ.nodes σ.next (some node) m = some old) (s : Nat) : old.kind ≠ .flowEnd s := by
  rcases changed_eq_some.mp hold with ⟨_, heq⟩ | ⟨_, hold⟩
  · cases heq
    exact hkind s
  · exact h.unfinished hold s

theorem tip_append {head k p : Nat} (htip : changed σ.tips k (some σ.next) head = some p) :
    ∃ last, changed σ.nodes σ.next (some node) p = some last := by
  rcases changed_eq_some.mp htip with ⟨_, heq⟩ | ⟨_, hold⟩
  · cases heq
    exact ⟨node, changed_self _ _ _⟩
  · obtain ⟨last, hlast⟩ := h.tip hold
    exact ⟨last, h.graph.extends_append node _ _ hlast⟩

/-- A step keeps the ends that it has, unless the new node ends one of its branches. -/
theorem ended_append (hseat : σ.seats n = some seat)
    (hnode : ∀ s, node.kind = .blockEnd s → ¬ BranchOf σ.nodes s n) :
    seat.branchTips.Nodup ∧ ∀ e, e ∈ seat.branchTips ↔
      ∃ s, BranchOf (changed σ.nodes σ.next (some node)) s n ∧
        EndOf (changed σ.nodes σ.next (some node)) e s := by
  obtain ⟨hnodup, hmem⟩ := h.ended hseat
  exact ⟨hnodup, fun e => (hmem e).trans (h.graph.branchEnd_append hnode).symm⟩

/-! ### One head changes, and who is on another one stays there -/

variable {k : Nat} {tip : Option Nat} {posts' : Nat → Option Post} {seats' : Nat → Option Seat}
  (hpost : σ.posts t = some post) (hleaf : Leaf σ.posts post) (hhead : post.head = k)

include hpost hleaf hhead

theorem atom_append (hseat : σ.seats n = some seat) (hatom : seat.isBlock = false)
    (hne : seat.thread ≠ t) :
    (∃ first, changed σ.nodes σ.next (some node) n = some first ∧ first.kind = .atom) ∧
      changed σ.tips k tip seat.head = some n := by
  obtain ⟨⟨first, hfirst, hkind⟩, htip⟩ := h.atom hseat hatom
  have hapart := hhead ▸ h.atom_apart hpost hleaf hseat hatom hne
  exact ⟨⟨first, h.graph.extends_append node _ _ hfirst, hkind⟩,
    (changed_of_ne _ _ hapart).trans htip⟩

theorem located_append (hother : σ.posts u = some other) (hne : u ≠ t)
    (hplace : ∀ {head blocks}, Located σ.posts σ.seats σ.base u head blocks →
      Located posts' seats' σ.base u head blocks) :
    ∃ blocks, Located posts' seats' σ.base u other.head blocks ∧
      (other.step = none → ∃ p, changed σ.tips k tip other.head = some p ∧
        After (changed σ.nodes σ.next (some node)) p blocks) := by
  obtain ⟨blocks, hlocated, hbehind⟩ := h.located hother
  refine ⟨blocks, hplace hlocated, fun hidle => ?_⟩
  obtain ⟨p, hp, hafter⟩ := hbehind hidle
  have hapart := hhead ▸ h.apart hpost hleaf hother (leaf_of_idle hidle) hne
  exact ⟨p, (changed_of_ne _ _ hapart).trans hp, hafter.mono (h.graph.extends_append node)⟩

theorem rests_append (hseat : σ.seats n = some seat) (hblock : seat.isBlock = true)
    (hfree : ∀ t post, σ.posts t = some post → ∀ index, post.completions ≠ [.body n index none])
    (hne : seat.thread ≠ t)
    (hplace : ∀ {head blocks}, Located σ.posts σ.seats σ.base seat.thread head blocks →
      Located posts' seats' σ.base seat.thread head blocks) :
    ∃ p blocks, changed σ.tips k tip seat.head = some p ∧
      Located posts' seats' σ.base seat.thread seat.head blocks ∧
        After (changed σ.nodes σ.next (some node)) p (n :: blocks) := by
  obtain ⟨p, blocks, hp, hlocated, hafter⟩ := h.rests hseat hblock hfree
  have hapart := hhead ▸ h.rest_apart hpost hleaf hseat hfree hne
  exact ⟨p, blocks, (changed_of_ne _ _ hapart).trans hp, hplace hlocated,
    hafter.mono (h.graph.extends_append node)⟩

end Append

end Grown

namespace Scene

/-! ## A thread starts a step -/

/-- **A thread starts a step**: its node comes behind the tip of the thread's head. -/
def startStep (σ : Scene) (t : Nat) (post : Post) (node : Node) (block : Bool) : Scene :=
  { σ with
    nodes := changed σ.nodes σ.next (some node)
    next := σ.next + 1
    tips := changed σ.tips post.head (some σ.next)
    opened := if block then σ.opened ++ [σ.next] else σ.opened
    posts := changed σ.posts t (some { post with step := some σ.next })
    seats := changed σ.seats σ.next
      (some { thread := t, head := post.head, isBlock := block, branchTips := [] }) }

end Scene

namespace Grown

variable {σ : Scene} {t n : Nat} {post : Post} {seat : Seat}

/-- A step without a block opens none, and one with a block opens its own. -/
theorem opened_append (h : Grown σ) {node : Node} {block : Bool}
    (hblock : (∃ body, node.kind = .blockStart body) ↔ block = true)
    (hend : ∀ s, node.kind ≠ .blockEnd s) :
    (if block then σ.opened ++ [σ.next] else σ.opened).Nodup ∧
      ∀ s, s ∈ (if block then σ.opened ++ [σ.next] else σ.opened) ↔
        Open (changed σ.nodes σ.next (some node)) s := by
  -- whatever is open has a node, and the next number has none yet
  have hnew : σ.next ∉ σ.opened := by
    intro hmem
    obtain ⟨⟨_, first, hfirst, _⟩, _⟩ := h.opened.mp hmem
    exact absurd (h.graph.below hfirst) (Nat.lt_irrefl _)
  cases block with
  | false =>
    refine ⟨h.nodup, fun s => ?_⟩
    rw [if_neg (by decide), h.opened, h.graph.open_append]
    constructor
    · exact fun hs => .inr ⟨hs, hend s⟩
    · rintro (⟨_, hno⟩ | ⟨hs, _⟩)
      · exact absurd (hblock.mp hno) (by decide)
      · exact hs
  | true =>
    refine ⟨?_, fun s => ?_⟩
    · rw [if_pos rfl, List.nodup_append]
      refine ⟨h.nodup, List.nodup_singleton _, ?_⟩
      intro a ha b hb heq
      rw [List.mem_singleton.mp hb] at heq
      exact hnew (heq ▸ ha)
    · rw [if_pos rfl, List.mem_append, List.mem_singleton, h.opened, h.graph.open_append]
      constructor
      · rintro (hs | rfl)
        · exact .inr ⟨hs, hend s⟩
        · exact .inl ⟨rfl, hblock.mpr rfl⟩
      · rintro (⟨rfl, _⟩ | ⟨hs, _⟩)
        · exact .inr rfl
        · exact .inl hs

/-- **Starting a step keeps the invariant.** -/
theorem startStep (h : Grown σ) (hpost : σ.posts t = some post) (hidle : post.step = none)
    {node : Node} {block : Bool} (hid : node.id = σ.next)
    (hkind : node.kind = if block then .blockStart false else .atom) {p : Nat}
    (htip : σ.tips post.head = some p) (hparents : node.parents = [p]) :
    Grown (σ.startStep t post node block) := by
  have hext := h.graph.extends_append node
  have hleaf : Leaf σ.posts post := leaf_of_idle hidle
  have hsame := SamePosts.changed hpost (some σ.next)
  have hparent : node.parents.head? = some p := by rw [hparents]; rfl
  have hblock : (∃ body, node.kind = .blockStart body) ↔ block = true := by
    rw [hkind]
    cases block <;> simp
  have hend : ∀ s, node.kind ≠ .blockEnd s := by
    rw [hkind]
    cases block <;> simp
  have hnobranch : node.kind ≠ .blockStart true := by
    rw [hkind]
    cases block <;> simp
  have hseats : ∀ {m old}, σ.seats m = some old →
      changed σ.seats σ.next (some { thread := t, head := post.head, isBlock := block, branchTips := [] })
        m = some old := changed_of_free h.no_seat _
  -- nothing above a thread is changed
  have hplace : ∀ {u head blocks}, Located σ.posts σ.seats σ.base u head blocks →
      Located (σ.startStep t post node block).posts (σ.startStep t post node block).seats σ.base u
        head blocks := by
    intro u head blocks hlocated
    refine hlocated.transfer (fun v other hother _ => ?_) fun m old hold _ => ⟨old, hseats hold, rfl⟩
    obtain ⟨new, hnew, hcompletions, _⟩ := hsame.new hother
    exact ⟨new, hnew, hcompletions⟩
  have hbranchOf : ∀ {s m}, BranchOf (changed σ.nodes σ.next (some node)) s m → BranchOf σ.nodes s m := by
    intro s m hs
    rcases h.graph.branchOf_append.mp hs with ⟨_, hno, _⟩ | hs
    · exact absurd hno hnobranch
    · exact hs
  have hopen : ∀ {s}, Open σ.nodes s → Open (changed σ.nodes σ.next (some node)) s :=
    fun hs => h.graph.open_append.mpr (.inr ⟨hs, hend _⟩)
  -- the thread goes on, so what is around it is what stands behind its head
  obtain ⟨around, haround, hbehind⟩ := h.located hpost
  obtain ⟨q, hq, hafter⟩ := hbehind hidle
  rw [htip] at hq
  cases hq
  constructor
  case graph =>
    refine h.graph.append hid ?_ ?_ fun s hs => absurd hs (hend s)
    · intro q hq
      rw [hparents, List.mem_singleton] at hq
      rw [hq]
      exact h.tip htip
    · rw [hkind]
      cases block <;> simp
  case unfinished =>
    refine h.unfinished_append ?_
    rw [hkind]
    cases block <;> simp
  case joins =>
    exact joins_append h.graph h.joins (fun hno => absurd hno hnobranch)
      (fun hno => absurd hno (hend _)) fun hno => absurd hno (hend _)
  case branches => exact fun hs => hext.startAt (h.branches (hbranchOf hs))
  case nodup => exact (h.opened_append hblock hend).1
  case opened => exact (h.opened_append hblock hend).2 _
  case stepOpen =>
    intro s hs hstart
    by_cases hs' : s = σ.next
    · subst hs'
      exact ⟨_, changed_self _ _ _⟩
    · have hold := (h.graph.open_append.mp hs).resolve_left fun hno => hs' hno.1
      have hstart' := (h.graph.startAt_append.mp hstart).resolve_left fun hno => hs' hno.1
      obtain ⟨old, hseat⟩ := h.stepOpen hold.1 hstart'
      exact ⟨old, hseats hseat⟩
  case branchOpen =>
    intro s hs hstart
    have hstart' := (h.graph.startAt_append.mp hstart).resolve_left fun hno => hnobranch hno.2
    exact h.branchOpen_of_same hsame (h.graph.open_of_append hstart' hs) hstart'
  case block =>
    intro m old hold hisBlock
    rcases changed_eq_some.mp hold with ⟨rfl, heq⟩ | ⟨_, hold⟩
    · cases heq
      have hstart : node.kind = .blockStart false := by
        rw [hkind, if_pos (show block = true from hisBlock)]
      exact ⟨h.graph.open_append.mpr (.inl ⟨rfl, false, hstart⟩),
        h.graph.startAt_append.mpr (.inl ⟨rfl, hstart⟩)⟩
    · obtain ⟨hs, hstart⟩ := h.block hold hisBlock
      exact ⟨hopen hs, hext.startAt hstart⟩
  case atom =>
    intro m old hold hatom
    rcases changed_eq_some.mp hold with ⟨rfl, heq⟩ | ⟨_, hold⟩
    · cases heq
      have hnoblock : block = false := hatom
      refine ⟨⟨node, changed_self _ _ _, ?_⟩, changed_self _ _ _⟩
      rw [hkind, if_neg (by rw [hnoblock]; decide)]
    · exact h.atom_append hpost hleaf rfl hold hatom (h.not_caller hpost hidle hold)
  case caller =>
    intro m old hold
    rcases changed_eq_some.mp hold with ⟨rfl, heq⟩ | ⟨_, hold⟩
    · cases heq
      exact ⟨_, changed_self _ _ _, rfl, rfl⟩
    · obtain ⟨caller, hcaller, hstep, hhead⟩ := h.caller hold
      exact ⟨caller, (changed_of_ne _ _ (h.not_caller hpost hidle hold)).trans hcaller, hstep, hhead⟩
  case ended =>
    intro m old hold
    rcases changed_eq_some.mp hold with ⟨rfl, heq⟩ | ⟨_, hold⟩
    · cases heq
      -- the new step has no branches yet, since nothing points at its node
      refine ⟨List.nodup_nil, fun e => ⟨fun hno => absurd hno List.not_mem_nil, ?_⟩⟩
      rintro ⟨s, hs, _⟩
      exact absurd (hbranchOf hs) (h.graph.not_branchOf s)
    · exact h.ended_append hold fun s hno => absurd hno (hend s)
  case placed =>
    intro m old hold
    rcases changed_eq_some.mp hold with ⟨rfl, heq⟩ | ⟨_, hold⟩
    · cases heq
      refine ⟨around, hplace haround, ?_⟩
      cases hb : block with
      | true =>
        rw [hb] at hkind
        exact .blockStart (changed_self _ _ _) hkind hparent (hafter.mono hext)
      | false =>
        rw [hb] at hkind
        exact .atom (changed_self _ _ _) hkind hparent (hafter.mono hext)
    · obtain ⟨blocks, hlocated, hafter'⟩ := h.placed hold
      exact ⟨blocks, hplace hlocated, hafter'.mono hext⟩
  case waits =>
    intro u other m hother hstep
    rcases changed_eq_some.mp hother with ⟨rfl, heq⟩ | ⟨_, hold⟩
    · cases heq
      cases hstep
      exact ⟨_, changed_self _ _ _, rfl⟩
    · obtain ⟨old, hseat, hthread⟩ := h.waits hold hstep
      exact ⟨old, hseats hseat, hthread⟩
  case runs =>
    intro u other m hother hruns
    obtain ⟨v, old, hold, hruns'⟩ := hsame.runsFor.mp ⟨u, other, hother, hruns⟩
    obtain ⟨seat, hseat, hisBlock⟩ := h.runs hold hruns'
    exact ⟨seat, hseats hseat, hisBlock⟩
  case branch =>
    intro u other m index branch hother hbody
    obtain ⟨old, hold, hcompletions, _⟩ := hsame.old hother
    obtain ⟨hs, hbranch, hbase⟩ := h.branch hold (hcompletions.symm.trans hbody)
    exact ⟨hopen hs, hext.branchOf hbranch, hbase⟩
  case oneStart => exact fun hu hv hb hc => (h.one_of_same hsame hu hv hb hc).1
  case oneHead => exact fun hu hv hb hc => (h.one_of_same hsame hu hv hb hc).2
  case located =>
    intro u other hother
    rcases changed_eq_some.mp hother with ⟨rfl, heq⟩ | ⟨hu, hold⟩
    · cases heq
      -- the thread waits from now on, so nothing is asked of the tip
      exact ⟨around, hplace haround, fun hno => (by cases hno)⟩
    · exact h.located_append hpost hleaf rfl hold hu hplace
  case exclusive =>
    exact fun hu hv hleafu hleafv heads => h.exclusive_changed hpost hleaf hu hv hleafu hleafv heads
  case heads => exact fun {head} => h.heads_of_same hsame htip _ head
  case tip => exact fun hq => h.tip_append hq
  case headBelow =>
    intro head q hq
    exact changed_elim hq (h.headBelow htip) h.headBelow
  case lined =>
    have hline : node.lineParents = [p] := by
      rw [Node.lineParents_of_ne fun s => by rw [hkind]; cases block <;> simp, hparents]
    exact h.lined.append_tip h.graph hline hafter (h.open_of_located haround) fun s hs => absurd hs (hend s)
  case rests =>
    intro m old hold hisBlock hfree
    have hfreeOld := hsame.free hfree
    rcases changed_eq_some.mp hold with ⟨rfl, heq⟩ | ⟨_, hold⟩
    · cases heq
      have hstart : node.kind = .blockStart false := by
        rw [hkind, if_pos (show block = true from hisBlock)]
      -- no body of the new step has begun, and its node is the tip
      exact ⟨σ.next, around, changed_self _ _ _, hplace haround,
        .blockStart (changed_self _ _ _) hstart hparent (hafter.mono hext)⟩
    · exact h.rests_append hpost hleaf rfl hold hisBlock hfreeOld (h.not_caller hpost hidle hold) hplace
  case emptied =>
    intro hnone
    exact absurd ((changed_self _ _ _).symm.trans (hnone t)) (by simp)

end Grown

/-! ## A body gets a thread -/

/-- One thread comes to the others. -/
theorem Located.spawned {posts : Nat → Option Post} {seats : Nat → Option Seat} {base t u head : Nat}
    {blocks : List Nat} {post : Post} (hfree : posts t = none)
    (h : Located posts seats base u head blocks) :
    Located (changed posts t (some post)) seats base u head blocks := by
  refine h.transfer (fun v other hother _ => ?_) fun m old hold _ => ⟨old, hold, rfl⟩
  exact ⟨other, changed_of_free hfree _ hother, rfl⟩

/-- A leaf among more threads was one before. -/
theorem Leaf.of_spawned {posts : Nat → Option Post} {t : Nat} {post other : Post}
    (hfree : posts t = none) (h : Leaf (changed posts t (some post)) other) : Leaf posts other := by
  intro n hn u child hchild
  exact h n hn u child (changed_of_free hfree _ hchild)

namespace Scene

/-- **A body goes on on the head of its step**, as a thread of its own. -/
def spawn (σ : Scene) (t n index : Nat) (seat : Seat) : Scene :=
  { σ with
    posts := changed σ.posts t
      (some { head := seat.head, step := none, completions := [.body n index none] }) }

end Scene

namespace Grown

variable {σ : Scene} {t n index : Nat} {seat : Seat}

/-- **A thread for a body on the head of its step keeps the invariant**, if it is the only one. -/
theorem spawn (h : Grown σ) (hfree : σ.posts t = none) (hseat : σ.seats n = some seat)
    (hblock : seat.isBlock = true) (htip : σ.tips seat.head = some n)
    (hfirst : ∀ u other, σ.posts u = some other → ∀ i, other.completions ≠ [.body n i none]) :
    Grown (σ.spawn t n index seat) := by
  let post : Post := { head := seat.head, step := none, completions := [.body n index none] }
  have hold : ∀ {u other}, σ.posts u = some other →
      changed σ.posts t (some post) u = some other := changed_of_free hfree _
  have hbranch : ∀ {u other m i b}, changed σ.posts t (some post) u = some other →
      other.completions = [.body m i (some b)] → σ.posts u = some other := by
    intro u other m i b hother hbody
    rcases changed_eq_some.mp hother with ⟨_, heq⟩ | ⟨_, hother⟩
    · cases heq
      cases hbody
    · exact hother
  obtain ⟨caller, hcaller, hwaits, hhead⟩ := h.caller hseat
  have hcallerLeaf : Leaf σ.posts caller := leaf_of_rest hfirst hwaits
  -- who calls the step is a leaf no longer
  have hcallerOver : ¬ Leaf (changed σ.posts t (some post)) caller := fun hleaf =>
    hleaf n hwaits t post (changed_self _ _ _) index rfl
  obtain ⟨around, haround, hbehind⟩ := h.placed hseat
  rw [if_pos hblock] at hbehind
  constructor
  case graph => exact h.graph
  case unfinished => exact h.unfinished
  case joins => exact h.joins
  case branches => exact h.branches
  case nodup => exact h.nodup
  case opened => exact h.opened
  case stepOpen => exact h.stepOpen
  case branchOpen =>
    intro s hs hstart
    obtain ⟨u, child, m, i, head, hchild, hbody⟩ := h.branchOpen hs hstart
    exact ⟨u, child, m, i, head, hold hchild, hbody⟩
  case block => exact h.block
  case atom => exact h.atom
  case caller =>
    intro m other hother
    obtain ⟨first, hfound, hstep, hsame⟩ := h.caller hother
    exact ⟨first, hold hfound, hstep, hsame⟩
  case ended => exact h.ended
  case placed =>
    intro m other hother
    obtain ⟨blocks, hlocated, hafter⟩ := h.placed hother
    exact ⟨blocks, hlocated.spawned hfree, hafter⟩
  case waits =>
    intro u other m hother hstep
    rcases changed_eq_some.mp hother with ⟨_, heq⟩ | ⟨_, hother⟩
    · cases heq
      cases hstep
    · exact h.waits hother hstep
  case runs =>
    intro u other m hother hruns
    rcases changed_eq_some.mp hother with ⟨_, heq⟩ | ⟨_, hother⟩
    · cases heq
      obtain ⟨_, _, hbody⟩ := hruns
      cases hbody
      exact ⟨seat, hseat, hblock⟩
    · exact h.runs hother hruns
  case branch => exact fun hother hbody => h.branch (hbranch hother hbody) hbody
  case oneStart =>
    exact fun hu hv hb hc => h.oneStart (hbranch hu hb) (hbranch hv hc) hb hc
  case oneHead =>
    exact fun hu hv hb hc => h.oneHead (hbranch hu hb) (hbranch hv hc) hb hc
  case located =>
    intro u other hother
    rcases changed_eq_some.mp hother with ⟨rfl, heq⟩ | ⟨_, hother⟩
    · cases heq
      refine ⟨n :: around, ?_, fun _ => ⟨n, htip, hbehind⟩⟩
      exact .body (changed_self _ _ _) rfl hseat (haround.spawned hfree)
    · obtain ⟨blocks, hlocated, hafter⟩ := h.located hother
      exact ⟨blocks, hlocated.spawned hfree, hafter⟩
  case exclusive =>
    intro u v first second hu hv hleafu hleafv heads
    -- on the head of the step only its caller was a leaf
    have hnew : ∀ {w other}, σ.posts w = some other → Leaf (changed σ.posts t (some post)) other →
        other.head ≠ seat.head := by
      intro w other hother hleaf heq
      have hsame : w = seat.thread :=
        h.exclusive hother hcaller (hleaf.of_spawned hfree) hcallerLeaf (heq.trans hhead.symm)
      rw [hsame, hcaller] at hother
      cases hother
      exact hcallerOver hleaf
    rcases changed_eq_some.mp hu with ⟨hut, heq⟩ | ⟨_, holdu⟩ <;>
    rcases changed_eq_some.mp hv with ⟨hvt, heq'⟩ | ⟨_, holdv⟩
    · exact hut.trans hvt.symm
    · cases heq
      exact absurd heads.symm (hnew holdv hleafv)
    · cases heq'
      exact absurd heads (hnew holdu hleafu)
    · exact h.exclusive holdu holdv (hleafu.of_spawned hfree) (hleafv.of_spawned hfree) heads
  case heads =>
    intro head
    rw [show (σ.spawn t n index seat).tips = σ.tips from rfl, h.heads]
    refine or_congr_right ⟨?_, ?_⟩
    · rintro ⟨u, other, m, i, s, hother, hbody⟩
      exact ⟨u, other, m, i, s, hold hother, hbody⟩
    · rintro ⟨u, other, m, i, s, hother, hbody⟩
      exact ⟨u, other, m, i, s, hbranch hother hbody, hbody⟩
  case tip => exact h.tip
  case headBelow => exact h.headBelow
  case lined => exact h.lined
  case rests =>
    intro m other hother hisBlock hfreed
    obtain ⟨p, blocks, hp, hlocated, hafter⟩ := h.rests hother hisBlock fun u child hchild =>
      hfreed u child (hold hchild)
    exact ⟨p, blocks, hp, hlocated.spawned hfree, hafter⟩
  case emptied =>
    intro hnone
    exact absurd ((changed_self _ _ _).symm.trans (hnone t)) (by simp)

end Grown

/-! ## A body gets a branch -/

namespace Scene

/-- **A body goes on on a branch of its own**, which starts at the node of its step. -/
def openBranch (σ : Scene) (t n index : Nat) (node : Node) : Scene :=
  { σ with
    nodes := changed σ.nodes σ.next (some node)
    next := σ.next + 1
    tips := changed σ.tips σ.nextHead (some σ.next)
    nextHead := σ.nextHead + 1
    opened := σ.opened ++ [σ.next]
    posts := changed σ.posts t
      (some
        { head := σ.nextHead, step := none
          completions := [.body n index (some ⟨σ.nextHead, σ.next⟩)] }) }

end Scene

namespace Grown

variable {σ : Scene} {t n index : Nat} {seat : Seat} {node : Node}

/-- A branch that is there starts at another node than the next one, and is on another head. -/
theorem branch_before (h : Grown σ) {u m i : Nat} {other : Post} {b : Branch}
    (hother : σ.posts u = some other) (hbody : other.completions = [.body m i (some b)]) :
    b.start ≠ σ.next ∧ b.head ≠ σ.nextHead := by
  obtain ⟨_, ⟨first, hfirst, _⟩, _⟩ := h.branch hother hbody
  refine ⟨ne_of_free h.graph.free hfirst, ?_⟩
  rw [← h.head_of_branch hother hbody]
  exact Nat.ne_of_lt (h.head_below hother)

/-- The new branch belongs to the new thread, and the other ones to those that had them. -/
theorem one_of_opened (h : Grown σ) {post first second : Post} {u v m k i j : Nat} {b c : Branch}
    (hown : post.completions = [.body n index (some ⟨σ.nextHead, σ.next⟩)])
    (hu : changed σ.posts t (some post) u = some first)
    (hv : changed σ.posts t (some post) v = some second)
    (hb : first.completions = [.body m i (some b)])
    (hc : second.completions = [.body k j (some c)]) :
    (b.start = c.start → u = v) ∧ (b.head = c.head → u = v) := by
  rcases changed_eq_some.mp hu with ⟨hut, hpost⟩ | ⟨_, holdu⟩ <;>
  rcases changed_eq_some.mp hv with ⟨hvt, hpost'⟩ | ⟨_, holdv⟩
  · exact ⟨fun _ => hut.trans hvt.symm, fun _ => hut.trans hvt.symm⟩
  · cases hpost
    cases hown.symm.trans hb
    obtain ⟨hstart, hhead⟩ := h.branch_before holdv hc
    exact ⟨fun heq => absurd heq.symm hstart, fun heq => absurd heq.symm hhead⟩
  · cases hpost'
    cases hown.symm.trans hc
    obtain ⟨hstart, hhead⟩ := h.branch_before holdu hb
    exact ⟨fun heq => absurd heq hstart, fun heq => absurd heq hhead⟩
  · exact ⟨h.oneStart holdu holdv hb hc, h.oneHead holdu holdv hb hc⟩

/-- **A branch keeps the invariant.** -/
theorem openBranch (h : Grown σ) (hfree : σ.posts t = none) (hseat : σ.seats n = some seat)
    (hblock : seat.isBlock = true) (hid : node.id = σ.next) (hkind : node.kind = .blockStart true)
    (hparents : node.parents = [n]) : Grown (σ.openBranch t n index node) := by
  let post : Post :=
    { head := σ.nextHead, step := none
      completions := [.body n index (some ⟨σ.nextHead, σ.next⟩)] }
  have hext := h.graph.extends_append node
  have hend : ∀ s, node.kind ≠ .blockEnd s := by
    intro s
    rw [hkind]
    exact NodeKind.noConfusion
  have hopen : ∀ {s}, Open σ.nodes s → Open (changed σ.nodes σ.next (some node)) s :=
    fun hs => h.graph.open_append.mpr (.inr ⟨hs, hend _⟩)
  have hbranches : ∀ {s m}, BranchOf (changed σ.nodes σ.next (some node)) s m →
      s = σ.next ∧ m = n ∨ BranchOf σ.nodes s m := by
    intro s m hs
    rcases h.graph.branchOf_append.mp hs with ⟨heq, _, hparents'⟩ | hs
    · rw [hparents] at hparents'
      exact .inl ⟨heq, (List.cons.inj hparents').1.symm⟩
    · exact .inr hs
  have hnew : BranchOf (changed σ.nodes σ.next (some node)) σ.next n :=
    ⟨node, changed_self _ _ _, hkind, hparents⟩
  have hold : ∀ {u other}, σ.posts u = some other →
      changed σ.posts t (some post) u = some other := changed_of_free hfree _
  have htips : ∀ {head p}, σ.tips head = some p →
      changed σ.tips σ.nextHead (some σ.next) head = some p := by
    intro head p hp
    rw [changed_of_ne _ _ (Nat.ne_of_lt (h.headBelow hp)), hp]
  -- the branch goes on from the node of the step, where the blocks around it are known
  obtain ⟨hopenStep, hstart⟩ := h.block hseat hblock
  obtain ⟨around, haround, hbehind⟩ := h.placed hseat
  rw [if_pos hblock] at hbehind
  constructor
  case graph =>
    refine h.graph.append hid ?_ ?_ fun s hs => absurd hs (hend s)
    · intro p hp
      rw [hparents, List.mem_singleton] at hp
      obtain ⟨first, hfirst, _⟩ := hstart
      exact ⟨first, hp ▸ hfirst⟩
    · rw [hkind]
      exact NodeKind.noConfusion
  case unfinished => exact h.unfinished_append fun s => by rw [hkind]; exact NodeKind.noConfusion
  case joins =>
    -- the block of the step is still open, so nothing has joined its branches
    refine joins_append h.graph h.joins (fun _ hparents' => ?_) (fun hno => absurd hno (hend _))
      fun hno => absurd hno (hend _)
    obtain rfl := (List.cons.inj (hparents.symm.trans hparents')).1
    exact hopenStep
  case branches =>
    intro s m hs
    rcases hbranches hs with ⟨_, rfl⟩ | hs
    · exact hext.startAt hstart
    · exact hext.startAt (h.branches hs)
  case nodup => exact (h.opened_append (iff_of_true ⟨true, hkind⟩ rfl) hend).1
  case opened => exact (h.opened_append (iff_of_true ⟨true, hkind⟩ rfl) hend).2 _
  case stepOpen =>
    intro s hs hstart'
    have hbefore := (h.graph.startAt_append.mp hstart').resolve_left fun hno => by
      rw [hkind] at hno
      cases hno.2
    exact h.stepOpen (h.graph.open_of_append hbefore hs) hbefore
  case branchOpen =>
    intro s hs hstart'
    rcases h.graph.startAt_append.mp hstart' with ⟨rfl, _⟩ | hbefore
    · exact ⟨t, post, n, index, σ.nextHead, changed_self _ _ _, rfl⟩
    · have hbeforeOpen := h.graph.open_of_append hbefore hs
      obtain ⟨u, child, m, i, head, hchild, hbody⟩ := h.branchOpen hbeforeOpen hbefore
      exact ⟨u, child, m, i, head, hold hchild, hbody⟩
  case block =>
    intro m other hother hisBlock
    obtain ⟨hs, hstart'⟩ := h.block hother hisBlock
    exact ⟨hopen hs, hext.startAt hstart'⟩
  case atom =>
    intro m other hother hatom
    obtain ⟨⟨first, hfirst, hkind'⟩, htip⟩ := h.atom hother hatom
    exact ⟨⟨first, hext _ _ hfirst, hkind'⟩, htips htip⟩
  case caller =>
    intro m other hother
    obtain ⟨caller, hcaller, hstep, hhead⟩ := h.caller hother
    exact ⟨caller, hold hcaller, hstep, hhead⟩
  case ended => exact fun hother => h.ended_append hother fun s hno => absurd hno (hend s)
  case placed =>
    intro m other hother
    obtain ⟨blocks, hlocated, hafter⟩ := h.placed hother
    exact ⟨blocks, hlocated.spawned hfree, hafter.mono hext⟩
  case waits =>
    intro u other m hother hstep
    rcases changed_eq_some.mp hother with ⟨_, heq⟩ | ⟨_, hother⟩
    · cases heq
      cases hstep
    · exact h.waits hother hstep
  case runs =>
    intro u other m hother hruns
    rcases changed_eq_some.mp hother with ⟨_, heq⟩ | ⟨_, hother⟩
    · cases heq
      obtain ⟨_, _, hbody⟩ := hruns
      cases hbody
      exact ⟨seat, hseat, hblock⟩
    · exact h.runs hother hruns
  case branch =>
    intro u other m i b hother hbody
    rcases changed_eq_some.mp hother with ⟨_, heq⟩ | ⟨_, hother⟩
    · cases heq
      cases hbody
      exact ⟨h.graph.open_append.mpr (.inl ⟨rfl, true, hkind⟩), hnew, Nat.ne_of_gt h.base_below⟩
    · obtain ⟨hs, hbranch, hbase⟩ := h.branch hother hbody
      exact ⟨hopen hs, hext.branchOf hbranch, hbase⟩
  case oneStart =>
    exact fun hu hv hb hc => (h.one_of_opened rfl hu hv hb hc).1
  case oneHead =>
    exact fun hu hv hb hc => (h.one_of_opened rfl hu hv hb hc).2
  case located =>
    intro u other hother
    rcases changed_eq_some.mp hother with ⟨rfl, heq⟩ | ⟨_, hother⟩
    · cases heq
      let own : Branch := ⟨σ.nextHead, σ.next⟩
      refine ⟨own.start :: n :: around, ?_, fun _ => ⟨σ.next, changed_self _ _ _, ?_⟩⟩
      · have hbody : post.completions = [.body n index (some own)] := rfl
        exact Located.branch (changed_self _ _ _) hbody hseat (haround.spawned hfree)
      · exact .blockStart (changed_self _ _ _) hkind (by rw [hparents]; rfl) (hbehind.mono hext)
    · obtain ⟨blocks, hlocated, hidle⟩ := h.located hother
      refine ⟨blocks, hlocated.spawned hfree, fun hstep => ?_⟩
      obtain ⟨p, hp, hafter⟩ := hidle hstep
      exact ⟨p, htips hp, hafter.mono hext⟩
  case exclusive =>
    intro u v first second hu hv hleafu hleafv heads
    rcases changed_eq_some.mp hu with ⟨hut, heq⟩ | ⟨_, holdu⟩ <;>
    rcases changed_eq_some.mp hv with ⟨hvt, heq'⟩ | ⟨_, holdv⟩
    · exact hut.trans hvt.symm
    · cases heq
      -- the head of the branch is new, so nobody else is on it
      exact absurd heads.symm (Nat.ne_of_lt (h.head_below holdv))
    · cases heq'
      exact absurd heads (Nat.ne_of_lt (h.head_below holdu))
    · exact h.exclusive holdu holdv (hleafu.of_spawned hfree) (hleafv.of_spawned hfree) heads
  case heads =>
    intro head
    show (changed σ.tips σ.nextHead (some σ.next) head).isSome = true ↔ head = σ.base ∨ _
    by_cases hhead : head = σ.nextHead
    · subst hhead
      rw [changed_self]
      exact ⟨fun _ => .inr ⟨t, post, n, index, σ.next, changed_self _ _ _, rfl⟩, fun _ => rfl⟩
    · rw [changed_of_ne _ _ hhead, h.heads]
      refine or_congr_right ⟨?_, ?_⟩
      · rintro ⟨u, other, m, i, s, hother, hbody⟩
        exact ⟨u, other, m, i, s, hold hother, hbody⟩
      · rintro ⟨u, other, m, i, s, hother, hbody⟩
        rcases changed_eq_some.mp hother with ⟨_, heq⟩ | ⟨_, hother⟩
        · cases heq
          cases hbody
          exact absurd rfl hhead
        · exact ⟨u, other, m, i, s, hother, hbody⟩
  case tip => exact fun hp => h.tip_append hp
  case headBelow =>
    intro head p hp
    exact changed_elim hp (Nat.lt_succ_self _) fun hbefore => Nat.lt_succ_of_lt (h.headBelow hbefore)
  case lined =>
    have hline : node.lineParents = [n] := by
      rw [Node.lineParents_of_ne fun s => by rw [hkind]; exact NodeKind.noConfusion, hparents]
    refine h.lined.append_tip h.graph hline hbehind (fun s hs => ?_) fun s hs => absurd hs (hend s)
    rcases List.mem_cons.mp hs with rfl | hs
    · exact (h.block hseat hblock).1
    · exact h.open_of_located haround s hs
  case rests =>
    intro m other hother hisBlock hfreed
    obtain ⟨p, blocks, hp, hlocated, hafter⟩ := h.rests hother hisBlock fun u child hchild =>
      hfreed u child (hold hchild)
    exact ⟨p, blocks, htips hp, hlocated.spawned hfree, hafter.mono hext⟩
  case emptied =>
    intro hnone
    exact absurd ((changed_self _ _ _).symm.trans (hnone t)) (by simp)

end Grown

end DurableFlow.History
