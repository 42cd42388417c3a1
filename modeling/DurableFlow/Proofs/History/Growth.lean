/-
How a history grows while a program runs.

Of the threads and steps of a program the history only needs to know on which heads they
stand, what they wait for and what they run for. Together with the nodes and the tips of
the heads this is a scene, and there are a few moves from one scene to the next: a thread
starts a step, a body gets a branch, a thread ends, a step is over. The invariant of a scene
says that every open block belongs to a live step or to a live branch, and that what stands
behind the tip of a head is what the threads and steps on that head are nested in.

Two things make the moves go through. Only one thread or step at a time can extend a head:
those above it on the same head wait for steps whose bodies are not over. And the blocks
around a thread follow from the tree of threads and steps alone, so nodes that are appended
elsewhere do not change them.
-/
import DurableFlow.Execution.Record
import DurableFlow.Proofs.History.Lines

set_option autoImplicit false

namespace DurableFlow.History

/-! ## Scenes -/

/-- What the history needs to know of a thread. -/
structure Post where
  head : Nat
  step : Option Nat
  completions : List Completion

/-- What the history needs to know of a live step. -/
structure Seat where
  thread : Nat
  head : Nat
  isBlock : Bool
  branchTips : List Nat

/-- **A history with the threads and steps that extend it.** -/
structure Scene where
  nodes : Nodes
  next : Nat
  start : Nat
  /-- The last node of each head. -/
  tips : Nat → Option Nat
  nextHead : Nat
  /-- The blocks that are noted as open. -/
  opened : List Nat
  /-- The head of the script. -/
  base : Nat
  posts : Nat → Option Post
  seats : Nat → Option Seat

/-- A thread runs a body of a step. -/
def Post.RunsFor (post : Post) (n : Nat) : Prop :=
  ∃ index branch, post.completions = [.body n index branch]

/-- **Where a thread stands**: on which head, and inside which blocks, innermost first. -/
inductive Located (posts : Nat → Option Post) (seats : Nat → Option Seat) (base : Nat) :
    Nat → Nat → List Nat → Prop
  | root {t : Nat} {post : Post} (hpost : posts t = some post)
    (hroot : post.completions = [.root]) : Located posts seats base t base []
  | body {t n index head : Nat} {post : Post} {seat : Seat} {blocks : List Nat}
    (hpost : posts t = some post) (hbody : post.completions = [.body n index none])
    (hseat : seats n = some seat) (h : Located posts seats base seat.thread head blocks) :
    Located posts seats base t head (n :: blocks)
  | branch {t n index head : Nat} {branch : Branch} {post : Post} {seat : Seat}
    {blocks : List Nat} (hpost : posts t = some post)
    (hbody : post.completions = [.body n index (some branch)]) (hseat : seats n = some seat)
    (h : Located posts seats base seat.thread head blocks) :
    Located posts seats base t branch.head (branch.start :: n :: blocks)

namespace Located

variable {posts posts' : Nat → Option Post} {seats seats' : Nat → Option Seat} {base : Nat}

/-- A place depends on the threads that wait above it and on the steps they wait for. -/
theorem transfer {t head : Nat} {blocks : List Nat} (h : Located posts seats base t head blocks)
    (hposts : ∀ u post, posts u = some post →
      (u = t ∨ ∃ n seat, seats n = some seat ∧ seat.thread = u) →
      ∃ post', posts' u = some post' ∧ post'.completions = post.completions)
    (hseats : ∀ n seat, seats n = some seat → (∃ u post, posts u = some post ∧ post.RunsFor n) →
      ∃ seat', seats' n = some seat' ∧ seat'.thread = seat.thread) :
    Located posts' seats' base t head blocks := by
  induction h with
  | root hpost hroot =>
    obtain ⟨post', hpost', hsame⟩ := hposts _ _ hpost (.inl rfl)
    exact .root hpost' (hsame.trans hroot)
  | body hpost hbody hseat _ ih =>
    obtain ⟨post', hpost', hsame⟩ := hposts _ _ hpost (.inl rfl)
    obtain ⟨seat', hseat', hthread⟩ := hseats _ _ hseat ⟨_, _, hpost, _, _, hbody⟩
    have hcaller := ih fun u post hu hwho => hposts u post hu (.inr (hwho.elim
      (fun heq => ⟨_, _, hseat, heq.symm⟩) id))
    rw [← hthread] at hcaller
    exact .body hpost' (hsame.trans hbody) hseat' hcaller
  | branch hpost hbody hseat _ ih =>
    obtain ⟨post', hpost', hsame⟩ := hposts _ _ hpost (.inl rfl)
    obtain ⟨seat', hseat', hthread⟩ := hseats _ _ hseat ⟨_, _, hpost, _, _, hbody⟩
    have hcaller := ih fun u post hu hwho => hposts u post hu (.inr (hwho.elim
      (fun heq => ⟨_, _, hseat, heq.symm⟩) id))
    rw [← hthread] at hcaller
    exact .branch hpost' (hsame.trans hbody) hseat' hcaller

/-- Nothing is around the thread of the script. -/
theorem of_root {t head : Nat} {blocks : List Nat} {post : Post} (h : Located posts seats base t head blocks)
    (hpost : posts t = some post) (hroot : post.completions = [.root]) : head = base ∧ blocks = [] := by
  cases h with
  | root _ _ => exact ⟨rfl, rfl⟩
  | body hpost' hbody _ _ | branch hpost' hbody _ _ =>
    rw [hpost] at hpost'
    cases hpost'
    rw [hroot] at hbody
    cases hbody

/-- Around a thread that runs a body are the block of its branch, if it has one, the block of the step
and the blocks around the step's caller. -/
theorem around {t head n index : Nat} {blocks : List Nat} {post : Post} {branch : Option Branch}
    (h : Located posts seats base t head blocks) (hpost : posts t = some post)
    (hmem : .body n index branch ∈ post.completions) :
    ∃ seat head' outer, seats n = some seat ∧ Located posts seats base seat.thread head' outer ∧
      head = (branch.map Branch.head).getD head' ∧
      blocks = (branch.map Branch.start).toList ++ n :: outer := by
  cases h with
  | root hpost' hroot =>
    rw [hpost] at hpost'
    cases hpost'
    rw [hroot, List.mem_singleton] at hmem
    cases hmem
  | body hpost' hbody hseat hcaller =>
    rw [hpost] at hpost'
    cases hpost'
    rw [hbody, List.mem_singleton] at hmem
    cases hmem
    exact ⟨_, _, _, hseat, hcaller, rfl, rfl⟩
  | branch hpost' hbody hseat hcaller =>
    rw [hpost] at hpost'
    cases hpost'
    rw [hbody, List.mem_singleton] at hmem
    cases hmem
    exact ⟨_, _, _, hseat, hcaller, rfl, rfl⟩

/-- A thread stands in one place. -/
theorem unique {t head head' : Nat} {blocks blocks' : List Nat}
    (h : Located posts seats base t head blocks) (h' : Located posts seats base t head' blocks') :
    head = head' ∧ blocks = blocks' := by
  induction h generalizing head' blocks' with
  | root hpost hroot =>
    obtain ⟨rfl, rfl⟩ := h'.of_root hpost hroot
    exact ⟨rfl, rfl⟩
  | body hpost hbody hseat _ ih =>
    obtain ⟨seat', _, outer, hseat', hcaller, rfl, rfl⟩ :=
      h'.around hpost (hbody ▸ List.mem_singleton_self _)
    obtain rfl := Option.some.inj (hseat.symm.trans hseat')
    obtain ⟨rfl, rfl⟩ := ih hcaller
    exact ⟨rfl, rfl⟩
  | branch hpost hbody hseat _ ih =>
    obtain ⟨seat', _, outer, hseat', hcaller, rfl, rfl⟩ :=
      h'.around hpost (hbody ▸ List.mem_singleton_self _)
    obtain rfl := Option.some.inj (hseat.symm.trans hseat')
    obtain ⟨_, rfl⟩ := ih hcaller
    exact ⟨rfl, rfl⟩

end Located

/-- A thread on whose head no body of the step that it waits for goes on. -/
def Leaf (posts : Nat → Option Post) (post : Post) : Prop :=
  ∀ n, post.step = some n → ∀ u other, posts u = some other →
    ∀ index, other.completions ≠ [.body n index none]

/-- **The end of a block joins the ends of its branches**, if it has any. -/
def Joins (nodes : Nodes) : Prop :=
  ∀ {e n node}, nodes e = some node → node.kind = .blockEnd n → (∃ s, BranchOf nodes s n) →
    node.parents.Nodup ∧ ∀ p, p ∈ node.parents ↔ ∃ s, BranchOf nodes s n ∧ EndOf nodes p s

/-- **The invariant of a scene.** -/
structure Grown (σ : Scene) : Prop where
  graph : Graph σ.nodes σ.next σ.start
  unfinished : ∀ {n node}, σ.nodes n = some node → ∀ s, node.kind ≠ .flowEnd s
  joins : Joins σ.nodes
  branches : ∀ {s n}, BranchOf σ.nodes s n → StartAt σ.nodes false n
  nodup : σ.opened.Nodup
  opened : ∀ {s}, s ∈ σ.opened ↔ Open σ.nodes s
  /-- An open block of a step belongs to a live step. -/
  stepOpen : ∀ {s}, Open σ.nodes s → StartAt σ.nodes false s → ∃ seat, σ.seats s = some seat
  /-- An open block of a branch belongs to a live thread. -/
  branchOpen : ∀ {s}, Open σ.nodes s → StartAt σ.nodes true s →
    ∃ t post n index head, σ.posts t = some post ∧
      post.completions = [.body n index (some ⟨head, s⟩)]
  block : ∀ {n seat}, σ.seats n = some seat → seat.isBlock = true →
    Open σ.nodes n ∧ StartAt σ.nodes false n
  atom : ∀ {n seat}, σ.seats n = some seat → seat.isBlock = false →
    (∃ node, σ.nodes n = some node ∧ node.kind = .atom) ∧ σ.tips seat.head = some n
  caller : ∀ {n seat}, σ.seats n = some seat →
    ∃ post, σ.posts seat.thread = some post ∧ post.step = some n ∧ post.head = seat.head
  /-- A step keeps the ends of its branches that have ended. -/
  ended : ∀ {n seat}, σ.seats n = some seat → seat.branchTips.Nodup ∧
    ∀ e, e ∈ seat.branchTips ↔ ∃ s, BranchOf σ.nodes s n ∧ EndOf σ.nodes e s
  /-- A step lies in the blocks around the thread that called it. -/
  placed : ∀ {n seat}, σ.seats n = some seat →
    ∃ blocks, Located σ.posts σ.seats σ.base seat.thread seat.head blocks ∧
      After σ.nodes n (if seat.isBlock then n :: blocks else blocks)
  waits : ∀ {t post n}, σ.posts t = some post → post.step = some n →
    ∃ seat, σ.seats n = some seat ∧ seat.thread = t
  runs : ∀ {t post n}, σ.posts t = some post → post.RunsFor n →
    ∃ seat, σ.seats n = some seat ∧ seat.isBlock = true
  branch : ∀ {t post n index branch}, σ.posts t = some post →
    post.completions = [.body n index (some branch)] →
    Open σ.nodes branch.start ∧ BranchOf σ.nodes branch.start n ∧ branch.head ≠ σ.base
  oneStart : ∀ {t u post other m n i j b c}, σ.posts t = some post → σ.posts u = some other →
    post.completions = [.body m i (some b)] → other.completions = [.body n j (some c)] →
    b.start = c.start → t = u
  oneHead : ∀ {t u post other m n i j b c}, σ.posts t = some post → σ.posts u = some other →
    post.completions = [.body m i (some b)] → other.completions = [.body n j (some c)] →
    b.head = c.head → t = u
  located : ∀ {t post}, σ.posts t = some post →
    ∃ blocks, Located σ.posts σ.seats σ.base t post.head blocks ∧
      (post.step = none → ∃ p, σ.tips post.head = some p ∧ After σ.nodes p blocks)
  /-- Of the threads on a head, one goes on. -/
  exclusive : ∀ {t u post other}, σ.posts t = some post → σ.posts u = some other →
    Leaf σ.posts post → Leaf σ.posts other → post.head = other.head → t = u
  heads : ∀ {head}, (σ.tips head).isSome = true ↔ head = σ.base ∨
    ∃ t post n index s, σ.posts t = some post ∧
      post.completions = [.body n index (some ⟨head, s⟩)]
  tip : ∀ {head p}, σ.tips head = some p → ∃ node, σ.nodes p = some node
  headBelow : ∀ {head p}, σ.tips head = some p → head < σ.nextHead
  lined : Lined σ.nodes
  /-- A step with a block whose head no body uses has not been left. -/
  rests : ∀ {n seat}, σ.seats n = some seat → seat.isBlock = true →
    (∀ t post, σ.posts t = some post → ∀ index, post.completions ≠ [.body n index none]) →
    ∃ p blocks, σ.tips seat.head = some p ∧
      Located σ.posts σ.seats σ.base seat.thread seat.head blocks ∧ After σ.nodes p (n :: blocks)
  /-- When no thread is left, all blocks behind the head of the script were closed. -/
  emptied : (∀ t, σ.posts t = none) → ∃ p, σ.tips σ.base = some p ∧ After σ.nodes p []

/-! ## What follows from the invariant -/

theorem leaf_of_idle {posts : Nat → Option Post} {post : Post} (h : post.step = none) :
    Leaf posts post := by
  intro n hn
  rw [h] at hn
  cases hn

namespace Grown

variable {σ : Scene} {t u n : Nat} {post other : Post} {seat : Seat}

/-- A step without a block has no bodies, so its caller is the only one on its head. -/
theorem leaf_of_atom (h : Grown σ) (hseat : σ.seats n = some seat) (hatom : seat.isBlock = false)
    (hstep : post.step = some n) : Leaf σ.posts post := by
  intro m hm v child hchild index hbody
  rw [hstep] at hm
  cases hm
  obtain ⟨seat', hseat', hblock⟩ := h.runs hchild ⟨index, none, hbody⟩
  rw [hseat] at hseat'
  cases hseat'
  rw [hatom] at hblock
  cases hblock

/-- The caller of a step is the one that goes on on its head, when no body does. -/
theorem leaf_of_rest (hfree : ∀ u other, σ.posts u = some other → ∀ index,
    other.completions ≠ [.body n index none]) (hstep : post.step = some n) : Leaf σ.posts post := by
  intro m hm u other hother index
  rw [hstep] at hm
  cases hm
  exact hfree u other hother index

/-- The caller of a step none of whose bodies is running. -/
theorem leaf_of_over (h : ∀ u other, σ.posts u = some other → ¬ other.RunsFor n)
    (hstep : post.step = some n) : Leaf σ.posts post :=
  leaf_of_rest (fun u other hother index hbody => h u other hother ⟨index, none, hbody⟩) hstep

/-- No other thread is about to extend the head of one that may. -/
theorem apart (h : Grown σ) (hpost : σ.posts t = some post) (hleaf : Leaf σ.posts post)
    (hother : σ.posts u = some other) (hleaf' : Leaf σ.posts other) (hne : u ≠ t) :
    other.head ≠ post.head := fun heq => hne (h.exclusive hother hpost hleaf' hleaf heq)

/-- No other step without a block is at the tip of such a head. -/
theorem atom_apart (h : Grown σ) (hpost : σ.posts t = some post) (hleaf : Leaf σ.posts post)
    (hseat : σ.seats n = some seat) (hatom : seat.isBlock = false) (hne : seat.thread ≠ t) :
    seat.head ≠ post.head := by
  obtain ⟨caller, hcaller, hstep, hhead⟩ := h.caller hseat
  rw [← hhead]
  exact h.apart hpost hleaf hcaller (h.leaf_of_atom hseat hatom hstep) hne

/-- The node of a live step is stored. -/
theorem stored_seat (h : Grown σ) (hseat : σ.seats n = some seat) : ∃ node, σ.nodes n = some node := by
  cases hblock : seat.isBlock with
  | true =>
    obtain ⟨_, node, hnode, _⟩ := h.block hseat hblock
    exact ⟨node, hnode⟩
  | false =>
    obtain ⟨⟨node, hnode, _⟩, _⟩ := h.atom hseat hblock
    exact ⟨node, hnode⟩

theorem seat_below (h : Grown σ) (hseat : σ.seats n = some seat) : n < σ.next := by
  obtain ⟨node, hnode⟩ := h.stored_seat hseat
  exact h.graph.below hnode

theorem no_seat (h : Grown σ) : σ.seats σ.next = none := by
  cases hseat : σ.seats σ.next with
  | none => rfl
  | some seat => exact absurd (h.seat_below hseat) (Nat.lt_irrefl _)

theorem not_runsFor_next (h : Grown σ) (hpost : σ.posts t = some post) : ¬ post.RunsFor σ.next := by
  intro hruns
  obtain ⟨seat, hseat, _⟩ := h.runs hpost hruns
  exact absurd (h.seat_below hseat) (Nat.lt_irrefl _)

/-- A thread that waits for nothing has called no live step. -/
theorem not_caller (h : Grown σ) (hpost : σ.posts t = some post) (hidle : post.step = none)
    (hseat : σ.seats n = some seat) : seat.thread ≠ t := by
  rintro rfl
  obtain ⟨caller, hcaller, hstep, _⟩ := h.caller hseat
  rw [hpost] at hcaller
  cases hcaller
  rw [hidle] at hstep
  cases hstep

/-- A thread waits for one step only. -/
theorem eq_of_thread (h : Grown σ) {m : Nat} {first second : Seat} (hm : σ.seats m = some first)
    (hn : σ.seats n = some second) (heq : first.thread = second.thread) : m = n := by
  obtain ⟨caller, hcaller, hstep, _⟩ := h.caller hm
  obtain ⟨other, hother, hstep', _⟩ := h.caller hn
  rw [heq, hother] at hcaller
  cases hcaller
  exact Option.some.inj (hstep.symm.trans hstep')

/-- **The head of a thread is there.** -/
theorem tip_of_located (h : Grown σ) {head : Nat} {blocks : List Nat}
    (hlocated : Located σ.posts σ.seats σ.base t head blocks) : ∃ p, σ.tips head = some p := by
  induction hlocated with
  | root _ _ => exact Option.isSome_iff_exists.mp (h.heads.mpr (.inl rfl))
  | body _ _ _ _ ih => exact ih
  | branch hpost hbody _ _ _ =>
    exact Option.isSome_iff_exists.mp (h.heads.mpr (.inr ⟨_, _, _, _, _, hpost, hbody⟩))

theorem head_present (h : Grown σ) (hpost : σ.posts t = some post) : ∃ p, σ.tips post.head = some p := by
  obtain ⟨blocks, hlocated, _⟩ := h.located hpost
  exact h.tip_of_located hlocated

theorem head_below (h : Grown σ) (hpost : σ.posts t = some post) : post.head < σ.nextHead := by
  obtain ⟨p, hp⟩ := h.head_present hpost
  exact h.headBelow hp

theorem base_below (h : Grown σ) : σ.base < σ.nextHead := by
  obtain ⟨p, hp⟩ := Option.isSome_iff_exists.mp (h.heads.mpr (.inl rfl))
  exact h.headBelow hp

/-- A branch is on the head of the thread that runs it. -/
theorem head_of_branch (h : Grown σ) (hpost : σ.posts t = some post) {index : Nat} {branch : Branch}
    (hbody : post.completions = [.body n index (some branch)]) : post.head = branch.head := by
  obtain ⟨blocks, hlocated, _⟩ := h.located hpost
  obtain ⟨seat, hseat, _⟩ := h.runs hpost ⟨index, _, hbody⟩
  obtain ⟨around, haround, _⟩ := h.placed hseat
  exact (hlocated.unique (.branch hpost hbody hseat haround)).1

/-- A body without a branch is on the head of its step. -/
theorem head_of_body (h : Grown σ) (hpost : σ.posts t = some post) {index : Nat}
    (hbody : post.completions = [.body n index none]) (hseat : σ.seats n = some seat) :
    post.head = seat.head := by
  obtain ⟨blocks, hlocated, _⟩ := h.located hpost
  obtain ⟨around, haround, _⟩ := h.placed hseat
  exact (hlocated.unique (.body hpost hbody hseat haround)).1

/-- The head of a step is there. -/
theorem seat_head_below (h : Grown σ) (hseat : σ.seats n = some seat) : seat.head < σ.nextHead := by
  obtain ⟨caller, hcaller, _, hhead⟩ := h.caller hseat
  rw [← hhead]
  exact h.head_below hcaller

/-- No other step whose head no body uses is on the head of a thread that goes on. -/
theorem rest_apart (h : Grown σ) (hpost : σ.posts t = some post) (hleaf : Leaf σ.posts post)
    (hseat : σ.seats n = some seat) (hfree : ∀ u other, σ.posts u = some other → ∀ index,
      other.completions ≠ [.body n index none]) (hne : seat.thread ≠ t) : seat.head ≠ post.head := by
  obtain ⟨caller, hcaller, hstep, hhead⟩ := h.caller hseat
  rw [← hhead]
  exact h.apart hpost hleaf hcaller (leaf_of_rest hfree hstep) hne

/-- **All blocks around a thread are open.** -/
theorem open_of_located (h : Grown σ) {head : Nat} {blocks : List Nat}
    (hlocated : Located σ.posts σ.seats σ.base t head blocks) : ∀ s ∈ blocks, Open σ.nodes s := by
  induction hlocated with
  | root _ _ => exact fun s hs => absurd hs List.not_mem_nil
  | body hpost hbody hseat _ ih =>
    obtain ⟨seat, hfound, hblock⟩ := h.runs hpost ⟨_, _, hbody⟩
    intro s hs
    rcases List.mem_cons.mp hs with rfl | hs
    · exact (h.block hfound hblock).1
    · exact ih s hs
  | branch hpost hbody hseat _ ih =>
    obtain ⟨seat, hfound, hblock⟩ := h.runs hpost ⟨_, _, hbody⟩
    intro s hs
    rcases List.mem_cons.mp hs with rfl | hs
    · exact (h.branch hpost hbody).1
    · rcases List.mem_cons.mp hs with rfl | hs
      · exact (h.block hfound hblock).1
      · exact ih s hs

/-- The blocks behind the tip of the head on which a thread goes on are those around the thread. -/
theorem after_tip (h : Grown σ) (hpost : σ.posts t = some post) (hidle : post.step = none) {head p : Nat}
    {blocks : List Nat} (hlocated : Located σ.posts σ.seats σ.base t head blocks)
    (htip : σ.tips head = some p) : After σ.nodes p blocks := by
  obtain ⟨around, haround, hbehind⟩ := h.located hpost
  obtain ⟨rfl, rfl⟩ := hlocated.unique haround
  obtain ⟨q, hq, hafter⟩ := hbehind hidle
  rw [htip] at hq
  cases hq
  exact hafter

/-- Behind the node of a step with a block are the block and what is around its caller. -/
theorem after_placed (h : Grown σ) (hseat : σ.seats n = some seat) (hblock : seat.isBlock = true)
    {blocks : List Nat} (hlocated : Located σ.posts σ.seats σ.base seat.thread seat.head blocks) :
    After σ.nodes n (n :: blocks) := by
  obtain ⟨around, haround, hafter⟩ := h.placed hseat
  rw [if_pos hblock, (haround.unique hlocated).2] at hafter
  exact hafter

/-! ## What stands behind the tip of a head -/

/-- A thread of the script is above every other one. -/
theorem root_of_located {posts : Nat → Option Post} {seats : Nat → Option Seat} {base head : Nat}
    {blocks : List Nat} (h : Located posts seats base t head blocks) :
    ∃ u post, posts u = some post ∧ Located posts seats base u base [] := by
  induction h with
  | root hpost hroot => exact ⟨_, _, hpost, .root hpost hroot⟩
  | body _ _ _ _ ih => exact ih
  | branch _ _ _ _ ih => exact ih

/-- A step that is called in a body of another one is younger. -/
theorem lt_of_runsFor (h : Grown σ) {m : Nat} (hpost : σ.posts t = some post) (hruns : post.RunsFor m)
    (hstep : post.step = some n) : m < n := by
  obtain ⟨seat, hseat, rfl⟩ := h.waits hpost hstep
  obtain ⟨blocks, hlocated, hafter⟩ := h.placed hseat
  obtain ⟨outer, houter, hblock⟩ := h.runs hpost hruns
  have hmem : m ∈ blocks := by
    obtain ⟨index, branch, hbody⟩ := hruns
    obtain ⟨_, _, _, _, _, _, rfl⟩ := hlocated.around hpost (hbody ▸ List.mem_singleton_self _)
    exact List.mem_append_right _ List.mem_cons_self
  cases hkind : seat.isBlock with
  | true =>
    rw [if_pos hkind] at hafter
    exact (List.pairwise_cons.mp (hafter.descends h.graph)).1 m hmem
  | false =>
    rw [hkind, if_neg Bool.false_ne_true] at hafter
    refine Nat.lt_of_le_of_ne (hafter.le h.graph m hmem) ?_
    -- the block is not a step without one
    rintro rfl
    rw [hseat] at houter
    cases houter
    rw [hkind] at hblock
    cases hblock

/-- **Some thread goes on on the head of a thread**: the one in the innermost body. -/
theorem leaf_on_head (h : Grown σ) (hpost : σ.posts t = some post) :
    ∃ u other, σ.posts u = some other ∧ Leaf σ.posts other ∧ other.head = post.head := by
  -- towards the innermost body the steps that are waited for get younger
  generalize hleft : σ.next - post.step.getD σ.next = left
  induction left using Nat.strongRecOn generalizing t post with
  | ind left ih =>
  by_cases hleaf : Leaf σ.posts post
  · exact ⟨t, post, hpost, hleaf, rfl⟩
  · simp only [Leaf, not_forall, not_not] at hleaf
    obtain ⟨n, hn, u, child, hchild, index, hbody⟩ := hleaf
    obtain ⟨seat, hseat, rfl⟩ := h.waits hpost hn
    obtain ⟨caller, hcaller, _, hhead⟩ := h.caller hseat
    obtain rfl := Option.some.inj (hpost.symm.trans hcaller)
    have hsame := h.head_of_body hchild hbody hseat
    cases hstep : child.step with
    | none => exact ⟨u, child, hchild, leaf_of_idle hstep, hsame.trans hhead.symm⟩
    | some m =>
      have hlt := h.lt_of_runsFor hchild ⟨index, _, hbody⟩ hstep
      obtain ⟨own, hown, _⟩ := h.waits hchild hstep
      have hbelow := h.seat_below hown
      have hcount : σ.next - child.step.getD σ.next < left := by
        rw [← hleft, hn, hstep, Option.getD_some, Option.getD_some]
        omega
      obtain ⟨v, other, hother, hleaf, heq⟩ := ih _ hcount hchild rfl
      exact ⟨v, other, hother, hleaf, heq.trans (hsame.trans hhead.symm)⟩

/-- **All blocks behind the tip of a head are open.** -/
theorem tip_open (h : Grown σ) {head p : Nat} (htip : σ.tips head = some p) :
    ∃ blocks, After σ.nodes p blocks ∧ ∀ s ∈ blocks, Open σ.nodes s := by
  -- whoever goes on on the head has the blocks around it behind the tip
  have hthread : ∀ {t post}, σ.posts t = some post → post.head = head →
      ∃ blocks, After σ.nodes p blocks ∧ ∀ s ∈ blocks, Open σ.nodes s := by
    intro t post hpost hhead
    obtain ⟨u, other, hother, hleaf, hsame⟩ := h.leaf_on_head hpost
    obtain ⟨blocks, hlocated, hbehind⟩ := h.located hother
    rw [hsame, hhead] at hlocated hbehind
    have hopen := h.open_of_located hlocated
    cases hstep : other.step with
    | none => exact ⟨blocks, h.after_tip hother hstep hlocated htip, hopen⟩
    | some n =>
      obtain ⟨seat, hseat, rfl⟩ := h.waits hother hstep
      obtain ⟨caller, hcaller, _, hseatHead⟩ := h.caller hseat
      obtain rfl := Option.some.inj (hother.symm.trans hcaller)
      obtain ⟨around, haround, hafter⟩ := h.placed hseat
      rw [← hseatHead, hsame, hhead] at haround
      obtain ⟨_, rfl⟩ := hlocated.unique haround
      cases hblock : seat.isBlock with
      | false =>
        obtain ⟨_, hown⟩ := h.atom hseat hblock
        rw [← hseatHead, hsame, hhead, htip] at hown
        cases hown
        rw [hblock, if_neg Bool.false_ne_true] at hafter
        exact ⟨blocks, hafter, hopen⟩
      | true =>
        obtain ⟨q, rest, hq, hrest, hafter'⟩ := h.rests hseat hblock fun u child hchild index hbody =>
          hleaf n hstep u child hchild index hbody
        rw [← hseatHead, hsame, hhead] at hq hrest
        rw [htip] at hq
        cases hq
        obtain ⟨_, rfl⟩ := hlocated.unique hrest
        refine ⟨_, hafter', fun s hs => ?_⟩
        rcases List.mem_cons.mp hs with rfl | hs
        · exact (h.block hseat hblock).1
        · exact hopen s hs
  rcases h.heads.mp (by rw [htip]; rfl) with rfl | ⟨t, post, n, index, s, hpost, hbody⟩
  · by_cases hnone : ∀ t, σ.posts t = none
    · obtain ⟨q, hq, hafter⟩ := h.emptied hnone
      rw [htip] at hq
      cases hq
      exact ⟨[], hafter, fun s hs => absurd hs List.not_mem_nil⟩
    · obtain ⟨t, ht⟩ := not_forall.mp hnone
      obtain ⟨post, hpost⟩ := Option.ne_none_iff_exists'.mp ht
      obtain ⟨blocks, hlocated, _⟩ := h.located hpost
      obtain ⟨u, root, hroot, hbase⟩ := root_of_located hlocated
      obtain ⟨around, haround, _⟩ := h.located hroot
      exact hthread hroot (haround.unique hbase).1
  · exact hthread hpost (h.head_of_branch hpost hbody)

end Grown

end DurableFlow.History
