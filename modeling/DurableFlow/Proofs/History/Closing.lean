/-
The ends of threads and of steps in a growing history.

A branch ends with its thread: its block is closed, its head goes, and the step keeps the
end. A step that is over gives its thread back, and if it has a block, the end of the block
is the new tip of the head that both are on. No body of the step is running by then, and so
every branch of it has ended and is among those that the end joins.
-/
import DurableFlow.Proofs.History.Moves

set_option autoImplicit false

namespace DurableFlow

namespace Record

/-- What is left when a number that occurs once is removed. -/
theorem mem_eraseLast {numbers : List Nat} (h : numbers.Nodup) {m n : Nat} :
    m ∈ eraseLast n numbers ↔ m ≠ n ∧ m ∈ numbers := by
  rw [eraseLast, List.mem_reverse, (List.nodup_reverse.mpr h).mem_erase_iff, List.mem_reverse]

theorem nodup_eraseLast {numbers : List Nat} (h : numbers.Nodup) (n : Nat) :
    (eraseLast n numbers).Nodup := by
  rw [eraseLast, List.nodup_reverse]
  exact (List.nodup_reverse.mpr h).erase n

end Record

namespace History

/-! ## Threads end -/

namespace Scene

/-- **A thread ends** that has no branch of its own. -/
def endPlain (σ : Scene) (t : Nat) : Scene := { σ with posts := changed σ.posts t none }

/-- **A thread ends with its branch.** -/
def endBranch (σ : Scene) (t n : Nat) (branch : Branch) (seat : Seat) (node : Node) : Scene :=
  { σ with
    nodes := changed σ.nodes σ.next (some node)
    next := σ.next + 1
    tips := changed σ.tips branch.head none
    opened := Record.eraseLast branch.start σ.opened
    posts := changed σ.posts t none
    seats := changed σ.seats n (some { seat with branchTips := seat.branchTips ++ [σ.next] }) }

end Scene

namespace Grown

variable {σ : Scene} {t n : Nat} {post : Post} {seat : Seat} {node : Node}

/-- A thread that called nothing is above no other one. -/
theorem located_without (h : Grown σ) (hpost : σ.posts t = some post) (hidle : post.step = none)
    {seats' : Nat → Option Seat}
    (hseats : ∀ {m old}, σ.seats m = some old → ∃ new, seats' m = some new ∧ new.thread = old.thread)
    {u head : Nat} {blocks : List Nat} (hu : u ≠ t)
    (hlocated : Located σ.posts σ.seats σ.base u head blocks) :
    Located (changed σ.posts t none) seats' σ.base u head blocks := by
  refine hlocated.transfer (fun v other hother hwho => ?_) fun m old hold _ => hseats hold
  have hv : v ≠ t := by
    rcases hwho with rfl | ⟨m, old, hold, rfl⟩
    · exact hu
    · exact h.not_caller hpost hidle hold
  exact ⟨other, (changed_of_ne _ _ hv).trans hother, rfl⟩

/-- Who waits for a step is on the head of a body of the step that has no branch of its own. -/
theorem head_of_waiting (h : Grown σ) {u m i : Nat} {other : Post} (hother : σ.posts u = some other)
    (hstep : other.step = some m) (hpost : σ.posts t = some post)
    (hbody : post.completions = [.body m i none]) : other.head = post.head := by
  obtain ⟨seat, hseat, rfl⟩ := h.waits hother hstep
  obtain ⟨caller, hcaller, _, hsame⟩ := h.caller hseat
  obtain rfl := Option.some.inj (hother.symm.trans hcaller)
  rw [hsame, h.head_of_body hpost hbody hseat]

/-- Who becomes a leaf by the end of a thread is the one that waits for its body. -/
theorem leaf_without (hpost : σ.posts t = some post) {other : Post}
    (hleaf : Leaf (changed σ.posts t none) other) :
    Leaf σ.posts other ∨ ∃ m i, other.step = some m ∧ post.completions = [.body m i none] := by
  by_cases hwaits : ∃ m i, other.step = some m ∧ post.completions = [.body m i none]
  · exact .inr hwaits
  · refine .inl fun m hm v child hchild i hbody => ?_
    by_cases hv : v = t
    · subst hv
      rw [hpost] at hchild
      cases hchild
      exact hwaits ⟨m, i, hm, hbody⟩
    · exact hleaf m hm v child ((changed_of_ne _ _ hv).trans hchild) i hbody

/-- **When a thread ends, the one that waits for its body goes on in its place**, or nobody does. -/
theorem exclusive_without (h : Grown σ) (hpost : σ.posts t = some post) (hidle : post.step = none)
    {u v : Nat} {first second : Post} (hu : changed σ.posts t none u = some first)
    (hv : changed σ.posts t none v = some second) (hleafu : Leaf (changed σ.posts t none) first)
    (hleafv : Leaf (changed σ.posts t none) second) (heads : first.head = second.head) : u = v := by
  have hown : Leaf σ.posts post := leaf_of_idle hidle
  obtain ⟨hut, hu⟩ := changed_none_eq_some.mp hu
  obtain ⟨hvt, hv⟩ := changed_none_eq_some.mp hv
  rcases leaf_without hpost hleafu with hwasu | ⟨m, i, hstep, hbody⟩ <;>
  rcases leaf_without hpost hleafv with hwasv | ⟨k, j, hstep', hbody'⟩
  · exact h.exclusive hu hv hwasu hwasv heads
  · -- a leaf of before on the head of the thread was the thread
    have hsame := heads.trans (h.head_of_waiting hv hstep' hpost hbody')
    exact absurd hsame (h.apart hpost hown hu hwasu hut)
  · have hsame := heads.symm.trans (h.head_of_waiting hu hstep hpost hbody)
    exact absurd hsame (h.apart hpost hown hv hwasv hvt)
  · -- both wait for the step whose body the thread ran
    rw [hbody] at hbody'
    cases hbody'
    obtain ⟨seat, hseat, rfl⟩ := h.waits hu hstep
    obtain ⟨seat', hseat', rfl⟩ := h.waits hv hstep'
    obtain rfl := Option.some.inj (hseat.symm.trans hseat')
    rfl

/-- The blocks that are noted as open when one of them is closed. -/
theorem opened_ended (h : Grown σ) {b : Nat} (hkind : node.kind = .blockEnd b) :
    (Record.eraseLast b σ.opened).Nodup ∧ ∀ s, s ∈ Record.eraseLast b σ.opened ↔
      Open (changed σ.nodes σ.next (some node)) s := by
  refine ⟨Record.nodup_eraseLast h.nodup _, fun s => ?_⟩
  rw [Record.mem_eraseLast h.nodup, h.opened, h.graph.open_ended hkind]
  exact and_comm

/-- The end of an open block keeps the graph well formed. -/
theorem graph_ended (h : Grown σ) {b : Nat} (hid : node.id = σ.next) (hkind : node.kind = .blockEnd b)
    (hopen : Open σ.nodes b) (hparents : ∀ q ∈ node.parents, ∃ parent, σ.nodes q = some parent) :
    Graph (changed σ.nodes σ.next (some node)) (σ.next + 1) σ.start := by
  refine h.graph.append hid hparents (by rw [hkind]; exact NodeKind.noConfusion) fun s hs => ?_
  rw [← NodeKind.blockEnd.inj (hkind.symm.trans hs)]
  exact hopen

/-- **The end of a thread without a branch keeps the invariant.** -/
theorem endPlain (h : Grown σ) (hpost : σ.posts t = some post) (hidle : post.step = none)
    (hplain : ∀ m i b, post.completions ≠ [.body m i (some b)]) : Grown (σ.endPlain t) := by
  have hold : ∀ {u other}, changed σ.posts t none u = some other → u ≠ t ∧ σ.posts u = some other :=
    changed_none_eq_some.mp
  have hbranch : ∀ {u other m i b}, σ.posts u = some other →
      other.completions = [.body m i (some b)] → changed σ.posts t none u = some other := by
    intro u other m i b hother hbody
    have hne : u ≠ t := by
      rintro rfl
      rw [hpost] at hother
      cases hother
      exact hplain m i b hbody
    rw [changed_of_ne _ _ hne, hother]
  have hplace : ∀ {u head blocks}, u ≠ t → Located σ.posts σ.seats σ.base u head blocks →
      Located (changed σ.posts t none) σ.seats σ.base u head blocks :=
    h.located_without hpost hidle fun hold => ⟨_, hold, rfl⟩
  constructor
  case graph => exact h.graph
  case unfinished => exact h.unfinished
  case joins => exact h.joins
  case branches => exact h.branches
  case nodup => exact h.nodup
  case opened => exact h.opened
  case stepOpen => exact h.stepOpen
  case branchOpen =>
    intro s hs hstart
    obtain ⟨u, child, m, i, head, hchild, hbody⟩ := h.branchOpen hs hstart
    exact ⟨u, child, m, i, head, hbranch hchild hbody, hbody⟩
  case block => exact h.block
  case atom => exact h.atom
  case caller =>
    intro m other hother
    obtain ⟨caller, hcaller, hstep, hhead⟩ := h.caller hother
    have hne := h.not_caller hpost hidle hother
    exact ⟨caller, (changed_of_ne _ _ hne).trans hcaller, hstep, hhead⟩
  case ended => exact h.ended
  case placed =>
    intro m other hother
    obtain ⟨blocks, hlocated, hafter⟩ := h.placed hother
    exact ⟨blocks, hplace (h.not_caller hpost hidle hother) hlocated, hafter⟩
  case waits => exact fun hother hstep => h.waits (hold hother).2 hstep
  case runs => exact fun hother hruns => h.runs (hold hother).2 hruns
  case branch => exact fun hother hbody => h.branch (hold hother).2 hbody
  case oneStart => exact fun hu hv hb hc => h.oneStart (hold hu).2 (hold hv).2 hb hc
  case oneHead => exact fun hu hv hb hc => h.oneHead (hold hu).2 (hold hv).2 hb hc
  case located =>
    intro u other hother
    obtain ⟨hu, hother⟩ := hold hother
    obtain ⟨blocks, hlocated, hafter⟩ := h.located hother
    exact ⟨blocks, hplace hu hlocated, hafter⟩
  case exclusive =>
    exact fun hu hv hleafu hleafv heads => h.exclusive_without hpost hidle hu hv hleafu hleafv heads
  case heads =>
    intro head
    rw [show (σ.endPlain t).tips = σ.tips from rfl, h.heads]
    refine or_congr_right ⟨?_, ?_⟩
    · rintro ⟨u, other, m, i, s, hother, hbody⟩
      exact ⟨u, other, m, i, s, hbranch hother hbody, hbody⟩
    · rintro ⟨u, other, m, i, s, hother, hbody⟩
      exact ⟨u, other, m, i, s, (hold hother).2, hbody⟩
  case tip => exact h.tip
  case headBelow => exact h.headBelow
  case lined => exact h.lined
  case rests =>
    intro m other hother hisBlock hfreed
    have hplaced : ∀ {head blocks}, Located σ.posts σ.seats σ.base other.thread head blocks →
        Located (changed σ.posts t none) σ.seats σ.base other.thread head blocks :=
      hplace (h.not_caller hpost hidle hother)
    by_cases hown : ∃ index, post.completions = [.body m index none]
    · -- the thread leaves the head of the step as it is
      obtain ⟨index, hbody⟩ := hown
      obtain ⟨blocks, hlocated, _⟩ := h.placed hother
      obtain ⟨p, hp⟩ := h.head_present hpost
      rw [h.head_of_body hpost hbody hother] at hp
      exact ⟨p, blocks, hp, hplaced hlocated,
        h.after_tip hpost hidle (.body hpost hbody hother hlocated) hp⟩
    · obtain ⟨p, blocks, hp, hlocated, hafter⟩ := h.rests hother hisBlock fun u child hchild index hbody => by
        by_cases hu : u = t
        · subst hu
          rw [hpost] at hchild
          cases hchild
          exact hown ⟨index, hbody⟩
        · exact hfreed u child ((changed_of_ne _ _ hu).trans hchild) index hbody
      exact ⟨p, blocks, hp, hplaced hlocated, hafter⟩
  case emptied =>
    intro hnone
    -- the last thread is the one of the script
    have hcalled : ∀ {m seat}, σ.seats m ≠ some seat := by
      intro m seat hseat
      obtain ⟨caller, hcaller, _⟩ := h.caller hseat
      have hne := h.not_caller hpost hidle hseat
      exact absurd (((changed_of_ne _ _ hne).trans hcaller).symm.trans (hnone _)) (by simp)
    obtain ⟨blocks, hlocated, hbehind⟩ := h.located hpost
    obtain ⟨p, hp, hafter⟩ := hbehind hidle
    generalize post.head = head at hlocated hp
    cases hlocated with
    | root _ _ => exact ⟨p, hp, hafter⟩
    | body _ _ hseat _ => exact absurd hseat hcalled
    | branch _ _ hseat _ => exact absurd hseat hcalled

/-! ### A step keeps one more end -/

section Kept

variable {tips : List Nat} (hseat : σ.seats n = some seat)

include hseat

/-- Steps that keep other ends are of the same threads, and on the same heads. -/
theorem seat_before {m : Nat} {new : Seat}
    (hnew : changed σ.seats n (some { seat with branchTips := tips }) m = some new) :
    ∃ old, σ.seats m = some old ∧ new.thread = old.thread ∧ new.head = old.head ∧
      new.isBlock = old.isBlock := by
  rcases changed_eq_some.mp hnew with ⟨rfl, heq⟩ | ⟨_, hold⟩
  · cases heq
    exact ⟨seat, hseat, rfl, rfl, rfl⟩
  · exact ⟨new, hold, rfl, rfl, rfl⟩

theorem seat_after {m : Nat} {old : Seat} (hold : σ.seats m = some old) :
    ∃ new, changed σ.seats n (some { seat with branchTips := tips }) m = some new ∧
      new.thread = old.thread ∧ new.isBlock = old.isBlock := by
  by_cases hmn : m = n
  · subst hmn
    obtain rfl := Option.some.inj (hseat.symm.trans hold)
    exact ⟨_, changed_self _ _ _, rfl, rfl⟩
  · exact ⟨old, (changed_of_ne _ _ hmn).trans hold, rfl, rfl⟩

/-- A step keeps the end of a branch of its own. -/
theorem ended_by_branch (h : Grown σ) {b : Nat} (hkind : node.kind = .blockEnd b)
    (hof : BranchOf σ.nodes b n) :
    (seat.branchTips ++ [σ.next]).Nodup ∧ ∀ e, e ∈ seat.branchTips ++ [σ.next] ↔
      ∃ s, BranchOf (changed σ.nodes σ.next (some node)) s n ∧
        EndOf (changed σ.nodes σ.next (some node)) e s := by
  obtain ⟨hnodup, hmem⟩ := h.ended hseat
  have hnew : σ.next ∉ seat.branchTips := by
    intro hin
    obtain ⟨s, _, last, hlast, _⟩ := (hmem _).mp hin
    exact absurd (h.graph.below hlast) (Nat.lt_irrefl _)
  have hbranches : ∀ {s}, BranchOf (changed σ.nodes σ.next (some node)) s n ↔ BranchOf σ.nodes s n :=
    h.graph.branchOf_ended hkind
  refine ⟨List.nodup_append.mpr ⟨hnodup, List.nodup_singleton _, ?_⟩, fun e => ?_⟩
  · intro a ha b hb heq
    rw [List.mem_singleton.mp hb] at heq
    exact hnew (heq ▸ ha)
  · rw [List.mem_append, List.mem_singleton, hmem]
    constructor
    · rintro (⟨s, hs, he⟩ | rfl)
      · exact ⟨s, hbranches.mpr hs, (h.graph.endOf_ended hkind).mpr (.inr he)⟩
      · exact ⟨b, hbranches.mpr hof, (h.graph.endOf_ended hkind).mpr (.inl ⟨rfl, rfl⟩)⟩
    · rintro ⟨s, hs, he⟩
      rcases (h.graph.endOf_ended hkind).mp he with ⟨rfl, _⟩ | he
      · exact .inr rfl
      · exact .inl ⟨s, hbranches.mp hs, he⟩

end Kept

/-- **The end of a thread with its branch keeps the invariant.** -/
theorem endBranch (h : Grown σ) (hpost : σ.posts t = some post) (hidle : post.step = none)
    {index : Nat} {branch : Branch} (hbody : post.completions = [.body n index (some branch)])
    (hseat : σ.seats n = some seat) (hid : node.id = σ.next) (hkind : node.kind = .blockEnd branch.start)
    {p : Nat} (htip : σ.tips branch.head = some p) (hparents : node.parents = [p]) :
    Grown (σ.endBranch t n branch seat node) := by
  have hext := h.graph.extends_append node
  have hleaf : Leaf σ.posts post := leaf_of_idle hidle
  have hhead : post.head = branch.head := h.head_of_branch hpost hbody
  obtain ⟨hopen, hbranchOf, hbase⟩ := h.branch hpost hbody
  have hstart := hbranchOf.startAt
  obtain ⟨other, hother, hblock⟩ := h.runs hpost ⟨index, _, hbody⟩
  rw [hseat] at hother
  cases hother
  have hold : ∀ {u other}, changed σ.posts t none u = some other → u ≠ t ∧ σ.posts u = some other :=
    changed_none_eq_some.mp
  -- the step is as it was, but for the ends that it keeps
  have hseats : ∀ {m new}, (σ.endBranch t n branch seat node).seats m = some new →
      ∃ old, σ.seats m = some old ∧ new.thread = old.thread ∧ new.head = old.head ∧
        new.isBlock = old.isBlock := seat_before hseat
  have hseats' : ∀ {m old}, σ.seats m = some old →
      ∃ new, (σ.endBranch t n branch seat node).seats m = some new ∧ new.thread = old.thread ∧
        new.isBlock = old.isBlock := seat_after hseat
  have hplace : ∀ {u head blocks}, u ≠ t → Located σ.posts σ.seats σ.base u head blocks →
      Located (changed σ.posts t none) (σ.endBranch t n branch seat node).seats σ.base u head blocks :=
    h.located_without hpost hidle fun hm => by
      obtain ⟨new, hnew, hthread, _⟩ := hseats' hm
      exact ⟨new, hnew, hthread⟩
  have hbranches : ∀ {s m}, BranchOf (changed σ.nodes σ.next (some node)) s m ↔ BranchOf σ.nodes s m :=
    h.graph.branchOf_ended hkind
  have hstarts : ∀ {s body}, StartAt (changed σ.nodes σ.next (some node)) body s ↔
      StartAt σ.nodes body s := h.graph.startAt_ended hkind
  have hopens : ∀ {s}, Open (changed σ.nodes σ.next (some node)) s ↔
      Open σ.nodes s ∧ s ≠ branch.start := h.graph.open_ended hkind
  have hother : ∀ {u other m i b}, changed σ.posts t none u = some other →
      other.completions = [.body m i (some b)] → b.start ≠ branch.start ∧ b.head ≠ branch.head := by
    intro u other m i b hu hb
    obtain ⟨hne, hu⟩ := hold hu
    exact ⟨fun heq => hne (h.oneStart hu hpost hb hbody heq),
      fun heq => hne (h.oneHead hu hpost hb hbody heq)⟩
  constructor
  case graph =>
    refine h.graph_ended hid hkind hopen fun q hq => ?_
    rw [hparents, List.mem_singleton] at hq
    rw [hq]
    exact h.tip htip
  case unfinished => exact h.unfinished_append fun s => by rw [hkind]; exact NodeKind.noConfusion
  case joins =>
    refine joins_append h.graph h.joins ?_ ?_ ?_
    · intro m hno
      rw [hkind] at hno
      cases hno
    · intro s m hs hof
      rw [← NodeKind.blockEnd.inj (hkind.symm.trans hs)] at hof
      rw [hof.unique hbranchOf]
      exact (h.block hseat hblock).1
    · -- a branch has no branches
      rintro m hm ⟨s, hs⟩
      have hstep := h.branches hs
      rw [← NodeKind.blockEnd.inj (hkind.symm.trans hm)] at hstep
      cases hstart.unique hstep
  case branches => exact fun hs => hstarts.mpr (h.branches (hbranches.mp hs))
  case nodup => exact (h.opened_ended hkind).1
  case opened => exact (h.opened_ended hkind).2 _
  case stepOpen =>
    intro s hs hstart'
    obtain ⟨old, hm⟩ := h.stepOpen (hopens.mp hs).1 (hstarts.mp hstart')
    obtain ⟨new, hnew, _⟩ := hseats' hm
    exact ⟨new, hnew⟩
  case branchOpen =>
    intro s hs hstart'
    obtain ⟨hs, hne⟩ := hopens.mp hs
    obtain ⟨u, child, m, i, head, hchild, hb⟩ := h.branchOpen hs (hstarts.mp hstart')
    -- the thread that ends had the block that was closed, so this one is another
    refine ⟨u, child, m, i, head, (changed_of_ne _ _ ?_).trans hchild, hb⟩
    rintro rfl
    rw [hpost] at hchild
    cases hchild
    rw [hbody] at hb
    cases hb
    exact hne rfl
  case block =>
    intro m old hm hisBlock
    obtain ⟨before, hbefore, _, _, hsame⟩ := hseats hm
    obtain ⟨hs, hstart'⟩ := h.block hbefore (hsame.symm.trans hisBlock)
    refine ⟨hopens.mpr ⟨hs, ?_⟩, hstarts.mpr hstart'⟩
    rintro rfl
    -- what was closed is a branch, and the block of a step is none
    cases hstart.unique hstart'
  case atom =>
    intro m old hm hatom
    -- the step itself has a block
    have hmn : m ≠ n := by
      rintro rfl
      obtain ⟨before, hbefore, _, _, hsame⟩ := hseats hm
      obtain rfl := Option.some.inj (hseat.symm.trans hbefore)
      exact Bool.noConfusion ((hsame.trans hblock).symm.trans hatom)
    replace hm : σ.seats m = some old := (changed_of_ne _ _ hmn).symm.trans hm
    exact h.atom_append hpost hleaf hhead hm hatom (h.not_caller hpost hidle hm)
  case caller =>
    intro m old hm
    obtain ⟨before, hbefore, hthread, hsame, _⟩ := hseats hm
    obtain ⟨caller, hcaller, hstep, hhead'⟩ := h.caller hbefore
    have hne := h.not_caller hpost hidle hbefore
    rw [hthread, hsame]
    exact ⟨caller, (changed_of_ne _ _ hne).trans hcaller, hstep, hhead'⟩
  case ended =>
    intro m old hm
    rcases changed_eq_some.mp hm with ⟨rfl, heq⟩ | ⟨hmn, hm⟩
    · cases heq
      exact ended_by_branch hseat h hkind hbranchOf
    · refine h.ended_append hm fun s hs hof => hmn ?_
      rw [← NodeKind.blockEnd.inj (hkind.symm.trans hs)] at hof
      exact hof.unique hbranchOf
  case placed =>
    intro m old hm
    obtain ⟨before, hbefore, hthread, hsame, hisBlock⟩ := hseats hm
    obtain ⟨blocks, hlocated, hafter⟩ := h.placed hbefore
    rw [hthread, hsame, hisBlock]
    exact ⟨blocks, hplace (h.not_caller hpost hidle hbefore) hlocated, hafter.mono hext⟩
  case waits =>
    intro u other m hu hstep
    obtain ⟨old, hm, hthread⟩ := h.waits (hold hu).2 hstep
    obtain ⟨new, hnew, hsame, _⟩ := hseats' hm
    exact ⟨new, hnew, hsame.trans hthread⟩
  case runs =>
    intro u other m hu hruns
    obtain ⟨old, hm, hisBlock⟩ := h.runs (hold hu).2 hruns
    obtain ⟨new, hnew, _, hsame⟩ := hseats' hm
    exact ⟨new, hnew, hsame.trans hisBlock⟩
  case branch =>
    intro u other m i b hu hb
    obtain ⟨hs, hof, hbase'⟩ := h.branch (hold hu).2 hb
    exact ⟨hopens.mpr ⟨hs, (hother hu hb).1⟩, hbranches.mpr hof, hbase'⟩
  case oneStart => exact fun hu hv hb hc => h.oneStart (hold hu).2 (hold hv).2 hb hc
  case oneHead => exact fun hu hv hb hc => h.oneHead (hold hu).2 (hold hv).2 hb hc
  case located =>
    intro u other hu
    obtain ⟨hne, hu⟩ := hold hu
    exact h.located_append hpost hleaf hhead hu hne (hplace hne)
  case exclusive =>
    exact fun hu hv hleafu hleafv heads => h.exclusive_without hpost hidle hu hv hleafu hleafv heads
  case heads =>
    intro head
    show (changed σ.tips branch.head none head).isSome = true ↔ head = σ.base ∨ _
    by_cases hsame : head = branch.head
    · subst hsame
      rw [changed_self]
      refine ⟨fun hno => (by cases hno), ?_⟩
      rintro (heq | ⟨u, other, m, i, s, hu, hb⟩)
      · exact absurd heq hbase
      · exact absurd rfl (hother hu hb).2
    · rw [changed_of_ne _ _ hsame, h.heads]
      refine or_congr_right ⟨?_, ?_⟩
      · rintro ⟨u, other, m, i, s, hu, hb⟩
        refine ⟨u, other, m, i, s, (changed_of_ne _ _ ?_).trans hu, hb⟩
        rintro rfl
        rw [hpost] at hu
        cases hu
        rw [hbody] at hb
        cases hb
        exact hsame rfl
      · rintro ⟨u, other, m, i, s, hu, hb⟩
        exact ⟨u, other, m, i, s, (hold hu).2, hb⟩
  case tip =>
    intro head q hq
    obtain ⟨last, hlast⟩ := h.tip (changed_none_eq_some.mp hq).2
    exact ⟨last, hext _ _ hlast⟩
  case headBelow => exact fun hq => h.headBelow (changed_none_eq_some.mp hq).2
  case lined =>
    -- the thread stood in its branch, which the new node ends
    obtain ⟨around, haround, _⟩ := h.placed hseat
    have hlocated : Located σ.posts σ.seats σ.base t branch.head (branch.start :: n :: around) :=
      .branch hpost hbody hseat haround
    have hline : node.lineParents = [p] := by
      rw [Node.lineParents_of_ne fun s => by rw [hkind]; exact NodeKind.noConfusion, hparents]
    refine h.lined.append_tip h.graph hline (h.after_tip hpost hidle hlocated htip)
      (h.open_of_located hlocated) fun s hs => ⟨n :: around, ?_⟩
    rw [NodeKind.blockEnd.inj (hkind.symm.trans hs)]
  case rests =>
    intro m old hm hisBlock hfreed
    obtain ⟨before, hbefore, hthread, hsame, hblockSame⟩ := hseats hm
    have hfree : ∀ u other, σ.posts u = some other → ∀ i, other.completions ≠ [.body m i none] := by
      intro u other hu i hb
      by_cases hut : u = t
      · subst hut
        rw [hpost] at hu
        cases hu
        rw [hbody] at hb
        cases hb
      · exact hfreed u other ((changed_of_ne _ _ hut).trans hu) i hb
    have hne := h.not_caller hpost hidle hbefore
    rw [hthread, hsame]
    exact h.rests_append hpost hleaf hhead hbefore (hblockSame.symm.trans hisBlock) hfree hne
      (hplace hne)
  case emptied =>
    intro hnone
    -- the caller of the step is still there
    obtain ⟨caller, hcaller, _⟩ := h.caller hseat
    have hne := h.not_caller hpost hidle hseat
    exact absurd (((changed_of_ne _ _ hne).trans hcaller).symm.trans (hnone _)) (by simp)

end Grown

/-! ## Steps are over -/

namespace Scene

/-- **A step without a block is over**, and its thread goes on. -/
def finishAtom (σ : Scene) (n : Nat) (seat : Seat) (post : Post) : Scene :=
  { σ with
    posts := changed σ.posts seat.thread (some { post with step := none })
    seats := changed σ.seats n none }

/-- **A step with a block is over**, and its thread goes on behind the end of the block. -/
def finishBlock (σ : Scene) (n : Nat) (seat : Seat) (post : Post) (node : Node) : Scene :=
  { σ with
    nodes := changed σ.nodes σ.next (some node)
    next := σ.next + 1
    tips := changed σ.tips seat.head (some σ.next)
    opened := Record.eraseLast n σ.opened
    posts := changed σ.posts seat.thread (some { post with step := none })
    seats := changed σ.seats n none }

end Scene

/-- What the end of a block follows: the ends of its branches, or what its head has come to. -/
def EndParents (seat : Seat) (tip : Option Nat) (parents : List Nat) : Prop :=
  (seat.branchTips = [] ∧ ∃ p, tip = some p ∧ parents = [p]) ∨
    (seat.branchTips ≠ [] ∧ parents = seat.branchTips)

/-- No thread runs a body of a step. -/
def Over (posts : Nat → Option Post) (n : Nat) : Prop :=
  ∀ u other, posts u = some other → ¬ other.RunsFor n

namespace Grown

variable {σ : Scene} {t n : Nat} {post : Post} {seat : Seat} {node : Node}

/-! ### What the ends of steps have in common -/

section Release

variable (h : Grown σ) (hseat : σ.seats n = some seat) (hcaller : σ.posts seat.thread = some post)
  (hover : Over σ.posts n)

include h hseat hcaller

theorem step_of_caller : post.step = some n ∧ post.head = seat.head := by
  obtain ⟨caller, hfound, hstep, hhead⟩ := h.caller hseat
  rw [hcaller] at hfound
  cases hfound
  exact ⟨hstep, hhead⟩

omit hcaller in
/-- The caller of the step called no other one. -/
theorem caller_released {m : Nat} {other : Seat} (hother : changed σ.seats n none m = some other) :
    ∃ caller, changed σ.posts seat.thread (some { post with step := none }) other.thread =
      some caller ∧ caller.step = some m ∧ caller.head = other.head := by
  obtain ⟨hm, hother⟩ := changed_none_eq_some.mp hother
  obtain ⟨caller, hfound, hstep, hhead⟩ := h.caller hother
  have hne : other.thread ≠ seat.thread := fun heq => hm (h.eq_of_thread hother hseat heq)
  exact ⟨caller, (changed_of_ne _ _ hne).trans hfound, hstep, hhead⟩

omit hcaller in
/-- No other thread waits for the step. -/
theorem waits_released {u m : Nat} {other : Post}
    (hother : changed σ.posts seat.thread (some { post with step := none }) u = some other)
    (hstep : other.step = some m) :
    ∃ old, changed σ.seats n none m = some old ∧ old.thread = u := by
  rcases changed_eq_some.mp hother with ⟨_, heq⟩ | ⟨hu, hother⟩
  · cases heq
    cases hstep
  · obtain ⟨old, hold, hthread⟩ := h.waits hother hstep
    have hne : m ≠ n := by
      rintro rfl
      rw [hseat] at hold
      cases hold
      exact hu hthread.symm
    exact ⟨old, (changed_of_ne _ _ hne).trans hold, hthread⟩

include hover

theorem runs_released {u m : Nat} {other : Post}
    (hother : changed σ.posts seat.thread (some { post with step := none }) u = some other)
    (hruns : other.RunsFor m) : ∃ old, changed σ.seats n none m = some old ∧ old.isBlock = true := by
  obtain ⟨v, child, hchild, hruns'⟩ :=
    (SamePosts.changed hcaller none).runsFor.mp ⟨u, other, hother, hruns⟩
  obtain ⟨old, hold, hblock⟩ := h.runs hchild hruns'
  have hne : m ≠ n := by
    rintro rfl
    exact hover v child hchild hruns'
  exact ⟨old, (changed_of_ne _ _ hne).trans hold, hblock⟩

omit h hseat in
/-- Nothing stands below a step that is over. -/
theorem located_released {u head : Nat} {blocks : List Nat}
    (hlocated : Located σ.posts σ.seats σ.base u head blocks) :
    Located (changed σ.posts seat.thread (some { post with step := none }))
      (changed σ.seats n none) σ.base u head blocks := by
  refine hlocated.transfer (fun v other hother _ => ?_) fun m old hold hruns => ?_
  · obtain ⟨new, hnew, hcompletions, _⟩ := (SamePosts.changed hcaller none).new hother
    exact ⟨new, hnew, hcompletions⟩
  · have hne : m ≠ n := by
      rintro rfl
      obtain ⟨v, child, hchild, hruns⟩ := hruns
      exact hover v child hchild hruns
    exact ⟨old, (changed_of_ne _ _ hne).trans hold, rfl⟩

end Release

/-- **The end of a step without a block keeps the invariant.** -/
theorem finishAtom (h : Grown σ) (hseat : σ.seats n = some seat) (hatom : seat.isBlock = false)
    (hcaller : σ.posts seat.thread = some post) : Grown (σ.finishAtom n seat post) := by
  -- only a step with a block has bodies
  have hover : Over σ.posts n := by
    intro u other hother hruns
    obtain ⟨old, hold, hblock⟩ := h.runs hother hruns
    rw [hseat] at hold
    cases hold
    rw [hatom] at hblock
    cases hblock
  have hsame := SamePosts.changed hcaller none
  obtain ⟨⟨hstep, hhead⟩, ⟨⟨first, hfirst, hkind⟩, htip⟩⟩ :=
    And.intro (h.step_of_caller hseat hcaller) (h.atom hseat hatom)
  have hleaf : Leaf σ.posts post := leaf_of_over hover hstep
  have hold : ∀ {m other}, changed σ.seats n none m = some other → σ.seats m = some other :=
    fun hother => (changed_none_eq_some.mp hother).2
  constructor
  case graph => exact h.graph
  case unfinished => exact h.unfinished
  case joins => exact h.joins
  case branches => exact h.branches
  case nodup => exact h.nodup
  case opened => exact h.opened
  -- the node of the step opens no block, so whatever is open is open for another step
  case stepOpen =>
    intro s hs hstart
    obtain ⟨old, hseat'⟩ := h.stepOpen hs hstart
    have hne : s ≠ n := by
      rintro rfl
      obtain ⟨last, hlast, hstartKind⟩ := hstart
      obtain rfl : first = last := Option.some.inj (hfirst.symm.trans hlast)
      rw [hkind] at hstartKind
      cases hstartKind
    exact ⟨old, (changed_of_ne _ _ hne).trans hseat'⟩
  case branchOpen => exact fun hs hstart => h.branchOpen_of_same hsame hs hstart
  case block => exact fun hother => h.block (hold hother)
  case atom => exact fun hother => h.atom (hold hother)
  case caller => exact fun hother => h.caller_released hseat hother
  case ended => exact fun hother => h.ended (hold hother)
  case placed =>
    intro m other hother
    obtain ⟨blocks, hlocated, hafter⟩ := h.placed (hold hother)
    exact ⟨blocks, located_released hcaller hover hlocated, hafter⟩
  case waits => exact fun hother hwaits => h.waits_released hseat hother hwaits
  case runs => exact fun hother hruns => h.runs_released hseat hcaller hover hother hruns
  case branch =>
    intro u other m i b hother hbody
    obtain ⟨old, hbefore, hbody⟩ := hsame.body hother hbody
    exact h.branch hbefore hbody
  case oneStart => exact fun hu hv hb hc => (h.one_of_same hsame hu hv hb hc).1
  case oneHead => exact fun hu hv hb hc => (h.one_of_same hsame hu hv hb hc).2
  -- the caller goes on behind the node, where the step was
  case located =>
    intro u other hother
    rcases changed_eq_some.mp hother with ⟨rfl, heq⟩ | ⟨_, hbefore⟩
    · cases heq
      obtain ⟨blocks, hlocated, hafter⟩ := h.placed hseat
      rw [hatom] at hafter
      refine ⟨blocks, ?_, fun _ => ⟨n, ?_, hafter⟩⟩
      · show Located _ _ _ seat.thread post.head blocks
        rw [hhead]
        exact located_released hcaller hover hlocated
      · show σ.tips post.head = some n
        rw [hhead]
        exact htip
    · obtain ⟨blocks, hlocated, hbehind⟩ := h.located hbefore
      exact ⟨blocks, located_released hcaller hover hlocated, hbehind⟩
  case exclusive =>
    exact fun hu hv hleafu hleafv heads => h.exclusive_changed hcaller hleaf hu hv hleafu hleafv heads
  case heads =>
    intro head
    rw [show (σ.finishAtom n seat post).tips = σ.tips from rfl, h.heads]
    exact or_congr_right (hsame.branches head)
  case tip => exact h.tip
  case headBelow => exact h.headBelow
  case lined => exact h.lined
  case rests =>
    intro m other hother hisBlock hfreed
    obtain ⟨p, blocks, hp, hlocated, hafter⟩ := h.rests (hold hother) hisBlock (hsame.free hfreed)
    exact ⟨p, blocks, hp, located_released hcaller hover hlocated, hafter⟩
  case emptied =>
    intro hnone
    exact absurd ((changed_self _ _ _).symm.trans (hnone seat.thread)) (by simp)

/-- **The end of a step with a block keeps the invariant**, if its bodies are over. -/
theorem finishBlock (h : Grown σ) (hseat : σ.seats n = some seat) (hblock : seat.isBlock = true)
    (hcaller : σ.posts seat.thread = some post) (hover : Over σ.posts n) (hid : node.id = σ.next)
    (hkind : node.kind = .blockEnd n)
    (hparents : EndParents seat (σ.tips seat.head) node.parents) :
    Grown (σ.finishBlock n seat post node) := by
  have hext := h.graph.extends_append node
  have hsame := SamePosts.changed hcaller none
  obtain ⟨hstep, hhead⟩ := h.step_of_caller hseat hcaller
  obtain ⟨hopen, hstart⟩ := h.block hseat hblock
  have hleaf : Leaf σ.posts post := leaf_of_over hover hstep
  obtain ⟨hnodup, hended⟩ := h.ended hseat
  have hold : ∀ {m other}, changed σ.seats n none m = some other → m ≠ n ∧ σ.seats m = some other :=
    changed_none_eq_some.mp
  have hbranches : ∀ {s m}, BranchOf (changed σ.nodes σ.next (some node)) s m ↔ BranchOf σ.nodes s m :=
    h.graph.branchOf_ended hkind
  have hstarts : ∀ {s body}, StartAt (changed σ.nodes σ.next (some node)) body s ↔
      StartAt σ.nodes body s := h.graph.startAt_ended hkind
  have hopens : ∀ {s}, Open (changed σ.nodes σ.next (some node)) s ↔ Open σ.nodes s ∧ s ≠ n :=
    h.graph.open_ended hkind
  -- a branch of the step is not the block of the step
  have hother : ∀ {s m}, BranchOf σ.nodes s m → s ≠ n := by
    rintro s m hs rfl
    cases hs.startAt.unique hstart
  -- every branch has ended, since no body is running
  have hbranchEnded : ∀ {s}, BranchOf σ.nodes s n → ∃ e ∈ seat.branchTips, EndOf σ.nodes e s := by
    intro s hs
    by_cases he : ∃ e, EndOf σ.nodes e s
    · obtain ⟨e, he⟩ := he
      exact ⟨e, (hended e).mpr ⟨s, hs, he⟩, he⟩
    · have hsOpen : Open σ.nodes s := ⟨⟨true, hs.startAt⟩, fun e hno => he ⟨e, hno⟩⟩
      obtain ⟨u, child, m, i, head, hchild, hbody⟩ := h.branchOpen hsOpen hs.startAt
      obtain rfl : n = m := hs.unique (h.branch hchild hbody).2.1
      exact absurd ⟨i, _, hbody⟩ (hover u child hchild)
  have hparentsStored : ∀ q ∈ node.parents, ∃ parent, σ.nodes q = some parent := by
    intro q hq
    rcases hparents with ⟨_, p, hp, heq⟩ | ⟨_, heq⟩
    · rw [heq, List.mem_singleton] at hq
      rw [hq]
      exact h.tip hp
    · rw [heq] at hq
      obtain ⟨_, _, last, hlast, _⟩ := (hended q).mp hq
      exact ⟨last, hlast⟩
  constructor
  case graph => exact h.graph_ended hid hkind hopen hparentsStored
  case unfinished => exact h.unfinished_append fun s => by rw [hkind]; exact NodeKind.noConfusion
  case joins =>
    refine joins_append h.graph h.joins ?_ ?_ ?_
    · intro m hno
      rw [hkind] at hno
      cases hno
    · intro s m hs hof
      exact absurd (NodeKind.blockEnd.inj (hkind.symm.trans hs)).symm (hother hof)
    · rintro m hm ⟨s, hs⟩
      obtain rfl : n = m := NodeKind.blockEnd.inj (hkind.symm.trans hm)
      -- there is a branch, so the step keeps its end
      obtain ⟨first, hfirst, _⟩ := hbranchEnded hs
      have htips := hparents.resolve_left fun hno => by
        rw [hno.1] at hfirst
        cases hfirst
      rw [htips.2]
      exact ⟨hnodup, hended⟩
  case branches => exact fun hs => hstarts.mpr (h.branches (hbranches.mp hs))
  case nodup => exact (h.opened_ended hkind).1
  case opened => exact (h.opened_ended hkind).2 _
  case stepOpen =>
    intro s hs hstart'
    obtain ⟨hs, hne⟩ := hopens.mp hs
    obtain ⟨old, hm⟩ := h.stepOpen hs (hstarts.mp hstart')
    exact ⟨old, (changed_of_ne _ _ hne).trans hm⟩
  case branchOpen =>
    intro s hs hstart'
    exact h.branchOpen_of_same hsame (hopens.mp hs).1 (hstarts.mp hstart')
  case block =>
    intro m old hm hisBlock
    obtain ⟨hne, hm⟩ := hold hm
    obtain ⟨hs, hstart'⟩ := h.block hm hisBlock
    exact ⟨hopens.mpr ⟨hs, hne⟩, hstarts.mpr hstart'⟩
  case atom =>
    intro m old hm hatom
    obtain ⟨hne, hm⟩ := hold hm
    exact h.atom_append hcaller hleaf hhead hm hatom fun heq => hne (h.eq_of_thread hm hseat heq)
  case caller => exact fun hm => h.caller_released hseat hm
  case ended =>
    intro m old hm
    refine h.ended_append (hold hm).2 fun s hs hof => ?_
    exact hother hof (NodeKind.blockEnd.inj (hkind.symm.trans hs)).symm
  case placed =>
    intro m old hm
    obtain ⟨blocks, hlocated, hafter⟩ := h.placed (hold hm).2
    exact ⟨blocks, located_released hcaller hover hlocated, hafter.mono hext⟩
  case waits => exact fun hm hwaits => h.waits_released hseat hm hwaits
  case runs => exact fun hm hruns => h.runs_released hseat hcaller hover hm hruns
  case branch =>
    intro u other m i b hu hbody
    obtain ⟨old, hbefore, hbody⟩ := hsame.body hu hbody
    obtain ⟨hs, hof, hbase⟩ := h.branch hbefore hbody
    exact ⟨hopens.mpr ⟨hs, hother hof⟩, hbranches.mpr hof, hbase⟩
  case oneStart => exact fun hu hv hb hc => (h.one_of_same hsame hu hv hb hc).1
  case oneHead => exact fun hu hv hb hc => (h.one_of_same hsame hu hv hb hc).2
  case located =>
    intro u other hu
    rcases changed_eq_some.mp hu with ⟨rfl, heq⟩ | ⟨hne, hbefore⟩
    · cases heq
      -- the caller goes on behind the end of the block, where only what is around it is open
      obtain ⟨blocks, hlocated, hafter⟩ := h.placed hseat
      rw [if_pos hblock] at hafter
      have hended' : After (changed σ.nodes σ.next (some node)) σ.next blocks :=
        (hafter.mono hext).ended (hext.startAt hstart) ⟨node, changed_self _ _ _, hkind⟩
      refine ⟨blocks, ?_, fun _ => ⟨σ.next, ?_, hended'⟩⟩
      · show Located _ _ _ seat.thread post.head blocks
        rw [hhead]
        exact located_released hcaller hover hlocated
      · show changed σ.tips seat.head (some σ.next) post.head = some σ.next
        rw [hhead, changed_self]
    · exact h.located_append hcaller hleaf hhead hbefore hne (located_released hcaller hover)
  case exclusive =>
    exact fun hu hv hleafu hleafv heads => h.exclusive_changed hcaller hleaf hu hv hleafu hleafv heads
  case heads =>
    intro head
    obtain ⟨p, hp⟩ := h.head_present hcaller
    rw [hhead] at hp
    exact h.heads_of_same hsame hp _ head
  case tip => exact fun hq => h.tip_append hq
  case headBelow =>
    intro head q hq
    exact changed_elim hq (h.seat_head_below hseat) h.headBelow
  case lined =>
    have hfree : ∀ u other, σ.posts u = some other → ∀ i, other.completions ≠ [.body n i none] :=
      fun u other hu i hbody => hover u other hu ⟨i, none, hbody⟩
    -- no body is running, so the tip of the head lies in the block and in what the block is nested in
    obtain ⟨p, around, hp, haround, hafter⟩ := h.rests hseat hblock hfree
    have hopenAll : ∀ s ∈ n :: around, Open σ.nodes s := by
      intro s hs
      rcases List.mem_cons.mp hs with rfl | hs
      · exact hopen
      · exact h.open_of_located haround s hs
    have hline : node.lineParents = node.parents :=
      Node.lineParents_of_ne fun s => by rw [hkind]; exact NodeKind.noConfusion
    have hinnermost : ∀ s, node.kind = .blockEnd s → ∃ outer, n :: around = s :: outer := by
      intro s hs
      rw [NodeKind.blockEnd.inj (hkind.symm.trans hs)]
      exact ⟨around, rfl⟩
    rcases hparents with ⟨_, q, hq, heq⟩ | ⟨htips, heq⟩
    · rw [hp] at hq
      cases hq
      exact h.lined.append_tip h.graph (hline.trans heq) hafter hopenAll hinnermost
    · -- the branches go on from the node of the step, and their ends are behind what it is behind
      rw [heq] at hline
      refine h.lined.append h.graph (by rw [hline]; exact htips) (fun e he => ?_) hopenAll hinnermost
      rw [hline] at he
      obtain ⟨s, hs, hend⟩ := (hended e).mp he
      exact h.lined.after_endOf hs hend (h.after_placed hseat hblock haround)
  case rests =>
    intro m old hm hisBlock hfreed
    obtain ⟨hne, hm⟩ := hold hm
    exact h.rests_append hcaller hleaf hhead hm hisBlock (hsame.free hfreed)
      (fun heq => hne (h.eq_of_thread hm hseat heq)) (located_released hcaller hover)
  case emptied =>
    intro hnone
    exact absurd ((changed_self _ _ _).symm.trans (hnone seat.thread)) (by simp)

end Grown

/-! ## The first scene and the last one -/

namespace Scene

/-- The scene of a script that has not begun: the start of the flow, and one thread behind it. -/
def first (start base t : Nat) (node : Node) : Scene where
  nodes := changed (fun _ => none) start (some node)
  next := start + 1
  start := start
  tips := changed (fun _ => none) base (some start)
  nextHead := base + 1
  opened := []
  base := base
  posts := changed (fun _ => none) t (some { head := base, step := none, completions := [.root] })
  seats := fun _ => none

end Scene

namespace Grown

/-- **The first scene has the invariant.** -/
theorem first {start base t : Nat} {node : Node} (hid : node.id = start) (hparents : node.parents = [])
    (hkind : node.kind = .flowStart) : Grown (Scene.first start base t node) := by
  have honly : ∀ {n old}, changed (fun _ => none) start (some node) n = some old →
      n = start ∧ old = node := changed_only
  have hpost : ∀ {u post}, (Scene.first start base t node).posts u = some post →
      u = t ∧ post = { head := base, step := none, completions := [.root] } := changed_only
  have hstored : (Scene.first start base t node).nodes start = some node :=
    changed_self (fun _ => none) start (some node)
  have htip : (Scene.first start base t node).tips base = some start :=
    changed_self (fun _ => none) base (some start)
  have htips : ∀ {head p}, (Scene.first start base t node).tips head = some p →
      head = base ∧ p = start := changed_only
  have hbody : ∀ {u post m i b}, (Scene.first start base t node).posts u = some post →
      post.completions ≠ [.body m i b] := by
    intro u post m i b hu hb
    rw [(hpost hu).2] at hb
    cases hb
  -- one node, which opens nothing and ends nothing; one thread, which runs for no step
  have hstarts : ∀ {s body}, ¬ StartAt (Scene.first start base t node).nodes body s := by
    rintro s body ⟨old, hold, hstart⟩
    rw [(honly hold).2, hkind] at hstart
    cases hstart
  have hends : ∀ {e s}, ¬ EndOf (Scene.first start base t node).nodes e s := by
    rintro e s ⟨old, hold, hend⟩
    rw [(honly hold).2, hkind] at hend
    cases hend
  have hopens : ∀ {s}, ¬ Open (Scene.first start base t node).nodes s :=
    fun hs => hs.start.elim fun _ hno => hstarts hno
  constructor
  case graph =>
    constructor
    case own =>
      intro n old hold
      rw [(honly hold).1, (honly hold).2]
      exact hid
    case below =>
      intro n old hold
      rw [(honly hold).1]
      exact Nat.lt_succ_self _
    case parents =>
      intro n old hold p hp
      rw [(honly hold).2, hparents] at hp
      cases hp
    case started => exact ⟨node, hstored, hparents⟩
    case flowStart =>
      intro n old hold
      rw [(honly hold).2]
      exact ⟨fun _ => (honly hold).1, fun _ => hkind⟩
    case ends => exact fun hno => absurd hno hends
    case once => exact fun hno => absurd hno hends
  case unfinished =>
    intro n old hold s
    rw [(honly hold).2, hkind]
    exact NodeKind.noConfusion
  case joins => exact fun hold hend _ => absurd ⟨_, hold, hend⟩ hends
  case branches => exact fun hs => absurd hs.startAt hstarts
  case nodup => exact List.nodup_nil
  case opened => exact ⟨fun hno => absurd hno List.not_mem_nil, fun hno => absurd hno hopens⟩
  case stepOpen => exact fun hno => absurd hno hopens
  case branchOpen => exact fun hno => absurd hno hopens
  case block => exact fun hno => by cases hno
  case atom => exact fun hno => by cases hno
  case caller => exact fun hno => by cases hno
  case ended => exact fun hno => by cases hno
  case placed => exact fun hno => by cases hno
  case waits =>
    intro u post m hu hstep
    rw [(hpost hu).2] at hstep
    cases hstep
  case runs =>
    rintro u post m hu ⟨i, b, hb⟩
    exact absurd hb (hbody hu)
  case branch => exact fun hu hb => absurd hb (hbody hu)
  case oneStart => exact fun hu _ hb => absurd hb (hbody hu)
  case oneHead => exact fun hu _ hb => absurd hb (hbody hu)
  -- the thread is at the root of all blocks, right behind the start
  case located =>
    intro u post hu
    obtain ⟨rfl, rfl⟩ := hpost hu
    exact ⟨[], .root hu rfl, fun _ => ⟨start, htip, .start hstored hkind⟩⟩
  case exclusive =>
    intro u v first second hu hv _ _ _
    exact (hpost hu).1.trans (hpost hv).1.symm
  case heads =>
    intro head
    constructor
    · intro hsome
      obtain ⟨p, hp⟩ := Option.isSome_iff_exists.mp hsome
      exact .inl (htips hp).1
    · rintro (rfl | ⟨u, post, m, i, s, hu, hb⟩)
      · exact Option.isSome_iff_exists.mpr ⟨start, htip⟩
      · exact absurd hb (hbody hu)
  case tip =>
    intro head p hp
    rw [(htips hp).2]
    exact ⟨node, hstored⟩
  case headBelow =>
    intro head p hp
    rw [(htips hp).1]
    exact Nat.lt_succ_self _
  case lined =>
    intro n old hold hno
    rw [(honly hold).2] at hno
    exact absurd hkind hno
  case rests => exact fun hno => by cases hno
  case emptied => exact fun _ => ⟨start, htip, .start hstored hkind⟩

variable {σ : Scene}

/-- **When no thread is left, no block is open.** -/
theorem nothing_open (h : Grown σ) (hposts : ∀ t, σ.posts t = none) : σ.opened = [] := by
  refine List.eq_nil_iff_forall_not_mem.mpr fun s hs => ?_
  have hopen := h.opened.mp hs
  obtain ⟨body, hstart⟩ := hopen.start
  cases body with
  | false =>
    obtain ⟨seat, hseat⟩ := h.stepOpen hopen hstart
    obtain ⟨caller, hcaller, _⟩ := h.caller hseat
    rw [hposts] at hcaller
    cases hcaller
  | true =>
    obtain ⟨t, post, _, _, _, hpost, _⟩ := h.branchOpen hopen hstart
    rw [hposts] at hpost
    cases hpost

/-- **When no thread is left, one head is.** -/
theorem one_head (h : Grown σ) (hposts : ∀ t, σ.posts t = none) {head : Nat} :
    (σ.tips head).isSome = true ↔ head = σ.base := by
  rw [h.heads]
  refine ⟨fun hor => hor.resolve_right ?_, .inl⟩
  rintro ⟨t, post, _, _, _, hpost, _⟩
  rw [hposts] at hpost
  cases hpost

end Grown

end History

end DurableFlow
