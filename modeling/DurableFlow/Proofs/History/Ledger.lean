/-
The bodies of steps, accounted for.

A step says once, when it starts, how many bodies it will have. From then on each of them is
waiting, running or over, and only in one of these ways: its turn comes once, one thread runs
it, and its outcome is taken in once. A step that has an outcome has no body left, which is
why its block may be closed. And nothing is appended on the head of a step while one of its
bodies is still to be put there, so that a branch starts at the node of its step.

The accounts are kept beside the scene: the moves of a scene keep them, because a move appends
on the head of a thread that goes on, and such a thread is apart from every step whose account
asks for its tip.
-/
import Mathlib.Data.List.Perm.Subperm
import DurableFlow.Program.Delivery
import DurableFlow.Proofs.History.Closing

set_option autoImplicit false

namespace DurableFlow.History

/-- What is known of the bodies of a step. -/
structure Ledger where
  /-- How many bodies it has. -/
  width : Nat
  /-- Whether each of them is on a branch of its own. -/
  branching : Bool
  /-- The bodies whose outcomes were taken in. -/
  settled : List Nat
  /-- Whether it has an outcome. -/
  spent : Bool
  /-- Bodies without a branch share the head of their step. -/
  narrow : branching = false → width ≤ 1

/-- **The account of a step**: which of its bodies wait, run or are over. -/
structure Account (posts : Nat → Option Post) (n : Nat) (ledger : Ledger)
    (pending : List PendingBody) (tip : Option Nat) : Prop where
  runs : ∀ {t post index branch}, posts t = some post → post.completions = [.body n index branch] →
    index < ledger.width ∧ index ∉ ledger.settled ∧ branch.isSome = ledger.branching ∧
      ∀ body ∈ pending, body.index ≠ index
  alone : ∀ {t u post other index b c}, posts t = some post → posts u = some other →
    post.completions = [.body n index b] → other.completions = [.body n index c] → t = u
  waits : ∀ body ∈ pending, body.index < ledger.width ∧ body.index ∉ ledger.settled ∧
    body.branch.isSome = ledger.branching
  once : (pending.map PendingBody.index).Nodup
  bounded : ∀ i ∈ ledger.settled, i < ledger.width
  distinct : ledger.settled.Nodup
  spent : ledger.spent = true → pending = [] ∧ Over posts n
  tip : ledger.branching = true ∨ pending ≠ [] → tip = some n

namespace Account

variable {posts posts' : Nat → Option Post} {n : Nat} {ledger : Ledger}
  {pending pending' : List PendingBody} {tip tip' : Option Nat}

/-- An account stays right if no other bodies run, and fewer wait. -/
theorem mono (h : Account posts n ledger pending tip)
    (hposts : ∀ {t post}, posts' t = some post → post.RunsFor n →
      ∃ old, posts t = some old ∧ old.completions = post.completions)
    (hpending : pending'.Sublist pending)
    (htip : ledger.branching = true ∨ pending ≠ [] → tip = some n → tip' = some n) :
    Account posts' n ledger pending' tip' where
  runs := by
    intro t post index branch hpost hbody
    obtain ⟨old, hold, hsame⟩ := hposts hpost ⟨index, branch, hbody⟩
    obtain ⟨hlt, hsettled, hbranch, hapart⟩ := h.runs hold (hsame.trans hbody)
    exact ⟨hlt, hsettled, hbranch, fun body hmem => hapart body (hpending.subset hmem)⟩
  alone := by
    intro t u post other index b c hpost hother hbody hbody'
    obtain ⟨old, hold, hsame⟩ := hposts hpost ⟨index, b, hbody⟩
    obtain ⟨old', hold', hsame'⟩ := hposts hother ⟨index, c, hbody'⟩
    exact h.alone hold hold' (hsame.trans hbody) (hsame'.trans hbody')
  waits body hmem := h.waits body (hpending.subset hmem)
  once := h.once.sublist (hpending.map _)
  bounded := h.bounded
  distinct := h.distinct
  spent hover := by
    obtain ⟨rfl, hnone⟩ := h.spent hover
    refine ⟨List.sublist_nil.mp hpending, fun u other hother hruns => ?_⟩
    obtain ⟨old, hold, hsame⟩ := hposts hother hruns
    obtain ⟨index, branch, hbody⟩ := hruns
    exact hnone u old hold ⟨index, branch, hsame.trans hbody⟩
  tip hwhy := by
    have hwhy' : ledger.branching = true ∨ pending ≠ [] :=
      hwhy.imp_right fun hne hnil => hne (List.sublist_nil.mp (hnil ▸ hpending))
    exact htip hwhy' (h.tip hwhy')

/-- A step none of whose bodies is left. -/
theorem of_over (hover : Over posts n) (hbounded : ∀ i ∈ ledger.settled, i < ledger.width)
    (hdistinct : ledger.settled.Nodup) (htip : ledger.branching = true → tip = some n) :
    Account posts n ledger [] tip where
  runs hpost hbody := absurd ⟨_, _, hbody⟩ (hover _ _ hpost)
  alone hpost _ hbody _ := absurd ⟨_, _, hbody⟩ (hover _ _ hpost)
  waits _ hmem := absurd hmem List.not_mem_nil
  once := List.nodup_nil
  bounded := hbounded
  distinct := hdistinct
  spent _ := ⟨rfl, hover⟩
  tip hwhy := htip (hwhy.resolve_right fun hne => hne rfl)

/-- All bodies are over when as many outcomes were taken in as there are bodies. -/
theorem nothing_left (h : Account posts n ledger pending tip)
    (hall : ledger.width ≤ ledger.settled.length) : pending = [] ∧ Over posts n := by
  have hsubset : ledger.settled ⊆ List.range ledger.width :=
    fun i hi => List.mem_range.mpr (h.bounded i hi)
  have hperm : ledger.settled.Perm (List.range ledger.width) :=
    (List.subperm_of_subset h.distinct hsubset).perm_of_length_le (by simpa using hall)
  have hevery : ∀ i, i < ledger.width → i ∈ ledger.settled :=
    fun i hi => hperm.mem_iff.mpr (List.mem_range.mpr hi)
  constructor
  · refine List.eq_nil_iff_forall_not_mem.mpr fun body hmem => ?_
    obtain ⟨hlt, hsettled, _⟩ := h.waits body hmem
    exact hsettled (hevery _ hlt)
  · rintro u other hother ⟨index, branch, hbody⟩
    obtain ⟨hlt, hsettled, _⟩ := h.runs hother hbody
    exact hsettled (hevery _ hlt)

/-- **A body has ended**, and its outcome is taken in. -/
theorem settle (h : Account posts n ledger pending tip) {index : Nat} {settled : List Nat}
    {spent : Bool} (hlt : index < ledger.width) (hnew : index ∉ ledger.settled)
    (hwaits : ∀ body ∈ pending, body.index ≠ index)
    (hruns : ∀ {t post branch}, posts t = some post → post.completions ≠ [.body n index branch])
    (hsettled : settled.Perm (index :: ledger.settled))
    (hover : spent = true → ledger.spent = true ∨ ledger.width ≤ settled.length) :
    Account posts n { ledger with settled, spent } pending tip := by
  have hmem : ∀ i, i ∈ settled ↔ i = index ∨ i ∈ ledger.settled := by
    intro i
    rw [hsettled.mem_iff, List.mem_cons]
  -- whether it is over follows from what is left, so that is asked last
  have hopen : Account posts n { ledger with settled, spent := false } pending tip := by
    constructor
    case runs =>
      intro t post i branch hpost hbody
      obtain ⟨hi, hout, hbranch, hapart⟩ := h.runs hpost hbody
      refine ⟨hi, fun hin => ?_, hbranch, hapart⟩
      rcases (hmem i).mp hin with rfl | hin
      · exact hruns hpost hbody
      · exact hout hin
    case alone => exact h.alone
    case waits =>
      intro body hbody
      obtain ⟨hi, hout, hbranch⟩ := h.waits body hbody
      refine ⟨hi, fun hin => ?_, hbranch⟩
      rcases (hmem body.index).mp hin with heq | hin
      · exact hwaits body hbody heq
      · exact hout hin
    case once => exact h.once
    case bounded =>
      intro i hi
      rcases (hmem i).mp hi with rfl | hi
      · exact hlt
      · exact h.bounded i hi
    case distinct => exact hsettled.nodup_iff.mpr (List.nodup_cons.mpr ⟨hnew, h.distinct⟩)
    case spent => exact fun hno => (by cases hno)
    case tip => exact h.tip
  have hdone : spent = true → pending = [] ∧ Over posts n :=
    fun hyes => (hover hyes).elim h.spent hopen.nothing_left
  exact ⟨hopen.runs, hopen.alone, hopen.waits, hopen.once, hopen.bounded, hopen.distinct, hdone,
    hopen.tip⟩

/-- A step with bodies of which none is running is told its outcome. -/
theorem finish (h : Account posts n ledger pending tip) {spent : Bool}
    (hover : spent = true → ledger.spent = true ∨ pending = [] ∧ Over posts n) :
    Account posts n { ledger with spent } pending tip :=
  ⟨h.runs, h.alone, h.waits, h.once, h.bounded, h.distinct,
    fun hyes => (hover hyes).elim h.spent id, h.tip⟩

end Account

/-! ## Scenes with their accounts -/

/-- **The invariant of a scene whose bodies are accounted for.** -/
structure Orderly (σ : Scene) (ledgers : Nat → Option Ledger) (pending : Nat → List PendingBody) :
    Prop extends Grown σ where
  kept : ∀ {n seat}, σ.seats n = some seat → ∃ ledger, ledgers n = some ledger
  seated : ∀ {n ledger}, ledgers n = some ledger →
    ∃ seat, σ.seats n = some seat ∧ (0 < ledger.width → seat.isBlock = true)
  account : ∀ {n ledger seat}, ledgers n = some ledger → σ.seats n = some seat →
    Account σ.posts n ledger (pending n) (σ.tips seat.head)
  idle : ∀ {n}, ledgers n = none → pending n = []

namespace Orderly

variable {σ : Scene} {ledgers : Nat → Option Ledger} {pending pending' : Nat → List PendingBody}
  {t n : Nat} {post : Post} {seat : Seat} {ledger : Ledger} {node : Node}

theorem seat_of_ledger (h : Orderly σ ledgers pending) (hledger : ledgers n = some ledger)
    (hseat : σ.seats n = some seat) (hwidth : 0 < ledger.width) : seat.isBlock = true := by
  obtain ⟨seat', hseat', hblock⟩ := h.seated hledger
  rw [hseat] at hseat'
  cases hseat'
  exact hblock hwidth

/-- No body goes on on the head of a step whose tip is asked for. -/
theorem leaf_of_account (h : Orderly σ ledgers pending) (hledger : ledgers n = some ledger)
    (hseat : σ.seats n = some seat) (hwhy : ledger.branching = true ∨ pending n ≠ [])
    (hstep : post.step = some n) : Leaf σ.posts post := by
  intro m hm u other hother index hbody
  rw [hstep] at hm
  cases hm
  have haccount := h.account hledger hseat
  obtain ⟨hlt, _, hbranch, hapart⟩ := haccount.runs hother hbody
  have hplain : ledger.branching = false := hbranch.symm
  rcases hwhy with hbranching | hne
  · rw [hplain] at hbranching
    cases hbranching
  · -- without branches there is one body only, and it would wait and run
    obtain ⟨body, hmem⟩ := List.exists_mem_of_ne_nil _ hne
    obtain ⟨hlt', _⟩ := haccount.waits body hmem
    have hnarrow := ledger.narrow hplain
    exact hapart body hmem (by omega)

/-- **A thread that goes on is apart** from the steps whose tips are asked for. -/
theorem tip_apart (h : Orderly σ ledgers pending) (hpost : σ.posts t = some post)
    (hleaf : Leaf σ.posts post) (hledger : ledgers n = some ledger) (hseat : σ.seats n = some seat)
    (hwhy : ledger.branching = true ∨ pending n ≠ []) (hne : seat.thread ≠ t) :
    seat.head ≠ post.head := by
  obtain ⟨caller, hcaller, hstep, hhead⟩ := h.caller hseat
  rw [← hhead]
  exact h.apart hpost hleaf hcaller (h.leaf_of_account hledger hseat hwhy hstep) hne

/-! ### The book of one step -/

/-- The account of one step is written anew. -/
theorem recount (h : Orderly σ ledgers pending) (hseat : σ.seats n = some seat)
    (hwidth : 0 < ledger.width → seat.isBlock = true)
    (hpending : ∀ m, m ≠ n → pending' m = pending m)
    (haccount : Account σ.posts n ledger (pending' n) (σ.tips seat.head)) :
    Orderly σ (changed ledgers n (some ledger)) pending' := by
  refine { toGrown := h.toGrown, kept := ?kept, seated := ?seated, account := ?account, idle := ?idle }
  case kept =>
    intro m other hother
    by_cases hm : m = n
    · subst hm
      exact ⟨ledger, changed_self _ _ _⟩
    · rw [changed_of_ne _ _ hm]
      exact h.kept hother
  case seated =>
    intro m other hother
    rcases changed_eq_some.mp hother with ⟨rfl, heq⟩ | ⟨_, hold⟩
    · cases heq
      exact ⟨seat, hseat, hwidth⟩
    · exact h.seated hold
  case account =>
    intro m other seat' hother hseat'
    rcases changed_eq_some.mp hother with ⟨rfl, heq⟩ | ⟨hm, hold⟩
    · cases heq
      rw [hseat] at hseat'
      cases hseat'
      exact haccount
    · rw [hpending m hm]
      exact h.account hold hseat'
  case idle =>
    intro m hnone
    by_cases hm : m = n
    · subst hm
      rw [changed_self] at hnone
      cases hnone
    · rw [changed_of_ne _ _ hm] at hnone
      rw [hpending m hm]
      exact h.idle hnone

/-- Bodies that are never started are forgotten. -/
theorem forget (h : Orderly σ ledgers pending) (hpending : ∀ m, (pending' m).Sublist (pending m)) :
    Orderly σ ledgers pending' := by
  refine { toGrown := h.toGrown, kept := h.kept, seated := h.seated, account := ?account, idle := ?idle }
  case account =>
    intro m ledger seat hledger hseat
    refine (h.account hledger hseat).mono (fun hpost _ => ⟨_, hpost, rfl⟩) (hpending m) ?_
    exact fun _ htip => htip
  case idle =>
    intro m hnone
    have hsub := hpending m
    rw [h.idle hnone] at hsub
    exact List.sublist_nil.mp hsub

/-! ### The moves of a scene -/

/-- **Starting a step** opens an account without bodies. -/
theorem startStep (h : Orderly σ ledgers pending) (hpost : σ.posts t = some post)
    (hidle : post.step = none) {block : Bool} (hid : node.id = σ.next)
    (hkind : node.kind = if block then .blockStart false else .atom) {p : Nat}
    (htip : σ.tips post.head = some p) (hparents : node.parents = [p])
    (hwidth : 0 < ledger.width → block = true) (hsettled : ledger.settled = []) :
    Orderly (σ.startStep t post node block) (changed ledgers σ.next (some ledger)) pending := by
  have hgrown := h.toGrown.startStep hpost hidle hid hkind htip hparents
  have hnone : ledgers σ.next = none := by
    cases hledger : ledgers σ.next with
    | none => rfl
    | some other =>
      obtain ⟨seat, hseat, _⟩ := h.seated hledger
      rw [h.no_seat] at hseat
      cases hseat
  have hposts : ∀ {m u other}, (σ.startStep t post node block).posts u = some other →
      other.RunsFor m → ∃ old, σ.posts u = some old ∧ old.completions = other.completions := by
    intro m u other hother _
    rcases changed_eq_some.mp hother with ⟨rfl, heq⟩ | ⟨_, hold⟩
    · cases heq
      exact ⟨post, hpost, rfl⟩
    · exact ⟨other, hold, rfl⟩
  refine { toGrown := hgrown, kept := ?kept, seated := ?seated, account := ?account, idle := ?idle }
  case kept =>
    intro m other hother
    rcases changed_eq_some.mp hother with ⟨rfl, _⟩ | ⟨hm, hold⟩
    · exact ⟨ledger, changed_self _ _ _⟩
    · rw [changed_of_ne _ _ hm]
      exact h.kept hold
  case seated =>
    intro m other hother
    rcases changed_eq_some.mp hother with ⟨rfl, heq⟩ | ⟨hm, hold⟩
    · cases heq
      exact ⟨_, changed_self _ _ _, hwidth⟩
    · obtain ⟨seat, hseat, hblock⟩ := h.seated hold
      refine ⟨seat, ?_, hblock⟩
      exact (changed_of_ne σ.seats _ hm).trans hseat
  case account =>
    intro m other seat hother hseat
    rcases changed_eq_some.mp hother with ⟨rfl, heq⟩ | ⟨hm, hold⟩
    · cases heq
      have hself : seat = { thread := t, head := post.head, isBlock := block, branchTips := [] } := by
        have hnew : (σ.startStep t post node block).seats σ.next = some
          { thread := t, head := post.head, isBlock := block, branchTips := [] } := changed_self _ _ _
        rw [hnew] at hseat
        exact (Option.some.inj hseat).symm
      rw [h.idle hnone, hself]
      refine .of_over (fun u other hother hruns => ?_) ?_ ?_ fun _ => changed_self _ _ _
      · obtain ⟨old, hold, hsame⟩ := hposts hother hruns
        obtain ⟨index, branch, hbody⟩ := hruns
        exact h.not_runsFor_next hold ⟨index, branch, hsame.trans hbody⟩
      · rw [hsettled]
        exact fun i hi => absurd hi List.not_mem_nil
      · rw [hsettled]
        exact List.nodup_nil
    · have hold' : σ.seats m = some seat := (changed_of_ne σ.seats _ hm).symm.trans hseat
      refine (h.account hold hold').mono hposts (List.Sublist.refl _) fun hwhy htip => ?_
      -- the head that moves is that of the caller, and no other step is accounted on it
      have hapart := h.tip_apart hpost (leaf_of_idle hidle) hold hold' hwhy
        (h.not_caller hpost hidle hold')
      exact (changed_of_ne σ.tips _ hapart).trans htip
  case idle =>
    intro m hfree
    by_cases hm : m = σ.next
    · rw [hm]
      exact h.idle hnone
    · rw [changed_of_ne _ _ hm] at hfree
      exact h.idle hfree

/-! A body that waited is put on a head, and runs from then on. -/

section Placing

variable {before after : List PendingBody} {body : PendingBody}

/-- The account of a step after one of its bodies was put on a head. -/
theorem placed_account {posts : Nat → Option Post} {tip tip' : Option Nat} {head : Nat}
    {step : Option Nat} {branch : Option Branch}
    (h : Account posts n ledger (before ++ body :: after) tip)
    (hbranch : branch.isSome = body.branch.isSome) (htip : tip' = tip) :
    Account (changed posts t (some { head, step, completions := [.body n body.index branch] })) n
      ledger (before ++ after) tip' := by
  have hmem : body ∈ before ++ body :: after := List.mem_append_right _ List.mem_cons_self
  have hsub : (before ++ after).Sublist (before ++ body :: after) :=
    (List.sublist_cons_self _ _).append_left before
  obtain ⟨hlt, hsettled, hown⟩ := h.waits body hmem
  -- a body waits once, so no other one that waits has its index
  have hothers : ∀ other ∈ before ++ after, other.index ≠ body.index := by
    have hnodup : ((body :: (before ++ after)).map PendingBody.index).Nodup :=
      ((List.perm_middle.map _).nodup_iff).mp h.once
    intro other hother heq
    exact (List.nodup_cons.mp hnodup).1 (heq ▸ List.mem_map_of_mem hother)
  constructor
  case runs =>
    intro u post index b hpost hbody
    rcases changed_eq_some.mp hpost with ⟨_, heq⟩ | ⟨_, hold⟩
    · cases heq
      cases hbody
      exact ⟨hlt, hsettled, hbranch.trans hown, hothers⟩
    · obtain ⟨hi, hout, hb, hapart⟩ := h.runs hold hbody
      exact ⟨hi, hout, hb, fun other hother => hapart other (hsub.subset hother)⟩
  case alone =>
    intro u v post other index b c hpost hother hbody hbody'
    rcases changed_eq_some.mp hpost with ⟨rfl, heq⟩ | ⟨_, hold⟩
    · cases heq
      cases hbody
      rcases changed_eq_some.mp hother with ⟨rfl, _⟩ | ⟨_, hold'⟩
      · rfl
      · exact absurd rfl ((h.runs hold' hbody').2.2.2 body hmem)
    · rcases changed_eq_some.mp hother with ⟨rfl, heq⟩ | ⟨_, hold'⟩
      · cases heq
        cases hbody'
        exact absurd rfl ((h.runs hold hbody).2.2.2 body hmem)
      · exact h.alone hold hold' hbody hbody'
  case waits => exact fun other hother => h.waits other (hsub.subset hother)
  case once => exact h.once.sublist (hsub.map _)
  case bounded => exact h.bounded
  case distinct => exact h.distinct
  case spent =>
    intro hover
    exact absurd (h.spent hover).1 (List.append_ne_nil_of_right_ne_nil _ (List.cons_ne_nil _ _))
  case tip =>
    intro _
    rw [htip]
    exact h.tip (.inr (List.append_ne_nil_of_right_ne_nil _ (List.cons_ne_nil _ _)))

/-- The accounts of the other steps then. -/
theorem other_account {posts : Nat → Option Post} {m index : Nat} {pending : List PendingBody}
    {tip tip' : Option Nat} {head : Nat} {step : Option Nat} {branch : Option Branch} (hm : m ≠ n)
    (h : Account posts m ledger pending tip) (htip : tip = some m → tip' = some m) :
    Account (changed posts t (some { head, step, completions := [.body n index branch] })) m
      ledger pending tip' := by
  refine h.mono (fun hpost hruns => ?_) (List.Sublist.refl _) fun _ => htip
  rcases changed_eq_some.mp hpost with ⟨_, heq⟩ | ⟨_, hold⟩
  · cases heq
    obtain ⟨i, b, hbody⟩ := hruns
    cases hbody
    exact absurd rfl hm
  · exact ⟨_, hold, rfl⟩

variable (hfree : σ.posts t = none) (hseat : σ.seats n = some seat)
  (hledger : ledgers n = some ledger) (hwaits : pending n = before ++ body :: after)
  (hpending : ∀ m, pending' m = if m = n then before ++ after else pending m)

include hwaits in
theorem pending_ne_nil : pending n ≠ [] := by
  rw [hwaits]
  exact List.append_ne_nil_of_right_ne_nil _ (List.cons_ne_nil _ _)

include hseat hledger hwaits in
theorem block_of_waiting (h : Orderly σ ledgers pending) : seat.isBlock = true := by
  have hmem : body ∈ pending n := by
    rw [hwaits]
    exact List.mem_append_right _ List.mem_cons_self
  obtain ⟨hlt, _⟩ := (h.account hledger hseat).waits body hmem
  exact h.seat_of_ledger hledger hseat (Nat.zero_lt_of_lt hlt)

include hseat hledger hwaits in
theorem tip_of_waiting (h : Orderly σ ledgers pending) : σ.tips seat.head = some n :=
  (h.account hledger hseat).tip (.inr (pending_ne_nil hwaits))

include hfree hseat hledger hwaits hpending in
/-- **A body is put on the head of its step.** -/
theorem spawn (h : Orderly σ ledgers pending) (hplain : body.branch = none) :
    Orderly (σ.spawn t n body.index seat) ledgers pending' := by
  have haccount := h.account hledger hseat
  have hmem : body ∈ pending n := by
    rw [hwaits]
    exact List.mem_append_right _ List.mem_cons_self
  obtain ⟨hlt, _, hbranch⟩ := haccount.waits body hmem
  -- a step whose bodies have no branches has one body, and that one still waits
  have hfirst : ∀ u other, σ.posts u = some other → ∀ i, other.completions ≠ [.body n i none] := by
    intro u other hother i hbody
    obtain ⟨hlt', _, _, hapart⟩ := haccount.runs hother hbody
    rw [hplain] at hbranch
    have hnarrow := ledger.narrow hbranch.symm
    exact hapart body hmem (by omega)
  have hgrown : Grown (σ.spawn t n body.index seat) :=
    h.toGrown.spawn hfree hseat (block_of_waiting hseat hledger hwaits h)
      (tip_of_waiting hseat hledger hwaits h) hfirst
  refine { toGrown := hgrown, kept := h.kept, seated := h.seated, account := ?account, idle := ?idle }
  case account =>
    intro m other seat' hother hseat'
    rw [hpending]
    split
    · next hm =>
      subst hm
      rw [hledger] at hother
      cases hother
      replace hseat' : σ.seats m = some seat' := hseat'
      rw [hseat] at hseat'
      cases hseat'
      rw [hwaits] at haccount
      exact placed_account haccount (by rw [hplain]; rfl) rfl
    · next hm => exact other_account hm (h.account hother hseat') id
  case idle =>
    intro m hnone
    rw [hpending]
    split
    · next hm =>
      rw [hm, hledger] at hnone
      cases hnone
    · exact h.idle hnone

include hfree hseat hledger hwaits hpending in
/-- **A body is put on a branch of its own.** -/
theorem openBranch (h : Orderly σ ledgers pending) (hbranch : body.branch.isSome = true)
    (hid : node.id = σ.next) (hkind : node.kind = .blockStart true) (hparents : node.parents = [n]) :
    Orderly (σ.openBranch t n body.index node) ledgers pending' := by
  have haccount := h.account hledger hseat
  have hgrown : Grown (σ.openBranch t n body.index node) :=
    h.toGrown.openBranch hfree hseat (block_of_waiting hseat hledger hwaits h) hid hkind hparents
  -- the new head is above the heads that steps are on
  have htips : ∀ {m other}, σ.seats m = some other →
      (σ.openBranch t n body.index node).tips other.head = σ.tips other.head := by
    intro m other hother
    exact changed_of_ne σ.tips _ (Nat.ne_of_lt (h.seat_head_below hother))
  refine { toGrown := hgrown, kept := h.kept, seated := h.seated, account := ?account, idle := ?idle }
  case account =>
    intro m other seat' hother hseat'
    rw [hpending]
    split
    · next hm =>
      subst hm
      rw [hledger] at hother
      cases hother
      replace hseat' : σ.seats m = some seat' := hseat'
      rw [hseat] at hseat'
      cases hseat'
      rw [hwaits] at haccount
      exact placed_account haccount hbranch.symm (htips hseat)
    · next hm =>
      refine other_account hm (h.account hother hseat') fun htip => ?_
      rw [htips hseat', htip]
  case idle =>
    intro m hnone
    rw [hpending]
    split
    · next hm =>
      rw [hm, hledger] at hnone
      cases hnone
    · exact h.idle hnone

end Placing

/-- The account of a step after a thread has ended. -/
theorem account_without {posts : Nat → Option Post} {m : Nat} {pending : List PendingBody}
    {tip tip' : Option Nat} (h : Account posts m ledger pending tip)
    (htip : ledger.branching = true ∨ pending ≠ [] → tip = some m → tip' = some m) :
    Account (changed posts t none) m ledger pending tip' := by
  refine h.mono (fun hpost _ => ?_) (List.Sublist.refl _) htip
  obtain ⟨_, hold⟩ := changed_none_eq_some.mp hpost
  exact ⟨_, hold, rfl⟩

/-- **A thread ends** that has no branch of its own. -/
theorem endPlain (h : Orderly σ ledgers pending) (hpost : σ.posts t = some post)
    (hidle : post.step = none) (hplain : ∀ m i b, post.completions ≠ [.body m i (some b)]) :
    Orderly (σ.endPlain t) ledgers pending where
  toGrown := h.toGrown.endPlain hpost hidle hplain
  kept := h.kept
  seated := h.seated
  account hledger hseat := account_without (h.account hledger hseat) fun _ htip => htip
  idle := h.idle

/-- **A thread ends with its branch.** -/
theorem endBranch (h : Orderly σ ledgers pending) (hpost : σ.posts t = some post)
    (hidle : post.step = none) {index : Nat} {branch : Branch}
    (hbody : post.completions = [.body n index (some branch)]) (hseat : σ.seats n = some seat)
    (hid : node.id = σ.next) (hkind : node.kind = .blockEnd branch.start) {p : Nat}
    (htip : σ.tips branch.head = some p) (hparents : node.parents = [p]) :
    Orderly (σ.endBranch t n branch seat node) ledgers pending := by
  have hgrown := h.toGrown.endBranch hpost hidle hbody hseat hid hkind htip hparents
  have hhead : post.head = branch.head := h.head_of_branch hpost hbody
  have hseats : ∀ {m other}, (σ.endBranch t n branch seat node).seats m = some other →
      ∃ old, σ.seats m = some old ∧ other.head = old.head ∧ other.thread = old.thread ∧
        other.isBlock = old.isBlock := by
    intro m other hother
    rcases changed_eq_some.mp hother with ⟨rfl, heq⟩ | ⟨_, hold⟩
    · cases heq
      exact ⟨seat, hseat, rfl, rfl, rfl⟩
    · exact ⟨other, hold, rfl, rfl, rfl⟩
  refine { toGrown := hgrown, kept := ?kept, seated := ?seated, account := ?account, idle := h.idle }
  case kept =>
    intro m other hother
    obtain ⟨old, hold, _⟩ := hseats hother
    exact h.kept hold
  case seated =>
    intro m other hother
    obtain ⟨old, hold, hblock⟩ := h.seated hother
    by_cases hm : m = n
    · subst hm
      rw [hseat] at hold
      cases hold
      exact ⟨_, changed_self _ _ _, hblock⟩
    · exact ⟨old, (changed_of_ne σ.seats _ hm).trans hold, hblock⟩
  case account =>
    intro m other seat' hother hseat'
    obtain ⟨old, hold, hsame, _⟩ := hseats hseat'
    rw [hsame]
    refine account_without (h.account hother hold) fun hwhy htip => ?_
    have hapart := h.tip_apart hpost (leaf_of_idle hidle) hother hold hwhy
      (h.not_caller hpost hidle hold)
    rw [hhead] at hapart
    exact (changed_of_ne σ.tips _ hapart).trans htip

/-! ### Steps that are over -/

section Over

variable (h : Orderly σ ledgers pending) (hseat : σ.seats n = some seat)
  (hledger : ledgers n = some ledger) (hdone : ledger.spent = true)
  (hcaller : σ.posts seat.thread = some post)

include h hseat hledger hdone in
theorem over_of_done : pending n = [] ∧ Over σ.posts n := (h.account hledger hseat).spent hdone

include h hseat hledger hdone hcaller in
/-- **A step that is over goes**, and its account with it. -/
theorem release {τ : Scene} (hgrown : Grown τ)
    (hposts : τ.posts = changed σ.posts seat.thread (some { post with step := none }))
    (hseats : τ.seats = changed σ.seats n none)
    (htips : ∀ head, head ≠ seat.head → τ.tips head = σ.tips head) :
    Orderly τ (changed ledgers n none) pending := by
  obtain ⟨hstep, hhead⟩ := Grown.step_of_caller h.toGrown hseat hcaller
  obtain ⟨hnothing, hover⟩ := over_of_done h hseat hledger hdone
  have hold : ∀ {m other}, τ.seats m = some other → m ≠ n ∧ σ.seats m = some other := by
    intro m other hother
    rw [hseats] at hother
    exact changed_none_eq_some.mp hother
  refine { toGrown := hgrown, kept := ?kept, seated := ?seated, account := ?account, idle := ?idle }
  case kept =>
    intro m other hother
    obtain ⟨hm, hother⟩ := hold hother
    rw [changed_of_ne _ _ hm]
    exact h.kept hother
  case seated =>
    intro m other hother
    obtain ⟨hm, hother⟩ := changed_none_eq_some.mp hother
    rw [hseats, changed_of_ne _ _ hm]
    exact h.seated hother
  case account =>
    intro m other seat' hother hseat'
    obtain ⟨hm, hseat'⟩ := hold hseat'
    rw [changed_of_ne _ _ hm] at hother
    refine (h.account hother hseat').mono (fun hpost _ => ?_) (List.Sublist.refl _) fun hwhy htip => ?_
    · rw [hposts] at hpost
      rcases changed_eq_some.mp hpost with ⟨rfl, heq⟩ | ⟨_, hpost⟩
      · cases heq
        exact ⟨post, hcaller, rfl⟩
      · exact ⟨_, hpost, rfl⟩
    -- the caller waited for this step, so it called no other one
    · have hthread : seat'.thread ≠ seat.thread := fun heq => hm (h.eq_of_thread hseat' hseat heq)
      have hapart := h.tip_apart hcaller (Grown.leaf_of_over hover hstep) hother hseat' hwhy hthread
      rw [hhead] at hapart
      rw [htips _ hapart, htip]
  case idle =>
    intro m hnone
    by_cases hm : m = n
    · rw [hm]
      exact hnothing
    · rw [changed_of_ne _ _ hm] at hnone
      exact h.idle hnone

include h hseat hledger hdone hcaller in
/-- **A step without a block is over.** -/
theorem finishAtom (hatom : seat.isBlock = false) :
    Orderly (σ.finishAtom n seat post) (changed ledgers n none) pending :=
  release h hseat hledger hdone hcaller (h.toGrown.finishAtom hseat hatom hcaller) rfl rfl
    fun _ _ => rfl

include h hseat hledger hdone hcaller in
/-- **A step with a block is over.** -/
theorem finishBlock (hblock : seat.isBlock = true) (hid : node.id = σ.next)
    (hkind : node.kind = .blockEnd n)
    (hparents : EndParents seat (σ.tips seat.head) node.parents) :
    Orderly (σ.finishBlock n seat post node) (changed ledgers n none) pending :=
  release h hseat hledger hdone hcaller
    (h.toGrown.finishBlock hseat hblock hcaller (over_of_done h hseat hledger hdone).2 hid hkind
      hparents) rfl rfl fun _ hne => changed_of_ne σ.tips _ hne

end Over

end Orderly

end DurableFlow.History
