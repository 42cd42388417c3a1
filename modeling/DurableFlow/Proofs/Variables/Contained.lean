/-
Contextual variables go down the tree of threads and steps.

A step is called with the variables of its thread, and its bodies run with those of the step,
over which the step may put one more. This is said here of a state between two tasks, beside
the books of the steps: a step lives as long as its bodies do, so the step that a body had its
variables from is still there, and it is called by a thread that is older than the body's.

Nothing is said of the history: the variables go down in the same way when an archive refuses
to write.
-/
import DurableFlow.Proofs.History.Events
import DurableFlow.Proofs.History.Resuming

set_option autoImplicit false

namespace DurableFlow

open Script History

/-! ## What a step puts over the variables of its bodies -/

/-- The contextual variables that a call puts over those around it, for its bodies. -/
def Step.overrides (function : String) (args : List Val) : Scope :=
  if function = "with_context" then
    match args with
    | [.str key, value] => [(key, value)]
    | _ => []
  else []

def LiveStep.overrides (step : LiveStep) : Scope := Step.overrides step.function step.args

/-- No variable is put over the others twice. -/
theorem LiveStep.nodup_overrides (step : LiveStep) : (Table.keys step.overrides).Nodup := by
  unfold overrides Step.overrides
  split
  · split
    · exact List.nodup_singleton _
    · exact List.nodup_nil
  · exact List.nodup_nil

namespace Step

/-- The arguments of a call that `with_context` takes. -/
theorem args_withContext {clock : Text.Timestamp} {args : List Val} {memory : StepMemory}
    (h : withContext.create clock args = .ok memory) : ∃ key value, args = [.str key, value] := by
  obtain ⟨_, hcount, hrest⟩ := bind_eq_ok.mp h
  obtain ⟨key, hkey, _⟩ := bind_eq_ok.mp hrest
  have hlength : args.length = 2 := by
    unfold checkCount at hcount
    dsimp only at hcount
    split at hcount
    · next hrange => exact Nat.le_antisymm hrange.2 hrange.1
    · cases hcount
  obtain ⟨first, value, rfl⟩ := List.length_eq_two.mp hlength
  cases first with
  | str key => exact ⟨key, value, rfl⟩
  | _ => cases hkey

theorem overrides_startBlock {view : StepView} {overrides overrides' : Scope} {source : BodySource}
    {branch : Option String}
    (h : .startBody source overrides' branch ∈ (startBlock view overrides).effects) :
    overrides' = overrides := by
  rcases startBlock_cases view overrides with ⟨_, hstart⟩ | ⟨_, hstart⟩
  · rw [hstart] at h
    cases h
  · rw [hstart] at h
    cases List.mem_singleton.mp h
    rfl

/-- **A start asks for bodies with the variables of its call** put over the others. -/
theorem overrides_standard : ∀ d ∈ standard, ∀ {clock args memory view source overrides branch},
    d.create clock args = .ok memory → view.args = args →
    .startBody source overrides branch ∈ (d.start view).effects →
    overrides = Step.overrides d.function args := by
  -- a step without a block asks for no bodies
  have hatom : ∀ d ∈ standard, d.isBlock = false → ∀ {view source overrides branch},
      .startBody source overrides branch ∉ (d.start view).effects := by
    intro d hd hno view source overrides branch hmem
    rcases startsWell_standard d hd view with hplain | ⟨hblock, _⟩
    · cases hplain _ hmem
    · rw [hno] at hblock
      cases hblock
  apply forall_standard
  case hstage => exact fun _ _ hmem => overrides_startBlock hmem
  case hcontext =>
    intro clock args memory view source overrides branch hcreate hargs hmem
    obtain ⟨key, value, rfl⟩ := args_withContext hcreate
    rw [overrides_startBlock hmem]
    unfold StepView.arg
    rw [hargs]
    rfl
  case hparallel =>
    intro clock args memory view source overrides branch _ _ hmem
    rcases parallel_cases view with ⟨_, heq⟩ | heq | ⟨branches, _, heq⟩ <;> rw [heq] at hmem
    · cases hmem
    · cases List.mem_singleton.mp hmem
    · obtain ⟨closure, name, hsame⟩ := mem_startBranches hmem
      cases hsame
      rfl
  case hevaluate =>
    intro clock args memory view source overrides branch _ _ hmem
    rcases evaluate_cases view with ⟨_, heq⟩ | ⟨name, text, closure, heq⟩ <;> rw [heq] at hmem
    · cases hmem
    · simp only [List.mem_cons, List.not_mem_nil, or_false, reduceCtorEq, false_or] at hmem
      cases hmem
      rfl
  all_goals exact fun _ _ hmem => absurd hmem (hatom _ (by simp [standard]) rfl)

end Step

namespace Execution

/-! ## The invariant -/

/-- **The invariant of contextual variables**, with the thread that is running and the tasks that are
left. -/
structure Contained (x : Execution) (running : Option Thread) (tasks : List BodyTask) : Prop where
  engine : x.engine.IsStandard
  known : ∀ {n step}, x.program.stepAt n = some step →
    ∃ d, Step.standard.find? step.function = some d ∧ d.isBlock = step.isBlock
  drained : ∀ {n step}, x.program.stepAt n = some step → step.cell.bodies = []
  below : ∀ {n step}, x.program.stepAt n = some step → n < x.record.nextNodeId
  account : ∀ {n step}, x.program.stepAt n = some step →
    Account (x.program.posts running) n step.ledger (bodiesIn tasks n) (some n)
  named : ∀ {n}, Named x n → Free x running tasks n
  /-- A body that is to be started was asked for with the variables of the call. -/
  asked : ∀ {n step}, x.program.stepAt n = some step → ∀ body ∈ bodiesIn tasks n,
    body.overrides = step.overrides
  /-- A step has the variables of the thread that called it. -/
  shared : ∀ {t n thread step}, x.program.threadAt running t = some thread →
    x.program.stepAt n = some step → step.thread = t → step.vars = thread.vars
  /-- A body runs with the variables of its step, which was called by an older thread. -/
  inherited : ∀ {t n thread}, x.program.threadAt running t = some thread → thread.post.RunsFor n →
    ∃ step, x.program.stepAt n = some step ∧ step.thread < t ∧
      thread.vars = Table.insertAll step.overrides step.vars
  /-- The script runs without variables. -/
  root : ∀ {t thread}, x.program.threadAt running t = some thread → thread.completions = [.root] →
    thread.vars = []

/-! ## What is left of threads and steps -/

/-- **No thread or step is new**, and each of those that are left is what it was, as far as variables
and bodies go. A step is gone only after its bodies. -/
structure Remains (x : Execution) (running : Option Thread) (y : Execution) (running' : Option Thread) :
    Prop where
  engine : y.engine = x.engine
  nodes : x.record.nextNodeId ≤ y.record.nextNodeId
  threads : ∀ {t new}, y.program.threadAt running' t = some new →
    ∃ old, x.program.threadAt running t = some old ∧ new.completions = old.completions ∧
      new.vars = old.vars
  steps : ∀ {n new}, y.program.stepAt n = some new → ∃ old, x.program.stepAt n = some old ∧
    ∃ children branchTips, new = { old with children, branchTips }
  gone : ∀ {n old}, x.program.stepAt n = some old → y.program.stepAt n = none →
    History.Over (x.program.posts running) n

namespace Remains

variable {x y z : Execution} {running running' running'' : Option Thread}

/-- Only the places of threads are left to look at, if the steps are the same. -/
theorem of_places (hengine : y.engine = x.engine) (hnodes : x.record.nextNodeId ≤ y.record.nextNodeId)
    (hplaces : y.program.places running' = x.program.places running)
    (hsteps : y.program.stepAt = x.program.stepAt) : Remains x running y running' := by
  refine ⟨hengine, hnodes, fun {t new} hnew => ?_, fun {n new} hnew => ?_, fun {n old} hold hgone => ?_⟩
  · have hplace : x.program.places running t = some new.place := by
      rw [← hplaces]
      exact congrArg (Option.map Thread.place) hnew
    obtain ⟨old, hold, hsame⟩ := Option.map_eq_some_iff.mp hplace
    have hpost : old.post = new.post := congrArg Prod.fst hsame
    exact ⟨old, hold, (congrArg Post.completions hpost).symm, (congrArg Prod.snd hsame).symm⟩
  · rw [hsteps] at hnew
    exact ⟨new, hnew, _, _, rfl⟩
  · rw [hsteps, hold] at hgone
    cases hgone

theorem of_program (hengine : y.engine = x.engine) (hnodes : x.record.nextNodeId ≤ y.record.nextNodeId)
    (hprogram : y.program = x.program) : Remains x running y running :=
  of_places hengine hnodes (by rw [hprogram]) (by rw [hprogram])

theorem of_quiet (h : Quiet x y) : Remains x running y running :=
  of_program (by rw [h.rest]) h.nodes h.program

/-- One step gets other children or branches. -/
theorem of_adjust (hengine : y.engine = x.engine) (hnodes : x.record.nextNodeId ≤ y.record.nextNodeId)
    (hthreads : ∀ {t new}, y.program.threadAt running' t = some new →
      x.program.threadAt running t = some new) {node : Nat} {f : LiveStep → LiveStep}
    (hf : ∀ step, ∃ children branchTips, f step = { step with children, branchTips })
    (hsteps : y.program.stepAt = (x.program.adjustStep node f).stepAt) : Remains x running y running' := by
  refine ⟨hengine, hnodes, fun hnew => ⟨_, hthreads hnew, rfl, rfl⟩, fun hnew => ?_, fun hold hgone => ?_⟩
  · rw [hsteps] at hnew
    obtain ⟨old, hold, rfl | rfl⟩ := LiveProgram.stepAt_adjustStep_cases hnew
    · exact ⟨_, hold, _, _, rfl⟩
    · exact ⟨_, hold, hf old⟩
  · rw [hsteps, LiveProgram.stepAt_adjustStep] at hgone
    dsimp only at hgone
    rw [hold] at hgone
    cases hgone

/-- Whichever body runs now has run before. -/
theorem posts (h : Remains x running y running') {t : Nat} {post : Post}
    (hpost : y.program.posts running' t = some post) :
    ∃ old, x.program.posts running t = some old ∧ old.completions = post.completions := by
  obtain ⟨new, hnew, rfl⟩ := Option.map_eq_some_iff.mp hpost
  obtain ⟨old, hold, hsame, _⟩ := h.threads hnew
  exact ⟨old.post, congrArg (Option.map Thread.post) hold, hsame.symm⟩

theorem spent (h : Remains x running y running') {n : Nat}
    (hover : History.Over (x.program.posts running) n) : History.Over (y.program.posts running') n := by
  rintro t post hpost ⟨index, branch, hbody⟩
  obtain ⟨old, hold, hsame⟩ := h.posts hpost
  exact hover t old hold ⟨index, branch, hsame.trans hbody⟩

theorem free (h : Remains x running y running') {tasks : List BodyTask} {n : Nat}
    (hfree : Free x running tasks n) : Free y running' tasks n :=
  ⟨Nat.lt_of_lt_of_le hfree.below h.nodes, h.spent hfree.spent, hfree.nothing⟩

end Remains

namespace Contained

variable {x y : Execution} {running running' : Option Thread} {tasks tasks' : List BodyTask}

/-- **The invariant goes on with what is left** of threads and steps. -/
theorem remains (h : Contained x running tasks) (hxy : Remains x running y running')
    (hnamed : ∀ n, Named y n → Named x n ∨ Free x running tasks n) : Contained y running' tasks := by
  constructor
  case engine => exact hxy.engine ▸ h.engine
  case known =>
    intro n new hnew
    obtain ⟨old, hold, _, _, rfl⟩ := hxy.steps hnew
    exact (h.known hold :)
  case drained =>
    intro n new hnew
    obtain ⟨old, hold, _, _, rfl⟩ := hxy.steps hnew
    exact (h.drained hold :)
  case below =>
    intro n new hnew
    obtain ⟨old, hold, _⟩ := hxy.steps hnew
    exact Nat.lt_of_lt_of_le (h.below hold) hxy.nodes
  case account =>
    intro n new hnew
    obtain ⟨old, hold, _, _, rfl⟩ := hxy.steps hnew
    -- whichever body runs now ran before, so no body is counted twice
    exact (h.account hold).mono (fun hpost _ => hxy.posts hpost) (List.Sublist.refl _) fun _ htip => htip
  case named => exact fun hn => hxy.free ((hnamed _ hn).elim h.named id)
  case asked =>
    intro n new hnew
    obtain ⟨old, hold, _, _, rfl⟩ := hxy.steps hnew
    exact (h.asked hold :)
  case shared =>
    intro t n thread step hthread hstep hcaller
    obtain ⟨old, hold, _, hvars⟩ := hxy.threads hthread
    obtain ⟨step', hstep', _, _, rfl⟩ := hxy.steps hstep
    exact (h.shared hold hstep' hcaller).trans hvars.symm
  case inherited =>
    rintro t n thread hthread ⟨index, branch, hbody⟩
    obtain ⟨old, hold, hsame, hvars⟩ := hxy.threads hthread
    have hruns : old.post.RunsFor n := ⟨index, branch, hsame.symm.trans hbody⟩
    obtain ⟨step, hstep, hless, hown⟩ := h.inherited hold hruns
    -- the step is still there, because this body of it is
    cases hstep' : y.program.stepAt n with
    | none =>
      have hpost : x.program.posts running t = some old.post := congrArg (Option.map Thread.post) hold
      exact absurd hruns (hxy.gone hstep hstep' t _ hpost)
    | some step' =>
      obtain ⟨other, hother, _, _, rfl⟩ := hxy.steps hstep'
      rw [hstep] at hother
      cases hother
      exact ⟨_, rfl, hless, hvars.trans hown⟩
  case root =>
    intro t thread hthread hroot
    obtain ⟨old, hold, hsame, hvars⟩ := hxy.threads hthread
    exact hvars.trans (h.root hold (hsame.symm.trans hroot))

/-- Tasks that are never done are forgotten. -/
theorem forget (h : Contained x running tasks)
    (htasks : ∀ n, (bodiesIn tasks' n).Sublist (bodiesIn tasks n)) : Contained x running tasks' where
  engine := h.engine
  known := h.known
  drained := h.drained
  below := h.below
  account {n step} hstep :=
    (h.account hstep).mono (fun hpost _ => ⟨_, hpost, rfl⟩) (htasks n) fun _ htip => htip
  named := by
    intro n hn
    obtain ⟨hbelow, hover, hnothing⟩ := h.named hn
    have hsub := htasks n
    rw [hnothing] at hsub
    exact ⟨hbelow, hover, List.sublist_nil.mp hsub⟩
  asked {n step} hstep body hmem := h.asked hstep body ((htasks n).subset hmem)
  shared := h.shared
  inherited := h.inherited
  root := h.root

/-- **The account of a step is written anew**, with bodies that have the variables of its call. -/
theorem recount (h : Contained x running tasks) {node : Nat} {step step' : LiveStep}
    (hxy : Report x y node) (hold : x.program.stepAt node = some step)
    (hnew : y.program.stepAt node = some step')
    (htasks : ∀ m, m ≠ node → bodiesIn tasks' m = bodiesIn tasks m)
    (hbodies : step'.cell.bodies = [])
    (haccount : Account (x.program.posts running) node step'.ledger (bodiesIn tasks' node) (some node))
    (hasked : ∀ body ∈ bodiesIn tasks' node,
      body ∈ bodiesIn tasks node ∨ body.overrides = step.overrides)
    (hnamed : ∀ n, Named y n → Free x running tasks' n) : Contained y running tasks' := by
  have htouch := hxy.touch
  obtain ⟨cell, memory, hown⟩ := htouch.own step hold
  rw [hnew] at hown
  cases hown
  have hthreads := LiveProgram.threadAt_congr htouch.threads running
  have hposts : y.program.posts running = x.program.posts running := hxy.still.postsAt running
  have hnext : y.record.nextNodeId = x.record.nextNodeId := Going.next_congr hxy.light.index
  -- a step is the one that has reported, or what it was before
  have hcases : ∀ {n other}, y.program.stepAt n = some other →
      n = node ∧ other = { step with cell, memory } ∨ n ≠ node ∧ x.program.stepAt n = some other := by
    intro n other hother
    by_cases hn : n = node
    · rw [hn, hnew] at hother
      exact .inl ⟨hn, (Option.some.inj hother).symm⟩
    · rw [htouch.others n hn] at hother
      exact .inr ⟨hn, hother⟩
  constructor
  case engine => exact hxy.engine ▸ h.engine
  case known =>
    intro n other hother
    rcases hcases hother with ⟨rfl, rfl⟩ | ⟨_, hsame⟩
    · exact (h.known hold :)
    · exact h.known hsame
  case drained =>
    intro n other hother
    rcases hcases hother with ⟨rfl, rfl⟩ | ⟨_, hsame⟩
    · exact hbodies
    · exact h.drained hsame
  case below =>
    intro n other hother
    rw [hnext]
    rcases hcases hother with ⟨rfl, rfl⟩ | ⟨_, hsame⟩
    · exact h.below hold
    · exact h.below hsame
  case account =>
    intro n other hother
    rw [hposts]
    rcases hcases hother with ⟨rfl, rfl⟩ | ⟨hn, hsame⟩
    · exact haccount
    · rw [htasks n hn]
      exact h.account hsame
  case named =>
    intro n hn
    obtain ⟨hbelow, hover, hnothing⟩ := hnamed n hn
    exact ⟨hnext ▸ hbelow, hposts ▸ hover, hnothing⟩
  case asked =>
    intro n other hother body hmem
    rcases hcases hother with ⟨rfl, rfl⟩ | ⟨hn, hsame⟩
    · exact (hasked body hmem).elim (h.asked hold body) id
    · rw [htasks n hn] at hmem
      exact h.asked hsame body hmem
  case shared =>
    intro t n thread other hthread hother hcaller
    rw [hthreads] at hthread
    rcases hcases hother with ⟨rfl, rfl⟩ | ⟨_, hsame⟩
    · exact (h.shared hthread hold hcaller :)
    · exact h.shared hthread hsame hcaller
  case inherited =>
    intro t n thread hthread hruns
    rw [hthreads] at hthread
    obtain ⟨other, hother, hless, hvars⟩ := h.inherited hthread hruns
    by_cases hn : n = node
    · subst hn
      rw [hold] at hother
      cases hother
      exact ⟨_, hnew, hless, hvars⟩
    · exact ⟨other, (htouch.others n hn).trans hother, hless, hvars⟩
  case root =>
    rw [hthreads]
    exact h.root

/-- **The invariant keeps the books** of all steps. -/
theorem books : Books Contained (fun _ n _ => some n) fun step body => body.overrides = step.overrides where
  engine h := h.engine
  known h := h.known
  drained h := h.drained
  below h := h.below
  account h := h.account
  named h := h.named
  forget h := h.forget
  still h hxy hthreads hsteps hnamed := by
    refine h.remains (.of_places hxy.engine (Nat.le_of_eq (Going.next_congr hxy.index).symm) ?_ hsteps) hnamed
    unfold LiveProgram.places
    rw [LiveProgram.threadAt_congr hthreads]
  reseat {x _ _ _ program} h hplaces hsteps := by
    refine h.remains (.of_places rfl (Nat.le_refl _) hplaces hsteps) fun _ hn => .inl ?_
    exact (show SameWaits x { x with program } from ⟨rfl, rfl, rfl⟩).named hn
  recount h hxy hold hnew htasks hbodies haccount hasked hnamed :=
    h.recount hxy hold hnew htasks hbodies haccount hasked hnamed

end Contained

end Execution

end DurableFlow
