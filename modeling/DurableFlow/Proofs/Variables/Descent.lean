/-
Threads and steps hand contextual variables down.

A step gets the variables of its thread when it is called, and the thread of a body gets those
of the step. Both are put among threads and steps that know nothing of them yet, and what was
there before stays as it was. All else that the work and the turns do only takes threads and
steps away.
-/
import DurableFlow.Proofs.Variables.Contained

set_option autoImplicit false

namespace DurableFlow

open Script History

namespace Execution

/-! ## Bodies -/

namespace Remains

variable {x y : Execution} {running running' : Option Thread}

/-- A body that is new to its step stays so. -/
theorem ready (h : Remains x running y running') {tasks : List BodyTask} {node index : Nat}
    (hready : Ready x running tasks node index) : Ready y running' tasks node index := by
  refine ⟨fun hnew => ?_, hready.waits, fun {t post branch} hpost hbody => ?_⟩
  · obtain ⟨old, hold, _, _, rfl⟩ := h.steps hnew
    exact (hready.awaited hold :)
  · obtain ⟨old, hold, hsame⟩ := h.posts hpost
    exact hready.runs hold (hsame.trans hbody)

/-- One step gets other children or branches. -/
theorem of_step (x : Execution) (running : Option Thread) (node : Nat) {f : LiveStep → LiveStep}
    (hf : ∀ step, ∃ children branchTips, f step = { step with children, branchTips }) :
    Remains x running (x.mapProgram (·.adjustStep node f)) running := by
  refine of_adjust rfl (Nat.le_refl _) (fun hnew => ?_) hf rfl
  rw [← hnew]
  cases running <;> rfl

end Remains

/-- A branch is opened for those who want one. -/
theorem isSome_openBranch? {x y : Execution} {head : Nat} {name : Option String}
    {branch : Option Branch} (h : openBranch? head name x = (.ok branch, y)) :
    branch.isSome = name.isSome := by
  cases name with
  | none =>
    cases h
    rfl
  | some name =>
    obtain ⟨opened, _, _, hrest⟩ := Attempt.bind_eq_ok h
    cases hrest
    rfl

namespace Contained

variable {x y : Execution} {running : Option Thread} {tasks : List BodyTask} {node index : Nat}
  {step : LiveStep} {body : PendingBody}

theorem quiet (h : Contained x running tasks) (hxy : Quiet x y) : Contained y running tasks :=
  h.remains (.of_quiet hxy) fun _ hn => .inl ((SameWaits.of_quiet hxy).named hn)

/-- A branch is closed, if it can be. -/
theorem closeBranch? (h : Contained x running tasks) (hready : Ready x running tasks node index)
    (branch : Option Branch) (error : Option Failure) :
    Contained (x.closeBranch? node branch error) running tasks ∧
      Ready (x.closeBranch? node branch error) running tasks node index := by
  cases branch with
  | none => exact ⟨h, hready⟩
  | some branch =>
    unfold Execution.closeBranch? closeBranch
    dsimp only
    split
    · next tip y heq =>
      have hquiet := (Quiet.alongWrites.endBranch branch error).leads heq
      have htold := Remains.of_step y running node fun s => ⟨s.children, s.branchTips ++ [tip], rfl⟩
      refine ⟨(h.quiet hquiet).remains htold fun _ hn => .inl ?_, ?_⟩
      · exact (show SameWaits y (y.mapProgram _) from ⟨rfl, rfl, rfl⟩).named hn
      · exact htold.ready ((Remains.of_quiet hquiet).ready hready)
    · next y heq =>
      have hquiet := (Quiet.alongWrites.endBranch branch error).leads heq
      exact ⟨h.quiet hquiet, (Remains.of_quiet hquiet).ready hready⟩

/-- **A thread is put among the others** for a body, with the variables of its step. -/
theorem joined (h : Contained x running (.start node body :: tasks))
    (hstep : x.program.stepAt node = some step) (thread : Thread) {branch : Option Branch}
    (hbody : thread.completions = [.body node body.index branch])
    (hbranch : branch.isSome = body.branch.isSome)
    (hvars : thread.vars = Table.insertAll body.overrides step.vars)
    (hyounger : ∀ {n other}, x.program.stepAt n = some other → other.thread < thread.id)
    (hengine : y.engine = x.engine) (hnext : y.record.nextNodeId = x.record.nextNodeId)
    (hwaits : SameWaits x y) (hsteps : y.program.stepAt = x.program.stepAt)
    (hthreads : y.program.threadAt running =
      changed (x.program.threadAt running) thread.id (some thread)) : Contained y running tasks := by
  have hpost : thread.post = { thread.post with completions := [.body node body.index branch] } := by
    rw [← hbody]
    rfl
  have hposts := posts_of_threadAt hthreads
  rw [Option.map_some, hpost] at hposts
  have hasked : body.overrides = step.overrides := by
    refine h.asked hstep body ?_
    rw [Going.waits_start]
    exact List.mem_cons_self
  have hleft : Contained x running tasks := books.forget_start h
  constructor
  case engine => exact hengine ▸ h.engine
  case known => rw [hsteps]; exact h.known
  case drained => rw [hsteps]; exact h.drained
  case below => rw [hsteps, hnext]; exact h.below
  case account =>
    intro n other hother
    rw [hsteps] at hother
    have haccount := h.account hother
    rw [hposts]
    by_cases hn : n = node
    · subst hn
      rw [Going.waits_start] at haccount
      exact Orderly.placed_account haccount hbranch rfl
    · rw [bodiesIn_start, if_neg hn] at haccount
      exact Orderly.other_account hn haccount id
  case named =>
    intro n hn
    obtain ⟨hbelow, hover, hnothing⟩ := h.named (hwaits.named hn)
    obtain ⟨hne, hnone⟩ := Going.free_start hnothing
    rw [← hnext] at hbelow
    refine ⟨hbelow, ?_, hnone⟩
    rw [hposts]
    exact Going.over_spawned hne hover
  case asked => rw [hsteps]; exact hleft.asked
  case shared =>
    intro t n other caller hother hcaller hown
    rw [hsteps] at hcaller
    rw [hthreads] at hother
    rcases changed_eq_some.mp hother with ⟨rfl, _⟩ | ⟨_, hold⟩
    -- the new thread is younger than all callers, so it has called nothing
    · exact absurd (hyounger hcaller) (by rw [hown]; exact Nat.lt_irrefl _)
    · exact h.shared hold hcaller hown
  case inherited =>
    intro t n other hother hruns
    rw [hsteps]
    rw [hthreads] at hother
    rcases changed_eq_some.mp hother with ⟨rfl, heq⟩ | ⟨_, hold⟩
    · cases heq
      obtain ⟨i, b, hsame⟩ := hruns
      cases hbody.symm.trans hsame
      exact ⟨step, hstep, hyounger hstep, hasked ▸ hvars⟩
    · exact h.inherited hold hruns
  case root =>
    intro t other hother hroot
    rw [hthreads] at hother
    rcases changed_eq_some.mp hother with ⟨_, heq⟩ | ⟨_, hold⟩
    · cases heq
      cases hbody.symm.trans hroot
    · exact h.root hold hroot

/-- **A body gets a thread**, and its step one more child. -/
theorem spawnBody (h : Contained x running (.start node body :: tasks)) (hsound : Sound x running)
    (hstep : x.program.stepAt node = some step) {branch : Option Branch}
    (hbranch : branch.isSome = body.branch.isSome) (machine : Machine) :
    Contained (x.spawnBody step body branch machine) running tasks := by
  obtain rfl : step.node = node := hsound.links.node hstep
  have hthreads := threadAt_spawnBody (fun _ hr => running_ne_next hsound hr) step body branch machine
  let thread : Thread :=
    { id := x.record.threadsCreated + 1, machine, head := (branch.map Branch.head).getD step.head
      vars := Table.insertAll body.overrides step.vars
      completions := [.body step.node body.index branch], input := some (.ok .null) }
  let child (s : LiveStep) : LiveStep :=
    { s with children := Table.insert (x.record.threadsCreated + 1) () s.children }
  let told : Execution := x.mapProgram (·.adjustStep step.node child)
  have htold : Contained told running (.start step.node body :: tasks) := by
    refine h.remains (.of_step x running step.node fun s => ⟨_, s.branchTips, rfl⟩) fun _ hn => .inl ?_
    exact (show SameWaits x told from ⟨rfl, rfl, rfl⟩).named hn
  have hchild : told.program.stepAt step.node = some (child step) := by
    rw [show told.program.stepAt = _ from LiveProgram.stepAt_adjustStep_of_live hstep child, changed_self]
  -- the step has its child already; what is left to do is to put the thread in
  refine htold.joined hchild thread rfl hbranch rfl (fun hother => ?_) rfl rfl ⟨rfl, rfl, rfl⟩ rfl
    (hthreads.trans ?_)
  · obtain ⟨old, hold, heq⟩ := LiveProgram.stepAt_adjustStep_cases hother
    obtain ⟨caller, hcaller, _⟩ := hsound.links.caller hold
    have hthread : _ = old.thread := heq.elim (congrArg LiveStep.thread) (congrArg LiveStep.thread)
    rw [hthread]
    exact Nat.lt_succ_of_le (hsound.threadNumber hcaller)
  · cases running <;> rfl

/-- **A body is started**, in place or on a thread of its own. -/
theorem startBody (h : Contained x running (.start node body :: tasks)) (hsound : Sound x running)
    (hstep : x.program.stepAt node = some step) :
    Contained (x.startBody step body).2 running ((x.startBody step body).1 ++ tasks) := by
  have hnode : step.node = node := hsound.links.node hstep
  have hready := books.ready_start h hstep
  have hleft : Contained x running tasks := books.forget_start h
  unfold Execution.startBody
  rw [hnode]
  split
  · exact books.bodyEnded hleft hready _
  · next closure _ =>
    split
    · next e y heq =>
      have hquiet := (Quiet.alongWrites.openBranch? _ _).leads heq
      exact books.bodyEnded (hleft.quiet hquiet) ((Remains.of_quiet hquiet).ready hready) _
    · next branch y heq =>
      have hquiet := (Quiet.alongWrites.openBranch? _ _).leads heq
      split
      · next outcome _ =>
        obtain ⟨hclosed, hready'⟩ := (hleft.quiet hquiet).closeBranch?
          ((Remains.of_quiet hquiet).ready hready) branch (failureOf? outcome)
        exact books.bodyEnded hclosed hready' outcome
      · next machine _ =>
        refine (h.quiet hquiet).spawnBody (hsound.quiet hquiet) (hquiet.program ▸ hstep) ?_ machine
        exact isSome_openBranch? heq

/-- **A step is over**, after its bodies. Its thread goes on with the variables that it had. -/
theorem finish {running' : Option Thread} {thread free : Thread} (h : Contained x running tasks)
    (hsound : Sound x running) (hstep : x.program.stepAt node = some step)
    (hdone : step.cell.outcome.isSome = true)
    (hthread : x.program.threadAt running step.thread = some thread)
    (hplace : free.place = ({ thread.post with step := none }, thread.vars)) (cell : StepCell)
    (outcome : Outcome) (hy : (x.adjustStep node fun step => { step with cell }).finishStep node outcome = y)
    (f : LiveProgram → LiveProgram) (hsteps : (f y.program).stepAt = y.program.stepAt)
    (hthreads : (f y.program).threadAt running' =
      changed (x.program.threadAt running) step.thread (some free)) :
    Contained (y.mapProgram f) running' tasks := by
  have hdropped := hsound.dropped hstep cell outcome
  rw [hy] at hdropped
  obtain ⟨program, retired, heq⟩ := finishStep_eq hstep cell outcome
  have hquiet : Quiet { x with program, retired } y := by
    rw [← hy, heq]
    exact Quiet.alongWrites.closeStepNode _ _ _
  have hstepAt : (f y.program).stepAt = changed x.program.stepAt node none := hsteps.trans hdropped.steps
  have hpost : free.post = { thread.post with step := none } := congrArg Prod.fst hplace
  have hwaits : SameWaits x (y.mapProgram f) :=
    (show SameWaits x { x with program, retired } from ⟨rfl, rfl, rfl⟩).trans
      ((SameWaits.of_quiet hquiet).trans ⟨rfl, rfl, rfl⟩)
  refine h.remains ⟨?_, hdropped.nodes, fun {t new} hnew => ?_, fun {n new} hnew => ?_,
    fun {n old} hold hgone => ?_⟩ fun _ hn => .inl (hwaits.named hn)
  · show y.engine = x.engine
    rw [hquiet.rest]
  · rw [show (y.mapProgram f).program.threadAt running' = _ from hthreads] at hnew
    rcases changed_eq_some.mp hnew with ⟨rfl, heq⟩ | ⟨_, hold⟩
    · cases heq
      exact ⟨thread, hthread, congrArg Post.completions hpost, congrArg Prod.snd hplace⟩
    · exact ⟨new, hold, rfl, rfl⟩
  · rw [show (y.mapProgram f).program.stepAt = _ from hstepAt] at hnew
    obtain ⟨_, hold⟩ := changed_none_eq_some.mp hnew
    exact ⟨new, hold, _, _, rfl⟩
  · rw [show (y.mapProgram f).program.stepAt = _ from hstepAt] at hgone
    -- only `node` is gone, and a step with an outcome has no bodies left
    by_cases hn : n = node
    · subst hn
      rw [hstep] at hold
      cases hold
      exact ((h.account hstep).spent hdone).2
    · rw [changed_of_ne _ _ hn, hold] at hgone
      cases hgone

/-- Variables go down through the work. -/
theorem works : Works Contained (fun _ n _ => some n) fun step body => body.overrides = step.overrides where
  toBooks := books
  startBody h := h.startBody
  finish h hsound hstep hdone hthread hplace cell outcome hy f :=
    h.finish hsound hstep hdone hthread hplace cell outcome hy f

end Contained

/-! ## Calls -/

section Calls

variable {x y : Execution} {r : Thread} {step : LiveStep}

/-- **A step is put among the others**, with the variables of the thread that calls it. -/
theorem Contained.placed (h : Contained x (some r) []) {program : LiveProgram}
    (hthreads : program.threads = x.program.threads) (hsteps : program.steps = x.program.steps)
    (hfree : x.program.stepAt step.node = none)
    (hfresh : ∀ t other, x.program.threadAt (some r) t = some other → ¬ other.RunsFor step.node)
    (hunnamed : ¬ Named x step.node) (hbelow : step.node < x.record.nextNodeId)
    (hcaller : step.thread = r.id) (hvars : step.vars = r.vars) (hcell : step.cell = {})
    (hsettled : step.ledger.settled = [])
    (hknown : ∃ d, Step.standard.find? step.function = some d ∧ d.isBlock = step.isBlock) :
    Placed Contained (fun _ n _ => some n) { x with program := program.putStep step } r step := by
  let waiting : Thread := { r with step := some step.node }
  let y : Execution := { x with program := program.putStep step }
  have hthreadAt : y.program.threadAt (some waiting) =
      changed (x.program.threadAt (some r)) r.id (some waiting) :=
    LiveProgram.threadAt_goesOn hthreads rfl
  have hstepAt : y.program.stepAt = changed x.program.stepAt step.node (some step) := by
    rw [show y.program.stepAt = _ from LiveProgram.stepAt_putStep _ _, LiveProgram.stepAt_congr hsteps]
  have hself := LiveProgram.threadAt_running x.program r
  -- each thread was there, and only the caller waits for another step than before
  have hold : ∀ {t thread}, y.program.threadAt (some waiting) t = some thread →
      ∃ old, x.program.threadAt (some r) t = some old ∧ thread.completions = old.completions ∧
        thread.vars = old.vars := by
    intro t thread hthread
    rw [hthreadAt] at hthread
    exact changed_elim hthread ⟨r, hself, rfl, rfl⟩ fun hold => ⟨_, hold, rfl, rfl⟩
  have hposts : ∀ {t post}, y.program.posts (some waiting) t = some post →
      ∃ old, x.program.threadAt (some r) t = some old ∧ old.post.completions = post.completions := by
    intro t post hpost
    obtain ⟨thread, hthread, rfl⟩ := Option.map_eq_some_iff.mp hpost
    obtain ⟨old, hold, hsame, _⟩ := hold hthread
    exact ⟨old, hold, hsame.symm⟩
  have hover : History.Over (y.program.posts (some waiting)) step.node := by
    rintro t post hpost ⟨index, branch, hbody⟩
    obtain ⟨old, hold, hsame⟩ := hposts hpost
    exact hfresh t old hold (Thread.post_runsFor ⟨index, branch, hsame.trans hbody⟩)
  have hwaits : SameWaits x y := ⟨rfl, rfl, rfl⟩
  refine ⟨?_, ?_, ⟨hbelow, hover, rfl⟩, fun hn => hunnamed (hwaits.named hn), rfl⟩
  · constructor
    case engine => exact h.engine
    case known =>
      intro n other hother
      rw [hstepAt] at hother
      exact changed_elim hother hknown h.known
    case drained =>
      intro n other hother
      rw [hstepAt] at hother
      rcases changed_eq_some.mp hother with ⟨_, heq⟩ | ⟨_, hother⟩
      · cases heq
        rw [hcell]
      · exact h.drained hother
    case below =>
      intro n other hother
      rw [hstepAt] at hother
      exact changed_elim hother hbelow h.below
    case account =>
      intro n other hother
      rw [hstepAt] at hother
      rcases changed_eq_some.mp hother with ⟨rfl, heq⟩ | ⟨_, hother⟩
      · cases heq
        refine .of_over hover ?_ ?_ fun _ => rfl
        · rw [hsettled]
          exact fun i hi => absurd hi List.not_mem_nil
        · rw [hsettled]
          exact List.nodup_nil
      · refine (h.account hother).mono (fun hpost _ => ?_) (List.Sublist.refl _) fun _ htip => htip
        obtain ⟨old, hold, hsame⟩ := hposts hpost
        exact ⟨old.post, congrArg (Option.map Thread.post) hold, hsame⟩
    case named =>
      intro n hn
      obtain ⟨hbelow, hspent, hnothing⟩ := h.named (hwaits.named hn)
      refine ⟨hbelow, ?_, hnothing⟩
      rintro t post hpost ⟨index, branch, hbody⟩
      obtain ⟨old, hold, hsame⟩ := hposts hpost
      exact hspent t old.post (congrArg (Option.map Thread.post) hold) ⟨index, branch, hsame.trans hbody⟩
    case asked => exact fun _ body hmem => absurd hmem List.not_mem_nil
    case shared =>
      intro t n thread other hthread hother hown
      obtain ⟨old, hold, _, hsame⟩ := hold hthread
      rw [hsame]
      rw [hstepAt] at hother
      rcases changed_eq_some.mp hother with ⟨rfl, heq⟩ | ⟨_, hother⟩
      · cases heq
        rw [← hown, hcaller, hself] at hold
        cases hold
        exact hvars
      · exact h.shared hold hother hown
    case inherited =>
      rintro t n thread hthread ⟨index, branch, hbody⟩
      obtain ⟨old, hold, hsame, hown⟩ := hold hthread
      obtain ⟨other, hother, hless, hgiven⟩ :=
        h.inherited hold ⟨index, branch, hsame.symm.trans hbody⟩
      refine ⟨other, ?_, hless, hown.trans hgiven⟩
      -- nothing runs for the new step, which was not there before
      rw [hstepAt, changed_of_ne _ _ fun hn : n = step.node => ?_]
      · exact hother
      · rw [hn, hfree] at hother
        cases hother
    case root =>
      intro t thread hthread hroot
      obtain ⟨old, hold, hsame, hown⟩ := hold hthread
      exact hown.trans (h.root hold (hsame.symm.trans hroot))
  · rw [show y.program.stepAt = _ from hstepAt, changed_self]

namespace Contained

/-- A call that is refused leaves the thread free to go on. -/
theorem refuse (h : Contained x (some r) []) (failure : Failure) :
    (x.refuse r failure).Keeps Contained := h

/-- **A step call**, however it goes. -/
theorem startStep (h : Contained x (some r) []) (hsound : Sound x (some r)) (hidle : r.step = none)
    (request : StepRequest) : (x.startStep r request).Keeps Contained := by
  have hquiet : Quiet x (x.mapRecord (·.countCall request.function)) :=
    quiet_mapRecord (f := (·.countCall request.function)) ⟨fun _ => Nat.le_refl _, fun _ => rfl⟩ x
  have hcounted := h.quiet hquiet
  have hsound' := hsound.quiet hquiet
  unfold Execution.startStep
  dsimp only
  generalize x.mapRecord (·.countCall request.function) = y at hcounted hsound' ⊢
  split
  · exact hcounted.refuse _
  · next d hd =>
    rw [stepDef?, hcounted.engine.steps] at hd
    obtain ⟨hname, hmem⟩ := Step.mem_standard hd
    split
    · exact hcounted.refuse _
    · split
      · exact hcounted.refuse _
      · next memory hcreate =>
        split
        · next e z heq => exact (hcounted.quiet ((Quiet.alongWrites.appendNode _ _ _ _).leads heq)).refuse _
        · next node z heq =>
          have hquiet := (Quiet.alongWrites.appendNode _ _ _ _).leads heq
          obtain ⟨hlow, hhigh⟩ := number_of_appendNode heq
          -- the number of the node is new, so no step, thread or timer knows of it
          have hfree : z.program.stepAt node = none := by
            rw [hquiet.program]
            cases hstep : y.program.stepAt node with
            | none => rfl
            | some step => exact absurd (hcounted.below hstep) (Nat.not_lt.mpr hlow)
          have hfresh : ∀ t other, z.program.threadAt (some r) t = some other → ¬ other.RunsFor node := by
            intro t other hother hruns
            rw [hquiet.program] at hother
            exact absurd (hsound'.bodyNumber hother hruns) (Nat.not_lt.mpr hlow)
          have hunnamed : ¬ Named z node := fun hn =>
            absurd (hcounted.named ((SameWaits.of_quiet hquiet).named hn)).below (Nat.not_lt.mpr hlow)
          refine works.launch (hsound'.quiet hquiet) hidle hd hfree hfresh hhigh ?_ ?_
          · intro step view body hfunction hargs hview hasks
            rw [LiveStep.overrides, hfunction, hargs, ← hname]
            exact Step.overrides_standard d hmem hcreate hview hasks
          · intro closure program hthreads hsteps step
            refine (hcounted.quiet hquiet).placed hthreads hsteps hfree hfresh hunnamed hhigh rfl rfl rfl ?_
              ⟨d, hd, rfl⟩
            exact LiveStep.settled_of_create hd hcreate rfl

/-- **A thread ends**, and the step whose body it was is told. -/
theorem endThread (h : Contained x (some r) []) (hsound : Sound x (some r)) (hidle : r.step = none)
    (outcome : Outcome) : Contained (x.endThread r outcome) none [] := by
  have hgone : ∀ {p : LiveProgram} {t thread}, p.threads = x.program.threads →
      p.threadAt none t = some thread → x.program.threadAt (some r) t = some thread := by
    intro p t thread hthreads hthread
    rw [LiveProgram.threadAt_congr hthreads] at hthread
    -- the thread itself was taken out for its turn, so it is not among those that are left
    have hne : t ≠ r.id := by
      rintro rfl
      have hnone := (hsound.out r rfl).1
      rw [show Table.find? r.id x.program.threads = _ from hthread] at hnone
      cases hnone
    exact (LiveProgram.threadAt_of_ne x.program hne).trans hthread
  obtain ⟨completion, hsingle⟩ := hsound.links.single (LiveProgram.threadAt_running _ r)
  unfold Execution.endThread
  rw [hsingle]
  cases completion with
  | root =>
    let ended : Execution := x.mapProgram fun p => { p with rootOutcome := some outcome }
    refine h.remains (y := ended) ⟨rfl, Nat.le_refl _, fun hnew => ⟨_, hgone rfl hnew, rfl, rfl⟩,
      fun hnew => ⟨_, hnew, _, _, rfl⟩, fun hold hno => ?_⟩ fun _ hn => .inl ?_
    · cases hold.symm.trans hno
    · exact (show SameWaits x ended from ⟨rfl, rfl, rfl⟩).named hn
  | body node index branch =>
    let lose (s : LiveStep) : LiveStep := { s with children := Table.erase r.id s.children }
    let lost : Execution := x.mapProgram (·.adjustStep node lose)
    obtain ⟨step, hstep, _⟩ := h.inherited (LiveProgram.threadAt_running _ r) ⟨index, branch, hsingle⟩
    have hlost : Contained lost none [] := by
      refine h.remains (.of_adjust rfl (Nat.le_refl _) (hgone rfl) (fun s => ⟨_, s.branchTips, rfl⟩) rfl)
        fun _ hn => .inl ?_
      exact (show SameWaits x lost from ⟨rfl, rfl, rfl⟩).named hn
    have hledgers : (x.program.adjustStep node lose).ledgers = x.program.ledgers :=
      map_stepAt_adjust (g := LiveStep.ledger) fun _ => rfl
    have hposts : (x.program.adjustStep node lose).posts none =
        changed (x.program.posts (some r)) r.id none := posts_retired hsound
    have hready : Ready lost none [] node index := books.ready_ended h hsingle hstep hledgers hposts
    have hsteady := (Steady.of_idle (hsound.bodyThreadEnded hidle hsingle)).closeBranch? node branch
      (failureOf? outcome)
    obtain ⟨hclosed, hready'⟩ := hlost.closeBranch? hready branch (failureOf? outcome)
    exact works.endBody hclosed hsteady hready' outcome

/-- **Variables go down through the turns** of threads. -/
theorem turnwise :
    Turnwise Contained (fun _ n _ => some n) fun step body => body.overrides = step.overrides where
  toWorks := works
  startStep h := h.startStep
  endThread h := h.endThread

end Contained

end Calls

end Execution

end DurableFlow
