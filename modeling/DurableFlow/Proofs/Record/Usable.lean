/-
A load leaves an execution that can be used.

Where the record can be read and a load may write, it does not matter what has become of the files of the
history. If the nodes that the record names are there, the history is kept: an execution that was left clean
goes on, one that is over is as it was, and any other ends here because it cannot go on. If one of the nodes
cannot be read, the history is replaced by a start and an end with the cause. What is over stays as it is,
however often it is loaded.

The record has to be one that can be stored. A record whose failures are nested deeper than a reader follows is
written, and not read again.
-/
import DurableFlow.Proofs.Record.Completion

set_option autoImplicit false

namespace DurableFlow

open Script Text History FileTree

/-! ## Opening what a record names -/

namespace Archive

variable {a c : Archive} {r : Record}

/-- The nodes that a record points at can be read. -/
def HasNamed (a : Archive) (r : Record) : Prop :=
  ∃ start, r.flowStart = some start ∧
    ∀ n ∈ start :: Table.values r.heads ++ r.startNodes, ∃ node, a.node n = .ok node

theorem read_of_checkNodes {ids : List Nat} (h : a.checkNodes ids = .ok ()) :
    ∀ id ∈ ids, ∃ node, a.node id = .ok node := by
  induction ids with
  | nil => exact List.forall_mem_nil _
  | cons id rest ih =>
    rw [checkNodes] at h
    split at h
    · next node hnode => exact List.forall_mem_cons.mpr ⟨⟨node, hnode⟩, ih h⟩
    · cases h

/-- A history that is opened as its record says has the nodes that the record names. -/
theorem hasNamed_of_openRecorded (h : openRecorded r a = (.ok (), c)) : c.HasNamed r := by
  obtain ⟨_, opened, _, hrest⟩ := Attempt.bind_eq_ok h
  obtain ⟨start, found, hneed, hcheck⟩ := Attempt.bind_eq_ok hrest
  obtain ⟨hchecked, rfl⟩ := Prod.mk.inj hcheck
  unfold Attempt.need at hneed
  cases hstart : r.flowStart with
  | none =>
    rw [hstart] at hneed
    cases hneed
  | some first =>
    rw [hstart] at hneed
    cases hneed
    exact ⟨_, hstart, read_of_checkNodes hchecked⟩

/-- Whether or not the nodes are there that a record names, no more is done to the files than to open them. -/
theorem after_openRecorded (r : Record) (a : Archive) : (openRecorded r).after a = (openHistory r.storage).after a := by
  show (Attempt.andThen (openHistory r.storage) _ a).2 = (openHistory r.storage a).2
  unfold Attempt.andThen
  split
  · next opened heq =>
    rw [heq]
    show (Attempt.andThen (Attempt.need r.flowStart _) _ opened).2 = opened
    unfold Attempt.need
    cases r.flowStart <;> rfl
  · next e opened heq => rw [heq]

/-- A history that is opened, or cannot be, leaves the directory in order. -/
theorem tidy_after_openRecorded (htidy : a.tree.Tidy) (r : Record) :
    ((openRecorded r).after a).tree.Tidy ∧ ((openRecorded r).after a).refuse = a.refuse := by
  rw [after_openRecorded, Attempt.after, openHistory]
  split
  · next history tree hstorage =>
    rcases Storage.openIn_eq_ok hstorage with ⟨_, _, rfl⟩ | ⟨_, rfl, _⟩
    · exact ⟨(htidy.addDirectories fun path hpath => List.mem_singleton.mp hpath).1, rfl⟩
    · exact ⟨htidy, rfl⟩
  · exact ⟨htidy, rfl⟩

/-! ## The shortest history -/

/-- The start of a history that replaces another one. -/
def placeholderStart (now : Timestamp) : Node := { id := 1, parents := [], kind := .flowStart, startedAt := now }

/-- The end of a history that replaces another one, with the cause. -/
def placeholderEnd (cause : Failure) (now : Timestamp) : Node :=
  { id := 2, parents := [1], kind := .flowEnd 1, error := some cause, startedAt := now }

/-- The history holds a start and an end, and nothing else. -/
structure Placeheld (a : Archive) (cause : Failure) (now : Timestamp) : Prop where
  start : a.node 1 = .ok (placeholderStart now)
  last : a.node 2 = .ok (placeholderEnd cause now)
  none : ∀ n, n ≠ 1 → n ≠ 2 → a.node n = .error (.missingNode n)

/-- A failure without details is no deeper than its own members. -/
theorem fits_flat (code message : String) (depth : Nat) :
    (Failure.toJson { code, message }).Fits (depth + 1) := by
  rw [Failure.toJson]
  refine .obj (show ∀ name ∈ ["code", "message"], Json.IsPlain name by decide) ?_
  simp [Json.Fits.str]

theorem storable_placeholderRecord (h : r.Storable) {code message : String} {now : Timestamp} (hnow : now.IsDated) :
    (placeholderRecord r { code, message } now).Storable where
  id := h.id
  scripts := h.scripts
  scriptNames := h.scriptNames
  flowStart n hn := by
    cases hn
    decide
  startNodes := List.forall_mem_nil _
  heads := List.pairwise_singleton _ _
  headNumbers := List.forall_mem_singleton.mpr ⟨by decide, by decide⟩
  nextNodeId := by
    show 3 < Json.wordBound
    decide
  nextHeadId := by
    show 2 < shortWordBound
    decide
  threadsCreated := h.threadsCreated
  calls := h.calls
  callNames := h.callNames
  callNumbers := h.callNumbers
  causes := h.causes
  error failure hfailure := by
    cases hfailure
    exact fits_flat code message 125
  createdAt := h.createdAt
  updatedAt := hnow
  completedAt time htime := by
    cases htime
    exact hnow

theorem replaceHistory_ok (htidy : a.tree.Tidy) (hpermits : a.refuse .freshHistory = none) (nodes : List Node) :
    ∃ c, replaceHistory nodes a = (.ok (), c) ∧ c.tree.Tidy ∧ c.refuse = a.refuse ∧
      c.history = .bulk { nodes.foldl Bulk.store .fresh with dirty := false } := by
  obtain ⟨tree, hflush, htree, _⟩ := Storage.flush_dirty htidy (Bulk.ordered_fresh.stores rfl nodes).2
  refine ⟨{ a with
    journal := a.journal ++ [.freshHistory], tree, isWatched := false
    history := .bulk { nodes.foldl Bulk.store .fresh with dirty := false } }, ?_, htree, rfl, rfl⟩
  rw [replaceHistory_eq, hpermits]
  simp only [hflush]

theorem saveRecord_ok (htidy : a.tree.Tidy) (hpermits : a.refuse .saveRecord = none) (record : Record) :
    ∃ c, saveRecord record a = (.ok (), c) ∧ c.tree.Tidy ∧ c.history = a.history := by
  have hhome : Home recordPath := home_top (by decide) (by decide)
  obtain ⟨tree, hwrite, htree, _⟩ := htidy.writeJson hhome record.toJson
  refine ⟨{ a with journal := a.journal ++ [.saveRecord], tree }, ?_, htree, rfl⟩
  show Attempt.andThen (announce .saveRecord) _ a = _
  simp only [Attempt.andThen, announce, hpermits, onTree, hwrite]

/-- **A history that cannot be read is replaced**, if the directory takes what is written. -/
theorem writePlaceholder_ok (htidy : a.tree.Tidy) (haccepts : ∀ call, a.refuse call = none) (r : Record)
    (cause : Failure) (now : Timestamp) : ∃ c, writePlaceholder r cause now a =
      (.ok (placeholderRecord r cause now), c) ∧ c.tree.Tidy ∧ c.history = .bulk
        { nodes := [(1, { node := placeholderStart now }), (2, { node := placeholderEnd cause now })] } := by
  obtain ⟨replaced, hreplace, htree, hrefuse, hhistory⟩ :=
    replaceHistory_ok htidy (haccepts .freshHistory) [placeholderStart now, placeholderEnd cause now]
  have hpermits : replaced.refuse .saveRecord = none := by
    rw [hrefuse]
    exact haccepts .saveRecord
  obtain ⟨c, hsave, htree', hsame⟩ := saveRecord_ok htree hpermits (placeholderRecord r cause now)
  refine ⟨c, ?_, htree', hsame.trans hhistory⟩
  show Attempt.andThen (replaceHistory [placeholderStart now, placeholderEnd cause now]) _ a = _
  simp only [Attempt.andThen, hreplace]
  show Attempt.andThen (saveRecord (placeholderRecord r cause now)) _ replaced = _
  simp only [Attempt.andThen, hsave]
  rfl

variable {cause : Failure} {now : Timestamp}

/-- **What is there of a history that was replaced.** -/
theorem placeheld_of_history (h : a.history = .bulk
    { nodes := [(1, { node := placeholderStart now }), (2, { node := placeholderEnd cause now })] }) :
    a.Placeheld cause now := by
  have hget : ∀ n, a.history.get a.tree n = .ok ((Table.find? n
      [(1, ({ node := placeholderStart now } : StoredNode)), (2, { node := placeholderEnd cause now })]).map
        StoredNode.node) := by
    intro n
    rw [h]
    rfl
  refine ⟨?_, ?_, fun n hone htwo => ?_⟩
  · rw [Archive.node, Storage.node, hget]
    rfl
  · rw [Archive.node, Storage.node, hget]
    rfl
  · rw [Archive.node, Storage.node, hget, Table.find?_cons, if_neg hone, Table.find?_cons, if_neg htwo]
    rfl

/-- A history that was replaced can be read again. -/
theorem legible_of_history (hcause : cause.toJson.Fits 124) (hnow : now.IsDated) : Storage.Legible (.bulk
    { nodes := [(1, { node := placeholderStart now }), (2, { node := placeholderEnd cause now })] }) := by
  refine Storage.Storable.legible ?_
  show ∀ stored ∈ [({ node := placeholderStart now } : StoredNode), { node := placeholderEnd cause now }],
    stored.Storable 123
  simp only [List.forall_mem_cons]
  refine ⟨⟨⟨?_, ?_, ?_, ?_, hnow⟩, List.forall_mem_nil _⟩, ⟨⟨?_, ?_, ?_, ?_, hnow⟩, List.forall_mem_nil _⟩,
    List.forall_mem_nil _⟩
  all_goals simp [placeholderStart, placeholderEnd, NodeKind.closes, Json.wordBound, hcause]

end Archive

/-! ## What a load leaves -/

namespace Execution

variable {x₀ : Execution} {r : Record} {now : Timestamp}

/-- **An execution that can be used**, loaded at a time from files with a record in them. -/
inductive Usable (r : Record) (clock : Timestamp) : Execution → Prop
  /-- The history is as the record says, and the program is put together next. -/
  | goesOn {x : Execution} (hrecord : x.record = r) (hopen : r.done = false) (hclean : r.clean = true)
    (hloads : x.stage = .loading ∧ x.loading = .requested) (hnamed : x.archive.HasNamed r) : Usable r clock x
  /-- The execution is over, and stays as it is. -/
  | stays {x : Execution} (hrecord : x.record = r) (hdone : r.done = true) (hstage : x.stage = .finished)
    (hnamed : x.archive.HasNamed r) (hlater : ∀ w, Later x w → Frozen x w) : Usable r clock x
  /-- The execution was not left clean, and ends here. -/
  | ends {x₀ : Execution} (hrecord : x₀.record = r) (hopen : r.done = false) (hclean : r.clean = false)
    (hnamed : x₀.archive.HasNamed r) (hdone : (x₀.perform .resume).record.done = true)
    (herror : (x₀.perform .resume).record.error = some (resumeFailure r.durability))
    (hfinishes : Finishes x₀ x₀ .resume (x₀.perform .resume)) : Usable r clock (x₀.perform .resume)
  /-- A node that the record names cannot be read, and the history is a start and an end with the cause. -/
  | replaced {x : Execution} (e : EngineError)
    (hrecord : x.record = Archive.placeholderRecord r (Archive.unreadableHistory e) clock)
    (hstage : x.stage = .finished) (hnodes : x.archive.Placeheld (Archive.unreadableHistory e) clock)
    (hlater : ∀ w, Later x w → Frozen x w) : Usable r clock x

variable {a c : Archive} {clock : Timestamp}

/-- An execution that was not left clean is abandoned, and says why. -/
theorem resumes_unclean (hopen : x₀.record.done = false) (hclean : x₀.record.clean = false) :
    (x₀.perform .resume).record.done = true ∧
      (x₀.perform .resume).record.error = some (resumeFailure x₀.record.durability) := by
  let message := (notResumable x₀.record.durability).message
  let halted : Execution :=
    { ({ x₀ with stage := .loading } : Execution).log message with halted := true, loadCancelled := true }
  have hresume : x₀.perform .resume = halted.finish (.error (resumeFailure x₀.record.durability)) := by
    show x₀.resumeFrom = _
    unfold resumeFrom
    simp only [hopen, hclean]
    rfl
  have hhalted : halted.record.done = false := hopen
  rw [hresume]
  exact ⟨(ended_finish hhalted _).1, (ended_finish hhalted _).2.1⟩

/-- **A history that is as its record says** is gone on with, or kept. -/
theorem usable_of_opened (hread : a.loadRecord = .ok r) (hhistory : Archive.openRecorded r a = (.ok (), c))
    (htidy : c.tree.Tidy) (engine : Engine) (name : String) (now : Nat) :
    Usable r clock (resumeFrom { engine, name, archive := c, record := r, paused := r.paused, now, clock }) := by
  have hnamed := Archive.hasNamed_of_openRecorded hhistory
  have hrecover : Archive.recoverHistory r clock a = (.ok r, c) := recoverHistory_of_opened hhistory
  let read : Execution := { engine, name, archive := c, record := r, paused := r.paused, now, clock }
  have hbegins : Begins read := .opened hread hrecover
  have hallowed : read.Allows .resume := ⟨rfl, (Archive.openRecorded_eq_ok hhistory).1⟩
  -- done, it is left as it is; clean, its program is loaded; otherwise it ends here
  cases hdone : r.done with
  | true =>
    have hresume : resumeFrom read = { read with stage := .finished } := by
      unfold resumeFrom
      rw [if_pos hdone]
    have hover : Over (resumeFrom read) := (hbegins.proper.perform hallowed).settled (by
      show (resumeFrom read).record.done = true
      rw [hresume]
      exact hdone)
    have hreloads : (resumeFrom read).archive.Reloads (resumeFrom read).record := by
      rw [hresume]
      exact Archive.reloads_of_openRecorded hread hhistory htidy
    refine .stays ?_ hdone ?_ ?_ fun w hw => (hw.frozen hover hreloads).1
    all_goals rw [show resumeFrom _ = _ from hresume]
    exact hnamed
  | false =>
    cases hclean : r.clean with
    | true =>
      have hresume : resumeFrom read = { read with stage := .loading, loading := .requested } := by
        unfold resumeFrom
        rw [if_neg (by simp [read, hdone]), if_pos hclean]
      rw [show resumeFrom _ = _ from hresume]
      exact .goesOn rfl hdone hclean ⟨rfl, rfl⟩ hnamed
    | false =>
      obtain ⟨hended, herror⟩ := @resumes_unclean read hdone hclean
      exact .ends rfl hdone hclean hnamed hended herror (Runs.here.finishes hbegins hdone hended hallowed)

/-- **A history that is not as its record says** is replaced, and the execution is over. -/
theorem usable_of_replaced {e : EngineError} (hread : a.loadRecord = .ok r) (hstorable : r.Storable)
    (hclock : clock.IsDated) (htidy : c.tree.Tidy)
    (hrecover : Archive.recoverHistory r clock a =
      (.ok (Archive.placeholderRecord r (Archive.unreadableHistory e) clock), c))
    (hhistory : c.history = .bulk { nodes := [(1, { node := Archive.placeholderStart clock }),
      (2, { node := Archive.placeholderEnd (Archive.unreadableHistory e) clock })] })
    (engine : Engine) (name : String) (now : Nat) :
    Usable r clock (resumeFrom { engine, name, archive := c, clock, now, paused := r.paused
                                 record := Archive.placeholderRecord r (Archive.unreadableHistory e) clock }) := by
  let read : Execution := { engine, name, archive := c, clock, now, paused := r.paused
                            record := Archive.placeholderRecord r (Archive.unreadableHistory e) clock }
  have hbegins : Begins read := .opened hread hrecover
  have hallowed : read.Allows .resume := ⟨rfl, rfl⟩
  have hover : Over (resumeFrom read) := (hbegins.proper.perform hallowed).settled rfl
  have hlegible : Legible read := by
    refine ⟨(Archive.storable_placeholderRecord hstorable hclock).readsBack, ?_⟩
    show c.history.Legible
    rw [hhistory]
    exact Archive.legible_of_history (Archive.fits_flat _ _ 123) hclock
  have hreloads := hbegins.reloads rfl htidy hlegible
  exact .replaced e rfl rfl (Archive.placeheld_of_history hhistory) fun w hw => (hw.frozen hover hreloads).1

/-- **A load leaves an execution that can be used**, whatever has become of the files of its history. -/
theorem load_is_usable (hread : a.loadRecord = .ok r) (hstorable : r.Storable) (htidy : a.tree.Tidy)
    (haccepts : ∀ call, a.refuse call = none) (hclock : clock.IsDated) (engine : Engine) (name : String) (now : Nat) :
    ∃ x c, load engine name a clock now = (.ok x, c) ∧ Usable r clock x := by
  obtain ⟨hopened, hrefuse⟩ := Archive.tidy_after_openRecorded htidy r
  obtain ⟨result, b, hhistory⟩ : ∃ result b, Archive.openRecorded r a = (result, b) := ⟨_, _, rfl⟩
  rw [Attempt.after, hhistory] at hopened hrefuse
  cases result with
  | ok _ =>
    refine ⟨_, b, ?_, usable_of_opened hread hhistory hopened engine name now⟩
    unfold load
    simp only [hread, recoverHistory_of_opened hhistory]
  | error e =>
    obtain ⟨c, hwrite, htidy, hreplaced⟩ := Archive.writePlaceholder_ok hopened
      (fun call => (congrFun hrefuse call).trans (haccepts call)) r (Archive.unreadableHistory e) clock
    have hrecover : Archive.recoverHistory r clock a =
        (.ok (Archive.placeholderRecord r (Archive.unreadableHistory e) clock), c) :=
      (recoverHistory_of_unreadable hhistory).trans hwrite
    refine ⟨_, c, ?_, usable_of_replaced hread hstorable hclock htidy hrecover hreplaced engine name now⟩
    unfold load
    simp only [hread, hrecover]
    rfl

/-- A record that was saved at the start: clean, and with the first node for its only head. -/
def savedFirst : Record where
  id := "00000000000000000000000000000001"
  scriptName := "Script1"
  script := "wait_for_signal(\"a\")"
  scriptHash := ""
  flowStart := some 1
  heads := [(1, 1)]
  nextNodeId := 2
  nextHeadId := 2
  threadsCreated := 1
  clean := true
  createdAt := ⟨0⟩
  updatedAt := ⟨0⟩

/-- An archive with the file of that record, and without the file of the node. -/
def withoutNodes : Archive where
  tree := { entries := [(Archive.recordPath, .file 0 (savedFirst.toJson.render .indented))], nextFile := 1 }

/-- The file of the node is lost, and what is there can be loaded all the same. -/
theorem load_is_usable_without_nodes :
    ∃ x c, load { steps := Step.standard } "flow" withoutNodes ⟨0⟩ 0 = (.ok x, c) ∧ Usable savedFirst ⟨0⟩ x := by
  have hstorable : savedFirst.Storable := SavedAtStart.storable (by decide)
  have hread : withoutNodes.loadRecord = .ok savedFirst :=
    Archive.ReadsRecord.loads ⟨0, _, rfl, hstorable.readsBack⟩
  have htidy : withoutNodes.tree.Tidy := by
    refine ⟨fun _ => rfl, List.pairwise_singleton _ _, fun path hpath => ?_, rfl⟩
    cases List.mem_singleton.mp (Table.mem_of_find? hpath)
  exact load_is_usable hread hstorable htidy (fun _ => rfl) (by decide) _ _ _

end Execution

end DurableFlow
