/-
The files of the record and of the program, as a checkpoint leaves them.

The record and the program have a file each at the top of the directory, and no other file is written
when one of them is. A save that succeeds leaves in its file what was saved, and one that does not
leaves the file as it was. So a checkpoint that succeeds leaves a clean record and the program of this
moment in the files, and where nothing stands in the way a checkpoint does succeed.
-/
import DurableFlow.Proofs.Record.Courses
import DurableFlow.Proofs.Record.Files

set_option autoImplicit false

namespace DurableFlow

open Script Text History FileTree

/-! ## The two files -/

namespace Archive

variable {a a' : Archive}

/-- The file of the record holds a record. -/
def HoldsRecord (a : Archive) (record : Record) : Prop :=
  ∃ n, Table.find? recordPath a.tree.entries = some (.file n (record.toJson.render .indented))

/-- The file of the program holds a saved program. -/
def HoldsProgram (a : Archive) (program : SavedProgram) : Prop :=
  ∃ n, Table.find? programPath a.tree.entries = some (.file n (program.toJson.render .indented))

/-- A file at the top of the directory is not among those of the nodes. -/
theorem apart_nodePath_top (id : Nat) (name : String) (h : [name] ≠ nodeDirectory) :
    (nodePath id).Apart [name] where
  ne heq := by cases heq
  neighbour heq := by cases heq
  above hmem := h (List.mem_singleton.mp hmem)

theorem aloof_recordPath : recordPath.Aloof where
  node id := apart_nodePath_top id _ (by decide)
  bulk := ⟨by decide, by decide, by decide⟩
  log := by decide

theorem aloof_programPath : programPath.Aloof where
  node id := apart_nodePath_top id _ (by decide)
  bulk := ⟨by decide, by decide, by decide⟩
  log := by decide

theorem apart_record_program : recordPath.Apart programPath := ⟨by decide, by decide, by decide⟩

theorem apart_program_record : programPath.Apart recordPath := ⟨by decide, by decide, by decide⟩

theorem HoldsRecord.of_sameAt {record : Record} (h : a.HoldsRecord record)
    (hsame : SameAt a.tree a'.tree recordPath) : a'.HoldsRecord record := by
  obtain ⟨n, hfile⟩ := h
  exact ⟨n, Eq.trans hsame hfile⟩

theorem HoldsProgram.of_sameAt {program : SavedProgram} (h : a.HoldsProgram program)
    (hsame : SameAt a.tree a'.tree programPath) : a'.HoldsProgram program := by
  obtain ⟨n, hfile⟩ := h
  exact ⟨n, Eq.trans hsame hfile⟩

/-- **The record is saved, or its file stays as it was.** -/
theorem saveRecord_cases (record : Record) (a : Archive) :
    ((saveRecord record a).1 = .ok () ∧ (saveRecord record a).2.HoldsRecord record) ∨
      (∃ e, (saveRecord record a).1 = .error e) ∧
        SameAt a.tree (saveRecord record a).2.tree recordPath := by
  unfold saveRecord
  rcases announce_cases .saveRecord (onTree (·.writeJson recordPath record.toJson)) a with ⟨e, heq⟩ | heq
  · rw [heq]
    exact .inr ⟨⟨e, rfl⟩, rfl⟩
  · rw [heq]
    exact writeJson_cases (by decide) (by decide) record.toJson

/-- Saving the record leaves other files alone. -/
theorem sameAt_saveRecord {path : Path} (h : recordPath.Apart path) (record : Record) (a : Archive) :
    SameAt a.tree (saveRecord record a).2.tree path :=
  sameAt_onTree _ a (sameAt_writeJson h record.toJson)

/-- Saving the program leaves other files alone. -/
theorem sameAt_saveProgram {path : Path} (h : programPath.Apart path) (program : SavedProgram) (a : Archive) :
    SameAt a.tree (saveProgram program a).2.tree path :=
  sameAt_onTree _ a (sameAt_writeJson h program.toJson)

/-- A program that was saved is in its file. -/
theorem holdsProgram_of_ok {program : SavedProgram} (h : (saveProgram program a).1 = .ok ()) :
    (saveProgram program a).2.HoldsProgram program := by
  unfold saveProgram at h ⊢
  rcases announce_cases .saveProgram (onTree (·.writeJson programPath program.toJson)) a with ⟨e, heq⟩ | heq
  · rw [heq] at h
    cases h
  · rw [heq] at h ⊢
    rcases @writeJson_cases a.tree programPath (by decide) (by decide) program.toJson with
      ⟨_, hfile⟩ | ⟨⟨e, herror⟩, _⟩
    · exact hfile
    · exact absurd (h.symm.trans herror) (by simp)

end Archive

namespace Execution

variable {x y : Execution}

/-! ## What a checkpoint leaves -/

theorem succeeds_iff {act : Act Unit} : (succeeds act x).1 = true ↔ (act x).1 = .ok () := by
  unfold succeeds
  split
  · next heq => simp [heq]
  · next heq => simp [heq]

theorem succeeds_of_ok {act : Act Unit} (h : (act x).1 = .ok ()) : succeeds act x = (true, (act x).2) := by
  unfold succeeds
  split
  · next heq => rw [heq]
  · next heq =>
    rw [heq] at h
    cases h

theorem of_succeeds {act : Act Unit} (h : (succeeds act x).1 = true) : act x = (.ok (), (succeeds act x).2) := by
  rw [succeeds_state]
  exact Prod.ext (succeeds_iff.mp h) rfl

/-- **A checkpoint that succeeds** has succeeded in all its parts, and has marked the record as clean before
it was saved. -/
theorem saveCheckpoint_eq_ok (h : x.saveCheckpoint.1 = true) : ∃ a b c,
    onArchive Archive.flush x = (.ok (), a) ∧ saveProgram a = (.ok (), b) ∧ onArchive Archive.flush b = (.ok (), c) ∧
      saveRecord (c.mapRecord fun r => { r with clean := true }) = (.ok (), x.saveCheckpoint.2) := by
  let flushed := succeeds (onArchive Archive.flush) x
  let saved := succeeds saveProgram flushed.2
  let again := succeeds (onArchive Archive.flush) saved.2
  let clean := flushed.1 && saved.1 && again.1
  let marked := again.2.mapRecord fun r => { r with clean }
  have hcheckpoint : x.saveCheckpoint = (clean && (succeeds saveRecord marked).1, (succeeds saveRecord marked).2) := rfl
  rw [hcheckpoint] at h ⊢
  obtain ⟨hclean, hrecorded⟩ := Bool.and_eq_true_iff.mp h
  obtain ⟨hbefore, hagain⟩ := Bool.and_eq_true_iff.mp hclean
  obtain ⟨hflushed, hsaved⟩ := Bool.and_eq_true_iff.mp hbefore
  have hmarked : again.2.mapRecord (fun r => { r with clean := true }) = marked := by
    simp only [marked, hclean]
  refine ⟨flushed.2, saved.2, again.2, of_succeeds hflushed, of_succeeds hsaved, of_succeeds hagain, ?_⟩
  rw [hmarked]
  exact of_succeeds hrecorded

/-- What a call on the archive leads to. -/
theorem of_onArchive {act : Attempt Archive Unit} (h : onArchive act x = (.ok (), y)) :
    act x.archive = (.ok (), y.archive) ∧ y = { x with archive := y.archive } := by
  have hon : onArchive act x = ((act x.archive).1, { x with archive := (act x.archive).2 }) := rfl
  rw [hon] at h
  obtain ⟨hok, rfl⟩ := Prod.mk.inj h
  exact ⟨Prod.ext hok rfl, rfl⟩

/-- What saving the record leads to: the record has the time of now, and it is in its file. -/
theorem of_saveRecord (h : saveRecord x = (.ok (), y)) :
    Archive.saveRecord y.record x.archive = (.ok (), y.archive) ∧
      y = { x with archive := y.archive, record := x.record.touch x.clock } := by
  let touched := x.editRecord id
  obtain ⟨hsave, heq⟩ := of_onArchive
    (show onArchive (Archive.saveRecord touched.record) touched = (.ok (), y) from h)
  refine ⟨?_, heq⟩
  rw [heq]
  exact hsave

/-- A record that is saved is in its file. -/
theorem holdsRecord_of_save (h : saveRecord x = (.ok (), y)) : y.archive.HoldsRecord y.record := by
  obtain ⟨hsave, _⟩ := of_saveRecord h
  have hcases := Archive.saveRecord_cases y.record x.archive
  rw [hsave] at hcases
  rcases hcases with ⟨_, hholds⟩ | ⟨⟨e, herror⟩, _⟩
  · exact hholds
  · cases herror

/-- **A checkpoint that succeeds** leaves a clean record and the program of this moment in the files. -/
theorem saveCheckpoint_holds (h : x.saveCheckpoint.1 = true) :
    x.saveCheckpoint.2.record.clean = true ∧
      x.saveCheckpoint.2.archive.HoldsRecord x.saveCheckpoint.2.record ∧
      x.saveCheckpoint.2.archive.HoldsProgram (x.program.save x.engine.steps) := by
  obtain ⟨a, b, c, hflush, hprogram, hagain, hrecord⟩ := saveCheckpoint_eq_ok h
  have hholds := holdsRecord_of_save hrecord
  obtain ⟨hsave, hmarked⟩ := of_saveRecord hrecord
  generalize x.saveCheckpoint.2 = z at hholds hsave hmarked ⊢
  refine ⟨by rw [hmarked]; rfl, hholds, ?_⟩
  -- the first flush has left the program alone, and the file of the program is not touched after it is written
  obtain ⟨_, hflushed⟩ := of_onArchive hflush
  obtain ⟨hwritten, _⟩ := of_onArchive (show onArchive (Archive.saveProgram _) a = (.ok (), b) from hprogram)
  obtain ⟨hagain, _⟩ := of_onArchive hagain
  have hfile := Archive.holdsProgram_of_ok (congrArg Prod.fst hwritten)
  have hagainSame := (Archive.Call.flush (a := b.archive)).sameAt Archive.aloof_programPath
  have hsaveSame := Archive.sameAt_saveRecord Archive.apart_record_program z.record c.archive
  rw [hwritten, hflushed] at hfile
  rw [Attempt.after, hagain] at hagainSame
  rw [show (c.mapRecord fun r => { r with clean := true }).archive = c.archive from rfl] at hsave
  rw [hsave] at hsaveSame
  exact (hfile.of_sameAt hagainSame).of_sameAt hsaveSame

/-- Where nothing stands in the way, a checkpoint succeeds. -/
theorem saveCheckpoint_ok (h : x.archive.Sane) : x.saveCheckpoint.1 = true := by
  have hok : ∀ {y : Execution} {act : Attempt Archive Unit}, (∃ a', act y.archive = (.ok (), a') ∧
      Archive.Kept y.archive a') → (onArchive act y).1 = .ok () ∧ (onArchive act y).2.archive.Sane := by
    rintro y act ⟨a', hact, hkept⟩
    unfold onArchive Attempt.onPart
    rw [hact]
    exact ⟨rfl, hkept.sane⟩
  obtain ⟨hflushed, hsane₁⟩ := hok h.flush
  obtain ⟨hsaved, hsane₂⟩ : (saveProgram (onArchive Archive.flush x).2).1 = .ok () ∧
      (saveProgram (onArchive Archive.flush x).2).2.archive.Sane :=
    hok (hsane₁.saveProgram (x.program.save x.engine.steps))
  obtain ⟨hagain, hsane₃⟩ := hok hsane₂.flush
  have hrecorded : ∀ {y : Execution}, y.archive.Sane → (saveRecord y).1 = .ok () :=
    fun {y} hy => (hok (y := y.editRecord id) (hy.saveRecord _)).1
  unfold saveCheckpoint
  rw [succeeds_of_ok hflushed]
  dsimp only
  rw [succeeds_of_ok hsaved]
  dsimp only
  rw [succeeds_of_ok hagain]
  -- what the record says of itself is nothing that the archive looks at
  exact succeeds_iff.mpr (hrecorded hsane₃)

end Execution

end DurableFlow
