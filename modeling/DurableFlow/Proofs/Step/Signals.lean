/-
Who is served by a signal.

A waiter is a step of an execution: two steps of different executions may have the same node. Whoever
keeps a line for each name lets a waiter in that is not in the line yet, serves the first one and lets
go of the one that is stopped. The board compares nodes only. So its queues are the lines as long as no
two waiters for one name have the same node, as is the case for the waiters of one execution. Waiters
of two executions that share a board may be taken for each other.
-/
import DurableFlow.Execution.Steps
import DurableFlow.Proofs.Data.Table
import Mathlib.Data.List.Induction

set_option autoImplicit false

namespace DurableFlow

open Script

/-- What is done to a board: a step begins to wait, is stopped, or a signal comes for a name. -/
inductive BoardCall where
  | register (name : String) (waiter : Waiter)
  | remove (name : String) (waiter : Waiter)
  | take (name : String)

namespace BoardCall

/-- The name that a call is about. -/
def name : BoardCall → String
  | .register name _ => name
  | .remove name _ => name
  | .take name => name

/-- The waiter that a call is about. -/
def waiter? : BoardCall → Option Waiter
  | .register _ waiter => some waiter
  | .remove _ waiter => some waiter
  | .take _ => none

/-- **The line for one name**, those that came first in front. -/
def inLine (line : List Waiter) : BoardCall → List Waiter
  | .register _ waiter => if waiter ∈ line then line else line ++ [waiter]
  | .remove _ waiter => line.filter (· ≠ waiter)
  | .take _ => line.tail

/-- The line for a name after several calls. -/
def line (name : String) (calls : List BoardCall) : List Waiter :=
  (calls.filter (·.name == name)).foldl inLine []

theorem line_concat (name : String) (calls : List BoardCall) (call : BoardCall) :
    line name (calls ++ [call]) =
      if call.name = name then inLine (line name calls) call else line name calls := by
  unfold line
  rw [List.filter_append, List.foldl_append]
  by_cases hname : call.name = name
  · rw [if_pos hname, List.filter_cons_of_pos (by simpa using hname)]
    rfl
  · rw [if_neg hname, List.filter_cons_of_neg (by simpa using hname)]
    rfl

/-- Nobody is in a line twice. -/
theorem nodup_line (name : String) (calls : List BoardCall) : (line name calls).Nodup := by
  induction calls using List.reverseRecOn with
  | nil => exact List.nodup_nil
  | append_singleton calls call ih =>
    rw [line_concat]
    split
    · cases call with
      | register name waiter =>
        rw [inLine]
        split
        · exact ih
        · next hnew =>
          refine List.nodup_append.mpr ⟨ih, by simp, fun a ha b hb heq => hnew ?_⟩
          rwa [← List.mem_singleton.mp hb, ← heq]
      | remove name waiter => exact ih.filter _
      | take name => exact ih.sublist (List.tail_sublist _)
    · exact ih

/-- Whoever is in a line has come to wait for the name. -/
theorem mem_line {name : String} {calls : List BoardCall} {waiter : Waiter} (h : waiter ∈ line name calls) :
    .register name waiter ∈ calls := by
  induction calls using List.reverseRecOn with
  | nil => cases h
  | append_singleton calls call ih =>
    rw [line_concat] at h
    rw [List.mem_append]
    split at h
    · next hname =>
      subst hname
      cases call with
      | register other came =>
        rw [inLine] at h
        split at h
        · exact .inl (ih h)
        · rcases List.mem_append.mp h with hold | hnew
          · exact .inl (ih hold)
          · exact .inr (List.mem_singleton.mpr (by rw [List.mem_singleton.mp hnew]; rfl))
      | remove other gone => exact .inl (ih (List.mem_of_mem_filter h))
      | take other => exact .inl (ih (List.mem_of_mem_tail h))
    · exact .inl (ih h)

end BoardCall

namespace SignalBoard

variable {board : SignalBoard} {name other : String}

/-- A call of a board. A waiter that stops is named by its node. -/
def call (board : SignalBoard) : BoardCall → SignalBoard
  | .register name waiter => board.register name waiter
  | .remove name waiter => board.remove name waiter.node
  | .take name => (board.take name).2

/-- The queues are in the order of their names. -/
def Sorted (board : SignalBoard) : Prop := Table.Sorted board.queues

theorem Sorted.setQueue (h : board.Sorted) (name : String) (waiters : List Waiter) :
    (board.setQueue name waiters).Sorted := by
  unfold SignalBoard.setQueue
  dsimp only [Sorted]
  split
  · exact Table.Sorted.erase h _
  · exact Table.Sorted.insert h _ _

/-- One queue is replaced. -/
theorem queue_setQueue (h : board.Sorted) (name other : String) (waiters : List Waiter) :
    (board.setQueue name waiters).queue other = if other = name then waiters else board.queue other := by
  unfold SignalBoard.setQueue queue
  dsimp only
  by_cases hempty : waiters.isEmpty = true
  · rw [if_pos hempty, Table.find?_erase h]
    split
    · rw [List.isEmpty_iff.mp hempty]
      rfl
    · rfl
  · rw [if_neg hempty, Table.find?_insert]
    split
    · rfl
    · rfl

theorem Sorted.call (h : board.Sorted) (call : BoardCall) : (board.call call).Sorted := by
  cases call with
  | register name waiter =>
    unfold SignalBoard.call register
    dsimp only
    split
    · exact h
    · exact h.setQueue _ _
  | remove name waiter => exact h.setQueue _ _
  | take name =>
    unfold SignalBoard.call take
    dsimp only
    split
    · exact h
    · exact h.setQueue _ _

/-- A call of one name leaves the queues of others. -/
theorem queue_call_of_ne (h : board.Sorted) {call : BoardCall} (hname : call.name ≠ name) :
    (board.call call).queue name = board.queue name := by
  have hother : ∀ waiters, (board.setQueue call.name waiters).queue name = board.queue name := by
    intro waiters
    rw [queue_setQueue h, if_neg (Ne.symm hname)]
  cases call with
  | register other waiter =>
    unfold SignalBoard.call register
    dsimp only
    split
    · rfl
    · exact hother _
  | remove other waiter => exact hother _
  | take other =>
    unfold SignalBoard.call take
    dsimp only
    split
    · rfl
    · exact hother _

/-- **A call does to a queue what is to be done to the line**, if no other waiter in it has the node of
the waiter that the call is about. -/
theorem queue_call (h : board.Sorted) (call : BoardCall)
    (happart : ∀ waiter, call.waiter? = some waiter → ∀ other ∈ board.queue call.name,
      other.node = waiter.node → other = waiter) :
    (board.call call).queue call.name = BoardCall.inLine (board.queue call.name) call := by
  cases call with
  | register name waiter =>
    -- The board knows a waiter by its node; no other waiter in this line has the node.
    have hsame : (board.queue name).any (·.node == waiter.node) = true ↔ waiter ∈ board.queue name := by
      rw [List.any_eq_true]
      constructor
      · rintro ⟨other, hmem, hnode⟩
        rwa [← happart waiter rfl other hmem (by simpa using hnode)]
      · exact fun hmem => ⟨waiter, hmem, by simp⟩
    show (board.register name waiter).queue name = BoardCall.inLine (board.queue name) (.register name waiter)
    unfold register BoardCall.inLine
    dsimp only
    by_cases hin : waiter ∈ board.queue name
    · rw [if_pos (hsame.mpr hin), if_pos hin]
    · rw [if_neg (fun hany => hin (hsame.mp hany)), if_neg hin, queue_setQueue h, if_pos rfl]
  | remove name waiter =>
    show (board.remove name waiter.node).queue name = (board.queue name).filter (· ≠ waiter)
    unfold remove
    rw [queue_setQueue h, if_pos rfl]
    refine List.filter_congr fun other hmem => ?_
    by_cases hnode : other.node = waiter.node
    · rw [happart waiter rfl other hmem hnode]
      simp
    · simp only [bne_iff_ne.mpr hnode, true_eq_decide_iff]
      rintro rfl
      exact hnode rfl
  | take name =>
    show (board.take name).2.queue name = (board.queue name).tail
    unfold take
    split
    · next hqueue => rw [hqueue]; rfl
    · next first rest hqueue => rw [queue_setQueue h, if_pos rfl, hqueue]; rfl

/-- A signal is taken by the waiter that came first, if there is one. -/
theorem fst_take (board : SignalBoard) (name : String) : (board.take name).1 = (board.queue name).head? := by
  unfold take
  split
  · next hqueue => rw [hqueue]; rfl
  · next hqueue => rw [hqueue]; rfl

/-- No two waiters for one name have the same node. -/
def Apart (calls : List BoardCall) : Prop :=
  ∀ call ∈ calls, ∀ call' ∈ calls, call.name = call'.name → ∀ waiter waiter', call.waiter? = some waiter →
    call'.waiter? = some waiter' → waiter.node = waiter'.node → waiter = waiter'

/-- The steps of one execution are told apart by their nodes. -/
theorem apart_of_execution {calls : List BoardCall} (execution : String)
    (h : ∀ call ∈ calls, ∀ waiter, call.waiter? = some waiter → waiter.execution = execution) :
    Apart calls := by
  intro call hcall call' hcall' _ waiter waiter' hwaiter hwaiter' hnode
  obtain ⟨e, n⟩ := waiter
  obtain ⟨e', n'⟩ := waiter'
  obtain rfl : n = n' := hnode
  rw [show e = execution from h call hcall _ hwaiter, show e' = execution from h call' hcall' _ hwaiter']

/-- **The queue of a name is the line for it**: whoever has come to wait and was neither served nor
stopped, in the order of coming and nobody twice. -/
theorem queue_eq_line {calls : List BoardCall} (h : Apart calls) (name : String) :
    (calls.foldl call {}).Sorted ∧ (calls.foldl call {}).queue name = BoardCall.line name calls := by
  -- Induction from the last call: the line is the line before it, changed by that call alone.
  induction calls using List.reverseRecOn with
  | nil => exact ⟨.nil, rfl⟩
  | append_singleton calls call ih =>
    have hbefore : Apart calls := fun a ha b hb =>
      h a (List.mem_append_left _ ha) b (List.mem_append_left _ hb)
    obtain ⟨hsorted, hqueue⟩ := ih hbefore
    rw [List.foldl_append, List.foldl_cons, List.foldl_nil, BoardCall.line_concat]
    refine ⟨hsorted.call call, ?_⟩
    split
    · next hname =>
      subst hname
      rw [← hqueue]
      refine queue_call hsorted call fun waiter hwaiter other hmem hnode => ?_
      rw [hqueue] at hmem
      have hcame := List.mem_append_left [call] (BoardCall.mem_line hmem)
      exact h _ hcame call (List.mem_append_right _ (List.mem_singleton.mpr rfl)) rfl other waiter rfl hwaiter hnode
    · next hname => rw [queue_call_of_ne hsorted hname, hqueue]

/-- A step of another execution with the same node does not come to the board. -/
example : (([.register "s" ⟨"a", 2⟩, .register "s" ⟨"b", 2⟩].foldl call {} : SignalBoard)).queue "s" =
    [⟨"a", 2⟩] := by decide

/-- Stopping a step takes the steps of other executions with it. -/
example : (([.register "s" ⟨"a", 2⟩, .remove "s" ⟨"b", 2⟩].foldl call {} : SignalBoard)).queue "s" = [] := by
  decide

end SignalBoard

namespace Execution

/-- **A signal reaches the waiter that came first**, and it says whether there was one. -/
theorem signal_eq (x : Execution) (name : String) (outcome : Outcome) :
    x.signal name outcome =
      match x.board.queue name with
      | [] => (false, x)
      | waiter :: rest => (true, { x with board := x.board.setQueue name rest }.deliver waiter.node outcome) := by
  unfold signal SignalBoard.take
  cases x.board.queue name with
  | nil => rfl
  | cons waiter rest => rfl

/-- The marker of an outcome that was taken completes no step. A signal that carries it takes a step
from the board and leaves it as it was. -/
theorem step?_deliver_marker (x : Execution) (node : Nat) {outcome : Outcome}
    (h : StepCell.isMarker outcome = true) (n : Nat) : (x.deliver node outcome).step? n = x.step? n := by
  unfold deliver
  cases hstep : x.step? node with
  | none => rfl
  | some step =>
    have hcell : step.cell.deliver outcome = (step.cell, false) := by
      unfold StepCell.deliver
      rw [if_pos h]
    -- The step is put back with the cell it had, so no node finds another step.
    have hsame : ∀ {steps : Table Nat LiveStep}, Table.find? node steps = some step →
        Table.find? n (Table.adjust node (fun s => { s with cell := step.cell }) steps) = Table.find? n steps := by
      intro steps hfound
      rw [Table.find?_adjust]
      split
      · next hn =>
        rw [hn, hfound]
        rfl
      · rfl
    dsimp only
    rw [hcell]
    show (x.adjustStep node fun s => { s with cell := step.cell }).step? n = x.step? n
    unfold step? at hstep
    unfold adjustStep
    -- `adjustStep` looks among the live steps first and among the retired ones after them.
    cases hlive : Table.find? node x.program.steps with
    | some live =>
      rw [hlive] at hstep
      cases hstep
      have hcontains : Table.contains node x.program.steps = true := by
        rw [Table.contains, hlive]
        rfl
      have hkept : Table.find? n
          (x.mapProgram (·.adjustStep node fun s => { s with cell := step.cell })).program.steps =
            Table.find? n x.program.steps := hsame hlive
      rw [if_pos hcontains]
      unfold step?
      rw [hkept]
      rfl
    | none =>
      rw [hlive] at hstep
      have hcontains : ¬ Table.contains node x.program.steps = true := by
        rw [Table.contains, hlive]
        exact Bool.false_ne_true
      rw [if_neg hcontains]
      unfold step?
      dsimp only
      rw [hsame hstep]

end Execution

end DurableFlow
