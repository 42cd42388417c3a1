/-
What a storage is for: a store of nodes and their actions.

To whoever asks, a storage is a table from the number of a node to the node that was stored last and
the actions that were saved last. Which of it has reached the files is another matter, and the two
layouts differ in that alone: one file per node is written by every request that does not let the node
wait, one file for all is written when it is flushed. A shelf keeps the two apart: what is answered,
and what the files would give back.
-/
import DurableFlow.History.Storage
import DurableFlow.Proofs.Data.Table

set_option autoImplicit false

namespace DurableFlow.History

/-! ## What is asked and answered -/

/-- What is asked of a storage. -/
inductive Request where
  | store (node : Node) (defer : Bool)
  | saveActions (id : Nat) (actions : List Action)
  | autopersist (id : Nat)
  | flush
  | get (id : Nat)
  /-- The node is asked for as one that has to be there. -/
  | node (id : Nat)
  | actions (id : Nat)
  | nodes

/-- What a storage answers. -/
inductive Answer where
  | done (result : EngineResult Unit)
  | found (result : EngineResult (Option Node))
  | node (result : EngineResult Node)
  | actions (result : EngineResult (List Action))
  | nodes (result : EngineResult (List Node))

/-- The last stored node and the last saved actions of each number, in the order of the numbers. -/
abbrev Contents := Table Nat StoredNode

namespace Contents

/-- **The abstract store.** -/
def ask (contents : Contents) : Request → Answer × Contents
  | .store node _ =>
    let actions := ((Table.find? node.id contents).map StoredNode.actions).getD []
    (.done (.ok ()), Table.insert node.id { node, actions } contents)
  | .saveActions id actions =>
    match Table.find? id contents with
    | none => (.done (.error (.missingNode id)), contents)
    | some stored => (.done (.ok ()), Table.insert id { stored with actions } contents)
  | .autopersist _ => (.done (.ok ()), contents)
  | .flush => (.done (.ok ()), contents)
  | .get id => (.found (.ok ((Table.find? id contents).map StoredNode.node)), contents)
  | .node id =>
    match Table.find? id contents with
    | none => (.node (.error (.missingNode id)), contents)
    | some stored => (.node (.ok stored.node), contents)
  | .actions id =>
    (.actions (.ok (((Table.find? id contents).map StoredNode.actions).getD [])), contents)
  | .nodes => (.nodes (.ok ((Table.values contents).map StoredNode.node)), contents)

/-- The answers to several requests, and what is there after them. -/
def run (contents : Contents) : List Request → List Answer × Contents
  | [] => ([], contents)
  | request :: rest =>
    let (answer, contents) := contents.ask request
    let (answers, contents) := contents.run rest
    (answer :: answers, contents)

theorem sorted_ask {contents : Contents} (h : Table.Sorted contents) (request : Request) :
    Table.Sorted (contents.ask request).2 := by
  unfold ask
  split
  · exact h.insert _ _
  · split
    · exact h
    · exact h.insert _ _
  · exact h
  · exact h
  · exact h
  · split
    · exact h
    · exact h
  · exact h
  · exact h

/-- Asking for a node that has to be there changes nothing. -/
theorem ask_node (contents : Contents) (id : Nat) : (contents.ask (.node id)).2 = contents := by
  unfold ask
  dsimp only
  split <;> rfl

/-- No number is ever taken from the store. -/
theorem kept_ask {contents : Contents} {id : Nat} (h : (Table.find? id contents).isSome = true)
    (request : Request) : (Table.find? id (contents.ask request).2).isSome = true := by
  -- The requests that change the contents put a node in, none takes one out.
  have hinsert : ∀ key stored, (Table.find? id (Table.insert key stored contents)).isSome = true := by
    intro key stored
    rw [Table.find?_insert]
    split
    · rfl
    · exact h
  unfold ask
  split
  · exact hinsert _ _
  · split
    · exact h
    · exact hinsert _ _
  · exact h
  · exact h
  · exact h
  · split
    · exact h
    · exact h
  · exact h
  · exact h

/-- Every node is there under its own number. -/
def Own (contents : Contents) : Prop :=
  ∀ id stored, Table.find? id contents = some stored → stored.node.id = id

theorem Own.insert {contents : Contents} (h : contents.Own) {key : Nat} {stored : StoredNode}
    (hkey : stored.node.id = key) : Own (Table.insert key stored contents) := by
  intro id other hfound
  rw [Table.find?_insert] at hfound
  split at hfound
  · next hid =>
    cases hfound
    exact hkey.trans hid.symm
  · exact h id other hfound

theorem Own.ask {contents : Contents} (h : contents.Own) (request : Request) :
    (contents.ask request).2.Own := by
  unfold Contents.ask
  split
  · exact h.insert rfl
  · split
    · exact h
    · next stored hfound => exact h.insert (show stored.node.id = _ from h _ _ hfound)
  · exact h
  · exact h
  · exact h
  · split
    · exact h
    · exact h
  · exact h
  · exact h

/-- A request changes what is there under one number at most. -/
theorem find?_ask_of_ne {contents : Contents} {request : Request} {id : Nat}
    (h : ∀ node defer, request = .store node defer → id ≠ node.id)
    (h' : ∀ other actions, request = .saveActions other actions → id ≠ other) :
    Table.find? id (contents.ask request).2 = Table.find? id contents := by
  unfold ask
  split
  · exact Table.find?_insert_of_ne (h _ _ rfl) _ _
  · split
    · rfl
    · exact Table.find?_insert_of_ne (h' _ _ rfl) _ _
  · rfl
  · rfl
  · rfl
  · split <;> rfl
  · rfl
  · rfl

end Contents

/-! ## What reaches the files -/

/-- What is answered, what still waits to be written, and what the files give back. -/
structure Shelf where
  contents : Contents
  waiting : Table Nat Unit := []
  filed : Contents

namespace Shelf

/-- A storage as it is opened on its files. -/
def opened (filed : Contents) : Shelf := { contents := filed, filed }

/-- **Whether a request writes a node.** One file per node is written unless the node waits, and what
waits is written when it is asked to be or with everything else; one file for all is written as a
whole. -/
def writes (kind : StorageKind) (shelf : Shelf) (request : Request) (id : Nat) : Bool :=
  match kind, request with
  | .perNode, .store node defer => id == node.id && !defer
  | .perNode, .saveActions other _ => id == other && !Table.contains other shelf.waiting
  | .perNode, .autopersist other => id == other && Table.contains other shelf.waiting
  | .perNode, .flush => Table.contains id shelf.waiting
  | .bulk, .flush => true
  | _, _ => false

/-- Which nodes wait after a request. -/
def waitingAfter (shelf : Shelf) : Request → Table Nat Unit
  | .store node true => Table.insert node.id () shelf.waiting
  | .store node false => Table.erase node.id shelf.waiting
  | .autopersist id => Table.erase id shelf.waiting
  | .flush => []
  | _ => shelf.waiting

/-- What a request makes of a shelf. -/
def next (kind : StorageKind) (shelf : Shelf) (request : Request) : Shelf :=
  let contents := (shelf.contents.ask request).2
  { contents
    waiting := shelf.waitingAfter request
    filed := Table.insertAll (contents.filter fun entry => shelf.writes kind request entry.1) shelf.filed }

/-- A shelf after several requests. -/
def after (kind : StorageKind) (shelf : Shelf) (requests : List Request) : Shelf :=
  requests.foldl (next kind) shelf

theorem contents_after (kind : StorageKind) (shelf : Shelf) (requests : List Request) :
    (shelf.after kind requests).contents = (shelf.contents.run requests).2 := by
  induction requests generalizing shelf with
  | nil => rfl
  | cons request rest ih => exact ih _

theorem after_append (kind : StorageKind) (shelf : Shelf) (before after : List Request) :
    shelf.after kind (before ++ after) = (shelf.after kind before).after kind after :=
  List.foldl_append

/-! ## What the files give back -/

/-- **A shelf in order**: what does not wait is in the files as it is answered. In one file for all
that is so after a flush only. -/
structure InOrder (kind : StorageKind) (shelf : Shelf) : Prop where
  contents : Table.Sorted shelf.contents
  waiting : Table.Sorted shelf.waiting
  filed : Table.Sorted shelf.filed
  own : shelf.contents.Own
  ownFiled : shelf.filed.Own
  kept : ∀ id, (Table.find? id shelf.filed).isSome = true → (Table.find? id shelf.contents).isSome = true
  settled : kind = .perNode → ∀ id, Table.contains id shelf.waiting = false →
    Table.find? id shelf.filed = Table.find? id shelf.contents

variable {kind : StorageKind} {shelf : Shelf} {request : Request} {id : Nat}

theorem InOrder.opened {filed : Contents} (h : Table.Sorted filed) (hown : filed.Own) :
    InOrder kind (opened filed) where
  contents := h
  waiting := .nil
  filed := h
  own := hown
  ownFiled := hown
  kept _ hfound := hfound
  settled _ _ _ := rfl

/-- Part of a table that is chosen by its keys. -/
theorem find?_filter {α : Type} (table : Table Nat α) (p : Nat → Bool) (id : Nat) :
    Table.find? id (table.filter fun entry => p entry.1) =
      if p id then Table.find? id table else none := by
  induction table with
  | nil => simp [Table.find?]
  | cons entry rest ih =>
    obtain ⟨key, value⟩ := entry
    rw [List.filter_cons, Table.find?_cons]
    by_cases hkey : p key = true
    · rw [if_pos hkey, Table.find?_cons, ih]
      by_cases hid : id = key
      · rw [if_pos hid, if_pos hid, hid, if_pos hkey]
      · rw [if_neg hid, if_neg hid]
    · rw [if_neg hkey, ih]
      by_cases hid : id = key
      · rw [hid, if_neg hkey, if_neg hkey]
      · rw [if_neg hid]

/-- **What a request writes is in the files as it is there after the request**, and nothing else in
them changes. -/
theorem find?_filed_next (h : Table.Sorted shelf.contents) (request : Request) (id : Nat) :
    Table.find? id (shelf.next kind request).filed =
      if shelf.writes kind request id then
        (Table.find? id (shelf.next kind request).contents).or (Table.find? id shelf.filed)
      else Table.find? id shelf.filed := by
  have hnodup : (Table.keys ((shelf.contents.ask request).2.filter fun entry =>
      shelf.writes kind request entry.1)).Nodup :=
    Table.Sorted.nodup_keys ((Contents.sorted_ask h request).sublist List.filter_sublist)
  show Table.find? id (Table.insertAll _ shelf.filed) = _
  rw [Table.find?_insertAll hnodup, find?_filter]
  by_cases hwrites : shelf.writes kind request id = true
  · rw [if_pos hwrites, if_pos hwrites]
    rfl
  · rw [if_neg hwrites, if_neg hwrites]
    rfl

/-- A node that is not written and does not wait after a request did not wait before, and the request
has nothing to do with it. -/
theorem unwritten (hsorted : Table.Sorted shelf.waiting)
    (hwrites : shelf.writes .perNode request id = false)
    (hwaits : Table.contains id (shelf.waitingAfter request) = false) :
    Table.contains id shelf.waiting = false ∧
      Table.find? id (shelf.contents.ask request).2 = Table.find? id shelf.contents := by
  cases request with
  -- A stored node is written or waits, so the request has stored another one.
  | store node defer =>
    have hne : id ≠ node.id := by
      rintro rfl
      cases defer with
      | true => simp [waitingAfter, Table.contains, Table.find?_insert_self] at hwaits
      | false => simp [writes] at hwrites
    refine ⟨?_, Contents.find?_ask_of_ne (fun _ _ heq => ?_) fun _ _ heq => by cases heq⟩
    · cases defer with
      | true => simpa only [waitingAfter, Table.contains, Table.find?_insert_of_ne hne] using hwaits
      | false => simpa only [waitingAfter, Table.contains, Table.find?_erase hsorted, if_neg hne] using hwaits
    · cases heq
      exact hne
  | saveActions other actions =>
    have hne : id ≠ other := by
      rintro rfl
      simp only [waitingAfter] at hwaits
      simp [writes, hwaits] at hwrites
    refine ⟨hwaits, Contents.find?_ask_of_ne (fun _ _ heq => by cases heq) fun _ _ heq => ?_⟩
    cases heq
    exact hne
  | autopersist other =>
    refine ⟨?_, rfl⟩
    by_cases hid : id = other
    · simpa [writes, hid] using hwrites
    · simpa only [waitingAfter, Table.contains, Table.find?_erase hsorted, if_neg hid] using hwaits
  | flush => exact ⟨hwrites, rfl⟩
  | get other => exact ⟨hwaits, rfl⟩
  | node other =>
    refine ⟨hwaits, Contents.find?_ask_of_ne (fun _ _ heq => by cases heq) fun _ _ heq => by cases heq⟩
  | actions other => exact ⟨hwaits, rfl⟩
  | nodes => exact ⟨hwaits, rfl⟩

theorem sorted_waitingAfter (h : Table.Sorted shelf.waiting) (request : Request) :
    Table.Sorted (shelf.waitingAfter request) := by
  unfold waitingAfter
  split
  · exact h.insert _ _
  · exact h.erase _
  · exact h.erase _
  · exact .nil
  · exact h

/-- What is filed is there, also after a request. -/
theorem InOrder.filed_next (h : shelf.InOrder kind) (request : Request) (id : Nat)
    (hfiled : (Table.find? id shelf.filed).isSome = true) :
    (Table.find? id (shelf.next kind request).contents).isSome = true :=
  Contents.kept_ask (h.kept id hfiled) request

/-- What is not there is not filed either. -/
theorem InOrder.unfiled (h : shelf.InOrder kind) (request : Request)
    (hnone : Table.find? id (shelf.next kind request).contents = none) : Table.find? id shelf.filed = none := by
  cases hfiled : Table.find? id shelf.filed with
  | none => rfl
  | some stored =>
    have hthere := h.filed_next request id (by rw [hfiled]; rfl)
    rw [hnone] at hthere
    cases hthere

/-- What a request writes is filed as it is there. -/
theorem InOrder.filed_written (h : shelf.InOrder kind) (request : Request)
    (hwrites : shelf.writes kind request id = true) :
    Table.find? id (shelf.next kind request).filed = Table.find? id (shelf.next kind request).contents := by
  rw [find?_filed_next h.contents, if_pos hwrites]
  cases hthere : Table.find? id (shelf.next kind request).contents with
  | some stored => rfl
  | none => exact h.unfiled request hthere

/-- What a request does not write stays as it is filed. -/
theorem InOrder.filed_unwritten (h : shelf.InOrder kind) (request : Request)
    (hwrites : shelf.writes kind request id = false) :
    Table.find? id (shelf.next kind request).filed = Table.find? id shelf.filed := by
  rw [find?_filed_next h.contents, if_neg (by rw [hwrites]; exact Bool.false_ne_true)]

/-- **A request leaves a shelf in order.** -/
theorem InOrder.next (h : shelf.InOrder kind) (request : Request) : (shelf.next kind request).InOrder kind where
  contents := Contents.sorted_ask h.contents request
  waiting := sorted_waitingAfter h.waiting request
  filed := Table.Sorted.insertAll h.filed _
  own := h.own.ask request
  ownFiled := by
    intro id stored hfiled
    cases hwrites : shelf.writes kind request id with
    -- What is written is what the abstract store has after the request.
    | true =>
      rw [h.filed_written request hwrites] at hfiled
      exact h.own.ask request id stored hfiled
    | false =>
      rw [h.filed_unwritten request hwrites] at hfiled
      exact h.ownFiled id stored hfiled
  kept := by
    intro id hfiled
    rw [find?_filed_next h.contents] at hfiled
    split at hfiled
    · rcases Option.isSome_or.symm.trans hfiled |> Bool.or_eq_true_iff.mp with hthere | hthere
      · exact hthere
      · exact h.filed_next request id hthere
    · exact h.filed_next request id hfiled
  settled := by
    rintro rfl id hwaits
    cases hwrites : shelf.writes .perNode request id with
    | true => exact h.filed_written request hwrites
    | false =>
      obtain ⟨hbefore, hsame⟩ := unwritten h.waiting hwrites hwaits
      rw [h.filed_unwritten request hwrites, h.settled rfl id hbefore]
      exact hsame.symm

theorem InOrder.after (h : shelf.InOrder kind) (requests : List Request) :
    (shelf.after kind requests).InOrder kind := by
  induction requests generalizing shelf with
  | nil => exact h
  | cons request rest ih => exact ih (h.next request)

/-- **After a flush the files give back what is there.** -/
theorem InOrder.filed_flush (h : shelf.InOrder kind) :
    (shelf.next kind .flush).filed = shelf.contents := by
  have hnext := h.next .flush
  refine hnext.filed.ext h.contents fun id => ?_
  cases kind with
  | perNode => exact hnext.settled rfl id rfl
  | bulk => exact h.filed_written .flush rfl

/-- What a request does not write stays in the files, whatever is answered meanwhile. -/
theorem find?_filed_after (h : shelf.InOrder kind) {requests : List Request}
    (hwrites : ∀ before request after, requests = before ++ request :: after →
      (shelf.after kind before).writes kind request id = false) :
    Table.find? id (shelf.after kind requests).filed = Table.find? id shelf.filed := by
  induction requests generalizing shelf with
  | nil => rfl
  | cons request rest ih =>
    have hfirst : shelf.writes kind request id = false := hwrites [] request rest rfl
    have hrest : Table.find? id ((shelf.next kind request).after kind rest).filed =
        Table.find? id (shelf.next kind request).filed := by
      refine ih (h.next request) fun before later after heq => ?_
      exact hwrites (request :: before) later after (by rw [heq, List.cons_append])
    exact hrest.trans (h.filed_unwritten request hfirst)

/-- **The files give back a node as it was after the last request that wrote it.** -/
theorem find?_filed_of_last_write (h : shelf.InOrder kind) {before after : List Request}
    (hwrite : (shelf.after kind before).writes kind request id = true)
    (hlast : ∀ between later rest, after = between ++ later :: rest →
      (shelf.after kind (before ++ request :: between)).writes kind later id = false) :
    Table.find? id (shelf.after kind (before ++ request :: after)).filed =
      Table.find? id (shelf.after kind (before ++ [request])).contents := by
  have hsplit : ∀ rest, shelf.after kind (before ++ request :: rest) =
      ((shelf.after kind before).next kind request).after kind rest := fun rest => after_append ..
  have hnow := h.after before
  have hlater : Table.find? id (shelf.after kind (before ++ request :: after)).filed =
      Table.find? id ((shelf.after kind before).next kind request).filed := by
    rw [hsplit]
    refine find?_filed_after (hnow.next request) fun between later rest heq => ?_
    rw [← hsplit]
    exact hlast between later rest heq
  rw [hlater, hnow.filed_written request hwrite, hsplit]
  rfl

end Shelf

end DurableFlow.History
