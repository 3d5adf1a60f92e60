import Tigon.InMemory.Queue
import Tigon.Lib.Run

/-!
# Queue producers

A producer keeps the entries that are enqueued in a transaction, writes them into the queue when the
transaction commits, and removes them again when it is rolled back.  `AbstractQueueProducer` has the
part that does not depend on the queue; the in-memory queue and the one in HBase each come with
their own way to write and to remove.

`Spec` says what the queue is to hold: a commit adds the transaction's entries at once, and a
rollback takes away whatever there is of the last transaction.  The producers take a step for each
write, and other producers write in between.  In HBase a commit can fail with some of its entries
written; its client keeps those that were refused in a buffer, for the next time that it writes. 
When the rollback flushes this buffer, after it has deleted the rows, the entries come back.

* `InMemoryState.Inv.step`, `HBaseState.Inv.step` — what a step preserves.
* `atomic_run` — **transactions are atomic in the in-memory queue, and in HBase unless a write that
failed is kept.** -/

set_option autoImplicit false

namespace Tigon.QueueProducer

open InMemory Lts Function

/-! ## What the queue is to hold -/

abbrev Rows := Row → Option QueueEntry

/-- The queue, with the write pointers of the producer's transactions, the last first, and what was
enqueued in it. -/
structure Spec where
  rows : Rows
  started : List Nat
  pending : List QueueEntry

namespace Spec

def startTx (s : Spec) (writePointer : Nat) : Spec :=
  { s with started := writePointer :: s.started, pending := [] }

def enqueue (s : Spec) (entries : List QueueEntry) : Spec :=
  { s with pending := s.pending ++ entries }

/-- The entries of the last transaction are these. -/
def setOwn (s : Spec) (entries : List QueueEntry) : Spec :=
  { s with rows := fun r ↦ if s.started.head? = some r.writePointer then entries[r.counter]?
    else s.rows r }

def committed (s : Spec) : Spec := s.setOwn s.pending

def rolledBack (s : Spec) : Spec := s.setOwn []

/-- A row that another producer has written or removed. -/
def other (s : Spec) (row : Row) (entry : Option QueueEntry) : Spec :=
  { s with rows := update s.rows row entry }

/-- The row is one of the last transaction. -/
def Own (s : Spec) (r : Row) : Prop := s.started.head? = some r.writePointer

/-- A transaction that is to start: no transaction has the write pointer yet. -/
def Fresh (s : Spec) (writePointer : Nat) : Prop :=
  writePointer ∉ s.started ∧ ∀ counter, s.rows ⟨writePointer, counter⟩ = none

end Spec

/-! ## The abstract class -/

structure AbstractQueueProducer where
  queue : List QueueEntry
  transaction : Option Nat

namespace AbstractQueueProducer

/-- Enqueue called outside of transaction: an exception. -/
def enqueue (p : AbstractQueueProducer) (entries : List QueueEntry) :
    Option AbstractQueueProducer :=
  if p.transaction.isSome then some { p with queue := p.queue ++ entries } else none

def startTx (_ : AbstractQueueProducer) (tx : Nat) : AbstractQueueProducer := ⟨[], some tx⟩

/-- The part of `commitTx` before `persist`: the transaction, and the entries that are drained. -/
def commitTx (p : AbstractQueueProducer) : Option (Nat × List QueueEntry × AbstractQueueProducer) :=
  p.transaction.map fun tx ↦ (tx, p.queue, ⟨[], none⟩)

/-- The part of `rollbackTx` before `doRollback`. -/
def rollbackTx (p : AbstractQueueProducer) : AbstractQueueProducer := { p with transaction := none }

end AbstractQueueProducer

/-! ## The in-memory queue -/

/-- The call that the producer is in, with the variables of its loop. -/
inductive InMemoryCall
  | idle
  | persist (tx seqId : Nat) (entries : List QueueEntry)
  | doRollback (tx seqId : Nat)

structure InMemoryState where
  producer : AbstractQueueProducer
  lastEnqueueCount : Nat
  commitTransaction : Option Nat
  call : InMemoryCall
  queue : InMemoryQueue
  spec : Spec

/-- The entries of a queue. -/
def InMemoryState.rows (s : InMemoryState) : Rows :=
  fun r ↦ (s.queue.item ⟨r.writePointer, r.counter⟩).map Item.entry

inductive InMemoryAction
  | startTx (tx : Nat)
  | enqueue (entries : List QueueEntry)
  | commitTx
  | rollbackTx
  /-- The loop of the call goes on. -/
  | next
  /-- Another producer enqueues an entry, or undoes that. -/
  | other (row : Row) (entry : Option QueueEntry)

namespace InMemoryState

/-- The state after the last step of a loop. -/
def next (s : InMemoryState) : InMemoryCall → Option InMemoryState
  | .idle => none
  | .persist tx seqId (entry :: entries) =>
    some { s with queue := s.queue.enqueue tx seqId entry, call := .persist tx (seqId + 1) entries }
  | .persist _ seqId [] =>
    some { s with lastEnqueueCount := seqId, call := .idle, spec := s.spec.committed }
  | .doRollback tx seqId =>
    if seqId < s.lastEnqueueCount then
      some { s with queue := s.queue.undoEnqueue tx seqId, call := .doRollback tx (seqId + 1) }
    else some { s with call := .idle, spec := s.spec.rolledBack }

/-- A call of the producer, which is in no other call. -/
def begin (s : InMemoryState) : InMemoryAction → Option InMemoryState
  | .startTx tx =>
    some { s with
      producer := s.producer.startTx tx, commitTransaction := none, spec := s.spec.startTx tx }
  | .enqueue entries =>
    (s.producer.enqueue entries).map fun p ↦ { s with
      producer := p, spec := s.spec.enqueue entries }
  | .commitTx =>
    s.producer.commitTx.map fun r ↦
      { s with producer := r.2.2, commitTransaction := some r.1, call := .persist r.1 0 r.2.1 }
  | .rollbackTx =>
    match s.commitTransaction with
    | none => some { s with producer := s.producer.rollbackTx, spec := s.spec.rolledBack }
    | some tx => some { s with producer := s.producer.rollbackTx, call := .doRollback tx 0 }
  | _ => none

/-- Only between calls. -/
def whenIdle (s : InMemoryState) (result : Option InMemoryState) : Option InMemoryState :=
  match s.call with
  | .idle => result
  | _ => none

def step (s : InMemoryState) : InMemoryAction → Option InMemoryState
  | .next => s.next s.call
  | .other row none =>
    some { s with
      queue := s.queue.undoEnqueue row.writePointer row.counter, spec := s.spec.other row none }
  | .other row (some entry) =>
    some { s with
      queue := s.queue.enqueue row.writePointer row.counter entry, spec :=
        s.spec.other row (some entry) }
  | a => s.whenIdle (s.begin a)

/-- What holds of transactions: write pointers are new, and others write their own rows. -/
def Allowed (s : InMemoryState) : InMemoryAction → Prop
  | .startTx tx => s.spec.Fresh tx
  | .other row _ => row.writePointer ∉ s.spec.started
  | _ => True

/-- A producer without a transaction, and a queue. -/
def init (queue : InMemoryQueue) : InMemoryState where
  producer := ⟨[], none⟩
  lastEnqueueCount := 0
  commitTransaction := none
  call := .idle
  queue := queue
  spec := ⟨fun r ↦ (queue.item ⟨r.writePointer, r.counter⟩).map Item.entry, [], []⟩

/-- Between calls the queue holds what it is to hold. -/
def Atomic (s : InMemoryState) : Prop := s.call = .idle → s.rows = s.spec.rows

end InMemoryState

/-! ## The queue in HBase -/

abbrev Put := Row × QueueEntry

inductive HBaseCall
  | idle
  /-- `flushCommits`, in `persist` or in `doRollback`, with the puts that are still to be made. -/
  | flush (committing : Bool) (puts : List Put)
  /-- The deletes that are still to be made. -/
  | delete (rows : List Row)
deriving DecidableEq

structure HBaseState where
  producer : AbstractQueueProducer
  rollbackKeys : List Row
  /-- Puts that the client keeps. -/
  writeBuffer : List Put
  call : HBaseCall
  /-- A commit or a rollback has failed, and no rollback has come to its end since. -/
  failed : Bool
  rows : Rows
  spec : Spec

inductive HBaseAction
  | startTx (tx : Nat)
  | enqueue (entries : List QueueEntry)
  | commitTx
  | rollbackTx
  /-- A put, or a delete, reaches the table. -/
  | write (i : Nat)
  /-- The call is over.  If writes are left it has failed, and the client may keep some of them. -/
  | finish (keep : Put → Bool)
  | other (row : Row) (entry : Option QueueEntry)

namespace HBaseState

/-- The puts that `persist` makes of the entries. -/
def puts (tx : Nat) (entries : List QueueEntry) : List Put :=
  entries.mapIdx fun count entry ↦ (⟨tx, count⟩, entry)

def write (s : HBaseState) (i : Nat) : HBaseCall → Option HBaseState
  | .idle => none
  | .flush committing puts =>
    puts[i]?.map fun p ↦
      { s with rows := update s.rows p.1 (some p.2), call := .flush committing (puts.eraseIdx i) }
  | .delete rows =>
    rows[i]?.map fun r ↦ { s with rows := update s.rows r none, call := .delete (rows.eraseIdx i) }

def finish (s : HBaseState) (keep : Put → Bool) : HBaseCall → Option HBaseState
  | .idle => none
  | .flush true [] => some { s with call := .idle, spec := s.spec.committed }
  | .flush false [] => some { s with call := .idle, failed := false, spec := s.spec.rolledBack }
  | .flush _ (p :: puts) =>
    some { s with writeBuffer := (p :: puts).filter keep, call := .idle, failed := true }
  | .delete [] => some { s with writeBuffer := [], call := .flush false s.writeBuffer }
  | .delete (_ :: _) => some { s with call := .idle, failed := true }

def begin (s : HBaseState) : HBaseAction → Option HBaseState
  | .startTx tx =>
    some { s with producer := s.producer.startTx tx, rollbackKeys := [], spec := s.spec.startTx tx }
  | .enqueue entries =>
    (s.producer.enqueue entries).map fun p ↦
    { s with producer := p, spec := s.spec.enqueue entries }
  | .commitTx =>
    s.producer.commitTx.map fun r ↦
      { s with
        producer := r.2.2
        rollbackKeys := s.rollbackKeys ++ (puts r.1 r.2.1).map Prod.fst
        writeBuffer := []
        call := .flush true (s.writeBuffer ++ puts r.1 r.2.1) }
  | .rollbackTx =>
    match s.rollbackKeys with
    -- nothing to rollback
    | [] =>
      some { s with producer := s.producer.rollbackTx, failed := false, spec := s.spec.rolledBack }
    | r :: rows => some { s with producer := s.producer.rollbackTx, call := .delete (r :: rows) }
  | _ => none

/-- Only between calls. -/
def whenIdle (s : HBaseState) (result : Option HBaseState) : Option HBaseState :=
  match s.call with
  | .idle => result
  | _ => none

def step (s : HBaseState) : HBaseAction → Option HBaseState
  | .write i => s.write i s.call
  | .finish keep => s.finish keep s.call
  | .other row entry =>
    some { s with rows := update s.rows row entry, spec := s.spec.other row entry }
  | a => s.whenIdle (s.begin a)

/-- Beyond what holds of transactions: one that has failed is rolled back before the next one
starts. -/
def Allowed (s : HBaseState) : HBaseAction → Prop
  | .startTx tx => s.failed = false ∧ s.spec.Fresh tx
  | .other row _ => row.writePointer ∉ s.spec.started
  | _ => True

/-- The client keeps no put that has failed. -/
def KeepsNothing (s : HBaseState) : HBaseAction → Prop
  | .finish keep => ∀ committing puts, s.call = .flush committing puts → puts.filter keep = []
  | _ => True

def init (rows : Rows) : HBaseState where
  producer := ⟨[], none⟩
  rollbackKeys := []
  writeBuffer := []
  call := .idle
  failed := false
  rows := rows
  spec := ⟨rows, [], []⟩

def Atomic (s : HBaseState) : Prop := s.call = .idle → s.failed = false → s.rows = s.spec.rows

end HBaseState

/-! ## The specification -/

namespace Spec

variable {s : Spec} {r row : Row} {rows : Rows} {entries : List QueueEntry} {tx : Nat}

theorem eq_rows_setOwn (hoff : ∀ r, ¬s.Own r → rows r = s.rows r)
    (hown : ∀ r, s.Own r → rows r = entries[r.counter]?) : rows = (s.setOwn entries).rows := by
  funext r
  by_cases h : s.started.head? = some r.writePointer
  · rw [hown r h]
    exact (if_pos h).symm
  · rw [hoff r h]
    exact (if_neg h).symm

theorem not_own_of_notMem (h : row.writePointer ∉ s.started) : ¬s.Own row := fun hown ↦
  h (List.mem_of_head? hown)

/-- Another producer writes the same into both. -/
theorem other_eq {entry : Option QueueEntry} (h : rows r = s.rows r) :
    update rows row entry r = (s.other row entry).rows r := by
  by_cases hr : r = row
  · subst hr
    rw [Spec.other, update_self]
    exact (update_self r entry s.rows).symm
  · rw [Spec.other, update_of_ne hr, h]
    exact (update_of_ne hr ..).symm

end Spec

/-! ## Steps of the in-memory producer -/

namespace InMemoryState

variable {s s' : InMemoryState} {a : InMemoryAction}

theorem rows_enqueue (s : InMemoryState) (row : Row) (entry : QueueEntry) :
    { s with queue := s.queue.enqueue row.writePointer row.counter entry : InMemoryState }.rows =
      update s.rows row (some entry) := by
  funext r
  by_cases h : r = row
  · subst h
    rw [update_self]
    show Option.map Item.entry ((s.queue.entries.put _ _).get _) = _
    rw [SortedMap.get_put, if_pos rfl]
    rfl
  · rw [update_of_ne h]
    show Option.map Item.entry ((s.queue.entries.put _ _).get _) = _
    have hkey : (⟨r.writePointer, r.counter⟩ : Key) ≠ ⟨row.writePointer, row.counter⟩ := fun heq ↦
      h (congrArg Key.toRow heq)
    rw [SortedMap.get_put, if_neg hkey]
    rfl

theorem rows_undoEnqueue (s : InMemoryState) (row : Row) :
    { s with queue := s.queue.undoEnqueue row.writePointer row.counter : InMemoryState }.rows =
      update s.rows row none := by
  funext r
  by_cases h : r = row
  · subst h
    rw [update_self]
    show Option.map Item.entry ((s.queue.entries.remove _).get _) = _
    rw [SortedMap.get_remove, if_pos rfl]
    rfl
  · rw [update_of_ne h]
    show Option.map Item.entry ((s.queue.entries.remove _).get _) = _
    have hkey : (⟨r.writePointer, r.counter⟩ : Key) ≠ ⟨row.writePointer, row.counter⟩ := fun heq ↦
      h (congrArg Key.toRow heq)
    rw [SortedMap.get_remove, if_neg hkey]
    rfl

/-- What holds in a call. -/
def CallInv (s : InMemoryState) : InMemoryCall → Prop
  | .idle => (∀ r, s.spec.Own r → s.rows r = s.spec.rows r) ∧
      (∀ tx, s.producer.transaction = some tx →
        s.commitTransaction = none ∧ s.spec.started.head? = some tx ∧ s.producer.queue =
          s.spec.pending) ∧
      (s.commitTransaction = none → ∀ r, s.spec.Own r → s.rows r = none) ∧
      ∀ tx, s.commitTransaction = some tx → s.spec.started.head? = some tx ∧
        ∀ r, s.spec.Own r → s.lastEnqueueCount ≤ r.counter → s.rows r = none
  | .persist tx seqId entries => s.producer.transaction = none ∧ s.commitTransaction = some tx ∧
      s.spec.started.head? = some tx ∧
        ∃ done, s.spec.pending = done ++ entries ∧ seqId = done.length ∧
          ∀ r, s.spec.Own r → s.rows r = done[r.counter]?
  | .doRollback tx seqId => s.producer.transaction = none ∧ s.commitTransaction = some tx ∧
      s.spec.started.head? = some tx ∧
        ∀ r, s.spec.Own r → r.counter < seqId ∨ s.lastEnqueueCount ≤ r.counter → s.rows r = none

/-- **The invariant**: a producer touches no rows but its own, and a call in progress has done a
part of what was asked of it. -/
structure Inv (s : InMemoryState) : Prop where
  off : ∀ r, ¬s.spec.Own r → s.rows r = s.spec.rows r
  callInv : s.CallInv s.call

theorem idle_of_whenIdle {result : Option InMemoryState} (h : s.whenIdle result = some s') :
    s.call = .idle ∧ result = some s' := by
  rw [whenIdle] at h
  split at h
  · exact ⟨‹_›, h⟩
  · cases h

theorem Inv.other (hi : s.Inv) {row : Row} (hrow : row.writePointer ∉ s.spec.started)
    {queue : InMemoryQueue} {entry : Option QueueEntry}
      (hqueue : { s with queue := queue : InMemoryState }.rows =
      update s.rows row entry) :
        Inv { s with queue := queue, spec := s.spec.other row entry } := by
  have hoff := Spec.not_own_of_notMem hrow
  have hsame (r : Row) (hr : s.spec.Own r) : { s with queue := queue : InMemoryState }.rows r =
    s.rows r := by
    have hne : r ≠ row := by
      rintro rfl
      exact hoff hr
    rw [hqueue, update_of_ne hne]
  have hspec (r : Row) (h : s.rows r = s.spec.rows r) :
      { s with queue := queue : InMemoryState }.rows r = (s.spec.other row entry).rows r := by
    rw [hqueue]
    exact Spec.other_eq h
  refine ⟨fun r hr ↦ hspec r (hi.off r hr), ?_⟩
  have hcall := hi.callInv
  show CallInv _ s.call
  rcases hc : s.call with - | ⟨tx, seqId, entries⟩ | ⟨tx, seqId⟩ <;> rw [hc] at hcall
  · obtain ⟨hrows, hopen, hnone, hsome⟩ := hcall
    refine ⟨fun r hr ↦ hspec r (hrows r hr), hopen, fun h r hr ↦ (hsame r hr).trans (hnone h r hr),
      fun tx h ↦ ?_⟩
    exact ⟨(hsome tx h).1, fun r hr hle ↦ (hsame r hr).trans ((hsome tx h).2 r hr hle)⟩
  · obtain ⟨hopen, hcommit, hhead, done, hpending, hlen, hrows⟩ := hcall
    exact ⟨hopen, hcommit, hhead, done, hpending, hlen, fun r hr ↦ (hsame r hr).trans (hrows r hr)⟩
  · obtain ⟨hopen, hcommit, hhead, hrows⟩ := hcall
    exact ⟨hopen, hcommit, hhead, fun r hr hn ↦ (hsame r hr).trans (hrows r hr hn)⟩

/-- The loops. -/
theorem Inv.next (hi : s.Inv) (h : s.next s.call = some s') : s'.Inv := by
  have hcall := hi.callInv
  rcases hc : s.call with - | ⟨tx, seqId, - | ⟨entry, entries⟩⟩ | ⟨tx, seqId⟩ <;> rw [hc] at hcall h
  · cases h
  · -- the last entry has been written
    obtain ⟨hopen, hcommit, hhead, done, hpending, hlen, hrows⟩ := hcall
    obtain rfl := Option.some.inj h
    rw [List.append_nil] at hpending
    have heq : s.rows = s.spec.committed.rows :=
      Spec.eq_rows_setOwn hi.off fun r hr ↦ by rw [hrows r hr, hpending]
    refine ⟨fun r _ ↦ congrFun heq r, fun r _ ↦ congrFun heq r, fun tx' h ↦ ?_, fun h ↦ ?_,
      fun tx' h ↦ ⟨?_, ?_⟩⟩
    · exact absurd (hopen.symm.trans h) (Option.some_ne_none _).symm
    · exact absurd (hcommit.symm.trans h) (Option.some_ne_none _)
    · exact hhead.trans (hcommit.symm.trans h)
    · intro r hr hle
      refine (hrows r hr).trans (List.getElem?_eq_none ?_)
      exact hlen ▸ hle
  · obtain ⟨hopen, hcommit, hhead, done, hpending, hlen, hrows⟩ := hcall
    obtain rfl := Option.some.inj h
    have hqueue := s.rows_enqueue ⟨tx, seqId⟩ entry
    refine ⟨fun r hr ↦ ?_, hopen, hcommit, hhead, done ++ [entry], ?_, ?_, fun r hr ↦ ?_⟩
    · refine (congrFun hqueue r).trans ?_
      rw [update_of_ne]
      · exact hi.off r hr
      · rintro rfl
        exact hr hhead
    · rw [hpending, List.append_assoc, List.singleton_append]
    · rw [List.length_append, List.length_singleton, hlen]
    · refine (congrFun hqueue r).trans ?_
      have hw : tx = r.writePointer := Option.some.inj (hhead.symm.trans hr)
      by_cases hn : r = ⟨tx, seqId⟩
      · rw [hn, update_self, hlen, List.getElem?_concat_length]
      · rw [update_of_ne hn, hrows r hr]
        have hne : r.counter ≠ done.length := fun heq ↦ hn (by rw [hw, hlen, ← heq])
        rcases Nat.lt_or_gt_of_ne hne with hlt | hgt
        · rw [List.getElem?_append_left hlt]
        · rw [List.getElem?_eq_none hgt.le, List.getElem?_eq_none]
          rw [List.length_append, List.length_singleton]
          exact hgt
  · obtain ⟨hopen, hcommit, hhead, hrows⟩ := hcall
    rw [InMemoryState.next] at h
    split at h
    · obtain rfl := Option.some.inj h
      have hqueue := s.rows_undoEnqueue ⟨tx, seqId⟩
      refine ⟨fun r hr ↦ ?_, hopen, hcommit, hhead, fun r hr hn ↦ ?_⟩
      · refine (congrFun hqueue r).trans ?_
        rw [update_of_ne]
        · exact hi.off r hr
        · rintro rfl
          exact hr hhead
      · refine (congrFun hqueue r).trans ?_
        by_cases hr' : r = ⟨tx, seqId⟩
        · rw [hr', update_self]
        · rw [update_of_ne hr']
          refine hrows r hr (hn.imp_left fun hlt ↦ ?_)
          have hw : tx = r.writePointer := Option.some.inj (hhead.symm.trans hr)
          have hne : r.counter ≠ seqId := fun heq ↦ hr' (by rw [hw, ← heq])
          omega
    · rename_i hge
      obtain rfl := Option.some.inj h
      have hnone : ∀ r, s.spec.Own r → s.rows r = none := fun r hr ↦ hrows r hr (by omega)
      have heq : s.rows = s.spec.rolledBack.rows := Spec.eq_rows_setOwn hi.off fun r hr ↦ by
        rw [hnone r hr]; rfl
      refine ⟨fun r _ ↦ congrFun heq r, fun r _ ↦ congrFun heq r, fun tx' h ↦ ?_, fun _ ↦ hnone,
        fun tx' h ↦ ?_⟩
      · exact absurd (hopen.symm.trans h) (Option.some_ne_none _).symm
      · exact ⟨hhead.trans (hcommit.symm.trans h), fun r hr _ ↦ hnone r hr⟩

/-- **What a step preserves.** -/
theorem Inv.step (hi : s.Inv) (hallowed : s.Allowed a) (h : s.step a = some s') : s'.Inv := by
  cases a with
  | next => exact hi.next h
  | other row entry =>
    rcases entry with - | entry <;> obtain rfl := Option.some.inj h
    · exact hi.other hallowed (s.rows_undoEnqueue row)
    · exact hi.other hallowed (s.rows_enqueue row entry)
  | startTx tx =>
    obtain ⟨hidle, h⟩ := idle_of_whenIdle h
    obtain ⟨hrows, -, -, -⟩ : s.CallInv .idle := hidle ▸ hi.callInv
    have hall (r : Row) : s.rows r = s.spec.rows r := by
      by_cases hr : s.spec.Own r
      · exact hrows r hr
      · exact hi.off r hr
    obtain rfl := Option.some.inj h
    have hnone (r : Row) (hr : (s.spec.startTx tx).Own r) : s.rows r = none := by
      obtain rfl : tx = r.writePointer := Option.some.inj hr
      exact (hall r).trans (hallowed.2 r.counter)
    refine ⟨fun r _ ↦ hall r, ?_⟩
    show CallInv _ s.call
    rw [hidle]
    refine ⟨fun r _ ↦ hall r, fun tx' h ↦ ?_, fun _ ↦ hnone,
      fun tx' h ↦ absurd h (Option.some_ne_none _).symm⟩
    exact ⟨rfl, h, rfl⟩
  | enqueue entries =>
    obtain ⟨hidle, h⟩ := idle_of_whenIdle h
    obtain ⟨hrows, hopen, hnone, hsome⟩ : s.CallInv .idle := hidle ▸ hi.callInv
    obtain ⟨p, hp, rfl⟩ := Option.map_eq_some_iff.mp h
    rw [AbstractQueueProducer.enqueue] at hp
    split at hp
    · obtain rfl := Option.some.inj hp
      refine ⟨hi.off, ?_⟩
      show CallInv _ s.call
      rw [hidle]
      refine ⟨hrows, fun tx h ↦ ?_, hnone, hsome⟩
      obtain ⟨hcommit, hhead, hqueue⟩ := hopen tx h
      exact ⟨hcommit, hhead, congrArg (· ++ entries) hqueue⟩
    · cases hp
  | commitTx =>
    obtain ⟨hidle, h⟩ := idle_of_whenIdle h
    obtain ⟨-, hopen, hnone, -⟩ : s.CallInv .idle := hidle ▸ hi.callInv
    obtain ⟨r, hr, rfl⟩ := Option.map_eq_some_iff.mp h
    obtain ⟨tx, htx, rfl⟩ := Option.map_eq_some_iff.mp hr
    obtain ⟨hcommit, hhead, hqueue⟩ := hopen tx htx
    exact ⟨hi.off, rfl, rfl, hhead, [], hqueue.symm, rfl, fun r hr ↦ hnone hcommit r hr⟩
  | rollbackTx =>
    obtain ⟨hidle, h⟩ := idle_of_whenIdle h
    obtain ⟨-, hopen, hnone, hsome⟩ : s.CallInv .idle := hidle ▸ hi.callInv
    rw [begin] at h
    split at h
    · rename_i hcommit
      obtain rfl := Option.some.inj h
      have heq : s.rows = s.spec.rolledBack.rows :=
        Spec.eq_rows_setOwn hi.off fun r hr ↦ hnone hcommit r hr
      refine ⟨fun r _ ↦ congrFun heq r, ?_⟩
      show CallInv _ s.call
      rw [hidle]
      exact ⟨fun r _ ↦ congrFun heq r, fun tx h ↦ absurd h (Option.some_ne_none _).symm,
        hnone, hsome⟩
    · rename_i tx hcommit
      obtain rfl := Option.some.inj h
      obtain ⟨hhead, hrows⟩ := hsome tx hcommit
      exact ⟨hi.off, rfl, hcommit, hhead,
        fun r hr hn ↦ hrows r hr (hn.resolve_left (Nat.not_lt_zero _))⟩

theorem inv_init (queue : InMemoryQueue) : (init queue).Inv :=
  ⟨fun _ _ ↦ rfl, fun _ _ ↦ rfl, fun _ h ↦ absurd h (Option.some_ne_none _).symm,
    fun _ _ hr ↦ absurd hr (Option.some_ne_none _).symm,
      fun _ h ↦ absurd h (Option.some_ne_none _).symm⟩

theorem Inv.atomic (hi : s.Inv) : s.Atomic := by
  intro hidle
  obtain ⟨hrows, -⟩ : s.CallInv .idle := hidle ▸ hi.callInv
  funext r
  by_cases hr : s.spec.Own r
  · exact hrows r hr
  · exact hi.off r hr

end InMemoryState

/-! ## Steps of the producer in HBase -/

namespace HBaseState

variable {s s' : HBaseState} {a : HBaseAction}

/-- What holds in a call. -/
def CallInv (s : HBaseState) : HBaseCall → Prop
  | .idle => (s.failed = false → ∀ r, s.spec.Own r → s.rows r = s.spec.rows r) ∧
      ∀ tx, s.producer.transaction = some tx → s.failed = false ∧ s.rollbackKeys = [] ∧
        s.spec.started.head? = some tx ∧ s.producer.queue = s.spec.pending
  | .flush true puts => s.producer.transaction = none ∧
      (∀ p ∈ puts, s.spec.Own p.1 ∧ s.spec.pending[p.1.counter]? = some p.2 ∧
        p.1 ∈ s.rollbackKeys) ∧
      ∀ r, s.spec.Own r → s.rows r = s.spec.pending[r.counter]? ∨ ∃ p ∈ puts, p.1 = r
  | .flush false puts =>
    s.producer.transaction = none ∧ puts = [] ∧ ∀ r, s.spec.Own r → s.rows r = none
  | .delete rows => s.producer.transaction = none ∧ rows ⊆ s.rollbackKeys ∧
      ∀ r, s.spec.Own r → s.rows r ≠ none → r ∈ rows

/-- **The invariant**: nothing is left in the write buffer between the steps, and the rows of the
producer that are in the table are among those that it would roll back. -/
structure Inv (s : HBaseState) : Prop where
  off : ∀ r, ¬s.spec.Own r → s.rows r = s.spec.rows r
  buffer : s.writeBuffer = []
  keys : ∀ r ∈ s.rollbackKeys, s.spec.Own r
  present : ∀ r, s.spec.Own r → s.rows r ≠ none → r ∈ s.rollbackKeys
  callInv : s.CallInv s.call

theorem idle_of_whenIdle {result : Option HBaseState} (h : s.whenIdle result = some s') :
    s.call = .idle ∧ result = some s' := by
  rw [whenIdle] at h
  split at h
  · exact ⟨‹_›, h⟩
  · cases h

theorem Inv.other (hi : s.Inv) {row : Row} (hrow : row.writePointer ∉ s.spec.started)
    (entry : Option QueueEntry) : Inv
    { s with rows := update s.rows row entry, spec := s.spec.other row entry } := by
  have hoff := Spec.not_own_of_notMem hrow
  have hsame (r : Row) (hr : s.spec.Own r) : update s.rows row entry r = s.rows r := by
    have hne : r ≠ row := by
      rintro rfl
      exact hoff hr
    exact update_of_ne hne ..
  refine ⟨fun r hr ↦ Spec.other_eq (hi.off r hr), hi.buffer, hi.keys,
    fun r hr h ↦ hi.present r hr (hsame r hr ▸ h), ?_⟩
  have hcall := hi.callInv
  show CallInv _ s.call
  rcases hc : s.call with - | ⟨- | -, puts⟩ | rows <;> rw [hc] at hcall
  · exact ⟨fun h r hr ↦ Spec.other_eq (hcall.1 h r hr), hcall.2⟩
  · exact ⟨hcall.1, hcall.2.1, fun r hr ↦ (hsame r hr).trans (hcall.2.2 r hr)⟩
  · exact ⟨hcall.1, hcall.2.1, fun r hr ↦ (hcall.2.2 r hr).imp_left (hsame r hr).trans⟩
  · exact ⟨hcall.1, hcall.2.1, fun r hr h ↦ hcall.2.2 r hr (hsame r hr ▸ h)⟩

theorem mem_eraseIdx_of_ne {α : Type*} {l : List α} {i : Nat} {a b : α} (ha : a ∈ l)
    (hb : l[i]? = some b) (hne : a ≠ b) : a ∈ l.eraseIdx i := by
  obtain ⟨j, hj⟩ := List.mem_iff_getElem?.mp ha
  refine List.mem_eraseIdx_iff_getElem?.mpr ⟨j, ?_, hj⟩
  rintro rfl
  exact hne (Option.some.inj (hj.symm.trans hb))

/-- A write that reaches the table. -/
theorem Inv.write (hi : s.Inv) {i : Nat} (h : s.write i s.call = some s') : s'.Inv := by
  have hcall := hi.callInv
  rcases hc : s.call with - | ⟨- | -, puts⟩ | rows <;> rw [hc] at hcall h
  · cases h
  · obtain ⟨p, hp, -⟩ := Option.map_eq_some_iff.mp h
    rw [hcall.2.1, List.getElem?_nil] at hp
    cases hp
  · obtain ⟨p, hp, rfl⟩ := Option.map_eq_some_iff.mp h
    obtain ⟨hopen, hputs, hrows⟩ := hcall
    obtain ⟨hown, hpending, hkey⟩ := hputs p (List.mem_of_getElem? hp)
    refine ⟨fun r hr ↦ ?_, hi.buffer, hi.keys, fun r hr hne ↦ ?_, hopen,
      fun q hq ↦ hputs q (List.mem_of_mem_eraseIdx hq), fun r hr ↦ ?_⟩
    · have hne : r ≠ p.1 := by
        rintro rfl
        exact hr hown
      exact (update_of_ne hne ..).trans (hi.off r hr)
    · by_cases heq : r = p.1
      · exact heq ▸ hkey
      · exact hi.present r hr (update_of_ne heq (some p.2) s.rows ▸ hne)
    · by_cases heq : r = p.1
      · subst heq
        exact Or.inl ((update_self ..).trans hpending.symm)
      · refine (hrows r hr).imp (update_of_ne heq ..).trans ?_
        rintro ⟨q, hq, rfl⟩
        exact ⟨q, mem_eraseIdx_of_ne hq hp fun h ↦ heq (congrArg Prod.fst h), rfl⟩
  · obtain ⟨row, hrow, rfl⟩ := Option.map_eq_some_iff.mp h
    obtain ⟨hopen, hsub, hrows⟩ := hcall
    have hown := hi.keys row (hsub (List.mem_of_getElem? hrow))
    have hother {r : Row} (hne : update s.rows row none r ≠ none) : r ≠ row ∧ s.rows r ≠ none := by
      have hr : r ≠ row := by
        rintro rfl
        exact hne (update_self ..)
      exact ⟨hr, update_of_ne hr none s.rows ▸ hne⟩
    refine ⟨fun r hr ↦ ?_, hi.buffer, hi.keys, fun r hr hne ↦ hi.present r hr (hother hne).2, hopen,
      fun r hr ↦ hsub (List.mem_of_mem_eraseIdx hr), fun r hr hne ↦ ?_⟩
    · have hne : r ≠ row := by
        rintro rfl
        exact hr hown
      exact (update_of_ne hne ..).trans (hi.off r hr)
    · exact mem_eraseIdx_of_ne (hrows r hr (hother hne).2) hrow (hother hne).1

/-- The end of a call.  If it is a flush that fails, nothing is kept. -/
theorem Inv.finish (hi : s.Inv) {keep : Put → Bool} (hkeep : s.KeepsNothing (.finish keep))
    (h : s.finish keep s.call = some s') : s'.Inv := by
  have hcall := hi.callInv
  rcases hc : s.call with - | ⟨- | -, - | ⟨p, puts⟩⟩ | (- | ⟨row, rows⟩) <;> rw [hc] at hcall h
  · cases h
  · obtain rfl := Option.some.inj h
    have heq : s.rows = s.spec.rolledBack.rows :=
      Spec.eq_rows_setOwn hi.off fun r hr ↦ hcall.2.2 r hr
    exact ⟨fun r _ ↦ congrFun heq r, hi.buffer, hi.keys, hi.present, fun _ r _ ↦ congrFun heq r,
      fun tx h ↦ absurd (hcall.1.symm.trans h) (Option.some_ne_none _).symm⟩
  · cases hcall.2.1
  · obtain rfl := Option.some.inj h
    have heq : s.rows = s.spec.committed.rows := Spec.eq_rows_setOwn hi.off fun r hr ↦
      (hcall.2.2 r hr).resolve_right (by rintro ⟨p, hp, -⟩; cases hp)
    exact ⟨fun r _ ↦ congrFun heq r, hi.buffer, hi.keys, hi.present, fun _ r _ ↦ congrFun heq r,
      fun tx h ↦ absurd (hcall.1.symm.trans h) (Option.some_ne_none _).symm⟩
  · obtain rfl := Option.some.inj h
    exact ⟨hi.off, hkeep _ _ hc, hi.keys, hi.present, fun h ↦ Bool.noConfusion h,
      fun tx h ↦ absurd (hcall.1.symm.trans h) (Option.some_ne_none _).symm⟩
  · obtain rfl := Option.some.inj h
    refine ⟨hi.off, rfl, hi.keys, hi.present, hcall.1, hi.buffer, fun r hr ↦ ?_⟩
    by_contra hne
    exact absurd (hcall.2.2 r hr hne) List.not_mem_nil
  · obtain rfl := Option.some.inj h
    exact ⟨hi.off, hi.buffer, hi.keys, hi.present, fun h ↦ Bool.noConfusion h,
      fun tx h ↦ absurd (hcall.1.symm.trans h) (Option.some_ne_none _).symm⟩

theorem mem_puts {tx : Nat} {entries : List QueueEntry} {p : Put} :
    p ∈ puts tx entries ↔ p.1.writePointer = tx ∧ entries[p.1.counter]? = some p.2 := by
  rw [puts, List.mem_mapIdx]
  constructor
  · rintro ⟨i, hi, rfl⟩
    exact ⟨rfl, List.getElem?_eq_getElem hi⟩
  · rintro ⟨rfl, hp⟩
    obtain ⟨hi, heq⟩ := List.getElem?_eq_some_iff.mp hp
    exact ⟨p.1.counter, hi, by rw [heq]⟩

/-- **What a step preserves.** -/
theorem Inv.step (hi : s.Inv) (hallowed : s.Allowed a) (hkeep : s.KeepsNothing a)
    (h : s.step a = some s') : s'.Inv := by
  cases a with
  | write i => exact hi.write h
  | finish keep => exact hi.finish hkeep h
  | other row entry =>
    obtain rfl := Option.some.inj h
    exact hi.other hallowed entry
  | startTx tx =>
    obtain ⟨hidle, h⟩ := idle_of_whenIdle h
    obtain ⟨hrows, -⟩ : s.CallInv .idle := hidle ▸ hi.callInv
    have hall (r : Row) : s.rows r = s.spec.rows r := by
      by_cases hr : s.spec.Own r
      · exact hrows hallowed.1 r hr
      · exact hi.off r hr
    obtain rfl := Option.some.inj h
    refine ⟨fun r _ ↦ hall r, hi.buffer, fun r hr ↦ absurd hr List.not_mem_nil,
      fun r hr hne ↦ absurd ?_ hne, ?_⟩
    · obtain rfl : tx = r.writePointer := Option.some.inj hr
      exact (hall r).trans (hallowed.2.2 r.counter)
    · show CallInv _ s.call
      rw [hidle]
      exact ⟨fun _ r _ ↦ hall r, fun tx' h ↦ ⟨hallowed.1, rfl, h, rfl⟩⟩
  | enqueue entries =>
    obtain ⟨hidle, h⟩ := idle_of_whenIdle h
    obtain ⟨hrows, hopen⟩ : s.CallInv .idle := hidle ▸ hi.callInv
    obtain ⟨p, hp, rfl⟩ := Option.map_eq_some_iff.mp h
    rw [AbstractQueueProducer.enqueue] at hp
    split at hp
    · obtain rfl := Option.some.inj hp
      refine ⟨hi.off, hi.buffer, hi.keys, hi.present, ?_⟩
      show CallInv _ s.call
      rw [hidle]
      refine ⟨hrows, fun tx h ↦ ?_⟩
      obtain ⟨hfailed, hkeys, hhead, hqueue⟩ := hopen tx h
      exact ⟨hfailed, hkeys, hhead, congrArg (· ++ entries) hqueue⟩
    · cases hp
  | commitTx =>
    obtain ⟨hidle, h⟩ := idle_of_whenIdle h
    obtain ⟨hrows, hopen⟩ : s.CallInv .idle := hidle ▸ hi.callInv
    obtain ⟨r, hr, rfl⟩ := Option.map_eq_some_iff.mp h
    obtain ⟨tx, htx, rfl⟩ := Option.map_eq_some_iff.mp hr
    obtain ⟨hfailed, hkeys, hhead, hqueue⟩ := hopen tx htx
    have hmem {p : Put} (hp : p ∈ puts tx s.producer.queue) : s.spec.Own p.1 :=
      hhead.trans (congrArg some (mem_puts.mp hp).1.symm)
    have hbuffer : s.writeBuffer ++ puts tx s.producer.queue = puts tx s.producer.queue := by
      rw [hi.buffer, List.nil_append]
    refine ⟨hi.off, rfl, fun r hr ↦ ?_, fun r hr hne ↦ List.mem_append_left _
      (hi.present r hr hne), rfl, fun p hp ↦ ?_, fun r hr ↦ ?_⟩
    · rcases List.mem_append.mp hr with hr | hr
      · exact hi.keys r hr
      · obtain ⟨p, hp, rfl⟩ := List.mem_map.mp hr
        exact hmem hp
    · rw [hbuffer] at hp
      exact ⟨hmem hp, hqueue ▸ (mem_puts.mp hp).2, List.mem_append_right _ (List.mem_map_of_mem hp)⟩
    · rw [hbuffer]
      -- no row of the transaction is there yet
      have hnone : s.rows r = none := by
        by_contra hne
        exact absurd (hkeys ▸ hi.present r hr hne) List.not_mem_nil
      rcases hentry : s.spec.pending[r.counter]? with - | entry
      · exact Or.inl hnone
      · have hw : r.writePointer = tx := (Option.some.inj (hhead.symm.trans hr)).symm
        exact Or.inr ⟨(r, entry), mem_puts.mpr ⟨hw, hqueue ▸ hentry⟩, rfl⟩
  | rollbackTx =>
    obtain ⟨hidle, h⟩ := idle_of_whenIdle h
    obtain ⟨hrows, hopen⟩ : s.CallInv .idle := hidle ▸ hi.callInv
    rw [begin] at h
    split at h
    · rename_i hkeys
      obtain rfl := Option.some.inj h
      have heq : s.rows = s.spec.rolledBack.rows := Spec.eq_rows_setOwn hi.off fun r hr ↦ by
        by_contra hne
        exact absurd (hkeys ▸ hi.present r hr hne) List.not_mem_nil
      refine ⟨fun r _ ↦ congrFun heq r, hi.buffer, hi.keys, hi.present, ?_⟩
      show CallInv _ s.call
      rw [hidle]
      exact ⟨fun _ r _ ↦ congrFun heq r, fun tx h ↦ absurd h (Option.some_ne_none _).symm⟩
    · rename_i row rows hkeys
      obtain rfl := Option.some.inj h
      refine ⟨hi.off, hi.buffer, hi.keys, hi.present, rfl, ?_,
        fun r hr hne ↦ hkeys ▸ hi.present r hr hne⟩
      rw [← hkeys]
      exact List.Subset.refl _

theorem inv_init (rows : Rows) : (init rows).Inv :=
  ⟨fun _ _ ↦ rfl, rfl, fun _ hr ↦ absurd hr List.not_mem_nil,
    fun _ hr ↦ absurd hr (Option.some_ne_none _).symm, fun _ _ _ ↦ rfl,
      fun _ h ↦ absurd h (Option.some_ne_none _).symm⟩

theorem Inv.atomic (hi : s.Inv) : s.Atomic := by
  intro hidle hfailed
  obtain ⟨hrows, -⟩ : s.CallInv .idle := hidle ▸ hi.callInv
  funext r
  by_cases hr : s.spec.Own r
  · exact hrows hfailed r hr
  · exact hi.off r hr

end HBaseState

/-! ## Runs -/

/-- **In every run of the in-memory producer, and in every run of the one in HBase in which the
client keeps no put that has failed, the queue holds what it is to hold.** -/
theorem atomic_run (queue : InMemoryQueue) (rows : Rows) :
    (∀ (actions : List InMemoryAction) (s : InMemoryState),
      Run InMemoryState.step InMemoryState.Allowed (.init queue) actions s → s.Atomic) ∧
    ∀ (actions : List HBaseAction) (s : HBaseState),
      Run HBaseState.step (fun s a ↦ s.Allowed a ∧ s.KeepsNothing a) (.init rows) actions s →
        s.Atomic := by
  refine ⟨fun actions s hrun ↦ ?_, fun actions s hrun ↦ ?_⟩
  · exact InMemoryState.Inv.atomic (hrun.invariant (fun hi hok h ↦ hi.step hok h)
      (InMemoryState.inv_init queue))
  · exact HBaseState.Inv.atomic (hrun.invariant (fun hi hok h ↦ hi.step hok.1 hok.2 h)
      (HBaseState.inv_init rows))

/-- An action that is allowed in every state. -/
def HBaseAction.plain : HBaseAction → Bool
  | .startTx _ | .other _ _ => false
  | _ => true

theorem HBaseState.allowed_of_plain {s : HBaseState} {a : HBaseAction} (h : a.plain = true) :
    s.Allowed a := by
  cases a with
  | startTx tx => cases h
  | other row entry => cases h
  | enqueue | commitTx | rollbackTx | write | finish => trivial

def InMemoryAction.plain : InMemoryAction → Bool
  | .startTx _ | .other _ _ => false
  | _ => true

theorem InMemoryState.allowed_of_plain {s : InMemoryState} {a : InMemoryAction}
    (h : a.plain = true) : s.Allowed a := by
  cases a with
  | startTx tx => cases h
  | other row entry => cases h
  | enqueue | commitTx | rollbackTx | next => trivial

/-- An empty queue, and a transaction that has been started. -/
def startedState : HBaseState :=
  { HBaseState.init (fun _ ↦ none) with producer := ⟨[], some 1⟩, spec := ⟨fun _ ↦ none, [1], []⟩ }

theorem allowed_startTx : (HBaseState.init fun _ ↦ none).Allowed (.startTx 1) :=
  ⟨rfl, List.not_mem_nil, fun _ ↦ rfl⟩

instance decidableKeepsNothing (s : HBaseState) (a : HBaseAction) : Decidable (s.KeepsNothing a) :=
  match a with
  | .finish keep =>
    match hcall : s.call with
    | .flush _ puts =>
      decidable_of_iff (puts.filter keep = [])
        ⟨fun h _ _ heq ↦ by
          obtain ⟨rfl, rfl⟩ := HBaseCall.flush.inj (hcall.symm.trans heq)
          exact h, fun h ↦ h _ _ hcall⟩
    | .idle => isTrue fun _ _ heq ↦ HBaseCall.noConfusion (hcall.symm.trans heq)
    | .delete _ => isTrue fun _ _ heq ↦ HBaseCall.noConfusion (hcall.symm.trans heq)
  | .startTx _ | .enqueue _ | .commitTx | .rollbackTx | .write _ | .other _ _ => isTrue trivial

/-- A transaction that commits. -/
def commitActions : List HBaseAction :=
  [.enqueue [⟨[], [7]⟩, ⟨[], [8]⟩], .commitTx, .write 1, .write 0, .finish fun _ ↦ false]

/-- A transaction one of whose puts is refused; the rows are deleted after that. -/
def rollbackActions : List HBaseAction :=
  [.enqueue [⟨[], [9]⟩, ⟨[], [10]⟩], .commitTx, .write 1, .finish fun _ ↦ false,
    .rollbackTx, .write 0, .write 0, .finish fun _ ↦ false, .finish fun _ ↦ false]

/-- The same in memory; the second transaction is rolled back after its entries have been
written. -/
def inMemoryActions : List InMemoryAction × List InMemoryAction :=
  ([.enqueue [⟨[], [7]⟩, ⟨[], [8]⟩], .commitTx, .next, .next, .next],
    [.enqueue [⟨[], [9]⟩], .commitTx, .next, .next, .rollbackTx, .next, .next])

/-- **A commit and a rollback**, with either queue: the entries of the first transaction are there,
and those of the second are not. -/
theorem atomic_run_rolledBack :
    (∃ s, Run InMemoryState.step InMemoryState.Allowed (.init .empty)
        (.startTx 1 :: inMemoryActions.1 ++ .startTx 2 :: inMemoryActions.2) s ∧
      s.rows = s.spec.rows ∧ s.rows ⟨1, 1⟩ = some ⟨[], [8]⟩ ∧ s.rows ⟨2, 0⟩ = none) ∧
    ∃ s, Run HBaseState.step (fun s a ↦ s.Allowed a ∧ s.KeepsNothing a) (.init fun _ ↦ none)
        (.startTx 1 :: commitActions ++ .startTx 2 :: rollbackActions) s ∧
      s.rows = s.spec.rows ∧ s.rows ⟨1, 1⟩ = some ⟨[], [8]⟩ ∧ s.rows ⟨2, 0⟩ = none := by
  obtain ⟨hmemory, hhbase⟩ := atomic_run .empty fun _ ↦ none
  constructor
  · obtain ⟨t, t', s, ht, hfresh, ht', hs, hidle, hkept, hgone⟩ :
        ∃ t t' s, exec InMemoryState.step (fun _ a ↦ a.plain = true)
            { InMemoryState.init .empty with
              producer := ⟨[], some 1⟩, spec := ⟨fun _ ↦ none, [1], []⟩ }
            inMemoryActions.1 = some t ∧
          (t.spec.started = [1] ∧ ∀ counter, t.spec.rows ⟨2, counter⟩ = none) ∧
          t.step (.startTx 2) = some t' ∧
          exec InMemoryState.step (fun _ a ↦ a.plain = true) t' inMemoryActions.2 = some s ∧
          s.call = .idle ∧ s.rows ⟨1, 1⟩ = some ⟨[], [8]⟩ ∧ s.rows ⟨2, 0⟩ = none :=
      ⟨_, _, _, rfl, ⟨rfl, fun _ ↦ rfl⟩, rfl, rfl, rfl, rfl, rfl⟩
    have hplain {s : InMemoryState} {a : InMemoryAction} : a.plain = true → s.Allowed a :=
      InMemoryState.allowed_of_plain
    have hfirst : (InMemoryState.init .empty).Allowed (.startTx 1) :=
      ⟨List.not_mem_nil, fun _ ↦ rfl⟩
    have hstart : t.Allowed (.startTx 2) := ⟨by simp [hfresh.1], hfresh.2⟩
    have hrun := (((Run.single hfirst rfl).append
      ((run_of_exec ht).mono fun _ _ ↦ hplain)).snoc hstart ht').append
        ((run_of_exec hs).mono fun _ _ ↦ hplain)
    exact ⟨s, hrun, hmemory _ s hrun hidle, hkept, hgone⟩
  · obtain ⟨t, t', s, ht, hfresh, ht', hs, hidle, hfailed, hkept, hgone⟩ :
        ∃ t t' s, exec HBaseState.step (fun s a ↦ a.plain = true ∧ s.KeepsNothing a) startedState
            commitActions = some t ∧
          (t.failed = false ∧ t.spec.started = [1] ∧ ∀ counter, t.spec.rows ⟨2, counter⟩ = none) ∧
          t.step (.startTx 2) = some t' ∧
          exec HBaseState.step (fun s a ↦ a.plain = true ∧ s.KeepsNothing a)
            t' rollbackActions = some s ∧
          s.call = .idle ∧ s.failed = false ∧ s.rows ⟨1, 1⟩ = some ⟨[], [8]⟩ ∧
            s.rows ⟨2, 0⟩ = none :=
      ⟨_, _, _, rfl, ⟨rfl, rfl, fun _ ↦ rfl⟩, rfl, rfl, rfl, rfl, rfl, rfl⟩
    have hplain {s : HBaseState} {a : HBaseAction} (h : a.plain = true ∧ s.KeepsNothing a) :
        s.Allowed a ∧ s.KeepsNothing a := ⟨HBaseState.allowed_of_plain h.1, h.2⟩
    have hstart : t.Allowed (.startTx 2) :=
      ⟨hfresh.1, by simp [hfresh.2.1], hfresh.2.2⟩
    have hrun := (((Run.single ⟨allowed_startTx, trivial⟩ rfl).append
      ((run_of_exec ht).mono fun _ _ ↦ hplain)).snoc ⟨hstart, trivial⟩ ht').append
        ((run_of_exec hs).mono fun _ _ ↦ hplain)
    exact ⟨s, hrun, hhbase _ s hrun hidle hfailed, hkept, hgone⟩

/-- A put is refused when the transaction commits, and made when the rollback flushes the buffer. -/
theorem not_atomic_kept :
    ¬((∀ (queue : InMemoryQueue) (actions : List InMemoryAction) (s : InMemoryState),
        Run InMemoryState.step InMemoryState.Allowed (.init queue) actions s → s.Atomic) ∧
      ∀ (rows : Rows) (actions : List HBaseAction) (s : HBaseState),
        Run HBaseState.step HBaseState.Allowed (.init rows) actions s → s.Atomic) := by
  rintro ⟨-, h⟩
  have hstart : Run HBaseState.step HBaseState.Allowed (.init fun _ ↦ none) [.startTx 1]
    startedState :=
    Run.single allowed_startTx rfl
  obtain ⟨s, hrun, hidle, hfailed, hne⟩ :=
    exists_run_of_exec HBaseState.step (fun _ a ↦ a.plain = true) startedState
    [.enqueue [⟨[], [7]⟩], .commitTx, .finish fun _ ↦ true, .rollbackTx, .write 0,
      .finish fun _ ↦ true, .write 0, .finish fun _ ↦ true]
    (fun s ↦ s.call = .idle ∧ s.failed = false ∧ s.rows ⟨1, 0⟩ ≠ s.spec.rows ⟨1, 0⟩) (by decide)
  have hallowed := hstart.append (hrun.mono fun _ _ hplain ↦ HBaseState.allowed_of_plain hplain)
  exact hne (congrFun (h _ _ _ hallowed hidle hfailed) ⟨1, 0⟩)

end Tigon.QueueProducer
