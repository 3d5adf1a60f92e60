import Tigon.Queue.NoLoss

/-!
# Closing a consumer and creating it anew

A consumer that is closed is created anew from the start row it persisted, and scans from there.
So nothing is lost if every entry that is due is at or beyond the start row, in memory and as
persisted.

`postTxCommit` does not see to that.  It moves the start row without looking at the entries that
were scanned, and are cached, but were not consumed: a transaction that consumes nothing moves it
to the scan start row, which may be beyond all of them (`exists_due_before_startRow`).  In runs in
which no cached entry is passed over, and no claim is made twice, the start row is where it should
be (`startRow_le_of_due`).
-/

set_option autoImplicit false

open Mvcc

namespace Tigon
namespace State

open Consumer SimpleQueueEntry

/-- **Nothing is lost across a restart.**  In a run in which the claim loop of `c` does not drop an
entry `c` has claimed, and `postTxCommit` does not move the start row past a cached entry, every
entry due to `c` is at or beyond the start row, in memory and as persisted; and when `c` is closed,
or lost, and created anew, its scans start at or before the entry and find it. -/
theorem startRow_le_of_due {groups : Groups} {c : ConsumerId} {as : List Action} {s : State}
    (h : Lts.Run (step groups) (AcrossOk groups c) .init as s) {r : Row}
    (hd : s.Due groups c r) :
    (s.consumer c).startRow ≤ r ∧ (s.startRows c).getD .zero ≤ r ∧
      ∀ (close : Bool) (s' : State), s.restart c close = some s' →
        ∀ tx : Transaction, tx.isVisible r.writePointer = true →
          ∃ x ∈ s'.table.scan c.1 (s'.consumer c).scanStart (getStopRowForTransaction tx),
            x.rowKey = r := by
  obtain ⟨hn, hs⟩ := noLoss_init groups c
  obtain ⟨-, hs⟩ := startOk_run (inv_init groups) (behind_init c) hn hs h
  obtain ⟨h1, h2⟩ := hs r hd
  refine ⟨h1, h2, fun close s' hrestart tx hvis ↦ ?_⟩
  obtain ⟨e, he, -⟩ := hd.owned
  have hstart : (s'.consumer c).scanStart ≤ r := by
    obtain rfl := Option.some_inj.mp hrestart
    simp only [consumer, setSession, Function.update_self, create, scanStart, Option.getD_none]
    cases close
    · exact h2
    · exact h1
  have htable : s'.table = s.table := by
    obtain rfl := Option.some_inj.mp hrestart
    rfl
  refine ⟨⟨r, e, s'.table.state c.1 r⟩, Table.mem_scan.mpr ⟨hstart, ?_, ?_, rfl⟩, rfl⟩
  · have := (Transaction.isVisible_iff.mp hvis).1
    simp only [Row.lt_def, getStopRowForTransaction]
    omega
  · rw [htable]
    exact he

/-- One FIFO group with one consumer. -/
def fifoOne : Groups := fifoGroup 1 (by decide)

/-- A producer commits two entries, the consumer takes the first and leaves the second in its
cache. -/
def takeFirst : List Action :=
  [.begin ⟨0, 1, [], [], noTxInProgress⟩ true [], .persist 1 [⟨[], []⟩, ⟨[], []⟩], .commit 1,
    .begin ⟨1, 2, [], [], noTxInProgress⟩ true [(0, 0)], .dequeue (0, 0) 1, .fetch (0, 0),
    .fetch (0, 0), .commitTx (0, 0), .commit 2, .postTxCommit (0, 0) true]

/-- The second entry is due, and the start row has not passed it. -/
theorem startRow_le_takeFirst : ∃ s, Lts.Run (step fifoOne) (AcrossOk fifoOne (0, 0)) .init
    takeFirst s ∧ s.Due fifoOne (0, 0) ⟨1, 1⟩ ∧ (s.consumer (0, 0)).startRow ≤ ⟨1, 1⟩ := by
  obtain ⟨s, hrun, hd⟩ := Lts.exists_run_of_exec (step fifoOne) (AcrossOk fifoOne (0, 0)) .init
    takeFirst (fun s ↦ s.Due fifoOne (0, 0) ⟨1, 1⟩) (by decide +kernel)
  exact ⟨s, hrun, hd, (startRow_le_of_due hrun hd).1⟩

/-- Two producers commit in the order opposite to the one they started in, so the consumer comes to
the entries of the first when it has already processed that of the second.  It takes one of the
two, and then has a transaction in which it takes nothing. -/
def idleAfterRescan : List Action :=
  [.begin ⟨0, 1, [], [], noTxInProgress⟩ true [], .begin ⟨0, 2, [], [1], 1⟩ true [],
    .persist 2 [⟨[], []⟩], .commit 2,
    .begin ⟨2, 3, [], [1], 1⟩ true [(0, 0)], .dequeue (0, 0) 1, .fetch (0, 0), .fetch (0, 0),
    .commitTx (0, 0), .commit 3, .postTxCommit (0, 0) true,
    .persist 1 [⟨[], []⟩, ⟨[], []⟩], .commit 1,
    .begin ⟨3, 4, [], [], noTxInProgress⟩ true [(0, 0)], .dequeue (0, 0) 1, .fetch (0, 0),
    .fetch (0, 0), .commitTx (0, 0), .commit 4, .postTxCommit (0, 0) true,
    .begin ⟨4, 5, [], [], noTxInProgress⟩ true [(0, 0)], .commitTx (0, 0), .commit 5,
    .postTxCommit (0, 0) true]

/-- **A transaction that consumes nothing can move the start row past an entry that is due.** -/
theorem exists_due_before_startRow : ∃ (as : List Action) (s : State) (r : Row),
    Lts.Run (step fifoOne) (fun _ _ ↦ True) .init as s ∧ s.Due fifoOne (0, 0) r ∧
      ¬ (s.consumer (0, 0)).startRow ≤ r := by
  obtain ⟨s, hrun, hd⟩ := Lts.exists_run_of_exec (step fifoOne) (fun _ _ ↦ True) .init
    idleAfterRescan
    (fun s ↦ s.Due fifoOne (0, 0) ⟨1, 1⟩ ∧ ¬ (s.consumer (0, 0)).startRow ≤ ⟨1, 1⟩)
    (by decide +kernel)
  exact ⟨_, s, _, hrun, hd⟩

end State
end Tigon
