import Tigon.Queue.Stability

/-!
# Where a consumer starts

A consumer has three rows it may start from: the scan start row, where its next scan starts, the
start row it would begin with after that, and the start row in the state store.  Each is moved by
few actions (`rows_step`, `postTxCommit_step_rows`), and none of them ever passes a transaction that
may still commit (`behind_run`): the scan start row moves up to a row that is older than every
transaction in progress, and the others follow it.

The invariant of the table says nothing of these rows.  They are treated on their own, since it is
through them that a consumer loses an entry.
-/

set_option autoImplicit false

open Mvcc

namespace Tigon
namespace State

open Consumer SimpleQueueEntry

variable {groups : Groups} {s s' : State} {c : ConsumerId} {r : Row} {tx : Transaction}

/-- Nothing that may still be committed is before a row the consumer starts from. -/
def Behind (s : State) (c : ConsumerId) : Prop :=
  ∀ w, s.manager.Pending w → (s.consumer c).startRow ≤ ⟨w, 0⟩ ∧
    (s.consumer c).scanStart ≤ ⟨w, 0⟩ ∧ (s.startRows c).getD .zero ≤ ⟨w, 0⟩

/-- A row of a transaction is not before that transaction's first row. -/
theorem first_le (r : Row) : (⟨r.writePointer, 0⟩ : Row) ≤ r :=
  .inr ⟨rfl, Nat.zero_le _⟩

/-! ## What the consumer's functions do to the rows -/

/-- Wherever the scan start row moves to, that is before anything the transaction might not know
of. -/
theorem lt_of_advance {config : ConsumerConfig} {t : Table} {start row : Row} {y : Table.Scanned}
    (hs : Sees s.manager tx) (hy : y ∈ getScanner config t tx start)
    (hadv : Advance config tx y row) {w : Nat} (hlate : tx.Late w) : row.writePointer < w := by
  obtain ⟨-, -, -, hvis, -⟩ := mem_getScanner.mp hy
  have hread := (Transaction.isVisible_iff.mp hvis).1
  have hlt := hs.read
  rcases hadv with ⟨rfl, hfirst⟩ | ⟨rfl, hans⟩
  · rcases hlate with ⟨h1, -⟩ | h
    · omega
    · omega
  · have hfirst := (canConsume_noIncludingAllOlder hans).1
    show y.rowKey.writePointer < w
    rcases hlate with ⟨-, h2⟩ | h
    · omega
    · omega

theorem mem_of_floorKey {entries : List SimpleQueueEntry} {row key : Row}
    (h : floorKey entries row = some key) : key ∈ entries.map rowKey ∧ key ≤ row := by
  rw [floorKey] at h
  obtain ⟨h1, h2⟩ := List.mem_filter.mp (List.max?_mem h)
  exact ⟨h1, by simpa using h2⟩

/-- What `postTxCommit` does to the rows a consumer starts from: the start row stays, or moves to
the scan start row, or to a consumed entry before that. -/
theorem postTxCommit_rows (c : Consumer) :
    c.postTxCommit.entryCache = c.entryCache ∧ c.postTxCommit.scanStart = c.scanStart ∧
      (c.postTxCommit.startRow = c.startRow ∨ ∃ row, c.scanStartRow = some row ∧
        ((c.consumingEntries.isEmpty = true ∧ c.postTxCommit.startRow = row) ∨
          (c.consumingEntries.isEmpty = false ∧
            floorKey c.consumingEntries row = some c.postTxCommit.startRow))) := by
  rw [Consumer.postTxCommit]
  cases hs : c.scanStartRow with
  | none => exact ⟨rfl, rfl, .inl rfl⟩
  | some row =>
    dsimp only
    cases he : c.consumingEntries.isEmpty with
    | true => exact ⟨rfl, by simp [scanStart, hs], .inr ⟨row, rfl, .inl ⟨rfl, rfl⟩⟩⟩
    | false =>
      cases hf : floorKey c.consumingEntries row with
      | none => exact ⟨rfl, rfl, .inl rfl⟩
      | some key =>
        exact ⟨rfl, by simp [scanStart, hs], .inr ⟨row, rfl, .inr ⟨rfl, by rw [hf]; rfl⟩⟩⟩

theorem hbasePostTxCommit_rows (c : Consumer) (store : Option Row) (saved : Bool) :
    (c.hbasePostTxCommit store saved).1.entryCache = c.entryCache ∧
      (c.hbasePostTxCommit store saved).1.scanStart = c.scanStart ∧
      (c.hbasePostTxCommit store saved).1.startRow = c.postTxCommit.startRow ∧
      ((c.hbasePostTxCommit store saved).2 = store ∨
        (c.hbasePostTxCommit store saved).2 = some c.postTxCommit.startRow) := by
  obtain ⟨h1, h2, -⟩ := postTxCommit_rows c
  simp only [hbasePostTxCommit]
  split
  · exact ⟨h1, h2, rfl, .inr rfl⟩
  · exact ⟨h1, h2, rfl, .inl rfl⟩

theorem rollbackTx_rows (config : ConsumerConfig) (t : Table) (tx : Transaction) (c : Consumer) :
    (Consumer.rollbackTx config t tx c).1.startRow = c.startRow ∧
      (Consumer.rollbackTx config t tx c).1.scanStart = c.scanStart := by
  rw [Consumer.rollbackTx]
  split
  · exact ⟨rfl, rfl⟩
  · dsimp only
    split <;> exact ⟨rfl, rfl⟩

/-! ## What the actions do to the rows -/

/-- The start rows are moved by `postTxCommit` and by a restart, the scan start row by fetching and
by a restart. -/
theorem rows_step {a : Action} (hi : s.Inv groups) (h : s.step groups a = some s')
    (hpost : ∀ saved, a ≠ .postTxCommit c saved) (hrestart : ∀ close, a ≠ .restart c close) :
    (s'.consumer c).startRow = (s.consumer c).startRow ∧ s'.startRows c = s.startRows c ∧
      (a ≠ .fetch c → (s'.consumer c).scanStart = (s.consumer c).scanStart) := by
  by_cases hc : Concerns c a
  · cases a with
    | begin tx short participants =>
      obtain ⟨-, -, -, m, -, rfl⟩ := begin_eq_some h
      have hc : c ∈ participants := hc
      exact ⟨by simp [consumer, hc, startTx], rfl, fun _ ↦ by
        simp [consumer, hc, startTx, scanStart]⟩
    | dequeue c' n =>
      obtain rfl : c' = c := hc
      simp only [step, dequeue] at h
      split at h
      · obtain rfl := Option.some_inj.mp h
        exact ⟨by simp [consumer, setSession], rfl, fun _ ↦ by simp [consumer, setSession]⟩
      · exact absurd h (by simp)
    | fetch c' =>
      obtain rfl : c' = c := hc
      obtain ⟨n, tx, -, -, ⟨-, rfl⟩ | ⟨-, rfl⟩⟩ := fetch_eq_some h
      · have hf := getEntries_fetched (groups.consumerConfig c') s.table tx (s.consumer c') n
        refine ⟨?_, rfl, fun h ↦ absurd rfl h⟩
        simp only [consumer, setSession, Function.update_self, afterFetch_consumer]
        exact hf.startRow
      · exact ⟨by simp [consumer, setSession, returned], rfl, fun h ↦ absurd rfl h⟩
    | claim c' =>
      obtain rfl : c' = c := hc
      obtain ⟨n, todo, tx, -, -, ⟨-, rfl⟩ | ⟨_, _, -, ⟨-, rfl⟩ | ⟨-, -, rfl⟩ | ⟨-, -, rfl⟩⟩⟩ :=
        claim_eq_some h
      all_goals
        exact ⟨by simp [consumer, setSession, drop], rfl,
          fun _ ↦ by simp [consumer, setSession, drop, scanStart]⟩
    | commitTx c' =>
      obtain rfl : c' = c := hc
      obtain ⟨tx, -, -, rfl⟩ := commitTx_eq_some h
      exact ⟨by simp [consumer, setSession, commitTx_consumer], rfl, fun _ ↦ by
        simp [consumer, setSession, commitTx_consumer, scanStart]⟩
    | rollbackTx c' =>
      obtain rfl : c' = c := hc
      obtain ⟨tx, -, -, -, rfl⟩ := rollbackTx_eq_some h
      obtain ⟨h1, h2⟩ := rollbackTx_rows (groups.consumerConfig c') s.table tx (s.consumer c')
      refine ⟨?_, rfl, fun _ ↦ ?_⟩
      · simp only [consumer, setSession, Function.update_self]
        exact h1
      · simp only [consumer, setSession, Function.update_self]
        exact h2
    | postTxCommit c' saved =>
      exact absurd (congrArg (Action.postTxCommit · saved) hc) (hpost saved)
    | restart c' close => exact absurd (congrArg (Action.restart · close) hc) (hrestart close)
    | _ => exact absurd hc id
  · have hq := quiet_step hi h hc
    exact ⟨by rw [consumer, hq.session], hq.startRow, fun _ ↦ by rw [consumer, hq.session]⟩

/-- The row a consumer is created with when it is closed, or lost, now. -/
def restartRow (s : State) (c : ConsumerId) (close : Bool) : Row :=
  if close then (s.consumer c).startRow else (s.startRows c).getD .zero

theorem restart_rows {close : Bool} (h : s.restart c close = some s') :
    (s'.consumer c).startRow = s.restartRow c close ∧
      (s'.consumer c).scanStart = s.restartRow c close ∧
      (s'.startRows c).getD .zero = s.restartRow c close := by
  obtain rfl := Option.some_inj.mp h
  have hrow : (if close = true then some (s.consumer c).startRow else s.startRows c).getD .zero =
      s.restartRow c close := by
    rw [restartRow]
    split <;> rfl
  simp only [consumer, setSession, Function.update_self, create, scanStart, Option.getD_none, hrow]
  exact ⟨trivial, trivial, trivial⟩

theorem postTxCommit_step_rows {saved : Bool} (h : s.postTxCommit c saved = some s') :
    (s'.consumer c).startRow = (s.consumer c).postTxCommit.startRow ∧
      (s'.consumer c).scanStart = (s.consumer c).scanStart ∧
      (s'.startRows c = s.startRows c ∨
        s'.startRows c = some (s.consumer c).postTxCommit.startRow) := by
  obtain ⟨tx, -, -, -, rfl⟩ := postTxCommit_eq_some h
  obtain ⟨-, h2, h3, h4⟩ := hbasePostTxCommit_rows (s.consumer c) (s.startRows c) saved
  simp only [consumer, setSession, Function.update_self]
  exact ⟨h3, h2, h4⟩

/-- After fetching, the scan start row is where it was, or at a row the scan had reason to move it
to. -/
theorem scanStart_fetch (hi : s.Inv groups) (h : s.fetch groups c = some s') :
    (s'.consumer c).scanStart = (s.consumer c).scanStart ∨
      ∀ {w : Nat}, s.manager.Pending w → (s'.consumer c).scanStart ≤ ⟨w, 0⟩ := by
  obtain ⟨n, tx, hph, htx, ⟨-, rfl⟩ | ⟨-, rfl⟩⟩ := fetch_eq_some h
  · obtain ⟨tx', htx', ha⟩ := (hi.session c).active (by rw [hph]; simp)
    obtain rfl := Option.some_inj.mp (htx.symm.trans htx')
    have hf := getEntries_fetched (groups.consumerConfig c) s.table tx (s.consumer c) n
    simp only [consumer, setSession, Function.update_self, afterFetch_consumer]
    rcases hf.advance with heq | ⟨y, hy, hadv⟩
    · exact .inl heq
    · exact .inr fun hp ↦ .inl (lt_of_advance ha.sees hy hadv (ha.sees.pending hp))
  · exact .inl (by simp [consumer, setSession, returned])

/-- The start row stays before what may still be committed. -/
theorem postTxCommit_pending (hb : s.Behind c) {w : Nat} (hp : s.manager.Pending w) :
    (s.consumer c).postTxCommit.startRow ≤ ⟨w, 0⟩ := by
  obtain ⟨h1, h2, -⟩ := hb _ hp
  rcases (postTxCommit_rows (s.consumer c)).2.2 with heq | ⟨row, hrow, ⟨-, heq⟩ | ⟨-, hfloor⟩⟩
  · rw [heq]
    exact h1
  · rw [heq]
    rw [scanStart, hrow] at h2
    exact h2
  · rw [scanStart, hrow] at h2
    exact (mem_of_floorKey hfloor).2.trans h2

/-- **No step moves a row past what may still be committed.** -/
theorem behind_step {a : Action} (hi : s.Inv groups) (hb : s.Behind c)
    (h : s.step groups a = some s') : s'.Behind c := by
  intro w hp
  have hp := (stable_step hi h).pending hp
  obtain ⟨h1, h2, h3⟩ := hb _ hp
  by_cases hpost : ∃ saved, a = .postTxCommit c saved
  · obtain ⟨saved, rfl⟩ := hpost
    obtain ⟨e1, e2, e3⟩ := postTxCommit_step_rows h
    rw [e1, e2]
    refine ⟨postTxCommit_pending hb hp, h2, ?_⟩
    rcases e3 with e3 | e3
    · rw [e3]
      exact h3
    · rw [e3]
      exact postTxCommit_pending hb hp
  by_cases hrestart : ∃ close, a = .restart c close
  · obtain ⟨close, rfl⟩ := hrestart
    obtain ⟨e1, e2, e3⟩ := restart_rows h
    have hrow : s.restartRow c close ≤ ⟨w, 0⟩ := by
      rw [restartRow]
      split
      · exact h1
      · exact h3
    rw [e1, e2, e3]
    exact ⟨hrow, hrow, hrow⟩
  obtain ⟨e1, e2, e3⟩ := rows_step hi h (fun saved heq ↦ hpost ⟨saved, heq⟩)
    fun close heq ↦ hrestart ⟨close, heq⟩
  rw [e1, e2]
  refine ⟨h1, ?_, h3⟩
  by_cases hfetch : a = .fetch c
  · subst hfetch
    rcases scanStart_fetch hi h with heq | hle
    · rw [heq]
      exact h2
    · exact hle hp
  · rw [e3 hfetch]
    exact h2

theorem behind_init (c : ConsumerId) : State.init.Behind c :=
  fun _ _ ↦ ⟨Row.zero_le _, Row.zero_le _, Row.zero_le _⟩

/-- **Every run leaves the consumers behind what may still be committed.** -/
theorem behind_run {ok : State → Action → Prop} {as : List Action} (hi : s.Inv groups)
    (hb : s.Behind c) (h : Lts.Run (step groups) ok s as s') : s'.Behind c := by
  have := h.invariant (I := fun t ↦ t.Inv groups ∧ t.Behind c)
    (fun ⟨hi, hb⟩ _ hstep ↦ ⟨inv_step hi hstep, behind_step hi hb hstep⟩) ⟨hi, hb⟩
  exact this.2

end State
end Tigon
