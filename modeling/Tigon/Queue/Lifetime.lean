import Tigon.Queue.Eventually

/-!
# While a consumer lives

An entry that is due is in the cache, or among the consuming entries, or at or beyond the scan start
row, and what a transaction that is rolled back had returned is returned again
(`due_within_reach`), unless the claim loop drops an entry the consumer has claimed already.  It
does that to every entry it meets a second time, because it goes by the state the entry was fetched
with: in a second round of the same call, and after a rollback.  If the scan start row has passed
the entry, it is then lost to the consumer (`exists_due_lost`).
-/

set_option autoImplicit false

open Mvcc

namespace Tigon
namespace State

open Consumer SimpleQueueEntry

variable {groups : Groups} {s s' : State} {c : ConsumerId} {r : Row} {tx : Transaction}

/-! ## What a consumer has claimed -/

/-- States are written by instances that are there. -/
def Staffed (groups : Groups) (s : State) (g : Nat) : Prop :=
  ∀ r st, s.table.state g r = some st → st.instanceId < (groups.config g).groupSize

theorem staffed_run {ok : State → Action → Prop} {as : List Action} {g : Nat}
    (hi : s.Inv groups) (hs : s.Staffed groups g) (h : Lts.Run (step groups) ok s as s') :
    s'.Staffed groups g := by
  refine (h.invariant (I := fun s ↦ s.Inv groups ∧ s.Staffed groups g)
    (fun ⟨hi, hs⟩ _ hstep ↦ ⟨inv_step hi hstep, fun r st hst ↦ ?_⟩) ⟨hi, hs⟩).2
  rcases state_step hi hstep hst with hold | hhas
  · exact hs r st hold
  · exact hhas.2

/-- A committed transaction of the consumer has marked the row PROCESSED. -/
def ProcessedBy (s : State) (c : ConsumerId) (r : Row) : Prop :=
  ∃ st, s.table.state c.1 r = some st ∧ st.instanceId = c.2 ∧ st.state = .processed ∧
    s.manager.statusOf st.writePointer = some .committed

/-- What is the consumer's stays its own. -/
theorem Mine.of_step {a : Action} (hi : s.Inv groups) (h : s.step groups a = some s')
    (hok : NoEvict s a) (hr : s.manager.statusOf r.writePointer = some .committed)
    (hm : s.Mine groups c r) : s'.Mine groups c r := by
  have hlive := live_step h hok hr hm.live
  refine ⟨?_, fun hclaim ↦ ?_⟩
  · obtain ⟨e, he⟩ := Option.ne_none_iff_exists'.mp hlive
    obtain ⟨e', he', ho⟩ := hm.1
    obtain rfl := Option.some_inj.mp (((stable_step hi h).entry hr he).symm.trans he')
    exact ⟨e, he, ho⟩
  · obtain ⟨st, hst, hown⟩ := hm.2 hclaim
    obtain ⟨st', hst', heq⟩ := (stable_step hi h).claimed hclaim hst hlive
    exact ⟨st', hst', heq.trans hown⟩

/-- What is the consumer's is due to it, or it has processed it. -/
theorem Mine.due_or_processedBy (hi : s.Inv groups) (hs : s.Staffed groups c.1)
    (hhas : groups.Has c) (hr : s.manager.statusOf r.writePointer = some .committed)
    (hm : s.Mine groups c r) : s.Due groups c r ∨ s.ProcessedBy c r := by
  by_cases hp : s.Processed c.1 r
  · obtain ⟨st, hst, hproc, hcom⟩ := hp
    have hother : s.Mine groups (c.1, st.instanceId) r :=
      ⟨hi.state_owned hst hm.live, fun _ ↦ ⟨st, hst, rfl⟩⟩
    have heq : c = (c.1, st.instanceId) := hm.unique hhas ⟨hhas.1, hs r st hst⟩ rfl hother
    exact .inr ⟨st, hst, (congrArg Prod.snd heq).symm, hproc, hcom⟩
  · refine .inl ⟨hr, hm.1, fun hclaim st hst ↦ ?_, hp⟩
    obtain ⟨st', hst', hown⟩ := hm.2 hclaim
    obtain rfl := Option.some_inj.mp (hst.symm.trans hst')
    exact hown

/-! ## After a rollback -/

/-- What a consumer held is due to it after a rollback, and cached. -/
theorem Holding.due_of_rollbackTx (hi : s.Inv groups) (hu : s.Unevicted) {x : SimpleQueueEntry}
    (hx : s.Holding c x) (h : s.rollbackTx groups c = some s') :
    s'.Mine groups c x.rowKey ∧ s'.Due groups c x.rowKey ∧
      x.rowKey ∈ (s'.consumer c).cachedRows := by
  obtain ⟨tx, -, ha⟩ := (hi.session c).active hx.active
  have hr := (ha.consuming x hx.consuming).committed
  have hi' : s'.Inv groups := inv_rollbackTx hi h
  have hmine : s'.Mine groups c x.rowKey :=
    (hx.mine hi hu).2.of_step hi (a := .rollbackTx c) h rfl hr
  have hr' : s'.manager.statusOf x.rowKey.writePointer = some .committed :=
    (stable_step hi (a := .rollbackTx c) h).committed hr
  have hcached : x.rowKey ∈ (s'.consumer c).cachedRows := by
    obtain ⟨tx', -, -, -, rfl⟩ := rollbackTx_eq_some h
    simp only [consumer, setSession, Function.update_self, cachedRows, rollbackTx_entryCache]
    exact SortedList.mem_keys_putAll.mpr (.inl (List.mem_map_of_mem hx.consuming))
  have hnp := (hi'.session c).unprocessed _ hcached hmine
  refine ⟨hmine, ⟨hr', hmine.1, fun hclaim st hst ↦ ?_, hnp⟩, hcached⟩
  obtain ⟨st', hst', hown⟩ := hmine.2 hclaim
  obtain rfl := Option.some_inj.mp (hst.symm.trans hst')
  exact hown

/-- What is the consumer's is processed by it in the end, if it goes on dequeuing and committing. -/
theorem Mine.eventually_processedBy {ρ : Nat → State}
    (h : Lts.Trace (step groups) (ProgressOk groups c) ρ) (hp : (ρ 0).Progress groups c)
    (hs : (ρ 0).Staffed groups c.1) (hhas : groups.Has c) (hidle : (ρ 0).phase c = .idle)
    (hr : (ρ 0).manager.statusOf r.writePointer = some .committed)
    (hm : (ρ 0).Mine groups c r) :
    (∃ k, (ρ k).ProcessedBy c r) ∨ ∃ N, ∀ k, ((ρ k).cycles c).length ≤ N := by
  by_cases hever : ∃ k, (ρ k).ProcessedBy c r
  · exact .inl hever
  refine .inr (cycles_bounded h hp hhas hidle (r := r) fun k ↦ ?_)
  obtain ⟨as, hrun⟩ := h.run (Nat.zero_le k)
  obtain ⟨hi, hr, hm⟩ := hrun.invariant (I := fun s ↦ s.Inv groups ∧
      s.manager.statusOf r.writePointer = some .committed ∧ s.Mine groups c r)
    (fun ⟨hi, hr, hm⟩ hok hstep ↦ ⟨inv_step hi hstep, (stable_step hi hstep).committed hr,
      hm.of_step hi hstep hok.2 hr⟩) ⟨hp.inv, hr, hm⟩
  rcases hm.due_or_processedBy hi (staffed_run hp.inv hs hrun) hhas hr with hd | hpr
  · exact hd
  · exact absurd ⟨k, hpr⟩ hever

/-- **Nothing is lost while the consumer lives.**  In a run in which the claim loop of `c` does not
drop an entry `c` has claimed, unless a later scan finds it, and in which `c` is not created anew
beyond an entry that is due:

* every entry due to `c` is cached, or being consumed, or the next scan starts at or before it.

If moreover no row is evicted:

* what `c` held in a transaction that is rolled back is due and cached; and in every infinite run
  from there, `c` processes it in some transaction, unless only finitely many transactions of `c`
  commit in which a call of `dequeue` returned;
* a call of `dequeue` returns what it was asked for, or everything that is due and visible;
* a call of `dequeue` returns: there is a bound on the number of steps it makes, and it can always
  make one. -/
theorem due_within_reach (groups : Groups) (c : ConsumerId) (as : List Action) (s : State) :
    (Lts.Run (step groups) (LifetimeOk groups c) .init as s → ∀ r, s.Due groups c r →
      r ∈ (s.consumer c).cachedRows ∨ (s.phase c ≠ .idle ∧ r ∈ (s.consumer c).consumingRows) ∨
        (s.consumer c).scanStart ≤ r) ∧
    (Lts.Run (step groups) (ProgressOk groups c) .init as s →
      (∀ x s₁, s.Holding c x → s.rollbackTx groups c = some s₁ →
        s₁.Due groups c x.rowKey ∧ x.rowKey ∈ (s₁.consumer c).cachedRows ∧
        ∀ ρ : Nat → State, ρ 0 = s₁ → Lts.Trace (step groups) (ProgressOk groups c) ρ →
          (∃ k, (ρ k).ProcessedBy c x.rowKey) ∨ ∃ N, ∀ k, ((ρ k).cycles c).length ≤ N) ∧
      (∀ s₁, s.fetch groups c = some s₁ → s₁.phase c = .ready →
        ∃ n tx, s.phase c = .fetching n ∧ (s₁.consumer c).transaction = some tx ∧
          (n ≤ (s₁.consumer c).consumingEntries.length ∨ ∀ r, s.Due groups c r →
            tx.isVisible r.writePointer = true → r ∈ (s₁.consumer c).consumingRows)) ∧
      ∀ bs s₁, Lts.Run (step groups) (fun s a ↦ s.InCall c ∧ LifetimeOk groups c s a) s bs s₁ →
        bs.countP (isCallStep c) ≤ s.callSteps groups c ∧
          (s₁.InCall c → ∃ a s₂, isCallStep c a = true ∧ s₁.step groups a = some s₂)) := by
  refine ⟨fun h r hd ↦ ?_, fun h ↦ ?_⟩
  · exact (noLoss_run (inv_init groups) (behind_init c) (noLoss_init groups c).1 h).reach hd
  have hp := progress_run (progress_init groups c) h
  refine ⟨fun x s₁ hx hroll ↦ ?_, fun s₁ hfetch hready ↦ ?_, fun bs s₁ hcall ↦ ?_⟩
  · obtain ⟨hmine, hd, hcached⟩ := hx.due_of_rollbackTx hp.inv hp.unevicted hroll
    have hstep : s.step groups (.rollbackTx c) = some s₁ := hroll
    have hrun : Lts.Run (step groups) (ProgressOk groups c) s [.rollbackTx c] s₁ :=
      .single ⟨trivial, rfl⟩ hstep
    have hstaffed : s₁.Staffed groups c.1 := staffed_run (inv_init groups)
      (fun r st hst ↦ absurd hst (by simp [init, Table.empty])) (h.append hrun)
    have hidle : s₁.phase c = .idle := by
      obtain ⟨tx, -, -, -, rfl⟩ := rollbackTx_eq_some hroll
      simp [phase, setSession]
    refine ⟨hd, hcached, fun ρ hρ htrace ↦ ?_⟩
    subst hρ
    exact hmine.eventually_processedBy htrace (progress_run hp hrun) hstaffed
      (hx.mine hp.inv hp.unevicted).1 hidle hd.committed
  · obtain ⟨n, tx, hph, -, htx, hall⟩ := consuming_of_returned hp.inv hp.noLoss hfetch hready
    exact ⟨n, tx, hph, htx, hall⟩
  · obtain ⟨hle, hnext⟩ := call_ends hp.inv hp.settled hcall
    exact ⟨by omega, hnext⟩

/-- A producer commits two entries, and the first instance claims one of them. -/
def claimFirst : List Action :=
  [.begin ⟨0, 1, [], [], noTxInProgress⟩ true [], .persist 1 [⟨[], []⟩, ⟨[], []⟩], .commit 1,
    .begin ⟨1, 2, [], [], noTxInProgress⟩ true [(0, 0)], .dequeue (0, 0) 1, .fetch (0, 0),
    .claim (0, 0), .claim (0, 0), .fetch (0, 0)]

/-- The other entry is in the cache, and the first is due again when the transaction is rolled
back. -/
theorem due_within_reach_claimFirst : ∃ s s₁,
    Lts.Run (step fifoTwo) (ProgressOk fifoTwo (0, 0)) .init claimFirst s ∧
      s.rollbackTx fifoTwo (0, 0) = some s₁ ∧
      ((⟨1, 1⟩ : Row) ∈ (s.consumer (0, 0)).cachedRows ∨
        (s.phase (0, 0) ≠ .idle ∧ ⟨1, 1⟩ ∈ (s.consumer (0, 0)).consumingRows) ∨
        (s.consumer (0, 0)).scanStart ≤ ⟨1, 1⟩) ∧
      s₁.Due fifoTwo (0, 0) ⟨1, 0⟩ ∧ ⟨1, 0⟩ ∈ (s₁.consumer (0, 0)).cachedRows := by
  obtain ⟨s, hrun, hx, hd, hroll⟩ := Lts.exists_run_of_exec (step fifoTwo)
    (ProgressOk fifoTwo (0, 0)) .init claimFirst
    (fun s ↦ s.Holding (0, 0) ⟨⟨1, 0⟩, [], none⟩ ∧ s.Due fifoTwo (0, 0) ⟨1, 1⟩ ∧
      (s.rollbackTx fifoTwo (0, 0)).isSome) (by decide +kernel)
  obtain ⟨s₁, hroll⟩ := Option.isSome_iff_exists.mp hroll
  obtain ⟨hreach, hagain⟩ := due_within_reach fifoTwo (0, 0) claimFirst s
  obtain ⟨hd', hcached, -⟩ := (hagain hrun).1 _ s₁ hx hroll
  exact ⟨s, s₁, hrun, hroll, hreach (hrun.mono fun _ _ h ↦ h.1) _ hd, hd', hcached⟩

/-- The first instance processes the entry of a producer that started later than another.  When the
other has committed, the instance claims its entry, is rolled back, and tries again. -/
def claimTwice : List Action :=
  [.begin ⟨0, 1, [], [], noTxInProgress⟩ true [], .begin ⟨0, 2, [], [1], 1⟩ true [],
    .persist 2 [⟨[], []⟩], .commit 2,
    .begin ⟨2, 3, [], [1], 1⟩ true [(0, 0)], .dequeue (0, 0) 1, .fetch (0, 0), .claim (0, 0),
    .claim (0, 0), .fetch (0, 0), .commitTx (0, 0), .commit 3, .postTxCommit (0, 0) true,
    .persist 1 [⟨[], []⟩], .commit 1,
    .begin ⟨3, 4, [], [], noTxInProgress⟩ true [(0, 0)], .dequeue (0, 0) 1, .fetch (0, 0),
    .claim (0, 0), .claim (0, 0), .fetch (0, 0), .rollbackTx (0, 0), .abort 4,
    .begin ⟨4, 5, [], [], noTxInProgress⟩ true [(0, 0)], .dequeue (0, 0) 1, .fetch (0, 0),
    .claim (0, 0), .claim (0, 0), .fetch (0, 0)]

/-- **An entry that was claimed before a rollback can be out of reach after it.** -/
theorem exists_due_lost : ∃ (as : List Action) (s : State) (r : Row) (tx : Transaction),
    Lts.Run (step fifoTwo) NoEvict .init as s ∧ s.phase (0, 0) = .ready ∧
      (s.consumer (0, 0)).transaction = some tx ∧ tx.isVisible r.writePointer = true ∧
      s.Due fifoTwo (0, 0) r ∧ r ∉ (s.consumer (0, 0)).cachedRows ∧
      r ∉ (s.consumer (0, 0)).consumingRows ∧ ¬ (s.consumer (0, 0)).scanStart ≤ r := by
  obtain ⟨s, hrun, hs⟩ := Lts.exists_run_of_exec (step fifoTwo) NoEvict .init claimTwice
    (fun s ↦ s.phase (0, 0) = .ready ∧
      (s.consumer (0, 0)).transaction = some ⟨4, 5, [], [], noTxInProgress⟩ ∧
      s.Due fifoTwo (0, 0) ⟨1, 0⟩ ∧ ⟨1, 0⟩ ∉ (s.consumer (0, 0)).cachedRows ∧
      ⟨1, 0⟩ ∉ (s.consumer (0, 0)).consumingRows ∧ ¬ (s.consumer (0, 0)).scanStart ≤ ⟨1, 0⟩)
    (by decide +kernel)
  exact ⟨_, s, ⟨1, 0⟩, _, hrun, hs.1, hs.2.1, by decide, hs.2.2⟩

end State
end Tigon
