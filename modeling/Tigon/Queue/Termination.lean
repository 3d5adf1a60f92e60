import Tigon.Queue.NoLoss

/-!
# Calls of `dequeue` come to an end

A call of `dequeue` goes through rounds of fetching and claiming for as long as a round brings
something.  It sees a snapshot, so there is a bound on what there is to bring: the entries that are
cached, and the visible rows of the table that the consumer may take (`untaken`).  An entry that
cannot be claimed is dropped and may come back, but only once: it was fetched before the consumer
claimed it, and comes back with the state it has now (`stale`).

`callSteps` bounds the number of steps the call has yet to make.  It is lowered by every step of
the call, and raised by no step of another party (`callSteps_step`).

Instances that are gone are the exception.  An entry that one of them has claimed is fetched,
cannot be claimed, is dropped, and fetched again; `Settled` says that there is none.
-/

set_option autoImplicit false

open Mvcc

namespace Tigon
namespace State

open Consumer SimpleQueueEntry

variable {groups : Groups} {s s' : State} {c : ConsumerId} {r : Row} {tx : Transaction}

/-! ## Instances that are gone -/

/-- Where entries are claimed, those that are not processed are claimed by instances that are
there. -/
def Settled (groups : Groups) (s : State) (c : ConsumerId) : Prop :=
  mustClaim (groups.consumerConfig c) → ∀ r st, s.Live r → s.table.state c.1 r = some st →
    ¬ s.Processed c.1 r → st.instanceId < (groups.config c.1).groupSize

/-- A state was there before, or it was written by an instance that is there. -/
theorem state_step {a : Action} {g : Nat} {st : StateContent} (hi : s.Inv groups)
    (h : s.step groups a = some s') (hst : s'.table.state g r = some st) :
    s.table.state g r = some st ∨ groups.Has (g, st.instanceId) := by
  by_cases hc : Concerns (g, st.instanceId) a
  · have hact : s.phase (g, st.instanceId) ≠ .idle → groups.Has (g, st.instanceId) := by
      intro hidle
      obtain ⟨tx, -, ha⟩ := (hi.session _).active hidle
      exact ha.has
    cases a with
    | begin tx short participants =>
      obtain ⟨-, -, -, m, -, rfl⟩ := begin_eq_some h
      exact .inl hst
    | dequeue c' n =>
      obtain rfl : c' = _ := hc
      simp only [step, dequeue] at h
      split at h
      · rename_i hph
        exact .inr (hact (by rw [hph.1]; simp))
      · exact absurd h (by simp)
    | fetch c' =>
      obtain rfl : c' = _ := hc
      obtain ⟨n, tx, hph, -⟩ := fetch_eq_some h
      exact .inr (hact (by rw [hph]; simp))
    | claim c' =>
      obtain rfl : c' = _ := hc
      obtain ⟨n, todo, tx, hph, -⟩ := claim_eq_some h
      exact .inr (hact (by rw [hph]; simp))
    | commitTx c' =>
      obtain rfl : c' = _ := hc
      obtain ⟨tx, hph, -⟩ := commitTx_eq_some h
      exact .inr (hact (by rw [hph]; simp))
    | postTxCommit c' saved =>
      obtain rfl : c' = _ := hc
      obtain ⟨tx, hph, -⟩ := postTxCommit_eq_some h
      exact .inr (hact (by rw [hph]; simp))
    | rollbackTx c' =>
      obtain rfl : c' = _ := hc
      obtain ⟨tx, -, hidle, -⟩ := rollbackTx_eq_some h
      exact .inr (hact hidle)
    | restart c' close =>
      obtain rfl := Option.some_inj.mp h
      exact .inl hst
    | _ => exact absurd hc id
  · exact .inl ((quiet_step hi h hc).state hst rfl)

theorem settled_step {a : Action} (hi : s.Inv groups) (hs : s.Settled groups c)
    (h : s.step groups a = some s') : s'.Settled groups c := by
  intro hm r st hlive hst hnp
  rcases state_step hi h hst with hold | hhas
  · have hlive := (stable_step hi h).live_of (hi.state_committed hold) hlive
    refine hs hm r st hlive hold fun ⟨st', hst', hproc, hcom⟩ ↦ hnp ?_
    obtain rfl := Option.some_inj.mp (hold.symm.trans hst')
    exact ⟨st, hst, hproc, (stable_step hi h).committed hcom⟩
  · exact hhas.2

theorem settled_init (groups : Groups) (c : ConsumerId) : State.init.Settled groups c :=
  fun _ _ _ _ hst ↦ absurd hst (by simp [init, Table.empty])

/-! ## What is left to do -/

/-- The consumer may take the row, as far as claims go. -/
def Free (groups : Groups) (s : State) (c : ConsumerId) (r : Row) : Prop :=
  mustClaim (groups.consumerConfig c) → ∀ st ∈ s.table.state c.1 r, st.instanceId = c.2

instance (groups : Groups) (s : State) (c : ConsumerId) (r : Row) :
    Decidable (s.Free groups c r) := by
  unfold Free; infer_instance

/-- The entry will be claimed, although the consumer has claimed it, in an earlier transaction. -/
def Stale (groups : Groups) (s : State) (c : ConsumerId) (tx : Transaction)
    (x : SimpleQueueEntry) : Prop :=
  wantsClaim (groups.consumerConfig c) x ∧ ∃ st ∈ s.table.state c.1 x.rowKey,
    st.instanceId = c.2 ∧ st.writePointer ≠ tx.writePointer

instance (groups : Groups) (s : State) (c : ConsumerId) (tx : Transaction)
    (x : SimpleQueueEntry) : Decidable (s.Stale groups c tx x) := by
  unfold Stale; infer_instance

/-- The rows that can still become consuming entries. -/
def untaken (groups : Groups) (s : State) (c : ConsumerId) (tx : Transaction) : Finset Row :=
  ((s.consumer c).cachedRows.toFinset ∪ s.table.rows.toFinset.filter fun r ↦
    tx.isVisible r.writePointer = true ∧ s.Free groups c r) \ (s.consumer c).consumingRows.toFinset

/-- The entries the consumer has that can still be dropped and come back. -/
def stale (groups : Groups) (s : State) (c : ConsumerId) (tx : Transaction) : Finset Row :=
  ((((s.consumer c).entryCache ++ (s.consumer c).consumingEntries).filter fun x ↦
    s.Stale groups c tx x).map rowKey).toFinset

theorem mem_untaken : r ∈ s.untaken groups c tx ↔ (r ∈ (s.consumer c).cachedRows ∨
    (r ∈ s.table.rows ∧ tx.isVisible r.writePointer = true ∧ s.Free groups c r)) ∧
      r ∉ (s.consumer c).consumingRows := by
  simp [untaken]

theorem mem_stale : r ∈ s.stale groups c tx ↔ ∃ x, (x ∈ (s.consumer c).entryCache ∨
    x ∈ (s.consumer c).consumingEntries) ∧ s.Stale groups c tx x ∧ x.rowKey = r := by
  simp only [stale, List.mem_toFinset, List.mem_map, List.mem_filter, List.mem_append,
    decide_eq_true_eq, and_assoc]

/-- The rounds that may still bring something. -/
def rounds (groups : Groups) (s : State) (c : ConsumerId) (tx : Transaction) : Nat :=
  (s.untaken groups c tx).card + (s.stale groups c tx).card

/-- The number of steps a call of `dequeue` has yet to make, at most. -/
def callSteps (groups : Groups) (s : State) (c : ConsumerId) : Nat :=
  match s.phase c, (s.consumer c).transaction with
  | .fetching maxBatchSize, some tx => s.rounds groups c tx * (maxBatchSize + 2) + 1
  | .claiming maxBatchSize todo, some tx =>
    s.rounds groups c tx * (maxBatchSize + 2) + 1 + (todo.length + 1)
  | _, _ => 0

/-- The steps of a call. -/
def isCallStep (c : ConsumerId) : Action → Bool
  | .fetch c' => c' = c
  | .claim c' => c' = c
  | _ => false

/-! ## Fetching -/

/-- What a scan brings in, the consumer may take, and it will not be dropped. -/
theorem free_of_fresh (hi : s.Inv groups) (ha : s.Active groups c tx) (hs : s.Settled groups c)
    {start : Row} {x : SimpleQueueEntry}
    (hx : Fresh (groups.consumerConfig c) s.table tx start x) :
    s.Free groups c x.rowKey ∧ ¬ s.Stale groups c tx x := by
  have hnp := not_processed_of_fresh hi ha hx
  have hlive : s.Live x.rowKey := hx.spec.1
  have hstate : x.state = s.table.state c.1 x.rowKey := hx.spec.2.2
  refine ⟨fun hm st hst ↦ ?_, fun ⟨hwant, st, hst, hown, _⟩ ↦ ?_⟩
  · obtain ⟨y, hy, hans, rfl⟩ := hx
    exact ((canConsume_yes hans).2 st (hstate.trans hst)).2.1 hm.1 (hs hm _ st hlive hst hnp)
  · have := hwant st (hstate.trans hst)
    rw [hown] at this
    exact absurd this (Nat.not_le.mpr ha.has.2)

/-- **A round that brings something leaves fewer rounds.** -/
theorem rounds_fetch (hi : s.Inv groups) (ha : s.Active groups c tx) (hs : s.Settled groups c)
    (ht : s'.table = s.table)
    (hf : Fetched (groups.consumerConfig c) s.table tx (s.consumer c) (s'.consumer c))
    (hnew : ∃ k ∈ (s'.consumer c).consumingRows, k ∉ (s.consumer c).consumingRows) :
    s'.rounds groups c tx < s.rounds groups c tx := by
  have hfree : ∀ r, s'.Free groups c r ↔ s.Free groups c r := fun r ↦ by rw [Free, Free, ht]
  have huntaken : ∀ {x : SimpleQueueEntry}, x ∈ (s.consumer c).entryCache ∨
      Fresh (groups.consumerConfig c) s.table tx (s.consumer c).scanStart x →
      x.rowKey ∈ (s.consumer c).cachedRows ∨ (x.rowKey ∈ s.table.rows ∧
        tx.isVisible x.rowKey.writePointer = true ∧ s.Free groups c x.rowKey) := by
    rintro x (hx | hx)
    · exact .inl (List.mem_map_of_mem hx)
    · exact .inr ⟨s.table.mem_rows.mpr hx.spec.1, hx.spec.2.1, (free_of_fresh hi ha hs hx).1⟩
  have hsub : s'.untaken groups c tx ⊆ s.untaken groups c tx := by
    intro r hr
    obtain ⟨hr, hnot⟩ := mem_untaken.mp hr
    refine mem_untaken.mpr ⟨?_, fun h ↦ hnot (hf.consuming_kept r h)⟩
    rcases hr with hr | ⟨hr, hvis, hfr⟩
    · obtain ⟨x, hx, rfl⟩ := List.mem_map.mp hr
      exact huntaken (hf.mem_cache x hx)
    · exact .inr ⟨ht ▸ hr, hvis, (hfree r).mp hfr⟩
  have hlt : (s'.untaken groups c tx).card < (s.untaken groups c tx).card := by
    obtain ⟨k, hk, hk'⟩ := hnew
    refine Finset.card_lt_card (Finset.ssubset_iff_of_subset hsub |>.mpr ⟨k, ?_, ?_⟩)
    · obtain ⟨x, hx, rfl⟩ := List.mem_map.mp hk
      refine mem_untaken.mpr ⟨huntaken ?_, hk'⟩
      refine (hf.mem_consuming x hx).resolve_left fun hx ↦ hk' (List.mem_map_of_mem hx)
    · exact fun h ↦ (mem_untaken.mp h).2 hk
  have hstale : (s'.stale groups c tx).card ≤ (s.stale groups c tx).card := by
    refine Finset.card_le_card fun r hr ↦ ?_
    obtain ⟨x, hx, hst, rfl⟩ := mem_stale.mp hr
    have hst : s.Stale groups c tx x := by rwa [Stale, ht] at hst
    refine mem_stale.mpr ⟨x, ?_, hst, rfl⟩
    rcases hx with hx | hx
    · exact .inl ((hf.mem_cache x hx).resolve_right fun hx ↦ (free_of_fresh hi ha hs hx).2 hst)
    · rcases hf.mem_consuming x hx with hx | hx | hx
      · exact .inr hx
      · exact .inl hx
      · exact absurd hst (free_of_fresh hi ha hs hx).2
  rw [rounds, rounds]
  omega

/-! ## Claiming -/

/-- A claim that succeeds leaves the consumer with the entry. -/
theorem rounds_claimed (hsess : s'.consumer c = s.consumer c)
    (hnone : s.table.state c.1 r = none)
    (ht : s'.table = s.table.setState c.1 [r]
      (some (encodeStateColumn (groups.consumerConfig c) tx .claimed))) :
    s'.rounds groups c tx ≤ s.rounds groups c tx := by
  have hcell : ∀ k, k ≠ r → s'.table.state c.1 k = s.table.state c.1 k := by
    intro k hk
    rw [ht]
    simp [Table.setState, hk]
  refine Nat.add_le_add (Finset.card_le_card fun k hk ↦ ?_) (Finset.card_le_card fun k hk ↦ ?_)
  · obtain ⟨hk, hnot⟩ := mem_untaken.mp hk
    rw [hsess] at hk hnot
    refine mem_untaken.mpr ⟨?_, hnot⟩
    rcases hk with hk | ⟨hk, hvis, hfree⟩
    · exact .inl hk
    refine .inr ⟨?_, hvis, ?_⟩
    · rw [ht] at hk
      exact hk
    · by_cases heq : k = r
      · rw [heq, Free, hnone]
        simp
      · rwa [Free, hcell k heq] at hfree
  · obtain ⟨x, hx, hst, rfl⟩ := mem_stale.mp hk
    rw [hsess] at hx
    refine mem_stale.mpr ⟨x, hx, ?_, rfl⟩
    by_cases heq : x.rowKey = r
    · -- what was claimed just now is of this transaction
      obtain ⟨-, st, hcell', -, hne⟩ := hst
      rw [ht, heq, setState_of_mem (List.mem_singleton_self r)] at hcell'
      obtain rfl := Option.some_inj.mp hcell'
      exact absurd rfl hne
    · rwa [Stale, hcell _ heq] at hst

/-- A claim that fails leads to another round only if the entry is stale, and then no more. -/
theorem rounds_drop (ha : s.Active groups c tx) (ht : s'.table = s.table)
    {x : SimpleQueueEntry} (hcons : s'.consumer c = (s.consumer c).drop x.rowKey)
    (hx : x ∈ (s.phase c).todo) (hwant : wantsClaim (groups.consumerConfig c) x)
    (hm : mustClaim (groups.consumerConfig c)) {st : StateContent}
    (hst : s.table.state c.1 x.rowKey = some st)
    (hok : st.instanceId = c.2 → st.writePointer ≠ tx.writePointer) :
    s'.rounds groups c tx ≤ s.rounds groups c tx := by
  have hx := ha.todo_consuming x hx
  have hmem : x.rowKey ∈ (s.consumer c).consumingRows := List.mem_map_of_mem hx
  have hcached : x.rowKey ∉ (s.consumer c).cachedRows := fun h ↦ ha.disjoint _ h hmem
  have hcache : (s'.consumer c).entryCache = (s.consumer c).entryCache := by rw [hcons]; rfl
  have hcachedRows : (s'.consumer c).cachedRows = (s.consumer c).cachedRows := by
    rw [cachedRows, cachedRows, hcache]
  have hconsRows : ∀ k, k ∈ (s'.consumer c).consumingRows ↔
      k ∈ (s.consumer c).consumingRows ∧ k ≠ x.rowKey := by
    intro k
    rw [hcons]
    exact SortedList.mem_keys_remove
  have huntaken : ∀ k ∈ s'.untaken groups c tx, k ≠ x.rowKey → k ∈ s.untaken groups c tx := by
    intro k hk hne
    obtain ⟨hk, hnot⟩ := mem_untaken.mp hk
    rw [hcachedRows, ht, Free, ht] at hk
    exact mem_untaken.mpr ⟨hk, fun h ↦ hnot ((hconsRows k).mpr ⟨h, hne⟩)⟩
  have hstale : ∀ k ∈ s'.stale groups c tx, k ∈ s.stale groups c tx ∧ k ≠ x.rowKey := by
    intro k hk
    obtain ⟨y, hy, hsy, rfl⟩ := mem_stale.mp hk
    rw [Stale, ht] at hsy
    rcases hy with hy | hy
    · rw [hcache] at hy
      exact ⟨mem_stale.mpr ⟨y, .inl hy, hsy, rfl⟩, fun heq ↦ hcached (heq ▸ List.mem_map_of_mem hy)⟩
    · rw [hcons] at hy
      obtain ⟨hy, hne⟩ := SortedList.mem_remove.mp hy
      exact ⟨mem_stale.mpr ⟨y, .inr hy, hsy, rfl⟩, hne⟩
  by_cases hown : st.instanceId = c.2
  · -- the entry can be fetched again, but it is no longer stale
    have h1 : (s'.untaken groups c tx).card ≤ (s.untaken groups c tx).card + 1 := by
      refine (Finset.card_le_card fun k hk ↦ ?_).trans
        (Finset.card_insert_le x.rowKey (s.untaken groups c tx))
      by_cases hne : k = x.rowKey
      · exact Finset.mem_insert.mpr (.inl hne)
      · exact Finset.mem_insert.mpr (.inr (huntaken k hk hne))
    have h2 : (s'.stale groups c tx).card < (s.stale groups c tx).card := by
      refine Finset.card_lt_card (Finset.ssubset_iff_of_subset (fun k hk ↦ (hstale k hk).1) |>.mpr
        ⟨x.rowKey, ?_, fun h ↦ (hstale _ h).2 rfl⟩)
      exact mem_stale.mpr ⟨x, .inr hx, ⟨hwant, st, hst, hown, hok hown⟩, rfl⟩
    rw [rounds, rounds]
    omega
  · -- the entry is another instance's, for good
    refine Nat.add_le_add (Finset.card_le_card fun k hk ↦ ?_)
      (Finset.card_le_card fun k hk ↦ (hstale k hk).1)
    refine huntaken k hk fun heq ↦ ?_
    obtain ⟨hk, -⟩ := mem_untaken.mp hk
    rw [heq, hcachedRows, Free, ht] at hk
    rcases hk with hk | ⟨-, -, hfree⟩
    · exact hcached hk
    · exact hown (hfree hm st hst)

/-! ## Every step -/

/-- What others do brings no more rounds. -/
theorem rounds_quiet {a : Action} (hi : s.Inv groups) (h : s.step groups a = some s')
    (hq : Quiet s s' c) (ha : s.Active groups c tx) :
    s'.rounds groups c tx ≤ s.rounds groups c tx := by
  have hstable := stable_step hi h
  have hcons : s'.consumer c = s.consumer c := by rw [consumer, hq.session]
  refine Nat.add_le_add (Finset.card_le_card fun r hr ↦ ?_) (Finset.card_le_card fun r hr ↦ ?_)
  · obtain ⟨hr, hnot⟩ := mem_untaken.mp hr
    rw [hcons] at hr hnot
    refine mem_untaken.mpr ⟨?_, hnot⟩
    rcases hr with hr | ⟨hr, hvis, hfree⟩
    · exact .inl hr
    have hlive : s'.Live r := s'.table.mem_rows.mp hr
    -- a row the transaction sees was committed before the step
    have hcom : s.manager.statusOf r.writePointer = some .committed := by
      obtain ⟨st, hinfo, hne⟩ := (inv_step hi h).entry hlive
      have hst : s'.manager.statusOf r.writePointer = some st := by simp [Manager.statusOf, hinfo]
      have hcom' : s'.manager.statusOf r.writePointer = some .committed := by
        rcases (sees_step h ha.sees).visible hvis hst with rfl | rfl
        · exact hst
        · exact absurd rfl hne
      rcases committed_of_step h hcom' with hcom | rfl
      · exact hcom
      · obtain ⟨-, -, m, hm, -⟩ := commit_eq_some h
        obtain ⟨i, hinfo, hcan, -⟩ := Manager.finish?_eq_some_iff.mp hm
        have hst : s.manager.statusOf r.writePointer = some i.status := by
          simp [Manager.statusOf, hinfo]
        rcases ha.sees.visible hvis hst with heq | heq
        · rw [hst, heq]
        · rw [heq] at hcan
          exact absurd hcan (by simp [Status.canBecome])
    refine .inr ⟨s.table.mem_rows.mpr (hstable.live_of hcom hlive), hvis, fun hm st hst ↦ ?_⟩
    obtain ⟨st', hst', heq⟩ := hstable.claimed hm hst hlive
    exact heq.symm.trans (hfree hm st' hst')
  · obtain ⟨x, hx, ⟨hwant, st, hst, hown, hne⟩, rfl⟩ := mem_stale.mp hr
    rw [hcons] at hx
    exact mem_stale.mpr ⟨x, hx, ⟨hwant, st, hq.state hst hown, hown, hne⟩, rfl⟩

/-- The consumer is in a call of `dequeue`. -/
def InCall (s : State) (c : ConsumerId) : Prop :=
  (∃ n, s.phase c = .fetching n) ∨ ∃ n todo, s.phase c = .claiming n todo

theorem callSteps_fetching {n : Nat} (hph : s.phase c = .fetching n)
    (htx : (s.consumer c).transaction = some tx) :
    s.callSteps groups c = s.rounds groups c tx * (n + 2) + 1 := by
  rw [callSteps, hph, htx]

theorem callSteps_claiming {n : Nat} {todo : List SimpleQueueEntry}
    (hph : s.phase c = .claiming n todo) (htx : (s.consumer c).transaction = some tx) :
    s.callSteps groups c = s.rounds groups c tx * (n + 2) + 1 + (todo.length + 1) := by
  rw [callSteps, hph, htx]

theorem callSteps_of_not_inCall (h : ¬ s.InCall c) : s.callSteps groups c = 0 := by
  rw [callSteps]
  split
  · rename_i n _ hph _
    exact absurd (.inl ⟨n, hph⟩) h
  · rename_i n todo _ hph _
    exact absurd (.inr ⟨n, todo, hph⟩) h
  · rfl

theorem callSteps_fetch (hi : s.Inv groups) (hs : s.Settled groups c)
    (h : s.fetch groups c = some s') : s'.callSteps groups c < s.callSteps groups c := by
  obtain ⟨n, tx, hph, htx, hcase⟩ := fetch_eq_some h
  obtain ⟨tx', htx', ha⟩ := (hi.session c).active (by rw [hph]; simp)
  obtain rfl := Option.some_inj.mp (htx.symm.trans htx')
  have hreturned : s'.phase c = .ready → s'.callSteps groups c < s.callSteps groups c := by
    intro hready
    rw [callSteps_of_not_inCall, callSteps_fetching hph htx]
    · omega
    · rintro (⟨n, h⟩ | ⟨n, todo, h⟩) <;> rw [hready] at h <;> exact absurd h (by simp)
  rcases hcase with ⟨hlt, heq⟩ | ⟨-, rfl⟩
  · set config := groups.consumerConfig c with hconfig
    set result := (s.consumer c).getEntries config s.table tx n with hresult
    have hf : Fetched config s.table tx (s.consumer c) result.2 :=
      getEntries_fetched config s.table tx (s.consumer c) n
    have hsess : s'.sessions c = afterFetch config n result.1 result.2 := by
      rw [heq]; exact setSession_same _
    have hcons : s'.consumer c = result.2 := by rw [consumer, hsess, afterFetch_consumer]
    have htable : s'.table = s.table := by rw [heq]; rfl
    by_cases htrue : result.1 = true
    · have hrounds : s'.rounds groups c tx < s.rounds groups c tx := by
        refine rounds_fetch hi ha hs htable ?_ ?_
        · rw [hcons]; exact hf
        · rw [hcons]; exact getEntries_eq_true hlt ha.disjoint htrue
      have htx'' : (s'.consumer c).transaction = some tx := by
        rw [hcons, hf.transaction]; exact htx
      have hlen : result.2.consumingEntries.length ≤ n := getEntries_length (Nat.le_of_lt hlt)
      have hmul : s'.rounds groups c tx * (n + 2) + (n + 2) ≤ s.rounds groups c tx * (n + 2) := by
        calc s'.rounds groups c tx * (n + 2) + (n + 2)
            = (s'.rounds groups c tx + 1) * (n + 2) := (Nat.succ_mul _ _).symm
          _ ≤ s.rounds groups c tx * (n + 2) := Nat.mul_le_mul_right _ hrounds
      rw [callSteps_fetching hph htx]
      by_cases hm : mustClaim config
      · have hph' : s'.phase c = .claiming n result.2.consumingEntries := by
          rw [phase, hsess, afterFetch, if_pos htrue, if_pos hm]
        rw [callSteps_claiming hph' htx'']
        omega
      · have hph' : s'.phase c = .fetching n := by
          rw [phase, hsess, afterFetch, if_pos htrue, if_neg hm]
        rw [callSteps_fetching hph' htx'']
        omega
    · exact hreturned (by rw [phase, hsess, afterFetch, if_neg htrue]; rfl)
  · exact hreturned (by simp [phase, setSession, returned])

theorem callSteps_claim (hi : s.Inv groups) (hok : s.ClaimOk groups c)
    (h : s.claim groups c = some s') : s'.callSteps groups c < s.callSteps groups c := by
  obtain ⟨n, todo, tx, hph, htx, hcase⟩ := claim_eq_some h
  obtain ⟨tx', htx', ha⟩ := (hi.session c).active (by rw [hph]; simp)
  obtain rfl := Option.some_inj.mp (htx.symm.trans htx')
  have hm := ha.mustClaim_of_claiming hph
  rw [callSteps_claiming hph htx]
  -- it is enough that the claim brings no more rounds
  have hless : ∀ rest : List SimpleQueueEntry, rest.length < todo.length →
      s'.phase c = .claiming n rest → (s'.consumer c).transaction = some tx →
      s'.rounds groups c tx ≤ s.rounds groups c tx →
      s'.callSteps groups c < s.rounds groups c tx * (n + 2) + 1 + (todo.length + 1) := by
    intro rest hlen hph' htx' hrounds
    have hmul := Nat.mul_le_mul_right (n + 2) hrounds
    rw [callSteps_claiming hph' htx']
    omega
  rcases hcase with ⟨-, rfl⟩ | ⟨entry, rest, rfl, ⟨-, rfl⟩ | ⟨-, hnone, rfl⟩ | ⟨hwant, hsome, rfl⟩⟩
  · have hph' : (s.setSession c { s.sessions c with phase := .fetching n }).phase c =
        .fetching n := by simp [phase, setSession]
    rw [callSteps_fetching hph']
    · have hrounds : (s.setSession c { s.sessions c with phase := .fetching n }).rounds
          groups c tx = s.rounds groups c tx := by
        simp [rounds, untaken, stale, Free, Stale, consumer, setSession]
      rw [hrounds]
      omega
    · simpa [consumer, setSession] using htx
  · refine hless rest (by simp) (by simp [phase, setSession])
      (by simpa [consumer, setSession] using htx) ?_
    apply le_of_eq
    simp [rounds, untaken, stale, Free, Stale, consumer, setSession]
  · refine hless rest (by simp) (by simp [phase, setSession])
      (by simpa [consumer, setSession] using htx) ?_
    exact rounds_claimed (r := entry.rowKey) (by simp [consumer, setSession]) hnone rfl
  · refine hless rest (by simp) (by simp [phase, setSession])
      (by simpa [consumer, setSession, drop] using htx) ?_
    obtain ⟨st, hst⟩ := Option.ne_none_iff_exists'.mp hsome
    refine rounds_drop ha rfl (x := entry) (by simp [consumer, setSession])
      (by rw [hph]; simp [Phase.todo]) hwant hm hst fun hown ↦ ?_
    rw [ClaimOk, hph, htx] at hok
    exact (hok hwant st hst hown).1

/-- **Every step of a call of `dequeue` brings it closer to its end, and no step of another party
takes it further away.** -/
theorem callSteps_step {a : Action} (hi : s.Inv groups) (hs : s.Settled groups c)
    (hcall : s.InCall c) (hok : LifetimeOk groups c s a) (h : s.step groups a = some s') :
    s'.callSteps groups c + (if isCallStep c a then 1 else 0) ≤ s.callSteps groups c := by
  have hidle : s.phase c ≠ .idle := by
    rcases hcall with ⟨n, h⟩ | ⟨n, todo, h⟩ <;> rw [h] <;> simp
  have hready : s.phase c ≠ .ready := by
    rcases hcall with ⟨n, h⟩ | ⟨n, todo, h⟩ <;> rw [h] <;> simp
  have hpers : s.phase c ≠ .persisted := by
    rcases hcall with ⟨n, h⟩ | ⟨n, todo, h⟩ <;> rw [h] <;> simp
  -- a step after which the consumer is between transactions
  have hend : s'.phase c = .idle → s'.callSteps groups c ≤ s.callSteps groups c := by
    intro hend
    rw [callSteps_of_not_inCall]
    · exact Nat.zero_le _
    · rintro (⟨n, h⟩ | ⟨n, todo, h⟩) <;> rw [hend] at h <;> exact absurd h (by simp)
  by_cases hc : Concerns c a
  · cases a with
    | begin tx short participants =>
      obtain ⟨-, -, hall, -⟩ := begin_eq_some h
      exact absurd (hall c hc).2 hidle
    | dequeue c' n =>
      obtain rfl : c' = c := hc
      simp only [step, dequeue] at h
      split at h
      · rename_i hph
        exact absurd hph.1 hready
      · exact absurd h (by simp)
    | fetch c' =>
      obtain rfl : c' = c := hc
      rw [if_pos (by simp [isCallStep])]
      exact callSteps_fetch hi hs h
    | claim c' =>
      obtain rfl : c' = c := hc
      rw [if_pos (by simp [isCallStep])]
      exact callSteps_claim hi (hok rfl) h
    | commitTx c' =>
      obtain rfl : c' = c := hc
      obtain ⟨tx, hph, -⟩ := commitTx_eq_some h
      exact absurd hph hready
    | postTxCommit c' saved =>
      obtain rfl : c' = c := hc
      obtain ⟨tx, hph, -⟩ := postTxCommit_eq_some h
      exact absurd hph hpers
    | rollbackTx c' =>
      obtain rfl : c' = c := hc
      obtain ⟨tx, -, -, -, rfl⟩ := rollbackTx_eq_some h
      exact hend (by simp [phase, setSession])
    | restart c' close =>
      obtain rfl : c' = c := hc
      obtain rfl := Option.some_inj.mp h
      exact hend (by simp [phase, setSession])
    | _ => exact absurd hc id
  · have hq := quiet_step hi h hc
    have hnot : isCallStep c a = false := by
      cases a with
      | fetch c' => simpa [isCallStep, Concerns] using hc
      | claim c' => simpa [isCallStep, Concerns] using hc
      | _ => rfl
    rw [if_neg (by simp [hnot]), Nat.add_zero]
    obtain ⟨tx, htx, ha⟩ := (hi.session c).active hidle
    have hmul := fun n ↦ Nat.mul_le_mul_right (n + 2) (rounds_quiet hi h hq ha)
    have htx' : (s'.consumer c).transaction = some tx := by rw [consumer, hq.session]; exact htx
    have hphase : s'.phase c = s.phase c := by rw [phase, hq.session]
    rcases hcall with ⟨n, hph⟩ | ⟨n, todo, hph⟩
    · rw [callSteps_fetching (hphase.trans hph) htx', callSteps_fetching hph htx]
      have := hmul n
      omega
    · rw [callSteps_claiming (hphase.trans hph) htx', callSteps_claiming hph htx]
      have := hmul n
      omega

/-- The next step of a call can always be taken. -/
theorem exists_callStep (hi : s.Inv groups) (hcall : s.InCall c) :
    ∃ a s', isCallStep c a = true ∧ s.step groups a = some s' := by
  rcases hcall with ⟨n, hph⟩ | ⟨n, todo, hph⟩
  · obtain ⟨tx, htx, -⟩ := (hi.session c).active (by rw [hph]; simp)
    refine ⟨.fetch c, ?_⟩
    simp only [step, fetch, hph, htx]
    split
    · exact ⟨_, by simp [isCallStep], rfl⟩
    · exact ⟨_, by simp [isCallStep], rfl⟩
  · obtain ⟨tx, htx, -⟩ := (hi.session c).active (by rw [hph]; simp)
    refine ⟨.claim c, ?_⟩
    cases todo with
    | nil =>
      simp only [step, claim, hph, htx]
      exact ⟨_, by simp [isCallStep], rfl⟩
    | cons entry rest =>
      simp only [step, claim, hph, htx]
      exact ⟨_, by simp [isCallStep], rfl⟩

/-- **A call of `dequeue` returns.**  However the steps of others come in between, a call makes no
more than `callSteps` steps, and until it has returned there is a step it can make. -/
theorem call_ends {as : List Action} (hi : s.Inv groups) (hs : s.Settled groups c)
    (h : Lts.Run (step groups) (fun s a ↦ s.InCall c ∧ LifetimeOk groups c s a) s as s') :
    as.countP (isCallStep c) + s'.callSteps groups c ≤ s.callSteps groups c ∧
      (s'.InCall c → ∃ a s'', isCallStep c a = true ∧ s'.step groups a = some s'') := by
  refine ⟨?_, fun hcall ↦ exists_callStep (inv_run hi h) hcall⟩
  exact h.countP_add_le (I := fun s ↦ s.Inv groups ∧ s.Settled groups c) (isCallStep c)
    (fun s ↦ s.callSteps groups c)
    (fun ⟨hi, hs⟩ _ hstep ↦ ⟨inv_step hi hstep, settled_step hi hs hstep⟩)
    (fun ⟨hi, hs⟩ ⟨hcall, hok⟩ hstep ↦ callSteps_step hi hs hcall hok hstep) ⟨hi, hs⟩

end State
end Tigon
