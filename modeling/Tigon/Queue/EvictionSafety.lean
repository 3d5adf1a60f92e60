import Tigon.Queue.Lifetime

/-!
# Eviction and the consumers

The region server drops rows on the strength of start rows that were read into its cache at some
time before, and of state columns that it does not check for being committed.  Meanwhile the
consumers go on, are rolled back, closed and created anew.  What makes eviction safe all the same is
that a start row, once read, stays before everything that is due to its consumer: nothing becomes
due that was not due before, or whose transaction could not still commit at that time.

So a row that is dropped is due to nobody.  If it is beyond no start row, no consumer has it to
process; and if every group has a PROCESSED state on it, then the instance that wrote the state is
past the row by its cached start row, and so the state was committed.

* `CacheOk` — what a cached configuration says of the consumers, now as when it was read.
* `EvictOk` — the invariant of the queue with all its consumers and caches.
* `kept_until_processed` — **no entry is lost in any run**, with eviction at any time: what was
  committed has been processed by a committed transaction of the group, or it is due to a consumer
that will find it. -/

set_option autoImplicit false

open Mvcc

namespace Tigon

/-! ## What the cache is built from -/

namespace Groups

variable {groups : Groups} {c : ConsumerId}

theorem mem_consumers : c ∈ groups.consumers ↔ groups.Has c := by
  obtain ⟨g, i⟩ := c
  simp only [consumers, List.mem_flatMap, List.mem_map, List.mem_range, Prod.mk.injEq, Has]
  constructor
  · rintro ⟨g', hg, i', hi, rfl, rfl⟩
    exact ⟨hg, hi⟩
  · rintro ⟨hg, hi⟩
    exact ⟨g, hg, i, hi, rfl, rfl⟩

/-- Every group has a consumer. -/
theorem has_zero {g : Nat} (hg : g ∈ groups.ids) : groups.Has (g, 0) :=
  ⟨hg, (groups.config g).groupSize_pos⟩

end Groups

/-- The columns of a group that is counted already are passed over. -/
theorem countGroups_same (g : Nat) (block rest : List (ConsumerInstance × Option Row))
    (hblock : ∀ p ∈ block, p.1.1 = g) :
    countGroups (block ++ rest) (some g) = countGroups rest (some g) := by
  induction block with
  | nil => rfl
  | cons p block ih =>
    obtain ⟨⟨g', i⟩, row⟩ := p
    obtain rfl : g' = g := hblock _ (List.mem_cons_self ..)
    rw [List.cons_append, countGroups, if_pos rfl]
    exact ih fun p hp ↦ hblock p (List.mem_cons_of_mem _ hp)

/-- The walk over the columns counts the groups. -/
theorem countGroups_columns (size : Nat → Nat) (store : ConsumerId → Option Row) (ids : List Nat)
    (last : Option Nat) (hsorted : ids.Pairwise (· < ·)) (hpos : ∀ g, 0 < size g)
    (hlast : ∀ g ∈ ids, last ≠ some g) :
    countGroups ((ids.flatMap fun g ↦ (List.range (size g)).map fun i ↦ (g, i)).map fun c ↦
      (c, store c)) last = ids.length := by
  induction ids generalizing last with
  | nil => rfl
  | cons g ids ih =>
    obtain ⟨hlt, hsorted⟩ := List.pairwise_cons.mp hsorted
    obtain ⟨n, hn⟩ := Nat.exists_eq_succ_of_ne_zero (hpos g).ne'
    have htail := ih (some g) hsorted fun g' hg' heq ↦ by
      have := hlt g' hg'
      have := Option.some.inj heq
      omega
    rw [List.flatMap_cons, List.map_append, hn, List.range_succ_eq_map, List.map_cons,
      List.map_cons, List.cons_append, countGroups, if_neg (hlast g (List.mem_cons_self ..)),
        countGroups_same g, htail, List.length_cons]
    · push_cast
      ring
    · intro p hp
      obtain ⟨c, hc, rfl⟩ := List.mem_map.mp hp
      obtain ⟨i, -, rfl⟩ := List.mem_map.mp hc
      rfl

namespace State

open Consumer SimpleQueueEntry

variable {groups : Groups} {s s' : State} {c : ConsumerId} {r : Row} {config : QueueConsumerConfig}

/-! ## The invariant -/

/-- What a cached configuration says: it has a start row for every consumer, and these are before
everything that is due to the consumer or may still be committed. -/
structure CacheOk (groups : Groups) (s : State) (config : QueueConsumerConfig) : Prop where
  consumers : config.startRows.map Prod.fst = groups.consumers
  inhabited : groups.ids ≠ []
  numGroups : config.numGroups = groups.ids.length
  /-- The start rows are before everything that is due, ... -/
  due : ∀ {c : ConsumerId} {row : Option Row}, (c, row) ∈ config.startRows → ∀ {r : Row},
    s.Due groups c r → row.getD .zero ≤ r
  /-- ... and before everything that may still be committed. -/
  pending : ∀ {c : ConsumerId} {row : Option Row}, (c, row) ∈ config.startRows → ∀ {w : Nat},
    s.manager.Pending w → row.getD .zero ≤ ⟨w, 0⟩

/-- **The invariant** of the queue, all its consumers, and the caches. -/
structure EvictOk (groups : Groups) (s : State) : Prop where
  inv : s.Inv groups
  /-- No consumer has passed what is due to it, nor would one that starts in its place. -/
  behind : ∀ c, s.Behind c
  noLoss : ∀ c, groups.Has c → s.NoLoss groups c
  startOk : ∀ c, groups.Has c → s.StartOk groups c
  /-- States are of instances that the groups have. -/
  staffed : ∀ {g : Nat} {r : Row} {st : StateContent}, s.table.state g r = some st →
    groups.Has (g, st.instanceId)
  /-- What is marked PROCESSED by a committed transaction is in the log. -/
  logged : ∀ {g : Nat} {r : Row} {st : StateContent}, s.table.state g r = some st →
    st.state = .processed → s.manager.statusOf st.writePointer = some .committed →
      (st.writePointer, r) ∈ s.log g
  /-- What was read by a region server, now or earlier, may be relied on. -/
  configs : ∀ config ∈ s.configs, s.CacheOk groups config

/-- The condition under which no consumer loses anything, whenever it is closed. -/
def AllOk (groups : Groups) (s : State) (a : Action) : Prop :=
  ∀ c ∈ groups.consumers, AcrossOk groups c s a

instance (groups : Groups) (s : State) (a : Action) : Decidable (AllOk groups s a) :=
  inferInstanceAs (Decidable (∀ c ∈ groups.consumers, AcrossOk groups c s a))

/-! ## Caches grow old -/

/-- **What a cached configuration says stays true**: an entry that is due was due before, or its
transaction could still commit. -/
theorem CacheOk.of_step {a : Action} (hc : s.CacheOk groups config) (hi : s.Inv groups)
    (h : s.step groups a = some s') : s'.CacheOk groups config where
  consumers := hc.consumers
  inhabited := hc.inhabited
  numGroups := hc.numGroups
  due := fun hmem r hd ↦ by
    rcases hd.before hi h with hd | hp
    · exact hc.due hmem hd
    · exact (hc.pending hmem hp).trans (first_le r)
  pending := fun hmem w hp ↦ hc.pending hmem ((stable_step hi h).pending hp)

/-- What `updateCache` reads is true when it is read. -/
theorem cacheOk_updateCache (hb : ∀ c, s.Behind c) (hs : ∀ c, groups.Has c → s.StartOk groups c)
    (h : updateCache (s.columns groups) = some config) : s.CacheOk groups config := by
  rw [updateCache] at h
  split at h
  · exact absurd h (by simp)
  · rename_i hne
    obtain rfl := Option.some.inj h
    have hmem : ∀ {c : ConsumerId} {row : Option Row}, (c, row) ∈ s.columns groups →
        groups.Has c ∧ row = s.startRows c := by
      intro c row hcr
      obtain ⟨c', hc', heq⟩ := List.mem_map.mp hcr
      obtain ⟨rfl, rfl⟩ := Prod.mk.inj heq
      exact ⟨Groups.mem_consumers.mp hc', rfl⟩
    exact {
      consumers := by simp [columns, Function.comp_def]
      inhabited := fun hnil ↦ hne (by simp [columns, Groups.consumers, hnil])
      numGroups := countGroups_columns (fun g ↦ (groups.config g).groupSize) s.startRows groups.ids
        none groups.sorted (fun g ↦ (groups.config g).groupSize_pos) fun g _ ↦ by simp
      due := fun hcr r hd ↦ by
        obtain ⟨hhas, rfl⟩ := hmem hcr
        exact (hs _ hhas r hd).2
      pending := fun hcr w hp ↦ by
        obtain ⟨-, rfl⟩ := hmem hcr
        exact (hb _ w hp).2.2 }

/-- The caches of the region server are those it had, and the one it has just read. -/
theorem configs_step {a : Action} (h : s.step groups a = some s') (hmem : config ∈ s'.configs) :
    config ∈ s.configs ∨ updateCache (s.columns groups) = some config := by
  cases a with
  | refresh =>
    obtain rfl := Option.some.inj h
    rcases List.mem_append.mp hmem with hmem | hmem
    · exact .inl hmem
    · exact .inr (Option.mem_toList.mp hmem)
  | begin tx short participants =>
    obtain ⟨-, -, -, m, -, rfl⟩ := begin_eq_some h
    exact .inl hmem
  | persist w entries =>
    obtain ⟨t, -, rfl⟩ := edits_persist h
    exact .inl hmem
  | unpersist w =>
    obtain ⟨t, -, rfl⟩ := edits_unpersist h
    exact .inl hmem
  | evict config' r =>
    obtain ⟨t, -, rfl⟩ := edits_evict h
    exact .inl hmem
  | dequeue c n =>
    simp only [step, dequeue] at h
    split at h
    · obtain rfl := Option.some.inj h
      exact .inl hmem
    · exact absurd h (by simp)
  | fetch c =>
    obtain ⟨n, tx, -, -, ⟨-, rfl⟩ | ⟨-, rfl⟩⟩ := fetch_eq_some h
    · exact .inl hmem
    · exact .inl hmem
  | claim c =>
    obtain ⟨n, todo, tx, -, -, ⟨-, rfl⟩ | ⟨_, _, -, ⟨-, rfl⟩ | ⟨-, -, rfl⟩ | ⟨-, -, rfl⟩⟩⟩ :=
      claim_eq_some h
    all_goals exact .inl hmem
  | commitTx c =>
    obtain ⟨tx, -, -, rfl⟩ := commitTx_eq_some h
    exact .inl hmem
  | commit w =>
    obtain ⟨-, -, m, -, rfl⟩ := commit_eq_some h
    exact .inl hmem
  | postTxCommit c saved =>
    obtain ⟨tx, -, -, -, rfl⟩ := postTxCommit_eq_some h
    exact .inl hmem
  | rollbackTx c =>
    obtain ⟨tx, -, -, -, rfl⟩ := rollbackTx_eq_some h
    exact .inl hmem
  | abort w =>
    obtain ⟨-, -, m, -, rfl⟩ := abort_eq_some h
    exact .inl hmem
  | invalidate w =>
    obtain ⟨m, -, rfl⟩ := Option.map_eq_some_iff.mp h
    exact .inl hmem
  | restart c close =>
    obtain rfl := Option.some.inj h
    exact .inl hmem

/-! ## What is processed is in the log -/

/-- A state of a committed transaction was not written just now. -/
def CommittedBefore (s s' : State) : Prop :=
  ∀ g r st, s'.table.state g r = some st → s.manager.statusOf st.writePointer = some .committed →
    s.table.state g r = some st

theorem Writes.committedBefore {tx : Transaction} {rows : List Row} {st : Option StateContent}
    (hw : Writes groups s s' c tx rows st) : CommittedBefore s s' := by
  intro g r x hx hcom
  rw [hw.table] at hx
  rcases setState_cases s.table c.1 g r rows st with ⟨-, -, heq⟩ | heq
  · have hby := hw.writtenBy x (heq.symm.trans hx)
    exact absurd (hby.2 ▸ hcom) hw.open_
  · exact heq.symm.trans hx

/-- A consumer that is in a transaction is active in it. -/
theorem Inv.active_of (hi : s.Inv groups) {tx : Transaction}
    (htx : (s.consumer c).transaction = some tx) (hidle : s.phase c ≠ .idle) :
      s.Active groups c tx := by
  obtain ⟨tx', htx', ha⟩ := (hi.session c).active hidle
  obtain rfl := Option.some_inj.mp (htx.symm.trans htx')
  exact ha

theorem committedBefore_step {a : Action} (hi : s.Inv groups) (h : s.step groups a = some s') :
    CommittedBefore s s' := by
  cases a with
  | claim c =>
    obtain ⟨n, todo, tx, hph, htx, hcase⟩ := claim_eq_some h
    have ha := hi.active_of htx (by rw [hph]; simp)
    rcases hcase with ⟨rfl, rfl⟩ | ⟨entry, rest, rfl,
      ⟨hw, rfl⟩ | ⟨hw, hnone, rfl⟩ | ⟨hw, hsome, rfl⟩⟩
    · exact fun _ _ _ hst _ ↦ hst
    · exact fun _ _ _ hst _ ↦ hst
    · exact Writes.committedBefore (writes_claim ha hph hnone rfl rfl)
    · exact fun _ _ _ hst _ ↦ hst
  | commitTx c =>
    obtain ⟨tx, hph, htx, rfl⟩ := commitTx_eq_some h
    have ha := hi.active_of htx (by rw [hph]; simp)
    rw [commitTx_table]
    exact Writes.committedBefore (writes_commitTx ha hph rfl rfl)
  | rollbackTx c =>
    obtain ⟨tx, htx, hidle, hopen, rfl⟩ := rollbackTx_eq_some h
    have ha := hi.active_of htx hidle
    rw [rollbackTx_table]
    exact Writes.committedBefore (writes_rollbackTx ha hopen rfl rfl)
  | persist w entries =>
    obtain ⟨t, ht, rfl⟩ := edits_persist h
    exact fun g r st hst _ ↦ ht.state g r st hst
  | unpersist w =>
    obtain ⟨t, ht, rfl⟩ := edits_unpersist h
    exact fun g r st hst _ ↦ ht.state g r st hst
  | evict config r =>
    obtain ⟨t, ht, rfl⟩ := edits_evict h
    exact fun g r st hst _ ↦ ht.state g r st hst
  | begin tx short participants =>
    obtain ⟨-, -, -, m, -, rfl⟩ := begin_eq_some h
    exact fun _ _ _ hst _ ↦ hst
  | dequeue c n =>
    simp only [step, dequeue] at h
    split at h
    · obtain rfl := Option.some.inj h
      exact fun _ _ _ hst _ ↦ hst
    · exact absurd h (by simp)
  | fetch c =>
    obtain ⟨n, tx, -, -, ⟨-, rfl⟩ | ⟨-, rfl⟩⟩ := fetch_eq_some h
    · exact fun _ _ _ hst _ ↦ hst
    · exact fun _ _ _ hst _ ↦ hst
  | commit w =>
    obtain ⟨-, -, m, -, rfl⟩ := commit_eq_some h
    exact fun _ _ _ hst _ ↦ hst
  | postTxCommit c saved =>
    obtain ⟨tx, -, -, -, rfl⟩ := postTxCommit_eq_some h
    exact fun _ _ _ hst _ ↦ hst
  | abort w =>
    obtain ⟨-, -, m, -, rfl⟩ := abort_eq_some h
    exact fun _ _ _ hst _ ↦ hst
  | invalidate w =>
    obtain ⟨m, -, rfl⟩ := Option.map_eq_some_iff.mp h
    exact fun _ _ _ hst _ ↦ hst
  | restart c close =>
    obtain rfl := Option.some.inj h
    exact fun _ _ _ hst _ ↦ hst
  | refresh =>
    obtain rfl := Option.some.inj h
    exact fun _ _ _ hst _ ↦ hst

/-- A transaction that commits logs all that it has marked PROCESSED. -/
theorem logged_commit {w g : Nat} {st : StateContent} (hi : s.Inv groups) (h : s.commit w = some s')
    (hst : s.table.state g r = some st) (hp : st.state = .processed) (hw : st.writePointer = w) :
    (w, r) ∈ s'.log g := by
  obtain ⟨-, hpers, m, hm, rfl⟩ := commit_eq_some h
  obtain ⟨tx, -, htw, ha⟩ := hi.state_of_commit hpers hst hw
  obtain ⟨-, hmem⟩ := ha.processed_of hst rfl (hw.trans htw.symm) hp
  have hpart := hi.state_participant hst
  rw [hw] at hpart
  refine List.mem_append_right _ (List.mem_flatMap.mpr
    ⟨(g, st.instanceId), ?_, List.mem_map_of_mem hmem⟩)
  exact List.mem_filter.mpr ⟨hpart, by simp⟩

theorem logged_step {a : Action} (hi : s.Inv groups)
    (hlog : ∀ {g : Nat} {r : Row} {st : StateContent}, s.table.state g r = some st →
      st.state = .processed → s.manager.statusOf st.writePointer = some .committed →
        (st.writePointer, r) ∈ s.log g)
    (h : s.step groups a = some s') {g : Nat} {st : StateContent}
    (hst : s'.table.state g r = some st)
    (hp : st.state = .processed) (hcom : s'.manager.statusOf st.writePointer = some .committed) :
    (st.writePointer, r) ∈ s'.log g := by
  by_cases hold : s.manager.statusOf st.writePointer = some .committed
  · exact log_mono h (hlog (committedBefore_step hi h g r st hst hold) hp hold)
  · rcases committed_of_step h hcom with h' | rfl
    · exact absurd h' hold
    · have hst' : s.table.state g r = some st := by
        obtain ⟨-, -, m, -, rfl⟩ := commit_eq_some h
        exact hst
      exact logged_commit hi h hst' hp rfl

/-! ## Runs -/

theorem evictOk_init (groups : Groups) : State.init.EvictOk groups where
  inv := inv_init groups
  behind := behind_init
  noLoss := fun c _ ↦ (noLoss_init groups c).1
  startOk := fun c _ ↦ (noLoss_init groups c).2
  staffed := fun hst ↦ absurd hst (by simp [init, Table.empty])
  logged := fun hst ↦ absurd hst (by simp [init, Table.empty])
  configs := fun _ h ↦ absurd h List.not_mem_nil

/-- **One step.** -/
theorem evictOk_step {a : Action} (hs : s.EvictOk groups) (hok : AllOk groups s a)
    (h : s.step groups a = some s') : s'.EvictOk groups := by
  have hkept (c : ConsumerId) (hc : groups.Has c) : s'.NoLoss groups c ∧ s'.StartOk groups c :=
    startOk_step hs.inv (hs.behind c) (hs.noLoss c hc) (hs.startOk c hc)
      (hok c (Groups.mem_consumers.mpr hc)) h
  exact {
    inv := inv_step hs.inv h
    behind := fun c ↦ behind_step hs.inv (hs.behind c) h
    noLoss := fun c hc ↦ (hkept c hc).1
    startOk := fun c hc ↦ (hkept c hc).2
    staffed := fun hst ↦ by
      rcases state_step hs.inv h hst with hold | hhas
      · exact hs.staffed hold
      · exact hhas
    logged := logged_step hs.inv hs.logged h
    configs := fun config hmem ↦ by
      rcases configs_step h hmem with hold | hnew
      · exact (hs.configs config hold).of_step hs.inv h
      · exact (cacheOk_updateCache hs.behind hs.startOk hnew).of_step hs.inv h }

theorem evictOk_run {as : List Action} (hs : s.EvictOk groups)
    (h : Lts.Run (step groups) (AllOk groups) s as s') : s'.EvictOk groups :=
  h.invariant (I := EvictOk groups) evictOk_step hs

/-! ## What is left to be processed -/

/-- An entry that some consumer is entitled to, and that its group has not processed, is due to a
consumer of the group. -/
theorem EvictOk.due_of_owned (hs : s.EvictOk groups) (hhas : groups.Has c)
    (howns : s.Owned groups c r) (hcom : s.manager.statusOf r.writePointer = some .committed)
    (hno : ¬ ∃ w, (w, r) ∈ s.log c.1) :
    ∃ c', groups.Has c' ∧ s.Due groups c' r ∧ c'.1 = c.1 := by
  have hnp (g : Nat) (hg : g = c.1) : ¬ s.Processed g r := by
    rintro ⟨st, hst, hp, hst'⟩
    exact hno ⟨_, hg ▸ hs.logged hst hp hst'⟩
  cases hst : s.table.state c.1 r with
  | none =>
    exact ⟨c, hhas, ⟨hcom, howns, fun _ st h ↦ absurd (hst.symm.trans h) (by simp), hnp _ rfl⟩, rfl⟩
  | some st =>
    refine ⟨(c.1, st.instanceId), hs.staffed hst,
      ⟨hcom, hs.inv.state_owned hst howns.live, fun _ st' h ↦ ?_, hnp _ rfl⟩, rfl⟩
    rw [← Option.some.inj (hst.symm.trans h)]

/-! ## The decision -/

/-- All groups have consumed the row just when each of them has a PROCESSED state there, of an
instance whose cached start row is beyond the row. -/
theorem consumedGroups_spec (config : QueueConsumerConfig) (state : Nat → Option StateContent)
    (ids : List Nat) : consumedGroups config r
      (ids.filterMap fun g ↦ (state g).map fun st ↦ .stateColumn g st) ≤ ids.length ∧
      (consumedGroups config r (ids.filterMap fun g ↦ (state g).map fun st ↦ .stateColumn g st) =
        ids.length → ∀ g ∈ ids, ∃ st startRow, state g = some st ∧ st.state = .processed ∧
          config.getStartRow (g, st.instanceId) = some (some startRow) ∧ r < startRow) := by
  induction ids with
  | nil => exact ⟨le_rfl, fun _ _ hg ↦ absurd hg List.not_mem_nil⟩
  | cons g ids ih =>
    obtain ⟨hle, heq⟩ := ih
    have hlen : (((g :: ids).length : Nat) : Int) = ids.length + 1 := by simp
    cases hst : state g with
    | none =>
      rw [List.filterMap_cons_none (by rw [hst]; rfl), hlen]
      exact ⟨by omega, fun h ↦ by omega⟩
    | some st =>
      rw [List.filterMap_cons_some (by rw [hst]; rfl), hlen, consumedGroups]
      split
      · rename_i hp
        split
        · rename_i startRow hrow
          split
          · rename_i hbefore
            refine ⟨by omega, fun h ↦ ?_⟩
            have hall := heq (by omega)
            intro g' hg'
            rcases List.mem_cons.mp hg' with rfl | hg'
            · cases startRow with
              | none => exact absurd hbefore (by simp [beforeStartRow])
              | some row => exact ⟨st, row, hst, hp, hrow, of_decide_eq_true hbefore⟩
            · exact hall g' hg'
          · exact ⟨by omega, fun h ↦ by omega⟩
        · exact ⟨by omega, fun h ↦ by omega⟩
      · exact ⟨by omega, fun h ↦ by omega⟩

theorem mem_of_getStartRow {row : Option Row} (h : config.getStartRow c = some row) :
    (c, row) ∈ config.startRows := by
  obtain ⟨l₁, l₂, heq, -⟩ := List.lookup_eq_some_iff.mp h
  rw [heq]
  simp

/-- **Why a row is dropped**: all groups have consumed it, or it is before all start rows. -/
theorem CacheOk.of_canEvict (hc : s.CacheOk groups config)
    (h : canEvict config r (s.cells groups r) = true) :
      (∀ g ∈ groups.ids, ∃ st startRow, s.table.state g r = some st ∧ st.state = .processed ∧
      (((g, st.instanceId), some startRow) : ConsumerInstance × Option Row) ∈ config.startRows ∧
        r < startRow) ∨
    (∀ c, groups.Has c → ∃ startRow, (c, some startRow) ∈ config.startRows ∧ r < startRow) := by
  have hpos : 0 < groups.ids.length := List.length_pos_iff.mpr hc.inhabited
  have hnum := hc.numGroups
  cases he : s.table.entry r with
  | none =>
    rw [show s.cells groups r = [] by rw [State.cells, he], canEvict, if_neg (by omega),
      if_neg (by omega)] at h
    · exact absurd h (by simp)
    · simp
  | some e =>
    rw [show s.cells groups r = .dataColumn e.data :: .metaColumn e.hashKeys ::
      groups.ids.filterMap fun g ↦
      (s.table.state g r).map fun st ↦ .stateColumn g st by
        rw [State.cells, he], canEvict, if_neg (by omega),
      if_neg (by omega)] at h
    split at h
    · exact absurd h (by simp)
    · simp only [Cell.isDataColumn, Cell.isMetaColumn, Bool.not_true, Bool.false_eq_true, if_false,
        Bool.or_eq_true, decide_eq_true_eq] at h
      rcases h with h | h
      · left
        intro g hg
        rw [hnum] at h
        obtain ⟨st, startRow, hst, hp, hrow, hlt⟩ := (consumedGroups_spec config _ _).2 h g hg
        exact ⟨st, startRow, hst, hp, mem_of_getStartRow hrow, hlt⟩
      · right
        intro c hhas
        split at h
        · rename_i smallest hsmall
          obtain ⟨-, hmin⟩ := smallestStartRow_spec hsmall
          have hmem : c ∈ config.startRows.map Prod.fst := by
            rw [hc.consumers]
            exact Groups.mem_consumers.mpr hhas
          obtain ⟨⟨c', row⟩, hrow, rfl⟩ := List.mem_map.mp hmem
          have hle := hmin row (List.mem_map_of_mem hrow)
          cases smallest with
          | none => exact absurd h (by simp [beforeStartRow])
          | some smallest =>
            have hlt : r < smallest := of_decide_eq_true h
            cases row with
            | none => exact absurd (hlt.trans_le hle) (not_lt.mpr (Row.zero_le r))
            | some row => exact ⟨row, hrow, hlt.trans_le hle⟩
        · exact absurd h (by simp)

theorem not_committed_of_pending {m : Manager} {w : Nat} (hp : m.Pending w) : m.statusOf w ≠
    some .committed := by
  intro hcom
  rcases hp with hlt | hinfo
  · obtain ⟨i, hi, -⟩ := Option.map_eq_some_iff.mp hcom
    have := m.le_last (w := w) (by simp [hi])
    omega
  · rw [Manager.statusOf, hinfo] at hcom
    exact absurd hcom (by simp)

/-- **What is dropped is not needed any more**: its transaction cannot commit, and if it has, the
group of every consumer that is entitled to it has processed it. -/
theorem EvictOk.evicted (hs : s.EvictOk groups) (h : s.evict groups config r = some s') :
    ¬ s.manager.Pending r.writePointer ∧ ∀ c, groups.Has c → s.Owned groups c r →
      s.manager.statusOf r.writePointer = some .committed → ∃ w, (w, r) ∈ s.log c.1 := by
  rw [evict] at h
  split at h
  · rename_i hcond
    obtain ⟨hmem, -, hcan⟩ := hcond
    have hc := hs.configs config hmem
    obtain ⟨g, hg⟩ := List.exists_mem_of_ne_nil _ hc.inhabited
    rcases hc.of_canEvict hcan with hall | hall
    · refine ⟨fun hp ↦ ?_, fun c hhas howns hcom ↦ ?_⟩
      · obtain ⟨st, startRow, hst, -⟩ := hall g hg
        exact not_committed_of_pending hp (hs.inv.state_committed hst)
      · obtain ⟨st, startRow, hst, hp, hrow, hlt⟩ := hall c.1 hhas.1
        -- the instance that wrote the state is past the row, so the state is committed
        by_contra hno
        have hdue : s.Due groups (c.1, st.instanceId) r := {
          committed := hcom
          owned := hs.inv.state_owned hst howns.live
          free := fun _ st' hst' ↦ by rw [← Option.some.inj (hst.symm.trans hst')]
          unprocessed := by
            rintro ⟨st', hst', hp', hcom'⟩
            exact hno ⟨_, hs.logged hst' hp' hcom'⟩ }
        exact absurd (hc.due hrow hdue) (not_le.mpr hlt)
    · refine ⟨fun hp ↦ ?_, fun c hhas howns hcom ↦ ?_⟩
      · obtain ⟨startRow, hrow, hlt⟩ := hall (g, 0) (Groups.has_zero hg)
        exact absurd ((hc.pending hrow hp).trans (first_le r)) (not_le.mpr hlt)
      · by_contra hno
        obtain ⟨c', hhas', hdue, -⟩ := hs.due_of_owned hhas howns hcom hno
        obtain ⟨startRow, hrow, hlt⟩ := hall c' hhas'
        exact absurd (hc.due hrow hdue) (not_le.mpr hlt)
  · exact absurd h (by simp)

/-! ## No entry is lost -/

/-- The group of the consumer has processed the row, or the entry is still there, and the consumer
is entitled to it. -/
def Kept (groups : Groups) (s : State) (c : ConsumerId) (r : Row) : Prop :=
  (∃ w, (w, r) ∈ s.log c.1) ∨ (s.manager.statusOf r.writePointer = some .committed ∧
    s.Owned groups c r)

/-- **One step**: committed rows are only taken away by eviction, and what is dropped has been
processed. -/
theorem kept_step {a : Action} (hs : s.EvictOk groups) (hhas : groups.Has c)
    (hk : s.Kept groups c r) (h : s.step groups a = some s') : s'.Kept groups c r := by
  rcases hk with ⟨w, hw⟩ | ⟨hcom, howns⟩
  · exact .inl ⟨w, log_mono h hw⟩
  by_cases hl : s'.Live r
  · obtain ⟨e', he'⟩ := Option.ne_none_iff_exists'.mp hl
    have hstable := stable_step hs.inv h
    obtain ⟨e, he, ho⟩ := howns
    obtain rfl := Option.some.inj (he.symm.trans (hstable.entry hcom he'))
    exact .inr ⟨hstable.committed hcom, e, he', ho⟩
  · cases a with
    | evict config r' =>
      have hrr : r' = r := by
        by_contra hne
        simp only [step, evict] at h
        split at h
        · obtain rfl := Option.some.inj h
          exact hl (by simpa [Live, Ne.symm hne] using howns.live)
        · exact absurd h (by simp)
      subst hrr
      obtain ⟨w, hw⟩ := (hs.evicted h).2 c hhas howns hcom
      exact .inl ⟨w, log_mono (a := .evict config r') h hw⟩
    | _ => exact absurd (live_step h rfl hcom howns.live) hl

/-- **No entry is lost in any run**, whatever is rolled back, closed, created anew and evicted, if
the consumers meet the condition.  An entry that was committed at some time has been processed later
on by a committed transaction of the group, or it is due to a consumer of the group that has it, or
will come to it, also when it is closed and created anew. And what can be evicted is due to nobody,
and will not be. -/
theorem kept_until_processed (groups : Groups) (as bs : List Action) (s s' : State)
    (h : Lts.Run (step groups) (AllOk groups) .init as s)
    (h' : Lts.Run (step groups) (AllOk groups) s bs s') :
    (∀ r c, groups.Has c → s.Owned groups c r → s.manager.statusOf r.writePointer =
      some .committed → (∃ w, (w, r) ∈ s'.log c.1) ∨ ∃ c', groups.Has c' ∧ c'.1 = c.1 ∧
        s'.Due groups c' r ∧ (r ∈ (s'.consumer c').cachedRows ∨
          (s'.phase c' ≠ .idle ∧ r ∈ (s'.consumer c').consumingRows) ∨
          (s'.consumer c').scanStart ≤ r) ∧
        (s'.consumer c').startRow ≤ r ∧ (s'.startRows c').getD .zero ≤ r) ∧
    ∀ config r s₁, s'.evict groups config r = some s₁ →
      ¬ s'.manager.Pending r.writePointer ∧ ∀ c, groups.Has c → ¬ s'.Due groups c r := by
  have hs := evictOk_run (evictOk_init groups) h
  have hs' := evictOk_run hs h'
  refine ⟨fun r c hhas howns hcom ↦ ?_, fun config r s₁ hevict ↦ ?_⟩
  · have hk : s'.Kept groups c r := by
      refine (h'.invariant (I := fun t ↦ t.EvictOk groups ∧ t.Kept groups c r)
        ?_ ⟨hs, .inr ⟨hcom, howns⟩⟩).2
      rintro t u a ⟨ht, hk⟩ hok hstep
      exact ⟨evictOk_step ht hok hstep, kept_step ht hhas hk hstep⟩
    by_cases hlog : ∃ w, (w, r) ∈ s'.log c.1
    · exact .inl hlog
    · rcases hk with hlog' | ⟨hcom, howns⟩
      · exact absurd hlog' hlog
      · obtain ⟨c', hhas', hdue, hg⟩ := hs'.due_of_owned hhas howns hcom hlog
        exact .inr ⟨c', hhas', hg, hdue, (hs'.noLoss c' hhas').reach hdue,
          hs'.startOk c' hhas' r hdue⟩
  · obtain ⟨hnot, hprocessed⟩ := hs'.evicted hevict
    refine ⟨hnot, fun c hhas hdue ↦ ?_⟩
    obtain ⟨w, hw⟩ := hprocessed c hhas hdue.owned hdue.committed
    obtain ⟨hcom, -, hstate⟩ := hs'.inv.log hw
    obtain ⟨i, hst⟩ := hstate hdue.owned.live
    exact hdue.unprocessed ⟨_, hst, rfl, hcom⟩

/-- A producer commits an entry. -/
def writeOne : List Action :=
  [.begin ⟨0, 1, [], [], noTxInProgress⟩ true [], .persist 1 [⟨[], []⟩], .commit 1]

/-- The consumer takes the entry, finds nothing after it, and is closed; its start row is read, and
the entry is evicted. -/
def takeAndEvict : List Action :=
  [.begin ⟨1, 2, [], [], noTxInProgress⟩ true [(0, 0)], .dequeue (0, 0) 1, .fetch (0, 0),
    .fetch (0, 0), .commitTx (0, 0), .commit 2, .postTxCommit (0, 0) true,
    .begin ⟨2, 3, [], [], noTxInProgress⟩ true [(0, 0)], .dequeue (0, 0) 1, .fetch (0, 0),
      .commitTx (0, 0),
    .commit 3, .postTxCommit (0, 0) true, .restart (0, 0) true, .refresh,
      .evict ⟨[((0, 0), some ⟨1, 1⟩)], 1⟩ ⟨1, 0⟩]

/-- The entry is gone, and has been processed. -/
theorem kept_until_processed_takeAndEvict : ∃ s s',
    Lts.Run (step (fifoGroup 1 (by decide))) (AllOk (fifoGroup 1 (by decide))) .init writeOne s ∧
      Lts.Run (step (fifoGroup 1 (by decide))) (AllOk (fifoGroup 1 (by decide))) s takeAndEvict s' ∧
      s'.table.entry ⟨1, 0⟩ = none ∧ ∃ w, (w, ⟨1, 0⟩) ∈ s'.log 0 := by
  obtain ⟨s, hrun, hcom, howns, hexec⟩ := Lts.exists_run_of_exec (step (fifoGroup 1 (by decide)))
    (AllOk (fifoGroup 1 (by decide))) .init writeOne
    (fun s ↦ s.manager.statusOf 1 = some .committed ∧ s.Owned (fifoGroup 1 (by decide))
      (0, 0) ⟨1, 0⟩ ∧ ((Lts.exec (step (fifoGroup 1 (by decide))) (AllOk (fifoGroup 1 (by decide)))
        s takeAndEvict).any fun s' ↦
        decide (s'.table.entry ⟨1, 0⟩ = none)) = true) (by decide +kernel)
  obtain ⟨s', hrun', hgone⟩ := Lts.exists_run_of_exec (step (fifoGroup 1 (by decide)))
    (AllOk (fifoGroup 1 (by decide))) s takeAndEvict (fun s' ↦ s'.table.entry ⟨1, 0⟩ = none) hexec
  refine ⟨s, s', hrun, hrun', hgone, ?_⟩
  rcases (kept_until_processed _ _ _ s s' hrun hrun').1 ⟨1, 0⟩ (0, 0) (by decide) howns hcom with
    hw | ⟨c, -, -, hdue, -⟩
  · exact hw
  · exact absurd hgone hdue.owned.live

end State
end Tigon
