import Tigon.Queue.Invariant

/-!
# Every step keeps the invariant

One lemma for each action, and `inv_step` to put them together.  The steps fall into three kinds:

* those that change one consumer and leave the table alone (`Inv.of_session`);
* those that write the group's state column on rows of the consumer (`Writes.frame`,
  `Inv.of_writes`): claiming, `commitTx` and `rollbackTx`;
* those of producers, of the manager and of the region server.

Committing a transaction is a case of its own: it is what makes rows processed.
-/

set_option autoImplicit false

open Mvcc

namespace Tigon
namespace State

open Consumer SimpleQueueEntry Function List

variable {groups : Groups} {s s' : State} {c : ConsumerId} {tx : Transaction}

/-! ## Steps that leave the table alone -/

/-- A step that changes neither the manager nor the table nor who takes part in what is a step
nobody notices. -/
theorem Frame.of_eq (hm : s'.manager = s.manager) (ht : s'.table = s.table)
    (hc : s'.contexts = s.contexts) : Frame groups s s' c where
  committed := fun w ↦ by rw [hm]
  sees := fun h ↦ by rw [hm]; exact h
  entry := fun _ he ↦ by rw [← ht]; exact he
  participants := fun _ ↦ by rw [hc]
  rolledBack := fun _ hp ↦ by rw [← hc]; exact hp
  state_mine := fun _ _ _ ↦ by rw [ht]
  state_of_by := fun hst _ ↦ by rw [← ht]; exact hst
  state_of_committed := fun hst _ ↦ by rw [← ht]; exact hst

/-- A step that changes one consumer keeps the invariant if it keeps that consumer's. -/
theorem Inv.of_session (hi : s.Inv groups) (hm : s'.manager = s.manager) (ht : s'.table = s.table)
    (hc : s'.contexts = s.contexts) (hl : s'.log = s.log)
    (hother : ∀ c', c' ≠ c → s'.sessions c' = s.sessions c') (hself : s'.SessionInv groups c) :
    s'.Inv groups where
  entry := fun {r} h ↦ by
    rw [Live, ht] at h
    rw [hm]
    exact hi.entry h
  state_committed := fun h ↦ by
    rw [ht] at h
    rw [hm]
    exact hi.state_committed h
  state_participant := fun h ↦ by
    rw [ht] at h
    rw [hc]
    exact hi.state_participant h
  state_processed := fun h hp ↦ by
    rw [ht] at h
    rw [hc]
    exact hi.state_processed h hp
  state_owned := fun h hlive ↦ by
    rw [ht] at h
    rw [Live, ht] at hlive
    have := hi.state_owned h hlive
    rw [Owned, ht]
    exact this
  context_started := fun h ↦ by
    rw [hc] at h
    rw [hm]
    exact hi.context_started h
  context_aborted := fun h hp ↦ by
    rw [hm] at h
    rw [hc] at hp ⊢
    exact hi.context_aborted h hp
  log := fun {g w r} h ↦ by
    rw [hl] at h
    rw [hm, Live, ht]
    exact hi.log h
  session := fun c' ↦ by
    by_cases hcc : c' = c
    · rw [hcc]
      exact hself
    · exact (Frame.of_eq hm ht hc).sessionInv (hother c' hcc) (hi.session c')

/-- A consumer in a transaction, before `commitTx`, keeps its invariant when its entries change in
a way that keeps what is known of them. -/
theorem Active.of_entries (ha : s.Active groups c tx) (hph : s.phase c ≠ .persisted)
    (hph' : s'.phase c ≠ .persisted) (hm : s'.manager = s.manager) (ht : s'.table = s.table)
    (hc : s'.contexts = s.contexts) (hcomm : (s'.consumer c).committed = (s.consumer c).committed)
    (hsorted : SortedList.Sorted rowKey (s'.consumer c).consumingEntries)
    (hdisj : ∀ r ∈ (s'.consumer c).cachedRows, r ∉ (s'.consumer c).consumingRows)
    (hcons : ∀ x ∈ (s'.consumer c).consumingEntries, s.Holds groups c x)
    (htsorted : SortedList.Sorted rowKey (s'.phase c).todo)
    (htcons : ∀ x ∈ (s'.phase c).todo, x ∈ (s'.consumer c).consumingEntries)
    (hmust : ∀ {n : Nat} {todo : List SimpleQueueEntry}, s'.phase c = .claiming n todo →
      mustClaim (groups.consumerConfig c))
    (hclaim : ∀ x ∈ (s'.consumer c).consumingEntries, x ∉ (s'.phase c).todo → s.Live x.rowKey →
      s.Mine groups c x.rowKey)
    (hun : ∀ r ∈ (s'.consumer c).consumingRows, s.Mine groups c r → ¬ s.Processed c.1 r) :
    s'.Active groups c tx := by
  have hf : Frame groups s s' c := .of_eq hm ht hc
  have hcommitted : ∀ {r : Row}, r ∈ (s'.consumer c).consumingRows →
      s.manager.statusOf r.writePointer = some .committed := by
    intro r hr
    obtain ⟨x, hx, rfl⟩ := mem_map.mp hr
    exact (hcons x hx).committed
  exact {
    has := ha.has
    participant := by rw [hc]; exact ha.participant
    participant_has := by rw [hc]; exact ha.participant_has
    notRolledBack := by rw [hc]; exact ha.notRolledBack
    sees := hf.sees ha.sees
    persisted_of_committed := fun h ↦
      absurd (ha.persisted_of_committed ((hf.committed _).mp h)) hph
    sorted := hsorted
    disjoint := hdisj
    consuming := fun x hx ↦ hf.holds (hcons x hx)
    todo_sorted := htsorted
    todo_consuming := htcons
    mustClaim_of_claiming := hmust
    claimed := fun x hx hxt hl ↦ by
      have hcx := (hcons x hx).committed
      exact hf.mine hcx ha.has hl (hclaim x hx hxt (hf.live_of hcx hl))
    unprocessed := fun _ r hr hmine hp ↦
      hun r hr (hf.mine_of (hcommitted hr) hmine) (hf.processed_of hp)
    flag := by
      rw [hcomm, ha.flag]
      exact ⟨fun h ↦ absurd h.1 hph, fun h ↦ absurd h.1 hph'⟩
    processed_of := fun hst hi hw hp ↦ by
      rw [ht] at hst
      exact absurd (ha.processed_of hst hi hw hp).1 hph
    processed := fun h ↦ absurd h hph'
    visible := fun hst hcom ↦ by
      rw [ht] at hst
      exact ha.visible hst ((hf.committed _).mp hcom) }

theorem setSession_same (session : Session) : (s.setSession c session).sessions c = session := by
  simp [setSession]

theorem setSession_other (session : Session) (c' : ConsumerId) (h : c' ≠ c) :
    (s.setSession c session).sessions c' = s.sessions c' := by
  simp [setSession, h]

/-- A consumer that only moves to another phase outside the claim loop. -/
theorem Active.of_phase (ha : s.Active groups c tx)
    (hph : s.phase c ≠ .persisted) (htodo : (s.phase c).todo = []) {session : Session}
    (hsess : s'.sessions c = session) (hcons : session.consumer = s.consumer c)
    (hph' : session.phase ≠ .persisted) (htodo' : ∀ n todo, session.phase ≠ .claiming n todo)
    (hm : s'.manager = s.manager) (ht : s'.table = s.table) (hc : s'.contexts = s.contexts) :
    s'.Active groups c tx := by
  have hst : s.manager.statusOf tx.writePointer ≠ some .committed :=
    fun h ↦ hph (ha.persisted_of_committed h)
  have hcons' : s'.consumer c = s.consumer c := by rw [consumer, hsess, hcons]
  have hphase' : s'.phase c = session.phase := by rw [phase, hsess]
  have hnil : (s'.phase c).todo = [] := by
    rw [hphase']
    cases hp : session.phase with
    | claiming n todo => exact absurd hp (htodo' n todo)
    | _ => rfl
  refine ha.of_entries hph (by rw [hphase']; exact hph') hm ht hc (by rw [hcons'])
    ?_ ?_ ?_ ?_ ?_ ?_ ?_ ?_
  · rw [hcons']; exact ha.sorted
  · rw [hcons']; exact ha.disjoint
  · rw [hcons']; exact ha.consuming
  · rw [hnil]; exact List.Pairwise.nil
  · rw [hnil]; exact fun x hx ↦ absurd hx not_mem_nil
  · intro n todo hp
    exact absurd (hphase'.symm.trans hp) (htodo' n todo)
  · intro x hx _ hl
    rw [hcons'] at hx
    exact ha.claimed x hx (by rw [htodo]; exact not_mem_nil) hl
  · rw [hcons']; exact ha.unprocessed hst

/-- What is known of an entry in the cache. -/
def Cacheable (groups : Groups) (s : State) (c : ConsumerId) (x : SimpleQueueEntry) : Prop :=
  s.Holds groups c x ∧ (s.Mine groups c x.rowKey → ¬ s.Processed c.1 x.rowKey)

theorem SessionInv.cacheable (hi : s.SessionInv groups c) :
    ∀ x ∈ (s.consumer c).entryCache, s.Cacheable groups c x :=
  fun x hx ↦ ⟨hi.cached x hx, hi.unprocessed _ (mem_map_of_mem hx)⟩

/-- A consumer keeps its invariant when what it caches may be cached. -/
theorem SessionInv.of_cache (hf : Frame groups s s' c)
    (hsorted : SortedList.Sorted rowKey (s'.consumer c).entryCache)
    (hcached : ∀ x ∈ (s'.consumer c).entryCache, s.Cacheable groups c x)
    (hact : s'.phase c ≠ .idle →
      ∃ tx, (s'.consumer c).transaction = some tx ∧ s'.Active groups c tx) :
    s'.SessionInv groups c where
  sorted := hsorted
  cached := fun x hx ↦ hf.holds (hcached x hx).1
  unprocessed := fun r hr hm hp ↦ by
    obtain ⟨x, hx, rfl⟩ := mem_map.mp hr
    exact (hcached x hx).2 (hf.mine_of (hcached x hx).1.committed hm) (hf.processed_of hp)
  active := hact

/-- A change of phase outside the claim loop keeps the invariant. -/
theorem Inv.of_phase (hi : s.Inv groups) (hph : s.phase c ≠ .persisted) (hidle : s.phase c ≠ .idle)
    (htodo : (s.phase c).todo = []) {session : Session}
    (hcons : session.consumer = s.consumer c) (hph' : session.phase ≠ .persisted)
    (htodo' : ∀ n todo, session.phase ≠ .claiming n todo) :
    (s.setSession c session).Inv groups := by
  obtain ⟨tx, htx, ha⟩ := (hi.session c).active hidle
  have hsess := setSession_same (s := s) (c := c) session
  have hcons' : (s.setSession c session).consumer c = s.consumer c := by
    rw [consumer, hsess, hcons]
  refine hi.of_session rfl rfl rfl rfl (setSession_other session) ?_
  refine SessionInv.of_cache (s := s) (.of_eq rfl rfl rfl) ?_ ?_ fun _ ↦ ⟨tx, ?_, ?_⟩
  · rw [hcons']; exact (hi.session c).sorted
  · rw [hcons']; exact (hi.session c).cacheable
  · rw [hcons']; exact htx
  · exact ha.of_phase hph htodo hsess hcons hph' htodo' rfl rfl rfl

theorem inv_dequeue {n : Nat} (hi : s.Inv groups) (h : s.dequeue c n = some s') :
    s'.Inv groups := by
  rw [dequeue] at h
  split at h
  · rename_i hc
    obtain rfl := Option.some_inj.mp h
    exact hi.of_phase (by rw [hc.1]; simp) (by rw [hc.1]; simp) (by rw [hc.1]; rfl) rfl (by simp)
      (by simp)
  · exact absurd h (by simp)

/-! ## Fetching -/

variable {x : SimpleQueueEntry}

/-- An entry that a scan brings in is not processed: everything that could have processed it is
visible to the transaction. -/
theorem not_processed_of_fresh (hi : s.Inv groups) (ha : s.Active groups c tx) {start : Row}
    (hx : Fresh (groups.consumerConfig c) s.table tx start x) :
    ¬ s.Processed c.1 x.rowKey := by
  obtain ⟨y, hy, hans, rfl⟩ := hx
  obtain ⟨-, he, hstate, -, -⟩ := mem_getScanner.mp hy
  obtain ⟨howns, hcan⟩ := canConsume_yes hans
  have howned : s.Owned groups c y.rowKey := ⟨y.entry, he, howns⟩
  rintro ⟨st, hst, hp, hcom⟩
  obtain ⟨hw, hfifo, hnp⟩ := hcan st (hstate.trans hst)
  rcases ha.visible hst hcom with h | ⟨hne, hlt⟩ | h
  · exact hw h
  · -- another instance has processed it: that is not FIFO, and then the entry is not this one's
    by_cases hf : (groups.config c.1).dequeueStrategy = .fifo
    · exact hne (hfifo hf hlt)
    · have hother : s.Owned groups (c.1, st.instanceId) y.rowKey :=
        hi.state_owned hst howned.live
      have hm : ¬ mustClaim (groups.consumerConfig c) := fun h ↦ hf h.1
      have hhas : groups.Has (c.1, st.instanceId) := ⟨ha.has.1, hlt⟩
      have heq := howned.unique ha.has hhas rfl hm hother
      exact hne (congrArg Prod.snd heq).symm
  · exact hnp ⟨hp, h⟩

/-- An entry that a scan brings in may be cached: it is committed, it is the consumer's or to be
claimed, and it is not processed. -/
theorem cacheable_of_fresh (hi : s.Inv groups) (ha : s.Active groups c tx) {start : Row}
    (hx : Fresh (groups.consumerConfig c) s.table tx start x) :
    s.Cacheable groups c x := by
  refine ⟨?_, fun _ ↦ not_processed_of_fresh hi ha hx⟩
  obtain ⟨y, hy, hans, rfl⟩ := hx
  obtain ⟨-, he, hstate, hvis, -⟩ := mem_getScanner.mp hy
  obtain ⟨howns, hcan⟩ := canConsume_yes hans
  have howned : s.Owned groups c y.rowKey := ⟨y.entry, he, howns⟩
  refine ⟨?_, ha.has, fun _ ↦ howned, ?_⟩
  · obtain ⟨st, hst, hne⟩ := hi.entry howned.live
    have hstat : s.manager.statusOf y.rowKey.writePointer = some st := by
      simp [Manager.statusOf, hst]
    rcases ha.sees.visible hvis hstat with rfl | rfl
    · exact hstat
    · exact absurd rfl hne
  · intro hm hw _
    obtain ⟨st, hst, hlt⟩ := not_wantsClaim_iff.mp hw
    have hst : y.state = some st := hst
    exact ⟨st, hstate.symm.trans hst, (hcan st hst).2.1 hm.1 hlt⟩

theorem afterFetch_consumer (config : ConsumerConfig) (n : Nat) (hasEntry : Bool)
    (consumer : Consumer) :
    (afterFetch config n hasEntry consumer).consumer = consumer := by
  rw [afterFetch]
  split
  · split <;> rfl
  · rfl

theorem mustClaim_of_afterFetch {config : ConsumerConfig} {n m : Nat} {hasEntry : Bool}
    {consumer : Consumer} {todo : List SimpleQueueEntry}
    (h : (afterFetch config n hasEntry consumer).phase = .claiming m todo) :
    mustClaim config := by
  by_contra hm
  rw [afterFetch] at h
  split at h
  · exact absurd h (by simp)
  · exact absurd h (by simp [returned])

theorem afterFetch_ne_persisted (config : ConsumerConfig) (n : Nat) (hasEntry : Bool)
    (consumer : Consumer) :
    (afterFetch config n hasEntry consumer).phase ≠ .persisted := by
  rw [afterFetch]
  split
  · split <;> simp
  · simp [returned]

theorem afterFetch_ne_idle (config : ConsumerConfig) (n : Nat) (hasEntry : Bool)
    (consumer : Consumer) :
    (afterFetch config n hasEntry consumer).phase ≠ .idle := by
  rw [afterFetch]
  split
  · split <;> simp
  · simp [returned]

/-- After a round that brought something, the claim loop has everything before it. -/
theorem afterFetch_todo {config : ConsumerConfig} {n : Nat} {hasEntry : Bool}
    {consumer : Consumer} : (afterFetch config n hasEntry consumer).phase.todo =
      if hasEntry = true ∧ mustClaim config then consumer.consumingEntries else [] := by
  by_cases h : hasEntry = true
  · by_cases hm : mustClaim config <;> simp [afterFetch, h, hm, Phase.todo]
  · simp [afterFetch, h, Phase.todo, returned]

theorem inv_fetch (hi : s.Inv groups) (h : s.fetch groups c = some s') : s'.Inv groups := by
  obtain ⟨n, tx, hph, htx, hcase⟩ := fetch_eq_some h
  have hidle : s.phase c ≠ .idle := by rw [hph]; simp
  have hnp : s.phase c ≠ .persisted := by rw [hph]; simp
  have htodo : (s.phase c).todo = [] := by rw [hph]; rfl
  rcases hcase with ⟨hlt, rfl⟩ | ⟨-, rfl⟩
  · obtain ⟨tx', htx', ha⟩ := (hi.session c).active hidle
    obtain rfl := Option.some_inj.mp (htx.symm.trans htx')
    have hst : s.manager.statusOf tx.writePointer ≠ some .committed :=
      fun h ↦ hnp (ha.persisted_of_committed h)
    set config := groups.consumerConfig c with hconfig
    set result := (s.consumer c).getEntries config s.table tx n with hresult
    have hfetch : Fetched config s.table tx (s.consumer c) result.2 :=
      getEntries_fetched config s.table tx (s.consumer c) n
    set session := afterFetch config n result.1 result.2 with hsession
    have hsess := setSession_same (s := s) (c := c) session
    have hcons' : (s.setSession c session).consumer c = result.2 := by
      rw [consumer, hsess, hsession, afterFetch_consumer]
    have hphase' : (s.setSession c session).phase c = session.phase := by rw [phase, hsess]
    -- every entry the consumer has now may be cached
    have hcache : ∀ x ∈ result.2.entryCache, s.Cacheable groups c x := by
      intro x hx
      rcases hfetch.mem_cache x hx with hx | hx
      · exact (hi.session c).cacheable x hx
      · exact cacheable_of_fresh hi ha hx
    have hconsuming : ∀ x ∈ result.2.consumingEntries, s.Cacheable groups c x := by
      intro x hx
      rcases hfetch.mem_consuming x hx with hx | hx | hx
      · exact ⟨ha.consuming x hx, ha.unprocessed hst _ (mem_map_of_mem hx)⟩
      · exact (hi.session c).cacheable x hx
      · exact cacheable_of_fresh hi ha hx
    refine hi.of_session rfl rfl rfl rfl (setSession_other session) ?_
    refine SessionInv.of_cache (s := s) (.of_eq rfl rfl rfl) ?_ ?_ fun _ ↦ ⟨tx, ?_, ?_⟩
    · rw [hcons']; exact hfetch.sorted (hi.session c).sorted
    · rw [hcons']; exact hcache
    · rw [hcons', hfetch.transaction]; exact htx
    refine ha.of_entries hnp ?_ rfl rfl rfl ?_ ?_ ?_ ?_ ?_ ?_ ?_ ?_ ?_
    · rw [hphase', hsession]; exact afterFetch_ne_persisted _ _ _ _
    · rw [hcons', hfetch.committed]
    · rw [hcons']; exact hfetch.sorted_consuming ha.sorted
    · rw [hcons']; exact hfetch.disjoint (hi.session c).sorted ha.disjoint
    · rw [hcons']; exact fun x hx ↦ (hconsuming x hx).1
    · rw [hphase', hsession, afterFetch_todo]
      split
      · exact hfetch.sorted_consuming ha.sorted
      · exact List.Pairwise.nil
    · rw [hphase', hcons', hsession, afterFetch_todo]
      intro x hx
      split at hx
      · exact hx
      · exact absurd hx not_mem_nil
    · intro m todo hp
      exact mustClaim_of_afterFetch (hphase'.symm.trans hp)
    · rw [hcons', hphase', hsession, afterFetch_todo]
      intro x hx hxt hl
      refine ⟨(hconsuming x hx).1.owned hl, fun hm ↦ ?_⟩
      by_cases hhas : result.1 = true
      · rw [if_pos ⟨hhas, hm⟩] at hxt
        exact absurd hx hxt
      · -- nothing was fetched, so the entry was there before
        have hempty := getEntries_eq_false hlt (Bool.eq_false_iff.mpr hhas)
        have hx' : x ∈ (s.consumer c).consumingEntries := hempty.2.1 ▸ hx
        exact (ha.claimed x hx' (by rw [htodo]; exact not_mem_nil) hl).2 hm
    · rw [hcons']
      intro r hr
      obtain ⟨x, hx, rfl⟩ := mem_map.mp hr
      exact (hconsuming x hx).2
  · exact hi.of_phase hnp hidle htodo rfl (by simp [returned]) (by simp [returned])

/-! ## Between transactions -/

/-- A consumer that leaves its transaction, with no more entries than it had cached. -/
theorem Inv.of_idle (hi : s.Inv groups) (hm : s'.manager = s.manager) (ht : s'.table = s.table)
    (hc : s'.contexts = s.contexts) (hl : s'.log = s.log)
    (hother : ∀ c', c' ≠ c → s'.sessions c' = s.sessions c') (hph : s'.phase c = .idle)
    (hsorted : SortedList.Sorted rowKey (s'.consumer c).entryCache)
    (hsub : ∀ x ∈ (s'.consumer c).entryCache, x ∈ (s.consumer c).entryCache) : s'.Inv groups := by
  refine hi.of_session hm ht hc hl hother ?_
  refine SessionInv.of_cache (s := s) (.of_eq hm ht hc) hsorted ?_ fun h ↦ absurd hph h
  exact fun x hx ↦ (hi.session c).cacheable x (hsub x hx)

theorem postTxCommit_entryCache (c : Consumer) :
    c.postTxCommit.entryCache = c.entryCache := by
  unfold Consumer.postTxCommit
  split
  · rfl
  · split
    · rfl
    · split <;> rfl

theorem hbasePostTxCommit_entryCache (c : Consumer) (store : Option Row) (saved : Bool) :
    (hbasePostTxCommit c store saved).1.entryCache = c.entryCache := by
  simp only [hbasePostTxCommit]
  split <;> exact postTxCommit_entryCache c

theorem inv_postTxCommit {saved : Bool} (hi : s.Inv groups) (h : s.postTxCommit c saved = some s') :
    s'.Inv groups := by
  obtain ⟨tx, -, -, -, rfl⟩ := postTxCommit_eq_some h
  have hcache := hbasePostTxCommit_entryCache (s.consumer c) (s.startRows c) saved
  refine hi.of_idle (c := c) rfl rfl rfl rfl (setSession_other _) ?_ ?_ ?_
  · simp [phase, setSession]
  · simp only [consumer, setSession, update_self, hcache]
    exact (hi.session c).sorted
  · simp only [consumer, setSession, update_self, hcache]
    exact fun x hx ↦ hx

theorem inv_restart {close : Bool} (hi : s.Inv groups) (h : s.restart c close = some s') :
    s'.Inv groups := by
  obtain rfl := Option.some_inj.mp h
  refine hi.of_idle (c := c) rfl rfl rfl rfl (setSession_other _) ?_ ?_ ?_
  · simp [phase, setSession]
  · simp only [consumer, setSession, update_self, create]
    exact List.Pairwise.nil
  · simp only [consumer, setSession, update_self, create]
    exact fun x hx ↦ absurd hx not_mem_nil

theorem inv_refresh (hi : s.Inv groups) (h : s.refresh groups = some s') : s'.Inv groups := by
  obtain rfl := Option.some_inj.mp h
  refine hi.of_session (c := (0, 0)) rfl rfl rfl rfl (fun _ _ ↦ rfl) ?_
  exact Frame.sessionInv (s := s) (.of_eq rfl rfl rfl) rfl (hi.session _)

/-! ## Writing the state column -/

/-- A row a consumer may write its group's state column of: one of its own, or one it claims. -/
def Writable (groups : Groups) (s : State) (c : ConsumerId) (r : Row) : Prop :=
  s.manager.statusOf r.writePointer = some .committed ∧
    (s.Live r → (s.Mine groups c r ∧ ¬ s.Processed c.1 r) ∨
      (s.Owned groups c r ∧ mustClaim (groups.consumerConfig c) ∧ s.table.state c.1 r = none))

/-- The state a consumer writes: none, or one in its name and of its transaction. -/
def WrittenBy (c : ConsumerId) (tx : Transaction) (st : Option StateContent) : Prop :=
  ∀ x ∈ st, x.instanceId = c.2 ∧ x.writePointer = tx.writePointer

theorem writtenBy_encode (c : ConsumerId) (tx : Transaction) (state : ConsumerEntryState) :
    WrittenBy c tx (some (encodeStateColumn (groups.consumerConfig c) tx state)) := by
  intro x hx
  obtain rfl := Option.some_inj.mp hx
  exact ⟨rfl, rfl⟩

/-- A step in which the consumer, in the transaction `tx`, writes `st` into its group's state column
of some rows it may write to. -/
structure Writes (groups : Groups) (s s' : State) (c : ConsumerId) (tx : Transaction)
    (rows : List Row) (st : Option StateContent) : Prop where
  /-- The transaction is the one the consumer is in, and is not committed yet. -/
  active : s.Active groups c tx
  open_ : s.manager.statusOf tx.writePointer ≠ some .committed
  manager : s'.manager = s.manager
  table : s'.table = s.table.setState c.1 rows st
  writable : ∀ r ∈ rows, s.Writable groups c r
  writtenBy : WrittenBy c tx st
  /-- Where rows are claimed, the consumer leaves its name. -/
  claims : mustClaim (groups.consumerConfig c) → ∃ x, st = some x ∧ x.instanceId = c.2

section SetState

variable {rows : List Row} {st : Option StateContent}

theorem setState_of_mem {t : Table} {g : Nat} {r : Row} (hr : r ∈ rows) :
    (t.setState g rows st).state g r = st := by
  simp [Table.setState, hr]

/-- A state is the one written, or it was there before. -/
theorem setState_cases (t : Table) (g g' : Nat) (r : Row) (rows : List Row)
    (st : Option StateContent) :
    (g' = g ∧ r ∈ rows ∧ (t.setState g rows st).state g' r = st) ∨
      (t.setState g rows st).state g' r = t.state g' r := by
  by_cases h : g' = g ∧ r ∈ rows
  · exact .inl ⟨h.1, h.2, by simp [Table.setState, h]⟩
  · exact .inr (by simp [Table.setState, h])

theorem mustClaim_congr {c c' : ConsumerId} (h : c.1 = c'.1)
    (hm : mustClaim (groups.consumerConfig c)) : mustClaim (groups.consumerConfig c') := by
  simpa only [mustClaim, Groups.consumerConfig, h] using hm

/-- **Writing to one's own rows is a step the others do not notice.** -/
theorem Writes.frame {c' : ConsumerId} (h : Writes groups s s' c tx rows st) (hne : c' ≠ c)
    (hp : ∀ w, (s'.contexts w).participants = (s.contexts w).participants)
    (hr : ∀ w, c' ∈ (s'.contexts w).rolledBack → c' ∈ (s.contexts w).rolledBack) :
    Frame groups s s' c' where
  committed := fun w ↦ by rw [h.manager]
  sees := fun hs ↦ by rw [h.manager]; exact hs
  entry := fun _ he ↦ by rw [h.table] at he; exact he
  participants := fun _ ↦ hp _
  rolledBack := fun _ hroll ↦ hr _ hroll
  state_mine := fun {r} hhas hmine _ ↦ by
    rw [h.table]
    rcases setState_cases s.table c.1 c'.1 r rows st with ⟨hg, hmem, -⟩ | heq
    · rcases (h.writable r hmem).2 hmine.live with ⟨hown, -⟩ | ⟨-, hcl, hnone⟩
      · exact absurd (hmine.unique hhas h.active.has hg hown) hne
      · obtain ⟨x, hx, -⟩ := hmine.2 (mustClaim_congr hg.symm hcl)
        rw [hg, hnone] at hx
        exact absurd hx (by simp)
    · exact heq
  state_of_by := fun {r x} hx hi ↦ by
    rw [h.table] at hx
    rcases setState_cases s.table c.1 c'.1 r rows st with ⟨hg, hmem, heq⟩ | heq
    · exact absurd (Prod.ext hg (hi.symm.trans (h.writtenBy x (heq.symm.trans hx)).1)) hne
    · exact heq.symm.trans hx
  state_of_committed := fun {r x} hx hxc ↦ by
    rw [h.table] at hx
    rcases setState_cases s.table c.1 c'.1 r rows st with ⟨hg, hmem, heq⟩ | heq
    · rw [(h.writtenBy x (heq.symm.trans hx)).2] at hxc
      exact absurd hxc h.open_
    · exact heq.symm.trans hx

/-- What the writer itself has to show. -/
theorem Inv.of_writes (hi : s.Inv groups) (hwr : Writes groups s s' c tx rows st)
    (hl : s'.log = s.log)
    (hp : ∀ w, (s'.contexts w).participants = (s.contexts w).participants)
    (hr : ∀ w c', c' ∈ (s.contexts w).rolledBack → c' ∈ (s'.contexts w).rolledBack)
    (hr' : ∀ w c', c' ≠ c → c' ∈ (s'.contexts w).rolledBack → c' ∈ (s.contexts w).rolledBack)
    (hproc : ∀ {r : Row} {x : StateContent}, s'.table.state c.1 r = some x → x.instanceId = c.2 →
      x.state = .processed → c ∉ (s'.contexts x.writePointer).rolledBack)
    (hother : ∀ c', c' ≠ c → s'.sessions c' = s.sessions c') (hself : s'.SessionInv groups c) :
    s'.Inv groups where
  entry := fun {r} h ↦ by
    rw [Live, hwr.table] at h
    rw [hwr.manager]
    exact hi.entry h
  state_committed := fun {g r x} h ↦ by
    rw [hwr.table] at h
    rw [hwr.manager]
    rcases setState_cases s.table c.1 g r rows st with ⟨-, hmem, -⟩ | heq
    · exact (hwr.writable r hmem).1
    · exact hi.state_committed (heq.symm.trans h)
  state_participant := fun {g r x} h ↦ by
    rw [hwr.table] at h
    rw [hp]
    rcases setState_cases s.table c.1 g r rows st with ⟨hg, -, heq⟩ | heq
    · obtain ⟨h1, h2⟩ := hwr.writtenBy x (heq.symm.trans h)
      rw [hg, h1, h2]
      exact hwr.active.participant
    · exact hi.state_participant (heq.symm.trans h)
  state_processed := fun {g r x} h hx ↦ by
    by_cases hgc : (g, x.instanceId) = c
    · obtain ⟨hg, hxi⟩ := Prod.mk.inj (hgc.trans (Prod.mk.eta (p := c)).symm)
      rw [hgc]
      rw [hg] at h
      exact hproc h hxi hx
    · rw [hwr.table] at h
      rcases setState_cases s.table c.1 g r rows st with ⟨hg, -, heq⟩ | heq
      · exact absurd (Prod.ext hg (hwr.writtenBy x (heq.symm.trans h)).1) hgc
      · exact fun hroll ↦ hi.state_processed (heq.symm.trans h) hx (hr' _ _ hgc hroll)
  state_owned := fun {g r x} h hlive ↦ by
    rw [Live, hwr.table] at hlive
    rw [hwr.table] at h
    suffices s.Owned groups (g, x.instanceId) r by rw [Owned, hwr.table]; exact this
    rcases setState_cases s.table c.1 g r rows st with ⟨hg, hmem, heq⟩ | heq
    · rw [hg, (hwr.writtenBy x (heq.symm.trans h)).1]
      rcases (hwr.writable r hmem).2 hlive with ⟨h, -⟩ | ⟨h, -⟩
      · exact h.1
      · exact h
    · exact hi.state_owned (heq.symm.trans h) hlive
  context_started := fun h ↦ by
    rw [hp] at h
    rw [hwr.manager]
    exact hi.context_started h
  context_aborted := fun h hpart ↦ by
    rw [hwr.manager] at h
    rw [hp] at hpart
    exact hr _ _ (hi.context_aborted h hpart)
  log := fun {g w r} h ↦ by
    rw [hl] at h
    rw [hwr.manager, Live, hwr.table]
    obtain ⟨h1, hr, h2⟩ := hi.log h
    refine ⟨h1, hr, fun hlive ↦ ?_⟩
    obtain ⟨i, hcell⟩ := h2 hlive
    refine ⟨i, ?_⟩
    rcases setState_cases s.table c.1 g r rows st with ⟨hg, hmem, -⟩ | heq
    · -- a row that the log says was processed is not written to
      rcases (hwr.writable r hmem).2 hlive with ⟨-, hnp⟩ | ⟨-, -, hnone⟩
      · exact absurd ⟨_, hg ▸ hcell, rfl, h1⟩ hnp
      · rw [hg, hnone] at hcell
        exact absurd hcell (by simp)
    · exact heq.trans hcell
  session := fun c' ↦ by
    by_cases hcc : c' = c
    · rw [hcc]
      exact hself
    · exact (hwr.frame hcc hp fun w ↦ hr' w c' hcc).sessionInv (hother c' hcc) (hi.session c')

/-! What the writer finds afterwards. -/

theorem setState_nil (t : Table) (g : Nat) (st : Option StateContent) : t.setState g [] st = t := by
  simp [Table.setState]

theorem live_setState (ht : s'.table = s.table.setState c.1 rows st) {r : Row} :
    s'.Live r ↔ s.Live r := by
  rw [Live, Live, ht]
  exact Iff.rfl

theorem owned_setState (ht : s'.table = s.table.setState c.1 rows st) {r : Row} :
    s'.Owned groups c r ↔ s.Owned groups c r := by
  rw [Owned, Owned, ht]
  exact Iff.rfl

theorem StateBy.setState (ht : s'.table = s.table.setState c.1 rows st)
    (hst : ∃ x, st = some x ∧ x.instanceId = c.2) {r : Row} (h : s.StateBy c r) :
    s'.StateBy c r := by
  rw [StateBy, ht]
  rcases setState_cases s.table c.1 c.1 r rows st with ⟨-, -, heq⟩ | heq
  · rw [heq]
    exact hst
  · rw [heq]
    exact h

/-- What may be cached may be cached afterwards: if the row is processed now, its state was not
written in this step. -/
theorem Writes.cacheable (hwr : Writes groups s s' c tx rows st)
    (h : s.Cacheable groups c x) : s'.Cacheable groups c x where
  left := {
    committed := by rw [hwr.manager]; exact h.1.committed
    has := h.1.has
    owned := fun hl ↦ (owned_setState hwr.table).mpr (h.1.owned ((live_setState hwr.table).mp hl))
    claimed := fun hmc hw hl ↦
      (h.1.claimed hmc hw ((live_setState hwr.table).mp hl)).setState hwr.table (hwr.claims hmc) }
  right := by
    rintro hmine ⟨y, hy, hp, hc⟩
    rw [hwr.manager] at hc
    rw [hwr.table] at hy
    rcases setState_cases s.table c.1 c.1 x.rowKey rows st with ⟨-, -, heq⟩ | heq
    · rw [(hwr.writtenBy y (heq.symm.trans hy)).2] at hc
      exact hwr.open_ hc
    · have hold := heq.symm.trans hy
      refine h.2 ⟨(owned_setState hwr.table).mp hmine.1, fun hmc ↦ ?_⟩ ⟨y, hold, hp, hc⟩
      obtain ⟨z, hz, hzi⟩ := hmine.2 hmc
      rw [hwr.table, heq] at hz
      exact ⟨z, hz, hzi⟩

end SetState

/-! ## Claiming -/

/-- An entry the claim loop is past, after one more entry. -/
theorem Active.mem_claimed (ha : s.Active groups c tx) {n : Nat} {entry : SimpleQueueEntry}
    {todo : List SimpleQueueEntry} (hph : s.phase c = .claiming n (entry :: todo))
    (hx : x ∈ (s.consumer c).consumingEntries) (hxt : x ∉ todo)
    (hl : s.Live x.rowKey) : x = entry ∨ s.Mine groups c x.rowKey := by
  by_cases heq : x = entry
  · exact .inl heq
  · refine .inr (ha.claimed x hx ?_ hl)
    rw [hph]
    exact fun h ↦ (mem_cons.mp h).elim heq hxt

section Claim

variable {n : Nat} {entry : SimpleQueueEntry} {rest : List SimpleQueueEntry}

/-- What is known of the entries the claim loop still has before it. -/
theorem Active.todo_cons (ha : s.Active groups c tx)
    (hph : s.phase c = .claiming n (entry :: rest)) :
    entry ∈ (s.consumer c).consumingEntries ∧ (∀ x ∈ rest, x ∈ (s.consumer c).consumingEntries) ∧
      (∀ x ∈ rest, entry.rowKey < x.rowKey) ∧ SortedList.Sorted rowKey rest := by
  have hsorted := ha.todo_sorted
  rw [hph] at hsorted
  obtain ⟨hlt, hsorted⟩ := pairwise_cons.mp hsorted
  refine ⟨ha.todo_consuming _ ?_, fun x hx ↦ ha.todo_consuming x ?_, hlt, hsorted⟩
  all_goals rw [hph]
  · exact mem_cons_self
  · exact mem_cons_of_mem _ hx

/-- The claim loop goes on to the next entry, and the table stays as it is: the entry was claimed
before, or it is dropped. -/
theorem inv_claim_next (hi : s.Inv groups) (ha : s.Active groups c tx)
    (hph : s.phase c = .claiming n (entry :: rest)) (htx : (s.consumer c).transaction = some tx)
    {consumer' : Consumer} (hcons : consumer' = s.consumer c ∧
        ¬ wantsClaim (groups.consumerConfig c) entry ∨
      consumer' = (s.consumer c).drop entry.rowKey) :
    (s.setSession c { s.sessions c with
      consumer := consumer', phase := .claiming n rest }).Inv groups := by
  have hnp : s.phase c ≠ .persisted := by rw [hph]; simp
  have hst : s.manager.statusOf tx.writePointer ≠ some .committed :=
    fun h ↦ hnp (ha.persisted_of_committed h)
  obtain ⟨hentry, hrest, hlt, hsorted⟩ := ha.todo_cons hph
  have hcache : consumer'.entryCache = (s.consumer c).entryCache := by
    rcases hcons with ⟨rfl, -⟩ | rfl <;> rfl
  have htx' : consumer'.transaction = some tx := by
    rcases hcons with ⟨rfl, -⟩ | rfl <;> exact htx
  have hcomm : consumer'.committed = (s.consumer c).committed := by
    rcases hcons with ⟨rfl, -⟩ | rfl <;> rfl
  have hsub : ∀ x ∈ consumer'.consumingEntries, x ∈ (s.consumer c).consumingEntries := by
    rcases hcons with ⟨rfl, -⟩ | rfl
    · exact fun x hx ↦ hx
    · exact fun x hx ↦ (SortedList.mem_remove.mp hx).1
  refine hi.of_session rfl rfl rfl rfl (setSession_other _) ?_
  refine SessionInv.of_cache (s := s) (.of_eq rfl rfl rfl) ?_ ?_ fun _ ↦ ⟨tx, ?_, ?_⟩
  all_goals simp only [consumer, setSession, update_self]
  · rw [hcache]; exact (hi.session c).sorted
  · rw [hcache]; exact (hi.session c).cacheable
  · exact htx'
  refine ha.of_entries hnp ?_ rfl rfl rfl ?_ ?_ ?_ ?_ ?_ ?_ ?_ ?_ ?_
  all_goals simp only [consumer, phase, update_self, Phase.todo]
  · simp
  · exact hcomm
  · rcases hcons with ⟨rfl, -⟩ | rfl
    · exact ha.sorted
    · exact ha.sorted.remove _
  · intro r hr hr'
    obtain ⟨x, hx, rfl⟩ := mem_map.mp hr'
    rw [cachedRows, hcache] at hr
    exact ha.disjoint _ hr (mem_map_of_mem (hsub x hx))
  · exact fun x hx ↦ ha.consuming x (hsub x hx)
  · exact hsorted
  · rcases hcons with ⟨rfl, -⟩ | rfl
    · exact hrest
    · exact fun x hx ↦ SortedList.mem_remove.mpr ⟨hrest x hx, ne_of_gt (hlt x hx)⟩
  · exact fun _ ↦ ha.mustClaim_of_claiming hph
  · intro x hx hxt hl
    rcases ha.mem_claimed hph (hsub x hx) hxt hl with rfl | h
    · rcases hcons with ⟨-, hw⟩ | rfl
      · have hx := ha.consuming x hentry
        exact ⟨hx.owned hl, fun hm ↦ hx.claimed hm hw hl⟩
      · exact absurd rfl (SortedList.mem_remove.mp hx).2
    · exact h
  · intro r hr
    obtain ⟨x, hx, rfl⟩ := mem_map.mp hr
    exact ha.unprocessed hst _ (mem_map_of_mem (hsub x hx))

/-- A claim that succeeds writes the state of a row nobody has claimed. -/
theorem writes_claim (ha : s.Active groups c tx)
    (hph : s.phase c = .claiming n (entry :: rest))
    (hnone : s.table.state c.1 entry.rowKey = none) (hm : s'.manager = s.manager)
    (ht : s'.table = s.table.setState c.1 [entry.rowKey]
      (some (encodeStateColumn (groups.consumerConfig c) tx .claimed))) :
    Writes groups s s' c tx [entry.rowKey]
      (some (encodeStateColumn (groups.consumerConfig c) tx .claimed)) where
  active := ha
  open_ := fun h ↦ by
    have := ha.persisted_of_committed h
    rw [hph] at this
    exact absurd this (by simp)
  manager := hm
  table := ht
  writable := by
    intro r hr
    obtain rfl := mem_singleton.mp hr
    have hentry := ha.consuming entry (ha.todo_cons hph).1
    exact ⟨hentry.committed,
      fun hl ↦ .inr ⟨hentry.owned hl, ha.mustClaim_of_claiming hph, hnone⟩⟩
  writtenBy := writtenBy_encode c tx .claimed
  claims := fun _ ↦ ⟨_, rfl, rfl⟩

theorem inv_claim_put (hi : s.Inv groups) (ha : s.Active groups c tx)
    (hph : s.phase c = .claiming n (entry :: rest)) (htx : (s.consumer c).transaction = some tx)
    (hnone : s.table.state c.1 entry.rowKey = none) :
    ({ s.setSession c { s.sessions c with phase := .claiming n rest } with
      table := s.table.setState c.1 [entry.rowKey]
        (some (encodeStateColumn (groups.consumerConfig c) tx .claimed)) } : State).Inv groups := by
  obtain ⟨-, hrest, -, hsorted⟩ := ha.todo_cons hph
  set state := encodeStateColumn (groups.consumerConfig c) tx .claimed with hstate
  set s' : State := { s.setSession c { s.sessions c with phase := .claiming n rest } with
    table := s.table.setState c.1 [entry.rowKey] (some state) } with hs'
  have ht : s'.table = s.table.setState c.1 [entry.rowKey] (some state) := rfl
  have hwr : Writes groups s s' c tx [entry.rowKey] (some state) :=
    writes_claim ha hph hnone rfl rfl
  have hst := hwr.open_
  have hcons : s'.consumer c = s.consumer c := by simp [hs', consumer, setSession]
  have hphase : s'.phase c = .claiming n rest := by simp [hs', phase, setSession]
  have hcons_cache : ∀ x ∈ (s.consumer c).consumingEntries, s'.Cacheable groups c x :=
    fun x hx ↦ hwr.cacheable ⟨ha.consuming x hx, ha.unprocessed hst _ (mem_map_of_mem hx)⟩
  -- the state written is not PROCESSED, and not of a committed transaction
  have hold : ∀ {r : Row} {x : StateContent}, s'.table.state c.1 r = some x →
      x.state = .processed ∨ s.manager.statusOf x.writePointer = some .committed →
      s.table.state c.1 r = some x := by
    intro r x hx hp
    rw [ht] at hx
    rcases setState_cases s.table c.1 c.1 r [entry.rowKey] (some state) with ⟨-, -, heq⟩ | heq
    · obtain rfl := Option.some_inj.mp (heq.symm.trans hx)
      rcases hp with hp | hp
      · exact absurd hp (by simp [hstate, encodeStateColumn])
      · exact absurd hp hst
    · exact heq.symm.trans hx
  refine hi.of_writes hwr rfl (fun _ ↦ rfl) (fun _ _ h ↦ h) (fun _ _ _ h ↦ h) ?_
    (setSession_other _) ?_
  · intro r x hx hxi hp
    have := hi.state_processed (hold hx (.inl hp)) hp
    rw [hxi] at this
    exact this
  refine ⟨?_, ?_, ?_, fun _ ↦ ⟨tx, by rw [hcons]; exact htx, ?_⟩⟩
  · rw [hcons]; exact (hi.session c).sorted
  · rw [hcons]; exact fun x hx ↦ (hwr.cacheable ((hi.session c).cacheable x hx)).1
  · rw [hcons]
    intro r hr
    obtain ⟨x, hx, rfl⟩ := mem_map.mp hr
    exact (hwr.cacheable ((hi.session c).cacheable x hx)).2
  exact {
    has := ha.has
    participant := ha.participant
    participant_has := ha.participant_has
    notRolledBack := ha.notRolledBack
    sees := ha.sees
    persisted_of_committed := fun h ↦ absurd h hst
    sorted := by rw [hcons]; exact ha.sorted
    disjoint := by rw [hcons]; exact ha.disjoint
    consuming := by rw [hcons]; exact fun x hx ↦ (hcons_cache x hx).1
    todo_sorted := by rw [hphase]; exact hsorted
    todo_consuming := by rw [hphase, hcons]; exact hrest
    mustClaim_of_claiming := fun _ ↦ ha.mustClaim_of_claiming hph
    claimed := by
      rw [hcons, hphase]
      intro x hx hxt hl
      refine ⟨(hcons_cache x hx).1.owned hl, fun hmc ↦ ?_⟩
      rcases ha.mem_claimed hph hx hxt hl with rfl | h
      · exact ⟨_, by rw [ht]; exact setState_of_mem (by simp), rfl⟩
      · exact (h.2 hmc).setState ht ⟨_, rfl, rfl⟩
    unprocessed := by
      rw [hcons]
      intro _ r hr
      obtain ⟨x, hx, rfl⟩ := mem_map.mp hr
      exact (hcons_cache x hx).2
    flag := by
      rw [hcons, hphase, ha.flag, hph]
      simp
    processed_of := fun hx hxi hxw hp ↦ by
      have := (ha.processed_of (hold hx (.inl hp)) hxi hxw hp).1
      rw [hph] at this
      exact absurd this (by simp)
    processed := fun h ↦ by rw [hphase] at h; exact absurd h (by simp)
    visible := fun hx hc ↦ ha.visible (hold hx (.inr hc)) hc }

end Claim

theorem inv_claim (hi : s.Inv groups) (h : s.claim groups c = some s') : s'.Inv groups := by
  obtain ⟨n, todo, tx, hph, htx, hcase⟩ := claim_eq_some h
  have hidle : s.phase c ≠ .idle := by rw [hph]; simp
  obtain ⟨tx', htx', ha⟩ := (hi.session c).active hidle
  obtain rfl := Option.some_inj.mp (htx.symm.trans htx')
  rcases hcase with ⟨rfl, rfl⟩ | ⟨entry, rest, rfl, ⟨hw, rfl⟩ | ⟨hw, hnone, rfl⟩ | ⟨hw, hsome, rfl⟩⟩
  · exact hi.of_phase (by rw [hph]; simp) hidle (by rw [hph]; rfl) rfl (by simp) (by simp)
  · exact inv_claim_next hi ha hph htx (.inl ⟨rfl, hw⟩)
  · exact inv_claim_put hi ha hph htx hnone
  · exact inv_claim_next hi ha hph htx (.inr rfl)

/-! ## `commitTx` and `rollbackTx` -/

theorem commitTx_table (config : ConsumerConfig) (t : Table) (tx : Transaction) (c : Consumer) :
    (Consumer.commitTx config t tx c).2 = t.setState config.groupId c.consumingRows
      (some (encodeStateColumn config tx .processed)) := by
  rw [Consumer.commitTx]
  split
  · rename_i h
    rw [consumingRows, isEmpty_iff.mp h, map_nil, setState_nil]
  · rfl

/-- `commitTx` changes two fields of the consumer. -/
theorem commitTx_consumer (config : ConsumerConfig) (t : Table) (tx : Transaction) (c : Consumer) :
    (Consumer.commitTx config t tx c).1 = { c with
      commitCount := c.commitCount + c.consumingEntries.length
      committed := c.committed || !c.consumingEntries.isEmpty } := by
  rw [Consumer.commitTx]
  split
  · rename_i h
    have hnil := isEmpty_iff.mp h
    obtain ⟨_, _, _, _, _, _, _⟩ := c
    subst hnil
    simp
  · rename_i h
    simp [h]

/-- The entries of a consumer outside `dequeue` are its own, and can be written to. -/
theorem Active.writable (ha : s.Active groups c tx) (htodo : (s.phase c).todo = [])
    (hst : s.manager.statusOf tx.writePointer ≠ some .committed) :
    ∀ r ∈ (s.consumer c).consumingRows, s.Writable groups c r := by
  intro r hr
  obtain ⟨x, hx, rfl⟩ := mem_map.mp hr
  refine ⟨(ha.consuming x hx).committed, fun hl ↦ .inl ?_⟩
  have hmine := ha.claimed x hx (by rw [htodo]; exact not_mem_nil) hl
  exact ⟨hmine, ha.unprocessed hst _ hr hmine⟩

theorem writes_commitTx (ha : s.Active groups c tx) (hph : s.phase c = .ready)
    (hm : s'.manager = s.manager)
    (ht : s'.table = s.table.setState c.1 (s.consumer c).consumingRows
      (some (encodeStateColumn (groups.consumerConfig c) tx .processed))) :
    Writes groups s s' c tx (s.consumer c).consumingRows
      (some (encodeStateColumn (groups.consumerConfig c) tx .processed)) := by
  have hst : s.manager.statusOf tx.writePointer ≠ some .committed := by
    intro h
    have := ha.persisted_of_committed h
    rw [hph] at this
    exact absurd this (by simp)
  exact ⟨ha, hst, hm, ht, ha.writable (by rw [hph]; rfl) hst, writtenBy_encode c tx .processed,
    fun _ ↦ ⟨_, rfl, rfl⟩⟩

theorem inv_commitTx (hi : s.Inv groups) (h : s.commitTx groups c = some s') : s'.Inv groups := by
  obtain ⟨tx, hph, htx, rfl⟩ := commitTx_eq_some h
  have hidle : s.phase c ≠ .idle := by rw [hph]; simp
  have hnp : s.phase c ≠ .persisted := by rw [hph]; simp
  obtain ⟨tx', htx', ha⟩ := (hi.session c).active hidle
  obtain rfl := Option.some_inj.mp (htx.symm.trans htx')
  rw [commitTx_table, commitTx_consumer]
  set state := encodeStateColumn (groups.consumerConfig c) tx .processed with hstate
  set consumer' : Consumer := { s.consumer c with
    commitCount := (s.consumer c).commitCount + (s.consumer c).consumingEntries.length
    committed := (s.consumer c).committed || !(s.consumer c).consumingEntries.isEmpty } with hcons'
  set s' : State := { s.setSession c { s.sessions c with
      consumer := consumer', phase := .persisted } with
    table := s.table.setState (groups.consumerConfig c).groupId (s.consumer c).consumingRows
      (some state) } with hs'
  have ht : s'.table = s.table.setState c.1 (s.consumer c).consumingRows (some state) := rfl
  have hcons : s'.consumer c = consumer' := by simp [hs', consumer, setSession]
  have hphase : s'.phase c = .persisted := by simp [hs', phase, setSession]
  have hwr : Writes groups s s' c tx (s.consumer c).consumingRows (some state) :=
    writes_commitTx ha hph rfl rfl
  have hst := hwr.open_
  have hby := hwr.writtenBy
  have hcons_cache : ∀ x ∈ (s.consumer c).consumingEntries, s'.Cacheable groups c x :=
    fun x hx ↦ hwr.cacheable ⟨ha.consuming x hx, ha.unprocessed hst _ (mem_map_of_mem hx)⟩
  refine hi.of_writes hwr rfl (fun _ ↦ rfl) (fun _ _ h ↦ h) (fun _ _ _ h ↦ h) ?_
    (setSession_other _) ?_
  · intro r x hx hxi hp
    rw [ht] at hx
    rcases setState_cases s.table c.1 c.1 r (s.consumer c).consumingRows (some state) with
      ⟨-, -, heq⟩ | heq
    · rw [(hby x (heq.symm.trans hx)).2]
      exact ha.notRolledBack
    · have := hi.state_processed (heq.symm.trans hx) hp
      rw [hxi] at this
      exact this
  · refine ⟨?_, ?_, ?_, fun _ ↦ ⟨tx, by rw [hcons]; exact htx, ?_⟩⟩
    · rw [hcons]; exact (hi.session c).sorted
    · rw [hcons]; exact fun x hx ↦ (hwr.cacheable ((hi.session c).cacheable x hx)).1
    · rw [hcons]
      intro r hr
      obtain ⟨x, hx, rfl⟩ := mem_map.mp hr
      exact (hwr.cacheable ((hi.session c).cacheable x hx)).2
    exact {
      has := ha.has
      participant := ha.participant
      participant_has := ha.participant_has
      notRolledBack := ha.notRolledBack
      sees := ha.sees
      persisted_of_committed := fun _ ↦ hphase
      sorted := by rw [hcons]; exact ha.sorted
      disjoint := by rw [hcons]; exact ha.disjoint
      consuming := by rw [hcons]; exact fun x hx ↦ (hcons_cache x hx).1
      todo_sorted := by
        rw [hphase]
        exact List.Pairwise.nil
      todo_consuming := by
        rw [hphase]
        exact fun x hx ↦ absurd hx not_mem_nil
      mustClaim_of_claiming := by
        rw [hphase]
        exact fun h ↦ absurd h (by simp)
      claimed := by
        rw [hcons]
        intro x hx _ hl
        refine ⟨(hcons_cache x hx).1.owned hl, fun _ ↦ ⟨state, ?_, rfl⟩⟩
        rw [ht]
        exact setState_of_mem (mem_map_of_mem hx)
      unprocessed := by
        rw [hcons]
        intro _ r hr
        obtain ⟨x, hx, rfl⟩ := mem_map.mp hr
        exact (hcons_cache x hx).2
      flag := by
        have hflag : (s.consumer c).committed = false :=
          Bool.eq_false_iff.mpr fun h ↦ hnp (ha.flag.mp h).1
        rw [hcons, hphase]
        simp [hcons', hflag]
      processed_of := by
        rw [hcons, hphase]
        intro r x hx hxi hxw hp
        refine ⟨rfl, ?_⟩
        rw [ht] at hx
        rcases setState_cases s.table c.1 c.1 r (s.consumer c).consumingRows (some state) with
          ⟨-, hmem, -⟩ | heq
        · exact hmem
        · exact absurd (ha.processed_of (heq.symm.trans hx) hxi hxw hp).1 hnp
      processed := by
        rw [hcons, ht]
        exact fun _ r hr _ ↦ setState_of_mem hr
      visible := by
        intro r x hx hc
        rw [ht] at hx
        rcases setState_cases s.table c.1 c.1 r (s.consumer c).consumingRows (some state) with
          ⟨-, -, heq⟩ | heq
        · exact .inl (hby x (heq.symm.trans hx)).2
        · exact ha.visible (heq.symm.trans hx) hc }

/-- The rows `rollbackTx` writes to. -/
def undoneRows (c : Consumer) : List Row := if c.committed then c.consumingRows else []

/-- What `rollbackTx` writes there. -/
def undoneState (config : ConsumerConfig) (tx : Transaction) : Option StateContent :=
  if mustClaim config then some (encodeStateColumn config tx .claimed) else none

theorem rollbackTx_table (config : ConsumerConfig) (t : Table) (tx : Transaction) (c : Consumer) :
    (Consumer.rollbackTx config t tx c).2 =
      t.setState config.groupId (undoneRows c) (undoneState config tx) := by
  rw [Consumer.rollbackTx, undoneRows]
  by_cases he : c.consumingEntries.isEmpty = true
  · rw [if_pos he, consumingRows, isEmpty_iff.mp he, map_nil, ite_self, setState_nil]
  · rw [if_neg he]
    by_cases hc : c.committed = true
    · simp [hc, undoneState, consumingRows]
    · simp [hc, setState_nil]

theorem rollbackTx_entryCache (config : ConsumerConfig) (t : Table) (tx : Transaction)
    (c : Consumer) : (Consumer.rollbackTx config t tx c).1.entryCache =
      SortedList.putAll rowKey c.consumingEntries c.entryCache := by
  rw [Consumer.rollbackTx]
  split
  · rename_i h
    rw [isEmpty_iff.mp h]
    rfl
  · dsimp only
    split <;> rfl

theorem writes_rollbackTx (ha : s.Active groups c tx)
    (hst : s.manager.statusOf tx.writePointer ≠ some .committed) (hm : s'.manager = s.manager)
    (ht : s'.table = s.table.setState c.1 (undoneRows (s.consumer c))
      (undoneState (groups.consumerConfig c) tx)) :
    Writes groups s s' c tx (undoneRows (s.consumer c))
      (undoneState (groups.consumerConfig c) tx) where
  active := ha
  open_ := hst
  manager := hm
  table := ht
  writable := by
    intro r hr
    rw [undoneRows] at hr
    split at hr
    · -- there is something to undo only after `commitTx`
      rename_i hc
      exact ha.writable (by rw [(ha.flag.mp hc).1]; rfl) hst r hr
    · exact absurd hr not_mem_nil
  writtenBy := by
    rw [undoneState]
    split
    · exact writtenBy_encode c tx .claimed
    · exact fun x hx ↦ absurd hx (by simp)
  claims := fun hmc ↦ ⟨_, by rw [undoneState, if_pos hmc], rfl⟩

theorem inv_rollbackTx (hi : s.Inv groups) (h : s.rollbackTx groups c = some s') :
    s'.Inv groups := by
  obtain ⟨tx, htx, hidle, hst, rfl⟩ := rollbackTx_eq_some h
  obtain ⟨tx', htx', ha⟩ := (hi.session c).active hidle
  obtain rfl := Option.some_inj.mp (htx.symm.trans htx')
  rw [rollbackTx_table]
  set config := groups.consumerConfig c with hconfig
  set consumer' := (Consumer.rollbackTx config s.table tx (s.consumer c)).1 with hcons'
  set s' : State := { s.setSession c ⟨consumer', .idle, false⟩ with
    table := s.table.setState config.groupId (undoneRows (s.consumer c)) (undoneState config tx)
    contexts := update s.contexts tx.writePointer { s.contexts tx.writePointer with
      rolledBack := c :: (s.contexts tx.writePointer).rolledBack } } with hs'
  have ht : s'.table =
    s.table.setState c.1 (undoneRows (s.consumer c)) (undoneState config tx) := rfl
  have hcons : s'.consumer c = consumer' := by simp [hs', consumer, setSession]
  have hcontext : ∀ w, s'.contexts w = if w = tx.writePointer then
      { s.contexts w with rolledBack := c :: (s.contexts w).rolledBack } else s.contexts w := by
    intro w
    simp only [hs', update_apply]
    split
    · rename_i h; rw [h]
    · rfl
  have hwr : Writes groups s s' c tx (undoneRows (s.consumer c)) (undoneState config tx) :=
    writes_rollbackTx ha hst rfl rfl
  have hmem : ∀ x ∈ consumer'.entryCache, s'.Cacheable groups c x := by
    intro x hx
    rw [hcons', rollbackTx_entryCache] at hx
    refine hwr.cacheable ?_
    rcases SortedList.mem_of_mem_putAll hx with hx | hx
    · exact ⟨ha.consuming x hx, ha.unprocessed hst _ (mem_map_of_mem hx)⟩
    · exact (hi.session c).cacheable x hx
  refine hi.of_writes hwr rfl ?_ ?_ ?_ ?_ (setSession_other _) ?_
  · intro w
    rw [hcontext]
    split <;> rfl
  · intro w c' hc'
    rw [hcontext]
    split
    · exact mem_cons_of_mem _ hc'
    · exact hc'
  · intro w c' hne hc'
    rw [hcontext] at hc'
    split at hc'
    · exact (mem_cons.mp hc').resolve_left hne
    · exact hc'
  · -- no PROCESSED state of this transaction is left
    intro r x hx hxi hp
    rw [ht] at hx
    rcases setState_cases s.table c.1 c.1 r (undoneRows (s.consumer c)) (undoneState config tx) with
      ⟨-, -, heq⟩ | heq
    · have hx := heq.symm.trans hx
      rw [undoneState] at hx
      split at hx
      · obtain rfl := Option.some_inj.mp hx
        exact absurd hp (by simp [encodeStateColumn])
      · exact absurd hx (by simp)
    · have hold := heq.symm.trans hx
      rw [hcontext]
      split
      · rename_i hxw
        obtain ⟨hper, hmemr⟩ := ha.processed_of hold hxi hxw hp
        have hne : (s.consumer c).consumingEntries ≠ [] := by
          intro hnil
          rw [consumingRows, hnil] at hmemr
          exact absurd hmemr not_mem_nil
        have hmemr : r ∈ undoneRows (s.consumer c) := by
          rw [undoneRows, if_pos (ha.flag.mpr ⟨hper, hne⟩)]
          exact hmemr
        rw [setState_of_mem hmemr, undoneState] at hx
        split at hx
        · obtain rfl := Option.some_inj.mp hx
          exact absurd hp (by simp [encodeStateColumn])
        · exact absurd hx (by simp)
      · have := hi.state_processed hold hp
        rw [hxi] at this
        exact this
  · refine ⟨?_, ?_, ?_, fun h ↦ absurd (by simp [hs', phase, setSession]) h⟩
    · rw [hcons, hcons', rollbackTx_entryCache]
      exact (hi.session c).sorted.putAll _
    · rw [hcons]; exact fun x hx ↦ (hmem x hx).1
    · rw [hcons]
      intro r hr
      obtain ⟨x, hx, rfl⟩ := mem_map.mp hr
      exact (hmem x hx).2

/-! ## Producers and the region server -/

theorem foldl_putEntry_state (l : List (Row × QueueEntry)) (t : Table) :
    (l.foldl (fun t p ↦ t.putEntry p.1 p.2) t).state = t.state := by
  induction l generalizing t with
  | nil => rfl
  | cons p l ih => exact ih (t.putEntry p.1 p.2)

theorem foldl_putEntry_entry (l : List (Row × QueueEntry)) (t : Table) {r : Row}
    (h : ∀ p ∈ l, p.1 ≠ r) : (l.foldl (fun t p ↦ t.putEntry p.1 p.2) t).entry r = t.entry r := by
  induction l generalizing t with
  | nil => rfl
  | cons p l ih =>
    have hp : r ≠ p.1 := (h p (by simp)).symm
    refine (ih (t.putEntry p.1 p.2) fun q hq ↦ h q (mem_cons_of_mem _ hq)).trans ?_
    simp [Table.putEntry, hp]

theorem foldl_deleteRow (l : List Row) (t : Table) (r : Row) :
    ((l.foldl Table.deleteRow t).entry r = if r ∈ l then none else t.entry r) ∧
      ∀ g, (l.foldl Table.deleteRow t).state g r = if r ∈ l then none else t.state g r := by
  induction l generalizing t with
  | nil => simp
  | cons x l ih =>
    obtain ⟨h1, h2⟩ := ih (t.deleteRow x)
    simp only [foldl_cons, h1, h2, mem_cons, Table.deleteRow_entry,
      Table.deleteRow_state]
    by_cases hx : r = x <;> by_cases hl : r ∈ l <;> simp [hx, hl]

variable {w : Nat}

theorem mem_entryRows {entries : List QueueEntry} {p : Row × QueueEntry}
    (h : p ∈ entryRows w entries) : p.1.writePointer = w := by
  obtain ⟨q, -, rfl⟩ := mem_map.mp h
  rfl

/-- What producers and the region server do to the table: they add entries of transactions that are
not committed, and take rows away with all that is on them. -/
structure Edits (s : State) (t : Table) : Prop where
  entry : ∀ r, t.entry r ≠ none → t.entry r = s.table.entry r ∨
    ∃ st, s.manager.info r.writePointer = some ⟨true, st⟩ ∧ st ≠ .aborted ∧ st ≠ .committed
  state : ∀ g r st, t.state g r = some st → s.table.state g r = some st
  live : ∀ g r, t.entry r ≠ none → t.state g r = s.table.state g r

theorem edits_persist {entries : List QueueEntry} (h : s.persist w entries = some s') :
    ∃ t, Edits s t ∧ s' = { s with table := t } := by
  rw [persist] at h
  split at h
  · rename_i hc
    refine ⟨_, ⟨?_, ?_, ?_⟩, (Option.some_inj.mp h).symm⟩
    · intro r _
      by_cases hr : r.writePointer = w
      · rw [hr]
        rcases hc.1 with h | h
        · exact .inr ⟨_, h, by simp, by simp⟩
        · exact .inr ⟨_, h, by simp, by simp⟩
      · refine .inl (foldl_putEntry_entry _ _ fun p hp heq ↦ hr ?_)
        rw [← heq]
        exact mem_entryRows hp
    · intro g r st hst
      rw [foldl_putEntry_state] at hst
      exact hst
    · intro g r _
      rw [foldl_putEntry_state]
  · exact absurd h (by simp)

theorem edits_unpersist (h : s.unpersist w = some s') :
    ∃ t, Edits s t ∧ s' = { s with table := t } := by
  rw [unpersist] at h
  split at h
  · set l := s.table.rows.filter fun r ↦ r.writePointer = w with hl
    have hnot : ∀ r, (l.foldl Table.deleteRow s.table).entry r ≠ none → r ∉ l := by
      intro r hr hmem
      rw [(foldl_deleteRow l s.table r).1, if_pos hmem] at hr
      exact hr rfl
    refine ⟨_, ⟨?_, ?_, ?_⟩, (Option.some_inj.mp h).symm⟩
    · intro r hr
      rw [(foldl_deleteRow l s.table r).1, if_neg (hnot r hr)]
      exact .inl rfl
    · intro g r st hst
      rw [(foldl_deleteRow l s.table r).2] at hst
      split at hst
      · exact absurd hst (by simp)
      · exact hst
    · intro g r hr
      rw [(foldl_deleteRow l s.table r).2, if_neg (hnot r hr)]
  · exact absurd h (by simp)

theorem edits_evict {config : QueueConsumerConfig} {r : Row}
    (h : s.evict groups config r = some s') : ∃ t, Edits s t ∧ s' = { s with table := t } := by
  rw [evict] at h
  split at h
  · have hne : ∀ r', (s.table.deleteRow r).entry r' ≠ none → r' ≠ r := by
      rintro r' hr' rfl
      exact hr' (by simp)
    refine ⟨_, ⟨?_, ?_, ?_⟩, (Option.some_inj.mp h).symm⟩
    · intro r' hr'
      exact .inl (by simp [hne r' hr'])
    · intro g r' st hst
      by_cases heq : r' = r
      · simp [heq] at hst
      · simpa [heq] using hst
    · intro g r' hr'
      simp [hne r' hr']
  · exact absurd h (by simp)

/-- Committed rows keep their entry, unless they are taken away. -/
theorem Edits.entry_eq {t : Table} (h : Edits s t) {r : Row}
    (hr : s.manager.statusOf r.writePointer = some .committed) (hl : t.entry r ≠ none) :
    t.entry r = s.table.entry r := by
  rcases h.entry r hl with heq | ⟨st, hst, -, hne⟩
  · exact heq
  · rw [Manager.statusOf, hst] at hr
    exact absurd (Option.some_inj.mp hr) hne

theorem Edits.entry_some {t : Table} (h : Edits s t) {r : Row} {e : QueueEntry}
    (hr : s.manager.statusOf r.writePointer = some .committed) (he : t.entry r = some e) :
    s.table.entry r = some e := by
  rw [← h.entry_eq hr (by rw [he]; simp)]
  exact he

theorem Edits.frame {t : Table} (h : Edits s t) : Frame groups s { s with table := t } c where
  committed := fun _ ↦ Iff.rfl
  sees := fun hs ↦ hs
  entry := fun hr he ↦ h.entry_some hr he
  participants := fun _ ↦ rfl
  rolledBack := fun _ hroll ↦ hroll
  state_mine := fun _ _ hl ↦ h.live _ _ hl
  state_of_by := fun hst _ ↦ h.state _ _ _ hst
  state_of_committed := fun hst _ ↦ h.state _ _ _ hst

theorem Inv.of_edits (hi : s.Inv groups) {t : Table} (h : Edits s t) :
    ({ s with table := t } : State).Inv groups where
  entry := fun {r} hl ↦ by
    rcases h.entry r hl with heq | ⟨st, hst, hne, -⟩
    · exact hi.entry (r := r) (by rw [Live, ← heq]; exact hl)
    · exact ⟨st, hst, hne⟩
  state_committed := fun hst ↦ hi.state_committed (h.state _ _ _ hst)
  state_participant := fun hst ↦ hi.state_participant (h.state _ _ _ hst)
  state_processed := fun hst ↦ hi.state_processed (h.state _ _ _ hst)
  state_owned := fun {g r st} hst hl ↦ by
    have hold := h.state _ _ _ hst
    have heq := h.entry_eq (hi.state_committed hold) hl
    obtain ⟨e, he, ho⟩ := hi.state_owned hold (by rw [Live, ← heq]; exact hl)
    exact ⟨e, heq.trans he, ho⟩
  context_started := hi.context_started
  context_aborted := hi.context_aborted
  log := fun {g w r} hlog ↦ by
    obtain ⟨h1, hr, h2⟩ := hi.log hlog
    refine ⟨h1, hr, fun hl ↦ ?_⟩
    obtain ⟨i, hcell⟩ := h2 (by rw [Live, ← h.entry_eq hr hl]; exact hl)
    exact ⟨i, (h.live g r hl).trans hcell⟩
  session := fun c ↦ h.frame.sessionInv rfl (hi.session c)

/-! ## The manager -/

/-- Giving a transaction up, or having it rolled back, is noticed by nobody. -/
theorem frame_finish {st : Status} {m : Manager} (hne : st ≠ .committed)
    (h : s.manager.finish? w st = some m) : Frame groups s { s with manager := m } c where
  committed := fun _ ↦ ⟨Manager.committed_of_finish h hne, Manager.committed_finish h⟩
  sees := fun hs ↦ hs.finish h
  entry := fun _ he ↦ he
  participants := fun _ ↦ rfl
  rolledBack := fun _ hp ↦ hp
  state_mine := fun _ _ _ ↦ rfl
  state_of_by := fun hst _ ↦ hst
  state_of_committed := fun hst _ ↦ hst

/-- The kind of a transaction never changes. -/
theorem info_finish {w v : Nat} {st st' : Status} {m m' : Manager} (h : m.finish? w st = some m')
    (hv : m.info v = some ⟨true, st'⟩) :
    m'.info v = some ⟨true, if v = w then st else st'⟩ := by
  obtain ⟨i, hi, -, -, hinfo⟩ := Manager.finish?_eq_some_iff.mp h
  rw [hinfo, update_apply]
  split
  · rename_i heq
    rw [heq, hi] at hv
    rw [Option.some_inj.mp hv]
  · exact hv

theorem Inv.of_finish (hi : s.Inv groups) {st : Status} {m : Manager}
    (hne : st ≠ .committed) (h : s.manager.finish? w st = some m)
    (habort : st = .aborted → (∀ c ∈ (s.contexts w).participants, c ∈ (s.contexts w).rolledBack) ∧
      ∀ r ∈ s.table.rows, r.writePointer ≠ w) :
    ({ s with manager := m } : State).Inv groups where
  entry := fun {r} hl ↦ by
    obtain ⟨st', hst', hne'⟩ := hi.entry (r := r) hl
    refine ⟨_, info_finish h hst', ?_⟩
    split
    · rename_i heq
      intro hst
      exact (habort hst).2 r (s.table.mem_rows.mpr hl) heq
    · exact hne'
  state_committed := fun hs ↦ Manager.committed_finish h (hi.state_committed hs)
  state_participant := hi.state_participant
  state_processed := hi.state_processed
  state_owned := hi.state_owned
  context_started := fun hp ↦ by
    obtain ⟨st', hst'⟩ := hi.context_started hp
    exact ⟨_, info_finish h hst'⟩
  context_aborted := fun {v c} hv hp ↦ by
    have hv : m.statusOf v = some .aborted := hv
    rw [Manager.statusOf_finish h] at hv
    split at hv
    · rename_i heq
      have hp : c ∈ (s.contexts v).participants := hp
      rw [heq] at hp ⊢
      exact (habort (Option.some_inj.mp hv)).1 c hp
    · exact hi.context_aborted hv hp
  log := fun hl ↦ by
    obtain ⟨h1, h2, h3⟩ := hi.log hl
    exact ⟨Manager.committed_finish h h1, Manager.committed_finish h h2, h3⟩
  session := fun c ↦ (frame_finish hne h).sessionInv rfl (hi.session c)

theorem inv_abort (hi : s.Inv groups) (h : s.abort w = some s') : s'.Inv groups := by
  obtain ⟨hroll, hrows, m, hm, rfl⟩ := abort_eq_some h
  exact hi.of_finish (by simp) hm fun _ ↦ ⟨hroll, hrows⟩

theorem inv_invalidate (hi : s.Inv groups) (h : s.invalidate w = some s') :
    s'.Inv groups := by
  obtain ⟨m, hm, rfl⟩ := Option.map_eq_some_iff.mp h
  exact hi.of_finish (by simp) hm fun h ↦ absurd h (by simp)

theorem inv_begin {short : Bool} {participants : List ConsumerId} (hi : s.Inv groups)
    (h : s.begin groups tx short participants = some s') : s'.Inv groups := by
  obtain ⟨hsnap, hshort, hpart, m, hm, rfl⟩ := begin_eq_some h
  obtain ⟨-, -, hinfo⟩ := Manager.start?_eq_some_iff.mp hm
  have hnew : ∀ {w : Nat} {i : Info}, s.manager.info w = some i → w ≠ tx.writePointer := by
    intro w i hw heq
    have hle := s.manager.le_last (w := w) (by simp [hw])
    have hlt := hsnap.new
    omega
  have hkeep : ∀ {w : Nat} {i : Info}, s.manager.info w = some i → m.info w = some i := by
    intro w i hw
    rw [hinfo, update_of_ne (hnew hw)]
    exact hw
  have hold : ∀ {w : Nat}, s.manager.statusOf w ≠ none →
      update s.contexts tx.writePointer ⟨participants, []⟩ w = s.contexts w := by
    intro w hw
    refine update_of_ne ?_ _ _
    obtain ⟨i, hi⟩ := Option.ne_none_iff_exists'.mp fun h : s.manager.info w = none ↦
      hw (by simp [Manager.statusOf, h])
    exact hnew hi
  have hctx : ∀ {w : Nat} {c : ConsumerId}, c ∈ (s.contexts w).participants →
      update s.contexts tx.writePointer ⟨participants, []⟩ w = s.contexts w := by
    intro w c hc
    obtain ⟨st, hst⟩ := hi.context_started hc
    exact hold (by simp [Manager.statusOf, hst])
  set s' : State := { s with
    manager := m
    contexts := update s.contexts tx.writePointer ⟨participants, []⟩
    sessions := fun c ↦
      if c ∈ participants then ⟨(s.consumer c).startTx tx, .ready, false⟩ else s.sessions c }
    with hs'
  have hle : ∀ {w : Nat}, w ≤ s.manager.last → s'.contexts w = s.contexts w := by
    intro w hw
    refine update_of_ne ?_ _ _
    have hlt := hsnap.new
    omega
  have hframe : ∀ c, Frame groups s s' c := fun c ↦ {
    committed := fun _ ↦ Manager.committed_start hm
    sees := fun hs ↦ hs.start hm
    entry := fun _ he ↦ he
    participants := fun hw ↦ by rw [hle hw]
    rolledBack := fun hw hp ↦ by rw [← hle hw]; exact hp
    state_mine := fun _ _ _ ↦ rfl
    state_of_by := fun hst _ ↦ hst
    state_of_committed := fun hst _ ↦ hst }
  exact {
    entry := fun hl ↦ by
      obtain ⟨st, hst, hne⟩ := hi.entry hl
      exact ⟨st, hkeep hst, hne⟩
    state_committed := fun hst ↦ (Manager.committed_start hm).mpr (hi.state_committed hst)
    state_participant := fun hst ↦ by
      have hp := hi.state_participant hst
      show _ ∈ (update s.contexts tx.writePointer ⟨participants, []⟩ _).participants
      rw [hctx hp]
      exact hp
    state_processed := fun hst hp ↦ by
      have hroll := hi.state_processed hst hp
      show _ ∉ (update s.contexts tx.writePointer ⟨participants, []⟩ _).rolledBack
      rw [hctx (hi.state_participant hst)]
      exact hroll
    state_owned := hi.state_owned
    context_started := fun {w c} hc ↦ by
      have hc : c ∈ (update s.contexts tx.writePointer ⟨participants, []⟩
        w).participants :=
        hc
      rw [update_apply] at hc
      split at hc
      · rename_i heq
        -- only short transactions have participants
        cases short with
        | true => exact ⟨.inProgress, by rw [heq, hinfo, update_self]⟩
        | false => rw [hshort rfl] at hc; exact absurd hc not_mem_nil
      · obtain ⟨st, hst⟩ := hi.context_started hc
        exact ⟨st, hkeep hst⟩
    context_aborted := fun {w c} hw hc ↦ by
      have hw : m.statusOf w = some .aborted := hw
      rw [Manager.statusOf_start hm] at hw
      split at hw
      · exact absurd hw (by simp)
      · have heq := hold (w := w) (by simp [hw])
        have hc : c ∈ (update s.contexts tx.writePointer ⟨participants, []⟩
          w).participants :=
          hc
        show c ∈ (update s.contexts tx.writePointer ⟨participants, []⟩ w).rolledBack
        rw [heq] at hc ⊢
        exact hi.context_aborted hw hc
    log := fun hl ↦ by
      obtain ⟨h1, h2, h3⟩ := hi.log hl
      exact ⟨(Manager.committed_start hm).mpr h1, (Manager.committed_start hm).mpr h2, h3⟩
    session := fun c ↦ by
      by_cases hc : c ∈ participants
      · have hsess : s'.sessions c = ⟨(s.consumer c).startTx tx, .ready, false⟩ := if_pos hc
        have hcons : s'.consumer c = (s.consumer c).startTx tx := by rw [consumer, hsess]
        have hphase : s'.phase c = .ready := by rw [phase, hsess]
        refine SessionInv.of_cache (hframe c) ?_ ?_ fun _ ↦ ⟨tx, by rw [hcons]; rfl, ?_⟩
        · rw [hcons]; exact (hi.session c).sorted
        · rw [hcons]; exact (hi.session c).cacheable
        have hself : s'.contexts tx.writePointer = ⟨participants, []⟩ := update_self ..
        have hnil : (s'.consumer c).consumingEntries = [] := by rw [hcons]; rfl
        exact {
          has := (hpart c hc).1
          participant := by rw [hself]; exact hc
          participant_has := by rw [hself]; exact fun c' hc' _ ↦ (hpart c' hc').1
          notRolledBack := by rw [hself]; exact not_mem_nil
          sees := hsnap.sees hm
          persisted_of_committed := fun h ↦ by
            have h := (Manager.committed_start hm).mp h
            have := Manager.statusOf_le_last h
            have := hsnap.new
            omega
          sorted := by rw [hnil]; exact List.Pairwise.nil
          disjoint := fun r _ ↦ by rw [consumingRows, hnil]; exact not_mem_nil
          consuming := fun x hx ↦ by rw [hnil] at hx; exact absurd hx not_mem_nil
          todo_sorted := by rw [hphase]; exact List.Pairwise.nil
          todo_consuming := fun x hx ↦ by rw [hphase] at hx; exact absurd hx not_mem_nil
          mustClaim_of_claiming := fun h ↦ by rw [hphase] at h; exact absurd h (by simp)
          claimed := fun x hx ↦ by rw [hnil] at hx; exact absurd hx not_mem_nil
          unprocessed := fun _ r hr ↦ by
            rw [consumingRows, hnil] at hr; exact absurd hr not_mem_nil
          flag := by
            rw [hphase, hcons]
            simp [startTx]
          processed_of := fun {r st} hst _ hw _ ↦ by
            -- no state carries an id that was not in use yet
            obtain ⟨_, hinf⟩ := hi.context_started (hi.state_participant hst)
            exact absurd hw (hnew hinf)
          processed := fun h ↦ by rw [hphase] at h; exact absurd h (by simp)
          visible := fun {r st} hst hcom ↦ by
            have hcom := (Manager.committed_start hm).mp hcom
            exact .inr (.inr (hsnap.committed _ (Manager.statusOf_le_last hcom) hcom)) }
      · exact (hframe c).sessionInv (if_neg hc) (hi.session c) }

/-! ## Committing -/

section Commit

variable {w : Nat} {m : Manager} (hi : s.Inv groups) (hm : s.manager.finish? w .committed = some m)
  (hpers : ∀ c ∈ (s.contexts w).participants, s.HasPersisted w c)

include hi in
/-- A participant that has persisted its changes is in the transaction. -/
theorem Inv.active_of_hasPersisted (h : s.HasPersisted w c) :
    ∃ tx, (s.consumer c).transaction = some tx ∧ tx.writePointer = w ∧ s.Active groups c tx := by
  obtain ⟨hph, htx⟩ := h
  obtain ⟨tx, htx', ha⟩ := (hi.session c).active (by rw [hph]; simp)
  rw [htx', Option.map_some, Option.some_inj] at htx
  exact ⟨tx, htx', htx, ha⟩

include hm in
theorem committed_of_commit {v : Nat} (h : m.statusOf v = some .committed) :
    v = w ∨ s.manager.statusOf v = some .committed := by
  rw [Manager.statusOf_finish hm] at h
  split at h
  · rename_i heq; exact .inl heq
  · exact .inr h

include hi hpers in
/-- The states of the committing transaction are those of its participants, on rows that they
consume. -/
theorem Inv.state_of_commit {g : Nat} {r : Row} {st : StateContent}
    (hst : s.table.state g r = some st) (hw : st.writePointer = w) :
    ∃ tx, (s.consumer (g, st.instanceId)).transaction = some tx ∧ tx.writePointer = w ∧
      s.Active groups (g, st.instanceId) tx := by
  have hp := hi.state_participant hst
  rw [hw] at hp
  exact hi.active_of_hasPersisted (hpers _ hp)

include hi hm hpers in
/-- A row that a consumer owns becomes processed only if that consumer consumes it in the
committing transaction. -/
theorem Inv.processed_of_commit (hhas : groups.Has c) {r : Row} (hmine : s.Mine groups c r)
    (hp : ({ s with manager := m } : State).Processed c.1 r) (hnp : ¬ s.Processed c.1 r) :
    ∃ tx, (s.consumer c).transaction = some tx ∧ tx.writePointer = w ∧
      r ∈ (s.consumer c).consumingRows ∧ s.Active groups c tx := by
  obtain ⟨st, hst, hproc, hcom⟩ := hp
  rcases committed_of_commit hm hcom with hw | hold
  · obtain ⟨tx, htx, htw, ha⟩ := hi.state_of_commit hpers hst hw
    have hother : s.Mine groups (c.1, st.instanceId) r :=
      ⟨hi.state_owned hst hmine.live, fun _ ↦ ⟨st, hst, rfl⟩⟩
    have heq : c = (c.1, st.instanceId) := hmine.unique hhas ha.has rfl hother
    have hmem := (ha.processed_of hst rfl (hw.trans htw.symm) hproc).2
    rw [← heq] at htx hmem ha
    exact ⟨tx, htx, htw, hmem, ha⟩
  · exact absurd ⟨st, hst, hproc, hold⟩ hnp

end Commit

theorem inv_commit (hi : s.Inv groups) (h : s.commit w = some s') : s'.Inv groups := by
  obtain ⟨-, hpers, m, hm, rfl⟩ := commit_eq_some h
  have hmono : ∀ {v : Nat}, s.manager.statusOf v = some .committed →
      m.statusOf v = some .committed := Manager.committed_finish hm
  have hw : m.statusOf w = some .committed := by
    rw [Manager.statusOf_finish hm, if_pos rfl]
  have hholds : ∀ {c : ConsumerId} {x : SimpleQueueEntry}, s.Holds groups c x →
      ({ s with manager := m } : State).Holds groups c x :=
    fun hx ↦ ⟨hmono hx.committed, hx.has, hx.owned, hx.claimed⟩
  have hinv : ({ s with manager := m } : State).Inv groups := {
    entry := fun {r} hl ↦ by
      obtain ⟨st, hst, hne⟩ := hi.entry (r := r) hl
      refine ⟨_, info_finish hm hst, ?_⟩
      split
      · simp
      · exact hne
    state_committed := fun hst ↦ hmono (hi.state_committed hst)
    state_participant := hi.state_participant
    state_processed := hi.state_processed
    state_owned := hi.state_owned
    context_started := fun hc ↦ by
      obtain ⟨st, hst⟩ := hi.context_started hc
      exact ⟨_, info_finish hm hst⟩
    context_aborted := fun {v c} hv hc ↦ by
      have hv : m.statusOf v = some .aborted := hv
      rw [Manager.statusOf_finish hm] at hv
      split at hv
      · exact absurd hv (by simp)
      · exact hi.context_aborted hv hc
    log := fun hl ↦ by
      obtain ⟨h1, h2, h3⟩ := hi.log hl
      exact ⟨hmono h1, hmono h2, h3⟩
    session := fun c ↦ {
      sorted := (hi.session c).sorted
      cached := fun x hx ↦ hholds ((hi.session c).cached x hx)
      unprocessed := fun r hr hmine hp ↦ by
        obtain ⟨x, hx, rfl⟩ := mem_map.mp hr
        obtain ⟨tx, -, -, hmem, ha⟩ := hi.processed_of_commit hm hpers
          ((hi.session c).cached x hx).has hmine hp ((hi.session c).unprocessed _ hr hmine)
        exact ha.disjoint _ hr hmem
      active := fun hph ↦ by
        obtain ⟨tx, htx, ha⟩ := (hi.session c).active hph
        refine ⟨tx, htx, ?_⟩
        exact {
          has := ha.has
          participant := ha.participant
          participant_has := ha.participant_has
          notRolledBack := ha.notRolledBack
          sees := ha.sees.finish hm
          persisted_of_committed := fun hcom ↦ by
            rcases committed_of_commit hm hcom with heq | hold
            · have hp := ha.participant
              rw [heq] at hp
              exact (hpers c hp).1
            · exact ha.persisted_of_committed hold
          sorted := ha.sorted
          disjoint := ha.disjoint
          consuming := fun x hx ↦ hholds (ha.consuming x hx)
          todo_sorted := ha.todo_sorted
          todo_consuming := ha.todo_consuming
          mustClaim_of_claiming := ha.mustClaim_of_claiming
          claimed := ha.claimed
          unprocessed := fun hcom r hr hmine hp ↦ by
            obtain ⟨tx', htx', htw, -, -⟩ := hi.processed_of_commit hm hpers ha.has hmine hp
              (ha.unprocessed (fun h ↦ hcom (hmono h)) r hr hmine)
            obtain rfl := Option.some_inj.mp (htx.symm.trans htx')
            rw [htw] at hcom
            exact hcom hw
          flag := ha.flag
          processed_of := ha.processed_of
          processed := ha.processed
          visible := fun {r st} hst hcom ↦ by
            rcases committed_of_commit hm hcom with heq | hold
            · obtain ⟨tx', htx', htw, ha'⟩ := hi.state_of_commit hpers hst heq
              by_cases hself : st.instanceId = c.2
              · rw [hself] at htx'
                obtain rfl := Option.some_inj.mp (htx.symm.trans htx')
                exact .inl (heq.trans htw.symm)
              · exact .inr (.inl ⟨hself, ha'.has.2⟩)
            · exact ha.visible hst hold } } }
  exact { hinv with
    log := fun {g v r} hl ↦ by
      rcases mem_append.mp hl with hl | hl
      · exact hinv.log hl
      · -- the rows that are logged now are those the participants have marked
        obtain ⟨c, hc, hl⟩ := mem_flatMap.mp hl
        obtain ⟨hpart, hg⟩ := mem_filter.mp hc
        obtain ⟨r', hr', heq⟩ := mem_map.mp hl
        obtain ⟨rfl, rfl⟩ := Prod.mk.inj heq
        obtain rfl : c.1 = g := by simpa using hg
        obtain ⟨tx, -, htw, ha⟩ := hi.active_of_hasPersisted (hpers c hpart)
        obtain ⟨x, hx, rfl⟩ := mem_map.mp hr'
        refine ⟨hw, hmono (ha.consuming x hx).committed, fun hlive ↦ ⟨c.2, ?_⟩⟩
        have := ha.processed (hpers c hpart).1 _ hr' hlive
        rw [htw] at this
        exact this
    session := fun c ↦
      Frame.sessionInv (s := { s with manager := m }) (.of_eq rfl rfl rfl) rfl (hinv.session c) }

/-! ## All steps -/

theorem inv_init (groups : Groups) : (State.init).Inv groups where
  entry := fun h ↦ absurd rfl h
  state_committed := fun h ↦ absurd h (by simp [init, Table.empty])
  state_participant := fun h ↦ absurd h (by simp [init, Table.empty])
  state_processed := fun h ↦ absurd h (by simp [init, Table.empty])
  state_owned := fun h ↦ absurd h (by simp [init, Table.empty])
  context_started := fun h ↦ absurd h not_mem_nil
  context_aborted := fun _ h ↦ absurd h not_mem_nil
  log := fun h ↦ absurd h not_mem_nil
  session := fun _ ↦ ⟨List.Pairwise.nil, fun _ h ↦ absurd h not_mem_nil,
    fun _ h ↦ absurd h not_mem_nil, fun h ↦ absurd rfl h⟩

/-- **Every step keeps the invariant.** -/
theorem inv_step {a : Action} (hi : s.Inv groups) (h : s.step groups a = some s') :
    s'.Inv groups := by
  cases a with
  | begin tx short participants => exact inv_begin hi h
  | persist w entries =>
    obtain ⟨t, ht, rfl⟩ := edits_persist h
    exact hi.of_edits ht
  | unpersist w =>
    obtain ⟨t, ht, rfl⟩ := edits_unpersist h
    exact hi.of_edits ht
  | dequeue c n => exact inv_dequeue hi h
  | fetch c => exact inv_fetch hi h
  | claim c => exact inv_claim hi h
  | commitTx c => exact inv_commitTx hi h
  | commit w => exact inv_commit hi h
  | postTxCommit c saved => exact inv_postTxCommit hi h
  | rollbackTx c => exact inv_rollbackTx hi h
  | abort w => exact inv_abort hi h
  | invalidate w => exact inv_invalidate hi h
  | restart c close => exact inv_restart hi h
  | refresh => exact inv_refresh hi h
  | evict config r =>
    obtain ⟨t, ht, rfl⟩ := edits_evict h
    exact hi.of_edits ht

/-- **The invariant holds along every run.** -/
theorem inv_run {ok : State → Action → Prop} {as : List Action}
    (hi : s.Inv groups) (h : Lts.Run (step groups) ok s as s') : s'.Inv groups :=
  h.invariant (fun hi _ hstep ↦ inv_step hi hstep) hi

end State
end Tigon
