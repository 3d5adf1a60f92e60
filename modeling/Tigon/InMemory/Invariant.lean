import Tigon.InMemory.System

/-!
# What holds in every run of the in-memory queue

`Frame` collects what no step takes back, whoever makes it.  `Inv` holds in every state that can be
reached, whatever the consumers do and however their groups are resized:

What the others do to a consumer is all in `Frame`.  So there are two lemmas on each step: what it
does to the consumer that takes it, and that it is a frame for the others.

* a consumer in a transaction has a snapshot it may rely on, and takes part in a transaction that is
  not committed before the consumer has called `commitTx`;
* the keys it acknowledges are keys that were returned to it, each in a result without repetitions;
* every key in use was given out by its producer.
-/

set_option autoImplicit false

open Mvcc

namespace Tigon.InMemory.State

open Function

variable {s s' : State} {a : Action} {c : ConsumerId} {key : Key} {g w : Nat} {tx : Transaction}

/-! ## What no step takes back -/

/-- `Books s s' a`: what the action `a` does to the fields that are neither the queue nor the
consumers. -/
inductive Books (s s' : State) : Action → Prop
  | same {a : Action} (hgroups : s'.groups = s.groups) (hmanager : s'.manager = s.manager)
      (hcontexts : ∀ w, (s'.contexts w).participants = (s.contexts w).participants)
      (henqueued : s'.enqueued = s.enqueued) (hlog : s'.log = s.log) : Books s s' a
  | begin {tx : Transaction} {short : Bool} {participants : List ConsumerId}
      (hm : s.manager.start? tx.writePointer short = some s'.manager)
      (hgroups : s'.groups = s.groups)
      (hcontexts : ∀ w, w ≠ tx.writePointer → s'.contexts w = s.contexts w)
      (henqueued : s'.enqueued = s.enqueued) (hlog : s'.log = s.log) :
      Books s s' (.begin tx short participants)
  | enqueue {w : Nat} {entry : QueueEntry} (hinfo : s.manager.info w = some ⟨true, .inProgress⟩ ∨
        s.manager.info w = some ⟨true, .invalid⟩)
      (heq : s' = { s with
        queue := s.queue.enqueue w (s.enqueued w) entry
        enqueued := update s.enqueued w (s.enqueued w + 1) }) :
      Books s s' (.enqueue w entry)
  | commit {w : Nat} (hpart : ∀ c ∈ (s.contexts w).participants, s.HasPersisted w c)
      (hm : s.manager.finish? w .committed = some s'.manager)
      (heq : s' = { s with manager := s'.manager, log := fun g ↦ s.log g ++ s.logged w g }) :
      Books s s' (.commit w)
  | finish {a : Action} {w : Nat} {st : Status} (hst : st ≠ .committed)
      (hm : s.manager.finish? w st = some s'.manager)
      (heq : s' = { s with manager := s'.manager }) : Books s s' a
  | resize {g n : Nat} {hpos : 0 < n} (heq : s' = { s with
      groups := s.groups.resize g n hpos
      sessions := fun c ↦ if c.1 = g then .new else s.sessions c }) : Books s s' (.resize g n)

theorem books_step (h : s.step a = some s') : Books s s' a := by
  cases a with
  | begin tx short participants =>
    obtain ⟨-, -, -, m, hm, rfl⟩ := begin_eq_some h
    exact .begin hm rfl (fun w hw ↦ update_of_ne hw _ _) rfl rfl
  | enqueue w entry =>
    obtain ⟨hinfo, heq⟩ := enqueue_eq_some h
    exact .enqueue hinfo heq
  | undoEnqueue v =>
    obtain ⟨-, rfl⟩ := undoEnqueue_eq_some h
    exact .same rfl rfl (fun _ ↦ rfl) rfl rfl
  | dequeue c n =>
    obtain ⟨-, rfl⟩ := dequeue_eq_some h
    exact .same rfl rfl (fun _ ↦ rfl) rfl rfl
  | scan c =>
    obtain ⟨session, heq, -, -⟩ := scan_cases h
    rw [heq]
    exact .same rfl rfl (fun _ ↦ rfl) rfl rfl
  | reclaim c result =>
    obtain ⟨-, -, rfl⟩ := reclaim_eq_some h
    exact .same rfl rfl (fun _ ↦ rfl) rfl rfl
  | commitTx c =>
    obtain ⟨-, rfl⟩ := commitTx_eq_some h
    exact .same rfl rfl (fun _ ↦ rfl) rfl rfl
  | commit w =>
    obtain ⟨-, hpart, m, hm, rfl⟩ := commit_eq_some h
    exact .commit hpart hm rfl
  | postTxCommit c =>
    obtain ⟨tx, -, -, -, rfl⟩ := postTxCommit_eq_some h
    exact .same rfl rfl (fun _ ↦ rfl) rfl rfl
  | rollbackTx c =>
    obtain ⟨tx, -, -, -, rfl⟩ := rollbackTx_eq_some h
    refine .same rfl rfl (fun w ↦ ?_) rfl rfl
    by_cases hw : w = tx.writePointer
    · simp [hw]
    · simp [update_of_ne hw]
  | abort w =>
    obtain ⟨m, hm, rfl⟩ := abort_eq_some h
    exact .finish (by simp) hm rfl
  | invalidate w =>
    obtain ⟨m, hm, rfl⟩ := invalidate_eq_some h
    exact .finish (by simp) hm rfl
  | resize g n =>
    obtain ⟨hpos, heq⟩ := resize_eq_some h
    exact .resize heq

/-- What no step takes back. -/
structure Frame (s s' : State) : Prop where
  /-- A snapshot stays good, and what has come to its end does not begin again. -/
  sees : ∀ {tx}, Sees s.manager tx → Sees s'.manager tx
  pending : ∀ {w}, s'.manager.Pending w → s.manager.Pending w
  committed : ∀ {w}, s.manager.statusOf w = some .committed →
    s'.manager.statusOf w = some .committed
  last : s.manager.last ≤ s'.manager.last
  log : ∀ {g p}, p ∈ s.log g → p ∈ s'.log g
  enqueued : ∀ w, s.enqueued w ≤ s'.enqueued w
  /-- Nobody joins a transaction after its start. -/
  participants : ∀ {w}, w ≤ s.manager.last →
    (s'.contexts w).participants = (s.contexts w).participants

/-- A step that leaves the manager alone, or ends a transaction, takes nothing back. -/
theorem Frame.of_finish (st : Status) (hm : s'.manager = s.manager ∨
      ∃ w, s.manager.finish? w st = some s'.manager) (hlog : ∀ g, s.log g ⊆ s'.log g)
    (henq : ∀ w, s.enqueued w ≤ s'.enqueued w)
    (hpart : ∀ w, (s'.contexts w).participants = (s.contexts w).participants) : Frame s s' := by
  rcases hm with hm | ⟨w, hm⟩
  · exact ⟨by rw [hm]; exact id, by rw [hm]; exact id, by rw [hm]; exact id, by rw [hm],
      fun hp ↦ hlog _ hp, henq, fun _ ↦ hpart _⟩
  · obtain ⟨i, -, -, hlast, -⟩ := Manager.finish?_eq_some_iff.mp hm
    exact ⟨fun hs ↦ hs.finish hm, fun hp ↦ hp.of_finish hm, Manager.committed_finish hm, by omega,
      fun hp ↦ hlog _ hp, henq, fun _ ↦ hpart _⟩

theorem frame_step (h : s.step a = some s') : Frame s s' := by
  cases books_step h with
  | same hg hm hc he hl =>
    exact .of_finish .aborted (.inl hm) (fun g ↦ by rw [hl]; exact List.Subset.refl _)
      (fun w ↦ by rw [he]) hc
  | begin hm hg hc he hl =>
    obtain ⟨hlt, hlast, -⟩ := Manager.start?_eq_some_iff.mp hm
    refine ⟨fun hs ↦ hs.start hm, fun hp ↦ hp.of_start hm, (Manager.committed_start hm).mpr,
      by omega, fun hp ↦ by rw [hl]; exact hp, fun w ↦ by rw [he], fun hw ↦ ?_⟩
    rw [hc _ (by omega)]
  | @enqueue w entry hinfo heq =>
    refine .of_finish .aborted (.inl ?_) (fun g ↦ ?_) (fun v ↦ ?_) fun v ↦ ?_
    · rw [heq]
    · rw [heq]
      exact List.Subset.refl _
    · rw [heq]
      show _ ≤ update s.enqueued w (s.enqueued w + 1) v
      rw [update_apply]
      split
      · rename_i hv
        rw [hv]
        omega
      · exact le_refl _
    · rw [heq]
  | commit hpart hm heq =>
    refine .of_finish _ (.inr ⟨_, hm⟩) (fun g ↦ ?_) (fun v ↦ by rw [heq]) fun v ↦ by rw [heq]
    rw [heq]
    exact List.subset_append_left _ _
  | finish hst hm heq =>
    exact .of_finish _ (.inr ⟨_, hm⟩) (fun g ↦ by rw [heq]; exact List.Subset.refl _)
      (fun v ↦ by rw [heq]) fun v ↦ by rw [heq]
  | resize heq =>
    rw [heq]
    exact .of_finish .aborted (.inl rfl) (fun g ↦ List.Subset.refl _)
      (fun v ↦ le_refl _) fun v ↦ rfl

/-- Only a commit makes a transaction committed. -/
theorem committed_of_step (h : s.step a = some s')
    (hc : s'.manager.statusOf w = some .committed) :
    s.manager.statusOf w = some .committed ∨ a = .commit w := by
  cases books_step h with
  | same hg hm _ he hl => exact .inl (hm ▸ hc)
  | begin hm _ _ _ _ => exact .inl ((Manager.committed_start hm).mp hc)
  | enqueue _ heq =>
    rw [heq] at hc
    exact .inl hc
  | @commit v _ hm _ =>
    rw [Manager.statusOf_finish hm] at hc
    split at hc
    · rename_i hv
      rw [hv]
      exact .inr rfl
    · exact .inl hc
  | finish hst hm _ => exact .inl (Manager.committed_of_finish hm hst hc)
  | resize heq =>
    rw [heq] at hc
    exact .inl hc

/-- Only a resize changes the groups. -/
theorem groups_step (h : s.step a = some s') :
    s'.groups = s.groups ∨ ∃ g n, ∃ hpos : 0 < n, a = .resize g n ∧
      s'.groups = s.groups.resize g n hpos := by
  cases books_step h with
  | same hg _ _ _ _ => exact .inl hg
  | begin _ hg _ _ _ => exact .inl hg
  | enqueue _ heq => exact .inl (by rw [heq])
  | commit _ _ heq => exact .inl (by rw [heq])
  | finish _ _ heq => exact .inl (by rw [heq])
  | @resize g n hpos heq => exact .inr ⟨g, n, hpos, rfl, by rw [heq]⟩

/-- The configuration of a consumer does not change unless it is replaced. -/
theorem config_step (h : s.step a = some s') (hne : ∀ n, a ≠ .resize c.1 n) :
    s'.config c = s.config c ∧ (s.groups.Has c → s'.groups.Has c) := by
  rcases groups_step h with heq | ⟨g, n, hpos, rfl, heq⟩
  · rw [config, config, heq]
    exact ⟨rfl, id⟩
  · have hg : c.1 ≠ g := fun hg ↦ hne n (by rw [hg])
    rw [config, config, heq]
    exact ⟨Groups.consumerConfig_resize hg, (Groups.has_resize hg).mpr⟩

/-! ## The invariant -/

/-- The entry was returned to this consumer since it was created, or its loop has taken it. -/
def Had (s : State) (c : ConsumerId) (key : Key) : Prop :=
  (∃ result ∈ (s.sessions c).results, key ∈ result.keys) ∨
    ∃ scan, s.phase c = .scanning scan ∧ key ∈ scan.keys

/-- What holds for a consumer. -/
structure SessionInv (s : State) (c : ConsumerId) (session : Session) : Prop where
  /-- A consumer that has done anything belongs to a configured group. -/
  has : session.phase ≠ .idle ∨ session.results ≠ [] → s.groups.Has c
  /-- In a transaction it has a snapshot, and takes part in the transaction. -/
  active : session.phase ≠ .idle → ∃ tx, session.consumer.currentTx = some tx ∧
    Sees s.manager tx ∧ c ∈ (s.contexts tx.writePointer).participants
  /-- The transaction is not committed before the consumer has called `commitTx`. -/
  unpersisted : ∀ {tx}, session.phase ≠ .idle → session.phase ≠ .persisted →
    session.consumer.currentTx = some tx → s.manager.statusOf tx.writePointer ≠ some .committed
  committed : session.phase = .persisted → session.consumer.committed = true
  dequeued : ∀ {key}, key ∈ session.consumer.dequeuedKeys.keys →
    ∃ result ∈ session.results, key ∈ result.keys
  taken : ∀ {key}, key ∈ session.taken → ∃ result ∈ session.results, key ∈ result.keys
  /-- The loop takes keys in ascending order. -/
  scanned : ∀ {scan}, session.phase = .scanning scan →
    scan.keys.Pairwise (· < ·) ∧ ∀ k ∈ scan.keys, ∀ n ∈ scan.next, k < n
  results : ∀ result ∈ session.results, result.keys.Pairwise (· < ·)
  /-- The keys returned, and those the iterator and the start key stand at, have been in use. -/
  used : ∀ result ∈ session.results, ∀ k ∈ result.keys, k.seqNo < s.enqueued k.txId
  taking : ∀ {scan}, session.phase = .scanning scan → ∀ k ∈ scan.keys, k.seqNo < s.enqueued k.txId
  next : ∀ {scan}, session.phase = .scanning scan → ∀ k ∈ scan.next, k.seqNo < s.enqueued k.txId
  startKey : ∀ k ∈ session.consumer.state.startKey, k.seqNo < s.enqueued k.txId

/-- What holds in every state that can be reached. -/
structure Inv (s : State) : Prop where
  session : ∀ c, s.SessionInv c (s.sessions c)
  entry : ∀ {key item}, s.queue.item key = some item → key.seqNo < s.enqueued key.txId
  /-- Only short transactions enqueue. -/
  short : ∀ {w}, 0 < s.enqueued w → ∃ st, s.manager.info w = some ⟨true, st⟩

theorem sessionInv_new : s.SessionInv c .new where
  has h := by simp [Session.new] at h
  active h := absurd rfl h
  unpersisted h := absurd rfl h
  committed h := by cases h
  dequeued h := by cases h
  taken h := by cases h
  scanned h := by cases h
  results _ h := by cases h
  used _ h := by cases h
  taking h := by cases h
  next h := by cases h
  startKey _ h := by cases h

theorem inv_init (groups : Groups) : (init groups).Inv where
  session _ := sessionInv_new
  entry h := by cases h
  short h := absurd h (lt_irrefl 0)

variable {session : Session}

/-- A consumer a step does not touch. -/
theorem SessionInv.of_frame (hi : s.SessionInv c session) (hf : Frame s s')
    (hhas : s.groups.Has c → s'.groups.Has c)
    (hunpersisted : ∀ {tx}, session.phase ≠ .idle → session.phase ≠ .persisted →
      session.consumer.currentTx = some tx → c ∈ (s.contexts tx.writePointer).participants →
      s'.manager.statusOf tx.writePointer ≠ some .committed) : s'.SessionInv c session :=
  { hi with
    has := fun h ↦ hhas (hi.has h)
    active := fun h ↦ by
      obtain ⟨tx, htx, hs, hpart⟩ := hi.active h
      refine ⟨tx, htx, hf.sees hs, ?_⟩
      rw [hf.participants hs.started]
      exact hpart
    unpersisted := fun h h' htx ↦ by
      obtain ⟨tx', htx', hs, hpart⟩ := hi.active h
      obtain rfl := Option.some_inj.mp (htx.symm.trans htx')
      exact hunpersisted h h' htx hpart
    used := fun r hr k hk ↦ lt_of_lt_of_le (hi.used r hr k hk) (hf.enqueued _)
    taking := fun h k hk ↦ lt_of_lt_of_le (hi.taking h k hk) (hf.enqueued _)
    next := fun h k hk ↦ lt_of_lt_of_le (hi.next h k hk) (hf.enqueued _)
    startKey := fun k hk ↦ lt_of_lt_of_le (hi.startKey k hk) (hf.enqueued _) }

/-- What the loop has taken becomes a result. -/
theorem SessionInv.of_returned {scan : Scan} (hi : s.SessionInv c session)
    (hscan : session.phase = .scanning scan) : s.SessionInv c (returned session scan) where
  has _ := hi.has (.inl (by rw [hscan]; simp))
  active _ := by
    obtain ⟨tx, htx, hs⟩ := hi.active (by rw [hscan]; simp)
    refine ⟨tx, ?_, hs⟩
    rw [State.returned, Consumer.dequeued]
    split <;> exact htx
  unpersisted _ _ htx := by
    refine hi.unpersisted (by rw [hscan]; simp) (by rw [hscan]; simp) ?_
    rw [State.returned, Consumer.dequeued] at htx
    split at htx <;> exact htx
  committed h := by cases h
  dequeued h := by
    rw [State.returned, Consumer.dequeued] at h
    simp only at h
    split at h
    · obtain ⟨result, hr, hk⟩ := hi.dequeued h
      exact ⟨result, List.mem_append_left _ hr, hk⟩
    · rename_i hne
      exact ⟨⟨scan.keys, scan.datas⟩, List.mem_append_right _ (by simp [hne]), h⟩
  taken h := by
    rcases List.mem_append.mp h with h | h
    · obtain ⟨result, hr, hk⟩ := hi.taken h
      exact ⟨result, List.mem_append_left _ hr, hk⟩
    · have hne : scan.keys ≠ [] := List.ne_nil_of_mem h
      exact ⟨⟨scan.keys, scan.datas⟩, List.mem_append_right _ (by simp [hne]), h⟩
  scanned h := by cases h
  results result h := by
    rcases List.mem_append.mp h with h | h
    · exact hi.results result h
    · split at h
      · simp at h
      · obtain rfl := List.mem_singleton.mp h
        exact (hi.scanned hscan).1
  used result h := by
    rcases List.mem_append.mp h with h | h
    · exact hi.used result h
    · split at h
      · simp at h
      · obtain rfl := List.mem_singleton.mp h
        exact hi.taking hscan
  taking h := by cases h
  next h := by cases h
  startKey k hk := by
    rw [State.returned, Consumer.dequeued] at hk
    refine hi.startKey k ?_
    simp only at hk
    split at hk <;> exact hk

/-- Moving the start key to where the iterator stands. -/
theorem SessionInv.moved {scan : Scan} (hi : s.SessionInv c (s.sessions c))
    (hat : s.AtKey c tx scan key) : s.SessionInv c (s.moved c tx scan key) :=
  { hi with
    startKey := fun k hk ↦ by
      rw [State.moved] at hk
      simp only at hk
      split at hk
      · obtain rfl := Option.some_inj.mp hk
        exact hi.next hat.phase _ hat.next
      · exact hi.startKey k hk }

/-- Going on with the loop. -/
theorem SessionInv.scanning {scan scan' : Scan} (hi : s.SessionInv c session)
    (hscan : session.phase = .scanning scan)
    (hkeys : scan'.keys.Pairwise (· < ·) ∧ ∀ k ∈ scan'.keys, ∀ n ∈ scan'.next, k < n)
    (htaking : ∀ k ∈ scan'.keys, k.seqNo < s.enqueued k.txId)
    (hnext : ∀ k ∈ scan'.next, k.seqNo < s.enqueued k.txId) :
    s.SessionInv c { session with phase := .scanning scan' } where
  has _ := hi.has (.inl (by rw [hscan]; simp))
  active _ := hi.active (by rw [hscan]; simp)
  unpersisted _ _ := hi.unpersisted (by rw [hscan]; simp) (by rw [hscan]; simp)
  committed h := by cases h
  dequeued := hi.dequeued
  taken := hi.taken
  scanned h := by
    obtain rfl := Phase.scanning.inj h
    exact hkeys
  results := hi.results
  used := hi.used
  taking h := by
    obtain rfl := Phase.scanning.inj h
    exact htaking
  next h := by
    obtain rfl := Phase.scanning.inj h
    exact hnext
  startKey := hi.startKey

/-- The keys of a loop that has taken one more. -/
theorem keys_take (hi : s.SessionInv c (s.sessions c)) {scan scan' : Scan}
    (hat : s.AtKey c tx scan key)
    (hkeys : scan'.keys = scan.keys ∨ scan'.keys = scan.keys ++ [key])
    (hnext : scan'.next = s.queue.entries.higherKey key) :
    scan'.keys.Pairwise (· < ·) ∧ ∀ k ∈ scan'.keys, ∀ n ∈ scan'.next, k < n := by
  obtain ⟨hsorted, hbelow⟩ := hi.scanned hat.phase
  have hlt : ∀ k ∈ scan.keys, k < key := fun k hk ↦ hbelow k hk key hat.next
  have hhigher : ∀ n ∈ scan'.next, key < n := fun n hn ↦
    (SortedMap.higherKey_eq_some (hnext ▸ hn)).1
  rcases hkeys with hkeys | hkeys
  · rw [hkeys]
    exact ⟨hsorted, fun k hk n hn ↦ (hlt k hk).trans (hhigher n hn)⟩
  · rw [hkeys]
    refine ⟨List.pairwise_append.mpr ⟨hsorted, List.pairwise_singleton _ _, ?_⟩, fun k hk n hn ↦ ?_⟩
    · intro k hk k' hk'
      rw [List.mem_singleton.mp hk']
      exact hlt k hk
    · rcases List.mem_append.mp hk with hk | hk
      · exact (hlt k hk).trans (hhigher n hn)
      · rw [List.mem_singleton.mp hk]
        exact hhigher n hn

/-- Looking at an entry takes it or does not; the iterator is where it was. -/
theorem take_scan (q : InMemoryQueue) (config : ConsumerConfig) (scan : Scan) (key : Key) :
    (q.take config scan key).2.next = scan.next ∧
      ((q.take config scan key).2.keys = scan.keys ∨
        (q.take config scan key).2.keys = scan.keys ++ [key]) := by
  rcases InMemoryQueue.take_cases q config scan key with
    ⟨htake, -⟩ | ⟨item, -, -, ⟨-, -, htake⟩ | ⟨-, -, htake⟩ | ⟨-, -, htake⟩ | ⟨-, -, htake⟩⟩
  · exact ⟨by rw [htake], .inl (by rw [htake])⟩
  · exact ⟨by rw [htake]; rfl, .inr (by rw [htake]; rfl)⟩
  · exact ⟨by rw [htake]; rfl, .inr (by rw [htake]; rfl)⟩
  · exact ⟨by rw [htake], .inl (by rw [htake])⟩
  · exact ⟨by rw [htake]; rfl, .inr (by rw [htake]; rfl)⟩

/-- A consumer keeps the invariant in its own moves within a transaction. -/
theorem SessionInv.of_move (hi : s.SessionInv c (s.sessions c)) (hq : ∀ {key item},
      s.queue.item key = some item → key.seqNo < s.enqueued key.txId)
    (hmove : Move s c a session) (hbegin : ∀ tx short participants,
      a ≠ .begin tx short participants)
    : s.SessionInv c session := by
  have hpresent : ∀ {k}, s.queue.entries.get k ≠ none → k.seqNo < s.enqueued k.txId := fun h ↦ by
    obtain ⟨item, hitem⟩ := Option.ne_none_iff_exists'.mp h
    exact hq hitem
  have hhigher : ∀ {key} k, k ∈ s.queue.entries.higherKey key → k.seqNo < s.enqueued k.txId :=
    fun k hk ↦ hpresent (SortedMap.higherKey_eq_some hk).2
  have hne : ∀ {p p' : Phase}, s.phase c = p → p ≠ p' → (s.sessions c).phase ≠ p' :=
    fun hp hne hp' ↦ hne (hp.symm.trans hp')
  cases hmove with
  | begin => exact absurd rfl (hbegin _ _ _)
  | resize => exact sessionInv_new
  | dequeue hready =>
    refine { hi with
      has := fun _ ↦ hi.has (.inl (hne hready (by simp)))
      active := fun _ ↦ hi.active (hne hready (by simp))
      unpersisted := fun _ _ ↦ hi.unpersisted (hne hready (by simp)) (hne hready (by simp))
      committed := fun h ↦ by cases h
      scanned := fun h ↦ ?_
      taking := fun h ↦ ?_
      next := fun h k hk ↦ ?_ }
    · obtain rfl := Phase.scanning.inj h
      exact ⟨List.Pairwise.nil, fun _ h ↦ by cases h⟩
    · obtain rfl := Phase.scanning.inj h
      exact fun _ h ↦ by cases h
    · obtain rfl := Phase.scanning.inj h
      simp only [InMemoryQueue.startScan] at hk
      split at hk
      · exact hpresent (s.queue.entries.mem_keys.mp (List.mem_of_mem_head? hk))
      · exact hpresent (SortedMap.ceilingKey_eq_some hk).2
  | finish hscan => exact hi.of_returned hscan
  | stop hat hread => exact (hi.moved hat).of_returned hat.phase
  | skip hat hread hin =>
    exact (hi.moved hat).scanning hat.phase (keys_take hi hat (.inl rfl) rfl)
      (fun k hk ↦ hi.taking hat.phase k hk) hhigher
  | @look tx scan key hlooks =>
    obtain ⟨hnext, hkeys⟩ := take_scan s.queue (s.config c) (s.advanced scan key) key
    refine (hi.moved hlooks.toAtKey).scanning hlooks.phase
      (keys_take hi hlooks.toAtKey hkeys hnext) (fun k hk ↦ ?_) fun k hk ↦ ?_
    · rcases hkeys with hkeys | hkeys
      · exact hi.taking hlooks.phase k (by rw [hkeys] at hk; exact hk)
      · rw [hkeys] at hk
        rcases List.mem_append.mp hk with hk | hk
        · exact hi.taking hlooks.phase k hk
        · rw [List.mem_singleton.mp hk]
          exact hi.next hlooks.phase key hlooks.next
    · rw [hnext] at hk
      exact hhigher k hk
  | @reclaim result hready hresult =>
    refine { hi with dequeued := fun h ↦ ?_, taken := fun h ↦ ?_ }
    · simp only at h
      cases hdk : (s.consumer c).dequeuedKeys with
      | null =>
        rw [hdk] at h
        exact ⟨result, hresult, h⟩
      | arrayList keys =>
        rw [hdk] at h
        rcases List.mem_append.mp h with h | h
        · exact hi.dequeued (by rw [hdk]; exact h)
        · exact ⟨result, hresult, h⟩
      | immutableList keys =>
        rw [hdk] at h
        exact hi.dequeued (by rw [hdk]; exact h)
    · rcases List.mem_append.mp h with h | h
      · exact hi.taken h
      · exact ⟨result, hresult, h⟩
  | commitTx hready =>
    exact { hi with
      has := fun _ ↦ hi.has (.inl (hne hready (by simp)))
      active := fun _ ↦ hi.active (hne hready (by simp))
      unpersisted := fun _ h ↦ absurd rfl h
      committed := fun _ ↦ rfl
      scanned := fun h ↦ by cases h
      taking := fun h ↦ by cases h
      next := fun h ↦ by cases h }
  | postTxCommit hpersisted htx hcommitted =>
    exact { hi with
      has := fun _ ↦ hi.has (.inl (hne hpersisted (by simp)))
      active := fun h ↦ absurd rfl h
      unpersisted := fun h ↦ absurd rfl h
      committed := fun h ↦ by cases h
      scanned := fun h ↦ by cases h
      taking := fun h ↦ by cases h
      next := fun h ↦ by cases h }
  | rollbackTx hactive htx hcommitted =>
    exact { hi with
      has := fun _ ↦ hi.has (.inl hactive)
      active := fun h ↦ absurd rfl h
      unpersisted := fun h ↦ absurd rfl h
      committed := fun h ↦ by cases h
      dequeued := fun h ↦ by cases h
      scanned := fun h ↦ by cases h
      taking := fun h ↦ by cases h
      next := fun h ↦ by cases h }

/-- A transaction does not commit before all who take part have called `commitTx`. -/
theorem not_committed_step (h : s.step a = some s') (hnp : ¬ s.HasPersisted w c)
    (hpart : c ∈ (s.contexts w).participants)
    (hc : s.manager.statusOf w ≠ some .committed) :
    s'.manager.statusOf w ≠ some .committed := by
  intro hc'
  rcases committed_of_step h hc' with hc' | rfl
  · exact hc hc'
  · obtain ⟨-, hall, -⟩ := commit_eq_some h
    exact hnp (hall c hpart)

theorem sessionInv_step (hi : s.Inv) (h : s.step a = some s') (c : ConsumerId) :
    s'.SessionInv c (s'.sessions c) := by
  have hf := frame_step h
  by_cases hresize : ∃ n, a = .resize c.1 n
  · obtain ⟨n, rfl⟩ := hresize
    obtain ⟨hpos, rfl⟩ := resize_eq_some h
    simp only [if_pos]
    exact sessionInv_new
  have hhas := (config_step h fun n hn ↦ hresize ⟨n, hn⟩).2
  rcases session_step h c with heq | hmove
  · rw [heq]
    refine (hi.session c).of_frame hf hhas fun hactive hnp htx hpart ↦ ?_
    exact not_committed_step h (fun hp ↦ hnp hp.1) hpart
      ((hi.session c).unpersisted hactive hnp htx)
  by_cases hbegin : ∃ tx short participants, a = .begin tx short participants
  · obtain ⟨tx, short, participants, rfl⟩ := hbegin
    obtain ⟨hs, hshort, hpart, m, hm, rfl⟩ := begin_eq_some h
    simp only
    split
    · rename_i hc
      refine { hi.session c with
        has := fun _ ↦ (hpart c hc).1
        active := fun _ ↦ ⟨tx, rfl, hs.sees hm, by simpa using hc⟩
        unpersisted := fun _ _ htx ↦ ?_
        committed := fun h ↦ by cases h
        dequeued := fun h ↦ by cases h
        taken := fun h ↦ by cases h
        scanned := fun h ↦ by cases h
        taking := fun h ↦ by cases h
        next := fun h ↦ by cases h }
      obtain rfl := Option.some_inj.mp htx
      rw [Manager.statusOf_start hm, if_pos rfl]
      simp
    · rename_i hc
      refine (hi.session c).of_frame hf hhas fun hactive hnp htx hpart ↦ ?_
      exact not_committed_step h (fun hp ↦ hnp hp.1) hpart
        ((hi.session c).unpersisted hactive hnp htx)
  · have hnb : ∀ tx short participants, a ≠ .begin tx short participants :=
      fun tx short ps heq ↦ hbegin ⟨tx, short, ps, heq⟩
    have hok := (hi.session c).of_move hi.entry hmove hnb
    refine hok.of_frame hf hhas fun hactive hnp htx hpart hc ↦ ?_
    rcases committed_of_step h hc with hc | rfl
    · exact hok.unpersisted hactive hnp htx hc
    · cases hmove

/-- A transaction stays short. -/
theorem info_step {short : Bool} (h : s.step a = some s')
    (hinfo : ∃ st, s.manager.info w = some ⟨short, st⟩) :
    ∃ st, s'.manager.info w = some ⟨short, st⟩ := by
  obtain ⟨st, hinfo⟩ := hinfo
  have hfinish : ∀ {v : Nat} {st' : Status}, s.manager.finish? v st' = some s'.manager →
      ∃ st, s'.manager.info w = some ⟨short, st⟩ := by
    intro v st' hm
    obtain ⟨i, hv, -, -, hi⟩ := Manager.finish?_eq_some_iff.mp hm
    rw [hi, update_apply]
    split
    · rename_i heq
      subst heq
      obtain rfl := Option.some_inj.mp (hv.symm.trans hinfo)
      exact ⟨_, rfl⟩
    · exact ⟨st, hinfo⟩
  cases books_step h with
  | same _ hm _ _ _ => exact ⟨st, hm ▸ hinfo⟩
  | begin hm _ _ _ _ =>
    obtain ⟨hlt, -, hi⟩ := Manager.start?_eq_some_iff.mp hm
    have hle : w ≤ s.manager.last := s.manager.le_last (by simp [hinfo])
    rw [hi, update_of_ne (by omega)]
    exact ⟨st, hinfo⟩
  | enqueue _ heq =>
    rw [heq]
    exact ⟨st, hinfo⟩
  | commit _ hm _ => exact hfinish hm
  | finish _ hm _ => exact hfinish hm
  | resize heq =>
    rw [heq]
    exact ⟨st, hinfo⟩

theorem inv_step (hi : s.Inv) (h : s.step a = some s') : s'.Inv where
  session := sessionInv_step hi h
  entry := fun {key} {item'} hitem ↦ by
    rcases item_step h hitem with ⟨entry, rfl, hseq, -⟩ | ⟨item, hitem', -⟩
    · obtain ⟨-, rfl⟩ := enqueue_eq_some h
      show _ < update s.enqueued key.txId (s.enqueued key.txId + 1) key.txId
      rw [update_self]
      omega
    · exact lt_of_lt_of_le (hi.entry hitem') ((frame_step h).enqueued _)
  short := fun {w} hw ↦ by
    have hold : 0 < s.enqueued w → ∃ st, s'.manager.info w = some ⟨true, st⟩ := fun hw ↦
      info_step h (hi.short hw)
    cases books_step h with
    | same _ _ _ he _ => exact hold (he ▸ hw)
    | begin _ _ _ he _ => exact hold (he ▸ hw)
    | commit _ _ heq => exact hold (by rw [heq] at hw; exact hw)
    | finish _ _ heq => exact hold (by rw [heq] at hw; exact hw)
    | resize heq => exact hold (by rw [heq] at hw; exact hw)
    | @enqueue v entry hinfo heq =>
      by_cases hv : w = v
      · subst hv
        refine info_step h ?_
        rcases hinfo with hinfo | hinfo
        · exact ⟨_, hinfo⟩
        · exact ⟨_, hinfo⟩
      · refine hold ?_
        have hupdate : 0 < update s.enqueued v (s.enqueued v + 1) w := by
          rw [heq] at hw
          exact hw
        rwa [update_of_ne hv] at hupdate

end Tigon.InMemory.State
