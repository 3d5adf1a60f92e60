import Tigon.Queue.Fetch
import Tigon.Queue.System

/-!
# The invariant of the queue

`Inv` holds in every state any run leads to.  It says who may touch what:

* a row is `Mine` for a consumer if the consumer is the only one of its group that can process it:
  for FIFO because its state column carries the consumer's name, otherwise because the entry is
  partitioned to it;
* the state columns name a participant of the transaction that wrote them, and that participant
  has not rolled back if the state is PROCESSED;
* what a consumer has cached or is consuming is committed and, unless it still has to be claimed,
  the consumer's own; and nobody has processed it.

Steps of other parties leave all of this alone; `Frame` says what such a step may do, and
`Frame.sessionInv` that it does no harm.  What the steps of the consumer itself do is in
`Tigon.Queue.Preservation`.

Rows that were evicted are out of scope: nothing is said about what remains of them in caches.
-/

set_option autoImplicit false

open Mvcc

namespace Tigon

/-- The entries a running claim loop has not come to yet. -/
def Phase.todo : Phase → List SimpleQueueEntry
  | .claiming _ todo => todo
  | _ => []

namespace State

open Consumer SimpleQueueEntry

variable (groups : Groups) (s : State)

/-! ## What the invariant speaks about -/

/-- The row has an entry. -/
def Live (r : Row) : Prop := s.table.entry r ≠ none

/-- A committed transaction of the group has marked the row PROCESSED. -/
def Processed (g : Nat) (r : Row) : Prop :=
  ∃ st, s.table.state g r = some st ∧ st.state = .processed ∧
    s.manager.statusOf st.writePointer = some .committed

/-- The group's state column carries the consumer's name. -/
def StateBy (c : ConsumerId) (r : Row) : Prop :=
  ∃ st, s.table.state c.1 r = some st ∧ st.instanceId = c.2

/-- The entry on the row is partitioned to the consumer. -/
def Owned (c : ConsumerId) (r : Row) : Prop :=
  ∃ e, s.table.entry r = some e ∧ (groups.consumerConfig c).owns r e.hashKeys = true

/-- The consumer, and no other of its group, can process the row. -/
def Mine (c : ConsumerId) (r : Row) : Prop :=
  s.Owned groups c r ∧ (mustClaim (groups.consumerConfig c) → s.StateBy c r)

/-- What is known of an entry a consumer has fetched. -/
structure Holds (c : ConsumerId) (x : SimpleQueueEntry) : Prop where
  committed : s.manager.statusOf x.rowKey.writePointer = some .committed
  has : groups.Has c
  owned : s.Live x.rowKey → s.Owned groups c x.rowKey
  /-- An entry that will not be claimed has been claimed. -/
  claimed : mustClaim (groups.consumerConfig c) → ¬ wantsClaim (groups.consumerConfig c) x →
    s.Live x.rowKey → s.StateBy c x.rowKey

/-- What is known of a consumer in a transaction. -/
structure Active (c : ConsumerId) (tx : Transaction) : Prop where
  has : groups.Has c
  participant : c ∈ (s.contexts tx.writePointer).participants
  participant_has : ∀ c' ∈ (s.contexts tx.writePointer).participants, c'.1 = c.1 → groups.Has c'
  notRolledBack : c ∉ (s.contexts tx.writePointer).rolledBack
  sees : Sees s.manager tx
  persisted_of_committed : s.manager.statusOf tx.writePointer = some .committed →
    s.phase c = .persisted
  sorted : SortedList.Sorted rowKey (s.consumer c).consumingEntries
  disjoint : ∀ r ∈ (s.consumer c).cachedRows, r ∉ (s.consumer c).consumingRows
  consuming : ∀ x ∈ (s.consumer c).consumingEntries, s.Holds groups c x
  todo_sorted : SortedList.Sorted rowKey (s.phase c).todo
  todo_consuming : ∀ x ∈ (s.phase c).todo, x ∈ (s.consumer c).consumingEntries
  mustClaim_of_claiming : ∀ {n : Nat} {todo : List SimpleQueueEntry},
    s.phase c = .claiming n todo → mustClaim (groups.consumerConfig c)
  /-- Once the claim loop is past an entry, the entry is the consumer's. -/
  claimed : ∀ x ∈ (s.consumer c).consumingEntries, x ∉ (s.phase c).todo → s.Live x.rowKey →
    s.Mine groups c x.rowKey
  unprocessed : s.manager.statusOf tx.writePointer ≠ some .committed →
    ∀ r ∈ (s.consumer c).consumingRows, s.Mine groups c r → ¬ s.Processed c.1 r
  /-- The `committed` field. -/
  flag : (s.consumer c).committed = true ↔
    s.phase c = .persisted ∧ (s.consumer c).consumingEntries ≠ []
  /-- The consumer's own PROCESSED states of this transaction are on the consuming entries ... -/
  processed_of : ∀ {r : Row} {st : StateContent}, s.table.state c.1 r = some st →
    st.instanceId = c.2 → st.writePointer = tx.writePointer → st.state = .processed →
    s.phase c = .persisted ∧ r ∈ (s.consumer c).consumingRows
  /-- ... and on all of them, after `commitTx`. -/
  processed : s.phase c = .persisted → ∀ r ∈ (s.consumer c).consumingRows, s.Live r →
    s.table.state c.1 r = some ⟨tx.writePointer, c.2, .processed⟩
  /-- What other instances that are there do is none of its business; everything else that is
  committed it sees. -/
  visible : ∀ {r : Row} {st : StateContent}, s.table.state c.1 r = some st →
    s.manager.statusOf st.writePointer = some .committed →
    st.writePointer = tx.writePointer ∨
      (st.instanceId ≠ c.2 ∧ st.instanceId < (groups.config c.1).groupSize) ∨
      tx.isVisible st.writePointer = true

/-- What is known of any consumer. -/
structure SessionInv (c : ConsumerId) : Prop where
  sorted : SortedList.Sorted rowKey (s.consumer c).entryCache
  cached : ∀ x ∈ (s.consumer c).entryCache, s.Holds groups c x
  unprocessed : ∀ r ∈ (s.consumer c).cachedRows, s.Mine groups c r → ¬ s.Processed c.1 r
  active : s.phase c ≠ .idle →
    ∃ tx, (s.consumer c).transaction = some tx ∧ s.Active groups c tx

/-- **The invariant.** -/
structure Inv : Prop where
  /-- Entries are written in short transactions, and gone when their transaction is aborted. -/
  entry : ∀ {r : Row}, s.Live r →
    ∃ st, s.manager.info r.writePointer = some ⟨true, st⟩ ∧ st ≠ .aborted
  /-- Only committed entries have states. -/
  state_committed : ∀ {g : Nat} {r : Row} {st : StateContent}, s.table.state g r = some st →
    s.manager.statusOf r.writePointer = some .committed
  /-- A state was written by a consumer that takes part in the transaction, ... -/
  state_participant : ∀ {g : Nat} {r : Row} {st : StateContent}, s.table.state g r = some st →
    (g, st.instanceId) ∈ (s.contexts st.writePointer).participants
  /-- ... that has not rolled back if the state says PROCESSED, ... -/
  state_processed : ∀ {g : Nat} {r : Row} {st : StateContent}, s.table.state g r = some st →
    st.state = .processed → (g, st.instanceId) ∉ (s.contexts st.writePointer).rolledBack
  /-- ... and that owns the row. -/
  state_owned : ∀ {g : Nat} {r : Row} {st : StateContent}, s.table.state g r = some st →
    s.Live r → s.Owned groups (g, st.instanceId) r
  /-- Consumers take part in short transactions, and roll back before these are aborted. -/
  context_started : ∀ {w : Nat} {c : ConsumerId}, c ∈ (s.contexts w).participants →
    ∃ st, s.manager.info w = some ⟨true, st⟩
  context_aborted : ∀ {w : Nat} {c : ConsumerId}, s.manager.statusOf w = some .aborted →
    c ∈ (s.contexts w).participants → c ∈ (s.contexts w).rolledBack
  /-- What the log says was processed is marked so. -/
  log : ∀ {g w : Nat} {r : Row}, (w, r) ∈ s.log g →
    s.manager.statusOf w = some .committed ∧
      s.manager.statusOf r.writePointer = some .committed ∧
      (s.Live r → ∃ i, s.table.state g r = some ⟨w, i, .processed⟩)
  session : ∀ c : ConsumerId, s.SessionInv groups c

variable {groups s}

/-! ## Ownership is exclusive -/

variable {r : Row}

/-- No entry is partitioned to two consumers that need not claim it. -/
theorem Owned.unique {c c' : ConsumerId} (hc : groups.Has c) (hc' : groups.Has c')
    (hg : c.1 = c'.1) (hm : ¬ mustClaim (groups.consumerConfig c))
    (h : s.Owned groups c r) (h' : s.Owned groups c' r) : c = c' := by
  obtain ⟨g, i⟩ := c
  obtain ⟨g', i'⟩ := c'
  obtain rfl : g = g' := hg
  obtain ⟨e, he, ho⟩ := h
  obtain ⟨e', he', ho'⟩ := h'
  obtain rfl : e = e' := Option.some_inj.mp (he.symm.trans he')
  have hi : i < (groups.config g).groupSize := hc.2
  have hi' : i' < (groups.config g).groupSize := hc'.2
  suffices i = i' by rw [this]
  simp only [ConsumerConfig.owns, ConsumerConfig.ownsBy, Groups.consumerConfig, mustClaim]
    at ho ho' hm
  cases hs : (groups.config g).dequeueStrategy with
  | fifo =>
    rw [hs] at hm
    simp only [true_and] at hm
    omega
  | roundRobin =>
    rw [hs] at ho ho'
    have h1 := beq_iff_eq.mp ho
    have h2 := beq_iff_eq.mp ho'
    omega
  | hash =>
    rw [hs] at ho ho'
    revert ho ho'
    cases Option.bind (groups.config g).hashKey fun key ↦ List.lookup key e.hashKeys with
    | none =>
      intro ho ho'
      exact (beq_iff_eq.mp ho).trans (beq_iff_eq.mp ho').symm
    | some v =>
      intro ho ho'
      have h1 := beq_iff_eq.mp ho
      have h2 := beq_iff_eq.mp ho'
      omega

/-- **A row belongs to one consumer of a group at most.** -/
theorem Mine.unique {c c' : ConsumerId} (hc : groups.Has c) (hc' : groups.Has c')
    (hg : c.1 = c'.1) (h : s.Mine groups c r) (h' : s.Mine groups c' r) : c = c' := by
  by_cases hm : mustClaim (groups.consumerConfig c)
  · have hm' : mustClaim (groups.consumerConfig c') := by
      simpa only [mustClaim, Groups.consumerConfig, hg] using hm
    obtain ⟨st, hst, hi⟩ := h.2 hm
    obtain ⟨st', hst', hi'⟩ := h'.2 hm'
    rw [hg, hst'] at hst
    obtain rfl := Option.some_inj.mp hst
    exact Prod.ext hg (hi.symm.trans hi')
  · exact h.1.unique hc hc' hg hm h'.1

theorem Owned.live {c : ConsumerId} (h : s.Owned groups c r) : s.Live r := by
  obtain ⟨e, he, -⟩ := h
  simp [Live, he]

theorem Mine.live {c : ConsumerId} (h : s.Mine groups c r) : s.Live r := h.1.live

/-! ## Steps of others -/

/-- What a step may do to what `c` relies on, if it is not a step of `c` on the table and does not
commit a transaction. -/
structure Frame (groups : Groups) (s s' : State) (c : ConsumerId) : Prop where
  committed : ∀ w, s'.manager.statusOf w = some .committed ↔ s.manager.statusOf w = some .committed
  sees : ∀ {tx : Transaction}, Sees s.manager tx → Sees s'.manager tx
  /-- Committed rows keep their entry, unless they are evicted. -/
  entry : ∀ {r : Row} {e : QueueEntry}, s.manager.statusOf r.writePointer = some .committed →
    s'.table.entry r = some e → s.table.entry r = some e
  participants : ∀ {w : Nat}, w ≤ s.manager.last →
    (s'.contexts w).participants = (s.contexts w).participants
  rolledBack : ∀ {w : Nat}, w ≤ s.manager.last → c ∈ (s'.contexts w).rolledBack →
    c ∈ (s.contexts w).rolledBack
  /-- Nobody touches a row of the consumer, ... -/
  state_mine : ∀ {r : Row}, groups.Has c → s.Mine groups c r → s'.Live r →
    s'.table.state c.1 r = s.table.state c.1 r
  /-- ... writes in its name, ... -/
  state_of_by : ∀ {r : Row} {st : StateContent}, s'.table.state c.1 r = some st →
    st.instanceId = c.2 → s.table.state c.1 r = some st
  /-- ... or writes a state that is committed already. -/
  state_of_committed : ∀ {r : Row} {st : StateContent}, s'.table.state c.1 r = some st →
    s.manager.statusOf st.writePointer = some .committed → s.table.state c.1 r = some st

section Frame

variable {s' : State} {c : ConsumerId} (h : Frame groups s s' c)

include h

theorem Frame.live_of (hr : s.manager.statusOf r.writePointer = some .committed)
    (hl : s'.Live r) : s.Live r := by
  obtain ⟨e, he⟩ := Option.ne_none_iff_exists'.mp hl
  simp [Live, h.entry hr he]

theorem Frame.owned_of (hr : s.manager.statusOf r.writePointer = some .committed)
    (ho : s'.Owned groups c r) : s.Owned groups c r := by
  obtain ⟨e, he, ho⟩ := ho
  exact ⟨e, h.entry hr he, ho⟩

theorem Frame.mine_of (hr : s.manager.statusOf r.writePointer = some .committed)
    (hm : s'.Mine groups c r) : s.Mine groups c r := by
  refine ⟨h.owned_of hr hm.1, fun hc ↦ ?_⟩
  obtain ⟨st, hst, hi⟩ := hm.2 hc
  exact ⟨st, h.state_of_by hst hi, hi⟩

theorem Frame.processed_of (hp : s'.Processed c.1 r) : s.Processed c.1 r := by
  obtain ⟨st, hst, hp, hc⟩ := hp
  have hc := (h.committed _).mp hc
  exact ⟨st, h.state_of_committed hst hc, hp, hc⟩

theorem Frame.owned (hr : s.manager.statusOf r.writePointer = some .committed)
    (hl : s'.Live r) (ho : s.Owned groups c r) : s'.Owned groups c r := by
  obtain ⟨e, he⟩ := Option.ne_none_iff_exists'.mp hl
  obtain ⟨e', he', ho⟩ := ho
  obtain rfl := Option.some_inj.mp ((h.entry hr he).symm.trans he')
  exact ⟨e, he, ho⟩

theorem Frame.mine (hr : s.manager.statusOf r.writePointer = some .committed)
    (hc : groups.Has c) (hl : s'.Live r) (hm : s.Mine groups c r) : s'.Mine groups c r := by
  refine ⟨h.owned hr hl hm.1, fun hcl ↦ ?_⟩
  obtain ⟨st, hst, hi⟩ := hm.2 hcl
  exact ⟨st, (h.state_mine hc hm hl).trans hst, hi⟩

theorem Frame.holds {x : SimpleQueueEntry} (hx : s.Holds groups c x) : s'.Holds groups c x where
  committed := (h.committed _).mpr hx.committed
  has := hx.has
  owned := fun hl ↦ h.owned hx.committed hl (hx.owned (h.live_of hx.committed hl))
  claimed := by
    intro hm hw hl
    have hl' := h.live_of hx.committed hl
    exact (h.mine hx.committed hx.has hl ⟨hx.owned hl', fun hm ↦ hx.claimed hm hw hl'⟩).2 hm

/-- The invariant of a consumer in a transaction survives the steps of others. -/
theorem Frame.active {tx : Transaction} (hsess : s'.sessions c = s.sessions c)
    (ha : s.Active groups c tx) : s'.Active groups c tx := by
  have hle := ha.sees.started
  have hrow : ∀ r ∈ (s.consumer c).consumingRows,
      s.manager.statusOf r.writePointer = some .committed := by
    intro r hr
    obtain ⟨x, hx, rfl⟩ := List.mem_map.mp hr
    exact (ha.consuming x hx).committed
  exact {
    has := ha.has
    participant := by rw [h.participants hle]; exact ha.participant
    participant_has := by rw [h.participants hle]; exact ha.participant_has
    notRolledBack := fun hr ↦ ha.notRolledBack (h.rolledBack hle hr)
    sees := h.sees ha.sees
    persisted_of_committed := fun hc ↦ by
      rw [phase, hsess]; exact ha.persisted_of_committed ((h.committed _).mp hc)
    sorted := by rw [consumer, hsess]; exact ha.sorted
    disjoint := by rw [consumer, hsess]; exact ha.disjoint
    consuming := fun x hx ↦ by
      rw [consumer, hsess] at hx
      exact h.holds (ha.consuming x hx)
    todo_sorted := by rw [phase, hsess]; exact ha.todo_sorted
    todo_consuming := by rw [phase, consumer, hsess]; exact ha.todo_consuming
    mustClaim_of_claiming := fun hp ↦ by
      rw [phase, hsess] at hp
      exact ha.mustClaim_of_claiming hp
    claimed := fun x hx htodo hl ↦ by
      rw [consumer, hsess] at hx
      rw [phase, hsess] at htodo
      have hc := (ha.consuming x hx).committed
      exact h.mine hc ha.has hl (ha.claimed x hx htodo (h.live_of hc hl))
    unprocessed := fun hst r hr hm hp ↦ by
      rw [consumer, hsess] at hr
      exact ha.unprocessed (fun hc ↦ hst ((h.committed _).mpr hc)) r hr
        (h.mine_of (hrow r hr) hm) (h.processed_of hp)
    flag := by rw [consumer, phase, hsess]; exact ha.flag
    processed_of := fun hst hi hw hp ↦ by
      rw [phase, consumer, hsess]
      exact ha.processed_of (h.state_of_by hst hi) hi hw hp
    processed := fun hph r hr hl ↦ by
      rw [phase, hsess] at hph
      rw [consumer, hsess] at hr
      have hl' := h.live_of (hrow r hr) hl
      have hst := ha.processed hph r hr hl'
      obtain ⟨x, hx, rfl⟩ := List.mem_map.mp hr
      have hm : s.Mine groups c x.rowKey := ⟨(ha.consuming x hx).owned hl', fun _ ↦ ⟨_, hst, rfl⟩⟩
      exact (h.state_mine ha.has hm hl).trans hst
    visible := fun hst hc ↦ by
      have hc := (h.committed _).mp hc
      exact ha.visible (h.state_of_committed hst hc) hc }

/-- **Steps of others do no harm.** -/
theorem Frame.sessionInv (hsess : s'.sessions c = s.sessions c) (hi : s.SessionInv groups c) :
    s'.SessionInv groups c where
  sorted := by rw [consumer, hsess]; exact hi.sorted
  cached := fun x hx ↦ by
    rw [consumer, hsess] at hx
    exact h.holds (hi.cached x hx)
  unprocessed := fun r hr hm hp ↦ by
    rw [consumer, hsess] at hr
    obtain ⟨x, hx, rfl⟩ := List.mem_map.mp hr
    exact hi.unprocessed _ hr (h.mine_of (hi.cached x hx).committed hm) (h.processed_of hp)
  active := fun hp ↦ by
    rw [phase, hsess] at hp
    obtain ⟨tx, htx, ha⟩ := hi.active hp
    exact ⟨tx, by rw [consumer, hsess]; exact htx, h.active hsess ha⟩

end Frame

end State
end Tigon
