import Tigon.InMemory.Exclusive

/-!
# The start key

A consumer does not scan the queue from its beginning: it remembers a start key, and moves it
forward in the loop of `dequeue` as long as everything before was processed, or was never its own.
So every entry the consumer has still to process must be at or beyond the start key.

The loop moves the start key to the next key before it compares that key with the read pointer of
the transaction.  A key beyond the read pointer says nothing about the transactions in between: one
that was started after the snapshot can still commit with a smaller id, and its entries are then
before the start key for good.  `StartOk` is the condition that this does not happen, and
`startKey_le_of_due` says that it is all that is needed in a group of fixed size.
-/

set_option autoImplicit false

open Mvcc

namespace Tigon.InMemory.State

variable {s s' : State} {a : Action} {c : ConsumerId} {key k : Key} {g i j w : Nat}
  {tx : Transaction} {item : Item}

/-! ## What a consumer has still to process -/

/-- The consumer may take the entry, if the entry is not processed. -/
def Entitled (config : ConsumerConfig) (key : Key) (item : Item) : Prop :=
  if config.dequeueStrategy = .fifo then
    ∀ st ∈ item.consumerStates config.groupId,
      config.groupSize ≤ st.instanceId ∨ st.instanceId = config.instanceId
  else Item.goesTo config key item.entry = true

instance (config : ConsumerConfig) (key : Key) (item : Item) :
    Decidable (Entitled config key item) := by
  unfold Entitled; infer_instance

/-- The entry is in the queue, the consumer is entitled to it, and its group has not processed
it. -/
def Open (s : State) (c : ConsumerId) (key : Key) : Prop :=
  (∃ item ∈ s.queue.item key, Entitled (s.config c) key item) ∧ ¬ s.Processed c.1 key

instance (s : State) (c : ConsumerId) (key : Key) : Decidable (s.Open c key) :=
  match h : s.queue.item key with
  | none => .isFalse fun ⟨⟨item, hitem, _⟩, _⟩ ↦ by cases h.symm.trans hitem
  | some item =>
    decidable_of_iff (Entitled (s.config c) key item ∧ ¬ s.Processed c.1 key)
      ⟨fun ⟨he, hp⟩ ↦ ⟨⟨item, h, he⟩, hp⟩, fun ⟨⟨item', hitem', he⟩, hp⟩ ↦ by
        obtain rfl := Option.some_inj.mp (h.symm.trans hitem')
        exact ⟨he, hp⟩⟩

/-- The consumer has still to process the entry. -/
def Due (s : State) (c : ConsumerId) (key : Key) : Prop :=
  s.Open c key ∧ s.manager.statusOf key.txId = some .committed

instance (s : State) (c : ConsumerId) (key : Key) : Decidable (s.Due c key) :=
  inferInstanceAs (Decidable (_ ∧ _))

/-- The consumer has to process the entry now or, if its transaction commits, later. -/
def Wanted (s : State) (c : ConsumerId) (key : Key) : Prop :=
  s.Open c key ∧ (s.manager.statusOf key.txId = some .committed ∨ s.manager.Pending key.txId)

instance (s : State) (c : ConsumerId) (key : Key) : Decidable (s.Wanted c key) :=
  inferInstanceAs (Decidable (_ ∧ _))

/-- If an iteration of the consumer's loop moves the start key to a key beyond the read pointer,
then no transaction between the two is in progress, and the consumer wants no entry between the
two. -/
def StartOk (c : ConsumerId) (s : State) : Action → Prop
  | .scan c' => c' = c → ∀ tx ∈ (s.consumer c).currentTx,
      match s.phase c with
      | .scanning scan =>
        scan.keys.length < scan.maxBatchSize → ∀ key ∈ scan.next,
          InMemoryQueue.movesStartKey tx scan key = true → tx.readPointer < key.txId →
          (∀ w < key.txId, tx.readPointer < w → ¬ s.manager.Pending w) ∧
            ∀ k ∈ s.queue.entries.keys, k < key → tx.readPointer < k.txId → ¬ s.Wanted c k
      | _ => True
  | .resize g _ => g ≠ c.1
  | _ => True

instance (c : ConsumerId) (s : State) : (a : Action) → Decidable (StartOk c s a)
  | .scan c' => by
    unfold StartOk
    cases s.phase c <;> infer_instance
  | .resize _ _ => inferInstanceAs (Decidable (_ ≠ _))
  | .begin _ _ _ | .enqueue _ _ | .undoEnqueue _ | .dequeue _ _ | .reclaim _ _ | .commitTx _
  | .commit _ | .postTxCommit _ | .rollbackTx _ | .abort _ | .invalidate _ =>
    inferInstanceAs (Decidable True)

/-! ## Groups of fixed size -/

/-- What holds for a group that was never resized. -/
structure FixedInv (s : State) (g : Nat) : Prop where
  group : s.GroupInv g
  /-- Whoever has written a state is still there. -/
  present : ∀ {key item st}, s.queue.item key = some item → item.consumerStates g = some st →
    st.instanceId < (s.groups.config g).groupSize
  /-- What is marked as processed was processed by a transaction that committed, or that is about
  to. -/
  processed : ∀ {key item i}, s.queue.item key = some item →
    item.consumerStates g = some ⟨i, .processed⟩ →
    s.Processed g key ∨ (s.phase (g, i) = .persisted ∧ key ∈ s.dequeuedKeys (g, i))

theorem fixedInv_init (groups : Groups) : (init groups).FixedInv g where
  group := groupInv_init groups
  present h := by cases h
  processed h := by cases h

theorem FixedInv.takeOk (hf : s.FixedInv g) : TakeOk g s a := by
  cases a with
  | scan c =>
    rintro rfl hfifo hsize item hitem st hst hcl
    have hsome : ∃ key, s.queue.item key = some item := by
      rw [looksAt] at hitem
      split at hitem
      · split at hitem
        · cases hitem
        · split at hitem
          · exact ⟨_, hitem⟩
          · cases hitem
      · cases hitem
    obtain ⟨key, hkey⟩ := hsome
    exact hf.present hkey hst
  | _ => exact trivial

/-- Whoever writes a state is an instance of the group. -/
theorem Writes.instanceId_lt {st : ItemEntryState} (hi : s.Inv)
    (hw : Writes s key g a (some st)) : st.instanceId < (s.groups.config g).groupSize := by
  have hhas : ∀ {i}, s.phase (g, i) ≠ .idle → i < (s.groups.config g).groupSize := fun hp ↦
    ((hi.session _).has (.inl hp)).2
  cases hw with
  | claim hlooks => exact hhas fun hp ↦ by cases hlooks.phase.symm.trans hp
  | ack hready => exact hhas fun hp ↦ by cases hready.symm.trans hp
  | revoke hactive => exact hhas hactive

theorem groups_config_step (h : s.step a = some s') (hne : ∀ n, a ≠ .resize g n) :
    s'.groups.config g = s.groups.config g := by
  rcases groups_step h with heq | ⟨g', n, hpos, rfl, heq⟩
  · rw [heq]
  · rw [heq]
    exact Groups.config_resize_of_ne fun hg ↦ hne n (by rw [hg])

/-- What is marked as processed and is not undone in the step stays accounted for. -/
theorem processed_keep (h : s.step a = some s')
    (hold : s.Processed g key ∨ (s.phase (g, i) = .persisted ∧ key ∈ s.dequeuedKeys (g, i)))
    (hg : s.GroupInv g) (hitem : s.queue.item key = some item)
    (hnot : a ≠ .rollbackTx (g, i)) (hne : ∀ n, a ≠ .resize g n) :
    s'.Processed g key ∨ (s'.phase (g, i) = .persisted ∧ key ∈ s'.dequeuedKeys (g, i)) := by
  rcases hold with hold | ⟨hp, hk⟩
  · exact .inl (hold.step h)
  rcases session_step h (g, i) with heq | hmove
  · rw [phase, dequeuedKeys, consumer, heq]
    exact .inr ⟨hp, hk⟩
  generalize hs : s'.sessions (g, i) = session at hmove
  cases hmove with
  | postTxCommit hpersisted htx hcommitted =>
    exact .inl ((hg.logged hp htx hcommitted hk hitem).step h)
  | begin hs hc hhas hidle => cases hp.symm.trans hidle
  | dequeue hready => cases hp.symm.trans hready
  | finish hscan => cases hp.symm.trans hscan
  | stop hat => cases hp.symm.trans hat.phase
  | skip hat => cases hp.symm.trans hat.phase
  | look hlooks => cases hp.symm.trans hlooks.phase
  | reclaim hready => cases hp.symm.trans hready
  | commitTx hready => cases hp.symm.trans hready
  | rollbackTx => exact absurd rfl hnot
  | resize => exact absurd rfl (hne _)

theorem fixedInv_step (hi : s.Inv) (hf : s.FixedInv g) (hne : ∀ n, a ≠ .resize g n)
    (h : s.step a = some s') : s'.FixedInv g where
  group := groupInv_step hi hf.group hf.takeOk h
  present := fun {key item' st} hitem' hst ↦ by
    rw [groups_config_step h hne]
    rcases item_step h hitem' with ⟨entry, -, -, rfl⟩ | ⟨item, hitem, hstep⟩
    · cases hst
    · rcases hstep.states g with heq | hw
      · exact hf.present hitem (heq.symm.trans hst)
      · rw [hst] at hw
        exact hw.instanceId_lt hi
  processed := fun {key item' i} hitem' hst ↦ by
    rcases item_step h hitem' with ⟨entry, -, -, rfl⟩ | ⟨item, hitem, hstep⟩
    · cases hst
    rcases hstep.states g with heq | hw
    · have hst := heq.symm.trans hst
      have hold := hf.processed hitem hst
      by_cases hroll : a = .rollbackTx (g, i)
      · -- an entry that is undone does not stay processed
        subst hroll
        rcases hold with hold | ⟨hp, hk⟩
        · exact .inl (hold.step h)
        obtain ⟨tx, -, -, -, rfl⟩ := rollbackTx_eq_some h
        have hcommitted : (s.consumer (g, i)).committed = true := (hi.session (g, i)).committed hp
        simp only [hcommitted, true_or, if_true, InMemoryQueue.item_undoDequeue,
          if_pos hk] at hitem'
        rw [hitem, Option.map_some, Option.some_inj] at hitem'
        have hst' := heq.trans hst
        rw [← hitem', Item.revokeConsumerState] at hst'
        split at hst'
        · simp [Item.setConsumerState, Item.putState, Groups.consumerConfig] at hst'
        · simp [Item.putState, Groups.consumerConfig] at hst'
      · exact processed_keep h hold hf.group hitem hroll hne
    · rw [hst] at hw
      cases hw with
      | ack hready hkey =>
        obtain ⟨-, rfl⟩ := commitTx_eq_some h
        exact .inr ⟨by simp [phase, setSession],
          by simpa [dequeuedKeys, consumer, setSession] using hkey⟩

/-- In a group of fixed size, a FIFO entry stays with the instance that has claimed it. -/
theorem FixedInv.owner_step {item' : Item} {st' : ItemEntryState} (hi : s.Inv)
    (hf : s.FixedInv g) (hfifo : (s.groups.config g).dequeueStrategy = .fifo)
    (hitem : s.queue.item key = some item) (hstep : ItemStep s a key item item')
    {st : ItemEntryState} (hst : item.consumerStates g = some st)
    (hst' : item'.consumerStates g = some st') : st'.instanceId = st.instanceId := by
  -- whoever writes has the entry, so it is bound to it
  have hown : ∀ {i}, s.phase (g, i) ≠ .idle → key ∈ s.dequeuedKeys (g, i) →
      i = st.instanceId := by
    intro i hactive hkey
    have hbound := hf.group.bound ((hi.session (g, i)).had hkey) hitem
    rw [Bound, if_pos (show (s.config (g, i)).dequeueStrategy = .fifo from hfifo)] at hbound
    obtain ⟨st₀, hst₀, hmine⟩ := hbound
    obtain rfl := Option.some_inj.mp (hst.symm.trans hst₀)
    rcases hmine with hmine | ⟨hone, -⟩
    · exact hmine.symm
    · have h1 : i < (s.groups.config g).groupSize := ((hi.session (g, i)).has (.inl hactive)).2
      have h2 := hf.present hitem hst
      have hone : (s.groups.config g).groupSize = 1 := hone
      omega
  rcases hstep.states g with heq | hw
  · rw [Option.some_inj.mp (hst'.symm.trans (heq.trans hst))]
  · rw [hst'] at hw
    cases hw with
    | claim hlooks _ hnone =>
      rw [InMemoryQueue.state_of_item hitem, hst] at hnone
      cases hnone
    | ack hready hkey => exact hown (fun hp ↦ by cases hready.symm.trans hp) hkey
    | revoke hactive hkey _ => exact hown hactive hkey

/-- A FIFO entry that has a state keeps one, as long as it is there. -/
theorem ItemStep.state_of_fifo {item' : Item} {st : ItemEntryState}
    (hfifo : (s.groups.config g).dequeueStrategy = .fifo) (hstep : ItemStep s a key item item')
    (hst : item.consumerStates g = some st) : ∃ st', item'.consumerStates g = some st' := by
  rcases hstep.states g with heq | hw
  · exact ⟨st, heq.trans hst⟩
  · cases hst' : item'.consumerStates g with
    | some st' => exact ⟨st', rfl⟩
    | none =>
      rw [hst'] at hw
      cases hw with
      | remove _ _ hno => exact absurd hfifo hno

/-- **A consumer becomes entitled to nothing it was not entitled to before**, except to what is
enqueued. -/
theorem open_step (hi : s.Inv) (hf : s.FixedInv c.1) (hne : ∀ n, a ≠ .resize c.1 n)
    (h : s.step a = some s') (hopen : s'.Open c key) :
    s.Open c key ∨ ∃ entry, a = .enqueue key.txId entry ∧ key.seqNo = s.enqueued key.txId := by
  obtain ⟨⟨item', hitem', hent⟩, hproc⟩ := hopen
  rcases item_step h hitem' with ⟨entry, rfl, hseq, -⟩ | ⟨item, hitem, hstep⟩
  · exact .inr ⟨entry, rfl, hseq⟩
  refine .inl ⟨⟨item, hitem, ?_⟩, fun hp ↦ hproc (hp.step h)⟩
  rw [(config_step h hne).1] at hent
  rw [Entitled] at hent ⊢
  split
  · rename_i hfifo
    rw [if_pos hfifo] at hent
    intro st hst
    obtain ⟨st', hst'⟩ := hstep.state_of_fifo (g := c.1) hfifo hst
    have heq := hf.owner_step hi hfifo hitem hstep hst hst'
    rw [← heq]
    exact hent st' hst'
  · rename_i hfifo
    rw [if_neg hfifo, hstep.entry] at hent
    exact hent

/-- What is wanted after a step was wanted before, or is enqueued by a transaction in progress. -/
theorem wanted_step (hi : s.Inv) (hf : s.FixedInv c.1) (hne : ∀ n, a ≠ .resize c.1 n)
    (h : s.step a = some s') (hw : s'.Wanted c key) :
    s.Wanted c key ∨ (s.manager.Pending key.txId ∧ key.seqNo = s.enqueued key.txId) := by
  obtain ⟨hopen, hstatus⟩ := hw
  rcases open_step hi hf hne h hopen with hopen | ⟨entry, rfl, hseq⟩
  · refine .inl ⟨hopen, ?_⟩
    rcases hstatus with hc | hp
    · rcases committed_of_step h hc with hc | rfl
      · exact .inl hc
      · -- the transaction that commits was in progress, and it is a short one
        obtain ⟨⟨item, hitem, -⟩, -⟩ := hopen
        obtain ⟨-, -, m, hm, -⟩ := commit_eq_some h
        obtain ⟨info, hinfo, hbecome, -⟩ := Manager.finish?_eq_some_iff.mp hm
        have hpos : 0 < s.enqueued key.txId := Nat.lt_of_le_of_lt (Nat.zero_le _) (hi.entry hitem)
        obtain ⟨st, hshort⟩ := hi.short hpos
        obtain rfl := Option.some_inj.mp (hinfo.symm.trans hshort)
        cases st with
        | inProgress => exact .inr (.inr hinfo)
        | _ => simp [Status.canBecome] at hbecome
    · exact .inr ((frame_step h).pending hp)
  · refine .inr ⟨?_, hseq⟩
    obtain ⟨hinfo, rfl⟩ := enqueue_eq_some h
    rcases hinfo with hinfo | hinfo
    · exact .inr hinfo
    · rcases hstatus with hc | hp
      · simp [Manager.statusOf, hinfo] at hc
      · rcases hp with hp | hp
        · have hle : key.txId ≤ s.manager.last := s.manager.le_last (by simp [hinfo])
          have hp : s.manager.last < key.txId := hp
          omega
        · simp [hinfo] at hp

/-- An entry a consumer has still to process is not marked as processed, unless the consumer is
about to commit. -/
theorem Open.unprocessed (hi : s.Inv) (hf : s.FixedInv c.1) (hopen : s.Open c key)
    (hhas : s.groups.Has c) (hphase : s.phase c ≠ .persisted)
    (hitem : s.queue.item key = some item) :
    item.getConsumerState c.1 ≠ some .processed := by
  intro hproc
  obtain ⟨⟨item', hitem', hent⟩, hnot⟩ := hopen
  obtain rfl := Option.some_inj.mp (hitem.symm.trans hitem')
  obtain ⟨⟨j, st⟩, hst, rfl⟩ := Option.map_eq_some_iff.mp hproc
  rcases hf.processed hitem hst with hp | ⟨hp, hk⟩
  · exact hnot hp
  obtain ⟨g, i⟩ := c
  have hij : i ≠ j := fun hij ↦ hphase (by rw [hij]; exact hp)
  have hhad : s.Had (g, j) key := (hi.session (g, j)).had hk
  rw [Entitled] at hent
  split at hent
  · rename_i hfifo
    have hlt := hf.present hitem hst
    rcases hent _ hst with hgone | hmine
    · have hgone : (s.groups.config g).groupSize ≤ j := hgone
      exact absurd hlt (by simpa using hgone)
    · exact hij hmine.symm
  · rename_i hfifo
    have hbound := hf.group.bound hhad hitem
    rw [Bound, if_neg (show (s.config (g, j)).dequeueStrategy ≠ .fifo from hfifo)] at hbound
    exact hij (goesTo_unique hhas (hhad.has (hi.session (g, j))) hent hbound)

/-! ## The invariant of the start key -/

/-- Nothing the consumer wants, now or later, is before its start key; and as long as its loop may
move the start key, nothing that it wants and sees is behind the iterator. -/
structure StartInv (s : State) (c : ConsumerId) (session : Session) : Prop where
  wanted : ∀ start ∈ session.consumer.state.startKey, ∀ key, s.Wanted c key → start ≤ key
  pending : ∀ start ∈ session.consumer.state.startKey, ∀ w, s.manager.Pending w →
    start ≤ ⟨w, s.enqueued w⟩
  scanning : ∀ {scan tx}, session.phase = .scanning scan → scan.updateStartKey = true →
    session.consumer.currentTx = some tx → ∀ key, s.Wanted c key →
    tx.isVisible key.txId = true → ∃ next ∈ scan.next, next ≤ key

theorem Wanted.present (hw : s.Wanted c key) : s.queue.entries.get key ≠ none := by
  obtain ⟨⟨⟨item, hitem, -⟩, -⟩, -⟩ := hw
  intro hnone
  cases hnone.symm.trans hitem

/-- What is wanted and older than every short transaction in progress, the transaction sees. -/
theorem Wanted.visible (hi : s.Inv) (hs : Sees s.manager tx) (hw : s.Wanted c key)
    (hread : key.txId ≤ tx.readPointer) (hfirst : key.txId < tx.firstShortInProgress) :
    tx.isVisible key.txId = true := by
  have hnotLate : ¬ tx.Late key.txId := by
    have := hs.read
    rintro (⟨-, h⟩ | h)
    · omega
    · omega
  rcases hw.2 with hc | hp
  · obtain ⟨⟨⟨item, hitem, -⟩, -⟩, -⟩ := hw
    obtain ⟨st, hshort⟩ := hi.short (Nat.lt_of_le_of_lt (Nat.zero_le _) (hi.entry hitem))
    rw [Manager.statusOf, hshort, Option.map_some, Option.some_inj] at hc
    rw [show st = .committed from hc] at hshort
    exact (hs.committed hshort).resolve_right hnotLate
  · exact absurd (hs.pending hp) hnotLate

variable {scan : Scan}

/-- **Moving the start key is safe** up to the read pointer, and beyond it under the condition. -/
theorem StartInv.moves (hi : s.Inv) (hstart : s.StartInv c (s.sessions c))
    (hat : s.AtKey c tx scan key) (hmoves : InMemoryQueue.movesStartKey tx scan key = true)
    (hbeyond : tx.readPointer < key.txId →
      (∀ w < key.txId, tx.readPointer < w → ¬ s.manager.Pending w) ∧
        ∀ k ∈ s.queue.entries.keys, k < key → tx.readPointer < k.txId → ¬ s.Wanted c k) :
    (∀ k, s.Wanted c k → key ≤ k) ∧ ∀ w, s.manager.Pending w → key ≤ ⟨w, s.enqueued w⟩ := by
  rw [InMemoryQueue.movesStartKey, Bool.and_eq_true, decide_eq_true_eq] at hmoves
  obtain ⟨hupdate, hfirst⟩ := hmoves
  obtain ⟨tx', htx', hs, -⟩ := (hi.session c).active fun hp ↦ by cases hat.phase.symm.trans hp
  obtain rfl := Option.some_inj.mp (hat.currentTx.symm.trans htx')
  constructor
  · intro k hw
    by_contra hlt
    have hlt := not_le.mp hlt
    have htxId := Key.txId_mono (le_of_lt hlt)
    by_cases hread : k.txId ≤ tx.readPointer
    · -- the iterator would have to stand at `k` or before
      have hvisible := hw.visible hi hs hread (by omega)
      obtain ⟨next, hnext, hle⟩ :=
        hstart.scanning hat.phase hupdate hat.currentTx k hw hvisible
      obtain rfl := Option.some_inj.mp (hat.next.symm.trans hnext)
      exact absurd hlt (not_lt.mpr hle)
    · have hkey : tx.readPointer < key.txId := by omega
      exact (hbeyond hkey).2 k (s.queue.entries.mem_keys.mpr hw.present) hlt (by omega) hw
  · intro w hp
    have hlate := hs.pending hp
    rw [Key.le_def]
    rcases hlate with ⟨-, hlate⟩ | hlate
    · exact .inl (by show key.txId < w; omega)
    · rcases lt_trichotomy key.txId w with hlt | heq | hgt
      · exact .inl hlt
      · subst heq
        exact .inr ⟨rfl, le_of_lt ((hi.session c).next hat.phase key hat.next)⟩
      · have hread := hs.read
        exact absurd hp ((hbeyond (by omega)).1 w hgt (by omega))

theorem StartInv.moved (hi : s.Inv) (hstart : s.StartInv c (s.sessions c))
    (hat : s.AtKey c tx scan key)
    (hbeyond : InMemoryQueue.movesStartKey tx scan key = true → tx.readPointer < key.txId →
      (∀ w < key.txId, tx.readPointer < w → ¬ s.manager.Pending w) ∧
        ∀ k ∈ s.queue.entries.keys, k < key → tx.readPointer < k.txId → ¬ s.Wanted c k) :
    s.StartInv c (s.moved c tx scan key) := by
  by_cases hmoves : InMemoryQueue.movesStartKey tx scan key = true
  · obtain ⟨h1, h2⟩ := hstart.moves hi hat hmoves (hbeyond hmoves)
    refine { hstart with wanted := fun start hs ↦ ?_, pending := fun start hs ↦ ?_ }
    · rw [State.moved, if_pos hmoves] at hs
      obtain rfl := Option.some_inj.mp hs
      exact h1
    · rw [State.moved, if_pos hmoves] at hs
      obtain rfl := Option.some_inj.mp hs
      exact h2
  · rw [State.moved, if_neg hmoves]
    exact hstart

/-- What the loop passes over, the consumer does not want. -/
theorem not_wanted_of_passed (hi : s.Inv) (hf : s.FixedInv c.1)
    (hlooks : s.Looks c tx scan key)
    (hpassed : ∀ item, s.queue.item key = some item →
      item.getConsumerState (s.config c).groupId = some .processed ∨
        (s.config c).dequeueStrategy ≠ .fifo ∧ Item.goesTo (s.config c) key item.entry = false) :
    ¬ s.Wanted c key := by
  intro hw
  have hw' := hw.1
  obtain ⟨⟨item, hitem, hent⟩, -⟩ := hw'
  rcases hpassed item hitem with hproc | ⟨hfifo, hgoes⟩
  · exact hw.1.unprocessed hi hf ((hi.session c).has
      (.inl fun hp ↦ by cases hlooks.phase.symm.trans hp))
        (fun hp ↦ by cases hlooks.phase.symm.trans hp) hitem hproc
  · rw [Entitled, if_neg hfifo, hgoes] at hent
    cases hent

/-- The consumer's own moves keep its start key in order. -/
theorem StartInv.of_move {session : Session} (hi : s.Inv) (hf : s.FixedInv c.1)
    (hok : StartOk c s a) (hstart : s.StartInv c (s.sessions c)) (hmove : Move s c a session) :
    s.StartInv c session := by
  have hbeyond : a = .scan c → ∀ {tx scan key}, s.AtKey c tx scan key →
      InMemoryQueue.movesStartKey tx scan key = true → tx.readPointer < key.txId →
      (∀ w < key.txId, tx.readPointer < w → ¬ s.manager.Pending w) ∧
        ∀ k ∈ s.queue.entries.keys, k < key → tx.readPointer < k.txId → ¬ s.Wanted c k := by
    rintro rfl tx scan key hat hmoves hread
    have hok := hok rfl tx hat.currentTx
    rw [hat.phase] at hok
    exact hok hat.room key hat.next hmoves hread
  have hreturned : ∀ {session : Session} {scan : Scan}, s.StartInv c session →
      s.StartInv c (returned session scan) := by
    intro session scan hstart
    have hstate : (returned session scan).consumer.state = session.consumer.state := by
      rw [returned, Consumer.dequeued]
      split <;> rfl
    exact ⟨by rw [hstate]; exact hstart.wanted, by rw [hstate]; exact hstart.pending,
      fun h ↦ by cases h⟩
  cases hmove with
  | begin => exact { hstart with scanning := fun h ↦ by cases h }
  | dequeue hready =>
    refine { hstart with scanning := fun h _ _ key hw _ ↦ ?_ }
    obtain rfl := Phase.scanning.inj h
    rw [InMemoryQueue.startScan]
    simp only
    split
    · -- without a start key the scan begins with the first key of all
      have hmem := s.queue.entries.mem_keys.mpr hw.present
      cases hkeys : s.queue.entries.keys with
      | nil =>
        rw [hkeys] at hmem
        cases hmem
      | cons first rest =>
        refine ⟨first, rfl, ?_⟩
        have hsorted := s.queue.entries.sorted
        rw [hkeys] at hmem hsorted
        rcases List.mem_cons.mp hmem with rfl | hmem
        · exact le_refl _
        · exact le_of_lt ((List.pairwise_cons.mp hsorted).1 key hmem)
    · rename_i start hs
      exact SortedMap.exists_ceilingKey hw.present (hstart.wanted start hs key hw)
  | finish => exact hreturned hstart
  | stop hat hread => exact hreturned (hstart.moved hi hat (hbeyond rfl hat))
  | skip hat hread =>
    refine { hstart.moved hi hat (hbeyond rfl hat) with scanning := fun h hupdate ↦ ?_ }
    obtain rfl := Phase.scanning.inj h
    cases hupdate
  | @look tx scan key hlooks =>
    refine { hstart.moved hi hlooks.toAtKey (hbeyond rfl hlooks.toAtKey) with
      scanning := fun {scan' tx'} h hupdate htx k hw hvisible ↦ ?_ }
    obtain rfl := Phase.scanning.inj h
    obtain rfl := Option.some_inj.mp (hlooks.currentTx.symm.trans htx)
    rcases InMemoryQueue.take_cases s.queue (s.config c) (s.advanced scan key) key with
      ⟨htake, hpassed⟩ | ⟨item, -, -, ⟨-, -, htake⟩ | ⟨-, -, htake⟩ | ⟨-, -, htake⟩ |
        ⟨-, -, htake⟩⟩
    · rw [htake] at hupdate ⊢
      have hnot := not_wanted_of_passed hi hf hlooks hpassed
      obtain ⟨next, hnext, hle⟩ :=
        hstart.scanning hlooks.phase hupdate hlooks.currentTx k hw hvisible
      obtain rfl := Option.some_inj.mp (hlooks.next.symm.trans hnext)
      have hlt : key < k := lt_of_le_of_ne hle fun heq ↦ hnot (by rw [heq]; exact hw)
      exact SortedMap.exists_higherKey hw.present hlt
    all_goals
      rw [htake] at hupdate
      cases hupdate
  | reclaim hready =>
    exact { hstart with scanning := fun h ↦ by cases hready.symm.trans h }
  | commitTx => exact { hstart with scanning := fun h ↦ by cases h }
  | postTxCommit => exact { hstart with scanning := fun h ↦ by cases h }
  | rollbackTx => exact { hstart with scanning := fun h ↦ by cases h }
  | resize => exact absurd rfl hok

/-- Nothing is lost when others act. -/
theorem StartInv.of_frame {session : Session} (hi : s.Inv) (hf : s.FixedInv c.1)
    (hne : ∀ n, a ≠ .resize c.1 n) (h : s.step a = some s') (hstart : s.StartInv c session)
    (hsees : ∀ {scan tx}, session.phase = .scanning scan →
      session.consumer.currentTx = some tx → Sees s.manager tx) : s'.StartInv c session where
  wanted start hs key hw := by
    rcases wanted_step hi hf hne h hw with hw | ⟨hp, hseq⟩
    · exact hstart.wanted start hs key hw
    · have hle := hstart.pending start hs key.txId hp
      rw [← hseq] at hle
      exact hle
  pending start hs w hp := by
    have hle := hstart.pending start hs w ((frame_step h).pending hp)
    have henq := (frame_step h).enqueued w
    rw [Key.le_def] at hle ⊢
    simp only at hle ⊢
    omega
  scanning hscan hupdate htx key hw hvisible := by
    rcases wanted_step hi hf hne h hw with hw | ⟨hp, -⟩
    · exact hstart.scanning hscan hupdate htx key hw hvisible
    · have hno := (hsees hscan htx).not_visible hp
      rw [hvisible] at hno
      cases hno

theorem startInv_step (hi : s.Inv) (hf : s.FixedInv c.1) (hok : StartOk c s a)
    (h : s.step a = some s') (hstart : s.StartInv c (s.sessions c)) :
    s'.StartInv c (s'.sessions c) := by
  have hne : ∀ n, a ≠ .resize c.1 n := by
    rintro n rfl
    exact hok rfl
  rcases session_step h c with heq | hmove
  · rw [heq]
    refine hstart.of_frame hi hf hne h fun hscan htx ↦ ?_
    obtain ⟨tx', htx', hs, -⟩ := (hi.session c).active fun hp ↦ by cases hscan.symm.trans hp
    obtain rfl := Option.some_inj.mp (htx.symm.trans htx')
    exact hs
  · refine (hstart.of_move hi hf hok hmove).of_frame hi hf hne h fun hscan htx ↦ ?_
    have hbegin : ∀ tx short participants, a ≠ .begin tx short participants := by
      rintro tx short participants rfl
      generalize s'.sessions c = session at hmove hscan
      cases hmove
      cases hscan
    have hinv := (hi.session c).of_move hi.entry hmove hbegin
    obtain ⟨tx', htx', hs, -⟩ := hinv.active fun hp ↦ by cases hscan.symm.trans hp
    obtain rfl := Option.some_inj.mp (htx.symm.trans htx')
    exact hs

theorem startInv_init (groups : Groups) : (init groups).StartInv c ((init groups).sessions c) where
  wanted _ h := by cases h
  pending _ h := by cases h
  scanning h := by cases h

theorem startInv_run {groups : Groups} {as : List Action}
    (h : Lts.Run step (StartOk c) (init groups) as s) :
    s.Inv ∧ s.FixedInv c.1 ∧ s.StartInv c (s.sessions c) := by
  refine h.invariant (I := fun s ↦ s.Inv ∧ s.FixedInv c.1 ∧ s.StartInv c (s.sessions c))
    (fun {s s' a} hs hok hstep ↦ ?_)
    ⟨inv_init groups, fixedInv_init groups, startInv_init groups⟩
  obtain ⟨hi, hf, hstart⟩ := hs
  have hne : ∀ n, a ≠ .resize c.1 n := by
    rintro n rfl
    exact hok rfl
  exact ⟨inv_step hi hstep, fixedInv_step hi hf hne hstep, startInv_step hi hf hok hstep hstart⟩

/-! ## A call of `dequeue` with nobody in between -/

/-- An iteration of the loop changes at most the entry it looks at. -/
theorem queue_scan (h : s.scan c = some s') (hphase : s.phase c = .scanning scan) :
    s'.queue.entries.keys = s.queue.entries.keys ∧
      ∀ k, scan.next ≠ some k → s'.queue.item k = s.queue.item k := by
  obtain ⟨session, -, -, hqueue⟩ := scan_cases h
  rcases hqueue with heq | ⟨tx, scan', key, hlooks, heq⟩
  · rw [heq]
    exact ⟨rfl, fun _ _ ↦ rfl⟩
  obtain rfl := Phase.scanning.inj (hphase.symm.trans hlooks.phase)
  rw [heq]
  rcases InMemoryQueue.take_cases s.queue (s.config c) (s.advanced scan key) key with
    ⟨htake, -⟩ | ⟨item, hitem, -, ⟨-, -, htake⟩ | ⟨-, -, htake⟩ | ⟨-, -, htake⟩ | ⟨-, -, htake⟩⟩
  · rw [htake]
    exact ⟨rfl, fun _ _ ↦ rfl⟩
  · rw [htake]
    refine ⟨s.queue.entries.sorted.put_of_mem (s.queue.entries.mem_keys.mpr ?_), fun k hk ↦ ?_⟩
    · exact fun hnone ↦ by cases hnone.symm.trans hitem
    · show SortedMap.get (SortedMap.put _ _ _) k = _
      rw [SortedMap.get_put, if_neg fun (hkey : k = key) ↦ hk (hkey ▸ hlooks.next)]
  all_goals
    rw [htake]
    exact ⟨rfl, fun _ _ ↦ rfl⟩

/-- An entry that is not processed and that the consumer is entitled to is taken. -/
theorem take_of_entitled (hitem : s.queue.item key = some item)
    (hproc : item.getConsumerState c.1 ≠ some .processed)
    (hent : Entitled (s.config c) key item) :
    (s.queue.take (s.config c) scan key).2.keys = scan.keys ++ [key] := by
  rw [Entitled] at hent
  rcases InMemoryQueue.take_cases s.queue (s.config c) scan key with
    ⟨-, hpassed⟩ | ⟨item', hitem', -, ⟨-, -, htake⟩ | ⟨-, -, htake⟩ |
      ⟨hfifo, ⟨st, hst, hlt, hne⟩, -⟩ | ⟨-, -, htake⟩⟩
  · rcases hpassed item hitem with h | ⟨hfifo, hgoes⟩
    · exact absurd h hproc
    · rw [if_neg hfifo, hgoes] at hent
      cases hent
  · rw [htake]
    rfl
  · rw [htake]
    rfl
  · obtain rfl := Option.some_inj.mp (hitem.symm.trans hitem')
    rw [if_pos hfifo] at hent
    rcases hent st hst with h | h
    · omega
    · exact absurd h hne
  · rw [htake]
    rfl

/-- The loop has taken the entry, or is on its way to it and has room for all that it meets. -/
def OnTheWay (s : State) (c : ConsumerId) (tx : Transaction) (scan : Scan) (key : Key) : Prop :=
  key ∈ scan.keys ∨ ∃ next item, scan.next = some next ∧ next ≤ key ∧
    scan.keys.length + s.queue.entries.countFrom next ≤ scan.maxBatchSize ∧
    key.txId ≤ tx.readPointer ∧ tx.isInProgress key.txId = false ∧
    s.queue.item key = some item ∧ item.getConsumerState c.1 ≠ some .processed ∧
    Entitled (s.config c) key item

/-- How many keys the loop has before it. -/
def ahead (s : State) (scan : Scan) : Nat :=
  match scan.next with
  | none => 0
  | some next => s.queue.entries.countFrom next

/-- The loop goes on to the next key. -/
theorem OnTheWay.advance {scan scan' : Scan} {next : Key} (hway : s.OnTheWay c tx scan key)
    (hnext : scan.next = some next) (hpresent : s.queue.entries.get next ≠ none)
    (hnext' : scan'.next = s.queue.entries.higherKey next)
    (hsize : scan'.maxBatchSize = scan.maxBatchSize)
    (hkeys : scan'.keys = scan.keys ∨ scan'.keys = scan.keys ++ [next])
    (htaken : key = next → ∀ item, s.queue.item key = some item →
      key.txId ≤ tx.readPointer → tx.isInProgress key.txId = false →
      item.getConsumerState c.1 ≠ some .processed → Entitled (s.config c) key item →
      key ∈ scan'.keys)
    (hqueue : s'.queue.entries.keys = s.queue.entries.keys)
    (hitems : ∀ k, scan.next ≠ some k → s'.queue.item k = s.queue.item k)
    (hconfig : s'.config c = s.config c) : s'.OnTheWay c tx scan' key := by
  rcases hway with hmem | ⟨next', item, hn, hle, hroom, hread, hin, hitem, hproc, hent⟩
  · refine .inl ?_
    rcases hkeys with hkeys | hkeys
    · rw [hkeys]
      exact hmem
    · rw [hkeys]
      exact List.mem_append_left _ hmem
  obtain rfl := Option.some_inj.mp (hnext.symm.trans hn)
  rcases eq_or_lt_of_le hle with heq | hlt
  · exact .inl (htaken heq.symm item hitem hread hin hproc hent)
  obtain ⟨n, hn, hnle⟩ := SortedMap.exists_higherKey
    (show s.queue.entries.get key ≠ none from fun hnone ↦ by cases hnone.symm.trans hitem) hlt
  have hcount : s'.queue.entries.countFrom n < s.queue.entries.countFrom next := by
    rw [SortedMap.countFrom, hqueue]
    exact SortedMap.countFrom_lt hpresent (SortedMap.higherKey_eq_some hn).1
  refine .inr ⟨n, item, hnext'.trans hn, hnle, ?_, hread, hin, ?_, hproc, hconfig ▸ hent⟩
  · rw [hsize]
    rcases hkeys with hkeys | hkeys
    · rw [hkeys]
      omega
    · rw [hkeys, List.length_append, List.length_singleton]
      omega
  · rw [hitems key fun h ↦ ne_of_lt hlt (Option.some_inj.mp (hnext.symm.trans h))]
    exact hitem

theorem returned_of_mem (session : Session) (h : key ∈ scan.keys) :
    (returned session scan).phase = .ready ∧
      key ∈ (returned session scan).consumer.dequeuedKeys.keys ∧
      ∃ result ∈ (returned session scan).results, key ∈ result.keys := by
  have hne : scan.keys ≠ [] := List.ne_nil_of_mem h
  refine ⟨rfl, ?_, ⟨scan.keys, scan.datas⟩, ?_, h⟩
  · rw [returned, Consumer.dequeued, if_neg hne]
    exact h
  · rw [returned, if_neg hne]
    exact List.mem_append_right _ (List.mem_singleton.mpr rfl)

theorem take_maxBatchSize (q : InMemoryQueue) (config : ConsumerConfig) (scan : Scan) (key : Key) :
    (q.take config scan key).2.maxBatchSize = scan.maxBatchSize := by
  rcases InMemoryQueue.take_cases q config scan key with
    ⟨htake, -⟩ | ⟨item, -, -, ⟨-, -, htake⟩ | ⟨-, -, htake⟩ | ⟨-, -, htake⟩ | ⟨-, -, htake⟩⟩
  all_goals simp [htake, Scan.add]

/-- **A loop that is on its way to an entry returns it**, if nobody else acts. -/
theorem scan_returns (hphase : s.phase c = .scanning scan)
    (htx : (s.consumer c).currentTx = some tx)
    (hpresent : ∀ next ∈ scan.next, s.queue.entries.get next ≠ none)
    (hway : s.OnTheWay c tx scan key) :
    ∃ m s', Lts.Run step (fun _ _ ↦ True) s (List.replicate m (.scan c)) s' ∧
      s'.phase c = .ready ∧ key ∈ s'.dequeuedKeys c ∧
      ∃ result ∈ (s'.sessions c).results, key ∈ result.keys := by
  induction hn : s.ahead scan using Nat.strong_induction_on generalizing s scan with
  | _ n ih =>
  subst hn
  obtain ⟨s₁, hs₁⟩ : ∃ s₁, s.scan c = some s₁ := by
    rw [State.scan, hphase, htx]
    simp only
    split
    · exact ⟨_, rfl⟩
    · split
      · exact ⟨_, rfl⟩
      · exact ⟨_, rfl⟩
  obtain ⟨session, heq, hmove, -⟩ := scan_cases hs₁
  obtain ⟨hkeys₁, hitems₁⟩ := queue_scan hs₁ hphase
  have hstep : Lts.Run step (fun _ _ ↦ True) s [.scan c] s₁ := .single trivial hs₁
  have hsession : s₁.sessions c = session := by
    rw [heq]
    exact Function.update_self _ _ _
  have hconfig : s₁.config c = s.config c := by rw [heq]; rfl
  -- a call that returns with the entry ends the argument
  have hdone : key ∈ session.consumer.dequeuedKeys.keys → session.phase = .ready →
      (∃ result ∈ session.results, key ∈ result.keys) →
      ∃ m s', Lts.Run step (fun _ _ ↦ True) s (List.replicate m (.scan c)) s' ∧
        s'.phase c = .ready ∧ key ∈ s'.dequeuedKeys c ∧
        ∃ result ∈ (s'.sessions c).results, key ∈ result.keys := by
    intro hk hp hr
    refine ⟨1, s₁, hstep, ?_, ?_, ?_⟩
    · rw [phase, hsession]
      exact hp
    · rw [dequeuedKeys, consumer, hsession]
      exact hk
    · rw [hsession]
      exact hr
  -- a loop that goes on has fewer keys before it
  have hgoes : ∀ {scan' : Scan} {next : Key}, scan.next = some next →
      session.phase = .scanning scan' → session.consumer.currentTx = some tx →
      scan'.next = s.queue.entries.higherKey next → s₁.OnTheWay c tx scan' key →
      ∃ m s', Lts.Run step (fun _ _ ↦ True) s (List.replicate m (.scan c)) s' ∧
        s'.phase c = .ready ∧ key ∈ s'.dequeuedKeys c ∧
        ∃ result ∈ (s'.sessions c).results, key ∈ result.keys := by
    intro scan' next hnext hp ht hnext' hway'
    have hlt : s₁.ahead scan' < s.ahead scan := by
      rw [ahead, ahead, hnext, hnext']
      simp only
      cases hh : s.queue.entries.higherKey next with
      | none => exact SortedMap.countFrom_pos (hpresent next hnext) (le_refl _)
      | some n =>
        show s₁.queue.entries.countFrom n < _
        rw [SortedMap.countFrom, hkeys₁]
        exact SortedMap.countFrom_lt (hpresent next hnext) (SortedMap.higherKey_eq_some hh).1
    obtain ⟨m, s', hrun, hres⟩ := ih _ hlt (s := s₁)
      (by rw [phase, hsession]; exact hp) (by rw [consumer, hsession]; exact ht)
      (fun n hn ↦ by
        rw [hnext'] at hn
        have hget := (SortedMap.higherKey_eq_some hn).2
        rw [← s₁.queue.entries.mem_keys, hkeys₁]
        exact s.queue.entries.mem_keys.mpr hget) hway' rfl
    refine ⟨m + 1, s', ?_, hres⟩
    rw [List.replicate_succ]
    exact hstep.append hrun
  cases hmove with
  | @finish scan' hscan hend =>
    obtain rfl := Phase.scanning.inj (hphase.symm.trans hscan)
    rcases hway with hmem | ⟨next, item, hnext, hle, hroom, -, -, hitem, -, -⟩
    · obtain ⟨h1, h2, h3⟩ := returned_of_mem (s.sessions c) hmem
      exact hdone h2 h1 h3
    · have hpos := SortedMap.countFrom_pos
        (show s.queue.entries.get key ≠ none from fun h ↦ by cases h.symm.trans hitem) hle
      rcases hend with hend | hend
      · cases hend.symm.trans hnext
      · omega
  | @stop tx' scan' next hat hread =>
    obtain rfl := Phase.scanning.inj (hphase.symm.trans hat.phase)
    obtain rfl := Option.some_inj.mp (htx.symm.trans hat.currentTx)
    rcases hway with hmem | ⟨next', item, hnext, hle, -, hsees, -, -, -, -⟩
    · obtain ⟨h1, h2, h3⟩ := returned_of_mem (s.moved c tx scan next) hmem
      exact hdone h2 h1 h3
    · obtain rfl := Option.some_inj.mp (hat.next.symm.trans hnext)
      have := Key.txId_mono hle
      omega
  | @skip tx' scan' next hat hread hin =>
    obtain rfl := Phase.scanning.inj (hphase.symm.trans hat.phase)
    obtain rfl := Option.some_inj.mp (htx.symm.trans hat.currentTx)
    refine hgoes hat.next rfl htx rfl ?_
    refine hway.advance hat.next (hpresent next hat.next) rfl rfl (.inl rfl) ?_ hkeys₁
      hitems₁ hconfig
    intro heq item _ _ hnot
    rw [heq, hin] at hnot
    cases hnot
  | @look tx' scan' next hlooks =>
    obtain rfl := Phase.scanning.inj (hphase.symm.trans hlooks.phase)
    obtain rfl := Option.some_inj.mp (htx.symm.trans hlooks.currentTx)
    obtain ⟨hnext', hkeys'⟩ := take_scan s.queue (s.config c) (s.advanced scan next) next
    refine hgoes hlooks.next rfl htx hnext' ?_
    refine hway.advance hlooks.next (hpresent next hlooks.next) hnext'
      (take_maxBatchSize _ _ _ _) hkeys' ?_ hkeys₁ hitems₁ hconfig
    intro heq item hitem _ _ hproc hent
    rw [← heq, take_of_entitled hitem hproc hent]
    exact List.mem_append_right _ (List.mem_singleton.mpr rfl)

/-! ## No entry is lost -/

/-- **No entry is lost through the start key.**  In every run in which the group of the consumer is
not resized, and in which no iteration of its loop moves the start key beyond the read pointer and
over a transaction that may still commit, or over an entry the consumer wants: every entry the
consumer has still to process is at or beyond its start key; and if the consumer is in a transaction
that sees the entry, a call of `dequeue` with a large enough batch returns it. -/
theorem startKey_le_of_due {groups : Groups} {as : List Action}
    (h : Lts.Run step (StartOk c) (init groups) as s) (hdue : s.Due c key) :
    (∀ start ∈ (s.consumer c).state.startKey, start ≤ key) ∧
      ∀ tx, s.phase c = .ready → (s.consumer c).currentTx = some tx →
        tx.isVisible key.txId = true →
        ∃ maxBatchSize m s', Lts.Run step (fun _ _ ↦ True) s
            (.dequeue c maxBatchSize :: List.replicate m (.scan c)) s' ∧
          s'.phase c = .ready ∧ key ∈ s'.dequeuedKeys c ∧
          ∃ result ∈ (s'.sessions c).results, key ∈ result.keys := by
  obtain ⟨hi, hf, hstart⟩ := startInv_run h
  have hw : s.Wanted c key := ⟨hdue.1, .inl hdue.2⟩
  refine ⟨fun start hs ↦ hstart.wanted start hs key hw, fun tx hready htx hvisible ↦ ?_⟩
  obtain ⟨hread, hin, -⟩ := Transaction.isVisible_iff.mp hvisible
  -- a batch for everything there is
  let n := s.queue.entries.keys.length
  let s₁ : State := s.setSession c { s.sessions c with
    phase := .scanning (s.queue.startScan (s.consumer c).state n) }
  have hstep : s.step (.dequeue c n) = some s₁ := if_pos hready
  have hsession : s₁.sessions c = { s.sessions c with
      phase := .scanning (s.queue.startScan (s.consumer c).state n) } := Function.update_self _ _ _
  have hrun : Lts.Run step (fun _ _ ↦ True) s [.dequeue c n] s₁ := .single trivial hstep
  have hstart₁ := startInv_step (a := .dequeue c n) hi hf trivial hstep hstart
  rw [hsession] at hstart₁
  have hw₁ : s₁.Wanted c key := hw
  obtain ⟨next, hnext, hle⟩ := hstart₁.scanning rfl rfl htx key hw₁ hvisible
  obtain ⟨⟨item, hitem, hent⟩, -⟩ := hdue.1
  have hproc := hdue.1.unprocessed hi hf
    ((hi.session c).has (.inl fun hp ↦ by cases hready.symm.trans hp))
    (fun hp ↦ by cases hready.symm.trans hp) hitem
  have hpresent : ∀ next ∈ (s.queue.startScan (s.consumer c).state n).next,
      s.queue.entries.get next ≠ none := by
    intro next hnext
    rw [InMemoryQueue.startScan] at hnext
    simp only at hnext
    split at hnext
    · exact s.queue.entries.mem_keys.mp (List.mem_of_mem_head? hnext)
    · exact (SortedMap.ceilingKey_eq_some hnext).2
  have hway : s₁.OnTheWay c tx (s.queue.startScan (s.consumer c).state n) key := by
    refine .inr ⟨next, item, hnext, hle, ?_, hread, ?_, hitem, hproc, hent⟩
    · show 0 + List.countP _ _ ≤ _
      rw [Nat.zero_add]
      exact List.countP_le_length
    · simpa [Transaction.isInProgress] using hin
  have hphase₁ : s₁.phase c = .scanning (s.queue.startScan (s.consumer c).state n) := by
    rw [phase, hsession]
  have htx₁ : (s₁.consumer c).currentTx = some tx := by
    rw [consumer, hsession]
    exact htx
  obtain ⟨m, s', hrun', hres⟩ := scan_returns hphase₁ htx₁ hpresent hway
  exact ⟨n, m, s', hrun.append hrun', hres⟩

/-- A consumer starts a transaction, and after it two producers do; the later one commits an entry.
The consumer calls `dequeue`, which finds nothing, and commits; then the earlier producer commits an
entry too. -/
def overtaken : List Action :=
  [.begin ⟨0, 1, [], [], noTxInProgress⟩ true [(0, 0)], .begin ⟨0, 2, [], [1], 1⟩ true [],
    .begin ⟨0, 3, [], [1, 2], 1⟩ true [], .enqueue 3 emptyEntry, .commit 3,
    .dequeue (0, 0) 1, .scan (0, 0), .commitTx (0, 0), .commit 1, .postTxCommit (0, 0),
    .enqueue 2 emptyEntry, .commit 2]

/-- **The entry of the earlier producer is before the start key.** -/
theorem exists_due_before_startKey : ∃ (as : List Action) (s : State) (key start : Key),
    Lts.Run step (fun _ _ ↦ True) (init (fifoGroup 1 (by decide))) as s ∧ s.Due (0, 0) key ∧
      (s.consumer (0, 0)).state.startKey = some start ∧ key < start := by
  obtain ⟨s, hrun, hdue, hstart⟩ := Lts.exists_run_of_exec step (fun _ _ ↦ True)
    (init (fifoGroup 1 (by decide))) overtaken
    (fun s ↦ s.Due (0, 0) ⟨2, 0⟩ ∧ (s.consumer (0, 0)).state.startKey = some (Key.mk 3 0))
    (by decide +kernel)
  exact ⟨_, s, ⟨2, 0⟩, ⟨3, 0⟩, hrun, hdue, hstart, by decide⟩

/-- A producer commits an entry and another one starts; the consumer takes the entry, and the other
producer commits its own. -/
def inOrder : List Action :=
  [.begin ⟨0, 1, [], [], noTxInProgress⟩ true [], .enqueue 1 emptyEntry, .commit 1,
    .begin ⟨1, 2, [], [], noTxInProgress⟩ true [], .begin ⟨1, 3, [], [2], 2⟩ true [(0, 0)]] ++
  dequeueOne (0, 0) ++ [.enqueue 2 emptyEntry, .commit 2]

theorem startKey_le_inOrder : ∃ s,
    Lts.Run step (StartOk (0, 0)) (init (fifoGroup 1 (by decide))) inOrder s ∧
      s.Due (0, 0) ⟨2, 0⟩ ∧ (s.consumer (0, 0)).state.startKey = some ⟨1, 0⟩ ∧
      ∀ start ∈ (s.consumer (0, 0)).state.startKey, start ≤ ⟨2, 0⟩ := by
  obtain ⟨s, hrun, hdue, hstart⟩ := Lts.exists_run_of_exec step (StartOk (0, 0))
    (init (fifoGroup 1 (by decide))) inOrder
    (fun s ↦ s.Due (0, 0) ⟨2, 0⟩ ∧ (s.consumer (0, 0)).state.startKey = some (Key.mk 1 0))
    (by decide +kernel)
  exact ⟨s, hrun, hdue, hstart, (startKey_le_of_due hrun hdue).1⟩

end Tigon.InMemory.State
