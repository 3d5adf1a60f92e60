import Tigon.InMemory.Invariant

/-!
# No entry is held twice

Within a group an entry is returned to one consumer only.  For ROUND_ROBIN and HASH that is so
because its hash decides who gets it, for FIFO because the consumer claims it first, and a claim is
given up only when the group is resized.

That is also where it fails.  `Item.claim` answers yes for an entry that was claimed by an instance
that is gone, but leaves the claim as it is, so the next consumer gets the same answer.  The
condition `TakeOk` keeps a run away from this: in a group of more than one instance, no loop meets
an entry claimed by an instance that is gone.  `GroupInv` is the invariant of such runs.
-/

set_option autoImplicit false

open Mvcc

namespace Tigon.InMemory.State

variable {s s' : State} {a : Action} {c : ConsumerId} {key : Key} {g i j : Nat} {tx : Transaction}

/-! ## The condition -/

/-- The entry the next iteration of a consumer's loop looks at. -/
def looksAt (s : State) (c : ConsumerId) : Option Item :=
  match s.phase c, (s.consumer c).currentTx with
  | .scanning scan, some tx =>
    match scan.next with
    | none => none
    | some key =>
      if scan.keys.length < scan.maxBatchSize ∧ key.txId ≤ tx.readPointer ∧
          tx.isInProgress key.txId = false then s.queue.item key
      else none
  | _, _ => none

theorem Looks.looksAt {scan : Scan} (h : s.Looks c tx scan key) :
    s.looksAt c = s.queue.item key := by
  rw [State.looksAt, h.phase, h.currentTx]
  simp only [h.next]
  exact if_pos ⟨h.room, h.read, h.notInProgress⟩

/-- The loop of a FIFO consumer does not meet an entry that was claimed by an instance that is
gone, unless there is only one instance. -/
def TakeOk (g : Nat) (s : State) : Action → Prop
  | .scan c => c.1 = g → (s.config c).dequeueStrategy = .fifo → 1 < (s.config c).groupSize →
      ∀ item ∈ s.looksAt c, ∀ st ∈ item.consumerStates g, st.state = .claimed →
        st.instanceId < (s.config c).groupSize
  | _ => True

instance (g : Nat) (s : State) (a : Action) : Decidable (TakeOk g s a) := by
  cases a <;> unfold TakeOk <;> infer_instance

/-! ## The invariant -/

/-- The entry is this consumer's: it has claimed it, it is alone, or the hash says so. -/
def Bound (config : ConsumerConfig) (key : Key) (item : Item) : Prop :=
  if config.dequeueStrategy = .fifo then
    ∃ st, item.consumerStates config.groupId = some st ∧
      (st.instanceId = config.instanceId ∨ config.groupSize = 1 ∧ st.state = .claimed)
  else Item.goesTo config key item.entry = true

/-- A committed transaction of the group has processed the entry. -/
def Processed (s : State) (g : Nat) (key : Key) : Prop := key ∈ (s.log g).map Prod.snd

instance (s : State) (g : Nat) (key : Key) : Decidable (s.Processed g key) :=
  inferInstanceAs (Decidable (_ ∈ _))

theorem Processed.step (hp : s.Processed g key) (h : s.step a = some s') : s'.Processed g key := by
  obtain ⟨p, hlog, rfl⟩ := List.mem_map.mp hp
  exact List.mem_map_of_mem ((frame_step h).log hlog)

/-- What holds for the consumers of one group. -/
structure GroupInv (s : State) (g : Nat) : Prop where
  exclusive : ∀ {i j key}, s.Had (g, i) key → s.Had (g, j) key → i = j
  bound : ∀ {i key item}, s.Had (g, i) key → s.queue.item key = some item →
    Bound (s.config (g, i)) key item
  marked : ∀ {i key item}, s.phase (g, i) = .persisted → key ∈ s.dequeuedKeys (g, i) →
    s.queue.item key = some item → item.consumerStates g = some ⟨i, .processed⟩
  logged : ∀ {i key item tx}, s.phase (g, i) = .persisted →
    (s.consumer (g, i)).currentTx = some tx →
    s.manager.statusOf tx.writePointer = some .committed → key ∈ s.dequeuedKeys (g, i) →
    s.queue.item key = some item → s.Processed g key

theorem groupInv_init (groups : Groups) : (init groups).GroupInv g where
  exclusive h := by simp [Had, init, Session.new] at h
  bound h := by simp [Had, init, Session.new] at h
  marked h := by cases h
  logged h := by cases h

theorem SessionInv.had (hi : s.SessionInv c (s.sessions c)) (h : key ∈ s.dequeuedKeys c) :
    s.Had c key :=
  .inl (hi.dequeued h)

theorem Had.used (hi : s.SessionInv c (s.sessions c)) (h : s.Had c key) :
    key.seqNo < s.enqueued key.txId := by
  rcases h with ⟨result, hr, hk⟩ | ⟨scan, hscan, hk⟩
  · exact hi.used result hr key hk
  · exact hi.taking hscan key hk

theorem Had.has (hi : s.SessionInv c (s.sessions c)) (h : s.Had c key) : s.groups.Has c := by
  rcases h with ⟨result, hr, -⟩ | ⟨scan, hscan, -⟩
  · exact hi.has (.inr (List.ne_nil_of_mem hr))
  · exact hi.has (.inl fun h ↦ by cases hscan.symm.trans h)

/-! ## How an entry is taken -/

/-- The loop takes the entry in this step. -/
def Takes (s : State) (a : Action) (c : ConsumerId) (key : Key) : Prop :=
  a = .scan c ∧ ∃ tx scan, s.Looks c tx scan key ∧
    (s.queue.take (s.config c) (s.advanced scan key) key).2.keys = scan.keys ++ [key]

/-- What a consumer has had after a step, it had before or takes in the step. -/
theorem had_step (h : s.step a = some s') (hhad : s'.Had c key) :
    s.Had c key ∨ s.Takes a c key := by
  have hof : ∀ {session : Session}, Move s c a session →
      ((∃ result ∈ session.results, key ∈ result.keys) ∨
        ∃ scan, session.phase = .scanning scan ∧ key ∈ scan.keys) →
      s.Had c key ∨ s.Takes a c key := by
    intro session hmove hhad
    -- a call of `dequeue` that returns moves keys from the loop to the results
    have hreturned : ∀ {scan : Scan}, s.phase c = .scanning scan →
        (∃ result ∈ (s.sessions c).results ++
          (if scan.keys = [] then [] else [⟨scan.keys, scan.datas⟩]), key ∈ result.keys) →
        s.Had c key := by
      rintro scan hscan ⟨result, hr, hk⟩
      rcases List.mem_append.mp hr with hr | hr
      · exact .inl ⟨result, hr, hk⟩
      · split at hr
        · simp at hr
        · obtain rfl := List.mem_singleton.mp hr
          exact .inr ⟨scan, hscan, hk⟩
    cases hmove with
    | begin =>
      rcases hhad with hr | ⟨scan, hscan, -⟩
      · exact .inl (.inl hr)
      · cases hscan
    | dequeue =>
      rcases hhad with hr | ⟨scan, hscan, hk⟩
      · exact .inl (.inl hr)
      · obtain rfl := Phase.scanning.inj hscan
        cases hk
    | finish hscan =>
      rcases hhad with hr | ⟨scan, h, -⟩
      · exact .inl (hreturned hscan hr)
      · cases h
    | stop hat =>
      rcases hhad with hr | ⟨scan, h, -⟩
      · exact .inl (hreturned hat.phase hr)
      · cases h
    | skip hat =>
      rcases hhad with hr | ⟨scan, hscan, hk⟩
      · exact .inl (.inl hr)
      · obtain rfl := Phase.scanning.inj hscan
        exact .inl (.inr ⟨_, hat.phase, hk⟩)
    | @look tx scan key' hlooks =>
      rcases hhad with hr | ⟨scan', hscan, hk⟩
      · exact .inl (.inl hr)
      · obtain rfl := Phase.scanning.inj hscan
        rcases (take_scan s.queue (s.config c) (s.advanced scan key') key').2 with hkeys | hkeys
        · rw [hkeys] at hk
          exact .inl (.inr ⟨_, hlooks.phase, hk⟩)
        · rw [hkeys] at hk
          rcases List.mem_append.mp hk with hk | hk
          · exact .inl (.inr ⟨_, hlooks.phase, hk⟩)
          · obtain rfl := List.mem_singleton.mp hk
            exact .inr ⟨rfl, tx, scan, hlooks, hkeys⟩
    | reclaim hready =>
      rcases hhad with hr | hscan
      · exact .inl (.inl hr)
      · exact .inl (.inr hscan)
    | commitTx =>
      rcases hhad with hr | ⟨scan, hscan, -⟩
      · exact .inl (.inl hr)
      · cases hscan
    | postTxCommit =>
      rcases hhad with hr | ⟨scan, hscan, -⟩
      · exact .inl (.inl hr)
      · cases hscan
    | rollbackTx =>
      rcases hhad with hr | ⟨scan, hscan, -⟩
      · exact .inl (.inl hr)
      · cases hscan
    | resize =>
      rcases hhad with ⟨result, hr, -⟩ | ⟨scan, hscan, -⟩
      · cases hr
      · cases hscan
  rcases session_step h c with heq | hmove
  · rw [Had, phase, heq] at hhad
    exact .inl hhad
  · exact hof hmove hhad

/-- What is unprocessed and has a state is claimed. -/
theorem claimed_of_unprocessed {item : Item} {st : ItemEntryState}
    (h : item.getConsumerState g ≠ some .processed) (hst : item.consumerStates g = some st) :
    st.state = .claimed := by
  rw [Item.getConsumerState, hst] at h
  cases hs : st.state with
  | claimed => rfl
  | processed => exact absurd (by simp [hs]) h

/-- **Who takes an entry, and how.**  The entry is there and unprocessed; for FIFO it is claimed
now, or was claimed by this consumer or by one that is gone; otherwise its hash says so. -/
theorem Takes.cases (h : s.Takes a c key) : ∃ item, s.queue.item key = some item ∧
    item.getConsumerState c.1 ≠ some .processed ∧
    (((s.config c).dequeueStrategy = .fifo ∧
      (item.consumerStates c.1 = none ∨ ∃ st, item.consumerStates c.1 = some st ∧
        st.state = .claimed ∧ ((s.config c).groupSize ≤ st.instanceId ∨ st.instanceId = c.2))) ∨
    ((s.config c).dequeueStrategy ≠ .fifo ∧ Item.goesTo (s.config c) key item.entry = true)) := by
  obtain ⟨-, tx, scan, hlooks, hkeys⟩ := h
  have hno : (s.advanced scan key).keys ≠ scan.keys ++ [key] := by
    show scan.keys ≠ scan.keys ++ [key]
    simp
  rcases InMemoryQueue.take_cases s.queue (s.config c) (s.advanced scan key) key with
    ⟨htake, -⟩ | ⟨item, hitem, hproc, hcase⟩
  · rw [htake] at hkeys
    exact absurd hkeys hno
  refine ⟨item, hitem, hproc, ?_⟩
  rcases hcase with ⟨hfifo, hnone, -⟩ | ⟨hfifo, ⟨st, hst, hmine⟩, -⟩ | ⟨-, -, htake⟩ |
    ⟨hfifo, hgoes, -⟩
  · exact .inl ⟨hfifo, .inl hnone⟩
  · exact .inl ⟨hfifo, .inr ⟨st, hst, claimed_of_unprocessed hproc hst, hmine⟩⟩
  · rw [htake] at hkeys
    exact absurd hkeys hno
  · exact .inr ⟨hfifo, hgoes⟩

/-- The loop that takes an entry is in a transaction. -/
theorem Takes.active (h : s.Takes a c key) : s.phase c ≠ .idle := by
  obtain ⟨-, tx, scan, hlooks, -⟩ := h
  exact fun hp ↦ by cases hlooks.phase.symm.trans hp

/-- The hash sends an entry to one instance only. -/
theorem goesTo_unique {entry : QueueEntry} (hi : s.groups.Has (g, i)) (hj : s.groups.Has (g, j))
    (h : Item.goesTo (s.config (g, i)) key entry = true)
    (h' : Item.goesTo (s.config (g, j)) key entry = true) : i = j := by
  have hi : i < (s.groups.config g).groupSize := hi.2
  have hj : j < (s.groups.config g).groupSize := hj.2
  have hsize : ∀ k, (s.config (g, k)).groupSize = (s.groups.config g).groupSize := fun _ ↦ rfl
  have hhash : Item.hashBy entryHashCode (s.config (g, i)) key entry =
      Item.hashBy entryHashCode (s.config (g, j)) key entry := rfl
  simp only [Item.goesTo, Item.goesToBy, Bool.or_eq_true, decide_eq_true_eq, hsize, hhash] at h h'
  rcases h with h | h
  · omega
  · rcases h' with h' | h'
    · omega
    · have heq : ((i : Nat) : Int) = (j : Nat) := h.symm.trans h'
      exact Int.natCast_inj.mp heq

/-- Nobody takes what another consumer of the group has had. -/
theorem Takes.eq_of_had (hi : s.Inv) (hg : s.GroupInv g) (htakes : s.Takes a (g, i) key)
    (hhad : s.Had (g, j) key) : i = j := by
  have hhas : s.groups.Has (g, i) := (hi.session (g, i)).has (.inl htakes.active)
  have hhas' : s.groups.Has (g, j) := hhad.has (hi.session (g, j))
  have hlt : i < (s.groups.config g).groupSize := hhas.2
  have hlt' : j < (s.groups.config g).groupSize := hhas'.2
  obtain ⟨item, hitem, -, hcase⟩ := htakes.cases
  have hbound := hg.bound hhad hitem
  rw [Bound] at hbound
  rcases hcase with ⟨hfifo, hcase⟩ | ⟨hfifo, hgoes⟩
  · rw [if_pos (show (s.config (g, j)).dequeueStrategy = .fifo from hfifo)] at hbound
    obtain ⟨st, hst, hown⟩ := hbound
    have hst : item.consumerStates g = some st := hst
    by_cases hone : (s.groups.config g).groupSize = 1
    · omega
    have hown : st.instanceId = j := hown.resolve_right fun h ↦ hone h.1
    rcases hcase with hnone | ⟨st', hst', hcl, hmine⟩
    · exact absurd (hst.symm.trans hnone) (by simp)
    · obtain rfl := Option.some_inj.mp (hst.symm.trans hst')
      rcases hmine with hgone | hmine
      · have hgone : (s.groups.config g).groupSize ≤ st.instanceId := hgone
        omega
      · have hmine : st.instanceId = i := hmine
        omega
  · rw [if_neg (show (s.config (g, j)).dequeueStrategy ≠ .fifo from hfifo)] at hbound
    exact goesTo_unique hhas hhas' hgoes hbound

/-! ## Preservation -/

/-- No step but a resize changes the size of a group. -/
theorem not_had_resize {n : Nat} (h : s.step (.resize g n) = some s') : ¬ s'.Had (g, i) key := by
  obtain ⟨hpos, rfl⟩ := resize_eq_some h
  simp [Had, phase, Session.new]

theorem exclusive_step (hi : s.Inv) (hg : s.GroupInv g) (h : s.step a = some s')
    (h1 : s'.Had (g, i) key) (h2 : s'.Had (g, j) key) : i = j := by
  rcases had_step h h1 with h1 | h1
  · rcases had_step h h2 with h2 | h2
    · exact hg.exclusive h1 h2
    · exact (h2.eq_of_had hi hg h1).symm
  · rcases had_step h h2 with h2 | h2
    · exact h1.eq_of_had hi hg h2
    · obtain ⟨rfl, -⟩ := h1
      obtain ⟨h2, -⟩ := h2
      exact (Prod.mk.inj (Action.scan.inj h2)).2

/-- An entry is the consumer's once it is taken. -/
theorem Takes.bound {item' : Item} (h : s.step a = some s') (hok : TakeOk g s a)
    (htakes : s.Takes a (g, i) key) (hitem' : s'.queue.item key = some item') :
    Bound (s.config (g, i)) key item' := by
  obtain ⟨rfl, tx, scan, hlooks, hkeys⟩ := htakes
  have hqueue := queue_of_looks h hlooks
  have hno : (s.advanced scan key).keys ≠ scan.keys ++ [key] := by
    show scan.keys ≠ scan.keys ++ [key]
    simp
  rw [hqueue] at hitem'
  rw [Bound]
  rcases InMemoryQueue.take_cases s.queue (s.config (g, i)) (s.advanced scan key) key with
    ⟨htake, -⟩ | ⟨item, hitem, hproc, ⟨hfifo, hnone, htake⟩ | ⟨hfifo, ⟨st, hst, hmine⟩, htake⟩ |
      ⟨-, -, htake⟩ | ⟨hfifo, hgoes, htake⟩⟩
  · rw [htake] at hkeys
    exact absurd hkeys hno
  · rw [htake] at hitem'
    have hput : (s.queue.entries.put key
        (item.setConsumerState (s.config (g, i)) .claimed)).get key = some item' := hitem'
    rw [SortedMap.get_put, if_pos rfl] at hput
    rw [if_pos hfifo, ← Option.some_inj.mp hput]
    exact ⟨⟨i, .claimed⟩, by simp [Item.setConsumerState, Item.putState, Groups.consumerConfig],
      .inl rfl⟩
  · rw [htake] at hitem'
    obtain rfl := Option.some_inj.mp (hitem.symm.trans hitem')
    rw [if_pos hfifo]
    have hcl := claimed_of_unprocessed hproc hst
    refine ⟨st, hst, hmine.symm.imp id fun hgone ↦ ⟨?_, hcl⟩⟩
    by_contra hsize
    have hpos : 0 < (s.config (g, i)).groupSize := (s.groups.config g).groupSize_pos
    have hlt := hok rfl hfifo (by omega) item (hlooks.looksAt.trans hitem) st hst hcl
    omega
  · rw [htake] at hkeys
    exact absurd hkeys hno
  · rw [htake] at hitem'
    obtain rfl := Option.some_inj.mp (hitem.symm.trans hitem')
    rw [if_neg hfifo]
    exact hgoes

/-- What is written on an entry a consumer has had, is written by this consumer. -/
theorem Writes.own {st : Option ItemEntryState} (hi : s.Inv) (hg : s.GroupInv g)
    (hw : Writes s key g a st) (hhad : s.Had (g, i) key) {item : Item}
    (hitem : s.queue.item key = some item) :
    (st = some ⟨i, .processed⟩ ∧ a = .commitTx (g, i)) ∨
      (st = some ⟨i, .claimed⟩ ∧ a = .rollbackTx (g, i)) ∨
      (st = none ∧ a = .rollbackTx (g, i) ∧ (s.config (g, i)).dequeueStrategy ≠ .fifo) := by
  cases hw with
  | claim hlooks hfifo hnone =>
    have hbound := hg.bound hhad hitem
    rw [Bound, if_pos (show (s.config (g, i)).dequeueStrategy = .fifo from hfifo)] at hbound
    obtain ⟨st, hst, -⟩ := hbound
    rw [InMemoryQueue.state_of_item hitem] at hnone
    exact absurd (hnone.symm.trans hst) (by simp)
  | @ack j hready hkey =>
    obtain rfl := hg.exclusive hhad ((hi.session (g, j)).had hkey)
    exact .inl ⟨rfl, rfl⟩
  | @revoke j hactive hkey hfifo =>
    obtain rfl := hg.exclusive hhad ((hi.session (g, j)).had hkey)
    exact .inr (.inl ⟨rfl, rfl⟩)
  | @remove j hactive hkey hfifo hcommitted =>
    obtain rfl := hg.exclusive hhad ((hi.session (g, j)).had hkey)
    exact .inr (.inr ⟨rfl, rfl, hfifo⟩)

/-- An entry a consumer has had is not enqueued again. -/
theorem Had.item_step {item' : Item} (hi : s.Inv) (hhad : s.Had c key) (h : s.step a = some s')
    (hitem' : s'.queue.item key = some item') :
    ∃ item, s.queue.item key = some item ∧ ItemStep s a key item item' := by
  rcases State.item_step h hitem' with ⟨entry, -, hseq, -⟩ | hitem
  · have hlt := hhad.used (hi.session c)
    omega
  · exact hitem

theorem bound_step {item' : Item} (hi : s.Inv) (hg : s.GroupInv g) (hok : TakeOk g s a)
    (h : s.step a = some s') (hhad : s'.Had (g, i) key)
    (hitem' : s'.queue.item key = some item') : Bound (s'.config (g, i)) key item' := by
  by_cases hresize : ∃ n, a = .resize g n
  · obtain ⟨n, rfl⟩ := hresize
    exact absurd hhad (not_had_resize h)
  rw [(config_step (c := (g, i)) h fun n hn ↦ hresize ⟨n, hn⟩).1]
  rcases had_step h hhad with hhad | htakes
  · obtain ⟨item, hitem, hstep⟩ := hhad.item_step hi h hitem'
    have hbound := hg.bound hhad hitem
    rw [Bound] at hbound ⊢
    split
    · rename_i hfifo
      rw [if_pos hfifo] at hbound
      rcases hstep.states g with heq | hw
      · obtain ⟨st, hst, hown⟩ := hbound
        exact ⟨st, heq.trans hst, hown⟩
      · rcases hw.own hi hg hhad hitem with ⟨hst, -⟩ | ⟨hst, -⟩ | ⟨-, -, hno⟩
        · exact ⟨_, hst, .inl rfl⟩
        · exact ⟨_, hst, .inl rfl⟩
        · exact absurd hfifo hno
    · rename_i hfifo
      rw [if_neg hfifo] at hbound
      rw [hstep.entry]
      exact hbound
  · exact htakes.bound h hok hitem'

theorem marked_step {item' : Item} (hi : s.Inv) (hg : s.GroupInv g) (h : s.step a = some s')
    (hphase : s'.phase (g, i) = .persisted) (hkey : key ∈ s'.dequeuedKeys (g, i))
    (hitem' : s'.queue.item key = some item') :
    item'.consumerStates g = some ⟨i, .processed⟩ := by
  rcases session_step h (g, i) with heq | hmove
  · rw [phase, heq] at hphase
    rw [dequeuedKeys, consumer, heq] at hkey
    have hhad := (hi.session (g, i)).had hkey
    obtain ⟨item, hitem, hstep⟩ := hhad.item_step hi h hitem'
    rcases hstep.states g with hst | hw
    · exact hst.trans (hg.marked hphase hkey hitem)
    · rcases hw.own hi hg hhad hitem with ⟨hst, -⟩ | ⟨-, rfl⟩ | ⟨-, rfl, -⟩
      · exact hst
      all_goals
        obtain ⟨tx, -, -, -, rfl⟩ := rollbackTx_eq_some h
        have hidle : Phase.idle = s.phase (g, i) := by
          simpa [setSession] using congrArg Session.phase heq
        cases hidle.trans hphase
  · generalize hs : s'.sessions (g, i) = session at hmove
    rw [phase, hs] at hphase
    rw [dequeuedKeys, consumer, hs] at hkey
    cases hmove with
    | commitTx hready =>
      obtain ⟨-, rfl⟩ := commitTx_eq_some h
      have hack : (s.queue.ack (s.dequeuedKeys (g, i)) (s.config (g, i))).item key =
        some item' := hitem'
      rw [InMemoryQueue.item_ack, if_pos hkey] at hack
      obtain ⟨item, -, rfl⟩ := Option.map_eq_some_iff.mp hack
      simp [Item.setConsumerState, Item.putState, Groups.consumerConfig]
    | reclaim hready => cases hready.symm.trans hphase
    | _ => cases hphase

theorem logged_step {item' : Item} (hi : s.Inv) (hg : s.GroupInv g) (h : s.step a = some s')
    (hphase : s'.phase (g, i) = .persisted) (htx : (s'.consumer (g, i)).currentTx = some tx)
    (hst : s'.manager.statusOf tx.writePointer = some .committed)
    (hkey : key ∈ s'.dequeuedKeys (g, i)) (hitem' : s'.queue.item key = some item') :
    s'.Processed g key := by
  rcases session_step h (g, i) with heq | hmove
  · rw [phase, heq] at hphase
    rw [consumer, heq] at htx
    rw [dequeuedKeys, consumer, heq] at hkey
    have hhad := (hi.session (g, i)).had hkey
    obtain ⟨item, hitem, -⟩ := hhad.item_step hi h hitem'
    rcases committed_of_step h hst with hst | rfl
    · exact (hg.logged hphase htx hst hkey hitem).step h
    · -- the commit enters the entry into the log
      obtain ⟨-, -, m, -, rfl⟩ := commit_eq_some h
      obtain ⟨tx', htx', -, hpart⟩ := (hi.session (g, i)).active fun hp ↦ by
        cases hphase.symm.trans hp
      obtain rfl := Option.some_inj.mp (htx.symm.trans htx')
      have hmarked : s.MarkedBy (g, i) key :=
        (InMemoryQueue.state_of_item hitem).trans (hg.marked hphase hkey hitem)
      refine List.mem_map.mpr ⟨(tx.writePointer, key), List.mem_append_right _ ?_, rfl⟩
      refine List.mem_flatMap.mpr ⟨(g, i), List.mem_filter.mpr ⟨hpart, by simp⟩, ?_⟩
      exact List.mem_map_of_mem (List.mem_filter.mpr ⟨hkey, by simpa using hmarked⟩)
  · generalize hs : s'.sessions (g, i) = session at hmove
    rw [phase, hs] at hphase
    rw [consumer, hs] at htx
    cases hmove with
    | commitTx hready =>
      have hne := (hi.session (g, i)).unpersisted (fun hp ↦ by cases hready.symm.trans hp)
        (fun hp ↦ by cases hready.symm.trans hp) htx
      obtain ⟨-, rfl⟩ := commitTx_eq_some h
      exact absurd hst hne
    | reclaim hready => cases hready.symm.trans hphase
    | _ => cases hphase

theorem groupInv_step (hi : s.Inv) (hg : s.GroupInv g) (hok : TakeOk g s a)
    (h : s.step a = some s') : s'.GroupInv g where
  exclusive := exclusive_step hi hg h
  bound := bound_step hi hg hok h
  marked := marked_step hi hg h
  logged := logged_step hi hg h

theorem groupInv_run {groups : Groups} {as : List Action}
    (h : Lts.Run step (TakeOk g) (init groups) as s) : s.Inv ∧ s.GroupInv g :=
  h.invariant (I := fun s ↦ s.Inv ∧ s.GroupInv g)
    (fun hi hok hstep ↦ ⟨inv_step hi.1 hstep, groupInv_step hi.1 hi.2 hok hstep⟩)
    ⟨inv_init groups, groupInv_init groups⟩

/-! ## Exclusivity -/

/-- The consumer holds the entry: it was returned or reclaimed in its present transaction, or the
loop of its `dequeue` has taken it. -/
def Holds (s : State) (c : ConsumerId) (key : Key) : Prop :=
  s.phase c ≠ .idle ∧ (key ∈ s.dequeuedKeys c ∨ key ∈ (s.sessions c).taken ∨
    ∃ scan, s.phase c = .scanning scan ∧ key ∈ scan.keys)

theorem Holds.had (hi : s.SessionInv c (s.sessions c)) (h : s.Holds c key) : s.Had c key := by
  rcases h.2 with h | h | h
  · exact .inl (hi.dequeued h)
  · exact .inl (hi.taken h)
  · exact .inr h

/-- **FIFO is exclusive.**  In every run in which no loop of the group meets an entry that was
claimed by an instance that is gone (unless the group has one instance), the group being resized
any number of times: no entry is held by two consumers of the group at a time; and when a consumer
rolls back, what another instance has processed stays processed. -/
theorem holds_exclusive {groups : Groups} {as : List Action}
    (hfifo : (groups.config g).dequeueStrategy = .fifo)
    (h : Lts.Run step (TakeOk g) (init groups) as s) :
    (∀ i j key, s.Holds (g, i) key → s.Holds (g, j) key → i = j) ∧
      ∀ i s', s.step (.rollbackTx (g, i)) = some s' → ∀ key j,
        s.queue.state g key = some ⟨j, .processed⟩ → j ≠ i →
        s'.queue.state g key = some ⟨j, .processed⟩ := by
  obtain ⟨hi, hg⟩ := groupInv_run h
  have hstrategy : (s.groups.config g).dequeueStrategy = .fifo := by
    refine h.invariant (I := fun s ↦ (s.groups.config g).dequeueStrategy = .fifo)
      (fun {s s' a} hs _ hstep ↦ ?_) hfifo
    rcases groups_step hstep with heq | ⟨g', n, hpos, -, heq⟩
    · rw [heq]
      exact hs
    · rw [heq]
      by_cases hg' : g = g'
      · subst hg'
        rw [Groups.strategy_resize]
        exact hs
      · rw [Groups.config_resize_of_ne hg']
        exact hs
  refine ⟨fun i j key h1 h2 ↦ hg.exclusive (h1.had (hi.session _)) (h2.had (hi.session _)),
    fun i s' hstep key j hst hne ↦ ?_⟩
  obtain ⟨item, hitem, hst⟩ := InMemoryQueue.item_of_state hst
  -- the consumer has never had the entry, so its rollback does not touch it
  have hnot : key ∉ s.dequeuedKeys (g, i) := by
    intro hkey
    have hbound := hg.bound ((hi.session (g, i)).had hkey) hitem
    rw [Bound, if_pos (show (s.config (g, i)).dequeueStrategy = .fifo from hstrategy)] at hbound
    obtain ⟨st, hst', hown⟩ := hbound
    obtain rfl := Option.some_inj.mp (hst.symm.trans hst')
    rcases hown with hown | ⟨-, hcl⟩
    · exact hne hown
    · cases hcl
  obtain ⟨tx, -, -, -, rfl⟩ := rollbackTx_eq_some hstep
  have hsame : InMemoryQueue.item (if (s.consumer (g, i)).committed = true ∨
      (s.config (g, i)).dequeueStrategy = .fifo then
        s.queue.undoDequeue (s.dequeuedKeys (g, i)) (s.config (g, i))
      else s.queue) key = some item := by
    split
    · rw [InMemoryQueue.item_undoDequeue, if_neg hnot]
      exact hitem
    · exact hitem
  exact (InMemoryQueue.state_of_item hsame).trans hst

/-- An empty entry. -/
def emptyEntry : QueueEntry := ⟨[], []⟩

/-- A call of `dequeue` for one entry, with nobody in between, when the first entry is taken. -/
def dequeueOne (c : ConsumerId) : List Action := [.dequeue c 1, .scan c, .scan c]

/-- A producer commits an entry; the last of three instances claims it and is rolled back; the group
is reduced to `n` instances, and the first of them dequeues the entry. -/
def takeOver (n : Nat) : List Action :=
  [.begin ⟨0, 1, [], [], noTxInProgress⟩ true [], .enqueue 1 emptyEntry, .commit 1,
    .begin ⟨1, 2, [], [], noTxInProgress⟩ true [(0, 2)]] ++ dequeueOne (0, 2) ++
  [.rollbackTx (0, 2), .abort 2, .resize 0 n,
    .begin ⟨2, 3, [], [], noTxInProgress⟩ true [(0, 0)]] ++ dequeueOne (0, 0)

/-- If one instance is left, it takes the entry over. -/
theorem holds_exclusive_takeOver : ∃ s,
    Lts.Run step (TakeOk 0) (init (fifoGroup 3 (by decide))) (takeOver 1) s ∧
      s.Holds (0, 0) ⟨1, 0⟩ ∧ ∀ j key, s.Holds (0, 0) key → s.Holds (0, j) key → 0 = j := by
  obtain ⟨s, hrun, hphase, hkey⟩ := Lts.exists_run_of_exec step (TakeOk 0)
    (init (fifoGroup 3 (by decide))) (takeOver 1)
    (fun s ↦ s.phase (0, 0) ≠ .idle ∧ (⟨1, 0⟩ : Key) ∈ s.dequeuedKeys (0, 0)) (by decide +kernel)
  exact ⟨s, hrun, ⟨hphase, .inl hkey⟩, (holds_exclusive rfl hrun).1 0⟩

/-- The second of two instances dequeues the entry while the first one holds it. -/
def takeTwice : List Action :=
  takeOver 2 ++ .begin ⟨3, 4, [], [3], 3⟩ true [(0, 1)] :: dequeueOne (0, 1)

/-- **If two instances are left, both get the entry.**  When one of them has committed, and the
other one rolls back, the entry is no longer processed. -/
theorem exists_holds_twice :
    (∃ (as : List Action) (s : State) (key : Key),
      Lts.Run step (fun _ _ ↦ True) (init (fifoGroup 3 (by decide))) as s ∧
        s.Holds (0, 0) key ∧ s.Holds (0, 1) key) ∧
    ∃ (as : List Action) (s s' : State) (key : Key),
      Lts.Run step (fun _ _ ↦ True) (init (fifoGroup 3 (by decide))) as s ∧
        (∃ w, (w, key) ∈ s.log 0) ∧ s.queue.state 0 key = some ⟨0, .processed⟩ ∧
        s.step (.rollbackTx (0, 1)) = some s' ∧ s'.queue.state 0 key = some ⟨1, .claimed⟩ := by
  constructor
  · obtain ⟨s, hrun, ⟨hphase, hkey⟩, hphase', hkey'⟩ :=
      Lts.exists_run_of_exec step (fun _ _ ↦ True) (init (fifoGroup 3 (by decide))) takeTwice
        (fun s ↦ (s.phase (0, 0) ≠ .idle ∧ (⟨1, 0⟩ : Key) ∈ s.dequeuedKeys (0, 0)) ∧
          s.phase (0, 1) ≠ .idle ∧ (⟨1, 0⟩ : Key) ∈ s.dequeuedKeys (0, 1)) (by decide +kernel)
    exact ⟨_, s, ⟨1, 0⟩, hrun, ⟨hphase, .inl hkey⟩, hphase', .inl hkey'⟩
  · obtain ⟨s, hrun, hlog, hst, hsome, hafter⟩ :=
      Lts.exists_run_of_exec step (fun _ _ ↦ True) (init (fifoGroup 3 (by decide)))
        (takeTwice ++ [.commitTx (0, 0), .commit 3])
        (fun s ↦ ((3, ⟨1, 0⟩) : Nat × Key) ∈ s.log 0 ∧
          s.queue.state 0 ⟨1, 0⟩ = some ⟨0, .processed⟩ ∧
          (s.step (.rollbackTx (0, 1))).isSome = true ∧
          ∀ s' ∈ s.step (.rollbackTx (0, 1)), s'.queue.state 0 ⟨1, 0⟩ = some ⟨1, .claimed⟩)
        (by decide +kernel)
    obtain ⟨s', hs'⟩ := Option.isSome_iff_exists.mp hsome
    exact ⟨_, s, s', ⟨1, 0⟩, hrun, ⟨3, hlog⟩, hst, hs', hafter s' hs'⟩

end Tigon.InMemory.State
