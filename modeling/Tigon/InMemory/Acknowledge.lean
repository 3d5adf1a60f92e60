import Tigon.InMemory.Exclusive

/-!
# Acknowledgement and eviction

A consumer acknowledges the keys in `dequeuedKeys` when it commits, and an entry is evicted when it
was counted as often as there are groups.  Both are right as long as `dequeuedKeys` is the set of
the entries returned or reclaimed in the transaction, and no group counts an entry twice.  The
source does not see to that:

* a second `dequeue` of a transaction overwrites what the first one left;
* `reclaim` adds keys that may be there already, and the entry is counted once for each;
* nothing keeps a result from being reclaimed after its entries were processed;
* a second `reclaim` of a transaction throws, if the first one found no list to add to;
* the entries of a transaction that was given up are returned until its producer takes them back.

`AckOk` is the condition that none of this happens, on top of the condition of
`Tigon.InMemory.Exclusive`.
-/

set_option autoImplicit false

open Mvcc

namespace Tigon.InMemory.State

variable {s s' : State} {a : Action} {c : ConsumerId} {key : Key} {g i j w : Nat}
  {tx : Transaction} {item : Item}

/-! ## The condition -/

/-- The loop a consumer is in. -/
def loop (s : State) (c : ConsumerId) : Option Scan :=
  match s.phase c with
  | .scanning scan => some scan
  | _ => none

theorem loop_eq_some {scan : Scan} : s.loop c = some scan ↔ s.phase c = .scanning scan := by
  rw [loop]
  cases s.phase c <;> simp

/-- The consumer will acknowledge the entry if it commits now, or its loop has taken it. -/
def InHand (s : State) (c : ConsumerId) (key : Key) : Prop :=
  s.phase c ≠ .idle ∧ (key ∈ s.dequeuedKeys c ∨
    ∃ scan, s.phase c = .scanning scan ∧ key ∈ scan.keys)

instance (s : State) (c : ConsumerId) (key : Key) : Decidable (s.InHand c key) :=
  decidable_of_iff (s.phase c ≠ .idle ∧ (key ∈ s.dequeuedKeys c ∨
      (s.loop c).any (fun scan ↦ key ∈ scan.keys) = true)) <| by
    rw [InHand]
    simp only [← loop_eq_some]
    cases s.loop c <;> simp

/-- The call of `dequeue` returns in the next iteration of its loop. -/
def Ends (tx : Transaction) (scan : Scan) : Prop :=
  scan.maxBatchSize ≤ scan.keys.length ∨ ∀ key ∈ scan.next, tx.readPointer < key.txId

instance (tx : Transaction) (scan : Scan) : Decidable (Ends tx scan) :=
  inferInstanceAs (Decidable (_ ∨ _))

/-- A call of `dequeue` that returns entries returns all that were in `dequeuedKeys`; a result is
reclaimed only if its entries are there, unprocessed and not in `dequeuedKeys` already, and
`dequeuedKeys` was not left by another `reclaim`; and a producer takes back no entry that a consumer
has in hand. -/
def AckOk (s : State) : Action → Prop
  | .scan c => TakeOk c.1 s (.scan c) ∧ ∀ tx ∈ (s.consumer c).currentTx, ∀ scan ∈ s.loop c,
      Ends tx scan → scan.keys ≠ [] → ∀ key ∈ s.dequeuedKeys c, key ∈ scan.keys
  | .reclaim c result =>
      ((s.consumer c).dequeuedKeys.reclaim result.keys).isSome = true ∧
        ∀ key ∈ result.keys, key ∉ s.dequeuedKeys c ∧
          (s.queue.item key).any (fun item ↦ item.getConsumerState c.1 ≠ some .processed) = true
  | .undoEnqueue w => ∀ c ∈ s.groups.consumers, ∀ key ∈ s.queue.entries.keys,
      key.txId = w → ¬ s.InHand c key
  | _ => True

instance (s : State) : (a : Action) → Decidable (AckOk s a)
  | .scan _ => inferInstanceAs (Decidable (_ ∧ _))
  | .reclaim _ _ => inferInstanceAs (Decidable (_ ∧ _))
  | .undoEnqueue _ => inferInstanceAs (Decidable (∀ c ∈ _, _))
  | .begin _ _ _ | .enqueue _ _ | .dequeue _ _ | .commitTx _ | .commit _ | .postTxCommit _
  | .rollbackTx _ | .abort _ | .invalidate _ | .resize _ _ => inferInstanceAs (Decidable True)

theorem AckOk.takeOk (h : AckOk s a) : TakeOk g s a := by
  cases a with
  | scan c =>
    rintro rfl
    exact h.1 rfl
  | _ => exact trivial

/-! ## What a consumer has in hand -/

theorem InHand.had (hi : s.SessionInv c (s.sessions c)) (h : s.InHand c key) : s.Had c key := by
  rcases h.2 with h | h
  · exact .inl (hi.dequeued h)
  · exact .inr h

/-- What a consumer has in hand after a step, it had before, or takes or reclaims in the step. -/
theorem inHand_step (h : s.step a = some s') (hhand : s'.InHand c key) :
    s.InHand c key ∨ s.Takes a c key ∨ ∃ result, a = .reclaim c result ∧ key ∈ result.keys := by
  have hof : ∀ {session : Session}, Move s c a session → session.phase ≠ .idle →
      (key ∈ session.consumer.dequeuedKeys.keys ∨
        ∃ scan, session.phase = .scanning scan ∧ key ∈ scan.keys) →
      s.InHand c key ∨ s.Takes a c key ∨ ∃ result, a = .reclaim c result ∧ key ∈ result.keys := by
    intro session hmove hactive hhand
    have hreturned : ∀ {consumer : Consumer} {scan : Scan}, s.phase c = .scanning scan →
        key ∈ (consumer.dequeued scan.keys).dequeuedKeys.keys →
        consumer.dequeuedKeys = (s.consumer c).dequeuedKeys → s.InHand c key := by
      intro consumer scan hscan hkey heq
      refine ⟨(fun hp ↦ by cases hscan.symm.trans hp), ?_⟩
      rw [Consumer.dequeued] at hkey
      split at hkey
      · rw [heq] at hkey
        exact .inl hkey
      · exact .inr ⟨scan, hscan, hkey⟩
    cases hmove with
    | begin =>
      rcases hhand with hk | ⟨scan, hscan, -⟩
      · cases hk
      · cases hscan
    | dequeue hready =>
      rcases hhand with hk | ⟨scan, hscan, hk⟩
      · exact .inl ⟨(fun hp ↦ by cases hready.symm.trans hp), .inl hk⟩
      · obtain rfl := Phase.scanning.inj hscan
        cases hk
    | finish hscan =>
      rcases hhand with hk | ⟨scan, h, -⟩
      · exact .inl (hreturned hscan hk rfl)
      · cases h
    | stop hat =>
      rcases hhand with hk | ⟨scan, h, -⟩
      · exact .inl (hreturned hat.phase hk rfl)
      · cases h
    | skip hat =>
      refine .inl ⟨(fun hp ↦ by cases hat.phase.symm.trans hp), ?_⟩
      rcases hhand with hk | ⟨scan, hscan, hk⟩
      · exact .inl hk
      · obtain rfl := Phase.scanning.inj hscan
        exact .inr ⟨_, hat.phase, hk⟩
    | @look tx scan key' hlooks =>
      have hactive : s.phase c ≠ .idle := fun hp ↦ by cases hlooks.phase.symm.trans hp
      rcases hhand with hk | ⟨scan', hscan, hk⟩
      · exact .inl ⟨hactive, .inl hk⟩
      · obtain rfl := Phase.scanning.inj hscan
        rcases (take_scan s.queue (s.config c) (s.advanced scan key') key').2 with hkeys | hkeys
        · rw [hkeys] at hk
          exact .inl ⟨hactive, .inr ⟨_, hlooks.phase, hk⟩⟩
        · rw [hkeys] at hk
          rcases List.mem_append.mp hk with hk | hk
          · exact .inl ⟨hactive, .inr ⟨_, hlooks.phase, hk⟩⟩
          · obtain rfl := List.mem_singleton.mp hk
            exact .inr (.inl ⟨rfl, tx, scan, hlooks, hkeys⟩)
    | @reclaim result hready =>
      have hactive : s.phase c ≠ .idle := fun hp ↦ by cases hready.symm.trans hp
      rcases hhand with hk | ⟨scan, hscan, -⟩
      · simp only at hk
        cases hdk : (s.consumer c).dequeuedKeys with
        | null =>
          rw [hdk] at hk
          exact .inr (.inr ⟨result, rfl, hk⟩)
        | arrayList keys =>
          rw [hdk] at hk
          rcases List.mem_append.mp hk with hk | hk
          · refine .inl ⟨hactive, .inl ?_⟩
            rw [dequeuedKeys, hdk]
            exact hk
          · exact .inr (.inr ⟨result, rfl, hk⟩)
        | immutableList keys =>
          rw [hdk] at hk
          refine .inl ⟨hactive, .inl ?_⟩
          rw [dequeuedKeys, hdk]
          exact hk
      · cases hready.symm.trans hscan
    | commitTx hready =>
      rcases hhand with hk | ⟨scan, hscan, -⟩
      · exact .inl ⟨(fun hp ↦ by cases hready.symm.trans hp), .inl hk⟩
      · cases hscan
    | postTxCommit => exact absurd rfl hactive
    | rollbackTx => exact absurd rfl hactive
    | resize => exact absurd rfl hactive
  rcases session_step h c with heq | hmove
  · rw [InHand, phase, dequeuedKeys, consumer, heq] at hhand
    exact .inl hhand
  · exact hof hmove hhand.1 hhand.2

/-- Only a loop and a call of `reclaim` put an entry into the hands of a consumer. -/
theorem inHand_of_step (h : s.step a = some s') (hscan : ∀ c, a ≠ .scan c)
    (hreclaim : ∀ c result, a ≠ .reclaim c result) (hhand : s'.InHand c key) :
    s.InHand c key := by
  rcases inHand_step h hhand with hhand | ⟨h, -⟩ | ⟨result, h, -⟩
  · exact hhand
  · exact absurd h (hscan c)
  · exact absurd h (hreclaim c result)

/-- An entry goes only when its producer takes it back, or when it is evicted. -/
theorem item_kept (h : s.step a = some s') (hitem : s.queue.item key = some item) :
    s'.queue.item key ≠ none ∨ a = .undoEnqueue key.txId ∨
      ∃ c, a = .postTxCommit c ∧ key ∈ s.dequeuedKeys c ∧
        s.numGroups ≤ item.processedCount + (s.dequeuedKeys c).count key := by
  have hsome : ∀ {o : Option Item} {item : Item}, o = some item → o ≠ none := by
    rintro o item rfl
    simp
  have hsame : s'.queue = s.queue → s'.queue.item key ≠ none := fun heq ↦ by
    rw [heq]
    exact hsome hitem
  cases a with
  | undoEnqueue w =>
    obtain ⟨-, rfl⟩ := undoEnqueue_eq_some h
    by_cases hw : key.txId = w
    · exact .inr (.inl (by rw [hw]))
    · refine .inl ?_
      rw [InMemoryQueue.item_undoEnqueue, if_neg fun h ↦ hw h.1]
      exact hsome hitem
  | postTxCommit c =>
    obtain ⟨tx, -, -, -, rfl⟩ := postTxCommit_eq_some h
    rcases Nat.eq_zero_or_pos s.numGroups with hzero | hpos
    · refine .inl ?_
      show (s.queue.evict (s.dequeuedKeys c) s.numGroups).item key ≠ none
      rw [InMemoryQueue.evict, if_pos (by omega)]
      exact hsome hitem
    by_cases hcount : (s.dequeuedKeys c).count key = 0
    · refine .inl ?_
      show (s.queue.evict (s.dequeuedKeys c) s.numGroups).item key ≠ none
      rw [InMemoryQueue.item_evict hpos, hitem, Option.bind_some, if_pos hcount]
      simp
    by_cases hevict : s.numGroups ≤ item.processedCount + (s.dequeuedKeys c).count key
    · exact .inr (.inr ⟨c, rfl, List.count_pos_iff.mp (by omega), hevict⟩)
    · refine .inl ?_
      show (s.queue.evict (s.dequeuedKeys c) s.numGroups).item key ≠ none
      rw [InMemoryQueue.item_evict hpos, hitem, Option.bind_some, if_neg hcount, if_neg hevict]
      simp
  | begin tx short participants =>
    obtain ⟨-, -, -, m, -, rfl⟩ := begin_eq_some h
    exact .inl (hsame rfl)
  | enqueue w entry =>
    obtain ⟨-, rfl⟩ := enqueue_eq_some h
    refine .inl ?_
    rw [InMemoryQueue.item_enqueue]
    split
    · simp
    · exact hsome hitem
  | dequeue c n =>
    obtain ⟨-, rfl⟩ := dequeue_eq_some h
    exact .inl (hsame rfl)
  | scan c =>
    obtain ⟨session, -, -, hqueue⟩ := scan_cases h
    rcases hqueue with heq | ⟨tx, scan, key', hlooks, heq⟩
    · exact .inl (hsame heq)
    refine .inl ?_
    rw [heq]
    rcases InMemoryQueue.take_cases s.queue (s.config c) (s.advanced scan key') key' with
      ⟨htake, -⟩ | ⟨item', hitem', -, ⟨-, -, htake⟩ | ⟨-, -, htake⟩ | ⟨-, -, htake⟩ |
        ⟨-, -, htake⟩⟩
    · rw [htake]
      exact hsome hitem
    · rw [htake]
      show SortedMap.get (SortedMap.put _ _ _) key ≠ none
      rw [SortedMap.get_put]
      split
      · simp
      · exact hsome hitem
    all_goals
      rw [htake]
      exact hsome hitem
  | reclaim c result =>
    obtain ⟨-, -, rfl⟩ := reclaim_eq_some h
    exact .inl (hsame rfl)
  | commitTx c =>
    obtain ⟨-, rfl⟩ := commitTx_eq_some h
    refine .inl ?_
    show (s.queue.ack (s.dequeuedKeys c) (s.config c)).item key ≠ none
    rw [InMemoryQueue.item_ack, hitem]
    split <;> simp
  | commit w =>
    obtain ⟨-, -, m, -, rfl⟩ := commit_eq_some h
    exact .inl (hsame rfl)
  | rollbackTx c =>
    obtain ⟨tx, -, -, -, rfl⟩ := rollbackTx_eq_some h
    refine .inl ?_
    simp only
    split
    · rw [InMemoryQueue.item_undoDequeue, hitem]
      split <;> simp
    · exact hsome hitem
  | abort w =>
    obtain ⟨m, -, rfl⟩ := abort_eq_some h
    exact .inl (hsame rfl)
  | invalidate w =>
    obtain ⟨m, -, rfl⟩ := invalidate_eq_some h
    exact .inl (hsame rfl)
  | resize g n =>
    obtain ⟨hpos, rfl⟩ := resize_eq_some h
    exact .inl (hsame rfl)

/-! ## The invariant -/

/-- The groups that have counted an entry: they have processed it, and have it in hand no more. -/
def Counted (s : State) (key : Key) (item : Item) (g : Nat) : Prop :=
  g ∈ s.groups.ids ∧ s.Processed g key ∧ item.getConsumerState g = some .processed ∧
    ∀ i, ¬ s.InHand (g, i) key

/-- What holds in every run that meets the condition. -/
structure AckInv (s : State) : Prop where
  inv : s.Inv
  group : ∀ g, s.GroupInv g
  /-- What is in hand is in the queue. -/
  present : ∀ {c key}, s.InHand c key → s.queue.item key ≠ none
  /-- A consumer acknowledges what was returned or reclaimed in its transaction, once. -/
  taken : ∀ {c}, s.phase c ≠ .idle →
    (s.dequeuedKeys c).Nodup ∧ ∀ key, key ∈ (s.sessions c).taken ↔ key ∈ s.dequeuedKeys c
  /-- No group counts twice. -/
  counted : ∀ {key item}, s.queue.item key = some item →
    ∃ gs : List Nat, gs.Nodup ∧ gs.length = item.processedCount ∧ ∀ g ∈ gs, s.Counted key item g

theorem ackInv_init (groups : Groups) : (init groups).AckInv where
  inv := inv_init groups
  group _ := groupInv_init groups
  present h := absurd rfl h.1
  taken h := absurd rfl h
  counted h := by cases h

theorem ids_step (h : s.step a = some s') : s'.groups.ids = s.groups.ids := by
  rcases groups_step h with heq | ⟨g, n, hpos, -, heq⟩
  · rw [heq]
  · rw [heq]
    rfl

/-- Reclaiming adds the keys of the result. -/
theorem keys_reclaim {dequeuedKeys : DequeuedKeys} {keys : List Key}
    (h : (dequeuedKeys.reclaim keys).isSome = true) :
    ((dequeuedKeys.reclaim keys).getD dequeuedKeys).keys = dequeuedKeys.keys ++ keys := by
  cases dequeuedKeys with
  | null => rfl
  | arrayList ks => rfl
  | immutableList ks => cases h

theorem taken_step (hi : s.AckInv) (hok : AckOk s a) (h : s.step a = some s')
    (hactive : s'.phase c ≠ .idle) :
    (s'.dequeuedKeys c).Nodup ∧
      ∀ key, key ∈ (s'.sessions c).taken ↔ key ∈ s'.dequeuedKeys c := by
  have hreturned : a = .scan c → ∀ {tx : Transaction} {session : Session} {scan : Scan},
      (s.consumer c).currentTx = some tx → s.phase c = .scanning scan → Ends tx scan →
      session.consumer.dequeuedKeys = (s.consumer c).dequeuedKeys →
      session.taken = (s.sessions c).taken →
      (returned session scan).consumer.dequeuedKeys.keys.Nodup ∧
        ∀ key, key ∈ (returned session scan).taken ↔
          key ∈ (returned session scan).consumer.dequeuedKeys.keys := by
    rintro rfl tx session scan htx hscan hends hdk htaken
    have hold := hi.taken (c := c) fun hp ↦ by cases hscan.symm.trans hp
    rw [returned, Consumer.dequeued]
    split
    · rename_i hnil
      rw [hdk, htaken, hnil]
      exact ⟨hold.1, fun key ↦ by simpa using hold.2 key⟩
    · rename_i hne
      have hsub := hok.2 tx htx scan (loop_eq_some.mpr hscan) hends hne
      have hsorted := ((hi.inv.session c).scanned hscan).1
      refine ⟨hsorted.imp ne_of_lt, fun key ↦ ?_⟩
      rw [htaken, List.mem_append, hold.2 key]
      exact ⟨fun h ↦ h.elim (hsub key) id, .inr⟩
  rcases session_step h c with heq | hmove
  · rw [phase, heq] at hactive
    rw [dequeuedKeys, consumer, heq]
    exact hi.taken hactive
  rw [phase] at hactive
  rw [dequeuedKeys, consumer]
  generalize s'.sessions c = session at hmove hactive
  cases hmove with
  | begin => exact ⟨List.nodup_nil, fun _ ↦ Iff.rfl⟩
  | dequeue hready => exact hi.taken fun hp ↦ by cases hready.symm.trans hp
  | @finish scan hscan hend =>
    obtain ⟨tx, htx, -⟩ := (hi.inv.session c).active fun hp ↦ by cases hscan.symm.trans hp
    refine hreturned rfl htx hscan (hend.symm.imp id fun hnone key hkey ↦ ?_) rfl rfl
    cases hnone.symm.trans hkey
  | @stop tx scan key hat hread =>
    refine hreturned rfl hat.currentTx hat.phase (.inr fun key' hkey' ↦ ?_) rfl rfl
    obtain rfl := Option.some_inj.mp (hat.next.symm.trans hkey')
    exact hread
  | skip hat => exact hi.taken fun hp ↦ by cases hat.phase.symm.trans hp
  | look hlooks => exact hi.taken fun hp ↦ by cases hlooks.phase.symm.trans hp
  | @reclaim result hready hresult =>
    obtain ⟨hnodup, hold⟩ := hi.taken (c := c) fun hp ↦ by cases hready.symm.trans hp
    simp only
    rw [keys_reclaim hok.1]
    refine ⟨List.nodup_append.mpr ⟨hnodup, ?_, fun k hk k' hk' heq ↦ ?_⟩, fun key ↦ ?_⟩
    · exact ((hi.inv.session c).results result hresult).imp ne_of_lt
    · exact (hok.2 k' hk').1 (heq ▸ hk)
    · rw [List.mem_append, List.mem_append, hold key]
  | commitTx hready => exact hi.taken fun hp ↦ by cases hready.symm.trans hp
  | postTxCommit => exact absurd rfl hactive
  | rollbackTx => exact absurd rfl hactive
  | resize => exact absurd rfl hactive

/-- What is taken or reclaimed is unprocessed. -/
theorem inHand_new (hok : AckOk s a) (hitem : s.queue.item key = some item)
    (h : s.Takes a c key ∨ ∃ result, a = .reclaim c result ∧ key ∈ result.keys) :
    item.getConsumerState c.1 ≠ some .processed := by
  rcases h with htakes | ⟨result, rfl, hkey⟩
  · obtain ⟨item', hitem', hproc, -⟩ := htakes.cases
    obtain rfl := Option.some_inj.mp (hitem.symm.trans hitem')
    exact hproc
  · have hany := (hok.2 key hkey).2
    rw [hitem] at hany
    simpa using hany

/-- What a group has counted stays counted. -/
theorem Counted.step {item' : Item} (hok : AckOk s a) (h : s.step a = some s')
    (hitem : s.queue.item key = some item) (hstep : ItemStep s a key item item')
    (hc : s.Counted key item g) : s'.Counted key item' g := by
  obtain ⟨hids, hproc, hst, hnot⟩ := hc
  refine ⟨by rw [ids_step h]; exact hids, hproc.step h, ?_, fun i hhand ↦ ?_⟩
  · rcases hstep.states g with heq | hw
    · rw [Item.getConsumerState, heq]
      exact hst
    · obtain ⟨st, hst, -⟩ := Option.map_eq_some_iff.mp hst
      generalize item'.consumerStates g = st' at hw
      cases hw with
      | claim _ _ hnone =>
        rw [InMemoryQueue.state_of_item hitem, hst] at hnone
        cases hnone
      | ack hready hkey =>
        exact absurd ⟨(fun hp ↦ by cases hready.symm.trans hp), .inl hkey⟩ (hnot _)
      | revoke hactive hkey => exact absurd ⟨hactive, .inl hkey⟩ (hnot _)
      | remove hactive hkey => exact absurd ⟨hactive, .inl hkey⟩ (hnot _)
  · rcases inHand_step h hhand with hhand | hnew
    · exact hnot i hhand
    · exact inHand_new hok hitem hnew hst

/-- The group of a consumer that has an entry in hand has not counted it. -/
theorem Counted.ne_of_inHand (hc : s.Counted key item g) (hhand : s.InHand c key) : c.1 ≠ g := by
  rintro rfl
  exact hc.2.2.2 c.2 hhand

/-- A consumer that has committed and is about to evict completes the count of its group. -/
theorem counted_evict {item' : Item} (hi : s.AckInv)
    (h : s.step (.postTxCommit c) = some s') (hitem : s.queue.item key = some item)
    (hstep : ItemStep s (.postTxCommit c) key item item') (hkey : key ∈ s.dequeuedKeys c) :
    s'.Counted key item' c.1 := by
  obtain ⟨tx, hpersisted, htx, hcommitted, hs'⟩ := postTxCommit_eq_some h
  have hactive : s.phase c ≠ .idle := fun hp ↦ by cases hpersisted.symm.trans hp
  refine ⟨?_, ?_, ?_, fun i hhand ↦ ?_⟩
  · rw [ids_step h]
    exact ((hi.inv.session c).has (.inl hactive)).1
  · exact ((hi.group c.1).logged hpersisted htx hcommitted hkey hitem).step h
  · have hmarked := (hi.group c.1).marked hpersisted hkey hitem
    rcases hstep.states c.1 with heq | hw
    · rw [Item.getConsumerState, heq, hmarked]
      rfl
    · generalize item'.consumerStates c.1 = st' at hw
      cases hw
  · have hhand' := inHand_of_step h (by simp) (by simp) hhand
    have hi' := (hi.group c.1).exclusive (hhand'.had (hi.inv.session _))
      ((hi.inv.session c).had hkey)
    subst hi'
    refine hhand.1 ?_
    rw [hs']
    simp [phase, setSession]

/-- The groups that count an entry are among the groups of the queue. -/
theorem length_le_numGroups {gs : List Nat} (hnodup : gs.Nodup)
    (hsub : ∀ g ∈ gs, g ∈ s.groups.ids) : gs.length ≤ s.numGroups :=
  (hnodup.subperm hsub).length_le

/-- The groups that have counted an entry when a consumer evicts it. -/
theorem exists_counted (hi : s.AckInv) (hitem : s.queue.item key = some item)
    (hpersisted : s.phase c = .persisted) (htx : (s.consumer c).currentTx = some tx)
    (hcommitted : s.manager.statusOf tx.writePointer = some .committed)
    (hkey : key ∈ s.dequeuedKeys c) :
    (s.dequeuedKeys c).count key = 1 ∧ ∃ gs : List Nat, (c.1 :: gs).Nodup ∧
      gs.length = item.processedCount ∧ (∀ g ∈ gs, s.Counted key item g) ∧
      ∀ g ∈ c.1 :: gs, g ∈ s.groups.ids ∧ s.Processed g key := by
  have hactive : s.phase c ≠ .idle := fun hp ↦ by cases hpersisted.symm.trans hp
  obtain ⟨gs, hnodup, hlen, hcounted⟩ := hi.counted hitem
  refine ⟨List.count_eq_one_of_mem (hi.taken hactive).1 hkey, gs,
    List.nodup_cons.mpr ⟨fun hmem ↦ ?_, hnodup⟩, hlen, hcounted, fun g hg ↦ ?_⟩
  · exact (hcounted _ hmem).ne_of_inHand ⟨hactive, .inl hkey⟩ rfl
  · rcases List.mem_cons.mp hg with rfl | hg
    · exact ⟨((hi.inv.session c).has (.inl hactive)).1,
        (hi.group c.1).logged hpersisted htx hcommitted hkey hitem⟩
    · exact ⟨(hcounted g hg).1, (hcounted g hg).2.1⟩

theorem present_step (hi : s.AckInv) (hok : AckOk s a) (h : s.step a = some s')
    (hhand : s'.InHand c key) : s'.queue.item key ≠ none := by
  have hitem : ∃ item, s.queue.item key = some item := by
    rcases inHand_step h hhand with hold | htakes | ⟨result, rfl, hkey⟩
    · exact Option.ne_none_iff_exists'.mp (hi.present hold)
    · obtain ⟨item, hitem, -⟩ := htakes.cases
      exact ⟨item, hitem⟩
    · have hany := (hok.2 key hkey).2
      cases hitem : s.queue.item key with
      | none =>
        rw [hitem] at hany
        cases hany
      | some item => exact ⟨item, rfl⟩
  obtain ⟨item, hitem⟩ := hitem
  rcases item_kept h hitem with hkept | rfl | ⟨c', rfl, hkey, hevict⟩
  · exact hkept
  · -- a producer takes back nothing that is in hand
    have hhand' := inHand_of_step h (by simp) (by simp) hhand
    have hhas := (hi.inv.session c).has (.inl hhand'.1)
    have hmem : c ∈ s.groups.consumers := List.mem_flatMap.mpr
      ⟨c.1, hhas.1, List.mem_map.mpr ⟨c.2, List.mem_range.mpr hhas.2, rfl⟩⟩
    have hpresent : key ∈ s.queue.entries.keys :=
      s.queue.entries.mem_keys.mpr fun hnone ↦ by cases hnone.symm.trans hitem
    exact absurd hhand' (hok c hmem key hpresent rfl)
  · -- the group of the consumer has not counted the entry, so it is not evicted
    obtain ⟨tx, hpersisted, htx, hcommitted, hs'⟩ := postTxCommit_eq_some h
    have hhand' := inHand_of_step h (by simp) (by simp) hhand
    have hne : c ≠ c' := by
      rintro rfl
      refine hhand.1 ?_
      rw [hs']
      simp [phase, setSession]
    have hhand'' : s.InHand c' key :=
      ⟨(fun hp ↦ by cases hpersisted.symm.trans hp), .inl hkey⟩
    have hgroup : c.1 ≠ c'.1 := by
      intro hgroup
      obtain ⟨g, i⟩ := c
      obtain ⟨g', i'⟩ := c'
      obtain rfl : g = g' := hgroup
      obtain rfl := (hi.group g).exclusive (hhand'.had (hi.inv.session _))
        (hhand''.had (hi.inv.session _))
      exact hne rfl
    obtain ⟨hcount, gs, hnodup, hlen, hcounted, hall⟩ :=
      exists_counted hi hitem hpersisted htx hcommitted hkey
    have hnodup' : (c.1 :: c'.1 :: gs).Nodup := by
      refine List.nodup_cons.mpr ⟨fun hmem ↦ ?_, hnodup⟩
      rcases List.mem_cons.mp hmem with heq | hmem
      · exact hgroup heq
      · exact (hcounted _ hmem).ne_of_inHand hhand' rfl
    have hle := length_le_numGroups (s := s) hnodup' fun g hg ↦ by
      rcases List.mem_cons.mp hg with rfl | hg
      · exact ((hi.inv.session c).has (.inl hhand'.1)).1
      · exact (hall g hg).1
    rw [hcount] at hevict
    simp only [List.length_cons] at hle
    omega

theorem ackInv_step (hi : s.AckInv) (hok : AckOk s a) (h : s.step a = some s') : s'.AckInv where
  inv := inv_step hi.inv h
  group g := groupInv_step hi.inv (hi.group g) hok.takeOk h
  present := present_step hi hok h
  taken := taken_step hi hok h
  counted := fun {key item'} hitem' ↦ by
    rcases item_step h hitem' with ⟨entry, -, -, rfl⟩ | ⟨item, hitem, hstep⟩
    · exact ⟨[], List.nodup_nil, rfl, fun g hg ↦ by cases hg⟩
    rcases hstep.count with hcount | ⟨c, rfl, hkey, hcount⟩
    · obtain ⟨gs, hnodup, hlen, hcounted⟩ := hi.counted hitem
      exact ⟨gs, hnodup, hlen.trans hcount.symm,
        fun g hg ↦ (hcounted g hg).step hok h hitem hstep⟩
    · obtain ⟨tx, hpersisted, htx, hcommitted, -⟩ := postTxCommit_eq_some h
      obtain ⟨hone, gs, hnodup, hlen, hcounted, -⟩ :=
        exists_counted hi hitem hpersisted htx hcommitted hkey
      refine ⟨c.1 :: gs, hnodup, by rw [hcount, hone, List.length_cons, hlen], fun g hg ↦ ?_⟩
      rcases List.mem_cons.mp hg with rfl | hg
      · exact counted_evict hi h hitem hstep hkey
      · exact (hcounted g hg).step hok h hitem hstep

/-! ## Acknowledgement and eviction -/

/-- **Acknowledgement and eviction.**  In every run that meets the condition:

* a consumer that calls `commitTx` marks exactly the entries returned or reclaimed in its
  transaction as processed, and changes no other entry;
* they are all marked when the transaction commits;
* an entry is evicted only when as many groups as there are have each committed a transaction that
  processed it. -/
theorem acknowledged_and_evicted {groups : Groups} {as : List Action}
    (h : Lts.Run step AckOk (init groups) as s) :
    (∀ c s', s.step (.commitTx c) = some s' → ∀ key,
      (key ∈ (s.sessions c).taken → s'.MarkedBy c key) ∧
        (key ∉ (s.sessions c).taken → s'.queue.item key = s.queue.item key)) ∧
    (∀ w s', s.step (.commit w) = some s' → ∀ c ∈ (s.contexts w).participants,
      ∀ key ∈ (s.sessions c).taken, s.MarkedBy c key) ∧
    ∀ c s', s.step (.postTxCommit c) = some s' → ∀ key, s.queue.item key ≠ none →
      s'.queue.item key = none →
      ∃ gs : List Nat, gs.Nodup ∧ gs.length = s.numGroups ∧ ∀ g ∈ gs, s.Processed g key := by
  have hi : s.AckInv := h.invariant (I := AckInv) (fun hi hok hstep ↦ ackInv_step hi hok hstep)
    (ackInv_init groups)
  refine ⟨fun c s' hstep key ↦ ?_, fun w s' hstep c hc key hkey ↦ ?_,
    fun c s' hstep key hthere hgone ↦ ?_⟩
  · obtain ⟨hready, rfl⟩ := commitTx_eq_some hstep
    have hactive : s.phase c ≠ .idle := fun hp ↦ by cases hready.symm.trans hp
    rw [(hi.taken hactive).2 key]
    constructor
    · intro hkey
      obtain ⟨item, hitem⟩ := Option.ne_none_iff_exists'.mp (hi.present ⟨hactive, .inl hkey⟩)
      have hack : (s.queue.ack (s.dequeuedKeys c) (s.config c)).item key =
          some (item.setConsumerState (s.config c) .processed) := by
        rw [InMemoryQueue.item_ack, if_pos hkey, hitem, Option.map_some]
      refine (InMemoryQueue.state_of_item hack).trans ?_
      simp [Item.setConsumerState, Item.putState, Groups.consumerConfig]
    · intro hkey
      show (s.queue.ack (s.dequeuedKeys c) (s.config c)).item key = _
      rw [InMemoryQueue.item_ack, if_neg hkey]
  · obtain ⟨-, hall, -⟩ := commit_eq_some hstep
    have hpersisted := (hall c hc).1
    have hactive : s.phase c ≠ .idle := fun hp ↦ by cases hpersisted.symm.trans hp
    rw [(hi.taken hactive).2 key] at hkey
    obtain ⟨item, hitem⟩ := Option.ne_none_iff_exists'.mp (hi.present ⟨hactive, .inl hkey⟩)
    exact (InMemoryQueue.state_of_item hitem).trans ((hi.group c.1).marked hpersisted hkey hitem)
  · obtain ⟨item, hitem⟩ := Option.ne_none_iff_exists'.mp hthere
    obtain ⟨tx, hpersisted, htx, hcommitted, -⟩ := postTxCommit_eq_some hstep
    rcases item_kept hstep hitem with hkept | heq | ⟨c', heq, hkey, hevict⟩
    · exact absurd hgone hkept
    · cases heq
    · obtain rfl := Action.postTxCommit.inj heq
      obtain ⟨hone, gs, hnodup, hlen, -, hall⟩ :=
        exists_counted hi hitem hpersisted htx hcommitted hkey
      refine ⟨c.1 :: gs, hnodup, le_antisymm ?_ ?_, fun g hg ↦ (hall g hg).2⟩
      · exact length_le_numGroups hnodup fun g hg ↦ (hall g hg).1
      · rw [List.length_cons, hlen]
        omega

/-- A producer commits some entries. -/
def enqueueAll (n : Nat) : List Action :=
  [.begin ⟨0, 1, [], [], noTxInProgress⟩ true []] ++ List.replicate n (.enqueue 1 emptyEntry) ++
    [.commit 1]

/-- The consumer takes one of two entries, is rolled back, reclaims the entry in a new transaction,
and commits. -/
def reclaimOne : List Action :=
  enqueueAll 2 ++ .begin ⟨1, 2, [], [], noTxInProgress⟩ true [(0, 0)] :: dequeueOne (0, 0) ++
  [.rollbackTx (0, 0), .abort 2, .begin ⟨2, 3, [], [], noTxInProgress⟩ true [(0, 0)],
    .reclaim (0, 0) ⟨[⟨1, 0⟩], [[]]⟩, .commitTx (0, 0), .commit 3]

theorem evicted_reclaimOne : ∃ s s',
    Lts.Run step AckOk (init (fifoGroup 1 (by decide))) reclaimOne s ∧
      s.step (.postTxCommit (0, 0)) = some s' ∧ s'.queue.item ⟨1, 0⟩ = none ∧
      ∃ gs : List Nat, gs.Nodup ∧ gs.length = s.numGroups ∧ ∀ g ∈ gs, s.Processed g ⟨1, 0⟩ := by
  obtain ⟨s, hrun, hthere, hsome, hafter⟩ := Lts.exists_run_of_exec step AckOk
    (init (fifoGroup 1 (by decide))) reclaimOne
    (fun s ↦ (⟨1, 0⟩ : Key) ∈ s.queue.entries.keys ∧
      (s.step (.postTxCommit (0, 0))).isSome = true ∧
      ∀ s' ∈ s.step (.postTxCommit (0, 0)), (⟨1, 0⟩ : Key) ∉ s'.queue.entries.keys)
    (by decide +kernel)
  obtain ⟨s', hs'⟩ := Option.isSome_iff_exists.mp hsome
  have hgone : s'.queue.item ⟨1, 0⟩ = none := by
    by_contra hne
    exact hafter s' hs' (s'.queue.entries.mem_keys.mpr hne)
  exact ⟨s, s', hrun, hs', hgone, (acknowledged_and_evicted hrun).2.2 _ s' hs' _
    (s.queue.entries.mem_keys.mp hthere) hgone⟩

/-- Two groups with one consumer each. -/
def twoGroups : Groups where
  ids := [0, 1]
  config := fun _ ↦ ⟨1, .fifo, none, Nat.one_pos⟩
  sorted := by decide

/-- **A second `dequeue` forgets an entry, and a `reclaim` counts one twice.**  A consumer that
dequeues two entries, and then one in the same transaction, does not mark the second one when it
commits.  A consumer of one of two groups that reclaims what it has dequeued in the same transaction
evicts the entry, which the other group has not processed. -/
theorem exists_forgotten_and_evicted :
    (∃ (as : List Action) (s s' : State) (key : Key),
      Lts.Run step (fun _ _ ↦ True) (init (fifoGroup 1 (by decide))) as s ∧
        s.step (.commitTx (0, 0)) = some s' ∧ key ∈ (s.sessions (0, 0)).taken ∧
        ¬ s'.MarkedBy (0, 0) key) ∧
    ∃ (as : List Action) (s s' : State) (key : Key),
      Lts.Run step (fun _ _ ↦ True) (init twoGroups) as s ∧
        s.step (.postTxCommit (0, 0)) = some s' ∧ s.queue.item key ≠ none ∧
        s'.queue.item key = none ∧ ¬ s.Processed 1 key := by
  constructor
  · obtain ⟨s, hrun, hkey, hsome, hafter⟩ := Lts.exists_run_of_exec step (fun _ _ ↦ True)
      (init (fifoGroup 1 (by decide)))
      (enqueueAll 2 ++ [.begin ⟨1, 2, [], [], noTxInProgress⟩ true [(0, 0)], .dequeue (0, 0) 2,
        .scan (0, 0), .scan (0, 0), .scan (0, 0)] ++ dequeueOne (0, 0))
      (fun s ↦ (⟨1, 1⟩ : Key) ∈ (s.sessions (0, 0)).taken ∧
        (s.step (.commitTx (0, 0))).isSome = true ∧
        ∀ s' ∈ s.step (.commitTx (0, 0)), ¬ s'.MarkedBy (0, 0) ⟨1, 1⟩) (by decide +kernel)
    obtain ⟨s', hs'⟩ := Option.isSome_iff_exists.mp hsome
    exact ⟨_, s, s', ⟨1, 1⟩, hrun, hs', hkey, hafter s' hs'⟩
  · obtain ⟨s, hrun, hthere, hnot, hsome, hafter⟩ := Lts.exists_run_of_exec step (fun _ _ ↦ True)
      (init twoGroups)
      (enqueueAll 1 ++ .begin ⟨1, 2, [], [], noTxInProgress⟩ true [(0, 0)] :: dequeueOne (0, 0) ++
        [.reclaim (0, 0) ⟨[⟨1, 0⟩], [[]]⟩, .commitTx (0, 0), .commit 2])
      (fun s ↦ (⟨1, 0⟩ : Key) ∈ s.queue.entries.keys ∧ ¬ s.Processed 1 ⟨1, 0⟩ ∧
        (s.step (.postTxCommit (0, 0))).isSome = true ∧
        ∀ s' ∈ s.step (.postTxCommit (0, 0)), (⟨1, 0⟩ : Key) ∉ s'.queue.entries.keys)
      (by decide +kernel)
    obtain ⟨s', hs'⟩ := Option.isSome_iff_exists.mp hsome
    refine ⟨_, s, s', ⟨1, 0⟩, hrun, hs', s.queue.entries.mem_keys.mp hthere, ?_, hnot⟩
    by_contra hne
    exact hafter s' hs' (s'.queue.entries.mem_keys.mpr hne)

end Tigon.InMemory.State
