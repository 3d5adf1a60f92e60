import Tigon.Queue.Preservation

/-!
# What no step undoes

`Stable s s'` collects what can be relied on from one state to a later one, whoever acts in
between: what is committed stays committed, a committed row keeps its entry until it is evicted,
what a group has processed stays processed, and a claimed row stays with the instance that claimed
it.  So an entry that is `Due` to a consumer in some state was so in every earlier state in which
it was committed (`Stable.due_of`).

A proof about two states of a run then needs no induction over the steps between them.
-/

set_option autoImplicit false

open Mvcc

namespace Tigon
namespace State

open Consumer SimpleQueueEntry

/-- A committed entry that the consumer is entitled to and that its group has not processed.  With
FIFO, and more than one instance, the consumer is entitled to what is not claimed and to what it
has claimed itself. -/
structure Due (groups : Groups) (s : State) (c : ConsumerId) (r : Row) : Prop where
  committed : s.manager.statusOf r.writePointer = some .committed
  owned : s.Owned groups c r
  free : mustClaim (groups.consumerConfig c) → ∀ st, s.table.state c.1 r = some st →
    st.instanceId = c.2
  unprocessed : ¬ s.Processed c.1 r

instance (s : State) (g : Nat) (r : Row) : Decidable (s.Processed g r) :=
  decidable_of_iff (∃ st ∈ s.table.state g r, st.state = .processed ∧
    s.manager.statusOf st.writePointer = some .committed) Iff.rfl

instance (groups : Groups) (s : State) (c : ConsumerId) (r : Row) :
    Decidable (s.Owned groups c r) :=
  decidable_of_iff (∃ e ∈ s.table.entry r,
    (groups.consumerConfig c).owns r e.hashKeys = true) Iff.rfl

instance (groups : Groups) (s : State) (c : ConsumerId) (r : Row) : Decidable (s.Due groups c r) :=
  decidable_of_iff
    (s.manager.statusOf r.writePointer = some .committed ∧ s.Owned groups c r ∧
      (mustClaim (groups.consumerConfig c) → ∀ st ∈ s.table.state c.1 r, st.instanceId = c.2) ∧
      ¬ s.Processed c.1 r)
    ⟨fun ⟨h1, h2, h3, h4⟩ ↦ ⟨h1, h2, h3, h4⟩, fun ⟨h1, h2, h3, h4⟩ ↦ ⟨h1, h2, h3, h4⟩⟩

/-- What can be relied on between two states. -/
structure Stable (groups : Groups) (s s' : State) : Prop where
  /-- What is committed stays so, and what has come to its end does not begin again. -/
  committed : ∀ {w : Nat}, s.manager.statusOf w = some .committed →
    s'.manager.statusOf w = some .committed
  pending : ∀ {w : Nat}, s'.manager.Pending w → s.manager.Pending w
  /-- A committed row has the entry that it had. -/
  entry : ∀ {r : Row} {e : QueueEntry}, s.manager.statusOf r.writePointer = some .committed →
    s'.table.entry r = some e → s.table.entry r = some e
  /-- A row stays with the instance that has claimed it. -/
  claimed : ∀ {c : ConsumerId} {r : Row} {st : StateContent},
    mustClaim (groups.consumerConfig c) → s.table.state c.1 r = some st → s'.Live r →
    ∃ st', s'.table.state c.1 r = some st' ∧ st'.instanceId = st.instanceId
  /-- What is processed stays so, as long as it is there. -/
  processed : ∀ {g : Nat} {r : Row}, s.Processed g r → s'.Live r → s'.Processed g r

variable {groups : Groups} {s s' s'' : State} {c : ConsumerId} {r : Row} {tx : Transaction}

theorem Stable.refl (groups : Groups) (s : State) : Stable groups s s where
  committed := id
  pending := id
  entry := fun _ h ↦ h
  claimed := fun _ h _ ↦ ⟨_, h, rfl⟩
  processed := fun h _ ↦ h

theorem Stable.live_of (h : Stable groups s s')
    (hr : s.manager.statusOf r.writePointer = some .committed) (hl : s'.Live r) : s.Live r := by
  obtain ⟨e, he⟩ := Option.ne_none_iff_exists'.mp hl
  simp [Live, h.entry hr he]

theorem Stable.owned_of (h : Stable groups s s')
    (hr : s.manager.statusOf r.writePointer = some .committed) (ho : s'.Owned groups c r) :
    s.Owned groups c r := by
  obtain ⟨e, he, ho⟩ := ho
  exact ⟨e, h.entry hr he, ho⟩

/-- **What is due now was due before**, from the moment it was committed. -/
theorem Stable.due_of (h : Stable groups s s')
    (hr : s.manager.statusOf r.writePointer = some .committed) (hd : s'.Due groups c r) :
    s.Due groups c r where
  committed := hr
  owned := h.owned_of hr hd.owned
  free := fun hm st hst ↦ by
    obtain ⟨st', hst', hi⟩ := h.claimed hm hst hd.owned.live
    exact hi.symm.trans (hd.free hm st' hst')
  unprocessed := fun hp ↦ hd.unprocessed (h.processed hp hd.owned.live)

theorem Stable.trans (hi : s.Inv groups) (h : Stable groups s s') (h' : Stable groups s' s'') :
    Stable groups s s'' where
  committed := fun hw ↦ h'.committed (h.committed hw)
  pending := fun hw ↦ h.pending (h'.pending hw)
  entry := fun hr he ↦ h.entry hr (h'.entry (h.committed hr) he)
  claimed := fun hm hst hl ↦ by
    have hl' := h'.live_of (h.committed (hi.state_committed hst)) hl
    obtain ⟨st', hst', hi'⟩ := h.claimed hm hst hl'
    obtain ⟨st'', hst'', hi''⟩ := h'.claimed hm hst' hl
    exact ⟨st'', hst'', hi''.trans hi'⟩
  processed := fun hp hl ↦ by
    obtain ⟨st, hst, -⟩ := id hp
    exact h'.processed (h.processed hp (h'.live_of (h.committed (hi.state_committed hst)) hl)) hl

/-! ## Every step is stable -/

theorem Stable.of_eq (hm : s'.manager = s.manager) (ht : s'.table = s.table) :
    Stable groups s s' where
  committed := fun h ↦ by rw [hm]; exact h
  pending := fun h ↦ by rw [← hm]; exact h
  entry := fun _ he ↦ by rw [← ht]; exact he
  claimed := fun _ h _ ↦ ⟨_, by rw [ht]; exact h, rfl⟩
  processed := fun ⟨st, hst, hp, hc⟩ _ ↦ ⟨st, by rw [ht]; exact hst, hp, by rw [hm]; exact hc⟩

/-- Writing to one's own rows undoes nothing. -/
theorem Writes.stable {rows : List Row} {st : Option StateContent}
    (h : Writes groups s s' c tx rows st) : Stable groups s s' where
  committed := fun hc ↦ by rw [h.manager]; exact hc
  pending := fun hp ↦ by rw [← h.manager]; exact hp
  entry := fun _ he ↦ by rw [h.table] at he; exact he
  claimed := fun {c' r x} hmc hx hl ↦ by
    rw [h.table]
    rcases setState_cases s.table c.1 c'.1 r rows st with ⟨hg, hmem, heq⟩ | heq
    · -- the consumer writes in its own name, and there it stood before
      have hmc' : mustClaim (groups.consumerConfig c) := mustClaim_congr hg hmc
      obtain ⟨y, rfl, hy⟩ := h.claims hmc'
      refine ⟨y, heq, ?_⟩
      rcases (h.writable r hmem).2 ((live_setState h.table).mp hl) with
        ⟨hmine, -⟩ | ⟨-, -, hnone⟩
      · obtain ⟨z, hz, hzi⟩ := hmine.2 hmc'
        rw [← hg, hx] at hz
        obtain rfl := Option.some_inj.mp hz
        exact hy.trans hzi.symm
      · rw [hg, hnone] at hx
        exact absurd hx (by simp)
    · exact ⟨x, heq.trans hx, rfl⟩
  processed := fun {g r} hp hl ↦ by
    obtain ⟨x, hx, hxp, hxc⟩ := hp
    refine ⟨x, ?_, hxp, by rw [h.manager]; exact hxc⟩
    rw [h.table]
    rcases setState_cases s.table c.1 g r rows st with ⟨hg, hmem, -⟩ | heq
    · rcases (h.writable r hmem).2 ((live_setState h.table).mp hl) with
        ⟨-, hnp⟩ | ⟨-, -, hnone⟩
      · exact absurd ⟨x, hg ▸ hx, hxp, hxc⟩ hnp
      · rw [hg, hnone] at hx
        exact absurd hx (by simp)
    · exact heq.trans hx

theorem Edits.stable {t : Table} (h : Edits s t) : Stable groups s { s with table := t } where
  committed := id
  pending := id
  entry := fun hr he ↦ h.entry_some hr he
  claimed := fun _ hst hl ↦ ⟨_, (h.live _ _ hl).trans hst, rfl⟩
  processed := fun ⟨st, hst, hp, hc⟩ hl ↦ ⟨st, (h.live _ _ hl).trans hst, hp, hc⟩

/-- A manager step, on a table that stays as it is. -/
theorem Stable.of_manager (ht : s'.table = s.table)
    (hc : ∀ {w : Nat}, s.manager.statusOf w = some .committed →
      s'.manager.statusOf w = some .committed)
    (hp : ∀ {w : Nat}, s'.manager.Pending w → s.manager.Pending w) : Stable groups s s' where
  committed := hc
  pending := hp
  entry := fun _ he ↦ by rw [← ht]; exact he
  claimed := fun _ h _ ↦ ⟨_, by rw [ht]; exact h, rfl⟩
  processed := fun ⟨st, hst, hp, hcom⟩ _ ↦ ⟨st, by rw [ht]; exact hst, hp, hc hcom⟩

theorem stable_claim (hi : s.Inv groups) (h : s.claim groups c = some s') : Stable groups s s' := by
  obtain ⟨n, todo, tx, hph, htx, hcase⟩ := claim_eq_some h
  obtain ⟨tx', htx', ha⟩ := (hi.session c).active (by rw [hph]; simp)
  obtain rfl := Option.some_inj.mp (htx.symm.trans htx')
  rcases hcase with ⟨rfl, rfl⟩ | ⟨entry, rest, rfl, ⟨hw, rfl⟩ | ⟨hw, hnone, rfl⟩ | ⟨hw, hsome, rfl⟩⟩
  · exact .of_eq rfl rfl
  · exact .of_eq rfl rfl
  · exact Writes.stable (writes_claim ha hph hnone rfl rfl)
  · exact .of_eq rfl rfl

theorem stable_commitTx (hi : s.Inv groups) (h : s.commitTx groups c = some s') :
    Stable groups s s' := by
  obtain ⟨tx, hph, htx, rfl⟩ := commitTx_eq_some h
  obtain ⟨tx', htx', ha⟩ := (hi.session c).active (by rw [hph]; simp)
  obtain rfl := Option.some_inj.mp (htx.symm.trans htx')
  rw [commitTx_table]
  exact Writes.stable (writes_commitTx ha hph rfl rfl)

theorem stable_rollbackTx (hi : s.Inv groups) (h : s.rollbackTx groups c = some s') :
    Stable groups s s' := by
  obtain ⟨tx, htx, hidle, hst, rfl⟩ := rollbackTx_eq_some h
  obtain ⟨tx', htx', ha⟩ := (hi.session c).active hidle
  obtain rfl := Option.some_inj.mp (htx.symm.trans htx')
  rw [rollbackTx_table]
  exact Writes.stable (writes_rollbackTx ha hst rfl rfl)

/-- **Every step is stable.** -/
theorem stable_step {a : Action} (hi : s.Inv groups) (h : s.step groups a = some s') :
    Stable groups s s' := by
  cases a with
  | begin tx short participants =>
    obtain ⟨-, -, -, m, hm, rfl⟩ := begin_eq_some h
    exact .of_manager rfl (Manager.committed_start hm).mpr (Manager.Pending.of_start hm)
  | persist w entries =>
    obtain ⟨t, ht, rfl⟩ := edits_persist h
    exact ht.stable
  | unpersist w =>
    obtain ⟨t, ht, rfl⟩ := edits_unpersist h
    exact ht.stable
  | dequeue c n =>
    simp only [step, dequeue] at h
    split at h
    · obtain rfl := Option.some_inj.mp h
      exact .of_eq rfl rfl
    · exact absurd h (by simp)
  | fetch c =>
    obtain ⟨n, tx, -, -, ⟨-, rfl⟩ | ⟨-, rfl⟩⟩ := fetch_eq_some h
    · exact .of_eq rfl rfl
    · exact .of_eq rfl rfl
  | claim c => exact stable_claim hi h
  | commitTx c => exact stable_commitTx hi h
  | commit w =>
    obtain ⟨-, -, m, hm, rfl⟩ := commit_eq_some h
    exact .of_manager rfl (Manager.committed_finish hm) (Manager.Pending.of_finish hm)
  | postTxCommit c saved =>
    obtain ⟨tx, -, -, -, rfl⟩ := postTxCommit_eq_some h
    exact .of_eq rfl rfl
  | rollbackTx c => exact stable_rollbackTx hi h
  | abort w =>
    obtain ⟨-, -, m, hm, rfl⟩ := abort_eq_some h
    exact .of_manager rfl (Manager.committed_finish hm) (Manager.Pending.of_finish hm)
  | invalidate w =>
    obtain ⟨m, hm, rfl⟩ := Option.map_eq_some_iff.mp h
    exact .of_manager rfl (Manager.committed_finish hm) (Manager.Pending.of_finish hm)
  | restart c close =>
    obtain rfl := Option.some_inj.mp h
    exact .of_eq rfl rfl
  | refresh =>
    obtain rfl := Option.some_inj.mp h
    exact .of_eq rfl rfl
  | evict config r =>
    obtain ⟨t, ht, rfl⟩ := edits_evict h
    exact ht.stable

/-- **What a step does to the manager and to the books.**  Only a commit adds to the logs; other
steps start a transaction, end one in another way, or leave the manager alone. -/
theorem manager_step {a : Action} (h : s.step groups a = some s') :
    (∃ w, a = .commit w) ∨ (s'.log = s.log ∧ s'.cycles = s.cycles ∧ (s'.manager = s.manager ∨
      (∃ w short, s.manager.start? w short = some s'.manager) ∨
      ∃ w st, st ≠ .committed ∧ s.manager.finish? w st = some s'.manager)) := by
  cases a with
  | commit w => exact .inl ⟨w, rfl⟩
  | begin tx short participants =>
    obtain ⟨-, -, -, m, hm, rfl⟩ := begin_eq_some h
    exact .inr ⟨rfl, rfl, .inr (.inl ⟨_, _, hm⟩)⟩
  | abort v =>
    obtain ⟨-, -, m, hm, rfl⟩ := abort_eq_some h
    exact .inr ⟨rfl, rfl, .inr (.inr ⟨_, _, by simp, hm⟩)⟩
  | invalidate v =>
    obtain ⟨m, hm, rfl⟩ := Option.map_eq_some_iff.mp h
    exact .inr ⟨rfl, rfl, .inr (.inr ⟨_, _, by simp, hm⟩)⟩
  | persist v entries =>
    obtain ⟨t, -, rfl⟩ := edits_persist h
    exact .inr ⟨rfl, rfl, .inl rfl⟩
  | unpersist v =>
    obtain ⟨t, -, rfl⟩ := edits_unpersist h
    exact .inr ⟨rfl, rfl, .inl rfl⟩
  | evict config r =>
    obtain ⟨t, -, rfl⟩ := edits_evict h
    exact .inr ⟨rfl, rfl, .inl rfl⟩
  | dequeue c n =>
    simp only [step, dequeue] at h
    split at h
    · obtain rfl := Option.some_inj.mp h
      exact .inr ⟨rfl, rfl, .inl rfl⟩
    · exact absurd h (by simp)
  | fetch c =>
    obtain ⟨n, tx, -, -, ⟨-, rfl⟩ | ⟨-, rfl⟩⟩ := fetch_eq_some h
    · exact .inr ⟨rfl, rfl, .inl rfl⟩
    · exact .inr ⟨rfl, rfl, .inl rfl⟩
  | claim c =>
    obtain ⟨n, todo, tx, -, -, ⟨-, rfl⟩ | ⟨_, _, -, ⟨-, rfl⟩ | ⟨-, -, rfl⟩ | ⟨-, -, rfl⟩⟩⟩ :=
      claim_eq_some h
    all_goals exact .inr ⟨rfl, rfl, .inl rfl⟩
  | commitTx c =>
    obtain ⟨tx, -, -, rfl⟩ := commitTx_eq_some h
    exact .inr ⟨rfl, rfl, .inl rfl⟩
  | postTxCommit c saved =>
    obtain ⟨tx, -, -, -, rfl⟩ := postTxCommit_eq_some h
    exact .inr ⟨rfl, rfl, .inl rfl⟩
  | rollbackTx c =>
    obtain ⟨tx, -, -, -, rfl⟩ := rollbackTx_eq_some h
    exact .inr ⟨rfl, rfl, .inl rfl⟩
  | restart c close =>
    obtain rfl := Option.some_inj.mp h
    exact .inr ⟨rfl, rfl, .inl rfl⟩
  | refresh =>
    obtain rfl := Option.some_inj.mp h
    exact .inr ⟨rfl, rfl, .inl rfl⟩

/-- A transaction is committed by its `commit`, and by nothing else. -/
theorem committed_of_step {a : Action} {w : Nat} (h : s.step groups a = some s')
    (hc : s'.manager.statusOf w = some .committed) :
    s.manager.statusOf w = some .committed ∨ a = .commit w := by
  rcases manager_step h with ⟨v, rfl⟩ | ⟨-, -, hm | ⟨v, short, hm⟩ | ⟨v, st, hst, hm⟩⟩
  · obtain ⟨-, -, m, hm, rfl⟩ := commit_eq_some h
    rcases committed_of_commit hm hc with rfl | hold
    · exact .inr rfl
    · exact .inl hold
  · exact .inl (hm ▸ hc)
  · exact .inl ((Manager.committed_start hm).mp hc)
  · exact .inl (Manager.committed_of_finish hm hst hc)

/-- What a transaction may rely on, it may rely on after every step. -/
theorem sees_step {a : Action} (h : s.step groups a = some s') (hs : Sees s.manager tx) :
    Sees s'.manager tx := by
  rcases manager_step h with ⟨v, rfl⟩ | ⟨-, -, hm | ⟨v, short, hm⟩ | ⟨v, st, -, hm⟩⟩
  · obtain ⟨-, -, m, hm, rfl⟩ := commit_eq_some h
    exact hs.finish hm
  · rw [hm]
    exact hs
  · exact hs.start hm
  · exact hs.finish hm

/-- Nothing is taken back from the log. -/
theorem log_mono {a : Action} {g : Nat} {p : Nat × Row} (h : s.step groups a = some s')
    (hp : p ∈ s.log g) : p ∈ s'.log g := by
  rcases manager_step h with ⟨v, rfl⟩ | ⟨hlog, -⟩
  · obtain ⟨-, -, m, -, rfl⟩ := commit_eq_some h
    exact List.mem_append_left _ hp
  · rw [hlog]
    exact hp

/-! ## Steps a consumer has no part in -/

/-- Does the consumer take part in the action? -/
def Concerns (c : ConsumerId) : Action → Prop
  | .begin _ _ participants => c ∈ participants
  | .dequeue c' _ => c' = c
  | .fetch c' => c' = c
  | .claim c' => c' = c
  | .commitTx c' => c' = c
  | .postTxCommit c' _ => c' = c
  | .rollbackTx c' => c' = c
  | .restart c' _ => c' = c
  | _ => False

/-- What a step the consumer has no part in leaves alone. -/
structure Quiet (s s' : State) (c : ConsumerId) : Prop where
  session : s'.sessions c = s.sessions c
  startRow : s'.startRows c = s.startRows c
  state : ∀ {r : Row} {st : StateContent}, s'.table.state c.1 r = some st → st.instanceId = c.2 →
    s.table.state c.1 r = some st

theorem Writes.quiet {c' : ConsumerId} {rows : List Row} {st : Option StateContent}
    (h : Writes groups s s' c' tx rows st) (hne : c' ≠ c) (hsess : s'.sessions c = s.sessions c)
    (hstart : s'.startRows c = s.startRows c) : Quiet s s' c where
  session := hsess
  startRow := hstart
  state := fun {r x} hx hi ↦ by
    rw [h.table] at hx
    rcases setState_cases s.table c'.1 c.1 r rows st with ⟨hg, -, heq⟩ | heq
    · exact absurd (Prod.ext hg (hi.symm.trans (h.writtenBy x (heq.symm.trans hx)).1)).symm hne
    · exact heq.symm.trans hx

theorem quiet_claim {c' : ConsumerId} (hi : s.Inv groups) (h : s.claim groups c' = some s')
    (hne : c' ≠ c) : Quiet s s' c := by
  obtain ⟨n, todo, tx, hph, htx, hcase⟩ := claim_eq_some h
  obtain ⟨tx', htx', ha⟩ := (hi.session c').active (by rw [hph]; simp)
  obtain rfl := Option.some_inj.mp (htx.symm.trans htx')
  rcases hcase with ⟨rfl, rfl⟩ | ⟨entry, rest, rfl, ⟨hw, rfl⟩ | ⟨hw, hnone, rfl⟩ | ⟨hw, hsome, rfl⟩⟩
  · exact ⟨setSession_other _ _ hne.symm, rfl, fun h _ ↦ h⟩
  · exact ⟨setSession_other _ _ hne.symm, rfl, fun h _ ↦ h⟩
  · exact Writes.quiet (writes_claim ha hph hnone rfl rfl) hne (setSession_other _ _ hne.symm) rfl
  · exact ⟨setSession_other _ _ hne.symm, rfl, fun h _ ↦ h⟩

theorem quiet_commitTx {c' : ConsumerId} (hi : s.Inv groups) (h : s.commitTx groups c' = some s')
    (hne : c' ≠ c) : Quiet s s' c := by
  obtain ⟨tx, hph, htx, rfl⟩ := commitTx_eq_some h
  obtain ⟨tx', htx', ha⟩ := (hi.session c').active (by rw [hph]; simp)
  obtain rfl := Option.some_inj.mp (htx.symm.trans htx')
  rw [commitTx_table]
  exact Writes.quiet (writes_commitTx ha hph rfl rfl) hne (setSession_other _ _ hne.symm) rfl

theorem quiet_rollbackTx {c' : ConsumerId} (hi : s.Inv groups)
    (h : s.rollbackTx groups c' = some s') (hne : c' ≠ c) : Quiet s s' c := by
  obtain ⟨tx, htx, hidle, hst, rfl⟩ := rollbackTx_eq_some h
  obtain ⟨tx', htx', ha⟩ := (hi.session c').active hidle
  obtain rfl := Option.some_inj.mp (htx.symm.trans htx')
  rw [rollbackTx_table]
  exact Writes.quiet (writes_rollbackTx ha hst rfl rfl) hne (setSession_other _ _ hne.symm) rfl

/-- **A step the consumer has no part in leaves it alone.** -/
theorem quiet_step {a : Action} (hi : s.Inv groups) (h : s.step groups a = some s')
    (hne : ¬ Concerns c a) : Quiet s s' c := by
  cases a with
  | begin tx short participants =>
    obtain ⟨-, -, -, m, hm, rfl⟩ := begin_eq_some h
    exact ⟨if_neg hne, rfl, fun h _ ↦ h⟩
  | persist w entries =>
    obtain ⟨t, ht, rfl⟩ := edits_persist h
    exact ⟨rfl, rfl, fun h _ ↦ ht.state _ _ _ h⟩
  | unpersist w =>
    obtain ⟨t, ht, rfl⟩ := edits_unpersist h
    exact ⟨rfl, rfl, fun h _ ↦ ht.state _ _ _ h⟩
  | dequeue c' n =>
    simp only [step, dequeue] at h
    split at h
    · obtain rfl := Option.some_inj.mp h
      exact ⟨setSession_other _ _ (Ne.symm hne), rfl, fun h _ ↦ h⟩
    · exact absurd h (by simp)
  | fetch c' =>
    obtain ⟨n, tx, -, -, ⟨-, rfl⟩ | ⟨-, rfl⟩⟩ := fetch_eq_some h
    · exact ⟨setSession_other _ _ (Ne.symm hne), rfl, fun h _ ↦ h⟩
    · exact ⟨setSession_other _ _ (Ne.symm hne), rfl, fun h _ ↦ h⟩
  | claim c' => exact quiet_claim hi h hne
  | commitTx c' => exact quiet_commitTx hi h hne
  | commit w =>
    obtain ⟨-, -, m, hm, rfl⟩ := commit_eq_some h
    exact ⟨rfl, rfl, fun h _ ↦ h⟩
  | postTxCommit c' saved =>
    obtain ⟨tx, -, -, -, rfl⟩ := postTxCommit_eq_some h
    exact ⟨setSession_other _ _ (Ne.symm hne), Function.update_of_ne (Ne.symm hne) _ _,
      fun h _ ↦ h⟩
  | rollbackTx c' => exact quiet_rollbackTx hi h hne
  | abort w =>
    obtain ⟨-, -, m, hm, rfl⟩ := abort_eq_some h
    exact ⟨rfl, rfl, fun h _ ↦ h⟩
  | invalidate w =>
    obtain ⟨m, hm, rfl⟩ := Option.map_eq_some_iff.mp h
    exact ⟨rfl, rfl, fun h _ ↦ h⟩
  | restart c' close =>
    obtain rfl := Option.some_inj.mp h
    exact ⟨setSession_other _ _ (Ne.symm hne), Function.update_of_ne (Ne.symm hne) _ _,
      fun h _ ↦ h⟩
  | refresh =>
    obtain rfl := Option.some_inj.mp h
    exact ⟨rfl, rfl, fun h _ ↦ h⟩
  | evict config r =>
    obtain ⟨t, ht, rfl⟩ := edits_evict h
    exact ⟨rfl, rfl, fun h _ ↦ ht.state _ _ _ h⟩

/-! ## Runs -/

/-- **Every run is stable.** -/
theorem stable_run {ok : State → Action → Prop} {as : List Action} (hi : s.Inv groups)
    (h : Lts.Run (step groups) ok s as s') : Stable groups s s' := by
  have := h.invariant (I := fun t ↦ t.Inv groups ∧ Stable groups s t)
    (fun ⟨ht, hst⟩ _ hstep ↦ ⟨inv_step ht hstep, hst.trans hi (stable_step ht hstep)⟩)
    ⟨hi, .refl groups s⟩
  exact this.2

end State
end Tigon
