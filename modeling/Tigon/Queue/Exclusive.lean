import Tigon.Queue.Stability

/-!
# At most one instance, at most once

Two instances of a FIFO group may both have an entry among their consuming entries: an entry gets
there before it is claimed (`exists_consuming_twice`).  Once the claim loop is past the entry, only
one of them has it; the other could not claim it and has dropped it.  So what a call of `dequeue`
returns, it returns to one instance, and each entry is processed by one committed transaction of
the group at most (`consuming_exclusive`).

All of this is read off the invariant, for rows that are still there; the runs here are those
without eviction, in which a committed row stays (`live_step`).
-/

set_option autoImplicit false

open Mvcc

namespace Tigon
namespace State

open Consumer SimpleQueueEntry Function

variable {groups : Groups} {s s' : State} {c : ConsumerId} {r : Row} {tx : Transaction}

def isEvict : Action → Bool
  | .evict _ _ => true
  | _ => false

/-- No row is evicted. -/
def NoEvict (_ : State) (a : Action) : Prop := isEvict a = false

instance (s : State) (a : Action) : Decidable (NoEvict s a) := inferInstanceAs (Decidable (_ = _))

/-- The consumer has fetched the entry and not given it up. -/
def Has (s : State) (c : ConsumerId) (x : SimpleQueueEntry) : Prop :=
  x ∈ (s.consumer c).entryCache ∨ (s.phase c ≠ .idle ∧ x ∈ (s.consumer c).consumingEntries)

/-- The consumer is in a transaction and consumes the entry, and its claim loop is past it. -/
structure Holding (s : State) (c : ConsumerId) (x : SimpleQueueEntry) : Prop where
  active : s.phase c ≠ .idle
  consuming : x ∈ (s.consumer c).consumingEntries
  past : x ∉ (s.phase c).todo

/-! ## Rows stay -/

/-- Committed rows are only taken away by eviction. -/
theorem live_step {a : Action} (h : s.step groups a = some s') (hok : NoEvict s a)
    (hr : s.manager.statusOf r.writePointer = some .committed) (hl : s.Live r) : s'.Live r := by
  cases a with
  | evict config r => exact absurd hok (by simp [NoEvict, isEvict])
  | persist w entries =>
    simp only [step, persist] at h
    split at h
    · rename_i hc
      obtain rfl := Option.some_inj.mp h
      have hne : r.writePointer ≠ w := by
        intro heq
        rw [heq, Manager.statusOf] at hr
        rcases hc.1 with h | h <;> simp [h] at hr
      rw [Live, foldl_putEntry_entry]
      · exact hl
      · intro p hp heq
        exact hne (heq ▸ mem_entryRows hp)
    · exact absurd h (by simp)
  | unpersist w =>
    simp only [step, unpersist] at h
    split at h
    · rename_i hc
      obtain rfl := Option.some_inj.mp h
      rw [Live, (foldl_deleteRow _ s.table r).1, if_neg]
      · exact hl
      · intro hmem
        have heq : r.writePointer = w := by simpa using (List.mem_filter.mp hmem).2
        rw [heq] at hr
        rcases hc with h | h <;> rw [h] at hr <;> simp at hr
    · exact absurd h (by simp)
  | begin tx short participants =>
    obtain ⟨-, -, -, m, -, rfl⟩ := begin_eq_some h
    exact hl
  | dequeue c n =>
    simp only [step, dequeue] at h
    split at h
    · obtain rfl := Option.some_inj.mp h
      exact hl
    · exact absurd h (by simp)
  | fetch c =>
    obtain ⟨n, tx, -, -, ⟨-, rfl⟩ | ⟨-, rfl⟩⟩ := fetch_eq_some h
    · exact hl
    · exact hl
  | claim c =>
    obtain ⟨n, todo, tx, -, -, ⟨-, rfl⟩ | ⟨_, _, -, ⟨-, rfl⟩ | ⟨-, -, rfl⟩ | ⟨-, -, rfl⟩⟩⟩ :=
      claim_eq_some h
    all_goals exact hl
  | commitTx c =>
    obtain ⟨tx, -, -, rfl⟩ := commitTx_eq_some h
    rw [commitTx_table]
    exact hl
  | commit w =>
    obtain ⟨-, -, m, -, rfl⟩ := commit_eq_some h
    exact hl
  | postTxCommit c saved =>
    obtain ⟨tx, -, -, -, rfl⟩ := postTxCommit_eq_some h
    exact hl
  | rollbackTx c =>
    obtain ⟨tx, -, -, -, rfl⟩ := rollbackTx_eq_some h
    rw [rollbackTx_table]
    exact hl
  | abort w =>
    obtain ⟨-, -, m, -, rfl⟩ := abort_eq_some h
    exact hl
  | invalidate w =>
    obtain ⟨m, -, rfl⟩ := Option.map_eq_some_iff.mp h
    exact hl
  | restart c close =>
    obtain rfl := Option.some_inj.mp h
    exact hl
  | refresh =>
    obtain rfl := Option.some_inj.mp h
    exact hl

/-- An entry a consumer has was fetched in this step, or the consumer had it before. -/
theorem has_step {a : Action} (hi : s.Inv groups) (h : s.step groups a = some s')
    {x : SimpleQueueEntry} (hx : s'.Has c x) : s.Has c x ∨ (a = .fetch c ∧
      ∃ tx, (s.consumer c).transaction = some tx ∧
        Fresh (groups.consumerConfig c) s.table tx (s.consumer c).scanStart x) := by
  by_cases hc : Concerns c a
  · cases a with
    | begin tx short participants =>
      obtain ⟨-, -, -, m, -, rfl⟩ := begin_eq_some h
      have hc : c ∈ participants := hc
      simp only [Has, consumer, phase, if_pos hc, startTx] at hx
      rcases hx with hx | ⟨-, hx⟩
      · exact .inl (.inl hx)
      · exact absurd hx List.not_mem_nil
    | dequeue c' n =>
      obtain rfl : c' = c := hc
      simp only [step, dequeue] at h
      split at h
      · rename_i hph
        obtain rfl := Option.some_inj.mp h
        simp only [Has, consumer, setSession, update_self] at hx
        exact .inl (hx.imp id fun hx ↦ ⟨by rw [hph.1]; simp, hx.2⟩)
      · exact absurd h (by simp)
    | fetch c' =>
      obtain rfl : c' = c := hc
      obtain ⟨n, tx, hph, htx, ⟨-, rfl⟩ | ⟨-, rfl⟩⟩ := fetch_eq_some h
      · have hidle : s.phase c' ≠ .idle := by rw [hph]; simp
        have hf := getEntries_fetched (groups.consumerConfig c') s.table tx (s.consumer c') n
        simp only [Has, consumer, setSession, update_self, afterFetch_consumer] at hx
        rcases hx with hx | ⟨-, hx⟩
        · exact (hf.mem_cache x hx).imp .inl fun hx ↦ ⟨rfl, tx, htx, hx⟩
        · rcases hf.mem_consuming x hx with hx | hx | hx
          · exact .inl (.inr ⟨hidle, hx⟩)
          · exact .inl (.inl hx)
          · exact .inr ⟨rfl, tx, htx, hx⟩
      · simp only [Has, consumer, setSession, update_self, returned] at hx
        exact .inl (hx.imp id fun hx ↦ ⟨by rw [hph]; simp, hx.2⟩)
    | claim c' =>
      obtain rfl : c' = c := hc
      obtain ⟨n, todo, tx, hph, -, ⟨-, rfl⟩ | ⟨_, _, -, ⟨-, rfl⟩ | ⟨-, -, rfl⟩ | ⟨-, -, rfl⟩⟩⟩ :=
        claim_eq_some h
      all_goals
        have hidle : s.phase c' ≠ .idle := by rw [hph]; simp
        simp only [Has, consumer, setSession, update_self, drop] at hx
      · exact .inl (hx.imp id fun hx ↦ ⟨hidle, hx.2⟩)
      · exact .inl (hx.imp id fun hx ↦ ⟨hidle, hx.2⟩)
      · exact .inl (hx.imp id fun hx ↦ ⟨hidle, hx.2⟩)
      · exact .inl (hx.imp id fun hx ↦ ⟨hidle, (SortedList.mem_remove.mp hx.2).1⟩)
    | commitTx c' =>
      obtain rfl : c' = c := hc
      obtain ⟨tx, hph, -, rfl⟩ := commitTx_eq_some h
      simp only [Has, consumer, setSession, update_self, commitTx_consumer] at hx
      exact .inl (hx.imp id fun hx ↦ ⟨by rw [hph]; simp, hx.2⟩)
    | postTxCommit c' saved =>
      obtain rfl : c' = c := hc
      obtain ⟨tx, -, -, -, rfl⟩ := postTxCommit_eq_some h
      simp only [Has, consumer, phase, setSession, update_self,
        hbasePostTxCommit_entryCache] at hx
      exact .inl (.inl (hx.resolve_right fun h ↦ h.1 rfl))
    | rollbackTx c' =>
      obtain rfl : c' = c := hc
      obtain ⟨tx, -, hidle, -, rfl⟩ := rollbackTx_eq_some h
      simp only [Has, consumer, phase, setSession, update_self,
        rollbackTx_entryCache] at hx
      rcases SortedList.mem_of_mem_putAll (hx.resolve_right fun h ↦ h.1 rfl) with hx | hx
      · exact .inl (.inr ⟨hidle, hx⟩)
      · exact .inl (.inl hx)
    | restart c' close =>
      obtain rfl : c' = c := hc
      obtain rfl := Option.some_inj.mp h
      simp only [Has, consumer, phase, setSession, update_self, create] at hx
      exact absurd (hx.resolve_right fun h ↦ h.1 rfl) List.not_mem_nil
    | _ => exact absurd hc id
  · rw [Has, consumer, phase, (quiet_step hi h hc).session] at hx
    exact .inl hx

/-- Every row a consumer has, or the log speaks of, is there. -/
structure Unevicted (s : State) : Prop where
  has : ∀ {c : ConsumerId} {x : SimpleQueueEntry}, s.Has c x → s.Live x.rowKey
  log : ∀ {g w : Nat} {r : Row}, (w, r) ∈ s.log g → s.Live r

theorem log_step {a : Action} {g w : Nat} (hi : s.Inv groups) (h : s.step groups a = some s')
    (hl : (w, r) ∈ s'.log g) : (w, r) ∈ s.log g ∨ ∃ c, ∃ x, s.Has c x ∧ x.rowKey = r ∧
      s.manager.statusOf r.writePointer = some .committed := by
  rcases manager_step h with ⟨v, rfl⟩ | ⟨hlog, -⟩
  · obtain ⟨-, hpers, m, -, rfl⟩ := commit_eq_some h
    rcases List.mem_append.mp hl with hl | hl
    · exact .inl hl
    · obtain ⟨c, hc, hl⟩ := List.mem_flatMap.mp hl
      obtain ⟨hpart, -⟩ := List.mem_filter.mp hc
      obtain ⟨r', hr', heq⟩ := List.mem_map.mp hl
      obtain ⟨-, rfl⟩ := Prod.mk.inj heq
      obtain ⟨tx, -, -, ha⟩ := hi.active_of_hasPersisted (hpers c hpart)
      obtain ⟨x, hx, rfl⟩ := List.mem_map.mp hr'
      exact .inr ⟨c, x, .inr ⟨by rw [(hpers c hpart).1]; simp, hx⟩, rfl,
        (ha.consuming x hx).committed⟩
  · exact .inl (hlog ▸ hl)

theorem has_committed (hi : s.Inv groups) {x : SimpleQueueEntry} (hx : s.Has c x) :
    s.manager.statusOf x.rowKey.writePointer = some .committed := by
  rcases hx with hx | ⟨hidle, hx⟩
  · exact ((hi.session c).cached x hx).committed
  · obtain ⟨tx, -, ha⟩ := (hi.session c).active hidle
    exact (ha.consuming x hx).committed

theorem unevicted_step {a : Action} (hi : s.Inv groups) (hu : s.Unevicted) (hok : NoEvict s a)
    (h : s.step groups a = some s') : s'.Unevicted where
  has := fun {c x} hx ↦ by
    have hl : s.Live x.rowKey := by
      rcases has_step hi h hx with hx | ⟨-, tx, -, hx⟩
      · exact hu.has hx
      · exact hx.spec.1
    rcases committed_of_step h (has_committed (inv_step hi h) hx) with hr | rfl
    · exact live_step h hok hr hl
    · obtain ⟨-, -, m, -, rfl⟩ := commit_eq_some h
      exact hl
  log := fun hlog ↦ by
    rcases log_step hi h hlog with hold | ⟨c, x, hx, rfl, hr⟩
    · exact live_step h hok (hi.log hold).2.1 (hu.log hold)
    · exact live_step h hok hr (hu.has hx)

theorem unevicted_init : State.init.Unevicted :=
  ⟨fun hx ↦ absurd hx (by simp [Has, init, create]), fun hl ↦ absurd hl List.not_mem_nil⟩

theorem unevicted_run {as : List Action} (h : Lts.Run (step groups) NoEvict .init as s) :
    s.Inv groups ∧ s.Unevicted :=
  h.invariant (I := fun s ↦ s.Inv groups ∧ s.Unevicted)
    (fun ⟨hi, hu⟩ hok hstep ↦ ⟨inv_step hi hstep, unevicted_step hi hu hok hstep⟩)
    ⟨inv_init groups, unevicted_init⟩

/-! ## Exclusivity -/

/-- What a consumer holds is its own. -/
theorem Holding.mine (hi : s.Inv groups) (hu : s.Unevicted) {x : SimpleQueueEntry}
    (h : s.Holding c x) : groups.Has c ∧ s.Mine groups c x.rowKey := by
  obtain ⟨tx, -, ha⟩ := (hi.session c).active h.active
  exact ⟨ha.has, ha.claimed x h.consuming h.past (hu.has (.inr ⟨h.active, h.consuming⟩))⟩

/-- What a consumer holds was not processed by a transaction it sees. -/
theorem Holding.not_visible (hi : s.Inv groups) (hu : s.Unevicted) {x : SimpleQueueEntry}
    (h : s.Holding c x) (htx : (s.consumer c).transaction = some tx) {st : StateContent}
    (hst : s.table.state c.1 x.rowKey = some st) (hp : st.state = .processed) :
    tx.isVisible st.writePointer = false := by
  obtain ⟨tx', htx', ha⟩ := (hi.session c).active h.active
  obtain rfl := Option.some_inj.mp (htx.symm.trans htx')
  refine Bool.eq_false_iff.mpr fun hvis ↦ ?_
  have hpart := hi.state_participant hst
  obtain ⟨i, hinfo⟩ := hi.context_started hpart
  have hstat : s.manager.statusOf st.writePointer = some i := by simp [Manager.statusOf, hinfo]
  rcases ha.sees.visible hvis hstat with rfl | rfl
  · have hmem : x.rowKey ∈ (s.consumer c).consumingRows := List.mem_map_of_mem h.consuming
    by_cases hcom : s.manager.statusOf tx.writePointer = some .committed
    · -- after the commit the state is the transaction's own, which it does not see
      have hown := ha.processed (ha.persisted_of_committed hcom) _ hmem
        (hu.has (.inr ⟨h.active, h.consuming⟩))
      rw [hst, Option.some_inj] at hown
      have hle := (Transaction.isVisible_iff.mp hvis).1
      have hlt := ha.sees.read
      rw [hown] at hle
      exact absurd hle (by simpa using hlt)
    · exact ha.unprocessed hcom _ hmem (h.mine hi hu).2 ⟨st, hst, hp, hstat⟩
  · exact hi.state_processed hst hp (hi.context_aborted hstat hpart)

/-- **At most one instance, at most once.**  In every run without eviction:

* no two instances of a group hold the same entry, that is, have it among the consuming entries of
  an open transaction, with their claim loop past it (outside `dequeue`, these are all consuming
  entries);
* what a consumer holds in a transaction was not processed by a transaction that one sees;
* every entry is processed by one committed transaction of the group at most. -/
theorem consuming_exclusive {as : List Action} (h : Lts.Run (step groups) NoEvict .init as s) :
    (∀ (c c' : ConsumerId) (x x' : SimpleQueueEntry), c.1 = c'.1 → c ≠ c' → s.Holding c x →
      s.Holding c' x' → x.rowKey ≠ x'.rowKey) ∧
    (∀ (c : ConsumerId) (tx : Transaction) (x : SimpleQueueEntry) (st : StateContent),
      s.Holding c x → (s.consumer c).transaction = some tx →
      s.table.state c.1 x.rowKey = some st → st.state = .processed →
      tx.isVisible st.writePointer = false) ∧
    ∀ (g w w' : Nat) (r : Row), (w, r) ∈ s.log g → (w', r) ∈ s.log g → w = w' := by
  obtain ⟨hi, hu⟩ := unevicted_run h
  refine ⟨fun c c' x x' hg hne hx hx' heq ↦ ?_, fun c tx x st hx htx hst hp ↦ ?_,
    fun g w w' r hw hw' ↦ ?_⟩
  · obtain ⟨hc, hm⟩ := hx.mine hi hu
    obtain ⟨hc', hm'⟩ := hx'.mine hi hu
    rw [← heq] at hm'
    exact hne (hm.unique hc hc' hg hm')
  · exact hx.not_visible hi hu htx hst hp
  · obtain ⟨-, -, hcell⟩ := hi.log hw
    obtain ⟨-, -, hcell'⟩ := hi.log hw'
    obtain ⟨i, hst⟩ := hcell (hu.log hw)
    obtain ⟨i', hst'⟩ := hcell' (hu.log hw)
    rw [hst, Option.some_inj] at hst'
    exact congrArg StateContent.writePointer hst'

/-- One FIFO group with two consumers. -/
def fifoTwo : Groups := fifoGroup 2 (by decide)

/-- A producer commits an entry, and both consumers fetch it. -/
def bothFetch : List Action :=
  [.begin ⟨0, 1, [], [], noTxInProgress⟩ true [], .persist 1 [⟨[], []⟩], .commit 1,
    .begin ⟨1, 2, [], [], noTxInProgress⟩ true [(0, 0)],
    .begin ⟨1, 3, [], [2], 2⟩ true [(0, 1)], .dequeue (0, 0) 1, .dequeue (0, 1) 1,
    .fetch (0, 0), .fetch (0, 1)]

instance (s : State) (c : ConsumerId) (x : SimpleQueueEntry) : Decidable (s.Holding c x) :=
  decidable_of_iff (s.phase c ≠ .idle ∧ x ∈ (s.consumer c).consumingEntries ∧
      x ∉ (s.phase c).todo)
    ⟨fun ⟨h1, h2, h3⟩ ↦ ⟨h1, h2, h3⟩, fun ⟨h1, h2, h3⟩ ↦ ⟨h1, h2, h3⟩⟩

/-- When both have tried to claim the entry, one of them holds it, and the other does not. -/
theorem consuming_exclusive_bothFetch : ∃ s, Lts.Run (step fifoTwo) NoEvict .init
    (bothFetch ++ [.claim (0, 0), .claim (0, 1)]) s ∧ s.Holding (0, 0) ⟨⟨1, 0⟩, [], none⟩ ∧
      ∀ x, s.Holding (0, 1) x → x.rowKey ≠ ⟨1, 0⟩ := by
  obtain ⟨s, hrun, hx⟩ := Lts.exists_run_of_exec (step fifoTwo) NoEvict .init
    (bothFetch ++ [.claim (0, 0), .claim (0, 1)])
    (fun s ↦ s.Holding (0, 0) ⟨⟨1, 0⟩, [], none⟩) (by decide +kernel)
  refine ⟨s, hrun, hx, fun x hx' heq ↦ ?_⟩
  exact (consuming_exclusive hrun).1 (0, 0) (0, 1) _ x rfl (by decide) hx hx' heq.symm

/-- **Before the claims, both instances have the entry among their consuming entries.** -/
theorem exists_consuming_twice : ∃ (as : List Action) (s : State) (r : Row),
    Lts.Run (step fifoTwo) NoEvict .init as s ∧
      s.phase (0, 0) ≠ .idle ∧ r ∈ (s.consumer (0, 0)).consumingRows ∧
      s.phase (0, 1) ≠ .idle ∧ r ∈ (s.consumer (0, 1)).consumingRows := by
  obtain ⟨s, hrun, hx⟩ := Lts.exists_run_of_exec (step fifoTwo) NoEvict .init bothFetch
    (fun s ↦ s.phase (0, 0) ≠ .idle ∧ ⟨1, 0⟩ ∈ (s.consumer (0, 0)).consumingRows ∧
      s.phase (0, 1) ≠ .idle ∧ ⟨1, 0⟩ ∈ (s.consumer (0, 1)).consumingRows) (by decide +kernel)
  exact ⟨_, s, _, hrun, hx⟩

end State
end Tigon
