import Tigon.Queue.Progress

/-!
# An entry that is due is processed in the end

A transaction in which a call of `dequeue` returned, and that commits, has processed something, as
long as something is due and visible.  That it comes to a given entry in the end, however many
entries the producers add, is due to the order in which entries are taken.  `Ahead` says what can
be taken before an entry `r` that is due: entries with smaller keys, and those of a fixed set `H`,
which the consumer had when it did not have `r`.  New entries with larger keys get into the cache
only together with `r`, and come out of it after `r`.

Two things can upset the order, each of them finitely often: a producer with a smaller id that
commits adds entries that come first, and an entry that the consumer has claimed before is dropped
when it is claimed again, and has to be fetched anew (`unrest` counts both).  From then on, there
are only finitely many entries that can be taken before `r` (`cycles_bounded`).
-/

set_option autoImplicit false

open Mvcc

namespace Tigon
namespace State

open Consumer SimpleQueueEntry

variable {groups : Groups} {s s' : State} {c : ConsumerId} {r : Row} {tx : Transaction}

/-! ## What upsets the order -/

/-- The consumer has an entry that it would claim, for the row `r`. -/
def Unclaimed (groups : Groups) (s : State) (c : ConsumerId) (r : Row) : Prop :=
  ∃ x, s.Has c x ∧ x.rowKey = r ∧ wantsClaim (groups.consumerConfig c) x

open Classical in
/-- Where entries are claimed: has the row been claimed, and does the consumer know? -/
noncomputable def claimStage (groups : Groups) (s : State) (c : ConsumerId) (r : Row) : Nat :=
  if ¬ mustClaim (groups.consumerConfig c) then 0
  else if s.table.state c.1 r = none then 2
  else if s.Unclaimed groups c r then 1
  else 0

/-- The transactions that could add entries before `r`. -/
def uncommitted (s : State) (r : Row) : Finset Nat :=
  (Finset.range (r.writePointer + 1)).filter fun w ↦ s.manager.statusOf w ≠ some .committed

/-- How often the order can still be upset. -/
noncomputable def unrest (groups : Groups) (s : State) (c : ConsumerId) (r : Row) : Nat :=
  s.claimStage groups c r + (s.uncommitted r).card

variable {a : Action}

/-- A consumer learns of its claims, and does not forget. -/
theorem claimStage_step (hi : s.Inv groups) (hhas : groups.Has c)
    (hd : s.Due groups c r) (hd' : s'.Due groups c r) (h : s.step groups a = some s') :
    s'.claimStage groups c r ≤ s.claimStage groups c r := by
  by_cases hm : mustClaim (groups.consumerConfig c)
  · by_cases hnone : s.table.state c.1 r = none
    · simp only [claimStage, hm, hnone, not_true, if_false, if_true]
      split <;> [skip; split] <;> omega
    · obtain ⟨st, hst⟩ := Option.ne_none_iff_exists'.mp hnone
      obtain ⟨st', hst', -⟩ := (stable_step hi h).claimed hm hst hd'.owned.live
      have hnone' : s'.table.state c.1 r ≠ none := by simp [hst']
      have hunclaimed : s'.Unclaimed groups c r → s.Unclaimed groups c r := by
        rintro ⟨x, hx, rfl, hwant⟩
        rcases has_step hi h hx with hx | ⟨-, tx, -, hfresh⟩
        · exact ⟨x, hx, rfl, hwant⟩
        · -- what is fetched now has the state it has now
          have hstate : x.state = s.table.state c.1 x.rowKey := hfresh.spec.2.2
          have hge : st.instanceId ≥ (groups.config c.1).groupSize := hwant st (hstate.trans hst)
          have hlt : c.2 < (groups.config c.1).groupSize := hhas.2
          rw [hd.free hm st hst] at hge
          omega
      simp only [claimStage, hm, hnone, hnone', not_true, if_false]
      by_cases hu : s'.Unclaimed groups c r
      · rw [if_pos hu, if_pos (hunclaimed hu)]
      · rw [if_neg hu]
        exact Nat.zero_le _
  · simp [claimStage, hm]

theorem uncommitted_step (hi : s.Inv groups) (h : s.step groups a = some s') :
    s'.uncommitted r ⊆ s.uncommitted r := by
  intro w hw
  obtain ⟨hle, hne⟩ := Finset.mem_filter.mp hw
  exact Finset.mem_filter.mpr ⟨hle, fun hcom ↦ hne ((stable_step hi h).committed hcom)⟩

theorem unrest_step (hi : s.Inv groups) (hhas : groups.Has c)
    (hd : s.Due groups c r) (hd' : s'.Due groups c r) (h : s.step groups a = some s') :
    s'.unrest groups c r ≤ s.unrest groups c r :=
  Nat.add_le_add (claimStage_step hi hhas hd hd' h) (Finset.card_le_card (uncommitted_step hi h))

/-- When the order is not upset, the entry is not dropped. -/
theorem rowKey_ne_of_drop {n : Nat} {entry : SimpleQueueEntry} {rest : List SimpleQueueEntry}
    (ha : s.Active groups c tx) (hph : s.phase c = .claiming n (entry :: rest))
    (hwant : wantsClaim (groups.consumerConfig c) entry)
    (hsome : s.table.state c.1 entry.rowKey ≠ none) (htable : s'.table = s.table)
    (hcons : s'.consumer c = (s.consumer c).drop entry.rowKey)
    (heq : s'.claimStage groups c r = s.claimStage groups c r) : entry.rowKey ≠ r := by
  rintro rfl
  have hm := ha.mustClaim_of_claiming hph
  have hentry := (ha.todo_cons hph).1
  have hbefore : s.Unclaimed groups c entry.rowKey :=
    ⟨entry, .inr ⟨by rw [hph]; simp, hentry⟩, rfl, hwant⟩
  have hafter : ¬ s'.Unclaimed groups c entry.rowKey := by
    rintro ⟨x, hx, hkey, -⟩
    rw [Has, hcons] at hx
    rcases hx with hx | ⟨-, hx⟩
    · exact ha.disjoint _ (hkey ▸ List.mem_map_of_mem hx) (List.mem_map_of_mem hentry)
    · exact (SortedList.mem_remove.mp hx).2 hkey
  have hsome' : s'.table.state c.1 entry.rowKey ≠ none := by rw [htable]; exact hsome
  simp [claimStage, hm, hsome, hsome', hbefore, hafter] at heq

/-! ## What comes before an entry -/

/-- The consumer has the row. -/
def Held (s : State) (c : ConsumerId) (r : Row) : Prop :=
  r ∈ (s.consumer c).cachedRows ∨ (s.phase c ≠ .idle ∧ r ∈ (s.consumer c).consumingRows)

/-- Entries with larger keys do not overtake `r`, except those in `H`. -/
structure Ahead (s : State) (c : ConsumerId) (r : Row) (H : List Row) : Prop where
  consuming : s.phase c ≠ .idle → ∀ k ∈ (s.consumer c).consumingRows, r < k →
    r ∈ (s.consumer c).consumingRows ∨ k ∈ H
  cached : ¬ s.Held c r → ∀ k ∈ (s.consumer c).cachedRows, r < k → k ∈ H

/-- The consumer's transaction, if it is in one, sees the row. -/
def Sighted (s : State) (c : ConsumerId) (r : Row) : Prop :=
  s.phase c ≠ .idle → ∀ tx, (s.consumer c).transaction = some tx →
    tx.isVisible r.writePointer = true

variable {H : List Row}

/-- A step of the consumer in a transaction that moves no entries. -/
theorem Ahead.of_same (ha : s.Ahead c r H) (hcons : s'.consumer c = s.consumer c)
    (hphase : s.phase c ≠ .idle) (hphase' : s'.phase c ≠ .idle) : s'.Ahead c r H where
  consuming := fun _ k hk hlt ↦ by
    rw [hcons] at hk ⊢
    exact ha.consuming hphase k hk hlt
  cached := fun hnot k hk hlt ↦ by
    rw [hcons] at hk
    refine ha.cached (fun hheld ↦ hnot ?_) k hk hlt
    rw [Held, hcons]
    exact hheld.imp id fun h ↦ ⟨hphase', h.2⟩

/-- **Fetching keeps the order.**  Where `r` is not brought in, only smaller keys are; and what is
taken out of the cache comes before what is left there. -/
theorem ahead_fetch (hi : s.Inv groups) (hn : s.NoLoss groups c) (hd : s.Due groups c r)
    (hs : s.Sighted c r) (ha : s.Ahead c r H) (h : s.fetch groups c = some s') :
    s'.Ahead c r H := by
  obtain ⟨n, tx, hph, htx, hcase⟩ := fetch_eq_some h
  have hidle : s.phase c ≠ .idle := by rw [hph]; simp
  rcases hcase with ⟨-, rfl⟩ | ⟨-, rfl⟩
  · obtain ⟨tx', htx', hact⟩ := (hi.session c).active hidle
    obtain rfl := Option.some_inj.mp (htx.symm.trans htx')
    set config := groups.consumerConfig c with hconfig
    set result := (s.consumer c).getEntries config s.table tx n with hresult
    have hf : Fetched config s.table tx (s.consumer c) result.2 :=
      getEntries_fetched config s.table tx (s.consumer c) n
    have hsorted := (hi.session c).sorted
    have hcons : (s.setSession c (afterFetch config n result.1 result.2)).consumer c =
        result.2 := by
      rw [consumer, setSession_same, afterFetch_consumer]
    have hidle' : (s.setSession c (afterFetch config n result.1 result.2)).phase c ≠ .idle := by
      rw [phase, setSession_same]
      exact afterFetch_ne_idle config n result.1 result.2
    -- if the consumer still does not have the row, only smaller ones are new
    have hnew : r ∉ result.2.cachedRows → r ∉ result.2.consumingRows →
        ∀ k, k ∈ result.2.cachedRows ∨ k ∈ result.2.consumingRows → r < k →
          k ∈ (s.consumer c).cachedRows ∨ k ∈ (s.consumer c).consumingRows := by
      intro h1 h2 k hk hlt
      have hscan : (s.consumer c).scanStart ≤ r := by
        rcases hn.reach hd with hr | ⟨-, hr⟩ | hr
        · exact absurd (hf.kept r (.inl hr)) (not_or.mpr ⟨h1, h2⟩)
        · exact absurd (hf.consuming_kept r hr) h2
        · exact hr
      rcases answer_of_due hi hn hidle htx hact hd (hs hidle tx htx) with hr | ⟨x, rfl, hans, hx⟩
      · exact absurd (hf.consuming_kept r hr) h2
      · rcases hf.order x (hx _ hscan) hans with hin | hnew
        · exact absurd hin (not_or.mpr ⟨h1, h2⟩)
        · exact (hnew k hk).resolve_right (not_lt.mpr hlt.le)
    have hnot : r ∉ result.2.cachedRows → r ∉ result.2.consumingRows → ¬ s.Held c r := by
      rintro h1 h2 (hr | ⟨-, hr⟩)
      · exact (hf.kept r (.inl hr)).elim h1 h2
      · exact h2 (hf.consuming_kept r hr)
    refine ⟨fun _ k hk hlt ↦ ?_, fun hheld k hk hlt ↦ ?_⟩
    · rw [hcons] at hk ⊢
      by_cases hold : k ∈ (s.consumer c).consumingRows
      · exact (ha.consuming hidle k hold hlt).imp (hf.consuming_kept r) id
      by_cases h2 : r ∈ result.2.consumingRows
      · exact .inl h2
      refine .inr ?_
      by_cases h1 : r ∈ result.2.cachedRows
      · rcases getEntries_order hsorted hact.disjoint hlt h1 hk with hk | ⟨hr, hk⟩
        · exact absurd hk hold
        · refine ha.cached ?_ k hk hlt
          rintro (hr' | ⟨-, hr'⟩)
          · exact hr hr'
          · exact h2 (hf.consuming_kept r hr')
      · exact ha.cached (hnot h1 h2) k ((hnew h1 h2 k (.inr hk) hlt).resolve_right hold) hlt
    · rw [Held, hcons] at hheld
      rw [hcons] at hk
      have h1 : r ∉ result.2.cachedRows := fun h ↦ hheld (.inl h)
      have h2 : r ∉ result.2.consumingRows := fun h ↦ hheld (.inr ⟨hidle', h⟩)
      refine ha.cached (hnot h1 h2) k ((hnew h1 h2 k (.inl hk) hlt).resolve_right fun hk' ↦ ?_) hlt
      exact hf.disjoint hsorted hact.disjoint k hk (hf.consuming_kept k hk')
  · refine ha.of_same ?_ hidle ?_
    · rw [consumer, setSession_same, returned]
    · rw [phase, setSession_same, returned]
      simp

theorem ahead_claim (hi : s.Inv groups) (ha : s.Ahead c r H) (h : s.claim groups c = some s')
    (heq : s'.claimStage groups c r = s.claimStage groups c r) : s'.Ahead c r H := by
  obtain ⟨n, todo, tx, hph, htx, hcase⟩ := claim_eq_some h
  have hidle : s.phase c ≠ .idle := by rw [hph]; simp
  obtain ⟨tx', htx', hact⟩ := (hi.session c).active hidle
  rcases hcase with ⟨-, rfl⟩ | ⟨entry, rest, rfl, ⟨-, rfl⟩ | ⟨-, -, rfl⟩ | ⟨hwant, hsome, rfl⟩⟩
  · exact ha.of_same (by simp [consumer, setSession]) hidle (by simp [phase, setSession])
  · exact ha.of_same (by simp [consumer, setSession]) hidle (by simp [phase, setSession])
  · exact ha.of_same (by simp [consumer, setSession]) hidle (by simp [phase, setSession])
  · set s' := s.setSession c { s.sessions c with
      consumer := (s.consumer c).drop entry.rowKey, phase := .claiming n rest } with hs'
    have hcons : s'.consumer c = (s.consumer c).drop entry.rowKey := by
      simp [hs', consumer, setSession]
    have hidle' : s'.phase c ≠ .idle := by simp [hs', phase, setSession]
    have hne : entry.rowKey ≠ r := by
      refine rowKey_ne_of_drop hact hph hwant hsome ?_ hcons heq
      rfl
    have hrows : ∀ k, k ∈ (s'.consumer c).consumingRows ↔
        k ∈ (s.consumer c).consumingRows ∧ k ≠ entry.rowKey := by
      intro k
      rw [hcons]
      exact SortedList.mem_keys_remove
    have hcached : (s'.consumer c).cachedRows = (s.consumer c).cachedRows := by rw [hcons]; rfl
    refine ⟨fun _ k hk hlt ↦ ?_, fun hnot k hk hlt ↦ ?_⟩
    · refine (ha.consuming hidle k ((hrows k).mp hk).1 hlt).imp (fun hr ↦ ?_) id
      exact (hrows r).mpr ⟨hr, hne.symm⟩
    · rw [hcached] at hk
      refine ha.cached (fun hheld ↦ hnot ?_) k hk hlt
      rw [Held, hcached, hrows]
      exact hheld.imp id fun hr ↦ ⟨hidle', hr.2, hne.symm⟩

theorem ahead_rollbackTx (ha : s.Ahead c r H) (h : s.rollbackTx groups c = some s') :
    s'.Ahead c r H := by
  obtain ⟨tx, -, hidle, -, rfl⟩ := rollbackTx_eq_some h
  refine ⟨fun hidle' ↦ absurd (by simp [phase, setSession]) hidle', fun hnot k hk hlt ↦ ?_⟩
  simp only [Held, consumer, phase, setSession, Function.update_self, cachedRows,
    rollbackTx_entryCache, ne_eq, not_true, false_and, or_false] at hnot hk
  have hrows : ∀ k, k ∈ (SortedList.putAll rowKey (s.consumer c).consumingEntries
      (s.consumer c).entryCache).map rowKey ↔
        k ∈ (s.consumer c).consumingRows ∨ k ∈ (s.consumer c).cachedRows :=
    fun k ↦ SortedList.mem_keys_putAll
  rw [hrows] at hk hnot
  rcases hk with hk | hk
  · exact (ha.consuming hidle k hk hlt).resolve_left fun hr ↦ hnot (.inl hr)
  · exact ha.cached (fun hheld ↦ hnot (hheld.symm.imp And.right id)) k hk hlt

/-- **One step keeps the order**, while it is not upset. -/
theorem ahead_step (hi : s.Inv groups) (hn : s.NoLoss groups c)
    (hd : s.Due groups c r) (hs : s.Sighted c r) (ha : s.Ahead c r H)
    (h : s.step groups a = some s')
    (heq : s'.claimStage groups c r = s.claimStage groups c r) : s'.Ahead c r H := by
  by_cases hc : Concerns c a
  · cases a with
    | begin tx short participants =>
      obtain ⟨-, -, hall, m, -, rfl⟩ := begin_eq_some h
      have hc : c ∈ participants := hc
      have hidle := (hall c hc).2
      refine ⟨fun _ k hk _ ↦ ?_, fun hnot k hk hlt ↦ ?_⟩
      · simp only [consumer, hc, if_true, startTx, consumingRows, List.map_nil] at hk
        exact absurd hk List.not_mem_nil
      · simp only [Held, consumer, phase, hc, if_true, startTx, cachedRows, consumingRows,
          List.map_nil, List.not_mem_nil, and_false, or_false] at hnot hk
        refine ha.cached ?_ k hk hlt
        rintro (hr | ⟨hne, -⟩)
        · exact hnot hr
        · exact hne hidle
    | dequeue c' n =>
      obtain rfl : c' = c := hc
      simp only [step, dequeue] at h
      split at h
      · rename_i hph
        obtain rfl := Option.some_inj.mp h
        exact ha.of_same (by simp [consumer, setSession]) (by rw [hph.1]; simp)
          (by simp [phase, setSession])
      · exact absurd h (by simp)
    | fetch c' =>
      obtain rfl : c' = c := hc
      exact ahead_fetch hi hn hd hs ha h
    | claim c' =>
      obtain rfl : c' = c := hc
      exact ahead_claim hi ha h heq
    | commitTx c' =>
      obtain rfl : c' = c := hc
      obtain ⟨tx, hph, -, rfl⟩ := commitTx_eq_some h
      refine ⟨fun _ k hk hlt ↦ ?_, fun hnot k hk hlt ↦ ?_⟩
      · simp only [consumer, setSession, Function.update_self, consumingRows,
          commitTx_consumer] at hk ⊢
        exact ha.consuming (by rw [hph]; simp) k hk hlt
      · simp only [Held, consumer, phase, setSession, Function.update_self, cachedRows,
          consumingRows, commitTx_consumer] at hnot hk
        exact ha.cached (fun hheld ↦ hnot (hheld.imp id fun hr ↦ ⟨by simp, hr.2⟩)) k hk hlt
    | postTxCommit c' saved =>
      obtain rfl : c' = c := hc
      obtain ⟨tx, hph, htx, hst, rfl⟩ := postTxCommit_eq_some h
      obtain ⟨tx', htx', hact⟩ := (hi.session c').active (by rw [hph]; simp)
      obtain rfl := Option.some_inj.mp (htx.symm.trans htx')
      refine ⟨fun hidle ↦ absurd (by simp [phase, setSession]) hidle, fun hnot k hk hlt ↦ ?_⟩
      simp only [Held, consumer, phase, setSession, Function.update_self, cachedRows,
        hbasePostTxCommit_entryCache, ne_eq, not_true, false_and, or_false] at hnot hk
      refine ha.cached ?_ k hk hlt
      rintro (hr | ⟨-, hr⟩)
      · exact hnot hr
      · exact not_due_of_consuming hact hph hst hr hd
    | rollbackTx c' =>
      obtain rfl : c' = c := hc
      exact ahead_rollbackTx ha h
    | restart c' close =>
      obtain rfl : c' = c := hc
      obtain rfl := Option.some_inj.mp h
      refine ⟨fun hidle ↦ absurd (by simp [phase, setSession]) hidle, fun _ k hk _ ↦ ?_⟩
      simp only [consumer, setSession, Function.update_self, create, cachedRows,
        List.map_nil] at hk
      exact absurd hk List.not_mem_nil
    | _ => exact absurd hc id
  · have hq := quiet_step hi h hc
    refine ⟨fun hidle ↦ ?_, fun hnot ↦ ?_⟩
    · rw [phase, hq.session] at hidle
      rw [consumer, hq.session]
      exact ha.consuming hidle
    · rw [Held, consumer, phase, hq.session] at hnot
      rw [consumer, hq.session]
      exact ha.cached hnot

/-! ## Every transaction sees the entry -/

/-- A consumer's transaction is the one it was in, or it begins. -/
theorem transaction_step (hi : s.Inv groups) (h : s.step groups a = some s')
    (hidle : s'.phase c ≠ .idle) :
    (∃ tx short participants, a = .begin tx short participants ∧
      (s'.consumer c).transaction = some tx) ∨
    (s.phase c ≠ .idle ∧ (s'.consumer c).transaction = (s.consumer c).transaction) := by
  by_cases hc : Concerns c a
  · cases a with
    | begin tx short participants =>
      obtain ⟨-, -, -, m, -, rfl⟩ := begin_eq_some h
      have hc : c ∈ participants := hc
      exact .inl ⟨tx, short, participants, rfl, by simp [consumer, hc, startTx]⟩
    | dequeue c' n =>
      obtain rfl : c' = c := hc
      simp only [step, dequeue] at h
      split at h
      · rename_i hph
        obtain rfl := Option.some_inj.mp h
        exact .inr ⟨by rw [hph.1]; simp, by simp [consumer, setSession]⟩
      · exact absurd h (by simp)
    | fetch c' =>
      obtain rfl : c' = c := hc
      obtain ⟨n, tx, hph, -, ⟨-, rfl⟩ | ⟨-, rfl⟩⟩ := fetch_eq_some h
      · refine .inr ⟨by rw [hph]; simp, ?_⟩
        rw [consumer, setSession_same, afterFetch_consumer]
        exact (getEntries_fetched _ _ _ _ _).transaction
      · exact .inr ⟨by rw [hph]; simp, by simp [consumer, setSession, returned]⟩
    | claim c' =>
      obtain rfl : c' = c := hc
      obtain ⟨n, todo, tx, hph, -, ⟨-, rfl⟩ | ⟨_, _, -, ⟨-, rfl⟩ | ⟨-, -, rfl⟩ | ⟨-, -, rfl⟩⟩⟩ :=
        claim_eq_some h
      all_goals exact .inr ⟨by rw [hph]; simp, by simp [consumer, setSession, drop]⟩
    | commitTx c' =>
      obtain rfl : c' = c := hc
      obtain ⟨tx, hph, -, rfl⟩ := commitTx_eq_some h
      exact .inr ⟨by rw [hph]; simp, by simp [consumer, setSession, commitTx_consumer]⟩
    | postTxCommit c' saved =>
      obtain rfl : c' = c := hc
      obtain ⟨tx, -, -, -, rfl⟩ := postTxCommit_eq_some h
      exact absurd (by simp [phase, setSession]) hidle
    | rollbackTx c' =>
      obtain rfl : c' = c := hc
      obtain ⟨tx, -, -, -, rfl⟩ := rollbackTx_eq_some h
      exact absurd (by simp [phase, setSession]) hidle
    | restart c' close =>
      obtain rfl : c' = c := hc
      obtain rfl := Option.some_inj.mp h
      exact absurd (by simp [phase, setSession]) hidle
    | _ => exact absurd hc id
  · have hq := quiet_step hi h hc
    rw [phase, hq.session] at hidle
    exact .inr ⟨hidle, by rw [consumer, hq.session]⟩

/-- What is committed is seen by every transaction that begins. -/
theorem sighted_step (hi : s.Inv groups)
    (hr : s.manager.statusOf r.writePointer = some .committed) (hs : s.Sighted c r)
    (h : s.step groups a = some s') : s'.Sighted c r := by
  intro hidle tx htx
  rcases transaction_step hi h hidle with ⟨tx', short, participants, rfl, htx'⟩ | ⟨hidle, heq⟩
  · obtain rfl := Option.some_inj.mp (htx.symm.trans htx')
    obtain ⟨hsnap, -⟩ := begin_eq_some h
    exact hsnap.committed _ (Manager.statusOf_le_last hr) hr
  · exact hs hidle tx (heq ▸ htx)

/-! ## What the transactions process -/

/-- The transactions of the consumer that are not in `C` processed entries that come before `r`, or
are in `H`. -/
def CyclesBefore (s : State) (c : ConsumerId) (r : Row) (H : List Row) (C : List Transaction) :
    Prop :=
  ∀ tx ∈ s.cycles c, tx ∈ C ∨
    ∃ k, (tx.writePointer, k) ∈ s.log c.1 ∧ (k < r ∨ k ∈ H)

theorem cyclesBefore_step {C : List Transaction} (hp : s.Progress groups c)
    (hd : s.Due groups c r) (hd' : s'.Due groups c r) (hs : s.Sighted c r) (ha : s.Ahead c r H)
    (hc : s.CyclesBefore c r H C) (h : s.step groups a = some s') : s'.CyclesBefore c r H C := by
  intro tx htx
  rcases manager_step h with ⟨w, rfl⟩ | ⟨-, hcycles, -⟩
  · have hstep := h
    obtain ⟨-, hpers, m, hm, rfl⟩ := commit_eq_some h
    rcases List.mem_append.mp htx with htx | htx
    · exact (hc tx htx).imp id fun ⟨k, hk, hlt⟩ ↦ ⟨k, log_mono hstep hk, hlt⟩
    · rw [cycled] at htx
      split at htx
      · rename_i hcond
        obtain ⟨tx', htx', hw, hact⟩ := hp.inv.active_of_hasPersisted (hpers c hcond.1)
        rw [htx', Option.toList_some, List.mem_singleton] at htx
        subst htx
        have hph := (hpers c hcond.1).1
        have hidle : s.phase c ≠ .idle := by rw [hph]; simp
        -- the entry itself is not among those that are processed now
        have hnot : r ∉ (s.consumer c).consumingRows := by
          intro hr
          have hst := hact.processed hph r hr hd.owned.live
          refine hd'.unprocessed ⟨_, hst, rfl, ?_⟩
          show m.statusOf _ = _
          rw [hw, Manager.statusOf_finish hm, if_pos rfl]
        -- and since it is visible, there is another
        rcases hp.session.drained hcond.2 htx' with hne | hall
        · obtain ⟨x, hx⟩ := List.exists_mem_of_ne_nil _ hne
          have hmem : x.rowKey ∈ (s.consumer c).consumingRows := List.mem_map_of_mem hx
          refine .inr ⟨x.rowKey, ?_, ?_⟩
          · refine List.mem_append_right _ (List.mem_flatMap.mpr ⟨c, ?_, ?_⟩)
            · exact List.mem_filter.mpr ⟨hcond.1, by simp⟩
            · exact List.mem_map.mpr ⟨x.rowKey, hmem, by rw [hw]⟩
          · rcases lt_trichotomy x.rowKey r with hlt | heq | hgt
            · exact .inl hlt
            · exact absurd (heq ▸ hmem) hnot
            · exact .inr ((ha.consuming hidle _ hmem hgt).resolve_left hnot)
        · exact absurd (hall r hd) (by simp [hs hidle _ htx'])
      · exact absurd htx List.not_mem_nil
  · rw [hcycles] at htx
    exact (hc tx htx).imp id fun ⟨k, hk, hlt⟩ ↦ ⟨k, log_mono h hk, hlt⟩

/-- There are no more transactions than the entries they process. -/
theorem CyclesBefore.length_le {C : List Transaction} {R : List Row} (hp : s.Progress groups c)
    (hc : s.CyclesBefore c r H C)
    (hR : ∀ {w k}, (w, k) ∈ s.log c.1 → k < r → k ∈ R) :
    (s.cycles c).length ≤ C.length + (R ++ H).length := by
  let writer : Row → Nat := fun k ↦ ((s.table.state c.1 k).map StateContent.writePointer).getD 0
  have hsub : (s.cycles c).map Transaction.writePointer ⊆
      C.map Transaction.writePointer ++ (R ++ H).map writer := by
    intro w hw
    obtain ⟨tx, htx, rfl⟩ := List.mem_map.mp hw
    rcases hc tx htx with hC | ⟨k, hk, hlt⟩
    · exact List.mem_append_left _ (List.mem_map_of_mem hC)
    · obtain ⟨i, hst, -⟩ := hp.unevicted.cell_of_log hp.inv hk
      refine List.mem_append_right _ (List.mem_map.mpr ⟨k, ?_, by simp [writer, hst]⟩)
      rcases hlt with hlt | hH
      · exact List.mem_append_left _ (hR hk hlt)
      · exact List.mem_append_right _ hH
  have hle := (hp.cycles.nodup.subperm hsub).length_le
  simpa using hle

/-! ## Liveness -/

/-- **An entry that stays due is overtaken only finitely often.**  In an infinite run in which the
condition is met at every step, and `r` is due to `c` all the time, only finitely many transactions
commit in which a call of `dequeue` of `c` returned. -/
theorem cycles_bounded {ρ : Nat → State} (h : Lts.Trace (step groups) (ProgressOk groups c) ρ)
    (hp : (ρ 0).Progress groups c) (hhas : groups.Has c) (hidle : (ρ 0).phase c = .idle)
    (hd : ∀ k, (ρ k).Due groups c r) : ∃ N, ∀ k, ((ρ k).cycles c).length ≤ N := by
  have hprog : ∀ k, (ρ k).Progress groups c := fun k ↦ by
    obtain ⟨as, hrun⟩ := h.run (Nat.zero_le k)
    exact progress_run hp hrun
  have hstep : ∀ k, ∃ a, (ρ k).step groups a = some (ρ (k + 1)) := fun k ↦ by
    obtain ⟨a, -, hstep⟩ := h k
    exact ⟨a, hstep⟩
  have hsight : ∀ k, (ρ k).Sighted c r := fun k ↦
    h.invariant (I := fun k ↦ (ρ k).Sighted c r) (Nat.zero_le k)
      (fun j a _ hs _ hstep ↦ sighted_step (hprog j).inv (hd j).committed hs hstep)
      fun hne ↦ absurd hidle hne
  -- from some point on, the order is not upset any more
  obtain ⟨i, hi⟩ := Lts.exists_forall_ge_eq (fun k ↦ (ρ k).unrest groups c r) fun k ↦ by
    obtain ⟨a, hstep⟩ := hstep k
    exact unrest_step (hprog k).inv hhas (hd k) (hd (k + 1)) hstep
  have hcalm : ∀ j, i ≤ j → (ρ (j + 1)).claimStage groups c r = (ρ j).claimStage groups c r ∧
      (ρ (j + 1)).uncommitted r = (ρ j).uncommitted r := by
    intro j hij
    obtain ⟨a, hstep⟩ := hstep j
    have h1 := claimStage_step (hprog j).inv hhas (hd j) (hd (j + 1)) hstep
    have hsub := uncommitted_step (r := r) (hprog j).inv hstep
    have h2 := Finset.card_le_card hsub
    have heq := (hi (j + 1) (Nat.le_succ_of_le hij)).trans (hi j hij).symm
    simp only [unrest] at heq
    exact ⟨by omega, Finset.eq_of_subset_of_card_le hsub (by omega)⟩
  let H := ((ρ i).consumer c).cachedRows ++ ((ρ i).consumer c).consumingRows
  have hboth : ∀ j, i ≤ j → (ρ j).Ahead c r H ∧ (ρ j).CyclesBefore c r H ((ρ i).cycles c) ∧
      (ρ j).uncommitted r = (ρ i).uncommitted r := by
    intro j hij
    refine h.invariant (I := fun j ↦ (ρ j).Ahead c r H ∧
        (ρ j).CyclesBefore c r H ((ρ i).cycles c) ∧ (ρ j).uncommitted r = (ρ i).uncommitted r) hij
      (fun k a hik ⟨ha, hc, hu⟩ _ hstep ↦ ⟨?_, ?_, (hcalm k hik).2.trans hu⟩) ⟨⟨?_, ?_⟩, ?_, rfl⟩
    · exact ahead_step (hprog k).inv (hprog k).noLoss (hd k) (hsight k) ha hstep (hcalm k hik).1
    · exact cyclesBefore_step (hprog k) (hd k) (hd (k + 1)) (hsight k) ha hc hstep
    · exact fun _ k hk _ ↦ .inr (List.mem_append_right _ hk)
    · exact fun _ k hk _ ↦ List.mem_append_left _ hk
    · exact fun tx htx ↦ .inl htx
  refine ⟨((ρ i).cycles c).length + ((ρ i).table.rows ++ H).length, fun j ↦ ?_⟩
  by_cases hij : i ≤ j
  · obtain ⟨-, hc, hu⟩ := hboth j hij
    refine hc.length_le (hprog j) fun {w k} hk hlt ↦ ?_
    -- a row before `r` that was processed was committed, and there, when the order came to rest
    obtain ⟨-, hcom, -⟩ := (hprog j).inv.log hk
    have hcom' : (ρ i).manager.statusOf k.writePointer = some .committed := by
      by_contra hne
      have hmem : k.writePointer ∈ (ρ i).uncommitted r := by
        refine Finset.mem_filter.mpr ⟨Finset.mem_range.mpr ?_, hne⟩
        exact Nat.lt_succ_of_le (Row.writePointer_mono hlt.le)
      rw [← hu] at hmem
      exact (Finset.mem_filter.mp hmem).2 hcom
    obtain ⟨as, hrun⟩ := h.run hij
    have hlive := (stable_run (hprog i).inv hrun).live_of hcom' ((hprog j).unevicted.log hk)
    exact (ρ i).table.mem_rows.mpr hlive
  · have hmono : ((ρ j).cycles c).length ≤ ((ρ i).cycles c).length := by
      refine h.invariant (I := fun k ↦ ((ρ j).cycles c).length ≤ ((ρ k).cycles c).length)
        (Nat.le_of_not_le hij) (fun k a _ hle _ hstep ↦ ?_) (Nat.le_refl _)
      rcases manager_step hstep with ⟨w, rfl⟩ | ⟨-, hcycles, -⟩
      · obtain ⟨-, -, m, -, heq⟩ := commit_eq_some hstep
        rw [heq]
        simp only [List.length_append]
        omega
      · rw [hcycles]
        exact hle
    omega

end State
end Tigon
