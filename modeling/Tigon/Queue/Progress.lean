import Tigon.Queue.Exclusive
import Tigon.Queue.Termination

/-!
# Progress

A call of `dequeue` that comes back with fewer entries than asked for has found everything there
is (`consuming_of_returned`).  So a transaction in which a call returned is `Drained`: it has
something to process, or nothing that is due is visible to it.  `Progress` collects this with all
that is known of a consumer in a run in which it loses nothing.

Its parts are kept for reasons of their own, and are proved before; only together do they say that a
consumer gets on.
-/

set_option autoImplicit false

open Mvcc

namespace Tigon
namespace State

open Consumer SimpleQueueEntry

variable {groups : Groups} {s s' : State} {c : ConsumerId} {r : Row} {tx : Transaction}

/-! ## What a call of `dequeue` returns -/

/-- **A call of `dequeue` returns what it was asked for, or all there is.** -/
theorem consuming_of_returned (hi : s.Inv groups) (hn : s.NoLoss groups c)
    (h : s.fetch groups c = some s') (hph' : s'.phase c = .ready) :
    ∃ n tx, s.phase c = .fetching n ∧ (s.consumer c).transaction = some tx ∧
      (s'.consumer c).transaction = some tx ∧
      (n ≤ (s'.consumer c).consumingEntries.length ∨
        ∀ r, s.Due groups c r → tx.isVisible r.writePointer = true →
          r ∈ (s'.consumer c).consumingRows) := by
  obtain ⟨n, tx, hph, htx, hcase⟩ := fetch_eq_some h
  have hidle : s.phase c ≠ .idle := by rw [hph]; simp
  obtain ⟨tx', htx', ha⟩ := (hi.session c).active hidle
  obtain rfl := Option.some_inj.mp (htx.symm.trans htx')
  refine ⟨n, tx, hph, htx, ?_⟩
  rcases hcase with ⟨hlt, rfl⟩ | ⟨hle, rfl⟩
  · set config := groups.consumerConfig c with hconfig
    set result := (s.consumer c).getEntries config s.table tx n with hresult
    have hf : Fetched config s.table tx (s.consumer c) result.2 :=
      getEntries_fetched config s.table tx (s.consumer c) n
    have hfalse : result.1 = false := by
      refine Bool.eq_false_iff.mpr fun htrue ↦ ?_
      simp only [phase, setSession, Function.update_self, afterFetch, htrue, if_true] at hph'
      split at hph' <;> exact absurd hph' (by simp)
    obtain ⟨-, hcons, hempty, hall⟩ := getEntries_eq_false hlt hfalse
    have hconsumer : (s.setSession c (afterFetch config n result.1 result.2)).consumer c =
        result.2 := by
      simp only [consumer, setSession, Function.update_self, afterFetch_consumer]
    rw [hconsumer]
    refine ⟨hf.transaction.trans htx, .inr fun r hd hvis ↦ ?_⟩
    have hrows : result.2.consumingRows = (s.consumer c).consumingRows := by
      rw [consumingRows, consumingRows, hcons]
    rw [hrows]
    rcases hn.reach hd with hr | ⟨-, hr⟩ | hr
    · rw [cachedRows, hempty] at hr
      exact absurd hr List.not_mem_nil
    · exact hr
    · rcases answer_of_due hi hn hidle htx ha hd hvis with hr' | ⟨x, rfl, hans, hx⟩
      · exact hr'
      · exact hall x (hx _ hr) hans
  · have hconsumer : (s.setSession c (returned (s.consumer c))).consumer c = s.consumer c := by
      simp only [consumer, setSession, Function.update_self, returned]
    rw [hconsumer]
    exact ⟨htx, .inl hle⟩

/-! ## Transactions that commit -/

/-- The transaction has something to process, or it sees nothing that is due. -/
def Drained (groups : Groups) (s : State) (c : ConsumerId) (tx : Transaction) : Prop :=
  (s.consumer c).consumingEntries ≠ [] ∨
    ∀ r, s.Due groups c r → tx.isVisible r.writePointer = false

/-- A call of `dequeue` in progress asks for something, and when one has returned, the transaction
is drained. -/
structure SessionProgress (groups : Groups) (s : State) (c : ConsumerId) : Prop where
  batch : ∀ {n : Nat}, (s.phase c = .fetching n ∨ ∃ todo, s.phase c = .claiming n todo) → 0 < n
  returned : (s.sessions c).dequeued = true → s.phase c = .ready ∨ s.phase c = .persisted
  drained : ∀ {tx : Transaction}, (s.sessions c).dequeued = true →
    (s.consumer c).transaction = some tx → s.Drained groups c tx

/-- What is due now was due before, if the transaction sees it. -/
theorem Due.before_of_visible {a : Action} (hi : s.Inv groups) (h : s.step groups a = some s')
    (hs : Sees s.manager tx) (hvis : tx.isVisible r.writePointer = true)
    (hd : s'.Due groups c r) : s.Due groups c r := by
  rcases hd.before hi h with hd | hp
  · exact hd
  · exact absurd (hs.not_visible hp) (by simp [hvis])

/-- Nothing becomes due that the transaction sees. -/
theorem Drained.step {a : Action} (hi : s.Inv groups) (h : s.step groups a = some s')
    (hs : Sees s.manager tx)
    (hcons : (s'.consumer c).consumingEntries = (s.consumer c).consumingEntries)
    (hd : s.Drained groups c tx) : s'.Drained groups c tx := by
  rcases hd with hd | hd
  · exact .inl (by rw [hcons]; exact hd)
  · refine .inr fun r hdue ↦ Bool.eq_false_iff.mpr fun hvis ↦ ?_
    exact absurd (hd r (hdue.before_of_visible hi h hs hvis)) (by simp [hvis])

/-- A session that has not had a call return, or is between transactions, has nothing to show. -/
theorem SessionProgress.of_not_dequeued (hd : (s.sessions c).dequeued = false)
    (hb : ∀ {n : Nat}, (s.phase c = .fetching n ∨ ∃ todo, s.phase c = .claiming n todo) → 0 < n) :
    s.SessionProgress groups c where
  batch := hb
  returned := fun h ↦ absurd h (by simp [hd])
  drained := fun h ↦ absurd h (by simp [hd])

theorem sessionProgress_fetch (hi : s.Inv groups) (hn : s.NoLoss groups c)
    (h : s.fetch groups c = some s') (hp : s.SessionProgress groups c) :
    s'.SessionProgress groups c := by
  have hret := consuming_of_returned hi hn h
  have hdue := fun {r : Row} (hd : s'.Due groups c r) ↦
    hd.before' hi (a := .fetch c) h (by simp)
  obtain ⟨n, tx, hph, htx, hcase⟩ := fetch_eq_some h
  have hpos : 0 < n := hp.batch (.inl hph)
  -- the call goes on, or it has returned
  have hcases : (∃ consumer todo, s'.sessions c = ⟨consumer, .claiming n todo, false⟩) ∨
      (∃ consumer, s'.sessions c = ⟨consumer, .fetching n, false⟩) ∨
      ∃ consumer, s'.sessions c = State.returned consumer := by
    rcases hcase with ⟨-, rfl⟩ | ⟨-, rfl⟩
    · rw [setSession_same, afterFetch]
      split
      · split
        · exact .inl ⟨_, _, rfl⟩
        · exact .inr (.inl ⟨_, rfl⟩)
      · exact .inr (.inr ⟨_, rfl⟩)
    · exact .inr (.inr ⟨_, setSession_same _⟩)
  rcases hcases with ⟨consumer, todo, hsess⟩ | ⟨consumer, hsess⟩ | ⟨consumer, hsess⟩
  · refine .of_not_dequeued (by rw [hsess]) ?_
    rw [phase, hsess]
    intro m hm
    rcases hm with hm | ⟨todo, hm⟩
    · exact absurd hm (by simp)
    · obtain ⟨rfl, -⟩ := Phase.claiming.inj hm
      exact hpos
  · refine .of_not_dequeued (by rw [hsess]) ?_
    rw [phase, hsess]
    intro m hm
    rcases hm with hm | ⟨todo, hm⟩
    · obtain rfl := Phase.fetching.inj hm
      exact hpos
    · exact absurd hm (by simp)
  · have hready : s'.phase c = .ready := by rw [phase, hsess, State.returned]
    refine ⟨?_, fun _ ↦ .inl hready, fun {tx'} _ htx' ↦ ?_⟩
    · rw [hready]
      rintro m (hm | ⟨todo, hm⟩) <;> exact absurd hm (by simp)
    · obtain ⟨n', tx'', hph', -, htx'', hret⟩ := hret hready
      obtain rfl := Option.some_inj.mp (htx'.symm.trans htx'')
      obtain rfl := Phase.fetching.inj (hph.symm.trans hph')
      rcases hret with hle | hall
      · refine .inl fun hnil ↦ ?_
        rw [hnil, List.length_nil] at hle
        omega
      · by_cases hnil : (s'.consumer c).consumingEntries = []
        · refine .inr fun r hd ↦ Bool.eq_false_iff.mpr fun hvis ↦ ?_
          have := hall r (hdue hd) hvis
          rw [consumingRows, hnil] at this
          exact absurd this List.not_mem_nil
        · exact .inl hnil

theorem sessionProgress_step {a : Action} (hi : s.Inv groups) (hn : s.NoLoss groups c)
    (h : s.step groups a = some s') (hp : s.SessionProgress groups c) :
    s'.SessionProgress groups c := by
  -- a session that stays as it is stays drained
  have hsame : s'.sessions c = s.sessions c → s'.SessionProgress groups c := by
    intro hsess
    refine ⟨?_, ?_, fun {tx} hd htx ↦ ?_⟩
    · rw [phase, hsess]; exact hp.batch
    · rw [phase, hsess]; exact hp.returned
    · rw [hsess] at hd
      rw [consumer, hsess] at htx
      have hidle : s.phase c ≠ .idle := by
        rcases hp.returned hd with h | h <;> rw [h] <;> simp
      obtain ⟨tx', htx', ha⟩ := (hi.session c).active hidle
      obtain rfl := Option.some_inj.mp (htx.symm.trans htx')
      exact (hp.drained hd htx).step hi h ha.sees (by rw [consumer, hsess])
  by_cases hc : Concerns c a
  · cases a with
    | begin tx short participants =>
      obtain ⟨-, -, -, m, -, rfl⟩ := begin_eq_some h
      have hc : c ∈ participants := hc
      refine .of_not_dequeued (by simp [hc]) ?_
      simp [phase, hc]
    | dequeue c' n =>
      obtain rfl : c' = c := hc
      simp only [step, dequeue] at h
      split at h
      · rename_i hn
        obtain rfl := Option.some_inj.mp h
        refine .of_not_dequeued (by simp [setSession]) ?_
        simp only [phase, setSession, Function.update_self, Phase.fetching.injEq]
        rintro m (rfl | ⟨todo, hm⟩)
        · exact hn.2
        · exact absurd hm (by simp)
      · exact absurd h (by simp)
    | fetch c' =>
      obtain rfl : c' = c := hc
      exact sessionProgress_fetch hi hn h hp
    | claim c' =>
      obtain rfl : c' = c := hc
      obtain ⟨n, todo, tx, hph, htx, hcase⟩ := claim_eq_some h
      have hpos : 0 < n := hp.batch (.inr ⟨todo, hph⟩)
      have hnd : (s.sessions c').dequeued = false := by
        refine Bool.eq_false_iff.mpr fun hd ↦ ?_
        rcases hp.returned hd with h | h <;> rw [hph] at h <;> exact absurd h (by simp)
      rcases hcase with ⟨-, rfl⟩ | ⟨entry, rest, -, ⟨-, rfl⟩ | ⟨-, -, rfl⟩ | ⟨-, -, rfl⟩⟩
      all_goals
        refine .of_not_dequeued (by simp [setSession, hnd]) ?_
        simp only [phase, setSession, Function.update_self, Phase.fetching.injEq,
          Phase.claiming.injEq]
        rintro m (hm | ⟨todo', hm⟩)
      · exact hm ▸ hpos
      · exact absurd hm (by simp)
      · exact absurd hm (by simp)
      · exact hm.1 ▸ hpos
      · exact absurd hm (by simp)
      · exact hm.1 ▸ hpos
      · exact absurd hm (by simp)
      · exact hm.1 ▸ hpos
    | commitTx c' =>
      obtain rfl : c' = c := hc
      have hstep := h
      obtain ⟨tx, hph, htx, rfl⟩ := commitTx_eq_some h
      obtain ⟨tx', htx', ha⟩ := (hi.session c').active (by rw [hph]; simp)
      obtain rfl := Option.some_inj.mp (htx.symm.trans htx')
      refine ⟨?_, fun _ ↦ .inr (by simp [phase, setSession]), fun {tx'} hd htx'' ↦ ?_⟩
      · simp [phase, setSession]
      · simp only [setSession, Function.update_self] at hd
        simp only [consumer, setSession, Function.update_self, commitTx_consumer] at htx''
        obtain rfl := Option.some_inj.mp (htx.symm.trans htx'')
        refine (hp.drained hd htx).step hi hstep ha.sees ?_
        simp [consumer, setSession, commitTx_consumer]
    | postTxCommit c' saved =>
      obtain rfl : c' = c := hc
      obtain ⟨tx, -, -, -, rfl⟩ := postTxCommit_eq_some h
      refine .of_not_dequeued (by simp [setSession]) ?_
      simp [phase, setSession]
    | rollbackTx c' =>
      obtain rfl : c' = c := hc
      obtain ⟨tx, -, -, -, rfl⟩ := rollbackTx_eq_some h
      refine .of_not_dequeued (by simp [setSession]) ?_
      simp [phase, setSession]
    | restart c' close =>
      obtain rfl : c' = c := hc
      obtain rfl := Option.some_inj.mp h
      refine .of_not_dequeued (by simp [setSession]) ?_
      simp [phase, setSession]
    | _ => exact absurd hc id
  · exact hsame (quiet_step hi h hc).session

/-! ## Counting the transactions -/

/-- The books on the committed transactions in which a call of `dequeue` returned: no transaction is
entered twice. -/
structure Cycles (s : State) (c : ConsumerId) : Prop where
  nodup : ((s.cycles c).map Transaction.writePointer).Nodup
  committed : ∀ tx ∈ s.cycles c, s.manager.statusOf tx.writePointer = some .committed

theorem cycles_step {a : Action} (hi : s.Inv groups) (hc : s.Cycles c)
    (h : s.step groups a = some s') : s'.Cycles c := by
  rcases manager_step h with ⟨w, rfl⟩ | ⟨-, hcycles, -⟩
  · have hstep := h
    obtain ⟨-, hpers, m, hm, rfl⟩ := commit_eq_some h
    have hnew : ∀ tx ∈ s.cycled w c, tx.writePointer = w := by
      intro tx htx
      rw [cycled] at htx
      split at htx
      · rename_i hcond
        obtain ⟨tx', htx', hw, -⟩ := hi.active_of_hasPersisted (hpers c hcond.1)
        rw [htx', Option.toList_some, List.mem_singleton] at htx
        exact htx ▸ hw
      · exact absurd htx List.not_mem_nil
    -- the transaction that commits was not committed before
    have hfresh : s.manager.statusOf w ≠ some .committed := by
      intro hcom
      obtain ⟨i, hinfo, hcan, -⟩ := Manager.finish?_eq_some_iff.mp hm
      rw [Manager.statusOf, hinfo, Option.map_some, Option.some_inj] at hcom
      rw [hcom] at hcan
      exact absurd hcan (by simp [Status.canBecome])
    refine ⟨?_, fun tx htx ↦ ?_⟩
    · rw [List.map_append, List.nodup_append]
      refine ⟨hc.nodup, ?_, ?_⟩
      · rw [cycled]
        split
        · cases (s.consumer c).transaction <;> simp
        · simp
      · rintro v hv v' hv' rfl
        obtain ⟨tx, htx, rfl⟩ := List.mem_map.mp hv
        obtain ⟨tx', htx', hw⟩ := List.mem_map.mp hv'
        rw [hnew tx' htx'] at hw
        exact hfresh (hw ▸ hc.committed tx htx)
    · rcases List.mem_append.mp htx with htx | htx
      · exact (stable_step hi hstep).committed (hc.committed tx htx)
      · show m.statusOf _ = _
        rw [hnew tx htx, Manager.statusOf_finish hm, if_pos rfl]
  · have heq : s'.cycles c = s.cycles c := congrFun hcycles c
    refine ⟨by rw [heq]; exact hc.nodup, fun tx htx ↦ ?_⟩
    exact (stable_step hi h).committed (hc.committed tx (heq ▸ htx))

/-- What the log speaks of was processed, by the transaction it names. -/
theorem Unevicted.cell_of_log (hi : s.Inv groups) (hu : s.Unevicted) {g w : Nat}
    (h : (w, r) ∈ s.log g) : ∃ i, s.table.state g r = some ⟨w, i, .processed⟩ ∧
      s.manager.statusOf w = some .committed := by
  obtain ⟨hw, -, hcell⟩ := hi.log h
  obtain ⟨i, hst⟩ := hcell (hu.log h)
  exact ⟨i, hst, hw⟩

/-! ## Runs -/

/-- The condition under which the consumer makes progress: it loses nothing while it lives, and no
row is evicted. -/
def ProgressOk (groups : Groups) (c : ConsumerId) (s : State) (a : Action) : Prop :=
  LifetimeOk groups c s a ∧ NoEvict s a

instance (groups : Groups) (c : ConsumerId) (s : State) (a : Action) :
    Decidable (ProgressOk groups c s a) := by
  unfold ProgressOk; infer_instance

/-- All that is known of a consumer that makes progress. -/
structure Progress (groups : Groups) (s : State) (c : ConsumerId) : Prop where
  inv : s.Inv groups
  unevicted : s.Unevicted
  behind : s.Behind c
  noLoss : s.NoLoss groups c
  settled : s.Settled groups c
  session : s.SessionProgress groups c
  cycles : s.Cycles c

theorem progress_init (groups : Groups) (c : ConsumerId) : State.init.Progress groups c where
  inv := inv_init groups
  unevicted := unevicted_init
  behind := behind_init c
  noLoss := (noLoss_init groups c).1
  settled := settled_init groups c
  session := .of_not_dequeued rfl (by simp [init])
  cycles := ⟨List.nodup_nil, by simp [init]⟩

theorem progress_step {a : Action} (hp : s.Progress groups c) (hok : ProgressOk groups c s a)
    (h : s.step groups a = some s') : s'.Progress groups c where
  inv := inv_step hp.inv h
  unevicted := unevicted_step hp.inv hp.unevicted hok.2 h
  behind := behind_step hp.inv hp.behind h
  noLoss := noLoss_step hp.inv hp.behind hp.noLoss hok.1 h
  settled := settled_step hp.inv hp.settled h
  session := sessionProgress_step hp.inv hp.noLoss h hp.session
  cycles := cycles_step hp.inv hp.cycles h

theorem progress_run {as : List Action} (hp : s.Progress groups c)
    (h : Lts.Run (step groups) (ProgressOk groups c) s as s') : s'.Progress groups c :=
  h.invariant (I := fun s ↦ s.Progress groups c)
    (fun hp hok hstep ↦ progress_step hp hok hstep) hp

end State
end Tigon
