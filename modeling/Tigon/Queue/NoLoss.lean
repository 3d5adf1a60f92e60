import Tigon.Queue.Behind

/-!
# Nothing is lost

An entry that is `Due` to a consumer is to be found: it is cached, or being consumed, or the next
scan starts at or before it (`NoLoss.reach`).  The claim loop can break this.  An entry keeps the
state it was fetched with, so an entry that the consumer claimed before, and that is consumed again
after a rollback or in a later round, is claimed a second time; that fails, and the entry is
dropped.  `ClaimOk` is the condition on a step of the claim loop under which this does no harm.

Where a consumer starts after it was closed is another matter (`StartOk`).  A committed
transaction moves the start row up to the scan start row, or to an entry it has consumed, and does
not look whether there are entries before that in the cache; `PostCommitOk` is the condition under
which there are none.

Both invariants are about one consumer, and the conditions are on its steps alone.
-/

set_option autoImplicit false

open Mvcc

namespace Tigon
namespace State

open Consumer SimpleQueueEntry

variable {groups : Groups} {s s' : State} {c : ConsumerId} {r : Row} {tx : Transaction}

/-! ## The conditions on steps -/

/-- If the claim loop of `c` is about to claim an entry that `c` has claimed already, then it did so
in an earlier transaction, and the next scan will find the entry again. -/
def ClaimOk (groups : Groups) (s : State) (c : ConsumerId) : Prop :=
  match s.phase c, (s.consumer c).transaction with
  | .claiming _ (entry :: _), some tx =>
    wantsClaim (groups.consumerConfig c) entry →
      ∀ st ∈ s.table.state c.1 entry.rowKey, st.instanceId = c.2 →
        st.writePointer ≠ tx.writePointer ∧ (s.consumer c).scanStart ≤ entry.rowKey
  | _, _ => True

instance (groups : Groups) (s : State) (c : ConsumerId) : Decidable (s.ClaimOk groups c) := by
  unfold ClaimOk
  split
  · exact inferInstance
  · exact inferInstance

/-- No cached entry is before the row the start row moves to: the scan start row if nothing was
consumed, else the last consumed entry that is not beyond it. -/
def PostCommitOk (s : State) (c : ConsumerId) : Prop :=
  match (s.consumer c).scanStartRow with
  | none => True
  | some scanStartRow =>
    if (s.consumer c).consumingEntries.isEmpty then
      ∀ r ∈ (s.consumer c).cachedRows, scanStartRow ≤ r
    else
      ∀ row ∈ floorKey (s.consumer c).consumingEntries scanStartRow,
        ∀ r ∈ (s.consumer c).cachedRows, row ≤ r

instance (s : State) (c : ConsumerId) : Decidable (s.PostCommitOk c) := by
  unfold PostCommitOk
  split
  · exact inferInstance
  · exact inferInstance

/-- No entry that is due is before the row a new consumer starts from. -/
def RestartOk (groups : Groups) (s : State) (c : ConsumerId) (close : Bool) : Prop :=
  ∀ r ∈ s.table.rows, s.Due groups c r → s.restartRow c close ≤ r

instance (groups : Groups) (s : State) (c : ConsumerId) (close : Bool) :
    Decidable (s.RestartOk groups c close) := by
  unfold RestartOk; infer_instance

/-! ## The invariant -/

/-- Everything that is due to the consumer is within its reach. -/
structure NoLoss (groups : Groups) (s : State) (c : ConsumerId) : Prop where
  reach : ∀ {r : Row}, s.Due groups c r → r ∈ (s.consumer c).cachedRows ∨
    (s.phase c ≠ .idle ∧ r ∈ (s.consumer c).consumingRows) ∨ (s.consumer c).scanStart ≤ r
  /-- What the consumer has claimed or processed in its transaction is being consumed. -/
  own : ∀ {r : Row} {st : StateContent} {tx : Transaction}, s.phase c ≠ .idle →
    (s.consumer c).transaction = some tx → s.table.state c.1 r = some st →
    st.instanceId = c.2 → st.writePointer = tx.writePointer → r ∈ (s.consumer c).consumingRows

/-- Everything that is due to the consumer is at or beyond its start row, in memory and
persisted. -/
def StartOk (groups : Groups) (s : State) (c : ConsumerId) : Prop :=
  ∀ r, s.Due groups c r → (s.consumer c).startRow ≤ r ∧ (s.startRows c).getD .zero ≤ r

/-- **What is due now was due before, or its transaction could still commit.** -/
theorem Due.before {a : Action} (hi : s.Inv groups) (h : s.step groups a = some s')
    (hd : s'.Due groups c r) : s.Due groups c r ∨ s.manager.Pending r.writePointer := by
  rcases committed_of_step h hd.committed with hr | rfl
  · exact .inl ((stable_step hi h).due_of hr hd)
  · obtain ⟨st', hst', -⟩ := (inv_step hi h).entry hd.owned.live
    obtain ⟨-, -, m, hm, rfl⟩ := commit_eq_some h
    obtain ⟨i, hinfo, hcan, -, hnew⟩ := Manager.finish?_eq_some_iff.mp hm
    have hst' : m.info r.writePointer = some ⟨true, st'⟩ := hst'
    rw [hnew, Function.update_self, Option.some_inj] at hst'
    obtain ⟨hshort, -⟩ := Info.mk.inj hst'
    refine .inr (.inr ?_)
    rw [hinfo]
    obtain ⟨short, st⟩ := i
    obtain rfl : short = true := hshort
    cases st <;> simp [Status.canBecome] at hcan
    rfl

/-! ## Steps the consumer has no part in -/

theorem noLoss_quiet {a : Action} (hi : s.Inv groups) (h : s.step groups a = some s')
    (hq : Quiet s s' c) (hb : s.Behind c) (hn : s.NoLoss groups c) : s'.NoLoss groups c where
  reach := fun hd ↦ by
    rw [consumer, phase, hq.session]
    rcases hd.before hi h with hd | hp
    · exact hn.reach hd
    · exact .inr (.inr ((hb _ hp).2.1.trans (first_le _)))
  own := fun hph htx hst hi hw ↦ by
    rw [phase, hq.session] at hph
    rw [consumer, hq.session] at htx ⊢
    exact hn.own hph htx (hq.state hst hi) hi hw

/-- A step that leaves the start rows where they are. -/
theorem StartOk.of_rows {a : Action} (hi : s.Inv groups) (h : s.step groups a = some s')
    (hb : s.Behind c) (hs : s.StartOk groups c)
    (hrow : (s'.consumer c).startRow = (s.consumer c).startRow)
    (hstore : s'.startRows c = s.startRows c) : s'.StartOk groups c := by
  intro r hd
  rw [hrow, hstore]
  rcases hd.before hi h with hd | hp
  · exact hs r hd
  · obtain ⟨h1, -, h3⟩ := hb _ hp
    exact ⟨h1.trans (first_le _), h3.trans (first_le _)⟩

/-! ## The consumer's own steps -/

/-- A step of the consumer after which it has the entries it had and scans from where it did. -/
structure Keeps (s s' : State) (c : ConsumerId) : Prop where
  cached : ∀ r ∈ (s.consumer c).cachedRows, r ∈ (s'.consumer c).cachedRows
  consuming : s.phase c ≠ .idle → ∀ r ∈ (s.consumer c).consumingRows,
    r ∈ (s'.consumer c).consumingRows
  active : s.phase c ≠ .idle → s'.phase c ≠ .idle
  scanStart : (s'.consumer c).scanStart = (s.consumer c).scanStart

theorem NoLoss.of_keeps (hk : Keeps s s' c) (hn : s.NoLoss groups c)
    (hd : ∀ {r : Row}, s'.Due groups c r → s.Due groups c r)
    (hown : ∀ {r : Row} {st : StateContent} {tx : Transaction}, s'.phase c ≠ .idle →
      (s'.consumer c).transaction = some tx → s'.table.state c.1 r = some st →
      st.instanceId = c.2 → st.writePointer = tx.writePointer →
      r ∈ (s'.consumer c).consumingRows) : s'.NoLoss groups c where
  reach := fun h ↦ by
    rw [hk.scanStart]
    rcases hn.reach (hd h) with h | ⟨hidle, h⟩ | h
    · exact .inl (hk.cached _ h)
    · exact .inr (.inl ⟨hk.active hidle, hk.consuming hidle _ h⟩)
    · exact .inr (.inr h)
  own := hown

/-- Except by a commit, nothing becomes due. -/
theorem Due.before' {a : Action} (hi : s.Inv groups) (h : s.step groups a = some s')
    (ha : ∀ w, a ≠ .commit w) (hd : s'.Due groups c r) : s.Due groups c r := by
  rcases committed_of_step h hd.committed with hr | rfl
  · exact (stable_step hi h).due_of hr hd
  · exact absurd rfl (ha _)

theorem noLoss_begin {short : Bool} {participants : List ConsumerId} (hi : s.Inv groups)
    (h : s.begin groups tx short participants = some s') (hc : c ∈ participants)
    (hn : s.NoLoss groups c) : s'.NoLoss groups c := by
  have hdue := fun {r : Row} (hd : s'.Due groups c r) ↦
    hd.before' hi (a := .begin tx short participants) h (by simp)
  obtain ⟨hsnap, -, hpart, m, hm, rfl⟩ := begin_eq_some h
  have hidle := (hpart c hc).2
  refine hn.of_keeps ⟨?_, fun h ↦ absurd hidle h, fun h ↦ absurd hidle h, ?_⟩ hdue ?_
  · simp only [consumer, if_pos hc]
    exact fun r hr ↦ hr
  · simp only [consumer, if_pos hc]
    rfl
  · intro r st tx' _ htx' hst _ hw
    -- the transaction is new, so nothing carries its id
    simp only [consumer, if_pos hc, startTx, Option.some_inj] at htx'
    obtain ⟨_, hinfo⟩ := hi.context_started (hi.state_participant hst)
    have hle := s.manager.le_last (w := st.writePointer) (by simp [hinfo])
    have hlt := hsnap.new
    rw [hw, ← htx'] at hle
    omega

/-- The table is as it was, and the consumer has the same entries and the same transaction. -/
theorem NoLoss.of_same (hn : s.NoLoss groups c) (hk : Keeps s s' c)
    (hm : s'.manager = s.manager) (ht : s'.table = s.table) (hidle : s.phase c ≠ .idle)
    (htx : (s'.consumer c).transaction = (s.consumer c).transaction) : s'.NoLoss groups c := by
  refine hn.of_keeps hk ?_ ?_
  · intro r hd
    refine ⟨by rw [← hm]; exact hd.committed, ?_, ?_, ?_⟩
    · have := hd.owned
      rw [Owned, ht] at this
      exact this
    · have := hd.free
      rw [ht] at this
      exact this
    · have := hd.unprocessed
      rw [Processed, hm, ht] at this
      exact this
  · intro r st tx _ htx' hst hi hw
    rw [ht] at hst
    rw [htx] at htx'
    exact hk.consuming hidle r (hn.own hidle htx' hst hi hw)

theorem keeps_of_phase {session : Session} (hcons : session.consumer = s.consumer c)
    (hph : session.phase ≠ .idle) : Keeps s (s.setSession c session) c := by
  have hsess := setSession_same (s := s) (c := c) session
  have hcons' : (s.setSession c session).consumer c = s.consumer c := by
    rw [consumer, hsess, hcons]
  refine ⟨?_, fun _ ↦ ?_, fun _ ↦ by rw [phase, hsess]; exact hph, ?_⟩
  all_goals rw [hcons']
  · exact fun r hr ↦ hr
  · exact fun r hr ↦ hr

/-! ## Fetching -/

/-- An entry that is due and visible is found by every scan that starts at or before it, unless it
is being consumed. -/
theorem answer_of_due (hi : s.Inv groups) (hn : s.NoLoss groups c) (hidle : s.phase c ≠ .idle)
    (htx : (s.consumer c).transaction = some tx) (ha : s.Active groups c tx)
    (hd : s.Due groups c r) (hvis : tx.isVisible r.writePointer = true) :
    r ∈ (s.consumer c).consumingRows ∨ ∃ x : Table.Scanned, x.rowKey = r ∧
      answer (groups.consumerConfig c) tx x = .yes ∧
      ∀ start ≤ r, x ∈ getScanner (groups.consumerConfig c) s.table tx start := by
  obtain ⟨e, he, howns⟩ := hd.owned
  -- a PROCESSED state that is visible makes the entry processed
  have hproc : ∀ st, s.table.state c.1 r = some st →
      ¬ (st.state = .processed ∧ tx.isVisible st.writePointer = true) := by
    rintro st hst ⟨hp, hv⟩
    have hpart := hi.state_participant hst
    obtain ⟨i', hinfo'⟩ := hi.context_started hpart
    have hstat : s.manager.statusOf st.writePointer = some i' := by
      simp [Manager.statusOf, hinfo']
    rcases ha.sees.visible hv hstat with rfl | rfl
    · exact hd.unprocessed ⟨st, hst, hp, hstat⟩
    · exact hi.state_processed hst hp (hi.context_aborted hstat hpart)
  let x : Table.Scanned := ⟨r, e, s.table.state c.1 r⟩
  cases hans : answer (groups.consumerConfig c) tx x with
  | yes =>
    refine .inr ⟨x, rfl, hans, fun start hle ↦ mem_getScanner.mpr ⟨hle, he, rfl, hvis, ?_⟩⟩
    rw [answer] at hans
    rw [hans]
    simp
  | noIncludingAllOlder =>
    obtain ⟨-, st, hst, hp⟩ := canConsume_noIncludingAllOlder hans
    exact absurd hp (hproc st hst)
  | no =>
    obtain ⟨st, hst, hcase⟩ := canConsume_no hans howns
    have hst : s.table.state c.1 r = some st := hst
    rcases hcase with hw | ⟨hfifo, hsize, hne⟩ | hp
    · -- the consumer has claimed it in this transaction
      have hself : st.instanceId = c.2 := by
        by_cases hm : mustClaim (groups.consumerConfig c)
        · exact hd.free hm st hst
        · have hpart := hi.state_participant hst
          rw [hw] at hpart
          have heq := hd.owned.unique ha.has (ha.participant_has _ hpart rfl) rfl hm
            (hi.state_owned hst hd.owned.live)
          exact (congrArg Prod.snd heq).symm
      exact .inl (hn.own hidle htx hst hself hw)
    · -- another instance has claimed it
      by_cases hm : mustClaim (groups.consumerConfig c)
      · exact absurd (hd.free hm st hst) hne
      · have hone : ¬ (groups.consumerConfig c).groupSize > 1 := fun h ↦ hm ⟨hfifo, h⟩
        have hc : c.2 < (groups.consumerConfig c).groupSize := ha.has.2
        have hne : st.instanceId ≠ c.2 := hne
        omega
    · exact absurd hp (hproc st hst)

/-- What is due is visible, or the transaction does not know of it. -/
theorem Due.visible_or_late (hi : s.Inv groups) (hs : Sees s.manager tx)
    (hd : s.Due groups c r) : tx.isVisible r.writePointer = true ∨ tx.Late r.writePointer := by
  obtain ⟨i, hinfo, -⟩ := hi.entry hd.owned.live
  have hcom := hd.committed
  rw [Manager.statusOf, hinfo, Option.map_some, Option.some_inj] at hcom
  obtain rfl : i = .committed := hcom
  exact hs.committed hinfo

/-- **A round of fetching passes over nothing that is due.**  An entry that is due is visible to
the transaction, or it is late, and the scan start row stays before what is late.  If it is
visible, the scan finds it and caches it, unless it is being consumed. -/
theorem reach_fetch (hi : s.Inv groups) (hn : s.NoLoss groups c) (hidle : s.phase c ≠ .idle)
    (htx : (s.consumer c).transaction = some tx) (ha : s.Active groups c tx) {c' : Consumer}
    (hf : Fetched (groups.consumerConfig c) s.table tx (s.consumer c) c')
    (hd : s.Due groups c r) (hle : (s.consumer c).scanStart ≤ r) (hlt : r < c'.scanStart) :
    r ∈ c'.cachedRows ∨ r ∈ c'.consumingRows := by
  have hvis : tx.isVisible r.writePointer = true := by
    rcases hd.visible_or_late hi ha.sees with h | hlate
    · exact h
    · rcases hf.advance with heq | ⟨y, hy, hadv⟩
      · exact absurd (heq ▸ hlt) (not_lt.mpr hle)
      · have h1 := lt_of_advance ha.sees hy hadv hlate
        have h2 := Row.writePointer_mono hlt.le
        omega
  rcases answer_of_due hi hn hidle htx ha hd hvis with hr | ⟨x, rfl, hans, hx⟩
  · exact .inr (hf.consuming_kept r hr)
  · exact hf.skipped x (hx _ hle) hlt hans

theorem noLoss_fetch (hi : s.Inv groups) (h : s.fetch groups c = some s')
    (hn : s.NoLoss groups c) : s'.NoLoss groups c := by
  obtain ⟨n, tx, hph, htx, hcase⟩ := fetch_eq_some h
  have hidle : s.phase c ≠ .idle := by rw [hph]; simp
  obtain ⟨tx', htx', ha⟩ := (hi.session c).active hidle
  obtain rfl := Option.some_inj.mp (htx.symm.trans htx')
  rcases hcase with ⟨hlt, rfl⟩ | ⟨-, rfl⟩
  · set config := groups.consumerConfig c with hconfig
    set result := (s.consumer c).getEntries config s.table tx n with hresult
    have hf : Fetched config s.table tx (s.consumer c) result.2 :=
      getEntries_fetched config s.table tx (s.consumer c) n
    set session := afterFetch config n result.1 result.2 with hsession
    have hsess := setSession_same (s := s) (c := c) session
    have hcons : (s.setSession c session).consumer c = result.2 := by
      rw [consumer, hsess, hsession, afterFetch_consumer]
    have hidle' : (s.setSession c session).phase c ≠ .idle := by
      rw [phase, hsess, hsession, afterFetch]
      split
      · split <;> simp
      · simp [returned]
    exact {
      reach := fun {r} hd ↦ by
        have hd : s.Due groups c r := ⟨hd.committed, hd.owned, hd.free, hd.unprocessed⟩
        have hkept : r ∈ (s.consumer c).cachedRows ∨ r ∈ (s.consumer c).consumingRows →
            r ∈ result.2.cachedRows ∨
              ((s.setSession c session).phase c ≠ .idle ∧ r ∈ result.2.consumingRows) ∨
              result.2.scanStart ≤ r :=
          fun h ↦ (hf.kept r h).imp id fun h ↦ .inl ⟨hidle', h⟩
        rw [hcons]
        rcases hn.reach hd with h | ⟨-, h⟩ | h
        · exact hkept (.inl h)
        · exact hkept (.inr h)
        · by_cases hlt : r < result.2.scanStart
          · exact (reach_fetch hi hn hidle htx ha hf hd h hlt).imp id fun h ↦ .inl ⟨hidle', h⟩
          · exact .inr (.inr (not_lt.mp hlt))
      own := fun {r st tx'} _ htx' hst hself hw ↦ by
        rw [hcons] at htx' ⊢
        rw [hf.transaction] at htx'
        exact hf.consuming_kept r (hn.own hidle htx' hst hself hw) }
  · exact hn.of_same (keeps_of_phase rfl (by simp [returned])) rfl rfl hidle
      (by simp [consumer, setSession, returned])

/-! ## Claiming -/

theorem noLoss_claim (hi : s.Inv groups) (h : s.claim groups c = some s')
    (hok : s.ClaimOk groups c) (hn : s.NoLoss groups c) : s'.NoLoss groups c := by
  have hdue := fun {r : Row} (hd : s'.Due groups c r) ↦
    hd.before' hi (a := .claim c) h (by simp)
  obtain ⟨n, todo, tx, hph, htx, hcase⟩ := claim_eq_some h
  have hidle : s.phase c ≠ .idle := by rw [hph]; simp
  obtain ⟨tx', htx', ha⟩ := (hi.session c).active hidle
  obtain rfl := Option.some_inj.mp (htx.symm.trans htx')
  rcases hcase with ⟨rfl, rfl⟩ | ⟨entry, rest, rfl, ⟨hw, rfl⟩ | ⟨hw, hnone, rfl⟩ | ⟨hw, hsome, rfl⟩⟩
  · exact hn.of_same (keeps_of_phase rfl (by simp)) rfl rfl hidle
      (by simp [consumer, setSession])
  · exact hn.of_same (keeps_of_phase rfl (by simp)) rfl rfl hidle
      (by simp [consumer, setSession])
  · -- the row that is claimed now is among those consumed
    have hk : Keeps s (s.setSession c { s.sessions c with phase := .claiming n rest }) c :=
      keeps_of_phase rfl (by simp)
    refine hn.of_keeps ⟨hk.cached, hk.consuming, hk.active, hk.scanStart⟩ hdue ?_
    intro r st tx' hidle' htx' hst hself hw'
    simp only [consumer, setSession, Function.update_self] at htx' ⊢
    rcases setState_cases s.table c.1 c.1 r [entry.rowKey]
      (some (encodeStateColumn (groups.consumerConfig c) tx .claimed)) with ⟨-, hmem, -⟩ | heq
    · rw [List.mem_singleton.mp hmem]
      exact List.mem_map_of_mem (ha.todo_cons hph).1
    · exact hn.own hidle htx' (heq.symm.trans hst) hself hw'
  · -- the row that is dropped was claimed by another instance, or the next scan finds it
    rw [ClaimOk, hph, htx] at hok
    set s' := s.setSession c { s.sessions c with
      consumer := (s.consumer c).drop entry.rowKey, phase := .claiming n rest } with hs'
    have hcons : s'.consumer c = (s.consumer c).drop entry.rowKey := by
      simp [hs', consumer, setSession]
    have hidle' : s'.phase c ≠ .idle := by simp [hs', phase, setSession]
    obtain ⟨st, hst⟩ := Option.ne_none_iff_exists'.mp hsome
    exact {
      reach := fun {r} hd ↦ by
        have hd := hdue hd
        rw [hcons]
        rcases hn.reach hd with hr | ⟨-, hr⟩ | hr
        · exact .inl hr
        · by_cases heq : r = entry.rowKey
          · have hself := hd.free (ha.mustClaim_of_claiming hph) st (heq ▸ hst)
            exact .inr (.inr (heq ▸ (hok hw st hst hself).2))
          · exact .inr (.inl ⟨hidle', SortedList.mem_keys_remove.mpr ⟨hr, heq⟩⟩)
        · exact .inr (.inr hr)
      own := fun {r x tx'} _ htx' hx hself hxw ↦ by
        rw [hcons] at htx' ⊢
        refine SortedList.mem_keys_remove.mpr ⟨hn.own hidle htx' hx hself hxw, ?_⟩
        rintro rfl
        obtain rfl := Option.some_inj.mp (htx.symm.trans htx')
        exact (hok hw x hx hself).1 hxw }

/-! ## The end of a transaction -/

theorem keeps_commitTx (h : s.commitTx groups c = some s') : Keeps s s' c := by
  obtain ⟨tx, hph, htx, rfl⟩ := commitTx_eq_some h
  refine ⟨?_, fun _ ↦ ?_, fun _ ↦ by simp [phase, setSession], ?_⟩
  all_goals simp only [consumer, setSession, Function.update_self, commitTx_consumer]
  · exact fun r hr ↦ hr
  · exact fun r hr ↦ hr
  · rfl

theorem noLoss_commitTx (hi : s.Inv groups) (h : s.commitTx groups c = some s')
    (hn : s.NoLoss groups c) : s'.NoLoss groups c := by
  refine hn.of_keeps (keeps_commitTx h) (Due.before' hi (a := .commitTx c) h (by simp)) ?_
  obtain ⟨tx, hph, htx, rfl⟩ := commitTx_eq_some h
  have hidle : s.phase c ≠ .idle := by rw [hph]; simp
  intro r st tx' _ htx' hst hself hw
  simp only [commitTx_table, commitTx_consumer, consumer, setSession, Function.update_self]
    at htx' hst ⊢
  rcases setState_cases s.table c.1 c.1 r (s.consumer c).consumingRows
    (some (encodeStateColumn (groups.consumerConfig c) tx .processed)) with ⟨-, hmem, -⟩ | heq
  · exact hmem
  · exact hn.own hidle htx' (heq.symm.trans hst) hself hw

theorem noLoss_rollbackTx (hi : s.Inv groups) (h : s.rollbackTx groups c = some s')
    (hn : s.NoLoss groups c) : s'.NoLoss groups c := by
  have hdue := fun {r : Row} (hd : s'.Due groups c r) ↦
    hd.before' hi (a := .rollbackTx c) h (by simp)
  obtain ⟨tx, htx, hidle, hst, rfl⟩ := rollbackTx_eq_some h
  set consumer' := (Consumer.rollbackTx (groups.consumerConfig c) s.table tx (s.consumer c)).1
    with hcons'
  have hcache : ∀ r, r ∈ (s.consumer c).consumingRows ∨ r ∈ (s.consumer c).cachedRows →
      r ∈ consumer'.cachedRows := by
    intro r hr
    rw [cachedRows, hcons', rollbackTx_entryCache]
    exact SortedList.mem_keys_putAll.mpr hr
  have hscan : consumer'.scanStart = (s.consumer c).scanStart := (rollbackTx_rows _ _ _ _).2
  exact {
    reach := fun {r} hd ↦ by
      simp only [consumer, setSession, Function.update_self, hscan]
      rcases hn.reach (hdue hd) with hr | ⟨-, hr⟩ | hr
      · exact .inl (hcache r (.inr hr))
      · exact .inl (hcache r (.inl hr))
      · exact .inr (.inr hr)
    own := fun hph ↦ absurd (by simp [phase, setSession]) hph }

/-- What was consumed is processed when `postTxCommit` is called. -/
theorem not_due_of_consuming (ha : s.Active groups c tx) (hph : s.phase c = .persisted)
    (hst : s.manager.statusOf tx.writePointer = some .committed)
    (hr : r ∈ (s.consumer c).consumingRows) : ¬ s.Due groups c r :=
  fun hd ↦ hd.unprocessed ⟨_, ha.processed hph r hr hd.owned.live, rfl, hst⟩

/-- Under the condition, the start row does not move past what is due. -/
theorem postTxCommit_startRow (hn : s.NoLoss groups c) (hs : s.StartOk groups c)
    (hok : s.PostCommitOk c) (ha : s.Active groups c tx) (hph : s.phase c = .persisted)
    (hst : s.manager.statusOf tx.writePointer = some .committed) (hd : s.Due groups c r) :
    (s.consumer c).postTxCommit.startRow ≤ r := by
  have hreach : r ∈ (s.consumer c).cachedRows ∨ (s.consumer c).scanStart ≤ r := by
    rcases hn.reach hd with h | ⟨-, h⟩ | h
    · exact .inl h
    · exact absurd hd (not_due_of_consuming ha hph hst h)
    · exact .inr h
  rcases (postTxCommit_rows (s.consumer c)).2.2 with heq | ⟨row, hrow, hcase⟩
  · rw [heq]
    exact (hs r hd).1
  · simp only [PostCommitOk, hrow] at hok
    rw [scanStart, hrow] at hreach
    rcases hcase with ⟨he, heq⟩ | ⟨he, hfloor⟩
    · rw [if_pos he] at hok
      rw [heq]
      rcases hreach with h | h
      · exact hok r h
      · exact h
    · rw [if_neg (by simp [he])] at hok
      rcases hreach with h | h
      · exact hok _ hfloor r h
      · exact (mem_of_floorKey hfloor).2.trans h

theorem noLoss_postTxCommit {saved : Bool} (hi : s.Inv groups)
    (h : s.postTxCommit c saved = some s') (hn : s.NoLoss groups c) : s'.NoLoss groups c := by
  obtain ⟨-, hscan, -⟩ := postTxCommit_step_rows h
  obtain ⟨tx, hph, htx, hst, rfl⟩ := postTxCommit_eq_some h
  obtain ⟨tx', htx', ha⟩ := (hi.session c).active (by rw [hph]; simp)
  obtain rfl := Option.some_inj.mp (htx.symm.trans htx')
  exact {
    reach := fun {r} hd ↦ by
      have hd : s.Due groups c r := ⟨hd.committed, hd.owned, hd.free, hd.unprocessed⟩
      rw [hscan]
      rcases hn.reach hd with h | ⟨-, h⟩ | h
      · refine .inl ?_
        simp only [consumer, setSession, Function.update_self, cachedRows,
          hbasePostTxCommit_entryCache]
        exact h
      · exact absurd hd (not_due_of_consuming ha hph hst h)
      · exact .inr (.inr h)
    own := fun hph' ↦ absurd (by simp [phase, setSession]) hph' }

theorem startOk_postTxCommit {saved : Bool} (hi : s.Inv groups)
    (h : s.postTxCommit c saved = some s') (hn : s.NoLoss groups c) (hok : s.PostCommitOk c)
    (hs : s.StartOk groups c) : s'.StartOk groups c := by
  obtain ⟨hstart, -, hstore⟩ := postTxCommit_step_rows h
  intro r hd
  have hd' := hd.before' hi (a := .postTxCommit c saved) h (by simp)
  obtain ⟨tx, hph, htx, hst, -⟩ := postTxCommit_eq_some h
  obtain ⟨tx', htx', ha⟩ := (hi.session c).active (by rw [hph]; simp)
  obtain rfl := Option.some_inj.mp (htx.symm.trans htx')
  have hle := postTxCommit_startRow hn hs hok ha hph hst hd'
  rw [hstart]
  refine ⟨hle, ?_⟩
  rcases hstore with heq | heq
  · rw [heq]
    exact (hs r hd').2
  · rw [heq]
    exact hle

/-! ## A new consumer -/

theorem noLoss_restart {close : Bool} (hi : s.Inv groups) (h : s.restart c close = some s')
    (hok : s.RestartOk groups c close) : s'.NoLoss groups c ∧ s'.StartOk groups c := by
  obtain ⟨h1, h2, h3⟩ := restart_rows h
  have hdue : ∀ {r : Row}, s'.Due groups c r → s.restartRow c close ≤ r := fun hd ↦ by
    have hd := hd.before' hi (a := .restart c close) h (by simp)
    exact hok _ (s.table.mem_rows.mpr hd.owned.live) hd
  refine ⟨⟨fun hd ↦ .inr (.inr ?_), fun hph ↦ absurd ?_ hph⟩, fun r hd ↦ ?_⟩
  · rw [h2]
    exact hdue hd
  · obtain rfl := Option.some_inj.mp h
    simp [phase, setSession]
  · rw [h1, h3]
    exact ⟨hdue hd, hdue hd⟩

theorem restartOk_of_startOk (hs : s.StartOk groups c) (close : Bool) :
    s.RestartOk groups c close := by
  intro r _ hd
  rw [restartRow]
  split
  · exact (hs r hd).1
  · exact (hs r hd).2

/-! ## Runs -/

/-- The condition under which the consumer loses nothing while it lives. -/
def LifetimeOk (groups : Groups) (c : ConsumerId) (s : State) : Action → Prop
  | .claim c' => c' = c → s.ClaimOk groups c
  | .restart c' close => c' = c → s.RestartOk groups c close
  | _ => True

/-- The condition under which it loses nothing when it is closed and created anew, either. -/
def AcrossOk (groups : Groups) (c : ConsumerId) (s : State) : Action → Prop
  | .claim c' => c' = c → s.ClaimOk groups c
  | .postTxCommit c' _ => c' = c → s.PostCommitOk c
  | _ => True

instance (groups : Groups) (c : ConsumerId) (s : State) (a : Action) :
    Decidable (LifetimeOk groups c s a) := by
  cases a <;> unfold LifetimeOk <;> infer_instance

instance (groups : Groups) (c : ConsumerId) (s : State) (a : Action) :
    Decidable (AcrossOk groups c s a) := by
  cases a <;> unfold AcrossOk <;> infer_instance

theorem noLoss_init (groups : Groups) (c : ConsumerId) :
    State.init.NoLoss groups c ∧ State.init.StartOk groups c := by
  have hnone : ∀ {r : Row}, ¬ State.init.Due groups c r := by
    rintro r ⟨-, ⟨e, he, -⟩, -, -⟩
    exact absurd he (by simp [init, Table.empty])
  exact ⟨⟨fun hd ↦ absurd hd hnone, fun h ↦ absurd rfl h⟩, fun _ hd ↦ absurd hd hnone⟩

/-- **One step, while the consumer lives.** -/
theorem noLoss_step {a : Action} (hi : s.Inv groups) (hb : s.Behind c) (hn : s.NoLoss groups c)
    (hok : LifetimeOk groups c s a) (h : s.step groups a = some s') : s'.NoLoss groups c := by
  by_cases hc : Concerns c a
  · cases a with
    | begin tx short participants => exact noLoss_begin hi h hc hn
    | dequeue c' n =>
      obtain rfl : c' = c := hc
      simp only [step, dequeue] at h
      split at h
      · rename_i hph
        obtain rfl := Option.some_inj.mp h
        exact hn.of_same (keeps_of_phase rfl (by simp)) rfl rfl (by rw [hph.1]; simp)
          (by simp [consumer, setSession])
      · exact absurd h (by simp)
    | fetch c' =>
      obtain rfl : c' = c := hc
      exact noLoss_fetch hi h hn
    | claim c' =>
      obtain rfl : c' = c := hc
      exact noLoss_claim hi h (hok rfl) hn
    | commitTx c' =>
      obtain rfl : c' = c := hc
      exact noLoss_commitTx hi h hn
    | postTxCommit c' saved =>
      obtain rfl : c' = c := hc
      exact noLoss_postTxCommit hi h hn
    | rollbackTx c' =>
      obtain rfl : c' = c := hc
      exact noLoss_rollbackTx hi h hn
    | restart c' close =>
      obtain rfl : c' = c := hc
      exact (noLoss_restart hi h (hok rfl)).1
    | _ => exact absurd hc id
  · exact noLoss_quiet hi h (quiet_step hi h hc) hb hn

/-- **Nothing is lost while the consumer lives**, in runs that meet the condition. -/
theorem noLoss_run {as : List Action} (hi : s.Inv groups) (hb : s.Behind c)
    (hn : s.NoLoss groups c) (h : Lts.Run (step groups) (LifetimeOk groups c) s as s') :
    s'.NoLoss groups c := by
  have := h.invariant (I := fun t ↦ t.Inv groups ∧ t.Behind c ∧ t.NoLoss groups c)
    (fun ⟨hi, hb, hn⟩ hok hstep ↦
      ⟨inv_step hi hstep, behind_step hi hb hstep, noLoss_step hi hb hn hok hstep⟩)
    ⟨hi, hb, hn⟩
  exact this.2.2

/-- **One step, for a consumer that may be closed at any time.** -/
theorem startOk_step {a : Action} (hi : s.Inv groups) (hb : s.Behind c) (hn : s.NoLoss groups c)
    (hs : s.StartOk groups c) (hok : AcrossOk groups c s a) (h : s.step groups a = some s') :
    s'.NoLoss groups c ∧ s'.StartOk groups c := by
  by_cases hrestart : ∃ close, a = .restart c close
  · obtain ⟨close, rfl⟩ := hrestart
    exact noLoss_restart hi h (restartOk_of_startOk hs close)
  have hlife : LifetimeOk groups c s a := by
    cases a with
    | claim c' => exact hok
    | restart c' close =>
      rintro rfl
      exact absurd ⟨close, rfl⟩ hrestart
    | _ => trivial
  refine ⟨noLoss_step hi hb hn hlife h, ?_⟩
  by_cases hpost : ∃ saved, a = .postTxCommit c saved
  · obtain ⟨saved, rfl⟩ := hpost
    exact startOk_postTxCommit hi h hn (hok rfl) hs
  · obtain ⟨h1, h2, -⟩ := rows_step hi h (fun saved heq ↦ hpost ⟨saved, heq⟩)
      fun close heq ↦ hrestart ⟨close, heq⟩
    exact hs.of_rows hi h hb h1 h2

/-- **Nothing is lost across a restart**, in runs that meet the condition. -/
theorem startOk_run {as : List Action} (hi : s.Inv groups) (hb : s.Behind c)
    (hn : s.NoLoss groups c) (hs : s.StartOk groups c)
    (h : Lts.Run (step groups) (AcrossOk groups c) s as s') :
    s'.NoLoss groups c ∧ s'.StartOk groups c := by
  have := h.invariant
    (I := fun t ↦ t.Inv groups ∧ t.Behind c ∧ t.NoLoss groups c ∧ t.StartOk groups c)
    (fun ⟨hi, hb, hn, hs⟩ hok hstep ↦
      ⟨inv_step hi hstep, behind_step hi hb hstep, startOk_step hi hb hn hs hok hstep⟩)
    ⟨hi, hb, hn, hs⟩
  exact this.2.2

end State
end Tigon
