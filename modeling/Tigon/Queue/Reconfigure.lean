import Tigon.Queue.Eventually

/-!
# Changing the number of instances of a group

`HBaseQueueAdmin.configureInstances` sets the start rows of all instances of a group to the smallest
one that was persisted, and deletes those of the instances that are gone.  The consumers of the
group are closed before, and created anew from their start rows; what they had open stays so for
good, or is rolled back.

What the instances that are gone have claimed stays claimed, and that is where it goes wrong: such
an entry is fetched by the instances that are left, but `claimEntry` takes only what nobody has
claimed.  So it is dropped, and fetched again, and no call of `dequeue` returns it
(`orphan_never_returned`).  A group of one instance does not claim.  If there is no such entry, and
none before the smallest start row, every entry is processed in the end
(`eventually_processed_of_shrink`).
-/

set_option autoImplicit false

open Mvcc

namespace Tigon

namespace State

open Groups Consumer SimpleQueueEntry

/-- The start rows after `configureInstances`. -/
def configureInstances (groups : Groups) (s : State) (g instances : Nat) :
    ConsumerId → Option Row :=
  let consumerStates := (List.range (groups.config g).groupSize).map fun i ↦ s.startRows (g, i)
  if consumerStates.length = instances then s.startRows
  else
    match smallestStartRow consumerStates with
    | none => s.startRows
    | some smallest => fun c ↦
      if c.1 = g then if c.2 < instances then smallest else none
      else s.startRows c

/-- The consumers of the group are closed, the group is reconfigured, and the new consumers are
created from their start rows. -/
def reconfigure (groups : Groups) (s : State) (g instances : Nat) : State :=
  { s with
    startRows := s.configureInstances groups g instances
    sessions := fun c ↦
      if c.1 = g then ⟨.create (s.configureInstances groups g instances c), .idle, false⟩
      else s.sessions c
    cycles := fun c ↦ if c.1 = g then [] else s.cycles c }

variable {groups : Groups} {s s' : State} {c : ConsumerId} {r : Row} {g n : Nat} {hpos : 0 < n}

/-- An entry the group has still to process. -/
def Outstanding (s : State) (g : Nat) (r : Row) : Prop :=
  s.Live r ∧ s.manager.statusOf r.writePointer = some .committed ∧ ¬ s.Processed g r

instance (s : State) (g : Nat) (r : Row) : Decidable (s.Outstanding g r) := by
  unfold Outstanding Live; infer_instance

/-- The condition under which a group can be reduced to `n` instances: unless one is left, no entry
that is outstanding is claimed by an instance that goes, and none is before the smallest start
row. -/
structure ShrinkOk (groups : Groups) (s : State) (g n : Nat) : Prop where
  claimed : 1 < n → ∀ r ∈ s.table.rows, s.Outstanding g r →
    ∀ st ∈ s.table.state g r, st.instanceId < n
  start : ∀ r ∈ s.table.rows, s.Outstanding g r →
    (s.configureInstances groups g n (g, 0)).getD .zero ≤ r

instance (groups : Groups) (s : State) (g n : Nat) : Decidable (s.ShrinkOk groups g n) :=
  decidable_of_iff
    ((1 < n → ∀ r ∈ s.table.rows, s.Outstanding g r → ∀ st ∈ s.table.state g r,
        st.instanceId < n) ∧
      ∀ r ∈ s.table.rows, s.Outstanding g r →
        (s.configureInstances groups g n (g, 0)).getD .zero ≤ r)
    ⟨fun ⟨h1, h2⟩ ↦ ⟨h1, h2⟩, fun ⟨h1, h2⟩ ↦ ⟨h1, h2⟩⟩

/-! ## The groups that stay as they are -/

theorem owned_resize (h : c.1 ≠ g) :
    s.Owned (groups.resize g n hpos) c r ↔ s.Owned groups c r := by
  rw [Owned, Owned, consumerConfig_resize h]

theorem mine_resize (h : c.1 ≠ g) : s.Mine (groups.resize g n hpos) c r ↔ s.Mine groups c r := by
  rw [Mine, Mine, owned_resize h, consumerConfig_resize h]

theorem Holds.resize {x : SimpleQueueEntry} (h : c.1 ≠ g) (hx : s.Holds groups c x) :
    s.Holds (groups.resize g n hpos) c x where
  committed := hx.committed
  has := (has_resize h).mpr hx.has
  owned := fun hl ↦ (owned_resize h).mpr (hx.owned hl)
  claimed := by rw [consumerConfig_resize h]; exact hx.claimed

theorem Active.resize {tx : Transaction} (h : c.1 ≠ g) (ha : s.Active groups c tx) :
    s.Active (groups.resize g n hpos) c tx where
  has := (has_resize h).mpr ha.has
  participant := ha.participant
  participant_has := fun c' hc' heq ↦
    (has_resize (heq ▸ h)).mpr (ha.participant_has c' hc' heq)
  notRolledBack := ha.notRolledBack
  sees := ha.sees
  persisted_of_committed := ha.persisted_of_committed
  sorted := ha.sorted
  disjoint := ha.disjoint
  consuming := fun x hx ↦ (ha.consuming x hx).resize h
  todo_sorted := ha.todo_sorted
  todo_consuming := ha.todo_consuming
  mustClaim_of_claiming := by rw [consumerConfig_resize h]; exact ha.mustClaim_of_claiming
  claimed := fun x hx ht hl ↦ (mine_resize h).mpr (ha.claimed x hx ht hl)
  unprocessed := fun hst r hr hm ↦ ha.unprocessed hst r hr ((mine_resize h).mp hm)
  flag := ha.flag
  processed_of := ha.processed_of
  processed := ha.processed
  visible := by rw [config_resize_of_ne h]; exact ha.visible

theorem SessionInv.resize (h : c.1 ≠ g) (hi : s.SessionInv groups c) :
    s.SessionInv (groups.resize g n hpos) c where
  sorted := hi.sorted
  cached := fun x hx ↦ (hi.cached x hx).resize h
  unprocessed := fun r hr hm ↦ hi.unprocessed r hr ((mine_resize h).mp hm)
  active := fun hidle ↦ by
    obtain ⟨tx, htx, ha⟩ := hi.active hidle
    exact ⟨tx, htx, ha.resize h⟩

/-! ## The group that is reconfigured -/

theorem session_reconfigure (groups : Groups) (s : State) (g n i : Nat) :
    (s.reconfigure groups g n).sessions (g, i) =
      ⟨.create (s.configureInstances groups g n (g, i)), .idle, false⟩ := by
  simp [reconfigure]

/-- With FIFO every consumer may try every entry. -/
theorem owned_of_fifo (hfifo : (groups.config c.1).dequeueStrategy = .fifo) (hl : s.Live r) :
    s.Owned groups c r := by
  obtain ⟨e, he⟩ := Option.ne_none_iff_exists'.mp hl
  refine ⟨e, he, ?_⟩
  simp [Groups.consumerConfig, ConsumerConfig.ownsBy, hfifo]

/-- **Reconfiguring a FIFO group keeps the invariant.** -/
theorem inv_reconfigure (hi : s.Inv groups) (hfifo : (groups.config g).dequeueStrategy = .fifo) :
    (s.reconfigure groups g n).Inv (groups.resize g n hpos) where
  entry := hi.entry
  state_committed := hi.state_committed
  state_participant := hi.state_participant
  state_processed := hi.state_processed
  state_owned := fun {g' r st} hst hl ↦ by
    by_cases hg : g' = g
    · subst hg
      exact owned_of_fifo (by rw [strategy_resize]; exact hfifo) hl
    · exact (owned_resize hg).mpr (hi.state_owned hst hl)
  context_started := hi.context_started
  context_aborted := hi.context_aborted
  log := hi.log
  session := fun c ↦ by
    by_cases hg : c.1 = g
    · obtain ⟨g', i⟩ := c
      obtain rfl : g' = g := hg
      have hsess := session_reconfigure groups s g' n i
      refine ⟨?_, fun x hx ↦ ?_, fun r hr ↦ ?_, fun hidle ↦ absurd ?_ hidle⟩
      · rw [consumer, hsess]
        exact List.Pairwise.nil
      · rw [consumer, hsess] at hx
        exact absurd hx List.not_mem_nil
      · rw [consumer, hsess] at hr
        exact absurd hr List.not_mem_nil
      · rw [phase, hsess]
    · have hframe : Frame groups s (s.reconfigure groups g n) c := .of_eq rfl rfl rfl
      refine SessionInv.resize hg (hframe.sessionInv ?_ (hi.session c))
      simp [reconfigure, hg]

theorem unevicted_reconfigure (hu : s.Unevicted) : (s.reconfigure groups g n).Unevicted where
  has := fun {c x} hx ↦ by
    by_cases hg : c.1 = g
    · simp only [Has, consumer, phase, reconfigure, hg, if_true, create, ne_eq, not_true,
        false_and, or_false] at hx
      exact absurd hx List.not_mem_nil
    · simp only [Has, consumer, phase, reconfigure, hg, if_false] at hx
      exact hu.has hx
  log := hu.log

/-- What the start row of a new consumer is: the smallest that was persisted. -/
theorem configureInstances_spec (hlt : n < (groups.config g).groupSize) {i : Nat} (hi : i < n) :
    (∃ j, s.configureInstances groups g n (g, i) = s.startRows (g, j)) ∧
      s.configureInstances groups g n (g, i) = s.configureInstances groups g n (g, 0) := by
  have hne : ¬ (groups.config g).groupSize = n := by omega
  have hz : 0 < n := by omega
  simp only [configureInstances, List.length_map, List.length_range, if_neg hne]
  cases hs : smallestStartRow
      ((List.range (groups.config g).groupSize).map fun i ↦ s.startRows (g, i)) with
  | none =>
    have := smallestStartRow_eq_none hs
    rw [List.map_eq_nil_iff, List.range_eq_nil] at this
    omega
  | some smallest =>
    obtain ⟨j, -, hj⟩ := List.mem_map.mp (smallestStartRow_spec hs).1
    simp only [if_true, hi, hz]
    exact ⟨⟨j, hj.symm⟩, trivial⟩

theorem progress_reconfigure (hlt : n < (groups.config g).groupSize)
    (hfifo : (groups.config g).dequeueStrategy = .fifo) (hi : s.Inv groups) (hu : s.Unevicted)
    (hb : ∀ c, s.Behind c) (hok : s.ShrinkOk groups g n) {i : Nat} (hin : i < n) :
    (s.reconfigure groups g n).Progress (groups.resize g n hpos) (g, i) := by
  have hsess := session_reconfigure groups s g n i
  obtain ⟨⟨j, hj⟩, hzero⟩ := configureInstances_spec (s := s) hlt hin
  have hstart : ((s.reconfigure groups g n).consumer (g, i)).scanStart =
      (s.configureInstances groups g n (g, i)).getD .zero := by
    rw [consumer, hsess]
    rfl
  have hout : ∀ {r : Row}, (s.reconfigure groups g n).Due (groups.resize g n hpos) (g, i) r →
      s.Outstanding g r := fun hd ↦ ⟨hd.owned.live, hd.committed, hd.unprocessed⟩
  exact {
    inv := inv_reconfigure hi hfifo
    unevicted := unevicted_reconfigure hu
    behind := fun w hp ↦ by
      obtain ⟨-, -, hrow⟩ := hb (g, j) w hp
      rw [← hj] at hrow
      rw [hstart, consumer, hsess]
      exact ⟨hrow, hrow, hrow⟩
    noLoss := ⟨fun {r} hd ↦ .inr (.inr (by
        rw [hstart, hzero]
        exact hok.start r (s.table.mem_rows.mpr hd.owned.live) (hout hd))),
      fun hidle ↦ absurd (by rw [phase, hsess]) hidle⟩
    settled := fun hm r st hl hst hnp ↦ by
      rw [groupSize_resize]
      have hone : 1 < n := by
        have := hm.2
        simp only [Groups.consumerConfig, groupSize_resize] at this
        exact this
      exact hok.claimed hone r (s.table.mem_rows.mpr hl) ⟨hl, hi.state_committed hst, hnp⟩ st hst
    session := .of_not_dequeued (by rw [hsess]) (by rw [phase, hsess]; simp)
    cycles := by
      have hnil : (s.reconfigure groups g n).cycles (g, i) = [] := by simp [reconfigure]
      refine ⟨?_, ?_⟩
      · rw [hnil]
        exact List.nodup_nil
      · rw [hnil]
        exact fun tx htx ↦ absurd htx List.not_mem_nil }

/-! ## Runs after the change -/

/-- The condition on the steps after the change, for the consumers that are left. -/
def ShrunkOk (groups : Groups) (g n : Nat) (s : State) (a : Action) : Prop :=
  (∀ i < n, LifetimeOk groups (g, i) s a) ∧ NoEvict s a

instance (groups : Groups) (g n : Nat) (s : State) (a : Action) :
    Decidable (ShrunkOk groups g n s a) := by
  unfold ShrunkOk; infer_instance

/-- In a run without eviction an entry stays outstanding until it is processed. -/
theorem outstanding_run {as : List Action} (hi : s.Inv groups) (hr : s.Outstanding g r)
    (h : Lts.Run (step groups) NoEvict s as s') (hnp : ¬ s'.Processed g r) :
    s'.Outstanding g r := by
  obtain ⟨-, hl, hc⟩ := h.invariant (I := fun s ↦ s.Inv groups ∧ s.Live r ∧
      s.manager.statusOf r.writePointer = some .committed)
    (fun ⟨hi, hl, hc⟩ hok hstep ↦ ⟨inv_step hi hstep, live_step hstep hok hc hl,
      (stable_step hi hstep).committed hc⟩) ⟨hi, hr.1, hr.2.1⟩
  exact ⟨hl, hc, hnp⟩

/-- An entry that is never processed is due to one of the consumers all the time: to the one that
claims it, or to any of them. -/
theorem exists_due_forever {ρ : Nat → State} (h : Lts.Trace (step groups) NoEvict ρ)
    (hi : (ρ 0).Inv groups) (hfifo : (groups.config g).dequeueStrategy = .fifo)
    (hs : ∀ k, (ρ k).Settled groups (g, 0)) (hout : ∀ k, (ρ k).Outstanding g r) :
    ∃ i < (groups.config g).groupSize, ∀ k, (ρ k).Due groups (g, i) r := by
  have hinv : ∀ k, (ρ k).Inv groups := fun k ↦ by
    obtain ⟨as, hrun⟩ := h.run (Nat.zero_le k)
    exact inv_run hi hrun
  have hstable : ∀ {j k}, j ≤ k → Stable groups (ρ j) (ρ k) := fun hjk ↦ by
    obtain ⟨as, hrun⟩ := h.run hjk
    exact stable_run (hinv _) hrun
  -- it is enough that no other consumer claims it
  have hdue : ∀ i, (mustClaim (groups.consumerConfig (g, i)) → ∀ k st,
      (ρ k).table.state g r = some st → st.instanceId = i) → ∀ k, (ρ k).Due groups (g, i) r :=
    fun i hfree k ↦ ⟨(hout k).2.1, owned_of_fifo hfifo (hout k).1,
      fun hm st hst ↦ hfree hm k st hst, (hout k).2.2⟩
  by_cases hm : mustClaim (groups.consumerConfig (g, 0))
  · by_cases hclaimed : ∃ k st, (ρ k).table.state g r = some st
    · obtain ⟨k, st, hst⟩ := hclaimed
      refine ⟨st.instanceId, hs k hm r st (hout k).1 hst (hout k).2.2, hdue _ fun _ j st' hst' ↦ ?_⟩
      rcases Nat.le_total j k with hjk | hkj
      · obtain ⟨st'', hst'', heq⟩ := (hstable hjk).claimed (c := (g, 0)) hm hst' (hout k).1
        rw [hst, Option.some_inj] at hst''
        rw [hst'', heq]
      · obtain ⟨st'', hst'', heq⟩ := (hstable hkj).claimed (c := (g, 0)) hm hst (hout j).1
        rw [hst', Option.some_inj] at hst''
        rw [hst'', heq]
    · refine ⟨0, (groups.config g).groupSize_pos, hdue 0 fun _ k st hst ↦ ?_⟩
      exact absurd ⟨k, st, hst⟩ hclaimed
  · exact ⟨0, (groups.config g).groupSize_pos, hdue 0 fun hm' ↦ absurd hm' hm⟩

/-- **Every entry is processed in the end.**  A FIFO group is reduced to `n` instances in any state
it can reach, in which no entry that is outstanding is claimed by an instance that goes (unless one
instance is left), and none is before the smallest start row.  In every infinite run from there in
which the claim loops of the consumers that are left drop no entry for good:

* every entry that was outstanding is processed, unless one of the consumers commits only finitely
  many transactions in which a call of `dequeue` returned;
* every call of `dequeue` returns. -/
theorem eventually_processed_of_shrink {as : List Action} {ρ : Nat → State} (hg : g ∈ groups.ids)
    (hfifo : (groups.config g).dequeueStrategy = .fifo) (hlt : n < (groups.config g).groupSize)
    (h : Lts.Run (step groups) NoEvict .init as s) (hok : s.ShrinkOk groups g n)
    (hzero : ρ 0 = s.reconfigure groups g n)
    (hρ : Lts.Trace (step (groups.resize g n hpos)) (ShrunkOk (groups.resize g n hpos) g n) ρ) :
    (∀ r, s.Outstanding g r → (∃ k, (ρ k).Processed g r) ∨
      ∃ i < n, ∃ N, ∀ k, ((ρ k).cycles (g, i)).length ≤ N) ∧
    ∀ k, ∀ i < n, ∀ bs s', Lts.Run (step (groups.resize g n hpos))
      (fun s a ↦ s.InCall (g, i) ∧ LifetimeOk (groups.resize g n hpos) (g, i) s a) (ρ k) bs s' →
      bs.countP (isCallStep (g, i)) ≤ (ρ k).callSteps (groups.resize g n hpos) (g, i) ∧
        (s'.InCall (g, i) → ∃ a s'', isCallStep (g, i) a = true ∧
          s'.step (groups.resize g n hpos) a = some s'') := by
  obtain ⟨hi, hu⟩ := unevicted_run h
  have hb : ∀ c, s.Behind c := fun c ↦ behind_run (inv_init groups) (behind_init c) h
  have hstart : ∀ i < n, (ρ 0).Progress (groups.resize g n hpos) (g, i) := fun i hin ↦ by
    rw [hzero]
    exact progress_reconfigure hlt hfifo hi hu hb hok hin
  have htrace : ∀ i < n, Lts.Trace (step (groups.resize g n hpos))
      (ProgressOk (groups.resize g n hpos) (g, i)) ρ :=
    fun i hin ↦ hρ.mono fun s a hok ↦ ⟨hok.1 i hin, hok.2⟩
  have hprog : ∀ i < n, ∀ k, (ρ k).Progress (groups.resize g n hpos) (g, i) := fun i hin k ↦ by
    obtain ⟨bs, hrun⟩ := (htrace i hin).run (Nat.zero_le k)
    exact progress_run (hstart i hin) hrun
  refine ⟨fun r hr ↦ ?_, fun k i hin bs s' hrun ↦ ?_⟩
  · by_cases hever : ∃ k, (ρ k).Processed g r
    · exact .inl hever
    have hne : Lts.Trace (step (groups.resize g n hpos)) NoEvict ρ := hρ.mono fun s a hok ↦ hok.2
    have hr : (ρ 0).Outstanding g r := by rw [hzero]; exact hr
    have hout : ∀ k, (ρ k).Outstanding g r := fun k ↦ by
      obtain ⟨bs, hrun⟩ := hne.run (Nat.zero_le k)
      exact outstanding_run (hstart 0 hpos).inv hr hrun fun hp ↦ hever ⟨k, hp⟩
    obtain ⟨i, hin, hdue⟩ := exists_due_forever hne (hstart 0 hpos).inv
      (by rw [strategy_resize]; exact hfifo) (fun k ↦ (hprog 0 hpos k).settled) hout
    rw [groupSize_resize] at hin
    refine .inr ⟨i, hin, cycles_bounded (htrace i hin) (hstart i hin) ⟨hg, ?_⟩ ?_ hdue⟩
    · rw [groupSize_resize]
      exact hin
    · rw [hzero, phase, session_reconfigure]
  · obtain ⟨hle, hnext⟩ := call_ends (hprog i hin k).inv (hprog i hin k).settled hrun
    exact ⟨by omega, hnext⟩

/-- An infinite run in which nothing happens but that the region server refreshes its cache. -/
def refreshes (groups : Groups) (s : State) : Nat → State
  | 0 => s
  | k + 1 => { refreshes groups s k with
      configs := (refreshes groups s k).configs ++
        (updateCache ((refreshes groups s k).columns groups)).toList }

theorem trace_refreshes {ok : State → Action → Prop} (hok : ∀ s, ok s .refresh)
    (groups : Groups) (s : State) : Lts.Trace (step groups) ok (refreshes groups s) :=
  fun _ ↦ ⟨.refresh, hok _, rfl⟩

/-- One FIFO group with three consumers. -/
def fifoThree : Groups := fifoGroup 3 (by decide)

/-- A producer commits an entry, and an instance claims it and is rolled back. -/
def claimedBy (i : Nat) : List Action :=
  [.begin ⟨0, 1, [], [], noTxInProgress⟩ true [], .persist 1 [⟨[], []⟩], .commit 1,
    .begin ⟨1, 2, [], [], noTxInProgress⟩ true [(0, i)], .dequeue (0, i) 1, .fetch (0, i),
    .claim (0, i), .claim (0, i), .fetch (0, i), .rollbackTx (0, i), .abort 2,
    .restart (0, 0) true, .restart (0, 1) true, .restart (0, 2) true]

/-- The group after the change. -/
def fifoShrunk : Groups := fifoThree.resize 0 2 Nat.two_pos

/-- The instance takes the entry that it has claimed before, and commits. -/
def processedBy (i : Nat) : List Action :=
  [.begin ⟨2, 3, [], [], noTxInProgress⟩ true [(0, i)], .dequeue (0, i) 1, .fetch (0, i),
    .claim (0, i), .claim (0, i), .fetch (0, i), .commitTx (0, i), .commit 3,
      .postTxCommit (0, i) true]

/-- The first of three instances has claimed the entry, and it stays when the group is reduced to
two.  In an infinite run after that it processes the entry. -/
theorem eventually_processed_of_shrink_first : ∃ s ρ,
    Lts.Run (step fifoThree) NoEvict .init (claimedBy 0) s ∧ s.Outstanding 0 ⟨1, 0⟩ ∧
      s.ShrinkOk fifoThree 0 2 ∧ ρ 0 = s.reconfigure fifoThree 0 2 ∧
      Lts.Trace (step fifoShrunk) (ShrunkOk fifoShrunk 0 2) ρ ∧ (∃ k, (ρ k).Processed 0 ⟨1, 0⟩) ∧
      ((∃ k, (ρ k).Processed 0 ⟨1, 0⟩) ∨ ∃ i < 2, ∃ N, ∀ k, ((ρ k).cycles (0, i)).length ≤ N) := by
  obtain ⟨s, hrun, hout, hok, hnext⟩ := Lts.exists_run_of_exec (step fifoThree) NoEvict .init
    (claimedBy 0) (fun s ↦ s.Outstanding 0 ⟨1, 0⟩ ∧ s.ShrinkOk fifoThree 0 2 ∧
      ((Lts.exec (step fifoShrunk) (ShrunkOk fifoShrunk 0 2) (s.reconfigure fifoThree 0 2)
        (processedBy 0)).any fun t ↦ decide (t.Processed 0 ⟨1, 0⟩)) = true) (by decide +kernel)
  obtain ⟨t, hrun', hprocessed⟩ := Lts.exists_run_of_exec _ _ _ _ _ hnext
  obtain ⟨ρ, hρ, hzero, hlater⟩ :=
    hrun'.exists_trace (trace_refreshes (fun _ ↦ ⟨fun _ _ ↦ trivial, rfl⟩) _ t) rfl
  have hever : (ρ ((processedBy 0).length + 0)).Processed 0 ⟨1, 0⟩ := by
    rw [hlater]
    exact hprocessed
  exact ⟨s, ρ, hrun, hout, hok, hzero, hρ, ⟨_, hever⟩,
    (eventually_processed_of_shrink (by decide) rfl (by decide) hrun hok hzero hρ).1 _ hout⟩

/-! ## What the instances that are gone have claimed -/

/-- Nobody writes to an entry that an instance that is gone has claimed. -/
theorem orphan_step {a : Action} {st : StateContent} (hi : s.Inv groups)
    (hm : mustClaim (groups.consumerConfig (g, 0)))
    (hgone : (groups.config g).groupSize ≤ st.instanceId) (hst : s.table.state g r = some st)
    (hl : s'.Live r) (h : s.step groups a = some s') : s'.table.state g r = some st := by
  obtain ⟨st', hst', heq⟩ := (stable_step hi h).claimed (c := (g, 0)) hm hst hl
  rcases state_step hi h hst' with hold | hhas
  · rw [hst, Option.some_inj] at hold
    rw [hold]
    exact hst'
  · have hlt : st'.instanceId < (groups.config g).groupSize := hhas.2
    omega

/-- **An entry that an instance that is gone has claimed is never returned**, as long as the group
has more than one instance: no consumer ever holds it, and it is never processed. -/
theorem orphan_never_returned {as : List Action} {st : StateContent} (hi : s.Inv groups)
    (hu : s.Unevicted) (hm : mustClaim (groups.consumerConfig (g, 0)))
    (hr : s.Outstanding g r) (hst : s.table.state g r = some st) (hcl : st.state = .claimed)
    (hgone : (groups.config g).groupSize ≤ st.instanceId)
    (h : Lts.Run (step groups) NoEvict s as s') :
    ¬ s'.Processed g r ∧ ∀ i x, s'.Holding (g, i) x → x.rowKey ≠ r := by
  obtain ⟨hi', hu', -, -, hst'⟩ := h.invariant (I := fun s ↦ s.Inv groups ∧ s.Unevicted ∧
      s.Live r ∧ s.manager.statusOf r.writePointer = some .committed ∧
      s.table.state g r = some st)
    (fun ⟨hi, hu, hl, hc, hst⟩ hok hstep ↦ by
      have hl' := live_step hstep hok hc hl
      exact ⟨inv_step hi hstep, unevicted_step hi hu hok hstep, hl',
        (stable_step hi hstep).committed hc, orphan_step hi hm hgone hst hl' hstep⟩)
    ⟨hi, hu, hr.1, hr.2.1, hst⟩
  refine ⟨?_, fun i x hx heq ↦ ?_⟩
  · rintro ⟨st', h', hproc, -⟩
    obtain rfl := Option.some_inj.mp (hst'.symm.trans h')
    rw [hcl] at hproc
    exact absurd hproc (by simp)
  · obtain ⟨hhas, hmine⟩ := hx.mine hi' hu'
    obtain ⟨st', h', hown⟩ := hmine.2 (mustClaim_congr rfl hm)
    have h' : s'.table.state g x.rowKey = some st' := h'
    rw [heq] at h'
    obtain rfl := Option.some_inj.mp (hst'.symm.trans h')
    have hlt : i < (groups.config g).groupSize := hhas.2
    have hown : st.instanceId = i := hown
    omega

/-- **The last of three instances has claimed an entry; when the group is reduced to two, nobody
gets it.** -/
theorem exists_never_returned : ∃ (as : List Action) (s : State) (r : Row),
    Lts.Run (step fifoThree) NoEvict .init as s ∧ (∀ i ∈ [0, 1, 2], s.phase (0, i) = .idle) ∧
      s.Outstanding 0 r ∧
      ∀ bs s', Lts.Run (step (fifoThree.resize 0 2 (by decide))) NoEvict
          (s.reconfigure fifoThree 0 2) bs s' →
        ¬ s'.Processed 0 r ∧ ∀ i x, s'.Holding (0, i) x → x.rowKey ≠ r := by
  obtain ⟨s, hrun, hidle, hout, hst⟩ := Lts.exists_run_of_exec (step fifoThree) NoEvict .init
    (claimedBy 2) (fun s ↦ (∀ i ∈ ([0, 1, 2] : List Nat), s.phase (0, i) = .idle) ∧
      s.Outstanding 0 ⟨1, 0⟩ ∧ s.table.state 0 ⟨1, 0⟩ = some ⟨2, 2, .claimed⟩) (by decide +kernel)
  refine ⟨_, s, ⟨1, 0⟩, hrun, hidle, hout, fun bs s' hrun' ↦ ?_⟩
  obtain ⟨hi, hu⟩ := unevicted_run hrun
  exact orphan_never_returned (inv_reconfigure hi rfl) (unevicted_reconfigure hu)
    (by decide) hout hst rfl (by decide) hrun'

end State
end Tigon
