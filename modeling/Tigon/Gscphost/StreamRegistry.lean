import Tigon.Gscphost.RingBuf

/-!
# Which ring buffers a stream is posted to

`callbackregistries.c` keeps a table that says which ring buffers the tuples of a stream go to.  A
slot of the table has a stream, a ring buffer, a reference count, and the mode of posting. 
`add_streamid` counts up the slot of the stream and the buffer, or takes a free slot, or doubles the
table; `rm_streamid` counts down.  A slot is free when its count is zero.  It keeps its stream and
buffer then, and `next_streamid` does not look at the count: the loop over the buffers of a stream
also comes to those that have left it. `state_streamid` looks at the first slot only.

`post_tuple` and `hfta_post_tuple` go through the buffers of the stream twice, first to see whether
there is space in all that are atomic, then to write.

A `State` is the table together with what it stands for: how often each buffer was added to each
stream and not removed, and the mode that was last set for it.  `exact_iff_seenLive` says that in
the runs where `state_streamid` is only called for the first slot, the loop over a stream sees what
it should just when it comes to no free slot, and that the two functions then post as documented. 
`exists_not_exact` removes the only buffer of a stream and finds it still there.
-/

set_option autoImplicit false
set_option linter.unusedSectionVars false

namespace Tigon.Gscphost

open Function List

/-- How tuples are posted to a ring buffer. -/
inductive Mode
  | atomic | besteffort | suspend
deriving DecidableEq, Repr

/-- `struct ftacallbackstreamid`.  The buffer is null in a slot that was never used. -/
structure Slot (R : Type) where
  refcnt : Nat
  streamid : Nat
  state : Mode
  r : Option R
deriving DecidableEq

namespace StreamRegistry

variable {R P : Type} [DecidableEq R] [DecidableEq P]

/-! ## The table -/

/-- The slot counts references of the buffer to the stream. -/
def Slot.Counts (slot : Slot R) (r : R) (streamid : Nat) : Prop :=
  slot.streamid = streamid ∧ slot.r = some r ∧ 0 < slot.refcnt

instance (slot : Slot R) (r : R) (streamid : Nat) : Decidable (Slot.Counts slot r streamid) :=
  inferInstanceAs (Decidable (_ ∧ _))

/-- `STARTSZ` -/
def startSz : Nat := 1024

/-- A slot in memory that was set to zero. -/
def zeroed : Slot R := ⟨0, 0, .atomic, none⟩

/-- New slots at the end of a table of the given size.  Their buffers and modes are not set. -/
def grown (junk : Nat → Option R × Mode) (size : Nat) : List (Slot R) :=
  (range size).map fun i ↦ ⟨0, 0, (junk (size + i)).2, (junk (size + i)).1⟩

/-- The first of the slots is to be found, or allocated. -/
def allocated (table : List (Slot R)) : List (Slot R) :=
  if table = [] then replicate startSz zeroed else table

/-- `ftacallback_add_streamid` -/
def addStreamid (junk : Nat → Option R × Mode) (table : List (Slot R)) (r : R) (streamid : Nat) :
    List (Slot R) :=
  let table := allocated table
  match table.findIdx? fun slot ↦ decide (Slot.Counts slot r streamid) with
  | some x => table.modify x fun slot ↦ { slot with refcnt := slot.refcnt + 1 }
  | none =>
    match table.findIdx? fun slot ↦ decide (slot.refcnt = 0) with
    | some x => table.set x ⟨1, streamid, .atomic, some r⟩
    | none => (table ++ grown junk table.length).set table.length ⟨1, streamid, .atomic, some r⟩

/-- `ftacallback_rm_streamid` -/
def rmStreamid (table : List (Slot R)) (r : R) (streamid : Nat) : List (Slot R) :=
  table.map fun slot ↦
    if Slot.Counts slot r streamid then { slot with refcnt := slot.refcnt - 1 } else slot

variable (dest : R → P)

/-- The slot is in use for the stream and the destination. -/
def Slot.Serves (slot : Slot R) (streamid : Nat) (process : P) : Prop :=
  slot.streamid = streamid ∧ slot.r.map dest = some process ∧ 0 < slot.refcnt

instance (slot : Slot R) (streamid : Nat) (process : P) :
    Decidable (Slot.Serves dest slot streamid process) :=
  inferInstanceAs (Decidable (_ ∧ _))

/-- `ftacallback_state_streamid`.  The loop returns after the first slot. -/
def stateStreamid (table : List (Slot R)) (streamid : Nat) (process : P) (state : Mode) :
    List (Slot R) :=
  match table with
  | [] => []
  | slot :: rest =>
    (if Slot.Serves dest slot streamid process then { slot with state := state } else slot) :: rest

/-- The slots that a loop over `ftacallback_next_streamid` comes to.  It ends with a null buffer. -/
def seen (table : List (Slot R)) (streamid : Nat) : List (Slot R) :=
  (table.filter fun slot ↦ slot.streamid = streamid).takeWhile fun slot ↦ slot.r.isSome

/-- What `ftacallback_next_streamid` returns, one after the other. -/
def iterate (table : List (Slot R)) (streamid : Nat) : List (R × Mode) :=
  (seen table streamid).filterMap fun slot ↦ slot.r.map fun r ↦ (r, slot.state)

/-! ## Posting -/

/-- There is space in the buffer if it has to have the tuple. -/
def HasSpace (bufs : R → RingBuf) (b : R × Mode) : Prop := b.2 = .atomic → (bufs b.1).SpaceToWrite

instance (bufs : R → RingBuf) (b : R × Mode) : Decidable (HasSpace bufs b) :=
  inferInstanceAs (Decidable (_ → _))

/-- The tuple is written to the buffer, unless it is suspended or full. -/
def post (t : Tuple) (bufs : R → RingBuf) (b : R × Mode) : R → RingBuf :=
  if b.2 ≠ .suspend ∧ (bufs b.1).SpaceToWrite then update bufs b.1 ((bufs b.1).write t)
  else bufs

/-- `hfta_post_tuple`: what it returns and the buffers after that.  If it is to wait for space, it
may not return. -/
def hftaPostTuple (blocking printing : Bool) (table : List (Slot R)) (bufs : R → RingBuf)
    (streamid : Nat) (t : Tuple) : Option (Int × (R → RingBuf)) :=
  if maxTupleSz < t.data.length then some (-1, bufs)
  else if printing then some (0, bufs)
  else if ∀ b ∈ iterate table streamid, HasSpace bufs b then
    some (0, (iterate table streamid).foldl (post t) bufs)
  else if blocking then none else some (-1, bufs)

/-- The loop of `allocate_tuple`: the first buffer that is not suspended and has space.  The outer
option is none where it waits for space. -/
def allocateLoop (blocking : Bool) (bufs : R → RingBuf) : List (R × Mode) → Option (Option R)
  | [] => some none
  | b :: bs =>
    if b.2 ≠ .suspend then
      if (bufs b.1).SpaceToWrite then some (some b.1)
      else if blocking ∧ b.2 = .atomic then none else allocateLoop blocking bufs bs
    else allocateLoop blocking bufs bs

/-- `allocate_tuple` and, if there is memory for the tuple, `post_tuple`. -/
def postTuple (blocking : Bool) (table : List (Slot R)) (bufs : R → RingBuf) (streamid : Nat)
    (t : Tuple) : Option (Int × (R → RingBuf)) :=
  if maxTupleSz < t.data.length then some (-1, bufs)
  else
    match allocateLoop blocking bufs (iterate table streamid) with
    | none => none
    | some none => some (-1, bufs)
    | some (some ru) =>
      let rest := (iterate table streamid).filter fun b ↦ b.1 ≠ ru
      if ∀ b ∈ rest, HasSpace bufs b then
        let bufs := rest.foldl (post t) bufs
        some (0, update bufs ru ((bufs ru).write t))
      else if blocking then none else some (-1, bufs)

/-! ## Runs -/

/-- The table, and what it stands for. -/
structure State (R : Type) where
  table : List (Slot R)
  /-- How often the buffer was added to the stream and not removed. -/
  count : Nat → R → Nat
  /-- The mode last set for the buffer. -/
  mode : Nat → R → Mode

inductive Action (R P : Type)
  | add (r : R) (streamid : Nat) (junk : Nat → Option R × Mode)
  | rm (r : R) (streamid : Nat)
  | state (streamid : Nat) (process : P) (state : Mode)

namespace State

def init : State R := ⟨[], fun _ _ ↦ 0, fun _ _ ↦ .atomic⟩

/-- The buffer is added to the stream.  A new one is atomic. -/
def add (s : State R) (r : R) (streamid : Nat) (junk : Nat → Option R × Mode) : State R where
  table := addStreamid junk s.table r streamid
  count := fun x q ↦ if x = streamid ∧ q = r then s.count x q + 1 else s.count x q
  mode := fun x q ↦ if x = streamid ∧ q = r ∧ s.count x q = 0 then .atomic else s.mode x q

def rm (s : State R) (r : R) (streamid : Nat) : State R where
  table := rmStreamid s.table r streamid
  count := fun x q ↦ if x = streamid ∧ q = r then s.count x q - 1 else s.count x q
  mode := s.mode

/-- The mode is set for the buffers of the stream that go to the process. -/
def setState (s : State R) (streamid : Nat) (process : P) (state : Mode) : State R where
  table := stateStreamid dest s.table streamid process state
  count := s.count
  mode := fun x q ↦
    if x = streamid ∧ dest q = process ∧ 0 < s.count x q then state else s.mode x q

def step (s : State R) : Action R P → Option (State R)
  | .add r streamid junk => some (s.add r streamid junk)
  | .rm r streamid => some (s.rm r streamid)
  | .state streamid process state => some (s.setState dest streamid process state)

/-- Only the first slot is in use for the stream and the destination, unless the mode is set
already. -/
def StateOk (s : State R) : Action R P → Prop
  | .state streamid process state =>
    ∀ slot ∈ s.table.tail, Slot.Serves dest slot streamid process → slot.state = state
  | _ => True

/-- The loop over the stream sees its buffers, each once and with its mode. -/
structure Exact (s : State R) (streamid : Nat) : Prop where
  nodup : ((iterate s.table streamid).map Prod.fst).Nodup
  mem : ∀ r state, (r, state) ∈ iterate s.table streamid ↔
    0 < s.count streamid r ∧ state = s.mode streamid r

/-- The loop over the stream comes to no free slot. -/
def SeenLive (s : State R) (streamid : Nat) : Prop :=
  ∀ slot ∈ seen s.table streamid, 0 < slot.refcnt

/-- What a call that posts a tuple returns, and where it writes. -/
structure Posts (s : State R) (streamid : Nat) (t : Tuple) (bufs bufs' : R → RingBuf) (ret : Int) :
    Prop where
  /-- It returns 0 only if all atomic buffers have the tuple, -/
  zero : ret = 0 → ∀ r, 0 < s.count streamid r → s.mode streamid r = .atomic →
    bufs' r = (bufs r).write t
  /-- and -1 only if none has. -/
  minusOne : ret = -1 → bufs' = bufs
  /-- It does not write to a buffer that is suspended or has left the stream, -/
  frame : ∀ r, s.count streamid r = 0 ∨ s.mode streamid r = .suspend → bufs' r = bufs r
  /-- and to no buffer twice. -/
  once : ∀ r, bufs' r = bufs r ∨ bufs' r = (bufs r).write t

/-! ## What the table stands for -/

/-- The slots in use stand for the counts and modes. -/
structure Rep (s : State R) : Prop where
  sound : ∀ slot ∈ s.table, 0 < slot.refcnt → ∃ r, slot.r = some r ∧
    slot.refcnt = s.count slot.streamid r ∧ slot.state = s.mode slot.streamid r
  complete : ∀ x r, 0 < s.count x r → ∃ slot ∈ s.table, Slot.Counts slot r x
  /-- No two slots are in use for the same stream and buffer. -/
  distinct : s.table.Pairwise fun a b ↦
    0 < a.refcnt → 0 < b.refcnt → a.streamid = b.streamid → a.r ≠ b.r
  /-- The slots that were never used come last. -/
  layout : s.table.Pairwise fun a b ↦ a.r = none → b.refcnt = 0

section

variable {s t : State R} {a a' : Slot R} {l₁ l₂ : List (Slot R)} {r : R} {x : Nat}

theorem Rep.of_counts (h : s.Rep) (ha : a ∈ s.table) (hc : Slot.Counts a r x) :
    a.refcnt = s.count x r ∧ a.state = s.mode x r := by
  obtain ⟨rfl, hr, hpos⟩ := hc
  obtain ⟨r', hr', hcount, hmode⟩ := h.sound a ha hpos
  obtain rfl : r = r' := Option.some.inj (hr.symm.trans hr')
  exact ⟨hcount, hmode⟩

theorem rep_init : (init : State R).Rep :=
  ⟨(fun slot h ↦ by cases h), fun x r h ↦ absurd h (Nat.lt_irrefl 0), .nil, .nil⟩

/-- Free slots may be added at the end. -/
theorem Rep.append (l : List (Slot R)) (h : s.Rep) (ht : t.table = s.table ++ l)
    (hcount : t.count = s.count) (hmode : t.mode = s.mode) (hfree : ∀ slot ∈ l, slot.refcnt = 0) :
      t.Rep where
  sound := by
    intro slot hslot hpos
    rw [ht, mem_append] at hslot
    rcases hslot with hslot | hslot
    · rw [hcount, hmode]
      exact h.sound slot hslot hpos
    · exact absurd (hfree slot hslot) hpos.ne'
  complete := by
    intro x r hpos
    rw [hcount] at hpos
    obtain ⟨slot, hslot, hc⟩ := h.complete x r hpos
    exact ⟨slot, ht ▸ mem_append_left _ hslot, hc⟩
  distinct := by
    rw [ht, pairwise_append]
    refine ⟨h.distinct, ?_, fun a _ b hb _ hpos ↦ absurd (hfree b hb) hpos.ne'⟩
    exact pairwise_of_forall_mem_list fun a ha b _ hpos ↦ absurd (hfree a ha) hpos.ne'
  layout := by
    rw [ht, pairwise_append]
    refine ⟨h.layout, ?_, fun a _ b hb _ ↦ hfree b hb⟩
    exact pairwise_of_forall_mem_list fun a _ b hb _ ↦ hfree b hb

variable {table : List (Slot R)}

theorem length_allocated_pos : 0 < (allocated table).length := by
  unfold StreamRegistry.allocated
  split_ifs with hnil
  · rw [length_replicate]
    decide
  · exact length_pos_of_ne_nil hnil

theorem Rep.allocated (h : s.Rep) : ({ s with table := allocated s.table } : State R).Rep := by
  unfold StreamRegistry.allocated
  split_ifs with hnil
  · refine h.append (replicate startSz zeroed) ?_ rfl rfl fun slot hslot ↦ ?_
    · rw [hnil, nil_append]
    · rw [eq_of_mem_replicate hslot]
      rfl
  · exact h

/-- One slot is put to use for the stream and the buffer: one that counted their references already,
or the first that was free. -/
theorem Rep.replace (h : s.Rep) (hs : s.table = l₁ ++ a :: l₂) (ht : t.table = l₁ ++ a' :: l₂)
    (ha' : Slot.Counts a' r x) (hcount : a'.refcnt = t.count x r) (hmode : a'.state = t.mode x r)
    (hother : ∀ y q, ¬ (y = x ∧ q = r) → t.count y q = s.count y q ∧ t.mode y q = s.mode y q)
    (hnone : ∀ slot ∈ l₁ ++ l₂, ¬ Slot.Counts slot r x)
    (ha : Slot.Counts a r x ∨ a.refcnt = 0 ∧ ∀ b ∈ l₁, b.refcnt ≠ 0) : t.Rep := by
  have hmem {slot : Slot R} (hslot : slot ∈ l₁ ++ l₂) : slot ∈ s.table := by
    rw [hs]
    rcases mem_append.mp hslot with hslot | hslot
    · exact mem_append_left _ hslot
    · exact mem_append_right _ (mem_cons_of_mem _ hslot)
  have hcases {slot : Slot R} (hslot : slot ∈ t.table) : slot = a' ∨ slot ∈ l₁ ++ l₂ := by
    rw [ht] at hslot
    simp only [mem_append, mem_cons] at hslot ⊢
    tauto
  -- A slot elsewhere is in use for another stream or buffer.
  have hapart {slot : Slot R} (hslot : slot ∈ l₁ ++ l₂) (hpos : 0 < slot.refcnt)
      (hx : slot.streamid = x) : slot.r ≠ some r := fun hr ↦ hnone slot hslot ⟨hx, hr, hpos⟩
  have hdistinct := h.distinct
  have hlayout := h.layout
  rw [hs, pairwise_append, pairwise_cons] at hdistinct hlayout
  refine ⟨fun slot hslot hpos ↦ ?_, fun y q hpos ↦ ?_, ?_, ?_⟩
  · rcases hcases hslot with rfl | hslot
    · exact ⟨r, ha'.2.1, ha'.1 ▸ hcount, ha'.1 ▸ hmode⟩
    · obtain ⟨q, hq, hc, hm⟩ := h.sound slot (hmem hslot) hpos
      have hne : ¬ (slot.streamid = x ∧ q = r) := fun heq ↦ hapart hslot hpos heq.1 (heq.2 ▸ hq)
      obtain ⟨hc', hm'⟩ := hother _ _ hne
      exact ⟨q, hq, hc.trans hc'.symm, hm.trans hm'.symm⟩
  · by_cases heq : y = x ∧ q = r
    · obtain ⟨rfl, rfl⟩ := heq
      exact ⟨a', ht ▸ mem_append_right _ mem_cons_self, ha'⟩
    · rw [(hother y q heq).1] at hpos
      obtain ⟨slot, hslot, hc⟩ := h.complete y q hpos
      refine ⟨slot, ?_, hc⟩
      rw [hs] at hslot
      rw [ht]
      simp only [mem_append, mem_cons] at hslot ⊢
      rcases hslot with hslot | rfl | hslot
      · exact .inl hslot
      · rcases ha with ha | ha
        · obtain ⟨rfl, hr, -⟩ := hc
          exact absurd ⟨ha.1, Option.some.inj (hr.symm.trans ha.2.1)⟩ heq
        · exact absurd ha.1 hc.2.2.ne'
      · exact .inr (.inr hslot)
  · rw [ht, pairwise_append, pairwise_cons]
    refine ⟨hdistinct.1, ⟨fun b hb _ hpos hstream ↦ ?_, hdistinct.2.1.2⟩, fun c hc b hb ↦ ?_⟩
    · rw [ha'.2.1]
      exact (hapart (mem_append_right _ hb) hpos (hstream ▸ ha'.1)).symm
    · rcases mem_cons.mp hb with rfl | hb
      · intro hpos _ hstream
        rw [ha'.2.1]
        exact hapart (mem_append_left _ hc) hpos (hstream.trans ha'.1)
      · exact hdistinct.2.2 c hc b (mem_cons_of_mem _ hb)
  · rw [ht, pairwise_append, pairwise_cons]
    refine ⟨hlayout.1, ⟨fun b _ hb ↦ ?_, hlayout.2.1.2⟩, fun c hc b hb hcr ↦ ?_⟩
    · rw [ha'.2.1] at hb
      cases hb
    · rcases mem_cons.mp hb with rfl | hb
      · exfalso
        rcases ha with ha | ha
        · exact ha.2.2.ne' (hlayout.2.2 c hc a mem_cons_self hcr)
        · obtain ⟨q, hq, -⟩ := h.sound c (hmem (mem_append_left _ hc))
            (Nat.pos_of_ne_zero (ha.2 c hc))
          rw [hcr] at hq
          cases hq
      · exact hlayout.2.2 c hc b (mem_cons_of_mem _ hb) hcr

/-! ## The table is kept in step -/

theorem exists_of_findIdx? {p : Slot R → Bool} {l : List (Slot R)} {i : Nat}
    (h : l.findIdx? p = some i) :
    ∃ l₁ a l₂, l = l₁ ++ a :: l₂ ∧ l₁.length = i ∧ p a ∧ ∀ b ∈ l₁, ¬ p b := by
  obtain ⟨hi, hp, hbefore⟩ := findIdx?_eq_some_iff_getElem.mp h
  refine ⟨l.take i, l[i], l.drop (i + 1), ?_, ?_, hp, fun b hb ↦ ?_⟩
  · rw [getElem_cons_drop, take_append_drop]
  · exact length_take_of_le hi.le
  · obtain ⟨j, hj, rfl⟩ := mem_take_iff_getElem.mp hb
    exact hbefore j (by omega)

theorem modify_append_cons {f : Slot R → Slot R} :
    (l₁ ++ a :: l₂).modify l₁.length f = l₁ ++ f a :: l₂ :=
  modifyTailIdx_add (modifyHead f) 0 l₁ (a :: l₂)

theorem rep_add (junk : Nat → Option R × Mode) (h : s.Rep) : (s.add r x junk).Rep := by
  have hother (y : Nat) (q : R) (hne : ¬ (y = x ∧ q = r)) :
      (s.add r x junk).count y q = s.count y q ∧ (s.add r x junk).mode y q = s.mode y q :=
    ⟨if_neg hne, if_neg fun heq ↦ hne ⟨heq.1, heq.2.1⟩⟩
  have hcount : (s.add r x junk).count x r = s.count x r + 1 := if_pos ⟨rfl, rfl⟩
  have hmode : (s.add r x junk).mode x r = if s.count x r = 0 then .atomic else s.mode x r := by
    simp [add]
  have hall := h.allocated
  have htable : (s.add r x junk).table = addStreamid junk s.table r x := rfl
  unfold addStreamid at htable
  simp only at htable
  split at htable
  · rename_i i hi
    obtain ⟨l₁, a, l₂, hl, rfl, ha, -⟩ := exists_of_findIdx? hi
    have ha := of_decide_eq_true ha
    rw [hl, modify_append_cons] at htable
    have hsame := hall.of_counts (x := x) (r := r) (by rw [hl]; simp) ha
    have hpos : s.count x r ≠ 0 := hsame.1 ▸ ha.2.2.ne'
    refine hall.replace hl htable ⟨ha.1, ha.2.1, Nat.succ_pos _⟩ ?_ ?_ hother ?_ (.inl ha)
    · rw [hcount, hsame.1]
    · rw [hmode, if_neg hpos, hsame.2]
    · -- No other slot counts the same references.
      have hdistinct := hall.distinct
      rw [hl, pairwise_append, pairwise_cons] at hdistinct
      intro slot hslot hc
      rcases mem_append.mp hslot with hslot | hslot
      · exact hdistinct.2.2 slot hslot a mem_cons_self hc.2.2 ha.2.2 (hc.1.trans ha.1.symm)
          (hc.2.1.trans ha.2.1.symm)
      · exact hdistinct.2.1.1 slot hslot ha.2.2 hc.2.2 (ha.1.trans hc.1.symm)
          (ha.2.1.trans hc.2.1.symm)
  · rename_i hnotfound
    have hnone : ∀ slot ∈ allocated s.table, ¬ Slot.Counts slot r x := fun slot hslot ↦
      of_decide_eq_false (findIdx?_eq_none_iff.mp hnotfound slot hslot)
    have hzero : s.count x r = 0 := by
      by_contra hne
      obtain ⟨slot, hslot, hc⟩ := hall.complete x r (Nat.pos_of_ne_zero hne)
      exact hnone slot hslot hc
    rw [hzero] at hcount hmode
    split at htable
    · rename_i i hi
      obtain ⟨l₁, a, l₂, hl, rfl, ha, hbefore⟩ := exists_of_findIdx? hi
      rw [hl, set_append_right _ _ le_rfl, Nat.sub_self, set_cons_zero] at htable
      refine hall.replace hl htable ⟨rfl, rfl, Nat.one_pos⟩ hcount.symm hmode.symm hother ?_
        (.inr ⟨of_decide_eq_true ha, fun b hb h0 ↦ hbefore b hb (decide_eq_true h0)⟩)
      intro slot hslot
      refine hnone slot ?_
      rw [hl]
      rcases mem_append.mp hslot with hslot | hslot
      · exact mem_append_left _ hslot
      · exact mem_append_right _ (mem_cons_of_mem _ hslot)
    · rename_i hfull
      have hlive : ∀ b ∈ allocated s.table, b.refcnt ≠ 0 := fun b hb ↦
        of_decide_eq_false (findIdx?_eq_none_iff.mp hfull b hb)
      have hfree : ∀ slot ∈ grown junk (allocated s.table).length, slot.refcnt = 0 := by
        intro slot hslot
        obtain ⟨i, -, rfl⟩ := mem_map.mp hslot
        rfl
      have hlength : (grown junk (allocated s.table).length).length =
        (allocated s.table).length := by
        rw [grown, length_map, length_range]
      obtain ⟨g, gs, hgs⟩ : ∃ g gs, grown junk (allocated s.table).length = g :: gs := by
        refine exists_cons_of_length_pos ?_
        rw [hlength]
        exact length_allocated_pos
      have happend : State.Rep ⟨allocated s.table ++ g :: gs, s.count, s.mode⟩ :=
        hall.append (g :: gs) rfl rfl rfl (hgs ▸ hfree)
      rw [hgs, set_append_right _ _ le_rfl, Nat.sub_self, set_cons_zero] at htable
      refine happend.replace rfl htable ⟨rfl, rfl, Nat.one_pos⟩ hcount.symm hmode.symm hother ?_
        (.inr ⟨hfree g (hgs ▸ mem_cons_self), hlive⟩)
      intro slot hslot hc
      rcases mem_append.mp hslot with hslot | hslot
      · exact hnone slot hslot hc
      · exact hc.2.2.ne' (hfree slot (hgs ▸ mem_cons_of_mem _ hslot))

theorem rep_rm (h : s.Rep) : (s.rm r x).Rep := by
  -- What is counted down, and what is kept of a slot.
  have hkept (slot : Slot R) :
      (if Slot.Counts slot r x then { slot with refcnt := slot.refcnt - 1 } else slot).streamid =
          slot.streamid ∧
        (if Slot.Counts slot r x then { slot with refcnt := slot.refcnt - 1 } else slot).r =
          slot.r ∧
        (if Slot.Counts slot r x then { slot with refcnt := slot.refcnt - 1 } else slot).state =
          slot.state ∧
        (if Slot.Counts slot r x then { slot with refcnt := slot.refcnt - 1 } else slot).refcnt ≤
          slot.refcnt := by
    split_ifs
    · exact ⟨rfl, rfl, rfl, Nat.sub_le _ _⟩
    · exact ⟨rfl, rfl, rfl, le_rfl⟩
  refine ⟨fun slot' hslot' hpos ↦ ?_, fun y q hpos ↦ ?_, ?_, ?_⟩
  · obtain ⟨slot, hslot, rfl⟩ := mem_map.mp hslot'
    obtain ⟨hstream, hr, hstate, hle⟩ := hkept slot
    obtain ⟨q, hq, hc, hm⟩ := h.sound slot hslot (hpos.trans_le hle)
    refine ⟨q, hr.trans hq, ?_, ?_⟩
    · rw [hstream]
      simp only [rm]
      split_ifs with hcounts heq heq
      · exact congrArg (· - 1) hc
      · exact absurd ⟨hcounts.1, Option.some.inj (hq.symm.trans hcounts.2.1)⟩ heq
      · exact absurd ⟨heq.1, heq.2 ▸ hq, hpos.trans_le hle⟩ hcounts
      · exact hc
    · rw [hstream, hstate]
      exact hm
  · have hpos' : 0 < s.count y q := by
      simp only [rm] at hpos
      split_ifs at hpos
      · omega
      · exact hpos
    obtain ⟨slot, hslot, hc⟩ := h.complete y q hpos'
    refine ⟨_, mem_map_of_mem hslot, ?_⟩
    obtain ⟨hstream, hr, -, -⟩ := hkept slot
    refine ⟨hstream.trans hc.1, hr.trans hc.2.1, ?_⟩
    have hcount := (h.of_counts hslot hc).1
    simp only [rm] at hpos
    split_ifs at hpos with heq
    · obtain ⟨rfl, rfl⟩ := heq
      rw [if_pos hc]
      simp only
      omega
    · rw [if_neg fun hcounts ↦ heq ?_]
      · exact hc.2.2
      · exact ⟨hc.1.symm.trans hcounts.1, Option.some.inj (hc.2.1.symm.trans hcounts.2.1)⟩
  · refine pairwise_map.mpr (h.distinct.imp fun {a b} hab ha hb hstream ↦ ?_)
    rw [(hkept a).1, (hkept b).1] at hstream
    rw [(hkept a).2.1, (hkept b).2.1]
    exact hab (ha.trans_le (hkept a).2.2.2) (hb.trans_le (hkept b).2.2.2) hstream
  · refine pairwise_map.mpr (h.layout.imp fun {a b} hab ha ↦ ?_)
    rw [(hkept a).2.1] at ha
    exact Nat.le_zero.mp ((hab ha) ▸ (hkept b).2.2.2)

theorem rep_setState {process : P} {state : Mode} (h : s.Rep)
    (hok : s.StateOk dest (.state x process state)) : (s.setState dest x process state).Rep := by
  obtain ⟨table, count, mode⟩ := s
  cases table with
  | nil =>
    refine ⟨(fun slot hslot ↦ by cases hslot), fun y q hpos ↦ ?_, .nil, .nil⟩
    obtain ⟨slot, hslot, -⟩ := h.complete y q hpos
    cases hslot
  | cons a l =>
    have hkept : (if Slot.Serves dest a x process then { a with state := state } else a).streamid =
          a.streamid ∧
        (if Slot.Serves dest a x process then { a with state := state } else a).r = a.r ∧
        (if Slot.Serves dest a x process then { a with state := state } else a).refcnt =
          a.refcnt := by
      split_ifs <;> exact ⟨rfl, rfl, rfl⟩
    -- A slot in use whose mode is the one to be set, if it serves the destination.
    have hset {slot : Slot R} (hslot : slot ∈ a :: l) (hpos : 0 < slot.refcnt) {st : Mode}
        (hst : st = if Slot.Serves dest slot x process then state else slot.state) :
        ∃ q, slot.r = some q ∧ slot.refcnt = count slot.streamid q ∧
          st = if slot.streamid = x ∧ dest q = process ∧ 0 < count slot.streamid q then state
            else mode slot.streamid q := by
      obtain ⟨q, hq, hc, hm⟩ := h.sound slot hslot hpos
      refine ⟨q, hq, hc, hst.trans ?_⟩
      have hiff : Slot.Serves dest slot x process ↔
          slot.streamid = x ∧ dest q = process ∧ 0 < count slot.streamid q := by
        rw [Slot.Serves, hq, Option.map_some, Option.some_inj, hc]
      simp only [hiff, hm]
    refine ⟨fun slot hslot hpos ↦ ?_, fun y q hpos ↦ ?_, ?_, ?_⟩
    · rcases mem_cons.mp hslot with rfl | hslot
      · obtain ⟨q, hq, hc, hm⟩ := hset mem_cons_self (hkept.2.2 ▸ hpos) rfl
        refine ⟨q, hkept.2.1.trans hq, ?_, ?_⟩
        · rw [hkept.1, hkept.2.2]
          exact hc
        · rw [hkept.1]
          refine Eq.trans ?_ hm
          split_ifs <;> rfl
      · refine hset (mem_cons_of_mem _ hslot) hpos ?_
        split_ifs with hserves
        · exact hok slot hslot hserves
        · rfl
    · obtain ⟨slot, hslot, hc⟩ := h.complete y q hpos
      rcases mem_cons.mp hslot with rfl | hslot
      · refine ⟨_, mem_cons_self, ?_⟩
        rw [Slot.Counts, hkept.1, hkept.2.1, hkept.2.2]
        exact hc
      · exact ⟨slot, mem_cons_of_mem _ hslot, hc⟩
    · have hdistinct := pairwise_cons.mp h.distinct
      refine pairwise_cons.mpr ⟨fun b hb ↦ ?_, hdistinct.2⟩
      rw [hkept.1, hkept.2.1, hkept.2.2]
      exact hdistinct.1 b hb
    · have hlayout := pairwise_cons.mp h.layout
      refine pairwise_cons.mpr ⟨fun b hb ↦ ?_, hlayout.2⟩
      rw [hkept.2.1]
      exact hlayout.1 b hb

theorem rep_step {b : Action R P} (h : s.Rep) (hok : s.StateOk dest b)
    (hstep : s.step dest b = some t) : t.Rep := by
  cases b with
  | add r x junk =>
    obtain rfl := Option.some.inj hstep
    exact rep_add junk h
  | rm r x =>
    obtain rfl := Option.some.inj hstep
    exact rep_rm h
  | state x process state =>
    obtain rfl := Option.some.inj hstep
    exact rep_setState dest h hok

/-- The slots in use are given by the counts and the modes. -/
theorem Rep.live_iff (h : s.Rep) : a ∈ s.table ∧ 0 < a.refcnt ↔
    ∃ r, a.r = some r ∧ 0 < s.count a.streamid r ∧ a.refcnt = s.count a.streamid r ∧
      a.state = s.mode a.streamid r := by
  constructor
  · rintro ⟨ha, hpos⟩
    obtain ⟨r, hr, hcount, hmode⟩ := h.sound a ha hpos
    exact ⟨r, hr, hcount ▸ hpos, hcount, hmode⟩
  · rintro ⟨r, hr, hpos, hcount, hmode⟩
    obtain ⟨b, hb, hc⟩ := h.complete a.streamid r hpos
    obtain ⟨hcount', hmode'⟩ := h.of_counts hb hc
    have heq : a = b := by
      obtain ⟨refcnt, streamid, state, r'⟩ := a
      obtain ⟨refcnt', streamid', state', r''⟩ := b
      obtain ⟨rfl, rfl, -⟩ := hc
      simp only [Slot.mk.injEq]
      exact ⟨hcount.trans hcount'.symm, trivial, hmode.trans hmode'.symm, hr⟩
    exact ⟨heq ▸ hb, hcount ▸ hpos⟩

/-- Where the counts are the same and the modes of what is counted, the same slots are in use. -/
theorem Rep.live_congr (hs : s.Rep) (ht : t.Rep) (hcount : ∀ x r, t.count x r = s.count x r)
    (hmode : ∀ x r, 0 < s.count x r → t.mode x r = s.mode x r) :
    a ∈ t.table ∧ 0 < a.refcnt ↔ a ∈ s.table ∧ 0 < a.refcnt := by
  rw [hs.live_iff, ht.live_iff]
  refine exists_congr fun r ↦ and_congr_right fun _ ↦ ?_
  rw [hcount]
  refine and_congr_right fun hpos ↦ ?_
  rw [hmode _ _ hpos]

/-- A buffer that is added and removed again leaves the slots in use as they were, -/
theorem Rep.live_rm_add (junk : Nat → Option R × Mode) (h : s.Rep) :
    a ∈ ((s.add r x junk).rm r x).table ∧ 0 < a.refcnt ↔ a ∈ s.table ∧ 0 < a.refcnt := by
  refine h.live_congr (rep_rm (rep_add junk h)) (fun y q ↦ ?_) fun y q hpos ↦ ?_
  · simp only [rm, add]
    split_ifs <;> omega
  · exact if_neg fun heq ↦ hpos.ne' heq.2.2

/-- and so does one that is removed without having been added. -/
theorem Rep.live_rm_of_count_eq_zero (h : s.Rep) (h0 : s.count x r = 0) :
    a ∈ (s.rm r x).table ∧ 0 < a.refcnt ↔ a ∈ s.table ∧ 0 < a.refcnt := by
  refine h.live_congr (rep_rm h) (fun y q ↦ ?_) fun y q _ ↦ rfl
  simp only [rm]
  split_ifs with heq
  · rw [heq.1, heq.2, h0]
  · rfl

/-- The slot of a buffer that was added is another one when it is removed. -/
theorem Rep.not_live_rm (h : s.Rep) (ha : a ∈ s.table) (hc : Slot.Counts a r x) :
    ¬ (a ∈ (s.rm r x).table ∧ 0 < a.refcnt) := by
  rw [(rep_rm h).live_iff]
  rintro ⟨q, hq, -, hcount, -⟩
  obtain ⟨rfl, hr, hpos⟩ := hc
  obtain rfl : r = q := Option.some.inj (hr.symm.trans hq)
  have hsame := (h.of_counts ha ⟨rfl, hr, hpos⟩).1
  simp only [rm, and_self, if_true] at hcount
  omega

/-! ## What the loop over a stream sees -/

theorem seen_sublist : (seen table x).Sublist table :=
  (takeWhile_sublist _).trans filter_sublist

theorem mem_seen (ha : a ∈ seen table x) :
    a ∈ table ∧ a.streamid = x ∧ a.r.isSome := by
  refine ⟨seen_sublist.subset ha, ?_,
    mem_takeWhile_imp (p := fun slot : Slot R ↦ slot.r.isSome) ha⟩
  have hfilter := (takeWhile_sublist _).subset ha
  exact of_decide_eq_true (mem_filter.mp hfilter).2

theorem mem_iterate {st : Mode} :
    (r, st) ∈ iterate table x ↔ ∃ slot ∈ seen table x, slot.r = some r ∧ slot.state = st := by
  simp [iterate, mem_filterMap, Option.map_eq_some_iff]

theorem map_fst_iterate :
    (iterate table x).map Prod.fst = (seen table x).filterMap Slot.r := by
  rw [iterate, map_filterMap]
  refine congrArg (filterMap · _) (funext fun slot ↦ ?_)
  cases slot.r <;> rfl

/-- What is in use comes before the first null buffer. -/
theorem mem_takeWhile_isSome {l : List (Slot R)}
    (hsound : ∀ slot ∈ l, 0 < slot.refcnt → slot.r.isSome)
    (hlayout : l.Pairwise fun a b ↦ a.r = none → b.refcnt = 0) (ha : a ∈ l) (hpos : 0 < a.refcnt) :
    a ∈ l.takeWhile fun slot ↦ slot.r.isSome := by
  induction l with
  | nil => cases ha
  | cons b l ih =>
    have hlayout := pairwise_cons.mp hlayout
    rcases mem_cons.mp ha with rfl | ha
    · rw [takeWhile_cons, if_pos (hsound a mem_cons_self hpos)]
      exact mem_cons_self
    · have hb : b.r.isSome := by
        refine Option.isSome_iff_ne_none.mpr fun hb ↦ ?_
        exact hpos.ne' (hlayout.1 a ha hb)
      rw [takeWhile_cons, if_pos hb]
      refine mem_cons_of_mem _ (ih (fun slot hslot ↦ ?_) hlayout.2 ha)
      exact hsound slot (mem_cons_of_mem _ hslot)

theorem Rep.mem_seen (h : s.Rep) (ha : a ∈ s.table) (hc : Slot.Counts a r x) :
    a ∈ seen s.table x := by
  refine mem_takeWhile_isSome (fun slot hslot hpos ↦ ?_) (h.layout.sublist filter_sublist) ?_
    hc.2.2
  · obtain ⟨q, hq, -⟩ := h.sound slot (mem_of_mem_filter hslot) hpos
    exact Option.isSome_iff_exists.mpr ⟨q, hq⟩
  · exact mem_filter.mpr ⟨ha, decide_eq_true hc.1⟩

/-- The loop sees the buffers of the stream just when it comes to no free slot. -/
theorem Rep.exact_iff (h : s.Rep) : s.Exact x ↔ s.SeenLive x := by
  constructor
  · intro hexact slot hslot
    by_contra hfree
    obtain ⟨-, -, hsome⟩ := StreamRegistry.State.mem_seen hslot
    obtain ⟨r, hr⟩ := Option.isSome_iff_exists.mp hsome
    have hpos := ((hexact.mem r slot.state).mp (mem_iterate.mpr ⟨slot, hslot, hr, rfl⟩)).1
    obtain ⟨slot', hslot', hc⟩ := h.complete x r hpos
    -- The buffer is seen a second time, in the slot that counts its references.
    have hne : slot ≠ slot' := fun heq ↦ hfree (heq ▸ hc.2.2)
    have hnodup := hexact.nodup
    rw [map_fst_iterate, List.Nodup, pairwise_filterMap] at hnodup
    have hsymm : Std.Symm fun a b : Slot R ↦ ∀ p ∈ a.r, ∀ q ∈ b.r, p ≠ q :=
      ⟨fun a b hab q hq p hp heq ↦ hab p hp q hq heq.symm⟩
    exact hnodup.forall hslot (h.mem_seen hslot' hc) hne r hr r hc.2.1 rfl
  · intro hlive
    refine ⟨?_, fun r st ↦ ?_⟩
    · rw [map_fst_iterate, List.Nodup, pairwise_filterMap]
      refine (h.distinct.sublist seen_sublist).imp_of_mem fun {a b} ha hb hab p hp q hq heq ↦ ?_
      have hstream : a.streamid = b.streamid :=
        (StreamRegistry.State.mem_seen ha).2.1.trans (StreamRegistry.State.mem_seen hb).2.1.symm
      refine hab (hlive a ha) (hlive b hb) hstream ?_
      rw [Option.mem_def.mp hp, Option.mem_def.mp hq, heq]
    · rw [mem_iterate]
      constructor
      · rintro ⟨slot, hslot, hr, rfl⟩
        obtain ⟨hmem, hstream, -⟩ := StreamRegistry.State.mem_seen hslot
        have hc : Slot.Counts slot r x := ⟨hstream, hr, hlive slot hslot⟩
        obtain ⟨hcount, hmode⟩ := h.of_counts hmem hc
        exact ⟨hcount ▸ hc.2.2, hmode⟩
      · rintro ⟨hpos, rfl⟩
        obtain ⟨slot, hslot, hc⟩ := h.complete x r hpos
        exact ⟨slot, h.mem_seen hslot hc, hc.2.1, (h.of_counts hslot hc).2⟩

/-! ## Posting to what the loop sees -/

variable {bufs bufs' : R → RingBuf} {tup : Tuple} {blocking : Bool} {ret : Int}
  {bs : List (R × Mode)}

theorem post_of_ne {b : R × Mode} (hne : r ≠ b.1) : post tup bufs b r = bufs r := by
  unfold post
  split_ifs
  · exact update_of_ne hne _ _
  · rfl

/-- The second loop, over distinct buffers: a buffer has the tuple if it is among them, not
suspended, and has space. -/
theorem foldl_post (hnodup : (bs.map Prod.fst).Nodup) :
    bs.foldl (post tup) bufs r =
      if ∃ b ∈ bs, b.1 = r ∧ b.2 ≠ .suspend ∧ (bufs r).SpaceToWrite then (bufs r).write tup
      else bufs r := by
  induction bs generalizing bufs with
  | nil => simp
  | cons b bs ih =>
    obtain ⟨hb, hnodup⟩ := nodup_cons.mp hnodup
    rw [foldl_cons, ih hnodup]
    by_cases hr : r = b.1
    · subst hr
      have hnot : ¬ ∃ b' ∈ bs, b'.1 = b.1 ∧ b'.2 ≠ .suspend ∧
          (post tup bufs b b.1).SpaceToWrite := by
        rintro ⟨b', hb', heq, -⟩
        exact hb (heq ▸ mem_map_of_mem hb')
      rw [if_neg hnot]
      unfold post
      by_cases hpost : b.2 ≠ .suspend ∧ (bufs b.1).SpaceToWrite
      · rw [if_pos hpost, update_self, if_pos ⟨b, mem_cons_self, rfl, hpost⟩]
      · rw [if_neg hpost, if_neg]
        rintro ⟨b', hb', heq, hpost'⟩
        rcases mem_cons.mp hb' with rfl | hb'
        · exact hpost hpost'
        · exact hb (heq ▸ mem_map_of_mem hb')
    · rw [post_of_ne hr]
      refine if_congr ⟨?_, ?_⟩ rfl rfl
      · rintro ⟨b', hb', hpost⟩
        exact ⟨b', mem_cons_of_mem _ hb', hpost⟩
      · rintro ⟨b', hb', heq, hpost⟩
        rcases mem_cons.mp hb' with rfl | hb'
        · exact absurd heq.symm hr
        · exact ⟨b', hb', heq, hpost⟩

theorem posts_refl (hret : ret = -1) : s.Posts x tup bufs bufs ret :=
  ⟨fun h0 ↦ absurd (h0.symm.trans hret) (by decide), fun _ ↦ rfl, fun _ _ ↦ rfl, fun _ ↦ .inl rfl⟩

theorem Exact.posts_hfta (hexact : s.Exact x)
    (h : hftaPostTuple blocking false s.table bufs x tup = some (ret, bufs')) :
    s.Posts x tup bufs bufs' ret := by
  unfold hftaPostTuple at h
  simp only [Bool.false_eq_true, if_false] at h
  split_ifs at h with hsize hspace
  · obtain ⟨rfl, rfl⟩ := Prod.mk.inj (Option.some.inj h)
    exact posts_refl rfl
  · obtain ⟨rfl, rfl⟩ := Prod.mk.inj (Option.some.inj h)
    refine ⟨fun _ r hcount hmode ↦ ?_, fun h ↦ absurd h (by decide), fun r hr ↦ ?_, fun r ↦ ?_⟩
    · have hmem : (r, Mode.atomic) ∈ iterate s.table x := (hexact.mem r _).mpr ⟨hcount, hmode.symm⟩
      rw [foldl_post hexact.nodup, if_pos ⟨_, hmem, rfl, Mode.noConfusion, hspace _ hmem rfl⟩]
    · rw [foldl_post hexact.nodup, if_neg]
      rintro ⟨⟨q, st⟩, hmem, rfl, hst, -⟩
      obtain ⟨hcount, rfl⟩ := (hexact.mem q st).mp hmem
      rcases hr with hr | hr
      · exact hcount.ne' hr
      · exact hst hr
    · rw [foldl_post hexact.nodup]
      split_ifs
      · exact .inr rfl
      · exact .inl rfl
  · obtain ⟨rfl, rfl⟩ := Prod.mk.inj (Option.some.inj h)
    exact posts_refl rfl

/-- Memory is allocated in a buffer that is to have the tuple and has space. -/
theorem allocateLoop_spec {ru : R} (h : allocateLoop blocking bufs bs = some (some ru)) :
    ∃ b ∈ bs, b.1 = ru ∧ b.2 ≠ .suspend ∧ (bufs ru).SpaceToWrite := by
  induction bs with
  | nil => cases h
  | cons b bs ih =>
    unfold allocateLoop at h
    split_ifs at h with hst hspace hwait
    · obtain rfl : b.1 = ru := Option.some.inj (Option.some.inj h)
      exact ⟨b, mem_cons_self, rfl, hst, hspace⟩
    all_goals
      obtain ⟨b', hb', hpost⟩ := ih h
      exact ⟨b', mem_cons_of_mem _ hb', hpost⟩

theorem Exact.posts (hexact : s.Exact x)
    (h : postTuple blocking s.table bufs x tup = some (ret, bufs')) :
    s.Posts x tup bufs bufs' ret := by
  unfold postTuple at h
  split at h
  · obtain ⟨rfl, rfl⟩ := Prod.mk.inj (Option.some.inj h)
    exact posts_refl rfl
  · split at h
    · cases h
    · obtain ⟨rfl, rfl⟩ := Prod.mk.inj (Option.some.inj h)
      exact posts_refl rfl
    · rename_i ru halloc
      obtain ⟨⟨q, st⟩, hmem, heq, hst, hru⟩ := allocateLoop_spec halloc
      obtain rfl : q = ru := heq
      simp only at h
      set rest := (iterate s.table x).filter fun b ↦ b.1 ≠ q with hrest
      have hnodup : (rest.map Prod.fst).Nodup :=
        hexact.nodup.sublist (filter_sublist.map _)
      have hmem_rest {b : R × Mode} : b ∈ rest ↔ b ∈ iterate s.table x ∧ b.1 ≠ q := by
        rw [hrest, mem_filter, decide_eq_true_eq]
      -- The buffer with the memory is left out of both loops, and written to at the end.
      have hself : rest.foldl (post tup) bufs q = bufs q := by
        rw [foldl_post hnodup, if_neg]
        rintro ⟨b, hb, rfl, -⟩
        exact (hmem_rest.mp hb).2 rfl
      split_ifs at h with hspace
      · obtain ⟨rfl, rfl⟩ := Prod.mk.inj (Option.some.inj h)
        rw [hself]
        refine ⟨fun _ r hcount hmode ↦ ?_, fun h ↦ absurd h (by decide), fun r hr ↦ ?_, fun r ↦ ?_⟩
        · by_cases hrr : r = q
          · rw [hrr, update_self]
          · have hb : (r, Mode.atomic) ∈ rest :=
              hmem_rest.mpr ⟨(hexact.mem r _).mpr ⟨hcount, hmode.symm⟩, hrr⟩
            rw [update_of_ne hrr, foldl_post hnodup,
              if_pos ⟨_, hb, rfl, Mode.noConfusion, hspace _ hb rfl⟩]
        · have hout {st' : Mode} (hb : (r, st') ∈ iterate s.table x) : st' = .suspend := by
            obtain ⟨hcount, rfl⟩ := (hexact.mem r st').mp hb
            exact hr.resolve_left hcount.ne'
          have hrr : r ≠ q := fun heq ↦ hst (hout (heq ▸ hmem))
          rw [update_of_ne hrr, foldl_post hnodup, if_neg]
          rintro ⟨⟨p, st'⟩, hb, rfl, hst', -⟩
          exact hst' (hout (hmem_rest.mp hb).1)
        · by_cases hrr : r = q
          · rw [hrr, update_self]
            exact .inr rfl
          · rw [update_of_ne hrr, foldl_post hnodup]
            split_ifs
            · exact .inr rfl
            · exact .inl rfl
      · obtain ⟨rfl, rfl⟩ := Prod.mk.inj (Option.some.inj h)
        exact posts_refl rfl

end

/-- **What the loop over a stream sees**, in every run in which `state_streamid` is called for the
first slot: just the buffers of the stream, each once and with its mode, if and only if it comes to
no free slot.  Then `hfta_post_tuple`, unless it prints, and `post_tuple` post as documented. -/
theorem exact_iff_seenLive {as : List (Action R P)} {s : State R}
    (h : Lts.Run (step dest) (StateOk dest) init as s) (x : Nat) :
    (s.Exact x ↔ s.SeenLive x) ∧
      (s.SeenLive x → ∀ (blocking : Bool) (bufs bufs' : R → RingBuf) (t : Tuple) (ret : Int),
        (hftaPostTuple blocking false s.table bufs x t = some (ret, bufs') →
          s.Posts x t bufs bufs' ret) ∧
        (postTuple blocking s.table bufs x t = some (ret, bufs') →
          s.Posts x t bufs bufs' ret)) := by
  have hrep : s.Rep := h.invariant (fun hi hok hstep ↦ rep_step dest hi hok hstep) rep_init
  refine ⟨hrep.exact_iff, fun hlive blocking bufs bufs' t ret ↦ ?_⟩
  have hexact := hrep.exact_iff.mpr hlive
  exact ⟨hexact.posts_hfta, hexact.posts⟩

/-! ## Two runs -/

/-- After slots that are in use for others, the next one is taken. -/
theorem addStreamid_append (junk : Nat → Option R × Mode) {l : List (Slot R)} {r : R}
    {streamid : Nat} (hl : ∀ slot ∈ l, 0 < slot.refcnt ∧ ¬ Slot.Counts slot r streamid) (n : Nat) :
    addStreamid junk (l ++ replicate (n + 1) zeroed) r streamid =
      l ++ ⟨1, streamid, .atomic, some r⟩ :: replicate n zeroed := by
  have hne : l ++ replicate (n + 1) (zeroed : Slot R) ≠ [] :=
    append_ne_nil_of_right_ne_nil _ (by simp)
  have hnone : ∀ slot ∈ l ++ replicate (n + 1) zeroed,
      decide (Slot.Counts slot r streamid) = false := fun slot hslot ↦ by
    rcases mem_append.mp hslot with hslot | hslot
    · exact decide_eq_false (hl slot hslot).2
    · rw [eq_of_mem_replicate hslot]
      exact decide_eq_false fun hc ↦ Nat.lt_irrefl 0 hc.2.2
  have hused : l.findIdx? (fun slot : Slot R ↦ decide (slot.refcnt = 0)) = none :=
    findIdx?_eq_none_iff.mpr fun slot hslot ↦ decide_eq_false (hl slot hslot).1.ne'
  have hfree : (l ++ replicate (n + 1) zeroed).findIdx?
      (fun slot : Slot R ↦ decide (slot.refcnt = 0)) = some l.length := by
    rw [findIdx?_append, hused, replicate_succ, findIdx?_cons]
    simp [zeroed]
  unfold addStreamid
  simp only [allocated, if_neg hne]
  rw [findIdx?_eq_none_iff.mpr hnone, hfree]
  simp only
  rw [set_append_right _ _ le_rfl, Nat.sub_self]
  rfl

/-- The slots that were not used yet are not seen. -/
theorem seen_append {l : List (Slot R)} (hl : ∀ slot ∈ l, slot.r.isSome) (n streamid : Nat) :
    seen (l ++ replicate n zeroed) streamid = l.filter fun slot ↦ slot.streamid =
      streamid := by
  rw [seen, filter_append, takeWhile_append_of_pos]
  · have hnil : ((replicate n (zeroed : Slot R)).filter fun slot ↦ slot.streamid =
        streamid).takeWhile (fun slot ↦ slot.r.isSome) = [] := by
      rw [takeWhile_eq_nil_iff]
      intro hlength
      have hmem := mem_of_mem_filter (getElem_mem hlength)
      rw [get_eq_getElem, eq_of_mem_replicate hmem]
      exact Bool.false_ne_true
    rw [hnil, append_nil]
  · exact fun slot hslot ↦ hl slot (mem_of_mem_filter hslot)

theorem rmStreamid_append (l : List (Slot R)) (n : Nat) (r : R) (streamid : Nat) :
    rmStreamid (l ++ replicate n zeroed) r streamid = rmStreamid l r streamid ++
      replicate n zeroed := by
  have hzeroed : ¬ Slot.Counts (zeroed : Slot R) r streamid := fun hc ↦ Nat.lt_irrefl 0 hc.2.2
  rw [rmStreamid, map_append, map_replicate, if_neg hzeroed]
  rfl

/-- The table after the first call, which adds the buffer. -/
theorem table_add_init (junk : Nat → Option R × Mode) (r : R) (streamid : Nat) :
    (add init r streamid junk).table =
      [⟨1, streamid, .atomic, some r⟩] ++ replicate 1023 (zeroed : Slot R) :=
  addStreamid_append junk (l := []) (fun _ h ↦ absurd h not_mem_nil) 1023

/-- The slots of the run below, before all others. -/
def slots (mode : Mode) (refcnt : Nat) : List (Slot Nat) :=
  [⟨1, 7, mode, some 0⟩, ⟨refcnt, 8, .atomic, some 1⟩]

/-- The slots of new buffers are not in use. -/
def noJunk : Nat → Option Nat × Mode := fun _ ↦ (none, .atomic)

/-- A buffer each for two streams; one of them leaves, and the mode of the other one is set. -/
def sampleActions : List (Action Nat Nat) :=
  [.add 0 7 noJunk, .add 1 8 noJunk, .rm 1 8, .state 7 0 .besteffort]

/-- **A tuple is posted to the buffer that is left.** -/
theorem exact_added :
    ∃ s : State Nat, Lts.Run (step fun r ↦ r) (StateOk fun r ↦ r) init sampleActions s ∧
      iterate s.table 7 = [(0, .besteffort)] ∧ s.Exact 7 ∧
      ∀ (bufs : Nat → RingBuf) (t : Tuple), t.data.length ≤ maxTupleSz →
        ∃ bufs', hftaPostTuple false false s.table bufs 7 t = some (0, bufs') ∧
          s.Posts 7 t bufs bufs' 0 := by
  obtain ⟨s₁, hs₁⟩ : ∃ s₁ : State Nat, s₁ = add init 0 7 noJunk := ⟨_, rfl⟩
  obtain ⟨s₂, hs₂⟩ : ∃ s₂ : State Nat, s₂ = add s₁ 1 8 noJunk := ⟨_, rfl⟩
  obtain ⟨s₃, hs₃⟩ : ∃ s₃ : State Nat, s₃ = rm s₂ 1 8 := ⟨_, rfl⟩
  obtain ⟨s, hs⟩ : ∃ s : State Nat, s = setState (fun r ↦ r) s₃ 7 0 .besteffort := ⟨_, rfl⟩
  have hadd (n : Nat) : addStreamid noJunk
      ([⟨1, 7, .atomic, some 0⟩] ++ replicate (n + 1) zeroed) 1 8 =
      slots .atomic 1 ++ replicate n zeroed :=
        addStreamid_append noJunk (by simp [Slot.Counts]) n
  have hrm (n : Nat) : rmStreamid (slots .atomic 1 ++ replicate n zeroed) 1 8 =
      slots .atomic 0 ++ replicate n zeroed := rmStreamid_append _ n 1 8
  have hstate (n : Nat) : stateStreamid (fun r ↦ r) (slots .atomic 0 ++ replicate n zeroed)
      7 0 .besteffort = slots .besteffort 0 ++ replicate n zeroed := rfl
  have htable₃ : s₃.table = slots .atomic 0 ++ replicate 1022 zeroed := by
    rw [hs₃, rm, hs₂, add, hs₁, table_add_init, hadd 1022, hrm 1022]
  have hok : StateOk (fun r ↦ r) s₃ (.state 7 0 .besteffort) := by
    intro slot hslot hserves
    rw [htable₃, slots, cons_append, tail_cons] at hslot
    rcases mem_cons.mp hslot with rfl | hslot
    · exact absurd hserves.2.2 (Nat.lt_irrefl 0)
    · rw [eq_of_mem_replicate hslot] at hserves
      exact absurd hserves.2.2 (Nat.lt_irrefl 0)
  have hrun : Lts.Run (step fun r ↦ r) (StateOk fun r ↦ r) init sampleActions s :=
    .snoc (.snoc (.snoc (.single trivial (congrArg some hs₁.symm)) trivial (congrArg some hs₂.symm))
      trivial (congrArg some hs₃.symm)) hok (congrArg some hs.symm)
  have htable : s.table = slots .besteffort 0 ++ replicate 1022 zeroed := by
    rw [hs, setState, htable₃, hstate]
  have hseen : seen s.table 7 = [⟨1, 7, .besteffort, some 0⟩] := by
    rw [htable, seen_append (by simp [slots])]
    rfl
  have hiterate : iterate s.table 7 = [(0, .besteffort)] := by
    rw [iterate, hseen]
    rfl
  have hlive : s.SeenLive 7 := fun slot hslot ↦ by
    rw [hseen] at hslot
    rw [eq_of_mem_singleton hslot]
    decide
  obtain ⟨hexact, hposts⟩ := exact_iff_seenLive _ hrun 7
  refine ⟨s, hrun, hiterate, hexact.mpr hlive, fun bufs t ht ↦ ?_⟩
  have hpost : hftaPostTuple false false s.table bufs 7 t =
      some (0, (iterate s.table 7).foldl (StreamRegistry.post t) bufs) := by
    rw [hftaPostTuple, if_neg (Nat.not_lt.mpr ht), if_neg Bool.false_ne_true, if_pos]
    intro b hb
    rw [hiterate] at hb
    rw [eq_of_mem_singleton hb]
    exact Mode.noConfusion
  exact ⟨_, hpost, (hposts hlive false bufs _ t 0).1 hpost⟩

/-- **A buffer that has left is still seen.**  It is added to a stream and removed, and the loop
over the stream returns it. -/
theorem exists_not_exact :
    ∃ s : State Nat, Lts.Run (step fun r ↦ r) (fun _ _ ↦ True) init
        [(.add 0 7 fun _ ↦ (none, .atomic) : Action Nat Nat), .rm 0 7] s ∧
      s.count 7 0 = 0 ∧ iterate s.table 7 = [(0, .atomic)] ∧ ¬ s.Exact 7 := by
  have hrun : Lts.Run (step fun r ↦ r) (fun _ _ ↦ True) init
      [(.add 0 7 fun _ ↦ (none, .atomic) : Action Nat Nat), .rm 0 7]
      (rm (add init 0 7 fun _ ↦ (none, .atomic)) 0 7) :=
    .snoc (.single trivial rfl) trivial rfl
  have hseen : iterate (rm (add (init : State Nat) 0 7 fun _ ↦ (none, .atomic)) 0 7).table 7 =
      [(0, .atomic)] := by
    rw [rm, table_add_init, rmStreamid_append, iterate,
      seen_append (by simp [rmStreamid, Slot.Counts])]
    rfl
  refine ⟨_, hrun, rfl, hseen, fun hexact ↦ ?_⟩
  have hmem : (0, Mode.atomic) ∈
      iterate (rm (add (init : State Nat) 0 7 fun _ ↦ (none, .atomic)) 0 7).table 7 := by
    rw [hseen]
    exact mem_singleton_self _
  exact absurd ((hexact.mem 0 .atomic).mp hmem).1 (by decide)

end State

end StreamRegistry

end Tigon.Gscphost
