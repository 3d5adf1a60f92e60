import Tigon.Gscphost.FtaLookup
import Tigon.Gscphost.StreamRegistry

/-!
# Wake-ups

A process without tuples to read asks each process that it gets tuples from to be woken up.  There
`add_wakeup` registers it with its ring buffer.  When a tuple is posted to a stream, the loop over
`next_wakeup` goes through the slots of the stream in the table of `callbackregistries.c`, and takes
out the first process that waits at the ring buffer of the slot. Where none does, `next_wakeup`
returns null, as it does at the end of the table, and the loop ends.

The processes to ask come from the registry of streams of `lappregistries.c`, one `FTAID` for each
process.  The loop passes by those that have the address or the port of one that it has, though it
takes both to tell processes apart.

* `woken_iff` — when the right processes are woken up.
* `asked_iff` — when the right processes are asked.
* `noLostWakeup_iff` — **when no wake-up is lost.**
* `exists_lostWakeup` — a stream has two ring buffers, and a process waits at the second of them.
-/

set_option autoImplicit false

namespace Tigon.Gscphost.Wakeup

open List

open FtaLookup (Ftaid)
open StreamRegistry (Slot.Counts)

/-! ## The tables -/

/-- `struct ftacallbackwakeup`, in use. -/
structure Ftacallbackwakeup (R : Type) where
  ftaid : Ftaid
  r : R
deriving DecidableEq, Repr

/-- `struct streamregistry`, in use. -/
structure Streamregistry (R : Type) where
  ftaid : Ftaid
  r : R
deriving DecidableEq, Repr

/-- `STARTSZ` -/
def startSz : Nat := 1024

/-- The address and the port tell processes apart. -/
def process (f : Ftaid) : Nat × Nat := (f.ip, f.port)

/-- The registries of one process. -/
structure State (R : Type) where
  fstreamid : List (Slot R)
  fwakeup : List (Option (Ftacallbackwakeup R))
  swakeup : Nat
  nwakeup : Nat
  sreg : List (Option (Streamregistry R))

variable {R : Type} [DecidableEq R]

/-! ## Who waits -/

/-- `ftacallback_add_wakeup` -/
def addWakeup (fwakeup : List (Option (Ftacallbackwakeup R))) (ftaid : Ftaid) (r : R) :
    List (Option (Ftacallbackwakeup R)) :=
  let fwakeup := SlotTable.allocated startSz fwakeup
  match fwakeup.findIdx? fun w ↦ w.any fun w ↦ process w.ftaid = process ftaid with
  | some x => fwakeup.set x (some ⟨ftaid, r⟩)
  | none => SlotTable.insert startSz ⟨ftaid, r⟩ fwakeup

/-- `ftacallback_start_wakeup` -/
def startWakeup (s : State R) (streamid : Nat) : State R :=
  { s with swakeup := streamid, nwakeup := 0 }

/-- The next slot of the stream. -/
def skip (fstreamid : List (Slot R)) (streamid n : Nat) : Nat :=
  n + ((fstreamid.drop n).takeWhile fun slot ↦ slot.streamid ≠ streamid).length

/-- Somebody waits at the ring buffer of the slot. -/
def waits (q : Option R) (w : Option (Ftacallbackwakeup R)) : Bool := w.any fun w ↦ some w.r = q

/-- `ftacallback_next_wakeup` -/
def nextWakeup (s : State R) : Option Ftaid × State R :=
  let n := skip s.fstreamid s.swakeup s.nwakeup
  match s.fstreamid[n]? with
  | some slot =>
    match s.fwakeup.findIdx? (waits slot.r) with
    | some x =>
      ((s.fwakeup[x]?).join.map Ftacallbackwakeup.ftaid,
        { s with fwakeup := s.fwakeup.set x none, nwakeup := n + 1 })
    | none => (none, { s with nwakeup := n + 1 })
  | none => (none, { s with nwakeup := n + 1 })

/-- The loop over `ftacallback_next_wakeup`, until it returns null. -/
def wakeups : Nat → State R → Option (List Ftaid × State R)
  | 0, _ => none
  | fuel + 1, s =>
    match nextWakeup s with
    | (none, s) => some ([], s)
    | (some f, s) => (wakeups fuel s).map fun (fs, s) ↦ (f :: fs, s)

/-! ## Whom to ask -/

/-- `streamregistry_add` -/
def streamregistryAdd (sreg : List (Option (Streamregistry R))) (ftaid : Ftaid) (r : R) :
    List (Option (Streamregistry R)) :=
  SlotTable.insert startSz ⟨ftaid, r⟩ sreg

/-- An element is listed unless one that is listed is taken for the same. -/
def collect {α : Type} (same : α → α → Bool) (l : List α) : List α :=
  l.foldl (fun listed a ↦ if listed.any fun b ↦ same b a then listed else listed ++ [a]) []

/-- One of the parts is the same. -/
def sameProcess (f g : Ftaid) : Bool := f.ip = g.ip || f.port = g.port

/-- `streamregistry_getactiveftaid_reset`, and `streamregistry_getactiveftaid` until it returns
null. -/
def getactiveftaid (sreg : List (Option (Streamregistry R))) : List Ftaid :=
  (collect sameProcess (sreg.reduceOption.map Streamregistry.ftaid)).reverse

/-! ## What is to hold -/

/-- The ring buffer belongs to the stream. -/
def OfStream (fstreamid : List (Slot R)) (streamid : Nat) (r : R) : Prop :=
  ∃ slot ∈ fstreamid, Slot.Counts slot r streamid

instance decidableOfStream (fstreamid : List (Slot R)) (streamid : Nat) (r : R) :
    Decidable (OfStream fstreamid streamid r) :=
  inferInstanceAs (Decidable (∃ slot ∈ fstreamid, _))

/-- Those that wait at a ring buffer of the stream. -/
def waiting (s : State R) (streamid : Nat) : List (Ftacallbackwakeup R) :=
  s.fwakeup.reduceOption.filter fun w ↦ OfStream s.fstreamid streamid w.r

def others (s : State R) (streamid : Nat) : List (Ftacallbackwakeup R) :=
  s.fwakeup.reduceOption.filter fun w ↦ ¬ OfStream s.fstreamid streamid w.r

/-- The loop ends, wakes up those that wait at a ring buffer of the stream, and leaves the
others. -/
def Woken (s : State R) (streamid : Nat) : Prop :=
  ∃ fs t, wakeups (s.fstreamid.length + 1) (startWakeup s streamid) = some (fs, t) ∧
    fs.Perm ((waiting s streamid).map Ftacallbackwakeup.ftaid) ∧
      t.fwakeup.reduceOption.Perm (others s streamid)

/-- There is one `FTAID` for each process that has a stream registered. -/
def Asked (s : State R) : Prop :=
  ((getactiveftaid s.sreg).map process).Nodup ∧
    ∀ p, p ∈ (getactiveftaid s.sreg).map process ↔ p ∈ s.sreg.reduceOption.map fun e ↦
      process e.ftaid

def NoLostWakeup (s : State R) (streamid : Nat) : Prop := Woken s streamid ∧ Asked s

/-! ## When it does -/

/-- The ring buffers of the slots that have the stream, used or not, in their order. -/
def visited (s : State R) (streamid : Nat) : List (Option R) :=
  (s.fstreamid.filter fun slot ↦ slot.streamid = streamid).map Slot.r

/-- The first of the slots have the ring buffers at which is waited, and at the next nobody waits
who is to be left. -/
structure WaitersFirst (s : State R) (streamid : Nat) : Prop where
  first : ((waiting s streamid).map fun w ↦ some w.r).Perm
    ((visited s streamid).take (waiting s streamid).length)
  next : ∀ q, (visited s streamid)[(waiting s streamid).length]? = some q → ∀ w ∈ others s streamid,
    some w.r ≠ q

/-- Processes that are not the same differ in both parts. -/
def ProcessesApart (s : State R) : Prop :=
  ∀ e ∈ s.sreg.reduceOption, ∀ e' ∈ s.sreg.reduceOption,
    sameProcess e.ftaid e'.ftaid = true → process e.ftaid = process e'.ftaid

/-! ## Walks

Elements are taken for the keys of a list in turn, as long as there are some with the key. -/

section

variable {α β : Type} [DecidableEq β] {key : α → β} {keys : List β} {taken left all : List α}
  {P : α → Prop} [DecidablePred P] {q : β} {m n : Nat}

/-- Elements were taken off the list, one for each key from the first key on, until none of those
that are left has the next key. -/
structure Walk (key : α → β) (keys : List β) (taken left all : List α) : Prop where
  perm : (taken ++ left).Perm all
  taken_eq : taken.map key = keys.take taken.length
  stop : ∀ q, keys[taken.length]? = some q → ∀ a ∈ left, key a ≠ q

theorem count_take (hlt : m < n) (hq : keys[m]? = some q) :
    (keys.take m).count q + 1 ≤ (keys.take n).count q := by
  have hsucc : (keys.take (m + 1)).count q = (keys.take m).count q + 1 := by
    rw [take_add_one, hq, Option.toList_some, count_append, count_singleton_self]
  rw [← hsucc]
  exact (take_sublist_take_left hlt).count_le q

theorem count_map_eq_zero {l : List α} (h : ∀ a ∈ l, key a ≠ q) : (l.map key).count q = 0 := by
  refine count_eq_zero.mpr fun hmem ↦ ?_
  obtain ⟨a, ha, rfl⟩ := mem_map.mp hmem
  exact h a ha rfl

theorem Walk.count (h : Walk key keys taken left all) (q : β) :
    (all.map key).count q = (keys.take taken.length).count q + (left.map key).count q := by
  rw [← h.taken_eq, ← count_append, ← map_append]
  exact ((h.perm.map key).count_eq q).symm

theorem count_filter (all : List α) (P : α → Prop) [DecidablePred P] (q : β) :
    (all.map key).count q = ((all.filter P).map key).count q +
    ((all.filter fun a ↦ ¬ P a).map key).count q := by
  rw [← count_append, ← map_append]
  refine ((List.Perm.map key ?_).count_eq q).symm
  simpa only [decide_not] using filter_append_perm (fun a ↦ decide (P a)) all

/-- **What is taken are the elements of the condition** if their keys are the first, and no other
element has the next. The condition is one on the keys. -/
theorem Walk.taken_perm_iff (h : Walk key keys taken left all)
    (hP : ∀ a b, key a = key b → P a → P b) : taken.Perm (all.filter P) ↔
      ((all.filter P).map key).Perm (keys.take (all.filter P).length) ∧
        ∀ q, keys[(all.filter P).length]? = some q → ∀ a ∈ all.filter fun a ↦ ¬ P a, key a ≠ q := by
  constructor
  · intro hperm
    have hleft : left.Perm (all.filter fun a ↦ ¬ P a) := by
      have hall : (all.filter P ++ all.filter fun a ↦ ¬ P a).Perm all := by
        simpa only [decide_not] using filter_append_perm (fun a ↦ decide (P a)) all
      exact (perm_append_left_iff _).mp
        (((hperm.symm.append_right _).trans h.perm).trans hall.symm)
    rw [← hperm.length_eq]
    refine ⟨?_, fun q hq a ha ↦ h.stop q hq a (hleft.mem_iff.mpr ha)⟩
    rw [← h.taken_eq]
    exact (hperm.map key).symm
  · rintro ⟨hfirst, hnext⟩
    have hlen : (all.filter P).length ≤ keys.length := by
      have := hfirst.length_eq
      rw [length_map, length_take] at this
      omega
    have hcount (q : β) := h.count q
    have hsplit (q : β) : (all.map key).count q = _ := count_filter all P q
    have heq : taken.length = (all.filter P).length := by
      rcases Nat.lt_trichotomy taken.length (all.filter P).length with hlt | heq | hgt
      · -- There is an element for the next key, since the condition needs one more.
        obtain ⟨q, hq⟩ : ∃ q, keys[taken.length]? = some q :=
          ⟨_, getElem?_eq_getElem (by omega)⟩
        have hmore := count_take hlt hq
        have hnone := count_map_eq_zero (h.stop q hq)
        have hperm := hfirst.count_eq q
        have := hcount q
        have := hsplit q
        omega
      · exact heq
      · have htaken : taken.length ≤ keys.length := by
          have := congrArg length h.taken_eq
          rw [length_map, length_take] at this
          omega
        -- The last that was taken for the next key does not meet the condition.
        obtain ⟨q, hq⟩ : ∃ q, keys[(all.filter P).length]? = some q :=
          ⟨_, getElem?_eq_getElem (by omega)⟩
        have hmore := count_take hgt hq
        have hnone := count_map_eq_zero (hnext q hq)
        have hperm := hfirst.count_eq q
        have := hcount q
        have := hsplit q
        omega
    have hall : ∀ a ∈ taken, P a := by
      intro a ha
      have hmem : key a ∈ keys.take taken.length := by
        rw [← h.taken_eq]
        exact mem_map_of_mem ha
      rw [heq, ← hfirst.mem_iff] at hmem
      obtain ⟨b, hb, hkey⟩ := mem_map.mp hmem
      exact hP b a hkey (of_decide_eq_true (mem_filter.mp hb).2)
    have hsub : taken.Subperm (all.filter P) := by
      have hfilter : taken.filter P = taken :=
        filter_eq_self.mpr fun a ha ↦ decide_eq_true (hall a ha)
      rw [← hfilter]
      exact ((sublist_append_left taken left).subperm.trans h.perm.subperm).filter P
    exact hsub.perm_of_length_le heq.ge

end

/-! ## The loop over the slots -/

section

variable {s : State R} {streamid : Nat} {slot : Slot R}

theorem filter_of_takeWhile {α : Type} (p : α → Bool) (l : List α) :
    (l[(l.takeWhile fun a ↦ !p a).length]? = none → l.filter p = []) ∧
      ∀ a, l[(l.takeWhile fun a ↦ !p a).length]? = some a →
        l.filter p = a :: (l.drop ((l.takeWhile fun a ↦ !p a).length + 1)).filter p := by
  induction l with
  | nil => simp
  | cons b l ih =>
    cases hb : p b with
    | true => simp [hb]
    | false => simpa [hb] using ih

/-- The ring buffers of the slots that the loop has not come to. -/
def ahead (s : State R) : List (Option R) :=
  ((s.fstreamid.drop s.nwakeup).filter fun slot ↦ slot.streamid = s.swakeup).map Slot.r

omit [DecidableEq R] in
theorem ahead_of_none (h : s.fstreamid[skip s.fstreamid s.swakeup s.nwakeup]? = none) :
    ahead s = [] := by
  rw [skip, ← getElem?_drop] at h
  have hnil := (filter_of_takeWhile (fun slot ↦ decide (slot.streamid = s.swakeup))
    (s.fstreamid.drop s.nwakeup)).1
  simp only [← decide_not] at hnil
  rw [ahead, hnil h, map_nil]

omit [DecidableEq R] in
theorem ahead_of_some (h : s.fstreamid[skip s.fstreamid s.swakeup s.nwakeup]? = some slot) :
    ahead s = slot.r :: ahead { s with nwakeup := skip s.fstreamid s.swakeup s.nwakeup + 1 } := by
  have hget := h
  rw [skip, ← getElem?_drop] at hget
  have hcons := (filter_of_takeWhile (fun slot ↦ decide (slot.streamid = s.swakeup))
    (s.fstreamid.drop s.nwakeup)).2 slot
  simp only [← decide_not, drop_drop] at hcons
  rw [ahead, hcons hget, map_cons, ahead]
  rfl

/-- What a call of `ftacallback_next_wakeup` does. -/
theorem nextWakeup_spec (s : State R) :
    (∃ n, nextWakeup s = (none, { s with nwakeup := n }) ∧
      ∀ q, (ahead s)[0]? = some q → ∀ w ∈ s.fwakeup.reduceOption, some w.r ≠ q) ∨
    ∃ w fwakeup n, nextWakeup s = (some w.ftaid, { s with fwakeup := fwakeup, nwakeup := n }) ∧
      s.nwakeup < n ∧ n ≤ s.fstreamid.length ∧
      ahead s = some w.r :: ahead { s with fwakeup := fwakeup, nwakeup := n } ∧
      s.fwakeup.reduceOption.Perm (w :: fwakeup.reduceOption) := by
  cases hslot : s.fstreamid[skip s.fstreamid s.swakeup s.nwakeup]? with
  | none =>
    refine .inl ⟨skip s.fstreamid s.swakeup s.nwakeup + 1, by simp only [nextWakeup, hslot],
      fun q hq ↦ ?_⟩
    rw [ahead_of_none hslot, getElem?_nil] at hq
    exact absurd hq (by simp)
  | some slot =>
    have hahead := ahead_of_some hslot
    cases hx : s.fwakeup.findIdx? (waits slot.r) with
    | none =>
      refine .inl ⟨skip s.fstreamid s.swakeup s.nwakeup + 1, by simp only [nextWakeup, hslot, hx],
        fun q hq w hw hr ↦ ?_⟩
      rw [hahead, getElem?_cons_zero] at hq
      have hno := findIdx?_eq_none_iff.mp hx (some w) (reduceOption_mem_iff.mp hw)
      rw [waits, Option.any_some, decide_eq_false_iff_not] at hno
      exact hno (hr.trans (Option.some.inj hq).symm)
    | some x =>
      obtain ⟨hlt, hwaits, -⟩ := findIdx?_eq_some_iff_getElem.mp hx
      obtain ⟨w, hw, hr⟩ := (Option.any_eq_true _ _).mp hwaits
      have hget : s.fwakeup[x]? = some (some w) := by rw [getElem?_eq_getElem hlt, hw]
      obtain ⟨l, hl, hset⟩ := SlotTable.reduceOption_set hget
      refine .inr ⟨w, s.fwakeup.set x none, skip s.fstreamid s.swakeup s.nwakeup + 1, ?_,
        ?_, ?_, ?_, ?_⟩
      · simp only [nextWakeup, hslot, hx, hget, Option.join_some, Option.map_some]
      · rw [skip]
        omega
      · exact (List.getElem?_eq_some_iff.mp hslot).1
      · rw [hahead, of_decide_eq_true hr]
        rfl
      · exact hl.trans ((hset none).symm.cons w)

/-- **The loop walks along the slots.** -/
theorem wakeups_spec : ∀ (fuel : Nat) (s : State R), s.nwakeup ≤ s.fstreamid.length →
    s.fstreamid.length < s.nwakeup + fuel → ∃ taken t,
      wakeups fuel s = some (taken.map Ftacallbackwakeup.ftaid, t) ∧
      Walk (fun w : Ftacallbackwakeup R ↦ some w.r) (ahead s) taken t.fwakeup.reduceOption
        s.fwakeup.reduceOption := by
  intro fuel
  induction fuel with
  | zero =>
    intro s hle hfuel
    omega
  | succ fuel ih =>
    intro s _ hfuel
    rcases nextWakeup_spec s with ⟨n, heq, hstop⟩ | ⟨w, fwakeup, n, heq, hlt, hle, hahead, hperm⟩
    · exact ⟨[], { s with nwakeup := n }, by rw [wakeups, heq]; rfl, .refl _, rfl, hstop⟩
    · obtain ⟨taken, t, hloop, hwalk⟩ := ih { s with fwakeup := fwakeup, nwakeup := n } hle (by
        show s.fstreamid.length < n + fuel
        omega)
      refine ⟨w :: taken, t, by rw [wakeups, heq]; simp only [hloop]; rfl, ?_, ?_, ?_⟩
      · exact (hwalk.perm.cons w).trans hperm.symm
      · rw [hahead, map_cons, length_cons, take_succ_cons, hwalk.taken_eq]
      · rw [hahead, length_cons]
        exact hwalk.stop

/-- **Which processes are woken up.** -/
theorem woken_iff : Woken s streamid ↔ WaitersFirst s streamid := by
  obtain ⟨taken, t, hloop, hwalk⟩ := wakeups_spec (s.fstreamid.length + 1) (startWakeup s streamid)
    (Nat.zero_le _) (by show s.fstreamid.length < 0 + (s.fstreamid.length + 1); omega)
  have hkeys : ahead (startWakeup s streamid) = visited s streamid := rfl
  have htaken := hwalk.taken_perm_iff (P := fun w ↦ OfStream s.fstreamid streamid w.r)
    fun a b hkey ha ↦
    Option.some.inj hkey ▸ ha
  rw [hkeys] at htaken
  have hall : (waiting s streamid ++ others s streamid).Perm s.fwakeup.reduceOption := by
    simpa only [waiting, others, decide_not] using
      filter_append_perm (fun w ↦ decide (OfStream s.fstreamid streamid w.r))
        s.fwakeup.reduceOption
  have hsplit : (taken ++ t.fwakeup.reduceOption).Perm (waiting s streamid ++ others s streamid) :=
    hwalk.perm.trans hall.symm
  constructor
  · rintro ⟨fs, t', hloop', -, hleft⟩
    obtain ⟨rfl, rfl⟩ := Prod.mk.inj (Option.some.inj (hloop.symm.trans hloop'))
    obtain ⟨hfirst, hnext⟩ := htaken.mp
      ((perm_append_right_iff _).mp ((hleft.symm.append_left _).trans hsplit))
    exact ⟨hfirst, hnext⟩
  · rintro ⟨hfirst, hnext⟩
    have hperm : taken.Perm (waiting s streamid) := htaken.mpr ⟨hfirst, hnext⟩
    refine ⟨_, t, hloop, hperm.map _, ?_⟩
    exact (perm_append_left_iff _).mp ((hperm.symm.append_right _).trans hsplit)

end

/-! ## The list of processes -/

section

variable {α β : Type} {r : β → β → Bool} {same : α → α → Bool} {l : List α}

theorem collect_append (l : List α) (a : α) : collect same (l ++ [a]) =
    if (collect same l).any fun b ↦ same b a then collect same l else collect same l ++ [a] := by
  rw [collect, foldl_append]
  rfl

theorem collect_subset : ∀ a ∈ collect same l, a ∈ l := by
  induction l using reverseRecOn with
  | nil => exact fun a ha ↦ ha
  | append_singleton l b ih =>
    intro a ha
    rw [collect_append] at ha
    split at ha
    · exact mem_append_left _ (ih a ha)
    · rw [mem_append] at ha ⊢
      exact ha.imp_left (ih a)

theorem pairwise_collect : (collect same l).Pairwise fun a b ↦ same a b = false := by
  induction l using reverseRecOn with
  | nil => exact .nil
  | append_singleton l b ih =>
    rw [collect_append]
    split
    · exact ih
    · rename_i hno
      refine pairwise_append.mpr ⟨ih, pairwise_singleton _ _, fun a ha c hc ↦ ?_⟩
      obtain rfl := mem_singleton.mp hc
      rw [Bool.not_eq_true, any_eq_false] at hno
      exact Bool.eq_false_iff.mpr (hno a ha)

theorem exists_same_collect (hrefl : ∀ a, same a a = true) : ∀ a ∈ l, ∃ b ∈ collect same l,
    same b a = true := by
  induction l using reverseRecOn with
  | nil => exact fun a ha ↦ absurd ha not_mem_nil
  | append_singleton l c ih =>
    intro a ha
    rw [collect_append]
    rcases mem_append.mp ha with hl | hc
    · obtain ⟨b, hb, hsame⟩ := ih a hl
      split
      · exact ⟨b, hb, hsame⟩
      · exact ⟨b, mem_append_left _ hb, hsame⟩
    · obtain rfl := mem_singleton.mp hc
      split
      · exact any_eq_true.mp ‹_›
      · exact ⟨a, mem_append_right _ hc, hrefl a⟩

/-- Each key is listed once **if and only if those taken for the same are**. -/
theorem keys_collect_iff (key : α → β) (hrefl : ∀ k, r k k = true)
    (hsymm : ∀ k k', r k k' = r k' k) : (((collect (fun a b ↦ r (key a) (key b)) l).map key).Nodup ∧
      ∀ k, k ∈ (collect (fun a b ↦ r (key a) (key b)) l).map key ↔ k ∈ l.map key) ↔
        ∀ a ∈ l, ∀ b ∈ l, r (key a) (key b) = true → key a = key b := by
  have hapart : (collect (fun a b ↦ r (key a) (key b)) l).Pairwise fun a b ↦ r (key a)
    (key b) = false :=
    pairwise_collect
  constructor
  · rintro ⟨-, hmem⟩ a ha b hb hsame
    obtain ⟨a', ha', hkeya⟩ := mem_map.mp ((hmem (key a)).mpr (mem_map_of_mem ha))
    obtain ⟨b', hb', hkeyb⟩ := mem_map.mp ((hmem (key b)).mpr (mem_map_of_mem hb))
    rw [← hkeya, ← hkeyb] at hsame ⊢
    by_contra hne
    have : Std.Symm fun a b ↦ r (key a) (key b) = false :=
      ⟨fun c d hcd ↦ (hsymm (key d) (key c)).trans hcd⟩
    have hno := hapart.forall ha' hb' fun h ↦ hne (congrArg key h)
    exact Bool.false_ne_true (hno.symm.trans hsame)
  · intro hsame
    constructor
    · refine pairwise_map.mpr (hapart.imp fun {a b} hno heq ↦ ?_)
      rw [heq, hrefl] at hno
      exact Bool.false_ne_true hno.symm
    · intro k
      constructor
      · intro hk
        obtain ⟨a, ha, rfl⟩ := mem_map.mp hk
        exact mem_map_of_mem (collect_subset a ha)
      · intro hk
        obtain ⟨a, ha, rfl⟩ := mem_map.mp hk
        obtain ⟨b, hb, hr⟩ : ∃ b ∈ collect (fun a b ↦ r (key a) (key b)) l,
          r (key b) (key a) = true :=
          exists_same_collect (fun a ↦ hrefl (key a)) a ha
        exact mem_map.mpr ⟨b, hb, hsame b (collect_subset b hb) a ha hr⟩

end

section

variable {s : State R} {streamid : Nat}

omit [DecidableEq R] in
/-- **Which processes are asked.** -/
theorem asked_iff : Asked s ↔ ProcessesApart s := by
  have hkeys := keys_collect_iff process (r := fun p q ↦ p.1 = q.1 || p.2 = q.2)
    (l := s.sreg.reduceOption.map Streamregistry.ftaid) (fun k ↦ by simp)
    (fun k k' ↦ by simp [eq_comm])
  rw [map_map] at hkeys
  rw [Asked, getactiveftaid, map_reverse, nodup_reverse]
  simp only [mem_reverse]
  refine hkeys.trans ⟨fun h e he e' he' ↦ ?_, fun h a ha b hb ↦ ?_⟩
  · exact h _ (mem_map_of_mem he) _ (mem_map_of_mem he')
  · obtain ⟨e, he, rfl⟩ := mem_map.mp ha
    obtain ⟨e', he', rfl⟩ := mem_map.mp hb
    exact h e he e' he'

/-- **No wake-up is lost** if and only if the first slots of the stream are those at which is
waited, and processes differ in both parts. -/
theorem noLostWakeup_iff (s : State R) (streamid : Nat) :
    NoLostWakeup s streamid ↔ WaitersFirst s streamid ∧ ProcessesApart s :=
  and_congr woken_iff asked_iff

end

/-! ## A lost wake-up -/

/-- Two ring buffers belong to stream 7, and a process waits at the second.  Streams of two
processes at one address are registered. -/
def second : State Nat where
  fstreamid := StreamRegistry.addStreamid (fun _ ↦ (none, .atomic))
    (StreamRegistry.addStreamid (fun _ ↦ (none, .atomic)) [] 0 7) 1 7
  fwakeup := addWakeup [] ⟨1, 2, 3, 4⟩ 1
  swakeup := 0
  nwakeup := 0
  sreg := streamregistryAdd (streamregistryAdd [] ⟨1, 2, 3, 4⟩ 0) ⟨1, 3, 3, 4⟩ 0

/-- **Nobody is woken up**, and one of the processes is not asked. -/
theorem exists_lostWakeup :
    ((wakeups (second.fstreamid.length + 1) (startWakeup second 7)).map Prod.fst = some [] ∧
      waiting second 7 = [⟨⟨1, 2, 3, 4⟩, 1⟩] ∧ ¬ Woken second 7) ∧
    (getactiveftaid second.sreg = [⟨1, 2, 3, 4⟩] ∧ ¬ Asked second) ∧ ¬ NoLostWakeup second 7 := by
  have hloop : (wakeups (second.fstreamid.length + 1) (startWakeup second 7)).map Prod.fst =
    some [] := by
    decide +kernel
  have hwaiting : waiting second 7 = [⟨⟨1, 2, 3, 4⟩, 1⟩] := by decide +kernel
  have hactive : getactiveftaid second.sreg = [⟨1, 2, 3, 4⟩] := by decide +kernel
  have hwoken : ¬ Woken second 7 := by
    rintro ⟨fs, t, hsome, hperm, -⟩
    rw [hsome, Option.map_some, Option.some.injEq] at hloop
    obtain rfl : fs = [] := hloop
    rw [hwaiting] at hperm
    exact absurd hperm.length_eq (by decide)
  refine ⟨⟨hloop, hwaiting, hwoken⟩, ⟨hactive, fun hasked ↦ ?_⟩, fun h ↦ hwoken h.1⟩
  have hmem := (hasked.2 (1, 3)).mpr (by decide +kernel)
  rw [hactive] at hmem
  exact absurd hmem (by decide)

end Tigon.Gscphost.Wakeup
