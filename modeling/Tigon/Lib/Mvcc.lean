import Mathlib

/-!
# Snapshot transactions

A manager hands out transactions with increasing ids and keeps, for each of them, whether it is
still in progress, was committed, was rolled back, or was given up as invalid.  A transaction sees
the world through a *snapshot* taken when it starts: a read pointer, the ids that were in progress
then, and the ids that were invalid.  A version is visible when it is not beyond the read pointer
and not on either list.

`IsSnapshot m tx` says that `tx` is what the manager hands out in state `m`; it is the whole
contract, there is no algorithm behind it.  The manager moves on while `tx` is open, and
`Sees m tx` is what remains true then:

* an id that may still commit, or that committed without `tx` seeing it, is `Late` for `tx` — at
  or beyond everything that was in progress when `tx` started, or younger than `tx` itself;
* an id that `tx` sees has reached its final state.

`Sees.start` and `Sees.finish` carry the relation along the manager's steps.
-/

set_option autoImplicit false

namespace Mvcc

open Function

/-! ## Transactions -/

/-- What a transaction without concurrent transactions reports as the first one in progress. -/
def noTxInProgress : Nat := 2 ^ 63 - 1

/-- A transaction, as it is handed to those who take part in it. -/
structure Transaction where
  readPointer : Nat
  writePointer : Nat
  invalids : List Nat
  inProgress : List Nat
  firstShortInProgress : Nat
deriving DecidableEq, Repr

namespace Transaction

variable (tx : Transaction)

def firstInProgress : Nat := tx.inProgress.headD noTxInProgress

def isInProgress (version : Nat) : Bool := tx.inProgress.contains version

def isExcluded (version : Nat) : Bool :=
  tx.inProgress.contains version || tx.invalids.contains version

def isVisible (version : Nat) : Bool :=
  decide (version ≤ tx.readPointer) && !tx.isExcluded version

/-- An id the snapshot cannot say anything about: it is not before the transactions that were in
progress, or it is not older than the transaction itself. -/
def Late (w : Nat) : Prop :=
  (tx.firstInProgress ≤ w ∧ tx.firstShortInProgress ≤ w) ∨ tx.writePointer ≤ w

variable {tx}

theorem isVisible_iff {v : Nat} :
    tx.isVisible v = true ↔ v ≤ tx.readPointer ∧ v ∉ tx.inProgress ∧ v ∉ tx.invalids := by
  simp [isVisible, isExcluded]

/-- Nothing before the first transaction in progress is in progress. -/
theorem firstInProgress_le (hs : tx.inProgress.Pairwise (· < ·)) {w : Nat}
    (hw : w ∈ tx.inProgress) : tx.firstInProgress ≤ w := by
  rw [firstInProgress]
  cases hl : tx.inProgress with
  | nil => simp [hl] at hw
  | cons v rest =>
    rw [hl] at hw hs
    rcases List.mem_cons.mp hw with rfl | hw
    · exact Nat.le_refl _
    · exact Nat.le_of_lt ((List.pairwise_cons.mp hs).1 w hw)

end Transaction

/-! ## The manager -/

/-- How far a transaction has got. -/
inductive Status
  | inProgress
  | committed
  | aborted
  | invalid
deriving DecidableEq, Repr

/-- A transaction in progress can end in any way; one that timed out can only be rolled back. -/
def Status.canBecome : Status → Status → Bool
  | .inProgress, .committed => true
  | .inProgress, .aborted => true
  | .inProgress, .invalid => true
  | .invalid, .aborted => true
  | _, _ => false

/-- What the manager knows of a transaction: whether it is a short one, and its status. -/
structure Info where
  short : Bool
  status : Status
deriving DecidableEq, Repr

/-- The transactions started so far; `last` is the largest id in use. -/
structure Manager where
  last : Nat
  info : Nat → Option Info
  /-- Ids beyond `last` are unused. -/
  le_last : ∀ {w : Nat}, info w ≠ none → w ≤ last

namespace Manager

/-- No transaction has been started yet. -/
def empty : Manager := ⟨0, fun _ ↦ none, fun h ↦ absurd rfl h⟩

/-- The status of a transaction that was started. -/
def statusOf (m : Manager) (w : Nat) : Option Status := (m.info w).map Info.status

/-- Start a transaction under the id `w`, which must be new. -/
def start? (m : Manager) (w : Nat) (short : Bool) : Option Manager :=
  if h : m.last < w then
    some ⟨w, update m.info w (some ⟨short, .inProgress⟩), by
      intro v hv
      rcases eq_or_ne v w with rfl | hne
      · exact Nat.le_refl _
      · rw [update_of_ne hne] at hv
        exact Nat.le_trans (m.le_last hv) (Nat.le_of_lt h)⟩
  else none

/-- Move the transaction `w` on to the status `st`, if its present one allows that. -/
def finish? (m : Manager) (w : Nat) (st : Status) : Option Manager :=
  match h : m.info w with
  | none => none
  | some i =>
    if i.status.canBecome st then
      some ⟨m.last, update m.info w (some ⟨i.short, st⟩), by
        intro v hv
        rcases eq_or_ne v w with rfl | hne
        · exact m.le_last (by simp [h])
        · rw [update_of_ne hne] at hv
          exact m.le_last hv⟩
    else none

/-- A short transaction with this id may still commit: it is in progress, or not yet started. -/
def Pending (m : Manager) (w : Nat) : Prop :=
  m.last < w ∨ m.info w = some ⟨true, .inProgress⟩

instance (m : Manager) (w : Nat) : Decidable (m.Pending w) := by
  unfold Pending; infer_instance

variable {m m' : Manager} {w v : Nat} {short : Bool} {st : Status}

theorem start?_eq_some_iff :
    m.start? w short = some m' ↔
      m.last < w ∧ m'.last = w ∧ m'.info = update m.info w
        (some ⟨short, .inProgress⟩) := by
  rw [start?]
  split
  · rename_i h
    obtain ⟨l, f, hf⟩ := m'
    simp only [Option.some.injEq, mk.injEq, h, true_and]
    constructor
    · rintro ⟨rfl, rfl⟩; exact ⟨rfl, rfl⟩
    · rintro ⟨rfl, rfl⟩; exact ⟨rfl, rfl⟩
  · rename_i h
    simp [h]

theorem finish?_eq_some_iff :
    m.finish? w st = some m' ↔
      ∃ i, m.info w = some i ∧ i.status.canBecome st = true ∧ m'.last = m.last ∧
        m'.info = update m.info w (some ⟨i.short, st⟩) := by
  obtain ⟨l, f, hf⟩ := m'
  rw [finish?]
  split
  · rename_i h
    simp [h]
  · rename_i i h
    split
    · rename_i hc
      simp only [Option.some.injEq, mk.injEq, h]
      constructor
      · rintro ⟨rfl, rfl⟩; exact ⟨i, rfl, hc, rfl, rfl⟩
      · rintro ⟨j, rfl, _, rfl, rfl⟩
        exact ⟨rfl, rfl⟩
    · rename_i hc
      constructor
      · intro h; exact absurd h (by simp)
      · rintro ⟨j, hj, hc', _, _⟩
        rw [h] at hj
        obtain rfl := Option.some_inj.mp hj
        exact absurd hc' hc

theorem statusOf_eq_some_iff :
    m.statusOf w = some st ↔ ∃ short, m.info w = some ⟨short, st⟩ := by
  rw [statusOf, Option.map_eq_some_iff]
  constructor
  · rintro ⟨⟨short, _⟩, h, rfl⟩; exact ⟨short, h⟩
  · rintro ⟨short, h⟩; exact ⟨_, h, rfl⟩

theorem statusOf_le_last (h : m.statusOf w = some st) : w ≤ m.last := by
  obtain ⟨short, h⟩ := statusOf_eq_some_iff.mp h
  exact m.le_last (by simp [h])

theorem statusOf_start (h : m.start? w short = some m') (v : Nat) :
    m'.statusOf v = if v = w then some .inProgress else m.statusOf v := by
  obtain ⟨-, -, hi⟩ := start?_eq_some_iff.mp h
  rw [statusOf, hi, update_apply]
  split <;> rfl

theorem statusOf_finish (h : m.finish? w st = some m') (v : Nat) :
    m'.statusOf v = if v = w then some st else m.statusOf v := by
  obtain ⟨i, -, -, -, hi⟩ := finish?_eq_some_iff.mp h
  rw [statusOf, hi, update_apply]
  split <;> rfl

/-- Nothing becomes committed except by committing. -/
theorem committed_of_finish (h : m.finish? w st = some m') (hst : st ≠ .committed)
    (hv : m'.statusOf v = some .committed) : m.statusOf v = some .committed := by
  rw [statusOf_finish h] at hv
  split at hv
  · exact absurd (Option.some_inj.mp hv) hst
  · exact hv

/-- What is committed stays committed. -/
theorem committed_finish (h : m.finish? w st = some m') (hv : m.statusOf v = some .committed) :
    m'.statusOf v = some .committed := by
  rw [statusOf_finish h]
  split
  · rename_i heq
    subst heq
    obtain ⟨i, hi, hc, -⟩ := finish?_eq_some_iff.mp h
    rw [statusOf, hi, Option.map_some, Option.some_inj] at hv
    rw [hv] at hc
    cases st <;> simp [Status.canBecome] at hc
  · exact hv

theorem committed_start (h : m.start? w short = some m') :
    m'.statusOf v = some .committed ↔ m.statusOf v = some .committed := by
  rw [statusOf_start h]
  split
  · rename_i heq
    subst heq
    have hlt := (start?_eq_some_iff.mp h).1
    constructor
    · intro hv; simp at hv
    · intro hv; exact absurd (statusOf_le_last hv) (by omega)
  · exact Iff.rfl

/-- Ids only ever stop being pending. -/
theorem Pending.of_start (h : m.start? w short = some m') (hp : m'.Pending v) : m.Pending v := by
  obtain ⟨hlt, hl, hi⟩ := start?_eq_some_iff.mp h
  rcases hp with hp | hp
  · exact .inl (by omega)
  · rw [hi, update_apply] at hp
    split at hp
    · exact .inl (by omega)
    · exact .inr hp

theorem Pending.of_finish (h : m.finish? w st = some m') (hp : m'.Pending v) : m.Pending v := by
  obtain ⟨i, hi, hc, hl, hu⟩ := finish?_eq_some_iff.mp h
  rcases hp with hp | hp
  · exact .inl (by omega)
  · rw [hu, update_apply] at hp
    split at hp
    · obtain ⟨-, rfl⟩ := Info.mk.inj (Option.some_inj.mp hp)
      cases hs : i.status <;> simp [hs, Status.canBecome] at hc
    · exact .inr hp

end Manager

/-! ## Snapshots -/

/-- `tx` is a transaction the manager may hand out in the state `m`: it has a new id, it sees what
is committed, and it knows what is in progress and what is invalid. -/
structure IsSnapshot (m : Manager) (tx : Transaction) : Prop where
  /-- The id is new, and the read pointer is not beyond the older ones. -/
  new : m.last < tx.writePointer
  read : tx.readPointer ≤ m.last
  /-- What is committed is seen, and what is not is on the list of its kind. -/
  committed : ∀ w ≤ m.last, m.statusOf w = some .committed → tx.isVisible w = true
  invalid : ∀ w ≤ m.last, m.statusOf w = some .invalid → w ∈ tx.invalids
  inProgress : ∀ w ≤ m.last, m.statusOf w = some .inProgress → w ∈ tx.inProgress
  of_inProgress : ∀ w ∈ tx.inProgress, m.statusOf w = some .inProgress
  sorted : tx.inProgress.Pairwise (· < ·)
  /-- No short transaction in progress is older than the first one. -/
  firstShort : ∀ w ≤ m.last, m.info w = some ⟨true, .inProgress⟩ → tx.firstShortInProgress ≤ w
  of_firstShort : tx.firstShortInProgress = noTxInProgress ∨
    m.info tx.firstShortInProgress = some ⟨true, .inProgress⟩

instance (m : Manager) (tx : Transaction) : Decidable (IsSnapshot m tx) :=
  decidable_of_iff
    (m.last < tx.writePointer ∧ tx.readPointer ≤ m.last ∧
      (∀ w ≤ m.last, m.statusOf w = some .committed → tx.isVisible w = true) ∧
      (∀ w ≤ m.last, m.statusOf w = some .invalid → w ∈ tx.invalids) ∧
      (∀ w ≤ m.last, m.statusOf w = some .inProgress → w ∈ tx.inProgress) ∧
      (∀ w ∈ tx.inProgress, m.statusOf w = some .inProgress) ∧
      tx.inProgress.Pairwise (· < ·) ∧
      (∀ w ≤ m.last, m.info w = some ⟨true, .inProgress⟩ → tx.firstShortInProgress ≤ w) ∧
      (tx.firstShortInProgress = noTxInProgress ∨
        m.info tx.firstShortInProgress = some ⟨true, .inProgress⟩))
    ⟨fun ⟨h1, h2, h3, h4, h5, h6, h7, h8, h9⟩ ↦ ⟨h1, h2, h3, h4, h5, h6, h7, h8, h9⟩,
      fun ⟨h1, h2, h3, h4, h5, h6, h7, h8, h9⟩ ↦ ⟨h1, h2, h3, h4, h5, h6, h7, h8, h9⟩⟩

/-- What an open transaction may rely on, whatever the manager has done since it started. -/
structure Sees (m : Manager) (tx : Transaction) : Prop where
  /-- A short transaction that may still commit is late. -/
  pending : ∀ {w : Nat}, m.Pending w → tx.Late w
  /-- A short transaction that committed is visible, or late. -/
  committed : ∀ {w : Nat}, m.info w = some ⟨true, .committed⟩ → tx.isVisible w = true ∨ tx.Late w
  /-- What is visible is finished, and was not given up. -/
  visible : ∀ {w : Nat} {st : Status}, tx.isVisible w = true → m.statusOf w = some st →
    st = .committed ∨ st = .aborted
  /-- The transaction was started. -/
  started : tx.writePointer ≤ m.last
  /-- It does not read beyond itself. -/
  read : tx.readPointer < tx.writePointer

variable {m m' : Manager} {tx : Transaction} {w : Nat} {short : Bool} {st : Status}

/-- A transaction sees what its snapshot says it sees. -/
theorem IsSnapshot.sees (hs : IsSnapshot m tx)
    (h : m.start? tx.writePointer short = some m') : Sees m' tx := by
  obtain ⟨hlt, hl, hi⟩ := Manager.start?_eq_some_iff.mp h
  have hinfo : ∀ v, v ≠ tx.writePointer → m'.info v = m.info v := fun v hv ↦ by
    rw [hi, update_of_ne hv]
  have hself : m'.info tx.writePointer = some ⟨short, .inProgress⟩ := by
    rw [hi, update_self]
  refine ⟨?_, ?_, ?_, by omega, by have := hs.read; omega⟩
  · intro w hp
    rcases hp with hp | hp
    · exact .inr (by omega)
    · rcases eq_or_ne w tx.writePointer with rfl | hne
      · exact .inr (Nat.le_refl _)
      · rw [hinfo w hne] at hp
        have hle : w ≤ m.last := m.le_last (by simp [hp])
        have hst : m.statusOf w = some .inProgress := by simp [Manager.statusOf, hp]
        exact .inl ⟨tx.firstInProgress_le hs.sorted (hs.inProgress w hle hst),
          hs.firstShort w hle hp⟩
  · intro w hw
    rcases eq_or_ne w tx.writePointer with rfl | hne
    · rw [hself] at hw; simp at hw
    · rw [hinfo w hne] at hw
      exact .inl (hs.committed w (m.le_last (by simp [hw])) (by simp [Manager.statusOf, hw]))
  · intro w st hv hst
    obtain ⟨hr, hip, hinv⟩ := Transaction.isVisible_iff.mp hv
    have hne : w ≠ tx.writePointer := by have := hs.read; omega
    rw [Manager.statusOf, hinfo w hne] at hst
    have hle := Manager.statusOf_le_last (m := m) hst
    cases st with
    | inProgress => exact absurd (hs.inProgress w hle hst) hip
    | committed => exact .inl rfl
    | aborted => exact .inr rfl
    | invalid => exact absurd (hs.invalid w hle hst) hinv

/-- Another transaction starting changes nothing for an open one. -/
theorem Sees.start (hs : Sees m tx) (h : m.start? w short = some m') : Sees m' tx := by
  obtain ⟨hlt, hl, hi⟩ := Manager.start?_eq_some_iff.mp h
  have hst := hs.started
  refine ⟨fun hp ↦ hs.pending (hp.of_start h), ?_, ?_, by omega, hs.read⟩
  · intro v hv
    rw [hi, update_apply] at hv
    split at hv
    · simp at hv
    · exact hs.committed hv
  · intro v st hv hvst
    rw [Manager.statusOf_start h] at hvst
    split at hvst
    · have := (Transaction.isVisible_iff.mp hv).1
      have := hs.read
      omega
    · exact hs.visible hv hvst

/-- Neither does a transaction finishing: one that commits was pending before, so it is late. -/
theorem Sees.finish (hs : Sees m tx) (h : m.finish? w st = some m') : Sees m' tx := by
  obtain ⟨i, hw, hc, hl, hi⟩ := Manager.finish?_eq_some_iff.mp h
  refine ⟨fun hp ↦ hs.pending (hp.of_finish h), ?_, ?_, by have := hs.started; omega, hs.read⟩
  · intro v hv
    rw [hi, update_apply] at hv
    split at hv
    · rename_i heq
      subst heq
      obtain ⟨hsh, rfl⟩ := Info.mk.inj (Option.some_inj.mp hv)
      obtain ⟨sh, s⟩ := i
      obtain rfl : sh = true := hsh
      cases s <;> simp [Status.canBecome] at hc
      exact .inr (hs.pending (.inr hw))
    · exact hs.committed hv
  · intro v s hv hvst
    rw [Manager.statusOf_finish h] at hvst
    split at hvst
    · rename_i heq
      subst heq
      have hi' : m.statusOf v = some i.status := by simp [Manager.statusOf, hw]
      rcases hs.visible hv hi' with h1 | h1 <;> rw [h1] at hc <;>
        cases st <;> simp [Status.canBecome] at hc
    · exact hs.visible hv hvst

/-- What may still commit, an open transaction does not see. -/
theorem Sees.not_visible (hs : Sees m tx) (hp : m.Pending w) : tx.isVisible w = false := by
  refine Bool.eq_false_iff.mpr fun hv ↦ ?_
  rcases hp with hp | hp
  · have hle := (Transaction.isVisible_iff.mp hv).1
    have hlt := hs.read
    have hst := hs.started
    omega
  · have hst : m.statusOf w = some .inProgress := by simp [Manager.statusOf, hp]
    rcases hs.visible hv hst with h | h
    · exact absurd h (by simp)
    · exact absurd h (by simp)

end Mvcc
