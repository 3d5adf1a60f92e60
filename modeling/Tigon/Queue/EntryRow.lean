import Tigon.Lib.Mvcc

/-!
# Queue entry rows

The part of the queue that both the client and the region server use: how an entry row is named,
what a consumer group writes on it, and when a consumer may take it (`QueueEntryRow.canConsume`).

A row key is the queue's prefix followed by the write pointer of the producing transaction and a
counter within it, both big-endian, so within one queue the byte order of the keys is the
lexicographic order of the two numbers.  `Row` is that pair; `Row.next` is the key `getNextRow`
builds.

Integers that the source computes with in 32 bits (the hashes) are reduced explicitly.

The hash of a field is a parameter, as nothing that is proved of consumers depends on it.
-/

set_option autoImplicit false

open Mvcc

namespace Tigon

/-! ## Row keys -/

/-- The key of an entry row: who wrote it, and the how-manyeth entry of that transaction it is. -/
structure Row where
  writePointer : Nat
  counter : Nat
deriving DecidableEq, Repr

namespace Row

instance : LE Row :=
  ⟨fun a b ↦ a.writePointer < b.writePointer ∨
    a.writePointer = b.writePointer ∧ a.counter ≤ b.counter⟩

instance : LT Row :=
  ⟨fun a b ↦ a.writePointer < b.writePointer ∨
    a.writePointer = b.writePointer ∧ a.counter < b.counter⟩

theorem le_def (a b : Row) : a ≤ b ↔ a.writePointer < b.writePointer ∨
    a.writePointer = b.writePointer ∧ a.counter ≤ b.counter := Iff.rfl

theorem lt_def (a b : Row) : a < b ↔ a.writePointer < b.writePointer ∨
    a.writePointer = b.writePointer ∧ a.counter < b.counter := Iff.rfl

instance (a b : Row) : Decidable (a ≤ b) := decidable_of_iff _ (le_def a b).symm

instance (a b : Row) : Decidable (a < b) := decidable_of_iff _ (lt_def a b).symm

instance : LinearOrder Row where
  le_refl a := by rw [le_def]; omega
  le_trans a b c hab hbc := by rw [le_def] at *; omega
  lt_iff_le_not_ge a b := by rw [le_def, le_def, lt_def]; omega
  le_antisymm a b hab hba := by
    rw [le_def] at *
    obtain ⟨w, k⟩ := a
    obtain ⟨w', k'⟩ := b
    simp only [mk.injEq] at *
    omega
  le_total a b := by rw [le_def, le_def]; omega
  toDecidableLE := inferInstance
  toDecidableLT := inferInstance

instance : Std.MaxEqOr Row :=
  ⟨fun a b ↦ (le_total a b).elim (fun h ↦ .inr (max_eq_right h)) fun h ↦ .inl (max_eq_left h)⟩

/-- The first possible row. -/
def zero : Row := ⟨0, 0⟩

/-- The key right after `r`, as `getNextRow` computes it. -/
def next (r : Row) : Row := ⟨r.writePointer, r.counter + 1⟩

theorem zero_le (r : Row) : zero ≤ r := by
  simp only [le_def, zero]; omega

theorem lt_next (r : Row) : r < r.next :=
  .inr ⟨rfl, Nat.lt_succ_self _⟩

theorem lt_next_iff {r s : Row} : r < s.next ↔ r ≤ s := by
  simp only [lt_def, le_def, next]; omega

theorem writePointer_mono {r s : Row} (h : r ≤ s) : r.writePointer ≤ s.writePointer := by
  rw [le_def] at h; omega

end Row

/-! ## Entries, their states, and consumers -/

/-- Hash keys of an entry, as the `m` column carries them.  A string is a list of 16-bit units. -/
abbrev HashKeys := List (List UInt16 × Int)

/-- What a producer puts on a row: the `d` and the `m` column. -/
structure QueueEntry where
  hashKeys : HashKeys
  data : List UInt8
deriving DecidableEq, Repr

/-- The state of an entry with respect to a consumer. -/
inductive ConsumerEntryState
  | claimed
  | processed
deriving DecidableEq, Repr

/-- The content of a group's state column: who wrote it, in which transaction, and what. -/
structure StateContent where
  writePointer : Nat
  instanceId : Nat
  state : ConsumerEntryState
deriving DecidableEq, Repr

inductive DequeueStrategy
  | fifo
  | roundRobin
  | hash
deriving DecidableEq, Repr

/-- The configuration of one consumer. -/
structure ConsumerConfig where
  groupId : Nat
  instanceId : Nat
  groupSize : Nat
  dequeueStrategy : DequeueStrategy
  hashKey : Option (List UInt16)
deriving DecidableEq, Repr

/-! ## Who an entry belongs to -/

/-- A mathematical integer as a Java `int`. -/
def toInt32 (x : Int) : Int := x.bmod (2 ^ 32)

/-- `Math.abs` on an `int`: the smallest one is its own absolute value. -/
def mathAbs (x : Int) : Int := if x = -2 ^ 31 then x else x.natAbs

/-- `Long.hashCode` of a non-negative `long`. -/
def longHashCode (x : Nat) : Int := toInt32 ((x ^^^ (x >>> 32)) % 2 ^ 32 : Nat)

/-- `Objects.hashCode(writePointer, counter)`, which is documented as `Arrays.hashCode` of the two. 
Who an entry belongs to is defined for any such function. -/
def entryHashCode (writePointer counter : Nat) : Int :=
  toInt32 (31 * toInt32 (31 + longHashCode writePointer) + toInt32 counter)

/-- Does the entry belong to this consumer?  For ROUND_ROBIN and HASH that depends on the entry
alone; for FIFO every consumer of the group may try. -/
def ConsumerConfig.ownsBy (hashCode : Nat → Nat → Int) (config : ConsumerConfig) (row : Row)
    (hashKeys : HashKeys) : Bool :=
  match config.dequeueStrategy with
  | .fifo => true
  | .roundRobin =>
    (config.instanceId : Int) ==
      mathAbs ((hashCode row.writePointer row.counter).tmod config.groupSize)
  | .hash =>
    match config.hashKey.bind fun key ↦ hashKeys.lookup key with
    | none => config.instanceId == 0
    | some hashValue => (config.instanceId : Int) == (mathAbs hashValue).tmod config.groupSize

abbrev ConsumerConfig.owns (config : ConsumerConfig) (row : Row) (hashKeys : HashKeys) : Bool :=
  config.ownsBy entryHashCode row hashKeys

/-- Defines if a queue entry can be consumed. -/
inductive CanConsume
  | yes
  | no
  | noIncludingAllOlder
deriving DecidableEq, Repr

/-- Looks at a queue entry and determines whether the consumer can take it in its current
transaction. -/
def canConsumeBy (hashCode : Nat → Nat → Int) (config : ConsumerConfig) (transaction : Transaction)
    (row : Row) (hashKeys : HashKeys) (stateValue : Option StateContent) : CanConsume :=
  let byStrategy := if config.ownsBy hashCode row hashKeys then CanConsume.yes else .no
  match stateValue with
  | none => byStrategy
  | some st =>
    -- written by the current transaction: it is being processed
    if st.writePointer = transaction.writePointer then .no
    -- for FIFO, written by another instance that is still there
    else if config.dequeueStrategy = .fifo ∧ st.instanceId < config.groupSize ∧
        st.instanceId ≠ config.instanceId then .no
    else if st.state = .processed ∧ transaction.isVisible st.writePointer = true then
      -- long-running transactions are ignored here, they do not write to queues
      if row.writePointer < transaction.firstShortInProgress then .noIncludingAllOlder else .no
    else byStrategy

def canConsume (config : ConsumerConfig) (transaction : Transaction) (row : Row)
    (hashKeys : HashKeys) (stateValue : Option StateContent) : CanConsume :=
  canConsumeBy entryHashCode config transaction row hashKeys stateValue

/-! ## Hashes and their remainders -/

theorem toInt32_range (x : Int) : -2 ^ 31 ≤ toInt32 x ∧ toInt32 x < 2 ^ 31 := by
  have hle := Int.le_bmod (x := x) (show 0 < 2 ^ 32 by decide)
  have hlt := Int.bmod_lt (x := x) (show 0 < 2 ^ 32 by decide)
  rw [toInt32]
  omega

theorem mathAbs_eq_natAbs {h : Int} (hne : h ≠ -2 ^ 31) : mathAbs h = h.natAbs := if_neg hne

theorem tmod_mathAbs_lt {h : Int} {n : Nat} (hn : 0 < n) : (mathAbs h).tmod n < n := by
  have := Int.tmod_lt_of_pos (mathAbs h) (show (0 : Int) < n by omega)
  omega

/-- The remainder of the absolute value of the smallest `int`. -/
theorem smallest_tmod {n : Nat} : (mathAbs (-2 ^ 31)).tmod n = -((2 ^ 31 % n : Nat) : Int) := by
  have hsmallest : mathAbs (-2 ^ 31) = -2 ^ 31 := if_pos rfl
  rw [hsmallest, Int.neg_tmod]
  norm_cast

/-! ## What `canConsume` says -/

variable {config : ConsumerConfig} {tx : Transaction} {row : Row} {hashKeys : HashKeys}
  {state : Option StateContent}

theorem canConsume_none :
    canConsume config tx row hashKeys none = if config.owns row hashKeys then .yes else .no := rfl

/-- Only owners get a yes, and never for an entry whose processing is visible. -/
theorem canConsume_yes (h : canConsume config tx row hashKeys state = .yes) :
    config.owns row hashKeys = true ∧
      ∀ st, state = some st → st.writePointer ≠ tx.writePointer ∧
        (config.dequeueStrategy = .fifo → st.instanceId < config.groupSize →
          st.instanceId = config.instanceId) ∧
        ¬ (st.state = .processed ∧ tx.isVisible st.writePointer = true) := by
  unfold canConsume canConsumeBy at h
  cases state with
  | none =>
    refine ⟨?_, by simp⟩
    by_contra hno
    simp [hno] at h
  | some st =>
    simp only at h
    split at h
    · simp at h
    · rename_i h1
      split at h
      · simp at h
      · rename_i h2
        split at h
        · split at h <;> simp at h
        · rename_i h3
          have howns : config.owns row hashKeys = true := by
            by_contra hno
            simp [hno] at h
          refine ⟨howns, ?_⟩
          intro st' hst
          obtain rfl := Option.some_inj.mp hst
          refine ⟨h1, fun hf hlt ↦ ?_, h3⟩
          by_contra hne
          exact h2 ⟨hf, hlt, hne⟩

/-- The answer that lets the scan skip what is older is only given for an entry that is processed
for the transaction, and older than every short transaction in progress. -/
theorem canConsume_noIncludingAllOlder
    (h : canConsume config tx row hashKeys state = .noIncludingAllOlder) :
    row.writePointer < tx.firstShortInProgress ∧
      ∃ st, state = some st ∧ st.state = .processed ∧ tx.isVisible st.writePointer = true := by
  unfold canConsume canConsumeBy at h
  cases state with
  | none =>
    simp only at h
    split at h <;> simp at h
  | some st =>
    simp only at h
    split at h
    · simp at h
    · split at h
      · simp at h
      · split at h
        · rename_i h3
          split at h
          · rename_i h4; exact ⟨h4, st, rfl, h3⟩
          · simp at h
        · split at h <;> simp at h

/-- An entry a consumer owns is refused only for a reason to be found in its state column. -/
theorem canConsume_no (h : canConsume config tx row hashKeys state = .no)
    (howns : config.owns row hashKeys = true) :
    ∃ st, state = some st ∧ (st.writePointer = tx.writePointer ∨
      (config.dequeueStrategy = .fifo ∧ st.instanceId < config.groupSize ∧
        st.instanceId ≠ config.instanceId) ∨
      (st.state = .processed ∧ tx.isVisible st.writePointer = true)) := by
  unfold canConsume canConsumeBy at h
  cases state with
  | none => simp [howns] at h
  | some st =>
    refine ⟨st, rfl, ?_⟩
    simp only [howns] at h
    split at h
    · rename_i h1; exact .inl h1
    · split at h
      · rename_i h2; exact .inr (.inl h2)
      · split at h
        · rename_i h3; exact .inr (.inr h3)
        · simp at h

end Tigon
