import Tigon.InMemory.Queue

/-!
# Who an entry belongs to

For ROUND_ROBIN and HASH, an entry goes to one instance of a consumer group, by its hash.  There are
two implementations: `QueueEntryRow.canConsume` for the queue in HBase, and the tests in the loop of
`InMemoryQueue.dequeue`.

Both take absolute values and remainders, in different orders.  The smallest `int` is its own
absolute value, and its remainder is negative, which is the number of no instance.  The queue in
memory takes the absolute value first for both strategies, the queue in HBase for HASH only.

## What is here

* `existsUnique_owner_iff`, `existsUnique_goesTo_iff` — when exactly one instance gets an entry.
* `ownership_iff` — **the two implementations select the same, single instance**, unless the hash is
  the smallest `int` and the size of the group is not a power of two.
-/

set_option autoImplicit false

open Mvcc

namespace Tigon.InMemory

/-! ## Absolute values and remainders -/

section Hash

variable {h : Int} {n : Nat}

/-- The hash has a number of an instance for its remainder. -/
def HashOk (h : Int) (n : Nat) : Prop := h ≠ -2 ^ 31 ∨ n ∣ 2 ^ 31

theorem existsUnique_eq_iff {x : Int} : (∃! i : Nat, i < n ∧ (i : Int) = x) ↔ 0 ≤ x ∧ x < n := by
  constructor
  · rintro ⟨i, ⟨hi, rfl⟩, -⟩
    omega
  · rintro ⟨h0, hn⟩
    obtain ⟨i, rfl⟩ := Int.eq_ofNat_of_zero_le h0
    exact ⟨i, ⟨by omega, rfl⟩, fun j hj ↦ by omega⟩

/-- Absolute value first: there may be no such instance. -/
theorem tmod_mathAbs_nonneg_iff : 0 ≤ (mathAbs h).tmod n ↔ HashOk h n := by
  rw [HashOk]
  by_cases heq : h = -2 ^ 31
  · rw [heq, smallest_tmod, or_iff_right (not_not.mpr rfl), Nat.dvd_iff_mod_eq_zero]
    omega
  · rw [mathAbs_eq_natAbs heq]
    exact iff_of_true (Int.tmod_nonneg _ (by omega)) (.inl heq)

/-- Remainder first: then it is the same instance, if there is one. -/
theorem mathAbs_tmod (hmin : -2 ^ 31 ≤ h) (hmax : h < 2 ^ 31) (hok : HashOk h n) :
    mathAbs (h.tmod n) = (mathAbs h).tmod n := by
  by_cases heq : h = -2 ^ 31
  · subst heq
    have hdvd : n ∣ 2 ^ 31 := hok.resolve_left (not_not.mpr rfl)
    have hzero : (-2 ^ 31 : Int).tmod n = 0 := by
      rw [Int.neg_tmod, Int.neg_eq_zero]
      exact_mod_cast Int.tmod_eq_zero_of_dvd (Int.natCast_dvd_natCast.mpr hdvd)
    rw [hzero, smallest_tmod, Nat.dvd_iff_mod_eq_zero.mp hdvd]
    rfl
  · have hle : (h.tmod n).natAbs ≤ h.natAbs := by
      rw [Int.natAbs_tmod]
      exact Nat.mod_le _ _
    rw [mathAbs_eq_natAbs heq, mathAbs_eq_natAbs (by omega), Int.natAbs_tmod, Int.natAbs_natCast,
      Int.ofNat_tmod]

end Hash

/-! ## The instance that gets an entry -/

section Owner

variable {hashCode : Nat → Nat → Int} {config : ConsumerConfig} {row : Row} {entry : QueueEntry}

/-- The key of the entry in the queue in memory. -/
def keyOf (row : Row) : Key := ⟨row.writePointer, row.counter⟩

/-- An instance of the group of `config`. -/
def instanceOf (config : ConsumerConfig) (i : Nat) : ConsumerConfig :=
  { config with instanceId := i }

theorem canConsumeBy_none_eq_yes_iff {tx : Transaction} {hashKeys : HashKeys} :
    canConsumeBy hashCode config tx row hashKeys none = .yes ↔
      config.ownsBy hashCode row hashKeys = true := by
  show (if config.ownsBy hashCode row hashKeys then CanConsume.yes else .no) = .yes ↔ _
  split <;> simp_all

/-- Hashes are of type `int`. -/
def IsInt (hashCode : Nat → Nat → Int) : Prop :=
  ∀ w n, -2 ^ 31 ≤ hashCode w n ∧ hashCode w n < 2 ^ 31

theorem isInt_entryHashCode : IsInt entryHashCode := fun _ _ ↦ toInt32_range _

/-- The condition for an entry: the hash that its strategy takes. -/
def OwnerOk (hashCode : Nat → Nat → Int) (config : ConsumerConfig) (row : Row)
    (entry : QueueEntry) : Prop :=
  HashOk (Item.hashBy hashCode config (keyOf row) entry) config.groupSize

/-- The queue in memory. -/
theorem goesTo_iff {i : Nat} (hi : i < config.groupSize) :
    Item.goesToBy hashCode (instanceOf config i) (keyOf row) entry = true ↔
      (mathAbs (Item.hashBy hashCode config (keyOf row) entry)).tmod config.groupSize = i := by
  rw [Item.goesToBy, Bool.or_eq_true, decide_eq_true_eq, decide_eq_true_eq]
  refine or_iff_right_of_imp fun hone ↦ ?_
  have hzero : i = 0 := by
    have : config.groupSize = 1 := hone
    omega
  subst hzero
  replace hone : config.groupSize = 1 := hone
  show (mathAbs (Item.hashBy hashCode (instanceOf config 0) (keyOf row) entry)).tmod
    (config.groupSize : Int) = 0
  rw [hone]
  exact Int.tmod_one _

/-- The queue in HBase. -/
theorem ownsBy_iff (hint : IsInt hashCode) (hstrategy : config.dequeueStrategy ≠ .fifo)
    (hok : OwnerOk hashCode config row entry) {i : Nat} :
    (instanceOf config i).ownsBy hashCode row entry.hashKeys = true ↔
      (mathAbs (Item.hashBy hashCode config (keyOf row) entry)).tmod config.groupSize = i := by
  rw [OwnerOk] at hok
  rw [ConsumerConfig.ownsBy]
  cases hs : config.dequeueStrategy with
  | fifo => exact absurd hs hstrategy
  | roundRobin =>
    have hhash : Item.hashBy hashCode config (keyOf row) entry = hashCode row.writePointer
      row.counter := by
      rw [Item.hashBy, hs]
      rfl
    obtain ⟨hmin, hmax⟩ := hint row.writePointer row.counter
    rw [hhash] at hok ⊢
    simp only [instanceOf, hs, beq_iff_eq]
    rw [mathAbs_tmod hmin hmax hok]
    exact eq_comm
  | hash =>
    have hhash : Item.hashBy hashCode config (keyOf row) entry =
        (config.hashKey.bind fun hashKey ↦ entry.hashKeys.lookup hashKey).getD 0 := by
      rw [Item.hashBy, hs]
    rw [hhash]
    simp only [instanceOf, hs]
    cases config.hashKey.bind fun hashKey ↦ entry.hashKeys.lookup hashKey with
    | none =>
      have hzero : (mathAbs 0).tmod config.groupSize = 0 := Int.zero_tmod _
      rw [Option.getD_none, hzero, beq_iff_eq]
      omega
    | some v =>
      simp only [beq_iff_eq, Option.getD_some]
      exact eq_comm

theorem existsUnique_goesTo_iff (hn : 0 < config.groupSize) :
    (∃! i, i < config.groupSize ∧ Item.goesToBy hashCode (instanceOf config i) (keyOf row)
      entry = true) ↔ OwnerOk hashCode config row entry := by
  have hlt := tmod_mathAbs_lt (h := Item.hashBy hashCode config (keyOf row) entry) hn
  rw [OwnerOk, ← tmod_mathAbs_nonneg_iff]
  refine (existsUnique_congr fun i ↦ and_congr_right fun hi ↦ ?_).trans
    (existsUnique_eq_iff.trans (and_iff_left hlt))
  rw [goesTo_iff hi]
  exact eq_comm

theorem existsUnique_owner (hint : IsInt hashCode) (hstrategy : config.dequeueStrategy ≠ .fifo)
    (hn : 0 < config.groupSize) (hok : OwnerOk hashCode config row entry) :
    ∃! i, i < config.groupSize ∧ (instanceOf config i).ownsBy hashCode row
      entry.hashKeys = true := by
  have hunique := (existsUnique_eq_iff (n := config.groupSize)).mpr
    ⟨tmod_mathAbs_nonneg_iff.mpr hok, tmod_mathAbs_lt hn⟩
  refine (existsUnique_congr fun i ↦ and_congr_right fun hi ↦ ?_).mpr hunique
  rw [ownsBy_iff hint hstrategy hok]
  exact eq_comm

/-- **Ownership.**  For ROUND_ROBIN and HASH, each implementation selects exactly one instance, and
both the same, if and only if the remainder of the hash is the number of an instance.  This is so
whatever function `Objects.hashCode` is. -/
theorem ownership_iff (hashCode : Nat → Nat → Int) (hint : IsInt hashCode) (config : ConsumerConfig)
    (tx : Transaction) (row : Row) (entry : QueueEntry)
    (hstrategy : config.dequeueStrategy ≠ .fifo) (hn : 1 ≤ config.groupSize) :
    ((∃! i, i < config.groupSize ∧
          canConsumeBy hashCode (instanceOf config i) tx row entry.hashKeys none = .yes) ∧
        (∃! i, i < config.groupSize ∧
          Item.goesToBy hashCode (instanceOf config i) (keyOf row) entry = true) ∧
        ∀ i < config.groupSize, canConsumeBy hashCode (instanceOf config i) tx row entry.hashKeys
          none = .yes ↔ Item.goesToBy hashCode (instanceOf config i) (keyOf row) entry = true) ↔
      Item.hashBy hashCode config (keyOf row) entry ≠ -2 ^ 31 ∨ config.groupSize ∣ 2 ^ 31 := by
  simp only [canConsumeBy_none_eq_yes_iff]
  constructor
  · rintro ⟨-, hmemory, -⟩
    exact (existsUnique_goesTo_iff hn).mp hmemory
  · intro hok
    refine ⟨existsUnique_owner hint hstrategy hn hok, (existsUnique_goesTo_iff hn).mpr hok,
      fun i hi ↦ ?_⟩
    rw [ownsBy_iff hint hstrategy hok, goesTo_iff hi]

/-- The hash key `user`. -/
def user : List UInt16 := [117, 115, 101, 114]

/-- A group of three, by the hash of the field `user`. -/
def threeByHash : ConsumerConfig := ⟨1, 0, 3, .hash, some user⟩

/-- A transaction that sees everything up to 9. -/
def reader : Transaction where
  readPointer := 9
  writePointer := 10
  invalids := []
  inProgress := []
  firstShortInProgress := 10

/-- An entry whose hash is the smallest `int`. -/
def smallestHash : QueueEntry := ⟨[(user, -2 ^ 31)], []⟩

theorem ownership_iff_threeByHash :
    threeByHash.dequeueStrategy ≠ .fifo ∧ 1 ≤ threeByHash.groupSize ∧
      (((∃! i, i < threeByHash.groupSize ∧
            canConsume (instanceOf threeByHash i) reader ⟨5, 0⟩ smallestHash.hashKeys none = .yes) ∧
          (∃! i, i < threeByHash.groupSize ∧
            Item.goesTo (instanceOf threeByHash i) (keyOf ⟨5, 0⟩) smallestHash = true) ∧
          ∀ i < threeByHash.groupSize,
            canConsume (instanceOf threeByHash i) reader ⟨5, 0⟩ smallestHash.hashKeys none = .yes ↔
              Item.goesTo (instanceOf threeByHash i) (keyOf ⟨5, 0⟩) smallestHash = true) ↔
        Item.hashBy entryHashCode threeByHash (keyOf ⟨5, 0⟩) smallestHash ≠ -2 ^ 31 ∨
          threeByHash.groupSize ∣ 2 ^ 31) :=
  ⟨by decide, by decide, ownership_iff entryHashCode isInt_entryHashCode threeByHash reader
    ⟨5, 0⟩ smallestHash (by decide) (by decide)⟩

/-- **An entry that nobody gets**, for HASH in both implementations. -/
theorem exists_no_owner : ¬ ∀ (config : ConsumerConfig) (tx : Transaction) (row : Row)
    (entry : QueueEntry), config.dequeueStrategy ≠ .fifo → 1 ≤ config.groupSize →
      ((∃! i, i < config.groupSize ∧
          canConsume (instanceOf config i) tx row entry.hashKeys none = .yes) ∧
        (∃! i, i < config.groupSize ∧
          Item.goesTo (instanceOf config i) (keyOf row) entry = true) ∧
        ∀ i < config.groupSize, canConsume (instanceOf config i) tx row entry.hashKeys none = .yes ↔
          Item.goesTo (instanceOf config i) (keyOf row) entry = true) := by
  intro h
  obtain ⟨⟨i, ⟨hi, hyes⟩, -⟩, -⟩ := h threeByHash reader ⟨5, 0⟩ smallestHash (by decide) (by decide)
  have hnobody : ∀ i < 3, canConsume (instanceOf threeByHash i) reader ⟨5, 0⟩
      smallestHash.hashKeys none = .no := by decide
  rw [hnobody i hi] at hyes
  cases hyes

/-- For ROUND_ROBIN, the queue in HBase has an owner for an entry that nobody gets from the queue in
memory. -/
example : (List.range 3).filter (fun i ↦
      ConsumerConfig.owns ⟨1, i, 3, .roundRobin, none⟩ ⟨0, 2147482687⟩ []) = [2] ∧
    (List.range 3).filter (fun i ↦
      Item.goesTo ⟨1, i, 3, .roundRobin, none⟩ ⟨0, 2147482687⟩ ⟨[], []⟩) = [] := by decide

end Owner

end Tigon.InMemory
