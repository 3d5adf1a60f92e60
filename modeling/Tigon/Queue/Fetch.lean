import Tigon.Queue.Consumer

/-!
# What a round of fetching does

`getEntries` moves entries from the cache to the consuming entries and, when those are too few,
scans the table and caches what the consumer may take.  Everything later proofs need of it is in
`Fetched`: which entries the consumer has afterwards, where the next scan will start, and that
nothing was skipped on the way there (`getEntries_fetched`).  `getEntries_eq_false` is about the
round that ends the call of `dequeue`: it comes back without an entry only if there is none.

`Fetched` compares the consumer before and after, and does not say how many rounds lie between.  So
it is transitive, and a loop needs no invariant but what one round does.
-/

set_option autoImplicit false

open Mvcc

namespace Tigon

namespace Table

variable {t : Table} {g : Nat} {start stop : Row}

theorem mem_scan {x : Scanned} : x ∈ t.scan g start stop ↔
    start ≤ x.rowKey ∧ x.rowKey < stop ∧ t.entry x.rowKey = some x.entry ∧
      x.state = t.state g x.rowKey := by
  rw [scan, List.mem_filterMap]
  constructor
  · rintro ⟨r, hr, hx⟩
    obtain ⟨e, he, rfl⟩ := Option.map_eq_some_iff.mp hx
    obtain ⟨hr, hb⟩ := List.mem_filter.mp hr
    rw [decide_eq_true_eq] at hb
    exact ⟨hb.1, hb.2, he, rfl⟩
  · rintro ⟨h1, h2, he, hs⟩
    refine ⟨x.rowKey, List.mem_filter.mpr ⟨?_, by simp [h1, h2]⟩, ?_⟩
    · rw [t.mem_rows, he]; simp
    · rw [he, ← hs]; rfl

theorem scan_sorted (t : Table) (g : Nat) (start stop : Row) :
    SortedList.Sorted Scanned.rowKey (t.scan g start stop) := by
  rw [scan, SortedList.Sorted, List.pairwise_filterMap]
  refine (List.Pairwise.filter _ t.sorted).imp fun {a b} hab x hx y hy ↦ ?_
  obtain ⟨_, -, rfl⟩ := Option.map_eq_some_iff.mp hx
  obtain ⟨_, -, rfl⟩ := Option.map_eq_some_iff.mp hy
  exact hab

end Table

namespace Consumer

open SimpleQueueEntry SortedList

/-! ## Moving entries out of the cache -/

section fetchLoop

variable {n : Nat} {cache entries cache' entries' : List SimpleQueueEntry}

theorem fetchLoop_mem (h : fetchLoop n cache entries = (cache', entries')) {x : SimpleQueueEntry} :
    (x ∈ cache' → x ∈ cache) ∧ (x ∈ entries' → x ∈ cache ∨ x ∈ entries) := by
  induction cache generalizing entries with
  | nil =>
    obtain ⟨rfl, rfl⟩ := Prod.mk.inj h
    exact ⟨id, .inr⟩
  | cons e cache ih =>
    rw [fetchLoop] at h
    split at h
    · obtain ⟨h1, h2⟩ := ih h
      refine ⟨fun hx ↦ List.mem_cons_of_mem _ (h1 hx), fun hx ↦ ?_⟩
      rcases h2 hx with hx | hx
      · exact .inl (List.mem_cons_of_mem _ hx)
      · rcases mem_of_mem_put hx with rfl | hx
        · exact .inl (by simp)
        · exact .inr hx
    · obtain ⟨rfl, rfl⟩ := Prod.mk.inj h
      exact ⟨id, .inr⟩

/-- Entries are moved, not lost. -/
theorem fetchLoop_keys (h : fetchLoop n cache entries = (cache', entries')) (k : Row) :
    k ∈ cache'.map rowKey ∨ k ∈ entries'.map rowKey ↔
      k ∈ cache.map rowKey ∨ k ∈ entries.map rowKey := by
  induction cache generalizing entries with
  | nil =>
    obtain ⟨rfl, rfl⟩ := Prod.mk.inj h
    exact Iff.rfl
  | cons e cache ih =>
    rw [fetchLoop] at h
    split at h
    · rw [ih h, mem_keys_put, List.map_cons, List.mem_cons]
      tauto
    · obtain ⟨rfl, rfl⟩ := Prod.mk.inj h
      exact Iff.rfl

theorem fetchLoop_sublist (h : fetchLoop n cache entries = (cache', entries')) :
    cache'.Sublist cache := by
  induction cache generalizing entries with
  | nil => obtain ⟨rfl, rfl⟩ := Prod.mk.inj h; exact .slnil
  | cons e cache ih =>
    rw [fetchLoop] at h
    split at h
    · exact (ih h).cons _
    · obtain ⟨rfl, rfl⟩ := Prod.mk.inj h
      exact List.Sublist.refl _

theorem fetchLoop_subset (h : fetchLoop n cache entries = (cache', entries')) {k : Row}
    (hk : k ∈ entries.map rowKey) : k ∈ entries'.map rowKey := by
  induction cache generalizing entries with
  | nil => obtain ⟨rfl, rfl⟩ := Prod.mk.inj h; exact hk
  | cons e cache ih =>
    rw [fetchLoop] at h
    split at h
    · exact ih h (mem_keys_put.mpr (.inr hk))
    · obtain ⟨rfl, rfl⟩ := Prod.mk.inj h
      exact hk

theorem fetchLoop_sorted (h : fetchLoop n cache entries = (cache', entries'))
    (hs : Sorted rowKey entries) : Sorted rowKey entries' := by
  induction cache generalizing entries with
  | nil => obtain ⟨rfl, rfl⟩ := Prod.mk.inj h; exact hs
  | cons e cache ih =>
    rw [fetchLoop] at h
    split at h
    · exact ih h (hs.put e)
    · obtain ⟨rfl, rfl⟩ := Prod.mk.inj h
      exact hs

/-- A key is in the cache or among the entries, not both. -/
theorem fetchLoop_disjoint (h : fetchLoop n cache entries = (cache', entries'))
    (hs : Sorted rowKey cache) (hd : ∀ k ∈ cache.map rowKey, k ∉ entries.map rowKey) :
    ∀ k ∈ cache'.map rowKey, k ∉ entries'.map rowKey := by
  induction cache generalizing entries with
  | nil => obtain ⟨rfl, rfl⟩ := Prod.mk.inj h; simp
  | cons e cache ih =>
    rw [fetchLoop] at h
    split at h
    · obtain ⟨he, hs⟩ := List.pairwise_cons.mp hs
      refine ih h hs fun k hk hk' ↦ ?_
      rcases mem_keys_put.mp hk' with rfl | hk'
      · obtain ⟨x, hx, hxe⟩ := List.mem_map.mp hk
        exact absurd (he x hx) (by rw [hxe]; exact lt_irrefl _)
      · exact hd k (by simp only [List.map_cons, List.mem_cons]; exact .inr hk) hk'
    · obtain ⟨rfl, rfl⟩ := Prod.mk.inj h
      exact hd

/-- The loop stops when there are enough entries. -/
theorem fetchLoop_length (h : fetchLoop n cache entries = (cache', entries'))
    (hle : entries.length ≤ n) : entries'.length ≤ n := by
  induction cache generalizing entries with
  | nil =>
    rw [fetchLoop, Prod.mk.injEq] at h
    exact h.2 ▸ hle
  | cons e cache ih =>
    rw [fetchLoop] at h
    split at h
    · refine ih h ?_
      have := SortedList.length_put_le rowKey e entries
      omega
    · rw [Prod.mk.injEq] at h
      exact h.2 ▸ hle

/-- If there is room, the first entry of the cache is taken. -/
theorem fetchLoop_mem_first {e : SimpleQueueEntry}
    (h : fetchLoop n (e :: cache) entries = (cache', entries')) (hlt : entries.length < n) :
    e.rowKey ∈ entries'.map rowKey := by
  rw [fetchLoop, if_pos hlt] at h
  exact fetchLoop_subset h (mem_keys_put.mpr (.inl rfl))

/-- What is taken comes before what is left. -/
theorem fetchLoop_order (h : fetchLoop n cache entries = (cache', entries'))
    (hs : Sorted rowKey cache) {k k' : Row} (hk : k ∈ cache'.map rowKey)
    (hk' : k' ∈ entries'.map rowKey) : k' ∈ entries.map rowKey ∨ k' < k := by
  induction cache generalizing entries with
  | nil =>
    obtain ⟨rfl, rfl⟩ := Prod.mk.inj h
    exact .inl hk'
  | cons e cache ih =>
    obtain ⟨he, hs⟩ := List.pairwise_cons.mp hs
    rw [fetchLoop] at h
    split at h
    · rcases ih h hs with hk' | hlt
      · rcases mem_keys_put.mp hk' with rfl | hk'
        · obtain ⟨x, hx, rfl⟩ := List.mem_map.mp hk
          exact .inr (he x ((fetchLoop_mem h).1 hx))
        · exact .inl hk'
      · exact .inr hlt
    · obtain ⟨rfl, rfl⟩ := Prod.mk.inj h
      exact .inl hk'

end fetchLoop

/-! ## The rows of a scan -/

variable {config : ConsumerConfig} {t : Table} {tx : Transaction} {c c' : Consumer}

theorem mem_getScanner {start : Row} {x : Table.Scanned} :
    x ∈ getScanner config t tx start ↔
      start ≤ x.rowKey ∧ t.entry x.rowKey = some x.entry ∧
        x.state = t.state config.groupId x.rowKey ∧ tx.isVisible x.rowKey.writePointer = true ∧
        canConsume config tx x.rowKey x.entry.hashKeys x.state ≠ .no := by
  have hstop : x.rowKey < getStopRowForTransaction tx ↔
      x.rowKey.writePointer ≤ tx.readPointer := by
    simp only [Row.lt_def, getStopRowForTransaction]; omega
  rw [getScanner, List.mem_filter, Table.mem_scan, hstop]
  simp only [DequeueFilter.include, Transaction.isVisible, Bool.and_eq_true, decide_eq_true_eq]
  tauto

theorem getScanner_sorted (config : ConsumerConfig) (t : Table) (tx : Transaction) (start : Row) :
    Sorted Table.Scanned.rowKey (getScanner config t tx start) :=
  List.Pairwise.filter _ (t.scan_sorted _ _ _)

/-- The answer for a scanned row. -/
def answer (config : ConsumerConfig) (tx : Transaction) (x : Table.Scanned) : CanConsume :=
  canConsume config tx x.rowKey x.entry.hashKeys x.state

/-- What the cache gets from a scanned row. -/
def fetched (x : Table.Scanned) : SimpleQueueEntry := ⟨x.rowKey, x.entry.data, x.state⟩

/-- Where the scan start row may move to when the row `x` is seen. -/
def Advance (config : ConsumerConfig) (tx : Transaction) (x : Table.Scanned) (r : Row) : Prop :=
  (r = x.rowKey ∧ x.rowKey.writePointer < tx.firstInProgress) ∨
    (r = x.rowKey.next ∧ answer config tx x = .noIncludingAllOlder)

/-! ## The scan loop -/

section populateLoop

variable {exclude : List Row} {num : Int}

/-- The loop over one row that is visible and not excluded, with the case distinctions of the
source brought into the form the proofs use: the start row may move to the row itself, and then
the row is skipped over, passed by, or cached. -/
theorem populateLoop_cons {x : Table.Scanned} {st : PopulateState}
    (hv : tx.isVisible x.rowKey.writePointer = true) (hlt : (st.entryCache.length : Int) < num)
    (hex : x.rowKey ∉ exclude) (rest : List Table.Scanned) :
    ∃ first row, (row = st.scanStartRow ∨
        (row = x.rowKey ∧ x.rowKey.writePointer < tx.firstInProgress)) ∧
      populateLoop config tx exclude num (x :: rest) st =
        populateLoop config tx exclude num rest
          (match answer config tx x with
          | .noIncludingAllOlder => ⟨st.entryCache, x.rowKey.next, first⟩
          | .no => ⟨st.entryCache, row, first⟩
          | .yes => ⟨put rowKey (fetched x) st.entryCache, row, first⟩) := by
  obtain ⟨hr, hip, hinv⟩ := Transaction.isVisible_iff.mp hv
  have hexc : tx.isExcluded x.rowKey.writePointer = false := by
    simp [Transaction.isExcluded, hip, hinv]
  rw [populateLoop, if_pos hlt, if_neg hex]
  by_cases hfirst : st.firstScannedRow = true ∧ x.rowKey.writePointer < tx.firstInProgress
  · refine ⟨false, x.rowKey, .inr ⟨rfl, hfirst.2⟩, ?_⟩
    simp only [if_pos hfirst, if_neg (Nat.not_lt.mpr hr), hexc, answer]
    cases canConsume config tx x.rowKey x.entry.hashKeys x.state <;> rfl
  · refine ⟨st.firstScannedRow, st.scanStartRow, .inl rfl, ?_⟩
    simp only [if_neg hfirst, if_neg (Nat.not_lt.mpr hr), hexc, answer]
    cases canConsume config tx x.rowKey x.entry.hashKeys x.state <;> rfl

/-- What the scan loop has done when it ends. -/
structure Populated (config : ConsumerConfig) (tx : Transaction) (exclude : List Row) (num : Int)
    (rows : List Table.Scanned) (st st' : PopulateState) : Prop where
  /-- What is cached was cached before or comes from the scan. -/
  mem : ∀ x ∈ st'.entryCache, x ∈ st.entryCache ∨
    ∃ y ∈ rows, y.rowKey ∉ exclude ∧ answer config tx y = .yes ∧ x = fetched y
  /-- Nothing leaves the cache. -/
  subset : ∀ k ∈ st.entryCache.map rowKey, k ∈ st'.entryCache.map rowKey
  sorted : Sorted rowKey st.entryCache → Sorted rowKey st'.entryCache
  /-- The start row only moves forward, and only for a reason. -/
  le : st.scanStartRow ≤ st'.scanStartRow
  advance : st'.scanStartRow = st.scanStartRow ∨
    ∃ y ∈ rows, y.rowKey ∉ exclude ∧ Advance config tx y st'.scanStartRow
  /-- What it moves past is cached, if it is to be had at all. -/
  skipped : ∀ y ∈ rows, y.rowKey < st'.scanStartRow → y.rowKey ∉ exclude →
    answer config tx y = .yes → y.rowKey ∈ st'.entryCache.map rowKey
  /-- Unless the cache is full, everything is cached. -/
  all : (st'.entryCache.length : Int) < num → ∀ y ∈ rows, y.rowKey ∉ exclude →
    answer config tx y = .yes → y.rowKey ∈ st'.entryCache.map rowKey
  /-- What is not cached comes after everything that has been added. -/
  order : ∀ y ∈ rows, y.rowKey ∉ exclude → answer config tx y = .yes →
    y.rowKey ∈ st'.entryCache.map rowKey ∨
      ∀ k ∈ st'.entryCache.map rowKey, k ∈ st.entryCache.map rowKey ∨ k < y.rowKey

theorem Populated.stop {rows : List Table.Scanned} {st : PopulateState}
    (hle : ∀ y ∈ rows, st.scanStartRow ≤ y.rowKey)
    (hfull : (st.entryCache.length : Int) < num → rows = []) :
    Populated config tx exclude num rows st st where
  mem := fun _ hx ↦ .inl hx
  subset := fun _ hk ↦ hk
  sorted := id
  le := le_refl _
  advance := .inl rfl
  skipped := fun y hy hlt ↦ absurd hlt (not_lt.mpr (hle y hy))
  all := fun hlt y hy ↦ by rw [hfull hlt] at hy; simp at hy
  order := fun _ _ _ _ ↦ .inr fun _ hk ↦ .inl hk

/-- One row of the scan, then the rest. -/
theorem Populated.cons {x : Table.Scanned} {rest : List Table.Scanned} {st mid st' : PopulateState}
    (h : Populated config tx exclude num rest mid st')
    (hcache : mid.entryCache = st.entryCache ∨
      (x.rowKey ∉ exclude ∧ answer config tx x = .yes ∧
        mid.entryCache = put rowKey (fetched x) st.entryCache))
    (hyes : x.rowKey ∉ exclude → answer config tx x = .yes →
      x.rowKey ∈ mid.entryCache.map rowKey)
    (hrow : mid.scanStartRow = st.scanStartRow ∨
      (x.rowKey ∉ exclude ∧ Advance config tx x mid.scanStartRow))
    (hle : st.scanStartRow ≤ mid.scanStartRow) (hx : ∀ y ∈ rest, x.rowKey < y.rowKey) :
    Populated config tx exclude num (x :: rest) st st' where
  mem := by
    intro z hz
    rcases h.mem z hz with hz | ⟨y, hy, hex, hans, rfl⟩
    · rcases hcache with heq | ⟨hex, hans, heq⟩
      · exact .inl (heq ▸ hz)
      · rw [heq] at hz
        rcases mem_of_mem_put hz with rfl | hz
        · exact .inr ⟨x, by simp, hex, hans, rfl⟩
        · exact .inl hz
    · exact .inr ⟨y, List.mem_cons_of_mem _ hy, hex, hans, rfl⟩
  subset := by
    intro k hk
    refine h.subset k ?_
    rcases hcache with heq | ⟨-, -, heq⟩
    · exact heq ▸ hk
    · rw [heq]; exact mem_keys_put.mpr (.inr hk)
  sorted := by
    intro hs
    refine h.sorted ?_
    rcases hcache with heq | ⟨-, -, heq⟩
    · exact heq ▸ hs
    · rw [heq]; exact hs.put _
  le := hle.trans h.le
  advance := by
    rcases h.advance with heq | ⟨y, hy, hex, hadv⟩
    · rcases hrow with heq' | ⟨hex, hadv⟩
      · exact .inl (heq.trans heq')
      · exact .inr ⟨x, by simp, hex, heq ▸ hadv⟩
    · exact .inr ⟨y, List.mem_cons_of_mem _ hy, hex, hadv⟩
  skipped := by
    intro y hy hlt hex hans
    rcases List.mem_cons.mp hy with rfl | hy
    · exact h.subset _ (hyes hex hans)
    · exact h.skipped y hy hlt hex hans
  all := by
    intro hlt y hy hex hans
    rcases List.mem_cons.mp hy with rfl | hy
    · exact h.subset _ (hyes hex hans)
    · exact h.all hlt y hy hex hans
  order := by
    intro y hy hex hans
    rcases List.mem_cons.mp hy with rfl | hy
    · exact .inl (h.subset _ (hyes hex hans))
    · refine (h.order y hy hex hans).imp id fun hnew k hk ↦ ?_
      rcases hnew k hk with hk | hk
      · rcases hcache with heq | ⟨-, -, heq⟩
        · exact .inl (heq ▸ hk)
        · rw [heq] at hk
          rcases mem_keys_put.mp hk with rfl | hk
          · exact .inr (hx y hy)
          · exact .inl hk
      · exact .inr hk

/-- The scan loop, on rows in key order that are visible and not before the start row. -/
theorem populateLoop_populated (rows : List Table.Scanned) (hs : Sorted Table.Scanned.rowKey rows)
    (hv : ∀ y ∈ rows, tx.isVisible y.rowKey.writePointer = true) (st : PopulateState)
    (hle : ∀ y ∈ rows, st.scanStartRow ≤ y.rowKey) :
    Populated config tx exclude num rows st (populateLoop config tx exclude num rows st) := by
  induction rows generalizing st with
  | nil => exact .stop (by simp) (fun _ ↦ rfl)
  | cons x rest ih =>
    obtain ⟨hx, hrest⟩ := List.pairwise_cons.mp hs
    have hlex : st.scanStartRow ≤ x.rowKey := hle x (by simp)
    have hler : ∀ y ∈ rest, st.scanStartRow ≤ y.rowKey :=
      fun y hy ↦ hle y (List.mem_cons_of_mem _ hy)
    have ih := ih hrest fun y hy ↦ hv y (List.mem_cons_of_mem _ hy)
    by_cases hlt : (st.entryCache.length : Int) < num
    · by_cases hex : x.rowKey ∈ exclude
      · rw [populateLoop, if_pos hlt, if_pos hex]
        exact (ih st hler).cons (.inl rfl) (fun h ↦ absurd hex h) (.inl rfl) (le_refl _) hx
      · obtain ⟨first, row, hrow, heq⟩ := populateLoop_cons (hv x (by simp)) hlt hex rest
        have hrow_le : row ≤ x.rowKey := by
          rcases hrow with rfl | ⟨rfl, -⟩
          · exact hlex
          · exact le_refl _
        have hle_row : st.scanStartRow ≤ row := by
          rcases hrow with rfl | ⟨rfl, -⟩
          · exact le_refl _
          · exact hlex
        have hadv : row = st.scanStartRow ∨ (x.rowKey ∉ exclude ∧ Advance config tx x row) :=
          hrow.imp id fun h ↦ ⟨hex, .inl h⟩
        rw [heq]
        cases hans : answer config tx x with
        | noIncludingAllOlder =>
          refine (ih ⟨st.entryCache, x.rowKey.next, first⟩ fun y hy ↦ ?_).cons (.inl rfl)
            (fun _ h ↦ absurd (hans.symm.trans h) (by simp)) (.inr ⟨hex, .inr ⟨rfl, hans⟩⟩)
            (hlex.trans (x.rowKey.lt_next).le) hx
          exact not_lt.mp fun h ↦ absurd (Row.lt_next_iff.mp h) (not_le.mpr (hx y hy))
        | no =>
          exact (ih ⟨st.entryCache, row, first⟩ fun y hy ↦ hrow_le.trans (hx y hy).le).cons
            (.inl rfl) (fun _ h ↦ absurd (hans.symm.trans h) (by simp)) hadv hle_row hx
        | yes =>
          exact (ih ⟨put rowKey (fetched x) st.entryCache, row, first⟩
              fun y hy ↦ hrow_le.trans (hx y hy).le).cons
            (.inr ⟨hex, hans, rfl⟩) (fun _ _ ↦ mem_keys_put.mpr (.inl rfl)) hadv hle_row hx
    · rw [populateLoop, if_neg hlt]
      exact .stop hle fun h ↦ absurd h hlt

end populateLoop

/-! ## A round of `getEntries` -/

/-- An entry the scan from `start` on brings in. -/
def Fresh (config : ConsumerConfig) (t : Table) (tx : Transaction) (start : Row)
    (x : SimpleQueueEntry) : Prop :=
  ∃ y ∈ getScanner config t tx start, answer config tx y = .yes ∧ x = fetched y

/-- What fetching does to a consumer. -/
structure Fetched (config : ConsumerConfig) (t : Table) (tx : Transaction) (c c' : Consumer) :
    Prop where
  startRow : c'.startRow = c.startRow
  transaction : c'.transaction = c.transaction
  committed : c'.committed = c.committed
  /-- Entries come out of the table, or were there before. -/
  mem_cache : ∀ x ∈ c'.entryCache, x ∈ c.entryCache ∨ Fresh config t tx c.scanStart x
  mem_consuming : ∀ x ∈ c'.consumingEntries,
    x ∈ c.consumingEntries ∨ x ∈ c.entryCache ∨ Fresh config t tx c.scanStart x
  /-- No entry is lost, and what is being consumed stays so. -/
  kept : ∀ k, k ∈ c.cachedRows ∨ k ∈ c.consumingRows → k ∈ c'.cachedRows ∨ k ∈ c'.consumingRows
  consuming_kept : ∀ k ∈ c.consumingRows, k ∈ c'.consumingRows
  sorted : Sorted rowKey c.entryCache → Sorted rowKey c'.entryCache
  sorted_consuming : Sorted rowKey c.consumingEntries → Sorted rowKey c'.consumingEntries
  disjoint : Sorted rowKey c.entryCache → (∀ k ∈ c.cachedRows, k ∉ c.consumingRows) →
    ∀ k ∈ c'.cachedRows, k ∉ c'.consumingRows
  /-- The scan start row moves forward, for one of the two reasons there are. -/
  le : c.scanStart ≤ c'.scanStart
  advance : c'.scanStart = c.scanStart ∨
    ∃ y ∈ getScanner config t tx c.scanStart, Advance config tx y c'.scanStart
  /-- It moves past nothing that could be had. -/
  skipped : ∀ y ∈ getScanner config t tx c.scanStart, y.rowKey < c'.scanStart →
    answer config tx y = .yes → y.rowKey ∈ c'.cachedRows ∨ y.rowKey ∈ c'.consumingRows
  /-- What is not brought in comes after everything that is. -/
  order : ∀ y ∈ getScanner config t tx c.scanStart, answer config tx y = .yes →
    (y.rowKey ∈ c'.cachedRows ∨ y.rowKey ∈ c'.consumingRows) ∨
      ∀ k, k ∈ c'.cachedRows ∨ k ∈ c'.consumingRows →
        (k ∈ c.cachedRows ∨ k ∈ c.consumingRows) ∨ k < y.rowKey

/-- A later scan start row finds fewer rows. -/
theorem getScanner_mono {start start' : Row} (h : start ≤ start') {y : Table.Scanned}
    (hy : y ∈ getScanner config t tx start') : y ∈ getScanner config t tx start := by
  obtain ⟨h1, h2⟩ := mem_getScanner.mp hy
  exact mem_getScanner.mpr ⟨h.trans h1, h2⟩

theorem Fresh.mono {start start' : Row} (h : start ≤ start') {x : SimpleQueueEntry}
    (hx : Fresh config t tx start' x) : Fresh config t tx start x := by
  obtain ⟨y, hy, hans, rfl⟩ := hx
  exact ⟨y, getScanner_mono h hy, hans, rfl⟩

/-- A scan brings in what is there, is visible, and has the state it is remembered with. -/
theorem Fresh.spec {start : Row} {x : SimpleQueueEntry} (hx : Fresh config t tx start x) :
    t.entry x.rowKey ≠ none ∧ tx.isVisible x.rowKey.writePointer = true ∧
      x.state = t.state config.groupId x.rowKey := by
  obtain ⟨y, hy, -, rfl⟩ := hx
  obtain ⟨-, hentry, hstate, hvis, -⟩ := mem_getScanner.mp hy
  exact ⟨by rw [fetched, hentry]; simp, hvis, hstate⟩

theorem Fetched.refl (config : ConsumerConfig) (t : Table) (tx : Transaction) (c : Consumer) :
    Fetched config t tx c c where
  startRow := rfl
  transaction := rfl
  committed := rfl
  mem_cache := fun _ hx ↦ .inl hx
  mem_consuming := fun _ hx ↦ .inl hx
  kept := fun _ hk ↦ hk
  consuming_kept := fun _ hk ↦ hk
  sorted := id
  sorted_consuming := id
  disjoint := fun _ hd ↦ hd
  le := le_refl _
  advance := .inl rfl
  skipped := fun _ hy hlt _ ↦ absurd hlt (not_lt.mpr (mem_getScanner.mp hy).1)
  order := fun _ _ _ ↦ .inr fun _ hk ↦ .inl hk

theorem Fetched.trans {c'' : Consumer} (h : Fetched config t tx c c')
    (h' : Fetched config t tx c' c'') : Fetched config t tx c c'' where
  startRow := h'.startRow.trans h.startRow
  transaction := h'.transaction.trans h.transaction
  committed := h'.committed.trans h.committed
  mem_cache := by
    intro x hx
    rcases h'.mem_cache x hx with hx | hx
    · exact h.mem_cache x hx
    · exact .inr (hx.mono h.le)
  mem_consuming := by
    intro x hx
    rcases h'.mem_consuming x hx with hx | hx | hx
    · exact h.mem_consuming x hx
    · exact .inr (h.mem_cache x hx)
    · exact .inr (.inr (hx.mono h.le))
  kept := fun k hk ↦ h'.kept k (h.kept k hk)
  consuming_kept := fun k hk ↦ h'.consuming_kept k (h.consuming_kept k hk)
  sorted := fun hs ↦ h'.sorted (h.sorted hs)
  sorted_consuming := fun hs ↦ h'.sorted_consuming (h.sorted_consuming hs)
  disjoint := fun hs hd ↦ h'.disjoint (h.sorted hs) (h.disjoint hs hd)
  le := h.le.trans h'.le
  advance := by
    rcases h'.advance with heq | ⟨y, hy, hadv⟩
    · rw [heq]
      exact h.advance
    · exact .inr ⟨y, getScanner_mono h.le hy, hadv⟩
  skipped := by
    intro y hy hlt hans
    by_cases hc : y.rowKey < c'.scanStart
    · exact h'.kept _ (h.skipped y hy hc hans)
    · obtain ⟨_, hy⟩ := mem_getScanner.mp hy
      exact h'.skipped y (mem_getScanner.mpr ⟨not_lt.mp hc, hy⟩) hlt hans
  order := by
    intro y hy hans
    by_cases hc : y.rowKey < c'.scanStart
    · exact .inl (h'.kept _ (h.skipped y hy hc hans))
    · have hy' := mem_getScanner.mpr ⟨not_lt.mp hc, (mem_getScanner.mp hy).2⟩
      rcases h.order y hy hans with hin | hnew
      · exact .inl (h'.kept _ hin)
      · refine (h'.order y hy' hans).imp id fun hnew' k hk ↦ ?_
        exact (hnew' k hk).elim (hnew k) .inr

theorem fetchFromCache_fetched (config : ConsumerConfig) (t : Table) (tx : Transaction)
    (c : Consumer) (n : Nat) : Fetched config t tx c (fetchFromCache c n).2 := by
  rw [fetchFromCache]
  split
  · exact .refl config t tx c
  · rcases hl : fetchLoop n c.entryCache c.consumingEntries with ⟨cache, entries⟩
    exact {
      startRow := rfl
      transaction := rfl
      committed := rfl
      mem_cache := fun x hx ↦ .inl ((fetchLoop_mem hl).1 hx)
      mem_consuming := fun x hx ↦ ((fetchLoop_mem hl).2 hx).symm.imp id .inl
      kept := fun k hk ↦ (fetchLoop_keys hl k).mpr hk
      consuming_kept := fun k hk ↦ fetchLoop_subset hl hk
      sorted := fun hs ↦ hs.sublist (fetchLoop_sublist hl)
      sorted_consuming := fetchLoop_sorted hl
      disjoint := fun hs hd ↦ fetchLoop_disjoint hl hs hd
      le := le_refl _
      advance := .inl rfl
      skipped := fun _ hy hlt _ ↦ absurd hlt (not_lt.mpr (mem_getScanner.mp hy).1)
      order := fun _ _ _ ↦ .inr fun k hk ↦ .inl ((fetchLoop_keys hl k).mp hk) }

/-- The scan loop on the rows of the scan. -/
theorem populateRowCache_populated (config : ConsumerConfig) (t : Table) (tx : Transaction)
    (c : Consumer) (n : Nat) : ∃ st, Populated config tx c.consumingRows (numRows n)
      (getScanner config t tx c.scanStart) ⟨c.entryCache, c.scanStart, true⟩ st ∧
      populateRowCache config t tx c n =
        { c with entryCache := st.entryCache, scanStartRow := some st.scanStartRow } := by
  refine ⟨_, ?_, rfl⟩
  exact populateLoop_populated _ (getScanner_sorted config t tx _)
    (fun y hy ↦ (mem_getScanner.mp hy).2.2.2.1) _ (fun y hy ↦ (mem_getScanner.mp hy).1)

theorem populateRowCache_fetched (config : ConsumerConfig) (t : Table) (tx : Transaction)
    (c : Consumer) (n : Nat) : Fetched config t tx c (populateRowCache config t tx c n) := by
  obtain ⟨st, hst, heq⟩ := populateRowCache_populated config t tx c n
  have hmem : ∀ x ∈ st.entryCache, x ∈ c.entryCache ∨
      (x.rowKey ∉ c.consumingRows ∧ Fresh config t tx c.scanStart x) := by
    intro x hx
    rcases hst.mem x hx with hx | ⟨y, hy, hex, hans, rfl⟩
    · exact .inl hx
    · exact .inr ⟨hex, y, hy, hans, rfl⟩
  rw [heq]
  exact {
    startRow := rfl
    transaction := rfl
    committed := rfl
    mem_cache := fun x hx ↦ (hmem x hx).imp id And.right
    mem_consuming := fun x hx ↦ .inl hx
    kept := fun k hk ↦ hk.imp (hst.subset k) id
    consuming_kept := fun k hk ↦ hk
    sorted := hst.sorted
    sorted_consuming := id
    disjoint := by
      intro _ hd k hk
      obtain ⟨x, hx, rfl⟩ := List.mem_map.mp hk
      rcases hmem x hx with hx | ⟨hx, -⟩
      · exact hd _ (List.mem_map_of_mem hx)
      · exact hx
    le := hst.le
    advance := hst.advance.imp id fun ⟨y, hy, _, hadv⟩ ↦ ⟨y, hy, hadv⟩
    skipped := by
      intro y hy hlt hans
      by_cases hex : y.rowKey ∈ c.consumingRows
      · exact .inr hex
      · exact .inl (hst.skipped y hy hlt hex hans)
    order := by
      intro y hy hans
      by_cases hex : y.rowKey ∈ c.consumingRows
      · exact .inl (.inr hex)
      · refine (hst.order y hy hex hans).imp .inl fun hnew k hk ↦ ?_
        rcases hk with hk | hk
        · exact (hnew k hk).imp .inl id
        · exact .inl (.inr hk) }

/-- **What a round of `getEntries` does.** -/
theorem getEntries_fetched (config : ConsumerConfig) (t : Table) (tx : Transaction) (c : Consumer)
    (n : Nat) : Fetched config t tx c (getEntries config t tx c n).2 := by
  have h1 := fetchFromCache_fetched config t tx c n
  simp only [getEntries]
  split
  · exact (h1.trans (populateRowCache_fetched config t tx _ n)).trans
      (fetchFromCache_fetched config t tx _ n)
  · exact h1

variable {n : Nat}

/-- Looking into the cache moves entries about. -/
theorem fetchFromCache_keys {k : Row} (h : k ∈ (fetchFromCache c n).2.cachedRows ∨
    k ∈ (fetchFromCache c n).2.consumingRows) : k ∈ c.cachedRows ∨ k ∈ c.consumingRows := by
  rw [fetchFromCache] at h
  split at h
  · exact h
  · rcases hl : fetchLoop n c.entryCache c.consumingEntries with ⟨cache, entries⟩
    rw [hl] at h
    exact (fetchLoop_keys hl k).mp h

theorem fetchFromCache_fst : (fetchFromCache c n).1 = false ↔ c.entryCache = [] := by
  rw [fetchFromCache]
  split
  · rename_i h
    simpa using h
  · rename_i h
    simpa using h

theorem fetchFromCache_eq_self (h : c.entryCache = []) : (fetchFromCache c n).2 = c := by
  simp [fetchFromCache, h]

/-- **A round that brings nothing** found nothing in the cache, and nothing in the table that is
not being consumed already. -/
theorem getEntries_eq_false (hlt : c.consumingEntries.length < n)
    (h : (getEntries config t tx c n).1 = false) :
    (getEntries config t tx c n).2.entryCache = [] ∧
      (getEntries config t tx c n).2.consumingEntries = c.consumingEntries ∧ c.entryCache = [] ∧
      ∀ y ∈ getScanner config t tx c.scanStart, answer config tx y = .yes →
        y.rowKey ∈ c.consumingRows := by
  obtain ⟨st, hst, heq⟩ := populateRowCache_populated config t tx c n
  have hc : c.entryCache = [] := by
    rw [← fetchFromCache_fst]
    simp only [getEntries] at h
    split at h
    · exact (Bool.or_eq_false_iff.mp h).2
    · exact h
  have hfst : (fetchFromCache c n).1 = false := fetchFromCache_fst.mpr hc
  have hself : (fetchFromCache c n).2 = c := fetchFromCache_eq_self hc
  simp only [getEntries, hself, hlt, if_true, hfst, Bool.or_false, heq] at h ⊢
  have hempty : st.entryCache = [] := fetchFromCache_fst.mp h
  rw [fetchFromCache_eq_self hempty]
  refine ⟨hempty, rfl, hc, fun y hy hans ↦ ?_⟩
  by_contra hex
  have hlt0 : (st.entryCache.length : Int) < numRows n := by
    rw [hempty, numRows, minFetchRows, List.length_nil]
    omega
  have := hst.all hlt0 y hy hex hans
  simp [hempty] at this

theorem fetchFromCache_length (hle : c.consumingEntries.length ≤ n) :
    (fetchFromCache c n).2.consumingEntries.length ≤ n := by
  rw [fetchFromCache]
  split
  · exact hle
  · rcases hl : fetchLoop n c.entryCache c.consumingEntries with ⟨cache, entries⟩
    exact fetchLoop_length hl hle

/-- No more entries are fetched than were asked for. -/
theorem getEntries_length (hle : c.consumingEntries.length ≤ n) :
    (getEntries config t tx c n).2.consumingEntries.length ≤ n := by
  simp only [getEntries]
  split
  · obtain ⟨st, -, heq⟩ := populateRowCache_populated config t tx (fetchFromCache c n).2 n
    refine fetchFromCache_length ?_
    rw [heq]
    exact fetchFromCache_length hle
  · exact fetchFromCache_length hle

/-- A cache with something in it yields an entry. -/
theorem fetchFromCache_eq_true (hlt : c.consumingEntries.length < n)
    (h : (fetchFromCache c n).1 = true) :
    ∃ k ∈ c.cachedRows, k ∈ (fetchFromCache c n).2.consumingRows := by
  have hne : c.entryCache ≠ [] := fun hnil ↦ by
    rw [fetchFromCache_fst.mpr hnil] at h
    exact absurd h (by simp)
  obtain ⟨e, cache, he⟩ := List.exists_cons_of_ne_nil hne
  rcases hl : fetchLoop n (e :: cache) c.consumingEntries with ⟨cache', entries⟩
  refine ⟨e.rowKey, ?_, ?_⟩
  · rw [cachedRows, he]
    exact List.mem_cons_self
  · simp only [fetchFromCache, he, List.isEmpty_cons, Bool.false_eq_true, if_false, hl]
    exact fetchLoop_mem_first hl hlt

/-- **A round that brings something** brings an entry that was not being consumed. -/
theorem getEntries_eq_true (hlt : c.consumingEntries.length < n)
    (hd : ∀ k ∈ c.cachedRows, k ∉ c.consumingRows) (h : (getEntries config t tx c n).1 = true) :
    ∃ k ∈ (getEntries config t tx c n).2.consumingRows, k ∉ c.consumingRows := by
  by_cases hfirst : (fetchFromCache c n).1 = true
  · -- the entry comes out of the cache, and stays
    obtain ⟨k, hk, hk'⟩ := fetchFromCache_eq_true hlt hfirst
    refine ⟨k, ?_, hd k hk⟩
    simp only [getEntries]
    split
    · exact (fetchFromCache_fetched config t tx _ n).consuming_kept k
        ((populateRowCache_fetched config t tx _ n).consuming_kept k hk')
    · exact hk'
  · have hfirst : (fetchFromCache c n).1 = false := by simpa using hfirst
    have hnil : c.entryCache = [] := fetchFromCache_fst.mp hfirst
    have hself : (fetchFromCache c n).2 = c := fetchFromCache_eq_self hnil
    simp only [getEntries, hself, hlt, if_true, hfirst, Bool.or_false] at h ⊢
    have hp := populateRowCache_fetched config t tx c n
    obtain ⟨st, -, heq⟩ := populateRowCache_populated config t tx c n
    have hcons : (populateRowCache config t tx c n).consumingEntries = c.consumingEntries := by
      rw [heq]
    obtain ⟨k, hk, hk'⟩ := fetchFromCache_eq_true (hcons ▸ hlt) h
    refine ⟨k, hk', ?_⟩
    have := hp.disjoint (by rw [hnil]; exact List.Pairwise.nil) hd k hk
    rwa [consumingRows, hcons] at this

theorem fetchFromCache_order (hs : Sorted rowKey c.entryCache) {k k' : Row}
    (hk : k ∈ (fetchFromCache c n).2.cachedRows) (hk' : k' ∈ (fetchFromCache c n).2.consumingRows) :
    k' ∈ c.consumingRows ∨ k' < k := by
  rw [fetchFromCache] at hk hk'
  split at hk
  · rename_i hnil
    rw [if_pos hnil] at hk'
    exact .inl hk'
  · rename_i hnil
    rw [if_neg hnil] at hk'
    rcases hl : fetchLoop n c.entryCache c.consumingEntries with ⟨cache, entries⟩
    rw [hl] at hk hk'
    exact fetchLoop_order hl hs hk hk'

/-- **Entries are taken in key order**: an entry is taken before a smaller one only if it was
cached, and the smaller one was not. -/
theorem getEntries_order (hs : Sorted rowKey c.entryCache)
    (hd : ∀ k ∈ c.cachedRows, k ∉ c.consumingRows) {k k' : Row} (hlt : k < k')
    (hk : k ∈ (getEntries config t tx c n).2.cachedRows)
    (hk' : k' ∈ (getEntries config t tx c n).2.consumingRows) :
    k' ∈ c.consumingRows ∨ (k ∉ c.cachedRows ∧ k' ∈ c.cachedRows) := by
  have hdisj := (getEntries_fetched config t tx c n).disjoint hs hd k hk
  have h1 := fetchFromCache_fetched config t tx c n
  simp only [getEntries] at hk hk' hdisj
  -- what the first look into the cache took, it took before what it left there
  have hfirst : k' ∈ (fetchFromCache c n).2.consumingRows →
      k ∉ (fetchFromCache c n).2.consumingRows →
      k' ∈ c.consumingRows ∨ (k ∉ c.cachedRows ∧ k' ∈ c.cachedRows) := by
    intro hk' hnot
    by_cases hold : k' ∈ c.consumingRows
    · exact .inl hold
    · refine .inr ⟨fun hc ↦ ?_, ?_⟩
      · have hk := (h1.kept k (.inl hc)).resolve_right hnot
        rcases fetchFromCache_order hs hk hk' with h | h
        · exact hold h
        · exact absurd hlt (not_lt.mpr h.le)
      · have := fetchFromCache_keys (n := n) (c := c) (.inr hk')
        exact this.resolve_right hold
  split at hk
  · rename_i hroom
    rw [if_pos hroom] at hk' hdisj
    have h2 := populateRowCache_fetched config t tx (fetchFromCache c n).2 n
    obtain ⟨st, -, heq⟩ := populateRowCache_populated config t tx (fetchFromCache c n).2 n
    rcases fetchFromCache_order (h2.sorted (h1.sorted hs)) hk hk' with h | h
    · have hcons : (populateRowCache config t tx (fetchFromCache c n).2 n).consumingRows =
          (fetchFromCache c n).2.consumingRows := by rw [heq]; rfl
      rw [hcons] at h
      refine hfirst h fun h ↦ hdisj ?_
      exact (fetchFromCache_fetched config t tx _ n).consuming_kept k (h2.consuming_kept k h)
    · exact absurd hlt (not_lt.mpr h.le)
  · rename_i hroom
    rw [if_neg hroom] at hk' hdisj
    exact hfirst hk' hdisj

end Consumer
end Tigon
