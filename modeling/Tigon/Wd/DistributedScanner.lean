import Tigon.Lib.KWayMerge
import Tigon.Wd.RowKeyDistributor

/-!
# Scanning distributed rows

`DistributedScanner` reads all buckets of a table at once: it keeps the rows that it has fetched
from each bucket, and returns one whose original key is least.

Without a stop key, the interval of a bucket ends where the next bucket begins, and that of the last
bucket does not end.  So it has every row with the prefix of no bucket as well.

A row is a row key here; the scanner looks at nothing else of it.

## What is here

* `Distributor.getDistributedIntervals`, `DistributedScanner` — the scan of a table.
* `scansRight_iff` — **when a scan returns the rows with original keys in an interval**, in order.
-/

set_option autoImplicit false

namespace Tigon.Wd

open KWayMerge List

abbrev RowKey := List UInt8

/-- The rows of a table are in the order of their keys. -/
structure Table where
  rows : List RowKey
  sorted : rows.Pairwise (· < ·)

/-- An empty stop key is no stop key. -/
def inInterval (start stop key : RowKey) : Bool :=
  decide (start ≤ key) && (stop.isEmpty || decide (key < stop))

/-- What the scanner of an interval returns. -/
def Table.scan (t : Table) (interval : RowKey × RowKey) : List RowKey :=
  t.rows.filter (inInterval interval.1 interval.2)

/-! ## Intervals -/

/-- `Arrays.sort` with `Bytes.BYTES_RAWCOMPARATOR`. -/
def sortKeys (keys : List RowKey) : List RowKey := keys.mergeSort fun a b ↦ decide (a ≤ b)

def Distributor.getDistributedIntervals (d : Distributor)
    (originalStartKey originalStopKey : RowKey) : List (RowKey × RowKey) :=
  if originalStopKey = [] then
    -- stop keys are the start key of the next interval
    (sortKeys (d.getAllDistributedKeys originalStartKey)).zip
      ((sortKeys (d.getAllDistributedKeys [])).tail ++ [[]])
  else (d.getAllDistributedKeys originalStartKey).zip (d.getAllDistributedKeys originalStopKey)

/-! ## The scanner -/

/-- What the scanner of a bucket has yet to return, and the rows that it returned already; none if
it is exhausted. -/
structure Bucket where
  scanner : List RowKey
  nextOfScanner : Option (List RowKey)

structure DistributedScanner where
  keyDistributor : Distributor
  caching : Nat
  buckets : List Bucket
  next : Option RowKey

/-- Advancing a scanner if needed. -/
def Bucket.advance (caching : Nat) (b : Bucket) : Bucket :=
  match b.nextOfScanner with
  | some [] =>
    { scanner := b.scanner.drop caching
      nextOfScanner := if (b.scanner.take caching).isEmpty then none
        else some (b.scanner.take caching) }
  | _ => b

def Bucket.removeFirst (b : Bucket) : Bucket :=
  { b with nextOfScanner := b.nextOfScanner.map tail }

namespace DistributedScanner

/-- One iteration of the loop that looks for the row to return. -/
def candidate (d : Distributor) (result : Option (RowKey × Nat)) (b : Bucket × Nat) :
    Option (RowKey × Nat) :=
  match b.1.nextOfScanner with
  | some (row :: _) =>
    match result with
    | none => some (row, b.2)
    | some (best, i) =>
      if d.getOriginalKey row < d.getOriginalKey best then some (row, b.2) else some (best, i)
  | _ => result

def nextInternal (s : DistributedScanner) : Option RowKey × DistributedScanner :=
  let buckets := s.buckets.map (Bucket.advance s.caching)
  match buckets.zipIdx.foldl (candidate s.keyDistributor) none with
  | none => (none, { s with buckets := buckets })
  | some (row, i) => (some row, { s with buckets := buckets.modify i Bucket.removeFirst })

def hasNext (s : DistributedScanner) : Bool × DistributedScanner :=
  match s.next with
  | some _ => (true, s)
  | none => (s.nextInternal.1.isSome, { s.nextInternal.2 with next := s.nextInternal.1 })

/-- `next()`. -/
def nextRow (s : DistributedScanner) : Option RowKey × DistributedScanner :=
  if s.hasNext.1 then (s.hasNext.2.next, { s.hasNext.2 with next := none }) else (none, s.hasNext.2)

/-- `next(nbRows)`. -/
def nextRows : Nat → DistributedScanner → List RowKey × DistributedScanner
  | 0, s => ([], s)
  | nbRows + 1, s =>
    match s.nextRow with
    | (some row, s') => (row :: (nextRows nbRows s').1, (nextRows nbRows s').2)
    | (none, s') => ([], s')

/-- The number of rows to fetch at once is that of the scan, or else the configured one. -/
def create (t : Table) (d : Distributor) (start stop : RowKey) (scanCaching configured : Int) :
    DistributedScanner where
  keyDistributor := d
  caching := (if scanCaching < 1 then configured else scanCaching).toNat
  buckets := (d.getDistributedIntervals start stop).map fun interval ↦ ⟨t.scan interval, some []⟩
  next := none

/-- A call of the client. -/
inductive Call
  | next
  | nextRows (nbRows : Nat)

/-- The answer to a call; that of `next()` has no row if it is null. -/
def call (s : DistributedScanner) : Call → List RowKey × DistributedScanner
  | .next => (s.nextRow.1.toList, s.nextRow.2)
  | .nextRows nbRows => s.nextRows nbRows

def calls (s : DistributedScanner) : List Call → List (List RowKey)
  | [] => []
  | c :: cs => (s.call c).1 :: calls (s.call c).2 cs

def Call.size : Call → Nat
  | .next => 1
  | .nextRows nbRows => nbRows

/-- The answers of a scanner that has the rows `out` to return. -/
def answers (out : List RowKey) : List Call → List (List RowKey)
  | [] => []
  | c :: cs => out.take c.size :: answers (out.drop c.size) cs

/-! ## One row -/

section Step

variable {d : Distributor} {s : DistributedScanner}

/-- The rows that a bucket has still to give. -/
def contents (s : DistributedScanner) : List (List RowKey) :=
  s.buckets.map fun b ↦ b.nextOfScanner.getD [] ++ b.scanner

/-- What holds between two calls. -/
structure Inv (s : DistributedScanner) : Prop where
  caching : 1 ≤ s.caching
  next : s.next = none
  exhausted : ∀ b ∈ s.buckets, b.nextOfScanner = none → b.scanner = []

/-- A bucket that has been advanced has a row, or has none left. -/
theorem advance_cases {caching : Nat} (hc : 1 ≤ caching) {b : Bucket}
    (hb : b.nextOfScanner = none → b.scanner = []) :
    ((b.advance caching).nextOfScanner = none ∧ (b.advance caching).scanner = [] ∧
        b.nextOfScanner.getD [] ++ b.scanner = []) ∨
      ∃ row rows, (b.advance caching).nextOfScanner = some (row :: rows) ∧
        b.nextOfScanner.getD [] ++ b.scanner = row :: rows ++ (b.advance caching).scanner := by
  rw [Bucket.advance]
  cases h : b.nextOfScanner with
  | none => exact .inl ⟨h, hb h, by rw [hb h]; rfl⟩
  | some rows =>
    cases rows with
    | cons row rows => exact .inr ⟨row, rows, h, rfl⟩
    | nil =>
      cases hs : b.scanner with
      | nil => exact .inl (by simp)
      | cons row rest =>
        obtain ⟨n, rfl⟩ : ∃ n, caching = n + 1 := ⟨caching - 1, by omega⟩
        refine .inr ⟨row, rest.take n, by simp, ?_⟩
        simp only [Option.getD_some, nil_append, drop_succ_cons, cons_append,
          take_append_drop]

/-- What the loop has found in the buckets `bs`. -/
def Found (d : Distributor) (bs : List Bucket) : Option (RowKey × Nat) → Prop
  | none => ∀ b ∈ bs, ∀ row rows, b.nextOfScanner ≠ some (row :: rows)
  | some (row, i) => (∃ b rows, bs[i]? = some b ∧ b.nextOfScanner = some (row :: rows)) ∧
      ∀ b ∈ bs, ∀ row' rows, b.nextOfScanner = some (row' :: rows) →
        d.getOriginalKey row ≤ d.getOriginalKey row'

theorem found_candidate {bs : List Bucket} {result : Option (RowKey × Nat)} (h : Found d bs result)
    (b : Bucket) : Found d (bs ++ [b]) (candidate d result (b, bs.length)) := by
  have hmem : ∀ {P : Bucket → Prop}, (∀ b' ∈ bs, P b') → P b → ∀ b' ∈ bs ++ [b], P b' := by
    intro P hbs hb b' hb'
    rcases mem_append.mp hb' with hb' | hb'
    · exact hbs b' hb'
    · rwa [mem_singleton.mp hb']
  have hlast : (bs ++ [b])[bs.length]? = some b := getElem?_concat_length
  have hkeep : ∀ {i b'}, bs[i]? = some b' → (bs ++ [b])[i]? = some b' := fun {i b'} hi ↦ by
    rw [getElem?_append_left (getElem?_eq_some_iff.mp hi).1, hi]
  rw [candidate]
  split
  · -- the bucket has a row
    rename_i row rows hrow
    have hown : ∀ row' rows', b.nextOfScanner = some (row' :: rows') → row' = row := by
      intro row' rows' h'
      rw [hrow, Option.some.injEq, cons.injEq] at h'
      exact h'.1.symm
    cases result with
    | none =>
      refine ⟨⟨b, rows, hlast, hrow⟩, hmem (fun b' hb' row' rows' h' ↦ ?_) fun row' rows' h' ↦ ?_⟩
      · exact absurd h' (h b' hb' row' rows')
      · rw [hown row' rows' h']
    | some p =>
      obtain ⟨best, i⟩ := p
      obtain ⟨⟨b', rows', hi, hb'⟩, hbest⟩ := h
      simp only
      split
      · rename_i hlt
        refine ⟨⟨b, rows, hlast, hrow⟩, hmem (fun c hc row' rows' h' ↦ ?_) fun row' rows' h' ↦ ?_⟩
        · exact hlt.le.trans (hbest c hc row' rows' h')
        · rw [hown row' rows' h']
      · rename_i hnlt
        refine ⟨⟨b', rows', hkeep hi, hb'⟩, hmem hbest fun row' rows' h' ↦ ?_⟩
        rw [hown row' rows' h']
        exact not_lt.mp hnlt
  · -- it has none
    rename_i hno
    have hnone : ∀ row rows, b.nextOfScanner ≠ some (row :: rows) :=
      fun row rows h' ↦ hno row rows h'
    cases result with
    | none => exact hmem h hnone
    | some p =>
      obtain ⟨best, i⟩ := p
      obtain ⟨⟨b', rows', hi, hb'⟩, hbest⟩ := h
      exact ⟨⟨b', rows', hkeep hi, hb'⟩, hmem hbest fun row' rows' h' ↦
        absurd h' (hnone row' rows')⟩

/-- **The loop** finds a least row. -/
theorem found_foldl (d : Distributor) (bs : List Bucket) :
    Found d bs (bs.zipIdx.foldl (candidate d) none) := by
  induction bs using reverseRecOn with
  | nil => exact fun b hb ↦ by cases hb
  | append_singleton bs b ih =>
    rw [zipIdx_append, foldl_append]
    simpa using found_candidate ih b

theorem nextRow_eq (h : s.next = none) :
    s.nextRow = (s.nextInternal.1, { s.nextInternal.2 with next := none }) := by
  have hnext : s.nextInternal.2.next = none := by
    rw [nextInternal]
    split <;> exact h
  rw [nextRow, hasNext, h]
  simp only
  cases hr : s.nextInternal.1 with
  | none =>
    rw [Option.isSome_none, if_neg (by decide)]
  | some row =>
    rw [Option.isSome_some, if_pos rfl]

theorem keyDistributor_nextRow (h : s.next = none) : s.nextRow.2.keyDistributor =
    s.keyDistributor := by
  rw [nextRow_eq h, nextInternal]
  simp only
  split <;> rfl

/-- The buckets after they have been advanced. -/
theorem advanced (hs : s.Inv) {b : Bucket} (hb : b ∈ s.buckets.map (Bucket.advance s.caching)) :
    (b.nextOfScanner = none ∧ b.scanner = []) ∨ ∃ row rows, b.nextOfScanner =
      some (row :: rows) := by
  obtain ⟨b', hb', rfl⟩ := mem_map.mp hb
  rcases advance_cases hs.caching (hs.exhausted b' hb') with ⟨h1, h2, -⟩ | ⟨row, rows, h1, -⟩
  · exact .inl ⟨h1, h2⟩
  · exact .inr ⟨row, rows, h1⟩

theorem contents_advance (hs : s.Inv) : s.contents =
    (s.buckets.map (Bucket.advance s.caching)).map fun b ↦ b.nextOfScanner.getD [] ++
      b.scanner := by
  rw [contents, map_map]
  refine map_congr_left fun b hb ↦ ?_
  rcases advance_cases hs.caching (hs.exhausted b hb) with ⟨h1, h2, h3⟩ | ⟨row, rows, h1, h2⟩
  · rw [h3, Function.comp_apply, h1, h2]
    rfl
  · rw [h2, Function.comp_apply, h1]
    rfl

/-- Nothing is returned only if all buckets are exhausted. -/
theorem contents_of_nextRow_none (hs : s.Inv) (h : s.nextRow.1 = none) : ∀ l ∈ s.contents,
    l = [] := by
  have hfound := found_foldl s.keyDistributor (s.buckets.map (Bucket.advance s.caching))
  rw [nextRow_eq hs.next, nextInternal] at h
  simp only at h
  split at h
  · rename_i hnone
    rw [hnone] at hfound
    rw [contents_advance hs]
    intro l hl
    obtain ⟨b, hb, rfl⟩ := mem_map.mp hl
    rcases advanced hs hb with ⟨h1, h2⟩ | ⟨row, rows, hrow⟩
    · rw [h1, h2]
      rfl
    · exact absurd hrow (hfound b hb row rows)
  · cases h

theorem modify_eq_set {α : Type} {l : List α} {i : Nat} {a : α} (h : l[i]? = some a) (f : α → α) :
    l.modify i f = l.set i (f a) := by
  obtain ⟨hlt, rfl⟩ := List.getElem?_eq_some_iff.mp h
  refine ext_getElem? fun j ↦ ?_
  rw [getElem?_modify, getElem?_set]
  by_cases hij : i = j
  · subst hij
    simp [hlt]
  · simp [hij]

/-- **A row that is returned** is least, and is taken out of its bucket. -/
theorem nextRow_some (hs : s.Inv) {row : RowKey} (h : s.nextRow.1 = some row) : s.nextRow.2.Inv ∧
    ∃ i l, IsLeast s.keyDistributor.getOriginalKey s.contents i row l ∧
      s.nextRow.2.contents = s.contents.set i l := by
  have hfound := found_foldl s.keyDistributor (s.buckets.map (Bucket.advance s.caching))
  have hcontents := contents_advance hs
  have hadv := fun b hb ↦ advanced hs (b := b) hb
  rw [nextRow_eq hs.next, nextInternal] at h ⊢
  generalize s.buckets.map (Bucket.advance s.caching) = bs at hfound hcontents hadv h ⊢
  simp only at h ⊢
  generalize bs.zipIdx.foldl (candidate s.keyDistributor) none = result at hfound h ⊢
  cases result with
  | none => cases h
  | some p =>
    obtain ⟨row', i⟩ := p
    obtain rfl : row' = row := Option.some.inj h
    obtain ⟨⟨b, rows, hi, hb⟩, hleast⟩ := hfound
    simp only [modify_eq_set hi]
    refine ⟨⟨hs.caching, rfl, fun b' hb' hnone ↦ ?_⟩, i, rows ++ b.scanner,
      ⟨?_, fun c k hck ↦ ?_⟩, ?_⟩
    · replace hb' : b' ∈ bs.set i b.removeFirst := hb'
      rcases (mem_or_eq_of_mem_set hb').symm with rfl | hb'
      · rw [Bucket.removeFirst, hb] at hnone
        cases hnone
      · rcases hadv b' hb' with ⟨-, h2⟩ | ⟨row, rows, h1⟩
        · exact h2
        · rw [h1] at hnone
          cases hnone
    · rw [hcontents, getElem?_map, hi, Option.map_some, hb]
      rfl
    · rw [hcontents] at hck
      obtain ⟨b', hb', heq⟩ := mem_map.mp hck
      rcases hadv b' hb' with ⟨h1, h2⟩ | ⟨row, rows, h1⟩
      · rw [h1, h2] at heq
        cases heq
      · rw [h1, Option.getD_some, cons_append, cons.injEq] at heq
        obtain rfl := heq.1
        exact hleast b' hb' _ _ h1
    · rw [hcontents, contents, map_set, Bucket.removeFirst, hb]
      rfl

end Step

/-! ## Calls -/

section Calls

variable {s : DistributedScanner} {out : List RowKey}

theorem inv_nextRow_none (hs : s.Inv) (h : s.nextRow.1 = none) :
    s.nextRow.2.Inv ∧ ∀ l ∈ s.nextRow.2.contents, l = [] := by
  have hfound := found_foldl s.keyDistributor (s.buckets.map (Bucket.advance s.caching))
  have hadv := fun b hb ↦ advanced hs (b := b) hb
  rw [nextRow_eq hs.next, nextInternal] at h ⊢
  generalize s.buckets.map (Bucket.advance s.caching) = bs at hfound hadv h ⊢
  simp only at h ⊢
  generalize bs.zipIdx.foldl (candidate s.keyDistributor) none = result at hfound h ⊢
  cases result with
  | some p => cases h
  | none =>
    have hempty : ∀ b ∈ bs, b.nextOfScanner = none ∧ b.scanner = [] := by
      intro b hb
      rcases hadv b hb with h | ⟨row, rows, hrow⟩
      · exact h
      · exact absurd hrow (hfound b hb row rows)
    refine ⟨⟨hs.caching, rfl, fun b hb _ ↦ (hempty b hb).2⟩, fun l hl ↦ ?_⟩
    obtain ⟨b, hb, rfl⟩ := mem_map.mp hl
    rw [(hempty b hb).1, (hempty b hb).2]
    rfl

/-- A scanner that has nothing left returns nothing. -/
theorem nextRow_of_contents (hs : s.Inv) (h : ∀ l ∈ s.contents, l = []) : s.nextRow.1 = none := by
  cases hr : s.nextRow.1 with
  | none => rfl
  | some row =>
    obtain ⟨-, i, l, hleast, -⟩ := nextRow_some hs hr
    cases h _ (mem_of_getElem? hleast.1)

/-- **All answers** are pieces of one list of rows. -/
theorem calls_eq (hs : s.Inv) (hout : Delivers nextRow s out) (cs : List Call) :
    s.calls cs = answers out cs := by
  -- the state after some rows, where the rest is delivered
  have hrows : ∀ (n : Nat) {s : DistributedScanner} {out : List RowKey}, s.Inv →
      Delivers nextRow s out → (s.nextRows n).1 = out.take n ∧ (s.nextRows n).2.Inv ∧
        Delivers nextRow (s.nextRows n).2 (out.drop n) := by
    intro n
    induction n with
    | zero => exact fun hs hout ↦ ⟨rfl, hs, hout⟩
    | succ n ih =>
      intro s out hs hout
      cases out with
      | nil =>
        have hnone : s.nextRow.1 = none := hout
        obtain ⟨hinv, hempty⟩ := inv_nextRow_none hs hnone
        have hr : s.nextRow = (none, s.nextRow.2) := Prod.ext hnone rfl
        rw [nextRows, hr]
        exact ⟨rfl, hinv, nextRow_of_contents hinv hempty⟩
      | cons row out =>
        obtain ⟨hsome, hout⟩ := hout
        obtain ⟨h1, h2, h3⟩ := ih (nextRow_some hs hsome).1 hout
        have hr : s.nextRow = (some row, s.nextRow.2) := Prod.ext hsome rfl
        rw [nextRows, hr]
        exact ⟨by rw [take_succ_cons, ← h1], h2, h3⟩
  have hcall : ∀ (c : Call) {s : DistributedScanner} {out : List RowKey}, s.Inv →
      Delivers nextRow s out → (s.call c).1 = out.take c.size ∧ (s.call c).2.Inv ∧
        Delivers nextRow (s.call c).2 (out.drop c.size) := by
    intro c s out hs hout
    cases c with
    | nextRows n => exact hrows n hs hout
    | next =>
      cases out with
      | nil =>
        have hnone : s.nextRow.1 = none := hout
        obtain ⟨hinv, hempty⟩ := inv_nextRow_none hs hnone
        rw [call, hnone]
        exact ⟨rfl, hinv, nextRow_of_contents hinv hempty⟩
      | cons row out =>
        obtain ⟨hsome, hout⟩ := hout
        rw [call, hsome]
        exact ⟨rfl, (nextRow_some hs hsome).1, hout⟩
  induction cs generalizing s out with
  | nil => rfl
  | cons c cs ih =>
    obtain ⟨h1, h2, h3⟩ := hcall c hs hout
    rw [calls, answers, h1, ih h2 h3]

end Calls

/-- **A scanner merges its buckets.** -/
theorem exists_out {s : DistributedScanner} (hs : s.Inv) :
    ∃ out, Merges s.keyDistributor.getOriginalKey s.contents out ∧ Delivers nextRow s out := by
  refine exists_merges (P := fun s' : DistributedScanner ↦ s'.Inv ∧ s'.keyDistributor =
    s.keyDistributor) (fun s' hs' ↦ contents_of_nextRow_none hs'.1)
      (fun s' row hs' hrow ↦ ?_) s ⟨hs, rfl⟩
  obtain ⟨hinv, i, l, hleast, hcontents⟩ := nextRow_some hs'.1 hrow
  exact ⟨⟨hinv, (keyDistributor_nextRow hs'.1.next).trans hs'.2⟩, i, l, hs'.2 ▸ hleast, hcontents⟩

end DistributedScanner

/-! ## The intervals of the buckets -/

section Intervals

variable {d : Distributor} {start stop : RowKey}

theorem toByte_lt_toByte_iff {i j : Nat} (hi : i < 256) (hj : j < 256) :
    toByte i < toByte j ↔ i < j := by
  rw [UInt8.lt_iff_toNat_lt, toByte_toNat_of_lt hi, toByte_toNat_of_lt hj]

/-- The keys of a row in all buckets are in order. -/
theorem sortKeys_getAllDistributedKeys (d : Distributor) (key : RowKey) :
    sortKeys (d.getAllDistributedKeys key) = d.getAllDistributedKeys key := by
  have hle := buckets_le d
  refine mergeSort_of_pairwise ?_
  rw [getAllDistributedKeys_eq, pairwise_map]
  refine pairwise_lt_range.imp_of_mem fun {i j} hi hj hij ↦ ?_
  rw [mem_range] at hi hj
  rw [decide_eq_true_eq]
  refine le_of_lt (cons_lt_cons_iff.mpr (.inl ?_))
  rwa [toByte_lt_toByte_iff (by omega) (by omega)]

/-- The stop key of a bucket: without one for the scan, the next prefix. -/
def stopOf (d : Distributor) (stop : RowKey) (i : Nat) : RowKey :=
  if stop = [] then if i + 1 < d.buckets then [toByte (i + 1 : Nat)] else [] else toByte i :: stop

theorem tail_map_range (g : Nat → RowKey) {n : Nat} (hn : 0 < n) :
    ((range n).map g).tail ++ [[]] = (range n).map fun i ↦ if i + 1 < n then g (i + 1)
      else [] := by
  obtain ⟨m, rfl⟩ : ∃ m, n = m + 1 := ⟨n - 1, by omega⟩
  have htail : ((range (m + 1)).map g).tail = (range m).map fun i ↦ g (i + 1) := by
    rw [List.range_succ_eq_map, List.map_cons, List.tail_cons, List.map_map]
    rfl
  rw [htail, range_succ, map_append, map_singleton, if_neg (by omega)]
  refine congrArg (· ++ [[]]) (map_congr_left fun i hi ↦ ?_)
  rw [mem_range] at hi
  rw [if_pos (by omega)]

theorem getDistributedIntervals_eq (d : Distributor) (start stop : RowKey) :
    d.getDistributedIntervals start stop =
      (range d.buckets).map fun i : Nat ↦ (toByte i :: start, stopOf d stop i) := by
  rw [Distributor.getDistributedIntervals, sortKeys_getAllDistributedKeys,
    sortKeys_getAllDistributedKeys, getAllDistributedKeys_eq, getAllDistributedKeys_eq,
    getAllDistributedKeys_eq]
  by_cases hstop : stop = []
  · rw [if_pos hstop, tail_map_range _ (buckets_pos d), zip_map']
    simp only [stopOf, if_pos hstop]
  · rw [if_neg hstop, zip_map']
    simp only [stopOf, if_neg hstop]

/-- The first byte of a stored row. -/
def firstByte (row : RowKey) : Nat := row.headI.toNat

/-- The row has the prefix of no bucket. -/
def Stray (d : Distributor) (row : RowKey) : Prop := d.buckets ≤ firstByte row

instance (d : Distributor) (row : RowKey) : Decidable (Stray d row) :=
  inferInstanceAs (Decidable (d.buckets ≤ firstByte row))

theorem cons_lt_cons_toByte {b : UInt8} {i : Nat} (hi : i < 256) {k l : RowKey} :
    b :: k < toByte i :: l ↔ b.toNat < i ∨ b.toNat = i ∧ k < l := by
  rw [cons_lt_cons_iff, UInt8.lt_iff_toNat_lt, ← UInt8.toNat_inj, toByte_toNat_of_lt hi]

theorem toByte_cons_le {b : UInt8} {i : Nat} (hi : i < 256) {k l : RowKey} :
    toByte i :: l ≤ b :: k ↔ i < b.toNat ∨ b.toNat = i ∧ l ≤ k := by
  rw [cons_le_cons_iff, UInt8.lt_iff_toNat_lt, ← UInt8.toNat_inj, toByte_toNat_of_lt hi]
  exact or_congr_right (and_congr_left' eq_comm)

/-- **The rows of a bucket**: those with its prefix and an original key in the interval, and in the
last bucket of a scan without a stop key those with the prefix of no bucket as well. -/
theorem inInterval_bucket_iff {i : Nat} (hi : i < d.buckets) {b : UInt8} {key : RowKey} :
    inInterval (toByte i :: start) (stopOf d stop i) (b :: key) = true ↔
      (b.toNat = i ∧ inInterval start stop key = true) ∨
        (stop = [] ∧ i + 1 = d.buckets ∧ Stray d (b :: key)) := by
  have hle := buckets_le d
  have hb := b.toNat_lt
  rw [inInterval, inInterval, Bool.and_eq_true, Bool.and_eq_true, decide_eq_true_eq,
    decide_eq_true_eq, Bool.or_eq_true, Bool.or_eq_true, decide_eq_true_eq, decide_eq_true_eq,
      List.isEmpty_iff,
    List.isEmpty_iff, toByte_cons_le (by omega), Stray, firstByte, List.headI_cons, stopOf]
  by_cases hstop : stop = []
  · subst hstop
    rw [if_pos rfl]
    by_cases hlast : i + 1 < d.buckets
    · rw [if_pos hlast, cons_lt_cons_toByte (by omega)]
      by_cases h : start ≤ key <;>
        simp only [h, List.not_lt_nil, and_false, or_false, List.cons_ne_nil, false_or,
          and_true] <;> omega
    · rw [if_neg hlast]
      by_cases h : start ≤ key <;> simp only [h, true_or, and_true, true_and, and_false, false_or,
        or_false] <;> omega
  · rw [if_neg hstop, cons_lt_cons_toByte (by omega)]
    by_cases h : start ≤ key <;> by_cases h' : key < stop <;>
      simp only [h, h', hstop, List.cons_ne_nil, false_or, false_and, or_false, and_true, and_false,
        iff_false] <;>
      omega

end Intervals

/-! ## The rows of a scan -/

section Rows

variable {d : Distributor} {t : Table} {start stop : RowKey} {scanCaching configured : Int}

/-- A prefix whose turn it is at some time. -/
def Turn (d : Distributor) (nextPrefix : Nat) : Prop :=
  ∃ keys : List RowKey, nextPrefix = keys.foldl (fun n key ↦ (d.getDistributedKey n key).2) 0

/-- The rows of the table are stored under their distributed keys. -/
def Stored (d : Distributor) (t : Table) : Prop :=
  ∀ row ∈ t.rows, ∃ n key, Turn d n ∧ row = (d.getDistributedKey n key).1

/-- Whatever the calls are, they give the rows with an original key in the interval, once each and
in the order of these keys. -/
def ScansRight (d : Distributor) (t : Table) (start stop : RowKey)
    (scanCaching configured : Int) : Prop :=
  ∃ out, out.Perm (t.rows.filter fun row ↦ inInterval start stop (d.getOriginalKey row)) ∧
    out.Pairwise (fun a b ↦ d.getOriginalKey a ≤ d.getOriginalKey b) ∧
    ∀ cs, (DistributedScanner.create t d start stop scanCaching configured).calls cs =
      DistributedScanner.answers out cs

/-- Rows with the prefix of no bucket do no harm.  A scan with a stop key does not find them.  One
without finds all of them, after the rows of the last bucket. -/
def StrayOk (d : Distributor) (t : Table) (start stop : RowKey) : Prop :=
  ∀ row ∈ t.rows, Stray d row →
    if stop = [] then
      start ≤ d.getOriginalKey row ∧ ∀ r ∈ t.rows, r < row →
        (Stray d r ∨ firstByte r + 1 = d.buckets ∧ start ≤ d.getOriginalKey r) →
          d.getOriginalKey r ≤ d.getOriginalKey row
    else inInterval start stop (d.getOriginalKey row) = false

theorem pairwise_iff_of_sorted {R : RowKey → RowKey → Prop} {l : List RowKey}
    (hl : l.Pairwise (· < ·)) : l.Pairwise R ↔ ∀ x ∈ l, ∀ y ∈ l, x < y → R x y := by
  induction l with
  | nil => exact iff_of_true .nil fun x hx ↦ by cases hx
  | cons a l ih =>
    rw [pairwise_cons] at hl
    rw [pairwise_cons, ih hl.2]
    constructor
    · rintro ⟨ha, hrest⟩ x hx y hy hxy
      rcases mem_cons.mp hx with rfl | hxl <;> rcases mem_cons.mp hy with rfl | hyl
      · exact absurd hxy (lt_irrefl _)
      · exact ha y hyl
      · exact absurd (hl.1 x hxl) (lt_asymm hxy)
      · exact hrest x hxl y hyl hxy
    · intro h
      exact ⟨fun y hy ↦ h a mem_cons_self y (mem_cons_of_mem _ hy) (hl.1 y hy),
        fun x hx y hy ↦ h x (mem_cons_of_mem _ hx) y (mem_cons_of_mem _ hy)⟩

theorem exists_cons_of_stored (ht : Stored d t) {row : RowKey} (hrow : row ∈ t.rows) :
    ∃ b key, row = b :: key := by
  obtain ⟨n, key, -, rfl⟩ := ht row hrow
  obtain ⟨b, hb⟩ := exists_getDistributedKey_eq d n key
  exact ⟨b, key, hb⟩

/-- The rows that the scanner of a bucket returns. -/
def bucketRows (d : Distributor) (t : Table) (start stop : RowKey) (i : Nat) : List RowKey :=
  t.scan (toByte i :: start, stopOf d stop i)

theorem mem_bucketRows_iff (ht : Stored d t) {i : Nat} (hi : i < d.buckets) {row : RowKey} :
    row ∈ bucketRows d t start stop i ↔ row ∈ t.rows ∧
      ((firstByte row = i ∧ inInterval start stop (d.getOriginalKey row) = true) ∨
        (stop = [] ∧ i + 1 = d.buckets ∧ Stray d row)) := by
  rw [bucketRows, Table.scan, mem_filter]
  refine and_congr_right fun hrow ↦ ?_
  obtain ⟨b, key, rfl⟩ := exists_cons_of_stored ht hrow
  rw [inInterval_bucket_iff hi, getOriginalKey_cons]
  rfl

theorem contents_create : (DistributedScanner.create t d start stop scanCaching
    configured).contents = (range d.buckets).map (bucketRows d t start stop) := by
  rw [DistributedScanner.contents, DistributedScanner.create, getDistributedIntervals_eq,
    map_map, map_map]
  rfl

theorem nodup_rows (t : Table) : t.rows.Nodup := t.sorted.imp ne_of_lt

theorem nodup_flatten (ht : Stored d t) :
    ((range d.buckets).map (bucketRows d t start stop)).flatten.Nodup := by
  rw [← flatMap_def, nodup_flatMap]
  refine ⟨fun i _ ↦ (nodup_rows t).filter _, nodup_range.imp_of_mem fun {i j} hi hj hij ↦ ?_⟩
  rw [mem_range] at hi hj
  intro row h1 h2
  rw [mem_bucketRows_iff ht hi, Stray] at h1
  rw [mem_bucketRows_iff ht hj, Stray] at h2
  omega

theorem mem_flatten_iff (ht : Stored d t) {row : RowKey} :
    row ∈ ((range d.buckets).map (bucketRows d t start stop)).flatten ↔ row ∈ t.rows ∧
      ((¬ Stray d row ∧ inInterval start stop (d.getOriginalKey row) = true) ∨
        (stop = [] ∧ Stray d row)) := by
  rw [← flatMap_def, mem_flatMap]
  have hpos := buckets_pos d
  constructor
  · rintro ⟨i, hi, hrow⟩
    rw [mem_range] at hi
    rw [mem_bucketRows_iff ht hi] at hrow
    obtain ⟨hrow, ⟨hfirst, hin⟩ | ⟨hstop, -, hstray⟩⟩ := hrow
    · exact ⟨hrow, .inl ⟨by rw [Stray]; omega, hin⟩⟩
    · exact ⟨hrow, .inr ⟨hstop, hstray⟩⟩
  · rintro ⟨hrow, ⟨hstray, hin⟩ | ⟨hstop, hstray⟩⟩
    · have hi : firstByte row < d.buckets := Nat.lt_of_not_le hstray
      exact ⟨firstByte row, mem_range.mpr hi,
        (mem_bucketRows_iff ht hi).mpr ⟨hrow, .inl ⟨rfl, hin⟩⟩⟩
    · have hi : d.buckets - 1 < d.buckets := by omega
      exact ⟨d.buckets - 1, mem_range.mpr hi,
        (mem_bucketRows_iff ht hi).mpr ⟨hrow, .inr ⟨hstop, by omega, hstray⟩⟩⟩

/-- The rows are right if and only if the stray ones are. -/
theorem perm_iff (ht : Stored d t) :
    ((range d.buckets).map (bucketRows d t start stop)).flatten.Perm
        (t.rows.filter fun row ↦ inInterval start stop (d.getOriginalKey row)) ↔
      ∀ row ∈ t.rows, Stray d row →
        (stop = [] ↔ inInterval start stop (d.getOriginalKey row) = true) := by
  rw [perm_ext_iff_of_nodup (nodup_flatten ht) ((nodup_rows t).filter _)]
  simp only [mem_flatten_iff ht, mem_filter]
  refine forall_congr' fun row ↦ ?_
  by_cases hrow : row ∈ t.rows <;> by_cases hstray : Stray d row <;> simp [hrow, hstray]

/-- The rows of a bucket are in order if and only if the stray ones are. -/
theorem sorted_iff (ht : Stored d t) :
    (∀ i < d.buckets, (bucketRows d t start stop i).Pairwise fun a b ↦
        d.getOriginalKey a ≤ d.getOriginalKey b) ↔
      (stop = [] → ∀ row ∈ t.rows, Stray d row → ∀ r ∈ t.rows, r < row →
        (Stray d r ∨ firstByte r + 1 = d.buckets ∧ start ≤ d.getOriginalKey r) →
          d.getOriginalKey r ≤ d.getOriginalKey row) := by
  have hpos := buckets_pos d
  have hbucket : ∀ i, (bucketRows d t start stop i).Pairwise (· < ·) := fun i ↦ t.sorted.filter _
  simp only [pairwise_iff_of_sorted (hbucket _)]
  constructor
  · intro h hstop row hrow hstray r hr hlt hcase
    have hi : d.buckets - 1 < d.buckets := by omega
    refine h (d.buckets - 1) hi r ?_ row ?_ hlt
    · rw [mem_bucketRows_iff ht hi]
      refine ⟨hr, ?_⟩
      rcases hcase with hr | ⟨hfirst, hle⟩
      · exact .inr ⟨hstop, by omega, hr⟩
      · refine .inl ⟨by omega, ?_⟩
        simp [inInterval, hstop, hle]
    · exact (mem_bucketRows_iff ht hi).mpr ⟨hrow, .inr ⟨hstop, by omega, hstray⟩⟩
  · intro h i hi x hx y hy hxy
    rw [mem_bucketRows_iff ht hi] at hx hy
    obtain ⟨hx, hxcase⟩ := hx
    obtain ⟨hy, hycase⟩ := hy
    rcases hycase with ⟨hfirst, hin⟩ | ⟨hstop, hlast, hstray⟩
    · -- both have the prefix of the bucket
      obtain ⟨b, key, rfl⟩ := exists_cons_of_stored ht hx
      obtain ⟨b', key', rfl⟩ := exists_cons_of_stored ht hy
      rw [cons_lt_cons_iff, UInt8.lt_iff_toNat_lt] at hxy
      rw [getOriginalKey_cons, getOriginalKey_cons]
      simp only [firstByte, headI_cons, Stray] at hfirst hxcase
      rcases hxy with hlt | ⟨-, hlt⟩
      · omega
      · exact hlt.le
    · refine h hstop y hy hstray x hx hxy ?_
      rcases hxcase with ⟨hfirst, hin⟩ | ⟨-, -, hstray'⟩
      · refine .inr ⟨by omega, ?_⟩
        rw [inInterval, Bool.and_eq_true, decide_eq_true_eq] at hin
        exact hin.1
      · exact .inl hstray'

theorem inv_create (t : Table) (d : Distributor) (start stop : RowKey)
    (hcaching : 1 ≤ if scanCaching < 1 then configured else scanCaching) :
    (DistributedScanner.create t d start stop scanCaching configured).Inv where
  caching := by
    show 1 ≤ (if scanCaching < 1 then configured else scanCaching).toNat
    omega
  next := rfl
  exhausted := by
    intro b hb hnone
    obtain ⟨interval, -, rfl⟩ := mem_map.mp hb
    cases hnone

/-- The rows that a scanner returns are determined by its answers. -/
theorem eq_of_answers {out out' : List RowKey}
    (h : ∀ cs, DistributedScanner.answers out cs = DistributedScanner.answers out' cs) :
      out = out' := by
  have hlen := h [.nextRows (max out.length out'.length)]
  simp only [DistributedScanner.answers, DistributedScanner.Call.size, cons.injEq, and_true]
    at hlen
  rwa [take_of_length_le (le_max_left _ _), take_of_length_le (le_max_right _ _)] at hlen

/-- **When a scan of distributed rows is right.** -/
theorem scansRight_iff (d : Distributor) (t : Table) (ht : Stored d t) (start stop : RowKey)
    (scanCaching configured : Int)
    (hcaching : 1 ≤ if scanCaching < 1 then configured else scanCaching) :
    ScansRight d t start stop scanCaching configured ↔ StrayOk d t start stop := by
  have hinv := inv_create t d start stop hcaching
  obtain ⟨out, hmerges, hdelivers⟩ := DistributedScanner.exists_out hinv
  have hcalls := DistributedScanner.calls_eq hinv hdelivers
  rw [contents_create] at hmerges
  have hright : ScansRight d t start stop scanCaching configured ↔
      out.Perm (t.rows.filter fun row ↦ inInterval start stop (d.getOriginalKey row)) ∧
        out.Pairwise fun a b ↦ d.getOriginalKey a ≤ d.getOriginalKey b := by
    constructor
    · rintro ⟨out', hperm, hsorted, hcalls'⟩
      obtain rfl := eq_of_answers fun cs ↦ (hcalls cs).symm.trans (hcalls' cs)
      exact ⟨hperm, hsorted⟩
    · exact fun ⟨hperm, hsorted⟩ ↦ ⟨out, hperm, hsorted, hcalls⟩
  have hperm : out.Perm (t.rows.filter fun row ↦ inInterval start stop (d.getOriginalKey row)) ↔
    _ :=
    ⟨fun h ↦ (perm_iff ht).mp (hmerges.perm.symm.trans h),
      fun h ↦ hmerges.perm.trans ((perm_iff ht).mpr h)⟩
  have hsorted : out.Pairwise (fun a b ↦ d.getOriginalKey a ≤ d.getOriginalKey b) ↔ _ :=
    hmerges.sorted_iff.trans (by
      simp only [mem_map, mem_range, forall_exists_index, and_imp,
        forall_apply_eq_imp_iff₂]
      exact sorted_iff ht)
  rw [hright, hperm, hsorted]
  by_cases hstop : stop = []
  · subst hstop
    simp only [StrayOk, if_true, true_iff, forall_true_left, inInterval, isEmpty_nil,
      Bool.true_or, Bool.and_true, decide_eq_true_eq]
    exact ⟨fun h row hrow hstray ↦ ⟨h.1 row hrow hstray, h.2 row hrow hstray⟩,
      fun h ↦ ⟨fun row hrow hstray ↦ (h row hrow hstray).1,
        fun row hrow hstray ↦ (h row hrow hstray).2⟩⟩
  · simp only [StrayOk, hstop, if_false, false_iff, false_imp_iff, and_true, Bool.not_eq_true]

/-- Three buckets, by hash. -/
def threeBuckets : Distributor := .byHashPrefix ⟨3, by decide, by decide⟩

/-- One row, whose hash is the smallest `int`. -/
def strayTable : Table := ⟨[[254, 44, 0, 9, 30, 12, 2]], pairwise_singleton _ _⟩

theorem stored_strayTable : Stored threeBuckets strayTable := by
  intro row hrow
  rw [mem_singleton.mp hrow]
  exact ⟨0, [44, 0, 9, 30, 12, 2], ⟨[], rfl⟩, by decide⟩

/-- The row, and those of the keys from 1 to 7, which are in the three buckets. -/
def severalRows : Table :=
  ⟨[[0, 2], [0, 5], [1, 3], [1, 6], [2, 1], [2, 4], [2, 7], [254, 44, 0, 9, 30, 12, 2]], by decide⟩

theorem stored_severalRows : Stored threeBuckets severalRows := by
  intro row hrow
  have hkey : row = (threeBuckets.getDistributedKey 0 (threeBuckets.getOriginalKey row)).1 := by
    revert row
    decide
  exact ⟨0, _, ⟨[], rfl⟩, hkey⟩

theorem strayOk_severalRows : StrayOk threeBuckets severalRows [2] [6] := by
  intro row hrow hstray
  rw [if_neg (cons_ne_nil 6 [])]
  revert row
  decide

/-- A scan merges the rows of the three buckets; the row that it would not find is outside of the
interval. -/
theorem scansRight_severalRows :
    ScansRight threeBuckets severalRows [2] [6] 10 1 ∧
      (severalRows.rows.filter fun row ↦ inInterval [2] [6] (threeBuckets.getOriginalKey row)) =
        [[0, 2], [0, 5], [1, 3], [2, 4]] :=
  ⟨(scansRight_iff threeBuckets severalRows stored_severalRows [2] [6] 10 1 (by decide)).mpr
    strayOk_severalRows, by decide⟩

/-- **A row that a scan does not find.** -/
theorem exists_not_scansRight : ¬ ∀ (d : Distributor) (t : Table) (start stop : RowKey)
    (scanCaching configured : Int), Stored d t →
      (1 ≤ if scanCaching < 1 then configured else scanCaching) →
        ScansRight d t start stop scanCaching configured := by
  intro h
  obtain ⟨out, hperm, -, hcalls⟩ :=
    h threeBuckets strayTable [] [255] 10 1 stored_strayTable (by decide)
  have hrows : (strayTable.rows.filter fun row ↦
      inInterval [] [255] (threeBuckets.getOriginalKey row)) = strayTable.rows := by decide
  have hanswer := hcalls [.next]
  rw [hrows] at hperm
  rw [perm_singleton.mp hperm] at hanswer
  revert hanswer
  decide

end Rows

end Tigon.Wd
