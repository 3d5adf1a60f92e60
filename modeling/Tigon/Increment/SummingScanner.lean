import Mathlib

/-!
# The scanner that sums increments

An increment is stored as a *delta*, a cell whose value has a prefix of its own, so that it can be
written without reading the column.  The value of a column is then the sum of the deltas that are
newer than its last full value, plus that full value.  `IncrementSummingScanner` computes these sums
while it passes on what another scanner reads: each call of `next` runs over some batches of cells,
with a running sum for the column it is in.

`nextInternal` follows the source, batch by batch and cell by cell, with the two places where it can
return to its caller in the middle of things.  Its running sum is a local variable.  `reference`
says what a scan should give, column by column, without batches and limits.

`scan_eq_reference` says that the concatenation of the results of all calls is the reference if the
batches are such that no call can return in the middle of a column (`BatchesOk`).  That is a
condition on the cells and the limit: it counts what comes out, and looks at the last cell of a
batch, but does not run the loop.  `exists_dropped` has scans in which a call returns with cells or
a sum left. -/

set_option autoImplicit false

namespace Tigon.Increment

open List

abbrev Bytes := List UInt8

/-- A `long`, with the arithmetic of the machine. -/
abbrev Long := BitVec 64

/-- `Bytes.toLong`: the first eight bytes, most significant byte first.  There is an exception if
there are fewer. -/
def toLong (b : Bytes) : Option Long :=
  if b.length < 8 then none
  else some (BitVec.ofNat 64 ((b.take 8).foldl (fun n byte ↦ n * 256 + byte.toNat) 0))

/-- `Bytes.toBytes`. -/
def toBytes (v : Long) : Bytes :=
  [7, 6, 5, 4, 3, 2, 1, 0].map fun i ↦ UInt8.ofNat (v.toNat / 256 ^ i)

/-- Reading the bytes of a number, the first ones of which are read already. -/
theorem foldl_bytes (v k : Nat) :
    ((range k).reverse.map fun i ↦ UInt8.ofNat (v / 256 ^ i)).foldl
      (fun n byte ↦ n * 256 + byte.toNat) (v / 256 ^ k) = v := by
  induction k with
  | zero => simp
  | succ k ih =>
    have hstep : v / 256 ^ (k + 1) * 256 + (UInt8.ofNat (v / 256 ^ k)).toNat = v / 256 ^ k := by
      rw [UInt8.toNat_ofNat', pow_succ, ← Nat.div_div_eq_div_mul]
      exact Nat.div_add_mod' _ _
    rw [range_succ, reverse_append, reverse_singleton, singleton_append,
      map_cons, foldl_cons, hstep, ih]

@[simp] theorem toLong_toBytes (v : Long) : toLong (toBytes v) = some v := by
  have hlength : (toBytes v).length = 8 := rfl
  have hnil : v.toNat / 256 ^ 8 = 0 := Nat.div_eq_of_lt v.isLt
  have hfold : (toBytes v).foldl (fun n byte ↦ n * 256 + byte.toNat) 0 = v.toNat := by
    rw [← hnil]
    exact foldl_bytes v.toNat 8
  rw [toLong, hlength, if_neg (Nat.lt_irrefl 8), take_of_length_le hlength.le, hfold,
    BitVec.ofNat_toNat, BitVec.setWidth_eq]

structure Cell where
  row : Bytes
  family : Bytes
  qualifier : Bytes
  timestamp : Int
  typeByte : UInt8
  value : Bytes
deriving DecidableEq, Repr

namespace IncrementHandler

/-- `XD`. -/
def deltaMagicPrefix : Bytes := [88, 68]

def deltaFullLength : Nat := deltaMagicPrefix.length + 8

def isIncrement (cell : Cell) : Bool :=
  cell.value.length == deltaFullLength && cell.value.take deltaMagicPrefix.length ==
    deltaMagicPrefix

end IncrementHandler

/-- `KeyValue.Type.Put`. -/
def put : UInt8 := 4

/-- The cells are of one column of one row. -/
def sameCell (first second : Cell) : Bool :=
  first.row == second.row && first.family == second.family && first.qualifier == second.qualifier

def newCell (toCopy : Cell) (value : Long) : Cell :=
  { toCopy with typeByte := put, value := toBytes value }

/-- The increment that the sum goes back to, and the sum so far. -/
structure Running where
  previousIncrement : Cell
  runningSum : Long
deriving DecidableEq, Repr

/-- The cell for a sum, if there is one. -/
def leftover (running : Option Running) : List Cell :=
  running.elim [] fun r ↦ [newCell r.previousIncrement r.runningSum]

section Scanner

variable (compactionUpperBound : Int)

/-- The cell is a delta that may be summed. -/
def isDelta (cell : Cell) : Bool :=
  IncrementHandler.isIncrement cell && decide (cell.timestamp < compactionUpperBound)

/-- The number in a delta. -/
def delta (cell : Cell) : Long :=
  (toLong (cell.value.drop IncrementHandler.deltaMagicPrefix.length)).getD 0

/-- The body of the loop over the cells: the running sum afterwards and the cells that are added to
the result, or an exception. -/
def visit (running : Option Running) (cell : Cell) : Option (Option Running × List Cell) :=
  if isDelta compactionUpperBound cell then
    match running with
    | none => some (some ⟨cell, delta cell⟩, [])
    | some r =>
      if sameCell r.previousIncrement cell then
        some (some { r with runningSum := r.runningSum + delta cell }, [])
      else some (some ⟨cell, delta cell⟩, [newCell r.previousIncrement r.runningSum])
  else
    match running with
    | none => some (none, [cell])
    | some r =>
      if sameCell r.previousIncrement cell then
        (toLong cell.value).map fun v ↦
          (none, [newCell r.previousIncrement (r.runningSum + v)])
      else some (none, [newCell r.previousIncrement r.runningSum, cell])

/-- The state of `nextInternal` after the loop over the cells of a batch. -/
structure Visited where
  running : Option Running
  addedCnt : Nat
  cells : List Cell
  /-- The limit was reached before the end of the batch. -/
  stopped : Bool
deriving DecidableEq, Repr

/-- The loop over the cells of a batch. -/
def visitCells (limit : Int) (running : Option Running) (addedCnt : Nat) :
    List Cell → Option Visited
  | [] => some ⟨running, addedCnt, [], false⟩
  | cell :: tmpCells =>
    if 0 < limit ∧ limit ≤ addedCnt then some ⟨running, addedCnt, [], true⟩
    else
      (visit compactionUpperBound running cell).bind fun r ↦
        (visitCells limit r.1 (addedCnt + r.2.length) tmpCells).map fun v ↦
          { v with cells := r.2 ++ v.cells }

/-- What a call returns: the cells, whether there is more, and the batches that the underlying
scanner has left. -/
structure Returned where
  cells : List Cell
  hasMore : Bool
  rest : List (List Cell)
deriving DecidableEq, Repr

/-- The loop of `nextInternal` over the batches of the underlying scanner, which says of each
whether there is another one.  After the last one it gives an empty batch. -/
def nextLoop (limit : Int) (running : Option Running) (addedCnt : Nat) :
    List (List Cell) → Option Returned
  | [] => some ⟨[], false, []⟩
  | tmpCells :: rest =>
    (visitCells compactionUpperBound limit running addedCnt tmpCells).bind fun v ↦
      if v.stopped then some ⟨v.cells, true, rest⟩
      else
        let hasMore := !rest.isEmpty
        if hasMore ∧ 0 < limit ∧ (v.addedCnt : Int) < limit then
          (nextLoop limit v.running v.addedCnt rest).map fun r ↦
            { r with cells := v.cells ++ r.cells }
        else
          let last := if !hasMore && !tmpCells.isEmpty then leftover v.running else []
          some ⟨v.cells ++ last, hasMore, rest⟩

def nextInternal (limit : Int) (batches : List (List Cell)) : Option Returned :=
  nextLoop compactionUpperBound limit none 0 batches

/-- The concatenation of the results of at most `calls` calls of `next`. -/
def scanCalls (limit : Int) : Nat → List (List Cell) → Option (List Cell)
  | 0, _ => none
  | calls + 1, batches =>
    (nextInternal compactionUpperBound limit batches).bind fun r ↦
      if r.hasMore then (scanCalls limit calls r.rest).map fun cells ↦ r.cells ++ cells
      else some r.cells

/-- The concatenation of the results of all calls of `next`, of which each takes at least one
batch. -/
def scan (limit : Int) (batches : List (List Cell)) : Option (List Cell) :=
  scanCalls compactionUpperBound limit (batches.length + 1) batches

/-! ## What a scan should give -/

/-- The value of a column: the sum of the deltas before the first other cell, and the value of that
cell. -/
def total (column : List Cell) : Long :=
  ((column.takeWhile (isDelta compactionUpperBound)).map delta).sum +
    (((column.dropWhile (isDelta compactionUpperBound)).head?.bind fun cell ↦
      toLong cell.value).getD 0)

/-- A column with deltas becomes one cell; any other is as it was. -/
def resolve (column : List Cell) : List Cell :=
  if column.any (isDelta compactionUpperBound) then
    (column.head?.map fun cell ↦ newCell cell (total compactionUpperBound column)).toList
  else column

/-- The columns of a scan. -/
def columns (cells : List Cell) : List (List Cell) := cells.splitBy sameCell

def reference (cells : List Cell) : List Cell :=
  (columns cells).flatMap (resolve compactionUpperBound)

/-- The scan has of each column deltas and then at most one other cell, which holds a `long`; or no
deltas at all. -/
def ColumnOk (column : List Cell) : Prop :=
  (∀ cell ∈ column, isDelta compactionUpperBound cell = false) ∨
    ((column.dropWhile (isDelta compactionUpperBound)).length ≤ 1 ∧
      ∀ cell ∈ column.dropWhile (isDelta compactionUpperBound), (toLong cell.value).isSome = true)

instance (column : List Cell) : Decidable (ColumnOk compactionUpperBound column) :=
  inferInstanceAs (Decidable (_ ∨ _))

/-- The number of cells that come out while these are read: one for each cell that is not a delta,
and one for each delta that a cell of another column follows. -/
def added : List Cell → Nat
  | [] => 0
  | cell :: cells =>
    (if isDelta compactionUpperBound cell && cells.head?.all (sameCell cell) then 0 else 1) +
      added cells

/-- The last of the cells, if it is a delta. -/
def lastDelta (cells : List Cell) : Option Cell :=
  cells.getLast?.filter (isDelta compactionUpperBound)

/-- The batches are such that `next` can only return between two columns.  A call takes batches
until `limit` cells have come out, or one batch if there is no limit; `read` has the cells of those
it has taken.  The limit is not reached before the last cell of a batch, and a batch at which a call
returns does not end with a delta.  At the end of the scan it may, but an empty batch does not
follow. -/
def BatchesOk (limit : Int) : (read : List Cell) → (batches : List (List Cell)) → Prop
  | read, [] => lastDelta compactionUpperBound read = none
  | read, batch :: rest =>
    (∀ i < batch.length, 0 < limit →
      (added compactionUpperBound (read ++ batch.take i) : Int) < limit) ∧ if rest = [] then batch =
        [] → lastDelta compactionUpperBound read = none
      else if 0 < limit ∧ (added compactionUpperBound (read ++ batch) : Int) < limit then
        BatchesOk limit (read ++ batch) rest
      else lastDelta compactionUpperBound (read ++ batch) = none ∧ BatchesOk limit [] rest

instance decidableBatchesOk (limit : Int) : (read : List Cell) → (batches : List (List Cell)) →
    Decidable (BatchesOk compactionUpperBound limit read batches)
  | _, [] => inferInstanceAs (Decidable (_ = none))
  | _, _ :: rest =>
    have : ∀ read, Decidable (BatchesOk compactionUpperBound limit read rest) :=
      fun read ↦ decidableBatchesOk limit read rest
    inferInstanceAs (Decidable (_ ∧ if rest = [] then _ else if _ ∧ _ then BatchesOk _ _ _ rest else
      _ ∧ BatchesOk _ _ _ rest))

/-! ## The sums, without batches -/

/-- The loop over the cells of a whole scan. -/
def sumAll (running : Option Running) : List Cell → Option (Option Running × List Cell)
  | [] => some (running, [])
  | cell :: cells =>
    (visit compactionUpperBound running cell).bind fun r ↦
      (sumAll r.1 cells).map fun r' ↦ (r'.1, r.2 ++ r'.2)

variable {compactionUpperBound} {running : Option Running} {cells : List Cell}

variable {cell : Cell}

theorem sumAll_cons_of_visit {r r' : Option Running × List Cell}
    (h : visit compactionUpperBound running cell = some r)
    (h' : sumAll compactionUpperBound r.1 cells = some r') :
    sumAll compactionUpperBound running (cell :: cells) = some (r'.1, r.2 ++ r'.2) := by
  rw [sumAll, h, Option.bind_some, h', Option.map_some]

theorem sumAll_append (cells' : List Cell) :
    sumAll compactionUpperBound running (cells ++ cells') =
      (sumAll compactionUpperBound running cells).bind fun r ↦
        (sumAll compactionUpperBound r.1 cells').map fun r' ↦ (r'.1, r.2 ++ r'.2) := by
  induction cells generalizing running with
  | nil => simp [sumAll]
  | cons cell cells ih =>
    rw [cons_append, sumAll, sumAll]
    cases hvisit : visit compactionUpperBound running cell with
    | none => rfl
    | some r =>
      rw [Option.bind_some, Option.bind_some, ih]
      cases sumAll compactionUpperBound r.1 cells with
      | none => rfl
      | some r' =>
        simp only [Option.bind_some, Option.map_some, Option.map_map]
        congr 1
        funext r''
        simp

/-! ### One column -/

/-- What the cells of a column have in common. -/
def Cell.coordinates (cell : Cell) : Bytes × Bytes × Bytes :=
  (cell.row, cell.family, cell.qualifier)

theorem sameCell_iff {c c' : Cell} : sameCell c c' = true ↔ c.coordinates = c'.coordinates := by
  simp [sameCell, Cell.coordinates, and_assoc]

theorem sameCell_eq_false {c c' : Cell} (h : c.coordinates ≠ c'.coordinates) :
    sameCell c c' = false :=
  Bool.eq_false_iff.mpr fun h' ↦ h (sameCell_iff.mp h')

/-- Cells that are not deltas are passed on. -/
theorem sumAll_full (h : ∀ cell ∈ cells, isDelta compactionUpperBound cell = false) :
    sumAll compactionUpperBound none cells = some (none, cells) := by
  induction cells with
  | nil => rfl
  | cons cell cells ih =>
    obtain ⟨hcell, hcells⟩ := forall_mem_cons.mp h
    exact sumAll_cons_of_visit (by rw [visit, hcell]; rfl) (ih hcells)

/-- Deltas of the column of the running sum are added to it. -/
theorem sumAll_delta {c : Cell} (sum : Long) (h : ∀ cell ∈ cells, isDelta compactionUpperBound cell)
    (hsame : ∀ cell ∈ cells, c.coordinates = cell.coordinates) :
    sumAll compactionUpperBound (some ⟨c, sum⟩) cells =
      some (some ⟨c, sum + (cells.map delta).sum⟩, []) := by
  induction cells generalizing sum with
  | nil => simp [sumAll]
  | cons cell cells ih =>
    obtain ⟨hcell, hcells⟩ := forall_mem_cons.mp h
    obtain ⟨hsame, hsames⟩ := forall_mem_cons.mp hsame
    have hvisit : visit compactionUpperBound (some ⟨c, sum⟩) cell =
        some (some ⟨c, sum + delta cell⟩, []) := by
      rw [visit, if_pos hcell]
      exact if_pos (sameCell_iff.mpr hsame)
    rw [sumAll_cons_of_visit hvisit (ih _ hcells hsames), map_cons, sum_cons, add_assoc]
    rfl

/-- The first cell of another column ends a sum. -/
theorem visit_other (compactionUpperBound : Int)
    (hother : ∀ r ∈ running, r.previousIncrement.coordinates ≠ cell.coordinates) :
    visit compactionUpperBound running cell =
      if isDelta compactionUpperBound cell then some (some ⟨cell, delta cell⟩, leftover running)
      else some (none, leftover running ++ [cell]) := by
  cases running with
  | none => rfl
  | some r =>
    have hsame := sameCell_eq_false (hother r rfl)
    simp only [visit, hsame]
    rfl

/-- A column without deltas. -/
theorem exists_sumAll_full {column : List Cell}
    (hother : ∀ r ∈ running, r.previousIncrement.coordinates ≠ cell.coordinates)
    (hfull : ∀ c ∈ cell :: column, isDelta compactionUpperBound c = false) :
    sumAll compactionUpperBound running (cell :: column) =
      some (none, leftover running ++ resolve compactionUpperBound (cell :: column)) := by
  obtain ⟨hcell, hcolumn⟩ := forall_mem_cons.mp hfull
  have hvisit := visit_other compactionUpperBound hother
  rw [hcell, if_neg Bool.false_ne_true] at hvisit
  have hany : (cell :: column).any (isDelta compactionUpperBound) = false := by
    rw [any_eq_false]
    exact fun c hc ↦ by simp [hfull c hc]
  rw [sumAll_cons_of_visit hvisit (sumAll_full hcolumn), resolve, hany, if_neg Bool.false_ne_true]
  simp

/-- A column that starts with a delta. -/
theorem exists_sumAll_delta {deltas rest : List Cell}
    (hother : ∀ r ∈ running, r.previousIncrement.coordinates ≠ cell.coordinates)
    (hsame : ∀ c ∈ deltas ++ rest, cell.coordinates = c.coordinates)
    (hdelta : ∀ c ∈ cell :: deltas, isDelta compactionUpperBound c)
    (hfull : ∀ c ∈ rest, isDelta compactionUpperBound c = false) (hrest : rest.length ≤ 1)
    (hlong : ∀ c ∈ rest, (toLong c.value).isSome = true) :
    ∃ r out, sumAll compactionUpperBound running (cell :: (deltas ++ rest)) = some (r, out) ∧
      out ++ leftover r =
        leftover running ++ resolve compactionUpperBound (cell :: (deltas ++ rest)) ∧
      ∀ x ∈ r, x.previousIncrement.coordinates = cell.coordinates := by
  obtain ⟨hcell, hdeltas⟩ := forall_mem_cons.mp hdelta
  have hvisit := visit_other compactionUpperBound hother
  rw [hcell, if_pos rfl] at hvisit
  have hany : (cell :: (deltas ++ rest)).any (isDelta compactionUpperBound) = true :=
    any_eq_true.mpr ⟨cell, mem_cons_self, hcell⟩
  have htake : (cell :: (deltas ++ rest)).takeWhile (isDelta compactionUpperBound) =
      cell :: deltas := by
    rw [← cons_append, takeWhile_append_of_pos hdelta]
    cases rest with
    | nil => simp
    | cons full rest => simp [hfull full mem_cons_self]
  have hdrop : (cell :: (deltas ++ rest)).dropWhile (isDelta compactionUpperBound) = rest := by
    rw [← cons_append, dropWhile_append_of_pos hdelta]
    cases rest with
    | nil => simp
    | cons full rest => simp [hfull full mem_cons_self]
  have hsum := sumAll_delta (delta cell) hdeltas
    fun c hc ↦ hsame c (mem_append_left _ hc)
  have hresolve : resolve compactionUpperBound (cell :: (deltas ++ rest)) =
      [newCell cell (delta cell + (deltas.map delta).sum +
        ((rest.head?.bind fun c ↦ toLong c.value).getD 0))] := by
    rw [resolve, hany, if_pos rfl, total, htake, hdrop]
    rfl
  rw [hresolve]
  match rest, hrest with
  | [], _ =>
    refine ⟨_, _, sumAll_cons_of_visit hvisit (by rw [append_nil]; exact hsum), ?_, ?_⟩
    · simp [leftover]
    · rintro x ⟨⟩
      rfl
  | [full], _ =>
    obtain ⟨v, hv⟩ := Option.isSome_iff_exists.mp (hlong full (mem_singleton_self full))
    have hlast : sumAll compactionUpperBound (some ⟨cell, delta cell + (deltas.map delta).sum⟩)
        [full] = some (none, [newCell cell (delta cell + (deltas.map delta).sum + v)]) := by
      have hfull' := hfull full (mem_singleton_self full)
      have hsame' := sameCell_iff.mpr
        (hsame full (mem_append_right _ (mem_singleton_self full)))
      simp [sumAll, visit, hfull', hsame', hv]
    have hall : sumAll compactionUpperBound (some ⟨cell, delta cell⟩) (deltas ++ [full]) =
        some (none, [newCell cell (delta cell + (deltas.map delta).sum + v)]) := by
      rw [sumAll_append, hsum, Option.bind_some, hlast]
      rfl
    exact ⟨_, _, sumAll_cons_of_visit hvisit hall, by simp [leftover, hv], by simp⟩

/-- What the loop does with the cells of a column. -/
theorem exists_sumAll_column {column : List Cell}
    (hother : ∀ r ∈ running, r.previousIncrement.coordinates ≠ cell.coordinates)
    (hsame : ∀ c ∈ column, cell.coordinates = c.coordinates)
    (hok : ColumnOk compactionUpperBound (cell :: column)) :
    ∃ r out, sumAll compactionUpperBound running (cell :: column) = some (r, out) ∧
      out ++ leftover r = leftover running ++ resolve compactionUpperBound (cell :: column) ∧
      ∀ x ∈ r, x.previousIncrement.coordinates = cell.coordinates := by
  rcases hok with hfull | ⟨hrest, hlong⟩
  · exact ⟨_, _, exists_sumAll_full hother hfull, by simp [leftover], by simp⟩
  · cases hcell : isDelta compactionUpperBound cell with
    | false =>
      rw [dropWhile_cons, hcell, if_neg Bool.false_ne_true, length_cons] at hrest
      obtain rfl : column = [] := eq_nil_of_length_eq_zero (by omega)
      refine ⟨_, _, exists_sumAll_full hother ?_, by simp [leftover], by simp⟩
      simpa using hcell
    | true =>
      rw [dropWhile_cons, hcell, if_pos rfl] at hrest hlong
      have hsplit := column.takeWhile_append_dropWhile (p := isDelta compactionUpperBound)
      rw [← hsplit] at hsame ⊢
      refine exists_sumAll_delta hother hsame ?_ ?_ hrest hlong
      · exact forall_mem_cons.mpr ⟨hcell, fun c hc ↦ mem_takeWhile_imp hc⟩
      · intro c hc
        match hd : column.dropWhile (isDelta compactionUpperBound), hrest with
        | [full], _ =>
          rw [hd, mem_singleton] at hc
          have := head?_dropWhile_not (isDelta compactionUpperBound) column
          rw [hd] at this
          rw [hc]
          simpa using this
        | [], _ =>
          rw [hd] at hc
          cases hc

/-! ### All columns -/

/-- The cells of each list are of one column, and those of neighbouring lists of different ones. -/
def IsColumns : List (List Cell) → Prop
  | [] => True
  | column :: rest => (∃ cell cells, column = cell :: cells ∧
      (∀ c ∈ cells, cell.coordinates = c.coordinates) ∧
      ∀ next ∈ rest.head?, ∀ c ∈ next.head?, cell.coordinates ≠ c.coordinates) ∧ IsColumns rest

theorem exists_sumAll_columns (running : Option Running) (gs : List (List Cell))
    (hgs : IsColumns gs) (hother : ∀ r ∈ running, ∀ g ∈ gs.head?, ∀ c ∈ g.head?,
      r.previousIncrement.coordinates ≠ c.coordinates)
    (hok : ∀ g ∈ gs, ColumnOk compactionUpperBound g) :
    ∃ r out, sumAll compactionUpperBound running gs.flatten = some (r, out) ∧
      out ++ leftover r = leftover running ++ gs.flatMap (resolve compactionUpperBound) := by
  induction gs generalizing running with
  | nil => exact ⟨running, [], rfl, by simp⟩
  | cons g gs ih =>
    obtain ⟨⟨cell, column, rfl, hsame, hnext⟩, hgs⟩ := hgs
    obtain ⟨hg, hok⟩ := forall_mem_cons.mp hok
    obtain ⟨r, out, hsum, hout, hr⟩ := exists_sumAll_column
      (fun r hr ↦ hother r hr _ rfl cell rfl) hsame hg
    obtain ⟨r', out', hsum', hout'⟩ := ih r hgs
      (fun x hx g hg c hc ↦ hr x hx ▸ hnext g hg c hc) hok
    refine ⟨r', out ++ out', ?_, ?_⟩
    · rw [flatten_cons, sumAll_append, hsum, Option.bind_some, hsum']
      rfl
    · rw [append_assoc, hout', ← append_assoc, hout, flatMap_cons, append_assoc]

theorem coordinates_of_isChain
    (h : (cell :: cells).IsChain fun c c' ↦ sameCell c c' = true) :
    ∀ c ∈ cell :: cells, cell.coordinates = c.coordinates := by
  induction cells generalizing cell with
  | nil => simp
  | cons next cells ih =>
    obtain ⟨hnext, hchain⟩ := isChain_cons_cons.mp h
    refine forall_mem_cons.mpr ⟨rfl, fun c hc ↦ ?_⟩
    exact (sameCell_iff.mp hnext).trans (ih hchain c hc)

theorem isColumns_columns (cells : List Cell) : IsColumns (columns cells) := by
  have hchain := isChain_getLast_head_splitBy sameCell cells
  have hmem : ∀ g ∈ columns cells, g ≠ [] ∧ g.IsChain fun c c' ↦ sameCell c c' = true := fun g hg ↦
    ⟨ne_nil_of_mem_splitBy hg, isChain_of_mem_splitBy hg⟩
  change (columns cells).IsChain _ at hchain
  generalize columns cells = gs at hchain hmem
  induction gs with
  | nil => trivial
  | cons g gs ih =>
    obtain ⟨⟨hne, hg⟩, hrest⟩ := forall_mem_cons.mp hmem
    obtain ⟨cell, column, rfl⟩ := exists_cons_of_ne_nil hne
    have hsame := coordinates_of_isChain hg
    refine ⟨⟨cell, column, rfl, fun c hc ↦ hsame c (mem_cons_of_mem _ hc), ?_⟩,
      ih hchain.tail hrest⟩
    intro next hnext c hc heq
    obtain ⟨hlast, hhead, hdiff⟩ := hchain.rel_head? hnext
    have hc' : next.head hhead = c :=
      Option.some_inj.mp ((head?_eq_some_head hhead).symm.trans hc)
    rw [hc'] at hdiff
    refine Bool.eq_false_iff.mp hdiff (sameCell_iff.mpr ?_)
    rw [← hsame _ (getLast_mem hlast)]
    exact heq

/-- **The loop computes the sums of the columns.** -/
theorem exists_sumAll (hok : ∀ g ∈ columns cells, ColumnOk compactionUpperBound g) :
    ∃ r out, sumAll compactionUpperBound none cells = some (r, out) ∧
      out ++ leftover r = reference compactionUpperBound cells := by
  obtain ⟨r, out, hsum, hout⟩ := exists_sumAll_columns none (columns cells)
    (isColumns_columns cells) (fun _ h ↦ by cases h) hok
  rw [columns, flatten_splitBy] at hsum
  exact ⟨r, out, hsum, hout⟩

/-! ## Batches and limits -/

theorem lastDelta_concat (read : List Cell) (cell : Cell) : lastDelta compactionUpperBound
    (read ++ [cell]) = if isDelta compactionUpperBound cell then some cell else none := by
  rw [lastDelta, getLast?_concat, Option.filter_some]

theorem added_concat (read : List Cell) (cell : Cell) :
    added compactionUpperBound (read ++ [cell]) = added compactionUpperBound read +
      (if (lastDelta compactionUpperBound read).any (fun c ↦ !sameCell c cell) then 1 else 0) +
      (if isDelta compactionUpperBound cell then 0 else 1) := by
  induction read with
  | nil => simp [added, lastDelta]
  | cons c read ih =>
    rw [cons_append, added, added, ih]
    cases read with
    | nil =>
      cases hdelta : isDelta compactionUpperBound c <;> cases hsame : sameCell c cell <;>
        simp [added, lastDelta, hsame, hdelta]
    | cons c' read =>
      have hlast : lastDelta compactionUpperBound (c :: c' :: read) = lastDelta compactionUpperBound
        (c' :: read) := by
        rw [lastDelta, getLast?_cons_cons, lastDelta]
      rw [hlast, cons_append, head?_cons, head?_cons]
      omega

theorem sumAll_singleton (cell : Cell) :
    sumAll compactionUpperBound running [cell] = visit compactionUpperBound running cell := by
  simp [sumAll]

/-- The loop has put out so many cells, and its running sum is that of the last cell if this is a
delta. -/
theorem sumAll_spec {read : List Cell} {r : Option Running × List Cell}
    (h : sumAll compactionUpperBound none read = some r) :
    r.2.length = added compactionUpperBound read ∧
      r.1.map (fun x ↦ x.previousIncrement.coordinates) = (lastDelta compactionUpperBound read).map
        Cell.coordinates := by
  induction read using reverseRecOn generalizing r with
  | nil =>
    obtain rfl := Option.some_inj.mp h
    simp [added, lastDelta]
  | append_singleton read cell ih =>
    rw [sumAll_append, Option.bind_eq_some_iff] at h
    obtain ⟨r₁, hread, h⟩ := h
    obtain ⟨r₂, hcell, rfl⟩ := Option.map_eq_some_iff.mp h
    obtain ⟨hlength, hlast⟩ := ih hread
    rw [sumAll_singleton] at hcell
    unfold visit at hcell
    rw [added_concat, lastDelta_concat, length_append, hlength]
    cases hrunning : r₁.1 with
    | none =>
      rw [hrunning, Option.map_none, eq_comm, Option.map_eq_none_iff] at hlast
      rw [hrunning] at hcell
      rw [hlast]
      split at hcell
      · rename_i hdelta
        cases hcell
        simp [hdelta]
      · rename_i hdelta
        cases hcell
        simp [hdelta]
    | some x =>
      rw [hrunning, Option.map_some, eq_comm, Option.map_eq_some_iff] at hlast
      obtain ⟨c, hc, hcolumn⟩ := hlast
      have hsame : sameCell x.previousIncrement cell = sameCell c cell := by
        rw [Bool.eq_iff_iff, sameCell_iff, sameCell_iff, hcolumn]
      simp only [hrunning, hsame] at hcell
      rw [hc, Option.any_some]
      split at hcell
      · rename_i hdelta
        split at hcell
        · rename_i heq
          cases hcell
          simp [hdelta, heq, ← hcolumn, sameCell_iff.mp heq]
        · rename_i heq
          cases hcell
          simp [hdelta, heq]
      · rename_i hdelta
        split at hcell
        · rename_i heq
          obtain ⟨v, -, rfl⟩ := Option.map_eq_some_iff.mp hcell
          simp [hdelta, heq]
        · rename_i heq
          cases hcell
          simp [hdelta, heq]

/-- The loop over the cells of a scan, with the sum that is left over at its end. -/
def emitAll (compactionUpperBound : Int) (running : Option Running) (cells : List Cell) :
    Option (List Cell) :=
  (sumAll compactionUpperBound running cells).map fun r ↦ r.2 ++ leftover r.1

theorem emitAll_append_of_sumAll {r : Option Running × List Cell} (cells' : List Cell)
    (h : sumAll compactionUpperBound running cells = some r) :
    emitAll compactionUpperBound running (cells ++ cells') =
      (emitAll compactionUpperBound r.1 cells').map fun out ↦ r.2 ++ out := by
  rw [emitAll, sumAll_append, h, Option.bind_some, emitAll, Option.map_map, Option.map_map]
  congr 1
  funext r'
  exact append_assoc _ _ _

section Calls

variable {limit : Int} {read batch : List Cell} {batches : List (List Cell)}
  {r : Option Running × List Cell}

/-- A batch is looked at to its end if the limit is not reached before. -/
theorem visitCells_eq (hread : sumAll compactionUpperBound none read = some r)
    (hlimit : ∀ i < batch.length, 0 < limit →
      (added compactionUpperBound (read ++ batch.take i) : Int) < limit) :
    visitCells compactionUpperBound limit r.1 r.2.length batch =
      (sumAll compactionUpperBound r.1 batch).map fun s ↦
        ⟨s.1, r.2.length + s.2.length, s.2, false⟩ := by
  induction batch generalizing read r with
  | nil => rfl
  | cons cell batch ih =>
    have hzero := hlimit 0 (Nat.succ_pos _)
    rw [take_zero, append_nil, ← (sumAll_spec hread).1] at hzero
    rw [visitCells, if_neg (by omega), sumAll]
    cases hvisit : visit compactionUpperBound r.1 cell with
    | none => rfl
    | some s =>
      have hread' : sumAll compactionUpperBound none (read ++ [cell]) = some (s.1, r.2 ++ s.2) := by
        rw [sumAll_append, hread, Option.bind_some, sumAll_singleton, hvisit]
        rfl
      have ih := ih hread' fun i hi hpos ↦ by simpa using hlimit (i + 1) (Nat.succ_lt_succ hi) hpos
      rw [Option.bind_some, Option.bind_some, ← length_append, ih]
      cases sumAll compactionUpperBound s.1 batch with
      | none => rfl
      | some s' => simp [Nat.add_assoc]

/-- A call returns the sums of all cells, or it returns between two columns. -/
theorem nextLoop_eq (hread : sumAll compactionUpperBound none read = some r)
    (hok : BatchesOk compactionUpperBound limit read batches) :
    nextLoop compactionUpperBound limit r.1 r.2.length batches =
        (emitAll compactionUpperBound r.1 batches.flatten).map (fun out ↦ ⟨out, false, []⟩) ∨
      ∃ done rest, batches = done ++ rest ∧ done ≠ [] ∧
        BatchesOk compactionUpperBound limit [] rest ∧
          (∀ s ∈ sumAll compactionUpperBound r.1 done.flatten, s.1 = none) ∧
        nextLoop compactionUpperBound limit r.1 r.2.length batches =
          (sumAll compactionUpperBound r.1 done.flatten).map fun s ↦ ⟨s.2, true, rest⟩ := by
  induction batches generalizing read r with
  | nil =>
    have hnone : r.1 = none := by
      have hlast := (sumAll_spec hread).2
      rwa [show lastDelta compactionUpperBound read = none from hok, Option.map_none,
        Option.map_eq_none_iff] at hlast
    rw [hnone]
    exact .inl rfl
  | cons batch rest ih =>
    obtain ⟨hlimit, hok⟩ := hok
    rw [nextLoop, visitCells_eq hread hlimit, flatten_cons]
    cases hbatch : sumAll compactionUpperBound r.1 batch with
    | none =>
      refine .inl ?_
      rw [emitAll, sumAll_append, hbatch]
      rfl
    | some s =>
      have hread' : sumAll compactionUpperBound none (read ++ batch) = some (s.1, r.2 ++ s.2) := by
        rw [sumAll_append, hread, Option.bind_some, hbatch]
        rfl
      have hlength : (r.2.length : Int) + s.2.length = added compactionUpperBound
        (read ++ batch) := by
        rw [← (sumAll_spec hread').1, length_append, Nat.cast_add]
      have hnone : lastDelta compactionUpperBound (read ++ batch) = none → s.1 = none :=
        fun hlast ↦ by
        have h := (sumAll_spec hread').2
        rwa [hlast, Option.map_none, Option.map_eq_none_iff] at h
      rw [emitAll_append_of_sumAll _ hbatch, Option.map_some, Option.bind_some,
        if_neg Bool.false_ne_true]
      cases rest with
      | nil =>
        rw [if_pos rfl] at hok
        refine .inl ((if_neg (by simp)).trans ?_)
        cases batch with
        | nil =>
          rw [append_nil] at hnone
          simp [emitAll, sumAll, leftover, hnone (hok rfl)]
        | cons cell batch => simp [emitAll, sumAll]
      | cons next rest =>
        rw [if_neg (cons_ne_nil next rest), ← hlength] at hok
        by_cases hmore : 0 < limit ∧ (r.2.length : Int) + s.2.length < limit
        · rw [if_pos hmore] at hok
          have ih := ih hread' hok
          rw [length_append] at ih
          rw [if_pos ⟨by simp, by rwa [Nat.cast_add]⟩]
          rcases ih with ih | ⟨done, rest', hdone, -, hrest, hall, ih⟩
          · refine .inl ?_
            rw [ih, Option.map_map, Option.map_map]
            rfl
          · have hsums : sumAll compactionUpperBound r.1 (batch :: done).flatten =
                (sumAll compactionUpperBound s.1 done.flatten).map fun s' ↦
                (s'.1, s.2 ++ s'.2) := by
              rw [flatten_cons, sumAll_append, hbatch, Option.bind_some]
            refine .inr ⟨batch :: done, rest', by rw [hdone]; rfl, cons_ne_nil _ _,
              hrest, ?_, ?_⟩
            · intro s' hs'
              rw [hsums] at hs'
              obtain ⟨s₁, hs₁, rfl⟩ := Option.map_eq_some_iff.mp hs'
              exact hall s₁ hs₁
            · rw [ih, hsums, Option.map_map, Option.map_map]
              rfl
        · rw [if_neg hmore] at hok
          rw [if_neg fun h ↦ hmore (by rw [← Nat.cast_add]; exact h.2)]
          refine .inr ⟨[batch], next :: rest, rfl, cons_ne_nil _ _, hok.2, ?_, ?_⟩
          · rw [flatten_singleton, hbatch]
            rintro s' ⟨⟩
            exact hnone hok.1
          · rw [flatten_singleton, hbatch]
            simp

/-- Where no call returns in the middle of things, the calls together return the sums of all
cells. -/
theorem scanCalls_eq {calls : Nat} (hcalls : batches.length < calls)
    (hok : BatchesOk compactionUpperBound limit [] batches) :
    scanCalls compactionUpperBound limit calls batches = emitAll compactionUpperBound none
      batches.flatten := by
  induction calls generalizing batches with
  | zero => omega
  | succ calls ih =>
    rw [scanCalls]
    obtain hlast | ⟨done, rest, rfl, hdone, hrest, hnone, hcall⟩ :=
      nextLoop_eq (r := (none, [])) rfl hok
    · have hlast : nextInternal compactionUpperBound limit batches = _ := hlast
      rw [hlast, Option.bind_map]
      show (emitAll compactionUpperBound none batches.flatten).bind _ = _
      cases emitAll compactionUpperBound none batches.flatten with
      | none => rfl
      | some out => rfl
    · have hcall : nextInternal compactionUpperBound limit (done ++ rest) = _ := hcall
      have hlength := length_pos_of_ne_nil hdone
      rw [length_append] at hcalls
      rw [hcall, Option.bind_map, flatten_append]
      cases hsum : sumAll compactionUpperBound none done.flatten with
      | none =>
        rw [emitAll, sumAll_append, hsum]
        rfl
      | some s =>
        rw [emitAll_append_of_sumAll _ hsum, hnone s hsum, Option.bind_some, ← ih (by omega) hrest]
        rfl

end Calls

/-- **The results of all calls together are the sums of the columns**, if no call returns in the
middle of one. -/
theorem scan_eq_reference {limit : Int} {batches : List (List Cell)}
    (hcolumns : ∀ g ∈ columns batches.flatten, ColumnOk compactionUpperBound g)
    (hbatches : BatchesOk compactionUpperBound limit [] batches) :
    scan compactionUpperBound limit batches =
      some (reference compactionUpperBound batches.flatten) := by
  obtain ⟨r, out, hsum, hout⟩ := exists_sumAll hcolumns
  rw [scan, scanCalls_eq (Nat.lt_succ_self _) hbatches, emitAll, hsum, Option.map_some, hout]

end Scanner

/-! ## What is left behind -/

/-- A cell of the family `f`. -/
def cellAt (row : UInt8) (qualifier : UInt8) (timestamp : Int) (value : Bytes) : Cell :=
  ⟨[row], [102], [qualifier], timestamp, put, value⟩

/-- An increment. -/
def deltaAt (row qualifier : UInt8) (timestamp : Int) (n : Nat) : Cell :=
  cellAt row qualifier timestamp (IncrementHandler.deltaMagicPrefix ++ toBytes (BitVec.ofNat 64 n))

/-- A full value. -/
def fullAt (row qualifier : UInt8) (timestamp : Int) (n : Nat) : Cell :=
  cellAt row qualifier timestamp (toBytes (BitVec.ofNat 64 n))

/-- Two rows, of which the first ends with a full value and the second with an increment. -/
theorem scan_eq_reference_rows :
    scan 100 (-1) [[deltaAt 1 1 9 2, deltaAt 1 1 8 1, fullAt 1 1 7 5],
      [fullAt 2 1 4 6, deltaAt 2 2 4 3]] = some (reference 100
        [deltaAt 1 1 9 2, deltaAt 1 1 8 1, fullAt 1 1 7 5, fullAt 2 1 4 6, deltaAt 2 2 4 3]) :=
  scan_eq_reference (by decide) (by decide)

/-- **Increments are dropped.**  Without a limit, the sum of the last column of a row is dropped if
it is made of increments only and there is another row.  With a limit, the sum that is running when
the limit is reached is dropped, and so are the other cells of the batch. -/
theorem exists_dropped :
    (scan 100 (-1) [[deltaAt 1 1 9 2], [fullAt 2 1 4 6]] = some [fullAt 2 1 4 6] ∧
      reference 100 [deltaAt 1 1 9 2, fullAt 2 1 4 6] = [fullAt 1 1 9 2, fullAt 2 1 4 6]) ∧
    scan 100 2 [[deltaAt 1 1 9 1, deltaAt 1 2 9 2], [deltaAt 1 3 9 3], [fullAt 1 4 9 4]] ≠
      some (reference 100 [deltaAt 1 1 9 1, deltaAt 1 2 9 2, deltaAt 1 3 9 3, fullAt 1 4 9 4]) ∧
    scan 100 1 [[deltaAt 1 1 9 1], [fullAt 1 2 9 2, fullAt 1 3 9 3]] ≠
      some (reference 100 [deltaAt 1 1 9 1, fullAt 1 2 9 2, fullAt 1 3 9 3]) := by
  decide +kernel

end Tigon.Increment
