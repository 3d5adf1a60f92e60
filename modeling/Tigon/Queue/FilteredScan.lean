import Tigon.Queue.Consumer
import Tigon.Queue.DequeueFilter

/-!
# Scans through the filter

A consumer fills its cache from a scan.  The region servers put `DequeueFilter` before it; here the
same loop runs over the rows that the filter sends, and over all rows.  The cache is the same.  The
scan start row need not be: it moves to the first row of the scan, which with the filter is the
first row that is sent.

The rows that it passes then are those the consumer could not take.  Some of them are unprocessed:
entries of other instances, and entries that another instance of a FIFO group has claimed.  So the
scan start row may pass unprocessed entries that it would not pass without the filter, but none that
is up to this consumer.

## What is here

* `populateLoop` — the loop of `populateRowCache` over the rows of a scan, down to their cells.
* `sent_iff` — which rows the filter sends.
* `populate_filtered` — **the cache is the same**, and the scan start row is as safe for the entries
  that are up to the consumer (`Due`).
* `exists_not_safe` — it is not for all unprocessed entries.
-/

set_option autoImplicit false

open Bytes Mvcc

namespace Tigon.Hbase

open Consumer RowKeys List

/-! ## Rows and scans -/

/-- A row of the queue. -/
structure EntryCells where
  row : Row
  fits : Fits row
  salt : UInt8
  cells : List Cell
  nodup : (cells.map Cell.qualifier).Nodup

/-- The cell of a column. -/
def getCell (cells : List Cell) (column : List UInt8) : Option (List UInt8) :=
  (cells.find? fun kv ↦ kv.qualifier = column).map Cell.value

def EntryCells.get (r : EntryCells) (column : List UInt8) : Option (List UInt8) :=
  getCell r.cells column

/-- The rows of the queue, in the order of their keys. -/
structure QueueTable where
  rows : List EntryCells
  sorted : SortedList.Sorted EntryCells.row rows

def QueueTable.scan (table : QueueTable) (start stop : Row) : List EntryCells :=
  table.rows.filter fun r ↦ start ≤ r.row ∧ r.row < stop

/-- `canConsume` on the values of the columns, where a state column has what `encodeStateColumn`
writes. -/
def canConsumeEncoded (deserializeHashKeys : List UInt8 → HashKeys) : CanConsumeColumns :=
  fun config transaction row metaValue stateValue ↦
    some (canConsume config transaction row (deserializeHashKeys metaValue)
      (stateValue.map decodeState))

/-- It is what `canConsume` says, which does not fail there. -/
theorem canConsumeBytes_eq (deserializeHashKeys : List UInt8 → HashKeys) (config : ConsumerConfig)
    (tx : Transaction) (row : Row) (metaValue : List UInt8) {stateValue : Option (List UInt8)}
    (hstate : ∀ value ∈ stateValue, value.length = 13 ∧ (getState value).isSome = true) :
    canConsumeBytes deserializeHashKeys config tx row metaValue stateValue =
      canConsumeEncoded deserializeHashKeys config tx row metaValue stateValue := by
  cases stateValue with
  | none => rfl
  | some value =>
    obtain ⟨hlength, hsome⟩ := hstate value rfl
    obtain ⟨state, hstate⟩ := Option.isSome_iff_exists.mp hsome
    have hdecode : decodeState value =
      ⟨getStateWritePointer value, getStateInstanceId value, state⟩ := by
      rw [decodeState, hstate, Option.getD_some]
    rw [canConsumeBytes, canConsumeEncoded, Option.map_some, hdecode, hstate]
    rw [if_neg (by omega)]
    by_cases hown : getStateWritePointer value = tx.writePointer
    · rw [if_pos hown, canConsume, canConsumeBy, if_pos hown]
    · rw [if_neg hown, if_neg (by omega)]
      by_cases hfifo : config.dequeueStrategy = .fifo ∧ getStateInstanceId value <
          config.groupSize ∧ getStateInstanceId value ≠ config.instanceId
      · rw [if_pos hfifo, canConsume, canConsumeBy, if_neg hown, if_pos hfifo]
      · rw [if_neg hfifo]
        rfl

section Model

variable (deserializeHashKeys : List UInt8 → HashKeys) (md5 : List UInt8 → UInt8) (q : QueueName)
  (config : ConsumerConfig) (transaction : Transaction)

/-- The row as the filter sees it. -/
def EntryCells.scanned (r : EntryCells) : ScannedRow := ⟨r.salt :: rowKey md5 q r.row, r.cells⟩

/-- The rows that the filter sends. -/
def filteredScan (rows : List EntryCells) : List EntryCells :=
  let filter := DequeueFilter.new (getQueueRowPrefix md5 q) config transaction
  let decisions := filter.decisions (canConsumeEncoded deserializeHashKeys)
    (rows.map (EntryCells.scanned md5 q))
  ((rows.zip decisions).filter fun entry ↦ entry.2 = some true).map Prod.fst

/-- It is safe to start from the first row, if nothing can be written before it. -/
def advance (st : PopulateState) (row : Row) : PopulateState :=
  if st.firstScannedRow ∧ row.writePointer < transaction.firstInProgress then
    { st with firstScannedRow := false, scanStartRow := row }
  else st

/-- Is the entry included?  The scan start row may move. -/
def shouldInclude (st : PopulateState) (row : Row) (metaBytes : List UInt8)
    (stateBytes : Option (List UInt8)) : Bool × PopulateState :=
  match canConsume config transaction row (deserializeHashKeys metaBytes)
    (stateBytes.map decodeState) with
  | .noIncludingAllOlder => (false, { st with scanStartRow := row.next })
  | .no => (false, st)
  | .yes => (true, st)

/-- The loop over the rows of the scan. -/
def populateLoop (excludeRows : List Row) (numRows : Int) : List EntryCells → PopulateState →
    PopulateState
  | [], st => st
  | entry :: rest, st =>
    if st.entryCache.length < numRows then
      if entry.row ∈ excludeRows then populateLoop excludeRows numRows rest st
      else
        let st := advance transaction st entry.row
        if entry.row.writePointer > transaction.readPointer then st
        else if transaction.isExcluded entry.row.writePointer then populateLoop excludeRows
          numRows rest st
        else
          match entry.get dataColumn, entry.get metaColumn with
          | some dataBytes, some metaBytes =>
            let stateBytes := entry.get (stateColumn config.groupId)
            let (included, st) := shouldInclude deserializeHashKeys config transaction st entry.row
              metaBytes stateBytes
            if included then
              populateLoop excludeRows numRows rest { st with
                entryCache := SortedList.put SimpleQueueEntry.rowKey
                  ⟨entry.row, dataBytes, stateBytes.map decodeState⟩ st.entryCache }
            else populateLoop excludeRows numRows rest st
          | _, _ => populateLoop excludeRows numRows rest st
    else st

/-- `populateRowCache`, over all rows or those that a filter leaves. -/
def populateRowCache (filter : List EntryCells → List EntryCells) (table : QueueTable)
    (excludeRows : List Row) (numRows : Int) (entryCache : List SimpleQueueEntry)
    (scanStartRow : Row) : PopulateState :=
  let rows := filter (table.scan scanStartRow (getStopRowForTransaction transaction))
  populateLoop deserializeHashKeys config transaction excludeRows numRows rows
    ⟨entryCache, scanStartRow, true⟩

end Model

/-! ## What the filter sends -/

section Sent

variable {deserializeHashKeys : List UInt8 → HashKeys} {md5 : List UInt8 → UInt8} {q : QueueName}
  {config : ConsumerConfig} {tx : Transaction} {entry : EntryCells}

theorem writePointerOf_rowKey (md5 : List UInt8 → UInt8) (q : QueueName) (salt : UInt8) {row : Row}
    (h : Fits row) : writePointerOf ((getQueueRowPrefix md5 q).length + saltBytes)
    (salt :: rowKey md5 q row) = row.writePointer := by
  have hdrop : (salt :: rowKey md5 q row).drop ((getQueueRowPrefix md5 q).length + saltBytes) =
      toBytes 8 row.writePointer ++ toBytes 4 row.counter := by
    rw [saltBytes, drop_succ_cons, rowKey, append_assoc, drop_left]
  have htake : (toBytes 8 row.writePointer ++ toBytes 4 row.counter).take 8 =
    toBytes 8 row.writePointer :=
    take_left' (length_toBytes 8 row.writePointer)
  rw [writePointerOf, hdrop, htake, ofBytes_toBytes (h.writePointer.trans (by norm_num))]

theorem counter_rowKey (md5 : List UInt8 → UInt8) (q : QueueName) (salt : UInt8) {row : Row}
    (h : Fits row) : ofBytes (((salt :: rowKey md5 q row).drop
      ((salt :: rowKey md5 q row).length - 4)).take 4) = row.counter := by
  have hlen : (salt :: rowKey md5 q row).length - 4 =
      (salt :: (getQueueRowPrefix md5 q ++ toBytes 8 row.writePointer)).length := by
    rw [rowKey, length_cons, length_append, length_toBytes, length_cons]
    omega
  have htake : (toBytes 4 row.counter).take 4 = toBytes 4 row.counter :=
    take_of_length_le (length_toBytes 4 row.counter).le
  have hdrop : (salt :: rowKey md5 q row).drop ((salt :: rowKey md5 q row).length - 4) =
    toBytes 4 row.counter := by
    rw [hlen]
    exact drop_left
  rw [hdrop, htake, ofBytes_toBytes (h.counter.trans (by norm_num))]

theorem getCell_of_not_mem {cells : List Cell} {column : List UInt8}
    (h : column ∉ cells.map Cell.qualifier) : getCell cells column = none := by
  rw [getCell, Option.map_eq_none_iff, find?_eq_none]
  intro kv hkv heq
  exact h (mem_map.mpr ⟨kv, hkv, of_decide_eq_true heq⟩)

theorem getCell_cons (kv : Cell) (cells : List Cell) (column : List UInt8) :
    getCell (kv :: cells) column = if kv.qualifier = column then some kv.value
      else getCell cells column := by
  rw [getCell, find?_cons]
  by_cases h : kv.qualifier = column
  · rw [if_pos h, decide_eq_true h]
    rfl
  · rw [if_neg h, decide_eq_false h]
    rfl

/-- The columns the loop of the filter finds. -/
theorem columnsOf_eq {name : List UInt8} (hdata : name ≠ dataColumn) (hmeta : name ≠ metaColumn)
    (kvs : List Cell) (hnodup : (kvs.map Cell.qualifier).Nodup) (columns : DequeueFilter.Columns) :
    DequeueFilter.columnsOf (some name) kvs columns =
      some ⟨(getCell kvs dataColumn).or columns.dataBytes,
        (getCell kvs metaColumn).or columns.metaBytes,
        (getCell kvs name).or columns.stateBytes⟩ := by
  induction kvs generalizing columns with
  | nil => rfl
  | cons kv kvs ih =>
    obtain ⟨hnot, hnodup⟩ := nodup_cons.mp hnodup
    have hnone := getCell_of_not_mem hnot
    rw [DequeueFilter.columnsOf, getCell_cons, getCell_cons, getCell_cons]
    by_cases h1 : kv.qualifier = dataColumn
    · have hne : dataColumn ≠ metaColumn := by decide
      rw [h1] at hnone
      simp [h1, hne, hdata.symm, ih hnodup, hnone]
    · by_cases h2 : kv.qualifier = metaColumn
      · have hne : metaColumn ≠ dataColumn := by decide
        rw [h2] at hnone
        simp [h2, hne, hmeta.symm, ih hnodup, hnone]
      · by_cases h3 : kv.qualifier = name
        · rw [h3] at hnone
          simp [h3, hdata, hmeta, ih hnodup, hnone]
        · simp [h1, h2, h3, ih hnodup]

theorem stateColumn_ne (groupId : Nat) : stateColumn groupId ≠ dataColumn ∧
    stateColumn groupId ≠ metaColumn :=
  ⟨fun h ↦ absurd (cons.inj h).1 (by decide), fun h ↦ absurd (cons.inj h).1 (by decide)⟩

/-- The answer of `canConsume` for a row that has an entry. -/
def consult (deserializeHashKeys : List UInt8 → HashKeys) (config : ConsumerConfig)
    (tx : Transaction) (entry : EntryCells) : Option CanConsume :=
  match entry.get dataColumn, entry.get metaColumn with
  | some _, some metaBytes =>
    some (canConsume config tx entry.row (deserializeHashKeys metaBytes)
      ((entry.get (stateColumn config.groupId)).map decodeState))
  | _, _ => none

/-- The row may be taken, or lets the start row move. -/
def Sent (deserializeHashKeys : List UInt8 → HashKeys) (config : ConsumerConfig) (tx : Transaction)
    (entry : EntryCells) : Prop :=
  (entry.row.writePointer ≤ tx.readPointer ∧ tx.isExcluded entry.row.writePointer = false) ∧
    (consult deserializeHashKeys config tx entry = some .yes ∨
      consult deserializeHashKeys config tx entry = some .noIncludingAllOlder)

instance (deserializeHashKeys : List UInt8 → HashKeys) (config : ConsumerConfig) (tx : Transaction)
    (entry : EntryCells) : Decidable (Sent deserializeHashKeys config tx entry) :=
  inferInstanceAs (Decidable ((_ ∧ _) ∧ (_ ∨ _)))

/-- What the filter decides about a row of the queue. -/
theorem decision_scanned (deserializeHashKeys : List UInt8 → HashKeys) (md5 : List UInt8 → UInt8)
    (q : QueueName) (config : ConsumerConfig) (tx : Transaction) (entry : EntryCells) :
    (DequeueFilter.new (getQueueRowPrefix md5 q) config tx).decision
        (canConsumeEncoded deserializeHashKeys) (entry.scanned md5 q) =
      some (decide (Sent deserializeHashKeys config tx entry)) := by
  have hwrite := writePointerOf_rowKey md5 q entry.salt entry.fits
  have hcounter := counter_rowKey md5 q entry.salt entry.fits
  obtain ⟨hdata, hmeta⟩ := stateColumn_ne config.groupId
  have hcolumns := columnsOf_eq hdata hmeta entry.cells entry.nodup ⟨none, none, none⟩
  have hreaches : Reaches (DequeueFilter.new (getQueueRowPrefix md5 q) config tx)
      (entry.scanned md5 q) ↔ entry.row.writePointer ≤ tx.readPointer ∧
        tx.isExcluded entry.row.writePointer = false := by
    rw [Reaches, EntryCells.scanned, DequeueFilter.new]
    dsimp only
    rw [hwrite]
  rw [DequeueFilter.decision]
  by_cases h : entry.row.writePointer ≤ tx.readPointer ∧
    tx.isExcluded entry.row.writePointer = false
  · rw [if_pos (hreaches.mpr h)]
    have hanswer : ∃ sent, DequeueFilter.answer (canConsumeEncoded deserializeHashKeys)
        (DequeueFilter.new (getQueueRowPrefix md5 q) config tx) (entry.scanned md5 q).key
        ⟨getCell entry.cells dataColumn, getCell entry.cells metaColumn,
          getCell entry.cells (stateColumn config.groupId)⟩ = some sent ∧
        (sent = true ↔ Sent deserializeHashKeys config tx entry) := by
      unfold DequeueFilter.answer Sent consult EntryCells.get
      cases getCell entry.cells dataColumn with
      | none => exact ⟨false, rfl, by simp⟩
      | some dataBytes =>
        cases getCell entry.cells metaColumn with
        | none => exact ⟨false, rfl, by simp⟩
        | some metaBytes =>
          rw [EntryCells.scanned, DequeueFilter.new]
          dsimp only [canConsumeEncoded]
          rw [hwrite, hcounter]
          cases canConsume config tx entry.row (deserializeHashKeys metaBytes)
              (Option.map decodeState (getCell entry.cells (stateColumn config.groupId))) with
          | yes => exact ⟨true, rfl, by simp [h]⟩
          | no => exact ⟨false, rfl, by simp⟩
          | noIncludingAllOlder => exact ⟨true, rfl, by simp [h]⟩
    obtain ⟨sent, hanswer, hsent⟩ := hanswer
    refine (congrArg (Option.bind · _) hcolumns).trans ?_
    simp only [Option.or_none, Option.bind_some]
    rw [hanswer, Option.some.injEq, Bool.eq_iff_iff, decide_eq_true_iff]
    exact hsent
  · rw [if_neg fun hr ↦ h (hreaches.mp hr), decide_eq_false fun hs ↦ h hs.1]

/-- **The filter sends the rows the consumer may take**, and those that let it move its start
row. -/
theorem filteredScan_eq (deserializeHashKeys : List UInt8 → HashKeys) (md5 : List UInt8 → UInt8)
    (q : QueueName) (config : ConsumerConfig) (tx : Transaction) (rows : List EntryCells) :
    filteredScan deserializeHashKeys md5 q config tx rows =
      rows.filter fun entry ↦ Sent deserializeHashKeys config tx entry := by
  rw [filteredScan, DequeueFilter.decisions_eq (.refl _)]
  induction rows with
  | nil => rfl
  | cons entry rows ih =>
    rw [map_cons, DequeueFilter.decideUntil, decision_scanned]
    dsimp only
    rw [zip_cons_cons, filter_cons, filter_cons]
    by_cases h : Sent deserializeHashKeys config tx entry
    · rw [if_pos (by simp [h]), if_pos (by simp [h]), map_cons]
      exact congrArg _ ih
    · rw [if_neg (by simp [h]), if_neg (by simp [h])]
      exact ih

end Sent

/-! ## The two loops -/

section Loops

variable {deserializeHashKeys : List UInt8 → HashKeys} {config : ConsumerConfig} {tx : Transaction}
  {excludeRows : List Row} {numRows : Int} {all done rest : List EntryCells} {x : EntryCells}
  {st st' : PopulateState}

/-- An entry as it is cached. -/
def fetchedEntry (config : ConsumerConfig) (entry : EntryCells) : SimpleQueueEntry :=
  ⟨entry.row, (entry.get dataColumn).getD [],
    (entry.get (stateColumn config.groupId)).map decodeState⟩

/-- What the loop does for a row it does not skip. -/
def visit (deserializeHashKeys : List UInt8 → HashKeys) (config : ConsumerConfig) (tx : Transaction)
    (st : PopulateState) (entry : EntryCells) : PopulateState :=
  let st := advance tx st entry.row
  if tx.isExcluded entry.row.writePointer then st
  else
    match consult deserializeHashKeys config tx entry with
    | some .yes =>
      { st with
        entryCache := SortedList.put SimpleQueueEntry.rowKey (fetchedEntry config entry)
          st.entryCache }
    | some .noIncludingAllOlder => { st with scanStartRow := entry.row.next }
    | _ => st

theorem populateLoop_full (h : ¬ st.entryCache.length < numRows) (rows : List EntryCells) :
    populateLoop deserializeHashKeys config tx excludeRows numRows rows st = st := by
  cases rows with
  | nil => rfl
  | cons entry rows => rw [populateLoop, if_neg h]

theorem populateLoop_cons (hlt : st.entryCache.length < numRows)
    (hread : x.row.writePointer ≤ tx.readPointer) : populateLoop deserializeHashKeys config tx
      excludeRows numRows (x :: rest) st = populateLoop deserializeHashKeys config tx
        excludeRows numRows rest (if x.row ∈ excludeRows then st else visit deserializeHashKeys
          config tx st x) := by
  rw [populateLoop, if_pos hlt]
  by_cases hex : x.row ∈ excludeRows
  · rw [if_pos hex, if_pos hex]
  · rw [if_neg hex, if_neg hex, visit]
    dsimp only
    rw [if_neg (not_lt.mpr hread)]
    by_cases hexcl : tx.isExcluded x.row.writePointer = true
    · rw [if_pos hexcl, if_pos hexcl]
    · rw [if_neg hexcl, if_neg hexcl, consult, fetchedEntry]
      cases x.get dataColumn with
      | none => rfl
      | some dataBytes =>
        cases x.get metaColumn with
        | none => rfl
        | some metaBytes =>
          dsimp only
          rw [shouldInclude]
          cases canConsume config tx x.row (deserializeHashKeys metaBytes)
              ((x.get (stateColumn config.groupId)).map decodeState) with
          | yes => rfl
          | no => rfl
          | noIncludingAllOlder => rfl

/-- Before the row there are only rows that are excluded, and old ones that the filter does not
send. -/
def Early (deserializeHashKeys : List UInt8 → HashKeys) (config : ConsumerConfig) (tx : Transaction)
    (excludeRows : List Row) (all : List EntryCells) (row : Row) : Prop :=
  ∀ y ∈ all, y.row < row → y.row ∈ excludeRows ∨ y.row.writePointer ≤ tx.readPointer ∧
    ¬ Sent deserializeHashKeys config tx y ∧ y.row.writePointer < tx.firstInProgress

/-- How the loop over all rows (`st`) and the loop over those that are sent (`st'`) stand to each
other, when the rows of `done` are behind them. -/
structure Inv (deserializeHashKeys : List UInt8 → HashKeys) (config : ConsumerConfig)
    (tx : Transaction) (excludeRows : List Row) (all done : List EntryCells)
    (st st' : PopulateState) : Prop where
  cache : st'.entryCache = st.entryCache
  first : st.firstScannedRow = true → ∀ y ∈ done,
    y.row ∈ excludeRows ∨ tx.firstInProgress ≤ y.row.writePointer
  first' : st'.firstScannedRow = true → ∀ y ∈ done, y.row ∈ excludeRows ∨
    ¬ Sent deserializeHashKeys config tx y ∨ tx.firstInProgress ≤ y.row.writePointer
  moved : st'.firstScannedRow = false → ∃ y ∈ done,
    y.row ∉ excludeRows ∧ y.row.writePointer < tx.firstInProgress
  unmoved : st'.firstScannedRow = true → Early deserializeHashKeys config tx excludeRows all
    st'.scanStartRow ∨ ∃ y ∈ done, tx.firstInProgress ≤ y.row.writePointer
  scan : st'.scanStartRow = st.scanStartRow ∨
    Early deserializeHashKeys config tx excludeRows all st.scanStartRow ∧
      Early deserializeHashKeys config tx excludeRows all st'.scanStartRow

/-- A row of the scan, after those that are done. -/
structure Next (all done : List EntryCells) (x : EntryCells) : Prop where
  mem : ∀ y ∈ all, y.row < x.row → y ∈ done
  le : ∀ y ∈ done, y.row.writePointer ≤ x.row.writePointer

theorem next_of_sorted (hsorted : SortedList.Sorted EntryCells.row (done ++ x :: rest)) :
    Next (done ++ x :: rest) done x := by
  obtain ⟨-, htail, hdone⟩ := pairwise_append.mp hsorted
  refine ⟨fun y hy hlt ↦ ?_, fun y hy ↦ Row.writePointer_mono (hdone y hy x mem_cons_self).le⟩
  rcases mem_append.mp hy with hy | hy
  · exact hy
  · rcases mem_cons.mp hy with rfl | hy
    · exact absurd hlt (lt_irrefl _)
    · exact absurd (hlt.trans ((pairwise_cons.mp htail).1 y hy)) (lt_irrefl _)

theorem Next.early (h : Next all done x) (hread : x.row.writePointer ≤ tx.readPointer)
    (hdone : ∀ y ∈ done, y.row ∈ excludeRows ∨
      ¬ Sent deserializeHashKeys config tx y ∧ y.row.writePointer < tx.firstInProgress) :
    Early deserializeHashKeys config tx excludeRows all x.row := by
  intro y hy hlt
  have hmem := h.mem y hy hlt
  exact (hdone y hmem).imp_right fun hy ↦ ⟨(h.le y hmem).trans hread, hy⟩

/-- A row that is excluded changes nothing. -/
theorem Inv.exclude (h : Inv deserializeHashKeys config tx excludeRows all done st st')
    (hx : x.row ∈ excludeRows) : Inv deserializeHashKeys config tx excludeRows all (done ++ [x])
      st st' where
  cache := h.cache
  first := fun hf ↦ forall_mem_append.mpr
    ⟨h.first hf, forall_mem_singleton.mpr (.inl hx)⟩
  first' := fun hf ↦ forall_mem_append.mpr
    ⟨h.first' hf, forall_mem_singleton.mpr (.inl hx)⟩
  moved := fun hf ↦ by
    obtain ⟨y, hy, hyx⟩ := h.moved hf
    exact ⟨y, mem_append_left _ hy, hyx⟩
  unmoved := fun hf ↦ (h.unmoved hf).imp_right fun ⟨y, hy, hyx⟩ ↦
    ⟨y, mem_append_left _ hy, hyx⟩
  scan := h.scan

theorem advance_eq (tx : Transaction) (st : PopulateState) (row : Row) :
    (st.firstScannedRow = true ∧ row.writePointer < tx.firstInProgress ∧
      advance tx st row = { st with firstScannedRow := false, scanStartRow := row }) ∨
    ((st.firstScannedRow = false ∨ tx.firstInProgress ≤ row.writePointer) ∧
      advance tx st row = st) := by
  rw [advance]
  by_cases h : st.firstScannedRow = true ∧ row.writePointer < tx.firstInProgress
  · exact .inl ⟨h.1, h.2, if_pos h⟩
  · refine .inr ⟨?_, if_neg h⟩
    rw [← not_lt, ← Bool.not_eq_true, ← not_and_or]
    exact h

theorem advance_of_le (h : tx.firstInProgress ≤ x.row.writePointer) : advance tx st x.row = st :=
  if_neg fun hlt ↦ absurd hlt.2 (not_lt.mpr h)

theorem advance_of_false (h : st.firstScannedRow = false) : advance tx st x.row = st :=
  if_neg fun hlt ↦ Bool.false_ne_true (h.symm.trans hlt.1)

theorem advance_of_true (h : st.firstScannedRow = true)
    (hlt : x.row.writePointer < tx.firstInProgress) : advance tx st x.row =
    { st with firstScannedRow := false, scanStartRow := x.row } := if_pos ⟨h, hlt⟩

/-- Once the loop over sent rows has moved its scan start row, so has the other one. -/
theorem Inv.first_eq_false (h : Inv deserializeHashKeys config tx excludeRows all done st st')
    (hf' : st'.firstScannedRow = false) : st.firstScannedRow = false := by
  by_contra hf
  obtain ⟨y, hy, hex, hlt⟩ := h.moved hf'
  rcases h.first (Bool.eq_true_of_not_eq_false hf) y hy with hin | hle
  · exact hex hin
  · exact absurd hlt (not_lt.mpr hle)

/-- Until then its scan start row is early, at an old row. -/
theorem Inv.early (h : Inv deserializeHashKeys config tx excludeRows all done st st')
    (hnext : Next all done x) (hlt : x.row.writePointer < tx.firstInProgress)
    (hf' : st'.firstScannedRow = true) :
    Early deserializeHashKeys config tx excludeRows all st'.scanStartRow := by
  refine (h.unmoved hf').resolve_right ?_
  rintro ⟨y, hy, hle⟩
  have := hnext.le y hy
  omega

/-- A row that is not sent. -/
theorem Inv.visit_refused (h : Inv deserializeHashKeys config tx excludeRows all done st st')
    (hnext : Next all done x) (hread : x.row.writePointer ≤ tx.readPointer)
    (hsent : ¬ Sent deserializeHashKeys config tx x) :
    Inv deserializeHashKeys config tx excludeRows all (done ++ [x]) (advance tx st x.row) st' := by
  have hmoved : st'.firstScannedRow = false → ∃ y ∈ done ++ [x],
      y.row ∉ excludeRows ∧ y.row.writePointer < tx.firstInProgress := fun hf ↦ by
    obtain ⟨y, hy, hyx⟩ := h.moved hf
    exact ⟨y, mem_append_left _ hy, hyx⟩
  have hunmoved : st'.firstScannedRow = true →
      Early deserializeHashKeys config tx excludeRows all st'.scanStartRow ∨
        ∃ y ∈ done ++ [x], tx.firstInProgress ≤ y.row.writePointer := fun hf ↦
    (h.unmoved hf).imp_right fun ⟨y, hy, hyx⟩ ↦ ⟨y, mem_append_left _ hy, hyx⟩
  have hfirst' : st'.firstScannedRow = true → ∀ y ∈ done ++ [x], y.row ∈ excludeRows ∨
      ¬ Sent deserializeHashKeys config tx y ∨ tx.firstInProgress ≤ y.row.writePointer := fun hf ↦
    forall_mem_append.mpr ⟨h.first' hf, forall_mem_singleton.mpr (.inr (.inl hsent))⟩
  rcases advance_eq tx st x.row with ⟨hf, hlt, hadv⟩ | ⟨hor, hadv⟩
  · rw [hadv]
    have hf' : st'.firstScannedRow = true := by
      by_contra hf'
      exact Bool.false_ne_true ((h.first_eq_false (Bool.eq_false_of_not_eq_true hf')).symm.trans hf)
    refine ⟨h.cache, fun hfalse ↦ (Bool.false_ne_true hfalse).elim, hfirst', hmoved, hunmoved,
      .inr ⟨hnext.early hread fun y hy ↦ ?_, h.early hnext hlt hf'⟩⟩
    -- the first row of the scan
    rcases h.first hf y hy with hin | hle
    · exact .inl hin
    · have := hnext.le y hy
      omega
  · rw [hadv]
    refine ⟨h.cache, fun hf ↦ ?_, hfirst', hmoved, hunmoved, h.scan⟩
    have hle := hor.resolve_left fun hfalse ↦ Bool.false_ne_true (hfalse.symm.trans hf)
    exact forall_mem_append.mpr ⟨h.first hf, forall_mem_singleton.mpr (.inr hle)⟩

/-- A row that is sent. -/
theorem Inv.visit_sent (h : Inv deserializeHashKeys config tx excludeRows all done st st')
    (hnext : Next all done x) (hread : x.row.writePointer ≤ tx.readPointer)
    (hex : x.row ∉ excludeRows) :
    Inv deserializeHashKeys config tx excludeRows all (done ++ [x]) (advance tx st x.row)
      (advance tx st' x.row) := by
  by_cases hlt : x.row.writePointer < tx.firstInProgress
  · have hx : ∃ y ∈ done ++ [x], y.row ∉ excludeRows ∧ y.row.writePointer < tx.firstInProgress :=
      ⟨x, mem_append_right _ mem_cons_self, hex, hlt⟩
    cases hf' : st'.firstScannedRow with
    | true =>
      rw [advance_of_true hf' hlt]
      cases hf : st.firstScannedRow with
      | true =>
        rw [advance_of_true hf hlt]
        exact ⟨h.cache, fun hfalse ↦ (Bool.false_ne_true hfalse).elim,
          fun hfalse ↦ (Bool.false_ne_true hfalse).elim, fun _ ↦ hx,
            fun hfalse ↦ (Bool.false_ne_true hfalse).elim, .inl rfl⟩
      | false =>
        rw [advance_of_false hf]
        refine ⟨h.cache, fun hfalse ↦ (Bool.false_ne_true (hf.symm.trans hfalse)).elim,
          fun hfalse ↦ (Bool.false_ne_true hfalse).elim, fun _ ↦ hx,
            fun hfalse ↦ (Bool.false_ne_true hfalse).elim,
          .inr ⟨?_, hnext.early hread fun y hy ↦ ?_⟩⟩
        · have hearly := h.early hnext hlt hf'
          rcases h.scan with heq | hboth
          · rwa [← heq]
          · exact hboth.1
        · have hle := hnext.le y hy
          rcases h.first' hf' y hy with hin | hnot | hfirst
          · exact .inl hin
          · exact .inr ⟨hnot, by omega⟩
          · omega
    | false =>
      have hf := h.first_eq_false hf'
      rw [advance_of_false hf', advance_of_false hf]
      exact ⟨h.cache, fun hfalse ↦ (Bool.false_ne_true (hf.symm.trans hfalse)).elim,
        fun hfalse ↦ (Bool.false_ne_true (hf'.symm.trans hfalse)).elim, fun _ ↦ hx,
        fun hfalse ↦ (Bool.false_ne_true (hf'.symm.trans hfalse)).elim, h.scan⟩
  · have hle := not_lt.mp hlt
    rw [advance_of_le hle, advance_of_le hle]
    exact {
      cache := h.cache
      first := fun hf ↦ forall_mem_append.mpr
        ⟨h.first hf, forall_mem_singleton.mpr (.inr hle)⟩
      first' := fun hf ↦ forall_mem_append.mpr
        ⟨h.first' hf, forall_mem_singleton.mpr (.inr (.inr hle))⟩
      moved := fun hf ↦ by
        obtain ⟨y, hy, hyx⟩ := h.moved hf
        exact ⟨y, mem_append_left _ hy, hyx⟩
      unmoved := fun _ ↦ .inr ⟨x, mem_append_right _ mem_cons_self, hle⟩
      scan := h.scan }

/-- The scan start row may only still be where it was at a row that is not old. -/
theorem le_of_advance_first (h : (advance tx st x.row).firstScannedRow = true) :
    tx.firstInProgress ≤ x.row.writePointer := by
  rcases advance_eq tx st x.row with ⟨-, -, hadv⟩ | ⟨hor, hadv⟩
  · rw [hadv] at h
    cases h
  · rw [hadv] at h
    exact hor.resolve_left fun hfalse ↦ Bool.false_ne_true (hfalse.symm.trans h)

theorem Inv.put (h : Inv deserializeHashKeys config tx excludeRows all done st st')
    (e : SimpleQueueEntry) : Inv deserializeHashKeys config tx excludeRows all done
      { st with entryCache := SortedList.put SimpleQueueEntry.rowKey e st.entryCache }
      { st' with entryCache := SortedList.put SimpleQueueEntry.rowKey e st'.entryCache } :=
  ⟨congrArg (SortedList.put SimpleQueueEntry.rowKey e) h.cache, h.first, h.first', h.moved,
    h.unmoved, h.scan⟩

/-- Both move to a row after a processed entry. -/
theorem Inv.move (h : Inv deserializeHashKeys config tx excludeRows all done st st') (row : Row)
    (hold : st'.firstScannedRow = true → ∃ y ∈ done, tx.firstInProgress ≤ y.row.writePointer) :
    Inv deserializeHashKeys config tx excludeRows all done { st with scanStartRow := row }
      { st' with scanStartRow := row } :=
  ⟨h.cache, h.first, h.first', h.moved, fun hf ↦ .inr (hold hf), .inl rfl⟩

theorem Inv.visit (h : Inv deserializeHashKeys config tx excludeRows all done st st')
    (hnext : Next all done x) (hex : x.row ∉ excludeRows)
    (hsent : Sent deserializeHashKeys config tx x) :
    Inv deserializeHashKeys config tx excludeRows all (done ++ [x])
      (visit deserializeHashKeys config tx st x) (visit deserializeHashKeys config tx st' x) := by
  have hadv := h.visit_sent hnext hsent.1.1 hex
  have hexcl : ¬ tx.isExcluded x.row.writePointer = true :=
    by rw [hsent.1.2]; exact Bool.false_ne_true
  rw [Hbase.visit, Hbase.visit, if_neg hexcl, if_neg hexcl]
  rcases hsent.2 with hyes | holder
  · rw [hyes]
    exact hadv.put (fetchedEntry config x)
  · rw [holder]
    exact hadv.move x.row.next fun hf ↦
      ⟨x, mem_append_right _ mem_cons_self, le_of_advance_first hf⟩

theorem visit_of_not_sent (hread : x.row.writePointer ≤ tx.readPointer)
    (hsent : ¬ Sent deserializeHashKeys config tx x) :
    visit deserializeHashKeys config tx st x = advance tx st x.row := by
  rw [Hbase.visit]
  by_cases hexcl : tx.isExcluded x.row.writePointer = true
  · rw [if_pos hexcl]
  · rw [if_neg hexcl]
    have hnot := fun h ↦ hsent ⟨⟨hread, Bool.eq_false_of_not_eq_true hexcl⟩, h⟩
    cases hc : consult deserializeHashKeys config tx x with
    | none => rfl
    | some answer =>
      cases answer with
      | yes => exact absurd (.inl hc) hnot
      | no => rfl
      | noIncludingAllOlder => exact absurd (.inr hc) hnot

/-- **The two loops end alike.** -/
theorem Inv.run (numRows : Int) {beyond : List EntryCells}
    (hsorted : SortedList.Sorted EntryCells.row all)
    (hread : ∀ y ∈ rest, y.row.writePointer ≤ tx.readPointer)
    (hall : all = done ++ (rest ++ beyond))
    (h : Inv deserializeHashKeys config tx excludeRows all done st st') :
    ∃ done', Inv deserializeHashKeys config tx excludeRows all done'
      (populateLoop deserializeHashKeys config tx excludeRows numRows rest st)
      (populateLoop deserializeHashKeys config tx excludeRows numRows
        (rest.filter fun entry ↦ Sent deserializeHashKeys config tx entry) st') := by
  induction rest generalizing done st st' with
  | nil => exact ⟨done, h⟩
  | cons x rest ih =>
    by_cases hlt : st.entryCache.length < numRows
    · have hnext : Next all done x := by
        rw [hall] at hsorted ⊢
        exact next_of_sorted hsorted
      have hx : x.row.writePointer ≤ tx.readPointer := hread x mem_cons_self
      have hrest : ∀ y ∈ rest, y.row.writePointer ≤ tx.readPointer := fun y hy ↦
        hread y (mem_cons_of_mem _ hy)
      have hlt' : st'.entryCache.length < numRows := by rwa [h.cache]
      have hall' : all = done ++ [x] ++ (rest ++ beyond) := by rw [hall, append_assoc]; rfl
      rw [populateLoop_cons hlt hx, filter_cons]
      by_cases hsent : Sent deserializeHashKeys config tx x
      · rw [if_pos (decide_eq_true hsent), populateLoop_cons hlt' hx]
        by_cases hex : x.row ∈ excludeRows
        · rw [if_pos hex, if_pos hex]
          exact ih hrest hall' (h.exclude hex)
        · rw [if_neg hex, if_neg hex]
          exact ih hrest hall' (h.visit hnext hex hsent)
      · rw [if_neg fun hd ↦ hsent (of_decide_eq_true hd)]
        by_cases hex : x.row ∈ excludeRows
        · rw [if_pos hex]
          exact ih hrest hall' (h.exclude hex)
        · rw [if_neg hex, visit_of_not_sent hx hsent]
          exact ih hrest hall' (h.visit_refused hnext hx hsent)
    · have hlt' : ¬ st'.entryCache.length < numRows := by rwa [h.cache]
      rw [populateLoop_full hlt, populateLoop_full hlt']
      exact ⟨done, h⟩

end Loops

/-! ## Transparency -/

section Transparent

variable {deserializeHashKeys : List UInt8 → HashKeys} {md5 : List UInt8 → UInt8} {q : QueueName}
  {config : ConsumerConfig} {tx : Transaction} {table : QueueTable} {excludeRows : List Row}
    {numRows : Int}
  {entryCache : List SimpleQueueEntry} {scanStartRow : Row}

/-- An entry that is not processed, as the transaction sees it. -/
structure Unprocessed (deserializeHashKeys : List UInt8 → HashKeys) (config : ConsumerConfig)
    (tx : Transaction) (entry : EntryCells) : Prop where
  complete : ∃ dataBytes metaBytes, entry.get dataColumn = some dataBytes ∧ entry.get metaColumn =
    some metaBytes
  valid : entry.row.writePointer ∉ tx.invalids
  state : ∀ value, entry.get (stateColumn config.groupId) = some value →
    ¬ ((decodeState value).state = .processed ∧
      tx.isVisible (decodeState value).writePointer = true)

/-- An unprocessed entry that is up to the consumer: it owns the entry, no other instance of a FIFO
group holds it, and the transaction has not taken it. -/
structure Due (deserializeHashKeys : List UInt8 → HashKeys) (config : ConsumerConfig)
    (tx : Transaction) (entry : EntryCells) : Prop extends Unprocessed deserializeHashKeys config
      tx entry where
  owned : ∀ metaBytes, entry.get metaColumn = some metaBytes →
    config.owns entry.row (deserializeHashKeys metaBytes) = true
  free : ∀ value, entry.get (stateColumn config.groupId) = some value →
    (decodeState value).writePointer ≠ tx.writePointer ∧
      (config.dequeueStrategy = .fifo → (decodeState value).instanceId < config.groupSize →
        (decodeState value).instanceId = config.instanceId)

/-- The scan start row has passed none of the entries, but those that are cached or being
consumed. -/
def Safe (entries : EntryCells → Prop) (table : QueueTable) (excludeRows : List Row) (start : Row)
    (st : PopulateState) : Prop :=
  ∀ y ∈ table.rows, start ≤ y.row → y.row < st.scanStartRow → entries y →
    y.row ∈ excludeRows ∨ y.row ∈ st.entryCache.map SimpleQueueEntry.rowKey

/-- What the filter does not send, among old rows, is not due. -/
theorem not_due (hsorted : tx.inProgress.Pairwise (· < ·)) {y : EntryCells}
    (hread : y.row.writePointer ≤ tx.readPointer) (hfirst : y.row.writePointer < tx.firstInProgress)
    (hsent : ¬ Sent deserializeHashKeys config tx y) : ¬ Due deserializeHashKeys config tx y := by
  intro hdue
  obtain ⟨dataBytes, metaBytes, hdata, hmeta⟩ := hdue.complete
  have hvisible : tx.isExcluded y.row.writePointer = false := by
    have hin : y.row.writePointer ∉ tx.inProgress := fun hin ↦
      absurd hfirst (not_lt.mpr (Transaction.firstInProgress_le hsorted hin))
    rw [Transaction.isExcluded, Bool.or_eq_false_iff, ← Bool.not_eq_true, ← Bool.not_eq_true,
      contains_iff_mem, contains_iff_mem]
    exact ⟨hin, hdue.valid⟩
  have hconsult : consult deserializeHashKeys config tx y = some (canConsume config tx y.row
      (deserializeHashKeys metaBytes) ((y.get (stateColumn config.groupId)).map decodeState)) := by
    rw [consult, hdata, hmeta]
  cases hanswer : canConsume config tx y.row (deserializeHashKeys metaBytes)
      ((y.get (stateColumn config.groupId)).map decodeState) with
  | yes => exact hsent ⟨⟨hread, hvisible⟩, .inl (hconsult.trans (congrArg some hanswer))⟩
  | noIncludingAllOlder =>
    exact hsent ⟨⟨hread, hvisible⟩, .inr (hconsult.trans (congrArg some hanswer))⟩
  | no =>
    obtain ⟨st, hst, hreason⟩ := canConsume_no hanswer (hdue.owned metaBytes hmeta)
    obtain ⟨value, hvalue, rfl⟩ := Option.map_eq_some_iff.mp hst
    rcases hreason with hown | ⟨hfifo, hlt, hne⟩ | hprocessed
    · exact (hdue.free value hvalue).1 hown
    · exact hne ((hdue.free value hvalue).2 hfifo hlt)
    · exact hdue.state value hvalue hprocessed

/-- Rows before the stop row come first. -/
theorem filter_lt_append {rows : List EntryCells} (hsorted : SortedList.Sorted EntryCells.row rows)
    (stop : Row) : rows = rows.filter (fun r ↦ r.row < stop) ++ rows.filter fun r ↦
      ¬ r.row < stop := by
  induction rows with
  | nil => rfl
  | cons r rows ih =>
    obtain ⟨hr, htail⟩ := pairwise_cons.mp hsorted
    by_cases h : r.row < stop
    · rw [filter_cons, if_pos (decide_eq_true h), filter_cons, if_neg (by simpa using h),
        cons_append, ← ih htail]
    · have hnil : rows.filter (fun r ↦ r.row < stop) = [] := by
        rw [filter_eq_nil_iff]
        intro y hy hlt
        exact h ((hr y hy).trans (of_decide_eq_true hlt))
      rw [filter_cons, if_neg (by simpa using h), hnil, nil_append, eq_comm,
        filter_eq_self]
      intro y hy
      refine decide_eq_true fun hlt ↦ ?_
      rcases mem_cons.mp hy with rfl | hy
      · exact h hlt
      · exact h ((hr y hy).trans hlt)

/-- **The filter is transparent**: what is cached is the same with and without it, and the scan
start row is as safe for the entries that are up to the consumer. -/
theorem populate_filtered (deserializeHashKeys : List UInt8 → HashKeys) (md5 : List UInt8 → UInt8)
    (q : QueueName) (config : ConsumerConfig) (hsorted : tx.inProgress.Pairwise (· < ·))
    (table : QueueTable)
    (excludeRows : List Row) (numRows : Int) (entryCache : List SimpleQueueEntry)
    (scanStartRow : Row) :
    (populateRowCache deserializeHashKeys config tx
        (filteredScan deserializeHashKeys md5 q config tx) table excludeRows numRows entryCache
          scanStartRow).entryCache =
      (populateRowCache deserializeHashKeys config tx id table excludeRows numRows entryCache
        scanStartRow).entryCache ∧
    (Safe (Due deserializeHashKeys config tx) table excludeRows scanStartRow
        (populateRowCache deserializeHashKeys config tx
          (filteredScan deserializeHashKeys md5 q config tx) table excludeRows numRows entryCache
            scanStartRow) ↔
      Safe (Due deserializeHashKeys config tx) table excludeRows scanStartRow
        (populateRowCache deserializeHashKeys config tx id table excludeRows numRows entryCache
          scanStartRow)) := by
  have hrows : SortedList.Sorted EntryCells.row (table.rows.filter fun r ↦ scanStartRow ≤ r.row) :=
    table.sorted.filter _
  have hscan : table.scan scanStartRow (getStopRowForTransaction tx) =
      (table.rows.filter fun r ↦ scanStartRow ≤ r.row).filter fun r ↦ r.row <
        getStopRowForTransaction tx := by
    rw [QueueTable.scan, filter_filter]
    exact filter_congr fun r _ ↦ by rw [Bool.decide_and, Bool.and_comm]
  have hread : ∀ y ∈ table.scan scanStartRow (getStopRowForTransaction tx),
      y.row.writePointer ≤ tx.readPointer := by
    intro y hy
    have hlt := (of_decide_eq_true (mem_filter.mp hy).2).2
    rw [getStopRowForTransaction, Row.lt_def] at hlt
    dsimp only at hlt
    omega
  have hinit : Inv deserializeHashKeys config tx excludeRows
      (table.rows.filter fun r ↦ scanStartRow ≤ r.row) [] ⟨entryCache, scanStartRow, true⟩
        ⟨entryCache, scanStartRow, true⟩ :=
    ⟨rfl, fun _ y hy ↦ (by cases hy), fun _ y hy ↦ (by cases hy), fun h ↦ (by cases h),
      fun _ ↦ .inl fun y hy hlt ↦ absurd hlt
        (not_lt.mpr (of_decide_eq_true (mem_filter.mp hy).2)), .inl rfl⟩
  obtain ⟨done, hinv⟩ := hinit.run numRows hrows hread (by
    rw [nil_append, hscan]
    exact filter_lt_append hrows _)
  rw [populateRowCache, populateRowCache, filteredScan_eq, id_eq]
  refine ⟨hinv.cache, ?_⟩
  -- an early scan start row is safe
  have hsafe : ∀ st : PopulateState, Early deserializeHashKeys config tx excludeRows
      (table.rows.filter fun r ↦ scanStartRow ≤ r.row) st.scanStartRow →
      Safe (Due deserializeHashKeys config tx) table excludeRows scanStartRow st := by
    intro st hearly y hy hle hlt hdue
    rcases hearly y (mem_filter.mpr ⟨hy, decide_eq_true hle⟩) hlt
      with hin | ⟨hread, hsent, hfirst⟩
    · exact .inl hin
    · exact absurd hdue (not_due hsorted hread hfirst hsent)
  rcases hinv.scan with heq | ⟨hplain, hfiltered⟩
  · rw [Safe, Safe, heq, hinv.cache]
  · exact iff_of_true (hsafe _ hfiltered) (hsafe _ hplain)

/-- The first of two instances of a FIFO group. -/
def firstOfTwo : ConsumerConfig := ⟨0, 0, 2, .fifo, none⟩

/-- A transaction that sees the first three. -/
def fourthTx : Transaction := ⟨3, 4, [], [], noTxInProgress⟩

/-- An entry that the second instance has claimed. -/
def claimedEntry : EntryCells where
  row := ⟨1, 0⟩
  fits := ⟨by decide, by decide⟩
  salt := 0
  cells := [⟨dataColumn, [7]⟩, ⟨metaColumn, [0]⟩,
    ⟨stateColumn 0, toBytes 8 2 ++ toBytes 4 1 ++ [1]⟩]
  nodup := by decide

/-- An entry that nobody has claimed. -/
def freeEntry : EntryCells where
  row := ⟨3, 0⟩
  fits := ⟨by decide, by decide⟩
  salt := 1
  cells := [⟨dataColumn, [8]⟩, ⟨metaColumn, [0]⟩]
  nodup := by decide

def twoEntries : QueueTable := ⟨[claimedEntry, freeEntry], by
  rw [SortedList.Sorted]
  decide⟩

theorem populate_filtered_twoEntries :
    (populateRowCache (fun _ ↦ []) firstOfTwo fourthTx
        (filteredScan (fun _ ↦ []) md5OfFOut fOut firstOfTwo fourthTx) twoEntries [] 100 []
          .zero).entryCache =
      [fetchedEntry firstOfTwo freeEntry] := by
  have hsorted : fourthTx.inProgress.Pairwise (· < ·) := List.Pairwise.nil
  rw [(populate_filtered (fun _ ↦ []) md5OfFOut fOut firstOfTwo hsorted twoEntries []
    100 [] .zero).1]
  decide

/-- The scan start row passes the entry of the other instance, but only with the filter. -/
theorem exists_not_safe : ¬ ∀ (deserializeHashKeys : List UInt8 → HashKeys)
    (md5 : List UInt8 → UInt8) (q : QueueName) (config : ConsumerConfig) (tx : Transaction),
      tx.inProgress.Pairwise (· < ·) → ∀ (table : QueueTable)
    (excludeRows : List Row) (numRows : Int) (entryCache : List SimpleQueueEntry)
    (scanStartRow : Row),
    Safe (Unprocessed deserializeHashKeys config tx) table excludeRows scanStartRow
        (populateRowCache deserializeHashKeys config tx
          (filteredScan deserializeHashKeys md5 q config tx) table excludeRows numRows entryCache
            scanStartRow) ↔
      Safe (Unprocessed deserializeHashKeys config tx) table excludeRows scanStartRow
        (populateRowCache deserializeHashKeys config tx id table excludeRows numRows entryCache
          scanStartRow) := by
  intro h
  have hsame := h (fun _ ↦ []) md5OfFOut fOut firstOfTwo fourthTx List.Pairwise.nil twoEntries
    [] 100 [] .zero
  have hplain : (populateRowCache (fun _ ↦ []) firstOfTwo fourthTx id twoEntries [] 100 []
      .zero).scanStartRow = claimedEntry.row := by decide
  have hfiltered : (populateRowCache (fun _ ↦ []) firstOfTwo fourthTx
      (filteredScan (fun _ ↦ []) md5OfFOut fOut firstOfTwo fourthTx) twoEntries [] 100 []
        .zero).scanStartRow = freeEntry.row := by decide
  have hclaimed : Unprocessed (fun _ ↦ []) firstOfTwo fourthTx claimedEntry :=
    ⟨⟨_, _, rfl, rfl⟩, not_mem_nil, fun value hvalue ↦ by
      obtain rfl := Option.some.inj hvalue
      decide⟩
  have hsafe := hsame.mpr (fun y hy _ hlt _ ↦ by
    rw [hplain] at hlt
    revert hlt
    rcases mem_cons.mp hy with rfl | hy
    · decide
    · rw [mem_singleton.mp hy]
      decide)
  have hpassed := hsafe claimedEntry mem_cons_self (Row.zero_le _)
    (by rw [hfiltered]; decide) hclaimed
  revert hpassed
  decide

end Transparent

end Tigon.Hbase
