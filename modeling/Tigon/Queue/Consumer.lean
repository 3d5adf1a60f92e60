import Tigon.Lib.SortedList
import Tigon.Queue.EntryRow

/-!
# The queue consumer

`AbstractQueueConsumer` with the HBase operations of `HBaseQueueConsumer`, function by function.
The consumer is a record of the source's fields, and every operation that touches the queue table
takes it as an argument.

The table is the part of the HBase table that belongs to one queue: the rows in key order, the
entry a producer put on a row (the `d` and `m` columns, which are always written and deleted
together), and for each consumer group its state column.  A scan passes the server-side
`DequeueFilter` before the consumer sees it.

The `while` loop of `dequeue` is cut where the source talks to the table.  `getEntries` is one
round of fetching, `claim` is the body of the inner loop for one entry; the system in
`Tigon.Queue.System` runs them as separate steps, so that other consumers can act in between.
-/

set_option autoImplicit false

open Mvcc

namespace Tigon

/-! ## The queue table -/

/-- The table of one queue. -/
structure Table where
  /-- The keys of the rows with an entry, in ascending order. -/
  rows : List Row
  /-- The `d` and `m` columns. -/
  entry : Row → Option QueueEntry
  /-- The state column of each group. -/
  state : Nat → Row → Option StateContent
  sorted : SortedList.Sorted id rows
  mem_rows : ∀ {r : Row}, r ∈ rows ↔ entry r ≠ none

namespace Table

/-- A queue nothing was written to. -/
def empty : Table := ⟨[], fun _ ↦ none, fun _ _ ↦ none, List.Pairwise.nil, by simp⟩

/-- A producer's `Put`. -/
def putEntry (t : Table) (r : Row) (e : QueueEntry) : Table where
  rows := SortedList.put id r t.rows
  entry := Function.update t.entry r (some e)
  state := t.state
  sorted := t.sorted.put r
  mem_rows := by
    intro s
    have h : s ∈ (SortedList.put id r t.rows).map id ↔ s = id r ∨ s ∈ t.rows.map id :=
      SortedList.mem_keys_put
    rw [List.map_id, List.map_id] at h
    rw [h, Function.update_apply, t.mem_rows]
    by_cases hs : s = r <;> simp [hs]

/-- A `Delete` of a whole row. -/
def deleteRow (t : Table) (r : Row) : Table where
  rows := SortedList.remove id r t.rows
  entry := Function.update t.entry r none
  state := fun g ↦ Function.update (t.state g) r none
  sorted := t.sorted.remove r
  mem_rows := by
    intro s
    rw [SortedList.mem_remove, Function.update_apply, t.mem_rows]
    by_cases hs : s = r <;> simp [hs]

/-- Write (or delete, with `none`) a group's state column on some rows. -/
def setState (t : Table) (g : Nat) (rs : List Row) (st : Option StateContent) : Table :=
  { t with
    state := fun g' r ↦ if g' = g ∧ r ∈ rs then st else t.state g' r
    mem_rows := t.mem_rows }

@[simp] theorem deleteRow_entry (t : Table) (r r' : Row) :
    (t.deleteRow r).entry r' = if r' = r then none else t.entry r' := by
  simp [deleteRow, Function.update_apply]

@[simp] theorem deleteRow_state (t : Table) (r : Row) (g : Nat) (r' : Row) :
    (t.deleteRow r).state g r' = if r' = r then none else t.state g r' := by
  simp [deleteRow, Function.update_apply]

/-- The rows of a scan, each with its entry and the state column of the group. -/
structure Scanned where
  rowKey : Row
  entry : QueueEntry
  state : Option StateContent

/-- The rows from `start` on and before `stop`.  Rows without the `d` and `m` columns are left
out: both the filter and the consumer ignore them. -/
def scan (t : Table) (g : Nat) (start stop : Row) : List Scanned :=
  (t.rows.filter fun r ↦ start ≤ r ∧ r < stop).filterMap fun r ↦
    (t.entry r).map fun e ↦ ⟨r, e, t.state g r⟩

end Table

/-- The server-side filter of a dequeue scan: is the row sent to the client?  A row the consumer
could not take anyway is not, but one that lets it move its start row is. -/
def DequeueFilter.include (config : ConsumerConfig) (transaction : Transaction)
    (row : Table.Scanned) : Bool :=
  decide (row.rowKey.writePointer ≤ transaction.readPointer) &&
  !transaction.isExcluded row.rowKey.writePointer &&
  decide (canConsume config transaction row.rowKey row.entry.hashKeys row.state ≠ .no)

/-! ## The consumer's fields -/

/-- An entry fetched from the table, with the state it had when it was fetched. -/
structure SimpleQueueEntry where
  rowKey : Row
  data : List UInt8
  state : Option StateContent
deriving DecidableEq, Repr

/-- The fields of a consumer that change. -/
structure Consumer where
  entryCache : List SimpleQueueEntry
  consumingEntries : List SimpleQueueEntry
  startRow : Row
  scanStartRow : Option Row
  transaction : Option Transaction
  committed : Bool
  commitCount : Int

namespace Consumer

/-- A consumer as it is created, given the start row found in the state store, if any. -/
def create (consumerState : Option Row) : Consumer where
  entryCache := []
  consumingEntries := []
  startRow := consumerState.getD Row.zero
  scanStartRow := none
  transaction := none
  committed := false
  commitCount := 0

def minFetchRows : Int := 100

def prefetchBatches : Int := 10

/-- Number of rows to scan for a batch; the product is an `int`. -/
def numRows (maxBatchSize : Nat) : Int :=
  max minFetchRows (toInt32 (maxBatchSize * prefetchBatches))

/-- For FIFO, entries have to be claimed if the group has more than one instance. -/
def mustClaim (config : ConsumerConfig) : Prop :=
  config.dequeueStrategy = .fifo ∧ config.groupSize > 1

instance (config : ConsumerConfig) : Decidable (mustClaim config) := by
  unfold mustClaim; infer_instance

def encodeStateColumn (config : ConsumerConfig) (transaction : Transaction)
    (state : ConsumerEntryState) : StateContent :=
  ⟨transaction.writePointer, config.instanceId, state⟩

/-! ## Fetching entries -/

/-- Move entries from the front of the cache until there are `maxBatchSize` of them. -/
def fetchLoop (maxBatchSize : Nat) :
    List SimpleQueueEntry → List SimpleQueueEntry → List SimpleQueueEntry × List SimpleQueueEntry
  | [], entries => ([], entries)
  | e :: cache, entries =>
    if entries.length < maxBatchSize then
      fetchLoop maxBatchSize cache (SortedList.put SimpleQueueEntry.rowKey e entries)
    else (e :: cache, entries)

/-- Fill the consuming entries from the cache; was there anything in it? -/
def fetchFromCache (c : Consumer) (maxBatchSize : Nat) : Bool × Consumer :=
  if c.entryCache.isEmpty then (false, c)
  else
    let (cache, entries) := fetchLoop maxBatchSize c.entryCache c.consumingEntries
    (true, { c with entryCache := cache, consumingEntries := entries })

/-- What `populateRowCache` changes while it walks over the rows of its scan. -/
structure PopulateState where
  entryCache : List SimpleQueueEntry
  scanStartRow : Row
  firstScannedRow : Bool

/-- The loop of `populateRowCache` over the rows of the scan. -/
def populateLoop (config : ConsumerConfig) (transaction : Transaction) (excludeRows : List Row)
    (numRows : Int) : List Table.Scanned → PopulateState → PopulateState
  | [], st => st
  | row :: rest, st =>
    if st.entryCache.length < numRows then
      if row.rowKey ∈ excludeRows then
        populateLoop config transaction excludeRows numRows rest st
      else
        -- nothing can be written before the first row if that is older than what is in progress
        let st :=
          if st.firstScannedRow ∧ row.rowKey.writePointer < transaction.firstInProgress then
            { st with firstScannedRow := false, scanStartRow := row.rowKey }
          else st
        if row.rowKey.writePointer > transaction.readPointer then st
        else if transaction.isExcluded row.rowKey.writePointer then
          populateLoop config transaction excludeRows numRows rest st
        else
          match canConsume config transaction row.rowKey row.entry.hashKeys row.state with
          | .noIncludingAllOlder =>
            populateLoop config transaction excludeRows numRows rest
              { st with scanStartRow := row.rowKey.next }
          | .no => populateLoop config transaction excludeRows numRows rest st
          | .yes =>
            populateLoop config transaction excludeRows numRows rest
              { st with
                entryCache := SortedList.put SimpleQueueEntry.rowKey
                  ⟨row.rowKey, row.entry.data, row.state⟩ st.entryCache }
    else st

/-- Gets the stop row for a scan up to the read pointer of a transaction. -/
def getStopRowForTransaction (transaction : Transaction) : Row := ⟨transaction.readPointer + 1, 0⟩

/-- Scan from the scan start row on, through the server-side filter. -/
def getScanner (config : ConsumerConfig) (t : Table) (transaction : Transaction) (start : Row) :
    List Table.Scanned :=
  (t.scan config.groupId start (getStopRowForTransaction transaction)).filter
    (DequeueFilter.include config transaction)

/-- Scan the table for entries to cache. -/
def populateRowCache (config : ConsumerConfig) (t : Table) (transaction : Transaction)
    (c : Consumer) (maxBatchSize : Nat) : Consumer :=
  let start := c.scanStartRow.getD c.startRow
  let st := populateLoop config transaction (c.consumingEntries.map SimpleQueueEntry.rowKey)
    (numRows maxBatchSize) (getScanner config t transaction start) ⟨c.entryCache, start, true⟩
  { c with entryCache := st.entryCache, scanStartRow := some st.scanStartRow }

/-- One round of fetching: from the cache, and if that is not enough, from the table. -/
def getEntries (config : ConsumerConfig) (t : Table) (transaction : Transaction) (c : Consumer)
    (maxBatchSize : Nat) : Bool × Consumer :=
  let (hasEntry, c) := fetchFromCache c maxBatchSize
  if c.consumingEntries.length < maxBatchSize then
    let (more, c) := fetchFromCache (populateRowCache config t transaction c maxBatchSize)
      maxBatchSize
    (more || hasEntry, c)
  else (hasEntry, c)

/-! ## Claiming -/

/-- `checkAndPut` of the CLAIMED state against an absent state column. -/
def claimEntry (config : ConsumerConfig) (t : Table) (transaction : Transaction) (row : Row) :
    Bool × Table :=
  if t.state config.groupId row = none then
    (true, t.setState config.groupId [row] (some (encodeStateColumn config transaction .claimed)))
  else (false, t)

/-- Does the claim loop call `claimEntry` for this entry?  It does if the entry had no state when
it was fetched, or one of an instance that is gone. -/
def wantsClaim (config : ConsumerConfig) (entry : SimpleQueueEntry) : Prop :=
  ∀ st ∈ entry.state, st.instanceId ≥ config.groupSize

instance (config : ConsumerConfig) (entry : SimpleQueueEntry) :
    Decidable (wantsClaim config entry) := by
  unfold wantsClaim
  cases entry.state with
  | none => exact isTrue (by simp)
  | some st => exact decidable_of_iff (st.instanceId ≥ config.groupSize) (by simp)

/-- It does not call it for an entry that had a state of an instance that is there. -/
theorem not_wantsClaim_iff {config : ConsumerConfig} {entry : SimpleQueueEntry} :
    ¬ wantsClaim config entry ↔ ∃ st, entry.state = some st ∧ st.instanceId < config.groupSize := by
  rw [wantsClaim]
  cases entry.state with
  | none => simp
  | some st => simp

/-- Remove an entry from the consuming entries. -/
def drop (c : Consumer) (row : Row) : Consumer :=
  { c with consumingEntries := SortedList.remove SimpleQueueEntry.rowKey row c.consumingEntries }

/-- The body of the claim loop for one entry: an entry that cannot be claimed is dropped. -/
def claim (config : ConsumerConfig) (t : Table) (transaction : Transaction) (c : Consumer)
    (entry : SimpleQueueEntry) : Consumer × Table :=
  if wantsClaim config entry then
    match claimEntry config t transaction entry.rowKey with
    | (true, t) => (c, t)
    | (false, t) => (c.drop entry.rowKey, t)
  else (c, t)

/-! ## Taking part in transactions -/

def startTx (c : Consumer) (tx : Transaction) : Consumer :=
  { c with consumingEntries := [], transaction := some tx, committed := false }

/-- The keys of the consuming entries. -/
def consumingRows (c : Consumer) : List Row := c.consumingEntries.map SimpleQueueEntry.rowKey

/-- The keys of the cached entries. -/
def cachedRows (c : Consumer) : List Row := c.entryCache.map SimpleQueueEntry.rowKey

def commitTx (config : ConsumerConfig) (t : Table) (transaction : Transaction) (c : Consumer) :
    Consumer × Table :=
  if c.consumingEntries.isEmpty then (c, t)
  else
    ({ c with commitCount := c.commitCount + c.consumingEntries.length, committed := true },
      t.setState config.groupId c.consumingRows
        (some (encodeStateColumn config transaction .processed)))

/-- The largest key of the map that is not beyond `row`. -/
def floorKey (entries : List SimpleQueueEntry) (row : Row) : Option Row :=
  ((entries.map SimpleQueueEntry.rowKey).filter fun r ↦ r ≤ row).max?

def postTxCommit (c : Consumer) : Consumer :=
  match c.scanStartRow with
  | none => c
  | some scanStartRow =>
    if c.consumingEntries.isEmpty then { c with startRow := scanStartRow }
    else
      match floorKey c.consumingEntries scanStartRow with
      | none => c
      | some floorKey => { c with startRow := floorKey }

def persistStartRowLimit : Int := 1000

/-- `HBaseQueueConsumer.postTxCommit`: the start row is persisted every so many entries.  `saved`
says whether writing to the state store succeeds. -/
def hbasePostTxCommit (c : Consumer) (store : Option Row) (saved : Bool) :
    Consumer × Option Row :=
  let c := postTxCommit c
  if c.commitCount ≥ persistStartRowLimit ∧ saved then
    ({ c with commitCount := 0 }, some c.startRow)
  else (c, store)

def rollbackTx (config : ConsumerConfig) (t : Table) (transaction : Transaction) (c : Consumer) :
    Consumer × Table :=
  if c.consumingEntries.isEmpty then (c, t)
  else
    let c := { c with
      entryCache := SortedList.putAll SimpleQueueEntry.rowKey c.consumingEntries c.entryCache }
    if c.committed then
      ({ c with commitCount := c.commitCount - c.consumingEntries.length },
        -- for FIFO the entries go back to this instance, otherwise the state column is deleted
        t.setState config.groupId c.consumingRows
          (if mustClaim config then some (encodeStateColumn config transaction .claimed) else none))
    else (c, t)

/-- Where the next scan starts. -/
def scanStart (c : Consumer) : Row := c.scanStartRow.getD c.startRow

end Consumer
end Tigon
