import Tigon.Lib.Utf16
import Tigon.Queue.RowKeys

/-!
# The server-side filter of a scan

`DequeueFilter` runs on the region server.  It looks at the key of a row, then at its cells, and
refuses rows that the consumer could not take.  It is made from the row prefix of the queue, the
configuration of the consumer and the transaction.

It can also be sent there, as bytes.  `write` and `readFields` handle configuration, transaction and
the length of the prefix, but not the name of the state column, which the constructor computes; so
the filter that `parseFrom` makes has none, and fails when it compares the name of a cell with it.

## What is here

* `filterRowKey`, `filterRow`, `decisions` — what the filter does with the rows of a scan.
* `write`, `readFields`, `parseFrom` — filters as bytes.
* `parseFrom_toByteArray` — what comes back: all but the name of the state column.
* `decisions_parsed_iff` — decisions are the same **exactly** if there are no cells but data and
meta. -/

set_option autoImplicit false

open Bytes Mvcc

namespace Tigon.Hbase

/-! ## Cells -/

structure Cell where
  qualifier : List UInt8
  value : List UInt8
deriving DecidableEq

/-- A row of a scan, with the cells it has. -/
structure ScannedRow where
  key : List UInt8
  cells : List Cell

def dataColumn : List UInt8 := [100]

def metaColumn : List UInt8 := [109]

def stateColumnPrefix : List UInt8 := [115]

/-- The name of the state column of a group. -/
def stateColumn (groupId : Nat) : List UInt8 := stateColumnPrefix ++ toBytes 8 groupId

/-- The state of a byte; for any other there is an exception. -/
def fromState (state : UInt8) : Option ConsumerEntryState :=
  if state = 1 then some .claimed else if state = 2 then some .processed else none

def getStateWritePointer (stateValue : List UInt8) : Nat := ofBytes (stateValue.take 8)

def getStateInstanceId (stateValue : List UInt8) : Nat := ofBytes ((stateValue.drop 8).take 4)

def getState (stateValue : List UInt8) : Option ConsumerEntryState := stateValue[12]?.bind fromState

/-- What is in a state column.  Its bytes are those that `encodeStateColumn` writes. -/
def decodeState (value : List UInt8) : StateContent where
  writePointer := getStateWritePointer value
  instanceId := getStateInstanceId value
  state := (getState value).getD .processed

/-- `QueueEntryRow.canConsume`, on the values of the columns; it may fail. -/
abbrev CanConsumeColumns :=
  ConsumerConfig → Transaction → Row → List UInt8 → Option (List UInt8) → Option CanConsume

/-- A state column may hold any bytes.  They are read as far as they are needed. -/
def canConsumeBytes (deserializeHashKeys : List UInt8 → HashKeys) : CanConsumeColumns :=
  fun config transaction row metaValue stateValue ↦
    match stateValue with
    | none => some (canConsume config transaction row (deserializeHashKeys metaValue) none)
    | some value =>
      if value.length < 8 then none
      else if getStateWritePointer value = transaction.writePointer then some .no
      else if value.length < 12 then none
      else if config.dequeueStrategy = .fifo ∧ getStateInstanceId value < config.groupSize ∧
          getStateInstanceId value ≠ config.instanceId then some .no
      else (getState value).map fun state ↦ canConsume config transaction row
        (deserializeHashKeys metaValue)
        (some ⟨getStateWritePointer value, getStateInstanceId value, state⟩)

/-! ## The filter -/

structure DequeueFilter where
  consumerConfig : ConsumerConfig
  transaction : Transaction
  stateColumnName : Option (List UInt8)
  queueNamePrefixLength : Nat
  stopScan : Bool
  skipRow : Bool
  counter : Nat
  writePointer : Nat

namespace DequeueFilter

/-- The constructor. -/
def new (queueRowPrefix : List UInt8) (consumerConfig : ConsumerConfig)
    (transaction : Transaction) : DequeueFilter where
  consumerConfig := consumerConfig
  transaction := transaction
  stateColumnName := some (stateColumn consumerConfig.groupId)
  queueNamePrefixLength := queueRowPrefix.length + RowKeys.saltBytes
  stopScan := false
  skipRow := false
  counter := 0
  writePointer := 0

def reset (f : DequeueFilter) : DequeueFilter := { f with stopScan := false, skipRow := false }

/-- Is the row refused for its key? -/
def filterRowKey (f : DequeueFilter) (key : List UInt8) : Bool × DequeueFilter :=
  let f := { f with
    counter := ofBytes ((key.drop (key.length - 4)).take 4)
    writePointer := ofBytes ((key.drop f.queueNamePrefixLength).take 8) }
  if f.writePointer > f.transaction.readPointer then (true, { f with stopScan := true })
  else if f.transaction.isExcluded f.writePointer then (true, f)
  else (false, f)

/-- The values of the columns the filter looks at. -/
structure Columns where
  dataBytes : Option (List UInt8)
  metaBytes : Option (List UInt8)
  stateBytes : Option (List UInt8)

/-- The loop of `filterRow` over the cells; a comparison with a name that is missing fails. -/
def columnsOf (stateColumnName : Option (List UInt8)) : List Cell → Columns → Option Columns
  | [], columns => some columns
  | kv :: kvs, columns =>
    if kv.qualifier = dataColumn then columnsOf stateColumnName kvs
      { columns with dataBytes := some kv.value }
    else if kv.qualifier = metaColumn then
      columnsOf stateColumnName kvs { columns with metaBytes := some kv.value }
    else
      match stateColumnName with
      | none => none
      | some name =>
        if kv.qualifier = name then columnsOf stateColumnName kvs
          { columns with stateBytes := some kv.value }
        else columnsOf stateColumnName kvs columns

section Filter

variable (canConsume : CanConsumeColumns)

/-- Look at the cells of a row; the result is missing if that fails. -/
def filterRow (f : DequeueFilter) (kvs : List Cell) : Option DequeueFilter :=
  (columnsOf f.stateColumnName kvs ⟨none, none, none⟩).bind fun columns ↦
    match columns.dataBytes, columns.metaBytes with
    | some _, some metaBytes =>
      (canConsume f.consumerConfig f.transaction ⟨f.writePointer, f.counter⟩ metaBytes
        columns.stateBytes).map fun canConsume ↦ { f with skipRow := decide (canConsume = .no) }
    | _, _ => some { f with skipRow := true }

/-- The calls for a row; is it sent to the client? -/
def filterScannedRow (f : DequeueFilter) (row : ScannedRow) : Option (Bool × DequeueFilter) :=
  let (refused, f) := f.reset.filterRowKey row.key
  if refused then some (false, f)
  else (f.filterRow canConsume row.cells).map fun f ↦ (!f.skipRow, f)

/-- The decisions for the rows of a scan, which ends when the filter fails. -/
def decisions (f : DequeueFilter) : List ScannedRow → List (Option Bool)
  | [] => []
  | row :: rows =>
    match f.filterScannedRow canConsume row with
    | none => [none]
    | some (sent, f) => some sent :: decisions f rows

end Filter

end DequeueFilter

/-! ## Filters as bytes -/

/-- The functions of Hadoop that the codec uses. -/
structure WritableUtils where
  writeString : Option (List UInt16) → List UInt8
  readString : List UInt8 → Option (Option (List UInt16) × List UInt8)
  writeEnum : DequeueStrategy → List UInt8
  readEnum : List UInt8 → Option (DequeueStrategy × List UInt8)

/-- What these promise: constants come back by their names, and strings that UTF-8 can write, if
they are short enough for an array. -/
structure WritableUtils.Spec (utils : WritableUtils) : Prop where
  string : ∀ s, (∀ key ∈ s, Utf16.WellFormed key ∧ (Utf16.encoded key).toByteArray.size < 2 ^ 31) →
    ∀ rest, utils.readString (utils.writeString s ++ rest) = some (s, rest)
  enum : ∀ strategy rest, utils.readEnum (utils.writeEnum strategy ++ rest) = some (strategy, rest)

section Write

variable (utils : WritableUtils)

def writeConsumerConfig (config : ConsumerConfig) : List UInt8 :=
  toBytes 8 config.groupId ++ toBytes 4 config.groupSize ++ toBytes 4 config.instanceId ++
    utils.writeEnum config.dequeueStrategy ++ utils.writeString config.hashKey

def writeLongArray (array : List Nat) : List UInt8 :=
  toBytes 4 array.length ++ array.flatMap (toBytes 8)

def writeTx (tx : Transaction) : List UInt8 :=
  toBytes 8 tx.readPointer ++ toBytes 8 tx.writePointer ++ toBytes 8 tx.firstShortInProgress ++
    writeLongArray tx.inProgress ++ writeLongArray tx.invalids

def DequeueFilter.toByteArray (f : DequeueFilter) : List UInt8 :=
  writeConsumerConfig utils f.consumerConfig ++ writeTx f.transaction ++
    toBytes 4 f.queueNamePrefixLength

end Write

section Read

/-- Some bytes, and those after them. -/
def readBytes (n : Nat) (input : List UInt8) : Option (List UInt8 × List UInt8) :=
  if n ≤ input.length then some (input.take n, input.drop n) else none

def readNat (w : Nat) (input : List UInt8) : Option (Nat × List UInt8) :=
  (readBytes w input).map fun (bytes, input) ↦ (ofBytes bytes, input)

def readLong (input : List UInt8) : Option (Nat × List UInt8) := readNat 8 input

def readInt (input : List UInt8) : Option (Nat × List UInt8) := readNat 4 input

/-- The constructor of `ConsumerConfig`. -/
def newConsumerConfig (groupId instanceId groupSize : Nat) (dequeueStrategy : DequeueStrategy)
    (hashKey : Option (List UInt16)) : Option ConsumerConfig :=
  if instanceId < groupSize then
    some ⟨groupId, instanceId, groupSize, dequeueStrategy, if dequeueStrategy = .hash
      then hashKey else none⟩
  else none

def readConsumerConfig (utils : WritableUtils) (input : List UInt8) :
    Option (ConsumerConfig × List UInt8) := do
  let (groupId, input) ← readLong input
  let (groupSize, input) ← readInt input
  let (instanceId, input) ← readInt input
  let (strategy, input) ← utils.readEnum input
  let (hashKey, input) ← utils.readString input
  (newConsumerConfig groupId instanceId groupSize strategy hashKey).map fun config ↦ (config, input)

/-- The loop of `readLongArray`. -/
def readLongs : Nat → List UInt8 → Option (List Nat × List UInt8)
  | 0, input => some ([], input)
  | n + 1, input => do
    let (value, input) ← readLong input
    let (array, input) ← readLongs n input
    some (value :: array, input)

def readLongArray (input : List UInt8) : Option (List Nat × List UInt8) := do
  let (length, input) ← readInt input
  readLongs length input

def readTx (input : List UInt8) : Option (Transaction × List UInt8) := do
  let (readPointer, input) ← readLong input
  let (writePointer, input) ← readLong input
  let (firstShortInProgress, input) ← readLong input
  let (inProgress, input) ← readLongArray input
  let (invalids, input) ← readLongArray input
  some (⟨readPointer, writePointer, invalids, inProgress, firstShortInProgress⟩, input)

/-- `readFields` on a filter without a state column. -/
def parseFrom (utils : WritableUtils) (input : List UInt8) : Option DequeueFilter := do
  let (consumerConfig, input) ← readConsumerConfig utils input
  let (transaction, input) ← readTx input
  let (queueNamePrefixLength, _) ← readInt input
  some ⟨consumerConfig, transaction, none, queueNamePrefixLength, false, false, 0, 0⟩

end Read

/-! ## What comes back -/

section RoundTrip

/-- The values of a configuration fit the types of its fields, and are as the constructor leaves
them. -/
structure ConfigOk (config : ConsumerConfig) : Prop where
  groupId : config.groupId < 2 ^ 64
  instanceId : config.instanceId < config.groupSize
  groupSize : config.groupSize < 2 ^ 31
  hashKey : config.dequeueStrategy ≠ .hash → config.hashKey = none
  length : ∀ key ∈ config.hashKey, (Utf16.encoded key).toByteArray.size < 2 ^ 31

/-- The values of an array of `long`s fit their type, and so does its length. -/
structure ArrayOk (array : List Nat) : Prop where
  length : array.length < 2 ^ 31
  values : ∀ value ∈ array, value < 2 ^ 63

/-- The values of a transaction fit the types of its fields. -/
structure TxOk (tx : Transaction) : Prop where
  readPointer : tx.readPointer < 2 ^ 63
  writePointer : tx.writePointer < 2 ^ 63
  firstShortInProgress : tx.firstShortInProgress < 2 ^ 63
  inProgress : ArrayOk tx.inProgress
  invalids : ArrayOk tx.invalids

variable {utils : WritableUtils} {rest : List UInt8}

theorem readBytes_append (bytes rest : List UInt8) : readBytes bytes.length (bytes ++ rest) =
    some (bytes, rest) := by
  rw [readBytes, if_pos (by rw [List.length_append]; omega), List.take_left, List.drop_left]

theorem readNat_toBytes {w n : Nat} (h : n < 256 ^ w) (rest : List UInt8) :
    readNat w (toBytes w n ++ rest) = some (n, rest) := by
  have hread := readBytes_append (toBytes w n) rest
  rw [length_toBytes] at hread
  rw [readNat, hread, Option.map_some]
  dsimp only
  rw [ofBytes_toBytes h]

theorem readLong_toBytes {n : Nat} (h : n < 2 ^ 64) (rest : List UInt8) :
    readLong (toBytes 8 n ++ rest) = some (n, rest) :=
  readNat_toBytes (h.trans_le (by norm_num)) rest

theorem readInt_toBytes {n : Nat} (h : n < 2 ^ 32) (rest : List UInt8) :
    readInt (toBytes 4 n ++ rest) = some (n, rest) :=
  readNat_toBytes (h.trans_le (by norm_num)) rest

theorem newConsumerConfig_eq {config : ConsumerConfig} (h : ConfigOk config) :
    newConsumerConfig config.groupId config.instanceId config.groupSize config.dequeueStrategy
      config.hashKey = some config := by
  rw [newConsumerConfig, if_pos h.instanceId]
  by_cases hhash : config.dequeueStrategy = .hash
  · rw [if_pos hhash]
  · rw [if_neg hhash, ← h.hashKey hhash]

theorem readConsumerConfig_write (hutils : utils.Spec) {config : ConsumerConfig}
    (h : ConfigOk config) (hkey : ∀ key ∈ config.hashKey, Utf16.WellFormed key) :
    readConsumerConfig utils (writeConsumerConfig utils config ++ rest) = some (config, rest) := by
  have hsize := h.groupSize
  have hinstance := h.instanceId
  rw [readConsumerConfig, writeConsumerConfig]
  simp only [List.append_assoc, readLong_toBytes h.groupId,
    readInt_toBytes (show config.groupSize < 2 ^ 32 by omega),
      readInt_toBytes (show config.instanceId < 2 ^ 32 by omega), hutils.enum,
    hutils.string config.hashKey fun key hmem ↦ ⟨hkey key hmem, h.length key hmem⟩,
      Option.bind_eq_bind, Option.bind_some, newConsumerConfig_eq h, Option.map_some]

theorem readLongs_write {array : List Nat} (h : ∀ value ∈ array, value < 2 ^ 63) :
    readLongs array.length (array.flatMap (toBytes 8) ++ rest) = some (array, rest) := by
  induction array with
  | nil => rfl
  | cons value array ih =>
    have hvalue := h value List.mem_cons_self
    rw [List.length_cons, readLongs, List.flatMap_cons, List.append_assoc,
      readLong_toBytes (by omega)]
    simp only [Option.bind_eq_bind, Option.bind_some, ih fun v hv ↦ h v (List.mem_cons_of_mem _ hv)]

theorem readLongArray_write {array : List Nat} (h : ArrayOk array) :
    readLongArray (writeLongArray array ++ rest) = some (array, rest) := by
  have hlength := h.length
  rw [readLongArray, writeLongArray, List.append_assoc, readInt_toBytes (by omega)]
  exact readLongs_write h.values

theorem readTx_write {tx : Transaction} (h : TxOk tx) : readTx (writeTx tx ++ rest) =
    some (tx, rest) := by
  have hlong : ∀ {n : Nat}, n < 2 ^ 63 → n < 2 ^ 64 := fun h ↦ by omega
  rw [readTx, writeTx]
  simp only [List.append_assoc, readLong_toBytes (hlong h.readPointer),
    readLong_toBytes (hlong h.writePointer), readLong_toBytes (hlong h.firstShortInProgress),
      readLongArray_write h.inProgress, readLongArray_write h.invalids,
    Option.bind_eq_bind, Option.bind_some]

/-- **All but the name of the state column comes back.** -/
theorem parseFrom_toByteArray (hutils : utils.Spec) {queueRowPrefix : List UInt8}
    {config : ConsumerConfig} {tx : Transaction} (hconfig : ConfigOk config)
    (hkey : ∀ key ∈ config.hashKey, Utf16.WellFormed key)
    (htx : TxOk tx) (hlength : queueRowPrefix.length < 2 ^ 31) :
    parseFrom utils ((DequeueFilter.new queueRowPrefix config tx).toByteArray utils) =
      some { DequeueFilter.new queueRowPrefix config tx with stateColumnName := none } := by
  have hprefix : queueRowPrefix.length + RowKeys.saltBytes < 2 ^ 32 :=
    by rw [RowKeys.saltBytes]; omega
  have hread := readInt_toBytes hprefix []
  rw [List.append_nil] at hread
  rw [parseFrom, DequeueFilter.toByteArray, DequeueFilter.new]
  simp only [List.append_assoc, readConsumerConfig_write hutils hconfig hkey, readTx_write htx,
    hread, Option.bind_eq_bind, Option.bind_some]

end RoundTrip

/-! ## Decisions -/

section Decisions

variable {canConsume : CanConsumeColumns} {f : DequeueFilter} {name : List UInt8}

/-- The write pointer in the key of a row. -/
def writePointerOf (queueNamePrefixLength : Nat) (key : List UInt8) : Nat :=
  ofBytes ((key.drop queueNamePrefixLength).take 8)

/-- The row is not refused for its key. -/
def Reaches (f : DequeueFilter) (row : ScannedRow) : Prop :=
  writePointerOf f.queueNamePrefixLength row.key ≤ f.transaction.readPointer ∧
    f.transaction.isExcluded (writePointerOf f.queueNamePrefixLength row.key) = false

instance (f : DequeueFilter) (row : ScannedRow) : Decidable (Reaches f row) :=
  inferInstanceAs (Decidable (_ ∧ _))

/-- There are no cells but data and meta. -/
def Plain (row : ScannedRow) : Prop := ∀ kv ∈ row.cells, kv.qualifier = dataColumn ∨
    kv.qualifier = metaColumn

instance (row : ScannedRow) : Decidable (Plain row) :=
  inferInstanceAs (Decidable (∀ kv ∈ row.cells, kv.qualifier = dataColumn ∨
    kv.qualifier = metaColumn))

namespace DequeueFilter

/-- Without a name of the state column, other cells make the loop fail. -/
theorem columnsOf_none (name : List UInt8) (kvs : List Cell) (columns : Columns) :
    columnsOf none kvs columns =
      if ∀ kv ∈ kvs, kv.qualifier = dataColumn ∨ kv.qualifier = metaColumn then
        columnsOf (some name) kvs columns else none := by
  induction kvs generalizing columns with
  | nil => simp [columnsOf]
  | cons kv kvs ih =>
    rw [columnsOf, columnsOf]
    by_cases hdata : kv.qualifier = dataColumn
    · simp only [hdata, if_true, ih, List.forall_mem_cons, true_or, true_and]
    · by_cases hmeta : kv.qualifier = metaColumn
      · have hne : metaColumn ≠ dataColumn := by decide
        simp only [hmeta, hne, if_true, if_false, ih, List.forall_mem_cons, or_true, true_and]
      · simp only [hmeta, hdata, if_false, List.forall_mem_cons, or_self, false_and]

variable {f' : DequeueFilter} {row : ScannedRow}

/-- The fields that the methods do not change. -/
structure SameFields (f f' : DequeueFilter) : Prop where
  consumerConfig : f'.consumerConfig = f.consumerConfig
  transaction : f'.transaction = f.transaction
  stateColumnName : f'.stateColumnName = f.stateColumnName
  queueNamePrefixLength : f'.queueNamePrefixLength = f.queueNamePrefixLength

/-- The answer for the columns of a row. -/
def answer (canConsume : CanConsumeColumns) (f : DequeueFilter) (key : List UInt8)
    (columns : Columns) : Option Bool :=
  match columns.dataBytes, columns.metaBytes with
  | some _, some metaBytes =>
    (canConsume f.consumerConfig f.transaction
      ⟨writePointerOf f.queueNamePrefixLength key, ofBytes ((key.drop (key.length - 4)).take 4)⟩
      metaBytes columns.stateBytes).map fun canConsume ↦ !decide (canConsume = .no)
  | _, _ => some false

/-- The decision for a row. -/
def decision (canConsume : CanConsumeColumns) (f : DequeueFilter) (row : ScannedRow) :
    Option Bool :=
  if Reaches f row then
    (columnsOf f.stateColumnName row.cells ⟨none, none, none⟩).bind (f.answer canConsume row.key)
  else some false

theorem filterRowKey_reset (f : DequeueFilter) (row : ScannedRow) :
    ∃ f', f.reset.filterRowKey row.key = (decide (¬ Reaches f row), f') ∧
      f'.writePointer = writePointerOf f.queueNamePrefixLength row.key ∧
      f'.counter = ofBytes ((row.key.drop (row.key.length - 4)).take 4) ∧ SameFields f f' := by
  rw [filterRowKey]
  by_cases hgt : writePointerOf f.queueNamePrefixLength row.key > f.transaction.readPointer
  · have hnot : ¬ Reaches f row := fun h ↦ absurd h.1 (not_le.mpr hgt)
    rw [decide_eq_true hnot]
    exact ⟨_, if_pos hgt, rfl, rfl, rfl, rfl, rfl, rfl⟩
  · by_cases hex : f.transaction.isExcluded (writePointerOf f.queueNamePrefixLength row.key) = true
    · have hnot : ¬ Reaches f row := fun h ↦ Bool.false_ne_true (h.2.symm.trans hex)
      rw [decide_eq_true hnot]
      exact ⟨_, (if_neg hgt).trans (if_pos hex), rfl, rfl, rfl, rfl, rfl, rfl⟩
    · have hreach : Reaches f row := ⟨not_lt.mp hgt, Bool.eq_false_of_not_eq_true hex⟩
      rw [decide_eq_false (not_not.mpr hreach)]
      exact ⟨_, (if_neg hgt).trans (if_neg hex), rfl, rfl, rfl, rfl, rfl, rfl⟩

/-- What the calls for a row do: they decide, and change nothing that matters for the next row. -/
theorem filterScannedRow_eq (canConsume : CanConsumeColumns) (f : DequeueFilter)
    (row : ScannedRow) : (f.decision canConsume row = none ∧
      f.filterScannedRow canConsume row = none) ∨ ∃ sent f', f.decision canConsume row = some sent ∧
        f.filterScannedRow canConsume row = some (sent, f') ∧ SameFields f f' := by
  obtain ⟨f', hkey, hwrite, hcounter, hsame⟩ := filterRowKey_reset f row
  rw [filterScannedRow, hkey, decision]
  by_cases hreach : Reaches f row
  · rw [if_pos hreach, decide_eq_false (not_not.mpr hreach)]
    dsimp only
    rw [if_neg Bool.false_ne_true, filterRow, hsame.stateColumnName]
    cases columnsOf f.stateColumnName row.cells ⟨none, none, none⟩ with
    | none => exact .inl ⟨rfl, rfl⟩
    | some columns =>
      obtain ⟨dataBytes, metaBytes, stateBytes⟩ := columns
      cases dataBytes with
      | none => exact .inr ⟨_, _, rfl, rfl, hsame.1, hsame.2, rfl, hsame.4⟩
      | some dataBytes =>
        cases metaBytes with
        | none => exact .inr ⟨_, _, rfl, rfl, hsame.1, hsame.2, rfl, hsame.4⟩
        | some metaBytes =>
          simp only [Option.bind_some, answer, hwrite, hcounter, hsame.consumerConfig,
            hsame.transaction]
          cases canConsume f.consumerConfig f.transaction _ metaBytes stateBytes with
          | none => exact .inl ⟨rfl, rfl⟩
          | some _ => exact .inr ⟨_, _, rfl, rfl, rfl, rfl, rfl, hsame.4⟩
  · rw [if_neg hreach, decide_eq_true hreach]
    exact .inr ⟨false, f', rfl, rfl, hsame⟩

theorem decision_congr (h : SameFields f f') (row : ScannedRow) :
    f'.decision canConsume row = f.decision canConsume row := by
  have hreach : Reaches f' row ↔ Reaches f row := by
    rw [Reaches, Reaches, h.queueNamePrefixLength, h.transaction]
  have hanswer : f'.answer canConsume row.key = f.answer canConsume row.key := by
    funext columns
    rw [answer, answer, h.consumerConfig, h.transaction, h.queueNamePrefixLength]
  rw [decision, decision, h.stateColumnName, hanswer]
  exact if_congr hreach rfl rfl

theorem SameFields.trans {f'' : DequeueFilter} (h : SameFields f f') (h' : SameFields f' f'') :
    SameFields f f'' :=
  ⟨h'.1.trans h.1, h'.2.trans h.2, h'.3.trans h.3, h'.4.trans h.4⟩

/-- Decisions until the filter fails. -/
def decideUntil (canConsume : CanConsumeColumns) (f : DequeueFilter) : List ScannedRow →
    List (Option Bool)
  | [] => []
  | row :: rows =>
    match f.decision canConsume row with
    | none => [none]
    | some sent => some sent :: decideUntil canConsume f rows

/-- The decision for a row does not depend on the rows before. -/
theorem decisions_eq (h : SameFields f f') (rows : List ScannedRow) :
    f'.decisions canConsume rows = f.decideUntil canConsume rows := by
  induction rows generalizing f' with
  | nil => rfl
  | cons row rows ih =>
    rw [decisions, decideUntil, ← decision_congr h row]
    rcases filterScannedRow_eq canConsume f' row with
      ⟨hdecision, hcalls⟩ | ⟨sent, f'', hdecision, hcalls, hsame⟩
    · rw [hdecision, hcalls]
    · rw [hdecision, hcalls]
      exact congrArg _ (ih (h.trans hsame))

/-- A filter without a name for the state column fails at the first row with other cells that it
looks at. -/
theorem decision_none (hname : f.stateColumnName = some name) (row : ScannedRow) :
    { f with stateColumnName := none }.decision canConsume row =
      if Reaches f row ∧ ¬ Plain row then none else f.decision canConsume row := by
  have hcolumns : columnsOf none row.cells ⟨none, none, none⟩ =
      if Plain row then columnsOf (some name) row.cells ⟨none, none, none⟩ else none :=
    columnsOf_none name row.cells ⟨none, none, none⟩
  have hreach : Reaches { f with stateColumnName := none } row ↔ Reaches f row := Iff.rfl
  rw [decision, decision, hname]
  dsimp only
  rw [hcolumns]
  by_cases h : Reaches f row
  · rw [if_pos (hreach.mpr h), if_pos h]
    by_cases hplain : Plain row
    · rw [if_pos hplain, if_neg fun hnot ↦ hnot.2 hplain]
      rfl
    · rw [if_neg hplain, if_pos ⟨h, hplain⟩]
      rfl
  · rw [if_neg (fun h' ↦ h (hreach.mp h')), if_neg (fun h' ↦ h h'.1), if_neg h]

theorem decideUntil_none_iff (hname : f.stateColumnName = some name) {rows : List ScannedRow}
    (hdecides : none ∉ f.decideUntil canConsume rows) :
    { f with stateColumnName := none }.decideUntil canConsume rows = f.decideUntil canConsume rows ↔
      ∀ row ∈ rows, Reaches f row → Plain row := by
  induction rows with
  | nil => exact iff_of_true rfl fun row hrow ↦ by cases hrow
  | cons row rows ih =>
    rw [decideUntil] at hdecides
    obtain ⟨sent, hsent⟩ : ∃ sent, f.decision canConsume row = some sent := by
      refine Option.ne_none_iff_exists'.mp fun hnone ↦ hdecides ?_
      rw [hnone]
      exact List.mem_singleton_self none
    rw [hsent] at hdecides
    have ih := ih fun hmem ↦ hdecides (List.mem_cons_of_mem _ hmem)
    rw [decideUntil, decideUntil, decision_none hname, hsent, List.forall_mem_cons]
    by_cases h : Reaches f row ∧ ¬ Plain row
    · rw [if_pos h]
      refine iff_of_false (fun heq ↦ by cases heq) fun hall ↦ h.2 (hall.1 h.1)
    · rw [if_neg h]
      dsimp only
      rw [List.cons.injEq, ih, and_iff_right rfl]
      exact (and_iff_right fun hreach ↦ not_not.mp fun hplain ↦ h ⟨hreach, hplain⟩).symm

theorem SameFields.refl (f : DequeueFilter) : SameFields f f := ⟨rfl, rfl, rfl, rfl⟩

end DequeueFilter

variable {utils : WritableUtils} {queueRowPrefix : List UInt8} {config : ConsumerConfig}
  {tx : Transaction}

def writeUtf8 (s : String) : List UInt8 := toBytes 4 s.toByteArray.size ++ s.toByteArray.data.toList

/-- The name of the strategy. -/
def strategyName : DequeueStrategy → List UInt8
  | .fifo => [70, 73, 70, 79]
  | .roundRobin => [82, 79, 85, 78, 68, 95, 82, 79, 66, 73, 78]
  | .hash => [72, 65, 83, 72]

def readUtf8 (input : List UInt8) : Option (Option (List UInt16) × List UInt8) := do
  let (length, input) ← readInt input
  if length = 2 ^ 32 - 1 then some (none, input)
  else
    let (bytes, input) ← readBytes length input
    (String.fromUTF8? ⟨bytes.toArray⟩).map fun s ↦ (some (Utf16.decoded s), input)

/-- `DequeueStrategy.valueOf`. -/
def valueOf (name : List UInt8) : Option DequeueStrategy :=
  [DequeueStrategy.fifo, .roundRobin, .hash].find? fun strategy ↦ strategyName strategy = name

def readName (input : List UInt8) : Option (DequeueStrategy × List UInt8) := do
  let (length, input) ← readNat 1 input
  let (name, input) ← readBytes length input
  (valueOf name).map fun strategy ↦ (strategy, input)

/-- Strings with their length before them, as `WritableUtils` writes them. -/
def lengthFirst : WritableUtils where
  writeString s := s.elim (toBytes 4 (2 ^ 32 - 1)) fun key ↦ writeUtf8 (Utf16.encoded key)
  readString := readUtf8
  writeEnum strategy := toBytes 1 (strategyName strategy).length ++ strategyName strategy
  readEnum := readName

theorem spec_lengthFirst : lengthFirst.Spec where
  string s hs rest := by
    cases s with
    | none =>
      show readUtf8 (toBytes 4 (2 ^ 32 - 1) ++ rest) = some (none, rest)
      rw [readUtf8, readInt_toBytes (by norm_num)]
      rfl
    | some key =>
      obtain ⟨hkey, hlength⟩ := hs key rfl
      have hread := readBytes_append (Utf16.encoded key).toByteArray.data.toList rest
      have hutf8 : String.fromUTF8? ⟨(Utf16.encoded key).toByteArray.data.toList.toArray⟩ =
        some (Utf16.encoded key) := dif_pos (Utf16.encoded key).isValidUTF8
      rw [Array.length_toList] at hread
      show readUtf8 (writeUtf8 (Utf16.encoded key) ++ rest) = some (some key, rest)
      rw [writeUtf8, readUtf8, List.append_assoc, readInt_toBytes (by omega), Option.bind_eq_bind,
        Option.bind_some]
      dsimp only
      rw [if_neg (by omega), ByteArray.size, hread, Option.bind_eq_bind, Option.bind_some]
      dsimp only
      rw [hutf8, Option.map_some, (Utf16.decoded_encoded_eq_iff key).mpr hkey]
  enum strategy rest := by
    have hlength : (strategyName strategy).length < 256 ^ 1 := by cases strategy <;> decide
    have hname : valueOf (strategyName strategy) = some strategy := by cases strategy <;> decide
    show readName (toBytes 1 (strategyName strategy).length ++ strategyName strategy ++ rest) =
      some (strategy, rest)
    rw [readName, List.append_assoc, readNat_toBytes hlength, Option.bind_eq_bind, Option.bind_some]
    dsimp only
    rw [readBytes_append, Option.bind_eq_bind, Option.bind_some]
    dsimp only
    rw [hname]
    rfl

/-- The first of two consumers of a group that looks at the key `k`. -/
def hashConfig : ConsumerConfig := ⟨0, 0, 2, .hash, some [107]⟩

/-- A transaction that sees the first one. -/
def secondTx : Transaction := ⟨1, 2, [], [], noTxInProgress⟩

theorem configOk_hashConfig : ConfigOk hashConfig :=
  ⟨by decide, by decide, by decide, fun h ↦ absurd rfl h, by decide⟩

theorem wellFormed_hashConfig : ∀ key ∈ hashConfig.hashKey, Utf16.WellFormed key := by
  rintro key ⟨⟩
  show ¬ (Utf16.IsHigh 107 ∨ Utf16.IsLow 107)
  decide

theorem txOk_secondTx : TxOk secondTx :=
  ⟨by decide, by decide, by decide, ⟨by decide, fun _ h ↦ by cases h⟩, by decide,
    fun _ h ↦ by cases h⟩

/-- An entry of the first transaction, in a queue without a prefix. -/
def entryCells (cells : List Cell) : ScannedRow := ⟨0 :: (toBytes 8 1 ++ toBytes 4 0), cells⟩

/-- The value of the key is what the meta column starts with. -/
def firstByte (bytes : List UInt8) : HashKeys := [([107], (bytes.headD 0).toNat)]

end Decisions

end Tigon.Hbase
