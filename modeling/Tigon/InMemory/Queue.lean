import Tigon.Lib.SortedMap
import Tigon.Queue.EntryRow

/-!
# The in-memory queue

`InMemoryQueue`, function by function: a navigable map from keys to items, where an item carries
the entry, the state of the entry for each consumer group, and a counter for eviction.

The loop of `dequeue` runs over the keys of a concurrent map, while other threads change that map.
Its iterator looks up the next key when it hands out one, so an entry can be gone by the time its
key is visited, and entries can appear behind it.  `Scan` is the state of such a loop and `visit`
its body for one key; the system in `Tigon.InMemory.System` runs them one at a time.
-/

set_option autoImplicit false

open Mvcc

namespace Tigon.InMemory

/-! ## Keys -/

/-- The key of a queue item: a transaction id and a sequence number within the transaction. -/
structure Key where
  txId : Nat
  seqNo : Nat
deriving Repr

namespace Key

/-- Keys compare as row keys do. -/
def toRow (k : Key) : Row := ⟨k.txId, k.seqNo⟩

theorem toRow_injective : Function.Injective toRow := by
  rintro ⟨w, n⟩ ⟨w', n'⟩ h
  obtain ⟨rfl, rfl⟩ := Row.mk.inj h
  rfl

instance : LinearOrder Key := LinearOrder.lift' toRow toRow_injective

theorem le_def (a b : Key) : a ≤ b ↔ a.txId < b.txId ∨ a.txId = b.txId ∧ a.seqNo ≤ b.seqNo :=
  Iff.rfl

theorem txId_mono {a b : Key} (h : a ≤ b) : a.txId ≤ b.txId := by
  rw [le_def] at h; omega

end Key

/-! ## Items -/

/-- The state of an item for a consumer group: which instance wrote it, and what. -/
structure ItemEntryState where
  instanceId : Nat
  state : ConsumerEntryState
deriving DecidableEq, Repr

/-- An entry of the queue plus meta data. -/
structure Item where
  entry : QueueEntry
  consumerStates : Nat → Option ItemEntryState
  processedCount : Nat

namespace Item

def new (entry : QueueEntry) : Item := ⟨entry, fun _ ↦ none, 0⟩

def getConsumerState (item : Item) (groupId : Nat) : Option ConsumerEntryState :=
  (item.consumerStates groupId).map ItemEntryState.state

/-- Write, or remove, the state for a group. -/
def putState (item : Item) (groupId : Nat) (st : Option ItemEntryState) : Item :=
  { item with consumerStates := Function.update item.consumerStates groupId st }

def setConsumerState (item : Item) (config : ConsumerConfig) (newState : ConsumerEntryState) :
    Item :=
  item.putState config.groupId (some ⟨config.instanceId, newState⟩)

def revokeConsumerState (item : Item) (config : ConsumerConfig) (revokeToClaim : Bool) : Item :=
  if revokeToClaim then item.setConsumerState config .claimed
  else item.putState config.groupId none

/-- Try to claim the item; the answer, and the item afterwards. -/
def claim (item : Item) (config : ConsumerConfig) : Bool × Item :=
  match item.consumerStates config.groupId with
  | none => (true, item.setConsumerState config .claimed)
  | some st =>
    -- the consumer that claimed it is gone, or it was this one
    (decide (config.groupSize ≤ st.instanceId) ||
      (decide (st.instanceId = config.instanceId) && decide (st.state = .claimed)), item)

/-- The hash that decides who gets an entry, for ROUND_ROBIN and HASH, where `hashCode` is for
`Objects.hashCode(txId, seqNo)`. -/
def hashBy (hashCode : Nat → Nat → Int) (config : ConsumerConfig) (key : Key)
    (entry : QueueEntry) : Int :=
  match config.dequeueStrategy with
  | .roundRobin => hashCode key.txId key.seqNo
  | _ => (config.hashKey.bind fun hashKey ↦ entry.hashKeys.lookup hashKey).getD 0

/-- For ROUND_ROBIN and HASH: does the entry go to this consumer? -/
def goesToBy (hashCode : Nat → Nat → Int) (config : ConsumerConfig) (key : Key)
    (entry : QueueEntry) : Bool :=
  decide (config.groupSize = 1) ||
    decide ((mathAbs (hashBy hashCode config key entry)).tmod config.groupSize = config.instanceId)

def goesTo (config : ConsumerConfig) (key : Key) (entry : QueueEntry) : Bool :=
  goesToBy entryHashCode config key entry

end Item

/-! ## The queue -/

/-- The entries of a queue. -/
structure InMemoryQueue where
  entries : SortedMap Key Item

/-- What a consumer remembers from one `dequeue` to the next. -/
structure ConsumerState where
  startKey : Option Key
deriving DecidableEq, Repr

/-- The loop of `dequeue`: the key its iterator returns next, the local variables, and the size of
the batch. -/
structure Scan where
  maxBatchSize : Nat
  next : Option Key
  keys : List Key
  datas : List (List UInt8)
  updateStartKey : Bool
deriving DecidableEq

/-- Take an entry. -/
def Scan.add (scan : Scan) (key : Key) (data : List UInt8) : Scan :=
  { scan with keys := scan.keys ++ [key], datas := scan.datas ++ [data], updateStartKey := false }

namespace InMemoryQueue

def empty : InMemoryQueue := ⟨.empty⟩

def enqueue (q : InMemoryQueue) (txId seqId : Nat) (entry : QueueEntry) : InMemoryQueue :=
  ⟨q.entries.put ⟨txId, seqId⟩ (.new entry)⟩

def undoEnqueue (q : InMemoryQueue) (txId seqId : Nat) : InMemoryQueue :=
  ⟨q.entries.remove ⟨txId, seqId⟩⟩

/-- The item under a key. -/
abbrev item (q : InMemoryQueue) (key : Key) : Option Item := q.entries.get key

/-- The state of an entry for a group. -/
def state (q : InMemoryQueue) (g : Nat) (key : Key) : Option ItemEntryState :=
  (q.item key).bind fun item ↦ item.consumerStates g

/-- The loop of `dequeue` before its first iteration. -/
def startScan (q : InMemoryQueue) (state : ConsumerState) (maxBatchSize : Nat) : Scan where
  maxBatchSize := maxBatchSize
  next :=
    match state.startKey with
    | none => q.entries.keys.head?
    | some startKey => q.entries.ceilingKey startKey
  keys := []
  datas := []
  updateStartKey := true

/-- The body of the loop of `dequeue` from the check for processed entries on. -/
def take (q : InMemoryQueue) (config : ConsumerConfig) (scan : Scan) (key : Key) :
    InMemoryQueue × Scan :=
  match q.item key with
  -- deleted (evicted or undone) after the iterator looked it up
  | none => (q, scan)
  | some item =>
    -- already processed but not yet evicted
    if item.getConsumerState config.groupId = some .processed then (q, scan)
    else if config.dequeueStrategy = .fifo then
      let (claimed, item') := item.claim config
      (⟨q.entries.put key item'⟩,
        if claimed then scan.add key item.entry.data else { scan with updateStartKey := false })
    else if Item.goesTo config key item.entry then (q, scan.add key item.entry.data)
    else (q, scan)

/-- Does this iteration move the start key?  It does so before it looks at the read pointer. -/
def movesStartKey (tx : Transaction) (scan : Scan) (key : Key) : Bool :=
  scan.updateStartKey && decide (key.txId < tx.firstShortInProgress)

/-- The body of the loop of `dequeue` for one key.  The loop ends when there is no `Scan` left. -/
def visit (q : InMemoryQueue) (tx : Transaction) (config : ConsumerConfig)
    (state : ConsumerState) (scan : Scan) (key : Key) :
    InMemoryQueue × ConsumerState × Option Scan :=
  let state := if movesStartKey tx scan key then ⟨some key⟩ else state
  -- the entry is newer than the current transaction, and so are all subsequent entries
  if tx.readPointer < key.txId then (q, state, none)
  else if tx.isInProgress key.txId then (q, state, some { scan with updateStartKey := false })
  else
    let (q', scan') := q.take config scan key
    (q', state, some scan')

def ack (q : InMemoryQueue) (dequeuedKeys : List Key) (config : ConsumerConfig) : InMemoryQueue :=
  ⟨dequeuedKeys.foldl (fun entries key ↦
    entries.modify key fun item ↦ item.setConsumerState config .processed) q.entries⟩

def undoDequeue (q : InMemoryQueue) (dequeuedKeys : List Key) (config : ConsumerConfig) :
    InMemoryQueue :=
  ⟨dequeuedKeys.foldl (fun entries key ↦
    entries.modify key fun item ↦
      item.revokeConsumerState config (decide (config.dequeueStrategy = .fifo))) q.entries⟩

/-- One iteration of `evict`. -/
def evictKey (numGroups : Nat) (entries : SortedMap Key Item) (key : Key) : SortedMap Key Item :=
  match entries.get key with
  | none => entries
  | some item =>
    if numGroups ≤ item.processedCount + 1 then entries.remove key
    else entries.put key { item with processedCount := item.processedCount + 1 }

def evict (q : InMemoryQueue) (dequeuedKeys : List Key) (numGroups : Nat) : InMemoryQueue :=
  -- the number of groups is not known
  if numGroups < 1 then q
  else ⟨dequeuedKeys.foldl (evictKey numGroups) q.entries⟩

/-! ## What the operations do to one item -/

variable {q : InMemoryQueue} {config : ConsumerConfig} {key : Key} {keys : List Key}

theorem state_of_item {item : Item} {g : Nat} (h : q.item key = some item) :
    q.state g key = item.consumerStates g := by
  rw [state, h, Option.bind_some]

/-- A group has a state for an entry only if the entry is there. -/
theorem item_of_state {g : Nat} {st : ItemEntryState} (h : q.state g key = some st) :
    ∃ item, q.item key = some item ∧ item.consumerStates g = some st :=
  Option.bind_eq_some_iff.mp h

theorem item_enqueue {w n : Nat} {entry : QueueEntry} :
    (q.enqueue w n entry).item key = if key = ⟨w, n⟩ then some (.new entry) else q.item key :=
  SortedMap.get_put

/-- Undoing what a transaction enqueued takes its entries out. -/
theorem item_undoEnqueue {w n : Nat} :
    ((List.range n).foldl (fun q seqId ↦ q.undoEnqueue w seqId) q).item key =
      if key.txId = w ∧ key.seqNo < n then none else q.item key := by
  induction n with
  | zero => simp
  | succ n ih =>
    rw [List.range_succ, List.foldl_append, List.foldl_cons, List.foldl_nil]
    show SortedMap.get (SortedMap.remove _ _) key = _
    rw [SortedMap.get_remove]
    by_cases hkey : key = ⟨w, n⟩
    · simp [hkey]
    · rw [if_neg hkey]
      refine ih.trans ?_
      have hiff : key.txId = w ∧ key.seqNo < n + 1 ↔ key.txId = w ∧ key.seqNo < n := by
        constructor
        · rintro ⟨rfl, hlt⟩
          exact ⟨rfl, lt_of_le_of_ne (Nat.le_of_lt_succ hlt) fun h ↦ hkey (by rw [← h])⟩
        · exact fun ⟨hw, hlt⟩ ↦ ⟨hw, Nat.lt_succ_of_lt hlt⟩
      simp only [hiff]

theorem item_ack : (q.ack keys config).item key =
    if key ∈ keys then (q.item key).map fun item ↦ item.setConsumerState config .processed
    else q.item key :=
  SortedMap.get_foldl_modify (fun item ↦ by simp [Item.setConsumerState, Item.putState]) keys

theorem item_undoDequeue : (q.undoDequeue keys config).item key =
    if key ∈ keys then
      (q.item key).map fun item ↦
        item.revokeConsumerState config (decide (config.dequeueStrategy = .fifo))
    else q.item key := by
  refine SortedMap.get_foldl_modify (fun item ↦ ?_) keys
  unfold Item.revokeConsumerState Item.setConsumerState
  split <;> simp [Item.putState]

/-- Each occurrence of a key counts towards its eviction. -/
theorem item_foldl_evictKey {n : Nat} {entries : SortedMap Key Item} :
    (keys.foldl (evictKey n) entries).get key = (entries.get key).bind fun item ↦
      if keys.count key = 0 then some item
      else if n ≤ item.processedCount + keys.count key then none
      else some { item with processedCount := item.processedCount + keys.count key } := by
  induction keys generalizing entries with
  | nil => simp
  | cons k keys ih =>
    rw [List.foldl_cons, ih, evictKey]
    cases hk : entries.get k with
    | none =>
      by_cases heq : k = key
      · simp [← heq, hk]
      · simp [List.count_cons_of_ne heq]
    | some item =>
      by_cases heq : k = key
      · subst heq
        rw [hk]
        simp only [List.count_cons_self, Option.bind_some]
        split
        · rw [SortedMap.get_remove, if_pos rfl, Option.bind_none, if_neg (by omega),
            if_pos (by omega)]
        · rw [SortedMap.get_put, if_pos rfl, Option.bind_some]
          simp only
          by_cases hc : keys.count k = 0
          · rw [if_pos hc, if_neg (by omega), if_neg (by omega), hc]
          · rw [if_neg hc, if_neg (Nat.succ_ne_zero _)]
            simp only [Nat.add_assoc, Nat.add_comm 1]
      · rw [List.count_cons_of_ne heq]
        have hne : ¬ key = k := fun h ↦ heq h.symm
        simp only
        split
        · rw [SortedMap.get_remove, if_neg hne]
        · rw [SortedMap.get_put, if_neg hne]

theorem item_evict {n : Nat} (hn : 0 < n) : (q.evict keys n).item key =
    (q.item key).bind fun item ↦
      if keys.count key = 0 then some item
      else if n ≤ item.processedCount + keys.count key then none
      else some { item with processedCount := item.processedCount + keys.count key } := by
  rw [evict, if_neg (by omega)]
  exact item_foldl_evictKey

/-- **What the loop of `dequeue` does with an entry the transaction sees.**  It passes over it for
good, it takes it (with a new claim, or without one), or it finds it claimed by another. -/
theorem take_cases (q : InMemoryQueue) (config : ConsumerConfig) (scan : Scan) (key : Key) :
    (q.take config scan key = (q, scan) ∧
      ∀ item, q.item key = some item → item.getConsumerState config.groupId = some .processed ∨
        config.dequeueStrategy ≠ .fifo ∧ Item.goesTo config key item.entry = false) ∨
    ∃ item, q.item key = some item ∧
      item.getConsumerState config.groupId ≠ some .processed ∧
      ((config.dequeueStrategy = .fifo ∧ item.consumerStates config.groupId = none ∧
        q.take config scan key =
          (⟨q.entries.put key (item.setConsumerState config .claimed)⟩,
            scan.add key item.entry.data)) ∨
      (config.dequeueStrategy = .fifo ∧ (∃ st, item.consumerStates config.groupId = some st ∧
          (config.groupSize ≤ st.instanceId ∨ st.instanceId = config.instanceId)) ∧
        q.take config scan key = (q, scan.add key item.entry.data)) ∨
      (config.dequeueStrategy = .fifo ∧ (∃ st, item.consumerStates config.groupId = some st ∧
          st.instanceId < config.groupSize ∧ st.instanceId ≠ config.instanceId) ∧
        q.take config scan key = (q, { scan with updateStartKey := false })) ∨
      (config.dequeueStrategy ≠ .fifo ∧ Item.goesTo config key item.entry = true ∧
        q.take config scan key = (q, scan.add key item.entry.data))) := by
  rw [take]
  split
  · rename_i hnone
    exact .inl ⟨rfl, fun item h ↦ absurd (hnone.symm.trans h) (by simp)⟩
  rename_i item hitem
  by_cases hproc : item.getConsumerState config.groupId = some .processed
  · rw [if_pos hproc]
    refine .inl ⟨rfl, fun item' h ↦ .inl ?_⟩
    obtain rfl := Option.some_inj.mp (hitem.symm.trans h)
    exact hproc
  rw [if_neg hproc]
  by_cases hfifo : config.dequeueStrategy = .fifo
  · refine .inr ⟨item, hitem, hproc, ?_⟩
    rw [if_pos hfifo, Item.claim]
    cases hst : item.consumerStates config.groupId with
    | none => exact .inl ⟨hfifo, rfl, rfl⟩
    | some st =>
      have hclaimed : st.state = .claimed := by
        rw [Item.getConsumerState, hst] at hproc
        cases h : st.state with
        | claimed => rfl
        | processed => exact absurd (by simp [h]) hproc
      have hput : (⟨q.entries.put key item⟩ : InMemoryQueue) = q := by
        rw [SortedMap.put_of_get hitem]
      by_cases hmine : config.groupSize ≤ st.instanceId ∨ st.instanceId = config.instanceId
      · refine .inr (.inl ⟨hfifo, ⟨st, rfl, hmine⟩, ?_⟩)
        have htrue : (decide (config.groupSize ≤ st.instanceId) ||
            (decide (st.instanceId = config.instanceId) && decide (st.state = .claimed))) =
              true := by
          simpa [hclaimed] using hmine
        simp only [hput, htrue, if_true]
      · refine .inr (.inr (.inl ⟨hfifo, ⟨st, rfl, by omega, fun h ↦ hmine (.inr h)⟩, ?_⟩))
        have hfalse : (decide (config.groupSize ≤ st.instanceId) ||
            (decide (st.instanceId = config.instanceId) && decide (st.state = .claimed))) =
              false := by
          simpa [hclaimed] using hmine
        simp [hput, hfalse]
  · rw [if_neg hfifo]
    by_cases hgoes : Item.goesTo config key item.entry = true
    · rw [if_pos hgoes]
      exact .inr ⟨item, hitem, hproc, .inr (.inr (.inr ⟨hfifo, hgoes, rfl⟩))⟩
    · rw [if_neg hgoes]
      refine .inl ⟨rfl, fun item' h ↦ .inr ⟨hfifo, ?_⟩⟩
      obtain rfl := Option.some_inj.mp (hitem.symm.trans h)
      simpa using hgoes

end InMemoryQueue
end Tigon.InMemory
