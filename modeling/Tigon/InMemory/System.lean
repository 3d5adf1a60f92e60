import Tigon.Lib.Run
import Tigon.InMemory.Queue
import Tigon.Queue.Groups

/-!
# The in-memory queue as a system

One in-memory queue, its producers, and the consumers of any number of groups
(`InMemoryQueueConsumer`), all taking part in transactions of a common transaction manager.  `step`
is the transition function.  As for the queue in HBase, an action is one call of the source that
can be interleaved with the calls of other parties, except that:

* `enqueue` is one call of `InMemoryQueue.enqueue`; a producer makes one for each entry when it
  commits, and `undoEnqueue` takes all of them back;
* `dequeue` enters a call of `dequeue`, and each `scan` is one iteration of its loop;
* `reclaim` is a call of `reclaim` on any result the consumer has returned;
* `resize` closes the consumers of a group and creates new ones for another group size.  Nothing
  of this is written to the queue, and a consumer can be closed in the middle of a transaction.
-/

set_option autoImplicit false

open Mvcc

namespace Tigon.InMemory

open Function

/-! ## The consumer -/

/-- The field `dequeuedKeys`: a call of `dequeue` leaves a list that can be added to, a call of
`reclaim` one that cannot. -/
inductive DequeuedKeys
  | null
  | arrayList (keys : List Key)
  | immutableList (keys : List Key)
deriving DecidableEq

namespace DequeuedKeys

def keys : DequeuedKeys → List Key
  | null => []
  | arrayList keys => keys
  | immutableList keys => keys

/-- `reclaim`; adding to an immutable list throws an `UnsupportedOperationException`. -/
def reclaim (dequeuedKeys : DequeuedKeys) (keys : List Key) : Option DequeuedKeys :=
  match dequeuedKeys with
  | null => some (immutableList keys)
  | arrayList ks => some (arrayList (ks ++ keys))
  | immutableList _ => none

end DequeuedKeys

/-- The fields of a consumer that change. -/
structure Consumer where
  currentTx : Option Transaction
  committed : Bool
  dequeuedKeys : DequeuedKeys
  state : ConsumerState

namespace Consumer

/-- A new consumer. -/
def new : Consumer := ⟨none, false, .null, ⟨none⟩⟩

def startTx (consumer : Consumer) (tx : Transaction) : Consumer :=
  { consumer with currentTx := some tx, dequeuedKeys := .null, committed := false }

/-- What `dequeue` does with the keys the queue returns; the queue returns `null` for none. -/
def dequeued (consumer : Consumer) (keys : List Key) : Consumer :=
  if keys = [] then consumer else { consumer with dequeuedKeys := .arrayList keys }

def commitTx (consumer : Consumer) (config : ConsumerConfig) (queue : InMemoryQueue) :
    Consumer × InMemoryQueue :=
  ({ consumer with committed := true }, queue.ack consumer.dequeuedKeys.keys config)

def postTxCommit (consumer : Consumer) (queue : InMemoryQueue) (numGroups : Nat) : InMemoryQueue :=
  queue.evict consumer.dequeuedKeys.keys numGroups

def rollbackTx (consumer : Consumer) (config : ConsumerConfig) (queue : InMemoryQueue) :
    Consumer × InMemoryQueue :=
  ({ consumer with dequeuedKeys := .null },
    if consumer.committed = true ∨ config.dequeueStrategy = .fifo then
      queue.undoDequeue consumer.dequeuedKeys.keys config
    else queue)

end Consumer

/-- What `dequeue` returns, if it is not empty. -/
structure DequeueResult where
  keys : List Key
  data : List (List UInt8)
deriving DecidableEq

/-! ## The system -/

/-- Where a consumer is. -/
inductive Phase
  /-- Between transactions. -/
  | idle
  /-- In a transaction, outside `dequeue`. -/
  | ready
  /-- In the loop of `dequeue`. -/
  | scanning (scan : Scan)
  /-- `commitTx` was called. -/
  | persisted
deriving DecidableEq

/-- A consumer, where it is, the results it has returned since it was created, and the keys that
were returned or reclaimed in its present transaction. -/
structure Session where
  consumer : Consumer
  phase : Phase
  results : List DequeueResult
  taken : List Key

/-- A consumer that has just been created. -/
def Session.new : Session := ⟨.new, .idle, [], []⟩

/-- The state of the whole system. -/
structure State where
  /-- The groups, with their present sizes. -/
  groups : Groups
  manager : Manager
  contexts : Nat → TxContext
  queue : InMemoryQueue
  /-- How many entries a transaction has enqueued. -/
  enqueued : Nat → Nat
  sessions : ConsumerId → Session
  /-- For each group, which committed transaction processed which entry. -/
  log : Nat → List (Nat × Key)

inductive Action
  | begin (tx : Transaction) (short : Bool) (participants : List ConsumerId)
  | enqueue (w : Nat) (entry : QueueEntry)
  | undoEnqueue (w : Nat)
  | dequeue (c : ConsumerId) (maxBatchSize : Nat)
  | scan (c : ConsumerId)
  | reclaim (c : ConsumerId) (result : DequeueResult)
  | commitTx (c : ConsumerId)
  | commit (w : Nat)
  | postTxCommit (c : ConsumerId)
  | rollbackTx (c : ConsumerId)
  | abort (w : Nat)
  | invalidate (w : Nat)
  | resize (g n : Nat)

namespace State

/-- Nothing was written, every consumer is fresh. -/
def init (groups : Groups) : State where
  groups := groups
  manager := .empty
  contexts := fun _ ↦ ⟨[], []⟩
  queue := .empty
  enqueued := fun _ ↦ 0
  sessions := fun _ ↦ .new
  log := fun _ ↦ []

/-- The fields of a consumer. -/
abbrev consumer (s : State) (c : ConsumerId) : Consumer := (s.sessions c).consumer

/-- Where a consumer is. -/
abbrev phase (s : State) (c : ConsumerId) : Phase := (s.sessions c).phase

/-- The configuration of a consumer. -/
abbrev config (s : State) (c : ConsumerId) : ConsumerConfig := s.groups.consumerConfig c

/-- The keys a consumer acknowledges when it commits. -/
abbrev dequeuedKeys (s : State) (c : ConsumerId) : List Key := (s.consumer c).dequeuedKeys.keys

/-- Change one consumer. -/
def setSession (s : State) (c : ConsumerId) (session : Session) : State :=
  { s with sessions := update s.sessions c session }

/-! ## The transition function, action by action -/

def begin (s : State) (tx : Transaction) (short : Bool) (participants : List ConsumerId) :
    Option State :=
  if IsSnapshot s.manager tx ∧ (short = false → participants = []) ∧
      ∀ c ∈ participants, s.groups.Has c ∧ s.phase c = .idle then
    (s.manager.start? tx.writePointer short).map fun m ↦
      { s with
        manager := m
        contexts := update s.contexts tx.writePointer ⟨participants, []⟩
        sessions := fun c ↦
          if c ∈ participants then
            { s.sessions c with
              consumer := (s.consumer c).startTx tx, phase := .ready, taken := [] }
          else s.sessions c }
  else none

/-- A producer may not know yet that its transaction was given up. -/
def enqueue (s : State) (w : Nat) (entry : QueueEntry) : Option State :=
  if s.manager.info w = some ⟨true, .inProgress⟩ ∨ s.manager.info w = some ⟨true, .invalid⟩ then
    some { s with
      queue := s.queue.enqueue w (s.enqueued w) entry
      enqueued := update s.enqueued w (s.enqueued w + 1) }
  else none

def undoEnqueue (s : State) (w : Nat) : Option State :=
  if s.manager.statusOf w = some .inProgress ∨ s.manager.statusOf w = some .invalid then
    some { s with
      queue := (List.range (s.enqueued w)).foldl (fun q seqId ↦ q.undoEnqueue w seqId) s.queue }
  else none

def dequeue (s : State) (c : ConsumerId) (maxBatchSize : Nat) : Option State :=
  if s.phase c = .ready then
    some (s.setSession c { s.sessions c with
      phase := .scanning (s.queue.startScan (s.consumer c).state maxBatchSize) })
  else none

/-- A call of `dequeue` returns. -/
def returned (session : Session) (scan : Scan) : Session where
  consumer := session.consumer.dequeued scan.keys
  phase := .ready
  results := session.results ++ if scan.keys = [] then [] else [⟨scan.keys, scan.datas⟩]
  taken := session.taken ++ scan.keys

/-- Where an iteration of the loop leaves the consumer. -/
def afterVisit (session : Session) (state : ConsumerState) (scan : Scan) (next : Option Scan) :
    Session :=
  let session := { session with consumer := { session.consumer with state := state } }
  match next with
  | none => returned session scan
  | some scan' => { session with phase := .scanning scan' }

def scan (s : State) (c : ConsumerId) : Option State :=
  match s.phase c, (s.consumer c).currentTx with
  | .scanning scan, some tx =>
    match scan.next with
    | none => some (s.setSession c (returned (s.sessions c) scan))
    | some key =>
      -- the iterator moves on before the body of the loop runs
      let scan := { scan with next := s.queue.entries.higherKey key }
      if scan.maxBatchSize ≤ scan.keys.length then
        some (s.setSession c (returned (s.sessions c) scan))
      else
        let (queue, state, next) := s.queue.visit tx (s.config c) (s.consumer c).state scan key
        some { s.setSession c (afterVisit (s.sessions c) state scan next) with queue := queue }
  | _, _ => none

/-- If `reclaim` throws, nothing has changed. -/
def reclaim (s : State) (c : ConsumerId) (result : DequeueResult) : Option State :=
  if s.phase c = .ready ∧ result ∈ (s.sessions c).results then
    let dequeuedKeys := ((s.consumer c).dequeuedKeys.reclaim result.keys).getD
      (s.consumer c).dequeuedKeys
    some (s.setSession c { s.sessions c with
      consumer := { s.consumer c with dequeuedKeys := dequeuedKeys }
      taken := (s.sessions c).taken ++ result.keys })
  else none

def commitTx (s : State) (c : ConsumerId) : Option State :=
  if s.phase c = .ready then
    let (consumer, queue) := (s.consumer c).commitTx (s.config c) s.queue
    some { s.setSession c { s.sessions c with consumer := consumer, phase := .persisted } with
      queue := queue }
  else none

/-- A participant has called `commitTx` in the transaction `w`. -/
def HasPersisted (s : State) (w : Nat) (c : ConsumerId) : Prop :=
  s.phase c = .persisted ∧ (s.consumer c).currentTx.map Transaction.writePointer = some w

instance (s : State) (w : Nat) (c : ConsumerId) : Decidable (s.HasPersisted w c) :=
  inferInstanceAs (Decidable (_ ∧ _))

/-- The entry is marked as processed by this consumer. -/
def MarkedBy (s : State) (c : ConsumerId) (key : Key) : Prop :=
  s.queue.state c.1 key = some ⟨c.2, .processed⟩

instance (s : State) (c : ConsumerId) (key : Key) : Decidable (s.MarkedBy c key) :=
  inferInstanceAs (Decidable (_ = _))

/-- What a committing transaction adds to the log of a group. -/
def logged (s : State) (w g : Nat) : List (Nat × Key) :=
  ((s.contexts w).participants.filter fun c ↦ c.1 = g).flatMap fun c ↦
    ((s.dequeuedKeys c).filter fun key ↦ s.MarkedBy c key).map fun key ↦ (w, key)

def commit (s : State) (w : Nat) : Option State :=
  if (s.contexts w).rolledBack = [] ∧ ∀ c ∈ (s.contexts w).participants, s.HasPersisted w c then
    (s.manager.finish? w .committed).map fun m ↦
      { s with
        manager := m
        log := fun g ↦ s.log g ++ s.logged w g }
  else none

/-- The number of groups a consumer is told of when it is created. -/
def numGroups (s : State) : Nat := s.groups.ids.length

def postTxCommit (s : State) (c : ConsumerId) : Option State :=
  match s.phase c, (s.consumer c).currentTx with
  | .persisted, some tx =>
    if s.manager.statusOf tx.writePointer = some .committed then
      some { s.setSession c { s.sessions c with phase := .idle } with
        queue := (s.consumer c).postTxCommit s.queue s.numGroups }
    else none
  | _, _ => none

def rollbackTx (s : State) (c : ConsumerId) : Option State :=
  match (s.consumer c).currentTx with
  | some tx =>
    if s.phase c ≠ .idle ∧ s.manager.statusOf tx.writePointer ≠ some .committed then
      let (consumer, queue) := (s.consumer c).rollbackTx (s.config c) s.queue
      let context := s.contexts tx.writePointer
      some { s.setSession c { s.sessions c with consumer := consumer, phase := .idle } with
        queue := queue
        contexts := update s.contexts tx.writePointer
          { context with rolledBack := c :: context.rolledBack } }
    else none
  | none => none

def abort (s : State) (w : Nat) : Option State :=
  if (∀ c ∈ (s.contexts w).participants, c ∈ (s.contexts w).rolledBack) ∧
      ∀ key ∈ s.queue.entries.keys, key.txId ≠ w then
    (s.manager.finish? w .aborted).map fun m ↦ { s with manager := m }
  else none

def invalidate (s : State) (w : Nat) : Option State :=
  (s.manager.finish? w .invalid).map fun m ↦ { s with manager := m }

def resize (s : State) (g n : Nat) : Option State :=
  if hpos : 0 < n then
    some { s with
      groups := s.groups.resize g n hpos
      sessions := fun c ↦ if c.1 = g then .new else s.sessions c }
  else none

/-- The transition function. -/
def step (s : State) : Action → Option State
  | .begin tx short participants => s.begin tx short participants
  | .enqueue w entry => s.enqueue w entry
  | .undoEnqueue w => s.undoEnqueue w
  | .dequeue c maxBatchSize => s.dequeue c maxBatchSize
  | .scan c => s.scan c
  | .reclaim c result => s.reclaim c result
  | .commitTx c => s.commitTx c
  | .commit w => s.commit w
  | .postTxCommit c => s.postTxCommit c
  | .rollbackTx c => s.rollbackTx c
  | .abort w => s.abort w
  | .invalidate w => s.invalidate w
  | .resize g n => s.resize g n

/-! ## When an action is accepted, and what it does -/

variable {s s' : State} {a : Action} {c : ConsumerId} {key : Key} {g w n : Nat}

theorem begin_eq_some {tx : Transaction} {short : Bool} {participants : List ConsumerId}
    (h : s.begin tx short participants = some s') :
    IsSnapshot s.manager tx ∧ (short = false → participants = []) ∧
      (∀ c ∈ participants, s.groups.Has c ∧ s.phase c = .idle) ∧
      ∃ m, s.manager.start? tx.writePointer short = some m ∧ s' = { s with
        manager := m
        contexts := update s.contexts tx.writePointer ⟨participants, []⟩
        sessions := fun c ↦
          if c ∈ participants then
            { s.sessions c with
              consumer := (s.consumer c).startTx tx, phase := .ready, taken := [] }
          else s.sessions c } := by
  rw [begin] at h
  split at h
  · rename_i hcond
    obtain ⟨m, hm, rfl⟩ := Option.map_eq_some_iff.mp h
    exact ⟨hcond.1, hcond.2.1, hcond.2.2, m, hm, rfl⟩
  · exact absurd h (by simp)

theorem enqueue_eq_some {entry : QueueEntry} (h : s.enqueue w entry = some s') :
    (s.manager.info w = some ⟨true, .inProgress⟩ ∨ s.manager.info w = some ⟨true, .invalid⟩) ∧
      s' = { s with
        queue := s.queue.enqueue w (s.enqueued w) entry
        enqueued := update s.enqueued w (s.enqueued w + 1) } := by
  rw [enqueue] at h
  split at h
  · rename_i hinfo
    exact ⟨hinfo, (Option.some_inj.mp h).symm⟩
  · exact absurd h (by simp)

theorem undoEnqueue_eq_some (h : s.undoEnqueue w = some s') :
    (s.manager.statusOf w = some .inProgress ∨ s.manager.statusOf w = some .invalid) ∧
      s' = { s with
        queue := (List.range (s.enqueued w)).foldl (fun q seqId ↦ q.undoEnqueue w seqId)
          s.queue } := by
  rw [undoEnqueue] at h
  split at h
  · rename_i hst
    exact ⟨hst, (Option.some_inj.mp h).symm⟩
  · exact absurd h (by simp)

theorem dequeue_eq_some (h : s.dequeue c n = some s') :
    s.phase c = .ready ∧ s' = s.setSession c { s.sessions c with
      phase := .scanning (s.queue.startScan (s.consumer c).state n) } := by
  rw [dequeue] at h
  split at h
  · rename_i hready
    exact ⟨hready, (Option.some_inj.mp h).symm⟩
  · exact absurd h (by simp)

theorem reclaim_eq_some {result : DequeueResult} (h : s.reclaim c result = some s') :
    s.phase c = .ready ∧ result ∈ (s.sessions c).results ∧
      s' = s.setSession c { s.sessions c with
        consumer := { s.consumer c with
          dequeuedKeys := ((s.consumer c).dequeuedKeys.reclaim result.keys).getD
            (s.consumer c).dequeuedKeys }
        taken := (s.sessions c).taken ++ result.keys } := by
  rw [reclaim] at h
  split at h
  · rename_i hcond
    exact ⟨hcond.1, hcond.2, (Option.some_inj.mp h).symm⟩
  · exact absurd h (by simp)

theorem commitTx_eq_some (h : s.commitTx c = some s') :
    s.phase c = .ready ∧ s' = { s.setSession c { s.sessions c with
        consumer := { s.consumer c with committed := true }, phase := .persisted } with
      queue := s.queue.ack (s.dequeuedKeys c) (s.config c) } := by
  rw [commitTx] at h
  split at h
  · rename_i hready
    exact ⟨hready, (Option.some_inj.mp h).symm⟩
  · exact absurd h (by simp)

theorem commit_eq_some (h : s.commit w = some s') :
    (s.contexts w).rolledBack = [] ∧ (∀ c ∈ (s.contexts w).participants, s.HasPersisted w c) ∧
      ∃ m, s.manager.finish? w .committed = some m ∧ s' = { s with
        manager := m
        log := fun g ↦ s.log g ++ s.logged w g } := by
  rw [commit] at h
  split at h
  · rename_i hcond
    obtain ⟨m, hm, rfl⟩ := Option.map_eq_some_iff.mp h
    exact ⟨hcond.1, hcond.2, m, hm, rfl⟩
  · exact absurd h (by simp)

theorem postTxCommit_eq_some (h : s.postTxCommit c = some s') :
    ∃ tx, s.phase c = .persisted ∧ (s.consumer c).currentTx = some tx ∧
      s.manager.statusOf tx.writePointer = some .committed ∧
      s' = { s.setSession c { s.sessions c with phase := .idle } with
        queue := s.queue.evict (s.dequeuedKeys c) s.numGroups } := by
  rw [postTxCommit] at h
  split at h
  · rename_i tx hp htx
    split at h
    · rename_i hst
      exact ⟨tx, hp, htx, hst, (Option.some_inj.mp h).symm⟩
    · exact absurd h (by simp)
  · exact absurd h (by simp)

theorem rollbackTx_eq_some (h : s.rollbackTx c = some s') :
    ∃ tx, (s.consumer c).currentTx = some tx ∧ s.phase c ≠ .idle ∧
      s.manager.statusOf tx.writePointer ≠ some .committed ∧
      s' = { s.setSession c { s.sessions c with
          consumer := { s.consumer c with dequeuedKeys := .null }, phase := .idle } with
        queue :=
          if (s.consumer c).committed = true ∨ (s.config c).dequeueStrategy = .fifo then
            s.queue.undoDequeue (s.dequeuedKeys c) (s.config c)
          else s.queue
        contexts := update s.contexts tx.writePointer
          { s.contexts tx.writePointer with
            rolledBack := c :: (s.contexts tx.writePointer).rolledBack } } := by
  rw [rollbackTx] at h
  split at h
  · rename_i tx htx
    split at h
    · rename_i hcond
      exact ⟨tx, htx, hcond.1, hcond.2, (Option.some_inj.mp h).symm⟩
    · exact absurd h (by simp)
  · exact absurd h (by simp)

theorem abort_eq_some (h : s.abort w = some s') :
    ∃ m, s.manager.finish? w .aborted = some m ∧ s' = { s with manager := m } := by
  rw [abort] at h
  split at h
  · obtain ⟨m, hm, rfl⟩ := Option.map_eq_some_iff.mp h
    exact ⟨m, hm, rfl⟩
  · exact absurd h (by simp)

theorem invalidate_eq_some (h : s.invalidate w = some s') :
    ∃ m, s.manager.finish? w .invalid = some m ∧ s' = { s with manager := m } := by
  obtain ⟨m, hm, rfl⟩ := Option.map_eq_some_iff.mp h
  exact ⟨m, hm, rfl⟩

theorem resize_eq_some (h : s.resize g n = some s') :
    ∃ hpos : 0 < n, s' = { s with
      groups := s.groups.resize g n hpos
      sessions := fun c ↦ if c.1 = g then .new else s.sessions c } := by
  rw [resize] at h
  split at h
  · rename_i hpos
    exact ⟨hpos, (Option.some_inj.mp h).symm⟩
  · exact absurd h (by simp)

/-! ## What a step does to a consumer -/

/-- The loop of a consumer's `dequeue` stands before this key, and has room for more. -/
structure AtKey (s : State) (c : ConsumerId) (tx : Transaction) (scan : Scan) (key : Key) :
    Prop where
  phase : s.phase c = .scanning scan
  currentTx : (s.consumer c).currentTx = some tx
  next : scan.next = some key
  room : scan.keys.length < scan.maxBatchSize

/-- The loop stands before this key, and the transaction sees its entry. -/
structure Looks (s : State) (c : ConsumerId) (tx : Transaction) (scan : Scan) (key : Key) :
    Prop extends s.AtKey c tx scan key where
  read : key.txId ≤ tx.readPointer
  notInProgress : tx.isInProgress key.txId = false

/-- The consumer after the start key was moved, if this iteration moves it. -/
def moved (s : State) (c : ConsumerId) (tx : Transaction) (scan : Scan) (key : Key) : Session :=
  { s.sessions c with
    consumer := { s.consumer c with
      state := if InMemoryQueue.movesStartKey tx scan key then ⟨some key⟩
        else (s.consumer c).state } }

/-- The loop after its iterator has moved on. -/
def advanced (s : State) (scan : Scan) (key : Key) : Scan :=
  { scan with next := s.queue.entries.higherKey key }

/-- `Move s c a session`: the action `a` turns the consumer `c` into `session`. -/
inductive Move (s : State) (c : ConsumerId) : Action → Session → Prop
  | begin {tx : Transaction} {participants : List ConsumerId} (hs : IsSnapshot s.manager tx)
      (hc : c ∈ participants) (hhas : s.groups.Has c) (hidle : s.phase c = .idle) :
      Move s c (.begin tx true participants)
        { s.sessions c with consumer := (s.consumer c).startTx tx, phase := .ready, taken := [] }
  | dequeue {maxBatchSize : Nat} (hready : s.phase c = .ready) :
      Move s c (.dequeue c maxBatchSize) { s.sessions c with
        phase := .scanning (s.queue.startScan (s.consumer c).state maxBatchSize) }
  | finish {scan : Scan} (hscan : s.phase c = .scanning scan)
      (hend : scan.next = none ∨ scan.maxBatchSize ≤ scan.keys.length) :
      Move s c (.scan c) (returned (s.sessions c) scan)
  | stop {tx : Transaction} {scan : Scan} {key : Key} (hat : s.AtKey c tx scan key)
      (hread : tx.readPointer < key.txId) :
      Move s c (.scan c) (returned (s.moved c tx scan key) scan)
  | skip {tx : Transaction} {scan : Scan} {key : Key} (hat : s.AtKey c tx scan key)
      (hread : key.txId ≤ tx.readPointer) (hin : tx.isInProgress key.txId = true) :
      Move s c (.scan c) { s.moved c tx scan key with
        phase := .scanning { s.advanced scan key with updateStartKey := false } }
  | look {tx : Transaction} {scan : Scan} {key : Key} (hlooks : s.Looks c tx scan key) :
      Move s c (.scan c) { s.moved c tx scan key with
        phase := .scanning (s.queue.take (s.config c) (s.advanced scan key) key).2 }
  | reclaim {result : DequeueResult} (hready : s.phase c = .ready)
      (hresult : result ∈ (s.sessions c).results) :
      Move s c (.reclaim c result) { s.sessions c with
        consumer := { s.consumer c with
          dequeuedKeys := ((s.consumer c).dequeuedKeys.reclaim result.keys).getD
            (s.consumer c).dequeuedKeys }
        taken := (s.sessions c).taken ++ result.keys }
  | commitTx (hready : s.phase c = .ready) :
      Move s c (.commitTx c) { s.sessions c with
        consumer := { s.consumer c with committed := true }, phase := .persisted }
  | postTxCommit {tx : Transaction} (hpersisted : s.phase c = .persisted)
      (htx : (s.consumer c).currentTx = some tx)
      (hcommitted : s.manager.statusOf tx.writePointer = some .committed) :
      Move s c (.postTxCommit c) { s.sessions c with phase := .idle }
  | rollbackTx {tx : Transaction} (hactive : s.phase c ≠ .idle)
      (htx : (s.consumer c).currentTx = some tx)
      (hcommitted : s.manager.statusOf tx.writePointer ≠ some .committed) :
      Move s c (.rollbackTx c) { s.sessions c with
        consumer := { s.consumer c with dequeuedKeys := .null }, phase := .idle }
  | resize {n : Nat} : Move s c (.resize c.1 n) .new

/-- The queue and the consumer after an iteration of the loop. -/
theorem scan_cases (h : s.scan c = some s') :
    ∃ session, s' = { s.setSession c session with queue := s'.queue } ∧
      Move s c (.scan c) session ∧
      (s'.queue = s.queue ∨ ∃ tx scan key, s.Looks c tx scan key ∧
        s'.queue = (s.queue.take (s.config c) (s.advanced scan key) key).1) := by
  rw [scan] at h
  split at h
  · rename_i scan tx hp ht
    split at h
    · rename_i hnext
      obtain rfl := Option.some_inj.mp h
      exact ⟨_, rfl, .finish hp (.inl hnext), .inl rfl⟩
    · rename_i key hnext
      simp only at h
      split at h
      · rename_i hfull
        obtain rfl := Option.some_inj.mp h
        exact ⟨returned (s.sessions c) scan, rfl, .finish hp (.inr hfull), .inl rfl⟩
      · rename_i hroom
        have hat : s.AtKey c tx scan key := ⟨hp, ht, hnext, by omega⟩
        rw [InMemoryQueue.visit] at h
        simp only at h
        by_cases hread : tx.readPointer < key.txId
        · rw [if_pos hread] at h
          obtain rfl := Option.some_inj.mp h
          exact ⟨returned (s.moved c tx scan key) scan, rfl, .stop hat hread, .inl rfl⟩
        rw [if_neg hread] at h
        by_cases hin : tx.isInProgress key.txId = true
        · rw [if_pos hin] at h
          obtain rfl := Option.some_inj.mp h
          have hmove : Move s c (.scan c) _ := .skip hat (by omega) hin
          exact ⟨_, rfl, hmove, .inl rfl⟩
        · rw [if_neg hin] at h
          obtain rfl := Option.some_inj.mp h
          have hlooks : s.Looks c tx scan key := ⟨hat, by omega, by simpa using hin⟩
          have hmove : Move s c (.scan c) _ := .look hlooks
          exact ⟨_, rfl, hmove, .inr ⟨tx, scan, key, hlooks, rfl⟩⟩
  · exact absurd h (by simp)

/-- An iteration that looks at an entry. -/
theorem queue_of_looks {tx : Transaction} {scan : Scan} (h : s.scan c = some s')
    (hlooks : s.Looks c tx scan key) :
    s'.queue = (s.queue.take (s.config c) (s.advanced scan key) key).1 := by
  rw [State.scan] at h
  simp only [hlooks.phase, hlooks.currentTx, hlooks.next] at h
  have hroom : ¬ scan.maxBatchSize ≤ scan.keys.length := Nat.not_le_of_lt hlooks.room
  have hread : ¬ tx.readPointer < key.txId := Nat.not_lt_of_le hlooks.read
  simp only [hroom, if_false, InMemoryQueue.visit, hread, hlooks.notInProgress,
    Bool.false_eq_true] at h
  rw [← Option.some_inj.mp h]
  rfl

theorem sessions_setSession {c' : ConsumerId} {session : Session} :
    (s.setSession c session).sessions c' = if c' = c then session else s.sessions c' := by
  show update s.sessions c session c' = _
  rw [update_apply]

/-- **What a step does to a consumer**: nothing, or what one of the moves says. -/
theorem session_step (h : s.step a = some s') (c : ConsumerId) :
    s'.sessions c = s.sessions c ∨ Move s c a (s'.sessions c) := by
  -- an action of one consumer leaves the others alone
  have hset : ∀ {c' : ConsumerId} {session : Session}, Move s c' a session →
      s'.sessions = (s.setSession c' session).sessions →
      s'.sessions c = s.sessions c ∨ Move s c a (s'.sessions c) := by
    intro c' session hmove heq
    rw [heq, sessions_setSession]
    by_cases hc : c = c'
    · subst hc
      rw [if_pos rfl]
      exact .inr hmove
    · rw [if_neg hc]
      exact .inl rfl
  cases a with
  | begin tx short participants =>
    obtain ⟨hs, hshort, hpart, m, -, rfl⟩ := begin_eq_some h
    by_cases hc : c ∈ participants
    · cases short with
      | false => exact absurd (hshort rfl) (List.ne_nil_of_mem hc)
      | true =>
        simp only [if_pos hc]
        exact .inr (.begin hs hc (hpart c hc).1 (hpart c hc).2)
    · exact .inl (if_neg hc)
  | enqueue w entry =>
    obtain ⟨-, rfl⟩ := enqueue_eq_some h
    exact .inl rfl
  | undoEnqueue w =>
    obtain ⟨-, rfl⟩ := undoEnqueue_eq_some h
    exact .inl rfl
  | dequeue c' n =>
    obtain ⟨hready, rfl⟩ := dequeue_eq_some h
    exact hset (.dequeue hready) rfl
  | scan c' =>
    obtain ⟨session, heq, hmove, -⟩ := scan_cases h
    exact hset hmove (by rw [heq])
  | reclaim c' result =>
    obtain ⟨hready, hresult, rfl⟩ := reclaim_eq_some h
    exact hset (.reclaim hready hresult) rfl
  | commitTx c' =>
    obtain ⟨hready, rfl⟩ := commitTx_eq_some h
    exact hset (.commitTx hready) rfl
  | commit w =>
    obtain ⟨-, -, m, -, rfl⟩ := commit_eq_some h
    exact .inl rfl
  | postTxCommit c' =>
    obtain ⟨tx, hp, htx, hcommitted, rfl⟩ := postTxCommit_eq_some h
    exact hset (.postTxCommit hp htx hcommitted) rfl
  | rollbackTx c' =>
    obtain ⟨tx, htx, hactive, hcommitted, rfl⟩ := rollbackTx_eq_some h
    exact hset (.rollbackTx hactive htx hcommitted) rfl
  | abort w =>
    obtain ⟨m, -, rfl⟩ := abort_eq_some h
    exact .inl rfl
  | invalidate w =>
    obtain ⟨m, -, rfl⟩ := invalidate_eq_some h
    exact .inl rfl
  | resize g n =>
    obtain ⟨hpos, rfl⟩ := resize_eq_some h
    by_cases hc : c.1 = g
    · subst hc
      simp only [if_pos]
      exact .inr .resize
    · exact .inl (if_neg hc)

/-! ## What a step does to an entry -/

/-- `Writes s key g a st`: the action `a` writes `st` as the state of the entry for the group. -/
inductive Writes (s : State) (key : Key) (g : Nat) : Action → Option ItemEntryState → Prop
  | claim {i : Nat} {tx : Transaction} {scan : Scan} (hlooks : s.Looks (g, i) tx scan key)
      (hfifo : (s.config (g, i)).dequeueStrategy = .fifo) (hnone : s.queue.state g key = none) :
      Writes s key g (.scan (g, i)) (some ⟨i, .claimed⟩)
  | ack {i : Nat} (hready : s.phase (g, i) = .ready) (hkey : key ∈ s.dequeuedKeys (g, i)) :
      Writes s key g (.commitTx (g, i)) (some ⟨i, .processed⟩)
  | revoke {i : Nat} (hactive : s.phase (g, i) ≠ .idle) (hkey : key ∈ s.dequeuedKeys (g, i))
      (hfifo : (s.config (g, i)).dequeueStrategy = .fifo) :
      Writes s key g (.rollbackTx (g, i)) (some ⟨i, .claimed⟩)
  | remove {i : Nat} (hactive : s.phase (g, i) ≠ .idle) (hkey : key ∈ s.dequeuedKeys (g, i))
      (hfifo : (s.config (g, i)).dequeueStrategy ≠ .fifo)
      (hcommitted : (s.consumer (g, i)).committed = true) :
      Writes s key g (.rollbackTx (g, i)) none

/-- An item after a step, if it was there before. -/
structure ItemStep (s : State) (a : Action) (key : Key) (item item' : Item) : Prop where
  entry : item'.entry = item.entry
  states : ∀ g, item'.consumerStates g = item.consumerStates g ∨
    Writes s key g a (item'.consumerStates g)
  count : item'.processedCount = item.processedCount ∨
    ∃ c, a = .postTxCommit c ∧ key ∈ s.dequeuedKeys c ∧
      item'.processedCount = item.processedCount + (s.dequeuedKeys c).count key

theorem ItemStep.refl {item : Item} : ItemStep s a key item item :=
  ⟨rfl, fun _ ↦ .inl rfl, .inl rfl⟩

theorem ItemStep.putState {item : Item} {st : Option ItemEntryState} (h : Writes s key g a st) :
    ItemStep s a key item (item.putState g st) where
  entry := rfl
  states g' := by
    rw [Item.putState]
    by_cases hg : g' = g
    · subst hg
      simp only [update_self]
      exact .inr h
    · exact .inl (update_of_ne hg _ _)
  count := .inl rfl

/-- **What a step does to an entry** that is there afterwards: it was enqueued, or it was there
before and its states changed as `Writes` says. -/
theorem item_step {item' : Item} (h : s.step a = some s') (hitem : s'.queue.item key = some item') :
    (∃ entry, a = .enqueue key.txId entry ∧ key.seqNo = s.enqueued key.txId ∧
      item' = .new entry) ∨
    ∃ item, s.queue.item key = some item ∧ ItemStep s a key item item' := by
  -- an action that does not touch the entry
  have hsame : s'.queue.item key = s.queue.item key →
      ∃ item, s.queue.item key = some item ∧ ItemStep s a key item item' :=
    fun heq ↦ ⟨item', heq.symm.trans hitem, .refl⟩
  cases a with
  | begin tx short participants =>
    obtain ⟨-, -, -, m, -, rfl⟩ := begin_eq_some h
    exact .inr (hsame rfl)
  | enqueue w entry =>
    obtain ⟨-, rfl⟩ := enqueue_eq_some h
    by_cases hkey : key = ⟨w, s.enqueued w⟩
    · rw [InMemoryQueue.item_enqueue, if_pos hkey] at hitem
      subst hkey
      exact .inl ⟨entry, rfl, rfl, (Option.some_inj.mp hitem).symm⟩
    · refine .inr (hsame ?_)
      rw [InMemoryQueue.item_enqueue, if_neg hkey]
  | undoEnqueue w =>
    obtain ⟨-, rfl⟩ := undoEnqueue_eq_some h
    refine .inr (hsame ?_)
    rw [InMemoryQueue.item_undoEnqueue] at hitem ⊢
    split
    · rename_i hundone
      rw [if_pos hundone] at hitem
      exact absurd hitem (by simp)
    · rfl
  | dequeue c n =>
    obtain ⟨-, rfl⟩ := dequeue_eq_some h
    exact .inr (hsame rfl)
  | scan c =>
    obtain ⟨session, -, -, hqueue⟩ := scan_cases h
    rcases hqueue with heq | ⟨tx, scan, key', hlooks, heq⟩
    · exact .inr (hsame (by rw [heq]))
    rcases InMemoryQueue.take_cases s.queue (s.config c) (s.advanced scan key') key' with
      ⟨htake, -⟩ | ⟨item, hkey', -, ⟨hfifo, hnone, htake⟩ | ⟨-, -, htake⟩ | ⟨-, -, htake⟩ |
        ⟨-, -, htake⟩⟩
    · exact .inr (hsame (by rw [heq, htake]))
    · rw [heq, htake] at hitem
      by_cases hk : key = key'
      · subst hk
        have hput : (s.queue.entries.put key
            (item.setConsumerState (s.config c) .claimed)).get key = some item' := hitem
        rw [SortedMap.get_put, if_pos rfl] at hput
        obtain rfl := Option.some_inj.mp hput
        exact .inr ⟨item, hkey', .putState (.claim hlooks hfifo
          ((InMemoryQueue.state_of_item hkey').trans hnone))⟩
      · refine .inr (hsame ?_)
        rw [heq, htake]
        show SortedMap.get (SortedMap.put _ _ _) key = _
        rw [SortedMap.get_put, if_neg hk]
    all_goals exact .inr (hsame (by rw [heq, htake]))
  | reclaim c result =>
    obtain ⟨-, -, rfl⟩ := reclaim_eq_some h
    exact .inr (hsame rfl)
  | commitTx c =>
    obtain ⟨hready, rfl⟩ := commitTx_eq_some h
    have hack : (s.queue.ack (s.dequeuedKeys c) (s.config c)).item key = some item' := hitem
    rw [InMemoryQueue.item_ack] at hack
    split at hack
    · rename_i hkey
      obtain ⟨item, hkey', rfl⟩ := Option.map_eq_some_iff.mp hack
      exact .inr ⟨item, hkey', .putState (.ack hready hkey)⟩
    · exact .inr ⟨item', hack, .refl⟩
  | commit w =>
    obtain ⟨-, -, m, -, rfl⟩ := commit_eq_some h
    exact .inr (hsame rfl)
  | postTxCommit c =>
    obtain ⟨tx, -, -, -, rfl⟩ := postTxCommit_eq_some h
    have hevict : (s.queue.evict (s.dequeuedKeys c) s.numGroups).item key = some item' := hitem
    rcases Nat.eq_zero_or_pos s.numGroups with hzero | hpos
    · rw [InMemoryQueue.evict, if_pos (by omega)] at hevict
      exact .inr ⟨item', hevict, .refl⟩
    rw [InMemoryQueue.item_evict hpos] at hevict
    obtain ⟨item, hkey', hevict⟩ := Option.bind_eq_some_iff.mp hevict
    refine .inr ⟨item, hkey', ?_⟩
    split at hevict
    · obtain rfl := Option.some_inj.mp hevict
      exact .refl
    · rename_i hcount
      split at hevict
      · exact absurd hevict (by simp)
      · obtain rfl := Option.some_inj.mp hevict
        exact ⟨rfl, fun _ ↦ .inl rfl, .inr ⟨c, rfl, List.count_pos_iff.mp (by omega), rfl⟩⟩
  | rollbackTx c =>
    obtain ⟨tx, -, hactive, -, rfl⟩ := rollbackTx_eq_some h
    simp only at hitem
    split at hitem
    · rename_i hcond
      rw [InMemoryQueue.item_undoDequeue] at hitem
      split at hitem
      · rename_i hkey
        obtain ⟨item, hkey', rfl⟩ := Option.map_eq_some_iff.mp hitem
        refine .inr ⟨item, hkey', ?_⟩
        by_cases hfifo : (s.config c).dequeueStrategy = .fifo
        · simp only [Item.revokeConsumerState, hfifo, decide_true, if_true]
          exact .putState (.revoke hactive hkey hfifo)
        · simp only [Item.revokeConsumerState, hfifo, decide_false, Bool.false_eq_true, if_false]
          exact .putState (.remove hactive hkey hfifo (hcond.resolve_right hfifo))
      · exact .inr ⟨item', hitem, .refl⟩
    · exact .inr ⟨item', hitem, .refl⟩
  | abort w =>
    obtain ⟨m, -, rfl⟩ := abort_eq_some h
    exact .inr (hsame rfl)
  | invalidate w =>
    obtain ⟨m, -, rfl⟩ := invalidate_eq_some h
    exact .inr (hsame rfl)
  | resize g n =>
    obtain ⟨hpos, rfl⟩ := resize_eq_some h
    exact .inr (hsame rfl)

end State
end Tigon.InMemory
