import Tigon.Lib.Run
import Tigon.Queue.Consumer
import Tigon.Queue.Eviction
import Tigon.Queue.Groups

/-!
# The queue as a system

One queue, its producers, the consumers of any number of groups, and the region server, all taking
part in transactions of a common transaction manager.  `step` is the transition function; an action
is one call of the source that can be interleaved with the calls of other parties:

* `begin` starts a transaction and calls `startTx` on the consumers that take part in it;
* `persist` and `unpersist` are the producers' `commitTx` and `rollbackTx`;
* `dequeue` enters a call of `dequeue`, and `fetch` and `claim` carry it out, one round of
  `getEntries` and one claim at a time, so other parties may act while it runs;
* `commitTx`, `postTxCommit` and `rollbackTx` are the consumers';
* `commit`, `abort` and `invalidate` are the manager's: a transaction is committed when every
  participant has persisted its changes, it is aborted when all of them have undone theirs, and it
  can time out at any moment;
* `restart` closes a consumer, or loses it, and creates it anew from its persisted start row;
* `refresh` reads the start rows into the configuration cache of the region server, and `evict`
  drops a row at a flush or compaction, on the strength of a configuration that was cached at some
  time before.

Long-running transactions exist but take no part in queues; the source says so where it relies on
it (`QueueEntryRow.canConsume`), and nothing in the repository starts one.
-/

set_option autoImplicit false

open Mvcc

namespace Tigon

/-- Where a consumer is. -/
inductive Phase
  /-- Between transactions. -/
  | idle
  /-- In a transaction, outside `dequeue`. -/
  | ready
  /-- In `dequeue`, before the next round of `getEntries`. -/
  | fetching (maxBatchSize : Nat)
  /-- In `dequeue`, with these entries left for the claim loop. -/
  | claiming (maxBatchSize : Nat) (todo : List SimpleQueueEntry)
  /-- `commitTx` was called. -/
  | persisted
deriving DecidableEq

/-- A consumer, where it is, and whether a call of `dequeue` has returned in its transaction, and
none was made since. -/
structure Session where
  consumer : Consumer
  phase : Phase
  dequeued : Bool

/-- The state of the whole system. -/
structure State where
  manager : Manager
  contexts : Nat → TxContext
  table : Table
  sessions : ConsumerId → Session
  /-- The start rows in the state store. -/
  startRows : ConsumerId → Option Row
  /-- The configurations the region server has had in its cache. -/
  configs : List QueueConsumerConfig
  /-- For each group, which committed transaction processed which row. -/
  log : Nat → List (Nat × Row)
  /-- For each consumer, the committed transactions in which a call of `dequeue` returned. -/
  cycles : ConsumerId → List Transaction

inductive Action
  | begin (tx : Transaction) (short : Bool) (participants : List ConsumerId)
  | persist (w : Nat) (entries : List QueueEntry)
  | unpersist (w : Nat)
  | dequeue (c : ConsumerId) (maxBatchSize : Nat)
  | fetch (c : ConsumerId)
  | claim (c : ConsumerId)
  | commitTx (c : ConsumerId)
  | commit (w : Nat)
  | postTxCommit (c : ConsumerId) (saved : Bool)
  | rollbackTx (c : ConsumerId)
  | abort (w : Nat)
  | invalidate (w : Nat)
  | restart (c : ConsumerId) (close : Bool)
  | refresh
  | evict (config : QueueConsumerConfig) (r : Row)

namespace State

/-- Nothing was written, every consumer is fresh. -/
def init : State where
  manager := .empty
  contexts := fun _ ↦ ⟨[], []⟩
  table := .empty
  sessions := fun _ ↦ ⟨.create none, .idle, false⟩
  startRows := fun _ ↦ none
  configs := []
  log := fun _ ↦ []
  cycles := fun _ ↦ []

/-- The fields of a consumer. -/
abbrev consumer (s : State) (c : ConsumerId) : Consumer := (s.sessions c).consumer

/-- Where a consumer is. -/
abbrev phase (s : State) (c : ConsumerId) : Phase := (s.sessions c).phase

/-- Change one consumer. -/
def setSession (s : State) (c : ConsumerId) (session : Session) : State :=
  { s with sessions := Function.update s.sessions c session }

/-- The rows a producer's entries go to: the counter starts anew in every transaction. -/
def entryRows (w : Nat) (entries : List QueueEntry) : List (Row × QueueEntry) :=
  entries.zipIdx.map fun p ↦ (⟨w, p.2⟩, p.1)

/-! ## The transition function, action by action -/

variable (groups : Groups)

def begin (s : State) (tx : Transaction) (short : Bool) (participants : List ConsumerId) :
    Option State :=
  if IsSnapshot s.manager tx ∧ (short = false → participants = []) ∧
      ∀ c ∈ participants, groups.Has c ∧ s.phase c = .idle then
    (s.manager.start? tx.writePointer short).map fun m ↦
      { s with
        manager := m
        contexts := Function.update s.contexts tx.writePointer ⟨participants, []⟩
        sessions := fun c ↦
          if c ∈ participants then ⟨(s.consumer c).startTx tx, .ready, false⟩
          else s.sessions c }
  else none

def persist (s : State) (w : Nat) (entries : List QueueEntry) : Option State :=
  if (s.manager.info w = some ⟨true, .inProgress⟩ ∨ s.manager.info w = some ⟨true, .invalid⟩) ∧
      ∀ r ∈ s.table.rows, r.writePointer ≠ w then
    some { s with
      table := (entryRows w entries).foldl (fun t p ↦ t.putEntry p.1 p.2) s.table }
  else none

def unpersist (s : State) (w : Nat) : Option State :=
  if s.manager.statusOf w = some .inProgress ∨ s.manager.statusOf w = some .invalid then
    some { s with
      table := (s.table.rows.filter fun r ↦ r.writePointer = w).foldl Table.deleteRow s.table }
  else none

def dequeue (s : State) (c : ConsumerId) (maxBatchSize : Nat) : Option State :=
  if s.phase c = .ready ∧ 0 < maxBatchSize then
    some (s.setSession c ⟨s.consumer c, .fetching maxBatchSize, false⟩)
  else none

/-- A call of `dequeue` returns. -/
def returned (consumer : Consumer) : Session := ⟨consumer, .ready, true⟩

/-- Where a round of `getEntries` leaves the consumer. -/
def afterFetch (config : ConsumerConfig) (maxBatchSize : Nat) (hasEntry : Bool)
    (consumer : Consumer) : Session :=
  if hasEntry then
    if Consumer.mustClaim config then
      ⟨consumer, .claiming maxBatchSize consumer.consumingEntries, false⟩
    else ⟨consumer, .fetching maxBatchSize, false⟩
  else returned consumer

def fetch (s : State) (c : ConsumerId) : Option State :=
  match s.phase c, (s.consumer c).transaction with
  | .fetching maxBatchSize, some tx =>
    if (s.consumer c).consumingEntries.length < maxBatchSize then
      let (hasEntry, consumer) :=
        (s.consumer c).getEntries (groups.consumerConfig c) s.table tx maxBatchSize
      some (s.setSession c (afterFetch (groups.consumerConfig c) maxBatchSize hasEntry consumer))
    else some (s.setSession c (returned (s.consumer c)))
  | _, _ => none

def claim (s : State) (c : ConsumerId) : Option State :=
  match s.phase c, (s.consumer c).transaction with
  | .claiming maxBatchSize [], some _ =>
    some (s.setSession c { s.sessions c with phase := .fetching maxBatchSize })
  | .claiming maxBatchSize (entry :: todo), some tx =>
    let (consumer, table) := (s.consumer c).claim (groups.consumerConfig c) s.table tx entry
    some { s.setSession c { s.sessions c with
        consumer := consumer, phase := .claiming maxBatchSize todo } with table := table }
  | _, _ => none

def commitTx (s : State) (c : ConsumerId) : Option State :=
  match s.phase c, (s.consumer c).transaction with
  | .ready, some tx =>
    let (consumer, table) := (s.consumer c).commitTx (groups.consumerConfig c) s.table tx
    some { s.setSession c { s.sessions c with consumer := consumer, phase := .persisted } with
      table := table }
  | _, _ => none

/-- A participant has called `commitTx` in the transaction `w`. -/
def HasPersisted (s : State) (w : Nat) (c : ConsumerId) : Prop :=
  s.phase c = .persisted ∧ (s.consumer c).transaction.map Transaction.writePointer = some w

instance (s : State) (w : Nat) (c : ConsumerId) : Decidable (s.HasPersisted w c) :=
  inferInstanceAs (Decidable (_ ∧ _))

/-- What a committing transaction adds to the log of a group. -/
def logged (s : State) (w g : Nat) : List (Nat × Row) :=
  ((s.contexts w).participants.filter fun c ↦ c.1 = g).flatMap fun c ↦
    (s.consumer c).consumingRows.map fun r ↦ (w, r)

/-- What a committing transaction adds to the cycles of a consumer. -/
def cycled (s : State) (w : Nat) (c : ConsumerId) : List Transaction :=
  if c ∈ (s.contexts w).participants ∧ (s.sessions c).dequeued then
    (s.consumer c).transaction.toList
  else []

def commit (s : State) (w : Nat) : Option State :=
  if (s.contexts w).rolledBack = [] ∧ ∀ c ∈ (s.contexts w).participants, s.HasPersisted w c then
    (s.manager.finish? w .committed).map fun m ↦
      { s with
        manager := m
        log := fun g ↦ s.log g ++ s.logged w g
        cycles := fun c ↦ s.cycles c ++ s.cycled w c }
  else none

def postTxCommit (s : State) (c : ConsumerId) (saved : Bool) : Option State :=
  match s.phase c, (s.consumer c).transaction with
  | .persisted, some tx =>
    if s.manager.statusOf tx.writePointer = some .committed then
      let (consumer, startRow) := (s.consumer c).hbasePostTxCommit (s.startRows c) saved
      some { s.setSession c ⟨consumer, .idle, false⟩ with
        startRows := Function.update s.startRows c startRow }
    else none
  | _, _ => none

def rollbackTx (s : State) (c : ConsumerId) : Option State :=
  match (s.consumer c).transaction with
  | some tx =>
    if s.phase c ≠ .idle ∧ s.manager.statusOf tx.writePointer ≠ some .committed then
      let (consumer, table) := (s.consumer c).rollbackTx (groups.consumerConfig c) s.table tx
      let context := s.contexts tx.writePointer
      some { s.setSession c ⟨consumer, .idle, false⟩ with
        table := table
        contexts := Function.update s.contexts tx.writePointer
          { context with rolledBack := c :: context.rolledBack } }
    else none
  | none => none

def abort (s : State) (w : Nat) : Option State :=
  if (∀ c ∈ (s.contexts w).participants, c ∈ (s.contexts w).rolledBack) ∧
      ∀ r ∈ s.table.rows, r.writePointer ≠ w then
    (s.manager.finish? w .aborted).map fun m ↦ { s with manager := m }
  else none

def invalidate (s : State) (w : Nat) : Option State :=
  (s.manager.finish? w .invalid).map fun m ↦ { s with manager := m }

/-- Closing a consumer saves its start row; losing it does not. -/
def restart (s : State) (c : ConsumerId) (close : Bool) : Option State :=
  let startRow := if close then some (s.consumer c).startRow else s.startRows c
  some { s.setSession c ⟨.create startRow, .idle, false⟩ with
    startRows := Function.update s.startRows c startRow }

/-- The columns of the queue's row in the configuration table. -/
def columns (s : State) : List (ConsumerInstance × Option Row) :=
  groups.consumers.map fun c ↦ (c, s.startRows c)

def refresh (s : State) : Option State :=
  some { s with configs := s.configs ++ (updateCache (s.columns groups)).toList }

/-- The cells of a row, in the order of their columns. -/
def cells (s : State) (r : Row) : List Cell :=
  match s.table.entry r with
  | none => []
  | some e => .dataColumn e.data :: .metaColumn e.hashKeys ::
      groups.ids.filterMap fun g ↦ (s.table.state g r).map fun st ↦ .stateColumn g st

def evict (s : State) (config : QueueConsumerConfig) (r : Row) : Option State :=
  if config ∈ s.configs ∧ r ∈ s.table.rows ∧ canEvict config r (s.cells groups r) then
    some { s with table := s.table.deleteRow r }
  else none

/-- The transition function. -/
def step (s : State) : Action → Option State
  | .begin tx short participants => s.begin groups tx short participants
  | .persist w entries => s.persist w entries
  | .unpersist w => s.unpersist w
  | .dequeue c maxBatchSize => s.dequeue c maxBatchSize
  | .fetch c => s.fetch groups c
  | .claim c => s.claim groups c
  | .commitTx c => s.commitTx groups c
  | .commit w => s.commit w
  | .postTxCommit c saved => s.postTxCommit c saved
  | .rollbackTx c => s.rollbackTx groups c
  | .abort w => s.abort w
  | .invalidate w => s.invalidate w
  | .restart c close => s.restart c close
  | .refresh => s.refresh groups
  | .evict config r => s.evict groups config r

/-! ## What each action does

One lemma for each action that does more than change one field: when it is accepted, and what the
state is afterwards. -/

variable {groups} {s s' : State} {c : ConsumerId} {w n : Nat} {tx : Transaction}

theorem begin_eq_some {short : Bool} {participants : List ConsumerId}
    (h : s.begin groups tx short participants = some s') :
    IsSnapshot s.manager tx ∧ (short = false → participants = []) ∧
      (∀ c ∈ participants, groups.Has c ∧ s.phase c = .idle) ∧
      ∃ m, s.manager.start? tx.writePointer short = some m ∧ s' = { s with
        manager := m
        contexts := Function.update s.contexts tx.writePointer ⟨participants, []⟩
        sessions := fun c ↦
          if c ∈ participants then ⟨(s.consumer c).startTx tx, .ready, false⟩
          else s.sessions c } := by
  rw [begin] at h
  split at h
  · rename_i hc
    obtain ⟨m, hm, rfl⟩ := Option.map_eq_some_iff.mp h
    exact ⟨hc.1, hc.2.1, hc.2.2, m, hm, rfl⟩
  · exact absurd h (by simp)

theorem fetch_eq_some (h : s.fetch groups c = some s') :
    ∃ n tx, s.phase c = .fetching n ∧ (s.consumer c).transaction = some tx ∧
      (((s.consumer c).consumingEntries.length < n ∧
        s' = s.setSession c (afterFetch (groups.consumerConfig c) n
          ((s.consumer c).getEntries (groups.consumerConfig c) s.table tx n).1
          ((s.consumer c).getEntries (groups.consumerConfig c) s.table tx n).2)) ∨
      (n ≤ (s.consumer c).consumingEntries.length ∧
        s' = s.setSession c (returned (s.consumer c)))) := by
  rw [fetch] at h
  split at h
  · rename_i n tx hp ht
    refine ⟨n, tx, hp, ht, ?_⟩
    split at h
    · rename_i hlt
      exact .inl ⟨hlt, (Option.some_inj.mp h).symm⟩
    · rename_i hlt
      exact .inr ⟨Nat.not_lt.mp hlt, (Option.some_inj.mp h).symm⟩
  · exact absurd h (by simp)

/-- The three ways the body of the claim loop can go. -/
theorem claim_cases (config : ConsumerConfig) (t : Table) (tx : Transaction) (c : Consumer)
    (entry : SimpleQueueEntry) :
    (¬ Consumer.wantsClaim config entry ∧ Consumer.claim config t tx c entry = (c, t)) ∨
    (Consumer.wantsClaim config entry ∧ t.state config.groupId entry.rowKey = none ∧
      Consumer.claim config t tx c entry = (c, t.setState config.groupId [entry.rowKey]
        (some (Consumer.encodeStateColumn config tx .claimed)))) ∨
    (Consumer.wantsClaim config entry ∧ t.state config.groupId entry.rowKey ≠ none ∧
      Consumer.claim config t tx c entry = (c.drop entry.rowKey, t)) := by
  rw [Consumer.claim, Consumer.claimEntry]
  by_cases hw : Consumer.wantsClaim config entry
  · by_cases hn : t.state config.groupId entry.rowKey = none
    · exact .inr (.inl ⟨hw, hn, by simp [hw, hn]⟩)
    · exact .inr (.inr ⟨hw, hn, by simp [hw, hn]⟩)
  · exact .inl ⟨hw, by simp [hw]⟩

/-- The end of the claim loop, or one more entry of it: an entry that need not be claimed, one
that is claimed, and one that cannot be. -/
theorem claim_eq_some (h : s.claim groups c = some s') :
    ∃ n todo tx, s.phase c = .claiming n todo ∧ (s.consumer c).transaction = some tx ∧
      ((todo = [] ∧ s' = s.setSession c { s.sessions c with phase := .fetching n }) ∨
      ∃ entry rest, todo = entry :: rest ∧
        ((¬ Consumer.wantsClaim (groups.consumerConfig c) entry ∧
          s' = s.setSession c { s.sessions c with phase := .claiming n rest }) ∨
        (Consumer.wantsClaim (groups.consumerConfig c) entry ∧
          s.table.state c.1 entry.rowKey = none ∧
          s' = { s.setSession c { s.sessions c with phase := .claiming n rest } with
            table := s.table.setState c.1 [entry.rowKey]
              (some (Consumer.encodeStateColumn (groups.consumerConfig c) tx .claimed)) }) ∨
        (Consumer.wantsClaim (groups.consumerConfig c) entry ∧
          s.table.state c.1 entry.rowKey ≠ none ∧
          s' = s.setSession c { s.sessions c with
            consumer := (s.consumer c).drop entry.rowKey, phase := .claiming n rest }))) := by
  rw [claim] at h
  split at h
  · rename_i n _ hp ht
    exact ⟨n, [], _, hp, ht, .inl ⟨rfl, (Option.some_inj.mp h).symm⟩⟩
  · rename_i n entry todo tx hp ht
    refine ⟨n, _, tx, hp, ht, .inr ⟨entry, todo, rfl, ?_⟩⟩
    rcases claim_cases (groups.consumerConfig c) s.table tx (s.consumer c) entry with
      ⟨hw, heq⟩ | ⟨hw, hn, heq⟩ | ⟨hw, hn, heq⟩
    · rw [heq] at h
      exact .inl ⟨hw, (Option.some_inj.mp h).symm⟩
    · rw [heq] at h
      exact .inr (.inl ⟨hw, hn, (Option.some_inj.mp h).symm⟩)
    · rw [heq] at h
      exact .inr (.inr ⟨hw, hn, (Option.some_inj.mp h).symm⟩)
  · exact absurd h (by simp)

theorem commitTx_eq_some (h : s.commitTx groups c = some s') :
    ∃ tx, s.phase c = .ready ∧ (s.consumer c).transaction = some tx ∧
      s' = { s.setSession c { s.sessions c with
          consumer := ((s.consumer c).commitTx (groups.consumerConfig c) s.table tx).1
          phase := .persisted } with
        table := ((s.consumer c).commitTx (groups.consumerConfig c) s.table tx).2 } := by
  rw [commitTx] at h
  split at h
  · rename_i tx hp ht
    exact ⟨tx, hp, ht, (Option.some_inj.mp h).symm⟩
  · exact absurd h (by simp)

theorem commit_eq_some (h : s.commit w = some s') :
    (s.contexts w).rolledBack = [] ∧ (∀ c ∈ (s.contexts w).participants, s.HasPersisted w c) ∧
      ∃ m, s.manager.finish? w .committed = some m ∧ s' = { s with
        manager := m
        log := fun g ↦ s.log g ++ s.logged w g
        cycles := fun c ↦ s.cycles c ++ s.cycled w c } := by
  rw [commit] at h
  split at h
  · rename_i hc
    obtain ⟨m, hm, rfl⟩ := Option.map_eq_some_iff.mp h
    exact ⟨hc.1, hc.2, m, hm, rfl⟩
  · exact absurd h (by simp)

theorem postTxCommit_eq_some {saved : Bool} (h : s.postTxCommit c saved = some s') :
    ∃ tx, s.phase c = .persisted ∧ (s.consumer c).transaction = some tx ∧
      s.manager.statusOf tx.writePointer = some .committed ∧
      s' = { s.setSession c
          ⟨((s.consumer c).hbasePostTxCommit (s.startRows c) saved).1, .idle, false⟩ with
        startRows := Function.update s.startRows c
          ((s.consumer c).hbasePostTxCommit (s.startRows c) saved).2 } := by
  rw [postTxCommit] at h
  split at h
  · rename_i tx hp ht
    split at h
    · rename_i hst
      exact ⟨tx, hp, ht, hst, (Option.some_inj.mp h).symm⟩
    · exact absurd h (by simp)
  · exact absurd h (by simp)

theorem rollbackTx_eq_some (h : s.rollbackTx groups c = some s') :
    ∃ tx, (s.consumer c).transaction = some tx ∧ s.phase c ≠ .idle ∧
      s.manager.statusOf tx.writePointer ≠ some .committed ∧
      s' = { s.setSession c
          ⟨((s.consumer c).rollbackTx (groups.consumerConfig c) s.table tx).1, .idle, false⟩ with
        table := ((s.consumer c).rollbackTx (groups.consumerConfig c) s.table tx).2
        contexts := Function.update s.contexts tx.writePointer
          { s.contexts tx.writePointer with
            rolledBack := c :: (s.contexts tx.writePointer).rolledBack } } := by
  rw [rollbackTx] at h
  split at h
  · rename_i tx ht
    split at h
    · rename_i hc
      exact ⟨tx, ht, hc.1, hc.2, (Option.some_inj.mp h).symm⟩
    · exact absurd h (by simp)
  · exact absurd h (by simp)

theorem abort_eq_some (h : s.abort w = some s') :
    (∀ c ∈ (s.contexts w).participants, c ∈ (s.contexts w).rolledBack) ∧
      (∀ r ∈ s.table.rows, r.writePointer ≠ w) ∧
      ∃ m, s.manager.finish? w .aborted = some m ∧ s' = { s with manager := m } := by
  rw [abort] at h
  split at h
  · rename_i hc
    obtain ⟨m, hm, rfl⟩ := Option.map_eq_some_iff.mp h
    exact ⟨hc.1, hc.2, m, hm, rfl⟩
  · exact absurd h (by simp)

end State
end Tigon
