import Tigon.Lib.Run

/-!
# The flowlet process driver

`FlowletProcessDriver` calls the process methods of a flowlet, each call in a transaction of its
own. The inputs come from queue consumers.  Those take part in the transactions, as do the producers
that collect the outputs: what a consumer has dequeued is marked processed, and what the producers
have collected is written, when the transaction commits.  If the process method or the commit fails,
the callback of the flowlet decides whether the input is tried again, in a later transaction that
*reclaims* it, or ignored, which is to reclaim it in a transaction without a process method.

Suspending the flowlet closes its consumers and resuming it opens new ones.  An input that waits to
be tried again still belongs to the consumer it came from, and reclaims itself there.  By then that
consumer takes part in no transaction.

A `State` has the consumers as objects, by number, with the entries each of them would mark; which
of them the suppliers hand out, and which take part in a transaction; what the producers have
collected; the process entries that wait for their turn; and the transactions that were committed,
in order.  One action is one call of `handleProcessEntry`, with whatever the queues, the transaction
system and the flowlet do in its course, or one call of `suspend` or `resume`, which only take
effect between two such calls.

`exactlyOnce_of_suspendOk` says that inputs and outputs go together in the runs where no input waits
to be tried again when the flowlet is suspended.  `exists_not_exactlyOnce` has the run where one
does: the outputs of an input are written that is never marked.
-/

set_option autoImplicit false
set_option linter.unusedSectionVars false

namespace Tigon.Flow.FlowletProcessDriver

open Function

/-- The process methods of a flowlet and the consumer suppliers they read from.  A method without
supplier is one without input. -/
structure ProcessSpecs (M Q : Type) where
  methods : List M
  suppliers : List Q
  /-- The method that reads from the supplier. -/
  method : Q → M
  maxRetries : M → Int
  nodup : methods.Nodup

inductive FailurePolicy
  | retry | ignore
deriving DecidableEq, Repr

/-- What a queue reader hands to a process method. -/
inductive InputDatum (E : Type)
  /-- `NullInputDatum`, the input of a method without input. -/
  | null
  /-- `BasicInputDatum`: entries dequeued by a consumer, and how often they were tried again. -/
  | basic (consumer : Nat) (entries : Finset E) (retry : Nat)

/-- A `FlowletProcessEntry`: a method, and the input it is to try again. -/
structure FlowletProcessEntry (M E : Type) where
  method : M
  retry : Option (InputDatum E)

/-- A committed transaction: what it was for and what it did. -/
structure Committed (Q E O : Type) where
  /-- The entries of the input that was processed or acknowledged. -/
  input : Finset (Q × E)
  /-- What the process method emitted. -/
  emitted : List O
  acked : Bool
  /-- The entries it marked processed. -/
  marked : Finset (Q × E)
  /-- The outputs it wrote. -/
  written : List O

/-- What a queue reader does when asked for an input. -/
inductive Dequeued (Q E : Type)
  | empty
  | entries (q : Q) (es : Finset E)
  /-- The consumer has dequeued the entries, but they cannot be decoded. -/
  | failed (q : Q) (es : Finset E)

inductive InvokeResult
  | success | failure
  /-- The call itself failed, not the method of the flowlet. -/
  | thrown
deriving DecidableEq, Repr

/-- What others do in the course of a call of `handleProcessEntry`. -/
structure Outcome (Q E O : Type) where
  start : Bool
  dequeued : Dequeued Q E
  emitted : List O
  result : InvokeResult
  finish : Bool
  /-- The cause of a failure has a message. -/
  message : Bool
  /-- The answer of the callback.  It may be null, or an exception. -/
  policy : Option FailurePolicy
  ackStart : Bool
  ackFinish : Bool

/-- What others do while a consumer supplier is closed. -/
structure CloseOutcome where
  start : Bool
  closed : Bool
  finish : Bool

/-- What others do while a consumer supplier is opened. -/
structure OpenOutcome where
  close : CloseOutcome
  created : Bool

structure State (M Q E O : Type) where
  /-- The number of consumers created so far. -/
  next : Nat
  /-- The supplier a consumer was created for. -/
  owner : Nat → Q
  /-- The entries that a consumer marks processed when a transaction commits. -/
  consuming : Nat → Finset E
  /-- The consumer that the supplier hands out. -/
  supplied : Q → Option Nat
  /-- The consumers that take part in a new transaction. -/
  txAware : Finset Nat
  /-- What the producers have collected. -/
  buffer : List O
  /-- The retry count of the null input of a method. -/
  nullRetry : M → Nat
  processQueue : List (FlowletProcessEntry M E)
  suspended : Bool
  log : List (Committed Q E O)
  /-- The entries that other instances of the flowlet have marked. -/
  others : Finset (Q × E)

inductive Action (Q E O : Type)
  | handle (i : Nat) (o : Outcome Q E O)
  | suspend (o : Q → CloseOutcome)
  | resume (o : Q → OpenOutcome)
  /-- Another instance of the flowlet marks an entry. -/
  | other (x : Q × E)

variable {M Q E O : Type} [DecidableEq M] [DecidableEq Q] [DecidableEq E]

namespace State

/-! ## Transactions -/

/-- Each of the participants forgets what it did in an earlier transaction. -/
def startTx (s : State M Q E O) : State M Q E O :=
  { s with consuming := fun c ↦ if c ∈ s.txAware then ∅ else s.consuming c, buffer := [] }

/-- The entries with the supplier of the consumer. -/
def tagged (s : State M Q E O) (c : Nat) (es : Finset E) : Finset (Q × E) :=
  es.image fun e ↦ (s.owner c, e)

/-- The entries that the participants mark processed. -/
def marks (s : State M Q E O) (participants : Finset Nat) : Finset (Q × E) :=
  participants.biUnion fun c ↦ s.tagged c (s.consuming c)

/-- `TransactionContext.finish` that succeeds.  One that fails, and `abort`, undo what the
transaction did in the queues, which is not to be seen here. -/
def finish (s : State M Q E O) (participants : Finset Nat) (input : Finset (Q × E))
    (emitted : List O) (acked : Bool) : State M Q E O :=
  { s with
    log := s.log ++ [⟨input, emitted, acked, s.marks participants, s.buffer⟩], buffer := [] }

/-- The consumer adds to the entries that it marks. -/
def take (s : State M Q E O) (c : Nat) (es : Finset E) : State M Q E O :=
  { s with consuming := update s.consuming c (s.consuming c ∪ es) }

/-- Some committed transaction marked the entry. -/
def Marked (s : State M Q E O) (x : Q × E) : Prop := ∃ t ∈ s.log, x ∈ t.marked

instance (s : State M Q E O) (x : Q × E) : Decidable (s.Marked x) :=
  inferInstanceAs (Decidable (∃ t ∈ s.log, x ∈ t.marked))

/-! ## Inputs -/

/-- The entries of an input. -/
def inputEntries (s : State M Q E O) : InputDatum E → Finset (Q × E)
  | .null => ∅
  | .basic c es _ => s.tagged c es

def needProcess : InputDatum E → Bool
  | .null => true
  | .basic _ es _ => es ≠ ∅

def getRetry (s : State M Q E O) (m : M) : InputDatum E → Nat
  | .null => s.nullRetry m
  | .basic _ _ retry => retry

/-- The null input of a method is always the same object. -/
def incrementRetry (s : State M Q E O) (m : M) : InputDatum E → State M Q E O × InputDatum E
  | .null => ({ s with nullRetry := update s.nullRetry m (s.nullRetry m + 1) }, .null)
  | .basic c es retry => (s, .basic c es (retry + 1))

def reclaim (s : State M Q E O) : InputDatum E → State M Q E O
  | .null => s
  | .basic c es _ => s.take c es

variable (spec : ProcessSpecs M Q)

/-- `RoundRobinQueueReader`, over the suppliers of the method. -/
def read (s : State M Q E O) (m : M) (dequeued : Dequeued Q E) :
    State M Q E O × Option (InputDatum E) :=
  if m ∈ spec.suppliers.map spec.method then
    match dequeued with
    | .empty => (s, some (.basic 0 ∅ 0))
    | .entries q es =>
      match s.supplied q with
      | some c => (s.take c es, some (.basic c es 0))
      | none => (s, none)
    | .failed q es =>
      match s.supplied q with
      | some c => (s.take c es, none)
      | none => (s, none)
  else (s, some .null)

/-- The reader of an entry that tries an input again always returns that input. -/
def dequeue (s : State M Q E O) (entry : FlowletProcessEntry M E) (dequeued : Dequeued Q E) :
    State M Q E O × FlowletProcessEntry M E × Option (InputDatum E) :=
  match entry.retry with
  | some input =>
    let (t, input) := s.incrementRetry entry.method input
    (t, { entry with retry := some input }, some input)
  | none =>
    let (t, input) := s.read spec entry.method dequeued
    (t, entry, input)

/-! ## Processing -/

def offer (s : State M Q E O) (entry : FlowletProcessEntry M E) : State M Q E O :=
  { s with processQueue := s.processQueue ++ [entry] }

def resetRetry (entry : FlowletProcessEntry M E) : FlowletProcessEntry M E :=
  { entry with retry := none }

/-- The acknowledger of an input: a transaction that only reclaims it. -/
def ack (s : State M Q E O) (input : InputDatum E) (o : Outcome Q E O) : State M Q E O :=
  if o.ackStart then
    let t := s.startTx.reclaim input
    if o.ackFinish then t.finish s.txAware (s.inputEntries input) [] true else t
  else s

/-- The policy for an input whose processing has failed. -/
def failurePolicy (s : State M Q E O) (m : M) (input : InputDatum E)
    (policy : Option FailurePolicy) : FailurePolicy :=
  if spec.maxRetries m ≤ s.getRetry m input then .ignore else policy.getD .retry

def onFailure (s : State M Q E O) (entry : FlowletProcessEntry M E) (input : InputDatum E)
    (o : Outcome Q E O) : State M Q E O :=
  match s.failurePolicy spec entry.method input o.policy with
  | .retry => s.offer (if entry.retry.isSome then entry else { entry with retry := some input })
  | .ignore => (s.ack input o).offer (resetRetry entry)

/-- The call of `onFailure` in `postProcess`.  If it cannot be made, no entry is offered again. -/
def callOnFailure (s : State M Q E O) (entry : FlowletProcessEntry M E) (input : InputDatum E)
    (o : Outcome Q E O) : State M Q E O :=
  if o.message then s.onFailure spec entry input o else s

def postProcess (s : State M Q E O) (entry : FlowletProcessEntry M E) (input : InputDatum E)
    (success : Bool) (o : Outcome Q E O) : State M Q E O :=
  if success then
    let t := if 0 < s.getRetry entry.method input then s.reclaim input else s
    if o.finish then
      (t.finish s.txAware (s.inputEntries input) o.emitted false).offer (resetRetry entry)
    else t.callOnFailure spec entry input o
  else s.callOnFailure spec entry input o

/-- The outputs are collected by the producers. -/
def emit (s : State M Q E O) (emitted : List O) : State M Q E O :=
  { s with buffer := s.buffer ++ emitted }

/-- `handleProcessEntry`.  An entry that is not handled completely is offered again. -/
def handleProcessEntry (s : State M Q E O) (entry : FlowletProcessEntry M E)
    (o : Outcome Q E O) : State M Q E O :=
  if o.start then
    match s.startTx.dequeue spec entry o.dequeued with
    | (t, entry, none) => t.offer entry
    | (t, entry, some input) =>
      if needProcess input then
        match o.result with
        | .success => (t.emit o.emitted).postProcess spec entry input true o
        | .failure => (t.emit o.emitted).postProcess spec entry input false o
        | .thrown => (t.emit o.emitted).offer entry
      else
        (if o.finish then t.finish t.txAware ∅ [] false else t).offer entry
  else s.offer entry

/-! ## Suspending and resuming -/

/-- `ConsumerSupplier.close`.  The transaction has its participants from before the consumer is
removed from them. -/
def closeSupplier (s : State M Q E O) (q : Q) (o : CloseOutcome) : State M Q E O :=
  match s.supplied q with
  | none => s
  | some c =>
    if o.start then
      let t := { s.startTx with txAware := s.txAware.erase c }
      let t := if o.closed ∧ o.finish then t.finish s.txAware ∅ [] false else t
      { t with supplied := update t.supplied q none }
    else { s with supplied := update s.supplied q none }

/-- `createConsumer` -/
def createConsumer (s : State M Q E O) (q : Q) : State M Q E O :=
  { s with
    next := s.next + 1
    owner := update s.owner s.next q
    consuming := update s.consuming s.next ∅
    supplied := update s.supplied q (some s.next)
    txAware := insert s.next s.txAware }

def closeAll (s : State M Q E O) (o : Q → CloseOutcome) : List Q → State M Q E O
  | [] => s
  | q :: qs => (s.closeSupplier q (o q)).closeAll o qs

/-- The driver goes on only if all consumers are open. -/
def openAll (s : State M Q E O) (o : Q → OpenOutcome) : List Q → State M Q E O
  | [] => { s with suspended := false }
  | q :: qs =>
    let t := s.closeSupplier q (o q).close
    if (o q).created then (t.createConsumer q).openAll o qs else t

/-! ## The system -/

/-- The consumers of all suppliers are opened, one after the other. -/
def create (s : State M Q E O) : List Q → State M Q E O
  | [] => s
  | q :: qs => (s.createConsumer q).create qs

/-- The driver before its first transaction. -/
def init (q₀ : Q) : State M Q E O :=
  create
    { next := 0
      owner := fun _ ↦ q₀
      consuming := fun _ ↦ ∅
      supplied := fun _ ↦ none
      txAware := ∅
      buffer := []
      nullRetry := fun _ ↦ 0
      processQueue := spec.methods.map fun m ↦ ⟨m, none⟩
      suspended := false
      log := []
      others := ∅ } spec.suppliers

/-- What a correct queue returns: entries of the method's queues that nobody has marked. -/
def QueueCorrect (s : State M Q E O) (m : M) : Dequeued Q E → Prop
  | .empty => True
  | .entries q es => spec.method q = m ∧ ∀ e ∈ es, ¬ s.Marked (q, e) ∧ (q, e) ∉ s.others
  | .failed q _ => spec.method q = m

instance (s : State M Q E O) (m : M) (d : Dequeued Q E) : Decidable (s.QueueCorrect spec m d) :=
  match d with
  | .empty => inferInstanceAs (Decidable True)
  | .entries _ _ => inferInstanceAs (Decidable (_ ∧ ∀ e ∈ _, _))
  | .failed _ _ => inferInstanceAs (Decidable (_ = _))

/-- The entry is in an input that waits to be tried again. -/
def Waits (s : State M Q E O) (x : Q × E) : Prop :=
  ∃ entry ∈ s.processQueue, ∃ input ∈ entry.retry, x ∈ s.inputEntries input

instance (s : State M Q E O) (x : Q × E) : Decidable (s.Waits x) :=
  inferInstanceAs (Decidable (∃ entry ∈ s.processQueue, ∃ input ∈ entry.retry, _))

/-- The next state, if the action is possible.  A correct queue does not give an entry that waits
here to another instance. -/
def step (s : State M Q E O) : Action Q E O → Option (State M Q E O)
  | .handle i o =>
    match s.processQueue[i]? with
    | none => none
    | some entry =>
      if s.suspended = false ∧ s.QueueCorrect spec entry.method o.dequeued then
        some ({ s with processQueue := s.processQueue.eraseIdx i }.handleProcessEntry spec entry o)
      else none
  | .suspend o =>
    if s.suspended then none else some { s.closeAll o spec.suppliers with suspended := true }
  | .resume o => if s.suspended then some (s.openAll o spec.suppliers) else none
  | .other x =>
    if s.Marked x ∨ x ∈ s.others ∨ s.Waits x then none
    else some { s with others := insert x s.others }

/-! ## What is to hold -/

/-- Inputs and outputs go together. -/
structure ExactlyOnce (s : State M Q E O) : Prop where
  /-- No two committed transactions mark the same entry, -/
  once : s.log.Pairwise fun t u ↦ Disjoint t.marked u.marked
  /-- also not in two instances. -/
  others : ∀ t ∈ s.log, Disjoint t.marked s.others
  /-- A committed transaction marks the input it was for, and writes the outputs emitted. -/
  paired : ∀ t ∈ s.log, t.marked = t.input ∧ t.written = t.emitted
  /-- An acknowledgement writes nothing. -/
  acked : ∀ t ∈ s.log, t.acked → t.written = []

/-- No input waits to be tried again. -/
def NoneWaits (s : State M Q E O) : Prop :=
  ∀ entry ∈ s.processQueue, ∀ input ∈ entry.retry, s.inputEntries input = ∅

instance (s : State M Q E O) : Decidable s.NoneWaits :=
  inferInstanceAs (Decidable (∀ entry ∈ s.processQueue, ∀ input ∈ entry.retry, _))

/-- The flowlet is suspended only when no input waits to be tried again. -/
def SuspendOk (s : State M Q E O) : Action Q E O → Prop
  | .suspend _ => s.NoneWaits
  | _ => True

instance (s : State M Q E O) (a : Action Q E O) : Decidable (s.SuspendOk a) :=
  match a with
  | .suspend _ => inferInstanceAs (Decidable s.NoneWaits)
  | .handle _ _ => inferInstanceAs (Decidable True)
  | .resume _ => inferInstanceAs (Decidable True)
  | .other _ => inferInstanceAs (Decidable True)

/-! ## The invariant -/

/-- The input can be tried again: its consumer takes part in transactions and nobody has marked its
entries. -/
def Pending (s : State M Q E O) (m : M) : InputDatum E → Prop
  | .null => True
  | .basic c es _ => es ≠ ∅ ∧ c ∈ s.txAware ∧ spec.method (s.owner c) = m ∧
      ∀ e ∈ es, ¬ s.Marked (s.owner c, e) ∧ (s.owner c, e) ∉ s.others

/-- **The invariant** of a driver and of the queues that its inputs come from. -/
structure Inv (s : State M Q E O) : Prop where
  /-- A consumer that a queue has supplied takes part in its transactions. -/
  supplied : ∀ {q : Q} {c : Nat}, s.supplied q = some c → c ∈ s.txAware ∧ s.owner c = q
  lt_next : ∀ {c : Nat}, c ∈ s.txAware → c < s.next
  /-- A method has at most one entry in the process queue. -/
  nodup : (s.processQueue.map FlowletProcessEntry.method).Nodup
  /-- An input that is to be tried again is not processed yet. -/
  pending : ∀ entry ∈ s.processQueue, ∀ input ∈ entry.retry, s.Pending spec entry.method input
  suspended : s.suspended → s.NoneWaits
  exactlyOnce : s.ExactlyOnce

/-- What no transaction changes. -/
def objects (s : State M Q E O) :=
  (s.next, s.owner, s.supplied, s.txAware, s.suspended, s.others)

/-- A transaction of a method that is still to commit has changed neither the log nor the process
queue. -/
structure Within (s t : State M Q E O) : Prop where
  objects : t.objects = s.objects
  log : t.log = s.log
  processQueue : t.processQueue = s.processQueue

/-- What a transaction of a method has got hold of: it would mark its input. -/
structure Holds (s t : State M Q E O) (entry : FlowletProcessEntry M E) (input : InputDatum E) :
    Prop where
  within : Within s t
  buffer : t.buffer = []
  pending : needProcess input → s.Pending spec entry.method input
  retry : ∀ i ∈ entry.retry, i = input ∧ needProcess input
  marks : (if 0 < t.getRetry entry.method input then t.reclaim input else t).marks s.txAware =
    s.inputEntries input

/-- A committed transaction of the method does what it should. -/
structure Good (s : State M Q E O) (m : M) (t : Committed Q E O) : Prop where
  marked : t.marked = t.input
  written : t.written = t.emitted
  acked : t.acked → t.written = []
  fresh : ∀ x ∈ t.marked, spec.method x.1 = m ∧ ¬ s.Marked x ∧ x ∉ s.others

/-- What a call of `handleProcessEntry` does: it commits one transaction at most, and offers one
entry of the method at most. -/
structure Effect (m : M) (s t : State M Q E O) : Prop where
  objects : t.objects = s.objects
  log : t.log = s.log ∨ ∃ c, t.log = s.log ++ [c] ∧ s.Good spec m c
  processQueue : t.processQueue = s.processQueue ∨ ∃ entry : FlowletProcessEntry M E,
    t.processQueue = s.processQueue ++ [entry] ∧ entry.method = m ∧
      ∀ input ∈ entry.retry, t.Pending spec m input

section

variable {spec} {s t u : State M Q E O} {m : M} {c : Nat} {es : Finset E} {input : InputDatum E}
  {entry entry' : FlowletProcessEntry M E} {o : Outcome Q E O} {d : Dequeued Q E}

theorem owner_eq (h : t.objects = s.objects) : t.owner = s.owner := congrArg (·.2.1) h

theorem txAware_eq (h : t.objects = s.objects) : t.txAware = s.txAware := congrArg (·.2.2.2.1) h

theorem others_eq (h : t.objects = s.objects) : t.others = s.others := congrArg (·.2.2.2.2.2) h

theorem marked_congr (h : t.log = s.log) {x : Q × E} : t.Marked x ↔ s.Marked x := by
  rw [Marked, Marked, h]

theorem inputEntries_congr (h : t.objects = s.objects) : t.inputEntries input =
    s.inputEntries input := by
  cases input with
  | null => rfl
  | basic c es retry => simp only [inputEntries, tagged, owner_eq h]

theorem Pending.congr (h : s.Pending spec m input) (ho : t.objects = s.objects)
    (hl : t.log = s.log) : t.Pending spec m input := by
  cases input with
  | null => trivial
  | basic c es retry =>
    simpa only [Pending, owner_eq ho, txAware_eq ho, others_eq ho, marked_congr hl] using h

theorem Within.refl : Within s s := ⟨rfl, rfl, rfl⟩

theorem Within.trans (h : Within s t) (h' : Within t u) : Within s u :=
  ⟨h'.objects.trans h.objects, h'.log.trans h.log, h'.processQueue.trans h.processQueue⟩

theorem within_startTx : Within s s.startTx := ⟨rfl, rfl, rfl⟩

theorem within_take : Within s (s.take c es) := ⟨rfl, rfl, rfl⟩

theorem within_emit {os : List O} : Within s (s.emit os) := ⟨rfl, rfl, rfl⟩

theorem within_reclaim : Within s (s.reclaim input) := by
  cases input with
  | null => exact .refl
  | basic c es retry => exact within_take

/-! ## What is marked -/

theorem marks_congr (ho : t.owner = s.owner) (hc : t.consuming = s.consuming) {P : Finset Nat} :
    t.marks P = s.marks P := by
  simp only [marks, tagged, ho, hc]

theorem consuming_startTx (hc : c ∈ s.txAware) : s.startTx.consuming c = ∅ := if_pos hc

theorem marks_startTx : s.startTx.marks s.txAware = ∅ := by
  ext x
  simp only [marks, Finset.mem_biUnion, Finset.notMem_empty, iff_false]
  rintro ⟨c, hc, hx⟩
  simp [tagged, consuming_startTx hc] at hx

/-- A transaction marks what one of its participants took. -/
theorem marks_take (hc : c ∈ s.txAware) (hempty : ∀ c ∈ s.txAware, s.consuming c = ∅) :
    (s.take c es).marks s.txAware = s.tagged c es := by
  ext x
  simp only [marks, Finset.mem_biUnion]
  constructor
  · rintro ⟨c', hc', hx⟩
    by_cases heq : c' = c
    · subst heq
      simpa [take, tagged, hempty c' hc'] using hx
    · simp [take, tagged, update_of_ne heq, hempty c' hc'] at hx
  · intro hx
    refine ⟨c, hc, ?_⟩
    simpa [take, tagged, hempty c hc] using hx

/-- An input reclaimed at the start of a transaction is marked by it. -/
theorem marks_reclaim (h : s.Pending spec m input) :
    (s.startTx.reclaim input).marks s.txAware = s.inputEntries input := by
  cases input with
  | null => exact marks_startTx
  | basic c es retry => exact marks_take (s := s.startTx) h.2.1 fun c hc ↦ consuming_startTx hc

theorem getRetry_emit {os : List O} : (s.emit os).getRetry m input = s.getRetry m input := by
  cases input <;> rfl

theorem reclaim_emit {os : List O} : (s.emit os).reclaim input = (s.reclaim input).emit os := by
  cases input <;> rfl

theorem marks_emit {os : List O} {P : Finset Nat} : (s.emit os).marks P = s.marks P :=
  marks_congr rfl rfl

/-! An input that needs no processing has no entries. -/

theorem inputEntries_eq_empty (h : ¬ needProcess input) : s.inputEntries input = ∅ := by
  cases input with
  | null => rfl
  | basic c es retry =>
    obtain rfl : es = ∅ := by simpa [needProcess] using h
    rfl

theorem reclaim_eq_self (h : ¬ needProcess input) : s.reclaim input = s := by
  cases input with
  | null => rfl
  | basic c es retry =>
    obtain rfl : es = ∅ := by simpa [needProcess] using h
    simp [reclaim, take]

/-! ## Dequeuing -/

theorem holds_read {d : Dequeued Q E} (hs : s.Inv spec) (hd : s.QueueCorrect spec m d)
    (h : s.startTx.read spec m d = (t, some input)) : s.Holds spec t ⟨m, none⟩ input := by
  unfold read at h
  split_ifs at h
  · cases d with
    | empty =>
      obtain ⟨rfl, rfl⟩ : s.startTx = t ∧ .basic 0 ∅ 0 = input := by simpa using h
      refine ⟨within_startTx, rfl, fun hn ↦ absurd hn (by simp [needProcess]),
        (fun i hi ↦ by cases hi), ?_⟩
      exact marks_startTx
    | failed q es =>
      simp only at h
      split at h <;> simp at h
    | entries q es =>
      simp only at h
      split at h
      · rename_i c hc
        obtain ⟨rfl, rfl⟩ : s.startTx.take c es = t ∧ .basic c es 0 = input := by simpa using h
        obtain ⟨hmem, hq⟩ := hs.supplied hc
        refine ⟨within_startTx.trans within_take, rfl, fun hn ↦ ?_, (fun i hi ↦ by cases hi), ?_⟩
        · refine ⟨by simpa [needProcess] using hn, hmem, ?_, ?_⟩
          · rw [hq]
            exact hd.1
          · rw [hq]
            exact hd.2
        · exact marks_take (s := s.startTx) hmem fun c hc ↦ consuming_startTx hc
      · simp at h
  · obtain ⟨rfl, rfl⟩ : s.startTx = t ∧ .null = input := by simpa using h
    refine ⟨within_startTx, rfl, fun _ ↦ trivial, (fun i hi ↦ by cases hi), ?_⟩
    simp only [reclaim, ite_self]
    exact marks_startTx

/-- A reader that fails has changed nothing that lasts. -/
theorem within_read (h : s.startTx.read spec m d = (t, none)) : Within s t := by
  unfold read at h
  split_ifs at h
  · cases d with
    | empty => simp at h
    | entries q es =>
      simp only at h
      split at h
      · simp at h
      · obtain rfl : s.startTx = t := by simpa using h
        exact within_startTx
    | failed q es =>
      simp only at h
      split at h
      · obtain rfl : s.startTx.take _ es = t := by simpa using h
        exact within_startTx.trans within_take
      · obtain rfl : s.startTx = t := by simpa using h
        exact within_startTx
  · simp at h

theorem holds_incrementRetry (h : s.Pending spec m input) :
    s.Holds spec (s.startTx.incrementRetry m input).1
      ⟨m, some (s.startTx.incrementRetry m input).2⟩ (s.startTx.incrementRetry m input).2 := by
  cases input with
  | null =>
    refine ⟨⟨rfl, rfl, rfl⟩, rfl, fun _ ↦ trivial, fun i hi ↦ ?_, ?_⟩
    · exact ⟨(Option.mem_some_iff.mp hi).symm, rfl⟩
    · split_ifs
      all_goals exact (marks_congr (s := s.startTx) rfl rfl).trans marks_startTx
  | basic c es retry =>
    refine ⟨within_startTx, rfl, fun _ ↦ h, fun i hi ↦ ?_, ?_⟩
    · exact ⟨(Option.mem_some_iff.mp hi).symm, decide_eq_true h.1⟩
    · simp only [incrementRetry, getRetry, Nat.succ_pos, if_true]
      exact marks_reclaim h

/-- What a call has got hold of after `dequeue`, if anything. -/
theorem holds_dequeue (hs : s.Inv spec) (hd : s.QueueCorrect spec entry.method d)
    (hp : ∀ i ∈ entry.retry, s.Pending spec entry.method i)
    (h : s.startTx.dequeue spec entry d = (t, entry', some input)) :
    entry'.method = entry.method ∧ s.Holds spec t entry' input := by
  obtain ⟨m, retry⟩ := entry
  cases retry with
  | some i =>
    obtain ⟨rfl, rfl, rfl⟩ : (s.startTx.incrementRetry m i).1 = t ∧
        (⟨m, some (s.startTx.incrementRetry m i).2⟩ : FlowletProcessEntry M E) = entry' ∧
        (s.startTx.incrementRetry m i).2 = input := by simpa [dequeue] using h
    exact ⟨rfl, holds_incrementRetry (hp i rfl)⟩
  | none =>
    obtain ⟨h₁, rfl, h₂⟩ : (s.startTx.read spec m d).1 = t ∧
        (⟨m, none⟩ : FlowletProcessEntry M E) = entry' ∧
        (s.startTx.read spec m d).2 = some input := by simpa [dequeue] using h
    exact ⟨rfl, holds_read hs hd (Prod.ext h₁ h₂)⟩

theorem within_dequeue (h : s.startTx.dequeue spec entry d = (t, entry', none)) :
    entry' = entry ∧ entry.retry = none ∧ Within s t := by
  obtain ⟨m, retry⟩ := entry
  cases retry with
  | some i => simp [dequeue] at h
  | none =>
    obtain ⟨h₁, rfl, h₂⟩ : (s.startTx.read spec m d).1 = t ∧
        (⟨m, none⟩ : FlowletProcessEntry M E) = entry' ∧
        (s.startTx.read spec m d).2 = none := by simpa [dequeue] using h
    exact ⟨rfl, rfl, within_read (Prod.ext h₁ h₂)⟩

/-! ## The effect of a call -/

theorem Pending.fresh (h : s.Pending spec m input) :
    ∀ x ∈ s.inputEntries input, spec.method x.1 = m ∧ ¬ s.Marked x ∧ x ∉ s.others := by
  cases input with
  | null => exact fun x hx ↦ absurd hx (Finset.notMem_empty x)
  | basic c es retry =>
    intro x hx
    obtain ⟨e, he, rfl⟩ := Finset.mem_image.mp hx
    exact ⟨h.2.2.1, h.2.2.2 e he⟩

theorem Effect.of_within (h : Within s t) (he : t.Effect spec m u) : s.Effect spec m u where
  objects := he.objects.trans h.objects
  log := by
    rcases he.log with hl | ⟨c, hl, hc⟩
    · exact .inl (hl.trans h.log)
    · refine .inr ⟨c, h.log ▸ hl, hc.marked, hc.written, hc.acked, fun x hx ↦ ?_⟩
      have hfresh := hc.fresh x hx
      rwa [marked_congr h.log, others_eq h.objects] at hfresh
  processQueue := h.processQueue ▸ he.processQueue

theorem effect_refl : s.Effect spec m s := ⟨rfl, .inl rfl, .inl rfl⟩

theorem effect_offer (hm : entry.method = m) (hp : ∀ i ∈ entry.retry, s.Pending spec m i) :
    s.Effect spec m (s.offer entry) :=
  ⟨rfl, .inl rfl, .inr ⟨entry, rfl, hm, fun i hi ↦ (hp i hi).congr rfl rfl⟩⟩

/-- The transaction commits, and the entry is offered without the input. -/
theorem effect_finish {entries : Finset (Q × E)} {emitted : List O} {acked : Bool} (h : Within s t)
    (hm : entry.method = m) (hretry : entry.retry = none)
    (hfresh : ∀ x ∈ entries, spec.method x.1 = m ∧ ¬ s.Marked x ∧ x ∉ s.others)
    (hmarks : t.marks s.txAware = entries) (hbuffer : t.buffer = emitted)
    (hacked : acked → emitted = []) :
    s.Effect spec m ((t.finish s.txAware entries emitted acked).offer entry) where
  objects := h.objects
  log := by
    refine .inr ⟨_, congrArg (· ++ _) h.log, hmarks, hbuffer,
      fun ha ↦ hbuffer.trans (hacked ha), ?_⟩
    rw [hmarks]
    exact hfresh
  processQueue := by
    refine .inr ⟨entry, congrArg (· ++ _) h.processQueue, hm, fun i hi ↦ ?_⟩
    rw [hretry] at hi
    cases hi

theorem effect_ack (hp : s.Pending spec m input) (hm : entry.method = m) :
    s.Effect spec m ((s.ack input o).offer (resetRetry entry)) := by
  have hnone : ∀ i ∈ (resetRetry entry).retry, s.Pending spec m i := fun i hi ↦ by cases hi
  have hwithin : Within s (s.startTx.reclaim input) := within_startTx.trans within_reclaim
  unfold ack
  split_ifs
  · refine effect_finish hwithin hm rfl hp.fresh (marks_reclaim hp) ?_ fun _ ↦ rfl
    cases input <;> rfl
  · refine .of_within hwithin (effect_offer hm fun i hi ↦ ?_)
    cases hi
  · exact effect_offer hm hnone

theorem effect_callOnFailure (hp : s.Pending spec m input) (hm : entry.method = m)
    (hretry : ∀ i ∈ entry.retry, s.Pending spec m i) :
    s.Effect spec m (s.callOnFailure spec entry input o) := by
  unfold callOnFailure
  split
  · unfold onFailure
    split
    · split_ifs
      · exact effect_offer hm hretry
      · refine effect_offer hm fun i hi ↦ ?_
        obtain rfl := Option.mem_some_iff.mp hi
        exact hp
    · exact effect_ack hp hm
  · exact effect_refl

theorem effect_postProcess {success : Bool} (hp : s.Pending spec m input) (hm : entry.method = m)
    (hretry : ∀ i ∈ entry.retry, s.Pending spec m i)
    (hmarks : (if 0 < s.getRetry entry.method input then s.reclaim input else s).marks s.txAware =
      s.inputEntries input) (hbuffer : s.buffer = o.emitted) :
    s.Effect spec m (s.postProcess spec entry input success o) := by
  have hwithin : Within s (if 0 < s.getRetry entry.method input then s.reclaim input else s) := by
    split_ifs
    · exact within_reclaim
    · exact .refl
  have hsame : (if 0 < s.getRetry entry.method input then s.reclaim input else s).buffer =
      s.buffer := by
    split_ifs
    · cases input <;> rfl
    · rfl
  unfold postProcess
  simp only
  generalize (if 0 < s.getRetry entry.method input then s.reclaim input else s) = t at *
  split_ifs with hsuccess hfinish
  · exact effect_finish hwithin hm rfl hp.fresh hmarks (hsame.trans hbuffer)
      fun ha ↦ absurd ha (by decide)
  · refine .of_within hwithin (effect_callOnFailure ?_ hm fun i hi ↦ ?_)
    · exact hp.congr hwithin.objects hwithin.log
    · exact (hretry i hi).congr hwithin.objects hwithin.log
  · exact effect_callOnFailure hp hm hretry

/-- **What a call of `handleProcessEntry` does**, where the consumers handed out take part in
transactions and the input to be tried again can be. -/
theorem effect_handleProcessEntry (entry : FlowletProcessEntry M E) (o : Outcome Q E O)
    (hs : s.Inv spec) (hd : s.QueueCorrect spec entry.method o.dequeued)
    (hp : ∀ i ∈ entry.retry, s.Pending spec entry.method i) :
    s.Effect spec entry.method (s.handleProcessEntry spec entry o) := by
  unfold handleProcessEntry
  split
  · split
    · rename_i t entry' heq
      obtain ⟨rfl, hnone, hwithin⟩ := within_dequeue heq
      exact .of_within hwithin (effect_offer rfl (by simp [hnone]))
    · rename_i t entry' input heq
      obtain ⟨hm, hholds⟩ := holds_dequeue hs hd hp heq
      have hnone (h : ¬ needProcess input) : entry'.retry = none :=
        Option.eq_none_iff_forall_not_mem.mpr fun i hi ↦ h (hholds.retry i hi).2
      split_ifs with hneed hfinish
      · have hpending : s.Pending spec entry.method input := hm ▸ hholds.pending hneed
        have hemit : Within s (t.emit o.emitted) := hholds.within.trans within_emit
        have hretry : ∀ i ∈ entry'.retry, (t.emit o.emitted).Pending spec entry.method i := by
          intro i hi
          obtain ⟨rfl, -⟩ := hholds.retry i hi
          exact hpending.congr hemit.objects hemit.log
        have hpost (success : Bool) : (t.emit o.emitted).Effect spec entry.method
            ((t.emit o.emitted).postProcess spec entry' input success o) := by
          refine effect_postProcess (hpending.congr hemit.objects hemit.log) hm hretry ?_ ?_
          · rw [txAware_eq hemit.objects, inputEntries_congr hemit.objects, ← hholds.marks,
              getRetry_emit, reclaim_emit, ← apply_ite (emit · o.emitted), marks_emit]
          · rw [emit, hholds.buffer, List.nil_append]
        split
        · exact .of_within hemit (hpost true)
        · exact .of_within hemit (hpost false)
        · exact .of_within hemit (effect_offer hm hretry)
      · have hempty : s.inputEntries input = ∅ := inputEntries_eq_empty hneed
        have hmarks : t.marks s.txAware = ∅ := by
          have h := hholds.marks
          rwa [reclaim_eq_self hneed, ite_self, hempty] at h
        rw [txAware_eq hholds.within.objects]
        exact effect_finish hholds.within hm (hnone hneed) (by simp) hmarks
          hholds.buffer fun _ ↦ rfl
      · refine .of_within hholds.within (effect_offer hm fun i hi ↦ ?_)
        exact absurd (hholds.retry i hi).2 hneed
  · exact effect_offer rfl hp

/-! ## The invariant is kept -/

theorem exactlyOnce_congr (h : s.ExactlyOnce) (hl : t.log = s.log) (ho : t.others = s.others) :
    t.ExactlyOnce := by
  refine ⟨?_, ?_, ?_, ?_⟩
  · exact hl ▸ h.once
  · rw [hl, ho]
    exact h.others
  · exact hl ▸ h.paired
  · exact hl ▸ h.acked

theorem exactlyOnce_append (spec : ProcessSpecs M Q) (m : M) {t' : Committed Q E O}
    (h : s.ExactlyOnce) (hgood : s.Good spec m t')
    (hl : t.log = s.log ++ [t']) (ho : t.others = s.others) : t.ExactlyOnce where
  once := by
    rw [hl, List.pairwise_append]
    refine ⟨h.once, List.pairwise_singleton _ _, fun u hu v hv ↦ ?_⟩
    obtain rfl := List.mem_singleton.mp hv
    exact Finset.disjoint_right.mpr fun x hx hu' ↦ (hgood.fresh x hx).2.1 ⟨u, hu, hu'⟩
  others := by
    rw [hl, ho, List.forall_mem_append, List.forall_mem_singleton]
    exact ⟨h.others, Finset.disjoint_left.mpr fun x hx ↦ (hgood.fresh x hx).2.2⟩
  paired := by
    rw [hl, List.forall_mem_append, List.forall_mem_singleton]
    exact ⟨h.paired, hgood.marked, hgood.written⟩
  acked := by
    rw [hl, List.forall_mem_append, List.forall_mem_singleton]
    exact ⟨h.acked, hgood.acked⟩

theorem exactlyOnce_effect (h : s.ExactlyOnce) (he : s.Effect spec m t) : t.ExactlyOnce := by
  rcases he.log with hl | ⟨c, hl, hgood⟩
  · exact exactlyOnce_congr h hl (others_eq he.objects)
  · exact exactlyOnce_append spec m h hgood hl (others_eq he.objects)

/-- A transaction of one method marks no entry that waits for another. -/
theorem Pending.effect {m' : M} (h : s.Pending spec m' input) (he : s.Effect spec m t)
    (hm : m' ≠ m) : t.Pending spec m' input := by
  rcases he.log with hl | ⟨c, hl, hgood⟩
  · exact h.congr he.objects hl
  · cases input with
    | null => trivial
    | basic c' es retry =>
      obtain ⟨hne, hmem, hmethod, hfree⟩ := h
      rw [← owner_eq he.objects] at hmethod hfree
      rw [← others_eq he.objects] at hfree
      refine ⟨hne, txAware_eq he.objects ▸ hmem, hmethod, fun e he' ↦ ⟨?_, (hfree e he').2⟩⟩
      rintro ⟨u, hu, hx⟩
      rw [hl, List.mem_append, List.mem_singleton] at hu
      rcases hu with hu | rfl
      · exact (hfree e he').1 ⟨u, hu, hx⟩
      · exact hm (hmethod.symm.trans (hgood.fresh _ hx).1)

theorem inv_eraseIdx (h : s.Inv spec) (i : Nat) :
    ({ s with processQueue := s.processQueue.eraseIdx i } : State M Q E O).Inv spec where
  supplied := h.supplied
  lt_next := h.lt_next
  nodup := by
    refine h.nodup.sublist ?_
    exact (List.eraseIdx_sublist _ i).map _
  pending := fun entry hentry input hinput ↦
    (h.pending entry (List.mem_of_mem_eraseIdx hentry) input hinput).congr rfl rfl
  suspended := fun hsus entry hentry input hinput ↦
    (inputEntries_congr rfl).trans
      (h.suspended hsus entry (List.mem_of_mem_eraseIdx hentry) input hinput)
  exactlyOnce := exactlyOnce_congr h.exactlyOnce rfl rfl

theorem inv_effect (h : s.Inv spec) (he : s.Effect spec m t) (hsus : s.suspended = false)
    (hm : m ∉ s.processQueue.map FlowletProcessEntry.method) : t.Inv spec where
  supplied := by
    have hsupplied : t.supplied = s.supplied := congrArg (·.2.2.1) he.objects
    rw [hsupplied, txAware_eq he.objects, owner_eq he.objects]
    exact fun {q c} hc ↦ h.supplied hc
  lt_next := by
    have hnext : t.next = s.next := congrArg (·.1) he.objects
    rw [hnext, txAware_eq he.objects]
    exact fun {c} hc ↦ h.lt_next hc
  nodup := by
    rcases he.processQueue with hq | ⟨entry, hq, rfl, -⟩
    · exact hq ▸ h.nodup
    · rw [hq, List.map_append]
      refine List.nodup_append.mpr ⟨h.nodup, List.nodup_singleton _, fun a ha b hb hab ↦ hm ?_⟩
      exact (hab.trans (List.mem_singleton.mp hb)) ▸ ha
  pending := by
    have hold : ∀ entry ∈ s.processQueue, ∀ input ∈ entry.retry,
        t.Pending spec entry.method input := by
      intro entry hentry input hinput
      refine (h.pending entry hentry input hinput).effect he fun heq ↦ hm ?_
      exact heq ▸ List.mem_map_of_mem hentry
    rcases he.processQueue with hq | ⟨entry, hq, rfl, hpending⟩
    · exact hq ▸ hold
    · rw [hq, List.forall_mem_append, List.forall_mem_singleton]
      exact ⟨hold, hpending⟩
  suspended := fun hsus' ↦ by
    have hsame : t.suspended = s.suspended := congrArg (·.2.2.2.2.1) he.objects
    rw [hsame, hsus] at hsus'
    cases hsus'
  exactlyOnce := exactlyOnce_effect h.exactlyOnce he

/-- What waits where no input does is a null input. -/
theorem NoneWaits.eq_null (h : s.NoneWaits) (hs : s.Inv spec) (hentry : entry ∈ s.processQueue)
    (hinput : input ∈ entry.retry) : input = .null := by
  cases input with
  | null => rfl
  | basic c es retry =>
    have hempty := h entry hentry _ hinput
    exact absurd (Finset.image_eq_empty.mp hempty) (hs.pending entry hentry _ hinput).1

/-- Where no input waits, the consumers may change. -/
theorem inv_of_noneWaits (h : s.Inv spec) (hnone : s.NoneWaits)
    (hq : t.processQueue = s.processQueue)
    (hsupplied : ∀ {q : Q} {c : Nat}, t.supplied q = some c → c ∈ t.txAware ∧ t.owner c = q)
    (hlt : ∀ {c : Nat}, c ∈ t.txAware → c < t.next) (hexactly : t.ExactlyOnce) :
    t.Inv spec ∧ t.NoneWaits := by
  have hnull : ∀ entry ∈ t.processQueue, ∀ input ∈ entry.retry, input = .null := by
    rw [hq]
    exact fun entry hentry input hinput ↦ hnone.eq_null h hentry hinput
  have hnone' : t.NoneWaits := fun entry hentry input hinput ↦ by
    rw [hnull entry hentry input hinput]
    rfl
  refine ⟨⟨hsupplied, hlt, hq ▸ h.nodup, fun entry hentry input hinput ↦ ?_,
    fun _ ↦ hnone', hexactly⟩, hnone'⟩
  rw [hnull entry hentry input hinput]
  trivial

theorem inv_closeSupplier (q : Q) (co : CloseOutcome) (h : s.Inv spec) (hnone : s.NoneWaits) :
    (s.closeSupplier q co).Inv spec ∧ (s.closeSupplier q co).NoneWaits := by
  unfold closeSupplier
  split
  · exact ⟨h, hnone⟩
  · rename_i c hc
    -- A supplier that is still open has another consumer.
    have hother {q' : Q} {c' : Nat} (h' : update s.supplied q none q' = some c') :
        s.supplied q' = some c' ∧ q' ≠ q := by
      by_cases heq : q' = q
      · subst heq
        simp at h'
      · exact ⟨by rwa [update_of_ne heq] at h', heq⟩
    have hkept {q' : Q} {c' : Nat} (h' : update s.supplied q none q' = some c') :
        c' ∈ s.txAware.erase c ∧ s.owner c' = q' := by
      obtain ⟨h', hne⟩ := hother h'
      obtain ⟨hmem, rfl⟩ := h.supplied h'
      refine ⟨Finset.mem_erase.mpr ⟨?_, hmem⟩, rfl⟩
      rintro rfl
      exact hne (h.supplied hc).2
    split
    · simp only
      split
      · refine inv_of_noneWaits h hnone rfl hkept
          (fun hmem ↦ h.lt_next (Finset.mem_of_mem_erase hmem)) ?_
        refine exactlyOnce_append spec (spec.method q) h.exactlyOnce ?_ rfl rfl
        have hmarks := marks_startTx (s := s)
        refine ⟨hmarks, rfl, fun ha ↦ rfl, fun x hx ↦ ?_⟩
        exact absurd (hmarks ▸ hx) (Finset.notMem_empty x)
      · exact inv_of_noneWaits h hnone rfl hkept
          (fun hmem ↦ h.lt_next (Finset.mem_of_mem_erase hmem))
          (exactlyOnce_congr h.exactlyOnce rfl rfl)
    · refine inv_of_noneWaits h hnone rfl (fun h' ↦ ?_) h.lt_next
        (exactlyOnce_congr h.exactlyOnce rfl rfl)
      exact h.supplied (hother h').1

theorem inv_createConsumer {q : Q} (h : s.Inv spec) (hnone : s.NoneWaits) :
    (s.createConsumer q).Inv spec ∧ (s.createConsumer q).NoneWaits := by
  refine inv_of_noneWaits h hnone rfl (fun {q' c'} h' ↦ ?_) (fun hmem ↦ ?_)
    (exactlyOnce_congr h.exactlyOnce rfl rfl)
  · by_cases heq : q' = q
    · subst heq
      obtain rfl : s.next = c' := by simpa [createConsumer] using h'
      simp [createConsumer]
    · obtain ⟨hmem, hq⟩ := h.supplied (by simpa [createConsumer, heq] using h')
      refine ⟨Finset.mem_insert_of_mem hmem, ?_⟩
      exact (update_of_ne (h.lt_next hmem).ne _ _).trans hq
  · rcases Finset.mem_insert.mp hmem with rfl | hmem
    · exact Nat.lt_succ_self _
    · exact (h.lt_next hmem).trans (Nat.lt_succ_self _)

theorem inv_closeAll (o : Q → CloseOutcome) (qs : List Q) (h : s.Inv spec) (hnone : s.NoneWaits) :
    (s.closeAll o qs).Inv spec ∧ (s.closeAll o qs).NoneWaits := by
  induction qs generalizing s with
  | nil => exact ⟨h, hnone⟩
  | cons q qs ih =>
    obtain ⟨h, hnone⟩ := inv_closeSupplier q (o q) h hnone
    exact ih h hnone

theorem inv_setSuspended {b : Bool} (h : s.Inv spec) (hnone : s.NoneWaits) :
    ({ s with suspended := b } : State M Q E O).Inv spec :=
  (inv_of_noneWaits (t := { s with suspended := b }) h hnone rfl h.supplied h.lt_next
    (exactlyOnce_congr h.exactlyOnce rfl rfl)).1

theorem inv_openAll {o : Q → OpenOutcome} {qs : List Q} (h : s.Inv spec) (hnone : s.NoneWaits) :
    (s.openAll o qs).Inv spec := by
  induction qs generalizing s with
  | nil => exact inv_setSuspended h hnone
  | cons q qs ih =>
    obtain ⟨h, hnone⟩ := inv_closeSupplier q (o q).close h hnone
    unfold openAll
    simp only
    split
    · obtain ⟨h, hnone⟩ := inv_createConsumer (q := q) h hnone
      exact ih h hnone
    · exact h

theorem inv_create {qs : List Q} (h : s.Inv spec) (hnone : s.NoneWaits) :
    (s.create qs).Inv spec := by
  induction qs generalizing s with
  | nil => exact h
  | cons q qs ih =>
    obtain ⟨h, hnone⟩ := inv_createConsumer (q := q) h hnone
    exact ih h hnone

theorem inv_init (q₀ : Q) : (init spec q₀ : State M Q E O).Inv spec := by
  have hretry : ∀ entry ∈ spec.methods.map fun m ↦ (⟨m, none⟩ : FlowletProcessEntry M E),
      entry.retry = none := by
    intro entry hentry
    obtain ⟨m, -, rfl⟩ := List.mem_map.mp hentry
    rfl
  refine inv_create ?_ ?_
  · refine ⟨(fun hc ↦ by cases hc), fun hc ↦ absurd hc (Finset.notMem_empty _), ?_, ?_,
      (fun hsus ↦ by cases hsus), ⟨List.Pairwise.nil, ?_, ?_, ?_⟩⟩
    · rw [List.map_map]
      exact (List.map_id _).symm ▸ spec.nodup
    · intro entry hentry input hinput
      rw [hretry entry hentry] at hinput
      cases hinput
    all_goals exact fun t ht ↦ by cases ht
  · intro entry hentry input hinput
    rw [hretry entry hentry] at hinput
    cases hinput

theorem inv_other {x : Q × E} (h : s.Inv spec) (hmarked : ¬ s.Marked x) (hwaits : ¬ s.Waits x) :
    ({ s with others := insert x s.others } : State M Q E O).Inv spec where
  supplied := h.supplied
  lt_next := h.lt_next
  nodup := h.nodup
  pending := by
    intro entry hentry input hinput
    have hpending := h.pending entry hentry input hinput
    cases input with
    | null => trivial
    | basic c es retry =>
      obtain ⟨hne, hmem, hmethod, hfree⟩ := hpending
      refine ⟨hne, hmem, hmethod, fun e he ↦ ⟨(hfree e he).1, fun hx ↦ ?_⟩⟩
      rcases Finset.mem_insert.mp hx with hx | hx
      · refine hwaits ⟨entry, hentry, _, hinput, ?_⟩
        exact hx ▸ Finset.mem_image_of_mem _ he
      · exact (hfree e he).2 hx
  suspended := fun hsus entry hentry input hinput ↦
    (inputEntries_congr (s := s) (t := s) rfl).trans (h.suspended hsus entry hentry input hinput)
  exactlyOnce := by
    refine ⟨h.exactlyOnce.once, fun t ht ↦ ?_, h.exactlyOnce.paired, h.exactlyOnce.acked⟩
    rw [Finset.disjoint_insert_right]
    exact ⟨fun hx ↦ hmarked ⟨t, ht, hx⟩, h.exactlyOnce.others t ht⟩

theorem inv_step {a : Action Q E O} (h : s.Inv spec) (hok : s.SuspendOk a)
    (hstep : s.step spec a = some t) : t.Inv spec := by
  cases a with
  | handle i o =>
    simp only [step] at hstep
    split at hstep
    · cases hstep
    · rename_i entry hentry
      split_ifs at hstep with hguard
      obtain rfl := Option.some.inj hstep
      have hmem : entry ∈ s.processQueue := List.mem_of_getElem? hentry
      have he := effect_handleProcessEntry entry o (inv_eraseIdx h i) hguard.2
        fun input hinput ↦ (h.pending entry hmem input hinput).congr rfl rfl
      refine inv_effect (inv_eraseIdx h i) he hguard.1 fun hm ↦ ?_
      -- The entries that are left are those of other methods.
      obtain ⟨entry', hmem', hmethod⟩ := List.mem_map.mp hm
      obtain ⟨j, hj, hentry'⟩ := List.mem_eraseIdx_iff_getElem?.mp hmem'
      have hget : (s.processQueue.map FlowletProcessEntry.method)[i]? = some entry.method := by
        rw [List.getElem?_map, hentry, Option.map_some]
      have hget' : (s.processQueue.map FlowletProcessEntry.method)[j]? = some entry.method := by
        rw [List.getElem?_map, hentry', Option.map_some, hmethod]
      have hi : i < (s.processQueue.map FlowletProcessEntry.method).length :=
        (List.getElem?_eq_some_iff.mp hget).1
      exact hj ((List.getElem?_inj hi h.nodup).mp (hget.trans hget'.symm)).symm
  | suspend o =>
    simp only [step] at hstep
    split_ifs at hstep
    obtain rfl := Option.some.inj hstep
    obtain ⟨h, hnone⟩ := inv_closeAll o spec.suppliers h hok
    exact inv_setSuspended h hnone
  | resume o =>
    simp only [step] at hstep
    split_ifs at hstep with hsus
    obtain rfl := Option.some.inj hstep
    exact inv_openAll h (h.suspended hsus)
  | other x =>
    simp only [step] at hstep
    split_ifs at hstep with hx
    obtain rfl := Option.some.inj hstep
    exact inv_other h (fun hm ↦ hx (.inl hm)) fun hw ↦ hx (.inr (.inr hw))

end

/-- **Exactly once.**  In every run in which no input waits to be tried again when the flowlet is
suspended, no entry is marked by two committed transactions, a transaction marks its input and
writes the outputs emitted for it, and an acknowledgement writes none. -/
theorem exactlyOnce_of_suspendOk (q₀ : Q) {as : List (Action Q E O)} {s : State M Q E O}
    (h : Lts.Run (step spec) SuspendOk (init spec q₀) as s) : s.ExactlyOnce :=
  (h.invariant (fun hi hok hstep ↦ inv_step hi hok hstep) (inv_init q₀)).exactlyOnce

/-! ## Two runs -/

/-- One process method with one queue. -/
def oneMethod : ProcessSpecs Unit Unit where
  methods := [()]
  suppliers := [()]
  method := fun _ ↦ ()
  maxRetries := fun _ ↦ 3
  nodup := List.nodup_singleton ()

/-- The entry `7` is dequeued, unless an input is tried again, and the method emits `1`. -/
def attempt (result : InvokeResult) : Action Unit Nat Nat :=
  .handle 0 ⟨true, .entries () {7}, [1], result, true, true, some .retry, true, true⟩

def closes (_ : Unit) : CloseOutcome := ⟨true, true, true⟩

def opens (_ : Unit) : OpenOutcome := ⟨⟨true, true, true⟩, true⟩

/-- The method fails on an entry, and succeeds when it is tried again.  The flowlet is suspended and
resumed after that. -/
def retried : List (Action Unit Nat Nat) :=
  [attempt .failure, attempt .success, .suspend closes, .resume opens]

theorem exactlyOnce_retried :
    ∃ s, Lts.Run (step oneMethod) SuspendOk (init oneMethod ()) retried s ∧
      (∃ t ∈ s.log, t.written = [1]) ∧ s.ExactlyOnce := by
  obtain ⟨s, hrun, hwritten⟩ := Lts.exists_run_of_exec (step oneMethod) SuspendOk
    (init oneMethod ()) retried (fun s ↦ ∃ t ∈ s.log, t.written = [1]) (by decide)
  exact ⟨s, hrun, hwritten, exactlyOnce_of_suspendOk oneMethod () hrun⟩

/-- The flowlet is suspended and resumed in between. -/
def suspendedBetween : List (Action Unit Nat Nat) :=
  [attempt .failure, .suspend closes, .resume opens, attempt .success]

/-- **The outputs are written and the input is not marked**, if the flowlet is suspended while the
input waits to be tried again. -/
theorem exists_not_exactlyOnce :
    ∃ s, Lts.Run (step oneMethod) (fun _ _ ↦ True) (init oneMethod ()) suspendedBetween s ∧
      (∃ t ∈ s.log, t.input = {((), 7)} ∧ t.marked = ∅ ∧ t.written = [1]) ∧ ¬ s.ExactlyOnce := by
  obtain ⟨s, hrun, t, ht, hinput, hmarked, hwritten⟩ := Lts.exists_run_of_exec (step oneMethod)
    (fun _ _ ↦ True) (init oneMethod ()) suspendedBetween
    (fun s ↦ ∃ t ∈ s.log, t.input = {((), 7)} ∧ t.marked = ∅ ∧ t.written = [1]) (by decide)
  refine ⟨s, hrun, ⟨t, ht, hinput, hmarked, hwritten⟩, fun h ↦ ?_⟩
  have hpaired := (h.paired t ht).1
  rw [hmarked, hinput] at hpaired
  exact absurd hpaired (by decide)

end State

end Tigon.Flow.FlowletProcessDriver
