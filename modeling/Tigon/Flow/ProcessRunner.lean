import Tigon.Flow.FlowletProcessDriver

/-!
# The process queue of the driver

`FlowletProcessDriver.run` keeps one process entry for each process method in a priority queue.  An
iteration of its loop takes all of them out, and calls `handleProcessEntry` for one after the other.
 The call puts the entry back, in the callback for the result of the process method; or, if it has
come to no result, it returns `false` and the loop puts the entry back.  An entry that comes back
after a failure has the input with it, and is asked for that input next time.  `inflight` counts the
inputs that were taken out of a queue and are neither processed nor ignored.

`Tigon.Flow.FlowletProcessDriver` is about what the transactions of these calls do.  The state here
is the one there with the two lists, the counter and a ledger: the inputs are numbered as they are
dequeued, and it is written down which of them were given to a process method, and which are done
with.

* `invoke_ne_thrown` — the call of a process method itself does not fail.
* `Ledger` — what holds of entries, counter and ledger throughout; `inv_step` — every step keeps it.
* `conserved_of_message` — after every iteration each method has one entry, the counter is right,
  and no input was given to its method more often than allowed.
* `exists_lost` — the entry of a method is lost if the cause of a failure has no message to give.
-/

set_option autoImplicit false
set_option linter.unusedSectionVars false

namespace Tigon.Flow.ProcessRunner

open FlowletProcessDriver

/-! ## Process methods -/

/-- The process methods, with what `ReflectionProcessMethod` finds out about them. -/
structure MethodSpecs (M Q : Type) extends ProcessSpecs M Q where
  batch : M → Bool
  needsIterator : M → Bool

/-- A reflective call: the method returns, or something is thrown, with or without a cause.  What
the method itself throws is the cause of an `InvocationTargetException`. -/
inductive CallResult
  | returned
  | threw (cause : Bool)
deriving DecidableEq, Repr

namespace CallResult

/-- What is thrown has a cause. -/
def failed : CallResult → Bool
  | .returned => false
  | .threw cause => cause

end CallResult

section Invoke

variable {M Q E : Type} [DecidableEq M] [DecidableEq E] (spec : MethodSpecs M Q)

namespace MethodSpecs

/-- Tick methods have no parameters, and a method with parameters that has no queue to read from
gets no process specification. -/
def needsInput (m : M) : Bool := m ∈ spec.suppliers.map spec.method

end MethodSpecs

/-- The number of events in an input. -/
def size : InputDatum E → Nat
  | .null => 0
  | .basic _ es _ => es.card

/-- The calls for the events of an input, up to the first that throws. -/
def callFailed (calls : Nat → CallResult) (events : Nat) : Bool :=
  (((List.range events).map calls).find? (· ≠ .returned)).any CallResult.failed

/-- `ReflectionProcessMethod.invoke`.  The result has the first event of the input, unless the
method takes batches, and it is an error if there is none. -/
def invoke (m : M) (input : InputDatum E) (calls : Nat → CallResult) : InvokeResult :=
  if spec.needsInput m && !State.needProcess input then .thrown
  else if spec.needsInput m && !spec.batch m && size input == 0 then .thrown
  else
    let events := if spec.needsInput m && !spec.needsIterator m then size input else 1
    if callFailed calls events then .failure else .success

end Invoke

/-! ## Entries -/

/-- An input, with its number. -/
structure NumberedInput (E : Type) where
  input : InputDatum E
  number : Nat

/-- A `FlowletProcessEntry`: a method, and the input it is to try again. -/
structure Entry (M E : Type) where
  method : M
  retry : Option (NumberedInput E)

namespace Entry

variable {M E : Type}

def isRetry (entry : Entry M E) : Bool := entry.retry.isSome

def resetRetry (entry : Entry M E) : Entry M E := { entry with retry := none }

end Entry

/-- What others do in the course of a call of `handleProcessEntry`. -/
structure Turn (Q E O : Type) where
  /-- The back-off of the entry is over. -/
  shouldProcess : Bool
  start : Bool
  dequeued : Dequeued Q E
  calls : Nat → CallResult
  emitted : List O
  finish : Bool
  /-- `getMessage` of the cause of a failure, if there is one, returns. -/
  message : Bool
  /-- The answer of the callback.  It may be null, or an exception. -/
  policy : Option FailurePolicy
  ackStart : Bool
  ackFinish : Bool

/-- What others do, once it is known how the process method was left. -/
def Turn.outcome {Q E O : Type} (o : Turn Q E O) (result : InvokeResult) : Outcome Q E O where
  start := o.shouldProcess && o.start
  dequeued := o.dequeued
  emitted := o.emitted
  result := result
  finish := o.finish
  message := o.message
  policy := o.policy
  ackStart := o.ackStart
  ackFinish := o.ackFinish

/-! ## The driver -/

structure Driver (M Q E O : Type) where
  /-- The consumers, the producers and the transactions.  Its own process queue is not used. -/
  queues : State M Q E O
  processQueue : List (Entry M E)
  /-- The entries of the iteration that are still to be handled. -/
  processList : List (Entry M E)
  inflight : Int
  /-- The number of inputs dequeued. -/
  dequeued : Nat
  /-- The inputs given to process methods, in order. -/
  invoked : List (M × Nat)
  /-- The inputs that were processed in a committed transaction, or ignored. -/
  finished : List Nat

variable {M Q E O : Type} [DecidableEq M] [DecidableEq Q] [DecidableEq E]

namespace Driver

variable (spec : MethodSpecs M Q)

def offer (d : Driver M Q E O) (entry : Entry M E) : Driver M Q E O :=
  { d with processQueue := d.processQueue ++ [entry] }

/-- The end of `onSuccess`, and of `onFailure` where the input is ignored. -/
def complete (d : Driver M Q E O) (entry : Entry M E) (input : NumberedInput E) : Driver M Q E O :=
  { d.offer entry.resetRetry with
    inflight := d.inflight - 1, finished := d.finished ++ [input.number] }

/-- The entry that tries the input again.  It is the same entry if that is what it already did. -/
def retryEntry (entry : Entry M E) (input : NumberedInput E) : Entry M E :=
  if entry.isRetry then entry else { entry with retry := some input }

def onFailure (d : Driver M Q E O) (entry : Entry M E) (input : NumberedInput E)
    (o : Outcome Q E O) : Driver M Q E O :=
  match d.queues.failurePolicy spec.toProcessSpecs entry.method input.input o.policy with
  | .retry => d.offer (retryEntry entry input)
  | .ignore => { d with queues := d.queues.ack input.input o }.complete entry input

/-- The call of `onFailure` in `postProcess`.  What is thrown while its arguments are made is
caught. -/
def callOnFailure (d : Driver M Q E O) (entry : Entry M E) (input : NumberedInput E)
    (o : Outcome Q E O) : Driver M Q E O :=
  if o.message then d.onFailure spec entry input o else d

def postProcess (d : Driver M Q E O) (entry : Entry M E) (input : NumberedInput E)
    (success : Bool) (o : Outcome Q E O) : Driver M Q E O :=
  if success then
    let t := if 0 < d.queues.getRetry entry.method input.input then d.queues.reclaim input.input
      else d.queues
    if o.finish then
      { d with
        queues := t.finish d.queues.txAware (d.queues.inputEntries input.input) o.emitted false
        }.complete entry input
    else { d with queues := t }.callOnFailure spec entry input o
  else d.callOnFailure spec entry input o

/-- The dequeue from the reader of the entry. -/
def dequeue (d : Driver M Q E O) (entry : Entry M E) (dequeued : Dequeued Q E) :
    Driver M Q E O × Entry M E × Option (NumberedInput E) :=
  match entry.retry with
  | some r =>
    let (queues, input) := d.queues.incrementRetry entry.method r.input
    ({ d with queues := queues }, { entry with retry := some ⟨input, r.number⟩ },
      some ⟨input, r.number⟩)
  | none =>
    let (queues, input) := d.queues.read spec.toProcessSpecs entry.method dequeued
    ({ d with queues := queues }, entry, input.map fun input ↦ ⟨input, d.dequeued⟩)

/-- The counter goes up for an input that is not tried again. -/
def count (d : Driver M Q E O) (entry : Entry M E) : Driver M Q E O :=
  if entry.isRetry then d else { d with inflight := d.inflight + 1, dequeued := d.dequeued + 1 }

/-- The process method is called. -/
def call (d : Driver M Q E O) (entry : Entry M E) (input : NumberedInput E) (emitted : List O) :
    Driver M Q E O :=
  { d with
    queues := d.queues.emit emitted, invoked := d.invoked ++ [(entry.method, input.number)] }

/-- The rest of `handleProcessEntry`, when there is an input. -/
def process (d : Driver M Q E O) (entry : Entry M E) (input : NumberedInput E) (o : Turn Q E O) :
    Driver M Q E O × Option (Entry M E) :=
  let t := (d.count entry).call entry input o.emitted
  let result := invoke spec entry.method input.input o.calls
  match result with
  | .success => (t.postProcess spec entry input true (o.outcome result), none)
  | .failure => (t.postProcess spec entry input false (o.outcome result), none)
  | .thrown =>
    (if entry.isRetry then t else { t with inflight := t.inflight - 1 }, some entry)

/-- `handleProcessEntry`, which also gives back the entry if it is not handled completely. -/
def handleProcessEntry (d : Driver M Q E O) (entry : Entry M E) (o : Turn Q E O) :
    Driver M Q E O × Option (Entry M E) :=
  if o.shouldProcess && o.start then
    match { d with queues := d.queues.startTx }.dequeue spec entry o.dequeued with
    | (t, entry, none) => (t, some entry)
    | (t, entry, some input) =>
      if State.needProcess input.input then t.process spec entry input o
      else
        (if o.finish then
          { t with queues := t.queues.finish t.queues.txAware ∅ [] false }
        else t, some entry)
  else (d, some entry)

/-- What is given back is offered. -/
def putBack : Driver M Q E O × Option (Entry M E) → Driver M Q E O
  | (t, some entry) => t.offer entry
  | (t, none) => t

/-- The body of the loop in `createProcessRunner`. -/
def run (d : Driver M Q E O) (entry : Entry M E) (o : Turn Q E O) : Driver M Q E O :=
  putBack (d.handleProcessEntry spec entry o)

/-! ## The system -/

inductive Action (Q E O : Type)
  /-- The queue is drained. -/
  | drain
  | handle (i : Nat) (o : Turn Q E O)
  | suspend (o : Q → CloseOutcome)
  | resume (o : Q → OpenOutcome)

/-- The driver before its first iteration. -/
def init (q₀ : Q) : Driver M Q E O where
  queues := State.init spec.toProcessSpecs q₀
  processQueue := spec.methods.map fun m ↦ ⟨m, none⟩
  processList := []
  inflight := 0
  dequeued := 0
  invoked := []
  finished := []

/-- The next state, if the action is possible.  The head of the queue is looked at before it is
drained. The entries may be handled in any order; the flowlet is suspended or resumed between
iterations. -/
def step (d : Driver M Q E O) : Action Q E O → Option (Driver M Q E O)
  | .drain =>
    if d.processList = [] ∧ d.processQueue ≠ [] ∧ d.queues.suspended = false then
      some { d with processList := d.processQueue, processQueue := [] }
    else none
  | .handle i o =>
    (d.processList[i]?).map fun entry ↦
      { d with processList := d.processList.eraseIdx i }.run spec entry o
  | .suspend o =>
    if d.processList = [] ∧ d.queues.suspended = false then
      some { d with queues := { d.queues.closeAll o spec.suppliers with suspended := true } }
    else none
  | .resume o =>
    if d.processList = [] ∧ d.queues.suspended = true then
      some { d with queues := d.queues.openAll o spec.suppliers }
    else none

/-! ## What is to hold -/

/-- The ledger agrees with the entries in the queue and the counter. -/
structure Conserved (d : Driver M Q E O) : Prop where
  /-- Each method has one entry. -/
  entries : (d.processQueue.map Entry.method).Perm spec.methods
  /-- The counter is the number of inputs dequeued and not finished. -/
  inflight : d.inflight = ((List.range d.dequeued).filter (· ∉ d.finished)).length
  /-- An input is given to its method once, and once for each retry. -/
  invoked : ∀ m n, 0 ≤ spec.maxRetries m → (d.invoked.count (m, n) : Int) ≤ spec.maxRetries m + 1

/-- If there is a failure, its cause has a message to give. -/
def MessageOk (_ : Driver M Q E O) : Action Q E O → Prop
  | .handle _ o => o.message = true
  | _ => True

instance (d : Driver M Q E O) (a : Action Q E O) : Decidable (d.MessageOk a) :=
  match a with
  | .handle _ _ => inferInstanceAs (Decidable (_ = _))
  | .drain => inferInstanceAs (Decidable True)
  | .suspend _ => inferInstanceAs (Decidable True)
  | .resume _ => inferInstanceAs (Decidable True)

/-! ## Process methods do not fail to be called -/

section

variable {spec} {m : M} {input : InputDatum E} {calls : Nat → CallResult}

theorem needProcess_of_size (h : size input ≠ 0) : State.needProcess input = true := by
  cases input with
  | null => rfl
  | basic c es retry =>
    refine decide_eq_true fun hes ↦ h ?_
    rw [size, hes, Finset.card_empty]

/-- **The call itself does not fail**, for an input that has the events the method needs. -/
theorem invoke_ne_thrown (h : spec.needsInput m = true → size input ≠ 0) :
    invoke spec m input calls ≠ .thrown := by
  unfold invoke
  cases hneeds : spec.needsInput m with
  | false =>
    simp only [Bool.false_and, Bool.false_eq_true, if_false]
    split_ifs <;> simp
  | true =>
    have hsize : size input ≠ 0 := h hneeds
    simp only [needProcess_of_size hsize, Bool.not_true, Bool.and_false,
      Bool.false_eq_true, if_false, beq_eq_false_iff_ne.mpr hsize]
    split_ifs <;> simp

end

/-! ## The invariant -/

/-- The inputs that entries wait to try again. -/
def waiting (entries : List (Entry M E)) : List Nat :=
  entries.filterMap fun entry ↦ entry.retry.map NumberedInput.number

/-- What the ledger has to do with the entries, wherever these are. -/
structure Ledger (d : Driver M Q E O) (entries : List (Entry M E)) : Prop where
  methods : (entries.map Entry.method).Perm spec.methods
  numbers : (waiting entries ++ d.finished).Perm (List.range d.dequeued)
  inflight : d.inflight = (waiting entries).length
  lt_dequeued : ∀ x ∈ d.invoked, x.2 < d.dequeued
  invoked : ∀ m n, 0 ≤ spec.maxRetries m → (d.invoked.count (m, n) : Int) ≤ spec.maxRetries m + 1
  nullRetry : ∀ m, (d.queues.nullRetry m : Int) ≤ max (spec.maxRetries m) 0

/-- An input that waits may be tried once more. -/
structure Waits (d : Driver M Q E O) (m : M) (r : NumberedInput E) : Prop where
  retry : (d.queues.getRetry m r.input : Int) < spec.maxRetries m
  invoked : d.invoked.count (m, r.number) ≤ d.queues.getRetry m r.input + 1
  size : spec.needsInput m = true → size r.input ≠ 0
  need : State.needProcess r.input = true

/-- **The invariant**: the books of the driver, and of each input that waits for another try. -/
structure Inv (d : Driver M Q E O) (entries : List (Entry M E)) : Prop where
  ledger : d.Ledger spec entries
  waits : ∀ entry ∈ entries, ∀ r ∈ entry.retry, d.Waits spec entry.method r

/-- The method has an input in hand; the other entries are where they were.  It has been called
`calls` times since the input was dequeued the last time. -/
structure Busy (d : Driver M Q E O) (calls : Nat) (m : M) (r : NumberedInput E)
    (entries : List (Entry M E)) : Prop where
  ledger : d.Ledger spec (⟨m, some r⟩ :: entries)
  waits : ∀ entry ∈ entries, ∀ r ∈ entry.retry, d.Waits spec entry.method r
  retry : (d.queues.getRetry m r.input : Int) ≤ max (spec.maxRetries m) 0
  invoked : d.invoked.count (m, r.number) ≤ d.queues.getRetry m r.input + calls
  size : spec.needsInput m = true → size r.input ≠ 0
  need : State.needProcess r.input = true

/-- What the invariant is about, apart from the entries. -/
def book (d : Driver M Q E O) :=
  (d.inflight, d.dequeued, d.invoked, d.finished, d.queues.nullRetry)

section

variable {spec} {d d' : Driver M Q E O} {entry : Entry M E} {entries es : List (Entry M E)}
  {r : NumberedInput E} {m : M} {o : Turn Q E O} {oc : Outcome Q E O} {dq : Dequeued Q E} {k : Nat}
  {emitted : List O}

theorem getRetry_congr {s t : State M Q E O} {input : InputDatum E}
    (h : t.nullRetry m = s.nullRetry m) : t.getRetry m input = s.getRetry m input := by
  cases input with
  | null => exact h
  | basic c es retry => rfl

theorem Waits.frame (h : d.Waits spec m r) (hn : d'.queues.nullRetry m = d.queues.nullRetry m)
    (hc : d'.invoked.count (m, r.number) = d.invoked.count (m, r.number)) : d'.Waits spec m r where
  retry := by
    rw [getRetry_congr hn]
    exact h.retry
  invoked := by
    rw [getRetry_congr hn, hc]
    exact h.invoked
  size := h.size
  need := h.need

theorem Ledger.congr (h : d.Ledger spec es) (hb : d'.book = d.book) : d'.Ledger spec es := by
  obtain ⟨h1, h2, h3, h4, h5⟩ : d'.inflight = d.inflight ∧ d'.dequeued = d.dequeued ∧
      d'.invoked = d.invoked ∧ d'.finished = d.finished ∧
      d'.queues.nullRetry = d.queues.nullRetry := by simpa [book] using hb
  exact ⟨h.methods, by rw [h2, h4]; exact h.numbers, by rw [h1]; exact h.inflight,
    by rw [h2, h3]; exact h.lt_dequeued, by rw [h3]; exact h.invoked, by rw [h5]; exact h.nullRetry⟩

theorem Waits.congr (h : d.Waits spec m r) (hb : d'.book = d.book) : d'.Waits spec m r := by
  refine h.frame ?_ ?_
  · exact congrFun (congrArg (·.2.2.2.2) hb) m
  · exact congrArg (fun b ↦ b.2.2.1.count (m, r.number)) hb

theorem Inv.congr (h : d.Inv spec es) (hb : d'.book = d.book) : d'.Inv spec es :=
  ⟨h.ledger.congr hb, fun entry hentry r hr ↦ (h.waits entry hentry r hr).congr hb⟩

theorem Busy.congr (h : d.Busy spec k m r es) (hb : d'.book = d.book) : d'.Busy spec k m r es where
  ledger := h.ledger.congr hb
  waits := fun entry hentry r hr ↦ (h.waits entry hentry r hr).congr hb
  retry := by
    rw [getRetry_congr (congrFun (congrArg (·.2.2.2.2) hb) m)]
    exact h.retry
  invoked := by
    have hinvoked : d'.invoked = d.invoked := congrArg (·.2.2.1) hb
    rw [getRetry_congr (congrFun (congrArg (·.2.2.2.2) hb) m), hinvoked]
    exact h.invoked
  size := h.size
  need := h.need

theorem Ledger.perm (h : d.Ledger spec es) (hp : es.Perm entries) : d.Ledger spec entries where
  methods := (hp.map _).symm.trans h.methods
  numbers := ((hp.filterMap _).symm.append_right _).trans h.numbers
  inflight := h.inflight.trans (congrArg Nat.cast (hp.filterMap _).length_eq)
  lt_dequeued := h.lt_dequeued
  invoked := h.invoked
  nullRetry := h.nullRetry

theorem Inv.perm (h : d.Inv spec es) (hp : es.Perm entries) : d.Inv spec entries :=
  ⟨h.ledger.perm hp, fun entry hentry ↦ h.waits entry (hp.mem_iff.mpr hentry)⟩

theorem Ledger.notMem (h : d.Ledger spec (entry :: es)) : entry.method ∉ es.map Entry.method := by
  have hnodup : ((entry :: es).map Entry.method).Nodup := h.methods.nodup_iff.mpr spec.nodup
  exact (List.nodup_cons.mp hnodup).1

/-- An input that waits is taken up again. -/
theorem busy_incrementRetry (h : d.Inv spec (⟨m, some r⟩ :: es)) :
    ({ d with queues := (d.queues.incrementRetry m r.input).1 } : Driver M Q E O).Busy spec 0 m
      ⟨(d.queues.incrementRetry m r.input).2, r.number⟩ es := by
  have hwaits := h.waits _ List.mem_cons_self r rfl
  have hnotMem := h.ledger.notMem
  obtain ⟨input, n⟩ := r
  cases input with
  | null =>
    have hlt : (d.queues.nullRetry m : Int) < spec.maxRetries m := hwaits.retry
    have hself : (d.queues.incrementRetry m (.null : InputDatum E)).1.nullRetry m =
      d.queues.nullRetry m + 1 := Function.update_self ..
    have hother {m' : M} (hm : m' ≠ m) :
        (d.queues.incrementRetry m (.null : InputDatum E)).1.nullRetry m' = d.queues.nullRetry m' :=
      Function.update_of_ne hm _ _
    refine ⟨?_, fun entry hentry r hr ↦ ?_, ?_, ?_, hwaits.size,
      hwaits.need⟩
    · refine ⟨h.ledger.methods, h.ledger.numbers, h.ledger.inflight, h.ledger.lt_dequeued,
        h.ledger.invoked, fun m' ↦ ?_⟩
      by_cases hm : m' = m
      · subst hm
        show ((d.queues.incrementRetry m' (.null : InputDatum E)).1.nullRetry m' : Int) ≤ _
        rw [hself]
        omega
      · show ((d.queues.incrementRetry m (.null : InputDatum E)).1.nullRetry m' : Int) ≤ _
        rw [hother hm]
        exact h.ledger.nullRetry m'
    · refine (h.waits entry (List.mem_cons_of_mem _ hentry) r hr).frame (hother ?_) rfl
      intro hm
      have hmem : entry.method ∈ es.map Entry.method := List.mem_map_of_mem hentry
      exact hnotMem (hm ▸ hmem)
    · show ((d.queues.incrementRetry m (.null : InputDatum E)).1.nullRetry m : Int) ≤ _
      rw [hself]
      omega
    · show _ ≤ (d.queues.incrementRetry m (.null : InputDatum E)).1.nullRetry m + 0
      rw [hself]
      exact hwaits.invoked
  | basic c entries retry =>
    have hlt : (retry : Int) < spec.maxRetries m := hwaits.retry
    have hcount : d.invoked.count (m, n) ≤ retry + 1 := hwaits.invoked
    have hledger : d.Ledger spec (⟨m, some ⟨.basic c entries (retry + 1), n⟩⟩ :: es) :=
      ⟨h.ledger.methods, h.ledger.numbers, h.ledger.inflight, h.ledger.lt_dequeued,
        h.ledger.invoked, h.ledger.nullRetry⟩
    refine ⟨hledger, fun entry hentry ↦ h.waits entry (List.mem_cons_of_mem _ hentry), ?_,
      hcount, hwaits.size, hwaits.need⟩
    show ((retry + 1 : Nat) : Int) ≤ _
    omega

/-- A new input is counted. -/
theorem busy_count {input : InputDatum E} (h : d.Inv spec (⟨m, none⟩ :: es))
    (hretry : (d.queues.getRetry m input : Int) ≤ max (spec.maxRetries m) 0)
    (hsize : spec.needsInput m = true → size input ≠ 0) (hneed : State.needProcess input = true) :
    (d.count ⟨m, none⟩).Busy spec 0 m ⟨input, d.dequeued⟩ es := by
  have hzero : d.invoked.count (m, d.dequeued) = 0 :=
    List.count_eq_zero.mpr fun hmem ↦ lt_irrefl _ (h.ledger.lt_dequeued _ hmem)
  refine ⟨⟨h.ledger.methods, ?_, ?_, fun x hx ↦ ?_, h.ledger.invoked, h.ledger.nullRetry⟩,
    fun entry hentry r hr ↦ ?_, hretry, hzero.le.trans (Nat.zero_le _), hsize, hneed⟩
  · show (d.dequeued :: (waiting es ++ d.finished)).Perm (List.range (d.dequeued + 1))
    rw [List.range_succ]
    exact (List.perm_append_singleton _ _).symm.trans (h.ledger.numbers.append_right _)
  · show d.inflight + 1 = _
    rw [h.ledger.inflight]
    rfl
  · exact (h.ledger.lt_dequeued x hx).trans (Nat.lt_succ_self _)
  · exact (h.waits entry (List.mem_cons_of_mem _ hentry) r hr).frame rfl rfl

/-- The process method is called with the input. -/
theorem Busy.call (emitted : List O) (h : d.Busy spec 0 m r es) (hm : entry.method = m) :
    (d.call entry r emitted).Busy spec 1 m r es := by
  subst hm
  have hcount : (d.invoked ++ [(entry.method, r.number)]).count (entry.method, r.number) =
    d.invoked.count (entry.method, r.number) + 1 := by simp
  have hnotMem := h.ledger.notMem
  refine ⟨⟨h.ledger.methods, h.ledger.numbers, h.ledger.inflight, ?_, fun m n hmax ↦ ?_,
    h.ledger.nullRetry⟩, fun entry' hentry' r' hr' ↦ ?_, h.retry, ?_, h.size, h.need⟩
  · show ∀ x ∈ d.invoked ++ [(entry.method, r.number)], x.2 < d.dequeued
    rw [List.forall_mem_append, List.forall_mem_singleton]
    refine ⟨h.ledger.lt_dequeued, List.mem_range.mp (h.ledger.numbers.mem_iff.mp ?_)⟩
    exact List.mem_append_left _ List.mem_cons_self
  · show (((d.invoked ++ [(entry.method, r.number)]).count (m, n) : Nat) : Int) ≤ _
    by_cases heq : (m, n) = (entry.method, r.number)
    · obtain ⟨rfl, rfl⟩ := Prod.mk.inj heq
      have hretry := h.retry
      have hinvoked := h.invoked
      rw [hcount]
      omega
    · rw [List.count_append, List.count_singleton, if_neg (by simpa using Ne.symm heq)]
      exact h.ledger.invoked m n hmax
  · refine (h.waits entry' hentry' r' hr').frame rfl ?_
    show (d.invoked ++ [(entry.method, r.number)]).count (entry'.method, r'.number) = _
    have hne : (entry'.method, r'.number) ≠ (entry.method, r.number) := fun heq ↦
      hnotMem ((Prod.mk.inj heq).1 ▸ List.mem_map_of_mem hentry')
    rw [List.count_append, List.count_singleton, if_neg (by simpa using Ne.symm hne), Nat.add_zero]
  · show (d.invoked ++ [(entry.method, r.number)]).count (entry.method, r.number) ≤ _
    rw [hcount]
    exact Nat.succ_le_succ h.invoked

/-- The input is done with. -/
theorem Busy.complete (h : d.Busy spec k m r es) (hm : entry.method = m) :
    (d.complete entry r).Inv spec (entry.resetRetry :: es) := by
  subst hm
  refine ⟨⟨h.ledger.methods, ?_, ?_, h.ledger.lt_dequeued, h.ledger.invoked, h.ledger.nullRetry⟩,
    fun entry' hentry' r' hr' ↦ ?_⟩
  · show (waiting es ++ (d.finished ++ [r.number])).Perm (List.range d.dequeued)
    rw [← List.append_assoc]
    exact (List.perm_append_singleton _ _).trans h.ledger.numbers
  · show d.inflight - 1 = ((waiting es).length : Int)
    have hinflight : d.inflight = ((waiting es).length + 1 : Nat) := h.ledger.inflight
    omega
  · rcases List.mem_cons.mp hentry' with rfl | hentry'
    · cases hr'
    · exact (h.waits entry' hentry' r' hr').frame rfl rfl

/-- The input waits to be tried again. -/
theorem Busy.inv (h : d.Busy spec 1 m r es)
    (hretry : (d.queues.getRetry m r.input : Int) < spec.maxRetries m) :
    d.Inv spec (⟨m, some r⟩ :: es) := by
  refine ⟨h.ledger, fun entry' hentry' r' hr' ↦ ?_⟩
  rcases List.mem_cons.mp hentry' with rfl | hentry'
  · obtain rfl := Option.some.inj hr'
    exact ⟨hretry, h.invoked, h.size, h.need⟩
  · exact h.waits entry' hentry' r' hr'

end

/-! ## What a call does -/

/-- One entry was put back in the place of the one that was taken out. -/
def Back (d : Driver M Q E O) (es : List (Entry M E)) (t : Driver M Q E O) : Prop :=
  ∃ entry, t.processQueue = d.processQueue ++ [entry] ∧ t.processList = d.processList ∧
    t.Inv spec (entry :: es)

section

variable {spec} {d d' : Driver M Q E O} {entry : Entry M E} {es : List (Entry M E)}
  {r : NumberedInput E} {m : M} {o : Turn Q E O} {oc : Outcome Q E O} {dq : Dequeued Q E} {k : Nat}
  {s : State M Q E O} {input : InputDatum E}

theorem nullRetry_reclaim : (s.reclaim input).nullRetry = s.nullRetry := by
  cases input with
  | null => rfl
  | basic c es retry => rfl

theorem nullRetry_ack : (s.ack input oc).nullRetry = s.nullRetry := by
  unfold State.ack
  split
  · have hreclaim : (s.startTx.reclaim input).nullRetry = s.nullRetry := nullRetry_reclaim
    simp only
    split
    · exact hreclaim
    · exact hreclaim
  · rfl

theorem nullRetry_read : (s.read spec.toProcessSpecs m dq).1.nullRetry = s.nullRetry := by
  unfold State.read
  split
  · split
    · rfl
    · split <;> rfl
    · split <;> rfl
  · rfl

/-- What a method reads is new, and has events if it needs them. -/
theorem read_cases (h : (s.read spec.toProcessSpecs m dq).2 = some input) :
    (∃ c es, input = .basic c es 0) ∨ (input = .null ∧ spec.needsInput m = false) := by
  unfold State.read at h
  split at h
  · split at h
    · exact .inl ⟨0, ∅, (Option.some.inj h).symm⟩
    · split at h
      · exact .inl ⟨_, _, (Option.some.inj h).symm⟩
      · cases h
    · split at h <;> cases h
  · rename_i hm
    exact .inr ⟨(Option.some.inj h).symm, decide_eq_false hm⟩

theorem book_queues {s : State M Q E O} (h : s.nullRetry = d.queues.nullRetry) :
    ({ d with queues := s } : Driver M Q E O).book = d.book := by
  simp only [book, h]

theorem back_offer (h : d.Inv spec (entry :: es)) : d.Back spec es (d.offer entry) :=
  ⟨entry, rfl, rfl, h.congr rfl⟩

theorem back_complete (h : d.Busy spec k m r es) (hm : entry.method = m) :
    d.Back spec es (d.complete entry r) :=
  ⟨entry.resetRetry, rfl, rfl, h.complete hm⟩

theorem back_callOnFailure (h : d.Busy spec 1 entry.method r es)
    (hentry : entry.retry = none ∨ entry.retry = some r) (hmessage : oc.message = true) :
    d.Back spec es (d.callOnFailure spec entry r oc) := by
  have hentry' : retryEntry entry r = ⟨entry.method, some r⟩ := by
    obtain ⟨m, retry⟩ := entry
    rcases hentry with rfl | rfl <;> rfl
  rw [callOnFailure, if_pos hmessage]
  unfold onFailure
  split
  · rename_i hpolicy
    rw [hentry']
    refine back_offer (h.inv ?_)
    by_contra hle
    rw [State.failurePolicy, if_pos (not_lt.mp hle)] at hpolicy
    cases hpolicy
  · exact back_complete (h.congr (book_queues nullRetry_ack)) rfl

theorem back_postProcess {success : Bool} (h : d.Busy spec 1 entry.method r es)
    (hentry : entry.retry = none ∨ entry.retry = some r) (hmessage : oc.message = true) :
    d.Back spec es (d.postProcess spec entry r success oc) := by
  unfold postProcess
  split
  · have hnull : (if 0 < d.queues.getRetry entry.method r.input then d.queues.reclaim r.input
        else d.queues).nullRetry = d.queues.nullRetry := by
      split
      · exact nullRetry_reclaim
      · rfl
    simp only
    split
    · exact back_complete (h.congr (book_queues hnull)) rfl
    · exact back_callOnFailure (h.congr (book_queues hnull)) hentry hmessage
  · exact back_callOnFailure h hentry hmessage

theorem back_process (h : (d.count entry).Busy spec 0 entry.method r es)
    (hentry : entry.retry = none ∨ entry.retry = some r) (hmessage : o.message = true) :
    d.Back spec es (putBack (d.process spec entry r o)) := by
  have hbusy := h.call o.emitted rfl
  have hlists {t : Driver M Q E O}
      (ht : ((d.count entry).call entry r o.emitted).Back spec es t) : d.Back spec es t := by
    unfold count at ht
    split at ht <;> exact ht
  unfold process
  have hthrown : invoke spec entry.method r.input o.calls ≠ .thrown := invoke_ne_thrown h.size
  cases hresult : invoke spec entry.method r.input o.calls with
  | success => exact hlists (back_postProcess hbusy hentry hmessage)
  | failure => exact hlists (back_postProcess hbusy hentry hmessage)
  | thrown => exact absurd hresult hthrown

/-- **One entry comes back for the one that was handled**, if the cause of a failure has a
message. -/
theorem back_run (h : d.Inv spec (entry :: es)) (hmessage : o.message = true) :
    d.Back spec es (d.run spec entry o) := by
  unfold run handleProcessEntry
  split
  · obtain ⟨m, retry⟩ := entry
    cases retry with
    | none =>
      have hbook : ({ d with queues := (d.queues.startTx.read spec.toProcessSpecs m o.dequeued).1
          } : Driver M Q E O).book = d.book := book_queues nullRetry_read
      have hinv := h.congr hbook
      cases hread : (d.queues.startTx.read spec.toProcessSpecs m o.dequeued).2 with
      | none =>
        simp only [dequeue, hread, Option.map_none]
        exact back_offer hinv
      | some input =>
        simp only [dequeue, hread, Option.map_some]
        split
        · rename_i hneed
          refine back_process (busy_count hinv ?_ (fun hneeds ↦ ?_) hneed) (.inl rfl) hmessage
          · rcases read_cases hread with ⟨c, es, rfl⟩ | ⟨rfl, -⟩
            · exact le_max_right _ _
            · exact hinv.ledger.nullRetry m
          · rcases read_cases hread with ⟨c, es, rfl⟩ | ⟨rfl, hm⟩
            · exact Finset.card_ne_zero.mpr
                (Finset.nonempty_iff_ne_empty.mpr (of_decide_eq_true hneed))
            · rw [hm] at hneeds
              cases hneeds
        · split
          · exact back_offer (hinv.congr rfl)
          · exact back_offer hinv
    | some r =>
      have hbusy := busy_incrementRetry (d := { d with queues := d.queues.startTx }) (h.congr rfl)
      simp only [dequeue]
      rw [if_pos hbusy.need]
      exact back_process hbusy (.inr rfl) hmessage
  · exact back_offer h

/-! ## Runs -/

theorem nullRetry_closeSupplier {co : CloseOutcome} {q : Q} :
    (s.closeSupplier q co).nullRetry = s.nullRetry := by
  unfold State.closeSupplier
  split
  · rfl
  · split
    · simp only
      split <;> rfl
    · rfl

theorem nullRetry_closeAll {co : Q → CloseOutcome} {qs : List Q} :
    (s.closeAll co qs).nullRetry = s.nullRetry := by
  induction qs generalizing s with
  | nil => rfl
  | cons q qs ih => exact ih.trans nullRetry_closeSupplier

theorem nullRetry_openAll {oo : Q → OpenOutcome} {qs : List Q} :
    (s.openAll oo qs).nullRetry = s.nullRetry := by
  induction qs generalizing s with
  | nil => rfl
  | cons q qs ih =>
    unfold State.openAll
    simp only
    split
    · exact ih.trans nullRetry_closeSupplier
    · exact nullRetry_closeSupplier

theorem nullRetry_create {qs : List Q} : (s.create qs).nullRetry = s.nullRetry := by
  induction qs generalizing s with
  | nil => rfl
  | cons q qs ih => exact ih

theorem inv_init (q₀ : Q) :
    (init spec q₀ : Driver M Q E O).Inv spec (spec.methods.map fun m ↦ ⟨m, none⟩) := by
  have hwaiting : waiting (spec.methods.map fun m ↦ (⟨m, none⟩ : Entry M E)) = [] := by
    simp [waiting, List.filterMap_map]
  refine ⟨⟨?_, ?_, ?_, fun x hx ↦ ?_, fun m n hmax ↦ ?_, fun m ↦ ?_⟩,
    fun entry hentry r hr ↦ ?_⟩
  · simp [Function.comp_def]
  · rw [hwaiting]
    exact .refl _
  · rw [hwaiting]
    rfl
  · cases hx
  · show ((0 : Nat) : Int) ≤ _
    omega
  · show (((State.init spec.toProcessSpecs q₀ : State M Q E O).nullRetry m : Nat) : Int) ≤ _
    rw [State.init, nullRetry_create]
    exact le_max_right _ _
  · obtain ⟨m, -, rfl⟩ := List.mem_map.mp hentry
    cases hr

theorem inv_step {a : Action Q E O} (h : d.Inv spec (d.processList ++ d.processQueue))
    (hok : d.MessageOk a) (hstep : d.step spec a = some d') :
    d'.Inv spec (d'.processList ++ d'.processQueue) := by
  cases a with
  | drain =>
    simp only [step] at hstep
    split_ifs at hstep with hdrain
    obtain rfl := Option.some.inj hstep
    rw [hdrain.1, List.nil_append] at h
    rw [List.append_nil]
    exact h.congr rfl
  | handle i o =>
    obtain ⟨entry, hentry, rfl⟩ := Option.map_eq_some_iff.mp hstep
    obtain ⟨hi, rfl⟩ := List.getElem?_eq_some_iff.mp hentry
    have hout : (d.processList ++ d.processQueue).Perm
        (d.processList[i] :: (d.processList.eraseIdx i ++ d.processQueue)) :=
      (List.getElem_cons_eraseIdx_perm hi).symm.append_right _
    obtain ⟨entry, hqueue, hlist, hinv⟩ := back_run (o := o)
      (d := { d with processList := d.processList.eraseIdx i }) ((h.perm hout).congr rfl) hok
    rw [hqueue, hlist, ← List.append_assoc]
    exact hinv.perm (List.perm_append_singleton _ _).symm
  | suspend o =>
    simp only [step] at hstep
    split_ifs at hstep
    obtain rfl := Option.some.inj hstep
    exact h.congr (book_queues nullRetry_closeAll)
  | resume o =>
    simp only [step] at hstep
    split_ifs at hstep
    obtain rfl := Option.some.inj hstep
    exact h.congr (book_queues nullRetry_openAll)

/-- The numbers in the ledger that are not written off are those of the inputs that wait. -/
theorem Ledger.conserved (h : d.Ledger spec d.processQueue) : d.Conserved spec where
  entries := h.methods
  inflight := by
    have hnodup : (waiting d.processQueue ++ d.finished).Nodup :=
      h.numbers.nodup_iff.mpr List.nodup_range
    have hdisjoint := (List.nodup_append.mp hnodup).2.2
    have hperm : ((waiting d.processQueue ++ d.finished).filter (· ∉ d.finished)).Perm
        ((List.range d.dequeued).filter (· ∉ d.finished)) := h.numbers.filter _
    rw [h.inflight, ← hperm.length_eq, List.filter_append, List.filter_eq_self.mpr,
      List.filter_eq_nil_iff.mpr, List.append_nil]
    · simp
    · intro n hn
      simpa using fun hn' ↦ hdisjoint n hn n hn' rfl
  invoked := h.invoked

/-- **Entries are conserved.**  After every iteration of a run in which the cause of each failure
has a message to give, whatever else happens, each method has one entry, the counter is that of the
inputs neither processed nor ignored, and an input was given to its method as often as allowed. -/
theorem conserved_of_message (q₀ : Q) {as : List (Action Q E O)}
    (h : Lts.Run (step spec) MessageOk (init spec q₀) as d) (hdone : d.processList = []) :
    d.Conserved spec := by
  have hinv := h.invariant (I := fun d ↦ d.Inv spec (d.processList ++ d.processQueue))
    (fun hi hok hstep ↦ inv_step hi hok hstep) (inv_init q₀)
  rw [hdone, List.nil_append] at hinv
  exact hinv.ledger.conserved

end

/-! ## Two runs -/

/-- One process method with one queue, which takes single events and is tried three times more. -/
def oneMethod : MethodSpecs Unit Unit where
  toProcessSpecs := State.oneMethod
  batch := fun _ ↦ false
  needsIterator := fun _ ↦ false

/-- The event `7` is dequeued, unless an input is tried again, and the method returns or throws. -/
def attempt (result : CallResult) (message : Bool) : Action Unit Nat Nat :=
  .handle 0 ⟨true, true, .entries () {7}, fun _ ↦ result, [], true, message,
    some .retry, true, true⟩

/-- The method throws, and returns when the input is tried again. -/
def retried : List (Action Unit Nat Nat) :=
  [.drain, attempt (.threw true) true, .drain, attempt .returned true]

theorem conserved_retried :
    ∃ d, Lts.Run (step oneMethod) MessageOk (init oneMethod ()) retried d ∧
      (d.processList = [] ∧ d.invoked = [((), 0), ((), 0)] ∧ d.finished = [0]) ∧
      d.Conserved oneMethod := by
  obtain ⟨d, hrun, hd⟩ := Lts.exists_run_of_exec (step oneMethod) MessageOk (init oneMethod ())
    retried (fun d ↦ d.processList = [] ∧ d.invoked = [((), 0), ((), 0)] ∧ d.finished = [0])
    (by decide)
  exact ⟨d, hrun, hd, conserved_of_message () hrun hd.1⟩

/-- What the method throws has no message to give. -/
def lost : List (Action Unit Nat Nat) := [.drain, attempt (.threw true) false]

/-- **The entry of a method is lost** when `getMessage` of what it throws throws itself. -/
theorem exists_lost :
    ∃ d, Lts.Run (step oneMethod) (fun _ _ ↦ True) (init oneMethod ()) lost d ∧
      (d.processList = [] ∧ d.processQueue = []) ∧ ¬ d.Conserved oneMethod := by
  obtain ⟨d, hrun, hd⟩ := Lts.exists_run_of_exec (step oneMethod) (fun _ _ ↦ True)
    (init oneMethod ()) lost (fun d ↦ d.processList = [] ∧ d.processQueue = []) (by decide)
  refine ⟨d, hrun, hd, fun h ↦ ?_⟩
  have hlength := h.entries.length_eq
  rw [hd.2] at hlength
  cases hlength

end Driver
end Tigon.Flow.ProcessRunner
