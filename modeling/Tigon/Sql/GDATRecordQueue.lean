import Tigon.Lib.Run

/-!
# The record queue of an input flowlet

Records of the output streams go to a `GDATRecordQueue`.  A tick of `AbstractInputFlowlet` takes
records from it, which are pending then, and calls the process methods of their output.  When its
transaction succeeds the pending records are forgotten.  When it fails they go back to the end of
the queue, unless the retry counter has come to `MAX_RETRY`; then they are dropped.

There is one counter for the flowlet.  It counts the failed ticks since the last successful one,
whatever records these had, and goes on after records were dropped.

A `State` has what the flowlet has, together with what has become of the records and in how many
failed ticks each of them was last.

* `inv_step` — no step loses a record, and on each attempt the methods see the same values.
* `budget_step_iff` — when a step drops no record early.
* `exact_iff_budgetOk` — **which runs process each record once, or drop it after `MAX_RETRY`
  consecutive failures.**
* `exists_dropped_early` — a record that comes before the last retry of another is dropped with it.
-/

set_option autoImplicit false

namespace Tigon.GDATRecordQueue

/-! ## Records -/

/-- A record of an output.  The number tells records apart. -/
structure Record where
  id : Nat
  outputName : String
  dataRecord : List UInt8
deriving DecidableEq

/-- A process method: the values it sees, if they can be decoded, and where that leaves the
decoder. -/
abbrev Method (Values : Type) := List UInt8 → Nat → Option Values × Nat

/-- `MAX_RETRY` -/
def maxRetry : Nat := 5

/-- A call of `MethodsDriver.invokeMethods`, and the values that the methods saw. -/
structure Attempt (Values : Type) where
  record : Record
  values : List (Option Values)

structure State (Values : Type) where
  dataQueue : List Record
  pendingRecords : List Record
  retryCounter : Nat
  /-- The positions of the decoders. -/
  position : Nat → Nat
  /-- All records that have come. -/
  received : List Record
  /-- The records of the successful ticks. -/
  processed : List Record
  /-- The records that were dropped, with the number of consecutive failed ticks they were in. -/
  dropped : List (Record × Nat)
  /-- The number of failed ticks up to now that the record was in, without another tick since. -/
  failures : Nat → Nat
  attempts : List (Attempt Values)

section

variable {Values : Type}

def State.init : State Values := ⟨[], [], 0, fun _ ↦ 0, [], [], [], fun _ ↦ 0, []⟩

/-- `GDATRecordQueue.add`, of a new record. -/
def add (s : State Values) (outputName : String) (dataRecord : List UInt8) : State Values :=
  let record : Record := ⟨s.received.length, outputName, dataRecord⟩
  { s with dataQueue := s.dataQueue ++ [record], received := s.received ++ [record] }

/-- `MethodsDriver.invokeMethods`, which resets the decoder for each of the methods.  Here, what
they see. -/
def invokeMethods (methods : List (Method Values)) (dataRecord : List UInt8) (position : Nat) :
    List (Option Values) × Nat :=
  methods.foldl (fun (values, _) method ↦
    let position := 0
    (values ++ [(method dataRecord position).1], (method dataRecord position).2)) ([], position)

/-- `GDATRecordQueue.getNext`, and the methods that see the record. -/
def getNext (methods : List (Method Values)) (s : State Values) (record : Record)
    (rest : List Record) : State Values :=
  let (values, position) := invokeMethods methods record.dataRecord (s.position record.id)
  { s with
    dataQueue := rest
    pendingRecords := s.pendingRecords ++ [record]
    position := Function.update s.position record.id position
    attempts := s.attempts ++ [⟨record, values⟩] }

/-- `onSuccess` -/
def onSuccess (s : State Values) : State Values :=
  { s with
    pendingRecords := []
    retryCounter := 0
    processed := s.processed ++ s.pendingRecords
    failures := fun _ ↦ 0 }

/-- One more failure for the records of the tick, and the end of a series for the others. -/
def failed (s : State Values) (id : Nat) : Nat :=
  if id ∈ s.pendingRecords.map Record.id then s.failures id + 1 else 0

/-- `onFailure` -/
def onFailure (s : State Values) : State Values :=
  if maxRetry ≤ s.retryCounter + 1 then
    { s with
      pendingRecords := []
      retryCounter := s.retryCounter + 1
      dropped := s.dropped ++ s.pendingRecords.map fun r ↦ (r, failed s r.id)
      failures := fun _ ↦ 0 }
  else
    { s with
      dataQueue := s.dataQueue ++ s.pendingRecords
      pendingRecords := []
      retryCounter := s.retryCounter + 1
      failures := failed s }

/-! ## Runs -/

inductive Action
  /-- A record comes, at any time. -/
  | add (outputName : String) (dataRecord : List UInt8)
  /-- The tick takes a record, and all methods return. -/
  | process
  /-- The tick takes a record, and fails since a method throws, after some that have seen the
  values.  The decoder is left somewhere. -/
  | throw (invoked position : Nat)
  /-- The tick ends, at the end of the queue or of its time, and its transaction succeeds. -/
  | success
  /-- The tick ends, and its transaction fails. -/
  | failure

/-- The methods of each output. -/
abbrev MethodListMap (Values : Type) := String → List (Method Values)

/-- The tick takes a record, and fails with it. -/
def getNextThrow (methods : MethodListMap Values) (s : State Values) (record : Record)
    (rest : List Record) (invoked position : Nat) : State Values :=
  let s := getNext ((methods record.outputName).take invoked) s record rest
  { s with position := Function.update s.position record.id position }

def step (methods : MethodListMap Values) (s : State Values) : Action → Option (State Values)
  | .add outputName dataRecord => some (add s outputName dataRecord)
  | .process =>
    match s.dataQueue with
    | [] => none
    | record :: rest => some (getNext (methods record.outputName) s record rest)
  | .throw invoked position =>
    match s.dataQueue with
    | [] => none
    | record :: rest => some (onFailure (getNextThrow methods s record rest invoked position))
  | .success => some (onSuccess s)
  | .failure => some (onFailure s)

/-! ## What is to hold -/

/-- What is to hold of the records in every state. -/
structure Exact (methods : MethodListMap Values) (s : State Values) : Prop where
  /-- No record is lost, and none is in two places or twice in one. -/
  accounted : s.received.Perm (s.dataQueue ++ s.pendingRecords ++ s.processed ++
    s.dropped.map Prod.fst)
  distinct : (s.received.map Record.id).Nodup
  /-- No record is dropped early. -/
  budget : ∀ d ∈ s.dropped, d.2 = maxRetry
  /-- No record has more failures than it may have. -/
  due : ∀ r ∈ s.dataQueue ++ s.pendingRecords, s.failures r.id < maxRetry
  /-- The methods of an output are called in their order. -/
  seen : ∀ a ∈ s.attempts,
    a.values <+: (methods a.record.outputName).map fun method ↦ (method a.record.dataRecord 0).1

/-- The records that the tick has when it fails. -/
def failing (s : State Values) : Action → List Record
  | .throw _ _ => s.pendingRecords ++ s.dataQueue.take 1
  | .failure => s.pendingRecords
  | _ => []

/-- A tick whose failure is the last that the counter allows has only records that were in the
failed ticks before it, as many as that takes. -/
def BudgetOk (s : State Values) (a : Action) : Prop :=
  maxRetry ≤ s.retryCounter + 1 → ∀ r ∈ failing s a, maxRetry ≤ s.failures r.id + 1

instance decidableBudgetOk (s : State Values) (a : Action) : Decidable (BudgetOk s a) :=
  inferInstanceAs (Decidable (_ → _))

/-! ## Attempts -/

variable {methods : MethodListMap Values} {s t : State Values} {a : Action} {as : List Action}

theorem invokeMethods_values (l : List (Method Values)) (dataRecord : List UInt8) (position : Nat) :
    (invokeMethods l dataRecord position).1 = l.map fun method ↦ (method dataRecord 0).1 := by
  have hfold : ∀ (values : List (Option Values)) (position : Nat),
      (l.foldl (fun (x : List (Option Values) × Nat) (method : Method Values) ↦
        (x.1 ++ [(method dataRecord 0).1], (method dataRecord 0).2)) (values, position)).1 =
      values ++ l.map fun method ↦ (method dataRecord 0).1 := by
    induction l with
    | nil => exact fun values _ ↦ (List.append_nil values).symm
    | cons method l ih =>
      intro values position
      rw [List.foldl_cons, ih, List.map_cons, List.append_assoc, List.singleton_append]
  exact hfold [] position

/-- What every run keeps. -/
structure Inv (methods : MethodListMap Values) (s : State Values) : Prop where
  accounted : s.received.Perm (s.dataQueue ++ s.pendingRecords ++ s.processed ++
    s.dropped.map Prod.fst)
  ids : s.received.map Record.id = List.range s.received.length
  counter : ∀ id, s.failures id ≤ s.retryCounter
  due : ∀ id, s.failures id < maxRetry
  seen : ∀ a ∈ s.attempts,
    a.values <+: (methods a.record.outputName).map fun method ↦ (method a.record.dataRecord 0).1

theorem maxRetry_pos : 0 < maxRetry := by decide

theorem inv_init : Inv methods .init :=
  ⟨.refl _, rfl, fun _ ↦ le_rfl, fun _ ↦ maxRetry_pos, fun _ h ↦ absurd h List.not_mem_nil⟩

theorem inv_add (h : Inv methods s) (outputName : String) (dataRecord : List UInt8) :
    Inv methods (add s outputName dataRecord) where
  accounted := by
    have hcount := List.perm_iff_count.mp h.accounted
    refine List.perm_iff_count.mpr fun r ↦ ?_
    have := hcount r
    simp only [add, List.count_append] at this ⊢
    omega
  ids := by
    show (s.received ++ [_]).map Record.id = List.range (s.received ++ [_]).length
    rw [List.map_append, h.ids, List.length_append, List.length_singleton, List.range_succ]
    rfl
  counter := h.counter
  due := h.due
  seen := h.seen

/-- A record is taken, and some of its methods see the values. -/
theorem inv_getNext {l : List (Method Values)} {record : Record} {rest : List Record}
    (h : Inv methods s) (hqueue : s.dataQueue = record :: rest)
    (hl : l <+: methods record.outputName) :
    Inv methods (getNext l s record rest) where
  accounted := by
    have hcount := List.perm_iff_count.mp h.accounted
    refine List.perm_iff_count.mpr fun r ↦ ?_
    have := hcount r
    rw [hqueue, ← List.singleton_append] at this
    simp only [getNext, List.count_append] at this ⊢
    omega
  ids := h.ids
  counter := h.counter
  due := h.due
  seen := by
    intro a ha
    rcases List.mem_append.mp ha with hold | hnew
    · exact h.seen a hold
    · obtain rfl := List.mem_singleton.mp hnew
      show (invokeMethods l record.dataRecord (s.position record.id)).1 <+: _
      rw [invokeMethods_values]
      exact hl.map _

theorem inv_getNextThrow {record : Record} {rest : List Record} (h : Inv methods s)
    (hqueue : s.dataQueue = record :: rest) (invoked position : Nat) :
    Inv methods (getNextThrow methods s record rest invoked position) := by
  have htake : (methods record.outputName).take invoked <+: methods record.outputName :=
    List.take_prefix invoked _
  have hinv := inv_getNext h hqueue htake
  exact ⟨hinv.accounted, hinv.ids, hinv.counter, hinv.due, hinv.seen⟩

/-! ## The end of a tick -/

theorem inv_onSuccess (h : Inv methods s) : Inv methods (onSuccess s) where
  accounted := by
    have hcount := List.perm_iff_count.mp h.accounted
    refine List.perm_iff_count.mpr fun r ↦ ?_
    have := hcount r
    simp only [onSuccess, List.count_append, List.count_nil] at this ⊢
    omega
  ids := h.ids
  counter := fun _ ↦ Nat.zero_le _
  due := fun _ ↦ maxRetry_pos
  seen := h.seen

theorem failed_le (h : Inv methods s) (id : Nat) : failed s id ≤ s.retryCounter + 1 := by
  have := h.counter id
  unfold failed
  split <;> omega

theorem inv_onFailure (h : Inv methods s) : Inv methods (onFailure s) := by
  have hcount := List.perm_iff_count.mp h.accounted
  unfold onFailure
  split
  · refine ⟨List.perm_iff_count.mpr fun r ↦ ?_, h.ids, fun _ ↦ Nat.zero_le _,
      fun _ ↦ maxRetry_pos, h.seen⟩
    have := hcount r
    have hmap : (s.pendingRecords.map fun r ↦ (r, failed s r.id)).map Prod.fst =
      s.pendingRecords := by
      rw [List.map_map]
      exact List.map_id _
    simp only [List.map_append, hmap, List.count_append, List.count_nil] at this ⊢
    omega
  · rename_i hlt
    refine ⟨List.perm_iff_count.mpr fun r ↦ ?_, h.ids, failed_le h, fun id ↦ ?_, h.seen⟩
    · have := hcount r
      simp only [List.count_append, List.count_nil] at this ⊢
      omega
    · have := failed_le h id
      show failed s id < maxRetry
      omega

/-- What a step can do. -/
theorem step_cases (hstep : step methods s a = some t) :
    (∃ outputName dataRecord, a = .add outputName dataRecord ∧ t = add s outputName dataRecord) ∨
    (∃ record rest, a = .process ∧ s.dataQueue = record :: rest ∧
      t = getNext (methods record.outputName) s record rest) ∨
    (∃ invoked position record rest, a = .throw invoked position ∧ s.dataQueue = record :: rest ∧
      t = onFailure (getNextThrow methods s record rest invoked position)) ∨
    (a = .success ∧ t = onSuccess s) ∨ (a = .failure ∧ t = onFailure s) := by
  cases a with
  | add outputName dataRecord => exact .inl ⟨_, _, rfl, (Option.some.inj hstep).symm⟩
  | process =>
    cases hqueue : s.dataQueue with
    | nil =>
      simp only [step, hqueue] at hstep
      exact absurd hstep (by simp)
    | cons record rest =>
      simp only [step, hqueue] at hstep
      exact .inr (.inl ⟨record, rest, rfl, rfl, (Option.some.inj hstep).symm⟩)
  | throw invoked position =>
    cases hqueue : s.dataQueue with
    | nil =>
      simp only [step, hqueue] at hstep
      exact absurd hstep (by simp)
    | cons record rest =>
      simp only [step, hqueue] at hstep
      exact .inr (.inr (.inl ⟨invoked, position, record, rest, rfl, rfl,
        (Option.some.inj hstep).symm⟩))
  | success => exact .inr (.inr (.inr (.inl ⟨rfl, (Option.some.inj hstep).symm⟩)))
  | failure => exact .inr (.inr (.inr (.inr ⟨rfl, (Option.some.inj hstep).symm⟩)))

/-- **Any step keeps the records together.** -/
theorem inv_step (h : Inv methods s) (hstep : step methods s a = some t) : Inv methods t := by
  obtain ⟨outputName, dataRecord, rfl, rfl⟩ | ⟨record, rest, rfl, hqueue, rfl⟩ |
    ⟨invoked, position, record, rest, rfl, hqueue, rfl⟩ | ⟨rfl, rfl⟩ | ⟨rfl, rfl⟩ :=
      step_cases hstep
  · exact inv_add h outputName dataRecord
  · exact inv_getNext h hqueue (List.prefix_refl _)
  · exact inv_onFailure (inv_getNextThrow h hqueue invoked position)
  · exact inv_onSuccess h
  · exact inv_onFailure h

theorem inv_of_run (h : Lts.Run (step methods) (fun _ _ ↦ True) .init as s) : Inv methods s :=
  h.invariant (fun hi _ hstep ↦ inv_step hi hstep) inv_init

/-! ## What is dropped -/

/-- The records that were dropped had their failures. -/
def Budget (s : State Values) : Prop := ∀ d ∈ s.dropped, d.2 = maxRetry

theorem exact_iff_budget (h : Inv methods s) : Exact methods s ↔ Budget s := by
  refine ⟨fun he ↦ he.budget, fun hb ↦ ⟨h.accounted, ?_, hb, fun r _ ↦ h.due r.id, h.seen⟩⟩
  rw [h.ids]
  exact List.nodup_range

theorem budget_onFailure_iff (h : Inv methods s) : Budget (onFailure s) ↔
    Budget s ∧ (maxRetry ≤ s.retryCounter + 1 → ∀ r ∈ s.pendingRecords,
      maxRetry ≤ s.failures r.id + 1) := by
  have hfailed : ∀ r ∈ s.pendingRecords, failed s r.id = s.failures r.id + 1 := fun r hr ↦
    if_pos (List.mem_map_of_mem hr)
  unfold onFailure
  split
  · rename_i hlast
    constructor
    · intro hb
      refine ⟨fun d hd ↦ hb d (List.mem_append_left _ hd), fun _ r hr ↦ ?_⟩
      have hr' := hb (r, failed s r.id) (List.mem_append_right _ (List.mem_map_of_mem hr))
      rw [hfailed r hr] at hr'
      exact hr'.ge
    · rintro ⟨hb, hpending⟩ d hd
      rcases List.mem_append.mp hd with hold | hnew
      · exact hb d hold
      · obtain ⟨r, hr, rfl⟩ := List.mem_map.mp hnew
        have := hpending hlast r hr
        have := h.due r.id
        show failed s r.id = maxRetry
        rw [hfailed r hr]
        omega
  · rename_i hno
    exact ⟨fun hb ↦ ⟨hb, fun hlast ↦ absurd hlast hno⟩, fun hb ↦ hb.1⟩

/-- **When a step drops no record early.** -/
theorem budget_step_iff (h : Inv methods s) (hstep : step methods s a = some t) :
    Budget t ↔ Budget s ∧ BudgetOk s a := by
  have hno (hf : failing s a = []) : BudgetOk s a := fun _ r hr ↦ absurd (hf ▸ hr) List.not_mem_nil
  obtain ⟨outputName, dataRecord, rfl, rfl⟩ | ⟨record, rest, rfl, -, rfl⟩ |
    ⟨invoked, position, record, rest, rfl, hqueue, rfl⟩ | ⟨rfl, rfl⟩ | ⟨rfl, rfl⟩ :=
      step_cases hstep
  · exact (and_iff_left (hno rfl)).symm
  · exact (and_iff_left (hno rfl)).symm
  · rw [budget_onFailure_iff (inv_getNextThrow h hqueue invoked position), BudgetOk,
      failing, hqueue]
    exact Iff.rfl
  · exact (and_iff_left (hno rfl)).symm
  · exact budget_onFailure_iff h

/-- **Each record is processed once, or dropped after `MAX_RETRY` consecutive failures**, in a run
if and only if each tick whose failure is the last that the counter allows has only records that
were in the failed ticks before it. -/
theorem exact_iff_budgetOk (h : Lts.Run (step methods) (fun _ _ ↦ True) .init as s) :
    Exact methods s ↔ Lts.Run (step methods) BudgetOk .init as s := by
  rw [exact_iff_budget (inv_of_run h)]
  constructor
  · induction h with
    | refl => exact fun _ ↦ .refl
    | snoc hrun _ hstep ih =>
      intro hb
      obtain ⟨hbefore, hok⟩ := (budget_step_iff (inv_of_run hrun) hstep).mp hb
      exact (ih hbefore).snoc hok hstep
  · intro hrun
    have hboth : Inv methods s ∧ Budget s :=
      hrun.invariant (I := fun s ↦ Inv methods s ∧ Budget s)
        (fun hi hok hstep ↦ ⟨inv_step hi.1 hstep, (budget_step_iff hi.1 hstep).mpr ⟨hi.2, hok⟩⟩)
        ⟨inv_init, fun _ hd ↦ absurd hd List.not_mem_nil⟩
    exact hboth.2

end

/-! ## Two runs -/

/-- One method, that sees the length of a record. -/
def lengths : MethodListMap Nat := fun _ ↦
    [fun dataRecord position ↦ (some dataRecord.length, position + 1)]

/-- A record fails in five ticks. -/
def fiveFailures : List Action := .add "q" [1] :: List.replicate 5 (.throw 1 0)

theorem exact_fiveFailures : ∃ s, Lts.Run (step lengths) (fun _ _ ↦ True) .init fiveFailures s ∧
    s.dropped = [(⟨0, "q", [1]⟩, 5)] ∧ Exact lengths s := by
  obtain ⟨s, hrun, hdropped⟩ := Lts.exists_run_of_exec (step lengths) BudgetOk .init fiveFailures
    (fun s ↦ s.dropped = [(⟨0, "q", [1]⟩, 5)]) (by decide +kernel)
  have hplain : Lts.Run (step lengths) (fun _ _ ↦ True) .init fiveFailures s :=
    hrun.mono fun _ _ _ ↦ trivial
  exact ⟨s, hplain, hdropped, (exact_iff_budgetOk hplain).mpr hrun⟩

/-- Another record comes after four failures of the first, and a third one when they have been
dropped. -/
def lateRecord : List Action :=
  .add "q" [1] :: List.replicate 4 (.throw 1 0) ++
    [.add "q" [2], .process, .throw 0 0, .add "q" [3], .throw 0 0]

/-- **They are dropped on their first failure.** -/
theorem exists_dropped_early : ∃ s, Lts.Run (step lengths) (fun _ _ ↦ True) .init lateRecord s ∧
    s.dropped = [(⟨0, "q", [1]⟩, 5), (⟨1, "q", [2]⟩, 1), (⟨2, "q", [3]⟩, 1)] ∧
      ¬ Exact lengths s := by
  obtain ⟨s, hrun, hdropped⟩ := Lts.exists_run_of_exec (step lengths) (fun _ _ ↦ True)
    .init lateRecord (fun s ↦ s.dropped =
      [(⟨0, "q", [1]⟩, 5), (⟨1, "q", [2]⟩, 1), (⟨2, "q", [3]⟩, 1)]) (by decide +kernel)
  refine ⟨s, hrun, hdropped, fun h ↦ ?_⟩
  have hbudget := h.budget (⟨1, "q", [2]⟩, 1) (by rw [hdropped]; decide)
  exact absurd hbudget (by decide)

end Tigon.GDATRecordQueue
