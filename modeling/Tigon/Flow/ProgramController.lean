import Tigon.Lib.Run

/-!
# The controller of a program

`AbstractProgramController` takes a program from state to state.  A call of `suspend`, `resume` or
`stop` changes the state by a compare-and-set, in the thread of the caller, and leaves the rest to a
thread of its own: to tell the listeners, to call `doSuspend`, `doResume` or `doStop`, to *set* the
state, and to tell the listeners again.  `started` sets the state a second time in such a thread,
and `error` sets it at any time.  None of these sets looks at what the state is by then.

A `ProgramController` is the state with the threads that have something left to do, each of them a
`Task`.  One step of the system is one atomic step of a caller or of a task, so that a run is an
interleaving of the calls.  Besides, `taken` records the states in the order in which they were
taken, and `seen` what a listener was told.

`keeps_of_stepOk` says that the declared transitions are kept, that a terminal state is final and
that listeners see the states in order, as long as every set finds the state that it expects and no
state is taken before the listeners know of the one before it.  `exists_not_keeps` has the runs that
leave `STOPPED` and `ERROR`.
-/

set_option autoImplicit false

namespace Tigon.Flow

inductive ProgramState
  | starting | alive | suspending | suspended | resuming | stopping | stopped | error
deriving DecidableEq, Repr

namespace ProgramState

/-- No transition leaves the state. -/
def Terminal (s : ProgramState) : Prop := s = .stopped ∨ s = .error

instance (s : ProgramState) : Decidable (Terminal s) := inferInstanceAs (Decidable (_ ∨ _))

/-- The declared transitions. -/
inductive Declared : ProgramState → ProgramState → Prop
  | started : Declared .starting .alive
  | suspend : Declared .alive .suspending
  | suspended : Declared .suspending .suspended
  | resume : Declared .suspended .resuming
  | resumed : Declared .resuming .alive
  | stop {s : ProgramState} (h : s ∈ [.starting, .alive, .suspended]) : Declared s .stopping
  | stopped : Declared .stopping .stopped
  | error {s : ProgramState} (h : ¬ s.Terminal) : Declared s .error

theorem Declared.not_terminal {s t : ProgramState} (h : Declared s t) : ¬ s.Terminal := by
  cases h with
  | stop h =>
    simp only [List.mem_cons, List.not_mem_nil, or_false] at h
    rcases h with rfl | rfl | rfl <;> decide
  | error h => exact h
  | _ => decide

theorem Declared.ne {s t : ProgramState} (h : Declared s t) : s ≠ t := by
  cases h with
  | stop h =>
    rintro rfl
    exact absurd h (by decide)
  | error h =>
    rintro rfl
    exact h (.inr rfl)
  | _ => decide

end ProgramState

/-- The calls that take the program to a new state in two steps. -/
inductive Operation
  | suspend | resume | stop
deriving DecidableEq, Repr

namespace Operation

/-- The state that the compare-and-set takes. -/
def begun : Operation → ProgramState
  | .suspend => .suspending
  | .resume => .resuming
  | .stop => .stopping

/-- The state that is set at the end. -/
def done : Operation → ProgramState
  | .suspend => .suspended
  | .resume => .alive
  | .stop => .stopped

theorem declared (op : Operation) : op.begun.Declared op.done := by
  cases op with
  | suspend => exact .suspended
  | resume => exact .resumed
  | stop => exact .stopped

end Operation

/-- The states from which `stop` tries to take the program to `STOPPING`, one after the other. -/
inductive StopSource
  | starting | alive | suspended
deriving DecidableEq, Repr

namespace StopSource

def state : StopSource → ProgramState
  | .starting => .starting
  | .alive => .alive
  | .suspended => .suspended

def next : StopSource → Option StopSource
  | .starting => some .alive
  | .alive => some .suspended
  | .suspended => none

theorem declared (source : StopSource) : source.state.Declared .stopping := by
  cases source <;> exact .stop (by decide)

end StopSource

/-- What a thread does next. -/
inductive Task
  /-- The compare-and-sets of `stop`, from this source on. -/
  | compareAndSet (source : StopSource)
  | begun (op : Operation)
  /-- `doSuspend`, `doResume` or `doStop`. -/
  | act (op : Operation)
  | set (op : Operation)
  | done (op : Operation)
  | startedSet
  | startedDone
  | errorSet
  | errorDone
deriving DecidableEq, Repr

/-- The state that the thread has taken and not yet told the listeners about. -/
def Task.announces : Task → Option ProgramState
  | .begun op => some op.begun
  | .done op => some op.done
  | .startedSet | .startedDone => some .alive
  | .errorDone => some .error
  | .compareAndSet _ | .act _ | .set _ | .errorSet => none

structure ProgramController where
  state : ProgramState
  tasks : List Task
  taken : List ProgramState
  seen : List ProgramState
deriving DecidableEq, Repr

/-- A call, or the next step of a task.  A step can fail if it runs the code of the program or of
the executor of a listener. -/
inductive Action
  | suspend
  | resume
  | stop
  | started
  | error
  | run (i : Nat) (fails : Bool)
deriving DecidableEq, Repr

namespace ProgramController

def init : ProgramController where
  state := .starting
  tasks := []
  taken := []
  seen := []

/-- The state is taken, unless it is the state already. -/
def set (c : ProgramController) (s : ProgramState) : ProgramController :=
  { c with state := s, taken := if c.state = s then c.taken else c.taken ++ [s] }

def spawn (c : ProgramController) (task : Task) : ProgramController :=
  { c with tasks := c.tasks ++ [task] }

/-- The listeners are told. -/
def tell (c : ProgramController) (s : ProgramState) : ProgramController :=
  { c with seen := c.seen ++ [s] }

/-- A call that starts with one compare-and-set. -/
def call (c : ProgramController) (source target : ProgramState) (task : Task) : ProgramController :=
  if c.state = source then (c.set target).spawn task else c

/-- The task `i` is replaced by what it does next, if anything. -/
def replace (c : ProgramController) (i : Nat) : Option Task → ProgramController
  | some task => { c with tasks := c.tasks.set i task }
  | none => { c with tasks := c.tasks.eraseIdx i }

/-- The next step of the task `i`. -/
def runTask (c : ProgramController) (i : Nat) (fails : Bool) : Task → Option ProgramController
  | .compareAndSet source =>
    if fails then none
    else if c.state = source.state then
      some ((c.set .stopping).replace i (some (.begun .stop)))
    else some (c.replace i (source.next.map .compareAndSet))
  | .begun op =>
    if fails then some (c.replace i (some .errorSet))
    else some ((c.tell op.begun).replace i (some (.act op)))
  | .act op => some (c.replace i (some (if fails then .errorSet else .set op)))
  | .set op => if fails then none else some ((c.set op.done).replace i (some (.done op)))
  | .done op =>
    if fails then some (c.replace i (some .errorSet))
    else some ((c.tell op.done).replace i none)
  | .startedSet => if fails then none else some ((c.set .alive).replace i (some .startedDone))
  | .startedDone => some ((if fails then c else c.tell .alive).replace i none)
  | .errorSet => if fails then none else some ((c.set .error).replace i (some .errorDone))
  | .errorDone => some ((if fails then c else c.tell .error).replace i none)

def step (c : ProgramController) : Action → Option ProgramController
  | .suspend => some (c.call .alive .suspending (.begun .suspend))
  | .resume => some (c.call .suspended .resuming (.begun .resume))
  | .stop => some (c.spawn (.compareAndSet .starting))
  | .started => some (c.call .starting .alive .startedSet)
  | .error => some (c.spawn .errorSet)
  | .run i fails => c.tasks[i]?.bind (c.runTask i fails)

/-! ## What must not happen -/

/-- The listeners were told of every state that was taken. -/
def Settled (c : ProgramController) : Prop := ∀ task ∈ c.tasks, task.announces = none

instance (c : ProgramController) : Decidable c.Settled :=
  inferInstanceAs (Decidable (∀ task ∈ _, _))

/-- A task sets the state only if the state is still the one that its call took, and an error only
if the state is not terminal; and a state is taken only when the listeners were told of all the
states before it. -/
def TaskOk (c : ProgramController) : Task → Prop
  | .compareAndSet source => c.state = source.state → c.Settled
  | .set op => c.state = op.begun ∧ c.Settled
  | .startedSet => c.state = .alive
  | .errorSet => ¬ c.state.Terminal ∧ c.Settled
  | .begun _ | .act _ | .done _ | .startedDone | .errorDone => True

instance (c : ProgramController) : (task : Task) → Decidable (c.TaskOk task)
  | .compareAndSet _ => inferInstanceAs (Decidable (_ → _))
  | .set _ => inferInstanceAs (Decidable (_ ∧ _))
  | .startedSet => inferInstanceAs (Decidable (_ = _))
  | .errorSet => inferInstanceAs (Decidable (_ ∧ _))
  | .begun _ | .act _ | .done _ | .startedDone | .errorDone => inferInstanceAs (Decidable True)

/-- The same of the steps of the system. -/
def StepOk (c : ProgramController) : Action → Prop
  | .suspend => c.state = .alive → c.Settled
  | .resume => c.state = .suspended → c.Settled
  | .started => c.state = .starting → c.Settled
  | .run i _ => ∀ task ∈ c.tasks[i]?, c.TaskOk task
  | .stop | .error => True

instance (c : ProgramController) : (a : Action) → Decidable (c.StepOk a)
  | .suspend => inferInstanceAs (Decidable (_ → _))
  | .resume => inferInstanceAs (Decidable (_ → _))
  | .started => inferInstanceAs (Decidable (_ → _))
  | .run _ _ => inferInstanceAs (Decidable (∀ task ∈ _, _))
  | .stop | .error => inferInstanceAs (Decidable True)

/-! ## What a step can do -/

variable {c d : ProgramController} {a : Action} {task : Task} {i : Nat} {s : ProgramState}

/-- The states that the listeners have yet to be told about. -/
def pending (c : ProgramController) : List ProgramState := c.tasks.filterMap Task.announces

theorem Settled.pending_eq (h : c.Settled) : c.pending = [] :=
  List.filterMap_eq_nil_iff.mpr h

theorem set_taken (h : c.state ≠ s) : (c.set s).taken = c.taken ++ [s] := if_neg h

theorem set_of_state_eq (h : c.state = s) : c.set s = c := by
  subst h
  simp [set]

theorem spawn_pending : (c.spawn task).pending = c.pending ++ task.announces.toList := by
  rw [pending, spawn, pending, List.filterMap_append]
  cases h : task.announces <;> simp [h]

@[simp] theorem replace_state (next : Option Task) : (c.replace i next).state = c.state := by
  cases next <;> rfl

@[simp] theorem replace_taken (next : Option Task) : (c.replace i next).taken = c.taken := by
  cases next <;> rfl

@[simp] theorem replace_seen (next : Option Task) : (c.replace i next).seen = c.seen := by
  cases next <;> rfl

/-- What a task has to announce is replaced along with it. -/
theorem exists_pending (h : c.tasks[i]? = some task) :
    ∃ l r, c.pending = l ++ task.announces.toList ++ r ∧
      ∀ (d : ProgramController) (next : Option Task), d.tasks = c.tasks →
        (d.replace i next).pending = l ++ (next.bind Task.announces).toList ++ r := by
  obtain ⟨hlt, hget⟩ := List.getElem?_eq_some_iff.mp h
  have htasks : c.tasks = c.tasks.take i ++ task :: c.tasks.drop (i + 1) := by
    rw [← hget, ← List.drop_eq_getElem_cons hlt, List.take_append_drop]
  have hcons : ∀ (l r : List Task) (t : Task), (l ++ t :: r).filterMap Task.announces =
      l.filterMap Task.announces ++ t.announces.toList ++ r.filterMap Task.announces := by
    intro l r t
    rw [List.filterMap_append, List.append_assoc]
    cases ht : t.announces <;> simp [ht]
  refine ⟨(c.tasks.take i).filterMap Task.announces,
    (c.tasks.drop (i + 1)).filterMap Task.announces, ?_, fun d next hd ↦ ?_⟩
  · rw [pending, ← hcons, ← htasks]
  · cases next with
    | some next =>
      rw [replace, pending, hd, List.set_eq_take_append_cons_drop, if_pos hlt, hcons]
      rfl
    | none =>
      rw [replace, pending, hd, List.eraseIdx_eq_take_drop_succ, List.filterMap_append]
      simp

/-- What a step can do to the state and to the announcements. -/
inductive Effect (c d : ProgramController) : Prop
  /-- Nothing is taken or told. -/
  | quiet (state : d.state = c.state) (taken : d.taken = c.taken) (seen : d.seen = c.seen)
      (pending : d.pending = c.pending)
  /-- A state is taken, and is to be announced. -/
  | take (settled : c.Settled) (declared : c.state.Declared d.state)
      (taken : d.taken = c.taken ++ [d.state]) (seen : d.seen = c.seen)
      (pending : d.pending = [d.state])
  /-- A state is announced, or the announcement fails. -/
  | tell (l r : List ProgramState) (s : ProgramState) (state : d.state = c.state)
      (taken : d.taken = c.taken) (seen : d.seen = c.seen ++ [s] ∨ d.seen = c.seen)
      (before : c.pending = l ++ [s] ++ r) (after : d.pending = l ++ r)

theorem effect_call {target : ProgramState} (hdeclared : s.Declared target)
    (htask : task.announces = some target) (hok : c.state = s → c.Settled) :
    Effect c (c.call s target task) := by
  rw [call]
  split
  case isTrue hs =>
    subst hs
    refine .take (hok rfl) hdeclared (set_taken hdeclared.ne) rfl ?_
    rw [spawn_pending, htask]
    have hpending : (c.set target).pending = c.pending := rfl
    rw [hpending, (hok rfl).pending_eq]
    rfl
  case isFalse => exact .quiet rfl rfl rfl rfl

theorem Effect.of_quiet {next : Option Task} (htask : c.tasks[i]? = some task)
    (hnext : next.bind Task.announces = task.announces) : Effect c (c.replace i next) := by
  obtain ⟨l, r, hpending, hreplace⟩ := exists_pending htask
  refine .quiet (replace_state next) (replace_taken next) (replace_seen next) ?_
  rw [hreplace c next rfl, hnext, hpending]

theorem Effect.of_take {next : Task} (htask : c.tasks[i]? = some task) (hsettled : c.Settled)
    (hdeclared : c.state.Declared s) (hnext : next.announces = some s) :
    Effect c ((c.set s).replace i (some next)) := by
  obtain ⟨l, r, hpending, hreplace⟩ := exists_pending htask
  rw [hsettled.pending_eq, List.nil_eq, List.append_eq_nil_iff, List.append_eq_nil_iff] at hpending
  refine .take hsettled hdeclared (set_taken hdeclared.ne) rfl ?_
  rw [hreplace (c.set s) (some next) rfl, hpending.1.1, hpending.2, Option.bind_some, hnext]
  rfl

/-- The announcement can also fail, so that `d` is `c` or `c.tell s`. -/
theorem Effect.of_tell {next : Option Task} (htask : c.tasks[i]? = some task)
    (hannounces : task.announces = some s) (hnext : next.bind Task.announces = none)
    (hd : d = c.tell s ∨ d = c) : Effect c (d.replace i next) := by
  obtain ⟨l, r, hpending, hreplace⟩ := exists_pending htask
  rw [hannounces] at hpending
  have htasks : d.tasks = c.tasks := by rcases hd with rfl | rfl <;> rfl
  refine .tell l r s ?_ ?_ ?_ hpending ?_
  · rcases hd with rfl | rfl <;> exact replace_state next
  · rcases hd with rfl | rfl <;> exact replace_taken next
  · rcases hd with rfl | rfl
    · exact .inl (replace_seen next)
    · exact .inr (replace_seen next)
  · rw [hreplace d next htasks, hnext]
    simp

theorem effect_runTask {fails : Bool} (htask : c.tasks[i]? = some task)
    (hok : c.TaskOk task) (h : c.runTask i fails task = some d) : Effect c d := by
  cases task with
  | compareAndSet source =>
    cases fails with
    | true => cases h
    | false =>
      rw [runTask, if_neg Bool.false_ne_true] at h
      split at h
      case isTrue hstate =>
        obtain rfl := Option.some_inj.mp h
        exact .of_take htask (hok hstate) (hstate ▸ source.declared) rfl
      case isFalse =>
        obtain rfl := Option.some_inj.mp h
        cases source <;> exact .of_quiet htask rfl
  | begun op =>
    cases fails with
    | true =>
      obtain rfl := Option.some_inj.mp h
      exact .of_tell htask rfl rfl (.inr rfl)
    | false =>
      obtain rfl := Option.some_inj.mp h
      exact .of_tell htask rfl rfl (.inl rfl)
  | act op =>
    obtain rfl := Option.some_inj.mp h
    cases fails <;> exact .of_quiet htask rfl
  | set op =>
    cases fails with
    | true => cases h
    | false =>
      obtain rfl := Option.some_inj.mp h
      obtain ⟨hstate, hsettled⟩ := hok
      exact .of_take htask hsettled (hstate ▸ op.declared) rfl
  | done op =>
    cases fails with
    | true =>
      obtain rfl := Option.some_inj.mp h
      exact .of_tell htask rfl rfl (.inr rfl)
    | false =>
      obtain rfl := Option.some_inj.mp h
      exact .of_tell htask rfl rfl (.inl rfl)
  | startedSet =>
    cases fails with
    | true => cases h
    | false =>
      obtain rfl := Option.some_inj.mp h
      rw [set_of_state_eq hok]
      exact .of_quiet htask rfl
  | startedDone =>
    obtain rfl := Option.some_inj.mp h
    cases fails with
    | true => exact .of_tell htask rfl rfl (.inr rfl)
    | false => exact .of_tell htask rfl rfl (.inl rfl)
  | errorSet =>
    cases fails with
    | true => cases h
    | false =>
      obtain rfl := Option.some_inj.mp h
      exact .of_take htask hok.2 (.error hok.1) rfl
  | errorDone =>
    obtain rfl := Option.some_inj.mp h
    cases fails with
    | true => exact .of_tell htask rfl rfl (.inr rfl)
    | false => exact .of_tell htask rfl rfl (.inl rfl)

theorem effect_step (hok : c.StepOk a) (h : c.step a = some d) :
    Effect c d := by
  cases a with
  | suspend =>
    obtain rfl := Option.some_inj.mp h
    exact effect_call .suspend rfl hok
  | resume =>
    obtain rfl := Option.some_inj.mp h
    exact effect_call .resume rfl hok
  | stop =>
    obtain rfl := Option.some_inj.mp h
    exact .quiet rfl rfl rfl (spawn_pending.trans (List.append_nil _))
  | started =>
    obtain rfl := Option.some_inj.mp h
    exact effect_call .started rfl hok
  | error =>
    obtain rfl := Option.some_inj.mp h
    exact .quiet rfl rfl rfl (spawn_pending.trans (List.append_nil _))
  | run i fails =>
    obtain ⟨task, htask, hrun⟩ := Option.bind_eq_some_iff.mp h
    exact effect_runTask htask (hok task htask) hrun

/-! ## Runs -/

/-- The invariant of the runs whose steps are as they should be.  Of the states that were taken, at
most the last one is not announced. -/
structure Inv (c : ProgramController) : Prop where
  chain : (.starting :: c.taken).IsChain ProgramState.Declared
  last : (ProgramState.starting :: c.taken).getLast? = some c.state
  order : (c.pending = [] ∧ c.seen.Sublist c.taken) ∨
    ∃ l, c.pending = [c.state] ∧ c.taken = l ++ [c.state] ∧ c.seen.Sublist l

theorem inv_init : Inv init where
  chain := .singleton _
  last := rfl
  order := .inl ⟨rfl, .slnil⟩

theorem Inv.seen_sublist (hi : c.Inv) : c.seen.Sublist c.taken := by
  rcases hi.order with ⟨-, h⟩ | ⟨l, -, htaken, h⟩
  · exact h
  · rw [htaken]
    exact h.trans (List.sublist_append_left _ _)

theorem inv_step (hi : c.Inv) (hok : c.StepOk a) (h : c.step a = some d) : d.Inv := by
  cases effect_step hok h with
  | quiet hstate htaken hseen hpending =>
    refine ⟨htaken ▸ hi.chain, by rw [htaken, hstate]; exact hi.last, ?_⟩
    rw [hstate, htaken, hseen, hpending]
    exact hi.order
  | take hsettled hdeclared htaken hseen hpending =>
    refine ⟨?_, ?_, .inr ⟨c.taken, hpending, htaken, hseen ▸ hi.seen_sublist⟩⟩
    · rw [htaken, ← List.cons_append]
      refine List.isChain_append.mpr ⟨hi.chain, .singleton _, fun x hx y hy ↦ ?_⟩
      obtain rfl := Option.some_inj.mp (hi.last.symm.trans hx)
      obtain rfl := Option.some_inj.mp hy
      exact hdeclared
    · rw [htaken, ← List.cons_append, List.getLast?_append]
      rfl
  | tell l r s hstate htaken hseen hbefore hafter =>
    refine ⟨htaken ▸ hi.chain, by rw [htaken, hstate]; exact hi.last, .inl ?_⟩
    rcases hi.order with ⟨hnil, -⟩ | ⟨l', hpending, htaken', hsublist⟩
    · rw [hnil] at hbefore
      simp at hbefore
    · -- The announcement is the only one left, of the last state taken.
      rw [hpending] at hbefore
      have hs : l = [] ∧ r = [] ∧ s = c.state := by
        cases l with
        | nil => simpa [eq_comm, and_comm] using hbefore
        | cons x l => simp at hbefore
      obtain ⟨rfl, rfl, rfl⟩ := hs
      refine ⟨hafter, ?_⟩
      rw [htaken, htaken']
      rcases hseen with hseen | hseen
      · rw [hseen]
        exact hsublist.append (List.Sublist.refl _)
      · rw [hseen]
        exact hsublist.trans (List.sublist_append_left _ _)

/-- A step that is as it should be does not leave a terminal state. -/
theorem state_step (hterminal : c.state.Terminal) (hok : c.StepOk a) (h : c.step a = some d) :
    d.state = c.state := by
  cases effect_step hok h with
  | quiet hstate => exact hstate
  | take _ hdeclared => exact absurd hterminal hdeclared.not_terminal
  | tell _ _ _ hstate => exact hstate

/-- The states that were taken follow the declared transitions, listeners see them in the order in
which they were taken, and a terminal state is never left. -/
def Keeps (ok : ProgramController → Action → Prop) (c : ProgramController) : Prop :=
  (.starting :: c.taken).IsChain ProgramState.Declared ∧
    (ProgramState.starting :: c.taken).getLast? = some c.state ∧ c.seen.Sublist c.taken ∧
    ∀ as d, Lts.Run step ok c as d → c.state.Terminal → d.state = c.state

/-- **The controller keeps to its transitions** in every run in which each set of the state finds
the state it expects, and no state is taken before the listeners know of the one before it. -/
theorem keeps_of_stepOk {as : List Action} (h : Lts.Run step StepOk init as c) :
    Keeps StepOk c := by
  have hi : c.Inv := h.invariant inv_step inv_init
  refine ⟨hi.chain, hi.last, hi.seen_sublist, fun bs d hrun hterminal ↦ ?_⟩
  refine (hrun.invariant (I := fun d ↦ d.state = c.state) (fun {s t a} hs hok hstep ↦ ?_) rfl)
  exact (state_step (hs ▸ hterminal) hok hstep).trans hs

/-- A program is started, suspended, resumed and stopped. -/
def lifeCycle : List Action :=
  [.started, .run 0 false, .run 0 false,
    .suspend, .run 0 false, .run 0 false, .run 0 false, .run 0 false,
    .resume, .run 0 false, .run 0 false, .run 0 false, .run 0 false,
    .stop, .run 0 false, .run 0 false, .run 0 false, .run 0 false, .run 0 false, .run 0 false]

theorem keeps_lifeCycle :
    ∃ c, Lts.Run step StepOk init lifeCycle c ∧ Keeps StepOk c ∧ c.state = .stopped ∧
      c.seen = [.alive, .suspending, .suspended, .resuming, .alive, .stopping, .stopped] := by
  obtain ⟨c, hrun, hc⟩ := Lts.exists_run_of_exec step StepOk init lifeCycle
    (fun c ↦ c.state = .stopped ∧
      c.seen = [.alive, .suspending, .suspended, .resuming, .alive, .stopping, .stopped])
    (by decide)
  exact ⟨c, hrun, keeps_of_stepOk hrun, hc⟩

/-- A run to a terminal state that another run leaves. -/
theorem exists_leaves (as bs : List Action)
    (h : ((Lts.exec step (fun _ _ ↦ True) init as).any fun c ↦ decide (c.state.Terminal ∧
      ((Lts.exec step (fun _ _ ↦ True) c bs).any fun d ↦ decide (d.state ≠ c.state)) = true)) =
        true) :
    ∃ c, Lts.Run step (fun _ _ ↦ True) init as c ∧ ¬ Keeps (fun _ _ ↦ True) c := by
  obtain ⟨c, hrun, hterminal, hleaves⟩ := Lts.exists_run_of_exec _ _ _ _
    (fun c : ProgramController ↦ c.state.Terminal ∧
      ((Lts.exec step (fun _ _ ↦ True) c bs).any fun d ↦ decide (d.state ≠ c.state)) = true) h
  refine ⟨c, hrun, fun hkeeps ↦ ?_⟩
  obtain ⟨d, hrun', hne⟩ := Lts.exists_run_of_exec _ _ _ _
    (fun d : ProgramController ↦ d.state ≠ c.state) hleaves
  exact hne (hkeeps.2.2.2 bs d hrun' hterminal)

/-- **A late set brings a stopped program back to life**, and overwrites an error; and a listener is
told of a state after the one that followed it. -/
theorem exists_not_keeps :
    (∃ c, Lts.Run step (fun _ _ ↦ True) init
        [.started, .stop, .run 1 false, .run 1 false, .run 1 false, .run 1 false, .run 1 false] c ∧
      ¬ Keeps (fun _ _ ↦ True) c) ∧
    (∃ c, Lts.Run step (fun _ _ ↦ True) init
        [.started, .run 0 false, .run 0 false, .suspend, .error, .run 1 false] c ∧
      ¬ Keeps (fun _ _ ↦ True) c) ∧
    ∃ c, Lts.Run step (fun _ _ ↦ True) init
        [.started, .run 0 false, .run 0 false, .suspend, .run 0 false, .run 0 false, .run 0 false,
          .resume, .run 1 false, .run 0 false] c ∧ ¬ Keeps (fun _ _ ↦ True) c := by
  refine ⟨exists_leaves _ [.run 0 false] (by decide),
    exists_leaves _ [.run 0 false, .run 0 false, .run 0 false] (by decide), ?_⟩
  obtain ⟨c, hrun, hnot⟩ := Lts.exists_run_of_exec step (fun _ _ ↦ True) init
    [.started, .run 0 false, .run 0 false, .suspend, .run 0 false, .run 0 false, .run 0 false,
      .resume, .run 1 false, .run 0 false]
    (fun c : ProgramController ↦ ¬ c.seen.Sublist c.taken) (by decide)
  exact ⟨c, hrun, fun hkeeps ↦ hnot hkeeps.2.2.1⟩

end ProgramController

end Tigon.Flow
