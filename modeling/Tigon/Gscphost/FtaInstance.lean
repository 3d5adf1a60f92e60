import Tigon.Gscphost.StreamRegistry

/-!
# The life of an FTA instance

`fta_start_service` answers the requests to allocate and to free an instance of an FTA.  An instance
is in the `created` list while it is allocated, with a count of its allocations, and in the
`process` list while it runs, with a second count.  The streams of the instances are posted to the
ring buffers of those who allocated them, as `Tigon.Gscphost.StreamRegistry` has it.

To allocate takes six steps, each of which may fail, and the handler undoes by hand what was done
before. To free is a chain of conditions: `ftaexec_remove` returns 0 when it has removed an
instance, the chain takes this for a failure, and the request is answered with -1.

A `State` has the two lists, the counts, the streams, and the replies that were sent.  What the rest
of the process and the machine do in the course of a request is its `Env`.  `lifecycle` says what
holds in the runs whose steps meet `StepOk`, and that a step meets it just when it does what is
asked of it. `exists_not_meets` allocates an instance and tries to free it.

Replies are taken to arrive, and counts not to overflow.
-/

set_option autoImplicit false
set_option linter.unusedSectionVars false

namespace Tigon.Gscphost.FtaInstance

open Function

/-- The type of `curprocess`. -/
inductive ProcessType
  | default | lfta | hfta | clearinghouse
deriving DecidableEq, Repr

/-- It has instances of FTAs. -/
def ProcessType.Runs (type : ProcessType) : Prop := type = .lfta ∨ type = .hfta

instance (type : ProcessType) : Decidable type.Runs := inferInstanceAs (Decidable (_ ∨ _))

/-- `FTA_ALLOC_INSTANCE`, `FTA_ALLOC_PRINT_INSTANCE` and `FTA_FREE_INSTANCE`.  Both have the
instance in the stream of an `FTAID`: the one to be used again, if there is such, and the one to be
freed. -/
inductive Request (F : Type)
  | alloc (print : Bool) (reuse : F)
  | free (f : F)
deriving DecidableEq

/-- A reply, together with the request that it answers. -/
structure Reply (P F : Type) where
  dest : P
  request : Request F
  fta : Option F
  result : Int

/-- What comes of the attempt to make a new instance. -/
inductive NewInstance (F : Type)
  /-- There is no alloc function. -/
  | noFunction
  /-- The alloc function returns null. -/
  | null
  /-- There is no memory for the entry of the list. -/
  | noMemory
  /-- The instance, and the second count in its memory, which is not set. -/
  | made (f : F) (runrefcnt : Nat)

/-- What a request finds. -/
structure Env (R F : Type) where
  alloc : NewInstance F
  /-- The ring buffer of the process that sends the request. -/
  shm : Option R
  /-- A ring buffer that was not set. -/
  stale : R
  addMemory : Bool
  junk : Nat → Option R × Mode
  insertMemory : Bool
  /-- `fta_register_instance` returns 0. -/
  registered : Bool
  /-- `add_printfunction_to_stream` returns 0. -/
  printed : Bool

structure State (P R F : Type) where
  created : List F
  process : List F
  refcnt : F → Nat
  runrefcnt : F → Nat
  /-- The table is lost when there is no memory to double it. -/
  streams : Option (StreamRegistry.State R)
  /-- What `free_fta` was called for. -/
  released : List F
  replies : List (Reply P F)
  crashed : Bool

structure Action (P R F : Type) where
  sender : P
  request : Request F
  env : Env R F

variable {P R F : Type} [DecidableEq P] [DecidableEq R] [DecidableEq F]

/-- The new instance, if there is one. -/
def NewInstance.made? : NewInstance F → Option F
  | .made f _ => some f
  | _ => none

def Request.IsAlloc : Request F → Bool
  | .alloc _ _ => true
  | .free _ => false

/-- A request to allocate was answered with the instance. -/
def Reply.Allocates (ρ : Reply P F) (f : F) : Prop :=
  ρ.request.IsAlloc ∧ ρ.result = 0 ∧ ρ.fta = some f

/-- A request to free the instance was answered with 0. -/
def Reply.Frees (ρ : Reply P F) (f : F) : Prop := ρ.request = .free f ∧ ρ.result = 0

instance (ρ : Reply P F) (f : F) : Decidable (ρ.Allocates f) :=
  inferInstanceAs (Decidable (_ ∧ _ ∧ _))

instance (ρ : Reply P F) (f : F) : Decidable (ρ.Frees f) := inferInstanceAs (Decidable (_ ∧ _))

namespace State

variable (type : ProcessType) (streamid : F → Nat)

/-! ## The lists and the counts -/

def init : State P R F := ⟨[], [], fun _ ↦ 0, fun _ ↦ 0, some .init, [], [], false⟩

/-- `send_fta_result` and `send_standard_reply` -/
def reply (s : State P R F) (dest : P) (request : Request F) (fta : Option F) (result : Int) :
    State P R F :=
  { s with replies := s.replies ++ [⟨dest, request, fta, result⟩] }

/-- `ftaexec_alloc_instance`.  It crashes on a null pointer. -/
def allocInstance (s : State P R F) (reuse : F) (env : Env R F) :
    Option (Option F × State P R F) :=
  if reuse ∈ s.created then
    some (some reuse, { s with refcnt := update s.refcnt reuse (s.refcnt reuse + 1) })
  else
    match env.alloc with
    | .noFunction => some (none, s)
    | .null => none
    | .noMemory => some (none, s)
    | .made f n => some (some f, { s with
        created := f :: s.created
        refcnt := update s.refcnt f 1
        runrefcnt := update s.runrefcnt f n })

/-- `ftaexec_free_instance`.  It crashes if there is no such instance. -/
def freeInstance (s : State P R F) (f : F) : Option (State P R F) :=
  if f ∈ s.created then
    let s := { s with refcnt := update s.refcnt f (s.refcnt f - 1) }
    if s.refcnt f = 0 then
      some { s with
        created := s.created.erase f
        process := s.process.erase f
        released := s.released ++ [f] }
    else some s
  else none

/-- `ftaexec_insert` -/
def insert (s : State P R F) (f : F) (memory : Bool) : Int × State P R F :=
  if f ∉ s.created then (-1, s)
  else if f ∈ s.process then
    (0, { s with runrefcnt := update s.runrefcnt f (s.runrefcnt f + 1) })
  else if memory then
    (0, { s with
      process := f :: s.process
      runrefcnt := update s.runrefcnt f (s.runrefcnt f + 1) })
  else (-1, s)

/-- `ftaexec_remove` -/
def remove (s : State P R F) (f : F) : Int × State P R F :=
  if f ∉ s.process then (-1, s)
  else
    let s := { s with runrefcnt := update s.runrefcnt f (s.runrefcnt f - 1) }
    if s.runrefcnt f = 0 then (0, { s with process := s.process.erase f }) else (0, s)

/-- The table has neither a slot of the buffer and the stream nor a free one. -/
def NeedsMemory (table : List (Slot R)) (r : R) (x : Nat) : Prop :=
  ∀ slot ∈ table, ¬ StreamRegistry.Slot.Counts slot r x ∧ slot.refcnt ≠ 0

instance (table : List (Slot R)) (r : R) (x : Nat) :
    Decidable (NeedsMemory table r x) :=
  inferInstanceAs (Decidable (∀ slot ∈ table, _))

/-- `ftacallback_add_streamid`.  Where a larger table is needed and there is no memory, there is
none. -/
def addStreamid (s : State P R F) (r : R) (x : Nat) (env : Env R F) :
    Option (Int × State P R F) :=
  match s.streams with
  | none => none
  | some streams =>
    if NeedsMemory streams.table r x ∧ ¬ env.addMemory then
      some (-1, if streams.table = [] then s else { s with streams := none })
    else some (0, { s with streams := some (streams.add r x env.junk) })

/-- `ftacallback_rm_streamid` -/
def rmStreamid (s : State P R F) (r : R) (x : Nat) : Option (State P R F) :=
  s.streams.map fun streams ↦ { s with streams := some (streams.rm r x) }

/-! ## The handlers -/

/-- The last steps: the instance is registered, and printed if that is asked for.  The handler goes
on after it has sent the failure of the print function. -/
def handleRegister (s : State P R F) (sender : P) (print : Bool) (reuse : F) (env : Env R F) (r : R)
    (f : F) : Option (State P R F) :=
  let request := .alloc print reuse
  if ¬ env.registered then do
    let s ← (s.remove f).2.rmStreamid r (streamid f)
    let s ← s.freeInstance f
    some (s.reply sender request none (-1))
  else if print then
    if type = .lfta ∨ ¬ env.printed then do
      let s ← (s.remove f).2.freeInstance f
      some ((s.reply sender request none (-1)).reply sender request (some f) 0)
    else some (s.reply sender request (some f) 0)
  else some (s.reply sender request (some f) 0)

/-- The instance is put into the process list. -/
def handleInsert (s : State P R F) (sender : P) (print : Bool) (reuse : F) (env : Env R F) (r : R)
    (f : F) : Option (State P R F) :=
  let ret := s.insert f env.insertMemory
  if ret.1 < 0 then do
    let s ← ret.2.rmStreamid r (streamid f)
    let s ← s.freeInstance f
    some (s.reply sender (.alloc print reuse) none (-1))
  else ret.2.handleRegister type streamid sender print reuse env r f

/-- The stream of the instance is to be posted to the buffer, unless it is printed.  The buffer is
not set then. -/
def handleAddStreamid (s : State P R F) (sender : P) (print : Bool) (reuse : F) (env : Env R F)
    (f : F) : Option (State P R F) :=
  if print then s.handleInsert type streamid sender print reuse env env.stale f
  else
    match env.shm with
    | none => some ((s.remove f).2.reply sender (.alloc print reuse) none (-1))
    | some r =>
      match s.addStreamid r (streamid f) env with
      | none => none
      | some (ret, s) =>
        if ret ≠ 0 then do
          let s ← s.freeInstance f
          some (s.reply sender (.alloc print reuse) none (-1))
        else s.handleInsert type streamid sender print reuse env r f

/-- The case of `FTA_ALLOC_INSTANCE` and `FTA_ALLOC_PRINT_INSTANCE`. -/
def handleAlloc (s : State P R F) (sender : P) (print : Bool) (reuse : F) (env : Env R F) :
    Option (State P R F) :=
  if type.Runs then
    match s.allocInstance reuse env with
    | none => none
    | some (none, s) => some (s.reply sender (.alloc print reuse) none (-1))
    | some (some f, s) => s.handleAddStreamid type streamid sender print reuse env f
  else some (s.reply sender (.alloc print reuse) none (-1))

/-- The case of `FTA_FREE_INSTANCE`.  The chain goes on if `ftaexec_remove` does not return 0; the
last condition, that `fta_unregister_instance` returns -1, is met outside the clearinghouse. -/
def handleFree (s : State P R F) (sender : P) (f : F) (env : Env R F) : Option (State P R F) :=
  if type.Runs then
    match env.shm with
    | none => some (s.reply sender (.free f) none (-1))
    | some r =>
      let ret := s.remove f
      if ret.1 ≠ 0 then do
        let s ← ret.2.rmStreamid r (streamid f)
        let s ← s.freeInstance f
        some (s.reply sender (.free f) none 0)
      else some (ret.2.reply sender (.free f) none (-1))
  else some (s.reply sender (.free f) none (-1))

def handle (s : State P R F) (a : Action P R F) : Option (State P R F) :=
  match a.request with
  | .alloc print reuse => s.handleAlloc type streamid a.sender print reuse a.env
  | .free f => s.handleFree type streamid a.sender f a.env

/-- A new instance is in memory that no instance is in. -/
def Fresh (s : State P R F) (env : Env R F) : Prop := ∀ f ∈ env.alloc.made?, f ∉ s.created

instance (s : State P R F) (env : Env R F) : Decidable (s.Fresh env) :=
  inferInstanceAs (Decidable (∀ f ∈ env.alloc.made?, _))

/-- One request is handled. -/
def step (s : State P R F) (a : Action P R F) : Option (State P R F) :=
  if s.crashed ∨ ¬ s.Fresh a.env then none
  else some ((s.handle type streamid a).getD { s with crashed := true })

/-! ## What is asked of a step -/

/-- The slot is in use. -/
def Live (s : State P R F) (slot : Slot R) : Prop :=
  ∃ streams, s.streams = some streams ∧ slot ∈ streams.table ∧ 0 < slot.refcnt

/-- Both lists and the counts of the instances are as before, and none of them is released. -/
structure Kept (s t : State P R F) : Prop where
  created : t.created = s.created
  process : t.process = s.process
  refcnt : ∀ f ∈ s.created, t.refcnt f = s.refcnt f
  runrefcnt : ∀ f ∈ s.created, t.runrefcnt f = s.runrefcnt f
  released : ∀ f ∈ s.created, t.released.count f = s.released.count f

/-- The slots in use are as before, too. -/
structure Unchanged (s t : State P R F) : Prop extends Kept s t where
  streams : ∀ slot, t.Live slot ↔ s.Live slot

/-- How often the instance was allocated with success. -/
def allocs (s : State P R F) (f : F) : Nat := s.replies.countP fun ρ ↦ ρ.Allocates f

/-- How often the instance was freed with success. -/
def frees (s : State P R F) (f : F) : Nat := s.replies.countP fun ρ ↦ ρ.Frees f

/-- The process has allocated the instance, and not freed it as often. -/
def Holds (s : State P R F) (p : P) (f : F) : Prop :=
  (s.replies.countP fun ρ ↦ ρ.dest = p ∧ ρ.Frees f) <
    s.replies.countP fun ρ ↦ ρ.dest = p ∧ ρ.Allocates f

instance (s : State P R F) (p : P) (f : F) : Decidable (s.Holds p f) :=
  inferInstanceAs (Decidable (_ < _))

/-- One allocation of the instance is undone: both counts go down by one, and with the last one the
instance is in neither list. -/
structure Undone (s t : State P R F) (f : F) : Prop where
  refcnt : t.refcnt f + 1 = s.refcnt f
  runrefcnt : t.runrefcnt f + 1 = s.runrefcnt f
  created : t.created = if s.refcnt f = 1 then s.created.erase f else s.created
  process : t.process = if s.refcnt f = 1 then s.process.erase f else s.process

/-- What is asked of the answer to a request. -/
def Meets (s t : State P R F) (a : Action P R F) : Prop :=
  ∃ ρ, t.replies = s.replies ++ [ρ] ∧ ρ.dest = a.sender ∧ ρ.request = a.request ∧
    (ρ.result ≠ 0 → s.Unchanged t) ∧
    ∀ f, a.request = .free f → s.Holds a.sender f → ρ.result = 0 ∧ s.Undone t f

/-! ## The conditions -/

/-- The instance that `ftaexec_alloc_instance` returns, if it does. -/
def creates (s : State P R F) (reuse : F) (env : Env R F) : Option F :=
  if reuse ∈ s.created then some reuse else env.alloc.made?

/-- The instance gets into the process list and is registered. -/
def Starts (s : State P R F) (f : F) (env : Env R F) : Prop :=
  (f ∈ s.process ∨ env.insertMemory) ∧ env.registered

instance (s : State P R F) (f : F) (env : Env R F) : Decidable (s.Starts f env) :=
  inferInstanceAs (Decidable (_ ∧ _))

/-- The alloc function does not return null.  If there is an instance, then a printed one is in an
HFTA and has no other print function or does not start, and in the latter case the buffer that was
not set is not in use; for another one there is shared memory, and if a larger table is needed,
memory for that. -/
structure AllocOk (s : State P R F) (print : Bool) (reuse : F) (env : Env R F) : Prop where
  notNull : reuse ∉ s.created → env.alloc ≠ .null
  starts : ∀ f ∈ s.creates reuse env, print → s.Starts f env → type ≠ .lfta ∧ env.printed
  stale : ∀ f ∈ s.creates reuse env, print → ¬ s.Starts f env →
    ∀ slot, s.Live slot → ¬ (slot.streamid = streamid f ∧ slot.r = some env.stale)
  shm : ∀ f ∈ s.creates reuse env, ¬ print → ∃ r, env.shm = some r ∧
    ∀ streams, s.streams = some streams → NeedsMemory streams.table r (streamid f) →
      streams.table ≠ [] → env.addMemory

/-- An instance that is freed is there. -/
def LifeOk (s : State P R F) (a : Action P R F) : Prop :=
  type.Runs →
    match a.request with
    | .alloc print reuse => s.AllocOk type streamid print reuse a.env
    | .free f => a.env.shm ≠ none → f ∈ s.created

/-- An instance that is freed is there, does not run, and is not held by the process that frees
it. -/
def StepOk (s : State P R F) (a : Action P R F) : Prop :=
  match a.request with
  | .alloc print reuse => type.Runs → s.AllocOk type streamid print reuse a.env
  | .free f => ¬ s.Holds a.sender f ∧
      (type.Runs → a.env.shm ≠ none → f ∈ s.created ∧ f ∉ s.process)

/-- What holds between the requests. -/
structure Inv (s : State P R F) : Prop where
  /-- Neither list has an instance twice, and what runs is allocated. -/
  nodup_created : s.created.Nodup
  nodup_process : s.process.Nodup
  mem_created : ∀ f ∈ s.process, f ∈ s.created
  /-- The first count is of the allocations that were not undone; there are some while the instance
  is in the list, and none when it is not. -/
  refcnt_pos : ∀ f ∈ s.created, 0 < s.refcnt f
  refcnt_add : ∀ f ∈ s.created, s.refcnt f + s.frees f = s.allocs f
  frees_eq : ∀ f, f ∉ s.created → s.frees f = s.allocs f
  /-- The second count of what is allocated is not zero just when it runs. -/
  runrefcnt_pos : ∀ f ∈ s.process, 0 < s.runrefcnt f
  runrefcnt_eq : ∀ f ∈ s.created, f ∉ s.process → s.runrefcnt f = 0
  /-- There are streams, and their table is in order. -/
  streams : ∃ streams, s.streams = some streams ∧ streams.Rep
  crashed : s.crashed = false

section

variable {type streamid} {s s' t : State P R F} {f g : F} {env : Env R F} {print : Bool} {reuse : F}
  {sender : P} {r : R}

/-! ## Taking an instance and giving it back -/

/-- The state is `s` with one more reference of the instance, which may be new. -/
structure Taken (s s' : State P R F) (f : F) : Prop where
  created : s'.created = if f ∈ s.created then s.created else f :: s.created
  process : s'.process = s.process ∨ f ∉ s.created ∧ s'.process = f :: s.process
  refcnt : s'.refcnt = update s.refcnt f (if f ∈ s.created then s.refcnt f + 1 else 1)
  runrefcnt : ∀ g ∈ s.created, s'.runrefcnt g = s.runrefcnt g
  released : s'.released = s.released
  replies : s'.replies = s.replies
  crashed : s'.crashed = s.crashed

theorem Taken.mem_created (h : Taken s s' f) : f ∈ s'.created := by
  rw [h.created]
  split_ifs with hmem
  · exact hmem
  · exact List.mem_cons_self

/-- What comes of `ftaexec_alloc_instance`. -/
theorem allocInstance_cases (hfresh : s.Fresh env) (hnull : reuse ∉ s.created → env.alloc ≠ .null) :
    (s.allocInstance reuse env = some (none, s) ∧ s.creates reuse env = none) ∨
      ∃ f s', s.allocInstance reuse env = some (some f, s') ∧ s.creates reuse env = some f ∧
        Taken s s' f ∧ s'.process = s.process ∧ s'.streams = s.streams := by
  unfold allocInstance creates
  split_ifs with hreuse
  · refine .inr ⟨reuse, _, rfl, rfl, ?_, rfl, rfl⟩
    exact ⟨(if_pos hreuse).symm, .inl rfl, by rw [if_pos hreuse], fun _ _ ↦ rfl, rfl, rfl, rfl⟩
  · have hnull := hnull hreuse
    unfold Fresh at hfresh
    cases halloc : env.alloc with
    | noFunction => exact .inl ⟨rfl, rfl⟩
    | null => exact absurd halloc hnull
    | noMemory => exact .inl ⟨rfl, rfl⟩
    | made f n =>
      rw [halloc] at hfresh
      have hf : f ∉ s.created := hfresh f rfl
      refine .inr ⟨f, _, rfl, rfl, ?_, rfl, rfl⟩
      refine ⟨(if_neg hf).symm, .inl rfl, by rw [if_neg hf], fun g hg ↦ ?_, rfl, rfl, rfl⟩
      exact update_of_ne (fun heq : g = f ↦ hf (heq ▸ hg)) _ _

/-- The reference is given back. -/
theorem Taken.freeInstance (hs : s.Inv) (h : Taken s s' f) :
    ∃ t, s'.freeInstance f = some t ∧ Kept s t ∧ t.streams = s'.streams ∧
      t.replies = s.replies ∧ t.crashed = s.crashed := by
  unfold State.freeInstance
  rw [if_pos h.mem_created]
  simp only [update_self]
  by_cases hf : f ∈ s.created
  · have hcreated : s'.created = s.created := h.created.trans (if_pos hf)
    have hrefcnt : s'.refcnt = update s.refcnt f (s.refcnt f + 1) := by
      rw [h.refcnt, if_pos hf]
    have hpos := hs.refcnt_pos f hf
    have hne : s'.refcnt f - 1 ≠ 0 := by
      rw [hrefcnt, update_self]
      omega
    rw [if_neg hne]
    refine ⟨_, rfl, ⟨hcreated, h.process.resolve_right fun hnew ↦ hnew.1 hf,
      fun g _ ↦ ?_, h.runrefcnt, fun g _ ↦ congrArg (List.count g) h.released⟩, rfl,
        h.replies, h.crashed⟩
    simp only [hrefcnt, update_self, update_idem, Nat.add_sub_cancel,
      update_eq_self]
  · have hcreated : s'.created = f :: s.created := h.created.trans (if_neg hf)
    have hrefcnt : s'.refcnt = update s.refcnt f 1 := by
      rw [h.refcnt, if_neg hf]
    have hzero : s'.refcnt f - 1 = 0 := by
      rw [hrefcnt, update_self]
    have hprocess : s'.process.erase f = s.process := by
      have hnot : f ∉ s.process := fun hmem ↦ hf (hs.mem_created f hmem)
      rcases h.process with heq | ⟨-, heq⟩
      · rw [heq, List.erase_of_not_mem hnot]
      · rw [heq, List.erase_cons_head]
    rw [if_pos hzero]
    have hne {g : F} (hg : g ∈ s.created) : g ≠ f := fun heq ↦ hf (heq ▸ hg)
    refine ⟨_, rfl, ⟨?_, hprocess, fun g hg ↦ ?_, h.runrefcnt, fun g hg ↦ ?_⟩, rfl,
      h.replies, h.crashed⟩
    · simp only [hcreated, List.erase_cons_head]
    · simp only [hrefcnt, update_of_ne (hne hg)]
    · simp only [h.released, List.count_append, List.count_singleton, beq_iff_eq,
        if_neg (hne hg).symm, Nat.add_zero]

/-- The state with the instance in the process list. -/
def inserted (s : State P R F) (f : F) : State P R F :=
  { s with
    process := if f ∈ s.process then s.process else f :: s.process
    runrefcnt := update s.runrefcnt f (s.runrefcnt f + 1) }

theorem insert_eq (memory : Bool) (hf : f ∈ s.created) :
    s.insert f memory = if f ∈ s.process ∨ memory then (0, s.inserted f) else (-1, s) := by
  unfold insert inserted
  rw [if_neg (not_not.mpr hf)]
  by_cases hprocess : f ∈ s.process
  · simp only [if_pos hprocess, if_pos (Or.inl hprocess)]
  · by_cases hmemory : memory <;> simp [hprocess, hmemory]

/-- What was put into the process list is taken out of it. -/
theorem Taken.remove_inserted (hs : s.Inv) (h : Taken s s' f) (hprocess : s'.process = s.process) :
    Taken s ((s'.inserted f).remove f).2 f ∧ ((s'.inserted f).remove f).2.streams = s'.streams := by
  have hmem : f ∈ (s'.inserted f).process := by
    unfold inserted
    simp only
    split_ifs with hf
    · exact hf
    · exact List.mem_cons_self
  have hrun : ∀ g ∈ s.created, update (s'.inserted f).runrefcnt f
      ((s'.inserted f).runrefcnt f - 1) g = s.runrefcnt g := by
    intro g hg
    simp only [inserted, update_self, update_idem, Nat.add_sub_cancel,
      update_eq_self]
    exact h.runrefcnt g hg
  unfold remove
  rw [if_neg (not_not.mpr hmem)]
  simp only [update_self]
  have hval : (s'.inserted f).runrefcnt f - 1 = s'.runrefcnt f := by
    simp only [inserted, update_self, Nat.add_sub_cancel]
  by_cases hzero : (s'.inserted f).runrefcnt f - 1 = 0
  · rw [if_pos hzero]
    refine ⟨⟨h.created, .inl ?_, h.refcnt, hrun, h.released, h.replies, h.crashed⟩, rfl⟩
    have hnot : f ∉ s.process := fun hf ↦ by
      have hpos := hs.runrefcnt_pos f hf
      rw [hval, h.runrefcnt f (hs.mem_created f hf)] at hzero
      omega
    simp only [inserted, hprocess, if_neg hnot, List.erase_cons_head]
  · rw [if_neg hzero]
    refine ⟨⟨h.created, ?_, h.refcnt, hrun, h.released, h.replies, h.crashed⟩, rfl⟩
    simp only [inserted, hprocess]
    split_ifs with hf
    · exact .inl rfl
    · refine .inr ⟨fun hcreated ↦ hzero ?_, rfl⟩
      rw [hval, h.runrefcnt f hcreated, hs.runrefcnt_eq f hcreated hf]

variable {streams : StreamRegistry.State R}

theorem Taken.rmStreamid {x : Nat} (h : Taken s s' f)
    (hstreams : s'.streams = some streams) :
    ∃ t, s'.rmStreamid r x = some t ∧ Taken s t f ∧ t.streams = some (streams.rm r x) := by
  refine ⟨{ s' with streams := some (streams.rm r x) }, ?_, ?_, rfl⟩
  · rw [State.rmStreamid, hstreams, Option.map_some]
  · exact ⟨h.created, h.process, h.refcnt, h.runrefcnt, h.released, h.replies, h.crashed⟩

/-- The buffer is removed from the stream, the reference is given back, and the failure is sent. -/
theorem Taken.undo {x : Nat} (hs : s.Inv) (h : Taken s s' f)
    (hstreams : s'.streams = some streams) (request : Request F) :
    ∃ t, (do let u ← s'.rmStreamid r x
             let u ← u.freeInstance f
             some (u.reply sender request none (-1))) = some t ∧
      s.Kept t ∧ t.streams = some (streams.rm r x) ∧
      t.replies = s.replies ++ [⟨sender, request, none, -1⟩] ∧ t.crashed = false := by
  obtain ⟨u, hu, htaken, hustreams⟩ := h.rmStreamid hstreams
  obtain ⟨t, ht, hkept, htstreams, hreplies, hcrashed⟩ := htaken.freeInstance hs
  refine ⟨t.reply sender request none (-1), ?_, ?_, htstreams.trans hustreams, ?_, ?_⟩
  · rw [hu, Option.bind_eq_bind, Option.bind_some, ht]
    rfl
  · exact ⟨hkept.created, hkept.process, hkept.refcnt, hkept.runrefcnt, hkept.released⟩
  · simp only [reply, hreplies]
  · exact hcrashed.trans hs.crashed

/-! ## What comes of a request -/

/-- The request was refused, and all else is as before. -/
structure Refused (s t : State P R F) (sender : P) (request : Request F) : Prop where
  unchanged : s.Unchanged t
  replies : t.replies = s.replies ++ [⟨sender, request, none, -1⟩]
  streams : ∃ streams, t.streams = some streams ∧ streams.Rep
  crashed : t.crashed = false

/-- There is an instance, and it runs. -/
structure Started (s t : State P R F) (sender : P) (request : Request F) (f : F) : Prop where
  created : t.created = if f ∈ s.created then s.created else f :: s.created
  process : t.process = if f ∈ s.process then s.process else f :: s.process
  refcnt : t.refcnt = update s.refcnt f (if f ∈ s.created then s.refcnt f + 1 else 1)
  runrefcnt : ∀ g, g ∈ s.created → g ≠ f → t.runrefcnt g = s.runrefcnt g
  runrefcnt_pos : 0 < t.runrefcnt f
  released : t.released = s.released
  replies : t.replies = s.replies ++ [⟨sender, request, some f, 0⟩]
  streams : ∃ streams, t.streams = some streams ∧ streams.Rep
  crashed : t.crashed = false

/-- The failure of a print function is answered twice. -/
def Twice (s t : State P R F) : Prop := ∃ ρ ρ', t.replies = s.replies ++ [ρ, ρ']

/-- **The last two steps.**  What is undone when one of them fails is all but the stream, from which
the buffer is removed. -/
theorem Taken.handleInsert (type : ProcessType) (streamid : F → Nat) (sender : P)
    (print : Bool) (reuse : F) (env : Env R F) (r : R) (hs : s.Inv) (h : Taken s s' f)
    (hprocess : s'.process = s.process) (hstreams : s'.streams = some streams) :
    ∃ t, s'.handleInsert type streamid sender print reuse env r f = some t ∧
      if s.Starts f env then
        if print ∧ (type = .lfta ∨ ¬ env.printed) then Twice s t
        else t.streams = some streams ∧
          (streams.Rep → Started s t sender (.alloc print reuse) f)
      else s.Kept t ∧ t.streams = some (streams.rm r (streamid f)) ∧
        t.replies = s.replies ++ [⟨sender, .alloc print reuse, none, -1⟩] ∧ t.crashed = false := by
  unfold State.handleInsert
  simp only
  rw [insert_eq _ h.mem_created, hprocess]
  by_cases hinsert : f ∈ s.process ∨ env.insertMemory
  · rw [if_pos hinsert, if_neg (Int.lt_irrefl 0)]
    obtain ⟨hremoved, hremovedStreams⟩ := h.remove_inserted hs hprocess
    unfold handleRegister
    simp only
    by_cases hregistered : env.registered
    · have hstarts : s.Starts f env := ⟨hinsert, hregistered⟩
      rw [if_neg (not_not.mpr hregistered)]
      simp only [if_pos hstarts]
      have hstarted : (s'.inserted f).streams = some streams ∧ (streams.Rep → Started s
          ((s'.inserted f).reply sender (.alloc print reuse) (some f) 0) sender
          (.alloc print reuse) f) := by
        refine ⟨hstreams, fun hrep ↦ ?_⟩
        refine ⟨h.created, ?_, h.refcnt, fun g hg hne ↦ ?_, ?_, h.released, ?_,
          ⟨streams, hstreams, hrep⟩, ?_⟩
        · simp only [reply, inserted, hprocess]
        · simp only [reply, inserted, update_of_ne hne]
          exact h.runrefcnt g hg
        · simp only [reply, inserted, update_self]
          exact Nat.succ_pos _
        · simp only [reply, inserted, h.replies]
        · exact h.crashed.trans hs.crashed
      by_cases hprint : print
      · rw [if_pos hprint]
        by_cases hfail : type = .lfta ∨ ¬ env.printed
        · have hboth : print ∧ (type = .lfta ∨ ¬ env.printed) := ⟨hprint, hfail⟩
          simp only [if_pos hfail, if_pos hboth]
          obtain ⟨t, ht, -, -, hreplies, -⟩ := hremoved.freeInstance hs
          refine ⟨_, by rw [ht]; rfl, ⟨sender, .alloc print reuse, none, -1⟩,
            ⟨sender, .alloc print reuse, some f, 0⟩, ?_⟩
          simp only [reply, hreplies, List.append_assoc, List.singleton_append]
        · have hnot : ¬ (print ∧ (type = .lfta ∨ ¬ env.printed)) := fun hboth ↦ hfail hboth.2
          simp only [if_neg hfail, if_neg hnot]
          exact ⟨_, rfl, hstarted⟩
      · have hnot : ¬ (print ∧ (type = .lfta ∨ ¬ env.printed)) := fun hboth ↦ hprint hboth.1
        simp only [if_neg hprint, if_neg hnot]
        exact ⟨_, rfl, hstarted⟩
    · have hnot : ¬ s.Starts f env := fun hboth ↦ hregistered hboth.2
      rw [if_pos hregistered]
      simp only [if_neg hnot]
      exact hremoved.undo hs (hremovedStreams.trans hstreams) _
  · have hnot : ¬ s.Starts f env := fun hboth ↦ hinsert hboth.1
    have hneg : (-1 : Int) < 0 := by decide
    rw [if_neg hinsert, if_pos hneg]
    simp only [if_neg hnot]
    exact h.undo hs hstreams _

theorem streams_reply {dest : P} {request : Request F} {fta : Option F} {result : Int} :
    (s.reply dest request fta result).streams = s.streams := rfl

theorem live_iff (h : s.streams = some streams) (slot : Slot R) :
    s.Live slot ↔ slot ∈ streams.table ∧ 0 < slot.refcnt := by
  unfold Live
  rw [h]
  constructor
  · rintro ⟨_, heq, hslot⟩
    obtain rfl := Option.some.inj heq
    exact hslot
  · exact fun hslot ↦ ⟨streams, rfl, hslot⟩

/-- Nothing but the reply is new. -/
theorem refused_reply (sender : P) (hs : s.Inv) (request : Request F) :
    Refused s (s.reply sender request none (-1)) sender request :=
  ⟨⟨⟨rfl, rfl, fun _ _ ↦ rfl, fun _ _ ↦ rfl, fun _ _ ↦ rfl⟩, fun _ ↦ Iff.rfl⟩, rfl,
    hs.streams, hs.crashed⟩

/-- **A request to allocate** that meets the condition is refused, or there is an instance. -/
theorem handleAlloc_cases (sender : P) (hs : s.Inv) (hfresh : s.Fresh env) (htype : type.Runs)
    (hok : s.AllocOk type streamid print reuse env) :
    ∃ t, s.handleAlloc type streamid sender print reuse env = some t ∧
      (Refused s t sender (.alloc print reuse) ∨
        ∃ f, s.creates reuse env = some f ∧ Started s t sender (.alloc print reuse) f) := by
  obtain ⟨streams, hstreams, hrep⟩ := hs.streams
  unfold handleAlloc
  rw [if_pos htype]
  rcases allocInstance_cases hfresh hok.notNull with
    ⟨heq, -⟩ | ⟨f, s', heq, hcreates, htaken, hprocess, hstreams'⟩
  · rw [heq]
    exact ⟨_, rfl, .inl (refused_reply _ hs _)⟩
  · rw [heq]
    have hstreams' := hstreams'.trans hstreams
    have hmem : f ∈ s.creates reuse env := hcreates
    unfold handleAddStreamid
    simp only
    by_cases hprint : print
    · rw [if_pos hprint]
      obtain ⟨t, ht, hcases⟩ := htaken.handleInsert type streamid sender print reuse env
        env.stale hs hprocess hstreams'
      refine ⟨t, ht, ?_⟩
      by_cases hstarts : s.Starts f env
      · obtain ⟨hlfta, hprinted⟩ := hok.starts f hmem hprint hstarts
        rw [if_pos hstarts, if_neg fun hfail ↦ hfail.2.elim hlfta fun hnot ↦ hnot hprinted]
          at hcases
        exact .inr ⟨f, hcreates, hcases.2 hrep⟩
      · rw [if_neg hstarts] at hcases
        obtain ⟨hkept, htstreams, hreplies, hcrashed⟩ := hcases
        refine .inl ⟨⟨hkept, fun slot ↦ ?_⟩, hreplies,
          ⟨_, htstreams, StreamRegistry.State.rep_rm hrep⟩, hcrashed⟩
        rw [live_iff htstreams, live_iff hstreams]
        refine hrep.live_rm_of_count_eq_zero ?_
        by_contra hne
        obtain ⟨slot', hslot', hc⟩ := hrep.complete _ _ (Nat.pos_of_ne_zero hne)
        exact hok.stale f hmem hprint hstarts slot' ((live_iff hstreams _).mpr ⟨hslot', hc.2.2⟩)
          ⟨hc.1, hc.2.1⟩
    · rw [if_neg hprint]
      obtain ⟨r, hr, hmemory⟩ := hok.shm f hmem hprint
      rw [hr]
      simp only
      unfold addStreamid
      rw [hstreams']
      simp only
      by_cases hfull : NeedsMemory streams.table r (streamid f) ∧ ¬ env.addMemory
      · have hnil : streams.table = [] := by
          by_contra hne
          exact hfull.2 (hmemory streams hstreams hfull.1 hne)
        rw [if_pos hfull, if_pos hnil]
        simp only
        rw [if_pos (by decide)]
        obtain ⟨t, ht, hkept, htstreams, hreplies, hcrashed⟩ := htaken.freeInstance hs
        have htstreams := htstreams.trans hstreams'
        refine ⟨t.reply sender (.alloc print reuse) none (-1), by rw [ht]; rfl,
          .inl ⟨⟨?_, fun slot ↦ ?_⟩, ?_, ⟨streams, htstreams, hrep⟩, hcrashed.trans hs.crashed⟩⟩
        · exact ⟨hkept.created, hkept.process, hkept.refcnt, hkept.runrefcnt, hkept.released⟩
        · exact (live_iff (State.streams_reply.trans htstreams) slot).trans
            (live_iff hstreams slot).symm
        · simp only [reply, hreplies]
      · rw [if_neg hfull]
        simp only
        rw [if_neg (not_not.mpr rfl)]
        have htaken' : Taken s { s' with streams := some (streams.add r (streamid f) env.junk) }
          f :=
          ⟨htaken.created, htaken.process, htaken.refcnt, htaken.runrefcnt, htaken.released,
            htaken.replies, htaken.crashed⟩
        have hrep' := StreamRegistry.State.rep_add (r := r) (x := streamid f) env.junk hrep
        obtain ⟨t, ht, hcases⟩ := htaken'.handleInsert type streamid sender print reuse env r
          hs hprocess rfl
        refine ⟨t, ht, ?_⟩
        by_cases hstarts : s.Starts f env
        · rw [if_pos hstarts, if_neg fun hfail ↦ hprint hfail.1] at hcases
          exact .inr ⟨f, hcreates, hcases.2 hrep'⟩
        · rw [if_neg hstarts] at hcases
          obtain ⟨hkept, htstreams, hreplies, hcrashed⟩ := hcases
          refine .inl ⟨⟨hkept, fun slot ↦ ?_⟩, hreplies,
            ⟨_, htstreams, StreamRegistry.State.rep_rm hrep'⟩, hcrashed⟩
          rw [live_iff htstreams, live_iff hstreams]
          exact hrep.live_rm_add env.junk

variable {a : Action P R F}

theorem not_meets_of_crashed (hreplies : t.replies = s.replies) : ¬ s.Meets t a := by
  rintro ⟨ρ, h, -⟩
  rw [hreplies] at h
  exact List.ne_cons_self (List.append_right_eq_self.mp h.symm).symm

theorem not_meets_of_twice (htwice : s.Twice t) : ¬ s.Meets t a := by
  rintro ⟨ρ, h, -⟩
  obtain ⟨ρ₁, ρ₂, h'⟩ := htwice
  have hlength := congrArg List.length (List.append_cancel_left (h.symm.trans h'))
  simp at hlength

/-- The answer to a request that is refused. -/
theorem Meets.unchanged (sender : P) (request : Request F) (h : s.Meets t a)
    (hreplies : t.replies = s.replies ++ [⟨sender, request, none, -1⟩]) : s.Unchanged t := by
  obtain ⟨ρ, hρ, -, -, hunchanged, -⟩ := h
  obtain rfl := List.singleton_inj.mp (List.append_cancel_left (hreplies.symm.trans hρ))
  have hfailed : (-1 : Int) ≠ 0 := by decide
  exact hunchanged hfailed

/-- A request to allocate that is answered as it should be meets the condition. -/
theorem allocOk_of_meets (hs : s.Inv) (hfresh : s.Fresh env) (htype : type.Runs)
    (h : s.Meets ((s.handleAlloc type streamid sender print reuse env).getD
      { s with crashed := true }) a) :
    s.AllocOk type streamid print reuse env := by
  obtain ⟨streams, hstreams, hrep⟩ := hs.streams
  unfold handleAlloc at h
  rw [if_pos htype] at h
  have hnull : reuse ∉ s.created → env.alloc ≠ .null := by
    intro hreuse hnull
    refine not_meets_of_crashed ?_ h
    simp [allocInstance, hreuse, hnull]
  rcases allocInstance_cases hfresh hnull with
    ⟨-, hcreates⟩ | ⟨f, s', heq, hcreates, htaken, hprocess, hstreams'⟩
  · refine ⟨hnull, ?_, ?_, ?_⟩ <;>
    · intro f hf
      rw [hcreates] at hf
      cases hf
  · rw [heq] at h
    simp only at h
    unfold handleAddStreamid at h
    have hstreams' := hstreams'.trans hstreams
    by_cases hprint : print
    · rw [if_pos hprint] at h
      obtain ⟨t, ht, hcases⟩ := htaken.handleInsert type streamid sender print reuse
        env env.stale hs hprocess hstreams'
      rw [ht, Option.getD_some] at h
      refine ⟨hnull, ?_, ?_, fun g _ hnot ↦ absurd hprint hnot⟩
      · rintro g hg - hstarts
        obtain rfl := Option.some.inj (hcreates.symm.trans hg)
        rw [if_pos hstarts] at hcases
        by_contra hfail
        have hboth : print ∧ (type = .lfta ∨ ¬ env.printed) := by
          refine ⟨hprint, ?_⟩
          by_contra hneither
          exact hfail ⟨fun hlfta ↦ hneither (.inl hlfta),
            of_not_not fun hnot ↦ hneither (.inr hnot)⟩
        rw [if_pos hboth] at hcases
        exact not_meets_of_twice hcases h
      · rintro g hg - hstarts slot hlive ⟨hstream, hr⟩
        obtain rfl := Option.some.inj (hcreates.symm.trans hg)
        rw [if_neg hstarts] at hcases
        obtain ⟨-, htstreams, hreplies, -⟩ := hcases
        obtain ⟨hslot, hpos⟩ := (live_iff hstreams slot).mp hlive
        refine hrep.not_live_rm hslot ⟨hstream, hr, hpos⟩ ((live_iff htstreams slot).mp ?_)
        exact ((h.unchanged _ _ hreplies).streams slot).mpr hlive
    · rw [if_neg hprint] at h
      refine ⟨hnull, fun g _ hyes ↦ absurd hyes hprint, fun g _ hyes ↦ absurd hyes hprint, ?_⟩
      rintro g hg -
      obtain rfl := Option.some.inj (hcreates.symm.trans hg)
      cases hshm : env.shm with
      | none =>
        rw [hshm] at h
        have hremove : (s'.remove f).2.replies = s.replies ∧ (s'.remove f).2.created = s'.created ∧
            (s'.remove f).2.refcnt = s'.refcnt := by
          refine ⟨?_, ?_, ?_⟩ <;>
          · unfold remove
            simp only
            split_ifs <;> first | rfl | exact htaken.replies
        have hunchanged := h.unchanged sender (.alloc print reuse) (by
          simp only [Option.getD_some, reply, hremove.1])
        -- The instance is in the list now, or has one more reference.
        exfalso
        by_cases hf : f ∈ s.created
        · have hrefcnt : (s'.remove f).2.refcnt f = s.refcnt f := hunchanged.refcnt f hf
          rw [hremove.2.2, htaken.refcnt, update_self, if_pos hf] at hrefcnt
          omega
        · have hcreated : (s'.remove f).2.created = s.created := hunchanged.created
          rw [hremove.2.1] at hcreated
          exact hf (hcreated ▸ htaken.mem_created)
      | some r =>
        rw [hshm] at h
        refine ⟨r, rfl, fun streams' hstreams'' hfull hne ↦ ?_⟩
        obtain rfl := Option.some.inj (hstreams.symm.trans hstreams'')
        by_contra hmemory
        obtain ⟨slot, hslot⟩ := List.exists_mem_of_ne_nil _ hne
        have hboth : NeedsMemory streams.table r (streamid f) ∧ ¬ env.addMemory := ⟨hfull, hmemory⟩
        simp only [addStreamid, hstreams', if_pos hboth, if_neg hne] at h
        rw [if_pos (by decide)] at h
        have htaken' : Taken s { s' with streams := none } f :=
          ⟨htaken.created, htaken.process, htaken.refcnt, htaken.runrefcnt, htaken.released,
            htaken.replies, htaken.crashed⟩
        obtain ⟨t, ht, -, htstreams, hreplies, -⟩ := htaken'.freeInstance hs
        rw [ht] at h
        have hunchanged := h.unchanged sender (.alloc print reuse) (by
          simp only [Option.bind_eq_bind, Option.bind_some, Option.getD_some, reply, hreplies])
        have hlive : s.Live slot := (live_iff hstreams slot).mpr
          ⟨hslot, Nat.pos_of_ne_zero (hfull slot hslot).2⟩
        obtain ⟨_, hlost, -⟩ := (hunchanged.streams slot).mpr hlive
        have hnone : some _ = none := hlost.symm.trans htstreams
        cases hnone

/-! ## What holds between the requests -/

theorem inv_init : (init : State P R F).Inv where
  nodup_created := .nil
  nodup_process := .nil
  mem_created := fun f hf ↦ by cases hf
  refcnt_pos := fun f hf ↦ by cases hf
  refcnt_add := fun f hf ↦ by cases hf
  frees_eq := fun _ _ ↦ rfl
  runrefcnt_pos := fun f hf ↦ by cases hf
  runrefcnt_eq := fun f hf ↦ by cases hf
  streams := ⟨_, rfl, StreamRegistry.State.rep_init⟩
  crashed := rfl

theorem allocs_append {ρ : Reply P F} (h : t.replies = s.replies ++ [ρ]) :
    t.allocs f = s.allocs f + if ρ.Allocates f then 1 else 0 := by
  rw [allocs, h, List.countP_append, List.countP_singleton]
  simp only [decide_eq_true_eq, allocs]

theorem frees_append {ρ : Reply P F} (h : t.replies = s.replies ++ [ρ]) :
    t.frees f = s.frees f + if ρ.Frees f then 1 else 0 := by
  rw [frees, h, List.countP_append, List.countP_singleton]
  simp only [decide_eq_true_eq, frees]

/-- An answer other than 0 is not counted. -/
theorem counts_of_failed {request : Request F}
    (h : t.replies = s.replies ++ [⟨sender, request, none, -1⟩]) (f : F) :
    t.allocs f = s.allocs f ∧ t.frees f = s.frees f := by
  have hfailed : (-1 : Int) ≠ 0 := by decide
  rw [allocs_append h, frees_append h, if_neg fun hρ ↦ hfailed hρ.2.1, if_neg fun hρ ↦ hfailed hρ.2]
  exact ⟨rfl, rfl⟩

theorem inv_refused {request : Request F} (hs : s.Inv) (h : Refused s t sender request) :
    t.Inv := by
  have hkept := h.unchanged.toKept
  have hcounts := counts_of_failed h.replies
  exact {
    nodup_created := hkept.created ▸ hs.nodup_created
    nodup_process := hkept.process ▸ hs.nodup_process
    mem_created := fun f hf ↦ by
      rw [hkept.process] at hf
      rw [hkept.created]
      exact hs.mem_created f hf
    refcnt_pos := fun f hf ↦ by
      rw [hkept.created] at hf
      rw [hkept.refcnt f hf]
      exact hs.refcnt_pos f hf
    refcnt_add := fun f hf ↦ by
      rw [hkept.created] at hf
      rw [hkept.refcnt f hf, (hcounts f).1, (hcounts f).2]
      exact hs.refcnt_add f hf
    frees_eq := fun f hf ↦ by
      rw [hkept.created] at hf
      rw [(hcounts f).1, (hcounts f).2]
      exact hs.frees_eq f hf
    runrefcnt_pos := fun f hf ↦ by
      rw [hkept.process] at hf
      rw [hkept.runrefcnt f (hs.mem_created f hf)]
      exact hs.runrefcnt_pos f hf
    runrefcnt_eq := fun f hf hnot ↦ by
      rw [hkept.created] at hf
      rw [hkept.process] at hnot
      rw [hkept.runrefcnt f hf]
      exact hs.runrefcnt_eq f hf hnot
    streams := h.streams
    crashed := h.crashed }

/-- The instance is in the list, and so is what was there before. -/
theorem mem_cons_unless {l : List F} : g ∈ (if f ∈ l then l else f :: l) ↔ g = f ∨ g ∈ l := by
  split_ifs with hf
  · refine ⟨.inr, fun h ↦ h.elim (fun heq ↦ heq ▸ hf) id⟩
  · exact List.mem_cons

theorem nodup_cons_unless {l : List F} (h : l.Nodup) : (if f ∈ l then l else f :: l).Nodup := by
  split_ifs with hf
  · exact h
  · exact List.nodup_cons.mpr ⟨hf, h⟩

theorem inv_started (hs : s.Inv) (h : Started s t sender (.alloc print reuse) f) : t.Inv := by
  have hallocs (g : F) : t.allocs g = s.allocs g + if g = f then 1 else 0 := by
    rw [allocs_append h.replies]
    simp [Reply.Allocates, Request.IsAlloc, eq_comm]
  have hfrees (g : F) : t.frees g = s.frees g := by
    rw [frees_append h.replies, if_neg fun hρ ↦ by cases hρ.1]
    rfl
  have hcreated {g : F} : g ∈ t.created ↔ g = f ∨ g ∈ s.created := by
    rw [h.created, mem_cons_unless]
  have hprocess {g : F} : g ∈ t.process ↔ g = f ∨ g ∈ s.process := by
    rw [h.process, mem_cons_unless]
  have hrefcnt {g : F} (hne : g ≠ f) : t.refcnt g = s.refcnt g := by
    rw [h.refcnt, update_of_ne hne]
  exact {
    nodup_created := h.created ▸ nodup_cons_unless hs.nodup_created
    nodup_process := h.process ▸ nodup_cons_unless hs.nodup_process
    mem_created := fun g hg ↦ hcreated.mpr ((hprocess.mp hg).imp_right (hs.mem_created g))
    refcnt_pos := fun g hg ↦ by
      by_cases hne : g = f
      · rw [hne, h.refcnt, update_self]
        split_ifs <;> omega
      · rw [hrefcnt hne]
        exact hs.refcnt_pos g ((hcreated.mp hg).resolve_left hne)
    refcnt_add := fun g hg ↦ by
      rw [hallocs, hfrees]
      by_cases hne : g = f
      · rw [if_pos hne, hne, h.refcnt, update_self]
        split_ifs with hf
        · have := hs.refcnt_add f hf
          omega
        · have := hs.frees_eq f hf
          omega
      · rw [if_neg hne, hrefcnt hne]
        exact hs.refcnt_add g ((hcreated.mp hg).resolve_left hne)
    frees_eq := fun g hg ↦ by
      rw [hcreated, not_or] at hg
      rw [hallocs, hfrees, if_neg hg.1]
      exact hs.frees_eq g hg.2
    runrefcnt_pos := fun g hg ↦ by
      by_cases hne : g = f
      · exact hne ▸ h.runrefcnt_pos
      · have hg := (hprocess.mp hg).resolve_left hne
        rw [h.runrefcnt g (hs.mem_created g hg) hne]
        exact hs.runrefcnt_pos g hg
    runrefcnt_eq := fun g hg hnot ↦ by
      rw [hprocess, not_or] at hnot
      have hg := (hcreated.mp hg).resolve_left hnot.1
      rw [h.runrefcnt g hg hnot.1]
      exact hs.runrefcnt_eq g hg hnot.2
    streams := h.streams
    crashed := h.crashed }

/-! ## Requests to free -/

/-- The instance runs: it is removed, and the answer is a failure. -/
theorem handleFree_of_mem_process (streamid : F → Nat) (sender : P) (hs : s.Inv) (htype : type.Runs)
    (hshm : env.shm = some r) (hf : f ∈ s.process) :
    ∃ t, s.handleFree type streamid sender f env = some t ∧ t.Inv ∧
      t.replies = s.replies ++ [⟨sender, .free f, none, -1⟩] ∧ t.created = s.created ∧
      t.released = s.released ∧ t.runrefcnt f + 1 = s.runrefcnt f := by
  have hpos := hs.runrefcnt_pos f hf
  have hremove : (s.remove f).1 = 0 ∧ (s.remove f).2 = { s with
      process := if s.runrefcnt f = 1 then s.process.erase f else s.process
      runrefcnt := update s.runrefcnt f (s.runrefcnt f - 1) } := by
    unfold remove
    rw [if_neg (not_not.mpr hf)]
    simp only [update_self]
    by_cases hone : s.runrefcnt f = 1
    · rw [if_pos (by omega), if_pos hone]
      exact ⟨rfl, rfl⟩
    · rw [if_neg (by omega), if_neg hone]
      exact ⟨rfl, rfl⟩
  unfold handleFree
  rw [if_pos htype, hshm]
  simp only
  rw [hremove.1, hremove.2, if_neg (not_not.mpr rfl)]
  have hcounts : ∀ g, _ ∧ _ := counts_of_failed (s := s) (t := reply { s with
      process := if s.runrefcnt f = 1 then s.process.erase f else s.process
      runrefcnt := update s.runrefcnt f (s.runrefcnt f - 1) } sender (.free f) none (-1))
        rfl
  have hprocess {g : F} : g ∈ (if s.runrefcnt f = 1 then s.process.erase f else s.process) ↔
      g ∈ s.process ∧ (g = f → s.runrefcnt f ≠ 1) := by
    split_ifs with hone
    · rw [hs.nodup_process.mem_erase_iff, and_comm]
      exact and_congr_right fun _ ↦ ⟨fun hne heq ↦ absurd heq hne, fun himp heq ↦ himp heq hone⟩
    · exact ⟨fun hg ↦ ⟨hg, fun _ ↦ hone⟩, And.left⟩
  refine ⟨_, rfl, ?_, rfl, rfl, rfl, ?_⟩
  · exact {
      nodup_created := hs.nodup_created
      nodup_process := by
        simp only [reply]
        split_ifs
        · exact hs.nodup_process.erase f
        · exact hs.nodup_process
      mem_created := fun g hg ↦ hs.mem_created g (hprocess.mp hg).1
      refcnt_pos := hs.refcnt_pos
      refcnt_add := fun g hg ↦ by
        rw [(hcounts g).1, (hcounts g).2]
        exact hs.refcnt_add g hg
      frees_eq := fun g hg ↦ by
        rw [(hcounts g).1, (hcounts g).2]
        exact hs.frees_eq g hg
      runrefcnt_pos := fun g hg ↦ by
        obtain ⟨hg, hne⟩ := hprocess.mp hg
        simp only [reply]
        by_cases heq : g = f
        · have := hne heq
          rw [heq, update_self]
          omega
        · rw [update_of_ne heq]
          exact hs.runrefcnt_pos g hg
      runrefcnt_eq := fun g hg hnot ↦ by
        simp only [reply]
        by_cases heq : g = f
        · rw [heq, update_self]
          by_contra hne
          refine hnot (hprocess.mpr ⟨heq ▸ hf, fun _ hone ↦ hne ?_⟩)
          rw [hone]
        · rw [update_of_ne heq]
          exact hs.runrefcnt_eq g hg fun hg ↦ hnot (hprocess.mpr ⟨hg, fun heq' ↦ absurd heq' heq⟩)
      streams := hs.streams
      crashed := hs.crashed }
  · simp only [reply, update_self]
    omega

/-- The instance does not run any more: one reference is given back, and the answer is 0. -/
theorem handleFree_of_not_mem_process (streamid : F → Nat) (sender : P) (hs : s.Inv)
    (htype : type.Runs) (hshm : env.shm = some r) (hprocess : f ∉ s.process) (hf : f ∈ s.created) :
    ∃ t, s.handleFree type streamid sender f env = some t ∧ t.Inv ∧
      t.replies = s.replies ++ [⟨sender, .free f, none, 0⟩] ∧ t.runrefcnt f = s.runrefcnt f ∧
      (∀ g, g ∈ t.created ↔ g ∈ s.created ∧ (g = f → s.refcnt f ≠ 1)) ∧
      t.released = if s.refcnt f = 1 then s.released ++ [f] else s.released := by
  obtain ⟨streams, hstreams, hrep⟩ := hs.streams
  have hpos := hs.refcnt_pos f hf
  have hremove : s.remove f = (-1, s) := if_pos hprocess
  let u : State P R F := { s with
    created := if s.refcnt f = 1 then s.created.erase f else s.created
    refcnt := update s.refcnt f (s.refcnt f - 1)
    streams := some (streams.rm r (streamid f))
    released := if s.refcnt f = 1 then s.released ++ [f] else s.released }
  have hfree : freeInstance { s with streams := some (streams.rm r (streamid f)) } f = some u := by
    unfold freeInstance
    rw [if_pos hf]
    simp only [update_self, u]
    by_cases hone : s.refcnt f = 1
    · rw [if_pos (by omega)]
      simp only [if_pos hone, List.erase_of_not_mem hprocess]
    · rw [if_neg (by omega)]
      simp only [if_neg hone]
  have hcreated {g : F} : g ∈ u.created ↔ g ∈ s.created ∧ (g = f → s.refcnt f ≠ 1) := by
    simp only [u]
    split_ifs with hone
    · rw [hs.nodup_created.mem_erase_iff, and_comm]
      exact and_congr_right fun _ ↦ ⟨fun hne heq ↦ absurd heq hne, fun himp heq ↦ himp heq hone⟩
    · exact ⟨fun hg ↦ ⟨hg, fun _ ↦ hone⟩, And.left⟩
  have hallocs (g : F) : (u.reply sender (.free f) none 0).allocs g = s.allocs g := by
    rw [allocs_append (s := s) rfl, if_neg fun hρ ↦ by cases hρ.1]
    rfl
  have hfrees (g : F) : (u.reply sender (.free f) none 0).frees g =
      s.frees g + if g = f then 1 else 0 := by
    rw [frees_append (s := s) rfl]
    simp [Reply.Frees, eq_comm]
  refine ⟨u.reply sender (.free f) none 0, ?_, ?_, rfl, rfl, fun g ↦ hcreated, rfl⟩
  · unfold handleFree
    rw [if_pos htype, hshm]
    simp only [hremove]
    rw [if_pos (by decide), rmStreamid, hstreams, Option.map_some, Option.bind_eq_bind,
      Option.bind_some, hfree]
    rfl
  · exact {
      nodup_created := by
        simp only [reply, u]
        split_ifs
        · exact hs.nodup_created.erase f
        · exact hs.nodup_created
      nodup_process := hs.nodup_process
      mem_created := fun g hg ↦ hcreated.mpr
        ⟨hs.mem_created g hg, fun heq ↦ absurd (heq ▸ hg) hprocess⟩
      refcnt_pos := fun g hg ↦ by
        obtain ⟨hg, hne⟩ := hcreated.mp hg
        simp only [reply, u]
        by_cases heq : g = f
        · have := hne heq
          rw [heq, update_self]
          omega
        · rw [update_of_ne heq]
          exact hs.refcnt_pos g hg
      refcnt_add := fun g hg ↦ by
        obtain ⟨hg, hne⟩ := hcreated.mp hg
        have hadd := hs.refcnt_add g hg
        rw [hallocs, hfrees]
        simp only [reply, u]
        by_cases heq : g = f
        · subst heq
          rw [update_self, if_pos rfl]
          omega
        · rw [update_of_ne heq, if_neg heq]
          exact hadd
      frees_eq := fun g hg ↦ by
        rw [hallocs, hfrees]
        by_cases heq : g = f
        · subst heq
          have hone : s.refcnt g = 1 := by
            by_contra hne
            exact hg (hcreated.mpr ⟨hf, fun _ ↦ hne⟩)
          have hadd := hs.refcnt_add g hf
          rw [if_pos rfl]
          omega
        · rw [if_neg heq]
          exact hs.frees_eq g fun hmem ↦ hg (hcreated.mpr ⟨hmem, fun heq' ↦ absurd heq' heq⟩)
      runrefcnt_pos := hs.runrefcnt_pos
      runrefcnt_eq := fun g hg hnot ↦ hs.runrefcnt_eq g (hcreated.mp hg).1 hnot
      streams := ⟨_, rfl, StreamRegistry.State.rep_rm hrep⟩
      crashed := hs.crashed }

/-- There is no such instance: the process crashes. -/
theorem handleFree_of_not_mem_created (hs : s.Inv) (htype : type.Runs) (hshm : env.shm = some r)
    (hf : f ∉ s.created) : s.handleFree type streamid sender f env = none := by
  obtain ⟨streams, hstreams, -⟩ := hs.streams
  have hremove : s.remove f = (-1, s) := if_pos fun hprocess ↦ hf (hs.mem_created f hprocess)
  unfold handleFree
  rw [if_pos htype, hshm]
  simp only [hremove]
  rw [if_pos (by decide), rmStreamid, hstreams, Option.map_some, Option.bind_eq_bind,
    Option.bind_some, freeInstance, if_neg hf]
  rfl

/-! ## One request -/

theorem inv_step (hs : s.Inv) (hok : s.LifeOk type streamid a)
    (hstep : s.step type streamid a = some t) :
    t.Inv ∧ (∃ ρ, t.replies = s.replies ++ [ρ] ∧ ρ.dest = a.sender ∧ ρ.request = a.request) ∧
      ∀ f ∈ s.created, t.released.count f = s.released.count f + if f ∈ t.created
        then 0 else 1 := by
  obtain ⟨sender, request, env⟩ := a
  unfold step at hstep
  split_ifs at hstep with hguard
  obtain ⟨-, hfresh⟩ := not_or.mp hguard
  have hfresh := not_not.mp hfresh
  have hstep := Option.some.inj hstep
  have hrefused {t : State P R F} (h : Refused s t sender request) :
      t.Inv ∧ (∃ ρ, t.replies = s.replies ++ [ρ] ∧ ρ.dest = sender ∧ ρ.request = request) ∧
        ∀ f ∈ s.created, t.released.count f = s.released.count f + if f ∈ t.created
          then 0 else 1 := by
    refine ⟨inv_refused hs h, ⟨_, h.replies, rfl, rfl⟩, fun f hf ↦ ?_⟩
    rw [h.unchanged.created, if_pos hf]
    exact h.unchanged.released f hf
  cases request with
  | alloc print reuse =>
    simp only [handle] at hstep
    by_cases htype : type.Runs
    · obtain ⟨t, ht, hcases⟩ := handleAlloc_cases sender hs hfresh htype (hok htype)
      rw [ht, Option.getD_some] at hstep
      subst hstep
      rcases hcases with h | ⟨f, -, h⟩
      · exact hrefused h
      · refine ⟨inv_started hs h, ⟨_, h.replies, rfl, rfl⟩, fun g hg ↦ ?_⟩
        rw [h.released, h.created, if_pos (mem_cons_unless.mpr (.inr hg)), Nat.add_zero]
    · rw [handleAlloc, if_neg htype, Option.getD_some] at hstep
      subst hstep
      exact hrefused (refused_reply _ hs _)
  | free f =>
    simp only [handle] at hstep
    by_cases htype : type.Runs
    · cases hshm : env.shm with
      | none =>
        simp only [handleFree, if_pos htype, hshm, Option.getD_some] at hstep
        subst hstep
        exact hrefused (refused_reply _ hs _)
      | some r =>
        have hf : f ∈ s.created := by
          refine hok htype ?_
          simp only [hshm]
          exact Option.some_ne_none r
        by_cases hprocess : f ∈ s.process
        · obtain ⟨t, ht, hinv, hreplies, hcreated, hreleased, -⟩ :=
            handleFree_of_mem_process streamid sender hs htype hshm hprocess
          rw [ht, Option.getD_some] at hstep
          subst hstep
          refine ⟨hinv, ⟨_, hreplies, rfl, rfl⟩, fun g hg ↦ ?_⟩
          rw [hcreated, hreleased, if_pos hg, Nat.add_zero]
        · obtain ⟨t, ht, hinv, hreplies, -, hcreated, hreleased⟩ :=
            handleFree_of_not_mem_process streamid sender hs htype hshm hprocess hf
          rw [ht, Option.getD_some] at hstep
          subst hstep
          refine ⟨hinv, ⟨_, hreplies, rfl, rfl⟩, fun g hg ↦ ?_⟩
          rw [hreleased]
          by_cases hgone : g = f ∧ s.refcnt f = 1
          · obtain ⟨rfl, hone⟩ := hgone
            rw [if_pos hone, if_neg fun hmem ↦ ((hcreated g).mp hmem).2 rfl hone, List.count_append,
              List.count_singleton_self]
          · rw [if_pos ((hcreated g).mpr ⟨hg, fun heq hone ↦ hgone ⟨heq, hone⟩⟩)]
            split_ifs with hone
            · have hne : ¬ f = g := fun heq ↦ hgone ⟨heq.symm, hone⟩
              simp [List.count_append, hne]
            · rfl
    · rw [handleFree, if_neg htype, Option.getD_some] at hstep
      subst hstep
      exact hrefused (refused_reply _ hs _)

theorem lifeOk_of_stepOk (hok : s.StepOk type streamid a) :
    s.LifeOk type streamid a := by
  obtain ⟨sender, request, env⟩ := a
  cases request with
  | alloc print reuse => exact hok
  | free f => exact fun htype hshm ↦ (hok.2 htype hshm).1

theorem meets_of_refused (h : Refused s t a.sender a.request)
    (hfree : ∀ f, a.request = .free f → ¬ s.Holds a.sender f) : s.Meets t a :=
  ⟨_, h.replies, rfl, rfl, fun _ ↦ h.unchanged, fun f hf hholds ↦ absurd hholds (hfree f hf)⟩

/-- A process whose request is refused does not hold the instance. -/
theorem Meets.not_holds (h : s.Meets t ⟨sender, .free f, env⟩)
    (hreplies : t.replies = s.replies ++ [⟨sender, .free f, none, -1⟩]) : ¬ s.Holds sender f := by
  intro hholds
  obtain ⟨ρ, hρ, -, -, -, hfree⟩ := h
  obtain rfl := List.singleton_inj.mp (List.append_cancel_left (hreplies.symm.trans hρ))
  have hfailed : (-1 : Int) ≠ 0 := by decide
  exact hfailed (hfree f rfl hholds).1

/-- What is asked of a request to free an instance. -/
theorem meets_free_iff (hs : s.Inv) :
    s.Meets ((s.handleFree type streamid sender f env).getD { s with crashed := true })
        ⟨sender, .free f, env⟩ ↔
      ¬ s.Holds sender f ∧ (type.Runs → env.shm ≠ none → f ∈ s.created ∧ f ∉ s.process) := by
  have hrefused := refused_reply sender hs (.free f)
  by_cases htype : type.Runs
  · cases hshm : env.shm with
    | none =>
      simp only [handleFree, if_pos htype, hshm, Option.getD_some]
      refine ⟨fun h ↦ ⟨h.not_holds rfl, fun _ hnot ↦ absurd rfl hnot⟩, fun h ↦ ?_⟩
      refine meets_of_refused hrefused fun g hg ↦ ?_
      cases hg
      exact h.1
    | some r =>
      by_cases hf : f ∈ s.created
      · by_cases hprocess : f ∈ s.process
        · obtain ⟨t, ht, -, hreplies, -, -, hrun⟩ :=
            handleFree_of_mem_process streamid sender hs htype hshm hprocess
          rw [ht, Option.getD_some]
          refine ⟨fun h ↦ ?_, fun h ↦ absurd hprocess (h.2 htype (Option.some_ne_none r)).2⟩
          have heq := (h.unchanged _ _ hreplies).runrefcnt f hf
          omega
        · obtain ⟨t, ht, -, hreplies, hrun, -⟩ :=
            handleFree_of_not_mem_process streamid sender hs htype hshm hprocess hf
          rw [ht, Option.getD_some]
          refine ⟨fun h ↦ ⟨fun hholds ↦ ?_, fun _ _ ↦ ⟨hf, hprocess⟩⟩, fun h ↦ ?_⟩
          · -- The second count of the instance is zero already.
            obtain ⟨ρ, -, -, -, -, hfree⟩ := h
            have hundone := (hfree f rfl hholds).2.runrefcnt
            have hzero := hs.runrefcnt_eq f hf hprocess
            omega
          · refine ⟨_, hreplies, rfl, rfl, fun hfailed ↦ absurd rfl hfailed, fun g hg hholds ↦ ?_⟩
            cases hg
            exact absurd hholds h.1
      · rw [handleFree_of_not_mem_created hs htype hshm hf, Option.getD_none]
        refine ⟨fun h ↦ ?_, fun h ↦ absurd (h.2 htype (Option.some_ne_none r)).1 hf⟩
        exact absurd h (not_meets_of_crashed rfl)
  · rw [handleFree, if_neg htype, Option.getD_some]
    refine ⟨fun h ↦ ⟨h.not_holds rfl, fun hruns ↦ absurd hruns htype⟩, fun h ↦ ?_⟩
    refine meets_of_refused hrefused fun g hg ↦ ?_
    cases hg
    exact h.1

/-- **A request is answered as it should be** just when it meets the condition. -/
theorem meets_iff (hs : s.Inv) (hstep : s.step type streamid a = some t) :
    s.Meets t a ↔ s.StepOk type streamid a := by
  obtain ⟨sender, request, env⟩ := a
  unfold step at hstep
  split_ifs at hstep with hguard
  obtain ⟨-, hfresh⟩ := not_or.mp hguard
  have hfresh := not_not.mp hfresh
  obtain rfl := Option.some.inj hstep
  cases request with
  | free f => exact meets_free_iff hs
  | alloc print reuse =>
    refine ⟨fun h htype ↦ allocOk_of_meets hs hfresh htype h, fun hok ↦ ?_⟩
    simp only [handle]
    by_cases htype : type.Runs
    · obtain ⟨t, ht, hcases⟩ := handleAlloc_cases sender hs hfresh htype (hok htype)
      rw [ht, Option.getD_some]
      rcases hcases with h | ⟨f, -, h⟩
      · exact meets_of_refused h fun g hg ↦ by cases hg
      · exact ⟨_, h.replies, rfl, rfl, fun hfailed ↦ absurd rfl hfailed, fun g hg ↦ by cases hg⟩
    · rw [handleAlloc, if_neg htype, Option.getD_some]
      exact meets_of_refused (refused_reply _ hs _) fun g hg ↦ by cases hg

end

variable {type streamid}

/-- **The life of an instance**, in every run whose steps meet `LifeOk`: each request is answered
once, an instance is in the list while more allocations than frees have succeeded, and it is
released when the last one is freed.  A step after such a run does what is asked of it, that a
failure leaves all as it was and a process can free what it holds, if and only if it meets `StepOk`,
which is the stronger condition. -/
theorem lifecycle {as : List (Action P R F)} {s : State P R F}
    (h : Lts.Run (step type streamid) (LifeOk type streamid) init as s) :
    s.replies.map (fun ρ ↦ (ρ.dest, ρ.request)) = as.map (fun a ↦ (a.sender, a.request)) ∧
      (∀ f, f ∈ s.created ↔ s.frees f < s.allocs f) ∧
      ∀ a t, s.step type streamid a = some t →
        (s.Meets t a ↔ s.StepOk type streamid a) ∧
          (s.StepOk type streamid a → s.LifeOk type streamid a) ∧
          (s.LifeOk type streamid a → ∀ f ∈ s.created,
            t.released.count f = s.released.count f + if t.frees f = t.allocs f then 1 else 0) := by
  have hcreated {s : State P R F} (hs : s.Inv) (f : F) : f ∈ s.created ↔
    s.frees f < s.allocs f := by
    constructor
    · intro hf
      have hpos := hs.refcnt_pos f hf
      have hadd := hs.refcnt_add f hf
      omega
    · intro hlt
      by_contra hf
      exact hlt.ne (hs.frees_eq f hf)
  have hinv : s.Inv := h.invariant (fun hi hok hstep ↦ (inv_step hi hok hstep).1) inv_init
  refine ⟨?_, hcreated hinv, fun a t hstep ↦
    ⟨meets_iff hinv hstep, lifeOk_of_stepOk, fun hok f hf ↦ ?_⟩⟩
  · clear hinv
    induction h with
    | refl => rfl
    | snoc h hok hstep ih =>
      have hinv := h.invariant (fun hi hok hstep ↦ (inv_step hi hok hstep).1) inv_init
      obtain ⟨ρ, hreplies, hdest, hrequest⟩ := (inv_step hinv hok hstep).2.1
      rw [hreplies, List.map_append, List.map_append, ih, List.map_singleton,
        List.map_singleton, hdest, hrequest]
  · obtain ⟨hinv', -, hreleased⟩ := inv_step hinv hok hstep
    rw [hreleased f hf]
    by_cases hmem : f ∈ t.created
    · rw [if_pos hmem, if_neg ((hcreated hinv' f).mp hmem).ne]
    · rw [if_neg hmem, if_pos (hinv'.frees_eq f hmem)]

/-! ## Two runs -/

/-- Nothing fails. -/
def plenty (alloc : NewInstance Nat) : Env Nat Nat :=
  ⟨alloc, some 5, 9, true, fun _ ↦ (none, .atomic), true, true, true⟩

/-- Process 0 has allocated instance 1. -/
def allocated : State Nat Nat Nat where
  created := [1]
  process := [1]
  refcnt := update (fun _ ↦ 0) 1 1
  runrefcnt := update (update (fun _ ↦ 0) 1 0) 1 1
  streams := some (StreamRegistry.State.add .init 5 1 fun _ ↦ (none, .atomic))
  released := []
  replies := [⟨0, .alloc false 0, some 1, 0⟩]
  crashed := false

theorem step_plenty :
    step .hfta id init (⟨0, .alloc false 0, plenty (.made 1 0)⟩ : Action Nat Nat Nat) =
      some allocated := rfl

theorem allocOk_plenty {s : State Nat Nat Nat} {alloc : NewInstance Nat} (reuse : Nat)
    (hnull : alloc ≠ .null) : AllocOk .hfta id s false reuse (plenty alloc) where
  notNull := fun _ ↦ hnull
  starts := fun _ _ h ↦ absurd h Bool.false_ne_true
  stale := fun _ _ h ↦ absurd h Bool.false_ne_true
  shm := fun _ _ _ ↦ ⟨5, rfl, fun _ _ _ _ ↦ rfl⟩

theorem addStreamid_plenty {s : State Nat Nat Nat} {streams : StreamRegistry.State Nat}
    (hs : s.streams = some streams) (alloc : NewInstance Nat) (r x : Nat) :
    s.addStreamid r x (plenty alloc) =
      some (0, { s with streams := some (streams.add r x (plenty alloc).junk) }) := by
  rw [addStreamid, hs]
  exact if_neg fun h ↦ h.2 rfl

/-- Process 0 allocates an instance, process 1 takes the same one, and process 0 asks for it to be
freed. -/
def sampleActions : List (Action Nat Nat Nat) :=
  [⟨0, .alloc false 0, plenty (.made 1 0)⟩, ⟨1, .alloc false 1, plenty .noFunction⟩,
    ⟨0, .free 1, plenty .noFunction⟩]

/-- The second allocation finds the instance in both lists. -/
theorem step_allocated :
    ∃ s, step .hfta id allocated ⟨1, .alloc false 1, plenty .noFunction⟩ = some s ∧
      s.created = [1] ∧ s.process = [1] ∧ s.crashed = false := by
  obtain ⟨streams, hstreams⟩ : ∃ streams, allocated.streams = some streams := ⟨_, rfl⟩
  have htaken : allocInstance allocated 1 (plenty .noFunction) =
      some (some 1, { allocated with refcnt := update allocated.refcnt 1 2 }) := rfl
  have hadd := addStreamid_plenty (s := { allocated with refcnt := update allocated.refcnt 1 2 })
    hstreams .noFunction 5 1
  simp only [step, handle, handleAlloc, htaken, handleAddStreamid]
  rw [if_neg (by decide), if_pos (by decide), if_neg (by decide)]
  simp only [plenty] at hadd ⊢
  simp only [id_eq, hadd]
  exact ⟨_, rfl, rfl, rfl, rfl⟩

/-- **Two processes share an instance.**  It is still there after one of them has asked for it to be
freed, whose request is refused. -/
theorem lifecycle_allocated :
    ∃ s : State Nat Nat Nat, Lts.Run (step .hfta id) (LifeOk .hfta id) init sampleActions s ∧
      1 ∈ s.created ∧ s.frees 1 < s.allocs 1 ∧
      s.replies.map (fun ρ ↦ (ρ.dest, ρ.request)) =
        [(0, .alloc false 0), (1, .alloc false 1), (0, .free 1)] := by
  obtain ⟨s, hstep, hcreated, hprocess, hcrashed⟩ := step_allocated
  have hrun : Lts.Run (step .hfta id) (LifeOk .hfta id) init _ s :=
    .snoc (.single (fun _ ↦ allocOk_plenty 0 fun h ↦ by cases h) step_plenty)
      (fun _ ↦ allocOk_plenty 1 fun h ↦ by cases h) hstep
  have hinv : s.Inv := hrun.invariant (fun hi hok hstep ↦ (inv_step hi hok hstep).1) inv_init
  have hmem : 1 ∈ s.created := by
    rw [hcreated]
    exact List.mem_singleton_self 1
  have hruns : 1 ∈ s.process := by
    rw [hprocess]
    exact List.mem_singleton_self 1
  have hshm : (plenty (.noFunction : NewInstance Nat)).shm = some 5 := rfl
  obtain ⟨t, ht, -, -, hcreated', -⟩ :=
    handleFree_of_mem_process id 0 hinv (show ProcessType.Runs .hfta by decide) hshm hruns
  have hstep' : step .hfta id s ⟨0, .free 1, plenty .noFunction⟩ = some t := by
    rw [step, hcrashed, if_neg (by simp [Fresh, plenty, NewInstance.made?]), handle]
    simp only [ht, Option.getD_some]
  have hrun' : Lts.Run (step .hfta id) (LifeOk .hfta id) init sampleActions t :=
    .snoc hrun (fun _ _ ↦ hmem) hstep'
  have hmem' : 1 ∈ t.created := hcreated' ▸ hmem
  obtain ⟨hreplies, hlt, -⟩ := lifecycle hrun'
  exact ⟨t, hrun', hmem', (hlt 1).mp hmem', hreplies⟩

/-- **An instance is not freed.**  The process that has allocated it sends the request, and the
answer is a failure; the instance does not run any more, and is still allocated. -/
theorem exists_not_meets :
    ∃ s t : State Nat Nat Nat, Lts.Run (step .hfta id) (fun _ _ ↦ True) init
        [⟨0, .alloc false 0, plenty (.made 1 0)⟩] s ∧
      step .hfta id s ⟨0, .free 1, plenty .noFunction⟩ = some t ∧ s.Holds 0 1 ∧
      t.replies = s.replies ++ [⟨0, .free 1, none, -1⟩] ∧ t.created = [1] ∧ t.process = [] ∧
      ¬ s.Meets t ⟨0, .free 1, plenty .noFunction⟩ := by
  have hstep : step .hfta id allocated ⟨0, .free 1, plenty .noFunction⟩ =
      some ((allocated.remove 1).2.reply 0 (.free 1) none (-1)) := rfl
  refine ⟨allocated, _, .single trivial step_plenty, hstep, by decide, rfl, rfl, rfl, fun h ↦ ?_⟩
  exact h.not_holds rfl (by decide)

end State

end Tigon.Gscphost.FtaInstance
