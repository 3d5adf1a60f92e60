import Tigon.Lib.Run
import Tigon.Lib.SlotTable

/-!
# The FTA registry of the clearinghouse

`clearinghouseregistries.c` keeps a table of the FTAs that can be looked up by name: basic FTAs,
whose stream id is zero, and instances of them.  Each call that enters one takes a free slot; a call
that takes one out has its `FTAID`.

`ftalookup_unregister_fta` does not compare the parts of the `FTAID` with those of the entries, it
looks whether the parts of the entries are zero.  So it takes out all entries without a zero part.

A `State` has the table together with what it stands for, which is what was registered under other
`FTAID`s than those that were unregistered since.

* `answers_lookup` — a lookup answers from what is in the table.
* `entries_unregister_iff` — **when the right entries are taken out**.
* `exact_of_unregisterOk` — in a run whose calls take out the right entries, the table is what it
  stands for, and lookups answer accordingly.
* `exists_other_lost` — two instances are registered, and one of them is unregistered.
-/

set_option autoImplicit false

namespace Tigon.Gscphost.FtaLookup

/-! ## The table -/

/-- `FTAID` -/
structure Ftaid where
  ip : Nat
  port : Nat
  index : Nat
  streamid : Nat
deriving DecidableEq, Repr

/-- `struct ftalookup`, in use. -/
structure Ftalookup where
  name : String
  ftaid : Ftaid
  reusable : Nat
  schema : String
deriving DecidableEq, Repr

/-- `STARTSZ` -/
def startSz : Nat := 1024

structure State where
  flookup : List (Option Ftalookup)
  /-- The number of basic FTAs registered, until all are. -/
  registeredFtas : Int
  /-- What the table stands for. -/
  registered : List Ftalookup

/-- What GSHUB does in the course of a call. -/
structure Hub where
  getHub : Bool
  setFtainstance : Bool
  setInitinstance : Bool

/-- The entry that is made for an FTA.  A basic one is not reused. -/
def entry (f : Ftaid) (name : String) (reusable : Nat) (schema : String) : Ftalookup :=
  ⟨name, f, if f.streamid = 0 then 0 else reusable, schema⟩

/-- The end of `ftalookup_register_fta`: the instance is announced when all of its `ftaNames` are
in. -/
def announce (ftaNames : Nat) (hub : Hub) (s : State) : State × Int :=
  if 0 ≤ s.registeredFtas ∧ (ftaNames : Int) ≤ s.registeredFtas then
    if hub.setInitinstance then ({ s with registeredFtas := -1 }, 0) else (s, -1)
  else (s, 0)

/-- `ftalookup_register_fta` -/
def registerFta (ftaNames : Nat) (s : State) (f : Ftaid) (name : String) (reusable : Nat)
    (schema : String) (hub : Hub) : State × Int :=
  if !hub.getHub then (s, -1)
  else if f.streamid ≠ 0 ∧ !hub.setFtainstance then
    ({ s with flookup := (SlotTable.reserve startSz s.flookup).1 }, -1)
  else
    announce ftaNames hub
      { flookup := SlotTable.insert startSz (entry f name reusable schema) s.flookup
        registeredFtas := if f.streamid = 0 ∧ 0 ≤ s.registeredFtas then s.registeredFtas + 1
          else s.registeredFtas
        registered := entry f name reusable schema :: s.registered }

/-- No part of the identifier is zero. -/
def NonZero (f : Ftaid) : Prop := f.streamid ≠ 0 ∧ f.ip ≠ 0 ∧ f.port ≠ 0 ∧ f.index ≠ 0

instance decidableNonZero (f : Ftaid) : Decidable (NonZero f) := inferInstanceAs (Decidable (_ ∧ _))

/-- `ftalookup_unregister_fta` -/
def unregisterFta (s : State) (f : Ftaid) : State where
  flookup := SlotTable.remove (fun e ↦ NonZero e.ftaid) s.flookup
  registeredFtas := s.registeredFtas
  registered := s.registered.filter fun e ↦ e.ftaid ≠ f

/-- The entry is a reusable instance of that name. -/
def Reusable (name : String) (e : Ftalookup) : Prop :=
  e.name = name ∧ 1 ≤ e.reusable ∧ e.ftaid.streamid ≠ 0

instance decidableReusable (name : String) (e : Ftalookup) : Decidable (Reusable name e) :=
  inferInstanceAs (Decidable (_ ∧ _))

/-- The entry is a basic FTA of that name. -/
def Basic (name : String) (e : Ftalookup) : Prop := e.name = name ∧ e.ftaid.streamid = 0

instance decidableBasic (name : String) (e : Ftalookup) : Decidable (Basic name e) :=
  inferInstanceAs (Decidable (_ ∧ _))

/-- The entry that a lookup comes to. -/
def lookupEntry (flookup : List (Option Ftalookup)) (name : String) (reuse : Nat) :
    Option Ftalookup :=
  (if reuse = 1 then SlotTable.find? (fun e ↦ Reusable name e) flookup else none).or
    (SlotTable.find? (fun e ↦ Basic name e) flookup)

/-- `ftalookup_lookup_fta_index` -/
def lookupFtaIndex (flookup : List (Option Ftalookup)) (name : String) (reuse : Nat) :
    Option (Ftaid × String) :=
  (lookupEntry flookup name reuse).map fun e ↦ (e.ftaid, e.schema)

/-! ## Runs -/

inductive Action
  | register (f : Ftaid) (name : String) (reusable : Nat) (schema : String) (hub : Hub)
  | unregister (f : Ftaid)
  | lookup (name : String) (reuse : Nat)

def init : State := ⟨[], 0, []⟩

def step (ftaNames : Nat) (s : State) : Action → Option State
  | .register f name reusable schema hub =>
    some (registerFta ftaNames s f name reusable schema hub).1
  | .unregister f => some (unregisterFta s f)
  | .lookup _ _ => some s

/-! ## What is to hold -/

/-- The answer to a lookup is an entry of the right kind, with its schema, and none only if there is
no such entry. -/
def Answers (registered : List Ftalookup) (name : String) (reuse : Nat) :
    Option (Ftaid × String) → Prop
  | some (ftaid, schema) => ∃ e ∈ registered, e.ftaid = ftaid ∧ e.schema = schema ∧
      ((reuse = 1 ∧ ∃ e ∈ registered, Reusable name e) → Reusable name e) ∧
      (¬ (reuse = 1 ∧ ∃ e ∈ registered, Reusable name e) → Basic name e)
  | none => ∀ e ∈ registered, ¬ Basic name e ∧ (reuse = 1 → ¬ Reusable name e)

/-- The table has what is registered, and a look-up answers as a search through that would. -/
structure Exact (s : State) : Prop where
  entries : s.flookup.reduceOption.Perm s.registered
  lookup : ∀ name reuse, Answers s.registered name reuse (lookupFtaIndex s.flookup name reuse)

/-- The `FTAID`s without a zero part are those equal to the one that is unregistered. -/
def UnregisterOk (s : State) : Action → Prop
  | .unregister f => ∀ e ∈ s.registered, NonZero e.ftaid ↔ e.ftaid = f
  | _ => True

instance decidableUnregisterOk (s : State) (a : Action) : Decidable (UnregisterOk s a) :=
  match a with
  | .unregister _ => inferInstanceAs (Decidable (∀ e ∈ s.registered, _))
  | .register _ _ _ _ _ => inferInstanceAs (Decidable True)
  | .lookup _ _ => inferInstanceAs (Decidable True)

section

variable {s t : State} {ftaNames : Nat} {f : Ftaid} {name schema : String}
  {reusable : Nat} {hub : Hub}

/-! ## Lookups -/

/-- **A lookup answers from what is in the table.** -/
theorem answers_lookup {flookup : List (Option Ftalookup)} {registered : List Ftalookup}
    (h : flookup.reduceOption.Perm registered) (name : String) (reuse : Nat) :
    Answers registered name reuse (lookupFtaIndex flookup name reuse) := by
  have hbasic : ∀ e, SlotTable.find? (fun e ↦ Basic name e) flookup = some e → e ∈ registered ∧
    Basic name e := by
    intro e he
    rw [SlotTable.find?_eq] at he
    exact ⟨h.mem_iff.mp (List.mem_of_find?_eq_some he), by simpa using List.find?_some he⟩
  have hnobasic : SlotTable.find? (fun e ↦ Basic name e) flookup = none → ∀ e ∈ registered,
    ¬ Basic name e := by
    intro hnone e he hb
    rw [SlotTable.find?_eq, List.find?_eq_none] at hnone
    exact hnone e (h.mem_iff.mpr he) (decide_eq_true hb)
  -- The lookup comes to a basic FTA, since no instance is to be found.
  have hdefault (hno : ¬ (reuse = 1 ∧ ∃ e ∈ registered, Reusable name e)) :
      Answers registered name reuse ((SlotTable.find? (fun e ↦ Basic name e) flookup).map fun e ↦
        (e.ftaid, e.schema)) := by
    cases hfind : SlotTable.find? (fun e ↦ Basic name e) flookup with
    | none => exact fun e he ↦ ⟨hnobasic hfind e he, fun hreuse hr ↦ hno ⟨hreuse, e, he, hr⟩⟩
    | some e =>
      obtain ⟨hmem, hb⟩ := hbasic e hfind
      exact ⟨e, hmem, rfl, rfl, fun hyes ↦ absurd hyes hno, fun _ ↦ hb⟩
  rw [lookupFtaIndex, lookupEntry]
  by_cases hreuse : reuse = 1
  · rw [if_pos hreuse]
    cases hfind : SlotTable.find? (fun e ↦ Reusable name e) flookup with
    | none =>
      refine hdefault fun ⟨_, e, he, hr⟩ ↦ ?_
      rw [SlotTable.find?_eq, List.find?_eq_none] at hfind
      exact hfind e (h.mem_iff.mpr he) (decide_eq_true hr)
    | some e =>
      rw [SlotTable.find?_eq] at hfind
      have hmem : e ∈ registered := h.mem_iff.mp (List.mem_of_find?_eq_some hfind)
      have hr : Reusable name e := by simpa using List.find?_some hfind
      exact ⟨e, hmem, rfl, rfl, fun _ ↦ hr, fun hno ↦ absurd ⟨hreuse, e, hmem, hr⟩ hno⟩
  · rw [if_neg hreuse]
    exact hdefault fun hyes ↦ hreuse hyes.1

/-! ## What is registered -/

theorem entries_announce (h : s.flookup.reduceOption.Perm s.registered) :
    (announce ftaNames hub s).1.flookup.reduceOption.Perm
    (announce ftaNames hub s).1.registered := by
  unfold announce
  split
  · split
    · exact h
    · exact h
  · exact h

theorem entries_registerFta (h : s.flookup.reduceOption.Perm s.registered) :
    (registerFta ftaNames s f name reusable schema hub).1.flookup.reduceOption.Perm
      (registerFta ftaNames s f name reusable schema hub).1.registered := by
  have hpos : 0 < startSz := by decide
  unfold registerFta
  split
  · exact h
  · split
    · exact (List.Perm.of_eq (SlotTable.reserve_spec hpos s.flookup).2).trans h
    · exact entries_announce ((SlotTable.reduceOption_insert hpos).trans (h.cons _))

/-- **When the right entries are taken out.** -/
theorem entries_unregisterFta_iff (h : s.flookup.reduceOption.Perm s.registered) :
    (unregisterFta s f).flookup.reduceOption.Perm (unregisterFta s f).registered ↔
      UnregisterOk s (.unregister f) := by
  have hremove : (unregisterFta s f).flookup.reduceOption.Perm
      (s.registered.filter fun e ↦ !decide (NonZero e.ftaid)) := by
    rw [unregisterFta, SlotTable.reduceOption_remove]
    exact h.filter _
  rw [hremove.congr_left]
  constructor
  · intro hperm e he
    have hmem := hperm.mem_iff (a := e)
    simp only [unregisterFta, List.mem_filter, he, true_and, Bool.not_eq_true',
      decide_eq_false_iff_not, decide_eq_true_eq] at hmem
    exact not_iff_not.mp hmem
  · intro hok
    refine List.Perm.of_eq (List.filter_congr fun e he ↦ ?_)
    rw [Bool.eq_iff_iff, Bool.not_eq_true', decide_eq_false_iff_not, decide_eq_true_iff]
    exact not_congr (hok e he)

theorem exact_of_entries (h : s.flookup.reduceOption.Perm s.registered) : Exact s :=
  ⟨h, answers_lookup h⟩

theorem exact_step {a : Action} (h : Exact s) (hok : UnregisterOk s a)
    (hstep : step ftaNames s a = some t) : Exact t := by
  cases a with
  | register f name reusable schema hub =>
    obtain rfl := Option.some.inj hstep
    exact exact_of_entries (entries_registerFta h.entries)
  | unregister f =>
    obtain rfl := Option.some.inj hstep
    exact exact_of_entries ((entries_unregisterFta_iff h.entries).mpr hok)
  | lookup name reuse =>
    obtain rfl := Option.some.inj hstep
    exact h

end

/-- **The registry is what it stands for**, if each call that unregisters an `FTAID` does so when
the entries without a zero part are those of this `FTAID`. -/
theorem exact_of_unregisterOk (ftaNames : Nat) {as : List Action} {s : State}
    (h : Lts.Run (step ftaNames) UnregisterOk init as s) : Exact s :=
  h.invariant (fun hi hok hstep ↦ exact_step hi hok hstep) (exact_of_entries (.refl _))

/-! ## Two runs -/

def hubOk : Hub := ⟨true, true, true⟩

/-- A basic FTA and an instance of it are registered, and the instance is unregistered. -/
def oneInstance : List Action :=
  [.register ⟨1, 2, 3, 0⟩ "q" 0 "s" hubOk, .register ⟨1, 2, 3, 4⟩ "q" 1 "s" hubOk,
    .unregister ⟨1, 2, 3, 4⟩]

theorem exact_oneInstance : ∃ s, Lts.Run (step 1) UnregisterOk init oneInstance s ∧
    s.registered = [⟨"q", ⟨1, 2, 3, 0⟩, 0, "s"⟩] ∧ Exact s := by
  obtain ⟨s, hrun, hs⟩ := Lts.exists_run_of_exec (step 1) UnregisterOk init oneInstance
    (fun s ↦ s.registered = [⟨"q", ⟨1, 2, 3, 0⟩, 0, "s"⟩]) (by decide +kernel)
  exact ⟨s, hrun, hs, exact_of_unregisterOk 1 hrun⟩

/-- Two instances are registered, and the first of them is unregistered. -/
def twoInstances : List Action :=
  [.register ⟨1, 2, 3, 4⟩ "q" 1 "s" hubOk, .register ⟨1, 2, 3, 5⟩ "r" 1 "s" hubOk,
    .unregister ⟨1, 2, 3, 4⟩]

/-- **The second instance is gone too.** -/
theorem exists_other_lost : ∃ s, Lts.Run (step 1) (fun _ _ ↦ True) init twoInstances s ∧
    (s.registered = [⟨"r", ⟨1, 2, 3, 5⟩, 1, "s"⟩] ∧ lookupFtaIndex s.flookup "r" 1 = none) ∧
      ¬ Exact s := by
  obtain ⟨s, hrun, hs, hlookup⟩ := Lts.exists_run_of_exec (step 1) (fun _ _ ↦ True)
    init twoInstances (fun s ↦ s.registered = [⟨"r", ⟨1, 2, 3, 5⟩, 1, "s"⟩] ∧
      lookupFtaIndex s.flookup "r" 1 = none) (by decide +kernel)
  refine ⟨s, hrun, ⟨hs, hlookup⟩, fun h ↦ ?_⟩
  have hanswer := h.lookup "r" 1
  rw [hlookup, hs] at hanswer
  exact (hanswer _ List.mem_cons_self).2 rfl (by decide)

end Tigon.Gscphost.FtaLookup
