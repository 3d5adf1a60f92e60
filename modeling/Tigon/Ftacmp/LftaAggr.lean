import Mathlib.Algebra.BigOperators.Group.Finset.Basic
import Mathlib.Algebra.Order.BigOperators.Group.Finset
import Mathlib.Data.Multiset.AddSub
import Mathlib.Logic.Function.Basic
import Mathlib.Tactic

/-!
# The aggregation table of a low-level query

A low-level query keeps its groups in a table of a fixed size.  The entry of a slot in
`aggr_table_hashmap` has bits of the hash value of the group, a bit for a slot that is filled, and
the last two bits of the generation the group is of.  A tuple is looked for in five slots; when its
group is in none of them, the best one of these is taken, and what is in it is put out.  When the
temporal group-by variables change, the generation is advanced, which makes all groups old, and
`flush_pos` goes to the first slot: old groups are put out from there on, one with every second
packet, and all that are left before the generation is advanced again.

A group that is put out leaves the table before anybody knows whether there is space for its tuple.
Where there is none the group is gone, and only counted; so `outtupledrop` has these groups here.

* `Query`, `Fta` — what the code is generated from, and the fields of the operator.
* `flushOld`, `scan`, `acceptPacket`, `clockFta`, `controlFta` — the functions.
* `Move`, `Moves` — what the functions do to the table.
* `Inv` — a group is of the generation and has the last temporal values, or `flush_pos` has not got
  to it.
* `Kept` — groups that were put out and groups in the table are made of the tuples that were
  accepted.
* `counts_every_tuple_once` — **each tuple that was accepted is counted in one row.**
* `rows_in_order` — **rows are late by one change of the temporal values at most.**
-/

set_option autoImplicit false

namespace Tigon.Ftacmp.LftaAggr

/-! ## The fields -/

/-- `SLOT_FILLED` -/
def slotFilled : BitVec 32 := 0x04#32

/-- `SLOT_GEN_BITS` -/
def slotGenBits : BitVec 32 := 0x03#32

/-- `SLOT_HASH_BITS` -/
def slotHashBits : BitVec 32 := 0xfffffff8#32

/-- `DEFAULT_LFTA_HASH_TABLE_SIZE` -/
def defaultLftaHashTableSize : Nat := 4096

/-- The bits of a number, and how many of them are ones. -/
def countBits : Nat → Nat → Nat × Nat
  | 0, _ => (0, 0)
  | fuel + 1, n =>
    if n = 0 then (0, 0)
    else
      let (bits, nones) := countBits fuel (n / 2)
      (bits + 1, nones + n % 2)

/-- The number of slots: what the query has for `aggregate_slots` is made a power of two. -/
def slots (aggregateSlots : Int) (singleGroup : Bool) : Nat :=
  if aggregateSlots ≤ 0 then if singleGroup then 2 else defaultLftaHashTableSize
  else
    let (bits, nones) := countBits 32 aggregateSlots.toNat
    if nones = 1 then 2 ^ bits / 2 else 2 ^ bits

/-- Comparison of the values of temporal group-by variables, and whether their differences add up
to 0, in the arithmetic of their types. -/
structure TemporalOps (β : Type) where
  gt : β → β → Bool
  diffIsZero : List β → List β → Bool
  gt_self : ∀ v, gt v v = false
  diffIsZero_self : ∀ vs, diffIsZero vs vs = true

/-- A group of the table. -/
structure Group (β α : Type) where
  gbVar : List β
  aggrVar : α

/-- What the code is generated from. -/
structure Query (τ β α : Type) where
  /-- the values of the group-by variables -/
  gbAttr : τ → List β
  isTemporal : List Bool
  ops : TemporalOps β
  /-- `hash_nums` and `lfta_…_to_hash`, by the group-by variable -/
  hashNums : Nat → BitVec 64
  toHash : Nat → β → BitVec 64
  /-- `generate_aggr_init` and `generate_aggr_update` -/
  init : τ → α
  update : α → τ → α
  flushme : α → Bool
  /-- the group is not put out, as an aggregate or a partial function of the select list says -/
  bailout : Group β α → Bool
  /-- the columns that are read before the predicates are tested are there -/
  unpacks : τ → Bool
  /-- the predicates hold, and the other columns are there -/
  accepts : τ → Bool
  realTime : Bool
  lftaDisorder : Int
  slowFlush : Int
  aggregateSlots : Int
  /-- there is space for a tuple, by how many were tried before -/
  allocates : Nat → Bool

/-- What is put out: rows for groups, and tuples without one. -/
inductive Posted (β α : Type)
  | regular (group : Group β α)
  | empty
  | tempStatus
  | eof

def Posted.row? {β α : Type} : Posted β α → Option (Group β α)
  | .regular group => some group
  | _ => none

/-- The fields of the operator. -/
structure Fta (β α : Type) where
  aggrTable : Nat → Group β α
  aggrTableHashmap : Nat → BitVec 32
  nAggrs : Int
  generation : BitVec 32
  flushPos : Nat
  flushCtr : Nat
  lastGb : List β
  posted : List (Posted β α)
  outtupledrop : List (Posted β α)

variable {τ β α : Type}

/-- The rows that were put out. -/
def Fta.rows (t : Fta β α) : List (Group β α) :=
  t.posted.filterMap Posted.row?

/-- The groups for which there was no space. -/
def Fta.dropped (t : Fta β α) : List (Group β α) :=
  t.outtupledrop.filterMap Posted.row?

def Fta.isFilled (t : Fta β α) (i : Nat) : Bool :=
  t.aggrTableHashmap i &&& slotFilled != 0

def Fta.gen (t : Fta β α) (i : Nat) : BitVec 32 :=
  t.aggrTableHashmap i &&& slotGenBits

def Fta.genVal (t : Fta β α) : BitVec 32 :=
  t.generation &&& slotGenBits

namespace Query

/-- Without a group-by variable that is not temporal there is a single group. -/
def maxAggrs (q : Query τ β α) : Nat :=
  slots q.aggregateSlots (q.isTemporal.all id)

/-- The values of the temporal group-by variables. -/
def temporal (q : Query τ β α) (gb : List β) : List β :=
  (gb.zip q.isTemporal).filterMap fun (v, isTemporal) ↦ if isTemporal then some v else none

def hashval (q : Query τ β α) (gb : List β) : BitVec 64 :=
  (gb.mapIdx fun g v ↦ q.hashNums g * q.toHash g v).foldl (· ^^^ ·) 0

def hash2 (q : Query τ β α) (gb : List β) : BitVec 32 :=
  ((q.hashval gb * q.hashNums gb.length) >>> 32).setWidth 32 &&& slotHashBits

def probe (q : Query τ β α) (gb : List β) : Nat :=
  (q.hashval gb >>> 32).toNat &&& (q.maxAggrs - 1)

/-! ## Flushing -/

/-- There is space for the next tuple. -/
def fits (q : Query τ β α) (t : Fta β α) : Bool :=
  q.allocates (t.posted.length + t.outtupledrop.length)

/-- `allocate_tuple` and `post_tuple` -/
def post (q : Query τ β α) (t : Fta β α) (x : Posted β α) : Fta β α :=
  { t with
    posted := if q.fits t then t.posted ++ [x] else t.posted
    outtupledrop := if q.fits t then t.outtupledrop else t.outtupledrop ++ [x] }

/-- `generate_tuple_from_aggr` -/
def tupleFromAggr (q : Query τ β α) (t : Fta β α) (i : Nat) : Fta β α :=
  let t' := q.post t (.regular (t.aggrTable i))
  { t with
    posted := if q.bailout (t.aggrTable i) then t.posted else t'.posted
    outtupledrop := if q.bailout (t.aggrTable i) then t.outtupledrop else t'.outtupledrop
    nAggrs := t.nAggrs - 1 }

/-- A group that is put out, with the entry that its slot gets. -/
def evict (q : Query τ β α) (t : Fta β α) (i : Nat) (entry : BitVec 32) : Fta β α :=
  { q.tupleFromAggr t i with aggrTableHashmap := Function.update t.aggrTableHashmap i entry }

/-- The test of `fta_aggr_flush_old`. -/
def isOld (q : Query τ β α) (t : Fta β α) (i : Nat) : Bool :=
  t.isFilled i && (t.gen i != t.genVal ||
    (t.lastGb.zip (q.temporal (t.aggrTable i).gbVar)).any fun (lastGb, gbVar) ↦
      q.ops.gt lastGb gbVar)

/-- The loop of `fta_aggr_flush_old` over the slots that are left, with the slot where it stops. -/
def flushLoop (q : Query τ β α) : Nat → Fta β α → Nat → Nat → Fta β α × Nat
  | 0, t, i, _ => (t, i)
  | left + 1, t, i, nflush =>
    if t.nAggrs ≠ 0 ∧ 0 < nflush then
      if q.isOld t i then flushLoop q left (q.evict t i 0) (i + 1) (nflush - 1)
      else flushLoop q left t (i + 1) nflush
    else (t, i)

/-- `fta_aggr_flush_old` -/
def flushOld (q : Query τ β α) (t : Fta β α) (nflush : Nat) : Fta β α :=
  let (t, i) := q.flushLoop (q.maxAggrs - t.flushPos) t t.flushPos nflush
  { t with flushPos := if t.nAggrs = 0 then q.maxAggrs else i }

/-- All groups are made old. -/
def newGeneration (t : Fta β α) (lastGb : List β) : Fta β α :=
  { t with generation := t.generation + 1, flushPos := 0, lastGb := lastGb }

/-- The groups that are old, and then all others. -/
def flushAll (q : Query τ β α) (t : Fta β α) : Fta β α :=
  let t := q.flushOld t q.maxAggrs
  q.flushOld (newGeneration t t.lastGb) q.maxAggrs

/-- The flush when the temporal group-by variables have changed. -/
def temporalFlush [DecidableEq β] (q : Query τ β α) (t : Fta β α) (gb : List β) : Fta β α :=
  if t.lastGb = gb then t
  else newGeneration (if t.flushPos < q.maxAggrs then q.flushOld t q.maxAggrs else t) gb

/-- An old group is put out. -/
def flushOne (q : Query τ β α) (t : Fta β α) : Fta β α :=
  if t.flushPos < q.maxAggrs then q.flushOld t 1 else t

/-- The slow flush with a packet. -/
def slowFlushOld (q : Query τ β α) (t : Fta β α) : Fta β α :=
  let nSlowFlush := if q.slowFlush ≤ 0 then 2 else q.slowFlush
  if 1 < nSlowFlush then
    if nSlowFlush ≤ t.flushCtr + 1 then q.flushOne { t with flushCtr := 0 }
    else { t with flushCtr := t.flushCtr + 1 }
  else q.flushOne t

/-! ## Packets -/

/-- Where the scan for a group is. -/
structure Scan where
  probe : Nat
  bestSlot : Nat
  matchFound : Bool

/-- The slot has the group. -/
def isMatch [DecidableEq β] (q : Query τ β α) (t : Fta β α) (gb : List β) (i : Nat) : Bool :=
  t.isFilled i && t.gen i == t.genVal && t.aggrTableHashmap i &&& slotHashBits == q.hash2 gb &&
    (t.aggrTable i).gbVar == gb

/-- A slot is tested for the group, and rated. -/
def scanSlot [DecidableEq β] (q : Query τ β α) (t : Fta β α) (gb : List β) (s : Scan) : Scan :=
  let s := if q.isMatch t gb s.probe then { s with bestSlot := s.probe, matchFound := true } else s
  let bestSlot :=
    if t.isFilled s.bestSlot then
      if !t.isFilled s.probe then s.probe else s.bestSlot
    else if t.gen s.bestSlot == t.genVal && t.gen s.probe != t.genVal then s.probe else s.bestSlot
  { s with probe := if q.maxAggrs ≤ s.probe + 1 then 0 else s.probe + 1, bestSlot := bestSlot }

/-- Slots are tested until the group is found. -/
def scan [DecidableEq β] (q : Query τ β α) (t : Fta β α) (gb : List β) : Nat → Scan → Scan
  | 0, s => s
  | n + 1, s => if s.matchFound then s else scan q t gb n (q.scanSlot t gb s)

/-- `generate_gb_update` -/
def gbUpdate (q : Query τ β α) (t : Fta β α) (i : Nat) (p : τ) : Fta β α :=
  let aggrVar := q.update (t.aggrTable i).aggrVar p
  let t := { t with aggrTable := Function.update t.aggrTable i { t.aggrTable i with
    aggrVar := aggrVar } }
  if q.flushme aggrVar then
    let t := q.flushOld t q.maxAggrs
    q.evict t i (t.aggrTableHashmap i &&& ~~~slotFilled)
  else t

/-- `generate_init_group` -/
def initGroup (q : Query τ β α) (t : Fta β α) (i : Nat) (p : τ) : Fta β α :=
  { t with
    aggrTableHashmap :=
      Function.update t.aggrTableHashmap i (q.hash2 (q.gbAttr p) ||| slotFilled ||| t.genVal)
    aggrTable := Function.update t.aggrTable i ⟨q.gbAttr p, q.init p⟩
    nAggrs := t.nAggrs + 1 }

/-- The differences of the temporal group-by variables add up to 0. -/
def sameTemporal (q : Query τ β α) (gb gb' : List β) : Bool :=
  q.ops.diffIsZero (q.temporal gb) (q.temporal gb')

/-- `generate_aggr_accept_body` -/
def acceptBody [DecidableEq β] (q : Query τ β α) (t : Fta β α) (p : τ) : Fta β α :=
  let gb := q.gbAttr p
  let s := q.scan t gb 5 ⟨q.probe gb, q.probe gb, false⟩
  let i := s.bestSlot
  if s.matchFound then q.gbUpdate t i p
  else if t.isFilled i then
    let t :=
      if q.lftaDisorder ≤ 1 ∧ t.gen i = t.genVal ∧ q.sameTemporal gb (t.aggrTable i).gbVar then
        q.flushOld t q.maxAggrs
      else t
    q.initGroup (q.tupleFromAggr t i) i p
  else q.initGroup t i p

/-- `accept_packet_…`: a query in real time looks for a change of the temporal values before its
predicates. -/
def acceptPacket [DecidableEq β] (q : Query τ β α) (t : Fta β α) (p : τ) : Fta β α :=
  let t := q.slowFlushOld t
  if !q.unpacks p then t
  else
    let t := if q.realTime then q.temporalFlush t (q.temporal (q.gbAttr p)) else t
    if !q.accepts p then t
    else
      let t := if !q.realTime then q.temporalFlush t (q.temporal (q.gbAttr p)) else t
      q.acceptBody t p

/-! ## Runs -/

/-- What an operator is called for. -/
inductive Event (τ β : Type)
  | acceptPacket (p : τ)
  /-- with the temporal group-by variables for the time -/
  | clock (timeAdvanced : Bool) (gb : List β)
  | flush
  | fileDone
  | free

/-- `accept_packet_…`, `clock_fta_…`, `control_fta_…` and `free_fta_…` -/
def step [DecidableEq β] (q : Query τ β α) (t : Fta β α) : Event τ β → Fta β α
  | .acceptPacket p => q.acceptPacket t p
  | .clock timeAdvanced gb => q.post (if timeAdvanced then q.temporalFlush t gb else t) .tempStatus
  | .flush => if t.nAggrs = 0 then q.post t .empty else q.flushAll t
  | .fileDone => q.post (if t.nAggrs = 0 then t else q.flushAll t) .eof
  | .free => q.flushAll t

def run [DecidableEq β] (q : Query τ β α) (t : Fta β α) (es : List (Event τ β)) : Fta β α :=
  es.foldl q.step t

/-- The fields at first; those of a group are not set. -/
def ftaAlloc (q : Query τ β α) (aggrTable : Nat → Group β α) (minGb : List β) : Fta β α :=
  ⟨aggrTable, fun _ ↦ 0, 0, 0, q.maxAggrs, 0, minGb, [], []⟩

end Query

/-! ## Moves -/

/-- A slot with a group of an older generation. -/
def Fta.IsLate (t : Fta β α) (i : Nat) : Prop :=
  t.isFilled i = true ∧ t.gen i ≠ t.genVal

/-- All groups are of the generation. -/
def Query.AllNew (q : Query τ β α) (t : Fta β α) : Prop :=
  ∀ i < q.maxAggrs, ¬t.IsLate i

open Query in
/-- What happens to the table, with the tuples that are accepted; `R` says how the temporal values
change. -/
inductive Move (q : Query τ β α) (R : List β → List β → Prop) : Fta β α → List τ → Fta β α → Prop
  | evict (t : Fta β α) (i : Nat) (entry : BitVec 32) (hi : i < q.maxAggrs)
      (hfilled : t.isFilled i = true) (hentry : entry &&& slotFilled = 0)
      (hlate : 1 < q.lftaDisorder ∨ q.AllNew t ∨ t.IsLate i) :
      Move q R t [] (q.evict t i entry)
  | init (t : Fta β α) (i : Nat) (p : τ) (hi : i < q.maxAggrs) (hfilled : t.isFilled i = false)
      (hgb : q.temporal (q.gbAttr p) = t.lastGb) : Move q R t [p] (q.initGroup t i p)
  | update (t : Fta β α) (i : Nat) (p : τ) (hi : i < q.maxAggrs) (hfilled : t.isFilled i = true)
      (hgb : (t.aggrTable i).gbVar = q.gbAttr p) (htemporal : q.temporal (q.gbAttr p) = t.lastGb) :
      Move q R t [p] { t with
        aggrTable := Function.update t.aggrTable i
          { t.aggrTable i with aggrVar := q.update (t.aggrTable i).aggrVar p } }
  | flushPos (t : Fta β α) (i : Nat) (hi : i ≤ q.maxAggrs)
      (hlate : ∀ j < q.maxAggrs, t.IsLate j → i ≤ j) : Move q R t [] { t with flushPos := i }
  | newGeneration (t : Fta β α) (lastGb : List β) (hnew : q.AllNew t) (hgb : R t.lastGb lastGb) :
      Move q R t [] (newGeneration t lastGb)
  | flushCtr (t : Fta β α) (n : Nat) : Move q R t [] { t with flushCtr := n }
  | post (t : Fta β α) (x : Posted β α) (hx : x.row? = none) : Move q R t [] (q.post t x)

/-- Moves one after another. -/
inductive Moves (q : Query τ β α) (R : List β → List β → Prop) : Fta β α → List τ → Fta β α → Prop
  | refl (t : Fta β α) : Moves q R t [] t
  | tail {t t' t'' : Fta β α} {ps ps' : List τ} (hmoves : Moves q R t ps t')
      (hmove : Move q R t' ps' t'') : Moves q R t (ps ++ ps') t''

section Moves

variable {q : Query τ β α} {R : List β → List β → Prop}

theorem Move.moves {t t' : Fta β α} {ps : List τ} (h : Move q R t ps t') : Moves q R t ps t' :=
  (Moves.refl t).tail h

theorem Moves.trans {t t' t'' : Fta β α} {ps ps' : List τ} (h : Moves q R t ps t')
    (h' : Moves q R t' ps' t'') : Moves q R t (ps ++ ps') t'' := by
  induction h' with
  | refl =>
    rw [List.append_nil]
    exact h
  | tail _ hmove ih =>
    rw [← List.append_assoc]
    exact ih.tail hmove

end Moves

/-! ## Entries of the table -/

section Entries

theorem countBits_pos {fuel n : Nat} (hfuel : 0 < fuel) (hn : 0 < n) :
    0 < (countBits fuel n).1 := by
  obtain ⟨fuel, rfl⟩ := Nat.exists_eq_add_one_of_ne_zero hfuel.ne'
  rw [countBits, if_neg hn.ne']
  exact Nat.succ_pos _

theorem slots_pos (aggregateSlots : Int) (singleGroup : Bool) :
    0 < slots aggregateSlots singleGroup := by
  rw [slots]
  split_ifs with hle hsingle
  · decide
  · decide
  · have hpos : 0 < (countBits 32 aggregateSlots.toNat).1 := countBits_pos (by decide) (by omega)
    obtain ⟨bits, hbits⟩ := Nat.exists_eq_add_one_of_ne_zero hpos.ne'
    simp only [hbits]
    split_ifs
    · rw [Nat.pow_succ, Nat.mul_div_cancel _ (by decide)]
      exact Nat.two_pow_pos bits
    · exact Nat.two_pow_pos _

theorem Query.maxAggrs_pos (q : Query τ β α) : 0 < q.maxAggrs :=
  slots_pos _ _

theorem Query.probe_lt (q : Query τ β α) (gb : List β) : q.probe gb < q.maxAggrs := by
  have hle : q.probe gb ≤ q.maxAggrs - 1 := Nat.and_le_right
  have hpos := q.maxAggrs_pos
  omega

/-- The entry of a new group. -/
theorem filled_initEntry (q : Query τ β α) (gb : List β) (g : BitVec 32) :
    (q.hash2 gb ||| slotFilled ||| g &&& slotGenBits) &&& slotFilled ≠ 0 ∧
      (q.hash2 gb ||| slotFilled ||| g &&& slotGenBits) &&& slotGenBits = g &&& slotGenBits := by
  have hhash (b : BitVec 32) (hb : slotHashBits &&& b = 0) : q.hash2 gb &&& b = 0 := by
    rw [Query.hash2, BitVec.and_assoc, hb]
    exact BitVec.and_zero
  rw [BitVec.and_or_distrib_right, BitVec.and_or_distrib_right, BitVec.and_or_distrib_right,
    BitVec.and_or_distrib_right, hhash slotFilled (by decide), hhash slotGenBits (by decide),
      BitVec.and_assoc,
    BitVec.and_assoc, show slotGenBits &&& slotFilled = 0 from by decide,
    show slotFilled &&& slotFilled = slotFilled from by decide,
    show slotFilled &&& slotGenBits = 0 from by
      decide, show slotGenBits &&& slotGenBits = slotGenBits from by decide]
  simp [slotFilled]

theorem genVal_succ_ne (g : BitVec 32) : g + 1 &&& slotGenBits ≠ g &&& slotGenBits := by
  intro h
  have h := congrArg BitVec.toNat h
  have hmod (n : Nat) : n &&& 3 = n % 4 := Nat.and_two_pow_sub_one_eq_mod n 2
  rw [BitVec.toNat_and, BitVec.toNat_and, show slotGenBits.toNat = 3 from rfl, hmod, hmod,
    BitVec.toNat_add, show (1 : BitVec 32).toNat = 1 from rfl] at h
  omega

end Entries

/-! ## The invariant -/

/-- The slots with a group. -/
def Query.filled (q : Query τ β α) (t : Fta β α) : Finset Nat :=
  {i ∈ Finset.range q.maxAggrs | t.isFilled i = true}

/-- A group is of an older generation, and still to be flushed, or has the last temporal values. -/
structure Inv (q : Query τ β α) (t : Fta β α) : Prop where
  flushPos_le : t.flushPos ≤ q.maxAggrs
  nAggrs_eq : t.nAggrs = (q.filled t).card
  slot : ∀ i ∈ q.filled t, t.gen i ≠ t.genVal ∧ t.flushPos ≤ i ∨
    t.gen i = t.genVal ∧ q.temporal (t.aggrTable i).gbVar = t.lastGb

section Inv

variable {q : Query τ β α} {R : List β → List β → Prop} {t t' : Fta β α}

theorem Query.mem_filled {i : Nat} : i ∈ q.filled t ↔ i < q.maxAggrs ∧ t.isFilled i = true := by
  rw [Query.filled, Finset.mem_filter, Finset.mem_range]

theorem isFilled_evict (i j : Nat) {entry : BitVec 32} (hentry : entry &&& slotFilled = 0) :
    (q.evict t i entry).isFilled j = true ↔ j ≠ i ∧ t.isFilled j = true := by
  by_cases hji : j = i
  · subst hji
    simp [Query.evict, Fta.isFilled, hentry]
  · simp [Query.evict, Fta.isFilled, hji]

theorem filled_evict (i : Nat) {entry : BitVec 32} (hentry : entry &&& slotFilled = 0) :
    q.filled (q.evict t i entry) = (q.filled t).erase i := by
  ext j
  rw [Query.mem_filled, isFilled_evict i j hentry, Finset.mem_erase, Query.mem_filled]
  tauto

theorem isFilled_initGroup (i j : Nat) (p : τ) :
    (q.initGroup t i p).isFilled j = true ↔ j = i ∨ t.isFilled j = true := by
  by_cases hji : j = i
  · subst hji
    simpa [Query.initGroup, Fta.isFilled, Fta.genVal]
      using (filled_initEntry q (q.gbAttr p) t.generation).1
  · simp [Query.initGroup, Fta.isFilled, hji]

theorem filled_initGroup {i : Nat} (hi : i < q.maxAggrs) (p : τ) :
    q.filled (q.initGroup t i p) = insert i (q.filled t) := by
  ext j
  rw [Query.mem_filled, isFilled_initGroup, Finset.mem_insert, Query.mem_filled]
  constructor
  · rintro ⟨hj, rfl | hfilled⟩
    · exact Or.inl rfl
    · exact Or.inr ⟨hj, hfilled⟩
  · rintro (rfl | ⟨hj, hfilled⟩)
    · exact ⟨hi, Or.inl rfl⟩
    · exact ⟨hj, Or.inr hfilled⟩

theorem gen_evict {i j : Nat} (hji : j ≠ i) (entry : BitVec 32) : (q.evict t i entry).gen j =
    t.gen j := by
  simp [Query.evict, Fta.gen, hji]

theorem gen_initGroup_self (i : Nat) (p : τ) : (q.initGroup t i p).gen i = t.genVal := by
  simpa [Query.initGroup, Fta.gen, Fta.genVal]
    using (filled_initEntry q (q.gbAttr p) t.generation).2

theorem gen_initGroup {i j : Nat} (hji : j ≠ i) (p : τ) : (q.initGroup t i p).gen j = t.gen j := by
  simp [Query.initGroup, Fta.gen, hji]

theorem Inv.allNew (h : Inv q t) (hpos : t.flushPos = q.maxAggrs) : q.AllNew t := by
  rintro i hi ⟨hfilled, hgen⟩
  rcases h.slot i (Query.mem_filled.mpr ⟨hi, hfilled⟩) with ⟨-, hle⟩ | ⟨heq, -⟩
  · omega
  · exact hgen heq

/-- **Moves keep the invariant.** -/
theorem Move.inv {ps : List τ} (h : Move q R t ps t') (hs : Inv q t) : Inv q t' := by
  rcases h with ⟨i, entry, hi, hfilled, hentry, hlate⟩ | ⟨i, p, hi, hfilled, hgb⟩ |
    ⟨i, p, hi, hfilled, hgb, htemporal⟩ | ⟨k, hk, hlate⟩ | ⟨v, hnew, hR⟩ | ⟨n⟩ | ⟨x, hx⟩
  · have hmem : i ∈ q.filled t := Query.mem_filled.mpr ⟨hi, hfilled⟩
    refine ⟨hs.flushPos_le, ?_, fun j hj ↦ ?_⟩
    · rw [filled_evict i hentry, Finset.card_erase_of_mem hmem]
      have hpos := Finset.card_pos.mpr ⟨i, hmem⟩
      have hcount := hs.nAggrs_eq
      show t.nAggrs - 1 = _
      omega
    · rw [filled_evict i hentry, Finset.mem_erase] at hj
      rw [gen_evict hj.1]
      exact hs.slot j hj.2
  · have hnot : i ∉ q.filled t := fun hmem ↦ by
      rw [Query.mem_filled, hfilled] at hmem
      exact absurd hmem.2 Bool.false_ne_true
    refine ⟨hs.flushPos_le, ?_, fun j hj ↦ ?_⟩
    · rw [filled_initGroup hi, Finset.card_insert_of_notMem hnot]
      have hcount := hs.nAggrs_eq
      show t.nAggrs + 1 = _
      omega
    · rw [filled_initGroup hi, Finset.mem_insert] at hj
      by_cases hji : j = i
      · subst hji
        refine Or.inr ⟨gen_initGroup_self j p, ?_⟩
        simpa [Query.initGroup] using hgb
      · rw [gen_initGroup hji]
        have htable : (q.initGroup t i p).aggrTable j = t.aggrTable j :=
          by simp [Query.initGroup, hji]
        rw [htable]
        exact hs.slot j (hj.resolve_left hji)
  · refine ⟨hs.flushPos_le, hs.nAggrs_eq, fun j hj ↦ ?_⟩
    rcases hs.slot j hj with hold | ⟨hgen, hval⟩
    · exact Or.inl hold
    · refine Or.inr ⟨hgen, ?_⟩
      by_cases hji : j = i
      · subst hji
        simpa using hval
      · simpa [hji] using hval
  · refine ⟨hk, hs.nAggrs_eq, fun j hj ↦ ?_⟩
    rcases hs.slot j hj with ⟨hgen, -⟩ | hval
    · obtain ⟨hlt, hfilled⟩ := Query.mem_filled.mp hj
      exact Or.inl ⟨hgen, hlate j hlt ⟨hfilled, hgen⟩⟩
    · exact Or.inr hval
  · refine ⟨Nat.zero_le _, hs.nAggrs_eq, fun j hj ↦ Or.inl ⟨?_, Nat.zero_le _⟩⟩
    obtain ⟨hlt, hfilled⟩ := Query.mem_filled.mp hj
    have hgen : t.gen j = t.genVal := by
      by_contra hne
      exact hnew j hlt ⟨hfilled, hne⟩
    show t.gen j ≠ _
    rw [hgen]
    exact (genVal_succ_ne t.generation).symm
  · exact ⟨hs.flushPos_le, hs.nAggrs_eq, hs.slot⟩
  · exact ⟨hs.flushPos_le, hs.nAggrs_eq, hs.slot⟩

theorem Moves.inv {ps : List τ} (h : Moves q R t ps t') (hs : Inv q t) : Inv q t' := by
  induction h with
  | refl => exact hs
  | tail _ hmove ih => exact hmove.inv ih

theorem inv_ftaAlloc (aggrTable : Nat → Group β α) (minGb : List β) :
    Inv q (q.ftaAlloc aggrTable minGb) := by
  have hempty : q.filled (q.ftaAlloc aggrTable minGb) = ∅ := by
    ext i
    simp [Query.mem_filled, Query.ftaAlloc, Fta.isFilled]
  refine ⟨le_refl _, ?_, fun i hi ↦ ?_⟩
  · rw [hempty]
    rfl
  · rw [hempty] at hi
    exact absurd hi (Finset.notMem_empty i)

end Inv

/-! ## The functions as moves -/

section Flush

variable {q : Query τ β α} {R : List β → List β → Prop} {t : Fta β α}

theorem any_gt_self (ops : TemporalOps β) (vs : List β) :
    ((vs.zip vs).any fun (v, w) ↦ ops.gt v w) = false := by
  induction vs with
  | nil => rfl
  | cons v vs ih =>
    rw [List.zip_cons_cons, List.any_cons, ih, Bool.or_false]
    exact ops.gt_self v

/-- A slot that is flushed has a group of an older generation. -/
theorem isLate_of_isOld (hs : Inv q t) {i : Nat} (hi : i < q.maxAggrs) (h : q.isOld t i = true) :
    t.IsLate i := by
  rw [Query.isOld, Bool.and_eq_true, Bool.or_eq_true, bne_iff_ne] at h
  obtain ⟨hfilled, hold⟩ := h
  rcases hs.slot i (Query.mem_filled.mpr ⟨hi, hfilled⟩) with ⟨hgen, -⟩ | ⟨hgen, hval⟩
  · exact ⟨hfilled, hgen⟩
  · rcases hold with hne | hany
    · exact absurd hgen hne
    · rw [hval, any_gt_self] at hany
      exact absurd hany Bool.false_ne_true

theorem isOld_of_isLate {i : Nat} (h : t.IsLate i) : q.isOld t i = true := by
  rw [Query.isOld, h.1, Bool.true_and, Bool.or_eq_true, bne_iff_ne]
  exact Or.inl h.2

/-- **The loop.** -/
theorem flushLoop_moves (left : Nat) (t : Fta β α) (i nflush : Nat) (hi : i + left = q.maxAggrs)
    (hs : Inv q { t with flushPos := i }) :
    Moves q R { t with flushPos := i } []
        { (q.flushLoop left t i nflush).1 with flushPos := (q.flushLoop left t i nflush).2 } ∧
      (left ≤ nflush → (q.flushLoop left t i nflush).1.nAggrs = 0 ∨
        (q.flushLoop left t i nflush).2 = q.maxAggrs) := by
  induction left generalizing t i nflush with
  | zero => exact ⟨.refl _, fun _ ↦ Or.inr hi⟩
  | succ left ih =>
    rw [Query.flushLoop]
    by_cases hcond : t.nAggrs ≠ 0 ∧ 0 < nflush
    · rw [if_pos hcond]
      have hlt : i < q.maxAggrs := by omega
      have hskip (t : Fta β α) (hs : Inv q { t with flushPos := i }) (hnot : ¬t.IsLate i) :
          Moves q R { t with flushPos := i } [] { t with flushPos := i + 1 } := by
        refine (Move.flushPos { t with flushPos := i } (i + 1) hlt fun j hj hlate ↦ ?_).moves
        rcases hs.slot j (Query.mem_filled.mpr ⟨hj, hlate.1⟩) with ⟨-, hle⟩ | ⟨hgen, -⟩
        · refine Nat.lt_of_le_of_ne hle fun heq ↦ hnot ?_
          rw [show i = j from heq]
          exact hlate
        · exact absurd hgen hlate.2
      by_cases hold : q.isOld t i = true
      · rw [if_pos hold]
        have hlate : Fta.IsLate { t with flushPos := i } i := isLate_of_isOld hs hlt hold
        have hevict : Move q R { t with flushPos := i } [] { q.evict t i 0 with flushPos := i } :=
          .evict { t with flushPos := i } i 0 hlt hlate.1 BitVec.zero_and (Or.inr (Or.inr hlate))
        have hs' := hevict.inv hs
        have hnot : ¬(q.evict t i 0).IsLate i :=
          fun h ↦ ((isFilled_evict i i BitVec.zero_and).mp h.1).1 rfl
        have hskip := hskip (q.evict t i 0) hs' hnot
        obtain ⟨hmoves, hdone⟩ := ih (q.evict t i 0) (i + 1) (nflush - 1) (by omega) (hskip.inv hs')
        exact ⟨(hevict.moves.trans hskip).trans hmoves, fun hle ↦ hdone (by omega)⟩
      · rw [if_neg hold]
        have hskip := hskip t hs fun hlate ↦ hold (isOld_of_isLate hlate)
        obtain ⟨hmoves, hdone⟩ := ih t (i + 1) nflush (by omega) (hskip.inv hs)
        exact ⟨hskip.trans hmoves, fun hle ↦ hdone (by omega)⟩
    · rw [if_neg hcond]
      refine ⟨.refl _, fun hle ↦ Or.inl ?_⟩
      by_contra hne
      exact hcond ⟨hne, by omega⟩

/-- The loop has the groups as they are, and takes entries away that are old. -/
theorem flushLoop_frame (left : Nat) (t : Fta β α) (i nflush : Nat) :
    (q.flushLoop left t i nflush).1.aggrTable = t.aggrTable ∧
      (q.flushLoop left t i nflush).1.generation = t.generation ∧
      (q.flushLoop left t i nflush).1.lastGb = t.lastGb ∧
      ∀ j, (q.flushLoop left t i nflush).1.aggrTableHashmap j = t.aggrTableHashmap j ∨
        q.isOld t j = true ∧ (q.flushLoop left t i nflush).1.aggrTableHashmap j = 0 := by
  induction left generalizing t i nflush with
  | zero => exact ⟨rfl, rfl, rfl, fun j ↦ Or.inl rfl⟩
  | succ left ih =>
    rw [Query.flushLoop]
    split_ifs with hcond hold
    · obtain ⟨htable, hgen, hgb, hentry⟩ := ih (q.evict t i 0) (i + 1) (nflush - 1)
      refine ⟨htable, hgen, hgb, fun j ↦ ?_⟩
      by_cases hji : j = i
      · subst hji
        refine Or.inr ⟨hold, ?_⟩
        rcases hentry j with heq | ⟨-, heq⟩
        · rw [heq]
          simp [Query.evict]
        · exact heq
      · have hsame : q.isOld (q.evict t i 0) j = q.isOld t j := by
          simp [Query.isOld, Query.evict, Fta.isFilled, Fta.gen, hji,
            Query.tupleFromAggr, Fta.genVal]
        rcases hentry j with heq | ⟨hold', heq⟩
        · refine Or.inl (heq.trans ?_)
          simp [Query.evict, hji]
        · exact Or.inr ⟨hsame ▸ hold', heq⟩
    · exact ih t (i + 1) nflush
    · exact ⟨rfl, rfl, rfl, fun j ↦ Or.inl rfl⟩

theorem flushOld_frame (t : Fta β α) (nflush : Nat) :
    (q.flushOld t nflush).aggrTable = t.aggrTable ∧ (q.flushOld t nflush).generation =
      t.generation ∧ (q.flushOld t nflush).lastGb = t.lastGb ∧
      ∀ j, (q.flushOld t nflush).aggrTableHashmap j = t.aggrTableHashmap j ∨
        q.isOld t j = true ∧ (q.flushOld t nflush).aggrTableHashmap j = 0 :=
  flushLoop_frame (q.maxAggrs - t.flushPos) t t.flushPos nflush

/-- **Flushing old groups.** -/
theorem flushOld_moves (hs : Inv q t) (nflush : Nat) :
    Moves q R t [] (q.flushOld t nflush) ∧
      (q.maxAggrs ≤ nflush → (q.flushOld t nflush).flushPos = q.maxAggrs) := by
  obtain ⟨hmoves, hdone⟩ := flushLoop_moves (R := R) (q.maxAggrs - t.flushPos) t t.flushPos nflush
    (by have hle := hs.flushPos_le; omega) hs
  have hend := hmoves.inv hs
  show Moves q R t [] { (q.flushLoop (q.maxAggrs - t.flushPos) t t.flushPos nflush).1 with
      flushPos := if (q.flushLoop (q.maxAggrs - t.flushPos) t t.flushPos nflush).1.nAggrs = 0
        then q.maxAggrs else (q.flushLoop (q.maxAggrs - t.flushPos) t t.flushPos nflush).2 } ∧ (_ →
    (if (q.flushLoop (q.maxAggrs - t.flushPos) t t.flushPos nflush).1.nAggrs = 0 then q.maxAggrs
      else (q.flushLoop (q.maxAggrs - t.flushPos) t t.flushPos nflush).2) = q.maxAggrs)
  generalize q.flushLoop (q.maxAggrs - t.flushPos) t t.flushPos nflush = r at hmoves hdone hend
  by_cases hzero : r.1.nAggrs = 0
  · rw [if_pos hzero]
    refine ⟨hmoves.tail (Move.flushPos { r.1 with flushPos := r.2 } q.maxAggrs (le_refl _) fun j
      hj hlate ↦ ?_), fun _ ↦ rfl⟩
    have hpos := Finset.card_pos.mpr ⟨j, Query.mem_filled.mpr ⟨hj, hlate.1⟩⟩
    have hcount : r.1.nAggrs = _ := hend.nAggrs_eq
    omega
  · rw [if_neg hzero]
    exact ⟨hmoves, fun hle ↦ (hdone (by omega)).resolve_left hzero⟩

/-- A group that is not old is still there. -/
theorem flushOld_entry (hs : Inv q t) (nflush : Nat) {i : Nat} (hi : i < q.maxAggrs)
    (h : ¬t.IsLate i) : (q.flushOld t nflush).aggrTableHashmap i = t.aggrTableHashmap i := by
  rcases (flushOld_frame (q := q) t nflush).2.2.2 i with heq | ⟨hold, -⟩
  · exact heq
  · exact absurd (isLate_of_isOld hs hi hold) h

theorem allNew_flushOld (hs : Inv q t) : q.AllNew (q.flushOld t q.maxAggrs) :=
  have h := flushOld_moves (R := fun _ _ ↦ True) hs q.maxAggrs
  (h.1.inv hs).allNew (h.2 (le_refl _))

/-- **Flushing when temporal values change.** -/
theorem temporalFlush_moves [DecidableEq β] (hs : Inv q t) {gb : List β}
    (hR : t.lastGb = gb ∨ R t.lastGb gb) : Moves q R t [] (q.temporalFlush t gb) ∧
    (q.temporalFlush t gb).lastGb = gb := by
  rw [Query.temporalFlush]
  split_ifs with heq hpos
  · exact ⟨.refl t, heq⟩
  · have hgb := (flushOld_frame (q := q) t q.maxAggrs).2.2.1
    refine ⟨(flushOld_moves hs q.maxAggrs).1.tail
      (.newGeneration _ gb (allNew_flushOld hs) ?_), rfl⟩
    rw [hgb]
    exact hR.resolve_left heq
  · have hle := hs.flushPos_le
    exact ⟨(Move.newGeneration t gb (hs.allNew (by omega)) (hR.resolve_left heq)).moves, rfl⟩

/-- **Flushing everything.** -/
theorem flushAll_moves (hR : ∀ v, R v v) (hs : Inv q t) :
    Moves q R t [] (q.flushAll t) ∧ (q.flushAll t).lastGb = t.lastGb ∧
      q.filled (q.flushAll t) = ∅ := by
  rw [Query.flushAll]
  have hgb := (flushOld_frame (q := q) t q.maxAggrs).2.2.1
  have hfirst := (flushOld_moves (R := R) hs q.maxAggrs).1
  have hmove : Move q R (q.flushOld t q.maxAggrs) []
      (Query.newGeneration (q.flushOld t q.maxAggrs) (q.flushOld t q.maxAggrs).lastGb) :=
    .newGeneration _ _ (allNew_flushOld hs) (hR _)
  have hs₁ := hfirst.inv hs
  have hnew₁ := allNew_flushOld hs
  generalize q.flushOld t q.maxAggrs = t₁ at hgb hfirst hmove hs₁ hnew₁
  have hs₂ := hmove.inv hs₁
  obtain ⟨-, hgen, hgb', hentry⟩ := flushOld_frame (q := q)
    (Query.newGeneration t₁ t₁.lastGb) q.maxAggrs
  refine ⟨(hfirst.tail hmove).trans (flushOld_moves hs₂ q.maxAggrs).1, hgb'.trans hgb, ?_⟩
  refine Finset.eq_empty_of_forall_notMem fun i hi ↦ ?_
  -- what is still there has its entry, which is of the generation before
  obtain ⟨hlt, hfilled⟩ := Query.mem_filled.mp hi
  have hnew := allNew_flushOld hs₂ i hlt
  refine hnew ⟨hfilled, ?_⟩
  rcases hentry i with heq | ⟨-, heq⟩
  · have hfilled₁ : (Query.newGeneration t₁ t₁.lastGb).isFilled i = true := by
      rw [Fta.isFilled, ← heq]
      exact hfilled
    have hgen₁ : t₁.gen i = t₁.genVal := by
      by_contra hne
      exact hnew₁ i hlt ⟨hfilled₁, hne⟩
    rw [Fta.gen, heq, Fta.genVal, hgen]
    show t₁.gen i ≠ _
    rw [hgen₁]
    exact (genVal_succ_ne t₁.generation).symm
  · rw [Fta.isFilled, heq] at hfilled
    exact absurd hfilled (by decide)

end Flush

section Accept

variable [DecidableEq β] {q : Query τ β α} {R : List β → List β → Prop} {t : Fta β α}

/-- The best slot is one of the table, and has the group if it was found. -/
structure ScanOk (q : Query τ β α) (t : Fta β α) (gb : List β) (s : Query.Scan) : Prop where
  probe_lt : s.probe < q.maxAggrs
  bestSlot_lt : s.bestSlot < q.maxAggrs
  isMatch : s.matchFound = true → q.isMatch t gb s.bestSlot = true

theorem isFilled_of_isMatch {gb : List β} {i : Nat} (h : q.isMatch t gb i = true) :
    t.isFilled i = true ∧ t.gen i = t.genVal ∧ (t.aggrTable i).gbVar = gb := by
  simp only [Query.isMatch, Bool.and_eq_true, beq_iff_eq] at h
  exact ⟨h.1.1.1, h.1.1.2, h.2⟩

/-- One slot. -/
theorem scanOk_scanSlot {gb : List β} {s : Query.Scan} (hs : ScanOk q t gb s)
    (hfound : s.matchFound = false) : ScanOk q t gb (q.scanSlot t gb s) := by
  have hprobe : (q.scanSlot t gb s).probe < q.maxAggrs := by
    have hpos := q.maxAggrs_pos
    simp only [Query.scanSlot]
    split_ifs
    all_goals omega
  by_cases hmatch : q.isMatch t gb s.probe = true
  · have hbest : (q.scanSlot t gb s).bestSlot = s.probe := by
      simp [Query.scanSlot, hmatch, (isFilled_of_isMatch hmatch).1]
    refine ⟨hprobe, ?_, fun _ ↦ ?_⟩
    · rw [hbest]
      exact hs.probe_lt
    · rw [hbest]
      exact hmatch
  · have hbest : (q.scanSlot t gb s).bestSlot = s.bestSlot ∨ (q.scanSlot t gb s).bestSlot =
      s.probe := by
      simp only [Query.scanSlot, if_neg hmatch]
      split_ifs
      all_goals simp
    refine ⟨hprobe, ?_, fun hfound' ↦ ?_⟩
    · rcases hbest with heq | heq
      · rw [heq]
        exact hs.bestSlot_lt
      · rw [heq]
        exact hs.probe_lt
    · simp [Query.scanSlot, hmatch, hfound] at hfound'

/-- **The scan.** -/
theorem scanOk_scan {gb : List β} (n : Nat) {s : Query.Scan} (hs : ScanOk q t gb s) :
    ScanOk q t gb (q.scan t gb n s) := by
  induction n generalizing s with
  | zero => exact hs
  | succ n ih =>
    rw [Query.scan]
    split_ifs with hfound
    · exact hs
    · exact ih (scanOk_scanSlot hs (by simpa using hfound))

omit [DecidableEq β] in
theorem sameTemporal_self (q : Query τ β α) {gb gb' : List β} (h : q.temporal gb = q.temporal gb') :
    q.sameTemporal gb gb' = true := by
  rw [Query.sameTemporal, h]
  exact q.ops.diffIsZero_self _

/-- A group that is in the table has a further tuple. -/
theorem gbUpdate_moves (hs : Inv q t) {p : τ} (hgb : q.temporal (q.gbAttr p) = t.lastGb) {i : Nat}
    (hi : i < q.maxAggrs) (hmatch : q.isMatch t (q.gbAttr p) i = true) :
    Moves q R t [p] (q.gbUpdate t i p) ∧ (q.gbUpdate t i p).lastGb = t.lastGb := by
  obtain ⟨hfilled, hgen, heq⟩ := isFilled_of_isMatch hmatch
  have hmove : Move q R t [p] _ := .update t i p hi hfilled heq hgb
  have hs₁ := hmove.inv hs
  rw [Query.gbUpdate]
  generalize ht₁ : { t with
    aggrTable := Function.update t.aggrTable i
      { t.aggrTable i with aggrVar := q.update (t.aggrTable i).aggrVar p } } = t₁ at hmove hs₁
  have hentry₁ : t₁.aggrTableHashmap = t.aggrTableHashmap := by
    rw [← ht₁]
  have hgb₁ : t₁.lastGb = t.lastGb := by
    rw [← ht₁]
  have hlate₁ : ¬t₁.IsLate i := by
    rw [← ht₁]
    exact fun hlate ↦ hlate.2 hgen
  simp only
  split_ifs with hflush
  · have hentry := flushOld_entry hs₁ q.maxAggrs hi hlate₁
    refine ⟨(hmove.moves.trans (flushOld_moves hs₁ q.maxAggrs).1).trans
      (Move.evict _ i _ hi ?_ ?_ (Or.inr (Or.inl (allNew_flushOld hs₁)))).moves, ?_⟩
    · rw [Fta.isFilled, hentry, hentry₁]
      exact hfilled
    · rw [BitVec.and_assoc, show ~~~slotFilled &&& slotFilled = 0 from by decide]
      exact BitVec.and_zero
    · exact (flushOld_frame t₁ q.maxAggrs).2.2.1.trans hgb₁
  · exact ⟨hmove.moves, hgb₁⟩

omit [DecidableEq β] in
theorem initGroup_tupleFromAggr (q : Query τ β α) (t : Fta β α) (i : Nat) (p : τ) :
    q.initGroup (q.tupleFromAggr t i) i p = q.initGroup (q.evict t i 0) i p := by
  simp [Query.initGroup, Query.evict, Query.tupleFromAggr, Fta.genVal]

/-- **A tuple that is accepted.** -/
theorem acceptBody_moves (hs : Inv q t) {p : τ} (hgb : q.temporal (q.gbAttr p) = t.lastGb) :
    Moves q R t [p] (q.acceptBody t p) ∧ (q.acceptBody t p).lastGb = t.lastGb := by
  have hscan : ScanOk q t (q.gbAttr p)
      (q.scan t (q.gbAttr p) 5 ⟨q.probe (q.gbAttr p), q.probe (q.gbAttr p), false⟩) :=
    scanOk_scan 5 ⟨q.probe_lt _, q.probe_lt _, fun h ↦ absurd h Bool.false_ne_true⟩
  rw [Query.acceptBody]
  generalize q.scan t (q.gbAttr p) 5 ⟨q.probe (q.gbAttr p), q.probe (q.gbAttr p), false⟩ =
    s at hscan
  obtain ⟨-, hi, hmatch⟩ := hscan
  simp only
  split_ifs with hfound hfilled hdisorder
  · exact gbUpdate_moves hs hgb hi (hmatch hfound)
  · -- all old groups are put out first
    have hs₁ := (flushOld_moves (R := R) hs q.maxAggrs).1.inv hs
    have hgb₁ : (q.flushOld t q.maxAggrs).lastGb = t.lastGb := (flushOld_frame t q.maxAggrs).2.2.1
    have hevict : Move q R (q.flushOld t q.maxAggrs) []
      (q.evict (q.flushOld t q.maxAggrs) s.bestSlot 0) := by
      refine .evict _ _ _ hi ?_ BitVec.zero_and (Or.inr (Or.inl (allNew_flushOld hs)))
      rw [Fta.isFilled, flushOld_entry hs q.maxAggrs hi fun hlate ↦ hlate.2 hdisorder.2.1]
      exact hfilled
    rw [initGroup_tupleFromAggr]
    refine ⟨((flushOld_moves hs q.maxAggrs).1.trans hevict.moves).trans
      (Move.init (q.evict (q.flushOld t q.maxAggrs) s.bestSlot 0) s.bestSlot p hi ?_
        (hgb.trans hgb₁.symm)).moves,
      hgb₁⟩
    exact Bool.eq_false_iff.mpr fun h ↦ ((isFilled_evict _ _ BitVec.zero_and).mp h).1 rfl
  · have hevict : Move q R t [] (q.evict t s.bestSlot 0) := by
      refine .evict t _ _ hi hfilled BitVec.zero_and ?_
      rcases hs.slot _ (Query.mem_filled.mpr ⟨hi, hfilled⟩) with ⟨hgen, -⟩ | ⟨hgen, hval⟩
      · exact Or.inr (Or.inr ⟨hfilled, hgen⟩)
      · refine Or.inl ?_
        by_contra hle
        exact hdisorder ⟨by omega, hgen, sameTemporal_self q (hgb.trans hval.symm)⟩
    rw [initGroup_tupleFromAggr]
    refine ⟨hevict.moves.trans (Move.init (q.evict t s.bestSlot 0) s.bestSlot p hi ?_ hgb).moves,
      rfl⟩
    exact Bool.eq_false_iff.mpr fun h ↦ ((isFilled_evict _ _ BitVec.zero_and).mp h).1 rfl
  · exact ⟨(Move.init t s.bestSlot p hi (by simpa using hfilled) hgb).moves, rfl⟩

omit [DecidableEq β] in
theorem flushOne_moves (hs : Inv q t) : Moves q R t [] (q.flushOne t) ∧ (q.flushOne t).lastGb =
    t.lastGb := by
  rw [Query.flushOne]
  split_ifs
  · exact ⟨(flushOld_moves hs 1).1, (flushOld_frame t 1).2.2.1⟩
  · exact ⟨.refl t, rfl⟩

omit [DecidableEq β] in
/-- Flushing with a packet. -/
theorem slowFlushOld_moves (hs : Inv q t) :
    Moves q R t [] (q.slowFlushOld t) ∧ (q.slowFlushOld t).lastGb = t.lastGb := by
  have hctr (n : Nat) : Move q R t [] { t with flushCtr := n } := .flushCtr t n
  simp only [Query.slowFlushOld]
  split_ifs
  all_goals first
    | exact flushOne_moves hs
    | exact ⟨(hctr _).moves, rfl⟩
    | exact ⟨(hctr 0).moves.trans (flushOne_moves ((hctr 0).inv hs)).1,
        (flushOne_moves (R := R) ((hctr 0).inv hs)).2⟩

/-- The temporal values that are compared with the last ones. -/
def Query.tested (q : Query τ β α) : Query.Event τ β → Option (List β)
  | .acceptPacket p =>
    if q.unpacks p && (q.realTime || q.accepts p) then some (q.temporal (q.gbAttr p)) else none
  | .clock timeAdvanced gb => if timeAdvanced then some gb else none
  | _ => none

/-- The tuple that is counted. -/
def Query.accepted (q : Query τ β α) : Query.Event τ β → List τ
  | .acceptPacket p => if q.unpacks p && q.accepts p then [p] else []
  | _ => []

/-- **A packet.** -/
theorem acceptPacket_moves (hs : Inv q t) (p : τ)
    (hR : ∀ gb ∈ q.tested (.acceptPacket p), t.lastGb = gb ∨ R t.lastGb gb) :
    Moves q R t (q.accepted (.acceptPacket p)) (q.acceptPacket t p) ∧
      (q.acceptPacket t p).lastGb = (q.tested (.acceptPacket p)).getD t.lastGb := by
  obtain ⟨hslow, hgb⟩ := slowFlushOld_moves (R := R) hs
  have hs₁ := hslow.inv hs
  rw [Query.acceptPacket]
  generalize q.slowFlushOld t = t₁ at hslow hgb hs₁
  rw [← hgb] at hR ⊢
  -- the flush is before or after the predicates
  have hflush (hR : ∀ gb ∈ some (q.temporal (q.gbAttr p)), t₁.lastGb = gb ∨ R t₁.lastGb gb) :=
    temporalFlush_moves (R := R) hs₁ (hR _ rfl)
  have hbody (hR : ∀ gb ∈ some (q.temporal (q.gbAttr p)), t₁.lastGb = gb ∨ R t₁.lastGb gb) :
      Moves q R t [p] (q.acceptBody (q.temporalFlush t₁ (q.temporal (q.gbAttr p))) p) ∧
        (q.acceptBody (q.temporalFlush t₁ (q.temporal (q.gbAttr p))) p).lastGb =
          q.temporal (q.gbAttr p) := by
    obtain ⟨hmoves, hlast⟩ := hflush hR
    obtain ⟨hmoves', hlast'⟩ := acceptBody_moves (R := R) (hmoves.inv hs₁) hlast.symm
    exact ⟨(hslow.trans hmoves).trans hmoves', hlast'.trans hlast⟩
  rcases hu : q.unpacks p with _ | _
  · simp [Query.accepted, Query.tested, hu, hslow]
  rcases ha : q.accepts p with _ | _
  · rcases hrt : q.realTime with _ | _
    · simp [Query.accepted, Query.tested, hu, ha, hrt, hslow]
    · simp only [Query.tested, hu, ha, hrt, Bool.or_false, Bool.and_true, if_true] at hR
      obtain ⟨hmoves, hlast⟩ := hflush hR
      simpa [Query.accepted, Query.tested, hu, ha, hrt, hlast] using hslow.trans hmoves
  · simp only [Query.tested, hu, ha, Bool.or_true, Bool.and_true, if_true] at hR
    rcases hrt : q.realTime with _ | _
    · simpa [Query.accepted, Query.tested, hu, ha, hrt] using hbody hR
    · simpa [Query.accepted, Query.tested, hu, ha, hrt] using hbody hR

/-- **One step.** -/
theorem step_moves (hrefl : ∀ gb, R gb gb) (hs : Inv q t) (e : Query.Event τ β)
    (hR : ∀ gb ∈ q.tested e, t.lastGb = gb ∨ R t.lastGb gb) :
    Moves q R t (q.accepted e) (q.step t e) ∧ (q.step t e).lastGb = (q.tested e).getD t.lastGb := by
  have hpost (t : Fta β α) (x : Posted β α) (hx : x.row? = none) : Move q R t [] (q.post t x) :=
    .post t x hx
  obtain ⟨hall, hgb, -⟩ := flushAll_moves hrefl hs
  rcases e with p | ⟨timeAdvanced, gb⟩ | _ | _ | _
  · exact acceptPacket_moves hs p hR
  · rcases timeAdvanced with _ | _
    · exact ⟨(hpost t .tempStatus rfl).moves, rfl⟩
    · obtain ⟨hmoves, hlast⟩ := temporalFlush_moves (R := R) hs (hR gb rfl)
      exact ⟨hmoves.tail (hpost _ .tempStatus rfl), hlast⟩
  · rw [Query.step]
    split_ifs
    · exact ⟨(hpost t .empty rfl).moves, rfl⟩
    · exact ⟨hall, hgb⟩
  · rw [Query.step]
    split_ifs
    · exact ⟨(hpost t .eof rfl).moves, rfl⟩
    · exact ⟨hall.tail (hpost _ .eof rfl), hgb⟩
  · exact ⟨hall, hgb⟩

/-- **A run.** -/
theorem run_moves (hrefl : ∀ gb, R gb gb) (es : List (Query.Event τ β)) (hs : Inv q t)
    (hR : (t.lastGb :: es.filterMap q.tested).IsChain fun v w ↦ v = w ∨ R v w) :
    Moves q R t (es.flatMap q.accepted) (q.run t es) := by
  induction es generalizing t with
  | nil => exact .refl t
  | cons e es ih =>
    have hhead : ∀ gb ∈ q.tested e, t.lastGb = gb ∨ R t.lastGb gb := by
      intro gb hgb
      rw [List.filterMap_cons, hgb] at hR
      exact (List.isChain_cons_cons.mp hR).1
    obtain ⟨hmoves, hlast⟩ := step_moves hrefl hs e hhead
    rw [Query.run, List.foldl_cons, List.flatMap_cons]
    refine hmoves.trans (ih (hmoves.inv hs) ?_)
    rw [hlast]
    rw [List.filterMap_cons] at hR
    rcases htested : q.tested e with _ | gb
    · rw [htested] at hR
      exact hR
    · rw [htested] at hR
      exact (List.isChain_cons_cons.mp hR).2

end Accept

/-! ## No tuple is lost -/

/-- A group is made of tuples with its group-by variables. -/
def Query.Explains (q : Query τ β α) (g : Group β α) (part : List τ) : Prop :=
  ∃ p ps, part = p :: ps ∧ (∀ p' ∈ ps, q.gbAttr p' = q.gbAttr p) ∧
    g = ⟨q.gbAttr p, ps.foldl q.update (q.init p)⟩

/-- Groups that were put out, were dropped or have bailed out, and those of the table, are made of
the tuples that were accepted. -/
structure Kept (q : Query τ β α) (accepted : List τ) (t : Fta β α) (part : Nat → List τ)
    (groups : List (Group β α)) (parts : List (List τ)) : Prop where
  /-- Of the groups that have left the table, those that do not bail out were put out or dropped. -/
  rows_add : (t.rows : Multiset (Group β α)) + t.dropped = groups.filter fun g ↦ !q.bailout g
  /-- Each of them is made of a part of the tuples, ... -/
  groups : List.Forall₂ q.Explains groups parts
  /-- ... as is each group of the table, ... -/
  slot : ∀ i ∈ q.filled t, q.Explains (t.aggrTable i) (part i)
  /-- ... and the parts together are the tuples, each of them once. -/
  accepted : (parts.flatten : Multiset τ) + ∑ i ∈ q.filled t, (part i : Multiset τ) = accepted

section Kept

variable {q : Query τ β α} {R : List β → List β → Prop} {t t' : Fta β α}

theorem rows_evict (t : Fta β α) (i : Nat) (entry : BitVec 32) :
    (q.evict t i entry).rows = t.rows ++ [t.aggrTable i].filter fun g ↦ !q.bailout g &&
      q.fits t := by
  rw [Fta.rows, Query.evict, Query.tupleFromAggr]
  rcases hb : q.bailout (t.aggrTable i) with _ | _
  · rcases hfits : q.fits t with _ | _
    all_goals simp [hb, hfits, Query.post, Fta.rows, Posted.row?]
  · simp [hb, Fta.rows]

theorem dropped_evict (t : Fta β α) (i : Nat) (entry : BitVec 32) :
    (q.evict t i entry).dropped = t.dropped ++ [t.aggrTable i].filter fun g ↦ !q.bailout g &&
      !q.fits t := by
  rw [Fta.dropped, Query.evict, Query.tupleFromAggr]
  rcases hb : q.bailout (t.aggrTable i) with _ | _
  · rcases hfits : q.fits t with _ | _
    all_goals simp [hb, hfits, Query.post, Fta.dropped, Posted.row?]
  · simp [hb, Fta.dropped]

theorem rows_post (t : Fta β α) {x : Posted β α} (hx : x.row? = none) :
    (q.post t x).rows = t.rows := by
  rcases hfits : q.fits t with _ | _
  all_goals simp [Fta.rows, Query.post, hfits, hx]

theorem dropped_post (t : Fta β α) {x : Posted β α} (hx : x.row? = none) : (q.post t x).dropped =
    t.dropped := by
  rcases hfits : q.fits t with _ | _
  all_goals simp [Fta.dropped, Query.post, hfits, hx]

/-- A group that is evicted is put out, dropped, or has bailed out. -/
theorem rows_add_evict (t : Fta β α) (i : Nat) (entry : BitVec 32) :
    ((q.evict t i entry).rows : Multiset (Group β α)) + (q.evict t i entry).dropped =
      t.rows + t.dropped + ([t.aggrTable i].filter fun g ↦ !q.bailout g : List (Group β α)) := by
  rw [rows_evict, dropped_evict, ← Multiset.coe_add, ← Multiset.coe_add]
  rcases hb : q.bailout (t.aggrTable i) with _ | _
  · rcases hfits : q.fits t with _ | _
    · simp [hb, -Multiset.coe_add, add_assoc]
    · simp [hb, -Multiset.coe_add, add_right_comm]
  · simp [hb]

/-- **Moves keep all tuples.** -/
theorem Move.kept {ps accepted : List τ} (h : Move q R t ps t') {part : Nat → List τ}
    {groups : List (Group β α)} {parts : List (List τ)} (hk : Kept q accepted t part groups parts) :
    ∃ part' groups' parts', Kept q (accepted ++ ps) t' part' groups' parts' := by
  rcases h with ⟨i, entry, hi, hfilled, hentry, hlate⟩ | ⟨i, p, hi, hfilled, hgb⟩ |
    ⟨i, p, hi, hfilled, hgb, htemporal⟩ | ⟨k, hk', hlate⟩ | ⟨v, hnew, hR⟩ | ⟨n⟩ | ⟨x, hx⟩
  · have hmem : i ∈ q.filled t := Query.mem_filled.mpr ⟨hi, hfilled⟩
    refine ⟨part, groups ++ [t.aggrTable i], parts ++ [part i], ?_, ?_, fun j hj ↦ ?_, ?_⟩
    · rw [rows_add_evict, hk.rows_add, List.filter_append, Multiset.coe_add]
    · exact List.rel_append hk.groups (.cons (hk.slot i hmem) .nil)
    · rw [filled_evict i hentry] at hj
      exact hk.slot j (Finset.mem_of_mem_erase hj)
    · rw [filled_evict i hentry, List.append_nil, ← hk.accepted, ← Finset.add_sum_erase _ _ hmem,
        List.flatten_append, ← Multiset.coe_add, add_assoc]
      simp
  · have hnot : i ∉ q.filled t := fun hmem ↦ by
      rw [Query.mem_filled, hfilled] at hmem
      exact absurd hmem.2 Bool.false_ne_true
    refine ⟨Function.update part i [p], groups, parts, hk.rows_add, hk.groups, fun j hj ↦ ?_, ?_⟩
    · rw [filled_initGroup hi, Finset.mem_insert] at hj
      by_cases hji : j = i
      · subst hji
        refine ⟨p, [], Function.update_self _ _ _, by simp, ?_⟩
        simp [Query.initGroup]
      · simpa [Query.initGroup, hji] using hk.slot j (hj.resolve_left hji)
    · rw [filled_initGroup hi, Finset.sum_insert hnot,
        Function.update_self, ← Multiset.coe_add, ← hk.accepted]
      have hsum : ∑ j ∈ q.filled t, (Function.update part i [p] j : Multiset τ) =
          ∑ j ∈ q.filled t, (part j : Multiset τ) := by
        refine Finset.sum_congr rfl fun j hj ↦ ?_
        rw [Function.update_of_ne (ne_of_mem_of_not_mem hj hnot)]
      rw [hsum, add_assoc, add_comm (([p] : List τ) : Multiset τ)]
  · have hmem : i ∈ q.filled t := Query.mem_filled.mpr ⟨hi, hfilled⟩
    refine ⟨Function.update part i (part i ++ [p]), groups, parts, hk.rows_add, hk.groups,
      fun j hj ↦ ?_, ?_⟩
    · by_cases hji : j = i
      · subst hji
        obtain ⟨p₀, ps₀, hpart, hsame, hgroup⟩ := hk.slot j hj
        refine ⟨p₀, ps₀ ++ [p], by rw [Function.update_self, hpart, List.cons_append], ?_, ?_⟩
        · rw [List.forall_mem_append, List.forall_mem_singleton, ← hgb, hgroup]
          exact ⟨hsame, rfl⟩
        · simp [hgroup]
      · simpa [hji] using hk.slot j hj
    · show _ + ∑ j ∈ q.filled t, (Function.update part i (part i ++ [p]) j : Multiset τ) = _
      have hsum : ∑ j ∈ (q.filled t).erase i,
          (Function.update part i (part i ++ [p]) j : Multiset τ) = ∑ j ∈ (q.filled t).erase i,
          (part j : Multiset τ) := by
        refine Finset.sum_congr rfl fun j hj ↦ ?_
        rw [Function.update_of_ne (Finset.ne_of_mem_erase hj)]
      rw [← Finset.add_sum_erase _ _ hmem, hsum, Function.update_self, ← Multiset.coe_add,
        ← Multiset.coe_add, ← hk.accepted, ← Finset.add_sum_erase _ _ hmem]
      abel
  · exact ⟨part, groups, parts, hk.rows_add, hk.groups, hk.slot,
      hk.accepted.trans (by rw [List.append_nil])⟩
  · exact ⟨part, groups, parts, hk.rows_add, hk.groups, hk.slot,
      hk.accepted.trans (by rw [List.append_nil])⟩
  · exact ⟨part, groups, parts, hk.rows_add, hk.groups, hk.slot,
      hk.accepted.trans (by rw [List.append_nil])⟩
  · refine ⟨part, groups, parts, ?_, hk.groups, hk.slot,
      hk.accepted.trans (by rw [List.append_nil])⟩
    rw [rows_post t hx, dropped_post t hx]
    exact hk.rows_add

theorem Moves.kept {ps accepted : List τ} (h : Moves q R t ps t') {part : Nat → List τ}
    {groups : List (Group β α)} {parts : List (List τ)} (hk : Kept q accepted t part groups parts) :
    ∃ part' groups' parts', Kept q (accepted ++ ps) t' part' groups' parts' := by
  induction h with
  | refl => exact ⟨part, groups, parts, by rwa [List.append_nil]⟩
  | tail _ hmove ih =>
    obtain ⟨part', groups', parts', hk'⟩ := ih
    rw [← List.append_assoc]
    exact hmove.kept hk'

/-- What makes everything be put out. -/
def Query.Event.drains : Query.Event τ β → Bool
  | .flush => true
  | .fileDone => true
  | .free => true
  | _ => false

/-- **Nothing is left in the table.** -/
theorem filled_step_of_drains [DecidableEq β] (hs : Inv q t) {e : Query.Event τ β}
    (he : e.drains = true) : q.filled (q.step t e) = ∅ := by
  have hall : q.filled (q.flushAll t) = ∅ :=
    (flushAll_moves (R := fun _ _ ↦ True) (fun _ ↦ trivial) hs).2.2
  have hzero (h : t.nAggrs = 0) : q.filled t = ∅ := by
    have hcount := hs.nAggrs_eq
    rw [← Finset.card_eq_zero]
    omega
  rcases e with p | ⟨timeAdvanced, gb⟩ | _ | _ | _
  · exact absurd he Bool.false_ne_true
  · exact absurd he Bool.false_ne_true
  · rw [Query.step]
    split_ifs with h
    · exact hzero h
    · exact hall
  · rw [Query.step]
    split_ifs with h
    · exact hzero h
    · exact hall
  · exact hall

theorem Kept.perm_of_filled {accepted : List τ} {part : Nat → List τ} {groups : List (Group β α)}
    {parts : List (List τ)} (hk : Kept q accepted t part groups parts) (hfilled : q.filled t = ∅) :
    parts.flatten.Perm accepted := by
  have haccepted := hk.accepted
  rw [hfilled, Finset.sum_empty, add_zero] at haccepted
  exact Multiset.coe_eq_coe.mp haccepted

/-- **A run that ends with a flush.** -/
theorem kept_run_of_drains [DecidableEq β] (q : Query τ β α) (aggrTable : Nat → Group β α)
    (minGb : List β) (es : List (Query.Event τ β)) {e : Query.Event τ β} (he : e.drains = true) :
    Inv q (q.run (q.ftaAlloc aggrTable minGb) (es ++ [e])) ∧
      q.filled (q.run (q.ftaAlloc aggrTable minGb) (es ++ [e])) = ∅ ∧ ∃ part groups parts,
        Kept q (es.flatMap q.accepted) (q.run (q.ftaAlloc aggrTable minGb) (es ++ [e]))
          part groups parts := by
  have hs := inv_ftaAlloc (q := q) aggrTable minGb
  have hmoves := run_moves (R := fun _ _ ↦ True) (fun _ ↦ trivial) es hs
    (List.pairwise_of_forall fun _ _ ↦ Or.inr trivial).isChain
  have hs₁ := hmoves.inv hs
  have hstep := (step_moves (R := fun _ _ ↦ True) (fun _ ↦ trivial) hs₁ e fun _ _ ↦
    Or.inr trivial).1
  have haccepted : q.accepted e = [] := by
    rcases e <;> first | rfl | exact absurd he Bool.false_ne_true
  have hrun : q.run (q.ftaAlloc aggrTable minGb) (es ++ [e]) =
      q.step (q.run (q.ftaAlloc aggrTable minGb) es) e := by
    rw [Query.run, List.foldl_append]
    rfl
  have hk : Kept q [] (q.ftaAlloc aggrTable minGb) (fun _ ↦ []) [] [] := by
    refine ⟨rfl, .nil, fun i hi ↦ ?_, ?_⟩
    · exact absurd (Query.mem_filled.mp hi).2 (by simp [Query.ftaAlloc, Fta.isFilled])
    · simp
  obtain ⟨part, groups, parts, hk⟩ := (hmoves.trans hstep).kept hk
  rw [haccepted, List.append_nil, List.nil_append] at hk
  rw [hrun]
  exact ⟨(hmoves.trans hstep).inv hs, filled_step_of_drains hs₁ he, part, groups, parts, hk⟩

/-- Where there is always space, nothing is dropped. -/
theorem Move.outtupledrop_eq_nil {ps : List τ} (h : Move q R t ps t')
    (hspace : ∀ n, q.allocates n = true) (ht : t.outtupledrop = []) : t'.outtupledrop = [] := by
  have hfits : q.fits t = true := hspace _
  rcases h with ⟨i, entry, -, -, -, -⟩ | ⟨i, p, -, -, -⟩ | ⟨i, p, -, -, -, -⟩ | ⟨k, -, -⟩ | ⟨v, -,
    -⟩ | ⟨n⟩ | ⟨x, -⟩
  · rcases hb : q.bailout (t.aggrTable i) with _ | _
    all_goals simp [Query.evict, Query.tupleFromAggr, Query.post, hb, hfits, ht]
  · exact ht
  · exact ht
  · exact ht
  · exact ht
  · exact ht
  · simp [Query.post, hfits, ht]

theorem Moves.outtupledrop_eq_nil {ps : List τ} (h : Moves q R t ps t')
    (hspace : ∀ n, q.allocates n = true) (ht : t.outtupledrop = []) : t'.outtupledrop = [] := by
  induction h with
  | refl => exact ht
  | tail _ hmove ih => exact hmove.outtupledrop_eq_nil hspace ih

/-- **A run where there is always space.** -/
theorem outtupledrop_run_eq_nil [DecidableEq β] (hspace : ∀ n, q.allocates n = true)
    (aggrTable : Nat → Group β α) (minGb : List β) (es : List (Query.Event τ β)) :
    (q.run (q.ftaAlloc aggrTable minGb) es).outtupledrop = [] := by
  have hmoves := run_moves (R := fun _ _ ↦ True) (fun _ ↦ trivial)
    es (inv_ftaAlloc (q := q) aggrTable minGb)
      (List.pairwise_of_forall fun _ _ ↦ Or.inr trivial).isChain
  exact hmoves.outtupledrop_eq_nil hspace rfl

end Kept

/-- **Each tuple that was accepted is counted in one group that leaves the table.**  After packets,
clocks and flushes in any order, and a flush, the end of the file or the end of the query at last,
the table has no group.  The groups that were put out, those for which there was no space, and those
that were to be left out, are made of parts of the tuples that were accepted: each tuple is in one
part, and a part has tuples with the same group-by variables.  No group is dropped if there is
always space. -/
theorem counts_every_tuple_once [DecidableEq β] (q : Query τ β α) (aggrTable : Nat → Group β α)
    (minGb : List β) (es : List (Query.Event τ β)) (e : Query.Event τ β) (he : e.drains = true) :
    (q.run (q.ftaAlloc aggrTable minGb) (es ++ [e])).nAggrs = 0 ∧
      (∃ groups parts, ((q.run (q.ftaAlloc aggrTable minGb) (es ++ [e])).rows ++
          (q.run (q.ftaAlloc aggrTable minGb) (es ++ [e])).dropped).Perm
            (groups.filter fun g ↦ !q.bailout g) ∧
        List.Forall₂ q.Explains groups parts ∧ parts.flatten.Perm (es.flatMap q.accepted)) ∧
      ((∀ n, q.allocates n = true) →
        (q.run (q.ftaAlloc aggrTable minGb) (es ++ [e])).dropped = []) := by
  obtain ⟨hs, hfilled, part, groups, parts, hk⟩ := kept_run_of_drains q aggrTable minGb es he
  refine ⟨?_, ⟨groups, parts, Multiset.coe_eq_coe.mp hk.rows_add, hk.groups,
    hk.perm_of_filled hfilled⟩, fun hspace ↦ ?_⟩
  · rw [hs.nAggrs_eq, hfilled]
    rfl
  · rw [Fta.dropped, outtupledrop_run_eq_nil hspace]
    rfl

/-- Numbers, with the sum of the differences. -/
def intOps : TemporalOps Int where
  gt v w := decide (w < v)
  diffIsZero vs ws := (vs.zipWith (· - ·) ws).sum == 0
  gt_self := by simp
  diffIsZero_self vs := by simp

/-- `select tb, a, count(*) from … group by tb, a` with two slots, and no space for the second
row. -/
def sampleQuery (lftaDisorder : Int) : Query (Int × Int) Int Int where
  gbAttr := fun (tb, a) ↦ [tb, a]
  isTemporal := [true, false]
  ops := intOps
  hashNums := fun _ ↦ 0x100000001#64
  toHash := fun _ v ↦ BitVec.ofInt 64 v
  init := fun _ ↦ 1
  update := fun count _ ↦ count + 1
  flushme := fun _ ↦ false
  bailout := fun _ ↦ false
  unpacks := fun _ ↦ true
  accepts := fun (_, a) ↦ decide (0 ≤ a)
  realTime := false
  lftaDisorder := lftaDisorder
  slowFlush := 100
  aggregateSlots := 2
  allocates := fun n ↦ n != 1

/-- Five groups, for which there are two slots. -/
def sampleEvents : List (Query.Event (Int × Int) Int) :=
  [.acceptPacket (1, 1), .acceptPacket (1, 2), .acceptPacket (1, 1), .acceptPacket (2, 3),
    .acceptPacket (2, -4), .acceptPacket (2, 5), .acceptPacket (2, 6), .acceptPacket (2, 3)]

theorem counts_every_tuple_once_sample :
    ((sampleQuery 2).run ((sampleQuery 2).ftaAlloc (fun _ ↦ ⟨[], 0⟩) [0])
      (sampleEvents ++ [.flush])).nAggrs = 0 ∧
          (∃ groups parts, (((sampleQuery 2).run ((sampleQuery 2).ftaAlloc (fun _ ↦ ⟨[], 0⟩) [0])
          (sampleEvents ++ [.flush])).rows ++
            ((sampleQuery 2).run ((sampleQuery 2).ftaAlloc (fun _ ↦ ⟨[], 0⟩) [0])
            (sampleEvents ++ [.flush])).dropped).Perm
              (groups.filter fun g ↦ !(sampleQuery 2).bailout g) ∧
        List.Forall₂ (sampleQuery 2).Explains groups parts ∧
        parts.flatten.Perm (sampleEvents.flatMap (sampleQuery 2).accepted)) ∧
      ((∀ n, (sampleQuery 2).allocates n = true) →
        ((sampleQuery 2).run ((sampleQuery 2).ftaAlloc (fun _ ↦ ⟨[], 0⟩) [0])
          (sampleEvents ++ [.flush])).dropped = []) :=
  counts_every_tuple_once (sampleQuery 2) _ [0] sampleEvents .flush rfl

/-! ## Rows are in order -/

/-- With `prev` for the temporal values before the last ones: groups that are late have them. -/
structure Ordered {γ : Type} [LinearOrder γ] (q : Query τ β α) (time : List β → γ)
    (accepted : List τ) (t : Fta β α) (prev : List β) : Prop where
  prev_le : time prev ≤ time t.lastGb
  late : ∀ i < q.maxAggrs, t.IsLate i → q.temporal (t.aggrTable i).gbVar = prev
  /-- A tuple is not later than `prev`, or has the last temporal values. -/
  accepted_le : ∀ p ∈ accepted, time (q.temporal (q.gbAttr p)) ≤ time prev ∨
    q.temporal (q.gbAttr p) = t.lastGb
  rows : ∀ g ∈ t.rows, time (q.temporal g.gbVar) ≤ time t.lastGb
  /-- If two rows are in the wrong order, no tuple is between them in time. -/
  pairwise : t.rows.Pairwise fun g g' ↦ ∀ p ∈ accepted,
    ¬(time (q.temporal g'.gbVar) < time (q.temporal (q.gbAttr p)) ∧ time (q.temporal (q.gbAttr p)) <
      time (q.temporal g.gbVar))
  /-- With a disorder of one at most the rows are sorted, and none of them is later than `prev`
  while older groups are left. -/
  sorted : q.lftaDisorder ≤ 1 →
    t.rows.Pairwise (fun g g' ↦ time (q.temporal g.gbVar) ≤ time (q.temporal g'.gbVar)) ∧
      (¬q.AllNew t → ∀ g ∈ t.rows, time (q.temporal g.gbVar) ≤ time prev)

section Ordered

variable {γ : Type} [LinearOrder γ] {q : Query τ β α} {time : List β → γ} {t t' : Fta β α}
  {accepted : List τ} {prev : List β}

/-- A tuple with the last temporal values is not before a row. -/
theorem Ordered.snoc (ho : Ordered q time accepted t prev) {p : τ}
    (hp : q.temporal (q.gbAttr p) = t.lastGb) :
      (∀ p' ∈ accepted ++ [p], time (q.temporal (q.gbAttr p')) ≤ time prev ∨
        q.temporal (q.gbAttr p') = t.lastGb) ∧
      t.rows.Pairwise fun g g' ↦ ∀ p' ∈ accepted ++ [p],
        ¬(time (q.temporal g'.gbVar) < time (q.temporal (q.gbAttr p')) ∧
          time (q.temporal (q.gbAttr p')) < time (q.temporal g.gbVar)) := by
  constructor
  · rw [List.forall_mem_append, List.forall_mem_singleton]
    exact ⟨ho.accepted_le, Or.inr hp⟩
  · refine ho.pairwise.imp_of_mem fun hg _ hpair ↦ List.forall_mem_append.mpr
      ⟨hpair, List.forall_mem_singleton.mpr ?_⟩
    rintro ⟨-, hlt⟩
    exact absurd (hp ▸ hlt) (not_lt.mpr (ho.rows _ hg))

theorem Ordered.evict (hs : Inv q t) (ho : Ordered q time accepted t prev) {i : Nat}
    (hi : i < q.maxAggrs) (hfilled : t.isFilled i = true) {entry : BitVec 32}
    (hentry : entry &&& slotFilled = 0)
    (hlate : 1 < q.lftaDisorder ∨ q.AllNew t ∨ t.IsLate i) :
      Ordered q time accepted (q.evict t i entry) prev := by
  have hlate' : ∀ j < q.maxAggrs, (q.evict t i entry).IsLate j → t.IsLate j := by
    rintro j hj ⟨hfilled', hgen⟩
    obtain ⟨hji, hfilled'⟩ := (isFilled_evict i j hentry).mp hfilled'
    rw [gen_evict hji] at hgen
    exact ⟨hfilled', hgen⟩
  -- the values of the group are the last ones, or those before
  have hval : t.IsLate i ∧ q.temporal (t.aggrTable i).gbVar = prev ∨
    q.temporal (t.aggrTable i).gbVar = t.lastGb := by
    rcases hs.slot i (Query.mem_filled.mpr ⟨hi, hfilled⟩) with ⟨hgen, -⟩ | ⟨-, hval⟩
    · exact Or.inl ⟨⟨hfilled, hgen⟩, ho.late i hi ⟨hfilled, hgen⟩⟩
    · exact Or.inr hval
  have hrows : ∀ g ∈ (q.evict t i entry).rows, g ∈ t.rows ∨ g = t.aggrTable i := by
    intro g hg
    rw [rows_evict, List.mem_append] at hg
    exact hg.imp_right fun hg ↦ List.mem_singleton.mp (List.mem_of_mem_filter hg)
  have hpairwise {P : Group β α → Group β α → Prop} (h : t.rows.Pairwise P)
      (hi : ∀ g ∈ t.rows, P g (t.aggrTable i)) : (q.evict t i entry).rows.Pairwise P := by
    rw [rows_evict, List.pairwise_append]
    refine ⟨h, (List.pairwise_singleton P _).filter _, fun g hg g' hg' ↦ ?_⟩
    rw [List.mem_singleton.mp (List.mem_of_mem_filter hg')]
    exact hi g hg
  refine ⟨ho.prev_le, fun j hj hlatej ↦ ho.late j hj (hlate' j hj hlatej), ho.accepted_le,
    fun g hg ↦ ?_, ?_, fun hdis ↦ ?_⟩
  · show _ ≤ time t.lastGb
    rcases hrows g hg with hg | rfl
    · exact ho.rows g hg
    · rcases hval with ⟨-, heq⟩ | heq
      · rw [heq]
        exact ho.prev_le
      · rw [heq]
  · refine hpairwise ho.pairwise fun g hg p hp ⟨hlt, hlt'⟩ ↦ ?_
    have hle := ho.rows g hg
    rcases hval with ⟨-, heq⟩ | heq
    · rw [heq] at hlt
      rcases ho.accepted_le p hp with hacc | hacc
      · exact absurd hlt (not_lt.mpr hacc)
      · rw [hacc] at hlt'
        exact absurd hlt' (not_lt.mpr hle)
    · rw [heq] at hlt
      exact absurd (hlt.trans hlt') (not_lt.mpr hle)
  · obtain ⟨hsorted, hprev⟩ := ho.sorted hdis
    refine ⟨hpairwise hsorted fun g hg ↦ ?_, fun hnew g hg ↦ ?_⟩
    · rcases hval with ⟨hlatei, heq⟩ | heq
      · rw [heq]
        exact hprev (fun hnew ↦ hnew i hi hlatei) g hg
      · rw [heq]
        exact ho.rows g hg
    · have hnew' : ¬q.AllNew t := fun h ↦ hnew fun j hj hlatej ↦ h j hj (hlate' j hj hlatej)
      rcases hrows g hg with hg | rfl
      · exact hprev hnew' g hg
      · rcases hlate with hlt | hall | hlatei
        · omega
        · exact absurd hall hnew'
        · rw [ho.late i hi hlatei]

theorem Ordered.initGroup (ho : Ordered q time accepted t prev) (i : Nat) {p : τ}
    (hgb : q.temporal (q.gbAttr p) = t.lastGb) : Ordered q time (accepted ++ [p])
    (q.initGroup t i p) prev := by
  have hlate' : ∀ j < q.maxAggrs, (q.initGroup t i p).IsLate j → j ≠ i ∧ t.IsLate j := by
    rintro j hj ⟨hfilled', hgen⟩
    by_cases hji : j = i
    · subst hji
      exact absurd (gen_initGroup_self j p) hgen
    · rw [gen_initGroup hji] at hgen
      exact ⟨hji, ((isFilled_initGroup i j p).mp hfilled').resolve_left hji, hgen⟩
  obtain ⟨haccepted, hpairwise⟩ := ho.snoc hgb
  refine ⟨ho.prev_le, fun j hj hlatej ↦ ?_, haccepted, ho.rows, hpairwise, fun hdis ↦ ?_⟩
  · obtain ⟨hji, hlatej⟩ := hlate' j hj hlatej
    have heq := ho.late j hj hlatej
    simpa [Query.initGroup, hji] using heq
  · obtain ⟨hsorted, hprev⟩ := ho.sorted hdis
    exact ⟨hsorted, fun hnew ↦ hprev fun h ↦ hnew fun j hj hlatej ↦ h j hj (hlate' j hj hlatej).2⟩

/-- The groups of the generation become late. -/
theorem Ordered.newGeneration (hs : Inv q t) (ho : Ordered q time accepted t prev) {lastGb : List β}
    (hnew : q.AllNew t) (hR : time t.lastGb ≤ time lastGb) :
    Ordered q time accepted (Query.newGeneration t lastGb) t.lastGb := by
  refine ⟨hR, fun j hj hlatej ↦ ?_, fun p hp ↦ Or.inl ?_, fun g hg ↦ (ho.rows g hg).trans hR,
    ho.pairwise, fun hdis ↦ ⟨(ho.sorted hdis).1, fun _ ↦ ho.rows⟩⟩
  · rcases hs.slot j (Query.mem_filled.mpr ⟨hj, hlatej.1⟩) with ⟨hgen, -⟩ | ⟨-, hval⟩
    · exact absurd ⟨hlatej.1, hgen⟩ (hnew j hj)
    · exact hval
  · rcases ho.accepted_le p hp with hle | heq
    · exact hle.trans ho.prev_le
    · rw [heq]

/-- **Moves keep the order.** -/
theorem Move.ordered {ps : List τ} (h : Move q (fun v w ↦ time v ≤ time w) t ps t') (hs : Inv q t)
    (ho : Ordered q time accepted t prev) : ∃ prev', Ordered q time (accepted ++ ps) t' prev' := by
  rcases h with ⟨i, entry, hi, hfilled, hentry, hlate⟩ | ⟨i, p, hi, hfilled, hgb⟩ |
    ⟨i, p, hi, hfilled, hgb, htemporal⟩ | ⟨k, hk', hlate⟩ | ⟨v, hnew, hR⟩ | ⟨n⟩ | ⟨x, hx⟩
  · rw [List.append_nil]
    exact ⟨prev, ho.evict hs hi hfilled hentry hlate⟩
  · exact ⟨prev, ho.initGroup i hgb⟩
  · obtain ⟨haccepted, hpairwise⟩ := ho.snoc htemporal
    refine ⟨prev, ho.prev_le, fun j hj hlatej ↦ ?_, haccepted, ho.rows, hpairwise, ho.sorted⟩
    have heq := ho.late j hj hlatej
    by_cases hji : j = i
    · subst hji
      simpa using heq
    · simpa [hji] using heq
  · rw [List.append_nil]
    exact ⟨prev, ho.prev_le, ho.late, ho.accepted_le, ho.rows, ho.pairwise, ho.sorted⟩
  · rw [List.append_nil]
    exact ⟨t.lastGb, ho.newGeneration hs hnew hR⟩
  · rw [List.append_nil]
    exact ⟨prev, ho.prev_le, ho.late, ho.accepted_le, ho.rows, ho.pairwise, ho.sorted⟩
  · rw [List.append_nil]
    refine ⟨prev, ho.prev_le, ho.late, ho.accepted_le, ?_, ?_, ?_⟩
    · rw [rows_post t hx]
      exact ho.rows
    · rw [rows_post t hx]
      exact ho.pairwise
    · rw [rows_post t hx]
      exact ho.sorted

theorem Moves.ordered {ps : List τ} (h : Moves q (fun v w ↦ time v ≤ time w) t ps t') (hs : Inv q t)
    (ho : Ordered q time accepted t prev) : ∃ prev', Ordered q time (accepted ++ ps) t' prev' := by
  induction h with
  | refl => exact ⟨prev, by rwa [List.append_nil]⟩
  | tail hmoves hmove ih =>
    obtain ⟨prev', ho'⟩ := ih
    rw [← List.append_assoc]
    exact hmove.ordered (hmoves.inv hs) ho'

end Ordered

/-- **Rows are late by one change of the temporal values at most.**  When the temporal values do not
decrease, no tuple that was accepted has values between those of a row and of one that was put out
before it.  And when no disorder is allowed, the temporal values of the rows do not decrease. -/
theorem rows_in_order {γ : Type} [LinearOrder γ] [DecidableEq β] (q : Query τ β α)
    (time : List β → γ) (aggrTable : Nat → Group β α) (minGb : List β) (es : List (Query.Event τ β))
    (hes : (minGb :: es.filterMap q.tested).IsChain fun v w ↦ time v ≤ time w) :
    (q.run (q.ftaAlloc aggrTable minGb) es).rows.Pairwise (fun g g' ↦ ∀ p ∈ es.flatMap q.accepted,
        ¬(time (q.temporal g'.gbVar) < time (q.temporal (q.gbAttr p)) ∧
          time (q.temporal (q.gbAttr p)) < time (q.temporal g.gbVar))) ∧
      (q.lftaDisorder ≤ 1 → (q.run (q.ftaAlloc aggrTable minGb) es).rows.Pairwise fun g g' ↦
        time (q.temporal g.gbVar) ≤ time (q.temporal g'.gbVar)) := by
  have hs := inv_ftaAlloc (q := q) aggrTable minGb
  have hmoves := run_moves (R := fun v w ↦ time v ≤ time w) (fun _ ↦ le_refl _) es hs
    (hes.imp fun _ _ h ↦ Or.inr h)
  have ho : Ordered q time [] (q.ftaAlloc aggrTable minGb) minGb := by
    refine ⟨le_refl _, fun i hi hlate ↦ ?_, by simp, by simp [Query.ftaAlloc, Fta.rows],
      List.Pairwise.nil, fun _ ↦ ⟨List.Pairwise.nil, by simp [Query.ftaAlloc, Fta.rows]⟩⟩
    exact absurd hlate.1 (by simp [Query.ftaAlloc, Fta.isFilled])
  obtain ⟨prev, ho⟩ := hmoves.ordered hs ho
  exact ⟨ho.pairwise, fun hdis ↦ (ho.sorted hdis).1⟩

theorem rows_in_order_sample :
    ((sampleQuery 1).run ((sampleQuery 1).ftaAlloc (fun _ ↦ ⟨[], 0⟩) [0])
        sampleEvents).rows.Pairwise (fun g g' ↦ ∀ p ∈ sampleEvents.flatMap (sampleQuery 1).accepted,
          ¬(((sampleQuery 1).temporal g'.gbVar).headD 0 <
              ((sampleQuery 1).temporal ((sampleQuery 1).gbAttr p)).headD 0 ∧
            ((sampleQuery 1).temporal ((sampleQuery 1).gbAttr p)).headD 0 <
              ((sampleQuery 1).temporal g.gbVar).headD 0)) ∧
      ((sampleQuery 1).lftaDisorder ≤ 1 →
        ((sampleQuery 1).run ((sampleQuery 1).ftaAlloc (fun _ ↦ ⟨[], 0⟩) [0])
          sampleEvents).rows.Pairwise fun g g' ↦
          ((sampleQuery 1).temporal g.gbVar).headD 0 ≤
          ((sampleQuery 1).temporal g'.gbVar).headD 0) :=
  rows_in_order (sampleQuery 1) (fun gb ↦ gb.headD 0) _ [0] sampleEvents (by decide)

end Tigon.Ftacmp.LftaAggr
