import Tigon.Hfta.Groupby

/-!
# The group-by operator for streams out of order

`groupby_operator_oop` has one hash table for each window from `min_wid` to `max_wid`.  A tuple goes
to the table of its window, also if it is late; tables are added at both ends as needed.  Windows
are
*closed* from the lowest one on, when a temporal status tuple says so: the groups of the first table
are put out, one whenever a tuple arrives, and then the table goes.

The correspondence of tables and windows can be lost.  Two zeros in `min_wid` and `max_wid` stand
for an operator that has not seen a tuple, although they are also what the first tuple of window 0
leaves behind; and the flush position is an iterator of the first table, although a late tuple can
put other tables before it, or an item behind it.  `StepOk` says that this does not happen.  In a
run whose steps are all so, `accounted_of_guarded` says, the tables are those of the windows, and
each window that is closed puts out the group-by of the tuples that it received since it was last
closed. -/

set_option autoImplicit false
set_option linter.unusedSectionVars false

namespace Tigon.Hfta

/-- What a window id can be. -/
inductive TemporalType
  | int | uint | llong | ullong
deriving DecidableEq, Repr

namespace TemporalType

def bits : TemporalType → Nat
  | int => 32
  | uint => 32
  | llong => 64
  | ullong => 64

def minValue : TemporalType → Int
  | int => -2 ^ 31
  | uint => 0
  | llong => -2 ^ 63
  | ullong => 0

def maxValue : TemporalType → Int
  | int => 2 ^ 31 - 1
  | uint => 2 ^ 32 - 1
  | llong => 2 ^ 63 - 1
  | ullong => 2 ^ 64 - 1

/-- The value of the type that an operation gives. -/
def wrap (ty : TemporalType) (x : Int) : Int := (x - ty.minValue) % 2 ^ ty.bits + ty.minValue

/-- A value of the type as a `gs_int64_t`. -/
def toInt64 (x : Int) : Int := Int.bmod x (2 ^ 64)

/-- A difference as a `gs_int64_t`. -/
def difference (ty : TemporalType) (x y : Int) : Int := toInt64 (ty.wrap (x - y))

theorem wrap_eq (ty : TemporalType) {x : Int} (hmin : ty.minValue ≤ x) (hmax : x ≤ ty.maxValue) :
    ty.wrap x = x := by
  cases ty <;> simp only [wrap, minValue, maxValue, bits] at * <;> omega

theorem minValue_le_zero (ty : TemporalType) : ty.minValue ≤ 0 := by
  cases ty <;> decide

theorem zero_lt_maxValue (ty : TemporalType) : 0 < ty.maxValue := by
  cases ty <;> decide

end TemporalType

/-- The functor of a query, and the type of its window ids. -/
structure GroupbyFuncOop (D G A R : Type) extends GroupbyFunc D Int G A R where
  temporalType : TemporalType
  minValue_le_gbVar : ∀ d, temporalType.minValue ≤ gbVar d
  gbVar_le_maxValue : ∀ d, gbVar d ≤ temporalType.maxValue

variable {D G A R : Type} [DecidableEq G]

/-- `flushPos` is a table and an iterator of it; `lastGb`, `lastFlushedGb` and `needsTemporalFlush`
belong to the functor. -/
structure GroupbyOperatorOop (func : GroupbyFuncOop D G A R) where
  groupTables : List (HashTable G A func.hasher)
  minWid : Int
  maxWid : Int
  flushFinished : Bool
  flushPos : Option (Nat × Iterator)
  lastFlushedTemporalGb : Int
  lastTemporalGb : Int
  lastGb : Int
  lastFlushedGb : Int
  needsTemporalFlush : Bool

namespace GroupbyOperatorOop

variable (func : GroupbyFuncOop D G A R)

def init : GroupbyOperatorOop func where
  groupTables := []
  minWid := 0
  maxWid := 0
  flushFinished := true
  flushPos := none
  lastFlushedTemporalGb := 0
  lastTemporalGb := 0
  lastGb := func.initialGb
  lastFlushedGb := func.initialGb
  needsTemporalFlush := false

variable {func}

/-! ## Flushing -/

/-- The beginning of the first table. -/
def frontBegin (tables : List (HashTable G A func.hasher)) : Option (Nat × Iterator) :=
  tables.head?.bind fun t ↦ t.begin.map fun it ↦ (0, it)

/-- The item at the flush position. -/
def derefPos (op : GroupbyOperatorOop func) : Option (G × A) :=
  op.flushPos.bind fun pos ↦ op.groupTables[pos.1]?.bind fun t ↦ t.deref pos.2

/-- The flush position moves on. -/
def nextPos (op : GroupbyOperatorOop func) : Option (Nat × Iterator) :=
  op.flushPos.bind fun pos ↦ op.groupTables[pos.1]?.bind fun t ↦
    (t.next pos.2).map fun it ↦ (pos.1, it)

/-- The items from the flush position on. -/
def remainingPos (op : GroupbyOperatorOop func) : List (G × A) :=
  match op.flushPos with
  | none => []
  | some pos => (op.groupTables[pos.1]?.map fun t ↦ t.remaining (some pos.2)).getD []

/-- The position is at the end when its table is gone. -/
def posAfterErase : Option (Nat × Iterator) → Option (Nat × Iterator)
  | some (i + 1, it) => some (i, it)
  | _ => none

/-- The first table is removed. -/
def eraseFront (op : GroupbyOperatorOop func) : GroupbyOperatorOop func :=
  { op with
    groupTables := op.groupTables.tail
    minWid := func.temporalType.wrap (op.minWid + 1)
    flushPos := posAfterErase op.flushPos }

/-- One group of the first table is put out. -/
def partialFlush (op : GroupbyOperatorOop func) : GroupbyOperatorOop func × List (Output R) :=
  match op.groupTables with
  | [] => ({ op with flushFinished := true }, [])
  | t :: tables =>
    let next := if t.empty then op.flushPos else op.nextPos
    let result := if t.empty then [] else GroupbyOperator.emit func.toGroupbyFunc op.derefPos.toList
    let op := { op with flushPos := next }
    if next = none then
      if op.eraseFront.minWid < op.lastTemporalGb ∧ tables ≠ [] then
        ({ op.eraseFront with flushPos := frontBegin tables }, result)
      else ({ op.eraseFront with flushFinished := true }, result)
    else (op, result)

/-- What is left of the first table is put out, and the table is removed. -/
def flushTable (op : GroupbyOperatorOop func) (restart : Bool) :
    GroupbyOperatorOop func × List (Output R) :=
  match op.groupTables with
  | [] => (op, [])
  | t :: tables =>
    let op := if t.empty = false ∧ restart
      then { op with flushPos := frontBegin op.groupTables } else op
    let result := if t.empty then [] else GroupbyOperator.emit func.toGroupbyFunc op.remainingPos
    let op := if t.empty then op else { op with flushPos := none }
    (if tables ≠ [] then { op.eraseFront with flushPos := frontBegin tables }
      else op.eraseFront, result)

/-- At most `n` tables are put out. -/
def flushTables (restart : Bool) : GroupbyOperatorOop func → Nat → GroupbyOperatorOop func ×
    List (Output R)
  | op, 0 => (op, [])
  | op, n + 1 =>
    if op.groupTables = [] then (op, [])
    else ((flushTables restart (op.flushTable restart).1 n).1,
      (op.flushTable restart).2 ++ (flushTables restart (op.flushTable restart).1 n).2)

def flush (op : GroupbyOperatorOop func) : GroupbyOperatorOop func × List (Output R) :=
  ({ (flushTables op.flushFinished op op.groupTables.length).1 with flushFinished := true },
    (flushTables op.flushFinished op op.groupTables.length).2)

/-- The number of windows to be flushed. -/
def num (op : GroupbyOperatorOop func) : Int :=
  func.temporalType.difference op.lastTemporalGb op.minWid

def flushOld (op : GroupbyOperatorOop func) : GroupbyOperatorOop func × List (Output R) :=
  ({ (flushTables false op op.num.toNat).1 with flushFinished := true },
    (flushTables false op op.num.toNat).2)

/-! ## Tuples -/

/-- `create_group` sees a new value of the temporal group-by variable in a status tuple. -/
def noteGb (op : GroupbyOperatorOop func) (tup : D) : GroupbyOperatorOop func :=
  if func.isTemporal tup ∧ op.lastGb ≠ func.gbVar tup then
    { op with
      lastFlushedGb := op.lastGb
      lastGb := func.gbVar tup
      needsTemporalFlush := if func.initialGb < op.lastGb then true else op.needsTemporalFlush }
  else { op with needsTemporalFlush := false }

/-- A status tuple tells how far the stream is. -/
def noteTemporalGb (op : GroupbyOperatorOop func) (tup : D) : GroupbyOperatorOop func :=
  if func.isTemporal tup then
    { op with lastFlushedTemporalGb := op.lastFlushedGb, lastTemporalGb := op.lastGb }
  else op

/-- The table up to which windows are closed. -/
def flushIndex (op : GroupbyOperatorOop func) : Int :=
  if op.minWid ≤ op.lastFlushedTemporalGb then
    func.temporalType.difference op.lastFlushedTemporalGb op.minWid
  else
    TemporalType.toInt64 (func.temporalType.wrap
      (-func.temporalType.wrap (op.minWid - op.lastFlushedTemporalGb)))

/-- Windows are to be closed. -/
def flushStarts (op : GroupbyOperatorOop func) : Bool :=
  op.groupTables ≠ [] ∧ op.needsTemporalFlush ∧ 0 ≤ op.flushIndex

/-- What is being flushed is put out, and the next flush starts. -/
def startFlush (op : GroupbyOperatorOop func) : GroupbyOperatorOop func × List (Output R) :=
  let r := if op.flushFinished then (op, []) else op.flushOld
  let op := r.1
  ({ op with
      flushFinished :=
        if op.minWid < op.lastTemporalGb ∧ op.groupTables ≠ [] then false else op.flushFinished
      flushPos := if op.groupTables ≠ [] then frontBegin op.groupTables else op.flushPos }, r.2)

/-- A tuple without a group. -/
def acceptNone (op : GroupbyOperatorOop func) (tup : D) : GroupbyOperatorOop func ×
    List (Output R) :=
  let op := op.noteTemporalGb tup
  let r := if op.flushStarts then op.startFlush else (op, [])
  (r.1, r.2 ++ [.tempStatus (func.createTempStatusTuple tup r.1.lastFlushedGb r.1.flushFinished)])

/-- The first table. -/
def firstTable (op : GroupbyOperatorOop func) (currTable : Int) : GroupbyOperatorOop func :=
  if op.maxWid = 0 ∧ op.minWid = 0 then
    { op with groupTables := op.groupTables ++ [.new], maxWid := currTable, minWid := currTable }
  else op

/-- Tables for windows before the first one. -/
def growFront (op : GroupbyOperatorOop func) (currTable : Int) : GroupbyOperatorOop func :=
  if currTable < op.minWid then
    { op with
      groupTables := List.replicate (op.minWid - currTable).toNat .new ++ op.groupTables
      flushPos := op.flushPos.map fun pos ↦ (pos.1 + (op.minWid - currTable).toNat, pos.2)
      minWid := currTable }
  else op

/-- Tables for windows behind the last one. -/
def growBack (op : GroupbyOperatorOop func) (currTable : Int) : GroupbyOperatorOop func :=
  if op.maxWid < currTable then
    { op with
      groupTables := op.groupTables ++ List.replicate (currTable - op.maxWid).toNat .new
      maxWid := currTable }
  else op

/-- The tables with one for the window of the tuple. -/
def makeRoom (op : GroupbyOperatorOop func) (currTable : Int) : GroupbyOperatorOop func :=
  ((op.firstTable currTable).growFront currTable).growBack currTable

/-- The table of a window. -/
def index (op : GroupbyOperatorOop func) (currTable : Int) : Int :=
  func.temporalType.difference currTable op.minWid

/-- A table takes a tuple. -/
def addTuple (tup : D) (grp : G) (t : HashTable G A func.hasher) : HashTable G A func.hasher :=
  match t.find grp with
  | some _ => t.modify grp (func.updateAggregate tup grp)
  | none => func.insertGroup t tup grp

/-- A tuple with a group. -/
def acceptSome (op : GroupbyOperatorOop func) (tup : D) (grp : G) : GroupbyOperatorOop func :=
  let op := op.makeRoom (func.currGb grp)
  { op with
    groupTables := op.groupTables.modify (op.index (func.currGb grp)).toNat (addTuple tup grp) }

/-- `accept_tuple` until the tuple is looked at. -/
def pushOut (op : GroupbyOperatorOop func) (tup : D) : GroupbyOperatorOop func × List (Output R) :=
  let r := if op.flushFinished then (op, []) else op.partialFlush
  (r.1.noteGb tup, r.2)

def acceptTuple (op : GroupbyOperatorOop func) (tup : D) : GroupbyOperatorOop func ×
    List (Output R) :=
  let r := op.pushOut tup
  match func.group tup with
  | none => ((r.1.acceptNone tup).1, r.2 ++ (r.1.acceptNone tup).2)
  | some grp => (r.1.acceptSome tup grp, r.2)

/-- What is put out while the tuples arrive, and by a flush after them. -/
def outputOf (func : GroupbyFuncOop D G A R) (tups : List D) : List (Output R) :=
  (Transducer.run acceptTuple (init func) tups).2 ++
    (Transducer.run acceptTuple (init func) tups).1.flush.2

/-! ## What a group-by of windows is -/

/-- What happens to the windows: a tuple arrives, or a window is closed. -/
inductive Event (D : Type)
  | tuple (d : D)
  | close (wid : Int)

/-- The tuples of a window. -/
def window (func : GroupbyFuncOop D G A R) (wid : Int) (pend : List D) : List D :=
  pend.filter fun d ↦ func.gbVar d = wid

/-- The tuples of the other windows. -/
def others (func : GroupbyFuncOop D G A R) (wid : Int) (pend : List D) : List D :=
  pend.filter fun d ↦ func.gbVar d ≠ wid

/-- The rows of a window. -/
def windowRows (func : GroupbyFuncOop D G A R) (wid : Int) (pend : List D) : List R :=
  (func.groups (window func wid pend)).filterMap func.output

/-- A window that is closed has a row for each of its groups, and starts again. -/
def referenceStep (func : GroupbyFuncOop D G A R) (pend : List D) : Event D → List D × List R
  | .tuple d => (pend ++ [d], [])
  | .close wid => (others func wid pend, windowRows func wid pend)

/-- The windows that are closed when the first one was `a` and is `b`. -/
def closings (a b : Int) : List (Event D) :=
  (List.range (b - a).toNat).map fun i : Nat ↦ .close (a + i)

/-- The windows that a tuple closes, and then the tuple. -/
def events (op : GroupbyOperatorOop func) (tup : D) : List (Event D) :=
  match func.group tup with
  | none => closings op.minWid (op.acceptTuple tup).1.minWid
  | some _ => closings op.minWid (op.pushOut tup).1.minWid ++ [.tuple tup]

/-- Everything that happens to the windows until the flush is over. -/
def eventsOf (func : GroupbyFuncOop D G A R) (tups : List D) : List (Event D) :=
  Transducer.log acceptTuple events (init func) tups ++
    closings (Transducer.run acceptTuple (init func) tups).1.minWid
      (Transducer.run acceptTuple (init func) tups).1.flush.1.minWid

/-! ## The condition -/

/-- A late tuple for the window that is being flushed: what it changes or inserts was not passed by
the flush. -/
def LateOk (op : GroupbyOperatorOop func) (grp : G) : Prop :=
  ∀ t ∈ op.groupTables.head?, op.flushPos ≠ none ∧ ∀ pos ∈ op.flushPos,
    if grp ∈ t.keys then t.Unstarted pos.2 grp
    else ∀ p ∈ func.groupings, t.Ahead pos.2 (p grp)

instance (op : GroupbyOperatorOop func) (grp : G) : Decidable (op.LateOk grp) :=
  inferInstanceAs (Decidable (∀ t ∈ op.groupTables.head?, _))

/-- With several patterns, neither the group of the tuple nor its group in one of the patterns is in
the table. -/
def PatternsOk (grp : G) (t : HashTable G A func.hasher) : Prop :=
  func.patterns.length ≤ 1 ∨ grp ∉ t.keys ∧ ∀ p ∈ func.patterns, p grp ∉ t.keys

instance (grp : G) (t : HashTable G A func.hasher) : Decidable (PatternsOk grp t) :=
  inferInstanceAs (Decidable (_ ∨ _))

/-- A tuple does not come between the tables and their windows. -/
structure AcceptOk (op : GroupbyOperatorOop func) (grp : G) : Prop where
  /-- Two zeros do not stand for window 0. -/
  zero : op.maxWid = 0 → op.minWid = 0 → op.groupTables = []
  /-- The window behind the last one has an id. -/
  lt_maxValue : func.currGb grp < func.temporalType.maxValue
  /-- The number of tables does not overflow. -/
  index : (op.makeRoom (func.currGb grp)).index (func.currGb grp) =
    func.currGb grp - (op.makeRoom (func.currGb grp)).minWid
  patterns : ∀ t ∈ (op.makeRoom (func.currGb grp)).groupTables[
    (func.currGb grp - (op.makeRoom (func.currGb grp)).minWid).toNat]?, PatternsOk grp t
  /-- During a flush, the tuple is for a window behind the one that is being flushed, or for this
  one and not too late. -/
  flushing : op.flushFinished = false →
    op.minWid < func.currGb grp ∨ op.minWid = func.currGb grp ∧ op.LateOk grp

theorem acceptOk_iff (op : GroupbyOperatorOop func) (grp : G) : op.AcceptOk grp ↔
    (op.maxWid = 0 → op.minWid = 0 → op.groupTables.isEmpty = true) ∧
    func.currGb grp < func.temporalType.maxValue ∧
    (op.makeRoom (func.currGb grp)).index (func.currGb grp) =
      func.currGb grp - (op.makeRoom (func.currGb grp)).minWid ∧
    (∀ t ∈ (op.makeRoom (func.currGb grp)).groupTables[
      (func.currGb grp - (op.makeRoom (func.currGb grp)).minWid).toNat]?, PatternsOk grp t) ∧
    (op.flushFinished = false →
      op.minWid < func.currGb grp ∨ op.minWid = func.currGb grp ∧ op.LateOk grp) := by
  rw [List.isEmpty_iff]
  exact ⟨fun h ↦ ⟨h.zero, h.lt_maxValue, h.index, h.patterns, h.flushing⟩,
    fun h ↦ ⟨h.1, h.2.1, h.2.2.1, h.2.2.2.1, h.2.2.2.2⟩⟩

instance (op : GroupbyOperatorOop func) (grp : G) : Decidable (op.AcceptOk grp) :=
  decidable_of_iff _ (acceptOk_iff op grp).symm

/-- A tuple that keeps the tables in order. -/
def StepOk (op : GroupbyOperatorOop func) (tup : D) : Prop :=
  match func.group tup with
  | none =>
    let op := (op.pushOut tup).1.noteTemporalGb tup
    -- A status tuple that starts a flush ends the one in progress.
    op.flushStarts = true → op.flushFinished = false → 0 < op.num
  | some grp => (op.pushOut tup).1.AcceptOk grp

instance (op : GroupbyOperatorOop func) (tup : D) : Decidable (op.StepOk tup) :=
  match h : func.group tup with
  | none => decidable_of_iff
    (((op.pushOut tup).1.noteTemporalGb tup).flushStarts = true →
      ((op.pushOut tup).1.noteTemporalGb tup).flushFinished = false →
      0 < ((op.pushOut tup).1.noteTemporalGb tup).num) (by simp only [StepOk, h])
  | some grp => decidable_of_iff ((op.pushOut tup).1.AcceptOk grp) (by simp only [StepOk, h])

/-! ## The invariant -/

/-- The tables are those of the windows, and each has the groups of the tuples that its window
received since it was closed. -/
structure Windows (tables : List (HashTable G A func.hasher)) (minWid maxWid : Int)
    (pend : List D) : Prop where
  /-- There is a table for each window, from the first one to the last one. -/
  size : tables.length = maxWid + 1 - minWid ∨ tables = [] ∧ minWid = 0 ∧ maxWid = 0
  entries : ∀ (i : Nat) (t : HashTable G A func.hasher), tables[i]? = some t →
    t.entries.Perm (func.groups (window func (minWid + i) pend))
  pend : ∀ d ∈ pend, minWid ≤ func.gbVar d ∧ func.gbVar d < minWid + tables.length
  /-- The numbers of the windows are values of the type of the group-by variable. -/
  minValue_le : func.temporalType.minValue ≤ minWid
  le_maxValue : minWid ≤ func.temporalType.maxValue
  lt_maxValue : maxWid < func.temporalType.maxValue

/-- What the flush has put out of the first table. -/
def front (op : GroupbyOperatorOop func) : List (G × A) :=
  match op.groupTables with
  | [] => []
  | t :: _ => t.visited (op.flushPos.map Prod.snd)

/-- The rows of the closed windows are out, and what the flush has put out of the first table.  If
the flush starts at the beginning of the table, its position does not matter. -/
structure Draining (restart : Bool) (op : GroupbyOperatorOop func) (outs : List (Output R))
    (pend : List D) (ref : List R) : Prop where
  windows : Windows op.groupTables op.minWid op.maxWid pend
  rows : (Output.rows outs).Perm
    (ref ++ if restart then [] else op.front.filterMap func.output)
  valid : restart = false → ∀ t ∈ op.groupTables.head?, ∀ pos ∈ op.flushPos, pos.1 = 0 ∧
    t.Valid pos.2

/-- What holds between two tuples. -/
structure Books (op : GroupbyOperatorOop func) (outs : List (Output R)) (pend : List D)
    (ref : List R) : Prop extends Draining op.flushFinished op outs pend ref where
  ne_nil : op.flushFinished = false → op.groupTables ≠ []

end GroupbyOperatorOop

end Tigon.Hfta
