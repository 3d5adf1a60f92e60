import Tigon.Hfta.Groupby
import Tigon.Lib.OuterJoin

/-!
# The hash join of two streams

`join_eq_hash_operator` joins the tuples of two channels that have equal timestamps and equal hash
keys. The tuples wait in a queue for each channel until it is their turn: `curr_ts` is the timestamp
that is being joined, the tuples that have it go to a hash table for each channel, and are joined
with those in the other table.  When both channels are behind `curr_ts`, the tuples in the tables
that found no match are put out with an empty tuple in place of the other one, if the type of the
join asks for it, and the next timestamp has its turn.

Three things can go wrong.  When the second channel is heard for the first time, `curr_ts` becomes
the
*last* timestamp of the channel that is behind, and not the first one that waits in its queue; then
the queue never moves.  `flush` joins one more timestamp and not all that wait, and puts out none of
its tuples that found no match.  And it reads the timestamp of a channel that was never heard.
`AcceptOk` and `FlushOk` exclude this, and `rows_of_guarded` says that then what is put out is the
join. -/

set_option autoImplicit false
set_option linter.unusedSectionVars false

namespace Tigon.Hfta

inductive Channel
  | left | right
deriving DecidableEq, Repr

namespace Channel

def other : Channel → Channel
  | left => right
  | right => left

@[simp] theorem other_other (i : Channel) : i.other.other = i := by
  cases i <;> rfl

theorem other_ne (i : Channel) : i.other ≠ i := by
  cases i <;> decide

theorem forall_iff {p : Channel → Prop} : (∀ i, p i) ↔ p left ∧ p right := by
  constructor
  · intro h
    exact ⟨h left, h right⟩
  · rintro ⟨hleft, hright⟩ i
    cases i with
    | left => exact hleft
    | right => exact hright

instance {p : Channel → Prop} [DecidablePred p] : Decidable (∀ i, p i) :=
  decidable_of_iff (p left ∧ p right) forall_iff.symm

theorem eq_or_eq_other (i j : Channel) : j = i ∨ j = i.other := by
  cases i <;> cases j <;> decide

end Channel

/-- How the generated functor reads tuples and writes rows.  The type `T` is that of timestamps, and
`K` that of hash keys. -/
structure JoinFunc (D T K R : Type) where
  tempStatusReceived : Channel → D → Bool
  loadTs : Channel → D → Option T
  applyPrefilter : Channel → D → Bool
  createKey : Channel → D → Option K
  /-- The row of two tuples that meet the rest of the join predicate. -/
  createOutputTuple : D → D → Option R
  /-- The row of a tuple with an empty one. -/
  createPaddedTuple : Channel → D → Option R
  createTempStatusTuple : Option D → Option D → R
  hasher : K → Nat
  /-- The type of the join: which channels are padded. -/
  joinType : Channel → Bool

/-- `currTs` is `none` as long as `curr_ts_valid` is false.  A tuple in a queue or a table comes
with its timestamp, and one in a table also with the flag of its key. -/
structure JoinOperator {D T K R : Type} (func : JoinFunc D T K R) where
  inputQueue : Channel → List (T × D)
  maxInputTs : Channel → Option T
  maxInputTuple : Channel → Option D
  currTs : Option T
  joinTbl : Channel → HashTable K ((T × D) × Bool) func.hasher

variable {D T K R : Type} [LinearOrder T] [DecidableEq K]

namespace JoinFunc

variable (func : JoinFunc D T K R)

/-- The row of a tuple of channel `i` and one of the other channel. -/
def outputTuple : Channel → D → D → Option R
  | .left, d, o => func.createOutputTuple d o
  | .right, d, o => func.createOutputTuple o d

/-- The row of two tuples that match: their timestamps and keys are equal, and they meet the rest of
the predicate. -/
def pairOf (i : Channel) (e o : T × D) : Option R :=
  if e.1 = o.1 ∧ (func.createKey i e.2).isSome ∧ func.createKey i e.2 =
    func.createKey i.other o.2 then
    func.outputTuple i e.2 o.2
  else none

/-- The row of a tuple that matches nothing. -/
def padOf (i : Channel) (e : T × D) : Option R :=
  if func.joinType i then (func.createKey i e.2).bind fun _ ↦ func.createPaddedTuple i e.2 else none

/-- The tuple that a channel gets, if it is to be joined. -/
def admitted (i : Channel) (x : Channel × D) : Option (T × D) :=
  if x.1 = i ∧ func.tempStatusReceived i x.2 = false ∧ func.applyPrefilter i x.2 then
    (func.loadTs i x.2).map fun t ↦ (t, x.2)
  else none

/-- The timestamps of a channel. -/
def timestamps (i : Channel) (xs : List (Channel × D)) : List T :=
  xs.filterMap fun x ↦ if x.1 = i then func.loadTs i x.2 else none

/-- The join of the tuples of both channels. -/
def joinOf (tuples : Channel → List (T × D)) : List R :=
  OuterJoin.join (func.pairOf .left) (func.padOf .left) (func.padOf .right) (tuples .left)
    (tuples .right)

/-- The rows of the pairs that match. -/
def pairsOf (tuples : Channel → List (T × D)) : List R :=
  OuterJoin.pairs (func.pairOf .left) (tuples .left) (tuples .right)

/-- The rows of the tuples that match nothing. -/
def padsOf (tuples : Channel → List (T × D)) : List R :=
  OuterJoin.allPads (func.pairOf .left) (func.padOf .left) (func.padOf .right) (tuples .left)
    (tuples .right)

/-- The rows of a stream. -/
def reference (xs : List (Channel × D)) : List R :=
  func.joinOf fun i ↦ xs.filterMap (func.admitted i)

end JoinFunc

namespace JoinOperator

variable (func : JoinFunc D T K R)

def init : JoinOperator func where
  inputQueue := fun _ ↦ []
  maxInputTs := fun _ ↦ none
  maxInputTuple := fun _ ↦ none
  currTs := none
  joinTbl := fun _ ↦ .new

variable {func}

/-- The timestamp that a channel is at: that of its first tuple in the queue, or else the last
one. -/
def queueTs (op : JoinOperator func) (i : Channel) : Option T :=
  (op.maxInputTs i).map fun ts ↦ ((op.inputQueue i).head?.map Prod.fst).getD ts

/-- The channel that is behind, by `compare_qts`. -/
def minq (op : JoinOperator func) : Channel :=
  match op.queueTs .left, op.queueTs .right with
  | none, _ => .left
  | some _, none => .right
  | some lts, some rts => if rts < lts then .right else .left

/-- A tuple is put into the table of its channel and joined with those in the other one. -/
def joinTuple (func : JoinFunc D T K R) (i : Channel)
    (tbl : Channel → HashTable K ((T × D) × Bool) func.hasher) (e : T × D) :
    (Channel → HashTable K ((T × D) × Bool) func.hasher) × List (Output R) :=
  match func.createKey i e.2 with
  | none => (tbl, [])
  | some key =>
    let result := ((tbl i.other).findAll key).filterMap fun o ↦ func.outputTuple i e.2 o.1.2
    (Function.update (Function.update tbl i ((tbl i).insert key (e, !result.isEmpty))) i.other
      ((tbl i.other).modifyAll key fun o ↦ (o.1, o.2 || (func.outputTuple i e.2 o.1.2).isSome)),
      result.map .row)

/-- The tuples of a queue that have the current timestamp are joined. -/
def processQueue (op : JoinOperator func) (i : Channel) (ts : T) : JoinOperator func ×
    List (Output R) :=
  let r := Transducer.run (joinTuple func i) op.joinTbl
    ((op.inputQueue i).takeWhile fun e ↦ e.1 = ts)
  ({ op with
      joinTbl := r.1
      inputQueue := Function.update op.inputQueue i
        ((op.inputQueue i).dropWhile fun e ↦ e.1 = ts) }, r.2)

def processJoin (op : JoinOperator func) : JoinOperator func × List (Output R) :=
  match op.currTs with
  | none => (op, [])
  | some ts =>
    (((op.processQueue .left ts).1.processQueue .right ts).1,
      (op.processQueue .left ts).2 ++ ((op.processQueue .left ts).1.processQueue .right ts).2)

/-- The rows of the tuples in a table that found no match. -/
def paddedRows (op : JoinOperator func) (i : Channel) : List (Output R) :=
  if func.joinType i then
    ((op.joinTbl i).entries.filterMap fun e ↦
      if e.2.2 then none else func.createPaddedTuple i e.2.1.2).map .row
  else []

def processOuterJoin (op : JoinOperator func) : JoinOperator func × List (Output R) :=
  ({ op with joinTbl := fun i ↦ (op.joinTbl i).clear.rehash }, op.paddedRows .left ++
    op.paddedRows .right)

/-- The channel is behind the current timestamp, by `compare_qts_to_hashts`. -/
def isPast (op : JoinOperator func) (i : Channel) : Bool :=
  match op.queueTs i, op.currTs with
  | some qts, some ts => ts < qts
  | _, _ => false

/-- The next timestamp has its turn. -/
def advance (op : JoinOperator func) : JoinOperator func × List (Output R) :=
  if op.isPast .left ∧ op.isPast .right then
    ({ op.processOuterJoin.1 with currTs := op.queueTs op.minq }, op.processOuterJoin.2)
  else (op, [])

/-- The first timestamp of a channel. -/
def hear (op : JoinOperator func) (i : Channel) (ts : T) : JoinOperator func :=
  { op with maxInputTs := Function.update op.maxInputTs i (some ts) }

/-- The current timestamp when both channels are heard. -/
def firstContact (op : JoinOperator func) (i : Channel) (ts : T) : JoinOperator func :=
  match op.maxInputTs i, op.maxInputTs i.other with
  | some _, _ => op
  | none, none => op.hear i ts
  | none, some _ => { op.hear i ts with currTs := (op.hear i ts).maxInputTs (op.hear i ts).minq }

/-- A temporal status tuple for the channel that is behind.  Both arguments are the same tuple. -/
def getTempStatus (op : JoinOperator func) : Output R :=
  let tup := (op.maxInputTs op.minq).bind fun _ ↦
    ((op.inputQueue op.minq).head?.map Prod.snd).or (op.maxInputTuple op.minq)
  .tempStatus (func.createTempStatusTuple tup tup)

/-- The last timestamp of the channel. -/
def noteMax (op : JoinOperator func) (i : Channel) (ts : T) (tup : D) : JoinOperator func :=
  if op.maxInputTs i = some ts then op
  else
    { op with
      maxInputTs := Function.update op.maxInputTs i (some ts)
      maxInputTuple := Function.update op.maxInputTuple i (some tup) }

/-- The tuple waits in the queue of its channel, if it is to be joined. -/
def enqueue (op : JoinOperator func) (i : Channel) (ts : T) (tup : D) : JoinOperator func :=
  if func.tempStatusReceived i tup = false ∧ func.applyPrefilter i tup then
    { op with inputQueue := Function.update op.inputQueue i (op.inputQueue i ++ [(ts, tup)]) }
  else op

def acceptTuple (op : JoinOperator func) (x : Channel × D) : JoinOperator func × List (Output R) :=
  match func.loadTs x.1 x.2 with
  | none => (op, [])
  | some ts =>
    let op := op.firstContact x.1 ts
    if ∃ max ∈ op.maxInputTs x.1, ts < max then
      -- out of order ts.
      (op, if func.tempStatusReceived x.1 x.2 then [op.getTempStatus] else [])
    else
      let op := (op.noteMax x.1 ts x.2).enqueue x.1 ts x.2
      let r := op.advance
      let r' := r.1.processJoin
      (r'.1, r.2 ++ r'.2 ++ if func.tempStatusReceived x.1 x.2 then [r'.1.getTempStatus] else [])

/-- What is left.  It fails if a channel was never heard. -/
def flush (op : JoinOperator func) : Option (JoinOperator func × List (Output R)) :=
  (op.queueTs op.minq).map fun ts ↦
    let r := op.processOuterJoin
    let r' := ({ r.1 with currTs := some ts } : JoinOperator func).processJoin
    (r'.1, r.2 ++ r'.2)

/-- The rows put out while the tuples arrive and by a flush after them, if it does not fail. -/
def rowsOf (func : JoinFunc D T K R) (xs : List (Channel × D)) : Option (List R) :=
  (Transducer.run acceptTuple (init func) xs).1.flush.map fun r ↦
    Output.rows ((Transducer.run acceptTuple (init func) xs).2 ++ r.2)

/-! ## The condition -/

/-- When both channels are heard, the one that is behind has no timestamp but its last one in its
queue. -/
def AcceptOk (op : JoinOperator func) (x : Channel × D) : Prop :=
  ∀ ts ∈ func.loadTs x.1 x.2, op.maxInputTs x.1 = none → op.maxInputTs x.1.other ≠ none →
    (op.hear x.1 ts).queueTs (op.hear x.1 ts).minq = (op.hear x.1 ts).maxInputTs
    (op.hear x.1 ts).minq

instance (op : JoinOperator func) (x : Channel × D) : Decidable (op.AcceptOk x) :=
  inferInstanceAs (Decidable (∀ ts ∈ func.loadTs x.1 x.2, _))

/-- Both channels were heard, and no row is due of the tuples that wait but for the pairs of the
first timestamp. -/
def FlushOk (op : JoinOperator func) : Prop :=
  (∀ i, op.maxInputTs i ≠ none) ∧ ∀ ts ∈ op.queueTs op.minq,
    func.padsOf (fun i ↦ (op.inputQueue i).filter fun e ↦ e.1 = ts) = [] ∧
      func.joinOf (fun i ↦ (op.inputQueue i).filter fun e ↦ ts < e.1) = []

instance [DecidableEq R] (op : JoinOperator func) : Decidable op.FlushOk :=
  inferInstanceAs (Decidable ((∀ _, _) ∧ ∀ ts ∈ op.queueTs op.minq, _))

end JoinOperator

end Tigon.Hfta
