import Tigon.Hfta.HashTable
import Tigon.Lib.LinkedList
import Tigon.Lib.While

/-!
# The hash table in memory

`HashTable` has a list of items for each bucket, and a list of the buckets in use.  In memory both
are made of pointers: an item has a pointer to the `next` one of its chain, and a bucket has one to
the bucket that came into use after it and one to the bucket before it.  `LinkedTable` is the table
with these; a pointer is an address or, for a bucket, its index.  An operation that follows a null
pointer, or a pointer to an item that was deleted, does not return a table, and neither does
`rehash` of a table with items. -/

set_option autoImplicit false

namespace Tigon.Hfta

open LinkedList While

universe u v

variable {K : Type u} {V : Type v}

structure DataItem (K : Type u) (V : Type v) where
  first : K
  second : V
  /-- The next item of the chain. -/
  next : Option Nat

structure HashBucket where
  data : Option Nat := none
  /-- The next one of the buckets in use. -/
  nextBucket : Option Nat := none
  prevBucket : Option Nat := none

/-- The table.  `freed` has the keys and values that were deleted with their items. -/
structure LinkedTable (K : Type u) (V : Type v) where
  items : Nat → Option (DataItem K V)
  buckets : Nat → HashBucket
  loadFactor : ℚ
  size : Nat
  maxSize : Nat
  numBuckets : Nat
  hashMask : Nat
  firstBucket : Option Nat
  lastBucket : Option Nat
  freed : List (K × V)

namespace LinkedTable

/-- `for (nb = 2; nb < n_buckets; nb *= 2)`. -/
def roundUp (n : Nat) : Nat → Nat → Nat
  | 0, nb => nb
  | fuel + 1, nb => if nb < n then roundUp n fuel (nb * 2) else nb

def new (n : Nat) (load : ℚ) : LinkedTable K V where
  items := fun _ ↦ none
  buckets := fun _ ↦ {}
  loadFactor := load
  size := 0
  maxSize := 0
  numBuckets := roundUp n n 2
  hashMask := roundUp n n 2 - 1
  firstBucket := none
  lastBucket := none
  freed := []

def setItem (t : LinkedTable K V) (a : Nat) (d : Option (DataItem K V)) : LinkedTable K V :=
  { t with items := Function.update t.items a d }

def setData (t : LinkedTable K V) (i : Nat) (p : Option Nat) : LinkedTable K V :=
  { t with buckets := Function.update t.buckets i { t.buckets i with data := p } }

def setNextBucket (t : LinkedTable K V) (i : Nat) (p : Option Nat) : LinkedTable K V :=
  { t with buckets := Function.update t.buckets i { t.buckets i with nextBucket := p } }

def setPrevBucket (t : LinkedTable K V) (i : Nat) (p : Option Nat) : LinkedTable K V :=
  { t with buckets := Function.update t.buckets i { t.buckets i with prevBucket := p } }

/-! ## Inserting and finding -/

section Operations

variable (hasher : K → Nat) (equal : K → K → Bool)

def bucketIndex (t : LinkedTable K V) (key : K) : Nat := hasher key &&& t.hashMask

/-- A bucket that had no items becomes the last one of those in use. -/
def appendBucket (t : LinkedTable K V) (i : Nat) : Option (LinkedTable K V) :=
  let linked := match t.firstBucket with
    | none => some { t with firstBucket := some i }
    | some _ => t.lastBucket.map fun last ↦ t.setNextBucket last (some i)
  linked.map fun t ↦
    let t := match t.lastBucket with
      | some last => t.setPrevBucket i (some last)
      | none => t
    { t with lastBucket := some i }

/-- An item is counted. -/
def count (t : LinkedTable K V) : LinkedTable K V :=
  { t with size := t.size + 1, maxSize := max t.maxSize (t.size + 1) }

/-- `insert`, where the new item is at the address `d`. -/
def insert (d : Nat) (t : LinkedTable K V) (key : K) (val : V) : Option (LinkedTable K V) :=
  let i := t.bucketIndex hasher key
  let linked := match (t.buckets i).data with
    | none => ((t.setItem d (some ⟨key, val, none⟩)).setData i (some d)).appendBucket i
    | some temp => some ((t.setItem d (some ⟨key, val, some temp⟩)).setData i (some d))
  linked.map count

/-- The first item of a chain with an equal key, and the item before it. -/
def seek (t : LinkedTable K V) (key : K) : Nat → Option Nat → Option Nat →
    Option (Option Nat × Option Nat)
  | _, prev, none => some (prev, none)
  | 0, _, some _ => none
  | fuel + 1, prev, some temp => (t.items temp).bind fun item ↦
    if equal item.first key then some (prev, some temp) else seek t key fuel (some temp) item.next

/-- A position in the table. -/
structure Iterator where
  bucket : Option Nat
  data : Option Nat
deriving DecidableEq, Repr

/-- `end()`. -/
def Iterator.atEnd : Iterator := ⟨none, none⟩

def find (fuel : Nat) (t : LinkedTable K V) (key : K) : Option Iterator :=
  let i := t.bucketIndex hasher key
  match (t.buckets i).data with
  | none => some Iterator.atEnd
  | some a => (t.seek equal key fuel none (some a)).map fun found ↦
    match found.2 with
    | none => Iterator.atEnd
    | some temp => ⟨some i, some temp⟩

def begin (t : LinkedTable K V) : Iterator where
  bucket := t.firstBucket
  data := t.firstBucket.bind fun i ↦ (t.buckets i).data

/-- `operator++`. -/
def advance (t : LinkedTable K V) (it : Iterator) : Option Iterator :=
  it.data.bind fun a ↦ (t.items a).bind fun item ↦
    match item.next with
    | some next => some { it with data := some next }
    | none => it.bucket.map fun i ↦
      { bucket := (t.buckets i).nextBucket
        data := (t.buckets i).nextBucket.bind fun j ↦ (t.buckets j).data }

/-- Like `advance`, but does not go beyond the end of the chain. -/
def next (t : LinkedTable K V) (it : Iterator) : Option Iterator :=
  it.data.bind fun a ↦ (t.items a).map fun item ↦
    match item.next with
    | some next => { it with data := some next }
    | none => Iterator.atEnd

/-- What an iteration visits up to `end()`. -/
def iterate (move : Iterator → Option Iterator) : Nat → Iterator → Option (List Nat)
  | 0, _ => none
  | fuel + 1, it =>
    if it = Iterator.atEnd then some []
    else it.data.bind fun a ↦ (move it).bind fun it' ↦ (iterate move fuel it').map fun as ↦ a :: as

/-! ## Erasing -/

/-- A bucket that has no items any more is taken out of those in use. -/
def unlinkBucket (t : LinkedTable K V) (i : Nat) : LinkedTable K V :=
  let t := match (t.buckets i).nextBucket with
    | some next => t.setPrevBucket next (t.buckets i).prevBucket
    | none => { t with lastBucket := (t.buckets i).prevBucket }
  let t := match (t.buckets i).prevBucket with
    | some prev => t.setNextBucket prev (t.buckets i).nextBucket
    | none => { t with firstBucket := (t.buckets i).nextBucket }
  (t.setNextBucket i none).setPrevBucket i none

/-- An item is taken out of its chain; `prev` is the one before it. -/
def unlinkItem (t : LinkedTable K V) (i : Nat) (prev : Option Nat) (item : DataItem K V) :
    Option (LinkedTable K V) :=
  match prev with
  | none =>
    let t := t.setData i item.next
    some (if item.next = none then t.unlinkBucket i else t)
  | some p => (t.items p).map fun before ↦ t.setItem p (some { before with next := item.next })

/-- `erase` and, with the key and the value, `erase_full`. -/
def eraseWith (full : Bool) (fuel : Nat) (t : LinkedTable K V) (key : K) :
    Option (LinkedTable K V) :=
  let i := t.bucketIndex hasher key
  match (t.buckets i).data with
  | none => some t
  | some a => (t.seek equal key fuel none (some a)).bind fun found ↦
    match found.2 with
    | none => some t
    | some temp => (t.items temp).bind fun item ↦
      let t : LinkedTable K V := { t with size := t.size - 1 }
      (t.unlinkItem i found.1 item).map fun t ↦
        let t := if full then { t with freed := (item.first, item.second) :: t.freed } else t
        t.setItem temp none

def erase (fuel : Nat) (t : LinkedTable K V) (key : K) : Option (LinkedTable K V) :=
  t.eraseWith hasher equal false fuel key

def eraseFull (fuel : Nat) (t : LinkedTable K V) (key : K) : Option (LinkedTable K V) :=
  t.eraseWith hasher equal true fuel key

end Operations

/-! ## Clearing and rehashing -/

/-- The items of a chain are deleted. -/
def deleteChain : Nat → (Nat → Option (DataItem K V)) → Nat → Option (Nat → Option (DataItem K V))
  | 0, _, _ => none
  | fuel + 1, items, temp => (items temp).bind fun item ↦
    match item.next with
    | some next => deleteChain fuel (Function.update items temp none) next
    | none => some (Function.update items temp none)

def clearBuckets : Nat → LinkedTable K V → Option (LinkedTable K V)
  | 0, _ => none
  | fuel + 1, t =>
    match t.firstBucket with
    | none => some t
    | some b => (t.buckets b).data.bind fun temp ↦ (deleteChain fuel t.items temp).bind fun items ↦
      let t := ({ t with items := items }).setData b none
      let t := { t with firstBucket := (t.buckets b).nextBucket }
      clearBuckets fuel ((t.setNextBucket b none).setPrevBucket b none)

def clear (fuel : Nat) (t : LinkedTable K V) : Option (LinkedTable K V) :=
  (clearBuckets fuel t).map fun t ↦ { t with lastBucket := none, size := 0 }

/-- The table gets twice as many buckets if it was too full.  If it is not empty the program
ends. -/
def rehash (t : LinkedTable K V) : Option (LinkedTable K V) :=
  if t.size ≠ 0 then none
  else
    let t := if t.loadFactor < (t.maxSize : ℚ) / t.numBuckets then
        { t with
          numBuckets := t.numBuckets * 2, hashMask := t.numBuckets * 2 - 1, buckets := fun _ ↦ {} }
      else t
    some { t with maxSize := t.size }

end LinkedTable

end Tigon.Hfta
