import Tigon.Hfta.LinkedTableRuns

/-!
# The hash set

`hash_set` is a second copy of the hash table: its items have no values, and its buckets no pointers
back.  Here it is a `LinkedTable` whose `prevBucket` pointers are null throughout; `find`, the
iterators, `clear` and `rehash` are those of the table.

Its own `erase` takes an item out of its chain, but leaves a bucket without items among those in
use.  From there on an iteration does not come to an end, and neither does `clear`; the next item of
the bucket links it to itself.

* `forget` — the set is the table without the pointers back, as long as no bucket loses its last
  item (`Keeps`, `Runs`);
* `setSound_of_runs` — **each set that such a run comes to is sound, and stays so exactly if the
  next operation is such a one too**.
-/

set_option autoImplicit false

namespace Tigon.Hfta

open LinkedList While LinkedTable

universe u

variable {K : Type u}

/-- The items have no values, and the buckets no pointers back. -/
abbrev HashSet (K : Type u) := LinkedTable K Unit

namespace HashSet

section

variable (hasher : K → Nat) (equal : K → K → Bool)

/-- A bucket that had no items becomes the last one of those in use. -/
def appendBucket (s : HashSet K) (i : Nat) : Option (HashSet K) :=
  let linked := match s.firstBucket with
    | none => some { s with firstBucket := some i }
    | some _ => s.lastBucket.map fun last ↦ s.setNextBucket last (some i)
  linked.map fun s ↦ { s with lastBucket := some i }

/-- `insert`, where the new item is at the address `d`. -/
def insert (d : Nat) (s : HashSet K) (key : K) : Option (HashSet K) :=
  let i := s.bucketIndex hasher key
  let linked := match (s.buckets i).data with
    | none => appendBucket ((s.setItem d (some ⟨key, (), none⟩)).setData i (some d)) i
    | some temp => some ((s.setItem d (some ⟨key, (), some temp⟩)).setData i (some d))
  linked.map LinkedTable.count

/-- `erase`.  The bucket is not taken out of those in use. -/
def erase (fuel : Nat) (s : HashSet K) (key : K) : Option (HashSet K) :=
  let i := s.bucketIndex hasher key
  match (s.buckets i).data with
  | none => some s
  | some a => (s.seek equal key fuel none (some a)).bind fun found ↦
    match found.2 with
    | none => some s
    | some temp => (s.items temp).bind fun item ↦
      let s : HashSet K := { s with size := s.size - 1 }
      let unlinked : Option (HashSet K) := match found.1 with
        | none => some (s.setData i item.next)
        | some prev =>
          (s.items prev).map fun before ↦ s.setItem prev (some { before with next := item.next })
      unlinked.map fun s ↦ s.setItem temp none

inductive Op (K : Type u)
  | insert (d : Nat) (key : K)
  | erase (key : K)
  | clear
  | rehash

/-- The same operation on a table. -/
def Op.toTable : Op K → LinkedTable.Op K Unit
  | .insert d key => .insert d key ()
  | .erase key => .erase key
  | .clear => .clear
  | .rehash => .rehash

/-- The new address is a free one, and a set that is rehashed has no items. -/
def Op.Allowed (s : HashSet K) (op : Op K) : Prop := op.toTable.Allowed s

def exec (fuel : Nat) (s : HashSet K) : Op K → Option (HashSet K)
  | .insert d key => insert hasher d s key
  | .erase key => erase hasher equal fuel s key
  | .clear => s.clear fuel
  | .rehash => s.rehash

/-- The item that is erased is not the only one of its bucket. -/
def Keeps (s : HashSet K) : Op K → Prop
  | .erase key =>
    ∀ a item, (s.buckets (s.bucketIndex hasher key)).data = some a → s.items a = some item →
      equal item.first key = true → item.next ≠ none
  | _ => True

/-- A run whose operations all meet a condition, the last one first, and the set it comes to. -/
inductive Runs (meets : HashSet K → Op K → Prop) : List (Op K) → HashSet K → Prop
  | new (n : Nat) (load : ℚ) : Runs meets [] (LinkedTable.new n load)
  | step {ops : List (Op K)} {s s' : HashSet K} {op : Op K} (run : Runs meets ops s)
      (allowed : op.Allowed s) (met : meets s op)
      (exec : Returns (fun fuel ↦ exec hasher equal fuel s op) s') : Runs meets (op :: ops) s'

/-- The items that are in the set after the operations, with their addresses, the last one first. -/
def stored (ops : List (Op K)) : List (K × Nat × Unit) :=
  LinkedTable.stored equal (ops.map Op.toTable)

/-- The set has the items `l`. -/
structure SetSound (l : List (K × Nat × Unit)) (s : HashSet K) : Prop where
  linked : ∃ used : List Nat, used.Nodup ∧ (∀ i, i ∈ used ↔ datas s.buckets i ≠ none) ∧
    Linked (nexts s.buckets) s.firstBucket used ∧ s.lastBucket = used.getLast?
  index_lt : ∀ key, s.bucketIndex hasher key < s.numBuckets
  size_eq : s.size = l.length
  /-- The items are at different addresses, and no other ones are in memory. -/
  nodup : (addrs l).Nodup
  inMemory : ∀ e ∈ l, Stored s.items e
  allocated : ∀ a, s.items a ≠ none → a ∈ addrs l
  /-- An iteration visits each item once. -/
  iterate : ∃ visited : List Nat, Returns (fun fuel ↦ iterate s.advance fuel s.begin) visited ∧
    visited.Perm (addrs l)
  find : ∀ key, ∃ it, Returns (fun fuel ↦ s.find hasher equal fuel key) it ∧
    (it ≠ LinkedTable.Iterator.atEnd ↔ ∃ e ∈ l, equal e.1 key = true) ∧
      it.data = (l.find? fun e ↦ equal e.1 key).map addr

end

/-! ## The table without the pointers back -/

def forget (t : HashSet K) : HashSet K :=
  { t with buckets := fun i ↦ { t.buckets i with prevBucket := none } }

section

variable (hasher : K → Nat) (equal : K → K → Bool) (t : HashSet K)

theorem forget_setPrevBucket (i : Nat) (p : Option Nat) : forget (t.setPrevBucket i p) =
    forget t := by
  refine congrArg (fun b ↦ ({ t with buckets := b } : HashSet K)) (funext fun j ↦ ?_)
  by_cases hj : j = i
  · subst hj
    simp [setPrevBucket]
  · simp [setPrevBucket, hj]

theorem forget_setNextBucket (i : Nat) (p : Option Nat) :
    forget (t.setNextBucket i p) = (forget t).setNextBucket i p := by
  refine congrArg (fun b ↦ ({ t with buckets := b } : HashSet K)) (funext fun j ↦ ?_)
  by_cases hj : j = i
  · subst hj
    simp [setNextBucket, forget]
  · simp [setNextBucket, forget, hj]

theorem forget_setData (i : Nat) (p : Option Nat) : forget (t.setData i p) =
    (forget t).setData i p := by
  refine congrArg (fun b ↦ ({ t with buckets := b } : HashSet K)) (funext fun j ↦ ?_)
  by_cases hj : j = i
  · subst hj
    simp [setData, forget]
  · simp [setData, forget, hj]

theorem setPrevBucket_forget (i : Nat) : (forget t).setPrevBucket i none = forget t := by
  refine congrArg (fun b ↦ ({ t with buckets := b } : HashSet K)) ?_
  exact Function.update_eq_self i (forget t).buckets

theorem seek_forget (key : K) (fuel : Nat) (prev p : Option Nat) :
    (forget t).seek equal key fuel prev p = t.seek equal key fuel prev p := by
  induction fuel generalizing prev p with
  | zero => cases p <;> rfl
  | succ fuel ih =>
    cases p with
    | none => rfl
    | some temp =>
      rw [seek, seek]
      exact congrArg _ (funext fun item ↦ by rw [ih])

theorem find_forget (fuel : Nat) (key : K) : (forget t).find hasher equal fuel key =
    t.find hasher equal fuel key := by
  simp only [LinkedTable.find, seek_forget]
  rfl

/-- The link to a bucket that comes into use. -/
def linkFirst (t : HashSet K) (i : Nat) : Option (HashSet K) :=
  match t.firstBucket with
  | none => some { t with firstBucket := some i }
  | some _ => t.lastBucket.map fun last ↦ t.setNextBucket last (some i)

/-- The link back from it, and the end of the buckets in use. -/
def linkLast (t : HashSet K) (i : Nat) : HashSet K :=
  match t.lastBucket with
  | none => { t with lastBucket := some i }
  | some last => { t.setPrevBucket i (some last) with lastBucket := some i }

theorem linkFirst_forget (i : Nat) : linkFirst (forget t) i = (linkFirst t i).map forget := by
  have hmap : t.lastBucket.map (fun last ↦ (forget t).setNextBucket last (some i)) =
      (t.lastBucket.map fun last ↦ t.setNextBucket last (some i)).map forget := by
    rw [Option.map_map]
    exact congrArg (fun f ↦ t.lastBucket.map f)
      (funext fun last ↦ (forget_setNextBucket t last (some i)).symm)
  rw [linkFirst, linkFirst]
  split
  case h_1 h =>
    have h' : t.firstBucket = none := h
    rw [h']
    rfl
  case h_2 first h =>
    have h' : t.firstBucket = some first := h
    rw [h']
    exact hmap

theorem appendBucket_forget (i : Nat) :
    appendBucket (forget t) i = (LinkedTable.appendBucket t i).map forget := by
  have hlast : ∀ u : HashSet K,
      ({ forget u with lastBucket := some i } : HashSet K) = forget (linkLast u i) := by
    intro u
    rw [linkLast]
    rcases u.lastBucket with _ | last
    · rfl
    · exact congrArg (fun u : HashSet K ↦ ({ u with lastBucket := some i } : HashSet K))
        (forget_setPrevBucket u i (some last)).symm
  have happend : LinkedTable.appendBucket t i = (linkFirst t i).map fun u ↦ linkLast u i := by
    rw [LinkedTable.appendBucket, linkFirst]
    refine congrArg (fun f ↦ Option.map f _) (funext fun u ↦ ?_)
    rw [linkLast]
    rcases u.lastBucket with _ | last <;> rfl
  calc appendBucket (forget t) i
    _ = (linkFirst (forget t) i).map fun s ↦ { s with lastBucket := some i } := rfl
    _ = (linkFirst t i).map ((fun s : HashSet K ↦ { s with lastBucket := some i }) ∘ forget) := by
      rw [linkFirst_forget, Option.map_map]
    _ = (LinkedTable.appendBucket t i).map forget := by
      rw [happend, Option.map_map]
      exact congrArg (fun f ↦ Option.map f _) (funext hlast)

/-- **`insert`** is the one of the table. -/
theorem insert_forget (d : Nat) (key : K) :
    HashSet.insert hasher d (forget t) key = (LinkedTable.insert hasher d t key ()).map forget := by
  have hcount : ∀ u : Option (HashSet K), (u.map forget).map LinkedTable.count =
    (u.map LinkedTable.count).map forget := by
    intro u
    cases u <;> rfl
  have hindex : (forget t).bucketIndex hasher key = t.bucketIndex hasher key := rfl
  have hset : ∀ next, ((forget t).setItem d (some ⟨key, (), next⟩)).setData
      (t.bucketIndex hasher key) (some d) =
        forget ((t.setItem d (some ⟨key, (), next⟩)).setData (t.bucketIndex hasher key) (some d)) :=
          fun next ↦
    (forget_setData (t.setItem d (some ⟨key, (), next⟩)) _ _).symm
  rcases hdata : (t.buckets (t.bucketIndex hasher key)).data with _ | temp
  · have hdata' : ((forget t).buckets (t.bucketIndex hasher key)).data = none := hdata
    simp only [HashSet.insert, LinkedTable.insert, hindex, hdata, hdata']
    rw [hset, appendBucket_forget, hcount]
  · have hdata' : ((forget t).buckets (t.bucketIndex hasher key)).data = some temp := hdata
    simp only [HashSet.insert, LinkedTable.insert, hindex, hdata, hdata', hset]
    rfl

/-- Behind an item there is always an item before it. -/
theorem fst_ne_none_of_seek {key : K} {fuel a : Nat} {p : Option Nat}
    {found : Option Nat × Option Nat} (h : t.seek equal key fuel (some a) p = some found) :
      found.1 ≠ none := by
  induction fuel generalizing a p with
  | zero =>
    cases p with
    | none =>
      obtain rfl := Option.some.inj h
      exact Option.some_ne_none a
    | some temp => cases h
  | succ fuel ih =>
    cases p with
    | none =>
      obtain rfl := Option.some.inj h
      exact Option.some_ne_none a
    | some temp =>
      rw [seek] at h
      obtain ⟨item, -, hround⟩ := Option.bind_eq_some_iff.mp h
      split at hround
      · obtain rfl := Option.some.inj hround
        exact Option.some_ne_none a
      · exact ih hround

/-- Only the first item of a chain has none before it. -/
theorem of_seek_eq {key : K} {fuel a temp : Nat}
    (h : t.seek equal key fuel none (some a) = some (none, some temp)) :
    temp = a ∧ ∃ item, t.items a = some item ∧ equal item.first key = true := by
  cases fuel with
  | zero => cases h
  | succ fuel =>
    rw [seek] at h
    obtain ⟨item, hitem, hround⟩ := Option.bind_eq_some_iff.mp h
    split at hround
    case isTrue hequal =>
      obtain ⟨-, htemp⟩ := Prod.mk.inj (Option.some.inj hround)
      exact ⟨(Option.some.inj htemp).symm, item, hitem, hequal⟩
    case isFalse => exact absurd rfl (fst_ne_none_of_seek equal t hround)

/-- **`erase`** is the one of the table if the bucket keeps an item. -/
theorem erase_forget (key : K) (hkeeps : Keeps hasher equal (forget t) (.erase key)) (fuel : Nat) :
    HashSet.erase hasher equal fuel (forget t) key = (LinkedTable.erase hasher equal fuel t key).map
      forget := by
  have hindex : (forget t).bucketIndex hasher key = t.bucketIndex hasher key := rfl
  rcases hdata : (t.buckets (t.bucketIndex hasher key)).data with _ | a
  · have hdata' : ((forget t).buckets (t.bucketIndex hasher key)).data = none := hdata
    simp only [HashSet.erase, LinkedTable.erase, eraseWith, hindex, hdata, hdata', Option.map_some]
  have hdata' : ((forget t).buckets (t.bucketIndex hasher key)).data = some a := hdata
  simp only [HashSet.erase, LinkedTable.erase, eraseWith, hindex, hdata, hdata', seek_forget]
  rcases hseek : t.seek equal key fuel none (some a) with _ | ⟨prev, _ | temp⟩
  · rfl
  · rfl
  rw [Option.bind_some, Option.bind_some]
  rcases hitem : t.items temp with _ | item
  · have hitem' : (forget t).items temp = none := hitem
    simp only [hitem, hitem', Option.bind_none, Option.map_none]
  have hitem' : (forget t).items temp = some item := hitem
  simp only [hitem, hitem', Option.bind_some]
  rcases prev with _ | p
  · -- the first item of the chain is not the only one
    obtain ⟨rfl, item', hitem₁, hequal⟩ := of_seek_eq equal t hseek
    obtain rfl := Option.some.inj (hitem.symm.trans hitem₁)
    have hnext : item.next ≠ none := hkeeps _ item hdata hitem hequal
    simp only [unlinkItem, if_neg hnext]
    let u : HashSet K := { t with size := t.size - 1 }
    exact congrArg some (congrArg (fun v : HashSet K ↦ v.setItem temp none)
      (forget_setData u (t.bucketIndex hasher key) item.next).symm)
  · simp only [unlinkItem]
    rcases hbefore : t.items p with _ | before
    · have hbefore' : (forget t).items p = none := hbefore
      simp only [hbefore', Option.map_none]
    · have hbefore' : (forget t).items p = some before := hbefore
      simp only [hbefore', Option.map_some]
      rfl

/-- The first bucket of those in use is cleared. -/
def clearFirst (t : HashSet K) (b : Nat) (items : Nat → Option (DataItem K Unit)) : HashSet K :=
  let t := ({ t with items := items } : HashSet K).setData b none
  let t := { t with firstBucket := (t.buckets b).nextBucket }
  (t.setNextBucket b none).setPrevBucket b none

theorem clearFirst_forget (b : Nat) (items : Nat → Option (DataItem K Unit)) :
    clearFirst (forget t) b items = forget (clearFirst t b items) := by
  have hdata : ({ forget t with items := items } : HashSet K).setData b none =
    forget (({ t with items := items } : HashSet K).setData b none) :=
    (forget_setData ({ t with items := items } : HashSet K) b none).symm
  have hset : ∀ u : HashSet K, ((forget u).setNextBucket b none).setPrevBucket b none =
      forget ((u.setNextBucket b none).setPrevBucket b none) := fun u ↦ by
    rw [← forget_setNextBucket, setPrevBucket_forget, forget_setPrevBucket]
  let u : HashSet K := ({ t with items := items } : HashSet K).setData b none
  rw [clearFirst, hdata]
  exact hset { u with firstBucket := (u.buckets b).nextBucket }

theorem clearBuckets_of_first {fuel b temp : Nat} (hfirst : t.firstBucket = some b)
    (hdata : (t.buckets b).data = some temp) :
    clearBuckets (fuel + 1) t =
      (deleteChain fuel t.items temp).bind fun items ↦ clearBuckets fuel
      (clearFirst t b items) := by
  rw [clearBuckets]
  split
  case h_1 h => cases hfirst.symm.trans h
  case h_2 b' h =>
    obtain rfl := Option.some.inj (hfirst.symm.trans h)
    rw [hdata]
    rfl

theorem clearBuckets_of_first_none {fuel b : Nat} (hfirst : t.firstBucket = some b)
    (hdata : (t.buckets b).data = none) : clearBuckets (fuel + 1) t = none := by
  rw [clearBuckets]
  split
  case h_1 h => cases hfirst.symm.trans h
  case h_2 b' h =>
    obtain rfl := Option.some.inj (hfirst.symm.trans h)
    rw [hdata]
    rfl

theorem clearBuckets_forget (fuel : Nat) : clearBuckets fuel (forget t) =
    (clearBuckets fuel t).map forget := by
  induction fuel generalizing t with
  | zero => rfl
  | succ fuel ih =>
    rcases hfirst : t.firstBucket with _ | b
    · have hfirst' : (forget t).firstBucket = none := hfirst
      simp only [clearBuckets, hfirst, hfirst', Option.map_some]
    · rcases hdata : (t.buckets b).data with _ | temp
      · rw [clearBuckets_of_first_none t hfirst hdata]
        exact clearBuckets_of_first_none (forget t) hfirst hdata
      · rw [clearBuckets_of_first t hfirst hdata]
        refine (clearBuckets_of_first (forget t) hfirst hdata).trans ?_
        rw [Option.map_bind]
        refine congrArg _ (funext fun items ↦ ?_)
        rw [clearFirst_forget, ih]
        rfl

theorem clear_forget (fuel : Nat) : (forget t).clear fuel = (t.clear fuel).map forget := by
  rw [clear, clear, clearBuckets_forget, Option.map_map, Option.map_map]
  rfl

theorem rehash_of_ne (h : t.size ≠ 0) : t.rehash = none := if_pos h

theorem rehash_of_lt (h : ¬ t.size ≠ 0) (hload : t.loadFactor < (t.maxSize : ℚ) / t.numBuckets) :
    t.rehash = some { t with
      numBuckets := t.numBuckets * 2, hashMask := t.numBuckets * 2 - 1, buckets :=
        fun _ ↦ {}, maxSize := t.size } := by
  rw [rehash, if_neg h]
  simp only [if_pos hload]

theorem rehash_of_not_lt (h : ¬ t.size ≠ 0)
    (hload : ¬ t.loadFactor < (t.maxSize : ℚ) / t.numBuckets) :
      t.rehash = some { t with maxSize := t.size } := by
  rw [rehash, if_neg h]
  simp only [if_neg hload]

theorem rehash_forget : (forget t).rehash = t.rehash.map forget := by
  by_cases hsize : t.size ≠ 0
  · rw [rehash_of_ne t hsize]
    exact rehash_of_ne (forget t) hsize
  · by_cases hload : t.loadFactor < (t.maxSize : ℚ) / t.numBuckets
    · rw [rehash_of_lt t hsize hload]
      exact rehash_of_lt (forget t) hsize hload
    · rw [rehash_of_not_lt t hsize hload]
      exact rehash_of_not_lt (forget t) hsize hload

end

/-! ## Runs -/

variable {hasher : K → Nat} {equal : K → K → Bool} {t : HashSet K}

/-- **Each operation is the one of the table,** if no bucket loses its last item by `erase`. -/
theorem exec_forget {op : Op K} (hkeeps : Keeps hasher equal (forget t) op) (fuel : Nat) :
    exec hasher equal fuel (forget t) op = (LinkedTable.exec hasher equal fuel t op.toTable).map
      forget := by
  cases op with
  | insert d key => exact insert_forget hasher t d key
  | erase key => exact erase_forget hasher equal t key hkeeps fuel
  | clear => exact clear_forget t fuel
  | rehash => exact rehash_forget t

section

variable (hhash : ∀ a b, equal a b = true → hasher a = hasher b)

include hhash

variable {T : HashTable K (Nat × Unit) hasher}

variable {l : List (K × Nat × Unit)}

theorem exists_exec (hrep : Represents t T)
    (hpos : 0 < T.numBuckets) (hholds : Holds T l) {op : Op K} (hop : op.Allowed (forget t))
    (hkeeps : Keeps hasher equal (forget t) op) :
    ∃ t', Returns (fun fuel ↦ exec hasher equal fuel (forget t) op) (forget t') ∧
      ∃ T' : HashTable K (Nat × Unit) hasher, Represents t' T' ∧ 0 < T'.numBuckets ∧
        Holds T' (op.toTable.after equal l) := by
  have hop' : op.toTable.Allowed t := by
    cases op <;> exact hop
  obtain ⟨t', ht', hrest⟩ := LinkedTable.exists_exec hhash hrep hpos hholds hop'
  refine ⟨t', ?_, hrest⟩
  simp only [exec_forget hkeeps]
  exact ht'.map forget

/-- **A set that a run comes to is a table without the pointers back.** -/
theorem Runs.exists_represents {ops : List (Op K)} {s : HashSet K}
    (h : Runs hasher equal (Keeps hasher equal) ops s) : ∃ t, s = forget t ∧ ∃ T :
      HashTable K (Nat × Unit) hasher, Represents t T ∧ 0 < T.numBuckets ∧
        Holds T (stored equal ops) := by
  induction h with
  | new n load =>
    exact ⟨_, rfl, _, Represents.new n load, two_pos.trans_le (le_roundUp n n 2),
      Holds.ofBuckets _ _⟩
  | step _ allowed keeps exec ih =>
    obtain ⟨t, rfl, T, hrep, hpos, hholds⟩ := ih
    obtain ⟨t', hexec, hrest⟩ := exists_exec hhash hrep hpos hholds allowed keeps
    exact ⟨t', exec.unique hexec, hrest⟩

theorem setSound_forget (hrep : Represents t T)
    (hpos : 0 < T.numBuckets) (hholds : Holds T l) : SetSound hasher equal l (forget t) := by
  obtain ⟨⟨used, hnodup, hused, hlinked⟩, hindex, hsize, hl, hstored, hallocated,
    hiterate, hfind, -⟩ :=
    LinkedTable.sound hhash hrep hpos hholds
  refine ⟨⟨used, hnodup, hused, hlinked.forward, hlinked.last_eq⟩, hindex, hsize, hl, hstored,
    hallocated, hiterate, fun key ↦ ?_⟩
  obtain ⟨it, hit, hdata, hend⟩ := hfind key
  refine ⟨it, ?_, ?_, hdata⟩
  · simp only [find_forget]
    exact hit
  · constructor
    · intro hne
      by_contra hnone
      refine hne (hend ?_)
      rw [hdata, List.find?_eq_none.mpr fun e he hequal ↦ hnone ⟨e, he, hequal⟩]
      rfl
    · rintro ⟨e, he, hequal⟩ rfl
      have hsome : (l.find? fun e ↦ equal e.1 key).isSome := List.find?_isSome.mpr ⟨e, he, hequal⟩
      obtain ⟨e', he'⟩ := Option.isSome_iff_exists.mp hsome
      rw [he'] at hdata
      cases hdata

omit hhash in
/-- What `erase` does with the only item of a bucket. -/
theorem erase_of_only {s : HashSet K} {key : K} {a : Nat} {item : DataItem K Unit}
    (hdata : (s.buckets (s.bucketIndex hasher key)).data = some a) (hitem : s.items a = some item)
    (hequal : equal item.first key = true) (hnext : item.next = none) :
    Returns (fun fuel ↦ erase hasher equal fuel s key)
      ((({ s with size := s.size - 1 } : HashSet K).setData (s.bucketIndex hasher key) none).setItem
        a none) := by
  refine ⟨1, fun fuel hfuel ↦ ?_⟩
  obtain ⟨fuel, rfl⟩ := Nat.exists_eq_add_of_le' hfuel
  have hseek : s.seek equal key (fuel + 1) none (some a) = some (none, some a) := by
    rw [seek, hitem, Option.bind_some, if_pos hequal]
  simp only [erase, hdata, hseek, Option.bind_some, hitem, hnext, Option.map_some]

/-- **The set is sound after an operation exactly if no bucket lost its last item by it.** -/
theorem exists_setSound_iff (hrep : Represents t T)
    (hpos : 0 < T.numBuckets) (hholds : Holds T l) {op : Op K} (hop : op.Allowed (forget t)) :
    ∃ s', Returns (fun fuel ↦ exec hasher equal fuel (forget t) op) s' ∧
      (SetSound hasher equal (op.toTable.after equal l) s' ↔ Keeps hasher equal (forget t) op) := by
  by_cases hkeeps : Keeps hasher equal (forget t) op
  · obtain ⟨t', hexec, T', hrep', hpos', hholds'⟩ := exists_exec hhash hrep hpos hholds hop hkeeps
    exact ⟨forget t', hexec, iff_of_true (setSound_forget hhash hrep' hpos' hholds') hkeeps⟩
  · cases op with
    | erase key =>
      simp only [Keeps] at hkeeps
      push Not at hkeeps
      obtain ⟨a, item, hdata, hitem, hequal, hnext⟩ := hkeeps
      refine ⟨_, erase_of_only hdata hitem hequal hnext, iff_of_false (fun hsound ↦ ?_) ?_⟩
      · -- the bucket is still linked, and has no item
        obtain ⟨used, -, hused, hlinked, -⟩ := hsound.linked
        have hnexts : nexts ((({ forget t with size := (forget t).size - 1 } : HashSet K).setData
            ((forget t).bucketIndex hasher key) none).setItem a none).buckets =
              nexts t.buckets := nexts_setData _ _ _
        rw [hnexts] at hlinked
        have hmem : (forget t).bucketIndex hasher key ∈ used := by
          rw [hlinked.unique hrep.used.forward, T.mem_used, ne_eq, ← hrep.chains.data_eq_none]
          intro hnone
          cases hnone.symm.trans hdata
        refine (hused _).mp hmem ?_
        exact (congrFun (datas_setData _ _ _) _).trans (Function.update_self _ _ _)
      · intro hkeeps
        exact hkeeps a item hdata hitem hequal hnext
    | insert d key => exact absurd trivial hkeeps
    | clear => exact absurd trivial hkeeps
    | rehash => exact absurd trivial hkeeps

/-- **A set that a run comes to is sound if no bucket loses its last item by `erase`,** and after
the next operation it is still sound exactly if this one meets the condition too. -/
theorem setSound_of_runs {ops : List (Op K)} {s : HashSet K}
    (h : Runs hasher equal (Keeps hasher equal) ops s) :
      SetSound hasher equal (stored equal ops) s ∧ ∀ op : Op K, op.Allowed s → ∃ s',
        Returns (fun fuel ↦ exec hasher equal fuel s op) s' ∧
          (SetSound hasher equal (stored equal (op :: ops)) s' ↔ Keeps hasher equal s op) := by
  obtain ⟨t, rfl, T, hrep, hpos, hholds⟩ := h.exists_represents hhash
  exact ⟨setSound_forget hhash hrep hpos hholds, fun op hop ↦ exists_setSound_iff hhash hrep
    hpos hholds hop⟩

end

theorem setSound_of_runs_two : ∃ s : HashSet Nat, SetSound (fun a ↦ a % 10)
    (fun a b ↦ a % 10 == b % 10) [(15, 2, ()), (5, 1, ())] s := by
  have hrun : ∃ s : HashSet Nat, Runs (fun a ↦ a % 10) (fun a b ↦ a % 10 == b % 10)
      (Keeps (fun a ↦ a % 10) fun a b ↦ a % 10 == b % 10) [.insert 2 15, .insert 1 5] s :=
    ⟨_, .step (.step (.new 8 (3 / 4)) rfl trivial ⟨0, fun _ _ ↦ rfl⟩) rfl trivial
      ⟨0, fun _ _ ↦ rfl⟩⟩
  obtain ⟨s, hs⟩ := hrun
  exact ⟨s, (setSound_of_runs (fun _ _ h ↦ by simpa using h) hs).1⟩

/-- The only item is erased: an iteration starts at a bucket without items. -/
theorem not_setSound : ¬ ∀ (ops : List (Op Nat)) (s : HashSet Nat),
    Runs (fun a ↦ a) (fun a b ↦ a == b) (fun _ _ ↦ True) ops s → SetSound (fun a ↦ a)
      (fun a b ↦ a == b) (stored (fun a b ↦ a == b) ops) s := by
  intro h
  have hrun : ∃ s : HashSet Nat, Runs (fun a ↦ a) (fun a b ↦ a == b) (fun _ _ ↦ True)
      [.erase 5, .insert 1 5] s ∧ s.begin = ⟨some 5, none⟩ :=
    ⟨_, .step (.step (.new 8 (3 / 4)) rfl trivial ⟨0, fun _ _ ↦ rfl⟩) trivial trivial
      (erase_of_only (a := 1) rfl rfl rfl rfl), rfl⟩
  obtain ⟨s, hs, hbegin⟩ := hrun
  obtain ⟨visited, hvisited, -⟩ := (h _ s hs).iterate
  rw [hbegin] at hvisited
  refine not_returns (fun fuel ↦ ?_) hvisited
  cases fuel <;> rfl

end HashSet

end Tigon.Hfta
