import Mathlib

/-!
# The hash table of the stream operators

`hash_table` keeps its items in chains, one chain for each bucket, and links the buckets in use in
the order in which they came into use.  A new item goes to the front of its chain.  The table does
not look whether the key is there already: it can hold several items with equal keys.

An iterator is a bucket and an item of its chain.  Since items are only added at the front, the item
is given here by the number of items from it to the end of the chain; an iterator at the end of the
table is `none`.  `remaining` is what an iteration from there on visits.
-/

set_option autoImplicit false

namespace Tigon.Hfta

open Function List

universe u v

/-- The buckets in use are linked without repetition, and each item is in the bucket of its key. -/
structure HashTable (K : Type u) (V : Type v) (hasher : K → Nat) where
  numBuckets : Nat
  /-- The chain of each bucket. -/
  buckets : Nat → List (K × V)
  /-- The buckets in use, from `first_bucket` to `last_bucket`. -/
  used : List Nat
  size : Nat
  maxSize : Nat
  nodup_used : used.Nodup
  mem_used : ∀ i, i ∈ used ↔ buckets i ≠ []
  index_eq : ∀ i, ∀ e ∈ buckets i, hasher e.1 &&& (numBuckets - 1) = i
  size_eq : size = (used.flatMap buckets).length

/-- A position in the table. -/
structure Iterator where
  bucket : Nat
  /-- The number of items from the item to the end of the chain. -/
  rest : Nat
deriving DecidableEq, Repr

namespace HashTable

variable {K : Type u} {V : Type v} {hasher : K → Nat}

/-- A table without items. -/
def ofBuckets (n maxSize : Nat) : HashTable K V hasher where
  numBuckets := n
  buckets := fun _ ↦ []
  used := []
  size := 0
  maxSize := maxSize
  nodup_used := nodup_nil
  mem_used := fun _ ↦ by simp
  index_eq := fun _ e he ↦ absurd he not_mem_nil
  size_eq := rfl

/-- A new table. -/
def new : HashTable K V hasher := ofBuckets 131072 0

/-- The items in the order of an iteration. -/
def entries (t : HashTable K V hasher) : List (K × V) := t.used.flatMap t.buckets

def keys (t : HashTable K V hasher) : List K := t.entries.map Prod.fst

def empty (t : HashTable K V hasher) : Bool := t.size == 0

/-- The bucket of a key. -/
def index (t : HashTable K V hasher) (key : K) : Nat := hasher key &&& (t.numBuckets - 1)

variable {i : Nat}

theorem flatMap_update_of_notMem {l : List Nat} (f : Nat → List (K × V)) (c : List (K × V))
    (h : i ∉ l) : l.flatMap (update f i c) = l.flatMap f := by
  induction l with
  | nil => rfl
  | cons j l ih =>
    rw [mem_cons, not_or] at h
    rw [flatMap_cons, flatMap_cons, ih h.2, update_of_ne (Ne.symm h.1)]

/-- Changing one chain of the table. -/
theorem exists_flatMap_update {l : List Nat} (hl : l.Nodup) (hi : i ∈ l)
    (f : Nat → List (K × V)) :
    ∃ a b, l.flatMap f = a ++ f i ++ b ∧
      ∀ c, l.flatMap (update f i c) = a ++ c ++ b := by
  obtain ⟨l₁, l₂, rfl⟩ := append_of_mem hi
  obtain ⟨hl₁, hl₂, hne⟩ := nodup_append.mp hl
  have h₁ : i ∉ l₁ := fun h ↦ hne i h i mem_cons_self rfl
  have h₂ : i ∉ l₂ := (nodup_cons.mp hl₂).1
  refine ⟨l₁.flatMap f, l₂.flatMap f, by simp, fun c ↦ ?_⟩
  rw [flatMap_append, flatMap_cons, flatMap_update_of_notMem f c h₁,
    flatMap_update_of_notMem f c h₂, update_self, append_assoc]

/-- The chains after an insertion. -/
theorem perm_flatMap_insert (t : HashTable K V hasher) (i : Nat) (e : K × V) :
    ((if t.buckets i = [] then t.used ++ [i] else t.used).flatMap
      (update t.buckets i (e :: t.buckets i))).Perm (e :: t.used.flatMap t.buckets) := by
  split
  case isTrue h =>
    have hi : i ∉ t.used := fun hi ↦ (t.mem_used i).mp hi h
    rw [flatMap_append, flatMap_update_of_notMem _ _ hi]
    simp [h, perm_append_singleton]
  case isFalse h =>
    obtain ⟨a, b, hab, hc⟩ := exists_flatMap_update t.nodup_used ((t.mem_used i).mpr h) t.buckets
    rw [hc, hab, append_assoc, append_assoc]
    exact perm_middle

def insert (t : HashTable K V hasher) (key : K) (val : V) : HashTable K V hasher where
  numBuckets := t.numBuckets
  buckets := update t.buckets (t.index key) ((key, val) :: t.buckets (t.index key))
  used := if t.buckets (t.index key) = [] then t.used ++ [t.index key] else t.used
  size := t.size + 1
  maxSize := max t.maxSize (t.size + 1)
  nodup_used := by
    split
    case isTrue h =>
      refine t.nodup_used.append (nodup_singleton _) ?_
      simp [t.mem_used, h]
    case isFalse => exact t.nodup_used
  mem_used := fun i ↦ by
    by_cases hi : i = t.index key
    · subst hi
      rw [update_self]
      split
      case isTrue => simp
      case isFalse h => simpa using (t.mem_used _).mpr h
    · rw [update_of_ne hi, ← t.mem_used]
      split
      case isTrue => simp [hi]
      case isFalse => rfl
  index_eq := fun i e he ↦ by
    by_cases hi : i = t.index key
    · subst hi
      rw [update_self, mem_cons] at he
      rcases he with rfl | he
      · rfl
      · exact t.index_eq _ e he
    · rw [update_of_ne hi] at he
      exact t.index_eq i e he
  size_eq := by
    rw [(t.perm_flatMap_insert _ _).length_eq, length_cons, ← t.size_eq]

/-- The value of the first item of a chain with this key is changed. -/
def modifyFirst [DecidableEq K] (key : K) (f : V → V) : List (K × V) → List (K × V)
  | [] => []
  | e :: chain => if e.1 = key then (e.1, f e.2) :: chain else e :: modifyFirst key f chain

theorem map_fst_modifyFirst [DecidableEq K] (key : K) (f : V → V) (chain : List (K × V)) :
    (modifyFirst key f chain).map Prod.fst = chain.map Prod.fst := by
  induction chain with
  | nil => rfl
  | cons e chain ih =>
    rw [modifyFirst]
    split
    · rfl
    · rw [map_cons, map_cons, ih]

/-- The value that `find` gives the iterator of. -/
def find [DecidableEq K] (t : HashTable K V hasher) (key : K) : Option V :=
  ((t.buckets (t.index key)).find? fun e ↦ e.1 = key).map Prod.snd

/-- A change of values in place does not move any item. -/
theorem map_fst_update [DecidableEq K] (t : HashTable K V hasher) (key : K) (f : V → V) (i : Nat) :
    (update t.buckets (t.index key)
      (modifyFirst key f (t.buckets (t.index key))) i).map Prod.fst =
        (t.buckets i).map Prod.fst := by
  by_cases hi : i = t.index key
  · subst hi
    rw [update_self, map_fst_modifyFirst]
  · rw [update_of_ne hi]

/-- The value at `find` is changed in place. -/
def modify [DecidableEq K] (t : HashTable K V hasher) (key : K) (f : V → V) :
    HashTable K V hasher where
  numBuckets := t.numBuckets
  buckets := update t.buckets (t.index key) (modifyFirst key f (t.buckets (t.index key)))
  used := t.used
  size := t.size
  maxSize := t.maxSize
  nodup_used := t.nodup_used
  mem_used := fun i ↦ by
    have h := congrArg length (t.map_fst_update key f i)
    rw [length_map, length_map] at h
    rw [t.mem_used, ← length_pos_iff, ← length_pos_iff, h]
  index_eq := fun i e he ↦ by
    have hmem := mem_map_of_mem (f := Prod.fst) he
    rw [t.map_fst_update key f i] at hmem
    obtain ⟨e', he', heq⟩ := mem_map.mp hmem
    rw [← heq]
    exact t.index_eq i e' he'
  size_eq := by
    have h : (t.used.flatMap (update t.buckets (t.index key)
        (modifyFirst key f (t.buckets (t.index key))))).map Prod.fst =
          (t.used.flatMap t.buckets).map Prod.fst := by
      rw [map_flatMap, map_flatMap]
      simp only [t.map_fst_update key f]
    have hlength := congrArg length h
    rw [length_map, length_map] at hlength
    rw [t.size_eq, hlength]

/-- The items with a key: those that are found from `find` on, up to the end of the chain. -/
def findAll [DecidableEq K] (t : HashTable K V hasher) (key : K) : List V :=
  (t.buckets (t.index key)).filterMap fun e ↦ if e.1 = key then some e.2 else none

/-- The change of an item with the key. -/
def changeAt [DecidableEq K] (key : K) (f : V → V) (e : K × V) : K × V :=
  if e.1 = key then (e.1, f e.2) else e

/-- All items with a key are changed in place. -/
def modifyAll [DecidableEq K] (t : HashTable K V hasher) (key : K) (f : V → V) :
    HashTable K V hasher where
  numBuckets := t.numBuckets
  buckets := fun i ↦ (t.buckets i).map (changeAt key f)
  used := t.used
  size := t.size
  maxSize := t.maxSize
  nodup_used := t.nodup_used
  mem_used := fun i ↦ by rw [t.mem_used, ne_eq, ne_eq, map_eq_nil_iff]
  index_eq := fun i e he ↦ by
    obtain ⟨e', he', rfl⟩ := mem_map.mp he
    have hfst : (changeAt key f e').1 = e'.1 := by
      rw [changeAt]
      split <;> rfl
    rw [hfst]
    exact t.index_eq i e' he'
  size_eq := by
    rw [t.size_eq, ← map_flatMap, length_map]

def clear (t : HashTable K V hasher) : HashTable K V hasher := ofBuckets t.numBuckets t.maxSize

/-- The number of buckets is doubled if more than half as many items were in the table as it has
buckets.  The table has to be empty. -/
def rehash (t : HashTable K V hasher) : HashTable K V hasher :=
  ofBuckets (if t.numBuckets < 2 * t.maxSize then t.numBuckets * 2 else t.numBuckets) t.size

/-! ## Iterators -/

/-- The item of an iterator and the items behind it in the chain. -/
def chainFrom (t : HashTable K V hasher) (it : Iterator) : List (K × V) :=
  (t.buckets it.bucket).drop ((t.buckets it.bucket).length - it.rest)

/-- The buckets in use behind a bucket. -/
def usedAfter (t : HashTable K V hasher) (i : Nat) : List Nat :=
  (t.used.dropWhile fun j ↦ j ≠ i).tail

/-- The first item of the first of the buckets. -/
def firstOf (t : HashTable K V hasher) (used : List Nat) : Option Iterator :=
  used.head?.map fun i ↦ ⟨i, (t.buckets i).length⟩

def begin (t : HashTable K V hasher) : Option Iterator := t.firstOf t.used

def deref (t : HashTable K V hasher) (it : Iterator) : Option (K × V) := (t.chainFrom it).head?

/-- `operator++`. -/
def next (t : HashTable K V hasher) (it : Iterator) : Option Iterator :=
  if 1 < it.rest then some { it with rest := it.rest - 1 } else t.firstOf (t.usedAfter it.bucket)

/-- What an iteration visits from an iterator on. -/
def remaining (t : HashTable K V hasher) : Option Iterator → List (K × V)
  | none => []
  | some it => t.chainFrom it ++ (t.usedAfter it.bucket).flatMap t.buckets

/-- The buckets in use before a bucket. -/
def usedBefore (t : HashTable K V hasher) (i : Nat) : List Nat := t.used.takeWhile fun j ↦ j ≠ i

/-- What an iteration has visited when it is at an iterator. -/
def visited (t : HashTable K V hasher) : Option Iterator → List (K × V)
  | none => t.entries
  | some it => (t.usedBefore it.bucket).flatMap t.buckets ++
    (t.buckets it.bucket).take ((t.buckets it.bucket).length - it.rest)

/-- The iterator is at an item of the table. -/
def Valid (t : HashTable K V hasher) (it : Iterator) : Prop :=
  it.bucket ∈ t.used ∧ 0 < it.rest ∧ it.rest ≤ (t.buckets it.bucket).length

/-! ## What is in the table -/

section Entries

variable (t : HashTable K V hasher) {key : K} {val : V} {e : K × V}

@[simp] theorem entries_ofBuckets (n m : Nat) :
    (ofBuckets n m : HashTable K V hasher).entries = [] := rfl

@[simp] theorem entries_clear : t.clear.entries = [] := rfl

@[simp] theorem entries_rehash : t.rehash.entries = [] := rfl

theorem empty_iff : t.empty = true ↔ t.entries = [] := by
  rw [empty, beq_iff_eq, t.size_eq, length_eq_zero_iff]
  rfl

theorem entries_insert (key : K) (val : V) :
    (t.insert key val).entries.Perm ((key, val) :: t.entries) :=
  t.perm_flatMap_insert (t.index key) (key, val)

/-- An item is in the bucket of its key. -/
theorem mem_entries : e ∈ t.entries ↔ e ∈ t.buckets (t.index e.1) := by
  rw [entries, mem_flatMap]
  constructor
  · rintro ⟨i, -, he⟩
    rw [index, t.index_eq i e he]
    exact he
  · intro he
    exact ⟨_, (t.mem_used _).mpr (ne_nil_of_mem he), he⟩

theorem mem_keys : key ∈ t.keys ↔ ∃ val, (key, val) ∈ t.entries := by
  simp [keys]

variable [DecidableEq K]

theorem find_eq_none : t.find key = none ↔ key ∉ t.keys := by
  rw [find, Option.map_eq_none_iff, find?_eq_none, mem_keys]
  constructor
  · rintro h ⟨val, hval⟩
    exact h _ (t.mem_entries.mp hval) (by simp)
  · rintro h e he heq
    obtain rfl : e.1 = key := by simpa using heq
    exact h ⟨e.2, t.mem_entries.mpr he⟩

theorem mem_of_find (h : t.find key = some val) : (key, val) ∈ t.entries := by
  obtain ⟨e, he, rfl⟩ := Option.map_eq_some_iff.mp h
  obtain rfl : e.1 = key := by simpa using find?_some he
  exact t.mem_entries.mpr (mem_of_find?_eq_some he)

/-- Where no key is repeated, `find` gives the item with the key. -/
theorem find_eq_some_iff (hkeys : t.keys.Nodup) : t.find key = some val ↔
    (key, val) ∈ t.entries := by
  refine ⟨t.mem_of_find, fun h ↦ ?_⟩
  cases hfind : t.find key with
  | none => exact absurd (t.mem_keys.mpr ⟨val, h⟩) (t.find_eq_none.mp hfind)
  | some val' =>
    have heq := inj_on_of_nodup_map hkeys h (t.mem_of_find hfind) rfl
    exact congrArg some (Prod.ext_iff.mp heq).2.symm

/-- In a chain without repeated keys, only the item with the key is changed. -/
theorem modifyFirst_eq_map {chain : List (K × V)} (hchain : (chain.map Prod.fst).Nodup) (key : K)
    (f : V → V) :
    modifyFirst key f chain = chain.map fun e ↦ if e.1 = key then (e.1, f e.2) else e := by
  induction chain with
  | nil => rfl
  | cons e chain ih =>
    rw [map_cons, nodup_cons] at hchain
    rw [modifyFirst, map_cons]
    split
    case isTrue h =>
      have hid : (chain.map fun e' ↦ if e'.1 = key then (e'.1, f e'.2) else e') = chain := by
        conv_rhs => rw [← map_id chain]
        refine map_congr_left fun e' he' ↦ if_neg fun h' ↦ ?_
        exact hchain.1 (mem_map.mpr ⟨e', he', h'.trans h.symm⟩)
      rw [hid]
    case isFalse => rw [ih hchain.2]

theorem entries_modify (hkeys : t.keys.Nodup) (key : K) (f : V → V) :
    (t.modify key f).entries = t.entries.map fun e ↦ if e.1 = key then (e.1, f e.2) else e := by
  rw [entries, entries, map_flatMap]
  refine flatMap_congr fun i hi ↦ ?_
  by_cases hindex : i = t.index key
  · subst hindex
    refine (update_self _ _ _).trans (modifyFirst_eq_map ?_ key f)
    refine hkeys.sublist ?_
    rw [keys, entries, map_flatMap]
    exact sublist_flatten_of_mem (mem_map_of_mem hi)
  · refine (update_of_ne hindex _ _).trans ?_
    conv_lhs => rw [← map_id (t.buckets i)]
    refine map_congr_left fun e he ↦ (if_neg fun h ↦ hindex ?_).symm
    rw [index, ← h, t.index_eq i e he]

theorem keys_modify (key : K) (f : V → V) : (t.modify key f).keys = t.keys := by
  rw [keys, keys, entries, entries, map_flatMap, map_flatMap]
  exact flatMap_congr fun i _ ↦ t.map_fst_update key f i

theorem find_modify (hkeys : t.keys.Nodup) (key : K) (f : V → V) (k : K) :
    (t.modify key f).find k = if k = key then (t.find k).map f else t.find k := by
  have hkeys' : (t.modify key f).keys.Nodup := by rwa [keys_modify]
  refine Option.ext fun v ↦ ?_
  rw [HashTable.find_eq_some_iff _ hkeys', t.entries_modify hkeys, mem_map]
  split
  case isTrue hk =>
    subst hk
    rw [Option.map_eq_some_iff]
    constructor
    · rintro ⟨e, he, heq⟩
      split at heq
      · rename_i hfst
        subst hfst
        exact ⟨e.2, (t.find_eq_some_iff hkeys).mpr he, (Prod.ext_iff.mp heq).2⟩
      · rename_i hfst
        exact absurd (congrArg Prod.fst heq) hfst
    · rintro ⟨v', hv', rfl⟩
      exact ⟨(k, v'), t.mem_of_find hv', if_pos rfl⟩
  case isFalse hk =>
    rw [t.find_eq_some_iff hkeys]
    constructor
    · rintro ⟨e, he, heq⟩
      split at heq
      · rename_i hfst
        exact absurd ((congrArg Prod.fst heq).symm.trans hfst) hk
      · rwa [heq] at he
    · intro h
      exact ⟨(k, v), h, if_neg hk⟩

omit [DecidableEq K] in
theorem nodup_keys_insert (hkeys : t.keys.Nodup) (hnew : key ∉ t.keys) (val : V) :
    (t.insert key val).keys.Nodup := by
  rw [keys, ((t.entries_insert key val).map Prod.fst).nodup_iff, map_cons]
  exact nodup_cons.mpr ⟨hnew, hkeys⟩

theorem find_insert (hkeys : t.keys.Nodup) (hnew : key ∉ t.keys) (val : V) (k : K) :
    (t.insert key val).find k = if k = key then some val else t.find k := by
  have hperm := t.entries_insert key val
  have hkeys' := t.nodup_keys_insert hkeys hnew val
  refine Option.ext fun v ↦ ?_
  rw [HashTable.find_eq_some_iff _ hkeys', hperm.mem_iff, mem_cons, Prod.mk_inj]
  split
  case isTrue hk =>
    subst hk
    have hnot : (k, v) ∉ t.entries := fun h ↦ hnew (t.mem_keys.mpr ⟨v, h⟩)
    simp [hnot, eq_comm]
  case isFalse hk =>
    rw [t.find_eq_some_iff hkeys]
    simp [hk]

theorem entries_modifyAll (key : K) (f : V → V) :
    (t.modifyAll key f).entries = t.entries.map (changeAt key f) :=
  (map_flatMap).symm

/-- The items with a key are all in its bucket. -/
theorem findAll_eq (key : K) :
    t.findAll key = t.entries.filterMap fun e ↦ if e.1 = key then some e.2 else none := by
  have hother : ∀ i, i ≠ t.index key →
      (t.buckets i).filterMap (fun e ↦ if e.1 = key then some e.2 else none) = [] := by
    intro i hi
    rw [filterMap_eq_nil_iff]
    intro e he
    refine if_neg fun h ↦ hi ?_
    rw [index, ← h, t.index_eq i e he]
  rw [entries, filterMap_flatMap]
  by_cases hused : t.index key ∈ t.used
  · obtain ⟨l, r, hlr⟩ := append_of_mem hused
    have hnodup := t.nodup_used
    rw [hlr] at hnodup
    obtain ⟨-, hr, hdisjoint⟩ := nodup_append.mp hnodup
    have hl' : l.flatMap (fun i ↦ (t.buckets i).filterMap fun e ↦
        if e.1 = key then some e.2 else none) = [] := by
      refine flatMap_eq_nil_iff.mpr fun i hi ↦ hother i ?_
      exact hdisjoint i hi _ mem_cons_self
    have hr' : r.flatMap (fun i ↦ (t.buckets i).filterMap fun e ↦
        if e.1 = key then some e.2 else none) = [] := by
      refine flatMap_eq_nil_iff.mpr fun i hi ↦ hother i ?_
      rintro rfl
      exact (nodup_cons.mp hr).1 hi
    rw [hlr, flatMap_append, flatMap_cons, hl', hr', nil_append,
      append_nil, findAll]
  · have hnil : t.findAll key = [] := by
      rw [findAll, not_not.mp (mt (t.mem_used _).mpr hused), filterMap_nil]
    rw [hnil, eq_comm, flatMap_eq_nil_iff]
    intro i hi
    refine hother i ?_
    rintro rfl
    exact hused hi

end Entries

/-! ## Iterations -/

section Iteration

variable (t : HashTable K V hasher) {it : Iterator}

theorem valid_firstOf {used : List Nat} (h : ∀ i ∈ used, i ∈ t.used) (hit : it ∈ t.firstOf used) :
    t.Valid it := by
  obtain ⟨i, hi, rfl⟩ := Option.map_eq_some_iff.mp hit
  have hused := h i (mem_of_mem_head? hi)
  exact ⟨hused, length_pos_iff.mpr ((t.mem_used i).mp hused), le_rfl⟩

theorem valid_begin (h : it ∈ t.begin) : t.Valid it := t.valid_firstOf (fun _ hi ↦ hi) h

theorem usedAfter_subset {i j : Nat} (h : j ∈ t.usedAfter i) : j ∈ t.used :=
  (dropWhile_sublist _).subset (mem_of_mem_tail h)

theorem Valid.next {it' : Iterator} (h : t.Valid it) (hnext : it' ∈ t.next it) : t.Valid it' := by
  rw [HashTable.next] at hnext
  split at hnext
  case isTrue hlt =>
    obtain rfl := Option.some_inj.mp hnext
    exact ⟨h.1, Nat.sub_pos_of_lt hlt, (Nat.sub_le _ _).trans h.2.2⟩
  case isFalse => exact t.valid_firstOf (fun _ hi ↦ t.usedAfter_subset hi) hnext

/-- The buckets behind the first one of a final stretch of the list. -/
theorem usedAfter_of_append {l r : List Nat} (h : t.used = l ++ i :: r) :
    t.usedAfter i = r := by
  have hnodup := t.nodup_used
  rw [h] at hnodup
  have hl : ∀ j ∈ l, decide (j ≠ i) = true := by
    intro j hj
    exact decide_eq_true ((nodup_append.mp hnodup).2.2 j hj i mem_cons_self)
  rw [usedAfter, h, dropWhile_append_of_pos hl, dropWhile_cons]
  simp

theorem remaining_firstOf {l r : List Nat} (h : t.used = l ++ r) :
    t.remaining (t.firstOf r) = r.flatMap t.buckets := by
  cases r with
  | nil => rfl
  | cons i r =>
    rw [firstOf, head?_cons, Option.map_some, remaining, chainFrom, Nat.sub_self,
      drop_zero, t.usedAfter_of_append h, flatMap_cons]

theorem remaining_begin : t.remaining t.begin = t.entries :=
  t.remaining_firstOf (nil_append _).symm

/-- An iteration visits the item of the iterator, and then the rest. -/
theorem exists_remaining (h : t.Valid it) :
    ∃ e, t.deref it = some e ∧ t.remaining (some it) = e :: t.remaining (t.next it) := by
  obtain ⟨hused, hpos, hle⟩ := h
  have hlt : (t.buckets it.bucket).length - it.rest < (t.buckets it.bucket).length := by omega
  have hdrop : t.chainFrom it = (t.buckets it.bucket).get ⟨_, hlt⟩ ::
      (t.buckets it.bucket).drop ((t.buckets it.bucket).length - it.rest + 1) := by
    rw [chainFrom, drop_eq_getElem_cons hlt]
    rfl
  refine ⟨_, by rw [deref, hdrop, head?_cons], ?_⟩
  rw [remaining, hdrop, cons_append, HashTable.next]
  congr 1
  split
  case isTrue hone =>
    rw [remaining, chainFrom]
    congr 2
    simp only
    omega
  case isFalse hone =>
    obtain ⟨l, r, hlr⟩ := append_of_mem hused
    rw [t.usedAfter_of_append hlr, t.remaining_firstOf (l := l ++ [it.bucket]) (by simpa using hlr),
      drop_eq_nil_of_le (by omega), nil_append]

/-- An iteration is at its end when nothing remains. -/
theorem remaining_eq_nil {pos : Option Iterator} (h : ∀ it ∈ pos, t.Valid it) :
    t.remaining pos = [] ↔ pos = none := by
  cases pos with
  | none => simp [remaining]
  | some it =>
    obtain ⟨e, -, heq⟩ := t.exists_remaining (h it rfl)
    simp [heq]

/-- The buckets before and behind a bucket in use. -/
theorem used_eq_append (h : i ∈ t.used) : t.used = t.usedBefore i ++ i :: t.usedAfter i := by
  obtain ⟨l, r, hlr⟩ := append_of_mem h
  have hnodup := t.nodup_used
  rw [hlr] at hnodup
  have hl : ∀ j ∈ l, decide (j ≠ i) = true := by
    intro j hj
    exact decide_eq_true ((nodup_append.mp hnodup).2.2 j hj i mem_cons_self)
  have hbefore : t.usedBefore i = l := by
    rw [usedBefore, hlr, takeWhile_append_of_pos hl, takeWhile_cons]
    simp
  rw [hbefore, t.usedAfter_of_append hlr, hlr]

/-- What was visited and what remains. -/
theorem visited_append_remaining {pos : Option Iterator} (h : ∀ it ∈ pos, t.Valid it) :
    t.visited pos ++ t.remaining pos = t.entries := by
  cases pos with
  | none => exact append_nil _
  | some it =>
    rw [visited, remaining, chainFrom, append_assoc, ← append_assoc (take _ _),
      take_append_drop, entries, t.used_eq_append (h it rfl).1, flatMap_append,
      flatMap_cons]

theorem visited_begin : t.visited t.begin = [] := by
  have h : t.visited t.begin ++ t.remaining t.begin = t.entries :=
    t.visited_append_remaining fun it hit ↦ t.valid_begin hit
  rw [t.remaining_begin] at h
  exact append_left_eq_self.mp h

/-- An iteration moves one item on. -/
theorem exists_visited_next (h : t.Valid it) :
    ∃ e, t.deref it = some e ∧ t.visited (t.next it) = t.visited (some it) ++ [e] := by
  obtain ⟨e, he, hrest⟩ := t.exists_remaining h
  refine ⟨e, he, ?_⟩
  have hit : t.visited (some it) ++ t.remaining (some it) = t.entries := by
    refine t.visited_append_remaining fun it' hit' ↦ ?_
    obtain rfl := Option.some_inj.mp hit'
    exact h
  have hnext : t.visited (t.next it) ++ t.remaining (t.next it) = t.entries :=
    t.visited_append_remaining fun it' hit' ↦ HashTable.Valid.next t h hit'
  rw [hrest, ← hnext, append_cons] at hit
  exact (append_cancel_right hit).symm

/-- The bucket of the key is behind the one of the iterator, or comes into use. -/
def Ahead (t : HashTable K V hasher) (it : Iterator) (key : K) : Prop :=
  t.index key ∈ t.usedAfter it.bucket ∨ t.index key ∉ t.used

instance (key : K) : Decidable (t.Ahead it key) := inferInstanceAs (Decidable (_ ∨ _))

/-- What was visited depends on the buckets up to the iterator only. -/
theorem visited_congr {t' : HashTable K V hasher}
    (hused : t'.usedBefore it.bucket = t.usedBefore it.bucket)
    (hbuckets : ∀ i, i ∈ t.usedBefore it.bucket ∨ i = it.bucket → t'.buckets i = t.buckets i) :
    t'.visited (some it) = t.visited (some it) := by
  rw [visited, visited, hused, hbuckets it.bucket (.inr rfl),
    flatMap_congr fun i hi ↦ hbuckets i (.inl hi)]

/-- A bucket that is ahead is not among those up to the iterator. -/
theorem Ahead.ne {key : K} (h : t.Ahead it key) (hvalid : t.Valid it)
    (hi : i ∈ t.usedBefore it.bucket ∨ i = it.bucket) : i ≠ t.index key := by
  rintro rfl
  have hsplit := t.used_eq_append hvalid.1
  have hnodup := t.nodup_used
  rw [hsplit] at hnodup
  have hmem : t.index key ∈ t.used := by
    rw [hsplit]
    rcases hi with hi | hi
    · exact mem_append_left _ hi
    · rw [← hi]
      simp
  rcases h with h | h
  · obtain ⟨-, hright, hdisjoint⟩ := nodup_append.mp hnodup
    rcases hi with hi | hi
    · exact hdisjoint _ hi _ (mem_cons_of_mem _ h) rfl
    · rw [hi] at h
      exact (nodup_cons.mp hright).1 h
  · exact h hmem

/-- Inserting an item ahead of an iterator does not change what was visited. -/
theorem visited_insert {key : K} (hvalid : t.Valid it) (h : t.Ahead it key) (val : V) :
    (t.insert key val).visited (some it) = t.visited (some it) := by
  refine t.visited_congr ?_ fun i hi ↦ update_of_ne (h.ne t hvalid hi) _ _
  rw [usedBefore, usedBefore]
  change (if t.buckets (t.index key) = [] then t.used ++ [t.index key] else t.used).takeWhile _ = _
  split
  · rw [takeWhile_append, if_neg]
    intro hlength
    have hmem := hvalid.1
    rw [← (takeWhile_sublist _).eq_of_length hlength] at hmem
    simpa using mem_takeWhile_imp hmem
  · rfl

theorem valid_insert {key : K} (hvalid : t.Valid it) (h : t.Ahead it key) (val : V) :
    (t.insert key val).Valid it := by
  have hbucket : (t.insert key val).buckets it.bucket = t.buckets it.bucket :=
    update_of_ne (h.ne t hvalid (.inr rfl)) _ _
  refine ⟨?_, hvalid.2.1, by rw [hbucket]; exact hvalid.2.2⟩
  rw [(t.insert key val).mem_used, hbucket, ← t.mem_used]
  exact hvalid.1

/-- What is ahead of an iterator stays ahead. -/
theorem Ahead.insert {key key' : K} (h : t.Ahead it key) (hvalid : t.Valid it) (val : V) :
    (t.insert key' val).Ahead it key := by
  have hused : (t.insert key' val).used =
      if t.buckets (t.index key') = [] then t.used ++ [t.index key'] else t.used := rfl
  have hsplit := t.used_eq_append hvalid.1
  change t.index key ∈ _ ∨ t.index key ∉ _
  split at hused
  · have hafter : (t.insert key' val).usedAfter it.bucket = t.usedAfter it.bucket ++
      [t.index key'] := by
      refine usedAfter_of_append _ (l := t.usedBefore it.bucket) ?_
      rw [hused]
      conv_lhs => rw [hsplit]
      rw [append_assoc, cons_append]
    rw [hafter, hused, mem_append, mem_append, mem_singleton]
    rcases h with h | h
    · exact .inl (.inl h)
    · by_cases heq : t.index key = t.index key'
      · exact .inl (.inr heq)
      · exact .inr (by simp [h, heq])
  · rw [usedAfter, hused]
    exact h

/-- No item of the bucket of the key was visited. -/
def Unstarted (t : HashTable K V hasher) (it : Iterator) (key : K) : Prop :=
  t.index key ∈ t.usedAfter it.bucket ∨
    t.index key = it.bucket ∧ it.rest = (t.buckets it.bucket).length

instance (key : K) : Decidable (t.Unstarted it key) := inferInstanceAs (Decidable (_ ∨ _ ∧ _))

/-- Changing an item of a bucket that was not visited does not change what was visited. -/
theorem visited_modify [DecidableEq K] {key : K} (hvalid : t.Valid it) (h : t.Unstarted it key)
    (f : V → V) : (t.modify key f).visited (some it) = t.visited (some it) := by
  rcases h with h | ⟨hindex, hrest⟩
  · exact t.visited_congr rfl fun i hi ↦
      update_of_ne (HashTable.Ahead.ne t (.inl h) hvalid hi) _ _
  · have hlength := congrArg length (t.map_fst_update key f it.bucket)
    rw [length_map, length_map] at hlength
    have hnotMem : it.bucket ∉ t.usedBefore it.bucket := fun hmem ↦ by
      simpa using mem_takeWhile_imp hmem
    have htake : ((t.modify key f).buckets it.bucket).length - it.rest = 0 := by
      change (update t.buckets _ _ _).length - _ = 0
      omega
    rw [visited, visited, htake, hrest, Nat.sub_self, take_zero, take_zero]
    congr 1
    refine flatMap_congr fun i hi ↦ update_of_ne ?_ _ _
    rintro rfl
    rw [hindex] at hi
    exact hnotMem hi

theorem valid_modify [DecidableEq K] {key : K} (hvalid : t.Valid it) (f : V → V) :
    (t.modify key f).Valid it := by
  have hlength := congrArg length (t.map_fst_update key f it.bucket)
  rw [length_map, length_map] at hlength
  exact ⟨hvalid.1, hvalid.2.1, hvalid.2.2.trans hlength.ge⟩

/-- A table with an item that an iterator is at is not empty. -/
theorem remaining_of_empty {pos : Option Iterator} (h : ∀ it ∈ pos, t.Valid it)
    (hempty : t.empty = true) : t.remaining pos = [] := by
  rw [t.remaining_eq_nil h, Option.eq_none_iff_forall_not_mem]
  intro it hit
  have hused := (h it hit).1
  rw [t.empty_iff, entries, flatMap_eq_nil_iff] at hempty
  exact (t.mem_used it.bucket).mp hused (hempty it.bucket hused)

end Iteration

/-! ## Erasing -/

/-- The items of the chains without the first one with an equal key. -/
theorem perm_flatMap_erase (t : HashTable K V hasher) {x y : List (K × V)} {e : K × V}
    (h : t.buckets i = x ++ e :: y) :
    (e :: (if x ++ y = [] then t.used.erase i else t.used).flatMap
      (update t.buckets i (x ++ y))).Perm (t.used.flatMap t.buckets) := by
  have hi : i ∈ t.used := (t.mem_used i).mpr (by simp [h])
  obtain ⟨a, b, hab, hc⟩ := exists_flatMap_update t.nodup_used hi t.buckets
  have hall : (e :: t.used.flatMap (update t.buckets i (x ++ y))).Perm
    (t.used.flatMap t.buckets) := by
    rw [hc, hab, h, append_assoc, append_assoc, append_assoc, append_assoc,
      cons_append, ← append_assoc, ← append_assoc a x (e :: _)]
    exact perm_middle.symm
  split
  case isTrue hnil =>
    -- the bucket has no items any more, and is not one of those in use
    refine (List.Perm.cons e ?_).trans hall
    rw [hnil]
    have hperm := (perm_cons_erase hi).flatMap_right (update t.buckets i [])
    rw [flatMap_cons, update_self, nil_append] at hperm
    exact hperm.symm
  case isFalse => exact hall

/-- The first item with an equal key is taken out of the bucket of the key. -/
def erase (t : HashTable K V hasher) (equal : K → K → Bool) (key : K) : HashTable K V hasher :=
  let i := t.index key
  let chain := (t.buckets i).eraseP fun e ↦ equal e.1 key
  { numBuckets := t.numBuckets
    buckets := update t.buckets i chain
    used := if chain = [] then t.used.erase i else t.used
    size := if (t.buckets i).any fun e ↦ equal e.1 key then t.size - 1 else t.size
    maxSize := t.maxSize
    nodup_used := by
      split
      case isTrue => exact t.nodup_used.erase _
      case isFalse => exact t.nodup_used
    mem_used := fun j ↦ by
      by_cases hj : j = i
      · subst hj
        rw [update_self]
        split
        case isTrue h => simp [h, t.nodup_used.mem_erase_iff]
        case isFalse h =>
          refine iff_of_true ((t.mem_used _).mpr fun hnil ↦ h ?_) h
          show (t.buckets _).eraseP _ = []
          rw [hnil, eraseP_nil]
      · rw [update_of_ne hj, ← t.mem_used]
        split
        case isTrue => simp [t.nodup_used.mem_erase_iff, hj]
        case isFalse => rfl
    index_eq := fun j e he ↦ by
      by_cases hj : j = i
      · subst hj
        rw [update_self] at he
        exact t.index_eq _ e (mem_of_mem_eraseP he)
      · rw [update_of_ne hj] at he
        exact t.index_eq j e he
    size_eq := by
      by_cases hany : ∃ e ∈ t.buckets i, equal e.1 key = true
      · obtain ⟨e₀, he₀, hequal₀⟩ := hany
        obtain ⟨e, x, y, -, -, hsplit, herase⟩ :=
          exists_of_eraseP (p := fun e : K × V ↦ equal e.1 key) he₀ hequal₀
        have hlength := (t.perm_flatMap_erase hsplit).length_eq
        rw [length_cons, ← t.size_eq] at hlength
        rw [if_pos (any_eq_true.mpr ⟨e₀, he₀, hequal₀⟩), show chain = x ++ y
          from herase, ← hlength]
        rfl
      · have hself : chain = t.buckets i :=
          eraseP_of_forall_not fun e he hequal ↦ hany ⟨e, he, hequal⟩
        rw [if_neg fun h ↦ hany (any_eq_true.mp h), hself, update_eq_self, t.size_eq]
        split
        case isTrue hnil => rw [erase_of_not_mem fun hi ↦ (t.mem_used i).mp hi hnil]
        case isFalse => rfl }

theorem erase_of_forall_not (t : HashTable K V hasher) {equal : K → K → Bool} {key : K}
    (h : ∀ e ∈ t.buckets (t.index key), ¬ equal e.1 key) : t.erase equal key = t := by
  have hself : ((t.buckets (t.index key)).eraseP fun e ↦ equal e.1 key) = t.buckets (t.index key) :=
    eraseP_of_forall_not h
  have hany : ¬ ((t.buckets (t.index key)).any fun e ↦ equal e.1 key) = true := by
    rintro hany
    obtain ⟨e, he, hequal⟩ := any_eq_true.mp hany
    exact h e he hequal
  have hused : (if t.buckets (t.index key) = [] then t.used.erase (t.index key) else t.used) =
    t.used := by
    split
    case isTrue hnil => exact erase_of_not_mem fun hi ↦ (t.mem_used _).mp hi hnil
    case isFalse => rfl
  simp only [erase, hself, hused, if_neg hany, update_eq_self]

/-! ## Changing the item of an iterator -/

section Change

variable {t t' : HashTable K V hasher} {it : Iterator} {e : K × V} {x y m : List (K × V)}

/-- The item of an iterator in the chain. -/
theorem exists_chain (hvalid : t.Valid it) (he : t.deref it = some e) :
    ∃ x y, t.buckets it.bucket = x ++ e :: y ∧ it.rest = y.length + 1 ∧
      t.index e.1 = it.bucket := by
  have hlt : (t.buckets it.bucket).length - it.rest < (t.buckets it.bucket).length :=
    Nat.sub_lt (hvalid.2.1.trans_le hvalid.2.2) hvalid.2.1
  have hsplit := take_append_drop ((t.buckets it.bucket).length - it.rest)
    (t.buckets it.bucket)
  rw [drop_eq_getElem_cons hlt] at hsplit
  rw [deref, chainFrom, drop_eq_getElem_cons hlt, head?_cons, Option.some_inj] at he
  rw [he] at hsplit
  refine ⟨_, _, hsplit.symm, ?_, ?_⟩
  · rw [length_drop]
    have := hvalid.2.2
    omega
  · refine t.index_eq it.bucket e ?_
    rw [← hsplit]
    exact mem_append_right _ mem_cons_self

/-- The item of an iterator is replaced, by one item or by none, and the bucket goes out of use with
its last item. -/
structure Replaces (t t' : HashTable K V hasher) (i : Nat) (x m y : List (K × V)) : Prop where
  buckets_eq : t'.buckets = update t.buckets i (x ++ m ++ y)
  used_eq : t'.used = if x ++ m ++ y = [] then t.used.erase i else t.used

/-- What stands before the bucket and behind it does not change. -/
theorem Replaces.split (h : t.Replaces t' it.bucket x m y) (hused : it.bucket ∈ t.used) :
    t'.used = t.usedBefore it.bucket ++ (if x ++ m ++ y = [] then [] else [it.bucket]) ++
      t.usedAfter it.bucket ∧ (∀ i ∈ t.usedBefore it.bucket, t'.buckets i = t.buckets i) ∧
      (∀ i ∈ t.usedAfter it.bucket, t'.buckets i = t.buckets i) := by
  have hsplit := t.used_eq_append hused
  have hnodup := t.nodup_used
  rw [hsplit] at hnodup
  obtain ⟨-, hright, hdisjoint⟩ := nodup_append.mp hnodup
  refine ⟨?_, fun i hi ↦ ?_, fun i hi ↦ ?_⟩
  · rw [h.used_eq]
    split
    · have hnot : it.bucket ∉ t.usedBefore it.bucket :=
        fun hmem ↦ hdisjoint _ hmem _ mem_cons_self rfl
      conv_lhs => rw [hsplit]
      rw [erase_append_right _ hnot, erase_cons_head, append_nil]
    · rw [append_assoc]
      exact hsplit
  · rw [h.buckets_eq, update_of_ne (hdisjoint i hi _ mem_cons_self)]
  · rw [h.buckets_eq, update_of_ne]
    rintro rfl
    exact (nodup_cons.mp hright).1 hi

/-- The items after the change. -/
theorem Replaces.entries_eq (h : t.Replaces t' it.bucket x m y) (hused : it.bucket ∈ t.used) :
    t'.entries = (t.usedBefore it.bucket).flatMap t.buckets ++ x ++ m ++
      (y ++ (t.usedAfter it.bucket).flatMap t.buckets) := by
  obtain ⟨hsplit, hbefore, hafter⟩ := h.split hused
  have hmiddle : (if x ++ m ++ y = [] then [] else [it.bucket]).flatMap t'.buckets =
    x ++ m ++ y := by
    split
    case isTrue hnil => rw [hnil, flatMap_nil]
    case isFalse => rw [flatMap_singleton, h.buckets_eq, update_self]
  rw [entries, hsplit, flatMap_append, flatMap_append, hmiddle,
    flatMap_congr hbefore, flatMap_congr hafter]
  simp only [append_assoc]

/-- Where the iterator goes on to, the same items remain. -/
theorem Replaces.remaining_next (h : t.Replaces t' it.bucket x m y) (hused : it.bucket ∈ t.used)
    (hrest : it.rest = y.length + 1) :
    t'.remaining (t.next it) = y ++ (t.usedAfter it.bucket).flatMap t.buckets ∧
      ∀ it' ∈ t.next it, t'.Valid it' := by
  obtain ⟨hsplit, -, hafter⟩ := h.split hused
  rw [next]
  split
  case isTrue hlt =>
    have hy : y ≠ [] := length_pos_iff.mp (by omega)
    have hne : x ++ m ++ y ≠ [] := append_ne_nil_of_right_ne_nil _ hy
    rw [if_neg hne, append_assoc, singleton_append] at hsplit
    have hbucket : t'.buckets it.bucket = x ++ m ++ y := by rw [h.buckets_eq, update_self]
    have hlength : (t'.buckets it.bucket).length - (it.rest - 1) = (x ++ m).length := by
      rw [hbucket, length_append, hrest]
      omega
    refine ⟨?_, fun it' hit' ↦ ?_⟩
    · rw [remaining, chainFrom, hlength, hbucket, drop_left, t'.usedAfter_of_append hsplit,
        flatMap_congr hafter]
    · obtain rfl := Option.some_inj.mp hit'
      refine ⟨?_, Nat.sub_pos_of_lt hlt, ?_⟩
      · rw [hsplit]
        simp
      · have hle : y.length ≤ (x ++ m ++ y).length := (sublist_append_right _ _).length_le
        rw [hbucket]
        change it.rest - 1 ≤ _
        omega
  case isFalse hlt =>
    have hy : y = [] := length_eq_zero_iff.mp (by omega)
    have hfirst : t.firstOf (t.usedAfter it.bucket) = t'.firstOf (t.usedAfter it.bucket) := by
      rw [firstOf, firstOf]
      refine Option.map_congr fun i hi ↦ ?_
      rw [hafter i (mem_of_mem_head? hi)]
    rw [hfirst]
    refine ⟨?_, fun it' hit' ↦ t'.valid_firstOf (fun i hi ↦ ?_) hit'⟩
    · rw [t'.remaining_firstOf hsplit, hy, nil_append, flatMap_congr hafter]
    · rw [hsplit]
      exact mem_append_right _ hi

/-- **The item of an iterator can be changed or taken out under the iteration**: it goes on with the
same items. -/
theorem Replaces.iterate (h : t.Replaces t' it.bucket x m y) (hvalid : t.Valid it)
    (hchain : t.buckets it.bucket = x ++ e :: y) (hrest : it.rest = y.length + 1) :
    ∃ a, t.entries = a ++ e :: t.remaining (t.next it) ∧ t'.entries = a ++ m ++
      t.remaining (t.next it) ∧ t'.remaining (t.next it) = t.remaining (t.next it) ∧
        ∀ it' ∈ t.next it, t'.Valid it' := by
  have hself : t.Replaces t it.bucket x [e] y := by
    have heq : x ++ [e] ++ y = t.buckets it.bucket :=
      by rw [hchain, append_assoc, singleton_append]
    refine ⟨by rw [heq, update_eq_self], ?_⟩
    rw [if_neg]
    simp
  obtain ⟨hremaining, -⟩ := hself.remaining_next hvalid.1 hrest
  obtain ⟨hremaining', hvalid'⟩ := h.remaining_next hvalid.1 hrest
  refine ⟨(t.usedBefore it.bucket).flatMap t.buckets ++ x, ?_, ?_,
    hremaining'.trans hremaining.symm, hvalid'⟩
  · rw [hself.entries_eq hvalid.1, hremaining, append_assoc _ [e], singleton_append]
  · rw [h.entries_eq hvalid.1, hremaining]

theorem nodup_chain (hkeys : t.keys.Nodup) (hi : i ∈ t.used) :
    ((t.buckets i).map Prod.fst).Nodup := by
  refine hkeys.sublist ?_
  rw [keys, entries, map_flatMap]
  exact sublist_flatten_of_mem (mem_map_of_mem hi)

/-- No other item of the chain has the key. -/
theorem ne_of_mem_chain (hkeys : t.keys.Nodup) (hchain : t.buckets i = x ++ e :: y) {e' : K × V}
    (he' : e' ∈ x) : e'.1 ≠ e.1 := by
  have hi : i ∈ t.used := (t.mem_used i).mpr (by simp [hchain])
  have hnodup := nodup_chain hkeys hi
  rw [hchain, map_append, map_cons] at hnodup
  exact (nodup_append.mp hnodup).2.2 _ (mem_map_of_mem he') _ mem_cons_self

variable [DecidableEq K]

theorem replaces_erase (hkeys : t.keys.Nodup) (hchain : t.buckets it.bucket = x ++ e :: y)
    (hindex : t.index e.1 = it.bucket) :
    t.Replaces (t.erase (fun k k' ↦ decide (k = k')) e.1) it.bucket x [] y := by
  have herase : ((t.buckets (t.index e.1)).eraseP fun e' ↦ decide (e'.1 = e.1)) = x ++ [] ++ y := by
    rw [hindex, hchain, eraseP_append_right, eraseP_cons_of_pos, append_nil]
    · exact decide_eq_true rfl
    · intro e' he'
      simpa using ne_of_mem_chain hkeys hchain he'
  refine ⟨?_, ?_⟩
  · rw [← herase, ← hindex]
    rfl
  · rw [← herase, ← hindex]
    rfl

theorem modifyFirst_append (f : V → V) (hx : ∀ e' ∈ x, e'.1 ≠ e.1) :
    modifyFirst e.1 f (x ++ e :: y) = x ++ (e.1, f e.2) :: y := by
  induction x with
  | nil => rw [nil_append, nil_append, modifyFirst, if_pos rfl]
  | cons e' x ih =>
    rw [cons_append, modifyFirst, if_neg (hx e' mem_cons_self),
      ih fun e'' he'' ↦ hx e'' (mem_cons_of_mem _ he''), cons_append]

theorem replaces_modify (hkeys : t.keys.Nodup) (hchain : t.buckets it.bucket = x ++ e :: y)
    (hindex : t.index e.1 = it.bucket) (f : V → V) :
    t.Replaces (t.modify e.1 f) it.bucket x [(e.1, f e.2)] y := by
  have hmodify : modifyFirst e.1 f (t.buckets (t.index e.1)) = x ++ [(e.1, f e.2)] ++ y := by
    rw [hindex, hchain, modifyFirst_append f fun e' he' ↦ ne_of_mem_chain hkeys hchain he',
      append_assoc, singleton_append]
  refine ⟨?_, ?_⟩
  · rw [← hmodify, ← hindex]
    rfl
  · rw [if_neg (by simp)]
    rfl

/-- A change in place does not move any item. -/
theorem next_modify (key : K) (f : V → V) : (t.modify key f).next it = t.next it := by
  have hlength (i : Nat) : ((t.modify key f).buckets i).length = (t.buckets i).length := by
    have h := congrArg length (t.map_fst_update key f i)
    rwa [length_map, length_map] at h
  rw [next, next, firstOf, firstOf]
  simp only [hlength]
  rfl

end Change

end HashTable

end Tigon.Hfta
