import Tigon.Lib.SortedList

/-!
# Navigable maps

A finite map together with its keys in ascending order, so that it can be walked through from any
key on.  `ceilingKey k` and `higherKey k` are where such a walk goes next; `exists_ceilingKey` and
`exists_higherKey` say that it leaves nothing out.

The map itself is a function, and `put`, `remove` and `modify` act on it as `Function.update` does;
the list of keys is kept in step with it.

That they are in step is a field of the structure, so a proof may use whichever of the two is at
hand.
-/

set_option autoImplicit false

universe u v

/-- A finite map from `κ` to `α`, with its keys in ascending order. -/
structure SortedMap (κ : Type u) (α : Type v) [LinearOrder κ] where
  keys : List κ
  get : κ → Option α
  sorted : SortedList.Sorted id keys
  mem_keys : ∀ {k : κ}, k ∈ keys ↔ get k ≠ none

namespace SortedMap

open Function

variable {κ : Type u} {α : Type v} [LinearOrder κ]

def empty : SortedMap κ α := ⟨[], fun _ ↦ none, List.Pairwise.nil, by simp⟩

/-- Enter a value, in the place of the one under the same key. -/
def put (m : SortedMap κ α) (k : κ) (a : α) : SortedMap κ α where
  keys := SortedList.put id k m.keys
  get := update m.get k (some a)
  sorted := m.sorted.put k
  mem_keys := by
    intro j
    have h : j ∈ (SortedList.put id k m.keys).map id ↔ j = id k ∨ j ∈ m.keys.map id :=
      SortedList.mem_keys_put
    rw [List.map_id, List.map_id] at h
    rw [h, update_apply, m.mem_keys]
    by_cases hj : j = k <;> simp [hj]

def remove (m : SortedMap κ α) (k : κ) : SortedMap κ α where
  keys := SortedList.remove id k m.keys
  get := update m.get k none
  sorted := m.sorted.remove k
  mem_keys := by
    intro j
    rw [SortedList.mem_remove, update_apply, m.mem_keys]
    by_cases hj : j = k <;> simp [hj]

/-- Change the value under a key, if there is one. -/
def modify (m : SortedMap κ α) (k : κ) (f : α → α) : SortedMap κ α where
  keys := m.keys
  get := update m.get k ((m.get k).map f)
  sorted := m.sorted
  mem_keys := by
    intro j
    rw [m.mem_keys, update_apply]
    by_cases hj : j = k <;> simp [hj]

/-- The first key not before `k`. -/
def ceilingKey (m : SortedMap κ α) (k : κ) : Option κ := m.keys.find? fun j ↦ k ≤ j

/-- The first key beyond `k`. -/
def higherKey (m : SortedMap κ α) (k : κ) : Option κ := m.keys.find? fun j ↦ k < j

/-- How many keys are not before `k`. -/
def countFrom (m : SortedMap κ α) (k : κ) : Nat := m.keys.countP fun j ↦ k ≤ j

variable {m : SortedMap κ α} {j k : κ} {a : α}

theorem get_put : (m.put k a).get j = if j = k then some a else m.get j := by
  show update m.get k (some a) j = _
  rw [update_apply]

theorem get_remove : (m.remove k).get j = if j = k then none else m.get j := by
  show update m.get k none j = _
  rw [update_apply]

theorem get_modify {f : α → α} :
    (m.modify k f).get j = if j = k then (m.get j).map f else m.get j := by
  show update m.get k ((m.get k).map f) j = _
  rw [update_apply]
  split
  · rename_i h
    rw [h]
  · rfl

@[ext] theorem ext {m m' : SortedMap κ α} (hk : m.keys = m'.keys) (hg : m.get = m'.get) :
    m = m' := by
  obtain ⟨keys, get, hs, hm⟩ := m
  obtain ⟨keys', get', hs', hm'⟩ := m'
  obtain rfl : keys = keys' := hk
  obtain rfl : get = get' := hg
  rfl

/-- Entering what is there already changes nothing. -/
theorem put_of_get (h : m.get k = some a) : m.put k a = m := by
  refine ext ?_ ?_
  · exact m.sorted.put_of_mem (m.mem_keys.mpr (by simp [h]))
  · show update m.get k (some a) = m.get
    rw [← h, update_eq_self]

/-- Changing the values under some keys, for a change that makes no difference the second time. -/
theorem get_foldl_modify {f : α → α} (hf : ∀ a, f (f a) = f a) (ks : List κ) :
    (ks.foldl (fun m k ↦ m.modify k f) m).get j = if j ∈ ks then (m.get j).map f else m.get j := by
  induction ks generalizing m with
  | nil => simp
  | cons k ks ih =>
    rw [List.foldl_cons, ih, get_modify]
    by_cases hj : j = k
    · have hff : f ∘ f = f := funext hf
      simp [hj, Option.map_map, hff]
    · simp [hj]

/-- In a sorted list, `find?` finds the first of all that could be found. -/
theorem exists_find? {l : List κ} {p : κ → Bool} (hs : SortedList.Sorted id l) (hj : j ∈ l)
    (hp : p j = true) : ∃ i, l.find? p = some i ∧ i ≤ j := by
  induction l with
  | nil => simp at hj
  | cons x l ih =>
    obtain ⟨hx, hl⟩ := List.pairwise_cons.mp hs
    rw [List.find?_cons]
    split
    · refine ⟨x, rfl, ?_⟩
      rcases List.mem_cons.mp hj with rfl | hj
      · exact le_refl _
      · exact le_of_lt (hx j hj)
    · rename_i hpx
      rcases List.mem_cons.mp hj with rfl | hj
      · rw [hp] at hpx
        exact absurd hpx (by simp)
      · exact ih hl hj

/-- A walk from `k` on does not start beyond a key that is not before `k`. -/
theorem exists_ceilingKey (hj : m.get j ≠ none) (hkj : k ≤ j) :
    ∃ i, m.ceilingKey k = some i ∧ i ≤ j :=
  exists_find? m.sorted (m.mem_keys.mpr hj) (by simpa using hkj)

/-- A walk that has passed `k` does not pass over a key beyond it. -/
theorem exists_higherKey (hj : m.get j ≠ none) (hkj : k < j) :
    ∃ i, m.higherKey k = some i ∧ i ≤ j :=
  exists_find? m.sorted (m.mem_keys.mpr hj) (by simpa using hkj)

theorem ceilingKey_eq_some (h : m.ceilingKey k = some j) : k ≤ j ∧ m.get j ≠ none :=
  ⟨by simpa using List.find?_some h, m.mem_keys.mp (List.mem_of_find?_eq_some h)⟩

theorem higherKey_eq_some (h : m.higherKey k = some j) : k < j ∧ m.get j ≠ none :=
  ⟨by simpa using List.find?_some h, m.mem_keys.mp (List.mem_of_find?_eq_some h)⟩

/-- Passing a key leaves fewer. -/
theorem countFrom_lt (hj : m.get j ≠ none) (hjk : j < k) : m.countFrom k < m.countFrom j := by
  obtain ⟨before, after, hkeys⟩ := List.append_of_mem (m.mem_keys.mpr hj)
  have hmono : ∀ l : List κ, l.countP (fun i ↦ k ≤ i) ≤ l.countP (fun i ↦ j ≤ i) := fun l ↦
    List.countP_mono_left fun i _ hi ↦ by
      simp only [decide_eq_true_eq] at hi ⊢
      exact le_trans (le_of_lt hjk) hi
  have hneg : (j :: after).countP (fun i ↦ k ≤ i) = after.countP fun i ↦ k ≤ i :=
    List.countP_cons_of_neg (by simpa using hjk)
  have hpos : (j :: after).countP (fun i ↦ j ≤ i) = (after.countP fun i ↦ j ≤ i) + 1 :=
    List.countP_cons_of_pos (by simp)
  rw [countFrom, countFrom, hkeys, List.countP_append, List.countP_append, hneg, hpos]
  have h1 := hmono before
  have h2 := hmono after
  omega

theorem countFrom_pos (hj : m.get j ≠ none) (hkj : k ≤ j) : 0 < m.countFrom k :=
  List.countP_pos_iff.mpr ⟨j, m.mem_keys.mpr hj, by simpa using hkj⟩

end SortedMap
