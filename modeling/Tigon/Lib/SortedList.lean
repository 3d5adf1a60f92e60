import Mathlib

/-!
# Maps kept as lists sorted by key

A map whose entries carry their own key, kept in ascending key order.  `put key e l` enters `e`
into `l`, in the place of the entry with the same key if there is one, and `remove key k l` takes
the entry with key `k` out.  The order of the list is the iteration order of the map, so taking
entries off the front takes the smallest keys first.

`put` keeps the list sorted, and in a sorted list the key decides the entry.
-/

set_option autoImplicit false

namespace SortedList

universe u v

variable {α : Type u} {κ : Type v} [LinearOrder κ] {key : α → κ} {e x y : α} {k : κ} {l m : List α}

/-- Enter `e`, replacing the entry with its key. -/
def put (key : α → κ) (e : α) : List α → List α
  | [] => [e]
  | x :: rest =>
    if key e < key x then e :: x :: rest
    else if key e = key x then e :: rest
    else x :: put key e rest

/-- Take out the entry with key `k`. -/
def remove (key : α → κ) (k : κ) (l : List α) : List α := l.filter fun x ↦ key x ≠ k

/-- Enter all entries of a list. -/
def putAll (key : α → κ) (es l : List α) : List α := es.foldl (fun acc e ↦ put key e acc) l

/-- The keys are in strictly ascending order. -/
def Sorted (key : α → κ) (l : List α) : Prop := l.Pairwise fun x y ↦ key x < key y

theorem mem_put_self (key : α → κ) (e : α) (l : List α) : e ∈ put key e l := by
  induction l with
  | nil => simp [put]
  | cons x rest ih =>
    rw [put]
    split
    · simp
    · split
      · simp
      · exact List.mem_cons_of_mem _ ih

theorem mem_of_mem_put (h : x ∈ put key e l) : x = e ∨ x ∈ l := by
  induction l with
  | nil => simpa [put] using h
  | cons y rest ih =>
    rw [put] at h
    split at h
    · simpa using h
    · split at h
      · rcases List.mem_cons.mp h with h | h
        · exact .inl h
        · exact .inr (List.mem_cons_of_mem _ h)
      · rcases List.mem_cons.mp h with h | h
        · exact .inr (by simp [h])
        · exact (ih h).imp id (List.mem_cons_of_mem _)

theorem mem_put_of_ne (h : x ∈ l) (hne : key x ≠ key e) : x ∈ put key e l := by
  induction l with
  | nil => simp at h
  | cons y rest ih =>
    rw [put]
    split
    · exact List.mem_cons_of_mem _ h
    · split
      · rename_i _ heq
        rcases List.mem_cons.mp h with rfl | h
        · exact absurd heq.symm hne
        · exact List.mem_cons_of_mem _ h
      · rcases List.mem_cons.mp h with rfl | h
        · simp
        · exact List.mem_cons_of_mem _ (ih h)

/-- The keys of the map after `put`. -/
theorem mem_keys_put : k ∈ (put key e l).map key ↔ k = key e ∨ k ∈ l.map key := by
  constructor
  · intro h
    obtain ⟨x, hx, rfl⟩ := List.mem_map.mp h
    rcases mem_of_mem_put hx with rfl | hx
    · exact .inl rfl
    · exact .inr (List.mem_map_of_mem hx)
  · rintro (rfl | h)
    · exact List.mem_map_of_mem (mem_put_self key e l)
    · obtain ⟨x, hx, rfl⟩ := List.mem_map.mp h
      by_cases hk : key x = key e
      · exact hk ▸ List.mem_map_of_mem (mem_put_self key e l)
      · exact List.mem_map_of_mem (mem_put_of_ne hx hk)

theorem length_put_le (key : α → κ) (e : α) (l : List α) :
    (put key e l).length ≤ l.length + 1 := by
  induction l with
  | nil => simp [put]
  | cons x l ih =>
    rw [put]
    split
    · simp
    · split
      · simp
      · simpa using ih

theorem Sorted.put (h : Sorted key l) (e : α) : Sorted key (put key e l) := by
  induction l with
  | nil => simp [SortedList.put, Sorted]
  | cons x rest ih =>
    obtain ⟨hx, hrest⟩ := List.pairwise_cons.mp h
    rw [SortedList.put]
    split
    · rename_i hlt
      refine List.pairwise_cons.mpr ⟨fun y hy ↦ ?_, h⟩
      rcases List.mem_cons.mp hy with rfl | hy
      · exact hlt
      · exact hlt.trans (hx y hy)
    · split
      · rename_i _ heq
        exact List.pairwise_cons.mpr ⟨fun y hy ↦ heq ▸ hx y hy, hrest⟩
      · rename_i hnlt hne
        refine List.pairwise_cons.mpr ⟨fun y hy ↦ ?_, ih hrest⟩
        rcases mem_of_mem_put hy with rfl | hy
        · exact lt_of_le_of_ne (not_lt.mp hnlt) (Ne.symm hne)
        · exact hx y hy

/-- Putting a key that is there changes nothing. -/
theorem Sorted.put_of_mem {l : List κ} (h : Sorted id l) (hk : k ∈ l) :
    SortedList.put id k l = l := by
  induction l with
  | nil => simp at hk
  | cons x rest ih =>
    obtain ⟨hx, hrest⟩ := List.pairwise_cons.mp h
    rw [SortedList.put]
    rcases List.mem_cons.mp hk with rfl | hk
    · simp
    · have hlt : x < k := hx k hk
      simp only [id_eq]
      rw [if_neg (not_lt_of_gt hlt), if_neg (ne_of_gt hlt), ih hrest hk]

theorem Sorted.remove (h : Sorted key l) (k : κ) : Sorted key (remove key k l) :=
  List.Pairwise.filter _ h

theorem mem_remove : x ∈ remove key k l ↔ x ∈ l ∧ key x ≠ k := by
  simp [remove]

theorem mem_keys_remove {k' : κ} :
    k' ∈ (remove key k l).map key ↔ k' ∈ l.map key ∧ k' ≠ k := by
  constructor
  · intro h
    obtain ⟨x, hx, rfl⟩ := List.mem_map.mp h
    obtain ⟨hx, hne⟩ := mem_remove.mp hx
    exact ⟨List.mem_map_of_mem hx, hne⟩
  · rintro ⟨h, hne⟩
    obtain ⟨x, hx, rfl⟩ := List.mem_map.mp h
    exact List.mem_map_of_mem (mem_remove.mpr ⟨hx, hne⟩)

theorem mem_of_mem_putAll (h : x ∈ putAll key m l) : x ∈ m ∨ x ∈ l := by
  induction m generalizing l with
  | nil => exact .inr h
  | cons e m ih =>
    rcases ih (l := put key e l) h with h | h
    · exact .inl (List.mem_cons_of_mem _ h)
    · rcases mem_of_mem_put h with rfl | h
      · exact .inl (by simp)
      · exact .inr h

theorem mem_keys_putAll : k ∈ (putAll key m l).map key ↔ k ∈ m.map key ∨ k ∈ l.map key := by
  induction m generalizing l with
  | nil => simp [putAll]
  | cons e m ih =>
    have h := ih (l := put key e l)
    rw [mem_keys_put] at h
    change k ∈ (putAll key m (put key e l)).map key ↔ _
    rw [h, List.map_cons, List.mem_cons]
    tauto

theorem Sorted.putAll (h : Sorted key l) (m : List α) : Sorted key (putAll key m l) := by
  induction m generalizing l with
  | nil => exact h
  | cons e m ih => exact ih (h.put e)

end SortedList
