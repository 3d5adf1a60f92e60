import Mathlib

/-!
# Tables of slots

A table is a list of slots, each of them free or with an element.  An element goes into the first
free slot; where there is none, the table is doubled.  Elements are taken out by a condition, which
frees their slots.

What is in a table is `List.reduceOption`.

The order of the elements is part of each lemma, since loops over a table go by it.

* `reduceOption_insert` — one more element is in the table.
* `reduceOption_remove` — those that do not meet the condition are left, in their order.
* `reduceOption_set` — a slot gets an element in the place of what it had.
-/

set_option autoImplicit false

namespace SlotTable

universe u

variable {α : Type u} {table : List (Option α)} {a : α} {s t : Option α} {x startSz : Nat}
  {p : α → Bool}

/-- A table without slots is given some. -/
def allocated (startSz : Nat) (table : List (Option α)) : List (Option α) :=
  if table = [] then List.replicate startSz none else table

/-- A free slot, the first one or the first new one, in a table that has it. -/
def reserve (startSz : Nat) (table : List (Option α)) : List (Option α) × Nat :=
  let table := allocated startSz table
  match table.findIdx? Option.isNone with
  | some x => (table, x)
  | none => (table ++ List.replicate table.length none, table.length)

/-- The element goes into a free slot. -/
def insert (startSz : Nat) (a : α) (table : List (Option α)) : List (Option α) :=
  (reserve startSz table).1.set (reserve startSz table).2 (some a)

/-- The slots of the elements that meet the condition are freed. -/
def remove (p : α → Bool) (table : List (Option α)) : List (Option α) :=
  table.map (Option.filter fun a ↦ !p a)

/-- The first element that meets the condition. -/
def find? (p : α → Bool) (table : List (Option α)) : Option α := table.findSome? (Option.filter p)

/-! ## What is in the table -/

theorem exists_split (h : table[x]? = some s) :
    ∃ l₁ l₂, table = l₁ ++ s :: l₂ ∧ ∀ t, table.set x t = l₁ ++ t :: l₂ := by
  obtain ⟨hx, rfl⟩ := List.getElem?_eq_some_iff.mp h
  refine ⟨table.take x, table.drop (x + 1), ?_,
    fun t ↦ List.set_eq_take_append_cons_drop.trans (if_pos hx)⟩
  rw [List.getElem_cons_drop, List.take_append_drop]

/-- A slot gets an element, or is freed. -/
theorem reduceOption_set (h : table[x]? = some s) :
    ∃ l, table.reduceOption.Perm (s.toList ++ l) ∧ ∀ t,
      (table.set x t).reduceOption.Perm (t.toList ++ l) := by
  obtain ⟨l₁, l₂, htable, hset⟩ := exists_split h
  have hperm (t : Option α) : (l₁ ++ t :: l₂).reduceOption.Perm
    (t.toList ++ (l₁ ++ l₂).reduceOption) := by
    have hcons : (t :: l₂).reduceOption = t.toList ++ l₂.reduceOption := by cases t <;> rfl
    rw [List.reduceOption_append, List.reduceOption_append,
      hcons, ← List.append_assoc, ← List.append_assoc]
    exact List.perm_append_comm.append_right _
  exact ⟨(l₁ ++ l₂).reduceOption, htable ▸ hperm s, fun t ↦ hset t ▸ hperm t⟩

theorem reduceOption_allocated : (allocated startSz table).reduceOption = table.reduceOption := by
  unfold allocated
  split
  · rename_i hnil
    rw [hnil, List.reduceOption_replicate_none]
    rfl
  · rfl

theorem reserve_spec (hpos : 0 < startSz) (table : List (Option α)) :
    (reserve startSz table).1[(reserve startSz table).2]? = some none ∧
      (reserve startSz table).1.reduceOption = table.reduceOption := by
  have hne : 0 < (allocated startSz table).length := by
    unfold allocated
    split
    · rwa [List.length_replicate]
    · exact List.length_pos_of_ne_nil ‹_›
  have hold : (allocated startSz table).reduceOption = table.reduceOption := reduceOption_allocated
  unfold reserve
  cases hx : (allocated startSz table).findIdx? Option.isNone with
  | some x =>
    obtain ⟨hlt, hnone, -⟩ := List.findIdx?_eq_some_iff_getElem.mp hx
    simp only [hx]
    refine ⟨?_, hold⟩
    rw [List.getElem?_eq_getElem hlt, Option.isNone_iff_eq_none.mp hnone]
  | none =>
    simp only [hx]
    constructor
    · rw [List.getElem?_append_right le_rfl, Nat.sub_self, List.getElem?_replicate, if_pos hne]
    · rw [List.reduceOption_append, List.reduceOption_replicate_none, List.append_nil, hold]

/-- **One more element is in the table.** -/
theorem reduceOption_insert (hpos : 0 < startSz) :
    (insert startSz a table).reduceOption.Perm (a :: table.reduceOption) := by
  obtain ⟨hget, hold⟩ := reserve_spec hpos table
  obtain ⟨l, hl, hset⟩ := reduceOption_set hget
  exact (hset (some a)).trans ((hl.symm.trans (List.Perm.of_eq hold)).cons a)

/-- **What meets the condition is gone**, and the rest is left. -/
theorem reduceOption_remove : (remove p table).reduceOption = table.reduceOption.filter
    fun a ↦ !p a := by
  induction table with
  | nil => rfl
  | cons s table ih =>
    cases s with
    | none => exact ih
    | some a =>
      show (Option.filter (fun a ↦ !p a) (some a) :: remove p table).reduceOption = _
      rw [List.reduceOption_cons_of_some, List.filter_cons, ← ih, Option.filter]
      split <;> rfl

theorem find?_eq : find? p table = table.reduceOption.find? p := by
  induction table with
  | nil => rfl
  | cons s table ih =>
    cases s with
    | none => exact ih
    | some a =>
      rw [List.reduceOption_cons_of_some, List.find?_cons, ← ih, find?, List.findSome?_cons,
        Option.filter]
      cases p a <;> rfl

end SlotTable
