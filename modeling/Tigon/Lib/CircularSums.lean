import Mathlib

/-!
# The sums of the last windows, in a circle

The sums of the last `n` windows of a stream are held in a circle of `n` cells.  A value is added to
the cell of the current window; when the window ends, the position moves to the next cell, which is
cleared first.

The windows are given by their sums, the last one first.

The position goes round and the windows do not, so a cell is told by how far it is behind the
position.

* `Holds` — what is in the cells.
* `Holds.sum_cells` — all cells together are the last `n` windows.
-/

set_option autoImplicit false

namespace CircularSums

universe u

open Finset

/-- As many cells back from a position; or how far back a cell is. -/
def back (n pos i : Nat) : Nat := if i ≤ pos then pos - i else pos + n - i

/-- The next position. -/
def next (n pos : Nat) : Nat := if n ≤ pos + 1 then 0 else pos + 1

section

variable {n pos i : Nat}

theorem back_lt (hpos : pos < n) : back n pos i < n := by
  unfold back
  split <;> omega

theorem back_back (hi : i < n) : back n pos (back n pos i) = i := by
  unfold back
  split <;> split <;> omega

theorem back_self : back n pos pos = 0 := by simp [back]

theorem back_of_ne (hi : i < n) (hne : i ≠ pos) : back n pos i ≠ 0 := by
  unfold back
  split <;> omega

theorem next_lt (hpos : pos < n) : next n pos < n := by
  unfold next
  split <;> omega

/-- A cell that is not cleared is one window further back. -/
theorem back_next (hpos : pos < n) (hi : i < n) (hne : i ≠ next n pos) :
    back n (next n pos) i = back n pos i + 1 := by
  unfold next at hne ⊢
  split at hne
  case isTrue h =>
    rw [if_pos h, back, back, if_neg (by omega), if_pos (by omega)]
    omega
  case isFalse h =>
    rw [if_neg h, back, back]
    split <;> split <;> omega

theorem next_mod (h : pos = i % n) (hn : 0 < n) : next n pos = (i + 1) % n := by
  have hlt : i % n < n := Nat.mod_lt i hn
  have hmod : (i + 1) % n = (i % n + 1) % n := (Nat.mod_add_mod i n 1).symm
  rw [next, h, hmod]
  split
  · have hlast : i % n + 1 = n := by omega
    rw [hlast, Nat.mod_self]
  · have hmore : i % n + 1 < n := by omega
    exact (Nat.mod_eq_of_lt hmore).symm

end

variable {M : Type u} [AddCommMonoid M] {n pos : Nat} {cells ws : List M} {w v : M}

/-- The sum of the window that many windows ago. -/
def ago (ws : List M) (k : Nat) : M := ws.getD k 0

/-- The cells hold the last windows, from the position back. -/
structure Holds (n pos : Nat) (cells ws : List M) : Prop where
  length_eq : cells.length = n
  pos_lt : pos < n
  pos_eq : pos = (ws.length - 1) % n
  cell_eq : ∀ i < n, cells.getD i 0 = ago ws (back n pos i)

/-- Cells that are zero hold a window without values. -/
theorem holds_replicate (hn : 0 < n) : Holds n 0 (List.replicate n (0 : M)) [0] where
  length_eq := List.length_replicate
  pos_lt := hn
  pos_eq := (Nat.zero_mod n).symm
  cell_eq i hi := by
    have hago : ∀ k, ago [(0 : M)] k = 0 := by
      intro k
      cases k <;> rfl
    rw [hago, List.getD_eq_getElem?_getD, List.getElem?_replicate, if_pos hi, Option.getD_some]

/-- A value is added to the current window. -/
theorem Holds.add (h : Holds n pos cells (w :: ws)) (v : M) :
    Holds n pos (cells.modify pos (· + v)) ((w + v) :: ws) where
  length_eq := (List.length_modify _ _ _).trans h.length_eq
  pos_lt := h.pos_lt
  pos_eq := h.pos_eq
  cell_eq i hi := by
    have hlt : i < cells.length := by rw [h.length_eq]; exact hi
    have hcell := h.cell_eq i hi
    rw [List.getD_eq_getElem _ _ hlt] at hcell
    rw [List.getD_eq_getElem?_getD, List.getElem?_modify, List.getElem?_eq_getElem hlt,
      Option.map_eq_map, Option.map_some, Option.getD_some, hcell]
    by_cases hpos : pos = i
    · subst hpos
      rw [if_pos rfl, back_self]
      rfl
    · rw [if_neg hpos]
      obtain ⟨k, hk⟩ := Nat.exists_eq_succ_of_ne_zero (back_of_ne hi (Ne.symm hpos))
      rw [hk]
      rfl

/-- A new window begins. -/
theorem Holds.advance (h : Holds n pos cells ws) (hne : ws ≠ []) :
    Holds n (next n pos) (cells.set (next n pos) 0) (0 :: ws) where
  length_eq := List.length_set.trans h.length_eq
  pos_lt := next_lt h.pos_lt
  pos_eq := by
    have hlength := List.length_pos_iff.mpr hne
    rw [next_mod h.pos_eq (Nat.zero_lt_of_lt h.pos_lt), Nat.sub_add_cancel hlength,
      List.length_cons, Nat.add_sub_cancel]
  cell_eq i hi := by
    have hlt : i < cells.length := by rw [h.length_eq]; exact hi
    rw [List.getD_eq_getElem?_getD, List.getElem?_set]
    by_cases hpos : next n pos = i
    · subst hpos
      rw [if_pos rfl, if_pos hlt, back_self]
      rfl
    · rw [if_neg hpos, back_next h.pos_lt hi (Ne.symm hpos), ← List.getD_eq_getElem?_getD]
      exact h.cell_eq i hi

theorem sum_ago (ws : List M) (n : Nat) : ∑ k ∈ range n, ago ws k = (ws.take n).sum := by
  induction n with
  | zero => rfl
  | succ n ih =>
    rw [sum_range_succ, ih, List.take_add_one, List.sum_append, ago, List.getD_eq_getElem?_getD]
    cases ws[n]? with
    | none => simp
    | some w => simp

/-- **All cells together are the last windows.** -/
theorem Holds.sum_cells (h : Holds n pos cells ws) :
    ∑ i ∈ range n, cells.getD i 0 = (ws.take n).sum := by
  rw [← sum_ago]
  refine sum_nbij' (back n pos) (back n pos) ?_ ?_ ?_ ?_ ?_
  · exact fun i _ ↦ mem_range.mpr (back_lt h.pos_lt)
  · exact fun i _ ↦ mem_range.mpr (back_lt h.pos_lt)
  · exact fun i hi ↦ back_back (mem_range.mp hi)
  · exact fun i hi ↦ back_back (mem_range.mp hi)
  · exact fun i hi ↦ h.cell_eq i (mem_range.mp hi)

end CircularSums
