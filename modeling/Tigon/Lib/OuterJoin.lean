import Mathlib

/-!
# Outer joins

`join` is the relational join of two lists, as a nested loop: the rows of all pairs that match, and
on each side the rows of the elements that match nothing.  Whether a pair matches and what its row
is is one partial function `pair`; an element that is not to be padded has no row of its own.

Two facts carry the proofs about incremental joins.  An element added on one side adds the pairs
with the elements of the other side (`pairs_snoc_left`, `pairs_snoc_right`); and if no pair goes
across, the join of two parts is the join of each (`join_append`).
-/

set_option autoImplicit false

namespace OuterJoin

universe u v w

variable {α : Type u} {β : Type v} {R : Type w}
variable (pair : α → β → Option R) (padLeft : α → Option R) (padRight : β → Option R)

/-- The rows of the pairs that match. -/
def pairs (l : List α) (r : List β) : List R := l.flatMap fun a ↦ r.filterMap (pair a)

/-- The element matches one of the other side. -/
def matched (r : List β) (a : α) : Bool := r.any fun b ↦ (pair a b).isSome

/-- The rows of the elements that match nothing. -/
def pads (pad : α → Option R) (l : List α) (r : List β) : List R :=
  l.filterMap fun a ↦ if matched pair r a then none else pad a

/-- The rows of the elements of either side that match nothing. -/
def allPads (l : List α) (r : List β) : List R :=
  pads pair padLeft l r ++ pads (fun b a ↦ pair a b) padRight r l

def join (l : List α) (r : List β) : List R := pairs pair l r ++ allPads pair padLeft padRight l r

variable {pair padLeft padRight} {l l₁ l₂ : List α} {r r₁ r₂ : List β} {a : α} {b : β}

@[simp] theorem pairs_nil_left : pairs pair [] r = [] := rfl

@[simp] theorem join_nil : join pair padLeft padRight [] [] = [] := rfl

theorem pairs_snoc_left : pairs pair (l ++ [a]) r = pairs pair l r ++ r.filterMap (pair a) := by
  rw [pairs, List.flatMap_append, List.flatMap_singleton]
  rfl

theorem pairs_snoc_right :
    (pairs pair l (r ++ [b])).Perm (pairs pair l r ++ l.filterMap fun a ↦ pair a b) := by
  have hsnoc : (fun a ↦ (r ++ [b]).filterMap (pair a)) =
      fun a ↦ r.filterMap (pair a) ++ (pair a b).toList := by
    funext a
    rw [List.filterMap_append, List.filterMap_cons, List.filterMap_nil]
    cases pair a b <;> rfl
  rw [pairs, hsnoc, List.filterMap_eq_flatMap_toList]
  exact (List.flatMap_append_perm l _ _).symm

theorem matched_append : matched pair (r₁ ++ r₂) a = (matched pair r₁ a || matched pair r₂ a) :=
  List.any_append

theorem matched_eq_false (h : ∀ b ∈ r, pair a b = none) : matched pair r a = false := by
  rw [matched, List.any_eq_false]
  intro b hb
  rw [h b hb]
  exact Bool.false_ne_true

/-- An element matches if it has a row with one of the other side. -/
theorem matched_eq_not_isEmpty : matched pair r a = !(r.filterMap (pair a)).isEmpty := by
  induction r with
  | nil => rfl
  | cons b r ih =>
    rw [matched] at ih ⊢
    rw [List.any_cons, ih, List.filterMap_cons]
    cases pair a b <;> simp

theorem filterMap_eq_nil (h : ∀ b ∈ r, pair a b = none) : r.filterMap (pair a) = [] :=
  List.filterMap_eq_nil_iff.mpr h

/-- If no pair goes across, the pairs are those of each part. -/
theorem pairs_append (h₁₂ : ∀ a ∈ l₁, ∀ b ∈ r₂, pair a b = none)
    (h₂₁ : ∀ a ∈ l₂, ∀ b ∈ r₁, pair a b = none) :
    pairs pair (l₁ ++ l₂) (r₁ ++ r₂) = pairs pair l₁ r₁ ++ pairs pair l₂ r₂ := by
  rw [pairs, List.flatMap_append]
  congr 1
  · refine List.flatMap_congr fun a ha ↦ ?_
    rw [List.filterMap_append, filterMap_eq_nil (h₁₂ a ha), List.append_nil]
  · refine List.flatMap_congr fun a ha ↦ ?_
    rw [List.filterMap_append, filterMap_eq_nil (h₂₁ a ha), List.nil_append]

/-- If no pair goes across, the padded rows are those of each part. -/
theorem pads_append {pad : α → Option R} (h₁₂ : ∀ a ∈ l₁, ∀ b ∈ r₂, pair a b = none)
    (h₂₁ : ∀ a ∈ l₂, ∀ b ∈ r₁, pair a b = none) :
    pads pair pad (l₁ ++ l₂) (r₁ ++ r₂) = pads pair pad l₁ r₁ ++ pads pair pad l₂ r₂ := by
  rw [pads, List.filterMap_append]
  congr 1
  · refine List.filterMap_congr fun a ha ↦ ?_
    rw [matched_append, matched_eq_false (h₁₂ a ha), Bool.or_false]
  · refine List.filterMap_congr fun a ha ↦ ?_
    rw [matched_append, matched_eq_false (h₂₁ a ha), Bool.false_or]

/-- **A join in two parts.**  If no pair goes across, it is the join of each part. -/
theorem join_append (h₁₂ : ∀ a ∈ l₁, ∀ b ∈ r₂, pair a b = none)
    (h₂₁ : ∀ a ∈ l₂, ∀ b ∈ r₁, pair a b = none) :
    (join pair padLeft padRight (l₁ ++ l₂) (r₁ ++ r₂)).Perm
      (join pair padLeft padRight l₁ r₁ ++ join pair padLeft padRight l₂ r₂) := by
  rw [join, allPads, pairs_append h₁₂ h₂₁, pads_append h₁₂ h₂₁,
    pads_append (fun b hb a ha ↦ h₂₁ a ha b hb) fun b hb a ha ↦ h₁₂ a ha b hb]
  refine Multiset.coe_eq_coe.mp ?_
  simp only [join, allPads, ← Multiset.coe_add]
  abel

/-- The join of elements that are made from others. -/
theorem join_map {α' : Type u} {β' : Type v} {pair' : α' → β' → Option R} {padLeft' : α' → Option R}
    {padRight' : β' → Option R} (f : α → α') (g : β → β') (l : List α) (r : List β) :
    join pair' padLeft' padRight' (l.map f) (r.map g) =
      join (fun a b ↦ pair' (f a) (g b)) (fun a ↦ padLeft' (f a))
        (fun b ↦ padRight' (g b)) l r := by
  have hpairs : pairs pair' (l.map f) (r.map g) = pairs (fun a b ↦ pair' (f a) (g b)) l r := by
    rw [pairs, pairs, List.flatMap_map]
    exact List.flatMap_congr fun a _ ↦ List.filterMap_map
  have hleft : pads pair' padLeft' (l.map f) (r.map g) =
      pads (fun a b ↦ pair' (f a) (g b)) (fun a ↦ padLeft' (f a)) l r := by
    rw [pads, pads, List.filterMap_map]
    refine List.filterMap_congr fun a _ ↦ ?_
    simp only [Function.comp_apply, matched, List.any_map]
    rfl
  have hright : pads (fun b a ↦ pair' a b) padRight' (r.map g) (l.map f) =
      pads (fun b a ↦ pair' (f a) (g b)) (fun b ↦ padRight' (g b)) r l := by
    rw [pads, pads, List.filterMap_map]
    refine List.filterMap_congr fun b _ ↦ ?_
    simp only [Function.comp_apply, matched, List.any_map]
    rfl
  rw [join, join, allPads, allPads, hpairs, hleft, hright]

end OuterJoin
