import Mathlib

/-!
# Frames that end with a delimiter

A stream of symbols is cut after each delimiter.  It arrives in parts; what comes after the last
delimiter is kept until there is more.

* `cut_append` — it makes no difference in which parts the stream arrives.
* `cut_flatMap` — nor whether it is cut before or after each symbol is encoded, if the code of other
  symbols has no delimiter in it.
-/

set_option autoImplicit false

namespace Frames

variable {α β : Type*} (delim : α → Bool)

/-- The frames of a list, and what is kept, when there is already something kept. -/
def cut (acc : List α) : List α → List (List α) × List α
  | [] => ([], acc)
  | a :: l =>
    if delim a then ((acc ++ [a]) :: (cut [] l).1, (cut [] l).2)
    else cut (acc ++ [a]) l

variable {delim} {acc l : List α} {a : α}

theorem cut_cons_of_delim (ha : delim a = true) (acc l : List α) :
    cut delim acc (a :: l) = ((acc ++ [a]) :: (cut delim [] l).1, (cut delim [] l).2) := if_pos ha

theorem cut_cons_of_not_delim (ha : delim a = false) (acc l : List α) :
    cut delim acc (a :: l) = cut delim (acc ++ [a]) l := if_neg (Bool.eq_false_iff.mp ha)

/-- **A list in two parts.** -/
theorem cut_append (acc l l' : List α) :
    cut delim acc (l ++ l') =
      ((cut delim acc l).1 ++ (cut delim (cut delim acc l).2 l').1,
        (cut delim (cut delim acc l).2 l').2) := by
  induction l generalizing acc with
  | nil => rfl
  | cons a l ih =>
    rw [List.cons_append]
    cases ha : delim a with
    | false =>
      rw [cut_cons_of_not_delim ha, cut_cons_of_not_delim ha]
      exact ih _
    | true =>
      rw [cut_cons_of_delim ha, cut_cons_of_delim ha, ih]
      rfl

theorem cut_of_forall (hl : ∀ a ∈ l, delim a = false) (acc : List α) : cut delim acc l =
    ([], acc ++ l) := by
  induction l generalizing acc with
  | nil => exact congrArg (Prod.mk []) (List.append_nil acc).symm
  | cons a l ih =>
    rw [cut_cons_of_not_delim (hl a List.mem_cons_self),
      ih fun b hb ↦ hl b (List.mem_cons_of_mem a hb), List.append_assoc, List.singleton_append]

/-- Frames one after the other: all of them end with a delimiter. -/
theorem cut_flatten {ls : List (List α)} (hls : ∀ l ∈ ls, (cut delim [] l).2 = []) :
    cut delim [] ls.flatten = (ls.flatMap fun l ↦ (cut delim [] l).1, []) := by
  induction ls with
  | nil => rfl
  | cons l ls ih =>
    rw [List.flatten_cons, cut_append, hls l List.mem_cons_self,
      ih fun l' hl' ↦ hls l' (List.mem_cons_of_mem l hl')]
    rfl

/-- **A list that is encoded symbol by symbol.** -/
theorem cut_flatMap {delim' : β → Bool} {enc : α → List β}
    (hdelim : ∀ a, delim a = true → ∃ b, enc a = [b] ∧ delim' b = true)
    (hother : ∀ a, delim a = false → ∀ b ∈ enc a, delim' b = false) (acc l : List α) :
    cut delim' (acc.flatMap enc) (l.flatMap enc) =
      ((cut delim acc l).1.map fun frame ↦ frame.flatMap enc, (cut delim acc l).2.flatMap enc) := by
  induction l generalizing acc with
  | nil => rfl
  | cons a l ih =>
    rw [List.flatMap_cons]
    have happend : (acc ++ [a]).flatMap enc = acc.flatMap enc ++ enc a := by
      rw [List.flatMap_append, List.flatMap_singleton]
    cases ha : delim a with
    | false =>
      rw [cut_append, cut_of_forall (hother a ha), cut_cons_of_not_delim ha, ← ih, happend]
      rfl
    | true =>
      obtain ⟨b, hb, hb'⟩ := hdelim a ha
      rw [hb] at happend ⊢
      rw [List.singleton_append, cut_cons_of_delim hb', cut_cons_of_delim ha,
        List.map_cons, happend]
      exact congrArg (fun p ↦ ((acc.flatMap enc ++ [b]) :: p.1, p.2)) (ih [])

end Frames
