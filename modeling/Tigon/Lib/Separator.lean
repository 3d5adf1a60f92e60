import Mathlib

/-!
# Lists with a separator

Two lists are put together with a separator between them.  The separator may also be in the lists;
so there are several ways to take apart what was put together.

* `append_cons_eq_append_cons_iff` — when two pairs of lists are put together to the same.
* `exists_splitOn_append` — what is put behind a list, and the parts of the list.
-/

set_option autoImplicit false

namespace Separator

variable {α : Type*} {x : α} {as as' cs cs' : List α}

/-- Either the separators are at the same place, or a part slides from one list to the other. -/
theorem append_cons_eq_append_cons_iff :
    as ++ x :: cs = as' ++ x :: cs' ↔
      (as = as' ∧ cs = cs') ∨ (∃ ws, as' = as ++ x :: ws ∧ cs = ws ++ x :: cs') ∨
        ∃ ws, as = as' ++ x :: ws ∧ cs' = ws ++ x :: cs := by
  constructor
  · intro h
    rcases List.append_eq_append_iff.mp h with ⟨ws, has, hcs⟩ | ⟨ws, has, hcs⟩
    · rcases ws with - | ⟨y, ws⟩
      · exact Or.inl ⟨by rw [has, List.append_nil], (List.cons.inj hcs).2⟩
      · obtain ⟨rfl, htail⟩ := List.cons.inj hcs
        exact Or.inr (Or.inl ⟨ws, has, htail⟩)
    · rcases ws with - | ⟨y, ws⟩
      · exact Or.inl ⟨by rw [has, List.append_nil], (List.cons.inj hcs).2.symm⟩
      · obtain ⟨rfl, htail⟩ := List.cons.inj hcs
        exact Or.inr (Or.inr ⟨ws, has, htail⟩)
  · rintro (⟨rfl, rfl⟩ | ⟨ws, rfl, rfl⟩ | ⟨ws, rfl, rfl⟩)
    · rfl
    · rw [List.append_assoc, List.cons_append]
    · rw [List.append_assoc, List.cons_append]

/-- The last separator is the one that was put there, if there is none in the second list. -/
theorem append_cons_inj_of_not_mem (hcs : x ∉ cs) (hcs' : x ∉ cs')
    (h : as ++ x :: cs = as' ++ x :: cs') : as = as' ∧ cs = cs' := by
  rcases append_cons_eq_append_cons_iff.mp h with heq | ⟨ws, -, rfl⟩ | ⟨ws, -, rfl⟩
  · exact heq
  · exact absurd (List.mem_append_right ws List.mem_cons_self) hcs
  · exact absurd (List.mem_append_right ws List.mem_cons_self) hcs'

variable [DecidableEq α]

/-- What is put behind a list without a separator goes to the last part. -/
theorem exists_splitOn_append (x : α) (as : List α) :
    ∃ init last, as.splitOn x = init ++ [last] ∧ last <:+ as ∧
      ∀ bs, x ∉ bs → (as ++ bs).splitOn x = init ++ [last ++ bs] := by
  induction h : as.length using Nat.strong_induction_on generalizing as with
  | h n ih =>
    by_cases hx : x ∈ as
    · obtain ⟨front, tail, rfl, hfront⟩ := List.eq_append_cons_of_mem hx
      rw [List.length_append, List.length_cons] at h
      obtain ⟨init, last, htail, hlast, hbs⟩ := ih tail.length (by omega) tail rfl
      refine ⟨front :: init, last, ?_, ?_, fun bs hmem ↦ ?_⟩
      · rw [List.splitOn_append_cons_self_of_not_mem hfront, htail, List.cons_append]
      · exact hlast.trans ⟨front ++ [x], by rw [List.append_assoc, List.singleton_append]⟩
      · rw [List.append_assoc, List.cons_append, List.splitOn_append_cons_self_of_not_mem hfront,
          hbs bs hmem, List.cons_append]
    · refine ⟨[], as, List.splitOn_eq_singleton hx, List.suffix_rfl, fun bs hmem ↦ ?_⟩
      exact List.splitOn_eq_singleton fun hmem' ↦ (List.mem_append.mp hmem').elim hx hmem

end Separator
