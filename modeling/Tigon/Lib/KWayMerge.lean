import Mathlib

/-!
# Merging many lists

`Merges key ls out` says that `out` comes from taking, again and again, the head of one of the lists
`ls` whose key is least among the keys of all heads.  Which of several least heads is taken is left
open.

* `Merges.perm` — the elements are those of the lists.
* `Merges.sublist` — each list stays in its order.
* `Merges.sorted_iff` — **the result is sorted if and only if each list is**.
* `exists_merges` — a step function that takes least heads delivers such a list.
-/

set_option autoImplicit false

namespace KWayMerge

universe u v

variable {α : Type u} {β : Type v} [LinearOrder β] (key : α → β)

/-- The head of the `i`th list is least among the heads. -/
def IsLeast (ls : List (List α)) (i : Nat) (a : α) (l : List α) : Prop :=
  ls[i]? = some (a :: l) ∧ ∀ b k, b :: k ∈ ls → key a ≤ key b

inductive Merges : List (List α) → List α → Prop
  | nil {ls : List (List α)} : (∀ l ∈ ls, l = []) → Merges ls []
  | cons {ls : List (List α)} {i : Nat} {a : α} {l out : List α} :
    IsLeast key ls i a l → Merges (ls.set i l) out → Merges ls (a :: out)

variable {key} {ls : List (List α)} {out l : List α} {a : α} {i : Nat}

theorem flatten_set (h : ls[i]? = some (a :: l)) : ls.flatten.Perm (a :: (ls.set i l).flatten) := by
  induction ls generalizing i with
  | nil => cases h
  | cons l' ls ih =>
    cases i with
    | zero =>
      obtain rfl : l' = a :: l := by simpa using h
      rfl
    | succ i =>
      rw [List.set_cons_succ, List.flatten_cons, List.flatten_cons]
      exact ((ih (by simpa using h)).append_left l').trans List.perm_middle

/-- **The elements** of the result are those of the lists. -/
theorem Merges.perm (h : Merges key ls out) : out.Perm ls.flatten := by
  induction h with
  | nil hnil => rw [List.flatten_eq_nil_iff.mpr hnil]
  | cons hleast _ ih => exact (ih.cons _).trans (flatten_set hleast.1).symm

/-- **The order** of each list is kept. -/
theorem Merges.sublist (h : Merges key ls out) (hl : l ∈ ls) : l.Sublist out := by
  have hindex : ∀ j : Nat, ls[j]? = some l → l.Sublist out := by
    clear hl
    induction h generalizing l with
    | nil hnil =>
      intro j hj
      rw [hnil l (List.mem_of_getElem? hj)]
    | @cons ls i a k out hleast _ ih =>
      intro j hj
      by_cases hij : i = j
      · subst hij
        obtain rfl := Option.some.inj (hj.symm.trans hleast.1)
        have hlt := (List.getElem?_eq_some_iff.mp hj).1
        exact (ih i (List.getElem?_set_self hlt)).cons_cons a
      · exact (ih j (by rw [List.getElem?_set_ne hij, hj])).cons a
  obtain ⟨j, hj⟩ := List.mem_iff_getElem?.mp hl
  exact hindex j hj

theorem mem_set_cases {k : List α} (hk : k ∈ ls.set i l) : k = l ∨ k ∈ ls :=
  (List.mem_or_eq_of_mem_set hk).symm

/-- **The result is sorted** if and only if each list is. -/
theorem Merges.sorted_iff (h : Merges key ls out) :
    out.Pairwise (fun a b ↦ key a ≤ key b) ↔ ∀ l ∈ ls, l.Pairwise fun a b ↦ key a ≤ key b := by
  refine ⟨fun hout l hl ↦ hout.sublist (h.sublist hl), fun hls ↦ ?_⟩
  induction h with
  | nil => exact .nil
  | @cons ls i a l out hleast hmerges ih =>
    have hal := hls (a :: l) (List.mem_of_getElem? hleast.1)
    have hset : ∀ k ∈ ls.set i l, k.Pairwise fun a b ↦ key a ≤ key b := by
      intro k hk
      rcases mem_set_cases hk with rfl | hk
      · exact hal.of_cons
      · exact hls k hk
    refine .cons (fun b hb ↦ ?_) (ih hset)
    obtain ⟨k, hk, hbk⟩ := List.mem_flatten.mp ((hmerges.perm.mem_iff).mp hb)
    -- the element comes after a head, and the head is not less
    rcases mem_set_cases hk with rfl | hk
    · exact List.rel_of_pairwise_cons hal hbk
    · cases k with
      | nil => cases hbk
      | cons c k =>
        have hac := hleast.2 c k hk
        rcases List.mem_cons.mp hbk with rfl | hbk
        · exact hac
        · exact hac.trans (List.rel_of_pairwise_cons (hls _ hk) hbk)

/-! ## Step functions -/

section Steps

variable {σ : Type v} (step : σ → Option α × σ)

/-- Step by step, the elements of a list are returned, and then nothing. -/
def Delivers (s : σ) : List α → Prop
  | [] => (step s).1 = none
  | a :: out => (step s).1 = some a ∧ Delivers (step s).2 out

variable {step} {P : σ → Prop} {contents : σ → List (List α)}

/-- **A step that takes a least head** delivers a merged list. -/
theorem exists_merges (hnone : ∀ s, P s → (step s).1 = none → ∀ l ∈ contents s, l = [])
    (hsome : ∀ s a, P s → (step s).1 = some a → P (step s).2 ∧
      ∃ i l, IsLeast key (contents s) i a l ∧ contents (step s).2 = (contents s).set i l)
    (s : σ) (hs : P s) : ∃ out, Merges key (contents s) out ∧ Delivers step s out := by
  induction hn : (contents s).flatten.length using Nat.strong_induction_on generalizing s with
  | _ n ih =>
    cases hstep : (step s).1 with
    | none => exact ⟨[], .nil (hnone s hs hstep), hstep⟩
    | some a =>
      obtain ⟨hs', i, l, hleast, hcontents⟩ := hsome s a hs hstep
      have hlen := (flatten_set hleast.1).length_eq
      rw [List.length_cons, ← hcontents] at hlen
      obtain ⟨out, hout, hdelivers⟩ := ih _ (by omega) (step s).2 hs' rfl
      exact ⟨a :: out, .cons hleast (hcontents ▸ hout), hstep, hdelivers⟩

end Steps

end KWayMerge
