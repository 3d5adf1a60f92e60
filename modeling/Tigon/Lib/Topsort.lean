import Tigon.Lib.While

/-!
# Sorting the nodes of a graph

Nodes are to be put in an order in which each comes after certain others, `preds`.  The usual way is
to count, for each node, the others that are missing, and to take nodes for which none is missing,
in any order.

* `Sorted preds l` — each element of a list comes after all that it must come after.
* `Inv` — what is kept while nodes are taken: those `done` are sorted, those `pending` can be taken,
  and there are no others that can.
* `visit` — the count for the nodes that come after the one that is taken; `Inv.visit` is **the
  step**.
* `Inv.mem_iff_acc` — in the end **exactly the nodes without infinite paths** are done.
-/

set_option autoImplicit false

namespace Topsort

variable {α : Type*}

/-- Each element comes after all that it must come after. -/
inductive Sorted (preds : α → Finset α) : List α → Prop
  | nil : Sorted preds []
  | snoc {l : List α} {a : α} (h : Sorted preds l) (ha : ∀ b ∈ preds a, b ∈ l) :
      Sorted preds (l ++ [a])

variable {preds : α → Finset α} {l : List α}

theorem Sorted.mem_of_mem (h : Sorted preds l) {a b : α} (ha : a ∈ l) (hb : b ∈ preds a) :
    b ∈ l := by
  induction h with
  | nil => cases ha
  | snoc _ hready ih =>
    rcases List.mem_append.mp ha with ha | ha
    · exact List.mem_append_left _ (ih ha)
    · obtain rfl := List.mem_singleton.mp ha
      exact List.mem_append_left _ (hready b hb)

/-- What can be sorted has no infinite paths. -/
theorem Sorted.acc (h : Sorted preds l) {a : α} (ha : a ∈ l) : Acc (fun b a ↦ b ∈ preds a) a := by
  induction h generalizing a with
  | nil => cases ha
  | snoc _ hready ih =>
    rcases List.mem_append.mp ha with ha | ha
    · exact ih ha
    · obtain rfl := List.mem_singleton.mp ha
      exact ⟨_, fun b hb ↦ ih (hready b hb)⟩

/-- No element must come after a later one. -/
theorem Sorted.pairwise (h : Sorted preds l) (hnodup : l.Nodup) : l.Pairwise fun a b ↦ b ∉
    preds a := by
  induction h with
  | nil => exact .nil
  | snoc hl _ ih =>
    obtain ⟨hnodup, -, hdisjoint⟩ := List.nodup_append.mp hnodup
    refine List.pairwise_append.mpr ⟨ih hnodup, List.pairwise_singleton _ _,
      fun a ha b hb hpred ↦ ?_⟩
    exact hdisjoint b (hl.mem_of_mem ha hpred) b hb rfl

theorem sorted_of_pairwise (hpair : l.Pairwise fun a b ↦ b ∉ preds a)
    (hirrefl : ∀ a ∈ l, a ∉ preds a) (hclosed : ∀ a ∈ l, ∀ b ∈ preds a, b ∈ l) :
      Sorted preds l := by
  induction l using List.reverseRecOn with
  | nil => exact .nil
  | append_singleton l a ih =>
    obtain ⟨hl, -, hlast⟩ := List.pairwise_append.mp hpair
    refine .snoc (ih hl (fun b hb ↦ hirrefl b (List.mem_append_left _ hb)) fun b hb c hc ↦ ?_)
      fun b hb ↦ ?_
    · rcases List.mem_append.mp (hclosed b (List.mem_append_left _ hb) c hc) with hcl | hca
      · exact hcl
      · exact absurd hc (hlast b hb c hca)
    · rcases List.mem_append.mp (hclosed a (List.mem_append_right _ (List.mem_singleton_self a))
        b hb) with hbl | hba
      · exact hbl
      · obtain rfl := List.mem_singleton.mp hba
        exact absurd hb (hirrefl b (List.mem_append_right _ (List.mem_singleton_self b)))

/-! ## Taking one node after another -/

/-- Nodes of a set that have been taken, and those that can be taken. -/
structure Inv (preds : α → Finset α) (nodes : Finset α) (done : List α) (pending : Multiset α) :
    Prop where
  nodup : ((done : Multiset α) + pending).Nodup
  mem : ∀ a, a ∈ (done : Multiset α) + pending → a ∈ nodes
  sorted : Sorted preds done
  ready : ∀ a ∈ pending, ∀ b ∈ preds a, b ∈ done
  complete : ∀ a ∈ nodes, (∀ b ∈ preds a, b ∈ done) → a ∈ (done : Multiset α) + pending

variable {nodes : Finset α} {done : List α} {pending : Multiset α} {a : α}

theorem Inv.mem_iff (h : Inv preds nodes done pending) {b : α} :
    b ∈ (done : Multiset α) + pending ↔ b ∈ nodes ∧ ∀ c ∈ preds b, c ∈ done := by
  refine ⟨fun hb ↦ ⟨h.mem b hb, fun c hc ↦ ?_⟩, fun ⟨hb, hpreds⟩ ↦ h.complete b hb hpreds⟩
  rcases Multiset.mem_add.mp hb with hb | hb
  · exact h.sorted.mem_of_mem (Multiset.mem_coe.mp hb) hc
  · exact h.ready b hb c hc

theorem Inv.notMem (h : Inv preds nodes done (a ::ₘ pending)) : a ∉ done := fun ha ↦
  Multiset.disjoint_left.mp (Multiset.nodup_add.mp h.nodup).2.2 (Multiset.mem_coe.mpr ha)
    (Multiset.mem_cons_self a _)

theorem Inv.card_le (h : Inv preds nodes done pending) : done.length + pending.card ≤
    nodes.card := by
  have hle : (done : Multiset α) + pending ≤ nodes.val := (Multiset.le_iff_subset h.nodup).mpr h.mem
  have hcard := Multiset.card_le_card hle
  rwa [Multiset.card_add, Multiset.coe_card] at hcard

/-- **The step:** a node is taken, and those for which it was the last that was missing become
pending. -/
theorem Inv.step (h : Inv preds nodes done (a ::ₘ pending)) {new : Multiset α} (hnodup : new.Nodup)
    (hnew : ∀ b, b ∈ new ↔ b ∈ nodes ∧ a ∈ preds b ∧ ∀ c ∈ preds b, c ∈ done ++ [a]) :
    Inv preds nodes (done ++ [a]) (pending + new) := by
  have hperm : ((done ++ [a] : List α) : Multiset α) + (pending + new) =
    (done + a ::ₘ pending) + new := by
    rw [← Multiset.coe_add, Multiset.coe_singleton, ← Multiset.singleton_add]
    simp only [add_assoc]
  have hdisjoint : ∀ b ∈ new, b ∉ (done : Multiset α) + a ::ₘ pending := by
    intro b hb hold
    exact h.notMem ((h.mem_iff.mp hold).2 a ((hnew b).mp hb).2.1)
  refine ⟨?_, ?_, h.sorted.snoc (h.ready a (Multiset.mem_cons_self a _)), ?_, ?_⟩
  · rw [hperm]
    exact Multiset.nodup_add.mpr ⟨h.nodup, hnodup,
      Multiset.disjoint_right.mpr fun {b} ↦ hdisjoint b⟩
  · intro b hb
    rw [hperm] at hb
    rcases Multiset.mem_add.mp hb with hb | hb
    · exact h.mem b hb
    · exact ((hnew b).mp hb).1
  · intro b hb
    rcases Multiset.mem_add.mp hb with hb | hb
    · exact fun c hc ↦ List.mem_append_left _ (h.ready b (Multiset.mem_cons_of_mem hb) c hc)
    · exact ((hnew b).mp hb).2.2
  · intro b hb hpreds
    rw [hperm]
    by_cases ha : a ∈ preds b
    · exact Multiset.mem_add.mpr (.inr ((hnew b).mpr ⟨hb, ha, hpreds⟩))
    · refine Multiset.mem_add.mpr (.inl (h.complete b hb fun c hc ↦ ?_))
      rcases List.mem_append.mp (hpreds c hc) with hc' | hc'
      · exact hc'
      · obtain rfl := List.mem_singleton.mp hc'
        exact absurd hc ha

/-- **In the end exactly the nodes without infinite paths are done.** -/
theorem Inv.mem_iff_acc (h : Inv preds nodes done 0)
    (hclosed : ∀ a ∈ nodes, ∀ b ∈ preds a, b ∈ nodes) : a ∈ done ↔ a ∈ nodes ∧
      Acc (fun b a ↦ b ∈ preds a) a := by
  constructor
  · exact fun ha ↦ ⟨h.mem a (Multiset.mem_add.mpr (.inl ha)), h.sorted.acc ha⟩
  · rintro ⟨ha, hacc⟩
    induction hacc with
    | intro a _ ih =>
      have hmem := h.complete a ha fun b hb ↦ ih b hb (hclosed a ha b hb)
      rwa [add_zero, Multiset.mem_coe] at hmem

/-- At the start nothing is done. -/
theorem inv_nil {start : Multiset α} (hnodup : start.Nodup)
    (hstart : ∀ a, a ∈ start ↔ a ∈ nodes ∧ preds a = ∅) : Inv preds nodes [] start := by
  have hzero : ((([] : List α) : Multiset α) + start) = start := zero_add start
  refine ⟨by rwa [hzero], fun a ha ↦ ?_, .nil, fun a ha b hb ↦ ?_, fun a ha hpreds ↦ ?_⟩
  · rw [hzero] at ha
    exact ((hstart a).mp ha).1
  · rw [((hstart a).mp ha).2] at hb
    exact absurd hb (Finset.notMem_empty b)
  · rw [hzero]
    exact (hstart a).mpr ⟨ha, Finset.eq_empty_of_forall_notMem fun b hb ↦ List.not_mem_nil
      (hpreds b hb)⟩

/-! ## Counts -/

variable [DecidableEq α]

/-- Change the count of some nodes by `d`; those whose count reaches its target. -/
def visit (d : ℤ) (target : α → ℤ) : List α → (α → ℤ) → (α → ℤ) × List α
  | [], count => (count, [])
  | b :: bs, count =>
    let count' := Function.update count b (count b + d)
    let (count'', new) := visit d target bs count'
    (count'', if count' b = target b then b :: new else new)

variable {d : ℤ} {target count : α → ℤ} {bs : List α}

theorem visit_spec (d : ℤ) (target : α → ℤ) (hbs : bs.Nodup) (count : α → ℤ) :
    (∀ b, (visit d target bs count).1 b = if b ∈ bs then count b + d else count b) ∧
      (visit d target bs count).2 = bs.filter fun b ↦ count b + d = target b := by
  induction bs generalizing count with
  | nil => exact ⟨fun b ↦ by simp [visit], rfl⟩
  | cons c bs ih =>
    obtain ⟨hc, hbs⟩ := List.nodup_cons.mp hbs
    obtain ⟨hcount, hnew⟩ := ih hbs (Function.update count c (count c + d))
    have hfilter : (bs.filter fun b ↦ Function.update count c (count c + d) b + d = target b) =
        bs.filter fun b ↦ count b + d = target b := by
      refine List.filter_congr fun b hb ↦ ?_
      rw [Function.update_of_ne (ne_of_mem_of_not_mem hb hc)]
    refine ⟨fun b ↦ ?_, ?_⟩
    · rw [visit, hcount b]
      by_cases hbc : b = c
      · rw [hbc, if_neg hc, if_pos List.mem_cons_self, Function.update_self]
      · simp [hbc]
    · simp only [visit, Function.update_self, hnew, hfilter, List.filter_cons, decide_eq_true_eq]

/-- The count of a node tells how many of those that it must come after are missing. -/
def Counts (d : ℤ) (target : α → ℤ) (preds : α → Finset α) (done : List α) (count : α → ℤ)
    (b : α) : Prop :=
  count b + d * ((preds b).filter (· ∉ done)).card = target b

theorem Counts.eq_target_iff (h : Counts d target preds done count a) (hd : d ≠ 0) :
    count a = target a ↔ ∀ b ∈ preds a, b ∈ done := by
  have hcard : (∀ b ∈ preds a, b ∈ done) ↔ ((preds a).filter (· ∉ done)).card = 0 := by
    rw [Finset.card_eq_zero, Finset.filter_eq_empty_iff]
    exact forall₂_congr fun b _ ↦ not_not.symm
  rw [hcard, ← h, left_eq_add, mul_eq_zero, or_iff_right hd, Nat.cast_eq_zero]

/-- **The step with counts.** -/
theorem Inv.visit (h : Inv preds nodes done (a ::ₘ pending)) (hd : d ≠ 0)
    (hcount : ∀ b ∈ nodes, Counts d target preds done count b) (hbs : bs.Nodup)
    (hmem : ∀ b, b ∈ bs ↔ b ∈ nodes ∧ a ∈ preds b) :
    Inv preds nodes (done ++ [a]) (pending + (Topsort.visit d target bs count).2) ∧
      ∀ b ∈ nodes, Counts d target preds (done ++ [a]) (Topsort.visit d target bs count).1 b := by
  obtain ⟨hvisit, hnew⟩ := visit_spec d target hbs count
  have hcount' : ∀ b ∈ nodes, Counts d target preds (done ++ [a])
    (Topsort.visit d target bs count).1 b := by
    intro b hb
    have hold := hcount b hb
    rw [Counts] at hold ⊢
    rw [hvisit b, ← hold]
    by_cases hab : a ∈ preds b
    · have hinsert : (preds b).filter (· ∉ done) =
        insert a ((preds b).filter (· ∉ done ++ [a])) := by
        ext c
        rw [Finset.mem_insert, Finset.mem_filter, Finset.mem_filter, List.mem_append,
          List.mem_singleton]
        refine ⟨fun hc ↦ ?_, ?_⟩
        · by_cases hca : c = a
          · exact .inl hca
          · exact .inr ⟨hc.1, fun hor ↦ hor.elim hc.2 hca⟩
        · rintro (rfl | hc)
          · exact ⟨hab, h.notMem⟩
          · exact ⟨hc.1, fun hdone ↦ hc.2 (.inl hdone)⟩
      rw [if_pos ((hmem b).mpr ⟨hb, hab⟩), hinsert, Finset.card_insert_of_notMem (by simp)]
      push_cast
      ring
    · have hsame : (preds b).filter (· ∉ done ++ [a]) = (preds b).filter (· ∉ done) := by
        refine Finset.filter_congr fun c hc ↦ ?_
        have hca : c ≠ a := fun hca ↦ hab (hca ▸ hc)
        rw [List.mem_append, List.mem_singleton, or_iff_left hca]
      rw [if_neg fun hbs ↦ hab ((hmem b).mp hbs).2, hsame]
  refine ⟨h.step (Multiset.coe_nodup.mpr (hnew ▸ hbs.filter _)) fun b ↦ ?_, hcount'⟩
  rw [Multiset.mem_coe, hnew, List.mem_filter, decide_eq_true_eq, hmem, and_assoc]
  refine and_congr_right fun hb ↦ and_congr_right fun hab ↦ ?_
  rw [← (hcount' b hb).eq_target_iff hd, hvisit b, if_pos ((hmem b).mpr ⟨hb, hab⟩)]

end Topsort
