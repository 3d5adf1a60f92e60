import Mathlib

/-!
# Linked lists

The nodes of a linked list are named by a type of their own, of addresses or of indices; a field of
the nodes is a function from it to pointers.  `Path next p l q` says that the pointer `p` leads over
the nodes `l` to the pointer `q`, `Linked next p l` that it leads over them to the null pointer.

A list that is linked in both directions is `Doubly`.

* `Doubly.append` — a node is put behind the last one;
* `Doubly.bypass` — **a node is taken out**, wherever it is.
-/

set_option autoImplicit false

namespace LinkedList

open Function

variable {α : Type*}

/-- The nodes on the way from one pointer to another. -/
def Path (next : α → Option α) : Option α → List α → Option α → Prop
  | p, [], q => p = q
  | p, a :: l, q => p = some a ∧ Path next (next a) l q

/-- The nodes on the way to the null pointer. -/
def Linked (next : α → Option α) (p : Option α) (l : List α) : Prop := Path next p l none

variable {next next' : α → Option α} {p q : Option α} {l r l' : List α} {a b : α}

@[simp] theorem linked_nil : Linked next p [] ↔ p = none := Iff.rfl

@[simp] theorem linked_cons : Linked next p (a :: l) ↔ p = some a ∧ Linked next (next a) l :=
  Iff.rfl

theorem path_append : Path next p (l ++ r) q ↔ ∃ m, Path next p l m ∧ Path next m r q := by
  induction l generalizing p with
  | nil => simp [Path]
  | cons a l ih => simp [Path, ih, and_assoc]

theorem linked_append : Linked next p (l ++ r) ↔ ∃ m, Path next p l m ∧ Linked next m r :=
  path_append

/-- Only the nodes on the way matter. -/
theorem Path.congr (h : Path next p l q) (heq : ∀ a ∈ l, next' a = next a) : Path next' p l q := by
  induction l generalizing p with
  | nil => exact h
  | cons a l ih =>
    refine ⟨h.1, ?_⟩
    rw [heq a List.mem_cons_self]
    exact ih h.2 fun b hb ↦ heq b (List.mem_cons_of_mem a hb)

theorem Linked.congr (h : Linked next p l) (heq : ∀ a ∈ l, next' a = next a) : Linked next' p l :=
  Path.congr h heq

theorem Linked.head?_eq (h : Linked next p l) : l.head? = p := by
  cases l with
  | nil => exact h.symm
  | cons a l => exact h.1.symm

/-- **A pointer leads over one list of nodes to the null pointer.** -/
theorem Linked.unique (h : Linked next p l) (h' : Linked next p l') : l = l' := by
  induction l generalizing p l' with
  | nil =>
    cases l' with
    | nil => rfl
    | cons b l' => cases h.symm.trans h'.1
  | cons a l ih =>
    cases l' with
    | nil => cases h'.symm.trans h.1
    | cons b l' =>
      obtain rfl := Option.some.inj (h.1.symm.trans h'.1)
      rw [ih h.2 h'.2]

theorem Linked.of_append (h : Linked next p (l ++ a :: r)) : Linked next (next a) r := by
  obtain ⟨m, -, h⟩ := linked_append.mp h
  exact h.2

/-- A list that comes to an end has no node twice. -/
theorem Linked.nodup (h : Linked next p l) : l.Nodup := by
  induction l generalizing p with
  | nil => exact List.nodup_nil
  | cons a l ih =>
    refine List.nodup_cons.mpr ⟨fun ha ↦ ?_, ih h.2⟩
    obtain ⟨x, y, rfl⟩ := List.append_of_mem ha
    -- from the second time on, the list would be as long as from the first
    have hlength := congrArg List.length (Linked.unique (Linked.of_append h.2) h.2)
    simp at hlength
    omega

/-! ## Lists with links in both directions -/

variable {prev prev' : α → Option α} {first last : Option α}

/-- The nodes are linked from the first one to the last one, and from the last one to the first. -/
structure Doubly (next prev : α → Option α) (first last : Option α) (l : List α) : Prop where
  forward : Linked next first l
  backward : Linked prev last l.reverse

theorem Linked.getLast?_eq (h : Linked prev p (l ++ a :: r).reverse) : prev a = l.getLast? := by
  rw [List.reverse_append, List.reverse_cons, List.append_assoc, List.singleton_append] at h
  rw [← h.of_append.head?_eq, List.head?_reverse]

namespace Doubly

theorem congr (h : Doubly next prev first last l) (hnext : ∀ a ∈ l, next' a = next a)
    (hprev : ∀ a ∈ l, prev' a = prev a) : Doubly next' prev' first last l :=
  ⟨h.forward.congr hnext, h.backward.congr fun a ha ↦ hprev a (List.mem_reverse.mp ha)⟩

theorem last_eq (h : Doubly next prev first last l) : last = l.getLast? := by
  rw [← h.backward.head?_eq, List.head?_reverse]

theorem first_eq (h : Doubly next prev first last l) : first = l.head? := h.forward.head?_eq.symm

theorem first_eq_none (h : Doubly next prev first last l) : first = none ↔ last = none := by
  rw [h.first_eq, h.last_eq, List.head?_eq_none_iff, List.getLast?_eq_none_iff]

end Doubly

/-! ## Changing a link -/

variable [DecidableEq α]

/-- The field of the node at a pointer is changed; the null pointer has none. -/
def setAt (f : α → Option α) (p v : Option α) : α → Option α :=
  match p with
  | none => f
  | some a => update f a v

theorem setAt_of_ne {f : α → Option α} {v : Option α} (h : p ≠ some a) : setAt f p v a = f a := by
  cases p with
  | none => rfl
  | some b => exact update_of_ne (fun hab ↦ h (congrArg some hab.symm)) _ _

/-- A node is put at the end. -/
theorem Linked.append (h : Linked next p l) (ha : a ∉ l) (hnext : next a = none) :
    Linked (setAt next l.getLast? (some a)) (p.or (some a)) (l ++ [a]) := by
  rcases List.eq_nil_or_concat l with rfl | ⟨x, b, rfl⟩
  · rw [linked_nil] at h
    simp [h, setAt, hnext]
  · simp only [List.concat_eq_append] at h ha ⊢
    have hnodup := List.nodup_append.mp h.nodup
    obtain ⟨m, hx, hb, -⟩ := linked_append.mp h
    subst hb
    have hp : p.or (some a) = p := by
      cases x with
      | nil => rw [show p = some b from hx]; rfl
      | cons c x => rw [hx.1]; rfl
    have hab : a ≠ b := by
      rintro rfl
      simp at ha
    rw [hp, List.getLast?_append, List.getLast?_singleton, List.append_assoc, Option.some_or]
    refine linked_append.mpr ⟨some b, hx.congr fun c hc ↦ update_of_ne ?_ _ _, rfl, ?_⟩
    · rintro rfl
      exact hnodup.2.2 c hc c (List.mem_singleton_self c) rfl
    · rw [setAt, update_self]
      refine ⟨rfl, ?_⟩
      rw [update_of_ne hab, hnext]
      rfl

/-- A node is taken out: the link to it leads to the node behind it now. -/
theorem Linked.bypass (h : Linked next p (l ++ a :: r)) :
    Linked (setAt next l.getLast? (next a)) (if l = [] then next a else p) (l ++ r) := by
  rcases List.eq_nil_or_concat l with rfl | ⟨x, b, rfl⟩
  · exact h.2
  · simp only [List.concat_eq_append] at h ⊢
    have hnodup := h.nodup
    rw [List.append_assoc, List.singleton_append] at h hnodup
    obtain ⟨-, hb, hx⟩ := List.nodup_append.mp hnodup
    obtain ⟨m, hpath, rfl, hba, hr⟩ := linked_append.mp h
    rw [List.getLast?_append, List.getLast?_singleton, Option.some_or, if_neg (by simp),
      List.append_assoc]
    refine linked_append.mpr ⟨some b, hpath.congr fun c hc ↦ update_of_ne ?_ _ _, rfl, ?_⟩
    · exact hx c hc b List.mem_cons_self
    · rw [setAt, update_self]
      refine Linked.congr hr fun c hc ↦ update_of_ne ?_ _ _
      rintro rfl
      exact (List.nodup_cons.mp hb).1 (List.mem_cons_of_mem a hc)

/-- **A node is put behind the last one.** -/
theorem Doubly.append (h : Doubly next prev first last l) (ha : a ∉ l) (hnext : next a = none) :
    Doubly (setAt next last (some a)) (update prev a last) (first.or (some a)) (some a)
      (l ++ [a]) := by
  refine ⟨?_, ?_⟩
  · rw [h.last_eq]
    exact h.forward.append ha hnext
  · rw [List.reverse_append, List.reverse_singleton, List.singleton_append]
    refine ⟨rfl, ?_⟩
    rw [update_self]
    refine h.backward.congr fun b hb ↦ update_of_ne ?_ _ _
    rintro rfl
    exact ha (List.mem_reverse.mp hb)

/-- **A node is taken out.**  Its neighbours are linked to each other, and where it has none on one
side, the pointer to that end of the list is changed. -/
theorem Doubly.bypass (h : Doubly next prev first last (l ++ a :: r)) :
    Doubly (setAt next (prev a) (next a)) (setAt prev (next a) (prev a))
      (if prev a = none then next a else first) (if next a = none then prev a else last)
      (l ++ r) := by
  have hprev : prev a = l.getLast? := h.backward.getLast?_eq
  have hnext : next a = r.head? := h.forward.of_append.head?_eq.symm
  refine ⟨?_, ?_⟩
  · have hforward := h.forward.bypass
    rw [← hprev] at hforward
    simpa only [hprev, List.getLast?_eq_none_iff] using hforward
  · have hbackward := h.backward
    rw [List.reverse_append, List.reverse_cons, List.append_assoc, List.singleton_append]
      at hbackward
    have hbypass := hbackward.bypass
    rw [List.getLast?_reverse, ← hnext, ← List.reverse_append] at hbypass
    simpa only [hnext, List.reverse_eq_nil_iff, List.head?_eq_none_iff] using hbypass

end LinkedList
