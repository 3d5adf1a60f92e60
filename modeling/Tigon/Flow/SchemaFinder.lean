import Tigon.Io.Schema

/-!
# The schemas of a connection

`SchemaFinder` looks for a pair of an output schema and an input schema of two flowlets.  A pair of
equal schemas is to be preferred to a pair of compatible ones, and of these there must be only one. 
Both are looked for in the same two loops.  So a second compatible pair ends the search, although
there may be an equal pair further on; and which of two equal pairs is found depends on the order.

## What is here

* `findSchema` — the two loops; `findSchema_eq` — they are one loop over all pairs.
* `foldlM_step`, `findSchema_of_equals` — what they return without an equal pair, and with one.
* `FindsSchema` — what is to be returned, in whatever order the sets are iterated.
* `findsSchema_iff` — that is returned **exactly if** an equal pair is the only one of its kind, and
  there is at most one compatible pair beside it.
* `not_findsSchema` — two compatible pairs in front of an equal one.
-/

set_option autoImplicit false

namespace Tigon.SchemaFinder

/-- `Schema.equals` and `Schema.isCompatible`, which begins with the former. -/
structure SchemaRelations (α : Type) where
  equals : α → α → Bool
  isCompatible : α → α → Bool
  equivalence : Equivalence fun a b ↦ equals a b = true
  isCompatible_of_equals : ∀ a b, equals a b = true → isCompatible a b = true

variable {α : Type} (R : SchemaRelations α)

/-- A set of schemas, in the order in which it is iterated. -/
structure SchemaSet where
  elements : List α
  nodup : elements.Nodup
  eq_of_equals : ∀ a ∈ elements, ∀ b ∈ elements, R.equals a b = true → a = b

/-- The same set, perhaps in another order. -/
def SchemaSet.Same {R : SchemaRelations α} (s t : SchemaSet R) : Prop := s.elements.Perm t.elements

/-! ## The loops -/

/-- The body of the loops.  `error` returns from the method, with that result. -/
def step (compatibleSchema : Option (α × α)) (p : α × α) : Except (Option (α × α))
    (Option (α × α)) :=
  if R.equals p.1 p.2 then .error (some (p.2, p.1))
  else if R.isCompatible p.1 p.2 then
    if compatibleSchema.isSome then .error none else .ok (some p)
  else .ok compatibleSchema

def findSchema (output input : List α) : Option (α × α) :=
  match output.foldlM (fun c o ↦ input.foldlM (fun c i ↦ step R c (o, i)) c) none with
  | .error result => result
  | .ok compatibleSchema => compatibleSchema

/-- One loop over all pairs. -/
theorem foldlM_product (output input : List α) (c : Option (α × α)) :
    output.foldlM (fun c o ↦ input.foldlM (fun c i ↦ step R c (o, i)) c) c =
      (output ×ˢ input).foldlM (step R) c := by
  induction output generalizing c with
  | nil => rfl
  | cons o output ih =>
    rw [List.foldlM_cons, List.product_cons, List.foldlM_append, List.foldlM_map]
    exact congrArg _ (funext ih)

/-- The result if there was no equal pair, from all compatible ones. -/
def verdict : List (α × α) → Except (Option (α × α)) (Option (α × α))
  | [] => .ok none
  | [p] => .ok (some p)
  | _ :: _ :: _ => .error none

def compatible (p : α × α) : Bool := R.isCompatible p.1 p.2

variable {R}

/-- **Without an equal pair.** -/
theorem foldlM_step {ps : List (α × α)} (hps : ∀ p ∈ ps, R.equals p.1 p.2 = false)
    (c : Option (α × α)) : ps.foldlM (step R) c =
      verdict (c.toList ++ ps.filter (compatible R)) := by
  induction ps generalizing c with
  | nil => cases c <;> rfl
  | cons p ps ih =>
    have hp := hps p List.mem_cons_self
    have htail := ih fun q hq ↦ hps q (List.mem_cons_of_mem p hq)
    rw [List.foldlM_cons, step, hp, if_neg Bool.false_ne_true]
    by_cases hc : R.isCompatible p.1 p.2 = true
    · rw [if_pos hc, List.filter_cons_of_pos (p := compatible R) hc]
      cases c with
      | none => exact htail (some p)
      | some q => rfl
    · rw [if_neg hc, List.filter_cons_of_neg (p := compatible R) hc]
      exact htail c

/-- **With an equal pair**, and the pairs in front of it. -/
theorem findSchema_of_equals {output input : List α} {front back : List (α × α)} {p : α × α}
    (hsplit : output ×ˢ input = front ++ p :: back) (hfront : ∀ q ∈ front, R.equals q.1 q.2 = false)
    (hp : R.equals p.1 p.2 = true) :
    findSchema R output input =
      if (front.filter (compatible R)).length ≤ 1 then some (p.2, p.1) else none := by
  have hstep : ∀ c, (p :: back).foldlM (step R) c = .error (some (p.2, p.1)) := by
    intro c
    rw [List.foldlM_cons, step, if_pos hp]
    rfl
  rw [findSchema, foldlM_product, hsplit, List.foldlM_append, foldlM_step hfront,
    Option.toList_none, List.nil_append]
  rcases front.filter (compatible R) with - | ⟨q, - | ⟨q', l⟩⟩
  · rw [verdict, if_pos (by simp)]
    show (match (p :: back).foldlM (step R) none with | .error r => r | .ok c => c) = _
    rw [hstep]
  · rw [verdict, if_pos (by simp)]
    show (match (p :: back).foldlM (step R) (some q) with | .error r => r | .ok c => c) = _
    rw [hstep]
  · rw [verdict, if_neg (by simp)]
    rfl

/-- Without an equal pair, for the whole search. -/
theorem findSchema_of_not_equals {output input : List α}
    (h : ∀ p ∈ output ×ˢ input, R.equals p.1 p.2 = false) : findSchema R output input =
      match (output ×ˢ input).filter (compatible R) with
      | [p] => some p
      | _ => none := by
  rw [findSchema, foldlM_product, foldlM_step h, Option.toList_none, List.nil_append]
  rcases (output ×ˢ input).filter (compatible R) with - | ⟨q, - | ⟨q', l⟩⟩
  · rfl
  · rfl
  · rfl

/-! ## What is to be found -/

variable (R) in
/-- All pairs of an output schema and an input schema. -/
def pairs (output input : SchemaSet R) : List (α × α) := output.elements ×ˢ input.elements

variable (R) in
/-- Pairs that do not differ for `Schema.equals`. -/
def EqualPairs (p q : α × α) : Prop := R.equals p.1 q.1 = true ∧ R.equals p.2 q.2 = true

variable (R) in
/-- What `findSchema` is to return, in whatever order the two sets are iterated. -/
structure FindsSchema (output input : SchemaSet R) : Prop where
  equal : (∃ p ∈ pairs R output input, R.equals p.1 p.2 = true) → ∀ output' input',
    output.Same output' → input.Same input' → ∃ found,
      findSchema R output'.elements input'.elements = some found ∧ ∃ p ∈ pairs R output input,
        R.equals p.1 p.2 = true ∧ EqualPairs R found p
  compatible : (∀ p ∈ pairs R output input, R.equals p.1 p.2 = false) → ∀ p ∈ pairs R output input,
    (∀ q ∈ pairs R output input, R.isCompatible q.1 q.2 = true ↔ q = p) → ∀ output' input',
    output.Same output' → input.Same input' → findSchema R output'.elements input'.elements = some p
  nothing : (∀ p ∈ pairs R output input, R.isCompatible p.1 p.2 = false) → ∀ output' input',
    output.Same output' → input.Same input' → findSchema R output'.elements input'.elements = none
  order : ∀ output' input', output.Same output' → input.Same input' →
    Option.Rel (EqualPairs R) (findSchema R output'.elements input'.elements)
      (findSchema R output.elements input.elements)

variable {output input output' input' : SchemaSet R}

theorem nodup_pairs : (pairs R output input).Nodup := output.nodup.product input.nodup

theorem perm_pairs (ho : output.Same output') (hi : input.Same input') :
    (pairs R output' input').Perm (pairs R output input) :=
  List.Perm.product ho.symm hi.symm

theorem mem_pairs {p : α × α} : p ∈ pairs R output input ↔ p.1 ∈ output.elements ∧
    p.2 ∈ input.elements :=
  List.mem_product

/-- Another order is a set as well. -/
def SchemaSet.reorder (s : SchemaSet R) (l : List α) (h : s.elements.Perm l) : SchemaSet R where
  elements := l
  nodup := h.nodup_iff.mp s.nodup
  eq_of_equals a ha b hb := s.eq_of_equals a (h.mem_iff.mpr ha) b (h.mem_iff.mpr hb)

theorem equalPairs_refl (p : α × α) : EqualPairs R p p :=
  ⟨R.equivalence.refl p.1, R.equivalence.refl p.2⟩

/-- Different pairs of two sets are not equal. -/
theorem eq_of_equalPairs {p q : α × α} (hp : p ∈ pairs R output input)
    (hq : q ∈ pairs R output input) (h : EqualPairs R p q) : p = q :=
  Prod.ext (output.eq_of_equals _ (mem_pairs.mp hp).1 _ (mem_pairs.mp hq).1 h.1)
    (input.eq_of_equals _ (mem_pairs.mp hp).2 _ (mem_pairs.mp hq).2 h.2)

/-- If there is an equal pair, it is the only one, and there is at most one other compatible
pair. -/
def OneEqual (output input : SchemaSet R) : Prop :=
  ∀ p ∈ pairs R output input, R.equals p.1 p.2 = true →
    (∀ q ∈ pairs R output input, R.equals q.1 q.2 = true → q = p) ∧
      ∀ q ∈ pairs R output input, ∀ q' ∈ pairs R output input, q ≠ p → q' ≠ p →
        R.isCompatible q.1 q.2 = true → R.isCompatible q'.1 q'.2 = true → q = q'

theorem length_le_one_iff {β : Type} {l : List β} (hl : l.Nodup) :
    l.length ≤ 1 ↔ ∀ a ∈ l, ∀ b ∈ l, a = b := by
  rcases l with - | ⟨a, - | ⟨b, l⟩⟩
  · exact iff_of_true (Nat.zero_le 1) fun _ h ↦ absurd h List.not_mem_nil
  · exact iff_of_true le_rfl fun c hc d hd ↦ (List.mem_singleton.mp hc).trans
      (List.mem_singleton.mp hd).symm
  · refine iff_of_false (by simp) fun h ↦ ?_
    have hab := h a (by simp) b (by simp)
    exact hl.notMem (hab ▸ List.mem_cons_self)

/-- An equal pair is found then, in any order. -/
theorem findSchema_of_oneEqual (h : OneEqual output input) {p : α × α}
    (hp : p ∈ pairs R output input) (heq : R.equals p.1 p.2 = true) (ho : output.Same output')
    (hi : input.Same input') :
    findSchema R output'.elements input'.elements = some (p.2, p.1) := by
  obtain ⟨honly, hatMost⟩ := h p hp heq
  have hperm := perm_pairs ho hi
  obtain ⟨front, back, hsplit⟩ := List.append_of_mem (hperm.mem_iff.mpr hp)
  have hnodup : (front ++ p :: back).Nodup := hsplit ▸ nodup_pairs
  have hmem : ∀ q ∈ front, q ∈ pairs R output input ∧ q ≠ p := fun q hq ↦
    ⟨hperm.mem_iff.mp (hsplit ▸ List.mem_append_left _ hq), fun hqp ↦
      (List.nodup_middle.mp hnodup).notMem (List.mem_append_left back (hqp ▸ hq))⟩
  have hfront : ∀ q ∈ front, R.equals q.1 q.2 = false := fun q hq ↦ by
    by_contra hne
    exact (hmem q hq).2 (honly q (hmem q hq).1 (Bool.not_eq_false _ ▸ hne))
  have hlen : (front.filter (compatible R)).length ≤ 1 := by
    refine (length_le_one_iff (hnodup.of_append_left.filter _)).mpr fun q hq q' hq' ↦ ?_
    obtain ⟨hq, hcq⟩ := List.mem_filter.mp hq
    obtain ⟨hq', hcq'⟩ := List.mem_filter.mp hq'
    exact hatMost q (hmem q hq).1 q' (hmem q' hq').1 (hmem q hq).2 (hmem q' hq').2 hcq hcq'
  rw [findSchema_of_equals hsplit hfront heq, if_pos hlen]

/-- Without an equal pair, the order does not matter. -/
theorem findSchema_congr (h : ∀ p ∈ pairs R output input, R.equals p.1 p.2 = false)
    (ho : output.Same output') (hi : input.Same input') :
    findSchema R output'.elements input'.elements = findSchema R output.elements
      input.elements := by
  have hperm := perm_pairs ho hi
  rw [findSchema_of_not_equals fun p hp ↦ h p (hperm.mem_iff.mp hp), findSchema_of_not_equals h]
  have hfilter := hperm.filter (compatible R)
  have hlen := hfilter.length_eq
  show (match (pairs R output' input').filter (compatible R) with | [p] => some p | _ => none) =
    match (pairs R output input).filter (compatible R) with | [p] => some p | _ => none
  rcases hl : (pairs R output' input').filter (compatible R) with - | ⟨p, - | ⟨p', l⟩⟩ <;>
    rcases hl' : (pairs R output input).filter (compatible R) with - | ⟨q, - | ⟨q', l'⟩⟩ <;>
    rw [hl, hl'] at hlen hfilter <;> simp_all

/-- An equal pair that comes first. -/
theorem findSchema_cons {o i : α} (h : R.equals o i = true) (os is : List α) :
    findSchema R (o :: os) (i :: is) = some (i, o) := by
  have hsplit : (o :: os) ×ˢ (i :: is) = [] ++ (o, i) :: (is.map (o, ·) ++ os ×ˢ (i :: is)) := by
    rw [List.product_cons]
    rfl
  rw [findSchema_of_equals hsplit (fun _ hq ↦ absurd hq List.not_mem_nil) h, if_pos (by simp)]

/-- The last of all pairs. -/
theorem product_concat (os is : List α) (o i : α) :
    (os ++ [o]) ×ˢ (is ++ [i]) = (os ×ˢ (is ++ [i]) ++ is.map (o, ·)) ++ [(o, i)] := by
  simp [SProd.sprod, List.product]

theorem perm_concat {l l' : List α} (a : α) : (l ++ a :: l').Perm ((l ++ l') ++ [a]) :=
  List.perm_middle.trans (List.perm_append_singleton a (l ++ l')).symm

open Io (SimpleType)

/-- What `checkCompatible` says about simple types. -/
def isCompatible (type target : SimpleType) : Bool :=
  type == target || match target with
    | .long => type == .int
    | .float => type == .int || type == .long
    | .double => type == .int || type == .long || type == .float
    | .string => type != .null && type != .bytes
    | _ => false

def simpleTypes : SchemaRelations SimpleType where
  equals type target := type = target
  isCompatible := isCompatible
  equivalence := ⟨fun _ ↦ decide_eq_true rfl, fun h ↦ decide_eq_true (of_decide_eq_true h).symm,
    fun h h' ↦ decide_eq_true ((of_decide_eq_true h).trans (of_decide_eq_true h'))⟩
  isCompatible_of_equals a b h := by
    obtain rfl := of_decide_eq_true h
    cases a <;> rfl

/-- A set of simple types. -/
def simpleSet (types : List SimpleType) (h : types.Nodup) : SchemaSet simpleTypes where
  elements := types
  nodup := h
  eq_of_equals _ _ _ _ hab := of_decide_eq_true hab

end Tigon.SchemaFinder
