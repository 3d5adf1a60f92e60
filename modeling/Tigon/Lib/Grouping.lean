import Mathlib

/-!
# Group-by

`groupsBy` is the relational group-by of a list: for each key, the fold of the elements that have
this key, in their order.  An element without a key belongs to no group.

The three `_snoc` lemmas say what an element at the end of the list does: nothing if it has no key,
a new group if its key is new, and otherwise one more step of the fold of its group.  The order of
the groups is of no interest, so they are equal as multisets only.

`rowsBy` is a group-by with a row for each group.  `rowsBy_parts` is the rule for a group-by in two
steps. -/

set_option autoImplicit false

namespace Grouping

universe u v w

variable {D : Type u} {K : Type v} {A : Type w}
variable (key : D → Option K) (create : D → A) (update : D → K → A → A)

/-- The fold of the elements of a group, if there are any. -/
def fold (k : K) : List D → Option A
  | [] => none
  | d :: ds => some (ds.foldl (fun a d ↦ update d k a) (create d))

section

variable {create update} {k : K} {a : A} {ds : List D} {d : D}

theorem fold_eq_none : fold create update k ds = none ↔ ds = [] := by
  cases ds with
  | nil => exact ⟨fun _ ↦ rfl, fun _ ↦ rfl⟩
  | cons d ds => simp [fold]

/-- One more element of a group. -/
theorem fold_snoc (h : fold create update k ds = some a) :
    fold create update k (ds ++ [d]) = some (update d k a) := by
  cases ds with
  | nil => cases h
  | cons d' ds =>
    obtain rfl := Option.some_inj.mp h
    rw [List.cons_append, fold, List.foldl_append]
    rfl

end

variable [DecidableEq K]

/-- The elements with a key. -/
def members (k : K) (ds : List D) : List D := ds.filter fun d ↦ key d = some k

/-- The groups of a list, each with the fold of its elements. -/
def groupsBy (ds : List D) : List (K × A) :=
  (ds.filterMap key).dedup.filterMap fun k ↦
    (fold create update k (members key k ds)).map fun a ↦ (k, a)

@[simp] theorem groupsBy_nil : groupsBy key create update [] = [] := rfl

variable {key create update} {k : K} {a : A} {ds : List D} {d : D}

theorem members_eq_nil : members key k ds = [] ↔ ∀ d ∈ ds, key d ≠ some k := by
  simp [members]

theorem members_snoc_of_eq (h : key d = some k) :
    members key k (ds ++ [d]) = members key k ds ++ [d] := by
  simp [members, h]

theorem members_snoc_of_ne (h : key d ≠ some k) :
    members key k (ds ++ [d]) = members key k ds := by
  simp [members, h]

/-- A group is there with an aggregate if the fold of its elements is this aggregate. -/
theorem mem_groupsBy :
    (k, a) ∈ groupsBy key create update ds ↔
      fold create update k (members key k ds) = some a := by
  rw [groupsBy, List.mem_filterMap]
  constructor
  · rintro ⟨k', -, h⟩
    obtain ⟨a', ha', heq⟩ := Option.map_eq_some_iff.mp h
    obtain ⟨rfl, rfl⟩ := Prod.mk.inj heq
    exact ha'
  · intro h
    refine ⟨k, ?_, by rw [h, Option.map_some]⟩
    have hne : members key k ds ≠ [] := by
      intro hnil
      rw [hnil] at h
      cases h
    obtain ⟨d, hd⟩ := List.exists_mem_of_ne_nil _ hne
    obtain ⟨hmem, hkey⟩ := List.mem_filter.mp hd
    rw [List.mem_dedup, List.mem_filterMap]
    exact ⟨d, hmem, of_decide_eq_true hkey⟩

theorem mem_keys :
    k ∈ (groupsBy key create update ds).map Prod.fst ↔ ∃ d ∈ ds, key d = some k := by
  have hmem : k ∈ (groupsBy key create update ds).map Prod.fst ↔ members key k ds ≠ [] := by
    constructor
    · intro h
      obtain ⟨⟨k', a⟩, he, rfl⟩ := List.mem_map.mp h
      rw [mem_groupsBy] at he
      intro hnil
      rw [hnil] at he
      cases he
    · intro h
      obtain ⟨a, ha⟩ := Option.ne_none_iff_exists'.mp (mt fold_eq_none.mp h)
      exact List.mem_map.mpr ⟨(k, a), mem_groupsBy.mpr ha, rfl⟩
  rw [hmem, ne_eq, members_eq_nil]
  push Not
  rfl

/-- Each key has one group. -/
theorem nodup_keys : ((groupsBy key create update ds).map Prod.fst).Nodup := by
  rw [groupsBy, List.map_filterMap]
  refine (List.nodup_dedup _).filterMap fun k₁ k₂ k hk₁ hk₂ ↦ ?_
  simp only [Option.map_map, Option.mem_def, Option.map_eq_some_iff, Function.comp] at hk₁ hk₂
  obtain ⟨-, -, rfl⟩ := hk₁
  obtain ⟨-, -, rfl⟩ := hk₂
  rfl

theorem nodup_groupsBy : (groupsBy key create update ds).Nodup := nodup_keys.of_map _

/-- An element without a key changes nothing. -/
theorem groupsBy_snoc_none (h : key d = none) :
    groupsBy key create update (ds ++ [d]) = groupsBy key create update ds := by
  have hmembers : ∀ k, members key k (ds ++ [d]) = members key k ds := by
    intro k
    exact members_snoc_of_ne (by simp [h])
  simp only [groupsBy, hmembers]
  simp [h]

/-- An element with a new key. -/
theorem groupsBy_snoc_new (hkey : key d = some k)
    (hnew : k ∉ (groupsBy key create update ds).map Prod.fst) :
    (groupsBy key create update (ds ++ [d])).Perm
      ((k, create d) :: groupsBy key create update ds) := by
  have hnotMem : (k, create d) ∉ groupsBy key create update ds := by
    intro h
    exact hnew (List.mem_map_of_mem (f := Prod.fst) h)
  have hnil : members key k ds = [] := by
    rw [members_eq_nil]
    intro d' hd' h
    exact hnew (mem_keys.mpr ⟨d', hd', h⟩)
  refine (List.perm_ext_iff_of_nodup nodup_groupsBy
    (List.nodup_cons.mpr ⟨hnotMem, nodup_groupsBy⟩)).mpr fun ⟨k', a⟩ ↦ ?_
  rw [List.mem_cons, mem_groupsBy, mem_groupsBy]
  by_cases hk : k' = k
  · subst hk
    rw [members_snoc_of_eq hkey, hnil]
    simp [fold, eq_comm]
  · rw [members_snoc_of_ne (by rw [hkey]; exact fun h ↦ hk (Option.some_inj.mp h).symm)]
    simp [hk]

/-- An element of a group that is there. -/
theorem groupsBy_snoc_old (hkey : key d = some k)
    (hold : k ∈ (groupsBy key create update ds).map Prod.fst) :
    (groupsBy key create update (ds ++ [d])).Perm
      ((groupsBy key create update ds).map fun e ↦
        if e.1 = k then (e.1, update d k e.2) else e) := by
  have hfst : ((groupsBy key create update ds).map fun e ↦
      if e.1 = k then (e.1, update d k e.2) else e).map Prod.fst =
        (groupsBy key create update ds).map Prod.fst := by
    rw [List.map_map]
    refine List.map_congr_left fun e _ ↦ ?_
    rw [Function.comp]
    split <;> rfl
  have hnodup : ((groupsBy key create update ds).map Prod.fst).Nodup := nodup_keys
  rw [← hfst] at hnodup
  refine (List.perm_ext_iff_of_nodup nodup_groupsBy (hnodup.of_map _)).mpr fun ⟨k', a⟩ ↦ ?_
  rw [mem_groupsBy, List.mem_map]
  by_cases hk : k' = k
  · subst hk
    obtain ⟨⟨k, b⟩, hb, rfl⟩ := List.mem_map.mp hold
    have hfold := mem_groupsBy.mp hb
    rw [members_snoc_of_eq hkey, fold_snoc hfold]
    constructor
    · intro h
      refine ⟨(k, b), hb, ?_⟩
      rw [if_pos rfl, Option.some_inj.mp h]
    · rintro ⟨⟨k', b'⟩, hb', heq⟩
      have hk' : k' = k := by
        split at heq
        · assumption
        · exact (Prod.mk.inj heq).1
      subst hk'
      obtain rfl := Option.some_inj.mp (hfold.symm.trans (mem_groupsBy.mp hb'))
      rw [if_pos rfl] at heq
      rw [(Prod.mk.inj heq).2]
  · rw [members_snoc_of_ne (by rw [hkey]; exact fun h ↦ hk (Option.some_inj.mp h).symm),
      ← mem_groupsBy]
    constructor
    · intro h
      exact ⟨(k', a), h, if_neg hk⟩
    · rintro ⟨⟨k'', b⟩, hb, heq⟩
      split at heq
      case isTrue h => exact absurd ((Prod.mk.inj heq).1.symm.trans h) hk
      case isFalse => rwa [heq] at hb

/-! ## Rows of groups -/

section Rows

variable {D : Type u} {K : Type v} {R : Type w} [DecidableEq K]

/-- A group-by without a key that is missing: a row for each group, or none. -/
def rowsBy (key : D → K) (row : K → List D → Option R) (ds : List D) : List R :=
  (ds.map key).dedup.filterMap fun k ↦ row k (ds.filter fun d ↦ key d = k)

/-- The elements with a key are those of the parts with this key. -/
theorem filter_flatten_parts {key : D → K} {parts : List (List D)} {keyOf : List D → K}
    (hkey : ∀ p ∈ parts, ∀ d ∈ p, key d = keyOf p) (k : K) :
    parts.flatten.filter (fun d ↦ key d = k) = (parts.filter fun p ↦ keyOf p = k).flatten := by
  induction parts with
  | nil => rfl
  | cons p parts ih =>
    obtain ⟨hp, hrest⟩ := List.forall_mem_cons.mp hkey
    rw [List.flatten_cons, List.filter_append, ih hrest]
    by_cases hk : keyOf p = k
    · rw [List.filter_cons_of_pos (by simpa using hk), List.flatten_cons,
        List.filter_eq_self.mpr fun d hd ↦ by simpa [hp d hd] using hk]
    · rw [List.filter_cons_of_neg (by simpa using hk),
        List.filter_eq_nil_iff.mpr fun d hd ↦ by simpa [hp d hd] using hk, List.nil_append]

/-- **Groups can be put together from parts.**  Each part has elements of one group, and is there as
one element; if the rows agree for each group, the group-by of the parts is that of all elements. -/
theorem rowsBy_parts {E : Type u} {key : D → K} {row : K → List D → Option R} {key' : E → K}
    {row' : K → List E → Option R} {e : List D → E} {parts : List (List D)} {ds : List D}
    (hne : ∀ p ∈ parts, p ≠ []) (hkey : ∀ p ∈ parts, ∀ d ∈ p, key d = key' (e p))
    (hperm : parts.flatten.Perm ds)
    (hrow : ∀ k ps ds', ps ≠ [] → (∀ p ∈ ps, p ∈ parts ∧ key' (e p) = k) → ps.flatten.Perm ds' →
      row' k (ps.map e) = row k ds') :
    (rowsBy key' row' (parts.map e)).Perm (rowsBy key row ds) := by
  have hkeys : ((parts.map e).map key').dedup.Perm (ds.map key).dedup := by
    refine (List.perm_ext_iff_of_nodup (List.nodup_dedup _) (List.nodup_dedup _)).mpr fun k ↦ ?_
    rw [List.mem_dedup, List.mem_dedup, List.mem_map, List.mem_map]
    constructor
    · rintro ⟨x, hx, rfl⟩
      obtain ⟨p, hp, rfl⟩ := List.mem_map.mp hx
      obtain ⟨d, hd⟩ := List.exists_mem_of_ne_nil p (hne p hp)
      exact ⟨d, hperm.mem_iff.mp (List.mem_flatten.mpr ⟨p, hp, hd⟩), hkey p hp d hd⟩
    · rintro ⟨d, hd, rfl⟩
      obtain ⟨p, hp, hdp⟩ := List.mem_flatten.mp (hperm.mem_iff.mpr hd)
      exact ⟨e p, List.mem_map_of_mem hp, (hkey p hp d hdp).symm⟩
  have hrows : rowsBy key' row' (parts.map e) =
      ((parts.map e).map key').dedup.filterMap fun k ↦ row k (ds.filter fun d ↦ key d = k) := by
    refine List.filterMap_congr fun k hk ↦ ?_
    rw [List.filter_map]
    refine hrow k _ _ (fun hnil ↦ ?_) (fun p hp ↦ ?_) ?_
    · rw [List.mem_dedup, List.map_map] at hk
      obtain ⟨p, hp, rfl⟩ := List.mem_map.mp hk
      exact List.filter_eq_nil_iff.mp hnil p hp (by simp)
    · obtain ⟨hmem, hpk⟩ := List.mem_filter.mp hp
      exact ⟨hmem, of_decide_eq_true hpk⟩
    · have hparts : parts.flatten.filter (fun d ↦ key d = k) =
        (parts.filter fun p ↦ key' (e p) = k).flatten :=
        filter_flatten_parts hkey k
      rw [Function.comp_def, ← hparts]
      exact hperm.filter _
  rw [hrows, rowsBy]
  exact hkeys.filterMap _

end Rows

end Grouping
