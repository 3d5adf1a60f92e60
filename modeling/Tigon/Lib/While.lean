import Mathlib

/-!
# While loops

`loop cond body fuel s` runs a loop for at most `fuel` rounds.  The body may fail to return, as it
may itself have a loop in it.  `Returns f a` says that a computation returns `a` whenever it has
enough fuel, and is closed under running one computation after another.

* `exists_returns_loop` — **the rule for total correctness**: an invariant, and a relation without
  infinite descent that each round goes down.
* `loop_eq_none` — a loop whose condition never becomes false does not return.

The last part is about two loops that walk a graph without a record of where they have been: one
with a queue of nodes, and one with sets of nodes, a level at a time.  Both end if no node has an
infinite path. -/

set_option autoImplicit false

namespace While

variable {σ α β : Type*}

/-- A loop, with at most so many rounds. -/
def loop (cond : σ → Bool) (body : σ → Option σ) : Nat → σ → Option σ
  | 0, _ => none
  | fuel + 1, s => if cond s then (body s).bind (loop cond body fuel) else some s

/-- With enough fuel a computation returns a result. -/
def Returns (f : Nat → Option α) (a : α) : Prop := ∃ enough, ∀ fuel ≥ enough, f fuel = some a

variable {f : Nat → Option α} {a a' : α} {b : β}

theorem returns_some (a : α) : Returns (fun _ ↦ some a) a := ⟨0, fun _ _ ↦ rfl⟩

theorem Returns.bind {g : α → Nat → Option β} (hf : Returns f a) (hg : Returns (g a) b) :
    Returns (fun fuel ↦ (f fuel).bind fun a ↦ g a fuel) b := by
  obtain ⟨n, hn⟩ := hf
  obtain ⟨m, hm⟩ := hg
  refine ⟨max n m, fun fuel hfuel ↦ ?_⟩
  dsimp only
  rw [hn fuel (le_of_max_le_left hfuel), Option.bind_some, hm fuel (le_of_max_le_right hfuel)]

theorem Returns.map (hf : Returns f a) (g : α → β) : Returns (fun fuel ↦ (f fuel).map g) (g a) := by
  obtain ⟨n, hn⟩ := hf
  exact ⟨n, fun fuel hfuel ↦ congrArg (Option.map g) (hn fuel hfuel)⟩

/-- One computation for each element of a list. -/
theorem exists_returns_mapM {g : α → Nat → Option β} {P : α → β → Prop} {l : List α}
    (h : ∀ a ∈ l, ∃ b, Returns (g a) b ∧ P a b) :
    ∃ bs, Returns (fun fuel ↦ l.mapM fun a ↦ g a fuel) bs ∧ List.Forall₂ P l bs := by
  induction l with
  | nil => exact ⟨[], returns_some [], .nil⟩
  | cons a l ih =>
    obtain ⟨b, hb, hab⟩ := h a List.mem_cons_self
    obtain ⟨bs, hbs, hall⟩ := ih fun a' ha' ↦ h a' (List.mem_cons_of_mem a ha')
    refine ⟨b :: bs, ?_, .cons hab hall⟩
    simp only [List.mapM_cons]
    exact hb.bind (g := fun b fuel ↦ (l.mapM fun a ↦ g a fuel).bind fun bs ↦ some (b :: bs))
      (hbs.bind (returns_some _))

theorem Returns.unique (h : Returns f a) (h' : Returns f a') : a = a' := by
  obtain ⟨n, hn⟩ := h
  obtain ⟨m, hm⟩ := h'
  exact Option.some.inj ((hn (max n m) (le_max_left n m)).symm.trans
    (hm (max n m) (le_max_right n m)))

theorem not_returns (h : ∀ fuel, f fuel = none) : ¬ Returns f a := by
  rintro ⟨n, hn⟩
  have hsome := hn n le_rfl
  rw [h n] at hsome
  cases hsome

/-- **Total correctness:** each round keeps the invariant and goes down. -/
theorem exists_returns_loop {cond : σ → Bool} {body : Nat → σ → Option σ} {I : σ → Prop}
    {r : σ → σ → Prop} (hbody : ∀ s, I s → cond s = true → ∃ t, Returns (fun fuel ↦ body fuel s) t ∧
      I t ∧ r t s)
    {s : σ} (hs : I s) (hacc : Acc r s) :
    ∃ t, Returns (fun fuel ↦ loop cond (body fuel) fuel s) t ∧ I t ∧ cond t = false := by
  -- the rounds and the fuel for the body are counted apart
  have hrun : ∃ t, (∃ enough, ∀ rounds ≥ enough, ∀ fuel ≥ enough,
      loop cond (body fuel) rounds s = some t) ∧ I t ∧ cond t = false := by
    induction hacc with
    | intro s _ ih =>
      by_cases hc : cond s = true
      · obtain ⟨t, ⟨n, hn⟩, ht, hr⟩ := hbody s hs hc
        obtain ⟨u, ⟨m, hm⟩, hu⟩ := ih t hr ht
        refine ⟨u, ⟨max n (m + 1), fun rounds hrounds fuel hfuel ↦ ?_⟩, hu⟩
        obtain ⟨rounds, rfl⟩ := Nat.exists_eq_add_of_lt (show 0 < rounds by omega)
        have hround : body fuel s = some t := hn fuel (by omega)
        rw [Nat.zero_add, loop, if_pos hc, hround, Option.bind_some]
        exact hm rounds (by omega) fuel (by omega)
      · refine ⟨s, ⟨1, fun rounds hrounds fuel _ ↦ ?_⟩, hs, Bool.eq_false_iff.mpr hc⟩
        obtain ⟨rounds, rfl⟩ := Nat.exists_eq_add_of_lt hrounds
        rw [loop, if_neg hc]
  obtain ⟨t, ⟨n, hn⟩, ht⟩ := hrun
  exact ⟨t, ⟨n, fun fuel hfuel ↦ hn fuel hfuel fuel hfuel⟩, ht⟩

/-- The rule for a measure. -/
theorem exists_returns_loop_measure {cond : σ → Bool} {body : Nat → σ → Option σ} {I : σ → Prop}
    (measure : σ → Nat) (hbody : ∀ s, I s → cond s = true → ∃ t, Returns (fun fuel ↦ body fuel s)
      t ∧ I t ∧ measure t < measure s)
    {s : σ} (hs : I s) :
    ∃ t, Returns (fun fuel ↦ loop cond (body fuel) fuel s) t ∧ I t ∧ cond t = false :=
  exists_returns_loop hbody hs ((InvImage.wf measure Nat.lt_wfRel.wf).apply s)

/-- **A loop whose condition stays true does not return.** -/
theorem loop_eq_none {cond : σ → Bool} {body : σ → Option σ} {I : σ → Prop}
    (hcond : ∀ s, I s → cond s = true) (hbody : ∀ s t, I s → body s = some t → I t) {s : σ}
    (hs : I s) (fuel : Nat) :
    loop cond body fuel s = none := by
  induction fuel generalizing s with
  | zero => rfl
  | succ fuel ih =>
    rw [loop, if_pos (hcond s hs)]
    cases h : body s with
    | none => rfl
    | some t => exact ih (hbody s t hs h)

/-! ## Walks -/

variable {child : α → α → Prop}

/-- A node without infinite paths is on no cycle. -/
theorem not_transGen_of_acc {a : α} (h : Acc child a) : ¬ Relation.TransGen child a a := by
  have hacc : Acc (Relation.TransGen child) a := h.transGen
  induction hacc with
  | intro a _ ih => exact fun ha ↦ ih a ha (h.inv_of_transGen ha) ha

theorem acc_of_reflTransGen {a b : α} (h : Acc child a) (hb : Relation.ReflTransGen child b a) :
    Acc child b := by
  induction hb with
  | refl => exact h
  | tail _ hab ih => exact ih (h.inv hab)

/-- **On a finite type, a node that reaches no cycle has no infinite paths.** -/
theorem acc_of_forall_not_transGen [Finite α] {a : α}
    (h : ∀ b, Relation.ReflTransGen child b a → ¬ Relation.TransGen child b b) : Acc child a := by
  let below : {b // Relation.ReflTransGen child b a} →
    {b // Relation.ReflTransGen child b a} → Prop :=
    fun b c ↦ Relation.TransGen child b.1 c.1
  have htrans : IsTrans _ below := ⟨fun _ _ _ hbc hcd ↦ hbc.trans hcd⟩
  have hirrefl : Std.Irrefl below := ⟨fun b hb ↦ h b.1 b.2 hb⟩
  have hwf : WellFounded below := Finite.wellFounded_of_trans_of_irrefl below
  have hacc : ∀ b : {b // Relation.ReflTransGen child b a}, Acc child b.1 := by
    intro b
    induction b using hwf.induction with
    | _ b ih => exact ⟨_, fun c hc ↦ ih ⟨c, b.2.head hc⟩ (.single hc)⟩
  exact hacc ⟨a, .refl⟩

/-- A queue of nodes, of which one is replaced by some of its children. -/
theorem acc_queue {queue : Multiset α} (h : ∀ a ∈ queue, Acc child a) :
    Acc (Relation.CutExpand fun b a ↦ child b a ∧ Acc child a) queue := by
  have hirrefl : Std.Irrefl fun b a ↦ child b a ∧ Acc child a :=
    ⟨fun a ha ↦ not_transGen_of_acc ha.2 (.single ha.1)⟩
  refine Relation.acc_of_singleton fun a ha ↦ ?_
  have hacc : Acc (fun b a ↦ child b a ∧ Acc child a) a := Subrelation.accessible And.left (h a ha)
  exact hacc.cutExpand

/-- A set of nodes that is replaced by children of its nodes. -/
def Below (child : α → α → Prop) (t s : Finset α) : Prop := s.Nonempty ∧ ∀ b ∈ t, ∃ a ∈ s, child b a

theorem acc_below [Finite α] {s : Finset α} (h : ∀ a ∈ s, Acc child a) : Acc (Below child) s := by
  classical
  have := Fintype.ofFinite α
  let height : α → Nat := fun a ↦ ((Finset.univ : Finset α).filter fun b ↦ Relation.TransGen
    child b a).card
  have hheight : ∀ {a b}, Acc child a → child b a → height b < height a := by
    intro a b ha hb
    refine Finset.card_lt_card (Finset.ssubset_iff_of_subset ?_ |>.mpr ⟨b, ?_, ?_⟩)
    · intro c hc
      exact Finset.mem_filter.mpr ⟨Finset.mem_univ c, (Finset.mem_filter.mp hc).2.tail hb⟩
    · exact Finset.mem_filter.mpr ⟨Finset.mem_univ b, .single hb⟩
    · exact fun hc ↦ not_transGen_of_acc (ha.inv hb) (Finset.mem_filter.mp hc).2
  have hbound : ∀ k s, (∀ a ∈ s, Acc child a ∧ height a < k) → Acc (Below child) s := by
    intro k
    induction k with
    | zero =>
      intro s hs
      refine ⟨_, fun t ht ↦ ?_⟩
      obtain ⟨a, ha⟩ := ht.1
      exact absurd (hs a ha).2 (Nat.not_lt_zero _)
    | succ k ih =>
      intro s hs
      refine ⟨_, fun t ht ↦ ih t fun b hb ↦ ?_⟩
      obtain ⟨a, ha, hba⟩ := ht.2 b hb
      have hlt := hheight (hs a ha).1 hba
      have hle := (hs a ha).2
      exact ⟨(hs a ha).1.inv hba, by omega⟩
  refine hbound ((Finset.univ : Finset α).card + 1) s fun a ha ↦ ⟨h a ha, ?_⟩
  have hle : height a ≤ (Finset.univ : Finset α).card :=
    Finset.card_le_card (Finset.filter_subset _ _)
  omega

end While
