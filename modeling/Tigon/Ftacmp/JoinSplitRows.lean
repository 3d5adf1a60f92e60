import Tigon.Ftacmp.JoinSplit

/-!
# Splitting a join: its rows

A column that a row of an outer join has no value for is empty, or equals an expression over the row
that is there.  As long as only columns are pushed into the selection of a source that may be
missing, the join over the selections pads a column exactly as the query pads the column of its
source (`pad_col`), and all rows are those of the query.

## What is here

* `PlanOf` — what a split makes (`planOf_of_split`), and when it makes something
  (`isSome_splitNodeForFta_iff`).
* `PlanOf.run_eq` — the rows of the plan.
* `joinPreserves_iff` — **when the split of a join preserves it**.
-/

set_option autoImplicit false

namespace Tigon.JoinSplit

open Ftacmp.Parse Ftacmp.Split Ftacmp.Spx List

/-! ## Equalities -/

section Equiv

/-- The field of a column. -/
def colField? : ScalarExp → Option String
  | .colref cr => some cr.field
  | _ => none

theorem colField?_eq_some_iff {e : ScalarExp} {f : String} :
    colField? e = some f ↔ ∃ cr, e = .colref cr ∧ cr.field = f := by
  cases e <;> simp [colField?]

theorem colField?_bindColrefSe (varName : String) (r r' : Int) (e : ScalarExp) :
    colField? (bindColrefSe varName r r' e) = colField? e := by
  cases e with
  | ifaceParam ifp =>
    rw [bindColrefSe, ScalarExp.mapLeaves, bindLeaf]
    · split <;> rfl
    all_goals simp
  | colref cr =>
    rw [bindColrefSe, ScalarExp.mapLeaves, bindLeaf]
    · split <;> rfl
    all_goals simp
  | gbref cr g =>
    rw [bindColrefSe, ScalarExp.mapLeaves, bindLeaf]
    · split <;> rfl
    all_goals simp
  | func op os i a => cases a <;> rfl
  | _ => rfl

variable {V : Type} {I : Interp V} {q : JoinEqHashQpn} {ftaLegal : Nat → Bool} {v : SelectVec}

theorem equivIn_eq (s : Side) (f : String) (pr : Predicate) : equivIn s f pr =
    (sideOf s pr).bind fun x ↦ if colField? x = some f then sideOf s.other pr else none := by
  rw [equivIn]
  cases sideOf s pr with
  | none => rfl
  | some x => cases x <;> simp [colField?]

/-- Column `f'` of the join is column `f` of the query, on side `o`. -/
def ColumnOf (v : SelectVec) (o : Side) (f f' : String) : Prop :=
  match listOf v o.ref with
  | some l => ∃ el ∈ l, el.name = f' ∧ ∃ cr, el.se = .colref cr ∧ cr.field = f
  | none => f = f'

theorem eq_colref_of_isEquivalentSe {e : ScalarExp} {cr : Colref}
    (h : e.isEquivalentSe (.colref cr) = true) : ∃ cr', e = .colref cr' ∧ cr'.field = cr.field := by
  rw [ScalarExp.isEquivalentSe_iff] at h
  cases e <;> simp [ScalarExp.key] at h
  exact ⟨_, rfl, h.1⟩

theorem isEquivalentSe_colref {cr cr' : Colref} (hf : cr.field = cr'.field)
    (hs : cr.schemaRef = cr'.schemaRef) :
    (ScalarExp.colref cr).isEquivalentSe (.colref cr') = true := by
  rw [ScalarExp.isEquivalentSe_iff, ScalarExp.key, ScalarExp.key, hf, hs]

theorem eq_of_isEquivalentSe {P : ScalarExp → Prop} {h : Int} {l : List SelectElement}
    (hl : ListOk ftaLegal P h l) {el el' : SelectElement} (hel : el ∈ l) (hel' : el' ∈ l)
    (heq : el.se.isEquivalentSe el'.se = true) : el = el' := by
  obtain ⟨i, hi, rfl⟩ := getElem_of_mem hel
  obtain ⟨j, hj, rfl⟩ := getElem_of_mem hel'
  have hd := pairwise_iff_getElem.mp hl.distinct
  rcases lt_trichotomy i j with hij | rfl | hij
  · rw [hd i j hi hj hij] at heq
    cases heq
  · rfl
  · rw [ScalarExp.isEquivalentSe_iff, eq_comm, ← ScalarExp.isEquivalentSe_iff, hd j i hj hi hij]
      at heq
    cases heq

theorem isWhole_colref (prot : Int → Bool) (cr : Colref) :
    isWhole ftaLegal prot (.colref cr) = prot cr.tablevarRef := by
  simp [isWhole, seForbidden, seSource]

theorem schemaRef_eq {cr cr' : Colref} {o : Side} (h : JoinLeaf q (.colref cr))
    (h' : JoinLeaf q (.colref cr')) (ho : cr.tablevarRef = o.ref) (ho' : cr'.tablevarRef = o.ref) :
    cr.schemaRef = cr'.schemaRef := by
  obtain ⟨s, hs, -, href⟩ := h
  obtain ⟨s', hs', -, href'⟩ := h'
  obtain rfl : s = o := ref_injective (hs.symm.trans ho)
  obtain rfl : s' = s := ref_injective (hs'.symm.trans ho')
  rw [href, href']

/-- The operand of an equality on side `o` is a column of the join exactly if it is that column of
the query. -/
theorem colField?_iff_of_operandOf
    (hv : VecOk ftaLegal (JoinLeaf q) v) {o : Side} {x x' : ScalarExp}
    (hx : ∀ y ∈ x.leaves, LowLeaf o.ref y ∧ JoinLeaf q y) (hop : OperandOf ftaLegal I v x x')
    {f f' : String} (hcol : ColumnOf v o f f') : colField? x' = some f' ↔ colField? x = some f := by
  cases hw : isWhole ftaLegal (fun s ↦ isProtocolSource s v) x with
  | true =>
    obtain ⟨l, hl, el, hel, hx', heq⟩ := hop.column hw
    have hprot : isProtocolSource (seSource x) v = true := (Bool.and_eq_true_iff.mp hw).2
    have hsrc : seSource x = o.ref :=
      (seSource_eq_or fun y hy ↦ (hx y hy).1).resolve_right fun h ↦ by
        rw [h, isProtocolSource_notblvar] at hprot
        cases hprot
    rw [hsrc] at hl
    have hok := hv _ l hl
    rw [ColumnOf, hl] at hcol
    obtain ⟨el1, hel1, hname, cr1, hse1, hf⟩ := hcol
    rw [hx', colField?, Option.some.injEq, ← hname, ← hf]
    constructor
    · intro h
      obtain rfl := inj_on_of_nodup_map hok.nodup hel hel1 h
      rw [hse1, ScalarExp.isEquivalentSe_iff, eq_comm, ← ScalarExp.isEquivalentSe_iff] at heq
      obtain ⟨cr, rfl, hcr⟩ := eq_colref_of_isEquivalentSe heq
      exact congrArg some hcr
    · intro h
      obtain ⟨cr, rfl, hcr⟩ := colField?_eq_some_iff.mp h
      have hjoin : ∀ y ∈ el1.se.leaves, LowLeaf o.ref y ∧ JoinLeaf q y := (hok.low el1 hel1).1
      have h1 := hjoin (.colref cr1) (by rw [hse1]; exact mem_singleton_self _)
      have h2 := hx (.colref cr) (mem_singleton_self _)
      refine congrArg SelectElement.name (eq_of_isEquivalentSe hok hel hel1 ?_)
      rw [hse1]
      rw [ScalarExp.isEquivalentSe_iff] at heq
      rw [ScalarExp.isEquivalentSe_iff, heq, ← ScalarExp.isEquivalentSe_iff]
      exact isEquivalentSe_colref hcr (schemaRef_eq h2.2 h1.2 h2.1 h1.1)
  | false =>
    cases hl : listOf v o.ref with
    | none =>
      rw [ColumnOf, hl] at hcol
      rw [← show f = f' from hcol, colField?_eq_some_iff, colField?_eq_some_iff]
      exact exists_congr fun cr ↦ and_congr_left' (hop.kept hw cr)
    | some l =>
      have hprot : ∀ cr, x ≠ .colref cr := by
        rintro cr rfl
        rw [isWhole_colref, show cr.tablevarRef = o.ref from (hx _ (mem_singleton_self _)).1,
          isProtocolSource, hl] at hw
        cases hw
      refine iff_of_false (fun h ↦ ?_) fun h ↦ ?_
      · obtain ⟨cr, hcr, -⟩ := colField?_eq_some_iff.mp h
        exact hprot cr ((hop.kept hw cr).mp hcr)
      · obtain ⟨cr, hcr, -⟩ := colField?_eq_some_iff.mp h
        exact hprot cr hcr

theorem bindStreamPr_compare (q : JoinEqHashQpn) (l : ScalarExp) (op : String) (r : ScalarExp) :
    bindStreamPr q (.compare l op r) = .compare (bindStreamSe q l) op (bindStreamSe q r) := rfl

theorem colField?_bindStreamSe (q : JoinEqHashQpn) (e : ScalarExp) :
    colField? (bindStreamSe q e) = colField? e := by
  rw [bindStreamSe, colField?_bindColrefSe, colField?_bindColrefSe]

/-- What a column equals in the join, for what it equals in the query. -/
def EquivOf (ftaLegal : Nat → Bool) (I : Interp V) (q : JoinEqHashQpn) (v : SelectVec) (o : Side)
    (y e : ScalarExp) : Prop :=
  ∃ y', e = bindStreamSe q y' ∧ Means ftaLegal I v y' y ∧
    ∀ z ∈ y.leaves, LowLeaf o.other.ref z ∧ JoinLeaf q z

theorem equivIn_of_compareOf (hq : q.Ok) (hv : VecOk ftaLegal (JoinLeaf q) v) {o : Side}
    {f f' : String} (hcol : ColumnOf v o f f') {pr pr' : Predicate}
    (hpr : pr ∈ q.hashEq ++ q.temporalEq)
    (h : CompareOf ftaLegal I v pr pr') :
    Option.Rel (EquivOf ftaLegal I q v o) (equivIn o f pr) (equivIn o f' (bindStreamPr q pr')) := by
  obtain ⟨l, op, r, l', r', rfl, rfl, hl, hr⟩ := h
  obtain ⟨l2, op2, r2, heq, hl2, hr2⟩ := hq.eq _ hpr
  cases heq
  have hjoin : ∀ x ∈ (Predicate.compare l op r).leaves, JoinLeaf q x := by
    intro x hx
    refine hq.leaf x (mem_append_right _ (mem_flatMap.mpr ⟨_, ?_, hx⟩))
    rcases mem_append.mp hpr with h | h
    · exact mem_append_left _ (mem_append_right _ h)
    · exact mem_append_left _ (mem_append_left _ h)
  have hleft : ∀ x ∈ l.leaves, LowLeaf Side.left.ref x ∧ JoinLeaf q x :=
    fun x hx ↦ ⟨hl2 x hx, hjoin x (mem_append_left _ hx)⟩
  have hright : ∀ x ∈ r.leaves, LowLeaf Side.right.ref x ∧ JoinLeaf q x :=
    fun x hx ↦ ⟨hr2 x hx, hjoin x (mem_append_right _ hx)⟩
  -- the operand on side `o` is the column in both, or in neither
  have hsides : ∀ {x x' y y' : ScalarExp}, (∀ z ∈ x.leaves, LowLeaf o.ref z ∧ JoinLeaf q z) →
      (∀ z ∈ y.leaves, LowLeaf o.other.ref z ∧ JoinLeaf q z) → OperandOf ftaLegal I v x x' →
      OperandOf ftaLegal I v y y' → Option.Rel (EquivOf ftaLegal I q v o)
        (if colField? x = some f then some y else none)
        (if colField? x' = some f' then some (bindStreamSe q y') else none) := by
    intro x x' y y' hx hy hop hop'
    rw [if_congr (colField?_iff_of_operandOf hv hx hop hcol) rfl rfl]
    split
    · exact .some ⟨y', rfl, hop'.means, hy⟩
    · exact .none
  rw [bindStreamPr_compare, equivIn_eq, equivIn_eq]
  cases o with
  | left =>
    simp only [sideOf, Side.other, Option.bind_some, colField?_bindStreamSe]
    exact hsides hleft hright hl hr
  | right =>
    simp only [sideOf, Side.other, Option.bind_some, colField?_bindStreamSe]
    exact hsides hright hleft hr hl

theorem rel_findSome? {α β γ δ : Type} {R : α → β → Prop} {S : γ → δ → Prop} {f : α → Option γ}
    {g : β → Option δ} {l : List α} {l' : List β} (h : List.Forall₂ R l l')
    (hfg : ∀ a ∈ l, ∀ b, R a b → Option.Rel S (f a) (g b)) :
    Option.Rel S (l.findSome? f) (l'.findSome? g) := by
  induction h with
  | nil => exact .none
  | @cons a b l l' hab _ ih =>
    have hrest := ih fun a ha ↦ hfg a (mem_cons_of_mem _ ha)
    have hhead := hfg a mem_cons_self b hab
    rw [findSome?_cons, findSome?_cons]
    cases hfa : f a with
    | none =>
      rw [hfa] at hhead
      cases hgb : g b with
      | none => exact hrest
      | some d =>
        rw [hgb] at hhead
        cases hhead
    | some c =>
      rw [hfa] at hhead
      cases hgb : g b with
      | none =>
        rw [hgb] at hhead
        cases hhead
      | some d => rwa [hgb] at hhead

end Equiv

/-! ## Agreement on one side -/

section Agreement

variable {V : Type} {I : Interp V} {q : JoinEqHashQpn} {ftaLegal : Nat → Bool} {v : SelectVec}
  {ρ : Env V} {junk : V}

theorem streamSide_ifp_of_none {t : Side → Tuple V} {s : Side} (h : listOf v s.ref = none) :
    streamSide I v ρ junk t s = t s := by
  rw [streamSide, h]

/-- What is known in place of an expression over one side is over that side. -/
theorem tablevarRef_of_known {s : Side} {old new : List ScalarExp}
    (hold : ∀ z ∈ old, LowLeaf s.ref z) (hnew : ∀ p ∈ new, ∀ z ∈ p.leaves, LowLeaf s.ref z)
    {cr : Colref}
    (hk : Known v old new (.colref cr)) : cr.tablevarRef = s.ref := by
  rcases hk.2 with ⟨hx, -⟩ | ⟨l, hl, el, hel, -, p, hp, hsrc, -⟩
  · exact hold _ hx
  · rw [← hsrc]
    refine (seSource_eq_or (hnew p hp)).resolve_right fun h ↦ ?_
    rw [← hsrc, h] at hl
    cases hl

theorem agrees_of_side {s : Side} {old new : List ScalarExp} (hold : ∀ z ∈ old, LowLeaf s.ref z)
    (hnew : ∀ p ∈ new, ∀ z ∈ p.leaves, LowLeaf s.ref z) {x : ScalarExp} (hk : Known v old new x)
    {t t' : Side → Tuple V} (hs : t' s = streamSide I v ρ junk t s) : Agrees I v ρ junk t t' x := by
  cases x with
  | colref cr =>
    intro s' hs'
    obtain rfl := ref_injective ((tablevarRef_of_known hold hnew hk).symm.trans hs')
    rw [hs]
  | ifaceParam ifp =>
    intro s' hs'
    rcases hk.2 with ⟨hx, -⟩ | hx
    · obtain rfl := ref_injective ((show ifp.tablevarRef = s.ref from hold _ hx).symm.trans hs')
      rw [hs]
    · exact hx.elim
  | _ => trivial

theorem leaves_subset_of_mem_prPushed {prot : Int → Bool} {p : ScalarExp} {pr : Predicate}
    (h : p ∈ prPushed ftaLegal prot pr) : p.leaves ⊆ pr.leaves := by
  induction pr with
  | compare l op r =>
    rcases mem_append.mp h with h | h
    · exact List.Subset.trans (leaves_subset_of_mem_pushed _ h) (subset_append_left _ _)
    · exact List.Subset.trans (leaves_subset_of_mem_pushed _ h) (subset_append_right _ _)
  | isIn l lits => exact leaves_subset_of_mem_pushed _ h
  | unaryOp op l ih => exact ih h
  | binaryOp op l r ihl ihr =>
    rcases mem_append.mp h with h | h
    · exact List.Subset.trans (ihl h) (subset_append_left _ _)
    · exact List.Subset.trans (ihr h) (subset_append_right _ _)
  | func op os i =>
    obtain ⟨o, ho, h⟩ := mem_flatMap.mp h
    exact fun x hx ↦ mem_flatMap.mpr ⟨o, ho, leaves_subset_of_mem_pushed _ h hx⟩

/-- Two tuples on side `s`, one of the query and one of the join, have the same columns. -/
structure SameColumns (v : SelectVec) (s : Side) (t t' : Tuple V) : Prop where
  col : ∀ {f f'}, ColumnOf v s f f' → t'.col f' = t.col f
  ifp : t'.ifp = t.ifp

theorem agrees_of_sameColumns {old new : List ScalarExp} (hv : VecOk ftaLegal (JoinLeaf q) v)
    {s : Side} (hnew : ∀ p ∈ new, seSource p = s.ref → ∃ cr, p = .colref cr) {x : ScalarExp}
    (hk : Known v old new x) {t t' : Side → Tuple V} (hs : SameColumns v s (t s) (t' s))
    (hother : t' s.other = streamSide I v ρ junk t s.other) : Agrees I v ρ junk t t' x := by
  cases x with
  | colref cr =>
    intro s' hs'
    rcases eq_or_eq_other s s' with rfl | rfl
    · cases hl : listOf v s'.ref with
      | none =>
        rw [streamSide_ifp_of_none hl]
        exact hs.col (by rw [ColumnOf, hl])
      | some l =>
        rcases hk.2 with ⟨-, hkept⟩ | ⟨l', hl', el, hel, hname, p, hp, hsrc, heq⟩
        · rw [Kept, hs', hl] at hkept
          cases hkept
        · rw [hs', hl, Option.some.injEq] at hl'
          subst hl'
          obtain ⟨cr2, rfl⟩ := hnew p hp (hsrc.trans hs')
          obtain ⟨cr1, hse, -⟩ := eq_colref_of_isEquivalentSe heq
          have hlow := ((hv _ l hl).low el hel).1 (.colref cr1)
            (by rw [hse]; exact mem_singleton_self _)
          have hcol : ColumnOf v s' cr1.field cr.field := by
            rw [ColumnOf, hl]
            exact ⟨el, hel, hname, cr1, hse, rfl⟩
          rw [hs.col hcol, streamSide, hl]
          simp only [rowTuple, outputRow]
          rw [← hname, lookup_of_nodup _ (hv _ l hl).nodup hel, Option.getD_some, hse,
            ScalarExp.eval, sidesEnv_col ρ junk t hlow.1]
    · rw [hother]
  | ifaceParam ifp =>
    intro s' hs'
    rcases eq_or_eq_other s s' with rfl | rfl
    · have hnone : listOf v s'.ref = none := hs' ▸ hk.1
      rw [streamSide_ifp_of_none hnone, hs.ifp]
    · rw [hother]
  | _ => trivial

end Agreement

/-! ## Expressions and conjuncts over the rows of the selections -/

section Rows

variable {V : Type} {I : Interp V} {q : JoinEqHashQpn} {ftaLegal : Nat → Bool} {v : SelectVec}
  {ρ : Env V} {junk : V}

theorem all_eval_of_meansPr (hn : q.varName .left ≠ q.varName .right)
    (htwo : (fun s ↦ isProtocolSource s v) = q.prot) {prs prs' : List Predicate}
    (h : List.Forall₂ (fun pr pr' ↦ MeansPr ftaLegal I v pr' pr) prs prs')
    (hjoin : ∀ pr ∈ prs, ∀ x ∈ pr.leaves, JoinLeaf q x) {t t' : Side → Tuple V}
    (ha : ∀ pr ∈ prs, ∀ x, Known v pr.leaves
      (prPushed ftaLegal (fun s ↦ isProtocolSource s v) pr) x → Agrees I v ρ junk t t' x) :
    ((prs'.map (bindStreamPr q)).all fun pr ↦ pr.eval I (nodeEnv ρ junk q.varName t')) =
      prs.all fun pr ↦ pr.eval I (nodeEnv ρ junk q.varName t) := by
  induction h with
  | nil => rfl
  | @cons pr pr' prs prs' hpr _ ih =>
    rw [map_cons, all_cons, all_cons,
      ih (fun x hx ↦ hjoin x (mem_cons_of_mem _ hx)) fun x hx ↦
        ha x (mem_cons_of_mem _ hx),
      eval_bindStreamPr_of_means hn htwo (hjoin pr mem_cons_self) hpr
        fun x hx ↦ ha pr mem_cons_self x (hpr.1 x hx)]

theorem outputRow_of_itemOf (hn : q.varName .left ≠ q.varName .right)
    (htwo : (fun s ↦ isProtocolSource s v) = q.prot) {els els' : List SelectElement}
    (h : List.Forall₂ (ItemOf ftaLegal I v) els els')
    (hjoin : ∀ el ∈ els, ∀ x ∈ el.se.leaves, JoinLeaf q x) {t t' : Side → Tuple V}
    (ha : ∀ el ∈ els, ∀ x, Known v el.se.leaves
      (pushed ftaLegal (fun s ↦ isProtocolSource s v) el.se) x → Agrees I v ρ junk t t' x) :
    outputRow I (nodeEnv ρ junk q.varName t')
        (els'.map fun el ↦ { el with se := bindStreamSe q el.se }) =
      outputRow I (nodeEnv ρ junk q.varName t) els := by
  induction h with
  | nil => rfl
  | @cons el el' els els' hel _ ih =>
    rw [map_cons, outputRow_cons, outputRow_cons,
      ih (fun x hx ↦ hjoin x (mem_cons_of_mem _ hx)) fun x hx ↦
        ha x (mem_cons_of_mem _ hx),
      eval_bindStreamSe_of_means hn htwo (hjoin el mem_cons_self) hel.2
        fun x hx ↦ ha el mem_cons_self x (hel.2.1 x hx), hel.1]

/-- A conjunct over a source without a selection stays as it is. -/
theorem meansPr_self {h : Int} (hnone : listOf v h = none) {pr : Predicate}
    (hpr : ∀ x ∈ pr.leaves, LowLeaf h x) : MeansPr ftaLegal I v pr pr := by
  refine ⟨fun x hx ↦ ?_, fun ρ t junk ↦ Predicate.eval_congr pr fun x hx ↦ ?_⟩
  · have hlow := hpr x hx
    cases x with
    | colref cr =>
      have hcr : listOf v cr.tablevarRef = none := by rwa [show cr.tablevarRef = h from hlow]
      refine ⟨fun l hl ↦ ?_, .inl ⟨hx, hcr⟩⟩
      rw [hcr] at hl
      cases hl
    | ifaceParam ifp =>
      have hifp : listOf v ifp.tablevarRef = none := by rwa [show ifp.tablevarRef = h from hlow]
      exact ⟨hifp, .inl ⟨hx, hifp⟩⟩
    | literal lit => exact ⟨trivial, .inl ⟨hx, trivial⟩⟩
    | param name => exact ⟨trivial, .inl ⟨hx, trivial⟩⟩
    | _ => exact hlow.elim
  · have hlow := hpr x hx
    cases x with
    | colref cr =>
      simp only [ScalarExp.eval, hftaEnv, rowsOf, show cr.tablevarRef = h from hlow, hnone,
        Option.map_none]
    | ifaceParam ifp =>
      simp only [ScalarExp.eval, hftaEnv, rowsOf, show ifp.tablevarRef = h from hlow, hnone,
        Option.map_none]
    | literal lit => rfl
    | param name => rfl
    | _ => exact hlow.elim

end Rows

/-! ## Plans of a split -/

section PlanOf

variable {V : Type} {q : JoinEqHashQpn} {ftaLegal : Nat → Bool} {v : SelectVec}

/-- The prefilter is evaluated below. -/
def below (ftaLegal : Nat → Bool) (q : JoinEqHashQpn) (s : Side) (pr : Predicate) : Bool :=
  (q.fromClause s).isProtocol && checkFtaForbiddenPr ftaLegal pr

/-- The plan that a split with the select lists `v` makes. -/
structure PlanOf (ftaLegal : Nat → Bool) (q : JoinEqHashQpn) (v : SelectVec)
    (plan : Plan) : Prop where
  prot : (fun s ↦ isProtocolSource s v) = q.prot
  ok : VecOk ftaLegal (JoinLeaf q) v
  noChild : ∀ s, (q.fromClause s).isProtocol = false → plan.child s = none
  child : ∀ s, (q.fromClause s).isProtocol = true → ∃ c l, plan.child s = some c ∧
    listOf v s.ref = some l ∧ c.selectList = childList q s l ∧
    c.whereClause = ((q.prefilter s).filter (below ftaLegal q s)).map
      (bindColrefPr (q.varName s) 0 0) ∧
    (plan.stream.fromClause s).schemaName = c.nodeName ∧
    (c.paramTbl, c.definitions) = carried q.paramTbl q.definitions
  varName : plan.stream.varName = q.varName
  property : ∀ s, (plan.stream.fromClause s).property = (q.fromClause s).property
  selectList : ∃ els, plan.stream.selectList =
    (els.map fun el ↦ { el with se := bindStreamSe q el.se }) ∧ ∀ {V : Type} (I : Interp V),
      List.Forall₂ (ItemOf ftaLegal I v) q.selectList els
  prefilter : ∀ s, ∃ prs, plan.stream.prefilter s = prs.map (bindStreamPr q) ∧
    ∀ {V : Type} (I : Interp V), List.Forall₂ (fun pr pr' ↦ MeansPr ftaLegal I v pr' pr)
      ((q.prefilter s).filter fun pr ↦ !below ftaLegal q s pr) prs
  equalities : ∃ prs, plan.stream.hashEq ++ plan.stream.temporalEq = prs.map (bindStreamPr q) ∧
    ∀ {V : Type} (I : Interp V),
      List.Forall₂ (CompareOf ftaLegal I v) (q.hashEq ++ q.temporalEq) prs
  pairPreds : ∃ prs, plan.stream.pairPreds = prs.map (bindStreamPr q) ∧
    ∀ {V : Type} (I : Interp V),
      List.Forall₂ (fun pr pr' ↦ MeansPr ftaLegal I v pr' pr) q.pairPreds prs

theorem splitLeaf_of_joinLeaf {x : ScalarExp} (h : JoinLeaf q x) : SplitLeaf x ∧ JoinLeaf q x := by
  refine ⟨?_, h⟩
  cases x with
  | literal lit => trivial
  | param name => trivial
  | ifaceParam ifp =>
    obtain ⟨s, hs⟩ := h
    rw [SplitLeaf, hs]
    cases s <;> decide
  | colref cr =>
    obtain ⟨s, hs, -⟩ := h
    rw [SplitLeaf, hs]
    cases s <;> decide
  | _ => exact h.elim

theorem JoinEqHashQpn.Ok.leaf_of (hq : q.Ok) :
    (∀ el ∈ q.selectList, ∀ x ∈ el.se.leaves, JoinLeaf q x) ∧
      (∀ s, ∀ pr ∈ q.prefilter s, ∀ x ∈ pr.leaves, JoinLeaf q x) ∧
        ∀ pr ∈ q.pairPreds, ∀ x ∈ pr.leaves, JoinLeaf q x := by
  refine ⟨fun el hel x hx ↦ hq.leaf x ?_, fun s pr hpr x hx ↦ hq.leaf x ?_,
    fun pr hpr x hx ↦ hq.leaf x ?_⟩
  · exact mem_append_left _ (mem_append_left _ (mem_append_left _
      (mem_flatMap.mpr ⟨el, hel, hx⟩)))
  · cases s with
    | left => exact mem_append_left _ (mem_append_left _ (mem_append_right _
        (mem_flatMap.mpr ⟨pr, hpr, hx⟩)))
    | right =>
      exact mem_append_left _ (mem_append_right _ (mem_flatMap.mpr ⟨pr, hpr, hx⟩))
  · exact mem_append_right _ (mem_flatMap.mpr ⟨pr, hpr, hx⟩)

theorem splitItem_spec {I : Interp V} {e e' : ScalarExp} (he : ∀ x ∈ e.leaves, JoinLeaf q x)
    {v v' : SelectVec} (hv : VecOk ftaLegal (JoinLeaf q) v)
    (h : splitItem ftaLegal e v = some (e', v')) :
    Extends v v' ∧ VecOk ftaLegal (JoinLeaf q) v' ∧ Means ftaLegal I v' e' e := by
  simp only [splitItem, Option.bind_eq_bind, Option.bind_eq_some_iff, Prod.exists] at h
  obtain ⟨s, v1, h1, h2⟩ := h
  have hleaf : ∀ x ∈ e.leaves, SplitLeaf x ∧ JoinLeaf q x :=
    fun x hx ↦ splitLeaf_of_joinLeaf (he x hx)
  obtain ⟨hext1, hok1, hs⟩ := splitFtavecSe_spec (I := I) e hleaf hv h1
  split at h2
  · -- the expression stays in the high level
    rename_i hc
    cases h2
    refine ⟨hext1, hok1, hs.means ?_⟩
    rcases Bool.or_eq_true_iff.mp hc with hc | hc
    · exact Or.inl hc
    · exact Or.inr (by simpa using hc)
  · -- the low level computes it
    rename_i hc
    rw [Bool.or_eq_true, not_or, Bool.not_eq_true, Bool.not_eq_true', Bool.not_eq_false] at hc
    obtain ⟨hf, hprot⟩ := hc
    have hmix := ne_mixed_of_isProtocolSource hprot
    have hse := hs.whole hf hmix
    rw [hse] at h2
    rw [hs.source] at hprot hmix h2
    have hlow := low_of_seForbidden_eq_false ftaLegal hleaf (hs.forbidden.symm.trans hf) hmix
    have hw : isWhole ftaLegal (fun s ↦ isProtocolSource s v1) e = true := by
      rw [isWhole, ← hs.forbidden, hf, hprot]
      rfl
    obtain ⟨hext2, hok2, hm⟩ := makeFtaSeRef_spec I hok1 hlow rfl hw h2
    exact ⟨hext1.trans hext2, hok2, hm⟩

theorem isSome_splitItem_iff (e : ScalarExp) (he : ∀ x ∈ e.leaves, JoinLeaf q x) {v : SelectVec}
    {prot : Int → Bool} (hprot : (fun s ↦ isProtocolSource s v) = prot)
    (hv : VecOk ftaLegal (JoinLeaf q) v) : (splitItem ftaLegal e v).isSome = true ↔
      seSplittable ftaLegal prot e = true := by
  have hleaf : ∀ x ∈ e.leaves, SplitLeaf x ∧ JoinLeaf q x :=
    fun x hx ↦ splitLeaf_of_joinLeaf (he x hx)
  rw [← hprot, ← isSome_splitFtavecSe_iff e hleaf hv, splitItem]
  cases h1 : splitFtavecSe ftaLegal e v with
  | none => exact Iff.rfl
  | some p =>
    obtain ⟨s, v1⟩ := p
    refine iff_of_true ?_ rfl
    simp only [Option.bind_eq_bind, Option.bind_some]
    split
    · rfl
    · rename_i hc
      rw [Bool.or_eq_true, not_or, Bool.not_eq_true, Bool.not_eq_true', Bool.not_eq_false] at hc
      obtain ⟨l, hl⟩ := Option.isSome_iff_exists.mp hc.2
      rw [makeFtaSeRef, hl]
      rfl

/-- The select lists before the split. -/
def initialVec (q : JoinEqHashQpn) : SelectVec :=
  [if (q.fromClause .left).isProtocol then some [] else none,
    if (q.fromClause .right).isProtocol then some [] else none]

theorem listOf_initialVec (q : JoinEqHashQpn) (h : Int) :
    listOf (initialVec q) h = if q.prot h then some [] else none := by
  rw [listOf]
  split
  · rename_i h0
    obtain ⟨n, rfl⟩ := Int.eq_ofNat_of_zero_le h0
    rcases n with _ | _ | n
    · simp [initialVec, JoinEqHashQpn.prot]
    · simp [initialVec, JoinEqHashQpn.prot]
    · have h1 : (((n + 2 : Nat) : Int) == 0) = false := by rw [beq_eq_false_iff_ne]; omega
      have h2 : (((n + 2 : Nat) : Int) == 1) = false := by rw [beq_eq_false_iff_ne]; omega
      rw [JoinEqHashQpn.prot, h1, h2]
      rfl
  · rename_i h0
    have h1 : (h == 0) = false := by rw [beq_eq_false_iff_ne]; omega
    have h2 : (h == 1) = false := by rw [beq_eq_false_iff_ne]; omega
    rw [JoinEqHashQpn.prot, h1, h2]
    rfl

theorem prot_initialVec (q : JoinEqHashQpn) :
    (fun s ↦ isProtocolSource s (initialVec q)) = q.prot := by
  funext h
  rw [isProtocolSource, listOf_initialVec]
  cases q.prot h <;> rfl

theorem vecOk_initialVec (q : JoinEqHashQpn) : VecOk ftaLegal (JoinLeaf q) (initialVec q) := by
  intro h l hl
  rw [listOf_initialVec] at hl
  split at hl
  · cases hl
    exact ⟨nodup_nil, .nil, fun el hel ↦ by cases hel⟩
  · cases hl

theorem isProtocol_eq (hprot : (fun s ↦ isProtocolSource s v) = q.prot) (s : Side) :
    (q.fromClause s).isProtocol = (listOf v s.ref).isSome :=
  (prot_ref q s).symm.trans (congrFun hprot s.ref).symm

theorem listOf_eq_none (hprot : (fun s ↦ isProtocolSource s v) = q.prot) {s : Side}
    (h : (q.fromClause s).isProtocol = false) : listOf v s.ref = none := by
  rw [isProtocol_eq hprot] at h
  exact Option.not_isSome_iff_eq_none.mp (by rw [h]; decide)

theorem splitPrefilter_spec {I : Interp V} (s : Side) {prs pre fta : List Predicate}
    (hlow : ∀ pr ∈ prs, ∀ x ∈ pr.leaves, LowLeaf s.ref x)
    (hjoin : ∀ pr ∈ prs, ∀ x ∈ pr.leaves, JoinLeaf q x)
    {v v' : SelectVec} (hprot : (fun s ↦ isProtocolSource s v) = q.prot)
    (hv : VecOk ftaLegal (JoinLeaf q) v)
    (h : splitPrefilter ftaLegal (q.fromClause s).isProtocol prs v = some (pre, fta, v')) :
    Extends v v' ∧ VecOk ftaLegal (JoinLeaf q) v' ∧ fta = prs.filter (below ftaLegal q s) ∧
      List.Forall₂ (fun pr pr' ↦ MeansPr ftaLegal I v' pr' pr)
        (prs.filter fun pr ↦ !below ftaLegal q s pr) pre := by
  rw [splitPrefilter] at h
  cases hp : (q.fromClause s).isProtocol with
  | true =>
    rw [hp, if_pos rfl] at h
    have hbelow : below ftaLegal q s = checkFtaForbiddenPr ftaLegal := by
      funext pr
      rw [below, hp, Bool.true_and]
    rw [hbelow]
    exact splitWhere_spec (fun pr hpr x hx ↦ splitLeaf_of_joinLeaf (hjoin pr hpr x hx)) hv h
  | false =>
    rw [hp, if_neg (by decide)] at h
    cases h
    have hbelow : below ftaLegal q s = fun _ ↦ false := by
      funext pr
      rw [below, hp, Bool.false_and]
    have hnone := listOf_eq_none hprot hp
    rw [hbelow, filter_false]
    refine ⟨.refl _, hv, rfl, ?_⟩
    have hself : List.Forall₂ (fun pr pr' ↦ MeansPr ftaLegal I v pr' pr) prs prs :=
      forall₂_same.mpr fun pr hpr ↦ meansPr_self hnone (hlow pr hpr)
    simpa using hself

theorem childOf_eq_none {s : Side} (h : (q.fromClause s).isProtocol = false)
    (l : List SelectElement) (w : List Predicate) : childOf q s l w = none := by
  rw [childOf, h, if_neg (by decide)]

theorem exists_childOf {s : Side} (h : (q.fromClause s).isProtocol = true) (l : List SelectElement)
    (w : List Predicate) : ∃ c, childOf q s l w = some c ∧ c.selectList = childList q s l ∧
      c.whereClause = w.map (bindColrefPr (q.varName s) 0 0) ∧
      (streamTablevar q s).schemaName = c.nodeName ∧
      (c.paramTbl, c.definitions) = carried q.paramTbl q.definitions := by
  refine ⟨_, by rw [childOf, h, if_pos rfl], rfl, rfl, ?_, rfl⟩
  rw [streamTablevar, h, if_pos rfl]
  rfl

theorem streamTablevar_varName (s : Side) : (streamTablevar q s).varName = q.varName s := by
  rw [streamTablevar]
  split <;> rfl

theorem streamTablevar_property (s : Side) : (streamTablevar q s).property =
    (q.fromClause s).property := by
  rw [streamTablevar]
  split <;> rfl

/-- A join that reads the table variables of the query, bound. -/
theorem bindStream_eq {j : JoinEqHashQpn} (hj : j.fromClause = streamTablevar q) : bindStream j =
    { j with
      selectList := j.selectList.map fun el ↦ { el with se := bindStreamSe q el.se }
      prefilter := fun s ↦ (j.prefilter s).map (bindStreamPr q)
      temporalEq := j.temporalEq.map (bindStreamPr q)
      hashEq := j.hashEq.map (bindStreamPr q)
      postfilter := j.postfilter.map (bindStreamPr q) } := by
  have hname : ∀ s, (j.fromClause s).varName = q.varName s := by
    intro s
    rw [hj, streamTablevar_varName]
  have hpr : bindStreamPr q =
      bindColrefPr (q.varName .right) 1 1 ∘ bindColrefPr (q.varName .left) 0 0 := rfl
  simp only [bindStream, bindStreamOnce, hname, Side.ref, map_map, hpr]
  rfl

/-- **What a split makes.** -/
theorem planOf_of_split (hq : q.Ok) (hs : ¬ StreamOnly q) {plan : Plan}
    (h : splitNodeForFta ftaLegal q = some plan) : ∃ v, PlanOf ftaLegal q v plan := by
  have hcond : (!(q.fromClause .left).isProtocol && !(q.fromClause .right).isProtocol) = false := by
    rw [← Bool.not_eq_true]
    refine fun hc ↦ hs fun s ↦ ?_
    rw [Bool.and_eq_true, Bool.not_eq_true', Bool.not_eq_true'] at hc
    cases s
    · exact hc.1
    · exact hc.2
  rw [splitNodeForFta, hcond, if_neg (by decide)] at h
  simp only [Option.bind_eq_bind, Option.bind_eq_some_iff, Prod.exists, Option.some.injEq] at h
  obtain ⟨pre0, where0, v1, h1, pre1, where1, v2, h2, te, v3, h3, he, v4, h4, po, v5,
    h5, els, v6, h6, rfl⟩ := h
  obtain ⟨hsel, hpre, hpair⟩ := hq.leaf_of
  have hte : ∀ pr ∈ q.temporalEq, ∀ x ∈ pr.leaves, SplitLeaf x ∧ JoinLeaf q x := fun pr hpr x hx ↦
    splitLeaf_of_joinLeaf (hpair pr (mem_append_left _ (mem_append_left _ hpr)) x hx)
  have hhe : ∀ pr ∈ q.hashEq, ∀ x ∈ pr.leaves, SplitLeaf x ∧ JoinLeaf q x := fun pr hpr x hx ↦
    splitLeaf_of_joinLeaf (hpair pr (mem_append_left _ (mem_append_right _ hpr)) x hx)
  have hpo : ∀ pr ∈ q.postfilter, ∀ x ∈ pr.leaves, SplitLeaf x ∧ JoinLeaf q x := fun pr hpr x hx ↦
    splitLeaf_of_joinLeaf (hpair pr (mem_append_right _ hpr) x hx)
  have hcompare : ∀ pr ∈ q.hashEq ++ q.temporalEq, ∃ l op r, pr = .compare l op r := fun pr hpr ↦ by
    obtain ⟨l, op, r, hprl, -⟩ := hq.eq pr hpr
    exact ⟨l, op, r, hprl⟩
  have hprot0 := prot_initialVec q
  have hok0 : VecOk ftaLegal (JoinLeaf q) (initialVec q) := vecOk_initialVec q
  -- the select lists only grow, from one clause to the next
  obtain ⟨hx1, hok1, hw0, -⟩ := splitPrefilter_spec (I := unitInterp) .left (hq.prefilter .left)
    (hpre .left) hprot0 hok0 h1
  have hprot1 := (isProtocolSource_congr hx1).trans hprot0
  obtain ⟨hx2, hok2, hw1, -⟩ := splitPrefilter_spec (I := unitInterp) .right (hq.prefilter .right)
    (hpre .right) hprot1 hok1 h2
  obtain ⟨hx3, hok3, -⟩ := splitFtavecPrs_spec (I := unitInterp) hte hok2 h3
  obtain ⟨hx4, hok4, -⟩ := splitFtavecPrs_spec (I := unitInterp) hhe hok3 h4
  obtain ⟨hx5, hok5, -⟩ := splitFtavecPrs_spec (I := unitInterp) hpo hok4 h5
  obtain ⟨hx6, hok6, -⟩ := splitSelectList_spec (I := unitInterp)
    (fun el hel ↦ splitItem_spec (hsel el hel)) hok5 h6
  have hx56 := hx5.trans hx6
  have hx46 := hx4.trans hx56
  have hx36 := hx3.trans hx46
  have hx26 := hx2.trans hx36
  have hprot6 : (fun s ↦ isProtocolSource s v6) = q.prot :=
    (isProtocolSource_congr hx26).trans hprot1
  have hlist : ∀ s, (q.fromClause s).isProtocol = true → ∃ l, listOf v6 s.ref = some l := fun s hp ↦
    Option.isSome_iff_exists.mp ((isProtocol_eq hprot6 s).symm.trans hp)
  refine ⟨v6, ?_⟩
  rw [bindStream_eq (q := q) rfl]
  refine
    { prot := hprot6
      ok := hok6
      noChild := fun s hp ↦ childOf_eq_none hp _ _
      child := fun s hp ↦ ?_
      varName := funext fun s ↦ streamTablevar_varName s
      property := streamTablevar_property
      selectList := ⟨els, rfl, fun I ↦
        (splitSelectList_spec (fun el hel ↦ splitItem_spec (hsel el hel)) hok5 h6).2.2⟩
      prefilter := fun s ↦ ?_
      equalities := ⟨he ++ te, by rw [map_append], fun I ↦ ?_⟩
      pairPreds := ⟨te ++ he ++ po, by simp [JoinEqHashQpn.pairPreds], fun I ↦ ?_⟩ }
  · obtain ⟨l, hl⟩ := hlist s hp
    cases s with
    | left =>
      obtain ⟨c, hc, hcl, hcw, hcn, hcp⟩ :=
        exists_childOf hp ((listOf v6 Side.left.ref).getD []) where0
      exact ⟨c, l, hc, hl, by rw [hcl, hl, Option.getD_some], by rw [hcw, hw0], hcn, hcp⟩
    | right =>
      obtain ⟨c, hc, hcl, hcw, hcn, hcp⟩ :=
        exists_childOf hp ((listOf v6 Side.right.ref).getD []) where1
      exact ⟨c, l, hc, hl, by rw [hcl, hl, Option.getD_some], by rw [hcw, hw1], hcn, hcp⟩
  · cases s with
    | left =>
      exact ⟨pre0, rfl, fun I ↦ (splitPrefilter_spec .left (hq.prefilter .left) (hpre .left) hprot0
        hok0 h1).2.2.2.imp fun _ _ hm ↦ hm.mono (hx2.trans hx36)⟩
    | right =>
      exact ⟨pre1, rfl, fun I ↦ (splitPrefilter_spec .right (hq.prefilter .right) (hpre .right)
        hprot1 hok1 h2).2.2.2.imp fun _ _ hm ↦ hm.mono hx36⟩
  · refine rel_append ?_ ?_
    · exact (splitFtavecPrs_compareOf hhe
        (fun pr hpr ↦ hcompare pr (mem_append_left _ hpr)) hok3 h4).imp fun _ _
          hm ↦ hm.mono hx56
    · exact (splitFtavecPrs_compareOf hte
        (fun pr hpr ↦ hcompare pr (mem_append_right _ hpr)) hok2 h3).imp fun _ _
          hm ↦ hm.mono hx46
  · refine rel_append (rel_append ?_ ?_) ?_
    · exact (splitFtavecPrs_spec hte hok2 h3).2.2.imp fun _ _ hm ↦ hm.mono hx46
    · exact (splitFtavecPrs_spec hhe hok3 h4).2.2.imp fun _ _ hm ↦ hm.mono hx56
    · exact (splitFtavecPrs_spec hpo hok4 h5).2.2.imp fun _ _ hm ↦ hm.mono hx6

end PlanOf

/-! ## The rows of the plan -/

section PlanRows

variable {V : Type} {I : Interp V} {q : JoinEqHashQpn} {ftaLegal : Nat → Bool} {v : SelectVec}
  {plan : Plan} {ρ : Env V} {junk : V} {d : Defaults V}

theorem streamTuple_of_none {s : Side} (h : listOf v s.ref = none) (t : Tuple V) :
    streamTuple I q v ρ junk s t = t := by
  rw [streamTuple, h]

theorem both_streamTuple (hv : VecOk ftaLegal (JoinLeaf q) v) (a b : Tuple V) :
    both .left (streamTuple I q v ρ junk .left a) (streamTuple I q v ρ junk .right b) =
      streamSide I v ρ junk (both .left a b) := by
  funext s
  rw [← streamTuple_eq hv]
  cases s <;> rfl

/-- The rows of pairs. -/
theorem PlanOf.pairRow_eq (hp : PlanOf ftaLegal q v plan) (hq : q.Ok) (a b : Tuple V) :
    plan.stream.pairRow I ρ junk (streamTuple I q v ρ junk .left a)
      (streamTuple I q v ρ junk .right b) = q.pairRow I ρ junk a b := by
  obtain ⟨prs, hprs, hmeans⟩ := hp.pairPreds
  obtain ⟨els, hels, hitems⟩ := hp.selectList
  obtain ⟨hsel, -, hpair⟩ := hq.leaf_of
  have ha := agrees_streamSide (I := I) (v := v) ρ junk (both .left a b)
  rw [JoinEqHashQpn.pairRow, JoinEqHashQpn.pairRow, hp.varName, both_streamTuple hp.ok, hprs, hels,
    all_eval_of_meansPr hq.names hp.prot (hmeans I) hpair fun _ _ x _ ↦ ha x,
    outputRow_of_itemOf hq.names hp.prot (hitems I) hsel fun _ _ x _ ↦ ha x]

theorem other_other (s : Side) : s.other.other = s := by cases s <;> rfl

theorem emptyOf_bindColrefSe (varName : String) (cr : Colref) :
    d.emptyOf (bindColrefSe varName 0 0 (.colref cr)) = d.col cr.tablevarRef cr.field := by
  rw [bindColrefSe, ScalarExp.mapLeaves, bindLeaf]
  · split
    · rename_i h
      rw [Defaults.emptyOf, h]
    · rfl
  all_goals simp

/-- A column that equals nothing is empty in both. -/
theorem PlanOf.dflt_eq (hp : PlanOf ftaLegal q v plan) {o : Side} {f f' : String}
    (hcol : ColumnOf v o f f') : plan.dflt junk d o f' = d.col o.ref f := by
  rw [Plan.dflt]
  cases hprot : (q.fromClause o).isProtocol with
  | false =>
    have hnone := listOf_eq_none hp.prot hprot
    rw [ColumnOf, hnone] at hcol
    rw [hp.noChild o hprot, show f = f' from hcol]
  | true =>
    obtain ⟨c, l, hc, hl, hcl, -⟩ := hp.child o hprot
    rw [ColumnOf, hl] at hcol
    obtain ⟨el, hel, rfl, cr, hse, rfl⟩ := hcol
    have hlow := ((hp.ok _ l hl).low el hel).1 (.colref cr)
      (by rw [hse]; exact mem_singleton_self _)
    rw [hc]
    simp only [hcl]
    rw [find?_childList (hp.ok _ l hl).nodup hel, Option.map_some, Option.getD_some, hse,
      emptyOf_bindColrefSe, show cr.tablevarRef = o.ref from hlow.1]

theorem PlanOf.equivOf_rel (hp : PlanOf ftaLegal q v plan) (hq : q.Ok) {o : Side} {f f' : String}
    (hcol : ColumnOf v o f f') :
    Option.Rel (EquivOf ftaLegal I q v o) (q.equivOf o f) (plan.stream.equivOf o f') := by
  obtain ⟨prs, hprs, hcompare⟩ := hp.equalities
  rw [JoinEqHashQpn.equivOf, JoinEqHashQpn.equivOf, hprs, ← map_reverse, findSome?_map]
  refine rel_findSome? (forall₂_reverse_iff.mpr (hcompare I)) fun pr hpr pr' h ↦ ?_
  exact equivIn_of_compareOf hq hp.ok hcol (mem_reverse.mp hpr) h

/-- **Empty tuples** have the same columns in the join as in the query. -/
theorem PlanOf.sameColumns (hp : PlanOf ftaLegal q v plan) (hq : q.Ok) (I : Interp V) (ρ : Env V)
    (junk : V) (d : Defaults V) (o : Side) (t : Tuple V) :
    SameColumns v o (q.padTuple I ρ junk (fun s f ↦ d.col s.ref f) o t)
      (plan.stream.padTuple I ρ junk (plan.dflt junk d) o (streamTuple I q v ρ junk o.other t))
        where
  ifp := rfl
  col := by
    intro f f' hcol
    have hrel := hp.equivOf_rel (I := I) hq hcol
    rw [JoinEqHashQpn.padTuple, JoinEqHashQpn.padTuple, hp.varName]
    simp only
    generalize q.equivOf o f = y at hrel ⊢
    generalize plan.stream.equivOf o f' = e at hrel ⊢
    cases hrel with
    | none => exact hp.dflt_eq hcol
    | some h =>
      obtain ⟨y', rfl, hmeans, hy⟩ := h
      refine eval_bindStreamSe_of_means hq.names hp.prot (fun x hx ↦ (hy x hx).2)
        hmeans fun x hx ↦ ?_
      refine agrees_of_side (s := o.other) (fun z hz ↦ (hy z hz).1)
        (fun p hpp z hz ↦ (hy z (leaves_subset_of_mem_pushed _ hpp hz)).1) (hmeans.1 x hx) ?_
      rw [both_other, ← streamTuple_eq hp.ok, both_other]

/-- The rows of tuples that match nothing. -/
theorem PlanOf.padRow_eq (hp : PlanOf ftaLegal q v plan) (hq : q.Ok) (hpad : PadStable ftaLegal q)
    (s : Side) (t : Tuple V) :
    plan.stream.padRow I ρ junk (plan.dflt junk d) s (streamTuple I q v ρ junk s t) =
      q.padRow I ρ junk (fun s f ↦ d.col s.ref f) s t := by
  rw [JoinEqHashQpn.padRow, JoinEqHashQpn.padRow, hp.property]
  cases hprop : (q.fromClause s).property with
  | false => rfl
  | true =>
    obtain ⟨els, hels, hitems⟩ := hp.selectList
    have hsame := hp.sameColumns hq I ρ junk d s.other t
    rw [other_other] at hsame
    rw [if_pos rfl, if_pos rfl, hels, hp.varName]
    refine congrArg some (outputRow_of_itemOf hq.names hp.prot (hitems I) hq.leaf_of.1 fun el
      hel x hk ↦ ?_)
    refine agrees_of_sameColumns (s := s.other) hp.ok (fun p hpp hsrc ↦ ?_) hk ?_ ?_
    · rw [hp.prot] at hpp
      exact hpad s.other (by rwa [other_other]) el hel p hpp hsrc
    · rw [both_other, both_other]
      exact hsame
    · rw [other_other, both_self, ← streamTuple_eq hp.ok, both_self]

/-- The tuples of a source that its selection and the join admit. -/
theorem PlanOf.admitted_eq (hp : PlanOf ftaLegal q v plan) (hq : q.Ok) (s : Side)
    (ts : List (Tuple V)) : plan.stream.admitted I ρ junk s (plan.input I ρ junk q s ts) =
      (q.admitted I ρ junk s ts).map (streamTuple I q v ρ junk s) := by
  obtain ⟨-, hpre, -⟩ := hq.leaf_of
  have hinput : plan.input I ρ junk q s ts =
      (ts.filter fun t ↦ ((q.prefilter s).filter (below ftaLegal q s)).all fun pr ↦
        pr.eval I (nodeEnv ρ junk q.varName (both s t (junkTuple junk)))).map
          (streamTuple I q v ρ junk s) := by
    rw [Plan.input]
    cases hprot : (q.fromClause s).isProtocol with
    | false =>
      have hnone := listOf_eq_none hp.prot hprot
      have hbelow : below ftaLegal q s = fun _ ↦ false := by
        funext pr
        rw [below, hprot, Bool.false_and]
      rw [hp.noChild s hprot, hbelow, map_congr_left fun t _ ↦ streamTuple_of_none hnone t]
      simp
    | true =>
      obtain ⟨c, l, hc, hl, hcl, hcw, -⟩ := hp.child s hprot
      rw [hc]
      simp only [SpxQpn.run, hcl, hcw, filter_map, map_map]
      have hrow : streamTuple I q v ρ junk s =
          rowTuple junk ∘ (fun ρ ↦ outputRow I ρ (childList q s l)) ∘ childEnv ρ junk
            (q.varName s) := by
        funext t
        rw [streamTuple, hl]
        rfl
      rw [hrow]
      congr 1
      refine filter_congr fun t _ ↦ ?_
      rw [Function.comp_apply, all_map, Bool.eq_iff_iff, all_eq_true, all_eq_true]
      refine forall₂_congr fun pr hpr ↦ ?_
      have hmem := (mem_filter.mp hpr).1
      have heval := eval_childEnv_pr (I := I) hq.names
        (fun x hx ↦ ⟨hq.prefilter s pr hmem x hx, hpre s pr hmem x hx⟩) ρ junk
        (both s t (junkTuple junk))
      rw [both_self] at heval
      rw [Function.comp_apply, heval]
  rw [hinput, JoinEqHashQpn.admitted, JoinEqHashQpn.admitted, filter_map,
    filter_filter, hp.varName]
  refine congrArg _ (filter_congr fun t _ ↦ ?_)
  obtain ⟨prs, hprs, hmeans⟩ := hp.prefilter s
  rw [Function.comp_apply, hprs, all_eval_of_meansPr (t := both s t (junkTuple junk)) hq.names
    hp.prot (hmeans I) (fun pr hpr ↦ hpre s pr (mem_filter.mp hpr).1), Bool.and_comm,
      all_filter_and_all_filter_not]
  intro pr hpr x hk
  have hlow := hq.prefilter s pr (mem_filter.mp hpr).1
  refine agrees_of_side (s := s) hlow
    (fun p hpp z hz ↦ hlow z (leaves_subset_of_mem_prPushed hpp hz)) hk ?_
  rw [both_self, ← streamTuple_eq hp.ok, both_self]

/-- **The rows of the plan are those of the join.** -/
theorem PlanOf.run_eq (hp : PlanOf ftaLegal q v plan) (hq : q.Ok) (hpad : PadStable ftaLegal q)
    (ts : Side → List (Tuple V)) :
    plan.run I ρ junk q d ts = q.run I ρ junk (fun s f ↦ d.col s.ref f) ts := by
  rw [Plan.run, JoinEqHashQpn.run, hp.admitted_eq hq, hp.admitted_eq hq, OuterJoin.join_map,
    JoinEqHashQpn.run]
  congr 1
  · funext a b
    exact hp.pairRow_eq hq a b
  · funext a
    exact hp.padRow_eq hq hpad .left a
  · funext b
    exact hp.padRow_eq hq hpad .right b

end PlanRows

/-! ## Binding and legality -/

section Legal

variable {ftaLegal : Nat → Bool}

theorem checkFtaForbiddenSe_bindLeaf {x : ScalarExp} (hx : x.isLeaf = true) (varName : String)
    (r r' : Int) : checkFtaForbiddenSe ftaLegal (bindLeaf varName r r' x) = checkFtaForbiddenSe
      ftaLegal x := by
  cases x with
  | ifaceParam ifp =>
    rw [bindLeaf]
    split <;> rfl
  | colref cr =>
    rw [bindLeaf]
    split <;> rfl
  | gbref cr g =>
    rw [bindLeaf]
    split <;> rfl
  | unaryOp op l => cases hx
  | binaryOp op l r => cases hx
  | func op os i a =>
    cases a with
    | none => cases hx
    | some a => rfl
  | _ => rfl

theorem checkFtaForbiddenSeList_congr {f : ScalarExp → ScalarExp} {os : List ScalarExp}
    (h : ∀ o ∈ os, checkFtaForbiddenSe ftaLegal (f o) = checkFtaForbiddenSe ftaLegal o) :
    checkFtaForbiddenSeList ftaLegal (os.map f) = checkFtaForbiddenSeList ftaLegal os := by
  induction os with
  | nil => rfl
  | cons o os ih =>
    rw [map_cons, checkFtaForbiddenSeList, checkFtaForbiddenSeList, h o mem_cons_self,
      ih fun x hx ↦ h x (mem_cons_of_mem _ hx)]

/-- Binding does not change what the low level may compute. -/
theorem checkFtaForbiddenSe_bindColrefSe (varName : String) (r r' : Int) (e : ScalarExp) :
    checkFtaForbiddenSe ftaLegal (bindColrefSe varName r r' e) = checkFtaForbiddenSe
      ftaLegal e := by
  rw [bindColrefSe]
  induction e with
  | unaryOp op l ih => rw [ScalarExp.mapLeaves, checkFtaForbiddenSe, checkFtaForbiddenSe, ih]
  | binaryOp op l r ihl ihr =>
    rw [ScalarExp.mapLeaves, checkFtaForbiddenSe, checkFtaForbiddenSe, ihl, ihr]
  | func op os i a ih =>
    cases a with
    | none =>
      rw [ScalarExp.mapLeaves, checkFtaForbiddenSe, checkFtaForbiddenSe,
        ScalarExp.mapLeavesList_eq_map, checkFtaForbiddenSeList_congr ih]
    | some a => rfl
  | _ => exact checkFtaForbiddenSe_bindLeaf rfl _ _ _

theorem checkFtaForbiddenPr_bindColrefPr (varName : String) (r r' : Int) (p : Predicate) :
    checkFtaForbiddenPr ftaLegal (bindColrefPr varName r r' p) = checkFtaForbiddenPr
      ftaLegal p := by
  rw [bindColrefPr]
  induction p with
  | compare l op r =>
    rw [Predicate.mapLeaves, checkFtaForbiddenPr, checkFtaForbiddenPr, ← bindColrefSe,
      checkFtaForbiddenSe_bindColrefSe, checkFtaForbiddenSe_bindColrefSe]
  | isIn l lits =>
    rw [Predicate.mapLeaves, checkFtaForbiddenPr, checkFtaForbiddenPr, ← bindColrefSe,
      checkFtaForbiddenSe_bindColrefSe]
  | unaryOp op l ih => rw [Predicate.mapLeaves, checkFtaForbiddenPr, checkFtaForbiddenPr, ih]
  | binaryOp op l r ihl ihr =>
    rw [Predicate.mapLeaves, checkFtaForbiddenPr, checkFtaForbiddenPr, ihl, ihr]
  | func op os i =>
    rw [Predicate.mapLeaves, checkFtaForbiddenPr, checkFtaForbiddenPr, ← bindColrefSe,
      checkFtaForbiddenSeList_congr fun o _ ↦ checkFtaForbiddenSe_bindColrefSe _ _ _ o]

end Legal

/-! ## When the split preserves the join -/

section Main

variable {ftaLegal : Nat → Bool} {q : JoinEqHashQpn} {v : SelectVec} {plan : Plan}

theorem ownLeaf_bindLeaf {s : Side} {x : ScalarExp} (hx : LowLeaf s.ref x) (hj : JoinLeaf q x) :
    OwnLeaf q s (bindLeaf (q.varName s) 0 0 x) := by
  cases x with
  | literal lit => trivial
  | param name => trivial
  | ifaceParam ifp =>
    rw [bindLeaf]
    split
    · rename_i h
      rw [OwnLeaf, ← show ifp.tablevarRef = s.ref from hx, h]
    · exact hx
  | colref cr =>
    obtain ⟨s', hs', hname, -⟩ := hj
    obtain rfl : s = s' := ref_injective ((show cr.tablevarRef = s.ref from hx).symm.trans hs')
    rw [bindLeaf]
    split
    · rfl
    · exact hname
  | _ => exact hx.elim

/-- A leaf that is known in the join is provided to it. -/
theorem PlanOf.streamLeaf (hp : PlanOf ftaLegal q v plan) {old new : List ScalarExp}
    (hold : ∀ x ∈ old, JoinLeaf q x) {x : ScalarExp} (hk : Known v old new x) :
    StreamLeaf q plan (bindLeaf (q.varName .right) 1 1 (bindLeaf (q.varName .left) 0 0 x)) := by
  cases x with
  | literal lit => trivial
  | param name => trivial
  | ifaceParam ifp =>
    obtain ⟨s, hs, hnone⟩ := exists_ref_of_known_ifp hold hk
    have hprot : (q.fromClause s).isProtocol = false := by
      rw [isProtocol_eq hp.prot, hnone]
      rfl
    have hbind : bindLeaf (q.varName .right)
        1 1 (bindLeaf (q.varName .left) 0 0 (.ifaceParam ifp)) = .ifaceParam ifp := by
      obtain ⟨pname, ref⟩ := ifp
      simp only at hs
      subst hs
      cases s <;> rfl
    rw [hbind]
    exact ⟨s, hs, hp.noChild s hprot⟩
  | colref cr =>
    obtain ⟨s, hs⟩ := exists_ref_of_known hp.prot hold hk
    have hbind : bindLeaf (q.varName .right) 1 1 (bindLeaf (q.varName .left) 0 0 (.colref cr)) =
        .colref { cr with tableName := q.varName s } := by
      cases s <;> simp [bindLeaf, hs, Side.ref]
    rw [hbind]
    refine ⟨s, hs, rfl, fun c hc ↦ ?_⟩
    have hprot : (q.fromClause s).isProtocol = true := by
      by_contra hprot
      rw [hp.noChild s (by simpa using hprot)] at hc
      cases hc
    obtain ⟨c', l, hc', hl, hcl, -⟩ := hp.child s hprot
    obtain rfl : c = c' := Option.some.inj (hc.symm.trans hc')
    rw [hcl, map_name_childList]
    exact hk.1 l (hs ▸ hl)
  | _ =>
    rcases hk.2 with ⟨hx, -⟩ | hx
    · exact (hold _ hx).elim
    · exact hx.elim

theorem mem_leaves_bindStreamSe {e x : ScalarExp} (h : x ∈ (bindStreamSe q e).leaves) :
    ∃ y ∈ e.leaves, bindLeaf (q.varName .right) 1 1 (bindLeaf (q.varName .left) 0 0 y) = x := by
  rw [bindStreamSe, leaves_bindColrefSe, leaves_bindColrefSe, map_map] at h
  exact mem_map.mp h

theorem mem_leaves_bindStreamPr {p : Predicate} {x : ScalarExp}
    (h : x ∈ (bindStreamPr q p).leaves) : ∃ y ∈ p.leaves,
      bindLeaf (q.varName .right) 1 1 (bindLeaf (q.varName .left) 0 0 y) = x := by
  rw [bindStreamPr, leaves_bindColrefPr, leaves_bindColrefPr, map_map] at h
  exact mem_map.mp h

theorem PlanOf.streamLeaf_of_meansPr (hp : PlanOf ftaLegal q v plan) {prs prs' : List Predicate}
    (hjoin : ∀ pr ∈ prs, ∀ x ∈ pr.leaves, JoinLeaf q x)
    (h : List.Forall₂ (fun pr pr' ↦ MeansPr ftaLegal unitInterp v pr' pr) prs prs') {x : ScalarExp}
    (hx : x ∈ (prs'.map (bindStreamPr q)).flatMap Predicate.leaves) : StreamLeaf q plan x := by
  obtain ⟨pr, hpr, hx⟩ := mem_flatMap.mp hx
  obtain ⟨pr', hpr', rfl⟩ := mem_map.mp hpr
  obtain ⟨y, hy, rfl⟩ := mem_leaves_bindStreamPr hx
  refine hp.streamLeaf (fun z hz ↦ ?_) (known_of_meansPr h y (mem_flatMap.mpr ⟨pr', hpr', hy⟩))
  obtain ⟨pr2, hpr2, hz⟩ := mem_flatMap.mp hz
  exact hjoin pr2 hpr2 z hz

theorem PlanOf.streamLeaf_of_mem (hp : PlanOf ftaLegal q v plan) (hq : q.Ok) {x : ScalarExp}
    (hx : x ∈ plan.stream.leaves) : StreamLeaf q plan x := by
  obtain ⟨hsel, hpre, hpair⟩ := hq.leaf_of
  have hprefilter : ∀ s, x ∈ (plan.stream.prefilter s).flatMap Predicate.leaves →
    StreamLeaf q plan x := by
    intro s hx
    obtain ⟨prs, hprs, hmeans⟩ := hp.prefilter s
    rw [hprs] at hx
    exact hp.streamLeaf_of_meansPr (fun pr hpr ↦ hpre s pr (mem_filter.mp hpr).1)
      (hmeans unitInterp) hx
  rcases mem_append.mp hx with hx | hx
  · rcases mem_append.mp hx with hx | hx
    · rcases mem_append.mp hx with hx | hx
      · obtain ⟨els, hels, hitems⟩ := hp.selectList
        rw [hels] at hx
        obtain ⟨el, hel, hx⟩ := mem_flatMap.mp hx
        obtain ⟨el', hel', rfl⟩ := mem_map.mp hel
        obtain ⟨y, hy, rfl⟩ := mem_leaves_bindStreamSe hx
        refine hp.streamLeaf (fun z hz ↦ ?_)
          (known_of_itemOf (hitems unitInterp) y (mem_flatMap.mpr ⟨el', hel', hy⟩))
        obtain ⟨el2, hel2, hz⟩ := mem_flatMap.mp hz
        exact hsel el2 hel2 z hz
      · exact hprefilter .left hx
    · exact hprefilter .right hx
  · obtain ⟨prs, hprs, hmeans⟩ := hp.pairPreds
    rw [hprs] at hx
    exact hp.streamLeaf_of_meansPr hpair (hmeans unitInterp) hx

/-- **The plan of a split preserves the join**, if it carries the definitions and empty rows have
the right values. -/
theorem PlanOf.preserves (hp : PlanOf ftaLegal q v plan) (hq : q.Ok) (hc : CarriesDefinitions q)
    (hpad : PadStable ftaLegal q) : plan.Preserves ftaLegal q := by
  have hprot : ∀ s c, plan.child s = some c → (q.fromClause s).isProtocol = true := by
    intro s c hs
    by_contra h
    rw [hp.noChild s (by simpa using h)] at hs
    cases hs
  refine
    { legal := fun s c hs ↦ ?_
      own := fun s c hs x hx ↦ ?_
      provided := ⟨fun s c hs ↦ ?_, fun x hx ↦ hp.streamLeaf_of_mem hq hx⟩
      carries := fun s c hs ↦ ?_
      rows := fun I ρ junk d ts ↦ hp.run_eq hq hpad ts }
  all_goals obtain ⟨c', l, hs', hl, hcl, hcw, hcn, hcp⟩ := hp.child s (hprot s c hs)
  all_goals obtain rfl : c = c' := Option.some.inj (hs.symm.trans hs')
  · refine ⟨fun el hel ↦ ?_, fun pr hpr ↦ ?_⟩
    · rw [hcl] at hel
      obtain ⟨el', hel', rfl⟩ := mem_map.mp hel
      rw [checkFtaForbiddenSe_bindColrefSe]
      exact ((hp.ok _ l hl).low el' hel').2
    · rw [hcw] at hpr
      obtain ⟨pr', hpr', rfl⟩ := mem_map.mp hpr
      rw [checkFtaForbiddenPr_bindColrefPr]
      exact (Bool.and_eq_true_iff.mp (mem_filter.mp hpr').2).2
  · rw [SpxQpn.leaves, hcl, hcw] at hx
    rcases mem_append.mp hx with hx | hx
    · obtain ⟨el, hel, hx⟩ := mem_flatMap.mp hx
      obtain ⟨el', hel', rfl⟩ := mem_map.mp hel
      rw [leaves_bindColrefSe] at hx
      obtain ⟨y, hy, rfl⟩ := mem_map.mp hx
      have hlow := ((hp.ok _ l hl).low el' hel').1 y hy
      exact ownLeaf_bindLeaf hlow.1 hlow.2
    · obtain ⟨pr, hpr, hx⟩ := mem_flatMap.mp hx
      obtain ⟨pr', hpr', rfl⟩ := mem_map.mp hpr
      rw [leaves_bindColrefPr] at hx
      obtain ⟨y, hy, rfl⟩ := mem_map.mp hx
      have hmem := (mem_filter.mp hpr').1
      exact ownLeaf_bindLeaf (hq.prefilter s pr' hmem y hy) (hq.leaf_of.2.1 s pr' hmem y hy)
  · exact hcn
  · refine ⟨?_, (congrArg Prod.snd hcp).trans ((carried_snd_eq_iff q).mpr hc)⟩
    rw [carried_eq] at hcp
    exact (Prod.mk.inj hcp).1

/-- Streams are joined as they are. -/
theorem preserves_of_streamOnly (hq : q.Ok) : Plan.Preserves ftaLegal q ⟨fun _ ↦ none, q⟩ where
  legal s c hs := by cases hs
  own s c hs := by cases hs
  carries s c hs := by cases hs
  rows I ρ junk d ts := rfl
  provided := by
    refine ⟨fun s c hs ↦ (by cases hs), fun x hx ↦ ?_⟩
    have hj := hq.leaf x hx
    cases x with
    | literal lit => trivial
    | param name => trivial
    | ifaceParam ifp =>
      obtain ⟨s, hs⟩ := hj
      exact ⟨s, hs, rfl⟩
    | colref cr =>
      obtain ⟨s, hs, hname, -⟩ := hj
      exact ⟨s, hs, hname, fun c hc ↦ by cases hc⟩
    | _ => exact hj.elim

theorem isSome_bind_iff {α β : Type} {x : Option α} {f : α → Option β} {p r : Prop}
    (hx : x.isSome = true ↔ p) (hf : ∀ a, x = some a → ((f a).isSome = true ↔ r)) :
    (x.bind f).isSome = true ↔ p ∧ r := by
  cases x with
  | none => exact iff_of_false (by simp) fun h ↦ by simpa using hx.mpr h.1
  | some a =>
    rw [Option.bind_some, hf a rfl]
    exact (and_iff_right (hx.mp rfl)).symm

theorem isSome_splitPrefilter_iff (hq : q.Ok) (s : Side) {v : SelectVec}
    (hprot : (fun s ↦ isProtocolSource s v) = q.prot) (hv : VecOk ftaLegal (JoinLeaf q) v) :
    (splitPrefilter ftaLegal (q.fromClause s).isProtocol (q.prefilter s) v).isSome = true ↔
      ((q.fromClause s).isProtocol = true → ∀ pr ∈ q.prefilter s,
        checkFtaForbiddenPr ftaLegal pr = false → prSplittable ftaLegal q.prot pr = true) := by
  rw [splitPrefilter]
  cases hp : (q.fromClause s).isProtocol with
  | true =>
    rw [if_pos rfl, isSome_splitWhere_iff (q.prefilter s)
      (fun pr hpr x hx ↦ splitLeaf_of_joinLeaf (hq.leaf_of.2.1 s pr hpr x hx)) hprot hv]
    exact ⟨fun h _ ↦ h, fun h ↦ h rfl⟩
  | false => exact iff_of_true rfl fun h ↦ by cases h

/-- Clause by clause, in the order of the split. -/
theorem splittable_iff : Splittable ftaLegal q ↔
    ((q.fromClause .left).isProtocol = true → ∀ pr ∈ q.prefilter .left,
      checkFtaForbiddenPr ftaLegal pr = false → prSplittable ftaLegal q.prot pr = true) ∧
    ((q.fromClause .right).isProtocol = true → ∀ pr ∈ q.prefilter .right,
      checkFtaForbiddenPr ftaLegal pr = false → prSplittable ftaLegal q.prot pr = true) ∧
    (∀ pr ∈ q.temporalEq, prSplittable ftaLegal q.prot pr = true) ∧
    (∀ pr ∈ q.hashEq, prSplittable ftaLegal q.prot pr = true) ∧
    (∀ pr ∈ q.postfilter, prSplittable ftaLegal q.prot pr = true) ∧
    (∀ el ∈ q.selectList, seSplittable ftaLegal q.prot el.se = true) ∧ True := by
  constructor
  · intro h
    exact ⟨h.prefilter .left, h.prefilter .right,
      fun pr hpr ↦ h.pairPreds pr (mem_append_left _ (mem_append_left _ hpr)),
      fun pr hpr ↦ h.pairPreds pr (mem_append_left _ (mem_append_right _ hpr)),
      fun pr hpr ↦ h.pairPreds pr (mem_append_right _ hpr), h.selectList, trivial⟩
  · rintro ⟨hleft, hright, htemporal, hhash, hpost, hsel, -⟩
    refine { prefilter := fun s ↦ ?_, pairPreds := fun pr hpr ↦ ?_, selectList := hsel }
    · cases s
      · exact hleft
      · exact hright
    · rcases mem_append.mp hpr with hpr | hpr
      · rcases mem_append.mp hpr with hpr | hpr
        · exact htemporal pr hpr
        · exact hhash pr hpr
      · exact hpost pr hpr

/-- **When a join can be split.** -/
theorem isSome_splitNodeForFta_iff (hq : q.Ok) (hs : ¬ StreamOnly q) :
    (splitNodeForFta ftaLegal q).isSome = true ↔ Splittable ftaLegal q := by
  have hcond : (!(q.fromClause .left).isProtocol && !(q.fromClause .right).isProtocol) = false := by
    rw [← Bool.not_eq_true]
    refine fun hc ↦ hs fun s ↦ ?_
    rw [Bool.and_eq_true, Bool.not_eq_true', Bool.not_eq_true'] at hc
    cases s
    · exact hc.1
    · exact hc.2
  obtain ⟨hsel, hpre, hpair⟩ := hq.leaf_of
  have hte : ∀ pr ∈ q.temporalEq, ∀ x ∈ pr.leaves, SplitLeaf x ∧ JoinLeaf q x := fun pr hpr x hx ↦
    splitLeaf_of_joinLeaf (hpair pr (mem_append_left _ (mem_append_left _ hpr)) x hx)
  have hhe : ∀ pr ∈ q.hashEq, ∀ x ∈ pr.leaves, SplitLeaf x ∧ JoinLeaf q x := fun pr hpr x hx ↦
    splitLeaf_of_joinLeaf (hpair pr (mem_append_left _ (mem_append_right _ hpr)) x hx)
  have hpo : ∀ pr ∈ q.postfilter, ∀ x ∈ pr.leaves, SplitLeaf x ∧ JoinLeaf q x := fun pr hpr x hx ↦
    splitLeaf_of_joinLeaf (hpair pr (mem_append_right _ hpr) x hx)
  rw [splitNodeForFta, hcond, if_neg (by decide), splittable_iff]
  have hprot0 := prot_initialVec q
  have hok0 : VecOk ftaLegal (JoinLeaf q) (initialVec q) := vecOk_initialVec q
  refine isSome_bind_iff (isSome_splitPrefilter_iff hq .left hprot0 hok0)
    fun ⟨pre0, where0, v1⟩ h1 ↦ ?_
  obtain ⟨hx1, hok1, -⟩ := splitPrefilter_spec (I := unitInterp) .left (hq.prefilter .left)
    (hpre .left) hprot0 hok0 h1
  have hprot1 := (isProtocolSource_congr hx1).trans hprot0
  refine isSome_bind_iff (isSome_splitPrefilter_iff hq .right hprot1 hok1)
    fun ⟨pre1, where1, v2⟩ h2 ↦ ?_
  obtain ⟨hx2, hok2, -⟩ := splitPrefilter_spec (I := unitInterp) .right (hq.prefilter .right)
    (hpre .right) hprot1 hok1 h2
  have hprot2 := (isProtocolSource_congr hx2).trans hprot1
  refine isSome_bind_iff (isSome_splitFtavecPrs_iff q.temporalEq hte hprot2 hok2)
    fun ⟨te, v3⟩ h3 ↦ ?_
  obtain ⟨hx3, hok3, -⟩ := splitFtavecPrs_spec (I := unitInterp) hte hok2 h3
  have hprot3 := (isProtocolSource_congr hx3).trans hprot2
  refine isSome_bind_iff (isSome_splitFtavecPrs_iff q.hashEq hhe hprot3 hok3) fun ⟨he, v4⟩ h4 ↦ ?_
  obtain ⟨hx4, hok4, -⟩ := splitFtavecPrs_spec (I := unitInterp) hhe hok3 h4
  have hprot4 := (isProtocolSource_congr hx4).trans hprot3
  refine isSome_bind_iff (isSome_splitFtavecPrs_iff q.postfilter hpo hprot4 hok4)
    fun ⟨po, v5⟩ h5 ↦ ?_
  obtain ⟨hx5, hok5, -⟩ := splitFtavecPrs_spec (I := unitInterp) hpo hok4 h5
  have hprot5 := (isProtocolSource_congr hx5).trans hprot4
  refine isSome_bind_iff (isSome_splitSelectList_iff q.selectList
    (fun el hel ↦ splitItem_spec (hsel el hel))
    (fun el hel ↦ isSome_splitItem_iff el.se (hsel el hel))
    hprot5 hok5) fun ⟨els, v6⟩ _ ↦ ?_
  exact iff_of_true rfl trivial

/-- `SELECT A.x, B.y LEFT_OUTER_JOIN FROM TCP A, TCP B WHERE A.time = B.time AND A.x = B.x`, with
these parameters. -/
def twoSided (paramTbl : List (String × Bool)) : JoinEqHashQpn where
  nodeName := "two"
  fromClause := fun s ↦ match s with
    | .left => ⟨"A", "TCP", 0, true, true⟩
    | .right => ⟨"B", "TCP", 0, true, false⟩
  selectList := [⟨.colref ⟨"A", "x", 0, 0⟩, "x"⟩, ⟨.colref ⟨"B", "y", 0, 1⟩, "y"⟩]
  prefilter := fun _ ↦ []
  temporalEq := [.compare (.colref ⟨"A", "time", 0, 0⟩) "=" (.colref ⟨"B", "time", 0, 1⟩)]
  hashEq := [.compare (.colref ⟨"A", "x", 0, 0⟩) "=" (.colref ⟨"B", "x", 0, 1⟩)]
  postfilter := []
  paramTbl := paramTbl
  definitions := [("query_name", "two")]

theorem ok_twoSided (paramTbl : List (String × Bool)) : (twoSided paramTbl).Ok where
  window := cons_ne_nil _ _
  names := by
    show "A" ≠ "B"
    decide
  leaf := by
    intro x hx
    have hx2 : (∃ f, x = .colref ⟨"A", f, 0, 0⟩) ∨ ∃ f, x = .colref ⟨"B", f, 0, 1⟩ := by
      simp [JoinEqHashQpn.leaves, JoinEqHashQpn.pairPreds, twoSided, ScalarExp.leaves,
        Predicate.leaves] at hx
      rcases hx with rfl | rfl | rfl | rfl | rfl | rfl <;> simp
    rcases hx2 with ⟨f, rfl⟩ | ⟨f, rfl⟩
    · exact ⟨.left, rfl, rfl, rfl⟩
    · exact ⟨.right, rfl, rfl, rfl⟩
  prefilter := fun s pr hpr ↦ by cases hpr
  eq := by
    intro pr hpr
    obtain ⟨f, rfl⟩ : ∃ f, pr = .compare (.colref ⟨"A", f, 0, 0⟩) "=" (.colref ⟨"B", f, 0, 1⟩) := by
      simp only [twoSided, singleton_append, mem_cons, not_mem_nil, or_false] at hpr
      rcases hpr with rfl | rfl
      · exact ⟨_, rfl⟩
      · exact ⟨_, rfl⟩
    refine ⟨_, _, _, rfl, fun x hx ↦ ?_, fun x hx ↦ ?_⟩
    · rw [mem_singleton.mp hx]
      rfl
    · rw [mem_singleton.mp hx]
      rfl

end Main

end Tigon.JoinSplit
