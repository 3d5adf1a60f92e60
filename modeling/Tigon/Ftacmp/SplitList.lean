import Tigon.Ftacmp.SplitSe

/-!
# Splitting the clauses of a query

The nodes of a query plan are split clause by clause: each item of the SELECT list and each conjunct
of the WHERE clause in turn, with the select lists of the low level growing from one to the next. 
How one item is split depends on the kind of the node and is a parameter here.

The loops are the same for a selection, a join and a group-by; so what splitting an item does is a
hypothesis here, and each kind of node has one lemma that meets it.

## What is here

* `splitSelectList`, `splitWhere`, `splitFtavecPrs` — the loops over the clauses.
* `splitSelectList_spec`, `splitWhere_spec`, `splitFtavecPrs_spec` — what they give.
* `isSome_splitSelectList_iff`, `isSome_splitWhere_iff`, `isSome_splitFtavecPrs_iff` — when they
  give a result.
-/

set_option autoImplicit false

namespace Tigon.Ftacmp.Split

open Parse

/-- The select list of the high level. -/
def splitSelectList (item : ScalarExp → SelectVec → Option (ScalarExp × SelectVec)) :
    List SelectElement → SelectVec → Option (List SelectElement × SelectVec)
  | [], vec => some ([], vec)
  | el :: els, vec => do
    let (se, vec) ← item el.se vec
    let (els, vec) ← splitSelectList item els vec
    some (⟨se, el.name⟩ :: els, vec)

section

variable (ftaLegal : Nat → Bool)

/-- The conjuncts of the high level and of the low level. -/
def splitWhere : List Predicate → SelectVec → Option (List Predicate × List Predicate × SelectVec)
  | [], vec => some ([], [], vec)
  | pr :: prs, vec =>
    if checkFtaForbiddenPr ftaLegal pr then do
      let (stream, fta, vec) ← splitWhere prs vec
      some (stream, pr :: fta, vec)
    else do
      let (pr', vec) ← splitFtavecPr ftaLegal pr vec
      let (stream, fta, vec) ← splitWhere prs vec
      some (pr' :: stream, fta, vec)

/-- Conjuncts that all stay in the high level. -/
def splitFtavecPrs : List Predicate → SelectVec → Option (List Predicate × SelectVec)
  | [], vec => some ([], vec)
  | pr :: prs, vec => do
    let (pr', vec) ← splitFtavecPr ftaLegal pr vec
    let (prs', vec) ← splitFtavecPrs prs vec
    some (pr' :: prs', vec)

end

section Parts

variable {ftaLegal : Nat → Bool} {P : ScalarExp → Prop} {V : Type} {I : Interp V}

/-! ## Select lists -/

/-- What an item of the high level's select list is. -/
def ItemOf (ftaLegal : Nat → Bool) (I : Interp V) (vec : SelectVec)
    (el el' : SelectElement) : Prop :=
  el'.name = el.name ∧ Means ftaLegal I vec el'.se el.se

theorem splitSelectList_spec {item : ScalarExp → SelectVec → Option (ScalarExp × SelectVec)}
    {els els' : List SelectElement}
    (hitem : ∀ el ∈ els, ∀ {e' : ScalarExp} {v v' : SelectVec}, VecOk ftaLegal P v →
      item el.se v = some (e', v') → Extends v v' ∧ VecOk ftaLegal P v' ∧
        Means ftaLegal I v' e' el.se)
    {v v' : SelectVec} (hv : VecOk ftaLegal P v)
    (h : splitSelectList item els v = some (els', v')) :
    Extends v v' ∧ VecOk ftaLegal P v' ∧ List.Forall₂ (ItemOf ftaLegal I v') els els' := by
  induction els generalizing v els' with
  | nil =>
    simp only [splitSelectList, Option.some.injEq, Prod.mk.injEq] at h
    obtain ⟨rfl, rfl⟩ := h
    exact ⟨.refl _, hv, .nil⟩
  | cons el els ih =>
    simp only [splitSelectList, Option.bind_eq_bind, Option.bind_eq_some_iff, Prod.exists,
      Option.some.injEq, Prod.mk.injEq] at h
    obtain ⟨se, v1, h1, els2, v2, h2, rfl, rfl⟩ := h
    obtain ⟨hext1, hok1, hm⟩ := hitem el List.mem_cons_self hv h1
    obtain ⟨hext2, hok2, hrest⟩ := ih (fun x hx ↦ hitem x (List.mem_cons_of_mem _ hx)) hok1 h2
    exact ⟨hext1.trans hext2, hok2, .cons ⟨rfl, hm.mono hext2⟩ hrest⟩

variable {v : SelectVec}

theorem isSome_splitSelectList_iff {item : ScalarExp → SelectVec → Option (ScalarExp × SelectVec)}
    {prot : Int → Bool} (els : List SelectElement)
    (hitem : ∀ el ∈ els, ∀ {e' : ScalarExp} {v v' : SelectVec}, VecOk ftaLegal P v →
      item el.se v = some (e', v') →
        Extends v v' ∧ VecOk ftaLegal P v' ∧ Means ftaLegal unitInterp v' e' el.se)
    (hsome : ∀ el ∈ els, ∀ {v : SelectVec}, (fun s ↦ isProtocolSource s v) = prot →
      VecOk ftaLegal P v → ((item el.se v).isSome = true ↔ seSplittable ftaLegal prot el.se = true))
    (hprot : (fun s ↦ isProtocolSource s v) = prot) (hv : VecOk ftaLegal P v) :
    (splitSelectList item els v).isSome = true ↔
      ∀ el ∈ els, seSplittable ftaLegal prot el.se = true := by
  induction els generalizing v with
  | nil => exact iff_of_true rfl fun el hel ↦ by cases hel
  | cons el els ih =>
    rw [List.forall_mem_cons, ← hsome el List.mem_cons_self hprot hv, splitSelectList]
    cases h1 : item el.se v with
    | none => simp
    | some p =>
      obtain ⟨hext, hok, -⟩ := hitem el List.mem_cons_self hv h1
      rw [← ih (fun x hx ↦ hitem x (List.mem_cons_of_mem _ hx))
        (fun x hx ↦ hsome x (List.mem_cons_of_mem _ hx))
        ((isProtocolSource_congr hext).trans hprot) hok]
      cases h2 : splitSelectList item els p.2 with
      | none => simp [h2]
      | some q => simp [h2]

theorem known_of_itemOf {els els' : List SelectElement}
    (h : List.Forall₂ (ItemOf ftaLegal I v) els els') : ∀ x ∈ els'.flatMap fun el ↦ el.se.leaves,
      Known v (els.flatMap fun el ↦ el.se.leaves)
        (els.flatMap fun el ↦ pushed ftaLegal (fun s ↦ isProtocolSource s v) el.se) x := by
  induction h with
  | nil => exact fun x hx ↦ by cases hx
  | cons hel _ ih =>
    intro x hx
    rw [List.flatMap_cons] at hx ⊢
    rw [List.flatMap_cons]
    rcases List.mem_append.mp hx with hx | hx
    · exact (hel.2.1 x hx).subset (List.subset_append_left _ _) (List.subset_append_left _ _)
    · exact (ih x hx).subset (List.subset_append_right _ _) (List.subset_append_right _ _)

/-! ## Conjuncts -/

theorem splitFtavecPrs_spec {prs prs' : List Predicate}
    (he : ∀ pr ∈ prs, ∀ x ∈ pr.leaves, SplitLeaf x ∧ P x) {v v' : SelectVec}
    (hv : VecOk ftaLegal P v)
    (h : splitFtavecPrs ftaLegal prs v = some (prs', v')) :
    Extends v v' ∧ VecOk ftaLegal P v' ∧
      List.Forall₂ (fun pr pr' ↦ MeansPr ftaLegal I v' pr' pr) prs prs' := by
  induction prs generalizing v prs' with
  | nil =>
    simp only [splitFtavecPrs, Option.some.injEq, Prod.mk.injEq] at h
    obtain ⟨rfl, rfl⟩ := h
    exact ⟨.refl _, hv, .nil⟩
  | cons pr prs ih =>
    simp only [splitFtavecPrs, Option.bind_eq_bind, Option.bind_eq_some_iff, Prod.exists,
      Option.some.injEq, Prod.mk.injEq] at h
    obtain ⟨pr', v1, h1, prs', v2, h2, rfl, rfl⟩ := h
    obtain ⟨hext1, hok1, hm1⟩ := splitFtavecPr_spec (I := I) pr (he pr List.mem_cons_self) hv h1
    obtain ⟨hext2, hok2, hm2⟩ := ih (fun x hx ↦ he x (List.mem_cons_of_mem _ hx)) hok1 h2
    exact ⟨hext1.trans hext2, hok2, .cons (hm1.mono hext2) hm2⟩

theorem isSome_splitFtavecPrs_iff {prot : Int → Bool} (prs : List Predicate)
    (he : ∀ pr ∈ prs, ∀ x ∈ pr.leaves, SplitLeaf x ∧ P x)
    (hprot : (fun s ↦ isProtocolSource s v) = prot) (hv : VecOk ftaLegal P v) :
    (splitFtavecPrs ftaLegal prs v).isSome = true ↔
      ∀ pr ∈ prs, prSplittable ftaLegal prot pr = true := by
  induction prs generalizing v with
  | nil => exact iff_of_true rfl fun el hel ↦ by cases hel
  | cons pr prs ih =>
    rw [List.forall_mem_cons, ← hprot, ← isSome_splitFtavecPr_iff pr (he pr List.mem_cons_self) hv,
      splitFtavecPrs]
    cases h1 : splitFtavecPr ftaLegal pr v with
    | none => simp
    | some q =>
      obtain ⟨hext, hok, -⟩ := splitFtavecPr_spec (I := unitInterp)
        pr (he pr List.mem_cons_self) hv h1
      rw [hprot, ← ih (fun x hx ↦ he x (List.mem_cons_of_mem _ hx))
        ((isProtocolSource_congr hext).trans hprot) hok]
      cases h2 : splitFtavecPrs ftaLegal prs q.2 with
      | none => simp [h2]
      | some q => simp [h2]

/-- The high level gets the conjuncts that the low level may not evaluate. -/
theorem splitWhere_spec {prs stream fta : List Predicate}
    (he : ∀ pr ∈ prs, ∀ x ∈ pr.leaves, SplitLeaf x ∧ P x) {v v' : SelectVec}
    (hv : VecOk ftaLegal P v)
    (h : splitWhere ftaLegal prs v = some (stream, fta, v')) :
    Extends v v' ∧ VecOk ftaLegal P v' ∧ fta = prs.filter (checkFtaForbiddenPr ftaLegal) ∧
      List.Forall₂ (fun pr pr' ↦ MeansPr ftaLegal I v' pr' pr)
        (prs.filter fun pr ↦ !checkFtaForbiddenPr ftaLegal pr) stream := by
  induction prs generalizing v stream fta with
  | nil =>
    simp only [splitWhere, Option.some.injEq, Prod.mk.injEq] at h
    obtain ⟨rfl, rfl, rfl⟩ := h
    exact ⟨.refl _, hv, rfl, .nil⟩
  | cons pr prs ih =>
    have hrest := fun x hx ↦ he x (List.mem_cons_of_mem _ hx)
    rw [splitWhere] at h
    cases hc : checkFtaForbiddenPr ftaLegal pr with
    | true =>
      simp only [hc, if_true, Option.bind_eq_bind, Option.bind_eq_some_iff, Prod.exists,
        Option.some.injEq, Prod.mk.injEq] at h
      obtain ⟨stream, fta, v1, h1, rfl, rfl, rfl⟩ := h
      obtain ⟨hext, hok, rfl, hm⟩ := ih hrest hv h1
      refine ⟨hext, hok, ?_, ?_⟩
      · rw [List.filter_cons_of_pos hc]
      · rwa [List.filter_cons_of_neg (by rw [hc]; decide)]
    | false =>
      simp only [hc, Bool.false_eq_true, if_false, Option.bind_eq_bind, Option.bind_eq_some_iff,
        Prod.exists, Option.some.injEq, Prod.mk.injEq] at h
      obtain ⟨pr', v1, h1, stream, fta, v2, h2, rfl, rfl, rfl⟩ := h
      obtain ⟨hext1, hok1, hm1⟩ := splitFtavecPr_spec (I := I) pr (he pr List.mem_cons_self) hv h1
      obtain ⟨hext2, hok2, rfl, hm2⟩ := ih hrest hok1 h2
      refine ⟨hext1.trans hext2, hok2, ?_, ?_⟩
      · rw [List.filter_cons_of_neg (by rw [hc]; decide)]
      · rw [List.filter_cons_of_pos (by rw [hc]; rfl)]
        exact .cons (hm1.mono hext2) hm2

theorem isSome_splitWhere_iff {prot : Int → Bool} (prs : List Predicate)
    (he : ∀ pr ∈ prs, ∀ x ∈ pr.leaves, SplitLeaf x ∧ P x)
    (hprot : (fun s ↦ isProtocolSource s v) = prot) (hv : VecOk ftaLegal P v) :
    (splitWhere ftaLegal prs v).isSome = true ↔ ∀ pr ∈ prs,
      checkFtaForbiddenPr ftaLegal pr = false → prSplittable ftaLegal prot pr = true := by
  induction prs generalizing v with
  | nil => exact iff_of_true rfl fun el hel ↦ by cases hel
  | cons pr prs ih =>
    have hrest := fun x hx ↦ he x (List.mem_cons_of_mem _ hx)
    rw [List.forall_mem_cons, splitWhere]
    cases hc : checkFtaForbiddenPr ftaLegal pr with
    | true =>
      rw [← ih hrest hprot hv]
      cases splitWhere ftaLegal prs v with
      | none => simp
      | some q => simp
    | false =>
      rw [← hprot, ← isSome_splitFtavecPr_iff pr (he pr List.mem_cons_self) hv]
      cases h1 : splitFtavecPr ftaLegal pr v with
      | none => simp
      | some q =>
        obtain ⟨hext, hok, -⟩ :=
          splitFtavecPr_spec (I := unitInterp) pr (he pr List.mem_cons_self) hv h1
        rw [hprot, ← ih hrest ((isProtocolSource_congr hext).trans hprot) hok]
        cases h2 : splitWhere ftaLegal prs q.2 with
        | none => simp [h2]
        | some q => simp [h2]

theorem known_of_meansPr {prs prs' : List Predicate}
    (h : List.Forall₂ (fun pr pr' ↦ MeansPr ftaLegal I v pr' pr) prs prs') :
    ∀ x ∈ prs'.flatMap Predicate.leaves, Known v (prs.flatMap Predicate.leaves)
      (prs.flatMap (prPushed ftaLegal fun s ↦ isProtocolSource s v)) x := by
  induction h with
  | nil => exact fun x hx ↦ by cases hx
  | cons hpr _ ih =>
    intro x hx
    rw [List.flatMap_cons] at hx ⊢
    rw [List.flatMap_cons]
    rcases List.mem_append.mp hx with hx | hx
    · exact (hpr.1 x hx).subset (List.subset_append_left _ _) (List.subset_append_left _ _)
    · exact (ih x hx).subset (List.subset_append_right _ _) (List.subset_append_right _ _)

end Parts

/-! ## Operands of equalities -/

section Operand

variable {ftaLegal : Nat → Bool} {P : ScalarExp → Prop} {V : Type} {I : Interp V}

variable {v v' : SelectVec}

/-- A reference reads a column that has an equivalent of the expression. -/
theorem makeFtaSeRef_column {h : Int} {se e' : ScalarExp}
    (hv : VecOk ftaLegal P v) (hse : Low ftaLegal P h se)
    (hr : makeFtaSeRef v se h = some (e', v')) :
    ∃ l, listOf v' h = some l ∧ ∃ el ∈ l, e' = .colref ⟨"", el.name, -1, h⟩ ∧
      el.se.isEquivalentSe se = true := by
  rw [makeFtaSeRef] at hr
  split at hr
  · cases hr
  · rename_i l hl
    rw [Option.some.injEq, Prod.mk.injEq] at hr
    obtain ⟨rfl, rfl⟩ := hr
    obtain ⟨-, -, el, hel, href, heq, -⟩ := makeSelectRef_spec (V := Unit) (hv h l hl) hse
    refine ⟨_, ?_, el, hel, href, heq⟩
    rw [listOf_set (by rw [hl]; rfl), if_pos rfl]

/-- Splitting makes no columns at the root. -/
theorem eq_colref_of_splitFtavecSe {e : ScalarExp} {s : SplitSe} {cr : Colref}
    (h : splitFtavecSe ftaLegal e v = some (s, v')) (hs : s.se = .colref cr) : e = .colref cr := by
  cases e with
  | unaryOp op l =>
    simp only [splitFtavecSe, Option.bind_eq_bind, Option.bind_eq_some_iff, Prod.exists,
      Option.some.injEq, Prod.mk.injEq] at h
    obtain ⟨a, v1, -, l', v2, -, rfl, -⟩ := h
    cases hs
  | binaryOp op l r =>
    simp only [splitFtavecSe, Option.bind_eq_bind, Option.bind_eq_some_iff, Prod.exists,
      Option.some.injEq, Prod.mk.injEq] at h
    obtain ⟨a, v1, -, b, v2, -, l', v3, -, r', v4, -, rfl, -⟩ := h
    cases hs
  | func op os i a =>
    simp only [splitFtavecSe, Option.bind_eq_bind, Option.bind_eq_some_iff, Prod.exists,
      Option.some.injEq, Prod.mk.injEq] at h
    obtain ⟨ss, v1, -, os', v2, -, rfl, -⟩ := h
    cases hs
  | aggrStar op a => cases h
  | aggrSe op l a => cases h
  | gbdef cr g d =>
    simp only [splitFtavecSe, Option.some.injEq, Prod.mk.injEq] at h
    obtain ⟨rfl, -⟩ := h
    cases hs
  | _ =>
    simp only [splitFtavecSe, Option.some.injEq, Prod.mk.injEq] at h
    obtain ⟨rfl, -⟩ := h
    exact hs

/-- What the operand of an equality is replaced by: a column, if the low level computes the whole
operand, and else no new column. -/
structure OperandOf (ftaLegal : Nat → Bool) (I : Interp V) (v : SelectVec) (e e' : ScalarExp) :
    Prop where
  means : Means ftaLegal I v e' e
  column : isWhole ftaLegal (fun s ↦ isProtocolSource s v) e = true →
    ∃ l, listOf v (seSource e) = some l ∧ ∃ el ∈ l, e' = .colref ⟨"", el.name, -1, seSource e⟩ ∧
      el.se.isEquivalentSe e = true
  kept : isWhole ftaLegal (fun s ↦ isProtocolSource s v) e = false →
    ∀ cr, e' = .colref cr ↔ e = .colref cr

theorem OperandOf.mono {e e' : ScalarExp} (h : OperandOf ftaLegal I v e e')
    (hext : Extends v v') : OperandOf ftaLegal I v' e e' := by
  refine ⟨h.means.mono hext, fun hw ↦ ?_, fun hw ↦ ?_⟩
  · rw [isProtocolSource_congr hext] at hw
    obtain ⟨l, hl, el, hel, hrest⟩ := h.column hw
    cases hl' : listOf v' (seSource e) with
    | none =>
      rw [(hext.none_iff _).mp hl'] at hl
      cases hl
    | some l' => exact ⟨l', rfl, el, (hext.prefix_of hl hl').subset hel, hrest⟩
  · rw [isProtocolSource_congr hext] at hw
    exact h.kept hw

theorem splitOperand_operandOf {e e' : ScalarExp} (he : ∀ x ∈ e.leaves, SplitLeaf x ∧ P x)
    (hv : VecOk ftaLegal P v) (h : splitOperand ftaLegal e v = some (e', v')) :
    OperandOf ftaLegal I v' e e' := by
  obtain ⟨hext, -, hmeans⟩ := splitOperand_spec (I := I) he hv h
  simp only [splitOperand, Option.bind_eq_bind, Option.bind_eq_some_iff, Prod.exists] at h
  obtain ⟨s, v1, h1, h2⟩ := h
  obtain ⟨hext1, hok1, hs⟩ := splitFtavecSe_spec (I := I) e he hv h1
  have hcond : (!s.ftaForbidden && isProtocolSource s.colrefSource v1) =
      isWhole ftaLegal (fun s ↦ isProtocolSource s v') e := by
    rw [isWhole, hs.forbidden, hs.source, hext.isProtocolSource, hext1.isProtocolSource]
  rw [hcond] at h2
  refine ⟨hmeans, fun hw ↦ ?_, fun hw cr ↦ ?_⟩
  · rw [hw] at h2
    rw [hw, Bool.and_eq_true, Bool.not_eq_true'] at hcond
    obtain ⟨hf, hprot⟩ := hcond
    have hmix := ne_mixed_of_isProtocolSource hprot
    have hse := hs.whole hf hmix
    rw [hs.source] at hprot hmix
    have hlit : isLiteralOrParamOnly e = false := by
      by_contra hlit
      rw [seSource_eq_of_isLiteralOrParamOnly (by simpa using hlit), isProtocolSource_notblvar]
        at hprot
      cases hprot
    simp only [refIf, if_true, refUnlessConstant, hse, hlit, Bool.false_eq_true, if_false] at h2
    rw [hs.source] at h2
    exact makeFtaSeRef_column hok1
      (low_of_seForbidden_eq_false ftaLegal he (hs.forbidden.symm.trans hf) hmix) h2
  · rw [hw] at h2
    obtain ⟨rfl, -⟩ := refIf_false h2
    refine ⟨eq_colref_of_splitFtavecSe h1, ?_⟩
    rintro rfl
    simp only [splitFtavecSe, Option.some.injEq, Prod.mk.injEq] at h1
    rw [← h1.1]

/-- What a comparison is replaced by. -/
def CompareOf (ftaLegal : Nat → Bool) (I : Interp V) (v : SelectVec) (pr pr' : Predicate) : Prop :=
  ∃ l op r l' r', pr = .compare l op r ∧ pr' = .compare l' op r' ∧
    OperandOf ftaLegal I v l l' ∧ OperandOf ftaLegal I v r r'

theorem CompareOf.mono {pr pr' : Predicate} (h : CompareOf ftaLegal I v pr pr')
    (hext : Extends v v') : CompareOf ftaLegal I v' pr pr' := by
  obtain ⟨l, op, r, l', r', hpr, hpr', hl, hr⟩ := h
  exact ⟨l, op, r, l', r', hpr, hpr', hl.mono hext, hr.mono hext⟩

theorem splitFtavecPrs_compareOf {prs prs' : List Predicate}
    (he : ∀ pr ∈ prs, ∀ x ∈ pr.leaves, SplitLeaf x ∧ P x)
    (hcompare : ∀ pr ∈ prs, ∃ l op r, pr = .compare l op r)
    (hv : VecOk ftaLegal P v) (h : splitFtavecPrs ftaLegal prs v = some (prs', v')) :
    List.Forall₂ (CompareOf ftaLegal I v') prs prs' := by
  induction prs generalizing v prs' with
  | nil =>
    simp only [splitFtavecPrs, Option.some.injEq, Prod.mk.injEq] at h
    obtain ⟨rfl, rfl⟩ := h
    exact .nil
  | cons pr prs ih =>
    simp only [splitFtavecPrs, Option.bind_eq_bind, Option.bind_eq_some_iff, Prod.exists,
      Option.some.injEq, Prod.mk.injEq] at h
    obtain ⟨pr', v1, h1, prs', v2, h2, rfl, rfl⟩ := h
    have hrest := fun x hx ↦ he x (List.mem_cons_of_mem _ hx)
    have hpr := he pr List.mem_cons_self
    obtain ⟨-, hok1, -⟩ := splitFtavecPr_spec (I := unitInterp) pr hpr hv h1
    obtain ⟨hext2, -, -⟩ := splitFtavecPrs_spec (I := unitInterp) hrest hok1 h2
    refine .cons ?_ (ih hrest (fun x hx ↦ hcompare x (List.mem_cons_of_mem _ hx)) hok1 h2)
    obtain ⟨l, op, r, rfl⟩ := hcompare pr List.mem_cons_self
    simp only [splitFtavecPr, Option.bind_eq_bind, Option.bind_eq_some_iff, Prod.exists,
      Option.some.injEq, Prod.mk.injEq] at h1
    obtain ⟨l', v3, h3, r', v4, h4, rfl, rfl⟩ := h1
    have hl : ∀ x ∈ l.leaves, SplitLeaf x ∧ P x := fun x hx ↦ hpr x (List.mem_append_left _ hx)
    have hr : ∀ x ∈ r.leaves, SplitLeaf x ∧ P x := fun x hx ↦ hpr x (List.mem_append_right _ hx)
    obtain ⟨-, hok3, -⟩ := splitOperand_spec (I := unitInterp) hl hv h3
    obtain ⟨hext4, -, -⟩ := splitOperand_spec (I := unitInterp) hr hok3 h4
    exact ⟨l, op, r, l', r', rfl, rfl, (splitOperand_operandOf hl hv h3).mono (hext4.trans hext2),
      (splitOperand_operandOf hr hok3 h4).mono hext2⟩

end Operand

end Tigon.Ftacmp.Split
