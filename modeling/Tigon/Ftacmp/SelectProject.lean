import Tigon.Ftacmp.SplitList

/-!
# Splitting a selection

A selection (`spx_qpn`) filters the tuples of its source and computes a select list from each of
them. If the source is a PROTOCOL, the query is either given to the low level as a whole, or split:
the low level evaluates the conjuncts of the WHERE clause that it may evaluate and computes the
columns that the high level needs for the rest.

That a plan preserves the query is a statement about the rows for all tuples, so that it does not
matter how the expressions are divided between the levels.

## What is here

* `splitNodeForFta` — the split, over one interface.
* `Plan.Preserves` — the high level reads only columns that the low level provides, and the plan
  outputs the rows of the query.
* `preserves_iff` — **when the split preserves the query**.
-/

set_option autoImplicit false

namespace Tigon.Ftacmp.Spx

open Parse Split

/-! ## The query node -/

/-- A selection.  A parameter comes with a mark for access by handle. -/
structure SpxQpn where
  nodeName : String
  tableName : String
  selectList : List SelectElement
  /-- The conjuncts of the WHERE clause. -/
  whereClause : List Predicate
  paramTbl : List (String × Bool)
  definitions : List (String × String)

/-- What a query is split into: the node of the low level, and the one of the high level if there is
one. -/
structure Plan where
  fta : SpxQpn
  stream : Option SpxQpn

section Split

variable (ftaLegal : Nat → Bool)

/-- An expression of the high level.  If the low level can compute it, it is put on the select list
of the low level; one without columns stays. -/
def splitItem (se : ScalarExp) (vec : SelectVec) : Option (ScalarExp × SelectVec) := do
  let (s, vec) ← splitFtavecSe ftaLegal se vec
  if s.ftaForbidden || s.colrefSource == splitNotblvar then some (s.se, vec)
  else makeFtaSeRef vec s.se 0

/-- Whether the query can be executed entirely in the low level. -/
def ftaOk (q : SpxQpn) : Bool :=
  (q.selectList.all fun el ↦ checkFtaForbiddenSe ftaLegal el.se) &&
    q.whereClause.all (checkFtaForbiddenPr ftaLegal)

def splitNodeForFta (q : SpxQpn) : Option Plan :=
  if ftaOk ftaLegal q then some ⟨q, none⟩
  else do
    let ftaName := "_fta_" ++ q.nodeName
    let (selectList, vec) ← splitSelectList (splitItem ftaLegal) q.selectList [some []]
    let (stream, fta, vec) ← splitWhere ftaLegal q.whereClause vec
    some
      { fta :=
          { nodeName := ftaName
            tableName := q.tableName
            selectList := (listOf vec 0).getD []
            whereClause := fta
            paramTbl := q.paramTbl
            definitions := q.definitions.filter fun d ↦ d.1 != "_referenced_ifaces" }
        stream := some
          { nodeName := q.nodeName
            tableName := ftaName
            selectList := selectList
            whereClause := stream
            paramTbl := q.paramTbl
            definitions := q.definitions } }

end Split

/-! ## Running a node -/

section Run

variable {V : Type} (I : Interp V)

/-- A tuple of the source: its columns, and the parameters of the interface it comes from. -/
structure Tuple (V : Type) where
  col : String → V
  ifp : String → V

/-- The values of the leaves for a tuple.  There is one table variable only, number 0. -/
def tupleEnv (ρ : Env V) (junk : V) (t : Tuple V) : Env V :=
  { ρ with
    col := fun cr ↦ if cr.tablevarRef = 0 then t.col cr.field else junk
    ifp := fun ifp ↦ if ifp.tablevarRef = 0 then t.ifp ifp.pname else junk }

/-- The values of the leaves for a row of the low level. -/
def rowEnv (ρ : Env V) (junk : V) (row : Row V) : Env V :=
  { ρ with
    col := fun cr ↦ if cr.tablevarRef = 0 then (row.lookup cr.field).getD junk else junk
    ifp := fun _ ↦ junk }

/-- The rows that a node makes of the tuples it gets. -/
def SpxQpn.run (q : SpxQpn) (envs : List (Env V)) : List (Row V) :=
  (envs.filter fun ρ ↦ q.whereClause.all fun pr ↦ pr.eval I ρ).map fun ρ ↦ outputRow I
    ρ q.selectList

/-- The rows of a plan.  The high level reads the rows of the low level. -/
def Plan.run (plan : Plan) (ρ : Env V) (junk : V) (ts : List (Tuple V)) : List (Row V) :=
  let rows := plan.fta.run I (ts.map (tupleEnv ρ junk))
  match plan.stream with
  | none => rows
  | some stream => stream.run I (rows.map (rowEnv ρ junk))

end Run

/-- The leaves of a node. -/
def SpxQpn.leaves (q : SpxQpn) : List ScalarExp :=
  (q.selectList.flatMap fun el ↦ el.se.leaves) ++ q.whereClause.flatMap Predicate.leaves

/-- A leaf that reads a column of the low-level node, or none. -/
def ReadsFrom (fta : SpxQpn) : ScalarExp → Prop
  | .literal _ => True
  | .param _ => True
  | .colref cr => cr.tablevarRef = 0 ∧ cr.field ∈ fta.selectList.map SelectElement.name
  | _ => False

/-- The plan means what the query means. -/
structure Plan.Preserves (ftaLegal : Nat → Bool) (q : SpxQpn) (plan : Plan) : Prop where
  /-- The low level may compute what it is given. -/
  legal : (∀ el ∈ plan.fta.selectList, checkFtaForbiddenSe ftaLegal el.se = true) ∧
    ∀ pr ∈ plan.fta.whereClause, checkFtaForbiddenPr ftaLegal pr = true
  /-- The high level reads columns of the low level. -/
  provided : ∀ stream, plan.stream = some stream →
    stream.tableName = plan.fta.nodeName ∧ ∀ x ∈ stream.leaves, ReadsFrom plan.fta x
  /-- Its expressions have the values of those of the query, on every tuple. -/
  value : ∀ stream, plan.stream = some stream → ∀ {V : Type} (I : Interp V) (ρ : Env V) (junk : V)
    (t : Tuple V),
    outputRow I (rowEnv ρ junk (outputRow I (tupleEnv ρ junk t) plan.fta.selectList))
      stream.selectList = outputRow I (tupleEnv ρ junk t) q.selectList
  /-- The rows are those of the query, in the same order. -/
  rows : ∀ {V : Type} (I : Interp V) (ρ : Env V) (junk : V) (ts : List (Tuple V)),
    plan.run I ρ junk ts = q.run I (ts.map (tupleEnv ρ junk))

/-- A leaf of a query over one source. -/
def SourceLeaf : ScalarExp → Prop
  | .literal _ => True
  | .param _ => True
  | .ifaceParam ifp => ifp.tablevarRef = 0
  | .colref cr => cr.tablevarRef = 0
  | _ => False

/-- Every expression that has to be split can be. -/
def Splittable (ftaLegal : Nat → Bool) (q : SpxQpn) : Prop :=
  (∀ el ∈ q.selectList, seSplittable ftaLegal (fun s ↦ s == 0) el.se = true) ∧
    ∀ pr ∈ q.whereClause, checkFtaForbiddenPr ftaLegal pr = false →
      prSplittable ftaLegal (fun s ↦ s == 0) pr = true

/-! ## One source -/

/-- There is one select list, the one of source 0. -/
def One (vec : SelectVec) : Prop := ∀ h, isProtocolSource h vec = (h == 0)

theorem one_singleton (l : List SelectElement) : One [some l] := by
  intro h
  rw [isProtocolSource, listOf]
  by_cases h0 : h = 0
  · subst h0
    rfl
  · rw [beq_eq_false_iff_ne.mpr h0]
    split
    · obtain ⟨k, hk⟩ : ∃ k, h.toNat = k + 1 := ⟨h.toNat - 1, by omega⟩
      rw [hk]
      rfl
    · rfl

theorem One.extends {v v' : SelectVec} (h : One v) (he : Extends v v') : One v' :=
  fun k ↦ (he.isProtocolSource k).trans (h k)

variable {v : SelectVec}

theorem One.listOf_zero (h : One v) : listOf v 0 = some ((listOf v 0).getD []) := by
  obtain ⟨l, hl⟩ := Option.isSome_iff_exists.mp (h 0)
  rw [hl]
  rfl

theorem One.listOf_ne (h : One v) {k : Int} (hk : k ≠ 0) : listOf v k = none := by
  have := h k
  rw [beq_eq_false_iff_ne.mpr hk] at this
  simpa [isProtocolSource] using this

theorem lowLeaf_of_sourceLeaf {x : ScalarExp} (h : SourceLeaf x) : LowLeaf 0 x := by
  cases x <;> exact h

theorem splitLeaf_of_sourceLeaf {x : ScalarExp} (h : SourceLeaf x) : SplitLeaf x ∧ True := by
  refine ⟨?_, trivial⟩
  cases x with
  | literal lit => trivial
  | param name => trivial
  | ifaceParam ifp => exact (show ifp.tablevarRef = 0 from h).ge
  | colref cr => exact (show cr.tablevarRef = 0 from h).ge
  | _ => exact h.elim

section Env

variable {ftaLegal : Nat → Bool} {V : Type} {I : Interp V}

/-- A tuple, as the values of the leaves where every table variable has one. -/
theorem tupleEnv_eq (ρ : Env V) (junk : V) (t : Tuple V) : tupleEnv ρ junk t =
    sourceEnv { ρ with ifp := fun ifp ↦ if ifp.tablevarRef = 0 then t.ifp ifp.pname else junk }
      fun h f ↦ if h = 0 then t.col f else junk := rfl

theorem rowEnv_eq (hv : One v) (ρ : Env V) (junk : V) (t : Tuple V) :
    rowEnv ρ junk (outputRow I (tupleEnv ρ junk t) ((listOf v 0).getD [])) =
      hftaEnv (tupleEnv ρ junk t) (rowsOf I (tupleEnv ρ junk t) v) junk := by
  rw [rowEnv, hftaEnv]
  congr 1
  · funext ifp
    by_cases h0 : ifp.tablevarRef = 0
    · rw [h0, rowsOf, hv.listOf_zero]
      rfl
    · simp only [rowsOf, hv.listOf_ne h0, Option.map_none, tupleEnv, if_neg h0]
  · funext cr
    by_cases h0 : cr.tablevarRef = 0
    · rw [if_pos h0, h0, rowsOf, hv.listOf_zero]
      rfl
    · simp only [rowsOf, hv.listOf_ne h0, Option.map_none, tupleEnv, if_neg h0]

theorem eval_rowEnv_of_means (hv : One v) {e' e : ScalarExp} (h : Means ftaLegal I v e' e)
    (ρ : Env V) (junk : V) (t : Tuple V) :
    e'.eval I (rowEnv ρ junk (outputRow I (tupleEnv ρ junk t) ((listOf v 0).getD []))) =
      e.eval I (tupleEnv ρ junk t) := by
  rw [rowEnv_eq hv, tupleEnv_eq, h.2]

theorem eval_rowEnv_of_meansPr (hv : One v) {p' p : Predicate} (h : MeansPr ftaLegal I v p' p)
    (ρ : Env V) (junk : V) (t : Tuple V) :
    p'.eval I (rowEnv ρ junk (outputRow I (tupleEnv ρ junk t) ((listOf v 0).getD []))) =
      p.eval I (tupleEnv ρ junk t) := by
  rw [rowEnv_eq hv, tupleEnv_eq, h.2]

end Env

/-! ## The two parts of a split -/

section Parts

variable {ftaLegal : Nat → Bool} {V : Type} {I : Interp V}

theorem splitItem_spec {e e' : ScalarExp} (he : ∀ x ∈ e.leaves, SourceLeaf x) {v v' : SelectVec}
    (hv : VecOk ftaLegal (fun _ ↦ True) v) (h : splitItem ftaLegal e v = some (e', v')) :
    Extends v v' ∧ VecOk ftaLegal (fun _ ↦ True) v' ∧ Means ftaLegal I v' e' e := by
  simp only [splitItem, Option.bind_eq_bind, Option.bind_eq_some_iff, Prod.exists] at h
  obtain ⟨s, v1, h1, h2⟩ := h
  have hleaf : ∀ x ∈ e.leaves, SplitLeaf x ∧ True := fun x hx ↦ splitLeaf_of_sourceLeaf (he x hx)
  obtain ⟨hext1, hok1, hs⟩ := splitFtavecSe_spec (I := I) e hleaf hv h1
  split at h2
  · -- the expression stays in the high level
    rename_i hc
    cases h2
    refine ⟨hext1, hok1, hs.means ?_⟩
    rcases Bool.or_eq_true_iff.mp hc with hc | hc
    · exact Or.inl hc
    · right
      rw [beq_iff_eq.mp hc, isProtocolSource_notblvar]
  · -- the low level computes it
    rename_i hc
    rw [Bool.or_eq_true, not_or, Bool.not_eq_true, beq_iff_eq, hs.source] at hc
    have hsrc := (seSource_eq_or fun x hx ↦ lowLeaf_of_sourceLeaf (he x hx)).resolve_right hc.2
    have hmix : seSource e ≠ splitMixed := by
      rw [hsrc]
      decide
    rw [hs.whole hc.1 (by rwa [hs.source])] at h2
    have hlow := low_of_seForbidden_eq_false ftaLegal hleaf (hs.forbidden.symm.trans hc.1) hmix
    rw [hsrc] at hlow
    have hw : isWhole ftaLegal (fun s ↦ isProtocolSource s v1) e = true := by
      rw [isWhole, ← hs.forbidden, hc.1, hsrc]
      rw [makeFtaSeRef] at h2
      split at h2
      · cases h2
      · rename_i l hl
        simp [isProtocolSource, hl]
    obtain ⟨hext2, hok2, hm⟩ := makeFtaSeRef_spec I hok1 hlow hsrc hw h2
    exact ⟨hext1.trans hext2, hok2, hm⟩

theorem isSome_splitItem_iff (e : ScalarExp) (he : ∀ x ∈ e.leaves, SourceLeaf x)
    (hone : (fun s ↦ isProtocolSource s v) = fun s ↦ s == 0)
      (hv : VecOk ftaLegal (fun _ ↦ True) v) : (splitItem ftaLegal e v).isSome = true ↔
        seSplittable ftaLegal (fun s ↦ s == 0) e = true := by
  have hleaf : ∀ x ∈ e.leaves, SplitLeaf x ∧ True := fun x hx ↦ splitLeaf_of_sourceLeaf (he x hx)
  rw [← hone, ← isSome_splitFtavecSe_iff e hleaf hv, splitItem]
  cases h1 : splitFtavecSe ftaLegal e v with
  | none => exact Iff.rfl
  | some p =>
    obtain ⟨s, v1⟩ := p
    obtain ⟨hext, -, -⟩ := splitFtavecSe_spec (I := unitInterp) e hleaf hv h1
    refine iff_of_true ?_ rfl
    simp only [Option.bind_eq_bind, Option.bind_some]
    split
    · rfl
    · rw [makeFtaSeRef, (One.extends (congrFun hone) hext).listOf_zero]
      rfl

end Parts

/-! ## The plan -/

section Plan

variable {ftaLegal : Nat → Bool} {V : Type} {I : Interp V}

theorem run_cons (q : SpxQpn) (ρ : Env V) (envs : List (Env V)) : q.run I (ρ :: envs) =
    if q.whereClause.all fun pr ↦ pr.eval I ρ then outputRow I ρ q.selectList :: q.run I envs
    else q.run I envs := by
  simp only [SpxQpn.run, List.filter_cons]
  split <;> rfl

/-- Two nodes in a row do what one does, if they do so for every tuple. -/
theorem run_run {q fta stream : SpxQpn} {ρ : Env V} {junk : V}
    (hselect : ∀ t, outputRow I (rowEnv ρ junk (outputRow I (tupleEnv ρ junk t) fta.selectList))
      stream.selectList = outputRow I (tupleEnv ρ junk t) q.selectList)
    (hwhere : ∀ t, (q.whereClause.all fun pr ↦ pr.eval I (tupleEnv ρ junk t)) =
      ((fta.whereClause.all fun pr ↦ pr.eval I (tupleEnv ρ junk t)) &&
        stream.whereClause.all fun pr ↦
          pr.eval I (rowEnv ρ junk (outputRow I (tupleEnv ρ junk t) fta.selectList))))
    (ts : List (Tuple V)) :
    stream.run I ((fta.run I (ts.map (tupleEnv ρ junk))).map (rowEnv ρ junk)) =
      q.run I (ts.map (tupleEnv ρ junk)) := by
  induction ts with
  | nil => rfl
  | cons t ts ih =>
    rw [List.map_cons, run_cons, run_cons q, hwhere t, ← ih]
    cases fta.whereClause.all fun pr ↦ pr.eval I (tupleEnv ρ junk t) with
    | false => rfl
    | true => rw [if_pos rfl, List.map_cons, run_cons, hselect, Bool.true_and]

theorem outputRow_cons (ρ : Env V) (el : SelectElement) (els : List SelectElement) :
    outputRow I ρ (el :: els) = (el.name, el.se.eval I ρ) :: outputRow I ρ els := rfl

theorem outputRow_eq_of_itemOf (hone : One v) {els els' : List SelectElement}
    (h : List.Forall₂ (ItemOf ftaLegal I v) els els') (ρ : Env V) (junk : V) (t : Tuple V) :
    outputRow I (rowEnv ρ junk (outputRow I (tupleEnv ρ junk t) ((listOf v 0).getD []))) els' =
      outputRow I (tupleEnv ρ junk t) els := by
  induction h with
  | nil => rfl
  | cons hel _ ih =>
    rw [outputRow_cons, outputRow_cons, ih, hel.1, eval_rowEnv_of_means hone hel.2]

theorem all_eval_eq_of_meansPr (hone : One v) {prs prs' : List Predicate}
    (h : List.Forall₂ (fun pr pr' ↦ MeansPr ftaLegal I v pr' pr) prs prs') (ρ : Env V) (junk : V)
    (t : Tuple V) :
    (prs'.all fun pr ↦
        pr.eval I (rowEnv ρ junk (outputRow I (tupleEnv ρ junk t) ((listOf v 0).getD [])))) =
      prs.all fun pr ↦ pr.eval I (tupleEnv ρ junk t) := by
  induction h with
  | nil => rfl
  | cons hpr _ ih => rw [List.all_cons, List.all_cons, ih, eval_rowEnv_of_meansPr hone hpr]

theorem all_filter_and_all_filter_not {α : Type} (p c : α → Bool) (l : List α) :
    ((l.filter c).all p && (l.filter fun x ↦ !c x).all p) = l.all p := by
  induction l with
  | nil => rfl
  | cons x l ih =>
    rw [List.all_cons, ← ih]
    cases hc : c x with
    | true => simp [hc, Bool.and_assoc]
    | false => simp [hc, Bool.and_left_comm]

/-- What is known in the high level of a selection are columns of the low level. -/
theorem readsFrom_of_known {fta : SpxQpn} (hone : One v)
    (hfta : fta.selectList = (listOf v 0).getD []) {old : List ScalarExp}
    (hold : ∀ x ∈ old, SourceLeaf x) {new : List ScalarExp} {x : ScalarExp}
    (h : Known v old new x) :
    ReadsFrom fta x := by
  obtain ⟨hp, hx⟩ := h
  have hcol : ∀ {cr : Colref}, cr.tablevarRef = 0 → Provided v (.colref cr) →
    ReadsFrom fta (.colref cr) := by
    intro cr h0 hp
    refine ⟨h0, ?_⟩
    rw [hfta]
    exact hp _ (by rw [h0]; exact hone.listOf_zero)
  rcases hx with ⟨hx, -⟩ | hx
  · have hs := hold x hx
    cases x with
    | literal lit => trivial
    | param name => trivial
    | ifaceParam ifp =>
      rw [Provided, show ifp.tablevarRef = 0 from hs, hone.listOf_zero] at hp
      cases hp
    | colref cr => exact hcol hs hp
    | _ => exact hs.elim
  · cases x with
    | colref cr =>
      refine hcol ?_ hp
      by_contra h0
      obtain ⟨l, hl, -⟩ := hx
      rw [hone.listOf_ne h0] at hl
      cases hl
    | _ => exact hx.elim

theorem vecOk_nil : VecOk ftaLegal (fun _ ↦ True) [some []] := by
  intro h l hl
  by_cases h0 : h = 0
  · subst h0
    cases hl
    exact ⟨List.nodup_nil, .nil, fun el hel ↦ by cases hel⟩
  · rw [(one_singleton []).listOf_ne h0] at hl
    cases hl

theorem sourceLeaf_of_mem {q : SpxQpn} (hq : ∀ x ∈ q.leaves, SourceLeaf x) :
    (∀ el ∈ q.selectList, ∀ x ∈ el.se.leaves, SourceLeaf x) ∧
      ∀ pr ∈ q.whereClause, ∀ x ∈ pr.leaves, SourceLeaf x :=
  ⟨fun el hel x hx ↦ hq x (List.mem_append_left _ (List.mem_flatMap.mpr ⟨el, hel, hx⟩)),
    fun pr hpr x hx ↦ hq x (List.mem_append_right _ (List.mem_flatMap.mpr ⟨pr, hpr, hx⟩))⟩

/-- A query that the low level executes on its own. -/
theorem preserves_of_ftaOk {q : SpxQpn} (h : ftaOk ftaLegal q = true) :
    Plan.Preserves ftaLegal q ⟨q, none⟩ := by
  rw [ftaOk, Bool.and_eq_true, List.all_eq_true, List.all_eq_true] at h
  exact
    { legal := h
      provided := fun stream hs ↦ by cases hs
      value := fun stream hs ↦ by cases hs
      rows := fun I ρ junk ts ↦ rfl }

/-- A query that is split. -/
theorem preserves_of_split {q : SpxQpn} (hq : ∀ x ∈ q.leaves, SourceLeaf x) {plan : Plan}
    (h : splitNodeForFta ftaLegal q = some plan) : plan.Preserves ftaLegal q := by
  rw [splitNodeForFta] at h
  split at h
  · rename_i hok
    cases h
    exact preserves_of_ftaOk hok
  · simp only [Option.bind_eq_bind, Option.bind_eq_some_iff, Prod.exists, Option.some.injEq] at h
    obtain ⟨els, v1, h1, stream, fta, v2, h2, rfl⟩ := h
    obtain ⟨hsel, hwhere⟩ := sourceLeaf_of_mem hq
    have hwhere' : ∀ pr ∈ q.whereClause, ∀ x ∈ pr.leaves, SplitLeaf x ∧ True :=
      fun pr hpr x hx ↦ splitLeaf_of_sourceLeaf (hwhere pr hpr x hx)
    -- the facts that do not depend on the values
    obtain ⟨hext1, hok1, -⟩ := splitSelectList_spec (I := unitInterp)
      (fun el hel ↦ splitItem_spec (hsel el hel)) vecOk_nil h1
    obtain ⟨hext2, hok2, hfta, -⟩ := splitWhere_spec (I := unitInterp) hwhere' hok1 h2
    have hone1 := (one_singleton []).extends hext1
    have hone2 := hone1.extends hext2
    have hitems : ∀ {V : Type} (I : Interp V), List.Forall₂ (ItemOf ftaLegal I v2)
      q.selectList els := by
      intro V I
      exact (splitSelectList_spec (I := I) (fun el hel ↦ splitItem_spec (hsel el hel))
        vecOk_nil h1).2.2.imp fun el el' hel ↦ ⟨hel.1, hel.2.mono hext2⟩
    have hprs : ∀ {V : Type} (I : Interp V),
        List.Forall₂ (fun pr pr' ↦ MeansPr ftaLegal I v2 pr' pr)
          (q.whereClause.filter fun pr ↦ !checkFtaForbiddenPr ftaLegal pr) stream :=
      fun I ↦ (splitWhere_spec (I := I) hwhere' hok1 h2).2.2.2
    have hvalue : ∀ {V : Type} (I : Interp V) (ρ : Env V) (junk : V) (t : Tuple V),
        outputRow I (rowEnv ρ junk (outputRow I (tupleEnv ρ junk t) ((listOf v2 0).getD []))) els =
          outputRow I (tupleEnv ρ junk t) q.selectList :=
      fun I ρ junk t ↦ outputRow_eq_of_itemOf hone2 (hitems I) ρ junk t
    refine
      { legal := ⟨fun el hel ↦ (hok2 0 _ hone2.listOf_zero).low el hel |>.2, fun pr hpr ↦ ?_⟩
        provided := fun s hs ↦ ?_
        value := fun s hs ↦ ?_
        rows := fun I ρ junk ts ↦ run_run (hvalue I ρ junk) (fun t ↦ ?_) ts }
    · rw [hfta] at hpr
      exact (List.mem_filter.mp hpr).2
    · cases hs
      refine ⟨rfl, fun x hx ↦ ?_⟩
      rcases List.mem_append.mp hx with hx | hx
      · refine readsFrom_of_known hone2 rfl ?_ (known_of_itemOf (hitems unitInterp) x hx)
        exact fun y hy ↦ by
          obtain ⟨el, hel, hy⟩ := List.mem_flatMap.mp hy
          exact hsel el hel y hy
      · refine readsFrom_of_known hone2 rfl ?_ (known_of_meansPr (hprs unitInterp) x hx)
        exact fun y hy ↦ by
          obtain ⟨pr, hpr, hy⟩ := List.mem_flatMap.mp hy
          exact hwhere pr (List.mem_filter.mp hpr).1 y hy
    · cases hs
      exact hvalue
    · rw [all_eval_eq_of_meansPr hone2 (hprs I), hfta, all_filter_and_all_filter_not]

/-- **When the split of a selection preserves its meaning.** -/
theorem preserves_iff (ftaLegal : Nat → Bool) (q : SpxQpn) (hq : ∀ x ∈ q.leaves, SourceLeaf x) :
    (∃ plan, splitNodeForFta ftaLegal q = some plan ∧ plan.Preserves ftaLegal q) ↔
      ftaOk ftaLegal q = true ∨ Splittable ftaLegal q := by
  have hsome : (∃ plan, splitNodeForFta ftaLegal q = some plan ∧ plan.Preserves ftaLegal q) ↔
      (splitNodeForFta ftaLegal q).isSome = true := by
    rw [Option.isSome_iff_exists]
    exact ⟨fun ⟨plan, h, _⟩ ↦ ⟨plan, h⟩, fun ⟨plan, h⟩ ↦ ⟨plan, h, preserves_of_split hq h⟩⟩
  rw [hsome, splitNodeForFta]
  by_cases hok : ftaOk ftaLegal q = true
  · rw [if_pos hok]
    exact iff_of_true rfl (Or.inl hok)
  · rw [if_neg hok, or_iff_right hok, Splittable]
    obtain ⟨hsel, hwhere⟩ := sourceLeaf_of_mem hq
    rw [← isSome_splitSelectList_iff q.selectList (fun el hel ↦ splitItem_spec (hsel el hel))
      (fun el hel ↦ isSome_splitItem_iff el.se (hsel el hel)) (funext (one_singleton [])) vecOk_nil]
    cases h1 : splitSelectList (splitItem ftaLegal) q.selectList [some []] with
    | none => simp
    | some p =>
      obtain ⟨hext, hok1, -⟩ := splitSelectList_spec (I := unitInterp)
        (fun el hel ↦ splitItem_spec (hsel el hel)) vecOk_nil h1
      have hone := (one_singleton []).extends hext
      rw [← isSome_splitWhere_iff q.whereClause
        (fun pr hpr x hx ↦ splitLeaf_of_sourceLeaf (hwhere pr hpr x hx)) (funext hone) hok1]
      cases h2 : splitWhere ftaLegal q.whereClause p.2 with
      | none => simp [h2]
      | some r => simp [h2]

/-- `SELECT f(1) + g(len)`, where the low level may call `f` but not `g`. -/
def strayQuery : SpxQpn where
  nodeName := "stray"
  tableName := "TCP"
  selectList :=
    [⟨.binaryOp "+" (.func "f" [.literal ⟨"1", 0⟩] 0 none)
      (.func "g" [.colref ⟨"TCP", "len", 0, 0⟩] 1 none), "Field"⟩]
  whereClause := []
  paramTbl := []
  definitions := []

theorem sourceLeaf_strayQuery (x : ScalarExp) (hx : x ∈ strayQuery.leaves) : SourceLeaf x := by
  have hx2 : x = .literal ⟨"1", 0⟩ ∨ x = .colref ⟨"TCP", "len", 0, 0⟩ := by
    simpa [SpxQpn.leaves, strayQuery, ScalarExp.leaves] using hx
  rcases hx2 with rfl | rfl
  · trivial
  · rfl

/-- `SELECT f(len) + g(len), srcIP … WHERE f(len) = 1 AND g(len) = 2`, where again the low level may
call `f` but not `g`. -/
def mixedQuery : SpxQpn where
  nodeName := "mixed"
  tableName := "TCP"
  selectList :=
    [⟨.binaryOp "+" (.func "f" [.colref ⟨"TCP", "len", 0, 0⟩] 0 none)
      (.func "g" [.colref ⟨"TCP", "len", 0, 0⟩] 1 none), "Field0"⟩,
      ⟨.colref ⟨"TCP", "srcIP", 0, 0⟩, "srcIP"⟩]
  whereClause :=
    [.compare (.func "f" [.colref ⟨"TCP", "len", 0, 0⟩] 0 none) "=" (.literal ⟨"1", 0⟩),
      .compare (.func "g" [.colref ⟨"TCP", "len", 0, 0⟩] 1 none) "=" (.literal ⟨"2", 0⟩)]
  paramTbl := []
  definitions := []

theorem sourceLeaf_mixedQuery (x : ScalarExp) (hx : x ∈ mixedQuery.leaves) : SourceLeaf x := by
  simp only [SpxQpn.leaves, mixedQuery, List.flatMap_cons, List.flatMap_nil, ScalarExp.leaves,
    Predicate.leaves] at hx
  revert x
  simp [ScalarExp.leavesList, ScalarExp.leaves, SourceLeaf]

/-- A query that is split: each level has a conjunct of its own. -/
theorem preserves_iff_mixedQuery :
    Splittable (fun i ↦ i == 0) mixedQuery ∧
      (∃ plan, splitNodeForFta (fun i ↦ i == 0) mixedQuery = some plan ∧
        plan.Preserves (fun i ↦ i == 0) mixedQuery) ∧
      ∃ plan ∈ splitNodeForFta (fun i ↦ i == 0) mixedQuery,
        plan.fta.whereClause.length = 1 ∧ plan.stream.map (fun q ↦ q.whereClause.length) =
          some 1 := by
  have hsplittable : Splittable (fun i ↦ i == 0) mixedQuery := by
    unfold Splittable
    decide
  exact ⟨hsplittable, (preserves_iff _ mixedQuery sourceLeaf_mixedQuery).mpr (.inr hsplittable),
    _, rfl, rfl, rfl⟩

theorem exists_not_preserves : ¬ ∀ (ftaLegal : Nat → Bool) (q : SpxQpn),
    (∀ x ∈ q.leaves, SourceLeaf x) →
      ∃ plan, splitNodeForFta ftaLegal q = some plan ∧ plan.Preserves ftaLegal q := by
  intro h
  obtain ⟨plan, hplan, -⟩ := h (fun i ↦ i == 0) strayQuery sourceLeaf_strayQuery
  have hnone : (splitNodeForFta (fun i ↦ i == 0) strayQuery).isNone = true := by decide
  rw [hplan] at hnone
  cases hnone

end Plan

end Tigon.Ftacmp.Spx
