import Tigon.Ftacmp.CommonFilter
import Tigon.Ftacmp.SplitSe

/-!
# Filter joins over several interfaces

A filter join keeps the packets of its first source for which the second source has a packet that
fits.  Its predicates come in five classes: on both sources alike, on the first one, on the second
one, equalities between both, and on neither. The node has a list for each class, and one of all
predicates, which is in the order of the query.

Where the sources are read from several interfaces, there is a node for each of them, and these are
merged.  A node gets copies of the predicates.  For each class, `splitNodeForFta` copies as many
predicates as there are in it, but it always takes them from the front of the list of all.

* `preserves_of_single` — **the copies are right**, if there is only one class;
* `splitPreserves_iff` — they are right in no other case.
-/

set_option autoImplicit false

namespace Tigon.Ftacmp.FilterJoin

open Parse Split CommonFilter

/-! ## Copies of predicates -/

mutual

def dupSe : Parse.ScalarExp → Parse.ScalarExp
  | .literal lit => .literal lit
  | .param name => .param name
  | .ifaceParam ifp => .ifaceParam ifp
  | .colref cr => .colref cr
  | .gbref cr g => .gbref cr g
  | .gbdef cr g d => .gbdef cr g d
  | .unaryOp op l => .unaryOp op (dupSe l)
  | .binaryOp op l r => .binaryOp op (dupSe l) (dupSe r)
  | .aggrStar op a => .aggrStar op a
  | .aggrSe op l a => .aggrSe op (dupSe l) a
  | .func op os f a => .func op (dupSeList os) f a

def dupSeList : List Parse.ScalarExp → List Parse.ScalarExp
  | [] => []
  | o :: os => dupSe o :: dupSeList os

end

def dupPr : Predicate → Predicate
  | .isIn l lits => .isIn (dupSe l) lits
  | .compare l op r => .compare (dupSe l) op (dupSe r)
  | .unaryOp op l => .unaryOp op (dupPr l)
  | .binaryOp op l r => .binaryOp op (dupPr l) (dupPr r)
  | .func op os f => .func op (dupSeList os) f

def dupSelect (el : SelectElement) : SelectElement := ⟨dupSe el.se, el.name⟩

/-! ## The table variables of a predicate -/

def addRef (vref : Int) (reflist : List Int) : List Int :=
  if vref ∈ reflist then reflist else reflist ++ [vref]

mutual

def getTablevarRefSe : Parse.ScalarExp → List Int → List Int
  | .literal _, reflist => reflist
  | .param _, reflist => reflist
  | .ifaceParam ifp, reflist => addRef ifp.tablevarRef reflist
  | .unaryOp _ l, reflist => getTablevarRefSe l reflist
  | .binaryOp _ l r, reflist => getTablevarRefSe r (getTablevarRefSe l reflist)
  | .colref cr, reflist => addRef cr.tablevarRef reflist
  | .gbref _ _, reflist => reflist
  | .gbdef _ _ _, reflist => reflist
  | .aggrStar _ _, reflist => reflist
  | .aggrSe _ _ _, reflist => reflist
  | .func _ _ _ (some _), reflist => reflist
  | .func _ os _ none, reflist => getTablevarRefSeList os reflist

def getTablevarRefSeList : List Parse.ScalarExp → List Int → List Int
  | [], reflist => reflist
  | o :: os, reflist => getTablevarRefSeList os (getTablevarRefSe o reflist)

end

def getTablevarRefPr : Predicate → List Int → List Int
  | .isIn l _, reflist => getTablevarRefSe l reflist
  | .compare l _ r, reflist => getTablevarRefSe r (getTablevarRefSe l reflist)
  | .unaryOp _ l, reflist => getTablevarRefPr l reflist
  | .binaryOp _ l r, reflist => getTablevarRefPr r (getTablevarRefPr l reflist)
  | .func _ os _, reflist => getTablevarRefSeList os reflist

/-! ## Making the node -/

structure Tablevar where
  machine : String
  interface : String
  schemaName : String
  variableName : String
  ifq : Bool

/-- A filter join; `rest` is its parameters and definitions. -/
structure FilterJoinQpn (ρ : Type) where
  nodeName : String
  fm : List Tablevar
  temporalVar : Colref
  temporalRange : Nat
  selectList : List SelectElement
  sharedPred : List Predicate
  predT0 : List Predicate
  predT1 : List Predicate
  hashEq : List Predicate
  postfilter : List Predicate
  whereList : List Predicate
  useBloom : Bool
  rest : ρ

/-- What the analysis of a query gives. -/
structure QuerySummary (ρ : Type) where
  queryName : String
  fm : List Tablevar
  temporalVar : Colref
  temporalRange : Nat
  selectList : List SelectElement
  whCnf : List Predicate
  /-- The value of the definition of `algorithm`. -/
  algorithm : String
  rest : ρ

/-- What a predicate is to be used for. -/
inductive Kind
  | t0Only
  | t1Only
  | hashEq
  | postfilter
  | bad
deriving DecidableEq

/-- An equality of expressions in one source each. -/
def isHashEq (l : Parse.ScalarExp) (op : String) (r : Parse.ScalarExp) : Bool :=
  let selTbls := getTablevarRefSe l []
  let serTbls := getTablevarRefSe r []
  op == "=" && selTbls.length == 1 && serTbls.length == 1 && selTbls.headD 0 != serTbls.headD 0

def kindOf (p : Predicate) : Kind :=
  let predTbls := getTablevarRefPr p []
  if predTbls.length = 1 then
    if predTbls.headD 0 = 0 then .t0Only else .t1Only
  else if predTbls.length = 0 then .postfilter
  else
    match p with
    | .compare l op r => if isHashEq l op r then .hashEq else .bad
    | _ => .bad

/-- In an equality of both sources, the first one comes to the left. -/
def swapScalarOperands (p : Predicate) : Predicate :=
  match p with
  | .compare l op r =>
    if kindOf p = .hashEq ∧ (getTablevarRefSe l []).headD 0 ≠ 0 then .compare r op l
      else .compare l op r
  | p => p

variable {ρ : Type} (schema : TableList)

/-- The predicates of one kind, in the order of the query. -/
def ofKind (k : Kind) (whCnf : List Predicate) : List Predicate :=
  (whCnf.filter fun p ↦ kindOf p = k).map swapScalarOperands

/-- The position of the first predicate on the second source that is the same. -/
def matchOf (t1Only : List Predicate) (p : Predicate) : Option Nat :=
  t1Only.findIdx? fun q ↦ isEquivalentPredBase schema p q

/-- The predicates on the second source that are not among the shared ones. -/
def unmatched (t0Only t1Only : List Predicate) : List Predicate :=
  let matchedPred := t0Only.filterMap (matchOf schema t1Only)
  (t1Only.zipIdx.filter fun x ↦ !matchedPred.contains x.2).map Prod.fst

/-- The node for a query, and the code of the last error. -/
def FilterJoinQpn.new (qs : QuerySummary ρ) : FilterJoinQpn ρ × Nat :=
  let badRef := qs.selectList.any fun el ↦
    let selTbls := getTablevarRefSe el.se []
    selTbls.length == 2 || (selTbls.length == 1 && selTbls.headD 0 == 1)
  let t0Only := ofKind .t0Only qs.whCnf
  let t1Only := ofKind .t1Only qs.whCnf
  let errorCode := if qs.whCnf.any fun p ↦ kindOf p = .bad then 3
    else if badRef || qs.fm.length != 2 then 1 else 0
  ({ nodeName := qs.queryName
     fm := qs.fm
     temporalVar := qs.temporalVar
     temporalRange := qs.temporalRange
     selectList := qs.selectList
     sharedPred := t0Only.filter fun p ↦ (matchOf schema t1Only p).isSome
     predT0 := t0Only.filter fun p ↦ (matchOf schema t1Only p).isNone
     predT1 := unmatched schema t0Only t1Only
     hashEq := ofKind .hashEq qs.whCnf
     postfilter := ofKind .postfilter qs.whCnf
     whereList := qs.whCnf.map swapScalarOperands
     useBloom := qs.algorithm != "hash"
     rest := qs.rest }, errorCode)

/-! ## Splitting -/

/-- The predicates that are copied for a class. -/
def copyClass (whereList cls : List Predicate) : List Predicate :=
  (whereList.take cls.length).map dupPr

def untaboo (s : String) : String := s.map fun c ↦ if c = '.' then '_' else c

def Tablevar.onInterface (iface : String × String) (t : Tablevar) : Tablevar :=
  { t with machine := iface.1, interface := iface.2, ifq := false }

/-- The node for an interface, before the parameters of the interface are looked up. -/
def ftaNode (node : FilterJoinQpn ρ) (iface : String × String) : FilterJoinQpn ρ where
  nodeName := untaboo ("_" ++ node.nodeName ++ "_" ++ iface.1 ++ "_" ++ iface.2)
  fm := node.fm.map (Tablevar.onInterface iface)
  temporalVar := node.temporalVar
  temporalRange := node.temporalRange
  useBloom := node.useBloom
  selectList := node.selectList.map dupSelect
  sharedPred := copyClass node.whereList node.sharedPred
  predT0 := copyClass node.whereList node.predT0
  predT1 := copyClass node.whereList node.predT1
  hashEq := copyClass node.whereList node.hashEq
  postfilter := copyClass node.whereList node.postfilter
  whereList := copyClass node.whereList node.sharedPred ++ copyClass node.whereList node.predT0 ++
    copyClass node.whereList node.predT1 ++ copyClass node.whereList node.hashEq ++
      copyClass node.whereList node.postfilter
  rest := node.rest

/-- The values of a parameter of an interface, if they are found. -/
abbrev IfqT := String → String → String → Option (List String)

/-- The literal that a parameter stands for; there must be one value. -/
def ifaceLiteral (ifdb : IfqT) (iface : String × String) (ifp : Ifpref) : Option Literal :=
  match ifdb iface.1 iface.2 ifp.pname with
  | some [v] => some ⟨v, 1⟩
  | _ => none

def resolveLeaf (ifdb : IfqT) (iface : String × String) : Parse.ScalarExp → Parse.ScalarExp
  | .ifaceParam ifp =>
    ((ifaceLiteral ifdb iface ifp).map Parse.ScalarExp.literal).getD (.ifaceParam ifp)
  | e => e

/-- The parameter is known, if it is one. -/
def resolves (ifdb : IfqT) (iface : String × String) : Parse.ScalarExp → Bool
  | .ifaceParam ifp => (ifaceLiteral ifdb iface ifp).isSome
  | _ => true

/-- The objects in a class are those in the list of all predicates, so that they change with
them. -/
def resolveIfParams (ifdb : IfqT) (iface : String × String) (node : FilterJoinQpn ρ) :
    Option (FilterJoinQpn ρ) :=
  let resolvePr := Predicate.mapLeaves (resolveLeaf ifdb iface)
  if (node.selectList.all fun el ↦ el.se.leaves.all (resolves ifdb iface)) &&
      node.whereList.all fun p ↦ p.leaves.all (resolves ifdb iface) then
    some { node with
      selectList := node.selectList.map fun el ↦ ⟨el.se.mapLeaves (resolveLeaf ifdb iface), el.name⟩
      sharedPred := node.sharedPred.map resolvePr
      predT0 := node.predT0.map resolvePr
      predT1 := node.predT1.map resolvePr
      hashEq := node.hashEq.map resolvePr
      postfilter := node.postfilter.map resolvePr
      whereList := node.whereList.map resolvePr }
  else none

inductive QpNode (ρ : Type)
  | filterJoin (node : FilterJoinQpn ρ)
  | merge (name : String) (sources : List String)

inductive Exc
  | ftaUnsafe
  | emptyInterfaceSet
  | unresolved
deriving DecidableEq

/-- The nodes, and how many of them are not run next to the interfaces. -/
def splitNodeForFta (ftaLegal : Nat → Bool) (ifdb : IfqT) (ifaces : List (String × String))
    (node : FilterJoinQpn ρ) : Except Exc (List (QpNode ρ) × Nat) :=
  if !((node.selectList.all fun el ↦ checkFtaForbiddenSe ftaLegal el.se) &&
      node.whereList.all fun p ↦ checkFtaForbiddenPr ftaLegal p) then .error .ftaUnsafe
  else
    match ifaces with
    | [] => .error .emptyInterfaceSet
    | [iface] => .ok ([.filterJoin { node with fm := node.fm.map (Tablevar.onInterface iface) }], 0)
    | ifaces =>
      match ifaces.mapM fun iface ↦ resolveIfParams ifdb iface (ftaNode node iface) with
      | none => .error .unresolved
      | some nodes =>
        .ok (nodes.map QpNode.filterJoin ++
          [.merge node.nodeName (nodes.map FilterJoinQpn.nodeName)], 1)

/-! ## What the copies are to be -/

/-- Each class has its own predicates, and the list of all has all of them. -/
structure Preserves (node copy : FilterJoinQpn ρ) : Prop where
  sharedPred : copy.sharedPred.Perm node.sharedPred
  predT0 : copy.predT0.Perm node.predT0
  predT1 : copy.predT1.Perm node.predT1
  hashEq : copy.hashEq.Perm node.hashEq
  postfilter : copy.postfilter.Perm node.postfilter
  whereList : copy.whereList.Perm node.whereList

/-- The nodes for the interfaces are copies that preserve the predicates, with the parameters of the
interface looked up; the last node merges them. -/
def SplitPreserves (ifdb : IfqT) (ifaces : List (String × String)) (node : FilterJoinQpn ρ)
    (nodes : List (QpNode ρ)) : Prop :=
  ∃ ftas, nodes = ftas.map QpNode.filterJoin ++
    [.merge node.nodeName (ftas.map FilterJoinQpn.nodeName)] ∧
      List.Forall₂ (fun iface fta ↦ resolveIfParams ifdb iface (ftaNode node iface) = some fta ∧
        Preserves node (ftaNode node iface)) ifaces ftas

/-! ## Copies -/

theorem dupSeList_eq (os : List Parse.ScalarExp) (h : ∀ o ∈ os, dupSe o = o) :
    dupSeList os = os := by
  induction os with
  | nil => rfl
  | cons o os ih =>
    rw [dupSeList, h o List.mem_cons_self, ih fun o ho ↦ h o (List.mem_cons_of_mem _ ho)]

theorem dupSe_eq (e : Parse.ScalarExp) : dupSe e = e := by
  induction e with
  | unaryOp op l ih => rw [dupSe, ih]
  | binaryOp op l r ihl ihr => rw [dupSe, ihl, ihr]
  | aggrSe op l a ih => rw [dupSe, ih]
  | func op os f a ih => rw [dupSe, dupSeList_eq os ih]
  | _ => rfl

/-- **A copy of a predicate is the predicate.** -/
theorem dupPr_eq (p : Predicate) : dupPr p = p := by
  induction p with
  | compare l op r => rw [dupPr, dupSe_eq, dupSe_eq]
  | isIn l lits => rw [dupPr, dupSe_eq]
  | unaryOp op l ih => rw [dupPr, ih]
  | binaryOp op l r ihl ihr => rw [dupPr, ihl, ihr]
  | func op os f => rw [dupPr, dupSeList_eq os fun o _ ↦ dupSe_eq o]

theorem copyClass_eq (whereList cls : List Predicate) : copyClass whereList cls =
    whereList.take cls.length := by
  have hdup : dupPr = id := funext dupPr_eq
  rw [copyClass, hdup, List.map_id]

/-! ## Kinds -/

theorem mem_addRef {x vref : Int} {reflist : List Int} : x ∈ addRef vref reflist ↔ x ∈ reflist ∨
    x = vref := by
  rw [addRef]
  split
  · rename_i h
    exact ⟨.inl, fun h' ↦ h'.elim id (fun h' ↦ h' ▸ h)⟩
  · rw [List.mem_append, List.mem_singleton]

theorem mem_getTablevarRefSeList {x : Int} (os : List Parse.ScalarExp)
    (h : ∀ o ∈ os, ∀ reflist, x ∈ getTablevarRefSe o reflist ↔ x ∈ reflist ∨
      x ∈ getTablevarRefSe o [])
    (reflist : List Int) :
    x ∈ getTablevarRefSeList os reflist ↔ x ∈ reflist ∨ x ∈ getTablevarRefSeList os [] := by
  induction os generalizing reflist with
  | nil => simp [getTablevarRefSeList]
  | cons o os ih =>
    have hos := ih fun o ho ↦ h o (List.mem_cons_of_mem _ ho)
    rw [getTablevarRefSeList, getTablevarRefSeList, hos, hos (getTablevarRefSe o []),
      h o List.mem_cons_self]
    tauto

theorem mem_getTablevarRefSe {x : Int} (e : Parse.ScalarExp) (reflist : List Int) :
    x ∈ getTablevarRefSe e reflist ↔ x ∈ reflist ∨ x ∈ getTablevarRefSe e [] := by
  induction e generalizing reflist with
  | ifaceParam ifp => simp [getTablevarRefSe, mem_addRef]
  | colref cr => simp [getTablevarRefSe, mem_addRef]
  | unaryOp op l ih => exact ih reflist
  | binaryOp op l r ihl ihr =>
    rw [getTablevarRefSe, getTablevarRefSe, ihr, ihl, ihr (getTablevarRefSe l [])]
    tauto
  | func op os f a ih =>
    cases a with
    | none => exact mem_getTablevarRefSeList os ih reflist
    | some a => simp [getTablevarRefSe]
  | _ => simp [getTablevarRefSe]

theorem isHashEq_iff {l r : Parse.ScalarExp} {op : String} : isHashEq l op r = true ↔
    op = "=" ∧ ∃ a b, getTablevarRefSe l [] = [a] ∧ getTablevarRefSe r [] = [b] ∧ a ≠ b := by
  constructor
  · intro h
    simp only [isHashEq, Bool.and_eq_true, beq_iff_eq, bne_iff_ne, ne_eq] at h
    obtain ⟨⟨⟨rfl, hl⟩, hr⟩, hne⟩ := h
    obtain ⟨a, ha⟩ := List.length_eq_one_iff.mp hl
    obtain ⟨b, hb⟩ := List.length_eq_one_iff.mp hr
    rw [ha, hb] at hne
    exact ⟨rfl, a, b, ha, hb, hne⟩
  · rintro ⟨rfl, a, b, ha, hb, hne⟩
    simp [isHashEq, ha, hb, hne]

theorem isHashEq_comm {l r : Parse.ScalarExp} {op : String} (h : isHashEq l op r = true) :
    isHashEq r op l = true := by
  obtain ⟨hop, a, b, ha, hb, hne⟩ := isHashEq_iff.mp h
  exact isHashEq_iff.mpr ⟨hop, b, a, hb, ha, Ne.symm hne⟩

theorem kindOf_compare_of_isHashEq {l r : Parse.ScalarExp} {op : String}
    (h : isHashEq l op r = true) : kindOf (.compare l op r) = .hashEq := by
  obtain ⟨-, a, b, ha, hb, hne⟩ := isHashEq_iff.mp h
  have hmem : ∀ x, x = a ∨ x = b → x ∈ getTablevarRefPr (.compare l op r) [] := by
    rintro x (rfl | rfl)
    · rw [getTablevarRefPr, mem_getTablevarRefSe, ha]
      exact .inl List.mem_cons_self
    · rw [getTablevarRefPr, mem_getTablevarRefSe, hb]
      exact .inr List.mem_cons_self
  have hone : (getTablevarRefPr (.compare l op r) []).length ≠ 1 := by
    intro hlength
    obtain ⟨c, hc⟩ := List.length_eq_one_iff.mp hlength
    have h₁ := hmem a (.inl rfl)
    have h₂ := hmem b (.inr rfl)
    rw [hc, List.mem_singleton] at h₁ h₂
    exact hne (h₁.trans h₂.symm)
  have hzero : (getTablevarRefPr (.compare l op r) []).length ≠ 0 := by
    intro hlength
    have h₁ := hmem a (.inl rfl)
    rw [List.length_eq_zero_iff.mp hlength] at h₁
    cases h₁
  simp only [kindOf, if_neg hone, if_neg hzero, h, if_true]

/-- The operands of an equality may change places. -/
theorem kindOf_swapScalarOperands (p : Predicate) : kindOf (swapScalarOperands p) = kindOf p := by
  cases p with
  | compare l op r =>
    rw [swapScalarOperands]
    split
    · rename_i h
      have hhash : isHashEq l op r = true := by
        by_contra hnot
        have hkind := h.1
        simp only [kindOf, hnot] at hkind
        split at hkind
        · split at hkind <;> cases hkind
        · split at hkind <;> cases hkind
      rw [h.1]
      exact kindOf_compare_of_isHashEq (isHashEq_comm hhash)
    · rfl
  | _ => rfl

/-! ## The classes of a node -/

variable {schema} {qs : QuerySummary ρ} {k : Kind} {p : Predicate}

theorem kindOf_of_mem_ofKind {whCnf : List Predicate} (h : p ∈ ofKind k whCnf) : kindOf p = k := by
  obtain ⟨q, hq, rfl⟩ := List.mem_map.mp h
  rw [kindOf_swapScalarOperands]
  simpa using (List.mem_filter.mp hq).2

theorem ofKind_eq_of_forall {whCnf : List Predicate} (h : ∀ p ∈ whCnf, kindOf p = k) :
    ofKind k whCnf = whCnf.map swapScalarOperands := by
  rw [ofKind, List.filter_eq_self.mpr fun p hp ↦ by simpa using h p hp]

theorem ofKind_eq_nil_of_forall {whCnf : List Predicate} {k' : Kind} (h : ∀ p ∈ whCnf, kindOf p = k)
    (hne : k ≠ k') : ofKind k' whCnf = [] := by
  rw [ofKind, List.filter_eq_nil_iff.mpr fun p hp ↦ by simpa [h p hp] using hne, List.map_nil]

/-- Every predicate is of one of the five kinds. -/
theorem length_eq_sum (whCnf : List Predicate) : whCnf.length =
    (ofKind .t0Only whCnf).length + (ofKind .t1Only whCnf).length + (ofKind .hashEq whCnf).length +
      (ofKind .postfilter whCnf).length + (ofKind .bad whCnf).length := by
  induction whCnf with
  | nil => rfl
  | cons p whCnf ih =>
    simp only [ofKind, List.length_map, List.filter_cons, List.length_cons] at ih ⊢
    cases kindOf p <;> simp <;> omega

/-- If a predicate on the first source has a match, one on the second source is left out. -/
theorem length_unmatched_lt {t0Only t1Only : List Predicate} (hp : p ∈ t0Only)
    (hmatch : (matchOf schema t1Only p).isSome) : (unmatched schema t0Only t1Only).length <
      t1Only.length := by
  obtain ⟨v, hv⟩ := Option.isSome_iff_exists.mp hmatch
  have hlt : v < t1Only.length := (List.findIdx?_eq_some_iff_getElem.mp hv).1
  rw [unmatched, List.length_map]
  refine lt_of_lt_of_eq (List.length_filter_lt_length_iff_exists.mpr ⟨(t1Only[v], v), ?_, ?_⟩)
    List.length_zipIdx
  · exact List.mk_mem_zipIdx_iff_getElem?.mpr (List.getElem?_eq_getElem hlt)
  · have hmem : v ∈ t0Only.filterMap (matchOf schema t1Only) := List.mem_filterMap.mpr ⟨p, hp, hv⟩
    simpa using hmem

theorem unmatched_of_forall {t0Only t1Only : List Predicate}
    (h : ∀ p ∈ t0Only, matchOf schema t1Only p = none) : unmatched schema t0Only t1Only =
      t1Only := by
  have hnil : t0Only.filterMap (matchOf schema t1Only) = [] := List.filterMap_eq_nil_iff.mpr h
  rw [unmatched, hnil]
  simp

theorem forall_kindOf_ne_bad (hok : (FilterJoinQpn.new schema qs).2 = 0) : ∀ p ∈ qs.whCnf,
    kindOf p ≠ .bad := by
  intro p hp hbad
  have hany : (qs.whCnf.any fun p ↦ kindOf p = .bad) = true :=
    List.any_eq_true.mpr ⟨p, hp, by simpa using hbad⟩
  simp [FilterJoinQpn.new, hany] at hok

/-- **The copies are right, if there is only one class.** -/
theorem preserves_of_single (hok : (FilterJoinQpn.new schema qs).2 = 0)
    (hsingle : ∀ p ∈ qs.whCnf, kindOf p = k)
    (iface : String × String) : Preserves (FilterJoinQpn.new schema qs).1
    (ftaNode (FilterJoinQpn.new schema qs).1 iface) := by
  have hall : ∀ cls : List Predicate, cls = [] ∨ cls = qs.whCnf.map swapScalarOperands →
      copyClass (qs.whCnf.map swapScalarOperands) cls = cls := by
    rintro cls (rfl | rfl)
    · rw [copyClass_eq, List.length_nil, List.take_zero]
    · rw [copyClass_eq, List.take_length]
  have hclass : ∀ k', ofKind k' qs.whCnf = [] ∨ ofKind k' qs.whCnf =
    qs.whCnf.map swapScalarOperands := fun k' ↦ by
    by_cases hk : k = k'
    · exact .inr (ofKind_eq_of_forall (hk ▸ hsingle))
    · exact .inl (ofKind_eq_nil_of_forall hsingle hk)
  -- there are no predicates on both sources, so that none is shared
  have hmatch : ∀ p ∈ ofKind .t0Only qs.whCnf, matchOf schema (ofKind .t1Only qs.whCnf)
    p = none := by
    intro p hp
    have hk : k = .t0Only := by
      by_contra hk
      rw [ofKind_eq_nil_of_forall hsingle hk] at hp
      cases hp
    have hnil : ofKind .t1Only qs.whCnf = [] := ofKind_eq_nil_of_forall hsingle (by rw [hk]; decide)
    rw [hnil]
    rfl
  have hshared : (FilterJoinQpn.new schema qs).1.sharedPred = [] :=
    List.filter_eq_nil_iff.mpr fun p hp ↦ by simp [hmatch p hp]
  have hpredT0 : (FilterJoinQpn.new schema qs).1.predT0 = ofKind .t0Only qs.whCnf :=
    List.filter_eq_self.mpr fun p hp ↦ by simp [hmatch p hp]
  have hpredT1 : (FilterJoinQpn.new schema qs).1.predT1 = ofKind .t1Only qs.whCnf :=
    unmatched_of_forall hmatch
  have hcopy : ∀ k', copyClass (FilterJoinQpn.new schema qs).1.whereList (ofKind k' qs.whCnf) =
    ofKind k' qs.whCnf :=
    fun k' ↦ hall _ (hclass k')
  have hwhere : ofKind .t0Only qs.whCnf ++ ofKind .t1Only qs.whCnf ++ ofKind .hashEq qs.whCnf ++
      ofKind .postfilter qs.whCnf = qs.whCnf.map swapScalarOperands := by
    have hnil : ∀ {k'}, k ≠ k' → ofKind k' qs.whCnf = [] :=
      fun hne ↦ ofKind_eq_nil_of_forall hsingle hne
    cases k with
    | bad =>
      have hempty : qs.whCnf = [] := List.eq_nil_iff_forall_not_mem.mpr fun p hp ↦
        forall_kindOf_ne_bad hok p hp (hsingle p hp)
      rw [hempty]
      rfl
    | t0Only =>
      rw [ofKind_eq_of_forall hsingle, hnil (by decide), hnil (by decide), hnil (by decide)]; simp
    | t1Only =>
      rw [ofKind_eq_of_forall hsingle, hnil (by decide), hnil (by decide), hnil (by decide)]; simp
    | hashEq =>
      rw [ofKind_eq_of_forall hsingle, hnil (by decide), hnil (by decide), hnil (by decide)]; simp
    | postfilter =>
      rw [ofKind_eq_of_forall hsingle, hnil (by decide), hnil (by decide), hnil (by decide)]; simp
  have hcopyNil : copyClass (FilterJoinQpn.new schema qs).1.whereList [] = [] := hall [] (.inl rfl)
  refine ⟨?_, ?_, ?_, List.Perm.of_eq (hcopy .hashEq), List.Perm.of_eq (hcopy .postfilter), ?_⟩
  · show (copyClass _ (FilterJoinQpn.new schema qs).1.sharedPred).Perm _
    rw [hshared, hcopyNil]
  · show (copyClass _ (FilterJoinQpn.new schema qs).1.predT0).Perm _
    rw [hpredT0, hcopy]
  · show (copyClass _ (FilterJoinQpn.new schema qs).1.predT1).Perm _
    rw [hpredT1, hcopy]
  · show (copyClass _ (FilterJoinQpn.new schema qs).1.sharedPred ++
      copyClass _ (FilterJoinQpn.new schema qs).1.predT0 ++
        copyClass _ (FilterJoinQpn.new schema qs).1.predT1 ++
          copyClass _ (ofKind .hashEq qs.whCnf) ++
      copyClass _ (ofKind .postfilter qs.whCnf)).Perm _
    rw [hshared, hpredT0, hpredT1, hcopy, hcopy, hcopy, hcopy, hcopyNil, List.nil_append, hwhere]
    exact List.Perm.refl _

/-- If the copies are right, each predicate on the first source is without a match on the second
one. -/
theorem matchOf_eq_none_of_preserves {iface : String × String}
    (h : Preserves (FilterJoinQpn.new schema qs).1
      (ftaNode (FilterJoinQpn.new schema qs).1 iface)) :
    ∀ p ∈ ofKind .t0Only qs.whCnf, matchOf schema (ofKind .t1Only qs.whCnf) p = none := by
  intro p hp
  by_contra hmatch
  have hlt : (unmatched schema (ofKind .t0Only qs.whCnf) (ofKind .t1Only qs.whCnf)).length <
      (ofKind .t1Only qs.whCnf).length :=
    length_unmatched_lt hp (Option.isSome_iff_ne_none.mpr hmatch)
  have hlength := h.whereList.length_eq
  have hcopy : ∀ cls : List Predicate,
    (copyClass (FilterJoinQpn.new schema qs).1.whereList cls).length ≤ cls.length :=
    fun cls ↦ by
      rw [copyClass_eq, List.length_take]
      exact min_le_left _ _
  have hshared := hcopy (FilterJoinQpn.new schema qs).1.sharedPred
  have hpredT0 := hcopy (FilterJoinQpn.new schema qs).1.predT0
  have hpredT1 := hcopy (FilterJoinQpn.new schema qs).1.predT1
  have hhashEq := hcopy (FilterJoinQpn.new schema qs).1.hashEq
  have hpostfilter := hcopy (FilterJoinQpn.new schema qs).1.postfilter
  have ht0 : (FilterJoinQpn.new schema qs).1.sharedPred.length +
      (FilterJoinQpn.new schema qs).1.predT0.length = (ofKind .t0Only qs.whCnf).length := by
    have hsplit := List.length_eq_length_filter_add (l := ofKind .t0Only qs.whCnf)
      fun p ↦ (matchOf schema (ofKind .t1Only qs.whCnf) p).isSome
    simp only [Option.not_isSome] at hsplit
    exact hsplit.symm
  have hwhere : (FilterJoinQpn.new schema qs).1.whereList.length = qs.whCnf.length :=
    List.length_map _
  have hsum := length_eq_sum qs.whCnf
  simp only [ftaNode, List.length_append] at hlength
  have hpredT1' : (FilterJoinQpn.new schema qs).1.predT1.length <
    (ofKind .t1Only qs.whCnf).length := hlt
  have hhash : (FilterJoinQpn.new schema qs).1.hashEq.length =
    (ofKind .hashEq qs.whCnf).length := rfl
  have hpost : (FilterJoinQpn.new schema qs).1.postfilter.length =
    (ofKind .postfilter qs.whCnf).length := rfl
  omega

/-- If the copies are right, the first predicate is of the kind of every class. -/
theorem single_of_preserves {iface : String × String} (hok : (FilterJoinQpn.new schema qs).2 = 0)
    (h : Preserves (FilterJoinQpn.new schema qs).1
      (ftaNode (FilterJoinQpn.new schema qs).1 iface)) :
    ∃ k, ∀ p ∈ qs.whCnf, kindOf p = k := by
  have hmatch := matchOf_eq_none_of_preserves h
  have hpredT0 : (FilterJoinQpn.new schema qs).1.predT0 = ofKind .t0Only qs.whCnf :=
    List.filter_eq_self.mpr fun p hp ↦ by simp [hmatch p hp]
  have hpredT1 : (FilterJoinQpn.new schema qs).1.predT1 = ofKind .t1Only qs.whCnf :=
    unmatched_of_forall hmatch
  have hperm : ∀ k ≠ Kind.bad, (copyClass (qs.whCnf.map swapScalarOperands)
    (ofKind k qs.whCnf)).Perm (ofKind k qs.whCnf) := by
    intro k hk
    cases k with
    | t0Only => exact hpredT0 ▸ h.predT0
    | t1Only => exact hpredT1 ▸ h.predT1
    | hashEq => exact h.hashEq
    | postfilter => exact h.postfilter
    | bad => exact absurd rfl hk
  cases hcnf : qs.whCnf with
  | nil => exact ⟨.bad, fun p hp ↦ by cases hp⟩
  | cons q rest =>
    refine ⟨kindOf q, fun p hp ↦ ?_⟩
    have hp' : p ∈ qs.whCnf := hcnf ▸ hp
    have hmem : swapScalarOperands p ∈ ofKind (kindOf p) qs.whCnf :=
      List.mem_map_of_mem (List.mem_filter.mpr ⟨hp', by simp⟩)
    obtain ⟨n, hn⟩ := Nat.exists_eq_add_of_le' (List.length_pos_of_mem hmem)
    have hfirst : swapScalarOperands q ∈ copyClass (qs.whCnf.map swapScalarOperands)
      (ofKind (kindOf p) qs.whCnf) := by
      rw [copyClass_eq, hn, hcnf, List.map_cons, List.take_succ_cons]
      exact List.mem_cons_self
    have hkind := kindOf_of_mem_ofKind
      ((hperm _ (forall_kindOf_ne_bad hok p hp')).mem_iff.mp hfirst)
    rw [kindOf_swapScalarOperands] at hkind
    exact hkind.symm

/-! ## The nodes for the interfaces -/

theorem forall₂_of_mapM_eq_some {α β : Type} {f : α → Option β} {l : List α} {bs : List β}
    (h : l.mapM f = some bs) : List.Forall₂ (fun a b ↦ f a = some b) l bs := by
  induction l generalizing bs with
  | nil =>
    cases h
    exact .nil
  | cons a l ih =>
    rw [List.mapM_cons] at h
    obtain ⟨b, hb, h⟩ := Option.bind_eq_some_iff.mp h
    obtain ⟨bs', hbs, h⟩ := Option.bind_eq_some_iff.mp h
    cases h
    exact .cons hb (ih hbs)

theorem splitNodeForFta_eq_ok {ftaLegal : Nat → Bool} {ifdb : IfqT}
    {ifaces : List (String × String)} {node : FilterJoinQpn ρ} {nodes : List (QpNode ρ)} {n : Nat}
    (hifaces : 2 ≤ ifaces.length)
    (h : splitNodeForFta ftaLegal ifdb ifaces node = .ok (nodes, n)) :
    ∃ ftas, nodes = ftas.map QpNode.filterJoin ++
      [.merge node.nodeName (ftas.map FilterJoinQpn.nodeName)] ∧
      List.Forall₂ (fun iface fta ↦ resolveIfParams ifdb iface (ftaNode node iface) = some fta)
        ifaces ftas := by
  rcases ifaces with _ | ⟨iface₁, _ | ⟨iface₂, ifaces⟩⟩
  · cases hifaces
  · simp at hifaces
  · unfold splitNodeForFta at h
    split at h
    · cases h
    · dsimp only at h
      split at h
      · cases h
      · rename_i ftas hftas
        cases h
        exact ⟨ftas, rfl, forall₂_of_mapM_eq_some hftas⟩

/-- **The nodes for the interfaces have the predicates of the query, exactly if these are all of one
kind.** -/
theorem splitPreserves_iff {ftaLegal : Nat → Bool} {ifdb : IfqT} {ifaces : List (String × String)}
    {nodes : List (QpNode ρ)} {n : Nat} (hok : (FilterJoinQpn.new schema qs).2 = 0)
    (hifaces : 2 ≤ ifaces.length)
    (h : splitNodeForFta ftaLegal ifdb ifaces (FilterJoinQpn.new schema qs).1 = .ok (nodes, n)) :
    SplitPreserves ifdb ifaces (FilterJoinQpn.new schema qs).1 nodes ↔ ∃ k, ∀ p ∈ qs.whCnf,
      kindOf p = k := by
  constructor
  · rintro ⟨ftas, -, hftas⟩
    cases hftas with
    | nil => simp at hifaces
    | cons hfirst _ => exact single_of_preserves hok hfirst.2
  · rintro ⟨k, hsingle⟩
    obtain ⟨ftas, hnodes, hftas⟩ := splitNodeForFta_eq_ok hifaces h
    exact ⟨ftas, hnodes, hftas.imp fun iface _ hfta ↦ ⟨hfta, preserves_of_single hok hsingle iface⟩⟩

/-! ### Two queries -/

/-- A filter join of two sources on their columns `a`. -/
def joinOn (preds : List Predicate) : QuerySummary Unit where
  queryName := "q"
  fm := [⟨"", "", "tcp", "R", true⟩, ⟨"", "", "tcp", "S", true⟩]
  temporalVar := ⟨"R", "time", 0, 0⟩
  temporalRange := 5
  selectList := [⟨.colref ⟨"R", "a", 0, 0⟩, "a"⟩]
  whCnf := .compare (.colref ⟨"R", "a", 0, 0⟩) "=" (.colref ⟨"S", "a", 0, 1⟩) :: preds
  algorithm := ""
  rest := ()

def packets : TableList := ⟨fun _ _ ↦ "tcp", fun _ ↦ 0, fun _ _ ↦ false⟩

def noInterfaces : IfqT := fun _ _ _ ↦ none

def ifaces : List (String × String) := [("h", "eth0"), ("h", "eth1")]

/-- With one equality between the sources, both interfaces have it. -/
theorem splitPreserves_equality : ∃ nodes n,
    splitNodeForFta (fun _ ↦ true) noInterfaces ifaces (FilterJoinQpn.new packets (joinOn [])).1 =
      .ok (nodes, n) ∧ SplitPreserves noInterfaces ifaces (FilterJoinQpn.new packets (joinOn [])).1
        nodes := by
  obtain ⟨nodes, n, h⟩ : ∃ nodes n, splitNodeForFta (fun _ ↦ true) noInterfaces ifaces
      (FilterJoinQpn.new packets (joinOn [])).1 = .ok (nodes, n) := ⟨_, _, rfl⟩
  exact ⟨nodes, n, h, (splitPreserves_iff (by decide) (by decide) h).mpr ⟨.hashEq, by decide⟩⟩

/-- With a predicate on the first source behind it, the equality is taken for that, too. -/
theorem not_splitPreserves : ∃ nodes n,
    splitNodeForFta (fun _ ↦ true) noInterfaces ifaces
        (FilterJoinQpn.new packets (joinOn
          [.compare (.colref ⟨"R", "b", 0, 0⟩) ">" (.literal ⟨"0", 2⟩)])).1 =
      .ok (nodes, n) ∧
      ¬ SplitPreserves noInterfaces ifaces
        (FilterJoinQpn.new packets (joinOn
          [.compare (.colref ⟨"R", "b", 0, 0⟩) ">" (.literal ⟨"0", 2⟩)])).1 nodes := by
  obtain ⟨nodes, n, h⟩ : ∃ nodes n, splitNodeForFta (fun _ ↦ true) noInterfaces ifaces
      (FilterJoinQpn.new packets (joinOn
        [.compare (.colref ⟨"R", "b", 0, 0⟩) ">" (.literal ⟨"0", 2⟩)])).1 =
    .ok (nodes, n) := ⟨_, _, rfl⟩
  refine ⟨nodes, n, h, ?_⟩
  rintro ⟨ftas, -, hftas⟩
  cases hftas with
  | cons hfirst _ =>
    obtain ⟨k, hk⟩ := single_of_preserves (by decide) hfirst.2
    have h₁ := hk _ List.mem_cons_self
    have h₂ := hk _ (List.mem_cons_of_mem _ List.mem_cons_self)
    exact absurd (h₁.trans h₂.symm) (by decide)

end Tigon.Ftacmp.FilterJoin
