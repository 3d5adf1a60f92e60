import Std.Data.String.ToNat
import Tigon.Ftacmp.ScalarExp

/-!
# Splitting expressions between two levels

A query over packets runs at two levels: a low-level query (LFTA) next to the source and a
high-level query (HFTA) that reads the output of the low-level one.  Functions that the low level
may not call stay in the high level.  `splitFtavecSe` finds the largest subexpressions that the low
level can compute, adds them to its select list, and replaces them by references to the new columns.
 With several sources there is one select list for each source that is a PROTOCOL.

An expression that can be computed as a whole from one PROTOCOL source is left to the caller, who
puts it on the select list or moves it to the low level.

## What is here

* `imputeColname_notMem` — new columns get new names.
* `Means` — an expression of the high level reads only columns that the low level provides, and has
  the value of the original expression.
* `splitFtavecSe_spec` — the result of splitting means the original expression.
* `isSome_splitFtavecSe_iff` — when there is a result: a column-free call of a function, as one
  operand of an operator whose other operand may not be computed below, is added to the select list
number `-1`. -/

set_option autoImplicit false

namespace Tigon.Ftacmp.Split

open Parse List

/-! ## Select lists -/

structure SelectElement where
  se : ScalarExp
  name : String

/-- One select list for each source that is a PROTOCOL. -/
abbrev SelectVec := List (Option (List SelectElement))

/-- What the name of a column starts with. -/
def colnameBase : ScalarExp → String
  | .literal _ => "Literal"
  | .param name => "Param_" ++ name
  | .ifaceParam ifp => "Iparam_" ++ ifp.pname
  | .colref cr => cr.field
  | .gbref cr _ => cr.field
  | .gbdef cr _ _ => cr.field
  | .unaryOp _ _ => "Field"
  | .binaryOp _ _ _ => "Field"
  | .aggrStar _ _ => "Cnt"
  | .aggrSe op l _ =>
    match l with
    | .param name => op ++ "_PARAM_" ++ name
    | .ifaceParam ifp => op ++ "_IPARAM_" ++ ifp.pname
    | .colref cr => withoutPrefix op cr.field
    | .gbref cr _ => withoutPrefix op cr.field
    | .gbdef cr _ _ => withoutPrefix op cr.field
    | .aggrStar op' _ => withoutPrefix op op'
    | .aggrSe op' _ _ => withoutPrefix op op'
    | .func op' _ _ _ => op ++ "_" ++ op'
    | .unaryOp _ _ => op ++ "_SE"
    | .binaryOp _ _ _ => op ++ "_SE"
    | .literal _ => op ++ "_"
  | .func op os _ _ =>
    match os with
    | [] => op ++ "_func"
    | .param name :: _ => op ++ "_PARAM_" ++ name
    | .ifaceParam ifp :: _ => op ++ "_IPARAM_" ++ ifp.pname
    | .colref cr :: _ => op ++ "_" ++ cr.field
    | .gbref cr _ :: _ => op ++ "_" ++ cr.field
    | .gbdef cr _ _ :: _ => op ++ "_" ++ cr.field
    | .aggrStar op' _ :: _ => op ++ "_" ++ op'
    | .aggrSe op' _ _ :: _ => op ++ "_" ++ op'
    | .func op' _ _ _ :: _ => op ++ "_" ++ op'
    | .unaryOp _ _ :: _ => op ++ "_SE"
    | .binaryOp _ _ _ :: _ => op ++ "_SE"
    | .literal _ :: _ => op ++ "_"
where
  /-- A name that starts with the name of the aggregate is not given it again. -/
  withoutPrefix (op name : String) : String :=
    if op.toList.isPrefixOf name.toList then name else op ++ "_" ++ name

/-- Numbers are appended until the name is new: the loop over `iter`, at most `fuel` times. -/
def firstNewName (names : List String) (base : String) : Nat → Nat → String → String
  | 0, _, ret => ret
  | fuel + 1, iter, ret =>
    if ret ∈ names then firstNewName names base fuel (iter + 1) (base ++ Nat.repr iter) else ret

def imputeColname (names : List String) (se : ScalarExp) : String :=
  let ret := colnameBase se
  let ret := if ret = "Field" ∧ "Field0" ∉ names then "Field0" else ret
  firstNewName names ret (names.length + 1) 1 ret

/-- The position of the expression on the select list, which is extended if it is new. -/
def addSelectListNodup (l : List SelectElement) (se : ScalarExp) :
    List SelectElement × Nat × Bool :=
  match l.findIdx? fun el ↦ el.se.isEquivalentSe se with
  | some s => (l, s, false)
  | none => (l ++ [⟨se, "NoNameIn:add_select_list_nodup"⟩], l.length, true)

/-- A reference to the column of the select list that has the expression. -/
def refTo (se : ScalarExp) (colname : String) (hTvref : Int) : ScalarExp :=
  match se.gbRef? with
  | some g => .gbref ⟨"", colname, -1, hTvref⟩ g
  | none => .colref ⟨"", colname, -1, hTvref⟩

/-- A reference to an expression that is put on a select list. -/
def makeSelectRef (l : List SelectElement) (se : ScalarExp) (hTvref : Int) :
    ScalarExp × List SelectElement :=
  match addSelectListNodup l se with
  | (l', s, false) => (refTo se ((l'[s]?.map SelectElement.name).getD "") hTvref, l')
  | (l', s, true) =>
    let colname := imputeColname (l'.map SelectElement.name) se
    (refTo se colname hTvref, l'.set s ⟨se, colname⟩)

def listOf (vec : SelectVec) (src : Int) : Option (List SelectElement) :=
  if 0 ≤ src then (vec[src.toNat]?).join else none

/-- A reference to an expression that is put on the select list of a source.  There is no result for
a source without a select list: the code then reads outside of the vector. -/
def makeFtaSeRef (vec : SelectVec) (se : ScalarExp) (hTvref : Int) :
    Option (ScalarExp × SelectVec) :=
  match listOf vec hTvref with
  | none => none
  | some l =>
    some ((makeSelectRef l se hTvref).1, vec.set hTvref.toNat (some (makeSelectRef l se hTvref).2))

/-! ## What the low level may compute -/

/-- Currently, anything goes. -/
def ftaLegalType : Bool := true

/-- Currently, anything goes. -/
def ftaLegalOperation (_op : String) : Bool := true

section

variable (ftaLegal : Nat → Bool)

mutual

/-- Whether the low level may compute an expression. -/
def checkFtaForbiddenSe : ScalarExp → Bool
  | .literal _ => ftaLegalType
  | .param _ => ftaLegalType
  | .colref _ => ftaLegalType
  | .gbref _ _ => ftaLegalType
  | .gbdef _ _ _ => ftaLegalType
  | .ifaceParam _ => true
  | .unaryOp op l => checkFtaForbiddenSe l && ftaLegalOperation op
  | .binaryOp op l r => checkFtaForbiddenSe l && checkFtaForbiddenSe r && ftaLegalOperation op
  | .aggrStar _ _ => true
  | .aggrSe _ _ _ => true
  | .func _ _ _ (some _) => true
  | .func _ os i none => checkFtaForbiddenSeList os && ftaLegal i

def checkFtaForbiddenSeList : List ScalarExp → Bool
  | [] => true
  | o :: os => checkFtaForbiddenSe o && checkFtaForbiddenSeList os

end

def checkFtaForbiddenPr : Predicate → Bool
  | .isIn l lits => checkFtaForbiddenSe ftaLegal l && lits.all fun _ ↦ ftaLegalType
  | .compare l _ r => checkFtaForbiddenSe ftaLegal l && checkFtaForbiddenSe ftaLegal r
  | .unaryOp _ l => checkFtaForbiddenPr l
  | .binaryOp _ l r => checkFtaForbiddenPr l && checkFtaForbiddenPr r
  | .func _ os i => checkFtaForbiddenSeList ftaLegal os && ftaLegal i

end

/-- Only literals and parameters. -/
def isLiteralOrParamOnly : ScalarExp → Bool
  | .literal _ => true
  | .param _ => true
  | .unaryOp _ l => isLiteralOrParamOnly l
  | .binaryOp _ l r => isLiteralOrParamOnly l && isLiteralOrParamOnly r
  | _ => false

/-! ## Splitting -/

/-- No table variable. -/
def splitNotblvar : Int := -1

/-- Several table variables. -/
def splitMixed : Int := -2

def isProtocolSource (colrefSource : Int) (vec : SelectVec) : Bool :=
  (listOf vec colrefSource).isSome

def combineColrefSource (s1 s2 : Int) : Int :=
  if s1 = s2 then s1
  else if s1 = splitNotblvar then s2
  else if s2 = splitNotblvar then s1
  else splitMixed

/-- The result of splitting an expression: the expression for the high level, whether some part of
it may not be computed below, and the table variable of its columns. -/
structure SplitSe where
  se : ScalarExp
  ftaForbidden : Bool
  colrefSource : Int

/-- A reference to a subexpression instead of it, unless it is constant. -/
def refUnlessConstant (vec : SelectVec) (s : SplitSe) : Option (ScalarExp × SelectVec) :=
  if isLiteralOrParamOnly s.se then some (s.se, vec) else makeFtaSeRef vec s.se s.colrefSource

/-- One operand: a reference to it where the code calls for one. -/
def refIf (c : Bool) (vec : SelectVec) (s : SplitSe) : Option (ScalarExp × SelectVec) :=
  if c then refUnlessConstant vec s else some (s.se, vec)

/-- The operands of a function that stays in the high level: those the low level can compute are
replaced. -/
def replaceOperands : List SplitSe → SelectVec → Option (List ScalarExp × SelectVec)
  | [], vec => some ([], vec)
  | s :: ss, vec => do
    let (se, vec) ← refIf (!s.ftaForbidden && isProtocolSource s.colrefSource vec) vec s
    let (ses, vec) ← replaceOperands ss vec
    some (se :: ses, vec)

/-- The operands of a function, replaced if it stays in the high level or its operands have several
sources. -/
def newOperands (c : Bool) (ss : List SplitSe) (vec : SelectVec) :
    Option (List ScalarExp × SelectVec) :=
  if c then replaceOperands ss vec else some (ss.map SplitSe.se, vec)

section

variable (ftaLegal : Nat → Bool)

mutual

/-- Splits an expression.  Aggregates are an internal error. -/
def splitFtavecSe : ScalarExp → SelectVec → Option (SplitSe × SelectVec)
  | .literal lit, vec => some (⟨.literal lit, !ftaLegalType, splitNotblvar⟩, vec)
  | .param name, vec => some (⟨.param name, !ftaLegalType, splitNotblvar⟩, vec)
  | .ifaceParam ifp, vec => some (⟨.ifaceParam ifp, false, ifp.tablevarRef⟩, vec)
  | .colref cr, vec => some (⟨.colref cr, !ftaLegalType, cr.tablevarRef⟩, vec)
  -- evaluated in the high level
  | .gbref cr g, vec => some (⟨.gbref cr g, true, cr.tablevarRef⟩, vec)
  | .gbdef cr g _, vec => some (⟨.gbref cr g, true, cr.tablevarRef⟩, vec)
  | .unaryOp op l, vec => do
    let (a, vec) ← splitFtavecSe l vec
    let thisForbid := !ftaLegalOperation op
    let (l', vec) ←
      refIf (thisForbid && !a.ftaForbidden && isProtocolSource a.colrefSource vec) vec a
    some (⟨.unaryOp op l', thisForbid || a.ftaForbidden, a.colrefSource⟩, vec)
  | .binaryOp op l r, vec => do
    let (a, vec) ← splitFtavecSe l vec
    let (b, vec) ← splitFtavecSe r vec
    let thisForbid := !ftaLegalOperation op
    let src := combineColrefSource a.colrefSource b.colrefSource
    let (l', vec) ←
      refIf (((thisForbid || b.ftaForbidden) && !a.ftaForbidden && isProtocolSource src vec) ||
        (src == splitMixed && !a.ftaForbidden && isProtocolSource a.colrefSource vec)) vec a
    let (r', vec) ←
      refIf (((thisForbid || a.ftaForbidden) && !b.ftaForbidden && isProtocolSource src vec) ||
        (src == splitMixed && !b.ftaForbidden && isProtocolSource b.colrefSource vec)) vec b
    some (⟨.binaryOp op l' r', thisForbid || b.ftaForbidden || a.ftaForbidden, src⟩, vec)
  | .aggrStar _ _, _ => none
  | .aggrSe _ _ _, _ => none
  | .func op os i aggr, vec => do
    let (ss, vec) ← splitFtavecSeList os vec
    let ftaForbidden := ss.any SplitSe.ftaForbidden || !ftaLegal i
    let src := ss.foldl (fun src s ↦ combineColrefSource src s.colrefSource) splitNotblvar
    let (os', vec) ← newOperands (ftaForbidden || src == splitMixed) ss vec
    some (⟨.func op os' i aggr, ftaForbidden, src⟩, vec)

def splitFtavecSeList : List ScalarExp → SelectVec → Option (List SplitSe × SelectVec)
  | [], vec => some ([], vec)
  | o :: os, vec => do
    let (s, vec) ← splitFtavecSe o vec
    let (ss, vec) ← splitFtavecSeList os vec
    some (s :: ss, vec)

end

/-- An operand of a predicate: what the low level can compute as a whole is put on a select list. -/
def splitOperand (se : ScalarExp) (vec : SelectVec) : Option (ScalarExp × SelectVec) := do
  let (s, vec) ← splitFtavecSe ftaLegal se vec
  refIf (!s.ftaForbidden && isProtocolSource s.colrefSource vec) vec s

def splitOperands : List ScalarExp → SelectVec → Option (List ScalarExp × SelectVec)
  | [], vec => some ([], vec)
  | o :: os, vec => do
    let (se, vec) ← splitOperand ftaLegal o vec
    let (ses, vec) ← splitOperands os vec
    some (se :: ses, vec)

/-- Splits a predicate that stays in the high level. -/
def splitFtavecPr : Predicate → SelectVec → Option (Predicate × SelectVec)
  | .isIn l lits, vec => do
    let (l', vec) ← splitOperand ftaLegal l vec
    some (.isIn l' lits, vec)
  | .compare l op r, vec => do
    let (l', vec) ← splitOperand ftaLegal l vec
    let (r', vec) ← splitOperand ftaLegal r vec
    some (.compare l' op r', vec)
  | .unaryOp op l, vec => do
    let (l', vec) ← splitFtavecPr l vec
    some (.unaryOp op l', vec)
  | .binaryOp op l r, vec => do
    let (l', vec) ← splitFtavecPr l vec
    let (r', vec) ← splitFtavecPr r vec
    some (.binaryOp op l' r', vec)
  | .func op os i, vec => do
    let (os', vec) ← splitOperands ftaLegal os vec
    some (.func op os' i, vec)

end

/-! ## Names -/

/-- The names that are tried one after another. -/
def candidate (base : String) : Nat → String
  | 0 => base ++ ""
  | i + 1 => base ++ Nat.repr (i + 1)

theorem candidate_injective (base : String) : Function.Injective (candidate base) := by
  intro i j h
  cases i with
  | zero =>
    cases j with
    | zero => rfl
    | succ j => exact absurd ((String.append_right_inj base).mp h).symm Nat.repr_ne_empty
  | succ i =>
    cases j with
    | zero => exact absurd ((String.append_right_inj base).mp h) Nat.repr_ne_empty
    | succ j => exact Nat.repr_injective ((String.append_right_inj base).mp h)

theorem firstNewName_candidate (names : List String) (base : String) (fuel k : Nat) :
    firstNewName names base fuel (k + 1) (candidate base k) ∉ names ∨
      ∀ j, k ≤ j → j < k + fuel → candidate base j ∈ names := by
  induction fuel generalizing k with
  | zero => exact Or.inr fun j h1 h2 ↦ absurd h2 (by omega)
  | succ fuel ih =>
    rw [firstNewName]
    split
    · rename_i hk
      refine (ih (k + 1)).imp id fun h j h1 h2 ↦ ?_
      rcases Nat.eq_or_lt_of_le h1 with rfl | hlt
      · exact hk
      · exact h j hlt (by omega)
    · rename_i hk
      exact Or.inl hk

/-- **New columns get new names.** -/
theorem imputeColname_notMem (names : List String) (se : ScalarExp) :
    imputeColname names se ∉ names := by
  simp only [imputeColname]
  generalize (if colnameBase se = "Field" ∧ "Field0" ∉ names then "Field0" else colnameBase se) =
    base
  have hcand := firstNewName_candidate names base (names.length + 1) 0
  rw [candidate, String.append_empty, Nat.zero_add, Nat.zero_add] at hcand
  refine hcand.resolve_right fun h ↦ ?_
  have hsub : ((range (names.length + 1)).map (candidate base)) ⊆ names := by
    intro x hx
    obtain ⟨j, hj, rfl⟩ := mem_map.mp hx
    exact h j (Nat.zero_le j) (mem_range.mp hj)
  have hnd : ((range (names.length + 1)).map (candidate base)).Nodup :=
    nodup_range.map (candidate_injective base)
  have hlen := (hnd.subperm hsub).length_le
  rw [length_map, length_range] at hlen
  omega

/-! ## Sources and forbidden parts -/

section Source

variable (ftaLegal : Nat → Bool)

mutual

/-- Some part has to be evaluated in the high level. -/
def seForbidden : ScalarExp → Bool
  | .gbref _ _ => true
  | .gbdef _ _ _ => true
  | .unaryOp _ l => seForbidden l
  | .binaryOp _ l r => seForbidden r || seForbidden l
  | .func _ os i _ => seForbiddenList os || !ftaLegal i
  | _ => false

def seForbiddenList : List ScalarExp → Bool
  | [] => false
  | o :: os => seForbidden o || seForbiddenList os

end

mutual

/-- The table variable of the columns. -/
def seSource : ScalarExp → Int
  | .ifaceParam ifp => ifp.tablevarRef
  | .colref cr => cr.tablevarRef
  | .gbref cr _ => cr.tablevarRef
  | .gbdef cr _ _ => cr.tablevarRef
  | .unaryOp _ l => seSource l
  | .binaryOp _ l r => combineColrefSource (seSource l) (seSource r)
  | .func _ os _ _ => seSourceList splitNotblvar os
  | _ => splitNotblvar

def seSourceList (src : Int) : List ScalarExp → Int
  | [] => src
  | o :: os => seSourceList (combineColrefSource src (seSource o)) os

end

/-- The low level can compute the whole expression, from one PROTOCOL source. -/
def isWhole (prot : Int → Bool) (e : ScalarExp) : Bool :=
  !seForbidden ftaLegal e && prot (seSource e)

mutual

/-- The subexpressions that are put on select lists. -/
def pushed (prot : Int → Bool) : ScalarExp → List ScalarExp
  | .unaryOp op l =>
    if isWhole ftaLegal prot (.unaryOp op l) then [.unaryOp op l] else pushed prot l
  | .binaryOp op l r =>
    if isWhole ftaLegal prot (.binaryOp op l r) then [.binaryOp op l r]
    else pushed prot l ++ pushed prot r
  | .func op os i none =>
    if isWhole ftaLegal prot (.func op os i none) then [.func op os i none] else pushedList prot os
  | e => if isWhole ftaLegal prot e then [e] else []

def pushedList (prot : Int → Bool) : List ScalarExp → List ScalarExp
  | [] => []
  | o :: os => pushed prot o ++ pushedList prot os

end

def prPushed (prot : Int → Bool) : Predicate → List ScalarExp
  | .compare l _ r => pushed ftaLegal prot l ++ pushed ftaLegal prot r
  | .isIn l _ => pushed ftaLegal prot l
  | .unaryOp _ l => prPushed prot l
  | .binaryOp _ l r => prPushed prot l ++ prPushed prot r
  | .func _ os _ => os.flatMap (pushed ftaLegal prot)

theorem pushedList_eq_flatMap (prot : Int → Bool) (os : List ScalarExp) :
    pushedList ftaLegal prot os = os.flatMap (pushed ftaLegal prot) := by
  induction os with
  | nil => rfl
  | cons o os ih => rw [pushedList, ih, flatMap_cons]

theorem pushed_of_isWhole {prot : Int → Bool} {e : ScalarExp} (h : isWhole ftaLegal prot e = true) :
    pushed ftaLegal prot e = [e] := by
  cases e with
  | func op os i a => cases a <;> simp [pushed, h]
  | _ => simp [pushed, h]

end Source

/-! ## The two levels -/

/-- A row of a low-level query: its columns by name. -/
abbrev Row (V : Type) := List (String × V)

section Levels

variable {V : Type}

/-- The values of the leaves where every table variable has a tuple. -/
def sourceEnv (ρ : Env V) (t : Int → String → V) : Env V :=
  { ρ with col := fun cr ↦ t cr.tablevarRef cr.field }

/-- The values of the leaves in the high level: table variables with a low-level query have a row of
it. Parameters of their interfaces are not known there. -/
def hftaEnv (ρ : Env V) (rows : Int → Option (Row V)) (junk : V) : Env V :=
  { ρ with
    col := fun cr ↦
      match rows cr.tablevarRef with
      | some row => (row.lookup cr.field).getD junk
      | none => ρ.col cr
    ifp := fun ifp ↦
      match rows ifp.tablevarRef with
      | some _ => junk
      | none => ρ.ifp ifp }

/-- The row that a select list makes of a tuple. -/
def outputRow (I : Interp V) (ρ : Env V) (l : List SelectElement) : Row V :=
  l.map fun el ↦ (el.name, el.se.eval I ρ)

def rowsOf (I : Interp V) (ρ : Env V) (vec : SelectVec) (h : Int) : Option (Row V) :=
  (listOf vec h).map (outputRow I ρ)

/-- A leaf of the high level is provided: columns of a low-level query are on its select list. -/
def Provided (vec : SelectVec) : ScalarExp → Prop
  | .colref cr => ∀ l, listOf vec cr.tablevarRef = some l → cr.field ∈ l.map SelectElement.name
  | .ifaceParam ifp => listOf vec ifp.tablevarRef = none
  | .gbdef _ _ _ => False
  | _ => True

/-- A column of a low-level query that has one of the expressions `pushed`. -/
def IsColumn (vec : SelectVec) (pushed : List ScalarExp) : ScalarExp → Prop
  | .colref cr => ∃ l, listOf vec cr.tablevarRef = some l ∧
      ∃ el ∈ l, el.name = cr.field ∧
        ∃ p ∈ pushed, seSource p = cr.tablevarRef ∧ el.se.isEquivalentSe p = true
  | _ => False

/-- A leaf that does not come from a source with a low-level query. -/
def Kept (vec : SelectVec) : ScalarExp → Prop
  | .colref cr => listOf vec cr.tablevarRef = none
  | .ifaceParam ifp => listOf vec ifp.tablevarRef = none
  | _ => True

/-- A leaf of the high level is one of the `old` leaves or a column of a low-level query, and is
provided. -/
def Known (vec : SelectVec) (old pushed : List ScalarExp) (x : ScalarExp) : Prop :=
  Provided vec x ∧ ((x ∈ old ∧ Kept vec x) ∨ IsColumn vec pushed x)

theorem Known.subset {vec : SelectVec} {old old' new new' : List ScalarExp} {x : ScalarExp}
    (h : Known vec old new x) (hs : old ⊆ old') (hn : new ⊆ new') : Known vec old' new' x := by
  refine ⟨h.1, h.2.imp (fun hx ↦ ⟨hs hx.1, hx.2⟩) fun hx ↦ ?_⟩
  cases x with
  | colref cr =>
    obtain ⟨l, hl, el, hel, hname, p, hp, hsrc, heq⟩ := hx
    exact ⟨l, hl, el, hel, hname, p, hn hp, hsrc, heq⟩
  | _ => exact hx.elim

/-- An expression of the high level reads what is known there, and has the value of an expression
over the sources. -/
def Means (ftaLegal : Nat → Bool) (I : Interp V) (vec : SelectVec) (e' e : ScalarExp) : Prop :=
  (∀ x ∈ e'.leaves, Known vec e.leaves (pushed ftaLegal (fun s ↦ isProtocolSource s vec) e) x) ∧
    ∀ (ρ : Env V) (t : Int → String → V) (junk : V),
      e'.eval I (hftaEnv (sourceEnv ρ t) (rowsOf I (sourceEnv ρ t) vec) junk) =
        e.eval I (sourceEnv ρ t)

end Levels

/-! ## Growing select lists -/

/-- Select lists only grow. -/
structure Extends (v v' : SelectVec) : Prop where
  none_iff : ∀ h, listOf v' h = none ↔ listOf v h = none
  prefix_of : ∀ {h l l'}, listOf v h = some l → listOf v' h = some l' → l <+: l'

theorem Extends.refl (v : SelectVec) : Extends v v :=
  ⟨fun _ ↦ Iff.rfl, fun h1 h2 ↦ by
    rw [h1] at h2
    cases h2
    exact prefix_refl _⟩

theorem Extends.trans {v v' v'' : SelectVec} (h : Extends v v') (h' : Extends v' v'') :
    Extends v v'' := by
  refine ⟨fun k ↦ (h'.none_iff k).trans (h.none_iff k), fun {k l l''} h1 h2 ↦ ?_⟩
  cases h3 : listOf v' k with
  | none =>
    rw [(h.none_iff k).mp h3] at h1
    cases h1
  | some l' => exact (h.prefix_of h1 h3).trans (h'.prefix_of h3 h2)

variable {v v' : SelectVec}

theorem Extends.isProtocolSource (h : Extends v v') (s : Int) :
    isProtocolSource s v' = isProtocolSource s v := by
  rw [Split.isProtocolSource, Split.isProtocolSource, Bool.eq_iff_iff, Option.isSome_iff_ne_none,
    Option.isSome_iff_ne_none, ne_eq, ne_eq, h.none_iff]

theorem isProtocolSource_congr (h : Extends v v') :
    (fun s ↦ isProtocolSource s v') = fun s ↦ isProtocolSource s v := funext h.isProtocolSource

theorem lookup_map_append {V : Type} (f : SelectElement → V) (l k : List SelectElement) {n : String}
    (hn : n ∈ l.map SelectElement.name) :
    ((l ++ k).map fun el ↦ (el.name, f el)).lookup n =
    (l.map fun el ↦ (el.name, f el)).lookup n := by
  induction l with
  | nil => cases hn
  | cons el l ih =>
    rw [cons_append, map_cons, map_cons, lookup_cons, lookup_cons]
    cases heq : n == el.name with
    | true => rfl
    | false =>
      refine ih ((mem_cons.mp hn).resolve_left fun h ↦ ?_)
      rw [h, beq_self_eq_true] at heq
      cases heq

theorem Provided.mono {x : ScalarExp} (hp : Provided v x) (h : Extends v v') :
    Provided v' x := by
  cases x with
  | colref cr =>
    intro l' hl'
    cases hl : listOf v cr.tablevarRef with
    | none =>
      rw [(h.none_iff _).mpr hl] at hl'
      cases hl'
    | some l => exact map_subset _ (h.prefix_of hl hl').subset (hp l hl)
  | ifaceParam ifp => exact (h.none_iff _).mpr hp
  | gbdef cr g d => exact hp.elim
  | _ => trivial

theorem Known.mono {old new : List ScalarExp} {x : ScalarExp}
    (hk : Known v old new x) (h : Extends v v') : Known v' old new x := by
  refine ⟨hk.1.mono h, hk.2.imp (fun hc ↦ ⟨hc.1, ?_⟩) fun hc ↦ ?_⟩
  · cases x with
    | colref cr => exact (h.none_iff _).mpr hc.2
    | ifaceParam ifp => exact (h.none_iff _).mpr hc.2
    | _ => trivial
  cases x with
  | colref cr =>
    obtain ⟨l, hl, el, hel, hrest⟩ := hc
    cases hl' : listOf v' cr.tablevarRef with
    | none =>
      rw [(h.none_iff _).mp hl'] at hl
      cases hl
    | some l' => exact ⟨l', hl', el, (h.prefix_of hl hl').subset hel, hrest⟩
  | _ => exact hc.elim

/-- New columns do not change the leaves that are provided. -/
theorem Provided.eval_eq {V : Type} {I : Interp V} {x : ScalarExp}
    (hp : Provided v x) (hleaf : x.isLeaf = true) (h : Extends v v') (ρ : Env V) (junk : V) :
    x.eval I (hftaEnv ρ (rowsOf I ρ v') junk) = x.eval I (hftaEnv ρ (rowsOf I ρ v) junk) := by
  cases x with
  | colref cr =>
    cases hl : listOf v cr.tablevarRef with
    | none =>
      have hl' := (h.none_iff _).mpr hl
      simp only [ScalarExp.eval, hftaEnv, rowsOf, hl, hl', Option.map_none]
    | some l =>
      cases hl' : listOf v' cr.tablevarRef with
      | none =>
        rw [(h.none_iff _).mp hl'] at hl
        cases hl
      | some l' =>
        obtain ⟨k, rfl⟩ := h.prefix_of hl hl'
        simp only [ScalarExp.eval, hftaEnv, rowsOf, hl, hl', Option.map_some, outputRow]
        rw [lookup_map_append _ l k (hp l hl)]
  | ifaceParam ifp =>
    have hl' := (h.none_iff _).mpr hp
    simp only [ScalarExp.eval, hftaEnv, rowsOf, hl', Option.map_none]
    rw [show listOf v ifp.tablevarRef = none from hp, Option.map_none]
  | gbdef cr g d => exact hp.elim
  | unaryOp op l => cases hleaf
  | binaryOp op l r => cases hleaf
  | func op os i a =>
    cases a with
    | none => cases hleaf
    | some a => rfl
  | _ => rfl

/-- What an expression of the high level means stays when select lists grow. -/
theorem Means.mono {ftaLegal : Nat → Bool} {V : Type} {I : Interp V}
    {e' e : ScalarExp} (hm : Means ftaLegal I v e' e) (h : Extends v v') :
      Means ftaLegal I v' e' e := by
  refine ⟨fun x hx ↦ ?_, fun ρ t junk ↦ ?_⟩
  · rw [isProtocolSource_congr h]
    exact (hm.1 x hx).mono h
  · rw [← hm.2 ρ t junk]
    exact ScalarExp.eval_congr _ fun x hx ↦
      (hm.1 x hx).1.eval_eq (ScalarExp.isLeaf_of_mem_leaves hx) h _ _

/-! ## References -/

/-- A leaf that the low-level query of source `h` has: group-by variables and aggregates are not. -/
def LowLeaf (h : Int) : ScalarExp → Prop
  | .literal _ => True
  | .param _ => True
  | .ifaceParam ifp => ifp.tablevarRef = h
  | .colref cr => cr.tablevarRef = h
  | _ => False

section Refs

variable (ftaLegal : Nat → Bool) (P : ScalarExp → Prop)

/-- An expression that the low-level query of source `h` can compute, with leaves that have the
property `P` of the leaves of the query. -/
def Low (h : Int) (e : ScalarExp) : Prop :=
  (∀ x ∈ e.leaves, LowLeaf h x ∧ P x) ∧ checkFtaForbiddenSe ftaLegal e = true

/-- The names and the expressions on a select list differ, and the low level can compute what is on
it. -/
structure ListOk (h : Int) (l : List SelectElement) : Prop where
  nodup : (l.map SelectElement.name).Nodup
  distinct : l.Pairwise fun el el' ↦ el.se.isEquivalentSe el'.se = false
  low : ∀ el ∈ l, Low ftaLegal P h el.se

def VecOk (vec : SelectVec) : Prop := ∀ h l, listOf vec h = some l → ListOk ftaLegal P h l

variable {ftaLegal} {P} {V : Type}

theorem eval_eq_of_low {h : Int} {e e' : ScalarExp} (he : ∀ x ∈ e.leaves, LowLeaf h x ∧ P x)
    (he' : ∀ x ∈ e'.leaves, LowLeaf h x ∧ P x) (heq : e.isEquivalentSe e' = true)
    (I : Interp V) (ρ : Env V)
    (t : Int → String → V) : e.eval I (sourceEnv ρ t) = e'.eval I (sourceEnv ρ t) := by
  have haggr : ∀ x, LowLeaf h x → x.isAggr = false ∧ x.gbRef? = none := by
    intro x hx
    cases x with
    | literal lit => exact ⟨rfl, rfl⟩
    | param name => exact ⟨rfl, rfl⟩
    | ifaceParam ifp => exact ⟨rfl, rfl⟩
    | colref cr => exact ⟨rfl, rfl⟩
    | _ => exact hx.elim
  refine ScalarExp.eval_eq_of_isEquivalentSe heq (fun x hx ↦ (haggr x (he x hx).1).1)
    (fun x hx ↦ (haggr x (he' x hx).1).1) (fun x hx ↦ (haggr x (he x hx).1).2) ?_
  intro c hc c' hc' hcc
  have h1 : c.tablevarRef = h := (he _ hc).1
  have h2 : c'.tablevarRef = h := (he' _ hc').1
  simp only [Colref.isEquivalent, Bool.and_eq_true, beq_iff_eq] at hcc
  simp only [sourceEnv]
  rw [h1, h2, hcc.2]

theorem lookup_of_nodup (f : SelectElement → V) {l : List SelectElement}
    (hn : (l.map SelectElement.name).Nodup) {el : SelectElement} (hel : el ∈ l) :
    (l.map fun el ↦ (el.name, f el)).lookup el.name = some (f el) := by
  induction l with
  | nil => cases hel
  | cons x l ih =>
    rw [map_cons, nodup_cons] at hn
    rw [map_cons, lookup_cons]
    rcases mem_cons.mp hel with rfl | hel
    · rw [beq_self_eq_true]
    · have hne : (el.name == x.name) = false := by
        rw [beq_eq_false_iff_ne]
        intro heq
        exact hn.1 (heq ▸ mem_map_of_mem hel)
      rw [hne]
      exact ih hn.2 hel

/-- **A reference to an expression on a select list**: the list only grows, and the column that the
reference reads has the value of the expression. -/
theorem makeSelectRef_spec {h : Int} {l : List SelectElement} {se : ScalarExp}
    (hl : ListOk ftaLegal P h l) (hse : Low ftaLegal P h se) :
    l <+: (makeSelectRef l se h).2 ∧ ListOk ftaLegal P h (makeSelectRef l se h).2 ∧
      ∃ el ∈ (makeSelectRef l se h).2, (makeSelectRef l se h).1 = .colref ⟨"", el.name, -1, h⟩ ∧
        el.se.isEquivalentSe se = true ∧
        ∀ (I : Interp V) (ρ : Env V) (t : Int → String → V),
          (outputRow I (sourceEnv ρ t) (makeSelectRef l se h).2).lookup el.name =
            some (se.eval I (sourceEnv ρ t)) := by
  have hgb : se.gbRef? = none := by
    cases se with
    | gbref cr g => exact (hse.1 (.gbref cr g) (by simp [ScalarExp.leaves])).1.elim
    | gbdef cr g d => exact (hse.1 (.gbdef cr g d) (by simp [ScalarExp.leaves])).1.elim
    | _ => rfl
  cases hfind : l.findIdx? fun el ↦ el.se.isEquivalentSe se with
  | some s =>
    obtain ⟨hs, heq, -⟩ := findIdx?_eq_some_iff_getElem.mp hfind
    have hval : makeSelectRef l se h = (.colref ⟨"", l[s].name, -1, h⟩, l) := by
      simp only [makeSelectRef, addSelectListNodup, hfind, refTo, hgb, getElem?_eq_getElem hs,
        Option.map_some, Option.getD_some]
    rw [hval]
    refine ⟨prefix_refl _, hl, l[s], getElem_mem hs, rfl, heq, ?_⟩
    intro I ρ t
    rw [outputRow, lookup_of_nodup _ hl.nodup (getElem_mem hs),
      eval_eq_of_low (hl.low _ (getElem_mem hs)).1 hse.1 heq]
  | none =>
    have hnew := imputeColname_notMem
      ((l ++ [SelectElement.mk se "NoNameIn:add_select_list_nodup"]).map SelectElement.name) se
    generalize hname : imputeColname
      ((l ++ [SelectElement.mk se "NoNameIn:add_select_list_nodup"]).map SelectElement.name)
        se = name at hnew
    have hval : makeSelectRef l se h =
      (.colref ⟨"", name, -1, h⟩, l ++ [SelectElement.mk se name]) := by
      simp only [makeSelectRef, addSelectListNodup, hfind, refTo, hgb, hname]
      simp
    have hnotin : name ∉ l.map SelectElement.name := by
      rw [map_append] at hnew
      exact fun hmem ↦ hnew (mem_append_left _ hmem)
    have hnodup : ((l ++ [SelectElement.mk se name]).map SelectElement.name).Nodup := by
      rw [map_append, nodup_append]
      refine ⟨hl.nodup, nodup_singleton _, fun a ha b hb ↦ ?_⟩
      rintro rfl
      rw [mem_singleton.mp hb] at ha
      exact hnotin ha
    have hmem : SelectElement.mk se name ∈ l ++ [SelectElement.mk se name] :=
      mem_append_right _ (mem_singleton_self _)
    rw [hval]
    have hdistinct : (l ++ [SelectElement.mk se name]).Pairwise
        fun el el' ↦ el.se.isEquivalentSe el'.se = false := by
      rw [pairwise_append]
      refine ⟨hl.distinct, pairwise_singleton _ _, fun a ha b hb ↦ ?_⟩
      rw [mem_singleton.mp hb]
      simpa using findIdx?_eq_none_iff.mp hfind a ha
    refine ⟨prefix_append _ _, ⟨hnodup, hdistinct, fun el hel ↦ ?_⟩, ⟨se, name⟩, hmem, rfl,
      (ScalarExp.isEquivalentSe_iff _ _).mpr rfl, ?_⟩
    · rcases mem_append.mp hel with hel | hel
      · exact hl.low el hel
      · rw [mem_singleton.mp hel]
        exact hse
    · intro I ρ t
      exact lookup_of_nodup (fun el ↦ el.se.eval I (sourceEnv ρ t)) hnodup hmem

theorem listOf_set {vec : SelectVec} {h : Int} (hh : (listOf vec h).isSome = true)
    (l' : List SelectElement) (k : Int) :
    listOf (vec.set h.toNat (some l')) k = if k = h then some l' else listOf vec k := by
  simp only [listOf] at hh ⊢
  split at hh
  · rename_i hpos
    split
    · rename_i hk
      rw [getElem?_set]
      by_cases hkh : k = h
      · subst hkh
        have hlt : k.toNat < vec.length := by
          by_contra hge
          rw [getElem?_eq_none (by omega)] at hh
          cases hh
        simp [hlt]
      · have hne : h.toNat ≠ k.toNat := by omega
        rw [if_neg hne, if_neg hkh]
    · rename_i hk
      have hkh : k ≠ h := by omega
      rw [if_neg hkh]
  · cases hh

/-- A reference to an expression that is put on the select list of its source means the
expression. -/
theorem makeFtaSeRef_spec (I : Interp V) {vec vec' : SelectVec} {h : Int} {se e' : ScalarExp}
    (hv : VecOk ftaLegal P vec) (hse : Low ftaLegal P h se) (hsrc : seSource se = h)
    (hwhole : isWhole ftaLegal (fun s ↦ isProtocolSource s vec) se = true)
    (hr : makeFtaSeRef vec se h = some (e', vec')) :
    Extends vec vec' ∧ VecOk ftaLegal P vec' ∧ Means ftaLegal I vec' e' se := by
  rw [makeFtaSeRef] at hr
  split at hr
  · cases hr
  · rename_i l hl
    rw [Option.some.injEq, Prod.mk.injEq] at hr
    obtain ⟨rfl, rfl⟩ := hr
    obtain ⟨hpre, hok, el, hel, href, heq, hlook⟩ := makeSelectRef_spec (V := V) (hv h l hl) hse
    have hset := listOf_set (show (listOf vec h).isSome = true by rw [hl]; rfl)
      (makeSelectRef l se h).2
    have hext : Extends vec (vec.set h.toNat (some (makeSelectRef l se h).2)) := by
      refine ⟨fun k ↦ ?_, fun {k l1 l2} h1 h2 ↦ ?_⟩
      · rw [hset]
        split
        · rename_i hk
          simp [hk, hl]
        · exact Iff.rfl
      · rw [hset] at h2
        split at h2
        · rename_i hk
          rw [hk, hl] at h1
          cases h1
          cases h2
          exact hpre
        · rw [h1] at h2
          cases h2
          exact prefix_refl _
    refine ⟨hext, fun k l2 h2 ↦ ?_, ?_, ?_⟩
    · rw [hset] at h2
      split at h2
      · rename_i hk
        cases h2
        exact hk ▸ hok
      · exact hv k l2 h2
    · rw [href]
      intro x hx
      cases mem_singleton.mp hx
      rw [isProtocolSource_congr hext, pushed_of_isWhole ftaLegal hwhole]
      refine ⟨fun l2 h2 ↦ ?_, Or.inr ⟨_, by rw [hset, if_pos rfl], el, hel, rfl, se,
        mem_singleton_self _, hsrc, heq⟩⟩
      rw [hset, if_pos rfl] at h2
      cases h2
      exact mem_map_of_mem hel
    · intro ρ t junk
      rw [href]
      simp only [ScalarExp.eval, hftaEnv, rowsOf, hset, if_true, Option.map_some]
      rw [hlook, Option.getD_some]

end Refs

/-! ## Low expressions -/

section Source

variable (ftaLegal : Nat → Bool) {P : ScalarExp → Prop}

/-- A leaf that splitting handles: columns are bound to table variables, and there are no
aggregates. -/
def SplitLeaf : ScalarExp → Prop
  | .literal _ => True
  | .param _ => True
  | .ifaceParam ifp => 0 ≤ ifp.tablevarRef
  | .colref cr => 0 ≤ cr.tablevarRef
  | .gbref _ _ => True
  | _ => False

theorem combineColrefSource_cases (a b : Int) :
    combineColrefSource a b = splitMixed ∨
      ((a = splitNotblvar ∨ a = combineColrefSource a b) ∧
        (b = splitNotblvar ∨ b = combineColrefSource a b)) := by
  simp only [combineColrefSource]
  split_ifs with h1 h2 h3
  · exact Or.inr ⟨Or.inr rfl, Or.inr h1.symm⟩
  · exact Or.inr ⟨Or.inl h2, Or.inr rfl⟩
  · exact Or.inr ⟨Or.inr rfl, Or.inl h3⟩
  · exact Or.inl rfl

theorem seSourceList_cases (os : List ScalarExp) (src : Int) :
    seSourceList src os = splitMixed ∨
      ((src = splitNotblvar ∨ src = seSourceList src os) ∧
        ∀ o ∈ os, seSource o = splitNotblvar ∨ seSource o = seSourceList src os) := by
  induction os generalizing src with
  | nil => exact Or.inr ⟨Or.inr rfl, fun o ho ↦ by cases ho⟩
  | cons o os ih =>
    rw [seSourceList]
    rcases ih (combineColrefSource src (seSource o)) with h | ⟨h1, h2⟩
    · exact Or.inl h
    · rcases combineColrefSource_cases src (seSource o) with h | ⟨h3, h4⟩
      · left
        rw [h] at h1 ⊢
        rcases h1 with h1 | h1
        · exact absurd h1 (by decide)
        · exact h1.symm
      · right
        rcases h1 with h1 | h1
        · rw [h1] at h3 h4
          refine ⟨Or.inl (h3.elim id id), fun x hx ↦ ?_⟩
          rcases mem_cons.mp hx with rfl | hx
          · exact Or.inl (h4.elim id id)
          · rw [h1] at h2
            rw [h1]
            exact h2 x hx
        · rw [← h1]
          refine ⟨h3, fun x hx ↦ ?_⟩
          rcases mem_cons.mp hx with rfl | hx
          · exact h4
          · have := h2 x hx
            rwa [← h1] at this

theorem lowLeaf_of_source {x : ScalarExp} {h s : Int} (hx : LowLeaf h x) (hs : SplitLeaf x)
    (heq : h = splitNotblvar ∨ h = s) : LowLeaf s x := by
  rcases heq with rfl | rfl
  · cases x with
    | colref cr =>
      have h1 : cr.tablevarRef = -1 := hx
      have h2 : 0 ≤ cr.tablevarRef := hs
      omega
    | ifaceParam ifp =>
      have h1 : ifp.tablevarRef = -1 := hx
      have h2 : 0 ≤ ifp.tablevarRef := hs
      omega
    | literal lit => trivial
    | param name => trivial
    | _ => exact hx.elim
  · exact hx

theorem seForbiddenList_eq_false_iff {os : List ScalarExp} :
    seForbiddenList ftaLegal os = false ↔ ∀ o ∈ os, seForbidden ftaLegal o = false := by
  induction os with
  | nil => simp [seForbiddenList]
  | cons o os ih => rw [seForbiddenList, Bool.or_eq_false_iff, ih, forall_mem_cons]

theorem checkFtaForbiddenSeList_eq_true_iff {os : List ScalarExp} :
    checkFtaForbiddenSeList ftaLegal os = true ↔
      ∀ o ∈ os, checkFtaForbiddenSe ftaLegal o = true := by
  induction os with
  | nil => simp [checkFtaForbiddenSeList]
  | cons o os ih => rw [checkFtaForbiddenSeList, Bool.and_eq_true, ih, forall_mem_cons]

/-- An expression that has no forbidden part and one source is one that the low level can
compute. -/
theorem low_of_seForbidden_eq_false {e : ScalarExp} (he : ∀ x ∈ e.leaves, SplitLeaf x ∧ P x)
    (hf : seForbidden ftaLegal e = false) (hs : seSource e ≠ splitMixed) :
    Low ftaLegal P (seSource e) e := by
  induction e with
  | literal lit =>
    exact ⟨fun x hx ↦ ⟨by cases mem_singleton.mp hx; trivial, (he x hx).2⟩, rfl⟩
  | param name =>
    exact ⟨fun x hx ↦ ⟨by cases mem_singleton.mp hx; trivial, (he x hx).2⟩, rfl⟩
  | ifaceParam ifp =>
    exact ⟨fun x hx ↦ ⟨by cases mem_singleton.mp hx; rfl, (he x hx).2⟩, rfl⟩
  | colref cr =>
    exact ⟨fun x hx ↦ ⟨by cases mem_singleton.mp hx; rfl, (he x hx).2⟩, rfl⟩
  | gbref cr g => cases hf
  | gbdef cr g d => cases hf
  | unaryOp op l ih =>
    obtain ⟨h1, h2⟩ := ih he hf hs
    exact ⟨h1, by rw [checkFtaForbiddenSe, h2]; rfl⟩
  | binaryOp op l r ihl ihr =>
    rw [seForbidden, Bool.or_eq_false_iff] at hf
    rw [ScalarExp.leaves] at he
    rw [seSource] at hs ⊢
    obtain ⟨h1, h2⟩ := (combineColrefSource_cases (seSource l) (seSource r)).resolve_left hs
    have hl : seSource l ≠ splitMixed := by
      rcases h1 with h1 | h1
      · rw [h1]; decide
      · rwa [h1]
    have hr : seSource r ≠ splitMixed := by
      rcases h2 with h2 | h2
      · rw [h2]; decide
      · rwa [h2]
    obtain ⟨hl1, hl2⟩ := ihl (fun x hx ↦ he x (mem_append_left _ hx)) hf.2 hl
    obtain ⟨hr1, hr2⟩ := ihr (fun x hx ↦ he x (mem_append_right _ hx)) hf.1 hr
    refine ⟨fun x hx ↦ ?_, by rw [checkFtaForbiddenSe, hl2, hr2]; rfl⟩
    rcases mem_append.mp hx with hx' | hx'
    · exact ⟨lowLeaf_of_source (hl1 x hx').1 (he x hx).1 h1, (he x hx).2⟩
    · exact ⟨lowLeaf_of_source (hr1 x hx').1 (he x hx).1 h2, (he x hx).2⟩
  | aggrStar op a => exact (he (.aggrStar op a) (by simp [ScalarExp.leaves])).1.elim
  | aggrSe op l a ih => exact (he (.aggrSe op l a) (by simp [ScalarExp.leaves])).1.elim
  | func op os i a ih =>
    cases a with
    | some a => exact (he (.func op os i (some a)) (by simp [ScalarExp.leaves])).1.elim
    | none =>
      rw [seForbidden, Bool.or_eq_false_iff, seForbiddenList_eq_false_iff] at hf
      rw [ScalarExp.leaves, ScalarExp.leavesList_eq_flatMap] at he
      rw [seSource] at hs ⊢
      have hsrc := ((seSourceList_cases os splitNotblvar).resolve_left hs).2
      have hop : ∀ o ∈ os, Low ftaLegal P (seSource o) o := by
        intro o ho
        refine ih o ho (fun x hx ↦ he x (mem_flatMap.mpr ⟨o, ho, hx⟩)) (hf.1 o ho) ?_
        rcases hsrc o ho with h | h
        · rw [h]; decide
        · rwa [h]
      refine ⟨fun x hx ↦ ?_, ?_⟩
      · have hx2 : x ∈ os.flatMap ScalarExp.leaves := by
          rwa [ScalarExp.leaves, ScalarExp.leavesList_eq_flatMap] at hx
        obtain ⟨o, ho, hx3⟩ := mem_flatMap.mp hx2
        exact ⟨lowLeaf_of_source ((hop o ho).1 x hx3).1 (he x hx2).1 (hsrc o ho), (he x hx2).2⟩
      · rw [checkFtaForbiddenSe, Bool.and_eq_true, checkFtaForbiddenSeList_eq_true_iff]
        exact ⟨fun o ho ↦ (hop o ho).2, by simpa using hf.2⟩

/-- The columns of an expression over one source come from it, if there are any. -/
theorem seSource_eq_or {h : Int} {e : ScalarExp} (he : ∀ x ∈ e.leaves, LowLeaf h x) :
    seSource e = h ∨ seSource e = splitNotblvar := by
  have hcomb : ∀ {s t : Int}, s = h ∨ s = splitNotblvar → t = h ∨ t = splitNotblvar →
      combineColrefSource s t = h ∨ combineColrefSource s t = splitNotblvar := by
    intro s t hs ht
    rcases hs with rfl | rfl
    · rcases ht with rfl | rfl
      · exact Or.inl (if_pos rfl)
      · left
        simp only [combineColrefSource]
        split_ifs <;> rfl
    · simp only [combineColrefSource]
      split_ifs with h1
      · exact Or.inr rfl
      · exact ht
  induction e with
  | literal lit => exact Or.inr rfl
  | param name => exact Or.inr rfl
  | ifaceParam ifp => exact Or.inl (he (.ifaceParam ifp) (by simp [ScalarExp.leaves]))
  | colref cr => exact Or.inl (he (.colref cr) (by simp [ScalarExp.leaves]))
  | gbref cr g => exact (he (.gbref cr g) (by simp [ScalarExp.leaves])).elim
  | gbdef cr g d ih => exact (he (.gbdef cr g d) (by simp [ScalarExp.leaves])).elim
  | unaryOp op l ih => exact ih he
  | binaryOp op l r ihl ihr =>
    exact hcomb (ihl fun x hx ↦ he x (mem_append_left _ hx))
      (ihr fun x hx ↦ he x (mem_append_right _ hx))
  | aggrStar op a => exact Or.inr rfl
  | aggrSe op l a ih => exact Or.inr rfl
  | func op os i a ih =>
    cases a with
    | some a => exact (he (.func op os i (some a)) (by simp [ScalarExp.leaves])).elim
    | none =>
      rw [ScalarExp.leaves, ScalarExp.leavesList_eq_flatMap] at he
      have hfold : ∀ (os : List ScalarExp) (src : Int),
          (∀ o ∈ os, seSource o = h ∨ seSource o = splitNotblvar) → src = h ∨ src = splitNotblvar →
            seSourceList src os = h ∨ seSourceList src os = splitNotblvar := by
        intro os
        induction os with
        | nil => exact fun src _ h ↦ h
        | cons o os ihos =>
          intro src hos hsrc
          exact ihos _ (fun x hx ↦ hos x (mem_cons_of_mem _ hx))
            (hcomb hsrc (hos o mem_cons_self))
      exact hfold os splitNotblvar (fun o ho ↦ ih o ho fun x hx ↦
        he x (mem_flatMap.mpr ⟨o, ho, hx⟩)) (Or.inr rfl)

theorem leaves_subset_of_mem_pushed {prot : Int → Bool} {p e : ScalarExp}
    (h : p ∈ pushed ftaLegal prot e) : p.leaves ⊆ e.leaves := by
  have hself : ∀ {c : Bool} {e : ScalarExp}, (p ∈ if c then [e] else []) → p.leaves ⊆ e.leaves := by
    intro c e hp
    split at hp
    · rw [mem_singleton.mp hp]
      exact List.Subset.refl _
    · cases hp
  induction e with
  | unaryOp op l ih =>
    rw [pushed] at h
    split at h
    · rw [mem_singleton.mp h]
      exact List.Subset.refl _
    · exact ih h
  | binaryOp op l r ihl ihr =>
    rw [pushed] at h
    split at h
    · rw [mem_singleton.mp h]
      exact List.Subset.refl _
    · rcases mem_append.mp h with h | h
      · exact List.Subset.trans (ihl h) (subset_append_left _ _)
      · exact List.Subset.trans (ihr h) (subset_append_right _ _)
  | func op os i a ih =>
    cases a with
    | none =>
      rw [pushed] at h
      split at h
      · rw [mem_singleton.mp h]
        exact List.Subset.refl _
      · rw [pushedList_eq_flatMap] at h
        obtain ⟨o, ho, hp⟩ := mem_flatMap.mp h
        rw [ScalarExp.leaves, ScalarExp.leavesList_eq_flatMap]
        exact fun x hx ↦ mem_flatMap.mpr ⟨o, ho, ih o ho hp hx⟩
    | some a =>
      simp only [pushed] at h
      exact hself h
  | _ =>
    simp only [pushed] at h
    exact hself h

theorem seSource_eq_of_isLiteralOrParamOnly {e : ScalarExp} (h : isLiteralOrParamOnly e = true) :
    seSource e = splitNotblvar := by
  induction e with
  | unaryOp op l ih => exact ih h
  | binaryOp op l r ihl ihr =>
    rw [isLiteralOrParamOnly, Bool.and_eq_true] at h
    rw [seSource, ihl h.1, ihr h.2]
    rfl
  | literal lit => rfl
  | param name => rfl
  | _ => cases h

end Source

/-! ## What splitting gives -/

section Spec

variable (ftaLegal : Nat → Bool) {P : ScalarExp → Prop} {V : Type} (I : Interp V)

/-- The result of splitting `e`, with the select lists as they are.  If the caller has nothing left
to do, it means `e`; if nothing was replaced, it is `e`. -/
structure SplitOf (vec : SelectVec) (e : ScalarExp) (s : SplitSe) : Prop where
  forbidden : s.ftaForbidden = seForbidden ftaLegal e
  source : s.colrefSource = seSource e
  whole : s.ftaForbidden = false → s.colrefSource ≠ splitMixed → s.se = e
  means : s.ftaForbidden = true ∨ isProtocolSource s.colrefSource vec = false →
    Means ftaLegal I vec s.se e

variable {ftaLegal I}

theorem SplitOf.mono {e : ScalarExp} {s : SplitSe} (hs : SplitOf ftaLegal I v e s)
    (h : Extends v v') : SplitOf ftaLegal I v' e s :=
  { hs with means := fun hc ↦ (hs.means (by rwa [h.isProtocolSource] at hc)).mono h }

theorem nonneg_of_isProtocolSource {src : Int} {vec : SelectVec}
    (h : isProtocolSource src vec = true) : 0 ≤ src := by
  by_contra hneg
  rw [isProtocolSource, listOf, if_neg hneg] at h
  cases h

theorem ne_mixed_of_isProtocolSource {src : Int} {vec : SelectVec}
    (h : isProtocolSource src vec = true) : src ≠ splitMixed := by
  rintro rfl
  exact absurd (nonneg_of_isProtocolSource h) (by decide)

/-- An operand after a reference was made to it where it has to be. -/
theorem refIf_spec {c : Bool} {e e' : ScalarExp} {s : SplitSe}
    (he : ∀ x ∈ e.leaves, SplitLeaf x ∧ P x) (hs : SplitOf ftaLegal I v e s)
    (hv : VecOk ftaLegal P v)
    (hc1 : c = true → s.ftaForbidden = false)
    (hc2 : s.ftaForbidden = false → isProtocolSource s.colrefSource v = true → c = true)
    (h : refIf c v s = some (e', v')) : Extends v v' ∧ VecOk ftaLegal P v' ∧
      Means ftaLegal I v' e' e := by
  cases c with
  | false =>
    simp only [refIf, Bool.false_eq_true, if_false, Option.some.injEq, Prod.mk.injEq] at h
    obtain ⟨rfl, rfl⟩ := h
    refine ⟨.refl _, hv, hs.means ?_⟩
    cases hf : s.ftaForbidden with
    | true => exact Or.inl rfl
    | false =>
      right
      by_contra hprot
      exact absurd (hc2 hf (by simpa using hprot)) (by decide)
  | true =>
    have hf := hc1 rfl
    simp only [refIf, if_true, refUnlessConstant] at h
    split at h
    · rename_i hlit
      simp only [Option.some.injEq, Prod.mk.injEq] at h
      obtain ⟨rfl, rfl⟩ := h
      refine ⟨.refl _, hv, hs.means (Or.inr ?_)⟩
      by_contra hprot
      rw [Bool.not_eq_false] at hprot
      rw [hs.whole hf (ne_mixed_of_isProtocolSource hprot)] at hlit
      have hsrc := hs.source.trans (seSource_eq_of_isLiteralOrParamOnly hlit)
      exact absurd (nonneg_of_isProtocolSource hprot) (by rw [hsrc]; decide)
    · have hprot : isProtocolSource s.colrefSource v = true := by
        rw [makeFtaSeRef] at h
        split at h
        · cases h
        · rename_i l hl
          rw [isProtocolSource, hl]
          rfl
      have hmix := ne_mixed_of_isProtocolSource hprot
      rw [hs.whole hf hmix] at h
      rw [hs.forbidden] at hf
      rw [hs.source] at hmix hprot h
      refine makeFtaSeRef_spec I hv (low_of_seForbidden_eq_false ftaLegal he hf hmix) rfl ?_ h
      rw [isWhole, hf, hprot]
      rfl

theorem refIf_false {e' : ScalarExp} {s : SplitSe}
    (h : refIf false v s = some (e', v')) : e' = s.se ∧ v' = v := by
  simp only [refIf, Bool.false_eq_true, if_false, Option.some.injEq, Prod.mk.injEq] at h
  exact ⟨h.1.symm, h.2.symm⟩

theorem replaceOperands_spec {os : List ScalarExp} {ss : List SplitSe}
    {ses : List ScalarExp} (he : ∀ o ∈ os, ∀ x ∈ o.leaves, SplitLeaf x ∧ P x)
    (hs : List.Forall₂ (SplitOf ftaLegal I v) os ss) (hv : VecOk ftaLegal P v)
    (h : replaceOperands ss v = some (ses, v')) :
    Extends v v' ∧ VecOk ftaLegal P v' ∧ List.Forall₂ (fun o se ↦ Means ftaLegal I v' se o)
      os ses := by
  induction os generalizing ss v ses with
  | nil =>
    cases hs
    simp only [replaceOperands, Option.some.injEq, Prod.mk.injEq] at h
    obtain ⟨rfl, rfl⟩ := h
    exact ⟨.refl _, hv, .nil⟩
  | cons o os ih =>
    cases hs with
    | @cons _ s _ ss ho hos =>
      simp only [replaceOperands, Option.bind_eq_bind, Option.bind_eq_some_iff, Prod.exists,
        Option.some.injEq, Prod.mk.injEq] at h
      obtain ⟨se, v1, h1, ses1, v2, h2, rfl, rfl⟩ := h
      obtain ⟨hext1, hok1, hmean1⟩ := refIf_spec (he o mem_cons_self) ho hv
        (fun hc ↦ by simp_all) (fun hf hp ↦ by simp [hf, hp]) h1
      obtain ⟨hext2, hok2, hmean2⟩ := ih (fun x hx ↦ he x (mem_cons_of_mem _ hx))
        (hos.imp fun a b hab ↦ hab.mono hext1) hok1 h2
      exact ⟨hext1.trans hext2, hok2, .cons (hmean1.mono hext2) hmean2⟩

section Inner

variable {v : SelectVec}

theorem isWhole_eq_false_of {e : ScalarExp}
    (h : seForbidden ftaLegal e = true ∨ isProtocolSource (seSource e) v = false) :
    isWhole ftaLegal (fun s ↦ isProtocolSource s v) e = false := by
  rw [isWhole]
  rcases h with h | h <;> simp [h]

theorem means_unaryOp {op : String} {l' l : ScalarExp}
    (hw : isWhole ftaLegal (fun s ↦ isProtocolSource s v) (.unaryOp op l) = false)
    (h : Means ftaLegal I v l' l) : Means ftaLegal I v (.unaryOp op l') (.unaryOp op l) := by
  refine ⟨fun x hx ↦ ?_, fun ρ t junk ↦ by rw [ScalarExp.eval, ScalarExp.eval, h.2]⟩
  rw [pushed, if_neg (by rw [hw]; decide)]
  exact h.1 x hx

theorem means_binaryOp {op : String} {l' l r' r : ScalarExp}
    (hw : isWhole ftaLegal (fun s ↦ isProtocolSource s v) (.binaryOp op l r) = false)
    (hl : Means ftaLegal I v l' l) (hr : Means ftaLegal I v r' r) :
    Means ftaLegal I v (.binaryOp op l' r') (.binaryOp op l r) := by
  refine ⟨fun x hx ↦ ?_, fun ρ t junk ↦ by rw [ScalarExp.eval, ScalarExp.eval, hl.2, hr.2]⟩
  rw [pushed, if_neg (by rw [hw]; decide)]
  rcases mem_append.mp hx with hx | hx
  · exact (hl.1 x hx).subset (subset_append_left _ _) (subset_append_left _ _)
  · exact (hr.1 x hx).subset (subset_append_right _ _) (subset_append_right _ _)

theorem map_eval_eq_of_means {os ses : List ScalarExp}
    (h : List.Forall₂ (fun o se ↦ Means ftaLegal I v se o) os ses) (ρ : Env V)
    (t : Int → String → V) (junk : V) :
    ses.map (ScalarExp.eval I (hftaEnv (sourceEnv ρ t) (rowsOf I (sourceEnv ρ t) v) junk)) =
      os.map (ScalarExp.eval I (sourceEnv ρ t)) := by
  induction h with
  | nil => rfl
  | cons ho _ ih => rw [map_cons, map_cons, ho.2, ih]

theorem known_of_means {os ses : List ScalarExp}
    (h : List.Forall₂ (fun o se ↦ Means ftaLegal I v se o) os ses) :
    ∀ x ∈ ses.flatMap ScalarExp.leaves, Known v (os.flatMap ScalarExp.leaves)
      (os.flatMap (pushed ftaLegal fun s ↦ isProtocolSource s v)) x := by
  induction h with
  | nil => exact fun x hx ↦ by cases hx
  | cons ho _ ih =>
    intro x hx
    rw [flatMap_cons] at hx ⊢
    rw [flatMap_cons]
    rcases mem_append.mp hx with hx | hx
    · exact (ho.1 x hx).subset (subset_append_left _ _) (subset_append_left _ _)
    · exact (ih x hx).subset (subset_append_right _ _) (subset_append_right _ _)

theorem means_func {op : String} {os ses : List ScalarExp} {i : Nat}
    (hw : isWhole ftaLegal (fun s ↦ isProtocolSource s v) (.func op os i none) = false)
    (h : List.Forall₂ (fun o se ↦ Means ftaLegal I v se o) os ses) :
    Means ftaLegal I v (.func op ses i none) (.func op os i none) := by
  refine ⟨fun x hx ↦ ?_, fun ρ t junk ↦ ?_⟩
  · rw [pushed, if_neg (by rw [hw]; decide), pushedList_eq_flatMap]
    rw [ScalarExp.leaves, ScalarExp.leavesList_eq_flatMap] at hx ⊢
    exact known_of_means h x hx
  · simp only [ScalarExp.eval, ScalarExp.evalList_eq_map]
    rw [map_eval_eq_of_means h]

end Inner

/-- A leaf that is kept as it is. -/
theorem means_leaf {v : SelectVec} {e : ScalarExp} (he : SplitLeaf e)
    (hsrc : isProtocolSource (seSource e) v = false) (hl : e.isLeaf = true) :
      Means ftaLegal I v e e := by
  have hnone : listOf v (seSource e) = none := by simpa [isProtocolSource] using hsrc
  refine ⟨fun x hx ↦ ?_, fun ρ t junk ↦ ?_⟩
  · rw [ScalarExp.leaves_of_isLeaf hl] at hx
    cases mem_singleton.mp hx
    refine ⟨?_, Or.inl ⟨by rw [ScalarExp.leaves_of_isLeaf hl]; exact mem_singleton_self _, ?_⟩⟩
    · cases e with
      | colref cr =>
        intro l h
        rw [show listOf v cr.tablevarRef = none from hnone] at h
        cases h
      | ifaceParam ifp => exact hnone
      | gbdef cr g d => exact he.elim
      | _ => trivial
    · cases e with
      | colref cr => exact hnone
      | ifaceParam ifp => exact hnone
      | _ => trivial
  · cases e with
    | colref cr =>
      simp only [ScalarExp.eval, hftaEnv, rowsOf]
      rw [show listOf v cr.tablevarRef = none from hnone, Option.map_none]
    | ifaceParam ifp =>
      simp only [ScalarExp.eval, hftaEnv, rowsOf]
      rw [show listOf v ifp.tablevarRef = none from hnone, Option.map_none]
    | literal lit => rfl
    | param name => rfl
    | gbref cr g => rfl
    | _ => exact he.elim

theorem splitFtavecSeList_spec {os : List ScalarExp}
    (ih : ∀ o ∈ os, (∀ x ∈ o.leaves, SplitLeaf x ∧ P x) → ∀ {v v' : SelectVec} {s : SplitSe},
      VecOk ftaLegal P v → splitFtavecSe ftaLegal o v = some (s, v') →
        Extends v v' ∧ VecOk ftaLegal P v' ∧ SplitOf ftaLegal I v' o s)
    (he : ∀ o ∈ os, ∀ x ∈ o.leaves, SplitLeaf x ∧ P x) {ss : List SplitSe}
    (hv : VecOk ftaLegal P v) (h : splitFtavecSeList ftaLegal os v = some (ss, v')) :
    Extends v v' ∧ VecOk ftaLegal P v' ∧ List.Forall₂ (SplitOf ftaLegal I v') os ss := by
  induction os generalizing v ss with
  | nil =>
    simp only [splitFtavecSeList, Option.some.injEq, Prod.mk.injEq] at h
    obtain ⟨rfl, rfl⟩ := h
    exact ⟨.refl _, hv, .nil⟩
  | cons o os ihos =>
    simp only [splitFtavecSeList, Option.bind_eq_bind, Option.bind_eq_some_iff, Prod.exists,
      Option.some.injEq, Prod.mk.injEq] at h
    obtain ⟨s, v1, h1, ss1, v2, h2, rfl, rfl⟩ := h
    obtain ⟨hext1, hok1, hs1⟩ := ih o mem_cons_self (he o mem_cons_self) hv h1
    obtain ⟨hext2, hok2, hs2⟩ := ihos (fun x hx ↦ ih x (mem_cons_of_mem _ hx))
      (fun x hx ↦ he x (mem_cons_of_mem _ hx)) hok1 h2
    exact ⟨hext1.trans hext2, hok2, .cons (hs1.mono hext2) hs2⟩

section Operands

variable {v : SelectVec} {os : List ScalarExp} {ss : List SplitSe}

theorem any_ftaForbidden_eq (h : List.Forall₂ (SplitOf ftaLegal I v) os ss) :
    ss.any SplitSe.ftaForbidden = seForbiddenList ftaLegal os := by
  induction h with
  | nil => rfl
  | cons ho _ ih => rw [any_cons, seForbiddenList, ho.forbidden, ih]

theorem foldl_combineColrefSource_eq (h : List.Forall₂ (SplitOf ftaLegal I v) os ss) (src : Int) :
    ss.foldl (fun src s ↦ combineColrefSource src s.colrefSource) src = seSourceList src os := by
  induction h generalizing src with
  | nil => rfl
  | cons ho _ ih => rw [foldl_cons, seSourceList, ho.source, ih]

/-- Operands that are not replaced are as they were. -/
theorem map_se_eq_of_whole (h : List.Forall₂ (SplitOf ftaLegal I v) os ss)
    (hf : seForbiddenList ftaLegal os = false) (hsrc : ∀ o ∈ os, seSource o ≠ splitMixed) :
    ss.map SplitSe.se = os := by
  induction h with
  | nil => rfl
  | @cons o s os ss ho _ ih =>
    rw [seForbiddenList, Bool.or_eq_false_iff] at hf
    rw [map_cons, ih hf.2 fun x hx ↦ hsrc x (mem_cons_of_mem _ hx),
      ho.whole (ho.forbidden.trans hf.1) (ho.source ▸ hsrc o mem_cons_self)]

theorem forall₂_means (h : List.Forall₂ (SplitOf ftaLegal I v) os ss)
    (hsrc : ∀ o ∈ os, isProtocolSource (seSource o) v = false) :
    List.Forall₂ (fun o se ↦ Means ftaLegal I v se o) os (ss.map SplitSe.se) := by
  induction h with
  | nil => exact .nil
  | @cons o s os ss ho _ ih =>
    refine .cons (ho.means (Or.inr ?_)) (ih fun x hx ↦ hsrc x (mem_cons_of_mem _ hx))
    rw [ho.source]
    exact hsrc o mem_cons_self

end Operands

theorem isProtocolSource_notblvar (v : SelectVec) : isProtocolSource splitNotblvar v = false := rfl

theorem ne_mixed_of_notblvar_or {s src : Int} (h : s = splitNotblvar ∨ s = src)
    (hm : src ≠ splitMixed) : s ≠ splitMixed := by
  rcases h with rfl | rfl
  · decide
  · exact hm

/-- A reference is made to operands that are not forbidden only. -/
theorem eq_false_of_operand {o f p m q : Bool} (h : ((o && !f && p) || (m && !f && q)) = true) :
    f = false := by
  cases f with
  | false => rfl
  | true => simp at h

/-- **What splitting an expression gives.** -/
theorem splitFtavecSe_spec (e : ScalarExp) (he : ∀ x ∈ e.leaves, SplitLeaf x ∧ P x)
    {v v' : SelectVec} {s : SplitSe} (hv : VecOk ftaLegal P v)
    (h : splitFtavecSe ftaLegal e v = some (s, v')) :
    Extends v v' ∧ VecOk ftaLegal P v' ∧ SplitOf ftaLegal I v' e s := by
  induction e generalizing v v' s with
  | literal lit =>
    simp only [splitFtavecSe, Option.some.injEq, Prod.mk.injEq] at h
    obtain ⟨rfl, rfl⟩ := h
    exact ⟨.refl _, hv, rfl, rfl, fun _ _ ↦ rfl, fun _ ↦ means_leaf trivial rfl rfl⟩
  | param name =>
    simp only [splitFtavecSe, Option.some.injEq, Prod.mk.injEq] at h
    obtain ⟨rfl, rfl⟩ := h
    exact ⟨.refl _, hv, rfl, rfl, fun _ _ ↦ rfl, fun _ ↦ means_leaf trivial rfl rfl⟩
  | ifaceParam ifp =>
    simp only [splitFtavecSe, Option.some.injEq, Prod.mk.injEq] at h
    obtain ⟨rfl, rfl⟩ := h
    refine ⟨.refl _, hv, rfl, rfl, fun _ _ ↦ rfl, fun hc ↦ means_leaf ?_ ?_ rfl⟩
    · exact (he (.ifaceParam ifp) (by simp [ScalarExp.leaves])).1
    · exact hc.resolve_left Bool.false_ne_true
  | colref cr =>
    simp only [splitFtavecSe, Option.some.injEq, Prod.mk.injEq] at h
    obtain ⟨rfl, rfl⟩ := h
    refine ⟨.refl _, hv, rfl, rfl, fun _ _ ↦ rfl, fun hc ↦ means_leaf ?_ ?_ rfl⟩
    · exact (he (.colref cr) (by simp [ScalarExp.leaves])).1
    · exact hc.resolve_left Bool.false_ne_true
  | gbref cr g =>
    simp only [splitFtavecSe, Option.some.injEq, Prod.mk.injEq] at h
    obtain ⟨rfl, rfl⟩ := h
    refine ⟨.refl _, hv, rfl, rfl, fun _ _ ↦ rfl, fun _ ↦ ⟨fun x hx ↦ ?_, fun _ _ _ ↦ rfl⟩⟩
    exact ⟨by cases mem_singleton.mp hx; trivial,
      Or.inl ⟨hx, by cases mem_singleton.mp hx; trivial⟩⟩
  | gbdef cr g d ih => exact (he (.gbdef cr g d) (by simp [ScalarExp.leaves])).1.elim
  | aggrStar op a => cases h
  | aggrSe op l a ih => cases h
  | unaryOp op l ih =>
    simp only [splitFtavecSe, Option.bind_eq_bind, Option.bind_eq_some_iff, Prod.exists,
      Option.some.injEq, Prod.mk.injEq] at h
    obtain ⟨a, v1, h1, l', v2, h2, rfl, rfl⟩ := h
    obtain ⟨hext, hok, hs⟩ := ih he hv h1
    -- no operation is forbidden, so that nothing is replaced here
    obtain ⟨rfl, rfl⟩ := refIf_false h2
    refine ⟨hext, hok, hs.forbidden, hs.source, fun hf hsrc ↦ ?_, fun hc ↦ ?_⟩
    · rw [hs.whole hf hsrc]
    · refine means_unaryOp (isWhole_eq_false_of ?_) (hs.means hc)
      rw [hs.forbidden, hs.source] at hc
      exact hc
  | binaryOp op l r ihl ihr =>
    simp only [splitFtavecSe, Option.bind_eq_bind, Option.bind_eq_some_iff, Prod.exists,
      Option.some.injEq, Prod.mk.injEq] at h
    obtain ⟨a, v1, h1, b, v2, h2, l', v3, h3, r', v4, h4, rfl, rfl⟩ := h
    have hel := fun x hx ↦ he x (mem_append_left _ hx)
    have her := fun x hx ↦ he x (mem_append_right _ hx)
    obtain ⟨hext1, hok1, ha⟩ := ihl hel hv h1
    obtain ⟨hext2, hok2, hb⟩ := ihr her hok1 h2
    have ha2 := ha.mono hext2
    have hsrc : combineColrefSource a.colrefSource b.colrefSource =
      seSource (.binaryOp op l r) := by
      rw [ha.source, hb.source, seSource]
    have hforb : (!ftaLegalOperation op || b.ftaForbidden || a.ftaForbidden) =
        seForbidden ftaLegal (.binaryOp op l r) := by
      rw [ha.forbidden, hb.forbidden, seForbidden]
      rfl
    generalize hsrc' : combineColrefSource a.colrefSource b.colrefSource = src at h3 h4 hsrc ⊢
    have hcomb := combineColrefSource_cases a.colrefSource b.colrefSource
    rw [hsrc'] at hcomb
    have hlegal : (!ftaLegalOperation op) = false := rfl
    rw [hlegal] at h3 h4 hforb ⊢
    -- without forbidden operands and with one source, nothing is replaced
    have hplain : a.ftaForbidden = false → b.ftaForbidden = false → src ≠ splitMixed →
        l' = l ∧ r' = r ∧ v4 = v2 := by
      intro haf hbf hm
      simp only [haf, hbf, beq_eq_false_iff_ne.mpr hm, Bool.false_or, Bool.false_and] at h3 h4
      obtain ⟨rfl, rfl⟩ := refIf_false h3
      obtain ⟨rfl, rfl⟩ := refIf_false h4
      obtain ⟨h5, h6⟩ := hcomb.resolve_left hm
      exact ⟨ha.whole haf (ne_mixed_of_notblvar_or h5 hm),
        hb.whole hbf (ne_mixed_of_notblvar_or h6 hm), rfl⟩
    have hwhole : (false || b.ftaForbidden || a.ftaForbidden) = false → src ≠ splitMixed →
        ScalarExp.binaryOp op l' r' = .binaryOp op l r := by
      intro hf hm
      simp only [Bool.or_eq_false_iff, true_and] at hf
      obtain ⟨rfl, rfl, -⟩ := hplain hf.2 hf.1 hm
      rfl
    by_cases hcase : b.ftaForbidden = true ∨ a.ftaForbidden = true ∨ isProtocolSource src v2 = false
    · -- references are made to all operands that the low level computes
      have hneed : ∀ s : SplitSe, (src = splitMixed ∨ s.colrefSource = splitNotblvar ∨
          s.colrefSource = src) → isProtocolSource s.colrefSource v2 = true → src = splitMixed ∨
            isProtocolSource src v2 = true := by
        rintro s (hs | hs | hs) hprot
        · exact Or.inl hs
        · rw [hs, isProtocolSource_notblvar] at hprot
          cases hprot
        · exact Or.inr (hs ▸ hprot)
      obtain ⟨hext3, hok3, hl'⟩ := refIf_spec hel ha2 hok2 eq_false_of_operand (fun hf hp ↦ by
        rcases hneed a (hcomb.imp id And.left) hp with hm | hm
        · simp [hf, hp, hm]
        · have hbf : b.ftaForbidden = true := by simpa [hf, hm] using hcase
          simp [hf, hbf, hm]) h3
      have hb3 := hb.mono hext3
      obtain ⟨hext4, hok4, hr'⟩ := refIf_spec her hb3 hok3 eq_false_of_operand (fun hf hp ↦ by
        rw [hext3.isProtocolSource] at hp
        rw [hext3.isProtocolSource, hext3.isProtocolSource]
        rcases hneed b (hcomb.imp id And.right) hp with hm | hm
        · simp [hf, hp, hm]
        · have haf : a.ftaForbidden = true := by simpa [hf, hm] using hcase
          simp [hf, haf, hm]) h4
      refine ⟨((hext1.trans hext2).trans hext3).trans hext4, hok4, hforb, hsrc, hwhole,
        fun hc ↦ means_binaryOp (isWhole_eq_false_of ?_) (hl'.mono hext4) hr'⟩
      rwa [← hforb, ← hsrc]
    · -- the whole expression can be computed by the low level
      rw [not_or, not_or, Bool.not_eq_true, Bool.not_eq_true, Bool.not_eq_false] at hcase
      obtain ⟨hbf, haf, hprot⟩ := hcase
      obtain ⟨rfl, rfl, rfl⟩ := hplain haf hbf (ne_mixed_of_isProtocolSource hprot)
      refine ⟨hext1.trans hext2, hok2, hforb, hsrc, hwhole, fun hc ↦ absurd hc ?_⟩
      simp [hbf, haf, hprot]
  | func op os i a ih =>
    simp only [splitFtavecSe, Option.bind_eq_bind, Option.bind_eq_some_iff, Prod.exists,
      Option.some.injEq, Prod.mk.injEq] at h
    obtain ⟨ss, v1, h1, os', v2, h2, rfl, rfl⟩ := h
    cases a with
    | some a => exact (he (.func op os i (some a)) (by simp [ScalarExp.leaves])).1.elim
    | none =>
      rw [ScalarExp.leaves, ScalarExp.leavesList_eq_flatMap] at he
      have heo : ∀ o ∈ os, ∀ x ∈ o.leaves, SplitLeaf x ∧ P x :=
        fun o ho x hx ↦ he x (mem_flatMap.mpr ⟨o, ho, hx⟩)
      obtain ⟨hext1, hok1, hss⟩ := splitFtavecSeList_spec ih heo hv h1
      rw [any_ftaForbidden_eq hss, foldl_combineColrefSource_eq hss] at h2 ⊢
      have hcases := seSourceList_cases os splitNotblvar
      cases hc : (seForbiddenList ftaLegal os || !ftaLegal i ||
          seSourceList splitNotblvar os == splitMixed) with
      | true =>
        rw [hc, newOperands, if_pos rfl] at h2
        obtain ⟨hext2, hok2, hmeans⟩ := replaceOperands_spec heo hss hok1 h2
        refine ⟨hext1.trans hext2, hok2, rfl, rfl, fun hf hm ↦ ?_,
          fun hprot ↦ means_func (isWhole_eq_false_of hprot) hmeans⟩
        simp_all
      | false =>
        simp only [hc, newOperands, Bool.false_eq_true, if_false, Option.some.injEq,
          Prod.mk.injEq] at h2
        obtain ⟨rfl, rfl⟩ := h2
        simp only [Bool.or_eq_false_iff, beq_eq_false_iff_ne] at hc
        have hsrc := (hcases.resolve_left hc.2).2
        refine ⟨hext1, hok1, rfl, rfl, fun _ _ ↦ ?_,
          fun hprot ↦ means_func (isWhole_eq_false_of hprot) (forall₂_means hss ?_)⟩
        · rw [map_se_eq_of_whole hss hc.1.1 fun o ho ↦ ?_]
          rcases hsrc o ho with h | h
          · rw [h]; decide
          · rw [h]; exact hc.2
        · intro o ho
          rcases hsrc o ho with h | h
          · rw [h]; rfl
          · rw [h]
            refine hprot.resolve_left ?_
            simp [hc.1.1, hc.1.2]

end Spec

/-! ## When splitting succeeds -/

section IsSome

variable (ftaLegal : Nat → Bool) (prot : Int → Bool)

/-- A call of a function without columns that the low level may compute, next to an operand with
columns of a PROTOCOL source that it may not compute. -/
def isStray (e other : ScalarExp) : Bool :=
  !seForbidden ftaLegal e && seSource e == splitNotblvar && !isLiteralOrParamOnly e &&
    (seForbidden ftaLegal other && prot (seSource other))

mutual

/-- No operator has a stray operand. -/
def seSplittable : ScalarExp → Bool
  | .unaryOp _ l => seSplittable l
  | .binaryOp _ l r =>
    seSplittable l && seSplittable r && !isStray ftaLegal prot l r && !isStray ftaLegal prot r l
  | .func _ os _ _ => seSplittableList os
  | _ => true

def seSplittableList : List ScalarExp → Bool
  | [] => true
  | o :: os => seSplittable o && seSplittableList os

end

def prSplittable : Predicate → Bool
  | .isIn l _ => seSplittable ftaLegal prot l
  | .compare l _ r => seSplittable ftaLegal prot l && seSplittable ftaLegal prot r
  | .unaryOp _ l => prSplittable l
  | .binaryOp _ l r => prSplittable l && prSplittable r
  | .func _ os _ => seSplittableList ftaLegal prot os

variable {ftaLegal} {P : ScalarExp → Prop} {V : Type} {I : Interp V}

theorem isSome_refIf (c : Bool) (v : SelectVec) (s : SplitSe) : (refIf c v s).isSome =
    (!c || isLiteralOrParamOnly s.se || isProtocolSource s.colrefSource v) := by
  cases c with
  | false => rfl
  | true =>
    simp only [refIf, if_true, refUnlessConstant, isProtocolSource, makeFtaSeRef]
    cases isLiteralOrParamOnly s.se with
    | true => rfl
    | false =>
      cases listOf v s.colrefSource with
      | none => rfl
      | some l => rfl

/-- A reference can always be made to an operand of a PROTOCOL source. -/
theorem isSome_refIf_of_isProtocolSource {c : Bool} {v : SelectVec} {s : SplitSe}
    (h : c = true → isProtocolSource s.colrefSource v = true) : (refIf c v s).isSome = true := by
  rw [isSome_refIf]
  cases c with
  | false => rfl
  | true => rw [h rfl, Bool.or_true]

theorem isSome_replaceOperands (ss : List SplitSe) (v : SelectVec) :
    (replaceOperands ss v).isSome = true := by
  induction ss generalizing v with
  | nil => rfl
  | cons s ss ih =>
    obtain ⟨⟨e, v1⟩, h1⟩ := Option.isSome_iff_exists.mp
      (isSome_refIf_of_isProtocolSource (c := !s.ftaForbidden && isProtocolSource s.colrefSource v)
        (v := v) (s := s) fun hc ↦ (Bool.and_eq_true_iff.mp hc).2)
    obtain ⟨⟨es, v2⟩, h2⟩ := Option.isSome_iff_exists.mp (ih v1)
    simp [replaceOperands, h1, h2]

theorem combineColrefSource_notblvar (s : Int) : combineColrefSource splitNotblvar s = s := by
  simp only [combineColrefSource]
  split_ifs with h
  · exact h
  · rfl

theorem combineColrefSource_comm (s t : Int) : combineColrefSource s t =
    combineColrefSource t s := by
  simp only [combineColrefSource]
  split_ifs <;> omega

/-- Adding a column leaves the sources as they are. -/
theorem isProtocolSource_of_refIf {c : Bool} {s : SplitSe} {e' : ScalarExp}
    (h : refIf c v s = some (e', v')) (src : Int) :
    isProtocolSource src v' = isProtocolSource src v := by
  rw [refIf] at h
  split at h
  · rw [refUnlessConstant] at h
    split at h
    · cases h
      rfl
    · rw [makeFtaSeRef] at h
      split at h
      · cases h
      · rename_i l hl
        cases h
        rw [isProtocolSource, isProtocolSource, listOf_set (by rw [hl]; rfl)]
        split
        · rename_i hsrc
          rw [hsrc, hl]
          rfl
        · rfl
  · cases h
    rfl

/-- When there is a result for one operand of a binary operator: `src` is the source of both. -/
theorem isSome_refIf_iff {l r : ScalarExp} {a b : SplitSe} {v : SelectVec} (src : Int)
    (ha : SplitOf ftaLegal I v l a) (hb : SplitOf ftaLegal I v r b)
    (hnot : a.colrefSource = splitNotblvar → src = b.colrefSource)
    (hcomb : src = splitMixed ∨ a.colrefSource = splitNotblvar ∨ a.colrefSource = src) :
    (refIf ((b.ftaForbidden && !a.ftaForbidden && isProtocolSource src v) ||
      (src == splitMixed && !a.ftaForbidden && isProtocolSource a.colrefSource v)) v a).isSome =
        true ↔
      isStray ftaLegal (fun s ↦ isProtocolSource s v) l r = false := by
  by_cases hprot : isProtocolSource a.colrefSource v = true
  · -- the operand has columns of a PROTOCOL source
    refine iff_of_true (isSome_refIf_of_isProtocolSource fun _ ↦ hprot) ?_
    have hne : (seSource l == splitNotblvar) = false := by
      rw [beq_eq_false_iff_ne, ← ha.source]
      intro heq
      rw [heq, isProtocolSource_notblvar] at hprot
      cases hprot
    rw [isStray, hne, Bool.and_false, Bool.false_and, Bool.false_and]
  · rw [Bool.not_eq_true] at hprot
    rw [hprot, Bool.and_false, Bool.or_false]
    by_cases hsrc : a.colrefSource = splitNotblvar
    · -- the operand has no columns
      have hl : (seSource l == splitNotblvar) = true := by rw [← ha.source, hsrc]; rfl
      rw [isStray, hl, ← ha.forbidden, ← hb.forbidden, ← hb.source, hnot hsrc, Bool.and_true]
      cases haf : a.ftaForbidden with
      | true => simp [refIf]
      | false =>
        have hwhole := ha.whole haf (by rw [hsrc]; decide)
        cases hbf : b.ftaForbidden with
        | false => simp [refIf]
        | true =>
          cases hp : isProtocolSource b.colrefSource v with
          | false => simp [refIf]
          | true =>
            rw [isSome_refIf, hwhole, hprot]
            cases isLiteralOrParamOnly l <;> decide
    · have hcond : (b.ftaForbidden && !a.ftaForbidden && isProtocolSource src v) = false := by
        rcases hcomb with h | h | h
        · have hm : isProtocolSource src v = false := by rw [h]; rfl
          rw [hm, Bool.and_false]
        · exact absurd h hsrc
        · rw [← h, hprot, Bool.and_false]
      have hne : (seSource l == splitNotblvar) = false := by
        rw [beq_eq_false_iff_ne, ← ha.source]
        exact hsrc
      rw [hcond, isStray, hne, Bool.and_false, Bool.false_and, Bool.false_and]
      exact iff_of_true rfl rfl

/-- Any meaning of the operators will do where only the result of splitting counts. -/
def unitInterp : Interp Unit where
  lit _ := ()
  unary _ _ := ()
  binary _ _ _ := ()
  fcn _ _ := ()
  compare _ _ _ := false
  isLit _ _ := false
  pred _ _ := false

theorem isSome_splitFtavecSeList_iff {os : List ScalarExp}
    (ih : ∀ o ∈ os, (∀ x ∈ o.leaves, SplitLeaf x ∧ P x) → ∀ {v : SelectVec}, VecOk ftaLegal P v →
      ((splitFtavecSe ftaLegal o v).isSome = true ↔
        seSplittable ftaLegal (fun s ↦ isProtocolSource s v) o = true))
    (he : ∀ o ∈ os, ∀ x ∈ o.leaves, SplitLeaf x ∧ P x) {v : SelectVec} (hv : VecOk ftaLegal P v) :
    (splitFtavecSeList ftaLegal os v).isSome = true ↔
      seSplittableList ftaLegal (fun s ↦ isProtocolSource s v) os = true := by
  induction os generalizing v with
  | nil => exact iff_of_true rfl rfl
  | cons o os ihos =>
    rw [seSplittableList, Bool.and_eq_true, ← ih o mem_cons_self (he o mem_cons_self) hv,
      splitFtavecSeList]
    cases h1 : splitFtavecSe ftaLegal o v with
    | none => simp
    | some p =>
      obtain ⟨hext, hok, -⟩ := splitFtavecSe_spec (I := unitInterp)
        o (he o mem_cons_self) hv h1
      rw [← isProtocolSource_congr hext, ← ihos (fun x hx ↦ ih x (mem_cons_of_mem _ hx))
        (fun x hx ↦ he x (mem_cons_of_mem _ hx)) hok]
      cases h2 : splitFtavecSeList ftaLegal os p.2 with
      | none => simp [h2]
      | some q => simp [h2]

/-- **When splitting an expression has a result.** -/
theorem isSome_splitFtavecSe_iff (e : ScalarExp) (he : ∀ x ∈ e.leaves, SplitLeaf x ∧ P x)
    {v : SelectVec} (hv : VecOk ftaLegal P v) : (splitFtavecSe ftaLegal e v).isSome = true ↔
      seSplittable ftaLegal (fun s ↦ isProtocolSource s v) e = true := by
  induction e generalizing v with
  | literal lit => exact iff_of_true rfl rfl
  | param name => exact iff_of_true rfl rfl
  | ifaceParam ifp => exact iff_of_true rfl rfl
  | colref cr => exact iff_of_true rfl rfl
  | gbref cr g => exact iff_of_true rfl rfl
  | gbdef cr g d ih => exact (he (.gbdef cr g d) (by simp [ScalarExp.leaves])).1.elim
  | aggrStar op a => exact (he (.aggrStar op a) (by simp [ScalarExp.leaves])).1.elim
  | aggrSe op l a ih => exact (he (.aggrSe op l a) (by simp [ScalarExp.leaves])).1.elim
  | unaryOp op l ih =>
    rw [seSplittable, ← ih he hv, splitFtavecSe]
    cases h : splitFtavecSe ftaLegal l v with
    | none => simp
    | some p => simp [ftaLegalOperation, refIf]
  | binaryOp op l r ihl ihr =>
    have hel := fun x hx ↦ he x (mem_append_left _ hx)
    have her := fun x hx ↦ he x (mem_append_right _ hx)
    rw [seSplittable, Bool.and_eq_true, Bool.and_eq_true, Bool.and_eq_true, ← ihl hel hv,
      splitFtavecSe]
    cases h1 : splitFtavecSe ftaLegal l v with
    | none => simp
    | some p =>
      obtain ⟨a, v1⟩ := p
      obtain ⟨hext1, hok1, ha⟩ := splitFtavecSe_spec (I := unitInterp) l hel hv h1
      rw [← isProtocolSource_congr hext1, ← ihr her hok1]
      cases h2 : splitFtavecSe ftaLegal r v1 with
      | none => simp [h2]
      | some q =>
        obtain ⟨b, v2⟩ := q
        obtain ⟨hext2, hok2, hb⟩ := splitFtavecSe_spec (I := unitInterp) r her hok1 h2
        have ha2 := ha.mono hext2
        have hcomb := combineColrefSource_cases a.colrefSource b.colrefSource
        have hleft := isSome_refIf_iff (v := v2)
          (combineColrefSource a.colrefSource b.colrefSource) ha2 hb
          (fun h ↦ by rw [h, combineColrefSource_notblvar]) (hcomb.imp id And.left)
        have hright := isSome_refIf_iff (v := v2)
          (combineColrefSource a.colrefSource b.colrefSource) hb ha2
          (fun h ↦ by rw [combineColrefSource_comm, h, combineColrefSource_notblvar])
          (hcomb.imp id And.right)
        have hlegal : (!ftaLegalOperation op) = false := rfl
        rw [isProtocolSource_congr hext2] at hleft hright
        simp only [Option.bind_eq_bind, Option.bind_some, h2, Option.isSome_some, true_and, hlegal,
          Bool.false_or, Bool.not_eq_true', ← hleft, ← hright]
        generalize hcl : ((b.ftaForbidden && !a.ftaForbidden && _) || _) = cl
        cases h3 : refIf cl v2 a with
        | none => simp
        | some p =>
          obtain ⟨l', v3⟩ := p
          simp only [Option.bind_some, isProtocolSource_of_refIf h3, Option.isSome_some, true_and]
          have hv3 : ∀ c, (refIf c v2 b).isSome = (refIf c v3 b).isSome := fun c ↦ by
            rw [isSome_refIf, isSome_refIf, isProtocolSource_of_refIf h3]
          rw [hv3]
          cases refIf _ v3 b with
          | none => exact Iff.rfl
          | some q => exact Iff.rfl
  | func op os i a ih =>
    cases a with
    | some a => exact (he (.func op os i (some a)) (by simp [ScalarExp.leaves])).1.elim
    | none =>
      rw [ScalarExp.leaves, ScalarExp.leavesList_eq_flatMap] at he
      have heo : ∀ o ∈ os, ∀ x ∈ o.leaves, SplitLeaf x ∧ P x :=
        fun o ho x hx ↦ he x (mem_flatMap.mpr ⟨o, ho, hx⟩)
      rw [seSplittable, ← isSome_splitFtavecSeList_iff ih heo hv, splitFtavecSe]
      cases h : splitFtavecSeList ftaLegal os v with
      | none => simp
      | some p =>
        simp only [Option.bind_eq_bind, Option.bind_some, Option.isSome_some, iff_true, newOperands]
        split
        · obtain ⟨q, hq⟩ := Option.isSome_iff_exists.mp (isSome_replaceOperands p.1 p.2)
          rw [hq]
          rfl
        · rfl

end IsSome

/-! ## Predicates -/

section Pred

variable {ftaLegal : Nat → Bool} {P : ScalarExp → Prop} {V : Type} {I : Interp V}

/-- A predicate of the high level reads what is known there, and has the value of a predicate over
the sources. -/
def MeansPr (ftaLegal : Nat → Bool) (I : Interp V) (vec : SelectVec) (p' p : Predicate) : Prop :=
  (∀ x ∈ p'.leaves, Known vec p.leaves (prPushed ftaLegal (fun s ↦ isProtocolSource s vec) p) x) ∧
    ∀ (ρ : Env V) (t : Int → String → V) (junk : V),
      p'.eval I (hftaEnv (sourceEnv ρ t) (rowsOf I (sourceEnv ρ t) vec) junk) =
        p.eval I (sourceEnv ρ t)

theorem MeansPr.mono {p' p : Predicate} (hm : MeansPr ftaLegal I v p' p)
    (h : Extends v v') : MeansPr ftaLegal I v' p' p := by
  refine ⟨fun x hx ↦ ?_, fun ρ t junk ↦ ?_⟩
  · rw [isProtocolSource_congr h]
    exact (hm.1 x hx).mono h
  · rw [← hm.2 ρ t junk]
    exact Predicate.eval_congr _ fun x hx ↦
      (hm.1 x hx).1.eval_eq (Predicate.isLeaf_of_mem_leaves hx) h _ _

/-- What splitting one operand of a predicate gives. -/
theorem splitOperand_spec {e e' : ScalarExp} (he : ∀ x ∈ e.leaves, SplitLeaf x ∧ P x)
    (hv : VecOk ftaLegal P v) (h : splitOperand ftaLegal e v = some (e', v')) :
    Extends v v' ∧ VecOk ftaLegal P v' ∧ Means ftaLegal I v' e' e := by
  simp only [splitOperand, Option.bind_eq_bind, Option.bind_eq_some_iff, Prod.exists] at h
  obtain ⟨s, v1, h1, h2⟩ := h
  obtain ⟨hext1, hok1, hs⟩ := splitFtavecSe_spec (I := I) e he hv h1
  obtain ⟨hext2, hok2, hm⟩ := refIf_spec he hs hok1
    (fun hc ↦ by simpa using (Bool.and_eq_true_iff.mp hc).1) (fun hf hp ↦ by rw [hf, hp]; rfl) h2
  exact ⟨hext1.trans hext2, hok2, hm⟩

theorem splitOperands_spec {os os' : List ScalarExp}
    (he : ∀ o ∈ os, ∀ x ∈ o.leaves, SplitLeaf x ∧ P x) (hv : VecOk ftaLegal P v)
    (h : splitOperands ftaLegal os v = some (os', v')) :
    Extends v v' ∧ VecOk ftaLegal P v' ∧ List.Forall₂ (fun o se ↦ Means ftaLegal I v' se o)
      os os' := by
  induction os generalizing v os' with
  | nil =>
    simp only [splitOperands, Option.some.injEq, Prod.mk.injEq] at h
    obtain ⟨rfl, rfl⟩ := h
    exact ⟨.refl _, hv, .nil⟩
  | cons o os ih =>
    simp only [splitOperands, Option.bind_eq_bind, Option.bind_eq_some_iff, Prod.exists,
      Option.some.injEq, Prod.mk.injEq] at h
    obtain ⟨e', v1, h1, es, v2, h2, rfl, rfl⟩ := h
    obtain ⟨hext1, hok1, hm1⟩ := splitOperand_spec (I := I) (he o mem_cons_self) hv h1
    obtain ⟨hext2, hok2, hm2⟩ := ih (fun x hx ↦ he x (mem_cons_of_mem _ hx)) hok1 h2
    exact ⟨hext1.trans hext2, hok2, .cons (hm1.mono hext2) hm2⟩

/-- **What splitting a predicate gives.** -/
theorem splitFtavecPr_spec (p : Predicate) {p' : Predicate} (hp : ∀ x ∈ p.leaves, SplitLeaf x ∧ P x)
    (hv : VecOk ftaLegal P v) (h : splitFtavecPr ftaLegal p v = some (p', v')) :
    Extends v v' ∧ VecOk ftaLegal P v' ∧ MeansPr ftaLegal I v' p' p := by
  induction p generalizing v v' p' with
  | compare l op r =>
    simp only [splitFtavecPr, Option.bind_eq_bind, Option.bind_eq_some_iff, Prod.exists,
      Option.some.injEq, Prod.mk.injEq] at h
    obtain ⟨l', v1, h1, r', v2, h2, rfl, rfl⟩ := h
    obtain ⟨hext1, hok1, hl⟩ :=
      splitOperand_spec (I := I) (fun x hx ↦ hp x (mem_append_left _ hx)) hv h1
    obtain ⟨hext2, hok2, hr⟩ :=
      splitOperand_spec (I := I) (fun x hx ↦ hp x (mem_append_right _ hx)) hok1 h2
    have hl2 := hl.mono hext2
    refine ⟨hext1.trans hext2, hok2, fun x hx ↦ ?_, fun ρ t junk ↦ ?_⟩
    · rcases mem_append.mp hx with hx | hx
      · exact (hl2.1 x hx).subset (subset_append_left _ _) (subset_append_left _ _)
      · exact (hr.1 x hx).subset (subset_append_right _ _) (subset_append_right _ _)
    · rw [Predicate.eval, Predicate.eval, hl2.2, hr.2]
  | isIn l lits =>
    simp only [splitFtavecPr, Option.bind_eq_bind, Option.bind_eq_some_iff, Prod.exists,
      Option.some.injEq, Prod.mk.injEq] at h
    obtain ⟨l', v1, h1, rfl, rfl⟩ := h
    obtain ⟨hext, hok, hl⟩ := splitOperand_spec (I := I) hp hv h1
    exact ⟨hext, hok, hl.1, fun ρ t junk ↦ by simp only [Predicate.eval, hl.2]⟩
  | unaryOp op l ih =>
    simp only [splitFtavecPr, Option.bind_eq_bind, Option.bind_eq_some_iff, Prod.exists,
      Option.some.injEq, Prod.mk.injEq] at h
    obtain ⟨l', v1, h1, rfl, rfl⟩ := h
    obtain ⟨hext, hok, hl⟩ := ih hp hv h1
    exact ⟨hext, hok, hl.1, fun ρ t junk ↦ by rw [Predicate.eval, Predicate.eval, hl.2]⟩
  | binaryOp op l r ihl ihr =>
    simp only [splitFtavecPr, Option.bind_eq_bind, Option.bind_eq_some_iff, Prod.exists,
      Option.some.injEq, Prod.mk.injEq] at h
    obtain ⟨l', v1, h1, r', v2, h2, rfl, rfl⟩ := h
    obtain ⟨hext1, hok1, hl⟩ := ihl (fun x hx ↦ hp x (mem_append_left _ hx)) hv h1
    obtain ⟨hext2, hok2, hr⟩ := ihr (fun x hx ↦ hp x (mem_append_right _ hx)) hok1 h2
    have hl2 := hl.mono hext2
    refine ⟨hext1.trans hext2, hok2, fun x hx ↦ ?_, fun ρ t junk ↦ ?_⟩
    · rcases mem_append.mp hx with hx | hx
      · exact (hl2.1 x hx).subset (subset_append_left _ _) (subset_append_left _ _)
      · exact (hr.1 x hx).subset (subset_append_right _ _) (subset_append_right _ _)
    · rw [Predicate.eval, Predicate.eval, hl2.2, hr.2]
  | func op os i =>
    simp only [splitFtavecPr, Option.bind_eq_bind, Option.bind_eq_some_iff, Prod.exists,
      Option.some.injEq, Prod.mk.injEq] at h
    obtain ⟨os', v1, h1, rfl, rfl⟩ := h
    obtain ⟨hext, hok, hm⟩ :=
      splitOperands_spec (I := I) (fun o ho x hx ↦ hp x (mem_flatMap.mpr ⟨o, ho, hx⟩)) hv h1
    refine ⟨hext, hok, known_of_means hm, fun ρ t junk ↦ ?_⟩
    rw [Predicate.eval, Predicate.eval, map_eval_eq_of_means hm]

/-- There is a result for an operand of a predicate if there is one for the expression. -/
theorem isSome_splitOperand_iff (e : ScalarExp) (he : ∀ x ∈ e.leaves, SplitLeaf x ∧ P x)
    {v : SelectVec} (hv : VecOk ftaLegal P v) : (splitOperand ftaLegal e v).isSome = true ↔
      seSplittable ftaLegal (fun s ↦ isProtocolSource s v) e = true := by
  rw [← isSome_splitFtavecSe_iff e he hv, splitOperand]
  cases splitFtavecSe ftaLegal e v with
  | none => exact Iff.rfl
  | some p =>
    refine iff_of_true ?_ rfl
    exact isSome_refIf_of_isProtocolSource fun hc ↦ (Bool.and_eq_true_iff.mp hc).2

theorem isSome_splitOperands_iff (os : List ScalarExp)
    (he : ∀ o ∈ os, ∀ x ∈ o.leaves, SplitLeaf x ∧ P x) {v : SelectVec} (hv : VecOk ftaLegal P v) :
      (splitOperands ftaLegal os v).isSome = true ↔
        seSplittableList ftaLegal (fun s ↦ isProtocolSource s v) os = true := by
  induction os generalizing v with
  | nil => exact iff_of_true rfl rfl
  | cons o os ih =>
    rw [seSplittableList, Bool.and_eq_true, ← isSome_splitOperand_iff o
      (he o mem_cons_self) hv, splitOperands]
    cases h1 : splitOperand ftaLegal o v with
    | none => simp
    | some p =>
      obtain ⟨hext, hok, -⟩ := splitOperand_spec (I := unitInterp) (he o mem_cons_self) hv h1
      rw [← isProtocolSource_congr hext, ← ih (fun x hx ↦ he x (mem_cons_of_mem _ hx)) hok]
      cases h2 : splitOperands ftaLegal os p.2 with
      | none => simp [h2]
      | some q => simp [h2]

/-- **When splitting a predicate has a result.** -/
theorem isSome_splitFtavecPr_iff (p : Predicate) (hp : ∀ x ∈ p.leaves, SplitLeaf x ∧ P x)
    {v : SelectVec} (hv : VecOk ftaLegal P v) : (splitFtavecPr ftaLegal p v).isSome = true ↔
      prSplittable ftaLegal (fun s ↦ isProtocolSource s v) p = true := by
  induction p generalizing v with
  | compare l op r =>
    have hl := fun x hx ↦ hp x (mem_append_left _ hx)
    have hr := fun x hx ↦ hp x (mem_append_right _ hx)
    rw [prSplittable, Bool.and_eq_true, ← isSome_splitOperand_iff l hl hv, splitFtavecPr]
    cases h1 : splitOperand ftaLegal l v with
    | none => simp
    | some q =>
      obtain ⟨hext, hok, -⟩ := splitOperand_spec (I := unitInterp) hl hv h1
      rw [← isProtocolSource_congr hext, ← isSome_splitOperand_iff r hr hok]
      cases h2 : splitOperand ftaLegal r q.2 with
      | none => simp [h2]
      | some q => simp [h2]
  | isIn l lits =>
    rw [prSplittable, ← isSome_splitOperand_iff l hp hv, splitFtavecPr]
    cases splitOperand ftaLegal l v with
    | none => simp
    | some q => simp
  | unaryOp op l ih =>
    rw [prSplittable, ← ih hp hv, splitFtavecPr]
    cases splitFtavecPr ftaLegal l v with
    | none => simp
    | some q => simp
  | binaryOp op l r ihl ihr =>
    have hl := fun x hx ↦ hp x (mem_append_left _ hx)
    have hr := fun x hx ↦ hp x (mem_append_right _ hx)
    rw [prSplittable, Bool.and_eq_true, ← ihl hl hv, splitFtavecPr]
    cases h1 : splitFtavecPr ftaLegal l v with
    | none => simp
    | some q =>
      obtain ⟨hext, hok, -⟩ := splitFtavecPr_spec (I := unitInterp) l hl hv h1
      rw [← isProtocolSource_congr hext, ← ihr hr hok]
      cases h2 : splitFtavecPr ftaLegal r q.2 with
      | none => simp [h2]
      | some q => simp [h2]
  | func op os i =>
    rw [prSplittable, ← isSome_splitOperands_iff os
      (fun o ho x hx ↦ hp x (mem_flatMap.mpr ⟨o, ho, hx⟩)) hv, splitFtavecPr]
    cases splitOperands ftaLegal os v with
    | none => simp
    | some q => simp

end Pred

end Tigon.Ftacmp.Split
