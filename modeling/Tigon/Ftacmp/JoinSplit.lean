import Tigon.Lib.OuterJoin
import Tigon.Ftacmp.SelectProject

/-!
# Splitting a join

A join (`join_eq_hash_qpn`) has two sources.  For each of them that is a PROTOCOL, the split makes a
selection for the low level, and the join reads the rows of that selection instead.  Prefilters,
which refer to one source only, are pushed into its selection if the low level may evaluate them; of
all the other expressions, the low level computes what it can.

Rows of an outer join that match nothing are put out with an empty row in place of the other one.  A
column of an empty row has the empty value of its type, unless the join predicate says that it
equals an expression over the row that is there.

Three things go wrong.  The definitions of the query are copied inside of the loop over its
parameters, and are lost if there are none.  Splitting expressions may fail, as for a selection. 
And an expression that is pushed below an outer join has the empty value where its source is
missing, not the value that it has for an empty row.

Functions are total here.  A partial function that fails at the low level drops the tuple there, and
an outer join over it has no row for that tuple, padded or not; the original join may have one.

## What is here

* `splitNodeForFta` — the split, over one interface for each source.
* `Plan.Preserves` — what the plan has to do.
* `Splittable`, `CarriesDefinitions`, `PadStable` — what it takes.
-/

set_option autoImplicit false

namespace Tigon.JoinSplit

open Ftacmp.Parse Ftacmp.Split Ftacmp.Spx

/-! ## The query node -/

inductive Side
  | left | right
deriving DecidableEq, Repr

namespace Side

def other : Side → Side
  | left => right
  | right => left

/-- The position in the FROM list. -/
def ref : Side → Int
  | left => 0
  | right => 1

end Side

/-- A table variable.  `property` says that its rows are put out if they match nothing. -/
structure Tablevar where
  varName : String
  schemaName : String
  schemaRef : Int
  isProtocol : Bool
  property : Bool

structure JoinEqHashQpn where
  nodeName : String
  fromClause : Side → Tablevar
  selectList : List SelectElement
  prefilter : Side → List Predicate
  temporalEq : List Predicate
  hashEq : List Predicate
  postfilter : List Predicate
  paramTbl : List (String × Bool)
  definitions : List (String × String)

namespace JoinEqHashQpn

/-- The conjuncts that are evaluated on pairs. -/
def pairPreds (q : JoinEqHashQpn) : List Predicate := q.temporalEq ++ q.hashEq ++ q.postfilter

def leaves (q : JoinEqHashQpn) : List ScalarExp :=
  (q.selectList.flatMap fun el ↦ el.se.leaves) ++ (q.prefilter .left).flatMap Predicate.leaves ++
    (q.prefilter .right).flatMap Predicate.leaves ++ q.pairPreds.flatMap Predicate.leaves

end JoinEqHashQpn

/-- The selections of the low level, and the join. -/
structure Plan where
  child : Side → Option SpxQpn
  stream : JoinEqHashQpn

/-! ## Binding columns -/

/-- A column of table variable `prevRef` becomes one of table variable `newRef`. -/
def bindLeaf (varName : String) (prevRef newRef : Int) : ScalarExp → ScalarExp
  | .ifaceParam ifp =>
    if ifp.tablevarRef = prevRef then .ifaceParam { ifp with tablevarRef := newRef }
      else .ifaceParam ifp
  | .colref cr =>
    if cr.tablevarRef = prevRef then .colref { cr with tableName := varName, tablevarRef := newRef }
    else .colref cr
  | .gbref cr g =>
    if cr.tablevarRef = prevRef then .gbref
      { cr with tableName := varName, tablevarRef := newRef } g
    else .gbref cr g
  | e => e

def bindColrefSe (varName : String) (prevRef newRef : Int) : ScalarExp → ScalarExp :=
  ScalarExp.mapLeaves (bindLeaf varName prevRef newRef)

def bindColrefPr (varName : String) (prevRef newRef : Int) : Predicate → Predicate :=
  Predicate.mapLeaves (bindLeaf varName prevRef newRef)

/-- The columns of a selection, which has one table variable. -/
def bindChild (varName : String) (c : SpxQpn) : SpxQpn :=
  { c with
    selectList := c.selectList.map fun el ↦ { el with se := bindColrefSe varName 0 0 el.se }
    whereClause := c.whereClause.map (bindColrefPr varName 0 0) }

/-- The columns of one table variable of the join. -/
def bindStreamOnce (q : JoinEqHashQpn) (s : Side) : JoinEqHashQpn :=
  let pr := bindColrefPr (q.fromClause s).varName s.ref s.ref
  { q with
    selectList := q.selectList.map fun el ↦
      { el with se := bindColrefSe (q.fromClause s).varName s.ref s.ref el.se }
    prefilter := fun s' ↦ (q.prefilter s').map pr
    temporalEq := q.temporalEq.map pr
    hashEq := q.hashEq.map pr
    postfilter := q.postfilter.map pr }

def bindStream (q : JoinEqHashQpn) : JoinEqHashQpn := bindStreamOnce (bindStreamOnce q .left) .right

/-! ## The split -/

section Split

variable (ftaLegal : Nat → Bool)

/-- An expression of the select list.  If the low level can compute it, it is put on the select list
of its source. -/
def splitItem (se : ScalarExp) (vec : SelectVec) : Option (ScalarExp × SelectVec) := do
  let (s, vec) ← splitFtavecSe ftaLegal se vec
  if s.ftaForbidden || !isProtocolSource s.colrefSource vec then some (s.se, vec)
  else makeFtaSeRef vec s.se s.colrefSource

/-- The prefilters of one source: those of the join, and those of its selection. -/
def splitPrefilter (isProtocol : Bool) (prs : List Predicate) (vec : SelectVec) :
    Option (List Predicate × List Predicate × SelectVec) :=
  if isProtocol then splitWhere ftaLegal prs vec else some (prs, [], vec)

/-- The parameters and definitions that a new node gets: the definitions are set for each
parameter. -/
def carried (paramTbl : List (String × Bool)) (definitions : List (String × String)) :
    List (String × Bool) × List (String × String) :=
  paramTbl.foldl (fun c p ↦ (c.1 ++ [p], definitions.filter fun d ↦ d.1 != "_referenced_ifaces"))
    ([], [])

/-- The selection of a source. -/
def childOf (q : JoinEqHashQpn) (s : Side) (selectList : List SelectElement)
    (whereClause : List Predicate) : Option SpxQpn :=
  if (q.fromClause s).isProtocol then
    some (bindChild (q.fromClause s).varName
      { nodeName := "_fta_" ++ toString s.ref ++ "_" ++ q.nodeName
        tableName := (q.fromClause s).schemaName
        selectList := selectList
        whereClause := whereClause
        paramTbl := (carried q.paramTbl q.definitions).1
        definitions := (carried q.paramTbl q.definitions).2 })
  else none

/-- What the join reads in place of a source. -/
def streamTablevar (q : JoinEqHashQpn) (s : Side) : Tablevar :=
  if (q.fromClause s).isProtocol then
    { q.fromClause s with
      schemaName := "_fta_" ++ toString s.ref ++ "_" ++ q.nodeName
      isProtocol := false }
  else q.fromClause s

def splitNodeForFta (q : JoinEqHashQpn) : Option Plan :=
  if !(q.fromClause .left).isProtocol && !(q.fromClause .right).isProtocol then
    some ⟨fun _ ↦ none, q⟩
  else do
    let vec : SelectVec := [if (q.fromClause .left).isProtocol then some [] else none,
      if (q.fromClause .right).isProtocol then some [] else none]
    let (pre0, where0, vec) ← splitPrefilter ftaLegal (q.fromClause .left).isProtocol
      (q.prefilter .left) vec
    let (pre1, where1, vec) ←
      splitPrefilter ftaLegal (q.fromClause .right).isProtocol (q.prefilter .right) vec
    let (temporalEq, vec) ← splitFtavecPrs ftaLegal q.temporalEq vec
    let (hashEq, vec) ← splitFtavecPrs ftaLegal q.hashEq vec
    let (postfilter, vec) ← splitFtavecPrs ftaLegal q.postfilter vec
    let (selectList, vec) ← splitSelectList (splitItem ftaLegal) q.selectList vec
    some
      { child := fun s ↦ childOf q s ((listOf vec s.ref).getD [])
          (match s with | .left => where0 | .right => where1)
        stream := bindStream
          { nodeName := q.nodeName
            fromClause := streamTablevar q
            selectList := selectList
            prefilter := fun s ↦ match s with | .left => pre0 | .right => pre1
            temporalEq := temporalEq
            hashEq := hashEq
            postfilter := postfilter
            paramTbl := (carried q.paramTbl q.definitions).1
            definitions := (carried q.paramTbl q.definitions).2 } }

end Split

/-! ## Running a node -/

section Run

variable {V : Type}

/-- The values of the leaves for a tuple of each source.  Columns are looked up by the name of their
table variable, when the node is bound to the schema. -/
def nodeEnv (ρ : Env V) (junk : V) (varName : Side → String) (t : Side → Tuple V) : Env V :=
  { ρ with
    col := fun cr ↦
      if cr.tableName = varName .left then (t .left).col cr.field
      else if cr.tableName = varName .right then (t .right).col cr.field
      else junk
    ifp := fun ifp ↦
      if ifp.tablevarRef = 0 then (t .left).ifp ifp.pname
      else if ifp.tablevarRef = 1 then (t .right).ifp ifp.pname
      else junk }

/-- The values of the leaves for a tuple of a selection.  Parameters of an interface are those of
its own. -/
def childEnv (ρ : Env V) (junk : V) (varName : String) (t : Tuple V) : Env V :=
  { ρ with
    col := fun cr ↦ if cr.tableName = varName then t.col cr.field else junk
    ifp := fun ifp ↦ t.ifp ifp.pname }

/-- The tuple `t` on one side and `o` on the other. -/
def both (s : Side) (t o : Tuple V) (s' : Side) : Tuple V := if s' = s then t else o

/-- A tuple that is not looked at. -/
def junkTuple (junk : V) : Tuple V := ⟨fun _ ↦ junk, fun _ ↦ junk⟩

/-- A row of a selection, as a tuple of the join. -/
def rowTuple (junk : V) (row : Row V) : Tuple V := ⟨fun f ↦ (row.lookup f).getD junk, fun _ ↦ junk⟩

/-- The empty values of types: of a column of a source, and of other expressions. -/
structure Defaults (V : Type) where
  col : Int → String → V
  se : ScalarExp → V

def Defaults.emptyOf (d : Defaults V) : ScalarExp → V
  | .colref cr => d.col cr.tablevarRef cr.field
  | e => d.se e

/-- One side of an equality. -/
def sideOf (s : Side) : Predicate → Option ScalarExp
  | .compare l _ r =>
    match s with
    | .left => some l
    | .right => some r
  | _ => none

/-- What a column equals, by one equality. -/
def equivIn (s : Side) (field : String) (pr : Predicate) : Option ScalarExp :=
  match sideOf s pr with
  | some (.colref cr) => if cr.field = field then sideOf s.other pr else none
  | _ => none

namespace JoinEqHashQpn

variable (q : JoinEqHashQpn) (I : Interp V) (ρ : Env V) (junk : V)

def varName (s : Side) : String := (q.fromClause s).varName

/-- What a column equals (`l_equiv`, `r_equiv`); later equalities overwrite earlier ones. -/
def equivOf (s : Side) (field : String) : Option ScalarExp :=
  (q.hashEq ++ q.temporalEq).reverse.findSome? (equivIn s field)

/-- The empty tuple on side `s` for a tuple `t` on the other one. -/
def padTuple (dflt : Side → String → V) (s : Side) (t : Tuple V) : Tuple V where
  col := fun field ↦
    match q.equivOf s field with
    | some e => e.eval I (nodeEnv ρ junk q.varName (both s (junkTuple junk) t))
    | none => dflt s field
  ifp := fun _ ↦ junk

def pairRow (a b : Tuple V) : Option (Row V) :=
  if q.pairPreds.all fun pr ↦ pr.eval I (nodeEnv ρ junk q.varName (both .left a b)) then
    some (outputRow I (nodeEnv ρ junk q.varName (both .left a b)) q.selectList)
  else none

/-- The row of a tuple on side `s` that matches nothing. -/
def padRow (dflt : Side → String → V) (s : Side) (t : Tuple V) : Option (Row V) :=
  if (q.fromClause s).property then
    some (outputRow I (nodeEnv ρ junk q.varName (both s t (q.padTuple I ρ junk dflt s.other t)))
      q.selectList)
  else none

/-- The tuples of a source that meet its prefilters. -/
def admitted (s : Side) (ts : List (Tuple V)) : List (Tuple V) :=
  ts.filter fun t ↦ (q.prefilter s).all fun pr ↦
    pr.eval I (nodeEnv ρ junk q.varName (both s t (junkTuple junk)))

/-- The rows of the join. -/
def run (dflt : Side → String → V) (ts : Side → List (Tuple V)) : List (Row V) :=
  OuterJoin.join (q.pairRow I ρ junk) (q.padRow I ρ junk dflt .left) (q.padRow I ρ junk dflt .right)
    (q.admitted I ρ junk .left (ts .left)) (q.admitted I ρ junk .right (ts .right))

end JoinEqHashQpn

variable (I : Interp V) (ρ : Env V) (junk : V)

/-- The tuples that the join reads in place of a source. -/
def Plan.input (plan : Plan) (q : JoinEqHashQpn) (s : Side) (ts : List (Tuple V)) :
    List (Tuple V) :=
  match plan.child s with
  | some c => (c.run I (ts.map (childEnv ρ junk (q.varName s)))).map (rowTuple junk)
  | none => ts

/-- The empty value of a column of the join. -/
def Plan.dflt (plan : Plan) (d : Defaults V) (s : Side) (field : String) : V :=
  match plan.child s with
  | some c => ((c.selectList.find? fun el ↦ el.name = field).map fun el ↦ d.emptyOf el.se).getD junk
  | none => d.col s.ref field

def Plan.run (plan : Plan) (q : JoinEqHashQpn) (d : Defaults V) (ts : Side → List (Tuple V)) :
    List (Row V) :=
  plan.stream.run I ρ junk (plan.dflt junk d) fun s ↦ plan.input I ρ junk q s (ts s)

end Run

/-! ## What the plan has to do -/

/-- A leaf of a join: columns have the name, number and schema of their table variable. -/
def JoinLeaf (q : JoinEqHashQpn) : ScalarExp → Prop
  | .literal _ => True
  | .param _ => True
  | .ifaceParam ifp => ∃ s : Side, ifp.tablevarRef = s.ref
  | .colref cr => ∃ s : Side, cr.tablevarRef = s.ref ∧ cr.tableName = q.varName s ∧
      cr.schemaRef = (q.fromClause s).schemaRef
  | _ => False

/-- A join as it is built from a query: prefilters refer to one source, and equalities compare an
expression over the first source to one over the second.  One of these is between temporal
expressions, since a join needs a window. -/
structure JoinEqHashQpn.Ok (q : JoinEqHashQpn) : Prop where
  window : q.temporalEq ≠ []
  names : q.varName .left ≠ q.varName .right
  leaf : ∀ x ∈ q.leaves, JoinLeaf q x
  prefilter : ∀ s, ∀ pr ∈ q.prefilter s, ∀ x ∈ pr.leaves, LowLeaf s.ref x
  eq : ∀ pr ∈ q.hashEq ++ q.temporalEq, ∃ l op r, pr = .compare l op r ∧
    (∀ x ∈ l.leaves, LowLeaf 0 x) ∧ ∀ x ∈ r.leaves, LowLeaf 1 x

/-- A leaf of the selection of side `s`. -/
def OwnLeaf (q : JoinEqHashQpn) (s : Side) : ScalarExp → Prop
  | .literal _ => True
  | .param _ => True
  | .ifaceParam ifp => ifp.tablevarRef = s.ref
  | .colref cr => cr.tableName = q.varName s
  | _ => False

/-- A leaf of the join that its sources provide. -/
def StreamLeaf (q : JoinEqHashQpn) (plan : Plan) : ScalarExp → Prop
  | .literal _ => True
  | .param _ => True
  | .ifaceParam ifp => ∃ s : Side, ifp.tablevarRef = s.ref ∧ plan.child s = none
  | .colref cr => ∃ s : Side, cr.tablevarRef = s.ref ∧ cr.tableName = q.varName s ∧
      ∀ c, plan.child s = some c → cr.field ∈ c.selectList.map SelectElement.name
  | _ => False

/-- The plan means what the join means. -/
structure Plan.Preserves (ftaLegal : Nat → Bool) (q : JoinEqHashQpn) (plan : Plan) : Prop where
  /-- The low level may compute what it is given. -/
  legal : ∀ s c, plan.child s = some c →
    (∀ el ∈ c.selectList, checkFtaForbiddenSe ftaLegal el.se = true) ∧
      ∀ pr ∈ c.whereClause, checkFtaForbiddenPr ftaLegal pr = true
  /-- Each selection refers to its own source. -/
  own : ∀ s c, plan.child s = some c → ∀ x ∈ c.leaves, OwnLeaf q s x
  /-- The join reads from the selections what they provide. -/
  provided : (∀ s c, plan.child s = some c → (plan.stream.fromClause s).schemaName = c.nodeName) ∧
    ∀ x ∈ plan.stream.leaves, StreamLeaf q plan x
  /-- The selections carry the parameters and definitions. -/
  carries : ∀ s c, plan.child s = some c → c.paramTbl = q.paramTbl ∧
    c.definitions = q.definitions.filter fun d ↦ d.1 != "_referenced_ifaces"
  /-- The rows are those of the join. -/
  rows : ∀ {V : Type} (I : Interp V) (ρ : Env V) (junk : V) (d : Defaults V)
    (ts : Side → List (Tuple V)),
    plan.run I ρ junk q d ts = q.run I ρ junk (fun s f ↦ d.col s.ref f) ts

/-- The sources that are a PROTOCOL, by number. -/
def JoinEqHashQpn.prot (q : JoinEqHashQpn) (h : Int) : Bool :=
  (h == 0 && (q.fromClause .left).isProtocol) || (h == 1 && (q.fromClause .right).isProtocol)

/-- Every expression that has to be split can be. -/
structure Splittable (ftaLegal : Nat → Bool) (q : JoinEqHashQpn) : Prop where
  prefilter : ∀ s, (q.fromClause s).isProtocol = true → ∀ pr ∈ q.prefilter s,
    checkFtaForbiddenPr ftaLegal pr = false → prSplittable ftaLegal q.prot pr = true
  pairPreds : ∀ pr ∈ q.pairPreds, prSplittable ftaLegal q.prot pr = true
  selectList : ∀ el ∈ q.selectList, seSplittable ftaLegal q.prot el.se = true

/-- There is a parameter, or no definition. -/
def CarriesDefinitions (q : JoinEqHashQpn) : Prop :=
  q.paramTbl ≠ [] ∨ (q.definitions.filter fun d ↦ d.1 != "_referenced_ifaces") = []

/-- What is pushed into the selection of a source that may be missing from a row is a column. -/
def PadStable (ftaLegal : Nat → Bool) (q : JoinEqHashQpn) : Prop :=
  ∀ s : Side, (q.fromClause s.other).property = true → ∀ el ∈ q.selectList,
    ∀ p ∈ pushed ftaLegal q.prot el.se, seSource p = s.ref → ∃ cr, p = .colref cr

/-- Neither source is a PROTOCOL. -/
def StreamOnly (q : JoinEqHashQpn) : Prop := ∀ s, (q.fromClause s).isProtocol = false

/-! ## Parameters and definitions -/

theorem carried_eq (paramTbl : List (String × Bool)) (definitions : List (String × String)) :
    carried paramTbl definitions =
      (paramTbl, if paramTbl = [] then [] else definitions.filter fun d ↦
        d.1 != "_referenced_ifaces") := by
  have hfold : ∀ (ps ps0 : List (String × Bool)) (d0 : List (String × String)),
      ps.foldl (fun c p ↦ (c.1 ++ [p], definitions.filter fun d ↦ d.1 != "_referenced_ifaces"))
        (ps0, d0) = (ps0 ++ ps, if ps = [] then d0 else definitions.filter fun d ↦
          d.1 != "_referenced_ifaces") := by
    intro ps
    induction ps with
    | nil => simp
    | cons p ps ih =>
      intro ps0 d0
      rw [List.foldl_cons, ih, List.append_assoc, List.singleton_append]
      simp
  rw [carried, hfold, List.nil_append]

theorem carried_snd_eq_iff (q : JoinEqHashQpn) :
    (carried q.paramTbl q.definitions).2 =
      (q.definitions.filter fun d ↦ d.1 != "_referenced_ifaces") ↔ CarriesDefinitions q := by
  rw [carried_eq, CarriesDefinitions]
  by_cases h : q.paramTbl = []
  · simp only [h, if_true, ne_eq, not_true_eq_false, false_or]
    exact eq_comm
  · simp [h]

/-! ## Values of bound expressions -/

section Bind

variable {V : Type} {I : Interp V}

/-- The values of columns before the columns of a table variable are bound. -/
def bindEnv (varName : String) (r : Int) (ρ : Env V) : Env V :=
  { ρ with
    col := fun cr ↦
      if cr.tablevarRef = r then ρ.col { cr with tableName := varName, tablevarRef := r }
        else ρ.col cr }

theorem eval_bindLeaf {x : ScalarExp} (hx : x.isLeaf = true) (hd : ∀ cr g d, x ≠ .gbdef cr g d)
    (varName : String) (r : Int) (ρ : Env V) :
    (bindLeaf varName r r x).eval I ρ = x.eval I (bindEnv varName r ρ) := by
  cases x with
  | ifaceParam ifp =>
    rw [bindLeaf]
    split
    · rename_i h
      subst h
      rfl
    · rfl
  | colref cr =>
    simp only [bindLeaf, ScalarExp.eval, bindEnv]
    split <;> rfl
  | gbref cr g =>
    rw [bindLeaf]
    split <;> rfl
  | unaryOp op l => cases hx
  | binaryOp op l r => cases hx
  | gbdef cr g d => exact absurd rfl (hd cr g d)
  | func op os i a =>
    cases a with
    | none => cases hx
    | some a => rfl
  | _ => rfl

theorem eval_bindColrefSe {e : ScalarExp} (he : ∀ x ∈ e.leaves, ∀ cr g d, x ≠ .gbdef cr g d)
    (varName : String) (r : Int) (ρ : Env V) :
    (bindColrefSe varName r r e).eval I ρ = e.eval I (bindEnv varName r ρ) :=
  ScalarExp.eval_mapLeaves e fun x hx ↦
    eval_bindLeaf (ScalarExp.isLeaf_of_mem_leaves hx) (he x hx) varName r ρ

theorem eval_bindColrefPr {p : Predicate} (hp : ∀ x ∈ p.leaves, ∀ cr g d, x ≠ .gbdef cr g d)
    (varName : String) (r : Int) (ρ : Env V) :
    (bindColrefPr varName r r p).eval I ρ = p.eval I (bindEnv varName r ρ) :=
  Predicate.eval_mapLeaves p fun x hx ↦
    eval_bindLeaf (Predicate.isLeaf_of_mem_leaves hx) (hp x hx) varName r ρ

theorem isLeaf_bindLeaf {x : ScalarExp} (hx : x.isLeaf = true) (varName : String) (r r' : Int) :
    (bindLeaf varName r r' x).isLeaf = true := by
  cases x with
  | ifaceParam ifp =>
    rw [bindLeaf]
    split <;> rfl
  | colref cr =>
    rw [bindLeaf]
    split <;> rfl
  | gbref cr g =>
    rw [bindLeaf]
    split <;> rfl
  | unaryOp op l => cases hx
  | binaryOp op l r => cases hx
  | func op os i a =>
    cases a with
    | none => cases hx
    | some a => rfl
  | _ => rfl

/-- The leaves of a bound expression are its leaves, bound. -/
theorem leaves_bindColrefSe (varName : String) (r r' : Int) (e : ScalarExp) :
    (bindColrefSe varName r r' e).leaves = e.leaves.map (bindLeaf varName r r') := by
  rw [bindColrefSe, ScalarExp.leaves_mapLeaves, ← List.flatMap_pure_eq_map]
  refine List.flatMap_congr fun x hx ↦ ?_
  rw [ScalarExp.leaves_of_isLeaf (isLeaf_bindLeaf (ScalarExp.isLeaf_of_mem_leaves hx) _ _ _)]
  rfl

theorem leaves_bindColrefPr (varName : String) (r r' : Int) (p : Predicate) :
    (bindColrefPr varName r r' p).leaves = p.leaves.map (bindLeaf varName r r') := by
  rw [bindColrefPr, Predicate.leaves_mapLeaves, ← List.flatMap_pure_eq_map]
  refine List.flatMap_congr fun x hx ↦ ?_
  rw [ScalarExp.leaves_of_isLeaf (isLeaf_bindLeaf (Predicate.isLeaf_of_mem_leaves hx) _ _ _)]
  rfl

/-- An expression of the join, bound to both table variables. -/
def bindStreamSe (q : JoinEqHashQpn) (e : ScalarExp) : ScalarExp :=
  bindColrefSe (q.varName .right) 1 1 (bindColrefSe (q.varName .left) 0 0 e)

def bindStreamPr (q : JoinEqHashQpn) (p : Predicate) : Predicate :=
  bindColrefPr (q.varName .right) 1 1 (bindColrefPr (q.varName .left) 0 0 p)

theorem ne_gbdef_bindLeaf {x : ScalarExp} (hx : ∀ cr g d, x ≠ .gbdef cr g d) (varName : String)
    (r r' : Int) : ∀ cr g d, bindLeaf varName r r' x ≠ .gbdef cr g d := by
  intro cr g d
  cases x with
  | ifaceParam ifp =>
    rw [bindLeaf]
    split <;> simp
  | colref cr =>
    rw [bindLeaf]
    split <;> simp
  | gbref cr g =>
    rw [bindLeaf]
    split <;> simp
  | gbdef cr g d => exact absurd rfl (hx cr g d)
  | _ => simp [bindLeaf]

theorem eval_bindStreamSe {q : JoinEqHashQpn} {e : ScalarExp}
    (he : ∀ x ∈ e.leaves, ∀ cr g d, x ≠ .gbdef cr g d) (ρ : Env V) :
    (bindStreamSe q e).eval I ρ =
      e.eval I (bindEnv (q.varName .left) 0 (bindEnv (q.varName .right) 1 ρ)) := by
  rw [bindStreamSe, eval_bindColrefSe, eval_bindColrefSe he]
  intro x hx
  rw [leaves_bindColrefSe] at hx
  obtain ⟨y, hy, rfl⟩ := List.mem_map.mp hx
  exact ne_gbdef_bindLeaf (he y hy) _ _ _

theorem eval_bindStreamPr {q : JoinEqHashQpn} {p : Predicate}
    (hp : ∀ x ∈ p.leaves, ∀ cr g d, x ≠ .gbdef cr g d) (ρ : Env V) :
    (bindStreamPr q p).eval I ρ =
      p.eval I (bindEnv (q.varName .left) 0 (bindEnv (q.varName .right) 1 ρ)) := by
  rw [bindStreamPr, eval_bindColrefPr, eval_bindColrefPr hp]
  intro x hx
  rw [leaves_bindColrefPr] at hx
  obtain ⟨y, hy, rfl⟩ := List.mem_map.mp hx
  exact ne_gbdef_bindLeaf (hp y hy) _ _ _

end Bind

/-! ## The two levels of a join -/

section Sides

theorem ref_injective : Function.Injective Side.ref := by
  intro s s' h
  cases s <;> cases s' <;> first | rfl | cases h

theorem prot_ref (q : JoinEqHashQpn) (s : Side) : q.prot s.ref = (q.fromClause s).isProtocol := by
  cases s <;> simp [JoinEqHashQpn.prot, Side.ref]

theorem exists_ref_of_prot {q : JoinEqHashQpn} {h : Int} (hp : q.prot h = true) :
    ∃ s : Side, h = s.ref ∧ (q.fromClause s).isProtocol = true := by
  simp only [JoinEqHashQpn.prot, Bool.or_eq_true, Bool.and_eq_true, beq_iff_eq] at hp
  rcases hp with ⟨rfl, hp⟩ | ⟨rfl, hp⟩
  · exact ⟨.left, rfl, hp⟩
  · exact ⟨.right, rfl, hp⟩

theorem both_self {V : Type} (s : Side) (t o : Tuple V) : both s t o s = t := if_pos rfl

theorem both_other {V : Type} (s : Side) (t o : Tuple V) : both s t o s.other = o := by
  cases s <;> rfl

theorem eq_or_eq_other (s s' : Side) : s' = s ∨ s' = s.other := by
  cases s <;> cases s' <;> simp [Side.other]

end Sides

section Values

variable {V : Type} {I : Interp V} {q : JoinEqHashQpn}

/-- The values of the leaves by the number of their table variable. -/
def sidesEnv (ρ : Env V) (junk : V) (t : Side → Tuple V) : Env V :=
  sourceEnv
    { ρ with
      ifp := fun ifp ↦
        if ifp.tablevarRef = 0 then (t .left).ifp ifp.pname
        else if ifp.tablevarRef = 1 then (t .right).ifp ifp.pname
        else junk }
    fun h f ↦ if h = 0 then (t .left).col f else if h = 1 then (t .right).col f else junk

theorem sidesEnv_col (ρ : Env V) (junk : V) (t : Side → Tuple V) {s : Side} {cr : Colref}
    (h : cr.tablevarRef = s.ref) : (sidesEnv ρ junk t).col cr = (t s).col cr.field := by
  simp only [sidesEnv, sourceEnv, h]
  cases s <;> rfl

theorem sidesEnv_ifp (ρ : Env V) (junk : V) (t : Side → Tuple V) {s : Side} {ifp : Ifpref}
    (h : ifp.tablevarRef = s.ref) : (sidesEnv ρ junk t).ifp ifp = (t s).ifp ifp.pname := by
  simp only [sidesEnv, sourceEnv, h]
  cases s <;> rfl

theorem nodeEnv_col (hn : q.varName .left ≠ q.varName .right) (ρ : Env V) (junk : V)
    (t : Side → Tuple V) {s : Side} {cr : Colref} (h : cr.tableName = q.varName s) :
    (nodeEnv ρ junk q.varName t).col cr = (t s).col cr.field := by
  simp only [nodeEnv, h]
  cases s with
  | left => rw [if_pos rfl]
  | right => rw [if_neg hn.symm, if_pos rfl]

theorem nodeEnv_ifp (ρ : Env V) (junk : V) (t : Side → Tuple V) {s : Side} {ifp : Ifpref}
    (h : ifp.tablevarRef = s.ref) :
    (nodeEnv ρ junk q.varName t).ifp ifp = (t s).ifp ifp.pname := by
  simp only [nodeEnv, h]
  cases s <;> rfl

/-- A leaf of the query, by the name or by the number of its table variable. -/
theorem eval_nodeEnv_leaf (hn : q.varName .left ≠ q.varName .right) {x : ScalarExp}
    (hx : JoinLeaf q x) (ρ : Env V) (junk : V) (t : Side → Tuple V) :
    x.eval I (nodeEnv ρ junk q.varName t) = x.eval I (sidesEnv ρ junk t) := by
  cases x with
  | literal lit => rfl
  | param name => rfl
  | ifaceParam ifp =>
    obtain ⟨s, hs⟩ := hx
    rw [ScalarExp.eval, ScalarExp.eval, nodeEnv_ifp ρ junk t hs, sidesEnv_ifp ρ junk t hs]
  | colref cr =>
    obtain ⟨s, hs, hname, -⟩ := hx
    rw [ScalarExp.eval, ScalarExp.eval, nodeEnv_col hn ρ junk t hname, sidesEnv_col ρ junk t hs]
  | _ => exact hx.elim

/-- What the join reads on each side, when the selections have the select lists `v`. -/
def streamSide (I : Interp V) (v : SelectVec) (ρ : Env V) (junk : V) (t : Side → Tuple V)
    (s : Side) : Tuple V :=
  match listOf v s.ref with
  | some l => rowTuple junk (outputRow I (sidesEnv ρ junk t) l)
  | none => t s

/-- The tuples `t'` have the values that the join reads for a leaf. -/
def Agrees (I : Interp V) (v : SelectVec) (ρ : Env V) (junk : V) (t t' : Side → Tuple V) :
    ScalarExp → Prop
  | .colref cr => ∀ s : Side, cr.tablevarRef = s.ref →
      (t' s).col cr.field = (streamSide I v ρ junk t s).col cr.field
  | .ifaceParam ifp => ∀ s : Side, ifp.tablevarRef = s.ref →
      (t' s).ifp ifp.pname = (streamSide I v ρ junk t s).ifp ifp.pname
  | _ => True

variable {v : SelectVec}

variable {old new : List ScalarExp}

/-- A leaf that is known in the join is a leaf of the query or a column of a selection. -/
theorem exists_ref_of_known (htwo : (fun s ↦ isProtocolSource s v) = q.prot)
    (hold : ∀ x ∈ old, JoinLeaf q x) {cr : Colref} (hk : Known v old new (.colref cr)) :
    ∃ s : Side, cr.tablevarRef = s.ref := by
  rcases hk.2 with ⟨hx, -⟩ | ⟨l, hl, -⟩
  · obtain ⟨s, hs, -⟩ := hold _ hx
    exact ⟨s, hs⟩
  · obtain ⟨s, hs, -⟩ := exists_ref_of_prot (q := q) (h := cr.tablevarRef) (by
      rw [← htwo]
      simp [isProtocolSource, hl])
    exact ⟨s, hs⟩

theorem exists_ref_of_known_ifp (hold : ∀ x ∈ old, JoinLeaf q x)
    {ifp : Ifpref} (hk : Known v old new (.ifaceParam ifp)) :
    ∃ s : Side, ifp.tablevarRef = s.ref ∧ listOf v s.ref = none := by
  rcases hk.2 with ⟨hx, -⟩ | hx
  · obtain ⟨s, hs⟩ := hold _ hx
    exact ⟨s, hs, hs ▸ hk.1⟩
  · exact hx.elim

theorem ne_gbdef_of_known {x : ScalarExp} (hk : Known v old new x) :
    ∀ cr g d, x ≠ .gbdef cr g d := by
  rintro cr g d rfl
  exact hk.1

/-- A leaf that is known in the join has the value that it has over the rows of the selections. -/
theorem eval_bound_leaf (hn : q.varName .left ≠ q.varName .right)
    (htwo : (fun s ↦ isProtocolSource s v) = q.prot)
    (hold : ∀ x ∈ old, JoinLeaf q x) {x : ScalarExp} (hleaf : x.isLeaf = true)
    (hk : Known v old new x)
    {ρ : Env V} {junk : V} {t t' : Side → Tuple V} (ha : Agrees I v ρ junk t t' x) :
    x.eval I (bindEnv (q.varName .left)
      0 (bindEnv (q.varName .right) 1 (nodeEnv ρ junk q.varName t'))) =
        x.eval I (hftaEnv (sidesEnv ρ junk t) (rowsOf I (sidesEnv ρ junk t) v) junk) := by
  cases x with
  | colref cr =>
    obtain ⟨s, hs⟩ := exists_ref_of_known htwo hold hk
    have hbound : (bindEnv (q.varName .left) 0 (bindEnv (q.varName .right) 1
        (nodeEnv ρ junk q.varName t'))).col cr = (t' s).col cr.field := by
      simp only [bindEnv, hs]
      cases s with
      | left => exact nodeEnv_col hn (s := .left) ρ junk t' rfl
      | right => exact nodeEnv_col hn (s := .right) ρ junk t' rfl
    simp only [ScalarExp.eval]
    rw [hbound, ha s hs, streamSide]
    simp only [hftaEnv, rowsOf, hs]
    cases hl : listOf v s.ref with
    | none => simp [sidesEnv_col ρ junk t hs]
    | some l => rfl
  | ifaceParam ifp =>
    obtain ⟨s, hs, hnone⟩ := exists_ref_of_known_ifp hold hk
    have h1 := ha s hs
    rw [streamSide, hnone] at h1
    simp only [ScalarExp.eval, hftaEnv, rowsOf, hs, hnone, Option.map_none]
    rw [sidesEnv_ifp ρ junk t hs, ← h1]
    exact nodeEnv_ifp (q := q) ρ junk t' hs
  | gbdef cr g d => exact (ne_gbdef_of_known hk cr g d rfl).elim
  | unaryOp op l => cases hleaf
  | binaryOp op l r => cases hleaf
  | func op os i a =>
    cases a with
    | none => cases hleaf
    | some a => rfl
  | _ => rfl

/-- **An expression of the join** over what it reads from the selections has the value of the
expression of the query. -/
theorem eval_bindStreamSe_of_means {ftaLegal : Nat → Bool} (hn : q.varName .left ≠ q.varName .right)
    (htwo : (fun s ↦ isProtocolSource s v) = q.prot) {e e' : ScalarExp}
    (he : ∀ x ∈ e.leaves, JoinLeaf q x) (hm : Means ftaLegal I v e' e) {ρ : Env V} {junk : V}
    {t t' : Side → Tuple V} (ha : ∀ x ∈ e'.leaves, Agrees I v ρ junk t t' x) :
    (bindStreamSe q e').eval I (nodeEnv ρ junk q.varName t') =
      e.eval I (nodeEnv ρ junk q.varName t) := by
  rw [eval_bindStreamSe fun x hx ↦ ne_gbdef_of_known (hm.1 x hx),
    ScalarExp.eval_congr e' fun x hx ↦
      eval_bound_leaf hn htwo he (ScalarExp.isLeaf_of_mem_leaves hx) (hm.1 x hx) (ha x hx),
    ScalarExp.eval_congr e fun x hx ↦ eval_nodeEnv_leaf hn (he x hx) ρ junk t]
  exact hm.2 _ _ junk

theorem eval_bindStreamPr_of_means {ftaLegal : Nat → Bool} (hn : q.varName .left ≠ q.varName .right)
    (htwo : (fun s ↦ isProtocolSource s v) = q.prot) {p p' : Predicate}
    (hp : ∀ x ∈ p.leaves, JoinLeaf q x) (hm : MeansPr ftaLegal I v p' p) {ρ : Env V} {junk : V}
    {t t' : Side → Tuple V} (ha : ∀ x ∈ p'.leaves, Agrees I v ρ junk t t' x) :
    (bindStreamPr q p').eval I (nodeEnv ρ junk q.varName t') =
      p.eval I (nodeEnv ρ junk q.varName t) := by
  rw [eval_bindStreamPr fun x hx ↦ ne_gbdef_of_known (hm.1 x hx),
    Predicate.eval_congr p' fun x hx ↦
      eval_bound_leaf hn htwo hp (Predicate.isLeaf_of_mem_leaves hx) (hm.1 x hx) (ha x hx),
    Predicate.eval_congr p fun x hx ↦ eval_nodeEnv_leaf hn (hp x hx) ρ junk t]
  exact hm.2 _ _ junk

theorem agrees_streamSide (ρ : Env V) (junk : V) (t : Side → Tuple V) (x : ScalarExp) :
    Agrees I v ρ junk t (streamSide I v ρ junk t) x := by
  cases x with
  | colref cr => exact fun s _ ↦ rfl
  | ifaceParam ifp => exact fun s _ ↦ rfl
  | _ => trivial

end Values

/-! ## The selections -/

section Child

variable {V : Type} {I : Interp V} {q : JoinEqHashQpn} {ftaLegal : Nat → Bool}

/-- A leaf of a selection: it has a value over the tuples of its source. -/
theorem eval_childEnv_leaf {s : Side} {x : ScalarExp}
    (hx : LowLeaf s.ref x) (hj : JoinLeaf q x) (ρ : Env V) (junk : V) (t : Side → Tuple V) :
    x.eval I (bindEnv (q.varName s) 0 (childEnv ρ junk (q.varName s) (t s))) =
      x.eval I (sidesEnv ρ junk t) := by
  cases x with
  | literal lit => rfl
  | param name => rfl
  | ifaceParam ifp =>
    rw [ScalarExp.eval, ScalarExp.eval, sidesEnv_ifp ρ junk t (s := s) hx]
    rfl
  | colref cr =>
    obtain ⟨s', hs', hname, -⟩ := hj
    obtain rfl : s = s' := ref_injective ((show cr.tablevarRef = s.ref from hx).symm.trans hs')
    rw [ScalarExp.eval, ScalarExp.eval, sidesEnv_col ρ junk t hs']
    simp only [bindEnv, childEnv, hname, if_true, ite_self]
  | _ => exact hx.elim

theorem ne_gbdef_of_lowLeaf {h : Int} {x : ScalarExp} (hx : LowLeaf h x) :
    ∀ cr g d, x ≠ .gbdef cr g d := by
  rintro cr g d rfl
  exact hx

theorem eval_childEnv {s : Side} {e : ScalarExp}
    (he : ∀ x ∈ e.leaves, LowLeaf s.ref x ∧ JoinLeaf q x) (ρ : Env V) (junk : V)
    (t : Side → Tuple V) :
    (bindColrefSe (q.varName s) 0 0 e).eval I (childEnv ρ junk (q.varName s) (t s)) =
      e.eval I (sidesEnv ρ junk t) := by
  rw [eval_bindColrefSe fun x hx ↦ ne_gbdef_of_lowLeaf (he x hx).1]
  exact ScalarExp.eval_congr e fun x hx ↦ eval_childEnv_leaf (he x hx).1 (he x hx).2 ρ junk t

/-- A prefilter that is pushed into a selection. -/
theorem eval_childEnv_pr (hn : q.varName .left ≠ q.varName .right) {s : Side} {p : Predicate}
    (hp : ∀ x ∈ p.leaves, LowLeaf s.ref x ∧ JoinLeaf q x) (ρ : Env V) (junk : V)
    (t : Side → Tuple V) :
    (bindColrefPr (q.varName s) 0 0 p).eval I (childEnv ρ junk (q.varName s) (t s)) =
      p.eval I (nodeEnv ρ junk q.varName t) := by
  rw [eval_bindColrefPr fun x hx ↦ ne_gbdef_of_lowLeaf (hp x hx).1,
    Predicate.eval_congr p fun x hx ↦ eval_nodeEnv_leaf hn (hp x hx).2 ρ junk t]
  exact Predicate.eval_congr p fun x hx ↦ eval_childEnv_leaf (hp x hx).1 (hp x hx).2 ρ junk t

/-- The select list of a selection. -/
def childList (q : JoinEqHashQpn) (s : Side) (l : List SelectElement) : List SelectElement :=
  l.map fun el ↦ { el with se := bindColrefSe (q.varName s) 0 0 el.se }

theorem outputRow_childList {s : Side} {l : List SelectElement}
    (hl : ListOk ftaLegal (JoinLeaf q) s.ref l) (ρ : Env V) (junk : V) (t : Side → Tuple V) :
    outputRow I (childEnv ρ junk (q.varName s) (t s)) (childList q s l) =
      outputRow I (sidesEnv ρ junk t) l := by
  rw [outputRow, outputRow, childList, List.map_map]
  refine List.map_congr_left fun el hel ↦ ?_
  simp only [Function.comp_apply]
  rw [eval_childEnv (hl.low el hel).1]

theorem map_name_childList (s : Side) (l : List SelectElement) :
    (childList q s l).map SelectElement.name = l.map SelectElement.name := by
  rw [childList, List.map_map]
  rfl

theorem find?_childList {s : Side} {l : List SelectElement} (hl : (l.map SelectElement.name).Nodup)
    {el : SelectElement} (hel : el ∈ l) :
    (childList q s l).find? (fun el' ↦ el'.name = el.name) =
      some { el with se := bindColrefSe (q.varName s) 0 0 el.se } := by
  induction l with
  | nil => cases hel
  | cons x l ih =>
    rw [List.map_cons, List.nodup_cons] at hl
    rw [childList, List.map_cons, List.find?_cons]
    rcases List.mem_cons.mp hel with rfl | hel
    · simp
    · have hne : x.name ≠ el.name := fun h ↦ hl.1 (h ▸ List.mem_map_of_mem hel)
      simp only [hne, decide_false]
      exact ih hl.2 hel

/-- What the join reads on side `s` for a tuple of its source. -/
def streamTuple (I : Interp V) (q : JoinEqHashQpn) (v : SelectVec) (ρ : Env V) (junk : V) (s : Side)
    (a : Tuple V) : Tuple V :=
  match listOf v s.ref with
  | some l => rowTuple junk (outputRow I (childEnv ρ junk (q.varName s) a) (childList q s l))
  | none => a

theorem streamTuple_eq {v : SelectVec}
    (hv : VecOk ftaLegal (JoinLeaf q) v) (ρ : Env V) (junk : V) (t : Side → Tuple V) (s : Side) :
    streamTuple I q v ρ junk s (t s) = streamSide I v ρ junk t s := by
  rw [streamTuple, streamSide]
  cases hl : listOf v s.ref with
  | none => rfl
  | some l => simp only [outputRow_childList (hv _ l hl) ρ junk t]

end Child

end Tigon.JoinSplit
