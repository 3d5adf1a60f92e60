import Mathlib

/-!
# Scalar expressions and predicates of a parsed query

The expressions of a query are trees whose inner nodes are operators and function calls.  Their
leaves are literals, parameters of the query, parameters of an interface, columns, references to
group-by variables, and references to aggregates.  The compiler rewrites queries by replacing
leaves, or by replacing whole subtrees by columns of another query.

`ScalarExp.eval` gives an expression its value, once the operators have a meaning (`Interp`) and the
leaves have values (`Env`).  `eval_mapLeaves` is the rule for all rewritings that replace leaves
only. `eval_eq_of_isEquivalentSe` says that expressions which the compiler takes for equivalent have
the same value.

The data types that the compiler attaches to the nodes are left out, as are positions in the query
text. -/

set_option autoImplicit false

namespace Tigon.Ftacmp.Parse

/-- A literal is kept as its text and a number for its kind. -/
structure Literal where
  lstring : String
  ltype : Nat
deriving DecidableEq, Repr

/-- A reference to a parameter of the interface that a table variable reads from. -/
structure Ifpref where
  pname : String
  tablevarRef : Int
deriving DecidableEq, Repr

/-- A reference to a column: of which table variable, by name and by its position in the FROM list,
and of which schema. -/
structure Colref where
  tableName : String
  field : String
  schemaRef : Int
  tablevarRef : Int
deriving DecidableEq, Repr

/-- Columns are compared by schema and field. -/
def Colref.isEquivalent (c c2 : Colref) : Bool :=
  c.schemaRef == c2.schemaRef && c.field == c2.field

/-- Scalar expressions.  A column that is a group-by variable is a `gbref`; once the definition of
the variable is attached to it, it is a `gbdef`.  A function with an entry in the aggregate table is
a user-defined aggregate. -/
inductive ScalarExp
  | literal (lit : Literal)
  | param (name : String)
  | ifaceParam (ifp : Ifpref)
  | colref (cr : Colref)
  | gbref (cr : Colref) (gbRef : Nat)
  | gbdef (cr : Colref) (gbRef : Nat) (defn : ScalarExp)
  | unaryOp (op : String) (l : ScalarExp)
  | binaryOp (op : String) (l r : ScalarExp)
  | aggrStar (op : String) (aggrId : Option Nat)
  | aggrSe (op : String) (l : ScalarExp) (aggrId : Option Nat)
  | func (op : String) (operands : List ScalarExp) (fcnId : Nat) (aggrId : Option Nat)

/-- Predicates.  The only unary operator is negation, the only binary ones are `AND` and `OR`. -/
inductive Predicate
  | compare (l : ScalarExp) (op : String) (r : ScalarExp)
  | isIn (l : ScalarExp) (lits : List Literal)
  | unaryOp (op : String) (l : Predicate)
  | binaryOp (op : String) (l r : Predicate)
  | func (op : String) (operands : List ScalarExp) (fcnId : Nat)

/-- Induction on an expression; the operands of a function call are all smaller. -/
@[induction_eliminator, elab_as_elim]
theorem ScalarExp.induct {motive : ScalarExp → Prop}
    (literal : ∀ lit, motive (.literal lit)) (param : ∀ name, motive (.param name))
    (ifaceParam : ∀ ifp, motive (.ifaceParam ifp)) (colref : ∀ cr, motive (.colref cr))
    (gbref : ∀ cr g, motive (.gbref cr g))
    (gbdef : ∀ cr g d, motive d → motive (.gbdef cr g d))
    (unaryOp : ∀ op l, motive l → motive (.unaryOp op l))
    (binaryOp : ∀ op l r, motive l → motive r → motive (.binaryOp op l r))
    (aggrStar : ∀ op a, motive (.aggrStar op a))
    (aggrSe : ∀ op l a, motive l → motive (.aggrSe op l a))
    (func : ∀ op os f a, (∀ o ∈ os, motive o) → motive (.func op os f a))
    (e : ScalarExp) : motive e :=
  @ScalarExp.rec motive (fun os ↦ ∀ o ∈ os, motive o) literal param ifaceParam colref gbref gbdef
    unaryOp binaryOp aggrStar aggrSe func (fun o ho ↦ by cases ho)
    (fun o os ho hos x hx ↦ by
      rcases List.mem_cons.mp hx with rfl | hx
      · exact ho
      · exact hos x hx) e

/-! ## Values -/

/-- What operators, functions and comparisons do to values of type `V`. -/
structure Interp (V : Type) where
  lit : Literal → V
  unary : String → V → V
  binary : String → V → V → V
  fcn : String → List V → V
  compare : String → V → V → Bool
  isLit : V → Literal → Bool
  pred : String → List V → Bool

/-- The values of the leaves.  The value of an aggregate is the one of its entry in the aggregate
table. -/
structure Env (V : Type) where
  param : String → V
  ifp : Ifpref → V
  col : Colref → V
  gb : Nat → V
  aggr : Option Nat → V

variable {V : Type}

namespace ScalarExp

mutual

/-- The value of an expression. -/
def eval (I : Interp V) (ρ : Env V) : ScalarExp → V
  | .literal lit => I.lit lit
  | .param name => ρ.param name
  | .ifaceParam ifp => ρ.ifp ifp
  | .colref cr => ρ.col cr
  | .gbref _ g => ρ.gb g
  | .gbdef _ _ d => eval I ρ d
  | .unaryOp op l => I.unary op (eval I ρ l)
  | .binaryOp op l r => I.binary op (eval I ρ l) (eval I ρ r)
  | .aggrStar _ a => ρ.aggr a
  | .aggrSe _ _ a => ρ.aggr a
  | .func op os _ none => I.fcn op (evalList I ρ os)
  | .func _ _ _ (some a) => ρ.aggr (some a)

def evalList (I : Interp V) (ρ : Env V) : List ScalarExp → List V
  | [] => []
  | o :: os => eval I ρ o :: evalList I ρ os

end

@[simp]
theorem evalList_eq_map (I : Interp V) (ρ : Env V) (os : List ScalarExp) :
    evalList I ρ os = os.map (eval I ρ) := by
  induction os with
  | nil => rfl
  | cons o os ih => rw [evalList, ih, List.map_cons]

end ScalarExp

/-- Whether a predicate holds. -/
def Predicate.eval (I : Interp V) (ρ : Env V) : Predicate → Bool
  | .compare l op r => I.compare op (l.eval I ρ) (r.eval I ρ)
  | .isIn l lits => lits.any fun lit ↦ I.isLit (l.eval I ρ) lit
  | .unaryOp _ l => !l.eval I ρ
  | .binaryOp op l r => if op = "AND" then l.eval I ρ && r.eval I ρ else l.eval I ρ || r.eval I ρ
  | .func op os _ => I.pred op (os.map fun o ↦ o.eval I ρ)

/-! ## Leaves -/

namespace ScalarExp

mutual

/-- The leaves of an expression, from left to right.  Aggregates are leaves, whatever their
operands. -/
def leaves : ScalarExp → List ScalarExp
  | .unaryOp _ l => leaves l
  | .binaryOp _ l r => leaves l ++ leaves r
  | .func _ os _ none => leavesList os
  | e => [e]

def leavesList : List ScalarExp → List ScalarExp
  | [] => []
  | o :: os => leaves o ++ leavesList os

end

@[simp]
theorem leavesList_eq_flatMap (os : List ScalarExp) : leavesList os = os.flatMap leaves := by
  induction os with
  | nil => rfl
  | cons o os ih => rw [leavesList, ih, List.flatMap_cons]

mutual

/-- The expression with every leaf replaced. -/
def mapLeaves (f : ScalarExp → ScalarExp) : ScalarExp → ScalarExp
  | .unaryOp op l => .unaryOp op (mapLeaves f l)
  | .binaryOp op l r => .binaryOp op (mapLeaves f l) (mapLeaves f r)
  | .func op os i none => .func op (mapLeavesList f os) i none
  | e => f e

def mapLeavesList (f : ScalarExp → ScalarExp) : List ScalarExp → List ScalarExp
  | [] => []
  | o :: os => mapLeaves f o :: mapLeavesList f os

end

@[simp]
theorem mapLeavesList_eq_map (f : ScalarExp → ScalarExp) (os : List ScalarExp) :
    mapLeavesList f os = os.map (mapLeaves f) := by
  induction os with
  | nil => rfl
  | cons o os ih => rw [mapLeavesList, ih, List.map_cons]

/-- **Replacing leaves.**  The value of the result is the value of the expression in an environment
that gives every leaf the value of what it is replaced by. -/
theorem eval_mapLeaves {I : Interp V} {ρ ρ' : Env V} {f : ScalarExp → ScalarExp} (e : ScalarExp)
    (h : ∀ x ∈ e.leaves, (f x).eval I ρ = x.eval I ρ') :
    (e.mapLeaves f).eval I ρ = e.eval I ρ' := by
  induction e with
  | unaryOp op l ih =>
    simp only [mapLeaves, eval]
    rw [ih h]
  | binaryOp op l r ihl ihr =>
    simp only [mapLeaves, eval]
    rw [ihl fun x hx ↦ h x (List.mem_append_left _ hx),
      ihr fun x hx ↦ h x (List.mem_append_right _ hx)]
  | func op os i a ih =>
    cases a with
    | none =>
      simp only [mapLeaves, eval, mapLeavesList_eq_map, evalList_eq_map, List.map_map]
      congr 1
      refine List.map_congr_left fun o ho ↦ ih o ho fun x hx ↦ h x ?_
      rw [leaves, leavesList_eq_flatMap]
      exact List.mem_flatMap.mpr ⟨o, ho, hx⟩
    | some a => exact h _ (by simp [leaves])
  | literal lit => exact h _ (by simp [leaves])
  | param name => exact h _ (by simp [leaves])
  | ifaceParam ifp => exact h _ (by simp [leaves])
  | colref cr => exact h _ (by simp [leaves])
  | gbref cr g => exact h _ (by simp [leaves])
  | gbdef cr g d ih => exact h _ (by simp [leaves])
  | aggrStar op a => exact h _ (by simp [leaves])
  | aggrSe op l a ih => exact h _ (by simp [leaves])

theorem mapLeaves_id (e : ScalarExp) : e.mapLeaves id = e := by
  induction e with
  | unaryOp op l ih => rw [mapLeaves, ih]
  | binaryOp op l r ihl ihr => rw [mapLeaves, ihl, ihr]
  | func op os i a ih =>
    cases a with
    | none =>
      rw [mapLeaves, mapLeavesList_eq_map, List.map_congr_left ih, List.map_id']
    | some a => rfl
  | _ => rfl

/-- The value of an expression depends on its leaves only. -/
theorem eval_congr {I : Interp V} {ρ ρ' : Env V} (e : ScalarExp)
    (h : ∀ x ∈ e.leaves, x.eval I ρ = x.eval I ρ') : e.eval I ρ = e.eval I ρ' := by
  rw [← eval_mapLeaves (f := id) e h, mapLeaves_id]

/-- Neither an operator nor a call of a function. -/
def isLeaf : ScalarExp → Bool
  | .unaryOp _ _ => false
  | .binaryOp _ _ _ => false
  | .func _ _ _ none => false
  | _ => true

theorem leaves_of_isLeaf {x : ScalarExp} (h : x.isLeaf = true) : x.leaves = [x] := by
  cases x with
  | unaryOp op l => simp [isLeaf] at h
  | binaryOp op l r => simp [isLeaf] at h
  | func op os i a =>
    cases a with
    | none => simp [isLeaf] at h
    | some a => rfl
  | _ => rfl

theorem isLeaf_of_mem_leaves {x e : ScalarExp} (h : x ∈ e.leaves) : x.isLeaf = true := by
  induction e with
  | unaryOp op l ih => exact ih h
  | binaryOp op l r ihl ihr => exact (List.mem_append.mp h).elim ihl ihr
  | func op os i a ih =>
    cases a with
    | none =>
      rw [leaves, leavesList_eq_flatMap] at h
      obtain ⟨o, ho, hx⟩ := List.mem_flatMap.mp h
      exact ih o ho hx
    | some a => rw [List.mem_singleton.mp h]; rfl
  | _ => rw [List.mem_singleton.mp h]; rfl

/-- The leaves of the result are those of what the leaves are replaced by. -/
theorem leaves_mapLeaves (f : ScalarExp → ScalarExp) (e : ScalarExp) :
    (e.mapLeaves f).leaves = e.leaves.flatMap fun x ↦ (f x).leaves := by
  induction e with
  | unaryOp op l ih => rw [mapLeaves, leaves, leaves, ih]
  | binaryOp op l r ihl ihr => rw [mapLeaves, leaves, leaves, ihl, ihr, List.flatMap_append]
  | func op os i a ih =>
    cases a with
    | none =>
      rw [mapLeaves, leaves, leaves, leavesList_eq_flatMap, leavesList_eq_flatMap,
        mapLeavesList_eq_map, List.flatMap_map, List.flatMap_assoc]
      exact List.flatMap_congr ih
    | some a => simp [mapLeaves, leaves]
  | _ => simp [mapLeaves, leaves]

end ScalarExp

namespace Predicate

/-- The leaves of the expressions in a predicate. -/
def leaves : Predicate → List ScalarExp
  | .compare l _ r => l.leaves ++ r.leaves
  | .isIn l _ => l.leaves
  | .unaryOp _ l => l.leaves
  | .binaryOp _ l r => l.leaves ++ r.leaves
  | .func _ os _ => os.flatMap ScalarExp.leaves

theorem isLeaf_of_mem_leaves {x : ScalarExp} {p : Predicate} (h : x ∈ p.leaves) :
    x.isLeaf = true := by
  induction p with
  | compare l op r =>
    exact (List.mem_append.mp h).elim ScalarExp.isLeaf_of_mem_leaves ScalarExp.isLeaf_of_mem_leaves
  | isIn l lits => exact ScalarExp.isLeaf_of_mem_leaves h
  | unaryOp op l ih => exact ih h
  | binaryOp op l r ihl ihr => exact (List.mem_append.mp h).elim ihl ihr
  | func op os i =>
    obtain ⟨o, _, hx⟩ := List.mem_flatMap.mp h
    exact ScalarExp.isLeaf_of_mem_leaves hx

/-- The predicate with the leaves of its expressions replaced. -/
def mapLeaves (f : ScalarExp → ScalarExp) : Predicate → Predicate
  | .compare l op r => .compare (l.mapLeaves f) op (r.mapLeaves f)
  | .isIn l lits => .isIn (l.mapLeaves f) lits
  | .unaryOp op l => .unaryOp op (l.mapLeaves f)
  | .binaryOp op l r => .binaryOp op (l.mapLeaves f) (r.mapLeaves f)
  | .func op os i => .func op (os.map (ScalarExp.mapLeaves f)) i

theorem eval_mapLeaves {I : Interp V} {ρ ρ' : Env V} {f : ScalarExp → ScalarExp} (p : Predicate)
    (h : ∀ x ∈ p.leaves, (f x).eval I ρ = x.eval I ρ') :
    (p.mapLeaves f).eval I ρ = p.eval I ρ' := by
  induction p with
  | compare l op r =>
    simp only [mapLeaves, eval]
    rw [ScalarExp.eval_mapLeaves l fun x hx ↦ h x (List.mem_append_left _ hx),
      ScalarExp.eval_mapLeaves r fun x hx ↦ h x (List.mem_append_right _ hx)]
  | isIn l lits =>
    simp only [mapLeaves, eval]
    rw [ScalarExp.eval_mapLeaves l h]
  | unaryOp op l ih =>
    simp only [mapLeaves, eval]
    rw [ih h]
  | binaryOp op l r ihl ihr =>
    simp only [mapLeaves, eval]
    rw [ihl fun x hx ↦ h x (List.mem_append_left _ hx),
      ihr fun x hx ↦ h x (List.mem_append_right _ hx)]
  | func op os i =>
    simp only [mapLeaves, eval, List.map_map]
    congr 1
    exact List.map_congr_left fun o ho ↦
      ScalarExp.eval_mapLeaves o fun x hx ↦ h x (List.mem_flatMap.mpr ⟨o, ho, hx⟩)

theorem mapLeaves_id (p : Predicate) : p.mapLeaves id = p := by
  induction p with
  | compare l op r => rw [mapLeaves, ScalarExp.mapLeaves_id, ScalarExp.mapLeaves_id]
  | isIn l lits => rw [mapLeaves, ScalarExp.mapLeaves_id]
  | unaryOp op l ih => rw [mapLeaves, ih]
  | binaryOp op l r ihl ihr => rw [mapLeaves, ihl, ihr]
  | func op os i =>
    rw [mapLeaves, List.map_congr_left fun o _ ↦ ScalarExp.mapLeaves_id o, List.map_id']

/-- Whether a predicate holds depends on its leaves only. -/
theorem eval_congr {I : Interp V} {ρ ρ' : Env V} (p : Predicate)
    (h : ∀ x ∈ p.leaves, x.eval I ρ = x.eval I ρ') : p.eval I ρ = p.eval I ρ' := by
  rw [← eval_mapLeaves (f := id) p h, mapLeaves_id]

theorem leaves_mapLeaves (f : ScalarExp → ScalarExp) (p : Predicate) :
    (p.mapLeaves f).leaves = p.leaves.flatMap fun x ↦ (f x).leaves := by
  induction p with
  | compare l op r =>
    rw [mapLeaves, leaves, leaves, ScalarExp.leaves_mapLeaves, ScalarExp.leaves_mapLeaves,
      List.flatMap_append]
  | isIn l lits => rw [mapLeaves, leaves, leaves, ScalarExp.leaves_mapLeaves]
  | unaryOp op l ih => rw [mapLeaves, leaves, leaves, ih]
  | binaryOp op l r ihl ihr => rw [mapLeaves, leaves, leaves, ihl, ihr, List.flatMap_append]
  | func op os i =>
    rw [mapLeaves, leaves, leaves, List.flatMap_map, List.flatMap_assoc]
    exact List.flatMap_congr fun o _ ↦ ScalarExp.leaves_mapLeaves f o

end Predicate

/-! ## Equivalent expressions -/

namespace ScalarExp

/-- The number of the group-by variable that a column refers to. -/
def gbRef? : ScalarExp → Option Nat
  | .gbref _ g => some g
  | .gbdef _ g _ => some g
  | _ => none

/-- An aggregate, built in or user-defined. -/
def isAggr : ScalarExp → Bool
  | .aggrStar _ _ => true
  | .aggrSe _ _ _ => true
  | .func _ _ _ (some _) => true
  | _ => false

mutual

/-- Whether two expressions represent the same value. -/
def isEquivalentSe : ScalarExp → ScalarExp → Bool
  | .literal a, .literal b => a == b
  | .param a, .param b => a == b
  | .ifaceParam a, .ifaceParam b => a == b
  | .colref a, .colref b => a.isEquivalent b
  | .gbref _ g, e => e.gbRef? == some g
  | .gbdef _ g _, e => e.gbRef? == some g
  | .unaryOp op l, .unaryOp op' l' => op == op' && isEquivalentSe l l'
  | .binaryOp op l r, .binaryOp op' l' r' => op == op' && isEquivalentSe l l' && isEquivalentSe r r'
  | .aggrStar op _, .aggrStar op' _ => op == op'
  | .aggrSe op l _, .aggrSe op' l' _ => op == op' && isEquivalentSe l l'
  | .func op os _ _, .func op' os' _ _ => op == op' && isEquivalentSeList os os'
  | _, _ => false

def isEquivalentSeList : List ScalarExp → List ScalarExp → Bool
  | [], [] => true
  | o :: os, o' :: os' => isEquivalentSe o o' && isEquivalentSeList os os'
  | _, _ => false

end

mutual

/-- An expression without what `isEquivalentSe` does not look at. -/
def key : ScalarExp → ScalarExp
  | .colref cr => .colref ⟨"", cr.field, cr.schemaRef, 0⟩
  | .gbref _ g => .gbref ⟨"", "", 0, 0⟩ g
  | .gbdef _ g _ => .gbref ⟨"", "", 0, 0⟩ g
  | .unaryOp op l => .unaryOp op (key l)
  | .binaryOp op l r => .binaryOp op (key l) (key r)
  | .aggrStar op _ => .aggrStar op none
  | .aggrSe op l _ => .aggrSe op (key l) none
  | .func op os _ _ => .func op (keyList os) 0 none
  | e => e

def keyList : List ScalarExp → List ScalarExp
  | [] => []
  | o :: os => key o :: keyList os

end

@[simp]
theorem keyList_eq_map (os : List ScalarExp) : keyList os = os.map key := by
  induction os with
  | nil => rfl
  | cons o os ih => rw [keyList, ih, List.map_cons]

theorem gbRef?_eq_some_iff (e : ScalarExp) (g : Nat) :
    e.gbRef? = some g ↔ e.key = .gbref ⟨"", "", 0, 0⟩ g := by
  cases e <;> simp [gbRef?, key]

theorem isEquivalentSeList_iff {os : List ScalarExp}
    (h : ∀ o ∈ os, ∀ e, isEquivalentSe o e = true ↔ o.key = e.key) (os' : List ScalarExp) :
    isEquivalentSeList os os' = true ↔ os.map key = os'.map key := by
  induction os generalizing os' with
  | nil => cases os' <;> simp [isEquivalentSeList]
  | cons o os ih =>
    cases os' with
    | nil => simp [isEquivalentSeList]
    | cons o' os' =>
      rw [isEquivalentSeList, Bool.and_eq_true, h o List.mem_cons_self,
        ih (fun x hx ↦ h x (List.mem_cons_of_mem _ hx)), List.map_cons, List.map_cons,
          List.cons.injEq]

/-- Two expressions are equivalent when they differ only in what the compiler does not look at. -/
theorem isEquivalentSe_iff (e e' : ScalarExp) : isEquivalentSe e e' = true ↔ e.key = e'.key := by
  induction e generalizing e' with
  | literal lit => cases e' <;> simp [isEquivalentSe, key]
  | param name => cases e' <;> simp [isEquivalentSe, key]
  | ifaceParam ifp => cases e' <;> simp [isEquivalentSe, key]
  | colref cr =>
    cases e' <;> simp [isEquivalentSe, key, Colref.isEquivalent]
    exact and_comm
  | gbref cr g => rw [isEquivalentSe, beq_iff_eq, gbRef?_eq_some_iff, key, eq_comm]
  | gbdef cr g d ih => rw [isEquivalentSe, beq_iff_eq, gbRef?_eq_some_iff, key, eq_comm]
  | unaryOp op l ih => cases e' <;> simp [isEquivalentSe, key, ih]
  | binaryOp op l r ihl ihr => cases e' <;> simp [isEquivalentSe, key, ihl, ihr, and_assoc]
  | aggrStar op a => cases e' <;> simp [isEquivalentSe, key]
  | aggrSe op l a ih => cases e' <;> simp [isEquivalentSe, key, ih]
  | func op os i a ih =>
    cases e' with
    | func op' os' i' a' => simp [isEquivalentSe, key, isEquivalentSeList_iff ih]
    | _ => simp [isEquivalentSe, key]

theorem map_eq_of_isEquivalentSeList {α : Type} {f : ScalarExp → α} {os os' : List ScalarExp}
    (h : isEquivalentSeList os os' = true)
    (hf : ∀ o ∈ os, ∀ o' ∈ os', isEquivalentSe o o' = true → f o = f o') :
      os.map f = os'.map f := by
  induction os generalizing os' with
  | nil => cases os' <;> simp_all [isEquivalentSeList]
  | cons o os ih =>
    cases os' with
    | nil => simp [isEquivalentSeList] at h
    | cons o' os' =>
      simp only [isEquivalentSeList, Bool.and_eq_true] at h
      rw [List.map_cons, List.map_cons, hf o List.mem_cons_self o' List.mem_cons_self h.1,
        ih h.2 fun x hx y hy ↦ hf x (List.mem_cons_of_mem _ hx) y (List.mem_cons_of_mem _ hy)]

/-- **Equivalent expressions have the same value**, where columns of one schema and field have: the
expressions may not contain aggregates. -/
theorem eval_eq_of_isEquivalentSe {I : Interp V} {ρ : Env V} {e e' : ScalarExp}
    (h : isEquivalentSe e e' = true)
    (ha : ∀ x ∈ e.leaves, x.isAggr = false) (ha' : ∀ x ∈ e'.leaves, x.isAggr = false)
    (hg : ∀ x ∈ e.leaves, x.gbRef? = none)
    (hc : ∀ c, .colref c ∈ e.leaves → ∀ c', .colref c' ∈ e'.leaves → c.isEquivalent c' = true →
      ρ.col c = ρ.col c') : e.eval I ρ = e'.eval I ρ := by
  induction e generalizing e' with
  | literal lit => cases e' <;> simp_all [isEquivalentSe]
  | param name => cases e' <;> simp_all [isEquivalentSe]
  | ifaceParam ifp => cases e' <;> simp_all [isEquivalentSe]
  | colref cr =>
    cases e' with
    | colref cr' => exact hc cr (by simp [leaves]) cr' (by simp [leaves]) h
    | _ => simp [isEquivalentSe] at h
  | gbref cr g => simp [leaves, gbRef?] at hg
  | gbdef cr g d ih => simp [leaves, gbRef?] at hg
  | unaryOp op l ih =>
    cases e' with
    | unaryOp op' l' =>
      simp only [isEquivalentSe, Bool.and_eq_true, beq_iff_eq] at h
      rw [eval, eval, h.1, ih h.2 ha ha' hg hc]
    | _ => simp [isEquivalentSe] at h
  | binaryOp op l r ihl ihr =>
    cases e' with
    | binaryOp op' l' r' =>
      simp only [isEquivalentSe, Bool.and_eq_true, beq_iff_eq] at h
      simp only [leaves, List.mem_append] at ha ha' hg hc
      rw [eval, eval, h.1.1,
        ihl h.1.2 (fun x hx ↦ ha x (.inl hx)) (fun x hx ↦ ha' x (.inl hx))
          (fun x hx ↦ hg x (.inl hx)) (fun c h1 c' h2 ↦ hc c (.inl h1) c' (.inl h2)),
        ihr h.2 (fun x hx ↦ ha x (.inr hx)) (fun x hx ↦ ha' x (.inr hx)) (fun x hx ↦ hg x (.inr hx))
          (fun c h1 c' h2 ↦ hc c (.inr h1) c' (.inr h2))]
    | _ => simp [isEquivalentSe] at h
  | aggrStar op a => simp [leaves, isAggr] at ha
  | aggrSe op l a ih => simp [leaves, isAggr] at ha
  | func op os i a ih =>
    cases e' with
    | func op' os' i' a' =>
      cases a with
      | some a => simp [leaves, isAggr] at ha
      | none =>
        cases a' with
        | some a' => simp [leaves, isAggr] at ha'
        | none =>
          simp only [isEquivalentSe, Bool.and_eq_true, beq_iff_eq] at h
          simp only [leaves, leavesList_eq_flatMap, List.mem_flatMap, forall_exists_index, and_imp]
            at ha ha' hg hc
          simp only [eval, evalList_eq_map]
          rw [h.1]
          congr 1
          refine map_eq_of_isEquivalentSeList h.2 fun o ho o' ho' heq ↦ ih o ho heq ?_ ?_ ?_ ?_
          · exact fun x hx ↦ ha x o ho hx
          · exact fun x hx ↦ ha' x o' ho' hx
          · exact fun x hx ↦ hg x o ho hx
          · exact fun c h1 c' h2 ↦ hc c o ho h1 c' o' ho' h2
    | _ => simp [isEquivalentSe] at h

end ScalarExp

end Tigon.Ftacmp.Parse
