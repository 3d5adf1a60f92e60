import Tigon.Ftacmp.ScalarExp

/-!
# The common prefilter of the low-level queries

All low-level queries of a host read the same packets.  Conjuncts that several of them have are
evaluated once for a packet, by a prefilter of at most 64 predicates.  A query has a bit mask, its
signature; it gets a packet only if all predicates of its signature hold, and leaves out the
conjuncts that they cover.

`findCommonFilter` collects the cheap conjuncts, identifies those that are equivalent over the base
tables, combines those that occur in the same queries, and keeps the 64 that most queries have.

## What is here

* `eval_eq_of_isEquivalentPredBase` — what is identified has the same value in both queries.
* `Sound` — what is known of a set of conjuncts: its predicate implies those whose numbers it lists,
  and is implied by the conjuncts of each query it lists.  Every step of the algorithm keeps it.
* `accepts_iff` — a query gets the packets that its own conjuncts accept.
* `exists_not_accepts_iff` — not so for a query after one with more than 65536 conjuncts, since 16
  bits are for the position of a conjunct.

How `sort` orders sets that equally many queries have is not known; it is arbitrary here.
-/

set_option autoImplicit false

namespace Tigon.Ftacmp.CommonFilter

open Parse List

/-! ## Constraints -/

/-- What the schemas say about columns. -/
structure TableList where
  getBasetblName : Int → String → String
  getTableRef : String → Int
  expensive : Int → String → Bool

/-- What is known of functions and of the types of expressions. -/
structure ExtFcnList where
  estimateFcnCost : Nat → Nat
  complexComparison : ScalarExp → Bool

/-- The number of parts of each kind that an expression has. -/
structure Constraint where
  agr : Nat := 0
  gb : Nat := 0
  par : Nat := 0
  func : Nat := 0
  op : Nat := 0

def Constraint.add (a b : Constraint) : Constraint :=
  ⟨a.agr + b.agr, a.gb + b.gb, a.par + b.par, a.func + b.func, a.op + b.op⟩

section Constraint

variable (fcns : ExtFcnList)

mutual

/-- The parts of an expression.  The definitions of group-by variables are entered. -/
def analyzeConstraintSe : ScalarExp → Constraint
  | .literal _ => {}
  | .ifaceParam _ => {}
  | .param _ => { par := 1 }
  | .colref _ => {}
  | .gbref _ _ => { gb := 1 }
  | .gbdef _ _ d => analyzeConstraintSe d
  | .unaryOp _ l => (analyzeConstraintSe l).add { op := 1 }
  | .binaryOp _ l r => ((analyzeConstraintSe l).add (analyzeConstraintSe r)).add { op := 1 }
  | .aggrStar _ _ => { agr := 1 }
  | .aggrSe _ _ _ => { agr := 1 }
  | .func _ _ i (some _) => { agr := 1, func := fcns.estimateFcnCost i }
  | .func _ os i none =>
    (analyzeConstraintSeList os).add { func := fcns.estimateFcnCost i }

def analyzeConstraintSeList : List ScalarExp → Constraint
  | [] => {}
  | o :: os => (analyzeConstraintSe o).add (analyzeConstraintSeList os)

end

/-- The parts of the expressions of a predicate, and its comparisons and operators. -/
structure PredConstraint where
  se : Constraint
  cmpS : Nat := 0
  cmpC : Nat := 0
  pred : Nat := 0
  bool : Nat := 0

def analyzeConstraintPr : Predicate → PredConstraint
  | .compare l _ r =>
    let se := (analyzeConstraintSe fcns l).add (analyzeConstraintSe fcns r)
    if fcns.complexComparison l then { se, cmpC := 1 } else { se, cmpS := 1 }
  | .isIn l lits =>
    let se := analyzeConstraintSe fcns l
    if fcns.complexComparison l then { se, cmpC := lits.length } else { se, cmpS := lits.length }
  | .unaryOp _ l =>
    let c := analyzeConstraintPr l
    { c with bool := c.bool + 1 }
  | .binaryOp _ l r =>
    let a := analyzeConstraintPr l
    let b := analyzeConstraintPr r
    ⟨a.se.add b.se, a.cmpS + b.cmpS, a.cmpC + b.cmpC, a.pred + b.pred, a.bool + b.bool + 1⟩
  | .func _ os i => { se := analyzeConstraintSeList fcns os, pred := fcns.estimateFcnCost i }

/-- A cheap conjunct without parameters and aggregates. -/
def prefilterCompatible (p : Predicate) : Bool :=
  let c := analyzeConstraintPr fcns p
  c.se.par == 0 && c.se.agr == 0 &&
    decide (c.se.func + c.pred + 10 * c.cmpC + c.se.op + c.cmpS + c.bool < 10)

end Constraint

section Schema

variable (schema : TableList)

/-! ## Group-by variables -/

/-- The definition of a group-by variable is attached to the references to it. -/
def insertGbDefSe (gbTbl : List ScalarExp) : ScalarExp → ScalarExp
  | .gbref cr g =>
    match gbTbl[g]? with
    | some d => .gbdef cr g d
    | none => .gbref cr g
  | e => e

def insertGbDefPr (gbTbl : List ScalarExp) (p : Predicate) : Predicate :=
  p.mapLeaves (insertGbDefSe gbTbl)

def subsColref (cr : Colref) : Colref :=
  { cr with tablevarRef := schema.getTableRef (schema.getBasetblName cr.schemaRef cr.field) }

mutual

/-- Group-by variables are replaced by their definitions, and columns are bound to their base
tables.  The source replaces an operand that is a group-by variable and then visits its parent
again. -/
def subsGbrefsSe : ScalarExp → ScalarExp
  | .colref cr => .colref (subsColref schema cr)
  | .gbref cr g => .gbref (subsColref schema cr) g
  | .gbdef _ _ d => subsGbrefsSe d
  | .unaryOp op l => .unaryOp op (subsGbrefsSe l)
  | .binaryOp op l r => .binaryOp op (subsGbrefsSe l) (subsGbrefsSe r)
  | .aggrSe op l a => .aggrSe op (subsGbrefsSe l) a
  | .func op os i a => .func op (subsGbrefsSeList os) i a
  | e => e

def subsGbrefsSeList : List ScalarExp → List ScalarExp
  | [] => []
  | o :: os => subsGbrefsSe o :: subsGbrefsSeList os

end

def subsGbrefsPr : Predicate → Predicate
  | .compare l op r => .compare (subsGbrefsSe schema l) op (subsGbrefsSe schema r)
  | .isIn l lits => .isIn (subsGbrefsSe schema l) lits
  | .unaryOp op l => .unaryOp op (subsGbrefsPr l)
  | .binaryOp op l r => .binaryOp op (subsGbrefsPr l) (subsGbrefsPr r)
  | .func op os i => .func op (os.map (subsGbrefsSe schema)) i

mutual

/-- The number of references to expensive columns. -/
def expensiveRefsSe : ScalarExp → Nat
  | .colref cr => if schema.expensive cr.schemaRef cr.field then 1 else 0
  | .gbdef _ _ d => expensiveRefsSe d
  | .unaryOp _ l => expensiveRefsSe l
  | .binaryOp _ l r => expensiveRefsSe l + expensiveRefsSe r
  | .func _ os _ _ => expensiveRefsSeList os
  | _ => 0

def expensiveRefsSeList : List ScalarExp → Nat
  | [] => 0
  | o :: os => expensiveRefsSe o + expensiveRefsSeList os

end

def expensiveRefsPr : Predicate → Nat
  | .compare l _ r => expensiveRefsSe schema l + expensiveRefsSe schema r
  | .isIn l _ => expensiveRefsSe schema l
  | .unaryOp _ l => expensiveRefsPr l
  | .binaryOp _ l r => expensiveRefsPr l + expensiveRefsPr r
  | .func _ os _ => expensiveRefsSeList schema os

/-! ## Equivalence over the base tables -/

/-- Columns are the same if their base table and their field are. -/
def isEquivalentBase (c c2 : Colref) : Bool :=
  schema.getBasetblName c.schemaRef c.field == schema.getBasetblName c2.schemaRef c2.field &&
    c.field == c2.field

/-- A group-by variable stands for its definition. -/
def rightSe : ScalarExp → ScalarExp
  | .gbdef _ _ d => d
  | e => e

mutual

/-- Whether two expressions have the same value on a packet.  Definitions of group-by variables do
not refer to group-by variables. -/
def isEquivalentSeBase : ScalarExp → ScalarExp → Bool
  | .gbdef _ _ d, e' => isEquivalentSeBase d (rightSe e')
  | .literal a, e' =>
    match rightSe e' with
    | .literal b => a == b
    | _ => false
  | .param a, e' =>
    match rightSe e' with
    | .param b => a == b
    | _ => false
  | .ifaceParam a, e' =>
    match rightSe e' with
    | .ifaceParam b => a == b
    | _ => false
  | .unaryOp op l, e' =>
    match rightSe e' with
    | .unaryOp op' l' => op == op' && isEquivalentSeBase l l'
    | _ => false
  | .binaryOp op l r, e' =>
    match rightSe e' with
    | .binaryOp op' l' r' => op == op' && isEquivalentSeBase l l' && isEquivalentSeBase r r'
    | _ => false
  | .colref a, e' =>
    match rightSe e' with
    | .colref b => isEquivalentBase schema a b
    | _ => false
  | .gbref _ _, _ => false
  | .aggrStar op _, e' =>
    match rightSe e' with
    | .aggrStar op' _ => op == op'
    | _ => false
  | .aggrSe op l _, e' =>
    match rightSe e' with
    | .aggrSe op' l' _ => op == op' && isEquivalentSeBase l l'
    | _ => false
  | .func op os _ _, e' =>
    match rightSe e' with
    | .func op' os' _ _ => op == op' && isEquivalentSeBaseList os os'
    | _ => false

def isEquivalentSeBaseList : List ScalarExp → List ScalarExp → Bool
  | [], [] => true
  | o :: os, o' :: os' => isEquivalentSeBase o o' && isEquivalentSeBaseList os os'
  | _, _ => false

end

def isEquivalentPredBase : Predicate → Predicate → Bool
  | .compare l op r, .compare l' op' r' =>
    op == op' && isEquivalentSeBase schema l l' && isEquivalentSeBase schema r r'
  | .isIn l lits, .isIn l' lits' => isEquivalentSeBase schema l l' && lits == lits'
  | .unaryOp op l, .unaryOp op' l' => op == op' && isEquivalentPredBase l l'
  | .binaryOp op l r, .binaryOp op' l' r' =>
    op == op' && isEquivalentPredBase l l' && isEquivalentPredBase r r'
  | .func op os _, .func op' os' _ => op == op' && isEquivalentSeBaseList schema os os'
  | _, _ => false

end Schema

/-! ## The algorithm -/

/-- A predicate of the prefilter, the queries that have it, and the numbers of the conjuncts it
stands for. -/
structure CnfSet where
  pr : Predicate
  lftaId : Finset Nat
  predId : Finset (BitVec 32)

/-- The number of a conjunct: the query in the top 16 bits, its position in the bottom 16 bits. -/
def predIdOf (l c : Nat) : BitVec 32 :=
  (BitVec.ofNat 32 l <<< 16) + BitVec.ofNat 32 c

namespace CnfSet

def new (p : Predicate) (l c : Nat) : CnfSet :=
  ⟨p, {l}, {predIdOf l c}⟩

def subsume (s c : CnfSet) : CnfSet :=
  { s with lftaId := s.lftaId ∪ c.lftaId, predId := s.predId ∪ c.predId }

def combinePred (s c : CnfSet) : CnfSet :=
  { s with pr := .binaryOp "AND" s.pr c.pr, predId := s.predId ∪ c.predId }

end CnfSet

/-- The inner loop: all later sets that are the same as `p` are merged into it. -/
def sweep (same : CnfSet → CnfSet → Bool) (merge : CnfSet → CnfSet → CnfSet) (p : CnfSet) :
    List CnfSet → CnfSet × List CnfSet
  | [] => (p, [])
  | q :: qs =>
    if same p q then sweep same merge (merge p q) qs
    else ((sweep same merge p qs).1, q :: (sweep same merge p qs).2)

/-- The outer loop over the first `n` sets. -/
def collapse (same : CnfSet → CnfSet → Bool) (merge : CnfSet → CnfSet → CnfSet) :
    Nat → List CnfSet → List CnfSet
  | 0, l => l
  | _ + 1, [] => []
  | n + 1, p :: qs => (sweep same merge p qs).1 :: collapse same merge n (sweep same merge p qs).2

/-- Any sorting by the number of queries, most first. -/
structure StdSort where
  sort : List CnfSet → List CnfSet
  perm : ∀ l, (sort l).Perm l
  sorted : ∀ l, (sort l).Pairwise fun c1 c2 ↦ c2.lftaId.card ≤ c1.lftaId.card

section Filter

variable (schema : TableList) (fcns : ExtFcnList) (std : StdSort)

/-- The conjuncts of one query that the prefilter may have. -/
def prefilterSafe (l : Nat) (ps : List Predicate) : List CnfSet :=
  ps.zipIdx.filterMap fun pc ↦
    if prefilterCompatible fcns pc.1 && expensiveRefsPr schema pc.1 == 0 then
      some (.new pc.1 l pc.2)
    else none

/-- The predicates of the prefilter, before group-by variables are substituted. -/
def keptSets (whereList : List (List Predicate)) : List CnfSet :=
  let predList := whereList.zipIdx.flatMap fun wl ↦ prefilterSafe schema fcns wl.2 wl.1
  -- eliminate duplicates
  let distinct := collapse (fun p q ↦ isEquivalentPredBase schema p.pr q.pr) CnfSet.subsume
    predList.length predList
  -- combine predicates that occur in the exact same queries
  let combined := collapse (fun p q ↦ p.lftaId == q.lftaId) CnfSet.combinePred
    distinct.length distinct
  (std.sort combined).take 64

/-- The predicates of the prefilter and the numbers of the conjuncts they cover. -/
def findCommonFilter (whereList : List (List Predicate)) : List CnfSet × Finset (BitVec 32) :=
  let kept := keptSets schema fcns std whereList
  (kept.map fun s ↦ { s with pr := subsGbrefsPr schema s.pr },
    kept.foldl (fun ids s ↦ ids ∪ s.predId) ∅)

end Filter

/-! ## The queries -/

/-- A leaf of a conjunct of a query with `n` group-by variables.  Parameters of the interface have
been replaced by their values, and definitions are not attached yet. -/
def LeafOk (n : Nat) : ScalarExp → Prop
  | .ifaceParam _ => False
  | .gbdef _ _ _ => False
  | .gbref _ g => g < n
  | _ => True

/-- A low-level query: its conjuncts and its group-by variables.  The definition of a group-by
variable refers to none. -/
structure Lfta where
  filterClause : List Predicate
  gbTbl : List ScalarExp
  filterOk : ∀ p ∈ filterClause, ∀ x ∈ p.leaves, LeafOk gbTbl.length x
  gbOk : ∀ d ∈ gbTbl, ∀ x ∈ d.leaves, LeafOk 0 x

/-- The conjuncts of all queries, with the definitions of the group-by variables attached. -/
def whereList (lftas : List Lfta) : List (List Predicate) :=
  lftas.map fun q ↦ q.filterClause.map (insertGbDefPr q.gbTbl)

section Bits

variable {α : Type}

/-- A loop that sets a bit for each element that passes: `mask |= bpos; bpos <<= 1`. -/
def setBits (f : α → Bool) : List α → BitVec 64 → BitVec 64 → BitVec 64
  | [], mask, _ => mask
  | x :: xs, mask, bpos => setBits f xs (if f x then mask ||| bpos else mask) (bpos <<< 1)

end Bits

/-- The signature of query `li`. -/
def lftaSig (prefilterPreds : List CnfSet) (li : Nat) : BitVec 64 :=
  setBits (fun s ↦ decide (li ∈ s.lftaId)) prefilterPreds 0 1

/-- The positions of the conjuncts that query `li` leaves out. -/
def subsumedPreds (predIds : Finset (BitVec 32)) (li : Nat) : Finset Nat :=
  (predIds.filter fun pid ↦ (pid.sshiftRight 16).toInt = (li : Int)).image fun pid ↦
    (pid &&& 0xffff).toNat

/-- The conjuncts that a query evaluates itself. -/
def remaining (sPids : Finset Nat) (filter : List Predicate) : List Predicate :=
  filter.zipIdx.filterMap fun pw ↦ if pw.2 ∈ sPids then none else some pw.1

section Run

variable {V : Type} (schema : TableList) (I : Interp V)

/-- The values of the leaves on a packet, which has a value for each field of each base table. -/
def packetEnv (ρ : Env V) (t : String → String → V) : Env V :=
  { ρ with col := fun cr ↦ t (schema.getBasetblName cr.schemaRef cr.field) cr.field }

/-- The values of the leaves in a query: group-by variables have the values of their definitions. -/
def Lfta.env (q : Lfta) (ρ : Env V) (t : String → String → V) : Env V :=
  { packetEnv schema ρ t with
    gb := fun g ↦
      match q.gbTbl[g]? with
      | some d => d.eval I (packetEnv schema ρ t)
      | none => ρ.gb g }

/-- The bits of the predicates that hold for a packet. -/
def lftaPrefilter (prefilterPreds : List CnfSet) (ρ : Env V) (t : String → String → V) :
    BitVec 64 :=
  setBits (fun s ↦ s.pr.eval I (packetEnv schema ρ t)) prefilterPreds 0 1

/-- Whether query `li` gets a packet and then accepts it. -/
def accepts (filter : List CnfSet × Finset (BitVec 32)) (li : Nat) (q : Lfta) (ρ ρ' : Env V)
    (t : String → String → V) : Bool :=
  let prefilter := lftaPrefilter schema I filter.1 ρ t
  let sig := lftaSig filter.1 li
  ~~~((prefilter &&& sig) ||| ~~~sig) == 0 &&
    (remaining (subsumedPreds filter.2 li) q.filterClause).all fun p ↦
      p.eval I (q.env schema I ρ' t)

end Run

/-! ## What the prefilter may evaluate -/

/-- Literals and columns. -/
def IsPlain : ScalarExp → Prop
  | .literal _ => True
  | .colref _ => True
  | _ => False

/-- Literals, columns, and group-by variables that are defined by them. -/
def IsBase : ScalarExp → Prop
  | .gbdef _ _ d => ∀ x ∈ d.leaves, IsPlain x
  | e => IsPlain e

variable {x : ScalarExp}

theorem IsPlain.isBase (h : IsPlain x) : IsBase x := by
  cases x with
  | gbdef cr g d => exact h.elim
  | _ => exact h

section Base

variable {V : Type} (schema : TableList) (I : Interp V)

theorem eval_eq_of_isPlain (h : IsPlain x) (ρ ρ' : Env V) (t : String → String → V) :
    x.eval I (packetEnv schema ρ t) = x.eval I (packetEnv schema ρ' t) := by
  cases x with
  | literal lit => rfl
  | colref cr => rfl
  | _ => exact h.elim

theorem eval_eq_of_isBase (h : IsBase x) (ρ ρ' : Env V) (t : String → String → V) :
    x.eval I (packetEnv schema ρ t) = x.eval I (packetEnv schema ρ' t) := by
  cases x with
  | gbdef cr g d => exact d.eval_congr fun x hx ↦ eval_eq_of_isPlain schema I (h x hx) ρ ρ' t
  | literal lit => rfl
  | colref cr => rfl
  | _ => exact h.elim

/-- A predicate over the packet alone has the same value in all queries. -/
theorem evalPr_eq_of_isBase {p : Predicate} (h : ∀ x ∈ p.leaves, IsBase x) (ρ ρ' : Env V)
    (t : String → String → V) :
    p.eval I (packetEnv schema ρ t) = p.eval I (packetEnv schema ρ' t) :=
  p.eval_congr fun x hx ↦ eval_eq_of_isBase schema I (h x hx) ρ ρ' t

theorem eval_rightSe (ρ : Env V) (e : ScalarExp) : (rightSe e).eval I ρ = e.eval I ρ := by
  cases e <;> rfl

theorem isBase_rightSe {e : ScalarExp} (h : ∀ x ∈ e.leaves, IsBase x) :
    ∀ x ∈ (rightSe e).leaves, IsBase x := by
  cases e with
  | gbdef cr g d => exact fun x hx ↦ (h (.gbdef cr g d) (by simp [ScalarExp.leaves]) x hx).isBase
  | _ => exact h

theorem map_eq_of_isEquivalentSeBaseList {α : Type} {f : ScalarExp → α} {os os' : List ScalarExp}
    (h : isEquivalentSeBaseList schema os os' = true)
    (hf : ∀ o ∈ os, ∀ o' ∈ os', isEquivalentSeBase schema o o' = true → f o = f o') :
    os.map f = os'.map f := by
  induction os generalizing os' with
  | nil => cases os' <;> simp_all [isEquivalentSeBaseList]
  | cons o os ih =>
    cases os' with
    | nil => simp [isEquivalentSeBaseList] at h
    | cons o' os' =>
      simp only [isEquivalentSeBaseList, Bool.and_eq_true] at h
      rw [map_cons, map_cons, hf o mem_cons_self o' mem_cons_self h.1,
        ih h.2 fun x hx y hy ↦ hf x (mem_cons_of_mem _ hx) y (mem_cons_of_mem _ hy)]

/-- What is equivalent over the base tables has the same value on every packet. -/
theorem eval_eq_of_isEquivalentSeBase (ρ : Env V) (t : String → String → V) {e e' : ScalarExp}
    (h : isEquivalentSeBase schema e e' = true) (he : ∀ x ∈ e.leaves, IsBase x)
    (he' : ∀ x ∈ e'.leaves, IsBase x) :
    e.eval I (packetEnv schema ρ t) = e'.eval I (packetEnv schema ρ t) := by
  induction e generalizing e' with
  | gbdef cr g d ih =>
    rw [← eval_rightSe I _ e']
    rw [isEquivalentSeBase] at h
    refine ih h (fun x hx ↦ ?_) (isBase_rightSe he')
    exact (he (.gbdef cr g d) (by simp [ScalarExp.leaves]) x hx).isBase
  | literal lit =>
    rw [← eval_rightSe I _ e']
    rw [isEquivalentSeBase] at h
    split at h
    · rename_i b heq
      rw [heq, beq_iff_eq.mp h]
    · cases h
  | colref cr =>
    rw [← eval_rightSe I _ e']
    rw [isEquivalentSeBase] at h
    split at h
    · rename_i b heq
      simp only [isEquivalentBase, Bool.and_eq_true, beq_iff_eq] at h
      rw [heq]
      simp only [ScalarExp.eval, packetEnv]
      rw [h.1, h.2]
    · cases h
  | unaryOp op l ih =>
    have hbase := isBase_rightSe he'
    rw [← eval_rightSe I _ e']
    rw [isEquivalentSeBase] at h
    split at h
    · rename_i op' l' heq
      simp only [Bool.and_eq_true, beq_iff_eq] at h
      rw [heq] at hbase ⊢
      rw [ScalarExp.eval, ScalarExp.eval, h.1, ih h.2 he hbase]
    · cases h
  | binaryOp op l r ihl ihr =>
    have hbase := isBase_rightSe he'
    rw [← eval_rightSe I _ e']
    rw [isEquivalentSeBase] at h
    split at h
    · rename_i op' l' r' heq
      simp only [Bool.and_eq_true, beq_iff_eq] at h
      rw [heq] at hbase ⊢
      simp only [ScalarExp.leaves, mem_append] at he hbase
      rw [ScalarExp.eval, ScalarExp.eval, h.1.1,
        ihl h.1.2 (fun x hx ↦ he x (.inl hx)) fun x hx ↦ hbase x (.inl hx),
        ihr h.2 (fun x hx ↦ he x (.inr hx)) fun x hx ↦ hbase x (.inr hx)]
    · cases h
  | func op os i a ih =>
    cases a with
    | some a => exact (he (.func op os i (some a)) (by simp [ScalarExp.leaves])).elim
    | none =>
      have hbase := isBase_rightSe he'
      rw [← eval_rightSe I _ e']
      rw [isEquivalentSeBase] at h
      split at h
      · rename_i op' os' i' a' heq
        simp only [Bool.and_eq_true, beq_iff_eq] at h
        rw [heq] at hbase ⊢
        cases a' with
        | some a' => exact (hbase (.func op' os' i' (some a')) (by simp [ScalarExp.leaves])).elim
        | none =>
          simp only [ScalarExp.leaves, ScalarExp.leavesList_eq_flatMap, mem_flatMap,
            forall_exists_index, and_imp] at he hbase
          simp only [ScalarExp.eval, ScalarExp.evalList_eq_map]
          rw [h.1]
          congr 1
          refine map_eq_of_isEquivalentSeBaseList schema h.2 fun o ho o' ho' heq ↦ ih o ho heq ?_ ?_
          · exact fun x hx ↦ he x o ho hx
          · exact fun x hx ↦ hbase x o' ho' hx
      · cases h
  | param name => exact (he (.param name) (by simp [ScalarExp.leaves])).elim
  | ifaceParam ifp => exact (he (.ifaceParam ifp) (by simp [ScalarExp.leaves])).elim
  | gbref cr g => exact (he (.gbref cr g) (by simp [ScalarExp.leaves])).elim
  | aggrStar op a => exact (he (.aggrStar op a) (by simp [ScalarExp.leaves])).elim
  | aggrSe op l a ih => exact (he (.aggrSe op l a) (by simp [ScalarExp.leaves])).elim

theorem eval_eq_of_isEquivalentPredBase (ρ : Env V) (t : String → String → V) {p p' : Predicate}
    (h : isEquivalentPredBase schema p p' = true) (hp : ∀ x ∈ p.leaves, IsBase x)
    (hp' : ∀ x ∈ p'.leaves, IsBase x) :
    p.eval I (packetEnv schema ρ t) = p'.eval I (packetEnv schema ρ t) := by
  induction p generalizing p' with
  | compare l op r =>
    cases p' with
    | compare l' op' r' =>
      simp only [isEquivalentPredBase, Bool.and_eq_true, beq_iff_eq] at h
      simp only [Predicate.leaves, mem_append] at hp hp'
      rw [Predicate.eval, Predicate.eval, h.1.1,
        eval_eq_of_isEquivalentSeBase schema I ρ t h.1.2 (fun x hx ↦ hp x (.inl hx))
          fun x hx ↦ hp' x (.inl hx),
        eval_eq_of_isEquivalentSeBase schema I ρ t h.2 (fun x hx ↦ hp x (.inr hx))
          fun x hx ↦ hp' x (.inr hx)]
    | _ => simp [isEquivalentPredBase] at h
  | isIn l lits =>
    cases p' with
    | isIn l' lits' =>
      simp only [isEquivalentPredBase, Bool.and_eq_true, beq_iff_eq] at h
      rw [Predicate.eval, Predicate.eval, eval_eq_of_isEquivalentSeBase schema I ρ t
        h.1 hp hp', h.2]
    | _ => simp [isEquivalentPredBase] at h
  | unaryOp op l ih =>
    cases p' with
    | unaryOp op' l' =>
      simp only [isEquivalentPredBase, Bool.and_eq_true, beq_iff_eq] at h
      rw [Predicate.eval, Predicate.eval, ih h.2 hp hp']
    | _ => simp [isEquivalentPredBase] at h
  | binaryOp op l r ihl ihr =>
    cases p' with
    | binaryOp op' l' r' =>
      simp only [isEquivalentPredBase, Bool.and_eq_true, beq_iff_eq] at h
      simp only [Predicate.leaves, mem_append] at hp hp'
      rw [Predicate.eval, Predicate.eval, h.1.1,
        ihl h.1.2 (fun x hx ↦ hp x (.inl hx)) fun x hx ↦ hp' x (.inl hx),
        ihr h.2 (fun x hx ↦ hp x (.inr hx)) fun x hx ↦ hp' x (.inr hx)]
    | _ => simp [isEquivalentPredBase] at h
  | func op os i =>
    cases p' with
    | func op' os' i' =>
      simp only [isEquivalentPredBase, Bool.and_eq_true, beq_iff_eq] at h
      simp only [Predicate.leaves, mem_flatMap, forall_exists_index, and_imp] at hp hp'
      rw [Predicate.eval, Predicate.eval, h.1]
      congr 1
      refine map_eq_of_isEquivalentSeBaseList schema h.2 fun o ho o' ho' heq ↦ ?_
      exact eval_eq_of_isEquivalentSeBase schema I ρ t heq (fun x hx ↦ hp x o ho hx)
        fun x hx ↦ hp' x o' ho' hx
    | _ => simp [isEquivalentPredBase] at h

end Base

/-! ## The conjuncts that are collected -/

section Collect

variable (schema : TableList) (fcns : ExtFcnList)

/-- Neither parameters nor aggregates. -/
def Constraint.Free (c : Constraint) : Prop := c.par = 0 ∧ c.agr = 0

theorem Constraint.free_add {a b : Constraint} : (a.add b).Free ↔ a.Free ∧ b.Free := by
  simp only [Constraint.Free, Constraint.add]
  omega

theorem analyzeConstraintSeList_free {os : List ScalarExp} :
    (analyzeConstraintSeList fcns os).Free ↔ ∀ o ∈ os, (analyzeConstraintSe fcns o).Free := by
  induction os with
  | nil => simp [analyzeConstraintSeList, Constraint.Free]
  | cons o os ih => rw [analyzeConstraintSeList, Constraint.free_add, ih, forall_mem_cons]

theorem free_of_mem_leaves {e x : ScalarExp} (h : (analyzeConstraintSe fcns e).Free)
    (hx : x ∈ e.leaves) : (analyzeConstraintSe fcns x).Free := by
  induction e with
  | unaryOp op l ih =>
    rw [analyzeConstraintSe, Constraint.free_add] at h
    exact ih h.1 hx
  | binaryOp op l r ihl ihr =>
    rw [analyzeConstraintSe, Constraint.free_add, Constraint.free_add] at h
    exact (mem_append.mp hx).elim (ihl h.1.1) (ihr h.1.2)
  | func op os i a ih =>
    cases a with
    | none =>
      rw [analyzeConstraintSe, Constraint.free_add, analyzeConstraintSeList_free] at h
      rw [ScalarExp.leaves, ScalarExp.leavesList_eq_flatMap] at hx
      obtain ⟨o, ho, hx⟩ := mem_flatMap.mp hx
      exact ih o ho (h.1 o ho) hx
    | some a => rwa [mem_singleton.mp hx]
  | _ => rwa [mem_singleton.mp hx]

theorem free_of_mem_leavesPr {p : Predicate}
    (h : (analyzeConstraintPr fcns p).se.Free) (hx : x ∈ p.leaves) :
    (analyzeConstraintSe fcns x).Free := by
  induction p with
  | compare l op r =>
    have h' : ((analyzeConstraintSe fcns l).add (analyzeConstraintSe fcns r)).Free := by
      rw [analyzeConstraintPr] at h
      split at h <;> exact h
    rw [Constraint.free_add] at h'
    exact (mem_append.mp hx).elim (free_of_mem_leaves fcns h'.1) (free_of_mem_leaves fcns h'.2)
  | isIn l lits =>
    have h' : (analyzeConstraintSe fcns l).Free := by
      rw [analyzeConstraintPr] at h
      split at h <;> exact h
    exact free_of_mem_leaves fcns h' hx
  | unaryOp op l ih => exact ih h hx
  | binaryOp op l r ihl ihr =>
    rw [analyzeConstraintPr, Constraint.free_add] at h
    exact (mem_append.mp hx).elim (ihl h.1) (ihr h.2)
  | func op os i =>
    obtain ⟨o, ho, hx⟩ := mem_flatMap.mp hx
    exact free_of_mem_leaves fcns ((analyzeConstraintSeList_free fcns).mp h o ho) hx

/-- A leaf without parameters, aggregates, group-by variables and interface parameters. -/
theorem isPlain_of_leafOk (hl : x.isLeaf = true) (ho : LeafOk 0 x)
    (hf : (analyzeConstraintSe fcns x).Free) : IsPlain x := by
  cases x with
  | literal lit => trivial
  | colref cr => trivial
  | param name => simp [analyzeConstraintSe, Constraint.Free] at hf
  | ifaceParam ifp => exact ho.elim
  | gbref cr g => exact absurd ho (Nat.not_lt_zero g)
  | gbdef cr g d => exact ho.elim
  | unaryOp op l => simp [ScalarExp.isLeaf] at hl
  | binaryOp op l r => simp [ScalarExp.isLeaf] at hl
  | aggrStar op a => simp [analyzeConstraintSe, Constraint.Free] at hf
  | aggrSe op l a => simp [analyzeConstraintSe, Constraint.Free] at hf
  | func op os i a =>
    cases a with
    | none => simp [ScalarExp.isLeaf] at hl
    | some a => simp [analyzeConstraintSe, Constraint.Free] at hf

/-- Attaching a definition to a leaf that is no group-by variable changes nothing. -/
theorem insertGbDefSe_cases (gbTbl : List ScalarExp) (ho : LeafOk gbTbl.length x) :
    (insertGbDefSe gbTbl x = x ∧ LeafOk 0 x) ∨
      ∃ cr g d, x = .gbref cr g ∧ gbTbl[g]? = some d ∧ insertGbDefSe gbTbl x = .gbdef cr g d := by
  cases x with
  | gbref cr g =>
    have hd : gbTbl[g]? = some gbTbl[g] := getElem?_eq_getElem ho
    exact Or.inr ⟨cr, g, gbTbl[g], rfl, hd, by rw [insertGbDefSe, hd]⟩
  | ifaceParam ifp => exact ho.elim
  | gbdef cr g d => exact ho.elim
  | _ => exact Or.inl ⟨rfl, trivial⟩

/-- **What is collected is over the packet alone.** -/
theorem isBase_of_prefilterCompatible (q : Lfta) {p : Predicate} (hp : p ∈ q.filterClause)
    (hc : prefilterCompatible fcns (insertGbDefPr q.gbTbl p) = true) :
    ∀ x ∈ (insertGbDefPr q.gbTbl p).leaves, IsBase x := by
  intro x hx
  have hfree : (analyzeConstraintPr fcns (insertGbDefPr q.gbTbl p)).se.Free := by
    simp only [prefilterCompatible, Bool.and_eq_true, beq_iff_eq] at hc
    exact hc.1
  have hxf := free_of_mem_leavesPr fcns hfree hx
  have hxl := Predicate.isLeaf_of_mem_leaves hx
  rw [insertGbDefPr, Predicate.leaves_mapLeaves] at hx
  obtain ⟨y, hy, hxy⟩ := mem_flatMap.mp hx
  rcases insertGbDefSe_cases q.gbTbl (q.filterOk p hp y hy)
    with ⟨hins, hok⟩ | ⟨cr, g, d, rfl, hd, hins⟩
  · rw [hins, ScalarExp.leaves_of_isLeaf (Predicate.isLeaf_of_mem_leaves hy)] at hxy
    cases mem_singleton.mp hxy
    exact (isPlain_of_leafOk fcns hxl hok hxf).isBase
  · rw [hins] at hxy
    cases mem_singleton.mp hxy
    have hdf : (analyzeConstraintSe fcns d).Free := hxf
    intro z hz
    refine isPlain_of_leafOk fcns (ScalarExp.isLeaf_of_mem_leaves hz) ?_
      (free_of_mem_leaves fcns hdf hz)
    exact q.gbOk d (mem_of_getElem? hd) z hz

end Collect

/-- Attaching the definitions of the group-by variables does not change what a query accepts. -/
theorem eval_insertGbDefPr {V : Type} (schema : TableList) (I : Interp V) (q : Lfta) (ρ : Env V)
    (t : String → String → V) {p : Predicate} (hp : p ∈ q.filterClause) :
    (insertGbDefPr q.gbTbl p).eval I (packetEnv schema ρ t) = p.eval I (q.env schema I ρ t) := by
  refine p.eval_mapLeaves fun x hx ↦ ?_
  have hl := Predicate.isLeaf_of_mem_leaves hx
  rcases insertGbDefSe_cases q.gbTbl (q.filterOk p hp x hx)
    with ⟨hins, hok⟩ | ⟨cr, g, d, rfl, hd, hins⟩
  · rw [hins]
    cases x with
    | gbref cr g => exact absurd hok (Nat.not_lt_zero g)
    | gbdef cr g d => exact hok.elim
    | unaryOp op l => simp [ScalarExp.isLeaf] at hl
    | binaryOp op l r => simp [ScalarExp.isLeaf] at hl
    | func op os i a =>
      cases a with
      | none => simp [ScalarExp.isLeaf] at hl
      | some a => rfl
    | _ => rfl
  · rw [hins]
    simp only [ScalarExp.eval, Lfta.env, hd]

/-! ## Merging sets -/

theorem forall_sweep {P : CnfSet → Prop} {same : CnfSet → CnfSet → Bool}
    {merge : CnfSet → CnfSet → CnfSet}
    (hm : ∀ p q, P p → P q → same p q = true → P (merge p q)) (qs : List CnfSet) :
    ∀ p, P p → (∀ q ∈ qs, P q) →
      P (sweep same merge p qs).1 ∧ ∀ q ∈ (sweep same merge p qs).2, P q := by
  induction qs with
  | nil => exact fun p hp _ ↦ ⟨hp, fun q hq ↦ by cases hq⟩
  | cons q qs ih =>
    intro p hp hqs
    have hq := hqs q mem_cons_self
    have hqs' : ∀ r ∈ qs, P r := fun r hr ↦ hqs r (mem_cons_of_mem _ hr)
    rw [sweep]
    split
    · rename_i hs
      exact ih _ (hm p q hp hq hs) hqs'
    · refine ⟨(ih p hp hqs').1, fun r hr ↦ ?_⟩
      rcases mem_cons.mp hr with rfl | hr
      · exact hq
      · exact (ih p hp hqs').2 r hr

/-- What merging keeps holds of all sets that remain. -/
theorem forall_collapse {P : CnfSet → Prop} {same : CnfSet → CnfSet → Bool}
    {merge : CnfSet → CnfSet → CnfSet}
    (hm : ∀ p q, P p → P q → same p q = true → P (merge p q)) (n : Nat) :
    ∀ l : List CnfSet, (∀ q ∈ l, P q) → ∀ q ∈ collapse same merge n l, P q := by
  induction n with
  | zero => exact fun l hl ↦ hl
  | succ n ih =>
    intro l hl
    cases l with
    | nil => exact hl
    | cons p qs =>
      obtain ⟨h1, h2⟩ := forall_sweep hm qs p (hl p mem_cons_self)
        fun q hq ↦ hl q (mem_cons_of_mem _ hq)
      intro r hr
      rw [collapse] at hr
      rcases mem_cons.mp hr with rfl | hr
      · exact h1
      · exact ih _ h2 r hr

/-! ## Bit masks -/

section Bits

variable {α : Type}

theorem getLsbD_one_shiftLeft (k i : Nat) :
    ((1 : BitVec 64) <<< k).getLsbD i = decide (i < 64 ∧ i = k) := by
  rw [BitVec.getLsbD_shiftLeft]
  rcases Nat.lt_trichotomy i k with hlt | rfl | hgt
  · simp [hlt, hlt.ne]
  · simp
  · have h : i - k ≠ 0 := by omega
    simp [h, hgt.ne']

/-- Bit `i` is set where it was, and where the element at `i` passes. -/
theorem getLsbD_setBits (f : α → Bool) (xs : List α) (k : Nat) (mask : BitVec 64) (i : Nat) :
    (setBits f xs mask ((1 : BitVec 64) <<< k)).getLsbD i =
      (mask.getLsbD i || (decide (i < 64 ∧ k ≤ i) && (xs[i - k]?).any f)) := by
  induction xs generalizing k mask with
  | nil => simp [setBits]
  | cons x xs ih =>
    have hbit : (if f x then mask ||| (1 : BitVec 64) <<< k else mask).getLsbD i =
        (mask.getLsbD i || (decide (i < 64 ∧ i = k) && f x)) := by
      cases hf : f x with
      | false => simp
      | true => rw [if_pos rfl, BitVec.getLsbD_or, getLsbD_one_shiftLeft, Bool.and_true]
    rw [setBits, ← BitVec.shiftLeft_add, ih, hbit]
    rcases Nat.lt_trichotomy i k with hlt | rfl | hgt
    · have h1 : ¬k ≤ i := by omega
      have h2 : ¬k + 1 ≤ i := by omega
      simp [h1, h2, hlt.ne]
    · simp
    · have h1 : k ≤ i := by omega
      have h2 : k + 1 ≤ i := by omega
      have h4 : i - k = i - (k + 1) + 1 := by omega
      rw [h4, getElem?_cons_succ]
      simp [h1, h2, hgt.ne']

theorem getLsbD_setBits_zero (f : α → Bool) (xs : List α) (i : Nat) :
    (setBits f xs 0 1).getLsbD i = (decide (i < 64) && (xs[i]?).any f) := by
  have h := getLsbD_setBits f xs 0 0 i
  simpa using h

/-- The test of a mask `a` against a signature `s`. -/
theorem not_and_or_not_eq_zero_iff (a s : BitVec 64) :
    ~~~((a &&& s) ||| ~~~s) = 0 ↔ ∀ i < 64, s.getLsbD i = true → a.getLsbD i = true := by
  constructor
  · intro h i hi hs
    have hbit := congrArg (fun b ↦ b.getLsbD i) h
    simp only [BitVec.getLsbD_not, BitVec.getLsbD_or, BitVec.getLsbD_and, hs, hi] at hbit
    simpa using hbit
  · intro h
    refine BitVec.eq_of_getLsbD_eq fun i hi ↦ ?_
    simp only [BitVec.getLsbD_not, BitVec.getLsbD_or, BitVec.getLsbD_and, hi]
    cases hs : s.getLsbD i with
    | false => simp
    | true => simp [h i hi hs]

/-- Every element that one loop sets the bit of passes in the other one. -/
theorem not_setBits_eq_zero_iff (f g : α → Bool) {xs : List α} (hlen : xs.length ≤ 64) :
    ~~~((setBits f xs 0 1 &&& setBits g xs 0 1) ||| ~~~setBits g xs 0 1) = 0 ↔
      ∀ x ∈ xs, g x = true → f x = true := by
  rw [not_and_or_not_eq_zero_iff]
  constructor
  · intro h x hx hg
    obtain ⟨i, hi, rfl⟩ := mem_iff_getElem.mp hx
    have hi64 : i < 64 := by omega
    have hbit := h i hi64
    rw [getLsbD_setBits_zero, getLsbD_setBits_zero, getElem?_eq_getElem hi] at hbit
    simpa [hi64, hg] using hbit
  · intro h i hi hg
    rw [getLsbD_setBits_zero] at hg ⊢
    cases hx : xs[i]? with
    | none => simp [hx] at hg
    | some x =>
      simp only [hx, Option.any_some, Bool.and_eq_true] at hg ⊢
      exact ⟨hg.1, h x (mem_of_getElem? hx) hg.2⟩

end Bits
/-! ## What is known of a set -/

section Sound

variable {V : Type} (schema : TableList) (I : Interp V)

/-- What is known of a set of conjuncts while the algorithm runs: its predicate is over the packet
alone, it implies every conjunct whose number is listed, and in every listed query it is implied by
the conjuncts. -/
structure Sound (W : List (List Predicate)) (s : CnfSet) : Prop where
  base : ∀ x ∈ s.pr.leaves, IsBase x
  pred : ∀ i ∈ s.predId, ∃ l c ps p, W[l]? = some ps ∧ ps[c]? = some p ∧ l ∈ s.lftaId ∧
    i = predIdOf l c ∧ ∀ (ρ ρ' : Env V) t, s.pr.eval I (packetEnv schema ρ t) = true →
      p.eval I (packetEnv schema ρ' t) = true
  lfta : ∀ l ∈ s.lftaId, ∃ ps, W[l]? = some ps ∧ ∀ (ρ ρ' : Env V) t,
    (∀ p ∈ ps, p.eval I (packetEnv schema ρ' t) = true) → s.pr.eval I (packetEnv schema ρ t) = true

variable {schema I} {W : List (List Predicate)}

theorem Sound.new {p : Predicate} {ps : List Predicate} {l c : Nat} (hl : W[l]? = some ps)
    (hc : ps[c]? = some p) (hp : ∀ x ∈ p.leaves, IsBase x) : Sound schema I W (.new p l c) where
  base := hp
  pred := by
    intro i hi
    refine ⟨l, c, ps, p, hl, hc, Finset.mem_singleton_self l, Finset.mem_singleton.mp hi, ?_⟩
    intro ρ ρ' t h
    rwa [evalPr_eq_of_isBase schema I hp ρ' ρ t]
  lfta := by
    intro k hk
    cases Finset.mem_singleton.mp hk
    refine ⟨ps, hl, fun ρ ρ' t h ↦ ?_⟩
    have hev := h p (mem_of_getElem? hc)
    rwa [← evalPr_eq_of_isBase schema I hp ρ ρ' t] at hev

/-- Equivalent predicates are merged. -/
theorem Sound.subsume {s c : CnfSet} (hs : Sound schema I W s) (hc : Sound schema I W c)
    (h : isEquivalentPredBase schema s.pr c.pr = true) : Sound schema I W (s.subsume c) where
  base := hs.base
  pred := by
    intro i hi
    rcases Finset.mem_union.mp hi with hi | hi
    · obtain ⟨l, k, ps, p, hl, hk, hmem, hid, himp⟩ := hs.pred i hi
      exact ⟨l, k, ps, p, hl, hk, Finset.mem_union_left _ hmem, hid, himp⟩
    · obtain ⟨l, k, ps, p, hl, hk, hmem, hid, himp⟩ := hc.pred i hi
      refine ⟨l, k, ps, p, hl, hk, Finset.mem_union_right _ hmem, hid, fun ρ ρ' t hev ↦ ?_⟩
      refine himp ρ ρ' t ?_
      rwa [← eval_eq_of_isEquivalentPredBase schema I ρ t h hs.base hc.base]
  lfta := by
    intro l hl
    rcases Finset.mem_union.mp hl with hl | hl
    · exact hs.lfta l hl
    · obtain ⟨ps, hps, himp⟩ := hc.lfta l hl
      refine ⟨ps, hps, fun ρ ρ' t hall ↦ ?_⟩
      have hev := himp ρ ρ' t hall
      rwa [← eval_eq_of_isEquivalentPredBase schema I ρ t h hs.base hc.base] at hev

/-- Predicates of the same queries are combined. -/
theorem Sound.combinePred {s c : CnfSet} (hs : Sound schema I W s) (hc : Sound schema I W c)
    (h : s.lftaId = c.lftaId) : Sound schema I W (s.combinePred c) where
  base := fun x hx ↦ (mem_append.mp hx).elim (hs.base x) (hc.base x)
  pred := by
    have hand : ∀ (ρ : Env V) t, (s.combinePred c).pr.eval I (packetEnv schema ρ t) = true →
        s.pr.eval I (packetEnv schema ρ t) = true ∧ c.pr.eval I (packetEnv schema ρ t) = true := by
      intro ρ t hev
      simpa [CnfSet.combinePred, Predicate.eval] using hev
    intro i hi
    rcases Finset.mem_union.mp hi with hi | hi
    · obtain ⟨l, k, ps, p, hl, hk, hmem, hid, himp⟩ := hs.pred i hi
      exact ⟨l, k, ps, p, hl, hk, hmem, hid, fun ρ ρ' t hev ↦ himp ρ ρ' t (hand ρ t hev).1⟩
    · obtain ⟨l, k, ps, p, hl, hk, hmem, hid, himp⟩ := hc.pred i hi
      exact ⟨l, k, ps, p, hl, hk, h ▸ hmem, hid, fun ρ ρ' t hev ↦ himp ρ ρ' t (hand ρ t hev).2⟩
  lfta := by
    intro l hl
    obtain ⟨ps, hps, himp⟩ := hs.lfta l hl
    obtain ⟨ps', hps', himp'⟩ := hc.lfta l (h ▸ hl)
    rw [hps] at hps'
    cases hps'
    refine ⟨ps, hps, fun ρ ρ' t hall ↦ ?_⟩
    simp [CnfSet.combinePred, Predicate.eval, himp ρ ρ' t hall, himp' ρ ρ' t hall]

end Sound

section Kept

variable {V : Type} (schema : TableList) (fcns : ExtFcnList) (std : StdSort) (I : Interp V)

theorem mem_whereList {lftas : List Lfta} {l : Nat} {ps : List Predicate}
    (h : (whereList lftas)[l]? = some ps) :
    ∃ q, lftas[l]? = some q ∧ ps = q.filterClause.map (insertGbDefPr q.gbTbl) := by
  rw [whereList, getElem?_map, Option.map_eq_some_iff] at h
  obtain ⟨q, hq, rfl⟩ := h
  exact ⟨q, hq, rfl⟩

/-- Every set that is collected stands for one conjunct. -/
theorem sound_of_mem_prefilterSafe {lftas : List Lfta} {l : Nat} {ps : List Predicate}
    (hl : (whereList lftas)[l]? = some ps) {s : CnfSet} (hs : s ∈ prefilterSafe schema fcns l ps) :
    Sound schema I (whereList lftas) s := by
  obtain ⟨⟨p, c⟩, hpc, hs⟩ := mem_filterMap.mp hs
  split at hs
  · rename_i hcond
    cases hs
    have hc : ps[c]? = some p := mk_mem_zipIdx_iff_getElem?.mp hpc
    refine Sound.new hl hc ?_
    obtain ⟨q, -, rfl⟩ := mem_whereList hl
    obtain ⟨p', hp', rfl⟩ := mem_map.mp (mem_of_getElem? hc)
    exact isBase_of_prefilterCompatible fcns q hp' (Bool.and_eq_true_iff.mp hcond).1
  · cases hs

/-- **All sets that are kept are sound.** -/
theorem sound_of_mem_keptSets (lftas : List Lfta) {s : CnfSet}
    (hs : s ∈ keptSets schema fcns std (whereList lftas)) : Sound schema I (whereList lftas) s := by
  have hs' := (std.perm _).mem_iff.mp (mem_of_mem_take hs)
  refine forall_collapse (fun p q hp hq h ↦ hp.combinePred hq (beq_iff_eq.mp h)) _ _ ?_ s hs'
  refine forall_collapse (fun p q hp hq h ↦ hp.subsume hq h) _ _ ?_
  intro r hr
  obtain ⟨⟨ps, l⟩, hl, hr⟩ := mem_flatMap.mp hr
  exact sound_of_mem_prefilterSafe schema fcns I (mk_mem_zipIdx_iff_getElem?.mp hl) hr

theorem mem_foldl_predId (ss : List CnfSet) (ids : Finset (BitVec 32)) (i : BitVec 32) :
    i ∈ ss.foldl (fun ids s ↦ ids ∪ s.predId) ids ↔ i ∈ ids ∨ ∃ s ∈ ss, i ∈ s.predId := by
  induction ss generalizing ids with
  | nil => simp
  | cons s ss ih => simp [ih, or_assoc]

/-! ## Substitution -/

theorem subsGbrefsSeList_eq_map (os : List ScalarExp) :
    subsGbrefsSeList schema os = os.map (subsGbrefsSe schema) := by
  induction os with
  | nil => rfl
  | cons o os ih => rw [subsGbrefsSeList, ih, map_cons]

/-- Substitution of definitions keeps the value. -/
theorem eval_subsGbrefsSe (ρ : Env V) (t : String → String → V) (e : ScalarExp) :
    (subsGbrefsSe schema e).eval I (packetEnv schema ρ t) = e.eval I (packetEnv schema ρ t) := by
  induction e with
  | gbdef cr g d ih => exact ih
  | unaryOp op l ih => rw [subsGbrefsSe, ScalarExp.eval, ScalarExp.eval, ih]
  | binaryOp op l r ihl ihr => rw [subsGbrefsSe, ScalarExp.eval, ScalarExp.eval, ihl, ihr]
  | func op os i a ih =>
    cases a with
    | some a => rfl
    | none =>
      simp only [subsGbrefsSe, subsGbrefsSeList_eq_map, ScalarExp.eval, ScalarExp.evalList_eq_map,
        map_map]
      congr 1
      exact map_congr_left ih
  | _ => rfl

theorem eval_subsGbrefsPr (ρ : Env V) (t : String → String → V) (p : Predicate) :
    (subsGbrefsPr schema p).eval I (packetEnv schema ρ t) = p.eval I (packetEnv schema ρ t) := by
  induction p with
  | compare l op r =>
    rw [subsGbrefsPr, Predicate.eval, Predicate.eval, eval_subsGbrefsSe, eval_subsGbrefsSe]
  | isIn l lits => rw [subsGbrefsPr, Predicate.eval, Predicate.eval, eval_subsGbrefsSe]
  | unaryOp op l ih => rw [subsGbrefsPr, Predicate.eval, Predicate.eval, ih]
  | binaryOp op l r ihl ihr => rw [subsGbrefsPr, Predicate.eval, Predicate.eval, ihl, ihr]
  | func op os i =>
    simp only [subsGbrefsPr, Predicate.eval, map_map]
    congr 1
    exact map_congr_left fun o _ ↦ eval_subsGbrefsSe schema I ρ t o

end Kept
/-! ## A sorting and two queries -/

def moreQueries (c1 c2 : CnfSet) : Prop := c2.lftaId.card ≤ c1.lftaId.card

instance : DecidableRel moreQueries := fun c1 c2 ↦ Nat.decLe c2.lftaId.card c1.lftaId.card

theorem pairwise_moreQueries (l : List CnfSet) :
    (l.insertionSort moreQueries).Pairwise moreQueries := by
  have htotal : Std.Total moreQueries := ⟨fun c1 c2 ↦ Nat.le_total c2.lftaId.card c1.lftaId.card⟩
  have htrans : IsTrans CnfSet moreQueries := ⟨fun _ _ _ h1 h2 ↦ Nat.le_trans h2 h1⟩
  exact l.pairwise_insertionSort moreQueries

theorem perm_moreQueries (l : List CnfSet) : (l.insertionSort moreQueries).Perm l :=
  l.perm_insertionSort moreQueries

/-- A stable sorting. -/
def stdSort : StdSort where
  sort := insertionSort moreQueries
  perm := perm_moreQueries
  sorted := pairwise_moreQueries

/-- One table without expensive columns. -/
def oneTable : TableList := ⟨fun _ _ ↦ "IPV4", fun _ ↦ 0, fun _ _ ↦ false⟩

def freeFcns : ExtFcnList := ⟨fun _ ↦ 0, fun _ ↦ false⟩

/-- Expressions are true or false, and comparisons hold if both sides are true. -/
def boolInterp : Interp Bool where
  lit _ := true
  unary _ x := !x
  binary _ x y := x && y
  fcn _ _ := true
  compare _ x y := x && y
  isLit x _ := x
  pred _ _ := true

/-- A comparison with a parameter is not for the prefilter. -/
def paramPred : Predicate := .compare (.param "p") "=" (.literal ⟨"1", 1⟩)

def colPred : Predicate := .compare (.colref ⟨"t", "len", 0, 0⟩) "=" (.literal ⟨"1", 1⟩)

theorem leafOk_paramPred : ∀ x ∈ paramPred.leaves, LeafOk 0 x := by
  simp [paramPred, Predicate.leaves, ScalarExp.leaves, LeafOk]

theorem leafOk_colPred : ∀ x ∈ colPred.leaves, LeafOk 0 x := by
  simp [colPred, Predicate.leaves, ScalarExp.leaves, LeafOk]

theorem leafOk_manyPreds (n : Nat) :
    ∀ p ∈ replicate n paramPred ++ [colPred], ∀ x ∈ p.leaves, LeafOk 0 x := by
  intro p hp
  rcases mem_append.mp hp with hp | hp
  · rw [eq_of_mem_replicate hp]
    exact leafOk_paramPred
  · rw [mem_singleton.mp hp]
    exact leafOk_colPred

/-- A query with a conjunct for the prefilter after `n` others. -/
def manyPreds (n : Nat) : Lfta where
  filterClause := replicate n paramPred ++ [colPred]
  gbTbl := []
  filterOk := leafOk_manyPreds n
  gbOk := forall_mem_nil _

theorem leafOk_onePred : ∀ p ∈ [paramPred], ∀ x ∈ p.leaves, LeafOk 0 x :=
  forall_mem_singleton.mpr leafOk_paramPred

def onePred : Lfta where
  filterClause := [paramPred]
  gbTbl := []
  filterOk := leafOk_onePred
  gbOk := forall_mem_nil _

def allFalse : Env Bool := ⟨fun _ ↦ false, fun _ ↦ false, fun _ ↦ false, fun _ ↦ false,
    fun _ ↦ false⟩

/-! ## Acceptance -/

theorem toNat_predIdOf {l c : Nat} (hl : l < 2 ^ 16) (hc : c < 2 ^ 16) :
    (predIdOf l c).toNat = l * 2 ^ 16 + c := by
  rw [predIdOf, BitVec.toNat_add, BitVec.toNat_shiftLeft, BitVec.toNat_ofNat, BitVec.toNat_ofNat,
    Nat.shiftLeft_eq]
  omega

/-- **The number of a conjunct is read back right.** -/
theorem eq_of_predIdOf {l c li w : Nat} (hl : l < 2 ^ 16) (hc : c < 2 ^ 16)
    (h1 : ((predIdOf l c).sshiftRight 16).toInt = (li : Int))
    (h2 : (predIdOf l c &&& 0xffff).toNat = w) : l = li ∧ c = w := by
  have hid := toNat_predIdOf hl hc
  constructor
  · rw [BitVec.toInt_sshiftRight, Int.shiftRight_eq_div_pow, BitVec.toInt_eq_toNat_cond, hid] at h1
    split at h1 <;> omega
  · rw [BitVec.toNat_and, hid] at h2
    have hmod : (l * 2 ^ 16 + c) &&& (0xffff : BitVec 32).toNat = (l * 2 ^ 16 + c) % 2 ^ 16 :=
      Nat.and_two_pow_sub_one_eq_mod _ 16
    rw [hmod] at h2
    omega

theorem all_remaining_iff {sPids : Finset Nat} {filter : List Predicate} {f : Predicate → Bool} :
    (remaining sPids filter).all f = true ↔
      ∀ w p, filter[w]? = some p → w ∉ sPids → f p = true := by
  rw [all_eq_true]
  constructor
  · intro h w p hp hw
    refine h p (mem_filterMap.mpr ⟨(p, w), mk_mem_zipIdx_iff_getElem?.mpr hp, ?_⟩)
    rw [if_neg hw]
  · intro h p hp
    obtain ⟨⟨p', w⟩, hmem, hite⟩ := mem_filterMap.mp hp
    split at hite
    · cases hite
    · rename_i hw
      cases hite
      exact h w _ (mk_mem_zipIdx_iff_getElem?.mp hmem) hw

section Accept

variable {V : Type} (schema : TableList) (fcns : ExtFcnList) (std : StdSort) (I : Interp V)

/-- The prefilter has no group-by variables, parameters or aggregates. -/
theorem isPlain_subsGbrefsSe {e : ScalarExp} (he : ∀ x ∈ e.leaves, IsBase x) :
    ∀ x ∈ (subsGbrefsSe schema e).leaves, IsPlain x := by
  induction e with
  | literal lit => exact fun x hx ↦ by cases mem_singleton.mp hx; trivial
  | colref cr => exact fun x hx ↦ by cases mem_singleton.mp hx; trivial
  | gbdef cr g d ih =>
    exact ih fun x hx ↦ (he (.gbdef cr g d) (by simp [ScalarExp.leaves]) x hx).isBase
  | unaryOp op l ih => exact ih he
  | binaryOp op l r ihl ihr =>
    intro x hx
    rcases mem_append.mp hx with hx | hx
    · exact ihl (fun y hy ↦ he y (mem_append_left _ hy)) x hx
    · exact ihr (fun y hy ↦ he y (mem_append_right _ hy)) x hx
  | func op os i a ih =>
    cases a with
    | some a => exact (he (.func op os i (some a)) (by simp [ScalarExp.leaves])).elim
    | none =>
      simp only [ScalarExp.leaves, ScalarExp.leavesList_eq_flatMap, mem_flatMap,
        forall_exists_index, and_imp] at he
      simp only [subsGbrefsSe, subsGbrefsSeList_eq_map, ScalarExp.leaves,
        ScalarExp.leavesList_eq_flatMap, flatMap_map, mem_flatMap]
      rintro x ⟨o, ho, hx⟩
      exact ih o ho (fun y hy ↦ he y o ho hy) x hx
  | param name => exact (he (.param name) (by simp [ScalarExp.leaves])).elim
  | ifaceParam ifp => exact (he (.ifaceParam ifp) (by simp [ScalarExp.leaves])).elim
  | gbref cr g => exact (he (.gbref cr g) (by simp [ScalarExp.leaves])).elim
  | aggrStar op a => exact (he (.aggrStar op a) (by simp [ScalarExp.leaves])).elim
  | aggrSe op l a ih => exact (he (.aggrSe op l a) (by simp [ScalarExp.leaves])).elim

theorem isPlain_subsGbrefsPr {p : Predicate} (hp : ∀ x ∈ p.leaves, IsBase x) :
    ∀ x ∈ (subsGbrefsPr schema p).leaves, IsPlain x := by
  induction p with
  | compare l op r =>
    intro x hx
    rcases mem_append.mp hx with hx | hx
    · exact isPlain_subsGbrefsSe schema (fun y hy ↦ hp y (mem_append_left _ hy)) x hx
    · exact isPlain_subsGbrefsSe schema (fun y hy ↦ hp y (mem_append_right _ hy)) x hx
  | isIn l lits => exact isPlain_subsGbrefsSe schema hp
  | unaryOp op l ih => exact ih hp
  | binaryOp op l r ihl ihr =>
    intro x hx
    rcases mem_append.mp hx with hx | hx
    · exact ihl (fun y hy ↦ hp y (mem_append_left _ hy)) x hx
    · exact ihr (fun y hy ↦ hp y (mem_append_right _ hy)) x hx
  | func op os i =>
    intro x hx
    simp only [subsGbrefsPr, Predicate.leaves, flatMap_map, mem_flatMap] at hx
    obtain ⟨o, ho, hx⟩ := hx
    exact isPlain_subsGbrefsSe schema (fun y hy ↦ hp y (mem_flatMap.mpr ⟨o, ho, hy⟩)) x hx

/-- A conjunct that a query leaves out is implied by a predicate of its signature. -/
theorem exists_of_mem_subsumedPreds {lftas : List Lfta} (hn : lftas.length ≤ 2 ^ 16)
    (hw : ∀ q ∈ lftas, q.filterClause.length ≤ 2 ^ 16) {li w : Nat} {q : Lfta} {p : Predicate}
    (hq : lftas[li]? = some q) (hp : q.filterClause[w]? = some p)
    (h : w ∈ subsumedPreds (findCommonFilter schema fcns std (whereList lftas)).2 li) :
    ∃ s ∈ (findCommonFilter schema fcns std (whereList lftas)).1, li ∈ s.lftaId ∧
      ∀ (ρ ρ' : Env V) t, s.pr.eval I (packetEnv schema ρ t) = true →
        p.eval I (q.env schema I ρ' t) = true := by
  obtain ⟨pid, hpid, hlow⟩ := Finset.mem_image.mp h
  obtain ⟨hmem, hhigh⟩ := Finset.mem_filter.mp hpid
  rcases (mem_foldl_predId _ _ _).mp hmem with hmem | ⟨s, hs, hmem⟩
  · cases hmem
  have hsound := sound_of_mem_keptSets schema fcns std I lftas hs
  obtain ⟨l, c, ps, p', hl, hc, hls, rfl, himp⟩ := hsound.pred pid hmem
  obtain ⟨q', hq', rfl⟩ := mem_whereList hl
  have hl16 : l < 2 ^ 16 := lt_of_lt_of_le (List.getElem?_eq_some_iff.mp hq').1 hn
  have hc16 : c < 2 ^ 16 := by
    have hlt := (List.getElem?_eq_some_iff.mp hc).1
    rw [length_map] at hlt
    exact lt_of_lt_of_le hlt (hw q' (mem_of_getElem? hq'))
  obtain ⟨rfl, rfl⟩ := eq_of_predIdOf hl16 hc16 hhigh hlow
  rw [hq] at hq'
  cases hq'
  rw [getElem?_map, hp, Option.map_some, Option.some.injEq] at hc
  subst hc
  refine ⟨{ s with pr := subsGbrefsPr schema s.pr }, mem_map.mpr ⟨s, hs, rfl⟩, hls, ?_⟩
  intro ρ ρ' t hev
  rw [eval_subsGbrefsPr] at hev
  rw [← eval_insertGbDefPr schema I q ρ' t (mem_of_getElem? hp)]
  exact himp ρ ρ' t hev

/-- A packet that the conjuncts of a query accept passes its signature. -/
theorem eval_of_mem_lftaId {lftas : List Lfta} {li : Nat} {q : Lfta} (hq : lftas[li]? = some q)
    {s : CnfSet} (hs : s ∈ (findCommonFilter schema fcns std (whereList lftas)).1)
    (hli : li ∈ s.lftaId) (ρ ρ' : Env V) (t : String → String → V)
    (h : ∀ p ∈ q.filterClause, p.eval I (q.env schema I ρ' t) = true) :
    s.pr.eval I (packetEnv schema ρ t) = true := by
  obtain ⟨s', hs', rfl⟩ := mem_map.mp hs
  obtain ⟨ps, hps, himp⟩ := (sound_of_mem_keptSets schema fcns std I lftas hs').lfta li hli
  obtain ⟨q', hq', rfl⟩ := mem_whereList hps
  rw [hq] at hq'
  cases hq'
  rw [eval_subsGbrefsPr]
  refine himp ρ ρ' t fun p hp ↦ ?_
  obtain ⟨p', hp', rfl⟩ := mem_map.mp hp
  rw [eval_insertGbDefPr schema I q ρ' t hp']
  exact h p' hp'

/-- **A query gets exactly the packets that its own conjuncts accept**, for at most 65536 queries of
at most 65536 conjuncts each: the packets that pass all predicates of its signature and the
conjuncts that it does not leave out.  Every conjunct it leaves out is implied by a predicate of its
signature.  There are at most 64 predicates, over literals and columns. -/
theorem accepts_iff {lftas : List Lfta} (hn : lftas.length ≤ 2 ^ 16)
    (hw : ∀ q ∈ lftas, q.filterClause.length ≤ 2 ^ 16) {li : Nat} {q : Lfta}
    (hq : lftas[li]? = some q) :
    (∀ (ρ ρ' : Env V) t,
      accepts schema I (findCommonFilter schema fcns std (whereList lftas)) li q ρ ρ' t = true ↔
        ∀ p ∈ q.filterClause, p.eval I (q.env schema I ρ' t) = true) ∧
    (∀ w ∈ subsumedPreds (findCommonFilter schema fcns std (whereList lftas)).2 li, ∀ p,
      q.filterClause[w]? = some p →
        ∃ s ∈ (findCommonFilter schema fcns std (whereList lftas)).1, li ∈ s.lftaId ∧
          ∀ (ρ ρ' : Env V) t, s.pr.eval I (packetEnv schema ρ t) = true →
            p.eval I (q.env schema I ρ' t) = true) ∧
    (findCommonFilter schema fcns std (whereList lftas)).1.length ≤ 64 ∧
    ∀ s ∈ (findCommonFilter schema fcns std (whereList lftas)).1, ∀ x ∈ s.pr.leaves, IsPlain x := by
  have hlen : (findCommonFilter schema fcns std (whereList lftas)).1.length ≤ 64 := by
    rw [findCommonFilter, length_map, keptSets, length_take]
    exact Nat.min_le_left _ _
  refine ⟨fun ρ ρ' t ↦ ?_, ?_, hlen, ?_⟩
  · rw [accepts, Bool.and_eq_true, beq_iff_eq, all_remaining_iff, lftaPrefilter, lftaSig,
      not_setBits_eq_zero_iff _ _ hlen]
    constructor
    · rintro ⟨hsig, hrem⟩ p hp
      obtain ⟨w, hwp⟩ := mem_iff_getElem?.mp hp
      by_cases hcov : w ∈ subsumedPreds (findCommonFilter schema fcns std (whereList lftas)).2 li
      · obtain ⟨s, hs, hli, himp⟩ := exists_of_mem_subsumedPreds schema fcns std I hn hw hq hwp hcov
        exact himp ρ ρ' t (hsig s hs (decide_eq_true hli))
      · exact hrem w p hwp hcov
    · intro h
      refine ⟨fun s hs hli ↦ ?_, fun w p hwp _ ↦ h p (mem_of_getElem? hwp)⟩
      exact eval_of_mem_lftaId schema fcns std I hq hs (of_decide_eq_true hli) ρ ρ' t h
  · exact fun w hcov p hwp ↦ exists_of_mem_subsumedPreds schema fcns std I hn hw hq hwp hcov
  · intro s hs
    obtain ⟨s', hs', rfl⟩ := mem_map.mp hs
    exact isPlain_subsGbrefsPr schema
      (sound_of_mem_keptSets schema fcns std I lftas hs').base

end Accept

/-- A conjunct over the first group-by variable. -/
def gbPred : Predicate := .compare (.gbref ⟨"t", "tb", 0, 0⟩ 0) "=" (.literal ⟨"1", 1⟩)

theorem leafOk_grouped : ∀ p ∈ [paramPred, gbPred], ∀ x ∈ p.leaves, LeafOk 1 x := by
  simp [paramPred, gbPred, Predicate.leaves, ScalarExp.leaves, LeafOk]

/-- A query that groups by the column that `colPred` is about. -/
def grouped : Lfta where
  filterClause := [paramPred, gbPred]
  gbTbl := [.colref ⟨"t", "len", 0, 0⟩]
  filterOk := leafOk_grouped
  gbOk := by simp [ScalarExp.leaves, LeafOk]

def allTrue : Env Bool := ⟨fun _ ↦ true, fun _ ↦ true, fun _ ↦ true, fun _ ↦ true, fun _ ↦ true⟩

/-- Two queries, one of which says by a group-by variable what the other one says by a column: one
predicate is for both, and a packet gets through to the second query. -/
theorem accepts_iff_manyPreds :
    (findCommonFilter oneTable freeFcns stdSort (whereList [manyPreds 1, grouped])).1.map
        CnfSet.lftaId = [{0, 1}] ∧
      (accepts oneTable boolInterp (findCommonFilter oneTable freeFcns stdSort
          (whereList [manyPreds 1, grouped])) 1 grouped allFalse allTrue (fun _ _ ↦ true) = true ↔
        ∀ p ∈ grouped.filterClause,
          p.eval boolInterp (grouped.env oneTable boolInterp allTrue fun _ _ ↦ true) = true) ∧
      ∀ p ∈ grouped.filterClause,
        p.eval boolInterp (grouped.env oneTable boolInterp allTrue fun _ _ ↦ true) = true :=
  ⟨by decide +kernel,
    (accepts_iff oneTable freeFcns stdSort boolInterp (by decide) (by decide) rfl).1 _ _ _, by
      decide⟩

/-! ## The position of a conjunct has 16 bits -/

/-- Only the last conjunct of the first query is collected. -/
theorem keptSets_manyPreds (n : Nat) :
    keptSets oneTable freeFcns stdSort (whereList [manyPreds n, onePred]) = [.new colPred 0 n] := by
  have hone : prefilterSafe oneTable freeFcns 1 [paramPred] = [] := rfl
  have hmany : prefilterSafe oneTable freeFcns 0 (replicate n paramPred ++ [colPred]) =
      [.new colPred 0 n] := by
    rw [prefilterSafe, zipIdx_append, filterMap_append, length_replicate]
    have hnone : ((replicate n paramPred).zipIdx.filterMap fun pc ↦
        if prefilterCompatible freeFcns pc.1 && expensiveRefsPr oneTable pc.1 == 0 then
          some (CnfSet.new pc.1 0 pc.2)
        else none) = [] := by
      rw [filterMap_eq_nil_iff]
      rintro ⟨p, c⟩ hp
      have hpc := eq_of_mem_replicate
        (mem_of_getElem? (mk_mem_zipIdx_iff_getElem?.mp hp))
      cases hpc
      rfl
    rw [hnone, Nat.zero_add]
    rfl
  have hwhere : whereList [manyPreds n, onePred] =
      [replicate n paramPred ++ [colPred], [paramPred]] := by
    simp only [whereList, manyPreds, onePred, map_cons, map_nil, map_append,
      map_replicate]
    rfl
  rw [keptSets, hwhere]
  simp only [zipIdx_cons, zipIdx_nil, flatMap_cons, flatMap_nil, hmany, hone,
    Nat.zero_add, append_nil]
  rfl

/-- Not so without the bound on the number of conjuncts: the conjunct number 65536 of the first
query has the number of the first conjunct of the second query, which then leaves it out. -/
theorem exists_not_accepts_iff : ∃ (lftas : List Lfta) (li : Nat) (q : Lfta) (ρ ρ' : Env Bool)
    (t : String → String → Bool), lftas[li]? = some q ∧
      ¬(accepts oneTable boolInterp
          (findCommonFilter oneTable freeFcns stdSort (whereList lftas)) li q ρ ρ' t = true ↔
        ∀ p ∈ q.filterClause, p.eval boolInterp (q.env oneTable boolInterp ρ' t) = true) := by
  refine ⟨[manyPreds 65536, onePred], 1, onePred, allFalse, allFalse, fun _ _ ↦ false,
    rfl, fun h ↦ ?_⟩
  have hacc : accepts oneTable boolInterp
      (findCommonFilter oneTable freeFcns stdSort (whereList [manyPreds 65536, onePred])) 1 onePred
      allFalse allFalse (fun _ _ ↦ false) = true := by
    rw [findCommonFilter, keptSets_manyPreds]
    decide
  have hp := h.mp hacc paramPred mem_cons_self
  cases hp

end Tigon.Ftacmp.CommonFilter
