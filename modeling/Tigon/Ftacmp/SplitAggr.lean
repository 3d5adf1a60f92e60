import Tigon.Ftacmp.SplitSe
import Tigon.Ftacmp.SeEquivalence

/-!
# Splitting aggregates between two levels

The low level keeps groups in a table of a fixed size, and puts a group out before its time when the
slot is needed; the high level puts the parts of a group together again.  So each aggregate of a
query is split into subaggregates, which are columns of the low level, and a superaggregate over
these columns.  Both are registered in tables, in which an aggregate that is there already is not
entered again, and an expression refers to its aggregate by the position in the table.

`split_fta_aggr` and `split_hfta_aggr` do the same with other numbers for the functions of
user-defined aggregates. `AVG` may not be computed by the low level: it is not among the aggregates
for which `fta_legal` holds.

* `splitAggr`, `splitAggrs` — the functions.
* `Inv` — columns have different names, and those with aggregates refer to them.
* `Resolved` — the superaggregate of a subaggregate.
* `splits_aggregates` — **superaggregates of the parts have the values of the aggregates of the
whole.** -/

set_option autoImplicit false

namespace Tigon.Ftacmp.SplitAggr

open Parse Split List

/-! ## The tables -/

/-- `aggr_table_entry` -/
inductive AggrEntry
  | builtin (op : String) (operand : Option ScalarExp)
  | udaf (op : String) (fcnId : Nat) (oplist : List ScalarExp)

/-- `is_equivalent_se`, where `COUNT(*)` has no operand. -/
def isEquivalentOperand : Option ScalarExp → Option ScalarExp → Bool
  | none, none => true
  | some e, some e' => e.isEquivalentSe e'
  | _, _ => false

def AggrEntry.isBuiltin (op : String) (se : Option ScalarExp) : AggrEntry → Bool
  | .builtin op' operand => op == op' && isEquivalentOperand se operand
  | .udaf .. => false

def AggrEntry.isUdaf (fcnId : Nat) (opl : List ScalarExp) : AggrEntry → Bool
  | .builtin .. => false
  | .udaf _ fcnId' oplist => fcnId == fcnId' && ScalarExp.isEquivalentSeList opl oplist

/-- A built-in aggregate; none is marked as one of a supergroup here. -/
def addAggr (op : String) (se : Option ScalarExp) (agrTbl : List AggrEntry) :
    Nat × List AggrEntry :=
  Equivalence.findOrAdd (AggrEntry.isBuiltin op se) id (.builtin op se) agrTbl

/-- A user-defined aggregate. -/
def addUdaf (op : String) (fcnId : Nat) (opl : List ScalarExp) (agrTbl : List AggrEntry) :
    Nat × List AggrEntry :=
  Equivalence.findOrAdd (AggrEntry.isUdaf fcnId opl) id (.udaf op fcnId opl) agrTbl

/-- An aggregate is registered by its operator and its operands. -/
def register (se : ScalarExp) (agrTbl : List AggrEntry) : Nat × List AggrEntry :=
  match se with
  | .aggrStar op _ => addAggr op none agrTbl
  | .aggrSe op l _ => addAggr op (some l) agrTbl
  | .binaryOp op l _ => addAggr op (some l) agrTbl
  | .func op os fcnId _ => addUdaf op fcnId os agrTbl
  | _ => (0, agrTbl)

/-- `set_aggr_id`, for the expressions that have such a number. -/
def setAggrId (a : Nat) : ScalarExp → ScalarExp
  | .aggrStar op _ => .aggrStar op (some a)
  | .aggrSe op l _ => .aggrSe op l (some a)
  | .func op os fcnId _ => .func op os fcnId (some a)
  | e => e

/-! ## The split -/

/-- Of the external functions, the name of each one, and the sub- and the superaggregate of each
aggregate. -/
structure ExtFcns where
  getFcnName : Nat → String
  getSubaggrId : Nat → Nat
  getSuperaggrId : Nat → Nat

/-- The names of the subaggregates, and whether they have the operand. -/
def getSubaggrFcns (op : String) : List (String × Bool) :=
  if op = "COUNT" then [("COUNT", false)]
  else if op = "SUM" then [("SUM", true)]
  else if op = "AVG" then [("SUM", true), ("COUNT", false)]
  else if op = "MIN" then [("MIN", true)]
  else if op = "MAX" then [("MAX", true)]
  else if op = "AND_AGGR" then [("AND_AGGR", true)]
  else if op = "OR_AGGR" then [("OR_AGGR", true)]
  else if op = "XOR_AGGR" then [("XOR_AGGR", true)]
  else []

/-- The expression over the columns of the subaggregates. -/
def makeSuperaggrSe (op : String) (refs : List ScalarExp) : Option ScalarExp :=
  match refs with
  | [r] =>
    if op = "COUNT" then some (.aggrSe "SUM" r none)
    else if op = "SUM" then some (.aggrSe "SUM" r none)
    else if op = "MIN" then some (.aggrSe "MIN" r none)
    else if op = "MAX" then some (.aggrSe "MAX" r none)
    else if op = "AND_AGGR" then some (.aggrSe "AND_AGGR" r none)
    else if op = "OR_AGGR" then some (.aggrSe "OR_AGGR" r none)
    else if op = "XOR_AGGR" then some (.aggrSe "XOR_AGGR" r none)
    else none
  | [l, r] =>
    if op = "AVG" then some (.binaryOp "/" (.aggrSe "SUM" l none) (.aggrSe "SUM" r none)) else none
  | _ => none

/-- What is built for the two levels. -/
structure SplitState where
  hftaAggrTbl : List AggrEntry
  lftaAggrTbl : List AggrEntry
  lftaSelectList : List SelectElement

/-- A reference to the column of a subaggregate: a new column has its aggregate registered. -/
def refSubaggr (h : Int) (subaggrSe : ScalarExp) (s : SplitState) : ScalarExp × SplitState :=
  match addSelectListNodup s.lftaSelectList subaggrSe with
  | (l, i, false) => (.colref ⟨"", (l[i]?.map SelectElement.name).getD "", -1, h⟩, s)
  | (l, i, true) =>
    let colname := imputeColname (l.map SelectElement.name) subaggrSe
    let (ano, tbl) := register subaggrSe s.lftaAggrTbl
    (.colref ⟨"", colname, -1, h⟩,
      { s with lftaAggrTbl := tbl, lftaSelectList := l.set i ⟨setAggrId ano subaggrSe, colname⟩ })

/-- A subaggregate with an operand or without one. -/
def subaggrSe (name : String) : Option ScalarExp → ScalarExp
  | some l => .aggrSe name l none
  | none => .aggrStar name none

/-- References to the subaggregates, one after another. -/
def refSubaggrs (operand : Option ScalarExp) : List (String × Bool) → SplitState →
    List ScalarExp × SplitState
  | [], s => ([], s)
  | (name, useSe) :: fcns, s =>
    let h := if operand.isSome then -1 else 0
    let (r, s) := refSubaggr h (subaggrSe name (if useSe then operand else none)) s
    let (rs, s) := refSubaggrs operand fcns s
    (r :: rs, s)

/-- The superaggregate is registered in the table of the high level. -/
def addSuperaggr (retSe : ScalarExp) (s : SplitState) : ScalarExp × SplitState :=
  let (ano, tbl) := register retSe s.hftaAggrTbl
  (setAggrId ano retSe, { s with hftaAggrTbl := tbl })

/-- `split_fta_aggr` and `split_hfta_aggr`: the expression for an aggregate in the high level. -/
def splitAggr (Ext_fcns : ExtFcns) (entry : AggrEntry) (s : SplitState) :
    Option (ScalarExp × SplitState) :=
  match entry with
  | .udaf _ fcnId opl =>
    let subId := Ext_fcns.getSubaggrId fcnId
    let superId := Ext_fcns.getSuperaggrId fcnId
    let (r, s) := refSubaggr (-1) (.func (Ext_fcns.getFcnName subId) opl subId none) s
    some (addSuperaggr (.func (Ext_fcns.getFcnName superId) [r] superId none) s)
  | .builtin op operand =>
    let (refs, s) := refSubaggrs operand (getSubaggrFcns op) s
    (makeSuperaggrSe op refs).map fun retSe ↦ addSuperaggr retSe s

/-- `hfta_aggr_se`, for the aggregates of a table. -/
def splitAggrs (Ext_fcns : ExtFcns) : List AggrEntry → SplitState →
    Option (List ScalarExp × SplitState)
  | [], s => some ([], s)
  | entry :: entries, s => do
    let (se, s) ← splitAggr Ext_fcns entry s
    let (ses, s) ← splitAggrs Ext_fcns entries s
    some (se :: ses, s)

/-! ## Values -/

/-- A list is put together from its first value on. -/
def fold1 {V : Type} (f : V → V → V) (junk : V) : List V → V
  | [] => junk
  | v :: vs => vs.foldl f v

theorem foldl_parts {V : Type} {f : V → V → V} (hf : Std.Associative f) (junk a : V)
    {vss : List (List V)} (hvs : ∀ vs ∈ vss, vs ≠ []) : (vss.map (fold1 f junk)).foldl f a =
      vss.flatten.foldl f a := by
  induction vss generalizing a with
  | nil => rfl
  | cons vs vss ih =>
    obtain ⟨hne, hrest⟩ := forall_mem_cons.mp hvs
    rcases vs with _ | ⟨v, vs⟩
    · exact absurd rfl hne
    rw [map_cons, flatten_cons, foldl_cons, foldl_append, ih _ hrest, fold1,
      foldl_cons]
    exact congrArg (fun x ↦ vss.flatten.foldl f x) foldl_assoc.symm

/-- Parts can be put together first. -/
theorem fold1_flatten {V : Type} {f : V → V → V} (hf : Std.Associative f) (junk : V)
    (vss : List (List V)) (hne : vss ≠ []) (hvs : ∀ vs ∈ vss, vs ≠ []) :
    fold1 f junk (vss.map (fold1 f junk)) = fold1 f junk vss.flatten := by
  rcases vss with _ | ⟨vs, vss⟩
  · exact absurd rfl hne
  obtain ⟨hvs, hrest⟩ := forall_mem_cons.mp hvs
  rcases vs with _ | ⟨v, vs⟩
  · exact absurd rfl hvs
  calc ((vss.map (fold1 f junk)).foldl f (vs.foldl f v))
      = vss.flatten.foldl f (vs.foldl f v) := foldl_parts hf junk _ hrest
    _ = (vs ++ vss.flatten).foldl f v := foldl_append.symm

/-- What the built-in aggregates are computed with. -/
structure AggrOps (V : Type) where
  one : V
  add : V → V → V
  min : V → V → V
  max : V → V → V
  and : V → V → V
  or : V → V → V
  xor : V → V → V
  add_assoc : Std.Associative add
  min_assoc : Std.Associative min
  max_assoc : Std.Associative max
  and_assoc : Std.Associative and
  or_assoc : Std.Associative or
  xor_assoc : Std.Associative xor

/-- The meaning of aggregates; that of a user-defined one has the values of its operands for each
tuple. -/
structure AggrMeaning (V : Type) where
  ops : AggrOps V
  udaf : String → List (List V) → V
  junk : V

variable {V : Type}

/-- The operation of a built-in aggregate. -/
def AggrOps.ofName (ops : AggrOps V) (op : String) : V → V → V :=
  if op = "MIN" then ops.min
  else if op = "MAX" then ops.max
  else if op = "AND_AGGR" then ops.and
  else if op = "OR_AGGR" then ops.or
  else if op = "XOR_AGGR" then ops.xor
  else ops.add

theorem AggrOps.ofName_assoc (ops : AggrOps V) (op : String) : Std.Associative (ops.ofName op) := by
  unfold ofName
  split_ifs
  · exact ops.min_assoc
  · exact ops.max_assoc
  · exact ops.and_assoc
  · exact ops.or_assoc
  · exact ops.xor_assoc
  · exact ops.add_assoc

/-- The value of a built-in aggregate. -/
def AggrMeaning.builtin (A : AggrMeaning V) (op : String) (vs : List V) : V :=
  fold1 (A.ops.ofName op) A.junk (if op = "COUNT" then vs.map fun _ ↦ A.ops.one else vs)

/-- The value of an aggregate for the tuples of a group. -/
def AggrMeaning.entry (A : AggrMeaning V) (I : Interp V) (envs : List (Env V)) : AggrEntry → V
  | .builtin op none => A.builtin op (envs.map fun _ ↦ A.junk)
  | .builtin op (some se) => A.builtin op (envs.map fun ρ ↦ se.eval I ρ)
  | .udaf op _ opl => A.udaf op (envs.map fun ρ ↦ opl.map fun o ↦ o.eval I ρ)

/-- What is known of a group: an aggregate has the value of its entry. -/
def groupEnv (A : AggrMeaning V) (I : Interp V) (ρ : Env V) (tbl : List AggrEntry)
    (envs : List (Env V)) : Env V :=
  { ρ with aggr := fun a ↦ ((a.bind fun i ↦ tbl[i]?).map (A.entry I envs)).getD A.junk }

/-- A row of the low level, as a tuple of the high level. -/
def lftaRowEnv (A : AggrMeaning V) (ρ : Env V) (row : Row V) : Env V :=
  { ρ with col := fun cr ↦ (row.lookup cr.field).getD A.junk }

/-- The rows of the parts of a group. -/
def lftaRows (A : AggrMeaning V) (I : Interp V) (ρ : Env V) (s : SplitState)
    (parts : List (List (Env V))) : List (Env V) :=
  parts.map fun envs ↦ lftaRowEnv A ρ
    (outputRow I (groupEnv A I ρ s.lftaAggrTbl envs) s.lftaSelectList)

/-- There is one table: a column has its value by schema and field. -/
def OneTable (ρ : Env V) : Prop := ∀ cr : Colref, ρ.col cr = ρ.col ⟨"", cr.field, cr.schemaRef, 0⟩

/-- A leaf of an operand is no aggregate, and no group-by variable with its definition. -/
def OperandLeaf (x : ScalarExp) : Prop := x.isAggr = false ∧ ∀ cr g d, x ≠ .gbdef cr g d

/-- An aggregate over such operands; a user-defined one has the name of its number. -/
def IsSubaggr (name : Nat → String) : ScalarExp → Prop
  | .aggrStar _ _ => True
  | .aggrSe _ l _ => ∀ x ∈ l.leaves, OperandLeaf x
  | .func op os f _ => op = name f ∧ ∀ o ∈ os, ∀ x ∈ o.leaves, OperandLeaf x
  | _ => False

/-- The value of an aggregate, whatever its number is. -/
def AggrMeaning.aggr (A : AggrMeaning V) (I : Interp V) (envs : List (Env V)) : ScalarExp → V
  | .aggrStar op _ => A.builtin op (envs.map fun _ ↦ A.junk)
  | .aggrSe op l _ => A.builtin op (envs.map fun ρ ↦ l.eval I ρ)
  | .func op os _ _ => A.udaf op (envs.map fun ρ ↦ os.map fun o ↦ o.eval I ρ)
  | _ => A.junk

/-- The same for an entry of a table. -/
def EntryOk (name : Nat → String) : AggrEntry → Prop
  | .builtin _ none => True
  | .builtin _ (some se) => ∀ x ∈ se.leaves, OperandLeaf x
  | .udaf op f opl => op = name f ∧ ∀ o ∈ opl, ∀ x ∈ o.leaves, OperandLeaf x

section Values

variable {name : Nat → String} {A : AggrMeaning V} {I : Interp V}

/-- What an expression has in its `key` makes its value. -/
theorem eval_key {ρ : Env V} (hρ : OneTable ρ) (e : ScalarExp)
    (he : ∀ x ∈ e.leaves, OperandLeaf x) : e.eval I ρ = e.key.eval I ρ := by
  induction e with
  | literal lit => rfl
  | param name => rfl
  | ifaceParam ifp => rfl
  | colref cr => exact hρ cr
  | gbref cr g => rfl
  | gbdef cr g d ih => exact absurd rfl ((he _ (mem_singleton_self _)).2 cr g d)
  | unaryOp op l ih =>
    rw [ScalarExp.key, ScalarExp.eval, ScalarExp.eval, ih he]
  | binaryOp op l r ihl ihr =>
    rw [ScalarExp.leaves, forall_mem_append] at he
    rw [ScalarExp.key, ScalarExp.eval, ScalarExp.eval, ihl he.1, ihr he.2]
  | aggrStar op a => exact absurd (he _ (mem_singleton_self _)).1 (by simp [ScalarExp.isAggr])
  | aggrSe op l a ih =>
    exact absurd (he _ (mem_singleton_self _)).1 (by simp [ScalarExp.isAggr])
  | func op os f a ih =>
    rcases a with _ | a
    · rw [ScalarExp.key, ScalarExp.eval, ScalarExp.eval, ScalarExp.evalList_eq_map,
        ScalarExp.evalList_eq_map, ScalarExp.keyList_eq_map, map_map]
      refine congrArg _ (map_congr_left fun o ho ↦ ih o ho fun x hx ↦ he x ?_)
      rw [ScalarExp.leaves, ScalarExp.leavesList_eq_flatMap]
      exact mem_flatMap.mpr ⟨o, ho, hx⟩
    · exact absurd (he _ (mem_singleton_self _)).1 (by simp [ScalarExp.isAggr])

theorem eval_eq_of_key_eq {ρ : Env V} (hρ : OneTable ρ) {e e' : ScalarExp}
    (he : ∀ x ∈ e.leaves, OperandLeaf x) (he' : ∀ x ∈ e'.leaves, OperandLeaf x)
    (h : e.key = e'.key) : e.eval I ρ = e'.eval I ρ := by
  rw [eval_key hρ e he, eval_key hρ e' he', h]

theorem map_eval_eq_of_key_eq {ρ : Env V} (hρ : OneTable ρ) {os os' : List ScalarExp}
    (ho : ∀ o ∈ os, ∀ x ∈ o.leaves, OperandLeaf x) (ho' : ∀ o ∈ os', ∀ x ∈ o.leaves, OperandLeaf x)
    (h : os.map ScalarExp.key = os'.map ScalarExp.key) :
    os.map (fun o ↦ o.eval I ρ) = os'.map fun o ↦ o.eval I ρ := by
  have hkey (l : List ScalarExp) (hl : ∀ o ∈ l, ∀ x ∈ o.leaves, OperandLeaf x) :
      l.map (fun o ↦ o.eval I ρ) = (l.map ScalarExp.key).map fun o ↦ o.eval I ρ := by
    rw [map_map]
    exact map_congr_left fun o hmem ↦ eval_key hρ o (hl o hmem)
  rw [hkey os ho, hkey os' ho', h]

/-- **Aggregates with the same `key` have the same value.** -/
theorem aggr_eq_of_key_eq {envs : List (Env V)} (henvs : ∀ ρ ∈ envs, OneTable ρ) {e e' : ScalarExp}
    (he : IsSubaggr name e) (he' : IsSubaggr name e') (h : e.key = e'.key) : A.aggr I envs e =
      A.aggr I envs e' := by
  cases e with
  | aggrStar op a =>
    cases e' with
    | aggrStar op' a' =>
      obtain rfl := (ScalarExp.aggrStar.inj h).1
      rfl
    | _ => simp [ScalarExp.key] at h
  | aggrSe op l a =>
    cases e' with
    | aggrSe op' l' a' =>
      obtain ⟨rfl, hl, -⟩ := ScalarExp.aggrSe.inj h
      exact congrArg (A.builtin op) (map_congr_left fun ρ hρ ↦ eval_eq_of_key_eq
        (henvs ρ hρ) he he' hl)
    | _ => simp [ScalarExp.key] at h
  | func op os f a =>
    cases e' with
    | func op' os' f' a' =>
      simp only [ScalarExp.key, ScalarExp.keyList_eq_map] at h
      obtain ⟨rfl, hos, -, -⟩ := ScalarExp.func.inj h
      exact congrArg (A.udaf op) (map_congr_left fun ρ hρ ↦ map_eval_eq_of_key_eq (henvs ρ hρ)
        he.2 he'.2 hos)
    | _ => simp [ScalarExp.key] at h
  | _ => simp [IsSubaggr] at he

/-- An entry that stands for an aggregate. -/
def StandsFor (entry : AggrEntry) (e : ScalarExp) : Prop :=
  ∀ (V : Type) (A : AggrMeaning V) (I : Interp V) (envs : List (Env V)), (∀ ρ ∈ envs, OneTable ρ) →
    A.entry I envs entry = A.aggr I envs e

theorem findOrAdd_spec {p : AggrEntry → Bool} {new : AggrEntry} {tbl : List AggrEntry}
    {Q R : AggrEntry → Prop} (hQ : ∀ entry ∈ tbl, Q entry) (hnewQ : Q new)
    (hp : ∀ entry, Q entry → p entry = true → R entry) (hnew : R new) :
    tbl <+: (Equivalence.findOrAdd p id new tbl).2 ∧
      (∀ entry ∈ (Equivalence.findOrAdd p id new tbl).2, Q entry) ∧
      ∃ entry, (Equivalence.findOrAdd p id new tbl).2[(Equivalence.findOrAdd p id new tbl).1]? =
        some entry ∧ R entry := by
  rw [Equivalence.findOrAdd]
  split
  · rename_i i hi
    obtain ⟨hlt, hpi, -⟩ := findIdx?_eq_some_iff_getElem.mp hi
    rw [modify_id]
    exact ⟨prefix_refl tbl, hQ, tbl[i], getElem?_eq_getElem hlt,
      hp _ (hQ _ (getElem_mem hlt)) hpi⟩
  · refine ⟨prefix_append _ _, fun entry hentry ↦ ?_, new, by simp, hnew⟩
    rcases mem_append.mp hentry with hentry | hentry
    · exact hQ entry hentry
    · rw [mem_singleton.mp hentry]
      exact hnewQ

/-- **Registering an aggregate** keeps the table, and gives the position of an entry that stands for
it. -/
theorem register_spec {se : ScalarExp} (hse : IsSubaggr name se) {tbl : List AggrEntry}
    (htbl : ∀ entry ∈ tbl, EntryOk name entry) :
    tbl <+: (register se tbl).2 ∧ (∀ entry ∈ (register se tbl).2, EntryOk name entry) ∧
      ∃ entry, (register se tbl).2[(register se tbl).1]? = some entry ∧ StandsFor entry se := by
  cases se with
  | aggrStar op a =>
    refine findOrAdd_spec htbl trivial (fun entry hentry hp ↦ ?_) fun V A I envs henvs ↦ rfl
    rcases entry with ⟨op', _ | l'⟩ | _
    · rw [AggrEntry.isBuiltin, Bool.and_eq_true, beq_iff_eq] at hp
      obtain ⟨rfl, -⟩ := hp
      exact fun V A I envs henvs ↦ rfl
    · simp [AggrEntry.isBuiltin, isEquivalentOperand] at hp
    · simp [AggrEntry.isBuiltin] at hp
  | aggrSe op l a =>
    refine findOrAdd_spec htbl hse (fun entry hentry hp ↦ ?_) fun V A I envs henvs ↦ rfl
    rcases entry with ⟨op', _ | l'⟩ | _
    · simp [AggrEntry.isBuiltin, isEquivalentOperand] at hp
    · rw [AggrEntry.isBuiltin, Bool.and_eq_true, beq_iff_eq] at hp
      obtain ⟨rfl, heq⟩ := hp
      have hkey : l'.key = l.key := ((ScalarExp.isEquivalentSe_iff l l').mp heq).symm
      exact fun V A I envs henvs ↦ congrArg (A.builtin op) (map_congr_left fun ρ hρ ↦
        eval_eq_of_key_eq (henvs ρ hρ) hentry hse hkey)
    · simp [AggrEntry.isBuiltin] at hp
  | func op os f a =>
    refine findOrAdd_spec htbl hse (fun entry hentry hp ↦ ?_) fun V A I envs henvs ↦ rfl
    rcases entry with _ | ⟨op', f', os'⟩
    · simp [AggrEntry.isUdaf] at hp
    · rw [AggrEntry.isUdaf, Bool.and_eq_true, beq_iff_eq] at hp
      obtain ⟨rfl, heq⟩ := hp
      have hkey : os'.map ScalarExp.key = os.map ScalarExp.key :=
        ((ScalarExp.isEquivalentSeList_iff (fun o _ e ↦ ScalarExp.isEquivalentSe_iff o e) os').mp
          heq).symm
      obtain rfl : op' = op := hentry.1.trans hse.1.symm
      exact fun V A I envs henvs ↦ congrArg (A.udaf op') (map_congr_left fun ρ hρ ↦
        map_eval_eq_of_key_eq (henvs ρ hρ) hentry.2 hse.2 hkey)
  | _ => simp [IsSubaggr] at hse

theorem eval_setAggrId {se : ScalarExp} (hse : IsSubaggr name se) (ano : Nat) (ρ : Env V) :
    (setAggrId ano se).eval I ρ = ρ.aggr (some ano) := by
  cases se with
  | aggrStar op a => rfl
  | aggrSe op l a => rfl
  | func op os f a => rfl
  | _ => simp [IsSubaggr] at hse

theorem key_setAggrId (ano : Nat) (se : ScalarExp) : (setAggrId ano se).key = se.key := by
  cases se <;> rfl

/-- An aggregate that is registered has the value of its entry. -/
theorem eval_groupEnv {se : ScalarExp} (hse : IsSubaggr name se) {tbl : List AggrEntry} {ano : Nat}
    {entry : AggrEntry} (hentry : tbl[ano]? = some entry) (hstands : StandsFor entry se)
    {envs : List (Env V)}
    (henvs : ∀ ρ ∈ envs, OneTable ρ) (ρ : Env V) :
    (setAggrId ano se).eval I (groupEnv A I ρ tbl envs) = A.aggr I envs se := by
  rw [eval_setAggrId hse, ← hstands V A I envs henvs]
  simp [groupEnv, hentry]

end Values

/-! ## The invariant -/

/-- A column of the low level is a group-by variable, or an aggregate with the number of an entry
for it. -/
def ColumnOk (name : Nat → String) (tbl : List AggrEntry) (el : SelectElement) : Prop :=
  el.se.gbRef?.isSome = true ∨ ∃ se ano entry, el.se = setAggrId ano se ∧ IsSubaggr name se ∧
    tbl[ano]? = some entry ∧ StandsFor entry se

/-- What holds while aggregates are split: the columns of the low level have different names, and
each is a group-by variable or stands for an aggregate of its table. -/
structure Inv (name : Nat → String) (s : SplitState) : Prop where
  nodup : (s.lftaSelectList.map SelectElement.name).Nodup
  columns : ∀ el ∈ s.lftaSelectList, ColumnOk name s.lftaAggrTbl el
  lfta : ∀ entry ∈ s.lftaAggrTbl, EntryOk name entry
  hfta : ∀ entry ∈ s.hftaAggrTbl, EntryOk name entry

/-- More is built for both levels. -/
structure Builds (s s' : SplitState) : Prop where
  columns : s.lftaSelectList <+: s'.lftaSelectList
  lfta : s.lftaAggrTbl <+: s'.lftaAggrTbl
  hfta : s.hftaAggrTbl <+: s'.hftaAggrTbl

theorem Builds.refl (s : SplitState) : Builds s s :=
  ⟨prefix_refl _, prefix_refl _, prefix_refl _⟩

theorem Builds.trans {s s' s'' : SplitState} (h : Builds s s') (h' : Builds s' s'') :
    Builds s s'' :=
  ⟨h.columns.trans h'.columns, h.lfta.trans h'.lfta, h.hfta.trans h'.hfta⟩

/-- An expression of the high level reads the column of an aggregate. -/
def Reads (s : SplitState) (r sub : ScalarExp) : Prop :=
  ∃ el ∈ s.lftaSelectList, ∃ h, r = .colref ⟨"", el.name, -1, h⟩ ∧ el.se.key = sub.key

theorem Reads.mono {s s' : SplitState} {r sub : ScalarExp} (h : Reads s r sub) (hs : Builds s s') :
    Reads s' r sub := by
  obtain ⟨el, hel, hr⟩ := h
  exact ⟨el, hs.columns.subset hel, hr⟩

theorem getElem?_of_prefix {α : Type} {l l' : List α} (h : l <+: l') {i : Nat} {a : α}
    (hi : l[i]? = some a) : l'[i]? = some a := by
  obtain ⟨t, rfl⟩ := h
  rw [List.getElem?_append_left (List.getElem?_eq_some_iff.mp hi).1, hi]

theorem ColumnOk.mono {name : Nat → String} {tbl tbl' : List AggrEntry} {el : SelectElement}
    (h : ColumnOk name tbl el) (htbl : tbl <+: tbl') : ColumnOk name tbl' el := by
  rcases h with hgb | ⟨se, ano, entry, hel, hse, hentry, hstands⟩
  · exact Or.inl hgb
  · exact Or.inr ⟨se, ano, entry, hel, hse, getElem?_of_prefix htbl hentry, hstands⟩

/-- **A reference to a subaggregate** reads its column. -/
theorem refSubaggr_spec {name : Nat → String} {s : SplitState} (hs : Inv name s) (h : Int)
    {sub : ScalarExp} (hsub : IsSubaggr name sub) :
    Builds s (refSubaggr h sub s).2 ∧ Inv name (refSubaggr h sub s).2 ∧
      Reads (refSubaggr h sub s).2 (refSubaggr h sub s).1 sub := by
  rcases hfind : s.lftaSelectList.findIdx? fun el ↦ el.se.isEquivalentSe sub with _ | i
  · have hval : refSubaggr h sub s =
        (.colref ⟨"", imputeColname ((s.lftaSelectList ++
            [SelectElement.mk sub "NoNameIn:add_select_list_nodup"]).map SelectElement.name)
              sub, -1, h⟩,
          { s with
            lftaAggrTbl := (register sub s.lftaAggrTbl).2
            lftaSelectList := s.lftaSelectList ++ [⟨setAggrId (register sub s.lftaAggrTbl).1 sub,
              imputeColname ((s.lftaSelectList ++
                [SelectElement.mk sub "NoNameIn:add_select_list_nodup"]).map SelectElement.name)
                  sub⟩] }) := by
      simp [refSubaggr, addSelectListNodup, hfind]
    have hnew := imputeColname_notMem
      ((s.lftaSelectList ++ [SelectElement.mk sub "NoNameIn:add_select_list_nodup"]).map
        SelectElement.name) sub
    generalize imputeColname ((s.lftaSelectList ++
      [SelectElement.mk sub "NoNameIn:add_select_list_nodup"]).map SelectElement.name) sub =
        colname at hval hnew
    rw [map_append] at hnew
    obtain ⟨htbl, hok, entry, hentry, hstands⟩ := register_spec hsub hs.lfta
    rw [hval]
    refine ⟨⟨prefix_append _ _, htbl, prefix_refl _⟩,
      ⟨?_, fun el hel ↦ ?_, hok, hs.hfta⟩, _, mem_append_right _ (mem_singleton_self _),
        h, rfl, key_setAggrId _ sub⟩
    · rw [map_append, nodup_append]
      refine ⟨hs.nodup, nodup_singleton _, fun a ha b hb ↦ ?_⟩
      rintro rfl
      rw [mem_singleton.mp hb] at ha
      exact hnew (mem_append_left _ ha)
    · rcases mem_append.mp hel with hel | hel
      · exact (hs.columns el hel).mono htbl
      · rw [mem_singleton.mp hel]
        exact Or.inr ⟨sub, _, entry, rfl, hsub, hentry, hstands⟩
  · obtain ⟨hi, heq, -⟩ := findIdx?_eq_some_iff_getElem.mp hfind
    have hval : refSubaggr h sub s = (.colref ⟨"", s.lftaSelectList[i].name, -1, h⟩, s) := by
      simp [refSubaggr, addSelectListNodup, hfind, getElem?_eq_getElem hi]
    rw [hval]
    exact ⟨Builds.refl s, hs, s.lftaSelectList[i], getElem_mem hi, h, rfl,
      (ScalarExp.isEquivalentSe_iff _ _).mp heq⟩

/-! ## Superaggregates -/

/-- The kind of a superaggregate over one column. -/
inductive Super
  | builtin (op : String)
  | udaf (op : String) (fcnId : Nat)

def Super.se : Super → ScalarExp → ScalarExp
  | .builtin op, r => .aggrSe op r none
  | .udaf op fcnId, r => .func op [r] fcnId none

/-- What it makes of the values of the column. -/
def AggrMeaning.super (A : AggrMeaning V) : Super → List V → V
  | .builtin op, vs => A.builtin op vs
  | .udaf op _, vs => A.udaf op (vs.map fun v ↦ [v])

theorem aggr_super (A : AggrMeaning V) (I : Interp V) (sup : Super) (r : ScalarExp)
    (envs : List (Env V)) : A.aggr I envs (sup.se r) =
      A.super sup (envs.map fun ρ ↦ r.eval I ρ) := by
  rcases sup with op | ⟨op, f⟩
  · rfl
  · rw [Super.se, AggrMeaning.aggr, AggrMeaning.super, map_map]
    rfl

/-- A superaggregate that is registered and reads the column of a subaggregate. -/
def Resolved (name : Nat → String) (s : SplitState) (sub : ScalarExp) (sup : Super)
    (ret : ScalarExp) : Prop :=
  IsSubaggr name sub ∧ ∃ r ano entry, Reads s r sub ∧ ret = setAggrId ano (sup.se r) ∧
    IsSubaggr name (sup.se r) ∧ s.hftaAggrTbl[ano]? = some entry ∧ StandsFor entry (sup.se r)

theorem Resolved.mono {name : Nat → String} {s s' : SplitState} {sub ret : ScalarExp} {sup : Super}
    (h : Resolved name s sub sup ret) (hs : Builds s s') : Resolved name s' sub sup ret := by
  obtain ⟨hsub, r, ano, entry, hr, hret, hsup, hentry, hstands⟩ := h
  exact ⟨hsub, r, ano, entry, hr.mono hs, hret, hsup, getElem?_of_prefix hs.hfta hentry, hstands⟩

section Rows

variable {name : Nat → String} {A : AggrMeaning V} {I : Interp V} {s : SplitState}

/-- A column of the low level has the value of its subaggregate. -/
theorem eval_reads (hs : Inv name s) {r sub : ScalarExp} (hr : Reads s r sub)
    (hsub : IsSubaggr name sub) (ρ ρ₁ : Env V) {envs : List (Env V)}
    (henvs : ∀ ρ ∈ envs, OneTable ρ) :
    r.eval I (lftaRowEnv A ρ₁ (outputRow I (groupEnv A I ρ s.lftaAggrTbl envs) s.lftaSelectList)) =
      A.aggr I envs sub := by
  obtain ⟨el, hel, h, rfl, hkey⟩ := hr
  have hlookup : (outputRow I (groupEnv A I ρ s.lftaAggrTbl envs) s.lftaSelectList).lookup el.name =
      some (el.se.eval I (groupEnv A I ρ s.lftaAggrTbl envs)) :=
    lookup_of_nodup (fun el ↦ el.se.eval I (groupEnv A I ρ s.lftaAggrTbl envs)) hs.nodup hel
  have hval : ScalarExp.eval I (lftaRowEnv A ρ₁
      (outputRow I (groupEnv A I ρ s.lftaAggrTbl envs) s.lftaSelectList))
      (.colref ⟨"", el.name, -1, h⟩) = el.se.eval I (groupEnv A I ρ s.lftaAggrTbl envs) := by
    simp only [ScalarExp.eval, lftaRowEnv, hlookup, Option.getD_some]
  rw [hval]
  rcases hs.columns el hel with hgb | ⟨se, ano, entry, hse, hok, hentry, hstands⟩
  · -- no group-by variable has the `key` of an aggregate
    obtain ⟨g, hg⟩ := Option.isSome_iff_exists.mp hgb
    rw [(ScalarExp.gbRef?_eq_some_iff _ g).mp hg] at hkey
    cases sub <;> simp [IsSubaggr, ScalarExp.key] at hsub hkey
  · rw [hse, key_setAggrId] at hkey
    rw [hse, eval_groupEnv hok hentry hstands henvs ρ]
    exact aggr_eq_of_key_eq henvs hok hsub hkey

/-- **A superaggregate** has the value that is made of those of the subaggregate for the parts. -/
theorem eval_resolved (hs : Inv name s) {sub ret : ScalarExp} {sup : Super}
    (hret : Resolved name s sub sup ret) (ρ ρ₁ : Env V) {parts : List (List (Env V))}
    (hparts : ∀ envs ∈ parts, ∀ ρ ∈ envs, OneTable ρ) :
    ret.eval I (groupEnv A I ρ s.hftaAggrTbl (parts.map fun envs ↦
        lftaRowEnv A ρ₁ (outputRow I (groupEnv A I ρ s.lftaAggrTbl envs) s.lftaSelectList))) =
      A.super sup (parts.map fun envs ↦ A.aggr I envs sub) := by
  obtain ⟨hsub, r, ano, entry, hr, rfl, hsup, hentry, hstands⟩ := hret
  rw [eval_groupEnv hsup hentry hstands _ ρ, aggr_super, map_map]
  · exact congrArg _ (map_congr_left fun envs henvs ↦ eval_reads hs hr hsub ρ ρ₁
      (hparts envs henvs))
  · intro ρ' hρ'
    obtain ⟨envs, -, rfl⟩ := mem_map.mp hρ'
    exact fun cr ↦ rfl

end Rows

/-- The aggregates that are split; only `COUNT` has no operand. -/
def AggrEntry.Splits : AggrEntry → Prop
  | .builtin op operand =>
    op ∈ ["COUNT", "SUM", "MIN", "MAX", "AND_AGGR", "OR_AGGR", "XOR_AGGR"] ∧
      (operand = none → op = "COUNT")
  | .udaf .. => True

/-- The subaggregate of an aggregate. -/
def AggrEntry.sub (Ext_fcns : ExtFcns) : AggrEntry → ScalarExp
  | .builtin op operand => subaggrSe op (if op = "COUNT" then none else operand)
  | .udaf _ f opl =>
    .func (Ext_fcns.getFcnName (Ext_fcns.getSubaggrId f)) opl (Ext_fcns.getSubaggrId f) none

/-- The superaggregate. -/
def AggrEntry.super (Ext_fcns : ExtFcns) : AggrEntry → Super
  | .builtin op _ => .builtin (if op = "COUNT" then "SUM" else op)
  | .udaf _ f _ =>
    .udaf (Ext_fcns.getFcnName (Ext_fcns.getSuperaggrId f)) (Ext_fcns.getSuperaggrId f)

/-- What a superaggregate makes of the values of a subaggregate for parts is the value of the
aggregate for all. -/
def PairOk (A : AggrMeaning V) (Ext_fcns : ExtFcns) (f : Nat) : Prop :=
  ∀ parts : List (List (List V)), parts ≠ [] → (∀ p ∈ parts, p ≠ []) →
    A.udaf (Ext_fcns.getFcnName (Ext_fcns.getSuperaggrId f))
        (parts.map fun p ↦ [A.udaf (Ext_fcns.getFcnName (Ext_fcns.getSubaggrId f)) p]) =
      A.udaf (Ext_fcns.getFcnName f) parts.flatten

/-- The pairs of the user-defined aggregates of a table. -/
def PairsOk (A : AggrMeaning V) (Ext_fcns : ExtFcns) (entries : List AggrEntry) : Prop :=
  ∀ op f opl, AggrEntry.udaf op f opl ∈ entries → PairOk A Ext_fcns f

section Entry

variable {Ext_fcns : ExtFcns}

/-- Built-in aggregates are put together with the operation they are computed with. -/
theorem builtin_parts (A : AggrMeaning V) (op : String) (g : Env V → V)
    {parts : List (List (Env V))} (hne : parts ≠ []) (hparts : ∀ envs ∈ parts, envs ≠ []) :
    A.builtin (if op = "COUNT" then "SUM" else op)
      (parts.map fun envs ↦ A.builtin op (envs.map g)) = A.builtin op (parts.flatten.map g) := by
  have hfold (vs : List V) : A.builtin op vs =
      fold1 (A.ops.ofName op) A.junk (vs.map fun v ↦ if op = "COUNT" then A.ops.one else v) := by
    rw [AggrMeaning.builtin]
    split_ifs
    · rfl
    · rw [map_id']
  have hsuper (vs : List V) :
      A.builtin (if op = "COUNT" then "SUM" else op) vs = fold1 (A.ops.ofName op) A.junk vs := by
    by_cases hop : op = "COUNT"
    · subst hop
      rfl
    · rw [if_neg hop, AggrMeaning.builtin, if_neg hop]
  have hflat := fold1_flatten (A.ops.ofName_assoc op) A.junk
    (parts.map fun envs ↦ (envs.map g).map fun v ↦ if op = "COUNT" then A.ops.one else v)
    (by simpa using hne) fun vs hvs ↦ by
      obtain ⟨envs, henvs, rfl⟩ := mem_map.mp hvs
      simpa using hparts envs henvs
  simp only [hsuper, hfold]
  rw [map_map] at hflat
  refine hflat.trans (congrArg _ ?_)
  rw [map_flatten, map_flatten, map_map]
  rfl

/-- **A superaggregate of subaggregates is the aggregate.** -/
theorem super_sub_eq {entry : AggrEntry} (hsplits : entry.Splits) {A : AggrMeaning V} {I : Interp V}
    (hok : EntryOk Ext_fcns.getFcnName entry) (hpair : PairsOk A Ext_fcns [entry])
    {parts : List (List (Env V))}
    (hne : parts ≠ []) (hparts : ∀ envs ∈ parts, envs ≠ []) :
    A.super (entry.super Ext_fcns) (parts.map fun envs ↦ A.aggr I envs (entry.sub Ext_fcns)) =
      A.entry I parts.flatten entry := by
  rcases entry with ⟨op, operand⟩ | ⟨op, f, opl⟩
  · by_cases hop : op = "COUNT"
    · have hval : A.entry I parts.flatten (.builtin op operand) =
        A.builtin op (parts.flatten.map fun _ ↦ A.junk) := by
        rcases operand with _ | l
        · rfl
        · simp only [AggrMeaning.entry, AggrMeaning.builtin, if_pos hop, map_map]
          rfl
      rw [hval, ← builtin_parts A op _ hne hparts, AggrEntry.sub, AggrEntry.super]
      simp only [if_pos hop]
      rfl
    · rcases operand with _ | l
      · exact absurd (hsplits.2 rfl) hop
      rw [AggrMeaning.entry, ← builtin_parts A op _ hne hparts, AggrEntry.sub, AggrEntry.super]
      simp only [if_neg hop]
      rfl
  · have hparts' := hpair op f opl (mem_singleton_self _)
      (parts.map fun envs ↦ envs.map fun ρ ↦ opl.map fun o ↦ o.eval I ρ) (by simpa using hne)
        fun p hp ↦ by
        obtain ⟨envs, henvs, rfl⟩ := mem_map.mp hp
        simpa using hparts envs henvs
    obtain ⟨rfl, -⟩ := hok
    rw [AggrMeaning.entry, map_flatten, ← hparts', AggrEntry.super, AggrMeaning.super,
      map_map, map_map]
    rfl

/-- An aggregate that is split has one subaggregate. -/
theorem getSubaggrFcns_eq {op : String}
    (h : op ∈ ["COUNT", "SUM", "MIN", "MAX", "AND_AGGR", "OR_AGGR", "XOR_AGGR"]) :
    getSubaggrFcns op = [(op, decide (op ≠ "COUNT"))] ∧
      ∀ r, makeSuperaggrSe op [r] = some (.aggrSe (if op = "COUNT" then "SUM" else op) r none) := by
  simp only [mem_cons, not_mem_nil, or_false] at h
  rcases h with rfl | rfl | rfl | rfl | rfl | rfl | rfl <;> exact ⟨rfl, fun r ↦ rfl⟩

theorem isSubaggr_sub {entry : AggrEntry} (hok : EntryOk Ext_fcns.getFcnName entry) :
    IsSubaggr Ext_fcns.getFcnName (entry.sub Ext_fcns) := by
  rcases entry with ⟨op, _ | l⟩ | ⟨op, f, opl⟩
  · simp only [AggrEntry.sub, ite_self]
    trivial
  · simp only [AggrEntry.sub]
    split_ifs
    · trivial
    · exact hok
  · exact ⟨rfl, hok.2⟩

theorem isSubaggr_super (entry : AggrEntry) (cr : Colref) :
    IsSubaggr Ext_fcns.getFcnName ((entry.super Ext_fcns).se (.colref cr)) := by
  have hleaf : ∀ x ∈ (ScalarExp.colref cr).leaves, OperandLeaf x := by
    intro x hx
    rw [mem_singleton.mp hx]
    exact ⟨rfl, by simp⟩
  rcases entry with ⟨op, operand⟩ | ⟨op, f, opl⟩
  · exact hleaf
  · exact ⟨rfl, fun o ho ↦ mem_singleton.mp ho ▸ hleaf⟩

/-- The expression for an aggregate is registered. -/
theorem addSuperaggr_spec {s : SplitState} (hs : Inv Ext_fcns.getFcnName s) {entry : AggrEntry}
    (hok : EntryOk Ext_fcns.getFcnName entry) {r : ScalarExp}
    (hr : Reads s r (entry.sub Ext_fcns)) :
    Builds s (addSuperaggr ((entry.super Ext_fcns).se r) s).2 ∧
      Inv Ext_fcns.getFcnName (addSuperaggr ((entry.super Ext_fcns).se r) s).2 ∧
      Resolved Ext_fcns.getFcnName (addSuperaggr ((entry.super Ext_fcns).se r) s).2
        (entry.sub Ext_fcns) (entry.super Ext_fcns)
        (addSuperaggr ((entry.super Ext_fcns).se r) s).1 := by
  obtain ⟨el, hel, h, rfl, hkey⟩ := hr
  have hsup : IsSubaggr Ext_fcns.getFcnName
    ((entry.super Ext_fcns).se (.colref ⟨"", el.name, -1, h⟩)) :=
    isSubaggr_super entry _
  obtain ⟨htbl, hentries, e, he, hstands⟩ := register_spec hsup hs.hfta
  exact ⟨⟨prefix_refl _, prefix_refl _, htbl⟩, ⟨hs.nodup, hs.columns, hs.lfta, hentries⟩,
    isSubaggr_sub hok, _, _, e, ⟨el, hel, h, rfl, hkey⟩, rfl, hsup, he, hstands⟩

/-- **One aggregate.** -/
theorem splitAggr_spec {s : SplitState} (hs : Inv Ext_fcns.getFcnName s) {entry : AggrEntry}
    (hok : EntryOk Ext_fcns.getFcnName entry) (hsplits : entry.Splits) :
    ∃ se s', splitAggr Ext_fcns entry s = some (se, s') ∧ Builds s s' ∧ Inv Ext_fcns.getFcnName s' ∧
      Resolved Ext_fcns.getFcnName s' (entry.sub Ext_fcns) (entry.super Ext_fcns) se := by
  have hsub := isSubaggr_sub hok
  have hone (h : Int) : ∃ se s', some (addSuperaggr ((entry.super Ext_fcns).se
        (refSubaggr h (entry.sub Ext_fcns) s).1) (refSubaggr h (entry.sub Ext_fcns) s).2) =
          some (se, s') ∧
      Builds s s' ∧ Inv Ext_fcns.getFcnName s' ∧
      Resolved Ext_fcns.getFcnName s' (entry.sub Ext_fcns) (entry.super Ext_fcns) se := by
    obtain ⟨hbuilds, hinv, hreads⟩ := refSubaggr_spec hs h hsub
    obtain ⟨hbuilds', hinv', hresolved⟩ := addSuperaggr_spec hinv hok hreads
    exact ⟨_, _, rfl, hbuilds.trans hbuilds', hinv', hresolved⟩
  rcases entry with ⟨op, operand⟩ | ⟨op, f, opl⟩
  · obtain ⟨hfcns, hsuper⟩ := getSubaggrFcns_eq hsplits.1
    have hif : (if decide (op ≠ "COUNT") = true then operand else none) = if op = "COUNT" then none
      else operand := by
      by_cases hop : op = "COUNT" <;> simp [hop]
    have hval : splitAggr Ext_fcns (.builtin op operand) s =
        some (addSuperaggr (((AggrEntry.builtin op operand).super Ext_fcns).se
          (refSubaggr (if operand.isSome then -1 else 0)
            ((AggrEntry.builtin op operand).sub Ext_fcns) s).1)
          (refSubaggr (if operand.isSome then -1 else 0)
            ((AggrEntry.builtin op operand).sub Ext_fcns) s).2) := by
      simp only [splitAggr, hfcns, refSubaggrs, hif, hsuper, Option.map_some]
      rfl
    rw [hval]
    exact hone _
  · exact hone (-1)

end Entry

theorem map_eq_map_of_forall₂ {α β γ : Type} {R : α → β → Prop} {f : β → γ} {g : α → γ}
    {as : List α} {bs : List β} (h : List.Forall₂ R as bs)
    (hfg : ∀ a ∈ as, ∀ b, R a b → f b = g a) : bs.map f = as.map g := by
  induction h with
  | nil => rfl
  | cons hab _ ih =>
    obtain ⟨hhead, hrest⟩ := forall_mem_cons.mp hfg
    rw [map_cons, map_cons, hhead _ hab, ih hrest]

/-- **The split of a table**: it succeeds, and for each aggregate there is the superaggregate of its
subaggregate. -/
theorem splitAggrs_spec {Ext_fcns : ExtFcns} {entries : List AggrEntry}
    (hok : ∀ entry ∈ entries, EntryOk Ext_fcns.getFcnName entry ∧ entry.Splits) {s : SplitState}
    (hs : Inv Ext_fcns.getFcnName s) :
    ∃ ses s', splitAggrs Ext_fcns entries s = some (ses, s') ∧ Builds s s' ∧
      Inv Ext_fcns.getFcnName s' ∧ List.Forall₂
        (fun entry se ↦ Resolved Ext_fcns.getFcnName s' (entry.sub Ext_fcns) (entry.super Ext_fcns)
          se) entries ses := by
  induction entries generalizing s with
  | nil => exact ⟨[], s, rfl, Builds.refl s, hs, .nil⟩
  | cons entry entries ih =>
    obtain ⟨⟨hentry, hsplits⟩, hrest⟩ := forall_mem_cons.mp hok
    obtain ⟨se, s₁, hsplit, hbuilds, hinv, hresolved⟩ := splitAggr_spec hs hentry hsplits
    obtain ⟨ses, s₂, hsplits, hbuilds', hinv', hall⟩ := ih hrest hinv
    refine ⟨se :: ses, s₂, ?_, hbuilds.trans hbuilds', hinv', .cons (hresolved.mono hbuilds') hall⟩
    simp only [splitAggrs, hsplit, hsplits, Option.bind_eq_bind, Option.bind_some]

/-- **Superaggregates of the parts have the values of the aggregates of the whole.**  For each table
of aggregates over columns, literals, parameters and group-by variables the split succeeds; and for
each group that the low level puts out in parts, each expression for an aggregate has, over the rows
of the parts, the value that the aggregate has over all tuples. -/
theorem splits_aggregates (Ext_fcns : ExtFcns) (entries : List AggrEntry)
    (hok : ∀ entry ∈ entries, EntryOk Ext_fcns.getFcnName entry ∧ entry.Splits) (s : SplitState)
    (hs : Inv Ext_fcns.getFcnName s) :
    ∃ ses s', splitAggrs Ext_fcns entries s = some (ses, s') ∧ Builds s s' ∧
      Inv Ext_fcns.getFcnName s' ∧ ∀ (V : Type) (A : AggrMeaning V) (I : Interp V),
        PairsOk A Ext_fcns entries → ∀ (ρ : Env V) (parts : List (List (Env V))), parts ≠ [] →
          (∀ envs ∈ parts, envs ≠ [] ∧ ∀ ρ ∈ envs, OneTable ρ) →
          ses.map (fun se ↦ se.eval I (groupEnv A I ρ s'.hftaAggrTbl (lftaRows A I ρ s' parts))) =
            entries.map (A.entry I parts.flatten) := by
  obtain ⟨ses, s', hval, hbuilds, hinv, hall⟩ := splitAggrs_spec hok hs
  refine ⟨ses, s', hval, hbuilds, hinv, fun V A I hpairs ρ parts hne hparts ↦ ?_⟩
  refine map_eq_map_of_forall₂ hall fun entry hentry se hresolved ↦ ?_
  have hpair : PairsOk A Ext_fcns [entry] := fun op f opl hmem ↦
    hpairs op f opl (mem_singleton.mp hmem ▸ hentry)
  rw [lftaRows, eval_resolved hinv hresolved ρ ρ fun envs henvs ↦ (hparts envs henvs).2]
  exact super_sub_eq (hok entry hentry).2 (hok entry hentry).1 hpair hne fun envs henvs ↦
    (hparts envs henvs).1

/-- `tb, count(*), sum(len), count(len)`, with `len` a column. -/
def sampleEntries : List AggrEntry :=
  [.builtin "COUNT" none, .builtin "SUM" (some (.colref ⟨"", "len", 1, 0⟩)),
    .builtin "COUNT" (some (.colref ⟨"", "len", 1, 0⟩))]

/-- The group-by variable is a column already. -/
def sampleState : SplitState := ⟨[], [], [⟨.gbref ⟨"", "tb", -1, -1⟩ 0, "tb"⟩]⟩

theorem splits_aggregates_sample :
    ∃ ses s', splitAggrs ⟨fun _ ↦ "f", id, id⟩ sampleEntries sampleState = some (ses, s') ∧
      Builds sampleState s' ∧ Inv (fun _ ↦ "f") s' ∧
      ∀ (V : Type) (A : AggrMeaning V) (I : Interp V),
        PairsOk A ⟨fun _ ↦ "f", id, id⟩ sampleEntries → ∀ (ρ : Env V) (parts : List (List (Env V))),
          parts ≠ [] → (∀ envs ∈ parts, envs ≠ [] ∧ ∀ ρ ∈ envs, OneTable ρ) →
          ses.map (fun se ↦ se.eval I (groupEnv A I ρ s'.hftaAggrTbl (lftaRows A I ρ s' parts))) =
            sampleEntries.map (A.entry I parts.flatten) := by
  refine splits_aggregates ⟨fun _ ↦ "f", id, id⟩ sampleEntries ?_ sampleState ⟨?_, ?_, ?_, ?_⟩
  · intro entry hentry
    simp only [sampleEntries, mem_cons, not_mem_nil, or_false] at hentry
    rcases hentry with rfl | rfl | rfl <;>
      simp [EntryOk, AggrEntry.Splits, ScalarExp.leaves, OperandLeaf, ScalarExp.isAggr]
  · decide
  · intro el hel
    rw [mem_singleton.mp hel]
    exact Or.inl rfl
  · exact fun entry hentry ↦ absurd hentry not_mem_nil
  · exact fun entry hentry ↦ absurd hentry not_mem_nil

end Tigon.Ftacmp.SplitAggr
