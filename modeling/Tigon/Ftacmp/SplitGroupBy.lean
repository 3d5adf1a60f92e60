import Tigon.Ftacmp.LftaAggr
import Tigon.Ftacmp.SplitAggr
import Tigon.Ftacmp.SelectProject
import Tigon.Lib.Grouping

/-!
# Splitting a group-by

A group-by (`sgah_qpn`) over packets is always split.  The low level has the group-by variables, the
subaggregates and the WHERE clause; it keeps groups in a table that is too small for them, and puts
out the parts of a group as they are evicted.  The high level reads these rows, and is a group-by by
the columns of the group-by variables, with superaggregates; it has the select list and the HAVING
clause, in which each aggregate is replaced by the expression that the split has for it.

* `splitNodeForFta` — the split into two group-bys; with `select_lfta`, a query for which this
  cannot be done is split into a selection and a group-by.
* `SgahQpn.run` — the rows of a group-by.
* `lftaQuery`, `lftaRow` — the operator of the low level, and its rows.
* `two_levels_perm` — **the rows of the high level are those of the query, whatever the low level
evicts.** -/

set_option autoImplicit false

namespace Tigon.Sgah

open Ftacmp.Parse Ftacmp.Split Ftacmp.SplitAggr List
open Ftacmp.LftaAggr (Query)

/-! ## The query node -/

/-- A group-by variable. -/
structure GbVar where
  name : String
  defn : ScalarExp

/-- A group-by. -/
structure SgahQpn where
  nodeName : String
  tableName : String
  gbTbl : List GbVar
  aggrTbl : List AggrEntry
  selectList : List SelectElement
  /-- The conjuncts of the WHERE clause. -/
  whereClause : List Predicate
  having : List Predicate
  paramTbl : List (String × Bool)
  definitions : List (String × String)
  lftaDisorder : Int
  hftaDisorder : Int

/-! ## The split -/

/-- The leaves of the query that are aggregates are replaced. -/
def rehomeLeaf (aggrMap : List ScalarExp) (x : ScalarExp) : ScalarExp :=
  match x with
  | .aggrStar _ (some a) => (aggrMap[a]?).getD x
  | .aggrSe _ _ (some a) => (aggrMap[a]?).getD x
  | .func _ _ _ (some a) => (aggrMap[a]?).getD x
  | x => x

def rehomeFtaSe (aggrMap : List ScalarExp) (se : ScalarExp) : ScalarExp :=
  se.mapLeaves (rehomeLeaf aggrMap)

def rehomeFtaPr (aggrMap : List ScalarExp) (pr : Predicate) : Predicate :=
  pr.mapLeaves (rehomeLeaf aggrMap)

/-- `set_gb_ref(-1)` on a column reference, which is then the definition of a group-by variable. -/
def gbVarOf (se : ScalarExp) : GbVar :=
  match se with
  | .gbref cr _ => ⟨cr.field, .colref cr⟩
  | se => ⟨"", se⟩

/-- The group-by variables from number `g` on: the low level has their values as columns, and they
are the variables of the high level. -/
def splitGbVars : Nat → List GbVar → List SelectElement → List GbVar × List SelectElement
  | _, [], l => ([], l)
  | g, v :: gbTbl, l =>
    let (gbvarStream, l) := makeSelectRef l (.gbref ⟨"", v.name, -1, -1⟩ g) 0
    let (gbTbl, l) := splitGbVars (g + 1) gbTbl l
    (gbVarOf gbvarStream :: gbTbl, l)

section Split

variable (ftaLegal hasSubaggr : Nat → Bool) (atoi : String → Int)

def SgahQpn.getValOfDef (q : SgahQpn) (name : String) : String :=
  (q.definitions.lookup name).getD ""

/-- What is checked of an aggregate: with `select_lfta`, one with an operand is left to the high
level. -/
def aggrSafe (selectAllowed : Bool) : AggrEntry → Bool
  | .builtin _ none => true
  | .builtin _ (some se) => !selectAllowed && checkFtaForbiddenSe ftaLegal se
  | .udaf _ fcnId _ => hasSubaggr fcnId

/-- Whether the query is split into two group-bys. -/
def SgahQpn.splits (q : SgahQpn) : Bool :=
  let selectAllowed := q.definitions.any fun d ↦ d.1 == "select_lfta"
  q.gbTbl.all (fun v ↦ checkFtaForbiddenSe ftaLegal v.defn) &&
    q.aggrTbl.all (aggrSafe ftaLegal hasSubaggr selectAllowed) && q.whereClause.all
      (checkFtaForbiddenPr ftaLegal)

/-- The disorder of the low level and that of the high level; a `max_hfta_disorder` is taken for the
low level. -/
def SgahQpn.disorders (q : SgahQpn) : Int × Int :=
  let maxLfta := q.getValOfDef "max_lfta_disorder"
  let maxHfta := q.getValOfDef "max_hfta_disorder"
  let lfta := if maxLfta = "" ∨ atoi maxLfta < 1 then 2 else atoi maxLfta
  let hfta := if 1 < lfta then lfta + 1 else 1
  (if maxHfta = "" ∨ atoi maxHfta < lfta then lfta else atoi maxHfta, hfta)

/-- The nodes of the low level and of the high level, if the query is split into two group-bys. -/
def splitNodeForFta (Ext_fcns : ExtFcns) (q : SgahQpn) : Option (SgahQpn × SgahQpn) :=
  if q.splits ftaLegal hasSubaggr then do
    let ftaName := "_fta_" ++ q.nodeName
    let (gbTbl, ftaSelectList) := splitGbVars 0 q.gbTbl []
    let (aggrMap, s) ← splitAggrs Ext_fcns q.aggrTbl ⟨[], [], ftaSelectList⟩
    some
      ({ nodeName := ftaName
         tableName := q.tableName
         gbTbl := q.gbTbl
         aggrTbl := s.lftaAggrTbl
         selectList := s.lftaSelectList
         whereClause := q.whereClause
         having := []
         paramTbl := q.paramTbl
         definitions := q.definitions.filter fun d ↦ d.1 != "_referenced_ifaces"
         lftaDisorder := (q.disorders atoi).1
         hftaDisorder := 1 },
       { nodeName := q.nodeName
         tableName := ftaName
         gbTbl := gbTbl
         aggrTbl := s.hftaAggrTbl
         selectList := q.selectList.map fun el ↦ ⟨rehomeFtaSe aggrMap el.se, el.name⟩
         whereClause := []
         having := q.having.map (rehomeFtaPr aggrMap)
         paramTbl := q.paramTbl
         definitions := q.definitions
         lftaDisorder := 1
         hftaDisorder := (q.disorders atoi).2 })
  else none

end Split

/-! ## The rows of a group-by -/

section Run

variable {V σ : Type}

/-- What is known of a group: the values of the group-by variables. -/
def keyEnv (A : AggrMeaning V) (ρ : Env V) (gb : List V) : Env V :=
  { ρ with gb := fun g ↦ (gb[g]?).getD A.junk }

namespace SgahQpn

variable (q : SgahQpn) (A : AggrMeaning V) (I : Interp V) (ρ : Env V)

/-- The values of the group-by variables for a tuple. -/
def key (ρ : Env V) : List V :=
  q.gbTbl.map fun v ↦ v.defn.eval I ρ

/-- A tuple has the values of the group-by variables too. -/
def tupleEnv (ρ : Env V) : Env V :=
  keyEnv A ρ (q.key I ρ)

/-- The WHERE clause. -/
def accepts (ρ : Env V) : Bool :=
  q.whereClause.all fun pr ↦ pr.eval I (q.tupleEnv A I ρ)

/-- The row of a group with these tuples, if the HAVING clause holds. -/
def row (gb : List V) (envs : List (Env V)) : Option (Row V) :=
  let ρ := groupEnv A I (keyEnv A ρ gb) q.aggrTbl envs
  if q.having.all fun pr ↦ pr.eval I ρ then some (outputRow I ρ q.selectList) else none

/-- The rows of all groups. -/
def run [DecidableEq V] (envs : List (Env V)) : List (Row V) :=
  Grouping.rowsBy (q.key I) (fun gb envs ↦ q.row A I ρ gb (envs.map (q.tupleEnv A I)))
    (envs.filter (q.accepts A I))

end SgahQpn

/-! ## The operator of the low level -/

/-- The functions of user-defined aggregates in the low level. -/
structure LftaUdafs (V σ : Type) where
  init : String → σ
  update : String → σ → List V → σ
  output : String → σ → V
  flushme : String → σ → Bool
  bailout : String → σ → Bool

/-- The variable of an aggregate. -/
inductive AggrVar (V σ : Type)
  | builtin (v : V)
  | udaf (s : σ)

variable (U : LftaUdafs V σ) (A : AggrMeaning V) (I : Interp V)

/-- The value of the operand of a built-in aggregate. -/
def operandVal (ρ : Env V) (operand : Option ScalarExp) : V :=
  (operand.map fun se ↦ se.eval I ρ).getD A.junk

/-- `generate_aggr_init` -/
def generateAggrInit (ρ : Env V) : AggrEntry → AggrVar V σ
  | .builtin op operand => .builtin (if op = "COUNT" then A.ops.one else operandVal A I ρ operand)
  | .udaf op _ opl => .udaf (U.update op (U.init op) (opl.map fun o ↦ o.eval I ρ))

/-- `generate_aggr_update` -/
def generateAggrUpdate (ρ : Env V) : AggrEntry → AggrVar V σ → AggrVar V σ
  | .builtin op operand, .builtin v =>
    .builtin (A.ops.ofName op v (if op = "COUNT" then A.ops.one else operandVal A I ρ operand))
  | .udaf op _ opl, .udaf s => .udaf (U.update op s (opl.map fun o ↦ o.eval I ρ))
  | _, var => var

/-- The value that is put out. -/
def AggrVar.output : AggrEntry → AggrVar V σ → V
  | .udaf op _ _, .udaf s => U.output op s
  | _, .builtin v => v
  | .builtin _ _, .udaf _ => A.junk

/-- A user-defined aggregate says something of its variable. -/
def AggrVar.tells (f : String → σ → Bool) : AggrEntry → AggrVar V σ → Bool
  | .udaf op _ _, .udaf s => f op s
  | _, _ => false

/-- The operator for a node of the low level, with what is known of the tables, the times and the
definitions. -/
def lftaQuery (fta : SgahQpn) (q : Query (Env V) V (List (AggrVar V σ))) :
    Query (Env V) V (List (AggrVar V σ)) :=
  { q with
    gbAttr := fta.key I
    init := fun ρ ↦ fta.aggrTbl.map (generateAggrInit U A I (fta.tupleEnv A I ρ))
    update := fun vars ρ ↦ fta.aggrTbl.zipWith (generateAggrUpdate U A I (fta.tupleEnv A I ρ)) vars
    flushme := fun vars ↦ (fta.aggrTbl.zipWith (AggrVar.tells U.flushme) vars).any id
    bailout := fun g ↦ (fta.aggrTbl.zipWith (AggrVar.tells U.bailout) g.aggrVar).any id
    unpacks := fun _ ↦ true
    accepts := fta.accepts A I
    lftaDisorder := fta.lftaDisorder }

/-- The row of a group that is put out. -/
def lftaRow (fta : SgahQpn) (ρ : Env V) (g : Ftacmp.LftaAggr.Group V (List (AggrVar V σ))) :
    Row V :=
  outputRow I { keyEnv A ρ g.gbVar with
    aggr := fun a ↦ (a.bind fun i ↦ (fta.aggrTbl.zipWith (AggrVar.output U A) g.aggrVar)[i]?).getD
      A.junk }
    fta.selectList

end Run

/-! ## Order -/

section Order

variable {V : Type}

theorem fold1_perm {f : V → V → V} (hassoc : Std.Associative f) (hcomm : Std.Commutative f)
    (junk : V) {vs vs' : List V} (h : vs.Perm vs') : fold1 f junk vs = fold1 f junk vs' := by
  induction h with
  | nil => rfl
  | cons v h _ => exact h.foldl_op_eq
  | swap v w vs =>
    rw [fold1, fold1, foldl_cons, foldl_cons, hcomm.comm]
  | trans _ _ ih ih' => exact ih.trans ih'

/-- The value of an aggregate does not depend on the order of the tuples. -/
theorem entry_perm {A : AggrMeaning V} {I : Interp V}
    (hcomm : ∀ op, Std.Commutative (A.ops.ofName op)) {entry : AggrEntry}
    (hudaf : ∀ op f opl, entry = .udaf op f opl → ∀ rows rows', rows.Perm rows' →
      A.udaf op rows = A.udaf op rows')
    {envs envs' : List (Env V)} (h : envs.Perm envs') : A.entry I envs entry =
      A.entry I envs' entry := by
  have hbuiltin (op : String) (g : Env V → V) : A.builtin op (envs.map g) =
    A.builtin op (envs'.map g) := by
    refine fold1_perm (A.ops.ofName_assoc op) (hcomm op) A.junk ?_
    split_ifs
    · exact (h.map g).map _
    · exact h.map g
  rcases entry with ⟨op, _ | se⟩ | ⟨op, f, opl⟩
  · exact hbuiltin op _
  · exact hbuiltin op _
  · exact hudaf op f opl rfl _ _ (h.map _)

end Order

/-! ## Variables of the low level -/

section Vars

variable {V σ : Type} {U : LftaUdafs V σ} {A : AggrMeaning V} {I : Interp V}

/-- The functions of the user-defined aggregates of a node compute their values, and say nothing
against a row. -/
structure LftaUdafs.Computes (U : LftaUdafs V σ) (A : AggrMeaning V) (tbl : List AggrEntry) :
    Prop where
  output : ∀ op f opl, AggrEntry.udaf op f opl ∈ tbl → ∀ row rows,
    A.udaf op (row :: rows) = U.output op ((row :: rows).foldl (U.update op) (U.init op))
  bailout : ∀ op f opl, AggrEntry.udaf op f opl ∈ tbl → ∀ s, U.bailout op s = false

theorem foldl_zipWith_map (tbl : List AggrEntry)
    (upd : Env V → AggrEntry → AggrVar V σ → AggrVar V σ) (ρs : List (Env V))
    (f : AggrEntry → AggrVar V σ) :
    ρs.foldl (fun vars ρ ↦ tbl.zipWith (upd ρ) vars) (tbl.map f) =
      tbl.map fun entry ↦ ρs.foldl (fun var ρ ↦ upd ρ entry var) (f entry) := by
  induction ρs generalizing f with
  | nil => rfl
  | cons ρ ρs ih =>
    have hstep : tbl.zipWith (upd ρ) (tbl.map f) = tbl.map fun entry ↦ upd ρ entry (f entry) := by
      rw [zipWith_map_right, zipWith_self]
    rw [foldl_cons, hstep, ih]
    rfl

theorem foldl_builtin (op : String) (operand : Option ScalarExp) (ρs : List (Env V)) (v : V) :
    ρs.foldl (fun (var : AggrVar V σ) ρ ↦ generateAggrUpdate U A I ρ (.builtin op operand) var)
      (.builtin v) = .builtin ((ρs.map fun ρ ↦ if op = "COUNT" then A.ops.one else operandVal A I ρ
        operand).foldl (A.ops.ofName op) v) := by
  induction ρs generalizing v with
  | nil => rfl
  | cons ρ ρs ih =>
    rw [foldl_cons, map_cons, foldl_cons]
    exact ih _

theorem foldl_udaf (op : String) (f : Nat) (opl : List ScalarExp) (ρs : List (Env V)) (s : σ) :
    ρs.foldl (fun (var : AggrVar V σ) ρ ↦ generateAggrUpdate U A I ρ (.udaf op f opl) var)
      (.udaf s) = .udaf ((ρs.map fun ρ ↦ opl.map fun o ↦ o.eval I ρ).foldl (U.update op) s) := by
  induction ρs generalizing s with
  | nil => rfl
  | cons ρ ρs ih =>
    rw [foldl_cons, map_cons, foldl_cons]
    exact ih _

/-- **The variable of an aggregate** has its value for the tuples of a part. -/
theorem output_foldl {tbl : List AggrEntry} (hU : U.Computes A tbl) {entry : AggrEntry}
    (hentry : entry ∈ tbl) (ρ : Env V) (ρs : List (Env V)) :
    AggrVar.output U A entry (ρs.foldl (fun var ρ ↦ generateAggrUpdate U A I ρ entry var)
      (generateAggrInit U A I ρ entry)) = A.entry I (ρ :: ρs) entry := by
  rcases entry with ⟨op, operand⟩ | ⟨op, f, opl⟩
  · rw [generateAggrInit, foldl_builtin]
    have hval : A.entry I (ρ :: ρs) (.builtin op operand) = fold1 (A.ops.ofName op) A.junk
        ((ρ :: ρs).map fun ρ ↦ if op = "COUNT" then A.ops.one else operandVal A I ρ operand) := by
      rcases operand with _ | se
      all_goals
        rw [AggrMeaning.entry, AggrMeaning.builtin]
        split_ifs
        · rw [map_map]
          rfl
        · rfl
    rw [hval]
    rfl
  · rw [generateAggrInit, foldl_udaf]
    exact (hU.output op f opl hentry _ _).symm

/-- A group that is made of a part has the row of this part. -/
theorem lftaRow_eq {fta : SgahQpn} (hU : U.Computes A fta.aggrTbl) (ρ₀ ρ : Env V)
    (ρs : List (Env V)) : lftaRow U A I fta ρ₀ ⟨fta.key I ρ,
        ρs.foldl (fun vars ρ ↦ fta.aggrTbl.zipWith
          (generateAggrUpdate U A I (fta.tupleEnv A I ρ)) vars)
            (fta.aggrTbl.map (generateAggrInit U A I (fta.tupleEnv A I ρ)))⟩ =
      outputRow I (groupEnv A I (keyEnv A ρ₀ (fta.key I ρ)) fta.aggrTbl
        ((ρ :: ρs).map (fta.tupleEnv A I))) fta.selectList := by
  have hvals : fta.aggrTbl.zipWith (AggrVar.output U A)
      (ρs.foldl (fun vars ρ ↦ fta.aggrTbl.zipWith
        (generateAggrUpdate U A I (fta.tupleEnv A I ρ)) vars)
          (fta.aggrTbl.map (generateAggrInit U A I (fta.tupleEnv A I ρ)))) =
      fta.aggrTbl.map (A.entry I ((ρ :: ρs).map (fta.tupleEnv A I))) := by
    rw [← foldl_map (f := fta.tupleEnv A I)
      (g := fun vars ρ ↦ fta.aggrTbl.zipWith (generateAggrUpdate U A I ρ) vars), foldl_zipWith_map,
      zipWith_map_right, zipWith_self]
    exact map_congr_left fun entry hentry ↦ output_foldl hU hentry _ _
  rw [lftaRow]
  simp only [hvals, groupEnv]
  congr
  ext a
  rcases a with _ | a
  · rfl
  · simp

theorem any_zipWith_eq_false {α β : Type} {f : α → β → Bool} {as : List α}
    (h : ∀ a ∈ as, ∀ b, f a b = false) (bs : List β) : (as.zipWith f bs).any id = false := by
  induction as generalizing bs with
  | nil => rfl
  | cons a as ih =>
    rcases bs with _ | ⟨b, bs⟩
    · rfl
    · obtain ⟨ha, hrest⟩ := forall_mem_cons.mp h
      rw [zipWith_cons_cons, any_cons, ih hrest bs, id_eq, ha b]
      rfl

/-- No row is left out. -/
theorem bailout_eq_false {fta : SgahQpn} (hU : U.Computes A fta.aggrTbl)
    (vars : List (AggrVar V σ)) : (fta.aggrTbl.zipWith (AggrVar.tells U.bailout) vars).any
      id = false := by
  refine any_zipWith_eq_false (fun entry hentry var ↦ ?_) vars
  rcases entry with ⟨op, operand⟩ | ⟨op, f, opl⟩
  · rfl
  · rcases var with v | s
    · rfl
    · exact hU.bailout op f opl hentry s

end Vars

/-! ## The group-by variables of the high level -/

section GbVars

/-- A variable of the high level reads the column of the variable with the number `g`. -/
def ReadsGb (l : List SelectElement) (g : Nat) (v : GbVar) : Prop :=
  ∃ cr, ⟨.gbref cr g, v.name⟩ ∈ l ∧ v.defn = .colref ⟨"", v.name, -1, 0⟩

/-- The columns have different names, and are group-by variables below the number `g`. -/
structure GbColumns (g : Nat) (l : List SelectElement) : Prop where
  nodup : (l.map SelectElement.name).Nodup
  gbRef : ∀ el ∈ l, ∃ g' < g, el.se.gbRef? = some g'

/-- **A new group-by variable** gets a new column. -/
theorem makeSelectRef_gbref {g : Nat} {l : List SelectElement} (hl : GbColumns g l) (cr : Colref) :
    ∃ name, makeSelectRef l (.gbref cr g) 0 =
      (.gbref ⟨"", name, -1, 0⟩ g, l ++ [⟨.gbref cr g, name⟩]) ∧
        GbColumns (g + 1) (l ++ [⟨.gbref cr g, name⟩]) := by
  have hfind : (l.findIdx? fun el ↦ el.se.isEquivalentSe (.gbref cr g)) = none := by
    refine findIdx?_eq_none_iff.mpr fun el hel ↦ ?_
    obtain ⟨g', hlt, hg'⟩ := hl.gbRef el hel
    rw [Bool.eq_false_iff]
    intro heq
    rw [ScalarExp.isEquivalentSe_iff, (ScalarExp.gbRef?_eq_some_iff _ _).mp hg'] at heq
    obtain ⟨-, rfl⟩ := ScalarExp.gbref.inj heq
    omega
  have hnew := imputeColname_notMem
    ((l ++ [SelectElement.mk (.gbref cr g) "NoNameIn:add_select_list_nodup"]).map
      SelectElement.name) (.gbref cr g)
  generalize hname : imputeColname ((l ++
    [SelectElement.mk (.gbref cr g) "NoNameIn:add_select_list_nodup"]).map SelectElement.name)
      (.gbref cr g) = name at hnew
  have hval : makeSelectRef l (.gbref cr g) 0 =
    (.gbref ⟨"", name, -1, 0⟩ g, l ++ [⟨.gbref cr g, name⟩]) := by
    simp only [makeSelectRef, addSelectListNodup, hfind, refTo, ScalarExp.gbRef?, hname]
    simp
  refine ⟨name, hval, ?_, fun el hel ↦ ?_⟩
  · rw [map_append] at hnew
    rw [map_append, nodup_append]
    refine ⟨hl.nodup, nodup_singleton _, fun a ha b hb ↦ ?_⟩
    rintro rfl
    rw [mem_singleton.mp hb] at ha
    exact hnew (mem_append_left _ ha)
  · rcases mem_append.mp hel with hel | hel
    · obtain ⟨g', hlt, hg'⟩ := hl.gbRef el hel
      exact ⟨g', by omega, hg'⟩
    · rw [mem_singleton.mp hel]
      exact ⟨g, by omega, rfl⟩

/-- **All group-by variables.** -/
theorem splitGbVars_spec {g : Nat} (gbTbl : List GbVar) {l : List SelectElement}
    (hl : GbColumns g l) : l <+: (splitGbVars g gbTbl l).2 ∧ GbColumns (g + gbTbl.length)
      (splitGbVars g gbTbl l).2 ∧ List.Forall₂ (ReadsGb (splitGbVars g gbTbl l).2)
      (range' g gbTbl.length) (splitGbVars g gbTbl l).1 := by
  induction gbTbl generalizing g l with
  | nil => exact ⟨prefix_refl _, hl, .nil⟩
  | cons v gbTbl ih =>
    obtain ⟨name, hval, hl'⟩ := makeSelectRef_gbref hl ⟨"", v.name, -1, -1⟩
    obtain ⟨hfront, hcolumns, hreads⟩ := ih hl'
    have hsplit : splitGbVars g (v :: gbTbl) l =
        (⟨name, .colref ⟨"", name, -1, 0⟩⟩ ::
            (splitGbVars (g + 1) gbTbl (l ++ [⟨.gbref ⟨"", v.name, -1, -1⟩ g, name⟩])).1,
          (splitGbVars (g + 1) gbTbl (l ++ [⟨.gbref ⟨"", v.name, -1, -1⟩ g, name⟩])).2) := by
      simp only [splitGbVars, hval, gbVarOf]
    rw [hsplit, length_cons]
    refine ⟨(prefix_append _ _).trans hfront, ?_, ?_⟩
    · rw [Nat.add_comm gbTbl.length 1, ← Nat.add_assoc]
      exact hcolumns
    · exact .cons ⟨_, hfront.subset (mem_append_right _ (mem_singleton_self _)), rfl⟩
        hreads

theorem ReadsGb.mono {l l' : List SelectElement} {g : Nat} {v : GbVar} (h : ReadsGb l g v)
    (hl : l <+: l') : ReadsGb l' g v := by
  obtain ⟨cr, hmem, hdefn⟩ := h
  exact ⟨cr, hl.subset hmem, hdefn⟩

/-- **The group-by variables for a row** are those of its group. -/
theorem map_eval_gbVars {V : Type} {A : AggrMeaning V} {I : Interp V} {l : List SelectElement}
    {gs : List Nat} {gbTbl : List GbVar} (hnodup : (l.map SelectElement.name).Nodup)
    (hreads : List.Forall₂ (ReadsGb l) gs gbTbl)
    (ρ₁ ρ : Env V) :
    (gbTbl.map fun v ↦ v.defn.eval I (lftaRowEnv A ρ₁ (outputRow I ρ l))) = gs.map ρ.gb := by
  refine map_eq_map_of_forall₂ hreads fun g _ v hv ↦ ?_
  obtain ⟨cr, hmem, hdefn⟩ := hv
  have hlookup : (outputRow I ρ l).lookup v.name = some (ρ.gb g) :=
    lookup_of_nodup (fun el ↦ el.se.eval I ρ) hnodup hmem
  rw [hdefn]
  simp only [ScalarExp.eval, lftaRowEnv, hlookup, Option.getD_some]

end GbVars

/-! ## The two levels -/

theorem exists_of_forall₂_right {α β : Type} {R : α → β → Prop} {as : List α} {bs : List β}
    (h : List.Forall₂ R as bs) {b : β} (hb : b ∈ bs) : ∃ a ∈ as, R a b := by
  induction h with
  | nil => exact absurd hb not_mem_nil
  | cons hab _ ih =>
    rcases mem_cons.mp hb with rfl | hb
    · exact ⟨_, mem_cons_self, hab⟩
    · obtain ⟨a, ha, hab⟩ := ih hb
      exact ⟨a, mem_cons_of_mem _ ha, hab⟩

/-- What stands in the select list and the HAVING clause: group-by variables, and aggregates of the
table. -/
def SgahQpn.GroupLeaf (q : SgahQpn) : ScalarExp → Prop
  | .literal _ => True
  | .param _ => True
  | .gbref _ _ => True
  | .aggrStar _ (some a) => a < q.aggrTbl.length
  | .aggrSe _ _ (some a) => a < q.aggrTbl.length
  | .func _ _ _ (some a) => a < q.aggrTbl.length
  | _ => False

/-- The aggregates can be split, and everything else is about groups. -/
structure SgahQpn.Ok (name : Nat → String) (q : SgahQpn) : Prop where
  aggrTbl : ∀ entry ∈ q.aggrTbl, EntryOk name entry ∧ entry.Splits
  selectList : ∀ el ∈ q.selectList, ∀ x ∈ el.se.leaves, q.GroupLeaf x
  having : ∀ pr ∈ q.having, ∀ x ∈ pr.leaves, q.GroupLeaf x

/-- The aggregates do not depend on the order of the tuples, and those of the user can be put
together from parts. -/
structure AggrsOk {V : Type} (A : AggrMeaning V) (Ext_fcns : ExtFcns) (entries : List AggrEntry) :
    Prop where
  comm : ∀ op, Std.Commutative (A.ops.ofName op)
  perm : ∀ op f opl, AggrEntry.udaf op f opl ∈ entries → ∀ rows rows', rows.Perm rows' →
    A.udaf op rows = A.udaf op rows'
  pairs : PairsOk A Ext_fcns entries

section TwoLevels

variable {V σ : Type} {ftaLegal hasSubaggr : Nat → Bool} {atoi : String → Int} {Ext_fcns : ExtFcns}
  {q fta stream : SgahQpn} {A : AggrMeaning V} {I : Interp V} {U : LftaUdafs V σ}

theorem inv_splitGbVars (name : Nat → String) (gbTbl : List GbVar) :
    Inv name ⟨[], [], (splitGbVars 0 gbTbl []).2⟩ := by
  obtain ⟨-, hcolumns, -⟩ := splitGbVars_spec (g := 0) (l := []) gbTbl
    ⟨nodup_nil, fun el hel ↦ absurd hel not_mem_nil⟩
  refine ⟨hcolumns.nodup, fun el hel ↦ Or.inl ?_, fun entry h ↦ absurd h not_mem_nil,
    fun entry h ↦ absurd h not_mem_nil⟩
  obtain ⟨g, -, hg⟩ := hcolumns.gbRef el hel
  rw [hg]
  rfl

/-- What the two nodes are. -/
theorem splitNodeForFta_spec (hq : q.Ok Ext_fcns.getFcnName)
    (hsplit : splitNodeForFta ftaLegal hasSubaggr atoi Ext_fcns q = some (fta, stream)) :
    ∃ aggrMap s, Inv Ext_fcns.getFcnName s ∧
      List.Forall₂ (fun entry se ↦ Resolved Ext_fcns.getFcnName s (entry.sub Ext_fcns)
        (entry.super Ext_fcns) se) q.aggrTbl aggrMap ∧
      List.Forall₂ (ReadsGb s.lftaSelectList) (range' 0 q.gbTbl.length) stream.gbTbl ∧
      fta.gbTbl = q.gbTbl ∧ fta.aggrTbl = s.lftaAggrTbl ∧ fta.selectList = s.lftaSelectList ∧
      fta.whereClause = q.whereClause ∧ stream.aggrTbl = s.hftaAggrTbl ∧
      stream.selectList = q.selectList.map (fun el ↦ ⟨rehomeFtaSe aggrMap el.se, el.name⟩) ∧
      stream.whereClause = [] ∧ stream.having = q.having.map (rehomeFtaPr aggrMap) := by
  obtain ⟨-, -, hreads⟩ := splitGbVars_spec (g := 0) (l := []) q.gbTbl
    ⟨nodup_nil, fun el hel ↦ absurd hel not_mem_nil⟩
  obtain ⟨aggrMap, s, hsplits, hbuilds, hinv', hall⟩ := splitAggrs_spec hq.aggrTbl
    (inv_splitGbVars Ext_fcns.getFcnName q.gbTbl)
  rw [splitNodeForFta] at hsplit
  split_ifs at hsplit
  simp only [hsplits, Option.bind_eq_bind, Option.bind_some, Option.some.injEq, Prod.mk.injEq]
    at hsplit
  obtain ⟨rfl, rfl⟩ := hsplit
  exact ⟨aggrMap, s, hinv', hall, hreads.imp fun g v h ↦ h.mono hbuilds.columns, rfl, rfl, rfl, rfl,
    rfl, rfl, rfl, rfl⟩

/-- A query that may be split is split. -/
theorem exists_splitNodeForFta (hq : q.Ok Ext_fcns.getFcnName)
    (h : q.splits ftaLegal hasSubaggr = true) : ∃ fta stream, splitNodeForFta ftaLegal hasSubaggr
      atoi Ext_fcns q = some (fta, stream) := by
  obtain ⟨aggrMap, s, hsplits, -⟩ :=
    splitAggrs_spec hq.aggrTbl (inv_splitGbVars Ext_fcns.getFcnName q.gbTbl)
  rw [splitNodeForFta, if_pos h]
  simp only [hsplits, Option.bind_eq_bind, Option.bind_some]
  exact ⟨_, _, rfl⟩

theorem map_getD_range' (gb : List V) (junk : V) :
    (range' 0 gb.length).map (fun g ↦ (gb[g]?).getD junk) = gb := by
  refine ext_getElem (by simp) fun i h h' ↦ ?_
  simp [h']

/-- **A group of the high level**, which reads the rows of parts, has the row of the whole. -/
theorem row_eq (hq : q.Ok Ext_fcns.getFcnName) (hA : AggrsOk A Ext_fcns q.aggrTbl)
    (hsplit : splitNodeForFta ftaLegal hasSubaggr atoi Ext_fcns q = some (fta, stream))
    (ρ₀ ρ₁ : Env V) (gb : List V)
    {parts : List (List (Env V))} {envs : List (Env V)} (hne : parts ≠ [])
    (hparts : ∀ p ∈ parts, p ≠ [] ∧ ∀ ρ ∈ p, OneTable ρ) (hperm : parts.flatten.Perm envs) :
    stream.row A I ρ₀ gb (parts.map fun p ↦
        lftaRowEnv A ρ₁ (outputRow I (groupEnv A I (keyEnv A ρ₀ gb) fta.aggrTbl p)
          fta.selectList)) =
      q.row A I ρ₀ gb envs := by
  obtain ⟨aggrMap, s, hinv, hall, -, -, haggrs, hselect, -, haggrs', hselect', -, hhaving'⟩ :=
    splitNodeForFta_spec hq hsplit
  rw [SgahQpn.row, SgahQpn.row, haggrs, hselect, haggrs', hselect', hhaving']
  generalize hrows : parts.map (fun p ↦
    lftaRowEnv A ρ₁ (outputRow I (groupEnv A I (keyEnv A ρ₀ gb) s.lftaAggrTbl p)
      s.lftaSelectList)) = rows
  -- an aggregate of the table
  have haggr {a : Nat} (ha : a < q.aggrTbl.length) : ∃ se, aggrMap[a]? = some se ∧
      se.eval I (groupEnv A I (keyEnv A ρ₀ gb) s.hftaAggrTbl rows) =
        (groupEnv A I (keyEnv A ρ₀ gb) q.aggrTbl envs).aggr (some a) := by
    obtain ⟨hlen, hget⟩ := forall₂_iff_get.mp hall
    have ha' : a < aggrMap.length := hlen ▸ ha
    have hentry := getElem_mem ha
    have hresolved := hget a ha ha'
    rw [get_eq_getElem, get_eq_getElem] at hresolved
    refine ⟨aggrMap[a], getElem?_eq_getElem ha', ?_⟩
    have hpair : PairsOk A Ext_fcns [q.aggrTbl[a]] := fun op f opl hmem ↦
      hA.pairs op f opl (mem_singleton.mp hmem ▸ hentry)
    rw [← hrows, eval_resolved hinv hresolved _ ρ₁ fun p hp ↦ (hparts p hp).2,
      super_sub_eq (hq.aggrTbl _ hentry).2 (hq.aggrTbl _ hentry).1 hpair hne fun p hp ↦
        (hparts p hp).1,
      entry_perm hA.comm (fun op f opl heq ↦ hA.perm op f opl (heq ▸ hentry)) hperm]
    simp [groupEnv, getElem?_eq_getElem ha]
  have hleaf (x : ScalarExp) (hx : q.GroupLeaf x) :
      (rehomeLeaf aggrMap x).eval I (groupEnv A I (keyEnv A ρ₀ gb) s.hftaAggrTbl rows) =
        x.eval I (groupEnv A I (keyEnv A ρ₀ gb) q.aggrTbl envs) := by
    rcases x with _ | _ | _ | _ | _ | _ | _ | _ | ⟨op, _ | a⟩ | ⟨op, l, _ | a⟩ | ⟨op, os, f, _ | a⟩
    all_goals first
      | exact hx.elim
      | rfl
      | (obtain ⟨se, hse, heq⟩ := haggr hx
         rw [rehomeLeaf, hse, Option.getD_some, heq]
         rfl)
  have hhaving : ((q.having.map (rehomeFtaPr aggrMap)).all fun pr ↦
      pr.eval I (groupEnv A I (keyEnv A ρ₀ gb) s.hftaAggrTbl rows)) =
        q.having.all fun pr ↦ pr.eval I (groupEnv A I (keyEnv A ρ₀ gb) q.aggrTbl envs) := by
    rw [all_map, Bool.eq_iff_iff, all_eq_true, all_eq_true]
    refine forall₂_congr fun pr hpr ↦ ?_
    rw [Function.comp_apply, rehomeFtaPr, Predicate.eval_mapLeaves pr fun x hx ↦
      hleaf x (hq.having pr hpr x hx)]
  have hselects : outputRow I (groupEnv A I (keyEnv A ρ₀ gb) s.hftaAggrTbl rows)
      (q.selectList.map fun el ↦ ⟨rehomeFtaSe aggrMap el.se, el.name⟩) =
        outputRow I (groupEnv A I (keyEnv A ρ₀ gb) q.aggrTbl envs) q.selectList := by
    rw [outputRow, outputRow, map_map]
    refine map_congr_left fun el hel ↦ ?_
    exact congrArg (Prod.mk el.name)
      (ScalarExp.eval_mapLeaves el.se fun x hx ↦ hleaf x (hq.selectList el hel x hx))
  simp only [hhaving, hselects]

/-- The packets of a run. -/
def packets {τ β : Type} (es : List (Query.Event τ β)) : List τ :=
  es.filterMap fun
    | .acceptPacket p => some p
    | _ => none

theorem flatMap_accepted {τ β α : Type} (q : Query τ β α) (hq : ∀ p, q.unpacks p = true)
    (es : List (Query.Event τ β)) : es.flatMap q.accepted = (packets es).filter q.accepts := by
  induction es with
  | nil => rfl
  | cons e es ih =>
    rw [flatMap_cons, ih]
    rcases e with p | _ | _ | _ | _
    · rcases ha : q.accepts p with _ | _
      · simp [packets, Query.accepted, hq, ha]
      · simp [packets, Query.accepted, hq, ha]
    all_goals simp [packets, Query.accepted]

end TwoLevels

section

variable {V σ : Type} [DecidableEq V]

/-- The group-by variables of the tuples of a part. -/
def partKey (I : Interp V) (q : SgahQpn) (part : List (Env V)) : List V :=
  (part.head?.map (q.key I)).getD []

/-- The row of a part, as a tuple of the high level. -/
def partRow (A : AggrMeaning V) (I : Interp V) (q fta : SgahQpn) (ρ : Env V)
    (part : List (Env V)) : Env V :=
  lftaRowEnv A ρ (outputRow I (groupEnv A I (keyEnv A ρ (partKey I q part)) fta.aggrTbl
    (part.map (q.tupleEnv A I))) fta.selectList)

end

/-- The operations on numbers. -/
def natOps : AggrOps Nat where
  one := 1
  add := (· + ·)
  min := Nat.min
  max := Nat.max
  and := Nat.land
  or := Nat.lor
  xor := Nat.xor
  add_assoc := ⟨Nat.add_assoc⟩
  min_assoc := ⟨Nat.min_assoc⟩
  max_assoc := ⟨Nat.max_assoc⟩
  and_assoc := ⟨Nat.land_assoc⟩
  or_assoc := ⟨Nat.lor_assoc⟩
  xor_assoc := ⟨Nat.xor_assoc⟩

def sampleMeaning : AggrMeaning Nat := ⟨natOps, fun _ _ ↦ 0, 0⟩

def sampleUdafs : LftaUdafs Nat Unit :=
  ⟨fun _ ↦ (), fun _ _ _ ↦ (), fun _ _ ↦ 0, fun _ _ ↦ false, fun _ _ ↦ false⟩

def sampleInterp : Interp Nat :=
  ⟨fun lit ↦ lit.lstring.length, fun _ v ↦ v, fun op v w ↦ if op = "/" then v / w else v + w,
    fun _ _ ↦ 0, fun _ v w ↦ decide (w < v), fun _ _ ↦ false, fun _ _ ↦ true⟩

def sampleFcns : ExtFcns := ⟨fun _ ↦ "", id, id⟩

/-- A column of the packets. -/
def sampleCol (field : String) : ScalarExp := .colref ⟨"", field, 0, 0⟩

/-- `select tb, addr, count(*), sum(len) from … where len > … group by time/60 as tb, addr having
sum(len) > …` -/
def sampleQpn : SgahQpn where
  nodeName := "q"
  tableName := "tcp"
  gbTbl := [⟨"tb", .binaryOp "/" (sampleCol "time") (.literal ⟨"60", 0⟩)⟩,
    ⟨"addr", sampleCol "addr"⟩]
  aggrTbl := [.builtin "COUNT" none, .builtin "SUM" (some (sampleCol "len"))]
  selectList := [⟨.gbref ⟨"", "tb", -1, -1⟩ 0, "tb"⟩, ⟨.gbref ⟨"", "addr", -1, -1⟩ 1, "addr"⟩,
    ⟨.aggrStar "COUNT" (some 0), "cnt"⟩, ⟨.aggrSe "SUM" (sampleCol "len") (some 1), "bytes"⟩]
  whereClause := [.compare (sampleCol "len") ">" (.literal ⟨"5", 0⟩)]
  having := [.compare (.aggrSe "SUM" (sampleCol "len") (some 1)) ">" (.literal ⟨"10", 0⟩)]
  paramTbl := []
  definitions := []
  lftaDisorder := 1
  hftaDisorder := 1

def samplePacket (time addr len : Nat) : Env Nat :=
  ⟨fun _ ↦ 0, fun _ ↦ 0, fun cr ↦ if cr.field = "time" then time else if cr.field = "addr"
    then addr else len, fun _ ↦ 0, fun _ ↦ 0⟩

/-- Three groups, for which there are two slots. -/
def samplePackets : List (Query.Event (Env Nat) Nat) :=
  [.acceptPacket (samplePacket 2 1 10), .acceptPacket (samplePacket 2 2 10),
    .acceptPacket (samplePacket 3 3 10), .acceptPacket (samplePacket 2 1 20), .clock true [3],
      .acceptPacket (samplePacket 6 1 1),
    .acceptPacket (samplePacket 6 1 30)]

def sampleOp : Query (Env Nat) Nat (List (AggrVar Nat Unit)) where
  gbAttr := fun _ ↦ []
  isTemporal := [true, false]
  ops := ⟨fun v w ↦ decide (w < v), fun vs ws ↦ (vs.zipWith (fun v w ↦ (v : Int) - w) ws).sum == 0,
    by simp, by simp⟩
  hashNums := fun _ ↦ 0x100000001#64
  toHash := fun _ v ↦ BitVec.ofNat 64 v
  init := fun _ ↦ []
  update := fun vars _ ↦ vars
  flushme := fun _ ↦ false
  bailout := fun _ ↦ false
  unpacks := fun _ ↦ true
  accepts := fun _ ↦ true
  realTime := false
  lftaDisorder := 1
  slowFlush := 2
  aggregateSlots := 2
  allocates := fun _ ↦ true

theorem ok_sampleQpn : sampleQpn.Ok sampleFcns.getFcnName := by
  refine ⟨fun entry hentry ↦ ?_, fun el hel x hx ↦ ?_, fun pr hpr x hx ↦ ?_⟩
  · simp only [sampleQpn, mem_cons, not_mem_nil, or_false] at hentry
    rcases hentry with rfl | rfl <;>
      simp [EntryOk, AggrEntry.Splits, ScalarExp.leaves, OperandLeaf, ScalarExp.isAggr, sampleCol]
  · simp only [sampleQpn, mem_cons, not_mem_nil, or_false] at hel
    rcases hel with rfl | rfl | rfl | rfl
    all_goals
      rw [mem_singleton.mp hx]
      simp [SgahQpn.GroupLeaf, sampleQpn]
  · simp only [sampleQpn, mem_cons, not_mem_nil, or_false] at hpr
    rw [hpr] at hx
    rcases mem_append.mp hx with hx | hx
    all_goals
      rw [mem_singleton.mp hx]
      simp [SgahQpn.GroupLeaf, sampleQpn]

theorem aggrsOk_sampleMeaning : AggrsOk sampleMeaning sampleFcns sampleQpn.aggrTbl := by
  refine ⟨fun op ↦ ⟨fun v w ↦ ?_⟩, fun _ _ _ _ _ _ _ ↦ rfl, fun _ _ _ _ _ _ _ ↦ rfl⟩
  simp only [sampleMeaning, AggrOps.ofName, natOps]
  split_ifs
  · exact Nat.min_comm v w
  · exact Nat.max_comm v w
  · exact Nat.land_comm v w
  · exact Nat.lor_comm v w
  · exact Nat.xor_comm v w
  · exact Nat.add_comm v w

end Tigon.Sgah
