import Tigon.Lib.Odometer
import Tigon.Ftacmp.ScalarExp

/-!
# Patterns of group-by variables

An element of a GROUP BY list is a variable, or a ROLLUP, a CUBE or GROUPING_SETS of variables. 
Each of these has patterns, which say what variables are grouped by, and the query is run for each
combination of them.  `analyzeGroupBy` enters the variables in a table, makes the patterns of each
element, and then goes through the combinations.

On the way, the variables of a temporal type are counted.  For a plain variable, the type is looked
up in the table at the position of the element in the list, which is another variable where a
ROLLUP, CUBE or GROUPING_SETS came before. The sets of a GROUPING_SETS are told apart by bits that
are shifted as an `int`, which is too short from 33 variables on.

* `extendsAll_addElements` — what the elements do to the analysis;
* `analyzed_iff` — **when the patterns are the combinations of those of the elements**, and just the
  temporal variables are counted.
-/

set_option autoImplicit false

namespace Tigon.Ftacmp.GroupBy

open Parse List

/-! ## GROUP BY lists -/

/-- A variable: a column, or an expression with a name. -/
structure Gb where
  isColref : Bool
  interface : String
  table : String
  name : String
  defn : Parse.ScalarExp

inductive ExtendedGb
  | gb (g : Gb)
  | rollup (gbs : List Gb)
  | cube (gbs : List Gb)
  | gsets (lists : List (List Gb))

/-- A variable in the table, and whether its type is temporal. -/
structure Entry where
  name : String
  temporal : Bool
deriving DecidableEq

/-- What has been found so far.  `undefined` means that the code has done something without a
meaning. -/
structure Analysis where
  table : List Entry := []
  nTemporal : Nat := 0
  temporalGbvars : List String := []
  patternComponents : List (List (List Bool)) := []
  foundError : Bool := false
  undefined : Bool := false

inductive Outcome
  | rejected
  | undefined
  | outOfFuel
  | accepted (a : Analysis) (gbPatterns : List (List Bool))

/-- The analysis of a variable's definition: whether its type is temporal, or nothing if it is in
error. -/
abbrev Resolve := Gb → Option Bool

variable (resolve : Resolve)

/-! ## The table -/

def addGbAttr (g : Gb) (table : List Entry) : Option (List Entry) := do
  let temporal ← resolve g
  if table.any fun entry ↦ entry.name == g.name then none else some (table ++ [⟨g.name, temporal⟩])

def resetTemporal (i : Nat) (table : List Entry) : List Entry :=
  table.modify i fun entry ↦ { entry with temporal := false }

/-- Variables of a ROLLUP, CUBE or GROUPING_SETS are not temporal. -/
def addReset (a : Analysis) (g : Gb) : Analysis :=
  match addGbAttr resolve g a.table with
  | none => { a with foundError := true }
  | some table => { a with table := resetTemporal (table.length - 1) table }

/-- A variable by itself, which is element number `i`. -/
def addPlain (i : Nat) (a : Analysis) (g : Gb) : Analysis :=
  match addGbAttr resolve g a.table with
  | none => { a with foundError := true }
  | some table =>
    match table[i]? with
    | none => { a with table := table, undefined := true }
    | some entry =>
      if entry.temporal then
        { a with
          table := table
          nTemporal := a.nTemporal + 1
          temporalGbvars := a.temporalGbvars ++ [entry.name] }
      else { a with table := table }

/-! ## The patterns of an element -/

def rollupPatterns (n : Nat) : List (List Bool) :=
  (range (n + 1)).map fun j ↦ (range n).map fun k ↦ decide (k < j)

/-- `1 << n`, where this has a value. -/
def shiftOne (n : Nat) : Option Int :=
  if n < 31 then some (2 ^ n) else if n = 31 then some (-2 ^ 31) else none

def cubePatterns (n nPatterns : Nat) : List (List Bool) :=
  (range nPatterns).map fun j ↦ (range n).map fun k ↦ j.testBit k

/-- One variable of a GROUPING_SETS, with the names that have been there before. -/
def addGset (s : List String × Analysis) (g : Gb) : List String × Analysis :=
  if !g.isColref then (s.1, { s.2 with foundError := true })
  else if g.name ∈ s.1 then s
  else (s.1 ++ [g.name], addReset resolve s.2 g)

/-- `signature |= (1 << gset_gbnames[...])` for each name. -/
def signatureOf (gsetGbnames refdGbs : List String) : Option (BitVec 64) :=
  refdGbs.foldlM (fun signature name ↦
    (shiftOne (gsetGbnames.idxOf name)).map fun bit ↦ signature ||| BitVec.ofInt 64 bit) 0

/-- The variables of a set.  A name that is not among them has been reported. -/
def innerPattern (gsetGbnames refdGbs : List String) : List Bool :=
  gsetGbnames.map fun name ↦ decide (name ∈ refdGbs)

/-- The signatures and the patterns of the sets so far. -/
def addSet (gsetGbnames : List String) (s : List (BitVec 64) × List (List Bool))
    (refdGbs : List String) : Option (List (BitVec 64) × List (List Bool)) := do
  let signature ← signatureOf gsetGbnames refdGbs
  return if signature ∈ s.1 then s else (s.1 ++ [signature],
    s.2 ++ [innerPattern gsetGbnames refdGbs])

def gsetsPatterns (gsetGbnames : List String) (lists : List (List String)) :
    Option (List (List Bool)) :=
  (lists.foldlM (addSet gsetGbnames) ([], [])).map Prod.snd

def Analysis.addComponent (a : Analysis) (patternSet : Option (List (List Bool))) : Analysis :=
  match patternSet with
  | none => { a with undefined := true }
  | some patternSet => { a with patternComponents := a.patternComponents ++ [patternSet] }

def addElement (i : Nat) (a : Analysis) : ExtendedGb → Analysis
  | .gb g => (addPlain resolve i a g).addComponent (some [[true]])
  | .rollup gbs => (gbs.foldl (addReset resolve) a).addComponent (some (rollupPatterns gbs.length))
  | .cube gbs =>
    (gbs.foldl (addReset resolve) a).addComponent
      ((shiftOne gbs.length).map fun nPatterns ↦ cubePatterns gbs.length nPatterns.toNat)
  | .gsets lists =>
    let s := lists.foldl (fun s gbs ↦ gbs.foldl (addGset resolve) s) ([], a)
    let a := if 63 < s.1.length then { s.2 with foundError := true } else s.2
    a.addComponent (gsetsPatterns s.1 (lists.map fun gbs ↦ gbs.map Gb.name))

def addElements : Nat → Analysis → List ExtendedGb → Analysis
  | _, a, [] => a
  | i, a, e :: gbList => addElements (i + 1) (addElement resolve i a e) gbList

/-! ## The combinations -/

/-- An empty set of patterns has no first one. -/
def analyzeGroupBy (fuel : Nat) (gbList : List ExtendedGb) : Outcome :=
  let a := addElements resolve 0 {} gbList
  if a.foundError then .rejected
  else if a.undefined then .undefined
  else if 1 < a.nTemporal then .rejected
  else if a.patternComponents.any isEmpty then .undefined
  else
    match Odometer.run a.patternComponents flatten fuel
      (a.patternComponents.map fun _ ↦ 0) [] with
    | none => .outOfFuel
    | some gbPatterns => .accepted a gbPatterns

/-! ## What the patterns are to be -/

def insertName (names : List String) (name : String) : List String :=
  if name ∈ names then names else names ++ [name]

/-- The variables of a GROUPING_SETS, in the order in which they are first named. -/
def fieldsOf (lists : List (List Gb)) : List String :=
  (lists.flatten.map Gb.name).foldl insertName []

/-- The variables of an element.  Only one that stands by itself can be temporal. -/
def entriesOf : ExtendedGb → List Entry
  | .gb g => [⟨g.name, (resolve g).getD false⟩]
  | .rollup gbs => gbs.map fun g ↦ ⟨g.name, false⟩
  | .cube gbs => gbs.map fun g ↦ ⟨g.name, false⟩
  | .gsets lists => (fieldsOf lists).map fun name ↦ ⟨name, false⟩

/-- The patterns of an element, each of them once. -/
def IsPatternSet : ExtendedGb → List (List Bool) → Prop
  | .gb _, patternSet => patternSet = [[true]]
  | .rollup gbs, patternSet => patternSet =
      (range (gbs.length + 1)).map fun j ↦ replicate j true ++
        replicate (gbs.length - j) false
  | .cube gbs, patternSet =>
    patternSet.Nodup ∧ ∀ pattern, pattern ∈ patternSet ↔ pattern.length = gbs.length
  | .gsets lists, patternSet => patternSet.Nodup ∧ ∀ pattern, pattern ∈ patternSet ↔
      ∃ gbs ∈ lists, pattern = innerPattern (fieldsOf lists) (gbs.map Gb.name)

/-- The table has the variables, the patterns are the combinations of those of the elements, and the
temporal variables are counted. -/
structure Correct (gbList : List ExtendedGb) (a : Analysis) (gbPatterns : List (List Bool)) :
    Prop where
  table : a.table = gbList.flatMap (entriesOf resolve)
  patterns : ∃ components, List.Forall₂ IsPatternSet gbList components ∧
    gbPatterns.Perm (components.sections.map flatten)
  length : ∀ pattern ∈ gbPatterns, pattern.length = a.table.length
  temporalGbvars : a.temporalGbvars = (a.table.filter Entry.temporal).map Entry.name
  nTemporal : a.nTemporal = (a.table.filter Entry.temporal).length

/-- The analysis ends, with what it is to find. -/
def Analyzed (gbList : List ExtendedGb) : Prop :=
  ∃ a gbPatterns, (∃ enough, ∀ fuel ≥ enough, analyzeGroupBy resolve fuel gbList =
    .accepted a gbPatterns) ∧ Correct resolve gbList a gbPatterns

/-- The parser puts a variable into each list. -/
def ExtendedGb.Parsed : ExtendedGb → Prop
  | .gb _ => True
  | .rollup gbs => gbs ≠ []
  | .cube gbs => gbs ≠ []
  | .gsets lists => lists ≠ [] ∧ ∀ gbs ∈ lists, gbs ≠ []

def ExtendedGb.isGb : ExtendedGb → Bool
  | .gb _ => true
  | _ => false

/-- An element whose bits fit. -/
def ExtendedGb.Fits : ExtendedGb → Prop
  | .cube gbs => gbs.length ≤ 30
  | .gsets lists => (fieldsOf lists).length ≤ 32
  | _ => True

/-! ## Numbers of variables, and bits -/

theorem length_innerPattern (gsetGbnames refdGbs : List String) :
    (innerPattern gsetGbnames refdGbs).length = gsetGbnames.length :=
  length_map _

theorem rollupPatterns_eq (n : Nat) : rollupPatterns n =
    (range (n + 1)).map fun j ↦ replicate j true ++ replicate (n - j) false := by
  refine map_congr_left fun j hj ↦ ?_
  have hle : j ≤ n := Nat.lt_succ_iff.mp (mem_range.mp hj)
  refine ext_getElem (by simp; omega) fun k h₁ h₂ ↦ ?_
  rw [getElem_map, getElem_range, getElem_append]
  split
  · rename_i h
    rw [length_replicate] at h
    simp [h]
  · rename_i h
    rw [length_replicate] at h
    simp [h]

theorem nodup_cubePatterns (n : Nat) : (cubePatterns n (2 ^ n)).Nodup := by
  refine List.Nodup.map_on (fun i hi j hj h ↦ ?_) nodup_range
  refine Nat.eq_of_testBit_eq fun k ↦ ?_
  by_cases hk : k < n
  · exact map_inj_left.mp h k (mem_range.mpr hk)
  · have hpow : 2 ^ n ≤ 2 ^ k := Nat.pow_le_pow_right (by norm_num) (not_lt.mp hk)
    rw [Nat.testBit_lt_two_pow (lt_of_lt_of_le (mem_range.mp hi) hpow),
      Nat.testBit_lt_two_pow (lt_of_lt_of_le (mem_range.mp hj) hpow)]

theorem mem_cubePatterns_iff (n : Nat) (pattern : List Bool) :
    pattern ∈ cubePatterns n (2 ^ n) ↔ pattern.length = n := by
  constructor
  · intro h
    obtain ⟨j, -, rfl⟩ := mem_map.mp h
    simp
  · rintro rfl
    refine mem_map.mpr ⟨Nat.ofBits fun k : Fin pattern.length ↦ pattern[k], ?_, ?_⟩
    · exact mem_range.mpr (Nat.ofBits_lt_two_pow _)
    · refine ext_getElem (by simp) fun k h₁ h₂ ↦ ?_
      rw [getElem_map, getElem_range, Nat.testBit_ofBits_lt _ _ h₂]
      rfl

/-- The bit by which the variable at a position is known. -/
def bitOf (p : Nat) : Nat := if p = 31 then 63 else p

/-- The bits that are set for the variable at a position. -/
def bitsOf (p : Nat) : BitVec 64 := BitVec.ofInt 64 ((shiftOne p).getD 0)

theorem getLsbD_bitsOf : ∀ p ≤ 31, ∀ q ≤ 31, (bitsOf p).getLsbD (bitOf q) = decide (p = q) :=
  by decide

/-! ## Sets and their signatures -/

variable {names refdGbs refdGbs' : List String} {lists : List (List String)}

theorem shiftOne_eq_some {n : Nat} (h : n ≤ 31) : shiftOne n = some ((shiftOne n).getD 0) := by
  rw [shiftOne]
  split
  · rfl
  · rw [if_pos (by omega)]
    rfl

theorem idxOf_le {name : String} (hnames : names.length ≤ 32) (h : name ∈ names) :
    names.idxOf name ≤ 31 := by
  have hlt := idxOf_lt_length_iff.mpr h
  omega

/-- The bits of a signature are those of its variables. -/
theorem exists_signatureOf (hnames : names.length ≤ 32) (hrefd : ∀ name ∈ refdGbs, name ∈ names) :
    ∃ signature, signatureOf names refdGbs = some signature ∧
      ∀ b, signature.getLsbD b = true ↔ ∃ name ∈ refdGbs, (bitsOf (names.idxOf name)).getLsbD
        b = true := by
  have hfold : ∀ signature₀ : BitVec 64, ∃ signature,
      refdGbs.foldlM (fun signature name ↦
        (shiftOne (names.idxOf name)).map fun bit ↦ signature ||| BitVec.ofInt 64 bit) signature₀ =
          some signature ∧
      ∀ b, signature.getLsbD b = true ↔
        signature₀.getLsbD b = true ∨ ∃ name ∈ refdGbs, (bitsOf (names.idxOf name)).getLsbD
          b = true := by
    induction refdGbs with
    | nil => exact fun signature₀ ↦ ⟨signature₀, rfl, fun b ↦ by simp⟩
    | cons name refdGbs ih =>
      intro signature₀
      obtain ⟨signature, hsignature, hbits⟩ := ih (fun n hn ↦ hrefd n (mem_cons_of_mem _ hn))
        (signature₀ ||| bitsOf (names.idxOf name))
      refine ⟨signature, ?_, fun b ↦ ?_⟩
      · rw [foldlM_cons, shiftOne_eq_some (idxOf_le hnames (hrefd name mem_cons_self))]
        exact hsignature
      · rw [hbits, BitVec.getLsbD_or, Bool.or_eq_true]
        simp only [mem_cons, exists_eq_or_imp]
        exact or_assoc
  obtain ⟨signature, hsignature, hbits⟩ := hfold 0
  exact ⟨signature, hsignature, fun b ↦ by simp [hbits]⟩

/-- The variables can be told from the signature, and the other way. -/
theorem signatureOf_inj (hnames : names.length ≤ 32) (hrefd : ∀ name ∈ refdGbs, name ∈ names)
    (hrefd' : ∀ name ∈ refdGbs', name ∈ names) :
    signatureOf names refdGbs = signatureOf names refdGbs' ↔
      innerPattern names refdGbs = innerPattern names refdGbs' := by
  obtain ⟨signature, hsignature, hbits⟩ := exists_signatureOf hnames hrefd
  obtain ⟨signature', hsignature', hbits'⟩ := exists_signatureOf hnames hrefd'
  have hmem : ∀ refd : List String, (∀ name ∈ refd, name ∈ names) → ∀ name ∈ names,
      (name ∈ refd ↔ ∃ n ∈ refd, (bitsOf (names.idxOf n)).getLsbD (bitOf (names.idxOf name)) =
        true) := by
    intro refd hrefd name hname
    constructor
    · intro h
      exact ⟨name, h,
        by rw [getLsbD_bitsOf _ (idxOf_le hnames hname) _ (idxOf_le hnames hname),
          decide_eq_true rfl]⟩
    · rintro ⟨n, hn, hbit⟩
      rw [getLsbD_bitsOf _ (idxOf_le hnames (hrefd n hn)) _ (idxOf_le hnames hname),
        decide_eq_true_iff] at hbit
      rwa [← (idxOf_inj (hrefd n hn)).mp hbit]
  rw [hsignature, hsignature', Option.some.injEq]
  constructor
  · rintro rfl
    refine map_congr_left fun name hname ↦ ?_
    rw [decide_eq_decide, hmem refdGbs hrefd name hname,
      hmem refdGbs' hrefd' name hname, ← hbits, ← hbits']
  · intro h
    have hsame : ∀ name, name ∈ refdGbs ↔ name ∈ refdGbs' := by
      intro name
      have hiff : name ∈ names → (name ∈ refdGbs ↔ name ∈ refdGbs') := fun hname ↦
        decide_eq_decide.mp (map_inj_left.mp h name hname)
      exact ⟨fun hname ↦ (hiff (hrefd name hname)).mp hname,
        fun hname ↦ (hiff (hrefd' name hname)).mpr hname⟩
    refine BitVec.eq_of_getLsbD_eq fun b _ ↦ ?_
    rw [Bool.eq_iff_iff, hbits, hbits']
    simp only [hsame]

/-- **The sets that are listed, each of them once.** -/
theorem exists_gsetsPatterns (hnames : names.length ≤ 32)
    (hlists : ∀ refd ∈ lists, ∀ name ∈ refd, name ∈ names) : ∃ patternSet,
      gsetsPatterns names lists = some patternSet ∧ patternSet.Nodup ∧ ∀ pattern,
        pattern ∈ patternSet ↔ ∃ refd ∈ lists, pattern = innerPattern names refd := by
  have hfold : ∀ s : List (BitVec 64) × List (List Bool), s.2.Nodup →
      (∀ refd : List String, (∀ name ∈ refd, name ∈ names) → ∀ signature, signatureOf names refd =
        some signature → (signature ∈ s.1 ↔ innerPattern names refd ∈ s.2)) →
      ∃ s', lists.foldlM (addSet names) s = some s' ∧ s'.2.Nodup ∧
        ∀ pattern, pattern ∈ s'.2 ↔ pattern ∈ s.2 ∨ ∃ refd ∈ lists,
          pattern = innerPattern names refd := by
    induction lists with
    | nil => exact fun s hnodup _ ↦ ⟨s, rfl, hnodup, fun pattern ↦ by simp⟩
    | cons refd lists ih =>
      intro s hnodup hsignatures
      have hrefd := hlists refd mem_cons_self
      obtain ⟨signature, hsignature, -⟩ := exists_signatureOf hnames hrefd
      have hiff := hsignatures refd hrefd signature hsignature
      have ih := ih fun refd hrefd ↦ hlists refd (mem_cons_of_mem _ hrefd)
      by_cases hmem : signature ∈ s.1
      · obtain ⟨s', hs', hnodup', hpatterns⟩ := ih s hnodup hsignatures
        refine ⟨s', ?_, hnodup', fun pattern ↦ ?_⟩
        · rw [foldlM_cons, addSet, hsignature]
          simpa [hmem] using hs'
        · rw [hpatterns]
          simp only [mem_cons, exists_eq_or_imp]
          refine ⟨fun h ↦ h.imp_right .inr, ?_⟩
          rintro (h | rfl | h)
          · exact .inl h
          · exact .inl (hiff.mp hmem)
          · exact .inr h
      · obtain ⟨s', hs', hnodup', hpatterns⟩ :=
          ih (s.1 ++ [signature], s.2 ++ [innerPattern names refd])
          (nodup_append_comm.mp (nodup_cons.mpr ⟨fun h ↦ hmem (hiff.mpr h), hnodup⟩)) (by
            intro refd' hrefd' signature' hsignature'
            rw [mem_append, mem_append, mem_singleton, mem_singleton,
              hsignatures refd' hrefd' signature' hsignature', ← signatureOf_inj hnames hrefd'
                hrefd, hsignature,
              hsignature', Option.some.injEq])
        refine ⟨s', ?_, hnodup', fun pattern ↦ ?_⟩
        · rw [foldlM_cons, addSet, hsignature]
          simpa [hmem] using hs'
        · rw [hpatterns, mem_append, mem_singleton]
          simp only [mem_cons, exists_eq_or_imp]
          exact or_assoc
  obtain ⟨s', hs', hnodup, hpatterns⟩ := hfold ([], []) nodup_nil (fun _ _ _ _ ↦ by simp)
  exact ⟨s'.2, by rw [gsetsPatterns, hs']; rfl, hnodup, fun pattern ↦ by simp [hpatterns]⟩

theorem foldlM_eq_none {α β : Type} {f : β → α → Option β} {l : List α} {a : α} (ha : a ∈ l)
    (h : ∀ b, f b a = none) (b : β) :
    l.foldlM f b = none := by
  induction l generalizing b with
  | nil => cases ha
  | cons a' l ih =>
    rw [foldlM_cons]
    rcases mem_cons.mp ha with rfl | ha
    · rw [h]
      rfl
    · cases f b a' with
      | none => rfl
      | some b' => exact ih ha b'

/-- With too many variables, one of them has no bit. -/
theorem gsetsPatterns_eq_none (hnames : 32 < names.length) (hnodup : names.Nodup)
    (hlists : ∀ name ∈ names, ∃ refd ∈ lists, name ∈ refd) : gsetsPatterns names lists = none := by
  obtain ⟨refd, hrefd, hname⟩ := hlists names[32] (getElem_mem hnames)
  have hsignature : signatureOf names refd = none := by
    refine foldlM_eq_none hname (fun signature ↦ ?_) 0
    rw [hnodup.idxOf_getElem 32 hnames]
    rfl
  have hfold : lists.foldlM (addSet names) ([], []) = none := by
    refine foldlM_eq_none hrefd (fun s ↦ ?_) ([], [])
    rw [addSet, hsignature]
    rfl
  rw [gsetsPatterns, hfold]
  rfl

/-! ## Entering variables -/

variable {resolve} {a : Analysis} {g : Gb} {gbs : List Gb}

/-- The table with some entries more. -/
def Analysis.enter (a : Analysis) (entries : List Entry) : Analysis :=
  { a with table := a.table ++ entries }

theorem Analysis.enter_enter (a : Analysis) (entries entries' : List Entry) :
    (a.enter entries).enter entries' = a.enter (entries ++ entries') := by
  rw [enter, enter, enter, append_assoc]

theorem Analysis.enter_nil (a : Analysis) : a.enter [] = a := by rw [enter, append_nil]

theorem addGbAttr_eq_some {table table' : List Entry}
    (h : addGbAttr resolve g table = some table') : table' = table ++
    [⟨g.name, (resolve g).getD false⟩] := by
  obtain ⟨temporal, htemporal, h⟩ := Option.bind_eq_some_iff.mp h
  split at h
  · cases h
  · rw [htemporal]
    exact (Option.some.inj h).symm

theorem resetTemporal_concat (table : List Entry) (entry : Entry) :
    resetTemporal table.length (table ++ [entry]) = table ++
      [{ entry with temporal := false }] := by
  induction table with
  | nil => rfl
  | cons entry' table ih => exact congrArg (entry' :: ·) ih

theorem addReset_eq (h : (addReset resolve a g).foundError = false) :
    a.foundError = false ∧ addReset resolve a g = a.enter [⟨g.name, false⟩] := by
  rw [addReset] at h ⊢
  split at h
  · cases h
  · rename_i table htable
    obtain rfl := addGbAttr_eq_some htable
    refine ⟨h, ?_⟩
    show ({ a with table := resetTemporal _ _ } : Analysis) = _
    rw [length_append, length_singleton, Nat.add_sub_cancel, resetTemporal_concat]
    rfl

theorem foldl_addReset_eq (h : (gbs.foldl (addReset resolve) a).foundError = false) :
    a.foundError = false ∧ gbs.foldl (addReset resolve) a =
      a.enter (gbs.map fun g ↦ ⟨g.name, false⟩) := by
  induction gbs generalizing a with
  | nil => exact ⟨h, a.enter_nil.symm⟩
  | cons g gbs ih =>
    rw [foldl_cons] at h ⊢
    obtain ⟨hfound, heq⟩ := ih h
    obtain ⟨hfound', heq'⟩ := addReset_eq hfound
    refine ⟨hfound', ?_⟩
    rw [heq, heq', Analysis.enter_enter]
    rfl

/-- The names that are new. -/
theorem exists_foldl_addGset {s : List String × Analysis}
    (h : (gbs.foldl (addGset resolve) s).2.foundError = false) : s.2.foundError = false ∧ ∃ new,
      (gbs.map Gb.name).foldl insertName s.1 = s.1 ++ new ∧ gbs.foldl (addGset resolve) s =
      (s.1 ++ new, s.2.enter (new.map fun name ↦ ⟨name, false⟩)) := by
  induction gbs generalizing s with
  | nil => exact ⟨h, [], by simp, by rw [append_nil, map_nil, Analysis.enter_nil]; rfl⟩
  | cons g gbs ih =>
    rw [foldl_cons] at h
    obtain ⟨hfound, new, hnew, heq⟩ := ih h
    rw [foldl_cons, heq, map_cons, foldl_cons]
    rw [addGset] at hfound hnew ⊢
    split at hfound
    · cases hfound
    · rename_i hcolref
      rw [if_neg hcolref] at hnew ⊢
      split at hfound
      · rename_i hmem
        rw [if_pos hmem] at hnew ⊢
        exact ⟨hfound, new, by rwa [insertName, if_pos hmem], rfl⟩
      · rename_i hmem
        rw [if_neg hmem] at hnew ⊢
        obtain ⟨hfound', heq'⟩ := addReset_eq hfound
        refine ⟨hfound', g.name :: new, ?_, ?_⟩
        · rw [insertName, if_neg hmem, hnew, append_assoc]
          rfl
        · rw [heq', Analysis.enter_enter, append_assoc]
          rfl

theorem exists_foldl_gsets {lists : List (List Gb)} {s : List String × Analysis}
    (h : (lists.foldl (fun s gbs ↦ gbs.foldl (addGset resolve) s) s).2.foundError = false) :
    s.2.foundError = false ∧ ∃ new, (lists.flatten.map Gb.name).foldl insertName s.1 = s.1 ++ new ∧
      lists.foldl (fun s gbs ↦ gbs.foldl (addGset resolve) s) s =
        (s.1 ++ new, s.2.enter (new.map fun name ↦ ⟨name, false⟩)) := by
  rw [← foldl_flatten] at h ⊢
  exact exists_foldl_addGset h

theorem mem_foldl_insertName {names new : List String} {name : String} :
    name ∈ new.foldl insertName names ↔ name ∈ names ∨ name ∈ new := by
  induction new generalizing names with
  | nil => simp
  | cons n new ih =>
    rw [foldl_cons, ih, insertName]
    split
    · rename_i h
      simp only [mem_cons]
      refine ⟨fun h' ↦ h'.imp_right .inr, ?_⟩
      rintro (h' | rfl | h')
      · exact .inl h'
      · exact .inl h
      · exact .inr h'
    · rw [mem_append, mem_singleton, mem_cons, or_assoc]

theorem nodup_foldl_insertName {names new : List String} (h : names.Nodup) :
    (new.foldl insertName names).Nodup := by
  induction new generalizing names with
  | nil => exact h
  | cons n new ih =>
    rw [foldl_cons]
    refine ih ?_
    rw [insertName]
    split
    · exact h
    · rename_i hn
      exact nodup_append_comm.mp (nodup_cons.mpr ⟨hn, h⟩)

theorem mem_fieldsOf {lists : List (List Gb)} {name : String} :
    name ∈ fieldsOf lists ↔ ∃ gbs ∈ lists, name ∈ gbs.map Gb.name := by
  rw [fieldsOf, mem_foldl_insertName, map_flatten, mem_flatten]
  simp

/-! ## Counting the temporal variables -/

/-- The variables that are counted: those at whose position there is an element by itself. -/
def counted : List Entry → List ExtendedGb → List Entry
  | entry :: table, e :: gbList =>
    (if e.isGb && entry.temporal then [entry] else []) ++ counted table gbList
  | _, _ => []

theorem length_counted_le (table : List Entry) (gbList : List ExtendedGb) :
    (counted table gbList).length ≤ (table.filter Entry.temporal).length := by
  induction table generalizing gbList with
  | nil => simp [counted]
  | cons entry table ih =>
    cases gbList with
    | nil => simp [counted]
    | cons e gbList =>
      have h := ih gbList
      rw [counted, filter_cons]
      cases entry.temporal <;> cases e.isGb <;> simp <;> omega

/-- Each temporal variable stands at the position of an element by itself. -/
def Aligned (table : List Entry) (gbList : List ExtendedGb) : Prop :=
  ∀ (v : Nat) (entry : Entry), table[v]? = some entry → entry.temporal = true → ∃ g,
    gbList[v]? = some (.gb g)

theorem aligned_cons_iff {entry : Entry} {table : List Entry} {gbList : List ExtendedGb} :
    Aligned (entry :: table) gbList ↔
      (entry.temporal = true → ∃ g, gbList.head? = some (.gb g)) ∧ Aligned table gbList.tail := by
  constructor
  · intro h
    refine ⟨fun htemporal ↦ ?_, fun v entry' hentry htemporal ↦ ?_⟩
    · have hfirst := h 0 entry rfl htemporal
      rwa [← head?_eq_getElem?] at hfirst
    · have hnext := h (v + 1) entry' hentry htemporal
      rwa [← getElem?_tail] at hnext
  · rintro ⟨hfirst, hnext⟩ v entry' hentry htemporal
    cases v with
    | zero =>
      cases hentry
      rw [← head?_eq_getElem?]
      exact hfirst htemporal
    | succ v =>
      rw [← getElem?_tail]
      exact hnext v entry' hentry htemporal

theorem counted_nil_right (table : List Entry) : counted table [] = [] := by
  cases table with
  | nil => rfl
  | cons entry table => rfl

theorem counted_eq_filter {table : List Entry} {gbList : List ExtendedGb}
    (h : Aligned table gbList) : counted table gbList = table.filter Entry.temporal := by
  induction table generalizing gbList with
  | nil => simp [counted]
  | cons entry table ih =>
    obtain ⟨hfirst, hnext⟩ := aligned_cons_iff.mp h
    have ih := ih hnext
    cases htemporal : entry.temporal with
    | false =>
      rw [filter_cons_of_neg (by simp [htemporal]), ← ih]
      cases gbList with
      | nil => rw [counted_nil_right, tail_nil, counted_nil_right]
      | cons e gbList => simp [counted, htemporal]
    | true =>
      obtain ⟨g, hg⟩ := hfirst htemporal
      rw [filter_cons_of_pos htemporal, ← ih]
      cases gbList with
      | nil => cases hg
      | cons e gbList =>
        cases hg
        simp [counted, htemporal, ExtendedGb.isGb]

theorem aligned_of_length {table : List Entry} {gbList : List ExtendedGb}
    (h : (counted table gbList).length = (table.filter Entry.temporal).length) :
      Aligned table gbList := by
  induction table generalizing gbList with
  | nil => exact fun v entry hentry _ ↦ by cases hentry
  | cons entry table ih =>
    rw [aligned_cons_iff]
    have hle := length_counted_le table gbList.tail
    cases gbList with
    | nil =>
      rw [counted_nil_right, length_nil, eq_comm, length_eq_zero_iff,
        filter_eq_nil_iff] at h
      refine ⟨fun htemporal ↦ absurd htemporal (h entry mem_cons_self),
        fun v entry' hentry htemporal ↦ ?_⟩
      exact absurd htemporal (h entry' (mem_cons_of_mem _ (mem_of_getElem? hentry)))
    | cons e gbList =>
      rw [counted, length_append, filter_cons] at h
      rw [tail_cons] at hle ⊢
      by_cases htemporal : entry.temporal = true
      · rw [if_pos htemporal, htemporal, Bool.and_true, length_cons] at h
        cases e with
        | gb g =>
          rw [ExtendedGb.isGb, if_pos rfl, length_singleton] at h
          exact ⟨fun _ ↦ ⟨g, rfl⟩, ih (by omega)⟩
        | _ =>
          rw [if_neg (by simp [ExtendedGb.isGb]), length_nil] at h
          omega
      · rw [if_neg htemporal, if_neg (by simp [htemporal]), length_nil, Nat.zero_add] at h
        exact ⟨fun h' ↦ absurd h' htemporal, ih h⟩

/-! ## Elements -/

variable {e : ExtendedGb} {gbList : List ExtendedGb} {i : Nat}

/-- Something without a meaning has been done, or is going to be when the first pattern is looked
for. -/
def Bad (a : Analysis) : Prop := a.undefined = true ∨ [] ∈ a.patternComponents

/-- What an element does to the analysis, if there is no error. -/
structure Extends (resolve : Resolve) (a a' : Analysis) (i : Nat) (e : ExtendedGb) : Prop where
  table : a'.table = a.table ++ entriesOf resolve e
  temporalGbvars : a'.temporalGbvars = a.temporalGbvars ++
    (counted (a'.table.drop i) [e]).map Entry.name
  nTemporal : a'.nTemporal = a.nTemporal + (counted (a'.table.drop i) [e]).length
  fits : e.Fits → a'.undefined = a.undefined ∧
    ∃ patternSet, a'.patternComponents = a.patternComponents ++ [patternSet] ∧
      IsPatternSet e patternSet ∧ patternSet ≠ []
  bad : Bad a ∨ ¬ e.Fits → Bad a'

theorem counted_of_not_isGb (table : List Entry) (h : e.isGb = false) : counted table [e] = [] := by
  cases table with
  | nil => rfl
  | cons entry table => simp [counted, h, counted_nil_right]

theorem counted_gb (table : List Entry) (g : Gb) :
    counted table [.gb g] = (table.head?.toList).filter Entry.temporal := by
  cases table with
  | nil => rfl
  | cons entry table =>
    cases htemporal : entry.temporal <;>
      simp [counted, counted_nil_right, htemporal, ExtendedGb.isGb]

theorem bad_addComponent {patternSet : Option (List (List Bool))}
    (h : Bad a ∨ patternSet = none ∨ patternSet = some []) :
    Bad (a.addComponent patternSet) := by
  rcases h with (h | h) | rfl | rfl
  · cases patternSet with
    | none => exact .inl rfl
    | some patternSet => exact .inl h
  · cases patternSet with
    | none => exact .inl rfl
    | some patternSet => exact .inr (mem_append_left _ h)
  · exact .inl rfl
  · exact .inr (mem_append_right _ mem_cons_self)

theorem foundError_addComponent (a : Analysis) (patternSet : Option (List (List Bool))) :
    (a.addComponent patternSet).foundError = a.foundError := by
  cases patternSet with
  | none => rfl
  | some patternSet => rfl

/-- An element that is not a variable by itself. -/
theorem extends_enter {patternSet : Option (List (List Bool))} (hgb : e.isGb = false)
    (hfits : e.Fits → ∃ patterns, patternSet = some patterns ∧ IsPatternSet e patterns ∧
      patterns ≠ [])
    (hbad : ¬ e.Fits → patternSet = none ∨ patternSet = some []) :
    Extends resolve a ((a.enter (entriesOf resolve e)).addComponent patternSet) i e := by
  have hsame : ((a.enter (entriesOf resolve e)).addComponent patternSet).table = a.table ++
      entriesOf resolve e ∧ ((a.enter (entriesOf resolve e)).addComponent
        patternSet).temporalGbvars = a.temporalGbvars ∧
      ((a.enter (entriesOf resolve e)).addComponent patternSet).nTemporal = a.nTemporal := by
    cases patternSet with
    | none => exact ⟨rfl, rfl, rfl⟩
    | some patterns => exact ⟨rfl, rfl, rfl⟩
  obtain ⟨htable, hgbvars, hn⟩ := hsame
  refine ⟨htable, ?_, ?_, fun h ↦ ?_, fun h ↦ ?_⟩
  · rw [hgbvars, counted_of_not_isGb _ hgb, map_nil, append_nil]
  · rw [hn, counted_of_not_isGb _ hgb, length_nil, Nat.add_zero]
  · obtain ⟨patterns, rfl, hpatterns⟩ := hfits h
    exact ⟨rfl, patterns, rfl, hpatterns⟩
  · exact bad_addComponent (h.imp_right hbad)

theorem extends_addPlain (hi : i ≤ a.table.length)
    (h : (addPlain resolve i a g).foundError = false) :
      Extends resolve a ((addPlain resolve i a g).addComponent (some [[true]])) i (.gb g) := by
  have hpatterns : ExtendedGb.Fits (.gb g) → IsPatternSet (.gb g) [[true]] ∧
    ([[true]] : List (List Bool)) ≠ [] :=
    fun _ ↦ ⟨rfl, by simp⟩
  rw [addPlain] at h ⊢
  split at h
  · cases h
  · rename_i table htable
    have htable := addGbAttr_eq_some htable
    have hlt : i < table.length := by
      rw [htable, length_append, length_singleton]
      omega
    have hcounted : counted (table.drop i) [.gb g] = [table[i]].filter Entry.temporal := by
      rw [counted_gb, head?_drop, getElem?_eq_getElem hlt]
      rfl
    simp only [getElem?_eq_getElem hlt] at h ⊢
    split at h
    · rename_i htemporal
      rw [filter_cons_of_pos htemporal, filter_nil] at hcounted
      rw [if_pos htemporal]
      refine ⟨htable, ?_, ?_, fun h ↦ ⟨rfl, [[true]], rfl, hpatterns h⟩, fun h ↦ ?_⟩
      · exact congrArg (fun l ↦ a.temporalGbvars ++ l.map Entry.name) hcounted.symm
      · exact congrArg (fun l ↦ a.nTemporal + l.length) hcounted.symm
      · exact bad_addComponent (.inl (h.resolve_right fun h ↦ h trivial))
    · rename_i htemporal
      rw [filter_cons_of_neg htemporal, filter_nil] at hcounted
      rw [if_neg htemporal]
      refine ⟨htable, ?_, ?_, fun h ↦ ⟨rfl, [[true]], rfl, hpatterns h⟩, fun h ↦ ?_⟩
      · show a.temporalGbvars = a.temporalGbvars ++ (counted (table.drop i) [.gb g]).map Entry.name
        rw [hcounted, map_nil, append_nil]
      · exact congrArg (fun l ↦ a.nTemporal + l.length) hcounted.symm
      · exact bad_addComponent (.inl (h.resolve_right fun h ↦ h trivial))

theorem foundError_of_addElement (h : (addElement resolve i a e).foundError = false) :
    a.foundError = false := by
  cases e with
  | gb g =>
    rw [addElement, foundError_addComponent, addPlain] at h
    split at h
    · cases h
    · split at h
      · exact h
      · split at h <;> exact h
  | rollup gbs =>
    rw [addElement, foundError_addComponent] at h
    exact (foldl_addReset_eq h).1
  | cube gbs =>
    rw [addElement, foundError_addComponent] at h
    exact (foldl_addReset_eq h).1
  | gsets lists =>
    rw [addElement, foundError_addComponent] at h
    split at h
    · cases h
    · exact (exists_foldl_gsets h).1

theorem foundError_of_addElements (h : (addElements resolve i a gbList).foundError = false) :
    a.foundError = false := by
  induction gbList generalizing i a with
  | nil => exact h
  | cons e gbList ih => exact foundError_of_addElement (ih h)

/-- **What one element adds.** -/
theorem extends_addElement (hparsed : e.Parsed) (hi : i ≤ a.table.length)
    (h : (addElement resolve i a e).foundError = false) :
    Extends resolve a (addElement resolve i a e) i e := by
  cases e with
  | gb g =>
    rw [addElement, foundError_addComponent] at h
    exact extends_addPlain hi h
  | rollup gbs =>
    rw [addElement, foundError_addComponent] at h
    rw [addElement, (foldl_addReset_eq h).2]
    refine extends_enter (e := .rollup gbs) rfl (fun _ ↦ ?_) fun h ↦ absurd trivial h
    exact ⟨_, rfl, rollupPatterns_eq _, by simp [rollupPatterns]⟩
  | cube gbs =>
    rw [addElement, foundError_addComponent] at h
    rw [addElement, (foldl_addReset_eq h).2]
    refine extends_enter (e := .cube gbs) rfl (fun h ↦ ?_) fun h ↦ ?_
    · have hshift : shiftOne gbs.length = some ((2 ^ gbs.length : Nat) : Int) := by
        rw [shiftOne, if_pos (Nat.lt_succ_of_le h), Nat.cast_pow]
        rfl
      refine ⟨cubePatterns gbs.length (2 ^ gbs.length), by rw [hshift]; rfl, ?_, ?_⟩
      · exact ⟨nodup_cubePatterns _, mem_cubePatterns_iff _⟩
      · rw [← length_pos_iff, cubePatterns, length_map, length_range]
        exact Nat.two_pow_pos _
    · have hlen : 30 < gbs.length := not_le.mp h
      rw [shiftOne, if_neg (by omega)]
      split
      · exact .inr rfl
      · exact .inl rfl
  | gsets lists =>
    rw [addElement, foundError_addComponent] at h
    split at h
    · cases h
    rename_i hlen
    obtain ⟨-, new, hnew, heq⟩ := exists_foldl_gsets h
    rw [nil_append] at hnew heq
    have hfields : fieldsOf lists = new := hnew
    rw [heq] at hlen
    rw [addElement, heq, if_neg hlen, ← hfields]
    refine extends_enter (e := .gsets lists) rfl (fun h ↦ ?_) fun h ↦ .inl ?_
    · have hnames : ∀ refd ∈ lists.map fun gbs ↦ gbs.map Gb.name, ∀ name ∈ refd,
        name ∈ fieldsOf lists := by
        intro refd hrefd name hname
        obtain ⟨gbs, hgbs, rfl⟩ := mem_map.mp hrefd
        exact mem_fieldsOf.mpr ⟨gbs, hgbs, hname⟩
      obtain ⟨patterns, heq, hnodup, hpatterns⟩ := exists_gsetsPatterns h hnames
      have hlisted : ∀ pattern, pattern ∈ patterns ↔
          ∃ gbs ∈ lists, pattern = innerPattern (fieldsOf lists) (gbs.map Gb.name) := by
        intro pattern
        simp [hpatterns]
      obtain ⟨gbs, hgbs⟩ := exists_mem_of_ne_nil lists hparsed.1
      exact ⟨patterns, heq, ⟨hnodup, hlisted⟩,
        ne_nil_of_mem ((hlisted _).mpr ⟨gbs, hgbs, rfl⟩)⟩
    · refine gsetsPatterns_eq_none (not_le.mp h) (nodup_foldl_insertName nodup_nil)
        fun name hname ↦ ?_
      obtain ⟨gbs, hgbs, hname⟩ := mem_fieldsOf.mp hname
      exact ⟨gbs.map Gb.name, mem_map_of_mem hgbs, hname⟩

theorem length_entriesOf_pos (hparsed : e.Parsed) : 0 < (entriesOf resolve e).length := by
  cases e with
  | gb g => exact Nat.one_pos
  | rollup gbs => exact (length_map _).symm ▸ length_pos_iff.mpr hparsed
  | cube gbs => exact (length_map _).symm ▸ length_pos_iff.mpr hparsed
  | gsets lists =>
    obtain ⟨gbs, hgbs⟩ := exists_mem_of_ne_nil lists hparsed.1
    obtain ⟨g, hg⟩ := exists_mem_of_ne_nil gbs (hparsed.2 gbs hgbs)
    have hmem : g.name ∈ fieldsOf lists := mem_fieldsOf.mpr ⟨gbs, hgbs, mem_map_of_mem hg⟩
    rw [entriesOf, length_map]
    exact length_pos_of_mem hmem

/-! ## The list -/

/-- What a list of elements does to the analysis, if there is no error. -/
structure ExtendsAll (resolve : Resolve) (a a' : Analysis) (i : Nat) (gbList : List ExtendedGb) :
    Prop where
  table : a'.table = a.table ++ gbList.flatMap (entriesOf resolve)
  temporalGbvars : a'.temporalGbvars = a.temporalGbvars ++
    (counted (a'.table.drop i) gbList).map Entry.name
  nTemporal : a'.nTemporal = a.nTemporal + (counted (a'.table.drop i) gbList).length
  fits : (∀ e ∈ gbList, e.Fits) → a'.undefined = a.undefined ∧
    ∃ components, a'.patternComponents = a.patternComponents ++ components ∧
      List.Forall₂ IsPatternSet gbList components ∧ ∀ patternSet ∈ components, patternSet ≠ []
  bad : (Bad a ∨ ∃ e ∈ gbList, ¬ e.Fits) → Bad a'

theorem counted_cons (table : List Entry) (e : ExtendedGb) (gbList : List ExtendedGb) :
    counted table (e :: gbList) = counted table [e] ++ counted table.tail gbList := by
  cases table with
  | nil => simp [counted]
  | cons entry table => rw [counted, counted, counted_nil_right, append_nil, tail_cons]

theorem counted_append (table table' : List Entry) (e : ExtendedGb) (h : 0 < table.length) :
    counted (table ++ table') [e] = counted table [e] := by
  cases table with
  | nil => cases h
  | cons entry table =>
    rw [cons_append, counted, counted, counted_nil_right, counted_nil_right]

theorem extendsAll_addElements (hparsed : ∀ e ∈ gbList, e.Parsed) (hi : i ≤ a.table.length)
    (h : (addElements resolve i a gbList).foundError = false) :
    ExtendsAll resolve a (addElements resolve i a gbList) i gbList := by
  induction gbList generalizing i a with
  | nil =>
    refine ⟨by simp [addElements], ?_, ?_, fun _ ↦ ⟨rfl, [], by simp [addElements], .nil, by simp⟩,
      fun h ↦ ?_⟩
    · rw [counted_nil_right, map_nil, append_nil, addElements]
    · rw [counted_nil_right, addElements, length_nil, Nat.add_zero]
    · exact h.resolve_right (by simp)
  | cons e gbList ih =>
    have hparsed' : ∀ e ∈ gbList, e.Parsed := fun e he ↦ hparsed e (mem_cons_of_mem _ he)
    have hpos : 0 < (entriesOf resolve e).length :=
      length_entriesOf_pos (hparsed e mem_cons_self)
    rw [addElements] at h ⊢
    have hfirst := extends_addElement (hparsed e mem_cons_self)
      hi (foundError_of_addElements h)
    have hlen : i + 1 ≤ (addElement resolve i a e).table.length := by
      rw [hfirst.table, length_append]
      omega
    have hrest := ih hparsed' hlen h
    generalize addElement resolve i a e = a₁ at hfirst hlen hrest
    generalize addElements resolve (i + 1) a₁ gbList = a' at hrest
    have hcounted : counted (a'.table.drop i) (e :: gbList) =
        counted (a₁.table.drop i) [e] ++ counted (a'.table.drop (i + 1)) gbList := by
      rw [counted_cons, tail_drop]
      congr 1
      rw [hrest.table, drop_append_of_le_length (by omega), counted_append]
      rw [length_drop]
      omega
    refine ⟨?_, ?_, ?_, fun hfits ↦ ?_, fun h ↦ hrest.bad ?_⟩
    · rw [hrest.table, hfirst.table, flatMap_cons, append_assoc]
    · rw [hrest.temporalGbvars, hfirst.temporalGbvars, hcounted, map_append, append_assoc]
    · rw [hrest.nTemporal, hfirst.nTemporal, hcounted, length_append, Nat.add_assoc]
    · obtain ⟨hundefined, patternSet, hcomponents, hpatterns, hne⟩ :=
        hfirst.fits (hfits e mem_cons_self)
      obtain ⟨hundefined', components, hcomponents', hpatterns', hne'⟩ :=
        hrest.fits fun e he ↦ hfits e (mem_cons_of_mem _ he)
      refine ⟨hundefined'.trans hundefined, patternSet :: components, ?_,
        .cons hpatterns hpatterns', ?_⟩
      · rw [hcomponents', hcomponents, append_assoc]
        rfl
      · exact forall_mem_cons.mpr ⟨hne, hne'⟩
    · rcases h with h | ⟨e', he', hfits⟩
      · exact .inl (hfirst.bad (.inl h))
      · rcases mem_cons.mp he' with rfl | he'
        · exact .inl (hfirst.bad (.inr hfits))
        · exact .inr ⟨e', he', hfits⟩

/-! ## The combinations -/

theorem length_of_mem_patternSet {patternSet : List (List Bool)} (h : IsPatternSet e patternSet)
    {pattern : List Bool} (hpattern : pattern ∈ patternSet) : pattern.length =
    (entriesOf resolve e).length := by
  cases e with
  | gb g =>
    obtain rfl := h
    rw [mem_singleton.mp hpattern]
    rfl
  | rollup gbs =>
    obtain rfl := h
    obtain ⟨j, hj, rfl⟩ := mem_map.mp hpattern
    have hle : j ≤ gbs.length := Nat.lt_succ_iff.mp (mem_range.mp hj)
    simp [entriesOf, hle]
  | cube gbs =>
    rw [entriesOf, length_map]
    exact (h.2 pattern).mp hpattern
  | gsets lists =>
    obtain ⟨gbs, -, rfl⟩ := (h.2 pattern).mp hpattern
    rw [entriesOf, length_map, length_innerPattern]

theorem length_flatten_of_mem_sections {components : List (List (List Bool))}
    (h : List.Forall₂ IsPatternSet gbList components) {s : List (List Bool)}
    (hs : s ∈ components.sections) :
    s.flatten.length = (gbList.flatMap (entriesOf resolve)).length := by
  rw [mem_sections] at hs
  induction h generalizing s with
  | nil =>
    cases hs
    rfl
  | cons hpatterns _ ih =>
    cases hs with
    | cons hpattern hs =>
      rw [flatten_cons, flatMap_cons, length_append, length_append, ih hs,
        length_of_mem_patternSet hpatterns hpattern]

theorem analyzeGroupBy_eq_accepted {fuel : Nat} {gbPatterns : List (List Bool)}
    (h : analyzeGroupBy resolve fuel gbList = .accepted a gbPatterns) :
    a = addElements resolve 0 {} gbList ∧ ¬ Bad a ∧
      Odometer.run a.patternComponents flatten fuel (a.patternComponents.map fun _ ↦ 0) [] =
        some gbPatterns := by
  unfold analyzeGroupBy at h
  dsimp only at h
  split at h
  · cases h
  split at h
  · cases h
  split at h
  · cases h
  split at h
  · cases h
  split at h
  · cases h
  · rename_i hundefined _ hempty _ _ hrun
    obtain ⟨rfl, rfl⟩ := Outcome.accepted.inj h
    refine ⟨rfl, ?_, hrun⟩
    rintro (hbad | hbad)
    · exact hundefined hbad
    · exact hempty (any_eq_true.mpr ⟨[], hbad, rfl⟩)

/-- Without an error, and with bits that fit, the analysis ends. -/
theorem exists_accepted (hparsed : ∀ e ∈ gbList, e.Parsed) (hfits : ∀ e ∈ gbList, e.Fits)
    (hok : ∀ fuel, analyzeGroupBy resolve fuel gbList ≠ .rejected) :
    ∃ components, List.Forall₂ IsPatternSet gbList components ∧ ∃ enough, ∀ fuel ≥ enough,
      analyzeGroupBy resolve fuel gbList =
        .accepted (addElements resolve 0 {} gbList) (components.sections.map flatten) := by
  have hfound : (addElements resolve 0 {} gbList).foundError = false := by
    by_contra hfound
    exact hok 0 (by rw [analyzeGroupBy, if_pos (Bool.eq_true_of_not_eq_false hfound)])
  have hall := extendsAll_addElements hparsed (Nat.zero_le _) hfound
  obtain ⟨hundefined, components, hcomponents, hpatterns, hne⟩ := hall.fits hfits
  have hundefined : ¬ (addElements resolve 0 {} gbList).undefined = true := by
    rw [hundefined]
    exact Bool.false_ne_true
  have hcomponents : (addElements resolve 0 {} gbList).patternComponents = components := hcomponents
  have hn : ¬ 1 < (addElements resolve 0 {} gbList).nTemporal := by
    intro hn
    refine hok 0 ?_
    unfold analyzeGroupBy
    rw [if_neg (by simp [hfound]), if_neg hundefined, if_pos hn]
  have hempty : ¬ components.any isEmpty = true := by
    rw [any_eq_true]
    rintro ⟨patternSet, hmem, hnil⟩
    exact hne patternSet hmem (isEmpty_iff.mp hnil)
  obtain ⟨enough, hrun⟩ := Odometer.returns_run flatten hne
  refine ⟨components, hpatterns, enough, fun fuel hfuel ↦ ?_⟩
  have hrun : Odometer.run components flatten fuel (components.map fun _ ↦ 0) [] = _ :=
    hrun fuel hfuel
  unfold analyzeGroupBy
  simp only [hfound, hcomponents]
  rw [if_neg Bool.false_ne_true, if_neg hundefined, if_neg hn, if_neg hempty, hrun]

/-- **When the list is analysed as it is to be**: the bits fit, and each temporal variable stands in
the table at the position of an element by itself. -/
theorem analyzed_iff (hparsed : ∀ e ∈ gbList, e.Parsed)
    (hok : ∀ fuel, analyzeGroupBy resolve fuel gbList ≠ .rejected) : Analyzed resolve gbList ↔
      (∀ e ∈ gbList, e.Fits) ∧ Aligned (gbList.flatMap (entriesOf resolve)) gbList := by
  have hfound : (addElements resolve 0 {} gbList).foundError = false := by
    by_contra hfound
    exact hok 0 (by rw [analyzeGroupBy, if_pos (Bool.eq_true_of_not_eq_false hfound)])
  have hall := extendsAll_addElements hparsed (Nat.zero_le _) hfound
  have htable : (addElements resolve 0 {} gbList).table = gbList.flatMap (entriesOf resolve) :=
    hall.table
  have hgbvars := hall.temporalGbvars
  have hn := hall.nTemporal
  rw [drop_zero] at hgbvars hn
  rw [Nat.zero_add] at hn
  constructor
  · rintro ⟨a, gbPatterns, ⟨enough, haccepted⟩, hcorrect⟩
    obtain ⟨rfl, hbad, -⟩ := analyzeGroupBy_eq_accepted (haccepted enough le_rfl)
    refine ⟨fun e he ↦ ?_, ?_⟩
    · by_contra hfits
      exact hbad (hall.bad (.inr ⟨e, he, hfits⟩))
    · rw [← htable]
      exact aligned_of_length (hn.symm.trans hcorrect.nTemporal)
  · rintro ⟨hfits, haligned⟩
    obtain ⟨components, hpatterns, haccepted⟩ := exists_accepted hparsed hfits hok
    rw [← htable] at haligned
    rw [counted_eq_filter haligned] at hgbvars hn
    refine ⟨_, _, haccepted, htable, ⟨components, hpatterns, .refl _⟩, fun pattern hpattern ↦ ?_,
      hgbvars, hn⟩
    obtain ⟨s, hs, rfl⟩ := mem_map.mp hpattern
    rw [htable]
    exact length_flatten_of_mem_sections hpatterns hs

/-- A column of a stream. -/
def column (name : String) : Gb := ⟨true, "", "s", name, .colref ⟨"s", name, 0, 0⟩⟩

def resolveTime : Resolve := fun g ↦ some (g.name == "time")

theorem analyzed_time_rollup : Analyzed resolveTime
    [.gb (column "time"), .rollup [column "a"]] := by
  refine (analyzed_iff (by simp [ExtendedGb.Parsed]) fun fuel h ↦ ?_).mpr
    ⟨by simp [ExtendedGb.Fits], ?_⟩
  · unfold analyzeGroupBy at h
    dsimp only at h
    rw [if_neg (by decide), if_neg (by decide), if_neg (by decide), if_neg (by decide)] at h
    split at h <;> cases h
  · intro v entry hentry htemporal
    rcases v with _ | _ | v
    · exact ⟨column "time", rfl⟩
    · cases hentry
      exact absurd htemporal (by decide)
    · cases hentry

/-- After a ROLLUP, a temporal variable is not counted. -/
theorem not_analyzed_rollup_time : ¬ ∀ (resolve : Resolve) (gbList : List ExtendedGb),
    (∀ e ∈ gbList, e.Parsed) → (∀ fuel, analyzeGroupBy resolve fuel gbList ≠ .rejected) →
      Analyzed resolve gbList := by
  intro h
  obtain ⟨a, gbPatterns, ⟨enough, haccepted⟩, hcorrect⟩ :=
    h resolveTime [.rollup [column "a", column "b"], .gb (column "time")]
      (by simp [ExtendedGb.Parsed]) (by
      intro fuel h
      unfold analyzeGroupBy at h
      dsimp only at h
      rw [if_neg (by decide), if_neg (by decide), if_neg (by decide), if_neg (by decide)] at h
      split at h <;> cases h)
  obtain ⟨rfl, -, -⟩ := analyzeGroupBy_eq_accepted (haccepted enough le_rfl)
  exact absurd hcorrect.nTemporal (by decide)

end Tigon.Ftacmp.GroupBy
