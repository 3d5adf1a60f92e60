import Mathlib

/-!
# Splitting the sources of a merge

The operator that merges streams has two inputs.  A merge of more sources is split into a tree of
merges, which is returned bottom up.  `splitSources` gives one half of the sources to each of two
children, down to merges of two or three sources, and numbers the merge columns of a child after its
inputs.

The columns are objects that are handed on.  When three sources are left, the first two go to a
child, and the node keeps the last two, renaming the first of these to the output of the child: but
this is the column which the child has as its second one.

* `Splits.built` — **the tree merges exactly the sources**, if their number is a power of two;
* `Splits.misnumbered` — else a source has a column with the wrong number;
* `splitsSources_iff` — so this is when it does.
-/

set_option autoImplicit false

namespace Tigon.Ftacmp.Merge

open List

/-! ## Merge nodes -/

structure TableVar where
  machine : String
  interface : String
  schemaName : String
  variableName : String
deriving DecidableEq

/-- `new tablevar_t(name)`, and `set_range_var(r)`. -/
def TableVar.new (name r : String) : TableVar where
  machine := ""
  interface := ""
  schemaName := name
  variableName := r

structure ColRef where
  interface : String
  tableName : String
  field : String
  defaultTable : Bool
  schemaRef : Int
  tablevarRef : Int
deriving DecidableEq

/-- `new colref_t(t, f)`. -/
def ColRef.new (t f : String) : ColRef where
  interface := ""
  tableName := t
  field := f
  defaultTable := false
  schemaRef := -1
  tablevarRef := -1

def ColRef.setField (f : String) (c : ColRef) : ColRef := { c with field := f }

def ColRef.setTablevarRef (s : Int) (c : ColRef) : ColRef := { c with tablevarRef := s }

/-- Where an object is. -/
abbrev Ref := Nat

/-- The column references that have been made. -/
abbrev Heap := List ColRef

structure TableDef where
  tableName : String
  fields : List String
deriving DecidableEq

def TableDef.makeShallowCopy (n : String) (t : TableDef) : TableDef := { t with tableName := n }

def TableDef.getFieldName (t : TableDef) (i : Int) : String :=
  if 0 ≤ i then t.fields.getD i.toNat "" else ""

/-- A merge node; `rest` is what its copies share with it. -/
structure MrgQpn (ρ : Type) where
  nodeName : String
  fm : List TableVar
  mvars : List Ref
  tableLayout : TableDef
  mergeFieldpos : Int
  rest : ρ

variable {ρ : Type}

/-- A copy has no sources. -/
def MrgQpn.makeCopy (this : MrgQpn ρ) (suffix : String) : MrgQpn ρ where
  nodeName := this.nodeName ++ suffix
  fm := []
  mvars := []
  tableLayout := this.tableLayout.makeShallowCopy (this.nodeName ++ suffix)
  mergeFieldpos := this.mergeFieldpos
  rest := this.rest

/-- The name of the merge field in the output. -/
def MrgQpn.mergeField (this : MrgQpn ρ) : String := this.tableLayout.getFieldName this.mergeFieldpos

/-! ## Splitting -/

/-- The child that gets two of three sources. -/
def newMrg (this : MrgQpn ρ) : MrgQpn ρ :=
  { this.makeCopy "_cH1" with fm := this.fm.take 2, mvars := this.mvars.take 2 }

/-- The merge of this child and the third source. -/
def mergeThree (this : MrgQpn ρ) : MrgQpn ρ :=
  let fm := this.fm.drop 1
  let vname := (fm.getD 0 (TableVar.new "" "")).variableName
  { this with
    fm := fm.set 0 (TableVar.new (newMrg this).nodeName vname)
    mvars := this.mvars.drop 1 }

/-- `mvars` is what is left of them. -/
def renameThree (this : MrgQpn ρ) (mvars : List Ref) (heap : Heap) : Heap :=
  let heap := heap.modify (mvars.getD 0 0)
    (ColRef.setTablevarRef 0 ∘ ColRef.setField this.mergeField)
  heap.modify (mvars.getD 1 0) (ColRef.setTablevarRef 1)

def newMrg1 (this : MrgQpn ρ) : MrgQpn ρ :=
  { this.makeCopy "_cH1" with
    fm := this.fm.take (this.fm.length / 2)
    mvars := this.mvars.take (this.fm.length / 2) }

def newMrg2 (this : MrgQpn ρ) : MrgQpn ρ :=
  { this.makeCopy "_cH2" with
    fm := this.fm.drop (this.fm.length / 2)
    mvars := this.mvars.drop (this.fm.length / 2) }

/-- `for (i = 0; i < mvars.size(); ++i) mvars[i]->set_tablevar_ref(i);` -/
def setTablevarRefs (i : Nat) : List Ref → Heap → Heap
  | [], heap => heap
  | r :: mvars, heap => setTablevarRefs (i + 1) mvars (heap.modify r (ColRef.setTablevarRef i))

/-- The columns of both children are numbered, and the columns of the node itself are made. -/
def newCrefs (this : MrgQpn ρ) (heap : Heap) : Heap :=
  let heap := setTablevarRefs 0 (newMrg1 this).mvars heap
  let heap := setTablevarRefs 0 (newMrg2 this).mvars heap
  heap ++ [(ColRef.new "_mrg_var_1" this.mergeField).setTablevarRef 0,
    (ColRef.new "_mrg_var_2" this.mergeField).setTablevarRef 1]

/-- The merge of both children, with the columns that have just been made. -/
def mergeChildren (this : MrgQpn ρ) (heap : Heap) : MrgQpn ρ :=
  { this with
    fm := [TableVar.new (newMrg1 this).nodeName "_mrg_var_1",
      TableVar.new (newMrg2 this).nodeName "_mrg_var_2"]
    mvars := [heap.length, heap.length + 1] }

inductive Exit
  | internalError (message : String)
  | outOfFuel
deriving DecidableEq

def splitSources : Nat → MrgQpn ρ → Heap → Except Exit (List (MrgQpn ρ) × Heap)
  | 0, _, _ => .error .outOfFuel
  | fuel + 1, this, heap =>
    if this.fm.length ≠ this.mvars.length then
      .error (.internalError
        (s!"INTERNAL ERROR in mrg_qpn::split_sources.  fm.size() = {this.fm.length}, " ++
          s!"mvars.size() = {this.mvars.length}"))
    else if this.fm.length = 1 then
      .error (.internalError "INTERNAL ERROR in mrg_qpn::split_sources, fm size is 1.")
    else if this.fm.length = 2 then .ok ([this], heap)
    else if this.fm.length = 3 then
      .ok ([newMrg this, mergeThree this], renameThree this (mergeThree this).mvars heap)
    else do
      let (st1, heap₁) ← splitSources fuel (newMrg1 this) (newCrefs this heap)
      let (st2, heap₂) ← splitSources fuel (newMrg2 this) heap₁
      return (st1 ++ st2 ++ [mergeChildren this heap], heap₂)

/-! ## What the tree is to be -/

/-- An input of a node. -/
structure Slot where
  reader : String
  position : Nat
  table : TableVar
  column : Ref
deriving DecidableEq

def slotsFrom (reader : String) (position : Nat) : List (TableVar × Ref) → List Slot
  | [] => []
  | (table, column) :: inputs =>
    ⟨reader, position, table, column⟩ :: slotsFrom reader (position + 1) inputs

def MrgQpn.slots (node : MrgQpn ρ) : List Slot := slotsFrom node.nodeName 0 (node.fm.zip node.mvars)

/-- What an input is: one of the sources, or the output of a node. -/
inductive Source
  | original (i : Nat)
  | output (name : String)
deriving DecidableEq

/-- A source comes with its own merge column, in which the number of the input has been entered; the
output of a node is there before the reader of it. -/
def ComesFrom (node : MrgQpn ρ) (heap heap' : Heap) (names : List String) (s : Slot) : Source → Prop
  | .original i => node.fm[i]? = some s.table ∧ node.mvars[i]? = some s.column ∧
      heap'[s.column]? = heap[s.column]?.map (ColRef.setTablevarRef s.position)
  | .output name => s.table.schemaName = name ∧ [name, s.reader].Sublist names

/-- The column has the number of the input. -/
def Indexed (heap : Heap) (s : Slot) : Prop :=
  ∃ c, heap[s.column]? = some c ∧ c.tablevarRef = s.position

/-- The nodes merge exactly the sources. -/
structure MergesSources (node : MrgQpn ρ) (heap : Heap) (nodes : List (MrgQpn ρ))
    (heap' : Heap) : Prop where
  /-- The last node is the one that was split. -/
  root : ∃ children root, nodes = children ++ [root] ∧ root.nodeName = node.nodeName
  binary : ∀ nd ∈ nodes, nd.fm.length = 2 ∧ nd.mvars.length = 2
  distinct : (nodes.map MrgQpn.nodeName).Nodup
  indexed : ∀ s ∈ nodes.flatMap MrgQpn.slots, s.table ∈ node.fm → Indexed heap' s
  /-- Each source, and each node but the last one, is an input once. -/
  sources : ∃ sources, List.Forall₂ (ComesFrom node heap heap' (nodes.map MrgQpn.nodeName))
    (nodes.flatMap MrgQpn.slots) sources ∧
      sources.Perm ((range node.fm.length).map Source.original ++ nodes.dropLast.map fun nd ↦
        Source.output nd.nodeName)

/-- The recursion ends, and the nodes that are returned merge exactly the sources. -/
def SplitsSources (node : MrgQpn ρ) (heap : Heap) : Prop :=
  ∃ nodes heap', (∃ enough, ∀ fuel ≥ enough, splitSources fuel node heap = .ok (nodes, heap')) ∧
    MergesSources node heap nodes heap'

/-! ## Numbering the columns -/

variable {node : MrgQpn ρ} {nodes st1 st2 : List (MrgQpn ρ)} {heap heap₁ heap₂ heap' : Heap}
  {mvars : List Ref} {r : Ref}

theorem length_setTablevarRefs (i : Nat) (mvars : List Ref) (heap : Heap) :
    (setTablevarRefs i mvars heap).length = heap.length := by
  induction mvars generalizing i heap with
  | nil => rfl
  | cons r mvars ih => rw [setTablevarRefs, ih, length_modify]

theorem getElem?_setTablevarRefs_of_notMem (hr : r ∉ mvars) (i : Nat) (heap : Heap) :
    (setTablevarRefs i mvars heap)[r]? = heap[r]? := by
  induction mvars generalizing i heap with
  | nil => rfl
  | cons r' mvars ih =>
    rw [mem_cons, not_or] at hr
    rw [setTablevarRefs, ih hr.2, getElem?_modify_ne _ _ (Ne.symm hr.1)]

theorem getElem?_setTablevarRefs (hnodup : mvars.Nodup) {j : Nat} (hj : mvars[j]? = some r)
    (i : Nat) (heap : Heap) : (setTablevarRefs i mvars heap)[r]? =
      heap[r]?.map (ColRef.setTablevarRef ((i + j : Nat) : Int)) := by
  induction mvars generalizing i j heap with
  | nil => cases hj
  | cons r' mvars ih =>
    obtain ⟨hr', hnodup⟩ := nodup_cons.mp hnodup
    rw [setTablevarRefs]
    cases j with
    | zero =>
      cases hj
      rw [getElem?_setTablevarRefs_of_notMem hr', getElem?_modify_eq]
      rfl
    | succ j =>
      have hne : r' ≠ r := by
        rintro rfl
        exact hr' (mem_of_getElem? hj)
      rw [ih hnodup hj, getElem?_modify_ne _ _ hne]
      congr 3
      omega

/-! ## Nodes that can be split -/

/-- The sources have merge columns of their own. -/
structure Valid (node : MrgQpn ρ) (heap : Heap) : Prop where
  length : node.fm.length = node.mvars.length
  two_le : 2 ≤ node.fm.length
  nodup : node.mvars.Nodup
  lt : ∀ r ∈ node.mvars, r < heap.length

theorem length_newCrefs (node : MrgQpn ρ) (heap : Heap) : (newCrefs node heap).length =
    heap.length + 2 := by
  simp only [newCrefs, length_append, length_setTablevarRefs, length_cons,
    length_nil]

theorem mvars_append (node : MrgQpn ρ) : (newMrg1 node).mvars ++ (newMrg2 node).mvars =
    node.mvars :=
  take_append_drop _ _

theorem mem_mvars_iff : r ∈ node.mvars ↔ r ∈ (newMrg1 node).mvars ∨ r ∈ (newMrg2 node).mvars := by
  rw [← mvars_append node, mem_append]

theorem Valid.disjoint (h : Valid node heap) : List.Disjoint (newMrg1 node).mvars
    (newMrg2 node).mvars := by
  have hnodup := h.nodup
  rw [← mvars_append node] at hnodup
  exact disjoint_of_nodup_append hnodup

theorem Valid.nodup_fst (h : Valid node heap) : (newMrg1 node).mvars.Nodup :=
  h.nodup.sublist (take_sublist _ _)

theorem Valid.nodup_snd (h : Valid node heap) : (newMrg2 node).mvars.Nodup :=
  h.nodup.sublist (drop_sublist _ _)

theorem getElem?_newCrefs_of_notMem (hr : r ∉ node.mvars) (hlt : r < heap.length) :
    (newCrefs node heap)[r]? = heap[r]? := by
  rw [mem_mvars_iff, not_or] at hr
  rw [newCrefs, getElem?_append_left (by simpa only [length_setTablevarRefs] using hlt),
    getElem?_setTablevarRefs_of_notMem hr.2, getElem?_setTablevarRefs_of_notMem hr.1]

theorem Valid.getElem?_newCrefs_fst (h : Valid node heap) {j : Nat}
    (hj : (newMrg1 node).mvars[j]? = some r) : (newCrefs node heap)[r]? =
      heap[r]?.map (ColRef.setTablevarRef (j : Int)) := by
  have hmem := mem_of_getElem? hj
  have hlt := h.lt r (mem_mvars_iff.mpr (.inl hmem))
  rw [newCrefs, getElem?_append_left (by simpa only [length_setTablevarRefs] using hlt),
    getElem?_setTablevarRefs_of_notMem (fun hr ↦ h.disjoint hmem hr),
    getElem?_setTablevarRefs h.nodup_fst hj, Nat.zero_add]

theorem Valid.getElem?_newCrefs_snd (h : Valid node heap) {j : Nat}
    (hj : (newMrg2 node).mvars[j]? = some r) : (newCrefs node heap)[r]? =
      heap[r]?.map (ColRef.setTablevarRef (j : Int)) := by
  have hmem := mem_of_getElem? hj
  have hlt := h.lt r (mem_mvars_iff.mpr (.inr hmem))
  rw [newCrefs, getElem?_append_left (by simpa only [length_setTablevarRefs] using hlt),
    getElem?_setTablevarRefs h.nodup_snd hj,
    getElem?_setTablevarRefs_of_notMem (fun hr ↦ h.disjoint hr hmem), Nat.zero_add]

theorem Valid.newMrg1 (h : Valid node heap) (hfour : 4 ≤ node.fm.length)
    (hle : heap.length ≤ heap'.length) : Valid (newMrg1 node) heap' where
  length := by
    show (node.fm.take _).length = (node.mvars.take _).length
    rw [length_take, length_take, ← h.length]
  two_le := by
    show 2 ≤ (node.fm.take _).length
    rw [length_take]
    omega
  nodup := h.nodup_fst
  lt r hr := lt_of_lt_of_le (h.lt r (mem_of_mem_take hr)) hle

theorem Valid.newMrg2 (h : Valid node heap) (hfour : 4 ≤ node.fm.length)
    (hle : heap.length ≤ heap'.length) : Valid (newMrg2 node) heap' where
  length := by
    show (node.fm.drop _).length = (node.mvars.drop _).length
    rw [length_drop, length_drop, ← h.length]
  two_le := by
    show 2 ≤ (node.fm.drop _).length
    rw [length_drop]
    omega
  nodup := h.nodup_snd
  lt r hr := lt_of_lt_of_le (h.lt r (mem_of_mem_drop hr)) hle

/-! ## The recursion -/

/-- What the recursion returns. -/
inductive Splits : MrgQpn ρ → Heap → List (MrgQpn ρ) → Heap → Prop
  | two {node : MrgQpn ρ} {heap : Heap} (htwo : node.fm.length = 2) : Splits node heap [node] heap
  | three {node : MrgQpn ρ} {heap : Heap} (hthree : node.fm.length = 3) :
    Splits node heap [newMrg node, mergeThree node] (renameThree node (mergeThree node).mvars heap)
  | halves {node : MrgQpn ρ} {heap heap₁ heap₂ : Heap} {st1 st2 : List (MrgQpn ρ)}
    (hfour : 4 ≤ node.fm.length) (h₁ : Splits (newMrg1 node) (newCrefs node heap) st1 heap₁)
    (h₂ : Splits (newMrg2 node) heap₁ st2 heap₂) :
    Splits node heap (st1 ++ st2 ++ [mergeChildren node heap]) heap₂

/-- What was there stays as it is, up to the merge columns of the node. -/
structure Frames (node : MrgQpn ρ) (heap heap' : Heap) : Prop where
  le : heap.length ≤ heap'.length
  getElem? : ∀ r < heap.length, r ∉ node.mvars → heap'[r]? = heap[r]?

theorem frames_newCrefs (node : MrgQpn ρ) (heap : Heap) :
    Frames node heap (newCrefs node heap) where
  le := by rw [length_newCrefs]; omega
  getElem? _ hlt hr := getElem?_newCrefs_of_notMem hr hlt

theorem Splits.frames (h : Splits node heap nodes heap') (hv : Valid node heap) :
    Frames node heap heap' := by
  induction h with
  | two _ => exact ⟨le_rfl, fun _ _ _ ↦ rfl⟩
  | @three node heap hthree =>
    obtain ⟨v₀, v₁, v₂, hmvars⟩ := length_eq_three.mp (hv.length.symm.trans hthree)
    refine ⟨by simp only [renameThree, length_modify, le_refl], fun r _ hr ↦ ?_⟩
    rw [hmvars] at hr
    simp only [mem_cons, not_mem_nil, or_false, not_or] at hr
    show (renameThree node (node.mvars.drop 1) heap)[r]? = _
    rw [hmvars, renameThree]
    show ((heap.modify v₁ _).modify v₂ _)[r]? = _
    rw [getElem?_modify_ne _ _ (Ne.symm hr.2.2), getElem?_modify_ne _ _ (Ne.symm hr.2.1)]
  | @halves node heap heap₁ heap₂ st1 st2 hfour _ _ ih₁ ih₂ =>
    have hnew := frames_newCrefs node heap
    have hfst := ih₁ (hv.newMrg1 hfour hnew.le)
    have hsnd := ih₂ (hv.newMrg2 hfour (hnew.le.trans hfst.le))
    refine ⟨hnew.le.trans (hfst.le.trans hsnd.le), fun r hlt hr ↦ ?_⟩
    have hr' := hr
    rw [mem_mvars_iff, not_or] at hr'
    have hlt₁ := lt_of_lt_of_le hlt hnew.le
    rw [hsnd.getElem? r (lt_of_lt_of_le hlt₁ hfst.le) hr'.2, hfst.getElem? r hlt₁ hr'.1,
      hnew.getElem? r hlt hr]

/-- **The recursion ends.** -/
theorem exists_splits (hv : Valid node heap) : ∃ nodes heap', Splits node heap nodes heap' ∧
    ∀ fuel ≥ node.fm.length, splitSources fuel node heap = .ok (nodes, heap') := by
  induction hn : node.fm.length using Nat.strong_induction_on generalizing node heap with
  | _ n ih =>
    subst hn
    have htwo := hv.two_le
    have hlength : ¬ node.fm.length ≠ node.mvars.length := not_not.mpr hv.length
    have hcases : node.fm.length = 2 ∨ node.fm.length = 3 ∨ 4 ≤ node.fm.length := by omega
    rcases hcases with h | h | hfour
    · refine ⟨_, _, .two h, fun fuel hfuel ↦ ?_⟩
      obtain ⟨fuel, rfl⟩ := Nat.exists_eq_add_of_le' (le_trans (by omega : 1 ≤ _) hfuel)
      rw [splitSources, if_neg hlength, if_neg (by omega), if_pos h]
    · refine ⟨_, _, .three h, fun fuel hfuel ↦ ?_⟩
      obtain ⟨fuel, rfl⟩ := Nat.exists_eq_add_of_le' (le_trans (by omega : 1 ≤ _) hfuel)
      rw [splitSources, if_neg hlength, if_neg (by omega), if_neg (by omega), if_pos h]
    · have hnew := frames_newCrefs node heap
      have hv₁ := hv.newMrg1 hfour hnew.le
      have hlt₁ : (newMrg1 node).fm.length < node.fm.length := by
        show (node.fm.take _).length < _
        rw [length_take]
        omega
      obtain ⟨st1, heap₁, hsplits₁, hrun₁⟩ := ih _ hlt₁ hv₁ rfl
      have hv₂ := hv.newMrg2 hfour (hnew.le.trans (hsplits₁.frames hv₁).le)
      have hlt₂ : (newMrg2 node).fm.length < node.fm.length := by
        show (node.fm.drop _).length < _
        rw [length_drop]
        omega
      obtain ⟨st2, heap₂, hsplits₂, hrun₂⟩ := ih _ hlt₂ hv₂ rfl
      refine ⟨_, _, .halves hfour hsplits₁ hsplits₂, fun fuel hfuel ↦ ?_⟩
      obtain ⟨fuel, rfl⟩ := Nat.exists_eq_add_of_le' (le_trans (by omega : 1 ≤ _) hfuel)
      rw [splitSources, if_neg hlength, if_neg (by omega), if_neg (by omega), if_neg (by omega),
        hrun₁ fuel (by omega)]
      show (splitSources fuel (newMrg2 node) heap₁ >>= _) = _
      rw [hrun₂ fuel (by omega)]
      rfl

theorem splitsSources_iff_of_returns
    (hrun : ∀ fuel ≥ node.fm.length, splitSources fuel node heap = .ok (nodes, heap')) :
    SplitsSources node heap ↔ MergesSources node heap nodes heap' := by
  constructor
  · rintro ⟨nodes', heap'', ⟨enough, henough⟩, hmerges⟩
    have h₁ := henough (max enough node.fm.length) (le_max_left _ _)
    rw [hrun _ (le_max_right _ _)] at h₁
    cases h₁
    exact hmerges
  · exact fun hmerges ↦ ⟨_, _, ⟨_, hrun⟩, hmerges⟩

/-! ## Numbers of sources that are not powers of two -/

theorem fm_append (node : MrgQpn ρ) : (newMrg1 node).fm ++ (newMrg2 node).fm = node.fm :=
  take_append_drop _ _

/-- An input that is a source, with a merge column that has the wrong number. -/
def Misnumbered (node : MrgQpn ρ) (nodes : List (MrgQpn ρ)) (heap' : Heap) : Prop :=
  ∃ s ∈ nodes.flatMap MrgQpn.slots, s.table ∈ node.fm ∧ s.column ∈ node.mvars ∧ ¬ Indexed heap' s

theorem two_pow_of_halves {n : Nat} (hfour : 4 ≤ n) (h₁ : ∃ k, n / 2 = 2 ^ k)
    (h₂ : ∃ k, n - n / 2 = 2 ^ k) : ∃ k, n = 2 ^ k := by
  obtain ⟨a, ha⟩ := h₁
  obtain ⟨b, hb⟩ := h₂
  -- the halves differ by one at most, and both are even
  have heven : ∀ k : Nat, 2 ≤ 2 ^ k → 2 ∣ 2 ^ k := by
    intro k hk
    cases k with
    | zero => simp at hk
    | succ k => exact ⟨2 ^ k, pow_succ' 2 k⟩
  obtain ⟨c, hc⟩ := heven a (by omega)
  obtain ⟨d, hd⟩ := heven b (by omega)
  exact ⟨a + 1, by rw [pow_succ]; omega⟩

/-- **Where three sources are left, a column has two numbers.** -/
theorem Splits.misnumbered (h : Splits node heap nodes heap') (hv : Valid node heap)
    (hpow : ¬ ∃ k, node.fm.length = 2 ^ k) : Misnumbered node nodes heap' := by
  induction h with
  | two htwo => exact absurd ⟨1, htwo⟩ hpow
  | @three node heap hthree =>
    obtain ⟨v₀, v₁, v₂, hmvars⟩ := length_eq_three.mp (hv.length.symm.trans hthree)
    obtain ⟨t₀, t₁, t₂, hfm⟩ := length_eq_three.mp hthree
    refine ⟨⟨(newMrg node).nodeName, 1, t₁, v₁⟩, ?_, by simp [hfm], by simp [hmvars], ?_⟩
    · have hslots : (newMrg node).slots =
        [⟨(newMrg node).nodeName, 0, t₀, v₀⟩, ⟨(newMrg node).nodeName, 1, t₁, v₁⟩] := by
        show slotsFrom _ 0 ((node.fm.take 2).zip (node.mvars.take 2)) = _
        rw [hfm, hmvars]
        rfl
      rw [flatMap_cons, hslots]
      simp
    · have hne : v₂ ≠ v₁ := by
        have hnodup := hv.nodup
        rw [hmvars] at hnodup
        rintro rfl
        simp at hnodup
      rintro ⟨c, hc, hindex⟩
      have hrename : (renameThree node (node.mvars.drop 1) heap)[v₁]? =
          heap[v₁]?.map (ColRef.setTablevarRef 0 ∘ ColRef.setField node.mergeField) := by
        rw [hmvars, renameThree]
        show ((heap.modify v₁ _).modify v₂ _)[v₁]? = _
        rw [getElem?_modify_ne _ _ hne, getElem?_modify_eq]
        rfl
      obtain ⟨c', -, rfl⟩ := Option.map_eq_some_iff.mp (hrename.symm.trans hc)
      cases hindex
  | @halves node heap heap₁ heap₂ st1 st2 hfour h₁ h₂ ih₁ ih₂ =>
    have hnew := frames_newCrefs node heap
    have hv₁ := hv.newMrg1 hfour hnew.le
    have hfst := h₁.frames hv₁
    have hv₂ := hv.newMrg2 hfour (hnew.le.trans hfst.le)
    have hslots : (st1 ++ st2 ++ [mergeChildren node heap]).flatMap MrgQpn.slots =
        st1.flatMap MrgQpn.slots ++ (st2.flatMap MrgQpn.slots ++ (mergeChildren node heap).slots) :=
          by simp
    have hlen₁ : (newMrg1 node).fm.length = node.fm.length / 2 := by
      show (node.fm.take _).length = _
      rw [length_take]
      omega
    have hlen₂ : (newMrg2 node).fm.length = node.fm.length - node.fm.length / 2 := length_drop
    have hchild : (¬ ∃ k, (newMrg1 node).fm.length = 2 ^ k) ∨ ¬ ∃ k,
      (newMrg2 node).fm.length = 2 ^ k := by
      rw [hlen₁, hlen₂, ← not_and_or]
      rintro ⟨h₁, h₂⟩
      exact hpow (two_pow_of_halves hfour h₁ h₂)
    rcases hchild with hchild | hchild
    · obtain ⟨s, hs, htable, hcolumn, hindexed⟩ := ih₁ hv₁ hchild
      refine ⟨s, ?_, ?_, mem_mvars_iff.mpr (.inl hcolumn), ?_⟩
      · rw [hslots]
        exact mem_append_left _ hs
      · rw [← fm_append]
        exact mem_append_left _ htable
      · rwa [Indexed, (h₂.frames hv₂).getElem? s.column (lt_of_lt_of_le (hv₁.lt _ hcolumn) hfst.le)
          (fun hmem ↦ hv.disjoint hcolumn hmem)]
    · obtain ⟨s, hs, htable, hcolumn, hindexed⟩ := ih₂ hv₂ hchild
      refine ⟨s, ?_, ?_, mem_mvars_iff.mpr (.inr hcolumn), hindexed⟩
      · rw [hslots]
        exact mem_append_right _ (mem_append_left _ hs)
      · rw [← fm_append]
        exact mem_append_right _ htable

/-! ## Powers of two -/

/-- The merge columns have the numbers of the sources. -/
def Numbered (node : MrgQpn ρ) (heap : Heap) : Prop :=
  ∀ (j : Nat) (r : Ref), node.mvars[j]? = some r → ∃ c, heap[r]? = some c ∧ c.tablevarRef = j

/-- The nodes merge the sources, and they are named after the node that was split. -/
structure Built (node : MrgQpn ρ) (heap : Heap) (nodes : List (MrgQpn ρ))
    (heap' : Heap) : Prop where
  root : ∃ children root, nodes = children ++ [root] ∧ root.nodeName = node.nodeName
  binary : ∀ nd ∈ nodes, nd.fm.length = 2 ∧ nd.mvars.length = 2
  under : ∀ nd ∈ nodes, node.nodeName.toList <+: nd.nodeName.toList
  distinct : (nodes.map MrgQpn.nodeName).Nodup
  columns : ∀ s ∈ nodes.flatMap MrgQpn.slots, s.column ∈ node.mvars ∨ heap.length ≤ s.column
  indexed : ∀ s ∈ nodes.flatMap MrgQpn.slots, Indexed heap' s
  sources : ∃ sources, List.Forall₂ (ComesFrom node heap heap' (nodes.map MrgQpn.nodeName))
    (nodes.flatMap MrgQpn.slots) sources ∧
      sources.Perm ((range node.fm.length).map Source.original ++ nodes.dropLast.map fun nd ↦
        Source.output nd.nodeName)

theorem Built.mergesSources (h : Built node heap nodes heap') :
    MergesSources node heap nodes heap' where
  root := h.root
  binary := h.binary
  distinct := h.distinct
  indexed s hs _ := h.indexed s hs
  sources := h.sources

theorem built_two (htwo : node.fm.length = 2) (hv : Valid node heap)
    (hnumbered : Numbered node heap) : Built node heap [node] heap := by
  obtain ⟨t₀, t₁, hfm⟩ := length_eq_two.mp htwo
  obtain ⟨v₀, v₁, hmvars⟩ := length_eq_two.mp (hv.length.symm.trans htwo)
  have hslots : [node].flatMap MrgQpn.slots =
    [⟨node.nodeName, 0, t₀, v₀⟩, ⟨node.nodeName, 1, t₁, v₁⟩] := by
    rw [flatMap_singleton, MrgQpn.slots, hfm, hmvars]
    rfl
  have h₀ : ∃ c, heap[v₀]? = some c ∧ c.tablevarRef = ((0 : Nat) : Int) :=
    hnumbered 0 v₀ (by rw [hmvars]; rfl)
  have h₁ : ∃ c, heap[v₁]? = some c ∧ c.tablevarRef = ((1 : Nat) : Int) :=
    hnumbered 1 v₁ (by rw [hmvars]; rfl)
  have hsame : ∀ {v : Ref} {j : Nat}, (∃ c, heap[v]? = some c ∧ c.tablevarRef = (j : Int)) →
      heap[v]? = heap[v]?.map (ColRef.setTablevarRef (j : Int)) := by
    rintro v j ⟨c, hc, hindex⟩
    rw [hc, ← hindex]
    rfl
  refine ⟨⟨[], node, rfl, rfl⟩, ?_, ?_, nodup_singleton _, ?_, ?_, ?_⟩
  · intro nd hnd
    rw [mem_singleton.mp hnd]
    exact ⟨htwo, hv.length.symm.trans htwo⟩
  · intro nd hnd
    rw [mem_singleton.mp hnd]
  · intro s hs
    rw [hslots] at hs
    rw [hmvars]
    rcases mem_cons.mp hs with rfl | hs
    · exact .inl mem_cons_self
    · rw [mem_singleton.mp hs]
      exact .inl (mem_cons_of_mem _ mem_cons_self)
  · intro s hs
    rw [hslots] at hs
    rcases mem_cons.mp hs with rfl | hs
    · exact h₀
    · rw [mem_singleton.mp hs]
      exact h₁
  · refine ⟨[.original 0, .original 1], ?_, ?_⟩
    · rw [hslots]
      refine .cons ⟨by rw [hfm]; rfl, by rw [hmvars]; rfl, hsame h₀⟩
        (.cons ⟨by rw [hfm]; rfl, by rw [hmvars]; rfl, hsame h₁⟩ .nil)
    · rw [htwo]
      exact List.Perm.refl _

/-! ### Both halves -/

/-- The sources of the second child come behind those of the first one. -/
def Source.shift (n : Nat) : Source → Source
  | .original i => .original (n + i)
  | .output name => .output name

theorem perm_sources {n m : Nat} {outputs₁ outputs₂ sources₁ sources₂ : List Source}
    {c₁ c₂ : Source} (houtputs : outputs₂.map (Source.shift n) = outputs₂)
    (h₁ : sources₁.Perm ((range n).map Source.original ++ outputs₁))
    (h₂ : sources₂.Perm ((range m).map Source.original ++ outputs₂)) :
    (sources₁ ++ sources₂.map (Source.shift n) ++ [c₁, c₂]).Perm
      ((range (n + m)).map Source.original ++ ((outputs₁ ++ [c₁]) ++ (outputs₂ ++ [c₂]))) := by
  have hshift := h₂.map (Source.shift n)
  rw [map_append, map_map, houtputs] at hshift
  have hrange : (range (n + m)).map Source.original =
      (range n).map Source.original ++ (range m).map
      (Source.shift n ∘ Source.original) := by
    rw [range_add, map_append, map_map]
    rfl
  rw [hrange]
  refine ((h₁.append hshift).append_right _).trans ?_
  rw [perm_iff_count]
  intro a
  simp only [count_append, count_cons, count_nil]
  omega

theorem not_prefix_self (s suffix : String) (hsuffix : 0 < suffix.toList.length) :
    ¬ (s ++ suffix).toList <+: s.toList := by
  intro h
  have hle := h.length_le
  rw [String.toList_append, length_append] at hle
  omega

theorem ne_of_under {a b s : String} (ha : (s ++ "_cH1").toList <+: a.toList)
    (hb : (s ++ "_cH2").toList <+: b.toList) : a ≠ b := by
  rintro rfl
  have hlength : (s ++ "_cH1").toList.length = (s ++ "_cH2").toList.length := by
    rw [String.toList_append, String.toList_append, length_append, length_append]
    simp
  have heq := prefix_of_prefix_length_le ha hb hlength.le |>.eq_of_length hlength
  rw [String.toList_append, String.toList_append] at heq
  exact absurd (append_cancel_left heq) (by simp)

theorem comesFrom_fst (hv : Valid node heap)
    (hframe₁ : Frames (newMrg1 node) (newCrefs node heap) heap₁)
    (hframe₂ : Frames (newMrg2 node) heap₁ heap₂) {names₁ names : List String}
    (hnames : names₁.Sublist names) {s : Slot}
    {source : Source} (h : ComesFrom (newMrg1 node) (newCrefs node heap) heap₁ names₁ s source) :
    ComesFrom node heap heap₂ names s source := by
  cases source with
  | output name => exact ⟨h.1, h.2.trans hnames⟩
  | original i =>
    obtain ⟨htable, hcolumn, hheap⟩ := h
    have hmem := mem_of_getElem? hcolumn
    have hlt := hv.lt _ (mem_mvars_iff.mpr (.inl hmem))
    refine ⟨?_, ?_, ?_⟩
    · rw [← fm_append]
      exact List.getElem?_append_left (List.getElem?_eq_some_iff.mp htable).1 |>.trans htable
    · rw [← mvars_append]
      exact List.getElem?_append_left (List.getElem?_eq_some_iff.mp hcolumn).1 |>.trans hcolumn
    · rw [hframe₂.getElem? _ (lt_of_lt_of_le hlt ((frames_newCrefs node heap).le.trans hframe₁.le))
        fun hr ↦ hv.disjoint hmem hr, hheap, hv.getElem?_newCrefs_fst hcolumn, Option.map_map]
      rfl

theorem comesFrom_snd (hv : Valid node heap)
    (hframe₁ : Frames (newMrg1 node) (newCrefs node heap) heap₁) {names₂ names : List String}
    (hnames : names₂.Sublist names) {s : Slot} {source : Source}
    (h : ComesFrom (newMrg2 node) heap₁ heap₂ names₂ s source) :
    ComesFrom node heap heap₂ names s (source.shift (newMrg1 node).fm.length) := by
  cases source with
  | output name => exact ⟨h.1, h.2.trans hnames⟩
  | original i =>
    obtain ⟨htable, hcolumn, hheap⟩ := h
    have hmem := mem_of_getElem? hcolumn
    have hlt := hv.lt _ (mem_mvars_iff.mpr (.inr hmem))
    have hlength : (newMrg1 node).fm.length = (newMrg1 node).mvars.length := by
      show (node.fm.take _).length = (node.mvars.take _).length
      rw [length_take, length_take, ← hv.length]
    refine ⟨?_, ?_, ?_⟩
    · rw [← fm_append, getElem?_append_right (Nat.le_add_right _ _), Nat.add_sub_cancel_left]
      exact htable
    · rw [← mvars_append, hlength, getElem?_append_right (Nat.le_add_right _ _),
        Nat.add_sub_cancel_left]
      exact hcolumn
    · rw [hheap, hframe₁.getElem? _ (lt_of_lt_of_le hlt (frames_newCrefs node heap).le) fun hr ↦
        hv.disjoint hr hmem, hv.getElem?_newCrefs_snd hcolumn, Option.map_map]
      rfl

theorem Built.map_nodeName (h : Built node heap nodes heap') :
    nodes.map MrgQpn.nodeName = nodes.dropLast.map MrgQpn.nodeName ++ [node.nodeName] := by
  obtain ⟨children, root, rfl, hroot⟩ := h.root
  rw [dropLast_concat, map_append, ← hroot]
  rfl

/-- The columns that are made have their numbers. -/
theorem getElem?_newCrefs_made (node : MrgQpn ρ) (heap : Heap) :
    (newCrefs node heap)[heap.length]? =
      some ((ColRef.new "_mrg_var_1" node.mergeField).setTablevarRef 0) ∧
      (newCrefs node heap)[heap.length + 1]? =
        some ((ColRef.new "_mrg_var_2" node.mergeField).setTablevarRef 1) := by
  have hlength : (setTablevarRefs 0 (newMrg2 node).mvars
    (setTablevarRefs 0 (newMrg1 node).mvars heap)).length = heap.length := by
    rw [length_setTablevarRefs, length_setTablevarRefs]
  constructor
  · rw [newCrefs, getElem?_append_right hlength.le, hlength, Nat.sub_self]
    rfl
  · rw [newCrefs, getElem?_append_right (by rw [hlength]; omega), hlength,
      Nat.add_sub_cancel_left]
    rfl

/-- **Two trees are made one.** -/
theorem built_halves (hv : Valid node heap)
    (hframe₁ : Frames (newMrg1 node) (newCrefs node heap) heap₁)
    (hframe₂ : Frames (newMrg2 node) heap₁ heap₂)
    (hbuilt₁ : Built (newMrg1 node) (newCrefs node heap) st1 heap₁)
    (hbuilt₂ : Built (newMrg2 node) heap₁ st2 heap₂) :
    Built node heap (st1 ++ st2 ++ [mergeChildren node heap]) heap₂ := by
  have hnew := frames_newCrefs node heap
  have hnames : (st1 ++ st2 ++ [mergeChildren node heap]).map MrgQpn.nodeName =
      st1.map MrgQpn.nodeName ++ st2.map MrgQpn.nodeName ++ [node.nodeName] := by
    rw [map_append, map_append]
    rfl
  have hroot : (mergeChildren node heap).slots =
      [⟨node.nodeName, 0, TableVar.new (newMrg1 node).nodeName "_mrg_var_1", heap.length⟩,
        ⟨node.nodeName, 1, TableVar.new (newMrg2 node).nodeName "_mrg_var_2",
          heap.length + 1⟩] := rfl
  have hslots : (st1 ++ st2 ++ [mergeChildren node heap]).flatMap MrgQpn.slots =
      st1.flatMap MrgQpn.slots ++ st2.flatMap MrgQpn.slots ++ (mergeChildren node heap).slots := by
    rw [flatMap_append, flatMap_append, flatMap_singleton]
  have hunder : ∀ suffix : String, node.nodeName.toList <+: (node.nodeName ++ suffix).toList :=
    fun suffix ↦ by
    rw [String.toList_append]
    exact prefix_append _ _
  refine ⟨⟨_, _, rfl, rfl⟩, ?_, ?_, ?_, ?_, ?_, ?_⟩
  · intro nd hnd
    rw [mem_append, mem_append, mem_singleton] at hnd
    rcases hnd with (hnd | hnd) | rfl
    · exact hbuilt₁.binary nd hnd
    · exact hbuilt₂.binary nd hnd
    · exact ⟨rfl, rfl⟩
  · intro nd hnd
    rw [mem_append, mem_append, mem_singleton] at hnd
    rcases hnd with (hnd | hnd) | rfl
    · exact (hunder "_cH1").trans (hbuilt₁.under nd hnd)
    · exact (hunder "_cH2").trans (hbuilt₂.under nd hnd)
    · exact prefix_refl _
  · rw [hnames]
    refine (hbuilt₁.distinct.append hbuilt₂.distinct ?_).append (nodup_singleton _) ?_
    · intro name h₁ h₂
      obtain ⟨a, ha, rfl⟩ := mem_map.mp h₁
      obtain ⟨b, hb, heq⟩ := mem_map.mp h₂
      exact ne_of_under (hbuilt₁.under a ha) (hbuilt₂.under b hb) heq.symm
    · rw [disjoint_singleton]
      intro h
      rw [mem_append, mem_map, mem_map] at h
      rcases h with ⟨a, ha, heq⟩ | ⟨a, ha, heq⟩
      · have hunder := hbuilt₁.under a ha
        rw [heq] at hunder
        exact not_prefix_self node.nodeName "_cH1" (by simp) hunder
      · have hunder := hbuilt₂.under a ha
        rw [heq] at hunder
        exact not_prefix_self node.nodeName "_cH2" (by simp) hunder
  · intro s hs
    rw [hslots, mem_append, mem_append] at hs
    rcases hs with (hs | hs) | hs
    · exact (hbuilt₁.columns s hs).imp (fun h ↦ mem_mvars_iff.mpr (.inl h))
        (fun h ↦ hnew.le.trans h)
    · exact (hbuilt₂.columns s hs).imp (fun h ↦ mem_mvars_iff.mpr (.inr h))
        (fun h ↦ (hnew.le.trans hframe₁.le).trans h)
    · rw [hroot] at hs
      rcases mem_cons.mp hs with rfl | hs
      · exact .inr le_rfl
      · rw [mem_singleton.mp hs]
        exact .inr (Nat.le_succ _)
  · intro s hs
    rw [hslots, mem_append, mem_append] at hs
    rcases hs with (hs | hs) | hs
    · obtain ⟨c, hc, hindex⟩ := hbuilt₁.indexed s hs
      refine ⟨c, ?_, hindex⟩
      rw [hframe₂.getElem? s.column (List.getElem?_eq_some_iff.mp hc).1 ?_, hc]
      intro hmem
      rcases hbuilt₁.columns s hs with h | h
      · exact hv.disjoint h hmem
      · have hlt := hv.lt _ (mem_mvars_iff.mpr (.inr hmem))
        exact absurd (lt_of_lt_of_le hlt (hnew.le.trans h)) (lt_irrefl _)
    · exact hbuilt₂.indexed s hs
    · have hmade : ∀ (r : Ref) (c : ColRef), heap.length ≤ r → (newCrefs node heap)[r]? = some c →
        heap₂[r]? = some c := by
        intro r c hle hc
        have hlt := (List.getElem?_eq_some_iff.mp hc).1
        have hout : ∀ r' ∈ node.mvars, r' ≠ r := fun r' hr' ↦ (lt_of_lt_of_le (hv.lt r' hr') hle).ne
        rw [hframe₂.getElem? r (lt_of_lt_of_le hlt hframe₁.le)
          (fun h ↦ hout r (mem_mvars_iff.mpr (.inr h)) rfl),
            hframe₁.getElem? r hlt (fun h ↦ hout r (mem_mvars_iff.mpr (.inl h)) rfl), hc]
      rw [hroot] at hs
      rcases mem_cons.mp hs with rfl | hs
      · exact ⟨_, hmade _ _ le_rfl (getElem?_newCrefs_made node heap).1, rfl⟩
      · rw [mem_singleton.mp hs]
        exact ⟨_, hmade _ _ (Nat.le_succ _) (getElem?_newCrefs_made node heap).2, rfl⟩
  · obtain ⟨sources₁, hfrom₁, hperm₁⟩ := hbuilt₁.sources
    obtain ⟨sources₂, hfrom₂, hperm₂⟩ := hbuilt₂.sources
    have hsublist₁ : (st1.map MrgQpn.nodeName).Sublist
        (st1.map MrgQpn.nodeName ++ st2.map MrgQpn.nodeName ++ [node.nodeName]) := by
      rw [append_assoc]
      exact sublist_append_left _ _
    have hsublist₂ : (st2.map MrgQpn.nodeName).Sublist
        (st1.map MrgQpn.nodeName ++ st2.map MrgQpn.nodeName ++ [node.nodeName]) :=
      (sublist_append_right _ _).trans (sublist_append_left _ _)
    have hbefore : ∀ name ∈ st1.map MrgQpn.nodeName ++ st2.map MrgQpn.nodeName,
        [name, node.nodeName].Sublist
        (st1.map MrgQpn.nodeName ++ st2.map MrgQpn.nodeName ++ [node.nodeName]) := fun name hname ↦
      (singleton_sublist.mpr hname).append (List.Sublist.refl [node.nodeName])
    refine ⟨sources₁ ++ sources₂.map (Source.shift (newMrg1 node).fm.length) ++
      [.output (newMrg1 node).nodeName, .output (newMrg2 node).nodeName], ?_, ?_⟩
    · rw [hnames, hslots]
      refine rel_append (rel_append ?_ ?_) ?_
      · exact hfrom₁.imp fun s source h ↦ comesFrom_fst hv hframe₁ hframe₂ hsublist₁ h
      · rw [forall₂_map_right_iff]
        exact hfrom₂.imp fun s source h ↦ comesFrom_snd hv hframe₁ hsublist₂ h
      · rw [hroot]
        refine .cons ⟨rfl, hbefore _ ?_⟩ (.cons ⟨rfl, hbefore _ ?_⟩ .nil)
        · rw [hbuilt₁.map_nodeName]
          exact mem_append_left _ (mem_append_right _ mem_cons_self)
        · rw [hbuilt₂.map_nodeName]
          exact mem_append_right _ (mem_append_right _ mem_cons_self)
    · have houtputs : (st1 ++ st2).map (fun nd ↦ Source.output nd.nodeName) =
          (st1.dropLast.map (fun nd ↦ Source.output nd.nodeName) ++
            [.output (newMrg1 node).nodeName]) ++
              (st2.dropLast.map (fun nd ↦ Source.output nd.nodeName) ++
                [.output (newMrg2 node).nodeName]) := by
        have hmap : ∀ nodes : List (MrgQpn ρ), nodes.map (fun nd ↦ Source.output nd.nodeName) =
            (nodes.map MrgQpn.nodeName).map Source.output := fun nodes ↦ by rw [map_map]; rfl
        rw [hmap, hmap, hmap, map_append, hbuilt₁.map_nodeName, hbuilt₂.map_nodeName,
          map_append, map_append, map_append]
        rfl
      have hlength : node.fm.length = (newMrg1 node).fm.length + (newMrg2 node).fm.length := by
        rw [← length_append, fm_append]
      rw [dropLast_concat, houtputs, hlength]
      refine perm_sources ?_ hperm₁ hperm₂
      rw [map_map]
      rfl

/-- **The tree merges exactly the sources**, where halving them ends with pairs. -/
theorem Splits.built (h : Splits node heap nodes heap') (hv : Valid node heap) {k : Nat}
    (hpow : node.fm.length = 2 ^ k) (hnumbered : node.fm.length = 2 → Numbered node heap) :
      Built node heap nodes heap' := by
  induction h generalizing k with
  | two htwo => exact built_two htwo hv (hnumbered htwo)
  | three hthree =>
    exfalso
    rw [hthree] at hpow
    cases k with
    | zero => simp at hpow
    | succ k =>
      rw [pow_succ] at hpow
      omega
  | @halves node heap heap₁ heap₂ st1 st2 hfour h₁ h₂ ih₁ ih₂ =>
    have hnew := frames_newCrefs node heap
    have hv₁ := hv.newMrg1 hfour hnew.le
    have hframe₁ := h₁.frames hv₁
    have hv₂ := hv.newMrg2 hfour (hnew.le.trans hframe₁.le)
    obtain ⟨k, rfl⟩ : ∃ k', k = k' + 1 := by
      cases k with
      | zero => omega
      | succ k => exact ⟨k, rfl⟩
    rw [pow_succ] at hpow
    have hlen₁ : (newMrg1 node).fm.length = 2 ^ k := by
      show (node.fm.take _).length = _
      rw [length_take]
      omega
    have hlen₂ : (newMrg2 node).fm.length = 2 ^ k := by
      show (node.fm.drop _).length = _
      rw [length_drop]
      omega
    have hnumbered₁ : Numbered (newMrg1 node) (newCrefs node heap) := by
      intro j r hr
      have hlt := hv.lt r (mem_mvars_iff.mpr (.inl (mem_of_getElem? hr)))
      rw [hv.getElem?_newCrefs_fst hr, getElem?_eq_getElem hlt]
      exact ⟨_, rfl, rfl⟩
    have hnumbered₂ : Numbered (newMrg2 node) heap₁ := by
      intro j r hr
      have hmem := mem_of_getElem? hr
      have hlt := hv.lt r (mem_mvars_iff.mpr (.inr hmem))
      rw [hframe₁.getElem? r (lt_of_lt_of_le hlt hnew.le) fun h ↦ hv.disjoint h hmem,
        hv.getElem?_newCrefs_snd hr, getElem?_eq_getElem hlt]
      exact ⟨_, rfl, rfl⟩
    exact built_halves hv hframe₁ (h₂.frames hv₂) (ih₁ hv₁ hlen₁ fun _ ↦ hnumbered₁)
      (ih₂ hv₂ hlen₂ fun _ ↦ hnumbered₂)

theorem Splits.eq_of_two (h : Splits node heap nodes heap') (htwo : node.fm.length = 2) :
    nodes = [node] ∧ heap' = heap := by
  cases h with
  | two _ => exact ⟨rfl, rfl⟩
  | three hthree => omega
  | halves hfour _ _ => omega

theorem numbered_of_indexed (htwo : node.fm.length = 2) (hv : Valid node heap)
    (hindexed : ∀ s ∈ node.slots, s.table ∈ node.fm → Indexed heap s) : Numbered node heap := by
  obtain ⟨t₀, t₁, hfm⟩ := length_eq_two.mp htwo
  obtain ⟨v₀, v₁, hmvars⟩ := length_eq_two.mp (hv.length.symm.trans htwo)
  have hslots : node.slots = [⟨node.nodeName, 0, t₀, v₀⟩, ⟨node.nodeName, 1, t₁, v₁⟩] := by
    rw [MrgQpn.slots, hfm, hmvars]
    rfl
  rw [hslots, hfm] at hindexed
  intro j r hr
  rw [hmvars] at hr
  rcases j with _ | _ | j
  · cases hr
    exact hindexed _ mem_cons_self mem_cons_self
  · cases hr
    exact hindexed _ (mem_cons_of_mem _ mem_cons_self)
      (mem_cons_of_mem _ mem_cons_self)
  · cases hr

/-- **A merge is split into a tree that merges its sources exactly if halving their number ends with
two**; where there are only two, nobody numbers their columns. -/
theorem splitsSources_iff (hv : Valid node heap) :
    SplitsSources node heap ↔
      (∃ k, node.fm.length = 2 ^ k) ∧ (node.fm.length = 2 → Numbered node heap) := by
  obtain ⟨nodes, heap', hsplits, hrun⟩ := exists_splits hv
  rw [splitsSources_iff_of_returns hrun]
  constructor
  · intro hmerges
    refine ⟨?_, ?_⟩
    · by_contra hpow
      obtain ⟨s, hs, htable, -, hindexed⟩ := hsplits.misnumbered hv hpow
      exact hindexed (hmerges.indexed s hs htable)
    · intro htwo
      obtain ⟨rfl, rfl⟩ := hsplits.eq_of_two htwo
      exact numbered_of_indexed htwo hv fun s hs ↦ hmerges.indexed s
        (by rwa [flatMap_singleton])
  · rintro ⟨⟨k, hpow⟩, hnumbered⟩
    exact (hsplits.built hv hpow hnumbered).mergesSources

/-- The merge of `n` streams. -/
def mergeOf (n : Nat) : MrgQpn Unit where
  nodeName := "m"
  fm := (range n).map fun i ↦ TableVar.new (s!"s{i}") (s!"_m{i}")
  mvars := range n
  tableLayout := ⟨"m", ["time"]⟩
  mergeFieldpos := 0
  rest := ()

/-- Their merge columns. -/
def columnsOf (n : Nat) : Heap := (range n).map fun i :
    Nat ↦ (ColRef.new (s!"_m{i}") "time").setTablevarRef (i : Int)

theorem valid_mergeOf {n : Nat} (hn : 2 ≤ n) : Valid (mergeOf n) (columnsOf n) where
  length := by simp only [mergeOf, length_map]
  two_le := by simpa only [mergeOf, length_map, length_range] using hn
  nodup := nodup_range
  lt r hr :=
    by simpa only [columnsOf, length_map, length_range] using mem_range.mp hr

theorem splitsSources_four : SplitsSources (mergeOf 4) (columnsOf 4) :=
  (splitsSources_iff (valid_mergeOf (by decide))).mpr ⟨⟨2, rfl⟩, fun h ↦ by cases h⟩

/-- Of three sources the second one has the number of the first one. -/
theorem not_splitsSources_three : ¬ SplitsSources (mergeOf 3) (columnsOf 3) := by
  have hv := valid_mergeOf (show 2 ≤ 3 by decide)
  obtain ⟨nodes, heap', hsplits, hrun⟩ := exists_splits hv
  rw [splitsSources_iff_of_returns hrun]
  intro hmerges
  have hpow : ¬ ∃ k, (mergeOf 3).fm.length = 2 ^ k := by
    rintro ⟨_ | k, hk⟩
    · cases hk
    · rw [pow_succ] at hk
      have hlength : (mergeOf 3).fm.length = 3 := rfl
      omega
  obtain ⟨s, hs, htable, -, hindexed⟩ := hsplits.misnumbered hv hpow
  exact hindexed (hmerges.indexed s hs htable)

end Tigon.Ftacmp.Merge
