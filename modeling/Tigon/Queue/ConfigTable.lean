import Tigon.Queue.RowKeys

/-!
# The configuration of queues

The start rows of the consumers of all queues are in one table.  A queue has a row of it, and each
instance of a group a column; columns are in the order of groups, then instances. 
`configureInstances` changes the number of instances of a group, `configureGroups` the groups of a
queue.  Both compare the columns there are with the sizes that are wanted, and make a list of
mutations.

The number of columns of a group is taken for its size, and new instances are added from there on. 
So an instance that has no column, while a later one has, does not get one.  `Dense` says that there
is none below the size that is wanted.

## What is here

* `configureInstances`, `configureGroups` — the two methods, over tables.
* `InstancesConfigured`, `GroupsConfigured` — what they are meant to do.
* `cell_changeMutations` — the cells of a group that changes its size.
* `groupConfigured_iff_of_change`, `groupConfigured_iff_of_size`, `groupConfigured_iff_of_last` —
  one group is
  **as it should be exactly** if it is dense.
-/

set_option autoImplicit false

open Bytes

namespace Tigon

open Function

/-- `queue:///app/flow/flowlet/output`. -/
def RowKeys.QueueName.toBytes (q : RowKeys.QueueName) : List UInt8 :=
  [113, 117, 101, 117, 101, 58, 47, 47, 47] ++
    (q.app.bytes ++ RowKeys.slash :: (q.flow.bytes ++ RowKeys.slash :: q.idWithinFlow))

namespace QueueAdmin

open RowKeys

/-! ## The table -/

/-- A column: group and instance. -/
abbrev Column := Nat ×ₗ Nat

def getConsumerStateColumn (groupId instanceId : Nat) : Column := toLex (groupId, instanceId)

abbrev StartRow := List UInt8

/-- A row of the table, with the columns that have a cell. -/
structure ConfigRow where
  cells : Column → Option StartRow
  columns : Finset Column
  mem_columns : ∀ c, c ∈ columns ↔ (cells c).isSome = true

namespace ConfigRow

theorem mem_insert_columns (row : ConfigRow) (c : Column) (r : StartRow) (d : Column) :
    d ∈ insert c row.columns ↔ (update row.cells c (some r) d).isSome = true := by
  rw [Finset.mem_insert, row.mem_columns]
  by_cases h : d = c
  · rw [h, update_self]
    simp
  · rw [update_of_ne h]
    simp [h]

theorem mem_erase_columns (row : ConfigRow) (c d : Column) :
    d ∈ row.columns.erase c ↔ (update row.cells c none d).isSome = true := by
  rw [Finset.mem_erase, row.mem_columns]
  by_cases h : d = c
  · rw [h, update_self]
    simp
  · rw [update_of_ne h]
    simp [h]

def empty : ConfigRow := ⟨fun _ ↦ none, ∅, fun _ ↦ by simp⟩

def putCell (row : ConfigRow) (cell : Column × StartRow) : ConfigRow :=
  ⟨update row.cells cell.1 (some cell.2), insert cell.1 row.columns,
    row.mem_insert_columns cell.1 cell.2⟩

def deleteCell (row : ConfigRow) (c : Column) : ConfigRow :=
  ⟨update row.cells c none, row.columns.erase c, row.mem_erase_columns c⟩

/-- The cells, in the order of columns. -/
def familyMap (row : ConfigRow) : List (Column × StartRow) :=
  row.columns.sort.filterMap fun c ↦ (row.cells c).map (Prod.mk c)

end ConfigRow

/-- The table; rows are named by bytes. -/
abbrev ConfigTable := List UInt8 → ConfigRow

inductive Mutation
  | put (rowKey : List UInt8) (cells : List (Column × StartRow))
  | delete (rowKey : List UInt8) (columns : List Column)

namespace Mutation

def rowKey : Mutation → List UInt8
  | put rowKey _ => rowKey
  | delete rowKey _ => rowKey

/-- What is done to the row. -/
def applyTo (row : ConfigRow) : Mutation → ConfigRow
  | put _ cells => cells.foldl ConfigRow.putCell row
  | delete _ columns => columns.foldl ConfigRow.deleteCell row

def apply (table : ConfigTable) (m : Mutation) : ConfigTable :=
  update table m.rowKey (applyTo (table m.rowKey) m)

end Mutation

def batch (mutations : List Mutation) (table : ConfigTable) : ConfigTable :=
  mutations.foldl Mutation.apply table

/-! ## Reconfiguration -/

inductive Failure
  | illegalArgument (message : String)
  | nullPointer
deriving DecidableEq

structure HBaseConsumerState where
  startRow : StartRow
  groupId : Nat
  instanceId : Nat

namespace HBaseConsumerState

def consumerStateColumn (state : HBaseConsumerState) : Column :=
  getConsumerStateColumn state.groupId state.instanceId

/-- The states of some cells. -/
def create (stateMap : List (Column × StartRow)) : List HBaseConsumerState :=
  stateMap.map fun cell ↦ ⟨cell.2, (ofLex cell.1).1, (ofLex cell.1).2⟩

end HBaseConsumerState

/-- The smaller of two start rows. -/
def updateSmallest (smallest : Option StartRow) (startRow : StartRow) : Option StartRow :=
  match smallest with
  | none => some startRow
  | some s => if startRow < s then some startRow else some s

def smallestStartRow (consumerStates : List HBaseConsumerState) : Option StartRow :=
  (consumerStates.map HBaseConsumerState.startRow).foldl updateSmallest none

/-- The cells of a group that changes its size: all instances get the smallest start row. -/
def changedCells (groupId : Nat) (instances : Int) (consumerStates : List HBaseConsumerState)
    (smallest : StartRow) : List (Column × StartRow) :=
  let oldInstances := consumerStates.length
  (consumerStates.filter fun state ↦ (state.instanceId : Int) < instances).map (fun state ↦
      (state.consumerStateColumn, smallest)) ++
    (List.range' oldInstances (instances.toNat - oldInstances)).map fun i ↦
      (getConsumerStateColumn groupId i, smallest)

/-- The columns of the instances from `instances` on. -/
def deletedColumns (instances : Int) (consumerStates : List HBaseConsumerState) : List Column :=
  (consumerStates.filter fun state ↦ ¬ (state.instanceId : Int) < instances).map
    HBaseConsumerState.consumerStateColumn

def changeMutations (groupId : Nat) (instances : Int) (rowKey : List UInt8)
    (consumerStates : List HBaseConsumerState) (smallest : StartRow) : List Mutation :=
  let put := changedCells groupId instances consumerStates smallest
  let delete := deletedColumns instances consumerStates
  (if put.isEmpty then [] else [.put rowKey put]) ++ if delete.isEmpty then []
    else [.delete rowKey delete]

/-- The mutations for a group that changes its size. -/
def getConfigMutations (groupId : Nat) (instances : Int) (rowKey : List UInt8)
    (consumerStates : List HBaseConsumerState) (mutations : List Mutation) :
      Except Failure (List Mutation) :=
  match smallestStartRow consumerStates with
  | none => .error (.illegalArgument ("No startRow found for consumer group " ++ toString groupId))
  | some smallest =>
    .ok (mutations ++ changeMutations groupId instances rowKey consumerStates smallest)

def configureInstances (table : ConfigTable) (queueName : QueueName) (groupId : Nat)
    (instances : Int) : Except Failure ConfigTable :=
  if 0 < instances then
    let rowKey := queueName.toBytes
    let result := (table rowKey).familyMap.filter fun cell ↦ (ofLex cell.1).1 = groupId
    -- an empty result has no map
    if result.isEmpty then .error .nullPointer
    else
      let consumerStates := HBaseConsumerState.create result
      let oldInstances := consumerStates.length
      if (oldInstances : Int) = instances then .ok table
      else (getConfigMutations groupId instances rowKey consumerStates []).map fun mutations ↦
        batch mutations table
  else .error (.illegalArgument "Number of consumer instances must be > 0.")

/-- Sizes of groups. -/
abbrev GroupInfo := AList fun _ : Nat ↦ Int

/-- One cell of `decodeGroupInfo`.  An instance has a number below the size of its group, which is
an `int`; so the sum is one, too. -/
def decodeCell (groupInfo : GroupInfo) (decoded : Option StartRow × GroupInfo)
    (cell : Column × StartRow) : Option StartRow × GroupInfo :=
  let groupId := (ofLex cell.1).1
  (if groupId ∈ groupInfo then updateSmallest decoded.1 cell.2 else decoded.1,
    decoded.2.insert groupId ((ofLex cell.1).2 + 1))

/-- The smallest start row of the groups that stay, and the sizes of the groups there are. -/
def decodeGroupInfo (groupInfo : GroupInfo) (columns : List (Column × StartRow)) :
    Option StartRow × GroupInfo :=
  columns.foldl (decodeCell groupInfo) (none, ∅)

/-- The columns of the groups that are removed. -/
def removedColumns (groupInfo oldGroupInfo : GroupInfo) : List Column :=
  (oldGroupInfo.entries.filter fun entry ↦ entry.1 ∉ groupInfo).flatMap fun entry ↦
    (List.range entry.2.toNat).map (getConsumerStateColumn entry.1)

/-- One group of `configureGroups`: cells to put, and mutations. -/
def configureGroup (columns : List (Column × StartRow)) (decoded : Option StartRow × GroupInfo)
    (rowKey : List UInt8) (changes : List (Column × StartRow) × List Mutation)
    (entry : (_ : Nat) × Int) :
    Except Failure (List (Column × StartRow) × List Mutation) :=
  let groupId := entry.1
  let instances := entry.2
  match decoded.2.lookup groupId with
  | none => .ok (changes.1 ++ (List.range instances.toNat).map fun i ↦
      (getConsumerStateColumn groupId i, decoded.1.getD []), changes.2)
  | some oldInstances =>
    if oldInstances ≠ instances then
      let columnMap := columns.filter fun cell ↦ getConsumerStateColumn groupId 0 ≤ cell.1 ∧
        cell.1 < getConsumerStateColumn groupId oldInstances.toNat
      (getConfigMutations groupId instances rowKey (HBaseConsumerState.create columnMap)
        changes.2).map fun mutations ↦ (changes.1, mutations)
    else .ok changes

def configureGroups (table : ConfigTable) (queueName : QueueName) (groupInfo : GroupInfo) :
    Except Failure ConfigTable :=
  if groupInfo.entries.isEmpty then
    .error (.illegalArgument "Consumer group information must not be empty.")
  else
    let rowKey := queueName.toBytes
    let columns := (table rowKey).familyMap
    let decoded := decodeGroupInfo groupInfo columns
    let removed := removedColumns groupInfo decoded.2
    let mutations := if removed.isEmpty then [] else [Mutation.delete rowKey removed]
    (groupInfo.entries.foldlM (configureGroup columns decoded rowKey) ([], mutations)).map
      fun changes ↦
      batch (changes.2 ++ [.put rowKey changes.1]) table

/-! ## What reconfiguration is meant to do -/

namespace ConfigRow

variable (row : ConfigRow)

/-- The start row of an instance. -/
def cell (g i : Nat) : Option StartRow := row.cells (getConsumerStateColumn g i)

/-- The number of instances of a group that have a start row. -/
def size (g : Nat) : Nat := (row.columns.filter fun c ↦ (ofLex c).1 = g).card

def startRows (g : Nat) : Set StartRow := {r | ∃ i, row.cell g i = some r}

/-- No gap in the group, below its size and the size `n` that is wanted. -/
def Dense (g : Nat) (n : Int) : Prop :=
  ∀ i < row.size g, (i : Int) < n → (row.cell g i).isSome = true

end ConfigRow

/-- A group with `n` instances. -/
structure GroupConfigured (old new : ConfigRow) (g : Nat) (n : Int) : Prop where
  exactly : ∀ i : Nat, (new.cell g i).isSome = true ↔ (i : Int) < n
  changed : old.size g ≠ 0 → (old.size g : Int) ≠ n → ∀ i : Nat, (i : Int) < n →
    ∃ r, IsLeast (old.startRows g) r ∧ new.cell g i = some r
  unchanged : (old.size g : Int) = n → ∀ i, new.cell g i = old.cell g i

/-- What `configureInstances` is meant to do. -/
structure InstancesConfigured (old new : ConfigTable) (q : QueueName) (g : Nat)
    (n : Int) : Prop where
  group : GroupConfigured (old q.toBytes) (new q.toBytes) g n
  groups : ∀ g' ≠ g, ∀ i, (new q.toBytes).cell g' i = (old q.toBytes).cell g' i
  queues : ∀ q' : QueueName, q' ≠ q → new q'.toBytes = old q'.toBytes
  minimum : ∀ g' r, IsLeast ((old q.toBytes).startRows g') r →
    ∃ r' ≤ r, IsLeast ((new q.toBytes).startRows g') r'

/-- The start rows of the groups that stay. -/
def remaining (row : ConfigRow) (groupInfo : GroupInfo) : Set StartRow :=
  {r | ∃ g ∈ groupInfo, r ∈ row.startRows g}

/-- What `configureGroups` is meant to do. -/
structure GroupsConfigured (old new : ConfigTable) (q : QueueName) (groupInfo : GroupInfo) :
    Prop where
  groups : ∀ g n, groupInfo.lookup g = some n → GroupConfigured (old q.toBytes) (new q.toBytes) g n
  created : ∀ g n, groupInfo.lookup g = some n → (old q.toBytes).size g = 0 → ∀ i : Nat,
    (i : Int) < n → (∃ r, IsLeast (remaining (old q.toBytes) groupInfo) r ∧
      (new q.toBytes).cell g i = some r) ∨ remaining (old q.toBytes) groupInfo = ∅ ∧
        (new q.toBytes).cell g i = some []
  gone : ∀ g ∉ groupInfo, ∀ i, (new q.toBytes).cell g i = none
  queues : ∀ q' : QueueName, q' ≠ q → new q'.toBytes = old q'.toBytes
  minimum : ∀ g n, groupInfo.lookup g = some n → 0 < n → ∀ r,
    IsLeast ((old q.toBytes).startRows g) r → ∃ r' ≤ r, IsLeast ((new q.toBytes).startRows g) r'

/-! ## Names of rows -/

theorem append_cons_inj {x : UInt8} {a b l l' : List UInt8} (ha : x ∉ a) (hb : x ∉ b)
    (h : a ++ x :: l = b ++ x :: l') : a = b ∧ l = l' := by
  induction a generalizing b with
  | nil =>
    cases b with
    | nil => exact ⟨rfl, (List.cons.inj h).2⟩
    | cons d b => exact absurd ((List.cons.inj h).1 ▸ List.mem_cons_self) hb
  | cons c a ih =>
    cases b with
    | nil => exact absurd ((List.cons.inj h).1 ▸ List.mem_cons_self) ha
    | cons d b =>
      have hinj := List.cons.inj h
      obtain rfl := hinj.1
      obtain ⟨rfl, hl⟩ := ih (fun hx ↦ ha (List.mem_cons_of_mem _ hx))
        (fun hx ↦ hb (List.mem_cons_of_mem _ hx)) hinj.2
      exact ⟨rfl, hl⟩

theorem append_slash_inj {n n' : Name} {l l' : List UInt8} :
    n.bytes ++ slash :: l = n'.bytes ++ slash :: l' ↔ n = n' ∧ l = l' := by
  refine ⟨fun h ↦ ?_, fun ⟨hn, hl⟩ ↦ by rw [hn, hl]⟩
  obtain ⟨hn, hl⟩ := append_cons_inj (slash_not_mem n) (slash_not_mem n') h
  exact ⟨eq_of_bytes hn, hl⟩

/-- Queues have rows of their own. -/
theorem toBytes_inj {q q' : QueueName} : q.toBytes = q'.toBytes ↔ q = q' := by
  refine ⟨fun h ↦ ?_, congrArg _⟩
  rw [QueueName.toBytes, QueueName.toBytes, List.append_cancel_left_eq,
    append_slash_inj, append_slash_inj] at h
  obtain ⟨happ, hflow, hid⟩ := h
  exact eq_of_idWithinFlow happ hflow hid

/-! ## Cells -/

section Cells

variable {row : ConfigRow} {c : Column} {r : StartRow} {g i : Nat}

theorem getConsumerStateColumn_inj {g' i' : Nat} :
    getConsumerStateColumn g i = getConsumerStateColumn g' i' ↔ g = g' ∧ i = i' := by
  rw [getConsumerStateColumn, getConsumerStateColumn, toLex_inj, Prod.mk.injEq]

theorem cells_putCells_of_not_mem {cells : List (Column × StartRow)} (h : ∀ r, (c, r) ∉ cells) :
    (cells.foldl ConfigRow.putCell row).cells c = row.cells c := by
  induction cells generalizing row with
  | nil => rfl
  | cons cell cells ih =>
    rw [List.foldl_cons, ih fun r hr ↦ h r (List.mem_cons_of_mem _ hr)]
    refine update_of_ne (fun heq ↦ h cell.2 ?_) _ _
    rw [heq]
    exact List.mem_cons_self

theorem cells_putCells_of_mem {cells : List (Column × StartRow)} (hmem : (c, r) ∈ cells)
    (h : ∀ r', (c, r') ∈ cells → r' = r) : (cells.foldl ConfigRow.putCell row).cells c =
      some r := by
  induction cells generalizing row with
  | nil => cases hmem
  | cons cell cells ih =>
    rw [List.foldl_cons]
    by_cases hlater : (c, r) ∈ cells
    · exact ih hlater fun r' hr' ↦ h r' (List.mem_cons_of_mem _ hr')
    · obtain rfl := (List.mem_cons.mp hmem).resolve_right hlater
      rw [cells_putCells_of_not_mem fun r' hr' ↦ hlater (h r' (List.mem_cons_of_mem _ hr') ▸ hr')]
      exact update_self _ _ _

theorem cells_deleteCells_of_not_mem {columns : List Column} (h : c ∉ columns) :
    (columns.foldl ConfigRow.deleteCell row).cells c = row.cells c := by
  induction columns generalizing row with
  | nil => rfl
  | cons d columns ih =>
    rw [List.foldl_cons, ih fun hc ↦ h (List.mem_cons_of_mem _ hc)]
    refine update_of_ne (fun heq ↦ h ?_) _ _
    rw [heq]
    exact List.mem_cons_self

theorem cells_deleteCells_of_mem {columns : List Column} (h : c ∈ columns) :
    (columns.foldl ConfigRow.deleteCell row).cells c = none := by
  induction columns generalizing row with
  | nil => cases h
  | cons d columns ih =>
    rw [List.foldl_cons]
    by_cases hlater : c ∈ columns
    · exact ih hlater
    · rw [cells_deleteCells_of_not_mem hlater, (List.mem_cons.mp h).resolve_right hlater]
      exact update_self _ _ _

theorem mem_familyMap : (c, r) ∈ row.familyMap ↔ row.cells c = some r := by
  rw [ConfigRow.familyMap, List.mem_filterMap]
  constructor
  · rintro ⟨d, -, h⟩
    obtain ⟨r', hr', heq⟩ := Option.map_eq_some_iff.mp h
    obtain ⟨rfl, rfl⟩ := Prod.mk.inj heq
    exact hr'
  · intro h
    exact ⟨c, (Finset.mem_sort _).mpr ((row.mem_columns c).mpr (by rw [h]; rfl)), by rw [h]; rfl⟩

theorem map_fst_familyMap (row : ConfigRow) : row.familyMap.map Prod.fst = row.columns.sort := by
  rw [ConfigRow.familyMap, List.map_filterMap]
  refine Eq.trans ?_ List.filterMap_some
  refine List.filterMap_congr fun c hc ↦ ?_
  obtain ⟨r, hr⟩ := Option.isSome_iff_exists.mp ((row.mem_columns c).mp ((Finset.mem_sort _).mp hc))
  rw [hr]
  rfl

/-- The consumer states of a group. -/
def statesOf (row : ConfigRow) (g : Nat) : List HBaseConsumerState :=
  HBaseConsumerState.create (row.familyMap.filter fun cell ↦ (ofLex cell.1).1 = g)

theorem mem_statesOf {state : HBaseConsumerState} :
    state ∈ statesOf row g ↔ state.groupId = g ∧ row.cell g state.instanceId =
      some state.startRow := by
  rw [statesOf, HBaseConsumerState.create, List.mem_map]
  constructor
  · rintro ⟨⟨c, r⟩, hmem, rfl⟩
    obtain ⟨hmem, hg⟩ := List.mem_filter.mp hmem
    have hg : (ofLex c).1 = g := of_decide_eq_true hg
    exact ⟨hg, by rw [← mem_familyMap.mp hmem, ConfigRow.cell, getConsumerStateColumn, ← hg]; rfl⟩
  · rintro ⟨rfl, hcell⟩
    exact ⟨(getConsumerStateColumn state.groupId state.instanceId, state.startRow),
      List.mem_filter.mpr ⟨mem_familyMap.mpr hcell, decide_eq_true rfl⟩, rfl⟩

theorem length_statesOf (row : ConfigRow) (g : Nat) : (statesOf row g).length = row.size g := by
  have hfilter : (row.familyMap.filter fun cell ↦ (ofLex cell.1).1 = g).map Prod.fst =
      row.columns.sort.filter fun c ↦ (ofLex c).1 = g := by
    rw [← map_fst_familyMap, List.filter_map]
    rfl
  rw [statesOf, HBaseConsumerState.create,
    List.length_map, ← List.length_map (f := Prod.fst), hfilter, ConfigRow.size, Finset.card_def,
      Finset.filter_val, ← Finset.sort_eq row.columns (· ≤ ·),
    Multiset.filter_coe, Multiset.coe_card]

theorem size_pos_iff : row.size g ≠ 0 ↔ ∃ i, (row.cell g i).isSome = true := by
  rw [← length_statesOf, Ne, List.length_eq_zero_iff, List.eq_nil_iff_forall_not_mem,
    not_forall_not]
  constructor
  · rintro ⟨state, hstate⟩
    exact ⟨state.instanceId, Option.isSome_iff_exists.mpr ⟨_, (mem_statesOf.mp hstate).2⟩⟩
  · rintro ⟨i, hi⟩
    obtain ⟨r, hr⟩ := Option.isSome_iff_exists.mp hi
    exact ⟨⟨r, g, i⟩, mem_statesOf.mpr ⟨rfl, hr⟩⟩

end Cells

/-! ## The smallest start row -/

section Smallest

/-- A value that is the least of a set, if there is any. -/
structure Smallest (S : Set StartRow) (smallest : Option StartRow) : Prop where
  eq_empty : smallest = none → S = ∅
  isLeast : ∀ r, smallest = some r → IsLeast S r

theorem smallest_empty : Smallest ∅ none := ⟨fun _ ↦ rfl, fun _ h ↦ by cases h⟩

variable {S : Set StartRow} {smallest : Option StartRow} {row : ConfigRow} {g : Nat}

theorem Smallest.update (h : Smallest S smallest) (r : StartRow) :
    Smallest (insert r S) (updateSmallest smallest r) := by
  cases smallest with
  | none =>
    rw [h.eq_empty rfl, insert_empty_eq]
    refine ⟨fun heq ↦ (by cases heq), fun r' hr' ↦ ?_⟩
    obtain rfl := Option.some.inj hr'
    exact isLeast_singleton
  | some s =>
    have hmin : updateSmallest (some s) r = some (min r s) := by
      rw [updateSmallest]
      split
      · rename_i hlt
        rw [min_eq_left hlt.le]
      · rename_i hlt
        rw [min_eq_right (not_lt.mp hlt)]
    rw [hmin]
    refine ⟨fun heq ↦ (by cases heq), fun r' hr' ↦ ?_⟩
    obtain rfl := Option.some.inj hr'
    exact (h.isLeast s rfl).insert r

theorem Smallest.foldl (h : Smallest S smallest) (l : List StartRow) :
    Smallest (S ∪ {r | r ∈ l}) (l.foldl updateSmallest smallest) := by
  induction l generalizing S smallest with
  | nil => simpa using h
  | cons r l ih =>
    have hset : S ∪ {x | x ∈ r :: l} = insert r S ∪ {x | x ∈ l} := by
      ext x
      simp only [Set.mem_union, Set.mem_insert_iff, Set.mem_ofPred_eq, List.mem_cons]
      tauto
    rw [hset, List.foldl_cons]
    exact ih (h.update r)

theorem smallest_statesOf (row : ConfigRow) (g : Nat) :
    Smallest (row.startRows g) (smallestStartRow (statesOf row g)) := by
  have h := smallest_empty.foldl ((statesOf row g).map HBaseConsumerState.startRow)
  have hset : ∅ ∪ {r | r ∈ (statesOf row g).map HBaseConsumerState.startRow} = row.startRows g := by
    ext r
    rw [Set.empty_union, Set.mem_ofPred_eq, List.mem_map]
    constructor
    · rintro ⟨state, hstate, rfl⟩
      exact ⟨state.instanceId, (mem_statesOf.mp hstate).2⟩
    · rintro ⟨i, hi⟩
      exact ⟨⟨r, g, i⟩, mem_statesOf.mpr ⟨rfl, hi⟩, rfl⟩
  rw [hset] at h
  exact h

theorem smallestStartRow_ne_none (h : row.size g ≠ 0) :
    smallestStartRow (statesOf row g) ≠ none := by
  intro heq
  obtain ⟨i, hi⟩ := size_pos_iff.mp h
  obtain ⟨r, hr⟩ := Option.isSome_iff_exists.mp hi
  have hmem : r ∈ row.startRows g := ⟨i, hr⟩
  rw [(smallest_statesOf row g).eq_empty heq] at hmem
  exact hmem

end Smallest

/-! ## A group that changes its size -/

section Change

variable {row : ConfigRow} {g g' i : Nat} {n : Int} {smallest : StartRow} {rowKey : List UInt8}

/-- The mutation is about cells of the group. -/
def Touches (g : Nat) : Mutation → Prop
  | .put _ cells => ∃ cell ∈ cells, (ofLex cell.1).1 = g
  | .delete _ columns => ∃ c ∈ columns, (ofLex c).1 = g

theorem cell_of_not_touches {mutations : List Mutation} (h : ∀ m ∈ mutations, ¬ Touches g m) :
    (mutations.foldl Mutation.applyTo row).cell g i = row.cell g i := by
  induction mutations generalizing row with
  | nil => rfl
  | cons m mutations ih =>
    rw [List.foldl_cons, ih fun m' hm' ↦ h m' (List.mem_cons_of_mem _ hm')]
    have hm := h m List.mem_cons_self
    cases m with
    | put rowKey cells => exact cells_putCells_of_not_mem fun r hr ↦ hm ⟨_, hr, rfl⟩
    | delete rowKey columns =>
      exact cells_deleteCells_of_not_mem fun hc ↦ hm ⟨_, hc, rfl⟩

theorem rowKey_of_mem_changeMutations {states : List HBaseConsumerState} {m : Mutation}
    (hm : m ∈ changeMutations g n rowKey states smallest) : m.rowKey = rowKey := by
  rw [changeMutations, List.mem_append] at hm
  rcases hm with hm | hm
  · split at hm
    · cases hm
    · rw [List.mem_singleton.mp hm]
      rfl
  · split at hm
    · cases hm
    · rw [List.mem_singleton.mp hm]
      rfl

theorem mem_changedCells {c : Column} {r : StartRow} :
    (c, r) ∈ changedCells g n (statesOf row g) smallest ↔
      r = smallest ∧ ∃ i : Nat, c = getConsumerStateColumn g i ∧ (i : Int) < n ∧
        ((row.cell g i).isSome = true ∨ row.size g ≤ i) := by
  rw [changedCells, List.mem_append, List.mem_map, List.mem_map, length_statesOf]
  constructor
  · rintro (⟨state, hstate, heq⟩ | ⟨i, hi, heq⟩)
    · obtain ⟨hstate, hlt⟩ := List.mem_filter.mp hstate
      obtain ⟨rfl, hcell⟩ := mem_statesOf.mp hstate
      obtain ⟨rfl, rfl⟩ := Prod.mk.inj heq
      exact ⟨rfl, state.instanceId, rfl, of_decide_eq_true hlt, .inl (by rw [hcell]; rfl)⟩
    · obtain ⟨rfl, rfl⟩ := Prod.mk.inj heq
      rw [List.mem_range'_1] at hi
      exact ⟨rfl, i, rfl, by omega, .inr hi.1⟩
  · rintro ⟨rfl, i, rfl, hlt, hcell | hsize⟩
    · obtain ⟨r', hr'⟩ := Option.isSome_iff_exists.mp hcell
      exact .inl ⟨⟨r', g, i⟩, List.mem_filter.mpr
        ⟨mem_statesOf.mpr ⟨rfl, hr'⟩, decide_eq_true hlt⟩, rfl⟩
    · exact .inr ⟨i, List.mem_range'_1.mpr ⟨hsize, by omega⟩, rfl⟩

theorem mem_deletedColumns {c : Column} :
    c ∈ deletedColumns n (statesOf row g) ↔
      ∃ i : Nat, c = getConsumerStateColumn g i ∧ ¬ (i : Int) < n ∧
        (row.cell g i).isSome = true := by
  rw [deletedColumns, List.mem_map]
  constructor
  · rintro ⟨state, hstate, rfl⟩
    obtain ⟨hstate, hle⟩ := List.mem_filter.mp hstate
    obtain ⟨rfl, hcell⟩ := mem_statesOf.mp hstate
    exact ⟨state.instanceId, rfl, of_decide_eq_true hle, by rw [hcell]; rfl⟩
  · rintro ⟨i, rfl, hle, hcell⟩
    obtain ⟨r, hr⟩ := Option.isSome_iff_exists.mp hcell
    exact ⟨⟨r, g, i⟩, List.mem_filter.mpr ⟨mem_statesOf.mpr ⟨rfl, hr⟩, decide_eq_true hle⟩, rfl⟩

/-- Other groups keep their cells. -/
theorem not_touches_of_mem_changeMutations (h : g' ≠ g) {m : Mutation}
    (hm : m ∈ changeMutations g n rowKey (statesOf row g) smallest) : ¬ Touches g' m := by
  rw [changeMutations, List.mem_append] at hm
  rcases hm with hm | hm
  · split at hm
    · cases hm
    · rw [List.mem_singleton.mp hm]
      rintro ⟨⟨c, r⟩, hcell, hg'⟩
      obtain ⟨-, i, rfl, -⟩ := mem_changedCells.mp hcell
      exact h hg'.symm
  · split at hm
    · cases hm
    · rw [List.mem_singleton.mp hm]
      rintro ⟨c, hc, hg'⟩
      obtain ⟨i, rfl, -⟩ := mem_deletedColumns.mp hc
      exact h hg'.symm

/-- Cells are put before others are deleted, if there are any. -/
theorem foldl_changeMutations (states : List HBaseConsumerState) :
    (changeMutations g n rowKey states smallest).foldl Mutation.applyTo row =
      (deletedColumns n states).foldl ConfigRow.deleteCell
        ((changedCells g n states smallest).foldl ConfigRow.putCell row) := by
  rw [changeMutations, List.foldl_append]
  rcases changedCells g n states smallest with _ | ⟨cell, cells⟩
  · rcases deletedColumns n states with _ | ⟨c, columns⟩
    · rfl
    · rfl
  · rcases deletedColumns n states with _ | ⟨c, columns⟩
    · rfl
    · rfl

/-- The cells of the group. -/
theorem cell_changeMutations {row' : ConfigRow} (hrow : ∀ i, row'.cell g i = row.cell g i)
    (i : Nat) : ((changeMutations g n rowKey (statesOf row g) smallest).foldl Mutation.applyTo
      row').cell g i = if (i : Int) < n ∧ ((row.cell g i).isSome = true ∨ row.size g ≤ i)
        then some smallest else none := by
  rw [foldl_changeMutations, ConfigRow.cell]
  by_cases hput : (i : Int) < n ∧ ((row.cell g i).isSome = true ∨ row.size g ≤ i)
  · rw [if_pos hput, cells_deleteCells_of_not_mem,
      cells_putCells_of_mem (mem_changedCells.mpr ⟨rfl, i, rfl, hput⟩) fun r' hr' ↦
        (mem_changedCells.mp hr').1]
    intro hdel
    obtain ⟨j, heq, hle, -⟩ := mem_deletedColumns.mp hdel
    obtain rfl := (getConsumerStateColumn_inj.mp heq).2
    exact hle hput.1
  · rw [if_neg hput]
    by_cases hdel : getConsumerStateColumn g i ∈ deletedColumns n (statesOf row g)
    · exact cells_deleteCells_of_mem hdel
    · rw [cells_deleteCells_of_not_mem hdel, cells_putCells_of_not_mem]
      · rw [← ConfigRow.cell, hrow, ← Option.not_isSome_iff_eq_none]
        intro hcell
        refine hdel (mem_deletedColumns.mpr ⟨i, rfl, fun hlt ↦ hput ⟨hlt, .inl hcell⟩, hcell⟩)
      · intro r hr
        obtain ⟨-, j, heq, hj⟩ := mem_changedCells.mp hr
        obtain rfl := (getConsumerStateColumn_inj.mp heq).2
        exact hput hj

end Change

/-! ## One group -/

section Group

variable {row new : ConfigRow} {g i : Nat} {n : Int} {r smallest : StartRow}

theorem injective_getConsumerStateColumn (g : Nat) :
    Function.Injective (getConsumerStateColumn g) :=
  fun _ _ h ↦ (getConsumerStateColumn_inj.mp h).2

theorem mem_filter_columns : getConsumerStateColumn g i ∈ row.columns.filter
    (fun c ↦ (ofLex c).1 = g) ↔ (row.cell g i).isSome = true := by
  rw [Finset.mem_filter, row.mem_columns]
  exact and_iff_left rfl

theorem image_range_subset {m : Nat} (h : ∀ i < m, (row.cell g i).isSome = true) :
    (Finset.range m).image (getConsumerStateColumn g) ⊆ row.columns.filter fun c ↦
    (ofLex c).1 = g := by
  intro c hc
  obtain ⟨j, hj, rfl⟩ := Finset.mem_image.mp hc
  exact mem_filter_columns.mpr (h j (Finset.mem_range.mp hj))

theorem le_size {m : Nat} (h : ∀ i < m, (row.cell g i).isSome = true) : m ≤ row.size g := by
  have hcard := Finset.card_le_card (image_range_subset h)
  rwa [Finset.card_image_of_injective _ (injective_getConsumerStateColumn g), Finset.card_range]
    at hcard

theorem size_le {m : Nat} (h : ∀ i, (row.cell g i).isSome = true → i < m) : row.size g ≤ m := by
  have hsub : row.columns.filter (fun c ↦ (ofLex c).1 = g) ⊆
      (Finset.range m).image (getConsumerStateColumn g) := by
    intro c hc
    obtain ⟨hc, hg⟩ := Finset.mem_filter.mp hc
    have hcell : c = getConsumerStateColumn g (ofLex c).2 := by rw [← hg]; rfl
    rw [row.mem_columns, hcell] at hc
    exact Finset.mem_image.mpr ⟨_, Finset.mem_range.mpr (h _ hc), hcell.symm⟩
  have hcard := Finset.card_le_card hsub
  rwa [Finset.card_image_of_injective _ (injective_getConsumerStateColumn g), Finset.card_range]
    at hcard

/-- A group without gaps below its size has no more instances. -/
theorem isSome_cell_iff (h : ∀ i < row.size g, (row.cell g i).isSome = true) :
    (row.cell g i).isSome = true ↔ i < row.size g := by
  have heq := Finset.eq_of_subset_of_card_le (image_range_subset h) (by
    rw [Finset.card_image_of_injective _ (injective_getConsumerStateColumn g), Finset.card_range]
    rfl)
  rw [← mem_filter_columns, ← heq, Finset.mem_image]
  constructor
  · rintro ⟨j, hj, hji⟩
    obtain rfl := injective_getConsumerStateColumn g hji
    exact Finset.mem_range.mp hj
  · exact fun hi ↦ ⟨i, Finset.mem_range.mpr hi, rfl⟩

/-- A group that keeps its cells, and has the size that is wanted. -/
theorem groupConfigured_iff_of_size (hn : (row.size g : Int) = n)
    (hnew : ∀ i, new.cell g i = row.cell g i) : GroupConfigured row new g n ↔ row.Dense g n := by
  constructor
  · intro h i _ hi
    rw [← hnew]
    exact (h.exactly i).mpr hi
  · intro h
    refine ⟨fun i ↦ ?_, fun _ hne ↦ absurd hn hne, fun _ ↦ hnew⟩
    rw [hnew, isSome_cell_iff fun j hj ↦ h j hj (by omega)]
    omega

/-- A group that keeps its cells, and has the size that is wanted by its last instance. -/
theorem groupConfigured_iff_of_last (hlt : ∀ i : Nat, (row.cell g i).isSome = true → (i : Int) < n)
    (hlast : ∃ i : Nat, (row.cell g i).isSome = true ∧ (i : Int) + 1 = n)
    (hnew : ∀ i, new.cell g i = row.cell g i) : GroupConfigured row new g n ↔ row.Dense g n := by
  obtain ⟨k, hk, hkn⟩ := hlast
  have hle : row.size g ≤ n.toNat := size_le fun i hi ↦ by have := hlt i hi; omega
  by_cases hn : (row.size g : Int) = n
  · exact groupConfigured_iff_of_size hn hnew
  · refine iff_of_false (fun h ↦ ?_) fun h ↦ ?_
    · have hge : n.toNat ≤ row.size g := le_size fun i hi ↦ by
        rw [← hnew]
        exact (h.exactly i).mpr (by omega)
      omega
    · have := (isSome_cell_iff fun i hi ↦ h i hi (by omega)).mp hk
      omega

theorem dense_of_groupConfigured (h : GroupConfigured row new g n)
    (hnew : ∀ i : Nat, new.cell g i = if (i : Int) < n ∧
      ((row.cell g i).isSome = true ∨ row.size g ≤ i) then
      some smallest else none) : row.Dense g n := by
  intro i hi hin
  have hsome := (h.exactly i).mpr hin
  rw [hnew] at hsome
  split at hsome
  · rename_i hcond
    exact hcond.2.resolve_right (by omega)
  · cases hsome

theorem groupConfigured_iff_of_change (hn : (row.size g : Int) ≠ n)
    (hleast : IsLeast (row.startRows g) smallest)
    (hnew : ∀ i : Nat, new.cell g i = if (i : Int) < n ∧
      ((row.cell g i).isSome = true ∨ row.size g ≤ i) then
      some smallest else none) :
    GroupConfigured row new g n ↔ row.Dense g n := by
  constructor
  · exact fun h ↦ dense_of_groupConfigured h hnew
  · intro h
    have hcell : ∀ i : Nat, (i : Int) < n → new.cell g i = some smallest := by
      intro i hi
      rw [hnew, if_pos]
      refine ⟨hi, ?_⟩
      rcases Nat.lt_or_ge i (row.size g) with hlt | hge
      · exact .inl (h i hlt hi)
      · exact .inr hge
    refine ⟨fun i ↦ ⟨fun hsome ↦ ?_, fun hi ↦ by rw [hcell i hi]; rfl⟩,
      fun _ _ i hi ↦ ⟨smallest, hleast, hcell i hi⟩, fun heq ↦ absurd heq hn⟩
    rw [hnew] at hsome
    split at hsome
    · rename_i hcond
      exact hcond.1
    · cases hsome

/-- **The smallest start row of a group does not become greater.** -/
theorem GroupConfigured.minimum (h : GroupConfigured row new g n) (hn : 0 < n)
    (hr : IsLeast (row.startRows g) r) : ∃ r' ≤ r, IsLeast (new.startRows g) r' := by
  obtain ⟨i, hi⟩ := hr.1
  have hsize : row.size g ≠ 0 := size_pos_iff.mpr ⟨i, by rw [hi]; rfl⟩
  refine ⟨r, le_rfl, ?_⟩
  by_cases heq : (row.size g : Int) = n
  · have hrows : new.startRows g = row.startRows g := by
      ext r'
      exact exists_congr fun j ↦ by rw [h.unchanged heq]
    rwa [hrows]
  · have hcell : ∀ j : Nat, (j : Int) < n → new.cell g j = some r := by
      intro j hj
      obtain ⟨r', hr', hcell⟩ := h.changed hsize heq j hj
      rw [hcell, hr'.unique hr]
    refine ⟨⟨0, hcell 0 hn⟩, fun r' ⟨j, hj⟩ ↦ ?_⟩
    have hlt := (h.exactly j).mp (by rw [hj]; rfl)
    rw [hcell j hlt] at hj
    exact (Option.some.inj hj).le

end Group

end QueueAdmin
end Tigon
