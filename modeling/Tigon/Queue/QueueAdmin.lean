import Tigon.Queue.ConfigTable

/-!
# Reconfiguration of queues

`configureInstances` is about one group.  `configureGroups` first finds out which groups there are
(`decodeGroupInfo`), takes the size of a group from its last instance, and then goes through the
groups that are requested; the mutations of a group are not about the cells of another one
(`Touches`).

Reconfiguration leaves no gaps, and neither do consumers that save their start rows
(`Reachable.gapFree`).

## What is here

* `configureInstances_iff`, `configureGroups_iff` — the methods **do what they are meant to do
  exactly** for groups that are dense.
* `reconfigures_iff` — both together, and all groups of tables in use are dense.
-/

set_option autoImplicit false

open Bytes

namespace Tigon
namespace QueueAdmin

open RowKeys Function List

/-! ## `configureInstances` -/

section Instances

variable {table : ConfigTable} {q q' : QueueName} {g : Nat} {n : Int} {rowKey : List UInt8}

theorem batch_of_rowKey (rowKey : List UInt8) {mutations : List Mutation}
    (h : ∀ m ∈ mutations, m.rowKey = rowKey) : batch mutations table =
      update table rowKey (mutations.foldl Mutation.applyTo (table rowKey)) := by
  induction mutations generalizing table with
  | nil => exact (update_eq_self rowKey table).symm
  | cons m mutations ih =>
    have hm := h m mem_cons_self
    rw [batch, foldl_cons, ← batch, ih fun m' hm' ↦ h m' (mem_cons_of_mem _ hm'),
      Mutation.apply, hm, update_idem, update_self]
    rfl

theorem getConfigMutations_eq (n : Int) (rowKey : List UInt8) {row : ConfigRow}
    (hsize : row.size g ≠ 0) (mutations : List Mutation) : ∃ smallest,
      IsLeast (row.startRows g) smallest ∧
        getConfigMutations g n rowKey (statesOf row g) mutations =
          .ok (mutations ++ changeMutations g n rowKey (statesOf row g) smallest) := by
  obtain ⟨smallest, hs⟩ := Option.ne_none_iff_exists'.mp (smallestStartRow_ne_none hsize)
  refine ⟨smallest, (smallest_statesOf row g).isLeast smallest hs, ?_⟩
  rw [getConfigMutations, hs]

theorem create_filter (row : ConfigRow) (g : Nat) :
    HBaseConsumerState.create (row.familyMap.filter fun cell ↦ (ofLex cell.1).1 = g) =
      statesOf row g := rfl

theorem isEmpty_filter_familyMap {row : ConfigRow} :
    (row.familyMap.filter fun cell ↦ (ofLex cell.1).1 = g).isEmpty = true ↔ row.size g = 0 := by
  rw [← length_statesOf, statesOf, HBaseConsumerState.create, length_map,
    isEmpty_iff_length_eq_zero]

/-- The row that `configureInstances` leaves. -/
theorem configureInstances_ok (hn : 0 < n) (hsize : (table q.toBytes).size g ≠ 0) :
    ∃ row', configureInstances table q g n = .ok (update table q.toBytes row') ∧
      (GroupConfigured (table q.toBytes) row' g n ↔ (table q.toBytes).Dense g n) ∧
      ∀ g' ≠ g, ∀ i, row'.cell g' i = (table q.toBytes).cell g' i := by
  rw [configureInstances, if_pos hn]
  simp only [isEmpty_filter_familyMap, if_neg hsize, create_filter, length_statesOf]
  by_cases heq : ((table q.toBytes).size g : Int) = n
  · rw [if_pos heq]
    exact ⟨table q.toBytes, by rw [update_eq_self],
      groupConfigured_iff_of_size heq fun _ ↦ rfl, fun _ _ _ ↦ rfl⟩
  · rw [if_neg heq]
    obtain ⟨smallest, hleast, hmutations⟩ := getConfigMutations_eq n q.toBytes hsize []
    rw [hmutations, nil_append]
    refine ⟨_, congrArg Except.ok (batch_of_rowKey _ fun m hm ↦ rowKey_of_mem_changeMutations hm),
      groupConfigured_iff_of_change heq hleast (cell_changeMutations fun _ ↦ rfl),
        fun g' hg' i ↦ ?_⟩
    exact cell_of_not_touches fun m hm ↦ not_touches_of_mem_changeMutations hg' hm

/-- **`configureInstances` does what it is meant to do exactly** for a group there is, without
gaps. -/
theorem configureInstances_iff :
    (∃ table', configureInstances table q g n = .ok table' ∧
      InstancesConfigured table table' q g n) ↔ 0 < n ∧ (table q.toBytes).size g ≠ 0 ∧
        (table q.toBytes).Dense g n := by
  by_cases hn : 0 < n
  · by_cases hsize : (table q.toBytes).size g = 0
    · refine iff_of_false ?_ fun h ↦ h.2.1 hsize
      rintro ⟨table', h, -⟩
      rw [configureInstances, if_pos hn] at h
      simp only [isEmpty_filter_familyMap, if_pos hsize] at h
      cases h
    · obtain ⟨row', hok, hgroup, hothers⟩ := configureInstances_ok hn hsize
      have hself : update table q.toBytes row' q.toBytes = row' :=
        update_self _ _ _
      constructor
      · rintro ⟨table', h, hspec⟩
        obtain rfl := Except.ok.inj (hok.symm.trans h)
        have := hspec.group
        rw [hself] at this
        exact ⟨hn, hsize, hgroup.mp this⟩
      · rintro ⟨-, -, hdense⟩
        have hg := hgroup.mpr hdense
        refine ⟨_, hok, by rwa [hself], by rwa [hself], fun q' hq' ↦ ?_, fun g' r hr ↦ ?_⟩
        · exact update_of_ne (fun h ↦ hq' (toBytes_inj.mp h)) _ _
        · rw [hself]
          by_cases hgg : g' = g
          · rw [hgg] at hr ⊢
            exact hg.minimum hn hr
          · refine ⟨r, le_rfl, ?_⟩
            have hrows : row'.startRows g' = (table q.toBytes).startRows g' := by
              ext r'
              exact exists_congr fun j ↦ by rw [hothers g' hgg]
            rwa [hrows]
  · refine iff_of_false ?_ fun h ↦ hn h.1
    rintro ⟨table', h, -⟩
    rw [configureInstances, if_neg hn] at h
    cases h

end Instances

/-! ## The groups there are -/

section Decode

variable {row : ConfigRow} {groupInfo : GroupInfo} {g : Nat} {v : Int}

theorem fst_foldl_decodeCell (groupInfo : GroupInfo) (columns : List (Column × StartRow))
    (decoded : Option StartRow × GroupInfo) :
    (columns.foldl (decodeCell groupInfo) decoded).1 =
      ((columns.filter fun cell ↦ (ofLex cell.1).1 ∈ groupInfo).map Prod.snd).foldl updateSmallest
        decoded.1 := by
  induction columns generalizing decoded with
  | nil => rfl
  | cons cell columns ih =>
    rw [foldl_cons, ih, decodeCell]
    by_cases h : (ofLex cell.1).1 ∈ groupInfo
    · rw [filter_cons, if_pos (decide_eq_true h), map_cons, foldl_cons, if_pos h]
    · rw [filter_cons, if_neg (fun hd ↦ h (of_decide_eq_true hd)), if_neg h]

/-- The smallest start row of the groups that stay. -/
theorem smallest_decodeGroupInfo (row : ConfigRow) (groupInfo : GroupInfo) :
    Smallest (remaining row groupInfo) (decodeGroupInfo groupInfo row.familyMap).1 := by
  rw [decodeGroupInfo, fst_foldl_decodeCell]
  have h := smallest_empty.foldl
    ((row.familyMap.filter fun cell ↦ (ofLex cell.1).1 ∈ groupInfo).map Prod.snd)
  have hset : ∅ ∪ {r | r ∈ (row.familyMap.filter fun cell ↦ (ofLex cell.1).1 ∈ groupInfo).map
      Prod.snd} = remaining row groupInfo := by
    ext r
    rw [Set.empty_union, Set.mem_ofPred_eq, mem_map]
    constructor
    · rintro ⟨⟨c, r⟩, hcell, rfl⟩
      obtain ⟨hcell, hg⟩ := mem_filter.mp hcell
      exact ⟨_, of_decide_eq_true hg, (ofLex c).2, mem_familyMap.mp hcell⟩
    · rintro ⟨g, hg, i, hi⟩
      exact ⟨(getConsumerStateColumn g i, r),
        mem_filter.mpr ⟨mem_familyMap.mpr hi, decide_eq_true hg⟩, rfl⟩
  rw [hset] at h
  exact h

theorem lookup_foldl_decodeCell (columns : List (Column × StartRow))
    (decoded : Option StartRow × GroupInfo) :
      (columns.foldl (decodeCell groupInfo) decoded).2.lookup g =
      ((columns.filter fun cell ↦ (ofLex cell.1).1 = g).getLast?.map fun cell ↦
        ((ofLex cell.1).2 : Int) + 1).or (decoded.2.lookup g) := by
  induction columns generalizing decoded with
  | nil => rfl
  | cons cell columns ih =>
    rw [foldl_cons, ih, decodeCell]
    by_cases h : (ofLex cell.1).1 = g
    · rw [filter_cons, if_pos (decide_eq_true h), getLast?_cons, h, AList.lookup_insert]
      cases (columns.filter fun cell ↦ (ofLex cell.1).1 = g).getLast? with
      | none => rfl
      | some last => rfl
    · rw [filter_cons, if_neg (fun hd ↦ h (of_decide_eq_true hd)),
        AList.lookup_insert_ne (Ne.symm h)]

theorem lookup_decodeGroupInfo : (decodeGroupInfo groupInfo row.familyMap).2.lookup g =
    (row.familyMap.filter fun cell ↦ (ofLex cell.1).1 = g).getLast?.map fun cell ↦
      ((ofLex cell.1).2 : Int) + 1 := by
  rw [decodeGroupInfo, lookup_foldl_decodeCell, AList.lookup_empty, Option.or_none]

theorem lookup_decodeGroupInfo_eq_none (groupInfo : GroupInfo) :
    (decodeGroupInfo groupInfo row.familyMap).2.lookup g = none ↔ row.size g = 0 := by
  rw [lookup_decodeGroupInfo, Option.map_eq_none_iff, List.getLast?_eq_none_iff, ← List.isEmpty_iff,
    isEmpty_filter_familyMap]

/-- The size of a group is taken from its last instance. -/
theorem lookup_decodeGroupInfo_eq_some
    (h : (decodeGroupInfo groupInfo row.familyMap).2.lookup g = some v) :
      (∀ i : Nat, (row.cell g i).isSome = true → (i : Int) < v) ∧ ∃ i : Nat, (row.cell g i).isSome =
        true ∧ (i : Int) + 1 = v := by
  rw [lookup_decodeGroupInfo] at h
  obtain ⟨last, hlast, rfl⟩ := Option.map_eq_some_iff.mp h
  obtain ⟨init, hinit⟩ := getLast?_eq_some_iff.mp hlast
  have hmem : ∀ {c : Column} {r : StartRow}, (c, r) ∈ init ++ [last] ↔ row.cells c = some r ∧
    (ofLex c).1 = g := by
    intro c r
    rw [← hinit, mem_filter, mem_familyMap, decide_eq_true_eq]
  have hsorted : (init ++ [last]).Pairwise fun a b ↦ a.1 < b.1 := by
    have hsort : (row.familyMap.map Prod.fst).Pairwise (· < ·) := by
      rw [map_fst_familyMap]
      exact (Finset.sortedLT_sort _).pairwise
    rw [← hinit]
    exact (pairwise_map.mp hsort).filter _
  obtain ⟨hcell, hg⟩ := hmem.mp (mem_append_right init (mem_singleton.mpr rfl) :
    (last.1, last.2) ∈ _)
  have hcolumn : last.1 = getConsumerStateColumn g (ofLex last.1).2 := by rw [← hg]; rfl
  refine ⟨fun i hi ↦ ?_, (ofLex last.1).2, ?_, rfl⟩
  · obtain ⟨r, hr⟩ := Option.isSome_iff_exists.mp hi
    rcases mem_append.mp (hmem.mpr ⟨hr, rfl⟩) with hin | hin
    · have hlt := (pairwise_append.mp hsorted).2.2 _ hin last mem_cons_self
      rw [hcolumn] at hlt
      rcases Prod.Lex.lt_iff.mp hlt with hlt | ⟨-, hlt⟩
      · exact absurd hlt (lt_irrefl _)
      · have : i < (ofLex last.1).2 := hlt
        omega
    · rw [← mem_singleton.mp hin]
      exact Int.lt_succ i
  · rw [ConfigRow.cell, ← hcolumn, hcell]
    rfl

end Decode

/-! ## `configureGroups` -/

section ConfigureGroups

variable {table : ConfigTable} {q : QueueName} {row row' : ConfigRow} {groupInfo : GroupInfo}
  {g : Nat} {n v : Int} {rowKey : List UInt8}

/-- The cells of an entry that is a new group. -/
def groupCells (decoded : Option StartRow × GroupInfo) (entry : (_ : Nat) × Int) :
    List (Column × StartRow) :=
  match decoded.2.lookup entry.1 with
  | none =>
    (range entry.2.toNat).map fun i ↦ (getConsumerStateColumn entry.1 i, decoded.1.getD [])
  | some _ => []

/-- The mutations of an entry that is a group with another size. -/
def groupMutations (row : ConfigRow) (decoded : Option StartRow × GroupInfo) (rowKey : List UInt8)
    (entry : (_ : Nat) × Int) : List Mutation :=
  match decoded.2.lookup entry.1 with
  | none => []
  | some oldInstances =>
    if oldInstances ≠ entry.2 then
      changeMutations entry.1 entry.2 rowKey (statesOf row entry.1)
        ((smallestStartRow (statesOf row entry.1)).getD [])
    else []

/-- The columns below the size of a group are all columns of the group. -/
theorem filter_columnMap (h : (decodeGroupInfo groupInfo row.familyMap).2.lookup g = some v) :
    (row.familyMap.filter fun cell ↦ getConsumerStateColumn g 0 ≤ cell.1 ∧
      cell.1 < getConsumerStateColumn g v.toNat) = row.familyMap.filter fun cell ↦
        (ofLex cell.1).1 = g := by
  refine filter_congr fun ⟨c, r⟩ hcell ↦ decide_eq_decide.mpr ?_
  have hiff : getConsumerStateColumn g 0 ≤ c ∧ c < getConsumerStateColumn g v.toNat ↔
      (ofLex c).1 = g ∧ (ofLex c).2 < v.toNat := by
    rw [getConsumerStateColumn, getConsumerStateColumn, Prod.Lex.le_iff, Prod.Lex.lt_iff,
      ofLex_toLex, ofLex_toLex]
    dsimp only
    omega
  refine hiff.trans (and_iff_left_of_imp fun hg ↦ ?_)
  have hsome : (row.cell g (ofLex c).2).isSome = true := by
    rw [ConfigRow.cell, ← hg]
    exact Option.isSome_iff_exists.mpr ⟨r, mem_familyMap.mp hcell⟩
  have := (lookup_decodeGroupInfo_eq_some h).1 _ hsome
  omega

theorem configureGroup_eq (changes : List (Column × StartRow) × List Mutation)
    (entry : (_ : Nat) × Int) : configureGroup row.familyMap
      (decodeGroupInfo groupInfo row.familyMap) rowKey changes entry =
        .ok (changes.1 ++ groupCells (decodeGroupInfo groupInfo row.familyMap) entry,
        changes.2 ++ groupMutations row (decodeGroupInfo groupInfo row.familyMap)
          rowKey entry) := by
  rw [configureGroup, groupCells, groupMutations]
  cases hlookup : (decodeGroupInfo groupInfo row.familyMap).2.lookup entry.1 with
  | none => simp only [append_nil]
  | some v =>
    by_cases hv : v = entry.2
    · simp [hv]
    · have hsize : row.size entry.1 ≠ 0 := fun h ↦ by
        rw [(lookup_decodeGroupInfo_eq_none _).mpr h] at hlookup
        cases hlookup
      obtain ⟨smallest, hs⟩ := Option.ne_none_iff_exists'.mp (smallestStartRow_ne_none hsize)
      simp only [ne_eq, hv, not_false_eq_true, if_true, filter_columnMap hlookup, create_filter,
        getConfigMutations, hs, Option.getD_some, append_nil]
      rfl

theorem foldlM_configureGroup (entries : List ((_ : Nat) × Int))
    (changes : List (Column × StartRow) × List Mutation) :
    entries.foldlM (configureGroup row.familyMap (decodeGroupInfo groupInfo row.familyMap) rowKey)
      changes = .ok (changes.1 ++ entries.flatMap
        (groupCells (decodeGroupInfo groupInfo row.familyMap)), changes.2 ++ entries.flatMap
          (groupMutations row (decodeGroupInfo groupInfo row.familyMap) rowKey)) := by
  induction entries generalizing changes with
  | nil => simp only [foldlM_nil, flatMap_nil, append_nil]; rfl
  | cons entry entries ih =>
    rw [foldlM_cons, configureGroup_eq, flatMap_cons,
      flatMap_cons, ← append_assoc, ← append_assoc]
    exact ih _

variable {decoded : Option StartRow × GroupInfo}

theorem not_touches_groupMutations {entry : (_ : Nat) × Int}
    (h : entry.1 ≠ g) {m : Mutation} (hm : m ∈ groupMutations row decoded rowKey entry) :
      ¬ Touches g m := by
  rw [groupMutations] at hm
  split at hm
  · cases hm
  · split at hm
    · exact not_touches_of_mem_changeMutations (Ne.symm h) hm
    · cases hm

theorem rowKey_of_mem_groupMutations {entry : (_ : Nat) × Int}
    {m : Mutation} (hm : m ∈ groupMutations row decoded rowKey entry) : m.rowKey = rowKey := by
  rw [groupMutations] at hm
  split at hm
  · cases hm
  · split at hm
    · exact rowKey_of_mem_changeMutations hm
    · cases hm

/-- The mutations of the other groups do not matter for a group. -/
theorem cell_flatMap_groupMutations (row : ConfigRow) {entries : List ((_ : Nat) × Int)}
    (decoded : Option StartRow × GroupInfo) (rowKey : List UInt8) (hnodup : entries.NodupKeys)
    (hmem : ⟨g, n⟩ ∈ entries) (hrow : ∀ i, row'.cell g i = row.cell g i) :
    ∃ row'', (∀ i, row''.cell g i = row.cell g i) ∧
      ∀ i, ((entries.flatMap (groupMutations row decoded rowKey)).foldl Mutation.applyTo row').cell
        g i = ((groupMutations row decoded rowKey ⟨g, n⟩).foldl Mutation.applyTo row'').cell
          g i := by
  obtain ⟨l, l', rfl⟩ := append_of_mem hmem
  have hpair := pairwise_append.mp (nodupKeys_iff_pairwise.mp hnodup)
  have hl : ∀ m ∈ l.flatMap (groupMutations row decoded rowKey), ¬ Touches g m := by
    intro m hm
    obtain ⟨entry, hentry, hm⟩ := mem_flatMap.mp hm
    exact not_touches_groupMutations (hpair.2.2 entry hentry _ mem_cons_self) hm
  have hl' : ∀ m ∈ l'.flatMap (groupMutations row decoded rowKey), ¬ Touches g m := by
    intro m hm
    obtain ⟨entry, hentry, hm⟩ := mem_flatMap.mp hm
    exact not_touches_groupMutations ((pairwise_cons.mp hpair.2.1).1 entry hentry).symm hm
  refine ⟨(l.flatMap (groupMutations row decoded rowKey)).foldl Mutation.applyTo row',
    fun i ↦ ?_, fun i ↦ ?_⟩
  · rw [cell_of_not_touches hl, hrow]
  · rw [flatMap_append, flatMap_cons, foldl_append, foldl_append,
      cell_of_not_touches hl']

theorem mem_flatMap_groupCells {i : Nat} {r : StartRow} :
    (getConsumerStateColumn g i, r) ∈ groupInfo.entries.flatMap (groupCells decoded) ↔
      ∃ n, groupInfo.lookup g = some n ∧ decoded.2.lookup g = none ∧ (i : Int) < n ∧
        r = decoded.1.getD [] := by
  rw [mem_flatMap]
  constructor
  · rintro ⟨⟨g', n⟩, hentry, hcell⟩
    rw [groupCells] at hcell
    split at hcell
    · rename_i hlookup
      obtain ⟨j, hj, heq⟩ := mem_map.mp hcell
      obtain ⟨hcolumn, rfl⟩ := Prod.mk.inj heq
      obtain ⟨rfl, rfl⟩ := getConsumerStateColumn_inj.mp hcolumn
      have hlt := mem_range.mp hj
      exact ⟨n, AList.mem_lookup_iff.mpr hentry, hlookup, by dsimp only at hlt; omega, rfl⟩
    · cases hcell
  · rintro ⟨n, hn, hlookup, hlt, rfl⟩
    refine ⟨⟨g, n⟩, AList.mem_lookup_iff.mp hn, ?_⟩
    rw [groupCells, hlookup]
    exact mem_map.mpr ⟨i, mem_range.mpr (by dsimp only; omega), rfl⟩

theorem mem_removedColumns {oldGroupInfo : GroupInfo} {c : Column} :
    c ∈ removedColumns groupInfo oldGroupInfo ↔ ∃ g ∉ groupInfo, ∃ v,
      oldGroupInfo.lookup g = some v ∧ ∃ i : Nat, (i : Int) < v ∧
        c = getConsumerStateColumn g i := by
  rw [removedColumns, mem_flatMap]
  constructor
  · rintro ⟨⟨g, v⟩, hentry, hc⟩
    obtain ⟨hentry, hg⟩ := mem_filter.mp hentry
    obtain ⟨i, hi, rfl⟩ := mem_map.mp hc
    have hlt := mem_range.mp hi
    exact ⟨g, of_decide_eq_true hg, v, AList.mem_lookup_iff.mpr hentry, i,
      by dsimp only at hlt; omega, rfl⟩
  · rintro ⟨g, hg, v, hlookup, i, hi, rfl⟩
    exact ⟨⟨g, v⟩, mem_filter.mpr ⟨AList.mem_lookup_iff.mp hlookup, decide_eq_true hg⟩,
      mem_map.mpr ⟨i, mem_range.mpr (by dsimp only; omega), rfl⟩⟩

/-- Groups that are not requested lose all cells. -/
theorem cell_removed (row : ConfigRow) (groupInfo : GroupInfo) (g i : Nat) :
    ((removedColumns groupInfo (decodeGroupInfo groupInfo row.familyMap).2).foldl
      ConfigRow.deleteCell row).cell g i = if g ∈ groupInfo then row.cell g i else none := by
  by_cases hg : g ∈ groupInfo
  · rw [if_pos hg]
    refine cells_deleteCells_of_not_mem fun hmem ↦ ?_
    obtain ⟨g', hg', v, -, j, -, heq⟩ := mem_removedColumns.mp hmem
    exact hg' ((getConsumerStateColumn_inj.mp heq).1 ▸ hg)
  · rw [if_neg hg]
    by_cases hmem : getConsumerStateColumn g i ∈
        removedColumns groupInfo (decodeGroupInfo groupInfo row.familyMap).2
    · exact cells_deleteCells_of_mem hmem
    · rw [ConfigRow.cell, cells_deleteCells_of_not_mem
        hmem, ← ConfigRow.cell, ← Option.not_isSome_iff_eq_none]
      intro hsome
      cases hlookup : (decodeGroupInfo groupInfo row.familyMap).2.lookup g with
      | none => exact size_pos_iff.mpr ⟨i, hsome⟩ ((lookup_decodeGroupInfo_eq_none _).mp hlookup)
      | some v =>
        exact hmem (mem_removedColumns.mpr
          ⟨g, hg, v, hlookup, i, (lookup_decodeGroupInfo_eq_some hlookup).1 i hsome, rfl⟩)

/-- The row that `configureGroups` leaves. -/
def configuredRow (row : ConfigRow) (groupInfo : GroupInfo) (rowKey : List UInt8) : ConfigRow :=
  let decoded := decodeGroupInfo groupInfo row.familyMap
  (groupInfo.entries.flatMap (groupCells decoded)).foldl ConfigRow.putCell
    ((groupInfo.entries.flatMap (groupMutations row decoded rowKey)).foldl Mutation.applyTo
      ((removedColumns groupInfo decoded.2).foldl ConfigRow.deleteCell row))

theorem configureGroups_eq (table : ConfigTable) (q : QueueName) (h : groupInfo.entries ≠ []) :
    configureGroups table q groupInfo =
      .ok (update table q.toBytes
        (configuredRow (table q.toBytes) groupInfo q.toBytes)) := by
  rw [configureGroups, if_neg fun hempty ↦ h (isEmpty_iff.mp hempty)]
  dsimp only
  rw [foldlM_configureGroup]
  refine congrArg Except.ok ?_
  dsimp only
  rw [nil_append, batch_of_rowKey q.toBytes]
  · rw [foldl_append, foldl_append, configuredRow]
    rcases removedColumns groupInfo (decodeGroupInfo groupInfo (table q.toBytes).familyMap).2
      with _ | ⟨c, columns⟩
    · rfl
    · rfl
  · intro m hm
    rcases mem_append.mp hm with hm | hm
    · rcases mem_append.mp hm with hm | hm
      · split at hm
        · cases hm
        · rw [mem_singleton.mp hm]
          rfl
      · obtain ⟨entry, -, hm⟩ := mem_flatMap.mp hm
        exact rowKey_of_mem_groupMutations hm
    · rw [mem_singleton.mp hm]
      rfl

/-- Groups that are not requested are gone. -/
theorem cell_configuredRow_of_not_mem (hg : g ∉ groupInfo) (i : Nat) :
    (configuredRow row groupInfo rowKey).cell g i = none := by
  have hlookup := AList.lookup_eq_none.mpr hg
  rw [configuredRow, ConfigRow.cell, cells_putCells_of_not_mem, ← ConfigRow.cell,
    cell_of_not_touches, cell_removed, if_neg hg]
  · intro m hm
    obtain ⟨⟨g', n⟩, hentry, hm⟩ := mem_flatMap.mp hm
    refine not_touches_groupMutations (fun heq ↦ ?_) hm
    have hn : n ∈ groupInfo.lookup g' := AList.mem_lookup_iff.mpr hentry
    rw [show g' = g from heq, hlookup] at hn
    cases hn
  · intro r hr
    obtain ⟨n, hn, -⟩ := mem_flatMap_groupCells.mp hr
    rw [hlookup] at hn
    cases hn

/-- What is put last does not matter for groups there are. -/
theorem cell_configuredRow (row : ConfigRow) (rowKey : List UInt8)
    (hn : groupInfo.lookup g = some n) : ∃ row'', (∀ i, row''.cell g i = row.cell g i) ∧ ∀ i,
        (∀ r, (getConsumerStateColumn g i, r) ∉ groupInfo.entries.flatMap
          (groupCells (decodeGroupInfo groupInfo row.familyMap))) →
      (configuredRow row groupInfo rowKey).cell g i =
        ((groupMutations row (decodeGroupInfo groupInfo row.familyMap) rowKey ⟨g, n⟩).foldl
          Mutation.applyTo row'').cell g i := by
  obtain ⟨row'', hrow, hcell⟩ := cell_flatMap_groupMutations row
    (decodeGroupInfo groupInfo row.familyMap) rowKey groupInfo.nodupKeys
    (AList.mem_lookup_iff.mp (Option.mem_def.mpr hn)) (fun i ↦ by
      rw [cell_removed row groupInfo, if_pos (AList.lookup_isSome.mp (by rw [hn]; rfl))])
  refine ⟨row'', hrow, fun i hi ↦ ?_⟩
  rw [← hcell, configuredRow, ConfigRow.cell, cells_putCells_of_not_mem hi]
  rfl

/-- A new group. -/
theorem cell_configuredRow_of_size (hn : groupInfo.lookup g = some n)
    (hsize : row.size g = 0) (i : Nat) : (configuredRow row groupInfo rowKey).cell g i =
      if (i : Int) < n then
      some ((decodeGroupInfo groupInfo row.familyMap).1.getD []) else none := by
  have hlookup := (lookup_decodeGroupInfo_eq_none groupInfo).mpr hsize
  split
  · rename_i hlt
    refine cells_putCells_of_mem (mem_flatMap_groupCells.mpr ⟨n, hn, hlookup, hlt, rfl⟩)
      fun r hr ↦ ?_
    obtain ⟨n, -, -, -, hr⟩ := mem_flatMap_groupCells.mp hr
    exact hr
  · rename_i hlt
    obtain ⟨row'', hrow, hcell⟩ := cell_configuredRow row rowKey hn
    rw [hcell, groupMutations, hlookup, foldl_nil, hrow, ← Option.not_isSome_iff_eq_none]
    · exact fun h ↦ size_pos_iff.mpr ⟨i, h⟩ hsize
    · intro r hr
      obtain ⟨n', hn', -, hlt', -⟩ := mem_flatMap_groupCells.mp hr
      obtain rfl := Option.some.inj (hn.symm.trans hn')
      exact hlt hlt'

/-- **A group that is requested is as it should be exactly** if it has no gaps. -/
theorem groupConfigured_configuredRow_iff (rowKey : List UInt8) (hn : groupInfo.lookup g = some n) :
    GroupConfigured row (configuredRow row groupInfo rowKey) g n ↔ row.Dense g n := by
  by_cases hsize : row.size g = 0
  · refine iff_of_true ⟨fun i ↦ ?_, fun h ↦ absurd hsize h, fun h i ↦ ?_⟩ fun i hi ↦
      absurd hi (by omega)
    · rw [cell_configuredRow_of_size hn hsize]
      split
      · rename_i hlt
        exact iff_of_true rfl hlt
      · rename_i hlt
        exact iff_of_false (by decide) hlt
    · rw [cell_configuredRow_of_size hn hsize, if_neg (by omega),
        eq_comm, ← Option.not_isSome_iff_eq_none]
      exact fun h ↦ size_pos_iff.mpr ⟨i, h⟩ hsize
  · cases hlookup : (decodeGroupInfo groupInfo row.familyMap).2.lookup g with
    | none => exact absurd ((lookup_decodeGroupInfo_eq_none _).mp hlookup) hsize
    | some v =>
      obtain ⟨row'', hrow, hcell⟩ := cell_configuredRow row rowKey hn
      have hput : ∀ i r, (getConsumerStateColumn g i, r) ∉
          groupInfo.entries.flatMap (groupCells (decodeGroupInfo groupInfo row.familyMap)) := by
        intro i r hr
        obtain ⟨-, -, hnone, -⟩ := mem_flatMap_groupCells.mp hr
        rw [hlookup] at hnone
        cases hnone
      have hcell := fun i ↦ hcell i (hput i)
      simp only [groupMutations, hlookup] at hcell
      by_cases hv : v = n
      · simp only [hv, ne_eq, not_true_eq_false, if_false, foldl_nil] at hcell
        obtain ⟨hlt, hlast⟩ := lookup_decodeGroupInfo_eq_some hlookup
        rw [hv] at hlt hlast
        exact groupConfigured_iff_of_last hlt hlast fun i ↦ (hcell i).trans (hrow i)
      · obtain ⟨smallest, hs⟩ := Option.ne_none_iff_exists'.mp (smallestStartRow_ne_none hsize)
        simp only [hv, ne_eq, not_false_eq_true, if_true, hs, Option.getD_some] at hcell
        have hnew := fun i ↦ (hcell i).trans (cell_changeMutations hrow i)
        by_cases hsn : (row.size g : Int) = n
        · -- as many instances as are wanted, but not the first ones
          have hdense : ¬ row.Dense g n := fun h ↦ by
            obtain ⟨hlt, k, hk, hkv⟩ := lookup_decodeGroupInfo_eq_some hlookup
            have hiff := fun i ↦ isSome_cell_iff (i := i) fun i hi ↦ h i hi (by omega)
            have hlast := hlt (row.size g - 1) ((hiff _).mpr (by omega))
            have := (hiff k).mp hk
            omega
          exact iff_of_false (fun h ↦ hdense (dense_of_groupConfigured h hnew)) hdense
        · exact groupConfigured_iff_of_change hsn ((smallest_statesOf row g).isLeast _ hs) hnew

/-- A new group starts at the smallest start row of the groups that stay. -/
theorem created_configuredRow (hn : groupInfo.lookup g = some n) (hsize : row.size g = 0) {i : Nat}
    (hi : (i : Int) < n) :
    (∃ r, IsLeast (remaining row groupInfo) r ∧ (configuredRow row groupInfo rowKey).cell
      g i = some r) ∨ remaining row groupInfo = ∅ ∧ (configuredRow row groupInfo rowKey).cell g i =
        some [] := by
  have hsmallest := smallest_decodeGroupInfo row groupInfo
  rw [cell_configuredRow_of_size hn hsize, if_pos hi]
  cases hs : (decodeGroupInfo groupInfo row.familyMap).1 with
  | none => exact .inr ⟨hsmallest.eq_empty hs, rfl⟩
  | some r => exact .inl ⟨r, hsmallest.isLeast r hs, rfl⟩

/-- **`configureGroups` does what it is meant to do exactly** for groups without gaps. -/
theorem configureGroups_iff :
    (∃ table', configureGroups table q groupInfo = .ok table' ∧
      GroupsConfigured table table' q groupInfo) ↔ groupInfo.entries ≠ [] ∧ ∀ g n,
        groupInfo.lookup g = some n → (table q.toBytes).Dense g n := by
  by_cases hentries : groupInfo.entries = []
  · refine iff_of_false ?_ fun h ↦ h.1 hentries
    rintro ⟨table', h, -⟩
    rw [configureGroups, if_pos (isEmpty_iff.mpr hentries)] at h
    cases h
  · have hok := configureGroups_eq table q hentries
    have hself : update table q.toBytes
        (configuredRow (table q.toBytes) groupInfo q.toBytes) q.toBytes =
          configuredRow (table q.toBytes) groupInfo q.toBytes := update_self _ _ _
    constructor
    · rintro ⟨table', h, hspec⟩
      obtain rfl := Except.ok.inj (hok.symm.trans h)
      refine ⟨hentries, fun g n hn ↦ (groupConfigured_configuredRow_iff q.toBytes hn).mp ?_⟩
      have hgroup := hspec.groups g n hn
      rwa [hself] at hgroup
    · rintro ⟨-, hdense⟩
      have hgroup := fun g n hn ↦ (groupConfigured_configuredRow_iff q.toBytes hn).mpr
        (hdense g n hn)
      refine ⟨_, hok, ?_, ?_, ?_, fun q' hq' ↦ update_of_ne
        (fun h ↦ hq' (toBytes_inj.mp h)) _ _, ?_⟩
      · rwa [hself]
      · rw [hself]
        exact fun g n hn hsize i hi ↦ created_configuredRow hn hsize hi
      · rw [hself]
        exact fun g hg i ↦ cell_configuredRow_of_not_mem hg i
      · rw [hself]
        exact fun g n hn hpos r hr ↦ (hgroup g n hn).minimum hpos hr

end ConfigureGroups

/-! ## Tables in use -/

section Reachable

/-- No group has a gap. -/
def GapFree (row : ConfigRow) : Prop :=
  ∀ g i j, i ≤ j → (row.cell g j).isSome = true → (row.cell g i).isSome = true

/-- A consumer of an instance there is saves its start row. -/
def saveState (table : ConfigTable) (q : QueueName) (g i : Nat) (startRow : StartRow) :
    ConfigTable :=
  update table q.toBytes ((table q.toBytes).putCell (getConsumerStateColumn g i, startRow))

/-- The tables that reconfiguration and consumers make. -/
inductive Reachable : ConfigTable → Prop
  | empty : Reachable fun _ ↦ .empty
  | configureInstances {table table' : ConfigTable} {q : QueueName} {g : Nat} {n : Int}
      (h : Reachable table) (hok : configureInstances table q g n = .ok table') : Reachable table'
  | configureGroups {table table' : ConfigTable} {q : QueueName} {groupInfo : GroupInfo}
      (h : Reachable table) (hok : configureGroups table q groupInfo = .ok table') :
        Reachable table'
  | saveState {table : ConfigTable} {q : QueueName} {g i : Nat} (h : Reachable table)
      (hcell : ((table q.toBytes).cell g i).isSome = true) (startRow : StartRow) :
      Reachable (saveState table q g i startRow)

variable {row : ConfigRow} {g : Nat} {n : Int}

theorem GapFree.dense (h : GapFree row) (g : Nat) (n : Int) : row.Dense g n := by
  intro i hi _
  by_contra hcell
  -- then all instances are below `i`
  have hle : row.size g ≤ i := size_le fun j hj ↦ by
    by_contra hij
    exact hcell (h g i j (by omega) hj)
  omega

variable {table table' : ConfigTable} {q : QueueName} {groupInfo : GroupInfo}

theorem pos_of_configureInstances_ok (hok : configureInstances table q g n = .ok table') :
    0 < n ∧ (table q.toBytes).size g ≠ 0 := by
  rw [configureInstances] at hok
  split at hok
  · rename_i hn
    refine ⟨hn, fun hsize ↦ ?_⟩
    simp only [isEmpty_filter_familyMap, if_pos hsize] at hok
    cases hok
  · cases hok

theorem GroupConfigured.isSome_of_le {new : ConfigRow} (h : GroupConfigured row new g n) {i j : Nat}
    (hij : i ≤ j) (hj : (new.cell g j).isSome = true) : (new.cell g i).isSome = true :=
  (h.exactly i).mpr (by have := (h.exactly j).mp hj; omega)

/-- **No group of a table in use has a gap.** -/
theorem Reachable.gapFree (h : Reachable table) (q : QueueName) : GapFree (table q.toBytes) := by
  induction h generalizing q with
  | empty => exact fun g i j _ hj ↦ by cases hj
  | @configureInstances table table' q' g n _ hok ih =>
    obtain ⟨hn, hsize⟩ := pos_of_configureInstances_ok hok
    obtain ⟨table'', hok', hspec⟩ := configureInstances_iff.mpr ⟨hn, hsize, (ih q').dense g n⟩
    obtain rfl := Except.ok.inj (hok.symm.trans hok')
    by_cases hq : q = q'
    · intro g' i j hij hj
      rw [hq] at hj ⊢
      by_cases hg : g' = g
      · rw [hg] at hj ⊢
        exact hspec.group.isSome_of_le hij hj
      · rw [hspec.groups g' hg] at hj ⊢
        exact ih q' g' i j hij hj
    · rw [hspec.queues q hq]
      exact ih q
  | @configureGroups table table' q' groupInfo _ hok ih =>
    have hentries : groupInfo.entries ≠ [] := by
      intro hentries
      rw [QueueAdmin.configureGroups, if_pos (isEmpty_iff.mpr hentries)] at hok
      cases hok
    obtain ⟨table'', hok', hspec⟩ :=
      configureGroups_iff.mpr ⟨hentries, fun g n _ ↦ (ih q').dense g n⟩
    obtain rfl := Except.ok.inj (hok.symm.trans hok')
    by_cases hq : q = q'
    · intro g i j hij hj
      rw [hq] at hj ⊢
      cases hn : groupInfo.lookup g with
      | none =>
        rw [hspec.gone g (AList.lookup_eq_none.mp hn)] at hj
        cases hj
      | some n => exact (hspec.groups g n hn).isSome_of_le hij hj
    · rw [hspec.queues q hq]
      exact ih q
  | @saveState table q' g i _ hcell startRow ih =>
    by_cases hq : q = q'
    · have hsome : ∀ g' j, ((QueueAdmin.saveState table q' g i startRow q'.toBytes).cell
          g' j).isSome = ((table q'.toBytes).cell g' j).isSome := by
        intro g' j
        rw [QueueAdmin.saveState, update_self, ConfigRow.cell, ConfigRow.putCell]
        by_cases heq : getConsumerStateColumn g' j = getConsumerStateColumn g i
        · obtain ⟨rfl, rfl⟩ := getConsumerStateColumn_inj.mp heq
          dsimp only
          rw [update_self, hcell]
          rfl
        · dsimp only
          rw [update_of_ne heq]
          rfl
      intro g' j k hjk hk
      rw [hq, hsome] at hk ⊢
      exact ih q' g' j k hjk hk
    · rw [QueueAdmin.saveState, update_of_ne fun h ↦ hq (toBytes_inj.mp h)]
      exact ih q

/-- **Reconfiguration does what it is meant to do exactly** for groups without gaps, and for
`configureInstances` only if the group exists; there are no gaps in tables in use. -/
theorem reconfigures_iff :
    (∀ (table : ConfigTable) (q : QueueName) (g : Nat) (n : Int),
      (∃ table', configureInstances table q g n = .ok table' ∧
        InstancesConfigured table table' q g n) ↔ 0 < n ∧ (table q.toBytes).size g ≠ 0 ∧
          (table q.toBytes).Dense g n) ∧
    (∀ (table : ConfigTable) (q : QueueName) (groupInfo : GroupInfo),
      (∃ table', configureGroups table q groupInfo = .ok table' ∧
        GroupsConfigured table table' q groupInfo) ↔ groupInfo.entries ≠ [] ∧ ∀ g n,
          groupInfo.lookup g = some n → (table q.toBytes).Dense g n) ∧
    ∀ table : ConfigTable, Reachable table → ∀ (q : QueueName) (g : Nat) (n : Int),
      (table q.toBytes).Dense g n :=
  ⟨fun _ _ _ _ ↦ configureInstances_iff, fun _ _ _ ↦ configureGroups_iff,
    fun _ h q g n ↦ (h.gapFree q).dense g n⟩

/-- A table with a cell for the second instance of a group only. -/
def gapTable : ConfigTable := fun _ ↦ ConfigRow.empty.putCell (getConsumerStateColumn 0 1, [])

/-- A group that does not exist, and a group with a gap. -/
theorem exists_not_reconfigured :
    ¬ ((∀ (table : ConfigTable) (q : QueueName) (g : Nat) (n : Int), 0 < n →
        ∃ table', configureInstances table q g n = .ok table' ∧
          InstancesConfigured table table' q g n) ∨
      ∀ (table : ConfigTable) (q : QueueName) (groupInfo : GroupInfo), groupInfo.entries ≠ [] →
        ∃ table', configureGroups table q groupInfo = .ok table' ∧
          GroupsConfigured table table' q groupInfo) := by
  rintro (h | h)
  · exact (configureInstances_iff.mp (h (fun _ ↦ .empty) fOut 0 1 (by decide))).2.1 rfl
  · have hdense := (configureGroups_iff.mp (h gapTable fOut (AList.singleton 0 2) (by decide))).2
      0 2 rfl
    have hcell := hdense 0 (by decide) (by decide)
    revert hcell
    decide

end Reachable

end QueueAdmin
end Tigon
