import Tigon.Hfta.HashTable
import Tigon.Lib.Grouping
import Tigon.Lib.Transducer

/-!
# The group-by operator

`groupby_operator` aggregates the tuples of a stream by group, epoch by epoch: when the temporal
group-by variable changes, what was aggregated is put out and a new epoch starts.  It has two hash
tables.  One takes the groups of the current epoch; the other one holds those of the epoch before,
and is put out one group at a time, whenever a tuple arrives.  If the epoch changes again before
that is done, the rest is put out at once.

The functor is generated by `sgah_qpn::generate_functor`.  What differs from one query to another is
a `GroupbyFunc`; the part of it that notices a change of the temporal group-by variable is
translated here.  A query can have several *grouping patterns*, as a cube or a rollup has; then each
tuple goes to one group for each pattern.

`rows_outputOf` says that the rows put out are those of a group-by of each epoch, if there is only
one pattern, and otherwise as long as no tuple meets a group that is in the table already:
`accept_tuple` looks for the group of the tuple, and not for those of its patterns.
-/

set_option autoImplicit false
set_option linter.unusedSectionVars false

namespace Tigon.Hfta

open List

/-- How the generated functor reads tuples, aggregates them and writes rows.  The type `E` is that
of the temporal group-by variable, and `R` that of the rows. -/
structure GroupbyFunc (D E G A R : Type) where
  isTemporal : D → Bool
  /-- The temporal group-by variable of a tuple. -/
  gbVar : D → E
  /-- What the last value of the temporal group-by variable starts with. -/
  initialGb : E
  /-- The group of a tuple that meets the `WHERE` clause. -/
  createGroup : D → Option G
  createAggregate : D → A
  updateAggregate : D → G → A → A
  /-- The row of a group that meets the `HAVING` clause. -/
  createOutputTuple : G → A → Option R
  createTempStatusTuple : D → E → Bool → R
  /-- The grouping patterns. -/
  patterns : List (G → G)
  hasher : G → Nat
  /-- The temporal group-by variable is part of the group. -/
  currGb : G → E
  currGb_createGroup : ∀ {d : D} {g : G}, createGroup d = some g → currGb g = gbVar d

/-- A tuple that is put out. -/
inductive Output (R : Type)
  | row (r : R)
  | tempStatus (r : R)
deriving DecidableEq, Repr

namespace Output

variable {R : Type}

/-- The rows among the tuples that are put out. -/
def rows (outs : List (Output R)) : List R :=
  outs.filterMap fun
    | .row r => some r
    | .tempStatus _ => none

@[simp] theorem rows_nil : rows ([] : List (Output R)) = [] := rfl

@[simp] theorem rows_append (outs outs' : List (Output R)) :
    rows (outs ++ outs') = rows outs ++ rows outs' := filterMap_append

@[simp] theorem rows_map_row (rs : List R) : rows (rs.map .row) = rs := by
  rw [rows, filterMap_map]
  exact filterMap_some

@[simp] theorem rows_tempStatus (r : R) : rows [tempStatus r] = [] := rfl

end Output

variable {D E G A R : Type} [DecidableEq G]

namespace GroupbyFunc

variable (func : GroupbyFunc D E G A R)

/-- The group of a tuple, if it is a data tuple. -/
def group (d : D) : Option G := if func.isTemporal d then none else func.createGroup d

/-- The row of an item of the table, if it has one. -/
def output (e : G × A) : Option R := func.createOutputTuple e.1 e.2

/-- The items that a tuple whose group is not in the table gets: one for each pattern, if there are
several. -/
def insertGroup (t : HashTable G A func.hasher) (tup : D) (grp : G) : HashTable G A func.hasher :=
  if func.patterns.length ≤ 1 then t.insert grp (func.createAggregate tup)
  else func.patterns.foldl (fun t p ↦ t.insert (p grp) (func.createAggregate tup)) t

/-! ## What a group-by is -/

/-- The groupings that the rows are for.  A single pattern is not looked at. -/
def groupings : List (G → G) := if func.patterns.length ≤ 1 then [id] else func.patterns

/-- The group of a tuple in a grouping. -/
def key (p : G → G) (d : D) : Option G := (func.group d).map p

/-- The groups of some tuples in a grouping, each with the aggregate of its tuples. -/
def groupsBy (p : G → G) (ds : List D) : List (G × A) :=
  Grouping.groupsBy (func.key p) func.createAggregate func.updateAggregate ds

/-- The groups of some tuples in all groupings. -/
def groups (ds : List D) : List (G × A) := func.groupings.flatMap fun p ↦ func.groupsBy p ds

/-- No tuple is of the group that an earlier one has in one of the patterns, and none is of the same
group as an earlier one in one of the patterns. -/
def Spread (ds : List D) : Prop :=
  ds.Pairwise fun d d' ↦ ∀ g ∈ func.group d, ∀ g' ∈ func.group d', ∀ p ∈ func.patterns,
    p g ≠ g' ∧ p g ≠ p g'

/-- The group of a tuple is none of those that some tuples have in the patterns. -/
def Apart (ds : List D) (d' : D) : Prop :=
  ∀ d ∈ ds, ∀ g ∈ func.group d, ∀ g' ∈ func.group d', ∀ p ∈ func.patterns, p g ≠ g'

instance (ds : List D) : Decidable (func.Spread ds) :=
  inferInstanceAs (Decidable (List.Pairwise _ ds))

instance (ds : List D) (d' : D) : Decidable (func.Apart ds d') :=
  inferInstanceAs (Decidable (∀ d ∈ ds, _))

section Groups

variable {ds : List D} {d : D} {g : G}

theorem groups_nil : func.groups [] = [] := by
  rw [groups, flatMap_eq_nil_iff]
  intro p _
  rfl

/-- A tuple that is of no group. -/
theorem groups_snoc_none (h : func.group d = none) : func.groups (ds ++ [d]) = func.groups ds := by
  have hkey : ∀ p, func.key p d = none := by
    intro p
    rw [key, h, Option.map_none]
  simp only [groups, groupsBy, Grouping.groupsBy_snoc_none (hkey _)]

/-- A tuple whose group is new in all groupings. -/
theorem groups_snoc_new (hgrp : func.group d = some g)
    (hnew : ∀ p ∈ func.groupings, p g ∉ (func.groupsBy p ds).map Prod.fst) :
    (func.groups (ds ++ [d])).Perm
      ((func.groupings.map fun p ↦ (p g, func.createAggregate d)) ++ func.groups ds) := by
  have hsnoc : ∀ p ∈ func.groupings, (func.groupsBy p (ds ++ [d])).Perm
      ([(p g, func.createAggregate d)] ++ func.groupsBy p ds) := by
    intro p hp
    refine Grouping.groupsBy_snoc_new ?_ (hnew p hp)
    rw [key, hgrp, Option.map_some]
  refine (List.Perm.flatMap_left _ hsnoc).trans ?_
  refine (flatMap_append_perm _ _ _).symm.trans ?_
  rw [← map_eq_flatMap]
  exact List.Perm.refl _

theorem groupings_of_le_one (hone : func.patterns.length ≤ 1) : func.groupings = [id] := if_pos hone

theorem groupings_of_lt (hlt : 1 < func.patterns.length) : func.groupings = func.patterns :=
  if_neg (Nat.not_le_of_lt hlt)

/-- With one pattern, the groups are those of the tuples. -/
theorem groups_of_le_one (hone : func.patterns.length ≤ 1) : func.groups ds =
    func.groupsBy id ds := by
  rw [groups, func.groupings_of_le_one hone, flatMap_singleton]

theorem key_id : func.key id d = func.group d := by
  rw [key, Option.map_id_fun]
  rfl

/-- The temporal group-by variable is part of the group. -/
theorem gbVar_of_mem (h : g ∈ func.group d) : func.currGb g = func.gbVar d := by
  refine func.currGb_createGroup ?_
  rw [group] at h
  split at h
  · cases h
  · exact h

theorem mem_keys_groupsBy {p : G → G} :
    g ∈ (func.groupsBy p ds).map Prod.fst ↔ ∃ d ∈ ds, ∃ g' ∈ func.group d, p g' = g := by
  rw [groupsBy, Grouping.mem_keys]
  simp only [key, Option.map_eq_some_iff]
  rfl

theorem mem_keys_groups :
    g ∈ (func.groups ds).map Prod.fst ↔
      ∃ p ∈ func.groupings, ∃ d ∈ ds, ∃ g' ∈ func.group d, p g' = g := by
  rw [groups, map_flatMap, mem_flatMap]
  simp only [mem_keys_groupsBy]

/-- The last of some tuples that are spread over the groups is of new groups only. -/
theorem Spread.snoc (h : func.Spread (ds ++ [d])) (hlt : 1 < func.patterns.length)
    (hgrp : func.group d = some g) :
    g ∉ (func.groups ds).map Prod.fst ∧
      ∀ p ∈ func.groupings, p g ∉ (func.groupsBy p ds).map Prod.fst := by
  rw [Spread, pairwise_append] at h
  have hlast : ∀ d' ∈ ds, ∀ g' ∈ func.group d', ∀ p ∈ func.patterns, p g' ≠ g ∧ p g' ≠ p g := by
    intro d' hd' g' hg'
    exact h.2.2 d' hd' d (mem_singleton_self d) g' hg' g hgrp
  rw [mem_keys_groups, func.groupings_of_lt hlt]
  constructor
  · rintro ⟨p, hp, d', hd', g', hg', heq⟩
    exact (hlast d' hd' g' hg' p hp).1 heq
  · intro p hp hmem
    obtain ⟨d', hd', g', hg', heq⟩ := func.mem_keys_groupsBy.mp hmem
    exact (hlast d' hd' g' hg' p hp).2 heq

/-- The items after an insertion for each of some patterns. -/
theorem entries_foldl_insert (t : HashTable G A func.hasher) (ps : List (G → G)) (grp : G) (a : A) :
    (ps.foldl (fun t p ↦ t.insert (p grp) a) t).entries.Perm
      ((ps.map fun p ↦ (p grp, a)) ++ t.entries) := by
  induction ps generalizing t with
  | nil => exact List.Perm.refl _
  | cons p ps ih =>
    rw [foldl_cons, map_cons, cons_append]
    refine (ih _).trans ?_
    refine ((t.entries_insert (p grp) a).append_left _).trans ?_
    exact perm_middle

theorem entries_insertGroup (t : HashTable G A func.hasher) (tup : D) (grp : G) :
    (func.insertGroup t tup grp).entries.Perm
      ((func.groupings.map fun p ↦ (p grp, func.createAggregate tup)) ++ t.entries) := by
  rw [insertGroup, groupings]
  split
  case isTrue => exact t.entries_insert grp _
  case isFalse => exact func.entries_foldl_insert t func.patterns grp _

/-- A table with the groups of some tuples, and a tuple whose group is new in all groupings. -/
theorem perm_insertGroup {t : HashTable G A func.hasher} (h : t.entries.Perm (func.groups ds))
    (hgrp : func.group d = some g)
    (hnew : ∀ p ∈ func.groupings, p g ∉ (func.groupsBy p ds).map Prod.fst) :
    (func.insertGroup t d g).entries.Perm (func.groups (ds ++ [d])) := by
  refine (func.entries_insertGroup t d g).trans ?_
  exact (h.append_left _).trans (func.groups_snoc_new hgrp hnew).symm

/-- A table with the groups of some tuples, and a tuple of one of these groups. -/
theorem perm_modify {t : HashTable G A func.hasher} (h : t.entries.Perm (func.groups ds))
    (hone : func.patterns.length ≤ 1) (hgrp : func.group d = some g) (hmem : g ∈ t.keys) :
    (t.modify g (func.updateAggregate d g)).entries.Perm (func.groups (ds ++ [d])) := by
  rw [func.groups_of_le_one hone] at h
  have hkeys : t.keys.Nodup := (h.map Prod.fst).nodup_iff.mpr Grouping.nodup_keys
  have hmem' : g ∈ (func.groupsBy id ds).map Prod.fst := (h.map Prod.fst).mem_iff.mp hmem
  rw [t.entries_modify hkeys, func.groups_of_le_one hone]
  exact (h.map _).trans (Grouping.groupsBy_snoc_old (func.key_id.trans hgrp) hmem').symm

end Groups

variable [DecidableEq E]

/-- The epochs of a stream. -/
def epochs (ds : List D) : List (List D) := ds.splitBy fun d d' ↦ func.gbVar d = func.gbVar d'

/-- The rows of some epochs. -/
def rowsOf (es : List (List D)) : List R := es.flatMap fun e ↦ (func.groups e).filterMap func.output

/-- The rows of a stream. -/
def reference (ds : List D) : List R := func.rowsOf (func.epochs ds)

/-- There is one pattern only, or no tuple meets a group in the table. -/
def Regular (ds : List D) : Prop :=
  func.patterns.length ≤ 1 ∨ (∀ e ∈ func.epochs ds, func.Spread e) ∧
    (func.epochs ds).IsChain fun e e' ↦ ∀ d ∈ e'.head?, func.Apart e d

section Epochs

variable {func} {ds cur : List D} {closed : List (List D)} {d : D}

theorem epochs_eq_iff :
    func.epochs ds = closed ↔ ds = closed.flatten ∧ [] ∉ closed ∧
      (∀ e ∈ closed, e.IsChain fun d d' ↦ func.gbVar d = func.gbVar d') ∧
      closed.IsChain fun e e' ↦ ∃ he he', func.gbVar (e.getLast he) ≠ func.gbVar (e'.head he') := by
  rw [epochs, splitBy_eq_iff]
  simp only [decide_eq_true_eq, decide_eq_false_iff_not, ne_eq]

/-- A tuple with the same value of the temporal group-by variable. -/
theorem epochs_snoc_of_eq (h : func.epochs ds = closed ++ [cur])
    (hcur : ∀ d' ∈ cur, func.gbVar d' = func.gbVar d) : func.epochs (ds ++ [d]) = closed ++
    [cur ++ [d]] := by
  obtain ⟨rfl, hnil, hchain, hends⟩ := epochs_eq_iff.mp h
  have hne : cur ≠ [] := by
    rintro rfl
    simp at hnil
  refine epochs_eq_iff.mpr ⟨by simp, by simpa using fun h ↦ hnil (by simp [h]), ?_, ?_⟩
  · intro e he
    rcases mem_append.mp he with he | he
    · exact hchain e (mem_append_left _ he)
    · obtain rfl := mem_singleton.mp he
      refine isChain_append.mpr ⟨hchain cur (by simp), isChain_singleton _, ?_⟩
      intro d₁ hd₁ d₂ hd₂
      obtain rfl : d = d₂ := by simpa using hd₂
      exact hcur d₁ (mem_of_mem_getLast? hd₁)
  · rw [isChain_append] at hends ⊢
    refine ⟨hends.1, isChain_singleton _, ?_⟩
    intro e he e' he'
    obtain rfl : cur ++ [d] = e' := by simpa using he'
    obtain ⟨hne₁, hne₂, hlast⟩ := hends.2.2 e he cur (by simp)
    refine ⟨hne₁, by simp, ?_⟩
    rwa [head_append_of_ne_nil hne]

/-- A tuple with another value of the temporal group-by variable. -/
theorem epochs_snoc_of_ne (h : func.epochs ds = closed ++ [cur])
    (hcur : ∀ d' ∈ cur, func.gbVar d' ≠ func.gbVar d) :
    func.epochs (ds ++ [d]) = (closed ++ [cur]) ++ [[d]] := by
  have hds : ds = closed.flatten ++ cur := by
    simpa using (epochs_eq_iff.mp h).1
  have hne : cur ≠ [] := by
    rintro rfl
    have := (epochs_eq_iff.mp h).2.1
    simp at this
  rw [← h, epochs, epochs]
  refine splitBy_append_cons [] fun d' hd' ↦ ?_
  rw [hds, getLast?_append_of_ne_nil _ hne] at hd'
  exact decide_eq_false (hcur d' (mem_of_mem_getLast? hd'))

/-- What a tuple does to the epochs. -/
theorem exists_epochs_snoc (hne : ds ≠ []) (d : D) :
    ∃ closed cur, func.epochs ds = closed ++ [cur] ∧ cur ≠ [] ∧
      ((∀ d' ∈ cur, func.gbVar d' = func.gbVar d) ∧ func.epochs (ds ++ [d]) = closed ++
        [cur ++ [d]] ∨ (∀ d' ∈ cur, func.gbVar d' ≠ func.gbVar d) ∧
          func.epochs (ds ++ [d]) = (closed ++ [cur]) ++ [[d]]) := by
  have hepochs : func.epochs ds ≠ [] := splitBy_ne_nil.mpr hne
  obtain ⟨closed, cur, h⟩ : ∃ closed cur, func.epochs ds = closed ++ [cur] :=
    ⟨_, _, (dropLast_append_getLast hepochs).symm⟩
  obtain ⟨-, hnil, hchain, -⟩ := epochs_eq_iff.mp h
  have hcur : cur ≠ [] := by
    rintro rfl
    simp at hnil
  obtain ⟨d₀, hd₀⟩ := exists_mem_of_ne_nil cur hcur
  -- All tuples of an epoch have the same value.
  have hsame : ∀ d' ∈ cur, func.gbVar d' = func.gbVar d₀ := by
    have hpair := isChain_iff_pairwise.mp
      ((isChain_map func.gbVar).mpr (hchain cur (by simp)))
    intro d' hd'
    exact hpair.forall_of_forall (fun _ _ ↦ rfl) (mem_map_of_mem hd') (mem_map_of_mem hd₀)
  refine ⟨closed, cur, h, hcur, ?_⟩
  by_cases hgb : func.gbVar d₀ = func.gbVar d
  · have hall : ∀ d' ∈ cur, func.gbVar d' = func.gbVar d := by
      intro d' hd'
      rw [hsame d' hd', hgb]
    exact .inl ⟨hall, epochs_snoc_of_eq h hall⟩
  · have hall : ∀ d' ∈ cur, func.gbVar d' ≠ func.gbVar d := by
      intro d' hd'
      rw [hsame d' hd']
      exact hgb
    exact .inr ⟨hall, epochs_snoc_of_ne h hall⟩

/-- The condition for all tuples holds for those before the last one. -/
theorem Regular.of_snoc (h : func.Regular (ds ++ [d])) : func.Regular ds := by
  rcases h with hone | ⟨hspread, hapart⟩
  · exact .inl hone
  rcases eq_or_ne ds [] with rfl | hne
  · exact .inr ⟨by simp [epochs], by simp [epochs]⟩
  obtain ⟨closed, cur, hds, hcur, ⟨-, hsnoc⟩ | ⟨-, hsnoc⟩⟩ := func.exists_epochs_snoc hne d
  · rw [hsnoc] at hspread hapart
    rw [Regular, hds]
    refine .inr ⟨fun e he ↦ ?_, ?_⟩
    · rcases mem_append.mp he with he | he
      · exact hspread e (mem_append_left _ he)
      · rw [mem_singleton.mp he]
        exact (hspread _ (by simp)).sublist (sublist_append_left cur [d])
    · rw [isChain_append] at hapart ⊢
      refine ⟨hapart.1, isChain_singleton _, fun e he e' he' ↦ ?_⟩
      obtain rfl : cur = e' := by simpa using he'
      have := hapart.2.2 e he (cur ++ [d]) (by simp)
      rwa [head?_append_of_ne_nil _ hcur] at this
  · rw [hsnoc] at hspread hapart
    rw [Regular, hds]
    exact .inr ⟨fun e he ↦ hspread e (mem_append_left _ he), (isChain_append.mp hapart).1⟩

end Epochs

end GroupbyFunc

/-- `curr` is `group_table[curr_table]`, and `old` is the other table. -/
structure GroupbyOperator (func : GroupbyFunc D E G A R) where
  curr : HashTable G A func.hasher
  old : HashTable G A func.hasher
  flushFinished : Bool
  flushPos : Option Iterator
  lastGb : E
  lastFlushedGb : E

namespace GroupbyOperator

variable (func : GroupbyFunc D E G A R)

def init : GroupbyOperator func where
  curr := .new
  old := .new
  flushFinished := true
  flushPos := none
  lastGb := func.initialGb
  lastFlushedGb := func.initialGb

/-- The rows of some items of a table. -/
def emit (es : List (G × A)) : List (Output R) := (es.filterMap func.output).map .row

variable {func}

/-- One group of the old table is put out. -/
def partialFlush (op : GroupbyOperator func) : GroupbyOperator func × List (Output R) :=
  let next := if op.old.empty then op.flushPos else op.flushPos.bind op.old.next
  let result := if op.old.empty then []
    else emit func (op.flushPos.bind op.old.deref).toList
  (if next = none then
    { op with flushPos := next, flushFinished := true, old := op.old.clear.rehash }
  else { op with flushPos := next }, result)

/-- What is left of the old table is put out, and the tables change places. -/
def flushOld (op : GroupbyOperator func) : GroupbyOperator func × List (Output R) :=
  ({ op with
      curr := if op.old.empty then op.old else op.old.clear.rehash
      old := op.curr
      flushPos := op.curr.begin
      flushFinished := false },
    if op.old.empty then [] else emit func (op.old.remaining op.flushPos))

/-- What is left of the old table is put out, and then the current one. -/
def flush (op : GroupbyOperator func) : GroupbyOperator func × List (Output R) :=
  ({ op with
      old := if op.old.empty then op.old else op.old.clear.rehash
      curr := if op.curr.empty then op.curr else op.curr.clear
      flushPos := none
      flushFinished := true },
    (if op.old.empty then [] else emit func (op.old.remaining op.flushPos)) ++
      if op.curr.empty then [] else emit func (op.curr.remaining op.curr.begin))

section Accept

variable [DecidableEq E]

/-- `create_group` sees a new value of the temporal group-by variable. -/
def flushNeeded (op : GroupbyOperator func) (tup : D) : Bool := op.lastGb ≠ func.gbVar tup

/-- `create_group` remembers the value. -/
def noteGb (op : GroupbyOperator func) (tup : D) : GroupbyOperator func :=
  if op.flushNeeded tup then { op with lastFlushedGb := op.lastGb, lastGb := func.gbVar tup }
    else op

/-- A tuple whose group is not in the table. -/
def addGroup (op : GroupbyOperator func) (tup : D) (grp : G) : GroupbyOperator func :=
  { op with curr := func.insertGroup op.curr tup grp }

def flushOldIf (op : GroupbyOperator func) (needed : Bool) :
    GroupbyOperator func × List (Output R) :=
  if needed then op.flushOld else (op, [])

/-- `accept_tuple` after completed groups were pushed out. -/
def acceptGroup (op : GroupbyOperator func) (tup : D) : GroupbyOperator func × List (Output R) :=
  let needed := op.flushNeeded tup
  let op := op.noteGb tup
  match func.group tup with
  | none =>
    let r := op.flushOldIf needed
    (r.1, r.2 ++ if func.isTemporal tup then
      [.tempStatus (func.createTempStatusTuple tup r.1.lastFlushedGb r.1.flushFinished)] else [])
  | some grp =>
    match op.curr.find grp with
    | some _ =>
      ({ op with curr := op.curr.modify grp (func.updateAggregate tup grp) }, [])
    | none =>
      let r := op.flushOldIf needed
      (r.1.addGroup tup grp, r.2)

def acceptTuple (op : GroupbyOperator func) (tup : D) : GroupbyOperator func × List (Output R) :=
  if op.flushFinished then op.acceptGroup tup
  else ((op.partialFlush.1.acceptGroup tup).1, op.partialFlush.2 ++
    (op.partialFlush.1.acceptGroup tup).2)

/-- What is put out while the tuples arrive, and by a flush after them. -/
def outputOf (func : GroupbyFunc D E G A R) (tups : List D) : List (Output R) :=
  (Transducer.run acceptTuple (init func) tups).2 ++
    (Transducer.run acceptTuple (init func) tups).1.flush.2

end Accept

/-! ## The tables -/

@[simp] theorem rows_emit (es : List (G × A)) : Output.rows (emit func es) =
    es.filterMap func.output :=
  Output.rows_map_row _

/-- The rows of the closed epochs are out, or in the old table from the flush position on, and the
current table has the groups of the current epoch. -/
structure Books (op : GroupbyOperator func) (outs : List (Output R)) (closed : List (List D))
    (cur : List D) : Prop where
  rows : (Output.rows outs ++ (op.old.remaining op.flushPos).filterMap func.output).Perm
    (func.rowsOf closed)
  curr : op.curr.entries.Perm (func.groups cur)
  valid : ∀ it ∈ op.flushPos, op.old.Valid it
  finished : op.flushFinished = true → op.flushPos = none ∧ op.old.entries = []

section Books

variable {op : GroupbyOperator func} {outs : List (Output R)} {closed : List (List D)}
  {cur : List D}
variable {tup : D} {grp : G}

theorem books_init : (init func).Books [] [] [] where
  rows := List.Perm.refl _
  curr := by
    rw [func.groups_nil]
    exact List.Perm.refl _
  valid := fun it hit ↦ by cases hit
  finished := fun _ ↦ ⟨rfl, rfl⟩

/-- What a flush of a table puts out. -/
theorem rows_emit_remaining {t : HashTable G A func.hasher} {pos : Option Iterator}
    (h : ∀ it ∈ pos, t.Valid it) :
    Output.rows (if t.empty then [] else emit func (t.remaining pos)) =
      (t.remaining pos).filterMap func.output := by
  split
  case isTrue hempty => rw [t.remaining_of_empty h hempty]; rfl
  case isFalse => rw [rows_emit]

theorem Books.partialFlush (h : op.Books outs closed cur) :
    op.partialFlush.1.Books (outs ++ op.partialFlush.2) closed cur := by
  -- What was at the flush position is put out, or the position is at the end.
  have hstep : (op.old.remaining op.flushPos).filterMap func.output =
      Output.rows op.partialFlush.2 ++ (op.old.remaining
        (if op.old.empty then op.flushPos else op.flushPos.bind op.old.next)).filterMap
          func.output := by
    rw [GroupbyOperator.partialFlush]
    split
    case isTrue => rfl
    case isFalse =>
      cases hpos : op.flushPos with
      | none => simp [HashTable.remaining]
      | some it =>
        obtain ⟨e, he, hrest⟩ := op.old.exists_remaining (h.valid it hpos)
        rw [hrest, Option.bind_some, Option.bind_some, he, rows_emit, Option.toList_some]
        exact filterMap_append (l := [e])
  have hvalid : ∀ it ∈ if op.old.empty then op.flushPos else op.flushPos.bind op.old.next,
      op.old.Valid it := by
    intro it hit
    split at hit
    case isTrue => exact h.valid it hit
    case isFalse =>
      obtain ⟨it', hit', hnext⟩ := Option.bind_eq_some_iff.mp hit
      exact HashTable.Valid.next op.old (h.valid it' hit') hnext
  have hrows := h.rows
  rw [hstep, ← append_assoc, ← Output.rows_append] at hrows
  by_cases hnext : (if op.old.empty then op.flushPos else op.flushPos.bind op.old.next) = none
  · have heq : op.partialFlush.1 =
        { op with flushPos := none, flushFinished := true, old := op.old.clear.rehash } := by
      simp only [GroupbyOperator.partialFlush, hnext, if_true]
    rw [hnext] at hrows
    rw [heq]
    exact ⟨hrows, h.curr, fun it hit ↦ (by cases hit), fun _ ↦ ⟨rfl, rfl⟩⟩
  · have heq : op.partialFlush.1 = { op with
        flushPos := if op.old.empty then op.flushPos else op.flushPos.bind op.old.next } := by
      simp only [GroupbyOperator.partialFlush, hnext, if_false]
    rw [heq]
    refine ⟨hrows, h.curr, hvalid, fun hfin ↦ ?_⟩
    rw [(h.finished hfin).1] at hnext
    simp at hnext

/-- The tables change places. -/
theorem Books.flushOld (h : op.Books outs closed cur) :
    op.flushOld.1.Books (outs ++ op.flushOld.2) (closed ++ [cur]) [] where
  rows := by
    simp only [GroupbyOperator.flushOld, Output.rows_append, rows_emit_remaining h.valid,
      HashTable.remaining_begin, GroupbyFunc.rowsOf, flatMap_append, flatMap_singleton]
    exact h.rows.append (h.curr.filterMap _)
  curr := by
    have hnil : op.flushOld.1.curr.entries = [] := by
      simp only [GroupbyOperator.flushOld]
      split
      case isTrue hempty => exact op.old.empty_iff.mp hempty
      case isFalse => rfl
    rw [hnil, func.groups_nil]
  valid := fun it hit ↦ op.curr.valid_begin hit
  finished := fun hfin ↦ by cases hfin

/-- After a flush, everything is out. -/
theorem Books.flush (h : op.Books outs closed cur) :
    (Output.rows (outs ++ op.flush.2)).Perm (func.rowsOf (closed ++ [cur])) := by
  have hvalid : ∀ it ∈ op.curr.begin, op.curr.Valid it := fun it hit ↦ op.curr.valid_begin hit
  simp only [GroupbyOperator.flush, Output.rows_append, rows_emit_remaining h.valid,
    rows_emit_remaining hvalid,    GroupbyFunc.rowsOf, flatMap_append, flatMap_singleton]
  rw [← append_assoc, op.curr.remaining_begin]
  exact h.rows.append (h.curr.filterMap _)

/-- Only the current table is changed. -/
theorem Books.withCurr (h : op.Books outs closed cur) {t : HashTable G A func.hasher}
    {cur' : List D} (ht : t.entries.Perm (func.groups cur')) :
    { op with curr := t }.Books outs closed cur' := ⟨h.rows, ht, h.valid, h.finished⟩

/-- A tuple whose group is new in all groupings. -/
theorem Books.addGroup (h : op.Books outs closed cur) (hgrp : func.group tup = some grp)
    (hnew : ∀ p ∈ func.groupings, p grp ∉ (func.groupsBy p cur).map Prod.fst) :
    (op.addGroup tup grp).Books outs closed (cur ++ [tup]) :=
  h.withCurr (func.perm_insertGroup h.curr hgrp hnew)

theorem Books.mem_keys (h : op.Books outs closed cur) :
    grp ∈ op.curr.keys ↔ grp ∈ (func.groups cur).map Prod.fst := (h.curr.map Prod.fst).mem_iff

variable [DecidableEq E]

theorem Books.noteGb (h : op.Books outs closed cur) (tup : D) :
    (op.noteGb tup).Books outs closed cur := by
  rw [GroupbyOperator.noteGb]
  split
  · exact ⟨h.rows, h.curr, h.valid, h.finished⟩
  · exact h

theorem lastGb_noteGb (op : GroupbyOperator func) (tup : D) : (op.noteGb tup).lastGb =
    func.gbVar tup := by
  rw [GroupbyOperator.noteGb]
  split
  case isTrue => rfl
  case isFalse h => simpa [flushNeeded] using h

theorem rows_tempStatus_if (b : Bool) (r : R) :
    Output.rows (if b then [.tempStatus r] else []) = [] := by
  cases b <;> rfl

/-- Tuples that are no rows do not matter. -/
theorem Books.append_of_rows_eq_nil {outs' : List (Output R)} (h : op.Books outs closed cur)
    (hrows : Output.rows outs' = []) : op.Books (outs ++ outs') closed cur := by
  refine ⟨?_, h.curr, h.valid, h.finished⟩
  rw [Output.rows_append, hrows, append_nil]
  exact h.rows

theorem Books.snoc_none (h : op.Books outs closed cur) (hgrp : func.group tup = none) :
    op.Books outs closed (cur ++ [tup]) := by
  refine ⟨h.rows, ?_, h.valid, h.finished⟩
  rw [func.groups_snoc_none hgrp]
  exact h.curr

/-- A tuple of the current epoch. -/
theorem Books.acceptGroup_of_eq (h : op.Books outs closed cur) (hgb : op.lastGb = func.gbVar tup)
    (hok : 1 < func.patterns.length → func.Spread (cur ++ [tup])) :
    (op.acceptGroup tup).1.Books (outs ++ (op.acceptGroup tup).2) closed (cur ++ [tup]) := by
  have hneeded : op.flushNeeded tup = false := by simp [flushNeeded, hgb]
  have hnote := h.noteGb tup
  rw [acceptGroup]
  split
  case h_1 hgrp =>
    rw [hneeded]
    exact (hnote.snoc_none hgrp).append_of_rows_eq_nil (rows_tempStatus_if _ _)
  case h_2 grp hgrp =>
    split
    case h_1 val hfind =>
      have hmem : grp ∈ (op.noteGb tup).curr.keys :=
        (HashTable.mem_keys _).mpr ⟨val, HashTable.mem_of_find _ hfind⟩
      have hone : func.patterns.length ≤ 1 := by
        refine Nat.le_of_not_lt fun hlt ↦ ?_
        exact ((hok hlt).snoc func hlt hgrp).1 (hnote.mem_keys.mp hmem)
      rw [append_nil]
      exact hnote.withCurr (func.perm_modify hnote.curr hone hgrp hmem)
    case h_2 hfind =>
      rw [HashTable.find_eq_none, hnote.mem_keys] at hfind
      rw [hneeded]
      refine Books.addGroup (by simpa [flushOldIf] using hnote) hgrp fun p hp ↦ ?_
      rcases Nat.lt_or_ge 1 func.patterns.length with hlt | hone
      · exact ((hok hlt).snoc func hlt hgrp).2 p hp
      · rw [func.groupings_of_le_one hone, mem_singleton] at hp
        rw [func.groups_of_le_one hone] at hfind
        subst hp
        exact hfind

/-- The first tuple of an epoch. -/
theorem Books.acceptGroup_of_ne (h : op.Books outs closed cur) (hgb : op.lastGb ≠ func.gbVar tup)
    (hok : ∀ grp ∈ func.group tup, grp ∉ (func.groups cur).map Prod.fst) :
    (op.acceptGroup tup).1.Books (outs ++ (op.acceptGroup tup).2) (closed ++ [cur]) [tup] := by
  have hneeded : op.flushNeeded tup = true := by simp [flushNeeded, hgb]
  have hnote := h.noteGb tup
  rw [acceptGroup, hneeded]
  split
  case h_1 hgrp =>
    rw [← append_assoc]
    exact (hnote.flushOld.snoc_none hgrp).append_of_rows_eq_nil (rows_tempStatus_if _ _)
  case h_2 grp hgrp =>
    have hfind : (op.noteGb tup).curr.find grp = none := by
      rw [HashTable.find_eq_none, hnote.mem_keys]
      exact hok grp hgrp
    rw [hfind]
    refine hnote.flushOld.addGroup hgrp fun p _ ↦ ?_
    rw [GroupbyFunc.groupsBy, Grouping.groupsBy_nil]
    exact not_mem_nil

theorem lastGb_acceptGroup (op : GroupbyOperator func) (tup : D) :
    (op.acceptGroup tup).1.lastGb = func.gbVar tup := by
  have hflush : ((op.noteGb tup).flushOldIf (op.flushNeeded tup)).1.lastGb = func.gbVar tup := by
    rw [flushOldIf]
    split
    · exact lastGb_noteGb op tup
    · exact lastGb_noteGb op tup
  rw [acceptGroup]
  split
  · exact hflush
  · split
    · exact lastGb_noteGb op tup
    · exact hflush

theorem lastGb_partialFlush (op : GroupbyOperator func) : op.partialFlush.1.lastGb = op.lastGb := by
  rw [GroupbyOperator.partialFlush]
  dsimp only
  generalize (if op.old.empty then op.flushPos else op.flushPos.bind op.old.next) = next
  split <;> rfl

/-- A tuple is taken in after one more group of the old table was put out, or none. -/
theorem Books.exists_acceptTuple (h : op.Books outs closed cur) (tup : D) :
    ∃ (op' : GroupbyOperator func) (outs' : List (Output R)), op'.Books outs' closed cur ∧
      op'.lastGb = op.lastGb ∧ (op.acceptTuple tup).1 = (op'.acceptGroup tup).1 ∧
      outs ++ (op.acceptTuple tup).2 = outs' ++ (op'.acceptGroup tup).2 := by
  rw [acceptTuple]
  split
  · exact ⟨op, outs, h, rfl, rfl, rfl⟩
  · exact ⟨op.partialFlush.1, outs ++ op.partialFlush.2, h.partialFlush,
      lastGb_partialFlush op, rfl, (append_assoc _ _ _).symm⟩

theorem lastGb_acceptTuple (op : GroupbyOperator func) (tup : D) :
    (op.acceptTuple tup).1.lastGb = func.gbVar tup := by
  rw [acceptTuple]
  split
  · exact lastGb_acceptGroup op tup
  · exact lastGb_acceptGroup op.partialFlush.1 tup

theorem Books.acceptTuple_of_eq (h : op.Books outs closed cur) (hgb : op.lastGb = func.gbVar tup)
    (hok : 1 < func.patterns.length → func.Spread (cur ++ [tup])) :
    (op.acceptTuple tup).1.Books (outs ++ (op.acceptTuple tup).2) closed (cur ++ [tup]) := by
  obtain ⟨op', outs', h', hlast, hop, houts⟩ := h.exists_acceptTuple tup
  rw [hop, houts]
  exact h'.acceptGroup_of_eq (hlast.trans hgb) hok

theorem Books.acceptTuple_of_ne (h : op.Books outs closed cur) (hgb : op.lastGb ≠ func.gbVar tup)
    (hok : ∀ grp ∈ func.group tup, grp ∉ (func.groups cur).map Prod.fst) :
    (op.acceptTuple tup).1.Books (outs ++ (op.acceptTuple tup).2) (closed ++ [cur]) [tup] := by
  obtain ⟨op', outs', h', hlast, hop, houts⟩ := h.exists_acceptTuple tup
  rw [hop, houts]
  exact h'.acceptGroup_of_ne (hlast ▸ hgb) hok

end Books

/-! ## Runs -/

section Runs

variable [DecidableEq E] (func)

/-- What holds after some tuples: the last epoch is the current one. -/
def Accounted (tups : List D) : Prop :=
  ∃ closed cur, func.epochs tups = closed ++ [cur] ∧
    (∀ d ∈ cur, func.gbVar d = (Transducer.run acceptTuple (init func) tups).1.lastGb) ∧
    (Transducer.run acceptTuple (init func) tups).1.Books
      (Transducer.run acceptTuple (init func) tups).2 closed cur

variable {func} {tups : List D} {tup : D}

theorem accounted_singleton (tup : D) : Accounted func [tup] := by
  have hrun : Transducer.run acceptTuple (init func) [tup] =
      ((init func).acceptTuple tup |>.1, [] ++ ((init func).acceptTuple tup).2) := by
    simp [Transducer.run]
  have hepochs : func.epochs [tup] = [] ++ [[tup]] := rfl
  refine ⟨[], [tup], hepochs, ?_, ?_⟩
  · intro d hd
    rw [hrun, lastGb_acceptTuple, mem_singleton.mp hd]
  · rw [hrun]
    by_cases hgb : (init func).lastGb = func.gbVar tup
    · refine books_init.acceptTuple_of_eq hgb fun _ ↦ pairwise_singleton _ _
    · have hnone : ∀ grp ∈ func.group tup, grp ∉ (func.groups []).map Prod.fst := by
        intro grp _
        rw [func.groups_nil]
        exact not_mem_nil
      have hbooks := books_init.acceptTuple_of_ne hgb hnone
      refine ⟨hbooks.rows.trans ?_, hbooks.curr, hbooks.valid, hbooks.finished⟩
      simp [GroupbyFunc.rowsOf, func.groups_nil]

/-- The group of a tuple is not among those of the epoch before it. -/
theorem notMem_keys_of_ne {closed : List (List D)} {cur : List D}
    (hok : func.Regular (tups ++ [tup])) (hcur : ∀ d ∈ cur, func.gbVar d ≠ func.gbVar tup)
    (hepochs : func.epochs (tups ++ [tup]) = (closed ++ [cur]) ++ [[tup]]) {grp : G}
    (hgrp : grp ∈ func.group tup) : grp ∉ (func.groups cur).map Prod.fst := by
  rw [func.mem_keys_groups]
  rintro ⟨p, hp, d, hd, g, hg, heq⟩
  rcases Nat.lt_or_ge 1 func.patterns.length with hlt | hone
  · rw [func.groupings_of_lt hlt] at hp
    rcases hok with hone | ⟨-, hapart⟩
    · exact absurd hone (Nat.not_le_of_lt hlt)
    · rw [hepochs, isChain_append] at hapart
      exact hapart.2.2 cur (by simp) [tup] (by simp) tup (by simp) d hd g hg grp hgrp p hp heq
  · -- The temporal group-by variable is part of the group.
    rw [func.groupings_of_le_one hone, mem_singleton] at hp
    subst hp
    subst heq
    refine hcur d hd ?_
    rw [← func.gbVar_of_mem hg, ← func.gbVar_of_mem hgrp]
    rfl

theorem Accounted.snoc (h : Accounted func tups) (hne : tups ≠ [])
    (hok : func.Regular (tups ++ [tup])) : Accounted func (tups ++ [tup]) := by
  obtain ⟨closed, cur, hepochs, hgb, hbooks⟩ := h
  obtain ⟨closed', cur', hepochs', hcur, hcases⟩ := func.exists_epochs_snoc hne tup
  obtain ⟨rfl, hlast⟩ := append_inj' (hepochs.symm.trans hepochs') rfl
  obtain rfl : cur = cur' := by simpa using hlast
  obtain ⟨d₀, hd₀⟩ := exists_mem_of_ne_nil cur hcur
  rw [Accounted, Transducer.run_snoc]
  rcases hcases with ⟨hsame, hsnoc⟩ | ⟨hother, hsnoc⟩
  · refine ⟨closed, cur ++ [tup], hsnoc, fun d hd ↦ ?_, ?_⟩
    · rw [lastGb_acceptTuple]
      rcases mem_append.mp hd with hd | hd
      · exact hsame d hd
      · rw [mem_singleton.mp hd]
    · refine hbooks.acceptTuple_of_eq ((hgb d₀ hd₀).symm.trans (hsame d₀ hd₀)) fun hlt ↦ ?_
      rcases hok with hone | ⟨hspread, -⟩
      · exact absurd hone (Nat.not_le_of_lt hlt)
      · exact hspread _ (by rw [hsnoc]; simp)
  · refine ⟨closed ++ [cur], [tup], hsnoc, fun d hd ↦ ?_, ?_⟩
    · rw [lastGb_acceptTuple, mem_singleton.mp hd]
    · refine hbooks.acceptTuple_of_ne ?_ fun grp hgrp ↦ notMem_keys_of_ne hok hother hsnoc hgrp
      rw [← hgb d₀ hd₀]
      exact hother d₀ hd₀

theorem accounted_of_regular (hne : tups ≠ []) (hok : func.Regular tups) : Accounted func tups := by
  induction tups using reverseRecOn with
  | nil => exact absurd rfl hne
  | append_singleton tups tup ih =>
    rcases eq_or_ne tups [] with rfl | htups
    · exact accounted_singleton tup
    · exact (ih htups hok.of_snoc).snoc htups hok

/-- **What a group-by puts out.**  If the query has one grouping pattern, or no tuple meets a group
in the table, the rows put out are those of a group-by of each epoch. -/
theorem rows_outputOf (tups : List D) (hok : func.Regular tups) :
    (Output.rows (outputOf func tups)).Perm (func.reference tups) := by
  rcases eq_or_ne tups [] with rfl | hne
  · refine books_init.flush.trans ?_
    simp [GroupbyFunc.reference, GroupbyFunc.epochs, GroupbyFunc.rowsOf, func.groups_nil]
  · obtain ⟨closed, cur, hepochs, -, hbooks⟩ := accounted_of_regular hne hok
    rw [GroupbyFunc.reference, hepochs]
    exact hbooks.flush

/-- Counts by minute and port, with totals of each minute if `patterns` says so.  A tuple is the
minute and the port. -/
def counts (patterns : List (Nat × Option Nat → Nat × Option Nat)) :
    GroupbyFunc (Nat × Option Nat) Nat (Nat × Option Nat) Nat ((Nat × Option Nat) × Nat) where
  isTemporal := fun d ↦ d.2.isNone
  gbVar := Prod.fst
  initialGb := 0
  createGroup := some
  createAggregate := fun _ ↦ 1
  updateAggregate := fun _ _ n ↦ n + 1
  createOutputTuple := fun g n ↦ some (g, n)
  createTempStatusTuple := fun d _ _ ↦ (d, 0)
  patterns := patterns
  hasher := Prod.fst
  currGb := Prod.fst
  currGb_createGroup := by
    rintro d g h
    rw [Option.some_inj.mp h]

/-- Counts by minute and port, with totals of each minute. -/
def rollup : GroupbyFunc (Nat × Option Nat) Nat (Nat × Option Nat) Nat ((Nat × Option Nat) × Nat) :=
  counts [id, fun g ↦ (g.1, none)]

/-- An epoch ends while the groups of the one before are put out; and totals, with one packet in
each minute. -/
theorem rows_outputOf_counts :
    ((counts []).Regular [(1, some 80), (1, some 22), (1, some 80), (2, none), (3, some 80)] ∧
      (Output.rows (outputOf (counts [])
        [(1, some 80), (1, some 22), (1, some 80), (2, none), (3, some 80)])).Perm
          [((1, some 80), 2), ((1, some 22), 1), ((3, some 80), 1)]) ∧
    rollup.Regular [(1, some 80), (2, some 80)] ∧
      (Output.rows (outputOf rollup [(1, some 80), (2, some 80)])).Perm
        [((1, some 80), 1), ((1, none), 1), ((2, some 80), 1), ((2, none), 1)] := by
  have hcounts : (counts []).Regular [(1, some 80), (1, some 22), (1, some 80), (2, none),
    (3, some 80)] :=
    .inl (Nat.zero_le 1)
  have hrollup : rollup.Regular [(1, some 80), (2, some 80)] := by
    right
    decide
  exact ⟨⟨hcounts, (rows_outputOf _ hcounts).trans (by decide)⟩, hrollup,
    (rows_outputOf _ hrollup).trans (by decide)⟩

/-- Two packets to the same port in a minute: the total of the minute misses the second one. -/
theorem exists_not_perm_reference :
    Output.rows (outputOf rollup [(1, some 80), (1, some 80)]) =
      [((1, none), 1), ((1, some 80), 2)] ∧
        ¬(Output.rows (outputOf rollup [(1, some 80), (1, some 80)])).Perm
          (rollup.reference [(1, some 80), (1, some 80)]) := by
  decide

end Runs

end GroupbyOperator

end Tigon.Hfta
