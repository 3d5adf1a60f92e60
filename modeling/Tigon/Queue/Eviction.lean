import Tigon.Queue.EntryRow

/-!
# Eviction at flush and compaction

The region observer passes every row that is flushed or compacted through
`EvictionInternalScanner`, which leaves out the rows that all consumers are done with.  What it
knows of the consumers is a `QueueConsumerConfig`: their persisted start rows, and how many groups
there are, read from the configuration table by a refresh thread (`updateCache`).

A start row in the configuration table may be the empty byte array, which is before every row; it
is `none` here.  The salt byte in front of the row keys of the queue table is skipped by
`compareRowKey`, so a row is the `Row` behind it.
-/

set_option autoImplicit false

namespace Tigon

/-- The consumer instance a start row or a state column belongs to: group id and instance id. -/
abbrev ConsumerInstance := Nat × Nat

/-- A cell of a queue entry row, by the kind of its column. -/
inductive Cell
  | dataColumn (value : List UInt8)
  | metaColumn (hashKeys : HashKeys)
  | stateColumn (groupId : Nat) (content : StateContent)
  | otherColumn
deriving DecidableEq, Repr

namespace Cell

def isDataColumn : Cell → Bool
  | .dataColumn _ => true
  | _ => false

def isMetaColumn : Cell → Bool
  | .metaColumn _ => true
  | _ => false

end Cell

/-! ## The configuration -/

/-- Is `a` smaller than `b`, the empty array being the smallest of all? -/
def rowLt : Option Row → Option Row → Bool
  | _, none => false
  | none, some _ => true
  | some a, some b => decide (a < b)

/-- The loop that finds the smallest of some start rows. -/
def smallestStartRow (startRows : List (Option Row)) : Option (Option Row) :=
  startRows.foldl (fun smallest row ↦
    match smallest with
    | none => some row
    | some smallest => if rowLt row smallest then some row else some smallest) none

theorem getD_le_of_not_rowLt {a b : Option Row} (h : ¬ rowLt b a = true) :
    a.getD .zero ≤ b.getD .zero := by
  cases a with
  | none => exact Row.zero_le _
  | some a =>
    cases b with
    | none => simp [rowLt] at h
    | some b => simpa [rowLt] using h

theorem getD_le_of_rowLt {a b : Option Row} (h : rowLt a b = true) :
    a.getD .zero ≤ b.getD .zero := by
  cases a with
  | none => exact Row.zero_le _
  | some a =>
    cases b with
    | none => simp [rowLt] at h
    | some b => exact le_of_lt (by simpa [rowLt] using h)

theorem smallestStartRow_eq_none {startRows : List (Option Row)}
    (h : smallestStartRow startRows = none) : startRows = [] := by
  cases startRows using List.reverseRecOn with
  | nil => rfl
  | append_singleton rows row =>
    rw [smallestStartRow, List.foldl_append, List.foldl_cons, List.foldl_nil] at h
    split at h
    · exact absurd h (by simp)
    · split at h
      · exact absurd h (by simp)
      · exact absurd h (by simp)

/-- The smallest start row is one of them, and none of them is before it. -/
theorem smallestStartRow_spec {startRows : List (Option Row)} {smallest : Option Row}
    (h : smallestStartRow startRows = some smallest) : smallest ∈ startRows ∧
      ∀ row ∈ startRows, smallest.getD .zero ≤ row.getD .zero := by
  induction startRows using List.reverseRecOn generalizing smallest with
  | nil => exact absurd h (by simp [smallestStartRow])
  | append_singleton rows row ih =>
    rw [smallestStartRow, List.foldl_append, List.foldl_cons, List.foldl_nil] at h
    change (match smallestStartRow rows with
      | none => some row
      | some smallest => if rowLt row smallest then some row else some smallest) =
        some smallest at h
    cases hs : smallestStartRow rows with
    | none =>
      rw [hs] at h
      obtain rfl := Option.some_inj.mp h
      have hnil : rows = [] := smallestStartRow_eq_none hs
      subst hnil
      simp
    | some old =>
      obtain ⟨hmem, hle⟩ := ih hs
      rw [hs] at h
      simp only at h
      split at h
      · rename_i hlt
        obtain rfl := Option.some_inj.mp h
        refine ⟨by simp, fun x hx ↦ ?_⟩
        rcases List.mem_append.mp hx with hx | hx
        · exact (getD_le_of_rowLt hlt).trans (hle x hx)
        · rw [List.mem_singleton.mp hx]
      · rename_i hlt
        obtain rfl := Option.some_inj.mp h
        refine ⟨List.mem_append_left _ hmem, fun x hx ↦ ?_⟩
        rcases List.mem_append.mp hx with hx | hx
        · exact hle x hx
        · rw [List.mem_singleton.mp hx]
          exact getD_le_of_not_rowLt hlt

/-- The start rows of all consumers of a queue, and the number of its consumer groups. -/
structure QueueConsumerConfig where
  startRows : List (ConsumerInstance × Option Row)
  numGroups : Int
deriving DecidableEq, Repr

namespace QueueConsumerConfig

variable (config : QueueConsumerConfig)

def getStartRow (consumerInstance : ConsumerInstance) : Option (Option Row) :=
  config.startRows.lookup consumerInstance

/-- The smallest start row, `none` if there is no consumer. -/
def getSmallestStartRow : Option (Option Row) := smallestStartRow (config.startRows.map Prod.snd)

end QueueConsumerConfig

/-- Groups are counted by walking over the columns, which are sorted by group. -/
def countGroups : List (ConsumerInstance × Option Row) → Option Nat → Int
  | [], _ => 0
  | ((gid, _), _) :: rest, groupId =>
    if groupId = some gid then countGroups rest groupId else 1 + countGroups rest (some gid)

/-- The configuration of a queue as `ConsumerConfigCache.updateCache` builds it from the columns of
the queue's row in the configuration table; a queue without columns gets none. -/
def updateCache (columns : List (ConsumerInstance × Option Row)) : Option QueueConsumerConfig :=
  if columns.isEmpty then none else some ⟨columns, countGroups columns none⟩

/-! ## The decision -/

/-- Is the row of the cell before the start row? -/
def beforeStartRow (row : Row) : Option Row → Bool
  | none => false
  | some startRow => decide (row < startRow)

/-- The loop over the state columns: how many groups have consumed the row?  The first column that
is not PROCESSED ends it. -/
def consumedGroups (config : QueueConsumerConfig) (row : Row) : List Cell → Int
  | [] => 0
  | .stateColumn groupId content :: rest =>
    if content.state = .processed then
      match config.getStartRow (groupId, content.instanceId) with
      | some startRow =>
        -- a loose check of committed PROCESSED
        if beforeStartRow row startRow then 1 + consumedGroups config row rest
        else consumedGroups config row rest
      | none => consumedGroups config row rest
    else 0
  | _ :: rest => consumedGroups config row rest

/-- Determines whether the given queue entry row can be evicted.  Without any start row the last
comparison throws in the source, and nothing is evicted. -/
def canEvict (config : QueueConsumerConfig) (row : Row) (result : List Cell) : Bool :=
  if config.numGroups = 0 then true
  else if config.numGroups < 0 then false
  else
    match result with
    | first :: second :: states =>
      if states.isEmpty then false
      else if !first.isDataColumn then false
      else if !second.isMetaColumn then false
      else
        decide (consumedGroups config row states = config.numGroups) ||
          (match config.getSmallestStartRow with
          | some startRow => beforeStartRow row startRow
          | none => false)
    | _ => false

end Tigon
