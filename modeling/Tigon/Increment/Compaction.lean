import Tigon.Increment.SummingScanner
import Tigon.Lib.Bytes
import Tigon.Lib.Run

/-!
# Flushes and compactions

The cells of a store are spread over its sources, the memstore and the store files.  A flush or a
compaction reads some of them through an `IncrementSummingScanner`, and replaces them by what this
returns.  A reader sums the increments of a column down to the first full value.

The sum of increments is written as a full value, also where no full value was reached.  So it hides
what older sources have of the column.  And the sum that is running at the end of a row is dropped,
as in a scan.

The `StoreScanner` of HBase is a parameter, of which `StoreScannerSpec` says what the increments
rely on: it returns the cells of its sources in the order of their keys.

* `emitAll_append` — columns are summed independently;
* `readFrom_emitAll` — what a reader finds behind a column that has been summed;
* `read_eq_of_run` — **reads do not change**, in runs whose steps do neither.
-/

set_option autoImplicit false

namespace Tigon.Increment

open List

/-! ## Stores -/

/-- The cells of the memstore, or of a store file. -/
abbrev Source := List Cell

/-- Rows, families and qualifiers are in ascending order. -/
abbrev Column := Bytes ×ₗ Bytes ×ₗ Bytes

def Cell.column (cell : Cell) : Column := toLex (cell.row, toLex (cell.family, cell.qualifier))

/-- The newest cell of a column comes first. -/
def Cell.key (cell : Cell) : Column ×ₗ Int := toLex (cell.column, -cell.timestamp)

/-- What the `StoreScanner` of HBase promises: the cells of all sources, in the order of their
keys. -/
structure StoreScannerSpec (storeScanner : List Source → List Cell) : Prop where
  perm : ∀ sources, (storeScanner sources).Perm sources.flatten
  sorted : ∀ sources, (storeScanner sources).Pairwise fun c c' ↦ c.key ≤ c'.key

/-- A flush or a compaction of some of the sources.  The scanner of HBase over them returns batches
of cells, and calls of `next` with some limit return the cells of the new store file. -/
structure Compaction where
  compactionUpperBound : Int
  limit : Int
  chosen : List Source
  others : List Source
  batches : List (List Cell)

/-- The new store file, unless there is an exception. -/
def compact (a : Compaction) : Option Source := scan a.compactionUpperBound a.limit a.batches

def step (s : List Source) (a : Compaction) : Option (List Source) :=
  if s.Perm (a.chosen ++ a.others) then some (((compact a).map fun out ↦ out :: a.others).getD s)
    else none

/-! ## Reads -/

section Scanner

variable (storeScanner : List Source → List Cell)

/-- `Long.MAX_VALUE`. -/
def maxLong : Int := 2 ^ 63 - 1

/-- `IncrementFilter`: increments up to the first cell that is not one, and this cell. -/
def incrementFilter (column : List Cell) : List Cell :=
  column.takeWhile IncrementHandler.isIncrement ++
    (column.dropWhile IncrementHandler.isIncrement).take 1

/-- The cells of a column, newest first. -/
def versions (sources : List Source) (column : Column) : List Cell :=
  (storeScanner sources).filter fun cell ↦ cell.column = column

/-- The value that a `Get` of the column returns, if there is one. -/
def read (sources : List Source) (column : Column) : Option (List Bytes) :=
  (nextInternal maxLong (-1) [incrementFilter (versions storeScanner sources column)]).map fun r ↦
    r.cells.map Cell.value

/-- A column has one cell for each timestamp, and none has the largest. -/
structure Valid (s : List Source) : Prop where
  nodup : (s.flatten.map Cell.key).Nodup
  lt : ∀ cell ∈ s.flatten, cell.timestamp < maxLong

/-- The scanner reads the sources, and no cell of another source is between two of their cells in
time. -/
structure Compaction.TimeContiguous (a : Compaction) : Prop where
  scans : a.batches.flatten = storeScanner a.chosen
  contiguous : ∀ c ∈ a.chosen.flatten, ∀ c' ∈ a.chosen.flatten, ∀ x ∈ a.others.flatten,
    x.column = c.column → x.column = c'.column →
      ¬ (c.timestamp < x.timestamp ∧ x.timestamp < c'.timestamp)

/-- The batches are such that no call of `next` returns in the middle of a column. -/
def Compaction.KeepsSums (a : Compaction) : Prop :=
  BatchesOk a.compactionUpperBound a.limit [] a.batches

/-- Where increments of a column are summed, the sources have a full value of it, or no others have
older cells of it, or the sum is hidden by a newer full value. -/
def Compaction.ReachesFull (a : Compaction) : Prop :=
  ∀ cell ∈ a.chosen.flatten, isDelta a.compactionUpperBound cell = true →
    (∃ full ∈ a.chosen.flatten, full.column = cell.column ∧
      IncrementHandler.isIncrement full = false) ∨
    (∀ x ∈ a.others.flatten, x.column = cell.column → cell.timestamp < x.timestamp) ∨
    ∃ full ∈ a.others.flatten, full.column = cell.column ∧ cell.timestamp < full.timestamp ∧
      IncrementHandler.isIncrement full = false

end Scanner

theorem eq_filter_append {α β : Type} [LinearOrder β] {f : α → β} {l : List α}
    (h : l.Pairwise fun a b ↦ f a ≤ f b) (k : β) :
    l = l.filter (f · < k) ++ (l.filter (f · = k) ++ l.filter (k < f ·)) := by
  induction l with
  | nil => rfl
  | cons a l ih =>
    obtain ⟨ha, hl⟩ := pairwise_cons.mp h
    have ih := ih hl
    rcases lt_trichotomy (f a) k with hlt | rfl | hgt
    · rw [filter_cons_of_pos (by simpa using hlt),
        filter_cons_of_neg (by simpa using hlt.ne),
          filter_cons_of_neg (by simpa using hlt.le), cons_append, ← ih]
    · have hnone : l.filter (f · < f a) = [] := filter_eq_nil_iff.mpr fun b hb ↦ by
        simpa using ha b hb
      rw [hnone, nil_append] at ih
      rw [filter_cons_of_neg (by simp), filter_cons_of_pos (by simp),
        filter_cons_of_neg (by simp), hnone, nil_append, cons_append, ← ih]
    · have hall : l.filter (k < f ·) = l :=
        filter_eq_self.mpr fun b hb ↦ by simpa using hgt.trans_le (ha b hb)
      have hlt : l.filter (f · < k) = [] :=
        filter_eq_nil_iff.mpr fun b hb ↦ by simpa using (hgt.trans_le (ha b hb)).le
      have heq : l.filter (f · = k) = [] :=
        filter_eq_nil_iff.mpr fun b hb ↦ by simpa using (hgt.trans_le (ha b hb)).ne'
      rw [filter_cons_of_neg (by simpa using hgt.le),
        filter_cons_of_neg (by simpa using hgt.ne'),
          filter_cons_of_pos (by simpa using hgt), hall, hlt, heq]
      rfl

/-! ## Columns are summed independently -/

section Sums

variable {compactionUpperBound : Int} {running : Option Running} {cells cells' : List Cell}

theorem emitAll_nil : emitAll compactionUpperBound running [] = some (leftover running) := rfl

theorem emitAll_cons (cell : Cell) : emitAll compactionUpperBound running (cell :: cells) =
    (visit compactionUpperBound running cell).bind fun r ↦
      (emitAll compactionUpperBound r.1 cells).map fun out ↦ r.2 ++ out := by
  rw [emitAll, sumAll]
  cases visit compactionUpperBound running cell with
  | none => rfl
  | some r =>
    rw [Option.bind_some, Option.bind_some, emitAll, Option.map_map, Option.map_map]
    congr 1
    funext r'
    exact append_assoc _ _ _

theorem column_eq_iff {c c' : Cell} : c.column = c'.column ↔ c.coordinates = c'.coordinates := by
  simp [Cell.column, Cell.coordinates]

/-- A sum of another column comes before everything else. -/
theorem emitAll_of_ne (hother : ∀ r ∈ running, ∀ cell ∈ cells.head?, r.previousIncrement.column ≠
    cell.column) : emitAll compactionUpperBound running cells =
      (emitAll compactionUpperBound none cells).map fun out ↦ leftover running ++ out := by
  cases cells with
  | nil => simp [emitAll_nil, leftover]
  | cons cell cells =>
    have hvisit : visit compactionUpperBound running cell =
        (visit compactionUpperBound none cell).map fun r ↦ (r.1, leftover running ++ r.2) := by
      have hnone : visit compactionUpperBound none cell = _ :=
        visit_other compactionUpperBound fun r hr ↦ by cases hr
      rw [visit_other compactionUpperBound fun r hr ↦ fun h ↦ hother r hr cell rfl
        (column_eq_iff.mpr h), hnone]
      split <;> simp [leftover]
    rw [emitAll_cons, emitAll_cons, hvisit, Option.bind_map, Option.map_bind]
    congr 1
    funext r
    simp [Function.comp_def]

/-- The key of the cell that a sum goes back to. -/
def runningKeys (running : Option Running) : List (Column ×ₗ Int) :=
  running.toList.map fun r ↦ r.previousIncrement.key

theorem map_key_leftover (running : Option Running) : (leftover running).map Cell.key =
    runningKeys running := by
  cases running with
  | none => rfl
  | some r => rfl

theorem sublist_visit {cell : Cell} {r : Option Running × List Cell}
    (h : visit compactionUpperBound running cell = some r) :
    (r.2.map Cell.key ++ runningKeys r.1).Sublist (runningKeys running ++ [cell.key]) := by
  unfold visit at h
  split at h
  · split at h
    · cases h
      exact List.Sublist.refl _
    · split at h
      · cases h
        exact sublist_append_left _ _
      · cases h
        exact List.Sublist.refl _
  · split at h
    · cases h
      exact List.Sublist.refl _
    · split at h
      · obtain ⟨v, -, rfl⟩ := Option.map_eq_some_iff.mp h
        exact sublist_append_left _ _
      · cases h
        exact List.Sublist.refl _

variable {out : List Cell}

/-- The cells that come out have keys of the cells that go in, in this order. -/
theorem sublist_keys (h : emitAll compactionUpperBound running cells = some out) :
    (out.map Cell.key).Sublist (runningKeys running ++ cells.map Cell.key) := by
  induction cells generalizing running out with
  | nil =>
    rw [emitAll_nil, Option.some.injEq] at h
    rw [← h, map_key_leftover, map_nil, append_nil]
  | cons cell cells ih =>
    rw [emitAll_cons, Option.bind_eq_some_iff] at h
    obtain ⟨r, hvisit, h⟩ := h
    obtain ⟨out', hout', rfl⟩ := Option.map_eq_some_iff.mp h
    have hrest := (ih hout').append_left (r.2.map Cell.key)
    have hfirst := (sublist_visit hvisit).append_right (cells.map Cell.key)
    simp only [append_assoc, singleton_append] at hfirst
    rw [map_append, map_cons]
    exact hrest.trans hfirst

theorem mem_keys_of_emitAll (h : emitAll compactionUpperBound none cells = some out) {cell : Cell}
    (hcell : cell ∈ out) : ∃ c ∈ cells, c.key = cell.key :=
  mem_map.mp ((sublist_keys h).subset (mem_map_of_mem hcell))

theorem column_of_key {c c' : Cell} (h : c.key = c'.key) : c.column = c'.column :=
  congrArg (fun k ↦ (ofLex k).1) h

/-- Neighbouring lists without a column in common. -/
theorem emitAll_append (hother : ∀ c ∈ cells, ∀ c' ∈ cells', c.column ≠ c'.column)
    (h : emitAll compactionUpperBound none (cells ++ cells') = some out) :
    ∃ out₁ out₂, emitAll compactionUpperBound none cells = some out₁ ∧
      emitAll compactionUpperBound none cells' = some out₂ ∧ out = out₁ ++ out₂ := by
  rw [emitAll, sumAll_append] at h
  obtain ⟨r, hr, rfl⟩ := Option.map_eq_some_iff.mp h
  obtain ⟨r₁, hr₁, hr⟩ := Option.bind_eq_some_iff.mp hr
  obtain ⟨r₂, hr₂, rfl⟩ := Option.map_eq_some_iff.mp hr
  have hfirst : emitAll compactionUpperBound none cells = some (r₁.2 ++ leftover r₁.1) := by
    rw [emitAll, hr₁]
    rfl
  have hsecond : emitAll compactionUpperBound r₁.1 cells' = some (r₂.2 ++ leftover r₂.1) := by
    rw [emitAll, hr₂]
    rfl
  rw [emitAll_of_ne] at hsecond
  · obtain ⟨out₂, hout₂, heq⟩ := Option.map_eq_some_iff.mp hsecond
    exact ⟨_, out₂, hfirst, hout₂, by rw [append_assoc, append_assoc, ← heq]⟩
  · intro x hx c hc hcolumn
    have hmem : newCell x.previousIncrement x.runningSum ∈ r₁.2 ++ leftover r₁.1 := by
      rw [Option.mem_def.mp hx]
      exact mem_append_right _ mem_cons_self
    obtain ⟨c', hc', hkey⟩ := mem_keys_of_emitAll hfirst hmem
    refine hother c' hc' c (mem_of_mem_head? hc) ?_
    exact (column_of_key hkey).trans hcolumn

theorem filter_eq_nil_of_ne {column : Column}
    (h : emitAll compactionUpperBound none cells = some out)
    (hne : ∀ c ∈ cells, c.column ≠ column) :
    out.filter (fun c ↦ c.column = column) = [] := by
  rw [filter_eq_nil_iff]
  intro c hc heq
  obtain ⟨c', hc', hkey⟩ := mem_keys_of_emitAll h hc
  exact hne c' hc' ((column_of_key hkey).trans (of_decide_eq_true heq))

/-- **A column is summed by itself.** -/
theorem filter_emitAll (column : Column)
    (hsorted : cells.Pairwise fun c c' ↦ c.column ≤ c'.column)
    (h : emitAll compactionUpperBound none cells = some out) :
    emitAll compactionUpperBound none (cells.filter fun c ↦ c.column = column) =
      some (out.filter fun c ↦ c.column = column) := by
  rw [eq_filter_append hsorted column] at h
  have hlt : ∀ c ∈ cells.filter fun c ↦ c.column < column, c.column < column := fun c hc ↦
    of_decide_eq_true (mem_filter.mp hc).2
  have heq : ∀ c ∈ cells.filter fun c ↦ c.column = column, c.column = column := fun c hc ↦
    of_decide_eq_true (mem_filter.mp hc).2
  have hgt : ∀ c ∈ cells.filter fun c ↦ column < c.column, column < c.column := fun c hc ↦
    of_decide_eq_true (mem_filter.mp hc).2
  obtain ⟨out₁, out', hout₁, h', rfl⟩ := emitAll_append (fun c hc c' hc' ↦ by
    rcases mem_append.mp hc' with hc' | hc'
    · exact (heq c' hc' ▸ hlt c hc).ne
    · exact ((hlt c hc).trans (hgt c' hc')).ne) h
  obtain ⟨out₂, out₃, hout₂, hout₃, rfl⟩ :=
    emitAll_append (fun c hc c' hc' ↦ (heq c hc ▸ hgt c' hc').ne) h'
  rw [hout₂, filter_append, filter_append, filter_eq_nil_of_ne hout₁ fun c hc ↦
    (hlt c hc).ne, filter_eq_nil_of_ne hout₃ fun c hc ↦ (hgt c hc).ne', nil_append,
      append_nil]
  congr 1
  refine (filter_eq_self.mpr fun c hc ↦ decide_eq_true ?_).symm
  obtain ⟨c', hc', hkey⟩ := mem_keys_of_emitAll hout₂ hc
  exact (column_of_key hkey).symm.trans (heq c' hc')

end Sums

/-! ## What a reader finds -/

section Reads

variable {compactionUpperBound : Int} {cells cells' older : List Cell}

/-- The values that are read from a column, with a sum of newer increments. -/
def readFrom : Option Long → List Cell → Option (List Bytes)
  | sum, [] => some (sum.toList.map toBytes)
  | sum, cell :: cells =>
    if IncrementHandler.isIncrement cell then readFrom (some (sum.getD 0 + delta cell)) cells
    else sum.elim (some [cell.value]) fun sum ↦ (toLong cell.value).map fun v ↦ [toBytes (sum + v)]

/-- The cells of a column that a scan returns, newest first. -/
def IsVersions (column : Column) (cells : List Cell) : Prop :=
  (∀ cell ∈ cells, cell.column = column) ∧ cells.Pairwise fun c c' ↦ c'.timestamp < c.timestamp

theorem isIncrement_newCell (cell : Cell) (v : Long) :
    IncrementHandler.isIncrement (newCell cell v) = false := by
  rfl

/-- Cells behind a full value are not read. -/
theorem readFrom_append (sum : Option Long) (newer : List Cell)
    (h : (∃ full ∈ newer, IncrementHandler.isIncrement full = false) ∨
      ∀ sum, readFrom sum cells = readFrom sum cells') :
    readFrom sum (newer ++ cells) = readFrom sum (newer ++ cells') := by
  induction newer generalizing sum with
  | nil => exact (h.resolve_left (by simp)) sum
  | cons cell newer ih =>
    rw [cons_append, cons_append, readFrom, readFrom]
    split
    · rename_i hincrement
      refine ih _ (h.imp_left ?_)
      rintro ⟨full, hfull, hisFull⟩
      rcases mem_cons.mp hfull with rfl | hfull
      · rw [hincrement] at hisFull
        cases hisFull
      · exact ⟨full, hfull, hisFull⟩
    · rfl

theorem readFrom_newCell (newer : Option Long) (c : Cell) (sum : Long) :
    readFrom newer (newCell c sum :: older) = some [toBytes (newer.getD 0 + sum)] := by
  rw [readFrom, isIncrement_newCell, if_neg Bool.false_ne_true]
  cases newer with
  | none =>
    rw [Option.getD_none, zero_add]
    rfl
  | some s =>
    show (toLong (toBytes sum)).map (fun v ↦ [toBytes (s + v)]) = some [toBytes (s + sum)]
    rw [toLong_toBytes]
    rfl

/-- The sum of a run of increments, with what follows them. -/
theorem readFrom_emitAll_some {c : Cell} {sum : Long} {out : List Cell} {column : Column}
    (hcolumn : ∀ cell ∈ c :: cells, cell.column = column)
    (hdelta : ∀ cell ∈ cells, IncrementHandler.isIncrement cell = true →
      isDelta compactionUpperBound cell = true)
    (hfull : (∃ full ∈ cells, IncrementHandler.isIncrement full = false) ∨ older = [])
    (h : emitAll compactionUpperBound (some ⟨c, sum⟩) cells = some out) (newer : Option Long) :
    readFrom newer (out ++ older) = readFrom (some (newer.getD 0 + sum)) (cells ++ older) := by
  induction cells generalizing sum out with
  | nil =>
    rw [emitAll_nil, Option.some.injEq] at h
    obtain rfl := hfull.resolve_left (by simp)
    rw [← h]
    exact readFrom_newCell newer c sum
  | cons cell cells ih =>
    have hsame : sameCell c cell = true := by
      rw [sameCell_iff, ← column_eq_iff, hcolumn c mem_cons_self,
        hcolumn cell (mem_cons_of_mem _ mem_cons_self)]
    rw [emitAll_cons] at h
    unfold visit at h
    rw [cons_append, readFrom]
    by_cases hincrement : IncrementHandler.isIncrement cell = true
    · simp only [hdelta cell mem_cons_self hincrement, hsame, if_true, Option.bind_some,
        nil_append, Option.map_id'] at h
      rw [if_pos hincrement, ih _ (fun x hx ↦ hdelta x (mem_cons_of_mem _ hx)) ?_ h,
        Option.getD_some, add_assoc]
      · exact fun x hx ↦ hcolumn x (by rcases mem_cons.mp hx with rfl | hx <;> simp [*])
      · refine hfull.imp_left ?_
        rintro ⟨full, hmem, hisFull⟩
        rcases mem_cons.mp hmem with rfl | hmem
        · rw [hincrement] at hisFull
          cases hisFull
        · exact ⟨full, hmem, hisFull⟩
    · have hnot : isDelta compactionUpperBound cell = false := by
        rw [isDelta, Bool.eq_false_of_not_eq_true hincrement, Bool.false_and]
      simp only [hnot, hsame, if_true, Bool.false_eq_true, if_false] at h
      obtain ⟨r, hr, h⟩ := Option.bind_eq_some_iff.mp h
      obtain ⟨v, hv, rfl⟩ := Option.map_eq_some_iff.mp hr
      obtain ⟨out', -, rfl⟩ := Option.map_eq_some_iff.mp h
      rw [if_neg hincrement, cons_append, cons_append, readFrom_newCell]
      show _ = (toLong cell.value).map fun v ↦ [toBytes (newer.getD 0 + sum + v)]
      rw [hv, Option.map_some, add_assoc]

/-- **What a reader finds** when the cells of a column have been summed. -/
theorem readFrom_emitAll {out : List Cell} {column : Column} (hversions : IsVersions column cells)
    (hfull : (∀ cell ∈ cells, isDelta compactionUpperBound cell = false) ∨
      (∃ full ∈ cells, IncrementHandler.isIncrement full = false) ∨ older = [])
    (h : emitAll compactionUpperBound none cells = some out) (newer : Option Long) :
    readFrom newer (out ++ older) = readFrom newer (cells ++ older) := by
  induction cells generalizing out newer with
  | nil =>
    rw [emitAll_nil, Option.some.injEq] at h
    rw [← h]
    rfl
  | cons cell cells ih =>
    obtain ⟨hcolumn, hsorted⟩ := hversions
    obtain ⟨hcell, hsorted⟩ := pairwise_cons.mp hsorted
    rw [emitAll_cons] at h
    unfold visit at h
    rw [cons_append, readFrom]
    by_cases hdelta : isDelta compactionUpperBound cell = true
    · have hincrement : IncrementHandler.isIncrement cell = true :=
        (Bool.and_eq_true_iff.mp hdelta).1
      have hbound : cell.timestamp < compactionUpperBound :=
        of_decide_eq_true (Bool.and_eq_true_iff.mp hdelta).2
      simp only [hdelta, if_true, Option.bind_some, nil_append, Option.map_id'] at h
      rw [if_pos hincrement, readFrom_emitAll_some hcolumn (fun x hx hisIncrement ↦ ?_) ?_ h]
      · rcases hfull with hnone | ⟨full, hmem, hisFull⟩ | hnil
        · rw [hnone cell mem_cons_self] at hdelta
          cases hdelta
        · rcases mem_cons.mp hmem with rfl | hmem
          · rw [hincrement] at hisFull
            cases hisFull
          · exact .inl ⟨full, hmem, hisFull⟩
        · exact .inr hnil
      · rw [isDelta, hisIncrement, Bool.true_and, decide_eq_true_iff]
        exact (hcell x hx).trans hbound
    · simp only [hdelta, Bool.false_eq_true, if_false, Option.bind_some] at h
      obtain ⟨out', hout', rfl⟩ := Option.map_eq_some_iff.mp h
      rw [singleton_append, cons_append, readFrom]
      by_cases hincrement : IncrementHandler.isIncrement cell = true
      · rw [if_pos hincrement, if_pos hincrement]
        refine ih ⟨fun x hx ↦ hcolumn x (mem_cons_of_mem _ hx), hsorted⟩ ?_ hout' _
        rcases hfull with hnone | ⟨full, hmem, hisFull⟩ | hnil
        · exact .inl fun x hx ↦ hnone x (mem_cons_of_mem _ hx)
        · rcases mem_cons.mp hmem with rfl | hmem
          · rw [hincrement] at hisFull
            cases hisFull
          · exact .inr (.inl ⟨full, hmem, hisFull⟩)
        · exact .inr (.inr hnil)
      · rw [if_neg hincrement, if_neg hincrement]

theorem incrementFilter_cons (cell : Cell) : incrementFilter (cell :: cells) =
    if IncrementHandler.isIncrement cell then cell :: incrementFilter cells else [cell] := by
  rw [incrementFilter, takeWhile_cons, dropWhile_cons]
  split
  · rfl
  · rfl

theorem map_emitAll_incrementFilter {column : Column} (running : Option Running)
    (hrunning : ∀ r ∈ running, r.previousIncrement.column = column)
    (hcolumn : ∀ cell ∈ cells, cell.column = column)
    (hlt : ∀ cell ∈ cells, cell.timestamp < maxLong) :
    (emitAll maxLong running (incrementFilter cells)).map (·.map Cell.value) =
      readFrom (running.map Running.runningSum) cells := by
  induction cells generalizing running with
  | nil =>
    cases running with
    | none => rfl
    | some r => rfl
  | cons cell cells ih =>
    have hcell := hcolumn cell mem_cons_self
    rw [incrementFilter_cons, readFrom]
    by_cases hincrement : IncrementHandler.isIncrement cell = true
    · have hdelta : isDelta maxLong cell = true := by
        rw [isDelta, hincrement, Bool.true_and, decide_eq_true_iff]
        exact hlt cell mem_cons_self
      have ih : ∀ r : Running, r.previousIncrement.column = column →
          (emitAll maxLong (some r) (incrementFilter cells)).map (·.map Cell.value) =
            readFrom (some r.runningSum) cells := fun r hr ↦
        ih (some r) (fun r' hr' ↦ by rwa [← Option.some.inj hr'])
          (fun x hx ↦ hcolumn x (mem_cons_of_mem _ hx)) fun x hx ↦
            hlt x (mem_cons_of_mem _ hx)
      rw [if_pos hincrement, if_pos hincrement, emitAll_cons]
      unfold visit
      cases running with
      | none =>
        simp only [hdelta, if_true, Option.bind_some, nil_append, Option.map_id']
        rw [ih ⟨cell, delta cell⟩ hcell, Option.map_none, Option.getD_none, zero_add]
      | some r =>
        have hsame : sameCell r.previousIncrement cell = true := by
          rw [sameCell_iff, ← column_eq_iff, hrunning r rfl, hcell]
        simp only [hdelta, hsame, if_true, Option.bind_some, nil_append, Option.map_id']
        exact ih _ (hrunning r rfl)
    · have hnot : isDelta maxLong cell = false := by
        rw [isDelta, Bool.eq_false_of_not_eq_true hincrement, Bool.false_and]
      rw [if_neg hincrement, if_neg hincrement, emitAll_cons]
      unfold visit
      cases running with
      | none =>
        simp only [hnot, Bool.false_eq_true, if_false, Option.bind_some]
        rfl
      | some r =>
        have hsame : sameCell r.previousIncrement cell = true := by
          rw [sameCell_iff, ← column_eq_iff, hrunning r rfl, hcell]
        simp only [hnot, hsame, Bool.false_eq_true, if_false, if_true]
        show _ = (toLong cell.value).map fun v ↦ [toBytes (r.runningSum + v)]
        cases toLong cell.value with
        | none => rfl
        | some v => rfl

theorem nextInternal_single : nextInternal compactionUpperBound (-1) [cells] =
    (emitAll compactionUpperBound none cells).map fun out ↦ ⟨out, false, []⟩ := by
  have hread : sumAll compactionUpperBound none [] = some (none, []) := rfl
  have hvisit : visitCells compactionUpperBound (-1) none 0 cells = _ :=
    visitCells_eq hread fun _ _ h ↦ absurd h (by decide)
  rw [nextInternal, nextLoop, hvisit, emitAll]
  cases hsum : sumAll compactionUpperBound none cells with
  | none => rfl
  | some r =>
    cases cells with
    | nil =>
      cases hsum
      rfl
    | cons cell cells => simp

end Reads

/-! ## Stores -/

section Stores

variable {storeScanner : List Source → List Cell} {s t : List Source} {a : Compaction}
  {column : Column} {cells : List Cell}

theorem key_le_iff {c c' : Cell} : c.key ≤ c'.key ↔
    c.column < c'.column ∨ c.column = c'.column ∧ c'.timestamp ≤ c.timestamp := by
  rw [Cell.key, Cell.key, Prod.Lex.toLex_le_toLex]
  simp

theorem key_eq_iff {c c' : Cell} : c.key = c'.key ↔ c.column = c'.column ∧
    c.timestamp = c'.timestamp := by
  rw [Cell.key, Cell.key, toLex_inj, Prod.mk.injEq, neg_inj]

theorem pairwise_map_key_iff (hcolumn : ∀ cell ∈ cells, cell.column = column) :
    (cells.map Cell.key).Pairwise (· < ·) ↔ cells.Pairwise fun c c' ↦ c'.timestamp <
      c.timestamp := by
  rw [pairwise_map]
  refine ⟨fun h ↦ h.imp_of_mem fun {c c'} hc hc' hlt ↦ ?_, fun h ↦ h.imp_of_mem fun {c c'}
    hc hc' hlt ↦ ?_⟩
  · have hsame : c.column = c'.column := (hcolumn c hc).trans (hcolumn c' hc').symm
    by_contra hle
    exact absurd (key_le_iff.mpr (.inr ⟨hsame.symm, not_lt.mp hle⟩)) hlt.not_ge
  · have hsame : c.column = c'.column := (hcolumn c hc).trans (hcolumn c' hc').symm
    refine lt_of_le_of_ne (key_le_iff.mpr (.inr ⟨hsame, hlt.le⟩)) fun heq ↦ ?_
    exact hlt.ne (key_eq_iff.mp heq).2.symm

theorem column_le_of_key_le {c c' : Cell} (h : c.key ≤ c'.key) : c.column ≤ c'.column := by
  rcases key_le_iff.mp h with h | ⟨h, -⟩
  · exact h.le
  · exact h.le

theorem Valid.of_perm (hs : Valid s) (h : s.Perm t) : Valid t :=
  ⟨(h.flatten.map Cell.key).nodup_iff.mp hs.nodup,
    fun cell hcell ↦ hs.lt cell (h.flatten.mem_iff.mpr hcell)⟩

/-- The keys of a new store file are among those of the sources. -/
theorem keys_of_compact {out : Source} (ha : a.TimeContiguous storeScanner)
    (hout : emitAll a.compactionUpperBound none a.batches.flatten = some out) :
    (out.map Cell.key).Sublist ((storeScanner a.chosen).map Cell.key) := by
  have hkeys := sublist_keys hout
  rwa [ha.scans] at hkeys

variable (hscanner : StoreScannerSpec storeScanner)
include hscanner

theorem isVersions_versions (hs : (s.flatten.map Cell.key).Nodup) (column : Column) :
    IsVersions column (versions storeScanner s column) := by
  have hcolumn : ∀ cell ∈ versions storeScanner s column, cell.column = column := fun cell hcell ↦
    of_decide_eq_true (mem_filter.mp hcell).2
  have hnodup : (storeScanner s).Pairwise fun c c' ↦ c.key ≠ c'.key :=
    pairwise_map.mp (((hscanner.perm s).map Cell.key).nodup_iff.mpr hs)
  have hboth := ((hscanner.sorted s).and hnodup).sublist
    (filter_sublist (p := fun c ↦ c.column = column))
  refine ⟨hcolumn, hboth.imp_of_mem fun {c c'} hc hc' h ↦ ?_⟩
  have hsame : c.column = c'.column := (hcolumn c hc).trans (hcolumn c' hc').symm
  have hne : c.timestamp ≠ c'.timestamp := fun heq ↦ h.2 (key_eq_iff.mpr ⟨hsame, heq⟩)
  rcases key_le_iff.mp h.1 with hlt | ⟨-, hle⟩
  · exact absurd hsame hlt.ne
  · omega

/-- The cells of a column in order are its versions. -/
theorem versions_eq (hs : (s.flatten.map Cell.key).Nodup) (h : IsVersions column cells)
    (hperm : cells.Perm (s.flatten.filter fun c ↦ c.column = column)) :
      versions storeScanner s column = cells := by
  have hperm' : (versions storeScanner s column).Perm cells :=
    ((hscanner.perm s).filter _).trans hperm.symm
  refine hperm'.eq_of_pairwise (fun c c' _ _ h h' ↦ ?_)
    (isVersions_versions hscanner hs column).2 h.2
  exact absurd (h.trans h') (lt_irrefl _)

/-- What is read. -/
theorem read_eq (hs : Valid s) (column : Column) : read storeScanner s column =
    readFrom none (versions storeScanner s column) := by
  rw [read, nextInternal_single, Option.map_map]
  exact map_emitAll_incrementFilter none (fun r hr ↦ by cases hr)
    (isVersions_versions hscanner hs.nodup column).1 fun cell hcell ↦
      hs.lt cell ((hscanner.perm s).mem_iff.mp (mem_filter.mp hcell).1)

/-- The cells of the other sources are newer or older than those that are read. -/
theorem exists_around (hs : ((a.chosen ++ a.others).flatten.map Cell.key).Nodup)
    (ha : a.TimeContiguous storeScanner) (column : Column) : ∃ newer older,
      (newer ++ older).Perm (a.others.flatten.filter fun c ↦ c.column = column) ∧
      (∀ x ∈ older, ∀ c ∈ versions storeScanner a.chosen column, x.timestamp < c.timestamp) ∧
      ∀ cells, IsVersions column cells →
        (∀ c ∈ cells, ∃ c' ∈ versions storeScanner a.chosen column, c'.timestamp = c.timestamp) →
        IsVersions column (newer ++ (cells ++ older)) := by
  rw [flatten_append, map_append, nodup_append'] at hs
  obtain ⟨-, hnodup, hdisjoint⟩ := hs
  obtain ⟨hcolumn, hsorted⟩ := isVersions_versions hscanner hnodup column
  -- a cell of another source is newer than all that are read, or older than all
  have hmid : ∀ c ∈ versions storeScanner a.chosen column, c ∈ a.chosen.flatten ∧
    c.column = column := fun c hc ↦
    ⟨(hscanner.perm _).mem_iff.mp (mem_filter.mp hc).1,
      of_decide_eq_true (mem_filter.mp hc).2⟩
  have hother : ∀ x ∈ versions storeScanner a.others column, x ∈ a.others.flatten := fun x hx ↦
    (hscanner.perm _).mem_iff.mp (mem_filter.mp hx).1
  have hne : ∀ x ∈ versions storeScanner a.others column, ∀ c ∈ versions storeScanner a.chosen
    column, x.timestamp ≠ c.timestamp := by
    intro x hx c hc heq
    refine hdisjoint (mem_map_of_mem (hmid c hc).1) ?_
    rw [key_eq_iff.mpr ⟨(hmid c hc).2.trans (hcolumn x hx).symm, heq.symm⟩]
    exact mem_map_of_mem (hother x hx)
  have holder : ∀ x ∈ versions storeScanner a.others column,
      (¬ ∀ c ∈ versions storeScanner a.chosen column, c.timestamp < x.timestamp) →
        ∀ c ∈ versions storeScanner a.chosen column, x.timestamp < c.timestamp := by
    intro x hx h c hc
    push Not at h
    obtain ⟨c', hc', hle⟩ := h
    by_contra hlt
    have hgt : c.timestamp < x.timestamp := lt_of_le_of_ne (not_lt.mp hlt) (hne x hx c hc).symm
    refine ha.contiguous c (hmid c hc).1 c' (hmid c' hc').1 x (hother x hx) ?_ ?_
      ⟨hgt, lt_of_le_of_ne hle (hne x hx c' hc')⟩
    · exact (hcolumn x hx).trans (hmid c hc).2.symm
    · exact (hcolumn x hx).trans (hmid c' hc').2.symm
  let isNewer : Cell → Bool := fun x ↦
    decide (∀ c ∈ versions storeScanner a.chosen column, c.timestamp < x.timestamp)
  have hnewer : ∀ x ∈ (versions storeScanner a.others column).filter isNewer,
      ∀ c ∈ versions storeScanner a.chosen column, c.timestamp < x.timestamp :=
        fun x hx ↦ of_decide_eq_true (mem_filter.mp hx).2
  have hnot : ∀ x ∈ (versions storeScanner a.others column).filter fun x ↦ !isNewer x,
      ¬ ∀ c ∈ versions storeScanner a.chosen column, c.timestamp < x.timestamp := fun x hx ↦
    of_decide_eq_false (Bool.not_eq_true' _ ▸ (mem_filter.mp hx).2)
  refine ⟨_, _, (filter_append_perm isNewer _).trans ((hscanner.perm _).filter _),
    fun x hx ↦ ?_, fun cells hcells htimestamps ↦ ⟨fun c hc ↦ ?_, ?_⟩⟩
  · exact holder x (mem_filter.mp hx).1 (hnot x hx)
  · rcases mem_append.mp hc with hc | hc
    · exact hcolumn c (mem_filter.mp hc).1
    · rcases mem_append.mp hc with hc | hc
      · exact hcells.1 c hc
      · exact hcolumn c (mem_filter.mp hc).1
  · refine pairwise_append.mpr ⟨hsorted.sublist filter_sublist, pairwise_append.mpr
      ⟨hcells.2, hsorted.sublist filter_sublist, fun c hc x hx ↦ ?_⟩, fun x hx c hc ↦ ?_⟩
    · obtain ⟨c', hc', heq⟩ := htimestamps c hc
      rw [← heq]
      exact holder x (mem_filter.mp hx).1 (hnot x hx) c' hc'
    · rcases mem_append.mp hc with hc | hc
      · obtain ⟨c', hc', heq⟩ := htimestamps c hc
        rw [← heq]
        exact hnewer x hx c' hc'
      · have h := hnot c hc
        push Not at h
        obtain ⟨c', hc', hle⟩ := h
        exact hle.trans_lt (hnewer x hx c' hc')

theorem valid_compact {out : Source} (hs : Valid (a.chosen ++ a.others))
    (ha : a.TimeContiguous storeScanner)
    (hout : emitAll a.compactionUpperBound none a.batches.flatten = some out) :
      Valid (out :: a.others) := by
  have hkeys := keys_of_compact ha hout
  refine ⟨?_, fun cell hcell ↦ ?_⟩
  · have hnodup : (((storeScanner a.chosen) ++ a.others.flatten).map Cell.key).Nodup := by
      refine (((hscanner.perm a.chosen).append_right _).map Cell.key).nodup_iff.mpr ?_
      rw [← flatten_append]
      exact hs.nodup
    rw [map_append] at hnodup
    rw [flatten_cons, map_append]
    exact hnodup.sublist (hkeys.append_right _)
  · rw [flatten_cons, mem_append] at hcell
    rcases hcell with hcell | hcell
    · obtain ⟨c, hc, hkey⟩ := mem_map.mp (hkeys.subset (mem_map_of_mem hcell))
      rw [← (key_eq_iff.mp hkey).2]
      refine hs.lt c ?_
      rw [flatten_append]
      exact mem_append_left _ ((hscanner.perm a.chosen).mem_iff.mp hc)
    · refine hs.lt cell ?_
      rw [flatten_append]
      exact mem_append_right _ hcell

/-- **A flush or a compaction does not change what is read.** -/
theorem read_compact {out : Source} (hs : Valid (a.chosen ++ a.others))
    (ha : a.TimeContiguous storeScanner) (hfull : a.ReachesFull)
    (hout : emitAll a.compactionUpperBound none a.batches.flatten = some out) (column : Column) :
    read storeScanner (out :: a.others) column = read storeScanner (a.chosen ++ a.others)
      column := by
  have hnodup : (a.chosen.flatten.map Cell.key).Nodup := by
    have h := hs.nodup
    rw [flatten_append, map_append, nodup_append'] at h
    exact h.1
  have hmid := isVersions_versions hscanner hnodup column
  obtain ⟨newer, older, hperm, holder, hversions⟩ := exists_around hscanner hs.nodup ha column
  -- the column in the new store file
  have hsum : emitAll a.compactionUpperBound none (versions storeScanner a.chosen column) =
      some (out.filter fun c ↦ c.column = column) := by
    refine filter_emitAll column ((hscanner.sorted a.chosen).imp column_le_of_key_le) ?_
    rw [← ha.scans]
    exact hout
  have hkeys := sublist_keys hsum
  have htimestamps : ∀ c ∈ out.filter fun c ↦ c.column = column,
      ∃ c' ∈ versions storeScanner a.chosen column, c'.timestamp = c.timestamp := by
    intro c hc
    obtain ⟨c', hc', hkey⟩ := mem_keys_of_emitAll hsum hc
    exact ⟨c', hc', (key_eq_iff.mp hkey).2⟩
  have hfold : IsVersions column (out.filter fun c ↦ c.column = column) := by
    have hcolumn : ∀ c ∈ out.filter fun c ↦ c.column = column, c.column = column := fun c hc ↦
      of_decide_eq_true (mem_filter.mp hc).2
    refine ⟨hcolumn, (pairwise_map_key_iff hcolumn).mp (List.Pairwise.sublist hkeys ?_)⟩
    exact (pairwise_map_key_iff hmid.1).mpr hmid.2
  have hnew : versions storeScanner (out :: a.others) column =
      newer ++ ((out.filter fun c ↦ c.column = column) ++ older) := by
    refine versions_eq hscanner (valid_compact hscanner hs ha hout).nodup
      (hversions _ hfold htimestamps) ?_
    rw [flatten_cons, filter_append]
    exact (perm_append_comm_assoc _ _ _).trans (hperm.append_left _)
  have hold : versions storeScanner (a.chosen ++ a.others) column = newer ++
    (versions storeScanner a.chosen column ++ older) := by
    refine versions_eq hscanner hs.nodup (hversions _ hmid fun c hc ↦ ⟨c, hc, rfl⟩) ?_
    rw [flatten_append, filter_append]
    exact (perm_append_comm_assoc _ _ _).trans (((hscanner.perm _).filter _).append hperm)
  rw [read_eq hscanner (valid_compact hscanner hs ha hout), read_eq hscanner hs, hnew, hold]
  refine readFrom_append none newer ?_
  by_cases hdelta : ∃ cell ∈ versions storeScanner a.chosen column,
    isDelta a.compactionUpperBound cell = true
  · obtain ⟨cell, hcell, hdelta⟩ := hdelta
    have hcolumn : cell.column = column := hmid.1 cell hcell
    have hchosen : cell ∈ a.chosen.flatten :=
      (hscanner.perm _).mem_iff.mp (mem_filter.mp hcell).1
    have hothers : ∀ x ∈ newer ++ older, x ∈ a.others.flatten ∧ x.column = column := fun x hx ↦
      ⟨(mem_filter.mp (hperm.mem_iff.mp hx)).1,
        of_decide_eq_true (mem_filter.mp (hperm.mem_iff.mp hx)).2⟩
    rcases hfull cell hchosen hdelta with
      ⟨full, hmem, hsame, hisFull⟩ | hnewer | ⟨full, hmem, hsame, hlt, hisFull⟩
    · refine .inr (readFrom_emitAll hmid (.inr (.inl ⟨full, ?_, hisFull⟩)) hsum)
      exact mem_filter.mpr ⟨(hscanner.perm _).mem_iff.mpr hmem,
        decide_eq_true (hsame.trans hcolumn)⟩
    · have hnil : older = [] := by
        refine eq_nil_iff_forall_not_mem.mpr fun x hx ↦ ?_
        obtain ⟨hx', hxcolumn⟩ := hothers x (mem_append_right _ hx)
        exact absurd (holder x hx cell hcell) (hnewer x hx' (hxcolumn.trans hcolumn.symm)).le.not_gt
      exact .inr (readFrom_emitAll hmid (.inr (.inr hnil)) hsum)
    · have hfull : full ∈ newer ++ older :=
        hperm.mem_iff.mpr (mem_filter.mpr ⟨hmem, decide_eq_true (hsame.trans hcolumn)⟩)
      rcases mem_append.mp hfull with hnewer | hx
      · exact .inl ⟨full, hnewer, hisFull⟩
      · exact absurd (holder full hx cell hcell) hlt.le.not_gt
  · refine .inr (readFrom_emitAll hmid (.inl fun cell hcell ↦ ?_) hsum)
    exact Bool.eq_false_of_not_eq_true fun h ↦ hdelta ⟨cell, hcell, h⟩

theorem read_of_perm (hs : Valid s) (h : s.Perm t) (column : Column) : read storeScanner t column =
    read storeScanner s column := by
  have hversions : versions storeScanner t column = versions storeScanner s column :=
    versions_eq hscanner (hs.of_perm h).nodup (isVersions_versions hscanner hs.nodup column)
      (((hscanner.perm s).filter _).trans (h.flatten.filter _))
  rw [read_eq hscanner hs, read_eq hscanner (hs.of_perm h), hversions]

/-- A flush or a compaction that reads what it is to read, loses no sum, and sums down to a full
value. -/
def Compaction.Ok (storeScanner : List Source → List Cell) (_ : List Source)
    (a : Compaction) : Prop :=
  a.TimeContiguous storeScanner ∧ a.KeepsSums ∧ a.ReachesFull

theorem read_step (hs : Valid s) (hok : a.Ok storeScanner s) (hstep : step s a = some t) :
    Valid t ∧ ∀ column, read storeScanner t column = read storeScanner s column := by
  rw [step] at hstep
  split at hstep
  · rename_i hperm
    rw [Option.some.injEq] at hstep
    cases hout : compact a with
    | none =>
      rw [hout] at hstep
      obtain rfl : s = t := hstep
      exact ⟨hs, fun _ ↦ rfl⟩
    | some out =>
      rw [hout] at hstep
      obtain rfl : out :: a.others = t := hstep
      have hs' := hs.of_perm hperm
      have hsum := (scanCalls_eq (Nat.lt_succ_self _) hok.2.1).symm.trans hout
      refine ⟨valid_compact hscanner hs' hok.1 hsum, fun column ↦ ?_⟩
      rw [read_compact hscanner hs' hok.1 hok.2.2 hsum, read_of_perm hscanner hs hperm]
  · cases hstep

/-- **Reads do not change**, in any sequence of flushes and compactions of which each loses no sum,
and sums down to a full value where older cells are left elsewhere. -/
theorem read_eq_of_run {actions : List Compaction} (hs : Valid s)
    (h : Lts.Run step (fun s a ↦ a.Ok storeScanner s) s actions t) (column : Column) :
      read storeScanner t column = read storeScanner s column := by
  have hinv : Valid t ∧ ∀ column, read storeScanner t column = read storeScanner s column := by
    refine h.invariant (I := fun u ↦ Valid u ∧ ∀ column, read storeScanner u column =
      read storeScanner s column) ?_ ⟨hs, fun _ ↦ rfl⟩
    rintro u v a ⟨hu, hread⟩ hok hstep
    obtain ⟨hv, hsame⟩ := read_step hscanner hu hok hstep
    exact ⟨hv, fun column ↦ (hsame column).trans (hread column)⟩
  exact hinv.2 column

end Stores

/-! ## Two flushes -/

/-- The cells of some sources, sorted. -/
def sortedScanner (sources : List Source) : List Cell :=
  sources.flatten.insertionSort fun c c' ↦ c.key ≤ c'.key

theorem storeScannerSpec_sortedScanner : StoreScannerSpec sortedScanner where
  perm sources := perm_insertionSort _ _
  sorted sources := by
    have : Std.Total fun c c' : Cell ↦ c.key ≤ c'.key := ⟨fun _ _ ↦ le_total _ _⟩
    have : IsTrans Cell fun c c' ↦ c.key ≤ c'.key := ⟨fun _ _ _ ↦ le_trans⟩
    exact pairwise_insertionSort _ _

/-- A delta and an older full value are compacted, and an older delta is left elsewhere. -/
def compactTwo : Compaction :=
  ⟨100, -1, [[deltaAt 1 1 9 2], [fullAt 1 1 7 5]], [[deltaAt 1 1 6 3]],
    [[deltaAt 1 1 9 2, fullAt 1 1 7 5]]⟩

theorem read_compactTwo : read sortedScanner [[fullAt 1 1 9 7], [deltaAt 1 1 6 3]]
    (deltaAt 1 1 9 2).column = read sortedScanner
    [[deltaAt 1 1 9 2], [fullAt 1 1 7 5], [deltaAt 1 1 6 3]] (deltaAt 1 1 9 2).column := by
  have hcontiguous : compactTwo.TimeContiguous sortedScanner :=
    ⟨by decide +kernel, by simp [compactTwo, deltaAt, fullAt, cellAt]⟩
  have hkeeps : BatchesOk 100 (-1) [] compactTwo.batches := by decide +kernel
  have hcolumn : ∀ cell ∈ compactTwo.chosen.flatten, (fullAt 1 1 7 5).column = cell.column :=
    by decide +kernel
  have hfull : compactTwo.ReachesFull := fun cell hcell _ ↦
    .inl ⟨fullAt 1 1 7 5, by simp [compactTwo], hcolumn cell hcell, rfl⟩
  have hrun : Lts.Run step (fun s a ↦ a.Ok sortedScanner s)
      [[deltaAt 1 1 9 2], [fullAt 1 1 7 5], [deltaAt 1 1 6 3]] [compactTwo]
      [[fullAt 1 1 9 7], [deltaAt 1 1 6 3]] :=
        .single ⟨hcontiguous, hkeeps, hfull⟩ (by decide +kernel)
  exact read_eq_of_run storeScannerSpec_sortedScanner ⟨by decide +kernel, by decide +kernel⟩ hrun _

/-- A delta is flushed by itself, and the full value is in a store file. -/
def flushDelta : Compaction := ⟨100, -1, [[deltaAt 1 1 9 2]], [[fullAt 1 1 7 5]],
    [[deltaAt 1 1 9 2]]⟩

/-- **The sum of the increments that are flushed hides the value they are to be added to.** -/
theorem exists_read_ne : ¬ ∀ (s t : List Source) (actions : List Compaction)
    (column : Column), Valid s → Lts.Run step (fun _ a ↦ a.TimeContiguous sortedScanner)
      s actions t → read sortedScanner t column = read sortedScanner s column := by
  intro h
  have hread := h [[deltaAt 1 1 9 2], [fullAt 1 1 7 5]] [[fullAt 1 1 9 2], [fullAt 1 1 7 5]]
    [flushDelta] (deltaAt 1 1 9 2).column ⟨by decide +kernel, by decide +kernel⟩
    (.single ⟨by decide +kernel, by simp [flushDelta, deltaAt, fullAt, cellAt]⟩ (by decide +kernel))
  exact absurd hread (by decide +kernel)

end Tigon.Increment
