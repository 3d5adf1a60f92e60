import Tigon.Hfta.GroupbyOop

/-!
# The group-by operator for streams out of order: runs

The invariant `Books` is kept by every tuple that `StepOk` allows.  First come the tables and their
windows: closing the first one, adding tables at both ends, taking in a tuple.  Then come the parts
of the operator that close windows; what each of them does is `Advances`, that some windows from the
first one on were closed and their rows are out.

An operator that has to close several windows closes one after the other.  So `Advances` is
transitive, and there is a lemma for each part on how far it advances.
-/

set_option autoImplicit false
set_option linter.unusedSectionVars false

namespace Tigon.Hfta

open GroupbyOperatorOop List

variable {D G A R : Type} [DecidableEq G]

namespace GroupbyOperatorOop

variable {func : GroupbyFuncOop D G A R}

/-! ## Windows -/

section Windows

variable {tables : List (HashTable G A func.hasher)} {t : HashTable G A func.hasher}
variable {minWid maxWid wid : Int} {pend : List D}

theorem window_others_of_ne {wid' : Int} (h : wid' ≠ wid) :
    window func wid' (others func wid pend) = window func wid' pend := by
  rw [window, others, filter_filter, window]
  refine filter_congr fun d _ ↦ ?_
  by_cases hd : func.gbVar d = wid'
  · simp [hd, h]
  · simp [hd]

/-- The first window is closed. -/
theorem Windows.tail (h : Windows (t :: tables) minWid maxWid pend) :
    Windows tables (minWid + 1) maxWid (others func minWid pend) := by
  have hsize : ((t :: tables).length : Int) = maxWid + 1 - minWid := by
    rcases h.size with hsize | ⟨hnil, -⟩
    · exact hsize
    · cases hnil
  rw [length_cons] at hsize
  push_cast at hsize
  have hmax := h.lt_maxValue
  have hmin := h.minValue_le
  refine ⟨.inl (by omega), fun i t' ht' ↦ ?_, fun d hd ↦ ?_, by omega, by omega, hmax⟩
  · have heq : minWid + 1 + (i : Int) = minWid + ((i + 1 : Nat) : Int) := by
      push_cast
      omega
    rw [heq, window_others_of_ne (by push_cast; omega)]
    exact h.entries (i + 1) t' ht'
  · obtain ⟨hmem, hne⟩ := mem_filter.mp hd
    have hd' := h.pend d hmem
    rw [length_cons] at hd'
    push_cast at hd'
    have hne' : func.gbVar d ≠ minWid := of_decide_eq_true hne
    omega

/-- The next window id does not overflow. -/
theorem Windows.wrap_eq (h : Windows (t :: tables) minWid maxWid pend) :
    func.temporalType.wrap (minWid + 1) = minWid + 1 := by
  have htail := h.tail
  exact func.temporalType.wrap_eq htail.minValue_le htail.le_maxValue

end Windows

/-! ## Flushing -/

section Flushing

variable {op op' : GroupbyOperatorOop func} {restart : Bool} {outs outs' : List (Output R)}
variable {pend : List D} {ref : List R}
variable {tables : List (HashTable G A func.hasher)} {t : HashTable G A func.hasher}

theorem front_of_nil (h : op.groupTables = []) : op.front = [] := by
  rw [front, h]

theorem front_of_cons (h : op.groupTables = t :: tables) :
    op.front = t.visited (op.flushPos.map Prod.snd) := by
  rw [front, h]

theorem front_of_frontBegin (h : op.flushPos = frontBegin op.groupTables) : op.front = [] := by
  rw [front]
  split
  case h_1 => rfl
  case h_2 t tables heq =>
    rw [h, heq, frontBegin, head?_cons, Option.bind_some, Option.map_map]
    have hbegin : t.begin.map (Prod.snd ∘ fun it ↦ ((0 : Nat), it)) = t.begin := by
      cases t.begin <;> rfl
    rw [hbegin, t.visited_begin]

theorem valid_frontBegin :
    ∀ t ∈ tables.head?, ∀ pos ∈ frontBegin tables, pos.1 = 0 ∧ t.Valid pos.2 := by
  intro t ht pos hpos
  rw [frontBegin, Option.mem_def.mp ht, Option.bind_some] at hpos
  obtain ⟨it, hit, rfl⟩ := Option.map_eq_some_iff.mp hpos
  exact ⟨rfl, t.valid_begin hit⟩

/-- Everything the invariant is about. -/
theorem Draining.congr (h : Draining restart op outs pend ref)
    (htables : op'.groupTables = op.groupTables) (hmin : op'.minWid = op.minWid)
    (hmax : op'.maxWid = op.maxWid) (hpos : op'.flushPos = op.flushPos) :
    Draining restart op' outs pend ref := by
  have hfront : op'.front = op.front := by
    rw [front, front, htables, hpos]
  refine ⟨?_, ?_, ?_⟩
  · rw [htables, hmin, hmax]
    exact h.windows
  · rw [hfront]
    exact h.rows
  · rw [htables, hpos]
    exact h.valid

/-- The first window is closed when everything that its table has is put out. -/
theorem Draining.erase (h : Draining restart op outs pend ref)
    (htables : op.groupTables = t :: tables)
    (hrows : (Output.rows outs').Perm (ref ++ t.entries.filterMap func.output))
    (op' : GroupbyOperatorOop func) (restart' : Bool)
    (htables' : op'.groupTables = tables) (hmin : op'.minWid = op.eraseFront.minWid)
    (hmax : op'.maxWid = op.maxWid) (hpos : restart' = true ∨ tables = [] ∨
      op'.flushPos = frontBegin tables) :
    op'.minWid = op.minWid + 1 ∧ Draining restart' op' outs' (others func op.minWid pend)
      (ref ++ windowRows func op.minWid pend) := by
  have hwindows := h.windows
  rw [htables] at hwindows
  have hmin' : op'.minWid = op.minWid + 1 := hmin.trans hwindows.wrap_eq
  have hentries : t.entries.Perm (func.groups (window func op.minWid pend)) := by
    have h0 := hwindows.entries 0 t rfl
    rwa [Nat.cast_zero, add_zero] at h0
  have hout : (Output.rows outs').Perm (ref ++ windowRows func op.minWid pend) :=
    hrows.trans ((hentries.filterMap _).append_left _)
  refine ⟨hmin', ?_, ?_, ?_⟩
  · rw [htables', hmin', hmax]
    exact hwindows.tail
  · have hfront : (if restart' then [] else op'.front.filterMap func.output) = [] := by
      rcases hpos with hpos | hpos | hpos
      · rw [hpos, if_pos rfl]
      · rw [front_of_nil (htables'.trans hpos), filterMap_nil, ite_self]
      · rw [front_of_frontBegin (by rw [htables', hpos]), filterMap_nil, ite_self]
    rw [hfront, append_nil]
    exact hout
  · intro hrestart
    rw [htables']
    rcases hpos with hpos | hpos | hpos
    · rw [hpos] at hrestart
      cases hrestart
    · rw [hpos]
      intro t ht
      cases ht
    · rw [hpos]
      exact valid_frontBegin

/-- The flush position is in the first table. -/
theorem Draining.remainingPos (h : Draining false op outs pend ref)
    (htables : op.groupTables = t :: tables) : op.remainingPos =
      t.remaining (op.flushPos.map Prod.snd) ∧ t.visited (op.flushPos.map Prod.snd) ++
        op.remainingPos = t.entries := by
  have hvalid := h.valid rfl t (by rw [htables]; rfl)
  have hremaining : op.remainingPos = t.remaining (op.flushPos.map Prod.snd) := by
    rw [GroupbyOperatorOop.remainingPos]
    cases hpos : op.flushPos with
    | none => rfl
    | some pos =>
      obtain ⟨hzero, -⟩ := hvalid pos hpos
      simp only [hzero, htables, getElem?_cons_zero, Option.map_some, Option.getD_some]
  refine ⟨hremaining, ?_⟩
  rw [hremaining]
  refine t.visited_append_remaining fun it hit ↦ ?_
  obtain ⟨pos, hpos, rfl⟩ := Option.map_eq_some_iff.mp hit
  exact (hvalid pos hpos).2

/-- A flush that starts at the beginning of the first table. -/
theorem Draining.of_begin (h : Draining true op outs pend ref) :
    Draining false { op with flushPos := frontBegin op.groupTables } outs pend ref := by
  refine ⟨h.windows, ?_, fun _ ↦ valid_frontBegin⟩
  rw [front_of_frontBegin rfl]
  exact h.rows

/-- What is put out of a table until it is removed. -/
theorem Draining.rows_flushTable (h : Draining restart op outs pend ref)
    (htables : op.groupTables = t :: tables) :
    (Output.rows (outs ++ (op.flushTable restart).2)).Perm
      (ref ++ t.entries.filterMap func.output) := by
  rw [flushTable, htables]
  dsimp only
  rw [Output.rows_append]
  by_cases hempty : t.empty = true
  · -- Nothing was put out of an empty table.
    have hentries := t.empty_iff.mp hempty
    have hfront : (if restart then [] else op.front.filterMap func.output) = [] := by
      split
      case isTrue => rfl
      case isFalse hrestart =>
        rw [Bool.not_eq_true] at hrestart
        subst hrestart
        have hsplit := (h.remainingPos htables).2
        rw [hentries, append_eq_nil_iff] at hsplit
        rw [front_of_cons htables, hsplit.1, filterMap_nil]
    have hrows := h.rows
    rw [hfront] at hrows
    rw [if_pos hempty, hentries]
    simpa using hrows
  · rw [if_neg hempty, GroupbyOperator.rows_emit]
    -- The flush goes on from its position.
    have hgo : ∀ {op₁ : GroupbyOperatorOop func}, Draining false op₁ outs pend ref →
        op₁.groupTables = t :: tables →
        (Output.rows outs ++ op₁.remainingPos.filterMap func.output).Perm
          (ref ++ t.entries.filterMap func.output) := by
      intro op₁ h₁ htables₁
      have hrows := h₁.rows
      rw [if_neg Bool.false_ne_true, front_of_cons htables₁] at hrows
      rw [← (h₁.remainingPos htables₁).2, filterMap_append, ← append_assoc]
      exact hrows.append_right _
    cases restart with
    | false =>
      rw [if_neg (by simp)]
      exact hgo h htables
    | true =>
      rw [if_pos (by simp [hempty])]
      have hop := h.of_begin
      rw [htables] at hop
      exact hgo hop rfl

/-- What the removal of a table does to the operator. -/
theorem flushTable_frame (restart : Bool) (htables : op.groupTables = t :: tables) :
    (op.flushTable restart).1.groupTables = tables ∧
      (op.flushTable restart).1.minWid = op.eraseFront.minWid ∧
      (op.flushTable restart).1.maxWid = op.maxWid ∧
      (op.flushTable restart).1.flushFinished = op.flushFinished ∧
      (tables = [] ∨ (op.flushTable restart).1.flushPos = frontBegin tables) := by
  rw [flushTable]
  split
  case h_1 heq =>
    rw [heq] at htables
    cases htables
  case h_2 t' tables' heq =>
    obtain ⟨rfl, rfl⟩ := cons_eq_cons.mp (heq.symm.trans htables)
    dsimp only
    have htail : op.groupTables.tail = tables' := congrArg tail heq
    refine ⟨?_, ?_, ?_, ?_, ?_⟩
    · split_ifs <;> exact htail
    · split_ifs <;> rfl
    · split_ifs <;> rfl
    · split_ifs <;> rfl
    · by_cases hnil : tables' = []
      · exact .inl hnil
      · rw [if_pos hnil]
        exact .inr rfl

/-- The first table is put out and removed. -/
theorem Draining.flushTable (h : Draining restart op outs pend ref)
    (htables : op.groupTables = t :: tables) :
    (op.flushTable restart).1.minWid = op.minWid + 1 ∧
      Draining restart (op.flushTable restart).1 (outs ++ (op.flushTable restart).2)
        (others func op.minWid pend) (ref ++ windowRows func op.minWid pend) := by
  obtain ⟨htables', hmin, hmax, -, hpos⟩ := flushTable_frame restart htables
  exact h.erase htables (h.rows_flushTable htables) _ restart htables' hmin hmax (.inr hpos)

theorem front_flushTable (htables : op.groupTables = t :: tables) :
    (op.flushTable restart).1.front = [] := by
  obtain ⟨htables', -, -, -, hpos⟩ := flushTable_frame restart htables
  rcases hpos with hnil | hpos
  · exact front_of_nil (htables'.trans hnil)
  · exact front_of_frontBegin (hpos.trans (by rw [htables']))

/-- What becomes of the tuples, and the rows, when `n` windows are closed. -/
def closeAll (func : GroupbyFuncOop D G A R) (pend : List D) (minWid : Int) (n : Nat) :
    List D × List R :=
  Transducer.run (referenceStep func) pend ((range n).map fun i : Nat ↦ .close (minWid + i))

@[simp] theorem closeAll_zero (pend : List D) (minWid : Int) : closeAll func pend minWid 0 =
    (pend, []) := rfl

theorem closeAll_succ (pend : List D) (minWid : Int) (n : Nat) :
    closeAll func pend minWid (n + 1) =
      ((closeAll func (others func minWid pend) (minWid + 1) n).1,
        windowRows func minWid pend ++
          (closeAll func (others func minWid pend) (minWid + 1) n).2) := by
  rw [closeAll, range_succ_eq_map, map_cons, map_map]
  have hshift : ((fun i : Nat ↦ Event.close (D := D) (minWid + (i : Int))) ∘ Nat.succ) =
      fun i : Nat ↦ .close (minWid + 1 + (i : Int)) := by
    funext i
    rw [Function.comp]
    congr 1
    push_cast
    omega
  rw [hshift, Transducer.run, Nat.cast_zero, add_zero]
  rfl

theorem closings_eq (minWid : Int) (n : Nat) :
    (closings minWid (minWid + n) : List (Event D)) =
      (range n).map fun i : Nat ↦ .close (minWid + i) := by
  rw [closings, add_sub_cancel_left, Int.toNat_natCast]

/-- At most `n` tables are put out and removed. -/
theorem Draining.flushTables (h : Draining restart op outs pend ref) (n : Nat) :
    ∃ k : Nat, (op.flushTables restart n).1.minWid = op.minWid + k ∧
      Draining restart (op.flushTables restart n).1 (outs ++ (op.flushTables restart n).2)
        (closeAll func pend op.minWid k).1 (ref ++ (closeAll func pend op.minWid k).2) ∧
      (op.flushTables restart n).1.groupTables = op.groupTables.drop n ∧
      (op.flushTables restart n).1.flushFinished = op.flushFinished ∧
      (0 < n → (op.flushTables restart n).1.front = []) := by
  induction n generalizing op outs pend ref with
  | zero =>
    refine ⟨0, by simp [flushTables], ?_, rfl, rfl,
      fun h ↦ absurd h (lt_irrefl 0)⟩
    simpa [flushTables] using h
  | succ n ih =>
    cases htables : op.groupTables with
    | nil =>
      have heq : op.flushTables restart (n + 1) = (op, []) := by
        rw [flushTables, if_pos htables]
      rw [heq]
      refine ⟨0, by simp, by simpa using h, by simp [htables], rfl, fun _ ↦ front_of_nil htables⟩
    | cons t tables =>
      have heq : op.flushTables restart (n + 1) =
          (((op.flushTable restart).1.flushTables restart n).1,
            (op.flushTable restart).2 ++ ((op.flushTable restart).1.flushTables restart n).2) := by
        rw [flushTables, if_neg (by simp [htables])]
      obtain ⟨hmin, hdrain⟩ := h.flushTable htables
      obtain ⟨htables', -, -, hfin, -⟩ := flushTable_frame restart htables
      obtain ⟨k, hmin', hdrain', htables'', hfin', hfront⟩ := ih hdrain
      rw [heq]
      refine ⟨k + 1, ?_, ?_, ?_, hfin'.trans hfin, fun _ ↦ ?_⟩
      · rw [hmin', hmin]
        push_cast
        omega
      · rw [closeAll_succ, ← hmin, ← append_assoc, ← append_assoc]
        exact hdrain'
      · rw [htables'', htables', drop_succ_cons]
      · cases n with
        | zero => exact front_flushTable htables
        | succ n => exact hfront n.succ_pos

theorem closeAll_add (pend : List D) (minWid : Int) (n k : Nat) :
    closeAll func pend minWid (n + k) =
      ((closeAll func (closeAll func pend minWid n).1 (minWid + n) k).1,
        (closeAll func pend minWid n).2 ++
          (closeAll func (closeAll func pend minWid n).1 (minWid + n) k).2) := by
  induction n generalizing pend minWid with
  | zero => simp
  | succ n ih =>
    have hwid : minWid + ((n + 1 : Nat) : Int) = minWid + 1 + n := by
      push_cast
      omega
    rw [Nat.succ_add, closeAll_succ, ih, closeAll_succ, hwid, append_assoc]

/-- Some windows are closed. -/
def Advances (op : GroupbyOperatorOop func) (pend : List D) (ref : List R)
    (op' : GroupbyOperatorOop func) (outs' : List (Output R)) : Prop :=
  ∃ k : Nat, op'.minWid = op.minWid + k ∧
    op'.Books outs' (closeAll func pend op.minWid k).1 (ref ++ (closeAll func pend op.minWid k).2)

theorem Advances.trans {op'' : GroupbyOperatorOop func} {outs'' : List (Output R)}
    (h : Advances op pend ref op' outs')
    (h' : ∀ pend' ref', op'.Books outs' pend' ref' → Advances op' pend' ref' op'' outs'') :
    Advances op pend ref op'' outs'' := by
  obtain ⟨k, hmin, hbooks⟩ := h
  obtain ⟨k', hmin', hbooks'⟩ := h' _ _ hbooks
  refine ⟨k + k', ?_, ?_⟩
  · rw [hmin', hmin]
    push_cast
    omega
  · rw [closeAll_add, ← hmin, ← append_assoc]
    exact hbooks'

/-- No window is closed. -/
theorem Books.advances (h : op'.Books outs pend ref) (hmin : op'.minWid = op.minWid) :
    Advances op pend ref op' outs :=
  ⟨0, by simpa using hmin, by simpa using h⟩

/-- Everything the invariant is about. -/
theorem Books.congr (h : op.Books outs pend ref) (htables : op'.groupTables = op.groupTables)
    (hmin : op'.minWid = op.minWid) (hmax : op'.maxWid = op.maxWid)
    (hpos : op'.flushPos = op.flushPos)
    (hfin : op'.flushFinished = op.flushFinished) : op'.Books outs pend ref := by
  refine ⟨?_, ?_⟩
  · rw [hfin]
    exact h.toDraining.congr htables hmin hmax hpos
  · rw [hfin, htables]
    exact h.ne_nil

/-- Tuples that are no rows do not matter. -/
theorem Books.append_of_rows_eq_nil (h : op.Books outs pend ref) (hrows : Output.rows outs' = []) :
    op.Books (outs ++ outs') pend ref := by
  refine ⟨⟨h.windows, ?_, h.valid⟩, h.ne_nil⟩
  rw [Output.rows_append, hrows, append_nil]
  exact h.rows

/-- A flush that is over, or has not started. -/
theorem Draining.books_of_finished (h : Draining true op outs pend ref)
    (hfin : op.flushFinished = true) : op.Books outs pend ref := by
  refine ⟨by rwa [hfin], fun h ↦ ?_⟩
  rw [hfin] at h
  cases h

/-- A flush that starts at the first table. -/
theorem Draining.books_of_begin (h : Draining false op outs pend ref)
    (hfin : op.flushFinished = false) (hne : op.groupTables ≠ []) : op.Books outs pend ref :=
  ⟨by rwa [hfin], fun _ ↦ hne⟩

/-- The flush has put out nothing of the first table. -/
theorem Draining.of_front_eq_nil (h : Draining restart op outs pend ref) (hfront : op.front = []) :
    Draining true op outs pend ref := by
  refine ⟨h.windows, ?_, fun h ↦ by cases h⟩
  have hrows := h.rows
  rw [hfront, filterMap_nil, ite_self] at hrows
  exact hrows

/-- The flush moves on by one item. -/
theorem Draining.nextPos (h : Draining false op outs pend ref)
    (htables : op.groupTables = t :: tables) : t.visited (op.nextPos.map Prod.snd) =
      t.visited (op.flushPos.map Prod.snd) ++ op.derefPos.toList ∧ ∀ pos ∈ op.nextPos, pos.1 = 0 ∧
        t.Valid pos.2 := by
  have hvalid := h.valid rfl t (by rw [htables]; rfl)
  rw [GroupbyOperatorOop.nextPos, derefPos]
  cases hpos : op.flushPos with
  | none => exact ⟨by simp, fun pos hpos ↦ by cases hpos⟩
  | some pos =>
    obtain ⟨hzero, hit⟩ := hvalid pos hpos
    obtain ⟨e, he, hnext⟩ := t.exists_visited_next hit
    have hmap : ((t.next pos.2).map fun it ↦ (pos.1, it)).map Prod.snd = t.next pos.2 := by
      cases t.next pos.2 <;> rfl
    simp only [Option.bind_some, hzero, htables, getElem?_cons_zero, he, Option.toList_some]
      at hmap ⊢
    refine ⟨by rw [hmap, Option.map_some, hnext], fun pos' hpos' ↦ ?_⟩
    obtain ⟨it, hit', rfl⟩ := Option.map_eq_some_iff.mp hpos'
    exact ⟨rfl, HashTable.Valid.next t hit hit'⟩

theorem Books.partialFlush (h : op.Books outs pend ref) (hfin : op.flushFinished = false) :
    Advances op pend ref op.partialFlush.1 (outs ++ op.partialFlush.2) := by
  have hdrain : Draining false op outs pend ref := by
    have := h.toDraining
    rwa [hfin] at this
  obtain ⟨t, tables, htables⟩ := exists_cons_of_ne_nil (h.ne_nil hfin)
  -- One item of the first table is put out, or none if the table is empty.
  obtain ⟨next, result, heq, hrows, hvalid⟩ : ∃ next result,
      (op.partialFlush = if next = none then
          if op.eraseFront.minWid < op.lastTemporalGb ∧ tables ≠ [] then
            ({ ({ op with flushPos := next } : GroupbyOperatorOop func).eraseFront with
                flushPos := frontBegin tables }, result)
          else ({ ({ op with flushPos := next } : GroupbyOperatorOop func).eraseFront with
                flushFinished := true }, result)
        else ({ op with flushPos := next }, result)) ∧
      (Output.rows (outs ++ result)).Perm
        (ref ++ (t.visited (next.map Prod.snd)).filterMap func.output) ∧
      ∀ pos ∈ next, pos.1 = 0 ∧ t.Valid pos.2 := by
    have hrows := hdrain.rows
    rw [if_neg Bool.false_ne_true, front_of_cons htables] at hrows
    refine ⟨if t.empty then op.flushPos else op.nextPos,
      if t.empty then [] else GroupbyOperator.emit func.toGroupbyFunc op.derefPos.toList,
        ?_, ?_, ?_⟩
    · rw [GroupbyOperatorOop.partialFlush]
      split
      case h_1 heq =>
        rw [heq] at htables
        cases htables
      case h_2 t' tables' heq =>
        obtain ⟨rfl, rfl⟩ := cons_eq_cons.mp (heq.symm.trans htables)
        rfl
    · split_ifs
      · rwa [append_nil]
      · rw [Output.rows_append, GroupbyOperator.rows_emit, (hdrain.nextPos htables).1,
          filterMap_append, ← append_assoc]
        exact hrows.append_right _
    · split_ifs
      · exact hdrain.valid rfl t (by rw [htables]; rfl)
      · exact (hdrain.nextPos htables).2
  rw [heq]
  by_cases hnext : next = none
  · subst hnext
    rw [if_pos rfl]
    have htail : op.groupTables.tail = tables := congrArg tail htables
    split_ifs with hgo
    · -- The table is done, and the flush goes on with the next one.
      obtain ⟨hmin, hdrain'⟩ := hdrain.erase htables hrows
        { ({ op with flushPos := none } : GroupbyOperatorOop func).eraseFront with
          flushPos := frontBegin tables } false htail rfl rfl (.inr (.inr rfl))
      refine ⟨1, hmin, ?_⟩
      rw [closeAll_succ, closeAll_zero, append_nil]
      exact hdrain'.books_of_begin hfin fun hnil ↦ hgo.2 (htail.symm.trans hnil)
    · obtain ⟨hmin, hdrain'⟩ := hdrain.erase htables hrows
        { ({ op with flushPos := none } : GroupbyOperatorOop func).eraseFront with
          flushFinished := true } true htail rfl rfl (.inl rfl)
      refine ⟨1, hmin, ?_⟩
      rw [closeAll_succ, closeAll_zero, append_nil]
      exact hdrain'.books_of_finished rfl
  · rw [if_neg hnext]
    refine Books.advances (Draining.books_of_begin ⟨h.windows, ?_, fun _ t' ht' ↦ ?_⟩ hfin
      (h.ne_nil hfin)) rfl
    · have hfront : front { op with flushPos := next } =
          t.visited (next.map Prod.snd) := front_of_cons htables
      dsimp only
      rw [if_neg Bool.false_ne_true, hfront]
      exact hrows
    · rw [htables] at ht'
      obtain rfl := Option.some_inj.mp ht'
      exact hvalid

theorem Books.noteGb (h : op.Books outs pend ref) (tup : D) :
    (op.noteGb tup).Books outs pend ref := by
  rw [GroupbyOperatorOop.noteGb]
  split
  · exact h.congr rfl rfl rfl rfl rfl
  · exact h.congr rfl rfl rfl rfl rfl

theorem minWid_noteGb (op : GroupbyOperatorOop func) (tup : D) : (op.noteGb tup).minWid =
    op.minWid := by
  rw [noteGb]
  split <;> rfl

theorem Books.noteTemporalGb (h : op.Books outs pend ref) (tup : D) :
    (op.noteTemporalGb tup).Books outs pend ref := by
  rw [GroupbyOperatorOop.noteTemporalGb]
  split
  · exact h.congr rfl rfl rfl rfl rfl
  · exact h

theorem minWid_noteTemporalGb (op : GroupbyOperatorOop func) (tup : D) :
    (op.noteTemporalGb tup).minWid = op.minWid := by
  rw [noteTemporalGb]
  split <;> rfl

theorem Books.pushOut (h : op.Books outs pend ref) (tup : D) :
    Advances op pend ref (op.pushOut tup).1 (outs ++ (op.pushOut tup).2) := by
  obtain ⟨r, heq, hadv⟩ : ∃ r : GroupbyOperatorOop func × List (Output R),
      op.pushOut tup = (r.1.noteGb tup, r.2) ∧
      Advances op pend ref r.1 (outs ++ r.2) := by
    by_cases hfin : op.flushFinished = true
    · refine ⟨(op, []), by rw [GroupbyOperatorOop.pushOut, if_pos hfin], ?_⟩
      rw [append_nil]
      exact h.advances rfl
    · refine ⟨op.partialFlush, by rw [GroupbyOperatorOop.pushOut, if_neg hfin], ?_⟩
      exact h.partialFlush (Bool.not_eq_true _ ▸ hfin)
  obtain ⟨k, hmin, hbooks⟩ := hadv
  rw [heq]
  exact ⟨k, (minWid_noteGb _ _).trans hmin, hbooks.noteGb tup⟩

/-- A flush in progress ends. -/
theorem Books.flushOld (h : op.Books outs pend ref) (hfin : op.flushFinished = false)
    (hnum : 0 < op.num) : Advances op pend ref op.flushOld.1 (outs ++ op.flushOld.2) := by
  have hdrain := h.toDraining
  rw [hfin] at hdrain
  obtain ⟨k, hmin, hdrain', -, -, hfront⟩ := hdrain.flushTables op.num.toNat
  refine ⟨k, hmin, ?_⟩
  have hdone := hdrain'.of_front_eq_nil (hfront (by omega))
  refine Draining.books_of_finished ?_ rfl
  exact hdone.congr rfl rfl rfl rfl

theorem Books.startFlush (h : op.Books outs pend ref)
    (hok : op.flushFinished = false → 0 < op.num) : Advances op pend ref op.startFlush.1
    (outs ++ op.startFlush.2) := by
  -- First the flush in progress ends.
  obtain ⟨op₁, outs₁, heq, hfin, hadv⟩ : ∃ op₁ outs₁,
      (if op.flushFinished then (op, []) else op.flushOld) = (op₁, outs₁) ∧
        op₁.flushFinished = true ∧ Advances op pend ref op₁ (outs ++ outs₁) := by
    by_cases hfin : op.flushFinished = true
    · refine ⟨op, [], if_pos hfin, hfin, ?_⟩
      rw [append_nil]
      exact h.advances rfl
    · rw [if_neg hfin]
      have hfin' : op.flushFinished = false := Bool.not_eq_true _ ▸ hfin
      exact ⟨_, _, rfl, rfl, h.flushOld hfin' (hok hfin')⟩
  rw [GroupbyOperatorOop.startFlush, heq]
  dsimp only
  refine hadv.trans fun pend' ref' h₁ ↦ Books.advances ?_ rfl
  have hdrain := h₁.toDraining
  rw [hfin] at hdrain
  by_cases hnil : op₁.groupTables = []
  · rw [if_neg (fun h ↦ h.2 hnil), if_neg (not_not.mpr hnil)]
    exact h₁
  · rw [if_pos hnil]
    by_cases hgo : op₁.minWid < op₁.lastTemporalGb
    · rw [if_pos ⟨hgo, hnil⟩]
      refine Draining.books_of_begin ?_ rfl hnil
      exact hdrain.of_begin.congr rfl rfl rfl rfl
    · rw [if_neg (fun h ↦ hgo h.1)]
      exact Draining.books_of_finished ⟨hdrain.windows, hdrain.rows, fun h ↦ by cases h⟩ hfin

/-- A tuple without a group. -/
theorem Books.acceptNone (h : op.Books outs pend ref) (tup : D)
    (hok : (op.noteTemporalGb tup).flushStarts = true →
      (op.noteTemporalGb tup).flushFinished = false → 0 < (op.noteTemporalGb tup).num) :
    Advances op pend ref (op.acceptNone tup).1 (outs ++ (op.acceptNone tup).2) := by
  have hnote : Advances op pend ref (op.noteTemporalGb tup) outs :=
    (h.noteTemporalGb tup).advances (minWid_noteTemporalGb op tup)
  have hflush : Advances op pend ref
      (if (op.noteTemporalGb tup).flushStarts then (op.noteTemporalGb tup).startFlush
        else (op.noteTemporalGb tup, [])).1
      (outs ++ (if (op.noteTemporalGb tup).flushStarts then (op.noteTemporalGb tup).startFlush
        else (op.noteTemporalGb tup, [])).2) := by
    split
    case isTrue hstarts => exact hnote.trans fun pend' ref' h' ↦ h'.startFlush (hok hstarts)
    case isFalse =>
      rw [append_nil]
      exact hnote
  obtain ⟨k, hmin, hbooks⟩ := hflush
  refine ⟨k, hmin, ?_⟩
  rw [GroupbyOperatorOop.acceptNone, ← append_assoc]
  exact hbooks.append_of_rows_eq_nil (Output.rows_tempStatus _)

/-- After a flush, everything is out. -/
theorem Books.flush (h : op.Books outs pend ref) :
    ∃ k : Nat, op.flush.1.minWid = op.minWid + k ∧ (closeAll func pend op.minWid k).1 = [] ∧
      (Output.rows (outs ++ op.flush.2)).Perm (ref ++ (closeAll func pend op.minWid k).2) := by
  obtain ⟨k, hmin, hdrain, htables, -, -⟩ := h.toDraining.flushTables op.groupTables.length
  rw [drop_length] at htables
  refine ⟨k, hmin, ?_, ?_⟩
  · rw [eq_nil_iff_forall_not_mem]
    intro d hd
    have hd' := hdrain.windows.pend d hd
    rw [htables] at hd'
    simp only [length_nil, Nat.cast_zero] at hd'
    omega
  · have hrows := hdrain.rows
    rw [front_of_nil htables, filterMap_nil, ite_self, append_nil] at hrows
    exact hrows

end Flushing

/-! ## Tuples -/

section Tuples

variable {op : GroupbyOperatorOop func} {outs : List (Output R)} {pend : List D} {ref : List R}
variable {tables : List (HashTable G A func.hasher)} {minWid maxWid wid : Int} {tup : D} {grp : G}

theorem window_of_notMem (h : ∀ d ∈ pend, func.gbVar d ≠ wid) : window func wid pend = [] := by
  rw [window, filter_eq_nil_iff]
  intro d hd
  simpa using h d hd

theorem window_snoc_of_eq (h : func.gbVar tup = wid) :
    window func wid (pend ++ [tup]) = window func wid pend ++ [tup] := by
  simp [window, h]

theorem window_snoc_of_ne (h : func.gbVar tup ≠ wid) :
    window func wid (pend ++ [tup]) = window func wid pend := by
  simp [window, h]

/-- A new table is the one of a window without tuples. -/
theorem entries_new_perm (h : ∀ d ∈ pend, func.gbVar d ≠ wid) :
    (HashTable.new : HashTable G A func.hasher).entries.Perm
    (func.groups (window func wid pend)) := by
  rw [window_of_notMem h, func.groups_nil]
  exact List.Perm.refl _

/-- The tables of an operator that has seen a tuple. -/
def Sized (tables : List (HashTable G A func.hasher)) (minWid maxWid : Int) : Prop :=
  tables.length = maxWid + 1 - minWid

/-- The first table. -/
theorem Windows.firstTable (h : Windows op.groupTables op.minWid op.maxWid pend)
    (hzero : op.maxWid = 0 → op.minWid = 0 → op.groupTables = [])
    (hmin : func.temporalType.minValue ≤ wid) (hmax : wid < func.temporalType.maxValue) :
    Windows (op.firstTable wid).groupTables (op.firstTable wid).minWid
      (op.firstTable wid).maxWid pend ∧ Sized (op.firstTable wid).groupTables
      (op.firstTable wid).minWid (op.firstTable wid).maxWid := by
  rw [GroupbyOperatorOop.firstTable]
  split
  case isTrue hsentinel =>
    have hnil := hzero hsentinel.1 hsentinel.2
    have hpend : pend = [] := by
      rw [eq_nil_iff_forall_not_mem]
      intro d hd
      have hd' := h.pend d hd
      rw [hnil] at hd'
      simp only [length_nil, Nat.cast_zero] at hd'
      omega
    dsimp only
    rw [hnil, nil_append, hpend]
    have hsize : Sized ([HashTable.new] : List (HashTable G A func.hasher)) wid wid := by
      simp [Sized]
    refine ⟨⟨.inl hsize, fun i t ht ↦ ?_, fun d hd ↦ (by cases hd), hmin, hmax.le, hmax⟩, hsize⟩
    obtain ⟨-, rfl⟩ : i = 0 ∧ HashTable.new = t := by
      cases i with
      | zero => exact ⟨rfl, Option.some_inj.mp ht⟩
      | succ i => simp at ht
    exact entries_new_perm fun d hd ↦ (by cases hd)
  case isFalse hsentinel =>
    refine ⟨h, ?_⟩
    rcases h.size with hsize | ⟨-, hmin', hmax'⟩
    · exact hsize
    · exact absurd ⟨hmax', hmin'⟩ hsentinel

/-- Tables for windows before the first one. -/
theorem Windows.growFront (h : Windows op.groupTables op.minWid op.maxWid pend)
    (hs : Sized op.groupTables op.minWid op.maxWid) (hmin : func.temporalType.minValue ≤ wid) :
    Windows (op.growFront wid).groupTables (op.growFront wid).minWid
      (op.growFront wid).maxWid pend ∧ Sized (op.growFront wid).groupTables
      (op.growFront wid).minWid (op.growFront wid).maxWid ∧
      (op.growFront wid).minWid = min wid op.minWid := by
  rw [GroupbyOperatorOop.growFront]
  rw [Sized] at hs
  split
  case isTrue hlt =>
    dsimp only
    have hk : ((op.minWid - wid).toNat : Int) = op.minWid - wid := Int.toNat_of_nonneg (by omega)
    have hsize : Sized (replicate (op.minWid - wid).toNat HashTable.new ++ op.groupTables) wid
        op.maxWid := by
      rw [Sized, length_append, length_replicate]
      push_cast
      omega
    have hle := h.le_maxValue
    refine ⟨⟨.inl hsize, fun i t ht ↦ ?_, fun d hd ↦ ?_, hmin, by omega, h.lt_maxValue⟩,
      hsize, by omega⟩
    · rcases Nat.lt_or_ge i (op.minWid - wid).toNat with hi | hi
      · rw [getElem?_append_left (by simpa using hi)] at ht
        obtain rfl := eq_of_mem_replicate (mem_of_getElem? ht)
        refine entries_new_perm fun d hd heq ↦ ?_
        have hd' := (h.pend d hd).1
        omega
      · rw [getElem?_append_right (by simpa using hi), length_replicate] at ht
        have heq : wid + (i : Int) = op.minWid + ((i - (op.minWid - wid).toNat : Nat) : Int) := by
          omega
        rw [heq]
        exact h.entries _ t ht
    · have hd' := h.pend d hd
      rw [length_append, length_replicate]
      push_cast
      omega
  case isFalse hge => exact ⟨h, hs, by omega⟩

/-- Tables for windows behind the last one. -/
theorem Windows.growBack (h : Windows op.groupTables op.minWid op.maxWid pend)
    (hs : Sized op.groupTables op.minWid op.maxWid) (hmax : wid < func.temporalType.maxValue) :
    Windows (op.growBack wid).groupTables (op.growBack wid).minWid (op.growBack wid).maxWid pend ∧
      Sized (op.growBack wid).groupTables (op.growBack wid).minWid (op.growBack wid).maxWid ∧
      (op.growBack wid).minWid = op.minWid ∧ wid ≤ (op.growBack wid).maxWid := by
  rw [GroupbyOperatorOop.growBack]
  rw [Sized] at hs
  split
  case isTrue hlt =>
    dsimp only
    have hk : ((wid - op.maxWid).toNat : Int) = wid - op.maxWid := Int.toNat_of_nonneg (by omega)
    have hsize : Sized (op.groupTables ++ replicate (wid - op.maxWid).toNat HashTable.new)
        op.minWid wid := by
      rw [Sized, length_append, length_replicate]
      push_cast
      omega
    refine ⟨⟨.inl hsize, fun i t ht ↦ ?_, fun d hd ↦ ?_, h.minValue_le, h.le_maxValue, hmax⟩,
      hsize, rfl, le_rfl⟩
    · rcases Nat.lt_or_ge i op.groupTables.length with hi | hi
      · rw [getElem?_append_left hi] at ht
        exact h.entries i t ht
      · rw [getElem?_append_right hi] at ht
        obtain rfl := eq_of_mem_replicate (mem_of_getElem? ht)
        refine entries_new_perm fun d hd heq ↦ ?_
        have hd' := (h.pend d hd).2
        omega
    · have hd' := h.pend d hd
      rw [length_append]
      push_cast
      omega
  case isFalse hge => exact ⟨h, hs, rfl, by omega⟩

/-- There is a table for the window. -/
theorem Windows.makeRoom (h : Windows op.groupTables op.minWid op.maxWid pend)
    (hzero : op.maxWid = 0 → op.minWid = 0 → op.groupTables = [])
    (hmin : func.temporalType.minValue ≤ wid) (hmax : wid < func.temporalType.maxValue) :
    Windows (op.makeRoom wid).groupTables (op.makeRoom wid).minWid (op.makeRoom wid).maxWid pend ∧
      Sized (op.makeRoom wid).groupTables (op.makeRoom wid).minWid (op.makeRoom wid).maxWid ∧
      (op.makeRoom wid).minWid = min wid (op.firstTable wid).minWid ∧
        wid ≤ (op.makeRoom wid).maxWid := by
  obtain ⟨h₁, hs₁⟩ := h.firstTable hzero hmin hmax
  obtain ⟨h₂, hs₂, hmin₂⟩ := h₁.growFront hs₁ hmin
  obtain ⟨h₃, hs₃, hmin₃, hmax₃⟩ := h₂.growBack hs₂ hmax
  exact ⟨h₃, hs₃, hmin₃.trans hmin₂, hmax₃⟩

variable {t : HashTable G A func.hasher}

/-- A table takes a tuple of its window. -/
theorem addTuple_perm {ds : List D} (h : t.entries.Perm (func.groups ds))
    (hgrp : func.group tup = some grp)
    (hok : PatternsOk grp t) :
    (addTuple tup grp t).entries.Perm (func.groups (ds ++ [tup])) := by
  have hkeys : ∀ {g}, g ∈ t.keys ↔ g ∈ (func.groups ds).map Prod.fst := (h.map Prod.fst).mem_iff
  rw [addTuple]
  split
  case h_1 val hfind =>
    have hmem : grp ∈ t.keys := t.mem_keys.mpr ⟨val, t.mem_of_find hfind⟩
    have hone : func.patterns.length ≤ 1 := hok.resolve_right fun h ↦ h.1 hmem
    exact func.perm_modify h hone hgrp hmem
  case h_2 hfind =>
    rw [t.find_eq_none, hkeys] at hfind
    refine func.perm_insertGroup h hgrp fun p hp hmem ↦ ?_
    have hgroups : p grp ∈ (func.groups ds).map Prod.fst := by
      obtain ⟨d, hd, g, hg, heq⟩ := func.mem_keys_groupsBy.mp hmem
      exact func.mem_keys_groups.mpr ⟨p, hp, d, hd, g, hg, heq⟩
    rcases hok with hone | ⟨-, hpatterns⟩
    · rw [func.groupings_of_le_one hone, mem_singleton] at hp
      subst hp
      exact hfind hgroups
    · rcases Nat.lt_or_ge 1 func.patterns.length with hlt | hone
      · rw [func.groupings_of_lt hlt] at hp
        exact hpatterns p hp (hkeys.mpr hgroups)
      · rw [func.groupings_of_le_one hone, mem_singleton] at hp
        subst hp
        exact hfind hgroups

/-- The table of its window takes a tuple. -/
theorem Windows.addTuple (h : Windows tables minWid maxWid pend) (hs : Sized tables minWid maxWid)
    (hgrp : func.group tup = some grp) (hmin : minWid ≤ func.gbVar tup)
    (hmax : func.gbVar tup ≤ maxWid)
    (hok : ∀ t ∈ tables[(func.gbVar tup - minWid).toNat]?, PatternsOk grp t) :
    Windows (tables.modify (func.gbVar tup - minWid).toNat (addTuple tup grp))
      minWid maxWid (pend ++ [tup]) := by
  rw [Sized] at hs
  have hk : ((func.gbVar tup - minWid).toNat : Int) = func.gbVar tup - minWid :=
    Int.toNat_of_nonneg (by omega)
  refine ⟨.inl (by rw [length_modify]; exact hs), fun i t ht ↦ ?_, fun d hd ↦ ?_,
    h.minValue_le, h.le_maxValue, h.lt_maxValue⟩
  · rw [getElem?_modify] at ht
    obtain ⟨t', ht', rfl⟩ := Option.map_eq_some_iff.mp ht
    have hentries := h.entries i t' ht'
    by_cases hi : (func.gbVar tup - minWid).toNat = i
    · rw [if_pos hi, window_snoc_of_eq (by omega)]
      exact addTuple_perm hentries hgrp (hok t' (by rw [hi]; exact ht'))
    · rw [if_neg hi, window_snoc_of_ne (by omega)]
      exact hentries
  · rw [length_modify]
    rcases mem_append.mp hd with hd | hd
    · exact h.pend d hd
    · rw [mem_singleton.mp hd]
      omega

/-- During a flush, room is made behind the last table only. -/
theorem makeRoom_of_flushing (htables : op.groupTables = t :: tables)
    (hzero : op.maxWid = 0 → op.minWid = 0 → op.groupTables = []) (hle : op.minWid ≤ wid) :
    ∃ added, (op.makeRoom wid).groupTables = t :: (tables ++ added) ∧
      (op.makeRoom wid).minWid = op.minWid ∧ (op.makeRoom wid).flushPos = op.flushPos := by
  have hfirst : op.firstTable wid = op := by
    refine if_neg fun h ↦ ?_
    rw [hzero h.1 h.2] at htables
    cases htables
  have hfront : op.growFront wid = op := if_neg (by omega)
  rw [makeRoom, hfirst, hfront, growBack]
  split
  · exact ⟨_, by rw [htables]; rfl, rfl, rfl⟩
  · exact ⟨[], by rw [htables, append_nil], rfl, rfl⟩

/-- Items ahead of the flush position are inserted. -/
theorem visited_foldl_insert (t : HashTable G A func.hasher) (ps : List (G → G)) (a : A)
    {it : Iterator} (hvalid : t.Valid it) (h : ∀ p ∈ ps, t.Ahead it (p grp)) :
    (ps.foldl (fun t p ↦ t.insert (p grp) a) t).visited (some it) = t.visited (some it) ∧
      (ps.foldl (fun t p ↦ t.insert (p grp) a) t).Valid it := by
  induction ps generalizing t with
  | nil => exact ⟨rfl, hvalid⟩
  | cons p ps ih =>
    have hp := h p mem_cons_self
    obtain ⟨hvisited, hvalid'⟩ := ih (t.insert (p grp) a) (t.valid_insert hvalid hp a) fun p' hp' ↦
      HashTable.Ahead.insert t (h p' (mem_cons_of_mem p hp')) hvalid a
    exact ⟨hvisited.trans (t.visited_insert hvalid hp a), hvalid'⟩

/-- A late tuple does not change what was put out. -/
theorem visited_addTuple {it : Iterator} (tup : D) (hvalid : t.Valid it)
    (hok : if grp ∈ t.keys then t.Unstarted it grp else ∀ p ∈ func.groupings, t.Ahead it (p grp)) :
    (addTuple tup grp t).visited (some it) = t.visited (some it) ∧
    (addTuple tup grp t).Valid it := by
  rw [addTuple]
  split
  case h_1 val hfind =>
    rw [if_pos (t.mem_keys.mpr ⟨val, t.mem_of_find hfind⟩)] at hok
    exact ⟨t.visited_modify hvalid hok _, t.valid_modify hvalid _⟩
  case h_2 hfind =>
    rw [if_neg (t.find_eq_none.mp hfind)] at hok
    have heq : func.insertGroup t tup grp =
        func.groupings.foldl (fun t p ↦ t.insert (p grp) (func.createAggregate tup)) t := by
      rw [GroupbyFunc.insertGroup, GroupbyFunc.groupings]
      split <;> rfl
    rw [heq]
    exact visited_foldl_insert t func.groupings _ hvalid hok

/-- The first table and the flush position after a tuple was taken in during a flush. -/
theorem front_acceptSome (tup : D) (htables : op.groupTables = t :: tables)
    (hvalid : ∀ pos ∈ op.flushPos, pos.1 = 0 ∧ t.Valid pos.2) (hok : op.AcceptOk grp)
    (hfin : op.flushFinished = false) :
    (op.acceptSome tup grp).front = op.front ∧
      ∀ t' ∈ (op.acceptSome tup grp).groupTables.head?, ∀ pos ∈ (op.acceptSome tup grp).flushPos,
        pos.1 = 0 ∧ t'.Valid pos.2 := by
  have hflushing := hok.flushing hfin
  have hle : op.minWid ≤ func.currGb grp := by
    rcases hflushing with hlt | ⟨heq, -⟩
    · exact hlt.le
    · exact heq.le
  obtain ⟨added, htables', hmin, hpos⟩ := makeRoom_of_flushing htables hok.zero hle
  have hindex := hok.index
  rw [hmin] at hindex
  rcases hflushing with hlt | ⟨heq, hlate⟩
  · -- The first table is not touched.
    obtain ⟨i, hi⟩ : ∃ i : Nat, (func.currGb grp - op.minWid).toNat = i + 1 :=
      Nat.exists_eq_succ_of_ne_zero (by omega)
    have htables'' : (op.acceptSome tup grp).groupTables =
        t :: (tables ++ added).modify i (addTuple tup grp) := by
      rw [acceptSome]
      dsimp only
      rw [hindex, hi, htables', modify_succ_cons]
    have hpos' : (op.acceptSome tup grp).flushPos = op.flushPos := hpos
    rw [front_of_cons htables'', front_of_cons htables, hpos', htables'']
    refine ⟨rfl, fun t' ht' ↦ ?_⟩
    obtain rfl := Option.some_inj.mp ht'
    exact hvalid
  · -- The first table takes the tuple.
    have hi : (func.currGb grp - op.minWid).toNat = 0 := by omega
    have htables'' : (op.acceptSome tup grp).groupTables = addTuple tup grp t ::
      (tables ++ added) := by
      rw [acceptSome]
      dsimp only
      rw [hindex, hi, htables', modify_zero_cons]
    have hpos' : (op.acceptSome tup grp).flushPos = op.flushPos := hpos
    obtain ⟨hne, hlate'⟩ := hlate t (by rw [htables]; rfl)
    obtain ⟨pos, hsome⟩ := Option.ne_none_iff_exists'.mp hne
    obtain ⟨hzero, hit⟩ := hvalid pos hsome
    obtain ⟨hvisited, hvalid'⟩ := visited_addTuple tup hit (hlate' pos hsome)
    rw [front_of_cons htables'', front_of_cons htables, hpos', htables'', hsome]
    refine ⟨hvisited, fun t' ht' pos' hpos' ↦ ?_⟩
    obtain rfl := Option.some_inj.mp ht'
    obtain rfl := Option.some_inj.mp hpos'
    exact ⟨hzero, hvalid'⟩

theorem gbVar_eq_currGb (hgrp : func.group tup = some grp) : func.gbVar tup = func.currGb grp :=
  (func.gbVar_of_mem hgrp).symm

/-- A tuple finds its table. -/
theorem Books.index_lt (h : op.Books outs pend ref) (hgrp : func.group tup = some grp)
    (hok : op.AcceptOk grp) :
    0 ≤ (op.makeRoom (func.currGb grp)).index (func.currGb grp) ∧
      (op.makeRoom (func.currGb grp)).index (func.currGb grp) <
        (op.makeRoom (func.currGb grp)).groupTables.length := by
  have hmin := func.minValue_le_gbVar tup
  rw [gbVar_eq_currGb hgrp] at hmin
  obtain ⟨-, hs, hmin', hmax⟩ := h.windows.makeRoom hok.zero hmin hok.lt_maxValue
  rw [Sized] at hs
  have hle : (op.makeRoom (func.currGb grp)).minWid ≤ func.currGb grp := by
    rw [hmin']
    exact min_le_left _ _
  rw [hok.index]
  omega

/-- A tuple is taken in. -/
theorem Books.acceptSome (h : op.Books outs pend ref) (hgrp : func.group tup = some grp)
    (hok : op.AcceptOk grp) : (op.acceptSome tup grp).Books outs (pend ++ [tup]) ref := by
  have hgb := gbVar_eq_currGb hgrp
  have hmin := func.minValue_le_gbVar tup
  rw [hgb] at hmin
  obtain ⟨hwindows, hs, hmin', hmax⟩ := h.windows.makeRoom hok.zero hmin hok.lt_maxValue
  have hle : (op.makeRoom (func.currGb grp)).minWid ≤ func.currGb grp := by
    rw [hmin']
    exact min_le_left _ _
  have hfin : (op.acceptSome tup grp).flushFinished = op.flushFinished := by
    rw [GroupbyOperatorOop.acceptSome, GroupbyOperatorOop.makeRoom, GroupbyOperatorOop.growBack,
      growFront, firstTable]
    dsimp only
    split_ifs <;> rfl
  have hwindows' : Windows (op.acceptSome tup grp).groupTables (op.acceptSome tup grp).minWid
      (op.acceptSome tup grp).maxWid (pend ++ [tup]) := by
    have hadd := hwindows.addTuple hs hgrp (by rw [hgb]; exact hle) (by rw [hgb]; exact hmax)
      (by rw [hgb]; exact hok.patterns)
    rw [hgb, ← hok.index] at hadd
    exact hadd
  rcases Bool.eq_false_or_eq_true op.flushFinished with hfinished | hflushing
  · refine Draining.books_of_finished ⟨hwindows', ?_, fun h ↦ by cases h⟩ (hfin.trans hfinished)
    have hrows := h.rows
    rwa [hfinished] at hrows
  · have hdrain := h.toDraining
    rw [hflushing] at hdrain
    obtain ⟨t, tables, htables⟩ := exists_cons_of_ne_nil (h.ne_nil hflushing)
    obtain ⟨hfront, hvalid⟩ := front_acceptSome tup htables
      (hdrain.valid rfl t (by rw [htables]; rfl)) hok hflushing
    refine Draining.books_of_begin ⟨hwindows', ?_, fun _ ↦ hvalid⟩ (hfin.trans hflushing) ?_
    · rw [hfront]
      exact hdrain.rows
    · intro hnil
      have hlt := h.index_lt hgrp hok
      have hlength : (op.acceptSome tup grp).groupTables.length =
          (op.makeRoom (func.currGb grp)).groupTables.length := by
        rw [GroupbyOperatorOop.acceptSome]
        exact length_modify _ _ _
      rw [hnil, length_nil] at hlength
      omega

end Tuples

/-! ## Runs -/

section Runs

/-- The table that a tuple goes to is one of the tables. -/
def InRange (op : GroupbyOperatorOop func) (tup : D) : Prop :=
  ∀ grp ∈ func.group tup,
    0 ≤ ((op.pushOut tup).1.makeRoom (func.currGb grp)).index (func.currGb grp) ∧
      ((op.pushOut tup).1.makeRoom (func.currGb grp)).index (func.currGb grp) <
        ((op.pushOut tup).1.makeRoom (func.currGb grp)).groupTables.length

variable {op : GroupbyOperatorOop func} {outs : List (Output R)} {pend : List D}
  {ref : List R} {tup : D}

theorem books_init : (init func).Books [] [] [] := by
  refine Draining.books_of_finished ⟨⟨.inr ⟨rfl, rfl, rfl⟩, ?_, ?_, ?_, ?_, ?_⟩, ?_, ?_⟩ rfl
  · intro i t ht
    cases ht
  · intro d hd
    cases hd
  · exact func.temporalType.minValue_le_zero
  · exact func.temporalType.zero_lt_maxValue.le
  · exact func.temporalType.zero_lt_maxValue
  · exact List.Perm.refl _
  · intro h
    cases h

/-- The windows that were closed, as events. -/
theorem Advances.run_closings {op' : GroupbyOperatorOop func} {outs' : List (Output R)}
    (h : Advances op pend ref op' outs') :
    op'.Books outs' (Transducer.run (referenceStep func) pend (closings op.minWid op'.minWid)).1
      (ref ++ (Transducer.run (referenceStep func) pend (closings op.minWid op'.minWid)).2) := by
  obtain ⟨k, hmin, hbooks⟩ := h
  rw [hmin, closings_eq]
  exact hbooks

/-- **One tuple.**  It finds its table, closes some windows, and is taken in. -/
theorem Books.acceptTuple (h : op.Books outs pend ref) (hok : op.StepOk tup) :
    op.InRange tup ∧ (op.acceptTuple tup).1.Books (outs ++ (op.acceptTuple tup).2)
      (Transducer.run (referenceStep func) pend (op.events tup)).1
      (ref ++ (Transducer.run (referenceStep func) pend (op.events tup)).2) := by
  have hpush := h.pushOut tup
  cases hgrp : func.group tup with
  | none =>
    have heq : op.acceptTuple tup = (((op.pushOut tup).1.acceptNone tup).1,
        (op.pushOut tup).2 ++ ((op.pushOut tup).1.acceptNone tup).2) := by
      simp only [GroupbyOperatorOop.acceptTuple, hgrp]
    have hevents : op.events tup = closings op.minWid (op.acceptTuple tup).1.minWid := by
      simp only [events, hgrp]
    have hok' : ((op.pushOut tup).1.noteTemporalGb tup).flushStarts = true →
        ((op.pushOut tup).1.noteTemporalGb tup).flushFinished = false →
          0 < ((op.pushOut tup).1.noteTemporalGb tup).num := by
      simpa only [StepOk, hgrp] using hok
    refine ⟨fun grp hmem ↦ (by rw [hgrp] at hmem; cases hmem), ?_⟩
    rw [hevents, heq, ← append_assoc]
    exact (hpush.trans fun pend' ref' h' ↦ h'.acceptNone tup hok').run_closings
  | some grp =>
    have heq : op.acceptTuple tup = ((op.pushOut tup).1.acceptSome tup grp,
      (op.pushOut tup).2) := by
      simp only [GroupbyOperatorOop.acceptTuple, hgrp]
    have hevents : op.events tup = closings op.minWid (op.pushOut tup).1.minWid ++
      [.tuple tup] := by
      simp only [events, hgrp]
    have hok' : (op.pushOut tup).1.AcceptOk grp := by
      simpa only [StepOk, hgrp] using hok
    have hbooks := hpush.run_closings
    refine ⟨fun grp' hmem ↦ ?_, ?_⟩
    · obtain rfl := Option.some_inj.mp (hgrp.symm.trans hmem)
      exact hbooks.index_lt hgrp hok'
    · rw [hevents, heq, Transducer.run_snoc]
      dsimp only [referenceStep]
      rw [append_nil]
      exact hbooks.acceptSome hgrp hok'

/-- In a run whose steps are all in order, the books are kept. -/
theorem books_of_guarded (tups : List D)
    (hok : Transducer.Guarded acceptTuple StepOk (init func) tups) : Transducer.Guarded acceptTuple
      InRange (init func) tups ∧ (Transducer.run acceptTuple (init func) tups).1.Books
        (Transducer.run acceptTuple (init func) tups).2
        (Transducer.run (referenceStep func) []
          (Transducer.log acceptTuple events (init func) tups)).1
        (Transducer.run (referenceStep func) []
          (Transducer.log acceptTuple events (init func) tups)).2 := by
  induction tups using reverseRecOn with
  | nil => exact ⟨trivial, books_init⟩
  | append_singleton tups tup ih =>
    rw [Transducer.guarded_snoc] at hok
    obtain ⟨hrange, hbooks⟩ := ih hok.1
    obtain ⟨hrange', hbooks'⟩ := hbooks.acceptTuple hok.2
    rw [Transducer.guarded_snoc, Transducer.run_snoc, Transducer.log_snoc, Transducer.run_append]
    exact ⟨⟨hrange, hrange'⟩, hbooks'⟩

/-- **Out-of-order group-by.**  In a run whose steps are all in order, each tuple goes to one of the
tables, and there is a table for each window from the first to the last one, or none at all.  What
is put out until the flush is over are the rows of the windows each time they were closed, for the
tuples that arrived since they were closed before, and every tuple was in a window that was
closed. -/
theorem accounted_of_guarded (tups : List D)
    (hok : Transducer.Guarded acceptTuple StepOk (init func) tups) :
    Transducer.Guarded acceptTuple InRange (init func) tups ∧
      ((Transducer.run acceptTuple (init func) tups).1.groupTables = [] ∨
        ((Transducer.run acceptTuple (init func) tups).1.groupTables.length : Int) =
          (Transducer.run acceptTuple (init func) tups).1.maxWid -
            (Transducer.run acceptTuple (init func) tups).1.minWid + 1) ∧
      (Transducer.run (referenceStep func) [] (eventsOf func tups)).1 = [] ∧
      (Output.rows (outputOf func tups)).Perm
        (Transducer.run (referenceStep func) [] (eventsOf func tups)).2 := by
  obtain ⟨hrange, hbooks⟩ := books_of_guarded tups hok
  refine ⟨hrange, ?_, ?_⟩
  · rcases hbooks.windows.size with hsize | ⟨hnil, -⟩
    · right
      omega
    · exact .inl hnil
  · obtain ⟨k, hmin, hpend, hrows⟩ := hbooks.flush
    rw [eventsOf, hmin, closings_eq, Transducer.run_append]
    exact ⟨hpend, hrows⟩

theorem natCast_le_maxValue (d : Fin (2 ^ 32) × Option Nat) :
    (d.1.val : Int) ≤ TemporalType.uint.maxValue := by
  have h := d.1.isLt
  simp only [TemporalType.maxValue]
  omega

theorem minValue_le_natCast (d : Fin (2 ^ 32) × Option Nat) :
    TemporalType.uint.minValue ≤ (d.1.val : Int) := Int.natCast_nonneg _

theorem fst_of_eq_some {d : Fin (2 ^ 32) × Option Nat} {g : Int × Option Nat}
    (h : some ((d.1.val : Int), d.2) = some g) : g.1 = d.1.val := by
  rw [← Option.some_inj.mp h]

/-- Counts by window and port.  A tuple is the window id and the port, and one without a port is a
status tuple. -/
def countsOop : GroupbyFuncOop (Fin (2 ^ 32) × Option Nat) (Int × Option Nat)
    Nat ((Int × Option Nat) × Nat) where
  isTemporal := fun d ↦ d.2.isNone
  gbVar := fun d ↦ d.1.val
  initialGb := 0
  createGroup := fun d ↦ some (d.1.val, d.2)
  createAggregate := fun _ ↦ 1
  updateAggregate := fun _ _ n ↦ n + 1
  createOutputTuple := fun g n ↦ some (g, n)
  createTempStatusTuple := fun d _ _ ↦ ((d.1.val, d.2), 0)
  patterns := []
  hasher := fun g ↦ g.2.getD 0
  currGb := Prod.fst
  currGb_createGroup := fst_of_eq_some
  temporalType := .uint
  minValue_le_gbVar := minValue_le_natCast
  gbVar_le_maxValue := natCast_le_maxValue

/-- Window 5 is flushed while a late tuple for it arrives and one for window 7, and window 6 stays
empty. -/
theorem accounted_lateOk :
    Transducer.Guarded acceptTuple StepOk (init countsOop)
        [(5, some 1), (5, some 2), (7, some 1), (6, none), (7, none), (5, some 3), (7, some 1)] ∧
      (Output.rows (outputOf countsOop
        [(5, some 1), (5, some 2), (7, some 1), (6, none), (7, none), (5, some 3),
          (7, some 1)])).Perm [((5, some 1), 1), ((5, some 2), 1), ((5, some 3), 1),
            ((7, some 1), 2)] := by
  have hok : Transducer.Guarded acceptTuple StepOk (init countsOop)
      [(5, some 1), (5, some 2), (7, some 1), (6, none), (7, none), (5, some 3), (7, some 1)] := by
    decide
  exact ⟨hok, (accounted_of_guarded _ hok).2.2.2.trans (by decide)⟩

/-- Two tuples of window 0, and there are two tables for it; and during the flush of window 5 a
tuple of window 4 gets lost, and window 5 is put out twice. -/
theorem exists_not_accounted :
    ((Transducer.run acceptTuple (init countsOop) [(0, some 1), (0, some 1)]).1.maxWid = 0 ∧
      (Transducer.run acceptTuple (init countsOop) [(0, some 1), (0, some 1)]).1.minWid = 0 ∧
      (Transducer.run acceptTuple (init countsOop)
        [(0, some 1), (0, some 1)]).1.groupTables.length = 2) ∧
    Output.rows (outputOf countsOop [(5, some 1), (5, some 2), (6, none), (7, none), (4, some 1)]) =
      [((5, some 1), 1), ((5, some 2), 1), ((5, some 1), 1), ((5, some 2), 1)] ∧
    (Transducer.run (referenceStep countsOop) []
      (eventsOf countsOop [(5, some 1), (5, some 2), (6, none), (7, none), (4, some 1)])).2 =
        [((4, some 1), 1), ((5, some 1), 1), ((5, some 2), 1)] := by
  decide

end Runs

end GroupbyOperatorOop

end Tigon.Hfta
