import Tigon.Hfta.JoinEqHash

/-!
# The hash join of two streams: runs

The invariant is `Running`: the timestamp `ts` has its turn, the join of the tuples with earlier
timestamps is out, and of those in the tables the pairs.  It is kept when a tuple is joined, when
the next timestamp has its turn, and when a tuple is taken into a queue.  As long as one channel is
silent, the tuples of the other one wait (`Waiting`).

The tuples of earlier turns and of this turn are parameters of the invariant.  The operator has
dropped most of them, and what is out can only be said of what came in.
-/

set_option autoImplicit false
set_option linter.unusedSectionVars false

namespace Tigon.Hfta

open Function List

variable {D T K R : Type} [LinearOrder T] [DecidableEq K]

/-! ## Pairs -/

namespace JoinFunc

variable (func : JoinFunc D T K R)

theorem pairOf_other (i : Channel) (e o : T × D) : func.pairOf i.other o e = func.pairOf i e o := by
  have hout : func.outputTuple i.other o.2 e.2 = func.outputTuple i e.2 o.2 := by
    cases i <;> rfl
  rw [pairOf, pairOf, hout, Channel.other_other]
  refine if_congr ⟨fun h ↦ ?_, fun h ↦ ?_⟩ rfl rfl
  · exact ⟨h.1.symm, h.2.2 ▸ h.2.1, h.2.2.symm⟩
  · exact ⟨h.1.symm, h.2.2 ▸ h.2.1, h.2.2.symm⟩

/-- Tuples with different timestamps do not match. -/
theorem pairOf_of_ne {i : Channel} {e o : T × D} (h : e.1 ≠ o.1) : func.pairOf i e o = none :=
  if_neg fun h' ↦ h h'.1

/-- A tuple without a key matches nothing. -/
theorem pairOf_of_none {i : Channel} {e : T × D} (h : func.createKey i e.2 = none) (o : T × D) :
    func.pairOf i e o = none := by
  refine if_neg fun h' ↦ ?_
  rw [h] at h'
  cases h'.2.1

theorem pairOf_of_key {i : Channel} {e o : T × D} {key : K} (hts : e.1 = o.1)
    (hkey : func.createKey i e.2 = some key) :
    func.pairOf i e o =
      (func.createKey i.other o.2).bind fun key' ↦
        if key' = key then func.outputTuple i e.2 o.2 else none := by
  rw [pairOf, hkey]
  cases hother : func.createKey i.other o.2 with
  | none => simp
  | some key' =>
    rw [Option.bind_some]
    refine if_congr ⟨fun h ↦ (Option.some_inj.mp h.2.2).symm, fun h ↦ ⟨hts, rfl, by rw [h]⟩⟩ rfl rfl

/-- One more tuple. -/
theorem pairsOf_snoc (now : Channel → List (T × D)) (i : Channel) (e : T × D) :
    (func.pairsOf (update now i (now i ++ [e]))).Perm
      (func.pairsOf now ++ (now i.other).filterMap (func.pairOf i e)) := by
  cases i with
  | left =>
    rw [pairsOf, update_self, update_of_ne (by decide), OuterJoin.pairs_snoc_left]
    exact List.Perm.refl _
  | right =>
    rw [pairsOf, update_self, update_of_ne (by decide)]
    refine OuterJoin.pairs_snoc_right.trans ?_
    have hflip : (fun a ↦ func.pairOf .left a e) = func.pairOf .right e := by
      funext a
      exact func.pairOf_other .right e a
    rw [hflip]
    exact List.Perm.refl _

/-- The rows of the tuples of a channel that match nothing. -/
def padsAt (tuples : Channel → List (T × D)) (i : Channel) : List R :=
  OuterJoin.pads (func.pairOf i) (func.padOf i) (tuples i) (tuples i.other)

theorem padsOf_eq (tuples : Channel → List (T × D)) :
    func.padsOf tuples = func.padsAt tuples .left ++ func.padsAt tuples .right := by
  have hflip : (fun b a ↦ func.pairOf .left a b) = func.pairOf .right := by
    funext b a
    exact func.pairOf_other .right b a
  rw [padsOf, OuterJoin.allPads, hflip]
  rfl

theorem joinOf_eq (tuples : Channel → List (T × D)) :
    func.joinOf tuples = func.pairsOf tuples ++ func.padsOf tuples := rfl

/-- Tuples of different timestamps are joined separately. -/
theorem joinOf_append {closed now : Channel → List (T × D)}
    (h : ∀ i j, ∀ e ∈ closed i, ∀ o ∈ now j, e.1 ≠ o.1) :
    (func.joinOf fun i ↦ closed i ++ now i).Perm (func.joinOf closed ++ func.joinOf now) := by
  refine OuterJoin.join_append (fun e he o ho ↦ ?_) fun e he o ho ↦ ?_
  · exact func.pairOf_of_ne (h .left .right e he o ho)
  · exact func.pairOf_of_ne (h .right .left o ho e he).symm

end JoinFunc

/-! ## Tables -/

namespace JoinOperator

variable {func : JoinFunc D T K R}

/-- The item of a tuple in the table of its channel: its flag says whether it matches one of those
in the other table. -/
def item (func : JoinFunc D T K R) (i : Channel) (opposite : List (T × D)) (e : T × D) :
    Option (K × (T × D) × Bool) :=
  (func.createKey i e.2).map fun key ↦ (key, (e, OuterJoin.matched (func.pairOf i) opposite e))

/-- The tables have the tuples `now`. -/
def Tables (tbl : Channel → HashTable K ((T × D) × Bool) func.hasher)
    (now : Channel → List (T × D)) : Prop :=
  ∀ i, (tbl i).entries.Perm ((now i).filterMap (item func i (now i.other)))

section Tables

variable {tbl : Channel → HashTable K ((T × D) × Bool) func.hasher} {now : Channel → List (T × D)}
variable {i : Channel} {ts : T} {e : T × D} {key : K}

/-- The rows of a tuple and the items of the other table. -/
theorem perm_filterMap_findAll (h : Tables tbl now) (hnow : ∀ o ∈ now i.other, e.1 = o.1)
    (hkey : func.createKey i e.2 = some key) :
    (((tbl i.other).findAll key).filterMap fun o ↦ func.outputTuple i e.2 o.1.2).Perm
      ((now i.other).filterMap (func.pairOf i e)) := by
  rw [HashTable.findAll_eq, filterMap_filterMap]
  refine ((h i.other).filterMap _).trans (List.Perm.of_eq ?_)
  rw [filterMap_filterMap]
  refine filterMap_congr fun o ho ↦ ?_
  rw [func.pairOf_of_key (hnow o ho) hkey, item]
  cases func.createKey i.other o.2 with
  | none => rfl
  | some key' =>
    simp only [Option.map_some, Option.bind_some]
    split <;> rfl

/-- The flags of the items of the other table. -/
theorem item_snoc (hnow : ∀ o ∈ now i.other, e.1 = o.1) (hkey : func.createKey i e.2 = some key)
    {o : T × D} (ho : o ∈ now i.other) :
    item func i.other (now i ++ [e]) o =
      (item func i.other (now i) o).map (HashTable.changeAt key fun v ↦
        (v.1, v.2 || (func.outputTuple i e.2 v.1.2).isSome)) := by
  rw [item, item]
  cases hother : func.createKey i.other o.2 with
  | none => rfl
  | some key' =>
    have hpair : OuterJoin.matched (func.pairOf i.other) [e] o = (func.pairOf i e o).isSome := by
      rw [OuterJoin.matched, any_cons, any_nil, Bool.or_false, func.pairOf_other]
    rw [OuterJoin.matched_append, hpair, func.pairOf_of_key (hnow o ho) hkey, hother,
      Option.bind_some, Option.map_some, Option.map_some, Option.map_some, HashTable.changeAt]
    dsimp only
    split
    · rfl
    · simp

/-- A tuple is joined. -/
theorem Tables.joinTuple (h : Tables tbl now) (hts : e.1 = ts) (hnow : ∀ j, ∀ o ∈ now j, o.1 = ts) :
    Tables (joinTuple func i tbl e).1 (update now i (now i ++ [e])) ∧
      (Output.rows (JoinOperator.joinTuple func i tbl e).2).Perm
        ((now i.other).filterMap (func.pairOf i e)) := by
  have hnow' : ∀ o ∈ now i.other, e.1 = o.1 := fun o ho ↦ hts.trans (hnow i.other o ho).symm
  rw [JoinOperator.joinTuple]
  split
  case h_1 hkey =>
    have hpair : (now i.other).filterMap (func.pairOf i e) = [] :=
      filterMap_eq_nil_iff.mpr fun o _ ↦ func.pairOf_of_none hkey o
    refine ⟨fun j ↦ ?_, by rw [hpair]; exact List.Perm.refl _⟩
    rcases i.eq_or_eq_other j with rfl | rfl
    · rw [update_self, update_of_ne j.other_ne, filterMap_append]
      have hitem : [e].filterMap (item func j (now j.other)) = [] := by
        simp [item, hkey]
      rw [hitem, append_nil]
      exact h j
    · rw [update_of_ne i.other_ne, Channel.other_other, update_self]
      refine (h i.other).trans (List.Perm.of_eq (filterMap_congr fun o _ ↦ ?_))
      have hmatched : OuterJoin.matched (func.pairOf i.other) [e] o = false :=
        OuterJoin.matched_eq_false fun e' he' ↦ by
          rw [mem_singleton.mp he', func.pairOf_other, func.pairOf_of_none hkey]
      rw [Channel.other_other, item, item, OuterJoin.matched_append, hmatched, Bool.or_false]
  case h_2 key hkey =>
    have hrows := perm_filterMap_findAll h hnow' hkey
    refine ⟨fun j ↦ ?_, by rw [Output.rows_map_row]; exact hrows⟩
    dsimp only
    rcases i.eq_or_eq_other j with rfl | rfl
    · rw [update_of_ne j.other_ne.symm, update_self, update_self,
        update_of_ne j.other_ne, filterMap_append]
      refine (HashTable.entries_insert _ _ _).trans ?_
      have hitem : [e].filterMap (item func j (now j.other)) =
          [(key, (e, OuterJoin.matched (func.pairOf j) (now j.other) e))] := by
        simp [item, hkey]
      rw [hitem, OuterJoin.matched_eq_not_isEmpty, ← hrows.isEmpty_eq]
      refine ((h j).cons _).trans ?_
      exact (perm_append_singleton _ _).symm
    · rw [update_self, Channel.other_other, update_self,
        update_of_ne i.other_ne, HashTable.entries_modifyAll]
      refine ((h i.other).map _).trans (List.Perm.of_eq ?_)
      rw [Channel.other_other, map_filterMap]
      exact filterMap_congr fun o ho ↦ (item_snoc hnow' hkey ho).symm

/-- Some tuples of a channel are joined. -/
theorem Tables.run_joinTuple (h : Tables tbl now) (hnow : ∀ j, ∀ o ∈ now j, o.1 = ts)
    {es : List (T × D)} (hes : ∀ e ∈ es, e.1 = ts) :
    Tables (Transducer.run (JoinOperator.joinTuple func i) tbl es).1
      (update now i (now i ++ es)) ∧
        (func.pairsOf now ++ Output.rows
          (Transducer.run (JoinOperator.joinTuple func i) tbl es).2).Perm
        (func.pairsOf (update now i (now i ++ es))) := by
  induction es using reverseRecOn with
  | nil =>
    rw [append_nil, update_eq_self]
    exact ⟨h, by simp⟩
  | append_singleton es e ih =>
    obtain ⟨htables, hrows⟩ := ih fun e' he' ↦ hes e' (mem_append_left _ he')
    have he : e.1 = ts := hes e (by simp)
    have hnow' : ∀ j, ∀ o ∈ update now i (now i ++ es) j, o.1 = ts := by
      intro j o ho
      by_cases hj : j = i
      · subst hj
        rw [update_self] at ho
        rcases mem_append.mp ho with ho | ho
        · exact hnow j o ho
        · exact hes o (mem_append_left _ ho)
      · rw [update_of_ne hj] at ho
        exact hnow j o ho
    obtain ⟨htables', hrows'⟩ := htables.joinTuple (i := i) he hnow'
    have hupdate : update (update now i (now i ++ es)) i
        (update now i (now i ++ es) i ++ [e]) = update now i
        (now i ++ (es ++ [e])) := by
      rw [update_self, update_idem, append_assoc]
    have hsnoc := func.pairsOf_snoc (update now i (now i ++ es)) i e
    rw [hupdate] at htables' hsnoc
    rw [Transducer.run_snoc]
    refine ⟨htables', ?_⟩
    rw [Output.rows_append, ← append_assoc]
    exact (hrows.append hrows').trans hsnoc.symm

/-- The rows of the tuples in the tables that match nothing. -/
theorem perm_paddedRows {op : JoinOperator func} (h : Tables op.joinTbl now) (i : Channel) :
    (Output.rows (op.paddedRows i)).Perm (func.padsAt now i) := by
  rw [paddedRows, JoinFunc.padsAt, OuterJoin.pads]
  split
  case isTrue hpad =>
    rw [Output.rows_map_row]
    refine ((h i).filterMap _).trans (List.Perm.of_eq ?_)
    rw [filterMap_filterMap]
    refine filterMap_congr fun e _ ↦ ?_
    rw [item, JoinFunc.padOf, if_pos hpad]
    cases func.createKey i e.2 <;> simp
  case isFalse hpad =>
    have hnil : ((now i).filterMap fun a ↦
        if OuterJoin.matched (func.pairOf i) (now i.other) a = true then none else func.padOf i a) =
          [] := by
      refine filterMap_eq_nil_iff.mpr fun e _ ↦ ?_
      rw [JoinFunc.padOf, if_neg hpad, ite_self]
    rw [hnil]
    exact List.Perm.refl _

end Tables

/-! ## The invariant -/

/-- The timestamp `ts` has its turn: the join of the earlier tuples is out, and the pairs of those
in the tables. -/
structure Running (ts : T) (op : JoinOperator func) (outs : List (Output R))
    (closed now : Channel → List (T × D)) : Prop where
  curr : op.currTs = some ts
  /-- The tuples of earlier turns, those of this turn, and those that wait. -/
  closed_lt : ∀ i, ∀ e ∈ closed i, e.1 < ts
  now_eq : ∀ i, ∀ e ∈ now i, e.1 = ts
  queue_le : ∀ i, ∀ e ∈ op.inputQueue i, ts ≤ e.1
  sorted : ∀ i, (op.inputQueue i).Pairwise fun e o ↦ e.1 ≤ o.1
  /-- Both channels were heard. -/
  max : ∀ i, ∃ m, op.maxInputTs i = some m ∧ ts ≤ m ∧ ∀ e ∈ op.inputQueue i, e.1 ≤ m
  tables : Tables op.joinTbl now
  /-- The tuples of this turn that match nothing are padded when it ends. -/
  rows : (Output.rows outs).Perm (func.joinOf closed ++ func.pairsOf now)

section Running

variable {op : JoinOperator func} {outs : List (Output R)}
  {closed now : Channel → List (T × D)} {ts : T}

/-- The tuples at the head of a sorted queue that have the first timestamp. -/
theorem lt_of_mem_dropWhile {queue : List (T × D)} (hle : ∀ e ∈ queue, ts ≤ e.1)
    (hsorted : queue.Pairwise fun e o ↦ e.1 ≤ o.1) :
    ∀ e ∈ queue.dropWhile (fun e ↦ e.1 = ts), ts < e.1 := by
  induction queue with
  | nil =>
    intro e he
    cases he
  | cons o queue ih =>
    rw [pairwise_cons] at hsorted
    rw [dropWhile_cons]
    split
    case isTrue => exact ih (fun e he ↦ hle e (mem_cons_of_mem o he)) hsorted.2
    case isFalse hne =>
      have hlt : ts < o.1 := lt_of_le_of_ne (hle o mem_cons_self) fun h ↦ hne (by simp [h])
      intro e he
      rcases mem_cons.mp he with rfl | he
      · exact hlt
      · exact hlt.trans_le (hsorted.1 e he)

/-- The tuples of a queue that have their turn are joined. -/
theorem Running.processQueue (h : Running ts op outs closed now) (i : Channel) :
    Running ts (op.processQueue i ts).1 (outs ++ (op.processQueue i ts).2) closed
      (update now i (now i ++ (op.inputQueue i).takeWhile fun e ↦ e.1 = ts)) := by
  have htake : ∀ e ∈ (op.inputQueue i).takeWhile (fun e ↦ e.1 = ts), e.1 = ts := by
    intro e he
    simpa using mem_takeWhile_imp he
  obtain ⟨htables, hrows⟩ := h.tables.run_joinTuple (i := i) h.now_eq htake
  have hdrop : ∀ j, (update op.inputQueue i
      ((op.inputQueue i).dropWhile fun e ↦ e.1 = ts) j).Sublist (op.inputQueue j) := by
    intro j
    by_cases hj : j = i
    · subst hj
      rw [update_self]
      exact dropWhile_sublist _
    · rw [update_of_ne hj]
  refine ⟨h.curr, h.closed_lt, fun j e he ↦ ?_, fun j e he ↦ h.queue_le j e ((hdrop j).subset he),
    fun j ↦ (h.sorted j).sublist (hdrop j), fun j ↦ ?_, htables, ?_⟩
  · by_cases hj : j = i
    · subst hj
      rw [update_self] at he
      rcases mem_append.mp he with he | he
      · exact h.now_eq j e he
      · exact htake e he
    · rw [update_of_ne hj] at he
      exact h.now_eq j e he
  · obtain ⟨m, hm, hle, hqueue⟩ := h.max j
    exact ⟨m, hm, hle, fun e he ↦ hqueue e ((hdrop j).subset he)⟩
  · rw [Output.rows_append]
    refine (h.rows.append_right _).trans ?_
    rw [append_assoc]
    exact hrows.append_left _

/-- All tuples that have their turn are joined. -/
theorem Running.processJoin (h : Running ts op outs closed now) :
    ∃ now', Running ts op.processJoin.1 (outs ++ op.processJoin.2) closed now' ∧
      (∀ i, now' i ++ op.processJoin.1.inputQueue i = now i ++ op.inputQueue i) ∧
      (∀ i, ∀ e ∈ op.processJoin.1.inputQueue i, ts < e.1) ∧
      op.processJoin.1.maxInputTs = op.maxInputTs := by
  have heq : op.processJoin = (((op.processQueue .left ts).1.processQueue .right ts).1,
      (op.processQueue .left ts).2 ++ ((op.processQueue .left ts).1.processQueue .right ts).2) := by
    rw [JoinOperator.processJoin, h.curr]
  have hqueue : ∀ i, op.processJoin.1.inputQueue i = (op.inputQueue i).dropWhile fun e ↦
    e.1 = ts := by
    intro i
    rw [heq]
    cases i <;> rfl
  have hrun := (h.processQueue .left).processQueue .right
  refine ⟨_, by rw [heq, ← append_assoc]; exact hrun, fun i ↦ ?_, fun i ↦ ?_, by rw [heq]; rfl⟩
  · rw [hqueue]
    cases i with
    | left =>
      rw [update_of_ne (by decide), update_self, append_assoc,
        takeWhile_append_dropWhile]
    | right =>
      rw [update_self, update_of_ne (by decide), append_assoc]
      exact congrArg _ takeWhile_append_dropWhile
  · rw [hqueue]
    exact lt_of_mem_dropWhile (h.queue_le i) (h.sorted i)

/-- The timestamp that a channel is at. -/
theorem exists_queueTs {i : Channel} {m : T} (hm : op.maxInputTs i = some m)
    (hsorted : (op.inputQueue i).Pairwise fun e o ↦ e.1 ≤ o.1)
    (hmax : ∀ e ∈ op.inputQueue i, e.1 ≤ m) :
    ∃ x, op.queueTs i = some x ∧ x ≤ m ∧ (x = m ∨ ∃ e ∈ op.inputQueue i, e.1 = x) ∧
      ∀ e ∈ op.inputQueue i, x ≤ e.1 := by
  rw [queueTs, hm, Option.map_some]
  cases hq : op.inputQueue i with
  | nil =>
    refine ⟨m, rfl, le_rfl, .inl rfl, fun e he ↦ ?_⟩
    cases he
  | cons o queue =>
    rw [hq] at hmax hsorted
    rw [pairwise_cons] at hsorted
    refine ⟨o.1, rfl, hmax o mem_cons_self, .inr ⟨o, mem_cons_self, rfl⟩, fun e he ↦ ?_⟩
    rcases mem_cons.mp he with rfl | he
    · exact le_rfl
    · exact hsorted.1 e he

theorem Running.exists_queueTs (h : Running ts op outs closed now) (i : Channel) :
    ∃ x m, op.queueTs i = some x ∧ op.maxInputTs i = some m ∧ ts ≤ x ∧ x ≤ m ∧
      ∀ e ∈ op.inputQueue i, x ≤ e.1 := by
  obtain ⟨m, hm, hle, hqueue⟩ := h.max i
  obtain ⟨x, hx, hxm, hcases, hxq⟩ := JoinOperator.exists_queueTs hm (h.sorted i) hqueue
  refine ⟨x, m, hx, hm, ?_, hxm, hxq⟩
  rcases hcases with rfl | ⟨e, he, rfl⟩
  · exact hle
  · exact h.queue_le i e he

/-- The channel that is behind. -/
theorem queueTs_minq {x y : T} (hleft : op.queueTs .left = some x)
    (hright : op.queueTs .right = some y) : op.queueTs op.minq = some (min x y) := by
  rw [minq, hleft, hright]
  dsimp only
  split
  case isTrue hlt => rw [hright, min_eq_right hlt.le]
  case isFalse hge => rw [hleft, min_eq_left (le_of_not_gt hge)]

/-- What is put out until the tables are cleared. -/
theorem Running.rows_processOuterJoin (h : Running ts op outs closed now) :
    (Output.rows (outs ++ op.processOuterJoin.2)).Perm (func.joinOf fun i ↦ closed i ++ now i) := by
  have hne : ∀ i j, ∀ e ∈ closed i, ∀ o ∈ now j, e.1 ≠ o.1 := by
    intro i j e he o ho
    rw [h.now_eq j o ho]
    exact (h.closed_lt i e he).ne
  refine List.Perm.trans ?_ (func.joinOf_append hne).symm
  rw [func.joinOf_eq now, func.padsOf_eq, ← append_assoc, ← append_assoc,
    Output.rows_append, processOuterJoin, Output.rows_append, ← append_assoc]
  exact (h.rows.append (perm_paddedRows h.tables .left)).append (perm_paddedRows h.tables .right)

/-- The next timestamp has its turn. -/
theorem Running.processOuterJoin (h : Running ts op outs closed now) {ts' : T} (hlt : ts < ts')
    (hts' : ∀ i, ∃ x, op.queueTs i = some x ∧ ts' ≤ x) :
    Running ts' { op.processOuterJoin.1 with currTs := some ts' } (outs ++ op.processOuterJoin.2)
      (fun i ↦ closed i ++ now i) fun _ ↦ [] := by
  have hqueue : ∀ i, ∃ m, op.maxInputTs i = some m ∧ ts' ≤ m ∧ ∀ e ∈ op.inputQueue i,
    ts' ≤ e.1 := by
    intro i
    obtain ⟨x, m, hx, hm, -, hxm, hle⟩ := h.exists_queueTs i
    obtain ⟨x', hx', hle'⟩ := hts' i
    obtain rfl := Option.some_inj.mp (hx.symm.trans hx')
    exact ⟨m, hm, hle'.trans hxm, fun e he ↦ hle'.trans (hle e he)⟩
  refine ⟨rfl, fun i e he ↦ ?_, fun i e he ↦ (by cases he), fun i e he ↦ ?_, h.sorted, fun i ↦ ?_,
    fun i ↦ List.Perm.refl _, ?_⟩
  · rcases mem_append.mp he with he | he
    · exact (h.closed_lt i e he).trans hlt
    · rw [h.now_eq i e he]
      exact hlt
  · obtain ⟨m, -, -, hle⟩ := hqueue i
    exact hle e he
  · obtain ⟨m, hm, hle, -⟩ := hqueue i
    obtain ⟨m', hm', -, hle'⟩ := h.max i
    obtain rfl := Option.some_inj.mp (hm.symm.trans hm')
    exact ⟨m, hm, hle, hle'⟩
  · refine h.rows_processOuterJoin.trans ?_
    rw [JoinFunc.pairsOf, OuterJoin.pairs_nil_left, append_nil]

/-- The next timestamp has its turn if both channels are behind the current one. -/
theorem Running.advance (h : Running ts op outs closed now) :
    ∃ ts' closed' now', Running ts' op.advance.1 (outs ++ op.advance.2) closed' now' ∧
      (∀ i, closed' i ++ now' i = closed i ++ now i) ∧
      op.advance.1.inputQueue = op.inputQueue ∧ op.advance.1.maxInputTs = op.maxInputTs := by
  rw [JoinOperator.advance]
  split
  case isTrue hpast =>
    obtain ⟨x, -, hx, -⟩ := h.exists_queueTs .left
    obtain ⟨y, -, hy, -⟩ := h.exists_queueTs .right
    have hpast' : ts < x ∧ ts < y := by
      simpa [isPast, hx, hy, h.curr] using hpast
    rw [queueTs_minq hx hy]
    refine ⟨min x y, _, _, h.processOuterJoin (lt_min hpast'.1 hpast'.2) fun i ↦ ?_,
      fun i ↦ ?_, rfl, rfl⟩
    · cases i with
      | left => exact ⟨x, hx, min_le_left x y⟩
      | right => exact ⟨y, hy, min_le_right x y⟩
    · exact append_nil _
  case isFalse =>
    rw [append_nil]
    exact ⟨ts, closed, now, h, fun _ ↦ rfl, rfl, rfl⟩

variable {x : Channel × D}

/-- The queues after a tuple was taken in. -/
theorem inputQueue_enqueue (op : JoinOperator func) (hts : func.loadTs x.1 x.2 = some ts)
    (j : Channel) :
    (op.enqueue x.1 ts x.2).inputQueue j = op.inputQueue j ++ (func.admitted j x).toList := by
  rw [enqueue, JoinFunc.admitted]
  by_cases hj : x.1 = j
  · subst hj
    by_cases hjoin : func.tempStatusReceived x.1 x.2 = false ∧ func.applyPrefilter x.1 x.2 = true
    · rw [if_pos hjoin, if_pos ⟨rfl, hjoin⟩, hts]
      exact update_self _ _ _
    · rw [if_neg hjoin, if_neg fun h ↦ hjoin h.2]
      exact (append_nil _).symm
  · have hnone : ¬(x.1 = j ∧ func.tempStatusReceived j x.2 = false ∧
      func.applyPrefilter j x.2 = true) :=
      fun h ↦ hj h.1
    rw [if_neg hnone, Option.toList_none, append_nil]
    split
    · exact update_of_ne (Ne.symm hj) _ _
    · rfl

theorem enqueue_frame (op : JoinOperator func) (i : Channel) (ts : T) (tup : D) :
    (op.enqueue i ts tup).maxInputTs = op.maxInputTs ∧ (op.enqueue i ts tup).currTs = op.currTs ∧
      (op.enqueue i ts tup).joinTbl = op.joinTbl := by
  rw [enqueue]
  split
  · exact ⟨rfl, rfl, rfl⟩
  · exact ⟨rfl, rfl, rfl⟩

theorem noteMax_frame (op : JoinOperator func) (i : Channel) (ts : T) (tup : D) :
    (op.noteMax i ts tup).maxInputTs = update op.maxInputTs i (some ts) ∧
      (op.noteMax i ts tup).currTs = op.currTs ∧ (op.noteMax i ts tup).joinTbl = op.joinTbl ∧
      (op.noteMax i ts tup).inputQueue = op.inputQueue := by
  rw [noteMax]
  split
  case isTrue h => exact ⟨by rw [← h, update_eq_self], rfl, rfl, rfl⟩
  case isFalse => exact ⟨rfl, rfl, rfl, rfl⟩

/-- A tuple that an admitted one comes from has its timestamp. -/
theorem fst_of_mem_admitted {t : T} (hts : func.loadTs x.1 x.2 = some t) {j : Channel}
    {e : T × D} (he : e ∈ (func.admitted j x).toList) : j = x.1 ∧ e.1 = t := by
  rw [Option.mem_toList, JoinFunc.admitted] at he
  split at he
  case isTrue h =>
    obtain ⟨rfl, -⟩ := h
    rw [hts] at he
    obtain rfl := Option.some_inj.mp he
    exact ⟨rfl, rfl⟩
  case isFalse => cases he

theorem pairwise_append_admitted {queue : List (T × D)}
    (hsorted : queue.Pairwise fun e o ↦ e.1 ≤ o.1) {t : T} (hts : func.loadTs x.1 x.2 = some t)
    {j : Channel}
    (hle : j = x.1 → ∀ e ∈ queue, e.1 ≤ t) :
    (queue ++ (func.admitted j x).toList).Pairwise fun e o ↦ e.1 ≤ o.1 := by
  refine pairwise_append.mpr ⟨hsorted, ?_, fun e he o ho ↦ ?_⟩
  · cases func.admitted j x with
    | none => exact List.Pairwise.nil
    | some e => exact pairwise_singleton _ _
  · obtain ⟨hj, ho'⟩ := fst_of_mem_admitted hts ho
    rw [ho']
    exact hle hj e he

/-- A tuple in order is taken in. -/
theorem Running.takeIn (h : Running ts op outs closed now) {t : T}
    (hts : func.loadTs x.1 x.2 = some t) (hle : ∀ m ∈ op.maxInputTs x.1, m ≤ t) :
    Running ts ((op.noteMax x.1 t x.2).enqueue x.1 t x.2) outs closed now ∧
      ∀ i, ((op.noteMax x.1 t x.2).enqueue x.1 t x.2).inputQueue i =
        op.inputQueue i ++ (func.admitted i x).toList := by
  obtain ⟨hmax, hcurr, htbl, hqueue⟩ := noteMax_frame op x.1 t x.2
  obtain ⟨hmax', hcurr', htbl'⟩ := enqueue_frame (op.noteMax x.1 t x.2) x.1 t x.2
  have hqueue' : ∀ i, ((op.noteMax x.1 t x.2).enqueue x.1 t x.2).inputQueue i =
      op.inputQueue i ++ (func.admitted i x).toList := by
    intro i
    rw [inputQueue_enqueue _ hts, hqueue]
  have hmaxOf : ∀ i, ∃ m m', op.maxInputTs i = some m ∧
      ((op.noteMax x.1 t x.2).enqueue x.1 t x.2).maxInputTs i = some m' ∧ m ≤ m' ∧
      (i = x.1 → m' = t) := by
    intro i
    obtain ⟨m, hm, -⟩ := h.max i
    rw [hmax', hmax]
    by_cases hi : i = x.1
    · subst hi
      exact ⟨m, t, hm, update_self _ _ _, hle m hm, fun _ ↦ rfl⟩
    · exact ⟨m, m, hm, by rw [update_of_ne hi, hm], le_rfl, fun h ↦ absurd h hi⟩
  have htsle : ts ≤ t := by
    obtain ⟨m, hm, hle', -⟩ := h.max x.1
    exact hle'.trans (hle m hm)
  refine ⟨⟨hcurr'.trans (hcurr.trans h.curr), h.closed_lt, h.now_eq, fun i e he ↦ ?_,
    fun i ↦ ?_, fun i ↦ ?_, by rw [htbl', htbl]; exact h.tables, h.rows⟩, hqueue'⟩
  · rw [hqueue'] at he
    rcases mem_append.mp he with he | he
    · exact h.queue_le i e he
    · rw [(fst_of_mem_admitted hts he).2]
      exact htsle
  · rw [hqueue']
    refine pairwise_append_admitted (h.sorted i) hts fun hi e he ↦ ?_
    obtain ⟨m, hm, -, hqm⟩ := h.max i
    subst hi
    exact (hqm e he).trans (hle m hm)
  · obtain ⟨m, hm, hle', hqm⟩ := h.max i
    obtain ⟨m₀, m', hm₀, hm', hmm', hi⟩ := hmaxOf i
    obtain rfl := Option.some_inj.mp (hm.symm.trans hm₀)
    refine ⟨m', hm', hle'.trans hmm', fun e he ↦ ?_⟩
    rw [hqueue'] at he
    rcases mem_append.mp he with he | he
    · exact (hqm e he).trans hmm'
    · obtain ⟨hi', he'⟩ := fst_of_mem_admitted hts he
      rw [he', hi hi']

/-- Not both channels were heard. -/
structure Waiting (op : JoinOperator func) (outs : List (Output R)) : Prop where
  curr : op.currTs = none
  silent : ∃ i, op.maxInputTs i = none
  sorted : ∀ i, (op.inputQueue i).Pairwise fun e o ↦ e.1 ≤ o.1
  max : ∀ i, ∀ e ∈ op.inputQueue i, ∃ m, op.maxInputTs i = some m ∧ e.1 ≤ m
  tables : Tables op.joinTbl fun _ ↦ []
  rows : Output.rows outs = []

/-- What holds between two tuples: `hist` are the tuples that were to be joined. -/
def Books (op : JoinOperator func) (outs : List (Output R))
    (hist : Channel → List (T × D)) : Prop :=
  op.Waiting outs ∧ (∀ i, op.inputQueue i = hist i) ∨
    ∃ ts closed now, Running ts op outs closed now ∧
      (∀ i, closed i ++ now i ++ op.inputQueue i = hist i) ∧ ∀ i, ∀ e ∈ op.inputQueue i, ts < e.1

/-- Tuples that are no rows do not matter. -/
theorem Running.append_of_rows_eq_nil {outs' : List (Output R)} (h : Running ts op outs closed now)
    (hrows : Output.rows outs' = []) : Running ts op (outs ++ outs') closed now := by
  refine ⟨h.curr, h.closed_lt, h.now_eq, h.queue_le, h.sorted, h.max, h.tables, ?_⟩
  rw [Output.rows_append, hrows, append_nil]
  exact h.rows

theorem rows_tempStatus (op : JoinOperator func) (b : Bool) :
    Output.rows (if b then [op.getTempStatus] else []) = [] := by
  cases b <;> rfl

/-- `accept_tuple` from the queues on, when both channels are heard. -/
theorem Running.accept (h : Running ts op outs closed now) {t : T}
    (hts : func.loadTs x.1 x.2 = some t) (hle : ∀ m ∈ op.maxInputTs x.1, m ≤ t)
    {r r' : JoinOperator func × List (Output R)}
    (hr : r = ((op.noteMax x.1 t x.2).enqueue x.1 t x.2).advance) (hr' : r' = r.1.processJoin)
    {b : Bool} :
    r'.1.Books (outs ++ (r.2 ++ r'.2 ++ if b then [r'.1.getTempStatus] else []))
      fun i ↦ closed i ++ now i ++ op.inputQueue i ++ (func.admitted i x).toList := by
  subst hr
  subst hr'
  obtain ⟨h₁, hqueue₁⟩ := h.takeIn hts hle
  obtain ⟨ts₂, closed₂, now₂, h₂, hdone₂, hqueue₂, -⟩ := h₁.advance
  obtain ⟨now₃, h₃, hdone₃, hlt₃, -⟩ := h₂.processJoin
  refine .inr ⟨ts₂, closed₂, now₃, ?_, fun i ↦ ?_, hlt₃⟩
  · rw [← append_assoc, ← append_assoc]
    exact h₃.append_of_rows_eq_nil (rows_tempStatus _ b)
  · rw [append_assoc, hdone₃, ← append_assoc, hdone₂, hqueue₂,
      hqueue₁, ← append_assoc]

/-- `accept_tuple` from the queues on, when the other channel is not heard. -/
theorem Waiting.accept (h : op.Waiting outs) {t : T}
    (hother : op.maxInputTs x.1.other = none) (hts : func.loadTs x.1 x.2 = some t)
    (hle : ∀ m ∈ op.maxInputTs x.1, m ≤ t)
    {r r' : JoinOperator func × List (Output R)}
    (hr : r = ((op.noteMax x.1 t x.2).enqueue x.1 t x.2).advance) (hr' : r' = r.1.processJoin)
    {b : Bool} :
    r'.1.Books (outs ++ (r.2 ++ r'.2 ++ if b then [r'.1.getTempStatus] else []))
      fun i ↦ op.inputQueue i ++ (func.admitted i x).toList := by
  obtain ⟨hmax, hcurr, htbl, hqueue⟩ := noteMax_frame op x.1 t x.2
  obtain ⟨hmax', hcurr', htbl'⟩ := enqueue_frame (op.noteMax x.1 t x.2) x.1 t x.2
  have hqueue' : ∀ i, ((op.noteMax x.1 t x.2).enqueue x.1 t x.2).inputQueue i =
      op.inputQueue i ++ (func.admitted i x).toList := by
    intro i
    rw [inputQueue_enqueue _ hts, hqueue]
  have hcurr'' : ((op.noteMax x.1 t x.2).enqueue x.1 t x.2).currTs = none :=
    hcurr'.trans (hcurr.trans h.curr)
  have hadvance : ((op.noteMax x.1 t x.2).enqueue x.1 t x.2).advance =
      ((op.noteMax x.1 t x.2).enqueue x.1 t x.2, []) := by
    refine if_neg fun hpast ↦ ?_
    have hleft := hpast.1
    rw [isPast, hcurr''] at hleft
    split at hleft
    case h_1 heq => cases heq
    case h_2 => cases hleft
  have hjoin : ((op.noteMax x.1 t x.2).enqueue x.1 t x.2).processJoin =
      ((op.noteMax x.1 t x.2).enqueue x.1 t x.2, []) := by
    rw [JoinOperator.processJoin, hcurr'']
  rw [hadvance] at hr
  subst hr
  rw [hjoin] at hr'
  subst hr'
  refine .inl ⟨⟨hcurr'', ⟨x.1.other, ?_⟩, fun i ↦ ?_, fun i e he ↦ ?_, ?_, ?_⟩, hqueue'⟩
  · rw [hmax', hmax, update_of_ne x.1.other_ne, hother]
  · rw [hqueue']
    refine pairwise_append_admitted (h.sorted i) hts fun hi e he ↦ ?_
    obtain ⟨m, hm, hem⟩ := h.max i e he
    subst hi
    exact hem.trans (hle m hm)
  · rw [hqueue'] at he
    rw [hmax', hmax]
    rcases mem_append.mp he with he | he
    · obtain ⟨m, hm, hem⟩ := h.max i e he
      by_cases hi : i = x.1
      · subst hi
        exact ⟨t, update_self _ _ _, hem.trans (hle m hm)⟩
      · exact ⟨m, by rw [update_of_ne hi, hm], hem⟩
    · obtain ⟨rfl, he'⟩ := fst_of_mem_admitted hts he
      exact ⟨t, update_self _ _ _, he'.le⟩
  · rw [htbl', htbl]
    exact h.tables
  · rw [nil_append, nil_append, Output.rows_append, h.rows, rows_tempStatus]
    rfl

/-- The second channel is heard. -/
theorem Waiting.firstContact (h : op.Waiting outs) {t : T}
    (hts : func.loadTs x.1 x.2 = some t) (hnone : op.maxInputTs x.1 = none)
    (hother : op.maxInputTs x.1.other ≠ none) (hok : op.AcceptOk x) :
    ∃ ts, Running ts (op.firstContact x.1 t) outs (fun _ ↦ []) (fun _ ↦ []) ∧
      (op.firstContact x.1 t).inputQueue = op.inputQueue ∧
      (op.firstContact x.1 t).maxInputTs = update op.maxInputTs x.1 (some t) := by
  obtain ⟨m, hm⟩ := Option.ne_none_iff_exists'.mp hother
  have heq : op.firstContact x.1 t =
      { op.hear x.1 t with currTs := (op.hear x.1 t).maxInputTs (op.hear x.1 t).minq } := by
    rw [JoinOperator.firstContact, hnone, hm]
  -- Both channels have a last timestamp now, and their queues are below it.
  have hmax : ∀ i, ∃ m', (op.hear x.1 t).maxInputTs i = some m' ∧
      ∀ e ∈ (op.hear x.1 t).inputQueue i, e.1 ≤ m' := by
    intro i
    rcases x.1.eq_or_eq_other i with rfl | rfl
    · refine ⟨t, update_self _ _ _, fun e he ↦ ?_⟩
      obtain ⟨m', hm', -⟩ := h.max x.1 e he
      rw [hnone] at hm'
      cases hm'
    · refine ⟨m, (update_of_ne x.1.other_ne _ _).trans hm, fun e he ↦ ?_⟩
      obtain ⟨m', hm', hle⟩ := h.max x.1.other e he
      obtain rfl := Option.some_inj.mp (hm.symm.trans hm')
      exact hle
  have hqueueTs : ∀ i, ∃ y m', (op.hear x.1 t).queueTs i = some y ∧
      (op.hear x.1 t).maxInputTs i = some m' ∧ y ≤ m' ∧ ∀ e ∈ (op.hear x.1 t).inputQueue i,
        y ≤ e.1 := by
    intro i
    obtain ⟨m', hm', hle⟩ := hmax i
    obtain ⟨y, hy, hym, -, hyq⟩ := exists_queueTs hm' (h.sorted i) hle
    exact ⟨y, m', hy, hm', hym, hyq⟩
  obtain ⟨y, m₁, hy, hm₁, hym, hyq⟩ := hqueueTs .left
  obtain ⟨z, m₂, hz, hm₂, hzm, hzq⟩ := hqueueTs .right
  have hcurr : (op.hear x.1 t).maxInputTs (op.hear x.1 t).minq = some (min y z) := by
    rw [← hok t hts hnone hother, queueTs_minq hy hz]
  rw [heq]
  refine ⟨min y z, ⟨hcurr, fun i e he ↦ (by cases he), fun i e he ↦ (by cases he),
    fun i e he ↦ ?_, h.sorted, fun i ↦ ?_, h.tables, ?_⟩, rfl, rfl⟩
  · cases i with
    | left => exact (min_le_left y z).trans (hyq e he)
    | right => exact (min_le_right y z).trans (hzq e he)
  · obtain ⟨m', hm', hle⟩ := hmax i
    refine ⟨m', hm', ?_, hle⟩
    cases i with
    | left =>
      obtain rfl := Option.some_inj.mp (hm'.symm.trans hm₁)
      exact (min_le_left y z).trans hym
    | right =>
      obtain rfl := Option.some_inj.mp (hm'.symm.trans hm₂)
      exact (min_le_right y z).trans hzm
  · rw [h.rows]
    exact List.Perm.refl _

/-! ## Runs -/

theorem maxInputTs_advance (op : JoinOperator func) : op.advance.1.maxInputTs = op.maxInputTs := by
  rw [JoinOperator.advance]
  split <;> rfl

theorem maxInputTs_processJoin (op : JoinOperator func) : op.processJoin.1.maxInputTs =
    op.maxInputTs := by
  rw [JoinOperator.processJoin]
  split <;> rfl

/-- The first timestamp of a channel, or one that is not out of order. -/
theorem maxInputTs_firstContact (op : JoinOperator func) (i : Channel) (t : T) :
    (op.firstContact i t).maxInputTs =
      if op.maxInputTs i = none then update op.maxInputTs i (some t)
        else op.maxInputTs := by
  rw [JoinOperator.firstContact]
  split
  case h_1 h => rw [if_neg (by simp [h])]
  case h_2 h _ => rw [if_pos h]; rfl
  case h_3 h _ => rw [if_pos h]; rfl

/-- A tuple that is not out of order. -/
theorem acceptTuple_eq {t : T} (hts : func.loadTs x.1 x.2 = some t)
    (hle : ∀ m ∈ op.maxInputTs x.1, m ≤ t) :
    (op.acceptTuple x =
      let r := (((op.firstContact x.1 t).noteMax x.1 t x.2).enqueue x.1 t x.2).advance
      let r' := r.1.processJoin
      (r'.1, r.2 ++ r'.2 ++ if func.tempStatusReceived x.1 x.2 then [r'.1.getTempStatus] else [])) ∧
    (∀ m ∈ (op.firstContact x.1 t).maxInputTs x.1, m ≤ t) ∧
    (op.acceptTuple x).1.maxInputTs = update op.maxInputTs x.1 (some t) := by
  have hle' : ∀ m ∈ (op.firstContact x.1 t).maxInputTs x.1, m ≤ t := by
    intro m hm
    rw [maxInputTs_firstContact] at hm
    split at hm
    · rw [update_self] at hm
      exact (Option.some_inj.mp hm).ge
    · exact hle m hm
  have heq : op.acceptTuple x =
      let r := (((op.firstContact x.1 t).noteMax x.1 t x.2).enqueue x.1 t x.2).advance
      let r' := r.1.processJoin
      (r'.1, r.2 ++ r'.2 ++ if func.tempStatusReceived x.1 x.2 then [r'.1.getTempStatus]
        else []) := by
    rw [JoinOperator.acceptTuple, hts]
    exact if_neg fun ⟨m, hm, hlt⟩ ↦ absurd hlt (not_lt.mpr (hle' m hm))
  refine ⟨heq, hle', ?_⟩
  rw [heq]
  dsimp only
  rw [maxInputTs_processJoin, maxInputTs_advance, (enqueue_frame _ _ _ _).1,
    (noteMax_frame _ _ _ _).1, maxInputTs_firstContact]
  split
  · exact update_idem _ _ _
  · rfl

/-- **One tuple.** -/
theorem Books.acceptTuple {hist : Channel → List (T × D)} (h : op.Books outs hist)
    (hok : op.AcceptOk x) (hle : ∀ t ∈ func.loadTs x.1 x.2, ∀ m ∈ op.maxInputTs x.1, m ≤ t) :
    (op.acceptTuple x).1.Books (outs ++ (op.acceptTuple x).2)
      fun i ↦ hist i ++ (func.admitted i x).toList := by
  cases hts : func.loadTs x.1 x.2 with
  | none =>
    have heq : op.acceptTuple x = (op, []) := by
      rw [JoinOperator.acceptTuple, hts]
    have hnone : ∀ i, func.admitted i x = none := by
      intro i
      rw [JoinFunc.admitted]
      split
      case isTrue hx =>
        rw [← hx.1, hts]
        rfl
      case isFalse => rfl
    simpa [heq, hnone] using h
  | some t =>
    obtain ⟨heq, hle', -⟩ := acceptTuple_eq hts (hle t hts)
    rw [heq]
    rcases h with ⟨hwait, hqueue⟩ | ⟨ts, closed, now, hrun, hhist, -⟩
    · by_cases hnone : op.maxInputTs x.1 = none
      · by_cases hother : op.maxInputTs x.1.other = none
        · -- The first tuple of all.
          have hfirst : op.firstContact x.1 t = op.hear x.1 t := by
            rw [JoinOperator.firstContact, hnone, hother]
          have hhear : (op.hear x.1 t).Waiting outs := by
            refine ⟨hwait.curr, ⟨x.1.other, ?_⟩, hwait.sorted, fun i e he ↦ ?_,
              hwait.tables, hwait.rows⟩
            · exact (update_of_ne x.1.other_ne _ _).trans hother
            · obtain ⟨m, hm, -⟩ := hwait.max i e he
              rcases x.1.eq_or_eq_other i with rfl | rfl
              · rw [hnone] at hm
                cases hm
              · rw [hother] at hm
                cases hm
          rw [hfirst] at hle' ⊢
          have hbooks := hhear.accept ((update_of_ne x.1.other_ne _ _).trans hother)
            hts hle' rfl rfl (b := func.tempStatusReceived x.1 x.2)
          have hqueue' : (op.hear x.1 t).inputQueue = op.inputQueue := rfl
          simpa only [hqueue', ← hqueue] using hbooks
        · -- The second channel is heard.
          obtain ⟨ts, hrun, hqueue', -⟩ := hwait.firstContact hts hnone hother hok
          have hbooks := hrun.accept hts hle' rfl rfl (b := func.tempStatusReceived x.1 x.2)
          simpa only [hqueue', ← hqueue, nil_append] using hbooks
      · have hfirst : op.firstContact x.1 t = op := by
          obtain ⟨m, hm⟩ := Option.ne_none_iff_exists'.mp hnone
          rw [JoinOperator.firstContact, hm]
        have hother : op.maxInputTs x.1.other = none := by
          obtain ⟨i, hi⟩ := hwait.silent
          rcases x.1.eq_or_eq_other i with rfl | rfl
          · exact absurd hi hnone
          · exact hi
        rw [hfirst] at hle' ⊢
        have hbooks := hwait.accept hother hts hle' rfl rfl (b := func.tempStatusReceived x.1 x.2)
        simpa only [← hqueue] using hbooks
    · have hfirst : op.firstContact x.1 t = op := by
        obtain ⟨m, hm, -⟩ := hrun.max x.1
        rw [JoinOperator.firstContact, hm]
      rw [hfirst] at hle' ⊢
      have hbooks := hrun.accept hts hle' rfl rfl (b := func.tempStatusReceived x.1 x.2)
      simpa only [← hhist] using hbooks

theorem books_init : (init func).Books [] fun _ ↦ [] := by
  refine .inl ⟨⟨rfl, ⟨.left, rfl⟩, fun i ↦ List.Pairwise.nil, fun i e he ↦ (by cases he),
    fun i ↦ List.Perm.refl _, rfl⟩, fun i ↦ rfl⟩

/-- The timestamps of each channel are in order. -/
def Ordered (func : JoinFunc D T K R) (xs : List (Channel × D)) : Prop :=
  ∀ i, (func.timestamps i xs).Pairwise (· ≤ ·)

theorem timestamps_snoc (func : JoinFunc D T K R) (xs : List (Channel × D)) (x : Channel × D)
    (i : Channel) : func.timestamps i (xs ++ [x]) =
      func.timestamps i xs ++ (if x.1 = i then func.loadTs i x.2 else none).toList := by
  rw [JoinFunc.timestamps, filterMap_append, filterMap_cons, filterMap_nil]
  cases (if x.1 = i then func.loadTs i x.2 else none) <;> rfl

/-- After some tuples, the last timestamp of a channel is the one that the operator knows. -/
theorem books_of_guarded (xs : List (Channel × D)) (hordered : Ordered func xs)
    (hok : Transducer.Guarded acceptTuple AcceptOk (init func) xs) :
    (Transducer.run acceptTuple (init func) xs).1.Books
        (Transducer.run acceptTuple (init func) xs).2 (fun i ↦ xs.filterMap (func.admitted i)) ∧
      ∀ i, (Transducer.run acceptTuple (init func) xs).1.maxInputTs i =
        (func.timestamps i xs).getLast? := by
  induction xs using reverseRecOn with
  | nil => exact ⟨books_init, fun i ↦ rfl⟩
  | append_singleton xs x ih =>
    rw [Transducer.guarded_snoc] at hok
    have hsnoc := timestamps_snoc func xs x
    have hordered' : Ordered func xs := by
      intro i
      have h := hordered i
      rw [hsnoc] at h
      exact (pairwise_append.mp h).1
    obtain ⟨hbooks, hmax⟩ := ih hordered' hok.1
    have hle : ∀ t ∈ func.loadTs x.1 x.2,
        ∀ m ∈ (Transducer.run acceptTuple (init func) xs).1.maxInputTs x.1, m ≤ t := by
      intro t ht m hm
      have h := hordered x.1
      rw [hsnoc, if_pos rfl, Option.mem_def.mp ht] at h
      rw [hmax] at hm
      exact (pairwise_append.mp h).2.2 m (mem_of_mem_getLast? hm) t (by simp)
    rw [Transducer.run_snoc]
    refine ⟨?_, fun i ↦ ?_⟩
    · have hstep := hbooks.acceptTuple hok.2 hle
      have hhist : (fun i ↦ (xs ++ [x]).filterMap (func.admitted i)) =
          fun i ↦ xs.filterMap (func.admitted i) ++ (func.admitted i x).toList := by
        funext i
        rw [filterMap_append, filterMap_cons, filterMap_nil]
        cases func.admitted i x <;> rfl
      rw [hhist]
      exact hstep
    · rw [hsnoc]
      cases hts : func.loadTs x.1 x.2 with
      | none =>
        have heq : (Transducer.run acceptTuple (init func) xs).1.acceptTuple x =
            ((Transducer.run acceptTuple (init func) xs).1, []) := by
          rw [JoinOperator.acceptTuple, hts]
        have hnone : (if x.1 = i then func.loadTs i x.2 else none) = none := by
          split
          case isTrue h => rw [← h, hts]
          case isFalse => rfl
        simpa only [heq, hnone, Option.toList_none, append_nil] using hmax i
      | some t =>
        rw [(acceptTuple_eq hts (hle t hts)).2.2]
        by_cases hi : x.1 = i
        · subst hi
          rw [update_self, if_pos rfl, hts]
          simp
        · rw [update_of_ne (Ne.symm hi), if_neg hi, Option.toList_none, append_nil]
          exact hmax i

/-- Nothing has its turn. -/
theorem processJoin_of_forall_ne (hcurr : op.currTs = some ts)
    (hne : ∀ i, ∀ e ∈ op.inputQueue i, e.1 ≠ ts) : op.processJoin.2 = [] := by
  have htake : ∀ i, (op.inputQueue i).takeWhile (fun e ↦ decide (e.1 = ts)) = [] := by
    intro i
    have h := hne i
    cases hq : op.inputQueue i with
    | nil => rfl
    | cons e queue =>
      rw [hq] at h
      rw [takeWhile_cons, if_neg (by simpa using h e mem_cons_self)]
  have hqueue : ∀ {op' : JoinOperator func} {i}, op'.inputQueue i = op.inputQueue i →
      (op'.processQueue i ts).2 = [] := by
    intro op' i h
    rw [JoinOperator.processQueue, h, htake]
    rfl
  have hright : (op.processQueue .left ts).1.inputQueue .right = op.inputQueue .right := rfl
  rw [JoinOperator.processJoin, hcurr]
  dsimp only
  rw [hqueue rfl, hqueue hright]
  rfl

/-- The tuples of a sorted queue, by timestamp. -/
theorem filter_of_append {queue now rest : List (T × D)} (h : now ++ rest = queue)
    (hnow : ∀ e ∈ now, e.1 = ts) (hrest : ∀ e ∈ rest, ts < e.1) :
    queue.filter (fun e ↦ e.1 = ts) = now ∧ queue.filter (fun e ↦ ts < e.1) = rest := by
  subst h
  have h₁ : now.filter (fun e ↦ decide (e.1 = ts)) = now :=
    filter_eq_self.mpr fun e he ↦ decide_eq_true (hnow e he)
  have h₂ : rest.filter (fun e ↦ decide (e.1 = ts)) = [] :=
    filter_eq_nil_iff.mpr fun e he ↦ by simpa using (hrest e he).ne'
  have h₃ : now.filter (fun e ↦ decide (ts < e.1)) = [] :=
    filter_eq_nil_iff.mpr fun e he ↦ by simpa using (hnow e he).le
  have h₄ : rest.filter (fun e ↦ decide (ts < e.1)) = rest :=
    filter_eq_self.mpr fun e he ↦ decide_eq_true (hrest e he)
  rw [filter_append, filter_append, h₁, h₂, h₃, h₄, append_nil, nil_append]
  exact ⟨rfl, rfl⟩

/-- If nothing is due of the queues but the pairs of the first timestamp, these are all. -/
theorem perm_joinOf_of_append {queue now' rest : Channel → List (T × D)}
    (h : ∀ i, now' i ++ rest i = [] ++ queue i) (hnow : ∀ i, ∀ e ∈ now' i, e.1 = ts)
    (hrest : ∀ i, ∀ e ∈ rest i, ts < e.1)
    (hpads : func.padsOf (fun i ↦ (queue i).filter fun e ↦ e.1 = ts) = [])
    (hlater : func.joinOf (fun i ↦ (queue i).filter fun e ↦ ts < e.1) = []) :
    (func.joinOf queue).Perm (func.pairsOf now') := by
  have hnow' : (fun i ↦ (queue i).filter fun e ↦ decide (e.1 = ts)) = now' :=
    funext fun i ↦ (filter_of_append (h i) (hnow i) (hrest i)).1
  have hrest' : (fun i ↦ (queue i).filter fun e ↦ decide (ts < e.1)) = rest :=
    funext fun i ↦ (filter_of_append (h i) (hnow i) (hrest i)).2
  have hne : ∀ i j, ∀ e ∈ now' i, ∀ o ∈ rest j, e.1 ≠ o.1 := by
    intro i j e he o ho
    rw [hnow i e he]
    exact (hrest j o ho).ne
  have hjoin := func.joinOf_append hne
  rw [← hrest', hlater, append_nil, hrest', func.joinOf_eq now', ← hnow', hpads,
    append_nil, hnow'] at hjoin
  have hqueue : (fun i ↦ now' i ++ rest i) = queue := funext h
  rwa [hqueue] at hjoin

/-- Everything that is due is out after the flush. -/
theorem Books.flush {hist : Channel → List (T × D)} (h : op.Books outs hist) (hok : op.FlushOk) :
    ∃ r, op.flush = some r ∧ (Output.rows (outs ++ r.2)).Perm (func.joinOf hist) := by
  rcases h with ⟨hwait, -⟩ | ⟨ts, closed, now, hrun, hhist, hsettled⟩
  · obtain ⟨i, hi⟩ := hwait.silent
    exact absurd hi (hok.1 i)
  obtain ⟨x, -, hx, -, htsx, -⟩ := hrun.exists_queueTs .left
  obtain ⟨y, -, hy, -, htsy, -⟩ := hrun.exists_queueTs .right
  have hmin := queueTs_minq hx hy
  obtain ⟨hpads, hlater⟩ := hok.2 _ hmin
  rw [JoinOperator.flush, hmin, Option.map_some]
  refine ⟨_, rfl, ?_⟩
  dsimp only
  have hhist' : hist = fun i ↦ (closed i ++ now i) ++ op.inputQueue i :=
    funext fun i ↦ (hhist i).symm
  -- What waits is later than what was joined.
  have hne : ∀ i j, ∀ e ∈ closed i ++ now i, ∀ o ∈ op.inputQueue j, e.1 ≠ o.1 := by
    intro i j e he o ho
    refine (lt_of_le_of_lt ?_ (hsettled j o ho)).ne
    rcases mem_append.mp he with he | he
    · exact (hrun.closed_lt i e he).le
    · exact (hrun.now_eq i e he).le
  have hjoin := func.joinOf_append hne
  rw [← hhist'] at hjoin
  refine List.Perm.trans ?_ hjoin.symm
  rw [← append_assoc]
  rcases (le_min htsx htsy).lt_or_eq with hlt | heq
  · have hqueueTs : ∀ i, ∃ z, op.queueTs i = some z ∧ min x y ≤ z := by
      intro i
      cases i with
      | left => exact ⟨x, hx, min_le_left x y⟩
      | right => exact ⟨y, hy, min_le_right x y⟩
    obtain ⟨now', hrun', hqueue, hrest, -⟩ := (hrun.processOuterJoin hlt hqueueTs).processJoin
    refine hrun'.rows.trans (List.Perm.append_left _ ?_)
    exact (perm_joinOf_of_append hqueue hrun'.now_eq hrest hpads hlater).symm
  · have hnone : ({ op.processOuterJoin.1 with currTs := some (min x y) } :
        JoinOperator func).processJoin.2 = [] := by
      refine processJoin_of_forall_ne rfl fun i e he ↦ ?_
      rw [← heq]
      exact (hsettled i e he).ne'
    have hall : (fun i ↦ (op.inputQueue i).filter fun e ↦ decide (min x y < e.1)) =
      op.inputQueue := by
      funext i
      refine filter_eq_self.mpr fun e he ↦ decide_eq_true ?_
      rw [← heq]
      exact hsettled i e he
    rw [hall] at hlater
    rw [hnone, hlater, append_nil, append_nil]
    exact hrun.rows_processOuterJoin

/-- **The hash join of two streams.**  If the timestamps of each channel are in order, the channel
that is behind when both are heard has one timestamp in its queue, and nothing but pairs of the
first timestamp in the queues is due when the operator is flushed, then the rows put out are those
of the join of the tuples of both channels. -/
theorem rows_of_guarded (xs : List (Channel × D)) (hordered : Ordered func xs)
    (hok : Transducer.Guarded acceptTuple AcceptOk (init func) xs)
    (hflush : (Transducer.run acceptTuple (init func) xs).1.FlushOk) :
    ∃ rows, rowsOf func xs = some rows ∧ rows.Perm (func.reference xs) := by
  obtain ⟨r, hr, hrows⟩ := (books_of_guarded xs hordered hok).1.flush hflush
  exact ⟨_, by rw [rowsOf, hr, Option.map_some], hrows⟩

/-- A tuple is a timestamp and a key, and one without a key is a status tuple.  A row is the two
tuples that it is made of. -/
def timedKeys (joinType : Channel → Bool) : JoinFunc (Nat × Option Nat) Nat Nat
    (Option (Nat × Option Nat) × Option (Nat × Option Nat)) where
  tempStatusReceived := fun _ d ↦ d.2.isNone
  loadTs := fun _ d ↦ some d.1
  applyPrefilter := fun _ _ ↦ true
  createKey := fun _ d ↦ d.2
  createOutputTuple := fun d o ↦ some (some d, some o)
  createPaddedTuple := fun i d ↦
    match i with
    | .left => some (some d, none)
    | .right => some (none, some d)
  createTempStatusTuple := fun d o ↦ (d, o)
  hasher := id
  joinType := joinType

/-- A left outer join.  The right channel is heard late, and one key has no match. -/
theorem rows_timedKeys :
    ∃ rows, rowsOf (timedKeys (· = .left)) [(.left, (1, some 7)), (.left, (1, some 8)),
        (.right, (1, some 7)), (.right, (2, none)), (.left, (2, none))] = some rows ∧
      rows.Perm [(some (1, some 7), some (1, some 7)), (some (1, some 8), none)] := by
  have hordered : Ordered (timedKeys (· = .left)) [(.left, (1, some 7)), (.left, (1, some 8)),
      (.right, (1, some 7)), (.right, (2, none)), (.left, (2, none))] := by
    intro i
    cases i <;> decide
  obtain ⟨rows, hrows, hperm⟩ := rows_of_guarded _ hordered (by decide) (by decide)
  exact ⟨rows, hrows, hperm.trans (by decide)⟩

/-- Left tuples of two timestamps before the first right one, and one of two pairs is lost; a left
tuple at the end that matches nothing is not padded; and a flush with one channel fails. -/
theorem exists_not_rowsOf :
    (rowsOf (timedKeys fun _ ↦ false)
        [(.left, (1, some 7)), (.left, (2, some 7)), (.right, (1, some 7)), (.right, (2, some 7))] =
          some [(some (1, some 7), some (1, some 7))] ∧
      (timedKeys fun _ ↦ false).reference [(.left, (1, some 7)), (.left, (2, some 7)),
        (.right, (1, some 7)), (.right, (2, some 7))] =
          [(some (1, some 7), some (1, some 7)), (some (2, some 7), some (2, some 7))]) ∧
    (rowsOf (timedKeys (· = .left)) [(.left, (1, some 7)), (.right, (1, some 7)),
        (.left, (2, some 7))] = some [(some (1, some 7), some (1, some 7))] ∧
      (timedKeys (· = .left)).reference [(.left, (1, some 7)), (.right, (1, some 7)),
        (.left, (2, some 7))] = [(some (1, some 7), some (1, some 7)), (some (2, some 7), none)]) ∧
    rowsOf (timedKeys fun _ ↦ false) [(.left, (1, some 7))] = none := by
  refine ⟨⟨?_, ?_⟩, ⟨?_, ?_⟩, ?_⟩ <;> decide

end Running

end JoinOperator

end Tigon.Hfta
