import Tigon.Ftaaux.MovingSum
import Tigon.Hfta.Groupby

/-!
# Running aggregates

`running_agg_operator` keeps the groups of a stream from one window to the next.  When the functor
asks for a flush, it puts out the row of each group; the groups that `cleaning_when` selects are
dropped then, and the others are reinitialised.  The functor is generated by
`rsgah_qpn::generate_functor`; what differs from one query to another is a `RunningAggFunc`.

* `flush_spec` — one row for each group, and what is left in the table, which changes under the
  iteration.
* `inv_run` — each aggregate is that of the windows of its group since it was created.
* `exact_iff_palindromic` — with a moving sum, **when all that is put out is exact.**
-/

set_option autoImplicit false

namespace Tigon.Hfta

open Ftaaux

/-! ## The operator -/

/-- How the generated functor reads tuples, aggregates them and writes rows.  The types `S`, `E` and
`A` are those of its variables, of the temporal group-by variables and of the aggregates; `K` is
that of the other group-by variables, which are the only ones that are hashed and compared. -/
structure RunningAggFunc (S D K E A R : Type) where
  initial : S
  /-- The variables change, and the tuple may be of a group. -/
  createGroup : S → D → S × Option (K × E)
  flushNeeded : S → Bool
  tempStatusReceived : S → Bool
  createTempStatusTuple : S → Option R
  createAggregate : D → A
  updateAggregate : D → A → A
  /-- The row of a group that meets the `HAVING` clause. -/
  createOutputTuple : S → K × E → A → Option R
  cleaningWhen : S → K × E → A → Bool
  reinitAggregates : A → A
  lastGb : S → E
  hasher : K → Nat

variable {S D K E A B R : Type}

namespace RunningAggFunc

variable (func : RunningAggFunc S D K E A R)

/-- The row of an item of the table, if it has one. -/
def output (s : S) (e : K × E × A) : Option R := func.createOutputTuple s (e.1, e.2.1) e.2.2

def cleaned (s : S) (e : K × E × A) : Bool := func.cleaningWhen s (e.1, e.2.1) e.2.2

/-- `reinit_aggregates`, which sets the temporal group-by variables as well. -/
def reinit (s : S) (v : E × A) : E × A := (func.lastGb s, func.reinitAggregates v.2)

variable [DecidableEq K]

/-- The loop of `flush`, from `flush_pos` on. -/
def flushLoop (s : S) (fuel : Nat) (flushPos : Option Iterator)
    (t : HashTable K (E × A) func.hasher) (result : List R) :
      HashTable K (E × A) func.hasher × List R :=
  match fuel, flushPos with
  | 0, _ => (t, result)
  | _ + 1, none => (t, result)
  | fuel + 1, some it =>
    match t.deref it with
    | none => (t, result)
    | some e =>
      let result := result ++ (func.output s e).toList
      if func.cleaned s e then
        -- `++flush_pos` comes before the group is erased
        flushLoop s fuel (t.next it) (t.erase (fun k k' ↦ decide (k = k')) e.1) result
      else
        let t := t.modify e.1 (func.reinit s)
        flushLoop s fuel (t.next it) t result

def flush (s : S) (t : HashTable K (E × A) func.hasher) :
    HashTable K (E × A) func.hasher × List R :=
  func.flushLoop s t.size t.begin t []

/-- A tuple of a group: its aggregate is updated if it is in the table, and created otherwise. -/
def aggregate (tup : D) (grp : K × E) (t : HashTable K (E × A) func.hasher) :
    HashTable K (E × A) func.hasher :=
  match t.find grp.1 with
  | some _ => t.modify grp.1 fun v ↦ (v.1, func.updateAggregate tup v.2)
  | none => t.insert grp.1 (grp.2, func.createAggregate tup)

end RunningAggFunc

structure RunningAggOperator (func : RunningAggFunc S D K E A R) where
  /-- The variables of the functor. -/
  state : S
  groupTable : HashTable K (E × A) func.hasher

namespace RunningAggOperator

variable [DecidableEq K] {func : RunningAggFunc S D K E A R}

def new : RunningAggOperator func where
  state := func.initial
  groupTable := HashTable.new

/-- The variables of the functor after `create_group`. -/
def received (op : RunningAggOperator func) (tup : D) : S := (func.createGroup op.state tup).1

/-- The table when the tuple comes, and what is put out before. -/
def flushed (op : RunningAggOperator func) (tup : D) : HashTable K (E × A) func.hasher × List R :=
  if func.flushNeeded (op.received tup) then func.flush (op.received tup) op.groupTable
    else (op.groupTable, [])

def acceptTuple (op : RunningAggOperator func) (tup : D) : RunningAggOperator func ×
    List (Output R) :=
  let s := op.received tup
  let (t, rows) := op.flushed tup
  match (func.createGroup op.state tup).2 with
  | none =>
    ({ state := s, groupTable := t },
      rows.map .row ++
        if func.tempStatusReceived s then (func.createTempStatusTuple s).toList.map
          .tempStatus else [])
  | some grp => ({ state := s, groupTable := func.aggregate tup grp t }, rows.map .row)

/-! ## The windows of a group

The windows of a group are the tuples that it had in each of them since it was created, from the
last one back.  A group that is not there has no windows. -/

variable (op : RunningAggOperator func) (tup : D) (windows : K → List (List D))

/-- A window ends for all groups. -/
def endWindow (k : K) : List (List D) :=
  match op.groupTable.find k with
  | none => []
  | some v => if func.cleaned (op.received tup) (k, v) then [] else [] :: windows k

/-- A tuple in the current window, or in the first one. -/
def addTuple : List (List D) → List (List D)
  | [] => [[tup]]
  | tups :: ws => (tup :: tups) :: ws

/-- What a tuple does to the windows. -/
def nextWindows : K → List (List D) :=
  let ws := if func.flushNeeded (op.received tup) then op.endWindow tup windows else windows
  match (func.createGroup op.state tup).2 with
  | none => ws
  | some grp => Function.update ws grp.1 (addTuple tup (ws grp.1))

/-- The operator and the windows of all groups after some tuples. -/
def trace (func : RunningAggFunc S D K E A R) (tups : List D) : RunningAggOperator func ×
    (K → List (List D)) :=
  tups.foldl (fun p tup ↦ ((p.1.acceptTuple tup).1, p.1.nextWindows tup p.2)) (new, fun _ ↦ [])

def run (func : RunningAggFunc S D K E A R) (tups : List D) : RunningAggOperator func :=
  (trace func tups).1

def windowsOf (func : RunningAggFunc S D K E A R) (tups : List D) : K → List (List D) :=
  (trace func tups).2

end RunningAggOperator

/-! ## Flushing -/

namespace RunningAggFunc

variable (func : RunningAggFunc S D K E A R) {s : S} {t : HashTable K (E × A) func.hasher}

/-- What is left of an item. -/
def keep (s : S) (e : K × E × A) : Option (K × E × A) :=
  if func.cleaned s e then none else some (e.1, func.reinit s e.2)

theorem fst_of_keep {e e' : K × E × A} (h : func.keep s e = some e') : e'.1 = e.1 := by
  rw [keep] at h
  split at h
  · cases h
  · rw [← Option.some_inj.mp h]

theorem nodup_keys_keep {l : List (K × E × A)} (h : (l.map Prod.fst).Nodup) :
    ((l.filterMap (func.keep s)).map Prod.fst).Nodup := by
  refine h.sublist ?_
  induction l with
  | nil => exact List.Sublist.refl _
  | cons e l ih =>
    rw [List.map_cons, List.nodup_cons] at h
    rw [List.filterMap_cons]
    split
    case h_1 => exact (ih h.2).cons _
    case h_2 e' he' =>
      rw [List.map_cons, List.map_cons, func.fst_of_keep he']
      exact (ih h.2).cons_cons _

variable [DecidableEq K]

theorem flushLoop_none (s : S) (fuel : Nat) (t : HashTable K (E × A) func.hasher)
    (result : List R) : func.flushLoop s fuel none t result = (t, result) := by
  cases fuel with
  | zero => rfl
  | succ fuel => rfl

theorem flushLoop_some {it : Iterator} {e : K × E × A} (he : t.deref it = some e)
    (s : S) (fuel : Nat) (result : List R) :
    func.flushLoop s (fuel + 1) (some it) t result =
      if func.cleaned s e then
        func.flushLoop s fuel (t.next it) (t.erase (fun k k' ↦ decide (k = k')) e.1)
          (result ++ (func.output s e).toList)
      else
        func.flushLoop s fuel ((t.modify e.1 (func.reinit s)).next it)
          (t.modify e.1 (func.reinit s)) (result ++ (func.output s e).toList) := by
  rw [flushLoop, he]

/-- **The loop of `flush`** puts out the rows of the items that remain, and leaves those that are
kept. -/
theorem flushLoop_spec (fuel : Nat) {pos : Option Iterator} {a : List (K × E × A)} (result : List R)
    (hkeys : t.keys.Nodup) (hvalid : ∀ it ∈ pos, t.Valid it)
    (hfuel : (t.remaining pos).length ≤ fuel)
    (hentries : t.entries = a ++ t.remaining pos) :
    (func.flushLoop s fuel pos t result).2 = result ++ (t.remaining pos).filterMap (func.output s) ∧
      (func.flushLoop s fuel pos t result).1.entries = a ++ (t.remaining pos).filterMap
      (func.keep s) := by
  induction fuel generalizing pos t a result with
  | zero =>
    have hnil : t.remaining pos = [] := List.length_eq_zero_iff.mp (Nat.le_zero.mp hfuel)
    rw [flushLoop, hentries, hnil]
    simp
  | succ fuel ih =>
    cases pos with
    | none =>
      rw [flushLoop_none, hentries]
      simp [HashTable.remaining]
    | some it =>
      have hit := hvalid it rfl
      obtain ⟨e, he, hremaining⟩ := t.exists_remaining hit
      obtain ⟨x, y, hchain, hrest, hindex⟩ := HashTable.exists_chain hit he
      -- the loop goes on in a table where the item is replaced by what is left of it
      have hnext {t' : HashTable K (E × A) func.hasher}
          (h : t.Replaces t' it.bucket x (func.keep s e).toList y) :
              (func.flushLoop s fuel (t.next it) t' (result ++ (func.output s e).toList)).2 =
                result ++ (t.remaining (some it)).filterMap (func.output s) ∧
            (func.flushLoop s fuel (t.next it) t' (result ++ (func.output s e).toList)).1.entries =
              a ++ (t.remaining (some it)).filterMap (func.keep s) := by
        obtain ⟨b, hb, hb', hsame, hvalid'⟩ := h.iterate hit hchain hrest
        rw [hentries, hremaining] at hb
        obtain rfl := List.append_cancel_right hb
        have hkeys' : t'.keys.Nodup := by
          have hold : t.keys = a.map Prod.fst ++ e.1 :: (t.remaining (t.next it)).map Prod.fst := by
            rw [HashTable.keys, hentries, hremaining, List.map_append, List.map_cons]
          have hnew : t'.keys = a.map Prod.fst ++ (func.keep s e).toList.map Prod.fst ++
              (t.remaining (t.next it)).map Prod.fst := by
            rw [HashTable.keys, hb', List.map_append, List.map_append]
          refine hkeys.sublist ?_
          rw [hold, hnew, List.append_assoc]
          refine List.Sublist.append_left ?_ _
          cases hkeep : func.keep s e with
          | none => exact List.sublist_cons_self _ _
          | some e' =>
            rw [← func.fst_of_keep hkeep]
            exact List.Sublist.refl _
        rw [hremaining, List.length_cons] at hfuel
        obtain ⟨hrows, hleft⟩ := ih (result ++ (func.output s e).toList) hkeys' hvalid'
          (by rw [hsame]; exact Nat.le_of_succ_le_succ hfuel) (by rw [hsame]; exact hb')
        rw [hrows, hleft, hsame, hremaining, List.filterMap_cons, List.filterMap_cons]
        constructor
        · cases func.output s e <;> simp
        · cases func.keep s e <;> simp
      rw [func.flushLoop_some he]
      split
      case isTrue hcleaned =>
        have hkeep : func.keep s e = none := if_pos hcleaned
        refine hnext ?_
        rw [hkeep]
        exact HashTable.replaces_erase hkeys hchain hindex
      case isFalse hcleaned =>
        have hkeep : func.keep s e = some (e.1, func.reinit s e.2) := if_neg hcleaned
        rw [HashTable.next_modify]
        refine hnext ?_
        rw [hkeep]
        exact HashTable.replaces_modify hkeys hchain hindex _

/-- **A flush** puts out the row of each item, in the order of the iteration, and leaves the items
that are kept. -/
theorem flush_spec (hkeys : t.keys.Nodup) :
    (func.flush s t).2 = t.entries.filterMap (func.output s) ∧
      (func.flush s t).1.entries = t.entries.filterMap (func.keep s) := by
  have hbegin : t.remaining t.begin = t.entries := t.remaining_begin
  have h := func.flushLoop_spec (s := s) t.size (a := []) [] hkeys
    (fun it hit ↦ t.valid_begin hit) (by rw [hbegin, t.size_eq]; exact le_rfl)
    (by rw [hbegin, List.nil_append])
  rwa [hbegin, List.nil_append, List.nil_append] at h

theorem nodup_keys_flush (hkeys : t.keys.Nodup) : (func.flush s t).1.keys.Nodup := by
  rw [HashTable.keys, (func.flush_spec hkeys).2]
  exact func.nodup_keys_keep hkeys

/-- What a flush leaves of a group. -/
theorem find_flush (hkeys : t.keys.Nodup) (k : K) :
    (func.flush s t).1.find k =
      (t.find k).bind fun v ↦ if func.cleaned s (k, v) then none else some (func.reinit s v) := by
  refine Option.ext fun v ↦ ?_
  rw [HashTable.find_eq_some_iff _ (func.nodup_keys_flush hkeys), (func.flush_spec hkeys).2,
    List.mem_filterMap, Option.bind_eq_some_iff]
  constructor
  · rintro ⟨e, he, hkeep⟩
    obtain rfl : k = e.1 := func.fst_of_keep hkeep
    refine ⟨e.2, (t.find_eq_some_iff hkeys).mpr he, ?_⟩
    rw [keep] at hkeep
    split at hkeep
    · cases hkeep
    · rename_i hcleaned
      rw [if_neg hcleaned]
      exact congrArg some (Prod.ext_iff.mp (Option.some_inj.mp hkeep)).2
  · rintro ⟨v', hv', hkeep⟩
    refine ⟨(k, v'), t.mem_of_find hv', ?_⟩
    rw [keep]
    split at hkeep
    · cases hkeep
    · rename_i hcleaned
      rw [if_neg hcleaned, ← Option.some_inj.mp hkeep]

/-! ## Aggregation -/

/-- What a tuple makes of the item of its group, if there is one. -/
def aggregated (tup : D) (grp : K × E) : Option (E × A) → E × A
  | none => (grp.2, func.createAggregate tup)
  | some v => (v.1, func.updateAggregate tup v.2)

theorem nodup_keys_aggregate (hkeys : t.keys.Nodup) (tup : D) (grp : K × E) :
    (func.aggregate tup grp t).keys.Nodup := by
  rw [aggregate]
  split
  case h_1 => rwa [HashTable.keys_modify]
  case h_2 hfind => exact t.nodup_keys_insert hkeys (t.find_eq_none.mp hfind) _

theorem find_aggregate (hkeys : t.keys.Nodup) (tup : D) (grp : K × E) (k : K) :
    (func.aggregate tup grp t).find k =
      if k = grp.1 then some (func.aggregated tup grp (t.find k)) else t.find k := by
  rw [aggregate]
  cases hfind : t.find grp.1 with
  | none =>
    refine (t.find_insert hkeys (t.find_eq_none.mp hfind) _ k).trans ?_
    split
    case isTrue hk => rw [hk, hfind, aggregated]
    case isFalse => rfl
  | some v =>
    refine (t.find_modify hkeys grp.1 _ k).trans ?_
    split
    case isTrue hk => rw [hk, hfind, aggregated, Option.map_some]
    case isFalse => rfl

/-- The aggregate of a group that had these windows. -/
inductive Aggregates : A → List (List D) → Prop
  | create (tup : D) : Aggregates (func.createAggregate tup) [[tup]]
  | update {a : A} {tups : List D} {ws : List (List D)} (tup : D) (h : Aggregates a (tups :: ws)) :
      Aggregates (func.updateAggregate tup a) ((tup :: tups) :: ws)
  | reinit {a : A} {ws : List (List D)} (h : Aggregates a ws) :
      Aggregates (func.reinitAggregates a) ([] :: ws)

omit [DecidableEq K] in
theorem Aggregates.ne_nil {a : A} {ws : List (List D)} (h : func.Aggregates a ws) : ws ≠ [] := by
  cases h <;> exact List.cons_ne_nil _ _

end RunningAggFunc

/-! ## Runs -/

namespace RunningAggOperator

variable [DecidableEq K] {func : RunningAggFunc S D K E A R} {op : RunningAggOperator func}
  {windows : K → List (List D)} {tup : D} {tups : List D}

/-- What is in the table for a group, and its windows. -/
def Fits (func : RunningAggFunc S D K E A R) : Option (E × A) → List (List D) → Prop
  | none, ws => ws = []
  | some v, ws => func.Aggregates v.2 ws

/-- No group is twice in the table, and the aggregate of each is that of its windows. -/
structure Inv (op : RunningAggOperator func) (windows : K → List (List D)) : Prop where
  nodup_keys : op.groupTable.keys.Nodup
  fits : ∀ k, Fits func (op.groupTable.find k) (windows k)

theorem inv_new : Inv (new : RunningAggOperator func) fun _ ↦ [] := ⟨List.nodup_nil, fun _ ↦ rfl⟩

/-- A flush ends the window. -/
theorem Inv.flush (h : Inv op windows) (tup : D) (state : S) :
    Inv ⟨state, (func.flush (op.received tup) op.groupTable).1⟩ (op.endWindow tup windows) where
  nodup_keys := func.nodup_keys_flush h.nodup_keys
  fits k := by
    have hfits := h.fits k
    rw [func.find_flush h.nodup_keys, endWindow]
    cases hfind : op.groupTable.find k with
    | none => rfl
    | some v =>
      rw [hfind] at hfits
      simp only [Option.bind_some]
      split
      · rfl
      · exact .reinit hfits

/-- A tuple goes to its group. -/
theorem Inv.aggregate (h : Inv op windows) (tup : D) (grp : K × E) (state : S) :
    Inv ⟨state, func.aggregate tup grp op.groupTable⟩
      (Function.update windows grp.1 (addTuple tup (windows grp.1))) where
  nodup_keys := func.nodup_keys_aggregate h.nodup_keys tup grp
  fits k := by
    rw [func.find_aggregate h.nodup_keys]
    split
    case isTrue hk =>
      subst hk
      have hfits := h.fits grp.1
      rw [Function.update_self]
      cases hfind : op.groupTable.find grp.1 with
      | none =>
        rw [hfind] at hfits
        have hnil : windows grp.1 = [] := hfits
        rw [hnil]
        exact .create tup
      | some v =>
        rw [hfind] at hfits
        obtain ⟨tups, ws, hws⟩ := List.exists_cons_of_ne_nil
          (RunningAggFunc.Aggregates.ne_nil func hfits)
        have hold : func.Aggregates v.2 (windows grp.1) := hfits
        rw [hws] at hold ⊢
        exact .update tup hold
    case isFalse hk =>
      rw [Function.update_of_ne hk]
      exact h.fits k

/-- The table that a tuple meets, and the windows then. -/
theorem Inv.flushed (h : Inv op windows) (tup : D) (state : S) :
    Inv ⟨state, (op.flushed tup).1⟩
      (if func.flushNeeded (op.received tup) then op.endWindow tup windows else windows) := by
  rw [RunningAggOperator.flushed]
  split
  · exact h.flush tup state
  · exact ⟨h.nodup_keys, h.fits⟩

theorem Inv.acceptTuple (h : Inv op windows) (tup : D) :
    Inv (op.acceptTuple tup).1 (op.nextWindows tup windows) := by
  have hflushed := h.flushed tup (op.received tup)
  rw [RunningAggOperator.acceptTuple, nextWindows]
  cases hgrp : (func.createGroup op.state tup).2 with
  | none => exact hflushed
  | some grp => exact hflushed.aggregate tup grp _

/-- **In each run, the aggregates are those of the windows of their groups.** -/
theorem inv_run (func : RunningAggFunc S D K E A R) (tups : List D) : Inv (run func tups)
    (windowsOf func tups) := by
  induction tups using List.reverseRecOn with
  | nil => exact inv_new
  | append_singleton tups tup ih =>
    have hsnoc : trace func (tups ++ [tup]) =
        (((run func tups).acceptTuple tup).1,
          (run func tups).nextWindows tup (windowsOf func tups)) := by
      rw [trace, List.foldl_append]
      rfl
    rw [run, windowsOf, hsnoc]
    exact ih.acceptTuple tup

/-- Rows are put out by flushes. -/
theorem rows_acceptTuple (hkeys : op.groupTable.keys.Nodup) (tup : D) :
    Output.rows (op.acceptTuple tup).2 =
      if func.flushNeeded (op.received tup) then op.groupTable.entries.filterMap
        (func.output (op.received tup))
      else [] := by
  have hstatus (rs : List R) : Output.rows (rs.map Output.tempStatus) = [] := by
    rw [Output.rows, List.filterMap_map, List.filterMap_eq_nil_iff]
    intro r _
    rfl
  have hrows : Output.rows (op.acceptTuple tup).2 = (op.flushed tup).2 := by
    rw [RunningAggOperator.acceptTuple]
    cases hgrp : (func.createGroup op.state tup).2 with
    | none =>
      simp only [Output.rows_append, Output.rows_map_row]
      split
      · rw [hstatus, List.append_nil]
      · exact List.append_nil _
    | some grp => exact Output.rows_map_row _
  rw [hrows, RunningAggOperator.flushed]
  split
  · exact (func.flush_spec hkeys).1
  · rfl

end RunningAggOperator

/-! ## Moving sums -/

namespace RunningAggFunc

/-- The functor of a query with a moving sum over `n` windows, besides its other aggregates.  What a
tuple adds is `operand`. -/
def withMovingSum (func : RunningAggFunc S D K E (MovingSumUdaf × B) R) (n : UInt32)
    (operand : D → Operand) : RunningAggFunc S D K E (MovingSumUdaf × B) R :=
  { func with
    createAggregate := fun tup ↦ ((operand tup).update n MovingSumUdaf.init,
      (func.createAggregate tup).2)
    updateAggregate := fun tup a ↦ ((operand tup).update n a.1, (func.updateAggregate tup a).2)
    reinitAggregates := fun a ↦ (a.1.reinit, (func.reinitAggregates a).2) }

variable {func : RunningAggFunc S D K E (MovingSumUdaf × B) R} {n : UInt32} {operand : D → Operand}

/-- The array of a group has the sums of its windows. -/
theorem sound_of_aggregates (hn : 0 < n) {a : MovingSumUdaf × B} {ws : List (List D)}
    (h : (func.withMovingSum n operand).Aggregates a ws) :
      Sound n a.1 (ws.map (List.map operand)) := by
  induction h with
  | create tup => exact sound_create hn (operand tup)
  | update tup h ih => exact ih.update (operand tup)
  | reinit h ih => exact ih.reinit (mt List.map_eq_nil_iff.mp (Aggregates.ne_nil _ h))

end RunningAggFunc

namespace RunningAggOperator

variable [DecidableEq K] {func : RunningAggFunc S D K E (MovingSumUdaf × B) R} {n : UInt32}
  {operand : D → Operand} {tups : List D}

/-- What the tuples of a group brought, window by window. -/
def operandsOf (func : RunningAggFunc S D K E (MovingSumUdaf × B) R) (n : UInt32)
    (operand : D → Operand) (tups : List D) (k : K) : List (List Operand) :=
  (windowsOf (func.withMovingSum n operand) tups k).map (List.map operand)

/-- When a tuple comes, all groups are there once; a flush puts out a row for each of them, drops
those that are cleaned and reinitialises the others; and what is extracted for the rows is what it
is to be. -/
structure Exact (func : RunningAggFunc S D K E (MovingSumUdaf × B) R) (n : UInt32)
    (operand : D → Operand) (tups : List D) (tup : D) : Prop where
  nodup_keys : (run (func.withMovingSum n operand) tups).groupTable.keys.Nodup
  mem_keys : ∀ k, k ∈ (run (func.withMovingSum n operand) tups).groupTable.keys ↔
    operandsOf func n operand tups k ≠ []
  rows : Output.rows ((run (func.withMovingSum n operand) tups).acceptTuple tup).2 =
    if func.flushNeeded ((run (func.withMovingSum n operand) tups).received tup) then
      (run (func.withMovingSum n operand) tups).groupTable.entries.filterMap
        (func.output ((run (func.withMovingSum n operand) tups).received tup))
    else []
  flush : ∀ s, ((func.withMovingSum n operand).flush s
    (run (func.withMovingSum n operand) tups).groupTable).1.entries =
      (run (func.withMovingSum n operand) tups).groupTable.entries.filterMap fun e ↦
      if func.cleaned s e then none else some (e.1, (func.withMovingSum n operand).reinit s e.2)
  extract : ∀ e ∈ (run (func.withMovingSum n operand) tups).groupTable.entries,
    e.2.2.1.extract = (lastValues n.toNat (operandsOf func n operand tups e.1)).sum
  extractExp : func.flushNeeded ((run (func.withMovingSum n operand) tups).received tup) = true →
    ∀ e ∈ (run (func.withMovingSum n operand) tups).groupTable.entries, ∀ alpha : ℚ,
      e.2.2.1.extractExp alpha =
        ∑ k ∈ Finset.range n.toNat, alpha ^ k *
          ((sumAgo (operandsOf func n operand tups e.1) k).toNat : ℚ)

/-- A tuple makes the operator flush. -/
def Flushes (func : RunningAggFunc S D K E (MovingSumUdaf × B) R) (n : UInt32)
    (operand : D → Operand) (tups : List D) (tup : D) : Prop :=
  func.flushNeeded ((run (func.withMovingSum n operand) tups).received tup) = true

theorem sound_of_mem (hn : 0 < n) {e : K × E × MovingSumUdaf × B}
    (he : e ∈ (run (func.withMovingSum n operand) tups).groupTable.entries) :
    Sound n e.2.2.1 (operandsOf func n operand tups e.1) := by
  have hinv := inv_run (func.withMovingSum n operand) tups
  have hfits := hinv.fits e.1
  rw [(HashTable.find_eq_some_iff _ hinv.nodup_keys).mpr he] at hfits
  exact RunningAggFunc.sound_of_aggregates hn hfits

theorem mem_keys_iff {func : RunningAggFunc S D K E B R} (tups : List D) (k : K) :
    k ∈ (run func tups).groupTable.keys ↔ windowsOf func tups k ≠ [] := by
  have hfits := (inv_run func tups).fits k
  have hnone : (run func tups).groupTable.find k = none ↔ k ∉ (run func tups).groupTable.keys :=
    HashTable.find_eq_none _
  cases hfind : (run func tups).groupTable.find k with
  | none =>
    rw [hfind] at hfits
    exact iff_of_false (hnone.mp hfind) fun h ↦ h hfits
  | some v =>
    rw [hfind] at hfits hnone
    refine iff_of_true ?_ (RunningAggFunc.Aggregates.ne_nil func hfits)
    by_contra hnot
    cases hnone.mpr hnot

/-- **All that is put out is exact, in a run in which the windows of each group are the same back
and forth at every flush, and in no other.** -/
theorem exact_iff_palindromic (func : RunningAggFunc S D K E (MovingSumUdaf × B) R)
    {n : UInt32} (hn : 0 < n) (operand : D → Operand) (tups : List D) :
    (∀ pre tup, pre ++ [tup] <+: tups → Exact func n operand pre tup) ↔
      ∀ pre tup, pre ++ [tup] <+: tups → Flushes func n operand pre tup →
        ∀ k, Palindromic n.toNat (operandsOf func n operand pre k) := by
  refine forall₃_congr fun pre tup _ ↦ ⟨fun h hflush k ↦ ?_, fun h ↦ ?_⟩
  · by_cases hk : k ∈ (run (func.withMovingSum n operand) pre).groupTable.keys
    · obtain ⟨v, hv⟩ := (HashTable.mem_keys _).mp hk
      exact (extractExp_movingSum_iff (sound_of_mem hn hv)).mp (h.extractExp hflush _ hv)
    · have hnil : operandsOf func n operand pre k = [] := by
        by_contra hne
        exact hk ((h.mem_keys k).mpr hne)
      rw [hnil]
      intro i _
      rfl
  · have hkeys := (inv_run (func.withMovingSum n operand) pre).nodup_keys
    exact {
      nodup_keys := hkeys
      mem_keys := fun k ↦ (mem_keys_iff pre k).trans (not_congr List.map_eq_nil_iff.symm)
      rows := rows_acceptTuple hkeys tup
      flush := fun s ↦ (RunningAggFunc.flush_spec _ hkeys).2
      extract := fun e he ↦ extract_movingSum (sound_of_mem hn he)
      extractExp := fun hflush e he ↦ (extractExp_movingSum_iff (sound_of_mem hn he)).mpr
        (h hflush e.1) }

/-- A query with one group, in which a tuple without a value ends the window. -/
def oneGroup : RunningAggFunc Bool (Option UInt32) Unit Unit (MovingSumUdaf × Unit) UInt32 where
  initial := false
  createGroup _ tup := (tup.isNone, tup.map fun _ ↦ ((), ()))
  flushNeeded s := s
  tempStatusReceived s := s
  createTempStatusTuple _ := some 0
  createAggregate _ := (MovingSumUdaf.init, ())
  updateAggregate _ a := a
  createOutputTuple _ _ a := some a.1.extract
  cleaningWhen _ _ a := a.1.extract == 0
  reinitAggregates a := a
  lastGb _ := ()
  hasher _ := 0

/-- The value of a tuple of it. -/
def oneGroupOperand (tup : Option UInt32) : Operand := .value (tup.getD 0)

/-- Two windows with the same sum. -/
theorem exact_oneGroup : (0 : UInt32) < 2 ∧ ∀ pre tup,
    pre ++ [tup] <+: [some 1, none, some 1, none] → Exact oneGroup 2 oneGroupOperand pre tup := by
  refine ⟨by decide, (exact_iff_palindromic oneGroup (by decide) oneGroupOperand
    [some 1, none, some 1, none]).mpr fun pre tup hpre hflush k ↦ ?_⟩
  have hall : ∀ l ∈ [some 1, none, some 1, none].inits, l.getLast?.join = none →
      Palindromic 2 (operandsOf oneGroup 2 oneGroupOperand l.dropLast ()) := by
    decide +kernel
  have htup : tup = none := Option.isNone_iff_eq_none.mp hflush
  have h := hall (pre ++ [tup]) ((List.mem_inits _ _).mpr hpre)
  rw [List.getLast?_concat, List.dropLast_concat] at h
  exact h htup

/-- One after another: at the second flush, the first window is weighed as the last one. -/
theorem not_exact_oneGroup : ¬ ∀ tups tup, Exact oneGroup 2 oneGroupOperand tups tup := by
  intro h
  have hmem : ((), (), (⟨2, 1, some [1, 3]⟩ : MovingSumUdaf), ()) ∈
      (run (oneGroup.withMovingSum 2 oneGroupOperand)
        [some 1, none, some 3]).groupTable.entries := by
    decide +kernel
  exact absurd ((h [some 1, none, some 3] none).extractExp rfl _ hmem (1 / 2)) (by decide +kernel)

end RunningAggOperator

end Tigon.Hfta
