import Tigon.Lib.CircularSums

/-!
# Moving sums

`moving_sum_udaf` is a running aggregate: it keeps the sums of the last `N` windows of a group in an
array, which is used as a circle.  `REINIT` moves on to the next cell and clears it.  An LFTA can
add up some values of a window first; then its partial result carries `N` in the high half and the
sum in the low half.

* `extract_movingSum` — `moving_sum_extract` gives the sum over the last `N` windows.
* `extractExp_movingSum_iff` — **when `moving_sum_extract_exp` weighs each window by its age.**  It
  goes through the windows from the last one back, and adds the cells in the order of the array.
-/

set_option autoImplicit false

namespace Tigon.Ftaaux

open CircularSums Finset

/-! ## The aggregate in an HFTA -/

/-- `moving_sum_udaf_str`.  The array is `none` where the pointer is null. -/
structure MovingSumUdaf where
  n : UInt32
  pos : UInt32
  sums : Option (List UInt32)
deriving DecidableEq, Repr

namespace MovingSumUdaf

variable (u : MovingSumUdaf)

/-- What is in a cell. -/
def sumAt (i : Nat) : UInt32 := (u.sums.getD []).getD i 0

/-- `moving_sum_udaf_HFTA_AGGR_INIT_` -/
def init : MovingSumUdaf where
  n := 0
  pos := 0
  sums := none

/-- The array is made when the first value comes. -/
def allocate (n : UInt32) : MovingSumUdaf :=
  match u.sums with
  | none => { u with n := n, sums := some (List.replicate n.toNat 0) }
  | some _ => u

/-- `u->sums[u->pos] += s` -/
def addSum (s : UInt32) : MovingSumUdaf :=
  { u with sums := u.sums.map fun sums ↦ sums.modify u.pos.toNat (· + s) }

/-- `moving_sum_udaf_HFTA_AGGR_UPDATE_` -/
def update (s n : UInt32) : MovingSumUdaf := (u.allocate n).addSum s

/-- `super_moving_sum_udaf_HFTA_AGGR_UPDATE_` -/
def superUpdate (subSum : UInt64) : MovingSumUdaf :=
  (u.allocate ((subSum &&& 0xffffffff00000000) >>> 32).toUInt32).addSum
    (subSum &&& 0xffffffff).toUInt32

/-- `moving_sum_udaf_HFTA_AGGR_REINIT_` -/
def reinit : MovingSumUdaf :=
  let pos := if u.n ≤ u.pos + 1 then 0 else u.pos + 1
  { u with pos := pos, sums := u.sums.map fun sums ↦ sums.set pos.toNat 0 }

/-- `moving_sum_extract` -/
def extract : UInt32 := (List.range u.n.toNat).foldl (fun s i ↦ s + u.sumAt i) 0

/-- The variables of the loop of `moving_sum_extract_exp`. -/
structure ExtractExp where
  s : ℚ
  m : ℚ
  p : UInt32

/-- One round of the loop.  It is `i`, and not `p`, that the cell is taken at. -/
def extractExpStep (alpha : ℚ) (l : ExtractExp) (i : Nat) : ExtractExp where
  s := l.s + (u.sumAt i).toNat * l.m
  m := l.m * alpha
  p := if l.p = 0 then u.n - 1 else l.p - 1

/-- `moving_sum_extract_exp` -/
def extractExp (alpha : ℚ) : ℚ :=
  ((List.range u.n.toNat).foldl (u.extractExpStep alpha) { s := 0, m := 1, p := u.pos }).s

end MovingSumUdaf

/-! ## The aggregate in an LFTA -/

/-- `moving_sum_lfta_struct` -/
structure MovingSumLfta where
  sum : UInt32
  n : UInt32
deriving DecidableEq, Repr

namespace MovingSumLfta

/-- `moving_sum_lfta_LFTA_AGGR_INIT_` -/
def init : MovingSumLfta where
  sum := 0
  n := 0

/-- `moving_sum_lfta_LFTA_AGGR_UPDATE_` -/
def update (s : MovingSumLfta) (v n : UInt32) : MovingSumLfta where
  sum := s.sum + v
  n := n

/-- `moving_sum_lfta_LFTA_AGGR_OUTPUT_` -/
def output (s : MovingSumLfta) : UInt64 := s.n.toUInt64 <<< 32 ||| s.sum.toUInt64

end MovingSumLfta

/-! ## What a tuple brings -/

/-- A value of the stream, or what an LFTA made of some of them. -/
inductive Operand
  | value (s : UInt32)
  | partialSum (v : UInt32) (vs : List UInt32)
deriving DecidableEq, Repr

namespace Operand

/-- The values of the stream that are in it. -/
def values : Operand → List UInt32
  | value s => [s]
  | partialSum v vs => v :: vs

/-- The partial result of an LFTA. -/
def subSum (n : UInt32) (vs : List UInt32) : UInt64 :=
  (vs.foldl (fun s v ↦ s.update v n) MovingSumLfta.init).output

/-- How the aggregate of a group is updated by a tuple. -/
def update (n : UInt32) (u : MovingSumUdaf) : Operand → MovingSumUdaf
  | value s => u.update s n
  | partialSum v vs => u.superUpdate (subSum n (v :: vs))

end Operand

/-! ## The windows of a group -/

/-- The sum of each window. -/
def totals (windows : List (List Operand)) : List UInt32 :=
  windows.map fun ops ↦ (ops.flatMap Operand.values).sum

/-- The sum of the window that many windows ago, which is zero before the group was there. -/
def sumAgo (windows : List (List Operand)) (k : Nat) : UInt32 := ago (totals windows) k

/-- The values of the last windows of the group. -/
def lastValues (n : Nat) (windows : List (List Operand)) : List UInt32 :=
  (windows.take n).flatMap fun ops ↦ ops.flatMap Operand.values

/-- The last windows are the same back and forth, around the circle. -/
def Palindromic (n : Nat) (windows : List (List Operand)) : Prop :=
  ∀ i < n, sumAgo windows i = sumAgo windows (back n ((windows.length - 1) % n) i)

instance (n : Nat) (windows : List (List Operand)) : Decidable (Palindromic n windows) :=
  inferInstanceAs (Decidable (∀ i < n, _))

/-! ## Partial sums -/

section

variable {n : UInt32} {v s : UInt32} {vs : List UInt32} {l : MovingSumLfta}

theorem toNat_output : l.output.toNat = l.n.toNat <<< 32 + l.sum.toNat := by
  have hn : l.n.toNat <<< 32 < 2 ^ 64 := by
    have := l.n.toNat_lt
    rw [Nat.shiftLeft_eq]
    omega
  have hshift : (l.n.toUInt64 <<< 32).toNat = l.n.toNat <<< 32 := by
    rw [UInt64.toNat_shiftLeft, UInt32.toNat_toUInt64, show (32 : UInt64).toNat % 64 = 32 from rfl]
    exact Nat.mod_eq_of_lt hn
  rw [MovingSumLfta.output, UInt64.toNat_or, hshift, UInt32.toNat_toUInt64,
    Nat.shiftLeft_add_eq_or_of_lt l.sum.toNat_lt]

/-- The low half of a partial result. -/
theorem low_output : (l.output &&& 0xffffffff).toUInt32 = l.sum := by
  refine UInt32.toNat_inj.mp ?_
  have hmod : l.output.toNat &&& 2 ^ 32 - 1 = l.output.toNat % 2 ^ 32 :=
    Nat.and_two_pow_sub_one_eq_mod _ 32
  rw [UInt64.toNat_toUInt32, UInt64.toNat_and]
  have := l.sum.toNat_lt
  rw [show (0xffffffff : UInt64).toNat = 2 ^ 32 - 1 from rfl, hmod, toNat_output, Nat.shiftLeft_eq]
  omega

/-- The high half of a partial result. -/
theorem high_output : ((l.output &&& 0xffffffff00000000) >>> 32).toUInt32 = l.n := by
  refine UInt32.toNat_inj.mp ?_
  have hshift : (l.output.toNat &&& 0xffffffff00000000) >>> 32 = l.output.toNat >>>
    32 % 2 ^ 32 := by
    rw [Nat.shiftRight_and_distrib]
    exact Nat.and_two_pow_sub_one_eq_mod _ 32
  rw [UInt64.toNat_toUInt32, UInt64.toNat_shiftRight, UInt64.toNat_and]
  have hn := l.n.toNat_lt
  have hsum := l.sum.toNat_lt
  change (l.output.toNat &&& 0xffffffff00000000) >>> 32 % 2 ^ 32 = _
  rw [hshift, toNat_output, Nat.shiftLeft_eq, Nat.shiftRight_eq_div_pow]
  omega

theorem foldl_update (n : UInt32) (vs : List UInt32) (l : MovingSumLfta) :
    vs.foldl (fun s v ↦ s.update v n) l = ⟨l.sum + vs.sum, if vs = [] then l.n else n⟩ := by
  induction vs generalizing l with
  | nil => simp
  | cons v vs ih =>
    rw [List.foldl_cons, ih, List.sum_cons, ← add_assoc, if_neg (List.cons_ne_nil v vs)]
    congr 1
    exact ite_self n

theorem subSum_cons (n v : UInt32) (vs : List UInt32) :
    Operand.subSum n (v :: vs) = MovingSumLfta.output ⟨(v :: vs).sum, n⟩ := by
  rw [Operand.subSum, foldl_update, if_neg (List.cons_ne_nil v vs)]
  congr 2
  exact zero_add _

/-- However its values come, a tuple adds their sum. -/
theorem update_eq (n : UInt32) (u : MovingSumUdaf) (op : Operand) :
    op.update n u = (u.allocate n).addSum op.values.sum := by
  cases op with
  | value s =>
    rw [Operand.update, MovingSumUdaf.update, Operand.values, List.sum_singleton]
  | partialSum v vs =>
    rw [Operand.update, MovingSumUdaf.superUpdate, subSum_cons, low_output, high_output]
    rfl

end

/-! ## What is in the array -/

/-- The array has the sums of the last windows. -/
structure Sound (n : UInt32) (u : MovingSumUdaf) (windows : List (List Operand)) : Prop where
  n_eq : u.n = n
  exists_cells : ∃ cells, u.sums = some cells ∧ Holds n.toNat u.pos.toNat cells (totals windows)

section

variable {n : UInt32} {u : MovingSumUdaf} {windows : List (List Operand)} {ops : List Operand}

theorem totals_cons_cons (op : Operand) :
    totals ((op :: ops) :: windows) =
      ((ops.flatMap Operand.values).sum + op.values.sum) :: totals windows := by
  rw [totals, List.map_cons, List.flatMap_cons, List.sum_append, add_comm]
  rfl

/-- A new group. -/
theorem sound_init (hn : 0 < n) : Sound n (MovingSumUdaf.init.allocate n) [[]] where
  n_eq := rfl
  exists_cells := ⟨_, rfl, holds_replicate (UInt32.lt_iff_toNat_lt.mp hn)⟩

theorem Sound.addSum (h : Sound n u (ops :: windows)) (op : Operand) :
    Sound n (u.addSum op.values.sum) ((op :: ops) :: windows) := by
  obtain ⟨cells, hcells, hholds⟩ := h.exists_cells
  refine ⟨h.n_eq, _, congrArg (Option.map _) hcells, ?_⟩
  rw [totals_cons_cons]
  exact hholds.add _

theorem sound_create (hn : 0 < n) (op : Operand) : Sound n (op.update n MovingSumUdaf.init)
    [[op]] := by
  rw [update_eq]
  exact (sound_init hn).addSum op

/-- One more tuple of a group. -/
theorem Sound.update (h : Sound n u (ops :: windows)) (op : Operand) :
    Sound n (op.update n u) ((op :: ops) :: windows) := by
  have hself : u.allocate n = u := by
    obtain ⟨cells, hcells, -⟩ := h.exists_cells
    rw [MovingSumUdaf.allocate, hcells]
  rw [update_eq, hself]
  exact h.addSum op

/-- A window ends, and the group stays. -/
theorem Sound.reinit (h : Sound n u windows) (hne : windows ≠ []) :
    Sound n u.reinit ([] :: windows) := by
  obtain ⟨cells, hcells, hholds⟩ := h.exists_cells
  have hlt : u.pos.toNat < n.toNat := hholds.pos_lt
  have hsucc : (u.pos + 1).toNat = u.pos.toNat + 1 := by
    have := n.toNat_lt
    rw [UInt32.toNat_add, show (1 : UInt32).toNat = 1 from rfl, Nat.mod_eq_of_lt (by omega)]
  have hpos : (if u.n ≤ u.pos + 1 then 0 else u.pos + 1).toNat = next n.toNat u.pos.toNat := by
    rw [next, h.n_eq, apply_ite UInt32.toNat, hsucc]
    refine ite_congr (propext ?_) (fun _ ↦ rfl) fun _ ↦ rfl
    rw [UInt32.le_iff_toNat_le, hsucc]
  have hcons : totals windows ≠ [] := mt List.map_eq_nil_iff.mp hne
  refine ⟨h.n_eq, _, congrArg (Option.map _) hcells, ?_⟩
  have hadvance := hholds.advance hcons
  rw [← hpos] at hadvance
  exact hadvance

/-! ## Extraction -/

theorem foldl_add {M : Type} [AddCommMonoid M] (f : Nat → M) (n : Nat) :
    (List.range n).foldl (fun s i ↦ s + f i) 0 = ∑ i ∈ range n, f i := by
  induction n with
  | zero => rfl
  | succ n ih =>
    rw [List.range_succ, List.foldl_append, ih, sum_range_succ, List.foldl_cons, List.foldl_nil]

theorem sum_take_totals (n : Nat) (windows : List (List Operand)) :
    ((totals windows).take n).sum = (lastValues n windows).sum := by
  rw [totals, ← List.map_take, lastValues]
  induction windows.take n with
  | nil => rfl
  | cons ops ws ih => rw [List.map_cons, List.sum_cons, List.flatMap_cons, List.sum_append, ih]

/-- **What is extracted is the sum over the last windows.** -/
theorem extract_movingSum (h : Sound n u windows) : u.extract =
    (lastValues n.toNat windows).sum := by
  obtain ⟨cells, hcells, hholds⟩ := h.exists_cells
  rw [MovingSumUdaf.extract, h.n_eq, ← sum_take_totals, ← hholds.sum_cells,
    foldl_add u.sumAt n.toNat]
  refine sum_congr rfl fun i _ ↦ ?_
  rw [MovingSumUdaf.sumAt, hcells]
  rfl

/-- The weight of a cell is that of its place in the array. -/
theorem foldl_extractExpStep (u : MovingSumUdaf) (alpha : ℚ) (n : Nat) (p : UInt32) :
    ((List.range n).foldl (u.extractExpStep alpha) { s := 0, m := 1, p := p }).s =
        ∑ i ∈ range n, alpha ^ i * (u.sumAt i).toNat ∧
      ((List.range n).foldl (u.extractExpStep alpha) { s := 0, m := 1, p := p }).m = alpha ^ n := by
  induction n with
  | zero => exact ⟨rfl, (pow_zero alpha).symm⟩
  | succ n ih =>
    rw [List.range_succ, List.foldl_append, sum_range_succ, List.foldl_cons, List.foldl_nil]
    refine ⟨?_, ?_⟩
    · rw [MovingSumUdaf.extractExpStep, ih.1, ih.2, mul_comm]
    · rw [MovingSumUdaf.extractExpStep, ih.2, pow_succ]

/-- Sums with the same weights are equal for all weights only if all their terms are. -/
theorem forall_sum_pow_iff (n : Nat) (a b : Nat → Nat) :
    (∀ alpha : ℚ, ∑ i ∈ range n, alpha ^ i * (a i : ℚ) = ∑ i ∈ range n, alpha ^ i * (b i : ℚ)) ↔
      ∀ i < n, a i = b i := by
  constructor
  · intro h i hi
    have heq : (∑ i ∈ range n, Polynomial.monomial i (a i : ℚ)) = ∑ i ∈ range n,
      Polynomial.monomial i (b i : ℚ) := by
      refine Polynomial.funext fun alpha ↦ ?_
      simp only [Polynomial.eval_finsetSum, Polynomial.eval_monomial, mul_comm _ (alpha ^ _)]
      exact h alpha
    have hcoeff := congrArg (Polynomial.coeff · i) heq
    simp only [Polynomial.finsetSum_coeff, Polynomial.coeff_monomial, sum_ite_eq', mem_range,
      if_pos hi] at hcoeff
    exact_mod_cast hcoeff
  · intro h alpha
    exact sum_congr rfl fun i hi ↦ by rw [h i (mem_range.mp hi)]

/-- **The windows are weighed by their age if they are the same back and forth.** -/
theorem extractExp_movingSum_iff (h : Sound n u windows) :
    (∀ alpha : ℚ, u.extractExp alpha =
        ∑ k ∈ range n.toNat, alpha ^ k * ((sumAgo windows k).toNat : ℚ)) ↔
      Palindromic n.toNat windows := by
  obtain ⟨cells, hcells, hholds⟩ := h.exists_cells
  have hcell : ∀ i < n.toNat,
      u.sumAt i = sumAgo windows (back n.toNat ((windows.length - 1) % n.toNat) i) := by
    intro i hi
    have hpos := hholds.pos_eq
    rw [totals, List.length_map] at hpos
    rw [MovingSumUdaf.sumAt, hcells, ← hpos]
    exact hholds.cell_eq i hi
  have hextract : ∀ alpha : ℚ, u.extractExp alpha = ∑ i ∈ range n.toNat,
    alpha ^ i * ((u.sumAt i).toNat : ℚ) := by
    intro alpha
    rw [MovingSumUdaf.extractExp, h.n_eq]
    exact (foldl_extractExpStep u alpha n.toNat u.pos).1
  simp only [hextract]
  rw [forall_sum_pow_iff n.toNat (fun i ↦ (u.sumAt i).toNat) fun i ↦ (sumAgo windows i).toNat,
    Palindromic]
  refine forall₂_congr fun i hi ↦ ?_
  rw [UInt32.toNat_inj, hcell i hi, eq_comm]

end

end Tigon.Ftaaux
