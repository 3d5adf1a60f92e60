import Mathlib

/-!
# Temporal types of scalar expressions

The compiler deduces how the value of a scalar expression changes along a stream from how the
columns change: whether it increases, decreases, is constant, or nothing is known.  The temporal
type of the result of an operator depends on those of the operands, and for products and quotients
on their data types: a product with two signed operands has no temporal type, since its factors may
be negative.  One signed operand is let pass, since there are sources that have no unsigned types.

`holds_computeSeTemporal` says that the deduction is sound where such an operand is not negative.
`exists_not_holds` shows that it has to be so: the product of `-3` and an increasing unsigned column
is called increasing.

Values are integers without overflow.  An expression without a value, as a quotient by zero, is
undefined.
-/

set_option autoImplicit false

namespace Tigon.Ftacmp

/-- The integer types.  All other types are left out. -/
inductive DType
  | uShort | uInt | int | uLlong | llong | undefined
deriving DecidableEq, Repr

namespace DType

def isUnsigned : DType → Bool
  | uShort => true
  | uInt => true
  | uLlong => true
  | _ => false

/-- The types that may be negative, by the rules for products and quotients. -/
def isSigned : DType → Bool
  | int => true
  | llong => true
  | _ => false

/-- The number of values of an unsigned type. -/
def card : DType → Int
  | uShort => 2 ^ 16
  | uInt => 2 ^ 32
  | uLlong => 2 ^ 64
  | _ => 0

end DType

/-- How a value changes along a stream.  Nothing is known of a varying one. -/
inductive Temporal
  | increasing | decreasing | constant | varying
deriving DecidableEq, Repr

/-- The values along a stream are as the temporal type says. -/
def Temporal.Holds {ι : Type} [Preorder ι] : Temporal → (ι → Int) → Prop
  | increasing, v => Monotone v
  | decreasing, v => Antitone v
  | constant, v => ∀ i j, v i = v j
  | varying, _ => True

inductive UnaryOp
  | minus | not | complement
deriving DecidableEq, Repr

inductive BinaryOp
  | plus | minus | times | divide | mod | shiftRight | shiftLeft | or | and
deriving DecidableEq, Repr

namespace BinaryOp

def isShift : BinaryOp → Bool
  | shiftRight => true
  | shiftLeft => true
  | _ => false

def isBitwise : BinaryOp → Bool
  | or => true
  | and => true
  | _ => false

end BinaryOp

/-- A data type with its temporal type. -/
structure DataType where
  type : DType
  temporal : Temporal
deriving DecidableEq, Repr

/-! ## Types of results -/

/-- The type of the result of a unary operator. -/
def unaryType (op : UnaryOp) (l : DType) : DType :=
  match op, l with
  | .minus, .uShort => .int
  | .minus, .uInt => .int
  | .minus, .uLlong => .llong
  | _, _ => l

/-- The type of the result of an arithmetical operator. -/
def arithmeticType (shift : Bool) (l r : DType) : DType :=
  match l, r with
  | .uShort, .uShort => .uShort
  | .uShort, .uInt => .uInt
  | .uShort, .int => .int
  | .uShort, .llong => if shift then .undefined else .llong
  | .uShort, .uLlong => if shift then .undefined else .uLlong
  | .uInt, .uShort => .uInt
  | .uInt, .int => .uInt
  | .uInt, .uInt => .uInt
  | .uInt, .llong => if shift then .undefined else .llong
  | .uInt, .uLlong => if shift then .undefined else .uLlong
  | .int, .int => .int
  | .int, .uShort => .int
  | .int, .uInt => .uInt
  | .int, .llong => if shift then .undefined else .llong
  | .int, .uLlong => if shift then .undefined else .uLlong
  | .llong, .int => .llong
  | .llong, .uInt => .llong
  | .llong, .uShort => .llong
  | .llong, .llong => if shift then .undefined else .llong
  | .llong, .uLlong => if shift then .undefined else .uLlong
  | .uLlong, .int => .uLlong
  | .uLlong, .uInt => .uLlong
  | .uLlong, .uShort => .uLlong
  | .uLlong, .uLlong => if shift then .undefined else .uLlong
  | .uLlong, .llong => if shift then .undefined else .uLlong
  | .undefined, _ => .undefined
  | _, .undefined => .undefined

/-- The type of the result of a bitwise operator. -/
def bitwiseType (l r : DType) : DType :=
  match l, r with
  | .undefined, _ => .undefined
  | _, .undefined => .undefined
  | .uShort, r => r
  | .uInt, .llong => .llong
  | .uInt, .uLlong => .uLlong
  | .uInt, _ => .uInt
  | .int, .uShort => .int
  | .int, r => r
  | .llong, .uLlong => .uLlong
  | .llong, _ => .llong
  | .uLlong, _ => .uLlong

def binaryType (op : BinaryOp) (l r : DType) : DType :=
  if op.isBitwise then bitwiseType l r else arithmeticType op.isShift l r

/-! ## Temporal types of results -/

/-- `compute_temporal_type` of a unary operator. -/
def computeUnary (l : Temporal) (op : UnaryOp) : Temporal :=
  match op, l with
  | .minus, .increasing => .decreasing
  | .minus, .decreasing => .increasing
  | _, .constant => .constant
  | _, _ => .varying

/-- The temporal type of a sum, and of a product that may have one. -/
def computePlus (l r : Temporal) : Temporal :=
  if l = r then r
  else if r = .constant then l
  else if l = .constant then r
  else .varying

/-- The temporal type of a difference. -/
def computeMinus (l r : Temporal) (rType : DType) : Temporal :=
  if (l = .constant ∨ l = .increasing) ∧ r = .decreasing ∧ rType ≠ .int then .increasing
  else if (l = .constant ∨ l = .decreasing) ∧ r = .increasing ∧ rType ≠ .int then .decreasing
  else if l = .constant ∧ r = .constant then .constant
  else .varying

/-- The temporal type of a quotient that may have one. -/
def computeDivide (l r : Temporal) : Temporal :=
  if r = .constant then l
  else if (l = .constant ∨ l = .increasing) ∧ r = .decreasing then .increasing
  else if (l = .constant ∨ l = .decreasing) ∧ r = .increasing then .decreasing
  else .varying

/-- `compute_temporal_type` of a binary operator. -/
def computeBinary (l r : Temporal) (lType rType : DType) (op : BinaryOp) : Temporal :=
  match op with
  | .plus => computePlus l r
  | .minus => computeMinus l r rType
  | .times => if lType.isSigned && rType.isSigned then .varying else computePlus l r
  | .divide => if lType.isSigned && rType.isSigned then .varying else computeDivide l r
  | _ => .varying

/-! ## Expressions -/

/-- A scalar expression over columns.  A literal is an integer or a long one. -/
inductive ScalarExp (C : Type)
  | literal (long : Bool) (n : Nat)
  | colref (c : C)
  | unary (op : UnaryOp) (left : ScalarExp C)
  | binary (op : BinaryOp) (left right : ScalarExp C)

variable {C : Type}

namespace ScalarExp

/-- The data type of an expression by the constructors of `data_type`. -/
def dataType (columns : C → DataType) : ScalarExp C → DataType
  | literal long _ => ⟨if long then .uLlong else .uInt, .constant⟩
  | colref c => columns c
  | unary op left =>
    ⟨unaryType op (left.dataType columns).type, computeUnary (left.dataType columns).temporal op⟩
  | binary op left right =>
    ⟨binaryType op (left.dataType columns).type (right.dataType columns).type,
      computeBinary (left.dataType columns).temporal (right.dataType columns).temporal
        (left.dataType columns).type (right.dataType columns).type op⟩

/-- The temporal type of an expression whose columns have the temporal types `tcol`. -/
def computeSeTemporal (columns : C → DataType) (tcol : C → Temporal) : ScalarExp C → Temporal
  | literal _ _ => .constant
  | colref c => tcol c
  | unary op left => computeUnary (left.computeSeTemporal columns tcol) op
  | binary op left right =>
    computeBinary (left.computeSeTemporal columns tcol) (right.computeSeTemporal columns tcol)
      (left.dataType columns).type (right.dataType columns).type op

end ScalarExp

/-! ## Values -/

/-- The value of a unary operator.  The complement of an unsigned value is unsigned. -/
def UnaryOp.apply (op : UnaryOp) (type : DType) (x : Int) : Int :=
  match op with
  | minus => -x
  | not => if x = 0 then 1 else 0
  | complement => if type.isUnsigned then type.card - 1 - x else -x - 1

/-- The value of a binary operator, if it has one. -/
def BinaryOp.apply (op : BinaryOp) (x y : Int) : Option Int :=
  match op with
  | plus => some (x + y)
  | minus => some (x - y)
  | times => some (x * y)
  | divide => if y = 0 then none else some (x.tdiv y)
  | mod => if y = 0 then none else some (x.tmod y)
  | shiftRight => if 0 ≤ y then some (x / 2 ^ y.toNat) else none
  | shiftLeft => if 0 ≤ y then some (x * 2 ^ y.toNat) else none
  | or => some (Int.lor x y)
  | and => some (Int.land x y)

namespace ScalarExp

/-- The value of an expression on a tuple. -/
def eval (columns : C → DataType) (tup : C → Int) : ScalarExp C → Option Int
  | literal _ n => some n
  | colref c => some (tup c)
  | unary op left => (left.eval columns tup).map (op.apply (left.dataType columns).type)
  | binary op left right =>
    (left.eval columns tup).bind fun x ↦ (right.eval columns tup).bind fun y ↦ op.apply x y

/-- The value is not negative if the type is unsigned. -/
def InSignedness (columns : C → DataType) (tup : C → Int) (e : ScalarExp C) : Prop :=
  ∀ x ∈ e.eval columns tup, (e.dataType columns).type.isUnsigned → 0 ≤ x

/-- Each operand is in the signedness of its type. -/
def OperandsSigned (columns : C → DataType) (tup : C → Int) : ScalarExp C → Prop
  | literal _ _ => True
  | colref _ => True
  | unary _ left => left.InSignedness columns tup ∧ left.OperandsSigned columns tup
  | binary _ left right =>
    (left.InSignedness columns tup ∧ right.InSignedness columns tup) ∧
      left.OperandsSigned columns tup ∧ right.OperandsSigned columns tup

/-- The value is not negative if the type is signed. -/
def NotNegative (columns : C → DataType) (tup : C → Int) (e : ScalarExp C) : Prop :=
  ∀ x ∈ e.eval columns tup, (e.dataType columns).type.isSigned → 0 ≤ x

end ScalarExp

/-- The sign of the left operand decides how the result changes. -/
def leftDecides (op : BinaryOp) (r : Temporal) : Bool :=
  match op with
  | .times => r ≠ .constant
  | .divide => r ≠ .constant
  | _ => false

/-- The sign of the right operand decides how the result changes. -/
def rightDecides (op : BinaryOp) (l r : Temporal) : Bool :=
  match op with
  | .times => l ≠ .constant
  | .divide => l ≠ .constant ∨ r ≠ .constant
  | _ => false

namespace ScalarExp

/-- Each operand has an integer type. -/
def OperandsTyped (columns : C → DataType) : ScalarExp C → Prop
  | literal _ _ => True
  | colref _ => True
  | unary _ left => (left.dataType columns).type ≠ .undefined ∧ left.OperandsTyped columns
  | binary _ left right =>
    ((left.dataType columns).type ≠ .undefined ∧ (right.dataType columns).type ≠ .undefined) ∧
      left.OperandsTyped columns ∧ right.OperandsTyped columns

/-- A signed operand is not negative where its sign decides about the temporal type deduced. -/
def FactorsNotNegative (columns : C → DataType) (tcol : C → Temporal) (tup : C → Int) :
    ScalarExp C → Prop
  | literal _ _ => True
  | colref _ => True
  | unary _ left => left.FactorsNotNegative columns tcol tup
  | binary op left right =>
    ((binary op left right).computeSeTemporal columns tcol ≠ .varying →
      (leftDecides op (right.computeSeTemporal columns tcol) → left.NotNegative columns tup) ∧
      (rightDecides op (left.computeSeTemporal columns tcol)
        (right.computeSeTemporal columns tcol) → right.NotNegative columns tup)) ∧
    left.FactorsNotNegative columns tcol tup ∧ right.FactorsNotNegative columns tcol tup

/-- The two deductions agree where the columns change as declared. -/
theorem temporal_dataType (columns : C → DataType) (e : ScalarExp C) :
    (e.dataType columns).temporal = e.computeSeTemporal columns fun c ↦ (columns c).temporal := by
  induction e with
  | literal long n => rfl
  | colref c => rfl
  | unary op left ih => simp only [dataType, computeSeTemporal, ih]
  | binary op left right ihl ihr => simp only [dataType, computeSeTemporal, ihl, ihr]

end ScalarExp

/-! ## Soundness of the operators -/

namespace Temporal

variable {ι : Type} [Preorder ι]

/-- What is constant may be said to change in any way. -/
theorem Holds.of_constant {v : ι → Int} (h : constant.Holds v) (t : Temporal) : t.Holds v := by
  cases t with
  | increasing => exact fun i j _ ↦ (h i j).le
  | decreasing => exact fun i j _ ↦ (h j i).le
  | constant => exact h
  | varying => trivial

theorem Holds.neg {t : Temporal} {v : ι → Int} (h : t.Holds v) :
    (computeUnary t .minus).Holds fun i ↦ -v i := by
  cases t with
  | increasing => exact fun i j hij ↦ neg_le_neg (h hij)
  | decreasing => exact fun i j hij ↦ neg_le_neg (h hij)
  | constant => exact fun i j ↦ congrArg Neg.neg (h i j)
  | varying => trivial

/-- A function that keeps the order of the values keeps how they change. -/
theorem Holds.map {t : Temporal} {v : ι → Int} (h : t.Holds v) (f : Int → Int)
    (hf : t ≠ constant → ∀ i j, v i ≤ v j → f (v i) ≤ f (v j)) : t.Holds fun i ↦ f (v i) := by
  cases t with
  | increasing => exact fun i j hij ↦ hf (by decide) i j (h hij)
  | decreasing => exact fun i j hij ↦ hf (by decide) j i (h hij)
  | constant => exact fun i j ↦ congrArg f (h i j)
  | varying => trivial

/-- What changes in the same way with each of two arguments does so with both. -/
theorem holds_diagonal {t : Temporal} {g : ι → ι → Int} (hl : ∀ k, t.Holds fun i ↦ g i k)
    (hr : ∀ k, t.Holds fun i ↦ g k i) : t.Holds fun i ↦ g i i := by
  cases t with
  | increasing => exact fun i j hij ↦ (hl i hij).trans (hr j hij)
  | decreasing => exact fun i j hij ↦ (hl j hij).trans (hr i hij)
  | constant => exact fun i j ↦ (hl i i j).trans (hr j i j)
  | varying => trivial

/-- A function of two operands that change in the same way, up to constants, and whose order it
keeps. -/
theorem holds_map₂ {l r t : Temporal} {v w : ι → Int} (hv : l.Holds v) (hw : r.Holds w)
    (f : Int → Int → Int) (hl : l = t ∨ l = constant) (hr : r = t ∨ r = constant)
    (fl : l ≠ constant → ∀ k i j, v i ≤ v j → f (v i) (w k) ≤ f (v j) (w k))
    (fr : r ≠ constant → ∀ k i j, w i ≤ w j → f (v k) (w i) ≤ f (v k) (w j)) :
    t.Holds fun i ↦ f (v i) (w i) := by
  refine holds_diagonal (g := fun i j ↦ f (v i) (w j)) (fun k ↦ ?_) fun k ↦ ?_
  · have h : l.Holds fun i ↦ f (v i) (w k) := hv.map (f · (w k)) fun hc ↦ fl hc k
    rcases hl with rfl | rfl
    · exact h
    · exact h.of_constant t
  · have h : r.Holds fun i ↦ f (v k) (w i) := hw.map (f (v k)) fun hc ↦ fr hc k
    rcases hr with rfl | rfl
    · exact h
    · exact h.of_constant t

end Temporal

/-! The operands of a sum or product with a temporal type change in the same way, up to constants;
those of a difference or quotient in opposite ways. -/

theorem computePlus_operands {l r : Temporal} (h : computePlus l r ≠ .varying) :
    (l = computePlus l r ∨ l = .constant) ∧ (r = computePlus l r ∨ r = .constant) := by
  cases l <;> cases r <;> revert h <;> decide

theorem computeMinus_operands {l r : Temporal} {rType : DType}
    (h : computeMinus l r rType ≠ .varying) :
    (l = computeMinus l r rType ∨ l = .constant) ∧
      (computeUnary r .minus = computeMinus l r rType ∨ computeUnary r .minus = .constant) := by
  cases l <;> cases r <;> cases rType <;> revert h <;> decide

theorem computeDivide_operands {l r : Temporal} (h : computeDivide l r ≠ .varying) :
    (l = computeDivide l r ∨ l = .constant) ∧
      (computeUnary r .minus = computeDivide l r ∨ computeUnary r .minus = .constant) := by
  cases l <;> cases r <;> revert h <;> decide

theorem computeUnary_minus_eq_constant {t : Temporal} :
    computeUnary t .minus = .constant ↔ t = .constant := by
  cases t <;> decide

/-- A quotient of non-negative numbers does not grow with the divisor. -/
theorem tdiv_le_tdiv_left {x y y' : Int} (hx : 0 ≤ x) (hy : 0 < y) (h : y ≤ y') :
    x.tdiv y' ≤ x.tdiv y := by
  rw [Int.tdiv_eq_ediv_of_nonneg hx, Int.tdiv_eq_ediv_of_nonneg hx]
  rw [Int.le_ediv_iff_mul_le hy]
  calc x / y' * y ≤ x / y' * y' :=
        Int.mul_le_mul_of_nonneg_left h (Int.ediv_nonneg hx (hy.le.trans h))
    _ ≤ x := Int.ediv_mul_le x (hy.trans_le h).ne'

section

variable {ι : Type} [Preorder ι] {l r : Temporal} {v w u : ι → Int}

theorem holds_computeUnary (op : UnaryOp) (type : DType) (hv : l.Holds v) :
    (computeUnary l op).Holds fun i ↦ op.apply type (v i) := by
  cases op with
  | minus => exact hv.neg
  | not =>
    cases l with
    | constant => exact hv.map (UnaryOp.not.apply type) fun h ↦ absurd rfl h
    | _ => trivial
  | complement =>
    cases l with
    | constant => exact hv.map (UnaryOp.complement.apply type) fun h ↦ absurd rfl h
    | _ => trivial

theorem holds_plus (hv : l.Holds v) (hw : r.Holds w) (hne : computePlus l r ≠ .varying) :
    (computePlus l r).Holds fun i ↦ v i + w i := by
  obtain ⟨hl, hr⟩ := computePlus_operands hne
  exact Temporal.holds_map₂ hv hw (· + ·) hl hr (fun _ k _ _ h ↦ Int.add_le_add_right h (w k))
    fun _ k _ _ h ↦ Int.add_le_add_left h (v k)

theorem holds_minus {rType : DType} (hv : l.Holds v) (hw : r.Holds w)
    (hne : computeMinus l r rType ≠ .varying) :
    (computeMinus l r rType).Holds fun i ↦ v i - w i := by
  obtain ⟨hl, hr⟩ := computeMinus_operands hne
  exact Temporal.holds_map₂ hv hw.neg (· + ·) hl hr
    (fun _ k _ _ h ↦ Int.add_le_add_right h (-w k)) fun _ k _ _ h ↦ Int.add_le_add_left h (v k)

theorem holds_times (hv : l.Holds v) (hw : r.Holds w) (hne : computePlus l r ≠ .varying)
    (v0 : r ≠ .constant → ∀ i, 0 ≤ v i) (w0 : l ≠ .constant → ∀ i, 0 ≤ w i) :
    (computePlus l r).Holds fun i ↦ v i * w i := by
  obtain ⟨hl, hr⟩ := computePlus_operands hne
  exact Temporal.holds_map₂ hv hw (· * ·) hl hr
    (fun hc k _ _ h ↦ Int.mul_le_mul_of_nonneg_right h (w0 hc k))
    fun hc k _ _ h ↦ Int.mul_le_mul_of_nonneg_left h (v0 hc k)

theorem holds_divide (hv : l.Holds v) (hw : r.Holds w) (hne : computeDivide l r ≠ .varying)
    (v0 : r ≠ .constant → ∀ i, 0 ≤ v i)
    (w0 : l ≠ .constant ∨ r ≠ .constant → ∀ i, 0 < w i) :
    (computeDivide l r).Holds fun i ↦ (v i).tdiv (w i) := by
  obtain ⟨hl, hr⟩ := computeDivide_operands hne
  have h : (computeDivide l r).Holds fun i ↦ (v i).tdiv (-(-w i)) := by
    refine Temporal.holds_map₂ hv hw.neg (fun x y ↦ x.tdiv (-y)) hl hr (fun hc k i j h ↦ ?_)
      fun hc k i j h ↦ ?_
    · rw [neg_neg]
      exact Int.tdiv_le_tdiv (w0 (.inl hc) k) h
    · have hr : r ≠ .constant := fun h ↦ hc (computeUnary_minus_eq_constant.mpr h)
      rw [neg_neg, neg_neg]
      exact tdiv_le_tdiv_left (v0 hr k) (w0 (.inr hr) j) (neg_le_neg_iff.mp h)
  simpa only [neg_neg] using h

/-- A quotient with a value has a divisor other than zero. -/
theorem divide_apply_eq_some {x y z : Int} (h : BinaryOp.divide.apply x y = some z) :
    y ≠ 0 ∧ x.tdiv y = z := by
  simpa [BinaryOp.apply] using h

/-- The result of an operator changes as deduced, if the operands do and those whose sign decides
are not negative. -/
theorem holds_computeBinary (op : BinaryOp) (lType rType : DType) (hv : l.Holds v) (hw : r.Holds w)
    (hu : ∀ i, op.apply (v i) (w i) = some (u i))
    (hne : computeBinary l r lType rType op ≠ .varying)
    (v0 : leftDecides op r → ∀ i, 0 ≤ v i) (w0 : rightDecides op l r → ∀ i, 0 ≤ w i) :
    (computeBinary l r lType rType op).Holds u := by
  cases op with
  | plus =>
    obtain rfl : (fun i ↦ v i + w i) = u := funext fun i ↦ Option.some.inj (hu i)
    exact holds_plus hv hw hne
  | minus =>
    obtain rfl : (fun i ↦ v i - w i) = u := funext fun i ↦ Option.some.inj (hu i)
    exact holds_minus hv hw hne
  | times =>
    obtain rfl : (fun i ↦ v i * w i) = u := funext fun i ↦ Option.some.inj (hu i)
    simp only [computeBinary] at hne ⊢
    split_ifs at hne ⊢
    · exact absurd rfl hne
    · exact holds_times hv hw hne (fun hr ↦ v0 (decide_eq_true hr)) fun hl ↦ w0 (decide_eq_true hl)
  | divide =>
    obtain rfl : (fun i ↦ (v i).tdiv (w i)) = u :=
      funext fun i ↦ (divide_apply_eq_some (hu i)).2
    simp only [computeBinary] at hne ⊢
    split_ifs at hne ⊢
    · exact absurd rfl hne
    · refine holds_divide hv hw hne (fun hr ↦ v0 (decide_eq_true hr)) fun hlr i ↦ ?_
      exact lt_of_le_of_ne (w0 (decide_eq_true hlr) i) (divide_apply_eq_some (hu i)).1.symm
  | _ => exact absurd rfl hne

end

/-! ## Soundness of the deduction -/

namespace ScalarExp

/-- An operand with a type is not negative if it is so when signed. -/
theorem nonneg_of_notNegative {columns : C → DataType} {tup : C → Int} {e : ScalarExp C} {x : Int}
    (htyped : (e.dataType columns).type ≠ .undefined) (hsign : e.InSignedness columns tup)
    (hn : e.NotNegative columns tup) (hx : e.eval columns tup = some x) : 0 ≤ x := by
  have hcases : (e.dataType columns).type.isUnsigned ∨ (e.dataType columns).type.isSigned := by
    cases h : (e.dataType columns).type with
    | undefined => exact absurd h htyped
    | _ => decide
  rcases hcases with h | h
  · exact hsign x hx h
  · exact hn x hx h

variable {ι : Type} [Preorder ι]

/-- **The deduction is sound** on streams where no signed operand is negative whose sign decides: an
expression changes along the stream as `compute_se_temporal` says, if the columns do, and as the
constructors of `data_type` say, if the columns change as declared. -/
theorem holds_computeSeTemporal (columns : C → DataType) (tcol : C → Temporal) (e : ScalarExp C)
    (tup : ι → C → Int) (v : ι → Int) (hcol : ∀ c, (tcol c).Holds fun i ↦ tup i c)
    (htyped : e.OperandsTyped columns) (hv : ∀ i, e.eval columns (tup i) = some (v i))
    (hsign : ∀ i, e.OperandsSigned columns (tup i))
    (hn : ∀ i, e.FactorsNotNegative columns tcol (tup i)) :
    (e.computeSeTemporal columns tcol).Holds v ∧
      ((∀ c, tcol c = (columns c).temporal) → (e.dataType columns).temporal.Holds v) := by
  have hmain : (e.computeSeTemporal columns tcol).Holds v := by
    induction e generalizing v with
    | literal long n =>
      exact fun i j ↦ Option.some.inj ((hv i).symm.trans (hv j))
    | colref c =>
      obtain rfl : (fun i ↦ tup i c) = v := funext fun i ↦ Option.some.inj (hv i)
      exact hcol c
    | unary op left ih =>
      have hdef : ∀ i, ∃ x, left.eval columns (tup i) = some x ∧
          op.apply (left.dataType columns).type x = v i := fun i ↦ Option.map_eq_some_iff.mp (hv i)
      choose x hx hop using hdef
      obtain rfl : (fun i ↦ op.apply (left.dataType columns).type (x i)) = v := funext hop
      exact holds_computeUnary op _ (ih x htyped.2 hx (fun i ↦ (hsign i).2) hn)
    | binary op left right ihl ihr =>
      have hdef : ∀ i, ∃ x y, left.eval columns (tup i) = some x ∧
          right.eval columns (tup i) = some y ∧ op.apply x y = some (v i) := by
        intro i
        obtain ⟨x, hx, h⟩ := Option.bind_eq_some_iff.mp (hv i)
        obtain ⟨y, hy, h⟩ := Option.bind_eq_some_iff.mp h
        exact ⟨x, y, hx, hy, h⟩
      choose x y hx hy hop using hdef
      by_cases hne : (binary op left right).computeSeTemporal columns tcol = .varying
      · rw [hne]
        trivial
      · have hl := ihl x htyped.2.1 hx (fun i ↦ (hsign i).2.1) fun i ↦ (hn i).2.1
        have hr := ihr y htyped.2.2 hy (fun i ↦ (hsign i).2.2) fun i ↦ (hn i).2.2
        refine holds_computeBinary op _ _ hl hr hop hne (fun hd i ↦ ?_) fun hd i ↦ ?_
        · exact nonneg_of_notNegative htyped.1.1 (hsign i).1.1 (((hn i).1 hne).1 hd) (hx i)
        · exact nonneg_of_notNegative htyped.1.2 (hsign i).1.2 (((hn i).1 hne).2 hd) (hy i)
  refine ⟨hmain, fun hdecl ↦ ?_⟩
  rw [temporal_dataType, ← funext hdecl]
  exact hmain

/-- A signed and an unsigned column, both increasing. -/
def twoColumns (signed : Bool) : DataType := ⟨if signed then .int else .uShort, .increasing⟩

/-- Both columns count from one. -/
def counting (i : Fin 2) (_ : Bool) : Int := i + 1

theorem monotone_counting (c : Bool) : Monotone fun i ↦ counting i c := by
  intro i j hij
  exact Int.add_le_add_right (Int.ofNat_le.mpr hij) 1

theorem holds_computeSeTemporal_product :
    ((binary .times (colref true) (colref false)).dataType twoColumns).temporal = .increasing ∧
      Monotone fun i ↦ counting i true * counting i false := by
  refine ⟨rfl, (holds_computeSeTemporal twoColumns (fun c ↦ (twoColumns c).temporal)
    (binary .times (colref true) (colref false)) counting
    (fun i ↦ counting i true * counting i false) monotone_counting
    ⟨by decide, trivial, trivial⟩ (fun i ↦ rfl) (fun i ↦ ?_) fun i ↦ ?_).2 fun c ↦ rfl⟩
  all_goals
    have hpos (c : Bool) : ∀ x ∈ some (counting i c), 0 ≤ x := by
      rintro _ ⟨⟩
      exact Int.add_nonneg (Int.natCast_nonneg _) (by decide)
  · exact ⟨⟨fun x hx _ ↦ hpos true x hx, fun x hx _ ↦ hpos false x hx⟩, trivial, trivial⟩
  · exact ⟨fun _ ↦ ⟨fun _ x hx _ ↦ hpos true x hx, fun _ x hx _ ↦ hpos false x hx⟩,
      trivial, trivial⟩

/-- The product of `-3` and the unsigned column. -/
def minusThreeTimes : ScalarExp Bool :=
  binary .times (unary .minus (literal false 3)) (colref false)

/-- **The product is called increasing and decreases**: each operand, and the product too, is in the
signedness of its type, but `-3` is a signed constant. -/
theorem exists_not_holds :
    (∀ c, ((twoColumns c).temporal).Holds fun i ↦ counting i c) ∧
      minusThreeTimes.OperandsTyped twoColumns ∧
      (∀ i, minusThreeTimes.eval twoColumns (counting i) = some (-3 * counting i false)) ∧
      (∀ i, minusThreeTimes.OperandsSigned twoColumns (counting i) ∧
        minusThreeTimes.InSignedness twoColumns (counting i)) ∧
      (minusThreeTimes.dataType twoColumns).temporal = .increasing ∧
      minusThreeTimes.computeSeTemporal twoColumns (fun c ↦ (twoColumns c).temporal) = .increasing ∧
      ¬ Temporal.increasing.Holds fun i ↦ -3 * counting i false := by
  refine ⟨monotone_counting, ⟨by decide, ⟨by decide, trivial⟩, trivial⟩, fun i ↦ rfl,
    fun i ↦ ⟨?_, ?_⟩, rfl, rfl, fun h ↦ ?_⟩
  · refine ⟨⟨fun x hx ht ↦ absurd ht (by decide), ?_⟩, ⟨?_, trivial⟩, trivial⟩
    · rintro _ ⟨⟩ _
      exact Int.add_nonneg (Int.natCast_nonneg _) (by decide)
    · rintro _ ⟨⟩ _
      decide
  · exact fun x hx ht ↦ absurd ht (by decide)
  · exact absurd (h (Fin.zero_le 1)) (by decide)

end ScalarExp

end Tigon.Ftacmp
