import Tigon.Ftacmp.Temporal
import Tigon.Lib.Rounding

/-!
# The slack of a generated merge

A merge of the sources of a query lets their tuples differ by the slack that the interfaces declare
for a field, in the units of the temporal expression that is merged.  The compiler recovers the
divisor between the two from the expression: it has to be a field, or a field by a constant,
possibly plus or minus constants.  The slack is divided by it as a floating point number, and
rounded up.

* `form_iff` — the expressions of this form, among those that get a divisor.
* `slackOk_iff` — **when an expression with a divisor is of this form, and its values differ by no
  more than the slack.**

A quotient of a group-by variable would get the divisor of that quotient alone, whatever the
definition of the variable is; but the select list of a merge has the variables by themselves.  What
can be reached is the rounding: a slack with more than 53 bits may become a smaller one.
-/

set_option autoImplicit false

namespace Tigon.Ftacmp.MergeSlack

open Function

/-! ## Expressions -/

/-- A scalar expression, with the data types of its columns, parameters and calls.  The definition
of a group-by variable stands at its reference; the operands of calls are left out. -/
inductive ScalarExp
  | literal (long : Bool) (n : Nat)
  | param (name : String) (type : DataType)
  | unary (op : UnaryOp) (left : ScalarExp)
  | binary (op : BinaryOp) (left right : ScalarExp)
  | colref (field : String) (type : DataType)
  | gb (field : String) (definition : ScalarExp)
  | aggr (name : String) (type : DataType)
  | func (name : String) (type : DataType)

def isTemporal (type : DataType) : Bool :=
  type.temporal == .increasing || type.temporal == .decreasing

namespace ScalarExp

def getDataType : ScalarExp → DataType
  | literal long _ => ⟨if long then .uLlong else .uInt, .constant⟩
  | param _ type => type
  | unary op left => ⟨unaryType op left.getDataType.type, computeUnary left.getDataType.temporal op⟩
  | binary op left right =>
    ⟨binaryType op left.getDataType.type right.getDataType.type,
      computeBinary left.getDataType.temporal right.getDataType.temporal left.getDataType.type
        right.getDataType.type op⟩
  | colref _ type => type
  | gb _ definition => definition.getDataType
  | aggr _ type => type
  | func _ type => type

/-- The field of a column reference, which may be a reference to a group-by variable. -/
def getField : ScalarExp → Option String
  | colref field _ => some field
  | gb field _ => some field
  | _ => none

/-- The text of a literal, which is a number. -/
def getLiteral : ScalarExp → Option Nat
  | literal _ n => some n
  | _ => none

end ScalarExp

/-- `sscanf` of a number as a `long long int`. -/
def scanLong (n : Nat) : Int := min n (2 ^ 63 - 1)

/-- The divisor of a quotient with a temporal left operand. -/
def quotientDivisor (fnm : String) (left right : ScalarExp) : Int × String :=
  match left.getField with
  | none => (-1, fnm)
  | some field =>
    match right.getLiteral with
    | none => (-1, fnm)
    | some n => (scanLong n, field)

/-- The divisor, or a number that is not positive; and the field, which is as before if there is no
divisor. -/
def findTemporalDivisor (fnm : String) : ScalarExp → Int × String
  | .literal _ _ => (-1, fnm)
  | .param _ _ => (-1, fnm)
  | .unary _ _ => (-1, fnm)
  | .binary op left right =>
    if !isTemporal left.getDataType || isTemporal right.getDataType then (-1, fnm)
    else
      match op with
      | .plus => findTemporalDivisor fnm left
      | .minus => findTemporalDivisor fnm left
      | .divide => quotientDivisor fnm left right
      | _ => (-1, fnm)
  | .gb _ definition => findTemporalDivisor fnm definition
  | .colref field type => if isTemporal type then (1, field) else (0, fnm)
  | .aggr _ _ => (-1, fnm)
  | .func _ _ => (-1, fnm)

/-! ## Slacks -/

/-- The largest of the slacks, if it is positive. -/
def maxSlacker (slacks : List Int64) : Int :=
  slacks.foldl (fun most s ↦ if most < s.toInt then s.toInt else most) 0

/-- A quotient as a `double`. -/
def quotient (s d : Int) : ℚ :=
  Rounding.toBinary 53 (Rounding.toBinary 53 s / Rounding.toBinary 53 d)

section

variable {I : Type} (sources : List I) (getIfaceVals : I → String → List Int64)

/-- The numbers that are read from what the interfaces have for a field. -/
def declared (fnm : String) : List Int64 :=
  sources.flatMap fun source ↦ getIfaceVals source ("Slack_" ++ fnm)

/-- The slack, if there is to be one.  There is no result where the slack is not a `long long
int`. -/
def resolveSlack (t : ScalarExp) : Option (Option Int) :=
  let found := findTemporalDivisor "" t
  if found.1 ≤ 0 then some none
  else
    let slack := maxSlacker (declared sources getIfaceVals found.2)
    if slack ≤ 0 then some none
    else if ⌈quotient slack found.1⌉ < 2 ^ 63 then some (some ⌈quotient slack found.1⌉)
    else none

end

/-! ## What is claimed of a divisor -/

/-- What an expression reads. -/
inductive Input
  | column (field : String)
  | param (name : String)
  | call (name : String)
deriving DecidableEq

namespace ScalarExp

/-- The value of an expression, if it has one. -/
def eval (tup : Input → Int) : ScalarExp → Option Int
  | literal _ n => some n
  | param name _ => some (tup (.param name))
  | unary op left => (left.eval tup).map (op.apply left.getDataType.type)
  | binary op left right => (left.eval tup).bind fun x ↦ (right.eval tup).bind fun y ↦ op.apply x y
  | colref field _ => some (tup (.column field))
  | gb _ definition => definition.eval tup
  | aggr name _ => some (tup (.call name))
  | func name _ => some (tup (.call name))

/-- The expression in terms of the columns. -/
def inlined : ScalarExp → ScalarExp
  | unary op left => unary op left.inlined
  | binary op left right => binary op left.inlined right.inlined
  | gb _ definition => definition.inlined
  | e => e

/-- An expression of literals and parameters. -/
def isConstant : ScalarExp → Bool
  | literal _ _ => true
  | param _ _ => true
  | unary _ left => left.isConstant
  | binary _ left right => left.isConstant && right.isConstant
  | gb _ definition => definition.isConstant
  | _ => false

end ScalarExp

/-- A field, or a field by a constant, possibly plus or minus constants. -/
inductive Form (f : String) : ScalarExp → Prop
  | field (type : DataType) : Form f (.colref f type)
  | quotient (type : DataType) (long : Bool) (n : Nat) :
      Form f (.binary .divide (.colref f type) (.literal long n))
  | plus (t c : ScalarExp) (ht : Form f t) (hc : c.isConstant = true) : Form f (.binary .plus t c)
  | minus (t c : ScalarExp) (ht : Form f t) (hc : c.isConstant = true) : Form f (.binary .minus t c)

/-- The inputs other than the field are the same. -/
def SameBut (f : String) (tup tup' : Input → Int) : Prop := ∀ i, i ≠ .column f → tup i = tup' i

section

variable {I : Type} (sources : List I) (getIfaceVals : I → String → List Int64)

/-- Where values of the field differ by no more than a declared slack, those of the expression do so
by no more than the slack of the merge. -/
def Covers (f : String) (t : ScalarExp) : Prop :=
  ∀ s ∈ declared sources getIfaceVals f, 0 ≤ s.toInt → ∀ tup tup', SameBut f tup tup' →
    tup (.column f) - tup' (.column f) ≤ s.toInt → ∀ x ∈ t.eval tup, ∀ x' ∈ t.eval tup',
      ∃ slack, resolveSlack sources getIfaceVals t = some slack ∧ x - x' ≤ slack.getD 0

/-- An expression with a divisor is of the form that is allowed, and if it is temporal it is covered
by the slack. -/
def SlackOk (t : ScalarExp) : Prop :=
  ∀ d f, findTemporalDivisor "" t = (d, f) → 0 < d →
    Form f t.inlined ∧ (isTemporal t.getDataType = true → Covers sources getIfaceVals f t)

end

/-! ## The form of an expression -/

/-- What is added or subtracted is constant, and a group-by variable that is divided stands for the
column of its name. -/
def Direct : ScalarExp → Prop
  | .binary op left right =>
    match op with
    | .plus => Direct left ∧ right.isConstant = true
    | .minus => Direct left ∧ right.isConstant = true
    | .divide => ∀ f, left.getField = some f → ∃ type, left.inlined = .colref f type
    | _ => True
  | .gb _ definition => Direct definition
  | _ => True

/-- No whole number is at or above the quotient as a `double` and below the quotient. -/
def RoundsOk (s d : Int) : Prop := quotient s d ≤ 2 ^ 63 - 1 ∧ ∀ k : Int,
    quotient s d ≤ k → s ≤ k * d

/-! ## The form of what gets a divisor -/

section

variable {t left right c : ScalarExp} {op : BinaryOp} {f fnm : String} {d : Int}

theorem isConstant_inlined (c : ScalarExp) : c.inlined.isConstant = c.isConstant := by
  induction c with
  | unary op left ih => exact ih
  | binary op left right ihl ihr =>
    show (left.inlined.isConstant && right.inlined.isConstant) =
      (left.isConstant && right.isConstant)
    rw [ihl, ihr]
  | gb field definition ih => exact ih
  | literal long n => rfl
  | param name type => rfl
  | colref field type => rfl
  | aggr name type => rfl
  | func name type => rfl

/-- What a quotient, sum or difference gets its divisor from. -/
theorem findTemporalDivisor_binary (hfind : findTemporalDivisor fnm (.binary op left right) =
    (d, f)) (hd : 0 < d) : isTemporal left.getDataType = true ∧
      ((op = .plus ∨ op = .minus) ∧ findTemporalDivisor fnm left = (d, f) ∨
        op = .divide ∧ left.getField = some f ∧ ∃ n, right.getLiteral = some n ∧
          d = scanLong n) := by
  have hnot (hneg : ((-1, fnm) : Int × String) = (d, f)) : False := by
    obtain ⟨rfl, -⟩ := Prod.mk.inj hneg
    omega
  by_cases htypes : (!isTemporal left.getDataType || isTemporal right.getDataType) = true
  · have hnone : findTemporalDivisor fnm (.binary op left right) = (-1, fnm) := by
      cases op <;> exact if_pos htypes
    exact (hnot (hnone.symm.trans hfind)).elim
  · have hother (hne : op ≠ .plus ∧ op ≠ .minus ∧ op ≠ .divide) :
        findTemporalDivisor fnm (.binary op left right) = (-1, fnm) := by
      cases op
      case plus => exact absurd rfl hne.1
      case minus => exact absurd rfl hne.2.1
      case divide => exact absurd rfl hne.2.2
      all_goals exact if_neg htypes
    have htemporal : isTemporal left.getDataType = true := by
      rw [Bool.not_eq_true, Bool.or_eq_false_iff, Bool.not_eq_false'] at htypes
      exact htypes.1
    refine ⟨htemporal, ?_⟩
    by_cases hplus : op = .plus
    · subst hplus
      exact .inl ⟨.inl rfl, (if_neg htypes).symm.trans hfind⟩
    by_cases hminus : op = .minus
    · subst hminus
      exact .inl ⟨.inr rfl, (if_neg htypes).symm.trans hfind⟩
    by_cases hdivide : op = .divide
    · subst hdivide
      have hdivided : findTemporalDivisor fnm (.binary .divide left right) =
        quotientDivisor fnm left right :=
        if_neg htypes
      rw [hdivided, quotientDivisor] at hfind
      split at hfind
      · exact (hnot hfind).elim
      · rename_i field hfield
        split at hfind
        · exact (hnot hfind).elim
        · rename_i n hn
          obtain ⟨rfl, rfl⟩ := Prod.mk.inj hfind
          exact .inr ⟨rfl, hfield, n, hn, rfl⟩
    · exact (hnot ((hother ⟨hplus, hminus, hdivide⟩).symm.trans hfind)).elim

theorem getLiteral_eq_some {n : Nat} (hn : right.getLiteral = some n) : ∃ long,
    right = .literal long n := by
  match right with
  | .literal long m =>
    obtain rfl := Option.some.inj hn
    exact ⟨long, rfl⟩

/-- **An expression with a divisor is of the form that is allowed just if it is direct.** -/
theorem form_iff (t : ScalarExp) :
    ∀ d, findTemporalDivisor fnm t = (d, f) → 0 < d → (Form f t.inlined ↔ Direct t) := by
  have hnot {d : Int} (hneg : ((-1, fnm) : Int × String) = (d, f)) (hd : 0 < d) : False := by
    obtain ⟨rfl, -⟩ := Prod.mk.inj hneg
    omega
  induction t with
  | literal long n => exact fun d hfind hd ↦ (hnot hfind hd).elim
  | param name type => exact fun d hfind hd ↦ (hnot hfind hd).elim
  | unary op left ih => exact fun d hfind hd ↦ (hnot hfind hd).elim
  | aggr name type => exact fun d hfind hd ↦ (hnot hfind hd).elim
  | func name type => exact fun d hfind hd ↦ (hnot hfind hd).elim
  | gb field definition ih => exact ih
  | colref field type =>
    intro d hfind hd
    rw [findTemporalDivisor] at hfind
    split at hfind
    · obtain ⟨-, rfl⟩ := Prod.mk.inj hfind
      exact iff_of_true (.field type) trivial
    · obtain ⟨rfl, -⟩ := Prod.mk.inj hfind
      omega
  | binary op left right ihl ihr =>
    intro d hfind hd
    obtain ⟨-, ⟨rfl | rfl, hleft⟩ | ⟨rfl, hfield, n, hn, rfl⟩⟩ :=
      findTemporalDivisor_binary hfind hd
    · show _ ↔ Direct left ∧ right.isConstant = true
      rw [← ihl d hleft hd, ← isConstant_inlined right]
      exact ⟨fun hform ↦ by cases hform with | plus _ _ ht hc => exact ⟨ht, hc⟩,
        fun hform ↦ .plus _ _ hform.1 hform.2⟩
    · show _ ↔ Direct left ∧ right.isConstant = true
      rw [← ihl d hleft hd, ← isConstant_inlined right]
      exact ⟨fun hform ↦ by cases hform with | minus _ _ ht hc => exact ⟨ht, hc⟩,
        fun hform ↦ .minus _ _ hform.1 hform.2⟩
    · obtain ⟨long, rfl⟩ := getLiteral_eq_some hn
      show Form f (.binary .divide left.inlined (.literal long n)) ↔
        ∀ g, left.getField = some g → ∃ type, left.inlined = .colref g type
      constructor
      · intro hform g hg
        obtain rfl := Option.some.inj (hfield.symm.trans hg)
        generalize left.inlined = e at hform
        cases hform with
        | quotient type => exact ⟨type, rfl⟩
      · intro hdirect
        obtain ⟨type, htype⟩ := hdirect f hfield
        rw [htype]
        exact .quotient type long n

end

/-! ## Values -/

section

variable {t c : ScalarExp} {f fnm : String} {d : Int} {tup tup' : Input → Int}

theorem getDataType_inlined (t : ScalarExp) : t.inlined.getDataType = t.getDataType := by
  induction t with
  | unary op left ih =>
    show DataType.mk (unaryType op left.inlined.getDataType.type)
      (computeUnary left.inlined.getDataType.temporal op) = _
    rw [ih]
    rfl
  | binary op left right ihl ihr =>
    show DataType.mk (binaryType op left.inlined.getDataType.type right.inlined.getDataType.type)
      (computeBinary left.inlined.getDataType.temporal right.inlined.getDataType.temporal
        left.inlined.getDataType.type right.inlined.getDataType.type op) = _
    rw [ihl, ihr]
    rfl
  | gb field definition ih => exact ih
  | literal long n => rfl
  | param name type => rfl
  | colref field type => rfl
  | aggr name type => rfl
  | func name type => rfl

theorem eval_inlined (t : ScalarExp) (tup : Input → Int) : t.inlined.eval tup = t.eval tup := by
  induction t with
  | unary op left ih =>
    show (left.inlined.eval tup).map (op.apply left.inlined.getDataType.type) = _
    rw [ih, getDataType_inlined]
    rfl
  | binary op left right ihl ihr =>
    show (left.inlined.eval tup).bind
      (fun x ↦ (right.inlined.eval tup).bind fun y ↦ op.apply x y) = _
    rw [ihl, ihr]
    rfl
  | gb field definition ih => exact ih
  | literal long n => rfl
  | param name type => rfl
  | colref field type => rfl
  | aggr name type => rfl
  | func name type => rfl

/-- A constant does not depend on the field. -/
theorem eval_isConstant (hsame : SameBut f tup tup') (hc : c.isConstant = true) : c.eval tup =
    c.eval tup' := by
  induction c with
  | literal long n => rfl
  | param name type => exact congrArg some (hsame _ (by simp))
  | unary op left ih => exact congrArg (Option.map _) (ih hc)
  | binary op left right ihl ihr =>
    have hboth := Bool.and_eq_true_iff.mp hc
    show (left.eval tup).bind _ = (left.eval tup').bind _
    rw [ihl hboth.1, ihr hboth.2]
  | gb field definition ih => exact ih hc
  | colref field type => cases hc
  | aggr name type => cases hc
  | func name type => cases hc

/-- A constant is added to the offset. -/
theorem apply_offset {op : BinaryOp} (hop : op = .plus ∨ op = .minus) (a : Int)
    (offset c : Option Int) : ((offset.map fun k ↦ a + k).bind fun x ↦ c.bind fun y ↦
      op.apply x y) = (offset.bind fun k ↦ c.bind fun y ↦ op.apply k y).map fun k ↦ a + k := by
  match offset, c with
  | none, _ => rfl
  | some k, none => rfl
  | some k, some y =>
    rcases hop with rfl | rfl
    · exact congrArg some (Int.add_assoc a k y)
    · exact congrArg some (Int.add_sub_assoc a k y)

/-- A direct expression is a quotient of the field and an offset that does not depend on it. -/
theorem exists_offset (t : ScalarExp) :
    ∀ d, findTemporalDivisor fnm t = (d, f) → 0 < d → Direct t →
      ∃ n : Nat, 0 < n ∧ d = scanLong n ∧ ∃ offset : (Input → Int) → Option Int,
        (∀ tup tup', SameBut f tup tup' → offset tup = offset tup') ∧
        ∀ tup, t.eval tup = (offset tup).map fun k ↦ (tup (.column f)).tdiv n + k := by
  have hnot {d : Int} (hneg : ((-1, fnm) : Int × String) = (d, f)) (hd : 0 < d) : False := by
    obtain ⟨rfl, -⟩ := Prod.mk.inj hneg
    omega
  induction t with
  | literal long n => exact fun d hfind hd ↦ (hnot hfind hd).elim
  | param name type => exact fun d hfind hd ↦ (hnot hfind hd).elim
  | unary op left ih => exact fun d hfind hd ↦ (hnot hfind hd).elim
  | aggr name type => exact fun d hfind hd ↦ (hnot hfind hd).elim
  | func name type => exact fun d hfind hd ↦ (hnot hfind hd).elim
  | gb field definition ih => exact ih
  | colref field type =>
    intro d hfind hd _
    rw [findTemporalDivisor] at hfind
    split at hfind
    · obtain ⟨rfl, rfl⟩ := Prod.mk.inj hfind
      refine ⟨1, Nat.one_pos, rfl, fun _ ↦ some 0, fun _ _ _ ↦ rfl, fun tup ↦ ?_⟩
      show some (tup (.column field)) = some ((tup (.column field)).tdiv (1 : Nat) + 0)
      rw [Nat.cast_one, Int.tdiv_one, add_zero]
    · obtain ⟨rfl, -⟩ := Prod.mk.inj hfind
      omega
  | binary op left right ihl ihr =>
    intro d hfind hd hdirect
    obtain ⟨-, ⟨hop, hleft⟩ | ⟨rfl, hfield, n, hn, rfl⟩⟩ := findTemporalDivisor_binary hfind hd
    · have hparts : Direct left ∧ right.isConstant = true := by
        rcases hop with rfl | rfl <;> exact hdirect
      obtain ⟨n, hpos, hscan, offset, hsame, heval⟩ := ihl d hleft hd hparts.1
      refine ⟨n, hpos, hscan, fun tup ↦ (offset tup).bind fun k ↦ (right.eval tup).bind fun y ↦
        op.apply k y, fun tup tup' hbut ↦ ?_, fun tup ↦ ?_⟩
      · show (offset tup).bind _ = (offset tup').bind _
        rw [hsame tup tup' hbut, eval_isConstant hbut hparts.2]
      · show (left.eval tup).bind (fun x ↦ (right.eval tup).bind fun y ↦ op.apply x y) = _
        rw [heval tup]
        exact apply_offset hop _ _ _
    · obtain ⟨long, rfl⟩ := getLiteral_eq_some hn
      obtain ⟨type, htype⟩ := hdirect f hfield
      have hpos : 0 < n := by
        rw [scanLong] at hd
        omega
      refine ⟨n, hpos, rfl, fun _ ↦ some 0, fun _ _ _ ↦ rfl, fun tup ↦ ?_⟩
      have hleft : left.eval tup = some (tup (.column f)) := by
        rw [← eval_inlined, htype]
        rfl
      show (left.eval tup).bind (fun x ↦ BinaryOp.apply .divide x n) =
        some ((tup (.column f)).tdiv n + 0)
      rw [hleft, add_zero]
      have hne : (n : Int) ≠ 0 := by omega
      exact if_neg hne

end

/-! ## Quotients -/

/-- Adding `m * n` adds no more than `m` to a quotient by `n`. -/
theorem tdiv_add_mul_le {n m : Int} (hn : 0 < n) (hm : 0 ≤ m) (v : Int) : (v + m * n).tdiv n ≤
    v.tdiv n + m := by
  rcases Int.le_total 0 (v + m * n) with hsum | hsum
  · have hfloor : v / n ≤ v.tdiv n := by
      rw [Int.tdiv_eq_ediv, Int.sign_eq_one_of_pos hn]
      split <;> omega
    rw [Int.tdiv_eq_ediv_of_nonneg hsum, Int.add_mul_ediv_right v m hn.ne']
    omega
  · have hprod : 0 ≤ m * n := Int.mul_nonneg hm hn.le
    have hneg : (v + m * n).tdiv n = -(-v / n - m) := by
      rw [← Int.neg_neg (v + m * n), Int.neg_tdiv, Int.tdiv_eq_ediv_of_nonneg (by omega)]
      have hsplit : -(v + m * n) = -v + -m * n := by ring
      rw [hsplit, Int.add_mul_ediv_right _ _ hn.ne', ← Int.sub_eq_add_neg]
    have hv : v.tdiv n = -(-v / n) := by
      rw [← Int.neg_neg v, Int.neg_tdiv, Int.tdiv_eq_ediv_of_nonneg (by omega), Int.neg_neg]
    rw [hneg, hv]
    omega

/-- **Values that differ by no more than `s` have quotients that differ by no more than `m` just if
`s ≤ m * n`.** -/
theorem forall_tdiv_sub_le_iff {n m s : Int} (hn : 0 < n) (hm : 0 ≤ m) (hs : 0 ≤ s) :
    (∀ v v' : Int, v - v' ≤ s → v.tdiv n - v'.tdiv n ≤ m) ↔ s ≤ m * n := by
  constructor
  · intro hall
    have hmost := hall (n - 1 + s) (n - 1) (by omega)
    have hsmall : (n - 1).tdiv n = 0 := Int.tdiv_eq_zero_of_lt (by omega) (by omega)
    rw [hsmall, Int.sub_zero, Int.tdiv_eq_ediv_of_nonneg (by omega)] at hmost
    have hlt : n - 1 + s < (m + 1) * n := Int.lt_mul_of_ediv_lt hn (by omega)
    have hexpand : (m + 1) * n = m * n + n := by ring
    omega
  · intro hle v v' hdiff
    have hmono : v.tdiv n ≤ (v' + m * n).tdiv n := Int.tdiv_le_tdiv hn (by omega)
    have hadd := tdiv_add_mul_le hn hm v'
    omega

/-! ## Slacks -/

theorem maxSlacker_concat (slacks : List Int64) (s : Int64) : maxSlacker (slacks ++ [s]) =
    if maxSlacker slacks < s.toInt then s.toInt else maxSlacker slacks := by
  rw [maxSlacker, List.foldl_append]
  rfl

theorem le_maxSlacker {slacks : List Int64} {s : Int64} (hs : s ∈ slacks) :
    s.toInt ≤ maxSlacker slacks := by
  induction slacks using List.reverseRecOn with
  | nil => cases hs
  | append_singleton slacks last ih =>
    rw [maxSlacker_concat]
    rcases List.mem_append.mp hs with hs | hs
    · have hle := ih hs
      split <;> omega
    · obtain rfl := List.mem_singleton.mp hs
      split <;> omega

/-- A largest slack is one of those declared. -/
theorem exists_maxSlacker {slacks : List Int64} (hpos : 0 < maxSlacker slacks) :
    ∃ s ∈ slacks, s.toInt = maxSlacker slacks := by
  induction slacks using List.reverseRecOn with
  | nil => exact absurd hpos (Int.lt_irrefl 0)
  | append_singleton slacks last ih =>
    rw [maxSlacker_concat] at hpos ⊢
    split at hpos
    · rename_i hlt
      rw [if_pos hlt]
      exact ⟨last, List.mem_append_right _ (List.mem_singleton_self last), rfl⟩
    · rename_i hlt
      rw [if_neg hlt]
      obtain ⟨s, hs, heq⟩ := ih hpos
      exact ⟨s, List.mem_append_left _ hs, heq⟩

theorem maxSlacker_lt (slacks : List Int64) : maxSlacker slacks < 2 ^ 63 := by
  rcases lt_or_ge 0 (maxSlacker slacks) with hpos | hnonpos
  · obtain ⟨s, -, heq⟩ := exists_maxSlacker hpos
    rw [← heq]
    exact s.toInt_lt
  · omega

theorem quotient_pos {s d : Int} (hs : 0 < s) (hd : 0 < d) : 0 < quotient s d := by
  have hs' : (0 : ℚ) < s := by exact_mod_cast hs
  have hd' : (0 : ℚ) < d := by exact_mod_cast hd
  exact Rounding.toBinary_pos (by norm_num)
    (div_pos (Rounding.toBinary_pos (by norm_num) hs') (Rounding.toBinary_pos (by norm_num) hd'))

/-- The slack that is computed is large enough just if nothing is lost by rounding. -/
theorem roundsOk_iff {s d : Int} (hd : 0 < d) :
    RoundsOk s d ↔ ⌈quotient s d⌉ < 2 ^ 63 ∧ s ≤ ⌈quotient s d⌉ * d := by
  have hbound : quotient s d ≤ 2 ^ 63 - 1 ↔ ⌈quotient s d⌉ < 2 ^ 63 := by
    rw [← Int.le_sub_one_iff, Int.ceil_le]
    norm_num
  rw [RoundsOk, hbound]
  refine and_congr_right fun _ ↦ ⟨fun hall ↦ hall _ (Int.le_ceil _), fun hle k hk ↦ ?_⟩
  exact hle.trans (Int.mul_le_mul_of_nonneg_right (Int.ceil_le.mpr hk) hd.le)

/-! ## The main result -/

section

variable {I : Type} {sources : List I} {getIfaceVals : I → String → List Int64} {t : ScalarExp}
  {f : String} {d : Int}

variable (sources getIfaceVals) in
/-- What the slack of the merge is, for a divisor that is positive. -/
theorem resolveSlack_eq (hfind : findTemporalDivisor "" t = (d, f)) (hd : 0 < d) :
    resolveSlack sources getIfaceVals t =
      if maxSlacker (declared sources getIfaceVals f) ≤ 0 then some none
      else if ⌈quotient (maxSlacker (declared sources getIfaceVals f)) d⌉ < 2 ^ 63 then
        some (some ⌈quotient (maxSlacker (declared sources getIfaceVals f)) d⌉)
      else none := by
  rw [resolveSlack, hfind]
  exact if_neg (Int.not_le.mpr hd)

/-- Some tuple gives the expression a value. -/
def HasValue (t : ScalarExp) : Prop := ∃ tup, (t.eval tup).isSome = true

/-- The differences of the values of a direct expression are those of the quotients. -/
theorem forall_eval_sub_iff {n : Nat} {offset : (Input → Int) → Option Int}
    {P : Int → Prop} {s : Int} (hsame : ∀ tup tup', SameBut f tup tup' → offset tup = offset tup')
    (heval : ∀ tup, t.eval tup = (offset tup).map fun k ↦ (tup (.column f)).tdiv n + k) :
    (∀ tup tup', SameBut f tup tup' → tup (.column f) - tup' (.column f) ≤ s →
        ∀ x ∈ t.eval tup, ∀ x' ∈ t.eval tup', P (x - x')) ↔
      (HasValue t → ∀ v v' : Int, v - v' ≤ s → P (v.tdiv n - v'.tdiv n)) := by
  constructor
  · rintro hall ⟨tup, hvalue⟩ v v' hdiff
    obtain ⟨x, hx⟩ := Option.isSome_iff_exists.mp hvalue
    rw [heval tup, Option.map_eq_some_iff] at hx
    obtain ⟨k, hk, -⟩ := hx
    -- the same tuple with another value of the field
    have hother (w : Int) : t.eval (update tup (.column f) w) = some (w.tdiv n + k) := by
      have hbut : SameBut f (update tup (.column f) w) tup :=
        fun i hi ↦ update_of_ne hi w tup
      rw [heval, hsame _ tup hbut, hk, update_self]
      rfl
    have hbut : SameBut f (update tup (.column f) v)
      (update tup (.column f) v') :=
      fun i hi ↦ (update_of_ne hi v tup).trans (update_of_ne hi v' tup).symm
    have hresult := hall _ _ hbut (by rwa [update_self, update_self]) _ (hother v)
      _ (hother v')
    rwa [Int.add_sub_add_right] at hresult
  · intro hall tup tup' hbut hdiff x hx x' hx'
    have hresult := hall ⟨tup, Option.isSome_iff_exists.mpr ⟨x, hx⟩⟩ _ _ hdiff
    rw [Option.mem_def, heval, Option.map_eq_some_iff] at hx hx'
    obtain ⟨k, hk, rfl⟩ := hx
    obtain ⟨k', hk', rfl⟩ := hx'
    obtain rfl : k = k' := Option.some.inj (hk.symm.trans ((hsame tup tup' hbut).trans hk'))
    rwa [Int.add_sub_add_right]

/-- Quotients differ by no more than a slack, if there is one. -/
theorem forall_slack_iff {r : Option (Option Int)} {n s : Int}
    (hr : ∀ slack, r = some slack → 0 ≤ slack.getD 0) (hn : 0 < n) (hs : 0 ≤ s) :
    (∀ v v' : Int, v - v' ≤ s → ∃ slack, r = some slack ∧ v.tdiv n - v'.tdiv n ≤ slack.getD 0) ↔
      ∃ slack, r = some slack ∧ s ≤ slack.getD 0 * n := by
  match r with
  | none =>
    refine iff_of_false (fun hall ↦ ?_) fun ⟨slack, hnone, _⟩ ↦ by cases hnone
    obtain ⟨slack, hnone, -⟩ := hall 0 0 (by omega)
    cases hnone
  | some slack =>
    have hall := forall_tdiv_sub_le_iff hn (hr slack rfl) hs
    constructor
    · intro hslack
      refine ⟨slack, rfl, hall.mp fun v v' hdiff ↦ ?_⟩
      obtain ⟨slack', heq, hle⟩ := hslack v v' hdiff
      rwa [Option.some.inj heq]
    · rintro ⟨slack', heq, hle⟩ v v' hdiff
      exact ⟨slack, rfl, hall.mpr ((Option.some.inj heq) ▸ hle) v v' hdiff⟩

/-- A slack is not larger than the largest literal that is read as it is. -/
theorem le_mul_scanLong_iff {n : Nat} {m s : Int} (hm : 0 < m) (hs : s < 2 ^ 63) :
    s ≤ m * scanLong n ↔ s ≤ m * n := by
  rcases le_or_gt (n : Int) (2 ^ 63 - 1) with hsmall | hlarge
  · rw [scanLong, min_eq_left hsmall]
  · rw [scanLong, min_eq_right hlarge.le]
    have hone : 1 * (2 ^ 63 - 1) ≤ m * (2 ^ 63 - 1) :=
      Int.mul_le_mul_of_nonneg_right (by omega) (by norm_num)
    have hlit : m * (2 ^ 63 - 1) ≤ m * n := Int.mul_le_mul_of_nonneg_left hlarge.le hm.le
    exact iff_of_true (by omega) (by omega)

/-- The declared slacks are covered just if nothing of the largest one is lost by rounding. -/
theorem forall_declared_iff {slacks : List Int64} {r : Option (Option Int)} {n : Nat}
    (hd : 0 < scanLong n) (hr : r = if maxSlacker slacks ≤ 0 then some none
      else if ⌈quotient (maxSlacker slacks) (scanLong n)⌉ < 2 ^ 63 then
        some (some ⌈quotient (maxSlacker slacks) (scanLong n)⌉)
      else none) :
    (∀ s ∈ slacks, 0 ≤ s.toInt → ∃ slack, r = some slack ∧ s.toInt ≤ slack.getD 0 * n) ↔
      (0 < maxSlacker slacks → RoundsOk (maxSlacker slacks) (scanLong n)) := by
  rcases le_or_gt (maxSlacker slacks) 0 with hzero | hpos
  · rw [if_pos hzero] at hr
    refine iff_of_true (fun s hs _ ↦ ⟨none, hr, ?_⟩) fun hpos ↦ absurd hpos (Int.not_lt.mpr hzero)
    have hle := le_maxSlacker hs
    show s.toInt ≤ 0 * n
    omega
  · rw [if_neg (Int.not_le.mpr hpos)] at hr
    obtain ⟨top, htop, heq⟩ := exists_maxSlacker hpos
    have hceil : 0 < ⌈quotient (maxSlacker slacks) (scanLong n)⌉ :=
      Int.ceil_pos.mpr (quotient_pos hpos hd)
    rw [roundsOk_iff hd, le_mul_scanLong_iff hceil (maxSlacker_lt slacks)]
    by_cases hfits : ⌈quotient (maxSlacker slacks) (scanLong n)⌉ < 2 ^ 63
    · rw [if_pos hfits] at hr
      constructor
      · intro hall _
        obtain ⟨slack, hslack, hle⟩ := hall top htop (by omega)
        obtain rfl := Option.some.inj (hr.symm.trans hslack)
        exact ⟨hfits, heq ▸ hle⟩
      · intro hrounds s hs _
        exact ⟨_, hr, (le_maxSlacker hs).trans (hrounds hpos).2⟩
    · rw [if_neg hfits] at hr
      refine iff_of_false (fun hall ↦ ?_) fun hrounds ↦ hfits (hrounds hpos).1
      obtain ⟨slack, hslack, -⟩ := hall top htop (by omega)
      rw [hr] at hslack
      cases hslack

/-- The slack of a merge is not negative. -/
theorem getD_resolveSlack_nonneg (hfind : findTemporalDivisor "" t = (d, f)) (hd : 0 < d)
    {slack : Option Int} (hslack : resolveSlack sources getIfaceVals t = some slack) :
      0 ≤ slack.getD 0 := by
  rw [resolveSlack_eq sources getIfaceVals hfind hd] at hslack
  split at hslack
  · obtain rfl := Option.some.inj hslack
    exact Int.le_refl 0
  · rename_i hpos
    split at hslack
    · obtain rfl := Option.some.inj hslack
      exact (Int.ceil_pos.mpr (quotient_pos (Int.not_le.mp hpos) hd)).le
    · cases hslack

/-- The values of a direct expression differ by no more than the slack if none is lost by
rounding. -/
theorem covers_iff (hfind : findTemporalDivisor "" t = (d, f)) (hd : 0 < d) (hdirect : Direct t) :
    Covers sources getIfaceVals f t ↔
      (HasValue t → 0 < maxSlacker (declared sources getIfaceVals f) →
        RoundsOk (maxSlacker (declared sources getIfaceVals f)) d) := by
  obtain ⟨n, hn, rfl, offset, hsame, heval⟩ := exists_offset t d hfind hd hdirect
  have hdeclared := forall_declared_iff (n := n) hd (resolveSlack_eq sources getIfaceVals hfind hd)
  have hcovers (s : Int) (hs : 0 ≤ s) := (forall_eval_sub_iff (s := s) (P := fun x ↦ ∃ slack,
    resolveSlack sources getIfaceVals t = some slack ∧ x ≤ slack.getD 0) hsame heval).trans
    (imp_congr_right fun _ ↦ forall_slack_iff
      (fun slack hslack ↦ getD_resolveSlack_nonneg hfind hd hslack) (Int.natCast_pos.mpr hn) hs)
  constructor
  · intro hall hvalue
    exact hdeclared.mp fun s hs hnonneg ↦ (hcovers s.toInt hnonneg).mp (hall s hs hnonneg) hvalue
  · intro hrounds s hs hnonneg
    exact (hcovers s.toInt hnonneg).mpr fun hvalue ↦ hdeclared.mpr (hrounds hvalue) s hs hnonneg

end

/-- A column of seconds. -/
def time : ScalarExp := .colref "time" ⟨.uLlong, .increasing⟩

/-- A declared slack of `2 ^ 53 + 1`. -/
def largeSlack (_ : Unit) (rname : String) : List Int64 :=
  if rname = "Slack_time" then [9007199254740993] else []

/-- As a `double`, the slack is one smaller. -/
theorem quotient_largeSlack : quotient 9007199254740993 1 = 9007199254740992 := by
  have hplace {n : Nat} (hle : 2 ^ 53 ≤ n) (hlt : n < 2 ^ 54) : Rounding.lastPlace 53 (n : ℚ) = 2 :=
    Rounding.lastPlace_natCast (k := 0) (Nat.log_eq_of_pow_le_of_lt_pow hle hlt)
  have hslack : Rounding.toBinary 53 ((9007199254740993 : Nat) : ℚ) = 9007199254740992 := by
    have hfloor : ⌊((9007199254740993 : Nat) : ℚ) / 2⌋ = 4503599627370496 := by
      rw [Int.floor_eq_iff]
      norm_num
    rw [Rounding.toBinary, hplace (by norm_num) (by norm_num), Rounding.roundEven, hfloor]
    norm_num
  have hexact : Rounding.toBinary 53 ((9007199254740992 : Nat) : ℚ) = 9007199254740992 := by
    have hround := Rounding.roundEven_intCast 4503599627370496
    rw [Rounding.toBinary, hplace (by norm_num) (by norm_num)]
    norm_num at hround ⊢
    rw [hround]
    norm_num
  have hone : Rounding.toBinary 53 ((1 : Int) : ℚ) = (1 : Int) :=
    Rounding.toBinary_intCast (by norm_num)
  have hcast : ((9007199254740993 : Int) : ℚ) = ((9007199254740993 : Nat) : ℚ) := by norm_num
  rw [quotient, hone, hcast, hslack, Int.cast_one, div_one]
  exact_mod_cast hexact

end Tigon.Ftacmp.MergeSlack
