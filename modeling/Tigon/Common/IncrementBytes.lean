import Tigon.Lib.Bytes

/-!
# Incrementing a big-endian number

`Bytes.incrementBytes` adds a number to the one that is in an array of at most eight bytes, byte by
byte from the last one on, with a loop for positive and one for negative numbers.

The loops take a byte of what is left of the amount as `((int) amo % 256)`.  Where this is negative,
as the lower half of `amo` is, it is less than the byte by 256, and nothing makes up for it: the
amount that is left is too small by one.

* `carryInto` — what is left of the amount at a byte, with the carry from the bytes behind it;
* `incrementBytes_eq_iff` — **exactly when the sum is right.**
-/

set_option autoImplicit false

namespace Tigon.Common

inductive Exc
  | arrayIndexOutOfBounds
  | illegalArgument (message : String)
deriving DecidableEq, Repr

/-- `((int) amo % 256)`. -/
def intMod (amo : BitVec 64) : Int := (amo.setWidth 32).toInt.tmod 256

/-- The rounds of `binaryIncrementPos`, from the last byte on. -/
def posLoop (sign : Int) : BitVec 64 → List UInt8 → List UInt8
  | _, [] => []
  | amo, b :: value =>
    let cur := intMod amo * sign
    let amo := amo.sshiftRight 8
    let val : Int := b.toNat
    let total := val + cur
    let (amo, total) :=
      if total > 255 then (amo + BitVec.ofInt 64 sign, total.tmod 256)
      else if total < 0 then (amo - BitVec.ofInt 64 sign, total)
      else (amo, total)
    UInt8.ofInt total :: if amo = 0 then value else posLoop sign amo value

/-- The rounds of `binaryIncrementNeg`, from the last byte on. -/
def negLoop (sign : Int) : BitVec 64 → List UInt8 → List UInt8
  | _, [] => []
  | amo, b :: value =>
    let cur := intMod amo * sign
    let amo := amo.sshiftRight 8
    let val : Int := (~~~b).toNat + 1
    let total := cur - val
    let (amo, total) :=
      if total ≥ 0 then (amo + BitVec.ofInt 64 sign, total)
      else if total < -256 then (amo - BitVec.ofInt 64 sign, total.tmod 256)
      else (amo, total)
    UInt8.ofInt total :: if amo = 0 then value else negLoop sign amo value

def binaryIncrementPos (value : List UInt8) (amount : BitVec 64) : List UInt8 :=
  (if amount.slt 0 then posLoop (-1) (-amount) value.reverse else posLoop 1 amount
    value.reverse).reverse

def binaryIncrementNeg (value : List UInt8) (amount : BitVec 64) : List UInt8 :=
  (if amount.slt 0 then negLoop (-1) (-amount) value.reverse else negLoop 1 amount
    value.reverse).reverse

/-- The value in eight bytes. -/
def extend (value : List UInt8) (first : UInt8) : List UInt8 :=
  List.replicate (8 - value.length) (if first.toInt8 < 0 then 255 else 0) ++ value

def incrementBytes (value : List UInt8) (amount : BitVec 64) : Except Exc (List UInt8) :=
  match value with
  | [] => .error .arrayIndexOutOfBounds
  | first :: _ =>
    if 8 < value.length then .error (.illegalArgument
      s!"Increment Bytes - value too big: {value.length}")
    else
      let val := extend value first
      if amount = 0 then .ok val
      else if (val.headD 0).toInt8 < 0 then .ok (binaryIncrementNeg val amount)
      else .ok (binaryIncrementPos val amount)

/-- The number in two's complement. -/
def signed (value : List UInt8) : Int :=
  if (value.headD 0).toInt8 < 0 then (Bytes.ofBytes value : Int) - 256 ^ value.length
    else Bytes.ofBytes value

/-- What is left of the amount at the byte with `i` bytes behind it, with the carry from these. -/
def carryInto (value amount : Int) (i : Nat) : Int := (value % 256 ^ i + amount) / 256 ^ i

/-! ## One round -/

/-- The byte that is taken is not the last one of the amount. -/
def Bad (amo : Int) : Prop := 2 ^ 31 ≤ amo % 2 ^ 32 ∧ amo % 256 ≠ 0

instance instDecidableBad (amo : Int) : Decidable (Bad amo) := inferInstanceAs (Decidable (_ ∧ _))

theorem intMod_eq (amo : BitVec 64) : intMod amo = amo.toInt % 256 - if Bad amo.toInt
    then 256 else 0 := by
  have hmod : (amo.toNat : Int) % 2 ^ 32 = amo.toInt % 2 ^ 32 := by
    rw [BitVec.toInt_eq_toNat_cond]
    split <;> omega
  have hword : (amo.setWidth 32).toInt = amo.toInt % 2 ^ 32 - if 2 ^ 31 ≤ amo.toInt % 2 ^ 32
    then 2 ^ 32 else 0 := by
    rw [BitVec.toInt_setWidth, Int.bmod_eq_emod]
    norm_num at hmod ⊢
    rw [hmod]
  rw [intMod, Int.tmod_eq_emod, hword]
  unfold Bad
  generalize amo.toInt = a
  split_ifs <;> omega

theorem ofInt_congr {m n : Int} (h : m % 256 = n % 256) : UInt8.ofInt m = UInt8.ofInt n := by
  have h' : m % 2 ^ 8 = n % 2 ^ 8 := h
  rw [UInt8.ofInt, UInt8.ofInt, h']

theorem toNat_ofInt (n : Int) : ((UInt8.ofInt n).toNat : Int) = n % 256 := by
  rw [UInt8.ofInt, UInt8.toNat_ofNat']
  omega

theorem toInt_shift_add (amo : BitVec 64) {n : Int} (hn : -1 ≤ n ∧ n ≤ 1) :
    (amo.sshiftRight 8 + BitVec.ofInt 64 n).toInt = amo.toInt / 256 + n := by
  have hlower := BitVec.le_toInt amo
  have hupper := BitVec.toInt_lt (x := amo)
  norm_num at hlower hupper
  have hofInt : (BitVec.ofInt 64 n).toInt = n := by
    rw [BitVec.toInt_ofInt]
    exact Int.bmod_eq_of_le (by norm_num; omega) (by norm_num; omega)
  rw [BitVec.toInt_add, BitVec.toInt_sshiftRight, Int.shiftRight_eq_div_pow, hofInt]
  exact Int.bmod_eq_of_le (by norm_num; omega) (by norm_num; omega)

variable {sign : Int}

/-- **One round:** the byte of the sum, and what is left of the amount. -/
theorem exists_posLoop_cons (hsign : sign = 1 ∨ sign = -1) (amo : BitVec 64) (b : UInt8)
    (value : List UInt8) : ∃ amo' : BitVec 64, posLoop sign amo (b :: value) =
        UInt8.ofInt (b.toNat + sign * amo.toInt) ::
          (if amo' = 0 then value else posLoop sign amo' value) ∧
      sign * amo'.toInt = (b.toNat + sign * amo.toInt) / 256 - if Bad amo.toInt
        then sign else 0 := by
  have hb := b.toNat_lt
  have hcur := intMod_eq amo
  have hshift : (amo.sshiftRight 8).toInt = amo.toInt / 256 := by
    rw [BitVec.toInt_sshiftRight, Int.shiftRight_eq_div_pow]
    rfl
  have hadd : (amo.sshiftRight 8 + BitVec.ofInt 64 sign).toInt = amo.toInt / 256 + sign :=
    toInt_shift_add amo (by omega)
  have hsub : (amo.sshiftRight 8 - BitVec.ofInt 64 sign).toInt = amo.toInt / 256 - sign := by
    rw [BitVec.sub_eq_add_neg, ← BitVec.ofInt_neg, toInt_shift_add amo (by omega),
      Int.sub_eq_add_neg]
  -- the difference of the byte that is taken and the last byte
  obtain ⟨d, hd, hbad⟩ : ∃ d : Int, intMod amo = amo.toInt % 256 - 256 * d ∧
      (if Bad amo.toInt then sign else 0) = sign * d ∧ (d = 0 ∨ d = 1 ∧ amo.toInt % 256 ≠ 0) := by
    by_cases h : Bad amo.toInt
    · exact ⟨1, by rw [hcur, if_pos h]; rfl, by rw [if_pos h, mul_one], .inr ⟨rfl, h.2⟩⟩
    · exact ⟨0, by rw [hcur, if_neg h]; rfl, by rw [if_neg h, mul_zero], .inl rfl⟩
  rw [hbad.1]
  by_cases hover : (b.toNat : Int) + intMod amo * sign > 255
  · refine ⟨amo.sshiftRight 8 + BitVec.ofInt 64 sign, ?_, ?_⟩
    · simp only [posLoop, if_pos hover]
      congr 1
      refine ofInt_congr ?_
      rw [Int.tmod_eq_emod_of_nonneg (by omega)]
      rcases hsign with rfl | rfl <;> omega
    · rw [hadd]
      rcases hsign with rfl | rfl <;> omega
  · by_cases hunder : (b.toNat : Int) + intMod amo * sign < 0
    · refine ⟨amo.sshiftRight 8 - BitVec.ofInt 64 sign, ?_, ?_⟩
      · simp only [posLoop, if_neg hover, if_pos hunder]
        congr 1
        refine ofInt_congr ?_
        rcases hsign with rfl | rfl <;> omega
      · rw [hsub]
        rcases hsign with rfl | rfl <;> omega
    · refine ⟨amo.sshiftRight 8, ?_, ?_⟩
      · simp only [posLoop, if_neg hover, if_neg hunder]
        congr 1
        refine ofInt_congr ?_
        rcases hsign with rfl | rfl <;> omega
      · rw [hshift]
        rcases hsign with rfl | rfl <;> omega

/-- The two loops do the same. -/
theorem negLoop_eq (sign : Int) (amo : BitVec 64) (value : List UInt8) : negLoop sign amo value =
    posLoop sign amo value := by
  induction value generalizing amo with
  | nil => rfl
  | cons b value ih =>
    have hnot : ((~~~b).toNat : Int) = 255 - b.toNat := by
      have hb := b.toNat_lt
      rw [UInt8.toNat_not, UInt8.size]
      omega
    by_cases hover : (b.toNat : Int) + intMod amo * sign > 255
    · have hover' : intMod amo * sign - (((~~~b).toNat : Int) + 1) ≥ 0 := by omega
      simp only [posLoop, negLoop, if_pos hover, if_pos hover', ih]
      congr 1
      refine ofInt_congr ?_
      rw [Int.tmod_eq_emod_of_nonneg (by omega)]
      omega
    · have hover' : ¬ intMod amo * sign - (((~~~b).toNat : Int) + 1) ≥ 0 := by omega
      by_cases hunder : (b.toNat : Int) + intMod amo * sign < 0
      · have hunder' : intMod amo * sign - (((~~~b).toNat : Int) + 1) < -256 := by omega
        simp only [posLoop, negLoop, if_neg hover, if_pos hunder, if_neg hover', if_pos hunder', ih]
        congr 1
        refine ofInt_congr ?_
        rw [Int.tmod_eq_emod]
        split_ifs <;> omega
      · have hunder' : ¬ intMod amo * sign - (((~~~b).toNat : Int) + 1) < -256 := by omega
        simp only [posLoop, negLoop, if_neg hover, if_neg hunder, if_neg hover', if_neg hunder', ih]
        congr 1
        refine ofInt_congr ?_
        omega

theorem posLoop_zero (hsign : sign = 1 ∨ sign = -1) (value : List UInt8) :
    posLoop sign 0 value = value := by
  cases value with
  | nil => rfl
  | cons b value =>
    obtain ⟨amo', hloop, hamo⟩ := exists_posLoop_cons hsign 0 b value
    have hb := b.toNat_lt
    have hbad : ¬ Bad (0 : BitVec 64).toInt := by decide
    have hzero : amo' = 0 := by
      refine BitVec.eq_of_toInt_eq ?_
      rw [if_neg hbad] at hamo
      simp only [BitVec.ofNat_eq_ofNat, BitVec.toInt_zero, mul_zero, add_zero] at hamo ⊢
      rcases hsign with rfl | rfl <;> omega
    have hbyte : UInt8.ofInt ((b.toNat : Int) + sign * (0 : BitVec 64).toInt) = b := by
      have hbyte := toNat_ofInt ((b.toNat : Int) + sign * (0 : BitVec 64).toInt)
      rw [BitVec.ofNat_eq_ofNat, BitVec.toInt_zero, mul_zero, add_zero] at hbyte ⊢
      rw [← UInt8.toNat_inj]
      omega
    rw [hloop, if_pos hzero, hbyte]

/-- **One round,** whether or not it is the last one. -/
theorem exists_posLoop (hsign : sign = 1 ∨ sign = -1) (amo : BitVec 64) (b : UInt8)
    (value : List UInt8) : ∃ amo' : BitVec 64, posLoop sign amo (b :: value) =
        UInt8.ofInt (b.toNat + sign * amo.toInt) :: posLoop sign amo' value ∧
      sign * amo'.toInt = (b.toNat + sign * amo.toInt) / 256 - if Bad amo.toInt
        then sign else 0 := by
  obtain ⟨amo', hloop, hamo⟩ := exists_posLoop_cons hsign amo b value
  refine ⟨amo', ?_, hamo⟩
  rw [hloop]
  split
  case isTrue h => rw [h, posLoop_zero hsign]
  case isFalse => rfl

/-! ## All rounds -/

/-- The number that the bytes stand for, the last byte first. -/
def number (value : List UInt8) : Int :=
  ((Nat.ofDigits (256 : Nat) (value.map UInt8.toNat) : Nat) : Int)

@[simp] theorem number_nil : number [] = 0 := rfl

@[simp] theorem number_cons (b : UInt8) (value : List UInt8) : number (b :: value) = b.toNat + 256 *
    number value := by
  rw [number, List.map_cons, Nat.ofDigits_cons, Nat.cast_add, Nat.cast_mul]
  rfl

theorem length_posLoop (hsign : sign = 1 ∨ sign = -1) (amo : BitVec 64) (value : List UInt8) :
    (posLoop sign amo value).length = value.length := by
  induction value generalizing amo with
  | nil => rfl
  | cons b value ih =>
    obtain ⟨amo', hloop, -⟩ := exists_posLoop hsign amo b value
    rw [hloop, List.length_cons, List.length_cons, ih]

theorem add_mul_emod {x m : Int} (hx : 0 ≤ x ∧ x < 256) (hm : 0 < m) (y : Int) :
    (x + 256 * y) % (256 * m) = x + 256 * (y % m) := by
  have hy := Int.mul_ediv_add_emod y m
  have hlower := Int.emod_nonneg y hm.ne'
  have hupper := Int.emod_lt_of_pos y hm
  have hsplit : x + 256 * y = x + 256 * (y % m) + 256 * m * (y / m) := by
    conv_lhs => rw [← hy]
    ring
  rw [hsplit, Int.add_mul_emod_self_left, Int.emod_eq_of_lt (by omega) (by omega)]

/-- No byte that is taken from the amount `q` is a bad one, apart from the last one. -/
def Clean (sign : Int) : Int → List UInt8 → Prop
  | _, [] => True
  | _, [_] => True
  | q, b :: b' :: value => ¬ Bad (sign * q) ∧ Clean sign ((b.toNat + q) / 256) (b' :: value)

/-- **The bytes are those of the sum exactly if no bad byte was taken.** -/
theorem number_posLoop_iff (hsign : sign = 1 ∨ sign = -1) (amo : BitVec 64) (value : List UInt8) :
    number (posLoop sign amo value) % 256 ^ value.length = (number value + sign * amo.toInt) % 256 ^
      value.length ↔ Clean sign (sign * amo.toInt) value := by
  induction value generalizing amo with
  | nil => exact iff_of_true (by simp) trivial
  | cons b value ih =>
    obtain ⟨amo', hloop, hamo⟩ := exists_posLoop hsign amo b value
    have hbyte := toNat_ofInt (b.toNat + sign * amo.toInt)
    set q := sign * amo.toInt with hq
    have hm : (0 : Int) < 256 ^ value.length := by positivity
    have hsum : (b.toNat : Int) + 256 * number value + q = (b.toNat + q) % 256 + 256 *
      (number value + (b.toNat + q) / 256) := by
      have := Int.emod_add_mul_ediv (b.toNat + q) 256
      linarith
    -- the byte is right; it is the number before it that matters
    have hrest : number (posLoop sign amo (b :: value)) % 256 ^ (b :: value).length =
        (number (b :: value) + q) % 256 ^ (b :: value).length ↔
          number (posLoop sign amo' value) % 256 ^ value.length =
            (number value + (b.toNat + q) / 256) % 256 ^ value.length := by
      rw [hloop, number_cons, number_cons, hbyte, hsum, List.length_cons, pow_succ',
        add_mul_emod (by omega) hm, add_mul_emod (by omega) hm]
      constructor
      · intro h
        linarith
      · intro h
        rw [h]
    rw [hrest]
    cases value with
    | nil =>
      exact iff_of_true (by rw [List.length_nil, pow_zero, Int.emod_one, Int.emod_one]) trivial
    | cons b' value =>
      have hA : sign * q = amo.toInt := by
        rcases hsign with rfl | rfl <;> rw [hq] <;> ring
      rw [Clean, hA]
      by_cases hbad : Bad amo.toInt
      · rw [if_pos hbad] at hamo
        refine iff_of_false (fun h ↦ ?_) fun h ↦ h.1 hbad
        -- the next byte is that of a sum that is too small by one
        obtain ⟨amo'', hloop', -⟩ := exists_posLoop hsign amo' b' value
        have hbyte' := toNat_ofInt (b'.toNat + sign * amo'.toInt)
        have hdvd : (256 : Int) ∣ 256 ^ (b' :: value).length :=
          dvd_pow_self 256 (Nat.succ_ne_zero _)
        have hmod := congrArg (fun n : Int ↦ n % 256) h
        rw [Int.emod_emod_of_dvd _ hdvd, Int.emod_emod_of_dvd _ hdvd, hloop', number_cons,
          number_cons, hbyte'] at hmod
        rcases hsign with rfl | rfl <;> omega
      · rw [if_neg hbad, sub_zero] at hamo
        rw [← hamo, ih amo', and_iff_right hbad]

theorem clean_iff (q : Int) (value : List UInt8) :
    Clean sign q value ↔ ∀ i < value.length - 1,
      ¬ Bad (sign * ((number (value.take i) + q) / 256 ^ i)) := by
  induction value generalizing q with
  | nil => simp [Clean]
  | cons b value ih =>
    cases value with
    | nil => simp [Clean]
    | cons b' value =>
      have hcarry : ∀ i, (number (((b :: b' :: value) : List UInt8).take (i + 1)) + q) /
          256 ^ (i + 1) = (number ((b' :: value).take i) + (b.toNat + q) / 256) / 256 ^ i := by
        intro i
        rw [List.take_succ_cons, number_cons, pow_succ', ← Int.ediv_ediv_of_nonneg (by norm_num)]
        congr 1
        omega
      rw [Clean, ih]
      simp only [List.length_cons, Nat.add_sub_cancel]
      constructor
      · rintro ⟨hfirst, hrest⟩ i hi
        cases i with
        | zero => simpa using hfirst
        | succ i =>
          rw [hcarry]
          exact hrest i (by omega)
      · intro h
        refine ⟨by simpa using h 0 (by omega), fun i hi ↦ ?_⟩
        rw [← hcarry]
        exact h (i + 1) (by omega)

/-! ## The bytes in their order -/

theorem number_reverse (value : List UInt8) : number value.reverse = Bytes.ofBytes value := by
  induction value using List.reverseRecOn with
  | nil => rfl
  | append_singleton value b ih =>
    rw [List.reverse_append, List.reverse_singleton, List.singleton_append, number_cons, ih,
      Bytes.ofBytes_append]
    push_cast
    ring

theorem number_lt (value : List UInt8) : 0 ≤ number value ∧ number value < 256 ^ value.length := by
  have hlt := Nat.ofDigits_lt_base_pow_length (b := 256) (l := value.map UInt8.toNat) (by norm_num)
    (by simpa using fun b _ ↦ b.toNat_lt)
  rw [List.length_map] at hlt
  refine ⟨Int.natCast_nonneg _, ?_⟩
  rw [number]
  exact_mod_cast hlt

theorem number_inj {value value' : List UInt8} (hlength : value.length = value'.length) :
    number value = number value' ↔ value = value' := by
  refine ⟨fun h ↦ ?_, congrArg number⟩
  have hdigits : value.map UInt8.toNat = value'.map UInt8.toNat := by
    refine Nat.ofDigits_inj_of_len_eq (b := 256) (by norm_num) (by simpa using hlength)
      (by simpa using fun b _ ↦ b.toNat_lt) (by simpa using fun b _ ↦ b.toNat_lt)
      (Int.natCast_inj.mp h)
  exact (List.map_injective_iff.mpr fun b b' hb ↦ UInt8.toNat_inj.mp hb) hdigits

theorem number_take (value : List UInt8) {i : Nat} (hi : i ≤ value.length) :
    number (value.take i) = number value % 256 ^ i := by
  induction value generalizing i with
  | nil => simp at hi; simp [hi]
  | cons b value ih =>
    cases i with
    | zero => simp
    | succ i =>
      have hb := b.toNat_lt
      rw [List.take_succ_cons, number_cons, number_cons, ih (Nat.le_of_succ_le_succ hi), pow_succ',
        add_mul_emod (by omega) (by positivity)]

theorem number_append (value value' : List UInt8) :
    number (value ++ value') = number value + 256 ^ value.length * number value' := by
  rw [number, List.map_append, Nat.ofDigits_append, List.length_map, Nat.cast_add, Nat.cast_mul,
    Nat.cast_pow]
  rfl

theorem number_replicate_255 (n : Nat) : number (List.replicate n 255) = 256 ^ n - 1 := by
  induction n with
  | zero => rfl
  | succ n ih =>
    have hbyte : ((255 : UInt8).toNat : Int) = 255 := rfl
    rw [List.replicate_succ, number_cons, ih, pow_succ, hbyte]
    ring

theorem number_replicate_zero (n : Nat) : number (List.replicate n 0) = 0 := by
  induction n with
  | zero => rfl
  | succ n ih =>
    rw [List.replicate_succ, number_cons, ih]
    rfl

variable {value : List UInt8}

theorem length_extend (hlength : value.length ≤ 8) (first : UInt8) :
    (extend value first).length = 8 := by
  rw [extend, List.length_append, List.length_replicate]
  omega

/-- The value is extended with its sign. -/
theorem number_extend {first : UInt8} {rest : List UInt8} (hlength : (first :: rest).length ≤ 8) :
    number (extend (first :: rest) first).reverse = signed (first :: rest) % 256 ^ 8 := by
  have hsplit : (256 : Int) ^ (first :: rest).length * 256 ^ (8 - (first :: rest).length) =
    256 ^ 8 := by
    rw [← pow_add]
    congr 1
    omega
  have hlt := number_lt (first :: rest).reverse
  rw [number_reverse, List.length_reverse] at hlt
  have hle : (256 : Int) ^ (first :: rest).length ≤ 256 ^ 8 :=
    pow_le_pow_right₀ (by norm_num) hlength
  rw [extend, List.reverse_append, List.reverse_replicate, number_append, number_reverse,
    List.length_reverse, signed, List.headD_cons]
  split
  case isTrue =>
    rw [number_replicate_255, mul_sub, hsplit, ← Int.add_emod_right,
      Int.emod_eq_of_lt (by omega) (by omega)]
    ring
  case isFalse => rw [number_replicate_zero, mul_zero, add_zero,
    Int.emod_eq_of_lt hlt.1 (hlt.2.trans_le hle)]

/-- Each of the bytes that are taken from the amount is a byte of it. -/
def Exact (value amount : Int) : Prop :=
  ∀ i < 4, |carryInto value amount i| % 2 ^ 32 < 2 ^ 31 ∨ (256 : Int) ∣ carryInto value amount i

/-- The bytes behind a byte matter by their carry only. -/
theorem clean_reverse_iff (q v : Int) (hlength : value.length = 8)
    (hvalue : number value.reverse = v % 256 ^ 8) :
    Clean sign q value.reverse ↔ ∀ i < 7, ¬ Bad (sign * carryInto v q i) := by
  rw [clean_iff, List.length_reverse, hlength]
  refine forall₂_congr fun i hi ↦ ?_
  have hdvd : (256 : Int) ^ i ∣ 256 ^ 8 := pow_dvd_pow 256 (by omega)
  rw [number_take _ (by rw [List.length_reverse]; omega), hvalue,
    Int.emod_emod_of_dvd _ hdvd, carryInto]

/-- The loop gives the bytes of the sum exactly if no bad byte is taken. -/
theorem reverse_posLoop_iff (hsign : sign = 1 ∨ sign = -1) (amo : BitVec 64) (v a : Int)
    (hlength : value.length = 8) (hvalue : number value.reverse = v % 256 ^ 8)
    (ha : (sign * amo.toInt) % 2 ^ 64 = a % 2 ^ 64) :
    (posLoop sign amo value.reverse).reverse = Bytes.toBytes 8 ((v + a) % 2 ^ 64).toNat ↔
      ∀ i < 7, ¬ Bad (sign * carryInto v (sign * amo.toInt) i) := by
  have hlen : (posLoop sign amo value.reverse).length = 8 := by
    rw [length_posLoop hsign, List.length_reverse, hlength]
  have hloop := number_lt (posLoop sign amo value.reverse)
  have hbytes : number (Bytes.toBytes 8 ((v + a) % 2 ^ 64).toNat).reverse = (v + a) % 2 ^ 64 := by
    rw [number_reverse, Bytes.ofBytes_toBytes (by norm_num; omega), Int.toNat_of_nonneg (by omega)]
  rw [List.reverse_eq_iff, ← number_inj (by rw [hlen, List.length_reverse, Bytes.length_toBytes]),
    hbytes, ← clean_reverse_iff _ v hlength hvalue, ← number_posLoop_iff hsign, List.length_reverse,
      hlength, hvalue]
  rw [hlen] at hloop
  norm_num at hloop ha ⊢
  omega

theorem not_bad_iff {n q : Int} (h : n = |q|) : ¬ Bad n ↔ |q| % 2 ^ 32 < 2 ^ 31 ∨
    (256 : Int) ∣ q := by
  rw [Bad, h, ← dvd_abs 256 q, Int.dvd_iff_emod_eq_zero]
  omega

/-- Behind the fourth byte the carry is small. -/
theorem abs_carryInto_le {v a : Int} (ha : -2 ^ 63 ≤ a ∧ a < 2 ^ 63) {i : Nat} (hi : 4 ≤ i) :
    |carryInto v a i| ≤ 2 ^ 31 := by
  have hpow : (256 : Int) ^ 4 ≤ 256 ^ i := pow_le_pow_right₀ (by norm_num) hi
  have hpos : (0 : Int) < 256 ^ i := by positivity
  have hnonneg := Int.emod_nonneg v hpos.ne'
  have hlt := Int.emod_lt_of_pos v hpos
  rw [abs_le, carryInto]
  generalize (256 : Int) ^ i = m at hpow hpos hnonneg hlt ⊢
  exact ⟨Int.le_ediv_of_mul_le hpos (by omega),
    Int.lt_add_one_iff.mp (Int.ediv_lt_of_lt_mul hpos (by omega))⟩

/-- The carry of the least amount, or of its negation. -/
theorem dvd_carryInto (v c : Int) {i : Nat} (hi : i < 7) : (256 : Int) ∣
    carryInto v (2 ^ 63 * c) i := by
  have hpos : (0 : Int) < 256 ^ i := by positivity
  have hsplit : (2 : Int) ^ 63 * c = 256 ^ i * (2 ^ (63 - 8 * i) * c) := by
    rw [← mul_assoc, show (256 : Int) = 2 ^ 8 by norm_num, ← pow_mul, ← pow_add]
    congr 2
    omega
  have hcarry : carryInto v (2 ^ 63 * c) i = 2 ^ (63 - 8 * i) * c := by
    rw [carryInto, hsplit, Int.add_mul_ediv_left _ _ hpos.ne',
      Int.ediv_eq_zero_of_lt (Int.emod_nonneg v hpos.ne') (Int.emod_lt_of_pos v hpos), zero_add]
  rw [hcarry]
  exact (pow_dvd_pow 2 (by omega : 8 ≤ 63 - 8 * i)).mul_right c

/-- Behind the fourth byte no byte is a bad one. -/
theorem forall_not_bad_iff {sign v a : Int} (ha : -2 ^ 63 ≤ a ∧ a < 2 ^ 63)
    (hsign : ∀ i < 7, sign * carryInto v a i = |carryInto v a i|) :
    (∀ i < 7, ¬ Bad (sign * carryInto v a i)) ↔ Exact v a := by
  constructor
  · intro h i hi
    exact (not_bad_iff (hsign i (by omega))).mp (h i (by omega))
  · intro h i hi
    by_cases hi' : i < 4
    · exact (not_bad_iff (hsign i hi)).mpr (h i hi')
    · rw [hsign i hi, Bad]
      have hle := abs_carryInto_le (v := v) ha (Nat.le_of_not_lt hi')
      have hnonneg := abs_nonneg (carryInto v a i)
      omega

theorem binaryIncrementNeg_eq (value : List UInt8) (amount : BitVec 64) :
    binaryIncrementNeg value amount = binaryIncrementPos value amount := by
  rw [binaryIncrementNeg, binaryIncrementPos, negLoop_eq, negLoop_eq]

theorem binaryIncrementPos_eq_iff (hlength : value.length = 8) {v : Int}
    (hvalue : number value.reverse = v % 256 ^ 8) (amount : BitVec 64) :
    binaryIncrementPos value amount = Bytes.toBytes 8 ((v + amount.toInt) % 2 ^ 64).toNat ↔
      Exact v amount.toInt := by
  have hlower : -2 ^ 63 ≤ amount.toInt := BitVec.le_toInt amount
  have hupper : amount.toInt < 2 ^ 63 := BitVec.toInt_lt
  have hmod : ∀ i, 0 ≤ v % 256 ^ i ∧ v % 256 ^ i < 256 ^ i := fun i ↦
    ⟨Int.emod_nonneg v (by positivity), Int.emod_lt_of_pos v (by positivity)⟩
  rw [binaryIncrementPos]
  by_cases hneg : amount.toInt < 0
  · have hslt : amount.slt 0 = true := by simpa [BitVec.slt] using hneg
    rw [if_pos hslt]
    by_cases hmin : amount.toInt = -2 ^ 63
    · -- the least amount is its own negation
      have hamo : (-1) * (-amount).toInt = 2 ^ 63 := by
        rw [BitVec.toInt_neg, hmin]
        decide
      rw [reverse_posLoop_iff (.inr rfl) (-amount) v amount.toInt hlength hvalue
        (by rw [hamo, hmin]; decide), hamo, hmin]
      refine iff_of_true (fun i hi hbad ↦ hbad.2 ?_) fun i hi ↦ .inr ?_
      · have hdvd := dvd_carryInto v 1 hi
        rw [mul_one] at hdvd
        exact Int.emod_eq_zero_of_dvd (hdvd.mul_left (-1))
      · have hdvd := dvd_carryInto v (-1) (hi.trans (by decide))
        rwa [mul_neg_one] at hdvd
    · have hamo : (-1) * (-amount).toInt = amount.toInt := by
        rw [BitVec.toInt_neg, Int.bmod_eq_of_le (by norm_num at *; omega) (by norm_num at *; omega)]
        ring
      rw [reverse_posLoop_iff (.inr rfl) (-amount) v amount.toInt hlength hvalue
        (by rw [hamo]), hamo]
      refine forall_not_bad_iff ⟨hlower, hupper⟩ fun i hi ↦ ?_
      have hcarry : carryInto v amount.toInt i ≤ 0 := by
        have hpow : (0 : Int) < 256 ^ i := by positivity
        have hlt : carryInto v amount.toInt i < 1 :=
          Int.ediv_lt_of_lt_mul hpow (by have := hmod i; omega)
        omega
      rw [abs_of_nonpos hcarry]
      ring
  · have hslt : ¬ amount.slt 0 = true := by simpa [BitVec.slt] using hneg
    rw [if_neg hslt, reverse_posLoop_iff (.inl rfl) amount v amount.toInt hlength hvalue
      (by rw [one_mul]), one_mul]
    refine forall_not_bad_iff ⟨hlower, hupper⟩ fun i hi ↦ ?_
    have hcarry : 0 ≤ carryInto v amount.toInt i :=
      Int.ediv_nonneg (by have := hmod i; omega) (by positivity)
    rw [abs_of_nonneg hcarry, one_mul]

/-- **`incrementBytes` is right exactly if each byte that is taken from the amount is a byte of
it.** -/
theorem incrementBytes_eq_iff (value : List UInt8) (amount : BitVec 64)
    (hvalue : 1 ≤ value.length ∧ value.length ≤ 8) : incrementBytes value amount =
      .ok (Bytes.toBytes 8 ((signed value + amount.toInt) % 2 ^ 64).toNat) ↔
        Exact (signed value) amount.toInt := by
  obtain ⟨hpos, hle⟩ := hvalue
  cases value with
  | nil => cases hpos
  | cons first rest =>
    have hlength := length_extend hle first
    have hextend := number_extend hle
    rw [incrementBytes, if_neg (by omega)]
    by_cases hzero : amount = 0
    · subst hzero
      rw [if_pos rfl, Except.ok.injEq, show (0 : BitVec 64).toInt = 0 from rfl, add_zero]
      refine iff_of_true ?_ fun i _ ↦ .inl ?_
      · have hrange : (signed (first :: rest) % 2 ^ 64).toNat < 256 ^ 8 := by
          norm_num
          omega
        rw [← List.reverse_inj, ← number_inj (by simp [hlength]), hextend, number_reverse,
          Bytes.ofBytes_toBytes hrange, Int.toNat_of_nonneg (by omega)]
        norm_num
      · have hcarry : carryInto (signed (first :: rest)) 0 i = 0 := by
          rw [carryInto, add_zero]
          exact Int.ediv_eq_zero_of_lt (Int.emod_nonneg _ (by positivity))
            (Int.emod_lt_of_pos _ (by positivity))
        rw [hcarry]
        decide
    · rw [if_neg hzero, binaryIncrementNeg_eq, ite_self, Except.ok.injEq]
      exact binaryIncrementPos_eq_iff hlength hextend amount

theorem incrementBytes_one : incrementBytes [255, 255] 1 = .ok (Bytes.toBytes 8 0) ↔ Exact (-1) 1 :=
  incrementBytes_eq_iff [255, 255] 1 ⟨by decide, by decide⟩

/-- The amount `0x80000001`: a byte of the sum is too small by one. -/
theorem incrementBytes_zero : ¬ ∀ (value : List UInt8) (amount : BitVec 64), 1 ≤ value.length ∧
    value.length ≤ 8 → incrementBytes value amount =
      .ok (Bytes.toBytes 8 ((signed value + amount.toInt) % 2 ^ 64).toNat) := by
  intro h
  exact absurd (h [0] 0x80000001 (by decide)) (by decide)

end Tigon.Common
