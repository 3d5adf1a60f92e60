import Tigon.Common.IncrementBytes

/-!
# Numbers in byte arrays

`putLong`, `putInt` and `putShort` write a number into an array at an offset, most significant byte
first, and `toLong`, `toInt` and `toShort` read it from there.  A `BigDecimal` is its scale and the
bytes of its unscaled value.

`putBigDecimal` writes these into an array of its own, at the offset it was given for the other one,
and this is the array that it was given no more of than it was: only at the offset zero does it
return at all.

* `putsAndGets_iff` — **what was put is there to get**, except for `putBigDecimal`;
* `compareTo_toBytes` — numbers of equal sign are in the order of their bytes.
-/

set_option autoImplicit false

namespace Tigon.Common

open List

/-- `(byte) val`. -/
def byte {w : Nat} (val : BitVec w) : UInt8 := ⟨val.setWidth 8⟩

/-- `for (int i = offset + n; i > offset; i--) { bytes[i] = (byte) val; val >>>= 8; }` -/
def putLoop {w : Nat} (offset : Nat) : Nat → List UInt8 → BitVec w → List UInt8 × BitVec w
  | 0, bytes, val => (bytes, val)
  | n + 1, bytes, val => putLoop offset n (bytes.set (offset + (n + 1)) (byte val)) (val >>> 8)

/-- A number of `n` bytes. -/
def putNumber {w : Nat} (n : Nat) (name : String) (bytes : List UInt8) (offset : Nat)
    (val : BitVec w) : Except Exc (List UInt8 × Nat) :=
  if bytes.length < offset + n then
    .error (.illegalArgument
      s!"Not enough room to put {name} at offset {offset} in a {bytes.length} byte array")
  else
    let (bytes, val) := putLoop offset (n - 1) bytes val
    .ok (bytes.set offset (byte val), offset + n)

def putLong (bytes : List UInt8) (offset : Nat) (val : BitVec 64) : Except Exc (List UInt8 × Nat) :=
  putNumber 8 "a long" bytes offset val

def putInt (bytes : List UInt8) (offset : Nat) (val : BitVec 32) : Except Exc (List UInt8 × Nat) :=
  putNumber 4 "an int" bytes offset val

def putShort (bytes : List UInt8) (offset : Nat) (val : BitVec 16) :
    Except Exc (List UInt8 × Nat) :=
  if bytes.length < offset + 2 then
    .error (.illegalArgument
      s!"Not enough room to put a short at offset {offset} in a {bytes.length} byte array")
  else
    let bytes := bytes.set (offset + 1) (byte val)
    let val := val.sshiftRight 8
    .ok (bytes.set offset (byte val), offset + 2)

def explainWrongLengthOrOffset (bytes : List UInt8) (offset length expectedLength : Nat) : Exc :=
  .illegalArgument <|
    if length ≠ expectedLength then s!"Wrong length: {length}, expected {expectedLength}"
    else s!"offset ({offset}) + length ({length}) exceed the capacity of the array: {bytes.length}"

/-- `l <<= 8; l ^= bytes[i] & 0xFF` for each byte. -/
def getLoop (w : Nat) (bytes : List UInt8) : BitVec w :=
  bytes.foldl (fun l b ↦ (l <<< 8) ^^^ b.toBitVec.setWidth w) 0

def toNumber (w n : Nat) (bytes : List UInt8) (offset length : Nat) : Except Exc (BitVec w) :=
  if length ≠ n ∨ bytes.length < offset + length
    then .error (explainWrongLengthOrOffset bytes offset length n)
  else .ok (getLoop w ((bytes.drop offset).take length))

def toLong (bytes : List UInt8) (offset length : Nat) : Except Exc (BitVec 64) :=
  toNumber 64 8 bytes offset length

def toInt (bytes : List UInt8) (offset length : Nat) : Except Exc (BitVec 32) :=
  toNumber 32 4 bytes offset length

def toShort (bytes : List UInt8) (offset length : Nat) : Except Exc (BitVec 16) :=
  if length ≠ 2 ∨ bytes.length < offset + length
    then .error (explainWrongLengthOrOffset bytes offset length 2)
  else
    let n : BitVec 16 := 0 ^^^ (bytes.getD offset 0).toBitVec.setWidth 16
    .ok ((n <<< 8) ^^^ (bytes.getD (offset + 1) 0).toBitVec.setWidth 16)

/-! ## Big decimals -/

@[ext]
structure BigDecimal where
  unscaledValue : Int
  scale : BitVec 32
deriving DecidableEq

/-- The bits of a number in two's complement, without the sign. -/
def bitLength (n : Int) : Nat := Nat.size (if 0 ≤ n then n.toNat else (-n - 1).toNat)

/-- The fewest bytes that have room for the number and its sign. -/
def toByteArray (n : Int) : List UInt8 :=
  Bytes.toBytes (bitLength n / 8 + 1) (n % 256 ^ (bitLength n / 8 + 1)).toNat

/-- `System.arraycopy`, and the offset behind the bytes. -/
def putBytes (tgtBytes : List UInt8) (tgtOffset : Nat) (srcBytes : List UInt8)
    (srcOffset srcLength : Nat) : Except Exc (List UInt8 × Nat) :=
  if srcBytes.length < srcOffset + srcLength ∨ tgtBytes.length < tgtOffset + srcLength
    then .error .arrayIndexOutOfBounds
  else .ok (tgtBytes.take tgtOffset ++ (srcBytes.drop srcOffset).take srcLength ++
    tgtBytes.drop (tgtOffset + srcLength), tgtOffset + srcLength)

/-- The array that is written to is `result`. -/
def putBigDecimal (bytes : List UInt8) (offset : Nat) (val : BigDecimal) :
    Except Exc (List UInt8 × Nat) := do
  let valueBytes := toByteArray val.unscaledValue
  let result := replicate (valueBytes.length + 4) 0
  let (result, offset) ← putInt result offset val.scale
  let (_, offset) ← putBytes result offset valueBytes 0 valueBytes.length
  return (bytes, offset)

def toBigDecimal (bytes : List UInt8) (offset length : Nat) : Except Exc (Option BigDecimal) :=
  if length < 4 + 1 ∨ bytes.length < offset + length then .ok none
  else do
    let scale ← toInt bytes offset 4
    let tcBytes := (bytes.drop (offset + 4)).take (length - 4)
    return some ⟨signed tcBytes, scale⟩

/-! ## Comparing -/

/-- The bytes of `toBytes(long)` and `toBytes(int)`. -/
def numberToBytes {w : Nat} (n : Nat) (val : BitVec w) : List UInt8 :=
  let (b, val) := putLoop 0 (n - 1) (replicate n 0) val
  b.set 0 (byte val)

def longToBytes (val : BitVec 64) : List UInt8 := numberToBytes 8 val

def intToBytes (val : BitVec 32) : List UInt8 := numberToBytes 4 val

def compareTo : List UInt8 → List UInt8 → Int
  | a :: left, b :: right => if a ≠ b then (a.toNat : Int) - b.toNat else compareTo left right
  | left, right => (left.length : Int) - right.length

/-! ## Putting and getting -/

inductive Value
  | long (v : BitVec 64)
  | int (v : BitVec 32)
  | short (v : BitVec 16)
  | bigDecimal (v : BigDecimal)
deriving DecidableEq

def put (bytes : List UInt8) (offset : Nat) : Value → Except Exc (List UInt8 × Nat)
  | .long v => putLong bytes offset v
  | .int v => putInt bytes offset v
  | .short v => putShort bytes offset v
  | .bigDecimal v => putBigDecimal bytes offset v

/-- A value of the same type is read. -/
def get (bytes : List UInt8) (offset length : Nat) : Value → Except Exc (Option Value)
  | .long _ => (toLong bytes offset length).map fun v ↦ some (.long v)
  | .int _ => (toInt bytes offset length).map fun v ↦ some (.int v)
  | .short _ => (toShort bytes offset length).map fun v ↦ some (.short v)
  | .bigDecimal _ => (toBigDecimal bytes offset length).map fun v ↦ v.map .bigDecimal

/-- The bytes of a value. -/
def encode : Value → List UInt8
  | .long v => Bytes.toBytes 8 v.toNat
  | .int v => Bytes.toBytes 4 v.toNat
  | .short v => Bytes.toBytes 2 v.toNat
  | .bigDecimal v => Bytes.toBytes 4 v.scale.toNat ++ toByteArray v.unscaledValue

/-- The value is there to get after it was put, and the other bytes are unchanged. -/
def PutsAndGets (bytes : List UInt8) (offset : Nat) (v : Value) : Prop :=
  ∃ bytes' fin, put bytes offset v = .ok (bytes', fin) ∧ get bytes' offset (fin - offset) v =
    .ok (some v) ∧ bytes'.length = bytes.length ∧ ∀ i, i < offset ∨ fin ≤ i → bytes'[i]? = bytes[i]?

/-- Comparing the bytes of numbers of the same sign is comparing the numbers. -/
def OrderPreserved {w : Nat} (toBytes : BitVec w → List UInt8) : Prop :=
  ∀ x y : BitVec w, (0 ≤ x.toInt ↔ 0 ≤ y.toInt) → (compareTo (toBytes x) (toBytes y)).sign =
    (x.toInt - y.toInt).sign

/-- What the numbers in byte arrays are to obey. -/
def PutGetLaws (bytes : List UInt8) (offset : Nat) (v : Value) : Prop :=
  PutsAndGets bytes offset v ∧ OrderPreserved longToBytes ∧ OrderPreserved intToBytes

/-! ## The loops -/

variable {w : Nat} {pre mid post : List UInt8} {c : UInt8}

theorem exists_split {bytes : List UInt8} {offset n : Nat} (h : offset + n ≤ bytes.length) :
    ∃ pre mid post, bytes = pre ++ mid ++ post ∧ pre.length = offset ∧ mid.length = n := by
  refine ⟨bytes.take offset, (bytes.drop offset).take n, (bytes.drop offset).drop n, ?_, ?_, ?_⟩
  · rw [append_assoc, take_append_drop, take_append_drop]
  · rw [length_take]
    omega
  · rw [length_take, length_drop]
    omega

theorem byte_eq (val : BitVec w) : byte val = UInt8.ofNat val.toNat := by
  rw [← UInt8.toNat_inj, byte, UInt8.toNat_ofBitVec, BitVec.toNat_setWidth, UInt8.toNat_ofNat']

theorem set_append_cons (pre post : List UInt8) (c b : UInt8) : (pre ++ c :: post).set pre.length
    b = pre ++ b :: post := by
  rw [set_append_right _ _ le_rfl, Nat.sub_self, set_cons_zero]

theorem putLoop_eq (n : Nat) {offset : Nat} (hpre : pre.length = offset + 1) (hmid : mid.length = n)
    (post : List UInt8) (val : BitVec w) :
    putLoop offset n (pre ++ mid ++ post) val =
      (pre ++ Bytes.toBytes n val.toNat ++ post, val >>> (8 * n)) := by
  induction n generalizing mid post val with
  | zero =>
    rw [length_eq_zero_iff.mp hmid]
    simp [putLoop, Bytes.toBytes]
  | succ n ih =>
    obtain ⟨mid, c, rfl⟩ := eq_nil_or_concat mid |>.resolve_left (by rintro rfl; cases hmid)
    rw [concat_eq_append, length_append, length_singleton] at hmid
    have hindex : offset + (n + 1) = (pre ++ mid).length := by
      rw [length_append]
      omega
    have hset : (pre ++ (mid.concat c) ++ post).set (offset + (n + 1)) (byte val) = pre ++ mid ++
      byte val :: post := by
      rw [concat_eq_append, hindex, ← append_assoc, append_assoc _ [c],
        singleton_append, set_append_cons]
    rw [putLoop, hset, ih (by omega), Bytes.toBytes_succ_eq_append, BitVec.toNat_ushiftRight,
      Nat.shiftRight_eq_div_pow, byte_eq, ← BitVec.shiftRight_add]
    simp [Nat.mul_succ, Nat.add_comm]

/-- **The bytes of a number are put at the offset.** -/
theorem putNumber_eq {n : Nat} (hn : 0 < n) (name : String) (hmid : mid.length = n)
    (val : BitVec w) : putNumber n name (pre ++ mid ++ post) pre.length val =
      .ok (pre ++ Bytes.toBytes n val.toNat ++ post, pre.length + n) := by
  obtain ⟨n, rfl⟩ := Nat.exists_eq_add_of_le' hn
  cases mid with
  | nil => cases hmid
  | cons c mid =>
    rw [putNumber, if_neg (by simp only [length_append]; omega)]
    have hsplit : pre ++ c :: mid ++ post = (pre ++ [c]) ++ mid ++ post := by simp
    rw [hsplit, Nat.add_sub_cancel, putLoop_eq n (by simp) (by simpa using hmid)]
    simp only [Except.ok.injEq, Prod.mk.injEq, and_true]
    rw [append_assoc, append_assoc, singleton_append, set_append_cons, byte_eq,
      Bytes.toBytes, BitVec.toNat_ushiftRight, Nat.shiftRight_eq_div_pow, pow_mul]
    simp

theorem byte_sshiftRight (val : BitVec 16) : byte (val.sshiftRight 8) = byte (val >>> 8) := by
  rw [byte, byte]
  congr 1
  refine BitVec.eq_of_getLsbD_eq fun i hi ↦ ?_
  have hlt : 8 + i < 16 := by omega
  have hle : ¬ 16 ≤ i := by omega
  simp [BitVec.getLsbD_sshiftRight, hlt, hle]

theorem putShort_eq (hmid : mid.length = 2) (val : BitVec 16) :
    putShort (pre ++ mid ++ post) pre.length val =
      .ok (pre ++ Bytes.toBytes 2 val.toNat ++ post, pre.length + 2) := by
  obtain ⟨c, d, rfl⟩ := length_eq_two.mp hmid
  have hset : (pre ++ [c, d] ++ post).set (pre.length + 1) (byte val) = pre ++ c ::
    byte val :: post := by
    have hlength : pre.length + 1 = (pre ++ [c]).length := by simp
    have hsplit : pre ++ [c, d] ++ post = (pre ++ [c]) ++ d :: post := by simp
    rw [hsplit, hlength, set_append_cons, append_assoc, singleton_append]
  rw [putShort, if_neg (by simp only [length_append]; omega)]
  dsimp only
  rw [hset, set_append_cons, byte_sshiftRight, byte_eq, byte_eq, BitVec.toNat_ushiftRight,
    Nat.shiftRight_eq_div_pow, Bytes.toBytes, Bytes.toBytes, Bytes.toBytes]
  simp

theorem toNat_shift_xor (l : BitVec w) (b : UInt8) :
    ((l <<< 8) ^^^ b.toBitVec.setWidth w).toNat = (256 * l.toNat + b.toNat) % 2 ^ w := by
  -- the two have no bit in common
  have hhigh : ∀ i, ¬ i < 8 → b.toBitVec.getLsbD i = false :=
    fun i hi ↦ BitVec.getLsbD_of_ge _ _ (Nat.not_lt.mp hi)
  have hand : (l <<< 8) &&& b.toBitVec.setWidth w = 0#w := by
    refine BitVec.eq_of_getLsbD_eq fun i hi ↦ ?_
    by_cases h : i < 8
    · simp [h]
    · simp [h, hhigh i h]
  have hxor : (l <<< 8) ^^^ b.toBitVec.setWidth w = (l <<< 8) ||| b.toBitVec.setWidth w := by
    refine BitVec.eq_of_getLsbD_eq fun i hi ↦ ?_
    by_cases h : i < 8
    · simp [h]
    · simp [h, hhigh i h]
  rw [hxor, ← BitVec.add_eq_or_of_and_eq_zero _ _ hand, BitVec.toNat_add, BitVec.toNat_shiftLeft,
    BitVec.toNat_setWidth, ← Nat.add_mod, Nat.shiftLeft_eq, Nat.mul_comm]
  rfl

theorem toNat_getLoop (bytes : List UInt8) : (getLoop w bytes).toNat =
    Bytes.ofBytes bytes % 2 ^ w := by
  have hloop : ∀ (l : BitVec w) (n : Nat), l.toNat = n % 2 ^ w →
      (bytes.foldl (fun (l : BitVec w) (b : UInt8) ↦ (l <<< 8) ^^^ b.toBitVec.setWidth w) l).toNat =
        bytes.foldl (fun n b ↦ 256 * n + b.toNat) n % 2 ^ w := by
    induction bytes with
    | nil => exact fun l n h ↦ h
    | cons b bytes ih =>
      intro l n h
      rw [foldl_cons, foldl_cons]
      refine ih _ _ ?_
      rw [toNat_shift_xor, h, Nat.add_mod, Nat.mul_mod_mod, ← Nat.add_mod]
  exact hloop 0 0 (by simp)

/-- **The number at the offset is read.** -/
theorem toNumber_eq {n : Nat} (hmid : mid.length = n) :
    toNumber w n (pre ++ mid ++ post) pre.length n = .ok (BitVec.ofNat w (Bytes.ofBytes mid)) := by
  rw [toNumber, if_neg (by simp only [length_append]; omega)]
  have htake : ((pre ++ mid ++ post).drop pre.length).take n = mid := by
    rw [append_assoc, drop_left, take_left' hmid]
  rw [htake]
  congr 1
  refine BitVec.eq_of_toNat_eq ?_
  rw [toNat_getLoop, BitVec.toNat_ofNat]

theorem toShort_eq (hmid : mid.length = 2) :
    toShort (pre ++ mid ++ post) pre.length 2 = .ok (BitVec.ofNat 16 (Bytes.ofBytes mid)) := by
  obtain ⟨c, d, rfl⟩ := length_eq_two.mp hmid
  have hfirst : (pre ++ [c, d] ++ post).getD pre.length 0 = c := by simp
  have hsecond : (pre ++ [c, d] ++ post).getD (pre.length + 1) 0 = d := by simp
  rw [toShort, if_neg (by simp only [length_append]; simp)]
  dsimp only
  rw [hfirst, hsecond]
  refine congrArg Except.ok (BitVec.eq_of_toNat_eq ?_)
  have hc := c.toNat_lt
  have hfst : ((0 : BitVec 16) ^^^ c.toBitVec.setWidth 16).toNat = c.toNat := by
    rw [BitVec.ofNat_eq_ofNat, BitVec.zero_xor, BitVec.toNat_setWidth]
    exact Nat.mod_eq_of_lt (by rw [UInt8.toNat_toBitVec]; omega)
  rw [toNat_shift_xor, hfst, BitVec.toNat_ofNat]
  simp [Bytes.ofBytes]

/-! ## Big decimals -/

theorem ofBytes_inj {l r : List UInt8} (hlength : l.length = r.length) :
    Bytes.ofBytes l = Bytes.ofBytes r ↔ l = r := by
  rw [← reverse_inj, ← number_inj (by simpa using hlength), number_reverse, number_reverse,
    Int.natCast_inj]

theorem ofBytes_lt (l : List UInt8) : Bytes.ofBytes l < 256 ^ l.length := by
  have h := (number_lt l.reverse).2
  rw [number_reverse, length_reverse] at h
  exact_mod_cast h

theorem signed_emod (l : List UInt8) : signed l % 256 ^ l.length = Bytes.ofBytes l := by
  have hlt : (Bytes.ofBytes l : Int) < 256 ^ l.length := by exact_mod_cast ofBytes_lt l
  rw [signed]
  split
  · rw [Int.sub_emod_right, Int.emod_eq_of_lt (by positivity) hlt]
  · exact Int.emod_eq_of_lt (by positivity) hlt

theorem toInt8_neg_iff (b : UInt8) : b.toInt8 < 0 ↔ 128 ≤ b.toNat := by
  have hb := b.toNat_lt
  have htoInt : b.toInt8.toInt = (b.toNat : Int).bmod 256 := BitVec.toInt_eq_toNat_bmod b.toBitVec
  rw [Int8.lt_iff_toInt_lt, htoInt, Int.bmod_eq_emod]
  show _ < (0 : Int) ↔ _
  split <;> omega

theorem bitLength_lt (n : Int) : -2 ^ bitLength n ≤ n ∧ n < 2 ^ bitLength n := by
  have hsize := Nat.lt_size_self (if 0 ≤ n then n.toNat else (-n - 1).toNat)
  rw [bitLength]
  generalize Nat.size _ = k at hsize
  have hcast : ((if 0 ≤ n then n.toNat else (-n - 1).toNat : Nat) : Int) < 2 ^ k :=
    by exact_mod_cast hsize
  split at hcast <;> omega

/-- **A number survives the way through its bytes.** -/
theorem signed_toByteArray (n : Int) : signed (toByteArray n) = n := by
  obtain ⟨hlower, hupper⟩ := bitLength_lt n
  generalize hk : bitLength n / 8 = k
  -- there is room for the sign
  have hroom : (2 : Int) ^ bitLength n ≤ 128 * 256 ^ k := by
    calc (2 : Int) ^ bitLength n ≤ 2 ^ (8 * k + 7) := pow_le_pow_right₀ (by norm_num) (by omega)
      _ = 128 * 256 ^ k := by
        rw [pow_add, pow_mul]
        norm_num
        ring
  have hpow : (256 : Int) ^ (k + 1) = 256 * 256 ^ k := pow_succ' 256 k
  have hpos : (0 : Int) < 256 ^ k := by positivity
  rw [toByteArray, hk]
  obtain ⟨N, hN⟩ : ∃ N : Nat, (N : Int) = n % 256 ^ (k + 1) :=
    ⟨_, Int.toNat_of_nonneg (Int.emod_nonneg _ (by positivity))⟩
  have hlt : N < 256 ^ (k + 1) := by
    have : (N : Int) < 256 ^ (k + 1) := hN ▸ Int.emod_lt_of_pos n (by positivity)
    exact_mod_cast this
  have hhead : (UInt8.ofNat (N / 256 ^ k)).toInt8 < 0 ↔ 128 * 256 ^ k ≤ N := by
    rw [toInt8_neg_iff, UInt8.toNat_ofNat', Nat.mod_eq_of_lt, Nat.le_div_iff_mul_le (by positivity)]
    rw [Nat.div_lt_iff_lt_mul (by positivity)]
    rwa [pow_succ'] at hlt
  rw [← hN, Int.toNat_natCast, signed, Bytes.ofBytes_toBytes hlt, Bytes.length_toBytes,
    Bytes.toBytes, headD_cons]
  by_cases hn : 0 ≤ n
  · have hNn : (N : Int) = n := by
      rw [hN, Int.emod_eq_of_lt hn (by omega)]
    rw [if_neg, hNn]
    rw [hhead]
    intro h
    have : (128 : Int) * 256 ^ k ≤ N := by exact_mod_cast h
    omega
  · have hNn : (N : Int) = n + 256 ^ (k + 1) := by
      rw [hN, ← Int.add_emod_right, Int.emod_eq_of_lt (by omega) (by omega)]
    rw [if_pos, hNn]
    · ring
    · rw [hhead]
      have : (128 : Int) * 256 ^ k ≤ N := by omega
      exact_mod_cast this

theorem signed_eq_iff {l : List UInt8} {n : Int} (hlength : l.length = (toByteArray n).length) :
    signed l = n ↔ l = toByteArray n := by
  constructor
  · intro h
    rw [← ofBytes_inj hlength, ← Int.natCast_inj, ← signed_emod, ← signed_emod, h,
      signed_toByteArray, hlength]
  · rintro rfl
    exact signed_toByteArray n

theorem toByteArray_ne_nil (n : Int) : toByteArray n ≠ [] := by
  rw [toByteArray, ← length_pos_iff, Bytes.length_toBytes]
  exact Nat.succ_pos _

theorem putInt_eq (hmid : mid.length = 4) (val : BitVec 32) :
    putInt (pre ++ mid ++ post) pre.length val =
      .ok (pre ++ Bytes.toBytes 4 val.toNat ++ post, pre.length + 4) :=
  putNumber_eq (by norm_num) _ hmid val

/-- Nothing happens to the array, and the only offset that is answered is zero. -/
theorem putBigDecimal_eq (bytes : List UInt8) (val : BigDecimal) :
    putBigDecimal bytes 0 val = .ok (bytes, 4 + (toByteArray val.unscaledValue).length) := by
  generalize hvalue : toByteArray val.unscaledValue = valueBytes
  have hresult : replicate (valueBytes.length + 4) (0 : UInt8) =
      [] ++ replicate 4 0 ++ replicate valueBytes.length 0 := by
    rw [nil_append, replicate_append_replicate, Nat.add_comm]
  have hputInt : putInt (replicate (valueBytes.length + 4) 0) 0 val.scale =
      .ok ([] ++ Bytes.toBytes 4 val.scale.toNat ++ replicate valueBytes.length 0, 4) := by
    rw [hresult]
    exact putInt_eq (by rfl) val.scale
  rw [putBigDecimal, hvalue, hputInt]
  show (putBytes _ 4 valueBytes 0 valueBytes.length >>= fun x ↦ pure (bytes, x.2)) = _
  rw [putBytes, if_neg (by
    simp only [length_append, length_nil, Bytes.length_toBytes, length_replicate]
    omega)]
  rfl

theorem putBigDecimal_eq_error {offset : Nat} (hoffset : offset ≠ 0) (bytes : List UInt8)
    (val : BigDecimal) : ∃ e, putBigDecimal bytes offset val = .error e := by
  generalize hvalue : toByteArray val.unscaledValue = valueBytes
  by_cases hroom : (replicate (valueBytes.length + 4) (0 : UInt8)).length < offset + 4
  · rw [putBigDecimal, hvalue, putInt, putNumber, if_pos hroom]
    exact ⟨_, rfl⟩
  · -- the scale has room, and the unscaled value is then too long
    obtain ⟨pre, mid, post, hsplit, hpre, hmid⟩ := exists_split (Nat.not_lt.mp hroom)
    have hlength := congrArg length hsplit
    rw [length_replicate, length_append, length_append, hpre, hmid] at hlength
    refine ⟨.arrayIndexOutOfBounds, ?_⟩
    rw [putBigDecimal, hvalue, hsplit, ← hpre, putInt_eq hmid]
    show (putBytes _ (pre.length + 4) valueBytes 0 valueBytes.length >>= fun x ↦
      pure (bytes, x.2)) = _
    rw [putBytes, if_pos (by
      simp only [length_append, Bytes.length_toBytes]
      omega)]
    rfl

theorem toInt_eq (hmid : mid.length = 4) :
    toInt (pre ++ mid ++ post) pre.length 4 = .ok (BitVec.ofNat 32 (Bytes.ofBytes mid)) :=
  toNumber_eq hmid

/-- **The scale and the unscaled value are read.** -/
theorem toBigDecimal_eq {value : List UInt8} (hmid : mid.length = 4) (hvalue : value ≠ []) :
    toBigDecimal (pre ++ (mid ++ value) ++ post) pre.length (4 + value.length) =
      .ok (some ⟨signed value, BitVec.ofNat 32 (Bytes.ofBytes mid)⟩) := by
  have hpos := length_pos_iff.mpr hvalue
  have hscale : toInt (pre ++ (mid ++ value) ++ post) pre.length 4 =
    .ok (BitVec.ofNat 32 (Bytes.ofBytes mid)) := by
    have hsplit : pre ++ (mid ++ value) ++ post = pre ++ mid ++ (value ++ post) := by simp
    rw [hsplit, toInt_eq hmid]
  have htcBytes : ((pre ++ (mid ++ value) ++ post).drop (pre.length + 4)).take
    (4 + value.length - 4) = value := by
    have hsplit : pre ++ (mid ++ value) ++ post = (pre ++ mid) ++ (value ++ post) := by simp
    have hlength : pre.length + 4 = (pre ++ mid).length := by rw [length_append, hmid]
    rw [hsplit, hlength, drop_left, Nat.add_sub_cancel_left, take_left]
  rw [toBigDecimal, if_neg (by simp only [length_append]; omega), hscale, htcBytes]
  rfl

/-! ## What was put is there to get -/

theorem getElem?_outside {mid' : List UInt8} (hlength : mid'.length = mid.length) {i : Nat}
    (hi : i < pre.length ∨ pre.length + mid.length ≤ i) : (pre ++ mid' ++ post)[i]? =
    (pre ++ mid ++ post)[i]? := by
  rcases hi with hi | hi
  · rw [append_assoc, append_assoc, getElem?_append_left hi,
      getElem?_append_left hi]
  · rw [getElem?_append_right (by rw [length_append]; omega),
      getElem?_append_right (by rw [length_append]; omega), length_append,
        length_append, hlength]

theorem ofNat_ofBytes_toBytes {n : Nat} (hw : w = 8 * n) (v : BitVec w) :
    BitVec.ofNat w (Bytes.ofBytes (Bytes.toBytes n v.toNat)) = v := by
  have hlt : v.toNat < 256 ^ n := by
    have hpow : 2 ^ w = 256 ^ n := by rw [hw, pow_mul]; rfl
    exact hpow ▸ v.isLt
  rw [Bytes.ofBytes_toBytes hlt, BitVec.ofNat_toNat, BitVec.setWidth_eq]

/-- A value that is written over bytes of the array, and read as bytes are. -/
theorem putsAndGets_of {v : Value} {mid' : List UInt8} (hlength : mid'.length = mid.length)
    (hput : put (pre ++ mid ++ post) pre.length v =
      .ok (pre ++ mid' ++ post, pre.length + mid.length))
    (hget : get (pre ++ mid' ++ post) pre.length mid.length v = .ok (some v)) :
    PutsAndGets (pre ++ mid ++ post) pre.length v := by
  refine ⟨_, _, hput, by rwa [Nat.add_sub_cancel_left], ?_, fun i hi ↦ getElem?_outside hlength hi⟩
  simp only [length_append, hlength]

theorem ofNat_ofBytes_eq_iff (hmid : mid.length = 4) (v : BitVec 32) :
    BitVec.ofNat 32 (Bytes.ofBytes mid) = v ↔ mid = Bytes.toBytes 4 v.toNat := by
  constructor
  · rintro rfl
    have hlt := ofBytes_lt mid
    rw [hmid] at hlt
    have hmod : Bytes.ofBytes mid % 2 ^ 32 = Bytes.ofBytes mid := Nat.mod_eq_of_lt hlt
    rw [← ofBytes_inj (by rw [hmid, Bytes.length_toBytes]), BitVec.toNat_ofNat, hmod,
      Bytes.ofBytes_toBytes hlt]
  · rintro rfl
    exact ofNat_ofBytes_toBytes (by norm_num) v

/-- The array over which a value is put. -/
theorem putsAndGets_number {n : Nat} (hw : w = 8 * n) (x : BitVec w) {v : Value}
    (hput : ∀ mid : List UInt8, mid.length = n →
      put (pre ++ mid ++ post) pre.length v =
        .ok (pre ++ Bytes.toBytes n x.toNat ++ post, pre.length + n))
    (hget : ∀ mid : List UInt8, mid.length = n → BitVec.ofNat w (Bytes.ofBytes mid) = x →
      get (pre ++ mid ++ post) pre.length n v = .ok (some v)) (hmid : mid.length = n) :
    PutsAndGets (pre ++ mid ++ post) pre.length v := by
  subst hmid
  refine putsAndGets_of (Bytes.length_toBytes _ _) (hput mid rfl) ?_
  exact hget _ (Bytes.length_toBytes _ _) (ofNat_ofBytes_toBytes hw x)

theorem putsAndGets_long (v : BitVec 64) (hmid : mid.length = 8) :
    PutsAndGets (pre ++ mid ++ post) pre.length (.long v) := by
  refine putsAndGets_number (by norm_num) v (fun mid hmid ↦ putNumber_eq (by norm_num) _ hmid v)
    (fun mid hmid hv ↦ ?_) hmid
  show (toNumber 64 8 (pre ++ mid ++ post) pre.length 8).map _ = _
  rw [toNumber_eq hmid, hv]
  rfl

theorem putsAndGets_int (v : BitVec 32) (hmid : mid.length = 4) :
    PutsAndGets (pre ++ mid ++ post) pre.length (.int v) := by
  refine putsAndGets_number (by norm_num) v (fun mid hmid ↦ putInt_eq hmid v)
    (fun mid hmid hv ↦ ?_) hmid
  show (toInt (pre ++ mid ++ post) pre.length 4).map _ = _
  rw [toInt_eq hmid, hv]
  rfl

theorem putsAndGets_short (v : BitVec 16) (hmid : mid.length = 2) :
    PutsAndGets (pre ++ mid ++ post) pre.length (.short v) := by
  refine putsAndGets_number (by norm_num) v (fun mid hmid ↦ putShort_eq hmid v)
    (fun mid hmid hv ↦ ?_) hmid
  show (toShort (pre ++ mid ++ post) pre.length 2).map _ = _
  rw [toShort_eq hmid, hv]
  rfl

/-- A big decimal is there to get when it was there before, at the start of the array. -/
theorem putsAndGets_bigDecimal_iff {bytes : List UInt8} {offset : Nat} (d : BigDecimal)
    (hroom : offset + (encode (.bigDecimal d)).length ≤ bytes.length) :
    PutsAndGets bytes offset (.bigDecimal d) ↔
      offset = 0 ∧ bytes.take (encode (.bigDecimal d)).length = encode (.bigDecimal d) := by
  have hencode : encode (.bigDecimal d) = Bytes.toBytes 4 d.scale.toNat ++
    toByteArray d.unscaledValue := rfl
  have hlength : (encode (.bigDecimal d)).length = 4 + (toByteArray d.unscaledValue).length := by
    rw [hencode, length_append, Bytes.length_toBytes]
  by_cases hoffset : offset = 0
  · subst hoffset
    rw [hlength, Nat.zero_add] at hroom
    obtain ⟨pre, value, post, rfl, hpre, hvalue⟩ := exists_split hroom
    have hne : value ≠ [] := by
      rw [← length_pos_iff, hvalue]
      exact length_pos_iff.mpr (toByteArray_ne_nil _)
    have hput : put (pre ++ value ++ post) 0 (.bigDecimal d) =
      .ok (pre ++ value ++ post, 4 + value.length) := by
      rw [hvalue]
      exact putBigDecimal_eq _ d
    have hget : get (pre ++ value ++ post) 0 (4 + value.length) (.bigDecimal d) =
        .ok (some (.bigDecimal ⟨signed value, BitVec.ofNat 32 (Bytes.ofBytes pre)⟩)) := by
      show (toBigDecimal (pre ++ value ++ post) 0 (4 + value.length)).map _ = _
      have h : toBigDecimal ([] ++ (pre ++ value) ++ post) ([] : List UInt8).length
        (4 + value.length) = _ :=
        toBigDecimal_eq hpre hne
      rw [nil_append, length_nil] at h
      rw [h]
      rfl
    have htake : (pre ++ value ++ post).take (encode (.bigDecimal d)).length = pre ++ value := by
      rw [take_left']
      rw [hlength, length_append, hpre, hvalue]
    have hsame : (⟨signed value, BitVec.ofNat 32 (Bytes.ofBytes pre)⟩ : BigDecimal) = d ↔
        pre ++ value = encode (.bigDecimal d) := by
      have happend : pre ++ value = Bytes.toBytes 4 d.scale.toNat ++ toByteArray d.unscaledValue ↔
          pre = Bytes.toBytes 4 d.scale.toNat ∧ value = toByteArray d.unscaledValue :=
        ⟨fun h ↦ append_inj h (by rw [hpre, Bytes.length_toBytes]), fun h ↦ by rw [h.1, h.2]⟩
      rw [hencode, happend, ← signed_eq_iff hvalue, ← ofNat_ofBytes_eq_iff hpre, BigDecimal.ext_iff]
      exact and_comm
    rw [htake, ← hsame]
    constructor
    · rintro ⟨bytes', fin, h₁, h₂, -⟩
      obtain ⟨rfl, rfl⟩ := Prod.mk.inj (Except.ok.inj (hput.symm.trans h₁))
      rw [Nat.sub_zero, hget, Except.ok.injEq, Option.some.injEq, Value.bigDecimal.injEq] at h₂
      exact ⟨rfl, h₂⟩
    · rintro ⟨-, h⟩
      exact ⟨_, _, hput, by rw [Nat.sub_zero, hget, h], rfl, fun i _ ↦ rfl⟩
  · obtain ⟨e, he⟩ := putBigDecimal_eq_error hoffset bytes d
    constructor
    · rintro ⟨bytes', fin, hput, -⟩
      cases he.symm.trans hput
    · rintro ⟨h, -⟩
      exact absurd h hoffset

/-- **What was put is there to get, and nothing else has changed; except for the big decimals, which
are not put.** -/
theorem putsAndGets_iff {bytes : List UInt8} {offset : Nat} (v : Value)
    (hroom : offset + (encode v).length ≤ bytes.length) :
    PutsAndGets bytes offset v ↔
      ∀ d, v = .bigDecimal d → offset = 0 ∧ bytes.take (encode v).length = encode v := by
  obtain ⟨pre, mid, post, hbytes, hpre, hmid⟩ := exists_split hroom
  cases v with
  | long v =>
    refine iff_of_true ?_ (by rintro d ⟨⟩)
    rw [hbytes, ← hpre]
    exact putsAndGets_long v (hmid.trans (Bytes.length_toBytes _ _))
  | int v =>
    refine iff_of_true ?_ (by rintro d ⟨⟩)
    rw [hbytes, ← hpre]
    exact putsAndGets_int v (hmid.trans (Bytes.length_toBytes _ _))
  | short v =>
    refine iff_of_true ?_ (by rintro d ⟨⟩)
    rw [hbytes, ← hpre]
    exact putsAndGets_short v (hmid.trans (Bytes.length_toBytes _ _))
  | bigDecimal d =>
    rw [putsAndGets_bigDecimal_iff d hroom]
    exact ⟨fun h _ _ ↦ h, fun h ↦ h d rfl⟩

/-! ## The order of the bytes -/

theorem numberToBytes_eq {n : Nat} (hn : 0 < n) (val : BitVec w) : numberToBytes n val =
    Bytes.toBytes n val.toNat := by
  have h : putNumber n "" ([] ++ replicate n 0 ++ []) ([] : List UInt8).length val = _ :=
    putNumber_eq hn "" length_replicate val
  rw [putNumber, if_neg (by simp)] at h
  simpa [numberToBytes] using h

theorem compareTo_neg_iff (left right : List UInt8) : compareTo left right < 0 ↔ left < right := by
  induction left generalizing right with
  | nil =>
    cases right with
    | nil => simp [compareTo]
    | cons b right =>
      simp [compareTo]
      omega
  | cons a left ih =>
    cases right with
    | nil =>
      simp [compareTo]
      omega
    | cons b right =>
      rw [compareTo, cons_lt_cons_iff]
      split
      · rename_i hne
        rw [UInt8.lt_iff_toNat_lt, or_iff_left (fun h ↦ hne h.1)]
        omega
      · rename_i heq
        rw [ih, not_not.mp heq]
        simp

theorem compareTo_eq_zero_iff {left right : List UInt8} (hlength : left.length = right.length) :
    compareTo left right = 0 ↔ left = right := by
  induction left generalizing right with
  | nil =>
    rw [length_eq_zero_iff.mp hlength.symm]
    simp [compareTo]
  | cons a left ih =>
    cases right with
    | nil => cases hlength
    | cons b right =>
      rw [compareTo, cons.injEq]
      split
      · rename_i hne
        have htoNat := mt UInt8.toNat_inj.mp hne
        refine iff_of_false (by omega) (fun h ↦ hne h.1)
      · rename_i heq
        rw [ih (Nat.succ.inj hlength)]
        exact (and_iff_right (not_not.mp heq)).symm

/-- **Numbers of the same sign are in the order of their bytes.** -/
theorem orderPreserved_numberToBytes {n : Nat} (hn : 0 < n) (hw : w = 8 * n) :
    OrderPreserved (numberToBytes (w := w) n) := by
  intro x y hsign
  have hpow : 2 ^ w = 256 ^ n := by rw [hw, pow_mul]; rfl
  have hx : x.toNat < 256 ^ n := hpow ▸ x.isLt
  have hy : y.toNat < 256 ^ n := hpow ▸ y.isLt
  rw [numberToBytes_eq hn, numberToBytes_eq hn]
  have hlength : (Bytes.toBytes n x.toNat).length = (Bytes.toBytes n y.toNat).length := by
    rw [Bytes.length_toBytes, Bytes.length_toBytes]
  have hlt := (compareTo_neg_iff _ _).trans (Bytes.toBytes_lt_toBytes_iff hx hy)
  have heq := (compareTo_eq_zero_iff hlength).trans (Bytes.toBytes_inj hx hy)
  -- the unsigned numbers differ by as much as the signed ones
  have hdiff : x.toInt - y.toInt = x.toNat - y.toNat := by
    rw [BitVec.toInt_eq_toNat_cond, BitVec.toInt_eq_toNat_cond] at hsign ⊢
    have hxw := x.isLt
    have hyw := y.isLt
    split_ifs at hsign ⊢ <;> omega
  rw [hdiff]
  rcases lt_trichotomy x.toNat y.toNat with h | h | h
  · rw [Int.sign_eq_neg_one_of_neg (hlt.mpr h), Int.sign_eq_neg_one_of_neg (by omega)]
  · rw [heq.mpr h, h, sub_self]
  · rw [Int.sign_eq_one_of_pos (by omega), Int.sign_eq_one_of_pos (by omega)]

theorem longToBytes_orderPreserved : OrderPreserved longToBytes :=
  orderPreserved_numberToBytes (by norm_num) (by norm_num)

theorem intToBytes_orderPreserved : OrderPreserved intToBytes :=
  orderPreserved_numberToBytes (by norm_num) (by norm_num)

/-- **The numbers in byte arrays obey their laws, as long as no big decimal is put where it is not
already.** -/
theorem putGetLaws_iff (bytes : List UInt8) (offset : Nat) (v : Value)
    (hroom : offset + (encode v).length ≤ bytes.length) :
    PutGetLaws bytes offset v ↔
      ∀ d, v = .bigDecimal d → offset = 0 ∧ bytes.take (encode v).length = encode v := by
  rw [← putsAndGets_iff v hroom]
  exact ⟨fun h ↦ h.1, fun h ↦ ⟨h, longToBytes_orderPreserved, intToBytes_orderPreserved⟩⟩

/-- A negative number, in the middle of an array. -/
theorem putGetLaws_minus_three : PutGetLaws [7, 7, 7, 7, 7, 7] 1 (.int (-3)) :=
  (putGetLaws_iff [7, 7, 7, 7, 7, 7] 1 (.int (-3)) (by decide)).mpr (by rintro d ⟨⟩)

/-- The number one, put into an empty array, and read as zero. -/
theorem not_putGetLaws : ¬ PutGetLaws [0, 0, 0, 0, 0] 0 (.bigDecimal ⟨1, 0⟩) := by
  rintro ⟨⟨bytes', fin, hput, hget, -⟩, -⟩
  have hcode : put [0, 0, 0, 0, 0] 0 (.bigDecimal ⟨1, 0⟩) = .ok ([0, 0, 0, 0, 0], 5) :=
    by decide +kernel
  obtain ⟨rfl, rfl⟩ := Prod.mk.inj (Except.ok.inj (hcode.symm.trans hput))
  revert hget
  decide +kernel

end Tigon.Common
