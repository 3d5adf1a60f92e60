import Tigon.Lib.Decoder

/-!
# The binary codec

`BinaryEncoder` and `BinaryDecoder` write and read the simple values of a datum.  An integer is
written in groups of seven bits, the lowest first, with the sign in the lowest bit; all groups but
the last have the high bit of their byte set.  Encoder and decoder do this twice, for 32 bits and
for 64.  A length may be written with the one width and read with the other.

## What is here

* `writeVar`, `readVar` — the code for integers, for any width, with `writeInt`, `writeLong`,
  `readInt` and `readLong` as its two instances.
* `groups` — the groups of a number, which has no width.
* `writeVar_eq_groups`, `reads_readGroups` — both loops are about these groups.
* `unZigZag_zigZag`, `toNat_zigZag_eq_toInt` — the sign.
* `reads_integers` — integers of both widths in any order **are read as they were written**, and
  both widths write the same bytes for the same number.

The other simple values follow, with what reading and skipping them takes off the input.
-/

set_option autoImplicit false

open Decoder

namespace Tigon.Io

open BitVec

/-! ## Bytes -/

/-- The exceptions a codec throws.  `io` and `eof` are `IOException`s, the others
`RuntimeException`s; too deep a recursion is `outOfFuel`, and `spoiled` is what an observer of a run
reports. -/
inductive Exc
  | io
  | eof
  | negativeArraySize
  | nullPointer
  | indexOutOfBounds
  | illegalArgument
  | classCast
  | outOfFuel
  | spoiled
deriving DecidableEq

/-- What `catch (IOException e)` catches. -/
def Exc.isIOException : Exc → Bool
  | io => true
  | eof => true
  | _ => false

abbrev ByteDecoder := Decoder Exc UInt8

/-- `InputStream.read`, with an exception at the end of the input. -/
def readByte : ByteDecoder UInt8
  | [] => .error .eof []
  | b :: rest => .ok b rest

theorem reads_readByte (b : UInt8) : Reads readByte [b] b := fun _ ↦ rfl

/-! ## Integers -/

variable {w : Nat}

/-- `OutputStream.write`, which takes the lowest byte of its argument. -/
def lowByte (v : BitVec w) : UInt8 := UInt8.ofNat v.toNat

/-- The sign goes to the lowest bit. -/
def zigZag (i : BitVec w) : BitVec w := (i <<< 1) ^^^ i.sshiftRight (w - 1)

def unZigZag (val : BitVec w) : BitVec w := (val >>> 1) ^^^ -(val &&& 1#w)

/-- The loop of the encoder; the comparison is signed. -/
def writeGroups (val : BitVec w) : List UInt8 :=
  if 0x7f < val.toInt then lowByte (0x80#w ||| val &&& 0x7f#w) :: writeGroups (val >>> 7)
    else [lowByte val]
termination_by val.toNat
decreasing_by
  rw [toNat_ushiftRight, Nat.shiftRight_eq_div_pow]
  have hlt : 0x7f < val.toInt := by assumption
  refine Nat.div_lt_self (Nat.pos_of_ne_zero fun hz ↦ ?_) (by decide)
  have hzero : val = 0#w := eq_of_toNat_eq (by simpa using hz)
  rw [hzero, toInt_zero] at hlt
  omega

/-- `writeInt` and `writeLong`. -/
def writeVar (i : BitVec w) : List UInt8 :=
  let val := zigZag i
  if val &&& ~~~0x7f#w ≠ 0#w then lowByte (0x80#w ||| val &&& 0x7f#w) :: writeGroups (val >>> 7)
    else [lowByte val]

/-- The loop of the decoder.  A shift only looks at the bits of its distance that are below the
width. -/
def readGroups (val : BitVec w) (shift : Nat) : ByteDecoder (BitVec w)
  | [] => .error .eof []
  | b :: rest =>
    if 0x7f < b then
      readGroups (val ^^^ setWidth w (b &&& 0x7f).toBitVec <<< (shift % w)) (shift + 7) rest
    else .ok (val ^^^ setWidth w b.toBitVec <<< (shift % w)) rest

/-- `readInt` and `readLong`. -/
def readVar : ByteDecoder (BitVec w) := do
  let val ← readGroups 0#w 0
  return unZigZag val

def writeInt (i : BitVec 32) : List UInt8 := writeVar i

def writeLong (l : BitVec 64) : List UInt8 := writeVar l

def readInt : ByteDecoder (BitVec 32) := readVar

def readLong : ByteDecoder (BitVec 64) := readVar

/-! ## Groups of seven bits -/

/-- The groups of a number, the lowest first. -/
def groups (n : Nat) : List UInt8 :=
  if n < 128 then [UInt8.ofNat n] else UInt8.ofNat (128 + n % 128) :: groups (n / 128)

theorem toNat_and_mask (hw : 8 ≤ w) (v : BitVec w) : (v &&& 0x7f#w).toNat = v.toNat % 128 := by
  have hmask : (0x7f#w).toNat = 2 ^ 7 - 1 := by
    rw [toNat_ofNat]
    exact Nat.mod_eq_of_lt (by calc 0x7f < 2 ^ 8 := by decide
      _ ≤ 2 ^ w := Nat.pow_le_pow_right (by decide) hw)
  rw [toNat_and, hmask, Nat.and_two_pow_sub_one_eq_mod]

theorem lowByte_group (hw : 8 ≤ w) (v : BitVec w) :
    lowByte (0x80#w ||| v &&& 0x7f#w) = UInt8.ofNat (128 + v.toNat % 128) := by
  have hhigh : (0x80#w).toNat = 2 ^ 7 * 1 := by
    rw [toNat_ofNat]
    exact Nat.mod_eq_of_lt (by calc 0x80 < 2 ^ 8 := by decide
      _ ≤ 2 ^ w := Nat.pow_le_pow_right (by decide) hw)
  rw [lowByte, toNat_or, toNat_and_mask hw, hhigh,
    ← Nat.two_pow_add_eq_or_of_lt (Nat.mod_lt _ (by decide))]

theorem toNat_shiftRight_seven (v : BitVec w) : (v >>> 7).toNat = v.toNat / 128 := by
  rw [toNat_ushiftRight, Nat.shiftRight_eq_div_pow]

theorem writeGroups_eq_groups (hw : 8 ≤ w) (v : BitVec w) (h : 2 * v.toNat < 2 ^ w) :
    writeGroups v = groups v.toNat := by
  induction v using writeGroups.induct with
  | case1 v hlt ih =>
    rw [toInt_eq_toNat_of_lt h] at hlt
    have hle : (v >>> 7).toNat ≤ v.toNat := by
      rw [toNat_shiftRight_seven]
      exact Nat.div_le_self _ _
    rw [writeGroups, if_pos (by rw [toInt_eq_toNat_of_lt h]; exact hlt), groups,
      if_neg (by omega), lowByte_group hw, ih (by omega), toNat_shiftRight_seven]
  | case2 v hlt =>
    rw [writeGroups, if_neg hlt, groups,
      if_pos (by rw [toInt_eq_toNat_of_lt h] at hlt; omega)]
    rfl

theorem testBit_mask (i : Nat) : (0x7f).testBit i = decide (i < 7) :=
  Nat.testBit_two_pow_sub_one 7 i

theorem and_not_mask (v : BitVec w) : v &&& ~~~0x7f#w = (v >>> 7) <<< 7 := by
  refine eq_of_getLsbD_eq fun i hi ↦ ?_
  rw [getLsbD_and, getLsbD_not, getLsbD_ofNat, testBit_mask,
    getLsbD_shiftLeft, getLsbD_ushiftRight]
  by_cases h7 : i < 7
  · simp [h7, hi]
  · simp [h7, hi, show 7 + (i - 7) = i by omega]

theorem and_not_mask_eq_zero_iff (v : BitVec w) : v &&& ~~~0x7f#w = 0#w ↔ v.toNat < 128 := by
  have hle : v.toNat / 128 * 128 < 2 ^ w := (Nat.div_mul_le_self _ _).trans_lt v.isLt
  rw [and_not_mask, ← toNat_inj, toNat_shiftLeft, toNat_shiftRight_seven,
    Nat.shiftLeft_eq, Nat.mod_eq_of_lt hle, toNat_zero]
  omega

/-- **The encoder writes the groups of a number.** -/
theorem writeVar_eq_groups (hw : 8 ≤ w) (i : BitVec w) : writeVar i = groups (zigZag i).toNat := by
  generalize hv : zigZag i = v
  have hsplit := and_not_mask_eq_zero_iff v
  rw [writeVar]
  simp only [hv]
  by_cases hlt : v.toNat < 128
  · rw [if_neg (not_not_intro (hsplit.mpr hlt)), groups, if_pos hlt]
    rfl
  · have hhalf : 2 * (v >>> 7).toNat < 2 ^ w := by
      have := v.isLt
      rw [toNat_shiftRight_seven]
      omega
    rw [if_pos (fun h ↦ hlt (hsplit.mp h)), groups, if_neg hlt, lowByte_group hw,
      writeGroups_eq_groups hw _ hhalf, toNat_shiftRight_seven]

/-- The bits of a number are its lowest seven and the others. -/
theorem ofNat_split (n : Nat) : BitVec.ofNat w (n % 128) ^^^ BitVec.ofNat w (n / 128) <<< 7 =
    BitVec.ofNat w n := by
  refine eq_of_getLsbD_eq fun i hi ↦ ?_
  rw [getLsbD_xor, getLsbD_shiftLeft, getLsbD_ofNat, getLsbD_ofNat,
    getLsbD_ofNat, show (128 : Nat) = 2 ^ 7 from rfl, Nat.testBit_mod_two_pow,
      Nat.testBit_div_two_pow]
  by_cases h7 : i < 7
  · simp [h7, hi]
  · simp [h7, hi, show i - 7 < w by omega, show i - 7 + 7 = i by omega]

/-- The part of a number that a byte brings. -/
theorem setWidth_toBitVec (b : UInt8) : BitVec.setWidth w b.toBitVec = BitVec.ofNat w b.toNat :=
  eq_of_toNat_eq (by rw [toNat_setWidth, toNat_ofNat]; rfl)

/-- **The decoder reads the groups of a number.** -/
theorem reads_readGroups (n : Nat) : ∀ (val : BitVec w) (shift : Nat), shift < w →
    n < 2 ^ (w - shift) → Reads (readGroups val shift) (groups n)
      (val ^^^ BitVec.ofNat w n <<< shift) := by
  induction n using groups.induct with
  | case1 n hlt =>
    intro val shift hs hn rest
    have hbyte : (UInt8.ofNat n).toNat = n := by
      rw [UInt8.toNat_ofNat']
      omega
    have hle : ¬ 0x7f < UInt8.ofNat n := by
      rw [UInt8.lt_iff_toNat_lt, hbyte]
      exact Nat.not_lt.mpr (Nat.le_of_lt_succ hlt)
    rw [groups, if_pos hlt, List.singleton_append, readGroups, if_neg hle, Nat.mod_eq_of_lt hs,
      setWidth_toBitVec, hbyte]
  | case2 n hlt ih =>
    intro val shift hs hn rest
    have hbyte : (UInt8.ofNat (128 + n % 128)).toNat = 128 + n % 128 := by
      rw [UInt8.toNat_ofNat']
      omega
    have hgt : 0x7f < UInt8.ofNat (128 + n % 128) := by
      rw [UInt8.lt_iff_toNat_lt, hbyte]
      exact Nat.lt_of_lt_of_le (by decide) (Nat.le_add_right 128 _)
    have hlow : (UInt8.ofNat (128 + n % 128) &&& 0x7f).toNat = n % 128 := by
      rw [UInt8.toNat_and, hbyte, show (0x7f : UInt8).toNat = 2 ^ 7 - 1 from rfl,
        Nat.and_two_pow_sub_one_eq_mod]
      omega
    -- There are groups left, so there are more than seven bits left.
    have hseven : shift + 7 < w := by
      by_contra hge
      have : 2 ^ (w - shift) ≤ 2 ^ 7 := Nat.pow_le_pow_right (by decide) (by omega)
      omega
    have hdiv : n / 128 < 2 ^ (w - (shift + 7)) := by
      rw [Nat.div_lt_iff_lt_mul (by decide), show (128 : Nat) = 2 ^ 7 from rfl, ← pow_add,
        show w - (shift + 7) + 7 = w - shift by omega]
      exact hn
    rw [groups, if_neg hlt, List.cons_append, readGroups, if_pos hgt, Nat.mod_eq_of_lt hs,
      setWidth_toBitVec, hlow, ih _ _ hseven hdiv, xor_assoc, Nat.add_comm shift 7,
        shiftLeft_add, ← shiftLeft_xor_distrib,
      ofNat_split]

/-! ## The sign -/

variable {i : BitVec w}

/-- All bits are the sign after such a shift. -/
theorem sshiftRight_of_msb_false (h : i.msb = false) : i.sshiftRight (w - 1) = 0#w := by
  rw [sshiftRight_eq_of_msb_false h]
  refine eq_of_getLsbD_eq fun k hk ↦ ?_
  rw [getLsbD_ushiftRight, getLsbD_zero]
  rcases Nat.eq_zero_or_pos k with rfl | hpos
  · rw [Nat.add_zero, ← msb_eq_getLsbD_last, h]
  · exact getLsbD_of_ge _ _ (by omega)

theorem sshiftRight_of_msb_true (h : i.msb = true) : i.sshiftRight (w - 1) = allOnes w := by
  have hw : 0 < w := by
    by_contra hz
    obtain rfl : w = 0 := by omega
    rw [eq_nil i] at h
    exact absurd h (by decide)
  have hnot : (~~~i).msb = false := by rw [msb_not, h]; simp
  have hzero := sshiftRight_of_msb_false hnot
  rw [sshiftRight_eq_of_msb_false hnot] at hzero
  rw [sshiftRight_eq_of_msb_true h, hzero, not_zero]

theorem zigZag_of_msb_false (h : i.msb = false) : zigZag i = i <<< 1 := by
  rw [zigZag, sshiftRight_of_msb_false h, xor_zero]

theorem zigZag_of_msb_true (h : i.msb = true) : zigZag i = ~~~(i <<< 1) := by
  rw [zigZag, sshiftRight_of_msb_true h, xor_allOnes]

theorem toNat_zigZag_of_msb_false (h : i.msb = false) : (zigZag i).toNat = 2 * i.toNat := by
  have hlt := msb_eq_false_iff_two_mul_lt.mp h
  rw [zigZag_of_msb_false h, toNat_shiftLeft, Nat.shiftLeft_eq, pow_one, Nat.mul_comm,
    Nat.mod_eq_of_lt hlt]

theorem toNat_zigZag_of_msb_true (h : i.msb = true) :
    (zigZag i).toNat = 2 * (2 ^ w - i.toNat) - 1 := by
  have hge := msb_eq_true_iff_two_mul_ge.mp h
  have hlt := i.isLt
  have hmod : i.toNat * 2 % 2 ^ w = i.toNat * 2 - 2 ^ w := by
    rw [Nat.mod_eq_sub_mod (by omega), Nat.mod_eq_of_lt (by omega)]
  rw [zigZag_of_msb_true h, toNat_not, toNat_shiftLeft, Nat.shiftLeft_eq,
    pow_one, hmod]
  omega

theorem toNat_and_one (hw : 0 < w) (v : BitVec w) : (v &&& 1#w).toNat = v.toNat % 2 := by
  rw [toNat_and, toNat_ofNat, Nat.mod_eq_of_lt (Nat.one_lt_two_pow hw.ne'),
    Nat.and_one_is_mod]

theorem unZigZag_of_even (hw : 0 < w) {v : BitVec w} (h : v.toNat % 2 = 0) :
    unZigZag v = v >>> 1 := by
  have hzero : v &&& 1#w = 0#w := eq_of_toNat_eq
    (by rw [toNat_and_one hw, h, toNat_zero])
  rw [unZigZag, hzero, neg_zero, xor_zero]

theorem unZigZag_of_odd (hw : 0 < w) {v : BitVec w} (h : v.toNat % 2 = 1) : unZigZag v =
    ~~~(v >>> 1) := by
  have hone : v &&& 1#w = 1#w := eq_of_toNat_eq (by
    rw [toNat_and_one hw, h, toNat_ofNat, Nat.mod_eq_of_lt (Nat.one_lt_two_pow hw.ne')])
  rw [unZigZag, hone, neg_one_eq_allOnes, xor_allOnes]

/-- **The decoder brings the sign back.** -/
theorem unZigZag_zigZag (hw : 0 < w) (i : BitVec w) : unZigZag (zigZag i) = i := by
  have hlt := i.isLt
  refine eq_of_toNat_eq ?_
  rcases h : i.msb
  · have hz := toNat_zigZag_of_msb_false h
    rw [unZigZag_of_even hw (by omega), toNat_ushiftRight, Nat.shiftRight_eq_div_pow, hz]
    omega
  · have hz := toNat_zigZag_of_msb_true h
    rw [unZigZag_of_odd hw (by omega), toNat_not, toNat_ushiftRight,
      Nat.shiftRight_eq_div_pow, hz]
    omega

/-- The sign and the value of a number do not depend on the width. -/
theorem toNat_zigZag_eq_toInt (i : BitVec w) :
    ((zigZag i).toNat : Int) = if i.toInt < 0 then -2 * i.toInt - 1 else 2 * i.toInt := by
  have hlt := i.isLt
  rw [toInt_eq_msb_cond]
  rcases h : i.msb
  · rw [toNat_zigZag_of_msb_false h]
    simp
  · rw [toNat_zigZag_of_msb_true h, if_pos rfl, if_pos (by omega)]
    omega

theorem toNat_zigZag_signExtend {w' : Nat} (hw : w ≤ w') (i : BitVec w) :
    (zigZag (i.signExtend w')).toNat = (zigZag i).toNat := by
  have h := toNat_zigZag_eq_toInt (i.signExtend w')
  rw [toInt_signExtend_of_le hw, ← toNat_zigZag_eq_toInt i] at h
  exact_mod_cast h

theorem reads_readVar (hw : 8 ≤ w) (i : BitVec w) : Reads readVar (writeVar i) i := by
  have h := (reads_readGroups (zigZag i).toNat 0#w 0 (by omega)
    (by rw [Nat.sub_zero]; exact (zigZag i).isLt)).map unZigZag
  rw [shiftLeft_zero, zero_xor, ofNat_toNat, setWidth_eq,
    unZigZag_zigZag (by omega)] at h
  rw [writeVar_eq_groups hw]
  exact h

theorem reads_readInt (i : BitVec 32) : Reads readInt (writeInt i) i := reads_readVar (by decide) i

theorem reads_readLong (l : BitVec 64) : Reads readLong (writeLong l) l :=
  reads_readVar (by decide) l

theorem writeInt_eq_groups (i : BitVec 32) : writeInt i = groups (zigZag i).toNat :=
  writeVar_eq_groups (by decide) i

theorem writeLong_eq_groups (l : BitVec 64) : writeLong l = groups (zigZag l).toNat :=
  writeVar_eq_groups (by decide) l

/-! ## Integers one after another -/

/-- The two widths. -/
inductive Width
  | int
  | long

/-- An integer of one of the two widths. -/
inductive VarInt
  | int (i : BitVec 32)
  | long (l : BitVec 64)
deriving DecidableEq

def VarInt.width : VarInt → Width
  | int _ => .int
  | long _ => .long

def VarInt.write : VarInt → List UInt8
  | int i => writeInt i
  | long l => writeLong l

/-- The method for a width. -/
def Width.read : Width → ByteDecoder VarInt
  | int => do return .int (← readInt)
  | long => do return .long (← readLong)

theorem VarInt.reads (v : VarInt) : Reads v.width.read v.write v := by
  cases v with
  | int i => exact (reads_readInt i).map VarInt.int
  | long l => exact (reads_readLong l).map VarInt.long

/-- **Integers of both widths are read as they were written**, each from the bytes that were written
for it; and the two widths write the same bytes for the same number. -/
theorem reads_integers :
    (∀ vs : List VarInt, Reads ((vs.map VarInt.width).mapM Width.read)
      (vs.flatMap VarInt.write) vs) ∧ ∀ i : BitVec 32,
        writeInt i = writeLong (i.signExtend 64) := by
  refine ⟨fun vs ↦ reads_mapM ?_, fun i ↦ ?_⟩
  · rw [List.forall₂_map_left_iff]
    exact List.forall₂_same.mpr fun v _ ↦ v.reads
  · rw [writeInt_eq_groups, writeLong_eq_groups, toNat_zigZag_signExtend (by decide)]

/-! ## The other values -/

def writeBool (b : Bool) : List UInt8 := [if b then 1 else 0]

def readBool : ByteDecoder Bool := do return (← readByte) == 1

theorem reads_readBool (b : Bool) : Reads readBool (writeBool b) b := by
  have h := (reads_readByte (if b then 1 else 0)).map (· == 1)
  cases b <;> exact h

/-- The bytes of an `int`, the lowest first. -/
def writeBits (bits : BitVec 32) : List UInt8 :=
  [lowByte (bits &&& 0xff#32), lowByte (bits.sshiftRight 8 &&& 0xff#32),
    lowByte (bits.sshiftRight 16 &&& 0xff#32), lowByte (bits.sshiftRight 24 &&& 0xff#32)]

/-- The `int` with these bytes. -/
def ofBits (b0 b1 b2 b3 : UInt8) : BitVec 32 :=
  b0.toBitVec.setWidth 32 ^^^ b1.toBitVec.setWidth 32 <<< 8 ^^^ b2.toBitVec.setWidth 32 <<< 16 ^^^
    b3.toBitVec.setWidth 32 <<< 24

def readBits : ByteDecoder (BitVec 32) := do
  let b0 ← readByte
  let b1 ← readByte
  let b2 ← readByte
  return ofBits b0 b1 b2 (← readByte)

theorem toBitVec_lowByte (v : BitVec w) : (lowByte v).toBitVec = v.setWidth 8 :=
  eq_of_toNat_eq (by rw [toNat_setWidth]; exact UInt8.toNat_ofNat')

theorem ofBits_lowByte (bits : BitVec 32) : ofBits (lowByte (bits &&& 0xff#32))
    (lowByte (bits.sshiftRight 8 &&& 0xff#32)) (lowByte (bits.sshiftRight 16 &&& 0xff#32))
    (lowByte (bits.sshiftRight 24 &&& 0xff#32)) = bits := by
  rw [ofBits, toBitVec_lowByte, toBitVec_lowByte, toBitVec_lowByte, toBitVec_lowByte]
  refine eq_of_getLsbD_eq fun i hi ↦ ?_
  interval_cases i <;> simp [getElem_sshiftRight]

theorem reads_readBits (bits : BitVec 32) : Reads readBits (writeBits bits) bits := by
  rw [writeBits, ← List.singleton_append, ← List.singleton_append
    (l := [_, _]), ← List.singleton_append (l := [_])]
  refine (reads_readByte _).bind ((reads_readByte _).bind ((reads_readByte _).bind ?_))
  have h := (reads_readByte (lowByte (bits.sshiftRight 24 &&& 0xff#32))).map
    (ofBits (lowByte (bits &&& 0xff#32)) (lowByte (bits.sshiftRight 8 &&& 0xff#32))
      (lowByte (bits.sshiftRight 16 &&& 0xff#32)))
  rwa [ofBits_lowByte] at h

/-- A `float` is its bits, `Float.floatToIntBits`. -/
def writeFloat (bits : BitVec 32) : List UInt8 := writeBits bits

def readFloat : ByteDecoder (BitVec 32) := readBits

/-- A `double` is its bits, `Double.doubleToLongBits`; the lower half goes first. -/
def writeDouble (bits : BitVec 64) : List UInt8 :=
  writeBits (bits.setWidth 32) ++ writeBits ((bits.sshiftRight 32).setWidth 32)

def readDouble : ByteDecoder (BitVec 64) := do
  let low ← readBits
  let high ← readBits
  return (high.signExtend 64) <<< 32 ||| low.signExtend 64 &&& 0xffffffff#64

theorem reads_readDouble (bits : BitVec 64) : Reads readDouble (writeDouble bits) bits := by
  have h := (reads_readBits (bits.setWidth 32)).bind (f := fun low ↦ readBits >>= fun high ↦
    pure ((high.signExtend 64) <<< 32 ||| low.signExtend 64 &&& 0xffffffff#64))
    ((reads_readBits ((bits.sshiftRight 32).setWidth 32)).map _)
  have hbits : ((bits.sshiftRight 32).setWidth 32).signExtend 64 <<< 32 |||
      (bits.setWidth 32).signExtend 64 &&& 0xffffffff#64 = bits := by
    refine eq_of_getLsbD_eq fun i hi ↦ ?_
    have hmask : (0xffffffff).testBit i = decide (i < 32) := Nat.testBit_two_pow_sub_one 32 i
    rw [getLsbD_or, getLsbD_shiftLeft, getLsbD_signExtend, getLsbD_and,
      getLsbD_signExtend, getLsbD_ofNat, getLsbD_setWidth,
        getLsbD_setWidth,
      getLsbD_sshiftRight, hmask]
    by_cases h32 : i < 32
    · simp [h32, hi]
    · simp [h32, hi, show i - 32 < 64 by omega, show i - 32 < 32 by omega,
        show 32 + (i - 32) = i by omega]
  rw [hbits] at h
  exact h

/-- `skip` of the input stream, as often as it takes; it does not go back. -/
def skipBytes (len : Int) : ByteDecoder Unit := fun input ↦
  if 0 ≤ len ∧ len ≤ input.length then .ok () (input.drop len.toNat)
  else .error .eof (if len < 0 then input else [])

/-- `read` of the input stream until an array is full. -/
def readFully (toRead : Nat) : ByteDecoder (List UInt8) := fun input ↦
  if toRead ≤ input.length then .ok (input.take toRead) (input.drop toRead) else .error .eof []

/-- The bytes of a string or of a byte array, after their number. -/
def rawReadBytes : ByteDecoder (List UInt8) := do
  let toRead ← readInt
  if toRead.toInt < 0 then throw .negativeArraySize else readFully toRead.toNat

/-- The bytes of a string. -/
def utf8 (s : String) : List UInt8 := s.toByteArray.data.toList

/-- The string with these bytes.  The replacements that are made in malformed input are not told
apart. -/
def decodeUtf8 (bytes : List UInt8) : String := (String.fromUTF8? ⟨bytes.toArray⟩).getD "\uFFFD"

theorem decodeUtf8_utf8 (s : String) : decodeUtf8 (utf8 s) = s := by
  rw [decodeUtf8, utf8, Array.toArray_toList, String.fromUTF8?, dif_pos s.isValidUTF8,
    Option.getD_some]
  rfl

/-- `writeBytes` of a buffer, also used for strings. -/
def writeBytes (bytes : List UInt8) : List UInt8 := writeInt (BitVec.ofNat 32 bytes.length) ++ bytes

/-- `writeBytes` of an array. -/
def writeByteArray (bytes : List UInt8) : List UInt8 :=
  writeLong (BitVec.ofNat 64 bytes.length) ++ bytes

def writeString (s : String) : List UInt8 := writeBytes (utf8 s)

def readString : ByteDecoder String := do return decodeUtf8 (← rawReadBytes)

/-- `skipString`, and `skipBytes` without an argument. -/
def skipString : ByteDecoder Unit := do
  let len ← readInt
  skipBytes len.toInt

variable {bytes : List UInt8}

theorem toNat_ofNat {n : Nat} (hw : 32 ≤ w) (h : n < 2 ^ 31) : (BitVec.ofNat w n).toNat = n := by
  have hle : 2 ^ 32 ≤ 2 ^ w := Nat.pow_le_pow_right (by decide) hw
  rw [BitVec.toNat_ofNat, Nat.mod_eq_of_lt (by omega)]

/-- Lengths are not negative. -/
theorem toInt_ofNat {n : Nat} (hw : 32 ≤ w) (h : n < 2 ^ 31) : (BitVec.ofNat w n).toInt = n := by
  have hle : 2 ^ 32 ≤ 2 ^ w := Nat.pow_le_pow_right (by decide) hw
  rw [toInt_eq_toNat_of_lt (by rw [toNat_ofNat hw h]; omega), toNat_ofNat hw h]

/-- Arrays and buffers look the same. -/
theorem writeByteArray_eq (h : bytes.length < 2 ^ 31) : writeByteArray bytes =
    writeBytes bytes := by
  have hext : (BitVec.ofNat 32 bytes.length).signExtend 64 = BitVec.ofNat 64 bytes.length := by
    refine BitVec.eq_of_toInt_eq ?_
    rw [BitVec.toInt_signExtend_of_le (by decide), toInt_ofNat le_rfl h, toInt_ofNat (by decide) h]
  rw [writeByteArray, writeBytes, writeInt_eq_groups, writeLong_eq_groups, ← hext,
    toNat_zigZag_signExtend (by decide)]

theorem reads_rawReadBytes (h : bytes.length < 2 ^ 31) :
    Reads rawReadBytes (writeBytes bytes) bytes := by
  refine (reads_readInt _).bind fun rest ↦ ?_
  rw [if_neg (by rw [toInt_ofNat le_rfl h]; omega), toNat_ofNat le_rfl h, readFully,
    if_pos (by simp), List.take_left, List.drop_left]

theorem reads_skipString (h : bytes.length < 2 ^ 31) : Reads skipString (writeBytes bytes) () := by
  refine (reads_readInt _).bind fun rest ↦ ?_
  rw [toInt_ofNat le_rfl h, skipBytes, if_pos (by simp), Int.toNat_natCast, List.drop_left]

theorem reads_readString {s : String} (h : (utf8 s).length < 2 ^ 31) :
    Reads readString (writeString s) s := by
  have hread := (reads_rawReadBytes h).map decodeUtf8
  rwa [decodeUtf8_utf8] at hread

/-- Skipping what was written with a fixed size. -/
theorem reads_skipBytes (l : List UInt8) : Reads (skipBytes l.length) l () := by
  intro rest
  rw [skipBytes, if_pos (by simp), Int.toNat_natCast, List.drop_left]

/-- Four bytes. -/
def skipFloat : ByteDecoder Unit := skipBytes 4

/-- Eight bytes. -/
def skipDouble : ByteDecoder Unit := skipBytes 8

theorem reads_skipFloat (bits : BitVec 32) : Reads skipFloat (writeFloat bits) () :=
  reads_skipBytes (writeBits bits)

theorem reads_skipDouble (bits : BitVec 64) : Reads skipDouble (writeDouble bits) () :=
  reads_skipBytes (writeDouble bits)

end Tigon.Io
