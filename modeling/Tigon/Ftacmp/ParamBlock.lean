import Tigon.Ftacmp.SchemaParser

/-!
# Parameter blocks

The values of a query's parameters are put into a block of bytes, in the format of tuples: values of
fixed size are in place, one after the other; a string has a descriptor there, with its length and
its place, and its bytes are behind all of them.  `ftaschema_create_param_block` allocates the block
and copies the values.

There is room for the descriptor of a tuple, which has three words.  The structure that is copied
has a pointer, and is twice as large; where the place of a string is read there are bytes that
nobody has set.

* `fixed_reads` — values of fixed size are read as they were set.
* `blockGood_iff` — **when a block holds the values that were set.**
-/

set_option autoImplicit false

namespace Tigon.Ftacmp.ParamBlock

open SchemaParser

/-! ## Parameters -/

/-- The bytes of a string, whose length is an `int`. -/
structure Text where
  bytes : List UInt8
  lt : bytes.length < 2 ^ 31

/-- A value of a parameter. -/
inductive ParamValue
  | int (v : BitVec 32)
  | uInt (v : BitVec 32)
  | uShort (v : BitVec 32)
  | bool (v : BitVec 32)
  | ip (v : BitVec 32)
  | uLlong (v : BitVec 64)
  | llong (v : BitVec 64)
  | floating (v : BitVec 64)
  | timeval (sec usec : BitVec 64)
  | vStr (s : Text)

structure ParamBlockInfo where
  value : ParamValue
  valueSet : Bool

/-- A parameter, with its number and its place. -/
structure Placed where
  index : Nat
  offset : BitVec 32
  info : ParamBlockInfo

namespace ParamValue

def pdt : ParamValue → SchemaParser.DType
  | int _ => .int
  | uInt _ => .uInt
  | uShort _ => .uShort
  | bool _ => .bool
  | ip _ => .ip
  | uLlong _ => .uLlong
  | llong _ => .llong
  | floating _ => .floating
  | timeval _ _ => .timeval
  | vStr _ => .vStr

/-- How long the string is. -/
def length : ParamValue → BitVec 32
  | vStr s => BitVec.ofNat 32 s.bytes.length
  | _ => 0

end ParamValue

/-- Parameters from a number and a position on. -/
def finalizeParamInfo (index : Nat) (currPos : BitVec 32) : List ParamBlockInfo → List Placed
  | [] => []
  | p :: params =>
    ⟨index, currPos, p⟩ :: finalizeParamInfo (index + 1) (currPos + p.value.pdt.typeSize) params

def minParamSize (params : List ParamBlockInfo) : BitVec 32 :=
  (params.map fun p ↦ p.value.pdt.typeSize).sum

/-! ## The block -/

/-- Bytes that are copied to a place in the block, for a parameter. -/
structure Write where
  param : Nat
  addr : Int
  bytes : List UInt8

/-- The type of strings whose bytes follow. -/
def packed : BitVec 32 := 0

/-- The bytes of a structure nobody has set: behind the length, and at the end. -/
structure Padding where
  behindLength : BitVec 32
  atEnd : BitVec 32

/-- The structure that has a pointer, as it is in memory. -/
def vstringBytes (length : BitVec 32) (offset : BitVec 64) (reserved : BitVec 32) (pad : Padding) :
    List UInt8 :=
  Memory.bytesOf 4 length.toNat ++ Memory.bytesOf 4 pad.behindLength.toNat ++
    Memory.bytesOf 8 offset.toNat ++ Memory.bytesOf 4 reserved.toNat ++
      Memory.bytesOf 4 pad.atEnd.toNat

namespace ParamValue

/-- What is copied to the place of a parameter.  The position of a string's bytes is an `int`, and
becomes a pointer. -/
def bytes (pad : Padding) (dataPos : BitVec 32) : ParamValue → List UInt8
  | int v => Memory.bytesOf 4 v.toNat
  | uInt v => Memory.bytesOf 4 v.toNat
  | uShort v => Memory.bytesOf 4 v.toNat
  | bool v => Memory.bytesOf 4 v.toNat
  | ip v => Memory.bytesOf 4 v.toNat
  | uLlong v => Memory.bytesOf 8 v.toNat
  | llong v => Memory.bytesOf 8 v.toNat
  | floating v => Memory.bytesOf 8 v.toNat
  | timeval sec usec => Memory.bytesOf 8 sec.toNat ++ Memory.bytesOf 8 usec.toNat
  | vStr s => vstringBytes (BitVec.ofNat 32 s.bytes.length) (dataPos.signExtend 64) packed pad

/-- What is copied behind all parameters. -/
def contents : ParamValue → Option (List UInt8)
  | vStr s => some s.bytes
  | _ => none

end ParamValue

/-- The loop over the parameters. -/
def writesOf (pad : Nat → Padding) (dataPos : BitVec 32) : List Placed → List Write
  | [] => []
  | p :: params =>
    ⟨p.index, p.offset.toNat, p.info.value.bytes (pad p.index) dataPos⟩ ::
      (p.info.value.contents.toList.map fun bytes ↦ ⟨p.index, dataPos.toInt, bytes⟩) ++
        writesOf pad (dataPos + p.info.value.length) params

inductive Result
  | failed (code : Int)
  | block (size : BitVec 32) (writes : List Write)

def blockSize (params : List ParamBlockInfo) : BitVec 32 :=
  minParamSize params + (params.map fun p ↦ p.value.length).sum

/-- There is no block where a value is missing, or its size is negative. -/
def ftaschemaCreateParamBlock (pad : Nat → Padding) (params : List ParamBlockInfo) : Result :=
  if params.any fun p ↦ !p.valueSet then .failed 1
  else if (blockSize params).toInt < 0 then .failed (-1)
  else .block (blockSize params) (writesOf pad (minParamSize params) (finalizeParamInfo 0 0 params))

/-! ## What is to be in a block -/

namespace Write

def Covers (w : Write) (x : Int) : Prop := w.addr ≤ x ∧ x < w.addr + w.bytes.length

instance instDecidableCovers (w : Write) (x : Int) : Decidable (w.Covers x) :=
  inferInstanceAs (Decidable (_ ∧ _))

/-- What is in the block after a write. -/
def put (data : Data) (w : Write) : Data :=
  fun x ↦ if w.Covers x then w.bytes.getD (x - w.addr).toNat 0 else data x

end Write

/-- The contents of a block, from what was there when it was allocated. -/
def contentsOf (init : Data) (writes : List Write) : Data := writes.foldl Write.put init

namespace ParamValue

/-- What is to be read of a value of fixed size. -/
def value : ParamValue → Option Value
  | int v => some (.i v)
  | uInt v => some (.ui v)
  | uShort v => some (.ui v)
  | bool v => some (.ui v)
  | ip v => some (.ui v)
  | uLlong v => some (.ul v)
  | llong v => some (.l v)
  | floating v => some (.f v)
  | timeval sec usec => some (.t sec usec)
  | vStr _ => none

/-- A value is read as it was set.  A string is to be found in the block. -/
def ReadsBack (data : Data) (size offset : BitVec 32) : ParamValue → Prop
  | vStr s =>
    ∃ a, getField data size ⟨offset, .vStr⟩ =
      ⟨.vstrType, some (.vs (BitVec.ofNat 32 s.bytes.length) a)⟩ ∧
      a + s.bytes.length ≤ size.toNat ∧
        ((List.range s.bytes.length).map fun i : Nat ↦ data (a + i)) = s.bytes
  | v => getField data size ⟨offset, v.pdt⟩ = ⟨v.pdt.typeIndicator, v.value⟩

end ParamValue

/-- What is written is in the block, nothing is overwritten for another parameter, and the values
are read back. -/
structure Holds (params : List ParamBlockInfo) (size : BitVec 32) (writes : List Write)
    (init : Data) : Prop where
  inside : ∀ w ∈ writes, 0 ≤ w.addr ∧ w.addr + w.bytes.length ≤ size.toInt
  kept : writes.Pairwise fun w w' ↦ w.param ≠ w'.param → ∀ x, ¬(w.Covers x ∧ w'.Covers x)
  reads : ∀ p ∈ finalizeParamInfo 0 0 params, p.info.value.ReadsBack (contentsOf init writes)
    size p.offset

/-- There is a block that holds the values, whatever was in memory; or none, where a value is
missing. -/
structure BlockGood (params : List ParamBlockInfo) : Prop where
  missing : (∃ p ∈ params, p.valueSet = false) →
    ∀ pad, ∃ code ≠ 0, ftaschemaCreateParamBlock pad params = .failed code
  holds : (∀ p ∈ params, p.valueSet = true) →
    ∀ pad init, ∃ size writes, ftaschemaCreateParamBlock pad params = .block size writes ∧
      Holds params size writes init

/-- How much room the parameters have. -/
def room (params : List ParamBlockInfo) : Nat := (params.map fun p ↦ p.value.pdt.typeSize.toNat).sum

/-- A value is missing, or no parameter is a string and the block is no larger than an `int` can
say. -/
def ParamsOk (params : List ParamBlockInfo) : Prop :=
  (∃ p ∈ params, p.valueSet = false) ∨ ((∀ p ∈ params, p.value.pdt ≠ .vStr) ∧ room params < 2 ^ 31)

/-! ## Places -/

/-- The room of a parameter. -/
def slot (p : ParamBlockInfo) : Nat := p.value.pdt.typeSize.toNat

theorem room_cons (p : ParamBlockInfo) (params : List ParamBlockInfo) : room (p :: params) =
    slot p + room params := rfl

theorem slot_le (p : ParamBlockInfo) : slot p ≤ 16 := by
  obtain ⟨v, _⟩ := p
  cases v <;> exact Nat.le_of_ble_eq_true rfl

theorem slot_le_length (pad : Padding) (dataPos : BitVec 32) (p : ParamBlockInfo) :
    slot p ≤ (p.value.bytes pad dataPos).length := by
  obtain ⟨v, _⟩ := p
  have h4 : ∀ n, (Memory.bytesOf 4 n).length = 4 := Memory.length_bytesOf 4
  have h8 : ∀ n, (Memory.bytesOf 8 n).length = 8 := Memory.length_bytesOf 8
  cases v with
  | vStr s =>
    show 12 ≤ (vstringBytes _ _ _ _).length
    simp only [vstringBytes, List.length_append, h4, h8]
    omega
  | timeval sec usec =>
    show 16 ≤ (_ ++ _ : List UInt8).length
    rw [List.length_append, h8, h8]
  | int v | uInt v | uShort v | bool v | ip v => exact (h4 v.toNat).ge
  | uLlong v | llong v | floating v => exact (h8 v.toNat).ge

theorem length_bytes_of_fixed (pad : Padding) (dataPos : BitVec 32) {p : ParamBlockInfo}
    (hp : p.value.pdt ≠ .vStr) : (p.value.bytes pad dataPos).length = slot p := by
  obtain ⟨v, _⟩ := p
  cases v with
  | vStr s => exact absurd rfl hp
  | timeval sec usec =>
    show (_ ++ _ : List UInt8).length = 16
    rw [List.length_append, Memory.length_bytesOf, Memory.length_bytesOf]
  | int v | uInt v | uShort v | bool v | ip v => exact Memory.length_bytesOf 4 _
  | uLlong v | llong v | floating v => exact Memory.length_bytesOf 8 _

theorem minParamSize_eq (params : List ParamBlockInfo) : minParamSize params =
    BitVec.ofNat 32 (room params) := by
  induction params with
  | nil => rfl
  | cons p params ih =>
    have hcons : minParamSize (p :: params) = p.value.pdt.typeSize + minParamSize params :=
      List.sum_cons
    rw [hcons, ih, room_cons, BitVec.ofNat_add, slot, BitVec.ofNat_toNat, BitVec.setWidth_eq]

/-- The places of the parameters, as numbers. -/
theorem finalizeParamInfo_cons (index o : Nat) (p : ParamBlockInfo) (params : List ParamBlockInfo) :
    finalizeParamInfo index (BitVec.ofNat 32 o) (p :: params) =
      ⟨index, BitVec.ofNat 32 o, p⟩ :: finalizeParamInfo (index + 1) (BitVec.ofNat 32 (o + slot p))
        params := by
  rw [finalizeParamInfo, BitVec.ofNat_add, slot, BitVec.ofNat_toNat, BitVec.setWidth_eq]

variable {pad : Nat → Padding} {params : List ParamBlockInfo} {index o d S : Nat}

theorem toNat_ofNat_of_le (hS : S < 2 ^ 31) (ho : o ≤ S) : (BitVec.ofNat 32 o).toNat = o := by
  rw [BitVec.toNat_ofNat]
  omega

theorem toInt_ofNat_of_le (hS : S < 2 ^ 31) (ho : o ≤ S) : (BitVec.ofNat 32 o).toInt = o := by
  rw [BitVec.toInt_eq_toNat_cond, toNat_ofNat_of_le hS ho, if_pos (by omega)]

/-- What is written ends before `S`. -/
def EndsBy (S : Nat) (writes : List Write) : Prop :=
  ∀ w ∈ writes, w.addr + w.bytes.length ≤ (S : Int)

/-- Where what is written is inside, so is the room of all parameters. -/
theorem room_le {dataPos : BitVec 32} (hS : S < 2 ^ 31) (ho : o ≤ S)
    (hends : EndsBy S (writesOf pad dataPos (finalizeParamInfo index (BitVec.ofNat 32 o) params))) :
    o + room params ≤ S := by
  induction params generalizing index o dataPos with
  | nil => exact ho
  | cons p params ih =>
    rw [finalizeParamInfo_cons, writesOf] at hends
    have hhead := hends _ List.mem_cons_self
    have hslot := slot_le_length (pad index) dataPos p
    dsimp only at hhead
    rw [toNat_ofNat_of_le hS ho] at hhead
    have hrest := @ih (index + 1) (o + slot p) _ (by omega) fun w hw ↦
      hends w (List.mem_cons_of_mem _ (List.mem_append_right _ hw))
    rw [room_cons]
    omega

/-- What is written for the first parameter, and for the others. -/
theorem exists_writesOf_cons (pad : Nat → Padding) (index : Nat) (params : List ParamBlockInfo)
    (p : ParamBlockInfo) (hS : S < 2 ^ 31) (ho : o ≤ S) (hd : d ≤ S) :
    ∃ n own, writesOf pad (BitVec.ofNat 32 d)
        (finalizeParamInfo index (BitVec.ofNat 32 o) (p :: params)) =
          ⟨index, o, p.value.bytes (pad index) (BitVec.ofNat 32 d)⟩ :: (own ++
          writesOf pad (BitVec.ofNat 32 (d + n))
            (finalizeParamInfo (index + 1) (BitVec.ofNat 32 (o + slot p)) params)) ∧
      (∀ w ∈ own, w.addr = (d : Int)) ∧ (EndsBy S own → d + n ≤ S) := by
  rw [finalizeParamInfo_cons, writesOf]
  dsimp only
  rw [toNat_ofNat_of_le hS ho, toInt_ofNat_of_le hS hd]
  obtain ⟨v, _⟩ := p
  cases v with
  | vStr s =>
    refine ⟨s.bytes.length, [⟨index, d, s.bytes⟩], ?_, ?_, fun hown ↦ ?_⟩
    · have hlength : BitVec.ofNat 32 d + (ParamValue.vStr s).length =
        BitVec.ofNat 32 (d + s.bytes.length) :=
        (BitVec.ofNat_add _ _).symm
      rw [hlength]
      rfl
    · intro w hw
      rw [List.mem_singleton.mp hw]
    · have : (d : Int) + s.bytes.length ≤ S := hown _ List.mem_cons_self
      omega
  | int v | uInt v | uShort v | bool v | ip v | uLlong v | llong v | floating v | timeval v w =>
    refine ⟨0, [], ?_, fun w hw ↦ absurd hw List.not_mem_nil, fun _ ↦ hd⟩
    show _ :: ([] ++ writesOf pad (BitVec.ofNat 32 d + 0#32) _) = _
    rw [BitVec.add_zero]
    rfl

theorem EndsBy.tail {w : Write} {own rest : List Write} (h : EndsBy S (w :: (own ++ rest))) :
    EndsBy S own ∧ EndsBy S rest :=
  ⟨fun v hv ↦ h v (List.mem_cons_of_mem w (List.mem_append_left rest hv)),
    fun v hv ↦ h v (List.mem_cons_of_mem w (List.mem_append_right own hv))⟩

/-- Nothing is written before the first parameter. -/
theorem le_addr (hS : S < 2 ^ 31) (ho : o + room params ≤ d) (hd : d ≤ S)
    (hends : EndsBy S (writesOf pad (BitVec.ofNat 32 d)
      (finalizeParamInfo index (BitVec.ofNat 32 o) params))) :
    ∀ w ∈ writesOf pad (BitVec.ofNat 32 d) (finalizeParamInfo index (BitVec.ofNat 32 o) params),
      (o : Int) ≤ w.addr := by
  induction params generalizing index o d with
  | nil => exact fun w hw ↦ absurd hw List.not_mem_nil
  | cons p params ih =>
    rw [room_cons] at ho
    obtain ⟨n, own, hwrites, hown, hn⟩ := exists_writesOf_cons pad index params p hS
      (by omega : o ≤ S) hd
    rw [hwrites] at hends ⊢
    obtain ⟨hendsOwn, hendsRest⟩ := hends.tail
    intro w hw
    rcases List.mem_cons.mp hw with rfl | hw
    · exact le_rfl
    · rcases List.mem_append.mp hw with hw | hw
      · rw [hown w hw]
        omega
      · have := ih (by omega) (hn hendsOwn) hendsRest w hw
        omega

/-- What is written behind a place makes no difference to it. -/
theorem contentsOf_of_lt {writes : List Write} {x : Int} (h : ∀ w ∈ writes, x < w.addr) (m : Data) :
    contentsOf m writes x = m x := by
  induction writes generalizing m with
  | nil => rfl
  | cons w writes ih =>
    have hput : w.put m x = m x := if_neg fun hcovers ↦ absurd hcovers.1
      (not_le.mpr (h w List.mem_cons_self))
    exact (ih (fun v hv ↦ h v (List.mem_cons_of_mem w hv)) _).trans hput

/-- In the room of a parameter there is what was copied for it. -/
theorem exists_contentsOf (pad : Nat → Padding) (index o : Nat) (hS : S < 2 ^ 31)
    (ho : o + room params ≤ d) (hd : d ≤ S)
    (hends : EndsBy S (writesOf pad (BitVec.ofNat 32 d)
      (finalizeParamInfo index (BitVec.ofNat 32 o) params)))
    (m : Data) :
    ∀ p ∈ finalizeParamInfo index (BitVec.ofNat 32 o) params, p.offset.toNat + slot p.info ≤
      o + room params ∧ ∃ dataPos, ∀ k : Nat, k < slot p.info →
        contentsOf m (writesOf pad (BitVec.ofNat 32 d)
          (finalizeParamInfo index (BitVec.ofNat 32 o) params)) (p.offset.toNat + k) =
            (p.info.value.bytes (pad p.index) dataPos).getD k 0 := by
  induction params generalizing index o d m with
  | nil => exact fun p hp ↦ absurd hp List.not_mem_nil
  | cons p params ih =>
    rw [room_cons] at ho ⊢
    obtain ⟨n, own, hwrites, hown, hn⟩ := exists_writesOf_cons pad index params p hS
      (by omega : o ≤ S) hd
    rw [hwrites] at hends ⊢
    obtain ⟨hendsOwn, hendsRest⟩ := hends.tail
    have hrest := le_addr (o := o + slot p) hS (by omega) (hn hendsOwn) hendsRest
    rw [finalizeParamInfo_cons]
    intro q hq
    rcases List.mem_cons.mp hq with rfl | hq
    · dsimp only
      rw [toNat_ofNat_of_le hS (by omega)]
      refine ⟨by omega, BitVec.ofNat 32 d, fun k hk ↦ ?_⟩
      have hlater : ∀ w ∈ own ++ writesOf pad (BitVec.ofNat 32 (d + n))
          (finalizeParamInfo (index + 1) (BitVec.ofNat 32 (o + slot p)) params),
          ((o : Int) + k) < w.addr := by
        intro w hw
        rcases List.mem_append.mp hw with hw | hw
        · rw [hown w hw]
          omega
        · have := hrest w hw
          omega
      have hlength := slot_le_length (pad index) (BitVec.ofNat 32 d) p
      have hcovers : (⟨index, o, p.value.bytes (pad index) (BitVec.ofNat 32 d)⟩ : Write).Covers
        ((o : Int) + k) :=
        ⟨by dsimp only; omega, by dsimp only; omega⟩
      refine (contentsOf_of_lt hlater _).trans ((if_pos hcovers).trans ?_)
      rw [add_sub_cancel_left, Int.toNat_natCast]
    · have happend : ∀ first : Write, ∀ own rest : List Write,
          contentsOf m (first :: (own ++ rest)) =
            contentsOf (contentsOf m (first :: own)) rest := by
        intro first own rest
        rw [contentsOf, ← List.cons_append, List.foldl_append]
        rfl
      rw [happend]
      obtain ⟨hroom, hbytes⟩ := ih (index + 1) (o + slot p) (by omega) (hn hendsOwn) hendsRest
        (contentsOf m (_ :: own)) q hq
      exact ⟨by omega, hbytes⟩

/-! ## Reading -/

theorem number_eq (data : Data) (a : Int) (bs : List UInt8)
    (h : ∀ k : Nat, k < bs.length → data (a + k) = bs.getD k 0) : number data a bs.length =
      Memory.ofBytes bs := by
  refine congrArg Memory.ofBytes (List.ext_getElem (by simp) fun k hk hk' ↦ ?_)
  rw [List.getElem_map, List.getElem_range, h k hk', List.getD_eq_getElem _ _ hk']

theorem word_eq {data : Data} {a : Int} {v : BitVec 32}
    (h : ∀ k : Nat, k < 4 → data (a + k) = (Memory.bytesOf 4 v.toNat).getD k 0) :
      word data a = v := by
  have hlength := Memory.length_bytesOf 4 v.toNat
  have hnumber := number_eq data a (Memory.bytesOf 4 v.toNat) (by rwa [hlength])
  rw [hlength, Memory.ofBytes_bytesOf v.isLt] at hnumber
  rw [word, hnumber, BitVec.ofNat_toNat, BitVec.setWidth_eq]

theorem longWord_eq {data : Data} {a : Int} {v : BitVec 64}
    (h : ∀ k : Nat, k < 8 → data (a + k) = (Memory.bytesOf 8 v.toNat).getD k 0) :
      longWord data a = v := by
  have hlength := Memory.length_bytesOf 8 v.toNat
  have hnumber := number_eq data a (Memory.bytesOf 8 v.toNat) (by rwa [hlength])
  rw [hlength, Memory.ofBytes_bytesOf v.isLt] at hnumber
  rw [longWord, hnumber, BitVec.ofNat_toNat, BitVec.setWidth_eq]

/-- **Values of fixed size are read as they were set.** -/
theorem fixed_reads {data : Data} {size offset dataPos : BitVec 32} {pad : Padding}
    {p : ParamBlockInfo} (hp : p.value.pdt ≠ .vStr) (hfits : offset.toNat + slot p ≤ size.toNat)
    (h : ∀ k : Nat, k < slot p → data (offset.toNat + k) = (p.value.bytes pad dataPos).getD k 0) :
    p.value.ReadsBack data size offset := by
  obtain ⟨v, _⟩ := p
  have hshort : ∀ n ≤ slot ⟨v, ‹Bool›⟩, tooShort size offset n = false := by
    intro n hn
    refine Bool.eq_false_iff.mpr fun hshort ↦ ?_
    have hslot := slot_le ⟨v, ‹Bool›⟩
    have := (tooShort_iff size offset (by omega)).mp hshort
    omega
  cases v with
  | vStr s => exact absurd rfl hp
  | int v | uInt v | uShort v | bool v | ip v =>
    have hword := word_eq h
    show resultOf _ (unpack 4 _ _ data size offset) = _
    rw [unpack, hshort 4 le_rfl, if_neg Bool.false_ne_true]
    dsimp only
    rw [hword]
    rfl
  | uLlong v | llong v | floating v =>
    have hword := longWord_eq h
    show resultOf _ (unpack 8 _ _ data size offset) = _
    rw [unpack, hshort 8 le_rfl, if_neg Bool.false_ne_true]
    dsimp only
    rw [hword]
    rfl
  | timeval sec usec =>
    have hbytes : ∀ k : Nat, k < 16 → data (offset.toNat + k) =
        (Memory.bytesOf 8 sec.toNat ++ Memory.bytesOf 8 usec.toNat).getD k 0 := h
    have hlength := Memory.length_bytesOf 8 sec.toNat
    have hsec : longWord data offset.toNat = sec := by
      refine longWord_eq fun k hk ↦ ?_
      rw [hbytes k (by omega), List.getD_append _ _ _ _ (by omega)]
    have husec : longWord data (offset.toNat + 8) = usec := by
      refine longWord_eq fun k hk ↦ ?_
      have := hbytes (8 + k) (by omega)
      rw [List.getD_append_right _ _ _ _ (by omega), hlength, Nat.add_sub_cancel_left] at this
      rw [← this]
      push_cast
      rw [add_assoc]
    show resultOf _ (unpack 16 _ _ data size offset) = _
    rw [unpack, hshort 16 le_rfl, if_neg Bool.false_ne_true]
    dsimp only
    rw [hsec, husec]
    rfl

/-- The bytes that nobody has set are read as the place of a string. -/
theorem vstrOffset_eq {data : Data} {o : Nat} {dataPos : BitVec 32} {pad : Padding} {s : Text}
    (h : ∀ k : Nat, k < 12 → data (o + k) = ((ParamValue.vStr s).bytes pad dataPos).getD k 0) :
    vstrOffset data o = pad.behindLength := by
  refine word_eq fun k hk ↦ ?_
  have hbytes := h (4 + k) (by omega)
  have hlength := Memory.length_bytesOf 4 (BitVec.ofNat 32 s.bytes.length).toNat
  have hpad := Memory.length_bytesOf 4 pad.behindLength.toNat
  rw [ParamValue.bytes, vstringBytes, List.append_assoc, List.append_assoc, List.append_assoc,
    List.getD_append_right _ _ _ _ (by omega), hlength, Nat.add_sub_cancel_left,
    List.getD_append _ _ _ _ (by omega)] at hbytes
  rw [← hbytes]
  push_cast
  rw [add_assoc]

/-- The place of a string that was read is as it is in the tuple. -/
theorem eq_of_getField_vstr {data : Data} {size offset length : BitVec 32} {a : Nat}
    (h : getField data size ⟨offset, .vStr⟩ = ⟨.vstrType, some (.vs length a)⟩) :
    a = (vstrOffset data offset.toNat).toNat := by
  have hr := congrArg AccessResult.r h
  have hunpack : (ftaUnpackVstr data size offset).retval = some (.vs length a) := hr
  unfold ftaUnpackVstr at hunpack
  split at hunpack
  · exact absurd hunpack (Option.some_ne_none _).symm
  · split at hunpack
    · exact absurd hunpack (Option.some_ne_none _).symm
    · exact (Value.vs.inj (Option.some.inj hunpack)).2.symm

/-! ## Blocks -/

theorem info_mem {offset : BitVec 32} {p : Placed}
    (hp : p ∈ finalizeParamInfo index offset params) : p.info ∈ params := by
  induction params generalizing index offset with
  | nil => exact absurd hp List.not_mem_nil
  | cons q params ih =>
    rcases List.mem_cons.mp hp with rfl | hp
    · exact List.mem_cons_self
    · exact List.mem_cons_of_mem q (ih hp)

theorem exists_placed (index : Nat) (offset : BitVec 32) {q : ParamBlockInfo} (hq : q ∈ params) :
    ∃ p ∈ finalizeParamInfo index offset params, p.info = q := by
  induction params generalizing index offset with
  | nil => exact absurd hq List.not_mem_nil
  | cons r params ih =>
    rcases List.mem_cons.mp hq with rfl | hq
    · exact ⟨_, List.mem_cons_self, rfl⟩
    · obtain ⟨p, hp, hinfo⟩ := ih (index + 1) (offset + r.value.pdt.typeSize) hq
      exact ⟨p, List.mem_cons_of_mem _ hp, hinfo⟩

theorem contents_of_fixed {p : ParamBlockInfo} (hp : p.value.pdt ≠ .vStr) :
    p.value.contents = none ∧ p.value.length = 0 := by
  obtain ⟨v, _⟩ := p
  cases v with
  | vStr s => exact absurd rfl hp
  | int v | uInt v | uShort v | bool v | ip v | uLlong v | llong v | floating v | timeval v w =>
    exact ⟨rfl, rfl⟩

/-- Values of fixed size are written one after the other. -/
theorem writes_of_fixed (pad : Nat → Padding) (index o : Nat) (dataPos : BitVec 32)
    (hfixed : ∀ p ∈ params, p.value.pdt ≠ .vStr) (hS : S < 2 ^ 31) (ho : o + room params ≤ S) :
    (∀ w ∈ writesOf pad dataPos (finalizeParamInfo index (BitVec.ofNat 32 o) params),
        (o : Int) ≤ w.addr ∧ w.addr + w.bytes.length ≤ (o + room params : Nat)) ∧
      (writesOf pad dataPos (finalizeParamInfo index (BitVec.ofNat 32 o) params)).Pairwise
        fun w w' : Write ↦
        w.addr + (w.bytes.length : Int) ≤ w'.addr := by
  induction params generalizing index o dataPos with
  | nil => exact ⟨fun w hw ↦ absurd hw List.not_mem_nil, List.Pairwise.nil⟩
  | cons p params ih =>
    rw [room_cons] at ho ⊢
    have hp := hfixed p List.mem_cons_self
    rw [finalizeParamInfo_cons, writesOf]
    dsimp only
    rw [(contents_of_fixed hp).1, toNat_ofNat_of_le hS (by omega : o ≤ S)]
    obtain ⟨hbounds, hpairwise⟩ := ih (index + 1) (o + slot p) (dataPos + p.value.length)
      (fun q hq ↦ hfixed q (List.mem_cons_of_mem p hq)) (by omega)
    have hlength := length_bytes_of_fixed (pad index) dataPos hp
    refine ⟨fun w hw ↦ ?_, List.pairwise_cons.mpr ⟨fun w hw ↦ ?_, hpairwise⟩⟩
    · rcases List.mem_cons.mp hw with rfl | hw
      · dsimp only
        omega
      · have := hbounds w hw
        omega
    · have := (hbounds w hw).1
      dsimp only
      omega

theorem blockSize_of_fixed (hfixed : ∀ p ∈ params, p.value.pdt ≠ .vStr) :
    blockSize params = BitVec.ofNat 32 (room params) := by
  have hlengths : (params.map fun p ↦ p.value.length).sum = 0 := by
    refine List.sum_eq_zero fun x hx ↦ ?_
    obtain ⟨p, hp, rfl⟩ := List.mem_map.mp hx
    exact (contents_of_fixed (hfixed p hp)).2
  rw [blockSize, hlengths, minParamSize_eq]
  exact BitVec.add_zero _

theorem any_not_valueSet (h : ∀ p ∈ params, p.valueSet = true) :
    (params.any fun p ↦ !p.valueSet) = false := by
  refine List.any_eq_false.mpr fun p hp ↦ ?_
  rw [h p hp]
  exact Bool.false_ne_true

/-- Values of fixed size are held. -/
theorem holds_of_fixed (hfixed : ∀ p ∈ params, p.value.pdt ≠ .vStr) (hroom : room params < 2 ^ 31)
    (hset : ∀ p ∈ params, p.valueSet = true) (pad : Nat → Padding) (init : Data) :
    ∃ size writes, ftaschemaCreateParamBlock pad params = .block size writes ∧
      Holds params size writes init := by
  have hsize := blockSize_of_fixed hfixed
  have htoInt := toInt_ofNat_of_le hroom le_rfl
  have htoNat := toNat_ofNat_of_le hroom le_rfl
  refine ⟨blockSize params, writesOf pad (minParamSize params)
    (finalizeParamInfo 0 0 params), ?_, ?_⟩
  · rw [ftaschemaCreateParamBlock, any_not_valueSet hset, if_neg Bool.false_ne_true, if_neg]
    rw [hsize, htoInt]
    omega
  · rw [minParamSize_eq]
    obtain ⟨hbounds, hpairwise⟩ := writes_of_fixed pad 0 0 (BitVec.ofNat 32 (room params)) hfixed
      hroom (by omega)
    rw [Nat.zero_add] at hbounds
    refine ⟨fun w hw ↦ ?_, hpairwise.imp fun hlt _ x hx ↦ ?_, fun p hp ↦ ?_⟩
    · rw [hsize, htoInt]
      exact hbounds w hw
    · have := hx.1.2
      have := hx.2.1
      omega
    · obtain ⟨hle, dataPos, hbytes⟩ := exists_contentsOf pad 0 0 hroom (by omega)
        le_rfl (fun w hw ↦ (hbounds w hw).2) init p hp
      refine fixed_reads ?_ ?_ hbytes
      · exact hfixed _ (info_mem hp)
      · rw [hsize, htoNat]
        omega

/-- A block that holds its values has room for them, and no string. -/
theorem fixed_of_holds (hset : ∀ p ∈ params, p.valueSet = true)
    (h : ∀ pad init, ∃ size writes, ftaschemaCreateParamBlock pad params = .block size writes ∧
      Holds params size writes init) :
    (∀ p ∈ params, p.value.pdt ≠ .vStr) ∧ room params < 2 ^ 31 := by
  -- The bytes that nobody has set may be such that the place of a string is no place in a block.
  obtain ⟨size, writes, hblock, hholds⟩ := h (fun _ ↦ ⟨BitVec.allOnes 32, 0⟩) fun _ ↦ 0
  rw [ftaschemaCreateParamBlock, any_not_valueSet hset, if_neg Bool.false_ne_true] at hblock
  split at hblock
  · exact absurd hblock Result.noConfusion
  rename_i hneg
  obtain ⟨rfl, rfl⟩ := Result.block.inj hblock
  have hlt := BitVec.toInt_lt (x := blockSize params)
  obtain ⟨S, hS⟩ := Int.eq_ofNat_of_zero_le (not_lt.mp hneg)
  have hSlt : S < 2 ^ 31 := by omega
  have hends : EndsBy S (writesOf (fun _ ↦ ⟨BitVec.allOnes 32, 0⟩) (minParamSize params)
      (finalizeParamInfo 0 (BitVec.ofNat 32 0) params)) := fun w hw ↦ by
    rw [← Int.ofNat_eq_natCast, ← hS]
    exact (hholds.inside w hw).2
  have hroom := room_le (o := 0) hSlt (Nat.zero_le S) hends
  rw [Nat.zero_add] at hroom
  refine ⟨fun q hq hstring ↦ ?_, by omega⟩
  obtain ⟨p, hp, rfl⟩ := exists_placed 0 0 hq
  have hreads := hholds.reads p hp
  rw [minParamSize_eq] at hends hreads
  obtain ⟨-, dataPos, hbytes⟩ := exists_contentsOf _ 0 0 hSlt (by omega) hroom hends
    (fun _ ↦ 0) p hp
  obtain ⟨index, offset, v, set⟩ := p
  cases v with
  | vStr s =>
    obtain ⟨a, hfield, hle, -⟩ := hreads
    have ha := (eq_of_getField_vstr hfield).trans (congrArg BitVec.toNat (vstrOffset_eq hbytes))
    have hones : (BitVec.allOnes 32).toNat = 2 ^ 32 - 1 := rfl
    have hsize := (blockSize params).isLt
    rw [BitVec.toInt_eq_toNat_cond] at hS
    dsimp only at ha
    omega
  | int v | uInt v | uShort v | bool v | ip v | uLlong v | llong v | floating v | timeval v w =>
    exact absurd hstring SchemaParser.DType.noConfusion

/-- **A block holds the values that were set, whatever was in memory, and there is none where a
value is missing, just when a value is missing, or no parameter is a string and the block is no
larger than an `int` can say.** -/
theorem blockGood_iff (params : List ParamBlockInfo) : BlockGood params ↔ ParamsOk params := by
  constructor
  · intro h
    by_cases hset : ∀ p ∈ params, p.valueSet = true
    · exact Or.inr (fixed_of_holds hset (h.holds hset))
    · refine Or.inl ?_
      obtain ⟨p, hset⟩ := not_forall.mp hset
      obtain ⟨hp, hunset⟩ := Classical.not_imp.mp hset
      exact ⟨p, hp, Bool.eq_false_iff.mpr hunset⟩
  · intro h
    refine ⟨?_, fun hset ↦ ?_⟩
    · rintro ⟨p, hp, hunset⟩ pad
      exact ⟨1, by decide, if_pos (List.any_eq_true.mpr ⟨p, hp, by rw [hunset]; rfl⟩)⟩
    · rcases h with ⟨p, hp, hunset⟩ | ⟨hfixed, hroom⟩
      · exact absurd (hset p hp) (Bool.eq_false_iff.mp hunset)
      · exact holds_of_fixed hfixed hroom hset

/-- A single string. -/
theorem not_blockGood_string : ¬∀ params : List ParamBlockInfo, BlockGood params := by
  intro h
  have hgood := (h [⟨.vStr ⟨[1], by decide⟩, true⟩]).holds fun p hp ↦ by
    rw [List.mem_singleton.mp hp]
  exact (fixed_of_holds (fun p hp ↦ by rw [List.mem_singleton.mp hp]) hgood).1 _
    List.mem_cons_self rfl

end Tigon.Ftacmp.ParamBlock
