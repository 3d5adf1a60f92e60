import Tigon.Lib.Memory

/-!
# Fields of tuples

A schema is a row of field types; a field lies behind those before it. 
`ftaschema_get_field_by_index` reads a field of a tuple that has some length, with a function for
its type that checks the length first; `ftaschema_get_trace` reads what is behind the fields of a
temporal tuple.

Lengths are unsigned where tuples are read, but signed where they are checked; the check of a
string's place is in 32 bits; fixed strings go on to the case of time values; and nothing is checked
where a trace is read.

* `fieldSafe_iff` — when what is read of a field is in the tuple, and of the field's type.
* `traceSafe_iff` — when a trace is in the tuple.
* `safe_iff` — **both of them.**
-/

set_option autoImplicit false

namespace Tigon.Ftacmp.SchemaParser

/-! ## Types -/

/-- Types of fields.  The size of a fixed string is an `int`. -/
inductive DType
  | uInt
  | int
  | uLlong
  | llong
  | uShort
  | floating
  | bool
  | vStr
  | timeval
  | ip
  | ipv6
  | fstring (size : BitVec 32)
  | undefined
deriving DecidableEq

inductive ResultType
  | uintType
  | intType
  | ullongType
  | llongType
  | ushortType
  | floatType
  | boolType
  | vstrType
  | timevalType
  | ipType
  | fstringType
  | ipv6Type
  | undefinedType
deriving DecidableEq

namespace DType

def typeSize : DType → BitVec 32
  | int => 4
  | uInt => 4
  | uShort => 4
  | bool => 4
  | ip => 4
  | uLlong => 8
  | llong => 8
  | floating => 8
  | timeval => 16
  | ipv6 => 16
  | vStr => 12
  | fstring size => size
  | undefined => 0

def typeIndicator : DType → ResultType
  | int => .intType
  | uInt => .uintType
  | uShort => .ushortType
  | bool => .boolType
  | uLlong => .ullongType
  | llong => .llongType
  | floating => .floatType
  | timeval => .timevalType
  | ipv6 => .ipv6Type
  | ip => .ipType
  | vStr => .vstrType
  | fstring _ => .fstringType
  | undefined => .undefinedType

end DType

/-! ## Schemas -/

structure TupleAccessInfo where
  offset : BitVec 32
  pdt : DType

structure QueryRep where
  fieldTypes : List DType

namespace QueryRep

/-- Fields from a position on. -/
def finalizeFieldInfo (currPos : BitVec 32) : List DType → List TupleAccessInfo
  | [] => []
  | pdt :: types => ⟨currPos, pdt⟩ :: finalizeFieldInfo (currPos + pdt.typeSize) types

def fieldInfo (q : QueryRep) : List TupleAccessInfo := finalizeFieldInfo 0 q.fieldTypes

def minTupleSize (q : QueryRep) : BitVec 32 := (q.fieldTypes.map DType.typeSize).sum

end QueryRep

/-- The schema of a handle. -/
def schemaOf (schemaList : List QueryRep) (sh : Int) : Option QueryRep :=
  if sh < 0 then none else schemaList[sh.toNat]?

/-! ## Reading -/

/-- Bytes, by their distance to the first one of the tuple. -/
abbrev Data := Int → UInt8

/-- The number in some bytes, lowest byte first. -/
def number (data : Data) (a : Int) (n : Nat) : Nat :=
  Memory.ofBytes ((List.range n).map fun i : Nat ↦ data (a + i))

def word (data : Data) (a : Int) : BitVec 32 := BitVec.ofNat 32 (number data a 4)

def longWord (data : Data) (a : Int) : BitVec 64 := BitVec.ofNat 64 (number data a 8)

/-- What a result holds.  Floating numbers are their bits; addresses are distances to the first byte
of the tuple. -/
inductive Value
  | i (v : BitVec 32)
  | ui (v : BitVec 32)
  | l (v : BitVec 64)
  | ul (v : BitVec 64)
  | f (v : BitVec 64)
  | t (sec usec : BitVec 64)
  | vs (length : BitVec 32) (offset : Nat)
  | fs (size : BitVec 32) (data : Nat)
  | ip6 (v0 v1 v2 v3 : BitVec 32)
deriving DecidableEq

/-- The length check.  The length is an `int`, and compared as an unsigned number of 64 bits. -/
def tooShort (len offset : BitVec 32) (size : Nat) : Bool :=
  (len.signExtend 64).ult (offset.setWidth 64 + BitVec.ofNat 64 size)

/-- A value, and whether there is a problem.  A value that was not initialised is none. -/
structure Unpacked where
  retval : Option Value
  problem : Bool

/-- The check, and the bytes that are copied. -/
def unpack (size : Nat) (read : Data → Nat → Value) (otherwise : Option Value) (data : Data)
    (len offset : BitVec 32) : Unpacked :=
  if tooShort len offset size then ⟨otherwise, true⟩ else ⟨some (read data offset.toNat), false⟩

def ftaUnpackUint : Data → BitVec 32 → BitVec 32 → Unpacked :=
  unpack 4 (fun data o ↦ .ui (word data o)) (some (.ui 0))

def ftaUnpackUshort : Data → BitVec 32 → BitVec 32 → Unpacked :=
  unpack 4 (fun data o ↦ .ui (word data o)) (some (.ui 0))

def ftaUnpackBool : Data → BitVec 32 → BitVec 32 → Unpacked :=
  unpack 4 (fun data o ↦ .ui (word data o)) (some (.ui 0))

def ftaUnpackInt : Data → BitVec 32 → BitVec 32 → Unpacked :=
  unpack 4 (fun data o ↦ .i (word data o)) (some (.i 0))

def ftaUnpackUllong : Data → BitVec 32 → BitVec 32 → Unpacked :=
  unpack 8 (fun data o ↦ .ul (longWord data o)) (some (.ul 0))

def ftaUnpackLlong : Data → BitVec 32 → BitVec 32 → Unpacked :=
  unpack 8 (fun data o ↦ .l (longWord data o)) (some (.l 0))

def ftaUnpackFloat : Data → BitVec 32 → BitVec 32 → Unpacked :=
  unpack 8 (fun data o ↦ .f (longWord data o)) (some (.f 0))

def ftaUnpackTimeval : Data → BitVec 32 → BitVec 32 → Unpacked :=
  unpack 16 (fun data o ↦ .t (longWord data o) (longWord data (o + 8))) none

def ftaUnpackIpv6 : Data → BitVec 32 → BitVec 32 → Unpacked :=
  unpack 16 (fun data o ↦ .ip6 (word data o) (word data (o + 4)) (word data (o + 8))
    (word data (o + 12))) none

/-- The length and the place of a string, as they are in a tuple. -/
def vstrLength (data : Data) (o : Nat) : BitVec 32 := word data o

def vstrOffset (data : Data) (o : Nat) : BitVec 32 := word data (o + 4)

/-- The place of a string is checked too. -/
def ftaUnpackVstr (data : Data) (len offset : BitVec 32) : Unpacked :=
  if tooShort len offset 12 then ⟨none, true⟩
  else if len.ult (vstrOffset data offset.toNat + vstrLength data offset.toNat) then ⟨none, true⟩
  else ⟨some (.vs (vstrLength data offset.toNat) (vstrOffset data offset.toNat).toNat), false⟩

def ftaUnpackFstring (offset : BitVec 32) : Nat := offset.toNat

/-! ## Fields and traces -/

structure AccessResult where
  fieldDataType : ResultType
  r : Option Value

/-- The result, unless there is a problem. -/
def resultOf (type : ResultType) (u : Unpacked) : AccessResult :=
  ⟨if u.problem then .undefinedType else type, u.retval⟩

/-- The case of a fixed string goes on to that of a time value, which is put over what there was. -/
def getFstring (data : Data) (len offset size : BitVec 32) : AccessResult :=
  let retval : AccessResult := ⟨.fstringType, some (.fs size (ftaUnpackFstring offset))⟩
  let u := ftaUnpackTimeval data len offset
  { retval with r := u.retval, fieldDataType := if u.problem then retval.fieldDataType
    else .timevalType }

def getField (data : Data) (len : BitVec 32) (f : TupleAccessInfo) : AccessResult :=
  match f.pdt with
  | .uInt => resultOf .uintType (ftaUnpackUint data len f.offset)
  | .ip => resultOf .ipType (ftaUnpackUint data len f.offset)
  | .int => resultOf .intType (ftaUnpackInt data len f.offset)
  | .uLlong => resultOf .ullongType (ftaUnpackUllong data len f.offset)
  | .llong => resultOf .llongType (ftaUnpackLlong data len f.offset)
  | .uShort => resultOf .ushortType (ftaUnpackUshort data len f.offset)
  | .floating => resultOf .floatType (ftaUnpackFloat data len f.offset)
  | .bool => resultOf .boolType (ftaUnpackBool data len f.offset)
  | .vStr => resultOf .vstrType (ftaUnpackVstr data len f.offset)
  | .fstring size => getFstring data len f.offset size
  | .timeval => resultOf .timevalType (ftaUnpackTimeval data len f.offset)
  | .ipv6 => resultOf .ipv6Type (ftaUnpackIpv6 data len f.offset)
  | .undefined => ⟨.undefinedType, none⟩

/-- The field of an index. -/
def fieldAt (schemaList : List QueryRep) (sh : Int) (index : Nat) : Option TupleAccessInfo :=
  (schemaOf schemaList sh).bind fun q ↦ q.fieldInfo[index]?

def ftaschemaGetFieldByIndex (schemaList : List QueryRep) (sh : Int) (index : Nat) (data : Data)
    (len : BitVec 32) : AccessResult :=
  match fieldAt schemaList sh index with
  | none => ⟨.undefinedType, none⟩
  | some f => getField data len f

/-- `TEMPORAL_TUPLE`. -/
def temporalTuple : UInt8 := 1

structure Trace where
  traceId : BitVec 64
  /-- Where the trace is. -/
  start : Int
  sz : BitVec 32

/-- How many elements there are, in 64 bits without a sign. -/
def traceSize (len minTupleSize : BitVec 32) : BitVec 32 :=
  (((len - minTupleSize).signExtend 64 - 1 - 8) / 64).setWidth 32

/-- There is no trace where there is an error. -/
def ftaschemaGetTrace (schemaList : List QueryRep) (sh : Int) (data : Data) (len : BitVec 32) :
    Option Trace :=
  match schemaOf schemaList sh with
  | none => none
  | some q =>
    if data q.minTupleSize.toInt = temporalTuple then
      some ⟨longWord data (q.minTupleSize.toInt + 1), q.minTupleSize.toInt + 1 + 8,
        traceSize len q.minTupleSize⟩
    else none

/-! ## What is to be returned -/

/-- The value of a field that lies somewhere. -/
def valueAt (data : Data) (o : Nat) : DType → Option Value
  | .uInt => some (.ui (word data o))
  | .uShort => some (.ui (word data o))
  | .bool => some (.ui (word data o))
  | .ip => some (.ui (word data o))
  | .int => some (.i (word data o))
  | .uLlong => some (.ul (longWord data o))
  | .llong => some (.l (longWord data o))
  | .floating => some (.f (longWord data o))
  | .timeval => some (.t (longWord data o) (longWord data (o + 8)))
  | .ipv6 => some (.ip6 (word data o) (word data (o + 4)) (word data (o + 8)) (word data (o + 12)))
  | .vStr => some (.vs (word data o) (word data (o + 4)).toNat)
  | .fstring size => some (.fs size o)
  | .undefined => none

/-- The contents of a string are among the first bytes. -/
def Value.Within (len : Nat) : Value → Prop
  | vs length offset => offset + length.toNat ≤ len
  | _ => True

/-- A field is read as what it is, from the bytes of the tuple. -/
structure ReadAs (data : Data) (len : Nat) (f : TupleAccessInfo) (res : AccessResult) : Prop where
  type : res.fieldDataType = f.pdt.typeIndicator
  value : res.r = valueAt data f.offset.toNat f.pdt
  bounds : f.offset.toNat + f.pdt.typeSize.toNat ≤ len
  contents : ∀ v ∈ res.r, v.Within len

def FieldSafe (schemaList : List QueryRep) (sh : Int) (index : Nat) (data : Data)
    (len : BitVec 32) : Prop :=
  (ftaschemaGetFieldByIndex schemaList sh index data len).fieldDataType = .undefinedType ∨
    ∃ f ∈ fieldAt schemaList sh index,
      ReadAs data len.toNat f (ftaschemaGetFieldByIndex schemaList sh index data len)

/-- A trace is read from the bytes of the tuple, and its elements are there. -/
structure TraceAs (data : Data) (len minTupleSize : Int) (trace : Trace) : Prop where
  marker : 0 ≤ minTupleSize
  traceId : trace.traceId = longWord data (minTupleSize + 1)
  bounds : minTupleSize + 1 + 8 ≤ len
  start : trace.start = minTupleSize + 1 + 8
  elements : trace.start + 64 * trace.sz.toNat ≤ len

def TraceSafe (schemaList : List QueryRep) (sh : Int) (data : Data) (len : BitVec 32) : Prop :=
  ∀ trace ∈ ftaschemaGetTrace schemaList sh data len,
    ∃ q ∈ schemaOf schemaList sh, TraceAs data len.toInt q.minTupleSize.toInt trace

/-- The length is no negative `int`, or the field is in the tuple. -/
def Fits (len offset : BitVec 32) (size : Nat) : Prop :=
  len.toNat < 2 ^ 31 ∨ offset.toNat + size ≤ len.toNat

/-- Where the place of a string is read, it is either rejected, or it does not wrap around. -/
def StringFits (data : Data) (len offset : BitVec 32) : Prop :=
  2 ^ 31 ≤ len.toNat ∨ offset.toNat + 12 ≤ len.toNat →
    len.toNat < ((vstrOffset data offset.toNat).toNat + (vstrLength data offset.toNat).toNat) %
      2 ^ 32 ∨ (offset.toNat + 12 ≤ len.toNat ∧
        (vstrOffset data offset.toNat).toNat + (vstrLength data offset.toNat).toNat < 2 ^ 32)

def FieldOk (data : Data) (len : BitVec 32) (f : TupleAccessInfo) : Prop :=
  match f.pdt with
  | .fstring _ => False
  | .undefined => True
  | .vStr => StringFits data len f.offset
  | pdt => Fits len f.offset pdt.typeSize.toNat

/-- A temporal tuple has room for what is before a trace. -/
def TraceOk (q : QueryRep) (data : Data) (len : BitVec 32) : Prop :=
  data q.minTupleSize.toInt = temporalTuple → 0 ≤ q.minTupleSize.toInt ∧
    q.minTupleSize.toInt + 9 ≤ len.toInt

/-! ## The length check -/

theorem tooShort_iff (len offset : BitVec 32) {size : Nat} (hsize : size < 2 ^ 31) :
    tooShort len offset size = true ↔ len.toNat < 2 ^ 31 ∧ len.toNat < offset.toNat + size := by
  have hlen := len.isLt
  have hoffset := offset.isLt
  rw [tooShort, BitVec.ult_iff_lt, BitVec.lt_def, BitVec.toNat_add, BitVec.toNat_setWidth,
    BitVec.toNat_ofNat, BitVec.toNat_signExtend, BitVec.toNat_setWidth, BitVec.msb_eq_decide]
  split
  · rename_i hmsb
    have := of_decide_eq_true hmsb
    omega
  · rename_i hmsb
    have := of_decide_eq_false (Bool.eq_false_iff.mpr hmsb)
    omega

/-- A field that is checked once. -/
theorem readAs_unpack_iff {data : Data} {len : BitVec 32} {f : TupleAccessInfo} {size : Nat}
    {type : ResultType} {read : Data → Nat → Value} {otherwise : Option Value}
    (hsize : f.pdt.typeSize.toNat = size) (hlt : size < 2 ^ 31)
    (htype : f.pdt.typeIndicator = type) (hne : type ≠ .undefinedType)
    (hread : some (read data f.offset.toNat) = valueAt data f.offset.toNat f.pdt)
    (hwithin : ∀ n, (read data f.offset.toNat).Within n) :
    ((resultOf type (unpack size read otherwise data len f.offset)).fieldDataType = .undefinedType ∨
      ReadAs data len.toNat f (resultOf type (unpack size read otherwise data len f.offset))) ↔
      Fits len f.offset size := by
  unfold unpack Fits
  by_cases hshort : tooShort len f.offset size = true
  · rw [if_pos hshort]
    exact iff_of_true (Or.inl rfl) (Or.inl ((tooShort_iff len f.offset hlt).mp hshort).1)
  · rw [if_neg hshort]
    rw [tooShort_iff len f.offset hlt] at hshort
    constructor
    · rintro (h | h)
      · exact absurd h hne
      · have := h.bounds
        rw [hsize] at this
        exact Or.inr this
    · intro hfits
      refine Or.inr ⟨htype.symm, hread, by rw [hsize]; omega, fun v hv ↦ ?_⟩
      obtain rfl := Option.some.inj hv
      exact hwithin _

theorem readAs_vstr_iff (data : Data) (len : BitVec 32) {f : TupleAccessInfo} (hf : f.pdt = .vStr) :
    ((resultOf .vstrType (ftaUnpackVstr data len f.offset)).fieldDataType = .undefinedType ∨
      ReadAs data len.toNat f (resultOf .vstrType (ftaUnpackVstr data len f.offset))) ↔
      StringFits data len f.offset := by
  have h12 : 12 < 2 ^ 31 := by decide
  have hshort := tooShort_iff len f.offset h12
  have hsum : len.ult (vstrOffset data f.offset.toNat + vstrLength data f.offset.toNat) = true ↔
      len.toNat < ((vstrOffset data f.offset.toNat).toNat +
        (vstrLength data f.offset.toNat).toNat) % 2 ^ 32 := by
    rw [BitVec.ult_iff_lt, BitVec.lt_def, BitVec.toNat_add]
  unfold ftaUnpackVstr StringFits
  by_cases h12 : tooShort len f.offset 12 = true
  · rw [if_pos h12]
    have := hshort.mp h12
    exact iff_of_true (Or.inl rfl) fun _ ↦ by omega
  rw [if_neg h12]
  rw [hshort] at h12
  by_cases hplace : len.ult (vstrOffset data f.offset.toNat + vstrLength data f.offset.toNat) = true
  · rw [if_pos hplace]
    exact iff_of_true (Or.inl rfl) fun _ ↦ Or.inl (hsum.mp hplace)
  rw [if_neg hplace]
  rw [hsum] at hplace
  have hsize : f.pdt.typeSize.toNat = 12 := by rw [hf]; rfl
  constructor
  · rintro (h | h) -
    · exact absurd h (by rw [resultOf]; simp)
    · have hbounds := h.bounds
      have hcontents : _ ≤ _ := h.contents _ rfl
      rw [hsize] at hbounds
      have := len.isLt
      exact Or.inr ⟨hbounds, by omega⟩
  · intro hfits
    rcases hfits (by omega) with h | ⟨hbounds, hlt⟩
    · exact absurd h hplace
    · refine Or.inr ⟨by rw [hf]; rfl, by rw [hf]; rfl, by rw [hsize]; exact hbounds, fun v hv ↦ ?_⟩
      obtain rfl := Option.some.inj hv
      rw [Nat.mod_eq_of_lt hlt] at hplace
      exact Nat.le_of_not_lt hplace

/-- A fixed string is read as a time value, or its value is none. -/
theorem not_readAs_fstring (data : Data) (len : BitVec 32) {f : TupleAccessInfo} {size : BitVec 32}
    (hf : f.pdt = .fstring size) :
    ¬((getFstring data len f.offset size).fieldDataType = .undefinedType ∨
      ReadAs data len.toNat f (getFstring data len f.offset size)) := by
  have htype : f.pdt.typeIndicator = .fstringType := by rw [hf]; rfl
  by_cases hproblem : (ftaUnpackTimeval data len f.offset).problem = true
  · have hfstring : (getFstring data len f.offset size).fieldDataType = .fstringType := by
      rw [getFstring, if_pos hproblem]
    have hnone : (getFstring data len f.offset size).r = none := by
      unfold ftaUnpackTimeval unpack at hproblem
      unfold getFstring ftaUnpackTimeval unpack
      split at hproblem
      · rename_i hshort
        rw [if_pos hshort]
      · exact absurd hproblem Bool.false_ne_true
    rintro (h | h)
    · exact absurd (hfstring.symm.trans h) (by decide)
    · have hvalue := h.value
      rw [hnone, hf] at hvalue
      exact absurd hvalue (Option.some_ne_none _).symm
  · have htimeval : (getFstring data len f.offset size).fieldDataType = .timevalType := by
      rw [getFstring, if_neg hproblem]
    rintro (h | h)
    · exact absurd (htimeval.symm.trans h) (by decide)
    · exact absurd (htimeval.symm.trans (h.type.trans htype)) (by decide)

theorem readAs_getField_iff (data : Data) (len : BitVec 32) (f : TupleAccessInfo) :
    ((getField data len f).fieldDataType = .undefinedType ∨
      ReadAs data len.toNat f (getField data len f)) ↔ FieldOk data len f := by
  obtain ⟨offset, pdt⟩ := f
  cases pdt with
  | vStr => exact readAs_vstr_iff data len rfl
  | fstring size => exact iff_of_false (not_readAs_fstring data len rfl) id
  | undefined => exact iff_of_true (Or.inl rfl) trivial
  | uInt | int | uLlong | llong | uShort | floating | bool | timeval | ip | ipv6 =>
    exact readAs_unpack_iff rfl (by decide) rfl (by decide) rfl fun _ ↦ trivial

/-- **What is read of a field is of its type and in the tuple, or nothing is read, just when there
is no fixed string, the length is no negative `int` where it is exceeded, and the place of a string
does not wrap around into the tuple.** -/
theorem fieldSafe_iff (schemaList : List QueryRep) (sh : Int) (index : Nat) (data : Data)
    (len : BitVec 32) : FieldSafe schemaList sh index data len ↔ ∀ f ∈ fieldAt schemaList sh index,
      FieldOk data len f := by
  unfold FieldSafe ftaschemaGetFieldByIndex
  cases hf : fieldAt schemaList sh index with
  | none => exact iff_of_true (Or.inl rfl) fun f h ↦ absurd h (Option.not_mem_none f)
  | some f =>
    have hiff := readAs_getField_iff data len f
    constructor
    · rintro h f' hf'
      obtain rfl := Option.some.inj hf'
      refine hiff.mp (h.imp_right ?_)
      rintro ⟨f', hf', hread⟩
      obtain rfl := Option.some.inj hf'
      exact hread
    · intro h
      exact (hiff.mpr (h f rfl)).imp_right fun hread ↦ ⟨f, rfl, hread⟩

/-! ## Traces -/

/-- The elements are those that have room. -/
theorem traceSize_toNat {len minTupleSize : BitVec 32} (hmin : 0 ≤ minTupleSize.toInt)
    (hle : minTupleSize.toInt + 9 ≤ len.toInt) :
    (traceSize len minTupleSize).toNat = (len.toInt - minTupleSize.toInt - 9).toNat / 64 := by
  have hlen := len.isLt
  have hsize := minTupleSize.isLt
  rw [BitVec.toInt_eq_toNat_cond] at hmin hle ⊢
  rw [BitVec.toInt_eq_toNat_cond] at hle ⊢
  have hdiff : (len - minTupleSize).toNat = len.toNat - minTupleSize.toNat := by
    rw [BitVec.toNat_sub]
    omega
  have hmsb : (len - minTupleSize).msb = false := by
    rw [BitVec.msb_eq_decide, hdiff]
    exact decide_eq_false (by omega)
  have hlong : ((len - minTupleSize).signExtend 64 - 1 - 8).toNat =
    len.toNat - minTupleSize.toNat - 9 := by
    rw [BitVec.toNat_sub, BitVec.toNat_sub, BitVec.toNat_signExtend, hmsb,
      BitVec.toNat_setWidth, hdiff]
    have h1 : (1 : BitVec 64).toNat = 1 := rfl
    have h8 : (8 : BitVec 64).toNat = 8 := rfl
    rw [h1, h8]
    simp only [Bool.false_eq_true, if_false]
    omega
  rw [traceSize, BitVec.toNat_setWidth, BitVec.toNat_udiv, hlong]
  have h64 : (64 : BitVec 64).toNat = 64 := rfl
  rw [h64]
  omega

/-- **A trace is in the tuple just when the tuple has room for what is before it.** -/
theorem traceSafe_iff (schemaList : List QueryRep) (sh : Int) (data : Data) (len : BitVec 32) :
    TraceSafe schemaList sh data len ↔ ∀ q ∈ schemaOf schemaList sh, TraceOk q data len := by
  unfold TraceSafe ftaschemaGetTrace
  cases hq : schemaOf schemaList sh with
  | none =>
    exact iff_of_true (fun _ h ↦ absurd h (Option.not_mem_none _)) fun _ h ↦
      absurd h (Option.not_mem_none _)
  | some q =>
    dsimp only
    constructor
    · intro h q' hq' htemporal
      obtain rfl := Option.some.inj hq'
      obtain ⟨q', hq', htrace⟩ := h _ (Option.mem_def.mpr (if_pos htemporal))
      obtain rfl := Option.some.inj hq'
      have := htrace.bounds
      exact ⟨htrace.marker, by omega⟩
    · intro h trace htrace
      by_cases htemporal : data q.minTupleSize.toInt = temporalTuple
      · rw [if_pos htemporal] at htrace
        obtain rfl := Option.some.inj htrace
        obtain ⟨hmin, hle⟩ := h q rfl htemporal
        have hsize := traceSize_toNat hmin hle
        refine ⟨q, rfl, hmin, rfl, by omega, rfl, ?_⟩
        dsimp only
        omega
      · rw [if_neg htemporal] at htrace
        exact absurd htrace (Option.not_mem_none _)

/-! ## Tuples -/

/-- What is read of a tuple is in it. -/
structure Safe (schemaList : List QueryRep) (sh : Int) (data : Data) (len traceLen : BitVec 32) :
    Prop where
  field : ∀ index, FieldSafe schemaList sh index data len
  trace : TraceSafe schemaList sh data traceLen

/-- The condition, on all fields of the schema and on its trace. -/
structure Ok (schemaList : List QueryRep) (sh : Int) (data : Data) (len traceLen : BitVec 32) :
    Prop where
  field : ∀ q ∈ schemaOf schemaList sh, ∀ f ∈ q.fieldInfo, FieldOk data len f
  trace : ∀ q ∈ schemaOf schemaList sh, TraceOk q data traceLen

/-- **What is read of a tuple, fields and traces, is in it and of the right type, just when: no
field is a fixed string; the length is no negative `int` where a field exceeds it; the place of a
string does not wrap around into the tuple; and a temporal tuple has room for the identifier of a
trace.** -/
theorem safe_iff (schemaList : List QueryRep) (sh : Int) (data : Data) (len traceLen : BitVec 32) :
    Safe schemaList sh data len traceLen ↔ Ok schemaList sh data len traceLen := by
  have hfield : (∀ index, FieldSafe schemaList sh index data len) ↔
      ∀ q ∈ schemaOf schemaList sh, ∀ f ∈ q.fieldInfo, FieldOk data len f := by
    constructor
    · intro h q hq f hf
      obtain ⟨index, hindex⟩ := List.mem_iff_getElem?.mp hf
      refine (fieldSafe_iff schemaList sh index data len).mp (h index) f ?_
      rw [fieldAt, hq]
      exact hindex
    · intro h index
      refine (fieldSafe_iff schemaList sh index data len).mpr fun f hf ↦ ?_
      obtain ⟨q, hq, hf⟩ := Option.mem_bind_iff.mp hf
      exact h q hq f (List.mem_of_getElem? hf)
  constructor
  · rintro ⟨h, htrace⟩
    exact ⟨hfield.mp h, (traceSafe_iff schemaList sh data traceLen).mp htrace⟩
  · rintro ⟨h, htrace⟩
    exact ⟨hfield.mpr h, (traceSafe_iff schemaList sh data traceLen).mpr htrace⟩

/-- A tuple of one fixed string that has room. -/
theorem not_safe_fstring :
    ¬∀ (schemaList : List QueryRep) (sh : Int) (data : Data) (len traceLen : BitVec 32),
      Safe schemaList sh data len traceLen := by
  intro h
  have hfield := (h [⟨[.fstring 12]⟩] 0 (fun _ ↦ 0) 12 12).field 0
  refine not_readAs_fstring (f := ⟨0, .fstring 12⟩) (fun _ ↦ 0) 12 rfl (hfield.imp_right ?_)
  rintro ⟨f, hf, hread⟩
  obtain rfl := Option.some.inj hf
  exact hread

end Tigon.Ftacmp.SchemaParser
