import Tigon.Lib.Choice
import Tigon.Io.DatumWriter
import Tigon.Io.SchemaGenerator
import Tigon.Io.SchemaTypeAdapter

/-!
# Reading data

`ReflectionDatumReader` reads what was written under one schema as an object for another one.
For a union on the side of the object, the schemas are tried one after another: one that throws an
`IOException` is followed by the next one, at the place in the input where it stopped.

What has been read still has to be stored, in a field or an element whose class has nothing to do
with the schemas.  So storing can fail, and by then the input is gone.

Fields that the object does not have are skipped, by a third recursion over schemas.
-/

set_option autoImplicit false

namespace Tigon.ReflectionDatum

open Io Schema Decoder
open Filter (atTop eventually_atTop eventually_ge_atTop)

/-! ## Java -/

/-- What the reader uses of Java: the fields of classes, the class that a type variable stands for
in the declaration of a field, objects of classes that are not simple, the method `valueOf` of
classes other than enums, conversions of numbers, and the constructors of `URI` and `URL`.  Classes
that are given by their names are not abstract, and collections and maps are not sorted. -/
structure Java where
  fields : JavaType → List (String × JavaType)
  declared : JavaType → String → Option String
  isInstance : String → Datum → Bool
  valueOf : JavaType → String → Option Datum
  intToFloat : BitVec 32 → BitVec 32
  intToDouble : BitVec 32 → BitVec 64
  longToFloat : BitVec 64 → BitVec 32
  longToDouble : BitVec 64 → BitVec 64
  floatToDouble : BitVec 32 → BitVec 64
  floatToString : BitVec 32 → String
  doubleToString : BitVec 64 → String
  isUri : String → Bool
  isUrl : String → Bool

/-! ## Skipping -/

def skipSimple : SimpleType → ByteDecoder Unit
  | .null => pure ()
  | .boolean => do
    let _ ← readBool
  | .int => do
    let _ ← readInt
  | .long => do
    let _ ← readLong
  | .float => skipFloat
  | .double => skipDouble
  | .bytes => skipString
  | .string => skipString

/-- The loop of `skipArray` and `skipMap`, to some number of rounds: **an item, and the next
length**. -/
def skipBlocks (item : ByteDecoder Unit) : Nat → BitVec 32 → ByteDecoder Unit
  | 0, _ => throw .outOfFuel
  | rounds + 1, len =>
    if len = 0 then pure ()
    else do
      item
      let len ← readInt
      skipBlocks item rounds len

/-- The element with this index, which may be a negative number. -/
def atIndex {α : Type} (l : List α) (idx : BitVec 32) : Option α :=
  if 0 ≤ idx.toInt then l[idx.toNat]? else none

/-- Skips a datum, to some depth. -/
def skip : Nat → Schema → ByteDecoder Unit
  | 0, _ => throw .outOfFuel
  | fuel + 1, s =>
    match s with
    | simple t => skipSimple t
    | enum _ => do
      let _ ← readInt
    | array c => do
      let len ← readInt
      skipBlocks (skip fuel c) (fuel + 1) len
    | map k v => do
      let len ← readInt
      skipBlocks (do skip fuel k; skip fuel v) (fuel + 1) len
    | record n fs => (getFields (record n fs)).forM fun f ↦ skip fuel f.2
    | union ss => do
      match atIndex ss (← readInt) with
      | some s => skip fuel s
      | none => throw .nullPointer
    | reference _ => throw .nullPointer
    | self => throw .nullPointer

/-! ## Simple values -/

/-- An `int` as an object of the class. -/
def convertInt (type : JavaType) (value : BitVec 32) : Datum :=
  match type with
  | .simple .byte _ => .byte (value.setWidth 8)
  | .simple .char _ => .char (value.setWidth 16)
  | .simple .short _ => .short (value.setWidth 16)
  | _ => .int value

/-- A string as an object of the class.  The constructor of `URL` throws an `IOException`. -/
def convertString (java : Java) (type : JavaType) (str : String) : ByteDecoder Datum :=
  match type with
  | .simple .uri _ => if java.isUri str then pure (.uri str) else throw .illegalArgument
  | .simple .url _ => if java.isUrl str then pure (.url str) else throw .io
  | _ => pure (.string str)

/-- The bytes in a buffer as an object of the class. -/
def convertBytes (type : JavaType) (buffer : List UInt8) : Datum :=
  match type with
  | .simple .byteArray _ => .bytes buffer
  | .simple .uuid _ => if h : buffer.length = 16 then .uuid ⟨buffer, h⟩ else .byteBuffer buffer
  | _ => .byteBuffer buffer

def readBytes (type : JavaType) : ByteDecoder Datum := do return convertBytes type (← rawReadBytes)

/-- Simple types other than `NULL` and `BYTES`. -/
def resolveType (java : Java) (source : SimpleType) (target : Schema) (type : JavaType) :
    ByteDecoder Datum :=
  match source, target with
  | .boolean, simple .boolean => do return .boolean (← readBool)
  | .boolean, simple .string => do return .string (toString (← readBool))
  | .int, simple .int => do return convertInt type (← readInt)
  | .int, simple .long => do return .long ((← readInt).signExtend 64)
  | .int, simple .float => do return .float (java.intToFloat (← readInt))
  | .int, simple .double => do return .double (java.intToDouble (← readInt))
  | .int, simple .string => do return .string (toString (← readInt).toInt)
  | .long, simple .long => do return .long (← readLong)
  | .long, simple .float => do return .float (java.longToFloat (← readLong))
  | .long, simple .double => do return .double (java.longToDouble (← readLong))
  | .long, simple .string => do return .string (toString (← readLong).toInt)
  | .float, simple .float => do return .float (← readFloat)
  | .float, simple .double => do return .double (java.floatToDouble (← readFloat))
  | .float, simple .string => do return .string (java.floatToString (← readFloat))
  | .double, simple .double => do return .double (← readDouble)
  | .double, simple .string => do return .string (java.doubleToString (← readDouble))
  | .string, simple .string => do convertString java type (← readString)
  | _, _ => throw .io

/-! ## Storing objects -/

/-- The class of an object of a simple one. -/
def Datum.simpleClass : Datum → Option SimpleClass
  | .boolean _ => some .boolean
  | .byte _ => some .byte
  | .short _ => some .short
  | .char _ => some .char
  | .int _ => some .int
  | .long _ => some .long
  | .float _ => some .float
  | .double _ => some .double
  | .string _ => some .string
  | .uri _ => some .uri
  | .url _ => some .url
  | .bytes _ => some .byteArray
  | .byteBuffer _ => some .byteBuffer
  | .uuid _ => some .uuid
  | _ => none

/-- The integer that is widened. -/
def Datum.unboxInt : Datum → Option (BitVec 32)
  | .byte b => some (b.signExtend 32)
  | .short s => some (s.signExtend 32)
  | .char c => some (c.setWidth 32)
  | .int i => some i
  | _ => none

/-- An object in a place of a primitive type: it is unboxed, and widened. -/
def Java.unbox (java : Java) (cls : SimpleClass) (value : Datum) : Option Datum :=
  if value.simpleClass = some cls then some value
  else
    match cls, value with
    | .short, .byte b => some (.short (b.signExtend 16))
    | .int, value => value.unboxInt.map .int
    | .long, value => value.unboxInt.map fun i ↦ .long (i.signExtend 64)
    | .float, .long l => some (.float (java.longToFloat l))
    | .float, value => value.unboxInt.map fun i ↦ .float (java.intToFloat i)
    | .double, .long l => some (.double (java.longToDouble l))
    | .double, .float bits => some (.double (java.floatToDouble bits))
    | .double, value => value.unboxInt.map fun i ↦ .double (java.intToDouble i)
    | _, _ => none

def isArray : JavaType → Bool
  | .array _ => true
  | .simple cls _ => cls = .byteArray
  | _ => false

/-- Whether what has been read for a class is an object of it.  Containers, records and the values
of enums were made for the class; but what `create` makes for an array is a list. -/
def Java.isObject (java : Java) (type : JavaType) (value : Datum) : Bool :=
  match value with
  | .null => true
  | .enum _ => true
  | .array _ => true
  | .map _ => true
  | .record _ _ => !isArray type
  | value =>
    match type with
    | .simple cls _ => value.simpleClass = some cls
    | .record cls => java.isInstance cls value
    | _ => false

/-- What is in a place of the type after an object has been stored there, if it can be. -/
def Java.store (java : Java) (type : JavaType) (value : Datum) : Option Datum :=
  match type with
  | .simple cls true => java.unbox cls value
  | type => if java.isObject type value then some value else none

/-- `Field.set`, for a field of a class.  A field that is declared with a type variable takes what
the class does that this stands for. -/
def Java.set (java : Java) (type : JavaType) (name : String) (fieldType : JavaType)
    (value : Datum) : Option Datum :=
  match java.declared type name with
  | none => java.store fieldType value
  | some cls => if value.isNull || java.isInstance cls value then some value else none

/-- `Array.set`, for all elements; collections take every object. -/
def Java.setAll (java : Java) (type component : JavaType) (es : List Datum) : Option (List Datum) :=
  if isArray type then es.mapM (java.store component) else some es

/-! ## The reader -/

/-- The type of the elements, if this is the type of an array or a collection. -/
def componentType : JavaType → Option JavaType
  | .array c => some c
  | .collection c => some c
  | .simple .byteArray false => some (.simple .byte true)
  | _ => none

/-- Whether `create` makes an object: a class that is not primitive, and not abstract. -/
def creates : JavaType → Bool
  | .simple cls primitive => !primitive && cls ≠ .byteBuffer
  | _ => true

/-- The static method `valueOf` of a class. -/
def Java.invokeValueOf (java : Java) : JavaType → String → Option Datum
  | .enum constants, value => if value ∈ constants then some (.enum value) else none
  | type, value => java.valueOf type value

/-- What `propagate` makes of an exception.  Too deep a recursion is not an exception but an
error. -/
def propagate : Exc → Exc
  | .outOfFuel => .outOfFuel
  | .spoiled => .spoiled
  | .eof => .eof
  | _ => .io

/-- `catch (Exception e) { throw propagate(e); }`. -/
def propagating {α : Type} (p : ByteDecoder α) : ByteDecoder α := fun input ↦
  match p input with
  | .ok a rest => .ok a rest
  | .error e rest => .error (propagate e) rest

/-- The value of an enum, for the index that has been read: `getEnumValues` only works for enums. -/
def enumValueOf (java : Java) (values : List String) (target : Schema) (type : JavaType)
    (idx : BitVec 32) : ByteDecoder Datum :=
  match target with
  | enum targetValues =>
    match atIndex values idx with
    | none => throw .io
    | some value =>
      if value ∈ targetValues then orThrow .io (java.invokeValueOf type value) else throw .io
  | _ => throw .nullPointer

def readEnum (java : Java) (values : List String) (target : Schema) (type : JavaType) :
    ByteDecoder Datum := do
  enumValueOf java values target type (← readInt)

section

/-! The readers of containers, for the reader of what is in there.  `orElse` is what happens between
two schemas of a union. -/

variable (java : Java) (orElse : ByteDecoder Datum → ByteDecoder Datum → ByteDecoder Datum)
  (fuel : Nat) (read : Schema → Schema → JavaType → ByteDecoder Datum)

/-- The loops of `readArray` and `readMap`, to some number of rounds: blocks of items. -/
def readBlocks {α : Type} (item : ByteDecoder α) : Nat → BitVec 32 → ByteDecoder (List α)
  | 0, _ => throw .outOfFuel
  | rounds + 1, len =>
    if len = 0 then pure []
    else do
      let items ← (List.replicate len.toInt.toNat ()).mapM fun _ ↦ item
      let len ← readInt
      return items ++ (← readBlocks item rounds len)

def readItems {α : Type} (item : ByteDecoder α) : ByteDecoder (List α) := do
  let len ← readInt
  readBlocks item (fuel + 1) len

/-- The elements are stored after the last one has been read. -/
def readArray (source target : Schema) (type : JavaType) : ByteDecoder Datum :=
  match componentType type with
  | none => throw .io
  | some component => do
    let es ← readItems fuel (read source target component)
    return .array (← orThrow .illegalArgument (java.setAll type component es))

def readMap (sourceKey sourceValue targetKey targetValue : Schema) (type : JavaType) :
    ByteDecoder Datum :=
  match type with
  | .map keyType valueType => do
    return .map (← readItems fuel do
      return (← read sourceKey targetKey keyType, ← read sourceValue targetValue valueType))
  | .unsupported true => throw .illegalArgument
  | _ => throw .io

/-- The fields of the source, one after another. -/
def readFields (target : Schema) (type : JavaType) : List (String × Schema) →
    ByteDecoder (List (String × Datum))
  | [] => pure []
  | (name, s) :: sourceFields => do
    match target.getFields.lookup name with
    | none =>
      skip fuel s
      readFields target type sourceFields
    | some t =>
      match (java.fields type).lookup name with
      | none => throw .nullPointer
      | some fieldType =>
        let value ← orThrow .illegalArgument (java.set type name fieldType (← read s t fieldType))
        return (name, value) :: (← readFields target type sourceFields)

/-- The identity of a new record does not matter. -/
def readRecord (source target : Schema) (type : JavaType) : ByteDecoder Datum :=
  propagating do
    if creates type then return .record 0 (← readFields java fuel read target type source.getFields)
    else throw .io

/-- `Schema.getType`. -/
def getType : Schema → Option SchemaType
  | simple t => some (.simple t)
  | enum _ => some .enum
  | array _ => some .array
  | map _ _ => some .map
  | union _ => some .union
  | record _ _ => some .record
  | reference _ => some .record
  | self => none

/-- The schemas that are tried for a value of a union: that of the same index, if it has the same
type, and then all. -/
def candidates (s : Schema) (idx : BitVec 32) (ts : List Schema) : List Schema :=
  match atIndex ts idx with
  | none => ts
  | some t => if getType t = getType s then t :: ts else ts

/-- The value of a union, after its index. -/
def readBranch (s : Schema) (idx : BitVec 32) (target : Schema) (type : JavaType) :
    ByteDecoder Datum :=
  match target with
  | union ts => firstOf orElse .io ((candidates s idx ts).map fun t ↦ read s t type)
  | t => read s t type

def readUnion (ss : List Schema) (target : Schema) (type : JavaType) : ByteDecoder Datum := do
  let idx ← readInt
  match atIndex ss idx with
  | none => throw .indexOutOfBounds
  | some s => readBranch orElse read s idx target type

def doRead (source target : Schema) (type : JavaType) : ByteDecoder Datum :=
  match source with
  | simple .null =>
    match target with
    | simple .null => pure .null
    | _ => throw .io
  | simple .bytes =>
    match target with
    | simple .bytes => readBytes type
    | _ => throw .io
  | enum values => readEnum java values target type
  | array s =>
    match target with
    | array t => readArray java fuel read s t type
    | _ => throw .io
  | map sk sv =>
    match target with
    | map tk tv => readMap fuel read sk sv tk tv type
    | _ => throw .io
  | record n fs =>
    match target with
    | record m gs => readRecord java fuel read (record n fs) (record m gs) type
    | _ => throw .io
  | union ss => readUnion orElse read ss target type
  | simple t => resolveType java t target type
  | reference _ => throw .nullPointer
  | self => throw .nullPointer

end

def isUnion : Schema → Bool
  | union _ => true
  | _ => false

/-- The reader, to some depth. -/
def readWith (java : Java) (orElse : ByteDecoder Datum → ByteDecoder Datum → ByteDecoder Datum) :
    Nat → Schema → Schema → JavaType → ByteDecoder Datum
  | 0, _, _, _ => throw .outOfFuel
  | fuel + 1, source, target, type =>
    match isUnion source, target with
    | false, union ts =>
      firstOf orElse .io (ts.map fun t ↦ doRead java orElse fuel (readWith java orElse fuel)
        source t type)
    | _, t => doRead java orElse fuel (readWith java orElse fuel) source t type

/-- `catch (IOException e)`, and on with the next schema. -/
def tryNext (p q : ByteDecoder Datum) : ByteDecoder Datum := catching Exc.isIOException p q

/-- `ReflectionDatumReader.read`. -/
def read (java : Java) (fuel : Nat) (source target : Schema) (type : JavaType) :
    ByteDecoder Datum :=
  readWith java tryNext fuel source target type

theorem atIndex_ofNat {α : Type} (as : List α) {i : Nat} (hi : i < 2 ^ 31) :
    atIndex as (BitVec.ofNat 32 i) = as[i]? := by
  rw [atIndex, Io.toNat_ofNat (by decide) hi, Io.toInt_ofNat (by decide) hi, if_pos (by omega)]

/-! ## Enough fuel -/

/-- From the next one on. -/
theorem eventually_of_succ {p q : Nat → Prop} (hp : ∀ᶠ n in atTop, p n) (h : ∀ n, p n → q (n + 1)) :
    ∀ᶠ n in atTop, q n := by
  obtain ⟨m, hm⟩ := eventually_atTop.mp hp
  refine eventually_atTop.mpr ⟨m + 1, fun n hn ↦ ?_⟩
  obtain ⟨k, rfl⟩ : ∃ k, n = k + 1 := ⟨n - 1, by omega⟩
  exact h k (hm k (by omega))

theorem eventually_of_forall_succ {q : Nat → Prop} (h : ∀ n, q (n + 1)) : ∀ᶠ n in atTop, q n :=
  eventually_of_succ (p := fun _ ↦ True) (Filter.Eventually.of_forall fun _ ↦ trivial) fun n _ ↦ h n

end Tigon.ReflectionDatum
