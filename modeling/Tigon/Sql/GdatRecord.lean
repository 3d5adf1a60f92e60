import Tigon.Lib.Bytes

/-!
# GDAT records

A record is its length, the fields in the order of the schema, a marker for the type of the record,
and the bytes of its strings.  A field of type string is a descriptor: the length of the string,
where it is in the record, and a reserved number.

`GDATEncoder` collects the other fields in a buffer, and strings in a list, with the place in the
buffer where their descriptors belong.  `writeToRecord` puts it all together, and empties the
buffer, but not the list of strings.  So from the second record on, a record has all strings of the
records before it in front of its own; the decoder finds the descriptors of the first record.

## What is here

* `write`, `writeToRecord` — the encoder; `readValue`, `skipValue` — the decoder.
* `Encoded` — what a record should be.
* `encoded_of_fresh` — a record that is written without strings left over **is as it should be**.
* `encodes_iff` — so all sequences of records of a schema are **exactly** if it has no strings, or
  for sequences of one record.
-/

set_option autoImplicit false

open Bytes

namespace Tigon.Gdat

open List

/-! ## Schemas and values -/

/-- The types of fields. -/
inductive GDATFieldType
  | bool
  | int
  | long
  | double
  | string
deriving DecidableEq

/-- The size of a field. -/
def GDATFieldType.size : GDATFieldType → Nat
  | bool => 4
  | int => 4
  | long => 8
  | double => 8
  | string => 12

/-- The fields of a stream; sizes do not overflow. -/
structure StreamSchema where
  fields : List GDATFieldType
  length_lt : fields.length < 2 ^ 26

def getGDATFieldSize (fields : List GDATFieldType) : Nat := (fields.map GDATFieldType.size).sum

/-- The value of a field; a double is its bits. -/
inductive Value
  | bool (b : Bool)
  | int (i : BitVec 32)
  | long (l : BitVec 64)
  | double (bits : BitVec 64)
  | string (s : String)
deriving DecidableEq

def Value.fieldType : Value → GDATFieldType
  | bool _ => .bool
  | int _ => .int
  | long _ => .long
  | double _ => .double
  | string _ => .string

/-- The bytes of a string. -/
def utf8 (s : String) : List UInt8 := s.toByteArray.data.toList

/-- The types of records, and their markers; the encoder writes the first and the last. -/
inductive GDATRecordType
  | data
  | trace
  | eof
deriving DecidableEq

def GDATRecordType.recordMarker : GDATRecordType → UInt8
  | data => 0
  | trace => 1
  | eof => 2

/-! ## The encoder -/

structure GDATEncoder where
  buffer : List UInt8
  stringOffsetLocations : List (Nat × List UInt8)
  stringPayloadSize : Nat

def littleEndian (w n : Nat) : List UInt8 := (toBytes w n).reverse

namespace GDATEncoder

def new : GDATEncoder := ⟨[], [], 0⟩

variable (e : GDATEncoder)

def writeInt (i : BitVec 32) : GDATEncoder :=
  { e with buffer := e.buffer ++ littleEndian 4 i.toNat }

def writeBool (b : Bool) : GDATEncoder := e.writeInt (if b then 1 else 0)

def writeLong (l : BitVec 64) : GDATEncoder :=
  { e with buffer := e.buffer ++ littleEndian 8 l.toNat }

def writeDouble (bits : BitVec 64) : GDATEncoder :=
  { e with buffer := e.buffer ++ littleEndian 8 bits.toNat }

def writeString (s : String) : GDATEncoder :=
  { e with
    stringPayloadSize := e.stringPayloadSize + (utf8 s).length
    stringOffsetLocations := e.stringOffsetLocations ++ [(e.buffer.length, utf8 s)] }

/-- The method for the type of the value. -/
def write : Value → GDATEncoder
  | .bool b => e.writeBool b
  | .int i => e.writeInt i
  | .long l => e.writeLong l
  | .double bits => e.writeDouble bits
  | .string s => e.writeString s

/-- The loop over the strings, from the place in the buffer that has been reached; it fails if a
string belongs before that. -/
def writeFields (buffer : List UInt8) : List (Nat × List UInt8) → Nat → Nat → Option (List UInt8)
  | [], outputArrayCounter, _ => some (buffer.drop outputArrayCounter)
  | (location, stringBytes) :: entries, outputArrayCounter, offsetPointer =>
    if location < outputArrayCounter then none
    else
      (writeFields buffer entries location (offsetPointer + stringBytes.length)).map fun out ↦
        (buffer.drop outputArrayCounter).take (location - outputArrayCounter) ++
          littleEndian 4 stringBytes.length ++ littleEndian 4 offsetPointer ++
            littleEndian 4 0 ++ out

/-- The bytes of the record, and the encoder after it. -/
def writeToRecord (recordMarker : UInt8) : Option (List UInt8 × GDATEncoder) :=
  let buffer := e.buffer ++ [recordMarker]
  let offsetPointer := buffer.length + e.stringOffsetLocations.length * 3 * 4
  (writeFields buffer e.stringOffsetLocations 0 offsetPointer).map fun fields ↦
    (toBytes 4 (offsetPointer + e.stringPayloadSize) ++ fields ++
      e.stringOffsetLocations.flatMap Prod.snd, { e with buffer := [] })

end GDATEncoder

/-! ## The decoder -/

structure GDATDecoder where
  dataRecord : List UInt8
  recordLength : Nat
  position : Nat

namespace GDATDecoder

/-- A decoder for the record at the start of some bytes. -/
def new (bytes : List UInt8) : Option GDATDecoder :=
  if 4 ≤ bytes.length then some ⟨bytes.drop 4, ofBytes (bytes.take 4), 0⟩ else none

variable (d : GDATDecoder)

def reset : GDATDecoder := { d with position := 0 }

/-- Move the position; it stays within the bytes. -/
def skip (n : Nat) : Option GDATDecoder :=
  if d.position + n ≤ d.dataRecord.length then some { d with position := d.position + n } else none

/-- A number of `w` bytes. -/
def get (w : Nat) : Option (Nat × GDATDecoder) :=
  (d.skip w).map fun d' ↦ (ofBytes ((d.dataRecord.drop d.position).take w).reverse, d')

def readInt : Option (BitVec 32 × GDATDecoder) := (d.get 4).map fun (n, d) ↦ (BitVec.ofNat 32 n, d)

def readBool : Option (Bool × GDATDecoder) := d.readInt.map fun (i, d) ↦ (i != 0, d)

def readLong : Option (BitVec 64 × GDATDecoder) := (d.get 8).map fun (n, d) ↦ (BitVec.ofNat 64 n, d)

def readDouble : Option (BitVec 64 × GDATDecoder) :=
  (d.get 8).map fun (n, d) ↦ (BitVec.ofNat 64 n, d)

/-- The bytes from an index on.  Neither end is before the position, as the mark would be lost. -/
def payload (index length : Int) : Option (List UInt8) :=
  if d.position ≤ index ∧ index ≤ d.dataRecord.length ∧ d.position ≤ index + length ∧
      index + length ≤ d.dataRecord.length then
    some ((d.dataRecord.drop index.toNat).take length.toNat)
  else none

/-- The string with these bytes.  Bytes that are no string are left out; there the source has
replacement characters. -/

def decode (bytes : List UInt8) : Option String := String.fromUTF8? ⟨bytes.toArray⟩

def readString : Option (String × GDATDecoder) :=
  d.readInt.bind fun (length, d) ↦ d.readInt.bind fun (index, d) ↦ (d.skip 4).bind fun d ↦
    (d.payload index.toInt length.toInt).bind fun bytes ↦ (decode bytes).map fun s ↦ (s, d)

def skipDouble : Option GDATDecoder := d.skip 8

def skipString : Option GDATDecoder := d.skip (3 * 4)

/-- The method for the type of the field. -/
def readValue : GDATFieldType → Option (Value × GDATDecoder)
  | .bool => d.readBool.map fun (b, d) ↦ (.bool b, d)
  | .int => d.readInt.map fun (i, d) ↦ (.int i, d)
  | .long => d.readLong.map fun (l, d) ↦ (.long l, d)
  | .double => d.readDouble.map fun (bits, d) ↦ (.double bits, d)
  | .string => d.readString.map fun (s, d) ↦ (.string s, d)

/-- Skip a field; there are methods for doubles and strings, the others are read. -/
def skipValue : GDATFieldType → Option GDATDecoder
  | .double => d.skipDouble
  | .string => d.skipString
  | fieldType => (d.readValue fieldType).map Prod.snd

/-- A pass over fields, to read or to skip them; the values of the fields that have been read. -/
def runPass (d : GDATDecoder) : List GDATFieldType → List Bool →
    Option (List (Option Value) × GDATDecoder)
  | fieldType :: fields, true :: plan =>
    (d.readValue fieldType).bind fun (v, d) ↦ (d.runPass fields plan).map fun (vs, d) ↦
    (some v :: vs, d)
  | fieldType :: fields, false :: plan =>
    (d.skipValue fieldType).bind fun d ↦ (d.runPass fields plan).map fun (vs, d) ↦ (none :: vs, d)
  | _, _ => some ([], d)

/-- Passes, with a reset after each of them. -/
def runPasses (d : GDATDecoder) (fields : List GDATFieldType) : List (List Bool) →
    Option (List (List (Option Value)))
  | [] => some []
  | plan :: plans =>
    (d.runPass fields plan).bind fun (vs, d) ↦ (d.reset.runPasses fields plans).map (vs :: ·)

end GDATDecoder

/-! ## Records -/

/-- The bytes of a value in the buffer. -/
def Value.fixed : Value → List UInt8
  | bool b => littleEndian 4 (if b then 1 else 0 : BitVec 32).toNat
  | int i => littleEndian 4 i.toNat
  | long l => littleEndian 8 l.toNat
  | double bits => littleEndian 8 bits.toNat
  | string _ => []

/-- The bytes of a value at the end of the record. -/
def Value.payload : Value → List UInt8
  | string s => utf8 s
  | _ => []

/-- A record of a schema that is not too long, and whether it is written as an EOF record. -/
structure Record (schema : StreamSchema) where
  values : List Value
  eof : Bool
  typed : values.map Value.fieldType = schema.fields
  length_lt : 4 + getGDATFieldSize schema.fields + 1 +
    (values.flatMap Value.payload).length < 2 ^ 31

variable {schema : StreamSchema}

def Record.recordType (r : Record schema) : GDATRecordType := if r.eof then .eof else .data

def GDATEncoder.writeTo (e : GDATEncoder) : Option (List UInt8 × GDATEncoder) :=
  e.writeToRecord GDATRecordType.data.recordMarker

def GDATEncoder.writeEOFRecord (e : GDATEncoder) : Option (List UInt8 × GDATEncoder) :=
  e.writeToRecord GDATRecordType.eof.recordMarker

/-- Write a record. -/
def GDATEncoder.writeRecord (e : GDATEncoder) (r : Record schema) :
    Option (List UInt8 × GDATEncoder) :=
  if r.eof then (r.values.foldl write e).writeEOFRecord else (r.values.foldl write e).writeTo

/-- Write records one after another; the bytes of each. -/
def GDATEncoder.writeRecords (e : GDATEncoder) : List (Record schema) → Option (List (List UInt8))
  | [] => some []
  | r :: rs => (e.writeRecord r).bind fun (out, e) ↦ (e.writeRecords rs).map (out :: ·)

/-- The descriptors in the fields: length and offset. -/
def stringDescriptors : List GDATFieldType → List UInt8 → List (Nat × Nat)
  | [], _ => []
  | .string :: fields, data =>
    (ofBytes (data.take 4).reverse, ofBytes ((data.drop 4).take 4).reverse) ::
      stringDescriptors fields (data.drop 12)
  | fieldType :: fields, data => stringDescriptors fields (data.drop fieldType.size)

/-- What a pass should return. -/
def expected (values : List Value) (plan : List Bool) : List (Option Value) :=
  zipWith (fun v read ↦ if read then some v else none) values plan

/-- The bytes of a record **are as they should be**, whatever comes after them. -/
structure Encoded (r : Record schema) (out : List UInt8) : Prop where
  /-- The length in front is that of the rest. -/
  length_eq : 4 ≤ out.length ∧ ofBytes (out.take 4) = out.length - 4
  /-- The marker is behind the fields of fixed size. -/
  marker : out[4 + getGDATFieldSize schema.fields]? = some r.recordType.recordMarker
  /-- The strings are inside of the record, and do not overlap. -/
  inside : ∀ p ∈ stringDescriptors schema.fields (out.drop 4), p.2 + p.1 ≤ out.length - 4
  disjoint : (stringDescriptors schema.fields (out.drop 4)).Pairwise
    fun p q ↦ p.2 + p.1 ≤ q.2 ∨ q.2 + q.1 ≤ p.2
  /-- A decoder gives the values, in as many passes as asked for and whatever fields it skips in
  each of them. -/
  decoded : ∀ (rest : List UInt8) (plans : List (List Bool)),
    (GDATDecoder.new (out ++ rest)).bind (fun d ↦ d.runPasses schema.fields plans) =
      some (plans.map (expected r.values))

/-- All records are written, and are as they should be. -/
def AllEncoded (records : List (Record schema)) : Prop :=
  ∃ outs, GDATEncoder.new.writeRecords records = some outs ∧ List.Forall₂ Encoded records outs

/-! ## What the encoder writes -/

/-- The strings, and their places in the buffer. -/
def locations : Nat → List Value → List (Nat × List UInt8)
  | _, [] => []
  | pos, .string s :: values => (pos, utf8 s) :: locations pos values
  | pos, v :: values => locations (pos + v.fixed.length) values

/-- The bytes of a descriptor. -/
def descriptor (length offset : Nat) : List UInt8 :=
  littleEndian 4 length ++ littleEndian 4 offset ++ littleEndian 4 0

/-- The fields, when the strings are at an offset. -/
def body : Nat → List Value → List UInt8
  | _, [] => []
  | offset, .string s :: values =>
    descriptor (utf8 s).length offset ++ body (offset + (utf8 s).length) values
  | offset, v :: values => v.fixed ++ body offset values

@[simp]
theorem length_littleEndian (w n : Nat) : (littleEndian w n).length = w := by
  rw [littleEndian, length_reverse, length_toBytes]

theorem length_descriptor (length offset : Nat) : (descriptor length offset).length = 12 := by
  simp [descriptor]

theorem foldl_write (values : List Value) (e : GDATEncoder) : values.foldl GDATEncoder.write e =
    ⟨e.buffer ++ values.flatMap Value.fixed, e.stringOffsetLocations ++
      locations e.buffer.length values, e.stringPayloadSize +
        (values.flatMap Value.payload).length⟩ := by
  induction values generalizing e with
  | nil => simp [locations]
  | cons v values ih =>
    rw [foldl_cons, ih]
    cases v <;> simp [GDATEncoder.write, GDATEncoder.writeBool, GDATEncoder.writeInt,
      GDATEncoder.writeLong, GDATEncoder.writeDouble, GDATEncoder.writeString, Value.fixed,
        Value.payload, locations, Nat.add_assoc]

theorem getGDATFieldSize_cons (fieldType : GDATFieldType) (fields : List GDATFieldType) :
    getGDATFieldSize (fieldType :: fields) = fieldType.size + getGDATFieldSize fields := rfl

variable {v : Value}

theorem length_fixed (h : v.fieldType ≠ .string) : v.fixed.length = v.fieldType.size := by
  cases v with
  | string s => exact absurd rfl h
  | _ => exact length_littleEndian _ _

theorem length_body (values : List Value) (offset : Nat) :
    (body offset values).length = getGDATFieldSize (values.map Value.fieldType) := by
  induction values generalizing offset with
  | nil => rfl
  | cons v values ih =>
    cases v <;> simp [body, length_descriptor, Value.fixed, Value.fieldType, getGDATFieldSize,
      GDATFieldType.size, ih]

theorem length_locations (values : List Value) (pos : Nat) :
    (values.flatMap Value.fixed).length + (locations pos values).length * 3 * 4 =
      getGDATFieldSize (values.map Value.fieldType) := by
  induction values generalizing pos with
  | nil => rfl
  | cons v values ih =>
    have h := ih (pos + v.fixed.length)
    have h' := ih pos
    cases v <;> simp [locations, Value.fixed, Value.fieldType, getGDATFieldSize, GDATFieldType.size]
      at h h' ⊢ <;> omega

theorem flatMap_snd_locations (values : List Value) (pos : Nat) :
    (locations pos values).flatMap Prod.snd = values.flatMap Value.payload := by
  induction values generalizing pos with
  | nil => rfl
  | cons v values ih => cases v <;> simp [locations, Value.payload, ih]

theorem exists_string (h : v.fieldType = .string) : ∃ s, v = .string s := by
  cases v with
  | string s => exact ⟨s, rfl⟩
  | _ => cases h

theorem locations_cons (h : v.fieldType ≠ .string) (pos : Nat) (values : List Value) :
    locations pos (v :: values) = locations (pos + v.fixed.length) values := by
  cases v with
  | string s => exact absurd rfl h
  | _ => rfl

theorem body_cons (h : v.fieldType ≠ .string) (offset : Nat) (values : List Value) :
    body offset (v :: values) = v.fixed ++ body offset values := by
  cases v with
  | string s => exact absurd rfl h
  | _ => rfl

/-- The loop puts each descriptor in its place. -/
theorem writeFields_locations (values : List Value) (front tail : List UInt8) (counter offset : Nat)
    (h : counter ≤ front.length) :
    GDATEncoder.writeFields (front ++ values.flatMap Value.fixed ++ tail)
      (locations front.length values) counter offset =
        some (front.drop counter ++ body offset values ++ tail) := by
  induction values generalizing front counter offset with
  | nil => simp [locations, GDATEncoder.writeFields, body, drop_append_of_le_length h]
  | cons v values ih =>
    by_cases hs : v.fieldType = .string
    · obtain ⟨s, rfl⟩ := exists_string hs
      have hih := ih front front.length (offset + (utf8 s).length) le_rfl
      have hfixed : (Value.string s :: values).flatMap Value.fixed =
        values.flatMap Value.fixed := rfl
      have hfront : ((front ++ values.flatMap Value.fixed ++ tail).drop counter).take
          (front.length - counter) = front.drop counter := by
        rw [append_assoc, drop_append_of_le_length h,
          take_append_of_le_length (by simp)]
        exact take_of_length_le (by simp)
      rw [locations, GDATEncoder.writeFields, if_neg (by omega), hfixed, hih,
        Option.map_some, hfront]
      simp [body, descriptor]
    · have hih := ih (front ++ v.fixed) counter offset (by rw [length_append]; omega)
      rw [length_append, drop_append_of_le_length h] at hih
      rw [locations_cons hs, body_cons hs, flatMap_cons, ← append_assoc front, hih]
      simp

/-- The encoder without strings, and the bytes of values it gives. -/
theorem writeToRecord_locations (values : List Value) (marker : UInt8) :
    (values.foldl GDATEncoder.write GDATEncoder.new).writeToRecord marker =
      some (toBytes 4 (getGDATFieldSize (values.map Value.fieldType) + 1 +
        (values.flatMap Value.payload).length) ++
          (body (getGDATFieldSize (values.map Value.fieldType) + 1) values ++ [marker]) ++
        values.flatMap Value.payload,
        ⟨[], locations 0 values, (values.flatMap Value.payload).length⟩) := by
  have hlen := length_locations values 0
  have hoff : (values.flatMap Value.fixed ++ [marker]).length +
      (locations 0 values).length * 3 * 4 = getGDATFieldSize (values.map Value.fieldType) + 1 := by
    rw [length_append, length_singleton]
    omega
  have hloop := writeFields_locations values [] [marker] 0
    (getGDATFieldSize (values.map Value.fieldType) + 1) le_rfl
  rw [nil_append, length_nil, drop_nil, nil_append] at hloop
  simp only [GDATEncoder.writeToRecord, foldl_write, GDATEncoder.new, nil_append,
    length_nil, Nat.zero_add, hoff, hloop, Option.map_some, flatMap_snd_locations]

/-! ## What the decoder reads -/

theorem ofBytes_littleEndian {w n : Nat} (h : n < 256 ^ w) :
    ofBytes (littleEndian w n).reverse = n := by
  rw [littleEndian, reverse_reverse, ofBytes_toBytes h]

namespace GDATDecoder

/-- A decoder that has passed the first bytes. -/
def reading (n : Nat) (front tail : List UInt8) : GDATDecoder := ⟨front ++ tail, n, front.length⟩

variable {n w k : Nat} {front bs tail : List UInt8}

theorem skip_append (h : bs.length = w) :
    (reading n front (bs ++ tail)).skip w = some (reading n (front ++ bs) tail) := by
  rw [skip, reading, if_pos (by simp [← h])]
  simp [reading, ← h]

theorem get_littleEndian (h : k < 256 ^ w) :
    (reading n front (littleEndian w k ++ tail)).get w =
      some (k, reading n (front ++ littleEndian w k) tail) := by
  have htake : ((front ++ (littleEndian w k ++ tail)).drop front.length).take w =
    littleEndian w k := by
    rw [drop_left, take_left' (length_littleEndian w k)]
  rw [get, skip_append (length_littleEndian w k), Option.map_some, reading, htake,
    ofBytes_littleEndian h]

theorem readInt_littleEndian (n : Nat) (front tail : List UInt8) (i : BitVec 32) :
    (reading n front (littleEndian 4 i.toNat ++ tail)).readInt =
      some (i, reading n (front ++ littleEndian 4 i.toNat) tail) := by
  have h : i.toNat < 256 ^ 4 := i.isLt
  simp [readInt, get_littleEndian h]

theorem readLong_littleEndian (n : Nat) (front tail : List UInt8) (l : BitVec 64) :
    (reading n front (littleEndian 8 l.toNat ++ tail)).readLong =
      some (l, reading n (front ++ littleEndian 8 l.toNat) tail) := by
  have h : l.toNat < 256 ^ 8 := l.isLt
  simp [readLong, get_littleEndian h]

theorem decode_utf8 (s : String) : decode (utf8 s) = some s := by
  have h : (⟨(utf8 s).toArray⟩ : ByteArray) = s.toByteArray := by simp [utf8]
  rw [decode, h, String.fromUTF8?, dif_pos s.isValidUTF8]
  rfl

theorem toInt_ofNat {k : Nat} (h : k < 2 ^ 31) : (BitVec.ofNat 32 k).toInt = k := by
  rw [BitVec.toInt_eq_toNat_of_lt] <;> rw [BitVec.toNat_ofNat] <;> omega

theorem readInt_ofNat (h : k < 2 ^ 31) : (reading n front (littleEndian 4 k ++ tail)).readInt =
    some (BitVec.ofNat 32 k, reading n (front ++ littleEndian 4 k) tail) := by
  have hk : (BitVec.ofNat 32 k).toNat = k := by
    rw [BitVec.toNat_ofNat]
    omega
  have hread := readInt_littleEndian n front tail (BitVec.ofNat 32 k)
  rwa [hk] at hread

/-- A string is read if its bytes are at the offset in the descriptor. -/
theorem readString_descriptor (n : Nat) {s : String} {before after : List UInt8}
    (h : front ++ (descriptor (utf8 s).length before.length ++ tail) = before ++ utf8 s ++ after)
    (hf : front.length + 12 ≤ before.length) (hlt : before.length + (utf8 s).length < 2 ^ 31) :
    (reading n front (descriptor (utf8 s).length before.length ++ tail)).readString =
      some (s, reading n (front ++ descriptor (utf8 s).length before.length) tail) := by
  have hwhole : front ++ littleEndian 4 (utf8 s).length ++ littleEndian 4 before.length ++
      littleEndian 4 0 ++ tail = before ++ utf8 s ++ after := by
    rw [← h, descriptor]
    simp
  have hpayload : (reading n (front ++ littleEndian 4 (utf8 s).length ++
      littleEndian 4 before.length ++ littleEndian 4 0) tail).payload before.length
        (utf8 s).length = some (utf8 s) := by
    rw [reading, payload, if_pos]
    · rw [hwhole, Int.toNat_natCast, Int.toNat_natCast, append_assoc, drop_left,
        take_left]
    · rw [hwhole]
      simp
      omega
  have hlength := toInt_ofNat (k := (utf8 s).length) (by omega)
  have hindex := toInt_ofNat (k := before.length) (by omega)
  rw [descriptor, append_assoc, append_assoc, readString, readInt_ofNat (by omega),
    Option.bind_some]
  dsimp only
  rw [readInt_ofNat (by omega), Option.bind_some]
  dsimp only
  rw [skip_append (length_littleEndian 4 0), Option.bind_some, hlength, hindex, hpayload,
    Option.bind_some, decode_utf8, Option.map_some]
  simp

/-- A value that is no string is read, or skipped. -/
theorem readValue_fixed (n : Nat) (front tail : List UInt8) (h : v.fieldType ≠ .string) :
    (reading n front (v.fixed ++ tail)).readValue v.fieldType =
      some (v, reading n (front ++ v.fixed) tail) := by
  cases v with
  | bool b =>
    have hread := readInt_littleEndian n front tail (if b then 1 else 0)
    simp only [readValue, Value.fieldType, readBool, Value.fixed, hread, Option.map_some]
    cases b <;> rfl
  | int i => simp [readValue, Value.fieldType, Value.fixed, readInt_littleEndian]
  | long l => simp [readValue, Value.fieldType, Value.fixed, readLong_littleEndian]
  | double bits =>
    have hread := readLong_littleEndian n front tail bits
    rw [readLong] at hread
    simp [readValue, Value.fieldType, Value.fixed, readDouble, hread]
  | string s => exact absurd rfl h

theorem skipValue_fixed (h : v.fieldType ≠ .string) :
    (reading n front (v.fixed ++ tail)).skipValue v.fieldType =
      some (reading n (front ++ v.fixed) tail) := by
  have hread := readValue_fixed n front tail h
  cases v with
  | double bits => exact skip_append (length_littleEndian 8 bits.toNat)
  | string s => exact absurd rfl h
  | _ => rw [skipValue, hread, Option.map_some] <;> simp [Value.fieldType]

/-- **A pass over the fields of a record** returns its values, if the strings come after all
fields. -/
theorem runPass_body (values : List Value) (plan : List Bool) (front before : List UInt8)
    {after : List UInt8} (h : front ++ (body before.length values ++ tail) = before ++
      values.flatMap Value.payload ++ after)
    (hf : front.length + getGDATFieldSize (values.map Value.fieldType) ≤ before.length)
    (hlt : before.length + (values.flatMap Value.payload).length < 2 ^ 31) :
    ∃ d, (reading n front (body before.length values ++ tail)).runPass
        (values.map Value.fieldType) plan = some (expected values plan, d) ∧
      d.reset = reading n [] (front ++ (body before.length values ++ tail)) := by
  induction values generalizing plan front before with
  | nil => exact ⟨reading n front (body before.length [] ++ tail), by simp [runPass, expected], rfl⟩
  | cons v values ih =>
    cases plan with
    | nil =>
      exact ⟨reading n front (body before.length (v :: values) ++ tail),
        by simp [runPass, expected], rfl⟩
    | cons read plan =>
      by_cases hs : v.fieldType = .string
      · obtain ⟨s, rfl⟩ := exists_string hs
        have hbody : body before.length (.string s :: values) =
            descriptor (utf8 s).length before.length ++ body (before ++ utf8 s).length values := by
          rw [length_append]
          rfl
        have hpayload : (Value.string s :: values).flatMap Value.payload =
          utf8 s ++ values.flatMap Value.payload := rfl
        rw [hbody, append_assoc] at h ⊢
        rw [map_cons, getGDATFieldSize_cons] at hf
        change front.length + (12 + _) ≤ _ at hf
        rw [hpayload, length_append] at hlt
        have hwhole : front ++ (descriptor (utf8 s).length before.length ++
            (body (before ++ utf8 s).length values ++ tail)) =
            before ++ utf8 s ++ (values.flatMap Value.payload ++ after) := by
          rw [h, hpayload]
          simp only [append_assoc]
        have hread := readString_descriptor n hwhole (by omega) (by omega)
        obtain ⟨d, hd, hreset⟩ := ih plan (front ++ descriptor (utf8 s).length before.length)
          (before ++ utf8 s) (by rw [append_assoc, hwhole, ← append_assoc])
          (by rw [length_append, length_descriptor, length_append]; omega)
          (by rw [length_append]; omega)
        refine ⟨d, ?_, by rw [hreset, append_assoc]⟩
        cases read with
        | true =>
          simp only [map_cons, Value.fieldType, runPass, readValue, hread, Option.map_some,
            Option.bind_some, hd]
          rfl
        | false =>
          simp only [map_cons, Value.fieldType, runPass, skipValue, skipString,
            skip_append (length_descriptor _ _), Option.bind_some, hd, Option.map_some]
          rfl
      · have hpayload : (v :: values).flatMap Value.payload = values.flatMap Value.payload := by
          cases v with
          | string s => exact absurd rfl hs
          | _ => rfl
        rw [body_cons hs, append_assoc] at h ⊢
        rw [map_cons, getGDATFieldSize_cons, ← length_fixed hs] at hf
        rw [hpayload] at h hlt
        obtain ⟨d, hd, hreset⟩ := ih plan (front ++ v.fixed) before (by rw [append_assoc, h])
          (by rw [length_append]; omega) hlt
        refine ⟨d, ?_, by rw [hreset, append_assoc]⟩
        cases read with
        | true =>
          simp only [map_cons, runPass, readValue_fixed _ _ _ hs, Option.bind_some, hd,
            Option.map_some]
          rfl
        | false =>
          simp only [map_cons, runPass, skipValue_fixed hs, Option.bind_some, hd,
            Option.map_some]
          rfl

/-- **Passes with resets between them** return the values each time. -/
theorem runPasses_body (n : Nat) (values : List Value) (plans : List (List Bool))
    {before after : List UInt8} (h : body before.length values ++ tail = before ++
      values.flatMap Value.payload ++ after)
    (hf : getGDATFieldSize (values.map Value.fieldType) ≤ before.length)
    (hlt : before.length + (values.flatMap Value.payload).length < 2 ^ 31) :
    (reading n [] (body before.length values ++ tail)).runPasses
      (values.map Value.fieldType) plans = some (plans.map (expected values)) := by
  induction plans with
  | nil => rfl
  | cons plan plans ih =>
    obtain ⟨d, hd, hreset⟩ := runPass_body (n := n) values plan [] before
      (by rwa [nil_append]) (by simpa using hf) hlt
    rw [runPasses, hd, Option.bind_some]
    dsimp only
    rw [hreset, nil_append, ih]
    rfl

end GDATDecoder

/-! ## Descriptors -/

variable {fieldType : GDATFieldType}

theorem stringDescriptors_cons (h : fieldType ≠ .string) (fields : List GDATFieldType)
    (data : List UInt8) :
    stringDescriptors (fieldType :: fields) data = stringDescriptors fields
      (data.drop fieldType.size) := by
  cases fieldType with
  | string => exact absurd rfl h
  | _ => rfl

theorem stringDescriptors_descriptor {length offset : Nat} (hl : length < 2 ^ 31)
    (ho : offset < 2 ^ 31) (fields : List GDATFieldType) (tail : List UInt8) :
    stringDescriptors (.string :: fields) (descriptor length offset ++ tail) =
      (length, offset) :: stringDescriptors fields tail := by
  have hlength : ((descriptor length offset ++ tail).take 4) = littleEndian 4 length := by
    rw [descriptor, append_assoc, append_assoc,
      take_left' (length_littleEndian 4 length)]
  have hoffset : (((descriptor length offset ++ tail).drop 4).take 4) = littleEndian 4 offset := by
    rw [descriptor, append_assoc, append_assoc,
      drop_left' (length_littleEndian 4 length),
        take_left' (length_littleEndian 4 offset)]
  rw [stringDescriptors, hlength, hoffset, ofBytes_littleEndian (by omega),
    ofBytes_littleEndian (by omega), drop_left' (length_descriptor length offset)]

/-- The strings are after the offset, one behind the other. -/
theorem stringDescriptors_body (values : List Value) (offset : Nat) (tail : List UInt8)
    (hlt : offset + (values.flatMap Value.payload).length < 2 ^ 31) :
    (∀ p ∈ stringDescriptors (values.map Value.fieldType) (body offset values ++ tail),
      offset ≤ p.2 ∧ p.2 + p.1 ≤ offset + (values.flatMap Value.payload).length) ∧
    (stringDescriptors (values.map Value.fieldType) (body offset values ++ tail)).Pairwise
      fun p q ↦ p.2 + p.1 ≤ q.2 := by
  induction values generalizing offset with
  | nil => exact ⟨by simp [stringDescriptors], .nil⟩
  | cons v values ih =>
    by_cases hs : v.fieldType = .string
    · obtain ⟨s, rfl⟩ := exists_string hs
      have hpayload : ((Value.string s :: values).flatMap Value.payload).length =
          (utf8 s).length + (values.flatMap Value.payload).length := by
        rw [← length_append]
        rfl
      have hbody : body offset (.string s :: values) ++ tail =
          descriptor (utf8 s).length offset ++
            (body (offset + (utf8 s).length) values ++ tail) := by
        rw [← append_assoc]
        rfl
      rw [hpayload] at hlt ⊢
      obtain ⟨hin, hpair⟩ := ih (offset + (utf8 s).length) (by omega)
      rw [hbody, map_cons, hs, stringDescriptors_descriptor (by omega) (by omega)]
      refine ⟨?_, pairwise_cons.mpr ⟨fun q hq ↦ ?_, hpair⟩⟩
      · intro p hp
        rcases mem_cons.mp hp with rfl | hp
        · dsimp only
          omega
        · have := hin p hp
          omega
      · have := hin q hq
        dsimp only
        omega
    · have hpayload : (v :: values).flatMap Value.payload = values.flatMap Value.payload := by
        cases v with
        | string s => exact absurd rfl hs
        | _ => rfl
      rw [hpayload] at hlt ⊢
      rw [body_cons hs, map_cons, stringDescriptors_cons hs, append_assoc,
        drop_left' (length_fixed hs)]
      exact ih offset hlt

/-! ## Records without strings left over -/

/-- The bytes of a record. -/
def Record.bytes (r : Record schema) : List UInt8 :=
  toBytes 4 (getGDATFieldSize schema.fields + 1 + (r.values.flatMap Value.payload).length) ++
    (body (getGDATFieldSize schema.fields + 1) r.values ++ [r.recordType.recordMarker]) ++
    r.values.flatMap Value.payload

theorem writeRecord_new (r : Record schema) : GDATEncoder.new.writeRecord r =
    some (r.bytes, ⟨[], locations 0 r.values, (r.values.flatMap Value.payload).length⟩) := by
  have hwrite := writeToRecord_locations r.values r.recordType.recordMarker
  rw [r.typed] at hwrite
  rw [Record.bytes, ← hwrite, GDATEncoder.writeRecord, GDATEncoder.writeEOFRecord,
    GDATEncoder.writeTo, Record.recordType]
  split <;> rfl

/-- **These bytes are as they should be.** -/
theorem encoded_bytes (r : Record schema) : Encoded r r.bytes := by
  have htyped := r.typed
  have hlt := r.length_lt
  have hbody : (body (getGDATFieldSize schema.fields + 1) r.values).length =
    getGDATFieldSize schema.fields := by
    rw [length_body, htyped]
  have hbefore : (body (getGDATFieldSize schema.fields + 1) r.values ++
      [r.recordType.recordMarker]).length = getGDATFieldSize schema.fields + 1 := by
    rw [length_append, hbody, length_singleton]
  have hlength : r.bytes.length =
      4 + (getGDATFieldSize schema.fields + 1) + (r.values.flatMap Value.payload).length := by
    rw [Record.bytes, length_append, length_append, hbefore, length_toBytes]
  have htake : r.bytes.take 4 =
      toBytes 4 (getGDATFieldSize schema.fields + 1 + (r.values.flatMap Value.payload).length) := by
    rw [Record.bytes, append_assoc, take_left' (length_toBytes 4 _)]
  have hdrop : r.bytes.drop 4 = body (getGDATFieldSize schema.fields + 1) r.values ++
      ([r.recordType.recordMarker] ++ r.values.flatMap Value.payload) := by
    rw [Record.bytes, append_assoc, drop_left' (length_toBytes 4 _), append_assoc]
  have hdescriptors := stringDescriptors_body r.values (getGDATFieldSize schema.fields + 1)
    ([r.recordType.recordMarker] ++ r.values.flatMap Value.payload) (by omega)
  rw [htyped] at hdescriptors
  constructor
  · rw [hlength, htake, ofBytes_toBytes (by omega)]
    omega
  · rw [← getElem?_drop, hdrop, getElem?_append_right (by omega), hbody, Nat.sub_self]
    rfl
  · rw [hdrop, hlength]
    intro p hp
    have := hdescriptors.1 p hp
    omega
  · rw [hdrop]
    exact hdescriptors.2.imp fun h ↦ .inl h
  · intro rest plans
    have hwhole : body (body (getGDATFieldSize schema.fields + 1) r.values ++
        [r.recordType.recordMarker]).length r.values ++
        ([r.recordType.recordMarker] ++ r.values.flatMap Value.payload ++ rest) =
        (body (getGDATFieldSize schema.fields + 1) r.values ++ [r.recordType.recordMarker]) ++
          r.values.flatMap Value.payload ++ rest := by
      rw [hbefore]
      simp only [append_assoc]
    have hread := GDATDecoder.runPasses_body (ofBytes ((r.bytes ++ rest).take 4))
      r.values plans hwhole (by rw [hbefore, htyped]; omega) (by rw [hbefore]; omega)
    have hdata : (r.bytes ++ rest).drop 4 = body (getGDATFieldSize schema.fields + 1) r.values ++
        ([r.recordType.recordMarker] ++ r.values.flatMap Value.payload ++ rest) := by
      rw [drop_append_of_le_length (by omega), hdrop]
      simp only [append_assoc]
    rw [hbefore, htyped, ← hdata] at hread
    rw [GDATDecoder.new, if_pos (by rw [length_append, hlength]; omega),
      Option.bind_some, ← hread]
    rfl

theorem locations_of_notMem {values : List Value} (h : .string ∉ values.map Value.fieldType)
    (pos : Nat) : locations pos values = [] ∧ values.flatMap Value.payload = [] := by
  induction values generalizing pos with
  | nil => exact ⟨rfl, rfl⟩
  | cons v values ih =>
    have hs : v.fieldType ≠ .string := fun hs ↦ h (mem_map.mpr ⟨v, mem_cons_self, hs⟩)
    obtain ⟨hl, hp⟩ := ih (fun hm ↦ h (mem_cons_of_mem _ hm)) (pos + v.fixed.length)
    rw [locations_cons hs, flatMap_cons, hl, hp]
    cases v with
    | string s => exact absurd rfl hs
    | _ => exact ⟨rfl, rfl⟩

/-- **Without strings all records are as they should be.** -/
theorem allEncoded_of_notMem (h : .string ∉ schema.fields) (records : List (Record schema)) :
    AllEncoded records := by
  induction records with
  | nil => exact ⟨[], rfl, .nil⟩
  | cons r records ih =>
    obtain ⟨outs, houts, hall⟩ := ih
    have hempty := locations_of_notMem (r.typed.symm ▸ h) 0
    refine ⟨r.bytes :: outs, ?_, .cons (encoded_bytes r) hall⟩
    rw [GDATEncoder.writeRecords, writeRecord_new, hempty.1, hempty.2, Option.bind_some]
    exact congrArg (Option.map _) houts

theorem allEncoded_of_length_le (records : List (Record schema)) (h : records.length ≤ 1) :
    AllEncoded records := by
  cases records with
  | nil => exact ⟨[], rfl, .nil⟩
  | cons r records =>
    obtain rfl := length_eq_zero_iff.mp (Nat.le_zero.mp (Nat.le_of_succ_le_succ h))
    refine ⟨[r.bytes], ?_, .cons (encoded_bytes r) .nil⟩
    rw [GDATEncoder.writeRecords, writeRecord_new, Option.bind_some]
    rfl

/-! ## Strings left over -/

/-- A value of a type, with a given string. -/
def Value.ofString (s : String) : GDATFieldType → Value
  | .bool => .bool false
  | .int => .int 0
  | .long => .long 0
  | .double => .double 0
  | .string => .string s

@[simp]
theorem fieldType_ofString (s : String) (fieldType : GDATFieldType) :
    (Value.ofString s fieldType).fieldType = fieldType := by
  cases fieldType <;> rfl

theorem map_fieldType_ofString (s : String) (fields : List GDATFieldType) :
    (fields.map (Value.ofString s)).map Value.fieldType = fields := by
  rw [map_map]
  exact (map_congr_left fun t _ ↦ fieldType_ofString s t).trans (map_id _)

theorem length_payload_ofString (s : String) (fields : List GDATFieldType) :
    ((fields.map (Value.ofString s)).flatMap Value.payload).length ≤ fields.length *
    (utf8 s).length := by
  induction fields with
  | nil => exact Nat.zero_le _
  | cons fieldType fields ih =>
    have hone : (Value.ofString s fieldType).payload.length ≤ (utf8 s).length := by
      cases fieldType <;> simp [Value.ofString, Value.payload]
    rw [map_cons, flatMap_cons, length_append, length_cons, Nat.succ_mul]
    omega

theorem getGDATFieldSize_le (fields : List GDATFieldType) : getGDATFieldSize fields ≤
    fields.length * 12 := by
  induction fields with
  | nil => exact Nat.zero_le _
  | cons fieldType fields ih =>
    rw [getGDATFieldSize_cons, length_cons, Nat.succ_mul]
    cases fieldType <;> simp only [GDATFieldType.size] <;> omega

/-- A record that has the same short string in all its fields of type string. -/
def Record.ofString (schema : StreamSchema) (s : String) (h : (utf8 s).length ≤ 1) :
    Record schema where
  values := schema.fields.map (Value.ofString s)
  eof := false
  typed := map_fieldType_ofString s schema.fields
  length_lt := by
    have hsize := getGDATFieldSize_le schema.fields
    have hpayload := length_payload_ofString s schema.fields
    have hle := Nat.mul_le_mul_left schema.fields.length h
    have hlt := schema.length_lt
    omega

theorem length_utf8_empty : (utf8 "").length ≤ 1 := by decide

theorem values_ofString {s : String} (h : (utf8 s).length ≤ 1) :
    (Record.ofString schema s h).values = schema.fields.map (Value.ofString s) := rfl

/-- The place of the first string. -/
theorem locations_append {values : List Value} (h : .string ∉ values.map Value.fieldType)
    (pos : Nat) (s : String) (values' : List Value) :
      locations pos (values ++ .string s :: values') =
        (pos + getGDATFieldSize (values.map Value.fieldType), utf8 s) ::
          locations (pos + getGDATFieldSize (values.map Value.fieldType)) values' := by
  induction values generalizing pos with
  | nil => rfl
  | cons v values ih =>
    have hs : v.fieldType ≠ .string := fun hs ↦ h (mem_map.mpr ⟨v, mem_cons_self, hs⟩)
    rw [cons_append, locations_cons hs, ih (fun hm ↦ h (mem_cons_of_mem _ hm)),
      map_cons, getGDATFieldSize_cons, length_fixed hs, Nat.add_assoc]

namespace GDATDecoder

variable {d d' : GDATDecoder} {n : Nat} {front tail : List UInt8}

theorem eq_of_skip {m : Nat} (h : d.skip m = some d') :
    d' = { d with position := d.position + m } := by
  rw [skip] at h
  split at h
  · exact (Option.some.inj h).symm
  · cases h

theorem eq_of_skipValue (h : d.skipValue fieldType = some d') :
    d' = { d with position := d.position + fieldType.size } := by
  cases fieldType with
  | double => exact eq_of_skip h
  | string => exact eq_of_skip h
  | _ =>
    simp only [skipValue, readValue, readBool, readInt, readLong, get, Option.map_map,
      Function.comp_def, Option.map_id'] at h
    exact eq_of_skip h

/-- A pass that skips fields and reads the next one. -/
theorem readValue_of_runPass {skipped fields : List GDATFieldType}
    {vs : List (Option Value)}
    (h : d.runPass (skipped ++ fieldType :: fields)
      (replicate skipped.length false ++ [true]) = some (vs, d')) :
    ∃ v d'', ({ d with position := d.position + getGDATFieldSize skipped } : GDATDecoder).readValue
      fieldType = some (v, d'') ∧ vs = replicate skipped.length none ++ [some v] := by
  induction skipped generalizing d d' vs with
  | nil =>
    obtain ⟨⟨v, d''⟩, hread, h⟩ := Option.bind_eq_some_iff.mp h
    have hnil : d''.runPass fields [] = some ([], d'') := by cases fields <;> rfl
    dsimp only at h
    rw [hnil] at h
    exact ⟨v, d'', hread, by simpa using (congrArg Prod.fst (Option.some.inj h)).symm⟩
  | cons t skipped ih =>
    obtain ⟨d₁, hskip, h⟩ := Option.bind_eq_some_iff.mp h
    obtain ⟨⟨ws, d₂⟩, hrest, h⟩ := Option.map_eq_some_iff.mp h
    obtain ⟨v, d'', hread, hws⟩ := ih hrest
    rw [eq_of_skipValue hskip] at hread
    obtain rfl := congrArg Prod.fst h
    refine ⟨v, d'', ?_, by rw [hws]; rfl⟩
    rw [getGDATFieldSize_cons, ← Nat.add_assoc]
    exact hread

/-- A descriptor of length zero gives the empty string. -/
theorem readString_zero {s : String}
    (h : (reading n front (littleEndian 4 0 ++ tail)).readString = some (s, d)) : s = "" := by
  rw [readString, readInt_ofNat (by omega), Option.bind_some] at h
  obtain ⟨⟨index, d₁⟩, -, h⟩ := Option.bind_eq_some_iff.mp h
  obtain ⟨d₂, -, h⟩ := Option.bind_eq_some_iff.mp h
  obtain ⟨bytes, hbytes, h⟩ := Option.bind_eq_some_iff.mp h
  rw [payload] at hbytes
  split at hbytes
  · obtain rfl := Option.some.inj hbytes
    have hempty : decode [] = some "" := decode_utf8 ""
    rw [toInt_ofNat (by omega), Nat.cast_zero, Int.toNat_zero, take_zero, hempty] at h
    exact (congrArg Prod.fst (Option.some.inj h)).symm
  · cases hbytes

end GDATDecoder

theorem length_flatMap_fixed {values : List Value} (h : .string ∉ values.map Value.fieldType) :
    (values.flatMap Value.fixed).length = getGDATFieldSize (values.map Value.fieldType) := by
  have hsize := length_locations values 0
  rw [(locations_of_notMem h 0).1] at hsize
  simpa using hsize

/-- The start of a record when the empty string is left over. -/
theorem exists_tail_of_writeToRecord {e e' : GDATEncoder} {marker : UInt8} {front tail : List UInt8}
    {entries : List (Nat × List UInt8)} {out : List UInt8} (hb : e.buffer = front ++ tail)
    (hl : e.stringOffsetLocations = (front.length, []) :: entries)
    (h : e.writeToRecord marker = some (out, e')) :
    ∃ tail', out.drop 4 = front ++ (littleEndian 4 0 ++ tail') := by
  simp only [GDATEncoder.writeToRecord, hb, hl] at h
  generalize (front ++ tail ++ [marker]).length + ((front.length, []) :: entries).length * 3 *
    4 = offset at h
  obtain ⟨fields, hfields, h⟩ := Option.map_eq_some_iff.mp h
  rw [GDATEncoder.writeFields, if_neg (Nat.not_lt_zero _)] at hfields
  obtain ⟨out', -, rfl⟩ := Option.map_eq_some_iff.mp hfields
  refine ⟨littleEndian 4 offset ++ littleEndian 4 0 ++ out' ++
    ((front.length, []) :: entries).flatMap Prod.snd, ?_⟩
  rw [← (Prod.mk.inj h).1, append_assoc, drop_left' (length_toBytes 4 _), drop_zero,
    Nat.sub_zero, append_assoc front, take_left, length_nil]
  simp only [append_assoc]

/-- The value that a pass should read after the skipped ones. -/
theorem expected_append (values values' : List Value) (v : Value) :
    expected (values ++ v :: values') (replicate values.length false ++ [true]) =
      replicate values.length none ++ [some v] := by
  induction values with
  | nil => simp [expected]
  | cons w values ih => exact congrArg (none :: ·) ih

/-- **The second record is wrong** when the first has empty strings, and the second has others. -/
theorem not_encoded_of_leftOver (h : .string ∈ schema.fields) {s : String}
    (hs : (utf8 s).length ≤ 1) (hne : s ≠ "") {k : Nat} {e' : GDATEncoder} {out : List UInt8}
    (hwrite : (⟨[], locations 0 (Record.ofString schema "" length_utf8_empty).values, k⟩ :
      GDATEncoder).writeRecord (Record.ofString schema s hs) = some (out, e')) :
        ¬ Encoded (Record.ofString schema s hs) out := by
  intro hencoded
  obtain ⟨skipped, fields, hfields, hnot⟩ := eq_append_cons_of_mem h
  have hvalues : ∀ s : String, schema.fields.map (Value.ofString s) =
      skipped.map (Value.ofString s) ++ .string s :: fields.map (Value.ofString s) := by
    intro s
    rw [hfields, map_append]
    rfl
  have hlen : ((skipped.map (Value.ofString s)).flatMap Value.fixed).length =
    getGDATFieldSize skipped := by
    rw [length_flatMap_fixed ((map_fieldType_ofString s skipped).symm ▸ hnot),
      map_fieldType_ofString]
  -- the descriptor of the first record is where the one of the second should be
  have hlocations : locations 0 (schema.fields.map (Value.ofString "")) =
      (((skipped.map (Value.ofString s)).flatMap Value.fixed).length, []) ::
        locations (getGDATFieldSize skipped) (fields.map (Value.ofString "")) := by
    rw [hvalues, locations_append ((map_fieldType_ofString "" skipped).symm ▸ hnot),
      map_fieldType_ofString, Nat.zero_add, hlen]
    rfl
  have hbuffer : (schema.fields.map (Value.ofString s)).flatMap Value.fixed =
      (skipped.map (Value.ofString s)).flatMap Value.fixed ++
      (fields.map (Value.ofString s)).flatMap Value.fixed := by
    rw [hvalues, flatMap_append]
    rfl
  rw [GDATEncoder.writeRecord, if_neg (by exact Bool.false_ne_true), foldl_write,
    GDATEncoder.writeTo, values_ofString, values_ofString, hlocations] at hwrite
  obtain ⟨tail, htail⟩ := exists_tail_of_writeToRecord hbuffer (cons_append ..) hwrite
  have hdecoded := hencoded.decoded [] [replicate skipped.length false ++ [true]]
  rw [append_nil, GDATDecoder.new, if_pos hencoded.length_eq.1, Option.bind_some, htail,
    hfields] at hdecoded
  obtain ⟨⟨vs, d⟩, hpass, hdecoded⟩ := Option.bind_eq_some_iff.mp hdecoded
  obtain ⟨v, d', hread, rfl⟩ := GDATDecoder.readValue_of_runPass hpass
  have hexpected := expected_append (skipped.map (Value.ofString s)) (fields.map (Value.ofString s))
    (.string s)
  rw [length_map, ← hvalues] at hexpected
  rw [values_ofString, map_cons, hexpected] at hdecoded
  have hv : v = .string s := by
    simpa [GDATDecoder.runPasses] using hdecoded
  rw [Nat.zero_add, ← hlen] at hread
  obtain ⟨⟨s', d''⟩, hstring, hs'⟩ := Option.map_eq_some_iff.mp hread
  have hempty := GDATDecoder.readString_zero hstring
  have hv' := (Prod.mk.inj hs').1
  rw [hv, hempty] at hv'
  exact hne (Value.string.inj hv').symm

theorem length_utf8_a : (utf8 "a").length ≤ 1 := by decide

/-- Sequences of records that are not as they should be. -/
theorem not_allEncoded_cons_cons (h : .string ∈ schema.fields) (records : List (Record schema)) :
    ¬ AllEncoded (Record.ofString schema "" length_utf8_empty :: Record.ofString schema "a"
      length_utf8_a :: records) := by
  rintro ⟨outs, houts, hall⟩
  rw [GDATEncoder.writeRecords, writeRecord_new, Option.bind_some] at houts
  obtain ⟨outs', houts', rfl⟩ := Option.map_eq_some_iff.mp houts
  obtain ⟨⟨out, e⟩, hout, hrest⟩ := Option.bind_eq_some_iff.mp houts'
  obtain ⟨outs'', -, rfl⟩ := Option.map_eq_some_iff.mp hrest
  obtain ⟨-, hall⟩ := forall₂_cons.mp hall
  obtain ⟨hencoded, -⟩ := forall₂_cons.mp hall
  exact not_encoded_of_leftOver h length_utf8_a (by decide) hout hencoded

/-- **Exactly then all sequences of records are as they should be:** the schema has no strings, or
only one record is written. -/
theorem encodes_iff (schema : StreamSchema) (n : Nat) :
    (∀ records : List (Record schema), records.length = n → AllEncoded records) ↔
      .string ∉ schema.fields ∨ n ≤ 1 := by
  constructor
  · intro h
    by_contra hcon
    obtain ⟨hmem, hn⟩ := not_or.mp hcon
    refine not_allEncoded_cons_cons (not_not.mp hmem) (replicate (n - 2)
      (Record.ofString schema "" length_utf8_empty)) (h _ ?_)
    rw [length_cons, length_cons, length_replicate]
    omega
  · rintro (h | h) records hlen
    · exact allEncoded_of_notMem h records
    · exact allEncoded_of_length_le records (by omega)

/-- Two records of one string: the empty one, and another. -/
theorem exists_not_allEncoded : ∃ (schema : StreamSchema) (records : List (Record schema)),
    schema.fields = [.string] ∧ records.map (fun r ↦ r.values) = [[.string ""], [.string "a"]] ∧
      ¬ AllEncoded records := by
  have hlt : [GDATFieldType.string].length < 2 ^ 26 := by decide
  refine ⟨⟨[.string], hlt⟩, [.ofString _ "" length_utf8_empty, .ofString _ "a" length_utf8_a],
    rfl, rfl, ?_⟩
  exact not_allEncoded_cons_cons mem_cons_self []

end Tigon.Gdat
