import Tigon.Io.BinaryCodec
import Tigon.Io.Schema

/-!
# Writing data

`ReflectionDatumWriter` writes an object under a schema.  A datum is what it reads of the object: a
record is given by an identity and the values that reflection finds for the fields of the schema, in
the order of these.

A union is written as an index and a value.  The writer assumes that the first schema of a union is
that of all objects and the second one is `NULL`.

## What is here

* `write` — the writer, with the objects it has seen.
* `Encodes` — the format: which bytes are those of a datum of a schema.
* `encodes_of_encode` — **what is written is in the format**, as far as the writer's assumptions
hold. -/

set_option autoImplicit false

namespace Tigon.ReflectionDatum

open Io Schema

/-! ## Data -/

/-- An object as the writer sees it, and the reader makes it.  Floating point numbers are given by
their bits, a `UUID` by its sixteen bytes, and a `URI` or `URL` by its text. -/
inductive Datum
  | null
  | boolean (b : Bool)
  | byte (b : BitVec 8)
  | short (s : BitVec 16)
  | char (c : BitVec 16)
  | int (i : BitVec 32)
  | long (l : BitVec 64)
  | float (bits : BitVec 32)
  | double (bits : BitVec 64)
  | string (s : String)
  | uri (s : String)
  | url (s : String)
  | bytes (bs : List UInt8)
  | byteBuffer (bs : List UInt8)
  | uuid (bs : { bs : List UInt8 // bs.length = 16 })
  | enum (value : String)
  | array (elements : List Datum)
  | map (entries : List (Datum × Datum))
  | record (ref : Nat) (fields : List (String × Datum))

def Datum.isNull : Datum → Bool
  | null => true
  | _ => false

/-- A cast that fails; `null` passes it, but not the next call. -/
def Datum.wrong {α : Type} : Datum → Except Exc α
  | null => .error .nullPointer
  | _ => .error .classCast

/-- `Number.intValue`.  A `Character` is not a number. -/
def Datum.intValue : Datum → Except Exc (BitVec 32)
  | byte b => .ok (b.signExtend 32)
  | short s => .ok (s.signExtend 32)
  | int i => .ok i
  | long l => .ok (l.setWidth 32)
  | d => d.wrong

/-- `Number.longValue`. -/
def Datum.longValue : Datum → Except Exc (BitVec 64)
  | byte b => .ok (b.signExtend 64)
  | short s => .ok (s.signExtend 64)
  | int i => .ok (i.signExtend 64)
  | long l => .ok l
  | d => d.wrong

/-- The bytes of `writeBytes`: those of a `ByteBuffer`, a `UUID` or a byte array. -/
def Datum.bytesValue : Datum → Except Exc (List UInt8)
  | bytes bs => .ok bs
  | byteBuffer bs => .ok bs
  | uuid bs => .ok bs.1
  | d => d.wrong

/-- `toString`, for objects whose class has the schema of strings. -/
def Datum.stringValue : Datum → Except Exc String
  | string s => .ok s
  | uri s => .ok s
  | url s => .ok s
  | d => d.wrong

/-! ## The writer -/

/-- The cases of simple types.  Whatever is written as `NULL` is written as nothing. -/
def writeSimple (d : Datum) : SimpleType → Except Exc (List UInt8)
  | .null => .ok []
  | .boolean =>
    match d with
    | .boolean b => .ok (writeBool b)
    | d => d.wrong
  | .int => do return writeInt (← d.intValue)
  | .long => do return writeLong (← d.longValue)
  | .float =>
    match d with
    | .float bits => .ok (writeFloat bits)
    | d => d.wrong
  | .double =>
    match d with
    | .double bits => .ok (writeDouble bits)
    | d => d.wrong
  | .bytes => do return Io.writeBytes (← d.bytesValue)
  | .string => do return writeString (← d.stringValue)

/-- The cases without other data inside. -/
def writeLeaf (d : Datum) : Schema → Except Exc (List UInt8)
  | simple t => writeSimple d t
  | enum vs =>
    match d with
    | .enum value =>
      if value ∈ vs then .ok (writeInt (BitVec.ofNat 32 (vs.idxOf value))) else .error .io
    | d => d.wrong
  | _ => d.wrong

/-- `null`; the fields of a record are read in a `try` block. -/
def writeNull : Schema → Except Exc (List UInt8)
  | union _ => .ok (writeInt 1)
  | record _ _ => .error .io
  | s => writeLeaf .null s

/-- The union case, for an object: the first schema, which may be a union itself. -/
def unwrap : Schema → List UInt8 × Schema
  | union (s :: _) => (writeInt 0 ++ (unwrap s).1, (unwrap s).2)
  | s => ([], s)

/-- An object in front of the schemas that are not unions. -/
def writeUnion (d : Datum) (writeObject : Schema → List Nat → Except Exc (List UInt8 × List Nat))
    (s : Schema) (seenRefs : List Nat) : Except Exc (List UInt8 × List Nat) :=
  if d.isNull then do return (← writeNull s, seenRefs)
  else do
    let (l, seenRefs) ← writeObject (unwrap s).2 seenRefs
    return ((unwrap s).1 ++ l, seenRefs)

/-- There is only one block, and nothing after no block. -/
def blocks (size : Nat) (l : List UInt8) : List UInt8 :=
  writeInt (BitVec.ofNat 32 size) ++ (l ++ if size = 0 then [] else writeInt 0)

mutual

/-- Writes an object.  Records that are seen again are taken for a cycle. -/
def writeObject : Datum → Schema → List Nat → Except Exc (List UInt8 × List Nat)
  | .array es, s, seenRefs =>
    match s with
    | array c => do
      let (l, seenRefs) ← writeArray es c seenRefs
      return (blocks es.length l, seenRefs)
    | s => do return (← writeLeaf (.array es) s, seenRefs)
  | .map es, s, seenRefs =>
    match s with
    | map k v => do
      let (l, seenRefs) ← writeMap es k v seenRefs
      return (blocks es.length l, seenRefs)
    | s => do return (← writeLeaf (.map es) s, seenRefs)
  | .record ref fs, s, seenRefs =>
    if ref ∈ seenRefs then .error .io
    else
      match s with
      | record n sfs => writeRecord fs (getFields (record n sfs)) (ref :: seenRefs)
      | s => do return (← writeLeaf (.record ref fs) s, seenRefs)
  | d, s, seenRefs => do return (← writeLeaf d s, seenRefs)

def writeArray : List Datum → Schema → List Nat → Except Exc (List UInt8 × List Nat)
  | [], _, seenRefs => .ok ([], seenRefs)
  | d :: ds, c, seenRefs => do
    let (l, seenRefs) ← writeUnion d (writeObject d) c seenRefs
    let (l', seenRefs) ← writeArray ds c seenRefs
    return (l ++ l', seenRefs)

def writeMap : List (Datum × Datum) → Schema → Schema → List Nat →
    Except Exc (List UInt8 × List Nat)
  | [], _, _, seenRefs => .ok ([], seenRefs)
  | (dk, dv) :: es, k, v, seenRefs => do
    let (l, seenRefs) ← writeUnion dk (writeObject dk) k seenRefs
    let (l', seenRefs) ← writeUnion dv (writeObject dv) v seenRefs
    let (l'', seenRefs) ← writeMap es k v seenRefs
    return (l ++ (l' ++ l''), seenRefs)

/-- The fields of the schema, one after another; every exception comes out as an `IOException`. -/
def writeRecord : List (String × Datum) → List (String × Schema) → List Nat →
    Except Exc (List UInt8 × List Nat)
  | [], [], seenRefs => .ok ([], seenRefs)
  | (n, d) :: fs, (m, s) :: sfs, seenRefs =>
    if n = m then
      match writeUnion d (writeObject d) s seenRefs with
      | .error _ => .error .io
      | .ok (l, seenRefs) =>
        match writeRecord fs sfs seenRefs with
        | .error e => .error e
        | .ok (l', seenRefs) => .ok (l ++ l', seenRefs)
    else .error .io
  | _, _, _ => .error .io

end

def write (d : Datum) (s : Schema) (seenRefs : List Nat) : Except Exc (List UInt8 × List Nat) :=
  writeUnion d (writeObject d) s seenRefs

/-- `encode`. -/
def encode (d : Datum) (s : Schema) : Except Exc (List UInt8) := do
  let (l, _) ← write d s []
  return l

/-! ## What the writer assumes -/

/-- Where `null` is written for a union, the second schema is that of `null`. -/
def NullAssumed : Schema → Prop
  | union ss => ss[1]? = some (simple .null)
  | _ => True

def UnionAssumed (d : Datum) (objectAssumed : Schema → Prop) (s : Schema) : Prop :=
  if d.isNull then NullAssumed s else objectAssumed (unwrap s).2

section

/-! Some results are about data whose containers are special, by the number of their elements and
the schemas of these. -/

variable (container : Nat → List Schema → Prop)

mutual

/-- Sizes are those of Java objects, and the unions are as the writer assumes. -/
def ObjectAssumed : Datum → Schema → Prop
  | .array es, s =>
    match s with
    | array c => es.length < 2 ^ 31 ∧ container es.length [c] ∧ ArrayAssumed es c
    | _ => True
  | .map es, s =>
    match s with
    | map k v => es.length < 2 ^ 31 ∧ container es.length [k, v] ∧ MapAssumed es k v
    | _ => True
  | .record _ fs, s => RecordAssumed fs (getFields s)
  | .bytes bs, _ => bs.length < 2 ^ 31
  | .byteBuffer bs, _ => bs.length < 2 ^ 31
  | .string s, _ => (utf8 s).length < 2 ^ 31
  | .uri s, _ => (utf8 s).length < 2 ^ 31
  | .url s, _ => (utf8 s).length < 2 ^ 31
  | .enum _, s =>
    match s with
    | enum vs => vs.length < 2 ^ 31
    | _ => True
  | _, _ => True

def ArrayAssumed : List Datum → Schema → Prop
  | [], _ => True
  | d :: ds, c => UnionAssumed d (ObjectAssumed d) c ∧ ArrayAssumed ds c

def MapAssumed : List (Datum × Datum) → Schema → Schema → Prop
  | [], _, _ => True
  | (dk, dv) :: es, k, v =>
    UnionAssumed dk (ObjectAssumed dk) k ∧ UnionAssumed dv (ObjectAssumed dv) v ∧ MapAssumed es k v

def RecordAssumed : List (String × Datum) → List (String × Schema) → Prop
  | (_, d) :: fs, (_, s) :: sfs => UnionAssumed d (ObjectAssumed d) s ∧ RecordAssumed fs sfs
  | _, _ => True

end

/-- What the writer assumes of a datum. -/
def Assumed (d : Datum) (s : Schema) : Prop := UnionAssumed d (ObjectAssumed container d) s

/-! ## The format -/

/-- The index of the schema of a union. -/
def unionIndex (d : Datum) : Nat := if d.isNull then 1 else 0

theorem unionIndex_lt (d : Datum) : unionIndex d < 2 ^ 31 := by
  rw [unionIndex]
  split <;> decide

mutual

/-- These are the bytes of a datum under a schema. -/
inductive Encodes : Datum → Schema → List UInt8 → Prop
  | nothing (d : Datum) : Encodes d (simple .null) []
  | boolean (b : Bool) : Encodes (.boolean b) (simple .boolean) (writeBool b)
  | int (d : Datum) (i : BitVec 32) : d.intValue = .ok i → Encodes d (simple .int) (writeInt i)
  | long (d : Datum) (i : BitVec 64) : d.longValue = .ok i → Encodes d (simple .long) (writeLong i)
  | float (bits : BitVec 32) : Encodes (.float bits) (simple .float) (writeFloat bits)
  | double (bits : BitVec 64) : Encodes (.double bits) (simple .double) (writeDouble bits)
  | bytes (d : Datum) (bs : List UInt8) : d.bytesValue = .ok bs → bs.length < 2 ^ 31 →
      Encodes d (simple .bytes) (writeBytes bs)
  | string (d : Datum) (s : String) : d.stringValue = .ok s → (utf8 s).length < 2 ^ 31 →
      Encodes d (simple .string) (writeString s)
  | enum (value : String) (vs : List String) : value ∈ vs → vs.length < 2 ^ 31 →
      Encodes (.enum value) (enum vs) (writeInt (BitVec.ofNat 32 (vs.idxOf value)))
  | array (es : List Datum) (c : Schema) (l : List UInt8) : es.length < 2 ^ 31 →
      container es.length [c] → EncodesArray es c l → Encodes (.array es) (array c)
        (blocks es.length l)
  | map (es : List (Datum × Datum)) (k v : Schema) (l : List UInt8) : es.length < 2 ^ 31 →
      container es.length [k, v] → EncodesMap es k v l → Encodes (.map es) (map k v)
        (blocks es.length l)
  | record (ref : Nat) (fs : List (String × Datum)) (n : String) (sfs : List (String × Schema))
      (l : List UInt8) : EncodesRecord fs (getFields (record n sfs)) l → Encodes (.record ref fs)
      (record n sfs) l
  | union (d : Datum) (ss : List Schema) (s : Schema) (l : List UInt8) :
      ss[unionIndex d]? = some s → (d.isNull = true → s = simple .null) → Encodes d s l →
      Encodes d (union ss) (writeInt (BitVec.ofNat 32 (unionIndex d)) ++ l)

inductive EncodesArray : List Datum → Schema → List UInt8 → Prop
  | nil (c : Schema) : EncodesArray [] c []
  | cons (d : Datum) (ds : List Datum) (c : Schema) (l l' : List UInt8) : Encodes d c l →
      EncodesArray ds c l' → EncodesArray (d :: ds) c (l ++ l')

inductive EncodesMap : List (Datum × Datum) → Schema → Schema → List UInt8 → Prop
  | nil (k v : Schema) : EncodesMap [] k v []
  | cons (dk dv : Datum) (es : List (Datum × Datum)) (k v : Schema) (l l' l'' : List UInt8) :
      Encodes dk k l → Encodes dv v l' → EncodesMap es k v l'' →
        EncodesMap ((dk, dv) :: es) k v (l ++ (l' ++ l''))

inductive EncodesRecord : List (String × Datum) → List (String × Schema) → List UInt8 → Prop
  | nil : EncodesRecord [] [] []
  | cons (n : String) (d : Datum) (s : Schema) (fs : List (String × Datum))
      (sfs : List (String × Schema)) (l l' : List UInt8) : Encodes d s l → EncodesRecord fs sfs l' →
      EncodesRecord ((n, d) :: fs) ((n, s) :: sfs) (l ++ l')

end

end

variable {container : Nat → List Schema → Prop}

variable {l : List UInt8}

variable {d : Datum}

/-- An object in front of the first schemas of unions. -/
theorem Encodes.of_unwrap (hd : d.isNull = false) : ∀ {s : Schema},
    Encodes container d (unwrap s).2 l → Encodes container d s ((unwrap s).1 ++ l)
  | Schema.union (s :: ss), h => by
    have hs : Encodes container d s ((unwrap s).1 ++ l) := Encodes.of_unwrap hd h
    have hindex : unionIndex d = 0 := by rw [unionIndex, if_neg (by rw [hd]; simp)]
    have hunion := Encodes.union d (s :: ss) s _ (by rw [hindex]; rfl) (by rw [hd]; simp) hs
    rw [hindex] at hunion
    rw [unwrap, List.append_assoc]
    exact hunion
  | Schema.union [], h => h
  | Schema.simple _, h => h
  | Schema.enum _, h => h
  | Schema.array _, h => h
  | Schema.map _ _, h => h
  | Schema.record _ _, h => h
  | Schema.reference _, h => h
  | Schema.self, h => h

theorem encodes_of_writeNull {s : Schema} (h : writeNull s = .ok l) (hs : NullAssumed s) :
    Encodes container .null s l := by
  cases s with
  | simple t =>
    cases t <;> first | (cases h; done) | skip
    cases h
    exact Encodes.nothing .null
  | union ss =>
    cases h
    exact Encodes.union .null ss (simple .null) [] hs (fun _ ↦ rfl) (Encodes.nothing .null)
  | _ => cases h

theorem length_lt_of_bytesValue {bs : List UInt8} (h : d.bytesValue = .ok bs)
    (hd : ObjectAssumed container d (simple .bytes)) : bs.length < 2 ^ 31 := by
  cases d with
  | bytes _ =>
    cases h
    exact hd
  | byteBuffer _ =>
    cases h
    exact hd
  | uuid bs =>
    cases h
    rw [bs.2]
    decide
  | _ => cases h

theorem length_lt_of_stringValue {s : String} (h : d.stringValue = .ok s)
    (hd : ObjectAssumed container d (simple .string)) : (utf8 s).length < 2 ^ 31 := by
  cases d <;> first | (cases h; done) | skip
  all_goals
    cases h
    exact hd

theorem encodes_of_writeSimple {t : SimpleType} (h : writeSimple d t = .ok l)
    (hd : ObjectAssumed container d (simple t)) : Encodes container d (simple t) l := by
  cases t with
  | null =>
    cases h
    exact Encodes.nothing d
  | boolean =>
    cases d <;> first | (cases h; done) | skip
    cases h
    exact Encodes.boolean _
  | int =>
    obtain ⟨i, hi, h⟩ := except_bind_eq_ok_iff.mp h
    cases h
    exact Encodes.int d i hi
  | long =>
    obtain ⟨i, hi, h⟩ := except_bind_eq_ok_iff.mp h
    cases h
    exact Encodes.long d i hi
  | float =>
    cases d <;> first | (cases h; done) | skip
    cases h
    exact Encodes.float _
  | double =>
    cases d <;> first | (cases h; done) | skip
    cases h
    exact Encodes.double _
  | bytes =>
    obtain ⟨bs, hbs, h⟩ := except_bind_eq_ok_iff.mp h
    cases h
    exact Encodes.bytes d bs hbs (length_lt_of_bytesValue hbs hd)
  | string =>
    obtain ⟨s, hs, h⟩ := except_bind_eq_ok_iff.mp h
    cases h
    exact Encodes.string d s hs (length_lt_of_stringValue hs hd)

theorem encodes_of_writeLeaf {s : Schema} (h : writeLeaf d s = .ok l)
    (hd : ObjectAssumed container d s) : Encodes container d s l := by
  have hwrong : ∀ {d : Datum}, d.wrong = (.ok l : Except Exc (List UInt8)) → False := by
    intro d h
    cases d <;> cases h
  cases s with
  | simple t => exact encodes_of_writeSimple h hd
  | enum vs =>
    cases d with
    | enum value =>
      rw [writeLeaf] at h
      split at h
      · cases h
        exact Encodes.enum value vs (by assumption) hd
      · cases h
    | _ => cases h
  | _ => exact absurd h hwrong

theorem encodes_of_writeUnion {s : Schema} {seenRefs seenRefs' : List Nat}
    (hobject : ∀ (s : Schema) (seenRefs seenRefs' : List Nat) (l : List UInt8),
      writeObject d s seenRefs = .ok (l, seenRefs') → ObjectAssumed container d s →
        Encodes container d s l)
    (h : writeUnion d (writeObject d) s seenRefs = .ok (l, seenRefs'))
    (hd : UnionAssumed d (ObjectAssumed container d) s) :
    Encodes container d s l := by
  cases hnull : d.isNull with
  | true =>
    cases d <;> first | (cases hnull; done) | skip
    rw [writeUnion, if_pos hnull] at h
    rw [UnionAssumed, if_pos hnull] at hd
    obtain ⟨l', hl, h⟩ := except_bind_eq_ok_iff.mp h
    cases h
    exact encodes_of_writeNull hl hd
  | false =>
    rw [writeUnion, if_neg (by rw [hnull]; simp)] at h
    rw [UnionAssumed, if_neg (by rw [hnull]; simp)] at hd
    obtain ⟨⟨l', seen⟩, hl, h⟩ := except_bind_eq_ok_iff.mp h
    cases h
    exact (hobject _ _ _ _ hl hd).of_unwrap hnull

/-- An object without other objects inside. -/
theorem encodes_of_leaf {s : Schema} {seenRefs seenRefs' : List Nat}
    (h : (do return (← writeLeaf d s, seenRefs) : Except Exc (List UInt8 × List Nat)) =
      .ok (l, seenRefs'))
    (hd : ObjectAssumed container d s) : Encodes container d s l := by
  obtain ⟨l', hl, h⟩ := except_bind_eq_ok_iff.mp h
  cases h
  exact encodes_of_writeLeaf hl hd

mutual

theorem encodes_of_writeObject : ∀ (d : Datum) (s : Schema) (seenRefs seenRefs' : List Nat)
    (l : List UInt8), writeObject d s seenRefs = .ok (l, seenRefs') → ObjectAssumed container d s →
      Encodes container d s l
  | .array es => fun s seenRefs seenRefs' l h hd ↦ by
    cases s with
    | array c =>
      obtain ⟨⟨l', seen⟩, hl, h⟩ := except_bind_eq_ok_iff.mp h
      cases h
      exact Encodes.array es c l' hd.1 hd.2.1
        (encodes_of_writeArray es c seenRefs seenRefs' l' hl hd.2.2)
    | _ => exact encodes_of_leaf h hd
  | .map es => fun s seenRefs seenRefs' l h hd ↦ by
    cases s with
    | map k v =>
      obtain ⟨⟨l', seen⟩, hl, h⟩ := except_bind_eq_ok_iff.mp h
      cases h
      exact Encodes.map es k v l' hd.1 hd.2.1
        (encodes_of_writeMap es k v seenRefs seenRefs' l' hl hd.2.2)
    | _ => exact encodes_of_leaf h hd
  | .record ref fs => fun s seenRefs seenRefs' l h hd ↦ by
    unfold writeObject at h
    split at h
    · cases h
    · cases s with
      | record n sfs =>
        exact Encodes.record ref fs n sfs l (encodes_of_writeRecord fs _ _ seenRefs' l h hd)
      | _ => exact encodes_of_leaf h hd
  | .null => fun s seenRefs seenRefs' l h hd ↦ encodes_of_leaf h hd
  | .boolean _ => fun s seenRefs seenRefs' l h hd ↦ encodes_of_leaf h hd
  | .byte _ => fun s seenRefs seenRefs' l h hd ↦ encodes_of_leaf h hd
  | .short _ => fun s seenRefs seenRefs' l h hd ↦ encodes_of_leaf h hd
  | .char _ => fun s seenRefs seenRefs' l h hd ↦ encodes_of_leaf h hd
  | .int _ => fun s seenRefs seenRefs' l h hd ↦ encodes_of_leaf h hd
  | .long _ => fun s seenRefs seenRefs' l h hd ↦ encodes_of_leaf h hd
  | .float _ => fun s seenRefs seenRefs' l h hd ↦ encodes_of_leaf h hd
  | .double _ => fun s seenRefs seenRefs' l h hd ↦ encodes_of_leaf h hd
  | .string _ => fun s seenRefs seenRefs' l h hd ↦ encodes_of_leaf h hd
  | .uri _ => fun s seenRefs seenRefs' l h hd ↦ encodes_of_leaf h hd
  | .url _ => fun s seenRefs seenRefs' l h hd ↦ encodes_of_leaf h hd
  | .bytes _ => fun s seenRefs seenRefs' l h hd ↦ encodes_of_leaf h hd
  | .byteBuffer _ => fun s seenRefs seenRefs' l h hd ↦ encodes_of_leaf h hd
  | .uuid _ => fun s seenRefs seenRefs' l h hd ↦ encodes_of_leaf h hd
  | .enum _ => fun s seenRefs seenRefs' l h hd ↦ encodes_of_leaf h hd

theorem encodes_of_writeArray : ∀ (es : List Datum) (c : Schema) (seenRefs seenRefs' : List Nat)
    (l : List UInt8), writeArray es c seenRefs = .ok (l, seenRefs') → ArrayAssumed container es c →
      EncodesArray container es c l
  | [] => fun c seenRefs seenRefs' l h _ ↦ by
    cases h
    exact EncodesArray.nil c
  | d :: ds => fun c seenRefs seenRefs' l h hd ↦ by
    obtain ⟨⟨l₁, seen₁⟩, hl₁, h⟩ := except_bind_eq_ok_iff.mp h
    obtain ⟨⟨l₂, seen₂⟩, hl₂, h⟩ := except_bind_eq_ok_iff.mp h
    cases h
    exact EncodesArray.cons d ds c l₁ l₂ (encodes_of_writeUnion (encodes_of_writeObject d) hl₁ hd.1)
      (encodes_of_writeArray ds c seen₁ seenRefs' l₂ hl₂ hd.2)

theorem encodes_of_writeMap : ∀ (es : List (Datum × Datum)) (k v : Schema)
    (seenRefs seenRefs' : List Nat)
    (l : List UInt8), writeMap es k v seenRefs = .ok (l, seenRefs') → MapAssumed container es k v →
      EncodesMap container es k v l
  | [] => fun k v seenRefs seenRefs' l h _ ↦ by
    cases h
    exact EncodesMap.nil k v
  | (dk, dv) :: es => fun k v seenRefs seenRefs' l h hd ↦ by
    obtain ⟨⟨l₁, seen₁⟩, hl₁, h⟩ := except_bind_eq_ok_iff.mp h
    obtain ⟨⟨l₂, seen₂⟩, hl₂, h⟩ := except_bind_eq_ok_iff.mp h
    obtain ⟨⟨l₃, seen₃⟩, hl₃, h⟩ := except_bind_eq_ok_iff.mp h
    cases h
    exact EncodesMap.cons dk dv es k v l₁ l₂ l₃
      (encodes_of_writeUnion (encodes_of_writeObject dk) hl₁ hd.1)
      (encodes_of_writeUnion (encodes_of_writeObject dv) hl₂ hd.2.1)
      (encodes_of_writeMap es k v seen₂ seenRefs' l₃ hl₃ hd.2.2)

theorem encodes_of_writeRecord : ∀ (fs : List (String × Datum)) (sfs : List (String × Schema))
    (seenRefs seenRefs' : List Nat) (l : List UInt8), writeRecord fs sfs seenRefs =
      .ok (l, seenRefs') → RecordAssumed container fs sfs → EncodesRecord container fs sfs l
  | [] => fun sfs seenRefs seenRefs' l h _ ↦ by
    cases sfs with
    | nil =>
      cases h
      exact EncodesRecord.nil
    | cons f sfs => cases h
  | (n, d) :: fs => fun sfs seenRefs seenRefs' l h hd ↦ by
    cases sfs with
    | nil => cases h
    | cons f sfs =>
      obtain ⟨m, s⟩ := f
      rw [writeRecord] at h
      split at h
      · subst n
        split at h
        · cases h
        · rename_i l₁ seen₁ hl₁
          split at h
          · cases h
          · rename_i l₂ seen₂ hl₂
            cases h
            exact EncodesRecord.cons m d s fs sfs l₁ l₂
              (encodes_of_writeUnion (encodes_of_writeObject d) hl₁ hd.1)
              (encodes_of_writeRecord fs sfs seen₁ seenRefs' l₂ hl₂ hd.2)
      · cases h

end

/-- **What is written are the bytes of the datum.** -/
theorem encodes_of_encode {s : Schema} (h : encode d s = .ok l) (hd : Assumed container d s) :
    Encodes container d s l := by
  obtain ⟨⟨l', seen⟩, hl, h⟩ := except_bind_eq_ok_iff.mp h
  cases h
  exact encodes_of_writeUnion (encodes_of_writeObject d) hl hd

end Tigon.ReflectionDatum
