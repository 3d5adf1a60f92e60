import Tigon.Lib.Decoder
import Tigon.Io.Schema

/-!
# Schemas as JSON

`SchemaTypeAdapter` writes a record with its fields the first time, and with its name only from then
on, where the records that have been written are those of the whole schema.  The reader keeps the
same set of names: a name in it is a record with that name only, which is left to the record around
it.

JSON is modelled as the tokens that the streaming writer writes and the reader reads.  `null`, which
is only written for no schema at all, is left out.

## What is here

* `write`, `read` — the adapter.
* `reparse` — what comes out at the other end, as a function of the schema.
* `exists_writes` — **reading what was written is `reparse`**, by a rule for each kind of schema.
-/

set_option autoImplicit false

namespace Tigon.Io

open Schema Decoder

/-! ## Types and their names -/

/-- `Schema.Type`. -/
inductive SchemaType
  | simple (type : SimpleType)
  | enum
  | array
  | map
  | record
  | union
deriving DecidableEq

def SimpleType.typeName : SimpleType → String
  | null => "null"
  | boolean => "boolean"
  | int => "int"
  | long => "long"
  | float => "float"
  | double => "double"
  | bytes => "bytes"
  | string => "string"

/-- The name of a type, in small letters. -/
def SchemaType.typeName : SchemaType → String
  | simple t => t.typeName
  | enum => "enum"
  | array => "array"
  | map => "map"
  | record => "record"
  | union => "union"

def upper (s : String) : List Char := s.toList.map Char.toUpper

def schemaTypes : List SchemaType :=
  [.simple .null, .simple .boolean, .simple .int, .simple .long, .simple .float, .simple .double,
    .simple .bytes, .simple .string, .enum, .array, .map, .record, .union]

/-- The type with this name, in letters of any size. -/
def valueOf (name : String) : Except SchemaExc SchemaType :=
  match schemaTypes.find? fun t ↦ upper t.typeName = upper name with
  | some t => .ok t
  | none => .error .illegalArgument

theorem valueOf_typeName (t : SchemaType) : valueOf t.typeName = .ok t := by
  rcases t with (- | - | - | - | - | - | - | -) | - | - | - | - | - <;> rfl

/-- `Schema.of`, for simple types. -/
def ofType : SchemaType → Except SchemaExc Schema
  | .simple t => .ok (simple t)
  | _ => .error .illegalArgument

/-! ## JSON -/

/-- What a JSON writer writes, and what a JSON reader reads, one after another. -/
inductive JsonToken
  | beginObject
  | endObject
  | beginArray
  | endArray
  | name (s : String)
  | string (s : String)
deriving DecidableEq

abbrev JsonReader := Decoder SchemaExc JsonToken

/-- The next token, if it is what is expected. -/
def next {α : Type} (f : JsonToken → Option α) : JsonReader α
  | [] => .error .io []
  | t :: rest =>
    match f t with
    | some a => .ok a rest
    | none => .error .illegalState (t :: rest)

def nextString : JsonReader String := next fun | .string s => some s | _ => none

def nextName : JsonReader String := next fun | .name s => some s | _ => none

def expect (token : JsonToken) : JsonReader Unit := next fun t ↦ if t = token then some () else none

/-- The next member of an object has to have this name. -/
def expectName (key : String) : JsonReader Unit := do
  let name ← nextName
  if name = key then pure () else throw .io

theorem reads_next {α : Type} {f : JsonToken → Option α} {t : JsonToken} {a : α}
    (h : f t = some a) : Reads (next f) [t] a := by
  intro rest
  show next f (t :: rest) = _
  rw [next, h]

theorem reads_nextString (s : String) : Reads nextString [.string s] s := reads_next rfl

theorem reads_expect (t : JsonToken) : Reads (expect t) [t] () := reads_next (if_pos rfl)

theorem reads_expectName (key : String) : Reads (expectName key) [.name key] () := by
  refine Reads.bind_nil (reads_next (f := fun | .name s => some s | _ => none) (a := key) rfl) ?_
  rw [if_pos rfl]
  exact reads_pure ()

/-! ## The writer -/

/-- The tokens of an object, after its type. -/
def objectTokens (type : String) (members : List JsonToken) : List JsonToken :=
  .beginObject :: .name "type" :: .string type :: (members ++ [.endObject])

def arrayTokens (elements : List JsonToken) : List JsonToken :=
  .beginArray :: (elements ++ [.endArray])

/-- The tokens of a field, in front of others. -/
def fieldTokens (name : String) (type others : List JsonToken) : List JsonToken :=
  .beginObject :: .name "name" :: .string name :: .name "type" :: (type ++ .endObject :: others)

mutual

/-- Writes a schema inside the record `this`.  A record that has been written is only named. -/
def write (this : String) : Schema → List String → Except SchemaExc (List JsonToken × List String)
  | simple t, knownRecords => .ok ([.string t.typeName], knownRecords)
  | union ss, knownRecords => do
    let (l, knownRecords) ← writeList this ss knownRecords
    return (arrayTokens l, knownRecords)
  | enum vs, knownRecords =>
    .ok (objectTokens "enum" (.name "symbols" :: arrayTokens (vs.map .string)), knownRecords)
  | array c, knownRecords => do
    let (l, knownRecords) ← write this c knownRecords
    return (objectTokens "array" (.name "items" :: l), knownRecords)
  | map k v, knownRecords => do
    let (l, knownRecords) ← write this k knownRecords
    let (l', knownRecords) ← write this v knownRecords
    return (objectTokens "map" (.name "keys" :: (l ++ .name "values" :: l')), knownRecords)
  | record n fs, knownRecords =>
    if n ∈ knownRecords then .ok ([.string n], knownRecords)
    else do
      let (l, knownRecords) ← writeFields n fs (n :: knownRecords)
      return (objectTokens "record" (.name "name" :: .string n :: .name "fields" :: arrayTokens l),
        knownRecords)
  | reference n, knownRecords =>
    if n ∈ knownRecords then .ok ([.string n], knownRecords) else .error .nullPointer
  | self, knownRecords => .ok ([.string this], knownRecords)

def writeList (this : String) : List Schema → List String →
    Except SchemaExc (List JsonToken × List String)
  | [], knownRecords => .ok ([], knownRecords)
  | s :: ss, knownRecords => do
    let (l, knownRecords) ← write this s knownRecords
    let (l', knownRecords) ← writeList this ss knownRecords
    return (l ++ l', knownRecords)

def writeFields (this : String) :
    List (String × Schema) → List String → Except SchemaExc (List JsonToken × List String)
  | [], knownRecords => .ok ([], knownRecords)
  | (n, s) :: fs, knownRecords => do
    let (l, knownRecords) ← write this s knownRecords
    let (l', knownRecords) ← writeFields this fs knownRecords
    return (fieldTokens n l l', knownRecords)

end

/-! ## The reader -/

/-- The values of an enum, up to the end of the array. -/
def readSymbols : JsonReader (List String)
  | .string s :: rest =>
    match readSymbols rest with
    | .ok ss rest => .ok (s :: ss) rest
    | .error e rest => .error e rest
  | .endArray :: rest => .ok [] rest
  | [] => .error .io []
  | input => .error .illegalState input

def readEnum (knownRecords : List String) : JsonReader (Schema × List String) := do
  expectName "symbols"
  expect .beginArray
  let values ← readSymbols
  let s ← ofExcept (enumWith values)
  return (s, knownRecords)

section

/-! The readers of the other objects, for the reader of what is in there. -/

variable (read : List String → JsonReader (Schema × List String))
  (readFields : List String → JsonReader (List (String × Schema) × List String))

def readInnerSchema (key : String) (knownRecords : List String) :
    JsonReader (Schema × List String) := do
  expectName key
  read knownRecords

def readArray (knownRecords : List String) : JsonReader (Schema × List String) := do
  let (c, knownRecords) ← readInnerSchema read "items" knownRecords
  return (array c, knownRecords)

def readMap (knownRecords : List String) : JsonReader (Schema × List String) := do
  let (k, knownRecords) ← readInnerSchema read "keys" knownRecords
  let (v, knownRecords) ← readInnerSchema read "values" knownRecords
  return (map k v, knownRecords)

def readRecord (knownRecords : List String) : JsonReader (Schema × List String) := do
  expectName "name"
  let recordName ← nextString
  expectName "fields"
  expect .beginArray
  let (fs, knownRecords) ← readFields (recordName :: knownRecords)
  let s ← ofExcept (recordOf recordName fs)
  return (s, knownRecords)

/-- The rest of an object, after its type. -/
def readMembers (knownRecords : List String) : SchemaType → JsonReader (Schema × List String)
  | .enum => readEnum knownRecords
  | .array => readArray read knownRecords
  | .map => readMap read knownRecords
  | .record => readRecord readFields knownRecords
  | type => do
    let s ← ofExcept (ofType type)
    return (s, knownRecords)

end

mutual

/-- Reads a schema, with some depth of calls. -/
def read : Nat → List String → JsonReader (Schema × List String)
  | 0, _ => throw .outOfFuel
  | fuel + 1, knownRecords => do
    match ← peek with
    | some (.string _) =>
      let name ← nextString
      if name ∈ knownRecords then return (reference name, knownRecords)
      else
        let type ← ofExcept (valueOf name)
        let s ← ofExcept (ofType type)
        return (s, knownRecords)
    | some .beginArray =>
      expect .beginArray
      let (ss, knownRecords) ← readUnion fuel knownRecords
      let s ← ofExcept (unionOf ss)
      return (s, knownRecords)
    | some .beginObject =>
      expect .beginObject
      expectName "type"
      let typeName ← nextString
      let type ← ofExcept (valueOf typeName)
      let result ← readMembers (read fuel) (readFields fuel) knownRecords type
      expect .endObject
      return result
    | _ => throw .io

/-- The schemas of a union, up to the end of the array. -/
def readUnion : Nat → List String → JsonReader (List Schema × List String)
  | 0, _ => throw .outOfFuel
  | fuel + 1, knownRecords => do
    match ← peek with
    | some .endArray =>
      expect .endArray
      return ([], knownRecords)
    | _ =>
      let (s, knownRecords) ← read fuel knownRecords
      let (ss, knownRecords) ← readUnion fuel knownRecords
      return (s :: ss, knownRecords)

/-- The fields of a record, up to the end of the array. -/
def readFields : Nat → List String → JsonReader (List (String × Schema) × List String)
  | 0, _ => throw .outOfFuel
  | fuel + 1, knownRecords => do
    match ← peek with
    | some .endArray =>
      expect .endArray
      return ([], knownRecords)
    | _ =>
      expect .beginObject
      expectName "name"
      let fieldName ← nextString
      expectName "type"
      let (s, knownRecords) ← read fuel knownRecords
      expect .endObject
      let (fs, knownRecords) ← readFields fuel knownRecords
      return ((fieldName, s) :: fs, knownRecords)

end

/-! ## Reading what was written -/

mutual

/-- What is read back from the tokens of a schema: records that have been read before have their
names only. -/
def reparse (this : String) : Schema → List String → Except SchemaExc (Schema × List String)
  | simple t, known => .ok (if t.typeName ∈ known then reference t.typeName else simple t, known)
  | enum vs, known => do
    let s ← enumWith vs
    return (s, known)
  | array c, known => do
    let (c', known) ← reparse this c known
    return (array c', known)
  | map k v, known => do
    let (k', known) ← reparse this k known
    let (v', known) ← reparse this v known
    return (map k' v', known)
  | union ss, known => do
    let (ss', known) ← reparseList this ss known
    let s ← unionOf ss'
    return (s, known)
  | record n fs, known =>
    if n ∈ known then .ok (reference n, known)
    else do
      let (fs', known) ← reparseFields n fs (n :: known)
      let s ← recordOf n fs'
      return (s, known)
  | reference n, known => .ok (reference n, known)
  | self, known => .ok (reference this, known)

def reparseList (this : String) : List Schema → List String →
    Except SchemaExc (List Schema × List String)
  | [], known => .ok ([], known)
  | s :: ss, known => do
    let (s', known) ← reparse this s known
    let (ss', known) ← reparseList this ss known
    return (s' :: ss', known)

def reparseFields (this : String) :
    List (String × Schema) → List String → Except SchemaExc (List (String × Schema) × List String)
  | [], known => .ok ([], known)
  | (n, s) :: fs, known => do
    let (s', known) ← reparse this s known
    let (fs', known) ← reparseFields this fs known
    return ((n, s') :: fs', known)

end

mutual

/-- What the constructors check, and that there are no names without fields; `self` is inside a
record. -/
def WellFormed : Schema → Bool → Prop
  | simple _, _ => True
  | enum vs, _ => vs ≠ [] ∧ vs.Nodup
  | array c, inRecord => WellFormed c inRecord
  | map k v, inRecord => WellFormed k inRecord ∧ WellFormed v inRecord
  | union ss, inRecord => ss ≠ [] ∧ WellFormedList ss inRecord
  | record _ fs, _ => fs ≠ [] ∧ (fs.map Prod.fst).Nodup ∧ WellFormedFields fs true
  | reference _, _ => False
  | self, inRecord => inRecord = true

def WellFormedList : List Schema → Bool → Prop
  | [], _ => True
  | s :: ss, inRecord => WellFormed s inRecord ∧ WellFormedList ss inRecord

def WellFormedFields : List (String × Schema) → Bool → Prop
  | [], _ => True
  | (_, s) :: fs, inRecord => WellFormed s inRecord ∧ WellFormedFields fs inRecord

end

/-- A schema is written as tokens, and what is read from them is `reparse`. -/
structure Writes (this : String) (s : Schema) (known : List String) (l : List JsonToken)
    (known' : List String) : Prop where
  write : write this s known = .ok (l, known')
  known_eq : ∀ r, reparse this s known = .ok r → r.2 = known'
  read : ∀ fuel ≥ sizeOf s, Runs (read fuel known) l (reparse this s known)
  head : ∃ t l', l = t :: l' ∧ t ≠ .endArray

theorem reads_readSymbols (vs : List String) :
    Reads readSymbols (vs.map .string ++ [.endArray]) vs := by
  induction vs with
  | nil => exact fun _ ↦ rfl
  | cons v vs ih =>
    intro rest
    rw [List.map_cons, List.cons_append, List.cons_append, readSymbols, ih]

theorem exists_pos {fuel n : Nat} (h : n + 1 ≤ fuel) : ∃ fuel', fuel = fuel' + 1 ∧ n ≤ fuel' :=
  ⟨fuel - 1, by omega, by omega⟩

/-- A string that has been read before, or a type. -/
theorem runs_read_string (name : String) (known : List String) (fuel : Nat) :
    Runs (read (fuel + 1) known) [.string name]
      (if name ∈ known then .ok (reference name, known) else do
      let type ← valueOf name
      let s ← ofType type
      return (s, known)) := by
  rw [read]
  refine runs_peek_bind ((reads_nextString _).runs_bind ?_)
  by_cases h : name ∈ known
  · rw [if_pos h, if_pos h]
    exact runs_pure _
  · rw [if_neg h, if_neg h]
    refine Runs.bind (l := []) (runs_ofExcept _) fun type _ ↦ ?_
    exact Runs.bind (l := []) (runs_ofExcept _) fun s _ ↦ runs_pure _

theorem writes_simple (this : String) (t : SimpleType) (known : List String) :
    Writes this (simple t) known [.string t.typeName] known where
  write := rfl
  known_eq r h := by
    cases h
    rfl
  read fuel hfuel := by
    obtain ⟨fuel, rfl, -⟩ : ∃ fuel', fuel = fuel' + 1 ∧ 0 ≤ fuel' := exists_pos (by
      rw [Schema.simple.sizeOf_spec] at hfuel
      omega)
    have h := runs_read_string t.typeName known fuel
    rw [show valueOf t.typeName = .ok (.simple t) from valueOf_typeName (.simple t)] at h
    rw [reparse]
    by_cases hk : t.typeName ∈ known
    · rw [if_pos hk] at h ⊢
      exact h
    · rw [if_neg hk] at h ⊢
      exact h
  head := ⟨_, _, rfl, by simp⟩

variable {this : String}

theorem writes_self {known : List String} (h : this ∈ known) :
    Writes this self known [.string this] known where
  write := rfl
  known_eq r hr := by
    cases hr
    rfl
  read fuel hfuel := by
    obtain ⟨fuel, rfl, -⟩ : ∃ fuel', fuel = fuel' + 1 ∧ 0 ≤ fuel' := exists_pos (by
      rw [Schema.self.sizeOf_spec] at hfuel
      exact hfuel)
    have hread := runs_read_string this known fuel
    rwa [if_pos h] at hread
  head := ⟨_, _, rfl, by simp⟩

variable {l : List JsonToken}

/-- An object, from its members. -/
theorem runs_read_object (type : SchemaType) {known : List String} {fuel : Nat}
    {r : Except SchemaExc (Schema × List String)}
    (h : Runs (readMembers (read fuel) (readFields fuel) known type) l r) :
    Runs (read (fuel + 1) known) (objectTokens type.typeName l) r := by
  have hend : ∀ a, r = .ok a →
      Runs (expect .endObject >>= fun _ ↦ pure a : JsonReader _) [.endObject] (.ok a) :=
    fun a _ ↦ (reads_expect _).runs_cons (runs_pure a)
  have hbody := h.bind (g := fun a ↦ .ok a) hend
  rw [show (r >>= fun a ↦ Except.ok a) = r from bind_pure r] at hbody
  have htype : Reads (ofExcept (valueOf type.typeName) : JsonReader _) [] type := by
    rw [valueOf_typeName]
    exact runs_ofExcept (.ok type)
  rw [read, objectTokens]
  refine runs_peek_bind ?_
  refine (reads_expect _).runs_cons ?_
  refine (reads_expectName _).runs_cons ?_
  refine (reads_nextString _).runs_cons ?_
  exact htype.runs_bind hbody

theorem writes_enum (this : String) (vs : List String) (known : List String) :
    Writes this (enum vs) known (objectTokens "enum"
      (.name "symbols" :: arrayTokens (vs.map .string))) known where
  write := rfl
  known_eq r h := by
    obtain ⟨s, -, h⟩ := except_bind_eq_ok_iff.mp h
    cases h
    rfl
  read fuel hfuel := by
    obtain ⟨fuel, rfl, -⟩ : ∃ fuel', fuel = fuel' + 1 ∧ 0 ≤ fuel' := exists_pos (by
      rw [Schema.enum.sizeOf_spec] at hfuel
      omega)
    refine runs_read_object .enum ?_
    rw [reparse, readMembers, readEnum, arrayTokens]
    refine (reads_expectName _).runs_cons ?_
    refine (reads_expect _).runs_cons ?_
    exact (reads_readSymbols vs).runs_bind_nil
      ((runs_ofExcept (enumWith vs)).map fun s ↦ (s, known))
  head := ⟨_, _, rfl, by simp⟩

variable {known known' : List String}

theorem Writes.array {c : Schema}
    (h : Writes this c known l known') :
    Writes this (array c) known (objectTokens "array" (.name "items" :: l)) known' where
  write := by
    rw [Io.write, h.write]
    rfl
  known_eq r hr := by
    obtain ⟨⟨c', known₁⟩, hc, hr⟩ := except_bind_eq_ok_iff.mp hr
    cases hr
    exact h.known_eq (c', known₁) hc
  read fuel hfuel := by
    obtain ⟨fuel, rfl, hle⟩ : ∃ fuel', fuel = fuel' + 1 ∧ sizeOf c ≤ fuel' := exists_pos (by
      rw [Schema.array.sizeOf_spec] at hfuel
      omega)
    refine runs_read_object .array ?_
    rw [reparse, readMembers, readArray]
    exact ((reads_expectName "items").runs_cons (h.read fuel hle)).map
      fun r : Schema × List String ↦ (Schema.array r.1, r.2)
  head := ⟨_, _, rfl, by simp⟩

variable {known known₁ known' : List String}

theorem Writes.map {k v : Schema} {l l' : List JsonToken}
    (hk : Writes this k known l known₁) (hv : Writes this v known₁ l' known') :
    Writes this (map k v) known (objectTokens "map" (.name "keys" :: (l ++ .name "values" :: l')))
      known' where
  write := by
    rw [Io.write, hk.write]
    show (Io.write this v known₁ >>= _) = _
    rw [hv.write]
    rfl
  known_eq r hr := by
    obtain ⟨⟨k', known₂⟩, hk', hr⟩ := except_bind_eq_ok_iff.mp hr
    obtain ⟨⟨v', known₃⟩, hv', hr⟩ := except_bind_eq_ok_iff.mp hr
    cases hr
    obtain rfl : known₂ = known₁ := hk.known_eq _ hk'
    exact hv.known_eq (v', known₃) hv'
  read fuel hfuel := by
    obtain ⟨fuel, rfl, hle⟩ : ∃ fuel', fuel = fuel' + 1 ∧ sizeOf k + sizeOf v ≤ fuel' :=
      exists_pos (by
      rw [Schema.map.sizeOf_spec] at hfuel
      omega)
    refine runs_read_object .map ?_
    rw [reparse, readMembers, readMap, ← List.cons_append]
    refine ((reads_expectName "keys").runs_cons (hk.read fuel (by omega))).bind fun r hr ↦ ?_
    obtain ⟨k', known₂⟩ := r
    obtain rfl : known₂ = known₁ := hk.known_eq _ hr
    exact ((reads_expectName "values").runs_cons (hv.read fuel (by omega))).map
      fun r : Schema × List String ↦ (Schema.map k' r.1, r.2)
  head := ⟨_, _, rfl, by simp⟩

/-- The same for the schemas of a union. -/
structure WritesList (this : String) (ss : List Schema) (known : List String) (l : List JsonToken)
    (known' : List String) : Prop where
  write : writeList this ss known = .ok (l, known')
  known_eq : ∀ r, reparseList this ss known = .ok r → r.2 = known'
  read : ∀ fuel ≥ sizeOf ss, Runs (readUnion fuel known) (l ++ [.endArray])
    (reparseList this ss known)

theorem writesList_nil (this : String) (known : List String) :
    WritesList this [] known [] known where
  write := rfl
  known_eq r hr := by
    cases hr
    rfl
  read fuel hfuel := by
    obtain ⟨fuel, rfl, -⟩ : ∃ fuel', fuel = fuel' + 1 ∧ 0 ≤ fuel' := exists_pos hfuel
    rw [readUnion]
    exact runs_peek_bind ((reads_expect .endArray).runs_cons (runs_pure _))

theorem Writes.cons {s : Schema} {ss : List Schema}
    {l l' : List JsonToken} (hs : Writes this s known l known₁)
    (hss : WritesList this ss known₁ l' known') :
    WritesList this (s :: ss) known (l ++ l') known' where
  write := by
    rw [writeList, hs.write]
    show (writeList this ss known₁ >>= _) = _
    rw [hss.write]
    rfl
  known_eq r hr := by
    obtain ⟨⟨s', known₂⟩, hs', hr⟩ := except_bind_eq_ok_iff.mp hr
    obtain ⟨⟨ss', known₃⟩, hss', hr⟩ := except_bind_eq_ok_iff.mp hr
    cases hr
    obtain rfl : known₂ = known₁ := hs.known_eq _ hs'
    exact hss.known_eq (ss', known₃) hss'
  read fuel hfuel := by
    obtain ⟨fuel, rfl, hle⟩ : ∃ fuel', fuel = fuel' + 1 ∧ sizeOf s + sizeOf ss ≤ fuel' :=
      exists_pos (by
      rw [List.cons.sizeOf_spec] at hfuel
      omega)
    obtain ⟨t, l₁, rfl, ht⟩ := hs.head
    have hbody : Runs (do
        let (s, known) ← Io.read fuel known
        let (ss, known) ← readUnion fuel known
        return (s :: ss, known)) ((t :: l₁) ++ (l' ++ [.endArray]))
          (reparseList this (s :: ss) known) := by
      rw [reparseList]
      refine (hs.read fuel (by omega)).bind fun r hr ↦ ?_
      obtain ⟨s', known₂⟩ := r
      obtain rfl : known₂ = known₁ := hs.known_eq _ hr
      exact (hss.read fuel (by omega)).map fun r : List Schema × List String ↦ (s' :: r.1, r.2)
    rw [readUnion, List.append_assoc, List.cons_append]
    refine runs_peek_bind ?_
    cases t with
    | endArray => exact absurd rfl ht
    | _ => exact hbody

theorem WritesList.union {ss : List Schema}
    (h : WritesList this ss known l known') : Writes this (union ss) known (arrayTokens l)
      known' where
  write := by
    rw [Io.write, h.write]
    rfl
  known_eq r hr := by
    obtain ⟨⟨ss', known₁⟩, hss, hr⟩ := except_bind_eq_ok_iff.mp hr
    obtain ⟨s', -, hr⟩ := except_bind_eq_ok_iff.mp hr
    cases hr
    exact h.known_eq (ss', known₁) hss
  read fuel hfuel := by
    obtain ⟨fuel, rfl, hle⟩ : ∃ fuel', fuel = fuel' + 1 ∧ sizeOf ss ≤ fuel' := exists_pos (by
      rw [Schema.union.sizeOf_spec] at hfuel
      omega)
    rw [Io.read, reparse, arrayTokens]
    refine runs_peek_bind ?_
    refine (reads_expect .beginArray).runs_cons ?_
    exact (h.read fuel hle).bind_nil fun r _ ↦ (runs_ofExcept (unionOf r.1)).map fun s ↦ (s, r.2)
  head := ⟨_, _, rfl, by simp⟩

/-- The same for the fields of a record. -/
structure WritesFields (this : String) (fs : List (String × Schema)) (known : List String)
    (l : List JsonToken) (known' : List String) : Prop where
  write : writeFields this fs known = .ok (l, known')
  known_eq : ∀ r, reparseFields this fs known = .ok r → r.2 = known'
  read : ∀ fuel ≥ sizeOf fs, Runs (readFields fuel known) (l ++ [.endArray])
    (reparseFields this fs known)

theorem writesFields_nil (this : String) (known : List String) :
    WritesFields this [] known [] known where
  write := rfl
  known_eq r hr := by
    cases hr
    rfl
  read fuel hfuel := by
    obtain ⟨fuel, rfl, -⟩ : ∃ fuel', fuel = fuel' + 1 ∧ 0 ≤ fuel' := exists_pos hfuel
    rw [readFields]
    exact runs_peek_bind ((reads_expect .endArray).runs_cons (runs_pure _))

theorem Writes.consField {this n : String} {s : Schema} {fs : List (String × Schema)}
    {l l' : List JsonToken} (hs : Writes this s known l known₁)
    (hfs : WritesFields this fs known₁ l' known') :
    WritesFields this ((n, s) :: fs) known (fieldTokens n l l') known' where
  write := by
    rw [writeFields, hs.write]
    show (writeFields this fs known₁ >>= _) = _
    rw [hfs.write]
    rfl
  known_eq r hr := by
    obtain ⟨⟨s', known₂⟩, hs', hr⟩ := except_bind_eq_ok_iff.mp hr
    obtain ⟨⟨fs', known₃⟩, hfs', hr⟩ := except_bind_eq_ok_iff.mp hr
    cases hr
    obtain rfl : known₂ = known₁ := hs.known_eq _ hs'
    exact hfs.known_eq (fs', known₃) hfs'
  read fuel hfuel := by
    obtain ⟨fuel, rfl, hle⟩ : ∃ fuel', fuel = fuel' + 1 ∧ sizeOf s + sizeOf fs ≤ fuel' :=
      exists_pos (by
      rw [List.cons.sizeOf_spec, Prod.mk.sizeOf_spec] at hfuel
      omega)
    rw [readFields, reparseFields, fieldTokens]
    simp only [List.cons_append, List.append_assoc]
    refine runs_peek_bind ?_
    refine (reads_expect _).runs_cons ?_
    refine (reads_expectName _).runs_cons ?_
    refine (reads_nextString n).runs_cons ?_
    refine (reads_expectName _).runs_cons ?_
    refine (hs.read fuel (by omega)).bind fun r hr ↦ ?_
    obtain ⟨s', known₂⟩ := r
    obtain rfl : known₂ = known₁ := hs.known_eq _ hr
    exact (reads_expect _).runs_cons ((hfs.read fuel (by omega)).map
      fun r : List (String × Schema) × List String ↦ ((n, s') :: r.1, r.2))

theorem writes_record_of_mem (this : String) {n : String} (fs : List (String × Schema))
    {known : List String} (h : n ∈ known) : Writes this (record n fs) known [.string n] known where
  write := by rw [Io.write, if_pos h]
  known_eq r hr := by
    rw [reparse, if_pos h] at hr
    cases hr
    rfl
  read fuel hfuel := by
    obtain ⟨fuel, rfl, -⟩ : ∃ fuel', fuel = fuel' + 1 ∧ 0 ≤ fuel' := exists_pos (by
      rw [Schema.record.sizeOf_spec] at hfuel
      omega)
    have hread := runs_read_string n known fuel
    rw [if_pos h] at hread
    rwa [reparse, if_pos h]
  head := ⟨_, _, rfl, by simp⟩

theorem WritesFields.record (this : String) {n : String} {fs : List (String × Schema)}
    (hn : n ∉ known) (h : WritesFields n fs (n :: known) l known') :
    Writes this (record n fs) known
      (objectTokens "record" (.name "name" :: .string n :: .name "fields" :: arrayTokens l))
        known' where
  write := by
    rw [Io.write, if_neg hn, h.write]
    rfl
  known_eq r hr := by
    rw [reparse, if_neg hn] at hr
    obtain ⟨⟨fs', known₁⟩, hfs, hr⟩ := except_bind_eq_ok_iff.mp hr
    obtain ⟨s', -, hr⟩ := except_bind_eq_ok_iff.mp hr
    cases hr
    exact h.known_eq (fs', known₁) hfs
  read fuel hfuel := by
    obtain ⟨fuel, rfl, hle⟩ : ∃ fuel', fuel = fuel' + 1 ∧ sizeOf fs ≤ fuel' := exists_pos (by
      rw [Schema.record.sizeOf_spec] at hfuel
      omega)
    refine runs_read_object .record ?_
    rw [reparse, if_neg hn, readMembers, readRecord, arrayTokens]
    refine (reads_expectName _).runs_cons ?_
    refine (reads_nextString n).runs_cons ?_
    refine (reads_expectName _).runs_cons ?_
    refine (reads_expect _).runs_cons ?_
    exact (h.read fuel hle).bind_nil fun r _ ↦ (runs_ofExcept (recordOf n r.1)).map fun s ↦ (s, r.2)
  head := ⟨_, _, rfl, by simp⟩

mutual

/-- **What is read from the tokens of a schema is `reparse`.** -/
theorem exists_writes : ∀ (s : Schema) (inRecord : Bool) (this : String) (known : List String),
    WellFormed s inRecord → (inRecord = true → this ∈ known) →
      ∃ l known', Writes this s known l known' ∧ known ⊆ known'
  | simple t => fun _ _ _ _ _ ↦ ⟨_, _, writes_simple _ t _, List.Subset.refl _⟩
  | enum vs => fun _ _ _ _ _ ↦ ⟨_, _, writes_enum _ vs _, List.Subset.refl _⟩
  | array c => fun b this known h hthis ↦ by
    obtain ⟨l, known', hc, hsub⟩ := exists_writes c b this known h hthis
    exact ⟨_, _, hc.array, hsub⟩
  | map k v => fun b this known h hthis ↦ by
    obtain ⟨l, known₁, hk, hsub⟩ := exists_writes k b this known h.1 hthis
    obtain ⟨l', known', hv, hsub'⟩ := exists_writes v b this known₁ h.2 fun hr ↦ hsub (hthis hr)
    exact ⟨_, _, hk.map hv, List.Subset.trans hsub hsub'⟩
  | union ss => fun b this known h hthis ↦ by
    obtain ⟨l, known', hss, hsub⟩ := exists_writesList ss b this known h.2 hthis
    exact ⟨_, _, hss.union, hsub⟩
  | record n fs => fun _ this known h _ ↦ by
    by_cases hn : n ∈ known
    · exact ⟨_, _, writes_record_of_mem this fs hn, List.Subset.refl _⟩
    · obtain ⟨l, known', hfs, hsub⟩ :=
        exists_writesFields fs true n (n :: known) h.2.2 fun _ ↦ List.mem_cons_self
      exact ⟨_, _, hfs.record this hn, List.Subset.trans (List.subset_cons_self n known) hsub⟩
  | reference n => fun _ _ _ h _ ↦ absurd h id
  | self => fun _ _ _ h hthis ↦ ⟨_, _, writes_self (hthis h), List.Subset.refl _⟩

theorem exists_writesList : ∀ (ss : List Schema) (inRecord : Bool) (this : String)
    (known : List String), WellFormedList ss inRecord → (inRecord = true → this ∈ known) →
      ∃ l known', WritesList this ss known l known' ∧ known ⊆ known'
  | [] => fun _ _ _ _ _ ↦ ⟨_, _, writesList_nil _ _, List.Subset.refl _⟩
  | s :: ss => fun b this known h hthis ↦ by
    obtain ⟨l, known₁, hs, hsub⟩ := exists_writes s b this known h.1 hthis
    obtain ⟨l', known', hss, hsub'⟩ :=
      exists_writesList ss b this known₁ h.2 fun hr ↦ hsub (hthis hr)
    exact ⟨_, _, hs.cons hss, List.Subset.trans hsub hsub'⟩

theorem exists_writesFields : ∀ (fs : List (String × Schema)) (inRecord : Bool) (this : String)
    (known : List String), WellFormedFields fs inRecord → (inRecord = true → this ∈ known) →
      ∃ l known', WritesFields this fs known l known' ∧ known ⊆ known'
  | [] => fun _ _ _ _ _ ↦ ⟨_, _, writesFields_nil _ _, List.Subset.refl _⟩
  | (n, s) :: fs => fun b this known h hthis ↦ by
    obtain ⟨l, known₁, hs, hsub⟩ := exists_writes s b this known h.1 hthis
    obtain ⟨l', known', hfs, hsub'⟩ :=
      exists_writesFields fs b this known₁ h.2 fun hr ↦ hsub (hthis hr)
    exact ⟨_, _, hs.consField hfs, List.Subset.trans hsub hsub'⟩

end

end Tigon.Io
