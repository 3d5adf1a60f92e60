import Tigon.Sql.GdatRecord
import Tigon.Sql.JsonData

/-!
# JSON records that are sent to a stream

A client sends objects with an array of strings, one string for each field of the stream.  The
handlers of `JsonInputServerSocket` take them in: the bytes are cut after each closing brace,
decoded, and parsed; the strings are encoded as a GDAT record, whose bytes are passed on.  An object
that cannot be parsed or encoded is rejected.

A brace in a string is a closing brace like any other.  So an object with such a string is lost: its
pieces are rejected, or parsed as something else.

* `output_eq` — what is passed on, for all the pieces.
* `ingests_iff` — **when it is the records of the objects.**
-/

set_option autoImplicit false

open Bytes

namespace Tigon.Sql.JsonInputServerSocket

open Gdat JsonData List

/-! ## Encoding strings -/

/-- What Java does with floating numbers. -/
structure Java where
  parseDouble : String → Option (BitVec 64)
  /-- Zero is a number. -/
  parseDouble_zero : (parseDouble "0").isSome = true

def digits (text : List Char) : Option Nat :=
  if text ≠ [] ∧ text.all Char.isDigit then some (text.foldl (fun n c ↦ 10 * n + (c.toNat - 48)) 0)
    else none

/-- `Integer.valueOf` and `Long.valueOf`, of a text in ASCII. -/
def parseNumber (w : Nat) (s : String) : Option (BitVec w) :=
  if s.toList.head? = some '-' then
    (digits s.toList.tail).bind fun n ↦ if n ≤ 2 ^ (w - 1) then some (BitVec.ofInt w (-n)) else none
  else
    (digits (if s.toList.head? = some '+' then s.toList.tail else s.toList)).bind fun n ↦
      if n < 2 ^ (w - 1) then some (BitVec.ofNat w n) else none

/-- The value of a field.  A string may be missing. -/
def valueOf (java : Java) : GDATFieldType → Option String → Option Value
  | .bool, value => some (.bool (value.any fun s ↦ s.toLower == "true"))
  | .int, value => (value.bind (parseNumber 32)).map Value.int
  | .long, value => (value.bind (parseNumber 64)).map Value.long
  | .double, value => (value.bind java.parseDouble).map Value.double
  | .string, value => value.map Value.string

/-- The loop over the fields. -/
def encodeFields (java : Java) (encoder : GDATEncoder) : List GDATFieldType → List (Option String) →
    Option GDATEncoder
  | fieldType :: fields, value :: values =>
    (valueOf java fieldType value).bind fun v ↦ encodeFields java (encoder.write v) fields values
  | _, _ => some encoder

/-- `GDATFormatUtil.encode`, for a stream that already has some bytes. -/
def encode (java : Java) (valueList : List (Option String)) (schema : StreamSchema)
    (out : List UInt8) : Option (List UInt8) :=
  if valueList.length = schema.fields.length then
    (encodeFields java GDATEncoder.new schema.fields valueList).bind fun encoder ↦
      encoder.writeTo.map fun written ↦ out ++ written.1
  else none

/-! ## The handlers -/

/-- What Gson makes of a text: the list that is the data of an object, if it is one. -/
abbrev Gson := String → Option (List (Option String))

structure JsonHandler where
  outputStream : List UInt8

/-- What is passed on for a message.  An exception leaves the handler as it is. -/
def JsonHandler.messageReceived (java : Java) (gson : Gson) (schema : StreamSchema)
    (h : JsonHandler) (json : String) : JsonHandler × List UInt8 :=
  match (gson json).bind fun valueList ↦ encode java valueList schema h.outputStream with
  | none => (h, [])
  | some outputStream => (⟨[]⟩, outputStream)

/-- The handlers, with the bytes that are not cut yet. -/
structure Pipeline where
  buffer : List UInt8
  handler : JsonHandler

def isBraceByte (b : UInt8) : Bool := b = 125

section

variable (java : Java) (gson : Gson) (schema : StreamSchema)

/-- Frames that are decoded and handled one after the other.  Bytes that are no text are left
out. -/
def handleFrames (h : JsonHandler) : List (List UInt8) → JsonHandler × List UInt8
  | [] => (h, [])
  | frame :: frames =>
    let first := ((GDATDecoder.decode frame).map (h.messageReceived java gson schema)).getD (h, [])
    let others := handleFrames first.1 frames
    (others.1, first.2 ++ others.2)

def Pipeline.receive (p : Pipeline) (chunk : List UInt8) : Pipeline × List UInt8 :=
  let frames := Frames.cut isBraceByte p.buffer chunk
  let handled := handleFrames java gson schema p.handler frames.1
  (⟨frames.2, handled.1⟩, handled.2)

/-- What is passed on for chunks. -/
def Pipeline.output (p : Pipeline) : List (List UInt8) → List UInt8
  | [] => []
  | chunk :: chunks =>
    (p.receive java gson schema chunk).2 ++ (p.receive java gson schema chunk).1.output chunks

def Pipeline.new : Pipeline := ⟨[], ⟨[]⟩⟩

end

/-! ## What is to be passed on -/

/-- An object as it is sent, with white space before it. -/
structure JsonObject where
  text : List Char
  values : List String
  parsed : parse text = some values
  /-- Its strings fit an array. -/
  fits : (values.map fun s ↦ (utf8 s).length).sum < 2 ^ 30

/-- Objects, and white space behind them. -/
structure Input where
  objects : List JsonObject
  trailing : List Char
  isSpace_trailing : ∀ c ∈ trailing, isSpace c = true

def Input.text (input : Input) : List Char :=
  (input.objects.map JsonObject.text).flatten ++ input.trailing

/-- Objects are parsed as what they are. -/
def GsonSpec (gson : Gson) : Prop :=
  ∀ text values, parse text = some values → gson (String.ofList text) = some (values.map some)

/-- The values of a record, if there are as many strings as fields, and all of them say values. -/
def valuesOf (java : Java) : List GDATFieldType → List (Option String) → Option (List Value)
  | [], [] => some []
  | fieldType :: fields, value :: values =>
    (valueOf java fieldType value).bind fun v ↦ (valuesOf java fields values).map (v :: ·)
  | [], _ :: _ => none
  | _ :: _, [] => none

/-- The records of the objects that have values are passed on, however the bytes are cut, by every
parser that parses objects. -/
def Ingests (java : Java) (schema : StreamSchema) (input : Input) : Prop :=
  ∀ gson, GsonSpec gson → ∀ chunks : List (List UInt8),
    chunks.flatten = utf8 (String.ofList input.text) → ∃ records : List (Record schema),
      records.map Record.values = input.objects.filterMap
        (fun o ↦ valuesOf java schema.fields (o.values.map some)) ∧ (∀ r ∈ records, r.eof = false) ∧
        Pipeline.new.output java gson schema chunks = records.flatMap Record.bytes

/-! ## Encoding -/

theorem fieldType_of_valueOf {java : Java} {fieldType : GDATFieldType}
    {value : Option String} {v : Value} (h : valueOf java fieldType value = some v) : v.fieldType =
      fieldType := by
  cases fieldType with
  | bool =>
    obtain rfl := Option.some.inj h
    rfl
  | int | long | double | string =>
    obtain ⟨x, -, rfl⟩ := Option.map_eq_some_iff.mp h
    rfl

variable {fields : List GDATFieldType}

variable {values : List (Option String)}

theorem typed_of_valuesOf {java : Java} {vs : List Value}
    (h : valuesOf java fields values = some vs) : vs.map Value.fieldType = fields := by
  induction fields generalizing values vs with
  | nil =>
    cases values with
    | nil =>
      obtain rfl := Option.some.inj h
      rfl
    | cons value values => exact absurd h (Option.some_ne_none _).symm
  | cons fieldType fields ih =>
    cases values with
    | nil => exact absurd h (Option.some_ne_none _).symm
    | cons value values =>
      obtain ⟨v, hv, h⟩ := Option.bind_eq_some_iff.mp h
      obtain ⟨vs', hvs, rfl⟩ := Option.map_eq_some_iff.mp h
      rw [map_cons, fieldType_of_valueOf hv, ih hvs]

theorem valuesOf_eq_none_of_length {java : Java}
    (h : values.length ≠ fields.length) : valuesOf java fields values = none := by
  induction fields generalizing values with
  | nil =>
    cases values with
    | nil => exact absurd rfl h
    | cons value values => rfl
  | cons fieldType fields ih =>
    cases values with
    | nil => rfl
    | cons value values =>
      have hrest : valuesOf java fields values = none := ih fun hlen ↦ h (congrArg Nat.succ hlen)
      rw [valuesOf, hrest]
      cases valueOf java fieldType value <;> rfl

theorem encodeFields_eq {java : Java}
    (h : values.length = fields.length) (encoder : GDATEncoder) :
    encodeFields java encoder fields values =
      (valuesOf java fields values).map fun vs ↦ vs.foldl GDATEncoder.write encoder := by
  induction fields generalizing values encoder with
  | nil =>
    cases values with
    | nil => rfl
    | cons value values => exact absurd h (Nat.succ_ne_zero _)
  | cons fieldType fields ih =>
    cases values with
    | nil => exact absurd h.symm (Nat.succ_ne_zero _)
    | cons value values =>
      rw [encodeFields, valuesOf]
      cases valueOf java fieldType value with
      | none => rfl
      | some v =>
        rw [Option.bind_some, Option.bind_some, ih (Nat.succ.inj h), Option.map_map]
        rfl

/-- The bytes of a record with some values. -/
def recordBytes (schema : StreamSchema) (vs : List Value) : List UInt8 :=
  toBytes 4 (getGDATFieldSize schema.fields + 1 + (vs.flatMap Value.payload).length) ++
    (body (getGDATFieldSize schema.fields + 1) vs ++ [GDATRecordType.data.recordMarker]) ++
      vs.flatMap Value.payload

theorem bytes_eq {schema : StreamSchema} {r : Record schema} (h : r.eof = false) :
    r.bytes = recordBytes schema r.values := by
  rw [Record.bytes, Record.recordType, h]
  rfl

theorem length_recordBytes_pos (schema : StreamSchema) (vs : List Value) :
    0 < (recordBytes schema vs).length := by
  rw [recordBytes, length_append, length_append, length_append,
    length_singleton]
  omega

/-- The bytes of a record are written behind those that are there already. -/
theorem encode_eq (java : Java) (valueList : List (Option String)) (schema : StreamSchema)
    (out : List UInt8) : encode java valueList schema out =
      (valuesOf java schema.fields valueList).map fun vs ↦ out ++ recordBytes schema vs := by
  rw [encode]
  split
  · rename_i hlength
    rw [encodeFields_eq hlength]
    cases hvs : valuesOf java schema.fields valueList with
    | none => rfl
    | some vs =>
      have hwrite := writeToRecord_locations vs GDATRecordType.data.recordMarker
      rw [typed_of_valuesOf hvs] at hwrite
      rw [Option.map_some, Option.bind_some, GDATEncoder.writeTo, hwrite]
      rfl
  · rename_i hlength
    rw [valuesOf_eq_none_of_length hlength]
    rfl

/-! ## Frames -/

section

variable (java : Java) (gson : Gson) (schema : StreamSchema)

/-- What is passed on for a text. -/
def passedOn (json : String) : List UInt8 :=
  (((gson json).bind (valuesOf java schema.fields)).map (recordBytes schema)).getD []

/-- The output stream is empty between messages. -/
theorem messageReceived_eq (json : String) :
    JsonHandler.messageReceived java gson schema ⟨[]⟩ json =
      (⟨[]⟩, passedOn java gson schema json) := by
  rw [JsonHandler.messageReceived, passedOn]
  cases gson json with
  | none => rfl
  | some valueList =>
    rw [Option.bind_some, Option.bind_some, encode_eq]
    cases valuesOf java schema.fields valueList with
    | none => rfl
    | some vs => rfl

theorem handleFrames_eq (frames : List (List UInt8)) :
    handleFrames java gson schema ⟨[]⟩ frames =
      (⟨[]⟩, frames.flatMap fun frame ↦
        ((GDATDecoder.decode frame).map (passedOn java gson schema)).getD []) := by
  induction frames with
  | nil => rfl
  | cons frame frames ih =>
    rw [handleFrames, flatMap_cons]
    cases GDATDecoder.decode frame with
    | none =>
      rw [Option.map_none, Option.getD_none]
      dsimp only
      rw [ih]
      rfl
    | some json =>
      rw [Option.map_some, Option.getD_some, messageReceived_eq]
      dsimp only
      rw [ih]
      rfl

/-- It makes no difference how the bytes are cut into chunks. -/
theorem output_eq_of_buffer (buffer : List UInt8) (chunks : List (List UInt8)) :
    Pipeline.output java gson schema ⟨buffer, ⟨[]⟩⟩ chunks =
      (Frames.cut isBraceByte buffer chunks.flatten).1.flatMap fun frame ↦
        ((GDATDecoder.decode frame).map (passedOn java gson schema)).getD [] := by
  induction chunks generalizing buffer with
  | nil => rfl
  | cons chunk chunks ih =>
    rw [Pipeline.output, Pipeline.receive, flatten_cons, Frames.cut_append,
      flatMap_append, handleFrames_eq]
    dsimp only
    rw [ih]

/-- The bytes of a character; there is no brace in another one. -/
theorem utf8EncodeChar_brace (c : Char) :
    (isBrace c = true → ∃ b, String.utf8EncodeChar c = [b] ∧ isBraceByte b = true) ∧
      (isBrace c = false → ∀ b ∈ String.utf8EncodeChar c, isBraceByte b = false) := by
  constructor
  · intro hc
    obtain rfl : c = '}' := of_decide_eq_true hc
    exact ⟨125, by decide, by decide⟩
  · intro hc b hb
    have hne : c.val.toNat ≠ 125 := fun h ↦
      of_decide_eq_false hc (Char.ext (UInt32.toNat_inj.mp h))
    have hlt : c.val.toNat < 2 ^ 32 := c.val.toNat_lt
    refine decide_eq_false fun hbrace ↦ ?_
    have hb125 : b.toNat = 125 := by rw [hbrace]; rfl
    unfold String.utf8EncodeChar at hb
    dsimp only at hb
    split at hb
    · simp only [mem_singleton] at hb
      rw [hb, UInt8.toNat_ofNat'] at hb125
      omega
    · split at hb
      · simp only [mem_cons, not_mem_nil, or_false] at hb
        rcases hb with hb | hb <;> (rw [hb, UInt8.toNat_ofNat'] at hb125; omega)
      · split at hb
        · simp only [mem_cons, not_mem_nil, or_false] at hb
          rcases hb with hb | hb | hb <;> (rw [hb, UInt8.toNat_ofNat'] at hb125; omega)
        · simp only [mem_cons, not_mem_nil, or_false] at hb
          rcases hb with hb | hb | hb | hb <;> (rw [hb, UInt8.toNat_ofNat'] at hb125; omega)

theorem utf8_ofList (text : List Char) : utf8 (String.ofList text) =
    text.flatMap String.utf8EncodeChar := by
  rw [utf8, String.toByteArray_ofList, utf8Encode, data_toByteArray]

/-- **What is passed on is what is passed on for each piece of the text.** -/
theorem output_eq {text : List Char} {chunks : List (List UInt8)}
    (h : chunks.flatten = utf8 (String.ofList text)) : Pipeline.new.output java gson schema chunks =
      (pieces text).flatMap fun piece ↦ passedOn java gson schema (String.ofList piece) := by
  have hcut := Frames.cut_flatMap (fun c ↦ (utf8EncodeChar_brace c).1)
    (fun c ↦ (utf8EncodeChar_brace c).2) [] text
  rw [Pipeline.new, output_eq_of_buffer, h, utf8_ofList]
  rw [flatMap_nil] at hcut
  rw [hcut, flatMap_map, pieces]
  refine congrArg (fun f ↦ flatMap f _) (funext fun piece ↦ ?_)
  rw [← utf8_ofList, GDATDecoder.decode_utf8]
  rfl

/-- The pieces of all objects. -/
theorem pieces_text (input : Input) : pieces input.text = input.objects.flatMap fun o ↦
    pieces o.text := by
  have hended : ∀ l ∈ input.objects.map JsonObject.text, (Frames.cut isBrace [] l).2 = [] := by
    intro l hl
    obtain ⟨o, -, rfl⟩ := mem_map.mp hl
    obtain ⟨l, htext, -⟩ := exists_concat_of_parse o.parsed
    rw [htext, cut_concat_brace]
  rw [pieces, Input.text, Frames.cut_append, Frames.cut_flatten hended,
    cut_of_isSpace input.isSpace_trailing, append_nil, flatMap_map]
  rfl

end

/-! ## Records -/

section

variable (java : Java) (schema : StreamSchema)

/-- What is to be passed on for an object. -/
def objectBytes (o : JsonObject) : List UInt8 :=
  ((valuesOf java schema.fields (o.values.map some)).map (recordBytes schema)).getD []

variable {java schema}

theorem length_payload_le {values : List String} {vs : List Value}
    (h : valuesOf java fields (values.map some) = some vs) :
    (vs.flatMap Value.payload).length ≤ (values.map fun s ↦ (utf8 s).length).sum := by
  induction fields generalizing values vs with
  | nil =>
    cases values with
    | nil =>
      obtain rfl := Option.some.inj h
      exact le_rfl
    | cons s values => exact absurd h (Option.some_ne_none _).symm
  | cons fieldType fields ih =>
    cases values with
    | nil => exact absurd h (Option.some_ne_none _).symm
    | cons s values =>
      obtain ⟨v, hv, h⟩ := Option.bind_eq_some_iff.mp h
      obtain ⟨vs', hvs, rfl⟩ := Option.map_eq_some_iff.mp h
      have hpayload : v.payload.length ≤ (utf8 s).length := by
        cases fieldType with
        | bool =>
          obtain rfl := Option.some.inj hv
          exact Nat.zero_le _
        | string =>
          obtain rfl := Option.some.inj hv
          exact le_rfl
        | int | long | double =>
          obtain ⟨x, -, rfl⟩ := Option.map_eq_some_iff.mp hv
          exact Nat.zero_le _
      have := ih hvs
      rw [flatMap_cons, length_append, map_cons, sum_cons]
      omega

/-- An object with values is a record. -/
theorem exists_record (o : JsonObject) {vs : List Value}
    (h : valuesOf java schema.fields (o.values.map some) = some vs) :
    ∃ r : Record schema, r.values = vs ∧ r.eof = false := by
  have hpayload := length_payload_le h
  have hfits := o.fits
  have hsize := getGDATFieldSize_le schema.fields
  have hlt := schema.length_lt
  exact ⟨⟨vs, false, typed_of_valuesOf h, by omega⟩, rfl, rfl⟩

variable (java schema) in
theorem exists_records (objects : List JsonObject) :
    ∃ records : List (Record schema),
      records.map Record.values = objects.filterMap
        (fun o ↦ valuesOf java schema.fields (o.values.map some)) ∧ ∀ r ∈ records,
          r.eof = false := by
  induction objects with
  | nil => exact ⟨[], rfl, fun r hr ↦ absurd hr not_mem_nil⟩
  | cons o objects ih =>
    obtain ⟨records, hvalues, heof⟩ := ih
    rw [filterMap_cons]
    cases hvs : valuesOf java schema.fields (o.values.map some) with
    | none => exact ⟨records, hvalues, heof⟩
    | some vs =>
      obtain ⟨r, hr, hreof⟩ := exists_record o hvs
      refine ⟨r :: records, by rw [map_cons, hr, hvalues], fun r' hr' ↦ ?_⟩
      rcases mem_cons.mp hr' with rfl | hr'
      · exact hreof
      · exact heof r' hr'

theorem flatMap_bytes {objects : List JsonObject} {records : List (Record schema)}
    (hvalues : records.map Record.values =
      objects.filterMap fun o ↦ valuesOf java schema.fields (o.values.map some))
    (heof : ∀ r ∈ records, r.eof = false) :
    records.flatMap Record.bytes = objects.flatMap (objectBytes java schema) := by
  have hrecords : records.flatMap Record.bytes = (records.map Record.values).flatMap
    (recordBytes schema) := by
    rw [flatMap_map, flatMap_def, flatMap_def]
    exact congrArg flatten (map_congr_left fun r hr ↦ bytes_eq (heof r hr))
  rw [hrecords, hvalues]
  clear hrecords hvalues heof records
  induction objects with
  | nil => rfl
  | cons o objects ih =>
    rw [filterMap_cons, flatMap_cons, objectBytes]
    cases valuesOf java schema.fields (o.values.map some) with
    | none => exact ih
    | some vs =>
      rw [flatMap_cons, ih]
      rfl

/-- What is passed on is right just when it is the bytes of all objects. -/
theorem ingests_iff_forall (input : Input) :
    Ingests java schema input ↔ ∀ gson, GsonSpec gson →
      (input.objects.flatMap fun o ↦
        (pieces o.text).flatMap fun piece ↦ passedOn java gson schema (String.ofList piece)) =
      input.objects.flatMap (objectBytes java schema) := by
  constructor
  · intro h gson hgson
    have hchunks : [utf8 (String.ofList input.text)].flatten = utf8 (String.ofList input.text) :=
      append_nil _
    obtain ⟨records, hvalues, heof, hout⟩ := h gson hgson _ hchunks
    rw [flatMap_bytes hvalues heof, output_eq java gson schema hchunks, pieces_text,
      flatMap_assoc] at hout
    exact hout
  · intro h gson hgson chunks hchunks
    obtain ⟨records, hvalues, heof⟩ := exists_records java schema input.objects
    refine ⟨records, hvalues, heof, ?_⟩
    rw [flatMap_bytes hvalues heof, output_eq java gson schema hchunks, pieces_text,
      flatMap_assoc]
    exact h gson hgson

/-! ## Objects in one piece -/

/-- An object without a brace in a string is passed on. -/
theorem passedOn_of_not_innerBrace {gson : Gson} (hgson : GsonSpec gson) {o : JsonObject}
    (h : ¬InnerBrace o.text) : ((pieces o.text).flatMap fun piece ↦ passedOn java gson schema
      (String.ofList piece)) = objectBytes java schema o := by
  rw [pieces_of_not_innerBrace o.parsed h, flatMap_singleton, passedOn, hgson _ _ o.parsed,
    Option.bind_some]
  rfl

/-- The parser that parses objects, and something else as a given list. -/
def gsonOf (other : Option (List (Option String))) : Gson :=
  fun s ↦ ((parse s.toList).map (map some)).or other

theorem gsonSpec_gsonOf (other : Option (List (Option String))) : GsonSpec (gsonOf other) := by
  intro text values h
  rw [gsonOf, String.toList_ofList, h]
  rfl

variable (java schema) in
/-- The pieces of another object are parsed as something else. -/
theorem passedOn_of_innerBrace (other : Option (List (Option String))) {o : JsonObject}
    (h : InnerBrace o.text) : ∃ n, ((pieces o.text).flatMap fun piece ↦ passedOn java (gsonOf other)
      schema (String.ofList piece)) =
        (replicate (n + 1) (((other.bind (valuesOf java schema.fields)).map
          (recordBytes schema)).getD [])).flatten := by
  obtain ⟨hne, hpieces⟩ := parse_eq_none_of_innerBrace o.parsed h
  obtain ⟨n, hn⟩ := Nat.exists_eq_succ_of_ne_zero (fun hlen ↦ hne (length_eq_zero_iff.mp hlen))
  refine ⟨n, ?_⟩
  rw [flatMap_def, ← Nat.succ_eq_add_one, ← hn, ← map_const']
  refine congrArg flatten (map_congr_left fun piece hpiece ↦ ?_)
  rw [passedOn, gsonOf, String.toList_ofList, hpieces piece hpiece]
  rfl

/-- There are strings that say values. -/
theorem exists_valuesOf (java : Java) (fields : List GDATFieldType) :
    ∃ vs, valuesOf java fields (fields.map fun _ ↦ some "0") = some vs := by
  induction fields with
  | nil => exact ⟨[], rfl⟩
  | cons fieldType fields ih =>
    obtain ⟨vs, hvs⟩ := ih
    have hvalue : ∃ v, valueOf java fieldType (some "0") = some v := by
      cases fieldType with
      | bool => exact ⟨_, rfl⟩
      | int =>
        have h32 : parseNumber 32 "0" = some 0 := by decide +kernel
        exact ⟨.int 0, by rw [valueOf, Option.bind_some, h32]; rfl⟩
      | long =>
        have h64 : parseNumber 64 "0" = some 0 := by decide +kernel
        exact ⟨.long 0, by rw [valueOf, Option.bind_some, h64]; rfl⟩
      | double =>
        obtain ⟨x, hx⟩ := Option.isSome_iff_exists.mp java.parseDouble_zero
        exact ⟨.double x, by rw [valueOf, Option.bind_some, hx]; rfl⟩
      | string => exact ⟨.string "0", rfl⟩
    obtain ⟨v, hv⟩ := hvalue
    exact ⟨v :: vs, by rw [map_cons, valuesOf, hv, Option.bind_some, hvs]; rfl⟩

theorem length_flatMap_lt {α : Type*} {l : List α} {f g : α → List UInt8}
    (hle : ∀ a ∈ l, (f a).length ≤ (g a).length) (hlt : ∃ a ∈ l, (f a).length < (g a).length) :
    (l.flatMap f).length < (l.flatMap g).length := by
  rw [length_flatMap, length_flatMap]
  exact sum_lt_sum _ _ hle hlt

/-- An object with a brace in a string is lost, or something else is passed on for its pieces. -/
theorem not_ingests_of_innerBrace {input : Input} {o : JsonObject} (ho : o ∈ input.objects)
    (hinner : InnerBrace o.text) : ¬Ingests java schema input := by
  intro h
  rw [ingests_iff_forall] at h
  by_cases hvalues : ∃ o ∈ input.objects, InnerBrace o.text ∧ 0 < (objectBytes java schema o).length
  · -- A parser that takes nothing else passes on less.
    obtain ⟨o', ho', hinner', hpos⟩ := hvalues
    have hspec := gsonSpec_gsonOf none
    have hnone : ∀ o : JsonObject, InnerBrace o.text →
        ((pieces o.text).flatMap fun piece ↦ passedOn java (gsonOf none) schema
          (String.ofList piece)) = [] := by
      intro o hbrace
      obtain ⟨n, hn⟩ := passedOn_of_innerBrace java schema none hbrace
      rw [hn]
      exact flatten_replicate_nil
    refine absurd (congrArg length (h _ hspec))
      (ne_of_lt (length_flatMap_lt (fun p hp ↦ ?_) ⟨o', ho', ?_⟩))
    · by_cases hbrace : InnerBrace p.text
      · rw [hnone p hbrace]
        exact Nat.zero_le _
      · rw [passedOn_of_not_innerBrace hspec hbrace]
    · rw [hnone o' hinner']
      exact hpos
  · -- A parser that takes all other pieces as some values passes on more.
    obtain ⟨vs, hvs⟩ := exists_valuesOf java schema.fields
    have hspec := gsonSpec_gsonOf (some (schema.fields.map fun _ ↦ some "0"))
    have hempty : ∀ p ∈ input.objects, InnerBrace p.text →
      (objectBytes java schema p).length = 0 := by
      intro p hp hbrace
      by_contra hne
      exact hvalues ⟨p, hp, hbrace, Nat.pos_of_ne_zero hne⟩
    refine absurd (congrArg length (h _ hspec))
      (ne_of_gt (length_flatMap_lt (fun p hp ↦ ?_) ⟨o, ho, ?_⟩))
    · by_cases hbrace : InnerBrace p.text
      · rw [hempty p hp hbrace]
        exact Nat.zero_le _
      · rw [passedOn_of_not_innerBrace hspec hbrace]
    · obtain ⟨n, hn⟩ := passedOn_of_innerBrace java schema
        (some (schema.fields.map fun _ ↦ some "0")) hinner
      have hpos := length_recordBytes_pos schema vs
      rw [hempty o ho hinner, hn, Option.bind_some, hvs, replicate_succ, flatten_cons,
        length_append]
      exact Nat.add_pos_left hpos _

/-- **The records of objects are passed on, in order and however the bytes are cut, just when no
object has a closing brace before its end.** -/
theorem ingests_iff (java : Java) (schema : StreamSchema) (input : Input) :
    Ingests java schema input ↔ ∀ o ∈ input.objects, ¬InnerBrace o.text := by
  constructor
  · intro h o ho hinner
    exact not_ingests_of_innerBrace ho hinner h
  · intro h
    refine (ingests_iff_forall input).mpr fun gson hgson ↦ ?_
    rw [flatMap_def, flatMap_def]
    exact congrArg flatten (map_congr_left fun o ho ↦ passedOn_of_not_innerBrace
      hgson (h o ho))

/-- `{"data":["}"]}` -/
def braceText : List Char :=
  ['{', quote, 'd', 'a', 't', 'a', quote, ':', '[', quote, '}', quote, ']', '}']

/-- The record of a string with a brace is not passed on. -/
theorem not_ingests_brace : ¬∀ (java : Java) (schema : StreamSchema) (input : Input),
    Ingests java schema input := by
  intro h
  have hparse : parse braceText = some [String.ofList ['}']] := by decide +kernel
  have hfits : (([String.ofList ['}']]).map fun s ↦ (utf8 s).length).sum < 2 ^ 30 :=
    by decide +kernel
  have hinner : InnerBrace braceText := by
    rw [InnerBrace]
    decide
  have hingests := h ⟨fun _ ↦ some 0, rfl⟩ ⟨[.string], by decide⟩
    ⟨[⟨braceText, _, hparse, hfits⟩], [], fun c hc ↦ absurd hc not_mem_nil⟩
  exact not_ingests_of_innerBrace mem_cons_self hinner hingests

end

end Tigon.Sql.JsonInputServerSocket
