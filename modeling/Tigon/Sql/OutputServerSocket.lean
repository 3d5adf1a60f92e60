import Tigon.Sql.GdatRecord

/-!
# The output stream server

The engine sends an output stream as a header, the schema whose length the header announces, and
records with their lengths in front.  Three handlers of the pipeline of `OutputServerSocket` take it
in: `SchemaHeaderDecoder` collects the header and the schema, passes on what came after them, and
takes itself out of the pipeline; `LengthFieldLittleEndianFrameDecoder` collects records;
`GDATRecordHandler` adds them to the queue, and counts down a latch at the end of the stream.

The stream comes in chunks, whose bounds say nothing.  So a state is described by the bytes received
so far (`Received`).

A record is a data record, a trace record, or the end of the stream.  The handler tells the last
from the others, and adds the others to the queue.

* `frameLoop_spec` — the records that are complete are passed on.
* `headerReceived_spec` — the header, with what comes after it.
* `received_receive` — **what a chunk adds to what was received**, and from this a run over all
  chunks.
* `framed_iff` — the data records come through if there are no trace records.
-/

set_option autoImplicit false

namespace Tigon.OutputServerSocket

open Bytes Gdat List

/-! ## The stream -/

/-- `'\n'` -/
def newline : UInt8 := 10

/-- `':'` -/
def colon : UInt8 := 58

/-- `GDAT\nVERSION` -/
def versionLabel : List UInt8 := [71, 68, 65, 84, 10, 86, 69, 82, 83, 73, 79, 78]

/-- `\nSCHEMALENGTH` -/
def schemaLengthLabel : List UInt8 := [10, 83, 67, 72, 69, 77, 65, 76, 69, 78, 71, 84, 72]

/-- The number that the digits say. -/
def digits (text : List UInt8) : Option Nat :=
  if text ≠ [] ∧ ∀ c ∈ text, 48 ≤ c ∧
    c ≤ 57 then some (text.foldl (fun n c ↦ 10 * n + (c.toNat - 48)) 0) else none

/-- `Integer.valueOf`, of a text in ASCII. -/
def valueOf : List UInt8 → Option Int
  | 45 :: text => (digits text).bind fun n ↦ if n ≤ 2 ^ 31 then some (-n : Int) else none
  | 43 :: text => (digits text).bind fun n ↦ if n < 2 ^ 31 then some (n : Int) else none
  | text => (digits text).bind fun n ↦ if n < 2 ^ 31 then some (n : Int) else none

/-- A record without its length. -/
structure Record where
  bytes : List UInt8
  /-- With its length, a record fits an array. -/
  fits : bytes.length + 4 < 2 ^ 31

/-- The record with its length. -/
def Record.encode (r : Record) : List UInt8 := toBytes 4 r.bytes.length ++ r.bytes

/-- What `StreamSchemaCodec` makes of the header and the schema, if it does. -/
abbrev SchemaOf := List UInt8 → Option (List GDATFieldType)

/-- A well-formed stream. -/
structure GdatStream (schemaOf : SchemaOf) where
  version : List UInt8
  version_line : newline ∉ version ∧ colon ∉ version
  /-- The announced length of the schema. -/
  announced : List UInt8
  schema : List UInt8
  announced_eq : valueOf announced = some (schema.length : Int)
  fields : List GDATFieldType
  fields_eq : schemaOf
    (versionLabel ++ colon :: version ++ schemaLengthLabel ++ colon :: announced ++ newline ::
      schema) = some fields
  /-- Header and schema fit an array. -/
  fits : (versionLabel ++ colon :: version ++ schemaLengthLabel ++ colon :: announced ++
    newline :: schema).length < 2 ^ 31
  records : List Record

variable {schemaOf : SchemaOf}

namespace GdatStream

variable (g : GdatStream schemaOf)

/-- The three lines, up to the last newline. -/
def lines : List UInt8 :=
  versionLabel ++ colon :: g.version ++ schemaLengthLabel ++ colon :: g.announced

/-- The header and the schema. -/
def header : List UInt8 := g.lines ++ newline :: g.schema

def bytes : List UInt8 := g.header ++ g.records.flatMap Record.encode

end GdatStream

/-! ## The handlers -/

/-- The place of the `n`th `searchChar`, or -1. -/
def findNthChar (searchChar : UInt8) : Nat → List UInt8 → Nat → Int
  | _, [], _ => -1
  | n, b :: buffer, i =>
    if b = searchChar then
      if n = 1 then i else findNthChar searchChar (n - 1) buffer (i + 1)
    else findNthChar searchChar n buffer (i + 1)

/-- `SchemaHeaderDecoder`: the bytes that can be read, and the length of header and schema, or
-1. -/
structure HeaderDecoder where
  buffer : List UInt8
  schemaLength : Int

/-- `LengthFieldLittleEndianFrameDecoder`: the bytes that can be read, and the length of the record,
or -1. -/
structure FrameDecoder where
  buffer : List UInt8
  dataRecordLength : Int

structure State where
  /-- None when the handler has taken itself out of the pipeline. -/
  headerDecoder : Option HeaderDecoder
  dataRecord : FrameDecoder
  fieldSize : Nat
  /-- The records in the queue, with their lengths. -/
  recordQueue : List (List UInt8)
  /-- The latch is counted down. -/
  eofRecordLatch : Bool
  dataRecordsReceived : Nat

def State.init : State := ⟨some ⟨[], -1⟩, ⟨[], -1⟩, 0, [], false, 0⟩

/-- `GDATRecordType.getGDATRecordType` -/
def getGDATRecordType (recordMarker : UInt8) : Option GDATRecordType :=
  [GDATRecordType.data, .trace, .eof].find? fun t ↦ t.recordMarker = recordMarker

/-- `GDATRecordHandler.messageReceived`.  For a record without a marker, or with another one, there
is an exception, which the pipeline catches. -/
def recordReceived (s : State) (buffer : List UInt8) : State :=
  match buffer[s.fieldSize + 4]?.bind getGDATRecordType with
  | none => s
  | some .eof => { s with eofRecordLatch := true }
  | some _ =>
    { s with
      recordQueue := s.recordQueue ++ [buffer], dataRecordsReceived := s.dataRecordsReceived + 1 }

/-- The length of a record with its length. -/
def recordLength (lengthBytes : List UInt8) : Int :=
  (4#32 + BitVec.ofNat 32 (ofBytes lengthBytes)).toInt

/-- The loop of `LengthFieldLittleEndianFrameDecoder.messageReceived`, with the records that are
passed on.  It does not end when the loop is out of fuel.  Reading a negative number of bytes is an
exception. -/
def frameLoop : Nat → FrameDecoder → Option (List (List UInt8) × FrameDecoder)
  | 0, _ => none
  | fuel + 1, f =>
    if f.dataRecordLength ≠ -1 ∧ f.dataRecordLength ≤ f.buffer.length then
      if f.dataRecordLength < 0 then some ([], f)
      else
        (frameLoop fuel ⟨f.buffer.drop f.dataRecordLength.toNat, -1⟩).map fun (records, f') ↦
          (f.buffer.take f.dataRecordLength.toNat :: records, f')
    else if f.dataRecordLength = -1 ∧ 4 ≤ f.buffer.length then
      frameLoop fuel { f with dataRecordLength := recordLength (f.buffer.take 4) }
    else some ([], f)

/-- `LengthFieldLittleEndianFrameDecoder.messageReceived` -/
def frameReceived (s : State) (message : List UInt8) : Option State :=
  let buffer := s.dataRecord.buffer ++ message
  (frameLoop (buffer.length + 2) { s.dataRecord with buffer := buffer }).map fun (records, f) ↦
    records.foldl recordReceived { s with dataRecord := f }

/-- The first branch of the loop of `SchemaHeaderDecoder.messageReceived`.  An exception leaves the
decoder as it is. -/
def announce (h : HeaderDecoder) : HeaderDecoder :=
  let newLinePos := findNthChar newline 3 h.buffer 0
  if h.schemaLength = -1 ∧ newLinePos ≠ -1 then
    let colonPos := findNthChar colon 2 h.buffer 0
    let byteArrayLength := newLinePos - colonPos - 1
    if byteArrayLength < 0 then h
    else
      match valueOf ((h.buffer.drop (colonPos + 1).toNat).take byteArrayLength.toNat) with
      | some length => { h with schemaLength := (BitVec.ofInt 32 (newLinePos + 1 + length)).toInt }
      | none => h
  else h

/-- `SchemaHeaderDecoder.messageReceived`.  After the second branch the loop ends. -/
def headerReceived (schemaOf : SchemaOf) (s : State) (h : HeaderDecoder) (message : List UInt8) :
    Option State :=
  let h := announce { h with buffer := h.buffer ++ message }
  if h.schemaLength ≠ -1 ∧ h.schemaLength ≤ h.buffer.length then
    if h.schemaLength < 0 then some { s with headerDecoder := some h }
    else
      let rest := h.buffer.drop h.schemaLength.toNat
      match schemaOf (h.buffer.take h.schemaLength.toNat) with
      | none => some { s with headerDecoder := some { h with buffer := rest } }
      | some fields =>
        let s := { s with headerDecoder := none, fieldSize := getGDATFieldSize fields }
        if rest ≠ [] then frameReceived s rest else some s
  else some { s with headerDecoder := some h }

/-- A chunk comes to the first handler of the pipeline. -/
def receive (schemaOf : SchemaOf) (s : State) (chunk : List UInt8) : Option State :=
  match s.headerDecoder with
  | some h => headerReceived schemaOf s h chunk
  | none => frameReceived s chunk

/-- All chunks of the stream. -/
def run (schemaOf : SchemaOf) (s : State) (chunks : List (List UInt8)) : Option State :=
  chunks.foldlM (receive schemaOf) s

/-! ## What is to hold -/

/-- The type of the record, if it has a known one. -/
def Record.recordType (fields : List GDATFieldType) (r : Record) : Option GDATRecordType :=
  r.bytes[getGDATFieldSize fields]?.bind getGDATRecordType

/-- The data records are in the queue, and the latch says whether there was a record for the end. -/
structure Exact (g : GdatStream schemaOf) (s : State) : Prop where
  queue : s.recordQueue = (g.records.filter fun r ↦ r.recordType g.fields = some .data).map
    Record.encode
  latch : s.eofRecordLatch = true ↔ ∃ r ∈ g.records, r.recordType g.fields = some .eof

/-- So for every division of the stream. -/
def Framed (g : GdatStream schemaOf) : Prop :=
  ∀ chunks : List (List UInt8), chunks.flatten = g.bytes → ∃ s, run schemaOf .init chunks =
    some s ∧ Exact g s

/-- No record of the stream is a trace record. -/
def NoTrace (g : GdatStream schemaOf) : Prop := ∀ r ∈ g.records, r.recordType g.fields ≠ some .trace

/-! ## Records -/

section

variable {f : FrameDecoder} {todo : List Record} {fields : List GDATFieldType} {s : State}

theorem Record.length_encode (r : Record) : r.encode.length = r.bytes.length + 4 := by
  rw [Record.encode, length_append, length_toBytes]
  omega

theorem Record.recordLength_take (r : Record) : recordLength (r.encode.take 4) =
    r.encode.length := by
  have hfits := r.fits
  have htake : r.encode.take 4 = toBytes 4 r.bytes.length := take_left' (length_toBytes 4 _)
  rw [htake, recordLength, ofBytes_toBytes (by omega), r.length_encode, BitVec.toInt_eq_toNat_cond,
    BitVec.toNat_add, BitVec.toNat_ofNat, BitVec.toNat_ofNat]
  split <;> omega

/-- The decoder has bytes of the records to come, and the length of the first of them, if it has
one. -/
structure Parsed (f : FrameDecoder) (todo : List Record) : Prop where
  buffer : f.buffer <+: todo.flatMap Record.encode
  length : f.dataRecordLength = -1 ∨ ∃ r rest, todo = r :: rest ∧ f.dataRecordLength =
    r.encode.length

/-- The first record is not complete. -/
def Waiting (f : FrameDecoder) (todo : List Record) : Prop :=
  ∀ r ∈ todo.head?, f.buffer.length < r.encode.length

theorem prefix_encode {r : Record} {rest : List Record} {buffer : List UInt8}
    (h : buffer <+: (r :: rest).flatMap Record.encode) (hle : r.encode.length ≤ buffer.length) :
    ∃ b, buffer = r.encode ++ b ∧ b <+: rest.flatMap Record.encode := by
  rw [flatMap_cons] at h
  obtain ⟨b, rfl⟩ := prefix_of_prefix_length_le (prefix_append _ _) h hle
  exact ⟨b, rfl, (prefix_append_right_inj _).mp h⟩

/-- **The records that are complete are passed on**, and the rest is left. -/
theorem frameLoop_spec : ∀ (fuel : Nat) (f : FrameDecoder) (todo : List Record),
    Parsed f todo → 0 < fuel → f.buffer.length + (if f.dataRecordLength = -1 then 1 else 0) ≤ fuel →
    ∃ done todo' f', todo = done ++ todo' ∧ frameLoop fuel f = some (done.map Record.encode, f') ∧
      f.buffer = done.flatMap Record.encode ++ f'.buffer ∧ Parsed f' todo' ∧ Waiting f' todo' := by
  intro fuel
  induction fuel with
  | zero => exact fun _ _ _ hpos ↦ absurd hpos (Nat.lt_irrefl 0)
  | succ fuel ih =>
    intro f todo hparsed _ hfuel
    rcases hparsed.length with hnone | ⟨r, rest, rfl, hlength⟩
    · rw [if_pos hnone] at hfuel
      have hfirst : ¬ (f.dataRecordLength ≠ -1 ∧ f.dataRecordLength ≤ f.buffer.length) :=
        fun h ↦ h.1 hnone
      by_cases hfour : 4 ≤ f.buffer.length
      · obtain _ | ⟨r, rest⟩ := todo
        · have hnil := prefix_nil.mp hparsed.buffer
          rw [hnil] at hfour
          exact absurd hfour (by decide)
        · -- The length of the record is there.
          have hlen : recordLength (f.buffer.take 4) = r.encode.length := by
            have hpre := hparsed.buffer
            rw [flatMap_cons] at hpre
            have hr := r.length_encode
            have htake : f.buffer.take 4 = r.encode.take 4 := by
              have heq := hpre.take 4
              rw [take_append_of_le_length (by omega)] at heq
              refine heq.eq_of_length ?_
              rw [length_take, length_take]
              omega
            rw [htake, r.recordLength_take]
          obtain ⟨done, todo', f', htodo, hloop, hbuffer, hrest⟩ :=
            ih { f with dataRecordLength := r.encode.length } (r :: rest)
              ⟨hparsed.buffer, .inr ⟨r, rest, rfl, rfl⟩⟩ (by omega) (by
                have hne : (r.encode.length : Int) ≠ -1 := by omega
                show f.buffer.length + (if (r.encode.length : Int) = -1 then 1 else 0) ≤ fuel
                rw [if_neg hne]
                omega)
          refine ⟨done, todo', f', htodo, ?_, hbuffer, hrest⟩
          rw [frameLoop, if_neg hfirst, if_pos ⟨hnone, hfour⟩, hlen, hloop]
      · refine ⟨[], todo, f, rfl, ?_, rfl, hparsed, fun r _ ↦ ?_⟩
        · rw [frameLoop, if_neg hfirst, if_neg fun h ↦ hfour h.2]
          rfl
        · have := r.length_encode
          omega
    · have hpos : f.dataRecordLength ≠ -1 := by omega
      rw [if_neg hpos] at hfuel
      by_cases hle : r.encode.length ≤ f.buffer.length
      · obtain ⟨b, hb, hpre⟩ := prefix_encode hparsed.buffer hle
        have hr := r.length_encode
        have hlen : f.buffer.length = r.encode.length + b.length := by rw [hb, length_append]
        obtain ⟨done, todo', f', htodo, hloop, hbuffer, hrest⟩ :=
          ih ⟨b, -1⟩ rest ⟨hpre, .inl rfl⟩ (by omega) (by
          rw [if_pos rfl]
          show b.length + 1 ≤ fuel
          omega)
        refine ⟨r :: done, todo', f', by rw [htodo]; rfl, ?_, ?_, hrest⟩
        · rw [frameLoop, if_pos ⟨hpos, by omega⟩, if_neg (by omega), hlength, Int.toNat_natCast, hb,
            drop_left, take_left, hloop]
          rfl
        · have hbuffer : b = done.flatMap Record.encode ++ f'.buffer := hbuffer
          rw [hb, hbuffer, flatMap_cons, append_assoc]
      · refine ⟨[], r :: rest, f, rfl, ?_, rfl, hparsed, fun r' hr' ↦ ?_⟩
        · rw [frameLoop, if_neg fun h ↦ hle (by omega), if_neg fun h ↦ hpos h.1]
          rfl
        · obtain rfl := Option.some.inj hr'
          exact Nat.not_le.mp hle

/-- The handler adds the record to the queue. -/
def Record.queued (fields : List GDATFieldType) (r : Record) : Bool :=
  r.recordType fields = some .data || r.recordType fields = some .trace

def Record.ends (fields : List GDATFieldType) (r : Record) : Bool := r.recordType fields = some .eof

theorem recordType_of_encode (r : Record) :
    r.encode[getGDATFieldSize fields + 4]?.bind getGDATRecordType = r.recordType fields := by
  have hlen := length_toBytes 4 r.bytes.length
  rw [Record.recordType, Record.encode, getElem?_append_right (by omega), hlen,
    Nat.add_sub_cancel]

/-- The state when the header and some of the records have come. -/
def after (fields : List GDATFieldType) (done : List Record) (f : FrameDecoder) : State where
  headerDecoder := none
  dataRecord := f
  fieldSize := getGDATFieldSize fields
  recordQueue := (done.filter (Record.queued fields)).map Record.encode
  eofRecordLatch := done.any (Record.ends fields)
  dataRecordsReceived := (done.filter (Record.queued fields)).length

theorem recordReceived_after (done : List Record) (r : Record) :
    recordReceived (after fields done f) r.encode = after fields (done ++ [r]) f := by
  have htype : r.encode[(after fields done f).fieldSize + 4]?.bind getGDATRecordType =
    r.recordType fields :=
    recordType_of_encode r
  unfold recordReceived
  rw [htype]
  cases hr : r.recordType fields with
  | none => simp [after, filter_append, Record.queued, Record.ends, hr]
  | some t => cases t <;> simp [after, filter_append, Record.queued, Record.ends, hr]

theorem foldl_recordReceived (done more : List Record) :
    (more.map Record.encode).foldl recordReceived (after fields done f) =
      after fields (done ++ more) f := by
  induction more generalizing done with
  | nil => rw [append_nil]; rfl
  | cons r more ih =>
    rw [map_cons, foldl_cons, recordReceived_after, ih, append_assoc,
      singleton_append]

theorem frameReceived_after {done : List Record} {message : List UInt8} (hparsed : Parsed f todo)
    (h : f.buffer ++ message <+: todo.flatMap Record.encode) :
    ∃ more todo' f', todo = more ++ todo' ∧
      frameReceived (after fields done f) message = some (after fields (done ++ more) f') ∧
      f.buffer ++ message = more.flatMap Record.encode ++ f'.buffer ∧ Parsed f' todo' ∧
        Waiting f' todo' := by
  obtain ⟨more, todo', f', htodo, hloop, hrest⟩ := frameLoop_spec ((f.buffer ++ message).length + 2)
    { f with buffer := f.buffer ++ message } todo ⟨h, hparsed.length⟩ (Nat.succ_pos _) (by
      show (f.buffer ++ message).length + (if f.dataRecordLength = -1 then 1 else 0) ≤ _
      split <;> omega)
  refine ⟨more, todo', f', htodo, ?_, hrest⟩
  have hloop' : frameLoop (((after fields done f).dataRecord.buffer ++ message).length + 2)
      { (after fields done f).dataRecord with buffer := (after fields done f).dataRecord.buffer ++
        message } =
      some (more.map Record.encode, f') := hloop
  simp only [frameReceived, hloop', Option.map_some]
  exact congrArg some (foldl_recordReceived done more)

end

/-! ## The header -/

section

variable {c : UInt8} {l m p message : List UInt8} {n i : Nat}

/-- There are not that many. -/
theorem findNthChar_of_count_lt (hpos : 0 < n) (h : l.count c < n) : findNthChar c n l i = -1 := by
  induction l generalizing n i with
  | nil => rfl
  | cons b l ih =>
    rw [count_cons] at h
    rw [findNthChar]
    by_cases hb : b = c
    · rw [if_pos (beq_iff_eq.mpr hb)] at h
      rw [if_pos hb, if_neg (by omega)]
      exact ih (by omega) (by omega)
    · rw [if_neg (by simpa using hb)] at h
      rw [if_neg hb]
      exact ih hpos h

/-- The one after the others. -/
theorem findNthChar_append (h : l.count c + 1 = n) : findNthChar c n (l ++ c :: m) i =
    (i + l.length : Nat) := by
  induction l generalizing n i with
  | nil =>
    obtain rfl : 1 = n := by simpa using h
    rw [nil_append, findNthChar, if_pos rfl, if_pos rfl]
    rfl
  | cons b l ih =>
    rw [count_cons] at h
    rw [cons_append, findNthChar, length_cons]
    by_cases hb : b = c
    · rw [if_pos (beq_iff_eq.mpr hb)] at h
      rw [if_pos hb, if_neg (by omega), ih (by omega)]
      congr 1
      omega
    · rw [if_neg (by simpa using hb)] at h
      rw [if_neg hb, ih h]
      congr 1
      omega

/-- A number is on one line. -/
theorem notMem_of_digits (h : digits l = some n) : newline ∉ l := by
  unfold digits at h
  split at h
  · rename_i hall
    intro hmem
    exact absurd (hall.2 _ hmem).1 (by decide)
  · exact absurd h (by simp)

theorem notMem_of_valueOf {z : Int} (h : valueOf l = some z) : newline ∉ l := by
  unfold valueOf at h
  split at h <;> obtain ⟨n, hn, -⟩ := Option.bind_eq_some_iff.mp h
  · exact not_mem_cons_of_ne_of_not_mem (by decide) (notMem_of_digits hn)
  · exact not_mem_cons_of_ne_of_not_mem (by decide) (notMem_of_digits hn)
  · exact notMem_of_digits hn

variable (g : GdatStream schemaOf)

theorem count_newline : g.lines.count newline = 2 := by
  have hversion := count_eq_zero.mpr g.version_line.1
  have hannounced := count_eq_zero.mpr (notMem_of_valueOf g.announced_eq)
  have hlabel : versionLabel.count newline = 1 := by decide
  have hlabel' : schemaLengthLabel.count newline = 1 := by decide
  have hcolon : (colon == newline) = false := by decide
  simp only [GdatStream.lines, count_append, count_cons, hversion, hannounced, hlabel,
    hlabel', hcolon]
  decide

/-- The text between the second colon and the third newline is the length. -/
theorem announce_lines (rest : List UInt8) (h : HeaderDecoder)
    (hbuffer : h.buffer = g.lines ++ newline :: rest) (hlength : h.schemaLength = -1) : announce h =
    { h with schemaLength := g.header.length } := by
  have hnewline : findNthChar newline 3 h.buffer 0 = (g.lines.length : Int) := by
    rw [hbuffer, findNthChar_append (by rw [count_newline]), Nat.zero_add]
  have hsplit : h.buffer = (versionLabel ++ colon :: g.version ++ schemaLengthLabel) ++
      colon :: (g.announced ++ newline :: rest) := by
    rw [hbuffer, GdatStream.lines, append_assoc, cons_append]
  have hcolon : findNthChar colon 2 h.buffer 0 =
      ((versionLabel ++ colon :: g.version ++ schemaLengthLabel).length : Int) := by
    have hversion := count_eq_zero.mpr g.version_line.2
    have hlabel : versionLabel.count colon = 0 := by decide
    have hlabel' : schemaLengthLabel.count colon = 0 := by decide
    rw [hsplit, findNthChar_append, Nat.zero_add]
    simp only [count_append, count_cons_self, hversion, hlabel, hlabel']
  have hlines : g.lines.length =
      (versionLabel ++ colon :: g.version ++ schemaLengthLabel).length + 1 +
        g.announced.length := by
    rw [GdatStream.lines, length_append, length_cons]
    omega
  have hheader : g.header.length = g.lines.length + 1 + g.schema.length := by
    rw [GdatStream.header, length_append, length_cons]
    omega
  have hfits : g.header.length < 2 ^ 31 := by
    have := g.fits
    rwa [GdatStream.header, GdatStream.lines]
  have hlen : (g.lines.length : Int) -
      (versionLabel ++ colon :: g.version ++ schemaLengthLabel).length - 1 = g.announced.length :=
        by omega
  have htext : (h.buffer.drop ((versionLabel ++ colon :: g.version ++ schemaLengthLabel).length +
      1)).take g.announced.length = g.announced := by
    rw [hsplit, ← drop_drop, drop_left, drop_one, tail_cons, take_left]
  have hint : (BitVec.ofInt 32 ((g.lines.length : Int) + 1 + g.schema.length)).toInt =
    g.header.length := by
    have hsum : (g.lines.length : Int) + 1 + g.schema.length = g.header.length := by omega
    rw [hsum, BitVec.toInt_ofInt, Int.bmod_eq_of_le (by omega) (by omega)]
  have hpos : ((versionLabel ++ colon :: g.version ++ schemaLengthLabel).length + 1 : Int).toNat =
      (versionLabel ++ colon :: g.version ++ schemaLengthLabel).length + 1 := by omega
  unfold announce
  simp only [hnewline, hcolon]
  rw [if_pos ⟨hlength, by omega⟩, hlen, if_neg (by omega), hpos, Int.toNat_natCast, htext,
    g.announced_eq]
  simp only [hint]

/-- While the third newline has not come, nothing is known. -/
theorem announce_of_short {h : HeaderDecoder} (hpre' : h.buffer <+: g.lines) : announce h = h := by
  have hcount : h.buffer.count newline < 3 := by
    have := hpre'.sublist.count_le newline
    rw [count_newline] at this
    omega
  unfold announce
  rw [findNthChar_of_count_lt (by decide) hcount]
  exact if_neg fun hand ↦ hand.2 rfl

/-- The length is known when the third newline has come. -/
def knownLength (p : List UInt8) : Int := if g.lines.length < p.length then g.header.length else -1

theorem announce_spec {h : HeaderDecoder} (hbytes : h.buffer <+: g.bytes)
    (hlength : h.schemaLength = -1 ∨ h.schemaLength = knownLength g h.buffer) :
    announce h = ⟨h.buffer, knownLength g h.buffer⟩ := by
  have hlines : g.lines <+: g.bytes := by
    rw [GdatStream.bytes, GdatStream.header, append_assoc]
    exact prefix_append _ _
  have hunchanged (hknown : h.schemaLength ≠ -1) : announce h = h := by
    unfold announce
    exact if_neg fun hand ↦ hknown hand.1
  by_cases hlt : g.lines.length < h.buffer.length
  · have hknown : knownLength g h.buffer = g.header.length := if_pos hlt
    by_cases hnone : h.schemaLength = -1
    · obtain ⟨rest, hrest⟩ := prefix_of_prefix_length_le hlines hbytes hlt.le
      obtain _ | ⟨b, rest⟩ := rest
      · rw [← hrest, append_nil] at hlt
        exact absurd hlt (Nat.lt_irrefl _)
      · -- The next character is the third newline.
        have hb : b = newline := by
          rw [← hrest, GdatStream.bytes, GdatStream.header, append_assoc,
            prefix_append_right_inj, cons_append, cons_prefix_cons] at hbytes
          exact hbytes.1
        subst hb
        rw [announce_lines g rest h hrest.symm hnone, hknown]
    · have heq := hlength.resolve_left hnone
      rw [hunchanged hnone, ← heq]
  · have hknown : knownLength g h.buffer = -1 := if_neg hlt
    have hnone : h.schemaLength = -1 := by
      rcases hlength with hnone | heq
      · exact hnone
      · rw [heq, hknown]
    rw [announce_of_short g (prefix_of_prefix_length_le hbytes hlines (Nat.not_lt.mp hlt)),
      hknown, ← hnone]

/-! ## What was received -/

/-- The state after some bytes of the stream: a part of the header, or the header and some of the
records. -/
inductive Received (g : GdatStream schemaOf) (p : List UInt8) : State → Prop
  | header (hlt : p.length < g.header.length) :
      Received g p { State.init with headerDecoder := some ⟨p, knownLength g p⟩ }
  | records (done todo : List Record) (f : FrameDecoder) (hrecords : g.records = done ++ todo)
      (hbytes : p = g.header ++ done.flatMap Record.encode ++ f.buffer) (hparsed : Parsed f todo)
      (hwaiting : Waiting f todo) : Received g p (after g.fields done f)

/-- What comes after the header goes to the decoder of records. -/
theorem received_records (done : List Record) {todo : List Record} {f : FrameDecoder}
    (hrecords : g.records = done ++ todo) (hparsed : Parsed f todo)
    (hpre' : f.buffer ++ message <+: todo.flatMap Record.encode) :
    ∃ s, frameReceived (after g.fields done f) message = some s ∧
      Received g (g.header ++ done.flatMap Record.encode ++ (f.buffer ++ message)) s := by
  obtain ⟨more, todo', f', htodo, hreceived, hbuffer, hparsed', hwaiting⟩ :=
    frameReceived_after hparsed hpre'
  refine ⟨_, hreceived, .records (done ++ more) todo' f' ?_ ?_ hparsed' hwaiting⟩
  · rw [hrecords, htodo, append_assoc]
  · simp only [hbuffer, flatMap_append, append_assoc]

/-- A chunk of the header, maybe with what comes after it. -/
theorem headerReceived_spec (hbytes : p ++ message <+: g.bytes) :
    ∃ s, headerReceived schemaOf { State.init with headerDecoder := some ⟨p, knownLength g p⟩ }
        ⟨p, knownLength g p⟩ message = some s ∧ Received g (p ++ message) s := by
  have hlength : knownLength g p = -1 ∨ knownLength g p = knownLength g (p ++ message) := by
    unfold knownLength
    by_cases h : g.lines.length < p.length
    · rw [if_pos h, if_pos (by rw [length_append]; omega)]
      exact .inr rfl
    · exact .inl (if_neg h)
  have hannounce : announce ⟨p ++ message, knownLength g p⟩ =
    ⟨p ++ message, knownLength g (p ++ message)⟩ :=
    announce_spec g hbytes hlength
  have hheader : g.lines.length < g.header.length := by
    rw [GdatStream.header, length_append, length_cons]
    omega
  unfold headerReceived
  simp only [hannounce]
  by_cases hle : g.header.length ≤ (p ++ message).length
  · have hknown : knownLength g (p ++ message) = g.header.length := if_pos (by omega)
    obtain ⟨rest, hrest⟩ := prefix_of_prefix_length_le (prefix_append _ _) hbytes hle
    have hfields : schemaOf g.header = some g.fields := g.fields_eq
    rw [hknown, if_pos ⟨by omega, by omega⟩, if_neg (by omega), Int.toNat_natCast, ← hrest,
      take_left, drop_left, hfields]
    have hnew : Parsed ⟨[], -1⟩ g.records := ⟨ nil_prefix, .inl rfl⟩
    by_cases hnil : rest = []
    · refine ⟨_, if_neg fun h ↦ h hnil, .records [] g.records ⟨[], -1⟩ rfl ?_ hnew fun r _ ↦ ?_⟩
      · rw [hnil]
        simp
      · have := r.length_encode
        show 0 < r.encode.length
        omega
    · rw [← hrest, GdatStream.bytes, prefix_append_right_inj] at hbytes
      obtain ⟨s, hs, hreceived⟩ :=
        received_records g [] (f := ⟨[], -1⟩) rfl hnew hbytes
      refine ⟨s, (if_pos hnil).trans hs, ?_⟩
      simpa using hreceived
  · have hneg : ¬ (knownLength g (p ++ message) ≠ -1 ∧ knownLength g (p ++ message) ≤
      (p ++ message).length) := by
      unfold knownLength
      split
      · omega
      · exact fun h ↦ h.1 rfl
    rw [if_neg hneg]
    exact ⟨_, rfl, .header (Nat.not_le.mp hle)⟩

/-- **What a chunk adds to what was received.** -/
theorem received_receive {s : State} (h : Received g p s) (hbytes : p ++ message <+: g.bytes) :
    ∃ s', receive schemaOf s message = some s' ∧ Received g (p ++ message) s' := by
  cases h with
  | header hlt => exact headerReceived_spec g hbytes
  | records done todo f hrecords hp hparsed hwaiting =>
    have hmessage : f.buffer ++ message <+: todo.flatMap Record.encode := by
      rw [hp, GdatStream.bytes, hrecords, flatMap_append, append_assoc, append_assoc,
        prefix_append_right_inj, prefix_append_right_inj] at hbytes
      exact hbytes
    obtain ⟨s, hs, hreceived⟩ := received_records g done hrecords hparsed hmessage
    refine ⟨s, hs, ?_⟩
    rwa [hp, append_assoc]

theorem received_run (chunks : List (List UInt8)) {s : State} (h : Received g p s)
    (hbytes : p ++ chunks.flatten <+: g.bytes) :
    ∃ s', run schemaOf s chunks = some s' ∧ Received g (p ++ chunks.flatten) s' := by
  induction chunks generalizing p s with
  | nil => exact ⟨s, rfl, by rwa [flatten_nil, append_nil]⟩
  | cons chunk chunks ih =>
    rw [flatten_cons, ← append_assoc] at hbytes ⊢
    obtain ⟨s', hreceive, hreceived⟩ := received_receive g h ((prefix_append _ _).trans hbytes)
    obtain ⟨s'', hrun, hreceived'⟩ := ih hreceived hbytes
    refine ⟨s'', ?_, hreceived'⟩
    rw [run, foldlM_cons, hreceive]
    exact hrun

/-- When all has come, all records have been handled. -/
theorem eq_after_of_received {s : State} (h : Received g g.bytes s) : ∃ f,
    s = after g.fields g.records f := by
  cases h with
  | header hlt =>
    rw [GdatStream.bytes, length_append] at hlt
    omega
  | records done todo f hrecords hp hparsed hwaiting =>
    rw [GdatStream.bytes, hrecords, flatMap_append, append_assoc,
      append_cancel_left_eq, append_cancel_left_eq] at hp
    obtain _ | ⟨r, rest⟩ := todo
    · rw [append_nil] at hrecords
      exact ⟨f, by rw [hrecords]⟩
    · have hlt := hwaiting r rfl
      rw [← hp, flatMap_cons, length_append] at hlt
      omega

/-- **The records are handled however the stream is divided.** -/
theorem exists_run (chunks : List (List UInt8)) (h : chunks.flatten = g.bytes) :
    ∃ f, run schemaOf .init chunks = some (after g.fields g.records f) := by
  have hinit : Received g [] .init := by
    have hlt : ([] : List UInt8).length < g.header.length := by
      rw [GdatStream.header, length_append, length_cons, length_nil]
      omega
    have hknown : knownLength g [] = -1 := if_neg (Nat.not_lt_zero _)
    have hheader := Received.header (g := g) hlt
    rw [hknown] at hheader
    exact hheader
  obtain ⟨s, hrun, hreceived⟩ := received_run g chunks hinit (by rw [nil_append, h])
  rw [nil_append, h] at hreceived
  obtain ⟨f, rfl⟩ := eq_after_of_received g hreceived
  exact ⟨f, hrun⟩

/-! ## Which records are in the queue -/

theorem queue_iff {fields : List GDATFieldType} {records : List Record} :
    (records.filter (Record.queued fields)).map Record.encode =
      (records.filter fun r ↦ r.recordType fields = some .data).map Record.encode ↔
        ∀ r ∈ records, r.recordType fields ≠ some .trace := by
  constructor
  · intro h r hr htrace
    have hlen := congrArg length h
    rw [length_map, length_map] at hlen
    have hdata : (records.filter fun r ↦ r.recordType fields = some .data) =
        (records.filter (Record.queued fields)).filter fun r ↦ r.recordType fields =
          some .data := by
      rw [filter_filter]
      refine filter_congr fun r _ ↦ ?_
      unfold Record.queued
      cases decide (r.recordType fields = some .data) <;> rfl
    rw [hdata] at hlen
    have hall := length_filter_eq_length_iff.mp hlen.symm r
      (mem_filter.mpr ⟨hr, by rw [Record.queued, htrace]; rfl⟩)
    rw [htrace] at hall
    exact absurd hall (by decide)
  · intro h
    refine congrArg _ (filter_congr fun r hr ↦ ?_)
    rw [Record.queued, decide_eq_false (h r hr), Bool.or_false]

/-- **The data records come through if and only if there are no trace records.** -/
theorem framed_iff (g : GdatStream schemaOf) : Framed g ↔ NoTrace g := by
  constructor
  · intro h
    obtain ⟨f, hrun⟩ := exists_run g [g.bytes] (flatten_singleton ..)
    obtain ⟨s, hs, hexact⟩ := h [g.bytes] (flatten_singleton ..)
    obtain rfl := Option.some.inj (hrun.symm.trans hs)
    exact queue_iff.mp hexact.queue
  · intro h chunks hchunks
    obtain ⟨f, hrun⟩ := exists_run g chunks hchunks
    refine ⟨_, hrun, queue_iff.mpr h, ?_⟩
    show g.records.any (Record.ends g.fields) = true ↔ _
    rw [any_eq_true]
    exact exists_congr fun r ↦ and_congr_right fun _ ↦ decide_eq_true_iff

end

/-! ## A trace record -/

def trace : Record := ⟨[0, 0, 0, 7, 1], by decide⟩

/-- A stream with one field, an integer, and one record, which is a trace. -/
def traceStream : GdatStream fun _ ↦ some [.int] where
  version := [52]
  version_line := by decide
  announced := [49]
  schema := [0]
  announced_eq := by decide +kernel
  fields := [.int]
  fields_eq := rfl
  fits := by decide +kernel
  records := [trace]

/-- **The trace is in the queue**, with the data records. -/
theorem exists_trace_queued :
    (run (fun _ ↦ some [.int]) .init [traceStream.bytes]).map State.recordQueue =
      some [trace.encode] ∧ trace.recordType traceStream.fields = some .trace ∧
        ¬ Framed traceStream := by
  have hqueue : (run (fun _ ↦ some [.int]) .init [traceStream.bytes]).map State.recordQueue =
      some [trace.encode] := by decide +kernel
  refine ⟨hqueue, by decide, fun h ↦ ?_⟩
  obtain ⟨s, hs, hexact⟩ := h [traceStream.bytes] (flatten_singleton ..)
  rw [hs, Option.map_some, hexact.queue] at hqueue
  exact absurd hqueue (by decide +kernel)

end Tigon.OutputServerSocket
