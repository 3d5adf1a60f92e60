import Tigon.Io.BinaryCodec
import Tigon.Lib.Utf16

/-!
# The hash keys of a queue entry

`QueueEntry` writes the hash keys of an entry as a map: the number of keys, the keys with their
values, and a zero.  No keys are a zero alone.  The reader knows this form by its length and value,
and reads anything else in blocks, up to one of length zero.

A string is written in UTF-8, where a surrogate that is not part of a pair becomes a question mark.

* `readBlocks_spec` — the entries are read as they were written, as characters.
* `deserialize_serialize_iff` — **the map is read as it was written if and only if its keys have all
  surrogates in pairs.**
* `serializeHashKeys_eq_empty_iff` — no other map is written as the empty one.
-/

set_option autoImplicit false

namespace Tigon.QueueEntry

open Decoder Io
open Utf16 (encoded decoded)

/-! ## Maps -/

/-- A string has units of sixteen bits. -/
abbrev JavaString := List UInt16

/-- The entries of a map, in the order of its iteration. -/
abbrev Entries := List (JavaString × BitVec 32)

/-- `Map.put` -/
def put (hashKeys : Entries) (entry : JavaString × BitVec 32) : Entries :=
  hashKeys.filter (fun e ↦ e.1 ≠ entry.1) ++ [entry]

/-! ## Writing -/

def writeEntry (entry : JavaString × BitVec 32) : List UInt8 :=
  writeString (encoded entry.1) ++ writeInt entry.2

/-- `SERIALIZED_EMPTY_HASH_KEYS` -/
def serializedEmptyHashKeys : List UInt8 := writeInt 0

/-- `serializeHashKeys` -/
def serializeHashKeys (hashKeys : Option Entries) : List UInt8 :=
  match hashKeys with
  | none => serializedEmptyHashKeys
  | some hashKeys =>
    if hashKeys = [] then serializedEmptyHashKeys
    else writeInt (BitVec.ofNat 32 hashKeys.length) ++ (hashKeys.flatMap writeEntry ++ writeInt 0)

/-! ## Reading -/

def readEntry : ByteDecoder (JavaString × BitVec 32) := do
  let key ← readString
  let value ← readInt
  return (decoded key, value)

/-- The inner loop. -/
def readEntries : Nat → Entries → ByteDecoder Entries
  | 0, hashKeys => return hashKeys
  | size + 1, hashKeys => do
    let entry ← readEntry
    readEntries size (put hashKeys entry)

/-- The outer loop, over the blocks. -/
def readBlocks : Nat → BitVec 32 → Entries → ByteDecoder Entries
  | 0, _, _ => throw .outOfFuel
  | fuel + 1, size, hashKeys =>
    if 0 < size.toInt then do
      let hashKeys ← readEntries size.toNat hashKeys
      let size ← readInt
      readBlocks fuel size hashKeys
    else return hashKeys

/-- The reading of `deserializeHashKeys`.  A map of a negative expected size is refused. -/
def readHashKeys (fuel : Nat) : ByteDecoder Entries := do
  let size ← readInt
  if size.toInt < 0 then throw .illegalArgument else readBlocks fuel size []

/-- `deserializeHashKeys`.  There are not more blocks than bytes. -/
def deserializeHashKeys (bytes : Option (List UInt8)) (off len : Nat) : Except Exc Entries :=
  match bytes with
  | none => .ok []
  | some bytes =>
    if len = 1 ∧ bytes.length ≤ off then .error .indexOutOfBounds
    else if len = 1 ∧ bytes[off]? = some 0 then .ok []
    else
      match readHashKeys (len + 1) ((bytes.drop off).take len) with
      | .ok hashKeys _ => .ok hashKeys
      | .error e _ => .error e

/-! ## What is to hold -/

/-- A map that fits an array when it is written. -/
structure HashKeys where
  entries : Entries
  nodup : (entries.map Prod.fst).Nodup
  fits : (serializeHashKeys (some entries)).length < 2 ^ 31

/-- The map is read from its place in an array. -/
def RoundTrip (m : HashKeys) (before rest : List UInt8) : Prop :=
  ∃ hashKeys, deserializeHashKeys (some (before ++ (serializeHashKeys (some m.entries) ++ rest)))
      before.length (serializeHashKeys (some m.entries)).length = .ok hashKeys ∧
    hashKeys.Perm m.entries

section

variable {entries hashKeys : Entries} {e : JavaString × BitVec 32}

/-! ## Entries -/

/-- What becomes of an entry. -/
def readBack (e : JavaString × BitVec 32) : JavaString × BitVec 32 := (decoded (encoded e.1), e.2)

theorem readBack_eq_iff : readBack e = e ↔ Utf16.WellFormed e.1 := by
  rw [← Utf16.decoded_encoded_eq_iff, readBack]
  exact ⟨fun h ↦ congrArg Prod.fst h, fun h ↦ Prod.ext h rfl⟩

theorem wellFormed_readBack (e : JavaString × BitVec 32) : Utf16.WellFormed (readBack e).1 :=
  Utf16.wellFormed_flatMap_units _

theorem reads_readEntry (h : (utf8 (encoded e.1)).length < 2 ^ 31) :
    Reads readEntry (writeEntry e) (readBack e) :=
  (reads_readString h).bind ((reads_readInt e.2).map _)

/-- A new key goes to the end. -/
theorem foldl_put (hnodup : ((hashKeys ++ entries).map Prod.fst).Nodup) :
    entries.foldl put hashKeys = hashKeys ++ entries := by
  induction entries generalizing hashKeys with
  | nil => exact (List.append_nil _).symm
  | cons e entries ih =>
    have hput : put hashKeys e = hashKeys ++ [e] := by
      rw [put]
      refine congrArg (· ++ [e]) (List.filter_eq_self.mpr fun e' he' ↦ decide_eq_true fun heq ↦ ?_)
      rw [List.map_append, List.nodup_append] at hnodup
      exact hnodup.2.2 _ (List.mem_map_of_mem he') _ (List.mem_map_of_mem List.mem_cons_self) heq
    rw [List.foldl_cons, hput, ih (by rwa [List.append_assoc, List.singleton_append]),
      List.append_assoc, List.singleton_append]

theorem mem_foldl_put (h : e ∈ entries.foldl put hashKeys) : e ∈ hashKeys ∨ e ∈ entries := by
  induction entries generalizing hashKeys with
  | nil => exact .inl h
  | cons e' entries ih =>
    rcases ih h with hput | hmem
    · rcases List.mem_append.mp hput with hold | hnew
      · exact .inl (List.mem_filter.mp hold).1
      · exact .inr (List.mem_cons.mpr (.inl (List.mem_singleton.mp hnew)))
    · exact .inr (List.mem_cons_of_mem _ hmem)

/-! ## Blocks -/

theorem reads_readEntries (h : ∀ e ∈ entries, (utf8 (encoded e.1)).length < 2 ^ 31)
    (hashKeys : Entries) : Reads (readEntries entries.length hashKeys) (entries.flatMap writeEntry)
      ((entries.map readBack).foldl put hashKeys) := by
  induction entries generalizing hashKeys with
  | nil => exact reads_pure hashKeys
  | cons e entries ih =>
    rw [List.flatMap_cons, List.map_cons, List.foldl_cons]
    exact (reads_readEntry (h e List.mem_cons_self)).bind
      (ih (fun e' he' ↦ h e' (List.mem_cons_of_mem _ he')) _)

/-- **The entries are read as they were written**, as characters. -/
theorem readBlocks_spec (hne : entries ≠ []) (hlength : entries.length < 2 ^ 31)
    (h : ∀ e ∈ entries, (utf8 (encoded e.1)).length < 2 ^ 31) (fuel : Nat) :
    Reads (readHashKeys (fuel + 2))
      (writeInt (BitVec.ofNat 32 entries.length) ++ (entries.flatMap writeEntry ++ writeInt 0))
      ((entries.map readBack).foldl put []) := by
  have hpos := List.length_pos_of_ne_nil hne
  have hint : (BitVec.ofNat 32 entries.length).toInt = entries.length := toInt_ofNat le_rfl hlength
  have hnat : (BitVec.ofNat 32 entries.length).toNat = entries.length := toNat_ofNat le_rfl hlength
  refine (reads_readInt _).bind ?_
  rw [if_neg (by omega), readBlocks, if_pos (by omega), hnat]
  refine (reads_readEntries h []).bind ?_
  have hlast : Reads (readBlocks (fuel + 1) 0 ((entries.map readBack).foldl put [])) [] _ :=
    reads_pure _
  exact (reads_readInt 0).bind_nil hlast

/-! ## Lengths -/

theorem length_writeInt_pos (i : BitVec 32) : 0 < (writeInt i).length := by
  rw [writeInt, writeVar]
  split
  · exact Nat.succ_pos _
  · exact Nat.one_pos

theorem length_writeEntry (e : JavaString × BitVec 32) : (utf8 (encoded e.1)).length + 1 ≤
    (writeEntry e).length := by
  have := length_writeInt_pos e.2
  rw [writeEntry, writeString, writeBytes, List.length_append, List.length_append]
  omega

theorem length_flatMap_writeEntry (entries : Entries) :
    entries.length ≤ (entries.flatMap writeEntry).length ∧
      ∀ e ∈ entries, (writeEntry e).length ≤ (entries.flatMap writeEntry).length := by
  induction entries with
  | nil => exact ⟨le_rfl, fun _ h ↦ absurd h List.not_mem_nil⟩
  | cons e entries ih =>
    have hentry := length_writeEntry e
    rw [List.flatMap_cons, List.length_append, List.length_cons]
    refine ⟨by omega, fun e' he' ↦ ?_⟩
    rcases List.mem_cons.mp he' with rfl | hmem
    · exact Nat.le_add_right _ _
    · exact (ih.2 e' hmem).trans (Nat.le_add_left _ _)

theorem serializeHashKeys_of_ne_nil (hne : entries ≠ []) : serializeHashKeys (some entries) =
    writeInt (BitVec.ofNat 32 entries.length) ++ (entries.flatMap writeEntry ++ writeInt 0) :=
  if_neg hne

theorem two_le_length_serializeHashKeys (hne : entries ≠ []) :
    2 ≤ (serializeHashKeys (some entries)).length := by
  have hfirst := length_writeInt_pos (BitVec.ofNat 32 entries.length)
  have hlast := length_writeInt_pos 0
  rw [serializeHashKeys_of_ne_nil hne, List.length_append, List.length_append]
  omega

/-- **No other map is written as the empty one.** -/
theorem serializeHashKeys_eq_empty_iff : serializeHashKeys (some entries) =
    serializedEmptyHashKeys ↔ entries = [] := by
  refine ⟨fun h ↦ ?_, fun h ↦ if_pos h⟩
  by_contra hne
  have hlen := two_le_length_serializeHashKeys hne
  rw [h] at hlen
  exact absurd hlen (by decide +kernel)

/-! ## The round trip -/

theorem serializedEmptyHashKeys_eq : serializedEmptyHashKeys = [0] := by decide +kernel

/-- What is read from the place of the map. -/
theorem deserialize_serialize (m : HashKeys) (before rest : List UInt8) :
    deserializeHashKeys (some (before ++ (serializeHashKeys (some m.entries) ++ rest)))
      before.length (serializeHashKeys (some m.entries)).length =
        .ok ((m.entries.map readBack).foldl put []) := by
  by_cases hnil : m.entries = []
  · have hempty : serializeHashKeys (some m.entries) = [0] :=
      (if_pos hnil).trans serializedEmptyHashKeys_eq
    rw [hempty, hnil, deserializeHashKeys, if_neg (by simp), if_pos (by simp)]
    rfl
  · have hlen := two_le_length_serializeHashKeys hnil
    have hfits := m.fits
    obtain ⟨hcount, hentry⟩ := length_flatMap_writeEntry m.entries
    have hle : (m.entries.flatMap writeEntry).length ≤
      (serializeHashKeys (some m.entries)).length := by
      rw [serializeHashKeys_of_ne_nil hnil, List.length_append, List.length_append]
      omega
    have hkeys : ∀ e ∈ m.entries, (utf8 (encoded e.1)).length < 2 ^ 31 := by
      intro e he
      have := hentry e he
      have := length_writeEntry e
      omega
    obtain ⟨fuel, hfuel⟩ : ∃ fuel, (serializeHashKeys (some m.entries)).length + 1 = fuel + 2 :=
      ⟨(serializeHashKeys (some m.entries)).length - 1, by omega⟩
    have hreads := readBlocks_spec hnil (by omega) hkeys fuel []
    rw [← serializeHashKeys_of_ne_nil hnil, List.append_nil] at hreads
    rw [deserializeHashKeys, if_neg (by omega), if_neg (by omega), List.drop_left, List.take_left,
      hfuel, hreads]

/-- **The map is read as it was written if and only if its keys have all surrogates in pairs**, and
no other map is written as the empty one. -/
theorem deserialize_serialize_iff (m : HashKeys) (before rest : List UInt8) :
    (RoundTrip m before rest ↔ ∀ e ∈ m.entries, Utf16.WellFormed e.1) ∧
      (serializeHashKeys (some m.entries) = serializedEmptyHashKeys ↔ m.entries = []) := by
  refine ⟨⟨fun ⟨hashKeys, hread, hperm⟩ e he ↦ ?_,
    fun h ↦ ⟨_, deserialize_serialize m before rest, ?_⟩⟩, serializeHashKeys_eq_empty_iff⟩
  · obtain rfl := Except.ok.inj ((deserialize_serialize m before rest).symm.trans hread)
    rcases mem_foldl_put (hperm.mem_iff.mpr he) with hnil | hmem
    · exact absurd hnil List.not_mem_nil
    · obtain ⟨e', -, rfl⟩ := List.mem_map.mp hmem
      exact wellFormed_readBack e'
  · have hmap : m.entries.map readBack = m.entries :=
      (List.map_congr_left fun e he ↦ readBack_eq_iff.mpr (h e he)).trans (List.map_id _)
    rw [hmap, foldl_put (by simpa using m.nodup)]
    exact .refl _

end

/-! ## A key that is not read -/

/-- A high surrogate alone. -/
def lone : HashKeys := ⟨[([0xD800], 7)], by decide, by decide +kernel⟩

/-- **The key is read as a question mark.** -/
theorem exists_key_lost :
    deserializeHashKeys (some (serializeHashKeys (some lone.entries))) 0
      (serializeHashKeys (some lone.entries)).length = .ok [([63], 7)] ∧
        ¬ RoundTrip lone [] [] := by
  have hread : deserializeHashKeys (some (serializeHashKeys (some lone.entries))) 0
      (serializeHashKeys (some lone.entries)).length = .ok [([63], 7)] := by decide +kernel
  refine ⟨hread, fun ⟨hashKeys, hok, hperm⟩ ↦ ?_⟩
  rw [List.append_nil, List.nil_append, List.length_nil, hread] at hok
  obtain rfl := Except.ok.inj hok
  exact absurd (List.singleton_perm_singleton.mp hperm) (by decide)

end Tigon.QueueEntry
