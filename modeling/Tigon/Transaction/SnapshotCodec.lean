import Tigon.Io.BinaryCodec
import Tigon.Lib.Bytes

/-!
# Snapshots of the transaction state

The transaction manager writes its state to a file from time to time, and reads it back after a
crash.  A collection is written as blocks, each with the number of its elements in front, and a
block of no elements ends it; the encoder makes at most one block.  `AbstractSnapshotCodec` leaves
open how the transactions in progress are written, and whether there is an attribute of old in front
of the collections.

* `reads_decode` — **what a codec writes, it reads**, if it does so with the parts left open;
* `decode_encode` — **a snapshot survives in the second format, and in the first one up to the
visibility bounds**. -/

set_option autoImplicit false

namespace Tigon.Transaction

open Decoder

abbrev Long := BitVec 64

/-- The order of `Long`. -/
def Long.compareTo (a b : Long) : Ordering := compareOn BitVec.toInt a b

instance instTransCmp : Std.TransCmp Long.compareTo :=
  inferInstanceAs (Std.TransCmp (compareOn BitVec.toInt))

instance instLawfulEqCmp : Std.LawfulEqCmp Long.compareTo where
  eq_of_compare h := BitVec.eq_of_toInt_eq (Std.LawfulEqCmp.eq_of_compare h)

/-- `NavigableMap<Long, V>`. -/
abbrev LongMap (V : Type) := Std.ExtTreeMap Long V Long.compareTo

structure ChangeId where
  key : List UInt8
deriving DecidableEq

structure InProgressTx where
  visibilityUpperBound : Long
  expiration : Long
deriving DecidableEq

structure TransactionSnapshot where
  timestamp : Long
  readPointer : Long
  writePointer : Long
  invalid : List Long
  inProgress : LongMap InProgressTx
  committingChangeSets : LongMap (Finset ChangeId)
  committedChangeSets : LongMap (Finset ChangeId)

/-- The order in which a collection hands out what is in it. -/
structure Iteration where
  elements : Finset ChangeId → List ChangeId
  entries : {V : Type} → LongMap V → List (Long × V)
  nodup_elements : ∀ changes, (elements changes).Nodup
  toFinset_elements : ∀ changes, (elements changes).toFinset = changes
  perm_entries : ∀ {V : Type} (map : LongMap V), (entries map).Perm map.toList

inductive Exc
  | io
  | illegalArgument
  | outOfFuel
deriving DecidableEq

/-- `BinaryEncoder` and `BinaryDecoder`. -/
structure Primitives where
  writeInt : BitVec 32 → List UInt8
  writeLong : Long → List UInt8
  writeBytes : List UInt8 → List UInt8
  readInt : Decoder Exc UInt8 (BitVec 32)
  readLong : Decoder Exc UInt8 Long
  readBytes : Decoder Exc UInt8 (List UInt8)

/-- What is written is read.  An array has less than `2 ^ 31` bytes. -/
structure Primitives.RoundTrip (P : Primitives) : Prop where
  int : ∀ i, Reads P.readInt (P.writeInt i) i
  long : ∀ l, Reads P.readLong (P.writeLong l) l
  bytes : ∀ bytes : List UInt8, bytes.length < 2 ^ 31 → Reads P.readBytes (P.writeBytes bytes) bytes

variable (P : Primitives) (I : Iteration)

/-! ## Collections -/

/-- A collection: one block, if there is something in it, and the zero that denotes the end. -/
def encodeBlocks {α : Type} (encodeElement : α → List UInt8) (elements : List α) : List UInt8 :=
  (if elements.isEmpty then []
    else P.writeInt (BitVec.ofNat 32 elements.length) ++ elements.flatMap encodeElement) ++
      P.writeInt 0

/-- `for (int remaining = size; remaining > 0; --remaining)` -/
def decodeBlock {γ : Type} (addElement : γ → Decoder Exc UInt8 γ) : Nat → γ → Decoder Exc UInt8 γ
  | 0, collection => pure collection
  | remaining + 1, collection => do decodeBlock addElement remaining (← addElement collection)

/-- `while (size != 0)` -/
def decodeBlocks {γ : Type} (addElement : γ → Decoder Exc UInt8 γ) : Nat → BitVec 32 → γ →
    Decoder Exc UInt8 γ
  | 0, _, _ => throw .outOfFuel
  | fuel + 1, size, collection =>
    if size ≠ 0 then do
      let collection ← decodeBlock addElement size.toInt.toNat collection
      let size ← P.readInt
      decodeBlocks addElement fuel size collection
    else return collection

def encodeInvalid (invalid : List Long) : List UInt8 := encodeBlocks P P.writeLong invalid

/-- A list cannot be made with room for less than no elements. -/
def decodeInvalid (fuel : Nat) : Decoder Exc UInt8 (List Long) := do
  let size ← P.readInt
  if size.toInt < 0 then throw .illegalArgument
  decodeBlocks P (fun invalid ↦ do return invalid ++ [← P.readLong]) fuel size []

def encodeChanges (changes : Finset ChangeId) : List UInt8 :=
  encodeBlocks P (fun change ↦ P.writeBytes change.key) (I.elements changes)

def decodeChanges (fuel : Nat) : Decoder Exc UInt8 (Finset ChangeId) := do
  let size ← P.readInt
  if size.toInt < 0 then throw .illegalArgument
  decodeBlocks P (fun changes ↦ do return insert (ChangeId.mk (← P.readBytes)) changes) fuel size ∅

def encodeChangeSets (changes : LongMap (Finset ChangeId)) : List UInt8 :=
  encodeBlocks P (fun entry ↦ P.writeLong entry.1 ++ encodeChanges P I entry.2) (I.entries changes)

/-- The value for a map's key is decoded by `decodeValue`. -/
def decodeEntry {V : Type} (decodeValue : Decoder Exc UInt8 V) (map : LongMap V) :
    Decoder Exc UInt8 (LongMap V) := do
  let key ← P.readLong
  let value ← decodeValue
  return map.insert key value

def decodeChangeSets (fuel : Nat) : Decoder Exc UInt8 (LongMap (Finset ChangeId)) := do
  let size ← P.readInt
  decodeBlocks P (decodeEntry P (decodeChanges P fuel)) fuel size ∅

/-! ## Codecs -/

/-- What a version of the codec defines. -/
structure AbstractSnapshotCodec where
  getVersion : Nat
  encodeObsoleteAttributes : List UInt8
  decodeObsoleteAttributes : Decoder Exc UInt8 Unit
  encodeInProgress : LongMap InProgressTx → List UInt8
  decodeInProgress : Nat → Decoder Exc UInt8 (LongMap InProgressTx)

def encode (codec : AbstractSnapshotCodec) (snapshot : TransactionSnapshot) : List UInt8 :=
  P.writeLong snapshot.timestamp ++ P.writeLong snapshot.readPointer ++
    P.writeLong snapshot.writePointer ++ codec.encodeObsoleteAttributes ++
      encodeInvalid P snapshot.invalid ++ codec.encodeInProgress snapshot.inProgress ++
    encodeChangeSets P I snapshot.committingChangeSets ++ encodeChangeSets P I
      snapshot.committedChangeSets

def decode (codec : AbstractSnapshotCodec) (fuel : Nat) :
    Decoder Exc UInt8 TransactionSnapshot := do
  let timestamp ← P.readLong
  let readPointer ← P.readLong
  let writePointer ← P.readLong
  codec.decodeObsoleteAttributes
  let invalid ← decodeInvalid P fuel
  let inProgress ← codec.decodeInProgress fuel
  let committing ← decodeChangeSets P fuel
  let committed ← decodeChangeSets P fuel
  return ⟨timestamp, readPointer, writePointer, invalid, inProgress, committing, committed⟩

def snapshotCodecV1 : AbstractSnapshotCodec where
  getVersion := 1
  encodeObsoleteAttributes := P.writeLong 55
  decodeObsoleteAttributes := do
    let _ ← P.readLong
  encodeInProgress inProgress :=
    encodeBlocks P (fun entry ↦ P.writeLong entry.1 ++ P.writeLong entry.2.expiration)
      (I.entries inProgress)
  decodeInProgress fuel := do
    let size ← P.readInt
    decodeBlocks P (decodeEntry P do return ⟨0, ← P.readLong⟩) fuel size ∅

def snapshotCodecV2 : AbstractSnapshotCodec where
  getVersion := 2
  encodeObsoleteAttributes := []
  decodeObsoleteAttributes := pure ()
  encodeInProgress inProgress :=
    encodeBlocks P (fun entry ↦ P.writeLong entry.1 ++ P.writeLong entry.2.expiration ++
      P.writeLong entry.2.visibilityUpperBound) (I.entries inProgress)
  decodeInProgress fuel := do
    let size ← P.readInt
    decodeBlocks P (decodeEntry P do
      let expiration ← P.readLong
      let visibilityUpperBound ← P.readLong
      return ⟨visibilityUpperBound, expiration⟩) fuel size ∅

/-! ## What fits into memory -/

/-- A set counts what is in it with an `int`, as does an array its bytes. -/
def ChangesFit (changes : Finset ChangeId) : Prop :=
  changes.card < 2 ^ 31 ∧ ∀ change ∈ changes, change.key.length < 2 ^ 31

def ChangeSetsFit (changeSets : LongMap (Finset ChangeId)) : Prop :=
  changeSets.size < 2 ^ 31 ∧ ∀ (key : Long) (changes : Finset ChangeId), changeSets[key]? =
    some changes → ChangesFit changes

/-- The lists, maps and sets of a snapshot are no longer than an `int` can say. -/
structure TransactionSnapshot.Fits (snapshot : TransactionSnapshot) : Prop where
  invalid : snapshot.invalid.length < 2 ^ 31
  inProgress : snapshot.inProgress.size < 2 ^ 31
  committing : ChangeSetsFit snapshot.committingChangeSets
  committed : ChangeSetsFit snapshot.committedChangeSets

/-- The transactions in progress, without the bounds. -/
def resetBounds (inProgress : LongMap InProgressTx) : LongMap InProgressTx :=
  inProgress.map fun _ tx ↦ { tx with visibilityUpperBound := 0 }

/-! ## What is written is read -/

variable {P} {α γ V : Type} {addElement : γ → Decoder Exc UInt8 γ} {encodeElement : α → List UInt8}
  {add : γ → α → γ} {elements : List α}

theorem reads_decodeBlock (helement : ∀ c, ∀ a ∈ elements, Reads (addElement c) (encodeElement a)
    (add c a)) (c : γ) : Reads (decodeBlock addElement elements.length c)
      (elements.flatMap encodeElement) (elements.foldl add c) := by
  induction elements generalizing c with
  | nil => exact reads_pure c
  | cons a elements ih =>
    rw [List.flatMap_cons, List.foldl_cons]
    refine (helement c a List.mem_cons_self).bind ?_
    exact ih (fun c a ha ↦ helement c a (List.mem_cons_of_mem _ ha)) _

variable {fuel : Nat}

/-- **A collection is read**, where its size may be looked at before. -/
theorem reads_decodeBlocks (hP : P.RoundTrip) {f : BitVec 32 → Decoder Exc UInt8 γ} {c : γ}
    (hfuel : 2 ≤ fuel) (hf : ∀ size, 0 ≤ size.toInt → f size = decodeBlocks P addElement fuel size
      c) (hsize : elements.length < 2 ^ 31)
    (helement : ∀ c, ∀ a ∈ elements, Reads (addElement c) (encodeElement a) (add c a)) :
    Reads (P.readInt >>= f) (encodeBlocks P encodeElement elements) (elements.foldl add c) := by
  obtain ⟨fuel, rfl⟩ := Nat.exists_eq_add_of_le' hfuel
  have hlast : ∀ c, Reads (decodeBlocks P addElement (fuel + 1) 0 c) [] c := fun c ↦ reads_pure c
  by_cases hnil : elements = []
  · subst hnil
    rw [encodeBlocks, if_pos List.isEmpty_nil, List.nil_append]
    refine (hP.int 0).bind_nil ?_
    rw [hf 0 (by decide)]
    exact reads_pure c
  · have htoInt : (BitVec.ofNat 32 elements.length).toInt = elements.length :=
      Io.toInt_ofNat (by decide) hsize
    have hpos := List.length_pos_iff.mpr hnil
    rw [encodeBlocks, if_neg (by simpa using hnil), List.append_assoc]
    refine (hP.int _).bind ?_
    rw [hf _ (by omega), decodeBlocks, if_pos, htoInt, Int.toNat_natCast]
    · refine (reads_decodeBlock helement c).bind ?_
      exact (hP.int 0).bind_nil (hlast _)
    · intro h
      rw [h] at htoInt
      simp at htoInt
      omega

theorem foldl_concat {l : List α} (acc : List α) : l.foldl (fun acc a ↦ acc ++ [a]) acc =
    acc ++ l := by
  induction l generalizing acc with
  | nil => simp
  | cons a l ih => simp [ih]

theorem reads_decodeInvalid (hP : P.RoundTrip) (hfuel : 2 ≤ fuel) {invalid : List Long}
    (hsize : invalid.length < 2 ^ 31) : Reads (decodeInvalid P fuel) (encodeInvalid P invalid)
      invalid := by
  have h := reads_decodeBlocks (f := fun size ↦ do
    if size.toInt < 0 then throw .illegalArgument
    decodeBlocks P (fun invalid ↦ do return invalid ++ [← P.readLong]) fuel size [])
      hP hfuel (c := [])
    (fun size hsize ↦ by rw [if_neg (not_lt.mpr hsize)]) hsize
    (fun c l _ ↦ (hP.long l).map fun l ↦ c ++ [l])
  rwa [foldl_concat, List.nil_append] at h

theorem foldl_insert {l : List ChangeId} (acc : Finset ChangeId) :
    l.foldl (fun acc change ↦ insert change acc) acc = l.toFinset ∪ acc := by
  induction l generalizing acc with
  | nil => simp
  | cons a l ih =>
    rw [List.foldl_cons, ih, List.toFinset_cons, Finset.insert_union, Finset.union_insert]

theorem reads_decodeChanges (hP : P.RoundTrip) (hfuel : 2 ≤ fuel) {changes : Finset ChangeId}
    (hfit : ChangesFit changes) : Reads (decodeChanges P fuel) (encodeChanges P I changes)
      changes := by
  have hmem : ∀ change ∈ I.elements changes, change ∈ changes := fun change h ↦ by
    rwa [← I.toFinset_elements changes, List.mem_toFinset]
  have hlength : (I.elements changes).length = changes.card := by
    rw [← List.toFinset_card_of_nodup (I.nodup_elements changes), I.toFinset_elements]
  have h := reads_decodeBlocks (f := fun size ↦ do
    if size.toInt < 0 then throw .illegalArgument
    decodeBlocks P (fun changes ↦ do return insert (ChangeId.mk (← P.readBytes)) changes) fuel size
      (∅ : Finset ChangeId)) hP hfuel (c := ∅)
    (fun size hsize ↦ by rw [if_neg (not_lt.mpr hsize)])
    (hlength ▸ hfit.1)
    (fun c change hchange ↦ (hP.bytes change.key (hfit.2 change (hmem change hchange))).map
      fun key ↦ insert (ChangeId.mk key) c)
  rwa [foldl_insert, I.toFinset_elements, Finset.union_empty] at h

/-! ## Maps -/

variable {W : Type} {g : V → W} {l : List (Long × V)} {map : LongMap V}

theorem getElem?_foldl_insert_of_forall_notMem {k : Long} (hk : ∀ v, (k, v) ∉ l) (acc : LongMap W) :
    (l.foldl (fun acc entry ↦ acc.insert entry.1 (g entry.2)) acc)[k]? = acc[k]? := by
  induction l generalizing acc with
  | nil => rfl
  | cons entry l ih =>
    have hne : entry.1 ≠ k := fun h ↦ hk entry.2 (h ▸ List.mem_cons_self)
    rw [List.foldl_cons, ih fun v hv ↦ hk v (List.mem_cons_of_mem _ hv),
      Std.ExtTreeMap.getElem?_insert, if_neg]
    rwa [Std.LawfulEqCmp.compare_eq_iff_eq]

theorem getElem?_foldl_insert_of_mem (hkeys : (l.map Prod.fst).Nodup) {k : Long} {v : V}
    (hk : (k, v) ∈ l) (acc : LongMap W) :
    (l.foldl (fun acc entry ↦ acc.insert entry.1 (g entry.2)) acc)[k]? = some (g v) := by
  induction l generalizing acc with
  | nil => cases hk
  | cons entry l ih =>
    rw [List.map_cons, List.nodup_cons] at hkeys
    rw [List.foldl_cons]
    rcases List.mem_cons.mp hk with rfl | hk
    · rw [getElem?_foldl_insert_of_forall_notMem fun w hw ↦ hkeys.1 (List.mem_map.mpr ⟨_, hw, rfl⟩),
        Std.ExtTreeMap.getElem?_insert_self]
    · exact ih hkeys.2 hk _

/-- A map is made up of its entries, in whichever order they come. -/
theorem foldl_insert_eq_map (hl : l.Perm map.toList) :
    l.foldl (fun (acc : LongMap W) entry ↦ acc.insert entry.1 (g entry.2)) ∅ =
      map.map fun _ v ↦ g v := by
  have hkeys : (l.map Prod.fst).Nodup := by
    rw [(hl.map Prod.fst).nodup_iff, List.Nodup, List.pairwise_map]
    refine Std.ExtTreeMap.distinct_keys_toList.imp fun h heq ↦ h ?_
    rw [heq, Std.LawfulEqCmp.compare_eq_iff_eq]
  have hmem : ∀ k v, (k, v) ∈ l ↔ map[k]? = some v := fun k v ↦ by
    rw [hl.mem_iff, Std.ExtTreeMap.mem_toList_iff_getElem?_eq_some]
  refine Std.ExtTreeMap.ext_getElem? fun k ↦ ?_
  rw [Std.ExtTreeMap.getElem?_map]
  cases hv : map[k]? with
  | none =>
    rw [getElem?_foldl_insert_of_forall_notMem fun v h ↦ by rw [hmem, hv] at h; cases h]
    exact Std.ExtTreeMap.getElem?_empty
  | some v => rw [getElem?_foldl_insert_of_mem hkeys ((hmem k v).mpr hv)]; rfl

/-- **A map is read**, up to what is read of its values. -/
theorem reads_decodeMap (hP : P.RoundTrip) (hfuel : 2 ≤ fuel) {decodeValue : Decoder Exc UInt8 W}
    {encodeValue : V → List UInt8} (hsize : map.size < 2 ^ 31)
    (hvalue : ∀ (k : Long) (v : V), map[k]? = some v → Reads decodeValue (encodeValue v) (g v)) :
    Reads (P.readInt >>= fun size ↦ decodeBlocks P (decodeEntry P decodeValue) fuel size ∅)
      (encodeBlocks P (fun entry ↦ P.writeLong entry.1 ++ encodeValue entry.2) (I.entries map))
      (map.map fun _ v ↦ g v) := by
  have hperm := I.perm_entries map
  rw [← foldl_insert_eq_map hperm]
  refine reads_decodeBlocks hP hfuel (fun _ _ ↦ rfl) ?_ fun acc entry hentry ↦ ?_
  · rwa [hperm.length_eq, Std.ExtTreeMap.length_toList]
  · rw [hperm.mem_iff, Std.ExtTreeMap.mem_toList_iff_getElem?_eq_some] at hentry
    exact (hP.long entry.1).bind ((hvalue entry.1 entry.2 hentry).map fun value ↦
      acc.insert entry.1 value)

theorem map_id (map : LongMap V) : (map.map fun _ v ↦ v) = map := by
  refine Std.ExtTreeMap.ext_getElem? fun k ↦ ?_
  rw [Std.ExtTreeMap.getElem?_map]
  exact Option.map_id'

theorem reads_decodeChangeSets (hP : P.RoundTrip) (hfuel : 2 ≤ fuel)
    {changeSets : LongMap (Finset ChangeId)}
    (hfit : ChangeSetsFit changeSets) : Reads (decodeChangeSets P fuel)
    (encodeChangeSets P I changeSets) changeSets := by
  have h := reads_decodeMap I (g := fun changes ↦ changes) hP hfuel hfit.1
    fun key changes h ↦ reads_decodeChanges I hP hfuel (hfit.2 key changes h)
  rwa [map_id] at h

/-! ## The codecs -/

variable {inProgress : LongMap InProgressTx}

/-- **What a codec writes it reads**, up to what it reads of the transactions in progress. -/
theorem reads_decode (hP : P.RoundTrip) (hfuel : 2 ≤ fuel) {codec : AbstractSnapshotCodec}
    {snapshot : TransactionSnapshot} (hfit : snapshot.Fits)
    (hobsolete : Reads codec.decodeObsoleteAttributes codec.encodeObsoleteAttributes ())
    (hinProgress : Reads (codec.decodeInProgress fuel) (codec.encodeInProgress snapshot.inProgress)
      inProgress) :
    Reads (decode P codec fuel) (encode P I codec snapshot)
      { snapshot with inProgress := inProgress } := by
  simp only [encode, List.append_assoc]
  refine (hP.long _).bind ((hP.long _).bind ((hP.long _).bind ?_))
  refine hobsolete.bind ((reads_decodeInvalid hP hfuel hfit.invalid).bind (hinProgress.bind ?_))
  exact (reads_decodeChangeSets I hP hfuel hfit.committing).bind
    ((reads_decodeChangeSets I hP hfuel hfit.committed).map _)

theorem reads_decodeInProgress_v1 (hP : P.RoundTrip) (hfuel : 2 ≤ fuel)
    (hsize : inProgress.size < 2 ^ 31) : Reads ((snapshotCodecV1 P I).decodeInProgress fuel)
      ((snapshotCodecV1 P I).encodeInProgress inProgress) (resetBounds inProgress) :=
  reads_decodeMap I hP hfuel hsize fun _ tx _ ↦ (hP.long tx.expiration).map fun expiration ↦
    InProgressTx.mk 0 expiration

theorem reads_decodeInProgress_v2 (hP : P.RoundTrip) (hfuel : 2 ≤ fuel)
    (hsize : inProgress.size < 2 ^ 31) : Reads ((snapshotCodecV2 P I).decodeInProgress fuel)
      ((snapshotCodecV2 P I).encodeInProgress inProgress) inProgress := by
  have hvalue : ∀ tx : InProgressTx, Reads (do
      let expiration ← P.readLong
      let visibilityUpperBound ← P.readLong
      return InProgressTx.mk visibilityUpperBound expiration)
      (P.writeLong tx.expiration ++ P.writeLong tx.visibilityUpperBound) tx := fun tx ↦
    (hP.long tx.expiration).bind ((hP.long tx.visibilityUpperBound).map fun bound ↦ InProgressTx.mk
      bound tx.expiration)
  have h := reads_decodeMap I (g := fun tx : InProgressTx ↦ tx) hP hfuel hsize fun _
    tx _ ↦ hvalue tx
  rw [map_id] at h
  simp only [snapshotCodecV2, List.append_assoc]
  exact h

/-- **A snapshot survives**: all of it in the second format, and in the first one without the
visibility bounds. -/
theorem decode_encode (hP : P.RoundTrip) {snapshot : TransactionSnapshot} (hfit : snapshot.Fits)
    {fuel : Nat} (hfuel : 2 ≤ fuel) :
    decode P (snapshotCodecV2 P I) fuel (encode P I (snapshotCodecV2 P I) snapshot) =
      .ok snapshot [] ∧ decode P (snapshotCodecV1 P I)
        fuel (encode P I (snapshotCodecV1 P I) snapshot) =
          .ok { snapshot with inProgress := resetBounds snapshot.inProgress } [] := by
  constructor
  · have hobsolete : Reads (snapshotCodecV2 P I).decodeObsoleteAttributes
        (snapshotCodecV2 P I).encodeObsoleteAttributes () := reads_pure ()
    have h := reads_decode I hP hfuel hfit hobsolete
      (reads_decodeInProgress_v2 I hP hfuel hfit.inProgress) []
    rwa [List.append_nil] at h
  · have hobsolete : Reads (snapshotCodecV1 P I).decodeObsoleteAttributes
        (snapshotCodecV1 P I).encodeObsoleteAttributes () := (hP.long 55).map fun _ ↦ ()
    have h := reads_decode I hP hfuel hfit hobsolete
      (reads_decodeInProgress_v1 I hP hfuel hfit.inProgress) []
    rwa [List.append_nil] at h

/-! ## The primitives that are used elsewhere -/

/-- A decoder with exceptions of its own. -/
def withExc {ε α : Type} (p : Decoder ε UInt8 α) : Decoder Exc UInt8 α := fun input ↦
  match p input with
  | .ok a rest => .ok a rest
  | .error _ rest => .error .io rest

theorem reads_withExc {ε α : Type} {p : Decoder ε UInt8 α} {bytes : List UInt8} {a : α}
    (h : Reads p bytes a) : Reads (withExc p) bytes a := by
  intro rest
  rw [withExc, h rest]

def binaryCodec : Primitives where
  writeInt := Io.writeInt
  writeLong := Io.writeLong
  writeBytes := Io.writeByteArray
  readInt := withExc Io.readInt
  readLong := withExc Io.readLong
  readBytes := withExc Io.rawReadBytes

theorem roundTrip_binaryCodec : binaryCodec.RoundTrip where
  int i := reads_withExc (Io.reads_readInt i)
  long l := reads_withExc (Io.reads_readLong l)
  bytes bytes h := by
    show Reads (withExc Io.rawReadBytes) (Io.writeByteArray bytes) bytes
    rw [Io.writeByteArray_eq h]
    exact reads_withExc (Io.reads_rawReadBytes h)

instance instLinearOrder : LinearOrder ChangeId :=
  LinearOrder.lift' ChangeId.key fun a b h ↦ by
    cases a
    cases b
    exact congrArg ChangeId.mk h

/-- What is in a collection, in ascending order. -/
def ascending : Iteration where
  elements changes := changes.sort (· ≤ ·)
  entries map := map.toList
  nodup_elements changes := changes.sort_nodup _
  toFinset_elements changes := changes.sort_toFinset _
  perm_entries _ := List.Perm.refl _

/-- A transaction in progress, one that commits without changes and one that has committed with
some. -/
def sample : TransactionSnapshot where
  timestamp := 1
  readPointer := 7
  writePointer := 9
  invalid := [3, -4]
  inProgress := (∅ : LongMap InProgressTx).insert 9 ⟨7, -1⟩
  committingChangeSets := (∅ : LongMap (Finset ChangeId)).insert 8 ∅
  committedChangeSets := (∅ : LongMap (Finset ChangeId)).insert 7 {⟨[]⟩, ⟨[255, 0]⟩}

theorem size_singleton_lt (key : Long) (v : V) : ((∅ : LongMap V).insert key v).size < 2 ^ 31 :=
  lt_of_le_of_lt Std.ExtTreeMap.size_insert_le (by rw [Std.ExtTreeMap.size_empty]; decide)

theorem changeSetsFit_singleton (key : Long) {changes : Finset ChangeId}
    (hfit : ChangesFit changes) : ChangeSetsFit
    ((∅ : LongMap (Finset ChangeId)).insert key changes) := by
  refine ⟨size_singleton_lt key changes, fun k found h ↦ ?_⟩
  rw [Std.ExtTreeMap.getElem?_insert] at h
  split at h
  · exact Option.some.inj h ▸ hfit
  · rw [Std.ExtTreeMap.getElem?_empty] at h
    cases h

theorem fits_sample : sample.Fits where
  invalid := by decide
  inProgress := size_singleton_lt 9 _
  committing := changeSetsFit_singleton 8 ⟨by decide, by decide⟩
  committed := changeSetsFit_singleton 7 ⟨by decide, by decide⟩

/-- Nothing of it is lost but the visibility bound. -/
theorem decode_encode_sample :
    decode binaryCodec (snapshotCodecV2 binaryCodec ascending) 2
        (encode binaryCodec ascending (snapshotCodecV2 binaryCodec ascending) sample) =
          .ok sample [] ∧
      decode binaryCodec (snapshotCodecV1 binaryCodec ascending) 2
        (encode binaryCodec ascending (snapshotCodecV1 binaryCodec ascending) sample) =
        .ok { sample with inProgress := resetBounds sample.inProgress } [] :=
  decode_encode ascending roundTrip_binaryCodec fits_sample (by decide)

end Tigon.Transaction
