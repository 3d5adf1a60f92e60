import Tigon.Lib.Bytes
import Tigon.Queue.EntryRow

/-!
# Distributing row keys

Rows are spread over buckets by a one-byte prefix of their keys.  `RowKeyDistributorByHashPrefix`
takes the prefix from a hash of the key (`OneByteSimpleHash`), `RowKeyDistributorByOneBytePrefix`
takes the prefixes in turn.  A scan over original keys is a scan of each bucket
(`getDistributedIntervals`).

The hash is an `int`, whose absolute value may be negative: the absolute value of the smallest `int`
is itself.  Its remainder is then negative as well, and the byte it becomes is the prefix of a
bucket only by chance.

## What is here

* `OneByteSimpleHash`, `Distributor` — the hash and the two distributors.
* `distributes_iff` — **when a key gets the prefix of a bucket**, and can be taken apart again.
-/

set_option autoImplicit false

namespace Tigon.Wd

/-! ## Hashing keys -/

/-- Narrowing to a `byte`. -/
def toByte (x : Int) : UInt8 := UInt8.ofNat (x % 256).toNat

/-- A `byte` is signed. -/
def byteValue (b : UInt8) : Int := b.toInt8.toInt

/-- A hash with some number of buckets; the constructor takes no other number. -/
structure OneByteSimpleHash where
  mod : Nat
  pos : 1 ≤ mod
  le : mod ≤ 256

namespace OneByteSimpleHash

/-- Compute hash for binary data. -/
def hashBytes (bytes : List UInt8) : Int :=
  bytes.foldl (fun hash b ↦ toInt32 (31 * hash + byteValue b)) 1

def getHashPrefix (hasher : OneByteSimpleHash) (originalKey : List UInt8) : List UInt8 :=
  [toByte ((mathAbs (hashBytes originalKey)).tmod hasher.mod)]

def getAllPossiblePrefixes (hasher : OneByteSimpleHash) : List (List UInt8) :=
  (List.range hasher.mod).map fun i : Nat ↦ [toByte i]

def getPrefixLength (_hasher : OneByteSimpleHash) (_adjustedKey : List UInt8) : Nat := 1

end OneByteSimpleHash

/-! ## The distributors -/

/-- The distributors of the package.  The number of buckets of the second is a `byte`, and there is
no bucket if it is not positive. -/
inductive Distributor
  | byHashPrefix (hasher : OneByteSimpleHash)
  | byOneBytePrefix (maxPrefix : Nat) (pos : 1 ≤ maxPrefix) (le : maxPrefix ≤ 127)

namespace Distributor

/-- `Bytes.tail`. -/
def tail (a : List UInt8) (length : Nat) : List UInt8 := a.drop (a.length - length)

/-- The key that a row is stored under.  `nextPrefix` is the prefix whose turn it is; the result has
the next one. -/
def getDistributedKey (d : Distributor) (nextPrefix : Nat) (originalKey : List UInt8) :
    List UInt8 × Nat :=
  match d with
  | byHashPrefix hasher => (hasher.getHashPrefix originalKey ++ originalKey, nextPrefix)
  | byOneBytePrefix maxPrefix _ _ =>
    (toByte nextPrefix :: originalKey, (nextPrefix + 1) % maxPrefix)

def getOriginalKey (d : Distributor) (adjustedKey : List UInt8) : List UInt8 :=
  match d with
  | byHashPrefix hasher =>
    if 0 < hasher.getPrefixLength adjustedKey then
      tail adjustedKey (adjustedKey.length - hasher.getPrefixLength adjustedKey)
    else adjustedKey
  | byOneBytePrefix _ _ _ => tail adjustedKey (adjustedKey.length - 1)

def getAllDistributedKeys (d : Distributor) (originalKey : List UInt8) : List (List UInt8) :=
  match d with
  | byHashPrefix hasher => hasher.getAllPossiblePrefixes.map (· ++ originalKey)
  | byOneBytePrefix maxPrefix _ _ =>
    (List.range maxPrefix).map fun i : Nat ↦ toByte i :: originalKey

end Distributor

/-! ## Prefixes -/

section Prefixes

variable {hasher : OneByteSimpleHash}

theorem toByte_toNat (x : Int) : ((toByte x).toNat : Int) = x % 256 := by
  rw [toByte, UInt8.toNat_ofNat']
  omega

theorem toByte_toNat_of_lt {i : Nat} (h : i < 256) : (toByte i).toNat = i := by
  have := toByte_toNat i
  omega

theorem toByte_of_toNat (b : UInt8) : toByte b.toNat = b := by
  rw [← UInt8.toNat_inj]
  exact toByte_toNat_of_lt b.toNat_lt

/-- The prefixes are the first bytes. -/
theorem mem_prefixes_iff {n : Nat} (hn : n ≤ 256) {b : UInt8} :
    (∃ i < n, toByte i = b) ↔ b.toNat < n := by
  constructor
  · rintro ⟨i, hi, rfl⟩
    rwa [toByte_toNat_of_lt (by omega)]
  · exact fun h ↦ ⟨b.toNat, h, toByte_of_toNat b⟩

theorem mem_getAllPossiblePrefixes_iff {b : UInt8} :
    [b] ∈ hasher.getAllPossiblePrefixes ↔ b.toNat < hasher.mod := by
  rw [← mem_prefixes_iff hasher.le, OneByteSimpleHash.getAllPossiblePrefixes, List.mem_map]
  simp only [List.mem_range, List.cons.injEq, and_true]

/-- The prefixes differ, and are in order. -/
theorem pairwise_getAllPossiblePrefixes (hasher : OneByteSimpleHash) :
    hasher.getAllPossiblePrefixes.Pairwise (· < ·) := by
  have hle := hasher.le
  rw [OneByteSimpleHash.getAllPossiblePrefixes, List.pairwise_map]
  refine List.pairwise_lt_range.imp_of_mem fun {i j} hi hj hij ↦ ?_
  rw [List.mem_range] at hi hj
  rw [List.cons_lt_cons_iff]
  refine .inl (UInt8.lt_iff_toNat_lt.mpr ?_)
  rwa [toByte_toNat_of_lt (by omega), toByte_toNat_of_lt (by omega)]

/-- The hash of a key has the prefix of a bucket for its remainder. -/
def BucketOk (hash : Int) (mod : Nat) : Prop :=
  hash ≠ -2 ^ 31 ∨ mod ∣ 2 ^ 31 ∨ 256 < mod + 2 ^ 31 % mod

/-- **A key gets the prefix of a bucket**, or its hash is the smallest `int`. -/
theorem toNat_lt_mod_iff (hasher : OneByteSimpleHash) (hash : Int) :
    (toByte ((mathAbs hash).tmod hasher.mod)).toNat < hasher.mod ↔ BucketOk hash hasher.mod := by
  have hpos := hasher.pos
  have hle := hasher.le
  have hbyte := toByte_toNat ((mathAbs hash).tmod hasher.mod)
  have hlt := tmod_mathAbs_lt (h := hash) hasher.pos
  rw [BucketOk]
  by_cases heq : hash = -2 ^ 31
  · have hmod := Nat.mod_lt (2 ^ 31) hasher.pos
    rw [heq, smallest_tmod] at hbyte
    rw [or_iff_right (not_not.mpr heq), heq, smallest_tmod, Nat.dvd_iff_mod_eq_zero]
    omega
  · have hnonneg : 0 ≤ (mathAbs hash).tmod hasher.mod := by
      rw [mathAbs_eq_natAbs heq]
      exact Int.tmod_nonneg _ (by omega)
    exact iff_of_true (by omega) (.inl heq)

theorem getHashPrefix_mem_iff {key : List UInt8} :
    hasher.getHashPrefix key ∈ hasher.getAllPossiblePrefixes ↔
      BucketOk (OneByteSimpleHash.hashBytes key) hasher.mod := by
  rw [OneByteSimpleHash.getHashPrefix, mem_getAllPossiblePrefixes_iff, toNat_lt_mod_iff]

end Prefixes

/-! ## Keys -/

section Keys

variable {d : Distributor}

theorem tail_cons (b : UInt8) (key : List UInt8) :
    Distributor.tail (b :: key) ((b :: key).length - 1) = key := by
  rw [Distributor.tail, List.length_cons, Nat.add_sub_cancel, Nat.add_sub_cancel_left]
  rfl

theorem getOriginalKey_cons (d : Distributor) (b : UInt8) (key : List UInt8) :
    d.getOriginalKey (b :: key) = key := by
  cases d with
  | byHashPrefix hasher =>
    rw [Distributor.getOriginalKey, OneByteSimpleHash.getPrefixLength,
      if_pos Nat.one_pos, tail_cons]
  | byOneBytePrefix maxPrefix pos le => rw [Distributor.getOriginalKey, tail_cons]

/-- A stored key is a prefix and the original key. -/
theorem exists_getDistributedKey_eq (d : Distributor) (n : Nat) (key : List UInt8) :
    ∃ b, (d.getDistributedKey n key).1 = b :: key := by
  cases d with
  | byHashPrefix hasher => exact ⟨_, rfl⟩
  | byOneBytePrefix maxPrefix pos le => exact ⟨_, rfl⟩

theorem getOriginalKey_getDistributedKey (d : Distributor) (n : Nat) (key : List UInt8) :
    d.getOriginalKey (d.getDistributedKey n key).1 = key := by
  obtain ⟨b, hb⟩ := exists_getDistributedKey_eq d n key
  rw [hb, getOriginalKey_cons]

/-- How many buckets there are. -/
def Distributor.buckets : Distributor → Nat
  | .byHashPrefix hasher => hasher.mod
  | .byOneBytePrefix maxPrefix _ _ => maxPrefix

theorem buckets_pos (d : Distributor) : 0 < d.buckets := by
  cases d with
  | byHashPrefix hasher => exact hasher.pos
  | byOneBytePrefix maxPrefix pos le => exact pos

theorem buckets_le (d : Distributor) : d.buckets ≤ 256 := by
  cases d with
  | byHashPrefix hasher => exact hasher.le
  | byOneBytePrefix maxPrefix pos le => exact le.trans (by decide)

theorem getAllDistributedKeys_eq (d : Distributor) (key : List UInt8) :
    d.getAllDistributedKeys key = (List.range d.buckets).map fun i : Nat ↦ toByte i :: key := by
  cases d with
  | byHashPrefix hasher =>
    rw [Distributor.getAllDistributedKeys, OneByteSimpleHash.getAllPossiblePrefixes, List.map_map]
    rfl
  | byOneBytePrefix maxPrefix pos le => rfl

theorem mem_getAllDistributedKeys_iff {b : UInt8} {key : List UInt8} :
    b :: key ∈ d.getAllDistributedKeys key ↔ b.toNat < d.buckets := by
  rw [← mem_prefixes_iff (buckets_le d), getAllDistributedKeys_eq, List.mem_map]
  simp only [List.mem_range, List.cons.injEq, and_true]

/-- The distributor by hash works for a key. -/
structure Distributes (hasher : OneByteSimpleHash) (nextPrefix : Nat) (key : List UInt8) :
    Prop where
  bucket : hasher.getHashPrefix key ∈ hasher.getAllPossiblePrefixes
  nodup : hasher.getAllPossiblePrefixes.Nodup
  sorted : hasher.getAllPossiblePrefixes.Pairwise (· < ·)
  original : (Distributor.byHashPrefix hasher).getOriginalKey
    ((Distributor.byHashPrefix hasher).getDistributedKey nextPrefix key).1 = key
  mem : ((Distributor.byHashPrefix hasher).getDistributedKey nextPrefix key).1 ∈
    (Distributor.byHashPrefix hasher).getAllDistributedKeys key

/-- **When the distributor by hash works for a key.** -/
theorem distributes_iff (hasher : OneByteSimpleHash) (nextPrefix : Nat) (key : List UInt8) :
    Distributes hasher nextPrefix key ↔ OneByteSimpleHash.hashBytes key ≠ -2 ^ 31 ∨
      hasher.mod ∣ 2 ^ 31 ∨ 256 < hasher.mod + 2 ^ 31 % hasher.mod := by
  have hsorted := pairwise_getAllPossiblePrefixes hasher
  constructor
  · exact fun h ↦ getHashPrefix_mem_iff.mp h.bucket
  · intro hok
    exact {
      bucket := getHashPrefix_mem_iff.mpr hok
      nodup := hsorted.imp fun {a b} ↦ ne_of_lt
      sorted := hsorted
      original := getOriginalKey_getDistributedKey _ nextPrefix key
      mem := mem_getAllDistributedKeys_iff.mpr ((toNat_lt_mod_iff hasher _).mpr hok) }

/-- **A key that gets the prefix of no bucket**, with three buckets. -/
theorem exists_not_distributes : ¬ ∀ (hasher : OneByteSimpleHash) (nextPrefix : Nat)
    (key : List UInt8), Distributes hasher nextPrefix key := by
  intro h
  have hmem := (h ⟨3, by decide, by decide⟩ 0 [44, 0, 9, 30, 12, 2]).bucket
  rw [getHashPrefix_mem_iff, BucketOk] at hmem
  revert hmem
  decide

end Keys

end Tigon.Wd
