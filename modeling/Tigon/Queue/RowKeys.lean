import Tigon.Lib.Bytes
import Tigon.Queue.EntryRow

/-!
# Row keys of queues

The key of an entry is the first byte of the MD5 of the queue's name within its flow, that name, the
write pointer and the counter.  In the table there is one byte of salt before it.  The name within
the flow is `flowlet/output`.

`isQueueEntry` compares the row with the prefix of a queue, which starts with the MD5 byte, from the
byte after the MD5 byte on.  So it compares the name with itself, moved by one byte: it does not
hold for any row of the queue, and holds for rows of another queue.

## What is here

* `getQueueRowPrefix`, `rowKey`, `getQueueName`, `isQueueEntry` — row keys, made and taken apart.
* `rowKeys_spec` — the queue of a row is recovered, rows are in the order of write pointers and
  counters, and scans stay within the queue; but `isQueueEntry` **never** holds for a row of the
queue. -/

set_option autoImplicit false

open Bytes

namespace Tigon.RowKeys

/-! ## Names -/

def slash : UInt8 := 47

/-- The characters of the path of a URI other than letters, digits, `/` and `%`:
`!$&'()*+,-.:;=@_~`. -/
def marks : List UInt8 := [33, 36, 38, 39, 40, 41, 42, 43, 44, 45, 46, 58, 59, 61, 64, 95, 126]

/-- A character that stands for itself in the path of a URI. -/
def isPlain (b : UInt8) : Bool :=
  48 ≤ b && b ≤ 57 || 65 ≤ b && b ≤ 90 || 97 ≤ b && b ≤ 122 || marks.contains b

/-- The name of an application, a flow, a flowlet or an output. -/
structure Name where
  bytes : List UInt8
  ne_nil : bytes ≠ []
  plain : bytes.all isPlain = true
deriving DecidableEq

/-- The name with some characters. -/
def Name.ofBytes (bytes : List UInt8) : Option Name :=
  if h : bytes ≠ [] ∧ bytes.all isPlain = true then some ⟨bytes, h.1, h.2⟩ else none

/-- The name of a queue, `queue:///app/flow/flowlet/output`. -/
structure QueueName where
  app : Name
  flow : Name
  flowlet : Name
  output : Name
deriving DecidableEq

/-! ## Row keys -/

/-- `flowlet/output`. -/
def QueueName.idWithinFlow (q : QueueName) : List UInt8 :=
  q.flowlet.bytes ++ slash :: q.output.bytes

section Keys

variable (md5 : List UInt8 → UInt8)

/-- The prefix of the rows of a queue; `md5` is the first byte of the hash. -/
def getQueueRowPrefix (q : QueueName) : List UInt8 := md5 q.idWithinFlow :: q.idWithinFlow

/-- The key of an entry. -/
def rowKey (q : QueueName) (row : Row) : List UInt8 :=
  getQueueRowPrefix md5 q ++ toBytes 8 row.writePointer ++ toBytes 4 row.counter

end Keys

/-- The number of bytes that the distributor puts before a key. -/
def saltBytes : Nat := 1

/-- `String.split`: no empty strings at the end. -/
def split (s : List UInt8) : List (List UInt8) := (s.splitOn slash).rdropWhile List.isEmpty

/-- The queue of a row of the table. -/
def getQueueName (app flow : Name) (row : List UInt8) : Option QueueName :=
  let queueNameEnd := row.length - 8 - 4
  let parts := split ((row.take queueNameEnd).drop (saltBytes + 1))
  parts[0]?.bind fun flowlet ↦ parts[1]?.bind fun output ↦
    (Name.ofBytes flowlet).bind fun flowlet ↦ (Name.ofBytes output).map fun output ↦
      ⟨app, flow, flowlet, output⟩

/-- The loop of `isPrefix`. -/
def samePrefix : List UInt8 → List UInt8 → Bool
  | _, [] => true
  | [], _ :: _ => false
  | b :: bytes, p :: pre => b == p && samePrefix bytes pre

def isPrefix (bytes : List UInt8) (off len : Nat) (pre : List UInt8) : Bool :=
  if len < pre.length then false else samePrefix (bytes.drop off) pre

/-- Is the row of the table one of the queue with the prefix? -/
def isQueueEntry (queueRowPrefix row : List UInt8) : Bool :=
  isPrefix row (1 + saltBytes) (row.length - 1 - saltBytes) queueRowPrefix

/-! ## Taking a row apart -/

section Parts

variable {md5 : List UInt8 → UInt8} {q q' : QueueName} {row : Row} {salt : UInt8}

theorem ofBytes_bytes (n : Name) : Name.ofBytes n.bytes = some n := dif_pos ⟨n.ne_nil, n.plain⟩

theorem plain_of_mem {n : Name} {b : UInt8} (hb : b ∈ n.bytes) : 0x21 ≤ b.toNat ∧ b ≠ slash := by
  have h := List.all_eq_true.mp n.plain b hb
  have hmarks : ∀ c ∈ marks, 0x21 ≤ c.toNat ∧ c ≠ slash := by simp [marks, slash]
  rw [isPlain, Bool.or_eq_true, List.contains_iff_mem] at h
  rcases h with h | h
  · simp only [Bool.or_eq_true, Bool.and_eq_true, decide_eq_true_eq, UInt8.le_iff_toNat_le,
      UInt8.reduceToNat] at h
    refine ⟨by omega, fun hslash ↦ ?_⟩
    have : b.toNat = 47 := congrArg UInt8.toNat hslash
    omega
  · exact hmarks b h

theorem slash_not_mem (n : Name) : slash ∉ n.bytes := fun h ↦ (plain_of_mem h).2 rfl

theorem split_idWithinFlow (q : QueueName) : split q.idWithinFlow =
    [q.flowlet.bytes, q.output.bytes] := by
  have hsplit : q.idWithinFlow.splitOn slash = [q.flowlet.bytes, q.output.bytes] := by
    rw [QueueName.idWithinFlow, List.splitOn_append_cons_self_of_not_mem (slash_not_mem _),
      List.splitOn_eq_singleton (slash_not_mem _)]
  rw [split, hsplit, List.rdropWhile_eq_self_iff]
  intro _
  simpa using q.output.ne_nil

theorem eq_of_bytes {n n' : Name} (h : n'.bytes = n.bytes) : n' = n := by
  obtain ⟨l, hl, hplain⟩ := n
  obtain ⟨l', hl', hplain'⟩ := n'
  obtain rfl : l' = l := h
  rfl

/-- The name within the flow determines flowlet and output. -/
theorem eq_of_idWithinFlow (happ : q'.app = q.app) (hflow : q'.flow = q.flow)
    (h : q'.idWithinFlow = q.idWithinFlow) : q' = q := by
  have hparts := (split_idWithinFlow q').symm.trans
    ((congrArg split h).trans (split_idWithinFlow q))
  rw [List.cons.injEq, List.cons.injEq] at hparts
  obtain ⟨app, flow, flowlet, output⟩ := q
  obtain ⟨app', flow', flowlet', output'⟩ := q'
  obtain rfl : app' = app := happ
  obtain rfl : flow' = flow := hflow
  obtain rfl := eq_of_bytes hparts.1
  obtain rfl := eq_of_bytes hparts.2.1
  rfl

/-- **The queue of a row is recovered.** -/
theorem getQueueName_rowKey (md5 : List UInt8 → UInt8) (q : QueueName) (salt : UInt8) (row : Row) :
    getQueueName q.app q.flow (salt :: rowKey md5 q row) = some q := by
  have hid : ((salt :: rowKey md5 q row).take ((salt :: rowKey md5 q row).length - 8 - 4)).drop
      (saltBytes + 1) = q.idWithinFlow := by
    have hlen : (salt :: rowKey md5 q row).length - 8 - 4 =
      (salt :: getQueueRowPrefix md5 q).length := by
      simp only [rowKey, List.length_cons, List.length_append, length_toBytes]
      omega
    rw [hlen, rowKey, List.append_assoc, ← List.cons_append, List.take_left]
    rfl
  rw [getQueueName, hid, split_idWithinFlow]
  simp [ofBytes_bytes]

/-! ## Rows of a queue -/

theorem samePrefix_iff {bytes pre : List UInt8} : samePrefix bytes pre = true ↔ pre <+: bytes := by
  induction pre generalizing bytes with
  | nil => simp [samePrefix]
  | cons p pre ih =>
    cases bytes with
    | nil => simp [samePrefix]
    | cons b bytes =>
      rw [samePrefix, Bool.and_eq_true, beq_iff_eq, ih, List.cons_prefix_cons, eq_comm]

/-- The row without salt and MD5 byte starts with the prefix of the queue. -/
theorem isQueueEntry_iff {pre row : List UInt8} : isQueueEntry pre row = true ↔
    pre <+: row.drop 2 := by
  rw [isQueueEntry, isPrefix, ← samePrefix_iff]
  split
  · rename_i hlt
    rw [samePrefix_iff]
    refine iff_of_false (by decide) fun h ↦ ?_
    have hle := h.length_le
    rw [List.length_drop] at hle
    rw [saltBytes] at hlt
    omega
  · rfl

/-- A string that starts with itself, moved by one byte, has one byte only. -/
theorem eq_of_cons_prefix {l z : List UInt8} {m : UInt8} (h : m :: l <+: l ++ z) :
    ∀ x ∈ l, x = m := by
  induction l generalizing m with
  | nil => exact fun x hx ↦ by cases hx
  | cons a l ih =>
    rw [List.cons_append, List.cons_prefix_cons] at h
    obtain ⟨rfl, h⟩ := h
    exact List.forall_mem_cons.mpr ⟨rfl, ih h⟩

/-- **No row is an entry of its own queue.** -/
theorem isQueueEntry_rowKey (md5 : List UInt8 → UInt8) (q : QueueName) (salt : UInt8) (row : Row) :
    isQueueEntry (getQueueRowPrefix md5 q) (salt :: rowKey md5 q row) = false := by
  rw [← Bool.not_eq_true, isQueueEntry_iff]
  intro h
  have hdrop : (salt :: rowKey md5 q row).drop 2 =
      q.idWithinFlow ++ (toBytes 8 row.writePointer ++ toBytes 4 row.counter) := by
    rw [rowKey, List.append_assoc]
    rfl
  rw [hdrop] at h
  have hall := eq_of_cons_prefix h
  obtain ⟨b, hb⟩ := List.exists_mem_of_ne_nil _ q.flowlet.ne_nil
  have hslash := hall slash (List.mem_append_right _ List.mem_cons_self)
  have hfirst := hall b (List.mem_append_left _ hb)
  exact (plain_of_mem hb).2 (hfirst.trans hslash.symm)

end Parts

/-! ## The order of rows -/

section Order

variable {md5 : List UInt8 → UInt8} {q q' : QueueName} {row row' : Row}

/-- The numbers of a row are a `long` and an `int`. -/
structure Fits (row : Row) : Prop where
  writePointer : row.writePointer < 2 ^ 63
  counter : row.counter < 2 ^ 31

/-- **The rows of a queue are in the order of write pointers and counters.** -/
theorem rowKey_lt_rowKey_iff (md5 : List UInt8 → UInt8) (q : QueueName) (h : Fits row)
    (h' : Fits row') : rowKey md5 q row < rowKey md5 q row' ↔ row < row' := by
  have hw : row.writePointer < 256 ^ 8 := h.writePointer.trans (by decide)
  have hw' : row'.writePointer < 256 ^ 8 := h'.writePointer.trans (by decide)
  have hc : row.counter < 256 ^ 4 := h.counter.trans (by decide)
  have hc' : row'.counter < 256 ^ 4 := h'.counter.trans (by decide)
  rw [rowKey, rowKey, List.append_assoc, List.append_assoc, append_lt_append_left_iff,
    append_lt_append_iff (by rw [length_toBytes, length_toBytes]), toBytes_lt_toBytes_iff hw hw',
    toBytes_inj hw hw', toBytes_lt_toBytes_iff hc hc']
  rfl

/-- A key between two keys with a common prefix has that prefix. -/
theorem prefix_of_between {p x y r : List UInt8} (hle : p ++ x ≤ r) (hlt : r < p ++ y) :
    p <+: r := by
  induction p generalizing r with
  | nil => exact List.nil_prefix
  | cons c p ih =>
    cases r with
    | nil => exact absurd (List.nil_lt_cons c (p ++ x)) (not_lt.mpr hle)
    | cons d r =>
      rw [List.cons_append, ← not_lt, List.cons_lt_cons_iff, not_or, not_and] at hle
      rw [List.cons_append, List.cons_lt_cons_iff] at hlt
      rcases hlt with hlt | ⟨rfl, hlt⟩
      · exact absurd hlt hle.1
      · exact List.cons_prefix_cons.mpr ⟨rfl, ih (not_lt.mp (hle.2 rfl)) hlt⟩

/-- The scan of a consumer reads the row. -/
def InScan (md5 : List UInt8 → UInt8) (q : QueueName) (startWritePointer readPointer : Nat)
    (key : List UInt8) : Prop :=
  getQueueRowPrefix md5 q ++ toBytes 8 startWritePointer ≤ key ∧
    key < getQueueRowPrefix md5 q ++ toBytes 8 (readPointer + 1)

theorem plain_of_mem_idWithinFlow {b : UInt8} (hb : b ∈ q.idWithinFlow) : 0x21 ≤ b.toNat := by
  rcases List.mem_append.mp hb with hb | hb
  · exact (plain_of_mem hb).1
  · rcases List.mem_cons.mp hb with rfl | hb
    · decide
    · exact (plain_of_mem hb).1

theorem head_toBytes {n : Nat} (hn : n ≤ 2 ^ 61) : ∃ b l, toBytes 8 n = b :: l ∧
    b.toNat ≤ 0x20 := by
  refine ⟨_, _, rfl, ?_⟩
  rw [UInt8.toNat_ofNat']
  exact (Nat.mod_le _ _).trans (Nat.div_le_of_le_mul (hn.trans (by decide)))

/-- **Scans stay within the queue**, if the MD5 bytes differ, or transactions have numbers below the
first byte of a name. -/
theorem not_inScan (happ : q'.app = q.app) (hflow : q'.flow = q.flow) (hne : q' ≠ q)
    {start readPointer : Nat} (hok : md5 q'.idWithinFlow ≠ md5 q.idWithinFlow ∨
      row.writePointer < 2 ^ 61 ∧ readPointer < 2 ^ 61) :
    ¬ InScan md5 q start readPointer (rowKey md5 q' row) := by
  rintro ⟨hle, hlt⟩
  have hpre := prefix_of_between hle hlt
  rw [rowKey, List.append_assoc] at hpre hlt
  rw [getQueueRowPrefix, getQueueRowPrefix, List.cons_append, List.cons_prefix_cons] at hpre
  obtain ⟨hmd5, hpre⟩ := hpre
  obtain ⟨hw, hr⟩ := hok.resolve_left fun h ↦ h hmd5.symm
  rcases le_total q.idWithinFlow.length q'.idWithinFlow.length with hlen | hlen
  · -- the name of the other queue goes on where the write pointer should be
    obtain ⟨l, hl⟩ := List.prefix_of_prefix_length_le hpre (List.prefix_append _ _) hlen
    cases l with
    | nil => exact hne (eq_of_idWithinFlow happ hflow (by rw [← hl, List.append_nil]))
    | cons c l =>
      obtain ⟨b, k, hb, hbound⟩ := head_toBytes (n := readPointer + 1) (by omega)
      have hc := plain_of_mem_idWithinFlow (q := q') (b := c) (by rw [← hl]; simp)
      rw [getQueueRowPrefix, getQueueRowPrefix, ← hmd5, ← hl, hb, ← List.cons_append,
        List.append_assoc, append_lt_append_left_iff, List.cons_append, List.cons_lt_cons_iff,
          UInt8.lt_iff_toNat_lt] at hlt
      rcases hlt with hlt | ⟨rfl, -⟩
      · omega
      · omega
  · -- the write pointer goes on like the name
    obtain ⟨l, hl⟩ := List.prefix_of_prefix_length_le (List.prefix_append _ _) hpre hlen
    cases l with
    | nil => exact hne (eq_of_idWithinFlow happ hflow (by rw [← hl, List.append_nil]))
    | cons c l =>
      obtain ⟨b, k, hb, hbound⟩ := head_toBytes (n := row.writePointer) (by omega)
      have hc := plain_of_mem_idWithinFlow (q := q) (b := c) (by rw [← hl]; simp)
      rw [← hl, List.prefix_append_right_inj, hb, List.cons_append, List.cons_prefix_cons] at hpre
      obtain ⟨rfl, -⟩ := hpre
      omega

/-- What row keys of a queue are meant to do, next to the other queues of its flow. -/
structure RowKeysOk (md5 : List UInt8 → UInt8) (q : QueueName) : Prop where
  name : ∀ (salt : UInt8) (row : Row), getQueueName q.app q.flow (salt :: rowKey md5 q row) = some q
  entry : ∀ q' : QueueName, q'.app = q.app → q'.flow = q.flow →
    ∀ (salt : UInt8) (row : Row), Fits row →
      (isQueueEntry (getQueueRowPrefix md5 q) (salt :: rowKey md5 q' row) = true ↔ q' = q)
  order : ∀ row row' : Row, Fits row → Fits row' →
    (rowKey md5 q row < rowKey md5 q row' ↔ row < row')
  separate : ∀ q' : QueueName, q'.app = q.app → q'.flow = q.flow → q' ≠ q → ∀ row : Row, Fits row →
    ∀ start readPointer : Nat, start < 2 ^ 63 → readPointer < 2 ^ 63 →
      ¬ InScan md5 q start readPointer (rowKey md5 q' row)

/-- **Row keys never do all that they are meant to do**: names are recovered, rows are in order, and
scans stay within the queue, but `isQueueEntry` refuses all rows of the queue. -/
theorem rowKeys_spec (md5 : List UInt8 → UInt8) (q : QueueName) :
    ¬ RowKeysOk md5 q ∧
      (∀ (salt : UInt8) (row : Row),
        getQueueName q.app q.flow (salt :: rowKey md5 q row) = some q) ∧
      (∀ (salt : UInt8) (row : Row),
        isQueueEntry (getQueueRowPrefix md5 q) (salt :: rowKey md5 q row) = false) ∧
      (∀ row row' : Row, Fits row → Fits row' →
        (rowKey md5 q row < rowKey md5 q row' ↔ row < row')) ∧
      ∀ q' : QueueName, q'.app = q.app → q'.flow = q.flow → q' ≠ q →
        ∀ (row : Row) (start readPointer : Nat), md5 q'.idWithinFlow ≠ md5 q.idWithinFlow ∨
          row.writePointer < 2 ^ 61 ∧ readPointer < 2 ^ 61 →
            ¬ InScan md5 q start readPointer (rowKey md5 q' row) := by
  refine ⟨fun h ↦ ?_, getQueueName_rowKey md5 q, isQueueEntry_rowKey md5 q,
    fun row row' ↦ rowKey_lt_rowKey_iff md5 q, fun q' happ hflow hne row start readPointer ↦
      not_inScan happ hflow hne⟩
  have hentry := (h.entry q rfl rfl 0 Row.zero ⟨by decide, by decide⟩).mpr rfl
  rw [isQueueEntry_rowKey] at hentry
  cases hentry

end Order

/-! ## A row of another queue -/

section Foreign

/-- `queue:///app/flow/f/out`. -/
def fOut : QueueName where
  app := ⟨[97, 112, 112], by decide, by decide⟩
  flow := ⟨[102, 108, 111, 119], by decide, by decide⟩
  flowlet := ⟨[102], by decide, by decide⟩
  output := ⟨[111, 117, 116], by decide, by decide⟩

/-- The first byte of the MD5 of `f/out`. -/
def md5OfFOut (_id : List UInt8) : UInt8 := 108

theorem exists_not_rowKeysOk : ¬ ∀ (md5 : List UInt8 → UInt8) (q : QueueName), RowKeysOk md5 q := by
  intro h
  have hentry := ((h md5OfFOut fOut).entry fOut rfl rfl 0 ⟨5, 0⟩ ⟨by decide, by decide⟩).mpr rfl
  revert hentry
  decide

/-- A row of the flowlet `lf` is taken for one of the flowlet `f`. -/
example : isQueueEntry (getQueueRowPrefix md5OfFOut fOut)
    (0 :: rowKey md5OfFOut { fOut with flowlet := ⟨[108, 102], by decide, by decide⟩ } ⟨5, 0⟩) =
      true := by
  decide

end Foreign

end Tigon.RowKeys
