import Tigon.Lib.Memory
import Tigon.Lib.Run

/-!
# The tuple ring buffer

Tuples go from one process to another through a `struct ringbuf` in shared memory.  A tuple is a
header and its data; the header has the identifier of the sender, the size of the data, and the
position of the next tuple.  The writer puts tuples one after the other and starts again at the
front when it has come to `end`, which lies `MAXTUPLESZ` bytes before the end of the memory; the
reader follows the positions in the headers.  The buffer is empty when both are at the same
position.

Before it writes, a process asks `SPACETOWRITE`, which looks for more than `MAXTUPLESZ` bytes.  A
tuple may have that many bytes of data.  Its header is not accounted for, nor is the header of the
buffer itself in the reserve after `end`.

The sizes are those of a build without `ALIGN64`, which only a sparc under sun defines: a `struct
tuple` has no padding, and `UP64` rounds nothing.  The memory is modelled byte by byte.  A `System`
is a buffer with the tuples posted so far, each with its position, and those received. 
`sound_of_writeOk` says that the tuples are received as they were posted in the runs where each
tuple fits with its header; `writeOk_of_le` that those do whose data is shorter than `MAXTUPLESZ` by
the two headers.  `exists_not_sound` fills the buffer with three tuples such that it looks empty.
-/

set_option autoImplicit false

namespace Tigon.Gscphost

open Memory

/-- `MAXTUPLESZ` -/
def maxTupleSz : Nat := 10240

/-- `sizeof(struct tuple)-1`, where the data of a tuple begins. -/
def tupleHeader : Nat := 32

/-- The offset of `start` in a `struct ringbuf`. -/
def ringbufHeader : Nat := 68

/-- The offset of `sz` in a `struct tuple`. -/
def szOffset : Nat := 24

/-- The offset of `next` in a `struct tuple`. -/
def nextOffset : Nat := 28

/-- What is posted: the bytes of an `FTAID`, and the data. -/
structure Tuple where
  f : List UInt8
  data : List UInt8
  length_f : f.length = 24

namespace Tuple

/-- The number of bytes of a tuple, from its header to the end of its data.  The next tuple
follows. -/
def size (t : Tuple) : Nat := t.data.length + tupleHeader

end Tuple

/-- A `struct ringbuf`.  The memory is addressed from `start` on. -/
structure RingBuf where
  writer : Nat
  reader : Nat
  bufEnd : Nat
  length : Nat
  start : Nat → UInt8

namespace RingBuf

/-- The buffer that `gscpipc_createshm` sets up in new memory. -/
def createshm (length : Nat) (start : Nat → UInt8) : Option RingBuf :=
  if length < 4 * maxTupleSz then none else some ⟨0, 0, length - maxTupleSz, length, start⟩

/-- `SPACETOWRITE`, in unsigned 32-bit arithmetic. -/
def SpaceToWrite (b : RingBuf) : Prop :=
  (b.reader ≤ b.writer ∧ maxTupleSz < (b.reader + b.bufEnd + 2 ^ 32 - b.writer) % 2 ^ 32) ∨
    (b.writer < b.reader ∧ maxTupleSz < (b.reader + 2 ^ 32 - b.writer) % 2 ^ 32)

instance (b : RingBuf) : Decidable b.SpaceToWrite := inferInstanceAs (Decidable (_ ∨ _))

/-- `UNREAD` -/
def Unread (b : RingBuf) : Prop := b.reader ≠ b.writer

instance (b : RingBuf) : Decidable b.Unread := inferInstanceAs (Decidable (_ ≠ _))

/-- The posting functions fill in `CURWRITE`. -/
def fillIn (b : RingBuf) (t : Tuple) : RingBuf :=
  let start := store b.start b.writer t.f
  let start := store32 start (b.writer + szOffset) t.data.length
  { b with start := store start (b.writer + tupleHeader) t.data }

/-- `ADVANCEWRITE` -/
def advanceWrite (b : RingBuf) : RingBuf :=
  let sz := load32 b.start (b.writer + szOffset)
  let pos := (b.writer + sz) % 2 ^ 32 + tupleHeader
  let start := store32 b.start (b.writer + nextOffset) (if pos < b.bufEnd then pos else 0)
  { b with writer := load32 start (b.writer + nextOffset), start := start }

def write (b : RingBuf) (t : Tuple) : RingBuf := (b.fillIn t).advanceWrite

/-- What the reader takes from `CURREAD`. -/
def curRead (b : RingBuf) : Tuple where
  f := load b.start b.reader 24
  data := load b.start (b.reader + tupleHeader) (load32 b.start (b.reader + szOffset))
  length_f := length_load

/-- `ADVANCEREAD` -/
def advanceRead (b : RingBuf) : RingBuf :=
  { b with reader := load32 b.start (b.reader + nextOffset) }

end RingBuf

/-! ## Runs -/

/-- A buffer with its history. -/
structure System where
  buf : RingBuf
  /-- The tuples posted so far, with the positions they were written at. -/
  posted : List (Nat × Tuple)
  received : List Tuple

inductive Action
  | write (t : Tuple)
  | read

namespace System

/-- The next state, if the writer finds space for a tuple that may be posted, or the reader one that
is unread. -/
def step (s : System) : Action → Option System
  | .write t =>
    if t.data.length ≤ maxTupleSz ∧ s.buf.SpaceToWrite then
      some { s with buf := s.buf.write t, posted := s.posted ++ [(s.buf.writer, t)] }
    else none
  | .read =>
    if s.buf.Unread then
      some { s with buf := s.buf.advanceRead, received := s.received ++ [s.buf.curRead] }
    else none

/-- The tuples that are still to be read. -/
def pending (s : System) : List (Nat × Tuple) := s.posted.drop s.received.length

/-- The bytes of two tuples have no address in common. -/
def Apart (p q : Nat × Tuple) : Prop := p.1 + p.2.size ≤ q.1 ∨ q.1 + q.2.size ≤ p.1

/-- The tuples are received as they were posted. -/
structure Sound (s : System) : Prop where
  /-- They are read once each, in order, and with the contents written. -/
  received : s.received <+: s.posted.map Prod.snd
  /-- The buffer looks empty just when nothing is left to read. -/
  unread : s.buf.Unread ↔ s.received.length < s.posted.length
  /-- No tuple was written over one that is still to be read. -/
  apart : s.pending.Pairwise Apart
  /-- All bytes written are in the memory of the buffer. -/
  bounds : ∀ p ∈ s.posted, ringbufHeader + p.1 + p.2.size ≤ s.buf.length

/-- The tuple fits with its header: into the memory, and in front of the tuples still to be read. -/
def WriteOk (s : System) : Action → Prop
  | .write t =>
    ringbufHeader + s.buf.writer + t.size ≤ s.buf.length ∧
      (s.buf.reader = 0 → s.buf.writer + t.size < s.buf.bufEnd) ∧
      (s.buf.writer < s.buf.reader → s.buf.writer + t.size < s.buf.reader)
  | .read => True

end System

/-! ## One tuple in the memory -/

theorem Tuple.size_pos (t : Tuple) : 0 < t.size := Nat.succ_pos _

namespace RingBuf

variable {b : RingBuf} {t : Tuple} {p q : Nat × Tuple}

/-- The position after a tuple. -/
def nextPos (b : RingBuf) (p : Nat × Tuple) : Nat :=
  if p.1 + p.2.size < b.bufEnd then p.1 + p.2.size else 0

/-- The memory has the tuple at its position. -/
structure Holds (b : RingBuf) (p : Nat × Tuple) : Prop where
  f : load b.start p.1 24 = p.2.f
  sz : load32 b.start (p.1 + szOffset) = p.2.data.length
  next : load32 b.start (p.1 + nextOffset) = b.nextPos p
  data : load b.start (p.1 + tupleHeader) p.2.data.length = p.2.data

/-- The writer is in the buffer, and the buffer is one that can be. -/
structure Valid (b : RingBuf) : Prop where
  bufEnd : b.bufEnd + maxTupleSz = b.length
  length : b.length < 2 ^ 31
  writer : b.writer < b.bufEnd

theorem nextPos_lt (hb : b.Valid) : b.nextPos p < b.bufEnd := by
  have := hb.writer
  unfold nextPos
  split_ifs
  · assumption
  · omega

theorem nextPos_lt_two_pow (hb : b.Valid) : b.nextPos p < 2 ^ 32 := by
  have := nextPos_lt (p := p) hb
  have := hb.bufEnd
  have := hb.length
  omega

theorem start_fillIn :
    (b.fillIn t).start = store (store32 (store b.start b.writer t.f) (b.writer + szOffset)
      t.data.length) (b.writer + tupleHeader) t.data := rfl

theorem load32_sz_fillIn (ht : t.data.length ≤ maxTupleSz) :
    load32 (b.fillIn t).start (b.writer + szOffset) = t.data.length := by
  rw [start_fillIn, load32_store_of_disjoint, load32_store32]
  · simp only [maxTupleSz] at ht
    omega
  · simp only [szOffset, tupleHeader]
    omega

theorem start_write (hb : b.Valid) (ht : t.data.length ≤ maxTupleSz) :
    (b.write t).start =
      store32 (b.fillIn t).start (b.writer + nextOffset) (b.nextPos (b.writer, t)) := by
  have hmod : (b.writer + t.data.length) % 2 ^ 32 = b.writer + t.data.length := by
    have := hb.writer
    have := hb.bufEnd
    have := hb.length
    exact Nat.mod_eq_of_lt (by omega)
  have hsz := load32_sz_fillIn (b := b) ht
  simp only [write, advanceWrite]
  rw [show (b.fillIn t).writer = b.writer from rfl, hsz, hmod, nextPos, Tuple.size, Nat.add_assoc]
  rfl

@[simp] theorem reader_write : (b.write t).reader = b.reader := by
  simp only [write, advanceWrite, fillIn]

@[simp] theorem bufEnd_write : (b.write t).bufEnd = b.bufEnd := by
  simp only [write, advanceWrite, fillIn]

@[simp] theorem length_write : (b.write t).length = b.length := by
  simp only [write, advanceWrite, fillIn]

@[simp] theorem nextPos_write : (b.write t).nextPos p = b.nextPos p := by
  simp only [nextPos, bufEnd_write]

@[simp] theorem writer_advanceRead : b.advanceRead.writer = b.writer := by
  simp only [advanceRead]

@[simp] theorem bufEnd_advanceRead : b.advanceRead.bufEnd = b.bufEnd := by
  simp only [advanceRead]

@[simp] theorem length_advanceRead : b.advanceRead.length = b.length := by
  simp only [advanceRead]

@[simp] theorem start_advanceRead : b.advanceRead.start = b.start := by
  simp only [advanceRead]

@[simp] theorem nextPos_advanceRead : b.advanceRead.nextPos p = b.nextPos p := by
  simp only [nextPos, bufEnd_advanceRead]

theorem writer_write (hb : b.Valid) (ht : t.data.length ≤ maxTupleSz) :
    (b.write t).writer = b.nextPos (b.writer, t) := by
  have hwriter : (b.write t).writer = load32 (b.write t).start (b.writer + nextOffset) := by
    simp only [write, advanceWrite, fillIn]
  rw [hwriter, start_write hb ht, load32_store32]
  exact nextPos_lt_two_pow hb

/-- A tuple that was written is there. -/
theorem holds_write (hb : b.Valid) (ht : t.data.length ≤ maxTupleSz) :
    (b.write t).Holds (b.writer, t) where
  f := by
    rw [start_write hb ht, load_store32_of_disjoint, start_fillIn, load_store_of_disjoint,
      load_store32_of_disjoint, load_store t.length_f]
    all_goals simp only [szOffset, nextOffset, tupleHeader]; omega
  sz := by
    rw [start_write hb ht, load32_store32_of_disjoint]
    · exact load32_sz_fillIn ht
    · simp only [szOffset, nextOffset]
      omega
  next := by
    rw [start_write hb ht, load32_store32, nextPos_write]
    exact nextPos_lt_two_pow hb
  data := by
    rw [start_write hb ht, load_store32_of_disjoint, start_fillIn, load_store rfl]
    simp only [nextOffset, tupleHeader]
    omega

/-- A tuple elsewhere is not touched. -/
theorem Holds.write (h : b.Holds q) (hb : b.Valid) (ht : t.data.length ≤ maxTupleSz)
    (hapart : System.Apart q (b.writer, t)) : (b.write t).Holds q := by
  simp only [System.Apart, Tuple.size] at hapart
  have hf := t.length_f
  have hload {a n : Nat} (ha : q.1 ≤ a) (han : a + n ≤ q.1 + tupleHeader + q.2.data.length) :
      load (b.write t).start a n = load b.start a n := by
    simp only [tupleHeader] at hapart han
    rw [start_write hb ht, load_store32_of_disjoint, start_fillIn, load_store_of_disjoint,
      load_store32_of_disjoint, load_store_of_disjoint]
    · omega
    all_goals simp only [szOffset, nextOffset, tupleHeader]; omega
  refine ⟨?_, ?_, ?_, ?_⟩
  · rw [hload le_rfl (by simp only [tupleHeader]; omega)]
    exact h.f
  · rw [load32, hload (by omega) (by simp only [szOffset, tupleHeader]; omega)]
    exact h.sz
  · rw [load32, hload (by omega) (by simp only [nextOffset, tupleHeader]; omega), nextPos_write]
    exact h.next
  · rw [hload (by omega) (by omega)]
    exact h.data

/-- The reader takes the tuple that is there. -/
theorem curRead_eq (h : b.Holds (b.reader, t)) : b.curRead = t := by
  obtain ⟨f, data, length_f⟩ := t
  simp only [curRead, Tuple.mk.injEq]
  exact ⟨h.f, h.sz ▸ h.data⟩

theorem reader_advanceRead (h : b.Holds (b.reader, t)) :
    b.advanceRead.reader = b.nextPos (b.reader, t) := by
  simp only [advanceRead]
  exact h.next

theorem Holds.advanceRead (h : b.Holds p) : b.advanceRead.Holds p := by
  refine ⟨?_, ?_, ?_, ?_⟩
  · rw [start_advanceRead]
    exact h.f
  · rw [start_advanceRead]
    exact h.sz
  · rw [start_advanceRead, nextPos_advanceRead]
    exact h.next
  · rw [start_advanceRead]
    exact h.data

theorem Valid.write (hb : b.Valid) (ht : t.data.length ≤ maxTupleSz) : (b.write t).Valid where
  bufEnd := by
    rw [bufEnd_write, length_write]
    exact hb.bufEnd
  length := by
    rw [length_write]
    exact hb.length
  writer := by
    rw [bufEnd_write, writer_write hb ht]
    exact nextPos_lt hb

theorem Valid.advanceRead (hb : b.Valid) : b.advanceRead.Valid where
  bufEnd := by
    rw [bufEnd_advanceRead, length_advanceRead]
    exact hb.bufEnd
  length := by
    rw [length_advanceRead]
    exact hb.length
  writer := by
    rw [writer_advanceRead, bufEnd_advanceRead]
    exact hb.writer

attribute [irreducible] RingBuf.write RingBuf.advanceRead

end RingBuf

/-! ## The tuples that are still to be read -/

/-- The tuples follow each other from the position `lo` to the position `hi`. -/
def Linear : Nat → List (Nat × Tuple) → Nat → Prop
  | lo, [], hi => lo = hi
  | lo, p :: ps, hi => p.1 = lo ∧ Linear (lo + p.2.size) ps hi

namespace Linear

variable {lo hi : Nat} {ps : List (Nat × Tuple)} {p : Nat × Tuple}

theorem le (h : Linear lo ps hi) : lo ≤ hi := by
  induction ps generalizing lo with
  | nil => exact h.le
  | cons p ps ih => exact (Nat.le_add_right _ _).trans (ih h.2)

theorem snoc {t : Tuple} (h : Linear lo ps hi) : Linear lo (ps ++ [(hi, t)]) (hi + t.size) := by
  induction ps generalizing lo with
  | nil =>
    obtain rfl : lo = hi := h
    exact ⟨rfl, rfl⟩
  | cons p ps ih => exact ⟨h.1, ih h.2⟩

theorem mem (h : Linear lo ps hi) (hp : p ∈ ps) : lo ≤ p.1 ∧ p.1 + p.2.size ≤ hi := by
  induction ps generalizing lo with
  | nil => cases hp
  | cons q ps ih =>
    obtain ⟨hq, h⟩ := h
    rcases List.mem_cons.mp hp with rfl | hp
    · exact ⟨hq.ge, hq ▸ h.le⟩
    · obtain ⟨hlo, hhi⟩ := ih h hp
      exact ⟨(Nat.le_add_right _ _).trans hlo, hhi⟩

theorem pairwise (h : Linear lo ps hi) : ps.Pairwise System.Apart := by
  induction ps generalizing lo with
  | nil => exact List.Pairwise.nil
  | cons p ps ih =>
    refine List.pairwise_cons.mpr ⟨fun q hq ↦ .inl ?_, ih h.2⟩
    calc p.1 + p.2.size = lo + p.2.size := by rw [h.1]
      _ ≤ q.1 := (h.2.mem hq).1

/-- There is room between two positions only for tuples. -/
theorem ne_nil (h : Linear lo ps hi) : lo < hi ↔ ps ≠ [] := by
  cases ps with
  | nil => simpa using h.ge
  | cons p ps =>
    have := h.2.le
    have := p.2.size_pos
    simp only [ne_eq, reduceCtorEq, not_false_iff, iff_true]
    omega

end Linear

/-- Where the tuples are that are still to be read: between reader and writer, or from the reader to
the end of the buffer and from the front to the writer. -/
inductive Layout (b : RingBuf) (ps : List (Nat × Tuple)) : Prop
  | straight (h : Linear b.reader ps b.writer)
  | wrapped (ps₁ ps₂ : List (Nat × Tuple)) (p : Nat × Tuple) (hps : ps = ps₁ ++ p :: ps₂)
      (hlt : b.writer < b.reader) (h₁ : Linear b.reader ps₁ p.1) (hp : p.1 < b.bufEnd)
      (hend : b.bufEnd ≤ p.1 + p.2.size) (h₂ : Linear 0 ps₂ b.writer)

namespace Layout

variable {b : RingBuf} {ps : List (Nat × Tuple)} {t : Tuple}

theorem unread (h : Layout b ps) : b.Unread ↔ ps ≠ [] := by
  cases h with
  | straight h =>
    rw [← h.ne_nil]
    have := h.le
    simp only [RingBuf.Unread]
    omega
  | wrapped ps₁ ps₂ p hps hlt h₁ hp hend h₂ =>
    subst hps
    simp only [RingBuf.Unread, ne_eq, List.append_eq_nil_iff, reduceCtorEq, and_false,
      not_false_iff, iff_true]
    omega

theorem pairwise (h : Layout b ps) : ps.Pairwise System.Apart := by
  cases h with
  | straight h => exact h.pairwise
  | wrapped ps₁ ps₂ p hps hlt h₁ hp hend h₂ =>
    subst hps
    have hreader := h₁.le
    refine List.pairwise_append.mpr ⟨h₁.pairwise, List.pairwise_cons.mpr ⟨?_, h₂.pairwise⟩, ?_⟩
    · intro q hq
      have := (h₂.mem hq).2
      exact .inr (by omega)
    · intro r hr q hq
      have hr := h₁.mem hr
      rcases List.mem_cons.mp hq with rfl | hq
      · exact .inl (by omega)
      · have := (h₂.mem hq).2
        exact .inr (by omega)

/-- A tuple that fits is written apart from those still to be read. -/
theorem apart_write (h : Layout b ps)
    (hfit : b.writer < b.reader → b.writer + t.size < b.reader) :
    ∀ q ∈ ps, System.Apart q (b.writer, t) := by
  intro q hq
  simp only [System.Apart]
  cases h with
  | straight h =>
    have := (h.mem hq).2
    exact .inl (by omega)
  | wrapped ps₁ ps₂ p hps hlt h₁ hp hend h₂ =>
    subst hps
    have hfit := hfit hlt
    rcases List.mem_append.mp hq with hq | hq
    · have := (h₁.mem hq).1
      exact .inr (by omega)
    · rcases List.mem_cons.mp hq with rfl | hq
      · have := h₁.le
        exact .inr (by omega)
      · have := (h₂.mem hq).2
        exact .inl (by omega)

theorem write (h : Layout b ps) (hb : b.Valid) (ht : t.data.length ≤ maxTupleSz)
    (hzero : b.reader = 0 → b.writer + t.size < b.bufEnd)
    (hfit : b.writer < b.reader → b.writer + t.size < b.reader) :
    Layout (b.write t) (ps ++ [(b.writer, t)]) := by
  have hwriter := RingBuf.writer_write hb ht
  rw [RingBuf.nextPos] at hwriter
  cases h with
  | straight h =>
    split_ifs at hwriter with hlt
    · refine .straight ?_
      rw [hwriter, RingBuf.reader_write]
      exact h.snoc
    · -- The writer goes back to the front, where the reader is not.
      have : b.reader ≠ 0 := fun h0 ↦ hlt (hzero h0)
      refine .wrapped ps [] (b.writer, t) rfl ?_ ?_ ?_ ?_ hwriter.symm
      · rw [hwriter, RingBuf.reader_write]
        omega
      · rw [RingBuf.reader_write]
        exact h
      · rw [RingBuf.bufEnd_write]
        exact hb.writer
      · rw [RingBuf.bufEnd_write]
        exact Nat.le_of_not_lt hlt
  | wrapped ps₁ ps₂ p hps hlt h₁ hp hend h₂ =>
    subst hps
    have hfit := hfit hlt
    have hle := h₁.le
    rw [if_pos (by simp only; omega)] at hwriter
    refine .wrapped ps₁ (ps₂ ++ [(b.writer, t)]) p (by simp) ?_ ?_ ?_ ?_ ?_
    · rw [hwriter, RingBuf.reader_write]
      exact hfit
    · rw [RingBuf.reader_write]
      exact h₁
    · rw [RingBuf.bufEnd_write]
      exact hp
    · rw [RingBuf.bufEnd_write]
      exact hend
    · rw [hwriter]
      exact h₂.snoc

variable {p : Nat × Tuple}

/-- The reader is at the first of the tuples. -/
theorem head (h : Layout b (p :: ps)) : p.1 = b.reader := by
  cases h with
  | straight h => exact h.1
  | wrapped ps₁ ps₂ q hps hlt h₁ hp hend h₂ =>
    cases ps₁ with
    | nil =>
      obtain rfl : p = q := (List.cons.inj hps).1
      exact h₁.symm
    | cons r ps₁ =>
      obtain rfl : p = r := (List.cons.inj hps).1
      exact h₁.1

theorem advanceRead (h : Layout b (p :: ps)) (hb : b.Valid) (hholds : b.Holds p) :
    Layout b.advanceRead ps := by
  have hhead := h.head
  have hreader : b.advanceRead.reader = b.nextPos p := by
    have hholds : b.Holds (b.reader, p.2) := by rwa [← hhead]
    rw [RingBuf.reader_advanceRead hholds, ← hhead]
  rw [RingBuf.nextPos] at hreader
  cases h with
  | straight h =>
    obtain ⟨-, h⟩ := h
    have := h.le
    have := hb.writer
    rw [if_pos (by omega), hhead] at hreader
    refine .straight ?_
    rw [hreader, RingBuf.writer_advanceRead]
    exact h
  | wrapped ps₁ ps₂ q hps hlt h₁ hp hend h₂ =>
    cases ps₁ with
    | nil =>
      obtain ⟨rfl, rfl⟩ := List.cons.inj hps
      rw [if_neg (Nat.not_lt.mpr hend)] at hreader
      refine .straight ?_
      rw [hreader, RingBuf.writer_advanceRead]
      exact h₂
    | cons r ps₁ =>
      obtain ⟨rfl, rfl⟩ := List.cons.inj hps
      obtain ⟨-, h₁⟩ := h₁
      have := h₁.le
      rw [if_pos (by omega), hhead] at hreader
      refine .wrapped ps₁ ps₂ q rfl ?_ ?_ ?_ ?_ ?_
      · rw [hreader, RingBuf.writer_advanceRead]
        exact hlt.trans_le (Nat.le_add_right _ _)
      · rw [hreader]
        exact h₁
      · rw [RingBuf.bufEnd_advanceRead]
        exact hp
      · rw [RingBuf.bufEnd_advanceRead]
        exact hend
      · rw [RingBuf.writer_advanceRead]
        exact h₂

end Layout

/-! ## The invariant -/

namespace System

variable {s s' : System} {a : Action}

/-- **The invariant** of a buffer, its writer and its reader: what was received is a beginning of
what was posted, and the rest lies in the buffer, one tuple behind the other. -/
structure Inv (s : System) : Prop where
  valid : s.buf.Valid
  received : s.received <+: s.posted.map Prod.snd
  layout : Layout s.buf s.pending
  holds : ∀ p ∈ s.pending, s.buf.Holds p
  bounds : ∀ p ∈ s.posted, ringbufHeader + p.1 + p.2.size ≤ s.buf.length

theorem Inv.length_le (h : s.Inv) : s.received.length ≤ s.posted.length := by
  simpa using h.received.length_le

theorem Inv.sound (h : s.Inv) : s.Sound where
  received := h.received
  unread := by
    rw [h.layout.unread, pending, ne_eq, List.drop_eq_nil_iff, Nat.not_le]
  apart := h.layout.pairwise
  bounds := h.bounds

theorem inv_write {t : Tuple} (h : s.Inv) (ht : t.data.length ≤ maxTupleSz)
    (hok : s.WriteOk (.write t)) :
    ({ s with buf := s.buf.write t, posted := s.posted ++ [(s.buf.writer, t)] } : System).Inv := by
  obtain ⟨hbounds, hzero, hfit⟩ := hok
  have hpending : ({ s with buf := s.buf.write t, posted := s.posted ++ [(s.buf.writer, t)] } :
      System).pending = s.pending ++ [(s.buf.writer, t)] :=
    List.drop_append_of_le_length h.length_le
  refine ⟨h.valid.write ht, ?_, ?_, ?_, ?_⟩
  · rw [List.map_append]
    exact h.received.trans (List.prefix_append _ _)
  · rw [hpending]
    exact h.layout.write h.valid ht hzero hfit
  · rw [hpending, List.forall_mem_append, List.forall_mem_singleton]
    refine ⟨fun q hq ↦ ?_, RingBuf.holds_write h.valid ht⟩
    exact (h.holds q hq).write h.valid ht (h.layout.apart_write hfit q hq)
  · rw [List.forall_mem_append, List.forall_mem_singleton, RingBuf.length_write]
    exact ⟨h.bounds, hbounds⟩

theorem inv_read (h : s.Inv) (hunread : s.buf.Unread) :
    ({ s with buf := s.buf.advanceRead, received := s.received ++ [s.buf.curRead] } :
      System).Inv := by
  have hlt : s.received.length < s.posted.length := h.sound.unread.mp hunread
  have hpending : s.pending = s.posted[s.received.length] ::
    s.posted.drop (s.received.length + 1) :=
    List.drop_eq_getElem_cons hlt
  generalize hp : s.posted[s.received.length] = p at hpending
  have hlayout : Layout s.buf (p :: s.posted.drop (s.received.length + 1)) := hpending ▸ h.layout
  have hholds : s.buf.Holds p := h.holds p (hpending ▸ List.mem_cons_self)
  have hhead := hlayout.head
  have hread : s.buf.curRead = p.2 := by
    refine RingBuf.curRead_eq ?_
    rwa [← hhead]
  have hpending' : ({ s with
      buf := s.buf.advanceRead, received := s.received ++ [s.buf.curRead] } : System).pending =
      s.posted.drop (s.received.length + 1) := by
    simp [pending]
  refine ⟨h.valid.advanceRead, ?_, ?_, ?_, ?_⟩
  · obtain ⟨rest, hrest⟩ := h.received
    have hget : (s.posted.map Prod.snd)[s.received.length]? = some p.2 := by
      rw [List.getElem?_map, List.getElem?_eq_getElem hlt, hp, Option.map_some]
    rw [← hrest, List.getElem?_append_right le_rfl, Nat.sub_self] at hget
    obtain ⟨rest', rfl⟩ : ∃ rest', rest = p.2 :: rest' := by
      cases rest with
      | nil => cases hget
      | cons x xs => exact ⟨xs, by rw [Option.some.inj hget]⟩
    exact ⟨rest', by rw [hread, List.append_assoc]; exact hrest⟩
  · rw [hpending']
    exact hlayout.advanceRead h.valid hholds
  · rw [hpending']
    exact fun q hq ↦ (h.holds q (hpending ▸ List.mem_cons_of_mem p hq)).advanceRead
  · rw [RingBuf.length_advanceRead]
    exact h.bounds

theorem inv_step (h : s.Inv) (hok : s.WriteOk a) (hstep : s.step a = some s') : s'.Inv := by
  cases a with
  | write t =>
    simp only [step] at hstep
    split_ifs at hstep with hguard
    obtain rfl := Option.some.inj hstep
    exact inv_write h hguard.1 hok
  | read =>
    simp only [step] at hstep
    split_ifs at hstep with hguard
    obtain rfl := Option.some.inj hstep
    exact inv_read h hguard

/-- A new buffer. -/
def init (b : RingBuf) : System := ⟨b, [], []⟩

theorem inv_init {b : RingBuf} {length : Nat} {start : Nat → UInt8} (hlength : length < 2 ^ 31)
    (h : RingBuf.createshm length start = some b) : (init b).Inv := by
  unfold RingBuf.createshm at h
  split_ifs at h with hmin
  obtain rfl := Option.some.inj h
  simp only [maxTupleSz] at hmin
  refine ⟨⟨?_, hlength, ?_⟩, List.prefix_rfl, .straight rfl, ?_, ?_⟩
  · simp only [init, maxTupleSz]
    omega
  · simp only [init, maxTupleSz]
    omega
  all_goals exact fun p hp ↦ by cases hp

/-- **The tuples are received as they were posted**, in every run in which each tuple fits with its
header: once each, in order and unchanged, with none written over another that is still to be read
or outside of the memory. -/
theorem sound_of_writeOk {b : RingBuf} {length : Nat} {start : Nat → UInt8} {as : List Action}
    (hlength : length < 2 ^ 31) (hb : RingBuf.createshm length start = some b)
    (h : Lts.Run step WriteOk (init b) as s) : s.Sound :=
  (h.invariant (fun hi hok hstep ↦ inv_step hi hok hstep) (inv_init hlength hb)).sound

/-- Where there is space, a tuple fits whose data is short enough for the two headers. -/
theorem writeOk_of_le {t : Tuple} (h : s.Inv) (hspace : s.buf.SpaceToWrite)
    (ht : ringbufHeader + t.size ≤ maxTupleSz + 1) : s.WriteOk (.write t) := by
  have hwriter := h.valid.writer
  have hend := h.valid.bufEnd
  have hlength := h.valid.length
  simp only [RingBuf.SpaceToWrite, maxTupleSz, ringbufHeader] at *
  refine ⟨?_, fun h0 ↦ ?_, fun hlt ↦ ?_⟩
  · simp only [ringbufHeader]
    omega
  · omega
  · omega

/-! ## Two runs -/

/-- A tuple with so many bytes of data. -/
def filler (n : Nat) : Tuple := ⟨List.replicate 24 0, List.replicate n 0, List.length_replicate⟩

/-- The smallest buffer that can be created. -/
def smallest : RingBuf := ⟨0, 0, 30720, 40960, fun _ ↦ 0⟩

theorem createshm_smallest : RingBuf.createshm 40960 (fun _ ↦ 0) = some smallest := rfl

theorem step_write {t : Tuple} (ht : t.data.length ≤ maxTupleSz) (hspace : s.buf.SpaceToWrite) :
    s.step (.write t) =
      some ⟨s.buf.write t, s.posted ++ [(s.buf.writer, t)], s.received⟩ := by
  simp only [step, if_pos (And.intro ht hspace)]

/-- A tuple of so many bytes moves the writer on. -/
theorem write_filler {b : RingBuf} {n w : Nat} (hb : b.Valid) (hn : n ≤ maxTupleSz)
    (hw : (if b.writer + (n + tupleHeader) < b.bufEnd then b.writer + (n + tupleHeader)
      else 0) = w) :
    (b.write (filler n)).Valid ∧ (b.write (filler n)).writer = w := by
  have hlength : (filler n).data.length = n := List.length_replicate
  have ht : (filler n).data.length ≤ maxTupleSz := hlength.trans_le hn
  refine ⟨hb.write ht, ?_⟩
  rw [RingBuf.writer_write hb ht, RingBuf.nextPos, Tuple.size, hlength]
  exact hw

/-- Two tuples are posted, and one of them is read. -/
theorem sound_filler :
    ∃ s, Lts.Run step WriteOk (init smallest) [.write (filler 3), .write (filler 10000), .read] s ∧
      s.posted.length = 2 ∧ s.received.length = 1 ∧ s.Sound := by
  have hinv₀ := inv_init (by decide) createshm_smallest
  have hok₁ : (init smallest).WriteOk (.write (filler 3)) :=
    writeOk_of_le hinv₀ (by decide) (by decide)
  have hstep₁ := step_write (s := init smallest) (t := filler 3) (by decide) (by decide)
  have hinv₁ := inv_step hinv₀ hok₁ hstep₁
  obtain ⟨-, hwriter₁⟩ := write_filler (n := 3) (w := 35) hinv₀.valid (by decide) (by decide)
  have hdata : (filler 10000).data.length = 10000 := List.length_replicate
  have hspace : (smallest.write (filler 3)).SpaceToWrite := by
    have hwriter₁ : (smallest.write (filler 3)).writer = 35 := hwriter₁
    refine .inl ?_
    rw [hwriter₁, RingBuf.reader_write, RingBuf.bufEnd_write]
    decide
  have hok₂ := writeOk_of_le (t := filler 10000) hinv₁ hspace (by rw [Tuple.size, hdata]; decide)
  have hstep₂ := step_write (s := ⟨_, [(0, filler 3)], []⟩) (hdata.trans_le (by decide)) hspace
  have hinv₂ := inv_step hinv₁ hok₂ hstep₂
  have hunread := hinv₂.sound.unread.mpr (by decide)
  have hrun := ((Lts.Run.single hok₁ hstep₁).snoc hok₂ hstep₂).snoc
    (show WriteOk _ .read from trivial) (if_pos hunread)
  exact ⟨_, hrun, rfl, rfl, sound_of_writeOk (by decide) createshm_smallest hrun⟩

/-- **A full buffer looks empty.**  Three tuples are posted, each into more than `MAXTUPLESZ` bytes
of space; the third one takes the writer back to the reader. -/
theorem exists_not_sound :
    ∃ s, Lts.Run step (fun _ _ ↦ True) (init smallest)
        [.write (filler 10240), .write (filler 10144), .write (filler 10240)] s ∧
      s.posted.length = 3 ∧ s.received = [] ∧ ¬ s.buf.Unread ∧ ¬ s.Sound := by
  have hvalid : smallest.Valid := ⟨rfl, by decide, by decide⟩
  obtain ⟨hvalid₁, hwriter₁⟩ := write_filler (n := 10240) (w := 10272) hvalid le_rfl (by decide)
  set b₁ := smallest.write (filler 10240) with hb₁
  have hend₁ : b₁.bufEnd = 30720 := RingBuf.bufEnd_write
  have hreader₁ : b₁.reader = 0 := RingBuf.reader_write
  obtain ⟨hvalid₂, hwriter₂⟩ := write_filler (n := 10144) (w := 20448) hvalid₁ (by decide)
    (by rw [hwriter₁, hend₁]; decide)
  set b₂ := b₁.write (filler 10144) with hb₂
  have hend₂ : b₂.bufEnd = 30720 := RingBuf.bufEnd_write.trans hend₁
  have hreader₂ : b₂.reader = 0 := RingBuf.reader_write.trans hreader₁
  obtain ⟨-, hwriter₃⟩ := write_filler (n := 10240) (w := 0) hvalid₂ le_rfl
    (by rw [hwriter₂, hend₂]; decide)
  have hreader₃ : (b₂.write (filler 10240)).reader = 0 := RingBuf.reader_write.trans hreader₂
  have hdata (n : Nat) : (filler n).data.length = n := List.length_replicate
  have hspace₁ : b₁.SpaceToWrite := by
    refine .inl ?_
    simp only [hreader₁, hwriter₁, hend₁]
    decide
  have hspace₂ : b₂.SpaceToWrite := by
    refine .inl ?_
    simp only [hreader₂, hwriter₂, hend₂]
    decide
  have hrun₁ : Lts.Run step (fun _ _ ↦ True) (init smallest) [.write (filler 10240)]
      ⟨b₁, [(0, filler 10240)], []⟩ :=
    .single trivial (step_write (hdata _).le (by decide))
  have hrun₂ := hrun₁.snoc trivial (step_write (t := filler 10144)
    ((hdata _).trans_le (by decide)) hspace₁)
  have hrun₃ := hrun₂.snoc trivial (step_write (t := filler 10240) (hdata _).le hspace₂)
  have hempty : ¬ (b₂.write (filler 10240)).Unread := fun h ↦ h (hreader₃.trans hwriter₃.symm)
  exact ⟨_, hrun₃, rfl, rfl, hempty, fun hsound ↦ hempty (hsound.unread.mpr (by decide))⟩

end System

end Tigon.Gscphost
