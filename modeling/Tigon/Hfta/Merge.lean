import Tigon.Lib.Transducer

/-!
# The merge operator

`merge_operator` merges two streams of tuples into one, in the order of a timestamp that both carry.
It keeps one queue, for the tuples of the channel that is ahead, and waits for the other channel;
the functor remembers for each channel the last timestamp that was *posted* for it.  Besides data
tuples there are temporal status tuples, which only promise that the channel has got as far as their
timestamp.

The functor is generated by `mrg_qpn::generate_functor`.  What differs from one merge query to
another is how a timestamp is read from a tuple and written into a status tuple: `MergeSchema`.  The
rest of it is translated here.

* `dataOf_output` says that no tuple is lost or made up before and during a flush, whatever arrives.
* `sorted_output` says that what is put out has non-decreasing timestamps, if each channel is in
  order.
* `mergesOnce_iff` says when a flush is the last one hears of the tuples it puts out: `flush` leaves
  them in the queue.
-/

set_option autoImplicit false

namespace Tigon.Hfta

open List

universe u v

/-- A tuple and the channel it came in, or goes out, on. -/
structure HostTuple (D : Type u) where
  data : D
  channel : Nat
deriving DecidableEq, Repr

/-- How the generated functor reads and writes the merge attribute of a tuple. -/
structure MergeSchema (D : Type u) (T : Type v) where
  /-- The value of the merge attribute. -/
  timestamp : D → T
  isTemporal : D → Bool
  /-- The status tuple that carries a timestamp. -/
  tempStatus : T → D
  /-- The literal that the posted timestamps start with. -/
  minLiteral : T
  outputChannel : Nat
  timestamp_tempStatus : ∀ t, timestamp (tempStatus t) = t
  isTemporal_tempStatus : ∀ t, isTemporal (tempStatus t) = true

attribute [simp] MergeSchema.timestamp_tempStatus MergeSchema.isTemporal_tempStatus

/-- The last timestamp that was posted for each channel. -/
structure Posted (T : Type v) where
  lastPostedTimestamp0 : T
  lastPostedTimestamp1 : T
deriving DecidableEq, Repr

namespace Posted

variable {T : Type v}

def get (p : Posted T) (channel : Nat) : T :=
  if channel = 0 then p.lastPostedTimestamp0 else p.lastPostedTimestamp1

def set (p : Posted T) (channel : Nat) (t : T) : Posted T :=
  if channel = 0 then { p with lastPostedTimestamp0 := t } else { p with lastPostedTimestamp1 := t }

variable (p : Posted T) {c c' : Nat} (t : T)

@[simp] theorem get_set_self : (p.set c t).get c = t := by
  unfold get set
  split <;> rfl

theorem set_get : p.set c (p.get c) = p := by
  unfold get set
  split <;> rfl

theorem get_set_other (hc : c ≤ 1) : (p.set c t).get (1 - c) = p.get (1 - c) := by
  have : c = 0 ∨ c = 1 := by omega
  rcases this with rfl | rfl <;> rfl

end Posted

/-- `waitChannel` is the channel that the operator wants to hear from next, and `none` if it does
not care (`-1` in the source). -/
structure MergeOperator (D : Type u) (T : Type v) where
  waitChannel : Option Nat
  mergeQueue : List (HostTuple D)
  posted : Posted T
deriving DecidableEq

namespace MergeOperator

variable {D : Type u} {T : Type v} [LinearOrder T] (sch : MergeSchema D T)

def init : MergeOperator D T where
  waitChannel := none
  mergeQueue := []
  posted := ⟨sch.minLiteral, sch.minLiteral⟩

/-- A tuple as it is put out. -/
def post (tup : HostTuple D) : HostTuple D := { tup with channel := sch.outputChannel }

/-- `create_temp_status_tuple`, with the least of the posted timestamps. -/
def getTempStatus (op : MergeOperator D T) : HostTuple D where
  data := sch.tempStatus
    (if op.posted.lastPostedTimestamp0 < op.posted.lastPostedTimestamp1 then
      op.posted.lastPostedTimestamp0 else op.posted.lastPostedTimestamp1)
  channel := sch.outputChannel

/-- `update_temp_status` and `update_stored_temp_status`. -/
def updateTempStatus (op : MergeOperator D T) (tup : HostTuple D) : MergeOperator D T :=
  { op with posted := op.posted.set tup.channel (sch.timestamp tup.data) }

def appendTuple (op : MergeOperator D T) (tup : HostTuple D) : MergeOperator D T :=
  { op with mergeQueue := op.mergeQueue ++ [tup] }

/-- The first tuple of the queue, if there is one, is posted. -/
def postFront (queue : List (HostTuple D)) (p : Posted T) : Posted T :=
  queue.head?.elim p fun next ↦ p.set next.channel (sch.timestamp next.data)

/-- The loop of `purge_queue`: the rest of the queue, the posted timestamps and the tuples put out.
The tuple that is the next one in the queue is posted before it is looked at. -/
def purgeLoop (channel : Nat) :
    List (HostTuple D) → Posted T → List (HostTuple D) × Posted T × List (HostTuple D)
  | [], p => ([], p, [])
  | top :: queue, p =>
    if sch.timestamp top.data ≤ p.get (1 - channel) then
      let p := p.set top.channel (sch.timestamp top.data)
      let r := purgeLoop channel queue (postFront sch queue p)
      (r.1, r.2.1, post sch top :: r.2.2)
    else (top :: queue, p, [])

def purgeQueue (op : MergeOperator D T) (channel : Nat) :
    MergeOperator D T × List (HostTuple D) :=
  let r := purgeLoop sch channel op.mergeQueue op.posted
  ({ op with mergeQueue := r.1, posted := r.2.1 }, r.2.2)

/-- The first tuple after an idle time is posted. -/
def postFirst (op : MergeOperator D T) (tup : HostTuple D) : MergeOperator D T :=
  if op.waitChannel = none then op.updateTempStatus sch tup else op

/-- `accept_tuple` for a tuple of the channel that the operator does not wait for. -/
def acceptUnawaited (op : MergeOperator D T) (tup : HostTuple D) :
    MergeOperator D T × List (HostTuple D) :=
  let op := op.postFirst sch tup
  let wait := some (1 - tup.channel)
  if sch.isTemporal tup.data then ({ op with waitChannel := wait }, [])
  else if sch.timestamp tup.data ≤ op.posted.get (1 - tup.channel) then
    ({ op with waitChannel := wait }, [post sch tup])
  else ({ op.appendTuple tup with waitChannel := wait }, [])

/-- `accept_tuple` for a tuple of the channel that the operator waits for. -/
def acceptAwaited (op : MergeOperator D T) (tup : HostTuple D) :
    MergeOperator D T × List (HostTuple D) :=
  let r := (op.updateTempStatus sch tup).purgeQueue sch (1 - tup.channel)
  if sch.timestamp tup.data ≤ r.1.posted.get (1 - tup.channel) then
    (r.1, if sch.isTemporal tup.data then r.2 else r.2 ++ [post sch tup])
  else
    ({ (if sch.isTemporal tup.data then r.1 else r.1.appendTuple tup) with
        waitChannel := some (1 - tup.channel) }, r.2)

/-- The tuple is of one of the two channels and not out of order. -/
def Accepts (op : MergeOperator D T) (tup : HostTuple D) : Prop :=
  tup.channel ≤ 1 ∧ op.posted.get tup.channel ≤ sch.timestamp tup.data

instance (op : MergeOperator D T) (tup : HostTuple D) : Decidable (op.Accepts sch tup) :=
  inferInstanceAs (Decidable (_ ∧ _))

/-- The end of `accept_tuple`: a status tuple is answered by a status tuple. -/
def finish (tup : HostTuple D) (r : MergeOperator D T × List (HostTuple D)) :
    MergeOperator D T × List (HostTuple D) :=
  (if r.1.mergeQueue = [] then { r.1 with waitChannel := none } else r.1,
    if sch.isTemporal tup.data then r.2 ++ [r.1.getTempStatus sch] else r.2)

def acceptTuple (op : MergeOperator D T) (tup : HostTuple D) :
    MergeOperator D T × List (HostTuple D) :=
  if tup.channel > 1 then (op, [])
  else if sch.timestamp tup.data < op.posted.get tup.channel then (op, [])
  else if op.waitChannel = some tup.channel then finish sch tup (op.acceptAwaited sch tup)
  else finish sch tup (op.acceptUnawaited sch tup)

/-- The queue is put out, and stays as it is. -/
def flush (op : MergeOperator D T) : MergeOperator D T × List (HostTuple D) :=
  (op.mergeQueue.foldl (updateTempStatus sch) op, op.mergeQueue.map (post sch))

/-! ## Runs -/

/-- The operator after the tuples have arrived, and what it has put out. -/
abbrev run (op : MergeOperator D T) (tups : List (HostTuple D)) :
    MergeOperator D T × List (HostTuple D) :=
  Transducer.run (acceptTuple sch) op tups

/-- The data tuple that a tuple is, if it is one. -/
def newData (tup : HostTuple D) : List D := if sch.isTemporal tup.data then [] else [tup.data]

/-- The data tuples that were accepted on the way. -/
def accepted (op : MergeOperator D T) (tups : List (HostTuple D)) : List D :=
  Transducer.log (acceptTuple sch)
    (fun op tup ↦ if op.Accepts sch tup then newData sch tup else []) op tups

/-- What is put out while the tuples arrive, and by a flush after them. -/
def output (op : MergeOperator D T) (tups : List (HostTuple D)) : List (HostTuple D) :=
  (op.run sch tups).2 ++ ((op.run sch tups).1.flush sch).2

/-- The operator after the tuples have arrived and a flush. -/
def flushed (op : MergeOperator D T) (tups : List (HostTuple D)) : MergeOperator D T :=
  ((op.run sch tups).1.flush sch).1

/-- The data tuples among the tuples put out. -/
def dataOf (tups : List (HostTuple D)) : List D :=
  (tups.map HostTuple.data).filter fun d ↦ !sch.isTemporal d

/-- Each channel delivers its tuples in non-decreasing order. -/
def InOrder (tups : List (HostTuple D)) : Prop :=
  tups.Pairwise fun t t' ↦ t.channel = t'.channel → sch.timestamp t.data ≤ sch.timestamp t'.data

instance (tups : List (HostTuple D)) : Decidable (InOrder sch tups) :=
  inferInstanceAs (Decidable (tups.Pairwise _))

/-! ## No tuple is lost or made up -/

section Data

omit [LinearOrder T]

/-- The data tuples in the queue. -/
def queued (op : MergeOperator D T) : Multiset D := ↑(op.mergeQueue.map HostTuple.data)

/-- Only data tuples are queued. -/
def QueuesData (op : MergeOperator D T) : Prop :=
  ∀ t ∈ op.mergeQueue, sch.isTemporal t.data = false

variable {sch} {tup : HostTuple D}

@[simp] theorem dataOf_nil : dataOf sch ([] : List (HostTuple D)) = [] := rfl

@[simp] theorem dataOf_append (ts ts' : List (HostTuple D)) :
    dataOf sch (ts ++ ts') = dataOf sch ts ++ dataOf sch ts' := by
  simp [dataOf]

theorem dataOf_map_post (ts : List (HostTuple D)) (hts : ∀ t ∈ ts, sch.isTemporal t.data = false) :
    dataOf sch (ts.map (post sch)) = ts.map HostTuple.data := by
  rw [dataOf, map_map]
  refine filter_eq_self.mpr fun d hd ↦ ?_
  obtain ⟨t, ht, rfl⟩ := mem_map.mp hd
  simp [post, hts t ht]

theorem dataOf_post (h : sch.isTemporal tup.data = false) :
    dataOf sch [post sch tup] = newData sch tup := by
  simp [dataOf, post, newData, h]

theorem newData_of_temporal (h : sch.isTemporal tup.data = true) : newData sch tup = [] :=
  if_pos h

end Data

variable {sch} {op : MergeOperator D T} {tup : HostTuple D} {tups : List (HostTuple D)}

@[simp] theorem dataOf_getTempStatus : dataOf sch [op.getTempStatus sch] = [] := by
  simp [dataOf, getTempStatus]

/-- A purge takes a stretch off the front of the queue and puts it out. -/
theorem exists_purgeLoop (sch : MergeSchema D T) (channel : Nat) (queue : List (HostTuple D))
    (p : Posted T) : ∃ popped, queue = popped ++ (purgeLoop sch channel queue p).1 ∧
      (purgeLoop sch channel queue p).2.2 = popped.map (post sch) := by
  induction queue generalizing p with
  | nil => exact ⟨[], rfl, rfl⟩
  | cons top queue ih =>
    rw [purgeLoop]
    split
    · obtain ⟨popped, hpopped, hout⟩ :=
        ih (postFront sch queue (p.set top.channel (sch.timestamp top.data)))
      refine ⟨top :: popped, ?_, ?_⟩
      · rw [cons_append]
        exact congrArg (top :: ·) hpopped
      · rw [map_cons]
        exact congrArg (post sch top :: ·) hout
    · exact ⟨[], rfl, rfl⟩

/-- The data tuples that are put out and those that are left in the queue are those that were in
the queue and the new ones. -/
structure Conserves (sch : MergeSchema D T) (op : MergeOperator D T) (new : List D)
    (r : MergeOperator D T × List (HostTuple D)) : Prop where
  sum : (dataOf sch r.2 : Multiset D) + r.1.queued = op.queued + new
  queuesData : QueuesData sch r.1

theorem conserves_purgeQueue (op : MergeOperator D T) (hq : QueuesData sch op) (channel : Nat) :
    Conserves sch op [] (op.purgeQueue sch channel) := by
  obtain ⟨popped, hpopped, hout⟩ := exists_purgeLoop sch channel op.mergeQueue op.posted
  have hq' : ∀ t ∈ popped ++ (purgeLoop sch channel op.mergeQueue op.posted).1,
      sch.isTemporal t.data = false := fun t ht ↦ hq t (hpopped.symm ▸ ht)
  refine ⟨?_, fun t ht ↦ hq' t (mem_append_right _ ht)⟩
  rw [purgeQueue, queued, queued]
  simp only [hout]
  rw [dataOf_map_post popped fun t ht ↦ hq' t (mem_append_left _ ht), Multiset.coe_add,
    ← map_append, ← hpopped]
  simp

variable {r : MergeOperator D T × List (HostTuple D)}

omit [LinearOrder T] in
theorem Conserves.put (h : Conserves sch op [] r)
    (htup : sch.isTemporal tup.data = false) :
    Conserves sch op (newData sch tup) (r.1, r.2 ++ [post sch tup]) where
  sum := by
    have hsum := h.sum
    simp only [Multiset.coe_nil, add_zero] at hsum
    rw [dataOf_append, dataOf_post htup, ← Multiset.coe_add, ← hsum]
    abel
  queuesData := h.queuesData

omit [LinearOrder T] in
theorem Conserves.appendTuple {wait : Option Nat}
    (h : Conserves sch op [] r) (htup : sch.isTemporal tup.data = false) :
    Conserves sch op (newData sch tup) ({ r.1.appendTuple tup with waitChannel := wait }, r.2) where
  sum := by
    have hsum := h.sum
    simp only [Multiset.coe_nil, add_zero] at hsum
    have hq : queued { r.1.appendTuple tup with waitChannel := wait } =
        r.1.queued + (newData sch tup : Multiset D) := by
      simp [queued, MergeOperator.appendTuple, newData, htup, ← Multiset.coe_add]
    rw [hq, ← add_assoc, hsum]
  queuesData t ht := by
    rcases mem_append.mp ht with ht | ht
    · exact h.queuesData t ht
    · rw [mem_singleton.mp ht]
      exact htup

theorem conserves_acceptUnawaited (hq : QueuesData sch op) :
    Conserves sch op (newData sch tup) (op.acceptUnawaited sch tup) := by
  have hstart : Conserves sch op [] (op.postFirst sch tup, []) := by
    rw [postFirst]
    split <;> exact ⟨by simp [queued, updateTempStatus], hq⟩
  rw [acceptUnawaited]
  cases htemp : sch.isTemporal tup.data with
  | true =>
    rw [newData_of_temporal htemp]
    exact ⟨hstart.sum, hstart.queuesData⟩
  | false =>
    simp only [Bool.false_eq_true, if_false]
    split
    · exact ⟨(hstart.put htemp).sum, hstart.queuesData⟩
    · exact hstart.appendTuple htemp

theorem conserves_acceptAwaited (hq : QueuesData sch op) :
    Conserves sch op (newData sch tup) (op.acceptAwaited sch tup) := by
  have hpurge := conserves_purgeQueue (op.updateTempStatus sch tup) hq (1 - tup.channel)
  have hstart : Conserves sch op []
      ((op.updateTempStatus sch tup).purgeQueue sch (1 - tup.channel)) :=
    ⟨hpurge.sum, hpurge.queuesData⟩
  rw [acceptAwaited]
  cases htemp : sch.isTemporal tup.data with
  | true =>
    rw [newData_of_temporal htemp]
    split
    · exact hstart
    · exact ⟨hstart.sum, hstart.queuesData⟩
  | false =>
    simp only [Bool.false_eq_true, if_false]
    split
    · exact hstart.put htemp
    · exact hstart.appendTuple htemp

theorem acceptTuple_of_not_accepts (h : ¬ op.Accepts sch tup) : op.acceptTuple sch tup =
    (op, []) := by
  rw [acceptTuple]
  by_cases hchannel : tup.channel > 1
  · rw [if_pos hchannel]
  · rw [if_neg hchannel, if_pos]
    exact not_le.mp fun horder ↦ h ⟨Nat.not_lt.mp hchannel, horder⟩

theorem acceptTuple_of_accepts (h : op.Accepts sch tup) :
    op.acceptTuple sch tup = finish sch tup
      (if op.waitChannel = some tup.channel then op.acceptAwaited sch tup
        else op.acceptUnawaited sch tup) := by
  rw [acceptTuple, if_neg (Nat.not_lt.mpr h.1), if_neg (not_lt.mpr h.2)]
  split <;> rfl

theorem Conserves.finish {new : List D}
    (h : Conserves sch op new r) : Conserves sch op new (finish sch tup r) := by
  have hqueue : (MergeOperator.finish sch tup r).1.mergeQueue = r.1.mergeQueue := by
    rw [MergeOperator.finish]
    split <;> rfl
  have hdata : dataOf sch (MergeOperator.finish sch tup r).2 = dataOf sch r.2 := by
    simp only [MergeOperator.finish]
    split <;> simp
  refine ⟨?_, fun t ht ↦ h.queuesData t (hqueue ▸ ht)⟩
  rw [hdata, queued, hqueue]
  exact h.sum

theorem conserves_acceptTuple (hq : QueuesData sch op) (tup : HostTuple D) :
    Conserves sch op (if op.Accepts sch tup then newData sch tup else [])
      (op.acceptTuple sch tup) := by
  by_cases h : op.Accepts sch tup
  · rw [if_pos h, acceptTuple_of_accepts h]
    refine Conserves.finish ?_
    split
    · exact conserves_acceptAwaited hq
    · exact conserves_acceptUnawaited hq
  · rw [if_neg h, acceptTuple_of_not_accepts h]
    exact ⟨by simp, hq⟩

theorem conserves_run (hq : QueuesData sch op) (tups : List (HostTuple D)) :
    Conserves sch op (op.accepted sch tups) (op.run sch tups) := by
  induction tups using reverseRecOn with
  | nil => exact ⟨by simp [accepted], hq⟩
  | append_singleton tups tup ih =>
    have hstep := conserves_acceptTuple ih.queuesData tup
    have hsum := ih.sum
    rw [run, accepted, Transducer.run_snoc, Transducer.log_snoc]
    refine ⟨?_, hstep.queuesData⟩
    rw [dataOf_append, ← Multiset.coe_add, add_assoc, hstep.sum, ← add_assoc, hsum, add_assoc,
      ← Multiset.coe_add]
    rfl

/-- **No tuple is lost or made up.**  The data tuples that are put out, up to and including a flush,
are those that were in the queue and those that were accepted. -/
theorem dataOf_output (hq : QueuesData sch op) (tups : List (HostTuple D)) :
    (dataOf sch (op.output sch tups) : Multiset D) = op.queued + op.accepted sch tups := by
  have h := conserves_run hq tups
  rw [output, dataOf_append, flush, dataOf_map_post _ h.queuesData, ← Multiset.coe_add]
  exact h.sum

/-! ## The order -/

/-- The first tuple of a queue of one channel. -/
def Front (sch : MergeSchema D T) (queue : List (HostTuple D)) (t : T) : Prop :=
  ∀ top ∈ queue.head?, t = sch.timestamp top.data

/-- The timestamps do not decrease. -/
def Sorted (sch : MergeSchema D T) (tups : List (HostTuple D)) : Prop :=
  tups.Pairwise fun t t' ↦ sch.timestamp t.data ≤ sch.timestamp t'.data

variable {queue : List (HostTuple D)}

omit [LinearOrder T] in
/-- Posting the first tuple of a queue of one channel. -/
theorem front_postFront {c : Nat} (p : Posted T)
    (hqc : ∀ t ∈ queue, t.channel = c) : Front sch queue ((postFront sch queue p).get c) := by
  intro top htop
  rw [postFront, Option.mem_def.mp htop, Option.elim_some,
    hqc top (mem_of_mem_head? htop), Posted.get_set_self]

omit [LinearOrder T] in
theorem postFront_other {c : Nat} (hc : c ≤ 1) (p : Posted T)
    (hqc : ∀ t ∈ queue, t.channel = c) :
    (postFront sch queue p).get (1 - c) = p.get (1 - c) := by
  rw [postFront]
  cases queue with
  | nil => rfl
  | cons top queue =>
    rw [head?_cons, Option.elim_some, hqc top mem_cons_self, p.get_set_other _ hc]

theorem le_postFront {c : Nat} {p : Posted T}
    (hqc : ∀ t ∈ queue, t.channel = c) (hle : ∀ t ∈ queue, p.get c ≤ sch.timestamp t.data) :
    p.get c ≤ (postFront sch queue p).get c := by
  rw [postFront]
  cases queue with
  | nil => exact le_rfl
  | cons top queue =>
    rw [head?_cons, Option.elim_some, hqc top mem_cons_self, Posted.get_set_self]
    exact hle top mem_cons_self

/-- What a purge does to a sorted queue of one channel, whose first tuple is posted. -/
structure Purged (sch : MergeSchema D T) (c : Nat) (p : Posted T) (popped : List (HostTuple D))
    (r : List (HostTuple D) × Posted T × List (HostTuple D)) : Prop where
  out : r.2.2 = popped.map (post sch)
  /-- The tuples that are popped are not beyond what the other channel has posted, ... -/
  le : ∀ t ∈ popped, sch.timestamp t.data ≤ p.get (1 - c)
  le_posted : ∀ t ∈ popped, sch.timestamp t.data ≤ r.2.1.get c
  mono : p.get c ≤ r.2.1.get c
  other : r.2.1.get (1 - c) = p.get (1 - c)
  front : Front sch r.1 (r.2.1.get c)
  /-- ... and the first one that is left is. -/
  lt : ∀ t ∈ r.1.head?, p.get (1 - c) < sch.timestamp t.data

theorem Purged.cons {c : Nat} {p p' : Posted T} {popped : List (HostTuple D)} {top : HostTuple D}
    {r : List (HostTuple D) × Posted T × List (HostTuple D)} (h : Purged sch c p' popped r)
    (hle : sch.timestamp top.data ≤ p.get (1 - c)) (hposted : p.get c = sch.timestamp top.data)
    (hmono : p.get c ≤ p'.get c) (hother : p'.get (1 - c) = p.get (1 - c)) :
    Purged sch c p (top :: popped) (r.1, r.2.1, post sch top :: r.2.2) where
  out := by rw [map_cons, h.out]
  le := forall_mem_cons.mpr ⟨hle, fun t ht ↦ hother ▸ h.le t ht⟩
  le_posted := forall_mem_cons.mpr
    ⟨hposted.symm.le.trans (hmono.trans h.mono), h.le_posted⟩
  mono := hmono.trans h.mono
  other := h.other.trans hother
  front := h.front
  lt t ht := hother ▸ h.lt t ht

theorem exists_purged {c : Nat} (hc : c ≤ 1) (queue : List (HostTuple D)) (p : Posted T)
    (hqc : ∀ t ∈ queue, t.channel = c) (hsorted : Sorted sch queue)
    (hfront : Front sch queue (p.get c)) :
    ∃ popped, queue = popped ++ (purgeLoop sch c queue p).1 ∧
      Purged sch c p popped (purgeLoop sch c queue p) := by
  induction queue generalizing p with
  | nil => exact ⟨[], rfl, by constructor <;> simp [purgeLoop, Front]⟩
  | cons top queue ih =>
    obtain ⟨htop, hqc⟩ := forall_mem_cons.mp hqc
    obtain ⟨hmin, hsorted⟩ := pairwise_cons.mp hsorted
    have hposted : p.get c = sch.timestamp top.data := hfront top rfl
    rw [purgeLoop]
    split
    case isTrue hle =>
      -- The first tuple goes out, and the one behind it is posted.
      have hset : p.set top.channel (sch.timestamp top.data) = p := by
        rw [htop, ← hposted]
        exact p.set_get
      simp only [hset]
      obtain ⟨popped, hpopped, hpurged⟩ :=
        ih (postFront sch queue p) hqc hsorted (front_postFront p hqc)
      exact ⟨top :: popped, congrArg (top :: ·) hpopped, hpurged.cons hle hposted
        (le_postFront hqc fun t ht ↦ hposted.le.trans (hmin t ht)) (postFront_other hc p hqc)⟩
    case isFalse hlt =>
      refine ⟨[], rfl, ?_⟩
      constructor
      case front => exact hfront
      case lt =>
        intro t ht
        obtain rfl := Option.some_inj.mp ht
        exact not_le.mp hlt
      all_goals simp

/-- The operator waits for the channel `w`: it queues tuples of the other channel, all of them
beyond what was posted for `w`, and the first of them is posted. -/
structure Awaits (sch : MergeSchema D T) (op : MergeOperator D T) (w : Nat) : Prop where
  le_one : w ≤ 1
  channel : ∀ t ∈ op.mergeQueue, t.channel = 1 - w
  lt : ∀ t ∈ op.mergeQueue, op.posted.get w < sch.timestamp t.data
  front : Front sch op.mergeQueue (op.posted.get (1 - w))

/-- Nothing that was put out is beyond what was posted for either channel. -/
structure Ordered (sch : MergeSchema D T) (ins outs : List (HostTuple D)) (op : MergeOperator D T) :
    Prop where
  awaits : op.mergeQueue ≠ [] → ∃ w, op.waitChannel = some w ∧ Awaits sch op w
  sorted : Sorted sch op.mergeQueue
  mem : ∀ t ∈ op.mergeQueue, t ∈ ins
  out : Sorted sch outs
  out_le : ∀ c ≤ 1, ∀ o ∈ outs, sch.timestamp o.data ≤ op.posted.get c

/-- The invariant of a run: the operator waits if and only if it has tuples in its queue. -/
structure Inv (sch : MergeSchema D T) (ins outs : List (HostTuple D)) (op : MergeOperator D T) :
    Prop extends Ordered sch ins outs op where
  idle : op.mergeQueue = [] → op.waitChannel = none

theorem inv_init : Inv sch [] [] (init sch) where
  awaits h := absurd rfl h
  sorted := List.Pairwise.nil
  mem _ ht := absurd ht not_mem_nil
  out := List.Pairwise.nil
  out_le _ _ _ ho := absurd ho not_mem_nil
  idle _ := rfl

theorem le_of_le_other {P : Nat → Prop} {c c' : Nat} (hc : c ≤ 1) (hc' : c' ≤ 1) (h : P c)
    (h' : P (1 - c)) : P c' := by
  have : c' = c ∨ c' = 1 - c := by omega
  rcases this with rfl | rfl
  · exact h
  · exact h'

theorem Sorted.snoc {outs : List (HostTuple D)} {o : HostTuple D} (h : Sorted sch outs)
    (ho : ∀ o' ∈ outs, sch.timestamp o'.data ≤ sch.timestamp o.data) :
      Sorted sch (outs ++ [o]) := by
  refine pairwise_append.mpr ⟨h, pairwise_singleton _ _, fun o' ho' o'' ho'' ↦ ?_⟩
  rw [mem_singleton.mp ho'']
  exact ho o' ho'

variable {ins outs : List (HostTuple D)}

/-- The answer to a status tuple is not below anything that was put out. -/
theorem Ordered.snoc_getTempStatus (h : Ordered sch ins outs op) :
    Sorted sch (outs ++ [op.getTempStatus sch]) ∧
      ∀ c ≤ 1, sch.timestamp (op.getTempStatus sch).data ≤ op.posted.get c := by
  have hstatus : sch.timestamp (op.getTempStatus sch).data = min (op.posted.get 0)
    (op.posted.get 1) := by
    rw [getTempStatus, sch.timestamp_tempStatus]
    exact (min_def_lt _ _).symm
  refine ⟨h.out.snoc fun o ho ↦ ?_, fun c hc ↦ ?_⟩
  · rw [hstatus]
    exact le_min (h.out_le 0 (by omega) o ho) (h.out_le 1 le_rfl o ho)
  · rw [hstatus]
    exact le_of_le_other (P := fun c ↦ min (op.posted.get 0) (op.posted.get 1) ≤ op.posted.get c)
      (Nat.zero_le 1) hc (min_le_left _ _) (min_le_right _ _)

theorem Ordered.finish
    (h : Ordered sch ins (outs ++ r.2) r.1) :
    Inv sch ins (outs ++ (finish sch tup r).2) (finish sch tup r).1 := by
  obtain ⟨hsorted, hle⟩ := h.snoc_getTempStatus
  have hout : Sorted sch (outs ++ (MergeOperator.finish sch tup r).2) ∧
      ∀ c ≤ 1, ∀ o ∈ outs ++ (MergeOperator.finish sch tup r).2,
        sch.timestamp o.data ≤ r.1.posted.get c := by
    simp only [MergeOperator.finish]
    split
    · rw [← append_assoc]
      refine ⟨hsorted, fun c hc o ho ↦ ?_⟩
      rcases mem_append.mp ho with ho | ho
      · exact h.out_le c hc o ho
      · rw [mem_singleton.mp ho]
        exact hle c hc
    · exact ⟨h.out, h.out_le⟩
  by_cases hnil : r.1.mergeQueue = []
  · have hop : (MergeOperator.finish sch tup r).1 = { r.1 with waitChannel := none } := if_pos hnil
    rw [hop]
    exact ⟨⟨fun hne ↦ absurd hnil hne, h.sorted, h.mem, hout.1, hout.2⟩, fun _ ↦ rfl⟩
  · have hop : (MergeOperator.finish sch tup r).1 = r.1 := if_neg hnil
    rw [hop]
    exact ⟨⟨h.awaits, h.sorted, h.mem, hout.1, hout.2⟩, fun hnil' ↦ absurd hnil' hnil⟩

theorem Ordered.mono (h : Ordered sch ins outs op) :
    Ordered sch (ins ++ [tup]) outs op :=
  { h with mem := fun t ht ↦ mem_append_left _ (h.mem t ht) }

/-- A tuple that arrives while the operator does not care which channel is next. -/
theorem ordered_acceptUnawaited_idle (hi : Inv sch ins outs op)
    (haccepts : op.Accepts sch tup) (hidle : op.waitChannel = none) :
    Ordered sch (ins ++ [tup]) (outs ++ (op.acceptUnawaited sch tup).2)
      (op.acceptUnawaited sch tup).1 := by
  obtain ⟨hchannel, horder⟩ := haccepts
  have hnil : op.mergeQueue = [] := by
    by_contra hne
    obtain ⟨w, hw, -⟩ := hi.awaits hne
    rw [hidle] at hw
    cases hw
  have hle : ∀ c ≤ 1, ∀ o ∈ outs, sch.timestamp o.data ≤
      (op.posted.set tup.channel (sch.timestamp tup.data)).get c := by
    intro c hc o ho
    refine le_of_le_other (P := fun c ↦ sch.timestamp o.data ≤
      (op.posted.set tup.channel (sch.timestamp tup.data)).get c) hchannel hc ?_ ?_
    · rw [Posted.get_set_self]
      exact (hi.out_le _ hchannel o ho).trans horder
    · rw [Posted.get_set_other _ _ hchannel]
      exact hi.out_le _ (by omega) o ho
  simp only [acceptUnawaited, postFirst, if_pos hidle, updateTempStatus]
  split_ifs with htemp hput
  · rw [append_nil]
    exact ⟨fun hne ↦ absurd hnil hne, hi.sorted, fun t ht ↦ mem_append_left _ (hi.mem t ht),
      hi.out, hle⟩
  · refine ⟨fun hne ↦ absurd hnil hne, hi.sorted, fun t ht ↦ mem_append_left _ (hi.mem t ht),
      hi.out.snoc fun o ho ↦ ?_, fun c hc o ho ↦ ?_⟩
    · exact (hi.out_le _ hchannel o ho).trans horder
    · rcases mem_append.mp ho with ho | ho
      · exact hle c hc o ho
      · rw [mem_singleton.mp ho]
        exact le_of_le_other (P := fun c ↦ sch.timestamp tup.data ≤
          (op.posted.set tup.channel (sch.timestamp tup.data)).get c) hchannel hc
          (Posted.get_set_self _ _).symm.le hput
  · -- The tuple is the first one of a queue.
    simp only [appendTuple, hnil, nil_append, append_nil]
    refine ⟨fun _ ↦ ⟨1 - tup.channel, rfl, by omega, ?_, ?_, ?_⟩, pairwise_singleton _ _, ?_,
      hi.out, hle⟩
    · intro t ht
      rw [mem_singleton.mp ht]
      omega
    · intro t ht
      rw [mem_singleton.mp ht]
      exact not_le.mp hput
    · intro top htop
      obtain rfl := Option.some_inj.mp htop
      rw [Nat.sub_sub_self hchannel]
      exact Posted.get_set_self _ _
    · intro t ht
      exact mem_append_right _ ht

/-- A tuple of the channel that is ahead goes to the end of the queue. -/
theorem ordered_acceptUnawaited_ahead {w : Nat}
    (hi : Inv sch ins outs op) (haccepts : op.Accepts sch tup)
    (hin : ∀ t ∈ ins, t.channel = tup.channel → sch.timestamp t.data ≤ sch.timestamp tup.data)
    (hwait : op.waitChannel = some w) (hw : w ≠ tup.channel) :
    Ordered sch (ins ++ [tup]) (outs ++ (op.acceptUnawaited sch tup).2)
      (op.acceptUnawaited sch tup).1 := by
  have hne : op.mergeQueue ≠ [] := by
    intro hnil
    rw [hi.idle hnil] at hwait
    cases hwait
  obtain ⟨w', hw', hawaits⟩ := hi.awaits hne
  obtain rfl : w' = w := Option.some_inj.mp (hw'.symm.trans hwait)
  have hchannel := haccepts.1
  have hle_one := hawaits.le_one
  obtain rfl : w' = 1 - tup.channel := by omega
  have hlast : ∀ t ∈ op.mergeQueue, sch.timestamp t.data ≤ sch.timestamp tup.data := fun t ht ↦
    hin t (hi.mem t ht) ((hawaits.channel t ht).trans (Nat.sub_sub_self hchannel))
  have hnot : ¬ sch.timestamp tup.data ≤ op.posted.get (1 - tup.channel) := by
    obtain ⟨t, ht⟩ := exists_mem_of_ne_nil _ hne
    exact not_le.mpr ((hawaits.lt t ht).trans_le (hlast t ht))
  have hnone : op.waitChannel ≠ none := fun h ↦ by cases h.symm.trans hwait
  simp only [acceptUnawaited, postFirst, if_neg hnone, if_neg hnot]
  split
  · rw [append_nil]
    refine ⟨fun _ ↦ ⟨_, rfl, ⟨hawaits.le_one, hawaits.channel, hawaits.lt, hawaits.front⟩⟩,
      hi.sorted, fun t ht ↦ mem_append_left _ (hi.mem t ht), hi.out, hi.out_le⟩
  · rw [append_nil]
    refine ⟨fun _ ↦ ⟨_, rfl, ⟨hawaits.le_one, ?_, ?_, ?_⟩⟩, hi.sorted.snoc hlast, ?_, hi.out,
      hi.out_le⟩
    · intro t ht
      rcases mem_append.mp ht with ht | ht
      · exact hawaits.channel t ht
      · rw [mem_singleton.mp ht]
        omega
    · intro t ht
      rcases mem_append.mp ht with ht | ht
      · exact hawaits.lt t ht
      · rw [mem_singleton.mp ht]
        exact not_le.mp hnot
    · intro top htop
      refine hawaits.front top ?_
      simpa [appendTuple, head?_append_of_ne_nil _ hne] using htop
    · intro t ht
      rcases mem_append.mp ht with ht | ht
      · exact mem_append_left _ (hi.mem t ht)
      · exact mem_append_right _ ht

/-- A tuple of the channel that is behind releases the tuples of the other channel that it has
reached, and goes out itself if it has not overtaken that channel. -/
theorem ordered_acceptAwaited (hi : Inv sch ins outs op)
    (haccepts : op.Accepts sch tup) (hwait : op.waitChannel = some tup.channel) :
    Ordered sch (ins ++ [tup]) (outs ++ (op.acceptAwaited sch tup).2)
      (op.acceptAwaited sch tup).1 := by
  obtain ⟨hchannel, horder⟩ := haccepts
  have hne : op.mergeQueue ≠ [] := by
    intro hnil
    rw [hi.idle hnil] at hwait
    cases hwait
  obtain ⟨w, hw, hawaits⟩ := hi.awaits hne
  obtain rfl : w = tup.channel := Option.some_inj.mp (hw.symm.trans hwait)
  have hself := Nat.sub_sub_self hchannel
  have hother := op.posted.get_set_other (sch.timestamp tup.data) hchannel
  obtain ⟨popped, hpopped, hpurged⟩ := exists_purged (Nat.sub_le 1 tup.channel) op.mergeQueue
    (op.posted.set tup.channel (sch.timestamp tup.data)) hawaits.channel hi.sorted
    (hother ▸ hawaits.front)
  set r := purgeLoop sch (1 - tup.channel) op.mergeQueue
    (op.posted.set tup.channel (sch.timestamp tup.data)) with hr
  have hpurge : (op.updateTempStatus sch tup).purgeQueue sch (1 - tup.channel) =
      ({ op with mergeQueue := r.1, posted := r.2.1 }, popped.map (post sch)) :=
    Prod.ext rfl hpurged.out
  have hle := hpurged.le
  have hposted := hpurged.other
  have hlt := hpurged.lt
  rw [hself, Posted.get_set_self] at hle hposted hlt
  have hmono := hpurged.mono
  rw [hother] at hmono
  have hqueue : ∀ t ∈ r.1, t ∈ op.mergeQueue := fun t ht ↦ hpopped ▸ mem_append_right _ ht
  have hqueue' : ∀ t ∈ popped, t ∈ op.mergeQueue := fun t ht ↦ hpopped ▸ mem_append_left _ ht
  have hsorted := hi.sorted
  rw [hpopped] at hsorted
  obtain ⟨hsortedPopped, hsortedRest, -⟩ := pairwise_append.mp hsorted
  -- What was put out before, and what is released now, is in order and not beyond the new
  -- positions.
  have hfront : ∀ o ∈ outs, ∀ t ∈ op.mergeQueue, sch.timestamp o.data ≤ sch.timestamp t.data := by
    intro o ho t ht
    obtain ⟨top, queue, hcons⟩ := exists_cons_of_ne_nil hne
    have hsorted := hi.sorted
    rw [hcons] at hsorted ht
    have htop : op.posted.get (1 - tup.channel) = sch.timestamp top.data :=
      hawaits.front top (by rw [hcons]; rfl)
    have hotop : sch.timestamp o.data ≤ sch.timestamp top.data :=
      htop ▸ hi.out_le _ (by omega) o ho
    rcases mem_cons.mp ht with rfl | ht
    · exact hotop
    · exact hotop.trans ((pairwise_cons.mp hsorted).1 t ht)
  have hout : Sorted sch (outs ++ popped.map (post sch)) := by
    refine pairwise_append.mpr ⟨hi.out, pairwise_map.mpr hsortedPopped, ?_⟩
    intro o ho o' ho'
    obtain ⟨t, ht, rfl⟩ := mem_map.mp ho'
    exact hfront o ho t (hqueue' t ht)
  have hout_ts : ∀ o ∈ outs ++ popped.map (post sch), sch.timestamp o.data ≤
    sch.timestamp tup.data := by
    intro o ho
    rcases mem_append.mp ho with ho | ho
    · exact (hi.out_le _ hchannel o ho).trans horder
    · obtain ⟨t, ht, rfl⟩ := mem_map.mp ho
      exact hle t ht
  have hout_le : ∀ c ≤ 1, ∀ o ∈ outs ++ popped.map (post sch), sch.timestamp o.data ≤
    r.2.1.get c := by
    intro c hc o ho
    refine le_of_le_other (P := fun c ↦ sch.timestamp o.data ≤ r.2.1.get c) hchannel hc ?_ ?_
    · rw [hposted]
      exact hout_ts o ho
    · rcases mem_append.mp ho with ho | ho
      · exact (hi.out_le _ (by omega) o ho).trans hmono
      · obtain ⟨t, ht, rfl⟩ := mem_map.mp ho
        exact hpurged.le_posted t ht
  have hlt' : ∀ t ∈ r.1, sch.timestamp tup.data < sch.timestamp t.data := by
    intro t ht
    obtain ⟨top, queue, hcons⟩ := exists_cons_of_ne_nil (ne_nil_of_mem ht)
    have htop := hlt top (by rw [hcons]; rfl)
    rw [hcons] at ht hsortedRest
    rcases mem_cons.mp ht with rfl | ht
    · exact htop
    · exact htop.trans_le ((pairwise_cons.mp hsortedRest).1 t ht)
  have hstays : r.1 ≠ [] → ∃ w, op.waitChannel = some w ∧
      Awaits sch { op with mergeQueue := r.1, posted := r.2.1 } w := fun _ ↦
    ⟨tup.channel, hwait, hchannel, fun t ht ↦ hawaits.channel t (hqueue t ht),
      fun t ht ↦ hposted.symm ▸ hlt' t ht, hpurged.front⟩
  have hmem : ∀ t ∈ r.1, t ∈ ins ++ [tup] := fun t ht ↦
    mem_append_left _ (hi.mem t (hqueue t ht))
  simp only [acceptAwaited, hpurge]
  split_ifs with hput htemp htemp
  · exact ⟨hstays, hsortedRest, hmem, hout, hout_le⟩
  · rw [← append_assoc]
    refine ⟨hstays, hsortedRest, hmem, hout.snoc hout_ts, fun c hc o ho ↦ ?_⟩
    rcases mem_append.mp ho with ho | ho
    · exact hout_le c hc o ho
    · rw [mem_singleton.mp ho]
      exact le_of_le_other (P := fun c ↦ sch.timestamp tup.data ≤ r.2.1.get c) hchannel hc
        hposted.symm.le hput
  all_goals
    -- The tuple has overtaken the other channel, which has nothing left in the queue.
    have hnil : r.1 = [] := by
      by_contra hrest
      obtain ⟨top, queue, hcons⟩ := exists_cons_of_ne_nil hrest
      have hpost := hpurged.front top (by rw [hcons]; rfl)
      exact hput (hpost.symm ▸ (hlt' top (hcons ▸ mem_cons_self)).le)
  · exact ⟨fun hrest ↦ absurd hnil hrest, hsortedRest, hmem, hout, hout_le⟩
  · simp only [appendTuple, hnil, nil_append]
    refine ⟨fun _ ↦ ⟨1 - tup.channel, rfl, by omega, ?_, ?_, ?_⟩, pairwise_singleton _ _, ?_,
      hout, hout_le⟩
    · intro t ht
      rw [mem_singleton.mp ht]
      omega
    · intro t ht
      rw [mem_singleton.mp ht]
      exact not_le.mp hput
    · intro top htop
      obtain rfl := Option.some_inj.mp htop
      rw [hself]
      exact hposted
    · intro t ht
      exact mem_append_right _ ht

theorem inv_acceptTuple (hi : Inv sch ins outs op)
    (hin : ∀ t ∈ ins, t.channel = tup.channel → sch.timestamp t.data ≤ sch.timestamp tup.data) :
    Inv sch (ins ++ [tup]) (outs ++ (op.acceptTuple sch tup).2) (op.acceptTuple sch tup).1 := by
  by_cases haccepts : op.Accepts sch tup
  · rw [acceptTuple_of_accepts haccepts]
    refine Ordered.finish ?_
    split
    case isTrue hwait => exact ordered_acceptAwaited hi haccepts hwait
    case isFalse hwait =>
      cases hw : op.waitChannel with
      | none => exact ordered_acceptUnawaited_idle hi haccepts hw
      | some w =>
        refine ordered_acceptUnawaited_ahead hi haccepts hin hw ?_
        rintro rfl
        exact hwait hw
  · rw [acceptTuple_of_not_accepts haccepts, append_nil]
    exact ⟨hi.toOrdered.mono, hi.idle⟩

theorem inv_run (hin : InOrder sch tups) :
    Inv sch tups ((init sch).run sch tups).2 ((init sch).run sch tups).1 := by
  induction tups using reverseRecOn with
  | nil => exact inv_init
  | append_singleton tups tup ih =>
    obtain ⟨hin, -, hlast⟩ := pairwise_append.mp hin
    rw [run, Transducer.run_snoc]
    exact inv_acceptTuple (ih hin) fun t ht ↦ hlast t ht tup (mem_singleton_self tup)

/-- What is put out, up to and including a flush, has non-decreasing timestamps. -/
theorem sorted_output (hin : InOrder sch tups) : Sorted sch ((init sch).output sch tups) := by
  have hi := inv_run hin
  refine pairwise_append.mpr ⟨hi.out, pairwise_map.mpr hi.sorted, ?_⟩
  intro o ho o' ho'
  obtain ⟨t, ht, rfl⟩ := mem_map.mp ho'
  obtain ⟨w, -, hawaits⟩ := hi.awaits (ne_nil_of_mem ht)
  exact (hi.out_le w hawaits.le_one o ho).trans (hawaits.lt t ht).le

/-! ## After a flush -/

/-- Up to and including a flush, the tuples are put out in order, each accepted data tuple once; and
whatever arrives afterwards, only what is accepted then is put out then. -/
def MergesOnce (sch : MergeSchema D T) (tups : List (HostTuple D)) : Prop :=
  Sorted sch ((init sch).output sch tups) ∧
    (dataOf sch ((init sch).output sch tups)).Perm ((init sch).accepted sch tups) ∧
    ∀ more, (dataOf sch (((init sch).flushed sch tups).output sch more)).Perm
      (((init sch).flushed sch tups).accepted sch more)

omit [LinearOrder T] in
theorem queuesData_init (sch : MergeSchema D T) : QueuesData sch (init sch) :=
  fun _ ht ↦ absurd ht not_mem_nil

omit [LinearOrder T] in
/-- A flush leaves the queue as it is. -/
theorem flush_mergeQueue (sch : MergeSchema D T) (op : MergeOperator D T) :
    (op.flush sch).1.mergeQueue = op.mergeQueue := by
  have h : ∀ (queue : List (HostTuple D)) (op : MergeOperator D T),
      (queue.foldl (updateTempStatus sch) op).mergeQueue = op.mergeQueue := by
    intro queue
    induction queue with
    | nil => exact fun _ ↦ rfl
    | cons top queue ih => exact fun op ↦ ih _
  exact h op.mergeQueue op

/-- **A merge is in order and complete; it stays so after a flush if and only if the flush has
nothing to put out.** -/
theorem mergesOnce_iff (hin : InOrder sch tups) :
    MergesOnce sch tups ↔ ((init sch).run sch tups).1.mergeQueue = [] := by
  have hrun := conserves_run (queuesData_init sch) tups
  have hflushed : QueuesData sch ((init sch).flushed sch tups) := by
    rw [QueuesData, flushed, flush_mergeQueue]
    exact hrun.queuesData
  have hqueued : ((init sch).flushed sch tups).queued = ((init sch).run sch tups).1.queued := by
    rw [queued, flushed, flush_mergeQueue, queued]
  constructor
  · rintro ⟨-, -, hmore⟩
    have h := dataOf_output hflushed []
    rw [Multiset.coe_eq_coe.mpr (hmore []), hqueued] at h
    have hnil : ((init sch).run sch tups).1.queued = 0 := right_eq_add.mp h
    simpa [queued] using hnil
  · intro hnil
    refine ⟨sorted_output hin, ?_, fun more ↦ ?_⟩
    · have h := dataOf_output (queuesData_init sch) tups
      exact Multiset.coe_eq_coe.mp (h.trans (zero_add _))
    · have h := dataOf_output hflushed more
      rw [hqueued, queued, hnil] at h
      exact Multiset.coe_eq_coe.mp (h.trans (zero_add _))

/-- Tuples that are a timestamp and a mark for status tuples. -/
def markedSchema : MergeSchema (Nat × Bool) Nat where
  timestamp := Prod.fst
  isTemporal := Prod.snd
  tempStatus := fun t ↦ (t, true)
  minLiteral := 0
  outputChannel := 0
  timestamp_tempStatus := fun _ ↦ rfl
  isTemporal_tempStatus := fun _ ↦ rfl

theorem mergesOnce_balanced :
    MergesOnce markedSchema [⟨(5, false), 0⟩, ⟨(3, false), 1⟩, ⟨(7, true), 1⟩] :=
  (mergesOnce_iff (by decide)).mpr (by decide)

/-- **A flush is repeated.**  A tuple that was put out by a flush is put out again by the next
one. -/
theorem not_mergesOnce_single :
    InOrder markedSchema [⟨(5, false), 0⟩] ∧ ¬ MergesOnce markedSchema [⟨(5, false), 0⟩] := by
  refine ⟨by decide, fun h ↦ ?_⟩
  exact absurd (h.2.2 []) (by decide)

end MergeOperator

end Tigon.Hfta
