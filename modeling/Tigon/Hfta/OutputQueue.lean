import Tigon.Ftacmp.SchemaParser
import Tigon.Hfta.MultopRuns

/-!
# What an HFTA posts

An HFTA puts what its operators put out into a queue, from which it posts as many tuples as
`hfta_post_tuple` takes.  To the last result for a temporal tuple it appends the trace of that tuple
and an entry of its own.  An end of file is posted directly, after a flush, when as many of them
have come as there are sources; whether that succeeds is not looked at.

`Produced` is what an HFTA is to post, in order: what its operators put out, with the trace at the
status tuple for a temporal tuple, and an end of file when one has come from each source.

* `orderly_iff` — **when all that is posted, and what is still in the queue, is what is to be
posted.** -/

set_option autoImplicit false

namespace Tigon.Hfta.OutputQueue

/-! ## Tuples -/

/-- The data of a tuple. -/
abbrev Tuple := List UInt8

def temporalTuple : UInt8 := 1

def eofTuple : UInt8 := 2

/-- `ftaschema_is_temporal_tuple`, for a schema with this `min_tuple_size`. -/
def isTemporalTuple (minTupleSize : Nat) (data : Tuple) : Bool :=
  data[minTupleSize]? == some temporalTuple

/-- `ftaschema_is_eof_tuple` -/
def isEofTuple (minTupleSize : Nat) (data : Tuple) : Bool := data[minTupleSize]? == some eofTuple

/-- `sizeof(fta_stat)` -/
def statSize : Nat := 64

/-- The bytes that are copied of what `ftaschema_get_trace` finds: the trace id, and as many entries
as it says there are.  If it says that of a tuple without room for an id, bytes behind the tuple are
copied, which are left out here. -/
def getTrace (minTupleSize : Nat) (data : Tuple) : Tuple × Tuple :=
  let payload := data.drop (minTupleSize + 1)
  let sz := Ftacmp.SchemaParser.traceSize (.ofNat 32 data.length) (.ofNat 32 minTupleSize)
  (payload.take 8, (payload.drop 8).take (sz.toNat * statSize))

/-- The last byte of the tuple is set. -/
def markEof (data : Tuple) : Tuple := data.dropLast ++ [eofTuple]

/-- What is posted: a tuple as the operators put it out, one with a trace appended, or an end of
file. -/
inductive Out
  | tuple (data : Tuple)
  | traced (data : Tuple) (trace : Tuple)
  | eof (data : Tuple)
deriving DecidableEq

def Out.isEof : Out → Bool
  | .eof _ => true
  | _ => false

/-! ## HFTAs -/

/-- What `UNOP_HFTA` and `MULTOP_HFTA` have in common.  The operators put out tuples as
`finalize_tuple` leaves them. -/
structure Fta (S L : Type) where
  /-- The sources. -/
  lftas : List L
  accept : L → Tuple → S → S × List Tuple
  flush : S → S × List Tuple
  /-- `get_temp_status` of the last operator. -/
  tempStatus : S → Tuple
  /-- The `min_tuple_size` of the schema of a source. -/
  minTupleSize : L → Nat
  /-- The `min_tuple_size` of the schema of the HFTA. -/
  outTupleSize : Nat
  /-- The entry that is appended to a trace, from the counters at that time. -/
  ownStat : Tuple → Tuple
  /-- The results that go to the output queue. -/
  keep : Tuple → Bool
  /-- It is checked whether there is a result. -/
  checksEmpty : Bool

/-- An HFTA with one operator.  The entry that it appends has only zeros. -/
def unopHfta {S : Type} (acceptTuple : Tuple → S → S × List Tuple) (flush : S → S × List Tuple)
    (getTempStatus : S → Tuple) (minTupleSize outTupleSize : Nat) : Fta S Unit where
  lftas := [()]
  accept _ := acceptTuple
  flush := flush
  tempStatus := getTempStatus
  minTupleSize _ := minTupleSize
  outTupleSize := outTupleSize
  ownStat _ := List.replicate statSize 0
  keep _ := true
  checksEmpty := false

/-- An HFTA with several operators.  Empty results are left out, and those of a DAG that are
temporal. -/
def multopHfta {N L S : Type} [DecidableEq N] [DecidableEq L] (h : Multop.MultopHfta N L S Tuple)
    (minTupleSize : L → Nat) (outTupleSize : Nat) : Fta (Multop.Net N S Tuple) L where
  lftas := h.lftas
  accept l data net := h.accept l data net
  flush net := h.flushLoop net
  tempStatus net := (h.plan.sorted.getLast?.map fun n ↦ h.tempStatus n (net.op n)).getD []
  minTupleSize := minTupleSize
  outTupleSize := outTupleSize
  ownStat := id
  keep data := data ≠ [] && !(h.dag && isTemporalTuple outTupleSize data)
  checksEmpty := true

structure State (S : Type) where
  oper : S
  numEofTuples : Nat
  outputQueue : List Out
  posted : List Out

/-- A packet of a source, or a request to flush.  So many tuples are taken by `hfta_post_tuple`
before it fails; the end of file is taken or not. -/
inductive Action (L : Type)
  | packet (l : L) (data : Tuple) (counters : Tuple) (posts : Nat) (eofPosted : Bool)
  | flush (posts : Nat)

namespace Fta

variable {S L : Type} (h : Fta S L)

/-- What is appended to the status tuple for a temporal tuple. -/
def newTrace (l : L) (data counters : Tuple) : Option Tuple :=
  if isTemporalTuple (h.minTupleSize l) data then
    let trace := getTrace (h.minTupleSize l) data
    some (trace.1 ++ trace.2 ++ h.ownStat counters)
  else none

/-- What goes to the output queue.  The trace is appended to the last result; where there is none,
the behaviour is undefined if this is not checked. -/
def emit : Option Tuple → List Tuple → Option (List Out)
  | none, result => some ((result.filter h.keep).map .tuple)
  | some trace, result =>
    match result.getLast? with
    | none => if h.checksEmpty then some [] else none
    | some last => some ((result.dropLast.filter h.keep).map .tuple ++ [.traced last trace])

end Fta

namespace State

variable {S L : Type} (h : Fta S L)

/-- The loop that posts the tuples of the output queue. -/
def post (s : State S) (posts : Nat) : State S :=
  { s with
    outputQueue := s.outputQueue.drop posts
    posted := s.posted ++ s.outputQueue.take posts }

/-- `flush` of the HFTA. -/
def flush (s : State S) (posts : Nat) : State S :=
  let ret := h.flush s.oper
  let s := { s with oper := ret.1, outputQueue := s.outputQueue ++ ret.2.map .tuple }
  if ret.2 = [] then s else s.post posts

/-- The end of file is handed to `hfta_post_tuple` once. -/
def postEof (s : State S) (data : Tuple) (eofPosted : Bool) : State S :=
  if eofPosted then { s with posted := s.posted ++ [.eof data] } else s

/-- An end of file. -/
def acceptEof (s : State S) (posts : Nat) (eofPosted : Bool) : State S :=
  if s.numEofTuples + 1 < h.lftas.length then { s with numEofTuples := s.numEofTuples + 1 }
  else
    let s := { s with numEofTuples := 0 }.flush h posts
    s.postEof (markEof (h.tempStatus s.oper)) eofPosted

/-- `UNOP_HFTA_accept_packet` and `MULTOP_HFTA_accept_packet` -/
def acceptPacket (s : State S) (l : L) (data counters : Tuple) (posts : Nat) (eofPosted : Bool) :
    Option (State S) :=
  if isEofTuple (h.minTupleSize l) data then some (s.acceptEof h posts eofPosted)
  else
    let ret := h.accept l data s.oper
    (h.emit (h.newTrace l data counters) ret.2).map fun outs ↦
      { s with oper := ret.1, outputQueue := s.outputQueue ++ outs }.post posts

def step (s : State S) : Action L → Option (State S)
  | .packet l data counters posts eofPosted => s.acceptPacket h l data counters posts eofPosted
  | .flush posts => some (s.flush h posts)

def init (oper : S) : State S where
  oper := oper
  numEofTuples := 0
  outputQueue := []
  posted := []

end State

/-! ## What is to be posted -/

/-- What is to be posted so far, and the sources that sent an end of file in this round. -/
structure Produced (L : Type) where
  outs : List Out
  eofs : List L

namespace Fta

variable {S L : Type} (h : Fta S L)

/-- A status tuple. -/
def isStatus (data : Tuple) : Bool := isTemporalTuple h.outTupleSize data

def asTuples (result : List Tuple) : List Out := (result.filter h.keep).map .tuple

/-- The results, with the trace at the last status tuple. -/
def withTrace (trace : Tuple) (result : List Tuple) : List Out :=
  match (result.rdropWhile fun t ↦ !h.isStatus t).getLast? with
  | none => h.asTuples result
  | some status =>
    h.asTuples (result.rdropWhile fun t ↦ !h.isStatus t).dropLast ++
      .traced status trace :: h.asTuples (result.rtakeWhile fun t ↦ !h.isStatus t)

/-- What is to be posted for a packet. -/
def intended : Option Tuple → List Tuple → List Out
  | none, result => h.asTuples result
  | some trace, result => h.withTrace trace result

/-- With this source, all have sent an end of file. -/
def Complete (l : L) (eofs : List L) : Prop := ∀ l' ∈ h.lftas, l' ∈ l :: eofs

instance instDecidableComplete [DecidableEq L] (l : L) (eofs : List L) :
    Decidable (h.Complete l eofs) :=
  inferInstanceAs (Decidable (∀ l' ∈ h.lftas, _))

/-- What a flush is to post. -/
def flushed (oper : S) : List Out := (h.flush oper).2.map .tuple

/-- What is to be posted for an end of file: what the operators put out, if they are flushed, and an
end of file. -/
def dueEof [DecidableEq L] (s : State S) (eofs : List L) (l : L) : List Out :=
  (if s.numEofTuples + 1 < h.lftas.length then [] else h.flushed s.oper) ++
    if h.Complete l eofs then [.eof (markEof (h.tempStatus (h.flush s.oper).1))] else []

/-- What is to be posted for an action. -/
def due [DecidableEq L] (s : State S) (eofs : List L) : Action L → List Out
  | .packet l data counters _ _ =>
    if isEofTuple (h.minTupleSize l) data then h.dueEof s eofs l
    else h.intended (h.newTrace l data counters) (h.accept l data s.oper).2
  | .flush _ => h.flushed s.oper

/-- The sources that have sent an end of file after an action. -/
def nextEofs [DecidableEq L] (eofs : List L) : Action L → List L
  | .packet l data _ _ _ =>
    if isEofTuple (h.minTupleSize l) data then if h.Complete l eofs then [] else l :: eofs else eofs
  | .flush _ => eofs

/-- An action, with what is to be posted for it. -/
def traceStep [DecidableEq L] (p : State S × Produced L) (a : Action L) :
    Option (State S × Produced L) :=
  (p.1.step h a).map fun s ↦ (s, ⟨p.2.outs ++ h.due p.1 p.2.eofs a, h.nextEofs p.2.eofs a⟩)

/-- The state after some actions, and what is to be posted for them. -/
def trace [DecidableEq L] (oper : S) (as : List (Action L)) : Option (State S × Produced L) :=
  as.foldlM h.traceStep (State.init oper, ⟨[], []⟩)

/-- What was posted, and what is still in the queue, is what is to be posted. -/
def Orderly [DecidableEq L] (oper : S) (as : List (Action L)) : Prop :=
  ∃ s produced, h.trace oper as = some (s, produced) ∧ s.posted ++ s.outputQueue = produced.outs

/-- The last result is a status tuple, or it is checked that there is none. -/
def StatusLast (result : List Tuple) : Prop :=
  (∃ last, result.getLast? = some last ∧ h.isStatus last = true) ∨ result = [] ∧
    h.checksEmpty = true

/-- The round ends when it is complete, and nothing is in the queue then; and the end of file is
taken. -/
def EofOk [DecidableEq L] (s : State S) (eofs : List L) (l : L) (posts : Nat)
    (eofPosted : Bool) : Prop :=
  if h.Complete l eofs then
    ¬ s.numEofTuples + 1 < h.lftas.length ∧ eofPosted = true ∧
      if (h.flush s.oper).2 = [] then s.outputQueue = []
      else (s.outputQueue ++ h.flushed s.oper).length ≤ posts
  else s.numEofTuples + 1 < h.lftas.length ∨ eofPosted = false

/-- What an action has to meet. -/
def Ok [DecidableEq L] (s : State S) (eofs : List L) : Action L → Prop
  | .packet l data _ posts eofPosted =>
    if isEofTuple (h.minTupleSize l) data then h.EofOk s eofs l posts eofPosted
    else isTemporalTuple (h.minTupleSize l) data = true → h.StatusLast (h.accept l data s.oper).2
  | .flush _ => True

end Fta

/-! ## One step -/

section

variable {S L : Type} {h : Fta S L} {s : State S} {result : List Tuple} {last data status : Tuple}

/-- The trace is meant for a status tuple. -/
theorem isStatus_of_mem_withTrace {trace tr : Tuple}
    (hmem : Out.traced data tr ∈ h.withTrace trace result) : h.isStatus data = true := by
  have hnot (l : List Tuple) : Out.traced data tr ∉ h.asTuples l := by
    intro hmem
    obtain ⟨t, -, ht⟩ := List.mem_map.mp hmem
    cases ht
  rw [Fta.withTrace] at hmem
  split at hmem
  case h_1 => exact absurd hmem (hnot _)
  case h_2 status hstatus =>
    rw [List.mem_append, List.mem_cons] at hmem
    rcases hmem with hmem | hmem | hmem
    · exact absurd hmem (hnot _)
    · obtain ⟨rfl, -⟩ := Out.traced.inj hmem
      have hne := List.ne_nil_of_mem (List.mem_of_getLast? hstatus)
      have hlast := List.rdropWhile_last_not (fun t ↦ !h.isStatus t) result hne
      rw [← List.getLast_eq_iff_getLast?_eq_some hne] at hstatus
      rw [hstatus] at hlast
      simpa using hlast
    · exact absurd hmem (hnot _)

/-- A status tuple that is the last result gets the trace. -/
theorem withTrace_of_isStatus (trace : Tuple) (hlast : h.isStatus last = true) :
    h.withTrace trace (result ++ [last]) = h.asTuples result ++ [.traced last trace] := by
  have hneg : ¬ (!h.isStatus last) = true := by simp [hlast]
  have hdrop : (result ++ [last]).rdropWhile (fun t ↦ !h.isStatus t) = result ++ [last] :=
    List.rdropWhile_concat_neg _ _ _ hneg
  have htake : (result ++ [last]).rtakeWhile (fun t ↦ !h.isStatus t) = [] :=
    List.rtakeWhile_concat_neg _ _ _ hneg
  rw [Fta.withTrace, hdrop, htake, List.getLast?_concat, List.dropLast_concat]
  rfl

/-- What is emitted is what is meant, if the status tuple is the last result. -/
theorem emit_iff (trace : Option Tuple) (result : List Tuple) :
    h.emit trace result = some (h.intended trace result) ↔
      (trace.isSome = true → h.StatusLast result) := by
  cases trace with
  | none => exact iff_of_true rfl (fun hsome ↦ by cases hsome)
  | some trace =>
    rw [Fta.intended]
    rcases List.eq_nil_or_concat result with rfl | ⟨result, last, rfl⟩
    · have hnil : h.withTrace trace [] = [] := rfl
      have hemit : h.emit (some trace) [] = if h.checksEmpty then some [] else none := rfl
      rw [hnil, hemit]
      by_cases hchecks : h.checksEmpty = true
      · exact iff_of_true (if_pos hchecks) fun _ ↦ .inr ⟨rfl, hchecks⟩
      · refine iff_of_false (fun heq ↦ ?_) fun hlast ↦ ?_
        · rw [if_neg hchecks] at heq
          cases heq
        · rcases hlast rfl with ⟨last, hlast, -⟩ | ⟨-, h'⟩
          · cases hlast
          · exact hchecks h'
    · rw [List.concat_eq_append]
      have hemit : h.emit (some trace) (result ++ [last]) =
        some (h.asTuples result ++ [.traced last trace]) := by
        rw [Fta.emit, List.getLast?_concat, List.dropLast_concat]
        rfl
      rw [hemit, Option.some_inj]
      by_cases hstatus : h.isStatus last = true
      · exact iff_of_true (withTrace_of_isStatus trace hstatus).symm fun _ ↦
          .inl ⟨last, List.getLast?_concat, hstatus⟩
      · refine iff_of_false (fun heq ↦ hstatus ?_) fun hlast ↦ ?_
        · have hmem : Out.traced last trace ∈ h.withTrace trace (result ++ [last]) := by
            rw [← heq]
            exact List.mem_append_right _ (List.mem_singleton_self _)
          exact isStatus_of_mem_withTrace hmem
        · rcases hlast rfl with ⟨last', hlast', hstatus'⟩ | ⟨hnil, -⟩
          · rw [List.getLast?_concat, Option.some_inj] at hlast'
            exact hstatus (hlast' ▸ hstatus')
          · exact List.append_ne_nil_of_right_ne_nil result (List.cons_ne_nil last []) hnil

theorem post_append (s : State S) (posts : Nat) :
    (s.post posts).posted ++ (s.post posts).outputQueue = s.posted ++ s.outputQueue := by
  rw [State.post, List.append_assoc, List.take_append_drop]

/-- A flush puts its results behind what is in the queue. -/
theorem flush_append (s : State S) (posts : Nat) :
    (s.flush h posts).posted ++ (s.flush h posts).outputQueue = s.posted ++ s.outputQueue ++
      h.flushed s.oper := by
  rw [State.flush]
  split
  · exact (List.append_assoc _ _ _).symm
  · rw [post_append]
    exact (List.append_assoc _ _ _).symm

theorem outputQueue_flush (s : State S) (posts : Nat) : (s.flush h posts).outputQueue =
    if (h.flush s.oper).2 = [] then s.outputQueue else (s.outputQueue ++ h.flushed s.oper).drop
      posts := by
  rw [State.flush]
  by_cases hnil : (h.flush s.oper).2 = []
  · simp [hnil]
  · simp [hnil, State.post, Fta.flushed]

theorem oper_flush (s : State S) (posts : Nat) : (s.flush h posts).oper = (h.flush s.oper).1 := by
  rw [State.flush]
  by_cases hnil : (h.flush s.oper).2 = []
  · simp [hnil]
  · simp [hnil, State.post]

/-- No end of file is in the queue. -/
def Queued (s : State S) : Prop := ∀ o ∈ s.outputQueue, o.isEof = false

theorem isEof_asTuples {o : Out} (ho : o ∈ result.map Out.tuple) : o.isEof = false := by
  obtain ⟨t, -, rfl⟩ := List.mem_map.mp ho
  rfl

theorem Queued.flush (hs : Queued s) (posts : Nat) : Queued (s.flush h posts) := by
  intro o ho
  rw [outputQueue_flush] at ho
  split at ho
  · exact hs o ho
  · rcases List.mem_append.mp (List.mem_of_mem_drop ho) with ho | ho
    · exact hs o ho
    · exact isEof_asTuples ho

/-- Nothing is left of the queue by a flush. -/
theorem outputQueue_flush_eq_nil (s : State S) (posts : Nat) : (s.flush h posts).outputQueue = [] ↔
    if (h.flush s.oper).2 = [] then s.outputQueue = []
      else (s.outputQueue ++ h.flushed s.oper).length ≤ posts := by
  rw [outputQueue_flush]
  split
  · exact Iff.rfl
  · exact List.drop_eq_nil_iff

/-- An end of file that is posted comes behind the tuples if nothing is left in the queue. -/
theorem postEof_append_eq (hs : Queued s) (data : Tuple) (eofPosted : Bool) :
    (s.postEof data eofPosted).posted ++ (s.postEof data eofPosted).outputQueue =
        s.posted ++ s.outputQueue ++ [.eof data] ↔
      eofPosted = true ∧ s.outputQueue = [] := by
  rw [State.postEof]
  by_cases hposted : eofPosted = true
  · rw [if_pos hposted]
    show s.posted ++ [.eof data] ++ s.outputQueue = _ ↔ _
    rw [List.append_assoc, List.append_assoc, List.append_cancel_left_eq]
    refine ⟨fun heq ↦ ⟨hposted, ?_⟩, fun hnil ↦ by rw [hnil.2]; rfl⟩
    match hq : s.outputQueue with
    | [] => rfl
    | o :: os =>
      rw [hq, List.singleton_append, List.cons_append, List.cons.injEq] at heq
      have hfirst := hs o (hq ▸ List.mem_cons_self)
      rw [← heq.1] at hfirst
      exact absurd hfirst (by simp [Out.isEof])
  · rw [if_neg hposted]
    refine iff_of_false (fun heq ↦ ?_) fun hok ↦ hposted hok.1
    exact List.cons_ne_nil _ _ (List.self_eq_append_right.mp heq)

/-- Nothing is posted if the end of file is not taken. -/
theorem postEof_append_eq_self (data : Tuple) (eofPosted : Bool) :
    (s.postEof data eofPosted).posted ++ (s.postEof data eofPosted).outputQueue = s.posted ++
      s.outputQueue ↔ eofPosted = false := by
  rw [State.postEof]
  by_cases hposted : eofPosted = true
  · rw [if_pos hposted]
    refine iff_of_false (fun heq ↦ ?_) fun hnot ↦ Bool.false_ne_true (hnot.symm.trans hposted)
    have hlength := congrArg List.length heq
    simp at hlength
  · rw [if_neg hposted]
    exact iff_of_true rfl (Bool.eq_false_of_not_eq_true hposted)

theorem Queued.postEof (hs : Queued s) (data : Tuple) (eofPosted : Bool) :
    Queued (s.postEof data eofPosted) := by
  rw [State.postEof]
  split <;> exact hs

theorem Queued.acceptEof (hs : Queued s) (posts : Nat) (eofPosted : Bool) :
    Queued (s.acceptEof h posts eofPosted) := by
  rw [State.acceptEof]
  split
  · exact hs
  · exact Queued.postEof (Queued.flush (s := { s with numEofTuples := 0 }) hs posts) _ eofPosted

theorem isEof_of_mem_emit {trace : Option Tuple} {outs : List Out}
    (hemit : h.emit trace result = some outs) {o : Out} (ho : o ∈ outs) : o.isEof = false := by
  rw [Fta.emit.eq_def] at hemit
  split at hemit
  · obtain rfl := Option.some.inj hemit
    exact isEof_asTuples ho
  · split at hemit
    · split at hemit
      · obtain rfl := Option.some.inj hemit
        cases ho
      · cases hemit
    · obtain rfl := Option.some.inj hemit
      rcases List.mem_append.mp ho with ho | ho
      · exact isEof_asTuples ho
      · obtain rfl := List.mem_singleton.mp ho
        rfl

/-- An end of file is never put into the queue. -/
theorem Queued.step (hs : Queued s) {a : Action L} {t : State S} (hstep : s.step h a = some t) :
    Queued t := by
  match a with
  | .flush posts =>
    obtain rfl := Option.some.inj hstep
    exact hs.flush posts
  | .packet l data counters posts eofPosted =>
    change s.acceptPacket h l data counters posts eofPosted = some t at hstep
    rw [State.acceptPacket] at hstep
    split at hstep
    · obtain rfl := Option.some.inj hstep
      exact hs.acceptEof posts eofPosted
    · obtain ⟨outs, hemit, rfl⟩ := Option.map_eq_some_iff.mp hstep
      intro o ho
      rcases List.mem_append.mp (List.mem_of_mem_drop ho) with ho | ho
      · exact hs o ho
      · exact isEof_of_mem_emit hemit ho

variable [DecidableEq L]

/-- An end of file is as it is to be if `EofOk` is met. -/
theorem acceptEof_iff (hs : Queued s) (eofs : List L) (l : L) (posts : Nat) (eofPosted : Bool) :
    (s.acceptEof h posts eofPosted).posted ++ (s.acceptEof h posts eofPosted).outputQueue =
        s.posted ++ s.outputQueue ++ h.dueEof s eofs l ↔
      h.EofOk s eofs l posts eofPosted := by
  rw [Fta.EofOk, Fta.dueEof]
  by_cases hmore : s.numEofTuples + 1 < h.lftas.length
  · have haccept : s.acceptEof h posts eofPosted = { s with numEofTuples := s.numEofTuples + 1 } :=
      if_pos hmore
    rw [haccept, if_pos hmore]
    split
    · refine iff_of_false (fun heq ↦ ?_) fun hok ↦ hok.1 hmore
      have hlength := congrArg List.length heq
      simp at hlength
    · exact iff_of_true (List.append_nil _).symm (.inl hmore)
  · let s₀ : State S := { s with numEofTuples := 0 }
    let s' := s₀.flush h posts
    have hclose : s.acceptEof h posts eofPosted = s'.postEof (markEof (h.tempStatus s'.oper))
      eofPosted := if_neg hmore
    have happend : s'.posted ++ s'.outputQueue = s.posted ++ s.outputQueue ++ h.flushed s.oper :=
      flush_append s₀ posts
    have hqueued : Queued s' := Queued.flush (s := s₀) hs posts
    have hoper : s'.oper = (h.flush s.oper).1 := oper_flush s₀ posts
    rw [hclose, if_neg hmore, ← List.append_assoc, ← happend]
    split
    · rw [← hoper, postEof_append_eq hqueued, outputQueue_flush_eq_nil s₀ posts]
      exact ⟨fun hok ↦ ⟨hmore, hok⟩, fun hok ↦ hok.2⟩
    · rw [List.append_nil, postEof_append_eq_self]
      exact ⟨.inr, fun hok ↦ hok.resolve_left hmore⟩

/-- **A step posts what is to be posted, in order, just if it meets `Ok`.** -/
theorem step_iff (hs : Queued s) (eofs : List L) (a : Action L) :
    (∃ t, s.step h a = some t ∧ t.posted ++ t.outputQueue = s.posted ++ s.outputQueue ++
      h.due s eofs a) ↔ h.Ok s eofs a := by
  match a with
  | .flush posts =>
    exact iff_of_true ⟨_, rfl, flush_append s posts⟩ trivial
  | .packet l data counters posts eofPosted =>
    have hstep : s.step h (.packet l data counters posts eofPosted) =
        s.acceptPacket h l data counters posts eofPosted := rfl
    rw [hstep, State.acceptPacket, Fta.due, Fta.Ok]
    split
    · rw [← acceptEof_iff hs]
      exact ⟨fun ⟨t, ht, heq⟩ ↦ Option.some.inj ht ▸ heq, fun heq ↦ ⟨_, rfl, heq⟩⟩
    · have htrace : (h.newTrace l data counters).isSome = true ↔
        isTemporalTuple (h.minTupleSize l) data = true := by
        rw [Fta.newTrace]
        split <;> simp_all
      rw [← htrace, ← emit_iff]
      refine ⟨fun ⟨t, ht, heq⟩ ↦ ?_, fun hemit ↦ ?_⟩
      · obtain ⟨outs, hemit, rfl⟩ := Option.map_eq_some_iff.mp ht
        rw [post_append, ← List.append_assoc, List.append_cancel_left_eq] at heq
        rw [hemit, heq]
      · refine ⟨_, Option.map_eq_some_iff.mpr ⟨_, hemit, rfl⟩, ?_⟩
        rw [post_append, List.append_assoc]

/-! ## Runs -/

theorem trace_concat (oper : S) (as : List (Action L)) (a : Action L) :
    h.trace oper (as ++ [a]) = (h.trace oper as).bind fun p ↦ h.traceStep p a := by
  rw [Fta.trace, Fta.trace, List.foldlM_append]
  simp only [List.foldlM_cons, List.foldlM_nil, bind_pure]
  rfl

/-- The last action of a run. -/
theorem trace_concat_eq_some {oper : S} {as : List (Action L)} {a : Action L} {t : State S}
    {produced : Produced L} : h.trace oper (as ++ [a]) = some (t, produced) ↔
      ∃ s p, h.trace oper as = some (s, p) ∧ s.step h a = some t ∧
        produced = ⟨p.outs ++ h.due s p.eofs a, h.nextEofs p.eofs a⟩ := by
  rw [trace_concat, Option.bind_eq_some_iff]
  constructor
  · rintro ⟨⟨s, p⟩, htrace, hstep⟩
    rw [Fta.traceStep, Option.map_eq_some_iff] at hstep
    obtain ⟨t', hstep, heq⟩ := hstep
    obtain ⟨rfl, rfl⟩ := Prod.mk.inj heq
    exact ⟨s, p, htrace, hstep, rfl⟩
  · rintro ⟨s, p, htrace, hstep, rfl⟩
    exact ⟨(s, p), htrace, Option.map_eq_some_iff.mpr ⟨t, hstep, rfl⟩⟩

theorem queued_of_trace (oper : S) (as : List (Action L)) :
    ∀ s p, h.trace oper as = some (s, p) → Queued s := by
  induction as using List.reverseRecOn with
  | nil =>
    intro s p htrace
    obtain ⟨rfl, -⟩ := Prod.mk.inj (Option.some.inj htrace)
    exact fun o ho ↦ absurd ho List.not_mem_nil
  | append_singleton as a ih =>
    intro t p htrace
    obtain ⟨s, p', hbefore, hstep, -⟩ := trace_concat_eq_some.mp htrace
    exact (ih s p' hbefore).step hstep

/-- An action keeps what is posted in order just if it meets `Ok`. -/
theorem orderly_concat_iff {oper : S} {as : List (Action L)} (horderly : h.Orderly oper as)
    (a : Action L) : h.Orderly oper (as ++ [a]) ↔ ∀ s p, h.trace oper as = some (s, p) →
      h.Ok s p.eofs a := by
  obtain ⟨s, p, htrace, heq⟩ := horderly
  have hstep := step_iff (h := h) (queued_of_trace oper as s p htrace) p.eofs a
  constructor
  · rintro ⟨t, produced, htrace', heq'⟩ s' p' hbefore
    obtain ⟨s'', p'', hbefore', hstep', rfl⟩ := trace_concat_eq_some.mp htrace'
    obtain ⟨rfl, rfl⟩ := Prod.mk.inj (Option.some.inj (htrace.symm.trans hbefore))
    obtain ⟨rfl, rfl⟩ := Prod.mk.inj (Option.some.inj (htrace.symm.trans hbefore'))
    exact hstep.mp ⟨t, hstep', heq ▸ heq'⟩
  · intro hok
    obtain ⟨t, hstep', heq'⟩ := hstep.mpr (hok s p htrace)
    exact ⟨t, _, trace_concat_eq_some.mpr ⟨s, p, htrace, hstep', rfl⟩, heq ▸ heq'⟩

theorem orderly_prefix_iff (oper : S) (as : List (Action L)) :
    (∀ pre, pre <+: as → h.Orderly oper pre) ↔
      ∀ pre a, pre ++ [a] <+: as → ∀ s p, h.trace oper pre = some (s, p) → h.Ok s p.eofs a := by
  constructor
  · intro horderly pre a hpre
    have hbefore := horderly pre ((List.prefix_append pre [a]).trans hpre)
    exact (orderly_concat_iff hbefore a).mp (horderly (pre ++ [a]) hpre)
  · intro hok pre
    induction pre using List.reverseRecOn with
    | nil => exact fun _ ↦ ⟨_, _, rfl, rfl⟩
    | append_singleton pre a ih =>
      intro hpre
      have hbefore := ih ((List.prefix_append pre [a]).trans hpre)
      exact (orderly_concat_iff hbefore a).mpr (hok pre a hpre)

end

/-- **What is posted, and what is still in the queue, is what is to be posted all along a run just
if each of its actions meets `Ok`.** -/
theorem orderly_iff {S L : Type} [DecidableEq L] (h : Fta S L) (oper : S) (as : List (Action L)) :
    (∀ pre, pre <+: as → h.Orderly oper pre) ↔
      ∀ pre a, pre ++ [a] <+: as → ∀ s p, h.trace oper pre = some (s, p) → h.Ok s p.eofs a :=
  orderly_prefix_iff oper as

/-- The same of an HFTA with several operators, from where none of them has a tuple.  A temporal
tuple without a result meets the condition there. -/
theorem orderly_multopHfta_iff {N L S : Type} [DecidableEq N] [DecidableEq L]
    (h : Multop.MultopHfta N L S Tuple) (minTupleSize : L → Nat) (outTupleSize : Nat) (op : N → S)
    (as : List (Action L)) :
    let fta := multopHfta h minTupleSize outTupleSize
    let net := (Multop.State.init op : Multop.State N S Tuple).net
    ((∀ pre, pre <+: as → fta.Orderly net pre) ↔
      ∀ pre a, pre ++ [a] <+: as → ∀ s p, fta.trace net pre = some (s, p) → fta.Ok s p.eofs a) ∧
      ∀ result, fta.StatusLast result ↔ ∀ last, result.getLast? = some last →
        fta.isStatus last = true := by
  intro fta net
  refine ⟨orderly_prefix_iff net as, fun result ↦ ?_⟩
  cases hlast : result.getLast? with
  | none =>
    exact iff_of_true (.inr ⟨List.getLast?_eq_none_iff.mp hlast, rfl⟩) fun last h ↦ by cases h
  | some last =>
    have hne : result ≠ [] := by
      rintro rfl
      cases hlast
    simp [Fta.StatusLast, hlast, hne]

/-- A selection that passes every tuple, of one byte and the type of the tuple. -/
def passHfta : Fta Unit Unit :=
  unopHfta (fun data oper ↦ (oper, [data])) (fun oper ↦ (oper, [])) (fun _ ↦ [0, temporalTuple]) 1 1

/-- An end of file overtakes a tuple that could not be posted. -/
theorem not_orderly_passHfta :
    ¬ passHfta.Orderly () [.packet () [7, 0] [] 0 false, .packet () [0, eofTuple] [] 1 true] := by
  rintro ⟨s, produced, htrace, heq⟩
  have hrun : passHfta.trace () [.packet () [7, 0] [] 0 false, .packet () [0, eofTuple] [] 1 true] =
      some (⟨(), 0, [.tuple [7, 0]], [.eof [0, eofTuple]]⟩,
        ⟨[.tuple [7, 0], .eof [0, eofTuple]], []⟩) := rfl
  rw [hrun] at htrace
  obtain ⟨rfl, rfl⟩ := Prod.mk.inj (Option.some.inj htrace)
  exact absurd heq (by decide)

end Tigon.Hfta.OutputQueue
