import Tigon.Hfta.Multop
import Tigon.Lib.Run

/-!
# An HFTA executes its plan

`MULTOP_HFTA` hands the tuples of its LFTAs to the operators, in the order of `Tigon.Hfta.Multop`:
each operator consumes its input queue, and what it puts out goes to the input queues of its
parents, or is posted, if it is the root.  There are four loops for this.  Where every operator and
every LFTA has one parent, `accept_packet` goes up from the operator that the tuple is for, and
`flush` goes through the list. Where the plan is compiled with `PLAN_DAG`, both go through the list
and put the output into a queue in between, from which it is copied to all parents.

The loop of `flush` for a DAG does not clear the queue in between, and does not set the channel.  A
`Pass` is what a loop should do.  `executes` says that in the runs whose flushes meet `FlushOk`
every step is such a pass, and that a step is one just when it meets the condition. 
`exists_not_executes` has a flush that is not: it hands a tuple to an operator that is not a parent.
-/

set_option autoImplicit false
set_option linter.unusedSectionVars false

namespace Tigon.Hfta.Multop

open Function List

variable {N L S T : Type} [DecidableEq N] [DecidableEq L]

/-! ## Operators and their queues -/

/-- The operators: what `accept_tuple` and `flush` put out, in a state. -/
structure Operators (N S T : Type) where
  accept : N → S → T → Nat → S × List T
  flush : N → S → S × List T

/-- What an operator is called with. -/
inductive Event (T : Type)
  | tuple (t : T) (channel : Nat)
  | flush

/-- The operators' states and input queues, and the calls they had. -/
structure Net (N S T : Type) where
  op : N → S
  input : N → List (T × Nat)
  received : N → List (Event T)

namespace Operators

variable (ops : Operators N S T)

def acceptAll (n : N) (s : S) : List (T × Nat) → S × List T
  | [] => (s, [])
  | t :: ts =>
    let ret := ops.accept n s t.1 t.2
    let ret' := acceptAll n ret.1 ts
    (ret'.1, ret.2 ++ ret'.2)

/-- The operator consumes the tuples, and is flushed if that is asked for. -/
def run (flushing : Bool) (n : N) (s : S) (input : List (T × Nat)) : S × List T :=
  let ret := ops.acceptAll n s input
  if flushing then
    let ret' := ops.flush n ret.1
    (ret'.1, ret.2 ++ ret'.2)
  else ret

/-- The calls for it. -/
def events (flushing : Bool) (input : List (T × Nat)) : List (Event T) :=
  input.map (fun t ↦ .tuple t.1 t.2) ++ if flushing then [.flush] else []

end Operators

namespace Net

/-- The operator consumes its input queue. -/
def consume (ops : Operators N S T) (flushing : Bool) (net : Net N S T) (n : N) :
    Net N S T × List T :=
  let ret := ops.run flushing n (net.op n) (net.input n)
  ({ op := update net.op n ret.1
     input := update net.input n []
     received := update net.received n
      (net.received n ++ Operators.events flushing (net.input n)) }, ret.2)

/-- Tuples are put at the end of the input queues. -/
def push (net : Net N S T) (tuples : N → List (T × Nat)) : Net N S T :=
  { net with input := fun n ↦ net.input n ++ tuples n }

/-- A loop over the operators.  The output of one is put into a queue, and what is in the queue is
pushed; the output of the last one is the result. -/
def route (ops : Operators N S T) (pushed : N → List T → N → List (T × Nat))
    (flushing clear : Bool) : List N → List T → Net N S T → Net N S T × List T
  | [], _, net => (net, [])
  | n :: rest, temp, net =>
    let ret := net.consume ops flushing n
    if rest = [] then (ret.1.push (pushed n temp), ret.2)
    else
      route ops pushed flushing clear rest (if clear then [] else temp ++ ret.2)
        (ret.1.push (pushed n (temp ++ ret.2)))

end Net

namespace Plan

variable (p : Plan N L) (ops : Operators N S T)

/-- The channels on which the operator hands its output to the other. -/
def edges (n m : N) : List Nat :=
  (p.parentList (.node n)).filterMap fun e ↦ if e.1 = m then some e.2 else none

/-! ## The loops for a DAG -/

/-- The output is copied to all parents.  Where the channel is not set, it is that of the operator,
0. -/
def toParents (channels : Bool) (n : N) (out : List T) (m : N) : List (T × Nat) :=
  out.flatMap fun t ↦ (p.edges n m).map fun channel ↦ (t, if channels then channel else 0)

/-- A tuple of the LFTA, as its parents have it. -/
def arrivals (l : L) (t : T) (m : N) : List (T × Nat) :=
  (p.parentList (.lfta l)).filterMap fun e ↦ if e.1 = m then some (t, e.2) else none

/-- The loop of `MULTOP_HFTA_accept_packet`, with `PLAN_DAG`. -/
def acceptDag (l : L) (t : T) (net : Net N S T) : Net N S T × List T :=
  (net.push (p.arrivals l t)).route ops (p.toParents true) false true p.sorted []

/-- The loop of `MULTOP_HFTA::flush`, with `PLAN_DAG`. -/
def flushDag (net : Net N S T) : Net N S T × List T :=
  net.route ops (p.toParents false) true false p.sorted []

/-! ## The loops for a tree -/

/-- `parent` and the output channel: those that were set last. -/
def parent (source : Source N L) : Option (N × Nat) := (p.parentList source).getLast?

/-- The output goes to the parent. -/
def toParent (n : N) (out : List T) (m : N) : List (T × Nat) :=
  match p.parent (.node n) with
  | some e => if e.1 = m then out.map fun t ↦ (t, e.2) else []
  | none => []

/-- The loop of `MULTOP_HFTA_accept_packet`, up from an operator. -/
def routeUp : Nat → N → Net N S T → Net N S T × List T
  | 0, _, net => (net, [])
  | fuel + 1, n, net =>
    let ret := net.consume ops false n
    match p.parent (.node n) with
    | none => ret
    | some e => routeUp fuel e.1 (ret.1.push (p.toParent n ret.2))

/-- There is no more than one operator for each entry of the list on the way up. -/
def acceptTree (l : L) (t : T) (net : Net N S T) : Net N S T × List T :=
  match p.parent (.lfta l) with
  | none => (net, [])
  | some e =>
    p.routeUp ops p.sorted.length e.1 (net.push fun m ↦ if e.1 = m then [(t, e.2)] else [])

/-- The loop of `MULTOP_HFTA::flush`. -/
def flushTree (net : Net N S T) : Net N S T × List T :=
  net.route ops p.toParent true true p.sorted []

/-! ## What a loop should do -/

/-- What an operator gets: the tuples that arrive, and the output of each of its children, on the
channel of each link between them. -/
def inputs (arrivals : N → List (T × Nat)) (out : N → List T) (n : N) : List (T × Nat) :=
  arrivals n ++ p.sorted.flatMap fun m ↦ (out m).flatMap fun t ↦ (p.edges m n).map fun c ↦ (t, c)

/-- Every operator is called for what it gets, and then flushed if that is asked for. -/
structure Pass (flushing : Bool) (arrivals : N → List (T × Nat)) (net net' : Net N S T)
    (out : N → List T) : Prop where
  received : ∀ n ∈ p.sorted, net'.received n =
    net.received n ++ Operators.events flushing (p.inputs arrivals out n)
  run : ∀ n ∈ p.sorted,
    (net'.op n, out n) = ops.run flushing n (net.op n) (p.inputs arrivals out n)

/-- Every operator and every LFTA has one parent at most. -/
def Tree : Prop := p.links.Pairwise fun a b ↦ a.source ≠ b.source

/-- No operator puts anything out but the root and the one before it, and what that one puts out
goes to left inputs. -/
def Quiet (out : N → List T) : Prop :=
  ∀ l n, p.sorted = l ++ [n, p.root] → (∀ m ∈ l, out m = []) ∧
    (out n ≠ [] → ∀ e ∈ p.parentList (.node n), e.2 = 0)

end Plan

/-! ## The HFTA -/

/-- What is posted: a tuple, which may be extended by a trace, or an end of file. -/
inductive Output (T : Type)
  | tuple (t : T) (trace : Bool)
  | eof (t : T)

def Output.isTuple : Output T → Bool
  | .tuple _ _ => true
  | .eof _ => false

/-- An HFTA.  It may be compiled with `PLAN_DAG`. -/
structure MultopHfta (N L S T : Type) where
  plan : Plan N L
  dag : Bool
  ops : Operators N S T
  lftas : List L
  tupleSize : T → Nat
  isTemporal : T → Bool
  /-- `get_temp_status` -/
  tempStatus : N → S → T

structure State (N S T : Type) where
  net : Net N S T
  numEofTuples : Nat
  outputQueue : List (Output T)
  posted : List (Output T)
  /-- What was put into the output queue. -/
  emitted : List (Output T)

/-- A packet, or a request to flush.  Of the output queue, so many tuples are posted before
`hfta_post_tuple` fails. -/
inductive Action (L T : Type)
  | tuple (l : L) (t : T) (temporal : Bool) (posts : Nat)
  | eof (posts : Nat) (eofPosted : Bool)
  | flush (posts : Nat)

namespace MultopHfta

variable (h : MultopHfta N L S T)

/-- What the output of the root is turned into.  Empty tuples are dropped, and so are temporal ones
of a DAG; the last one is kept if the packet was temporal, and has a trace. -/
def emit (temporal : Bool) (result : List T) : List (Output T) :=
  let rest := if temporal then result.dropLast else result
  (rest.filter fun t ↦ h.tupleSize t ≠ 0 ∧ ¬ (h.dag ∧ h.isTemporal t)).map (.tuple · false) ++
    if temporal then (result.getLast?.toList).map (.tuple · true) else []

def accept (l : L) (t : T) (net : Net N S T) : Net N S T × List T :=
  if h.dag then h.plan.acceptDag h.ops l t net else h.plan.acceptTree h.ops l t net

def flushLoop (net : Net N S T) : Net N S T × List T :=
  if h.dag then h.plan.flushDag h.ops net else h.plan.flushTree h.ops net

end MultopHfta

namespace State

variable (h : MultopHfta N L S T)

/-- The loop that posts the tuples of the output queue. -/
def post (s : State N S T) (posts : Nat) : State N S T :=
  { s with
    outputQueue := s.outputQueue.drop posts
    posted := s.posted ++ s.outputQueue.take posts }

def enqueue (s : State N S T) (net : Net N S T) (out : List (Output T)) : State N S T :=
  { s with net := net, outputQueue := s.outputQueue ++ out, emitted := s.emitted ++ out }

/-- `MULTOP_HFTA_accept_packet` for a tuple. -/
def acceptPacket (s : State N S T) (l : L) (t : T) (temporal : Bool) (posts : Nat) : State N S T :=
  let ret := h.accept l t s.net
  (s.enqueue ret.1 (h.emit temporal ret.2)).post posts

/-- `MULTOP_HFTA::flush` -/
def flush (s : State N S T) (posts : Nat) : State N S T :=
  let ret := h.flushLoop s.net
  let s := s.enqueue ret.1 (ret.2.map (.tuple · false))
  if ret.2 = [] then s else s.post posts

/-- `MULTOP_HFTA_accept_packet` for an end of file.  The one of the last LFTA causes a flush, and is
posted after it. -/
def acceptEof (s : State N S T) (posts : Nat) (eofPosted : Bool) : State N S T :=
  if s.numEofTuples + 1 < h.lftas.length then { s with numEofTuples := s.numEofTuples + 1 }
  else
    let s := { s with numEofTuples := 0 }.flush h posts
    if eofPosted then
      { s with posted := s.posted ++
          (h.plan.sorted.getLast?.map fun n ↦ .eof (h.tempStatus n (s.net.op n))).toList }
    else s

def step (s : State N S T) : Action L T → Option (State N S T)
  | .tuple l t temporal posts =>
    if l ∈ h.lftas then some (s.acceptPacket h l t temporal posts) else none
  | .eof posts eofPosted => some (s.acceptEof h posts eofPosted)
  | .flush posts => some (s.flush h posts)

def init (op : N → S) : State N S T := ⟨⟨op, fun _ ↦ [], fun _ ↦ []⟩, 0, [], [], []⟩

/-- The action flushes the operators. -/
def Flushes (s : State N S T) : Action L T → Prop
  | .tuple _ _ _ _ => False
  | .eof _ _ => ¬ s.numEofTuples + 1 < h.lftas.length
  | .flush _ => True

/-- A DAG is quiet in a flush, as it should be. -/
def FlushOk (s : State N S T) (a : Action L T) : Prop :=
  h.dag → s.Flushes h a → ∃ net' out, h.plan.Pass h.ops true (fun _ ↦ []) s.net net' out ∧
    h.plan.Quiet out

/-- The step is a pass, and what the root puts out is put into the output queue. -/
def Executes (s t : State N S T) : Action L T → Prop
  | .tuple l x temporal _ => ∃ out,
    h.plan.Pass h.ops false (h.plan.arrivals l x) s.net t.net out ∧
      t.emitted = s.emitted ++ h.emit temporal (out h.plan.root)
  | .eof _ _ =>
    if s.numEofTuples + 1 < h.lftas.length then t.net = s.net ∧ t.emitted = s.emitted
    else ∃ out, h.plan.Pass h.ops true (fun _ ↦ []) s.net t.net out ∧
      t.emitted = s.emitted ++ (out h.plan.root).map (.tuple · false)
  | .flush _ => ∃ out, h.plan.Pass h.ops true (fun _ ↦ []) s.net t.net out ∧
      t.emitted = s.emitted ++ (out h.plan.root).map (.tuple · false)

end State

/-! ## What a loop hands on -/

section

variable {p : Plan N L} {ops : Operators N S T} {pushed : N → List T → N → List (T × Nat)}
  {flushing clear : Bool} {out out' : N → List T} {order' : List N} {temp : List T} {n m : N}
  {net net' : Net N S T}

theorem Operators.run_nil (s : S) : ops.run false n s [] = (s, []) := rfl

/-- What the loop pushes to an operator, given what each of them puts out. -/
def deliveries (pushed : N → List T → N → List (T × Nat)) (clear : Bool) (out : N → List T) :
    List N → List T → N → List (T × Nat)
  | [], _, _ => []
  | n :: rest, temp, m =>
    if rest = [] then pushed n temp m
    else pushed n (temp ++ out n) m ++
      deliveries pushed clear out rest (if clear then [] else temp ++ out n) m

variable {order : List N}

theorem deliveries_congr {temp : List T} (h : ∀ n ∈ order, out n = out' n) :
    deliveries pushed clear out order temp m = deliveries pushed clear out' order temp m := by
  induction order generalizing temp with
  | nil => rfl
  | cons n rest ih =>
    rw [deliveries, deliveries, h n mem_cons_self,
      ih fun k hk ↦ h k (mem_cons_of_mem _ hk)]

theorem deliveries_eq_nil {temp : List T}
    (h : ∀ n ∈ order, ∀ temp, pushed n temp m = []) : deliveries pushed clear out order
      temp m = [] := by
  induction order generalizing temp with
  | nil => rfl
  | cons n rest ih =>
    rw [deliveries, h n mem_cons_self, h n mem_cons_self,
      ih fun k hk ↦ h k (mem_cons_of_mem _ hk)]
    split_ifs <;> rfl

/-- The operator pushes only to those that come after it. -/
def PushesLater (pushed : N → List T → N → List (T × Nat)) (order : List N) : Prop :=
  order.Pairwise (fun n m ↦ ∀ temp, pushed m temp n = []) ∧ ∀ n ∈ order, ∀ temp,
    pushed n temp n = []

theorem Net.consume_spec (ops : Operators N S T) (flushing : Bool) (net : Net N S T) (n : N) :
    (net.consume ops flushing n).1.op n = (ops.run flushing n (net.op n) (net.input n)).1 ∧
      (net.consume ops flushing n).1.received n =
        net.received n ++ Operators.events flushing (net.input n) ∧
      (net.consume ops flushing n).1.input n = [] ∧
      ∀ m, m ≠ n → (net.consume ops flushing n).1.op m = net.op m ∧
        (net.consume ops flushing n).1.received m = net.received m ∧
        (net.consume ops flushing n).1.input m = net.input m := by
  simp only [Net.consume, update_self, true_and]
  exact fun m hm ↦ ⟨update_of_ne hm _ _, update_of_ne hm _ _,
    update_of_ne hm _ _⟩

/-- **What a loop does**: every operator is called for what was in its queue and what is pushed to
it, its queue is empty after that, and the result is what the last one puts out. -/
theorem Net.route_spec (net : Net N S T) (ops : Operators N S T)
    (pushed : N → List T → N → List (T × Nat)) (flushing clear : Bool) (temp : List T)
    (hnodup : order.Nodup)
    (hlater : PushesLater pushed order) :
    ∃ out : N → List T,
      (∀ n ∈ order,
        ((net.route ops pushed flushing clear order temp).1.op n, out n) =
          ops.run flushing n (net.op n) (net.input n ++ deliveries pushed clear out order temp n) ∧
        (net.route ops pushed flushing clear order temp).1.received n = net.received n ++
          Operators.events flushing (net.input n ++ deliveries pushed clear out order temp n) ∧
        (net.route ops pushed flushing clear order temp).1.input n = []) ∧
      (∀ n, n ∉ order →
        (net.route ops pushed flushing clear order temp).1.op n = net.op n ∧
        (net.route ops pushed flushing clear order temp).1.received n = net.received n ∧
        (net.route ops pushed flushing clear order temp).1.input n =
          net.input n ++ deliveries pushed clear out order temp n) ∧
      ∀ l n, order = l ++ [n] → (net.route ops pushed flushing clear order temp).2 = out n := by
  induction order generalizing net temp with
  | nil =>
    refine ⟨fun _ ↦ [], (fun n hn ↦ by cases hn), fun n _ ↦ ⟨rfl, rfl, ?_⟩, fun l n h ↦ ?_⟩
    · rw [deliveries, append_nil]
      rfl
    · simp at h
  | cons n rest ih =>
    obtain ⟨hn, hnodup⟩ := nodup_cons.mp hnodup
    obtain ⟨hpairwise, hself⟩ := hlater
    obtain ⟨hn', hpairwise⟩ := pairwise_cons.mp hpairwise
    have hlater' : PushesLater pushed rest :=
      ⟨hpairwise, fun k hk ↦ hself k (mem_cons_of_mem _ hk)⟩
    obtain ⟨hop, hreceived, hinput, hframe⟩ := net.consume_spec ops flushing n
    have hnone (temp : List T) (out : N → List T) : deliveries pushed clear out (n :: rest)
      temp n = [] := by
      refine deliveries_eq_nil fun k hk temp ↦ ?_
      rcases mem_cons.mp hk with rfl | hk
      · exact hself k mem_cons_self temp
      · exact hn' k hk temp
    rw [Net.route]
    by_cases hrest : rest = []
    · subst hrest
      simp only [if_true]
      refine ⟨fun _ ↦ (net.consume ops flushing n).2, fun k hk ↦ ?_, fun k hk ↦ ?_,
        fun l k hk ↦ rfl⟩
      · obtain rfl := eq_of_mem_singleton hk
        rw [hnone, append_nil]
        refine ⟨Prod.ext hop rfl, hreceived, ?_⟩
        simp only [Net.push, hinput, hself k mem_cons_self, append_nil]
      · obtain ⟨hop', hreceived', hinput'⟩ := hframe k fun heq ↦ hk (heq ▸ mem_cons_self)
        refine ⟨hop', hreceived', ?_⟩
        simp only [Net.push, hinput', deliveries, if_true]
    · simp only [if_neg hrest]
      set net' := (net.consume ops flushing n).1.push
        (pushed n (temp ++ (net.consume ops flushing n).2)) with hnet'
      obtain ⟨out, hmem, hnot, hlast⟩ :=
        ih net' (if clear then [] else temp ++ (net.consume ops flushing n).2) hnodup hlater'
      set out' := update out n (net.consume ops flushing n).2 with hout'
      have hout {k : N} (hk : k ∈ rest) : out k = out' k :=
        (update_of_ne (fun heq : k = n ↦ hn (heq ▸ hk)) _ _).symm
      have houtn : out' n = (net.consume ops flushing n).2 := update_self n _ _
      -- What a later operator gets from the first one is in its queue already.
      have hcons (k : N) (hk : k ≠ n) : net'.input k ++
          deliveries pushed clear out rest
            (if clear then [] else temp ++ (net.consume ops flushing n).2) k = net.input k ++
              deliveries pushed clear out' (n :: rest) temp k := by
        rw [deliveries, if_neg hrest, deliveries_congr (fun j hj ↦ hout hj),
          houtn, ← append_assoc]
        simp only [hnet', Net.push, (hframe k hk).2.2]
      refine ⟨out', fun k hk ↦ ?_, fun k hk ↦ ?_, fun l k hk ↦ ?_⟩
      · rcases mem_cons.mp hk with rfl | hk
        · obtain ⟨hop', hreceived', hinput'⟩ := hnot k hn
          rw [hop', hreceived', hinput', hnone, append_nil, houtn]
          refine ⟨Prod.ext hop rfl, hreceived, ?_⟩
          have hrestNone : deliveries pushed clear out rest
              (if clear then [] else temp ++ (net.consume ops flushing k).2) k = [] :=
            deliveries_eq_nil fun j hj temp ↦ hn' j hj temp
          simp only [hrestNone, hnet', Net.push, hinput, hself k mem_cons_self,
            append_nil]
        · have hne : k ≠ n := fun heq ↦ hn (heq ▸ hk)
          obtain ⟨hop', hreceived', hinput'⟩ := hmem k hk
          rw [hcons k hne] at hop' hreceived'
          have hopk : net'.op k = net.op k := (hframe k hne).1
          have hrecvk : net'.received k = net.received k := (hframe k hne).2.1
          rw [← hout hk, ← hopk, ← hrecvk]
          exact ⟨hop', hreceived', hinput'⟩
      · have hne : k ≠ n := fun heq ↦ hk (heq ▸ mem_cons_self)
        obtain ⟨hop', hreceived', hinput'⟩ := hnot k fun hmem ↦ hk (mem_cons_of_mem _ hmem)
        rw [hop', hreceived', hinput', hcons k hne]
        exact ⟨(hframe k hne).1, (hframe k hne).2.1, rfl⟩
      · cases l with
        | nil =>
          rw [nil_append, cons.injEq] at hk
          exact absurd hk.2 hrest
        | cons j l =>
          obtain ⟨-, hk⟩ := cons.inj hk
          rw [hlast l k hk]
          exact hout (hk ▸ mem_append_right _ (mem_singleton_self k))

/-! ## Who gets what -/

theorem mem_edges {c : Nat} : c ∈ p.edges n m ↔ (m, c) ∈ p.parentList (.node n) := by
  simp only [Plan.edges, mem_filterMap]
  constructor
  · rintro ⟨e, he, hc⟩
    split_ifs at hc with hm
    obtain rfl := Option.some.inj hc
    exact hm ▸ he
  · exact fun h ↦ ⟨_, h, if_pos rfl⟩

theorem edges_eq_nil (h : ¬ p.IsChild n m) : p.edges n m = [] := by
  refine eq_nil_iff_forall_not_mem.mpr fun c hc ↦ h ?_
  obtain ⟨k, hk, hsource, heq⟩ := Plan.mem_parentList.mp (mem_edges.mp hc)
  exact ⟨k, hk, (Prod.mk.inj heq).1, hsource⟩

theorem toParents_eq_nil {channels : Bool} (h : ¬ p.IsChild n m) :
    p.toParents channels n temp m = [] := by
  simp [Plan.toParents, edges_eq_nil h]

theorem not_isChild_self (h : p.WellFormed) : ¬ p.IsChild n n := by
  obtain ⟨rank, hrank⟩ := h.acyclic
  exact fun hn ↦ lt_irrefl _ (hrank n n hn)

/-- The root is no operator's child. -/
theorem not_isChild_root (h : p.WellFormed) : ¬ p.IsChild p.root m := by
  obtain ⟨rank, hrank⟩ := h.acyclic
  rintro ⟨k, hk, rfl, hsource⟩
  have hle : ∀ n, p.Reached n → rank n ≤ rank p.root := by
    intro n hn
    induction hn with
    | refl => exact le_rfl
    | tail _ hc ih => exact (hrank _ _ hc).le.trans ih
  have hlt := hrank k.parent p.root ⟨k, hk, rfl, hsource⟩
  exact absurd (hle k.parent (h.reached k hk)) (by omega)

variable {l₁ l₂ : List N}

/-- An operator that others come after is not the root, and has a parent. -/
theorem exists_parent (h : p.WellFormed) (hsplit : p.sorted = l₁ ++ n :: l₂)
    (hl₂ : l₂ ≠ []) : ∃ k ∈ p.links, k.source = .node n := by
  obtain ⟨hnodup, hmem, -, l, hl⟩ := Plan.sorted_spec h
  have hn : n ∈ p.sorted := hsplit ▸ mem_append_right _ mem_cons_self
  rcases Relation.ReflTransGen.cases_tail ((hmem n).mp hn) with rfl | ⟨m, -, k, hk, -, hsource⟩
  · rw [hsplit] at hnodup hl
    have hlast := congrArg getLast? hl
    rw [getLast?_append, getLast?_concat, getLast?_cons_of_ne_nil hl₂] at hlast
    obtain ⟨z, hz⟩ := Option.isSome_iff_exists.mp (getLast?_isSome.mpr hl₂)
    rw [hz, Option.some_or, Option.some_inj] at hlast
    have hroot := mem_of_getLast? hz
    rw [hlast] at hroot
    exact absurd hroot (nodup_cons.mp (nodup_append.mp hnodup).2.1).1
  · exact ⟨k, hk, hsource⟩

theorem pushesLater (h : p.WellFormed)
    (hpushed : ∀ n m, ¬ p.IsChild n m → ∀ temp, pushed n temp m = []) :
    PushesLater pushed p.sorted := by
  obtain ⟨hnodup, -, htop, -⟩ := Plan.sorted_spec h
  refine ⟨?_, fun n _ ↦ hpushed n n (not_isChild_self h)⟩
  refine pairwise_iff_forall_sublist.mpr fun {n m} hsub ↦ hpushed m n fun hchild ↦ ?_
  -- A child comes before its parent, and is not there twice.
  obtain ⟨l₁, l₂, hsplit, hn, hm⟩ := cons_sublist_iff.mp hsub
  obtain ⟨k₁, k₂, rfl⟩ := append_of_mem hn
  have hmem : m ∈ k₁ := htop k₁ n (k₂ ++ l₂)
    (by rw [hsplit, append_assoc, cons_append]) m hchild
  rw [hsplit] at hnodup
  exact (nodup_append.mp hnodup).2.2 m (mem_append_left _ hmem) m
    (singleton_sublist.mp hm) rfl

theorem deliveries_clear (hlast : ∀ l n, order = l ++ [n] → ∀ temp, pushed n temp m = []) :
    deliveries pushed true out order [] m = order.flatMap fun n ↦ pushed n (out n) m := by
  induction order with
  | nil => rfl
  | cons n rest ih =>
    rw [deliveries, flatMap_cons]
    by_cases hrest : rest = []
    · subst hrest
      simp only [if_true, flatMap_nil, append_nil]
      rw [hlast [] n rfl, hlast [] n rfl]
    · rw [if_neg hrest, if_pos rfl, nil_append, ih fun l k hk ↦ hlast (n :: l) k (hk ▸ rfl)]

/-- A loop that clears the queue and copies to all parents on their channels is a pass. -/
theorem pass_route (h : p.WellFormed) {arrivals : N → List (T × Nat)} {net net' : Net N S T}
    (hop : net'.op = net.op) (hreceived : net'.received = net.received)
    (hinput : ∀ n ∈ p.sorted, net'.input n = arrivals n) :
    ∃ out, p.Pass ops flushing arrivals net
        (net'.route ops (p.toParents true) flushing true p.sorted []).1 out ∧
      (net'.route ops (p.toParents true) flushing true p.sorted []).2 = out p.root ∧
      ∀ n ∈ p.sorted, (net'.route ops (p.toParents true) flushing true p.sorted []).1.input
        n = [] := by
  obtain ⟨hnodup, -, -, l, hl⟩ := Plan.sorted_spec h
  obtain ⟨out, hmem, -, hlast⟩ := net'.route_spec ops (p.toParents true) flushing true [] hnodup
    (pushesLater h fun n m hn temp ↦ toParents_eq_nil hn)
  have hdeliveries (n : N) : deliveries (p.toParents true) true out p.sorted [] n =
      p.sorted.flatMap fun m ↦ p.toParents true m (out m) n := by
    refine deliveries_clear fun l' n' hl' temp ↦ ?_
    obtain ⟨-, hroot⟩ := append_inj' (hl.symm.trans hl') rfl
    obtain rfl := singleton_inj.mp hroot
    exact toParents_eq_nil (not_isChild_root h)
  refine ⟨out, ⟨fun n hn ↦ ?_, fun n hn ↦ ?_⟩, hlast l _ hl, fun n hn ↦ (hmem n hn).2.2⟩
  · rw [(hmem n hn).2.1, hreceived, hinput n hn, hdeliveries]
    rfl
  · rw [(hmem n hn).1, hop, hinput n hn, hdeliveries]
    rfl

/-! ## Trees -/

/-- In a tree, there is no other parent. -/
theorem parentList_eq (htree : p.Tree) (source : Source N L) :
    p.parentList source = (p.parent source).toList := by
  have hpairwise : (p.parentList source).Pairwise fun _ _ ↦ False := by
    refine pairwise_filterMap.mpr (htree.imp fun {a b} hab e he e' he' ↦ ?_)
    split_ifs at he he' with ha hb
    exact hab (ha.trans hb.symm)
  rw [Plan.parent]
  cases hlist : p.parentList source with
  | nil => rfl
  | cons e es =>
    cases es with
    | nil => rfl
    | cons e' es =>
      rw [hlist] at hpairwise
      exact ((pairwise_cons.mp hpairwise).1 e' mem_cons_self).elim

theorem toParent_eq (htree : p.Tree) : p.toParent n temp m = p.toParents true n temp m := by
  have hlist := parentList_eq htree (.node n)
  simp only [Plan.toParent, Plan.toParents, Plan.edges, if_true]
  cases hparent : p.parent (.node n) with
  | none => simp [hlist, hparent]
  | some e =>
    rw [hlist, hparent]
    by_cases hm : e.1 = m <;> simp [hm, map_eq_flatMap]

theorem push_nil : net.push (fun _ ↦ []) = net := by
  simp only [Net.push, append_nil]

/-- An operator that gets nothing puts nothing out. -/
theorem consume_of_input_eq_nil (h : net.input n = []) : net.consume ops false n = (net, []) := by
  have hop : update net.op n (net.op n) = net.op := update_eq_self n _
  have hinput : update net.input n [] = net.input := h ▸ update_eq_self n _
  have hreceived : update net.received n (net.received n) = net.received :=
    update_eq_self n _
  simp only [Net.consume, h, Operators.run_nil, Operators.events, map_nil, Bool.false_eq_true,
    if_false, append_nil, hop, hinput, hreceived]

/-- Operators that get nothing may be passed over. -/
theorem route_append {before : List N} (horder : order' ≠ []) (hnil : ∀ n m, pushed n [] m = [])
    (hinput : ∀ n ∈ before, net.input n = []) :
    net.route ops pushed false true (before ++ order') [] = net.route ops pushed false true
      order' [] := by
  induction before with
  | nil => rfl
  | cons n before ih =>
    have hne : before ++ order' ≠ [] := fun hnil ↦ horder (append_eq_nil_iff.mp hnil).2
    rw [cons_append, Net.route, if_neg hne,
      consume_of_input_eq_nil (hinput n mem_cons_self)]
    have hpush : pushed n ([] ++ []) = fun _ ↦ [] := funext fun m ↦ hnil n m
    simp only [if_true, hpush, push_nil]
    exact ih fun k hk ↦ hinput k (mem_cons_of_mem _ hk)

theorem toParent_nil : p.toParent n ([] : List T) m = [] := by
  rw [Plan.toParent]
  split
  · split_ifs <;> rfl
  · rfl

/-- The way up from an operator is the loop over the list, if no other has tuples in its queue. -/
theorem routeUp_eq (h : p.WellFormed) {fuel : Nat} {net : Net N S T}
    (hsplit : p.sorted = l₁ ++ n :: l₂) (hfuel : l₂.length < fuel)
    (hinput : ∀ m ∈ p.sorted, m ≠ n → net.input m = []) :
    p.routeUp ops fuel n net = net.route ops p.toParent false true (n :: l₂) [] := by
  obtain ⟨hnodup, hmem, htop, l, hl⟩ := Plan.sorted_spec h
  induction fuel generalizing n l₁ l₂ net with
  | zero => omega
  | succ fuel ih =>
    have hn : n ∈ p.sorted := hsplit ▸ mem_append_right _ mem_cons_self
    rw [Plan.routeUp, Net.route]
    by_cases hl₂ : l₂ = []
    · subst hl₂
      obtain ⟨-, hroot⟩ := append_inj' (hl.symm.trans hsplit) rfl
      obtain rfl := singleton_inj.mp hroot
      have hparent : p.parent (.node p.root) = none := by
        rw [Plan.parent, getLast?_eq_none_iff]
        refine eq_nil_iff_forall_not_mem.mpr fun e he ↦ ?_
        obtain ⟨k, hk, hsource, -⟩ := Plan.mem_parentList.mp he
        exact not_isChild_root h ⟨k, hk, rfl, hsource⟩
      have hpush : p.toParent p.root ([] : List T) = fun _ ↦ [] := funext fun m ↦ toParent_nil
      simp only [hparent, if_true, hpush, push_nil]
    · -- The operator is not the root, so it has a parent, which comes later.
      obtain ⟨k, hk, hsource⟩ := exists_parent h hsplit hl₂
      obtain ⟨e, he⟩ : ∃ e, p.parent (.node n) = some e := by
        refine Option.isSome_iff_exists.mp (getLast?_isSome.mpr ?_)
        exact ne_nil_of_mem (Plan.mem_parentList.mpr ⟨k, hk, hsource, rfl⟩)
      have hchild : p.IsChild n e.1 := by
        obtain ⟨k, hk, hsource, heq⟩ := Plan.mem_parentList.mp (mem_of_getLast? he)
        exact ⟨k, hk, congrArg Prod.fst heq, hsource⟩
      have hlater : e.1 ∈ l₂ := by
        have hreached : p.Reached e.1 := by
          obtain ⟨k, hk, hparent, -⟩ := hchild
          exact hparent ▸ h.reached k hk
        have hmem' : e.1 ∈ l₁ ++ n :: l₂ := hsplit ▸ (hmem e.1).mpr hreached
        rcases mem_append.mp hmem' with hbefore | hafter
        · obtain ⟨k₁, k₂, hk⟩ := append_of_mem hbefore
          have hmem₁ : n ∈ k₁ := htop k₁ e.1 (k₂ ++ n :: l₂) (by
            rw [hsplit, hk, append_assoc, cons_append]) n hchild
          rw [hsplit] at hnodup
          exact absurd rfl ((nodup_append.mp hnodup).2.2 n
            (hk ▸ mem_append_left _ hmem₁) n mem_cons_self)
        · rcases mem_cons.mp hafter with heq | hafter
          · exact absurd (heq ▸ hchild) (not_isChild_self h)
          · exact hafter
      obtain ⟨k₁, k₂, rfl⟩ := append_of_mem hlater
      obtain ⟨-, -, hempty, hframe⟩ := net.consume_spec ops false n
      have hinput' : ∀ m ∈ p.sorted, m ≠ e.1 → ((net.consume ops false n).1.push
          (p.toParent n (net.consume ops false n).2)).input m = [] := by
        intro m hm hme
        have hnil : p.toParent n (net.consume ops false n).2 m = [] := by
          rw [Plan.toParent, he]
          exact if_neg hme.symm
        simp only [Net.push, hnil, append_nil]
        by_cases hmn : m = n
        · rw [hmn, hempty]
        · rw [(hframe m hmn).2.2, hinput m hm hmn]
      have hsplit' : p.sorted = (l₁ ++ n :: k₁) ++ e.1 :: k₂ := by
        rw [hsplit, append_assoc, cons_append]
      rw [length_append, length_cons] at hfuel
      simp only [he, if_neg hl₂, if_true, nil_append]
      rw [ih hsplit' (by omega) hinput', route_append (cons_ne_nil _ _)
        (fun n m ↦ toParent_nil)]
      intro m hm
      refine hinput' m (hsplit' ▸ mem_append_left _
        (mem_append_right _ (mem_cons_of_mem _ hm))) ?_
      rintro rfl
      rw [hsplit'] at hnodup
      exact (nodup_append.mp hnodup).2.2 e.1
        (mem_append_right _ (mem_cons_of_mem _ hm)) e.1 mem_cons_self rfl

/-- The queues of the operators are empty. -/
def Net.Idle (p : Plan N L) (net : Net N S T) : Prop := ∀ n ∈ p.sorted, net.input n = []

/-- **A packet in a DAG.** -/
theorem acceptDag_spec (h : p.WellFormed) (hidle : net.Idle p) (l : L) (t : T) :
    ∃ out, p.Pass ops false (p.arrivals l t) net (p.acceptDag ops l t net).1 out ∧
      (p.acceptDag ops l t net).2 = out p.root ∧ (p.acceptDag ops l t net).1.Idle p := by
  refine pass_route h rfl rfl fun n hn ↦ ?_
  simp only [Net.push, hidle n hn, nil_append]

/-- **A packet in a tree.** -/
theorem acceptTree_spec (h : p.WellFormed) (htree : p.Tree) (hidle : net.Idle p) {l : L} (t : T)
    (hl : ∃ k ∈ p.links, k.source = .lfta l) :
    ∃ out, p.Pass ops false (p.arrivals l t) net (p.acceptTree ops l t net).1 out ∧
      (p.acceptTree ops l t net).2 = out p.root ∧ (p.acceptTree ops l t net).1.Idle p := by
  obtain ⟨k, hk, hsource⟩ := hl
  obtain ⟨e, he⟩ : ∃ e, p.parent (.lfta l) = some e := by
    refine Option.isSome_iff_exists.mp (getLast?_isSome.mpr ?_)
    exact ne_nil_of_mem (Plan.mem_parentList.mpr ⟨k, hk, hsource, rfl⟩)
  have hlist : p.parentList (.lfta l) = [e] := by
    rw [parentList_eq htree, he]
    rfl
  have hmem : e.1 ∈ p.sorted := by
    obtain ⟨k', hk', -, heq⟩ := Plan.mem_parentList.mp (mem_of_getLast? he)
    exact ((Plan.sorted_spec h).2.1 e.1).mpr (congrArg Prod.fst heq ▸ h.reached k' hk')
  have harrivals (n : N) : p.arrivals l t n = if e.1 = n then [(t, e.2)] else [] := by
    rw [Plan.arrivals, hlist]
    by_cases hn : e.1 = n <;> simp [hn]
  obtain ⟨l₁, l₂, hsplit⟩ := append_of_mem hmem
  set net' := net.push fun m ↦ if e.1 = m then [(t, e.2)] else [] with hnet'
  have hinput : ∀ n ∈ p.sorted, net'.input n = p.arrivals l t n := fun n hn ↦ by
    rw [harrivals]
    simp only [hnet', Net.push, hidle n hn, nil_append]
  have hnot : ∀ n ∈ p.sorted, n ≠ e.1 → net'.input n = [] := fun n hn hne ↦ by
    rw [hinput n hn, harrivals, if_neg hne.symm]
  have hroute : p.acceptTree ops l t net =
      net'.route ops (p.toParents true) false true p.sorted [] := by
    have hpushed : p.toParents (T := T) true = p.toParent :=
      funext fun n ↦ funext fun temp ↦ funext fun m ↦ (toParent_eq htree).symm
    have hfuel : l₂.length < p.sorted.length := by
      rw [hsplit, length_append, length_cons]
      omega
    have hbefore : ∀ n ∈ l₁, net'.input n = [] := fun n hn ↦ by
      refine hnot n (hsplit ▸ mem_append_left _ hn) ?_
      rintro rfl
      have hnodup := (Plan.sorted_spec h).1
      rw [hsplit] at hnodup
      exact (nodup_append.mp hnodup).2.2 e.1 hn e.1 mem_cons_self rfl
    rw [Plan.acceptTree, he]
    simp only
    rw [routeUp_eq h hsplit hfuel hnot, hpushed, hsplit,
      route_append (cons_ne_nil _ _) (fun n m ↦ toParent_nil) hbefore]
  rw [hroute]
  exact pass_route h rfl rfl hinput

/-- **A flush of a tree.** -/
theorem flushTree_spec (ops : Operators N S T) (h : p.WellFormed) (htree : p.Tree)
    (hidle : net.Idle p) : ∃ out, p.Pass ops true (fun _ ↦ []) net (p.flushTree ops net).1 out ∧
      (p.flushTree ops net).2 = out p.root ∧ (p.flushTree ops net).1.Idle p := by
  have hpushed : p.toParent (T := T) = p.toParents true :=
    funext fun n ↦ funext fun temp ↦ funext fun m ↦ toParent_eq htree
  rw [Plan.flushTree, hpushed]
  exact pass_route h rfl rfl hidle

/-! ## The flush of a DAG -/

/-- What the loop does that neither clears the queue nor sets the channels. -/
theorem flushDag_spec (ops : Operators N S T) (h : p.WellFormed) (hidle : net.Idle p) :
    ∃ out, (∀ n ∈ p.sorted,
        ((p.flushDag ops net).1.op n, out n) = ops.run true n (net.op n)
          (deliveries (p.toParents false) false out p.sorted [] n) ∧
        (p.flushDag ops net).1.received n = net.received n ++
          Operators.events true (deliveries (p.toParents false) false out p.sorted [] n)) ∧
      (p.flushDag ops net).2 = out p.root ∧ (p.flushDag ops net).1.Idle p := by
  obtain ⟨hnodup, -, -, l, hl⟩ := Plan.sorted_spec h
  obtain ⟨out, hmem, -, hlast⟩ := net.route_spec ops (p.toParents false) true false [] hnodup
    (pushesLater h fun n m hn temp ↦ toParents_eq_nil hn)
  refine ⟨out, fun n hn ↦ ?_, hlast l _ hl, fun n hn ↦ (hmem n hn).2.2⟩
  obtain ⟨hrun, hreceived, -⟩ := hmem n hn
  rw [hidle n hn, nil_append] at hrun hreceived
  exact ⟨hrun, hreceived⟩

theorem length_toParents {channels : Bool} :
    (p.toParents channels n temp m).length = temp.length * (p.edges n m).length := by
  simp [Plan.toParents, length_flatMap]

/-- Nothing that should be pushed is left out, -/
theorem le_length_deliveries (temp : List T)
    (hlast : ∀ l n, order = l ++ [n] → p.edges n m = []) :
    (order.map fun n ↦ (out n).length * (p.edges n m).length).sum ≤
      (deliveries (p.toParents false) false out order temp m).length := by
  induction order generalizing temp with
  | nil => exact Nat.zero_le _
  | cons n rest ih =>
    rw [map_cons, sum_cons, deliveries]
    by_cases hrest : rest = []
    · subst hrest
      rw [hlast [] n rfl]
      simp
    · rw [if_neg hrest, if_neg Bool.false_ne_true, length_append, length_toParents,
        length_append]
      have hle := ih (temp ++ out n) fun l k hk ↦ hlast (n :: l) k (hk ▸ rfl)
      rw [Nat.add_mul]
      omega

/-- and what an operator has put out is pushed again for the next one. -/
theorem lt_length_deliveries {n n' : N} (temp : List T) (hn : out n ≠ []) (hl₂ : l₂ ≠ [])
    (hedge : p.edges n' m ≠ []) (hlast : ∀ l k, l₁ ++ n :: n' :: l₂ = l ++ [k] → p.edges k m = []) :
    ((l₁ ++ n :: n' :: l₂).map fun n ↦ (out n).length * (p.edges n m).length).sum <
      (deliveries (p.toParents false) false out (l₁ ++ n :: n' :: l₂) temp m).length := by
  induction l₁ generalizing temp with
  | nil =>
    have hpos : 0 < (out n).length * (p.edges n' m).length :=
      Nat.mul_pos (length_pos_of_ne_nil hn) (length_pos_of_ne_nil hedge)
    have hle : (l₂.map fun n ↦ (out n).length * (p.edges n m).length).sum ≤
        (deliveries (p.toParents false) false out l₂ (temp ++ out n ++ out n') m).length :=
      le_length_deliveries _ fun l k hk ↦ hlast (n :: n' :: l) k (congrArg (n :: n' :: ·) hk)
    rw [nil_append, deliveries, deliveries, if_neg (cons_ne_nil _ _), if_neg hl₂]
    simp only [Bool.false_eq_true, if_false, map_cons, sum_cons, length_append,
      length_toParents, Nat.add_mul]
    omega
  | cons k l₁ ih =>
    have hlt := ih (temp ++ out k) fun l j hj ↦ hlast (k :: l) j (by rw [cons_append, hj]; rfl)
    have hne : l₁ ++ n :: n' :: l₂ ≠ [] := by simp
    rw [cons_append, map_cons, sum_cons, deliveries, if_neg hne, length_append,
      length_toParents, length_append, Nat.add_mul, if_neg Bool.false_ne_true]
    omega

theorem snd_of_mem_deliveries {temp : List T} {x : T × Nat}
    (hx : x ∈ deliveries (p.toParents false) false out order temp m) : x.2 = 0 := by
  have hpushed {n : N} {temp : List T} (hx : x ∈ p.toParents false n temp m) : x.2 = 0 := by
    obtain ⟨t, -, ht⟩ := mem_flatMap.mp hx
    obtain ⟨c, -, rfl⟩ := mem_map.mp ht
    rfl
  induction order generalizing temp with
  | nil => cases hx
  | cons n rest ih =>
    rw [deliveries] at hx
    by_cases hrest : rest = []
    · rw [if_pos hrest] at hx
      exact hpushed hx
    · rw [if_neg hrest] at hx
      exact (mem_append.mp hx).elim hpushed ih

/-- What an operator gets is given by what those before it put out. -/
theorem deliveries_congr_before {temp : List T} (h : ∀ n ∈ l₁, out n = out' n)
    (hnil : ∀ n ∈ l₂, ∀ temp, pushed n temp m = []) :
    deliveries pushed clear out (l₁ ++ l₂) temp m = deliveries pushed clear out'
      (l₁ ++ l₂) temp m := by
  induction l₁ generalizing temp with
  | nil => rw [nil_append, deliveries_eq_nil hnil, deliveries_eq_nil hnil]
  | cons n l₁ ih =>
    rw [cons_append, deliveries, deliveries, h n mem_cons_self,
      ih fun k hk ↦ h k (mem_cons_of_mem _ hk)]

/-- Operators that put nothing out leave the queue empty. -/
theorem deliveries_append (hl₂ : l₂ ≠ []) (h : ∀ n ∈ l₁, out n = []) :
    deliveries (p.toParents false) false out (l₁ ++ l₂) [] m =
      deliveries (p.toParents false) false out l₂ [] m := by
  induction l₁ with
  | nil => rfl
  | cons n l₁ ih =>
    have hne : l₁ ++ l₂ ≠ [] := fun hnil ↦ hl₂ (append_eq_nil_iff.mp hnil).2
    rw [cons_append, deliveries, if_neg hne, h n mem_cons_self]
    exact ih fun k hk ↦ h k (mem_cons_of_mem _ hk)

theorem inputs_eq {arrivals : N → List (T × Nat)} : p.inputs arrivals out n =
    arrivals n ++ p.sorted.flatMap fun m ↦ p.toParents true m (out m) n := rfl

/-- If all are quiet, it makes no difference. -/
theorem deliveries_of_quiet (h : p.WellFormed) (hquiet : p.Quiet out) :
    deliveries (p.toParents false) false out p.sorted [] m = p.inputs (fun _ ↦ []) out m := by
  obtain ⟨-, -, -, l, hl⟩ := Plan.sorted_spec h
  have hroot {channels : Bool} {temp : List T} : p.toParents channels p.root temp m = [] :=
    toParents_eq_nil (not_isChild_root h)
  rw [inputs_eq, nil_append]
  rcases eq_nil_or_concat l with rfl | ⟨l, n, rfl⟩
  · rw [hl, nil_append, flatMap_singleton, deliveries, if_pos rfl, hroot, hroot]
  · have hsplit : p.sorted = l ++ [n, p.root] := by
      rw [hl, concat_eq_append, append_assoc]
      rfl
    obtain ⟨hnil, hchannel⟩ := hquiet l n hsplit
    have hbefore : (l.flatMap fun k ↦ p.toParents true k (out k) m) = [] := by
      refine flatMap_eq_nil_iff.mpr fun k hk ↦ ?_
      rw [hnil k hk]
      rfl
    have hsame : p.toParents false n (out n) m = p.toParents true n (out n) m := by
      by_cases hn : out n = []
      · rw [hn]
        rfl
      · refine congrArg (out n).flatMap (funext fun t ↦ map_congr_left fun c hc ↦ ?_)
        have hzero : c = 0 := hchannel hn (m, c) (mem_edges.mp hc)
        rw [if_neg Bool.false_ne_true, if_pos rfl, hzero]
    have hafter : ([n, p.root].flatMap fun k ↦ p.toParents true k (out k) m) =
        p.toParents true n (out n) m := by
      rw [flatMap_cons, flatMap_singleton, hroot, append_nil]
    rw [hsplit, deliveries_append (cons_ne_nil _ _) hnil, deliveries,
      if_neg (cons_ne_nil _ _), deliveries, if_pos rfl, nil_append, hroot,
        append_nil, hsame, flatMap_append, hbefore,
      hafter, nil_append]

/-- Two passes over the list that agree on what is handed on put the same out. -/
theorem eq_of_run (ops : Operators N S T) (net : Net N S T) {out' : N → List T} (h : p.WellFormed)
    (hout : ∀ n ∈ p.sorted, out n = (ops.run true n (net.op n)
      (deliveries (p.toParents false) false out p.sorted [] n)).2)
    (hout' : ∀ n ∈ p.sorted, out' n = (ops.run true n (net.op n)
      (deliveries (p.toParents false) false out' p.sorted [] n)).2) :
    ∀ n ∈ p.sorted, out n = out' n := by
  have hlater : PushesLater (p.toParents (T := T) false) p.sorted :=
    pushesLater h fun n m hn temp ↦ toParents_eq_nil hn
  -- By induction on how far the list was gone through.
  have hbefore : ∀ l₁ l₂, p.sorted = l₁ ++ l₂ → ∀ n ∈ l₁, out n = out' n := by
    intro l₁
    induction l₁ using reverseRecOn with
    | nil => exact fun _ _ n hn ↦ by cases hn
    | append_singleton l n ih =>
      intro l₂ hsplit
      have hsplit' : p.sorted = l ++ n :: l₂ := by
        rw [hsplit, append_assoc]
        rfl
      have hl := ih (n :: l₂) hsplit'
      intro m hm
      rcases mem_append.mp hm with hm | hm
      · exact hl m hm
      · obtain rfl := eq_of_mem_singleton hm
        have hmem : m ∈ p.sorted := hsplit' ▸ mem_append_right _ mem_cons_self
        have hnil : ∀ k ∈ m :: l₂, ∀ temp : List T, p.toParents false k temp m = [] := by
          intro k hk temp
          rcases mem_cons.mp hk with rfl | hk
          · exact hlater.2 k hmem temp
          · have hpairwise := hlater.1
            rw [hsplit'] at hpairwise
            exact (pairwise_cons.mp (pairwise_append.mp hpairwise).2.1).1 k hk temp
        rw [hout m hmem, hout' m hmem, hsplit', deliveries_congr_before hl hnil]
  exact hbefore p.sorted [] (append_nil _).symm

theorem events_inj {a b : List (T × Nat)}
    (h : Operators.events true a = Operators.events true b) : a = b := by
  have hmap := append_cancel_right h
  refine map_injective_iff.mpr (fun x y hxy ↦ ?_) hmap
  exact Prod.ext (Event.tuple.inj hxy).1 (Event.tuple.inj hxy).2

/-- **A flush of a DAG** is a pass just when the operators are quiet. -/
theorem flushDag_pass_iff (h : p.WellFormed) (hidle : net.Idle p) :
    (∃ out, p.Pass ops true (fun _ ↦ []) net (p.flushDag ops net).1 out ∧
      (p.flushDag ops net).2 = out p.root) ↔
    ∃ net' out, p.Pass ops true (fun _ ↦ []) net net' out ∧ p.Quiet out := by
  obtain ⟨hnodup, hmem, htop, l, hl⟩ := Plan.sorted_spec h
  obtain ⟨outc, hloop, hresult, -⟩ := flushDag_spec ops h hidle
  constructor
  · rintro ⟨out, hpass, -⟩
    refine ⟨_, out, hpass, ?_⟩
    -- What the operators were called with is both what they should get and what they were handed.
    have hsame : ∀ n ∈ p.sorted, p.inputs (fun _ ↦ []) out n =
        deliveries (p.toParents false) false outc p.sorted [] n := fun n hn ↦
      events_inj (append_cancel_left ((hpass.received n hn).symm.trans (hloop n hn).2))
    have hout : ∀ n ∈ p.sorted, outc n = out n := fun n hn ↦ by
      have hrun := hpass.run n hn
      rw [hsame n hn, ← (hloop n hn).1] at hrun
      exact (Prod.mk.inj hrun).2.symm
    have heq : ∀ n ∈ p.sorted, p.inputs (fun _ ↦ []) out n =
        deliveries (p.toParents false) false out p.sorted [] n := fun n hn ↦
      (hsame n hn).trans (deliveries_congr hout)
    intro l' n hsplit
    have hn : n ∈ p.sorted := by
      rw [hsplit]
      exact mem_append_right _ mem_cons_self
    refine ⟨fun m hm ↦ ?_, fun hne e he ↦ ?_⟩
    · by_contra hne
      -- The operator after this one has a parent, which gets too much.
      obtain ⟨k₁, k₂, rfl⟩ := append_of_mem hm
      obtain ⟨n', rest, hrest, hsplit'⟩ : ∃ n' rest, rest ≠ [] ∧ p.sorted = k₁ ++ m ::
        n' :: rest := by
        cases k₂ with
        | nil => exact ⟨n, [p.root], cons_ne_nil _ _, by rw [hsplit, append_assoc]; rfl⟩
        | cons n' k₂ =>
          exact ⟨n', k₂ ++ [n, p.root], by simp, by rw [hsplit, append_assoc]; rfl⟩
      have hafter : p.sorted = (k₁ ++ [m]) ++ n' :: rest := by
        rw [hsplit', append_assoc]
        rfl
      obtain ⟨k, hk, hsource⟩ := exists_parent h hafter hrest
      have hedge : p.edges n' k.parent ≠ [] :=
        ne_nil_of_mem (mem_edges.mpr (Plan.mem_parentList.mpr ⟨k, hk, hsource, rfl⟩))
      have hlt := lt_length_deliveries (p := p) (m := k.parent) [] hne hrest hedge fun l k hk ↦ by
        obtain ⟨-, hk⟩ := append_inj' (hl.symm.trans (hsplit'.trans hk)) rfl
        obtain rfl := singleton_inj.mp hk
        exact edges_eq_nil (not_isChild_root h)
      rw [← hsplit', ← heq k.parent ((hmem k.parent).mpr (h.reached k hk)), inputs_eq,
        nil_append, length_flatMap] at hlt
      simp only [length_toParents] at hlt
      exact lt_irrefl _ hlt
    · obtain ⟨t, ht⟩ := exists_mem_of_ne_nil _ hne
      have hqmem : e.1 ∈ p.sorted := by
        obtain ⟨k, hk, -, heq'⟩ := Plan.mem_parentList.mp he
        exact (hmem e.1).mpr (congrArg Prod.fst heq' ▸ h.reached k hk)
      have hx : (t, e.2) ∈ p.inputs (fun _ ↦ []) out e.1 :=
        mem_append_right _ (mem_flatMap.mpr ⟨n, hn, mem_flatMap.mpr ⟨t, ht,
          mem_map.mpr ⟨e.2, mem_edges.mpr he, rfl⟩⟩⟩)
      rw [heq e.1 hqmem] at hx
      have hzero : ((t, e.2) : T × Nat).2 = 0 := snd_of_mem_deliveries hx
      exact hzero
  · rintro ⟨net', out, hpass, hquiet⟩
    have hdeliveries (n : N) := deliveries_of_quiet (m := n) h hquiet
    have hout : ∀ n ∈ p.sorted, outc n = out n := by
      refine eq_of_run ops net h (fun n hn ↦ ?_) fun n hn ↦ ?_
      · rw [← (hloop n hn).1]
      · rw [hdeliveries, ← hpass.run n hn]
    have heq (n : N) : deliveries (p.toParents false) false outc p.sorted [] n =
        p.inputs (fun _ ↦ []) out n := (deliveries_congr hout).trans (hdeliveries n)
    refine ⟨out, ⟨fun n hn ↦ ?_, fun n hn ↦ ?_⟩, ?_⟩
    · rw [(hloop n hn).2, heq]
    · rw [← heq, ← hout n hn]
      exact (hloop n hn).1
    · rw [hresult, hout p.root ((hmem p.root).mpr .refl)]

end

/-! ## The runs of an HFTA -/

/-- The plan is well formed, it is a tree unless it is compiled with `PLAN_DAG`, and the LFTAs are
linked. -/
structure MultopHfta.Built (h : MultopHfta N L S T) : Prop where
  wellFormed : h.plan.WellFormed
  tree : h.dag = false → h.plan.Tree
  linked : ∀ l ∈ h.lftas, ∃ k ∈ h.plan.links, k.source = .lfta l

namespace State

variable {h : MultopHfta N L S T} {s t : State N S T}

/-- What holds between the calls. -/
structure Inv (h : MultopHfta N L S T) (s : State N S T) : Prop where
  idle : s.net.Idle h.plan
  emitted : s.posted.filter Output.isTuple ++ s.outputQueue = s.emitted
  tuples : ∀ o ∈ s.outputQueue, o.isTuple

theorem inv_init (op : N → S) : Inv h (init op : State N S T) :=
  ⟨fun _ _ ↦ rfl, rfl, (fun o ho ↦ by cases ho)⟩

theorem inv_enqueue {net : Net N S T} {out : List (Output T)} (hs : Inv h s)
    (hidle : net.Idle h.plan) (hout : ∀ o ∈ out, o.isTuple) : Inv h (s.enqueue net out) := by
  refine ⟨hidle, ?_, fun o ho ↦ ?_⟩
  · simp only [enqueue, ← hs.emitted, append_assoc]
  · exact (mem_append.mp ho).elim (hs.tuples o) (hout o)

theorem inv_post (hs : Inv h s) (posts : Nat) : Inv h (s.post posts) := by
  refine ⟨hs.idle, ?_, fun o ho ↦ hs.tuples o (mem_of_mem_drop ho)⟩
  have htake : (s.outputQueue.take posts).filter Output.isTuple = s.outputQueue.take posts :=
    filter_eq_self.mpr fun o ho ↦ hs.tuples o (mem_of_mem_take ho)
  simp only [post, filter_append, htake, append_assoc, take_append_drop]
  exact hs.emitted

theorem isTuple_emit {temporal : Bool} {result : List T} : ∀ o ∈ h.emit temporal result,
    o.isTuple := by
  intro o ho
  rcases mem_append.mp ho with ho | ho
  · obtain ⟨x, -, rfl⟩ := mem_map.mp ho
    rfl
  · split_ifs at ho
    · obtain ⟨x, -, rfl⟩ := mem_map.mp ho
      rfl
    · cases ho

theorem accept_spec (hbuilt : h.Built) (hidle : s.net.Idle h.plan) {l : L}
    (hl : l ∈ h.lftas) (x : T) : ∃ out, h.plan.Pass h.ops false (h.plan.arrivals l x) s.net
      (h.accept l x s.net).1 out ∧ (h.accept l x s.net).2 = out h.plan.root ∧
      (h.accept l x s.net).1.Idle h.plan := by
  unfold MultopHfta.accept
  by_cases hdag : h.dag
  · rw [if_pos hdag]
    exact acceptDag_spec hbuilt.wellFormed hidle l x
  · rw [if_neg hdag]
    exact acceptTree_spec hbuilt.wellFormed (hbuilt.tree (eq_false_of_ne_true hdag)) hidle x
      (hbuilt.linked l hl)

theorem idle_flushLoop (hbuilt : h.Built) (hidle : s.net.Idle h.plan) :
    (h.flushLoop s.net).1.Idle h.plan := by
  unfold MultopHfta.flushLoop
  by_cases hdag : h.dag
  · rw [if_pos hdag]
    obtain ⟨-, -, -, hidle'⟩ := flushDag_spec h.ops hbuilt.wellFormed hidle
    exact hidle'
  · rw [if_neg hdag]
    obtain ⟨-, -, -, hidle'⟩ :=
      flushTree_spec h.ops hbuilt.wellFormed (hbuilt.tree (eq_false_of_ne_true hdag)) hidle
    exact hidle'

/-- A flush is a pass, if the operators of a DAG are quiet. -/
theorem flushLoop_iff (hbuilt : h.Built) (hidle : s.net.Idle h.plan) :
    (∃ out, h.plan.Pass h.ops true (fun _ ↦ []) s.net (h.flushLoop s.net).1 out ∧
      (h.flushLoop s.net).2 = out h.plan.root) ↔
    (h.dag → ∃ net' out, h.plan.Pass h.ops true (fun _ ↦ []) s.net net' out ∧
      h.plan.Quiet out) := by
  unfold MultopHfta.flushLoop
  by_cases hdag : h.dag
  · rw [if_pos hdag, flushDag_pass_iff hbuilt.wellFormed hidle]
    exact ⟨fun hpass _ ↦ hpass, fun hpass ↦ hpass hdag⟩
  · rw [if_neg hdag]
    refine iff_of_true ?_ fun hdag' ↦ absurd hdag' hdag
    obtain ⟨out, hpass, hresult, -⟩ :=
      flushTree_spec h.ops hbuilt.wellFormed (hbuilt.tree (eq_false_of_ne_true hdag)) hidle
    exact ⟨out, hpass, hresult⟩

theorem flush_spec (posts : Nat) : (s.flush h posts).net = (h.flushLoop s.net).1 ∧
    (s.flush h posts).emitted = s.emitted ++ (h.flushLoop s.net).2.map (.tuple · false) := by
  unfold flush
  simp only
  split_ifs <;> exact ⟨rfl, rfl⟩

theorem inv_flush (hbuilt : h.Built) (hs : Inv h s) (posts : Nat) : Inv h (s.flush h posts) := by
  have henqueue : Inv h (s.enqueue (h.flushLoop s.net).1
    ((h.flushLoop s.net).2.map (.tuple · false))) := by
    refine inv_enqueue hs (idle_flushLoop hbuilt hs.idle) fun o ho ↦ ?_
    obtain ⟨x, -, rfl⟩ := mem_map.mp ho
    rfl
  unfold flush
  simp only
  split_ifs
  · exact henqueue
  · exact inv_post henqueue posts

/-- The step is what the plan says, where it flushes. -/
theorem executes_flush_iff (hbuilt : h.Built) (hs : Inv h s) (posts : Nat) :
    (∃ out, h.plan.Pass h.ops true (fun _ ↦ []) s.net (s.flush h posts).net out ∧
      (s.flush h posts).emitted = s.emitted ++ (out h.plan.root).map (.tuple · false)) ↔
    (h.dag → ∃ net' out, h.plan.Pass h.ops true (fun _ ↦ []) s.net net' out ∧
      h.plan.Quiet out) := by
  rw [← flushLoop_iff hbuilt hs.idle]
  obtain ⟨hnet, hemitted⟩ := flush_spec (h := h) (s := s) posts
  have hinj : Function.Injective (Output.tuple · false : T → Output T) := fun x y hxy ↦
    (Output.tuple.inj hxy).1
  rw [hnet, hemitted]
  refine exists_congr fun out ↦ and_congr_right fun _ ↦ ?_
  rw [append_cancel_left_eq, hinj.list_map.eq_iff]

theorem inv_step {a : Action L T} (hbuilt : h.Built) (hs : Inv h s) (hstep : s.step h a = some t) :
    Inv h t ∧ (Executes h s t a ↔ FlushOk h s a) := by
  cases a with
  | tuple l x temporal posts =>
    simp only [step] at hstep
    split_ifs at hstep with hl
    obtain rfl := Option.some.inj hstep
    obtain ⟨out, hpass, hresult, hidle⟩ := accept_spec hbuilt hs.idle hl x
    refine ⟨inv_post (inv_enqueue hs hidle isTuple_emit) posts, iff_of_true ⟨out, hpass, ?_⟩ ?_⟩
    · simp only [acceptPacket, post, enqueue, hresult]
    · exact fun _ hflush ↦ hflush.elim
  | eof posts eofPosted =>
    obtain rfl := Option.some.inj hstep
    by_cases hmore : s.numEofTuples + 1 < h.lftas.length
    · have heq : s.acceptEof h posts eofPosted = { s with numEofTuples := s.numEofTuples + 1 } :=
        if_pos hmore
      rw [heq]
      refine ⟨⟨hs.idle, hs.emitted, hs.tuples⟩, iff_of_true ?_ fun _ hflush ↦ absurd hmore hflush⟩
      rw [Executes, if_pos hmore]
      exact ⟨rfl, rfl⟩
    · have hs' : Inv h { s with numEofTuples := 0 } := ⟨hs.idle, hs.emitted, hs.tuples⟩
      have hflush := inv_flush hbuilt hs' posts
      have hspec : (s.acceptEof h posts eofPosted).net =
          (flush h { s with numEofTuples := 0 } posts).net ∧
            (s.acceptEof h posts eofPosted).emitted =
            (flush h { s with numEofTuples := 0 } posts).emitted ∧
              Inv h (s.acceptEof h posts eofPosted) := by
        unfold acceptEof
        rw [if_neg hmore]
        simp only
        split_ifs
        · refine ⟨rfl, rfl, hflush.idle, ?_, hflush.tuples⟩
          rw [← hflush.emitted, filter_append]
          cases h.plan.sorted.getLast? <;> simp [Output.isTuple]
        · exact ⟨rfl, rfl, hflush⟩
      refine ⟨hspec.2.2, ?_⟩
      rw [Executes, if_neg hmore, hspec.1, hspec.2.1, executes_flush_iff hbuilt hs' posts]
      exact ⟨fun hpass hdag _ ↦ hpass hdag, fun hpass hdag ↦ hpass hdag hmore⟩
  | flush posts =>
    obtain rfl := Option.some.inj hstep
    refine ⟨inv_flush hbuilt hs posts, ?_⟩
    rw [Executes, executes_flush_iff hbuilt hs posts]
    exact ⟨fun hpass hdag _ ↦ hpass hdag, fun hpass hdag ↦ hpass hdag trivial⟩

/-- **An HFTA executes its plan.**  The sorted list has every operator once, after its children, and
the root at its end.  In every run whose flushes meet `FlushOk`, what was posted, up to ends of
file, and what is still in the output queue is what was emitted; and a step is the pass that the
plan asks for, with what the root puts out emitted, if and only if it meets the condition. -/
theorem executes (hbuilt : h.Built) {op : N → S} {as : List (Action L T)}
    (hrun : Lts.Run (step h) (FlushOk h) (init op) as s) :
    (h.plan.sorted.Nodup ∧ (∀ n, n ∈ h.plan.sorted ↔ h.plan.Reached n) ∧
      h.plan.Topological h.plan.sorted ∧ ∃ l, h.plan.sorted = l ++ [h.plan.root]) ∧
    s.posted.filter Output.isTuple ++ s.outputQueue = s.emitted ∧
    ∀ a t, s.step h a = some t → (Executes h s t a ↔ FlushOk h s a) := by
  have hinv : Inv h s :=
    hrun.invariant (fun hi _ hstep ↦ (inv_step hbuilt hi hstep).1) (inv_init op)
  exact ⟨Plan.sorted_spec hbuilt.wellFormed, hinv.emitted, fun a t hstep ↦
    (inv_step hbuilt hinv hstep).2⟩

/-! ## Two runs -/

/-- The root 0 has the inputs 1 and 2, which share 3; that one has an LFTA. -/
def diamond : Plan Nat Nat :=
  ⟨0, [⟨0, 0, .node 1⟩, ⟨0, 1, .node 2⟩, ⟨1, 0, .node 3⟩, ⟨2, 0, .node 3⟩, ⟨3, 0, .lfta 0⟩]⟩

theorem sorted_diamond : diamond.sorted = [3, 1, 2, 0] := by decide

theorem wellFormed_diamond : diamond.WellFormed where
  channel := by decide
  distinct := by decide
  acyclic := by
    refine ⟨fun n ↦ 10 - n, ?_⟩
    rintro n c ⟨k, hk, rfl, hsource⟩
    simp only [diamond, mem_cons, not_mem_nil, or_false] at hk
    rcases hk with rfl | rfl | rfl | rfl | rfl <;> cases hsource <;> decide
  reached := by
    have h1 : diamond.Reached 1 := .single ⟨⟨0, 0, .node 1⟩, by decide, rfl, rfl⟩
    have h2 : diamond.Reached 2 := .single ⟨⟨0, 1, .node 2⟩, by decide, rfl, rfl⟩
    have h3 : diamond.Reached 3 := h1.tail ⟨⟨1, 0, .node 3⟩, by decide, rfl, rfl⟩
    intro k hk
    simp only [diamond, mem_cons, not_mem_nil, or_false] at hk
    rcases hk with rfl | rfl | rfl | rfl | rfl
    · exact .refl
    · exact .refl
    · exact h1
    · exact h2
    · exact h3

/-- Operators that keep their tuples, but for 3, which puts one out when it is flushed. -/
def keeping : Operators Nat Unit Nat where
  accept := fun _ _ _ _ ↦ ((), [])
  flush := fun n _ ↦ ((), if n = 3 then [7] else [])

/-- Operators that hand their tuples on; the root puts out their number when it is flushed. -/
def counting : Operators Nat Nat Nat where
  accept := fun _ count t _ ↦ (count + 1, [t])
  flush := fun n count ↦ (count, if n = 0 then [count] else [])

def diamondHfta {S : Type} (ops : Operators Nat S Nat) : MultopHfta Nat Nat S Nat where
  plan := diamond
  dag := true
  ops := ops
  lftas := [0]
  tupleSize := fun _ ↦ 1
  isTemporal := fun _ ↦ false
  tempStatus := fun _ _ ↦ 0

theorem built_diamond {S : Type} (ops : Operators Nat S Nat) : (diamondHfta ops).Built where
  wellFormed := wellFormed_diamond
  tree := fun h ↦ by cases h
  linked := (by decide : ∀ l ∈ [0], ∃ k ∈ diamond.links, k.source = .lfta l)

theorem quiet_diamond {out : Nat → List Nat} (hout : ∀ n, n ≠ 0 → out n = []) :
    diamond.Quiet out := by
  intro l n hl
  rw [sorted_diamond] at hl
  have happend : [3, 1] ++ [2, 0] = l ++ [n, 0] := hl
  obtain ⟨rfl, hn⟩ := append_inj' happend rfl
  obtain ⟨rfl, -⟩ := cons.inj hn
  refine ⟨fun m hm ↦ hout m ?_, fun hne ↦ absurd (hout 2 (by decide)) hne⟩
  rintro rfl
  exact absurd hm (by decide)

/-- **A tuple, a flush and another tuple.**  The root gets the first tuple from both of its
inputs. -/
theorem executes_tuple :
    ∃ s t, Lts.Run (step (diamondHfta counting)) (FlushOk (diamondHfta counting)) (init fun _ ↦ 0)
        [.tuple 0 5 false 0, .flush 2] s ∧
      s.emitted = [.tuple 5 false, .tuple 5 false, .tuple 2 false] ∧
        s.outputQueue = [.tuple 2 false] ∧
      step (diamondHfta counting) s (.tuple 0 6 false 1) = some t ∧
      Executes (diamondHfta counting) s t (.tuple 0 6 false 1) := by
  obtain ⟨s₁, hs₁⟩ : ∃ s₁ : State Nat Nat Nat,
      s₁ = acceptPacket (diamondHfta counting) (init fun _ ↦ 0) 0 5 false 0 := ⟨_, rfl⟩
  have hflush : FlushOk (diamondHfta counting) s₁ (.flush 2) := by
    intro _ _
    have hroot : s₁.net.op 0 = 2 := by
      rw [hs₁]
      decide +kernel
    have hinputs : ∀ n ∈ diamond.sorted, diamond.inputs (fun _ ↦ [])
      (fun n ↦ if n = 0 then [2] else []) n = [] := by
      decide +kernel
    refine ⟨⟨s₁.net.op, s₁.net.input, fun n ↦ s₁.net.received n ++ [.flush]⟩,
      fun n ↦ if n = 0 then [2] else [], ⟨fun n hn ↦ ?_, fun n hn ↦ ?_⟩,
        quiet_diamond fun n hn ↦ if_neg hn⟩
    · show _ = _ ++ Operators.events true (diamond.inputs _ _ n)
      rw [hinputs n hn]
      rfl
    · show _ = counting.run true n (s₁.net.op n) (diamond.inputs _ _ n)
      rw [hinputs n hn]
      by_cases hn0 : n = 0
      · rw [hn0, hroot]
        rfl
      · show (_, if n = 0 then [2] else []) = (_, [] ++ if n = 0 then [s₁.net.op n] else [])
        rw [if_neg hn0, if_neg hn0]
        rfl
  have hrun : Lts.Run (step (diamondHfta counting)) (FlushOk (diamondHfta counting))
      (init fun _ ↦ 0) [.tuple 0 5 false 0, .flush 2] (flush (diamondHfta counting) s₁ 2) :=
    .snoc (.single (fun _ hflush ↦ hflush.elim) (congrArg some hs₁.symm)) hflush rfl
  have hout₁ : ((diamondHfta counting).accept 0 5 (init fun _ ↦ 0 : State Nat Nat Nat).net).2 =
    [5, 5] := by
    decide +kernel
  have hout : ((diamondHfta counting).flushLoop s₁.net).2 = [2] := by
    rw [hs₁]
    decide +kernel
  have hemitted₁ : s₁.emitted = [.tuple 5 false, .tuple 5 false] := by
    simp only [hs₁, acceptPacket, post, enqueue, hout₁]
    rfl
  have hqueue₁ : s₁.outputQueue = [.tuple 5 false, .tuple 5 false] := by
    simp only [hs₁, acceptPacket, post, enqueue, hout₁]
    rfl
  have hflushed := (flush_spec (h := diamondHfta counting) (s := s₁) 2).2
  have hqueue : (flush (diamondHfta counting) s₁ 2).outputQueue = [.tuple 2 false] := by
    simp only [flush, hout, post, enqueue, hqueue₁]
    rfl
  rw [hemitted₁, hout] at hflushed
  refine ⟨_, _, hrun, hflushed, hqueue, rfl, ?_⟩
  exact ((executes (built_diamond counting) hrun).2.2 _ _ rfl).mpr fun _ hflush ↦ hflush.elim

/-- **A flush hands a tuple on twice.**  What 3 puts out is pushed to its parents 1 and 2, and again
to the parent of 1 and to that of 2, which is the root. -/
theorem exists_not_executes :
    ∃ t, step (diamondHfta keeping) (init fun _ ↦ ()) (.flush 1) = some t ∧
      t.net.received 0 = [.tuple 7 0, .tuple 7 0, .flush] ∧
      ¬ Executes (diamondHfta keeping) (init fun _ ↦ ()) t (.flush 1) := by
  refine ⟨_, rfl, rfl, fun hexec ↦ ?_⟩
  obtain ⟨net', out, hpass, hquiet⟩ :=
    (executes_flush_iff (built_diamond keeping) (inv_init fun _ ↦ ()) 1).mp hexec rfl
  have hmem : 3 ∈ (diamondHfta keeping).plan.sorted := by decide
  have hnil := (hquiet [3, 1] 2 sorted_diamond).1 3 (by decide)
  have hrun := (Prod.mk.inj (hpass.run 3 hmem)).2
  rw [hnil] at hrun
  have hout := append_eq_nil_iff.mp hrun.symm
  exact cons_ne_nil 7 [] hout.2

end State

end Tigon.Hfta.Multop
