import Mathlib

/-!
# Linking the nodes of a query plan

A query plan is a list of nodes, some of them missing.  A node reads from tables, which are other
nodes of the plan if these have their names, and come from elsewhere if not.  `generate_linkage`
enters for each node where it reads from and who reads from it, and then looks for the node that
nobody reads from, the head, and for those that read from elsewhere. It fails if there are two
heads.

A plan without a head does not fail.  So `generate_plan`, which goes on with the head, may take one
from in front of the list; and a cycle is let pass, next to a head.

* `predecessors_generateLinkage`, `successors_generateLinkage` — where the nodes read from, and who
  reads from them.
* `qhead_generateLinkage`, `createFailed_generateLinkage`, `qtail_generateLinkage` — what is found
  out about them.
* `wellLinked_iff` — **plans that do not fail are in order** just if no node reads from itself
  through others, and there are nodes.
-/

set_option autoImplicit false

namespace Tigon.Ftacmp.StreamQuery

/-! ## Plans -/

/-- A node of a query plan, with what the plan takes over from its head. -/
structure QpNode (S : Type) where
  nodeName : String
  inputTbls : List String
  errorCode : Int
  summary : S

variable {S : Type}

/-- The node at a place, if it is not missing. -/
def node (queryPlan : List (Option (QpNode S))) (n : Nat) : Option (QpNode S) :=
  (queryPlan[n]?).join

/-- The tables that the node at a place reads from. -/
def inputTbls (queryPlan : List (Option (QpNode S))) (n : Nat) : List String :=
  ((node queryPlan n).map QpNode.inputTbls).getD []

/-! ## Links -/

/-- The map from names to places, filled from the front. -/
def nameToNode (queryPlan : List (Option (QpNode S))) : Nat → String → Option Nat
  | 0 => fun _ ↦ none
  | n + 1 =>
    match node queryPlan n with
    | some q => Function.update (nameToNode queryPlan n) q.nodeName (some n)
    | none => nameToNode queryPlan n

/-- Where the nodes read from, and who reads from them. -/
structure Links where
  predecessors : Nat → List Nat
  successors : Nat → List Nat

namespace Links

def addPredecessor (l : Links) (n s : Nat) : Links :=
  { l with predecessors := Function.update l.predecessors n (l.predecessors n ++ [s]) }

def addSuccessor (l : Links) (s n : Nat) : Links :=
  { l with successors := Function.update l.successors s (l.successors s ++ [n]) }

/-- One table that a node reads from. -/
def link (nameToNode : String → Option Nat) (n : Nat) (l : Links) (srcTbl : String) : Links :=
  match nameToNode srcTbl with
  | some s => (l.addPredecessor n s).addSuccessor s n
  | none => l

end Links

/-- The two-way linkage of the first nodes. -/
def links (queryPlan : List (Option (QpNode S))) : Nat → Links
  | 0 => ⟨fun _ ↦ [], fun _ ↦ []⟩
  | n + 1 =>
    (inputTbls queryPlan n).foldl (Links.link (nameToNode queryPlan queryPlan.length) n)
    (links queryPlan n)

/-- What the second loop finds out. -/
structure Found where
  qhead : Int
  qtail : List Nat
  createFailed : Bool

/-- One round of the second loop. -/
def find (l : Links) (n : Nat) (q : QpNode S) (f : Found) : Found :=
  let f :=
    if l.successors n = [] then
      if 0 ≤ f.qhead then { f with createFailed := true } else { f with qhead := n }
    else f
  if (l.predecessors n).length < q.inputTbls.length then { f with qtail := f.qtail ++ [n] } else f

/-- The second loop, over the first nodes. -/
def findAll (queryPlan : List (Option (QpNode S))) (l : Links) : Nat → Found
  | 0 => ⟨-1, [], false⟩
  | n + 1 =>
    match node queryPlan n with
    | some q => find l n q (findAll queryPlan l n)
    | none => findAll queryPlan l n

/-- The links of a plan, and what was found out about it. -/
structure Linkage extends Links, Found

def generateLinkage (queryPlan : List (Option (QpNode S))) : Linkage :=
  let l := links queryPlan queryPlan.length
  ⟨l, findAll queryPlan l queryPlan.length⟩

/-- The node at a place that may lie outside the list. -/
def deref (queryPlan : List (Option (QpNode S))) (n : Int) : Option (QpNode S) :=
  if 0 ≤ n then node queryPlan n.toNat else none

/-- `generate_plan`, with the name and the summary of the query if it returns `0`.  There is no
result if it takes a node from outside the list. -/
def generatePlan (queryPlan : List (Option (QpNode S))) : Option (Int × Option (String × S)) :=
  if queryPlan.any fun q ↦ q.any (·.errorCode ≠ 0) then some (1, none)
  else if (generateLinkage queryPlan).createFailed then some (-1, none)
  else (deref queryPlan (generateLinkage queryPlan).qhead).map fun q ↦
    (0, some (q.nodeName, q.summary))

/-! ## What is to hold -/

/-- No two nodes have the same name. -/
def DistinctNames (queryPlan : List (Option (QpNode S))) : Prop :=
  ∀ i j p q, node queryPlan i = some p → node queryPlan j = some q → p.nodeName = q.nodeName → i = j

/-- One node reads from another. -/
def Reads (queryPlan : List (Option (QpNode S))) (n s : Nat) : Prop :=
  ∃ p, node queryPlan s = some p ∧ p.nodeName ∈ inputTbls queryPlan n

/-- No node reads from itself through others. -/
def Acyclic (queryPlan : List (Option (QpNode S))) : Prop :=
  ∀ n, ¬ Relation.TransGen (Reads queryPlan) n n

/-- The node is there and nobody reads from it. -/
def IsHead (queryPlan : List (Option (QpNode S))) (l : Links) (n : Nat) : Prop :=
  (node queryPlan n).isSome ∧ l.successors n = []

/-- **What the linkage should be.**  The leaves are the nodes that read a table which no node
makes. -/
structure WellLinked (queryPlan : List (Option (QpNode S))) (l : Linkage) : Prop where
  /-- There is one head, and each node leads to it. -/
  head : ∃ h, IsHead queryPlan l.toLinks h ∧ (∀ n, IsHead queryPlan l.toLinks n → n = h) ∧
    ∀ n, (node queryPlan n).isSome → Relation.ReflTransGen (fun s n ↦ n ∈ l.successors s) n h
  acyclic : ∀ n, ¬ Relation.TransGen (fun s n ↦ n ∈ l.successors s) n n
  /-- A node is linked once for each table. -/
  count : ∀ s p, node queryPlan s = some p → ∀ n,
    (l.predecessors n).count s = (inputTbls queryPlan n).count p.nodeName ∧
      (l.successors s).count n = (inputTbls queryPlan n).count p.nodeName
  qtail : l.qtail.Nodup ∧ ∀ n, n ∈ l.qtail ↔
    ∃ t ∈ inputTbls queryPlan n, ∀ s p, node queryPlan s = some p → p.nodeName ≠ t
  plan : generatePlan queryPlan ≠ none

/-! ## The links -/

section

variable {queryPlan : List (Option (QpNode S))} {m : String → Option Nat} {l : Links}
  {tbls : List String} {n s k : Nat} {name : String} {p q : QpNode S}

theorem lt_length_of_node (h : node queryPlan n = some p) : n < queryPlan.length := by
  obtain ⟨hlt, -⟩ := List.getElem?_eq_some_iff.mp (Option.join_eq_some_iff.mp h)
  exact hlt

theorem inputTbls_eq (h : node queryPlan n = some p) : inputTbls queryPlan n = p.inputTbls := by
  rw [inputTbls, h, Option.map_some, Option.getD_some]

/-- The map gives the places of names. -/
theorem nameToNode_eq_some_iff (hnames : DistinctNames queryPlan) (k : Nat) :
    nameToNode queryPlan k name = some s ↔ s < k ∧ ∃ p, node queryPlan s = some p ∧
      p.nodeName = name := by
  induction k with
  | zero => simp [nameToNode]
  | succ k ih =>
    rw [nameToNode]
    cases hq : node queryPlan k with
    | none =>
      simp only
      rw [ih]
      refine ⟨fun ⟨hlt, h⟩ ↦ ⟨hlt.trans (Nat.lt_succ_self k), h⟩, fun ⟨hlt, p, hp, hname⟩ ↦
        ⟨?_, p, hp, hname⟩⟩
      refine lt_of_le_of_ne (Nat.le_of_lt_succ hlt) fun heq ↦ ?_
      rw [heq, hq] at hp
      cases hp
    | some q =>
      simp only
      by_cases hname : name = q.nodeName
      · subst hname
        rw [Function.update_self, Option.some_inj]
        refine ⟨fun h ↦ h ▸ ⟨Nat.lt_succ_self k, q, hq, rfl⟩, fun ⟨_, p, hp, hpq⟩ ↦ ?_⟩
        exact hnames k s q p hq hp hpq.symm
      · rw [Function.update_of_ne hname, ih]
        refine ⟨fun ⟨hlt, h⟩ ↦ ⟨hlt.trans (Nat.lt_succ_self k), h⟩, fun ⟨hlt, p, hp, hpn⟩ ↦
          ⟨?_, p, hp, hpn⟩⟩
        refine lt_of_le_of_ne (Nat.le_of_lt_succ hlt) fun heq ↦ hname ?_
        rw [heq, hq] at hp
        exact hpn ▸ congrArg QpNode.nodeName (Option.some.inj hp).symm

theorem predecessors_foldl_link (i : Nat) :
    (tbls.foldl (Links.link m n) l).predecessors i = l.predecessors i ++ if i = n
      then tbls.filterMap m else [] := by
  induction tbls generalizing l with
  | nil => simp
  | cons t tbls ih =>
    rw [List.foldl_cons, ih, Links.link]
    cases ht : m t with
    | none => simp [ht]
    | some s =>
      by_cases hi : i = n
      · subst hi
        simp [Links.addPredecessor, Links.addSuccessor, ht]
      · simp [Links.addPredecessor, Links.addSuccessor, hi]

theorem successors_foldl_link (s : Nat) :
    (tbls.foldl (Links.link m n) l).successors s =
      l.successors s ++ List.replicate (tbls.countP fun t ↦ m t = some s) n := by
  induction tbls generalizing l with
  | nil => simp
  | cons t tbls ih =>
    rw [List.foldl_cons, ih, Links.link]
    cases ht : m t with
    | none => simp [ht]
    | some s' =>
      by_cases hs : s' = s
      · subst hs
        simp [Links.addPredecessor, Links.addSuccessor, ht, List.replicate_succ]
      · simp [Links.addPredecessor, Links.addSuccessor, ht, hs, Function.update_of_ne (Ne.symm hs)]

theorem predecessors_links (n : Nat) : (links queryPlan k).predecessors n =
    if n < k then (inputTbls queryPlan n).filterMap (nameToNode queryPlan queryPlan.length)
      else [] := by
  induction k with
  | zero => rfl
  | succ k ih =>
    rw [links, predecessors_foldl_link, ih]
    rcases lt_trichotomy n k with hlt | rfl | hgt
    · rw [if_pos hlt, if_neg hlt.ne, if_pos (hlt.trans (Nat.lt_succ_self k)), List.append_nil]
    · rw [if_neg (lt_irrefl n), if_pos rfl, if_pos (Nat.lt_succ_self n), List.nil_append]
    · rw [if_neg hgt.not_gt, if_neg hgt.ne', if_neg (Nat.not_lt.mpr hgt), List.append_nil]

theorem successors_links (s : Nat) : (links queryPlan k).successors s =
    (List.range k).flatMap fun n ↦ List.replicate
      ((inputTbls queryPlan n).countP fun t ↦ nameToNode queryPlan queryPlan.length t = some s)
        n := by
  induction k with
  | zero => rfl
  | succ k ih =>
    rw [links, successors_foldl_link, ih, List.range_succ, List.flatMap_append,
      List.flatMap_singleton]

/-- The tables with the name of a node are those that lead to it. -/
theorem nameToNode_eq_some_iff_name (hnames : DistinctNames queryPlan)
    (hp : node queryPlan s = some p) : nameToNode queryPlan queryPlan.length name = some s ↔
      name = p.nodeName := by
  rw [nameToNode_eq_some_iff hnames]
  refine ⟨fun ⟨_, q, hq, hname⟩ ↦ ?_, fun hname ↦ ⟨lt_length_of_node hp, p, hp, hname.symm⟩⟩
  rw [hp] at hq
  exact hname.symm.trans (congrArg QpNode.nodeName (Option.some.inj hq).symm)

theorem inputTbls_eq_nil (h : queryPlan.length ≤ n) : inputTbls queryPlan n = [] := by
  rw [inputTbls, node, List.getElem?_eq_none h]
  rfl

/-- **Where a node reads from**: the places of its tables, in order. -/
theorem predecessors_generateLinkage (n : Nat) : (generateLinkage queryPlan).predecessors n =
    (inputTbls queryPlan n).filterMap (nameToNode queryPlan queryPlan.length) := by
  show (links queryPlan queryPlan.length).predecessors n = _
  rw [predecessors_links]
  split
  · rfl
  · rename_i hlt
    rw [inputTbls_eq_nil (Nat.not_lt.mp hlt)]
    rfl

/-- A node is as often among those that another reads from as its name is among the tables. -/
theorem count_predecessors (hnames : DistinctNames queryPlan) (hp : node queryPlan s = some p)
    (n : Nat) : ((generateLinkage queryPlan).predecessors n).count s = (inputTbls queryPlan n).count
      p.nodeName := by
  rw [predecessors_generateLinkage, List.count_filterMap, List.count]
  refine List.countP_congr fun t _ ↦ ?_
  rw [beq_iff_eq, beq_iff_eq, nameToNode_eq_some_iff_name hnames hp]

theorem count_replicates (f : Nat → Nat) (k n : Nat) :
    ((List.range k).flatMap fun n ↦ List.replicate (f n) n).count n = if n < k then f n else 0 := by
  induction k with
  | zero => rfl
  | succ k ih =>
    rw [List.range_succ, List.flatMap_append, List.flatMap_singleton, List.count_append, ih,
      List.count_replicate]
    rcases lt_trichotomy n k with hlt | rfl | hgt
    · simp [hlt, hlt.ne', hlt.trans (Nat.lt_succ_self k)]
    · simp
    · simp [hgt.not_gt, hgt.ne, Nat.not_lt.mpr hgt]

/-- **Who reads from a node.** -/
theorem count_successors (hnames : DistinctNames queryPlan) (hp : node queryPlan s = some p)
    (n : Nat) : ((generateLinkage queryPlan).successors s).count n = (inputTbls queryPlan n).count
      p.nodeName := by
  show ((links queryPlan queryPlan.length).successors s).count n = _
  rw [successors_links, count_replicates]
  split
  · rw [List.count]
    refine List.countP_congr fun t _ ↦ ?_
    rw [decide_eq_true_iff, beq_iff_eq, nameToNode_eq_some_iff_name hnames hp]
  · rename_i hlt
    rw [inputTbls_eq_nil (Nat.not_lt.mp hlt)]
    rfl

theorem mem_successors_iff (hnames : DistinctNames queryPlan) :
    n ∈ (generateLinkage queryPlan).successors s ↔ Reads queryPlan n s := by
  cases hp : node queryPlan s with
  | some p =>
    rw [← List.count_pos_iff, count_successors hnames hp, List.count_pos_iff]
    refine ⟨fun h ↦ ⟨p, hp, h⟩, fun ⟨q, hq, h⟩ ↦ ?_⟩
    rw [hp] at hq
    exact (Option.some.inj hq) ▸ h
  | none =>
    refine ⟨fun h ↦ ?_, fun ⟨q, hq, _⟩ ↦ ?_⟩
    · have hmem : n ∈ (links queryPlan queryPlan.length).successors s := h
      rw [successors_links, List.mem_flatMap] at hmem
      obtain ⟨i, -, hi⟩ := hmem
      obtain ⟨hne, -⟩ := List.mem_replicate.mp hi
      obtain ⟨t, -, ht⟩ := List.countP_pos_iff.mp (Nat.pos_of_ne_zero hne)
      obtain ⟨-, q, hq, -⟩ := (nameToNode_eq_some_iff hnames _).mp (of_decide_eq_true ht)
      rw [hp] at hq
      cases hq
    · rw [hp] at hq
      cases hq

/-! ## What is found out -/

theorem qhead_find (f : Found) :
    (find l n q f).qhead = if l.successors n = [] ∧ f.qhead < 0 then (n : Int) else f.qhead := by
  by_cases hsucc : l.successors n = []
  · by_cases hpos : 0 ≤ f.qhead
    · rw [if_neg fun h ↦ absurd h.2 (not_lt.mpr hpos), find, if_pos hsucc, if_pos hpos]
      simp only
      split <;> rfl
    · rw [if_pos ⟨hsucc, not_le.mp hpos⟩, find, if_pos hsucc, if_neg hpos]
      simp only
      split <;> rfl
  · rw [if_neg fun h ↦ hsucc h.1, find, if_neg hsucc]
    split <;> rfl

theorem createFailed_find (f : Found) : (find l n q f).createFailed = false ↔
    f.createFailed = false ∧ (l.successors n = [] → f.qhead < 0) := by
  by_cases hsucc : l.successors n = []
  · by_cases hpos : 0 ≤ f.qhead
    · have hfind : (find l n q f).createFailed = true := by
        rw [find, if_pos hsucc, if_pos hpos]
        simp only
        split <;> rfl
      simp [hfind, hsucc, hpos]
    · have hfind : (find l n q f).createFailed = f.createFailed := by
        rw [find, if_pos hsucc, if_neg hpos]
        simp only
        split <;> rfl
      simp [hfind, not_le.mp hpos]
  · have hfind : (find l n q f).createFailed = f.createFailed := by
      rw [find, if_neg hsucc]
      split <;> rfl
    simp [hfind, hsucc]

theorem qtail_find (f : Found) : (find l n q f).qtail =
    if (l.predecessors n).length < q.inputTbls.length then f.qtail ++ [n] else f.qtail := by
  unfold find
  by_cases hsucc : l.successors n = []
  · by_cases hpos : 0 ≤ f.qhead
    · simp only [if_pos hsucc, if_pos hpos]
      split <;> rfl
    · simp only [if_pos hsucc, if_neg hpos]
      split <;> rfl
  · simp only [if_neg hsucc]
    split <;> rfl

theorem isHead_iff (hq : node queryPlan n = some q) : IsHead queryPlan l n ↔
    l.successors n = [] := by
  rw [IsHead, hq]
  simp

theorem not_isHead (hq : node queryPlan n = none) : ¬ IsHead queryPlan l n := by
  rw [IsHead, hq]
  simp

/-- There was no head yet, or there is one at the place that is kept; and others only if the plan
has failed. -/
theorem findAll_spec (k : Nat) :
    ((findAll queryPlan l k).qhead = -1 ∧ (findAll queryPlan l k).createFailed = false ∧
        ∀ n < k, ¬ IsHead queryPlan l n) ∨
      ∃ h < k, IsHead queryPlan l h ∧ (findAll queryPlan l k).qhead = h ∧
        ((findAll queryPlan l k).createFailed = false ↔ ∀ n < k, IsHead queryPlan l n → n = h) := by
  induction k with
  | zero => exact .inl ⟨rfl, rfl, fun n hn ↦ absurd hn (Nat.not_lt_zero n)⟩
  | succ k ih =>
    rw [findAll]
    cases hq : node queryPlan k with
    | none =>
      rcases ih with ⟨hnone, hfailed, hno⟩ | ⟨h, hlt, hh, heq, honly⟩
      · refine .inl ⟨hnone, hfailed, fun n hn ↦ ?_⟩
        rcases Nat.lt_succ_iff_lt_or_eq.mp hn with hn | rfl
        · exact hno n hn
        · exact not_isHead hq
      · refine .inr ⟨h, hlt.trans (Nat.lt_succ_self k), hh, heq,
          honly.trans ⟨fun hall n hn hn' ↦ ?_, fun hall n hn ↦ ?_⟩⟩
        · rcases Nat.lt_succ_iff_lt_or_eq.mp hn with hn | rfl
          · exact hall n hn hn'
          · exact absurd hn' (not_isHead hq)
        · exact hall n (hn.trans (Nat.lt_succ_self k))
    | some q =>
      simp only
      rw [qhead_find, createFailed_find]
      rcases ih with ⟨hnone, hfailed, hno⟩ | ⟨h, hlt, hh, heq, honly⟩
      · by_cases hsucc : l.successors k = []
        · refine .inr ⟨k, Nat.lt_succ_self k, (isHead_iff hq).mpr hsucc, ?_, fun _ n hn hn' ↦ ?_,
            fun _ ↦ ⟨hfailed, ?_⟩⟩
          · rw [if_pos ⟨hsucc, by omega⟩]
          · rcases Nat.lt_succ_iff_lt_or_eq.mp hn with hn | rfl
            · exact absurd hn' (hno n hn)
            · rfl
          · exact fun _ ↦ by omega
        · refine .inl ⟨?_, ⟨hfailed, fun h ↦ absurd h hsucc⟩, fun n hn ↦ ?_⟩
          · rw [if_neg fun h ↦ hsucc h.1]
            exact hnone
          · rcases Nat.lt_succ_iff_lt_or_eq.mp hn with hn | rfl
            · exact hno n hn
            · rwa [isHead_iff hq]
      · refine .inr ⟨h, hlt.trans (Nat.lt_succ_self k), hh, ?_, ?_⟩
        · rw [if_neg fun h ↦ absurd h.2 (by omega)]
          exact heq
        · rw [honly]
          refine ⟨fun ⟨hall, hsucc⟩ n hn hn' ↦ ?_,
            fun hall ↦ ⟨fun n hn ↦ hall n (hn.trans (Nat.lt_succ_self k)), fun hsucc ↦ ?_⟩⟩
          · rcases Nat.lt_succ_iff_lt_or_eq.mp hn with hn | rfl
            · exact hall n hn hn'
            · have := hsucc ((isHead_iff hq).mp hn')
              omega
          · have := hall k (Nat.lt_succ_self k) ((isHead_iff hq).mpr hsucc)
            omega

theorem qtail_findAll (k : Nat) : (findAll queryPlan l k).qtail =
    (List.range k).filter fun n ↦ (l.predecessors n).length < (inputTbls queryPlan n).length := by
  induction k with
  | zero => rfl
  | succ k ih =>
    rw [findAll, List.range_succ, List.filter_append, ← ih]
    cases hq : node queryPlan k with
    | none =>
      have htbls : inputTbls queryPlan k = [] :=
        by rw [inputTbls, hq, Option.map_none, Option.getD_none]
      simp [htbls]
    | some q =>
      simp only
      rw [qtail_find, List.filter_singleton, inputTbls_eq hq]
      by_cases hlt : (l.predecessors k).length < q.inputTbls.length
      · simp [hlt]
      · simp [hlt]

/-! ## Plans that do not fail -/

theorem lt_length_of_isHead (h : IsHead queryPlan l n) : n < queryPlan.length := by
  obtain ⟨p, hp⟩ := Option.isSome_iff_exists.mp h.1
  exact lt_length_of_node hp

/-- The head that was found is the only one. -/
theorem qhead_generateLinkage (h : IsHead queryPlan (generateLinkage queryPlan).toLinks n)
    (hfailed : (generateLinkage queryPlan).createFailed = false) :
    (generateLinkage queryPlan).qhead = n := by
  rcases @findAll_spec _ queryPlan (generateLinkage queryPlan).toLinks queryPlan.length with
    ⟨-, -, hno⟩ | ⟨m, -, -, heq, honly⟩
  · exact absurd h (hno n (lt_length_of_isHead h))
  · rw [honly.mp hfailed n (lt_length_of_isHead h) h]
    exact heq

/-- **A plan fails if there are two heads.** -/
theorem createFailed_generateLinkage : (generateLinkage queryPlan).createFailed = false ↔
    ∀ i j, IsHead queryPlan (generateLinkage queryPlan).toLinks i →
      IsHead queryPlan (generateLinkage queryPlan).toLinks j → i = j := by
  rcases @findAll_spec _ queryPlan (generateLinkage queryPlan).toLinks queryPlan.length with
    ⟨-, hfailed, hno⟩ | ⟨m, -, hm, -, honly⟩
  · exact ⟨fun _ i j hi ↦ absurd hi (hno i (lt_length_of_isHead hi)), fun _ ↦ hfailed⟩
  · refine honly.trans ⟨fun h i j hi hj ↦ ?_, fun h n _ hn ↦ h n m hn hm⟩
    exact (h i (lt_length_of_isHead hi) hi).trans (h j (lt_length_of_isHead hj) hj).symm

/-- **The nodes that read from elsewhere**, each once. -/
theorem qtail_generateLinkage (hnames : DistinctNames queryPlan) :
    (generateLinkage queryPlan).qtail.Nodup ∧ ∀ n, n ∈ (generateLinkage queryPlan).qtail ↔
      ∃ t ∈ inputTbls queryPlan n, ∀ s p, node queryPlan s = some p → p.nodeName ≠ t := by
  have htail : (generateLinkage queryPlan).qtail = _ := qtail_findAll queryPlan.length
  rw [htail]
  refine ⟨List.nodup_range.filter _, fun n ↦ ?_⟩
  have hpred : (links queryPlan queryPlan.length).predecessors n = _ :=
    predecessors_generateLinkage n
  have hnone : ∀ t, nameToNode queryPlan queryPlan.length t = none ↔
      ∀ s p, node queryPlan s = some p → p.nodeName ≠ t := by
    intro t
    rw [Option.eq_none_iff_forall_ne_some]
    refine forall_congr' fun s ↦ ?_
    rw [Ne, nameToNode_eq_some_iff hnames]
    exact ⟨fun h p hp hname ↦ h ⟨lt_length_of_node hp, p, hp, hname⟩,
      fun h ⟨_, p, hp, hname⟩ ↦ h p hp hname⟩
  rw [List.mem_filter, List.mem_range, decide_eq_true_iff, hpred,
    List.length_filterMap_lt_length_iff_exists]
  refine ⟨fun ⟨_, t, ht, h⟩ ↦ ⟨t, ht, (hnone t).mp h⟩,
    fun ⟨t, ht, h⟩ ↦ ⟨?_, t, ht, (hnone t).mpr h⟩⟩
  by_contra hlt
  rw [inputTbls_eq_nil (Nat.not_lt.mp hlt)] at ht
  cases ht

theorem lt_length_of_reads (h : Reads queryPlan n s) : n < queryPlan.length ∧
    s < queryPlan.length := by
  obtain ⟨p, hp, hmem⟩ := h
  refine ⟨?_, lt_length_of_node hp⟩
  by_contra hlt
  rw [inputTbls_eq_nil (Nat.not_lt.mp hlt)] at hmem
  cases hmem

/-- Without cycles, one comes from each node to a head, from reader to reader. -/
theorem exists_head (hnames : DistinctNames queryPlan) (hacyclic : Acyclic queryPlan)
    (hn : (node queryPlan n).isSome) : ∃ h, IsHead queryPlan (generateLinkage queryPlan).toLinks h ∧
      Relation.ReflTransGen (fun s n ↦ n ∈ (generateLinkage queryPlan).successors s) n h := by
  have hlt : n < queryPlan.length := by
    obtain ⟨p, hp⟩ := Option.isSome_iff_exists.mp hn
    exact lt_length_of_node hp
  let r (i j : Fin queryPlan.length) : Prop := Relation.TransGen (Reads queryPlan) i j
  have htrans : IsTrans _ r := ⟨fun _ _ _ hij hjk ↦ hij.trans hjk⟩
  have hirrefl : Std.Irrefl r := ⟨fun i ↦ hacyclic i⟩
  have hwf : WellFounded r := Finite.wellFounded_of_trans_of_irrefl r
  suffices h : ∀ i : Fin queryPlan.length, (node queryPlan i).isSome →
      ∃ h, IsHead queryPlan (generateLinkage queryPlan).toLinks h ∧
        Relation.ReflTransGen (fun s n ↦ n ∈ (generateLinkage queryPlan).successors s) i h
          from h ⟨n, hlt⟩ hn
  intro i
  induction i using hwf.induction with
  | h i ih =>
    intro hi
    by_cases hsucc : (generateLinkage queryPlan).successors i = []
    · exact ⟨i, ⟨hi, hsucc⟩, .refl⟩
    · obtain ⟨j, hj⟩ := List.exists_mem_of_ne_nil _ hsucc
      have hreads : Reads queryPlan j i := (mem_successors_iff hnames).mp hj
      have hjsome : (node queryPlan j).isSome := by
        obtain ⟨p, -, hmem⟩ := hreads
        cases hq : node queryPlan j with
        | none =>
          rw [inputTbls, hq] at hmem
          cases hmem
        | some q => rfl
      obtain ⟨h, hh, hreach⟩ := ih ⟨j, (lt_length_of_reads hreads).1⟩ (.single hreads) hjsome
      exact ⟨h, hh, .head hj hreach⟩

/-- **When plans that do not fail are in order**: if no node reads from itself through others, and
there are nodes. -/
theorem wellLinked_iff (hnames : DistinctNames queryPlan) :
    ((generateLinkage queryPlan).createFailed = false →
      WellLinked queryPlan (generateLinkage queryPlan)) ↔
      ((generateLinkage queryPlan).createFailed = false → Acyclic queryPlan ∧ ∃ n,
        (node queryPlan n).isSome) := by
  have hswap (i j : Nat) : Relation.TransGen
      (fun s n ↦ n ∈ (generateLinkage queryPlan).successors s) i j = Relation.TransGen
      (Reads queryPlan) j i := by
    have hreads : (fun s n ↦ n ∈ (generateLinkage queryPlan).successors s) =
      Function.swap (Reads queryPlan) := by
      funext s n
      exact propext (mem_successors_iff hnames)
    rw [hreads]
    exact propext Relation.transGen_swap
  refine imp_congr_right fun hfailed ↦ ⟨fun h ↦ ⟨fun n hn ↦ ?_, ?_⟩, fun ⟨hacyclic, n, hn⟩ ↦ ?_⟩
  · exact h.acyclic n (hswap n n ▸ hn)
  · obtain ⟨m, hm, -⟩ := h.head
    exact ⟨m, hm.1⟩
  · obtain ⟨h, hh, -⟩ := exists_head hnames hacyclic hn
    have honly : ∀ m, IsHead queryPlan (generateLinkage queryPlan).toLinks m → m = h := fun m hm ↦
      createFailed_generateLinkage.mp hfailed m h hm hh
    refine ⟨⟨h, hh, honly, fun m hm ↦ ?_⟩, fun m hm ↦ ?_,
      fun s p hp m ↦ ⟨count_predecessors hnames hp m, count_successors hnames hp m⟩,
        qtail_generateLinkage hnames, ?_⟩
    · obtain ⟨h', hh', hreach⟩ := exists_head hnames hacyclic hm
      exact honly h' hh' ▸ hreach
    · exact hacyclic m (hswap m m ▸ hm)
    · obtain ⟨p, hp⟩ := Option.isSome_iff_exists.mp hh.1
      unfold generatePlan
      rw [hfailed, qhead_generateLinkage hh hfailed, deref, if_pos (Int.natCast_nonneg h),
        Int.toNat_natCast, hp]
      split <;> simp

end

/-! ## Two plans -/

/-- A query that reads from another one, which reads from outside. -/
def chain : List (Option (QpNode Unit)) :=
  [some ⟨"a", ["eth0"], 0, ()⟩, none, some ⟨"b", ["a", "eth0"], 0, ()⟩]

theorem node_chain {n : Nat} {p : QpNode Unit} (h : node chain n = some p) :
    (n = 0 ∧ p.nodeName = "a" ∧ p.inputTbls = ["eth0"]) ∨
    (n = 2 ∧ p.nodeName = "b" ∧ p.inputTbls = ["a", "eth0"]) := by
  have hlt : n < 3 := lt_length_of_node h
  interval_cases n
  · exact .inl (Option.some.inj h ▸ ⟨rfl, rfl, rfl⟩)
  · cases h
  · exact .inr (Option.some.inj h ▸ ⟨rfl, rfl, rfl⟩)

theorem distinctNames_chain : DistinctNames chain := by
  intro i j p q hi hj hname
  rcases node_chain hi with ⟨rfl, hp, -⟩ | ⟨rfl, hp, -⟩ <;> rcases node_chain hj
    with ⟨rfl, hq, -⟩ | ⟨rfl, hq, -⟩
  · rfl
  · simp [hp, hq] at hname
  · simp [hp, hq] at hname
  · rfl

theorem wellLinked_chain : (generateLinkage chain).createFailed = false ∧
    WellLinked chain (generateLinkage chain) := by
  have hfailed : (generateLinkage chain).createFailed = false := by decide
  refine ⟨hfailed, (wellLinked_iff distinctNames_chain).mpr
    (fun _ ↦ ⟨fun n hn ↦ ?_, 0, rfl⟩) hfailed⟩
  have hlt (i j : Nat) (h : Reads chain i j) : j < i := by
    obtain ⟨p, hp, hmem⟩ := h
    cases hq : node chain i with
    | none =>
      rw [inputTbls, hq] at hmem
      cases hmem
    | some q =>
      rw [inputTbls_eq hq] at hmem
      rcases node_chain hq with ⟨rfl, -, hq⟩ | ⟨rfl, -, hq⟩ <;> rcases node_chain hp
        with ⟨rfl, hp, -⟩ | ⟨rfl, hp, -⟩
      all_goals simp [hp, hq] at hmem
      decide
  have hgt : n > n := Relation.transGen_minimal hlt n n hn
  exact lt_irrefl n hgt

/-- A query that reads from itself. -/
def selfRead : List (Option (QpNode Unit)) := [some ⟨"a", ["a"], 0, ()⟩]

theorem distinctNames_selfRead : DistinctNames selfRead := by
  intro i j p q hi hj _
  have hi' : i < 1 := lt_length_of_node hi
  have hj' : j < 1 := lt_length_of_node hj
  omega

/-- **A plan without a head does not fail**, and the head is taken from in front of the list. -/
theorem exists_not_wellLinked : DistinctNames selfRead ∧
    (generateLinkage selfRead).createFailed = false ∧ generatePlan selfRead = none ∧
      ¬ WellLinked selfRead (generateLinkage selfRead) := by
  have hplan : generatePlan selfRead = none := rfl
  exact ⟨distinctNames_selfRead, by decide, hplan, fun h ↦ h.plan hplan⟩

end Tigon.Ftacmp.StreamQuery
