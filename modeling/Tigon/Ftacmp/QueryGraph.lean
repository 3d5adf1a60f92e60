import Tigon.Lib.Topsort

/-!
# The query graph

`translate_fta` reads queries that read from each other, drops those that produce no output, and
puts the others into groups, the HFTAs: each has a visible query at its root, and the queries that
only this one needs. For this it makes more queries visible: those read by operators, and those
needed by several visible ones.

Its loops go over the graph level by level, or with a queue.  Some count how many consumers of a
query are left; these end on any graph.  Others walk from query to source without looking where they
have been, and the first of them comes before the search for cycles.

## What is here

* `prune`, `udopsVisible`, `inferVisible`, `order`, `makePlan`, `analyse` — the steps of the
  analysis.
* `prune_spec` — the queries that are dropped.
* `order_spec` — the order of the others, and **which queries are reported**.
-/

set_option autoImplicit false

open While Topsort

namespace Tigon.QueryGraph

open Finset

/-! ## The analysis -/

/-- Queries, and the tables in their FROM clauses; no two have the same name. -/
structure Queries (n : Nat) where
  name : Fin n → String
  refdTbls : Fin n → List String
  isUdop : Fin n → Bool
  isExternallyVisible : Fin n → Bool
  name_injective : Function.Injective name

variable {n : Nat} (Q : Queries n)

namespace Queries

def readsFrom (i : Fin n) : Finset (Fin n) := univ.filter fun j ↦ Q.name j ∈ Q.refdTbls i

def consumers (i : Fin n) : Finset (Fin n) := univ.filter fun j ↦ i ∈ Q.readsFrom j

/-- The consumers that are not discarded. -/
def sourcesTo (discardedNodes : Finset (Fin n)) (i : Fin n) : Finset (Fin n) :=
  (Q.consumers i).filter (· ∉ discardedNodes)

/-- Lower the number of consumers of the sources of a query; the sources that have none left. -/
def consume (nConsumers : Fin n → ℤ) (i : Fin n) : (Fin n → ℤ) × List (Fin n) :=
  visit (-1) 0 (Q.readsFrom i).sort nConsumers

/-! ### Queries that produce no output -/

structure Pruning (n : Nat) where
  nConsumers : Fin n → ℤ
  roots : Finset (Fin n)
  candidates : Finset (Fin n)
  validRoots : Finset (Fin n)
  discardedNodes : Finset (Fin n)

def pruneNode (s : Pruning n) (i : Fin n) : Pruning n :=
  if Q.isExternallyVisible i then { s with validRoots := insert i s.validRoots }
  else
    { s with
      nConsumers := (Q.consume s.nConsumers i).1
      candidates := s.candidates ∪ (Q.consume s.nConsumers i).2.toFinset
      discardedNodes := insert i s.discardedNodes }

def pruneLevel (s : Pruning n) : Pruning n :=
  let s' := s.roots.sort.foldl Q.pruneNode s
  { s' with roots := s'.candidates, candidates := ∅ }

/-- At first the roots are the queries without consumers. -/
def pruneStart : Pruning n where
  nConsumers i := (Q.consumers i).card
  roots := univ.filter fun i ↦ ((Q.consumers i).card : ℤ) = 0
  candidates := ∅
  validRoots := ∅
  discardedNodes := ∅

def prune (fuel : Nat) : Option (Pruning n) :=
  loop (fun s ↦ decide s.roots.Nonempty) (fun s ↦ some (Q.pruneLevel s)) fuel Q.pruneStart

/-! ### Visible queries -/

structure Visibility (n : Nat) where
  visible : Finset (Fin n)
  visibleNodes : List (Fin n)

def Visibility.add (v : Visibility n) (i : Fin n) : Visibility n :=
  if i ∈ v.visible then v else ⟨insert i v.visible, v.visibleNodes ++ [i]⟩

def declared : Visibility n :=
  ⟨univ.filter (Q.isExternallyVisible ·), (List.finRange n).filter (Q.isExternallyVisible ·)⟩

/-- An operator becomes visible with the queries it reads from, unless it already is. -/
def visitUdop (v : Visibility n) (i : Fin n) : Visibility n :=
  if Q.isUdop i ∧ i ∉ v.visible then (Q.readsFrom i).sort.foldl .add (v.add i) else v

/-- The queue, which has everything that visible queries read from. -/
def udopStep : Visibility n × List (Fin n) → Visibility n × List (Fin n)
  | (v, []) => (v, [])
  | (v, i :: workq) => (Q.visitUdop v i, workq ++ (Q.readsFrom i).sort)

def udopsVisible (fuel : Nat) : Option (Visibility n) :=
  (loop (fun s ↦ !s.2.isEmpty) (fun s ↦ some (Q.udopStep s))
    fuel (Q.declared, Q.declared.visibleNodes)).map Prod.fst

/-- The sources that are not visible. -/
def innerSources (visible : Finset (Fin n)) (i : Fin n) : Finset (Fin n) :=
  (Q.readsFrom i).filter (· ∉ visible)

/-- The tree of a visible query, down to other visible queries. -/
def subtree (visible : Finset (Fin n)) (fuel : Nat) (root : Fin n) : Option (Finset (Fin n)) :=
  (loop (fun s : Finset (Fin n) × Finset (Fin n) ↦ decide s.1.Nonempty)
    (fun s ↦ some (s.1.biUnion (Q.innerSources visible), s.2 ∪ s.1)) fuel ({root}, ∅)).map Prod.snd

/-- For each query the visible queries that have it in their trees. -/
def subtreeRoots (visible : Finset (Fin n)) (fuel : Nat) : List (Fin n) →
    Option (Fin n → Finset (Fin n))
  | [] => some fun _ ↦ ∅
  | root :: roots =>
    (Q.subtree visible fuel root).bind fun tree ↦ (subtreeRoots visible fuel roots).map
      fun found i ↦
      if i ∈ tree then insert root (found i) else found i

/-- The queries in several trees, with no consumer in several. -/
def newRoots (discardedNodes : Finset (Fin n)) (found : Fin n → Finset (Fin n)) : List (Fin n) :=
  (List.finRange n).filter fun i ↦
    1 < (found i).card ∧ ∀ j ∈ Q.sourcesTo discardedNodes i, ¬ 1 < (found j).card

def inferStep (discardedNodes : Finset (Fin n)) (fuel : Nat) (s : Visibility n × Bool) :
    Option (Visibility n × Bool) :=
  (Q.subtreeRoots s.1.visible fuel s.1.visibleNodes).map fun found ↦
    let new := Q.newRoots discardedNodes found
    (⟨s.1.visible ∪ new.toFinset, s.1.visibleNodes ++ new⟩, new.isEmpty)

def inferVisible (discardedNodes : Finset (Fin n)) (v : Visibility n) (fuel : Nat) :
    Option (Visibility n) :=
  (loop (fun s ↦ !s.2) (Q.inferStep discardedNodes fuel) fuel (v, false)).map Prod.fst

/-! ### The order of the queries -/

structure Ordering (n : Nat) where
  nConsumers : Fin n → ℤ
  roots : Finset (Fin n)
  candidates : Finset (Fin n)
  processOrder : List (Fin n)

def orderNode (discardedNodes : Finset (Fin n)) (s : Ordering n) (i : Fin n) : Ordering n :=
  { s with
    nConsumers := (Q.consume s.nConsumers i).1
    candidates := s.candidates ∪ (Q.consume s.nConsumers i).2.toFinset
    processOrder := if i ∈ discardedNodes then s.processOrder else s.processOrder ++ [i] }

def orderLevel (discardedNodes : Finset (Fin n)) (s : Ordering n) : Ordering n :=
  let s' := s.roots.sort.foldl (Q.orderNode discardedNodes) s
  { s' with roots := s'.candidates, candidates := ∅ }

/-- The counts of consumers go on from where they are. -/
def order (pruned : Pruning n) (fuel : Nat) : Option (Ordering n) :=
  loop (fun s ↦ decide s.roots.Nonempty) (fun s ↦ some (Q.orderLevel pruned.discardedNodes s)) fuel
    { nConsumers := pruned.nConsumers, roots := pruned.validRoots, candidates := ∅,
      processOrder := [] }

/-- The queries that still have consumers. -/
def foundDep (discardedNodes : Finset (Fin n)) (nConsumers : Fin n → ℤ) : List (Fin n) :=
  (List.finRange n).filter fun i ↦ i ∉ discardedNodes ∧ 0 < nConsumers i

/-! ### HFTAs -/

/-- An HFTA has the name of its root. -/
structure HftaNode (n : Nat) where
  root : Fin n
  queryNodeIndices : List (Fin n)

structure Collecting (n : Nat) where
  roots : Finset (Fin n)
  procSet : Finset (Fin n)
  procList : List (Fin n)

def collectNode (visible : Finset (Fin n)) (s : Collecting n) (i : Fin n) : Collecting n :=
  if i ∈ visible then s
  else
    { roots := insert i s.roots
      procSet := insert i s.procSet
      procList := if i ∈ s.procSet then s.procList else s.procList ++ [i] }

def collectLevel (visible : Finset (Fin n)) (s : Collecting n) : Collecting n :=
  (s.roots.sort.flatMap fun i ↦ (Q.readsFrom i).sort).foldl (collectNode visible)
    { s with roots := ∅ }

def makeHfta (visible : Finset (Fin n)) (root : Fin n) (fuel : Nat) : Option (HftaNode n) :=
  (loop (fun s ↦ decide s.roots.Nonempty) (fun s ↦ some (Q.collectLevel visible s)) fuel
    ⟨{root}, {root}, [root]⟩).map fun s ↦ ⟨root, s.procList.reverse⟩

/-- The HFTAs an HFTA reads from, by the names in FROM clauses. -/
def hftaReadsFrom (hftaSets : List (HftaNode n)) (i : Nat) : Finset Nat :=
  (range hftaSets.length).filter fun j ↦ ∃ h ∈ hftaSets[i]?, ∃ g ∈ hftaSets[j]?,
    ∃ q ∈ h.queryNodeIndices, Q.name g.root ∈ Q.refdTbls q

/-- The same from the lists of the queries; this is how they are rebuilt. -/
def hftaReadsFrom' (hftaSets : List (HftaNode n)) (i : Nat) : Finset Nat :=
  (range hftaSets.length).filter fun j ↦ ∃ h ∈ hftaSets[i]?, ∃ g ∈ hftaSets[j]?,
    ∃ q ∈ h.queryNodeIndices, ∃ rf ∈ Q.readsFrom q, Q.name g.root = Q.name rf

/-! ### Sorting -/

structure Sorting (α : Type) where
  count : α → ℤ
  workq : List α
  sorted : List α

/-- Take a node from the queue, and raise the counts of others. -/
def sortStep {α : Type} [DecidableEq α] (target : α → ℤ) (next : α → List α) (s : Sorting α) :
    Sorting α :=
  match s.workq with
  | [] => s
  | node :: workq =>
    let (count, new) := visit 1 target (next node) s.count
    ⟨count, workq ++ new, s.sorted ++ [node]⟩

def sortAll {α : Type} [DecidableEq α] (target : α → ℤ) (next : α → List α) (s : Sorting α)
    (fuel : Nat) : Option (List α) :=
  (loop (fun s ↦ !s.workq.isEmpty) (fun s ↦ some (sortStep target next s)) fuel s).map
    Sorting.sorted

/-- The nodes of a graph of `m` nodes that read from a node. -/
def readers (m : Nat) (reads : Nat → Finset Nat) (j : Nat) : Finset Nat :=
  (range m).filter (j ∈ reads ·)

def hftaTopsort (m : Nat) (reads : Nat → Finset Nat) (fuel : Nat) : Option (List Nat) :=
  sortAll (fun j ↦ (readers m reads j).card) (fun i ↦ (reads i).sort)
    ⟨fun _ ↦ 0, (List.range m).filter fun j ↦ (readers m reads j).card = 0, []⟩ fuel

/-- The sources of a query that are in its HFTA. -/
def sourcesIn (indices : List (Fin n)) (i : Fin n) : Finset (Fin n) :=
  (Q.readsFrom i).filter (· ∈ indices)

/-- The sources of a query that are not in its HFTA. -/
def nAccounted (indices : List (Fin n)) (i : Fin n) : ℤ :=
  ((Q.readsFrom i).filter (· ∉ indices)).card

def sortIndices (indices : List (Fin n)) (fuel : Nat) : Option (List (Fin n)) :=
  sortAll (fun i ↦ (Q.readsFrom i).card) (fun i ↦ (Q.consumers i).sort.filter (· ∈ indices))
    ⟨Q.nAccounted indices, indices.filter fun i ↦ Q.nAccounted indices i = (Q.readsFrom i).card, []⟩
      fuel

/-! ### All of it -/

/-- The result for queries without cycles. -/
structure Plan (n : Nat) where
  visible : Finset (Fin n)
  processOrder : List (Fin n)
  hftaSets : List (HftaNode n)
  hftaTopsort : List Nat

/-- The HFTAs are sorted, and once more after their graph has been rebuilt; then their queries
are. -/
def makePlan (visible : Finset (Fin n)) (processOrder : List (Fin n)) (fuel : Nat) :
    Option (Plan n) :=
  ((processOrder.filter (· ∈ visible)).mapM fun root ↦ Q.makeHfta visible root fuel).bind
    fun hftaSets ↦
    (hftaTopsort hftaSets.length (Q.hftaReadsFrom hftaSets) fuel).bind fun _ ↦
      (hftaTopsort hftaSets.length (Q.hftaReadsFrom' hftaSets) fuel).bind fun topsort ↦
        (hftaSets.mapM fun h ↦ (Q.sortIndices h.queryNodeIndices fuel).map fun l ↦ ⟨h.root, l⟩).map
          fun hftaSets ↦
          ⟨visible, processOrder, hftaSets, topsort⟩

structure Analysis (n : Nat) where
  discardedNodes : Finset (Fin n)
  foundDep : List (Fin n)
  plan : Option (Plan n)

def analyse (fuel : Nat) : Option (Analysis n) :=
  (Q.prune fuel).bind fun pruned ↦ (Q.udopsVisible fuel).bind fun v ↦
    (Q.inferVisible pruned.discardedNodes v fuel).bind fun v ↦ (Q.order pruned fuel).bind
      fun ordered ↦
      let foundDep := Queries.foundDep pruned.discardedNodes ordered.nConsumers
      if foundDep = [] then
        (Q.makePlan v.visible ordered.processOrder.reverse fuel).map fun plan ↦
          ⟨pruned.discardedNodes, foundDep, some plan⟩
      else some ⟨pruned.discardedNodes, foundDep, none⟩

/-! ## Counting consumers -/

variable {Q}

theorem mem_readsFrom {i j : Fin n} : j ∈ Q.readsFrom i ↔ Q.name j ∈ Q.refdTbls i := by
  rw [readsFrom, mem_filter, and_iff_right (mem_univ j)]

theorem mem_consumers {i j : Fin n} : i ∈ Q.consumers j ↔ j ∈ Q.readsFrom i := by
  rw [consumers, mem_filter, and_iff_right (mem_univ i)]

variable {done : List (Fin n)}

/-- **A query is taken;** its sources without other consumers become candidates. -/
theorem inv_consume {rest other : Multiset (Fin n)} {candidates : Finset (Fin n)}
    {nConsumers : Fin n → ℤ} {i : Fin n}
    (h : Inv Q.consumers univ done (i ::ₘ rest + candidates.val + other))
    (hcount : ∀ j ∈ univ, Counts (-1) 0 Q.consumers done nConsumers j) :
    Inv Q.consumers univ (done ++ [i])
        (rest + (candidates ∪ (Q.consume nConsumers i).2.toFinset).val + other) ∧
      ∀ j ∈ univ, Counts (-1) 0 Q.consumers (done ++ [i]) (Q.consume nConsumers i).1 j := by
  have hpending : i ::ₘ rest + candidates.val + other = i ::ₘ (rest + candidates.val + other) := by
    rw [Multiset.cons_add, Multiset.cons_add]
  rw [hpending] at h
  have hmem : ∀ j, j ∈ (Q.readsFrom i).sort ↔ j ∈ univ ∧ i ∈ Q.consumers j := by
    intro j
    rw [mem_sort, mem_consumers, and_iff_right (mem_univ j)]
  obtain ⟨hinv, hcount'⟩ := h.visit (by decide) hcount (sort_nodup _ _) hmem
  refine ⟨?_, hcount'⟩
  rw [← consume] at hinv
  have hnodup : (candidates.val + ((Q.consume nConsumers i).2 : Multiset (Fin n))).Nodup := by
    refine Multiset.nodup_of_le ?_ hinv.nodup
    refine le_trans ?_ (Multiset.le_add_left _ _)
    rw [add_right_comm rest, add_assoc (rest + other), add_comm (rest + other)]
    exact Multiset.le_add_right _ _
  have hnew : (candidates ∪ (Q.consume nConsumers i).2.toFinset).val =
      candidates.val + ((Q.consume nConsumers i).2 : Multiset (Fin n)) := by
    obtain ⟨-, hnew, hdisjoint⟩ := Multiset.nodup_add.mp hnodup
    rw [union_val, List.toFinset_val, List.dedup_eq_self.mpr (Multiset.coe_nodup.mp hnew)]
    exact (Multiset.add_eq_union_iff_disjoint.mpr hdisjoint).symm
  rwa [hnew, ← add_assoc, add_right_comm _ _ other]

/-- What the loop keeps, with queries of the level that are still to be done. -/
structure Pruned (Q : Queries n) (s : Pruning n) (rest : Multiset (Fin n)) (done : List (Fin n)) :
    Prop where
  inv : Inv Q.consumers univ done (rest + s.candidates.val + s.validRoots.val)
  count : ∀ i ∈ univ, Counts (-1) 0 Q.consumers done s.nConsumers i
  discarded : done.toFinset = s.discardedNodes
  visible : ∀ i ∈ s.validRoots, Q.isExternallyVisible i = true
  notVisible : ∀ i ∈ done, Q.isExternallyVisible i = false

variable {s : Pruning n}

theorem Pruned.node {rest : Multiset (Fin n)} {i : Fin n}
    (h : Pruned Q s (i ::ₘ rest) done) : ∃ done', Pruned Q (Q.pruneNode s i) rest done' ∧
      done'.length + (Q.pruneNode s i).validRoots.card = done.length + s.validRoots.card + 1 := by
  rw [pruneNode]
  split
  case isTrue hvisible =>
    have hi : i ∉ s.validRoots := by
      intro hi
      have hnodup := (Multiset.nodup_add.mp h.inv.nodup).2.1
      rw [Multiset.cons_add, Multiset.cons_add, Multiset.nodup_cons] at hnodup
      exact hnodup.1 (Multiset.mem_add.mpr (.inr hi))
    refine ⟨done, ⟨?_, h.count, h.discarded, ?_, h.notVisible⟩, ?_⟩
    · have hinv := h.inv
      rw [Multiset.cons_add, Multiset.cons_add, ← Multiset.add_cons] at hinv
      rwa [insert_val_of_notMem hi]
    · intro j hj
      rcases mem_insert.mp hj with rfl | hj
      · exact hvisible
      · exact h.visible j hj
    · rw [card_insert_of_notMem hi, Nat.add_assoc]
  case isFalse hvisible =>
    obtain ⟨hinv, hcount⟩ := inv_consume h.inv h.count
    refine ⟨done ++ [i], ⟨hinv, hcount, ?_, h.visible, ?_⟩, ?_⟩
    · rw [List.toFinset_append, h.discarded]
      simp
    · intro j hj
      rcases List.mem_append.mp hj with hj | hj
      · exact h.notVisible j hj
      · obtain rfl := List.mem_singleton.mp hj
        exact Bool.eq_false_iff.mpr hvisible
    · rw [List.length_append, List.length_singleton, Nat.add_right_comm]

theorem Pruned.foldl {level : List (Fin n)} (h : Pruned Q s level done) :
    ∃ done', Pruned Q (level.foldl Q.pruneNode s) 0 done' ∧
      done'.length + (level.foldl Q.pruneNode s).validRoots.card =
        done.length + s.validRoots.card + level.length := by
  induction level generalizing s done with
  | nil => exact ⟨done, h, rfl⟩
  | cons i level ih =>
    rw [← Multiset.cons_coe] at h
    obtain ⟨done₁, h₁, hlen₁⟩ := h.node
    obtain ⟨done₂, h₂, hlen₂⟩ := ih h₁
    refine ⟨done₂, h₂, ?_⟩
    rw [List.foldl_cons, hlen₂, hlen₁, List.length_cons]
    omega

theorem Pruned.level (h : Pruned Q s s.roots.val done) : ∃ done', Pruned Q (Q.pruneLevel s)
      (Q.pruneLevel s).roots.val done' ∧ done'.length + (Q.pruneLevel s).validRoots.card =
        done.length + s.validRoots.card + s.roots.card := by
  rw [← sort_eq s.roots (· ≤ ·)] at h
  obtain ⟨done', h', hlen⟩ := h.foldl
  rw [length_sort] at hlen
  refine ⟨done', ⟨?_, h'.count, h'.discarded, h'.visible, h'.notVisible⟩, hlen⟩
  have hinv := h'.inv
  rw [zero_add] at hinv
  exact (add_zero (_ : Multiset (Fin n))).symm ▸ hinv

theorem Pruned.length_eq {rest : Multiset (Fin n)} (h : Pruned Q s rest done) :
    done.length = s.discardedNodes.card := by
  rw [← h.discarded, List.toFinset_card_of_nodup
    (Multiset.coe_nodup.mp (Multiset.nodup_add.mp h.inv.nodup).1)]

theorem Pruned.card_le {rest : Multiset (Fin n)} (h : Pruned Q s rest done) :
    done.length + s.validRoots.card ≤ n := by
  have hle := h.inv.card_le
  rw [Multiset.card_add, Multiset.card_add, card_univ, Fintype.card_fin] at hle
  have hcard : s.validRoots.val.card = s.validRoots.card := rfl
  omega

theorem pruned_start : Pruned Q Q.pruneStart Q.pruneStart.roots.val [] := by
  refine ⟨?_, fun i _ ↦ by simp [Counts, pruneStart], rfl, fun i hi ↦ ?_, fun i hi ↦ ?_⟩
  · have hinv : Inv Q.consumers univ [] Q.pruneStart.roots.val := by
      refine inv_nil (nodup _) fun i ↦ ?_
      rw [pruneStart, mem_val, mem_filter, Nat.cast_eq_zero, card_eq_zero]
    have hzero : Q.pruneStart.roots.val + Q.pruneStart.candidates.val +
        Q.pruneStart.validRoots.val = Q.pruneStart.roots.val := by
      rw [pruneStart, empty_val, add_zero, add_zero]
    rwa [hzero]
  · exact absurd hi (notMem_empty i)
  · exact absurd hi List.not_mem_nil

/-- **The loop over the roots ends.** -/
theorem exists_returns_prune : ∃ s, Returns Q.prune s ∧ ∃ done, Pruned Q s 0 done ∧
    s.candidates = ∅ := by
  have hbody : ∀ s : Pruning n, (s.candidates = ∅ ∧ ∃ done, Pruned Q s s.roots.val done) →
      decide s.roots.Nonempty = true → ∃ t, Returns (fun _ ↦ some (Q.pruneLevel s)) t ∧
        (t.candidates = ∅ ∧ ∃ done, Pruned Q t t.roots.val done) ∧
        n - (t.discardedNodes.card + t.validRoots.card) <
          n - (s.discardedNodes.card + s.validRoots.card) := by
    rintro s ⟨-, done, hdone⟩ hroots
    obtain ⟨done', hdone', hlen⟩ := hdone.level
    refine ⟨_, returns_some _, ⟨rfl, done', hdone'⟩, ?_⟩
    have hpos := card_pos.mpr (of_decide_eq_true hroots)
    have hle := hdone'.card_le
    rw [← hdone.length_eq, ← hdone'.length_eq]
    omega
  obtain ⟨s, hs, ⟨hempty, done, hdone⟩, hroots⟩ := exists_returns_loop_measure
    (fun s : Pruning n ↦ n - (s.discardedNodes.card + s.validRoots.card)) hbody
      ⟨rfl, [], pruned_start⟩
  rw [decide_eq_false_iff_not, not_nonempty_iff_eq_empty] at hroots
  rw [hroots] at hdone
  exact ⟨s, hs, done, hdone, hempty⟩

/-! ## The order -/

/-- What the second loop keeps; the queries that have been discarded are done before the others. -/
structure Ordered (Q : Queries n) (discarded : List (Fin n)) (s : Ordering n)
    (rest : Multiset (Fin n)) : Prop where
  inv : Inv Q.consumers univ (discarded ++ s.processOrder) (rest + s.candidates.val + 0)
  count : ∀ i ∈ univ, Counts (-1) 0 Q.consumers (discarded ++ s.processOrder) s.nConsumers i

theorem Ordered.foldl {discarded level : List (Fin n)} {s : Ordering n}
    (h : Ordered Q discarded s level) :
      Ordered Q discarded (level.foldl (Q.orderNode discarded.toFinset) s) 0 ∧
      (level.foldl (Q.orderNode discarded.toFinset) s).processOrder = s.processOrder ++ level := by
  induction level generalizing s with
  | nil => exact ⟨h, (List.append_nil _).symm⟩
  | cons i level ih =>
    have hinv := h.inv
    rw [← Multiset.cons_coe] at hinv
    have hi : i ∉ discarded.toFinset := by
      intro hi
      rw [Multiset.cons_add, Multiset.cons_add] at hinv
      exact hinv.notMem (List.mem_append_left _ (List.mem_toFinset.mp hi))
    obtain ⟨hinv', hcount⟩ := inv_consume hinv h.count
    have hnode : (Q.orderNode discarded.toFinset s i).processOrder = s.processOrder ++ [i] :=
      if_neg hi
    obtain ⟨hfinal, horder⟩ := ih (s := Q.orderNode discarded.toFinset s i)
      ⟨by rw [hnode, ← List.append_assoc]; exact hinv',
        by rw [hnode, ← List.append_assoc]; exact hcount⟩
    refine ⟨hfinal, ?_⟩
    rw [List.foldl_cons, horder, hnode, List.append_assoc, List.singleton_append]

/-- **The second loop ends,** with no more queries that can be taken. -/
theorem exists_returns_order {pruned : Pruning n} (h : Pruned Q pruned 0 done)
    (hempty : pruned.candidates = ∅) : ∃ s, Returns (Q.order pruned) s ∧ Ordered Q done s 0 ∧
      s.candidates = ∅ := by
  have hbody : ∀ s : Ordering n, Ordered Q done s s.roots.val ∧ s.candidates = ∅ →
      decide s.roots.Nonempty = true → ∃ t,
        Returns (fun _ ↦ some (Q.orderLevel pruned.discardedNodes s)) t ∧
          (Ordered Q done t t.roots.val ∧ t.candidates = ∅) ∧
        n - t.processOrder.length < n - s.processOrder.length := by
    rintro s ⟨hs, -⟩ hroots
    rw [← sort_eq s.roots (· ≤ ·)] at hs
    obtain ⟨hinv, horder⟩ := hs.foldl
    rw [h.discarded] at hinv horder
    refine ⟨_, returns_some _, ⟨⟨?_, hinv.count⟩, rfl⟩, ?_⟩
    · have hinv' := hinv.inv
      rw [zero_add] at hinv'
      exact (add_zero (_ : Multiset (Fin n))).symm ▸ hinv'
    · have hpos := card_pos.mpr (of_decide_eq_true hroots)
      have hle := hinv.inv.card_le
      rw [List.length_append, horder, List.length_append, length_sort, card_univ,
        Fintype.card_fin] at hle
      have hlen : (Q.orderLevel pruned.discardedNodes s).processOrder.length =
          s.processOrder.length + s.roots.card := by
        rw [← length_sort (s := s.roots) (· ≤ ·), ← List.length_append, ← horder]
        rfl
      omega
  have hstart : Ordered Q done
      { nConsumers := pruned.nConsumers, roots := pruned.validRoots, candidates := ∅,
        processOrder := [] }
      pruned.validRoots.val := by
    have hinv := h.inv
    rw [hempty, empty_val, zero_add, add_comm] at hinv
    refine ⟨?_, ?_⟩
    · rwa [List.append_nil, empty_val, add_zero]
    · rw [List.append_nil]
      exact h.count
  obtain ⟨s, hs, ⟨hordered, hcandidates⟩, hroots⟩ := exists_returns_loop_measure
    (fun s : Ordering n ↦ n - s.processOrder.length) hbody ⟨hstart, rfl⟩
  rw [decide_eq_false_iff_not, not_nonempty_iff_eq_empty] at hroots
  rw [hroots] at hordered
  exact ⟨s, hs, hordered, hcandidates⟩

/-! ## What is discarded, and what is reported -/

/-- One query reads from another. -/
def Reads (Q : Queries n) (i j : Fin n) : Prop := j ∈ Q.readsFrom i

/-- There is no cycle. -/
def Acyclic (Q : Queries n) : Prop := ∀ i, ¬ Relation.TransGen Q.Reads i i

/-- There is a cycle among the queries that are not discarded. -/
def CyclicWithout (Q : Queries n) (discardedNodes : Finset (Fin n)) : Prop :=
  ∃ i, Relation.TransGen (fun i j ↦ Q.Reads i j ∧ i ∉ discardedNodes ∧ j ∉ discardedNodes) i i

theorem acc_consumers_iff {i : Fin n} : Acc (fun j i ↦ j ∈ Q.consumers i) i ↔ Acc Q.Reads i := by
  have h : (fun j i ↦ j ∈ Q.consumers i) = Q.Reads := by
    ext j i
    exact mem_consumers
  rw [h]

theorem Acyclic.acc (h : Q.Acyclic) (i : Fin n) : Acc Q.Reads i :=
  acc_of_forall_not_transGen fun j _ ↦ h j

theorem Acyclic.acc_swap (h : Q.Acyclic) (i : Fin n) : Acc (Function.swap Q.Reads) i := by
  refine acc_of_forall_not_transGen fun j _ hj ↦ h j ?_
  exact Relation.transGen_swap.mp hj

variable {pruned : Pruning n} {done : List (Fin n)}

theorem Pruned.inv_done (h : Pruned Q pruned 0 done) (hempty : pruned.candidates = ∅) :
    Inv Q.consumers univ done pruned.validRoots.val := by
  have hinv := h.inv
  rwa [hempty, empty_val, zero_add, zero_add] at hinv

theorem Pruned.mem_discarded (h : Pruned Q pruned 0 done) {i : Fin n} : i ∈ pruned.discardedNodes ↔
    i ∈ done := by
  rw [← h.discarded, List.mem_toFinset]

/-- All consumers of a discarded query are discarded. -/
theorem Pruned.consumer (h : Pruned Q pruned 0 done) {i j : Fin n} (hi : i ∈ pruned.discardedNodes)
    (hji : Q.Reads j i) : j ∈ pruned.discardedNodes :=
  h.mem_discarded.mpr (h.inv.sorted.mem_of_mem (h.mem_discarded.mp hi) (mem_consumers.mpr hji))

theorem Pruned.notMem_of_visible (h : Pruned Q pruned 0 done) {v i : Fin n}
    (hv : Q.isExternallyVisible v = true) (hvi : Relation.ReflTransGen Q.Reads v i) :
      i ∉ pruned.discardedNodes := by
  induction hvi with
  | refl =>
    intro hi
    have hnot := h.notVisible v (h.mem_discarded.mp hi)
    rw [hv] at hnot
    cases hnot
  | tail _ hji ih => exact fun hi ↦ ih (h.consumer hi hji)

/-- **Without cycles, exactly the queries that no visible query needs are discarded.** -/
theorem Pruned.mem_discarded_iff (h : Pruned Q pruned 0 done) (hempty : pruned.candidates = ∅)
    (hacyclic : Q.Acyclic) (i : Fin n) : i ∈ pruned.discardedNodes ↔
      ¬ ∃ v, Q.isExternallyVisible v = true ∧ Relation.ReflTransGen Q.Reads v i := by
  constructor
  · rintro hi ⟨v, hv, hvi⟩
    exact h.notMem_of_visible hv hvi hi
  · intro hnone
    induction hacyclic.acc i with
    | intro i _ ih =>
      have hconsumers : ∀ j ∈ Q.consumers i, j ∈ done := by
        intro j hj
        have hji := mem_consumers.mp hj
        exact h.mem_discarded.mp (ih j hji fun ⟨v, hv, hvj⟩ ↦ hnone ⟨v, hv, hvj.tail hji⟩)
      rcases Multiset.mem_add.mp ((h.inv_done hempty).complete i (mem_univ i) hconsumers)
        with hi | hi
      · exact h.mem_discarded.mpr (Multiset.mem_coe.mp hi)
      · exact absurd ⟨i, h.visible i hi, .refl⟩ hnone

variable {s : Ordering n}

theorem Ordered.inv_done (h : Ordered Q done s 0) (hempty : s.candidates = ∅) :
    Inv Q.consumers univ (done ++ s.processOrder) 0 := by
  have hinv := h.inv
  rwa [hempty, empty_val, zero_add, zero_add] at hinv

theorem Ordered.mem_iff_acc (h : Ordered Q done s 0) (hempty : s.candidates = ∅) (i : Fin n) :
    i ∈ done ++ s.processOrder ↔ Acc Q.Reads i := by
  rw [(h.inv_done hempty).mem_iff_acc fun _ _ j _ ↦ mem_univ j,
    and_iff_right (mem_univ i), acc_consumers_iff]

/-- The queries that are reported are those on cycles, and what these read from. -/
theorem Ordered.mem_foundDep (h : Ordered Q done s 0) (hempty : s.candidates = ∅)
    (hpruned : Pruned Q pruned 0 done) (i : Fin n) : i ∈ foundDep pruned.discardedNodes
      s.nConsumers ↔ ¬ Acc Q.Reads i := by
  have hcount := h.count i (mem_univ i)
  have hzero : s.nConsumers i = 0 ↔ i ∈ done ++ s.processOrder := by
    have htarget := hcount.eq_target_iff (by decide)
    rw [Pi.zero_apply] at htarget
    have hmem := (h.inv_done hempty).mem_iff (b := i)
    rw [add_zero, Multiset.mem_coe, and_iff_right (mem_univ i)] at hmem
    rw [htarget, hmem]
  have hnonneg : 0 ≤ s.nConsumers i := by
    rw [Counts, Pi.zero_apply] at hcount
    omega
  rw [foundDep, List.mem_filter, decide_eq_true_eq,
    and_iff_right (List.mem_finRange i), ← h.mem_iff_acc hempty, ← hzero, hpruned.mem_discarded]
  constructor
  · rintro ⟨-, hpos⟩
    omega
  · intro hne
    refine ⟨fun hi ↦ hne (hzero.mpr (List.mem_append_left _ hi)), ?_⟩
    omega

theorem transGen_of_not_acc {discardedNodes : Finset (Fin n)}
    (hacc : ∀ i ∈ discardedNodes, Acc Q.Reads i) {i j : Fin n} (hi : ¬ Acc Q.Reads i)
    (hij : Relation.TransGen Q.Reads i j) :
    Relation.TransGen (fun i j ↦ Q.Reads i j ∧ i ∉ discardedNodes ∧ j ∉ discardedNodes) i j ∧
      ¬ Acc Q.Reads j := by
  induction hij with
  | single hij =>
    have hj : ¬ Acc Q.Reads _ := fun hj ↦ hi (hj.inv hij)
    exact ⟨.single ⟨hij, fun h ↦ hi (hacc _ h), fun h ↦ hj (hacc _ h)⟩, hj⟩
  | tail _ hjk ih =>
    have hk : ¬ Acc Q.Reads _ := fun hk ↦ ih.2 (hk.inv hjk)
    exact ⟨ih.1.tail ⟨hjk, fun h ↦ ih.2 (hacc _ h), fun h ↦ hk (hacc _ h)⟩, hk⟩

/-- **A cycle is reported exactly if the queries that are not discarded have one.** -/
theorem Ordered.foundDep_ne_nil_iff (h : Ordered Q done s 0) (hempty : s.candidates = ∅)
    (hpruned : Pruned Q pruned 0 done) :
    foundDep pruned.discardedNodes s.nConsumers ≠ [] ↔ Q.CyclicWithout pruned.discardedNodes := by
  have hacc : ∀ i ∈ pruned.discardedNodes, Acc Q.Reads i := fun i hi ↦
    (h.mem_iff_acc hempty i).mp (List.mem_append_left _ (hpruned.mem_discarded.mp hi))
  constructor
  · intro hne
    obtain ⟨i, hi⟩ := List.exists_mem_of_ne_nil _ hne
    have hnot := (h.mem_foundDep hempty hpruned i).mp hi
    by_contra hcyclic
    refine hnot (acc_of_forall_not_transGen fun j _ hj ↦ hcyclic ⟨j, ?_⟩)
    exact (transGen_of_not_acc hacc (fun hj' ↦ not_transGen_of_acc hj' hj) hj).1
  · rintro ⟨i, hi⟩
    have hcycle : Relation.TransGen Q.Reads i i := hi.lift id fun _ _ h ↦ h.1
    exact List.ne_nil_of_mem ((h.mem_foundDep hempty hpruned i).mpr fun hi' ↦
      not_transGen_of_acc hi' hcycle)

/-- **Without cycles, the others are sorted,** and sources come first in the reversed list. -/
theorem Ordered.sorted_reverse (h : Ordered Q done s 0) (hempty : s.candidates = ∅)
    (hpruned : Pruned Q pruned 0 done) (hacyclic : Q.Acyclic) :
    s.processOrder.Nodup ∧ (∀ i, i ∈ s.processOrder ↔ i ∉ pruned.discardedNodes) ∧
      Sorted Q.readsFrom s.processOrder.reverse := by
  have hinv := h.inv_done hempty
  have hnodup : (done ++ s.processOrder).Nodup := by
    have hnodup := hinv.nodup
    rwa [add_zero, Multiset.coe_nodup] at hnodup
  obtain ⟨-, hnodup', hdisjoint⟩ := List.nodup_append.mp hnodup
  have hmem : ∀ i, i ∈ s.processOrder ↔ i ∉ pruned.discardedNodes := by
    intro i
    rw [hpruned.mem_discarded]
    refine ⟨fun hi hdone ↦ hdisjoint i hdone i hi rfl, fun hi ↦ ?_⟩
    exact (List.mem_append.mp ((h.mem_iff_acc hempty i).mpr (hacyclic.acc i))).resolve_left hi
  refine ⟨hnodup', hmem, sorted_of_pairwise ?_ (fun i _ hi ↦ hacyclic i (.single hi))
    fun i hi j hj ↦ ?_⟩
  · have hpair := (List.pairwise_append.mp (hinv.sorted.pairwise hnodup)).2.1
    exact List.pairwise_reverse.mpr (hpair.imp fun hij hji ↦ hij (mem_consumers.mpr hji))
  · rw [List.mem_reverse, hmem] at hi ⊢
    exact fun hdone ↦ hi (hpruned.consumer hdone hj)

end Queries

end Tigon.QueryGraph
