import Mathlib

/-!
# The operators of an HFTA in order

An HFTA with several operators is built from nodes that are linked by `set_left_child_node`,
`set_right_child_node`, `set_left_lfta` and `set_right_lfta`.  The constructor of `MULTOP_HFTA`
collects the nodes that are reached from the root, and sorts them: in one pass after the other, it
takes the nodes all of whose children it has taken.

A `Plan` has the root and the links, in the order in which they were made.  `sorted_spec` says that
the sorted list has every operator that is reached from the root once, after its children, and the
root at its end.

The calls may be made in any order, and the constructor does not check what they amount to; what is
asked of them is `WellFormed`.
-/

set_option autoImplicit false
set_option linter.unusedSectionVars false

namespace Tigon.Hfta.Multop

open List

/-- What an operator gets its tuples from. -/
inductive Source (N L : Type)
  | node (n : N)
  | lfta (l : L)
deriving DecidableEq

def Source.node? {N L : Type} : Source N L → Option N
  | .node n => some n
  | .lfta _ => none

/-- One call that links a source to an operator, as its left (0) or right (1) input. -/
structure Link (N L : Type) where
  parent : N
  channel : Nat
  source : Source N L
deriving DecidableEq

structure Plan (N L : Type) where
  root : N
  /-- The calls, in order. -/
  links : List (Link N L)

namespace Plan

variable {N L : Type} [DecidableEq N] [DecidableEq L] (p : Plan N L)

/-- `left_child` and `right_child` -/
def child (n : N) (channel : Nat) : Option N :=
  (p.links.filterMap fun k ↦
    if k.parent = n ∧ k.channel = channel then k.source.node? else none).getLast?

/-- `parent_list` and `out_channel_list` -/
def parentList (source : Source N L) : List (N × Nat) :=
  p.links.filterMap fun k ↦ if k.source = source then some (k.parent, k.channel) else none

/-! ## The constructor -/

/-- A child that is not in the list is put at its end. -/
def collect (list : List N) : Option N → List N
  | some c => if c ∈ list then list else list ++ [c]
  | none => list

/-- The first loop: the children of each node of the list are put into it. -/
def nodeList : Nat → Nat → List N → List N
  | 0, _, list => list
  | fuel + 1, i, list =>
    match list[i]? with
    | none => list
    | some n => nodeList fuel (i + 1) (collect (collect list (p.child n 0)) (p.child n 1))

/-- No more nodes are collected than there are links. -/
def nodes : List N := p.nodeList (p.links.length + 1) 0 [p.root]

/-- `adj_lists` -/
def adjacency (n : N) : List N :=
  (p.child n 0).toList ++ if p.child n 1 ≠ p.child n 0 then (p.child n 1).toList else []

/-- A node that was not taken and has no children left is taken, and removed from the lists. -/
def visit (s : List N × (N → List N)) (n : N) : List N × (N → List N) :=
  if n ∉ s.1 ∧ s.2 n = [] then (s.1 ++ [n], fun m ↦ (s.2 m).erase n) else s

/-- The passes over the nodes, until one finds no leaf. -/
def sort (nodes : List N) : Nat → List N × (N → List N) → List N
  | 0, s => s.1
  | fuel + 1, s =>
    let s' := nodes.foldl visit s
    if s'.1.length = s.1.length then s.1 else sort nodes fuel s'

/-- `sorted_nodes` -/
def sorted : List N := sort p.nodes (p.nodes.length + 1) ([], p.adjacency)

/-! ## Plans -/

/-- The node is a child of the other. -/
def IsChild (c n : N) : Prop := ∃ k ∈ p.links, k.parent = n ∧ k.source = .node c

/-- The operator is reached from the root. -/
def Reached (n : N) : Prop := Relation.ReflTransGen (fun n c ↦ p.IsChild c n) p.root n

/-- Each operator has one child at most at each side, there is no cycle, and all that is linked
belongs to the plan. -/
structure WellFormed : Prop where
  channel : ∀ k ∈ p.links, k.channel = 0 ∨ k.channel = 1
  distinct : p.links.Pairwise fun a b ↦
    a.source.node?.isSome → b.source.node?.isSome → a.parent = b.parent → a.channel ≠ b.channel
  acyclic : ∃ rank : N → Nat, ∀ n c, p.IsChild c n → rank c < rank n
  reached : ∀ k ∈ p.links, p.Reached k.parent

/-- Every node comes after its children. -/
def Topological (order : List N) : Prop :=
  ∀ l₁ n l₂, order = l₁ ++ n :: l₂ → ∀ c, p.IsChild c n → c ∈ l₁

section

variable {p} {n c : N} {list : List N}

theorem node?_eq_some {source : Source N L} : source.node? = some n ↔ source = .node n := by
  cases source with
  | node m =>
    exact ⟨fun h ↦ congrArg Source.node (Option.some.inj h), fun h ↦ congrArg Source.node? h⟩
  | lfta l => exact ⟨(fun h ↦ by cases h), (fun h ↦ by cases h)⟩

theorem mem_parentList {source : Source N L} {e : N × Nat} :
    e ∈ p.parentList source ↔ ∃ k ∈ p.links, k.source = source ∧ (k.parent, k.channel) = e := by
  simp only [parentList, mem_filterMap]
  refine exists_congr fun k ↦ and_congr_right fun _ ↦ ?_
  split_ifs with h
  · exact ⟨fun he ↦ ⟨h, Option.some.inj he⟩, fun he ↦ congrArg some he.2⟩
  · exact ⟨(fun he ↦ by cases he), fun he ↦ absurd he.1 h⟩

/-- The child at a side is the one that was linked there. -/
theorem child_eq_some (h : p.WellFormed) {channel : Nat} :
    p.child n channel = some c ↔
      ∃ k ∈ p.links, k.parent = n ∧ k.channel = channel ∧ k.source = .node c := by
  have hmem {m : N} : m ∈ (p.links.filterMap fun k ↦
      if k.parent = n ∧ k.channel = channel then k.source.node? else none) ↔
      ∃ k ∈ p.links, k.parent = n ∧ k.channel = channel ∧ k.source = .node m := by
    simp only [mem_filterMap]
    refine exists_congr fun k ↦ and_congr_right fun _ ↦ ?_
    split_ifs with hk
    · rw [node?_eq_some]
      exact ⟨fun hs ↦ ⟨hk.1, hk.2, hs⟩, fun hs ↦ hs.2.2⟩
    · exact ⟨(fun hs ↦ by cases hs), fun hs ↦ absurd ⟨hs.1, hs.2.1⟩ hk⟩
  have hunique {m m' : N} (hm : ∃ k ∈ p.links, k.parent = n ∧ k.channel = channel ∧
      k.source = .node m) (hm' : ∃ k ∈ p.links, k.parent = n ∧ k.channel = channel ∧
        k.source = .node m') : m = m' := by
    obtain ⟨k, hk, hparent, hchannel, hsource⟩ := hm
    obtain ⟨k', hk', hparent', hchannel', hsource'⟩ := hm'
    have hsome : k.source.node?.isSome := by
      rw [node?_eq_some.mpr hsource]
      rfl
    have hsome' : k'.source.node?.isSome := by
      rw [node?_eq_some.mpr hsource']
      rfl
    by_cases heq : k = k'
    · subst heq
      exact Source.node.inj (hsource.symm.trans hsource')
    · have hsymm : Std.Symm fun a b : Link N L ↦
          a.source.node?.isSome → b.source.node?.isSome → a.parent = b.parent →
            a.channel ≠ b.channel :=
        ⟨fun a b hab hb ha hpar ↦ (hab ha hb hpar.symm).symm⟩
      have hne := h.distinct.forall hk hk' heq hsome hsome' (hparent.trans hparent'.symm)
      exact absurd (hchannel.trans hchannel'.symm) hne
  rw [child]
  constructor
  · intro hlast
    exact hmem.mp (mem_of_getLast? hlast)
  · intro hc
    obtain ⟨m, hm⟩ := Option.isSome_iff_exists.mp
      (getLast?_isSome.mpr (ne_nil_of_mem (hmem.mpr hc)))
    rw [hm, hunique hc (hmem.mp (mem_of_getLast? hm))]

theorem isChild_iff (h : p.WellFormed) :
    p.IsChild c n ↔ p.child n 0 = some c ∨ p.child n 1 = some c := by
  rw [child_eq_some h, child_eq_some h]
  constructor
  · rintro ⟨k, hk, hparent, hsource⟩
    rcases h.channel k hk with hchannel | hchannel
    · exact .inl ⟨k, hk, hparent, hchannel, hsource⟩
    · exact .inr ⟨k, hk, hparent, hchannel, hsource⟩
  · rintro (⟨k, hk, hparent, -, hsource⟩ | ⟨k, hk, hparent, -, hsource⟩) <;>
      exact ⟨k, hk, hparent, hsource⟩

/-! ## The nodes are collected -/

theorem prefix_collect {o : Option N} : list <+: collect list o := by
  cases o with
  | none => exact prefix_rfl
  | some c =>
    rw [collect]
    split_ifs
    · exact prefix_rfl
    · exact prefix_append _ _

theorem mem_collect {o : Option N} : n ∈ collect list o ↔ n ∈ list ∨ o = some n := by
  cases o with
  | none => simp [collect]
  | some c =>
    rw [collect]
    split_ifs with hc
    · refine ⟨.inl, fun h ↦ h.elim id fun heq ↦ Option.some.inj heq ▸ hc⟩
    · simp [eq_comm]

theorem nodup_collect {o : Option N} (h : list.Nodup) : (collect list o).Nodup := by
  cases o with
  | none => exact h
  | some c =>
    rw [collect]
    split_ifs with hc
    · exact h
    · exact nodup_append.mpr ⟨h, nodup_singleton c, fun a ha b hb heq ↦
        hc (eq_of_mem_singleton hb ▸ heq ▸ ha)⟩

/-- What holds in the first loop: the first `i` nodes have their children in the list. -/
structure Collected (p : Plan N L) (i : Nat) (list : List N) : Prop where
  nodup : list.Nodup
  root : p.root ∈ list
  reached : ∀ n ∈ list, p.Reached n
  closed : ∀ n ∈ list.take i, ∀ c, p.IsChild c n → c ∈ list

/-- There are no more nodes than links, and the root. -/
theorem length_le (h : ∀ n ∈ list, p.Reached n) (hnodup : list.Nodup) :
    list.length ≤ p.links.length + 1 := by
  have hsubset : list ⊆ p.root :: p.links.filterMap fun k ↦ k.source.node? := by
    intro n hn
    rcases Relation.ReflTransGen.cases_tail (h n hn) with heq | ⟨m, -, k, hk, -, hsource⟩
    · exact heq ▸ mem_cons_self
    · exact mem_cons_of_mem _ (mem_filterMap.mpr ⟨k, hk, node?_eq_some.mpr hsource⟩)
  have hle := (hnodup.subperm hsubset).length_le
  have hlinks := length_filterMap_le (fun k : Link N L ↦ k.source.node?) p.links
  rw [length_cons] at hle
  omega

theorem collected_nodeList (h : p.WellFormed) {fuel i : Nat} (hlist : Collected p i list)
    (hi : i ≤ list.length) (hfuel : p.links.length + 1 ≤ fuel + i) :
    Collected p (p.nodeList fuel i list).length (p.nodeList fuel i list) := by
  induction fuel generalizing i list with
  | zero =>
    rw [nodeList]
    have hle := length_le hlist.reached hlist.nodup
    obtain rfl : i = list.length := by omega
    exact hlist
  | succ fuel ih =>
    rw [nodeList]
    split
    · rename_i hnone
      obtain rfl : i = list.length := le_antisymm hi (getElem?_eq_none_iff.mp hnone)
      exact hlist
    · rename_i n hn
      have hmem : n ∈ list := mem_of_getElem? hn
      obtain ⟨hlt, hget⟩ := List.getElem?_eq_some_iff.mp hn
      set list' := collect (collect list (p.child n 0)) (p.child n 1) with hlist'
      have hprefix : list <+: list' := prefix_collect.trans prefix_collect
      have hmem' {m : N} : m ∈ list' ↔ m ∈ list ∨ p.IsChild m n := by
        rw [hlist', mem_collect, mem_collect, isChild_iff h, or_assoc]
      refine ih ⟨nodup_collect (nodup_collect hlist.nodup), hprefix.subset hlist.root,
        fun m hm ↦ ?_, fun m hm c hc ↦ ?_⟩ (hlt.trans_le hprefix.length_le) (by omega)
      · rcases hmem'.mp hm with hm | hm
        · exact hlist.reached m hm
        · exact (hlist.reached n hmem).tail hm
      · have htake : list'.take (i + 1) = list.take i ++ [n] := by
          obtain ⟨l, hl⟩ := hprefix
          rw [← hl, take_append_of_le_length hlt, take_succ_eq_append_getElem hlt, hget]
        rw [htake, mem_append, mem_singleton] at hm
        rcases hm with hm | rfl
        · exact hmem'.mpr (.inl (hlist.closed m hm c hc))
        · exact hmem'.mpr (.inr hc)

/-- **The nodes** are those that are reached from the root, each once. -/
theorem nodes_spec (h : p.WellFormed) : p.nodes.Nodup ∧ ∀ n, n ∈ p.nodes ↔ p.Reached n := by
  have hstart : Collected p 0 [p.root] := by
    refine ⟨nodup_singleton _, mem_singleton_self _, fun n hn ↦ ?_,
      (fun n hn ↦ by cases hn)⟩
    rw [eq_of_mem_singleton hn]
    exact .refl
  have hend := collected_nodeList h hstart (Nat.zero_le _) le_rfl
  refine ⟨hend.nodup, fun n ↦ ⟨hend.reached n, fun hn ↦ ?_⟩⟩
  induction hn with
  | refl => exact hend.root
  | tail _ hc ih => exact hend.closed _ (by rwa [take_length]) _ hc

/-! ## The nodes are sorted -/

theorem mem_adjacency (h : p.WellFormed) : c ∈ p.adjacency n ↔ p.IsChild c n := by
  rw [isChild_iff h, adjacency, mem_append, Option.mem_toList]
  split_ifs with hne
  · rw [Option.mem_toList]
  · rw [not_not.mp hne]
    simp

theorem nodup_adjacency : (p.adjacency n).Nodup := by
  have htoList (o : Option N) : o.toList.Nodup := by cases o <;> simp
  rw [adjacency]
  split_ifs with hne
  · refine nodup_append.mpr ⟨htoList _, htoList _, fun a ha b hb heq ↦ hne ?_⟩
    rw [Option.mem_toList] at ha hb
    rw [ha, hb, heq]
  · rw [append_nil]
    exact htoList _

/-- What holds between the steps of the sort: the lists have the children that were not taken. -/
structure Sorting (p : Plan N L) (s : List N × (N → List N)) : Prop where
  nodup : s.1.Nodup
  subset : s.1 ⊆ p.nodes
  adjacency : ∀ n, s.2 n = (p.adjacency n).filter (· ∉ s.1)
  topological : p.Topological s.1

theorem topological_concat {order : List N} (h : p.Topological order)
    (hc : ∀ c, p.IsChild c n → c ∈ order) : p.Topological (order ++ [n]) := by
  intro l₁ m l₂ heq c hchild
  rcases eq_nil_or_concat l₂ with rfl | ⟨l₂', z, rfl⟩
  · obtain ⟨rfl, hm⟩ := append_inj' heq rfl
    obtain rfl := singleton_inj.mp hm
    exact hc c hchild
  · rw [concat_eq_append, ← cons_append, ← append_assoc] at heq
    exact h l₁ m l₂' (append_inj' heq rfl).1 c hchild

variable {s : List N × (N → List N)}

theorem sorting_visit (h : p.WellFormed) (hs : Sorting p s)
    (hn : n ∈ p.nodes) : Sorting p (visit s n) ∧ s.1 <+: (visit s n).1 := by
  rw [visit]
  split_ifs with hleaf
  · obtain ⟨hnot, hnil⟩ := hleaf
    refine ⟨⟨?_, ?_, fun m ↦ ?_, ?_⟩, prefix_append _ _⟩
    · exact nodup_append.mpr ⟨hs.nodup, nodup_singleton n, fun a ha b hb heq ↦
        hnot (eq_of_mem_singleton hb ▸ heq ▸ ha)⟩
    · exact append_subset.mpr ⟨hs.subset, fun m hm ↦ eq_of_mem_singleton hm ▸ hn⟩
    · simp only [hs.adjacency m]
      rw [(nodup_adjacency.filter _).erase_eq_filter, filter_filter]
      refine filter_congr fun c _ ↦ ?_
      by_cases hc : c = n <;> by_cases hmem : c ∈ s.1 <;> simp [hc, hmem]
    · refine topological_concat hs.topological fun c hc ↦ ?_
      by_contra hnotTaken
      have hmem : c ∈ s.2 n := by
        rw [hs.adjacency]
        exact mem_filter.mpr ⟨(mem_adjacency h).mpr hc, decide_eq_true hnotTaken⟩
      rw [hnil] at hmem
      cases hmem
  · exact ⟨hs, prefix_rfl⟩

theorem sorting_foldl (h : p.WellFormed) (hs : Sorting p s)
    (hlist : list ⊆ p.nodes) :
    Sorting p (list.foldl visit s) ∧ s.1 <+: (list.foldl visit s).1 := by
  induction list generalizing s with
  | nil => exact ⟨hs, prefix_rfl⟩
  | cons n list ih =>
    obtain ⟨hvisit, hprefix⟩ := sorting_visit h hs (hlist mem_cons_self)
    obtain ⟨hrest, hprefix'⟩ := ih hvisit fun m hm ↦ hlist (mem_cons_of_mem _ hm)
    exact ⟨hrest, hprefix.trans hprefix'⟩

/-- A pass that takes no node finds all taken: else there is one of least rank that was not, and its
children were. -/
theorem mem_of_length_foldl_eq (h : p.WellFormed) (hs : Sorting p s)
    (hlength : (p.nodes.foldl visit s).1.length = s.1.length) (hn : n ∈ p.nodes) : n ∈ s.1 := by
  obtain ⟨rank, hrank⟩ := h.acyclic
  induction hk : rank n using Nat.strong_induction_on generalizing n with
  | _ k ih =>
    by_contra hnot
    have hchildren : ∀ c, p.IsChild c n → c ∈ s.1 := fun c hc ↦ by
      have hreached : p.Reached c := (((nodes_spec h).2 n).mp hn).tail hc
      exact ih (rank c) (hk ▸ hrank n c hc) (((nodes_spec h).2 c).mpr hreached) rfl
    obtain ⟨l₁, l₂, hsplit⟩ := append_of_mem hn
    have hsubset : l₁ ⊆ p.nodes := hsplit ▸ subset_append_left l₁ _
    have hsubset' : l₂ ⊆ p.nodes := fun m hm ↦
      hsplit ▸ mem_append_right _ (mem_cons_of_mem _ hm)
    obtain ⟨hs₁, hprefix₁⟩ := sorting_foldl h hs hsubset
    set u := l₁.foldl visit s with hu
    obtain ⟨hs₂, hprefix₂⟩ := sorting_visit h hs₁ hn
    obtain ⟨-, hprefix₃⟩ := sorting_foldl h hs₂ hsubset'
    rw [hsplit, foldl_append, foldl_cons, ← hu] at hlength
    have hle₁ := hprefix₁.length_le
    have hle₂ := hprefix₂.length_le
    have hle₃ := hprefix₃.length_le
    -- Nothing was taken before the node, and the node is taken.
    have hsame : s.1 = u.1 := hprefix₁.eq_of_length (by omega)
    have hleaf : n ∉ u.1 ∧ u.2 n = [] := by
      refine ⟨hsame ▸ hnot, ?_⟩
      rw [hs₁.adjacency, filter_eq_nil_iff]
      intro c hc htaken
      exact of_decide_eq_true htaken (hsame ▸ hchildren c ((mem_adjacency h).mp hc))
    have htaken : (visit u n).1.length = u.1.length + 1 := by
      rw [visit, if_pos hleaf, length_append, length_singleton]
    omega

theorem sort_spec (h : p.WellFormed) {fuel : Nat} (hs : Sorting p s)
    (hfuel : p.nodes.length < fuel + s.1.length) :
    (sort p.nodes fuel s).Nodup ∧ (∀ n, n ∈ sort p.nodes fuel s ↔ p.Reached n) ∧
      p.Topological (sort p.nodes fuel s) := by
  induction fuel generalizing s with
  | zero =>
    have hle := (hs.nodup.subperm hs.subset).length_le
    omega
  | succ fuel ih =>
    obtain ⟨hs', hprefix⟩ := sorting_foldl h hs (List.Subset.refl p.nodes)
    rw [sort]
    split_ifs with hlength
    · refine ⟨hs.nodup, fun n ↦ ⟨fun hn ↦ ((nodes_spec h).2 n).mp (hs.subset hn), fun hn ↦ ?_⟩,
        hs.topological⟩
      exact mem_of_length_foldl_eq h hs hlength (((nodes_spec h).2 n).mpr hn)
    · refine ih hs' ?_
      have hle := hprefix.length_le
      omega

/-- Among operators in order, the root is the last. -/
theorem Topological.root_last {order : List N} (htop : p.Topological order) (hnodup : order.Nodup)
    (hmem : ∀ n, n ∈ order ↔ p.Reached n) : ∃ l, order = l ++ [p.root] := by
  obtain ⟨l₁, l₂, hsplit⟩ := append_of_mem ((hmem p.root).mpr .refl)
  -- All that is below the root comes before it.
  have hbelow : ∀ n, p.Reached n → n = p.root ∨ n ∈ l₁ := by
    intro n hn
    induction hn with
    | refl => exact .inl rfl
    | tail _ hc ih =>
      refine .inr ?_
      rcases ih with rfl | hm
      · exact htop l₁ _ l₂ hsplit _ hc
      · obtain ⟨k₁, k₂, hk⟩ := append_of_mem hm
        exact hk ▸ mem_append_left _ (htop k₁ _ (k₂ ++ p.root :: l₂) (by
          rw [hsplit, hk, append_assoc, cons_append]) _ hc)
  rw [hsplit] at hnodup
  obtain ⟨-, hnodup₂, hdisjoint⟩ := nodup_append.mp hnodup
  cases l₂ with
  | nil => exact ⟨l₁, hsplit⟩
  | cons n l₂ =>
    exfalso
    have hn : n ∈ order := hsplit ▸ mem_append_right _
      (mem_cons_of_mem _ mem_cons_self)
    rcases hbelow n ((hmem n).mp hn) with rfl | hn
    · exact (nodup_cons.mp hnodup₂).1 mem_cons_self
    · exact hdisjoint n hn n (mem_cons_of_mem _ mem_cons_self) rfl

/-- **The operators in order**: each that is reached from the root is there once, after its
children, and the root is the last. -/
theorem sorted_spec (h : p.WellFormed) :
    p.sorted.Nodup ∧ (∀ n, n ∈ p.sorted ↔ p.Reached n) ∧ p.Topological p.sorted ∧
      ∃ l, p.sorted = l ++ [p.root] := by
  have hstart : Sorting p ([], p.adjacency) := by
    refine ⟨nodup_nil, nil_subset _, fun n ↦ ?_, fun l₁ n l₂ heq ↦ ?_⟩
    · simp
    · simp at heq
  obtain ⟨hnodup, hmem, htop⟩ :=
    sort_spec h hstart (by rw [length_nil, Nat.add_zero]; exact Nat.lt_succ_self _)
  exact ⟨hnodup, hmem, htop, htop.root_last hnodup hmem⟩

end

end Plan

end Tigon.Hfta.Multop
