import Tigon.Lib.Separator

/-!
# Names of LFTAs

A query over protocols is split into low-level queries, one for each interface, and a merge that
reads them by their names.  A name is made of the name of the query, the machine and the interface,
with underscores between them and in the place of dots; where there is a single interface, the name
is that of the node that was split off.  Of the low-level queries of all queries, those are kept
whose name is new.

An underscore may as well be part of a name, so that the machine `a_b` with interface `c` and the
machine `a` with interface `b_c` have one name.

* `append_eq_append_iff` — when texts with an underscore between them are the same.
* `identified_iff` — **when all low-level queries are kept, and merges read each of theirs once.**
-/

set_option autoImplicit false

namespace Tigon.Ftacmp.LftaNames

/-! ## Splitting by interfaces -/

def untaboo (s : String) : String := s.map fun c ↦ if c = '.' then '_' else c

/-- What a query node is split into: itself, a part that computes what it may, or a part for a table
of a join. -/
inductive Part
  | whole
  | lower
  | table (f : Nat)
deriving DecidableEq

/-- A low-level node, before it is split by interfaces.  Its interfaces differ from each other. -/
structure FtaNode where
  query : String
  part : Part
  ifaces : List (String × String)
  ne_nil : ifaces ≠ []
  nodup : ifaces.Nodup

/-- What the low level executes. -/
structure Lfta where
  queryName : String
  machine : String
  interface : String
deriving DecidableEq

namespace FtaNode

variable (node : FtaNode)

/-- The name for a single interface, and of the merge. -/
def nodeName : String :=
  match node.part with
  | .whole => node.query
  | .lower => "_fta_" ++ node.query
  | .table f => "_fta_" ++ Nat.repr f ++ "_" ++ node.query

/-- What is in the names for several interfaces. -/
def baseName : String :=
  match node.part with
  | .whole => node.query
  | .lower => node.query
  | .table f => "_fta_" ++ Nat.repr f ++ "_" ++ node.query

def newName (iface : String × String) : String :=
  untaboo ("_" ++ node.baseName ++ "_" ++ iface.1 ++ "_" ++ iface.2)

def lftaName (iface : String × String) : String :=
  if node.ifaces.length = 1 then node.nodeName else node.newName iface

def lftas : List Lfta := node.ifaces.map fun iface ↦ ⟨node.lftaName iface, iface.1, iface.2⟩

/-- The sources of the merge, if there is one. -/
def selNames : Option (List String) :=
  if node.ifaces.length = 1 then none else some (node.ifaces.map node.lftaName)

end FtaNode

/-! ## Collecting low-level queries -/

structure Translation where
  lftaNames : List String
  lftaList : List Lfta

def Translation.addLfta (t : Translation) (q : Lfta) : Translation :=
  if q.queryName ∈ t.lftaNames then t else ⟨t.lftaNames ++ [q.queryName], t.lftaList ++ [q]⟩

/-- The low-level queries that are kept, of all that the queries of a compilation are split into. -/
def translateFta (nodes : List FtaNode) : List Lfta :=
  ((nodes.flatMap FtaNode.lftas).foldl Translation.addLfta ⟨[], []⟩).lftaList

/-- What is kept under a name. -/
def readBy (kept : List Lfta) (name : String) : List Lfta := kept.filter fun q ↦ q.queryName == name

/-- Names differ, all is kept, and the merges read what they were made for. -/
structure Identified (nodes : List FtaNode) : Prop where
  nodup : ((nodes.flatMap FtaNode.lftas).map Lfta.queryName).Nodup
  kept : translateFta nodes = nodes.flatMap FtaNode.lftas
  merged : ∀ node ∈ nodes, ∀ names ∈ node.selNames,
    names.Nodup ∧ names.map (readBy (translateFta nodes)) = node.lftas.map fun q ↦ [q]

/-! ## What names are made of -/

/-- A part of the second text, up to an underscore, is at the end of the other first one. -/
def Slides (a c a' c' : String) : Prop := ∃ w, a' = a ++ "_" ++ w ∧ c = w ++ "_" ++ c'

/-- Pairs of texts that are the same, but for where the underscore between them is. -/
def Alike (a c a' c' : String) : Prop := (a = a' ∧ c = c') ∨ Slides a c a' c' ∨ Slides a' c' a c

/-- What a name is made of, with underscores for dots where they are. -/
inductive Naming
  | plain (name : String)
  | parts (base machine interface : String)

def FtaNode.naming (node : FtaNode) (iface : String × String) : Naming :=
  if node.ifaces.length = 1 then .plain node.nodeName
  else .parts (untaboo node.baseName) (untaboo iface.1) (untaboo iface.2)

/-- What two names are made of does not tell them apart. -/
def Confused : Naming → Naming → Prop
  | .plain s, .plain s' => s = s'
  | .plain s, .parts b m i => s = "_" ++ b ++ "_" ++ m ++ "_" ++ i
  | .parts b m i, .plain s => s = "_" ++ b ++ "_" ++ m ++ "_" ++ i
  | .parts b m i, .parts b' m' i' =>
    (b = b' ∧ Alike m i m' i') ∨ Slides b (m ++ "_" ++ i) b' (m' ++ "_" ++ i') ∨
      Slides b' (m' ++ "_" ++ i') b (m ++ "_" ++ i)

/-- No two low-level queries of a compilation have names whose parts are confused. -/
def Separate (nodes : List FtaNode) : Prop :=
  (nodes.flatMap fun node ↦ node.ifaces.map node.naming).Pairwise fun n n' ↦ ¬Confused n n'

/-! ## Texts with an underscore between them -/

theorem append_eq_append_iff (a c a' c' : String) : a ++ "_" ++ c = a' ++ "_" ++ c' ↔
    Alike a c a' c' := by
  have hslides : ∀ a c a' c' : String,
      (∃ ws, a'.toList = a.toList ++ '_' :: ws ∧ c.toList = ws ++ '_' :: c'.toList) ↔
        Slides a c a' c' := by
    intro a c a' c'
    constructor
    · rintro ⟨ws, ha, hc⟩
      refine ⟨String.ofList ws, String.toList_inj.mp ?_, String.toList_inj.mp ?_⟩
      · simp only [String.toList_append, String.toList_ofList, List.append_assoc]
        exact ha
      · simp only [String.toList_append, String.toList_ofList, List.append_assoc]
        exact hc
    · rintro ⟨w, rfl, rfl⟩
      simp only [String.toList_append, List.append_assoc]
      exact ⟨w.toList, rfl, rfl⟩
  have hlists : a ++ "_" ++ c = a' ++ "_" ++ c' ↔ a.toList ++ '_' :: c.toList = a'.toList ++ '_' ::
    c'.toList := by
    rw [← String.toList_inj]
    simp only [String.toList_append, List.append_assoc]
    rfl
  rw [hlists, Separator.append_cons_eq_append_cons_iff, hslides, hslides, String.toList_inj,
    String.toList_inj, Alike]

theorem untaboo_append (s t : String) : untaboo (s ++ t) = untaboo s ++ untaboo t := by
  refine String.toList_inj.mp ?_
  simp only [untaboo, String.toList_append, String.toList_map, List.map_append]

/-! ## Names -/

/-- The name that is made. -/
def Naming.name : Naming → String
  | .plain s => s
  | .parts b m i => "_" ++ b ++ "_" ++ m ++ "_" ++ i

theorem FtaNode.lftaName_eq (node : FtaNode) (iface : String × String) :
    node.lftaName iface = (node.naming iface).name := by
  unfold lftaName naming
  split
  · rfl
  · have hbar : untaboo "_" = "_" := by decide +kernel
    rw [newName, untaboo_append, untaboo_append, untaboo_append, untaboo_append,
      untaboo_append, hbar]
    rfl

theorem confused_iff (n n' : Naming) : Confused n n' ↔ n.name = n'.name := by
  rcases n with s | ⟨b, m, i⟩ <;> rcases n' with s' | ⟨b', m', i'⟩
  · exact Iff.rfl
  · exact Iff.rfl
  · exact eq_comm
  · have hassoc : ∀ b m i : String, (Naming.parts b m i).name = "_" ++
      (b ++ "_" ++ (m ++ "_" ++ i)) := by
      intro b m i
      simp only [Naming.name, String.append_assoc]
    rw [hassoc, hassoc, String.append_right_inj, append_eq_append_iff, Alike, append_eq_append_iff]
    rfl

theorem nodup_iff_separate (nodes : List FtaNode) :
    ((nodes.flatMap FtaNode.lftas).map Lfta.queryName).Nodup ↔ Separate nodes := by
  have hnames : (nodes.flatMap FtaNode.lftas).map Lfta.queryName =
      (nodes.flatMap fun node ↦ node.ifaces.map node.naming).map Naming.name := by
    rw [List.map_flatMap, List.map_flatMap]
    refine congrArg (fun f ↦ nodes.flatMap f) (funext fun node ↦ ?_)
    rw [FtaNode.lftas, List.map_map, List.map_map]
    exact List.map_congr_left fun iface _ ↦ node.lftaName_eq iface
  rw [hnames, List.Nodup, List.pairwise_map, Separate]
  exact List.Pairwise.iff fun n n' ↦ (not_congr (confused_iff n n')).symm

/-! ## What is kept -/

/-- New names are kept, one after the other. -/
theorem foldl_addLfta (qs : List Lfta) (t : Translation) (hqs : (qs.map Lfta.queryName).Nodup)
    (hnew : ∀ q ∈ qs, q.queryName ∉ t.lftaNames) :
    (qs.foldl Translation.addLfta t).lftaList = t.lftaList ++ qs := by
  induction qs generalizing t with
  | nil => exact (List.append_nil _).symm
  | cons q qs ih =>
    obtain ⟨hq, hqs⟩ := List.nodup_cons.mp hqs
    have hadd : t.addLfta q = ⟨t.lftaNames ++ [q.queryName], t.lftaList ++ [q]⟩ :=
      if_neg (hnew q List.mem_cons_self)
    rw [List.foldl_cons, hadd, ih _ hqs, List.append_assoc, List.singleton_append]
    intro r hr hmem
    rcases List.mem_append.mp hmem with hmem | hmem
    · exact hnew r (List.mem_cons_of_mem q hr) hmem
    · exact hq (List.mem_map.mpr ⟨r, hr, List.mem_singleton.mp hmem⟩)

/-- What has a name of its own is alone under it. -/
theorem readBy_queryName {qs : List Lfta} (hqs : (qs.map Lfta.queryName).Nodup) {q : Lfta}
    (hq : q ∈ qs) : readBy qs q.queryName = [q] := by
  induction qs with
  | nil => exact absurd hq List.not_mem_nil
  | cons r qs ih =>
    obtain ⟨hr, hqs⟩ := List.nodup_cons.mp hqs
    rw [readBy, List.filter_cons]
    rcases List.mem_cons.mp hq with rfl | hq
    · have hrest : (qs.filter fun r ↦ r.queryName == q.queryName) = [] := by
        refine List.filter_eq_nil_iff.mpr fun r hrq hname ↦ hr ?_
        exact List.mem_map.mpr ⟨r, hrq, beq_iff_eq.mp hname⟩
      rw [if_pos (beq_self_eq_true _), hrest]
    · rw [if_neg fun hname ↦ hr (List.mem_map.mpr ⟨q, hq, (beq_iff_eq.mp hname).symm⟩)]
      exact ih hqs hq

/-- **The names of low-level queries differ, all of them are kept, and each merge reads each of its
interfaces once, just when no two low-level queries are made of parts that are the same but for
dots, underscores, and where the parts end.** -/
theorem identified_iff (nodes : List FtaNode) : Identified nodes ↔ Separate nodes := by
  rw [← nodup_iff_separate]
  refine ⟨Identified.nodup, fun hnodup ↦ ?_⟩
  have hkept : translateFta nodes = nodes.flatMap FtaNode.lftas :=
    foldl_addLfta _ _ hnodup fun _ _ ↦ List.not_mem_nil
  refine ⟨hnodup, hkept, fun node hnode names hnames ↦ ?_⟩
  have hsources : names = node.lftas.map Lfta.queryName := by
    unfold FtaNode.selNames at hnames
    split at hnames
    · exact absurd hnames (Option.not_mem_none names)
    · rw [← Option.some.inj hnames, FtaNode.lftas, List.map_map]
      rfl
  have hown : node.lftas.Sublist (nodes.flatMap FtaNode.lftas) := by
    rw [List.flatMap_def]
    exact List.sublist_flatten_of_mem (List.mem_map_of_mem hnode)
  refine ⟨hsources ▸ hnodup.sublist (hown.map _), ?_⟩
  rw [hsources, hkept, List.map_map]
  exact List.map_congr_left fun q hq ↦ readBy_queryName hnodup (hown.subset hq)

/-- A query over two interfaces. -/
def overTwo (query m i m' i' : String) (hne : (m, i) ≠ (m', i')) : FtaNode where
  query := query
  part := .whole
  ifaces := [(m, i), (m', i')]
  ne_nil := List.cons_ne_nil _ _
  nodup := List.nodup_cons.mpr ⟨fun h ↦ hne (List.mem_singleton.mp h), List.nodup_singleton _⟩

/-- Two interfaces have one name, and the second one is lost. -/
theorem not_identified_underscores : ¬∀ nodes : List FtaNode, Identified nodes := by
  intro h
  have hnodup := (h [overTwo "q" "a_b" "c" "a" "b_c" (by decide)]).nodup
  exact absurd hnodup (by decide +kernel)

end Tigon.Ftacmp.LftaNames
