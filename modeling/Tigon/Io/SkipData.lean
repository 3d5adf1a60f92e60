import Tigon.Io.DatumRoundTrip

/-!
# Skipping data

`skipArray` and `skipMap` take one item off the input for each length they read, where the writer
has written as many items as the length says.  So a container with more than one item is not
skipped, unless its items have no bytes at all.

## What is here

* `Single` — the containers that are skipped.
* `reads_skip` — **skipping takes exactly the bytes of a datum**, if all containers in there are
  such.
* `reads_projection` — a record without some of its fields.
* `skipsAndProjects` — both, for what the writer writes; `not_skips` — two integers, of which one
stays in the input. -/

set_option autoImplicit false

namespace Tigon.ReflectionDatum

open Io Schema Decoder Datum
open Filter (atTop eventually_atTop eventually_ge_atTop)

/-! ## Items without bytes -/

/-- Data of this schema have no bytes. -/
inductive ZeroWidth : Schema → Prop
  | null : ZeroWidth (simple .null)
  | record (n : String) (fs : List (String × Schema)) : (∀ f ∈ fs, ZeroWidth f.2) →
      ZeroWidth (record n fs)

/-- There is at most one item, or the items have no bytes. -/
def Single (size : Nat) (items : List Schema) : Prop := size ≤ 1 ∨ ∀ s ∈ items, ZeroWidth s

theorem closeWith_of_zeroWidth {s : Schema} (h : ZeroWidth s) (this : Schema) :
    closeWith this s = s := by
  cases h with
  | null => rfl
  | record n fs => rfl

variable {container : Nat → List Schema → Prop} {d : Datum} {s c k v : Schema} {l : List UInt8}

theorem encodesRecord_eq_nil : ∀ {fs : List (String × Datum)} {sfs : List (String × Schema)}
    {l : List UInt8}, EncodesRecord container fs sfs l →
    (∀ f ∈ sfs, ∀ d l, Encodes container d f.2 l → l = []) → l = []
  | _, _, _, .nil, _ => rfl
  | _, _, _, .cons n d s fs sfs l l' hd hfs, h => by
    rw [h (n, s) List.mem_cons_self d l hd,
      encodesRecord_eq_nil hfs fun f hf ↦ h f (List.mem_cons_of_mem (n, s) hf), List.append_nil]

theorem eq_nil_of_zeroWidth (hs : ZeroWidth s) : ∀ {d : Datum} {l : List UInt8},
    Encodes container d s l → l = [] := by
  induction hs with
  | null =>
    intro d l h
    cases h
    rfl
  | record n fs hfs ih =>
    intro d l h
    cases h with
    | record ref ds _ _ _ h =>
      refine encodesRecord_eq_nil h fun f hf d l hd ↦ ?_
      obtain ⟨g, hg, rfl⟩ := List.mem_map.mp hf
      exact ih g hg (closeWith_of_zeroWidth (hfs g hg) _ ▸ hd)

theorem encodesArray_eq_nil : ∀ {es : List Datum} {c : Schema} {l : List UInt8},
    EncodesArray container es c l → ZeroWidth c → l = []
  | _, _, _, .nil _, _ => rfl
  | _, _, _, .cons d ds c l l' hd hds, hc => by
    rw [eq_nil_of_zeroWidth hc hd, encodesArray_eq_nil hds hc, List.append_nil]

theorem encodesMap_eq_nil : ∀ {es : List (Datum × Datum)} {k v : Schema} {l : List UInt8},
    EncodesMap container es k v l → ZeroWidth k → ZeroWidth v → l = []
  | _, _, _, _, .nil _ _, _, _ => rfl
  | _, _, _, _, .cons dk dv es k v l l' l'' hdk hdv hes, hk, hv => by
    rw [eq_nil_of_zeroWidth hk hdk, eq_nil_of_zeroWidth hv hdv, encodesMap_eq_nil hes hk hv,
      List.append_nil, List.append_nil]

/-! ## Skipping -/

theorem Reads.discard {α : Type} {p : ByteDecoder α} {a : α} (h : Reads p l a) :
    Reads (do let _ ← p) l () := h.map fun _ ↦ ()

/-- No item. -/
theorem reads_skipBlocks_zero (item : ByteDecoder Unit) (rounds : Nat) :
    Reads (skipBlocks item (rounds + 1) 0) [] () := by
  rw [skipBlocks, if_pos rfl]
  exact reads_pure ()

/-- One item for all. -/
theorem reads_skipBlocks {item : ByteDecoder Unit} {size : Nat} (hitem : Reads item l ())
    (hsize : size < 2 ^ 31) (hpos : size ≠ 0) (rounds : Nat) :
    Reads (skipBlocks item (rounds + 2) (BitVec.ofNat 32 size)) (l ++ writeInt 0) () := by
  have hne : BitVec.ofNat 32 size ≠ 0 := by
    intro h
    have hnat := congrArg BitVec.toNat h
    rw [Io.toNat_ofNat (by decide) hsize] at hnat
    exact hpos hnat
  rw [skipBlocks, if_neg hne]
  refine hitem.bind ?_
  have h := (reads_readInt 0).bind (f := fun len ↦ skipBlocks item (rounds + 1) len)
    (reads_skipBlocks_zero item rounds)
  rwa [List.append_nil] at h

theorem reads_skip_blocks {item : ByteDecoder Unit} {size : Nat}
    (hitem : size ≠ 0 → Reads item l ()) (hsize : size < 2 ^ 31) (hzero : size = 0 → l = [])
    (rounds : Nat) :
    Reads (do let len ← readInt; skipBlocks item (rounds + 2) len) (blocks size l) () := by
  refine (reads_readInt _).bind ?_
  by_cases hpos : size = 0
  · rw [hzero hpos, if_pos hpos, hpos]
    exact reads_skipBlocks_zero item (rounds + 1)
  · rw [if_neg hpos]
    exact reads_skipBlocks (hitem hpos) hsize hpos rounds

theorem reads_skip_union {ss : List Schema} {fuel : Nat} (hs : ss[unionIndex d]? = some s)
    (h : Reads (skip fuel s) l ()) :
    Reads (skip (fuel + 1) (union ss)) (writeInt (BitVec.ofNat 32 (unionIndex d)) ++ l) () := by
  rw [skip]
  refine (reads_readInt _).bind ?_
  rw [atIndex_ofNat ss (unionIndex_lt d), hs]
  exact h

mutual

/-- **A datum is skipped**, if none of its containers has more than one item with bytes. -/
theorem reads_skip : ∀ {d : Datum} {s : Schema} {l : List UInt8}, Encodes Single d s l →
    ∀ᶠ fuel in atTop, Reads (skip fuel s) l ()
  | _, _, _, .nothing _ => eventually_of_forall_succ fun _ ↦ reads_pure ()
  | _, _, _, .boolean b => eventually_of_forall_succ fun _ ↦ Reads.discard (reads_readBool b)
  | _, _, _, .int _ i _ => eventually_of_forall_succ fun _ ↦ Reads.discard (reads_readInt i)
  | _, _, _, .long _ i _ => eventually_of_forall_succ fun _ ↦ Reads.discard (reads_readLong i)
  | _, _, _, .float bits => eventually_of_forall_succ fun _ ↦ reads_skipFloat bits
  | _, _, _, .double bits => eventually_of_forall_succ fun _ ↦ reads_skipDouble bits
  | _, _, _, .bytes _ _ _ hbs => eventually_of_forall_succ fun _ ↦ reads_skipString hbs
  | _, _, _, .string _ _ _ hs => eventually_of_forall_succ fun _ ↦ reads_skipString hs
  | _, _, _, .enum _ _ _ _ => eventually_of_forall_succ fun _ ↦ Reads.discard (reads_readInt _)
  | _, _, _, .array es c l hsize hsingle hes => by
    obtain ⟨hzero, hitem⟩ := reads_skipArray hes hsingle
    refine eventually_of_succ (hitem.and (eventually_ge_atTop 1)) fun fuel h ↦ ?_
    obtain ⟨rounds, rfl⟩ : ∃ rounds, fuel = rounds + 1 := ⟨fuel - 1, by omega⟩
    exact reads_skip_blocks h.1 hsize hzero rounds
  | _, _, _, .map es k v l hsize hsingle hes => by
    obtain ⟨hzero, hitem⟩ := reads_skipMap hes hsingle
    refine eventually_of_succ (hitem.and (eventually_ge_atTop 1)) fun fuel h ↦ ?_
    obtain ⟨rounds, rfl⟩ : ∃ rounds, fuel = rounds + 1 := ⟨fuel - 1, by omega⟩
    exact reads_skip_blocks h.1 hsize hzero rounds
  | _, _, _, .record ref fs n sfs l hfs =>
    eventually_of_succ (reads_skipRecord hfs) fun fuel h ↦ h
  | _, _, _, .union d ss s l hs _ hd =>
    eventually_of_succ (reads_skip hd) fun fuel h ↦ reads_skip_union hs h

theorem reads_skipArray : ∀ {es : List Datum} {c : Schema} {l : List UInt8},
    EncodesArray Single es c l → Single es.length [c] → (es.length = 0 → l = []) ∧ ∀ᶠ fuel in atTop,
      es.length ≠ 0 → Reads (skip fuel c) l ()
  | _, _, _, .nil _, _ => ⟨fun _ ↦ rfl, Filter.Eventually.of_forall fun _ h ↦ absurd rfl h⟩
  | _, _, _, .cons d ds c l l' hd hds, hsingle => by
    have hrest : l' = [] := by
      rcases hsingle with hlen | hzero
      · rw [List.length_cons] at hlen
        obtain rfl : ds = [] := List.length_eq_zero_iff.mp (by omega)
        cases hds
        rfl
      · exact encodesArray_eq_nil hds (hzero c List.mem_cons_self)
    rw [hrest, List.append_nil]
    refine ⟨fun h ↦ absurd h (Nat.succ_ne_zero _), ?_⟩
    filter_upwards [reads_skip hd] with fuel h _
    exact h

theorem reads_skipMap : ∀ {es : List (Datum × Datum)} {k v : Schema} {l : List UInt8},
    EncodesMap Single es k v l → Single es.length [k, v] → (es.length = 0 → l = []) ∧
      ∀ᶠ fuel in atTop, es.length ≠ 0 → Reads (do skip fuel k; skip fuel v) l ()
  | _, _, _, _, .nil _ _, _ => ⟨fun _ ↦ rfl, Filter.Eventually.of_forall fun _ h ↦ absurd rfl h⟩
  | _, _, _, _, .cons dk dv es k v l l' l'' hdk hdv hes, hsingle => by
    have hrest : l'' = [] := by
      rcases hsingle with hlen | hzero
      · rw [List.length_cons] at hlen
        obtain rfl : es = [] := List.length_eq_zero_iff.mp (by omega)
        cases hes
        rfl
      · exact encodesMap_eq_nil hes (hzero k (by simp)) (hzero v (by simp))
    rw [hrest, List.append_nil]
    refine ⟨fun h ↦ absurd h (Nat.succ_ne_zero _), ?_⟩
    filter_upwards [reads_skip hdk, reads_skip hdv] with fuel h h' _
    exact h.bind h'

theorem reads_skipRecord : ∀ {fs : List (String × Datum)} {sfs : List (String × Schema)}
    {l : List UInt8}, EncodesRecord Single fs sfs l → ∀ᶠ fuel in atTop,
      Reads (sfs.forM fun f ↦ skip fuel f.2) l ()
  | _, _, _, .nil => Filter.Eventually.of_forall fun _ ↦ reads_pure ()
  | _, _, _, .cons n d s fs sfs l l' hd hfs => by
    filter_upwards [reads_skip hd, reads_skipRecord hfs] with fuel h h'
    exact h.bind h'

end

/-! ## Records without some of their fields -/

/-- Nothing is asked of containers. -/
def AnyContainer (_ : Nat) (_ : List Schema) : Prop := True

variable {java : Java}

/-- A field that the target has is of the same schema there, and fits the class; the others can be
skipped. -/
def Projectable (java : Java) (target : Schema) (type : JavaType) :
    List (String × Datum) → List (String × Schema) → Prop
  | (_, d) :: fs, (n, s) :: sfs =>
    (match target.getFields.lookup n with
      | none => Assumed Single d s
      | some t =>
        t = s ∧ Assumed AnyContainer d s ∧ ∃ fieldType, (java.fields type).lookup n =
          some fieldType ∧ Fits java d s fieldType ∧ ∀ cls, java.declared type n = some cls →
            java.isInstance cls d.anonymous = true) ∧
      Projectable java target type fs sfs
  | _, _ => True

/-- The values of the fields that the target has. -/
def project (target : Schema) (fs : List (String × Datum)) : List (String × Datum) :=
  (anonymousRecord fs).filter fun f ↦ (target.getFields.lookup f.1).isSome

theorem reads_readFields {target : Schema} {type : JavaType} : ∀ {fs : List (String × Datum)}
    {sfs : List (String × Schema)} {seenRefs seenRefs' : List Nat} {l : List UInt8},
    writeRecord fs sfs seenRefs = .ok (l, seenRefs') → Projectable java target type fs sfs →
      ∀ᶠ fuel in atTop, Reads (readFields java fuel (read java fuel) target type sfs)
        l (project target fs)
  | [], [], _, _, _, h, _ => by
    cases h
    exact Filter.Eventually.of_forall fun _ ↦ reads_pure _
  | [], _ :: _, _, _, _, h, _ => by cases h
  | _ :: _, [], _, _, _, h, _ => by cases h
  | (n, d) :: fs, (m, s) :: sfs, seenRefs, seenRefs', l, h, hproject => by
    rw [writeRecord] at h
    split at h
    · subst n
      split at h
      · cases h
      · rename_i l₁ seen₁ hl₁
        split at h
        · cases h
        · rename_i l₂ seen₂ hl₂
          cases h
          have hrest := reads_readFields hl₂ hproject.2
          have hfield := hproject.1
          cases ht : target.getFields.lookup m with
          | none =>
            rw [ht] at hfield
            have hd := reads_skip (encodes_of_writeUnion (encodes_of_writeObject d) hl₁ hfield)
            filter_upwards [hd, hrest] with fuel hskip hfs
            rw [project, anonymousRecord, List.filter_cons_of_neg (by rw [ht]; simp),
              readFields, ht]
            exact hskip.bind hfs
          | some t =>
            rw [ht] at hfield
            obtain ⟨rfl, hassumed, fieldType, htype, hfit, hdeclared⟩ := hfield
            have hd := reads_read (encodes_of_writeUnion (encodes_of_writeObject d) hl₁ hassumed)
              hfit
            filter_upwards [hd, hrest] with fuel hread hfs
            rw [project, anonymousRecord, List.filter_cons_of_pos (by rw [ht]; simp)]
            exact reads_readFields_cons ht htype hread (set_of_fits hfit hdeclared) hfs
    · cases h

/-- **A record is read without the fields that the target does not have**, if those can be
skipped. -/
theorem reads_projection {ref : Nat} {fs : List (String × Datum)} {n m cls : String}
    {sfs tfs : List (String × Schema)} (h : encode (.record ref fs) (record n sfs) = .ok l)
    (hproject : Projectable java (record m tfs) (.record cls) fs (getFields (record n sfs))) :
    ∀ᶠ fuel in atTop, Reads (read java fuel (record n sfs) (record m tfs) (.record cls)) l
      (.record 0 (project (record m tfs) fs)) := by
  obtain ⟨⟨l', seen⟩, hl, h⟩ := except_bind_eq_ok_iff.mp h
  cases h
  obtain ⟨⟨l', seen'⟩, hl, h⟩ := except_bind_eq_ok_iff.mp hl
  cases h
  refine eventually_of_succ (reads_readFields hl hproject) fun fuel h ↦ ?_
  rw [read_succ rfl]
  exact propagating_of_reads (h.map _)

/-! ## Skipping, and leaving out fields -/

/-- **What was written is skipped, and left out of records, exactly**, if no container that is
skipped has more than one item with bytes. -/
theorem skipsAndProjects (java : Java) :
    (∀ (d : Datum) (s : Schema) (l : List UInt8), encode d s = .ok l → Assumed Single d s →
      ∀ᶠ fuel in atTop, Reads (skip fuel s) l ()) ∧
    ∀ (ref : Nat) (fs : List (String × Datum)) (n m cls : String) (sfs tfs : List (String × Schema))
      (l : List UInt8), encode (.record ref fs) (record n sfs) = .ok l →
      Projectable java (record m tfs) (.record cls) fs (getFields (record n sfs)) →
      ∀ᶠ fuel in atTop, Reads (read java fuel (record n sfs) (record m tfs) (.record cls)) l
        (.record 0 (project (record m tfs) fs)) :=
  ⟨fun _ _ _ h hd ↦ reads_skip (encodes_of_encode h hd), fun _ _ _ _ _ _ _ _ h hproject ↦
    reads_projection h hproject⟩

/-- A class with an array of integers and an integer, and the same class without the array. -/
def sampleJava : Java where
  fields _ := [("b", .simple .int true)]
  declared _ _ := none
  isInstance _ _ := false
  valueOf _ _ := none
  intToFloat i := i
  intToDouble i := i.setWidth 64
  longToFloat l := l.setWidth 32
  longToDouble l := l
  floatToDouble bits := bits.setWidth 64
  floatToString _ := ""
  doubleToString _ := ""
  isUri _ := true
  isUrl _ := true

def sampleSource : Schema := record "R" [("a", array (simple .int)), ("b", simple .int)]

def sampleTarget : Schema := record "R" [("b", simple .int)]

/-- One integer, by itself and in a field that is left out. -/
theorem skipsAndProjects_oneInt :
    (∀ᶠ fuel in atTop, Reads (skip fuel (array (simple .int))) [2, 0, 0] ()) ∧
      ∀ᶠ fuel in atTop, Reads (read sampleJava fuel sampleSource sampleTarget (.record "C"))
        [2, 0, 0, 14] (.record 0 [("b", .int 7)]) := by
  refine ⟨(skipsAndProjects sampleJava).1 (.array [.int 0]) (array (simple .int)) [2, 0, 0]
    (by decide) ?_, (skipsAndProjects sampleJava).2 0 [("a", .array [.int 0]), ("b", .int 7)]
      "R" "R" "C" _ _ [2, 0, 0, 14] (by decide) ?_⟩
  · exact ⟨by decide, .inl le_rfl, trivial, trivial⟩
  · exact ⟨⟨by decide, .inl le_rfl, trivial, trivial⟩,
      ⟨rfl, trivial, _, rfl, .simple _ _ .int true rfl rfl trivial, fun _ h ↦ by cases h⟩, trivial⟩

/-- The length, the first integer and the second one, which is taken for the next length. -/
theorem skip_twoInts (fuel : Nat) (rest : List UInt8) :
    skip (fuel + 2) (array (simple .int)) ([4, 0, 0, 0] ++ rest) = .ok () (0 :: rest) := rfl

/-- Of two integers one stays in the input; where they are left out of a record, the next field
starts there. -/
theorem not_skips :
    encode (.array [.int 0, .int 0]) (array (simple .int)) = .ok [4, 0, 0, 0] ∧
    Assumed AnyContainer (.array [.int 0, .int 0]) (array (simple .int)) ∧
    (∀ fuel, ¬ Reads (skip fuel (array (simple .int))) [4, 0, 0, 0] ()) ∧
    encode (.record 0 [("a", .array [.int 0, .int 0]), ("b", .int 7)]) sampleSource =
      .ok [4, 0, 0, 0, 14] ∧
    ∀ fuel, read sampleJava (fuel + 3) sampleSource sampleTarget (.record "C") [4, 0, 0, 0, 14] =
      .ok (.record 0 [("b", .int 0)]) [14] := by
  refine ⟨by decide, ⟨by decide, trivial, trivial, trivial, trivial⟩, fun fuel h ↦ ?_, by decide,
    fun fuel ↦ rfl⟩
  rcases fuel with - | - | fuel
  · cases h []
  · cases h []
  · cases (skip_twoInts fuel []).symm.trans (h [])

end Tigon.ReflectionDatum
