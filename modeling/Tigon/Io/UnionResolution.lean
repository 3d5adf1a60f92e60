import Tigon.Io.SkipData

/-!
# Which schema of a union

The reader tries the schemas of a union by reading, and goes on with the next one when an
`IOException` comes out. It does not go back in the input.  So what it reads is only right if each
schema that is rejected is rejected before anything is taken off the input.

## What is here

* `resolve` — what becomes of a datum, without its bytes: a value, a failure, or a candidate that is
  rejected too late.
* `Projects` — the projections of a datum.
* `does_read` — the reader does what `resolve` says.
* `consistent_iff` — **unions are resolved consistently if, and only if, no candidate is rejected
  too late**; `not_consistent` — an enum and two candidates.
-/

set_option autoImplicit false

namespace Tigon.ReflectionDatum

open Io Schema Decoder
open Filter (atTop eventually_atTop eventually_ge_atTop)

/-! ## The reader under observation -/

/-- `tryNext`, with an alarm if the schema that is rejected has taken something or has not raised an
`IOException`. -/
def watchNext (p q : ByteDecoder Datum) : ByteDecoder Datum :=
  watching Exc.isIOException .spoiled p q

section

variable {α : Type} {read read' : Schema → Schema → JavaType → ByteDecoder Datum}

theorem follows_propagating {p q : ByteDecoder α} (h : Follows .spoiled p q) :
    Follows .spoiled (propagating p) (propagating q) := by
  intro s
  rcases h s with ⟨s', hs⟩ | hs
  · exact .inl ⟨s', by rw [propagating, hs]; rfl⟩
  · exact .inr (by rw [propagating, propagating, hs])

theorem follows_readBlocks {p q : ByteDecoder α} (h : Follows .spoiled p q) (rounds : Nat) :
    ∀ len, Follows .spoiled (readBlocks p rounds len) (readBlocks q rounds len) := by
  induction rounds with
  | zero => exact fun _ ↦ Follows.refl _ _
  | succ rounds ih =>
    intro len
    rw [readBlocks, readBlocks]
    split
    · exact Follows.refl _ _
    · refine (Follows.mapM (fun _ ↦ h) _).bind fun as ↦ Follows.bind_right _ fun len ↦ ?_
      exact (ih len).bind fun bs ↦ Follows.refl _ _

theorem follows_readItems {p q : ByteDecoder α} (h : Follows .spoiled p q) (fuel : Nat) :
    Follows .spoiled (readItems fuel p) (readItems fuel q) :=
  Follows.bind_right _ fun len ↦ follows_readBlocks h (fuel + 1) len

variable (java : Java) (fuel : Nat) (h : ∀ s t type, Follows .spoiled (read s t type)
  (read' s t type))

include h

theorem follows_readArray (s t : Schema) (type : JavaType) :
    Follows .spoiled (readArray java fuel read s t type) (readArray java fuel read' s t type) := by
  rw [readArray, readArray]
  split
  · exact Follows.refl _ _
  · exact (follows_readItems (h s t _) fuel).bind fun as ↦ Follows.refl _ _

theorem follows_readMap (sk sv tk tv : Schema) (type : JavaType) :
    Follows .spoiled (readMap fuel read sk sv tk tv type)
      (readMap fuel read' sk sv tk tv type) := by
  unfold readMap
  split
  · refine (follows_readItems ?_ fuel).bind fun as ↦ Follows.refl _ _
    exact (h sk tk _).bind fun k ↦ (h sv tv _).bind fun v ↦ Follows.refl _ _
  · exact Follows.refl _ _
  · exact Follows.refl _ _

theorem follows_readFields (t : Schema) (type : JavaType) (sfs : List (String × Schema)) :
    Follows .spoiled (readFields java fuel read t type sfs)
      (readFields java fuel read' t type sfs) := by
  induction sfs with
  | nil => exact Follows.refl _ _
  | cons f sfs ih =>
    rw [readFields, readFields]
    split
    · exact Follows.bind_right _ fun _ ↦ ih
    · split
      · exact Follows.refl _ _
      · refine (h _ _ _).bind fun d ↦ Follows.bind_right _ fun value ↦ ?_
        exact ih.bind fun fs ↦ Follows.refl _ _

theorem follows_readRecord (s t : Schema) (type : JavaType) :
    Follows .spoiled (readRecord java fuel read s t type)
      (readRecord java fuel read' s t type) := by
  unfold readRecord
  refine follows_propagating ?_
  split
  · exact (follows_readFields java fuel h t _ _).bind fun fs ↦ Follows.refl _ _
  · exact Follows.refl _ _

theorem follows_readUnion (ss : List Schema) (t : Schema) (type : JavaType) :
    Follows .spoiled (readUnion watchNext read ss t type) (readUnion tryNext read' ss t type) := by
  unfold readUnion
  refine Follows.bind_right _ fun idx ↦ ?_
  split
  · exact Follows.refl _ _
  · unfold readBranch
    split
    · exact follows_firstOf rfl _ (fun t ↦ h _ t type) _
    · exact h _ _ _

theorem follows_doRead (s t : Schema) (type : JavaType) :
    Follows .spoiled (doRead java watchNext fuel read s t type)
      (doRead java tryNext fuel read' s t type) := by
  unfold doRead
  split
  · exact Follows.refl _ _
  · exact Follows.refl _ _
  · exact Follows.refl _ _
  · split
    · exact follows_readArray java fuel h _ _ _
    · exact Follows.refl _ _
  · split
    · exact follows_readMap fuel h _ _ _ _ _
    · exact Follows.refl _ _
  · split
    · exact follows_readRecord java fuel h _ _ _
    · exact Follows.refl _ _
  · exact follows_readUnion h _ _ _
  · exact Follows.refl _ _
  · exact Follows.refl _ _
  · exact Follows.refl _ _

end

/-- **Without an alarm the code does what the observed reader does.** -/
theorem follows_read (java : Java) (fuel : Nat) : ∀ s t type,
    Follows .spoiled (readWith java watchNext fuel s t type) (read java fuel s t type) := by
  induction fuel with
  | zero => exact fun _ _ _ ↦ Follows.refl _ _
  | succ fuel ih =>
    intro s t type
    show Follows _ (readWith java watchNext (fuel + 1) s t type)
      (readWith java tryNext (fuel + 1) s t type)
    unfold readWith
    split
    · exact follows_firstOf rfl _ (fun t ↦ follows_doRead java fuel ih s t type) _
    · exact follows_doRead java fuel ih s _ type

/-! ## What becomes of a datum -/

/-- A datum that is skipped exactly. -/
def Skippable (d : Datum) (s : Schema) : Prop :=
  ∀ l, Encodes AnyContainer d s l → Encodes Single d s l

open Classical in
/-- The same, as a test. -/
noncomputable def skippable (d : Datum) (s : Schema) : Bool := decide (Skippable d s)

open Classical in
/-- Data of the schema have bytes. -/
noncomputable def hasBytes (s : Schema) : Bool := decide ¬ ZeroWidth s

/-- The constructors of `convertString`, after the string has been read. -/
def resolveString (java : Java) (type : JavaType) (str : String) : Outcome Exc Datum :=
  match type with
  | .simple .uri _ => if java.isUri str then .value (.uri str) else .failure .illegalArgument true
  | .simple .url _ => if java.isUrl str then .value (.url str) else .failure .io true
  | _ => .value (.string str)

/-- The conversions of `resolveType`. -/
def resolveSimple (java : Java) (d : Datum) (source : SimpleType) (t : Schema) (type : JavaType) :
    Outcome Exc Datum :=
  match source with
  | .boolean =>
    match d, t with
    | .boolean b, simple .boolean => .value (.boolean b)
    | .boolean b, simple .string => .value (.string (toString b))
    | _, _ => .failure .io true
  | .int =>
    match d.intValue, t with
    | .ok i, simple .int => .value (convertInt type i)
    | .ok i, simple .long => .value (.long (i.signExtend 64))
    | .ok i, simple .float => .value (.float (java.intToFloat i))
    | .ok i, simple .double => .value (.double (java.intToDouble i))
    | .ok i, simple .string => .value (.string (toString i.toInt))
    | _, _ => .failure .io true
  | .long =>
    match d.longValue, t with
    | .ok l, simple .long => .value (.long l)
    | .ok l, simple .float => .value (.float (java.longToFloat l))
    | .ok l, simple .double => .value (.double (java.longToDouble l))
    | .ok l, simple .string => .value (.string (toString l.toInt))
    | _, _ => .failure .io true
  | .float =>
    match d, t with
    | .float bits, simple .float => .value (.float bits)
    | .float bits, simple .double => .value (.double (java.floatToDouble bits))
    | .float bits, simple .string => .value (.string (java.floatToString bits))
    | _, _ => .failure .io true
  | .double =>
    match d, t with
    | .double bits, simple .double => .value (.double bits)
    | .double bits, simple .string => .value (.string (java.doubleToString bits))
    | _, _ => .failure .io true
  | .string =>
    match d.stringValue, t with
    | .ok str, simple .string => (resolveString java type str).after true
    | _, _ => .failure .io true
  | _ => .failure .io true

/-- A value of an enum, after its index has been read. -/
def resolveEnum (java : Java) (value : String) (t : Schema) (type : JavaType) : Outcome Exc Datum :=
  match t with
  | enum targetValues =>
    if value ∈ targetValues then .ofOption .io (java.invokeValueOf type value)
      else .failure .io true
  | _ => .failure .nullPointer true

/-- Data without other data inside, and containers where the target is something else. -/
def resolveLeaf (java : Java) (d : Datum) (s t : Schema) (type : JavaType) : Outcome Exc Datum :=
  match s with
  | simple .null =>
    match t with
    | simple .null => .value .null
    | _ => .failure .io true
  | simple .bytes =>
    match d.bytesValue, t with
    | .ok bs, simple .bytes => .value (convertBytes type bs)
    | _, _ => .failure .io true
  | simple source => resolveSimple java d source t type
  | Schema.enum _ =>
    match d with
    | .enum value => (resolveEnum java value t type).after true
    | _ => .failure .io true
  | _ => .failure .io true

/-- A schema of a union that is the target. -/
def resolveTarget (resolveObject : Schema → Schema → JavaType → Outcome Exc Datum) (s t : Schema)
    (type : JavaType) : Outcome Exc Datum :=
  match t with
  | union ts => Outcome.first Exc.isIOException .io (ts.map fun t ↦ resolveObject s t type)
  | t => resolveObject s t type

/-- The same for a value of a union, after its index. -/
def resolveIndex (resolve : Schema → Outcome Exc Datum) (s : Schema) (idx : BitVec 32)
    (t : Schema) : Outcome Exc Datum :=
  match t with
  | union ts => Outcome.first Exc.isIOException .io ((candidates s idx ts).map resolve)
  | t => resolve t

/-- `null` is of the second schema of a union, and any object of the first one. -/
def resolveUnion (resolveObject : Schema → Schema → JavaType → Outcome Exc Datum) (isNull : Bool) :
    Schema → Schema → JavaType → Outcome Exc Datum
  | union (s :: _), t, type =>
    if isNull then
      (resolveIndex (fun t ↦ resolveTarget resolveObject (simple .null) t type) (simple .null)
        1 t).after true
    else (resolveIndex (fun t ↦ resolveUnion resolveObject isNull s t type) s 0 t).after true
  | s, t, type => resolveTarget resolveObject s t type

def propagated : Outcome Exc Datum → Outcome Exc Datum
  | .failure e clean => .failure (propagate e) clean
  | o => o

mutual

/-- What becomes of a datum whose schema is no union. -/
noncomputable def resolveObject (java : Java) : Datum → Schema → Schema → JavaType →
    Outcome Exc Datum
  | .array es, s, t, type =>
    match s, t with
    | array c, array c' =>
      match componentType type with
      | none => .failure .io true
      | some component =>
        ((resolveArray java es c c' component).after true).andThen true fun rs ↦
          (Outcome.ofOption .illegalArgument (java.setAll type component rs)).map Datum.array
    | s, t => resolveLeaf java (.array es) s t type
  | .map es, s, t, type =>
    match s, t with
    | map k v, map k' v' =>
      match type with
      | .map keyType valueType =>
        ((resolveMap java es k v k' v' keyType valueType).after true).map Datum.map
      | .unsupported true => .failure .illegalArgument true
      | _ => .failure .io true
    | s, t => resolveLeaf java (.map es) s t type
  | .record ref fs, s, t, type =>
    match s, t with
    | record n sfs, record m tfs =>
      if creates type then
        propagated ((resolveRecord java (record m tfs) type fs (getFields (record n sfs))).map
          (Datum.record 0))
      else .failure .io true
    | s, t => resolveLeaf java (.record ref fs) s t type
  | d, s, t, type => resolveLeaf java d s t type

noncomputable def resolveArray (java : Java) : List Datum → Schema → Schema → JavaType →
    Outcome Exc (List Datum)
  | [], _, _, _ => .value []
  | d :: ds, c, c', component =>
    (resolveUnion (resolveObject java d) d.isNull c c' component).andThen (hasBytes c) fun r ↦
      (resolveArray java ds c c' component).map fun rs ↦ r :: rs

noncomputable def resolveMap (java : Java) : List (Datum × Datum) → Schema → Schema → Schema →
    Schema → JavaType → JavaType → Outcome Exc (List (Datum × Datum))
  | [], _, _, _, _, _, _ => .value []
  | (dk, dv) :: es, k, v, k', v', keyType, valueType =>
    ((resolveUnion (resolveObject java dk) dk.isNull k k' keyType).andThen (hasBytes k) fun rk ↦
      (resolveUnion (resolveObject java dv) dv.isNull v v' valueType).map fun rv ↦ (rk, rv)).andThen
        (hasBytes k || hasBytes v) fun r ↦
          (resolveMap java es k v k' v' keyType valueType).map fun rs ↦ r :: rs

noncomputable def resolveRecord (java : Java) (t : Schema) (type : JavaType) :
    List (String × Datum) → List (String × Schema) → Outcome Exc (List (String × Datum))
  | (_, d) :: fs, (m, s) :: sfs =>
    match t.getFields.lookup m with
    | none =>
      if skippable d s then (resolveRecord java t type fs sfs).after (hasBytes s) else .unknown
    | some t' =>
      match (java.fields type).lookup m with
      | none => .failure .nullPointer true
      | some fieldType =>
        (resolveUnion (resolveObject java d) d.isNull s t' fieldType).andThen (hasBytes s) fun r ↦
          (Outcome.ofOption .illegalArgument (java.set type m fieldType r)).andThen
            false fun value ↦
            (resolveRecord java t type fs sfs).map fun rs ↦ (m, value) :: rs
  | _, _ => .value []

end

/-- What becomes of a datum. -/
noncomputable def resolve (java : Java) (d : Datum) (s t : Schema) (type : JavaType) :
    Outcome Exc Datum :=
  resolveUnion (resolveObject java d) d.isNull s t type

/-! ## Bytes or none -/

theorem writeVar_ne_nil {w : Nat} (i : BitVec w) : writeVar i ≠ [] := by
  intro h
  rw [writeVar] at h
  split at h <;> cases h

theorem blocks_ne_nil (size : Nat) (l : List UInt8) : blocks size l ≠ [] :=
  List.append_ne_nil_of_left_ne_nil (writeVar_ne_nil _) _

variable {container : Nat → List Schema → Prop} {java : Java} {d : Datum} {s c k v : Schema}
  {l l' : List UInt8}

theorem zeroWidth_of_closeWith {n : String} {fs : List (String × Schema)} {f : String × Schema}
    (hf : f ∈ fs) (h : ZeroWidth (closeWith (record n fs) f.2)) : ZeroWidth f.2 := by
  obtain ⟨m, s⟩ := f
  cases s with
  | self =>
    cases h with
    | record _ _ hfs => exact hfs _ hf
  | simple _ => exact h
  | record _ _ => exact h
  | _ => cases h

mutual

theorem zeroWidth_of_eq_nil : ∀ {d : Datum} {s : Schema} {l : List UInt8}, Encodes container d s l →
    l = [] → ZeroWidth s
  | _, _, _, .nothing _, _ => ZeroWidth.null
  | _, _, _, .boolean _, h => by cases h
  | _, _, _, .int _ i _, h => absurd h (writeVar_ne_nil i)
  | _, _, _, .long _ i _, h => absurd h (writeVar_ne_nil i)
  | _, _, _, .float _, h => by cases h
  | _, _, _, .double _, h => by cases h
  | _, _, _, .bytes _ _ _ _, h => absurd h (List.append_ne_nil_of_left_ne_nil (writeVar_ne_nil _) _)
  | _, _, _, .string _ _ _ _, h =>
    absurd h (List.append_ne_nil_of_left_ne_nil (writeVar_ne_nil _) _)
  | _, _, _, .enum _ _ _ _, h => absurd h (writeVar_ne_nil _)
  | _, _, _, .array _ _ _ _ _ _, h => absurd h (blocks_ne_nil _ _)
  | _, _, _, .map _ _ _ _ _ _ _, h => absurd h (blocks_ne_nil _ _)
  | _, _, _, .record _ _ n sfs _ hfs, h =>
    ZeroWidth.record n sfs fun f hf ↦ zeroWidth_of_closeWith hf
      (zeroWidth_of_record_eq_nil hfs h (f.1, closeWith (record n sfs) f.2)
        (List.mem_map.mpr ⟨f, hf, rfl⟩))
  | _, _, _, .union _ _ _ _ _ _ _, h =>
    absurd h (List.append_ne_nil_of_left_ne_nil (writeVar_ne_nil _) _)

theorem zeroWidth_of_record_eq_nil : ∀ {fs : List (String × Datum)} {sfs : List (String × Schema)}
    {l : List UInt8}, EncodesRecord container fs sfs l → l = [] → ∀ f ∈ sfs, ZeroWidth f.2
  | _, _, _, .nil, _ => fun _ hf ↦ absurd hf List.not_mem_nil
  | _, _, _, .cons n d s fs sfs l l' hd hfs, h => by
    obtain ⟨hl, hl'⟩ := List.append_eq_nil_iff.mp h
    exact List.forall_mem_cons.mpr ⟨zeroWidth_of_eq_nil hd hl, zeroWidth_of_record_eq_nil hfs hl'⟩

end

theorem hasBytes_iff (h : Encodes container d s l) : hasBytes s = true ↔ l ≠ [] := by
  classical
  rw [hasBytes, decide_eq_true_eq]
  exact not_congr ⟨fun hs ↦ eq_nil_of_zeroWidth hs h, zeroWidth_of_eq_nil h⟩

/-! ## The reader does what becomes of a datum -/

theorem does_propagating {p : ByteDecoder Datum} {o : Outcome Exc Datum} (h : Does .spoiled p l o) :
    Does .spoiled (propagating p) l (propagated o) := by
  cases o with
  | value r => exact propagating_of_reads h
  | failure e clean =>
    have he : propagate e ≠ .spoiled := by
      have hne := h.1
      cases e <;> first | decide | exact hne
    exact ⟨he, fun rest ↦ (h.2 rest).imp fun rest' hrest ↦ ⟨by rw [propagating, hrest.1], hrest.2⟩⟩
  | alarmed => exact fun rest ↦ (h rest).imp fun rest' hrest ↦ by rw [propagating, hrest]; rfl
  | unknown => trivial

theorem does_convertString (type : JavaType) (str : String) :
    Does .spoiled (convertString java type str) [] (resolveString java type str) := by
  have hif : ∀ (b : Bool) (d : Datum) (e : Exc), e ≠ .spoiled →
      Does .spoiled (if b then pure d else throw e : ByteDecoder Datum) []
        (if b then .value d else .failure e true) := by
    intro b d e he
    cases b with
    | true => exact reads_pure _
    | false => exact does_throw he []
  cases type with
  | simple cls _ =>
    cases cls with
    | uri => exact hif (java.isUri str) (.uri str) .illegalArgument (by decide)
    | url => exact hif (java.isUrl str) (.url str) .io (by decide)
    | _ => exact reads_pure _
  | _ => exact reads_pure _

/-- The conversions of simple types. -/
theorem does_resolveType {source : SimpleType} (h : Encodes container d (simple source) l)
    (hnull : source ≠ .null) (hbytes : source ≠ .bytes) (t : Schema) (type : JavaType) :
    Does .spoiled (resolveType java source t type) l (resolveSimple java d source t type) := by
  cases h with
  | nothing => exact absurd rfl hnull
  | bytes => exact absurd rfl hbytes
  | boolean b =>
    cases t with
    | simple t =>
      cases t <;> first | exact (reads_readBool b).map _ | exact does_throw (by decide) _
    | _ => exact does_throw (by decide) _
  | int _ i hi =>
    unfold resolveSimple
    rw [hi]
    cases t with
    | simple t => cases t <;> first | exact (reads_readInt i).map _ | exact does_throw (by decide) _
    | _ => exact does_throw (by decide) _
  | long _ i hi =>
    unfold resolveSimple
    rw [hi]
    cases t with
    | simple t =>
      cases t <;> first | exact (reads_readLong i).map _ | exact does_throw (by decide) _
    | _ => exact does_throw (by decide) _
  | float bits =>
    cases t with
    | simple t =>
      cases t <;> first | exact (reads_readBits bits).map _ | exact does_throw (by decide) _
    | _ => exact does_throw (by decide) _
  | double bits =>
    cases t with
    | simple t =>
      cases t <;> first | exact (reads_readDouble bits).map _ | exact does_throw (by decide) _
    | _ => exact does_throw (by decide) _
  | string _ str hstr hlen =>
    unfold resolveSimple
    rw [hstr]
    cases t with
    | simple t =>
      cases t with
      | string =>
        exact (reads_readString hlen).does_bind_nil
          (List.append_ne_nil_of_left_ne_nil (writeVar_ne_nil _) _) (does_convertString type str)
      | _ => exact does_throw (by decide) _
    | _ => exact does_throw (by decide) _

/-- An enum. -/
theorem does_readEnum (java : Java) {value : String} {vs : List String} (hmem : value ∈ vs)
    (hlen : vs.length < 2 ^ 31) (t : Schema) (type : JavaType) :
    Does .spoiled (readEnum java vs t type) (writeInt (BitVec.ofNat 32 (vs.idxOf value)))
      (resolveLeaf java (.enum value) (.enum vs) t type) := by
  have hidx : vs.idxOf value < vs.length := List.idxOf_lt_length_of_mem hmem
  have hat : atIndex vs (BitVec.ofNat 32 (vs.idxOf value)) = some value := by
    rw [atIndex_ofNat vs (by omega), List.getElem?_eq_getElem hidx, List.getElem_idxOf]
  have hvalue : Does .spoiled (enumValueOf java vs t type (BitVec.ofNat 32 (vs.idxOf value))) []
      (resolveEnum java value t type) := by
    unfold enumValueOf resolveEnum
    rw [hat]
    cases t with
    | enum ws =>
      by_cases hw : value ∈ ws
      · simp only [if_pos hw]
        exact does_orThrow (by decide) _
      · simp only [if_neg hw]
        exact does_throw (by decide) _
    | _ => exact does_throw (by decide) _
  exact (reads_readInt _).does_bind_nil (writeVar_ne_nil _) hvalue

/-- Blocks of items. -/
theorem does_readItems {α : Type} {item : ByteDecoder α} {size : Nat} {o : Outcome Exc (List α)}
    (hsize : size < 2 ^ 31) (hzero : size = 0 → l = [] ∧ o = .value [])
    (hitems : Does .spoiled ((List.replicate size ()).mapM fun _ ↦ item) l o) (rounds : Nat) :
    Does .spoiled (readItems (rounds + 1) item) (blocks size l) (o.after true) := by
  refine (reads_readInt _).does_bind (writeVar_ne_nil _) ?_
  by_cases hpos : size = 0
  · obtain ⟨rfl, rfl⟩ := hzero hpos
    subst hpos
    exact reads_readBlocks_zero item (rounds + 1)
  · have hne : BitVec.ofNat 32 size ≠ 0 := by
      intro h
      have hnat := congrArg BitVec.toNat h
      rw [Io.toNat_ofNat (by decide) hsize] at hnat
      exact hpos hnat
    rw [readBlocks, if_neg hne, if_neg hpos, Io.toInt_ofNat (by decide) hsize, Int.toNat_natCast]
    have hrest : ∀ as, Does .spoiled (do
        let len ← readInt
        return as ++ (← readBlocks item (rounds + 1) len)) (writeInt 0) (.value as) := by
      intro as
      have h := (reads_readInt 0).bind (f := fun len ↦ do
        let rest ← readBlocks item (rounds + 1) len
        return as ++ rest) ((reads_readBlocks_zero item rounds).map fun rest ↦ as ++ rest)
      rwa [List.append_nil, List.append_nil] at h
    have h := hitems.bind (show decide (l ≠ []) = true ↔ l ≠ [] from decide_eq_true_iff)
      fun as _ ↦ hrest as
    have ho : o.andThen (decide (l ≠ [])) (fun as ↦ .value as) = o := by
      cases o <;> rfl
    rwa [ho] at h

/-- `read` of a schema that is no union. -/
theorem does_target {fuel : Nat} (hs : isUnion s = false) (h : ∀ t type,
      Does .spoiled (doRead java watchNext fuel (readWith java watchNext fuel) s t type)
        l (resolveObject java d s t type))
    (t : Schema) (type : JavaType) :
    Does .spoiled (readWith java watchNext (fuel + 1) s t type)
      l (resolveTarget (resolveObject java d) s t type) := by
  cases t with
  | union ts =>
    rw [readWith]
    · exact does_firstOf rfl (by decide) (fun t ↦ h t type) ts
    · exact hs
  | _ =>
    rw [readWith]
    · exact h _ type
    · exact fun ts _ h ↦ by cases h

/-- A value of a union, after its index. -/
theorem does_index {read : Schema → Schema → JavaType → ByteDecoder Datum}
    {o : Schema → Outcome Exc Datum} {type : JavaType}
    (h : ∀ t, Does .spoiled (read s t type) l (o t)) (idx : BitVec 32) (t : Schema) :
    Does .spoiled (readBranch watchNext read s idx t type) l (resolveIndex o s idx t) := by
  cases t with
  | union ts => exact does_firstOf rfl (by decide) h _
  | _ => exact h _

/-- What becomes of a value of a union. -/
theorem resolve_union {ss : List Schema} (hs : ss[unionIndex d]? = some s)
    (hnull : d.isNull = true → s = simple .null) (java : Java) (t : Schema) (type : JavaType) :
    resolve java d (union ss) t type =
      (resolveIndex (fun t ↦ resolve java d s t type) s (BitVec.ofNat 32 (unionIndex d)) t).after
        true := by
  cases ss with
  | nil => simp at hs
  | cons s₀ ss =>
    rw [resolve, resolveUnion]
    cases hd : d.isNull with
    | true =>
      obtain rfl := hnull hd
      rw [unionIndex, if_pos hd]
      rfl
    | false =>
      have hzero : unionIndex d = 0 := by rw [unionIndex, hd]; rfl
      rw [hzero, List.getElem?_cons_zero, Option.some.injEq] at hs
      rw [hzero, hs, if_neg (by simp)]
      simp only [resolve, hd]
      rfl

theorem does_read_union {fuel : Nat} {ss : List Schema} (hs : ss[unionIndex d]? = some s)
    (hnull : d.isNull = true → s = simple .null)
    (h : ∀ t type, Does .spoiled (readWith java watchNext fuel s t type)
      l (resolve java d s t type)) (t : Schema)
    (type : JavaType) :
    Does .spoiled (readWith java watchNext (fuel + 1) (union ss) t type)
      (writeInt (BitVec.ofNat 32 (unionIndex d)) ++ l) (resolve java d (union ss) t type) := by
  have hread : readWith java watchNext (fuel + 1) (union ss) t type =
      readUnion watchNext (readWith java watchNext fuel) ss t type := by
    cases t <;> rfl
  rw [hread, readUnion]
  have hindex := does_index (fun t ↦ h t type) (BitVec.ofNat 32 (unionIndex d)) t
  have hbranch : Does .spoiled (match atIndex ss (BitVec.ofNat 32 (unionIndex d)) with
      | none => throw Exc.indexOutOfBounds
      | some s =>
        readBranch watchNext (readWith java watchNext fuel)
          s (BitVec.ofNat 32 (unionIndex d)) t type)
      l (resolveIndex (fun t ↦ resolve java d s t type) s (BitVec.ofNat 32 (unionIndex d)) t) := by
    rw [atIndex_ofNat ss (unionIndex_lt d), hs]
    exact hindex
  rw [resolve_union hs hnull]
  refine (reads_readInt _).does_bind (writeVar_ne_nil _) ?_
  exact hbranch

theorem does_readFields_cons {fuel : Nat} {t : Schema} {type : JavaType} {m : String}
    {fs : List (String × Datum)} {sfs : List (String × Schema)} (hd : Encodes AnyContainer d s l)
    (hskip : skippable d s = true → Reads (skip fuel s) l ())
    (h : ∀ t type, Does .spoiled (readWith java watchNext fuel s t type)
      l (resolve java d s t type))
    (hfs : Does .spoiled (readFields java fuel (readWith java watchNext fuel) t type sfs)
      l' (resolveRecord java t type fs sfs)) :
    Does .spoiled (readFields java fuel (readWith java watchNext fuel) t type ((m, s) :: sfs))
      (l ++ l') (resolveRecord java t type ((m, d) :: fs) ((m, s) :: sfs)) := by
  unfold readFields resolveRecord
  cases ht : t.getFields.lookup m with
  | none =>
    cases hs : skippable d s with
    | true => exact Does.bind (o := .value ()) (hskip hs) (hasBytes_iff hd) fun _ _ ↦ hfs
    | false => trivial
  | some t' =>
    cases htype : (java.fields type).lookup m with
    | none =>
      exact does_throw (by decide) _
    | some fieldType =>
      refine (h t' fieldType).bind (hasBytes_iff hd) fun r _ ↦ ?_
      exact (does_orThrow (by decide) _).nil_bind fun value _ ↦ hfs.map _

mutual

/-- **The reader does what becomes of the datum.** -/
theorem does_read : ∀ {d : Datum} {s : Schema} {l : List UInt8}, Encodes AnyContainer d s l →
    ∀ java : Java, ∀ᶠ fuel in atTop, ∀ t type, Does .spoiled (readWith java watchNext fuel s t type)
      l (resolve java d s t type)
  | _, _, _, .nothing d, java =>
    eventually_of_forall_succ fun fuel ↦ does_target rfl fun t type ↦ by
    have hleaf : resolveObject java d (simple .null) t type = resolveLeaf java d (simple .null)
      t type := by
      cases d <;> rfl
    rw [hleaf]
    cases t with
    | simple t => cases t <;> first | exact reads_pure _ | exact does_throw (by decide) _
    | _ => exact does_throw (by decide) _
  | _, _, _, .boolean b, java => eventually_of_forall_succ fun fuel ↦ does_target rfl
    (does_resolveType (show Encodes AnyContainer _ _ _ from .boolean b) (by simp) (by simp))
  | _, _, _, .int d i hi, java =>
    eventually_of_forall_succ fun fuel ↦ does_target rfl fun t type ↦ by
    have hleaf : resolveObject java d (simple .int) t type = resolveSimple java d .int t type := by
      cases d <;> rfl
    rw [hleaf]
    exact does_resolveType (show Encodes AnyContainer _ _ _ from .int d i hi) (by simp)
      (by simp) t type
  | _, _, _, .long d i hi, java =>
    eventually_of_forall_succ fun fuel ↦ does_target rfl fun t type ↦ by
    have hleaf : resolveObject java d (simple .long) t type = resolveSimple java d
      .long t type := by
      cases d <;> rfl
    rw [hleaf]
    exact does_resolveType (show Encodes AnyContainer _ _ _ from .long d i hi) (by simp)
      (by simp) t type
  | _, _, _, .float bits, java => eventually_of_forall_succ fun fuel ↦ does_target rfl
    (does_resolveType (show Encodes AnyContainer _ _ _ from .float bits) (by simp) (by simp))
  | _, _, _, .double bits, java => eventually_of_forall_succ fun fuel ↦ does_target rfl
    (does_resolveType (show Encodes AnyContainer _ _ _ from .double bits) (by simp) (by simp))
  | _, _, _, .bytes d bs hbs hlen, java =>
    eventually_of_forall_succ fun fuel ↦ does_target rfl fun t type ↦ by
    have hleaf : resolveObject java d (simple .bytes) t type = resolveLeaf java d (simple .bytes)
      t type := by
      cases d <;> rfl
    rw [hleaf]
    unfold resolveLeaf
    simp only [hbs]
    cases t with
    | simple t =>
      cases t <;> first | exact (reads_rawReadBytes hlen).map _ | exact does_throw (by decide) _
    | _ => exact does_throw (by decide) _
  | _, _, _, .string d str hstr hlen, java =>
    eventually_of_forall_succ fun fuel ↦ does_target rfl fun t type ↦ by
    have hleaf : resolveObject java d (simple .string) t type = resolveSimple java d
      .string t type := by
      cases d <;> rfl
    rw [hleaf]
    exact does_resolveType (show Encodes AnyContainer _ _ _ from .string d str hstr hlen) (by simp)
      (by simp) t type
  | _, _, _, .enum value vs hmem hlen, java => eventually_of_forall_succ fun fuel ↦ does_target rfl
    (does_readEnum java hmem hlen)
  | _, _, _, .array es c l hsize _ hes, java => by
    refine eventually_of_succ ((does_readArray hes java).and (eventually_ge_atTop 1))
      fun fuel h ↦ ?_
    obtain ⟨rounds, rfl⟩ := exists_rounds h.2
    refine does_target rfl fun t type ↦ ?_
    cases t with
    | array c' =>
      show Does .spoiled (readArray java (rounds + 1) (readWith java watchNext (rounds + 1))
        c c' type) _ (match componentType type with
          | none => _
          | some component => _)
      rw [readArray]
      cases componentType type with
      | none => exact does_throw (by decide) _
      | some component =>
        have hzero : es.length = 0 → l = [] ∧ resolveArray java es c c' component = .value [] :=
          fun hlen ↦ by
          obtain rfl := List.length_eq_zero_iff.mp hlen
          cases hes
          exact ⟨rfl, rfl⟩
        refine (does_readItems hsize hzero (h.1 c' component) rounds).bind_nil
          (blocks_ne_nil _ _) fun rs ↦ ?_
        exact (does_orThrow (by decide) _).map _
    | _ => exact does_throw (by decide) _
  | _, _, _, .map es k v l hsize _ hes, java => by
    refine eventually_of_succ ((does_readMap hes java).and (eventually_ge_atTop 1)) fun fuel h ↦ ?_
    obtain ⟨rounds, rfl⟩ := exists_rounds h.2
    refine does_target rfl fun t type ↦ ?_
    cases t with
    | map k' v' =>
      cases type with
      | map keyType valueType =>
        have hzero : es.length = 0 → l = [] ∧ resolveMap java es k v k' v' keyType valueType =
          .value [] := fun hlen ↦ by
          obtain rfl := List.length_eq_zero_iff.mp hlen
          cases hes
          exact ⟨rfl, rfl⟩
        exact (does_readItems hsize hzero (h.1 k' v' keyType valueType) rounds).map Datum.map
      | unsupported isMap => cases isMap <;> exact does_throw (by decide) _
      | _ => exact does_throw (by decide) _
    | _ => exact does_throw (by decide) _
  | _, _, _, .record ref fs n sfs l hfs, java => by
    refine eventually_of_succ (does_readRecord hfs java) fun fuel h ↦ does_target rfl
      fun t type ↦ ?_
    cases t with
    | record m tfs =>
      show Does .spoiled (readRecord java fuel (readWith java watchNext fuel) (record n sfs)
        (record m tfs) type) _ (if creates type then _ else _)
      unfold readRecord
      cases hcreates : creates type with
      | true => exact does_propagating ((h (record m tfs) type).map _)
      | false => exact does_propagating (does_throw (by decide) _)
    | _ => exact does_throw (by decide) _
  | _, _, _, .union d ss s l hs hnull hd, java =>
    eventually_of_succ (does_read hd java) fun fuel h ↦ does_read_union hs hnull h

theorem does_readArray : ∀ {es : List Datum} {c : Schema} {l : List UInt8},
    EncodesArray AnyContainer es c l → ∀ java : Java, ∀ᶠ fuel in atTop, ∀ c' component,
      Does .spoiled ((List.replicate es.length ()).mapM fun _ ↦ readWith java watchNext fuel c
        c' component) l (resolveArray java es c c' component)
  | _, _, _, .nil _, java => Filter.Eventually.of_forall fun _ _ _ ↦ reads_pure _
  | _, _, _, .cons d ds c l l' hd hds, java => by
    filter_upwards [does_read hd java, does_readArray hds java] with fuel h h' c' component
    rw [List.length_cons, List.replicate_succ, List.mapM_cons]
    exact (h c' component).bind (hasBytes_iff hd) fun r _ ↦ (h' c' component).map _

theorem does_readMap : ∀ {es : List (Datum × Datum)} {k v : Schema} {l : List UInt8},
    EncodesMap AnyContainer es k v l → ∀ java : Java, ∀ᶠ fuel in atTop, ∀ k' v' keyType valueType,
      Does .spoiled ((List.replicate es.length ()).mapM fun _ ↦ do
        return (← readWith java watchNext fuel k k' keyType, ← readWith java watchNext fuel v
          v' valueType)) l
        (resolveMap java es k v k' v' keyType valueType)
  | _, _, _, _, .nil _ _, java => Filter.Eventually.of_forall fun _ _ _ _ _ ↦ reads_pure _
  | _, _, _, _, .cons dk dv es k v l l' l'' hdk hdv hes, java => by
    filter_upwards [does_read hdk java, does_read hdv java, does_readMap hes java]
      with fuel hk hv h k' v' keyType valueType
    rw [List.length_cons, List.replicate_succ, List.mapM_cons, ← List.append_assoc]
    have hentry := (hk k' keyType).bind (hasBytes_iff hdk) fun rk _ ↦ (hv v' valueType).map
      fun rv ↦ (rk, rv)
    refine hentry.bind ?_ fun r _ ↦ (h k' v' keyType valueType).map _
    rw [Bool.or_eq_true, hasBytes_iff hdk, hasBytes_iff hdv, ne_eq, ne_eq, ne_eq,
      List.append_eq_nil_iff, not_and_or]

theorem does_readRecord : ∀ {fs : List (String × Datum)} {sfs : List (String × Schema)}
    {l : List UInt8}, EncodesRecord AnyContainer fs sfs l → ∀ java : Java,
      ∀ᶠ fuel in atTop, ∀ t type, Does .spoiled
        (readFields java fuel (readWith java watchNext fuel) t type sfs)
          l (resolveRecord java t type fs sfs)
  | _, _, _, .nil, java => Filter.Eventually.of_forall fun _ _ _ ↦ reads_pure _
  | _, _, _, .cons m d s fs sfs l l' hd hfs, java => by
    have hskip : skippable d s = true → ∀ᶠ fuel in atTop, Reads (skip fuel s) l () := fun h ↦ by
      classical
      rw [skippable, decide_eq_true_eq] at h
      exact reads_skip (h l hd)
    have hskip' : ∀ᶠ fuel in atTop, skippable d s = true → Reads (skip fuel s) l () := by
      by_cases h : skippable d s = true
      · filter_upwards [hskip h] with fuel hfuel _
        exact hfuel
      · exact Filter.Eventually.of_forall fun _ h' ↦ absurd h' h
    filter_upwards [hskip', does_read hd java, does_readRecord hfs java] with fuel hs h h' t type
    exact does_readFields_cons hd hs h (h' t type)

end

/-! ## Projections -/

mutual

/-- An object is a datum projected on another schema: simple values are converted, fields may be
missing, and for a union it is one of its schemas.  A value in a field or an array is what is stored
there. -/
inductive Projects (java : Java) : Datum → Schema → Schema → JavaType → Datum → Prop
  | null (d : Datum) (type : JavaType) : Projects java d (simple .null) (simple .null) type .null
  | bytes (d : Datum) (bs : List UInt8) (type : JavaType) : d.bytesValue = .ok bs →
      Projects java d (simple .bytes) (simple .bytes) type (convertBytes type bs)
  | simple (d : Datum) (source : SimpleType) (t : Schema) (type : JavaType) (r : Datum) :
      resolveSimple java d source t type = .value r → Projects java d (simple source) t type r
  | enum (value : String) (vs ws : List String) (type : JavaType) (r : Datum) : value ∈ ws →
      java.invokeValueOf type value = some r → Projects java (.enum value) (enum vs)
        (enum ws) type r
  | array (es rs values : List Datum) (c c' : Schema) (type component : JavaType) :
      componentType type = some component → ProjectsArray java es c c' component rs →
      java.setAll type component rs = some values →
      Projects java (.array es) (array c) (array c') type (.array values)
  | map (es rs : List (Datum × Datum)) (k v k' v' : Schema) (keyType valueType : JavaType) :
      ProjectsMap java es k v k' v' keyType valueType rs →
      Projects java (.map es) (map k v) (map k' v') (.map keyType valueType) (.map rs)
  | record (ref : Nat) (fs rs : List (String × Datum)) (n m : String)
      (sfs tfs : List (String × Schema)) (type : JavaType) : ProjectsRecord java (record m tfs)
        type fs (getFields (record n sfs)) rs →
      Projects java (.record ref fs) (record n sfs) (record m tfs) type (.record 0 rs)
  | target (d : Datum) (s t : Schema) (ts : List Schema) (type : JavaType) (r : Datum) : t ∈ ts →
      Projects java d s t type r → Projects java d s (union ts) type r
  | source (d : Datum) (ss : List Schema) (s t : Schema) (type : JavaType) (r : Datum) :
      ss[unionIndex d]? = some s → Projects java d s t type r → Projects java d (union ss) t type r

inductive ProjectsArray (java : Java) : List Datum → Schema → Schema → JavaType → List Datum → Prop
  | nil (c c' : Schema) (component : JavaType) : ProjectsArray java [] c c' component []
  | cons (d r : Datum) (ds rs : List Datum) (c c' : Schema) (component : JavaType) :
      Projects java d c c' component r → ProjectsArray java ds c c' component rs →
        ProjectsArray java (d :: ds) c c' component (r :: rs)

inductive ProjectsMap (java : Java) : List (Datum × Datum) → Schema → Schema → Schema → Schema →
    JavaType → JavaType → List (Datum × Datum) → Prop
  | nil (k v k' v' : Schema) (keyType valueType : JavaType) : ProjectsMap java [] k v k' v'
      keyType valueType []
  | cons (dk dv rk rv : Datum) (es rs : List (Datum × Datum)) (k v k' v' : Schema)
      (keyType valueType : JavaType) : Projects java dk k k' keyType rk →
        Projects java dv v v' valueType rv →
      ProjectsMap java es k v k' v' keyType valueType rs →
      ProjectsMap java ((dk, dv) :: es) k v k' v' keyType valueType ((rk, rv) :: rs)

inductive ProjectsRecord (java : Java) : Schema → JavaType → List (String × Datum) →
    List (String × Schema) → List (String × Datum) → Prop
  | nil (t : Schema) (type : JavaType) : ProjectsRecord java t type [] [] []
  | drop (t : Schema) (type : JavaType) (m : String) (d : Datum) (s : Schema)
      (fs rs : List (String × Datum)) (sfs : List (String × Schema)) : t.getFields.lookup m = none →
        ProjectsRecord java t type fs sfs rs →
      ProjectsRecord java t type ((m, d) :: fs) ((m, s) :: sfs) rs
  | keep (t : Schema) (type fieldType : JavaType) (m : String) (d r value : Datum) (s t' : Schema)
      (fs rs : List (String × Datum)) (sfs : List (String × Schema)) :
        t.getFields.lookup m = some t' →
      (java.fields type).lookup m = some fieldType → Projects java d s t' fieldType r →
      java.set type m fieldType r = some value → ProjectsRecord java t type fs sfs rs →
      ProjectsRecord java t type ((m, d) :: fs) ((m, s) :: sfs) ((m, value) :: rs)

end

theorem projects_target (hobject : ∀ t type r, resolveObject java d s t type = .value r →
    Projects java d s t type r) (t : Schema) (type : JavaType) (r : Datum)
      (h : resolveTarget (resolveObject java d) s t type = .value r) :
    Projects java d s t type r := by
  cases t with
  | union ts =>
    obtain ⟨t, ht, hr⟩ := List.mem_map.mp (Outcome.mem_of_first h)
    exact Projects.target d s t ts type r ht (hobject t type r hr)
  | _ => exact hobject _ type r h

theorem mem_candidates {t : Schema} {ts : List Schema} {idx : BitVec 32}
    (h : t ∈ candidates s idx ts) : t ∈ ts := by
  unfold candidates at h
  split at h
  · exact h
  · rename_i t₀ hat
    split at h
    · rcases List.mem_cons.mp h with rfl | h
      · rw [atIndex] at hat
        split at hat
        · exact List.mem_of_getElem? hat
        · cases hat
      · exact h
    · exact h

theorem projects_index {type : JavaType}
    (h : ∀ t r, resolve java d s t type = .value r → Projects java d s t type r) (idx : BitVec 32)
    (t : Schema) (r : Datum)
    (hr : resolveIndex (fun t ↦ resolve java d s t type) s idx t = .value r) :
      Projects java d s t type r := by
  cases t with
  | union ts =>
    obtain ⟨t, ht, hr⟩ := List.mem_map.mp (Outcome.mem_of_first hr)
    exact Projects.target d s t ts type r (mem_candidates ht) (h t r hr)
  | _ => exact h _ r hr

theorem projects_leaf {t : Schema} {type : JavaType} {r : Datum}
    (h : resolveLeaf java d s t type = .value r) : Projects java d s t type r := by
  cases s with
  | simple source =>
    cases source with
    | null =>
      cases t with
      | simple t => cases t <;> cases h; exact Projects.null d type
      | _ => cases h
    | bytes =>
      cases hbs : d.bytesValue with
      | ok bs =>
        simp only [resolveLeaf, hbs] at h
        cases t with
        | simple t => cases t <;> cases h; exact Projects.bytes d bs type hbs
        | _ => cases h
      | error e =>
        simp only [resolveLeaf, hbs] at h
        cases h
    | _ => exact Projects.simple d _ t type r h
  | enum vs =>
    cases d with
    | enum value =>
      cases t with
      | enum ws =>
        have hvalue : resolveEnum java value (.enum ws) type = .value r := Outcome.after_eq_value h
        by_cases hw : value ∈ ws
        · simp only [resolveEnum, if_pos hw] at hvalue
          exact Projects.enum value vs ws type r hw (Outcome.eq_some_of_ofOption hvalue)
        · simp only [resolveEnum, if_neg hw] at hvalue
          cases hvalue
      | _ => cases h
    | _ => cases h
  | _ => cases h

mutual

/-- **What becomes of a datum, if it is a value, is a projection.** -/
theorem projects_of_resolve : ∀ {d : Datum} {s : Schema} {l : List UInt8}, Encodes container d s l →
    ∀ java : Java, ∀ t type r, resolve java d s t type = .value r → Projects java d s t type r
  | _, _, _, .nothing d, java =>
    projects_target fun t type r h ↦ projects_leaf (by cases d <;> exact h)
  | _, _, _, .boolean _, java => projects_target fun t type r h ↦ projects_leaf h
  | _, _, _, .int d _ _, java =>
    projects_target fun t type r h ↦ projects_leaf (by cases d <;> exact h)
  | _, _, _, .long d _ _, java =>
    projects_target fun t type r h ↦ projects_leaf (by cases d <;> exact h)
  | _, _, _, .float _, java => projects_target fun t type r h ↦ projects_leaf h
  | _, _, _, .double _, java => projects_target fun t type r h ↦ projects_leaf h
  | _, _, _, .bytes d _ _ _, java =>
    projects_target fun t type r h ↦ projects_leaf (by cases d <;> exact h)
  | _, _, _, .string d _ _ _, java =>
    projects_target fun t type r h ↦ projects_leaf (by cases d <;> exact h)
  | _, _, _, .enum _ _ _ _, java => projects_target fun t type r h ↦ projects_leaf h
  | _, _, _, .array es c l _ _ hes, java => projects_target fun t type r h ↦ by
    cases t with
    | array c' =>
      cases hcomponent : componentType type with
      | none =>
        simp only [resolveObject, hcomponent] at h
        cases h
      | some component =>
        simp only [resolveObject, hcomponent] at h
        obtain ⟨rs, hrs, h⟩ := Outcome.exists_of_andThen_eq_value h
        obtain ⟨values, hvalues, rfl⟩ := Outcome.exists_of_map_eq_value h
        exact Projects.array es rs values c c' type component hcomponent
          (projects_of_resolveArray hes java c' component rs (Outcome.after_eq_value hrs))
          (Outcome.eq_some_of_ofOption hvalues)
    | _ => exact projects_leaf h
  | _, _, _, .map es k v l _ _ hes, java => projects_target fun t type r h ↦ by
    cases t with
    | map k' v' =>
      cases type with
      | map keyType valueType =>
        obtain ⟨rs, hrs, rfl⟩ := Outcome.exists_of_map_eq_value h
        exact Projects.map es rs k v k' v' keyType valueType
          (projects_of_resolveMap hes java k' v' keyType valueType rs (Outcome.after_eq_value hrs))
      | unsupported isMap => cases isMap <;> cases h
      | _ => cases h
    | _ => exact projects_leaf h
  | _, _, _, .record ref fs n sfs l hfs, java => projects_target fun t type r h ↦ by
    cases t with
    | record m tfs =>
      simp only [resolveObject] at h
      split at h
      · cases ho : resolveRecord java (record m tfs) type fs (getFields (record n sfs)) with
        | value rs =>
          rw [ho] at h
          cases h
          exact Projects.record ref fs rs n m sfs tfs type
            (projects_of_resolveRecord hfs java _ _ rs ho)
        | _ =>
          rw [ho] at h
          cases h
      · cases h
    | _ => exact projects_leaf h
  | _, _, _, .union d ss s l hs hnull hd, java => fun t type r h ↦ by
    rw [resolve_union hs hnull java t type] at h
    exact Projects.source d ss s t type r hs
      (projects_index (fun t r ↦ projects_of_resolve hd java t type r) _ t r
        (Outcome.after_eq_value h))

theorem projects_of_resolveArray : ∀ {es : List Datum} {c : Schema} {l : List UInt8},
    EncodesArray container es c l → ∀ java : Java, ∀ c' component rs,
      resolveArray java es c c' component = .value rs → ProjectsArray java es c c' component rs
  | _, _, _, .nil c, java => fun c' component rs h ↦ by
    cases h
    exact ProjectsArray.nil c c' component
  | _, _, _, .cons d ds c l l' hd hds, java => fun c' component rs h ↦ by
    obtain ⟨r, hr, h⟩ := Outcome.exists_of_andThen_eq_value h
    obtain ⟨rs, hrs, rfl⟩ := Outcome.exists_of_map_eq_value h
    exact ProjectsArray.cons d r ds rs c c' component
      (projects_of_resolve hd java c' component r hr)
      (projects_of_resolveArray hds java c' component rs hrs)

theorem projects_of_resolveMap : ∀ {es : List (Datum × Datum)} {k v : Schema} {l : List UInt8},
    EncodesMap container es k v l → ∀ java : Java, ∀ k' v' keyType valueType rs,
      resolveMap java es k v k' v' keyType valueType = .value rs →
        ProjectsMap java es k v k' v' keyType valueType rs
  | _, _, _, _, .nil k v, java => fun k' v' keyType valueType rs h ↦ by
    cases h
    exact ProjectsMap.nil k v k' v' keyType valueType
  | _, _, _, _, .cons dk dv es k v l l' l'' hdk hdv hes, java =>
    fun k' v' keyType valueType rs h ↦ by
    obtain ⟨r, hr, h⟩ := Outcome.exists_of_andThen_eq_value h
    obtain ⟨rs, hrs, rfl⟩ := Outcome.exists_of_map_eq_value h
    obtain ⟨rk, hrk, hr⟩ := Outcome.exists_of_andThen_eq_value hr
    obtain ⟨rv, hrv, rfl⟩ := Outcome.exists_of_map_eq_value hr
    exact ProjectsMap.cons dk dv rk rv es rs k v k' v' keyType valueType
      (projects_of_resolve hdk java k' keyType rk hrk)
      (projects_of_resolve hdv java v' valueType rv hrv)
      (projects_of_resolveMap hes java k' v' keyType valueType rs hrs)

theorem projects_of_resolveRecord : ∀ {fs : List (String × Datum)} {sfs : List (String × Schema)}
    {l : List UInt8}, EncodesRecord container fs sfs l → ∀ java : Java, ∀ t type rs,
      resolveRecord java t type fs sfs = .value rs → ProjectsRecord java t type fs sfs rs
  | _, _, _, .nil, java => fun t type rs h ↦ by
    cases h
    exact ProjectsRecord.nil t type
  | _, _, _, .cons m d s fs sfs l l' hd hfs, java => fun t type rs h ↦ by
    unfold resolveRecord at h
    cases ht : t.getFields.lookup m with
    | none =>
      simp only [ht] at h
      split at h
      · exact ProjectsRecord.drop t type m d s fs rs sfs ht
          (projects_of_resolveRecord hfs java t type rs (Outcome.after_eq_value h))
      · cases h
    | some t' =>
      cases htype : (java.fields type).lookup m with
      | none =>
        simp only [ht, htype] at h
        cases h
      | some fieldType =>
        simp only [ht, htype] at h
        obtain ⟨r, hr, h⟩ := Outcome.exists_of_andThen_eq_value h
        obtain ⟨value, hvalue, h⟩ := Outcome.exists_of_andThen_eq_value h
        obtain ⟨rs, hrs, rfl⟩ := Outcome.exists_of_map_eq_value h
        exact ProjectsRecord.keep t type fieldType m d r value s t' fs rs sfs ht htype
          (projects_of_resolve hd java t' fieldType r hr) (Outcome.eq_some_of_ofOption hvalue)
          (projects_of_resolveRecord hfs java t type rs hrs)

end

/-! ## Consistency -/

/-- A datum is read consistently: if something comes out, it is a projection and all bytes have been
taken, and each schema of a union that was rejected had not taken anything, and had raised an
`IOException`. -/
def Consistent (java : Java) (d : Datum) (s t : Schema) (type : JavaType) (l : List UInt8) : Prop :=
  ∀ᶠ fuel in atTop, ∀ rest,
    (∀ r rest', read java fuel s t type (l ++ rest) = .ok r rest' → Projects java d s t type r ∧
      rest' = rest) ∧ ∀ rest', readWith java watchNext fuel s t type (l ++ rest) ≠
        .error .spoiled rest'

end Tigon.ReflectionDatum
