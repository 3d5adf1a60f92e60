import Tigon.Io.DatumReader

/-!
# Data that come back

A datum that fits the class of the object to be made is read under the schema it was written with,
and comes out as it was.

To fit a class means to be an object of it, so that it can be stored again: `store_of_fits` says
that storing does not fail, nor convert anything.

The lemmas are about what was written with anything behind it, as `Reads` has it.  In this way the
values in arrays, maps and records are read one behind the other.
-/

set_option autoImplicit false

namespace Tigon.ReflectionDatum

open Io Schema Decoder
open Filter (atTop eventually_atTop eventually_ge_atTop)

/-! ## Data of a class -/

mutual

/-- The datum, with the identity that new records have. -/
def Datum.anonymous : Datum → Datum
  | .array es => .array (anonymousArray es)
  | .map es => .map (anonymousMap es)
  | .record _ fs => .record 0 (anonymousRecord fs)
  | d => d

def Datum.anonymousArray : List Datum → List Datum
  | [] => []
  | d :: ds => d.anonymous :: anonymousArray ds

def Datum.anonymousMap : List (Datum × Datum) → List (Datum × Datum)
  | [] => []
  | (k, v) :: es => (k.anonymous, v.anonymous) :: anonymousMap es

def Datum.anonymousRecord : List (String × Datum) → List (String × Datum)
  | [] => []
  | (n, d) :: fs => (n, d.anonymous) :: anonymousRecord fs

end

/-- The text of a `URI` or `URL` is one. -/
def TextFits (java : Java) : Datum → Prop
  | .uri s => java.isUri s = true
  | .url s => java.isUrl s = true
  | _ => True

mutual

/-- A datum of a schema is an object of a class. -/
inductive Fits (java : Java) : Datum → Schema → JavaType → Prop
  | null (type : JavaType) : type.isPrimitive = false → Fits java .null (simple .null) type
  | simple (d : Datum) (t : SimpleType) (cls : SimpleClass) (primitive : Bool) :
      d.simpleClass = some cls → cls.schema = t → TextFits java d → Fits java d (simple t)
        (.simple cls primitive)
  | enum (value : String) (vs constants : List String) : value ∈ constants →
      Fits java (.enum value) (enum vs) (.enum constants)
  | array (es : List Datum) (c : Schema) (type component : JavaType) : componentType type =
      some component → (∀ e ∈ es, Fits java e c component) → Fits java (.array es) (array c) type
  | map (es : List (Datum × Datum)) (k v : Schema) (keyType valueType : JavaType) :
      (∀ e ∈ es, Fits java e.1 k keyType) → (∀ e ∈ es, Fits java e.2 v valueType) →
      Fits java (.map es) (map k v) (.map keyType valueType)
  | record (ref : Nat) (fs : List (String × Datum)) (n : String) (sfs : List (String × Schema))
      (cls : String) : FitsRecord java (getFields (record n sfs)) (.record cls)
        fs (getFields (record n sfs)) →
      Fits java (.record ref fs) (record n sfs) (.record cls)
  | union (d : Datum) (ss : List Schema) (s : Schema) (type : JavaType) :
      ss[unionIndex d]? = some s → Fits java d s type → Fits java d (union ss) type

/-- The fields, each of which is a field of the target, and of the class for a type variable. -/
inductive FitsRecord (java : Java) : List (String × Schema) → JavaType → List (String × Datum) →
    List (String × Schema) → Prop
  | nil (target : List (String × Schema)) (type : JavaType) : FitsRecord java target type [] []
  | cons (target : List (String × Schema)) (type fieldType : JavaType) (n : String)
      (d : Datum) (s : Schema) (fs : List (String × Datum)) (sfs : List (String × Schema)) :
        target.lookup n = some s →
      (java.fields type).lookup n = some fieldType → Fits java d s fieldType →
      (∀ cls, java.declared type n = some cls → java.isInstance cls d.anonymous = true) →
      FitsRecord java target type fs sfs →
      FitsRecord java target type ((n, d) :: fs) ((n, s) :: sfs)

end

open Datum

/-! ## Storing what fits -/

variable {container : Nat → List Schema → Prop} {java : Java} {d : Datum} {s c k v : Schema}
  {l l' : List UInt8}

theorem setWidth_signExtend {v w : Nat} (h : w ≤ v) (b : BitVec w) :
    (b.signExtend v).setWidth w = b := by
  ext i hi
  rw [BitVec.getElem_setWidth, BitVec.getLsbD_signExtend]
  simp [hi, Nat.lt_of_lt_of_le hi h]

variable {cls : SimpleClass}

theorem anonymous_of_simpleClass (h : d.simpleClass = some cls) : d.anonymous = d := by
  cases d <;> first | rfl | cases h

theorem store_of_simpleClass (h : d.simpleClass = some cls) (java : Java)
    (primitive : Bool) : java.store (.simple cls primitive) d = some d := by
  cases primitive with
  | true =>
    show java.unbox cls d = some d
    unfold Java.unbox
    rw [if_pos h]
  | false =>
    have hobject : java.isObject (.simple cls false) d = true := by
      cases d <;> first | exact decide_eq_true h | cases h
    show (if java.isObject (.simple cls false) d then some d else none) = some d
    rw [if_pos hobject]

/-- **An object of the class is stored as it is.** -/
theorem store_of_fits : ∀ {d : Datum} {s : Schema} {type : JavaType}, Fits java d s type →
    java.store type d.anonymous = some d.anonymous
  | _, _, type, .null _ hprimitive => by
    cases type with
    | simple cls primitive =>
      obtain rfl : primitive = false := hprimitive
      rfl
    | _ => rfl
  | _, _, _, .simple d _ cls primitive hcls _ _ => by
    rw [anonymous_of_simpleClass hcls]
    exact store_of_simpleClass hcls java primitive
  | _, _, _, .enum _ _ _ _ => rfl
  | _, _, type, .array _ _ _ component hcomponent _ => by
    cases type with
    | simple cls primitive =>
      cases cls <;> cases primitive <;> first | rfl | cases hcomponent
    | _ => rfl
  | _, _, _, .map _ _ _ _ _ _ _ => rfl
  | _, _, _, .record _ _ _ _ _ _ => rfl
  | _, _, _, .union _ _ _ _ _ hfits => store_of_fits hfits

theorem set_of_fits {type fieldType : JavaType} {n : String} (h : Fits java d s fieldType)
    (hdeclared : ∀ cls, java.declared type n = some cls → java.isInstance cls d.anonymous = true) :
    java.set type n fieldType d.anonymous = some d.anonymous := by
  unfold Java.set
  cases hcls : java.declared type n with
  | none => exact store_of_fits h
  | some cls => exact if_pos (by rw [hdeclared cls hcls, Bool.or_true])

theorem setAll_of_fits (type : JavaType) {component : JavaType} {es : List Datum}
    (h : ∀ e ∈ es, Fits java e c component) :
    java.setAll type component (anonymousArray es) = some (anonymousArray es) := by
  unfold Java.setAll
  split
  · induction es with
    | nil => rfl
    | cons e es ih =>
      rw [anonymousArray, List.mapM_cons, store_of_fits (h e List.mem_cons_self),
        ih fun e' he' ↦ h e' (List.mem_cons_of_mem e he')]
      rfl
  · rfl

/-! ## Containers -/

theorem reads_readBlocks_zero {α : Type} (item : ByteDecoder α) (rounds : Nat) :
    Reads (readBlocks item (rounds + 1) 0) [] [] := by
  rw [readBlocks, if_pos rfl]
  exact reads_pure []

/-- One block, or none. -/
theorem reads_readItems {α : Type} {item : ByteDecoder α} {as : List α} (hsize : as.length < 2 ^ 31)
    (hitems : Reads ((List.replicate as.length ()).mapM fun _ ↦ item) l as) (rounds : Nat) :
    Reads (readItems (rounds + 1) item) (blocks as.length l) as := by
  refine (reads_readInt _).bind ?_
  by_cases hzero : as.length = 0
  · obtain rfl : as = [] := List.length_eq_zero_iff.mp hzero
    have hl : l = [] := by
      have h := hitems []
      rw [List.append_nil] at h
      show l = []
      injection h
    subst hl
    exact reads_readBlocks_zero item (rounds + 1)
  · have hne : BitVec.ofNat 32 as.length ≠ 0 := by
      intro h
      have hnat := congrArg BitVec.toNat h
      rw [Io.toNat_ofNat (by decide) hsize] at hnat
      exact hzero hnat
    rw [readBlocks, if_neg hne, if_neg hzero, Io.toInt_ofNat (by decide) hsize, Int.toNat_natCast]
    refine hitems.bind ?_
    have h := (reads_readInt 0).bind (f := fun len ↦ do
      let rest ← readBlocks item (rounds + 1) len
      return as ++ rest) ((reads_readBlocks_zero item rounds).map fun rest ↦ as ++ rest)
    rwa [List.append_nil, List.append_nil] at h

/-- The first schema is that of the datum. -/
theorem reads_firstOf {p : ByteDecoder Datum} {ps : List (ByteDecoder Datum)} (h : Reads p l d) :
    Reads (firstOf tryNext Exc.io (p :: ps)) l d := by
  intro rest
  exact catching_of_ok (h rest)

/-! ## Reading back -/

theorem anonymousArray_length (es : List Datum) : (anonymousArray es).length = es.length := by
  induction es with
  | nil => rfl
  | cons e es ih => rw [anonymousArray, List.length_cons, ih, List.length_cons]

theorem anonymousMap_length (es : List (Datum × Datum)) : (anonymousMap es).length = es.length := by
  induction es with
  | nil => rfl
  | cons e es ih => rw [anonymousMap, List.length_cons, ih, List.length_cons]

theorem reads_convertString {str : String} (hcls : d.simpleClass = some cls)
    (hstr : d.stringValue = .ok str) (h : TextFits java d) (primitive : Bool) :
    Reads (convertString java (.simple cls primitive) str) [] d := by
  cases d <;> first | (cases hstr; done) | skip
  all_goals
    cases hstr
    cases hcls
    first | exact reads_pure _ | skip
  all_goals
    unfold TextFits at h
    unfold convertString
    rw [if_pos h]
    exact reads_pure _

theorem convertInt_of_simpleClass {i : BitVec 32} (hcls : d.simpleClass = some cls)
    (hi : d.intValue = .ok i) (hschema : cls.schema = .int) (primitive : Bool) :
    convertInt (.simple cls primitive) i = d := by
  cases d <;> first | (cases hi; done) | skip
  all_goals
    cases hcls
    cases hi
    first | rfl | (cases hschema; done) | skip
  · exact congrArg Datum.byte (setWidth_signExtend (by decide) _)
  · exact congrArg Datum.short (setWidth_signExtend (by decide) _)

theorem convertBytes_of_simpleClass {bs : List UInt8} (hcls : d.simpleClass = some cls)
    (hbs : d.bytesValue = .ok bs) (primitive : Bool) :
      convertBytes (.simple cls primitive) bs = d := by
  cases d <;> first | (cases hbs; done) | skip
  all_goals
    cases hcls
    cases hbs
    first | rfl | skip
  rename_i bs
  exact dif_pos bs.2

/-- `read` when there is no union. -/
theorem read_succ {source target : Schema} (hs : isUnion target = false) (java : Java) (fuel : Nat)
    (type : JavaType) : read java (fuel + 1) source target type = doRead java tryNext fuel
    (read java fuel) source target type := by
  show readWith java tryNext (fuel + 1) source target type = _
  cases target with
  | union ts => cases hs
  | _ =>
    rw [readWith]
    · rfl
    · exact fun ts _ h ↦ by cases h

/-- The schema of a value of a union is the first one that is tried. -/
theorem reads_read_union {ss : List Schema} {fuel : Nat} {type : JavaType} {r : Datum}
    (hs : ss[unionIndex d]? = some s) (h : Reads (read java fuel s s type) l r) :
    Reads (read java (fuel + 1) (union ss) (union ss) type)
      (writeInt (BitVec.ofNat 32 (unionIndex d)) ++ l) r := by
  show Reads (readUnion tryNext (read java fuel) ss (union ss) type) _ _
  rw [readUnion]
  refine (reads_readInt _).bind ?_
  have hat : atIndex ss (BitVec.ofNat 32 (unionIndex d)) = some s :=
    by rw [atIndex_ofNat ss (unionIndex_lt d), hs]
  rw [hat]
  show Reads (firstOf tryNext Exc.io ((candidates s _ ss).map fun t ↦ read java fuel s t type)) l r
  unfold candidates
  rw [hat]
  show Reads (firstOf tryNext Exc.io ((if getType s = getType s then s :: ss else ss).map _)) l r
  rw [if_pos rfl, List.map_cons]
  exact reads_firstOf h

/-- A field that the target has. -/
theorem reads_readFields_cons {fuel : Nat} {read : Schema → Schema → JavaType → ByteDecoder Datum}
    {target t : Schema} {type fieldType : JavaType} {n : String} {r : Datum}
    {sfs : List (String × Schema)} {rs : List (String × Datum)}
    (ht : target.getFields.lookup n = some t) (htype : (java.fields type).lookup n = some fieldType)
    (hd : Reads (read s t fieldType) l r) (hset : java.set type n fieldType r = some r)
    (hfs : Reads (readFields java fuel read target type sfs) l' rs) :
    Reads (readFields java fuel read target type ((n, s) :: sfs)) (l ++ l') ((n, r) :: rs) := by
  simp only [readFields, ht, htype]
  refine hd.bind ?_
  rw [hset]
  exact (reads_pure r).bind (hfs.map fun rs ↦ (n, r) :: rs)

/-- The rounds that `readBlocks` is given. -/
theorem exists_rounds {fuel : Nat} (h : 1 ≤ fuel) : ∃ rounds, fuel = rounds + 1 :=
  ⟨fuel - 1, by omega⟩

theorem propagating_of_reads {α : Type} {p : ByteDecoder α} {a : α} (h : Reads p l a) :
    Reads (propagating p) l a := by
  intro rest
  rw [propagating, h rest]

mutual

/-- **A datum that fits the class is read as it was written.** -/
theorem reads_read : ∀ {d : Datum} {s : Schema} {l : List UInt8}, Encodes container d s l →
    ∀ {type : JavaType}, Fits java d s type → ∀ᶠ fuel in atTop,
      Reads (read java fuel s s type) l d.anonymous
  | _, _, _, .nothing _, type, hfit => by
    refine eventually_of_forall_succ fun fuel ↦ ?_
    rw [read_succ rfl]
    cases hfit with
    | null => exact reads_pure _
    | simple _ _ cls _ _ hschema => cases cls <;> cases hschema
  | _, _, _, .boolean b, type, _ => by
    refine eventually_of_forall_succ fun fuel ↦ ?_
    rw [read_succ rfl]
    exact (reads_readBool b).map _
  | _, _, _, .int d i hi, type, hfit => by
    refine eventually_of_forall_succ fun fuel ↦ ?_
    rw [read_succ rfl]
    cases hfit with
    | simple _ _ cls primitive hcls hschema =>
      have hread := (reads_readInt i).map (convertInt (.simple cls primitive))
      rw [convertInt_of_simpleClass hcls hi hschema] at hread
      rwa [anonymous_of_simpleClass hcls]
  | _, _, _, .long d i hi, type, hfit => by
    refine eventually_of_forall_succ fun fuel ↦ ?_
    rw [read_succ rfl]
    cases hfit with
    | simple _ _ cls primitive hcls hschema =>
      cases d <;> first | (cases hi; done) | (cases hcls; cases hschema; done) | skip
      cases hi
      exact (reads_readLong i).map _
  | _, _, _, .float bits, type, _ => by
    refine eventually_of_forall_succ fun fuel ↦ ?_
    rw [read_succ rfl]
    exact (reads_readBits bits).map _
  | _, _, _, .double bits, type, _ => by
    refine eventually_of_forall_succ fun fuel ↦ ?_
    rw [read_succ rfl]
    exact (reads_readDouble bits).map _
  | _, _, _, .bytes d bs hbs hlen, type, hfit => by
    refine eventually_of_forall_succ fun fuel ↦ ?_
    rw [read_succ rfl]
    cases hfit with
    | simple _ _ cls primitive hcls =>
      have hread := (reads_rawReadBytes hlen).map (convertBytes (.simple cls primitive))
      rw [convertBytes_of_simpleClass hcls hbs] at hread
      rwa [anonymous_of_simpleClass hcls]
  | _, _, _, .string d str hstr hlen, type, hfit => by
    refine eventually_of_forall_succ fun fuel ↦ ?_
    rw [read_succ rfl]
    cases hfit with
    | simple _ _ cls primitive hcls _ htext =>
      rw [anonymous_of_simpleClass hcls]
      exact (reads_readString hlen).bind_nil (reads_convertString hcls hstr htext primitive)
  | _, _, _, .enum value vs hmem hlen, type, hfit => by
    refine eventually_of_forall_succ fun fuel ↦ ?_
    rw [read_succ rfl]
    cases hfit with
    | enum _ _ constants hconstant =>
      have hidx : vs.idxOf value < vs.length := List.idxOf_lt_length_of_mem hmem
      have hat : atIndex vs (BitVec.ofNat 32 (vs.idxOf value)) = some value := by
        rw [atIndex_ofNat vs (by omega), List.getElem?_eq_getElem hidx, List.getElem_idxOf]
      refine (reads_readInt _).bind_nil ?_
      show Reads (enumValueOf java vs (.enum vs) (.enum constants) _) [] _
      rw [enumValueOf, hat]
      show Reads (if value ∈ vs then orThrow .io (java.invokeValueOf (.enum constants) value)
        else throw Exc.io : ByteDecoder Datum) [] _
      rw [if_pos hmem, Java.invokeValueOf, if_pos hconstant]
      exact reads_pure _
  | _, _, _, .array es c l hsize _ hes, type, hfit => by
    cases hfit with
    | array _ _ _ component hcomponent hfits =>
      have hitems := reads_readArray hes hfits
      refine eventually_of_succ (hitems.and (eventually_ge_atTop 1)) fun fuel h ↦ ?_
      obtain ⟨rounds, rfl⟩ := exists_rounds h.2
      rw [read_succ rfl]
      show Reads (readArray java (rounds + 1) (read java (rounds + 1)) c c type) _ _
      rw [readArray, hcomponent, ← anonymousArray_length]
      rw [← anonymousArray_length] at h hsize
      refine (reads_readItems hsize h.1 rounds).bind_nil ?_
      rw [setAll_of_fits type hfits]
      exact reads_pure _
  | _, _, _, .map es k v l hsize _ hes, type, hfit => by
    cases hfit with
    | map _ _ _ keyType valueType hkeys hvalues =>
      have hitems := reads_readMap hes hkeys hvalues
      refine eventually_of_succ (hitems.and (eventually_ge_atTop 1)) fun fuel h ↦ ?_
      obtain ⟨rounds, rfl⟩ := exists_rounds h.2
      rw [read_succ rfl]
      show Reads (readMap (rounds + 1) (read java (rounds + 1)) k v k v (.map keyType valueType))
        _ _
      rw [readMap, ← anonymousMap_length]
      rw [← anonymousMap_length] at h hsize
      exact (reads_readItems hsize h.1 rounds).map Datum.map
  | _, _, _, .record ref fs n sfs l hfs, type, hfit => by
    cases hfit with
    | record _ _ _ _ cls hfits =>
      refine eventually_of_succ (reads_readRecord hfs hfits) fun fuel h ↦ ?_
      rw [read_succ rfl]
      exact propagating_of_reads ((h (record n sfs) rfl).map _)
  | _, _, _, .union d ss s l hs _ hd, type, hfit => by
    cases hfit with
    | union _ _ s' _ hs' hfits =>
      obtain rfl : s = s' := Option.some.inj (hs.symm.trans hs')
      exact eventually_of_succ (reads_read hd hfits) fun fuel h ↦ reads_read_union hs h

theorem reads_readArray : ∀ {es : List Datum} {c : Schema} {l : List UInt8},
    EncodesArray container es c l → ∀ {component : JavaType}, (∀ e ∈ es, Fits java e c component) →
      ∀ᶠ fuel in atTop, Reads ((List.replicate es.length ()).mapM fun _ ↦ read java fuel c
        c component) l (anonymousArray es)
  | _, _, _, .nil _, _, _ => Filter.Eventually.of_forall fun _ ↦ reads_pure _
  | _, _, _, .cons d ds c l l' hd hds, component, hfits => by
    filter_upwards [reads_read hd (hfits d List.mem_cons_self),
      reads_readArray hds fun e he ↦ hfits e (List.mem_cons_of_mem d he)] with fuel h h'
    rw [List.length_cons, List.replicate_succ, List.mapM_cons]
    exact h.bind (h'.map _)

theorem reads_readMap : ∀ {es : List (Datum × Datum)} {k v : Schema} {l : List UInt8},
    EncodesMap container es k v l → ∀ {keyType valueType : JavaType},
      (∀ e ∈ es, Fits java e.1 k keyType) → (∀ e ∈ es, Fits java e.2 v valueType) →
        ∀ᶠ fuel in atTop, Reads ((List.replicate es.length ()).mapM fun _ ↦ do
        return (← read java fuel k k keyType, ← read java fuel v v valueType)) l (anonymousMap es)
  | _, _, _, _, .nil _ _, _, _, _, _ => Filter.Eventually.of_forall fun _ ↦ reads_pure _
  | _, _, _, _, .cons dk dv es k v l l' l'' hdk hdv hes, keyType, valueType, hkeys, hvalues => by
    filter_upwards [reads_read hdk (hkeys (dk, dv) List.mem_cons_self),
      reads_read hdv (hvalues (dk, dv) List.mem_cons_self),
      reads_readMap hes (fun e he ↦ hkeys e (List.mem_cons_of_mem _ he)) fun e he ↦
        hvalues e (List.mem_cons_of_mem _ he)] with fuel hk hv h
    rw [List.length_cons, List.replicate_succ, List.mapM_cons, ← List.append_assoc]
    exact (hk.bind (hv.map _)).bind (h.map _)

theorem reads_readRecord : ∀ {fs : List (String × Datum)} {sfs : List (String × Schema)}
    {l : List UInt8}, EncodesRecord container fs sfs l → ∀ {target : List (String × Schema)}
      {type : JavaType}, FitsRecord java target type fs sfs → ∀ᶠ fuel in atTop, ∀ t : Schema,
        t.getFields = target → Reads (readFields java fuel (read java fuel) t type sfs)
          l (anonymousRecord fs)
  | _, _, _, .nil, _, _, _ => Filter.Eventually.of_forall fun _ _ _ ↦ reads_pure _
  | _, _, _, .cons n d s fs sfs l l' hd hfs, target, type, hfits => by
    cases hfits with
    | cons _ _ fieldType _ _ _ _ _ htarget htype hfit hdeclared hrest =>
      filter_upwards [reads_read hd hfit, reads_readRecord hfs hrest] with fuel h h' t ht
      exact reads_readFields_cons (ht ▸ htarget) htype h (set_of_fits hfit hdeclared) (h' t ht)

end

end Tigon.ReflectionDatum
