import Tigon.Io.Schema

/-!
# Schemas of classes

`AbstractSchemaGenerator` makes the schema of a class from its fields.  It goes into the classes of
the fields with the set of classes it is in, and where one of these comes up again it puts a record
with a name only.  The constructor of the record around it is to resolve the name.  But it only
knows its own name, and the one that comes up may be further out: the class `A` with a field of
class `B`, which has a field of class `A`.

## What is here

* `Classes` — the graph of classes, as reflection finds it.
* `doGenerate`, `generateRecord`, `generate` — the generator.
* `generateRecord_succ` — one class: there is a schema if **its own name is the only one** of those
  around it.
* `exists_generateRecord_iff` — the recursion, seen from the graph.
* `generatesSchemas_iff` — there are schemas with all fields, and recursion is found where it is to
  be rejected,
  **exactly if** there are no cycles through two classes, and no classes without fields.
* `not_generatesSchemas_twoClasses` — the two classes above.
-/

set_option autoImplicit false

namespace Tigon.Io

open Schema

/-! ## Types -/

/-- The classes in `SIMPLE_SCHEMAS`; the primitive ones are there as well as their wrappers. -/
inductive SimpleClass
  | boolean
  | byte
  | char
  | short
  | int
  | long
  | float
  | double
  | string
  | byteArray
  | byteBuffer
  | uri
  | url
  | uuid
deriving DecidableEq

def SimpleClass.schema : SimpleClass → SimpleType
  | boolean => .boolean
  | byte => .int
  | char => .int
  | short => .int
  | int => .int
  | long => .long
  | float => .float
  | double => .double
  | string => .string
  | byteArray => .bytes
  | byteBuffer => .bytes
  | uri => .string
  | url => .string
  | uuid => .bytes

/-- A Java type; type variables are replaced.  `unsupported` are wildcards, and collections and maps
without type arguments, of which the maps are told apart.  Any other class is given by its name. -/
inductive JavaType
  | simple (cls : SimpleClass) (primitive : Bool)
  | enum (constants : List String)
  | array (component : JavaType)
  | collection (component : JavaType)
  | map (key value : JavaType)
  | record (cls : String)
  | unsupported (isMap : Bool)

def JavaType.isPrimitive : JavaType → Bool
  | simple _ primitive => primitive
  | _ => false

/-- The classes in a type. -/
def JavaType.refs : JavaType → List String
  | simple _ _ => []
  | enum _ => []
  | array c => c.refs
  | collection c => c.refs
  | map k v => k.refs ++ v.refs
  | record cls => [cls]
  | unsupported _ => []

/-- Classes, with the fields that `collectByFields` or `collectByMethods` finds. -/
structure Classes where
  names : List String
  fields : String → List (String × JavaType)
  nonnull : String → Bool
  nodup : ∀ cls, ((fields cls).map Prod.fst).Nodup
  closed : ∀ cls, ∀ f ∈ fields cls, f.2.refs ⊆ names

/-! ## The generator -/

/-- A schema or nothing. -/
def nullable (s : Schema) : Schema := union [s, .simple .null]

/-- `doGenerate`, where the schema of a class that is not known comes from elsewhere. -/
def doGenerate (generateRecord : String → Except SchemaExc Schema) (knownRecords : List String)
    (acceptRecursion : Bool) : JavaType → Except SchemaExc Schema
  | .simple cls _ => .ok (.simple cls.schema)
  | .enum constants => enumWith constants
  | .array c => do
    let s ← doGenerate generateRecord knownRecords acceptRecursion c
    return .array (if c.isPrimitive then s else nullable s)
  | .collection c => do
    let s ← doGenerate generateRecord knownRecords acceptRecursion c
    return .array (nullable s)
  | .map k v => do
    let valueSchema ← doGenerate generateRecord knownRecords acceptRecursion v
    let keySchema ← doGenerate generateRecord knownRecords acceptRecursion k
    return .map keySchema (nullable valueSchema)
  | .record cls =>
    if cls ∈ knownRecords then
      if acceptRecursion then .ok (.reference cls) else .error .unsupportedType
    else generateRecord cls
  | .unsupported _ => .error .unsupportedType

/-- The fields of a class, one after another. -/
def generateFields (generate : JavaType → Except SchemaExc Schema) (nonnull : Bool) :
    List (String × JavaType) → Except SchemaExc (List (String × Schema))
  | [] => .ok []
  | (name, type) :: fieldTypes => do
    let s ← generate type
    return (name, if !type.isPrimitive && !nonnull then nullable s else s) ::
      (← generateFields generate nonnull fieldTypes)

variable (classes : Classes) (acceptRecursion : Bool)

/-- `generateRecord`, to some depth of classes in classes. -/
def generateRecord : Nat → List String → String → Except SchemaExc Schema
  | 0, _, _ => .error .outOfFuel
  | depth + 1, knownRecords, cls => do
    recordOf cls (← generateFields
      (doGenerate (generateRecord depth (cls :: knownRecords)) (cls :: knownRecords)
        acceptRecursion)
      (classes.nonnull cls) (classes.fields cls))

/-- `generate`; a class is not inside itself, so there are at most as many classes inside each other
as there are classes. -/
def generate (type : JavaType) : Except SchemaExc Schema :=
  doGenerate (generateRecord classes acceptRecursion (classes.names.length + 1) [])
    [] acceptRecursion type

/-! ## The graph of classes -/

/-- There is a schema for everything in a type but its classes. -/
def JavaType.Supported : JavaType → Prop
  | simple _ _ => True
  | enum constants => constants ≠ [] ∧ constants.Nodup
  | array c => c.Supported
  | collection c => c.Supported
  | map k v => k.Supported ∧ v.Supported
  | record _ => True
  | unsupported _ => False

/-- One class has a field in which the other one occurs. -/
def Classes.Edge (cls cls' : String) : Prop := ∃ f ∈ classes.fields cls, cls' ∈ f.2.refs

/-- A class has fields, and all of them are supported. -/
def Classes.Supported (cls : String) : Prop := classes.fields cls ≠ [] ∧ ∀ f ∈ classes.fields cls,
    f.2.Supported

/-- The classes below a class, itself included. -/
abbrev Classes.Below : String → String → Prop := Relation.ReflTransGen classes.Edge

/-- The classes below a type. -/
def Classes.Reachable (type : JavaType) (cls : String) : Prop :=
  ∃ c ∈ type.refs, classes.Below c cls

/-! ## One type -/

variable {classes : Classes} {acceptRecursion : Bool} {g : String → Except SchemaExc Schema}
  {known : List String}

/-- The schema of a class is a record, with nothing left to resolve. -/
def Builds (g : String → Except SchemaExc Schema) : Prop :=
  ∀ cls s, g cls = .ok s → s.Resolved ∧ s.references = [] ∧ s.concretes = [cls]

/-- What there has to be for a class in a type. -/
def Allowed (g : String → Except SchemaExc Schema) (known : List String) (acceptRecursion : Bool)
    (cls : String) : Prop :=
  if cls ∈ known then acceptRecursion = true else ∃ s, g cls = .ok s

/-- The schema of a type has the names of the classes that are known. -/
structure Generated (known : List String) (type : JavaType) (s : Schema) : Prop where
  resolvedIn : s.ResolvedIn {n | n ∈ type.refs ∧ n ∈ known}
  mem_references : ∀ n, n ∈ type.refs → n ∈ known → n ∈ s.references
  not_mem_of_mem_concretes : ∀ n ∈ s.concretes, n ∉ known

theorem resolvedIn_nullable {s : Schema} {names : Set String} (h : s.ResolvedIn names) :
    (nullable s).ResolvedIn names := ⟨h, trivial, trivial⟩

theorem references_nullable (s : Schema) : (nullable s).references = s.references := by
  simp [nullable, references, referencesList]

theorem concretes_nullable (s : Schema) : (nullable s).concretes = s.concretes := by
  simp [nullable, concretes, concretesList]

theorem Generated.nullable {type : JavaType} {s : Schema} (h : Generated known type s) :
    Generated known type (Io.nullable s) where
  resolvedIn := resolvedIn_nullable h.resolvedIn
  mem_references n hn hk := (references_nullable s).symm ▸ h.mem_references n hn hk
  not_mem_of_mem_concretes n hn := h.not_mem_of_mem_concretes n (concretes_nullable s ▸ hn)

theorem Generated.array {type type' : JavaType} {s : Schema} (h : Generated known type s)
    (hrefs : type'.refs = type.refs) : Generated known type' (.array s) where
  resolvedIn := by
    rw [hrefs]
    exact h.resolvedIn
  mem_references n hn := h.mem_references n (hrefs ▸ hn)
  not_mem_of_mem_concretes := h.not_mem_of_mem_concretes

theorem Generated.map {key value : JavaType} {k v : Schema} (hk : Generated known key k)
    (hv : Generated known value v) : Generated known (.map key value) (.map k v) where
  resolvedIn := ⟨hk.resolvedIn.mono fun _ hn ↦ And.imp_left (List.mem_append_left _) hn,
    hv.resolvedIn.mono fun _ hn ↦ And.imp_left (List.mem_append_right _) hn⟩
  mem_references n hn hknown := List.mem_append.mpr ((List.mem_append.mp hn).imp
    (fun h ↦ hk.mem_references n h hknown) fun h ↦ hv.mem_references n h hknown)
  not_mem_of_mem_concretes n hn := (List.mem_append.mp hn).elim (hk.not_mem_of_mem_concretes n)
    (hv.not_mem_of_mem_concretes n)

/-- A step that does not fail does not matter for whether there is a result. -/
theorem exists_bind_pure_iff {ε α β : Type} {x : Except ε α} {f : α → β} :
    (∃ b, (do return f (← x)) = Except.ok b) ↔ ∃ a, x = .ok a := by
  cases x with
  | error e => exact iff_of_false (fun ⟨_, h⟩ ↦ (by cases h)) (fun ⟨_, h⟩ ↦ (by cases h))
  | ok a => exact iff_of_true ⟨f a, rfl⟩ ⟨a, rfl⟩

/-- **The schema of a type**: there is one if the type is supported and its classes are allowed. -/
theorem doGenerate_spec (hg : Builds g) (known : List String) (acceptRecursion : Bool)
    (type : JavaType) : (∀ s, doGenerate g known acceptRecursion type = .ok s →
      Generated known type s) ∧ ((∃ s, doGenerate g known acceptRecursion type = .ok s) ↔
        type.Supported ∧ ∀ cls ∈ type.refs, Allowed g known acceptRecursion cls) := by
  induction type with
  | simple cls p =>
    refine ⟨fun s h ↦ ?_, iff_of_true ⟨_, rfl⟩ ⟨trivial, fun c hc ↦ absurd hc List.not_mem_nil⟩⟩
    cases h
    exact ⟨trivial, fun n hn ↦ absurd hn List.not_mem_nil, fun n hn ↦ absurd hn List.not_mem_nil⟩
  | enum constants =>
    rw [doGenerate, enumWith]
    by_cases hc : constants ≠ [] ∧ constants.Nodup
    · rw [if_pos hc]
      refine ⟨fun s h ↦ ?_, iff_of_true ⟨_, rfl⟩ ⟨hc, fun c hc ↦ absurd hc List.not_mem_nil⟩⟩
      cases h
      exact ⟨trivial, fun n hn ↦ absurd hn List.not_mem_nil, fun n hn ↦ absurd hn List.not_mem_nil⟩
    · rw [if_neg hc]
      exact ⟨fun s h ↦ (by cases h), iff_of_false (fun ⟨_, h⟩ ↦ (by cases h)) fun h ↦ hc h.1⟩
  | array c ih =>
    refine ⟨fun s h ↦ ?_, exists_bind_pure_iff.trans ih.2⟩
    obtain ⟨s', hs, h⟩ := except_bind_eq_ok_iff.mp h
    cases h
    have hcomponent : Generated known c (if c.isPrimitive then s' else nullable s') := by
      split
      · exact ih.1 s' hs
      · exact (ih.1 s' hs).nullable
    exact hcomponent.array rfl
  | collection c ih =>
    refine ⟨fun s h ↦ ?_, exists_bind_pure_iff.trans ih.2⟩
    obtain ⟨s', hs, h⟩ := except_bind_eq_ok_iff.mp h
    cases h
    exact (ih.1 s' hs).nullable.array rfl
  | map k v ihk ihv =>
    refine ⟨fun s h ↦ ?_, ?_⟩
    · obtain ⟨v', hv, h⟩ := except_bind_eq_ok_iff.mp h
      obtain ⟨k', hk, h⟩ := except_bind_eq_ok_iff.mp h
      cases h
      exact (ihk.1 k' hk).map (ihv.1 v' hv).nullable
    · have hiff : (∃ s, doGenerate g known acceptRecursion (.map k v) = .ok s) ↔
          (∃ s, doGenerate g known acceptRecursion k = .ok s) ∧
            ∃ s, doGenerate g known acceptRecursion v = .ok s := by
        constructor
        · rintro ⟨s, h⟩
          obtain ⟨v', hv, h⟩ := except_bind_eq_ok_iff.mp h
          obtain ⟨k', hk, -⟩ := except_bind_eq_ok_iff.mp h
          exact ⟨⟨k', hk⟩, v', hv⟩
        · rintro ⟨⟨k', hk⟩, v', hv⟩
          refine ⟨.map k' (nullable v'), ?_⟩
          rw [doGenerate, hk, hv]
          rfl
      rw [hiff, ihk.2, ihv.2, JavaType.refs, List.forall_mem_append]
      exact and_and_and_comm
  | record cls =>
    have hone : (∀ c ∈ (JavaType.record cls).refs, Allowed g known acceptRecursion c) ↔
        Allowed g known acceptRecursion cls := List.forall_mem_singleton
    rw [hone, JavaType.Supported, true_and, doGenerate, Allowed]
    by_cases hk : cls ∈ known
    · rw [if_pos hk, if_pos hk]
      cases acceptRecursion with
      | false =>
        exact ⟨fun s h ↦ (by cases h), iff_of_false (fun ⟨_, h⟩ ↦ (by cases h)) Bool.false_ne_true⟩
      | true =>
        refine ⟨fun s h ↦ ?_, iff_of_true ⟨_, rfl⟩ rfl⟩
        cases h
        exact ⟨⟨List.mem_singleton_self cls, hk⟩, fun n hn _ ↦ hn,
          fun n hn ↦ absurd hn List.not_mem_nil⟩
    · rw [if_neg hk, if_neg hk]
      refine ⟨fun s h ↦ ?_, Iff.rfl⟩
      obtain ⟨hres, -, hconc⟩ := hg cls s h
      refine ⟨hres.mono (Set.empty_subset _), fun n hn hknown ↦ ?_, fun n hn ↦ ?_⟩
      · exact absurd (List.mem_singleton.mp hn ▸ hknown) hk
      · rw [hconc] at hn
        exact List.mem_singleton.mp hn ▸ hk
  | unsupported =>
    exact ⟨fun s h ↦ (by cases h), iff_of_false (fun ⟨_, h⟩ ↦ (by cases h)) fun h ↦ h.1⟩

/-! ## The fields of a class -/

/-- Schemas of fields with these types. -/
structure FieldsOf (P : JavaType → Schema → Prop) (fieldTypes : List (String × JavaType))
    (fs : List (String × Schema)) : Prop where
  names : fs.map Prod.fst = fieldTypes.map Prod.fst
  exists_field : ∀ ft ∈ fieldTypes, ∃ f ∈ fs, P ft.2 f.2
  exists_type : ∀ f ∈ fs, ∃ ft ∈ fieldTypes, P ft.2 f.2

theorem generateFields_spec {generate : JavaType → Except SchemaExc Schema}
    {P : JavaType → Schema → Prop} (hP : ∀ type s, P type s → P type (nullable s))
    (h : ∀ type s, generate type = .ok s → P type s) (nonnull : Bool)
    (fieldTypes : List (String × JavaType)) :
    (∀ fs, generateFields generate nonnull fieldTypes = .ok fs → FieldsOf P fieldTypes fs) ∧
      ((∃ fs, generateFields generate nonnull fieldTypes = .ok fs) ↔
        ∀ ft ∈ fieldTypes, ∃ s, generate ft.2 = .ok s) := by
  induction fieldTypes with
  | nil =>
    refine ⟨fun fs hfs ↦ ?_, iff_of_true ⟨[], rfl⟩ fun _ h ↦ absurd h List.not_mem_nil⟩
    cases hfs
    exact ⟨rfl, fun _ h ↦ absurd h List.not_mem_nil, fun _ h ↦ absurd h List.not_mem_nil⟩
  | cons ft fieldTypes ih =>
    constructor
    · intro fs hfs
      obtain ⟨s, hs, hfs⟩ := except_bind_eq_ok_iff.mp hfs
      obtain ⟨fs', hfs', hfs⟩ := except_bind_eq_ok_iff.mp hfs
      cases hfs
      obtain ⟨hnames, hfield, htype⟩ := ih.1 fs' hfs'
      have hhead : P ft.2 (if !ft.2.isPrimitive && !nonnull then nullable s else s) := by
        split
        · exact hP _ _ (h _ s hs)
        · exact h _ s hs
      refine ⟨congrArg (ft.1 :: ·) hnames,
        List.forall_mem_cons.mpr ⟨⟨_, List.mem_cons_self, hhead⟩, fun t ht ↦ ?_⟩,
          List.forall_mem_cons.mpr ⟨⟨ft, List.mem_cons_self, hhead⟩, fun f hf ↦ ?_⟩⟩
      · obtain ⟨f, hf, hft⟩ := hfield t ht
        exact ⟨f, List.mem_cons_of_mem _ hf, hft⟩
      · obtain ⟨t, ht, hft⟩ := htype f hf
        exact ⟨t, List.mem_cons_of_mem _ ht, hft⟩
    · rw [List.forall_mem_cons, ← ih.2]
      constructor
      · rintro ⟨fs, hfs⟩
        obtain ⟨s, hs, hfs⟩ := except_bind_eq_ok_iff.mp hfs
        obtain ⟨fs', hfs', -⟩ := except_bind_eq_ok_iff.mp hfs
        exact ⟨⟨s, hs⟩, fs', hfs'⟩
      · rintro ⟨⟨s, hs⟩, fs', hfs'⟩
        refine ⟨(ft.1, if !ft.2.isPrimitive && !nonnull then nullable s else s) :: fs', ?_⟩
        rw [generateFields, hs]
        show (generateFields generate nonnull fieldTypes >>= _) = _
        rw [hfs']
        rfl

/-! ## A class -/

theorem recordOf_eq_record {n : String} {fs : List (String × Schema)} {s : Schema}
    (h : recordOf n fs = .ok s) : ∃ fs', s = record n fs' := by
  rw [recordOf] at h
  split at h
  · obtain ⟨fs', -, h⟩ := except_bind_eq_ok_iff.mp h
    cases h
    exact ⟨fs', rfl⟩
  · cases h

variable {cls : String} {depth : Nat}

/-- The next class may be inside a class. -/
def Inside (classes : Classes) (acceptRecursion : Bool) (depth : Nat) (known : List String)
    (cls c : String) : Prop :=
  if c ∈ cls :: known then acceptRecursion = true ∧ c = cls
  else ∃ s, generateRecord classes acceptRecursion depth (cls :: known) c = .ok s

/-- **One class**: its own name is resolved, but no other one. -/
theorem generateRecord_succ
    (hg : Builds (generateRecord classes acceptRecursion depth (cls :: known))) :
    (∀ s, generateRecord classes acceptRecursion (depth + 1) known cls = .ok s →
      s.Resolved ∧ s.references = [] ∧ s.concretes = [cls]) ∧
    ((∃ s, generateRecord classes acceptRecursion (depth + 1) known cls = .ok s) ↔
      classes.Supported cls ∧ ∀ c, classes.Edge cls c → Inside classes acceptRecursion depth
        known cls c) := by
  have htype := doGenerate_spec hg (cls :: known) acceptRecursion
  have hfields := generateFields_spec (fun _ _ h ↦ Generated.nullable h) (fun type ↦ (htype type).1)
    (classes.nonnull cls) (classes.fields cls)
  -- Where its own name is the only one that is left, the constructor works.
  have hbuilt : ∀ fs, FieldsOf (Generated (cls :: known)) (classes.fields cls) fs →
      classes.fields cls ≠ [] → (∀ c, classes.Edge cls c → Inside classes acceptRecursion depth
        known cls c) →
      ∃ s, recordOf cls fs = .ok s ∧ s.Resolved := by
    intro fs hfs hne hinside
    refine exists_recordOf (hfs.names ▸ classes.nodup cls) (fun h ↦ hne ?_) fun f hf ↦ ?_
    · exact List.map_eq_nil_iff.mp (hfs.names.symm.trans (congrArg (List.map Prod.fst) h))
    · obtain ⟨ft, hft, hgen⟩ := hfs.exists_type f hf
      refine hgen.resolvedIn.mono fun c hc ↦ ?_
      have := hinside c ⟨ft, hft, hc.1⟩
      rw [Inside, if_pos hc.2] at this
      exact this.2
  have hiff : (∃ s, generateRecord classes acceptRecursion (depth + 1) known cls = .ok s) ↔
      classes.Supported cls ∧ ∀ c, classes.Edge cls c → Inside classes acceptRecursion depth
        known cls c := by
    constructor
    · rintro ⟨s, hs⟩
      obtain ⟨fs, hgen, hrec⟩ := except_bind_eq_ok_iff.mp hs
      have hfs := hfields.1 fs hgen
      have hall := hfields.2.mp ⟨fs, hgen⟩
      obtain ⟨-, hne, hnames⟩ := recordOf_names hrec
      refine ⟨⟨fun h ↦ hne ?_, fun ft hft ↦ ((htype ft.2).2.mp (hall ft hft)).1⟩, fun c hc ↦ ?_⟩
      · exact List.map_eq_nil_iff.mp (hfs.names.trans (h ▸ rfl))
      · obtain ⟨ft, hft, hc⟩ := hc
        have hallowed := ((htype ft.2).2.mp (hall ft hft)).2 c hc
        rw [Allowed] at hallowed
        rw [Inside]
        by_cases hk : c ∈ cls :: known
        · rw [if_pos hk] at hallowed ⊢
          refine ⟨hallowed, ?_⟩
          obtain ⟨f, hf, hft⟩ := hfs.exists_field ft hft
          rcases hnames f hf c (hft.mem_references c hc hk) with h | ⟨f', hf', hconc⟩
          · exact h
          · obtain ⟨ft', -, hft'⟩ := hfs.exists_type f' hf'
            exact absurd hk (hft'.not_mem_of_mem_concretes c hconc)
        · rwa [if_neg hk] at hallowed ⊢
    · rintro ⟨hsupp, hinside⟩
      have hall : ∀ ft ∈ classes.fields cls, ∃ s,
          doGenerate (generateRecord classes acceptRecursion depth (cls :: known)) (cls :: known)
            acceptRecursion ft.2 = .ok s := by
        refine fun ft hft ↦ (htype ft.2).2.mpr ⟨hsupp.2 ft hft, fun c hc ↦ ?_⟩
        have h := hinside c ⟨ft, hft, hc⟩
        rw [Inside] at h
        rw [Allowed]
        by_cases hk : c ∈ cls :: known
        · rw [if_pos hk] at h ⊢
          exact h.1
        · rwa [if_neg hk] at h ⊢
      obtain ⟨fs, hgen⟩ := hfields.2.mpr hall
      obtain ⟨s, hs, -⟩ := hbuilt fs (hfields.1 fs hgen) hsupp.1 hinside
      refine ⟨s, ?_⟩
      rw [generateRecord, hgen]
      exact hs
  refine ⟨fun s hs ↦ ?_, hiff⟩
  obtain ⟨hsupp, hinside⟩ := hiff.mp ⟨s, hs⟩
  obtain ⟨fs, hgen, hrec⟩ := except_bind_eq_ok_iff.mp hs
  obtain ⟨s', hs', hres⟩ := hbuilt fs (hfields.1 fs hgen) hsupp.1 hinside
  rw [hrec] at hs'
  cases hs'
  obtain ⟨fs', rfl⟩ := recordOf_eq_record hrec
  exact ⟨hres, rfl, rfl⟩

theorem builds_generateRecord (depth : Nat) :
    ∀ known, Builds (generateRecord classes acceptRecursion depth known) := by
  induction depth with
  | zero => exact fun known cls s h ↦ (by cases h)
  | succ depth ih => exact fun known cls s h ↦ (generateRecord_succ (ih (cls :: known))).1 s h

/-! ## Cycles -/

/-- A class is in a cycle that is not accepted: through another class, or at all. -/
def Classes.Cyclic (classes : Classes) (acceptRecursion : Bool) (c : String) : Prop :=
  if acceptRecursion then ∃ c' ≠ c, classes.Below c c' ∧ classes.Below c' c else Relation.TransGen
    classes.Edge c c

/-- The classes that stand in the way of a class. -/
structure Clear (classes : Classes) (acceptRecursion : Bool) (known : List String)
    (cls : String) : Prop where
  supported : ∀ c, classes.Below cls c → classes.Supported c
  not_mem : ∀ c, classes.Below cls c → c ∉ known
  not_cyclic : ∀ c, classes.Below cls c → ¬ classes.Cyclic acceptRecursion c

/-- **One class, seen from its graph.** -/
theorem clear_iff (hk : cls ∉ known) : Clear classes acceptRecursion known cls ↔
    classes.Supported cls ∧ ∀ c, classes.Edge cls c → if c ∈ cls :: known then acceptRecursion =
      true ∧ c = cls else Clear classes acceptRecursion (cls :: known) c := by
  constructor
  · intro h
    refine ⟨h.supported cls .refl, fun c hc ↦ ?_⟩
    by_cases hmem : c ∈ cls :: known
    · rw [if_pos hmem]
      rcases List.mem_cons.mp hmem with rfl | hmem
      · refine ⟨?_, rfl⟩
        by_contra hacc
        rw [Bool.not_eq_true] at hacc
        refine h.not_cyclic c .refl ?_
        rw [hacc, Classes.Cyclic, if_neg Bool.false_ne_true]
        exact .single hc
      · exact absurd hmem (h.not_mem c (.single hc))
    · rw [if_neg hmem]
      have hne : c ≠ cls := fun h ↦ hmem (h ▸ List.mem_cons_self)
      have hbelow : ∀ d, classes.Below c d → classes.Below cls d := fun d hd ↦ .head hc hd
      refine ⟨fun d hd ↦ h.supported d (hbelow d hd), fun d hd hdk ↦ ?_,
        fun d hd ↦ h.not_cyclic d (hbelow d hd)⟩
      rcases List.mem_cons.mp hdk with rfl | hdk
      · -- Back at the class: that is a cycle.
        refine h.not_cyclic d .refl ?_
        rw [Classes.Cyclic]
        split
        · exact ⟨c, hne, .single hc, hd⟩
        · exact .head' hc hd
      · exact h.not_mem d (hbelow d hd) hdk
  · rintro ⟨hsupp, hedge⟩
    have hstep : ∀ c, classes.Below cls c →
        c = cls ∨ ∃ b, classes.Below b c ∧ Clear classes acceptRecursion (cls :: known) b := by
      intro c hc
      induction hc with
      | refl => exact .inl rfl
      | tail _ hdc ih =>
        rename_i d c _
        rcases ih with rfl | ⟨b, hb, hclear⟩
        · have hc := hedge c hdc
          by_cases hmem : c ∈ d :: known
          · rw [if_pos hmem] at hc
            exact .inl hc.2
          · rw [if_neg hmem] at hc
            exact .inr ⟨c, .refl, hc⟩
        · exact .inr ⟨b, hb.tail hdc, hclear⟩
    have hback : ∀ b, Clear classes acceptRecursion (cls :: known) b → ¬ classes.Below b cls :=
      fun b hclear hb ↦ hclear.not_mem cls hb List.mem_cons_self
    refine ⟨fun c hc ↦ ?_, fun c hc ↦ ?_, fun c hc ↦ ?_⟩
    · rcases hstep c hc with rfl | ⟨b, hb, hclear⟩
      · exact hsupp
      · exact hclear.supported c hb
    · rcases hstep c hc with rfl | ⟨b, hb, hclear⟩
      · exact hk
      · exact fun h ↦ hclear.not_mem c hb (List.mem_cons_of_mem cls h)
    · rcases hstep c hc with rfl | ⟨b, hb, hclear⟩
      · rw [Classes.Cyclic]
        cases acceptRecursion with
        | true =>
          rw [if_pos rfl]
          rintro ⟨d, hne, hcd, hdc⟩
          rcases hstep d hcd with rfl | ⟨b, hb, hclear⟩
          · exact hne rfl
          · exact hback b hclear (hb.trans hdc)
        | false =>
          rw [if_neg Bool.false_ne_true]
          intro hcycle
          obtain ⟨b, hcb, hbc⟩ := Relation.TransGen.head'_iff.mp hcycle
          have hb := hedge b hcb
          by_cases hmem : b ∈ c :: known
          · rw [if_pos hmem] at hb
            cases hb.1
          · rw [if_neg hmem] at hb
            exact hback b hb hbc
      · exact hclear.not_cyclic c hb

/-- The classes that a class may be followed by, without itself. -/
theorem left_lt {names : List String} {c : String} (hc : c ∈ names) (hk : c ∉ known) :
    (names.filter (· ∉ c :: known)).length < (names.filter (· ∉ known)).length := by
  have hfilter : names.filter (· ∉ c :: known) = (names.filter (· ∉ known)).filter (· ≠ c) := by
    rw [List.filter_filter]
    exact List.filter_congr fun d _ ↦ by simp [not_or]
  rw [hfilter, List.length_filter_lt_length_iff_exists]
  exact ⟨c, List.mem_filter.mpr ⟨hc, decide_eq_true hk⟩, by simp⟩

/-- **The generator and the graph**, if there is enough depth for the classes that are left. -/
theorem exists_generateRecord_iff (depth : Nat) : ∀ known cls, cls ∉ known →
    (classes.names.filter (· ∉ cls :: known)).length < depth →
    ((∃ s, generateRecord classes acceptRecursion depth known cls = .ok s) ↔
      Clear classes acceptRecursion known cls) := by
  induction depth with
  | zero => exact fun _ _ _ h ↦ absurd h (Nat.not_lt_zero _)
  | succ depth ih =>
    intro known cls hk hlt
    rw [(generateRecord_succ (builds_generateRecord depth (cls :: known))).2, clear_iff hk]
    refine and_congr_right fun _ ↦ forall₂_congr fun c hc ↦ ?_
    rw [Inside]
    by_cases hmem : c ∈ cls :: known
    · rw [if_pos hmem, if_pos hmem]
    · rw [if_neg hmem, if_neg hmem]
      obtain ⟨ft, hft, href⟩ := hc
      exact ih (cls :: known) c hmem
        ((left_lt (classes.closed cls ft hft href) hmem).trans_le (Nat.le_of_lt_succ hlt))

/-! ## The depth is enough -/

theorem doGenerate_ne_outOfFuel {type : JavaType}
    (hg : ∀ cls ∈ type.refs, cls ∉ known → g cls ≠ .error .outOfFuel) :
    doGenerate g known acceptRecursion type ≠ .error .outOfFuel := by
  induction type with
  | simple cls p => exact fun h ↦ (by cases h)
  | enum constants =>
    rw [doGenerate, enumWith]
    split
    · exact fun h ↦ (by cases h)
    · exact fun h ↦ (by cases h)
  | array c ih =>
    intro h
    rcases except_bind_eq_error_iff.mp h with h | ⟨_, _, h⟩
    · exact ih hg h
    · cases h
  | collection c ih =>
    intro h
    rcases except_bind_eq_error_iff.mp h with h | ⟨_, _, h⟩
    · exact ih hg h
    · cases h
  | map k v ihk ihv =>
    intro h
    rcases except_bind_eq_error_iff.mp h with h | ⟨_, _, h⟩
    · exact ihv (fun cls hcls ↦ hg cls (List.mem_append_right _ hcls)) h
    · rcases except_bind_eq_error_iff.mp h with h | ⟨_, _, h⟩
      · exact ihk (fun cls hcls ↦ hg cls (List.mem_append_left _ hcls)) h
      · cases h
  | record cls =>
    rw [doGenerate]
    by_cases hk : cls ∈ known
    · rw [if_pos hk]
      cases acceptRecursion
      · exact fun h ↦ (by cases h)
      · exact fun h ↦ (by cases h)
    · rw [if_neg hk]
      exact hg cls (List.mem_singleton_self cls) hk
  | unsupported => exact fun h ↦ (by cases h)

theorem generateFields_ne_outOfFuel {generate : JavaType → Except SchemaExc Schema}
    {fieldTypes : List (String × JavaType)}
    (h : ∀ ft ∈ fieldTypes, generate ft.2 ≠ .error .outOfFuel)
    (nonnull : Bool) : generateFields generate nonnull fieldTypes ≠ .error .outOfFuel := by
  induction fieldTypes with
  | nil => exact fun h ↦ (by cases h)
  | cons ft fieldTypes ih =>
    intro hfs
    rcases except_bind_eq_error_iff.mp hfs with hfs | ⟨_, _, hfs⟩
    · exact h ft List.mem_cons_self hfs
    · rcases except_bind_eq_error_iff.mp hfs with hfs | ⟨_, _, hfs⟩
      · exact ih (fun t ht ↦ h t (List.mem_cons_of_mem ft ht)) hfs
      · cases hfs

theorem generateRecord_ne_outOfFuel (depth : Nat) : ∀ known cls, cls ∉ known →
    (classes.names.filter (· ∉ cls :: known)).length < depth →
    generateRecord classes acceptRecursion depth known cls ≠ .error .outOfFuel := by
  induction depth with
  | zero => exact fun _ _ _ h ↦ absurd h (Nat.not_lt_zero _)
  | succ depth ih =>
    intro known cls hk hlt h
    rcases except_bind_eq_error_iff.mp h with h | ⟨_, _, h⟩
    · refine generateFields_ne_outOfFuel (fun ft hft ↦ doGenerate_ne_outOfFuel fun c href hmem ↦ ?_)
        (classes.nonnull cls) h
      exact ih (cls :: known) c hmem
        ((left_lt (classes.closed cls ft hft href) hmem).trans_le (Nat.le_of_lt_succ hlt))
    · cases recordOf_error h

/-! ## Every graph -/

/-- Everything at and below a type has a schema, but for cycles. -/
def Classes.AllSupported (classes : Classes) (type : JavaType) : Prop :=
  type.Supported ∧ ∀ c, classes.Reachable type c → classes.Supported c

theorem lt_depth (cls : String) :
    (classes.names.filter (· ∉ cls :: [])).length < classes.names.length + 1 :=
  Nat.lt_succ_of_le (List.length_filter_le _ _)

/-- **What there is a schema for.** -/
theorem exists_generate_iff (type : JavaType) :
    (∃ s, generate classes acceptRecursion type = .ok s) ↔ classes.AllSupported type ∧ ∀ c,
      classes.Reachable type c → ¬ classes.Cyclic acceptRecursion c := by
  have hiff : ∀ c, Allowed (generateRecord classes acceptRecursion (classes.names.length + 1) [])
      [] acceptRecursion c ↔ Clear classes acceptRecursion [] c := fun c ↦ by
    rw [Allowed, if_neg List.not_mem_nil, exists_generateRecord_iff _ _ _ List.not_mem_nil
      (lt_depth c)]
  rw [generate, (doGenerate_spec (builds_generateRecord _ _) [] acceptRecursion type).2]
  simp only [hiff]
  constructor
  · rintro ⟨hsupp, hclear⟩
    exact ⟨⟨hsupp, fun c ⟨b, hb, hbc⟩ ↦ (hclear b hb).supported c hbc⟩,
      fun c ⟨b, hb, hbc⟩ ↦ (hclear b hb).not_cyclic c hbc⟩
  · rintro ⟨⟨hsupp, hall⟩, hcyc⟩
    exact ⟨hsupp, fun b hb ↦ ⟨fun c hbc ↦ hall c ⟨b, hb, hbc⟩, fun c _ ↦ List.not_mem_nil,
      fun c hbc ↦ hcyc c ⟨b, hb, hbc⟩⟩⟩

theorem resolved_of_generate {type : JavaType} {s : Schema}
    (h : generate classes acceptRecursion type = .ok s) : s.Resolved := by
  refine ((doGenerate_spec (builds_generateRecord _ _) [] acceptRecursion type).1 s
    h).resolvedIn.mono fun n hn ↦ ?_
  exact absurd hn.2 List.not_mem_nil

theorem generate_ne_outOfFuel (type : JavaType) : generate classes acceptRecursion type ≠
    .error .outOfFuel :=
  doGenerate_ne_outOfFuel fun c _ _ ↦ generateRecord_ne_outOfFuel _ _ _
    List.not_mem_nil (lt_depth c)

/-- There is a schema with all its fields; or, if recursion is not accepted, exactly if there is
none. -/
structure GeneratesSchemas (classes : Classes) (type : JavaType) : Prop where
  accept : ∃ s, generate classes true type = .ok s ∧ s.Resolved
  reject : (∃ e ≠ .outOfFuel, generate classes false type = .error e) ↔
    ∃ c, classes.Reachable type c ∧ Relation.TransGen classes.Edge c c

/-- **Schemas are generated as they should exactly if** all types below have schemas, and no cycle
goes through two classes. -/
theorem generatesSchemas_iff (classes : Classes) (type : JavaType) : GeneratesSchemas classes type ↔
    classes.AllSupported type ∧ ∀ c c', classes.Reachable type c → classes.Below c c' →
      classes.Below c' c → c' = c := by
  have hcross : (∀ c c', classes.Reachable type c → classes.Below c c' →
      classes.Below c' c → c' = c) ↔ ∀ c, classes.Reachable type c → ¬ classes.Cyclic true c := by
    refine ⟨fun h c hc ⟨c', hne, hcc', hc'c⟩ ↦ hne (h c c' hc hcc' hc'c),
      fun h c c' hc hcc' hc'c ↦ ?_⟩
    by_contra hne
    exact h c hc ⟨c', hne, hcc', hc'c⟩
  rw [hcross, ← exists_generate_iff]
  refine ⟨fun h ↦ h.accept.imp fun s hs ↦ hs.1,
    fun ⟨s, hs⟩ ↦ ⟨⟨s, hs, resolved_of_generate hs⟩, ?_⟩⟩
  have hsupp := ((exists_generate_iff type).mp ⟨s, hs⟩).1
  have hiff : (∃ s, generate classes false type = .ok s) ↔ _ := exists_generate_iff type
  rw [and_iff_right hsupp] at hiff
  constructor
  · rintro ⟨e, -, he⟩
    by_contra hcyc
    obtain ⟨s', hs'⟩ := hiff.mpr fun c hc hcc ↦ hcyc ⟨c, hc, hcc⟩
    rw [he] at hs'
    cases hs'
  · rintro ⟨c, hc, hcc⟩
    cases hgen : generate classes false type with
    | ok s' => exact absurd hcc (hiff.mp ⟨s', hgen⟩ c hc)
    | error e => exact ⟨e, fun h ↦ generate_ne_outOfFuel type (h ▸ hgen), rfl⟩

/-! ## Two classes with each other -/

/-- The class `A` has a field of the class `B`, and the other way round. -/
def twoClasses : Classes where
  names := ["A", "B"]
  fields c := if c = "A" then [("b", .record "B")] else [("a", .record "A")]
  nonnull _ := false
  nodup c := by split <;> decide
  closed c := by split <;> simp [JavaType.refs]

/-- When the schema of `B` is built, there is no record `A` yet. -/
theorem not_generatesSchemas_twoClasses : ¬ GeneratesSchemas twoClasses (.record "A") := by
  intro h
  obtain ⟨s, hs, -⟩ := h.accept
  have hfail : generate twoClasses true (.record "A") = .error .illegalArgument := rfl
  rw [hfail] at hs
  cases hs

end Tigon.Io
