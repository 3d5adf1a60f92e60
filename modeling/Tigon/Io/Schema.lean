import Mathlib

/-!
# Schemas

A `Schema` object is built from the inside out.  A record may contain records that have only a name;
the constructor of a record replaces them, in its fields but not in the fields of other records in
there, by itself or by a record it has already come across.  So a schema is a tree, in which `self`
stands for the record around it: a record is never inside its own fields in any other way.

## What is here

* `Schema`, with `references` (the names that are left to a constructor), `concretes` (the records
  it comes across) and `ResolvedIn`; `Resolved` if there is no name without fields anywhere.
* `resolveSchema`, `recordOf` — the constructor of records.
* `exists_recordOf` — it works, and leaves nothing to resolve, if there is no other name than its
  own, and `recordOf_names` — it does not work if a name is not that of a record in there.
-/

set_option autoImplicit false

namespace Tigon.Io

open Function

/-- The exceptions of the code for schemas; `io` is an `IOException`. -/
inductive SchemaExc
  | illegalArgument
  | unsupportedType
  | illegalState
  | nullPointer
  | io
  | outOfFuel
deriving DecidableEq

theorem except_bind_eq_ok_iff {ε α β : Type} {x : Except ε α} {f : α → Except ε β} {b : β} :
    x >>= f = .ok b ↔ ∃ a, x = .ok a ∧ f a = .ok b := by
  cases x with
  | error e => exact iff_of_false (fun h ↦ by cases h) (fun ⟨_, h, _⟩ ↦ by cases h)
  | ok a => exact ⟨fun h ↦ ⟨a, rfl, h⟩, fun ⟨_, h, h'⟩ ↦ by cases h; exact h'⟩

theorem except_bind_eq_error_iff {ε α β : Type} {x : Except ε α} {f : α → Except ε β} {e : ε} :
    x >>= f = .error e ↔ x = .error e ∨ ∃ a, x = .ok a ∧ f a = .error e := by
  cases x with
  | error e' => exact ⟨fun h ↦ .inl (by cases h; rfl), fun h ↦ by
      rcases h with h | ⟨_, h, _⟩
      · cases h
        rfl
      · cases h⟩
  | ok a => exact ⟨fun h ↦ .inr ⟨a, rfl, h⟩, fun h ↦ by
      rcases h with h | ⟨_, h, h'⟩
      · cases h
      · cases h
        exact h'⟩

/-- The types for which `isSimpleType` holds. -/
inductive SimpleType
  | null
  | boolean
  | int
  | long
  | float
  | double
  | bytes
  | string
deriving DecidableEq

/-- A schema.  `reference` is a record with a name only, and `self` the record around it. -/
inductive Schema
  | simple (type : SimpleType)
  | enum (values : List String)
  | array (component : Schema)
  | map (key value : Schema)
  | union (schemas : List Schema)
  | record (name : String) (fields : List (String × Schema))
  | reference (name : String)
  | self

namespace Schema

mutual

/-- Induction over schemas, with the schemas in a list all at once. -/
@[induction_eliminator, elab_as_elim]
theorem induct {motive : Schema → Prop} (simple : ∀ type, motive (.simple type))
    (enum : ∀ values, motive (.enum values))
    (array : ∀ component, motive component → motive (.array component))
    (map : ∀ key value, motive key → motive value → motive (.map key value))
    (union : ∀ schemas, (∀ s ∈ schemas, motive s) → motive (.union schemas))
    (record : ∀ name fields, (∀ f ∈ fields, motive f.2) → motive (.record name fields))
    (reference : ∀ name, motive (.reference name)) (self : motive .self) : ∀ s, motive s
  | .simple type => simple type
  | .enum values => enum values
  | .array c => array c (induct simple enum array map union record reference self c)
  | .map k v => map k v (induct simple enum array map union record reference self k)
      (induct simple enum array map union record reference self v)
  | .union ss => union ss (inductList simple enum array map union record reference self ss)
  | .record n fs => record n fs (inductFields simple enum array map union record reference self fs)
  | .reference n => reference n
  | .self => self

theorem inductList {motive : Schema → Prop} (simple : ∀ type, motive (.simple type))
    (enum : ∀ values, motive (.enum values))
    (array : ∀ component, motive component → motive (.array component))
    (map : ∀ key value, motive key → motive value → motive (.map key value))
    (union : ∀ schemas, (∀ s ∈ schemas, motive s) → motive (.union schemas))
    (record : ∀ name fields, (∀ f ∈ fields, motive f.2) → motive (.record name fields))
    (reference : ∀ name, motive (.reference name)) (self : motive .self) : ∀ ss : List Schema,
      ∀ s ∈ ss, motive s
  | [] => fun _ h ↦ absurd h List.not_mem_nil
  | s :: ss => List.forall_mem_cons.mpr ⟨induct simple enum array map union record reference self s,
      inductList simple enum array map union record reference self ss⟩

theorem inductFields {motive : Schema → Prop} (simple : ∀ type, motive (.simple type))
    (enum : ∀ values, motive (.enum values))
    (array : ∀ component, motive component → motive (.array component))
    (map : ∀ key value, motive key → motive value → motive (.map key value))
    (union : ∀ schemas, (∀ s ∈ schemas, motive s) → motive (.union schemas))
    (record : ∀ name fields, (∀ f ∈ fields, motive f.2) → motive (.record name fields))
    (reference : ∀ name, motive (.reference name)) (self : motive .self) :
    ∀ fs : List (String × Schema), ∀ f ∈ fs, motive f.2
  | [] => fun _ h ↦ absurd h List.not_mem_nil
  | (_, s) :: fs =>
    List.forall_mem_cons.mpr ⟨induct simple enum array map union record reference self s,
      inductFields simple enum array map union record reference self fs⟩

end

/-! ## What a constructor finds -/

mutual

/-- The names that the record around a schema has to resolve. -/
def references : Schema → List String
  | simple _ => []
  | enum _ => []
  | array c => references c
  | map k v => references k ++ references v
  | union ss => referencesList ss
  | record _ _ => []
  | reference n => [n]
  | self => []

def referencesList : List Schema → List String
  | [] => []
  | s :: ss => references s ++ referencesList ss

end

mutual

/-- The names of the records in a schema, but not in other records. -/
def concretes : Schema → List String
  | simple _ => []
  | enum _ => []
  | array c => concretes c
  | map k v => concretes k ++ concretes v
  | union ss => concretesList ss
  | record n _ => [n]
  | reference _ => []
  | self => []

def concretesList : List Schema → List String
  | [] => []
  | s :: ss => concretes s ++ concretesList ss

end

mutual

/-- Only these names are left to the record around a schema, and none is left in the records in
there. -/
def ResolvedIn : Schema → Set String → Prop
  | simple _, _ => True
  | enum _, _ => True
  | array c, names => ResolvedIn c names
  | map k v, names => ResolvedIn k names ∧ ResolvedIn v names
  | union ss, names => ResolvedInList ss names
  | record _ fs, _ => ResolvedInFields fs ∅
  | reference n, names => n ∈ names
  | self, _ => True

def ResolvedInList : List Schema → Set String → Prop
  | [], _ => True
  | s :: ss, names => ResolvedIn s names ∧ ResolvedInList ss names

def ResolvedInFields : List (String × Schema) → Set String → Prop
  | [], _ => True
  | (_, s) :: fs, names => ResolvedIn s names ∧ ResolvedInFields fs names

end

/-- No record in a schema has its name only. -/
def Resolved (s : Schema) : Prop := s.ResolvedIn ∅

variable {names names' : Set String}

theorem resolvedInList_iff {ss : List Schema} : ResolvedInList ss names ↔
    ∀ s ∈ ss, s.ResolvedIn names := by
  induction ss with
  | nil => simp [ResolvedInList]
  | cons s ss ih => rw [ResolvedInList, ih, List.forall_mem_cons]

theorem resolvedInFields_iff {fs : List (String × Schema)} :
    ResolvedInFields fs names ↔ ∀ f ∈ fs, f.2.ResolvedIn names := by
  induction fs with
  | nil => simp [ResolvedInFields]
  | cons f fs ih => rw [ResolvedInFields, ih, List.forall_mem_cons]

theorem ResolvedIn.mono (hsub : names ⊆ names') {s : Schema} (h : s.ResolvedIn names) :
    s.ResolvedIn names' := by
  induction s with
  | simple t => trivial
  | enum vs => trivial
  | array c ih => exact ih h
  | map k v ihk ihv => exact ⟨ihk h.1, ihv h.2⟩
  | union ss ih => exact resolvedInList_iff.mpr fun s hs ↦ ih s hs (resolvedInList_iff.mp h s hs)
  | record n fs => exact h
  | reference n => exact hsub h
  | self => trivial

end Schema

open Schema

/-! ## Constructors -/

/-- The records a constructor knows by their names. -/
abbrev Known := String → Option Schema

mutual

/-- Replaces names by records.  The records that are known grow along the way. -/
def resolveSchema : Schema → Known → Except SchemaExc (Schema × Known)
  | simple t, known => .ok (simple t, known)
  | enum vs, known => .ok (enum vs, known)
  | array c, known => do
    let (c', known) ← resolveSchema c known
    return (array c', known)
  | map k v, known => do
    let (k', known) ← resolveSchema k known
    let (v', known) ← resolveSchema v known
    return (map k' v', known)
  | union ss, known => do
    let (ss', known) ← resolveSchemas ss known
    return (union ss', known)
  | record n fs, known => .ok (record n fs, update known n (some (record n fs)))
  | reference n, known =>
    match known n with
    | none => .error .illegalArgument
    | some s => .ok (s, known)
  | self, known => .ok (self, known)

def resolveSchemas : List Schema → Known → Except SchemaExc (List Schema × Known)
  | [], known => .ok ([], known)
  | s :: ss, known => do
    let (s', known) ← resolveSchema s known
    let (ss', known) ← resolveSchemas ss known
    return (s' :: ss', known)

end

/-- The fields of a record, resolved one after another. -/
def populateRecordFields : List (String × Schema) → Known →
    Except SchemaExc (List (String × Schema))
  | [], _ => .ok []
  | (n, s) :: fs, known => do
    let (s', known) ← resolveSchema s known
    return (n, s') :: (← populateRecordFields fs known)

/-- A record has different fields, and at least one; it knows itself. -/
def recordOf (name : String) (fields : List (String × Schema)) : Except SchemaExc Schema :=
  if (fields.map Prod.fst).Nodup ∧ fields ≠ [] then do
    return record name (← populateRecordFields fields
      (update (fun _ ↦ none) name (some self)))
  else .error .illegalArgument

def enumWith (values : List String) : Except SchemaExc Schema :=
  if values ≠ [] ∧ values.Nodup then .ok (enum values) else .error .illegalArgument

def unionOf (schemas : List Schema) : Except SchemaExc Schema :=
  if schemas ≠ [] then .ok (union schemas) else .error .illegalArgument

/-! ## When a constructor works -/

variable {known known' : Known} {s s' : Schema} {n : String}

/-- The names that are known. -/
def Known.dom (known : Known) : Set String := {n | known n ≠ none}

theorem dom_update (known : Known) (n : String) (s : Schema) :
    Known.dom (update known n (some s)) = insert n known.dom := by
  ext m
  rw [Known.dom, Set.mem_ofPred_eq, Set.mem_insert_iff, Known.dom, Set.mem_ofPred_eq]
  by_cases h : m = n
  · rw [h, update_self]
    simp
  · rw [update_of_ne h]
    simp [h]

/-- What a constructor knows has nothing left to resolve. -/
def Known.Resolved (known : Known) : Prop := ∀ n s, known n = some s → s.Resolved

theorem Known.Resolved.update (hknown : known.Resolved) (hs : s.Resolved) (n : String) :
    Known.Resolved (update known n (some s)) := by
  intro m s' h
  by_cases hm : m = n
  · rw [hm, update_self, Option.some.injEq] at h
    exact h ▸ hs
  · rw [update_of_ne hm] at h
    exact hknown m s' h

/-- What `resolveSchema` does if it knows all names. -/
structure Resolves (known known' : Known) (s' : Schema) : Prop where
  resolved : s'.Resolved
  known_resolved : known'.Resolved
  dom_subset : known.dom ⊆ known'.dom

theorem exists_resolveSchemas (ss : List Schema)
    (ih : ∀ s ∈ ss, ∀ known : Known, known.Resolved → s.ResolvedIn known.dom →
      ∃ s' known', resolveSchema s known = .ok (s', known') ∧ Resolves known known' s') :
    ∀ known : Known, known.Resolved → ResolvedInList ss known.dom →
      ∃ ss' known', resolveSchemas ss known = .ok (ss', known') ∧ ResolvedInList ss' ∅ ∧
        known'.Resolved ∧ known.dom ⊆ known'.dom := by
  induction ss with
  | nil => exact fun known hknown _ ↦ ⟨[], known, rfl, trivial, hknown, subset_rfl⟩
  | cons s ss ihs =>
    intro known hknown h
    obtain ⟨s', known₁, hs, hres⟩ := ih s List.mem_cons_self known hknown h.1
    have htail : ResolvedInList ss known₁.dom := resolvedInList_iff.mpr fun t ht ↦
      (resolvedInList_iff.mp h.2 t ht).mono hres.dom_subset
    obtain ⟨ss', known₂, hss, hrest, hknown₂, hsub⟩ :=
      ihs (fun t ht ↦ ih t (List.mem_cons_of_mem s ht)) known₁ hres.known_resolved htail
    refine ⟨s' :: ss', known₂, ?_, ⟨hres.resolved, hrest⟩, hknown₂, hres.dom_subset.trans hsub⟩
    rw [resolveSchemas, hs]
    show (resolveSchemas ss known₁ >>= _) = _
    rw [hss]
    rfl

/-- **A schema is resolved if its names are known.** -/
theorem exists_resolveSchema (s : Schema) : ∀ known : Known, known.Resolved →
    s.ResolvedIn known.dom → ∃ s' known', resolveSchema s known = .ok (s', known') ∧
      Resolves known known' s' := by
  induction s with
  | simple t => exact fun known hknown _ ↦ ⟨simple t, known, rfl, trivial, hknown, subset_rfl⟩
  | enum vs => exact fun known hknown _ ↦ ⟨enum vs, known, rfl, trivial, hknown, subset_rfl⟩
  | array c ih =>
    intro known hknown h
    obtain ⟨c', known', hc, hres⟩ := ih known hknown h
    refine ⟨array c', known', ?_, hres.resolved, hres.known_resolved, hres.dom_subset⟩
    rw [resolveSchema, hc]
    rfl
  | map k v ihk ihv =>
    intro known hknown h
    obtain ⟨k', known₁, hk, hresk⟩ := ihk known hknown h.1
    obtain ⟨v', known₂, hv, hresv⟩ := ihv known₁ hresk.known_resolved (h.2.mono hresk.dom_subset)
    refine ⟨map k' v', known₂, ?_, ⟨hresk.resolved, hresv.resolved⟩, hresv.known_resolved,
      hresk.dom_subset.trans hresv.dom_subset⟩
    rw [resolveSchema, hk]
    show (resolveSchema v known₁ >>= _) = _
    rw [hv]
    rfl
  | union ss ih =>
    intro known hknown h
    obtain ⟨ss', known', hss, hres, hknown', hsub⟩ := exists_resolveSchemas ss ih known hknown h
    refine ⟨union ss', known', ?_, hres, hknown', hsub⟩
    rw [resolveSchema, hss]
    rfl
  | record n fs =>
    intro known hknown h
    refine ⟨record n fs, _, rfl, h, hknown.update (s := record n fs) h n, ?_⟩
    rw [dom_update]
    exact Set.subset_insert n _
  | reference n =>
    intro known hknown h
    obtain ⟨s', hs⟩ := Option.ne_none_iff_exists'.mp h
    refine ⟨s', known, ?_, hknown n s' hs, hknown, subset_rfl⟩
    rw [resolveSchema, hs]
  | self => exact fun known hknown _ ↦ ⟨self, known, rfl, trivial, hknown, subset_rfl⟩

theorem exists_populateRecordFields (fs : List (String × Schema)) : ∀ known : Known,
    known.Resolved → (∀ f ∈ fs, f.2.ResolvedIn known.dom) →
    ∃ fs', populateRecordFields fs known = .ok fs' ∧ ∀ f ∈ fs', f.2.Resolved := by
  induction fs with
  | nil => exact fun _ _ _ ↦ ⟨[], rfl, fun _ h ↦ absurd h List.not_mem_nil⟩
  | cons f fs ih =>
    intro known hknown h
    obtain ⟨s', known', hs, hres⟩ := exists_resolveSchema f.2 known hknown (h f List.mem_cons_self)
    obtain ⟨fs', hfs, hall⟩ := ih known' hres.known_resolved fun g hg ↦
      (h g (List.mem_cons_of_mem f hg)).mono hres.dom_subset
    refine ⟨(f.1, s') :: fs', ?_, List.forall_mem_cons.mpr ⟨hres.resolved, hall⟩⟩
    rw [populateRecordFields, hs]
    show (populateRecordFields fs known' >>= _) = _
    rw [hfs]
    rfl

/-- **A record that has no other names than its own is built, and has nothing left to resolve.** -/
theorem exists_recordOf {fs : List (String × Schema)} (hnodup : (fs.map Prod.fst).Nodup)
    (hne : fs ≠ []) (h : ∀ f ∈ fs, f.2.ResolvedIn {n}) : ∃ s, recordOf n fs = .ok s ∧
      s.Resolved := by
  have hdom : Known.dom (update (fun _ ↦ none) n (some self)) = {n} := by
    rw [dom_update]
    simp [Known.dom]
  have hknown : Known.Resolved (update (fun _ ↦ none) n (some self)) :=
    Known.Resolved.update (s := self) (fun _ _ h ↦ by cases h) trivial n
  obtain ⟨fs', hfs, hall⟩ := exists_populateRecordFields fs _ hknown fun f hf ↦ hdom.symm ▸ h f hf
  refine ⟨record n fs', ?_, resolvedInFields_iff.mpr hall⟩
  rw [recordOf, if_pos ⟨hnodup, hne⟩, hfs]
  rfl

/-! ## When it does not -/

/-- One schema after another. -/
theorem names_append {r r' c c' : List String} {d d₁ d₂ : Set String} (h : ∀ n ∈ r, n ∈ d ∨ n ∈ c)
    (hd : d₁ = d ∪ {n | n ∈ c}) (h' : ∀ n ∈ r', n ∈ d₁ ∨ n ∈ c') (hd' : d₂ = d₁ ∪ {n | n ∈ c'}) :
    (∀ n ∈ r ++ r', n ∈ d ∨ n ∈ c ++ c') ∧ d₂ = d ∪ {n | n ∈ c ++ c'} := by
  subst hd hd'
  refine ⟨fun n hn ↦ ?_, ?_⟩
  · rw [List.mem_append]
    rcases List.mem_append.mp hn with hn | hn
    · exact (h n hn).imp_right .inl
    · rcases h' n hn with (hn | hn) | hn
      · exact .inl hn
      · exact .inr (.inl hn)
      · exact .inr (.inr hn)
  · ext n
    simp only [Set.mem_union, Set.mem_ofPred_eq, List.mem_append, or_assoc]

mutual

/-- The names that are resolved are known, or records that were come across. -/
theorem resolveSchema_names : ∀ (s : Schema) {known known' : Known} {s' : Schema},
    resolveSchema s known = .ok (s', known') →
      (∀ n ∈ s.references, n ∈ known.dom ∨ n ∈ s.concretes) ∧
        known'.dom = known.dom ∪ {n | n ∈ s.concretes}
  | simple t => fun h ↦ by
    cases h
    simp [references, concretes]
  | enum vs => fun h ↦ by
    cases h
    simp [references, concretes]
  | array c => fun h ↦ by
    obtain ⟨⟨c', known₁⟩, hc, h⟩ := except_bind_eq_ok_iff.mp h
    cases h
    exact resolveSchema_names c hc
  | map k v => fun h ↦ by
    obtain ⟨⟨k', known₁⟩, hk, h⟩ := except_bind_eq_ok_iff.mp h
    obtain ⟨⟨v', known₂⟩, hv, h⟩ := except_bind_eq_ok_iff.mp h
    cases h
    obtain ⟨hk, hdomk⟩ := resolveSchema_names k hk
    obtain ⟨hv, hdomv⟩ := resolveSchema_names v hv
    exact names_append hk hdomk hv hdomv
  | union ss => fun h ↦ by
    obtain ⟨⟨ss', known₁⟩, hss, h⟩ := except_bind_eq_ok_iff.mp h
    cases h
    exact resolveSchemas_names ss hss
  | record n fs => fun h ↦ by
    cases h
    refine ⟨by simp [references], ?_⟩
    rw [dom_update]
    ext m
    simp [concretes, or_comm]
  | reference n => fun h ↦ by
    rw [resolveSchema] at h
    split at h
    · cases h
    · rename_i hn
      cases h
      simp [references, concretes, Known.dom, hn]
  | self => fun h ↦ by
    cases h
    simp [references, concretes]

theorem resolveSchemas_names : ∀ (ss : List Schema) {known known' : Known} {ss' : List Schema},
    resolveSchemas ss known = .ok (ss', known') →
      (∀ n ∈ referencesList ss, n ∈ known.dom ∨ n ∈ concretesList ss) ∧
        known'.dom = known.dom ∪ {n | n ∈ concretesList ss}
  | [] => fun h ↦ by
    cases h
    simp [referencesList, concretesList]
  | s :: ss => fun h ↦ by
    obtain ⟨⟨s', known₁⟩, hs, h⟩ := except_bind_eq_ok_iff.mp h
    obtain ⟨⟨ss', known₂⟩, hss, h⟩ := except_bind_eq_ok_iff.mp h
    cases h
    obtain ⟨hs, hdom⟩ := resolveSchema_names s hs
    obtain ⟨hss, hdoms⟩ := resolveSchemas_names ss hss
    exact names_append hs hdom hss hdoms

end

mutual

/-- The only exception is that of a name that is not known. -/
theorem resolveSchema_error : ∀ (s : Schema) {known : Known} {e : SchemaExc},
    resolveSchema s known = .error e → e = .illegalArgument
  | simple t => fun h ↦ by cases h
  | enum vs => fun h ↦ by cases h
  | array c => fun h ↦ by
    rcases except_bind_eq_error_iff.mp h with h | ⟨_, _, h⟩
    · exact resolveSchema_error c h
    · cases h
  | map k v => fun h ↦ by
    rcases except_bind_eq_error_iff.mp h with h | ⟨_, _, h⟩
    · exact resolveSchema_error k h
    · rcases except_bind_eq_error_iff.mp h with h | ⟨_, _, h⟩
      · exact resolveSchema_error v h
      · cases h
  | union ss => fun h ↦ by
    rcases except_bind_eq_error_iff.mp h with h | ⟨_, _, h⟩
    · exact resolveSchemas_error ss h
    · cases h
  | record n fs => fun h ↦ by cases h
  | reference n => fun h ↦ by
    rw [resolveSchema] at h
    split at h
    · cases h
      rfl
    · cases h
  | self => fun h ↦ by cases h

theorem resolveSchemas_error : ∀ (ss : List Schema) {known : Known} {e : SchemaExc},
    resolveSchemas ss known = .error e → e = .illegalArgument
  | [] => fun h ↦ by cases h
  | s :: ss => fun h ↦ by
    rcases except_bind_eq_error_iff.mp h with h | ⟨_, _, h⟩
    · exact resolveSchema_error s h
    · rcases except_bind_eq_error_iff.mp h with h | ⟨_, _, h⟩
      · exact resolveSchemas_error ss h
      · cases h

end

theorem populateRecordFields_error (fs : List (String × Schema)) : ∀ {known : Known}
    {e : SchemaExc}, populateRecordFields fs known = .error e → e = .illegalArgument := by
  induction fs with
  | nil => exact fun h ↦ (by cases h)
  | cons f fs ih =>
    intro known e h
    rcases except_bind_eq_error_iff.mp h with h | ⟨_, _, h⟩
    · exact resolveSchema_error f.2 h
    · rcases except_bind_eq_error_iff.mp h with h | ⟨_, _, h⟩
      · exact ih h
      · cases h

theorem recordOf_error {fs : List (String × Schema)} {e : SchemaExc}
    (h : recordOf n fs = .error e) : e = .illegalArgument := by
  rw [recordOf] at h
  split at h
  · rcases except_bind_eq_error_iff.mp h with h | ⟨_, _, h⟩
    · exact populateRecordFields_error fs h
    · cases h
  · cases h
    rfl

/-- The names in the fields of a record. -/
theorem populateRecordFields_names (fs : List (String × Schema)) : ∀ {known : Known}
    {fs' : List (String × Schema)}, populateRecordFields fs known = .ok fs' →
      ∀ f ∈ fs, ∀ n ∈ f.2.references, n ∈ known.dom ∨ ∃ g ∈ fs, n ∈ g.2.concretes := by
  induction fs with
  | nil => exact fun _ f hf ↦ absurd hf List.not_mem_nil
  | cons g fs ih =>
    intro known fs' h f hf n hn
    obtain ⟨⟨s', known₁⟩, hs, h⟩ := except_bind_eq_ok_iff.mp h
    obtain ⟨fs₁, hfs, -⟩ := except_bind_eq_ok_iff.mp h
    obtain ⟨hrefs, hdom⟩ := resolveSchema_names g.2 hs
    rcases List.mem_cons.mp hf with rfl | hf
    · exact (hrefs n hn).imp_right fun hn ↦ ⟨f, List.mem_cons_self, hn⟩
    · rcases ih hfs f hf n hn with hn | ⟨g', hg', hn⟩
      · rw [hdom] at hn
        exact hn.imp_right fun hn ↦ ⟨g, List.mem_cons_self, hn⟩
      · exact .inr ⟨g', List.mem_cons_of_mem g hg', hn⟩

/-- **A record that is built has no name of a record that is not in it.** -/
theorem recordOf_names {fs : List (String × Schema)} {name : String}
    (h : recordOf name fs = .ok s) : (fs.map Prod.fst).Nodup ∧ fs ≠ [] ∧
      ∀ f ∈ fs, ∀ n ∈ f.2.references, n = name ∨ ∃ g ∈ fs, n ∈ g.2.concretes := by
  rw [recordOf] at h
  by_cases hc : (fs.map Prod.fst).Nodup ∧ fs ≠ []
  · rw [if_pos hc] at h
    obtain ⟨fs', hfs, -⟩ := except_bind_eq_ok_iff.mp h
    refine ⟨hc.1, hc.2, fun f hf n hn ↦ (populateRecordFields_names fs hfs f hf n hn).imp_left
      fun hn ↦ ?_⟩
    rw [dom_update] at hn
    simpa [Known.dom] using hn
  · rw [if_neg hc] at h
    cases h

/-! ## Schemas as graphs -/

namespace Schema

mutual

/-- The schema, with the record around it put in. -/
def closeWith (this : Schema) : Schema → Schema
  | simple t => simple t
  | enum vs => enum vs
  | array c => array (closeWith this c)
  | map k v => map (closeWith this k) (closeWith this v)
  | union ss => union (closeWithList this ss)
  | record n fs => record n fs
  | reference n => reference n
  | self => this

def closeWithList (this : Schema) : List Schema → List Schema
  | [] => []
  | s :: ss => closeWith this s :: closeWithList this ss

end

theorem closeWithList_eq_map (this : Schema) (ss : List Schema) : closeWithList this ss =
    ss.map (closeWith this) := by
  induction ss with
  | nil => rfl
  | cons s ss ih => rw [closeWithList, ih, List.map_cons]

/-- The fields of a record, as objects. -/
def getFields : Schema → List (String × Schema)
  | record n fs => fs.map fun f ↦ (f.1, closeWith (record n fs) f.2)
  | _ => []

/-- What can be seen of a schema in so many steps. -/
def upTo : Nat → Schema → Schema
  | 0, _ => self
  | _ + 1, simple t => simple t
  | _ + 1, enum vs => enum vs
  | k + 1, array c => array (upTo k c)
  | k + 1, map key value => map (upTo k key) (upTo k value)
  | k + 1, union ss => union (ss.map (upTo k))
  | k + 1, record n fs => record n (fs.map fun f ↦ (f.1, upTo k (closeWith (record n fs) f.2)))
  | _ + 1, reference n => reference n
  | _ + 1, self => self

/-- No number of steps tells two schemas apart. -/
def Same (s t : Schema) : Prop := ∀ k, s.upTo k = t.upTo k

theorem map_eq_map_of_imp {α β γ δ : Type} {f : α → γ} {g : β → γ} {f' : α → δ} {g' : β → δ}
    (h : ∀ a b, f a = g b → f' a = g' b) : ∀ {l : List α} {l' : List β}, l.map f = l'.map g →
      l.map f' = l'.map g'
  | [], [] => fun _ ↦ rfl
  | [], _ :: _ => fun hl ↦ by cases hl
  | _ :: _, [] => fun hl ↦ by cases hl
  | a :: l, b :: l' => fun hl ↦ by
    rw [List.map_cons, List.map_cons, List.cons.injEq] at hl
    rw [List.map_cons, List.map_cons, h a b hl.1, map_eq_map_of_imp h hl.2]

/-- Fewer steps tell less. -/
theorem upTo_of_upTo_succ {k : Nat} {s t : Schema} (h : s.upTo (k + 1) = t.upTo (k + 1)) :
    s.upTo k = t.upTo k := by
  induction k generalizing s t with
  | zero => rfl
  | succ k ih =>
    cases s <;> cases t <;> simp only [upTo, reduceCtorEq, simple.injEq, enum.injEq,
      array.injEq, map.injEq, union.injEq, record.injEq, reference.injEq] at h ⊢
    case simple.simple => exact h
    case enum.enum => exact h
    case array.array => exact ih h
    case map.map => exact ⟨ih h.1, ih h.2⟩
    case union.union => exact map_eq_map_of_imp (fun _ _ ↦ ih) h
    case record.record =>
      refine ⟨h.1, map_eq_map_of_imp (fun f g hfg ↦ ?_) h.2⟩
      rw [Prod.mk.injEq] at hfg ⊢
      exact ⟨hfg.1, ih hfg.2⟩
    case reference.reference => exact h

end Schema

end Tigon.Io
