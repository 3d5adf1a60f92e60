import Tigon.Io.SchemaTypeAdapter

/-!
# The way of a schema through JSON

A record that has been written is only named wherever it is used again.  The reader leaves that name
to the constructor of the record around it, and this one knows itself and the records among its own
fields, but not those inside other records, nor those around it; at the top there is no constructor
at all.  So a schema comes back if each record that is used again is used among the fields of the
record in which it was used first.

## What is here

* `RoundTrips` — what should hold of a schema.
* `Readable`, by `firsts` (the records that have been written) and `scope` (those the constructor
  knows).
* `roundTrips_iff` — **the schemas that come back**, and `not_roundTrips_nested`, one that does not.
-/

set_option autoImplicit false

namespace Tigon.Io

open Schema Function

/-- A schema that is written can be read, and is the same, with nothing left to resolve. -/
def RoundTrips (s : Schema) : Prop :=
  ∃ tokens known r, write "" s [] = .ok (tokens, known) ∧
    (∃ enough, ∀ fuel ≥ enough, ∃ known', read fuel [] tokens = .ok (r, known') []) ∧
      r.Same s ∧ r.Resolved

/-! ## The condition -/

mutual

/-- The first record of each name, after a schema. -/
def firsts : Schema → Known → Known
  | simple _, d => d
  | enum _, d => d
  | array c, d => firsts c d
  | map k v, d => firsts v (firsts k d)
  | union ss, d => firstsList ss d
  | record n fs, d =>
    match d n with
    | some _ => d
    | none => firstsFields fs (update d n (some (record n fs)))
  | reference _, d => d
  | self, d => d

def firstsList : List Schema → Known → Known
  | [], d => d
  | s :: ss, d => firstsList ss (firsts s d)

def firstsFields : List (String × Schema) → Known → Known
  | [], d => d
  | (_, s) :: fs, d => firstsFields fs (firsts s d)

end

mutual

/-- The names the constructor knows, after a schema: those of new records, but not of the records in
there. -/
def scope : Schema → Known → Set String → Set String
  | simple _, _, names => names
  | enum _, _, names => names
  | array c, d, names => scope c d names
  | map k v, d, names => scope v (firsts k d) (scope k d names)
  | union ss, d, names => scopeList ss d names
  | record n _, d, names => {m | m ∈ names ∨ m = n ∧ d n = none}
  | reference _, _, names => names
  | self, _, names => names

def scopeList : List Schema → Known → Set String → Set String
  | [], _, names => names
  | s :: ss, d, names => scopeList ss (firsts s d) (scope s d names)

end

mutual

/-- A record that is used again is known to the constructor, and is the same; no record has the name
of a simple type that is used later. -/
def Readable : Schema → Known → Set String → Prop
  | simple t, d, _ => d t.typeName = none
  | enum _, _, _ => True
  | array c, d, names => Readable c d names
  | map k v, d, names => Readable k d names ∧ Readable v (firsts k d) (scope k d names)
  | union ss, d, names => ReadableList ss d names
  | record n fs, d, names =>
    match d n with
    | some r => n ∈ names ∧ r.Same (record n fs)
    | none => ReadableFields fs (update d n (some (record n fs))) {n}
  | reference _, _, _ => False
  | self, _, _ => True

def ReadableList : List Schema → Known → Set String → Prop
  | [], _, _ => True
  | s :: ss, d, names => Readable s d names ∧ ReadableList ss (firsts s d) (scope s d names)

def ReadableFields : List (String × Schema) → Known → Set String → Prop
  | [], _, _ => True
  | (_, s) :: fs, d, names => Readable s d names ∧ ReadableFields fs (firsts s d) (scope s d names)

end

mutual

/-- No record is used again, outside of other records. -/
def Fresh : Schema → Known → Prop
  | simple _, _ => True
  | enum _, _ => True
  | array c, d => Fresh c d
  | map k v, d => Fresh k d ∧ Fresh v (firsts k d)
  | union ss, d => FreshList ss d
  | record n _, d => d n = none
  | reference _, _ => False
  | self, _ => False

def FreshList : List Schema → Known → Prop
  | [], _ => True
  | s :: ss, d => Fresh s d ∧ FreshList ss (firsts s d)

end

/-! ## The first records -/

mutual

/-- The first record of a name stays. -/
theorem firsts_of_some : ∀ (s : Schema) (d : Known) {n : String} {r : Schema}, d n = some r →
    firsts s d n = some r
  | simple _ => fun _ _ _ h ↦ h
  | enum _ => fun _ _ _ h ↦ h
  | array c => fun d _ _ h ↦ firsts_of_some c d h
  | map k v => fun d _ _ h ↦ firsts_of_some v (firsts k d) (firsts_of_some k d h)
  | union ss => fun d _ _ h ↦ firstsList_of_some ss d h
  | record m fs => fun d n r h ↦ by
    cases hm : d m with
    | some r' => rwa [firsts, hm]
    | none =>
      rw [firsts, hm]
      refine firstsFields_of_some fs _ ?_
      rw [update_of_ne, h]
      rintro rfl
      rw [hm] at h
      cases h
  | reference _ => fun _ _ _ h ↦ h
  | self => fun _ _ _ h ↦ h

theorem firstsList_of_some : ∀ (ss : List Schema) (d : Known) {n : String} {r : Schema},
    d n = some r → firstsList ss d n = some r
  | [] => fun _ _ _ h ↦ h
  | s :: ss => fun d _ _ h ↦ firstsList_of_some ss (firsts s d) (firsts_of_some s d h)

theorem firstsFields_of_some : ∀ (fs : List (String × Schema)) (d : Known) {n : String}
    {r : Schema}, d n = some r → firstsFields fs d n = some r
  | [] => fun _ _ _ h ↦ h
  | (_, s) :: fs => fun d _ _ h ↦ firstsFields_of_some fs (firsts s d) (firsts_of_some s d h)

end

/-! ## Reading and resolving -/

/-- A schema is read, and then resolved by the constructor around it. -/
def Rebuilds (this : String) (s : Schema) (known : List String) (L : Known) (s' : Schema)
    (known' : List String) (L' : Known) : Prop :=
  ∃ r, reparse this s known = .ok (r, known') ∧ resolveSchema r L = .ok (s', L')

def RebuildsList (this : String) (ss : List Schema) (known : List String) (L : Known)
    (ss' : List Schema) (known' : List String) (L' : Known) : Prop :=
  ∃ rs, reparseList this ss known = .ok (rs, known') ∧ resolveSchemas rs L = .ok (ss', L')

def RebuildsFields (this : String) (fs : List (String × Schema)) (known : List String) (L : Known)
    (fs' : List (String × Schema)) (known' : List String) : Prop :=
  ∃ rs, reparseFields this fs known = .ok (rs, known') ∧ populateRecordFields rs L = .ok fs'

variable {this n : String} {known known' : List String} {L L' : Known} {s s' c k v : Schema}
  {ss ss' : List Schema} {fs fs' : List (String × Schema)}

theorem rebuilds_array : Rebuilds this (array c) known L s' known' L' ↔
    ∃ c', Rebuilds this c known L c' known' L' ∧ s' = array c' := by
  constructor
  · rintro ⟨r, hr, hs⟩
    obtain ⟨⟨rc, known₁⟩, hc, hr⟩ := except_bind_eq_ok_iff.mp hr
    cases hr
    obtain ⟨⟨c', L₁⟩, hc', hs⟩ := except_bind_eq_ok_iff.mp hs
    cases hs
    exact ⟨c', ⟨rc, hc, hc'⟩, rfl⟩
  · rintro ⟨c', ⟨rc, hc, hc'⟩, rfl⟩
    refine ⟨array rc, ?_, ?_⟩
    · rw [reparse, hc]
      rfl
    · rw [resolveSchema, hc']
      rfl

theorem rebuilds_map : Rebuilds this (map k v) known L s' known' L' ↔
    ∃ k' known₁ L₁ v', Rebuilds this k known L k' known₁ L₁ ∧
      Rebuilds this v known₁ L₁ v' known' L' ∧ s' = map k' v' := by
  constructor
  · rintro ⟨r, hr, hs⟩
    obtain ⟨⟨rk, known₁⟩, hk, hr⟩ := except_bind_eq_ok_iff.mp hr
    obtain ⟨⟨rv, known₂⟩, hv, hr⟩ := except_bind_eq_ok_iff.mp hr
    cases hr
    obtain ⟨⟨k', L₁⟩, hk', hs⟩ := except_bind_eq_ok_iff.mp hs
    obtain ⟨⟨v', L₂⟩, hv', hs⟩ := except_bind_eq_ok_iff.mp hs
    cases hs
    exact ⟨k', known₁, L₁, v', ⟨rk, hk, hk'⟩, ⟨rv, hv, hv'⟩, rfl⟩
  · rintro ⟨k', known₁, L₁, v', ⟨rk, hk, hk'⟩, ⟨rv, hv, hv'⟩, rfl⟩
    refine ⟨map rk rv, ?_, ?_⟩
    · rw [reparse, hk]
      show (reparse this v known₁ >>= _) = _
      rw [hv]
      rfl
    · rw [resolveSchema, hk']
      show (resolveSchema rv L₁ >>= _) = _
      rw [hv']
      rfl

theorem rebuildsList_nil : RebuildsList this [] known L ss' known' L' ↔ known = known' ∧
    ss' = [] ∧ L = L' := by
  constructor
  · rintro ⟨rs, hrs, hss⟩
    cases hrs
    cases hss
    exact ⟨rfl, rfl, rfl⟩
  · rintro ⟨rfl, rfl, rfl⟩
    exact ⟨[], rfl, rfl⟩

theorem rebuildsList_cons : RebuildsList this (s :: ss) known L ss' known' L' ↔
    ∃ s' known₁ L₁ tail, Rebuilds this s known L s' known₁ L₁ ∧
      RebuildsList this ss known₁ L₁ tail known' L' ∧ ss' = s' :: tail := by
  constructor
  · rintro ⟨r, hr, hs⟩
    obtain ⟨⟨rk, known₁⟩, hk, hr⟩ := except_bind_eq_ok_iff.mp hr
    obtain ⟨⟨rv, known₂⟩, hv, hr⟩ := except_bind_eq_ok_iff.mp hr
    cases hr
    obtain ⟨⟨k', L₁⟩, hk', hs⟩ := except_bind_eq_ok_iff.mp hs
    obtain ⟨⟨v', L₂⟩, hv', hs⟩ := except_bind_eq_ok_iff.mp hs
    cases hs
    exact ⟨k', known₁, L₁, v', ⟨rk, hk, hk'⟩, ⟨rv, hv, hv'⟩, rfl⟩
  · rintro ⟨k', known₁, L₁, v', ⟨rk, hk, hk'⟩, ⟨rv, hv, hv'⟩, rfl⟩
    refine ⟨rk :: rv, ?_, ?_⟩
    · rw [reparseList, hk]
      show (reparseList this ss known₁ >>= _) = _
      rw [hv]
      rfl
    · rw [resolveSchemas, hk']
      show (resolveSchemas rv L₁ >>= _) = _
      rw [hv']
      rfl

theorem rebuildsFields_nil : RebuildsFields this [] known L fs' known' ↔ known = known' ∧
    fs' = [] := by
  constructor
  · rintro ⟨rs, hrs, hfs⟩
    cases hrs
    cases hfs
    exact ⟨rfl, rfl⟩
  · rintro ⟨rfl, rfl⟩
    exact ⟨[], rfl, rfl⟩

theorem rebuildsFields_cons : RebuildsFields this ((n, s) :: fs) known L fs' known' ↔
    ∃ s' known₁ L₁ tail, Rebuilds this s known L s' known₁ L₁ ∧
      RebuildsFields this fs known₁ L₁ tail known' ∧ fs' = (n, s') :: tail := by
  constructor
  · rintro ⟨r, hr, hs⟩
    obtain ⟨⟨rk, known₁⟩, hk, hr⟩ := except_bind_eq_ok_iff.mp hr
    obtain ⟨⟨rv, known₂⟩, hv, hr⟩ := except_bind_eq_ok_iff.mp hr
    cases hr
    obtain ⟨⟨k', L₁⟩, hk', hs⟩ := except_bind_eq_ok_iff.mp hs
    obtain ⟨v', hv', hs⟩ := except_bind_eq_ok_iff.mp hs
    cases hs
    exact ⟨k', known₁, L₁, v', ⟨rk, hk, hk'⟩, ⟨rv, hv, hv'⟩, rfl⟩
  · rintro ⟨k', known₁, L₁, v', ⟨rk, hk, hk'⟩, ⟨rv, hv, hv'⟩, rfl⟩
    refine ⟨(n, rk) :: rv, ?_, ?_⟩
    · rw [reparseFields, hk]
      show (reparseFields this fs known₁ >>= _) = _
      rw [hv]
      rfl
    · rw [populateRecordFields, hk']
      show (populateRecordFields rv L₁ >>= _) = _
      rw [hv']
      rfl

theorem rebuilds_union (hne : ss ≠ []) : Rebuilds this (union ss) known L s' known' L' ↔
    ∃ ss', RebuildsList this ss known L ss' known' L' ∧ s' = union ss' := by
  have hlen : ∀ rs known₁, reparseList this ss known = .ok (rs, known₁) → rs ≠ [] := by
    intro rs known₁ hrs
    obtain ⟨s, ss, rfl⟩ := List.exists_cons_of_ne_nil hne
    obtain ⟨⟨r, known₂⟩, -, hrs⟩ := except_bind_eq_ok_iff.mp hrs
    obtain ⟨⟨rs', known₂⟩, -, hrs⟩ := except_bind_eq_ok_iff.mp hrs
    cases hrs
    exact List.cons_ne_nil _ _
  constructor
  · rintro ⟨r, hr, hs⟩
    obtain ⟨⟨rs, known₁⟩, hrs, hr⟩ := except_bind_eq_ok_iff.mp hr
    obtain ⟨u, hu, hr⟩ := except_bind_eq_ok_iff.mp hr
    rw [unionOf, if_pos (hlen rs known₁ hrs)] at hu
    cases hu
    cases hr
    obtain ⟨⟨ss', L₁⟩, hss', hs⟩ := except_bind_eq_ok_iff.mp hs
    cases hs
    exact ⟨ss', ⟨rs, hrs, hss'⟩, rfl⟩
  · rintro ⟨ss', ⟨rs, hrs, hss'⟩, rfl⟩
    refine ⟨union rs, ?_, ?_⟩
    · rw [reparse, hrs]
      show (unionOf rs >>= _) = _
      rw [unionOf, if_pos (hlen rs known' hrs)]
      rfl
    · rw [resolveSchema, hss']
      rfl

theorem reparseFields_names : ∀ {fs : List (String × Schema)} {known known' : List String}
    {rs : List (String × Schema)}, reparseFields this fs known = .ok (rs, known') →
      rs.map Prod.fst = fs.map Prod.fst := by
  intro fs
  induction fs with
  | nil =>
    intro known known' rs h
    cases h
    rfl
  | cons f fs ih =>
    intro known known' rs h
    obtain ⟨⟨r, known₁⟩, -, h⟩ := except_bind_eq_ok_iff.mp h
    obtain ⟨⟨rs', known₂⟩, hrs', h⟩ := except_bind_eq_ok_iff.mp h
    cases h
    rw [List.map_cons, List.map_cons, ih hrs']

/-- What a constructor knows to begin with. -/
def knowing (n : String) : Known := update (fun _ ↦ none) n (some self)

theorem rebuilds_record_of_not_mem (hn : n ∉ known) (hne : fs ≠ [])
    (hnodup : (fs.map Prod.fst).Nodup) : Rebuilds this (record n fs) known L s' known' L' ↔
      ∃ fs', RebuildsFields n fs (n :: known) (knowing n) fs' known' ∧ s' = record n fs' ∧
        L' = update L n (some s') := by
  have hcond : ∀ {rs known₁}, reparseFields n fs (n :: known) = .ok (rs, known₁) →
      (rs.map Prod.fst).Nodup ∧ rs ≠ [] := by
    intro rs known₁ hrs
    have hnames := reparseFields_names hrs
    refine ⟨hnames ▸ hnodup, fun hnil ↦ hne ?_⟩
    rw [hnil, List.map_nil] at hnames
    exact List.map_eq_nil_iff.mp hnames.symm
  constructor
  · rintro ⟨r, hr, hs⟩
    rw [reparse, if_neg hn] at hr
    obtain ⟨⟨rs, known₁⟩, hrs, hr⟩ := except_bind_eq_ok_iff.mp hr
    obtain ⟨r', hr', hr⟩ := except_bind_eq_ok_iff.mp hr
    cases hr
    rw [recordOf, if_pos (hcond hrs)] at hr'
    obtain ⟨fs', hfs', hr'⟩ := except_bind_eq_ok_iff.mp hr'
    cases hr'
    cases hs
    exact ⟨fs', ⟨rs, hrs, hfs'⟩, rfl, rfl⟩
  · rintro ⟨fs', ⟨rs, hrs, hfs'⟩, rfl, rfl⟩
    refine ⟨record n fs', ?_, rfl⟩
    rw [reparse, if_neg hn, hrs]
    show (recordOf n rs >>= _) = _
    rw [recordOf, if_pos (hcond hrs), ← knowing, hfs']
    rfl

theorem resolve_reference : resolveSchema (reference n) L = .ok (s', L') ↔
    L n = some s' ∧ L = L' := by
  rw [resolveSchema]
  split
  · rename_i h
    rw [h]
    exact iff_of_false (fun h' ↦ by cases h') (fun h' ↦ by cases h'.1)
  · rename_i l h
    rw [h]
    constructor
    · intro h'
      cases h'
      exact ⟨rfl, rfl⟩
    · rintro ⟨h', rfl⟩
      cases h'
      rfl

theorem rebuilds_record_of_mem (hn : n ∈ known) :
    Rebuilds this (record n fs) known L s' known' L' ↔ known = known' ∧ L n = some s' ∧ L = L' := by
  rw [Rebuilds, reparse, if_pos hn]
  constructor
  · rintro ⟨r, hr, hs⟩
    cases hr
    exact ⟨rfl, resolve_reference.mp hs⟩
  · rintro ⟨rfl, h⟩
    exact ⟨reference n, rfl, resolve_reference.mpr h⟩

theorem rebuilds_self : Rebuilds this self known L s' known' L' ↔ known = known' ∧
    L this = some s' ∧ L = L' := by
  constructor
  · rintro ⟨r, hr, hs⟩
    cases hr
    exact ⟨rfl, resolve_reference.mp hs⟩
  · rintro ⟨rfl, h⟩
    exact ⟨reference this, rfl, resolve_reference.mpr h⟩

theorem rebuilds_simple_of_mem {t : SimpleType} (ht : t.typeName ∈ known) :
    Rebuilds this (simple t) known L s' known' L' ↔ known = known' ∧ L t.typeName = some s' ∧
      L = L' := by
  rw [Rebuilds, reparse, if_pos ht]
  constructor
  · rintro ⟨r, hr, hs⟩
    cases hr
    exact ⟨rfl, resolve_reference.mp hs⟩
  · rintro ⟨rfl, h⟩
    exact ⟨reference t.typeName, rfl, resolve_reference.mpr h⟩

theorem rebuilds_simple_of_not_mem {t : SimpleType} (ht : t.typeName ∉ known) :
    Rebuilds this (simple t) known L (simple t) known L := by
  rw [Rebuilds, reparse, if_neg ht]
  exact ⟨simple t, rfl, rfl⟩

theorem rebuilds_enum {vs : List String} (h : vs ≠ [] ∧ vs.Nodup) :
    Rebuilds this (enum vs) known L (enum vs) known L := by
  refine ⟨enum vs, ?_, rfl⟩
  rw [reparse, enumWith, if_pos h]
  rfl

/-! ## What is known -/

/-- The reader knows the first records. -/
structure Knows (known : List String) (d : Known) : Prop where
  mem_iff : ∀ n, n ∈ known ↔ d n ≠ none
  record : ∀ n r, d n = some r → ∃ fs, r = record n fs

/-- The constructor of `this` knows the names in scope. -/
structure Scopes (this : String) (inRecord : Bool) (L : Known) (names : Set String) : Prop where
  mem_iff : ∀ n, n ∈ names ↔ L n ≠ none
  resolved : L.Resolved
  this_eq : inRecord = true → L this = some self

/-- In so many steps, what the constructor knows inside the record `R'` are the first records. -/
def SameScope (k : Nat) (R' : Schema) (L d : Known) : Prop :=
  ∀ n l, L n = some l → ∃ r, d n = some r ∧ (closeWith R' l).upTo k = r.upTo k

variable {d d' : Known} {names : Set String} {R R' : Schema}

theorem SameScope.pred {j : Nat} (h : SameScope (j + 1) R' L d) : SameScope j R' L d := by
  intro n l hl
  obtain ⟨r, hr, heq⟩ := h n l hl
  exact ⟨r, hr, upTo_of_upTo_succ heq⟩

theorem Knows.push (h : Knows known d) (n : String) (fs : List (String × Schema)) :
    Knows (n :: known) (update d n (some (Schema.record n fs))) where
  mem_iff m := by
    by_cases hm : m = n
    · rw [hm, update_self]
      simp
    · rw [update_of_ne hm, ← h.mem_iff, List.mem_cons]
      simp [hm]
  record m r hr := by
    by_cases hm : m = n
    · rw [hm, update_self, Option.some.injEq] at hr
      exact ⟨fs, hm ▸ hr.symm⟩
    · rw [update_of_ne hm] at hr
      exact h.record m r hr

theorem scopes_knowing (n : String) (inRecord : Bool) : Scopes n inRecord (knowing n) {n} where
  mem_iff m := by
    rw [knowing, Set.mem_singleton_iff]
    by_cases hm : m = n
    · rw [hm, update_self]
      simp
    · rw [update_of_ne hm]
      simp [hm]
  resolved := Known.Resolved.update (fun _ _ h ↦ by cases h) (s := self) trivial n
  this_eq _ := by rw [knowing, update_self]

theorem sameScope_knowing {j : Nat} {R : Schema} (hR : R'.upTo j = R.upTo j) (d : Known)
    (n : String) : SameScope j R' (knowing n) (update d n (some R)) := by
  intro m l hl
  by_cases hm : m = n
  · rw [knowing, hm, update_self, Option.some.injEq] at hl
    subst hl
    exact ⟨R, by rw [hm, update_self], hR⟩
  · rw [knowing, update_of_ne hm] at hl
    cases hl

theorem Scopes.push {inRecord : Bool} (h : Scopes this inRecord L names) (hs : s.Resolved)
    (hn : inRecord = true → n ≠ this) :
    Scopes this inRecord (update L n (some s)) {m | m ∈ names ∨ m = n ∧ True} where
  mem_iff m := by
    rw [Set.mem_ofPred_eq]
    by_cases hm : m = n
    · rw [hm, update_self]
      simp
    · rw [update_of_ne hm, ← h.mem_iff]
      simp [hm]
  resolved := h.resolved.update hs n
  this_eq hr := by rw [update_of_ne (hn hr).symm, h.this_eq hr]

/-! ## Schemas that come back -/

/-- In so many steps, what has been built inside `R'` is the schema inside `R`, and the scopes stay
the same. -/
def Agrees (s s' : Schema) (L L' d d' : Known) : Prop :=
  ∀ (R R' : Schema) (j : Nat), R'.upTo j = R.upTo j → SameScope j R' L d →
    (closeWith R' s').upTo j = (closeWith R s).upTo j ∧ SameScope j R' L' d'

def AgreesList (ss ss' : List Schema) (L L' d d' : Known) : Prop :=
  ∀ (R R' : Schema) (j : Nat), R'.upTo j = R.upTo j → SameScope j R' L d →
    (ss'.map fun s ↦ (closeWith R' s).upTo j) = (ss.map fun s ↦ (closeWith R s).upTo j) ∧
      SameScope j R' L' d'

def AgreesFields (fs fs' : List (String × Schema)) (L d : Known) : Prop :=
  ∀ (R R' : Schema) (j : Nat), R'.upTo j = R.upTo j → SameScope j R' L d →
    (fs'.map fun f ↦ (f.1, (closeWith R' f.2).upTo j)) = fs.map fun f ↦
    (f.1, (closeWith R f.2).upTo j)

theorem Agrees.array {c' : Schema} (h : Agrees c c' L L' d d') : Agrees (array c) (array c')
    L L' d d' := by
  intro R R' j hR hscope
  refine ⟨?_, (h R R' j hR hscope).2⟩
  cases j with
  | zero => rfl
  | succ j =>
    rw [closeWith, closeWith, upTo, upTo, (h R R' j (upTo_of_upTo_succ hR) hscope.pred).1]

theorem Agrees.map {k' v' : Schema} {L₁ d₁ : Known} (hk : Agrees k k' L L₁ d d₁)
    (hv : Agrees v v' L₁ L' d₁ d') : Agrees (map k v) (map k' v') L L' d d' := by
  intro R R' j hR hscope
  refine ⟨?_, (hv R R' j hR (hk R R' j hR hscope).2).2⟩
  cases j with
  | zero => rfl
  | succ j =>
    obtain ⟨hk', hscope'⟩ := hk R R' j (upTo_of_upTo_succ hR) hscope.pred
    rw [closeWith, closeWith, upTo, upTo, hk', (hv R R' j (upTo_of_upTo_succ hR) hscope').1]

theorem AgreesList.union (h : AgreesList ss ss' L L' d d') : Agrees (union ss) (union ss')
    L L' d d' := by
  intro R R' j hR hscope
  refine ⟨?_, (h R R' j hR hscope).2⟩
  cases j with
  | zero => rfl
  | succ j =>
    have heq := (h R R' j (upTo_of_upTo_succ hR) hscope.pred).1
    rw [closeWith, closeWith, upTo, upTo, closeWithList_eq_map, closeWithList_eq_map, List.map_map,
      List.map_map]
    exact congrArg Schema.union heq

theorem Agrees.cons {L₁ d₁ : Known} (hs : Agrees s s' L L₁ d d₁)
    (hss : AgreesList ss ss' L₁ L' d₁ d') : AgreesList (s :: ss) (s' :: ss') L L' d d' := by
  intro R R' j hR hscope
  obtain ⟨hs', hscope'⟩ := hs R R' j hR hscope
  obtain ⟨hss', hscope''⟩ := hss R R' j hR hscope'
  refine ⟨?_, hscope''⟩
  rw [List.map_cons, List.map_cons, hs', hss']

theorem Agrees.consField {L₁ d₁ : Known} (hs : Agrees s s' L L₁ d d₁)
    (hfs : AgreesFields fs fs' L₁ d₁) : AgreesFields ((n, s) :: fs) ((n, s') :: fs') L d := by
  intro R R' j hR hscope
  obtain ⟨hs', hscope'⟩ := hs R R' j hR hscope
  rw [List.map_cons, List.map_cons, hs', hfs R R' j hR hscope']

/-- **A record is the same**, as it is what it puts into its own fields. -/
theorem AgreesFields.record (h : AgreesFields fs fs' (knowing n)
    (update d n (some (Schema.record n fs)))) :
      (Schema.record n fs').Same (Schema.record n fs) := by
  intro j
  induction j with
  | zero => rfl
  | succ j ih =>
    have heq := h (Schema.record n fs) (Schema.record n fs') j ih (sameScope_knowing ih d n)
    rw [upTo, upTo, heq]

/-- What comes of a schema that satisfies the condition. -/
structure Rebuilt (this : String) (inRecord : Bool) (s : Schema) (known : List String) (L d : Known)
    (names : Set String) (s' : Schema) (known' : List String) (L' : Known) : Prop where
  rebuilds : Rebuilds this s known L s' known' L'
  knows : Knows known' (firsts s d)
  scopes : Scopes this inRecord L' (scope s d names)
  resolved : s'.Resolved
  agrees : Agrees s s' L L' d (firsts s d)

/-- The same for the schemas of a union. -/
structure RebuiltList (this : String) (inRecord : Bool) (ss : List Schema) (known : List String)
    (L d : Known) (names : Set String) (ss' : List Schema) (known' : List String)
    (L' : Known) : Prop where
  rebuilds : RebuildsList this ss known L ss' known' L'
  knows : Knows known' (firstsList ss d)
  scopes : Scopes this inRecord L' (scopeList ss d names)
  resolved : ResolvedInList ss' ∅
  agrees : AgreesList ss ss' L L' d (firstsList ss d)

/-- The same for the fields of a record. -/
structure RebuiltFields (this : String) (fs : List (String × Schema)) (known : List String)
    (L d : Known) (fs' : List (String × Schema)) (known' : List String) : Prop where
  rebuilds : RebuildsFields this fs known L fs' known'
  knows : Knows known' (firstsFields fs d)
  resolved : ResolvedInFields fs' ∅
  agrees : AgreesFields fs fs' L d

/-- Nothing is known after it that was not before. -/
theorem rebuilt_of_agrees {inRecord : Bool} (hrebuilds : Rebuilds this s known L s' known L)
    (hfirsts : firsts s d = d) (hscope : scope s d names = names) (hknows : Knows known d)
    (hscopes : Scopes this inRecord L names) (hresolved : s'.Resolved)
    (h : ∀ (R R' : Schema) (j : Nat), R'.upTo j = R.upTo j → SameScope j R' L d →
      (closeWith R' s').upTo j = (closeWith R s).upTo j) :
    Rebuilt this inRecord s known L d names s' known L where
  rebuilds := hrebuilds
  knows := by rwa [hfirsts]
  scopes := by rwa [hscope]
  resolved := hresolved
  agrees R R' j hR hsame := ⟨h R R' j hR hsame, by rwa [hfirsts]⟩

mutual

/-- **A schema that satisfies the condition is built again.** -/
theorem exists_rebuilt : ∀ (s : Schema) (this : String) (inRecord : Bool) (known : List String)
    (L d : Known) (names : Set String), Knows known d → Scopes this inRecord L names →
      (inRecord = true → this ∈ known) → WellFormed s inRecord → Readable s d names →
        ∃ s' known' L', Rebuilt this inRecord s known L d names s' known' L'
  | simple t => fun this inRecord known L d names hknows hscopes _ _ h ↦ by
    have ht : t.typeName ∉ known := fun hmem ↦ (hknows.mem_iff t.typeName).mp hmem h
    exact ⟨simple t, known, L, rebuilt_of_agrees (rebuilds_simple_of_not_mem ht) rfl rfl hknows
      hscopes trivial fun _ _ _ _ _ ↦ rfl⟩
  | enum vs => fun this inRecord known L d names hknows hscopes _ hwf _ ↦
    ⟨enum vs, known, L, rebuilt_of_agrees (rebuilds_enum hwf) rfl rfl hknows hscopes trivial fun _
      _ _ _ _ ↦ rfl⟩
  | array c => fun this inRecord known L d names hknows hscopes hthis hwf h ↦ by
    obtain ⟨c', known', L', hc⟩ := exists_rebuilt c this inRecord known L d names hknows
      hscopes hthis hwf h
    exact ⟨array c', known', L', rebuilds_array.mpr ⟨c', hc.rebuilds, rfl⟩, hc.knows,
      hc.scopes, hc.resolved, hc.agrees.array⟩
  | map k v => fun this inRecord known L d names hknows hscopes hthis hwf h ↦ by
    obtain ⟨k', known₁, L₁, hk⟩ := exists_rebuilt k this inRecord known L d names hknows hscopes
      hthis hwf.1 h.1
    have hthis₁ : inRecord = true → this ∈ known₁ := fun hr ↦ by
      obtain ⟨r, hr⟩ := Option.ne_none_iff_exists'.mp ((hknows.mem_iff this).mp (hthis hr))
      rw [hk.knows.mem_iff, firsts_of_some k d hr]
      simp
    obtain ⟨v', known', L', hv⟩ := exists_rebuilt v this inRecord known₁ L₁ (firsts k d)
      (scope k d names) hk.knows hk.scopes hthis₁ hwf.2 h.2
    exact ⟨map k' v', known', L', rebuilds_map.mpr
      ⟨k', known₁, L₁, v', hk.rebuilds, hv.rebuilds, rfl⟩, hv.knows, hv.scopes,
        ⟨hk.resolved, hv.resolved⟩, hk.agrees.map hv.agrees⟩
  | union ss => fun this inRecord known L d names hknows hscopes hthis hwf h ↦ by
    obtain ⟨ss', known', L', hss⟩ :=
      exists_rebuiltList ss this inRecord known L d names hknows hscopes hthis hwf.2 h
    exact ⟨union ss', known', L', (rebuilds_union hwf.1).mpr ⟨ss', hss.rebuilds, rfl⟩,
      hss.knows, hss.scopes, hss.resolved, hss.agrees.union⟩
  | record n fs => fun this inRecord known L d names hknows hscopes hthis hwf h ↦ by
    cases hd : d n with
    | some r =>
      rw [Readable, hd] at h
      have hn : n ∈ known := (hknows.mem_iff n).mpr (by rw [hd]; simp)
      obtain ⟨l, hl⟩ := Option.ne_none_iff_exists'.mp ((hscopes.mem_iff n).mp h.1)
      have hnames : scope (record n fs) d names = names := by
        rw [scope, hd]
        simp
      refine ⟨l, known, L, rebuilt_of_agrees ((rebuilds_record_of_mem hn).mpr ⟨rfl, hl, rfl⟩)
        ?_ hnames hknows hscopes (hscopes.resolved n l hl) fun R R' j _ hsame ↦ ?_⟩
      · rw [firsts, hd]
      · obtain ⟨r', hr', heq⟩ := hsame n l hl
        obtain rfl : r = r' := Option.some.inj (hd.symm.trans hr')
        rw [heq, h.2 j]
        rfl
    | none =>
      rw [Readable, hd] at h
      have hn : n ∉ known := fun hmem ↦ (hknows.mem_iff n).mp hmem hd
      obtain ⟨fs', known', hfs⟩ := exists_rebuiltFields fs n (n :: known) (knowing n)
        (update d n (some (record n fs))) {n} (hknows.push n fs) (scopes_knowing n true)
          List.mem_cons_self
        hwf.2.2 h
      have hresolved : (record n fs').Resolved := hfs.resolved
      refine ⟨record n fs', known', update L n (some (record n fs')), ?_, ?_, ?_,
        hresolved, ?_⟩
      · exact (rebuilds_record_of_not_mem hn hwf.1 hwf.2.1).mpr ⟨fs', hfs.rebuilds, rfl, rfl⟩
      · rw [firsts, hd]
        exact hfs.knows
      · have hne : inRecord = true → n ≠ this := fun hr heq ↦ hn (heq ▸ hthis hr)
        have hpush := hscopes.push hresolved hne
        rw [scope, hd]
        simpa using hpush
      · intro R R' j hR hsame
        refine ⟨hfs.agrees.record j, fun m l hl ↦ ?_⟩
        by_cases hm : m = n
        · rw [hm, update_self, Option.some.injEq] at hl
          refine ⟨record n fs, ?_, hl ▸ hfs.agrees.record j⟩
          rw [firsts, hd, hm]
          exact firstsFields_of_some fs _ (by rw [update_self])
        · rw [update_of_ne hm] at hl
          obtain ⟨r, hr, heq⟩ := hsame m l hl
          exact ⟨r, firsts_of_some (record n fs) d hr, heq⟩
  | reference _ => fun _ _ _ _ _ _ _ _ _ hwf _ ↦ absurd hwf id
  | self => fun this inRecord known L d names hknows hscopes _ hwf _ ↦ by
    have hthis : L this = some self := hscopes.this_eq hwf
    exact ⟨self, known, L, rebuilt_of_agrees (rebuilds_self.mpr ⟨rfl, hthis, rfl⟩) rfl rfl hknows
      hscopes trivial fun _ _ _ hR _ ↦ hR⟩

theorem exists_rebuiltList : ∀ (ss : List Schema) (this : String) (inRecord : Bool)
    (known : List String) (L d : Known) (names : Set String), Knows known d →
      Scopes this inRecord L names → (inRecord = true → this ∈ known) → WellFormedList ss inRecord →
        ReadableList ss d names → ∃ ss' known' L', RebuiltList this inRecord ss known L d
          names ss' known' L'
  | [] => fun this inRecord known L d names hknows hscopes _ _ _ ↦
    ⟨[], known, L, rebuildsList_nil.mpr ⟨rfl, rfl, rfl⟩, hknows, hscopes, trivial,
      fun _ _ _ _ hsame ↦ ⟨rfl, hsame⟩⟩
  | s :: ss => fun this inRecord known L d names hknows hscopes hthis hwf h ↦ by
    obtain ⟨s', known₁, L₁, hs⟩ := exists_rebuilt s this inRecord known L d names hknows hscopes
      hthis hwf.1 h.1
    have hthis₁ : inRecord = true → this ∈ known₁ := fun hr ↦ by
      obtain ⟨r, hr⟩ := Option.ne_none_iff_exists'.mp ((hknows.mem_iff this).mp (hthis hr))
      rw [hs.knows.mem_iff, firsts_of_some s d hr]
      simp
    obtain ⟨ss', known', L', hss⟩ :=
      exists_rebuiltList ss this inRecord known₁ L₁ (firsts s d) (scope s d names)
      hs.knows hs.scopes hthis₁ hwf.2 h.2
    exact ⟨s' :: ss', known', L', rebuildsList_cons.mpr
      ⟨s', known₁, L₁, ss', hs.rebuilds, hss.rebuilds, rfl⟩, hss.knows, hss.scopes,
        ⟨hs.resolved, hss.resolved⟩, hs.agrees.cons hss.agrees⟩

theorem exists_rebuiltFields : ∀ (fs : List (String × Schema)) (this : String) (known : List String)
    (L d : Known) (names : Set String), Knows known d → Scopes this true L names → this ∈ known →
      WellFormedFields fs true → ReadableFields fs d names →
        ∃ fs' known', RebuiltFields this fs known L d fs' known'
  | [] => fun this known L d names hknows _ _ _ _ ↦
    ⟨[], known, rebuildsFields_nil.mpr ⟨rfl, rfl⟩, hknows, trivial, fun _ _ _ _ _ ↦ rfl⟩
  | (n, s) :: fs => fun this known L d names hknows hscopes hthis hwf h ↦ by
    obtain ⟨s', known₁, L₁, hs⟩ :=
      exists_rebuilt s this true known L d names hknows hscopes (fun _ ↦ hthis) hwf.1 h.1
    have hthis₁ : this ∈ known₁ := by
      obtain ⟨r, hr⟩ := Option.ne_none_iff_exists'.mp ((hknows.mem_iff this).mp hthis)
      rw [hs.knows.mem_iff, firsts_of_some s d hr]
      simp
    obtain ⟨fs', known', hfs⟩ := exists_rebuiltFields fs this known₁ L₁ (firsts s d)
      (scope s d names) hs.knows hs.scopes hthis₁ hwf.2 h.2
    exact ⟨(n, s') :: fs', known', rebuildsFields_cons.mpr
      ⟨s', known₁, L₁, fs', hs.rebuilds, hfs.rebuilds, rfl⟩, hfs.knows, ⟨hs.resolved, hfs.resolved⟩,
        hs.agrees.consField hfs.agrees⟩

end

/-! ## Schemas that come back satisfy the condition -/

theorem Rebuilds.unique {s₁ s₂ : Schema} {known₁ known₂ : List String} {L₁ L₂ : Known}
    (h : Rebuilds this s known L s₁ known₁ L₁) (h' : Rebuilds this s known L s₂ known₂ L₂) :
    s₁ = s₂ ∧ known₁ = known₂ ∧ L₁ = L₂ := by
  obtain ⟨r, hr, hs⟩ := h
  obtain ⟨r', hr', hs'⟩ := h'
  rw [hr] at hr'
  cases hr'
  rw [hs] at hs'
  cases hs'
  exact ⟨rfl, rfl, rfl⟩

theorem Knows.mem_firsts (hknows : Knows known d) (h : Knows known' (firsts s d)) (hn : n ∈ known) :
    n ∈ known' := by
  obtain ⟨r, hr⟩ := Option.ne_none_iff_exists'.mp ((hknows.mem_iff n).mp hn)
  rw [h.mem_iff, firsts_of_some s d hr]
  simp

mutual

/-- **A schema that is built again satisfies the condition**, if what comes out is the same inside
the same record. -/
theorem readable_of_same : ∀ (s : Schema) (this : String) (inRecord : Bool) (known : List String)
    (L d : Known) (names : Set String), Knows known d → Scopes this inRecord L names →
      (inRecord = true → this ∈ known) → WellFormed s inRecord →
        ∀ (s' : Schema) (known' : List String) (L' : Known) (R R' : Schema),
          Rebuilds this s known L s' known' L' → R'.Same R → (∀ j, SameScope j R' L d) →
            (closeWith R' s').Same (closeWith R s) → Readable s d names
  | simple t => fun this _ known L d names hknows _ _ _ s' known' L' R R' hs _ hsame h ↦ by
    by_contra hd
    have ht : t.typeName ∈ known := (hknows.mem_iff _).mpr hd
    obtain ⟨-, hl, -⟩ := (rebuilds_simple_of_mem ht).mp hs
    obtain ⟨r, hr, heq⟩ := hsame 1 _ _ hl
    obtain ⟨fs, rfl⟩ := hknows.record _ _ hr
    have h1 := h 1
    rw [heq] at h1
    cases h1
  | enum _ => fun _ _ _ _ _ _ _ _ _ _ _ _ _ _ _ _ _ _ _ ↦ trivial
  | array c =>
    fun this inRecord known L d names hknows hscopes hthis hwf s' known' L' R R' hs hR hsame h ↦ by
    obtain ⟨c', hc, rfl⟩ := rebuilds_array.mp hs
    refine readable_of_same c this inRecord known L d names hknows hscopes hthis hwf c' known' L' R
      R' hc hR hsame fun j ↦ ?_
    have hj := h (j + 1)
    rw [closeWith, closeWith, upTo, upTo, array.injEq] at hj
    exact hj
  | map k v =>
    fun this inRecord known L d names hknows hscopes hthis hwf s' known' L' R R' hs hR hsame h ↦ by
    obtain ⟨k', known₁, L₁, v', hk, hv, rfl⟩ := rebuilds_map.mp hs
    have hsucc : ∀ j, (closeWith R' k').upTo j = (closeWith R k).upTo j ∧
        (closeWith R' v').upTo j = (closeWith R v).upTo j := by
      intro j
      have hj := h (j + 1)
      rw [closeWith, closeWith, upTo, upTo, map.injEq] at hj
      exact hj
    have hreadable := readable_of_same k this inRecord known L d names hknows hscopes hthis hwf.1 k'
      known₁ L₁ R R' hk hR hsame fun j ↦ (hsucc j).1
    obtain ⟨k'', known₂, L₂, hbuilt⟩ :=
      exists_rebuilt k this inRecord known L d names hknows hscopes hthis hwf.1 hreadable
    obtain ⟨rfl, rfl, rfl⟩ := hbuilt.rebuilds.unique hk
    exact ⟨hreadable, readable_of_same v this inRecord known₂ L₂ (firsts k d)
      (scope k d names) hbuilt.knows hbuilt.scopes
      (fun hr ↦ hknows.mem_firsts hbuilt.knows (hthis hr)) hwf.2 v' known' L' R R' hv hR
      (fun j ↦ (hbuilt.agrees R R' j (hR j) (hsame j)).2) fun j ↦ (hsucc j).2⟩
  | union ss =>
    fun this inRecord known L d names hknows hscopes hthis hwf s' known' L' R R' hs hR hsame h ↦ by
    obtain ⟨ss', hss, rfl⟩ := (rebuilds_union hwf.1).mp hs
    refine readableList_of_same ss this inRecord known L d names hknows hscopes hthis hwf.2 ss'
      known' L' R R' hss hR hsame fun j ↦ ?_
    have hj := h (j + 1)
    rw [closeWith, closeWith, upTo, upTo, union.injEq, closeWithList_eq_map, closeWithList_eq_map,
      List.map_map, List.map_map] at hj
    exact hj
  | record n fs =>
    fun this inRecord known L d names hknows hscopes hthis hwf s' known' L' R R' hs hR hsame h ↦ by
    cases hd : d n with
    | some r =>
      have hn : n ∈ known := (hknows.mem_iff n).mpr (by rw [hd]; simp)
      obtain ⟨-, hl, -⟩ := (rebuilds_record_of_mem hn).mp hs
      rw [Readable, hd]
      refine ⟨(hscopes.mem_iff n).mpr (by rw [hl]; simp), fun j ↦ ?_⟩
      obtain ⟨r', hr', heq⟩ := hsame j n s' hl
      obtain rfl : r = r' := Option.some.inj (hd.symm.trans hr')
      rw [← heq]
      exact h j
    | none =>
      have hn : n ∉ known := fun hmem ↦ (hknows.mem_iff n).mp hmem hd
      obtain ⟨fs', hfs, rfl, rfl⟩ := (rebuilds_record_of_not_mem hn hwf.1 hwf.2.1).mp hs
      rw [Readable, hd]
      have hsame' : (record n fs').Same (record n fs) := h
      refine readableFields_of_same fs n (n :: known) (knowing n)
        (update d n (some (record n fs))) {n}
        (hknows.push n fs) (scopes_knowing n true) List.mem_cons_self hwf.2.2 fs' known'
        (record n fs) (record n fs')
        hfs hsame' (fun j ↦ sameScope_knowing (hsame' j) d n) fun j ↦ ?_
      have hj := hsame' (j + 1)
      rw [upTo, upTo, record.injEq] at hj
      exact hj.2
  | reference _ => fun _ _ _ _ _ _ _ _ _ hwf _ _ _ _ _ _ _ _ _ ↦ absurd hwf id
  | self => fun _ _ _ _ _ _ _ _ _ _ _ _ _ _ _ _ _ _ _ ↦ trivial

theorem readableList_of_same : ∀ (ss : List Schema) (this : String) (inRecord : Bool)
    (known : List String) (L d : Known) (names : Set String), Knows known d →
      Scopes this inRecord L names → (inRecord = true → this ∈ known) → WellFormedList ss inRecord →
        ∀ (ss' : List Schema) (known' : List String) (L' : Known) (R R' : Schema),
          RebuildsList this ss known L ss' known' L' → R'.Same R → (∀ j, SameScope j R' L d) →
            (∀ j, (ss'.map fun s ↦ (closeWith R' s).upTo j) = ss.map fun s ↦
              (closeWith R s).upTo j) → ReadableList ss d names
  | [] => fun _ _ _ _ _ _ _ _ _ _ _ _ _ _ _ _ _ _ _ ↦ trivial
  | s :: ss =>
    fun this inRecord known L d names hknows hscopes hthis hwf ss' known' L' R R' hcons
      hR hsame h ↦ by
    obtain ⟨s', known₁, L₁, ss', hs, hss, rfl⟩ := rebuildsList_cons.mp hcons
    simp only [List.map_cons, List.cons.injEq] at h
    have hreadable := readable_of_same s this inRecord known L d names hknows hscopes hthis hwf.1 s'
      known₁ L₁ R R' hs hR hsame fun j ↦ (h j).1
    obtain ⟨s'', known₂, L₂, hbuilt⟩ :=
      exists_rebuilt s this inRecord known L d names hknows hscopes hthis hwf.1 hreadable
    obtain ⟨rfl, rfl, rfl⟩ := hbuilt.rebuilds.unique hs
    exact ⟨hreadable, readableList_of_same ss this inRecord known₂ L₂ (firsts s d)
      (scope s d names) hbuilt.knows hbuilt.scopes
      (fun hr ↦ hknows.mem_firsts hbuilt.knows (hthis hr)) hwf.2 ss' known' L' R R' hss hR
      (fun j ↦ (hbuilt.agrees R R' j (hR j) (hsame j)).2) fun j ↦ (h j).2⟩

theorem readableFields_of_same : ∀ (fs : List (String × Schema)) (this : String)
    (known : List String) (L d : Known) (names : Set String), Knows known d →
      Scopes this true L names → this ∈ known → WellFormedFields fs true →
        ∀ (fs' : List (String × Schema)) (known' : List String) (R R' : Schema),
        RebuildsFields this fs known L fs' known' → R'.Same R → (∀ j, SameScope j R' L d) →
          (∀ j, (fs'.map fun f ↦ (f.1, (closeWith R' f.2).upTo j)) = fs.map fun f ↦
            (f.1, (closeWith R f.2).upTo j)) → ReadableFields fs d names
  | [] => fun _ _ _ _ _ _ _ _ _ _ _ _ _ _ _ _ _ ↦ trivial
  | (n, s) :: fs =>
    fun this known L d names hknows hscopes hthis hwf fs' known' R R' hcons hR hsame h ↦ by
    obtain ⟨s', known₁, L₁, fs', hs, hfs, rfl⟩ := rebuildsFields_cons.mp hcons
    simp only [List.map_cons, List.cons.injEq, Prod.mk.injEq] at h
    have hreadable := readable_of_same s this true known L d names hknows hscopes (fun _ ↦ hthis)
      hwf.1 s' known₁ L₁ R R' hs hR hsame fun j ↦ (h j).1.2
    obtain ⟨s'', known₂, L₂, hbuilt⟩ :=
      exists_rebuilt s this true known L d names hknows hscopes (fun _ ↦ hthis) hwf.1 hreadable
    obtain ⟨rfl, rfl, rfl⟩ := hbuilt.rebuilds.unique hs
    exact ⟨hreadable, readableFields_of_same fs this known₂ L₂ (firsts s d)
      (scope s d names) hbuilt.knows hbuilt.scopes (hknows.mem_firsts hbuilt.knows hthis) hwf.2 fs'
        known' R R' hfs hR
      (fun j ↦ (hbuilt.agrees R R' j (hR j) (hsame j)).2) fun j ↦ (h j).2⟩

end

/-! ## Outside of records -/

mutual

/-- A schema with nothing left to resolve stays as it is. -/
theorem resolveSchema_of_resolved : ∀ (s : Schema) (L : Known), s.Resolved → ∃ L',
    resolveSchema s L = .ok (s, L')
  | simple _ => fun L _ ↦ ⟨L, rfl⟩
  | enum _ => fun L _ ↦ ⟨L, rfl⟩
  | array c => fun L h ↦ by
    obtain ⟨L', hc⟩ := resolveSchema_of_resolved c L h
    refine ⟨L', ?_⟩
    rw [resolveSchema, hc]
    rfl
  | map k v => fun L h ↦ by
    obtain ⟨L₁, hk⟩ := resolveSchema_of_resolved k L h.1
    obtain ⟨L', hv⟩ := resolveSchema_of_resolved v L₁ h.2
    refine ⟨L', ?_⟩
    rw [resolveSchema, hk]
    show (resolveSchema v L₁ >>= _) = _
    rw [hv]
    rfl
  | union ss => fun L h ↦ by
    obtain ⟨L', hss⟩ := resolveSchemas_of_resolved ss L h
    refine ⟨L', ?_⟩
    rw [resolveSchema, hss]
    rfl
  | record _ _ => fun _ _ ↦ ⟨_, rfl⟩
  | reference _ => fun _ h ↦ absurd h (Set.notMem_empty _)
  | self => fun L _ ↦ ⟨L, rfl⟩

theorem resolveSchemas_of_resolved : ∀ (ss : List Schema) (L : Known), ResolvedInList ss ∅ →
    ∃ L', resolveSchemas ss L = .ok (ss, L')
  | [] => fun L _ ↦ ⟨L, rfl⟩
  | s :: ss => fun L h ↦ by
    obtain ⟨L₁, hs⟩ := resolveSchema_of_resolved s L h.1
    obtain ⟨L', hss⟩ := resolveSchemas_of_resolved ss L₁ h.2
    refine ⟨L', ?_⟩
    rw [resolveSchemas, hs]
    show (resolveSchemas ss L₁ >>= _) = _
    rw [hss]
    rfl

end

mutual

/-- Without a constructor, a schema is resolved if no record is used again. -/
theorem resolved_iff_fresh : ∀ (s : Schema) (known : List String) (L d : Known)
    (names : Set String), Knows known d → Scopes "" false L names → WellFormed s false →
      Readable s d names → ∀ (r : Schema) (known' : List String), reparse "" s known =
        .ok (r, known') → (r.Resolved ↔ Fresh s d)
  | simple t => fun known L d names hknows _ _ h r known' hr ↦ by
    have ht : t.typeName ∉ known := fun hmem ↦ (hknows.mem_iff t.typeName).mp hmem h
    rw [reparse, if_neg ht] at hr
    cases hr
    exact Iff.rfl
  | enum vs => fun known L d names _ _ _ _ r known' hr ↦ by
    obtain ⟨s', hs', hr⟩ := except_bind_eq_ok_iff.mp hr
    cases hr
    rw [enumWith] at hs'
    split at hs' <;> cases hs'
    exact Iff.rfl
  | array c => fun known L d names hknows hscopes hwf h r known' hr ↦ by
    obtain ⟨⟨rc, known₁⟩, hc, hr⟩ := except_bind_eq_ok_iff.mp hr
    cases hr
    exact resolved_iff_fresh c known L d names hknows hscopes hwf h rc known' hc
  | map k v => fun known L d names hknows hscopes hwf h r known' hr ↦ by
    obtain ⟨⟨rk, known₁⟩, hk, hr⟩ := except_bind_eq_ok_iff.mp hr
    obtain ⟨⟨rv, known₂⟩, hv, hr⟩ := except_bind_eq_ok_iff.mp hr
    cases hr
    obtain ⟨k', known₂, L₁, hbuilt⟩ :=
      exists_rebuilt k "" false known L d names hknows hscopes (fun h ↦ by cases h) hwf.1 h.1
    obtain ⟨rk', hk', -⟩ := hbuilt.rebuilds
    rw [hk] at hk'
    cases hk'
    exact and_congr (resolved_iff_fresh k known L d names hknows hscopes hwf.1 h.1 rk known₁ hk)
      (resolved_iff_fresh v known₁ L₁ (firsts k d) (scope k d names) hbuilt.knows hbuilt.scopes
        hwf.2 h.2 rv known' hv)
  | union ss => fun known L d names hknows hscopes hwf h r known' hr ↦ by
    obtain ⟨⟨rs, known₁⟩, hrs, hr⟩ := except_bind_eq_ok_iff.mp hr
    obtain ⟨u, hu, hr⟩ := except_bind_eq_ok_iff.mp hr
    cases hr
    rw [unionOf] at hu
    split at hu <;> cases hu
    exact resolvedList_iff_fresh ss known L d names hknows hscopes hwf.2 h rs known' hrs
  | record n fs => fun known L d names hknows hscopes hwf h r known' hr ↦ by
    cases hd : d n with
    | some r' =>
      have hn : n ∈ known := (hknows.mem_iff n).mpr (by rw [hd]; simp)
      rw [reparse, if_pos hn] at hr
      cases hr
      rw [Fresh, hd]
      exact iff_of_false (Set.notMem_empty n) (fun h ↦ by cases h)
    | none =>
      have hn : n ∉ known := fun hmem ↦ (hknows.mem_iff n).mp hmem hd
      obtain ⟨s', known₁, L₁, hbuilt⟩ :=
        exists_rebuilt (record n fs) "" false known L d names hknows hscopes
          (fun h ↦ by cases h) hwf h
      obtain ⟨r', hr', hs'⟩ := hbuilt.rebuilds
      rw [hr] at hr'
      cases hr'
      rw [reparse, if_neg hn] at hr
      obtain ⟨⟨rs, known₁⟩, hrs, hr⟩ := except_bind_eq_ok_iff.mp hr
      obtain ⟨r', hr', hr⟩ := except_bind_eq_ok_iff.mp hr
      cases hr
      rw [recordOf] at hr'
      split at hr'
      · obtain ⟨fs', -, hr'⟩ := except_bind_eq_ok_iff.mp hr'
        cases hr'
        cases hs'
        exact iff_of_true hbuilt.resolved hd
      · cases hr'
  | reference _ => fun _ _ _ _ _ _ hwf _ ↦ absurd hwf id
  | self => fun _ _ _ _ _ _ hwf _ ↦ by cases hwf

theorem resolvedList_iff_fresh : ∀ (ss : List Schema) (known : List String) (L d : Known)
    (names : Set String), Knows known d → Scopes "" false L names → WellFormedList ss false →
      ReadableList ss d names → ∀ (rs : List Schema) (known' : List String),
        reparseList "" ss known = .ok (rs, known') → (ResolvedInList rs ∅ ↔ FreshList ss d)
  | [] => fun known L d names _ _ _ _ rs known' hrs ↦ by
    cases hrs
    exact Iff.rfl
  | s :: ss => fun known L d names hknows hscopes hwf h rs known' hrs ↦ by
    obtain ⟨⟨r, known₁⟩, hs, hrs⟩ := except_bind_eq_ok_iff.mp hrs
    obtain ⟨⟨rs, known₂⟩, hss, hrs⟩ := except_bind_eq_ok_iff.mp hrs
    cases hrs
    obtain ⟨s', known₂, L₁, hbuilt⟩ :=
      exists_rebuilt s "" false known L d names hknows hscopes (fun h ↦ by cases h) hwf.1 h.1
    obtain ⟨r', hr', -⟩ := hbuilt.rebuilds
    rw [hs] at hr'
    cases hr'
    exact and_congr (resolved_iff_fresh s known L d names hknows hscopes hwf.1 h.1 r known₁ hs)
      (resolvedList_iff_fresh ss known₁ L₁ (firsts s d) (scope s d names) hbuilt.knows
        hbuilt.scopes hwf.2 h.2 rs known' hss)

end

mutual

/-- What the constructors check.  Outside of records there may still be names. -/
def Constructed : Schema → Prop
  | simple _ => True
  | enum vs => vs ≠ [] ∧ vs.Nodup
  | array c => Constructed c
  | map k v => Constructed k ∧ Constructed v
  | union ss => ss ≠ [] ∧ ConstructedList ss
  | record n fs => WellFormed (record n fs) false
  | reference _ => True
  | self => False

def ConstructedList : List Schema → Prop
  | [] => True
  | s :: ss => Constructed s ∧ ConstructedList ss

end

mutual

theorem wellFormed_of_fresh : ∀ (s : Schema) (d : Known), Constructed s → Fresh s d →
    WellFormed s false
  | simple _ => fun _ _ _ ↦ trivial
  | enum _ => fun _ h _ ↦ h
  | array c => fun d h hd ↦ wellFormed_of_fresh c d h hd
  | map k v =>
    fun d h hd ↦ ⟨wellFormed_of_fresh k d h.1 hd.1, wellFormed_of_fresh v (firsts k d) h.2 hd.2⟩
  | union ss => fun d h hd ↦ ⟨h.1, wellFormedList_of_fresh ss d h.2 hd⟩
  | record _ _ => fun _ h _ ↦ h
  | reference _ => fun _ _ hd ↦ absurd hd id
  | self => fun _ h _ ↦ absurd h id

theorem wellFormedList_of_fresh : ∀ (ss : List Schema) (d : Known), ConstructedList ss →
    FreshList ss d → WellFormedList ss false
  | [] => fun _ _ _ ↦ trivial
  | s :: ss =>
    fun d h hd ↦ ⟨wellFormed_of_fresh s d h.1 hd.1,
      wellFormedList_of_fresh ss (firsts s d) h.2 hd.2⟩

end

mutual

/-- What is the same as a schema with nothing left to resolve has no names. -/
theorem wellFormed_of_same : ∀ (s r : Schema), Constructed s → r.Same s → r.Resolved →
    WellFormed s false
  | simple _ => fun _ _ _ _ ↦ trivial
  | enum _ => fun _ h _ _ ↦ h
  | array c => fun r h hsame hr ↦ by
    cases r with
    | array rc => exact wellFormed_of_same c rc h (fun j ↦ by simpa [upTo] using hsame (j + 1)) hr
    | _ => cases hsame 1
  | map k v => fun r h hsame hr ↦ by
    cases r with
    | map rk rv =>
      have hsucc : ∀ j, rk.upTo j = k.upTo j ∧ rv.upTo j = v.upTo j :=
        fun j ↦ by simpa [upTo] using hsame (j + 1)
      exact ⟨wellFormed_of_same k rk h.1 (fun j ↦ (hsucc j).1) hr.1,
        wellFormed_of_same v rv h.2 (fun j ↦ (hsucc j).2) hr.2⟩
    | _ => cases hsame 1
  | union ss => fun r h hsame hr ↦ by
    cases r with
    | union rs =>
      exact ⟨h.1, wellFormedList_of_same ss rs h.2
        (fun j ↦ by simpa only [upTo, union.injEq] using hsame (j + 1)) hr⟩
    | _ => cases hsame 1
  | record _ _ => fun _ h _ _ ↦ h
  | reference n => fun r _ hsame hr ↦ by
    cases r with
    | reference m => exact absurd hr (Set.notMem_empty m)
    | _ => cases hsame 1
  | self => fun _ h _ _ ↦ absurd h id

theorem wellFormedList_of_same : ∀ (ss rs : List Schema), ConstructedList ss →
    (∀ j, rs.map (upTo j) = ss.map (upTo j)) → ResolvedInList rs ∅ → WellFormedList ss false
  | [] => fun _ _ _ _ ↦ trivial
  | s :: ss => fun rs h hsame hrs ↦ by
    cases rs with
    | nil => cases hsame 0
    | cons r rs =>
      simp only [List.map_cons, List.cons.injEq] at hsame
      exact ⟨wellFormed_of_same s r h.1 (fun j ↦ (hsame j).1) hrs.1,
        wellFormedList_of_same ss rs h.2 (fun j ↦ (hsame j).2) hrs.2⟩

end

mutual

/-- Nothing is put in. -/
theorem closeWith_self : ∀ s : Schema, closeWith self s = s
  | simple _ => rfl
  | enum _ => rfl
  | array c => by rw [closeWith, closeWith_self c]
  | map k v => by rw [closeWith, closeWith_self k, closeWith_self v]
  | union ss => by rw [closeWith, closeWithList_self ss]
  | record _ _ => rfl
  | reference _ => rfl
  | self => rfl

theorem closeWithList_self : ∀ ss : List Schema, closeWithList self ss = ss
  | [] => rfl
  | s :: ss => by rw [closeWithList, closeWith_self s, closeWithList_self ss]

end

/-! ## The way through JSON -/

/-- Of a schema with no names, what is read is `reparse`. -/
theorem roundTrips_iff_reparse (h : WellFormed s false) :
    RoundTrips s ↔ ∃ r known', reparse "" s [] = .ok (r, known') ∧ r.Same s ∧ r.Resolved := by
  obtain ⟨l, known, hw, -⟩ := exists_writes s false "" [] h (fun h ↦ by cases h)
  constructor
  · rintro ⟨tokens, known₁, r, htokens, ⟨enough, hread⟩, hsame, hresolved⟩
    rw [hw.write] at htokens
    cases htokens
    obtain ⟨known', hr⟩ := hread (max enough (sizeOf s)) (le_max_left _ _)
    have hruns := hw.read (max enough (sizeOf s)) (le_max_right _ _)
    rw [← List.append_nil l] at hr
    cases hreparse : reparse "" s [] with
    | error e =>
      rw [hreparse] at hruns
      obtain ⟨rest, herror⟩ := hruns []
      rw [hr] at herror
      cases herror
    | ok result =>
      rw [hreparse] at hruns
      have hok := hr.symm.trans (hruns [])
      cases hok
      exact ⟨r, known', rfl, hsame, hresolved⟩
  · rintro ⟨r, known', hr, hsame, hresolved⟩
    refine ⟨l, known, r, hw.write, ⟨sizeOf s, fun fuel hfuel ↦ ⟨known', ?_⟩⟩, hsame, hresolved⟩
    have hruns := hw.read fuel hfuel
    rw [hr] at hruns
    have hok := hruns []
    rwa [List.append_nil] at hok

theorem knows_nothing : Knows [] fun _ ↦ none where
  mem_iff n := by simp
  record n r h := by cases h

theorem scopes_nothing : Scopes "" false (fun _ ↦ none) ∅ where
  mem_iff n := by simp
  resolved _ _ h := by cases h
  this_eq h := by cases h

theorem sameScope_nothing (j : Nat) (R : Schema) : SameScope j R (fun _ ↦ none) fun _ ↦ none :=
  fun _ _ h ↦ by cases h

/-- **A schema comes back from JSON if, and only if, each record that is used again is used among
the fields of the record in which it was used first**, and in no other way: not outside of records,
not as another record of that name, and not as a simple type. -/
theorem roundTrips_iff (s : Schema) (h : Constructed s) :
    RoundTrips s ↔ Readable s (fun _ ↦ none) ∅ ∧ Fresh s fun _ ↦ none := by
  constructor
  · intro hrt
    obtain ⟨-, -, r, -, -, hsame, hresolved⟩ := id hrt
    have hwf := wellFormed_of_same s r h hsame hresolved
    obtain ⟨r, known', hr, hsame, hresolved⟩ := (roundTrips_iff_reparse hwf).mp hrt
    obtain ⟨L', hL'⟩ := resolveSchema_of_resolved r (fun _ ↦ none) hresolved
    have hreadable := readable_of_same s "" false [] (fun _ ↦ none) (fun _ ↦ none) ∅ knows_nothing
      scopes_nothing (fun h ↦ by cases h) hwf r known' L' self self ⟨r, hr, hL'⟩ (fun _ ↦ rfl)
        (fun j ↦ sameScope_nothing j self)
      (by rwa [closeWith_self, closeWith_self])
    exact ⟨hreadable, (resolved_iff_fresh s [] (fun _ ↦ none) (fun _ ↦ none) ∅ knows_nothing
      scopes_nothing hwf hreadable r known' hr).mp hresolved⟩
  · rintro ⟨hreadable, hfresh⟩
    have hwf := wellFormed_of_fresh s _ h hfresh
    obtain ⟨s', known', L', hbuilt⟩ :=
      exists_rebuilt s "" false [] (fun _ ↦ none) (fun _ ↦ none) ∅ knows_nothing
      scopes_nothing (fun h ↦ by cases h) hwf hreadable
    obtain ⟨r, hr, hs'⟩ := hbuilt.rebuilds
    have hresolved := (resolved_iff_fresh s [] (fun _ ↦ none) (fun _ ↦ none) ∅ knows_nothing
      scopes_nothing hwf hreadable r known' hr).mpr hfresh
    obtain ⟨L₁, hL₁⟩ := resolveSchema_of_resolved r (fun _ ↦ none) hresolved
    obtain rfl : r = s' := by
      rw [hL₁] at hs'
      cases hs'
      rfl
    refine (roundTrips_iff_reparse hwf).mpr ⟨r, known', hr, fun j ↦ ?_, hresolved⟩
    have hj := (hbuilt.agrees self self j rfl (sameScope_nothing j self)).1
    rwa [closeWith_self, closeWith_self] at hj

/-- A record with a field, in which there are two of another record. -/
def siblings : Schema :=
  record "R" [("a", record "S" [("x", simple .int)]),
    ("b", array (record "S" [("x", simple .int)])), ("c", self)]

theorem roundTrips_siblings : RoundTrips siblings := by
  refine (roundTrips_iff siblings ?_).mpr ⟨?_, rfl⟩
  · simp [siblings, Constructed, WellFormed, WellFormedFields]
  · simp [siblings, Readable, ReadableFields, firsts, firstsFields, scope, update,
      SimpleType.typeName, Same]

/-- The second time, `S` is used in another record. -/
def nested : Schema :=
  record "R" [("a", record "S" [("x", simple .int)]),
    ("b", record "T" [("y", record "S" [("x", simple .int)])])]

/-- The reader throws: the constructor of `T` does not know `S`. -/
theorem not_roundTrips_nested :
    Constructed nested ∧ reparse "" nested [] = .error .illegalArgument ∧ ¬ RoundTrips nested := by
  have hconstructed : Constructed nested :=
    by simp [nested, Constructed, WellFormed, WellFormedFields]
  have herror : reparse "" nested [] = .error .illegalArgument := rfl
  refine ⟨hconstructed, herror, fun h ↦ ?_⟩
  obtain ⟨r, known', hr, -⟩ := (roundTrips_iff_reparse hconstructed).mp h
  cases herror.symm.trans hr

end Tigon.Io
