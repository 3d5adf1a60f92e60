import Tigon.Hfta.LinkedTable

/-!
# The hash table in memory and as lists

The pointers of a `LinkedTable` stand for a `HashTable`, whose items come with their addresses: the
buckets in use are linked in both directions, and each chain is linked from its bucket on
(`Represents`).  No other items are in memory.

To represent is a relation between the two tables, so what holds of the lists in every run holds of
the pointers.  That an operation comes to an end is a part of it: a loop over a chain ends only if
the chain is a list.

* `Represents.insert`, `Represents.eraseWith`, `Represents.clear`, `Represents.rehash` — **what an
  operation does with the pointers is what it does with the lists**, and it comes to an end.
-/

set_option autoImplicit false

namespace Tigon.Hfta

open LinkedList While Function List

universe u v

variable {K : Type u} {V : Type v}

namespace LinkedTable

/-! ## The links of a table -/

def nexts (buckets : Nat → HashBucket) (i : Nat) : Option Nat := (buckets i).nextBucket

def prevs (buckets : Nat → HashBucket) (i : Nat) : Option Nat := (buckets i).prevBucket

def datas (buckets : Nat → HashBucket) (i : Nat) : Option Nat := (buckets i).data

/-- The links of the chains. -/
def links (items : Nat → Option (DataItem K V)) (a : Nat) : Option Nat :=
  (items a).bind DataItem.next

section

variable (t : LinkedTable K V) (i : Nat) (p : Option Nat)

@[simp] theorem nexts_setNextBucket : nexts (t.setNextBucket i p).buckets =
    update (nexts t.buckets) i p :=
  comp_update HashBucket.nextBucket _ _ _

@[simp] theorem prevs_setNextBucket : prevs (t.setNextBucket i p).buckets = prevs t.buckets :=
  (comp_update HashBucket.prevBucket _ _ _).trans (update_eq_self i _)

@[simp] theorem datas_setNextBucket : datas (t.setNextBucket i p).buckets = datas t.buckets :=
  (comp_update HashBucket.data _ _ _).trans (update_eq_self i _)

@[simp] theorem nexts_setPrevBucket : nexts (t.setPrevBucket i p).buckets = nexts t.buckets :=
  (comp_update HashBucket.nextBucket _ _ _).trans (update_eq_self i _)

@[simp] theorem prevs_setPrevBucket : prevs (t.setPrevBucket i p).buckets =
    update (prevs t.buckets) i p :=
  comp_update HashBucket.prevBucket _ _ _

@[simp] theorem datas_setPrevBucket : datas (t.setPrevBucket i p).buckets = datas t.buckets :=
  (comp_update HashBucket.data _ _ _).trans (update_eq_self i _)

@[simp] theorem nexts_setData : nexts (t.setData i p).buckets = nexts t.buckets :=
  (comp_update HashBucket.nextBucket _ _ _).trans (update_eq_self i _)

@[simp] theorem prevs_setData : prevs (t.setData i p).buckets = prevs t.buckets :=
  (comp_update HashBucket.prevBucket _ _ _).trans (update_eq_self i _)

@[simp] theorem datas_setData : datas (t.setData i p).buckets =
    update (datas t.buckets) i p :=
  comp_update HashBucket.data _ _ _

end

/-- A bucket is put behind the last one of those in use. -/
theorem exists_appendBucket (t : LinkedTable K V) (i : Nat)
    (hlast : t.firstBucket = none ↔ t.lastBucket = none) (hprev : prevs t.buckets i = none) :
    ∃ b, t.appendBucket i =
        some { t with
          buckets := b, firstBucket := t.firstBucket.or (some i), lastBucket := some i } ∧
      nexts b = setAt (nexts t.buckets) t.lastBucket (some i) ∧
      prevs b = update (prevs t.buckets) i t.lastBucket ∧ datas b = datas t.buckets := by
  rcases hfirst : t.firstBucket with _ | first
  · have hnone := hlast.mp hfirst
    refine ⟨t.buckets, ?_, by rw [hnone]; rfl, ?_, rfl⟩
    · simp only [appendBucket, hfirst, hnone, Option.map_some, Option.none_or]
    · rw [hnone, ← hprev, update_eq_self]
  · rcases hl : t.lastBucket with _ | last
    · cases hfirst.symm.trans (hlast.mpr hl)
    · refine ⟨((t.setNextBucket last (some i)).setPrevBucket i (some last)).buckets, ?_,
        by simp [setAt], by simp, by simp⟩
      simp only [appendBucket, hfirst, hl, Option.map_some]
      simp [setNextBucket, setPrevBucket, hl, hfirst]

/-- The neighbours of a bucket are linked to each other. -/
theorem exists_unlinkBucket (t : LinkedTable K V) (i : Nat) (hnext : nexts t.buckets i ≠ some i) :
    ∃ b, t.unlinkBucket i =
        { t with
          buckets := b
          firstBucket := if prevs t.buckets i = none then nexts t.buckets i else t.firstBucket
          lastBucket := if nexts t.buckets i = none then prevs t.buckets i else t.lastBucket } ∧
      nexts b = update (setAt (nexts t.buckets) (prevs t.buckets i) (nexts t.buckets i))
        i none ∧
      prevs b = update (setAt (prevs t.buckets) (nexts t.buckets i) (prevs t.buckets i))
        i none ∧
      datas b = datas t.buckets := by
  refine ⟨(t.unlinkBucket i).buckets, ?_⟩
  have hset : ∀ {n p}, nexts t.buckets i = some n → (t.setPrevBucket n p).buckets i =
    t.buckets i := by
    intro n p hn
    exact update_of_ne (fun h ↦ hnext (hn.trans (congrArg some h.symm))) _ _
  rcases hn : nexts t.buckets i with _ | n <;> rcases hp : prevs t.buckets i with _ | p
  · have hn' : (t.buckets i).nextBucket = none := hn
    have hp' : (t.buckets i).prevBucket = none := hp
    simp [unlinkBucket, hn', hp', setAt]
    rfl
  · have hn' : (t.buckets i).nextBucket = none := hn
    have hp' : (t.buckets i).prevBucket = some p := hp
    simp [unlinkBucket, hn', hp', setAt]
    rfl
  · have hn' : (t.buckets i).nextBucket = some n := hn
    have hp' : (t.buckets i).prevBucket = none := hp
    simp [unlinkBucket, hn', hp', hset hn, setAt]
    rfl
  · have hn' : (t.buckets i).nextBucket = some n := hn
    have hp' : (t.buckets i).prevBucket = some p := hp
    simp [unlinkBucket, hn', hp', hset hn, setAt]
    rfl

/-! ## What a table represents -/

/-- The address of an item. -/
def addr (e : K × Nat × V) : Nat := e.2.1

def addrs (es : List (K × Nat × V)) : List Nat := es.map addr

/-- The item is in memory. -/
def Stored (items : Nat → Option (DataItem K V)) (e : K × Nat × V) : Prop :=
  ∃ next, items (addr e) = some ⟨e.1, e.2.2, next⟩

/-- The chains of the buckets, and no other items, are in memory. -/
structure Chains (items : Nat → Option (DataItem K V)) (data : Nat → Option Nat)
    (chain : Nat → List (K × Nat × V)) : Prop where
  linked : ∀ i, Linked (links items) (data i) (addrs (chain i))
  stored : ∀ i, ∀ e ∈ chain i, Stored items e
  allocated : ∀ a, items a ≠ none → ∃ i, a ∈ addrs (chain i)

namespace Chains

variable {items items' : Nat → Option (DataItem K V)} {data data' : Nat → Option Nat}
  {chain : Nat → List (K × Nat × V)} {home : K → Nat} {i j a d : Nat}

theorem data_eq_none (h : Chains items data chain) : data i = none ↔ chain i = [] := by
  rw [← (h.linked i).head?_eq, head?_eq_none_iff, addrs, map_eq_nil_iff]

theorem ne_none (h : Chains items data chain) (ha : a ∈ addrs (chain i)) : items a ≠ none := by
  obtain ⟨e, he, rfl⟩ := mem_map.mp ha
  obtain ⟨next, hnext⟩ := h.stored i e he
  rw [hnext]
  exact Option.some_ne_none _

/-- The chains have no items in common. -/
theorem separate (h : Chains items data chain) (hhome : ∀ i, ∀ e ∈ chain i, home e.1 = i)
    (hi : a ∈ addrs (chain i)) (hj : a ∈ addrs (chain j)) : i = j := by
  obtain ⟨e, he, rfl⟩ := mem_map.mp hi
  obtain ⟨e', he', heq⟩ := mem_map.mp hj
  obtain ⟨next, hnext⟩ := h.stored i e he
  obtain ⟨next', hnext'⟩ := h.stored j e' he'
  rw [heq, hnext, Option.some_inj, DataItem.mk.injEq] at hnext'
  rw [← hhome i e he, ← hhome j e' he', hnext'.1]

/-- A new item comes to the front of a chain. -/
theorem insert (h : Chains items data chain) (hd : items d = none) (i : Nat) (key : K) (val : V) :
    Chains (update items d (some ⟨key, val, data i⟩)) (update data i (some d))
      (update chain i ((key, d, val) :: chain i)) := by
  have hfree : ∀ j, ∀ a ∈ addrs (chain j), a ≠ d := by
    rintro j a ha rfl
    exact h.ne_none ha hd
  have hlinked : ∀ j, Linked (links (update items d (some ⟨key, val, data i⟩))) (data j)
    (addrs (chain j)) := by
    intro j
    refine (h.linked j).congr fun a ha ↦ ?_
    rw [links, links, update_of_ne (hfree j a ha)]
  have hstored : ∀ j, ∀ e ∈ chain j,
    Stored (update items d (some ⟨key, val, data i⟩)) e := by
    intro j e he
    obtain ⟨next, hnext⟩ := h.stored j e he
    exact ⟨next, by rw [update_of_ne (hfree j _ (mem_map_of_mem he)), hnext]⟩
  refine ⟨fun j ↦ ?_, fun j e he ↦ ?_, fun a ha ↦ ?_⟩
  · by_cases hj : j = i
    · subst hj
      rw [update_self, update_self]
      refine ⟨rfl, ?_⟩
      have hd' : links (update items d (some ⟨key, val, data j⟩)) d = data j := by
        rw [links, update_self]
        rfl
      rw [show addr (key, d, val) = d from rfl, hd']
      exact hlinked j
    · rw [update_of_ne hj, update_of_ne hj]
      exact hlinked j
  · by_cases hj : j = i
    · subst hj
      rw [update_self, mem_cons] at he
      rcases he with rfl | he
      · exact ⟨data j, update_self _ _ _⟩
      · exact hstored j e he
    · rw [update_of_ne hj] at he
      exact hstored j e he
  · by_cases had : a = d
    · subst had
      exact ⟨i, by rw [update_self]; exact mem_cons_self⟩
    · rw [update_of_ne had] at ha
      obtain ⟨j, hj⟩ := h.allocated a ha
      refine ⟨j, ?_⟩
      by_cases hji : j = i
      · subst hji
        rw [update_self]
        exact mem_cons_of_mem _ hj
      · rw [update_of_ne hji]
        exact hj

/-- An item is taken out of its chain. -/
theorem erase (h : Chains items data chain) (hhome : ∀ i, ∀ e ∈ chain i, home e.1 = i)
    {x y : List (K × Nat × V)} {e : K × Nat × V} (hsplit : chain i = x ++ e :: y)
    (hlinks : ∀ a, a ≠ addr e →
      links items' a = setAt (links items) (addrs x).getLast? (links items (addr e)) a)
    (hitems : ∀ f, addr f ≠ addr e → Stored items f → Stored items' f)
    (hnone : items' (addr e) = none) (hnew : ∀ a, items' a ≠ none → items a ≠ none)
    (hdata : data' = update data i (if x = [] then links items (addr e) else data i)) :
    Chains items' data' (update chain i (x ++ y)) := by
  have hlinkedi := h.linked i
  rw [hsplit, addrs, map_append, map_cons] at hlinkedi
  have hmem : ∀ a, a ∈ addrs (x ++ y) → a ≠ addr e ∧ a ∈ addrs (chain i) := by
    intro a ha
    have hnodup := hlinkedi.nodup
    rw [nodup_middle, nodup_cons, ← map_append] at hnodup
    refine ⟨fun hae ↦ hnodup.1 (hae ▸ ha), ?_⟩
    rw [hsplit]
    exact map_subset addr ((sublist_cons_self e y).append_left x).subset ha
  have he : addr e ∈ addrs (chain i) := by simp [hsplit, addrs]
  refine ⟨fun j ↦ ?_, fun j f hf ↦ ?_, fun a ha ↦ ?_⟩
  · by_cases hj : j = i
    · subst hj
      rw [hdata, update_self, update_self]
      have hbypass := hlinkedi.bypass
      rw [← map_append] at hbypass
      simp only [map_eq_nil_iff] at hbypass
      exact hbypass.congr fun a ha ↦ hlinks a (hmem a ha).1
    · rw [hdata, update_of_ne hj, update_of_ne hj]
      refine (h.linked j).congr fun a ha ↦ ?_
      rw [hlinks a, setAt_of_ne]
      · intro hlast
        refine hj (h.separate hhome ha ?_)
        rw [hsplit, addrs, map_append]
        exact mem_append_left _ (mem_of_getLast? hlast)
      · rintro rfl
        exact hj (h.separate hhome ha he)
  · by_cases hj : j = i
    · subst hj
      rw [update_self] at hf
      refine hitems f (hmem _ (mem_map_of_mem hf)).1 (h.stored j f ?_)
      rw [hsplit]
      exact ((sublist_cons_self e y).append_left x).subset hf
    · rw [update_of_ne hj] at hf
      refine hitems f (fun heq ↦ hj (h.separate hhome (mem_map_of_mem hf) ?_))
        (h.stored j f hf)
      rw [heq]
      exact he
  · have hae : a ≠ addr e := by
      rintro rfl
      exact ha hnone
    obtain ⟨j, hj⟩ := h.allocated a (hnew a ha)
    refine ⟨j, ?_⟩
    by_cases hji : j = i
    · subst hji
      rw [update_self]
      rw [hsplit, addrs, map_append, map_cons, mem_append, mem_cons] at hj
      rw [addrs, map_append, mem_append]
      exact hj.imp_right fun hj ↦ hj.resolve_left hae
    · rw [update_of_ne hji]
      exact hj

/-- The items of a chain are deleted. -/
theorem clear (h : Chains items data chain) (hhome : ∀ i, ∀ e ∈ chain i, home e.1 = i) (i : Nat) :
    Chains (fun a ↦ if a ∈ addrs (chain i) then none else items a) (update data i none)
      (update chain i []) := by
  have hkept : ∀ {j a}, j ≠ i → a ∈ addrs (chain j) → a ∉ addrs (chain i) := fun hj ha hmem ↦
    hj (h.separate hhome ha hmem)
  refine ⟨fun j ↦ ?_, fun j e he ↦ ?_, fun a ha ↦ ?_⟩
  · by_cases hj : j = i
    · subst hj
      rw [update_self, update_self]
      rfl
    · rw [update_of_ne hj, update_of_ne hj]
      refine (h.linked j).congr fun a ha ↦ ?_
      rw [links, links, if_neg (hkept hj ha)]
  · by_cases hj : j = i
    · subst hj
      rw [update_self] at he
      cases he
    · rw [update_of_ne hj] at he
      obtain ⟨next, hnext⟩ := h.stored j e he
      exact ⟨next, (if_neg (hkept hj (mem_map_of_mem he))).trans hnext⟩
  · by_cases hmem : a ∈ addrs (chain i)
    · exact absurd (if_pos hmem) ha
    · obtain ⟨j, hj⟩ := h.allocated a fun hnone ↦ ha ((if_neg hmem).trans hnone)
      refine ⟨j, ?_⟩
      rw [update_of_ne]
      · exact hj
      · rintro rfl
        exact hmem hj

end Chains

/-- **What `seek` finds:** the first item of the chain with an equal key, and the item before it. -/
theorem seek_eq (t : LinkedTable K V) (equal : K → K → Bool) (key : K) {es : List (K × Nat × V)}
    (hes : ∀ e ∈ es, Stored t.items e) {p : Option Nat} (hp : Linked (links t.items) p (addrs es))
    (prev : Option Nat) :
    (∃ last, (∀ fuel ≥ es.length, t.seek equal key fuel prev p = some (last, none)) ∧ ∀ e ∈ es,
      ¬ equal e.1 key) ∨ ∃ x e y, es = x ++ e :: y ∧ (∀ e' ∈ x, ¬ equal e'.1 key) ∧
        equal e.1 key = true ∧ ∀ fuel ≥ es.length, t.seek equal key fuel prev p =
          some ((addrs x).getLast?.or prev, some (addr e)) := by
  induction es generalizing p prev with
  | nil =>
    obtain rfl : p = none := hp
    refine .inl ⟨prev, fun fuel _ ↦ ?_, fun e he ↦ absurd he not_mem_nil⟩
    cases fuel <;> rfl
  | cons e es ih =>
    obtain ⟨rfl, hlinked⟩ := hp
    obtain ⟨next, hnext⟩ := hes e mem_cons_self
    have hlink : links t.items (addr e) = next := by rw [links, hnext]; rfl
    rw [hlink] at hlinked
    have hseek : ∀ fuel ≥ (e :: es).length, ∃ fuel' ≥ es.length,
        t.seek equal key fuel prev (some (addr e)) = if equal e.1 key
          then some (prev, some (addr e)) else t.seek equal key fuel' (some (addr e)) next := by
      intro fuel hfuel
      rw [length_cons] at hfuel
      obtain ⟨fuel, rfl⟩ := Nat.exists_eq_add_of_le' (show 1 ≤ fuel by omega)
      refine ⟨fuel, by omega, ?_⟩
      rw [seek, hnext]
      rfl
    by_cases hequal : equal e.1 key = true
    · refine .inr ⟨[], e, es, rfl, fun e' he' ↦ absurd he' not_mem_nil, hequal,
        fun fuel hfuel ↦ ?_⟩
      obtain ⟨fuel', -, hround⟩ := hseek fuel hfuel
      rw [hround, if_pos hequal]
      rfl
    · rcases ih (fun e' he' ↦ hes e' (mem_cons_of_mem e he')) hlinked (some (addr e)) with
        ⟨last, hlast, hnone⟩ | ⟨x, e', y, rfl, hx, he', hfound⟩
      · refine .inl ⟨last, fun fuel hfuel ↦ ?_, fun e' he' ↦ ?_⟩
        · obtain ⟨fuel', hfuel', hround⟩ := hseek fuel hfuel
          rw [hround, if_neg hequal, hlast fuel' hfuel']
        · rcases mem_cons.mp he' with rfl | he'
          · exact hequal
          · exact hnone e' he'
      · refine .inr ⟨e :: x, e', y, rfl, fun f hf ↦ ?_, he', fun fuel hfuel ↦ ?_⟩
        · rcases mem_cons.mp hf with rfl | hf
          · exact hequal
          · exact hx f hf
        · obtain ⟨fuel', hfuel', hround⟩ := hseek fuel hfuel
          rw [hround, if_neg hequal, hfound fuel' hfuel', addrs, addrs, map_cons,
            getLast?_cons]
          cases (x.map addr).getLast? <;> rfl

/-- All items of a chain are deleted. -/
theorem deleteChain_eq {items : Nat → Option (DataItem K V)} {l : List Nat} {a fuel : Nat}
    (h : Linked (links items) (some a) l) (hitems : ∀ a ∈ l, items a ≠ none)
    (hfuel : l.length ≤ fuel) :
    deleteChain fuel items a = some fun x ↦ if x ∈ l then none else items x := by
  induction l generalizing items a fuel with
  | nil => cases h
  | cons b l ih =>
    obtain ⟨hab, hl⟩ := linked_cons.mp h
    obtain rfl := Option.some.inj hab
    have hnodup := Linked.nodup (l := a :: l) ⟨rfl, hl⟩
    obtain ⟨fuel, rfl⟩ := Nat.exists_eq_add_of_lt
      (show 0 < fuel by rw [length_cons] at hfuel; omega)
    have hne : ∀ x ∈ l, x ≠ a := by
      rintro x hx rfl
      exact (nodup_cons.mp hnodup).1 hx
    obtain ⟨item, hitem⟩ := Option.ne_none_iff_exists'.mp (hitems a mem_cons_self)
    have hlink : links items a = item.next := by rw [links, hitem]; rfl
    rw [hlink] at hl
    rw [deleteChain, hitem, Option.bind_some]
    have hset : ∀ x, (if x ∈ l then none else update items a none x) = if x ∈ a :: l
      then none else items x := by
      intro x
      by_cases hx : x = a
      · subst hx
        simp
      · rw [update_of_ne hx]
        simp only [mem_cons, hx, false_or]
    rcases hnext : item.next with _ | next
    · have hnil : l = [] := by
        rw [hnext] at hl
        exact head?_eq_none_iff.mp hl.head?_eq
      subst hnil
      exact congrArg some (funext fun x ↦ by simpa using hset x)
    · rw [hnext] at hl
      have hrest := @ih (update items a none) next (0 + fuel)
        (hl.congr fun x hx ↦ by rw [links, links, update_of_ne (hne x hx)])
        (fun x hx ↦
          by rw [update_of_ne (hne x hx)]; exact hitems x (mem_cons_of_mem a hx))
        (by rw [length_cons] at hfuel; omega)
      exact hrest.trans (congrArg some (funext hset))

/-- **The pointers of a table represent lists of items.** -/
structure Represents {hasher : K → Nat} (t : LinkedTable K V) (T : HashTable K (Nat × V) hasher) :
    Prop where
  /-- The buckets in use are linked in both directions, and no others are. -/
  used : Doubly (nexts t.buckets) (prevs t.buckets) t.firstBucket t.lastBucket T.used
  unlinked : ∀ i, i ∉ T.used → nexts t.buckets i = none ∧ prevs t.buckets i = none
  /-- Each of them has the chain of its items. -/
  chains : Chains t.items (datas t.buckets) T.buckets
  size_eq : t.size = T.size
  maxSize_eq : t.maxSize = T.maxSize
  numBuckets_eq : t.numBuckets = T.numBuckets
  hashMask_eq : t.hashMask = T.numBuckets - 1

namespace Represents

variable {hasher : K → Nat} {t : LinkedTable K V} {T : HashTable K (Nat × V) hasher}

theorem bucketIndex_eq (h : Represents t T) (key : K) : t.bucketIndex hasher key = T.index key := by
  rw [bucketIndex, h.hashMask_eq, HashTable.index]

/-- Each item is in the bucket of its key. -/
theorem index_eq (T : HashTable K (Nat × V) hasher) : ∀ i, ∀ e ∈ T.buckets i, T.index e.1 = i :=
  T.index_eq

theorem new (n : Nat) (load : ℚ) :
    Represents (new n load : LinkedTable K V)
      (HashTable.ofBuckets (roundUp n n 2) 0 : HashTable K (Nat × V) hasher) where
  used := ⟨rfl, rfl⟩
  unlinked := fun _ _ ↦ ⟨rfl, rfl⟩
  chains := ⟨fun _ ↦ rfl, fun _ _ he ↦ absurd he not_mem_nil, fun _ ha ↦ absurd rfl ha⟩
  size_eq := rfl
  maxSize_eq := rfl
  numBuckets_eq := rfl
  hashMask_eq := rfl

/-- **`insert`.** -/
theorem insert (h : Represents t T) {d : Nat} (hd : t.items d = none) (key : K) (val : V) :
    ∃ t', t.insert hasher d key val = some t' ∧ Represents t' (T.insert key (d, val)) := by
  have hchains := h.chains.insert hd (T.index key) key val
  rcases hdata : datas t.buckets (T.index key) with _ | temp
  · have hnil : T.buckets (T.index key) = [] := h.chains.data_eq_none.mp hdata
    have hused : T.index key ∉ T.used := fun hmem ↦ (T.mem_used _).mp hmem hnil
    obtain ⟨hnext, hprev⟩ := h.unlinked _ hused
    let t₁ := (t.setItem d (some ⟨key, val, none⟩)).setData (T.index key) (some d)
    obtain ⟨b, hb, hnexts, hprevs, hdatas⟩ :=
      t₁.exists_appendBucket (T.index key) h.used.first_eq_none
      ((congrFun (prevs_setData _ _ _) _).trans hprev)
    have hdata' : (t.buckets (T.index key)).data = none := hdata
    refine ⟨_,
      by simp only [LinkedTable.insert, h.bucketIndex_eq, hdata']; rw [hb, Option.map_some], ?_⟩
    have hT : (T.insert key (d, val)).used = T.used ++ [T.index key] := if_pos hnil
    refine ⟨?_, fun i hi ↦ ?_, ?_, congrArg (· + 1) h.size_eq, ?_, h.numBuckets_eq, h.hashMask_eq⟩
    · rw [hT]
      show Doubly (nexts b) (prevs b) _ _ _
      rw [hnexts, hprevs, nexts_setData, prevs_setData]
      exact h.used.append hused hnext
    · rw [hT, mem_append, mem_singleton, not_or] at hi
      show nexts b i = none ∧ prevs b i = none
      rw [hnexts, hprevs, nexts_setData, prevs_setData, update_of_ne hi.2, setAt_of_ne]
      · exact h.unlinked i hi.1
      · intro hlast
        have hmem : i ∈ T.used := mem_of_getLast? (h.used.last_eq.symm.trans hlast)
        exact hi.1 hmem
    · show Chains t₁.items (datas b) _
      rw [hdatas, datas_setData]
      rw [hdata] at hchains
      exact hchains
    · show max t.maxSize (t.size + 1) = max T.maxSize (T.size + 1)
      rw [h.maxSize_eq, h.size_eq]
  · have hne : T.buckets (T.index key) ≠ [] := fun hnil ↦ by
      rw [h.chains.data_eq_none.mpr hnil] at hdata
      cases hdata
    have hdata' : (t.buckets (T.index key)).data = some temp := hdata
    refine ⟨_, by simp only [LinkedTable.insert, h.bucketIndex_eq, hdata', Option.map_some]; rfl,
      ?_⟩
    have hT : (T.insert key (d, val)).used = T.used := if_neg hne
    let t₁ := (t.setItem d (some ⟨key, val, some temp⟩)).setData (T.index key) (some d)
    have hnexts : nexts t₁.buckets = nexts t.buckets := nexts_setData _ _ _
    have hprevs : prevs t₁.buckets = prevs t.buckets := prevs_setData _ _ _
    refine ⟨?_, fun i hi ↦ ?_, ?_, congrArg (· + 1) h.size_eq, ?_, h.numBuckets_eq, h.hashMask_eq⟩
    · show Doubly (nexts t₁.buckets) (prevs t₁.buckets) _ _ _
      rw [hT, hnexts, hprevs]
      exact h.used
    · rw [hT] at hi
      show nexts t₁.buckets i = none ∧ prevs t₁.buckets i = none
      rw [hnexts, hprevs]
      exact h.unlinked i hi
    · show Chains t₁.items (datas t₁.buckets) _
      rw [hdata] at hchains
      rw [datas_setData]
      exact hchains
    · show max t.maxSize (t.size + 1) = max T.maxSize (T.size + 1)
      rw [h.maxSize_eq, h.size_eq]

/-- A bucket is taken out of those in use. -/
theorem exists_used_unlinkBucket {t : LinkedTable K V} {used : List Nat} {i : Nat}
    (h : Doubly (nexts t.buckets) (prevs t.buckets) t.firstBucket t.lastBucket used)
    (hunlinked : ∀ j, j ∉ used → nexts t.buckets j = none ∧ prevs t.buckets j = none)
    (hi : i ∈ used) :
    ∃ b first last, t.unlinkBucket i =
      { t with buckets := b, firstBucket := first, lastBucket := last } ∧
        Doubly (nexts b) (prevs b) first last (used.erase i) ∧
      (∀ j, j ∉ used.erase i → nexts b j = none ∧ prevs b j = none) ∧
        datas b = datas t.buckets := by
  obtain ⟨l, r, rfl⟩ := append_of_mem hi
  have hnodup := h.forward.nodup
  rw [nodup_middle, nodup_cons] at hnodup
  have herase : (l ++ i :: r).erase i = l ++ r := by
    rw [erase_append_right _ fun hl ↦ hnodup.1 (mem_append_left r hl),
      erase_cons_head]
  have hprev : prevs t.buckets i = l.getLast? := h.backward.getLast?_eq
  have hnext : nexts t.buckets i = r.head? := h.forward.of_append.head?_eq.symm
  have hne : ∀ {j}, nexts t.buckets i = some j ∨ prevs t.buckets i = some j → j ∈ l ++ r := by
    rintro j (hj | hj)
    · exact mem_append_right l (mem_of_head? (hnext.symm.trans hj))
    · exact mem_append_left r (mem_of_getLast? (hprev.symm.trans hj))
  obtain ⟨b, hb, hnexts, hprevs, hdatas⟩ :=
    t.exists_unlinkBucket i fun hself ↦ hnodup.1 (hne (.inl hself))
  refine ⟨b, _, _, hb, ?_, fun j hj ↦ ?_, hdatas⟩
  · rw [herase]
    refine h.bypass.congr (fun j hj ↦ ?_) fun j hj ↦ ?_
    · rw [hnexts, update_of_ne]
      rintro rfl
      exact hnodup.1 hj
    · rw [hprevs, update_of_ne]
      rintro rfl
      exact hnodup.1 hj
  · rw [herase] at hj
    rw [hnexts, hprevs]
    by_cases hji : j = i
    · subst hji
      exact ⟨update_self _ _ _, update_self _ _ _⟩
    · rw [update_of_ne hji, update_of_ne hji,
        setAt_of_ne fun hp ↦ hj (hne (.inr hp)), setAt_of_ne fun hn ↦ hj (hne (.inl hn))]
      refine hunlinked j fun hmem ↦ ?_
      rw [mem_append, mem_cons] at hmem
      rcases hmem with hmem | hmem | hmem
      · exact hj (mem_append_left r hmem)
      · exact hji hmem
      · exact hj (mem_append_right l hmem)

/-- An item is taken out of the chain of its bucket, and the bucket out of those in use if it was
the only one. -/
theorem exists_unlinkItem (hused : Doubly (nexts t.buckets) (prevs t.buckets) t.firstBucket
    t.lastBucket T.used) (hunlinked : ∀ j, j ∉ T.used → nexts t.buckets j = none ∧
      prevs t.buckets j = none)
    (h : Chains t.items (datas t.buckets) T.buckets) {i : Nat} {x y : List (K × Nat × V)}
    {e : K × Nat × V}
    (hsplit : T.buckets i = x ++ e :: y) {item : DataItem K V}
    (hitem : t.items (addr e) = some item) :
    ∃ items b first last,
      t.unlinkItem i (addrs x).getLast? item =
        some { t with items := items, buckets := b, firstBucket := first, lastBucket := last } ∧
      Doubly (nexts b) (prevs b) first last (if x ++ y = [] then T.used.erase i else T.used) ∧
      (∀ j, j ∉ (if x ++ y = [] then T.used.erase i else T.used) → nexts b j = none ∧
        prevs b j = none) ∧
      Chains (update items (addr e) none) (datas b)
        (update T.buckets i (x ++ y)) := by
  have hlink : links t.items (addr e) = item.next := by rw [links, hitem]; rfl
  have hlinked := h.linked i
  rw [hsplit, addrs, map_append, map_cons] at hlinked
  have hnext : item.next = (addrs y).head? := by rw [← hlink, ← hlinked.of_append.head?_eq, addrs]
  rcases eq_nil_or_concat x with rfl | ⟨x, f, rfl⟩
  · -- the first item of the chain
    have hchains : Chains (update t.items (addr e) none)
        (update (datas t.buckets) i item.next) (update T.buckets i y) := by
      refine h.erase (index_eq T) hsplit (fun a ha ↦ ?_) (fun f hf hstored ↦ ?_)
        (update_self _ _ _) (fun a ha ↦ ?_) (by rw [if_pos rfl, hlink])
      · rw [links, update_of_ne ha]
        rfl
      · obtain ⟨next, hf'⟩ := hstored
        exact ⟨next, by rw [update_of_ne hf, hf']⟩
      · by_cases hae : a = addr e
        · rw [hae, hitem]
          exact Option.some_ne_none _
        · rwa [update_of_ne hae] at ha
    have hy : item.next = none ↔ y = [] :=
      by rw [hnext, head?_eq_none_iff, addrs, map_eq_nil_iff]
    simp only [nil_append]
    by_cases hnil : y = []
    · have hi : i ∈ T.used := (T.mem_used i).mpr (by simp [hsplit])
      obtain ⟨b, first, last, hb, hused', hunlinked', hdatas⟩ := exists_used_unlinkBucket
        (t := t.setData i item.next) (i := i) (by rw [nexts_setData, prevs_setData]; exact hused)
        (by rw [nexts_setData, prevs_setData]; exact hunlinked) hi
      refine ⟨t.items, b, first, last, ?_, ?_, ?_, ?_⟩
      · simp only [unlinkItem, addrs, map_nil, getLast?_nil, if_pos (hy.mpr hnil)]
        rw [hb]
        rfl
      · rw [if_pos hnil]
        exact hused'
      · rw [if_pos hnil]
        exact hunlinked'
      · rw [hdatas, datas_setData]
        exact hchains
    · refine ⟨t.items, (t.setData i item.next).buckets, t.firstBucket, t.lastBucket, ?_, ?_, ?_, ?_⟩
      · simp only [unlinkItem, addrs, map_nil, getLast?_nil, if_neg (mt hy.mp hnil)]
        rfl
      · rw [if_neg hnil, nexts_setData, prevs_setData]
        exact hused
      · rw [if_neg hnil, nexts_setData, prevs_setData]
        exact hunlinked
      · rw [datas_setData]
        exact hchains
  · -- an item behind another one
    rw [concat_eq_append] at hsplit hlinked ⊢
    have hf : f ∈ T.buckets i := by simp [hsplit]
    obtain ⟨next, hnextf⟩ := h.stored i f hf
    have hlast : (addrs (x ++ [f])).getLast? = some (addr f) := by simp [addrs]
    have hfe : addr f ≠ addr e := by
      have hnodup := hlinked.nodup
      rw [map_append, append_assoc] at hnodup
      have hright := (nodup_append.mp hnodup).2.1
      intro heq
      rw [map_cons, map_nil, singleton_append, heq] at hright
      exact (nodup_cons.mp hright).1 mem_cons_self
    have hne : (x ++ [f]) ++ y ≠ [] := by simp
    have hchains : Chains (update
        (update t.items (addr f) (some ⟨f.1, f.2.2, item.next⟩)) (addr e) none)
          (datas t.buckets) (update T.buckets i (x ++ [f] ++ y)) := by
      refine h.erase (index_eq T) hsplit (fun a ha ↦ ?_) (fun g hg hstored ↦ ?_)
        (update_self _ _ _) (fun a ha ↦ ?_)
        (by rw [if_neg (by simp), update_eq_self])
      · rw [hlast, hlink, links, update_of_ne ha, setAt]
        by_cases haf : a = addr f
        · subst haf
          rw [update_self, update_self]
          rfl
        · rw [update_of_ne haf, update_of_ne haf, links]
      · obtain ⟨next', hg'⟩ := hstored
        by_cases hgf : addr g = addr f
        · rw [hgf, hnextf, Option.some_inj, DataItem.mk.injEq] at hg'
          refine ⟨item.next, ?_⟩
          rw [update_of_ne hg, hgf, update_self, hg'.1, hg'.2.1]
        · exact ⟨next', by rw [update_of_ne hg, update_of_ne hgf, hg']⟩
      · by_cases hae : a = addr e
        · rw [hae, hitem]
          exact Option.some_ne_none _
        · rw [update_of_ne hae] at ha
          by_cases haf : a = addr f
          · rw [haf, hnextf]
            exact Option.some_ne_none _
          · rwa [update_of_ne haf] at ha
    refine ⟨_, t.buckets, t.firstBucket, t.lastBucket, ?_, ?_, ?_, hchains⟩
    · rw [hlast, unlinkItem, hnextf, Option.map_some]
      rfl
    · rw [if_neg hne]
      exact hused
    · rw [if_neg hne]
      exact hunlinked

/-- **`erase` and `erase_full`.** -/
theorem eraseWith (h : Represents t T) {equal : K → K → Bool} (full : Bool) (key : K) :
    ∃ t', Returns (fun fuel ↦ t.eraseWith hasher equal full fuel key) t' ∧
      Represents t' (T.erase equal key) := by
  rcases hdata : datas t.buckets (T.index key) with _ | a
  · have hnil : T.buckets (T.index key) = [] := h.chains.data_eq_none.mp hdata
    have hdata' : (t.buckets (T.index key)).data = none := hdata
    refine ⟨t, ⟨0, fun _ _ ↦ by simp only [LinkedTable.eraseWith, h.bucketIndex_eq, hdata']⟩, ?_⟩
    rw [T.erase_of_forall_not (by simp [hnil])]
    exact h
  have hdata' : (t.buckets (T.index key)).data = some a := hdata
  have hlinked := h.chains.linked (T.index key)
  rw [hdata] at hlinked
  rcases t.seek_eq equal key (h.chains.stored (T.index key)) hlinked none with
    ⟨last, hseek, hnone⟩ | ⟨x, e, y, hsplit, hx, hequal, hseek⟩
  · refine ⟨t, ⟨(T.buckets (T.index key)).length, fun fuel hfuel ↦ by
      simp only [LinkedTable.eraseWith, h.bucketIndex_eq, hdata', hseek fuel hfuel,
        Option.bind_some]⟩, ?_⟩
    rw [T.erase_of_forall_not hnone]
    exact h
  · have he : e ∈ T.buckets (T.index key) := by simp [hsplit]
    obtain ⟨next, hitem⟩ := h.chains.stored _ e he
    let t₀ : LinkedTable K V := { t with size := t.size - 1 }
    obtain ⟨items, b, first, last, hunlink, hused, hunlinked, hchains⟩ :=
      exists_unlinkItem (t := t₀) h.used h.unlinked h.chains hsplit hitem
    have herase : ((T.buckets (T.index key)).eraseP fun e ↦ equal e.1 key) = x ++ y := by
      rw [hsplit, eraseP_append_right _ hx,
        eraseP_cons_of_pos (p := fun e : K × Nat × V ↦ equal e.1 key) hequal]
    have hany : ((T.buckets (T.index key)).any fun e ↦ equal e.1 key) = true :=
      any_eq_true.mpr ⟨e, he, hequal⟩
    let t₁ : LinkedTable K V :=
      { t₀ with items := items, buckets := b, firstBucket := first, lastBucket := last,
                freed := if full then (e.1, e.2.2) :: t.freed else t.freed }
    refine ⟨t₁.setItem (addr e) none, ⟨(T.buckets (T.index key)).length, fun fuel hfuel ↦ ?_⟩, ?_⟩
    · simp only [LinkedTable.eraseWith, h.bucketIndex_eq, hdata', hseek fuel hfuel,
        Option.bind_some, hitem, Option.or_none]
      rw [hunlink, Option.map_some]
      cases full <;> rfl
    · have hT : (T.erase equal key).used = if x ++ y = [] then T.used.erase (T.index key)
        else T.used := by
        rw [← herase]
        rfl
      refine ⟨?_, ?_, ?_, ?_, h.maxSize_eq, h.numBuckets_eq, h.hashMask_eq⟩
      · rw [hT]
        exact hused
      · rw [hT]
        exact hunlinked
      · show Chains _ _ (update T.buckets _ _)
        rw [herase]
        exact hchains
      · show t.size - 1 = if _ then T.size - 1 else T.size
        rw [if_pos hany, h.size_eq]

/-- The buckets in use are cleared, one after another. -/
theorem clearBuckets_eq {t : LinkedTable K V} {chain : Nat → List (K × Nat × V)} {home : K → Nat}
    (hhome : ∀ i, ∀ e ∈ chain i, home e.1 = i) {used : List Nat}
    (hused : Linked (nexts t.buckets) t.firstBucket used) (hne : ∀ i ∈ used, chain i ≠ [])
    (hchains : Chains t.items (datas t.buckets) chain) (hclear : ∀ i, i ∉ used → t.buckets i = {})
    {bound fuel : Nat}
    (hbound : ∀ i, (chain i).length ≤ bound) (hfuel : used.length + bound < fuel) :
    clearBuckets fuel t = some { t with
      items := fun _ ↦ none, buckets := fun _ ↦ {}, firstBucket := none } := by
  induction used generalizing t chain fuel with
  | nil =>
    obtain ⟨fuel, rfl⟩ := Nat.exists_eq_add_of_lt (show 0 < fuel by omega)
    have hfirst : t.firstBucket = none := hused
    have hbuckets : t.buckets = fun _ ↦ {} := funext fun i ↦ hclear i not_mem_nil
    have hitems : t.items = fun _ ↦ none := by
      funext a
      by_contra ha
      obtain ⟨i, hi⟩ := hchains.allocated a ha
      have hnil : chain i = [] := hchains.data_eq_none.mp (by rw [hbuckets]; rfl)
      rw [hnil] at hi
      cases hi
    rw [clearBuckets]
    simp only [hfirst]
    rw [← hbuckets, ← hitems, ← hfirst]
  | cons b used ih =>
    obtain ⟨hfirst, hrest⟩ := linked_cons.mp hused
    have hnodup := hused.nodup
    obtain ⟨fuel, rfl⟩ := Nat.exists_eq_add_of_lt (show 0 < fuel by omega)
    rw [length_cons] at hfuel
    obtain ⟨temp, htemp⟩ := Option.ne_none_iff_exists'.mp
      (mt hchains.data_eq_none.mp (hne b mem_cons_self))
    have hlinked := hchains.linked b
    rw [htemp] at hlinked
    have htemp' : (t.buckets b).data = some temp := htemp
    have hlength : (addrs (chain b)).length ≤ 0 + fuel := by
      have := hbound b
      rw [addrs, length_map]
      omega
    have hdelete := deleteChain_eq hlinked (fun a ha ↦ hchains.ne_none ha) hlength
    rw [clearBuckets]
    simp only [hfirst, htemp', Option.bind_some, hdelete]
    let items : Nat → Option (DataItem K V) :=
      fun x ↦ if x ∈ addrs (chain b) then none else t.items x
    let t₁ : LinkedTable K V := ({ t with items := items }).setData b none
    let t₂ : LinkedTable K V := { t₁ with firstBucket := (t₁.buckets b).nextBucket }
    let t₃ : LinkedTable K V := (t₂.setNextBucket b none).setPrevBucket b none
    have hstep : clearBuckets (0 + fuel) t₃ =
        some { t₃ with items := fun _ ↦ none, buckets := fun _ ↦ {}, firstBucket := none } := by
      have hcleared : t₃.buckets b = {} :=
        by simp [t₃, t₂, t₁, setPrevBucket, setNextBucket, setData]
      have hother : ∀ i, i ≠ b → t₃.buckets i = t.buckets i := fun i hi ↦ by
        simp [t₃, t₂, t₁, setPrevBucket, setNextBucket, setData, hi]
      have hb : ∀ i ∈ used, i ≠ b := by
        rintro i hi rfl
        exact (nodup_cons.mp hnodup).1 hi
      have hdatas : datas t₃.buckets = update (datas t.buckets) b none := by
        rw [datas_setPrevBucket, datas_setNextBucket]
        exact datas_setData _ _ _
      refine @ih t₃ (update chain b []) (fun i e he ↦ ?_) ?_ (fun i hi ↦ ?_)
        ?_ (fun i hi ↦ ?_) (0 + fuel) (fun i ↦ ?_) (by omega)
      · by_cases hi : i = b
        · rw [hi, update_self] at he
          cases he
        · rw [update_of_ne hi] at he
          exact hhome i e he
      · have hfirst₃ : t₃.firstBucket = nexts t.buckets b := congrFun (nexts_setData _ _ _) b
        rw [hfirst₃]
        exact hrest.congr fun i hi ↦ congrArg HashBucket.nextBucket (hother i (hb i hi))
      · rw [update_of_ne (hb i hi)]
        exact hne i (mem_cons_of_mem b hi)
      · rw [hdatas]
        exact hchains.clear hhome b
      · by_cases hib : i = b
        · rw [hib, hcleared]
        · rw [hother i hib]
          exact hclear i fun hmem ↦ (mem_cons.mp hmem).elim hib hi
      · by_cases hib : i = b
        · rw [hib, update_self]
          exact Nat.zero_le _
        · rw [update_of_ne hib]
          exact hbound i
    exact hstep

/-- **`clear`.** -/
theorem clear (h : Represents t T) : ∃ t', Returns (fun fuel ↦ t.clear fuel) t' ∧
    Represents t' T.clear := by
  have hbound : ∀ i, (T.buckets i).length ≤ T.size := by
    intro i
    by_cases hi : i ∈ T.used
    · rw [T.size_eq, flatMap]
      exact (sublist_flatten_of_mem (mem_map_of_mem hi)).length_le
    · rw [not_not.mp (mt (T.mem_used i).mpr hi)]
      exact Nat.zero_le _
  have hclear : ∀ i, i ∉ T.used → t.buckets i = {} := by
    intro i hi
    obtain ⟨hnext, hprev⟩ := h.unlinked i hi
    have hdata := h.chains.data_eq_none.mpr (not_not.mp (mt (T.mem_used i).mpr hi))
    calc t.buckets i = ⟨datas t.buckets i, nexts t.buckets i, prevs t.buckets i⟩ := rfl
      _ = {} := by rw [hdata, hnext, hprev]
  have hcleared : ∀ fuel ≥ T.used.length + T.size + 1, clearBuckets fuel t = some _ :=
    fun fuel hfuel ↦
    clearBuckets_eq (index_eq T) h.used.forward (fun i hi ↦ (T.mem_used i).mp hi) h.chains
      hclear hbound hfuel
  refine ⟨_, ⟨T.used.length + T.size + 1, fun fuel hfuel ↦ congrArg (Option.map _)
    (hcleared fuel hfuel)⟩, ?_⟩
  exact ⟨⟨rfl, rfl⟩, fun _ _ ↦ ⟨rfl, rfl⟩,
    ⟨fun _ ↦ rfl, fun _ _ he ↦ absurd he not_mem_nil, fun _ ha ↦ absurd rfl ha⟩, rfl, h.maxSize_eq,
      h.numBuckets_eq,
    h.hashMask_eq⟩

/-- **`rehash`** of a table without items. -/
theorem rehash (h : Represents t T) (hsize : t.size = 0) :
    ∃ t', t.rehash = some t' ∧
      Represents t' (HashTable.ofBuckets
        (if t.loadFactor < (T.maxSize : ℚ) / T.numBuckets then T.numBuckets * 2
          else T.numBuckets) 0 : HashTable K (Nat × V) hasher) := by
  have hempty : T.entries = [] := by
    rw [← length_eq_zero_iff, HashTable.entries, ← T.size_eq, ← h.size_eq, hsize]
  have hnil : ∀ i, T.buckets i = [] := by
    intro i
    by_contra hi
    exact hi (flatMap_eq_nil_iff.mp hempty i ((T.mem_used i).mpr hi))
  have hused : T.used = [] := by
    rw [eq_nil_iff_forall_not_mem]
    exact fun i hi ↦ (T.mem_used i).mp hi (hnil i)
  have hlinks := h.used
  rw [hused] at hlinks
  have hchains : Chains t.items (datas t.buckets) fun _ ↦ [] := by
    have hchains := h.chains
    rwa [show T.buckets = fun _ ↦ [] from funext hnil] at hchains
  rw [LinkedTable.rehash, if_neg (not_not.mpr hsize), ← h.numBuckets_eq, ← h.maxSize_eq]
  split
  case isTrue =>
    have hfirst : t.firstBucket = none := hlinks.forward
    have hlast : t.lastBucket = none := hlinks.backward
    exact ⟨_, rfl, ⟨hfirst, hlast⟩, fun _ _ ↦ ⟨rfl, rfl⟩,
      ⟨fun _ ↦ rfl, hchains.stored, hchains.allocated⟩, hsize, hsize, rfl, rfl⟩
  case isFalse =>
    refine ⟨_, rfl, hlinks, fun i _ ↦ h.unlinked i ?_, hchains, hsize, hsize, rfl, ?_⟩
    · rw [hused]
      exact not_mem_nil
    · show t.hashMask = t.numBuckets - 1
      rw [h.hashMask_eq, h.numBuckets_eq]

end Represents

end LinkedTable

end Tigon.Hfta
