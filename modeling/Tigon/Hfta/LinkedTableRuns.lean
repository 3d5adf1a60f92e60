import Tigon.Hfta.LinkedTableRefinement

/-!
# Runs of the hash table

Any sequence of operations, from a new table on.  An insertion is told the address of its item,
which has to be a free one; `rehash` is called on an empty table only.  `stored` are the items that
are in the table after the operations, the last one first.

All is said with `stored` and not with the buckets.  It is what the callers of the table know of it,
and it stays the same when the table grows.

* `Sound` — what there is to know about a table with these items: its links, its size, its
  iterations, and what is found;
* `sound_of_runs` — **each table that a run comes to is sound, and each operation on it returns**.
-/

set_option autoImplicit false

namespace Tigon.Hfta

open LinkedList While List

universe u v

variable {K : Type u} {V : Type v}

namespace LinkedTable

inductive Op (K : Type u) (V : Type v)
  | insert (d : Nat) (key : K) (val : V)
  | erase (key : K)
  | eraseFull (key : K)
  | clear
  | rehash

/-- The new address is a free one, and a table that is rehashed has no items. -/
def Op.Allowed (t : LinkedTable K V) : Op K V → Prop
  | .insert d _ _ => t.items d = none
  | .rehash => t.size = 0
  | _ => True

section

variable (hasher : K → Nat) (equal : K → K → Bool)

def exec (fuel : Nat) (t : LinkedTable K V) : Op K V → Option (LinkedTable K V)
  | .insert d key val => t.insert hasher d key val
  | .erase key => t.erase hasher equal fuel key
  | .eraseFull key => t.eraseFull hasher equal fuel key
  | .clear => t.clear fuel
  | .rehash => t.rehash

/-- The operations of a run, the last one first, and the table it comes to. -/
inductive Runs : List (Op K V) → LinkedTable K V → Prop
  | new (n : Nat) (load : ℚ) : Runs [] (new n load)
  | step {ops : List (Op K V)} {t t' : LinkedTable K V} {op : Op K V} (run : Runs ops t)
      (allowed : op.Allowed t) (exec : Returns (fun fuel ↦ t.exec hasher equal fuel op) t') :
        Runs (op :: ops) t'

/-- The items after an operation, with their addresses, the last one first. -/
def Op.after (s : List (K × Nat × V)) : Op K V → List (K × Nat × V)
  | .insert d key val => (key, d, val) :: s
  | .erase key => s.eraseP fun e ↦ equal e.1 key
  | .eraseFull key => s.eraseP fun e ↦ equal e.1 key
  | .clear => []
  | .rehash => s

def stored : List (Op K V) → List (K × Nat × V)
  | [] => []
  | op :: ops => op.after equal (stored ops)

/-- The table has the items `s`, the last one first. -/
structure Sound (s : List (K × Nat × V)) (t : LinkedTable K V) : Prop where
  /-- The buckets that have items are linked in both directions. -/
  linked : ∃ used : List Nat, used.Nodup ∧ (∀ i, i ∈ used ↔ datas t.buckets i ≠ none) ∧
    Doubly (nexts t.buckets) (prevs t.buckets) t.firstBucket t.lastBucket used
  index_lt : ∀ key, t.bucketIndex hasher key < t.numBuckets
  size_eq : t.size = s.length
  /-- The items are at different addresses, and no other ones are in memory. -/
  nodup : (addrs s).Nodup
  inMemory : ∀ e ∈ s, Stored t.items e
  allocated : ∀ a, t.items a ≠ none → a ∈ addrs s
  /-- An iteration visits each item once. -/
  iterate : ∃ visited : List Nat, Returns (fun fuel ↦ iterate t.advance fuel t.begin) visited ∧
    visited.Perm (addrs s)
  find : ∀ key, ∃ it, Returns (fun fuel ↦ t.find hasher equal fuel key) it ∧
    it.data = (s.find? fun e ↦ equal e.1 key).map addr ∧ (it.data = none → it = Iterator.atEnd)
  /-- From there on the items with an equal key are visited once each, the last one first. -/
  findAll : ∀ key, ∃ visited : List Nat,
    Returns (fun fuel ↦ (t.find hasher equal fuel key).bind (LinkedTable.iterate t.next fuel))
      visited ∧ visited.Nodup ∧ (visited.filter fun a ↦ (t.items a).any fun item ↦
        equal item.first key) = addrs (s.filter fun e ↦ equal e.1 key)

end

/-! ## Iterations and finding -/

variable {hasher : K → Nat} {t : LinkedTable K V} {T : HashTable K (Nat × V) hasher}
  {e : K × Nat × V} {y : List (K × Nat × V)} {i fuel : Nat}

theorem iterate_cons {move : Iterator → Option Iterator} {a : Nat} {it : Iterator}
    (hmove : move ⟨some i, some a⟩ = some it) : iterate move (fuel + 1) ⟨some i, some a⟩ =
    (iterate move fuel it).map fun as ↦ a :: as := by
  rw [iterate, if_neg (by simp [Iterator.atEnd]), Option.bind_some, hmove, Option.bind_some]

theorem iterate_atEnd {move : Iterator → Option Iterator} : iterate move (fuel + 1) Iterator.atEnd =
    some [] := by
  rw [iterate, if_pos rfl]

theorem returns_iterate_atEnd (move : Iterator → Option Iterator) :
    Returns (fun fuel ↦ iterate move fuel Iterator.atEnd) [] := by
  refine ⟨1, fun fuel hfuel ↦ ?_⟩
  obtain ⟨fuel, rfl⟩ := Nat.exists_eq_add_of_le' hfuel
  exact iterate_atEnd

/-- The item of a chain at a pointer, with the pointer to the next one. -/
theorem exists_item {p : Option Nat} (hstored : Stored t.items e)
    (hlinked : Linked (links t.items) p (addrs (e :: y))) :
    t.items (addr e) = some ⟨e.1, e.2.2, (addrs y).head?⟩ ∧ Linked (links t.items) (addrs y).head?
      (addrs y) := by
  obtain ⟨next, hitem⟩ := hstored
  obtain ⟨-, hrest⟩ := linked_cons.mp hlinked
  rw [links, hitem, Option.bind_some] at hrest
  have hnext : (addrs y).head? = next := hrest.head?_eq
  rw [hnext]
  exact ⟨hitem, hrest⟩

/-- From an item of a chain to the end of the chain. -/
theorem iterate_next (hstored : ∀ f ∈ e :: y, Stored t.items f)
    (hlinked : Linked (links t.items) (some (addr e)) (addrs (e :: y)))
    (hfuel : y.length + 1 < fuel) :
    iterate t.next fuel ⟨some i, some (addr e)⟩ = some (addrs (e :: y)) := by
  induction y generalizing e fuel with
  | nil =>
    obtain ⟨fuel, rfl⟩ := Nat.exists_eq_add_of_le' (show 2 ≤ fuel from hfuel)
    obtain ⟨hitem, -⟩ := exists_item (hstored e mem_cons_self) hlinked
    have hmove : t.next ⟨some i, some (addr e)⟩ = some Iterator.atEnd := by
      simp only [next, Option.bind_some, hitem, Option.map_some]
      rfl
    rw [iterate_cons hmove, iterate_atEnd]
    rfl
  | cons f y ih =>
    obtain ⟨fuel, rfl⟩ := Nat.exists_eq_add_of_lt (show 0 < fuel by omega)
    rw [length_cons] at hfuel
    obtain ⟨hitem, hrest⟩ := exists_item (hstored e mem_cons_self) hlinked
    have hmove : t.next ⟨some i, some (addr e)⟩ = some ⟨some i, some (addr f)⟩ := by
      simp only [next, Option.bind_some, hitem, Option.map_some]
      rfl
    rw [iterate_cons hmove, ih (fun g hg ↦ hstored g (mem_cons_of_mem e hg)) hrest (by omega)]
    rfl

namespace Represents

/-- From an item to the end of the table. -/
theorem iterate_advance (h : Represents t T) {r : List Nat} (hr : ∀ j ∈ r, j ∈ T.used)
    (hlink : Linked (nexts t.buckets) (nexts t.buckets i) r)
    (hstored : ∀ f ∈ e :: y, Stored t.items f)
    (hlinked : Linked (links t.items) (some (addr e)) (addrs (e :: y)))
    (hfuel : y.length + (r.flatMap T.buckets).length + 1 < fuel) :
    iterate t.advance fuel ⟨some i, some (addr e)⟩ =
      some (addrs (e :: y) ++ addrs (r.flatMap T.buckets)) := by
  induction fuel generalizing r i e y with
  | zero => omega
  | succ fuel ih =>
    obtain ⟨hitem, hrest⟩ := exists_item (hstored e mem_cons_self) hlinked
    cases y with
    | cons f y =>
      have hmove : t.advance ⟨some i, some (addr e)⟩ = some ⟨some i, some (addr f)⟩ := by
        simp only [advance, Option.bind_some, hitem]
        rfl
      rw [length_cons] at hfuel
      rw [iterate_cons hmove, ih hr hlink (fun g hg ↦ hstored g (mem_cons_of_mem e hg))
        hrest (by omega)]
      rfl
    | nil =>
      -- on to the next bucket
      have hmove : t.advance ⟨some i, some (addr e)⟩ =
          some ⟨nexts t.buckets i, (nexts t.buckets i).bind (datas t.buckets)⟩ := by
        simp only [advance, Option.bind_some, hitem]
        rfl
      rw [iterate_cons hmove]
      cases r with
      | nil =>
        obtain ⟨fuel, rfl⟩ := Nat.exists_eq_add_of_lt (show 0 < fuel by omega)
        rw [linked_nil.mp hlink]
        exact congrArg (Option.map _) iterate_atEnd
      | cons j r =>
        obtain ⟨hj, hlink⟩ := linked_cons.mp hlink
        have hused := hr j mem_cons_self
        have hstoredj := h.chains.stored j
        have hlinkedj := h.chains.linked j
        rw [flatMap_cons, length_append, length_nil] at hfuel
        rw [flatMap_cons]
        rcases hchain : T.buckets j with _ | ⟨f, z⟩
        · exact absurd hchain ((T.mem_used j).mp hused)
        · rw [hchain] at hstoredj hlinkedj
          rw [hchain, length_cons] at hfuel
          have hdata : datas t.buckets j = some (addr f) := (linked_cons.mp hlinkedj).1
          rw [hdata] at hlinkedj
          rw [hj, Option.bind_some, hdata,
            ih (fun k hk ↦ hr k (mem_cons_of_mem j hk)) hlink hstoredj hlinkedj (by omega)]
          simp [addrs]

/-- **An iteration from `begin()` on visits the items in the order of the lists.** -/
theorem iterate_begin (h : Represents t T) (hfuel : T.size + 1 < fuel) :
    iterate t.advance fuel t.begin = some (addrs T.entries) := by
  obtain ⟨fuel, rfl⟩ := Nat.exists_eq_add_of_lt (show 0 < fuel by omega)
  have hfirst := h.used.forward
  rw [HashTable.entries]
  rw [T.size_eq] at hfuel
  rcases hused : T.used with _ | ⟨i, r⟩
  · rw [hused] at hfirst
    have hbegin : t.begin = Iterator.atEnd := by
      rw [begin, linked_nil.mp hfirst]
      rfl
    rw [hbegin, iterate_atEnd]
    rfl
  · rw [hused] at hfirst hfuel
    obtain ⟨hi, hlink⟩ := linked_cons.mp hfirst
    have hstored := h.chains.stored i
    have hlinked := h.chains.linked i
    have hmem : ∀ j ∈ i :: r, j ∈ T.used := fun j hj ↦ by rwa [hused]
    rcases hchain : T.buckets i with _ | ⟨e, y⟩
    · exact absurd hchain ((T.mem_used i).mp (hmem i mem_cons_self))
    · rw [hchain] at hstored hlinked
      rw [flatMap_cons, hchain, length_append, length_cons] at hfuel
      have hdata : datas t.buckets i = some (addr e) := (linked_cons.mp hlinked).1
      have hbegin : t.begin = ⟨some i, some (addr e)⟩ := by
        rw [begin, hi, Option.bind_some]
        exact congrArg _ hdata
      rw [hdata] at hlinked
      rw [hbegin, h.iterate_advance (fun j hj ↦ hmem j (mem_cons_of_mem i hj)) hlink hstored
        hlinked (by omega), flatMap_cons, hchain]
      simp [addrs]

/-- The items are at different addresses. -/
theorem nodup_entries (h : Represents t T) : (addrs T.entries).Nodup := by
  rw [HashTable.entries, addrs, map_flatMap, nodup_flatMap]
  refine ⟨fun i _ ↦ (h.chains.linked i).nodup, T.nodup_used.imp fun {i j} hij a hi hj ↦ ?_⟩
  exact hij (h.chains.separate (index_eq T) hi hj)

/-- **What `find` returns.** -/
theorem find (h : Represents t T) (equal : K → K → Bool) (key : K) :
    (Returns (fun fuel ↦ t.find hasher equal fuel key) Iterator.atEnd ∧
      ∀ e ∈ T.buckets (T.index key), ¬ equal e.1 key) ∨ ∃ x e y, T.buckets (T.index key) = x ++ e ::
        y ∧ (∀ e' ∈ x, ¬ equal e'.1 key) ∧ equal e.1 key = true ∧
          Returns (fun fuel ↦ t.find hasher equal fuel key)
            ⟨some (T.index key), some (addr e)⟩ := by
  have hlinked := h.chains.linked (T.index key)
  rcases hdata : datas t.buckets (T.index key) with _ | a
  · have hdata' : (t.buckets (T.index key)).data = none := hdata
    refine .inl ⟨⟨0, fun _ _ ↦ by simp only [LinkedTable.find, h.bucketIndex_eq, hdata']⟩, ?_⟩
    rw [h.chains.data_eq_none.mp hdata]
    exact fun e he ↦ absurd he not_mem_nil
  · have hdata' : (t.buckets (T.index key)).data = some a := hdata
    rw [hdata] at hlinked
    rcases t.seek_eq equal key (h.chains.stored _) hlinked none with
      ⟨last, hseek, hnone⟩ | ⟨x, e, y, hsplit, hx, hequal, hseek⟩
    · exact .inl ⟨⟨(T.buckets (T.index key)).length, fun fuel hfuel ↦ by
        simp only [LinkedTable.find, h.bucketIndex_eq, hdata', hseek fuel hfuel, Option.map_some]⟩,
          hnone⟩
    · exact .inr ⟨x, e, y, hsplit, hx, hequal,
        ⟨(T.buckets (T.index key)).length, fun fuel hfuel ↦ by
        simp only [LinkedTable.find, h.bucketIndex_eq, hdata', hseek fuel hfuel, Option.map_some]⟩⟩

end Represents

/-! ## The items of a run -/

/-- Each bucket has the items of its keys, the last one first. -/
def Holds {hasher : K → Nat} (T : HashTable K (Nat × V) hasher) (s : List (K × Nat × V)) : Prop :=
  ∀ i, T.buckets i = s.filter fun e ↦ T.index e.1 == i

namespace Holds

variable {s : List (K × Nat × V)}

/-- The items one bucket after another. -/
theorem perm_flatMap_filter {α : Type*} (g : α → Nat) {l : List Nat} (hl : l.Nodup) (s : List α) :
    (l.flatMap fun i ↦ s.filter fun e ↦ g e == i).Perm (s.filter fun e ↦ decide (g e ∈ l)) := by
  induction l with
  | nil => simp
  | cons i l ih =>
    obtain ⟨hi, hl⟩ := nodup_cons.mp hl
    have hsplit := filter_append_perm (fun e ↦ g e == i)
      (s.filter fun e ↦ decide (g e ∈ i :: l))
    rw [filter_filter, filter_filter] at hsplit
    have hleft : (s.filter fun e ↦ (g e == i) && decide (g e ∈ i :: l)) = s.filter fun e ↦
      g e == i := by
      refine filter_congr fun e _ ↦ ?_
      by_cases he : g e = i <;> simp [he]
    have hright : (s.filter fun e ↦ (!(g e == i)) && decide (g e ∈ i :: l)) = s.filter fun e ↦
      decide (g e ∈ l) := by
      refine filter_congr fun e _ ↦ ?_
      by_cases he : g e = i <;> simp [he, hi]
    rw [hleft, hright] at hsplit
    rw [flatMap_cons]
    exact ((ih hl).append_left _).trans hsplit

theorem perm_entries (h : Holds T s) : T.entries.Perm s := by
  have hperm := perm_flatMap_filter (fun e : K × Nat × V ↦ T.index e.1) T.nodup_used s
  rw [filter_eq_self.mpr] at hperm
  · rwa [HashTable.entries, show T.buckets = _ from funext h]
  · intro e he
    refine decide_eq_true ((T.mem_used _).mpr (ne_nil_of_mem (a := e) ?_))
    rw [h]
    exact mem_filter.mpr ⟨he, beq_self_eq_true _⟩

theorem insert (h : Holds T s) (d : Nat) (key : K) (val : V) : Holds (T.insert key (d, val))
    ((key, d, val) :: s) := by
  intro i
  show Function.update T.buckets (T.index key) ((key, d, val) :: T.buckets (T.index key)) i =
    ((key, d, val) :: s).filter fun e ↦ T.index e.1 == i
  by_cases hi : i = T.index key
  · subst hi
    rw [Function.update_self, h, filter_cons_of_pos]
    exact beq_self_eq_true _
  · rw [Function.update_of_ne hi, h, filter_cons_of_neg]
    rw [beq_iff_eq]
    exact fun heq ↦ hi heq.symm

theorem erase {equal : K → K → Bool} (hhash : ∀ a b, equal a b = true → hasher a = hasher b)
    (h : Holds T s) (key : K) : Holds (T.erase equal key) (s.eraseP fun e ↦ equal e.1 key) := by
  have hindex : ∀ e : K × Nat × V, equal e.1 key = true → T.index e.1 = T.index key := fun e he ↦ by
    rw [HashTable.index, hhash e.1 key he, HashTable.index]
  intro i
  show Function.update T.buckets (T.index key)
    ((T.buckets (T.index key)).eraseP fun e ↦ equal e.1 key) i =
    (s.eraseP fun e ↦ equal e.1 key).filter fun e ↦ T.index e.1 == i
  by_cases hi : i = T.index key
  · subst hi
    have heq : (fun e : K × Nat × V ↦ equal e.1 key && (T.index e.1 == T.index key)) = fun e ↦
      equal e.1 key := by
      funext e
      by_cases he : equal e.1 key = true
      · simp [hindex e he]
      · simp [he]
    rw [Function.update_self, h, eraseP_filter, heq]
  · rw [Function.update_of_ne hi, h]
    rcases exists_or_eq_self_of_eraseP (fun e : K × Nat × V ↦ equal e.1 key) s with
      hself | ⟨e, l, r, -, he, hs, herase⟩
    · rw [hself]
    · rw [herase, hs, filter_append, filter_cons_of_neg, filter_append]
      rw [hindex e he, beq_iff_eq]
      exact fun heq ↦ hi heq.symm

theorem ofBuckets (n m : Nat) : Holds (HashTable.ofBuckets n m : HashTable K (Nat × V) hasher) [] :=
  fun _ ↦ rfl

end Holds

theorem le_roundUp (n fuel nb : Nat) : nb ≤ roundUp n fuel nb := by
  induction fuel generalizing nb with
  | zero => exact le_rfl
  | succ fuel ih =>
    rw [roundUp]
    split
    · exact (Nat.le_mul_of_pos_right nb two_pos).trans (ih (nb * 2))
    · exact le_rfl

section

variable {equal : K → K → Bool} (hhash : ∀ a b, equal a b = true → hasher a = hasher b)

include hhash

/-- **Each operation returns,** and the table has the items that it should have. -/
theorem exists_exec {s : List (K × Nat × V)}
    (hrep : Represents t T) (hpos : 0 < T.numBuckets) (hholds : Holds T s) {op : Op K V}
    (hop : op.Allowed t) :
    ∃ t', Returns (fun fuel ↦ t.exec hasher equal fuel op) t' ∧ ∃ T' : HashTable K (Nat × V) hasher,
      Represents t' T' ∧ 0 < T'.numBuckets ∧ Holds T' (op.after equal s) := by
  have herase : ∀ full key, ∃ t', Returns (fun fuel ↦ t.eraseWith hasher equal full fuel key) t' ∧
      ∃ T' : HashTable K (Nat × V) hasher, Represents t' T' ∧ 0 < T'.numBuckets ∧
        Holds T' (s.eraseP fun e ↦ equal e.1 key) := by
    intro full key
    obtain ⟨t', ht', hrep'⟩ := hrep.eraseWith full key
    exact ⟨t', ht', _, hrep', hpos, hholds.erase hhash key⟩
  cases op with
  | insert d key val =>
    obtain ⟨t', ht', hrep'⟩ := hrep.insert hop key val
    exact ⟨t', ⟨0, fun _ _ ↦ ht'⟩, _, hrep', hpos, hholds.insert d key val⟩
  | erase key => exact herase false key
  | eraseFull key => exact herase true key
  | clear =>
    obtain ⟨t', ht', hrep'⟩ := hrep.clear
    exact ⟨t', ht', _, hrep', hpos, Holds.ofBuckets _ _⟩
  | rehash =>
    obtain ⟨t', ht', hrep'⟩ := hrep.rehash hop
    have hnil : s = [] := by
      rw [← length_eq_zero_iff, ← hholds.perm_entries.length_eq,
        HashTable.entries, ← T.size_eq, ← hrep.size_eq]
      exact hop
    refine ⟨t', ⟨0, fun _ _ ↦ ht'⟩, _, hrep', ?_, by rw [Op.after, hnil]; exact Holds.ofBuckets _ _⟩
    dsimp only [HashTable.ofBuckets]
    split <;> omega

/-- **Each table that a run comes to represents lists of the items that are stored.** -/
theorem Runs.exists_represents {ops : List (Op K V)} (h : Runs hasher equal ops t) :
    ∃ T : HashTable K (Nat × V) hasher, Represents t T ∧ 0 < T.numBuckets ∧
      Holds T (stored equal ops) := by
  induction h with
  | new n load =>
    exact ⟨_, Represents.new n load, two_pos.trans_le (le_roundUp n n 2), Holds.ofBuckets _ _⟩
  | step _ allowed exec ih =>
    obtain ⟨T, hrep, hpos, hholds⟩ := ih
    obtain ⟨t₁, hexec, hrest⟩ := exists_exec hhash hrep hpos hholds allowed
    rwa [exec.unique hexec]

theorem sound {s : List (K × Nat × V)}
    (hrep : Represents t T) (hpos : 0 < T.numBuckets) (hholds : Holds T s) :
      Sound hasher equal s t := by
  have hperm : (addrs T.entries).Perm (addrs s) := hholds.perm_entries.map addr
  have hindex : ∀ key, ∀ e : K × Nat × V, equal e.1 key = true → T.index e.1 = T.index key :=
    fun key e he ↦ by
    rw [HashTable.index, hhash e.1 key he, HashTable.index]
  -- the items with an equal key are in one bucket, in the same order
  have hfind : ∀ key, (s.filter fun e ↦ equal e.1 key) = (T.buckets (T.index key)).filter fun e ↦
    equal e.1 key := by
    intro key
    rw [hholds, filter_filter]
    refine filter_congr fun e _ ↦ ?_
    by_cases he : equal e.1 key = true
    · simp [hindex key e he]
    · simp [he]
  refine ⟨⟨T.used, T.nodup_used, fun i ↦ ?_, hrep.used⟩, fun key ↦ ?_, ?_, ?_, fun e he ↦ ?_,
    fun a ha ↦ ?_, ⟨addrs T.entries, ⟨T.size + 2, fun fuel hfuel ↦ hrep.iterate_begin hfuel⟩,
      hperm⟩, fun key ↦ ?_, fun key ↦ ?_⟩
  · rw [T.mem_used, ne_eq, ne_eq, hrep.chains.data_eq_none]
  · rw [hrep.bucketIndex_eq, hrep.numBuckets_eq, HashTable.index]
    exact Nat.lt_of_le_pred hpos Nat.and_le_right
  · rw [hrep.size_eq, T.size_eq]
    exact hholds.perm_entries.length_eq
  · rw [← hperm.nodup_iff]
    exact hrep.nodup_entries
  · exact hrep.chains.stored _ e (T.mem_entries.mp (hholds.perm_entries.mem_iff.mpr he))
  · obtain ⟨i, hi⟩ := hrep.chains.allocated a ha
    obtain ⟨e, he, rfl⟩ := mem_map.mp hi
    have hmem : e ∈ T.entries := mem_flatMap.mpr
      ⟨i, (T.mem_used i).mpr (ne_nil_of_mem he), he⟩
    exact hperm.mem_iff.mp (mem_map_of_mem hmem)
  · rw [← head?_filter, hfind]
    rcases hrep.find equal key with ⟨hend, hnone⟩ | ⟨x, e, y, hsplit, hx, he, hfound⟩
    · refine ⟨_, hend, ?_, fun _ ↦ rfl⟩
      rw [filter_eq_nil_iff.mpr hnone]
      rfl
    · refine ⟨_, hfound, ?_, fun h ↦ ?_⟩
      · rw [hsplit, filter_append, filter_eq_nil_iff.mpr hx, nil_append,
          filter_cons_of_pos]
        · rfl
        · exact he
      · cases h
  · rw [hfind]
    rcases hrep.find equal key with ⟨hend, hnone⟩ | ⟨x, e, y, hsplit, hx, he, hfound⟩
    · refine ⟨[], hend.bind (returns_iterate_atEnd _), nodup_nil, ?_⟩
      rw [filter_eq_nil_iff.mpr hnone]
      rfl
    · have hstored : ∀ f ∈ e :: y, Stored t.items f := fun f hf ↦
        hrep.chains.stored _ f (by rw [hsplit]; exact mem_append_right x hf)
      have hlinked := hrep.chains.linked (T.index key)
      have hnodup := hlinked.nodup
      rw [hsplit, addrs, map_append] at hlinked hnodup
      obtain ⟨m, -, hlinked⟩ := linked_append.mp hlinked
      obtain rfl := (linked_cons.mp hlinked).1
      refine ⟨addrs (e :: y), hfound.bind (g := fun it fuel ↦ LinkedTable.iterate t.next fuel it)
        ⟨y.length + 2, fun fuel hfuel ↦ iterate_next hstored hlinked hfuel⟩,
          (nodup_append.mp hnodup).2.1, ?_⟩
      rw [hsplit, filter_append, filter_eq_nil_iff.mpr hx, nil_append, addrs,
        filter_map]
      refine congrArg addrs (filter_congr fun f hf ↦ ?_)
      obtain ⟨next, hnext⟩ := hstored f hf
      rw [Function.comp_apply, hnext, Option.any_some]

/-- **Each table that a run comes to is sound, and each operation on it returns.** -/
theorem sound_of_runs {ops : List (Op K V)} (h : Runs hasher equal ops t) :
    Sound hasher equal (stored equal ops) t ∧
      ∀ op : Op K V, op.Allowed t → ∃ t', Returns (fun fuel ↦ t.exec hasher equal fuel op) t' := by
  obtain ⟨T, hrep, hpos, hholds⟩ := h.exists_represents hhash
  refine ⟨sound hhash hrep hpos hholds, fun op hop ↦ ?_⟩
  obtain ⟨t', ht', -⟩ := exists_exec hhash hrep hpos hholds hop
  exact ⟨t', ht'⟩

end

/-- Keys are equal here if they have the same last digit. -/
theorem sound_of_runs_two : ∃ t : LinkedTable Nat Nat,
    Sound (fun a ↦ a % 10) (fun a b ↦ a % 10 == b % 10) [(15, 2, 1), (5, 1, 0)] t ∧
      ∀ op : Op Nat Nat, op.Allowed t →
        ∃ t', Returns (fun fuel ↦ t.exec (fun a ↦ a % 10) (fun a b ↦ a % 10 == b % 10) fuel op)
          t' := by
  have hrun : ∃ t : LinkedTable Nat Nat,
      Runs (fun a ↦ a % 10) (fun a b ↦ a % 10 == b % 10) [.insert 2 15 1, .insert 1 5 0] t :=
    ⟨_, .step (.step (.new 8 (1 / 2)) rfl ⟨0, fun _ _ ↦ rfl⟩) rfl ⟨0, fun _ _ ↦ rfl⟩⟩
  obtain ⟨t, ht⟩ := hrun
  exact ⟨t, sound_of_runs (fun _ _ h ↦ by simpa using h) ht⟩

end LinkedTable

end Tigon.Hfta
