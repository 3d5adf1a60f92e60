import Tigon.Lib.Memory

/-!
# Strings in memory

A string in memory is a sequence of bytes other than zero, with a zero byte at its end.  A string
becomes two strings when a zero byte is written over a byte in it.

`StringAt` is a relation and not a function that reads a string.  So nothing has to be said of what
lies behind the end, and two strings in one memory are two facts.

* `StringAt.cut` — the two strings.
* `StringAt.unique` — at an address there is one string at most.
* `StringsAt.forall₂` — several strings, one after another, and the addresses that they are at.
-/

set_option autoImplicit false

namespace CString

/-- The string `s` is at the address `a`, and its end is below `size`. -/
def StringAt (size : Nat) (m : Nat → UInt8) : Nat → List UInt8 → Prop
  | a, [] => a < size ∧ m a = 0
  | a, c :: s => c ≠ 0 ∧ m a = c ∧ StringAt size m (a + 1) s

variable {size : Nat} {m m' : Nat → UInt8} {a : Nat} {c : UInt8} {s t : List UInt8}
  {ss : List (List UInt8)}

theorem StringAt.unique (hs : StringAt size m a s) (ht : StringAt size m a t) : s = t := by
  induction s generalizing a t with
  | nil =>
    rcases t with - | ⟨d, t⟩
    · rfl
    · exact absurd (ht.2.1.symm.trans hs.2) ht.1
  | cons c s ih =>
    rcases t with - | ⟨d, t⟩
    · exact absurd (hs.2.1.symm.trans ht.2) hs.1
    · rw [hs.2.1.symm.trans ht.2.1, ih hs.2.2 ht.2.2]

/-- A string stays where the memory stays the same. -/
theorem StringAt.congr (hs : StringAt size m a s) (h : ∀ k, a ≤ k → k ≤ a + s.length → m' k = m k) :
    StringAt size m' a s := by
  induction s generalizing a with
  | nil => exact ⟨hs.1, (h a le_rfl le_rfl).trans hs.2⟩
  | cons c s ih =>
    rw [List.length_cons] at h
    exact ⟨hs.1, (h a le_rfl (by omega)).trans hs.2.1, ih hs.2.2 fun k hk hk' ↦
      h k (by omega) (by omega)⟩

theorem StringAt.lt (hs : StringAt size m a s) : a + s.length < size := by
  induction s generalizing a with
  | nil => exact hs.1
  | cons c s ih =>
    have := ih hs.2.2
    rw [List.length_cons]
    omega

theorem StringAt.end_eq (hs : StringAt size m a s) : m (a + s.length) = 0 := by
  induction s generalizing a with
  | nil => exact hs.2
  | cons c s ih =>
    rw [List.length_cons, show a + (s.length + 1) = a + 1 + s.length by omega]
    exact ih hs.2.2

/-- The part behind the byte `c`, and the byte. -/
theorem StringAt.drop (h : StringAt size m a (s ++ c :: t)) :
    c ≠ 0 ∧ m (a + s.length) = c ∧ StringAt size m (a + s.length + 1) t := by
  induction s generalizing a with
  | nil => exact h
  | cons d s ih =>
    rw [List.length_cons, show a + (s.length + 1) = a + 1 + s.length by omega]
    exact ih h.2.2

theorem StringAt.take (h : StringAt size m a (s ++ c :: t)) :
    StringAt size (Function.update m (a + s.length) 0) a s := by
  induction s generalizing a with
  | nil =>
    have hlt := StringAt.lt h
    rw [List.nil_append, List.length_cons] at hlt
    exact ⟨by omega, Function.update_self ..⟩
  | cons d s ih =>
    rw [List.length_cons, show a + (s.length + 1) = a + 1 + s.length by omega]
    exact ⟨h.1, by rw [Function.update_of_ne (by omega), h.2.1], ih h.2.2⟩

/-- **A string is cut in two.** -/
theorem StringAt.cut (h : StringAt size m a (s ++ c :: t)) :
    StringAt size (Function.update m (a + s.length) 0) a s ∧
      StringAt size (Function.update m (a + s.length) 0) (a + s.length + 1) t :=
  ⟨h.take, h.drop.2.2.congr fun _ hk _ ↦ Function.update_of_ne (by omega) ..⟩

/-- A string that was stored. -/
theorem stringAt_store (hs : 0 ∉ s) (hsize : a + s.length < size) :
    StringAt size (Memory.store m a (s ++ [0])) a s := by
  induction s generalizing m a with
  | nil =>
    rw [List.nil_append, Memory.store_cons, Memory.store_nil]
    exact ⟨hsize, Function.update_self ..⟩
  | cons c s ih =>
    obtain ⟨hc, hs⟩ := not_or.mp (mt List.mem_cons.mpr hs)
    rw [List.length_cons] at hsize
    rw [List.cons_append, Memory.store_cons]
    refine ⟨Ne.symm hc, ?_, ih hs (by omega)⟩
    rw [Memory.store_of_notMem (Or.inl (Nat.lt_succ_self a)), Function.update_self]

/-! ## Strings one after another -/

/-- The strings are one after another, from the address `a` on. -/
def StringsAt (size : Nat) (m : Nat → UInt8) : Nat → List (List UInt8) → Prop
  | _, [] => True
  | a, s :: ss => StringAt size m a s ∧ StringsAt size m (a + s.length + 1) ss

/-- Where they start. -/
def starts : Nat → List (List UInt8) → List Nat
  | _, [] => []
  | a, s :: ss => a :: starts (a + s.length + 1) ss

/-- Where the last one ends. -/
def stop : Nat → List (List UInt8) → Nat
  | a, [] => a - 1
  | a, s :: ss => stop (a + s.length + 1) ss

theorem StringsAt.forall₂ (h : StringsAt size m a ss) : List.Forall₂ (StringAt size m)
    (starts a ss) ss := by
  induction ss generalizing a with
  | nil => exact List.Forall₂.nil
  | cons s ss ih => exact List.Forall₂.cons h.1 (ih h.2)

/-- The length of the last string makes no difference. -/
theorem starts_concat (a : Nat) (ss : List (List UInt8)) (s t : List UInt8) :
    starts a (ss ++ [s]) = starts a (ss ++ [t]) := by
  induction ss generalizing a with
  | nil => rfl
  | cons r ss ih => exact congrArg (a :: ·) (ih (a + r.length + 1))

/-- The addresses determine the strings. -/
theorem unique_of_forall₂ {as : List Nat} {ts : List (List UInt8)}
    (hs : List.Forall₂ (StringAt size m) as ss) (ht : List.Forall₂ (StringAt size m) as ts) :
      ss = ts := by
  induction hs generalizing ts with
  | nil => exact (List.forall₂_nil_left_iff.mp ht).symm
  | cons hs _ ih =>
    obtain ⟨t, ts, ht', hts, rfl⟩ := List.forall₂_cons_left_iff.mp ht
    rw [hs.unique ht', ih hts]

end CString
