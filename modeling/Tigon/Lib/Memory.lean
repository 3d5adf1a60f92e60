import Mathlib

/-!
# Bytes at addresses

A memory is a function from addresses to bytes.  `store` puts a list of bytes at an address, `load`
takes as many bytes from it as asked for; a load sees the bytes of a store at the same place, and
those that were there before where the two have no address in common.  `store32` and `load32` do the
same with a 32-bit number, lowest byte first.

A memory is total: which addresses a program may use is for the model of the program to say.
-/

set_option autoImplicit false

namespace Memory

/-- The memory with the bytes `bs` from the address `a` on. -/
def store (m : Nat → UInt8) (a : Nat) (bs : List UInt8) : Nat → UInt8 :=
  fun x ↦ if a ≤ x then (bs[x - a]?).getD (m x) else m x

/-- The `n` bytes from the address `a` on. -/
def load (m : Nat → UInt8) (a n : Nat) : List UInt8 := (List.range n).map fun i ↦ m (a + i)

/-- The bytes of a 32-bit number. -/
def bytes32 (n : Nat) : List UInt8 :=
  [UInt8.ofNat n, UInt8.ofNat (n / 2 ^ 8), UInt8.ofNat (n / 2 ^ 16), UInt8.ofNat (n / 2 ^ 24)]

/-- The number that the bytes stand for. -/
def ofBytes (bs : List UInt8) : Nat := bs.foldr (fun b n ↦ b.toNat + 2 ^ 8 * n) 0

/-- As many bytes of a number, lowest byte first. -/
def bytesOf : Nat → Nat → List UInt8
  | 0, _ => []
  | w + 1, n => UInt8.ofNat n :: bytesOf w (n / 2 ^ 8)

def store32 (m : Nat → UInt8) (a n : Nat) : Nat → UInt8 := store m a (bytes32 n)

def load32 (m : Nat → UInt8) (a : Nat) : Nat := ofBytes (load m a 4)

variable {m : Nat → UInt8} {a b n k : Nat} {bs : List UInt8}

@[simp] theorem length_load : (load m a n).length = n := by simp [load]

theorem store_of_notMem {x : Nat} (h : x < a ∨ a + bs.length ≤ x) : store m a bs x = m x := by
  unfold store
  split_ifs with hx
  · rw [List.getElem?_eq_none (by omega), Option.getD_none]
  · rfl

theorem store_add {i : Nat} (h : i < bs.length) : store m a bs (a + i) = bs[i] := by
  rw [store, if_pos (Nat.le_add_right a i), Nat.add_sub_cancel_left, List.getElem?_eq_getElem h,
    Option.getD_some]

theorem store_nil (m : Nat → UInt8) (a : Nat) : store m a [] = m := by
  funext x
  rw [store_of_notMem]
  rw [List.length_nil]
  omega

theorem store_cons (m : Nat → UInt8) (a : Nat) (b : UInt8) (bs : List UInt8) :
    store m a (b :: bs) = store (Function.update m a b) (a + 1) bs := by
  funext x
  rcases lt_trichotomy x a with hx | rfl | hx
  · rw [store_of_notMem (Or.inl hx), store_of_notMem (Or.inl (by omega)),
      Function.update_of_ne hx.ne]
  · rw [store_of_notMem (Or.inl (Nat.lt_succ_self x)), Function.update_self, store, if_pos le_rfl,
      Nat.sub_self]
    rfl
  · rw [store, store, if_pos hx.le, if_pos (by omega), show x - a = x - (a + 1) + 1 by omega,
      List.getElem?_cons_succ, Function.update_of_ne hx.ne']

/-- A byte put behind what was stored. -/
theorem update_store (m : Nat → UInt8) (a : Nat) (bs : List UInt8) (b : UInt8) :
    Function.update (store m a bs) (a + bs.length) b = store m a (bs ++ [b]) := by
  induction bs generalizing m a with
  | nil =>
    rw [List.nil_append, store_cons, store_nil, store_nil]
    rfl
  | cons c bs ih =>
    rw [List.cons_append, store_cons, store_cons, ← ih, List.length_cons]
    congr 1
    omega

/-- What was stored is loaded. -/
theorem load_store (h : bs.length = n) : load (store m a bs) a n = bs := by
  subst h
  refine List.ext_getElem (by simp) fun i hi _ ↦ ?_
  rw [length_load] at hi
  simp only [load, List.getElem_map, List.getElem_range]
  exact store_add hi

/-- A store elsewhere makes no difference. -/
theorem load_store_of_disjoint (h : b + n ≤ a ∨ a + bs.length ≤ b) :
    load (store m a bs) b n = load m b n := by
  refine List.map_congr_left fun i hi ↦ store_of_notMem ?_
  have := List.mem_range.mp hi
  omega

/-- Of what was stored a part is loaded. -/
theorem load_store_of_le (h : k + n ≤ bs.length) : load (store m a bs) (a + k) n =
    (bs.drop k).take n := by
  refine List.ext_getElem (by simp; omega) fun i hi _ ↦ ?_
  rw [length_load] at hi
  simp only [load, List.getElem_map, List.getElem_range, List.getElem_take, List.getElem_drop,
    Nat.add_assoc]
  exact store_add (by omega)

theorem take_load (h : k ≤ n) : (load m a n).take k = load m a k := by
  rw [load, load, ← List.map_take, List.take_range, Nat.min_eq_left h]

@[simp] theorem length_bytes32 : (bytes32 n).length = 4 := rfl

theorem ofBytes_bytes32 (h : n < 2 ^ 32) : ofBytes (bytes32 n) = n := by
  simp only [ofBytes, bytes32, List.foldr_cons, List.foldr_nil, UInt8.toNat_ofNat']
  omega

theorem length_bytesOf (w n : Nat) : (bytesOf w n).length = w := by
  induction w generalizing n with
  | zero => rfl
  | succ w ih => rw [bytesOf, List.length_cons, ih]

theorem ofBytes_bytesOf {w : Nat} (h : n < 2 ^ (8 * w)) : ofBytes (bytesOf w n) = n := by
  induction w generalizing n with
  | zero =>
    obtain rfl : n = 0 := by omega
    rfl
  | succ w ih =>
    have hlt : n / 2 ^ 8 < 2 ^ (8 * w) := by
      rw [Nat.mul_succ, Nat.pow_add] at h
      exact Nat.div_lt_of_lt_mul (by omega)
    have hcons : ofBytes (bytesOf (w + 1) n) = (UInt8.ofNat n).toNat + 2 ^ 8 *
      ofBytes (bytesOf w (n / 2 ^ 8)) := rfl
    rw [hcons, ih hlt, UInt8.toNat_ofNat']
    omega

theorem load32_store32 (h : n < 2 ^ 32) : load32 (store32 m a n) a = n := by
  rw [load32, store32, load_store length_bytes32, ofBytes_bytes32 h]

theorem load32_store_of_disjoint (h : b + 4 ≤ a ∨ a + bs.length ≤ b) :
    load32 (store m a bs) b = load32 m b := by
  rw [load32, load_store_of_disjoint h, load32]

theorem load_store32_of_disjoint (h : b + k ≤ a ∨ a + 4 ≤ b) :
    load (store32 m a n) b k = load m b k :=
  load_store_of_disjoint (by simpa using h)

theorem load32_store32_of_disjoint (h : b + 4 ≤ a ∨ a + 4 ≤ b) :
    load32 (store32 m a n) b = load32 m b :=
  load32_store_of_disjoint (by simpa using h)

end Memory
