import Mathlib

/-!
# Byte strings

Byte strings are compared byte by byte, unsigned, and a proper prefix comes first: the lexicographic
order on lists.  Strings that start with parts of the same length compare by these parts first
(`append_lt_append_iff`).

`toBytes w n` is the big-endian encoding of `n` in `w` bytes.  It takes the order of numbers to the
order of byte strings (`toBytes_lt_toBytes_iff`), and `ofBytes` takes it back.

A proof about keys that are made of numbers can then be carried out with tuples of numbers.
-/

set_option autoImplicit false

namespace Bytes

/-! ## The order -/

theorem trichotomous_lt (a b : UInt8) (hab : ¬ a < b) (hba : ¬ b < a) : a = b :=
  UInt8.le_antisymm (UInt8.not_lt.mp hba) (UInt8.not_lt.mp hab)

instance instTrichotomousLt : Std.Trichotomous fun a b : UInt8 ↦ a < b := ⟨trichotomous_lt⟩

theorem lt_iff_le_not_ge (a b : List UInt8) : a < b ↔ a ≤ b ∧ ¬ b ≤ a := by
  rw [List.not_le]
  exact ⟨fun h ↦ ⟨List.le_of_lt h, h⟩, And.right⟩

instance instLinearOrder : LinearOrder (List UInt8) where
  le_refl := List.le_refl
  le_trans _ _ _ := List.le_trans
  le_antisymm _ _ := List.le_antisymm
  le_total := List.le_total
  lt_iff_le_not_ge := lt_iff_le_not_ge
  compare a b := compareOfLessAndEq a b
  compare_eq_compareOfLessAndEq _ _ := rfl
  toDecidableLE := inferInstance
  toDecidableLT := inferInstance

variable {x y a b : List UInt8}

theorem append_lt_append_left_iff (x : List UInt8) : x ++ a < x ++ b ↔ a < b := by
  induction x with
  | nil => rfl
  | cons c x ih => rw [List.cons_append, List.cons_append, List.cons_lt_cons_iff, ih]; simp

/-- Strings that start with parts of the same length. -/
theorem append_lt_append_iff (h : x.length = y.length) : x ++ a < y ++ b ↔
    x < y ∨ x = y ∧ a < b := by
  induction x generalizing y with
  | nil =>
    obtain rfl := List.length_eq_zero_iff.mp h.symm
    simp
  | cons c x ih =>
    cases y with
    | nil => cases h
    | cons d y =>
      rw [List.cons_append, List.cons_append, List.cons_lt_cons_iff, List.cons_lt_cons_iff,
        ih (Nat.succ.inj h), List.cons.injEq]
      tauto

/-! ## Numbers -/

/-- The last `w` bytes of a number, the most significant one first. -/
def toBytes : Nat → Nat → List UInt8
  | 0, _ => []
  | w + 1, n => UInt8.ofNat (n / 256 ^ w) :: toBytes w n

def ofBytes (l : List UInt8) : Nat := l.foldl (fun n b ↦ 256 * n + b.toNat) 0

variable {w n m : Nat}

@[simp]
theorem length_toBytes (w n : Nat) : (toBytes w n).length = w := by
  induction w with
  | zero => rfl
  | succ w ih => rw [toBytes, List.length_cons, ih]

/-- Only the last bytes count. -/
theorem toBytes_mod (w n : Nat) : toBytes w (n % 256 ^ w) = toBytes w n := by
  have hle : ∀ k ≤ w, toBytes k (n % 256 ^ w) = toBytes k n := by
    intro k
    induction k with
    | zero => exact fun _ ↦ rfl
    | succ k ih =>
      intro hk
      have hdvd : 256 ^ k * 256 ∣ 256 ^ w := pow_succ 256 k ▸ pow_dvd_pow 256 hk
      have hbyte : n % 256 ^ w / 256 ^ k % 256 = n / 256 ^ k % 256 := by
        rw [← Nat.mod_mul_right_div_self, ← Nat.mod_mul_right_div_self, Nat.mod_mod_of_dvd n hdvd]
      have heq : UInt8.ofNat (n % 256 ^ w / 256 ^ k) = UInt8.ofNat (n / 256 ^ k) := by
        rw [← UInt8.toNat_inj, UInt8.toNat_ofNat', UInt8.toNat_ofNat']
        exact hbyte
      rw [toBytes, toBytes, heq, ih (by omega)]
  exact hle w le_rfl

theorem ofBytes_append (l : List UInt8) (b : UInt8) : ofBytes (l ++ [b]) = 256 * ofBytes l +
    b.toNat := by
  rw [ofBytes, List.foldl_append]
  rfl

theorem foldl_toBytes (k w n : Nat) : (toBytes w n).foldl (fun n b ↦ 256 * n + b.toNat) k =
    256 ^ w * k + n % 256 ^ w := by
  induction w generalizing k with
  | zero => simp [toBytes, Nat.mod_one]
  | succ w ih =>
    have hmod := Nat.mod_mul (x := n) (a := 256 ^ w) (b := 256)
    have hbyte : (UInt8.ofNat (n / 256 ^ w)).toNat = n / 256 ^ w % 256 := UInt8.toNat_ofNat'
    rw [toBytes, List.foldl_cons, ih, hbyte, pow_succ, hmod]
    ring

/-- **Numbers survive the encoding.** -/
theorem ofBytes_toBytes (h : n < 256 ^ w) : ofBytes (toBytes w n) = n := by
  rw [ofBytes, foldl_toBytes, Nat.mul_zero, Nat.zero_add, Nat.mod_eq_of_lt h]

/-- The last byte. -/
theorem toBytes_succ_eq_append (w n : Nat) : toBytes (w + 1) n = toBytes w (n / 256) ++
    [UInt8.ofNat n] := by
  induction w with
  | zero => simp [toBytes]
  | succ w ih =>
    conv_lhs => rw [toBytes, ih]
    rw [toBytes, Nat.div_div_eq_div_mul, ← pow_succ', List.cons_append]

theorem toBytes_inj (hn : n < 256 ^ w) (hm : m < 256 ^ w) : toBytes w n = toBytes w m ↔ n = m :=
  ⟨fun h ↦ by rw [← ofBytes_toBytes hn, h, ofBytes_toBytes hm], fun h ↦ by rw [h]⟩

/-- **Numbers are in the order of their encodings.** -/
theorem toBytes_lt_toBytes_iff (hn : n < 256 ^ w) (hm : m < 256 ^ w) :
    toBytes w n < toBytes w m ↔ n < m := by
  induction w generalizing n m with
  | zero =>
    rw [pow_zero] at hn hm
    exact iff_of_false (List.lt_irrefl _) (by omega)
  | succ w ih =>
    have hpos : 0 < 256 ^ w := Nat.pow_pos (by decide)
    have hdn : n / 256 ^ w < 256 := by rwa [Nat.div_lt_iff_lt_mul hpos, ← pow_succ']
    have hdm : m / 256 ^ w < 256 := by rwa [Nat.div_lt_iff_lt_mul hpos, ← pow_succ']
    rw [toBytes, toBytes, List.cons_lt_cons_iff, ← toBytes_mod w n, ← toBytes_mod w m,
      ih (Nat.mod_lt _ hpos) (Nat.mod_lt _ hpos), UInt8.lt_iff_toNat_lt, ← UInt8.toNat_inj,
      UInt8.toNat_ofNat', UInt8.toNat_ofNat', Nat.mod_eq_of_lt hdn, Nat.mod_eq_of_lt hdm]
    have hn' := Nat.div_add_mod n (256 ^ w)
    have hm' := Nat.div_add_mod m (256 ^ w)
    have hrn := Nat.mod_lt n hpos
    have hrm := Nat.mod_lt m hpos
    rcases lt_trichotomy (n / 256 ^ w) (m / 256 ^ w) with h | h | h
    · have := Nat.mul_le_mul_left (256 ^ w) (show n / 256 ^ w + 1 ≤ m / 256 ^ w from h)
      rw [Nat.mul_add, Nat.mul_one] at this
      omega
    · rw [h] at hn' ⊢
      omega
    · have := Nat.mul_le_mul_left (256 ^ w) (show m / 256 ^ w + 1 ≤ n / 256 ^ w from h)
      rw [Nat.mul_add, Nat.mul_one] at this
      omega

end Bytes
