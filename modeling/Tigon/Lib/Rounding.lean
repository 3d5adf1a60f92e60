import Mathlib

/-!
# Rounding to binary floating point numbers

A rational number is rounded to one with `p` significant bits, to the nearest one and to the even
one of two that are as near.  The exponent has no bounds.

The result is a rational number again, so errors are bounded by arithmetic on these.

* `toBinary_intCast` — whole numbers that have no more than `p` bits are not changed.
* `abs_toBinary_sub_le` — **the error is at most `|x| / 2 ^ p`.**
-/

set_option autoImplicit false

namespace Rounding

/-- The nearest whole number, the even one of two. -/
def roundEven (x : ℚ) : ℤ :=
  if x - ⌊x⌋ < 1 / 2 then ⌊x⌋
  else if 1 / 2 < x - ⌊x⌋ then ⌊x⌋ + 1
  else if ⌊x⌋ % 2 = 0 then ⌊x⌋
  else ⌊x⌋ + 1

/-- The value of the last of `p` significant bits. -/
def lastPlace (p : ℕ) (x : ℚ) : ℚ := 2 ^ (Int.log 2 |x| + 1 - p)

/-- The nearest number with `p` significant bits. -/
def toBinary (p : ℕ) (x : ℚ) : ℚ := roundEven (x / lastPlace p x) * lastPlace p x

variable {p : ℕ} {x : ℚ}

theorem roundEven_intCast (n : ℤ) : roundEven n = n := by
  have hfloor : (n : ℚ) - ⌊(n : ℚ)⌋ < 1 / 2 := by
    rw [Int.floor_intCast, sub_self]
    norm_num
  rw [roundEven, if_pos hfloor, Int.floor_intCast]

theorem abs_roundEven_sub_le (x : ℚ) : |roundEven x - x| ≤ 1 / 2 := by
  have hlower := Int.floor_le x
  have hupper := (Int.lt_floor_add_one x).le
  rw [roundEven, abs_le]
  split_ifs <;> push_cast <;> constructor <;> linarith

theorem lastPlace_pos (p : ℕ) (x : ℚ) : 0 < lastPlace p x := zpow_pos two_pos _

/-- The last place of a whole number with more than `p` bits. -/
theorem lastPlace_natCast {n k : ℕ} (h : Nat.log 2 n = p + k) : lastPlace p n = 2 ^ (k + 1) := by
  have habs : |(n : ℚ)| = n := abs_of_nonneg n.cast_nonneg
  rw [lastPlace, habs, Int.log_natCast, h, ← zpow_natCast]
  congr 1
  push_cast
  ring

/-- Half of the last place is at most the part `1 / 2 ^ p` of the number. -/
theorem half_lastPlace_le (p : ℕ) (hx : x ≠ 0) : lastPlace p x / 2 ≤ |x| / 2 ^ p := by
  have hlog : (2 : ℚ) ^ Int.log 2 |x| ≤ |x| := Int.zpow_log_le_self one_lt_two (abs_pos.mpr hx)
  have hsplit : lastPlace p x / 2 = 2 ^ Int.log 2 |x| / 2 ^ p := by
    rw [lastPlace, zpow_sub₀ two_ne_zero, zpow_add_one₀ two_ne_zero, zpow_natCast]
    ring
  rw [hsplit]
  gcongr

/-- **The error is at most the part `1 / 2 ^ p` of the number.** -/
theorem abs_toBinary_sub_le (p : ℕ) (x : ℚ) : |toBinary p x - x| ≤ |x| / 2 ^ p := by
  rcases eq_or_ne x 0 with rfl | hx
  · have hzero : toBinary p 0 = 0 := by
      have hround : roundEven 0 = 0 := roundEven_intCast 0
      rw [toBinary, zero_div, hround, Int.cast_zero, zero_mul]
    rw [hzero, sub_self, abs_zero, zero_div]
  · have hpos := lastPlace_pos p x
    have herror : toBinary p x - x = (roundEven (x / lastPlace p x) - x / lastPlace p x) *
      lastPlace p x := by
      rw [sub_mul, div_mul_cancel₀ _ hpos.ne', toBinary]
    calc |toBinary p x - x|
        = |roundEven (x / lastPlace p x) - x / lastPlace p x| * lastPlace p x := by
          rw [herror, abs_mul, abs_of_pos hpos]
      _ ≤ 1 / 2 * lastPlace p x := mul_le_mul_of_nonneg_right (abs_roundEven_sub_le _) hpos.le
      _ = lastPlace p x / 2 := by ring
      _ ≤ |x| / 2 ^ p := half_lastPlace_le p hx

/-- Whole numbers with no more than `p` bits are not changed. -/
theorem toBinary_intCast {n : ℤ} (hn : |n| < 2 ^ p) : toBinary p n = n := by
  rcases eq_or_ne n 0 with rfl | hzero
  · have hround : roundEven 0 = 0 := roundEven_intCast 0
    rw [toBinary, Int.cast_zero, zero_div, hround, Int.cast_zero, zero_mul]
  · have hcast : |(n : ℚ)| = ((n.natAbs : ℕ) : ℚ) := by
      rw [Nat.cast_natAbs, Int.cast_abs]
    have hlog : Int.log 2 |(n : ℚ)| = Nat.log 2 n.natAbs := by rw [hcast, Int.log_natCast]
    have hbits : Nat.log 2 n.natAbs < p := by
      refine Nat.log_lt_of_lt_pow (Int.natAbs_ne_zero.mpr hzero) ?_
      zify
      exact hn
    obtain ⟨k, hk⟩ := Nat.exists_eq_add_of_lt hbits
    have hplace : lastPlace p (n : ℚ) = (2 ^ k : ℚ)⁻¹ := by
      rw [lastPlace, hlog, hk, ← zpow_natCast, ← zpow_neg]
      congr 1
      push_cast
      ring
    have hwhole : (n : ℚ) / lastPlace p n = ((n * 2 ^ k : ℤ) : ℚ) := by
      rw [hplace, div_inv_eq_mul]
      push_cast
      rfl
    have hne : (2 ^ k : ℚ) ≠ 0 := pow_ne_zero k two_ne_zero
    rw [toBinary, hwhole, roundEven_intCast, hplace]
    push_cast
    exact mul_inv_cancel_right₀ hne _

theorem sub_le_toBinary (p : ℕ) (hx : 0 ≤ x) : x - x / 2 ^ p ≤ toBinary p x := by
  have herror := (abs_le.mp (abs_toBinary_sub_le p x)).1
  rw [abs_of_nonneg hx] at herror
  linarith

theorem toBinary_pos (hp : 0 < p) (hx : 0 < x) : 0 < toBinary p x := by
  have hlower := sub_le_toBinary p hx.le
  have hpart : x / 2 ^ p < x := div_lt_self hx (one_lt_pow₀ one_lt_two hp.ne')
  linarith

end Rounding
