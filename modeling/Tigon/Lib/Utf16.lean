import Mathlib

/-!
# Strings of 16-bit units

A string is a list of units.  A character below `0x10000` is one unit, any other is a pair of
surrogates, the high one first.  A surrogate that is not part of a pair is no character: where
characters are asked for, there is another one in its place.

* `wellFormed_iff` — **a string survives if and only if all its surrogates are in pairs.**
-/

set_option autoImplicit false

namespace Utf16

variable {u v : UInt16} {s : List UInt16} {c r : Char}

def IsHigh (u : UInt16) : Prop := 0xD800 ≤ u.toNat ∧ u.toNat < 0xDC00

def IsLow (u : UInt16) : Prop := 0xDC00 ≤ u.toNat ∧ u.toNat < 0xE000

instance decidableIsHigh (u : UInt16) : Decidable (IsHigh u) := inferInstanceAs (Decidable (_ ∧ _))

instance decidableIsLow (u : UInt16) : Decidable (IsLow u) := inferInstanceAs (Decidable (_ ∧ _))

/-- The units of a character. -/
def units (c : Char) : List UInt16 :=
  if c.toNat < 0x10000 then [UInt16.ofNat c.toNat]
  else [UInt16.ofNat (0xD800 + (c.toNat - 0x10000) / 0x400),
    UInt16.ofNat (0xDC00 + (c.toNat - 0x10000) % 0x400)]

/-- A unit that is not part of a pair. -/
def single (r : Char) (u : UInt16) : Char := if IsHigh u ∨ IsLow u then r else Char.ofNat u.toNat

/-- The character of a pair. -/
def pair (u v : UInt16) : Char := Char.ofNat
    (0x10000 + (u.toNat - 0xD800) * 0x400 + (v.toNat - 0xDC00))

/-- The characters of a string, with `r` in the place of what is none. -/
def decode (r : Char) : List UInt16 → List Char
  | [] => []
  | [u] => [single r u]
  | u :: v :: s =>
    if IsHigh u ∧ IsLow v then pair u v :: decode r s else single r u :: decode r (v :: s)

/-- All surrogates are in pairs. -/
def WellFormed : List UInt16 → Prop
  | [] => True
  | [u] => ¬ (IsHigh u ∨ IsLow u)
  | u :: v :: s =>
    if IsHigh u ∧ IsLow v then WellFormed s else ¬ (IsHigh u ∨ IsLow u) ∧ WellFormed (v :: s)

/-! ## Characters -/

theorem toNat_char (c : Char) : c.toNat < 0xD800 ∨ 0xDFFF < c.toNat ∧ c.toNat < 0x110000 := c.valid

theorem toNat_ofNat {n : Nat} (h : n < 0xD800 ∨ 0xDFFF < n ∧ n < 0x110000) :
    (Char.ofNat n).toNat = n := by
  rw [Char.ofNat, dif_pos h]
  rfl

theorem toNat_unit {n : Nat} (h : n < 0x10000) : (UInt16.ofNat n).toNat = n :=
  UInt16.toNat_ofNat_of_lt' h

theorem units_of_lt (h : c.toNat < 0x10000) :
    units c = [UInt16.ofNat c.toNat] ∧
      ¬ (IsHigh (UInt16.ofNat c.toNat) ∨ IsLow (UInt16.ofNat c.toNat)) := by
  refine ⟨if_pos h, ?_⟩
  have hc := toNat_char c
  rw [IsHigh, IsLow, toNat_unit h]
  omega

theorem units_of_ge (h : 0x10000 ≤ c.toNat) : ∃ u v, units c = [u, v] ∧ IsHigh u ∧ IsLow v ∧
    pair u v = c := by
  have hc := toNat_char c
  have hu : (UInt16.ofNat (0xD800 + (c.toNat - 0x10000) / 0x400)).toNat = _ := toNat_unit (by omega)
  have hv : (UInt16.ofNat (0xDC00 + (c.toNat - 0x10000) % 0x400)).toNat = _ := toNat_unit (by omega)
  refine ⟨_, _, if_neg (Nat.not_lt.mpr h), ?_, ?_, ?_⟩
  · rw [IsHigh, hu]
    omega
  · rw [IsLow, hv]
    omega
  · have hsum : 0x10000 + (0xD800 + (c.toNat - 0x10000) / 0x400 - 0xD800) * 0x400 +
        (0xDC00 + (c.toNat - 0x10000) % 0x400 - 0xDC00) = c.toNat := by omega
    rw [pair, hu, hv, hsum]
    exact Char.ofNat_toNat c

theorem units_single (h : ¬ (IsHigh u ∨ IsLow u)) : units (single r u) = [u] := by
  have hu := u.toNat_lt
  have hval : (Char.ofNat u.toNat).toNat = u.toNat := by
    refine toNat_ofNat ?_
    rw [IsHigh, IsLow] at h
    omega
  rw [single, if_neg h, units, hval, if_pos hu]
  exact congrArg (fun u ↦ [u]) UInt16.ofNat_toNat

theorem units_pair (hu : IsHigh u) (hv : IsLow v) : units (pair u v) = [u, v] := by
  have hval : (pair u v).toNat = 0x10000 + (u.toNat - 0xD800) * 0x400 + (v.toNat - 0xDC00) := by
    refine toNat_ofNat ?_
    rw [IsHigh] at hu
    rw [IsLow] at hv
    omega
  rw [IsHigh] at hu
  rw [IsLow] at hv
  have hhigh : 0xD800 + (0x10000 + (u.toNat - 0xD800) * 0x400 + (v.toNat - 0xDC00) - 0x10000) /
    0x400 = u.toNat := by
    omega
  have hlow : 0xDC00 + (0x10000 + (u.toNat - 0xD800) * 0x400 + (v.toNat - 0xDC00) - 0x10000) %
    0x400 = v.toNat := by
    omega
  rw [units, hval, if_neg (by omega), hhigh, hlow, UInt16.ofNat_toNat, UInt16.ofNat_toNat]

/-! ## Strings -/

theorem wellFormed_single (h : ¬ (IsHigh u ∨ IsLow u)) (s : List UInt16) :
    WellFormed (u :: s) ↔ WellFormed s := by
  cases s with
  | nil => exact iff_of_true h trivial
  | cons v s =>
    rw [WellFormed, if_neg fun hpair ↦ h (.inl hpair.1)]
    exact and_iff_right h

theorem wellFormed_flatMap_units (l : List Char) : WellFormed (l.flatMap units) := by
  induction l with
  | nil => trivial
  | cons c l ih =>
    rw [List.flatMap_cons]
    rcases Nat.lt_or_ge c.toNat 0x10000 with hlt | hge
    · obtain ⟨hunits, hno⟩ := units_of_lt hlt
      rw [hunits]
      exact (wellFormed_single hno _).mpr ih
    · obtain ⟨u, v, hunits, hu, hv, -⟩ := units_of_ge hge
      rw [hunits, List.cons_append, List.singleton_append, WellFormed, if_pos ⟨hu, hv⟩]
      exact ih

/-- **A string survives if and only if all its surrogates are in pairs.** -/
theorem wellFormed_iff (r : Char) (s : List UInt16) : WellFormed s ↔
    (decode r s).flatMap units = s := by
  constructor
  · induction s using decode.induct with
    | case1 => exact fun _ ↦ rfl
    | case2 u =>
      intro h
      rw [decode, List.flatMap_singleton, units_single h]
    | case3 u v s hpair ih =>
      intro h
      rw [WellFormed, if_pos hpair] at h
      rw [decode, if_pos hpair, List.flatMap_cons, units_pair hpair.1 hpair.2, ih h]
      rfl
    | case4 u v s hno ih =>
      intro h
      rw [WellFormed, if_neg hno] at h
      rw [decode, if_neg hno, List.flatMap_cons, units_single h.1, ih h.2]
      rfl
  · intro h
    rw [← h]
    exact wellFormed_flatMap_units _

/-- The characters that UTF-8 writes. -/
def encoded (s : List UInt16) : String := String.ofList (decode '?' s)

/-- The string that is read. -/
def decoded (s : String) : List UInt16 := s.toList.flatMap units

theorem decoded_encoded_eq_iff (s : List UInt16) : decoded (encoded s) = s ↔ WellFormed s := by
  rw [wellFormed_iff '?' s, decoded, encoded, String.toList_ofList]

end Utf16
