import Mathlib

/-!
# The string functions of LFTAs and HFTAs

`rts_string.c` has the functions on strings that can be called in an LFTA, `hfta_runtime_library.cc`
those that can be called in an HFTA.  The two are to be the same, so that a predicate may be
evaluated in either.

A string is a length and a pointer.  What lies behind its end is not the same in an LFTA and in an
HFTA, and some of the functions read it.  So they agree where they do whatever lies there.

* `existsSubstr_iff` — `str_exists_substr` does not look at the last position, and in an HFTA has
  lengths of eight bits.
* `strMatchOffset_iff` — `str_match_offset` reads behind the string for offsets that are far behind
  its end.
* `strCompare_iff` — `str_compare` compares characters with a sign in an LFTA, and without one in an
  HFTA.
* `strPartialRegexMatch_iff` — `str_partial_regex_match` puts the final zero in another place.
* `agree_iff` — **when the functions agree.**
-/

set_option autoImplicit false

namespace Tigon.Ftaaux

open List

/-! ## Strings -/

/-- A string with its final zero has a length that fits a `gs_int32_t`. -/
structure Text where
  chars : List UInt8
  fits : chars.length + 1 < 2 ^ 31

/-- `struct string`, or `struct vstring`: the length, and the memory from the pointer on. -/
structure Str where
  length : Nat
  data : Nat → UInt8

/-- The string is `s`, whatever lies behind it. -/
structure Str.Is (a : Str) (s : Text) : Prop where
  length_eq : a.length = s.chars.length
  data_eq : ∀ i (h : i < s.chars.length), a.data i = s.chars[i]

/-! ## Functions -/

/-- The loops of `str_exists_substr`, with the bounds as they are computed. -/
def searchLoop (st1 st2 : Nat → UInt8) (len1 len2 : Nat) : Bool :=
  (range len1).any fun x ↦ st1 x = st2 0 && (range len2).all fun y ↦ st1 (x + y) = st2 y

/-- `str_match_offset` -/
def matchOffset (offset : BitVec 32) (s1 s2 : Str) : Nat :=
  let len2 : Int := (BitVec.ofNat 32 s2.length - offset).toInt
  let len1 : Int := s1.length
  if len2 < len1 then 0
  else if (range s1.length).all fun x ↦ s1.data x = s2.data (offset.toNat + x) then 1 else 0

/-- `byte_match_offset` -/
def byteMatch (offset val : BitVec 32) (s2 : Str) : Nat :=
  if BitVec.ofNat 32 s2.length ≤ offset then 0
  else if s2.data offset.toNat = UInt8.ofNat val.toNat then 1 else 0

/-- A `char` as a number. -/
def signed (c : UInt8) : Int := if c < 128 then c.toNat else c.toNat - 256

/-- Characters are compared as the numbers that `value` says. -/
def compareAt (value : UInt8 → Int) (c d : UInt8) : Option Int :=
  if value d < value c then some 1 else if value c < value d then some (-1) else none

/-- The loop over the characters, up to the first that differ. -/
def compareLoop (value : UInt8 → Int) (str1 str2 : Str) (len : Nat) : Option Int :=
  (range len).findSome? fun x ↦ compareAt value (str1.data x) (str2.data x)

/-- The loop of `nextint`, with the number of characters left. -/
def nextintLoop (s : Nat → UInt8) : Nat → Nat → Bool → BitVec 32 → Bool × Nat × BitVec 32
  | 0, offset, v, res => (v, offset, res)
  | n + 1, offset, v, res =>
    if 48 ≤ s offset ∧ s offset ≤ 57 then
      nextintLoop s n (offset + 1) true (res * 10 + BitVec.ofNat 32 ((s offset).toNat - 48))
    else if v then (true, offset, res)
    else nextintLoop s n (offset + 1) false res

/-- `nextint`: whether there is a number, where it ends, and the number. -/
def nextint (str : Str) (offset : Nat) : Bool × Nat × BitVec 32 :=
  nextintLoop str.data (str.length - offset) offset false 0

/-- `register_handle_for_strtoi_c_slot_0`, and `strtoi_c` of the handle. -/
def strtoiC (istr : Str) : BitVec 32 :=
  let (v, _, r) := nextint istr 0
  if v then r else 0

/-- `register_handle_for_strtoip_c_slot_0`, and `strtoip_c` of the handle. -/
def strtoipC (istr : Str) : BitVec 32 :=
  let (v1, offset, ip1) := nextint istr 0
  if !v1 then 0
  else
    let (v2, offset, ip2) := nextint istr offset
    if !v2 then 0
    else
      let (v3, offset, ip3) := nextint istr offset
      if !v3 then 0
      else
        let (v4, _, ip4) := nextint istr offset
        if !v4 then 0 else ip1 <<< 24 ||| ip2 <<< 16 ||| ip3 <<< 8 ||| ip4

/-- The static variables of `str_partial_regex_match`. -/
structure Buffer where
  d : Nat → UInt8
  dlen : Nat

/-- The buffer is replaced by a new one where it is too small. -/
def Buffer.grow (fresh : Nat → UInt8) (buffer : Buffer) (length : Nat) : Buffer :=
  if buffer.dlen ≤ length + 1 then ⟨fresh, length + 1⟩ else buffer

/-- The string in the buffer, up to the first zero. -/
def Buffer.cstring (buffer : Buffer) : List UInt8 :=
  ((range buffer.dlen).map buffer.d).takeWhile (· ≠ 0)

/-- How many characters are copied to the buffer. -/
def stop (length : Nat) (maxlen : BitVec 32) : Nat :=
  if length < maxlen.toNat then length else maxlen.toNat

/-- `str_partial_regex_match`, with the place of the final zero.  The pattern stands for what it
matches. -/
def partialRegexMatch (zero : Nat → Nat → Nat) (fresh : Nat → UInt8) (buffer : Buffer)
    (pattern : List UInt8 → Bool) (str : Str) (maxlen : BitVec 32) : Nat × Buffer :=
  let buffer := buffer.grow fresh str.length
  if str.length = 0 then (0, buffer)
  else
    let copied : Nat → UInt8 := fun i ↦ if i < stop str.length maxlen then str.data i
      else buffer.d i
    let buffer : Buffer := { buffer with
      d := Function.update copied (zero str.length (stop str.length maxlen)) 0 }
    (if pattern buffer.cstring then 1 else 0, buffer)

namespace Lfta

/-- `str_exists_substr`.  The lengths are `gs_int32_t`. -/
def strExistsSubstr (s1 s2 : Str) : Nat :=
  if searchLoop s1.data s2.data ((s1.length : Int) - s2.length).toNat s2.length then 1 else 0

def strMatchOffset : BitVec 32 → Str → Str → Nat := matchOffset

def byteMatchOffset : BitVec 32 → BitVec 32 → Str → Nat := byteMatch

/-- `str_compare`.  A `gs_sp_t` points to characters with a sign. -/
def strCompare (str1 str2 : Str) : Int :=
  let len := if str2.length < str1.length then str2.length else str1.length
  match compareLoop signed str1 str2 len with
  | some r => r
  | none => if str2.length < str1.length then 1 else if str1.length < str2.length then -1 else 0

def strtoi : Str → BitVec 32 := strtoiC

def strtoip : Str → BitVec 32 := strtoipC

/-- `str_partial_regex_match`: `d[str->length]=0` -/
def strPartialRegexMatch : (Nat → UInt8) → Buffer → (List UInt8 → Bool) → Str → BitVec 32 →
    Nat × Buffer :=
  partialRegexMatch fun length _ ↦ length

end Lfta

namespace Hfta

/-- `str_exists_substr`.  The lengths are `gs_uint8_t`. -/
def strExistsSubstr (s1 s2 : Str) : Nat :=
  if searchLoop s1.data s2.data (((s1.length : Int) - s2.length) % 256).toNat (s2.length % 256)
    then 1 else 0

def strMatchOffset : BitVec 32 → Str → Str → Nat := matchOffset

def byteMatchOffset : BitVec 32 → BitVec 32 → Str → Nat := byteMatch

/-- `memcmp`, of which only the sign is specified. -/
def memcmp (s1 s2 : Str) (minlen : Nat) : Int :=
  (compareLoop (fun c ↦ c.toNat) s1 s2 minlen).getD 0

/-- `str_compare`, which is `hfta_vstr_compare`. -/
def strCompare (s1 s2 : Str) : Int :=
  let minlen := if s1.length < s2.length then s1.length else s2.length
  let cmpRet := memcmp s1 s2 minlen
  if cmpRet ≠ 0 then cmpRet else (BitVec.ofNat 32 s1.length - BitVec.ofNat 32 s2.length).toInt

def strtoi : Str → BitVec 32 := strtoiC

def strtoip : Str → BitVec 32 := strtoipC

/-- `str_partial_regex_match`: `d[end]=0` -/
def strPartialRegexMatch : (Nat → UInt8) → Buffer → (List UInt8 → Bool) → Str → BitVec 32 →
    Nat × Buffer :=
  partialRegexMatch fun _ stop ↦ stop

end Hfta

/-! ## What is to hold -/

/-- The same result, whatever lies behind the string in the LFTA and in the HFTA. -/
def Same {α : Type} (s : Text) (f g : Str → α) : Prop := ∀ a b : Str, a.Is s → b.Is s → f a = g b

/-- `str_exists_substr` gives the same result, which says whether the string occurs if it is not
empty. -/
structure ExistsSubstr (s t : Text) : Prop where
  same : ∀ a b a' b' : Str, a.Is s → b.Is t → a'.Is s → b'.Is t →
    Lfta.strExistsSubstr a b = Hfta.strExistsSubstr a' b'
  occurs : t.chars ≠ [] → ∀ a b : Str, a.Is s → b.Is t →
    (Lfta.strExistsSubstr a b = 1 ↔ t.chars <:+: s.chars)

/-- The functions of both libraries give the same results for two strings; of `str_compare` it is
the sign that counts. -/
structure Agree (s t : Text) (offset val maxlen : BitVec 32) (pattern : List UInt8 → Bool) :
    Prop where
  existsSubstr : ExistsSubstr s t
  matchOffset : ∀ a b a' b' : Str, a.Is s → b.Is t → a'.Is s → b'.Is t →
    Lfta.strMatchOffset offset a b = Hfta.strMatchOffset offset a' b'
  byteMatchOffset : Same t (Lfta.byteMatchOffset offset val) (Hfta.byteMatchOffset offset val)
  compare : ∀ a b a' b' : Str, a.Is s → b.Is t → a'.Is s → b'.Is t →
    (Lfta.strCompare a b).sign = (Hfta.strCompare a' b').sign
  strtoi : Same s Lfta.strtoi Hfta.strtoi
  strtoip : Same s Lfta.strtoip Hfta.strtoip
  partialRegexMatch : ∀ fresh fresh' buffer buffer', Same s
    (fun a ↦ (Lfta.strPartialRegexMatch fresh buffer pattern a maxlen).1)
    (fun b ↦ (Hfta.strPartialRegexMatch fresh' buffer' pattern b maxlen).1)

/-! ## When it does -/

/-- What the HFTA looks for: the length of eight bits, and at least the first character. -/
def needle (t : List UInt8) : List UInt8 := t.take (max 1 (t.length % 256))

/-- The number of positions where the HFTA looks. -/
def positions (s t : List UInt8) : Nat := (((s.length : Int) - t.length) % 256).toNat

/-- What is looked for is at the position, or would be there with what lies behind the end. -/
def MayOccur (s n : List UInt8) (x : Nat) : Prop := n <+: s.drop x ∨ s.drop x <+: n

/-- The condition for `str_exists_substr`: an empty string is looked for in an empty one only. -/
structure SearchOk (s t : List UInt8) : Prop where
  empty : t = [] → s = []
  /-- What occurs does so before the very end, where one library does not look; and what the other
  one looks for occurs at one of the positions that it tries. -/
  found : t ≠ [] → t <:+: s →
    (∃ x, x + t.length < s.length ∧ t <+: s.drop x) ∧ ∃ x, x < positions s t ∧ needle t <+: s.drop x
  /-- What does not occur is not found cut short either, nor by bytes that lie behind the end. -/
  notFound : t ≠ [] → ¬ t <:+: s → ∀ x, x < positions s t → ¬ MayOccur s (needle t) x

/-- The offset is not that far behind the end that the rest has a length again. -/
def OffsetOk (offset : BitVec 32) (s t : List UInt8) : Prop :=
  s = [] ∨ offset.toNat ≤ t.length ∨ (BitVec.ofNat 32 t.length - offset).toInt < s.length

/-- Where they differ first, the characters have the same sign. -/
def CompareOk (s t : List UInt8) : Prop :=
  ∀ x (hs : x < s.length) (ht : x < t.length), (∀ y < x, s[y]? = t[y]?) → (s[x] < 128 ↔ t[x] < 128)

/-- The part has a final zero of its own, or what the buffer may have behind it does not matter. -/
def RegexOk (pattern : List UInt8 → Bool) (maxlen : BitVec 32) (s : List UInt8) : Prop :=
  0 ∈ s.take maxlen.toNat ∨ ∀ z : List UInt8, 0 ∉ z → z.length ≤ s.length - maxlen.toNat →
    pattern (s.take maxlen.toNat ++ z) = pattern (s.take maxlen.toNat)

/-- The condition on the strings and the other arguments, function by function. -/
structure AgreeOk (s t : Text) (offset maxlen : BitVec 32) (pattern : List UInt8 → Bool) :
    Prop where
  search : SearchOk s.chars t.chars
  offset : OffsetOk offset s.chars t.chars
  compare : CompareOk s.chars t.chars
  regex : RegexOk pattern maxlen s.chars

/-! ## Memory -/

section

variable {s t : Text} {a b : Str} {n : List UInt8} {x len1 len2 : Nat}

/-- The string with something behind it. -/
def withRest (s : Text) (rest : Nat → UInt8) : Str :=
  ⟨s.chars.length, fun i ↦ if h : i < s.chars.length then s.chars[i] else rest (i - s.chars.length)⟩

theorem is_withRest (s : Text) (rest : Nat → UInt8) : (withRest s rest).Is s :=
  ⟨rfl, fun _ h ↦ dif_pos h⟩

theorem withRest_data (rest : Nat → UInt8) (h : s.chars.length ≤ x) :
    (withRest s rest).data x = rest (x - s.chars.length) :=
  dif_neg (Nat.not_lt.mpr h)

/-- There is a character that does not occur. -/
theorem exists_notMem {l : List UInt8} (h : l.length < 256) : ∃ c : UInt8, c ∉ l := by
  by_contra hall
  push Not at hall
  have hcard : Fintype.card UInt8 ≤ l.toFinset.card := by
    rw [← Finset.card_univ]
    exact Finset.card_le_card fun c _ ↦ mem_toFinset.mpr (hall c)
  have huint8 : Fintype.card UInt8 = 256 := by rw [← FinEnum.card_eq_fintypeCard]; rfl
  have := l.toFinset_card_le
  omega

/-! ## Searching -/

/-- The characters are in memory from the position on. -/
def MatchAt (a : Str) (n : List UInt8) (x : Nat) : Prop :=
  ∀ y (h : y < n.length), a.data (x + y) = n[y]

theorem prefix_drop_iff {l : List UInt8} : n <+: l.drop x ↔ ∀ y (h : y < n.length),
    l[x + y]? = some n[y] := by
  simp only [prefix_iff_getElem?, getElem?_drop]

/-- What is in the string is in memory. -/
theorem matchAt_of_prefix (ha : a.Is s) (h : n <+: s.chars.drop x) : MatchAt a n x := by
  intro y hy
  obtain ⟨hlt, heq⟩ := List.getElem?_eq_some_iff.mp (prefix_drop_iff.mp h y hy)
  rw [ha.data_eq _ hlt, heq]

theorem prefix_of_matchAt (ha : a.Is s) (h : MatchAt a n x) (hle : x + n.length ≤ s.chars.length) :
    n <+: s.chars.drop x := by
  refine prefix_drop_iff.mpr fun y hy ↦ ?_
  have hlt : x + y < s.chars.length := by omega
  rw [getElem?_eq_getElem hlt, ← ha.data_eq _ hlt, h y hy]

theorem mayOccur_of_matchAt (ha : a.Is s) (h : MatchAt a n x) : MayOccur s.chars n x := by
  by_cases hle : x + n.length ≤ s.chars.length
  · exact .inl (prefix_of_matchAt ha h hle)
  · refine .inr (prefix_iff_getElem?.mpr fun y hy ↦ ?_)
    rw [length_drop] at hy
    have hn : y < n.length := by omega
    rw [getElem_drop, getElem?_eq_getElem hn, ← h y hn, ha.data_eq _ (by omega)]

/-- What may occur does so for some rest. -/
theorem exists_matchAt (h : MayOccur s.chars n x) : ∃ a : Str, a.Is s ∧ MatchAt a n x := by
  refine ⟨withRest s fun i ↦ n.getD (i + s.chars.length - x) 0, is_withRest s _, ?_⟩
  rcases h with h | h
  · exact matchAt_of_prefix (is_withRest s _) h
  · intro y hy
    by_cases hlt : x + y < s.chars.length
    · have hy' : y < (s.chars.drop x).length := by
        rw [length_drop]
        omega
      have hget := prefix_iff_getElem?.mp h y hy'
      rw [getElem?_eq_getElem hy, getElem_drop] at hget
      rw [(is_withRest s _).data_eq _ hlt, Option.some.inj hget]
    · rw [withRest_data _ (Nat.not_lt.mp hlt)]
      have hsub : x + y - s.chars.length + s.chars.length - x = y := by omega
      rw [hsub, getD_eq_getElem _ _ hy]

/-- With some rest, nothing is found but what is in the string. -/
theorem exists_rest (s : Text) (hn : n ≠ []) {m : Nat} (hm : m < 256) :
    ∃ a : Str, a.Is s ∧ ∀ x < m, MatchAt a n x → n <+: s.chars.drop x := by
  obtain ⟨c, hc⟩ := exists_notMem (l := (range m).map fun x ↦ n.getD (s.chars.length - x) 0)
    (by simpa using hm)
  refine ⟨withRest s fun _ ↦ c, is_withRest s _, fun x hx hmatch ↦ ?_⟩
  by_cases hle : x + n.length ≤ s.chars.length
  · exact prefix_of_matchAt (is_withRest s _) hmatch hle
  · -- The first character behind the end would have to be `c`.
    refine absurd (mem_map.mpr ⟨x, mem_range.mpr hx, ?_⟩) hc
    have hpos := length_pos_of_ne_nil hn
    have hlt : s.chars.length - x < n.length := by omega
    rw [getD_eq_getElem _ _ hlt, ← hmatch _ hlt, withRest_data _ (by omega)]

theorem searchLoop_iff (st1 st2 : Nat → UInt8) : searchLoop st1 st2 len1 len2 = true ↔
    ∃ x < len1, ∀ y < max 1 len2, st1 (x + y) = st2 y := by
  simp only [searchLoop, any_eq_true, mem_range, Bool.and_eq_true, decide_eq_true_eq,
    all_eq_true]
  refine exists_congr fun x ↦ and_congr_right fun _ ↦ ⟨fun ⟨h0, h⟩ y hy ↦ ?_, fun h ↦ ?_⟩
  · rcases Nat.eq_zero_or_pos y with rfl | hpos
    · exact h0
    · exact h y (by omega)
  · exact ⟨h 0 (by omega), fun y hy ↦ h y (by omega)⟩

/-- The search is for the first characters of `t`. -/
theorem searchLoop_iff_matchAt (hb : b.Is t) (hlen : max 1 len2 ≤ t.chars.length) :
    searchLoop a.data b.data len1 len2 = true ↔ ∃ x < len1,
      MatchAt a (t.chars.take (max 1 len2)) x := by
  rw [searchLoop_iff]
  refine exists_congr fun x ↦ and_congr_right fun _ ↦ ⟨fun h y hy ↦ ?_, fun h y hy ↦ ?_⟩
  · rw [length_take] at hy
    rw [h y (by omega), hb.data_eq y (by omega), getElem_take]
  · have := h y (by rw [length_take]; omega)
    rw [this, hb.data_eq y (by omega), getElem_take]

theorem infix_iff {l : List UInt8} : n <:+: l ↔ ∃ x, n <+: l.drop x := by
  constructor
  · rintro ⟨p, q, rfl⟩
    refine ⟨p.length, q, ?_⟩
    rw [append_assoc, drop_left]
  · rintro ⟨x, h⟩
    exact h.isInfix.trans (drop_suffix x l).isInfix

theorem lfta_strExistsSubstr_iff (ha : a.Is s) (hb : b.Is t) (ht : t.chars ≠ []) :
    Lfta.strExistsSubstr a b = 1 ↔ ∃ x, x + t.chars.length < s.chars.length ∧
      t.chars <+: s.chars.drop x := by
  have hpos := length_pos_of_ne_nil ht
  have hmax : max 1 t.chars.length = t.chars.length := by omega
  have hone : Lfta.strExistsSubstr a b = 1 ↔
      searchLoop a.data b.data ((s.chars.length : Int) - t.chars.length).toNat
        t.chars.length = true := by
    simp [Lfta.strExistsSubstr, ha.length_eq, hb.length_eq]
  rw [hone, searchLoop_iff_matchAt hb hmax.le, hmax, take_length]
  refine exists_congr fun x ↦ ⟨fun ⟨hx, h⟩ ↦ ?_, fun ⟨hx, h⟩ ↦ ⟨by omega, matchAt_of_prefix ha h⟩⟩
  have hlt : x + t.chars.length < s.chars.length := by omega
  exact ⟨hlt, prefix_of_matchAt ha h hlt.le⟩

theorem hfta_strExistsSubstr_iff (ha : a.Is s) (hb : b.Is t) (ht : t.chars ≠ []) :
    Hfta.strExistsSubstr a b = 1 ↔ ∃ x < positions s.chars t.chars,
      MatchAt a (needle t.chars) x := by
  have hpos := length_pos_of_ne_nil ht
  have hone : Hfta.strExistsSubstr a b = 1 ↔
      searchLoop a.data b.data (positions s.chars t.chars) (t.chars.length % 256) = true := by
    simp [Hfta.strExistsSubstr, positions, ha.length_eq, hb.length_eq]
  rw [hone, searchLoop_iff_matchAt hb (by omega), needle]

theorem needle_ne_nil {l : List UInt8} (h : l ≠ []) : needle l ≠ [] := by
  rw [needle, Ne, take_eq_nil_iff, not_or]
  exact ⟨by omega, h⟩

theorem positions_lt (l m : List UInt8) : positions l m < 256 := by
  rw [positions]
  omega

/-- The results are truth values. -/
theorem strExistsSubstr_eq_iff {a' b' : Str} : Lfta.strExistsSubstr a b =
    Hfta.strExistsSubstr a' b' ↔ (Lfta.strExistsSubstr a b = 1 ↔
      Hfta.strExistsSubstr a' b' = 1) := by
  rw [Lfta.strExistsSubstr, Hfta.strExistsSubstr]
  split <;> split <;> simp

/-- For the empty string, whether something is found says what lies behind it. -/
theorem eq_nil_of_same (h : ExistsSubstr s t) (ht : t.chars = []) : s.chars = [] := by
  by_contra hs
  have hpos := length_pos_of_ne_nil hs
  have hlen : t.chars.length = 0 := by rw [ht]; rfl
  obtain ⟨c, hc⟩ := exists_notMem (l := s.chars.take (positions s.chars t.chars)) (by
    have := positions_lt s.chars t.chars
    rw [length_take]
    omega)
  have hsame := h.same (withRest s fun _ ↦ 0) (withRest t fun _ ↦ s.chars[0]) (withRest s fun _ ↦ 0)
    (withRest t fun _ ↦ c) (is_withRest s _) (is_withRest t _) (is_withRest s _) (is_withRest t _)
  have hlfta : searchLoop (withRest s fun _ ↦ 0).data (withRest t fun _ ↦ s.chars[0]).data
      ((s.chars.length : Int) - t.chars.length).toNat t.chars.length = true := by
    refine (searchLoop_iff _ _).mpr ⟨0, by omega, fun y hy ↦ ?_⟩
    obtain rfl : y = 0 := by omega
    rw [(is_withRest s _).data_eq 0 hpos, withRest_data _ (by omega)]
  have hhfta : searchLoop (withRest s fun _ ↦ 0).data (withRest t fun _ ↦ c).data
      (positions s.chars t.chars) (t.chars.length % 256) = false := by
    refine Bool.eq_false_iff.mpr fun htrue ↦ ?_
    obtain ⟨x, hx, hmatch⟩ := (searchLoop_iff _ _).mp htrue
    have hle : positions s.chars t.chars ≤ s.chars.length := by
      rw [positions]
      omega
    have hdata := hmatch 0 (by omega)
    rw [Nat.add_zero, (is_withRest s _).data_eq x (by omega), withRest_data _ (by omega)] at hdata
    refine hc (hdata ▸ ?_)
    exact mem_take_iff_getElem.mpr ⟨x, by omega, rfl⟩
  rw [Lfta.strExistsSubstr, Hfta.strExistsSubstr] at hsame
  simp only [withRest, positions] at hsame hlfta hhfta
  rw [if_pos hlfta, if_neg (by rw [hhfta]; decide)] at hsame
  exact absurd hsame (by decide)

/-- **When the searches agree**, and find what occurs. -/
theorem existsSubstr_iff : ExistsSubstr s t ↔ SearchOk s.chars t.chars := by
  constructor
  · intro h
    have hrest (s : Text) := is_withRest s fun _ ↦ 0
    -- The LFTA finds what occurs, so the HFTA does, whatever lies behind the end.
    have hhfta (ht : t.chars ≠ []) (a : Str) (ha : a.Is s) :
        t.chars <:+: s.chars ↔ ∃ x < positions s.chars t.chars, MatchAt a (needle t.chars) x := by
      rw [← hfta_strExistsSubstr_iff ha (hrest t) ht, ← h.occurs ht _ _ (hrest s) (hrest t)]
      exact strExistsSubstr_eq_iff.mp (h.same _ _ _ _ (hrest s) (hrest t) ha (hrest t))
    refine ⟨eq_nil_of_same h, fun ht hoccurs ↦ ⟨?_, ?_⟩, fun ht hno x hx hmay ↦ ?_⟩
    · exact (lfta_strExistsSubstr_iff (hrest s) (hrest t) ht).mp
        ((h.occurs ht _ _ (hrest s) (hrest t)).mpr hoccurs)
    · obtain ⟨a, ha, honly⟩ := exists_rest s (needle_ne_nil ht) (positions_lt s.chars t.chars)
      obtain ⟨x, hx, hmatch⟩ := (hhfta ht a ha).mp hoccurs
      exact ⟨x, hx, honly x hx hmatch⟩
    · obtain ⟨a, ha, hmatch⟩ := exists_matchAt hmay
      exact hno ((hhfta ht a ha).mpr ⟨x, hx, hmatch⟩)
  · intro h
    have hoccurs (ht : t.chars ≠ []) (a b : Str) (ha : a.Is s) (hb : b.Is t) :
        Lfta.strExistsSubstr a b = 1 ↔ t.chars <:+: s.chars := by
      rw [lfta_strExistsSubstr_iff ha hb ht]
      exact ⟨fun ⟨x, _, hx⟩ ↦ infix_iff.mpr ⟨x, hx⟩, fun hi ↦ (h.found ht hi).1⟩
    refine ⟨fun a b a' b' ha hb ha' hb' ↦ strExistsSubstr_eq_iff.mpr ?_, hoccurs⟩
    by_cases ht : t.chars = []
    · have hs := h.empty ht
      simp [Lfta.strExistsSubstr, Hfta.strExistsSubstr, ha.length_eq, hb.length_eq, ha'.length_eq,
        hb'.length_eq, hs, ht, searchLoop]
    · rw [hoccurs ht a b ha hb, hfta_strExistsSubstr_iff ha' hb' ht]
      constructor
      · intro hi
        obtain ⟨x, hx, hprefix⟩ := (h.found ht hi).2
        exact ⟨x, hx, matchAt_of_prefix ha' hprefix⟩
      · rintro ⟨x, hx, hmatch⟩
        by_contra hno
        exact h.notFound ht hno x hx (mayOccur_of_matchAt ha' hmatch)

end

/-! ## Offsets -/

section

variable {s t : Text} {a b a' b' : Str} {offset val : BitVec 32}

theorem toInt_ofNat_sub {n : Nat} {m : BitVec 32} (hn : n < 2 ^ 31) (hm : m.toNat < 2 ^ 31) :
    (BitVec.ofNat 32 n - m).toInt = (n : Int) - m.toNat := by
  rw [BitVec.toInt_eq_toNat_cond, BitVec.toNat_sub, BitVec.toNat_ofNat]
  split <;> omega

theorem matchOffset_congr (ha : a.Is s) (hb : b.Is t) (ha' : a'.Is s) (hb' : b'.Is t)
    (h : OffsetOk offset s.chars t.chars) :
    matchOffset offset a b = matchOffset offset a' b' := by
  have ht := t.fits
  rw [matchOffset, matchOffset, ha.length_eq, hb.length_eq, ha'.length_eq, hb'.length_eq]
  split
  · rfl
  · rename_i hlen
    have hall : ∀ x ∈ range s.chars.length, decide (a.data x = b.data (offset.toNat + x)) =
        decide (a'.data x = b'.data (offset.toNat + x)) := by
      intro x hx
      rw [mem_range] at hx
      rcases h with hs | hle | hlt
      · rw [hs] at hx
        exact absurd hx (Nat.not_lt_zero x)
      · -- The offset is in the string, and so are the characters from there on.
        rw [toInt_ofNat_sub (by omega) (by omega)] at hlen
        have hbound : offset.toNat + x < t.chars.length := by omega
        rw [ha.data_eq x hx, ha'.data_eq x hx, hb.data_eq _ hbound, hb'.data_eq _ hbound]
      · exact absurd hlt hlen
    have heq : (range s.chars.length).all
        (fun x ↦ decide (a.data x = b.data (offset.toNat + x))) =
        (range s.chars.length).all
        (fun x ↦ decide (a'.data x = b'.data (offset.toNat + x))) := by
      rw [Bool.eq_iff_iff, all_eq_true, all_eq_true]
      exact forall₂_congr fun x hx ↦ by rw [hall x hx]
    rw [heq]

/-- **When `str_match_offset` does not read behind the string.** -/
theorem strMatchOffset_iff : (∀ a b a' b' : Str, a.Is s → b.Is t → a'.Is s → b'.Is t →
    Lfta.strMatchOffset offset a b = Hfta.strMatchOffset offset a' b') ↔
      OffsetOk offset s.chars t.chars := by
  constructor
  · intro h
    by_contra hno
    rw [OffsetOk, not_or, not_or] at hno
    obtain ⟨hs, hlt, hlen⟩ := hno
    have hpos := length_pos_of_ne_nil hs
    -- The rest behind the second string is the first, or something else.
    have hdata (f : Nat → UInt8) (x : Nat) :
        (withRest t f).data (offset.toNat + x) = f (offset.toNat - t.chars.length + x) := by
      rw [withRest_data _ (by omega)]
      congr 1
      omega
    have hsame := h (withRest s fun _ ↦ 0)
      (withRest t fun i ↦ s.chars.getD (i - (offset.toNat - t.chars.length)) 0)
      (withRest s fun _ ↦ 0) (withRest t fun _ ↦ s.chars[0] + 1) (is_withRest s _) (is_withRest t _)
      (is_withRest s _)
      (is_withRest t _)
    simp only [Lfta.strMatchOffset, Hfta.strMatchOffset, matchOffset, hdata] at hsame
    have hyes : (range s.chars.length).all (fun x ↦ decide ((withRest s fun _ ↦ 0).data x =
        s.chars.getD (offset.toNat - t.chars.length + x - (offset.toNat - t.chars.length)) 0)) =
          true := by
      refine all_eq_true.mpr fun x hx ↦ decide_eq_true ?_
      rw [mem_range] at hx
      rw [(is_withRest s _).data_eq x hx, Nat.add_sub_cancel_left, getD_eq_getElem _ _ hx]
    have hno : (range s.chars.length).all
        (fun x ↦ decide ((withRest s fun _ ↦ 0).data x = s.chars[0] + 1)) = false := by
      refine all_eq_false.mpr ⟨0, mem_range.mpr hpos, ?_⟩
      rw [(is_withRest s _).data_eq 0 hpos, decide_eq_true_eq]
      exact fun heq ↦ absurd (left_eq_add.mp heq) (by decide)
    have hleft : (withRest s fun _ ↦ 0).length = s.chars.length := rfl
    have hright (f : Nat → UInt8) : (withRest t f).length = t.chars.length := rfl
    rw [hright, hright, hleft, hyes, hno, if_neg hlen, if_neg hlen] at hsame
    exact absurd hsame (by decide)
  · exact fun h a b a' b' ha hb ha' hb' ↦ matchOffset_congr ha hb ha' hb' h

theorem byteMatchOffset_same (t : Text) (offset val : BitVec 32) :
    Same t (Lfta.byteMatchOffset offset val) (Hfta.byteMatchOffset offset val) := by
  intro a b ha hb
  have ht := t.fits
  show byteMatch offset val a = byteMatch offset val b
  rw [byteMatch, byteMatch, ha.length_eq, hb.length_eq]
  split
  · rfl
  · rename_i hlt
    have hbound : offset.toNat < t.chars.length := by
      rw [BitVec.le_def, BitVec.toNat_ofNat] at hlt
      omega
    rw [ha.data_eq _ hbound, hb.data_eq _ hbound]

end

/-! ## Comparing -/

section

variable {s t : Text} {a b a' b' : Str} {value : UInt8 → Int} {c d : UInt8} {x : Nat}

theorem signed_injective : Function.Injective signed := by
  intro c d h
  have hc := c.toNat_lt
  have hd := d.toNat_lt
  simp only [signed, UInt8.lt_iff_toNat_lt] at h
  refine UInt8.toNat.inj ?_
  split at h <;> split at h <;> simp_all <;> omega

theorem toNat_injective : Function.Injective fun c : UInt8 ↦ (c.toNat : Int) :=
  fun _ _ h ↦ UInt8.toNat.inj (Int.ofNat.inj h)

theorem compareAt_self (value : UInt8 → Int) (c : UInt8) : compareAt value c c = none := by
  simp [compareAt]

theorem compareAt_eq (hvalue : Function.Injective value) (h : c ≠ d) :
    compareAt value c d = some 1 ∧ value d < value c ∨ compareAt value c d = some (-1) ∧
      value c < value d := by
  rcases lt_trichotomy (value d) (value c) with hlt | heq | hgt
  · exact .inl ⟨if_pos hlt, hlt⟩
  · exact absurd (hvalue heq).symm h
  · exact .inr ⟨(if_neg hgt.le.not_gt).trans (if_pos hgt), hgt⟩

/-- With and without a sign, characters compare alike if they have the same sign. -/
theorem compareAt_signed_eq_iff (h : c ≠ d) :
    compareAt signed c d = compareAt (fun c ↦ c.toNat) c d ↔ (c < 128 ↔ d < 128) := by
  have hc := c.toNat_lt
  have hd := d.toNat_lt
  have hne : c.toNat ≠ d.toNat := fun heq ↦ h (UInt8.toNat.inj heq)
  rw [UInt8.lt_iff_toNat_lt, UInt8.lt_iff_toNat_lt]
  rcases compareAt_eq signed_injective h with ⟨hs, hslt⟩ | ⟨hs, hslt⟩ <;>
    rcases compareAt_eq toNat_injective h with ⟨hu, hult⟩ | ⟨hu, hult⟩ <;> rw [hs, hu] <;>
    simp only [signed, UInt8.lt_iff_toNat_lt] at hslt hult <;>
    split at hslt <;> split at hslt <;> simp_all <;> omega

/-- The strings differ at the position, and nowhere before. -/
structure DifferAt (s t : List UInt8) (x : Nat) : Prop where
  before : ∀ y < x, s[y]? = t[y]?
  left : x < s.length
  right : x < t.length
  ne : s[x] ≠ t[x]

theorem compareLoop_of_eq (ha : a.Is s) (hb : b.Is t) {n : Nat} (hs : n ≤ s.chars.length)
    (ht : n ≤ t.chars.length) (h : ∀ y < n, s.chars[y]? = t.chars[y]?) :
      compareLoop value a b n = none := by
  refine findSome?_eq_none_iff.mpr fun y hy ↦ ?_
  rw [mem_range] at hy
  have heq := h y hy
  rw [getElem?_eq_getElem (by omega), getElem?_eq_getElem (by omega)] at heq
  rw [ha.data_eq y (by omega), hb.data_eq y (by omega), Option.some.inj heq]
  exact compareAt_self value _

theorem compareLoop_of_differAt (ha : a.Is s) (hb : b.Is t) (h : DifferAt s.chars t.chars x)
    (hvalue : Function.Injective value) {n : Nat} (hx : x < n) :
    compareLoop value a b n = compareAt value (s.chars.get ⟨x, h.left⟩)
      (t.chars.get ⟨x, h.right⟩) := by
  rw [get_eq_getElem, get_eq_getElem]
  induction n with
  | zero => exact absurd hx (Nat.not_lt_zero x)
  | succ n ih =>
    rw [compareLoop, range_succ, findSome?_append, ← compareLoop,
      findSome?_singleton]
    rcases Nat.lt_succ_iff_lt_or_eq.mp hx with hlt | rfl
    · rw [ih hlt]
      rcases compareAt_eq hvalue h.ne with ⟨hsome, -⟩ | ⟨hsome, -⟩ <;> rw [hsome] <;> rfl
    · rw [compareLoop_of_eq ha hb h.left.le h.right.le h.before, ha.data_eq x h.left,
        hb.data_eq x h.right]
      rfl

/-- Either the strings are the same as far as both go, or they differ somewhere first. -/
theorem eq_or_differAt (s t : List UInt8) :
    (∀ y < min s.length t.length, s[y]? = t[y]?) ∨ ∃ x, DifferAt s t x := by
  by_cases h : ∃ x, x < min s.length t.length ∧ s[x]? ≠ t[x]?
  · classical
    obtain ⟨hlt, hne⟩ := Nat.find_spec h
    have hs : Nat.find h < s.length := by omega
    have ht : Nat.find h < t.length := by omega
    refine .inr ⟨Nat.find h, fun y hy ↦ ?_, hs, ht, fun heq ↦ hne ?_⟩
    · by_contra hno
      exact Nat.find_min h hy ⟨by omega, hno⟩
    · rw [getElem?_eq_getElem hs, getElem?_eq_getElem ht, heq]
  · push Not at h
    exact .inl h

theorem lfta_strCompare_eq (ha : a.Is s) (hb : b.Is t) : Lfta.strCompare a b =
    (compareLoop signed a b (min s.chars.length t.chars.length)).getD
      (((s.chars.length : Int) - t.chars.length).sign) := by
  have hmin : (if t.chars.length < s.chars.length then t.chars.length else s.chars.length) =
      min s.chars.length t.chars.length := by split <;> omega
  rw [Lfta.strCompare, ha.length_eq, hb.length_eq, hmin]
  cases hloop : compareLoop signed a b (min s.chars.length t.chars.length) with
  | some r => rfl
  | none =>
    simp only [Option.getD_none]
    split
    · exact (Int.sign_eq_one_of_pos (by omega)).symm
    · split
      · exact (Int.sign_eq_neg_one_of_neg (by omega)).symm
      · rw [Int.sign_eq_zero_iff_zero.mpr (by omega)]

theorem hfta_strCompare_eq (ha : a.Is s) (hb : b.Is t) : Hfta.strCompare a b =
    if (compareLoop (fun c ↦ c.toNat) a b (min s.chars.length t.chars.length)).getD 0 ≠ 0 then
      (compareLoop (fun c ↦ c.toNat) a b (min s.chars.length t.chars.length)).getD 0
    else (s.chars.length : Int) - t.chars.length := by
  have hs := s.fits
  have ht := t.fits
  have hmin : (if s.chars.length < t.chars.length then s.chars.length else t.chars.length) =
      min s.chars.length t.chars.length := by split <;> omega
  have hnat : (BitVec.ofNat 32 t.chars.length).toNat = t.chars.length := by
    rw [BitVec.toNat_ofNat]
    omega
  rw [Hfta.strCompare, ha.length_eq, hb.length_eq, hmin, toInt_ofNat_sub (by omega) (by omega),
    hnat, Hfta.memcmp]

/-- Strings that differ compare as the characters do. -/
theorem sign_strCompare_eq_iff (ha : a.Is s) (hb : b.Is t) (ha' : a'.Is s) (hb' : b'.Is t)
    (h : DifferAt s.chars t.chars x) : (Lfta.strCompare a b).sign = (Hfta.strCompare a' b').sign ↔
      (s.chars.get ⟨x, h.left⟩ < 128 ↔ t.chars.get ⟨x, h.right⟩ < 128) := by
  have hx : x < min s.chars.length t.chars.length := lt_min h.left h.right
  rw [lfta_strCompare_eq ha hb, hfta_strCompare_eq ha' hb',
    compareLoop_of_differAt ha hb h signed_injective hx,
      compareLoop_of_differAt ha' hb' h toNat_injective hx, get_eq_getElem,
        get_eq_getElem,
    ← compareAt_signed_eq_iff h.ne]
  rcases compareAt_eq signed_injective h.ne with ⟨hs, -⟩ | ⟨hs, -⟩ <;>
    rcases compareAt_eq toNat_injective h.ne with ⟨hu, -⟩ | ⟨hu, -⟩ <;> rw [hs, hu] <;> simp

/-- **When strings compare alike.** -/
theorem strCompare_iff : (∀ a b a' b' : Str, a.Is s → b.Is t → a'.Is s → b'.Is t →
    (Lfta.strCompare a b).sign = (Hfta.strCompare a' b').sign) ↔ CompareOk s.chars t.chars := by
  constructor
  · intro h x hs ht hbefore
    by_cases hne : s.chars[x] = t.chars[x]
    · rw [hne]
    · have hdiffer : DifferAt s.chars t.chars x := ⟨hbefore, hs, ht, hne⟩
      have hrest (s : Text) := is_withRest s fun _ ↦ 0
      exact (sign_strCompare_eq_iff (hrest s) (hrest t) (hrest s) (hrest t) hdiffer).mp
        (h _ _ _ _ (hrest s) (hrest t) (hrest s) (hrest t))
  · intro h a b a' b' ha hb ha' hb'
    rcases eq_or_differAt s.chars t.chars with heq | ⟨x, hdiffer⟩
    · rw [lfta_strCompare_eq ha hb, hfta_strCompare_eq ha' hb',
        compareLoop_of_eq ha hb (min_le_left _ _) (min_le_right _ _) heq,
        compareLoop_of_eq ha' hb' (min_le_left _ _) (min_le_right _ _) heq]
      exact Int.sign_sign
    · exact (sign_strCompare_eq_iff ha hb ha' hb' hdiffer).mpr
        (h x hdiffer.left hdiffer.right hdiffer.before)

end

/-! ## Numbers -/

section

variable {s : Text} {a b : Str}

/-- Only characters of the string are looked at. -/
theorem nextintLoop_congr (ha : a.Is s) (hb : b.Is s) (n : Nat) :
    ∀ (offset : Nat) (v : Bool) (res : BitVec 32), n ≤ s.chars.length - offset →
      nextintLoop a.data n offset v res = nextintLoop b.data n offset v res := by
  induction n with
  | zero => exact fun _ _ _ _ ↦ rfl
  | succ n ih =>
    intro offset v res hn
    have hdata : a.data offset = b.data offset := by
      rw [ha.data_eq offset (by omega), hb.data_eq offset (by omega)]
    rw [nextintLoop, nextintLoop, hdata, ih _ _ _ (by omega), ih _ _ _ (by omega)]

theorem nextint_same (ha : a.Is s) (hb : b.Is s) (offset : Nat) : nextint a offset =
    nextint b offset := by
  rw [nextint, nextint, ha.length_eq, hb.length_eq]
  exact nextintLoop_congr ha hb _ offset false 0 le_rfl

theorem strtoi_same (s : Text) : Same s Lfta.strtoi Hfta.strtoi := by
  intro a b ha hb
  show strtoiC a = strtoiC b
  rw [strtoiC, strtoiC, nextint_same ha hb]

theorem strtoip_same (s : Text) : Same s Lfta.strtoip Hfta.strtoip := by
  intro a b ha hb
  show strtoipC a = strtoipC b
  simp only [strtoipC, nextint_same ha hb]

/-! ## Regular expressions -/

variable {buffer buffer' : Buffer} {fresh fresh' : Nat → UInt8} {pattern : List UInt8 → Bool}
  {maxlen : BitVec 32}

theorem lt_dlen_grow (fresh : Nat → UInt8) (buffer : Buffer) (length : Nat) :
    length < (buffer.grow fresh length).dlen := by
  unfold Buffer.grow
  split
  · exact Nat.lt_succ_self length
  · omega

/-- The string in a buffer ends at a zero. -/
theorem cstring_eq {d : Nat → UInt8} {n dlen : Nat} (hn : n < dlen) (hzero : d n = 0) :
    Buffer.cstring ⟨d, dlen⟩ = ((range n).map d).takeWhile (· ≠ 0) := by
  have hsplit : range dlen = range n ++ n :: (range' (n + 1) (dlen - n - 1)) := by
    have happend := range'_append_1 (s := 0) (m := n) (n := dlen - n - 1 + 1)
    rw [Nat.zero_add] at happend
    rw [range_eq_range', range_eq_range', ← range'_succ, happend]
    congr 1
    omega
  show ((range dlen).map d).takeWhile (· ≠ 0) = _
  rw [hsplit, map_append, map_cons, hzero, takeWhile_append]
  split
  · rename_i hall
    rw [takeWhile_cons_of_neg (by decide), append_nil]
    have hpre := takeWhile_prefix (l := (range n).map d) fun c ↦ decide (c ≠ 0)
    exact (hpre.eq_of_length hall).symm
  · rfl

/-- What comes after a zero does not matter. -/
theorem takeWhile_append_of_zero {l : List UInt8} (h : 0 ∈ l) (m : List UInt8) :
    (l ++ m).takeWhile (· ≠ 0) = l.takeWhile (· ≠ 0) := by
  rw [takeWhile_append, if_neg]
  intro hall
  have hpre := takeWhile_prefix (l := l) fun c ↦ decide (c ≠ 0)
  rw [← hpre.eq_of_length hall] at h
  exact absurd (mem_takeWhile_imp h) (by decide)

theorem takeWhile_append_of_no_zero {l : List UInt8} (h : 0 ∉ l) (m : List UInt8) :
    (l ++ m).takeWhile (· ≠ 0) = l ++ m.takeWhile (· ≠ 0) := by
  refine takeWhile_append_of_pos fun c hc ↦ decide_eq_true fun heq : c = 0 ↦ ?_
  exact h (heq ▸ hc)

theorem stop_le (length : Nat) (maxlen : BitVec 32) : stop length maxlen ≤ length := by
  unfold stop
  split <;> omega

theorem take_stop (s : List UInt8) (maxlen : BitVec 32) : s.take (stop s.length maxlen) =
    s.take maxlen.toNat := by
  unfold stop
  split
  · rw [take_length, take_of_length_le (by omega)]
  · rfl

/-- The pattern is matched with the part that was copied, and what was in the buffer between it and
the zero. -/
theorem partialRegexMatch_eq (ha : a.Is s) (hs : s.chars ≠ []) {zero : Nat → Nat → Nat} {z : Nat}
    (hz : zero s.chars.length (stop s.chars.length maxlen) = z)
    (hstop : stop s.chars.length maxlen ≤ z)
    (hle : z ≤ s.chars.length) : (partialRegexMatch zero fresh buffer pattern a maxlen).1 =
      if pattern ((s.chars.take maxlen.toNat ++
        (range (z - stop s.chars.length maxlen)).map fun i ↦
        (buffer.grow fresh s.chars.length).d (stop s.chars.length maxlen + i)).takeWhile (· ≠ 0))
          then 1 else 0 := by
  have hne : s.chars.length ≠ 0 := fun h ↦ hs (length_eq_zero_iff.mp h)
  have hlt := lt_dlen_grow fresh buffer s.chars.length
  rw [partialRegexMatch, ha.length_eq, if_neg hne, hz]
  show (if pattern (Buffer.cstring _) then 1 else 0) = _
  have hlen : z < (buffer.grow fresh s.chars.length).dlen := by omega
  rw [cstring_eq hlen (Function.update_self z _ _)]
  congr 4
  refine ext_getElem ?_ fun i hi hi' ↦ ?_
  · rw [length_map, length_range, length_append, ← take_stop, length_take,
      length_map, length_range]
    omega
  · rw [length_map, length_range] at hi
    rw [getElem_map, getElem_range, Function.update_of_ne (by omega)]
    simp only [← take_stop]
    by_cases hcopied : i < stop s.chars.length maxlen
    · rw [if_pos hcopied, getElem_append_left (by rw [length_take]; omega),
        getElem_take, ha.data_eq i (by omega)]
    · rw [if_neg hcopied, getElem_append_right (by rw [length_take]; omega),
        getElem_map, getElem_range, length_take]
      congr 1
      omega

theorem lfta_regex_eq (ha : a.Is s) (hs : s.chars ≠ []) :
    (Lfta.strPartialRegexMatch fresh buffer pattern a maxlen).1 =
    if pattern ((s.chars.take maxlen.toNat ++
      (range (s.chars.length - stop s.chars.length maxlen)).map fun i ↦
        (buffer.grow fresh s.chars.length).d (stop s.chars.length maxlen + i)).takeWhile (· ≠ 0))
          then 1 else 0 :=
  partialRegexMatch_eq ha hs rfl (stop_le _ _) le_rfl

theorem hfta_regex_eq (ha : a.Is s) (hs : s.chars ≠ []) :
    (Hfta.strPartialRegexMatch fresh buffer pattern a maxlen).1 =
    if pattern ((s.chars.take maxlen.toNat).takeWhile (· ≠ 0)) then 1 else 0 := by
  have heq : (partialRegexMatch (fun _ stop ↦ stop) fresh buffer pattern a maxlen).1 = _ :=
    partialRegexMatch_eq ha hs rfl le_rfl (stop_le _ _)
  rw [Nat.sub_self, range_zero, map_nil, append_nil] at heq
  exact heq

/-- **When what the buffer had before does not matter.** -/
theorem strPartialRegexMatch_iff : (∀ fresh fresh' buffer buffer', Same s
    (fun a ↦ (Lfta.strPartialRegexMatch fresh buffer pattern a maxlen).1)
    (fun b ↦ (Hfta.strPartialRegexMatch fresh' buffer' pattern b maxlen).1)) ↔
      RegexOk pattern maxlen s.chars := by
  have hstop : s.chars.length - stop s.chars.length maxlen = s.chars.length - maxlen.toNat := by
    unfold stop
    split <;> omega
  have hself (hzero : 0 ∉ s.chars.take maxlen.toNat) :
      (s.chars.take maxlen.toNat).takeWhile (· ≠ 0) = s.chars.take maxlen.toNat := by
    have heq := takeWhile_append_of_no_zero hzero []
    rwa [append_nil, takeWhile_nil, append_nil] at heq
  constructor
  · intro h
    by_contra hno
    rw [RegexOk, not_or] at hno
    obtain ⟨hzero, hno⟩ := hno
    push Not at hno
    obtain ⟨z, hz, hlen, hne⟩ := hno
    have hs : s.chars ≠ [] := by
      intro hnil
      rw [hnil, length_nil, Nat.zero_sub, Nat.le_zero, length_eq_zero_iff] at hlen
      rw [hlen, append_nil] at hne
      exact hne rfl
    -- The buffer is large enough and has `z` where the copied part ends.
    have hsame : (Lfta.strPartialRegexMatch (fun _ ↦ 0)
        ⟨fun i ↦ z.getD (i - stop s.chars.length maxlen) 0, s.chars.length + 2⟩ pattern
          (withRest s fun _ ↦ 0)
        maxlen).1 =
        (Hfta.strPartialRegexMatch (fun _ ↦ 0) ⟨fun _ ↦ 0, 0⟩ pattern (withRest s fun _ ↦ 0)
          maxlen).1 :=
      h _ _ _ _ _ _ (is_withRest s _) (is_withRest s _)
    rw [lfta_regex_eq (is_withRest s _) hs, hfta_regex_eq (is_withRest s _) hs,
      takeWhile_append_of_no_zero hzero, hself hzero] at hsame
    have hrest : ((range (s.chars.length - stop s.chars.length maxlen)).map fun i ↦
        (Buffer.grow (fun _ ↦ 0) ⟨fun i ↦ z.getD (i - stop s.chars.length maxlen) 0,
          s.chars.length + 2⟩ s.chars.length).d (stop s.chars.length maxlen + i)) =
        z ++ replicate (s.chars.length - stop s.chars.length maxlen - z.length) 0 := by
      have hgrow : (Buffer.grow (fun _ ↦ 0)
          ⟨fun i ↦ z.getD (i - stop s.chars.length maxlen) 0, s.chars.length + 2⟩
            s.chars.length).d = fun i ↦ z.getD (i - stop s.chars.length maxlen) 0 := by
        rw [Buffer.grow, if_neg (Nat.not_le.mpr (Nat.lt_succ_self _))]
      rw [hgrow]
      refine ext_getElem (by simp; omega) fun i hi hi' ↦ ?_
      rw [getElem_map, getElem_range]
      show z.getD (stop s.chars.length maxlen + i - stop s.chars.length maxlen) 0 = _
      rw [Nat.add_sub_cancel_left, getElem_append]
      split
      · exact getD_eq_getElem _ _ ‹_›
      · rw [getElem_replicate, getD_eq_default _ _ (Nat.not_lt.mp ‹_›)]
    have hwhile : (z ++ replicate (s.chars.length - stop s.chars.length maxlen - z.length)
        0).takeWhile (· ≠ (0 : UInt8)) = z := by
      rw [takeWhile_append_of_no_zero hz, takeWhile_replicate]
      exact append_nil z
    rw [hrest, hwhile] at hsame
    revert hne hsame
    cases pattern (s.chars.take maxlen.toNat ++ z) <;>
      cases pattern (s.chars.take maxlen.toNat) <;> simp
  · intro h fresh fresh' buffer buffer' a b ha hb
    show (Lfta.strPartialRegexMatch fresh buffer pattern a maxlen).1 =
      (Hfta.strPartialRegexMatch fresh' buffer' pattern b maxlen).1
    by_cases hs : s.chars = []
    · simp [Lfta.strPartialRegexMatch, Hfta.strPartialRegexMatch, partialRegexMatch, ha.length_eq,
        hb.length_eq, hs]
    · rw [lfta_regex_eq ha hs, hfta_regex_eq hb hs]
      by_cases hzero : 0 ∈ s.chars.take maxlen.toNat
      · -- The zero ends the string in both.
        rw [takeWhile_append_of_zero hzero]
      · rw [takeWhile_append_of_no_zero hzero, hself hzero, h.resolve_left hzero]
        · exact fun hmem ↦ absurd (mem_takeWhile_imp hmem) (by decide)
        · refine (List.Sublist.length_le (takeWhile_sublist _)).trans ?_
          rw [length_map, length_range, hstop]

end

/-! ## All of them -/

/-- **When the functions of LFTAs and HFTAs agree.** -/
theorem agree_iff (s t : Text) (offset val maxlen : BitVec 32) (pattern : List UInt8 → Bool) :
    Agree s t offset val maxlen pattern ↔ AgreeOk s t offset maxlen pattern := by
  constructor
  · intro h
    exact ⟨existsSubstr_iff.mp h.existsSubstr, strMatchOffset_iff.mp h.matchOffset,
      strCompare_iff.mp h.compare, strPartialRegexMatch_iff.mp h.partialRegexMatch⟩
  · intro h
    exact ⟨existsSubstr_iff.mpr h.search, strMatchOffset_iff.mpr h.offset,
      byteMatchOffset_same t offset val, strCompare_iff.mpr h.compare, strtoi_same s,
        strtoip_same s, strPartialRegexMatch_iff.mpr h.regex⟩

/-! ## Strings on which they differ -/

def shorter : Text := ⟨[98], by decide⟩

def longer : Text := ⟨[97, 98], by decide⟩

/-- The string without what lies behind it. -/
def plain (s : Text) : Str := withRest s fun _ ↦ 0

/-- **The second string is the end of the first**, and is not found in it.  Characters from 128 on
compare differently. -/
theorem exists_not_agree :
    (Lfta.strExistsSubstr (plain longer) (plain shorter) = 0 ∧ shorter.chars <:+: longer.chars) ∧
    (Lfta.strCompare (plain ⟨[128], by decide⟩) (plain shorter) = -1 ∧
      Hfta.strCompare (plain ⟨[128], by decide⟩) (plain shorter) = 1) ∧
    ¬ Agree longer shorter 0 0 2 fun _ ↦ true := by
  refine ⟨⟨by decide, [97], [], rfl⟩, ⟨by decide, by decide⟩, fun h ↦ ?_⟩
  have hone := (h.existsSubstr.occurs (by decide) (plain longer) (plain shorter) (is_withRest _ _)
    (is_withRest _ _)).mpr ⟨[97], [], rfl⟩
  exact absurd hone (by decide)

end Tigon.Ftaaux
