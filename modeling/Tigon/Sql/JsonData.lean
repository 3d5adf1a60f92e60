import Tigon.Lib.Frames

/-!
# Objects with data

The texts that a JSON parser reads as an object with one name, `data`, and an array of strings; read
from left to right, one character after the other.  There may be white space before an object.

A text that is cut after each closing brace falls into pieces if a string has a brace in it.  None
of the pieces is such an object: the first one ends inside a string, and the others start inside of
one, so that what comes first in them is the end of a string, and not a name.

* `cut_of_not_innerBrace` — an object without a brace in a string is in one piece.
* `parse_eq_none_of_innerBrace` — **no piece of another one is an object.**
-/

set_option autoImplicit false

namespace Tigon.Sql.JsonData

/-! ## Literals -/

def isSpace (c : Char) : Bool := c = ' ' || c = '\t' || c = '\n' || c = '\r'

/-- The quotation mark. -/
def quote : Char := Char.ofNat 34

def backslash : Char := Char.ofNat 92

/-- What an escape stands for. -/
def simpleEscape (c : Char) : Option Char :=
  if c = quote ∨ c = backslash ∨ c = '/' then some c
  else if c = 'b' then some (Char.ofNat 8)
  else if c = 'f' then some (Char.ofNat 12)
  else if c = 'n' then some (Char.ofNat 10)
  else if c = 'r' then some (Char.ofNat 13)
  else if c = 't' then some (Char.ofNat 9)
  else none

def hexDigit (c : Char) : Option Nat :=
  if '0' ≤ c ∧ c ≤ '9' then some (c.toNat - 48)
  else if 'a' ≤ c ∧ c ≤ 'f' then some (c.toNat - 87)
  else if 'A' ≤ c ∧ c ≤ 'F' then some (c.toNat - 55)
  else none

/-- Inside a literal, with its characters so far. -/
inductive Literal
  | plain (v : List Char)
  | escape (v : List Char)
  /-- In a number of four digits, perhaps the second one of a pair of surrogates. -/
  | hex (v : List Char) (high : Option Nat) (digits : List Nat)
  /-- Behind the first one of a pair. -/
  | low (v : List Char) (high : Nat)
  | lowEscape (v : List Char) (high : Nat)
deriving DecidableEq

namespace Literal

def value : Literal → List Char
  | plain v => v
  | escape v => v
  | hex v _ _ => v
  | low v _ => v
  | lowEscape v _ => v

/-- Behind a number.  Surrogates come in pairs. -/
def unit (v : List Char) (high : Option Nat) (n : Nat) : Option Literal :=
  match high with
  | none =>
    if n < 0xD800 ∨ 0xE000 ≤ n then some (plain (v ++ [Char.ofNat n]))
    else if n < 0xDC00 then some (low v n)
    else none
  | some h =>
    if 0xDC00 ≤ n ∧ n < 0xE000 then
      some (plain (v ++ [Char.ofNat (0x10000 + (h - 0xD800) * 0x400 + (n - 0xDC00))]))
    else none

/-- A character that is not the quotation mark at the end. -/
def step : Literal → Char → Option Literal
  | plain v, c =>
    if c = backslash then some (escape v) else if c.toNat < 32 ∨ c = quote then none
      else some (plain (v ++ [c]))
  | escape v, c =>
    if c = 'u' then some (hex v none []) else (simpleEscape c).map fun e ↦ plain (v ++ [e])
  | hex v high digits, c =>
    (hexDigit c).bind fun d ↦
      if digits.length = 3 then unit v high ((digits ++ [d]).foldl (fun n d ↦ 16 * n + d) 0)
      else some (hex v high (digits ++ [d]))
  | low v high, c => if c = backslash then some (lowEscape v high) else none
  | lowEscape v high, c => if c = 'u' then some (hex v (some high) []) else none

/-- The characters of the literal, if a character is the end of it. -/
def close : Literal → Char → Option (List Char)
  | plain v, c => if c = quote then some v else none
  | _, _ => none

end Literal

/-! ## Objects -/

/-- Inside an object, with the strings so far. -/
inductive State
  | start
  | object
  | key (l : Literal)
  | colon
  | value
  | first
  | item (vs : List String) (l : Literal)
  | after (vs : List String)
  | next (vs : List String)
  | closing (vs : List String)
  | done (vs : List String)
deriving DecidableEq

/-- The name. -/
def data : List Char := ['d', 'a', 't', 'a']

namespace State

/-- Behind a character.  There is no such object where there is no state. -/
def step : State → Char → Option State
  | start, c => if isSpace c then some start else if c = '{' then some object else none
  | object, c =>
    if isSpace c then some object else if c = quote then some (key (.plain [])) else none
  | key l, c =>
    match l.close c with
    | some v => if v = data then some colon else none
    | none => (l.step c).bind fun l ↦ if l.value.isPrefixOf data then some (key l) else none
  | colon, c => if isSpace c then some colon else if c = ':' then some value else none
  | value, c => if isSpace c then some value else if c = '[' then some first else none
  | first, c =>
    if isSpace c then some first
    else if c = quote then some (item [] (.plain [])) else if c = ']'
      then some (closing []) else none
  | item vs l, c =>
    match l.close c with
    | some v => some (after (vs ++ [String.ofList v]))
    | none => (l.step c).map (item vs)
  | after vs, c =>
    if isSpace c then some (after vs)
    else if c = ',' then some (next vs) else if c = ']' then some (closing vs) else none
  | next vs, c =>
    if isSpace c then some (next vs) else if c = quote then some (item vs (.plain [])) else none
  | closing vs, c =>
    if isSpace c then some (closing vs) else if c = '}' then some (done vs) else none
  | done _, _ => none

def result : State → Option (List String)
  | done vs => some vs
  | _ => none

end State

def run (s : State) (text : List Char) : Option State := text.foldlM State.step s

/-- The strings of the object that the text is. -/
def parse (text : List Char) : Option (List String) := (run .start text).bind State.result

def isBrace (c : Char) : Bool := c = '}'

/-- The pieces of a text. -/
def pieces (text : List Char) : List (List Char) := (Frames.cut isBrace [] text).1

/-- A brace before the last character. -/
def InnerBrace (text : List Char) : Prop := '}' ∈ text.dropLast

/-! ## Runs -/

theorem run_append (s : State) (l l' : List Char) : run s (l ++ l') =
    (run s l).bind fun s ↦ run s l' :=
  List.foldlM_append

theorem run_cons (s : State) (c : Char) (l : List Char) : run s (c :: l) = (s.step c).bind fun s ↦
    run s l := rfl

theorem run_concat (s : State) (l : List Char) (c : Char) : run s (l ++ [c]) =
    (run s l).bind fun s ↦ s.step c := by
  rw [run_append]
  refine congrArg (fun f ↦ (run s l).bind f) (funext fun s ↦ ?_)
  rw [run_cons]
  cases s.step c <;> rfl

theorem close_eq_some_iff {l : Literal} {c : Char} {v : List Char} :
    l.close c = some v ↔ l = .plain v ∧ c = quote := by
  cases l with
  | plain w =>
    rw [Literal.close]
    split <;> simp_all
  | escape w | hex w high digits | low w high | lowEscape w high =>
    exact iff_of_false (Option.some_ne_none _).symm fun h ↦ absurd h.1 Literal.noConfusion

variable {vs : List String}

/-- Only a brace is the end of an object. -/
theorem eq_brace_of_step {s : State} {c : Char} (h : s.step c = some (.done vs)) : c = '}' := by
  by_contra hc
  cases s with
  | start | object | colon | value | first | after ws | next ws | closing ws =>
    rw [State.step] at h
    repeat' split at h
    all_goals exact absurd h (by simp)
  | key l =>
    rw [State.step] at h
    split at h
    · split at h <;> exact absurd h (by simp)
    · obtain ⟨l', -, h⟩ := Option.bind_eq_some_iff.mp h
      split at h <;> exact absurd h (by simp)
  | item ws l =>
    rw [State.step] at h
    split at h
    · exact absurd h (by simp)
    · obtain ⟨l', -, h⟩ := Option.map_eq_some_iff.mp h
      exact absurd h (by simp)
  | done ws => exact absurd h (Option.some_ne_none _).symm

/-- A brace in a literal. -/
theorem exists_plain_of_step {l l' : Literal} (h : l.step '}' = some l') :
    ∃ v, l = .plain v ∧ l' = .plain (v ++ ['}']) := by
  cases l with
  | plain v =>
    rw [Literal.step, if_neg (by decide), if_neg (by decide)] at h
    exact ⟨v, rfl, (Option.some.inj h).symm⟩
  | escape v => exact absurd h (by simp [Literal.step, simpleEscape, quote, backslash])
  | hex v high digits => exact absurd h (by simp [Literal.step, hexDigit])
  | low v high => exact absurd h (by simp [Literal.step, backslash])
  | lowEscape v high => exact absurd h (by simp [Literal.step])

theorem close_brace (l : Literal) : l.close '}' = none := by
  refine Option.eq_none_iff_forall_not_mem.mpr fun v hv ↦ ?_
  exact absurd (close_eq_some_iff.mp hv).2 (by decide)

/-- Before its end an object has a brace in strings only. -/
theorem item_or_done_of_step {s τ : State} (h : s.step '}' = some τ) :
    (∃ vs v, τ = .item vs (.plain v)) ∨ ∃ vs, τ = .done vs := by
  have hspace : isSpace '}' = false := by decide
  cases s with
  | start | object | colon | value | first | after ws | next ws =>
    rw [State.step, hspace, if_neg Bool.false_ne_true] at h
    exact absurd h (by simp [quote])
  | closing ws =>
    rw [State.step, hspace, if_neg Bool.false_ne_true, if_pos rfl] at h
    exact Or.inr ⟨ws, (Option.some.inj h).symm⟩
  | key l =>
    rw [State.step, close_brace] at h
    obtain ⟨l', hl', h⟩ := Option.bind_eq_some_iff.mp h
    obtain ⟨v, -, rfl⟩ := exists_plain_of_step hl'
    split at h
    · rename_i hdata
      have hmem : '}' ∈ data := (List.isPrefixOf_iff_prefix.mp hdata).subset
        (List.mem_append_right v (by decide))
      exact absurd hmem (by decide)
    · exact absurd h (Option.some_ne_none _).symm
  | item ws l =>
    rw [State.step, close_brace] at h
    obtain ⟨l', hl', rfl⟩ := Option.map_eq_some_iff.mp h
    obtain ⟨v, -, rfl⟩ := exists_plain_of_step hl'
    exact Or.inl ⟨ws, _, rfl⟩
  | done ws => exact absurd h (Option.some_ne_none _).symm

/-- What a piece that starts inside a string has come to, beside the state of the object. -/
inductive Astray : Option State → State → Prop
  | lost (σ : State) : Astray none σ
  | start (vs : List String) (v : List Char) : Astray (some .start) (.item vs (.plain v))
  | object (vs : List String) (v : List Char) : Astray (some .object) (.item vs (.plain v))
  | key (vs : List String) : Astray (some (.key (.plain []))) (.after vs)

/-- A string's character that is read as itself, or the end of the string. -/
theorem step_item_plain {v : List Char} {c : Char} {τ : State}
    (h : State.step (.item vs (.plain v)) c = some τ) (hc : c ≠ backslash) :
    (c = quote ∧ ∃ ws, τ = .after ws) ∨ (c ≠ quote ∧ τ = .item vs (.plain (v ++ [c]))) := by
  rw [State.step, Literal.close] at h
  by_cases hquote : c = quote
  · rw [if_pos hquote] at h
    exact Or.inl ⟨hquote, _, (Option.some.inj h).symm⟩
  · rw [if_neg hquote, Literal.step, if_neg hc] at h
    obtain ⟨l, hl, rfl⟩ := Option.map_eq_some_iff.mp h
    split at hl
    · exact absurd hl (Option.some_ne_none _).symm
    · exact Or.inr ⟨hquote, by rw [Option.some.inj hl]⟩

theorem Astray.step {ρ : Option State} {σ τ : State} {c : Char} (h : Astray ρ σ)
    (hτ : σ.step c = some τ) : Astray (ρ.bind fun s ↦ s.step c) τ := by
  have hback : isSpace backslash = false ∧ backslash ≠ '{' ∧ backslash ≠ quote := by decide
  cases h with
  | lost => exact .lost τ
  | start vs v =>
    show Astray (State.start.step c) τ
    rw [State.step]
    by_cases hc : c = backslash
    · subst hc
      rw [hback.1, if_neg Bool.false_ne_true, if_neg hback.2.1]
      exact .lost τ
    · rcases step_item_plain hτ hc with ⟨rfl, ws, rfl⟩ | ⟨-, rfl⟩
      · exact .lost _
      · split
        · exact .start vs _
        · split
          · exact .object vs _
          · exact .lost _
  | object vs v =>
    show Astray (State.object.step c) τ
    rw [State.step]
    by_cases hc : c = backslash
    · subst hc
      rw [hback.1, if_neg Bool.false_ne_true, if_neg hback.2.2]
      exact .lost τ
    · rcases step_item_plain hτ hc with ⟨rfl, ws, rfl⟩ | ⟨hquote, rfl⟩
      · exact .key ws
      · rw [if_neg hquote]
        split
        · exact .object vs _
        · exact .lost _
  | key vs =>
    have hc : isSpace c = true ∨ c = ',' ∨ c = ']' := by
      rw [State.step] at hτ
      by_contra hc
      rw [not_or, not_or] at hc
      rw [if_neg hc.1, if_neg hc.2.1, if_neg hc.2.2] at hτ
      exact absurd hτ (Option.some_ne_none _).symm
    have hnone : (State.key (.plain [])).step c = none := by
      rcases hc with hc | rfl | rfl
      · simp only [isSpace, Bool.or_eq_true, decide_eq_true_eq] at hc
        rcases hc with ((rfl | rfl) | rfl) | rfl <;> rfl
      · rfl
      · rfl
    show Astray ((State.key (.plain [])).step c) τ
    rw [hnone]
    exact .lost τ

/-! ## Pieces -/

variable {text : List Char}

theorem parse_eq_none_of_run {s : State} (h : run .start text = some s)
    (hs : ∀ vs, s ≠ .done vs) : parse text = none := by
  rw [parse, h, Option.bind_some]
  cases s with
  | done vs => exact absurd rfl (hs vs)
  | start | object | key l | colon | value | first | item vs l | after vs | next vs | closing vs =>
    rfl

/-- No piece is an object from inside a string on. -/
theorem parse_eq_none_of_astray {σ τ : State} (acc : List Char) {l : List Char}
    (h : Astray (run .start acc) σ) (hl : run σ l = some τ) :
      ∀ piece ∈ (Frames.cut isBrace acc l).1, parse piece = none := by
  induction l generalizing σ acc with
  | nil => exact fun piece hpiece ↦ absurd hpiece List.not_mem_nil
  | cons c l ih =>
    rw [run_cons] at hl
    obtain ⟨σ', hσ, hl⟩ := Option.bind_eq_some_iff.mp hl
    have hnext := h.step hσ
    rw [← run_concat] at hnext
    by_cases hc : isBrace c = true
    · rw [Frames.cut_cons_of_delim hc]
      obtain rfl : c = '}' := of_decide_eq_true hc
      intro piece hpiece
      rcases List.mem_cons.mp hpiece with rfl | hpiece
      · -- The piece has no state, or one that is not the end of an object.
        cases hrun : run .start (acc ++ ['}']) with
        | none => rw [parse, hrun, Option.bind_none]
        | some ρ =>
          rw [hrun] at hnext
          refine parse_eq_none_of_run hrun fun vs hvs ↦ ?_
          subst hvs
          cases hnext
      · rcases item_or_done_of_step hσ with ⟨vs, v, rfl⟩ | ⟨vs, rfl⟩
        · exact ih [] (Astray.start vs v) hl piece hpiece
        · cases l with
          | nil => exact absurd hpiece List.not_mem_nil
          | cons d l => exact absurd hl (Option.some_ne_none _).symm
    · rw [Frames.cut_cons_of_not_delim (Bool.eq_false_iff.mpr hc)]
      exact ih _ hnext hl

/-- The text of an object ends with a brace. -/
theorem exists_concat_of_parse (h : parse text = some vs) :
    ∃ l, text = l ++ ['}'] ∧ ∃ s, run .start l = some s := by
  obtain ⟨s, hs, hresult⟩ := Option.bind_eq_some_iff.mp h
  rcases List.eq_nil_or_concat text with rfl | ⟨l, c, rfl⟩
  · obtain rfl := Option.some.inj hs
    exact absurd hresult (Option.some_ne_none _).symm
  · rw [List.concat_eq_append, run_concat] at hs
    obtain ⟨s', hs', hstep⟩ := Option.bind_eq_some_iff.mp hs
    cases s with
    | done ws =>
      obtain rfl := eq_brace_of_step hstep
      exact ⟨l, List.concat_eq_append, s', hs'⟩
    | start | object | key l | colon | value | first | item ws l | after ws | next ws
    | closing ws =>
      exact absurd hresult (Option.some_ne_none _).symm

theorem cut_concat_brace (acc l : List Char) : (Frames.cut isBrace acc (l ++ ['}'])).2 = [] := by
  rw [Frames.cut_append]
  rfl

/-- An object is in one piece, without a brace in a string. -/
theorem pieces_of_not_innerBrace (h : parse text = some vs)
    (hinner : ¬InnerBrace text) : pieces text = [text] := by
  obtain ⟨l, rfl, -⟩ := exists_concat_of_parse h
  rw [InnerBrace, List.dropLast_concat] at hinner
  have hl : ∀ c ∈ l, isBrace c = false :=
    fun c hc ↦ decide_eq_false fun hbrace ↦ hinner (hbrace ▸ hc)
  rw [pieces, Frames.cut_append, Frames.cut_of_forall hl]
  rfl

/-- **No piece of another object is an object.** -/
theorem parse_eq_none_of_innerBrace (h : parse text = some vs)
    (hinner : InnerBrace text) : pieces text ≠ [] ∧ ∀ piece ∈ pieces text, parse piece = none := by
  obtain ⟨s, hs, -⟩ := Option.bind_eq_some_iff.mp h
  obtain ⟨l, rfl, -⟩ := exists_concat_of_parse h
  rw [InnerBrace, List.dropLast_concat] at hinner
  obtain ⟨before, after, rfl, hbefore⟩ := List.eq_append_cons_of_mem hinner
  have hdelim : ∀ c ∈ before, isBrace c = false :=
    fun c hc ↦ decide_eq_false fun hbrace ↦ hbefore (hbrace ▸ hc)
  have hpieces : pieces (before ++ '}' :: after ++ ['}']) =
      (before ++ ['}']) :: (Frames.cut isBrace [] (after ++ ['}'])).1 := by
    rw [pieces, List.append_assoc, Frames.cut_append, Frames.cut_of_forall hdelim]
    rfl
  rw [List.append_assoc, List.cons_append, ← List.singleton_append, ← List.append_assoc, run_append]
    at hs
  obtain ⟨σ, hσ, hrest⟩ := Option.bind_eq_some_iff.mp hs
  have hfirst := hσ
  rw [run_concat] at hσ
  obtain ⟨σ', -, hstep⟩ := Option.bind_eq_some_iff.mp hσ
  rw [hpieces]
  refine ⟨List.cons_ne_nil _ _, fun piece hpiece ↦ ?_⟩
  rcases item_or_done_of_step hstep with ⟨ws, v, rfl⟩ | ⟨ws, rfl⟩
  · rcases List.mem_cons.mp hpiece with rfl | hpiece
    · exact parse_eq_none_of_run hfirst fun vs ↦ State.noConfusion
    · exact parse_eq_none_of_astray [] (Astray.start ws v) hrest piece hpiece
  · -- Nothing comes after an object.
    cases after with
    | nil => exact absurd hrest (Option.some_ne_none _).symm
    | cons c after => exact absurd hrest (Option.some_ne_none _).symm

/-- White space has no brace, and is no part of an object's strings. -/
theorem cut_of_isSpace {ws : List Char} (hws : ∀ c ∈ ws, isSpace c = true) :
    Frames.cut isBrace [] ws = ([], ws) := by
  have hbrace : ∀ c ∈ ws, isBrace c = false := by
    intro c hc
    refine decide_eq_false ?_
    rintro rfl
    exact absurd (hws _ hc) (by decide)
  exact Frames.cut_of_forall hbrace []

end Tigon.Sql.JsonData
