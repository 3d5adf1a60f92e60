import Mathlib

/-!
# Decoders

A decoder takes symbols off the front of its input.  When it fails, the symbols it has taken by then
are gone; catching the exception does not bring them back.

`Reads p l a` says that `p` takes exactly the symbols `l` off its input and returns `a`, whatever
comes after them.  It is closed under running one decoder after another (`Reads.bind`,
`reads_mapM`), which is the way a round trip through a format is proved: a rule for each of its
parts. -/

set_option autoImplicit false

/-- A decoder of symbols `σ`, with exceptions `ε`. -/
abbrev Decoder (ε σ α : Type) := EStateM ε (List σ) α

namespace Decoder

variable {ε σ α β : Type} {p : Decoder ε σ α} {f : α → Decoder ε σ β} {s s' : List σ}
  {a : α} {e : ε}

/-! ## One decoder after another -/

theorem bind_of_ok (h : p s = .ok a s') : (p >>= f) s = f a s' := by
  show EStateM.bind p f s = f a s'
  rw [EStateM.bind, h]

theorem bind_of_error (h : p s = .error e s') : (p >>= f) s = .error e s' := by
  show EStateM.bind p f s = .error e s'
  rw [EStateM.bind, h]

/-! ## Reading -/

/-- The decoder takes the symbols `l` and returns `a`. -/
def Reads (p : Decoder ε σ α) (l : List σ) (a : α) : Prop := ∀ rest, p (l ++ rest) = .ok a rest

variable {l l' : List σ} {b : β}

theorem reads_pure (a : α) : Reads (pure a : Decoder ε σ α) [] a := fun _ ↦ rfl

theorem Reads.bind (hp : Reads p l a) (hf : Reads (f a) l' b) : Reads (p >>= f) (l ++ l') b := by
  intro rest
  rw [List.append_assoc, bind_of_ok (hp _)]
  exact hf rest

theorem Reads.map (hp : Reads p l a) (g : α → β) : Reads (p >>= fun a ↦ pure (g a)) l (g a) := by
  have h := hp.bind (f := fun a ↦ pure (g a)) (reads_pure (g a))
  rwa [List.append_nil] at h

theorem Reads.bind_nil (hp : Reads p l a) (hf : Reads (f a) [] b) : Reads (p >>= f) l b := by
  have h := hp.bind hf
  rwa [List.append_nil] at h

/-- The decoder is done with the symbols `l`: it takes them and returns, or fails somewhere. -/
def Runs (p : Decoder ε σ α) (l : List σ) : Except ε α → Prop
  | .ok a => Reads p l a
  | .error e => ∀ rest, ∃ rest', p (l ++ rest) = .error e rest'

theorem runs_pure (a : α) : Runs (pure a : Decoder ε σ α) [] (.ok a) := reads_pure a

theorem runs_throw (e : ε) : Runs (throw e : Decoder ε σ α) [] (.error e) := fun rest ↦ ⟨rest, rfl⟩

theorem Runs.bind {r : Except ε α} {g : α → Except ε β} (hp : Runs p l r)
    (hf : ∀ a, r = .ok a → Runs (f a) l' (g a)) : Runs (p >>= f) (l ++ l') (r >>= g) := by
  cases r with
  | error e =>
    intro rest
    obtain ⟨rest', h⟩ := hp (l' ++ rest)
    exact ⟨rest', by rw [List.append_assoc, bind_of_error h]⟩
  | ok a =>
    have h := hf a rfl
    show Runs (p >>= f) (l ++ l') (g a)
    cases hg : g a with
    | error e =>
      rw [hg] at h
      intro rest
      obtain ⟨rest', h⟩ := h rest
      exact ⟨rest', by rw [List.append_assoc, bind_of_ok (hp _), h]⟩
    | ok b =>
      rw [hg] at h
      exact Reads.bind hp h

/-- A decoder that takes its symbols and returns, before another one. -/
theorem Reads.runs_bind {r : Except ε β} (hp : Reads p l a) (hf : Runs (f a) l' r) :
    Runs (p >>= f) (l ++ l') r :=
  Runs.bind (r := .ok a) (g := fun _ ↦ r) hp fun a' h ↦ by
    cases h
    exact hf

/-- A decoder that takes one symbol. -/
theorem Reads.runs_cons {c : σ} {r : Except ε β} (hp : Reads p [c] a) (hf : Runs (f a) l r) :
    Runs (p >>= f) (c :: l) r := hp.runs_bind hf

theorem Reads.runs_bind_nil {r : Except ε β} (hp : Reads p l a) (hf : Runs (f a) [] r) :
    Runs (p >>= f) l r := by
  have h := hp.runs_bind hf
  rwa [List.append_nil] at h

theorem Runs.bind_nil {r : Except ε α} {g : α → Except ε β} (hp : Runs p l r)
    (hf : ∀ a, r = .ok a → Runs (f a) [] (g a)) : Runs (p >>= f) l (r >>= g) := by
  have h := hp.bind hf
  rwa [List.append_nil] at h

theorem Runs.map {r : Except ε α} (hp : Runs p l r) (g : α → β) :
    Runs (p >>= fun a ↦ pure (g a)) l (r >>= fun a ↦ .ok (g a)) :=
  hp.bind_nil fun a _ ↦ runs_pure (g a)

/-- A computation without input. -/
theorem runs_ofExcept (r : Except ε α) : Runs (ofExcept r : Decoder ε σ α) [] r := by
  cases r with
  | ok a => exact runs_pure a
  | error e => exact runs_throw e

/-- The next symbol, which stays in the input. -/
def peek : Decoder ε σ (Option σ) := fun s ↦ .ok s.head? s

theorem runs_peek_bind {f : Option σ → Decoder ε σ α} {c : σ} {r : Except ε α}
    (h : Runs (f (some c)) (c :: l) r) : Runs (peek >>= f) (c :: l) r := by
  cases r with
  | ok a => exact fun rest ↦ h rest
  | error e => exact fun rest ↦ h rest

/-- A decoder for each element of a list. -/
theorem reads_mapM {g : β → Decoder ε σ α} {bs : List β} {as : List α} {enc : α → List σ}
    (h : List.Forall₂ (fun b a ↦ Reads (g b) (enc a) a) bs as) : Reads (bs.mapM g)
    (as.flatMap enc) as := by
  induction h with
  | nil => exact reads_pure []
  | cons hb _ ih =>
    rw [List.mapM_cons, List.flatMap_cons]
    exact hb.bind (ih.map _)

end Decoder
