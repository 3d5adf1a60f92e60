import Tigon.Lib.Decoder

/-!
# Choice without backtracking

A decoder that is tried after another one starts where the first one has stopped.  So a choice is
only one of the alternatives if those that fail have not taken anything.

`watching` is the choice of an observer, who raises an alarm where this does not hold; without an
alarm both do the same (`Follows`).  `Outcome` says what a decoder does with symbols that were
written for it, in a way that is closed under one decoder after another and under choice
(`Does.bind`, `does_firstOf`). -/

set_option autoImplicit false

namespace Decoder

variable {ε σ α β γ : Type}

/-- The second decoder goes on where the first one has stopped, if its exception is caught. -/
def catching (caught : ε → Bool) (p q : Decoder ε σ α) : Decoder ε σ α := fun s ↦
  match p s with
  | .ok a s' => .ok a s'
  | .error e s' => if caught e then q s' else .error e s'

/-- The same, with an alarm if the first decoder has taken anything, or its exception is not
caught. -/
def watching [DecidableEq σ] (caught : ε → Bool) (alarm : ε) (p q : Decoder ε σ α) :
    Decoder ε σ α := fun s ↦
  match p s with
  | .ok a s' => .ok a s'
  | .error e s' => if caught e = true ∧ s' = s then q s else .error alarm s'

/-- One decoder after another. -/
def firstOf (orElse : Decoder ε σ α → Decoder ε σ α → Decoder ε σ α) (exhausted : ε)
    (ps : List (Decoder ε σ α)) : Decoder ε σ α := ps.foldr orElse (throw exhausted)

section

variable {caught : ε → Bool} {p q : Decoder ε σ α} {s s' : List σ} {a : α} {e : ε}

theorem catching_of_ok (h : p s = .ok a s') : catching caught p q s = .ok a s' :=
  by rw [catching, h]

theorem catching_of_error (h : p s = .error e s') (he : caught e = true) :
    catching caught p q s = q s' := by
  simp only [catching, h, he, if_true]

variable [DecidableEq σ] {alarm : ε}

theorem watching_of_ok (h : p s = .ok a s') : watching caught alarm p q s = .ok a s' :=
  by rw [watching, h]

theorem watching_of_clean (h : p s = .error e s) (he : caught e = true) :
    watching caught alarm p q s = q s := by
  simp only [watching, h, he, true_and, if_true]

theorem watching_of_error (h : p s = .error e s') (he : ¬ (caught e = true ∧ s' = s)) :
    watching caught alarm p q s = .error alarm s' := by simp only [watching, h, he, if_false]

end

/-- A value that may be missing. -/
def orThrow (e : ε) : Option α → Decoder ε σ α
  | some a => pure a
  | none => throw e

/-! ## Without an alarm -/

/-- The decoder `q` does what `p` does, unless this raises an alarm. -/
def Follows (alarm : ε) (p q : Decoder ε σ α) : Prop :=
  ∀ s, (∃ s', p s = .error alarm s') ∨ q s = p s

variable {alarm e : ε} {p q : Decoder ε σ α} {l l' : List σ} {a : α} {caught : ε → Bool}

theorem Follows.refl (alarm : ε) (p : Decoder ε σ α) : Follows alarm p p := fun _ ↦ .inr rfl

theorem Follows.bind {f g : α → Decoder ε σ β} (h : Follows alarm p q)
    (hf : ∀ a, Follows alarm (f a) (g a)) : Follows alarm (p >>= f) (q >>= g) := by
  intro s
  rcases h s with ⟨s', hs⟩ | hs
  · exact .inl ⟨s', bind_of_error hs⟩
  · cases hp : p s with
    | ok a s' =>
      rw [hp] at hs
      rw [bind_of_ok hp, bind_of_ok hs]
      exact hf a s'
    | error e s' =>
      rw [hp] at hs
      exact .inr (by rw [bind_of_error hp, bind_of_error hs])

theorem Follows.bind_right (p : Decoder ε σ α) {f g : α → Decoder ε σ β}
    (hf : ∀ a, Follows alarm (f a) (g a)) : Follows alarm (p >>= f) (p >>= g) :=
      (Follows.refl alarm p).bind hf

theorem Follows.mapM {f g : β → Decoder ε σ α} (h : ∀ b, Follows alarm (f b) (g b)) (bs : List β) :
    Follows alarm (bs.mapM f) (bs.mapM g) := by
  induction bs with
  | nil => exact Follows.refl alarm _
  | cons b bs ih =>
    rw [List.mapM_cons, List.mapM_cons]
    exact (h b).bind fun a ↦ ih.bind fun as ↦ Follows.refl alarm _

theorem follows_firstOf [DecidableEq σ] (halarm : caught alarm = false) (exhausted : ε)
    {f g : β → Decoder ε σ α} (h : ∀ b, Follows alarm (f b) (g b)) (bs : List β) :
    Follows alarm (firstOf (watching caught alarm) exhausted (bs.map f))
      (firstOf (catching caught) exhausted (bs.map g)) := by
  induction bs with
  | nil => exact Follows.refl alarm _
  | cons b bs ih =>
    intro s
    show (∃ s', watching caught alarm (f b) (firstOf _ _ (bs.map f)) s = _) ∨
      catching caught (g b) (firstOf _ _ (bs.map g)) s = watching caught alarm (f b)
        (firstOf _ _ (bs.map f)) s
    rcases h b s with ⟨s', hs⟩ | hs
    · exact .inl ⟨s', watching_of_error hs fun hc ↦ by rw [halarm] at hc; cases hc.1⟩
    · cases hf : f b s with
      | ok a s' =>
        rw [hf] at hs
        exact .inr (by rw [watching_of_ok hf, catching_of_ok hs])
      | error e s' =>
        rw [hf] at hs
        by_cases hc : caught e = true ∧ s' = s
        · obtain ⟨hc, rfl⟩ := hc
          rw [watching_of_clean hf hc, catching_of_error hs hc]
          exact ih s'
        · exact .inl ⟨s', watching_of_error hf hc⟩

/-! ## What a decoder does with its symbols -/

/-- What a decoder does with symbols that were written for it: it takes them and returns, or it
fails, cleanly if it has not taken anything.  It may raise an alarm, and nothing is said if the
outcome is `unknown`. -/
inductive Outcome (ε α : Type)
  | value (a : α)
  | failure (e : ε) (clean : Bool)
  | alarmed
  | unknown

namespace Outcome

def map (f : α → β) : Outcome ε α → Outcome ε β
  | value a => value (f a)
  | failure e clean => failure e clean
  | alarmed => alarmed
  | unknown => unknown

def ofOption (e : ε) : Option α → Outcome ε α
  | some a => value a
  | none => failure e true

/-- Something has been taken before. -/
def after (taken : Bool) : Outcome ε α → Outcome ε α
  | failure e clean => failure e (clean && !taken)
  | o => o

/-- One decoder after another, if the first one has taken something. -/
def andThen (taken : Bool) (o : Outcome ε α) (f : α → Outcome ε β) : Outcome ε β :=
  match o with
  | value a => (f a).after taken
  | failure e clean => failure e clean
  | alarmed => alarmed
  | unknown => unknown

/-- The first one that does not fail; all others have to be clean. -/
def first (caught : ε → Bool) (exhausted : ε) : List (Outcome ε α) → Outcome ε α
  | [] => failure exhausted true
  | value a :: _ => value a
  | failure e clean :: os => if caught e && clean then first caught exhausted os else alarmed
  | alarmed :: _ => alarmed
  | unknown :: _ => unknown

theorem mem_of_first {caught : ε → Bool} {exhausted : ε} {a : α} {os : List (Outcome ε α)}
    (h : first caught exhausted os = value a) : value a ∈ os := by
  induction os with
  | nil => cases h
  | cons o os ih =>
    cases o with
    | value b =>
      cases h
      exact List.mem_cons_self
    | failure e clean =>
      rw [first] at h
      split at h
      · exact List.mem_cons_of_mem _ (ih h)
      · cases h
    | alarmed => cases h
    | unknown => cases h

theorem after_eq_value {taken : Bool} {o : Outcome ε α} {a : α} (h : o.after taken = value a) :
    o = value a := by
  cases o <;> first | exact h | cases h

theorem exists_of_map_eq_value {o : Outcome ε α} {f : α → β} {b : β} (h : o.map f = value b) :
    ∃ a, o = value a ∧ f a = b := by
  cases o with
  | value a => exact ⟨a, rfl, value.inj h⟩
  | _ => cases h

theorem exists_of_andThen_eq_value {taken : Bool} {o : Outcome ε α} {f : α → Outcome ε β} {b : β}
    (h : o.andThen taken f = value b) : ∃ a, o = value a ∧ f a = value b := by
  cases o with
  | value a => exact ⟨a, rfl, after_eq_value h⟩
  | _ => cases h

theorem eq_some_of_ofOption {e : ε} {o : Option α} {a : α} (h : ofOption e o = value a) :
    o = some a := by
  cases o with
  | some b => rw [value.inj h]
  | none => cases h

end Outcome

/-- The decoder does this with the symbols `l`, whatever comes after them. -/
def Does (alarm : ε) (p : Decoder ε σ α) (l : List σ) : Outcome ε α → Prop
  | .value a => Reads p l a
  | .failure e clean => e ≠ alarm ∧ ∀ rest, ∃ rest', p (l ++ rest) = .error e rest' ∧
      if clean then rest' = l ++ rest else rest'.length < (l ++ rest).length
  | .alarmed => ∀ rest, ∃ rest', p (l ++ rest) = .error alarm rest'
  | .unknown => True

variable {o : Outcome ε α}

theorem Does.congr (hq : Does alarm q l o) (h : ∀ rest, p (l ++ rest) = q (l ++ rest)) :
    Does alarm p l o := by
  cases o with
  | value a => exact fun rest ↦ (h rest).trans (hq rest)
  | failure e clean =>
    exact ⟨hq.1, fun rest ↦ (hq.2 rest).imp fun rest' hrest ↦ ⟨(h rest).trans hrest.1, hrest.2⟩⟩
  | alarmed => exact fun rest ↦ (hq rest).imp fun rest' hrest ↦ (h rest).trans hrest
  | unknown => trivial

theorem does_throw (he : e ≠ alarm) (l : List σ) : Does alarm (throw e : Decoder ε σ α)
    l (.failure e true) :=
  ⟨he, fun rest ↦ ⟨l ++ rest, rfl, rfl⟩⟩

theorem does_orThrow (he : e ≠ alarm) (o : Option α) :
    Does alarm (orThrow e o : Decoder ε σ α) [] (.ofOption e o) := by
  cases o with
  | some a => exact reads_pure a
  | none => exact does_throw he []

variable {f : α → Decoder ε σ β}

theorem Does.bind {g : α → Outcome ε β} {taken : Bool}
    (hp : Does alarm p l o) (htaken : taken = true ↔ l ≠ [])
    (hf : ∀ a, o = .value a → Does alarm (f a) l' (g a)) :
    Does alarm (p >>= f) (l ++ l') (o.andThen taken g) := by
  cases o with
  | value a =>
    have h := hf a rfl
    have hbind : ∀ rest, (p >>= f) (l ++ l' ++ rest) = f a (l' ++ rest) := fun rest ↦ by
      rw [List.append_assoc, bind_of_ok (hp _)]
    show Does alarm _ _ ((g a).after taken)
    cases hg : g a with
    | value b =>
      rw [hg] at h
      exact fun rest ↦ (hbind rest).trans (h rest)
    | failure e clean =>
      rw [hg] at h
      refine ⟨h.1, fun rest ↦ ?_⟩
      obtain ⟨rest', hrest, hlen⟩ := h.2 rest
      refine ⟨rest', (hbind rest).trans hrest, ?_⟩
      cases taken with
      | true =>
        have hpos : 0 < l.length := List.length_pos_iff.mpr (htaken.mp rfl)
        rw [Bool.not_true, Bool.and_false, if_neg (by simp)]
        cases clean with
        | true =>
          rw [if_pos rfl] at hlen
          rw [hlen]
          simp only [List.length_append]
          omega
        | false =>
          rw [if_neg (by simp)] at hlen
          simp only [List.length_append] at hlen ⊢
          omega
      | false =>
        have hnil : l = [] := by
          by_contra hne
          cases htaken.mpr hne
        rwa [Bool.not_false, Bool.and_true, hnil, List.nil_append]
    | alarmed =>
      rw [hg] at h
      exact fun rest ↦ (h rest).imp fun rest' hrest ↦ (hbind rest).trans hrest
    | unknown => trivial
  | failure e clean =>
    refine ⟨hp.1, fun rest ↦ ?_⟩
    obtain ⟨rest', hrest, hlen⟩ := hp.2 (l' ++ rest)
    refine ⟨rest', ?_, ?_⟩
    · rw [List.append_assoc, bind_of_error hrest]
    · rwa [List.append_assoc]
  | alarmed =>
    intro rest
    obtain ⟨rest', hrest⟩ := hp (l' ++ rest)
    exact ⟨rest', by rw [List.append_assoc, bind_of_error hrest]⟩
  | unknown => trivial

/-- Nothing is left for the second decoder. -/
theorem Does.bind_nil {g : α → Outcome ε β} (hp : Does alarm p l o)
    (hl : l ≠ []) (hf : ∀ a, Does alarm (f a) [] (g a)) :
      Does alarm (p >>= f) l (o.andThen true g) := by
  have h := hp.bind (show true = true ↔ l ≠ [] by simp [hl]) fun a _ ↦ hf a
  rwa [List.append_nil] at h

/-- Nothing is taken by the first one. -/
theorem Does.nil_bind {g : α → Outcome ε β} (hp : Does alarm p [] o)
    (hf : ∀ a, o = .value a → Does alarm (f a) l (g a)) :
      Does alarm (p >>= f) l (o.andThen false g) :=
  Does.bind hp (show false = true ↔ ([] : List σ) ≠ [] by simp) hf

theorem Does.map (hp : Does alarm p l o) (f : α → β) :
    Does alarm (p >>= fun a ↦ pure (f a)) l (o.map f) := by
  cases o with
  | value a => exact Reads.map hp f
  | failure e clean =>
    exact ⟨hp.1, fun rest ↦ (hp.2 rest).imp fun rest' h ↦ ⟨bind_of_error h.1, h.2⟩⟩
  | alarmed => exact fun rest ↦ (hp rest).imp fun rest' h ↦ bind_of_error h
  | unknown => trivial

/-- A decoder that takes its symbols, before another one. -/
theorem Reads.does_bind {o : Outcome ε β} (hp : Reads p l a) (hl : l ≠ [])
    (hf : Does alarm (f a) l' o) : Does alarm (p >>= f) (l ++ l') (o.after true) :=
  Does.bind (o := .value a) (g := fun _ ↦ o) hp (show true = true ↔ l ≠ [] by simp [hl])
    fun a' h ↦ by
    cases h
    exact hf

theorem Reads.does_bind_nil {o : Outcome ε β} (hp : Reads p l a) (hl : l ≠ [])
    (hf : Does alarm (f a) [] o) : Does alarm (p >>= f) l (o.after true) := by
  have h := hp.does_bind hl hf
  rwa [List.append_nil] at h

/-- **A choice does what the first alternative does that does not fail.** -/
theorem does_firstOf [DecidableEq σ] (halarm : caught alarm = false) {exhausted : ε}
    (he : exhausted ≠ alarm) {f : β → Decoder ε σ α} {g : β → Outcome ε α}
    (h : ∀ b, Does alarm (f b) l (g b)) (bs : List β) :
    Does alarm (firstOf (watching caught alarm) exhausted (bs.map f))
      l (Outcome.first caught exhausted (bs.map g)) := by
  induction bs with
  | nil => exact does_throw he l
  | cons b bs ih =>
    have hb := h b
    show Does alarm (watching caught alarm (f b) (firstOf _ _ (bs.map f)))
      l (Outcome.first _ _ (g b :: bs.map g))
    cases hg : g b with
    | value a =>
      rw [hg] at hb
      exact fun rest ↦ watching_of_ok (hb rest)
    | failure e clean =>
      rw [hg] at hb
      by_cases hc : caught e = true ∧ clean = true
      · obtain ⟨hc, rfl⟩ := hc
        have hclean : ∀ rest, watching caught alarm (f b)
            (firstOf (watching caught alarm) exhausted (bs.map f)) (l ++ rest) =
            firstOf (watching caught alarm) exhausted (bs.map f) (l ++ rest) := fun rest ↦ by
          obtain ⟨rest', hrest, hlen⟩ := hb.2 rest
          rw [if_pos rfl] at hlen
          exact watching_of_clean (hlen ▸ hrest) hc
        rw [Outcome.first, if_pos (by rw [hc]; rfl)]
        exact ih.congr hclean
      · rw [Outcome.first, if_neg (by simpa using hc)]
        intro rest
        obtain ⟨rest', hrest, hlen⟩ := hb.2 rest
        refine ⟨rest', watching_of_error hrest fun he ↦ hc ⟨he.1, ?_⟩⟩
        cases clean with
        | true => rfl
        | false =>
          rw [if_neg (by simp), he.2] at hlen
          exact absurd hlen (Nat.lt_irrefl _)
    | alarmed =>
      rw [hg] at hb
      exact fun rest ↦ (hb rest).imp fun rest' hrest ↦ watching_of_error hrest fun he ↦ by
        rw [halarm] at he
        cases he.1
    | unknown => trivial

end Decoder
