import Mathlib

/-!
# Runs of a transition system whose steps meet a condition

A system is given by a partial step function `step : σ → α → Option σ`: an action is either
refused in a state or leads to one successor.  `Run step ok s as t` says that the actions `as`
lead from `s` to `t`, and that each of them was taken in a state in which the condition `ok`
allows it.  Taking `ok` to be `fun _ _ ↦ True` gives the plain runs; anything smaller gives the
runs that stay away from some behaviour.

* `Run.invariant` is the induction rule: what one allowed step preserves, every run preserves.
* `Run.countP_add_le` bounds the number of steps of some kind by a measure they lower.
* `Trace step ok ρ` says that `ρ` is an infinite run; `Trace.invariant` is its induction rule, and
  `Run.exists_trace` puts a run before it.
* `exec` computes the end of a run, and `run_of_exec` turns such a computation into a `Run`.
-/

set_option autoImplicit false

namespace Lts

universe u v

variable {σ : Type u} {α : Type v}

/-- `Run step ok s as t`: the actions `as`, each of them allowed by `ok` in the state it is taken
in, lead from `s` to `t`. -/
inductive Run (step : σ → α → Option σ) (ok : σ → α → Prop) (s : σ) : List α → σ → Prop
  | refl : Run step ok s [] s
  | snoc {as : List α} {t u : σ} {a : α} (h : Run step ok s as t) (hok : ok t a)
      (hstep : step t a = some u) : Run step ok s (as ++ [a]) u

variable {step : σ → α → Option σ} {ok ok' : σ → α → Prop} {s t u : σ} {as bs : List α}

/-- **The induction rule.**  A property that every allowed step preserves is preserved by every
run of allowed steps. -/
theorem Run.invariant {I : σ → Prop}
    (hI : ∀ {s t : σ} {a : α}, I s → ok s a → step s a = some t → I t)
    (h : Run step ok s as t) (hs : I s) : I t := by
  induction h with
  | refl => exact hs
  | snoc _ hok hstep ih => exact hI ih hok hstep

/-- A run that meets a condition meets every weaker one. -/
theorem Run.mono (hmono : ∀ s a, ok s a → ok' s a) (h : Run step ok s as t) :
    Run step ok' s as t := by
  induction h with
  | refl => exact .refl
  | snoc _ hok hstep ih => exact ih.snoc (hmono _ _ hok) hstep

theorem Run.append (h : Run step ok s as t) (h' : Run step ok t bs u) :
    Run step ok s (as ++ bs) u := by
  induction h' with
  | refl => simpa using h
  | snoc _ hok hstep ih => simpa using ih.snoc hok hstep

theorem Run.single {a : α} (hok : ok s a) (hstep : step s a = some t) : Run step ok s [a] t := by
  have h : Run step ok s [] s := .refl
  simpa using h.snoc hok hstep

/-- **Counting.**  If no allowed step raises a measure, and those of some kind lower it, then it
bounds the number of steps of that kind in a run. -/
theorem Run.countP_add_le {I : σ → Prop} (p : α → Bool) (μ : σ → Nat)
    (hI : ∀ {s t : σ} {a : α}, I s → ok s a → step s a = some t → I t)
    (hμ : ∀ {s t : σ} {a : α}, I s → ok s a → step s a = some t →
      μ t + (if p a then 1 else 0) ≤ μ s)
    (h : Run step ok s as t) (hs : I s) : as.countP p + μ t ≤ μ s := by
  induction h with
  | refl => simp
  | snoc h hok hstep ih =>
    have := hμ (h.invariant hI hs) hok hstep
    rw [List.countP_append, List.countP_singleton]
    omega

/-! ## Infinite runs -/

/-- An infinite run: every state leads to the next by an allowed step. -/
def Trace (step : σ → α → Option σ) (ok : σ → α → Prop) (ρ : Nat → σ) : Prop :=
  ∀ k, ∃ a, ok (ρ k) a ∧ step (ρ k) a = some (ρ (k + 1))

variable {ρ : Nat → σ}

theorem Trace.mono (hmono : ∀ s a, ok s a → ok' s a) (h : Trace step ok ρ) :
    Trace step ok' ρ := fun k ↦ by
  obtain ⟨a, hok, hstep⟩ := h k
  exact ⟨a, hmono _ _ hok, hstep⟩

/-- A later state is reached from an earlier one. -/
theorem Trace.run (h : Trace step ok ρ) {i j : Nat} (hij : i ≤ j) :
    ∃ as, Run step ok (ρ i) as (ρ j) := by
  induction hij with
  | refl => exact ⟨[], .refl⟩
  | step _ ih =>
    obtain ⟨as, hrun⟩ := ih
    obtain ⟨a, hok, hstep⟩ := h _
    exact ⟨as ++ [a], hrun.snoc hok hstep⟩

/-- An infinite run from where a run ends is an infinite run from where it begins. -/
theorem Run.exists_trace (h : Run step ok s as t) (hρ : Trace step ok ρ) (hzero : ρ 0 = t) :
    ∃ ρ', Trace step ok ρ' ∧ ρ' 0 = s ∧ ∀ k, ρ' (as.length + k) = ρ k := by
  induction h generalizing ρ with
  | refl => exact ⟨ρ, hρ, hzero, fun k ↦ by rw [List.length_nil, Nat.zero_add]⟩
  | snoc _ hok hstep ih =>
    rename_i bs t' _ a _
    let ρ₁ : Nat → σ := fun k ↦ Nat.casesOn k t' ρ
    have hρ₁ : Trace step ok ρ₁ := fun k ↦ by
      cases k with
      | zero => exact ⟨a, hok, hstep.trans (congrArg some hzero.symm)⟩
      | succ k => exact hρ k
    obtain ⟨ρ', hρ', hzero', hlater⟩ := ih hρ₁ rfl
    refine ⟨ρ', hρ', hzero', fun k ↦ ?_⟩
    rw [List.length_append, List.length_singleton, Nat.add_assoc, Nat.add_comm 1 k]
    exact hlater (k + 1)

/-- The induction rule, from some state of an infinite run on. -/
theorem Trace.invariant {I : Nat → Prop} {i j : Nat} (hij : i ≤ j) (h : Trace step ok ρ)
    (hI : ∀ k a, i ≤ k → I k → ok (ρ k) a → step (ρ k) a = some (ρ (k + 1)) → I (k + 1))
    (hi : I i) : I j := by
  induction hij with
  | refl => exact hi
  | step hle ih =>
    obtain ⟨a, hok, hstep⟩ := h _
    exact hI _ a hle ih hok hstep

/-- A measure that never goes up comes to rest. -/
theorem exists_forall_ge_eq (μ : Nat → Nat) (hμ : ∀ k, μ (k + 1) ≤ μ k) :
    ∃ i, ∀ j, i ≤ j → μ j = μ i := by
  obtain ⟨i, hi⟩ := WellFoundedGT.monotone_chain_condition
    (⟨fun k ↦ OrderDual.toDual (μ k), fun _ _ h ↦ antitone_nat_of_succ_le hμ h⟩ : Nat →o Natᵒᵈ)
  exact ⟨i, fun j hij ↦ (OrderDual.toDual_inj.mp (hi j hij)).symm⟩

/-! ## Computing runs -/

/-- The end of the run with the given actions, if every one of them is allowed and accepted. -/
def exec (step : σ → α → Option σ) (ok : σ → α → Prop) [∀ s a, Decidable (ok s a)] (s : σ) :
    List α → Option σ
  | [] => some s
  | a :: as => if ok s a then (step s a).bind fun t ↦ exec step ok t as else none

/-- What `exec` computes is a run. -/
theorem run_of_exec [∀ s a, Decidable (ok s a)] (h : exec step ok s as = some t) :
    Run step ok s as t := by
  induction as generalizing s with
  | nil =>
    rw [exec, Option.some_inj] at h
    exact h ▸ .refl
  | cons a as ih =>
    rw [exec] at h
    split at h
    · rename_i hok
      obtain ⟨s', hs', ht⟩ := Option.bind_eq_some_iff.mp h
      exact (Run.single hok hs').append (ih ht)
    · exact absurd h (by simp)

/-- A computation that ends in a state with the property `p` is a run to such a state. -/
theorem exists_run_of_exec (step : σ → α → Option σ) (ok : σ → α → Prop)
    [∀ s a, Decidable (ok s a)] (s : σ) (as : List α) (p : σ → Prop) [DecidablePred p]
    (h : ((exec step ok s as).any fun t ↦ decide (p t)) = true) :
    ∃ t, Run step ok s as t ∧ p t := by
  cases he : exec step ok s as with
  | none =>
    rw [he] at h
    exact absurd h (by simp)
  | some t =>
    rw [he] at h
    exact ⟨t, run_of_exec he, of_decide_eq_true h⟩

end Lts
