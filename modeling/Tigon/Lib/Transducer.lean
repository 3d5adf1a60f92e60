import Mathlib

/-!
# Stream transducers

An operator on streams takes one element at a time, changes its state and puts out any number of
elements.  `run step s xs` is what becomes of the state `s` when the elements `xs` arrive, with
everything that was put out on the way; `log` collects some other trace of the same run, and
`Guarded step ok s xs` says that each element arrived in a state in which `ok` allows it.

A fact about every run is proved by an induction that takes the elements off the *end* of the input:
the last step starts in the state that the run before it has reached.  The `_snoc` lemmas are the
equations for that induction.
-/

set_option autoImplicit false

namespace Transducer

universe u v w

variable {σ : Type u} {ι : Type v} {β : Type w}

/-- The state reached and the elements put out. -/
def run (step : σ → ι → σ × List β) (s : σ) : List ι → σ × List β
  | [] => (s, [])
  | x :: xs => ((run step (step s x).1 xs).1, (step s x).2 ++ (run step (step s x).1 xs).2)

/-- A trace of the run: what `g` sees of each step. -/
def log {γ : Type w} (step : σ → ι → σ × List β) (g : σ → ι → List γ) (s : σ) : List ι → List γ
  | [] => []
  | x :: xs => g s x ++ log step g (step s x).1 xs

/-- Each element arrives in a state in which `ok` allows it. -/
def Guarded (step : σ → ι → σ × List β) (ok : σ → ι → Prop) (s : σ) : List ι → Prop
  | [] => True
  | x :: xs => ok s x ∧ Guarded step ok (step s x).1 xs

variable {γ : Type w} (step : σ → ι → σ × List β) (g : σ → ι → List γ) (ok : σ → ι → Prop)
variable (s : σ) (xs ys : List ι) (x : ι)

@[simp] theorem run_nil : run step s [] = (s, []) := rfl

@[simp] theorem log_nil : log step g s [] = [] := rfl

@[simp] theorem guarded_nil : Guarded step ok s [] := trivial

theorem run_append :
    run step s (xs ++ ys) =
      ((run step (run step s xs).1 ys).1, (run step s xs).2 ++
        (run step (run step s xs).1 ys).2) := by
  induction xs generalizing s with
  | nil => rfl
  | cons x xs ih => simp only [List.cons_append, run, ih, List.append_assoc]

theorem run_snoc :
    run step s (xs ++ [x]) =
      ((step (run step s xs).1 x).1, (run step s xs).2 ++ (step (run step s xs).1 x).2) := by
  rw [run_append]
  simp [run]

theorem log_snoc :
    log step g s (xs ++ [x]) = log step g s xs ++ g (run step s xs).1 x := by
  induction xs generalizing s with
  | nil => simp [log]
  | cons x' xs ih => simp only [List.cons_append, log, run, ih, List.append_assoc]

theorem guarded_snoc :
    Guarded step ok s (xs ++ [x]) ↔ Guarded step ok s xs ∧ ok (run step s xs).1 x := by
  induction xs generalizing s with
  | nil => simp [Guarded]
  | cons x' xs ih => simp only [List.cons_append, Guarded, run, ih, and_assoc]

instance [∀ s x, Decidable (ok s x)] : (s : σ) → (xs : List ι) → Decidable (Guarded step ok s xs)
  | _, [] => inferInstanceAs (Decidable True)
  | s, x :: xs => @instDecidableAnd _ _ _ (instDecidableGuarded (step s x).1 xs)

end Transducer
