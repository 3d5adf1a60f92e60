import Tigon.Lib.While

/-!
# Counting through combinations

A combination takes one element from each of several wheels.  A loop goes through all of them with a
position for each wheel, as an odometer does: the first wheel is turned on, and a wheel that has
come round turns the next one.

* `returns_run` — **the loop ends, with every combination once**, in the order of `List.sections`.
-/

set_option autoImplicit false

namespace Odometer

universe u

variable {α β : Type u}

/-- Turn to the next combination, if there is one. -/
def advance : List (List α) → List Nat → Option (List Nat)
  | w :: ws, p :: ps =>
    if w.length ≤ p + 1 then (advance ws ps).map (0 :: ·) else some ((p + 1) :: ps)
  | _, _ => none

/-- The combination at the positions. -/
def pick : List (List α) → List Nat → Option (List α)
  | w :: ws, p :: ps => do return (← w[p]?) :: (← pick ws ps)
  | _, _ => some []

/-- Go on from some positions, and make something of each combination. -/
def run (wheels : List (List α)) (f : List α → β) : Nat → List Nat → List β → Option (List β)
  | 0, _, _ => none
  | fuel + 1, pos, acc => do
    let acc := acc ++ [f (← pick wheels pos)]
    match advance wheels pos with
    | some pos => run wheels f fuel pos acc
    | none => some acc

/-- The combinations from some positions on. -/
inductive Visits (wheels : List (List α)) : List Nat → List (List α) → Prop
  | last {pos : List Nat} {s : List α} (hpick : pick wheels pos = some s)
    (hlast : advance wheels pos = none) : Visits wheels pos [s]
  | next {pos pos' : List Nat} {s : List α} {l : List (List α)} (hpick : pick wheels pos = some s)
    (hnext : advance wheels pos = some pos') (h : Visits wheels pos' l) : Visits wheels pos (s :: l)

variable {wheels ws : List (List α)} {w s : List α} {pos ps : List Nat}
  {l : List (List α)} {p : Nat}

theorem run_of_visits (f : List α → β) (h : Visits wheels pos l) {fuel : Nat}
    (hfuel : l.length ≤ fuel) (acc : List β) : run wheels f fuel pos acc =
      some (acc ++ l.map f) := by
  induction h generalizing fuel acc with
  | last hpick hlast =>
    obtain ⟨fuel, rfl⟩ := Nat.exists_eq_add_of_le' hfuel
    simp [run, hpick, hlast]
  | next hpick hnext _ ih =>
    obtain ⟨fuel, rfl⟩ := Nat.exists_eq_add_of_le' ((Nat.succ_le_succ (Nat.zero_le _)).trans hfuel)
    simp [run, hpick, hnext, ih (Nat.le_of_succ_le_succ hfuel)]

/-- The first wheel comes round, and what is to follow follows. -/
theorem visits_wheel (hpick : pick ws ps = some s)
    (hrest : (advance ws ps = none ∧ l = []) ∨ ∃ ps', advance ws ps = some ps' ∧
      Visits (w :: ws) (0 :: ps') l)
    (hp : p < w.length) : Visits (w :: ws) (p :: ps) ((w.drop p).map (· :: s) ++ l) := by
  induction hn : w.length - p using Nat.strong_induction_on generalizing p with
  | _ n ih =>
    have hhere : pick (w :: ws) (p :: ps) = some (w[p] :: s) := by
      rw [pick, List.getElem?_eq_getElem hp, hpick]
      rfl
    rw [List.drop_eq_getElem_cons hp, List.map_cons, List.cons_append]
    by_cases hround : w.length ≤ p + 1
    · have hadvance : advance (w :: ws) (p :: ps) = (advance ws ps).map (0 :: ·) :=
        by rw [advance, if_pos hround]
      rw [List.drop_eq_nil_of_le hround, List.map_nil, List.nil_append]
      rcases hrest with ⟨hnone, rfl⟩ | ⟨ps', hsome, hvisits⟩
      · exact .last hhere (by rw [hadvance, hnone]; rfl)
      · exact .next hhere (by rw [hadvance, hsome]; rfl) hvisits
    · refine .next hhere (by rw [advance, if_neg hround]) ?_
      exact ih (w.length - (p + 1)) (by omega) (by omega) rfl

theorem visits_cons (hw : w ≠ []) (h : Visits ws ps (s :: l)) (hp : p < w.length) :
    Visits (w :: ws) (p :: ps) ((w.drop p).map (· :: s) ++ l.flatMap fun s ↦ w.map (· :: s)) := by
  generalize hcombs : s :: l = combs at h
  induction h generalizing s l p with
  | last hpick hlast =>
    cases hcombs
    exact visits_wheel hpick (.inl ⟨hlast, rfl⟩) hp
  | @next pos pos' s' l' hpick hnext h ih =>
    cases hcombs
    refine visits_wheel hpick (.inr ⟨pos', hnext, ?_⟩) hp
    cases l' with
    | nil => cases h
    | cons s₂ l₂ =>
      have hvisits := ih (List.length_pos_iff.mpr hw) rfl
      rwa [List.drop_zero] at hvisits

theorem visits_sections (hwheels : ∀ w ∈ wheels, w ≠ []) : Visits wheels (wheels.map fun _ ↦ 0)
    wheels.sections := by
  induction wheels with
  | nil => exact .last rfl rfl
  | cons w ws ih =>
    have hvisits := ih fun w hw ↦ hwheels w (List.mem_cons_of_mem _ hw)
    rw [List.map_cons, List.sections]
    cases hsections : ws.sections with
    | nil =>
      rw [hsections] at hvisits
      cases hvisits
    | cons s l =>
      rw [hsections] at hvisits
      have hw := hwheels w List.mem_cons_self
      have h := visits_cons hw hvisits (List.length_pos_iff.mpr hw)
      rwa [List.drop_zero] at h

/-- **Every combination comes once.** -/
theorem returns_run (f : List α → β) (hwheels : ∀ w ∈ wheels, w ≠ []) :
    While.Returns (fun fuel ↦ run wheels f fuel (wheels.map fun _ ↦ 0) [])
      (wheels.sections.map f) :=
  ⟨_, fun _ hfuel ↦ run_of_visits f (visits_sections hwheels) hfuel []⟩

end Odometer
