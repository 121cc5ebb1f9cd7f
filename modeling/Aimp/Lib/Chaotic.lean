import Aimp.Lib.Run
import Mathlib.Order.Bounds.Basic
import Mathlib.Order.Monotone.Defs

/-!
# Chaotic iteration

A family of monotone operators on an ordered set is applied in any order, an operator only where it
makes the state larger. No run gets past a state that all operators keep (`le_of_run`), so a run that
can go no further ends at the least such state above its start (`isLeast_of_run`), whatever the order.
A measure that the moves increase bounds the length of the runs (`length_add_le`), and there is a run
that can go no further (`exists_stuck`).
-/

namespace Chaotic

variable {α ι : Type*} [PartialOrder α] {f : ι → α → α} {x y z : α} {is : List ι}

/-- Apply the operator `i`, where it makes the state larger. -/
def Move (f : ι → α → α) (x : α) (i : ι) (y : α) : Prop := y = f i x ∧ x < y

/-- The states above `x` that no operator leads out of. -/
def closedAbove (f : ι → α → α) (x : α) : Set α := {z | x ≤ z ∧ ∀ i, f i z ≤ z}

theorem start_le (hrun : Run (Move f) x is y) : x ≤ y :=
  hrun.invariant le_rfl fun h hmove => h.trans hmove.2.le

theorem le_of_run (hmono : ∀ i, Monotone (f i)) (hrun : Run (Move f) x is y)
    (hz : z ∈ closedAbove f x) : y ≤ z := by
  refine hrun.invariant (P := (· ≤ z)) hz.1 ?_
  intro u i v hu hmove
  rw [hmove.1]
  exact (hmono i hu).trans (hz.2 i)

/-- The end of a run that can go no further does not depend on the order of the moves. -/
theorem isLeast_of_run (hmono : ∀ i, Monotone (f i)) (hrun : Run (Move f) x is y)
    (hstuck : ∀ i, f i y ≤ y) : IsLeast (closedAbove f x) y :=
  ⟨⟨start_le hrun, hstuck⟩, fun _ hz => le_of_run hmono hrun hz⟩

variable {μ : α → ℕ}

theorem length_add_le (hμ : StrictMono μ) (hrun : Run (Move f) x is y) :
    is.length + μ x ≤ μ y := by
  induction hrun with
  | nil => simp
  | snoc _ hmove ih =>
    have hlt := hμ hmove.2
    simp only [List.length_append, List.length_singleton]
    omega

/-- If the measure is bounded along the runs, some run goes as far as it can. -/
theorem exists_stuck (hμ : StrictMono μ) {b : ℕ}
    (hb : ∀ is y, Run (Move f) x is y → μ y ≤ b) :
    ∃ is y, Run (Move f) x is y ∧ ∀ i, ¬ y < f i y := by
  have hext : ∀ k is y, Run (Move f) x is y → b - μ y = k →
      ∃ is y, Run (Move f) x is y ∧ ∀ i, ¬ y < f i y := by
    intro k
    induction k using Nat.strong_induction_on with
    | _ k ih =>
      intro is y hrun hk
      by_cases hstuck : ∃ i, y < f i y
      · obtain ⟨i, hi⟩ := hstuck
        have hrun' : Run (Move f) x (is ++ [i]) (f i y) := hrun.snoc ⟨rfl, hi⟩
        have hlt := hμ hi
        have hle := hb _ _ hrun'
        exact ih _ (by omega) _ _ hrun' rfl
      · exact ⟨is, y, hrun, not_exists.mp hstuck⟩
  exact hext _ _ _ .nil rfl

end Chaotic
