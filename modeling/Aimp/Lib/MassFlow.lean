import Mathlib.Algebra.Order.BigOperators.Group.Finset
import Mathlib.Algebra.Order.Field.Rat
import Mathlib.Algebra.Ring.GeomSum
import Mathlib.Data.Matrix.Mul
import Mathlib.Data.Rat.Cast.Order
import Mathlib.Logic.Relation
import Mathlib.Tactic.Linarith

/-!
# Mass on an acyclic graph

Every node passes its mass on to its successors: `P u v` is the share of `u` that goes to `v`, and the
shares of a node add up to at most one. On an acyclic graph the mass of a node gets to any other node at
most once, whatever the number of paths between them (`visits_le_one`), so that no node ever holds more
than its own mass and that of its ancestors (`mass_le`).
-/

namespace MassFlow

open Relation

variable {ι : Type*} [Fintype ι] [DecidableEq ι]

/-- How much of the mass of each node gets to each other one on fewer than `n` steps, added up over the
steps. -/
def visits (P : Matrix ι ι ℚ) (n : ℕ) : Matrix ι ι ℚ := ∑ k ∈ Finset.range n, P ^ k

variable {P : Matrix ι ι ℚ}

@[simp] theorem visits_zero : visits P 0 = 0 := by
  simp [visits]

/-- The last step of a path comes after fewer steps. -/
theorem visits_succ (n : ℕ) : visits P (n + 1) = 1 + visits P n * P := by
  unfold visits
  rw [Finset.sum_range_succ', Finset.sum_mul, pow_zero, add_comm]
  simp only [pow_succ]

/-- The first step of a path comes before fewer steps. -/
theorem visits_succ' (n : ℕ) : visits P (n + 1) = 1 + P * visits P n := by
  unfold visits
  rw [geom_sum_succ, add_comm]

/-- One step leads from `u` to `v`. -/
def Step (P : Matrix ι ι ℚ) (u v : ι) : Prop := P u v ≠ 0

/-- Mass only flows along paths. -/
theorem reach_of_visits_ne_zero {n : ℕ} {u v : ι} (h : visits P n u v ≠ 0) :
    u = v ∨ TransGen (Step P) u v := by
  induction n generalizing v with
  | zero => simp at h
  | succ n ih =>
    by_cases huv : u = v
    · exact Or.inl huv
    · right
      rw [visits_succ, Matrix.add_apply, Matrix.one_apply_ne huv, zero_add, Matrix.mul_apply] at h
      obtain ⟨w, -, hw⟩ := Finset.exists_ne_zero_of_sum_ne_zero h
      have hstep : Step P w v := right_ne_zero_of_mul hw
      rcases ih (left_ne_zero_of_mul hw) with rfl | hreach
      · exact .single hstep
      · exact .tail hreach hstep

section Substochastic

variable (hnonneg : ∀ u v, 0 ≤ P u v) (hrow : ∀ u, ∑ v, P u v ≤ 1)
  (hacyclic : ∀ v, ¬ TransGen (Step P) v v)

include hnonneg hrow hacyclic in
/-- The mass of a node gets to any node at most once. -/
theorem visits_le_one (n : ℕ) (u v : ι) : visits P n u v ≤ 1 := by
  induction n generalizing u with
  | zero => simp
  | succ n ih =>
    rw [visits_succ', Matrix.add_apply, Matrix.mul_apply]
    by_cases huv : u = v
    · -- no mass comes back to the node itself
      subst huv
      have hzero : ∑ w, P u w * visits P n w u = 0 := by
        refine Finset.sum_eq_zero fun w _ => ?_
        by_contra hne
        have hstep : Step P u w := left_ne_zero_of_mul hne
        rcases reach_of_visits_ne_zero (right_ne_zero_of_mul hne) with rfl | hback
        · exact hacyclic w (.single hstep)
        · exact hacyclic u (.head hstep hback)
      rw [hzero, Matrix.one_apply_eq, add_zero]
    · rw [Matrix.one_apply_ne huv, zero_add]
      calc ∑ w, P u w * visits P n w v ≤ ∑ w, P u w * 1 :=
            Finset.sum_le_sum fun w _ => mul_le_mul_of_nonneg_left (ih w) (hnonneg u w)
        _ = ∑ w, P u w := by simp only [mul_one]
        _ ≤ 1 := hrow u

variable {base : ι → ℚ} {mass : ℕ → ι → ℚ}

include hnonneg in
/-- The mass of a node stems from the base masses of all nodes. -/
theorem mass_le_sum_visits (hzero : ∀ v, mass 0 v ≤ base v)
    (hstep : ∀ n v, mass (n + 1) v ≤ base v + ∑ u, mass n u * P u v) (n : ℕ) (v : ι) :
    mass n v ≤ ∑ u, base u * visits P (n + 1) u v := by
  have hone : ∀ v, ∑ u, base u * (1 : Matrix ι ι ℚ) u v = base v := by
    intro v
    simp [Matrix.one_apply]
  induction n generalizing v with
  | zero =>
    have hvisits : visits P 1 = 1 := by
      rw [visits_succ, visits_zero, zero_mul, add_zero]
    rw [zero_add, hvisits, hone]
    exact hzero v
  | succ n ih =>
    calc mass (n + 1) v ≤ base v + ∑ w, mass n w * P w v := hstep n v
      _ ≤ base v + ∑ w, (∑ u, base u * visits P (n + 1) u w) * P w v := by
          have hle := fun w => mul_le_mul_of_nonneg_right (ih w) (hnonneg w v)
          have hsum := Finset.sum_le_sum fun w (_ : w ∈ Finset.univ) => hle w
          linarith
      _ = ∑ u, base u * visits P (n + 1 + 1) u v := by
          rw [visits_succ (n + 1)]
          simp only [Matrix.add_apply, Matrix.mul_apply, mul_add, Finset.sum_add_distrib, hone,
            Finset.sum_mul, Finset.mul_sum, mul_assoc]
          rw [Finset.sum_comm]

include hnonneg hrow hacyclic in
open Classical in
/-- A node never holds more than its own base mass and that of its ancestors, each counted once. -/
theorem mass_le (base : ι → ℚ) (mass : ℕ → ι → ℚ) (hbase : ∀ v, 0 ≤ base v)
    (hzero : ∀ v, mass 0 v ≤ base v)
    (hstep : ∀ n v, mass (n + 1) v ≤ base v + ∑ u, mass n u * P u v) (n : ℕ) (v : ι) :
    mass n v ≤ base v + ∑ u with TransGen (Step P) u v, base u := by
  refine (mass_le_sum_visits hnonneg hzero hstep n v).trans ?_
  have hterm : ∀ u, base u * visits P (n + 1) u v ≤
      (if u = v then base u else 0) + if TransGen (Step P) u v then base u else 0 := by
    intro u
    have hle := mul_le_mul_of_nonneg_left (visits_le_one hnonneg hrow hacyclic (n + 1) u v) (hbase u)
    rw [mul_one] at hle
    by_cases hreach : TransGen (Step P) u v
    · rw [if_pos hreach]
      have hif : 0 ≤ if u = v then base u else 0 := by
        split
        · exact hbase u
        · exact le_rfl
      linarith
    · rw [if_neg hreach, add_zero]
      split
      · exact hle
      · rename_i huv
        have hnone : visits P (n + 1) u v = 0 := by
          by_contra hne
          exact (reach_of_visits_ne_zero hne).elim huv hreach
        rw [hnone, mul_zero]
  refine (Finset.sum_le_sum fun u _ => hterm u).trans (le_of_eq ?_)
  rw [Finset.sum_add_distrib, Finset.sum_filter]
  simp

end Substochastic

end MassFlow
