import Mathlib.Data.List.Chain
import Mathlib.Logic.Function.Iterate
import Mathlib.Order.Basic
import Mathlib.Tactic.TypeStar

/-!
# Iteration with an early exit

A loop that applies a step a bounded number of times and stops when a round changes nothing. Seen
through an abstraction that the step respects, stopping early makes no difference
(`map_iterateUntil`). If the step computes the value at a point from the values at the points it depends
on, then the iterates stand still once the dependencies cannot be followed any further
(`iterate_eq_of_within`). A step that keeps the order as long as the larger state is a good one keeps it
over a run of good states (`iterate_le_iterate`).
-/

namespace FixedPoint

variable {σ τ : Type*}

/-- At most `n` rounds of `step`, until one changes nothing. -/
def iterateUntil (changed : σ → σ → Bool) (step : σ → σ) : ℕ → σ → σ
  | 0, s => s
  | n + 1, s => if changed s (step s) then iterateUntil changed step n (step s) else step s

variable {changed : σ → σ → Bool} {step : σ → σ} {flow : τ → τ} {P : σ → Prop}

/-- If `step` computes `flow` on the states with the invariant `P`, and a round that changes nothing
leaves the abstract state alone, then the loop computes the iterates of `flow`. -/
theorem map_iterateUntil (abs : σ → τ) (hP : ∀ s, P s → P (step s))
    (hstep : ∀ s, P s → abs (step s) = flow (abs s))
    (hsame : ∀ s, P s → changed s (step s) = false → abs (step s) = abs s) (n : ℕ) {s : σ}
    (hs : P s) : abs (iterateUntil changed step n s) = flow^[n] (abs s) := by
  induction n generalizing s with
  | zero => rfl
  | succ n ih =>
    rw [Function.iterate_succ_apply, iterateUntil, ← hstep s hs]
    cases h : changed s (step s) with
    | true => exact ih (hP s hs)
    | false =>
      have heq := hsame s hs h
      have hfixed : flow (abs s) = abs s := (hstep s hs).symm.trans heq
      rw [heq, Function.iterate_fixed hfixed]
      exact heq

theorem iterateUntil_of_fixed (changed : σ → σ → Bool) {s : σ} (h : step s = s) (n : ℕ) :
    iterateUntil changed step n s = s := by
  induction n with
  | zero => rfl
  | succ n ih =>
    rw [iterateUntil, h]
    split
    · exact ih
    · rfl

theorem iterateUntil_succ (changed : σ → σ → Bool) (step : σ → σ) (n : ℕ) (s : σ) :
    ∃ s', iterateUntil changed step (n + 1) s = step s' := by
  induction n generalizing s with
  | zero =>
    refine ⟨s, ?_⟩
    rw [iterateUntil]
    split <;> rfl
  | succ n ih =>
    rw [iterateUntil]
    split
    · exact ih (step s)
    · exact ⟨s, rfl⟩

/-! ## Order -/

section Order

variable [Preorder τ] {G : τ → τ} {Good : τ → Prop} {s t : τ} {m n : ℕ}

/-- Two runs stay in order while the states of the larger one are good. -/
theorem iterate_le_iterate (hstep : ∀ s t, s ≤ t → Good t → flow s ≤ G t) (hst : s ≤ t)
    (hgood : ∀ k < n, Good (G^[k] t)) : flow^[n] s ≤ G^[n] t := by
  induction n with
  | zero => exact hst
  | succ n ih =>
    rw [Function.iterate_succ_apply', Function.iterate_succ_apply']
    exact hstep _ _ (ih fun k hk => hgood k (Nat.lt_succ_of_lt hk)) (hgood n n.lt_succ_self)

/-- A run that the first step takes up never goes down while its states are good. -/
theorem iterate_le_of_le (hstep : ∀ s t, s ≤ t → Good t → G s ≤ G t) (ht : t ≤ G t)
    (hgood : ∀ k < n, Good (G^[k] t)) (hmn : m ≤ n) : G^[m] t ≤ G^[n] t := by
  have hsucc : ∀ k < n, G^[k] t ≤ G^[k + 1] t := by
    intro k
    induction k with
    | zero => exact fun _ => ht
    | succ k ih =>
      intro hk
      have hle := hstep _ _ (ih (by omega)) (hgood (k + 1) hk)
      rwa [← Function.iterate_succ_apply' G k, ← Function.iterate_succ_apply' G (k + 1)] at hle
  induction n, hmn using Nat.le_induction with
  | base => exact le_rfl
  | succ n hmn ih =>
    exact (ih (fun k hk => hgood k (by omega)) fun k hk => hsucc k (by omega)).trans
      (hsucc n n.lt_succ_self)

end Order

/-! ## Dependencies -/

section Dependencies

variable {ι α : Type*} {dep : ι → ι → Prop}

/-- The dependencies of `v` can be followed back at most `k` times. -/
def Within (dep : ι → ι → Prop) : ℕ → ι → Prop
  | 0, v => ∀ u, ¬ dep u v
  | k + 1, v => ∀ u, dep u v → Within dep k u

/-- Otherwise there is a chain of `k + 1` dependencies. -/
theorem exists_chain_of_not_within {k : ℕ} {v : ι} (h : ¬ Within dep k v) :
    ∃ l : List ι, (l ++ [v]).IsChain dep ∧ l.length = k + 1 := by
  induction k generalizing v with
  | zero =>
    obtain ⟨u, hu⟩ : ∃ u, dep u v := by
      simpa [Within] using h
    exact ⟨[u], by simp [hu], rfl⟩
  | succ k ih =>
    obtain ⟨u, hu, hnot⟩ : ∃ u, dep u v ∧ ¬ Within dep k u := by
      simpa [Within] using h
    obtain ⟨l, hl, hlen⟩ := ih hnot
    refine ⟨l ++ [u], List.isChain_append.mpr ⟨hl, List.isChain_singleton v, ?_⟩, by simp [hlen]⟩
    simpa using hu

variable {F : (ι → α) → ι → α} {start : ι → α}

/-- Where the dependencies of a point reach back `k` times, all iterates from the `k`-th on agree. -/
theorem iterate_eq_of_within (hcongr : ∀ s t v, (∀ u, dep u v → s u = t u) → F s v = F t v)
    (hleaf : ∀ s v, (∀ u, ¬ dep u v) → F s v = start v) {k n m : ℕ} {v : ι} (h : Within dep k v)
    (hn : k ≤ n) (hm : k ≤ m) : F^[n] start v = F^[m] start v := by
  induction k generalizing n m v with
  | zero =>
    have hstart : ∀ i, F^[i] start v = start v := by
      intro i
      cases i with
      | zero => rfl
      | succ i =>
        rw [Function.iterate_succ_apply']
        exact hleaf _ v h
    rw [hstart, hstart]
  | succ k ih =>
    obtain ⟨n, rfl⟩ : ∃ i, n = i + 1 := ⟨n - 1, by omega⟩
    obtain ⟨m, rfl⟩ : ∃ i, m = i + 1 := ⟨m - 1, by omega⟩
    rw [Function.iterate_succ_apply', Function.iterate_succ_apply']
    exact hcongr _ _ v fun u hu => ih (h u hu) (by omega) (by omega)

end Dependencies

end FixedPoint
