import Mathlib.Data.List.Count
import Mathlib.Data.List.Induction
import Mathlib.Data.Nat.Basic
import Mathlib.Tactic.TypeStar

/-!
# Greedy choice of pairs

Pairs are taken one after another unless an endpoint has been taken `k` times before. Every element is then
an endpoint of at most `k` pairs (`degree_greedy_le`), and no pair is left out without need
(`greedy_maximal`).
-/

namespace BoundedDegree

variable {α : Type*} [DecidableEq α] {k : ℕ} {chosen pairs : List (α × α)} {p : α × α} {v : α}

/-- How many times an element is an endpoint. -/
def degree (v : α) (chosen : List (α × α)) : ℕ :=
  chosen.countP (fun p => p.1 = v) + chosen.countP fun p => p.2 = v

/-- Take a pair, unless an endpoint is full. -/
def take (k : ℕ) (chosen : List (α × α)) (p : α × α) : List (α × α) :=
  if k ≤ degree p.1 chosen ∨ k ≤ degree p.2 chosen then chosen else chosen ++ [p]

/-- The pairs that are taken. -/
def greedy (k : ℕ) (pairs : List (α × α)) : List (α × α) := pairs.foldl (take k) []

theorem greedy_concat (k : ℕ) (pairs : List (α × α)) (p : α × α) :
    greedy k (pairs ++ [p]) = take k (greedy k pairs) p := by
  unfold greedy
  rw [List.foldl_append]
  rfl

theorem degree_concat (v : α) (chosen : List (α × α)) (p : α × α) :
    degree v (chosen ++ [p]) =
      degree v chosen + ((if p.1 = v then 1 else 0) + if p.2 = v then 1 else 0) := by
  unfold degree
  rw [List.countP_append, List.countP_append, List.countP_singleton, List.countP_singleton]
  simp only [decide_eq_true_eq]
  omega

/-- A step takes the pair or finds an endpoint full. -/
theorem take_cases (k : ℕ) (chosen : List (α × α)) (p : α × α) :
    (take k chosen p = chosen ∧ (k ≤ degree p.1 chosen ∨ k ≤ degree p.2 chosen)) ∨
      (take k chosen p = chosen ++ [p] ∧ degree p.1 chosen < k ∧ degree p.2 chosen < k) := by
  unfold take
  by_cases h : k ≤ degree p.1 chosen ∨ k ≤ degree p.2 chosen
  · exact Or.inl ⟨if_pos h, h⟩
  · rw [not_or, not_le, not_le] at h
    refine Or.inr ⟨if_neg ?_, h⟩
    omega

theorem degree_le_take (k : ℕ) (chosen : List (α × α)) (p : α × α) (v : α) :
    degree v chosen ≤ degree v (take k chosen p) := by
  rcases take_cases k chosen p with ⟨h, _⟩ | ⟨h, _⟩
  · rw [h]
  · rw [h, degree_concat]
    exact Nat.le_add_right _ _

theorem greedy_sublist (k : ℕ) (pairs : List (α × α)) : (greedy k pairs).Sublist pairs := by
  induction pairs using List.reverseRecOn with
  | nil => exact .slnil
  | append_singleton pairs p ih =>
    rw [greedy_concat]
    rcases take_cases k (greedy k pairs) p with ⟨h, _⟩ | ⟨h, _⟩
    · rw [h]
      exact ih.trans (List.sublist_append_left pairs [p])
    · rw [h]
      exact ih.append (List.Sublist.refl [p])

/-- No element is taken more than `k` times. -/
theorem degree_greedy_le (h : ∀ p ∈ pairs, p.1 ≠ p.2) : degree v (greedy k pairs) ≤ k := by
  induction pairs using List.reverseRecOn with
  | nil => exact Nat.zero_le k
  | append_singleton pairs p ih =>
    have hne : p.1 ≠ p.2 := h p (List.mem_append_right _ (List.mem_singleton_self p))
    have hle := ih fun q hq => h q (List.mem_append_left _ hq)
    rw [greedy_concat]
    rcases take_cases k (greedy k pairs) p with ⟨heq, _⟩ | ⟨heq, hlt₁, hlt₂⟩
    · rw [heq]
      exact hle
    · rw [heq, degree_concat]
      by_cases h₁ : p.1 = v
      · rw [h₁] at hlt₁ hne
        rw [if_pos h₁, if_neg hne.symm]
        omega
      · by_cases h₂ : p.2 = v
        · rw [h₂] at hlt₂
          rw [if_neg h₁, if_pos h₂]
          omega
        · rw [if_neg h₁, if_neg h₂]
          exact hle

/-- A pair that is not taken has a full endpoint. -/
theorem greedy_maximal (h : p ∈ pairs) :
    p ∈ greedy k pairs ∨ k ≤ degree p.1 (greedy k pairs) ∨ k ≤ degree p.2 (greedy k pairs) := by
  induction pairs using List.reverseRecOn with
  | nil => cases h
  | append_singleton pairs q ih =>
    rw [greedy_concat]
    rcases List.mem_append.mp h with h | h
    · rcases ih h with hmem | hfull | hfull
      · rcases take_cases k (greedy k pairs) q with ⟨heq, _⟩ | ⟨heq, _⟩
        · rw [heq]
          exact Or.inl hmem
        · rw [heq]
          exact Or.inl (List.mem_append_left _ hmem)
      · exact Or.inr (Or.inl (le_trans hfull (degree_le_take ..)))
      · exact Or.inr (Or.inr (le_trans hfull (degree_le_take ..)))
    · obtain rfl := List.mem_singleton.mp h
      rcases take_cases k (greedy k pairs) p with ⟨heq, hfull⟩ | ⟨heq, _⟩
      · rw [heq]
        exact Or.inr hfull
      · rw [heq]
        exact Or.inl (List.mem_append_right _ (List.mem_singleton_self p))

/-- Where no pair is a loop, the degree counts the pairs at an element. -/
theorem countP_endpoint (h : ∀ p ∈ chosen, p.1 ≠ p.2) (v : α) :
    chosen.countP (fun p => p.1 = v ∨ p.2 = v) = degree v chosen := by
  induction chosen using List.reverseRecOn with
  | nil => rfl
  | append_singleton chosen p ih =>
    have hne : p.1 ≠ p.2 := h p (List.mem_append_right _ (List.mem_singleton_self p))
    rw [List.countP_append, ih fun q hq => h q (List.mem_append_left _ hq), degree_concat,
      List.countP_singleton]
    congr 1
    by_cases h₁ : p.1 = v
    · rw [h₁] at hne
      simp [h₁, hne.symm]
    · by_cases h₂ : p.2 = v
      · simp [h₁, h₂]
      · simp [h₁, h₂]

end BoundedDegree
