import Mathlib.Data.List.DropRight
import Mathlib.Data.List.Nodup

/-!
# Sequences without recent repetitions

A sequence is *spaced* by `n` if no element is among the `n` elements before it. Then any `n` consecutive
elements are distinct, and between two occurrences of an element there are `n` others.
-/

namespace Recent

variable {α : Type*} {n : ℕ} {l : List α} {s : α}

/-- No element is among the `n` elements before it. -/
def Spaced (n : ℕ) (l : List α) : Prop := ∀ A s C, l = A ++ s :: C → s ∉ A.rtake n

theorem spaced_nil : Spaced n ([] : List α) := by
  intro A s C h
  simp at h

theorem spaced_concat : Spaced n (l ++ [s]) ↔ Spaced n l ∧ s ∉ l.rtake n := by
  constructor
  · intro h
    refine ⟨?_, h l s [] rfl⟩
    rintro A x C rfl
    exact h A x (C ++ [s]) (by simp)
  · rintro ⟨hl, hs⟩ A x C h
    rcases List.eq_nil_or_concat C with rfl | ⟨D, y, rfl⟩
    · obtain ⟨rfl, hx⟩ := List.append_inj' h rfl
      obtain rfl := List.singleton_inj.mp hx
      exact hs
    · rw [List.concat_eq_append, ← List.cons_append, ← List.append_assoc] at h
      exact hl A x D (List.append_inj' h rfl).1

/-- The last `n` elements are distinct. -/
theorem Spaced.nodup (h : Spaced n l) : (l.rtake n).Nodup := by
  induction l using List.reverseRecOn with
  | nil => simp
  | append_singleton l s ih =>
    obtain ⟨hl, hs⟩ := spaced_concat.mp h
    cases n with
    | zero => simp
    | succ n =>
      have hsub : (l.rtake n).Sublist (l.rtake (n + 1)) :=
        List.drop_sublist_drop_left l (by omega)
      rw [List.rtake_concat_succ, List.nodup_append]
      refine ⟨(ih hl).sublist hsub, List.nodup_singleton s, ?_⟩
      rintro x hx y hy rfl
      rw [List.mem_singleton] at hy
      exact hs (hsub.subset (hy ▸ hx))

theorem length_rtake (n : ℕ) (l : List α) : (l.rtake n).length = min n l.length := by
  rw [List.rtake, List.length_drop]
  omega

/-- One element less: the oldest one is left out. -/
theorem rtake_eq_tail (h : n < l.length) : l.rtake n = (l.rtake (n + 1)).tail := by
  unfold List.rtake
  rw [← List.drop_one, List.drop_drop]
  congr 1
  omega

theorem rtake_of_length_le (h : l.length ≤ n) : l.rtake n = l := by
  rw [List.rtake, Nat.sub_eq_zero_of_le h, List.drop_zero]

/-- The last `n` elements, if what comes last has that many. -/
theorem rtake_append {A B : List α} (h : n ≤ B.length) : (A ++ B).rtake n = B.rtake n := by
  have hlen : (A ++ B).length - n = A.length + (B.length - n) := by
    rw [List.length_append]
    omega
  unfold List.rtake
  rw [hlen, List.drop_length_add_append]

/-- Between two occurrences of an element there are `n` distinct others. -/
theorem Spaced.between {A B C : List α} (h : Spaced n (A ++ s :: B ++ s :: C)) :
    ∃ W : List α, W.Nodup ∧ W.length = n ∧ s ∉ W ∧ ∀ w ∈ W, w ∈ B := by
  have hs := h (A ++ s :: B) s C rfl
  have hnd : ((A ++ s :: B).rtake n).Nodup := by
    apply Spaced.nodup
    rintro A' x C' heq
    exact h A' x (C' ++ s :: C) (by rw [heq]; simp)
  have hlen : n ≤ B.length := by
    by_contra hlt
    apply hs
    have hdrop : (A ++ s :: B).length - n ≤ A.length := by
      rw [List.length_append, List.length_cons]
      omega
    unfold List.rtake
    rw [List.drop_append_of_le_length hdrop]
    exact List.mem_append_right _ List.mem_cons_self
  have heq : (A ++ s :: B).rtake n = B.rtake n := by
    rw [List.append_cons]
    exact rtake_append hlen
  rw [heq] at hs hnd
  refine ⟨B.rtake n, hnd, ?_, hs, fun w hw => List.mem_of_mem_drop hw⟩
  rw [length_rtake]
  omega

end Recent
