import Mathlib

/-!
# The last maximum

A scan that drops the best element so far for the next one unless that is worse finds the last element with
the greatest key. It finds the same element in every order of the list exactly if only one element has the
greatest key (`lastMax_perm_iff`).
-/

namespace LastMax

variable {α β : Type*} [LinearOrder β] {key : α → β} {l : List α} {best x : α}

/-- The better one of two elements, or else the second. -/
def pick (key : α → β) (best x : α) : α := if key x < key best then best else x

/-- The last element with the greatest key. -/
def lastMax (key : α → β) : List α → Option α
  | [] => none
  | x :: xs => some (xs.foldl (pick key) x)

theorem pick_of_le (h : key best ≤ key x) : pick key best x = x := if_neg (not_lt.mpr h)

theorem le_pick (key : α → β) (best x : α) :
    key best ≤ key (pick key best x) ∧ key x ≤ key (pick key best x) := by
  unfold pick
  split
  · rename_i h
    exact ⟨le_rfl, h.le⟩
  · rename_i h
    exact ⟨not_lt.mp h, le_rfl⟩

theorem pick_eq_or (key : α → β) (best x : α) : pick key best x = best ∨ pick key best x = x := by
  unfold pick
  split
  · exact Or.inl rfl
  · exact Or.inr rfl

theorem lastMax_concat (key : α → β) (l : List α) (x : α) :
    lastMax key (l ++ [x]) = some ((lastMax key l).elim x fun best => pick key best x) := by
  cases l with
  | nil => rfl
  | cons y ys =>
    rw [List.cons_append, lastMax, List.foldl_append]
    rfl

/-- A nonempty list has a maximum. -/
theorem exists_lastMax (key : α → β) (h : l ≠ []) : ∃ best, lastMax key l = some best := by
  cases l with
  | nil => exact absurd rfl h
  | cons x xs => exact ⟨_, rfl⟩

/-- What is found is in the list, and nothing in the list is better. -/
theorem lastMax_spec (h : lastMax key l = some best) : best ∈ l ∧ ∀ x ∈ l, key x ≤ key best := by
  induction l using List.reverseRecOn generalizing best with
  | nil => cases h
  | append_singleton l x ih =>
    rw [lastMax_concat, Option.some_inj] at h
    cases hl : lastMax key l with
    | none =>
      rw [hl, Option.elim_none] at h
      obtain rfl : l = [] := by
        by_contra hne
        obtain ⟨y, hy⟩ := exists_lastMax key hne
        rw [hl] at hy
        cases hy
      subst h
      exact ⟨List.mem_singleton_self x, fun y hy => (List.mem_singleton.mp hy ▸ le_rfl)⟩
    | some y =>
      rw [hl, Option.elim_some] at h
      subst h
      obtain ⟨hmem, hle⟩ := ih hl
      obtain ⟨hy, hx⟩ := le_pick key y x
      constructor
      · rcases pick_eq_or key y x with h | h
        · rw [h]
          exact List.mem_append_left _ hmem
        · rw [h]
          exact List.mem_append_right _ (List.mem_singleton_self x)
      · intro z hz
        rcases List.mem_append.mp hz with hz | hz
        · exact (hle z hz).trans hy
        · rw [List.mem_singleton.mp hz]
          exact hx

/-- An element that comes last and is not worse than any other is found. -/
theorem lastMax_concat_of_le (h : ∀ y ∈ l, key y ≤ key x) : lastMax key (l ++ [x]) = some x := by
  rw [lastMax_concat]
  cases hl : lastMax key l with
  | none => rfl
  | some best => rw [Option.elim_some, pick_of_le (h best (lastMax_spec hl).1)]

/-- The same element is found in every order if and only if it is better than all others. -/
theorem lastMax_perm_iff (key : α → β) (hne : l ≠ []) :
    (∀ l', l'.Perm l → lastMax key l' = lastMax key l) ↔
      ∃ best ∈ l, ∀ x ∈ l, x ≠ best → key x < key best := by
  constructor
  · intro h
    obtain ⟨best, hbest⟩ := exists_lastMax key hne
    obtain ⟨hmem, hle⟩ := lastMax_spec hbest
    refine ⟨best, hmem, fun x hx hxne => ?_⟩
    by_contra hnot
    -- an element as good as the one that is found comes last in some other order
    obtain ⟨A, B, rfl⟩ := List.append_of_mem hx
    have hperm : ((A ++ B) ++ [x]).Perm (A ++ x :: B) := by
      rw [List.append_assoc]
      exact (List.perm_append_singleton x B).append_left A
    have hlast : lastMax key ((A ++ B) ++ [x]) = some x := by
      refine lastMax_concat_of_le fun y hy => ?_
      have hy' : y ∈ A ++ x :: B := hperm.subset (List.mem_append_left _ hy)
      exact (hle y hy').trans (not_lt.mp hnot)
    rw [h _ hperm, hbest] at hlast
    exact hxne (Option.some_inj.mp hlast).symm
  · rintro ⟨best, hmem, hbest⟩ l' hperm
    have hfound : ∀ l', l'.Perm l → lastMax key l' = some best := by
      intro l' hperm
      have hne' : l' ≠ [] := by
        rintro rfl
        exact hne hperm.symm.eq_nil
      obtain ⟨x, hx⟩ := exists_lastMax key hne'
      obtain ⟨hxmem, hxle⟩ := lastMax_spec hx
      have heq : x = best := by
        by_contra hxne
        have hlt := hbest x (hperm.subset hxmem) hxne
        exact absurd (hxle best (hperm.symm.subset hmem)) (not_le.mpr hlt)
      rw [hx, heq]
    rw [hfound l' hperm, hfound l (List.Perm.refl l)]

end LastMax
