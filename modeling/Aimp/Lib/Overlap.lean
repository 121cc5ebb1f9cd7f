import Mathlib.Data.List.Basic
import Mathlib.Order.Bounds.Basic
import Mathlib.Order.Lattice
import Mathlib.Order.MinMax

/-!
# Intervals that overlap

Intervals of a linear order, as pairs of a lower and an upper end. Narrowing one interval to its common
part with another one falls back to the hull if they have none. Narrowed to one after another, an interval
ends up inside all of them exactly if any two of them overlap; then they all have a point in common, and
the outcome is exactly their common part (`inside_iff_meet`, `foldl_narrow_common`).
-/

namespace Overlap

variable {α : Type*} [LinearOrder α] {a b r : α × α} {l l' : List (α × α)}

/-- The common part, or the hull if there is none. -/
def narrow (a b : α × α) : α × α :=
  if max a.1 b.1 ≤ min a.2 b.2 then (max a.1 b.1, min a.2 b.2) else (min a.1 b.1, max a.2 b.2)

/-- Any two of the intervals overlap, and none of them is upside down. -/
def Meet (l : List (α × α)) : Prop := ∀ x ∈ l, ∀ y ∈ l, x.1 ≤ y.2

/-- `r` is the common part of the intervals. -/
def Common (l : List (α × α)) (r : α × α) : Prop :=
  IsGreatest {x | ∃ i ∈ l, i.1 = x} r.1 ∧ IsLeast {x | ∃ i ∈ l, i.2 = x} r.2

theorem Common.unique (h : Common l a) (h' : Common l b) : a = b :=
  Prod.ext (h.1.unique h'.1) (h.2.unique h'.2)

theorem Common.perm (h : Common l r) (hperm : l'.Perm l) : Common l' r := by
  unfold Common at h ⊢
  simpa only [hperm.mem_iff] using h

theorem Meet.ends (h : Meet (a :: b :: l)) : max a.1 b.1 ≤ min a.2 b.2 := by
  have ha : a ∈ a :: b :: l := List.mem_cons_self ..
  have hb : b ∈ a :: b :: l := List.mem_cons_of_mem a (List.mem_cons_self ..)
  apply max_le
  · exact le_min (h a ha a ha) (h a ha b hb)
  · exact le_min (h b hb a ha) (h b hb b hb)

theorem narrow_of_meet (h : Meet (a :: b :: l)) : narrow a b = (max a.1 b.1, min a.2 b.2) :=
  if_pos h.ends

/-- The common part of two intervals overlaps with all that both of them overlap with. -/
theorem Meet.narrow (h : Meet (a :: b :: l)) : Meet (narrow a b :: l) := by
  have hnarrow := narrow_of_meet h
  have ha : a ∈ a :: b :: l := List.mem_cons_self ..
  have hb : b ∈ a :: b :: l := List.mem_cons_of_mem a (List.mem_cons_self ..)
  have hl : ∀ x ∈ l, x ∈ a :: b :: l := fun x hx => by simp [hx]
  intro x hx y hy
  rcases List.mem_cons.mp hx with rfl | hx <;> rcases List.mem_cons.mp hy with rfl | hy
  · rw [hnarrow]
    exact h.ends
  · rw [hnarrow]
    exact max_le (h a ha y (hl y hy)) (h b hb y (hl y hy))
  · rw [hnarrow]
    exact le_min (h x (hl x hx) a ha) (h x (hl x hx) b hb)
  · exact h x (hl x hx) y (hl y hy)

/-- Replacing two intervals by their common part changes nothing. -/
theorem Common.of_narrow (hnarrow : Overlap.narrow a b = (max a.1 b.1, min a.2 b.2))
    (h : Common (Overlap.narrow a b :: l) r) : Common (a :: b :: l) r := by
  rw [hnarrow] at h
  obtain ⟨⟨⟨i, hi, hi1⟩, hub⟩, ⟨j, hj, hj2⟩, hlb⟩ := h
  refine ⟨⟨?_, ?_⟩, ?_, ?_⟩
  · rcases List.mem_cons.mp hi with rfl | hi
    · rcases max_choice a.1 b.1 with hmax | hmax
      · exact ⟨a, by simp, hmax.symm.trans hi1⟩
      · exact ⟨b, by simp, hmax.symm.trans hi1⟩
    · exact ⟨i, by simp [hi], hi1⟩
  · have hmax : max a.1 b.1 ≤ r.1 := hub ⟨_, List.mem_cons_self .., rfl⟩
    rintro x ⟨k, hk, rfl⟩
    rcases List.mem_cons.mp hk with rfl | hk
    · exact (le_max_left _ _).trans hmax
    · rcases List.mem_cons.mp hk with rfl | hk
      · exact (le_max_right _ _).trans hmax
      · exact hub ⟨k, List.mem_cons_of_mem _ hk, rfl⟩
  · rcases List.mem_cons.mp hj with rfl | hj
    · rcases min_choice a.2 b.2 with hmin | hmin
      · exact ⟨a, by simp, hmin.symm.trans hj2⟩
      · exact ⟨b, by simp, hmin.symm.trans hj2⟩
    · exact ⟨j, by simp [hj], hj2⟩
  · have hmin : r.2 ≤ min a.2 b.2 := hlb ⟨_, List.mem_cons_self .., rfl⟩
    rintro x ⟨k, hk, rfl⟩
    rcases List.mem_cons.mp hk with rfl | hk
    · exact hmin.trans (min_le_left _ _)
    · rcases List.mem_cons.mp hk with rfl | hk
      · exact hmin.trans (min_le_right _ _)
      · exact hlb ⟨k, List.mem_cons_of_mem _ hk, rfl⟩

/-- Intervals of which any two overlap have a common part, and narrowing finds it. -/
theorem foldl_narrow_common (h : Meet (a :: l)) : Common (a :: l) (l.foldl narrow a) := by
  induction l generalizing a with
  | nil => simp [Common, IsGreatest, IsLeast, upperBounds, lowerBounds]
  | cons b l ih => exact (ih h.narrow).of_narrow (narrow_of_meet h)

theorem narrow_ordered (ha : a.1 ≤ a.2) : (narrow a b).1 ≤ (narrow a b).2 := by
  unfold narrow
  split
  · assumption
  · exact (min_le_left _ _).trans (ha.trans (le_max_left _ _))

theorem foldl_narrow_ordered (h : ∀ x ∈ a :: l, x.1 ≤ x.2) :
    (l.foldl narrow a).1 ≤ (l.foldl narrow a).2 := by
  induction l generalizing a with
  | nil => exact h a (List.mem_cons_self ..)
  | cons b l ih =>
    obtain ⟨ha, -, hl⟩ := by simpa only [List.forall_mem_cons] using h
    exact ih (List.forall_mem_cons.mpr ⟨narrow_ordered ha, hl⟩)

/-- The outcome lies inside every interval if and only if any two of them overlap. -/
theorem inside_iff_meet (h : ∀ x ∈ a :: l, x.1 ≤ x.2) :
    (∀ x ∈ a :: l, x.1 ≤ (l.foldl narrow a).1 ∧ (l.foldl narrow a).2 ≤ x.2) ↔ Meet (a :: l) := by
  constructor
  · intro hinside x hx y hy
    exact (hinside x hx).1.trans ((foldl_narrow_ordered h).trans (hinside y hy).2)
  · intro hmeet x hx
    obtain ⟨hgreatest, hleast⟩ := foldl_narrow_common hmeet
    exact ⟨hgreatest.2 ⟨x, hx, rfl⟩, hleast.2 ⟨x, hx, rfl⟩⟩

end Overlap
