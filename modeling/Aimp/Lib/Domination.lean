import Mathlib.Data.List.Sort

/-!
# Domination of sorted lists

A list is dominated by another one of the same length if each of its values is at most the value in the
same place there. Sorting both lists keeps this, however differently the two are permuted
(`forall₂_insertionSort`), also when the values are first sent through a strictly increasing map
(`forall₂_insertionSort_map`).
-/

namespace Domination

variable {α : Type*} [LinearOrder α] {l l' : List α} {a b : α}

/-- A value that is put in front is dominated by a value that is inserted. -/
theorem forall₂_cons_orderedInsert (h : List.Forall₂ (· ≤ ·) l l')
    (hsorted : (a :: l).Pairwise (· ≥ ·)) (hab : a ≤ b) :
    List.Forall₂ (· ≤ ·) (a :: l) (l'.orderedInsert (· ≥ ·) b) := by
  induction h generalizing a with
  | nil => exact .cons hab .nil
  | @cons x x' l l' hx hrest ih =>
    obtain ⟨ha, hsorted⟩ := List.pairwise_cons.mp hsorted
    have hxa : x ≤ a := ha x (List.mem_cons_self ..)
    rw [List.orderedInsert_cons]
    split
    · exact .cons hab (.cons hx hrest)
    · rename_i hlt
      exact .cons (hab.trans (not_le.mp hlt).le) (ih hsorted (hxa.trans hab))

/-- A value that is inserted is dominated by a value that is put in front. -/
theorem forall₂_orderedInsert_cons (h : List.Forall₂ (· ≤ ·) l l')
    (hsorted : (b :: l').Pairwise (· ≥ ·)) (hab : a ≤ b) :
    List.Forall₂ (· ≤ ·) (l.orderedInsert (· ≥ ·) a) (b :: l') := by
  induction h generalizing b with
  | nil => exact .cons hab .nil
  | @cons x x' l l' hx hrest ih =>
    obtain ⟨hb, hsorted⟩ := List.pairwise_cons.mp hsorted
    have hxb : x' ≤ b := hb x' (List.mem_cons_self ..)
    rw [List.orderedInsert_cons]
    split
    · exact .cons hab (.cons hx hrest)
    · rename_i hlt
      exact .cons (hx.trans hxb) (ih hsorted ((not_le.mp hlt).le.trans hx))

theorem forall₂_orderedInsert (h : List.Forall₂ (· ≤ ·) l l') (hl : l.Pairwise (· ≥ ·))
    (hl' : l'.Pairwise (· ≥ ·)) (hab : a ≤ b) :
    List.Forall₂ (· ≤ ·) (l.orderedInsert (· ≥ ·) a) (l'.orderedInsert (· ≥ ·) b) := by
  induction h with
  | nil => exact .cons hab .nil
  | @cons x x' l l' hx hrest ih =>
    rw [List.orderedInsert_cons, List.orderedInsert_cons]
    split
    · rename_i hxa
      split
      · exact .cons hab (.cons hx hrest)
      · -- only the smaller value stays in front
        rename_i hlt
        exact .cons (hab.trans (not_le.mp hlt).le)
          (forall₂_cons_orderedInsert hrest hl (le_trans hxa hab))
    · rename_i hlt
      split
      · -- only the larger value stays in front
        rename_i hxb
        exact .cons (hx.trans hxb)
          (forall₂_orderedInsert_cons hrest hl' ((not_le.mp hlt).le.trans hx))
      · exact .cons hx (ih (List.pairwise_cons.mp hl).2 (List.pairwise_cons.mp hl').2)

/-- Sorting keeps domination. -/
theorem forall₂_insertionSort (h : List.Forall₂ (· ≤ ·) l l') :
    List.Forall₂ (· ≤ ·) (l.insertionSort (· ≥ ·)) (l'.insertionSort (· ≥ ·)) := by
  induction h with
  | nil => exact .nil
  | cons hab _ ih =>
    exact forall₂_orderedInsert ih (List.pairwise_insertionSort _ _)
      (List.pairwise_insertionSort _ _) hab

/-- Sorting keeps domination of the images under a strictly increasing map. -/
theorem forall₂_insertionSort_map {f : α → α} (hf : StrictMono f)
    (h : List.Forall₂ (fun a b => f a ≤ b) l l') :
    List.Forall₂ (fun a b => f a ≤ b) (l.insertionSort (· ≥ ·)) (l'.insertionSort (· ≥ ·)) := by
  have hsort := forall₂_insertionSort (List.forall₂_map_left_iff.mpr h)
  rw [← List.map_insertionSort (· ≥ ·) (· ≥ ·) f l fun a _ b _ => hf.le_iff_le.symm] at hsort
  exact List.forall₂_map_left_iff.mp hsort

end Domination
