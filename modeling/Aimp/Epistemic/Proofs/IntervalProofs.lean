import Aimp.Epistemic.Interval
import Aimp.Lib.Overlap
import Mathlib.Tactic.Linarith

/-!
# Confidence intervals

What the operations keep of the order of the bounds, and when narrowing keeps its promise: narrowed to
other intervals one after another, an interval ends up inside all of them exactly if any two of them
overlap, and then in the same place in every order.
-/

namespace Aimp.Epistemic

namespace ConfidenceInterval

variable {i j other : ConfidenceInterval} {l : List ConfidenceInterval}

/-- The bounds are in order. -/
def Ordered (i : ConfidenceInterval) : Prop := i.lower.value ≤ i.upper.value

instance (i : ConfidenceInterval) : Decidable i.Ordered :=
  inferInstanceAs (Decidable (i.lower.value ≤ i.upper.value))

/-- `i` lies inside of `other`. -/
def Inside (i other : ConfidenceInterval) : Prop :=
  other.lower.value ≤ i.lower.value ∧ i.upper.value ≤ other.upper.value

/-- The intervals have a value in common. -/
def Overlaps (i other : ConfidenceInterval) : Prop :=
  i.lower.value ≤ other.upper.value ∧ other.lower.value ≤ i.upper.value

instance (i other : ConfidenceInterval) : Decidable (i.Overlaps other) :=
  inferInstanceAs (Decidable (_ ∧ _))

instance : Std.Symm Overlaps where
  symm _ _ h := ⟨h.2, h.1⟩

/-! ## Order of the bounds -/

theorem exactly_ordered (value : LogOdds) : (exactly value).Ordered := le_refl _

theorem new_ordered (lower upper : LogOdds) : (new lower upper).Ordered := by
  unfold Ordered new
  simp

theorem ofInt_mono {x y : ℤ} (h : x ≤ y) : (LogOdds.ofInt x).value ≤ (LogOdds.ofInt y).value :=
  max_le_max (le_refl _) (min_le_min h (le_refl _))

theorem aggregate_ordered (l : List ConfidenceInterval) : (aggregate l).Ordered := by
  cases l with
  | nil => exact exactly_ordered _
  | cons i l =>
    unfold Ordered aggregate
    apply ofInt_mono
    have h := (clamp_mem (show 0 ≤ i32Max by decide)
      (((l.map (·.upper.value)).foldl max i.upper.value
        - (l.map (·.lower.value)).foldl min i.lower.value).tdiv 2)).1
    linarith

/-- The uncertainty is zero for a single value, and for nothing else. -/
theorem width_eq_zero_iff (h : i.Ordered) : i.width = 0 ↔ i = exactly i.lower := by
  unfold Ordered at h
  unfold width clamp i32Min i32Max
  constructor
  · intro hwidth
    have hvalue : i.upper.value = i.lower.value := by omega
    exact ConfidenceInterval.ext rfl (LogOdds.ext hvalue)
  · intro hexact
    have hvalue : i.upper.value = i.lower.value := by rw [hexact, exactly]
    omega

theorem tdiv_two (x : ℤ) : x.tdiv 2 = if 0 ≤ x then x / 2 else -(-x / 2) := by
  split
  · exact Int.tdiv_eq_ediv_of_nonneg ‹_›
  · rw [← Int.tdiv_eq_ediv_of_nonneg (show 0 ≤ -x by omega), Int.neg_tdiv, neg_neg]

/-- The best guess lies within the bounds, unless all of the interval is more than half of the range
away from zero. -/
theorem midpoint_mem_iff (h : i.Ordered) :
    (i.lower.value ≤ i.midpoint.value ∧ i.midpoint.value ≤ i.upper.value) ↔
      (i.lower.value < 2 ^ 30 ∧ -2 ^ 30 ≤ i.upper.value) := by
  obtain ⟨⟨lower, hlower⟩, upper, hupper⟩ := i
  unfold Ordered at h
  unfold midpoint LogOdds.ofInt clamp i32Min i32Max
  unfold i32Min i32Max at hlower hupper
  dsimp only at h ⊢
  rw [tdiv_two]
  split <;> omega

/-! ## Narrowing -/

/-- The bounds as a pair of numbers. -/
def bounds (i : ConfidenceInterval) : ℤ × ℤ := (i.lower.value, i.upper.value)

theorem bounds_injective : Function.Injective bounds := by
  intro i j h
  rw [bounds, bounds, Prod.mk.injEq] at h
  exact ConfidenceInterval.ext (LogOdds.ext h.1) (LogOdds.ext h.2)

theorem bounds_narrow : (i.narrow other).bounds = Overlap.narrow i.bounds other.bounds := by
  unfold bounds narrow Overlap.narrow
  split_ifs with h h' h'
  · exact absurd h (not_lt.mpr h')
  · simp
  · simp
  · exact absurd (not_lt.mp h) h'

theorem bounds_foldl_narrow :
    (l.foldl narrow i).bounds = (l.map bounds).foldl Overlap.narrow i.bounds := by
  induction l generalizing i with
  | nil => rfl
  | cons j l ih =>
    simp only [List.foldl_cons, List.map_cons]
    rw [ih, bounds_narrow]

theorem meet_bounds_iff (h : ∀ x ∈ l, x.Ordered) :
    Overlap.Meet (l.map bounds) ↔ l.Pairwise Overlaps := by
  unfold Overlap.Meet bounds
  simp only [List.forall_mem_map]
  constructor
  · intro hmeet
    exact List.pairwise_of_forall_mem_list fun x hx y hy => ⟨hmeet x hx y hy, hmeet y hy x hx⟩
  · intro hoverlaps x hx y hy
    have hall : ∀ x ∈ l, ∀ y ∈ l, x.Overlaps y :=
      fun x hx y hy => hoverlaps.forall_of_forall (fun z hz => ⟨h z hz, h z hz⟩) hx hy
    exact (hall x hx y hy).1

theorem ordered_bounds (h : ∀ x ∈ i :: l, x.Ordered) :
    ∀ x ∈ i.bounds :: l.map bounds, x.1 ≤ x.2 := by
  rw [← List.map_cons, List.forall_mem_map]
  exact h

theorem common_of_pairwise (h : ∀ x ∈ i :: l, x.Ordered) (hoverlaps : (i :: l).Pairwise Overlaps) :
    Overlap.Common ((i :: l).map bounds) (l.foldl narrow i).bounds := by
  rw [bounds_foldl_narrow]
  exact Overlap.foldl_narrow_common ((meet_bounds_iff h).mpr hoverlaps)

/-- Narrowed to one after another, intervals agree exactly if any two of them overlap: then the outcome lies
inside all of them, and is the same in every order. -/
theorem foldl_narrow_inside_iff (i : ConfidenceInterval) (l : List ConfidenceInterval)
    (h : ∀ x ∈ i :: l, x.Ordered) :
    ((∀ x ∈ i :: l, (l.foldl narrow i).Inside x) ↔ (i :: l).Pairwise Overlaps) ∧
      ((i :: l).Pairwise Overlaps → ∀ j l', (j :: l').Perm (i :: l) →
        l'.foldl narrow j = l.foldl narrow i) := by
  constructor
  · have hinside := Overlap.inside_iff_meet (ordered_bounds h)
    rw [← bounds_foldl_narrow, ← List.map_cons, meet_bounds_iff h, List.forall_mem_map] at hinside
    exact hinside
  · intro hoverlaps j l' hperm
    have hordered : ∀ x ∈ j :: l', x.Ordered := fun x hx => h x (hperm.subset hx)
    have hoverlaps' : (j :: l').Pairwise Overlaps :=
      hperm.symm.pairwise hoverlaps symm
    have hcommon := (common_of_pairwise h hoverlaps).perm (hperm.map bounds)
    exact bounds_injective ((common_of_pairwise hordered hoverlaps').unique hcommon)

theorem foldl_narrow_inside_iff_samples :
    (∀ x ∈ [exactly ⟨1000, isI32_1000⟩, ⟨⟨1000, isI32_1000⟩, ⟨5000, isI32_5000⟩⟩],
      ([⟨⟨1000, isI32_1000⟩, ⟨5000, isI32_5000⟩⟩].foldl narrow (exactly ⟨1000, isI32_1000⟩)).Inside x) ∧
      (exactly ⟨1000, isI32_1000⟩).Ordered :=
  ⟨(foldl_narrow_inside_iff (exactly ⟨1000, isI32_1000⟩)
    [⟨⟨1000, isI32_1000⟩, ⟨5000, isI32_5000⟩⟩] (by decide)).1.mpr (by decide), exactly_ordered _⟩

-- Without an overlap the order matters: the middle one of three values, if last, makes the others forgotten.
example :
    [exactly ⟨5000, isI32_5000⟩, exactly ⟨2000, isI32_2000⟩].foldl narrow (exactly ⟨1000, isI32_1000⟩) ≠
      [exactly ⟨2000, isI32_2000⟩, exactly ⟨5000, isI32_5000⟩].foldl narrow
        (exactly ⟨1000, isI32_1000⟩) := by
  decide

end ConfidenceInterval

end Aimp.Epistemic
