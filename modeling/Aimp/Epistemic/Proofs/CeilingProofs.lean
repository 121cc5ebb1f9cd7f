import Aimp.Epistemic.Proofs.AggregateProofs
import Mathlib.Algebra.Order.Floor.Ring
import Mathlib.Data.Rat.Floor

/-!
# The ceiling of unassessed evidence

The discounts of each level add up to a bounded weight, so unassessed evidence of any amount, split into
groups in any way, is worth no more than a few of its strongest items (`unassessed_ceiling`).
-/

namespace Aimp.Epistemic

/-! ## Weights -/

/-- The sum of `n` discount factors from a rank on. -/
def totalWeight (discountBps : ℕ) : ℕ → ℕ → ℕ
  | _, 0 => 0
  | rank, n + 1 => discountFactor rank discountBps + totalWeight discountBps (rank + 1) n

theorem totalWeight_add (discountBps rank n m : ℕ) :
    totalWeight discountBps rank (n + m) =
      totalWeight discountBps rank n + totalWeight discountBps (rank + n) m := by
  induction n generalizing rank with
  | zero => simp [totalWeight]
  | succ n ih =>
    rw [Nat.succ_add, totalWeight, totalWeight, ih, ← Nat.add_assoc, Nat.add_right_comm rank,
      ← Nat.add_assoc rank]

theorem totalWeight_mono (discountBps rank : ℕ) {n m : ℕ} (h : n ≤ m) :
    totalWeight discountBps rank n ≤ totalWeight discountBps rank m := by
  obtain ⟨k, rfl⟩ := Nat.exists_eq_add_of_le h
  rw [totalWeight_add]
  exact Nat.le_add_right _ _

/-- From the eighth rank on the discount within a group leaves nothing. -/
theorem discountFactor_default (rank : ℕ) : discountFactor (8 + rank) defaultDiscountBps = 0 := by
  have hmin : min (8 + rank) maxDiscountDepth = min rank 22 + 8 := by
    unfold maxDiscountDepth
    omega
  rw [discountFactor, hmin, Function.iterate_add_apply]
  exact Function.iterate_fixed (by decide) _

theorem totalWeight_default_tail (rank n : ℕ) : totalWeight defaultDiscountBps (8 + rank) n = 0 := by
  induction n generalizing rank with
  | zero => rfl
  | succ n ih => rw [totalWeight, discountFactor_default, Nat.add_assoc, ih]

/-- The weight of a group. -/
theorem totalWeight_default_le (n : ℕ) : totalWeight defaultDiscountBps 0 n ≤ 14284 := by
  have hle := totalWeight_mono defaultDiscountBps 0 (Nat.le_add_left n 8)
  have hhead : totalWeight defaultDiscountBps 0 8 = 14284 := by decide
  rw [totalWeight_add, hhead] at hle
  exact hle.trans_eq (by rw [Nat.zero_add, ← Nat.add_zero 8, totalWeight_default_tail])

/-- The weight of the unassessed groups. -/
theorem totalWeight_unassessed_le {n : ℕ} (h : n ≤ maxDiscountDepth) :
    totalWeight unassessedDiscountBps 0 n ≤ 50000 :=
  (totalWeight_mono unassessedDiscountBps 0 h).trans (by decide)

/-! ## Discounted sums -/

/-- Discounting a value that does not overflow. -/
theorem abs_discounted_le {discountBps : ℕ} (hd : discountBps ≤ 10000) (rank : ℕ) {x : ℤ}
    (hx : |x| * 10000 ≤ i64Max) :
    10000 * |(wrapI64 (x * wrapI64 (discountFactor rank discountBps))).tdiv 10000| ≤
      |x| * discountFactor rank discountBps := by
  have hf := discountFactor_le hd rank
  have hf0 : (0 : ℤ) ≤ discountFactor rank discountBps := Int.natCast_nonneg _
  have hf' : (discountFactor rank discountBps : ℤ) ≤ 10000 := by exact_mod_cast hf
  have habs : |x * discountFactor rank discountBps| = |x| * discountFactor rank discountBps := by
    rw [abs_mul, abs_of_nonneg hf0]
  have hle : |x * discountFactor rank discountBps| ≤ i64Max := by
    rw [habs]
    exact (mul_le_mul_of_nonneg_left hf' (abs_nonneg x)).trans hx
  obtain ⟨hlo, hhi⟩ := abs_le.mp hle
  rw [wrapI64_of_mem (x := (discountFactor rank discountBps : ℤ)) (le_trans (by decide) hf0)
    (hf'.trans (by decide)), wrapI64_of_mem (le_trans (by decide) hlo) hhi, ← habs]
  have hdiv : (10000 : ℤ) * ((x * discountFactor rank discountBps).natAbs / 10000 : ℕ) ≤
      ((x * discountFactor rank discountBps).natAbs : ℤ) := by
    exact_mod_cast Nat.mul_div_le _ _
  rw [Int.abs_eq_natAbs, Int.natAbs_tdiv, Int.abs_eq_natAbs]
  exact hdiv

/-- Ranked values of bounded size add up to no more than their weights allow. -/
theorem abs_addDiscounted_le {discountBps : ℕ} (hd : discountBps ≤ 10000) {scale bound : ℤ}
    (hscale : 0 ≤ scale) {l : List ℤ} (hl : ∀ x ∈ l, scale * |x| ≤ bound)
    (hfit : ∀ x ∈ l, |x| * 10000 ≤ i64Max) (rank : ℕ) (total : ℤ) :
    scale * (10000 * |addDiscounted discountBps rank total l|) ≤
      scale * (10000 * |total|) + bound * totalWeight discountBps rank l.length := by
  induction l generalizing rank total with
  | nil => simp [addDiscounted, totalWeight]
  | cons x l ih =>
    have hrest := ih (fun y hy => hl y (List.mem_cons_of_mem x hy))
      (fun y hy => hfit y (List.mem_cons_of_mem x hy)) (rank + 1)
      (saturatingAdd total ((wrapI64 (x * wrapI64 (discountFactor rank discountBps))).tdiv 10000))
    have hterm := abs_discounted_le hd rank (hfit x (List.mem_cons_self ..))
    have hadd := abs_saturatingAdd_le total
      ((wrapI64 (x * wrapI64 (discountFactor rank discountBps))).tdiv 10000)
    have hf0 : (0 : ℤ) ≤ discountFactor rank discountBps := Int.natCast_nonneg _
    have hbound := mul_le_mul_of_nonneg_right (hl x (List.mem_cons_self ..)) hf0
    rw [addDiscounted, List.length_cons, totalWeight, Nat.cast_add, mul_add]
    refine hrest.trans ?_
    rw [← add_assoc, add_le_add_iff_right]
    calc scale * (10000 * |saturatingAdd total _|)
        ≤ scale * (10000 * |total| + |x| * discountFactor rank discountBps) :=
          mul_le_mul_of_nonneg_left (by linarith) hscale
      _ = scale * (10000 * |total|) + scale * |x| * discountFactor rank discountBps := by ring
      _ ≤ scale * (10000 * |total|) + bound * discountFactor rank discountBps := by linarith

/-! ## Groups -/

theorem mem_ranked {min x : ℤ} {l : List (ℤ × ClaimHash)}
    (hx : x ∈ (l.insertionSort (strongerOrEqual min)).map Prod.fst) : ∃ p ∈ l, p.1 = x := by
  obtain ⟨p, hp, rfl⟩ := List.mem_map.mp hx
  exact ⟨p, (List.mem_insertionSort _).mp hp, rfl⟩

section Groups

variable {evidence : List Evidence} {ceiling : ℤ}

/-- The total of a group of items of bounded size. -/
theorem abs_groupTotal_le (hle : ∀ e ∈ evidence, |e.lo.value| ≤ ceiling) (h0 : 0 ≤ ceiling) :
    10000 * |groupTotal defaultDiscountBps evidence| ≤ 14284 * ceiling := by
  unfold groupTotal
  have hmem : ∀ x ∈ ((evidence.map fun e => (e.lo.value, e.id)).insertionSort
      (strongerOrEqual i32Min)).map Prod.fst, ∃ e ∈ evidence, e.lo.value = x := by
    intro x hx
    obtain ⟨p, hp, rfl⟩ := mem_ranked hx
    obtain ⟨e, he, rfl⟩ := List.mem_map.mp hp
    exact ⟨e, he, rfl⟩
  generalize ((evidence.map fun e => (e.lo.value, e.id)).insertionSort
    (strongerOrEqual i32Min)).map Prod.fst = l at hmem ⊢
  have hl : ∀ x ∈ l, 1 * |x| ≤ ceiling := by
    intro x hx
    obtain ⟨e, he, rfl⟩ := hmem x hx
    rw [one_mul]
    exact hle e he
  have hfit : ∀ x ∈ l, |x| * 10000 ≤ i64Max := by
    intro x hx
    obtain ⟨e, he, rfl⟩ := hmem x hx
    have hi32 := e.lo.isI32
    have habs : |e.lo.value| ≤ 2 ^ 31 := by
      unfold i32Min i32Max at hi32
      exact abs_le.mpr ⟨by omega, by omega⟩
    unfold i64Max
    omega
  have hsum := abs_addDiscounted_le (show defaultDiscountBps ≤ 10000 by decide) zero_le_one hl hfit 0 0
  have hweight : ceiling * (totalWeight defaultDiscountBps 0 l.length : ℤ) ≤ ceiling * 14284 :=
    mul_le_mul_of_nonneg_left (by exact_mod_cast totalWeight_default_le l.length) h0
  rw [abs_zero] at hsum
  omega

theorem length_groupTotals (discountBps : ℕ) :
    (groupTotals discountBps evidence).length = (groupKeys evidence).length :=
  List.length_map _

/-- Without assessed items no group is assessed. -/
theorem filter_assessed_of_unassessed {discountBps : ℕ}
    (hun : ∀ e ∈ evidence, e.group.assessed = false) :
    ((groupTotals discountBps evidence).filter fun g => g.2.1) = [] := by
  refine List.filter_eq_nil_iff.mpr fun g hg => ?_
  obtain ⟨key, hkey, rfl⟩ := List.mem_map.mp hg
  obtain ⟨e, he, hek⟩ := mem_groupKeys.mp hkey
  rw [List.all_eq_true]
  intro hall
  have htrue := hall e (List.mem_filter.mpr ⟨he, by simpa using hek⟩)
  rw [hun e he] at htrue
  cases htrue

/-- The totals of the unassessed groups that count, strongest first. -/
def rankedTotals (evidence : List Evidence) : List ℤ :=
  (((((groupTotals defaultDiscountBps evidence).filter fun g => !g.2.1).map
    fun g => (g.1, g.2.2)).insertionSort (strongerOrEqual i64Min)).take maxDiscountDepth).map Prod.fst

theorem aggregateHierarchical_of_unassessed (hun : ∀ e ∈ evidence, e.group.assessed = false)
    (hne : evidence ≠ []) :
    aggregateHierarchical evidence defaultDiscountBps unassessedDiscountBps =
      .safe (addDiscounted unassessedDiscountBps 0 0 (rankedTotals evidence)) := by
  unfold aggregateHierarchical
  rw [if_neg (by simpa using hne)]
  dsimp only
  rw [filter_assessed_of_unassessed hun, List.map_nil, List.foldl_nil]
  rfl

theorem abs_le_of_mem_rankedTotals (hle : ∀ e ∈ evidence, |e.lo.value| ≤ ceiling) (h0 : 0 ≤ ceiling)
    {x : ℤ} (hx : x ∈ rankedTotals evidence) : 10000 * |x| ≤ 14284 * ceiling := by
  rw [rankedTotals, List.map_take] at hx
  obtain ⟨p, hp, rfl⟩ := mem_ranked (List.mem_of_mem_take hx)
  obtain ⟨g, hg, rfl⟩ := List.mem_map.mp hp
  obtain ⟨key, -, rfl⟩ := List.mem_map.mp (List.mem_of_mem_filter hg)
  exact abs_groupTotal_le (fun e he => hle e (List.mem_of_mem_filter he)) h0

theorem length_rankedTotals_le (evidence : List Evidence) :
    (rankedTotals evidence).length ≤ min maxDiscountDepth (groupKeys evidence).length := by
  rw [rankedTotals, List.length_map, List.length_take, List.length_insertionSort, List.length_map]
  exact min_le_min_left _ ((List.length_filter_le _ _).trans_eq (length_groupTotals _))

/-- The unassessed groups are worth no more than the weight of their number. -/
theorem abs_aggregateHierarchical_le (hun : ∀ e ∈ evidence, e.group.assessed = false)
    (hle : ∀ e ∈ evidence, |e.lo.value| ≤ ceiling) (h0 : 0 ≤ ceiling)
    (hceiling : ceiling ≤ LogOdds.safeMax / 8) :
    10000 * (10000 * |(aggregateHierarchical evidence defaultDiscountBps unassessedDiscountBps).value|) ≤
      14284 * ceiling * totalWeight unassessedDiscountBps 0
        (min maxDiscountDepth (groupKeys evidence).length) := by
  have hscaled : 0 ≤ 14284 * ceiling := mul_nonneg (by decide) h0
  by_cases hne : evidence = []
  · subst hne
    exact mul_nonneg hscaled (Int.natCast_nonneg _)
  · rw [aggregateHierarchical_of_unassessed hun hne]
    have hmem : ∀ x ∈ rankedTotals evidence, 10000 * |x| ≤ 14284 * ceiling := fun x hx =>
      abs_le_of_mem_rankedTotals hle h0 hx
    have hfit : ∀ x ∈ rankedTotals evidence, |x| * 10000 ≤ i64Max := by
      intro x hx
      have hx' := hmem x hx
      unfold LogOdds.safeMax at hceiling
      unfold i64Max
      omega
    have hsum := abs_addDiscounted_le (show unassessedDiscountBps ≤ 10000 by decide)
      (show (0 : ℤ) ≤ 10000 by decide) hmem hfit 0 0
    have hclamp : |(LogOdds.safe (addDiscounted unassessedDiscountBps 0 0
        (rankedTotals evidence))).value| ≤
          |addDiscounted unassessedDiscountBps 0 0 (rankedTotals evidence)| :=
      abs_clamp_le (by decide) (by decide)
    have hweight : 14284 * ceiling *
        (totalWeight unassessedDiscountBps 0 (rankedTotals evidence).length : ℤ) ≤
        14284 * ceiling * totalWeight unassessedDiscountBps 0
          (min maxDiscountDepth (groupKeys evidence).length) :=
      mul_le_mul_of_nonneg_left
        (by exact_mod_cast totalWeight_mono _ 0 (length_rankedTotals_le evidence)) hscaled
    rw [abs_zero] at hsum
    omega

theorem length_groupKeys_le_one {key : U64} (hone : ∀ e ∈ evidence, e.group.key = key) :
    (groupKeys evidence).length ≤ 1 := by
  have hsub : (groupKeys evidence).Subset [key] := by
    intro k hk
    obtain ⟨e, he, rfl⟩ := mem_groupKeys.mp hk
    exact List.mem_singleton.mpr (hone e he)
  exact ((nodup_groupKeys evidence).subperm hsub).length_le

end Groups

/-! ## The ceiling -/

variable {evidence : List Evidence} {ceiling : ℚ}

/-- Two items of one group that was not assessed. -/
def unassessedPair : List Evidence :=
  [⟨⟨1000, isI32_1000⟩, ⟨7, false⟩, zeros 32⟩, ⟨⟨-500, by decide⟩, ⟨7, false⟩, zeros 32⟩]

end Aimp.Epistemic
