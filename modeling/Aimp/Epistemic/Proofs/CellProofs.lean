import Aimp.Epistemic.Proofs.SumProofs

/-!
# Cells and groups

For assessed evidence `aggregate_hierarchical` is `aggregate_correlated` with the group keys as cells:
both rank and discount each group in the same way, and fewer than `2 ^ 31` items cannot saturate a sum,
so it does not matter that one adds up group by group and the other item by item.
-/

namespace Aimp.Epistemic

/-- The same item with its group key as the correlation cell. -/
def Evidence.toCell (e : Evidence) : CellEvidence := ⟨e.lo, some e.group.key, e.id⟩

theorem cellKeys_toCell (evidence : List Evidence) :
    cellKeys (evidence.map Evidence.toCell) = groupKeys evidence := by
  unfold cellKeys groupKeys
  rw [List.filterMap_map]
  congr 2
  exact congrFun List.filterMap_eq_map evidence

theorem cellRanked_toCell (evidence : List Evidence) :
    cellRanked (evidence.map Evidence.toCell) = memberRanked evidence := by
  funext key
  have hmembers : (evidence.map Evidence.toCell).filter (fun e => e.cell = some key) =
      (groupMembers evidence key).map Evidence.toCell := by
    rw [List.filter_map]
    refine congrArg _ (List.filter_congr fun e _ => ?_)
    simp [Evidence.toCell]
  unfold cellRanked memberRanked
  rw [hmembers, List.map_map]
  rfl

theorem uncorrelated_toCell (evidence : List Evidence) :
    uncorrelated (evidence.map Evidence.toCell) = [] := by
  unfold uncorrelated
  rw [List.filter_eq_nil_iff.mpr, List.map_nil]
  intro e he
  obtain ⟨e', _, rfl⟩ := List.mem_map.mp he
  simp [Evidence.toCell]

/-- Item by item or group by group: without saturation both add up the same terms. -/
theorem foldl_addDiscounted_eq {discountBps : ℕ} (hd : discountBps ≤ 10000) {evidence : List Evidence}
    {keys : List U64} {total : ℤ}
    (h : |total| + (keys.map fun key => absSum (memberRanked evidence key)).sum ≤ i64Max) :
    keys.foldl (fun total key => addDiscounted discountBps 0 total (memberRanked evidence key)) total =
      (keys.map fun key => groupTotal discountBps (groupMembers evidence key)).foldl saturatingAdd
        total := by
  induction keys generalizing total with
  | nil => rfl
  | cons key keys ih =>
    rw [List.map_cons, List.sum_cons] at h
    have hrest : 0 ≤ (keys.map fun key => absSum (memberRanked evidence key)).sum :=
      List.sum_nonneg fun y hy => by
        obtain ⟨k, _, rfl⟩ := List.mem_map.mp hy
        exact absSum_nonneg _
    have htotal := abs_nonneg total
    have hone : absSum (memberRanked evidence key) ≤ i64Max := by omega
    have hgroup := abs_groupTotal_le_absSum hd evidence key
    have hadd : addDiscounted discountBps 0 total (memberRanked evidence key) =
        total + groupTotal discountBps (groupMembers evidence key) := by
      rw [addDiscounted_eq_sum hd (by omega), groupTotal_eq_sum hd hone]
    have hsum := abs_add_le total (groupTotal discountBps (groupMembers evidence key))
    have hsat : saturatingAdd total (groupTotal discountBps (groupMembers evidence key)) =
        total + groupTotal discountBps (groupMembers evidence key) := by
      obtain ⟨hlow, hhigh⟩ := abs_le.mp (show |total + groupTotal discountBps (groupMembers evidence
        key)| ≤ i64Max by omega)
      have hmin : i64Min = -i64Max - 1 := by decide
      exact saturatingAdd_of_mem (by omega) hhigh
    rw [List.foldl_cons, List.map_cons, List.foldl_cons, hadd, hsat]
    exact ih (by omega)

/-- The groups of assessed evidence are all assessed. -/
theorem groupTotals_assessed (discountBps : ℕ) {evidence : List Evidence}
    (hassessed : ∀ e ∈ evidence, e.group.assessed = true) :
    ∀ g ∈ groupTotals discountBps evidence, g.2.1 = true := by
  intro g hg
  obtain ⟨key, _, rfl⟩ := List.mem_map.mp hg
  exact List.all_eq_true.mpr fun e he => hassessed e (List.mem_of_mem_filter he)

/-- On assessed evidence the two aggregations agree. -/
theorem aggregateHierarchical_eq_aggregateCorrelated {evidence : List Evidence}
    (hassessed : ∀ e ∈ evidence, e.group.assessed = true) (hlen : evidence.length < 2 ^ 31)
    {discountBps : ℕ} (hd : discountBps ≤ 10000) (unassessedDiscountBps : ℕ) :
    aggregateHierarchical evidence discountBps unassessedDiscountBps =
      aggregateCorrelated (evidence.map Evidence.toCell) discountBps := by
  have hflags := groupTotals_assessed discountBps hassessed
  have hall : (groupTotals discountBps evidence).filter (fun g => g.2.1) =
      groupTotals discountBps evidence := List.filter_eq_self.mpr hflags
  have hnone : (groupTotals discountBps evidence).filter (fun g => !g.2.1) = [] :=
    List.filter_eq_nil_iff.mpr fun g hg => by simp [hflags g hg]
  have hfits : |(0 : ℤ)| + ((groupKeys evidence).map fun key =>
      absSum (memberRanked evidence key)).sum ≤ i64Max := by
    have hle := absSum_values_le hlen
    rw [sum_absSum_memberRanked, abs_zero, zero_add]
    exact hle.trans (by decide)
  have htotals : (groupTotals discountBps evidence).map Prod.fst =
      (groupKeys evidence).map fun key => groupTotal discountBps (groupMembers evidence key) :=
    List.map_map ..
  unfold aggregateHierarchical aggregateCorrelated
  rw [List.isEmpty_map, cellKeys_toCell, cellRanked_toCell, uncorrelated_toCell]
  dsimp only
  rw [hall, hnone, htotals, List.foldl_nil, foldl_addDiscounted_eq hd hfits]
  rfl

/-- Two correlated items and one against them from another group. -/
theorem aggregateHierarchical_eq_aggregateCorrelated_three :
    aggregateHierarchical [⟨⟨2000, by decide⟩, ⟨7, true⟩, zeros 32⟩,
        ⟨⟨-1500, by decide⟩, ⟨3, true⟩, zeros 32⟩, ⟨⟨1000, by decide⟩, ⟨7, true⟩, zeros 32⟩]
        defaultDiscountBps unassessedDiscountBps =
      aggregateCorrelated [⟨⟨2000, by decide⟩, some 7, zeros 32⟩,
        ⟨⟨-1500, by decide⟩, some 3, zeros 32⟩, ⟨⟨1000, by decide⟩, some 7, zeros 32⟩]
        defaultDiscountBps :=
  aggregateHierarchical_eq_aggregateCorrelated (by decide) (by decide) (by decide) _

end Aimp.Epistemic
