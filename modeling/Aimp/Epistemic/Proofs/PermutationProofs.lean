import Aimp.Epistemic.Proofs.SumProofs

/-!
# The order of the evidence

With distinct claims the ranking is a total order, so every group has the same members in the same
order, the same assessment and the same anchor for every order of the evidence. Only the evidence
without a cell is added up in the order in which it comes; its saturating sum depends on that order
exactly when it can leave an `i64` and has values of both signs (`sumsFit_iff`).
-/

namespace Aimp.Epistemic

/-! ## Ranking and groups -/

/-- With distinct ids the ranking does not depend on the order. -/
theorem ranked_perm {min : ℤ} {l l' : List (ℤ × ClaimHash)} (h : l.Perm l')
    (hid : (l.map Prod.snd).Nodup) :
    l.insertionSort (strongerOrEqual min) = l'.insertionSort (strongerOrEqual min) := by
  refine List.Perm.eq_of_pairwise ?_ (List.pairwise_insertionSort _ l)
    (List.pairwise_insertionSort _ l')
    ((List.perm_insertionSort _ l).trans (h.trans (List.perm_insertionSort _ l').symm))
  intro a b ha hb hab hba
  have hal : a ∈ l := (List.mem_insertionSort _).mp ha
  have hbl : b ∈ l := h.mem_iff.mpr ((List.mem_insertionSort _).mp hb)
  have hsnd : a.2 = b.2 := by
    rcases hab with hab | ⟨habs, hab⟩
    · rcases hba with hba | ⟨habs, _⟩
      · exact absurd (hab.trans hba) (lt_irrefl _)
      · exact absurd hab (by rw [habs]; exact lt_irrefl _)
    · rcases hba with hba | ⟨_, hba⟩
      · exact absurd hba (by rw [habs]; exact lt_irrefl _)
      · exact le_antisymm hab hba
  exact List.inj_on_of_nodup_map hid hal hbl hsnd

/-- Two lists with the same keys give the same keys in order. -/
theorem sorted_keys_perm {l l' : List U64} (h : l.Perm l') :
    l.dedup.insertionSort (· ≤ ·) = l'.dedup.insertionSort (· ≤ ·) :=
  List.Perm.eq_of_pairwise' (List.pairwise_insertionSort _ _) (List.pairwise_insertionSort _ _)
    ((List.perm_insertionSort _ _).trans (h.dedup.trans (List.perm_insertionSort _ _).symm))

theorem minHash_eq (l : List ClaimHash) : minHash l = l.min?.getD (zeros 32) := by
  cases l with
  | nil => rfl
  | cons id ids => rfl

theorem minHash_perm {l l' : List ClaimHash} (h : l.Perm l') : minHash l = minHash l' := by
  have hmin : l.min? = l'.min? := by
    refine Option.ext fun a => ?_
    rw [List.min?_eq_some_iff, List.min?_eq_some_iff, h.mem_iff]
    exact and_congr_right fun _ => forall_congr' fun b => by rw [h.mem_iff]
  rw [minHash_eq, minHash_eq, hmin]

/-- The groups are the same in every order of the evidence. -/
theorem groupTotals_perm (discountBps : ℕ) {evidence evidence' : List Evidence}
    (h : evidence.Perm evidence') (hid : (evidence.map Evidence.id).Nodup) :
    groupTotals discountBps evidence = groupTotals discountBps evidence' := by
  have hkeys : groupKeys evidence = groupKeys evidence' := sorted_keys_perm (h.map _)
  unfold groupTotals
  rw [hkeys]
  refine List.map_congr_left fun key _ => ?_
  have hmembers : (groupMembers evidence key).Perm (groupMembers evidence' key) := h.filter _
  have htotal : groupTotal discountBps (groupMembers evidence key) =
      groupTotal discountBps (groupMembers evidence' key) := by
    unfold groupTotal
    rw [ranked_perm (hmembers.map fun e => (e.lo.value, e.id))]
    rw [List.map_map]
    exact hid.sublist (List.filter_sublist.map _)
  have hflag : ((groupMembers evidence key).all fun e => e.group.assessed) =
      (groupMembers evidence' key).all fun e => e.group.assessed := by
    rw [Bool.eq_iff_iff, List.all_eq_true, List.all_eq_true]
    simp only [hmembers.mem_iff]
  dsimp only
  rw [htotal, hflag, minHash_perm (hmembers.map _)]

/-- The ranked values of a cell are the same in every order of the evidence. -/
theorem cellRanked_perm {evidence evidence' : List CellEvidence} (h : evidence.Perm evidence')
    (hid : (evidence.map CellEvidence.id).Nodup) : cellRanked evidence = cellRanked evidence' := by
  funext key
  unfold cellRanked
  rw [ranked_perm ((h.filter _).map fun e => (e.lo.value, e.id))]
  rw [List.map_map]
  exact hid.sublist (List.filter_sublist.map _)

theorem cellKeys_perm {evidence evidence' : List CellEvidence} (h : evidence.Perm evidence') :
    cellKeys evidence = cellKeys evidence' := sorted_keys_perm (h.filterMap _)

/-! ## The evidence without a cell -/

/-- Either the values fit into an `i64` from both sides, or they have one sign. -/
def SumsFit (l : List ℤ) : Prop :=
  (positiveSum l ≤ i64Max ∧ i64Min ≤ negativeSum l) ∨ (∀ x ∈ l, 0 ≤ x) ∨ ∀ x ∈ l, x ≤ 0

theorem foldl_saturatingAdd_perm {l l' : List ℤ} (hfit : SumsFit l) (h : l.Perm l') :
    l.foldl saturatingAdd 0 = l'.foldl saturatingAdd 0 := by
  rcases hfit with ⟨hpos, hneg⟩ | hsign
  · rw [foldl_saturatingAdd_of_fits (by omega) (by omega), foldl_saturatingAdd_of_fits, h.sum_eq]
    · rwa [zero_add, ← positiveSum_perm h]
    · rwa [zero_add, ← negativeSum_perm h]
  · have hsign' : (∀ x ∈ l', 0 ≤ x) ∨ ∀ x ∈ l', x ≤ 0 :=
      hsign.imp (fun hl x hx => hl x (h.mem_iff.mpr hx)) fun hl x hx => hl x (h.mem_iff.mpr hx)
    rw [foldl_saturatingAdd_of_sign hsign (by decide) (by decide),
      foldl_saturatingAdd_of_sign hsign' (by decide) (by decide), h.sum_eq]

theorem sum_filter_nonneg (l : List ℤ) : (l.filter fun x => 0 ≤ x).sum = positiveSum l := by
  induction l with
  | nil => rfl
  | cons x l ih =>
    rw [positiveSum_cons, List.filter_cons, ← ih]
    by_cases hx : 0 ≤ x
    · simp [hx]
    · simp [hx]
      omega

theorem sum_filter_neg (l : List ℤ) : (l.filter fun x => x < 0).sum = negativeSum l := by
  induction l with
  | nil => rfl
  | cons x l ih =>
    rw [negativeSum_cons, List.filter_cons, ← ih]
    by_cases hx : x < 0
    · simp [hx]
      omega
    · simp [hx]
      omega

/-- The values of one sign first, and then those of the other. -/
theorem foldl_saturatingAdd_two_signs {l l' : List ℤ} (hl : (∀ x ∈ l, 0 ≤ x) ∨ ∀ x ∈ l, x ≤ 0)
    (hl' : (∀ x ∈ l', 0 ≤ x) ∨ ∀ x ∈ l', x ≤ 0) :
    (l ++ l').foldl saturatingAdd 0 =
      clamp i64Min i64Max (clamp i64Min i64Max l.sum + l'.sum) := by
  have hmem := clamp_mem (show i64Min ≤ i64Max by decide) l.sum
  rw [List.foldl_append, foldl_saturatingAdd_of_sign hl (by decide) (by decide), zero_add,
    foldl_saturatingAdd_of_sign hl' hmem.1 hmem.2]

theorem nonpos_of_positiveSum_eq_zero {l : List ℤ} (h : positiveSum l = 0) : ∀ x ∈ l, x ≤ 0 := by
  intro x hx
  have hle := List.single_le_sum (fun y hy => by
    obtain ⟨z, _, rfl⟩ := List.mem_map.mp hy
    exact le_max_right z 0) _ (List.mem_map_of_mem hx)
  exact (le_max_left x 0).trans (hle.trans h.le)

theorem nonneg_of_negativeSum_eq_zero {l : List ℤ} (h : negativeSum l = 0) : ∀ x ∈ l, 0 ≤ x := by
  induction l with
  | nil => exact fun x hx => absurd hx List.not_mem_nil
  | cons y l ih =>
    rw [negativeSum_cons] at h
    have hneg := negativeSum_nonpos l
    intro x hx
    rcases List.mem_cons.mp hx with rfl | hx
    · omega
    · exact ih (by omega) x hx

/-- The saturating sum is the same in every order exactly when it cannot saturate, or only at one
end. -/
theorem sumsFit_iff (l : List ℤ) :
    SumsFit l ↔ ∀ l', l.Perm l' → l.foldl saturatingAdd 0 = l'.foldl saturatingAdd 0 := by
  refine ⟨fun hfit l' h => foldl_saturatingAdd_perm hfit h, fun h => ?_⟩
  have hpos : ∀ x ∈ l.filter fun x => 0 ≤ x, 0 ≤ x := fun x hx => by
    simpa using (List.mem_filter.mp hx).2
  have hneg : ∀ x ∈ l.filter fun x => x < 0, x ≤ 0 := fun x hx =>
    le_of_lt (by simpa using (List.mem_filter.mp hx).2)
  -- positive values first, or last
  have hsplit : (l.filter (fun x => 0 ≤ x) ++ l.filter fun x => x < 0).Perm l := by
    have hperm := List.filter_append_perm (fun x : ℤ => decide (0 ≤ x)) l
    simp only [← decide_not, not_le] at hperm
    exact hperm
  have hfirst := foldl_saturatingAdd_two_signs (Or.inl hpos) (Or.inr hneg)
  have hlast := foldl_saturatingAdd_two_signs (Or.inr hneg) (Or.inl hpos)
  rw [← h _ hsplit.symm, sum_filter_nonneg, sum_filter_neg] at hfirst
  rw [← h _ (hsplit.symm.trans List.perm_append_comm), sum_filter_nonneg, sum_filter_neg,
    hfirst] at hlast
  have hpos0 := positiveSum_nonneg l
  have hneg0 := negativeSum_nonpos l
  have hcases : (positiveSum l ≤ i64Max ∧ i64Min ≤ negativeSum l) ∨ positiveSum l = 0 ∨
      negativeSum l = 0 := by
    unfold clamp at hlast
    have hmin : i64Min = -2 ^ 63 := rfl
    have hmax : i64Max = 2 ^ 63 - 1 := rfl
    omega
  rcases hcases with hfits | hzero | hzero
  · exact Or.inl hfits
  · exact Or.inr (Or.inr (nonpos_of_positiveSum_eq_zero hzero))
  · exact Or.inr (Or.inl (nonneg_of_negativeSum_eq_zero hzero))

/-! ## Both aggregations -/

/-- Neither aggregation depends on the order of the evidence, as long as the sum of the evidence without
a cell does not. -/
theorem aggregation_perm {evidence evidence' : List Evidence} {cells cells' : List CellEvidence}
    (hid : (evidence.map Evidence.id).Nodup) (h : evidence.Perm evidence')
    (hcid : (cells.map CellEvidence.id).Nodup) (hc : cells.Perm cells')
    (hfit : SumsFit (uncorrelated cells)) (discountBps unassessedDiscountBps : ℕ) :
    aggregateHierarchical evidence discountBps unassessedDiscountBps =
        aggregateHierarchical evidence' discountBps unassessedDiscountBps ∧
      aggregateCorrelated cells discountBps = aggregateCorrelated cells' discountBps := by
  constructor
  · unfold aggregateHierarchical
    rw [groupTotals_perm discountBps h hid, h.isEmpty_eq]
  · have hsum : (uncorrelated cells).foldl saturatingAdd 0 =
        (uncorrelated cells').foldl saturatingAdd 0 :=
      foldl_saturatingAdd_perm hfit ((hc.filter _).map _)
    unfold aggregateCorrelated
    rw [cellKeys_perm hc, cellRanked_perm hc hcid, hsum, hc.isEmpty_eq]

/-- Two items of equal strength, one for and one against, in one unassessed group and without a cell. -/
theorem aggregation_perm_tie :
    aggregateHierarchical [⟨⟨500, by decide⟩, ⟨7, false⟩, numberedId 1⟩,
          ⟨⟨-500, by decide⟩, ⟨7, false⟩, numberedId 2⟩] defaultDiscountBps unassessedDiscountBps =
        aggregateHierarchical [⟨⟨-500, by decide⟩, ⟨7, false⟩, numberedId 2⟩,
          ⟨⟨500, by decide⟩, ⟨7, false⟩, numberedId 1⟩] defaultDiscountBps unassessedDiscountBps ∧
      aggregateCorrelated [⟨⟨500, by decide⟩, none, numberedId 1⟩,
          ⟨⟨-500, by decide⟩, none, numberedId 2⟩] defaultDiscountBps =
        aggregateCorrelated [⟨⟨-500, by decide⟩, none, numberedId 2⟩,
          ⟨⟨500, by decide⟩, none, numberedId 1⟩] defaultDiscountBps :=
  aggregation_perm (by decide) (List.Perm.swap _ _ []) (by decide) (List.Perm.swap _ _ [])
    (Or.inl ⟨by decide, by decide⟩) defaultDiscountBps unassessedDiscountBps

/-! ## A flood of evidence -/

/-- `n` items without a cell, numbered from `start`. -/
def flood (lo : LogOdds) (start n : ℕ) : List CellEvidence :=
  (List.range' start n).map fun k => ⟨lo, none, numberedId k⟩

theorem uncorrelated_append (l l' : List CellEvidence) :
    uncorrelated (l ++ l') = uncorrelated l ++ uncorrelated l' := by
  unfold uncorrelated
  rw [List.filter_append, List.map_append]

theorem mem_flood {lo : LogOdds} {start n : ℕ} {e : CellEvidence} (he : e ∈ flood lo start n) :
    e.lo = lo ∧ e.cell = none := by
  obtain ⟨k, _, rfl⟩ := List.mem_map.mp he
  exact ⟨rfl, rfl⟩

theorem uncorrelated_flood (lo : LogOdds) (start n : ℕ) :
    uncorrelated (flood lo start n) = List.replicate n lo.value := by
  unfold uncorrelated
  rw [List.filter_eq_self.mpr fun e he => by simpa using (mem_flood he).2]
  refine List.eq_replicate_iff.mpr ⟨by simp [flood], fun x hx => ?_⟩
  obtain ⟨e, he, rfl⟩ := List.mem_map.mp hx
  rw [(mem_flood he).1]

theorem flood_append_ids_nodup (lo lo' : LogOdds) {n : ℕ} (hn : 2 * n ≤ 256 ^ 32) :
    ((flood lo 0 n ++ flood lo' n n).map CellEvidence.id).Nodup := by
  have hids : (flood lo 0 n ++ flood lo' n n).map CellEvidence.id =
      (List.range' 0 (n + n)).map numberedId := by
    have hrange : List.range' 0 n ++ List.range' n n = List.range' 0 (n + n) := by
      simpa only [Nat.zero_add] using @List.range'_append_1 0 n n
    rw [← hrange, List.map_append, List.map_append]
    unfold flood
    rw [List.map_map, List.map_map]
    rfl
  rw [hids]
  refine (List.nodup_range' ..).map_on fun j hj k hk h => ?_
  have hj := (List.mem_range'_1.mp hj).2
  have hk := (List.mem_range'_1.mp hk).2
  exact numberedId_inj (by omega) (by omega) h

theorem cellKeys_of_uncorrelated {evidence : List CellEvidence} (h : ∀ e ∈ evidence, e.cell = none) :
    cellKeys evidence = [] := by
  unfold cellKeys
  rw [List.filterMap_eq_nil_iff.mpr h]
  rfl

/-- Two floods are as strong as their sums, of which the first is clamped on its own. -/
theorem aggregateCorrelated_floods (lo lo' : LogOdds) (start start' : ℕ) {n : ℕ} (hn : 0 < n)
    (discountBps : ℕ) :
    aggregateCorrelated (flood lo start n ++ flood lo' start' n) discountBps =
      .safe (clamp i64Min i64Max (clamp i64Min i64Max (n * lo.value) + n * lo'.value)) := by
  have hsign : ∀ lo : LogOdds, (∀ x ∈ List.replicate n lo.value, 0 ≤ x) ∨
      ∀ x ∈ List.replicate n lo.value, x ≤ 0 := fun lo =>
    (le_total 0 lo.value).imp (fun h x hx => (List.eq_of_mem_replicate hx) ▸ h)
      fun h x hx => (List.eq_of_mem_replicate hx) ▸ h
  have hne : (flood lo start n ++ flood lo' start' n).isEmpty = false := by
    rw [List.isEmpty_eq_false_iff, ← List.length_pos_iff, List.length_append]
    simp [flood, hn]
  have hkeys : cellKeys (flood lo start n ++ flood lo' start' n) = [] := by
    refine cellKeys_of_uncorrelated fun e he => ?_
    rcases List.mem_append.mp he with he | he
    · exact (mem_flood he).2
    · exact (mem_flood he).2
  unfold aggregateCorrelated
  rw [hne, hkeys, uncorrelated_append, uncorrelated_flood, uncorrelated_flood,
    foldl_saturatingAdd_two_signs (hsign lo) (hsign lo'), List.sum_replicate, List.sum_replicate,
    nsmul_eq_mul, nsmul_eq_mul]
  rfl

/-- The strongest evidence for and against that is not `i32::MIN`. -/
def strongestFor : LogOdds := ⟨2 ^ 31 - 1, by decide⟩
def strongestAgainst : LogOdds := ⟨-(2 ^ 31 - 1), by decide⟩

/-- `2 ^ 33` items for and as many against: the belief is what comes last. -/
theorem aggregateCorrelated_flood_order :
    ((flood strongestFor 0 (2 ^ 33) ++ flood strongestAgainst (2 ^ 33) (2 ^ 33)).map
        CellEvidence.id).Nodup ∧
      (∀ e ∈ flood strongestFor 0 (2 ^ 33) ++ flood strongestAgainst (2 ^ 33) (2 ^ 33),
        i32Min < e.lo.value) ∧
      (flood strongestFor 0 (2 ^ 33) ++ flood strongestAgainst (2 ^ 33) (2 ^ 33)).Perm
        (flood strongestAgainst (2 ^ 33) (2 ^ 33) ++ flood strongestFor 0 (2 ^ 33)) ∧
      aggregateCorrelated (flood strongestFor 0 (2 ^ 33) ++ flood strongestAgainst (2 ^ 33) (2 ^ 33))
          defaultDiscountBps ≠
        aggregateCorrelated (flood strongestAgainst (2 ^ 33) (2 ^ 33) ++ flood strongestFor 0 (2 ^ 33))
          defaultDiscountBps := by
  refine ⟨flood_append_ids_nodup _ _ (by norm_num), fun e he => ?_, List.perm_append_comm, ?_⟩
  · rcases List.mem_append.mp he with he | he
    · rw [(mem_flood he).1]
      decide
    · rw [(mem_flood he).1]
      decide
  · rw [aggregateCorrelated_floods _ _ _ _ (by norm_num),
      aggregateCorrelated_floods _ _ _ _ (by norm_num)]
    decide

end Aimp.Epistemic
