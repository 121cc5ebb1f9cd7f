import Aimp.Epistemic.Proofs.ReducerOverflowProofs

/-!
# The variance of evidence that agrees

The variance is taken around the aggregated log-odds divided by the number of sources. `reduce` adds the
evidence up, so that evidence that agrees has no variance. `reduce_with_reputation_correlated` discounts
it, and every discount shows as a variance (`variance_of_agreement`).
-/

namespace Aimp.Epistemic

variable {evidence : List Evidence} {discountBps : ℕ} {x : ℤ} {values : List ℤ} {aggregated : LogOdds}

/-! ## Equal values -/

/-- Equal values have no variance exactly if they are the mean. -/
theorem varianceMilli_eq_zero_iff (h : ∀ v ∈ values, v = x) :
    varianceMilli aggregated values = 0 ↔
      values.length ≤ 1 ∨ aggregated.value.tdiv values.length = x := by
  have hvalues : values = List.replicate values.length x := List.eq_replicate_iff.mpr ⟨rfl, h⟩
  unfold varianceMilli
  dsimp only
  by_cases hone : (1 : ℤ) < values.length
  · have hpos : (0 : ℤ) < values.length := by omega
    have hshort : ¬ values.length ≤ 1 := by omega
    rw [if_pos hone, if_pos hpos, or_iff_right hshort]
    generalize aggregated.value.tdiv values.length = mean
    have hsum : (values.map fun v => (v - mean) * (v - mean)).sum =
        values.length * ((x - mean) * (x - mean)) := by
      rw [hvalues, List.map_replicate, List.sum_replicate, nsmul_eq_mul, List.length_replicate]
    have hnonneg := mul_self_nonneg (x - mean)
    have hmin : i64Min = -2 ^ 63 := rfl
    have hmax : i64Max = 2 ^ 63 - 1 := rfl
    rw [hsum, Int.mul_tdiv_cancel_left _ hpos.ne', clamp, max_eq_right (by omega)]
    constructor
    · intro hzero
      have hsquare : (x - mean) * (x - mean) = 0 := by omega
      have hdiff := mul_self_eq_zero.mp hsquare
      omega
    · intro hmean
      rw [hmean, sub_self, mul_zero]
      rfl
  · rw [if_neg hone]
    exact iff_of_true rfl (Or.inl (by omega))

/-- The whole that is divided is no smaller than the parts together. -/
theorem mul_abs_le_of_tdiv_eq {y n : ℤ} (hn : 0 < n) (h : y.tdiv n = x) : n * |x| ≤ |y| := by
  have hle := Int.natAbs_tdiv y n
  rw [h] at hle
  rw [Int.abs_eq_natAbs, Int.abs_eq_natAbs, hle]
  have hnat : (n.natAbs : ℤ) = n := Int.natAbs_of_nonneg hn.le
  calc n * ((y.natAbs / n.natAbs : ℕ) : ℤ) = ((n.natAbs * (y.natAbs / n.natAbs) : ℕ) : ℤ) := by
        rw [Nat.cast_mul, hnat]
    _ ≤ y.natAbs := by exact_mod_cast Nat.mul_div_le y.natAbs n.natAbs

/-- A sum of equal values that stays in the safe range. -/
theorem safe_value_of_le {n : ℕ} (h : n * |x| ≤ LogOdds.safeMax) :
    (LogOdds.safe (n * x)).value = n * x := by
  have hmin : LogOdds.safeMin = -LogOdds.safeMax := rfl
  have hle : |(n : ℤ) * x| ≤ LogOdds.safeMax := by rwa [abs_mul, Nat.abs_cast]
  obtain ⟨hlow, hhigh⟩ := abs_le.mp hle
  exact clamp_of_mem (by omega) hhigh

/-! ## Discounts -/

/-- A second value is lost in part. -/
theorem absSum_discountedTerms_lt (hd : discountBps < 10000) (y : ℤ) {z : ℤ} (hz : z ≠ 0) (l : List ℤ) :
    absSum (discountedTerms discountBps 0 (y :: z :: l)) < absSum (y :: z :: l) := by
  have hsecond : discountFactor 1 discountBps < 10000 := by
    have hfactor : discountFactor 1 discountBps = 10000 * discountBps % 2 ^ 64 / 10000 := rfl
    rw [hfactor, Nat.mod_eq_of_lt (by omega)]
    omega
  have hy := (abs_termOf_mul_le (discountFactor_le hd.le 0) y).1
  have hlt := (abs_termOf_mul_le hsecond.le z).2 hsecond hz
  have hrest := absSum_discountedTerms_le hd.le (1 + 1) l
  rw [discountedTerms_cons, discountedTerms_cons, absSum_cons, absSum_cons, absSum_cons, absSum_cons,
    zero_add]
  omega

/-- Values that no discount applies to are their own terms. -/
theorem discountedTerms_eq_self {l : List ℤ} (h : discountBps = 10000 ∨ l.length ≤ 1)
    (hl : ∀ y ∈ l, |y| ≤ 2 ^ 31) : discountedTerms discountBps 0 l = l := by
  rcases h with rfl | hlen
  · exact discountedTerms_full hl 0
  · cases l with
    | nil => rfl
    | cons y l =>
      rw [List.length_cons] at hlen
      rw [List.length_eq_zero_iff.mp (by omega : l.length = 0)] at hl ⊢
      -- the first factor is 10000, whatever the discount
      exact discountedTerms_full hl 0

/-! ## Both levels -/

theorem absSum_levels (discountBps : ℕ) (evidence : List Evidence) :
    absSum (assessedGroupTotals discountBps evidence) +
        absSum ((unassessedGroupTotals discountBps evidence).map Prod.fst) =
      absSum ((groupTotals discountBps evidence).map Prod.fst) := by
  rw [← absSum_append, absSum_perm (levels_perm discountBps evidence)]

theorem absSum_countedTotals_le (discountBps : ℕ) (evidence : List Evidence) :
    absSum (countedTotals discountBps evidence) ≤
      absSum ((unassessedGroupTotals discountBps evidence).map Prod.fst) := by
  have hsub := (List.take_sublist maxDiscountDepth ((unassessedGroupTotals discountBps
    evidence).insertionSort (strongerOrEqual i64Min))).map Prod.fst
  exact (absSum_sublist hsub).trans_eq (absSum_perm ((List.perm_insertionSort _ _).map Prod.fst))

theorem length_unassessedGroupTotals (discountBps : ℕ) (evidence : List Evidence) :
    (unassessedGroupTotals discountBps evidence).length =
      ((groupKeys evidence).filter fun key => !allAssessed evidence key).length := by
  unfold unassessedGroupTotals groupTotals
  rw [List.filter_map, List.length_map, List.length_map]
  rfl

theorem countedTotals_of_length_le_one
    (h : (unassessedGroupTotals discountBps evidence).length ≤ 1) :
    countedTotals discountBps evidence =
      (unassessedGroupTotals discountBps evidence).map Prod.fst := by
  unfold countedTotals
  cases hlist : unassessedGroupTotals discountBps evidence with
  | nil => rfl
  | cons g rest =>
    rw [hlist, List.length_cons] at h
    rw [List.length_eq_zero_iff.mp (by omega : rest.length = 0)]
    rfl

theorem abs_aggregateHierarchical_le_terms (evidence : List Evidence)
    (discountBps unassessedDiscountBps : ℕ) :
    |(aggregateHierarchical evidence discountBps unassessedDiscountBps).value| ≤
      absSum (assessedGroupTotals discountBps evidence) +
        absSum (discountedTerms unassessedDiscountBps 0 (countedTotals discountBps evidence)) := by
  have hassessed := abs_foldl_saturatingAdd_le (assessedGroupTotals discountBps evidence) 0
  have hle := abs_foldl_saturatingAdd_le
    (discountedTerms unassessedDiscountBps 0 (countedTotals discountBps evidence))
    ((assessedGroupTotals discountBps evidence).foldl saturatingAdd 0)
  rw [abs_zero, zero_add] at hassessed
  rw [aggregateHierarchical_eq_levels, addDiscounted_eq_foldl]
  refine (abs_clamp_le (by decide) (by decide)).trans ?_
  omega

/-- The second of several unassessed groups is discounted. -/
theorem absSum_terms_countedTotals_lt
    (hne : ∀ key ∈ groupKeys evidence, groupTotal discountBps (groupMembers evidence key) ≠ 0)
    (hmany : 2 ≤ ((groupKeys evidence).filter fun key => !allAssessed evidence key).length) :
    absSum (discountedTerms unassessedDiscountBps 0 (countedTotals discountBps evidence)) <
      absSum (countedTotals discountBps evidence) := by
  rw [← length_unassessedGroupTotals discountBps] at hmany
  have hlength : 2 ≤ (countedTotals discountBps evidence).length := by
    rw [countedTotals, List.length_map, List.length_take, List.length_insertionSort]
    exact le_min (by decide) hmany
  obtain ⟨y, z, l, hl⟩ : ∃ y z l, countedTotals discountBps evidence = y :: z :: l := by
    match countedTotals discountBps evidence, hlength with
    | y :: z :: l, _ => exact ⟨y, z, l, rfl⟩
  have hz : z ∈ countedTotals discountBps evidence := by
    rw [hl]
    exact List.mem_cons_of_mem y (List.mem_cons_self ..)
  obtain ⟨key, hkey, rfl⟩ := mem_countedTotals hz
  rw [hl]
  exact absSum_discountedTerms_lt (by decide) y (hne key hkey) l

/-! ## Evidence of one value -/

/-- All evidence counts in full: it adds up in the safe range, there is no discount or no two items are
in one group, and at most one group is unassessed. -/
structure CountsInFull (discountBps : ℕ) (evidence : List Evidence) (x : ℤ) : Prop where
  inSafe : evidence.length * |x| ≤ LogOdds.safeMax
  members : discountBps = 10000 ∨
    ∀ key ∈ groupKeys evidence, (groupMembers evidence key).length ≤ 1
  groups : ((groupKeys evidence).filter fun key => !allAssessed evidence key).length ≤ 1

section Agreement

variable (hvalue : ∀ e ∈ evidence, e.lo.value = x)

include hvalue

theorem memberRanked_agreement (key : U64) :
    memberRanked evidence key = List.replicate (groupMembers evidence key).length x := by
  have hlen := (memberRanked_perm evidence key).length_eq
  rw [groupValues, List.length_map] at hlen
  refine List.eq_replicate_iff.mpr ⟨hlen, fun y hy => ?_⟩
  obtain ⟨e, he, rfl⟩ := List.mem_map.mp ((memberRanked_perm evidence key).subset hy)
  exact hvalue e (List.mem_of_mem_filter he)

theorem values_agreement :
    (evidence.map fun e => e.lo.value) = List.replicate evidence.length x := by
  refine List.eq_replicate_iff.mpr ⟨List.length_map _, fun y hy => ?_⟩
  obtain ⟨e, he, rfl⟩ := List.mem_map.mp hy
  exact hvalue e he

theorem absSum_values_agreement :
    absSum (evidence.map fun e => e.lo.value) = evidence.length * |x| := by
  rw [values_agreement hvalue, absSum_replicate]

/-- The groups count no more than the evidence. -/
theorem absSum_groupTotals_le (hd : discountBps ≤ 10000) :
    absSum ((groupTotals discountBps evidence).map Prod.fst) ≤ evidence.length * |x| := by
  rw [← absSum_values_agreement hvalue, ← sum_absSum_memberRanked, map_fst_groupTotals, absSum,
    List.map_map]
  refine List.sum_le_sum fun key _ => ?_
  exact abs_groupTotal_le_absSum hd evidence key

theorem groupTotal_eq_sum_of_full (h : CountsInFull discountBps evidence x) {key : U64}
    (hkey : key ∈ groupKeys evidence) :
    groupTotal discountBps (groupMembers evidence key) = (memberRanked evidence key).sum := by
  have hlen := (memberRanked_perm evidence key).length_eq
  rw [groupValues, List.length_map] at hlen
  have hterms : discountedTerms discountBps 0 (memberRanked evidence key) =
      memberRanked evidence key := by
    refine discountedTerms_eq_self (h.members.imp_right fun h => ?_) fun y hy =>
      abs_le_of_mem_memberRanked hy
    rw [hlen]
    exact h key hkey
  have hle : absSum (memberRanked evidence key) ≤ evidence.length * |x| := by
    rw [← absSum_values_agreement hvalue, absSum_perm (memberRanked_perm evidence key)]
    exact absSum_sublist (List.filter_sublist.map _)
  have hsafe := h.inSafe
  have hmax : i64Max = 2 ^ 63 - 1 := rfl
  have hsafeMax : LogOdds.safeMax = 1000000000 := rfl
  rw [groupTotal_members, addDiscounted_eq_foldl, hterms,
    foldl_saturatingAdd_of_absSum (by rw [abs_zero]; omega), zero_add]

/-- Evidence that counts in full adds up. -/
theorem aggregateHierarchical_of_full (h : CountsInFull discountBps evidence x) :
    (aggregateHierarchical evidence discountBps unassessedDiscountBps).value =
      evidence.length * x := by
  have hsafe := h.inSafe
  have hmax : i64Max = 2 ^ 63 - 1 := rfl
  have hsafeMax : LogOdds.safeMax = 1000000000 := rfl
  have hsafeMin : LogOdds.safeMin = -1000000000 := rfl
  have hgroups : ∀ key ∈ groupKeys evidence, groupTotal discountBps (groupMembers evidence key) =
      (memberRanked evidence key).sum := fun key hkey => groupTotal_eq_sum_of_full hvalue h hkey
  have hsum := (levels_perm discountBps evidence).sum_eq
  have habs := absSum_levels discountBps evidence
  rw [map_fst_groupTotals, List.map_congr_left hgroups] at hsum habs
  have hle : absSum ((groupKeys evidence).map fun key => (memberRanked evidence key).sum) ≤
      evidence.length * |x| := by
    rw [← absSum_values_agreement hvalue, ← sum_absSum_memberRanked, absSum, List.map_map]
    exact List.sum_le_sum fun key _ => abs_sum_le_absSum _
  have htotal : ((groupKeys evidence).map fun key => (memberRanked evidence key).sum).sum =
      evidence.length * x := by
    have hmembers := sum_map_memberRanked id evidence
    simp only [List.map_id, id] at hmembers
    rw [hmembers, values_agreement hvalue, List.sum_replicate, nsmul_eq_mul]
  -- there is at most one unassessed group, and it has the first rank
  have hunassessed : (unassessedGroupTotals discountBps evidence).length ≤ 1 :=
    (length_unassessedGroupTotals discountBps evidence).trans_le h.groups
  have hcounted := countedTotals_of_length_le_one hunassessed
  rw [← hcounted] at hsum habs
  rw [List.sum_append, htotal] at hsum
  have hcountedLe := absSum_nonneg (countedTotals discountBps evidence)
  have hassessedLe := absSum_nonneg (assessedGroupTotals discountBps evidence)
  have hassessed := abs_sum_le_absSum (assessedGroupTotals discountBps evidence)
  have hterms : discountedTerms unassessedDiscountBps 0 (countedTotals discountBps evidence) =
      countedTotals discountBps evidence := by
    refine discountedTerms_eq_self (Or.inr ?_) fun y hy => ?_
    · rwa [hcounted, List.length_map]
    · have hmem := abs_le_absSum hy
      omega
  have hfold : (assessedGroupTotals discountBps evidence).foldl saturatingAdd 0 =
      0 + (assessedGroupTotals discountBps evidence).sum :=
    foldl_saturatingAdd_of_absSum (by rw [abs_zero]; omega)
  rw [aggregateHierarchical_eq_levels, addDiscounted_eq_foldl, hterms, hfold, zero_add,
    foldl_saturatingAdd_of_absSum (by omega), hsum]
  exact safe_value_of_le hsafe

/-- Where nothing is lost in the groups, every group counts all of its members. -/
theorem abs_groupTotal_eq (hd : discountBps ≤ 10000)
    (h : evidence.length * |x| ≤ absSum ((groupTotals discountBps evidence).map Prod.fst))
    {key : U64} (hkey : key ∈ groupKeys evidence) :
    |groupTotal discountBps (groupMembers evidence key)| = absSum (memberRanked evidence key) := by
  have hle : ∀ key ∈ groupKeys evidence, |groupTotal discountBps (groupMembers evidence key)| ≤
      absSum (memberRanked evidence key) := fun key _ => abs_groupTotal_le_absSum hd evidence key
  by_contra hne
  have hlt := List.sum_lt_sum _ _ hle ⟨key, hkey, lt_of_le_of_ne (hle key hkey) hne⟩
  rw [sum_absSum_memberRanked, absSum_values_agreement hvalue] at hlt
  rw [map_fst_groupTotals, absSum, List.map_map] at h
  exact absurd h hlt.not_ge

/-- No group is empty. -/
theorem le_absSum_memberRanked {key : U64} (hkey : key ∈ groupKeys evidence) :
    |x| ≤ absSum (memberRanked evidence key) := by
  obtain ⟨e, he, hgroup⟩ := mem_groupKeys.mp hkey
  refine abs_le_absSum ?_
  have hmem : e ∈ groupMembers evidence key := List.mem_filter.mpr ⟨he, decide_eq_true hgroup⟩
  rw [memberRanked_agreement hvalue]
  exact List.mem_replicate.mpr ⟨(List.length_pos_of_mem hmem).ne', rfl⟩

/-- Where groups count all of their members, none of several members is discounted. -/
theorem members_of_abs_eq (hd : discountBps ≤ 10000) (hx : x ≠ 0)
    (htotals : ∀ key ∈ groupKeys evidence,
      |groupTotal discountBps (groupMembers evidence key)| = absSum (memberRanked evidence key)) :
    discountBps = 10000 ∨ ∀ key ∈ groupKeys evidence, (groupMembers evidence key).length ≤ 1 := by
  by_contra hnot
  obtain ⟨hlt, hnot⟩ := not_or.mp hnot
  push Not at hnot
  obtain ⟨key, hkey, hmany⟩ := hnot
  obtain ⟨m, hm⟩ := Nat.exists_eq_add_of_lt hmany
  have hranked := memberRanked_agreement hvalue key
  rw [hm, show 1 + m + 1 = m + 2 by omega, List.replicate_succ, List.replicate_succ] at hranked
  -- the second member is discounted
  have hloss := absSum_discountedTerms_lt (lt_of_le_of_ne hd hlt) x hx (List.replicate m x)
  rw [← hranked, ← htotals key hkey] at hloss
  exact absurd (abs_groupTotal_le_terms discountBps evidence key) hloss.not_ge

/-- With a discount, only evidence that counts in full reaches its sum. -/
theorem full_of_le (hd : discountBps ≤ 10000) (hx : x ≠ 0)
    (h : evidence.length * |x| ≤
      |(aggregateHierarchical evidence discountBps unassessedDiscountBps).value|) :
    CountsInFull discountBps evidence x := by
  have hagg := abs_aggregateHierarchical_le_terms evidence discountBps unassessedDiscountBps
  have hcounted := absSum_countedTotals_le discountBps evidence
  have hterms := absSum_discountedTerms_le (by decide : unassessedDiscountBps ≤ 10000) 0
    (countedTotals discountBps evidence)
  have hlevels := absSum_levels discountBps evidence
  have hgroups := absSum_groupTotals_le hvalue hd
  have htotals : ∀ key ∈ groupKeys evidence,
      |groupTotal discountBps (groupMembers evidence key)| = absSum (memberRanked evidence key) :=
    fun key hkey => abs_groupTotal_eq hvalue hd (by omega) hkey
  have hne : ∀ key ∈ groupKeys evidence,
      groupTotal discountBps (groupMembers evidence key) ≠ 0 := by
    intro key hkey
    have hle := le_absSum_memberRanked hvalue hkey
    rw [← htotals key hkey] at hle
    exact abs_pos.mp ((abs_pos.mpr hx).trans_le hle)
  refine ⟨?_, members_of_abs_eq hvalue hd hx htotals, ?_⟩
  · refine h.trans (abs_le.mpr ?_)
    exact inSafe_aggregateHierarchical evidence discountBps unassessedDiscountBps
  · by_contra hmany
    have hloss := absSum_terms_countedTotals_lt hne (by omega)
    omega

end Agreement

/-! ## The summaries -/

/-- The variance that a summary says. -/
def Claim.varianceMilli? (c : Claim) : Option ℤ := c.reported.map Reported.varianceMilli

/-- The condition under which evidence of one value has no variance. -/
def NoVariance (discountBps : ℕ) (evidence : List Evidence) (x : ℤ) : Prop :=
  evidence.length ≤ 1 ∨ x = 0 ∨ CountsInFull discountBps evidence x

theorem absSum_discountedTerms_of_zero {l : List ℤ} (hl : ∀ y ∈ l, y = 0) (rank : ℕ) :
    absSum (discountedTerms discountBps rank l) = 0 := by
  induction l generalizing rank with
  | nil => rfl
  | cons y l ih =>
    obtain ⟨rfl, hrest⟩ := List.forall_mem_cons.mp hl
    rw [discountedTerms_cons, absSum_cons, ih hrest, zero_mul]
    rfl

/-- Nothing adds up to nothing, whatever the discounts. -/
theorem aggregateHierarchical_of_zero (hvalue : ∀ e ∈ evidence, e.lo.value = 0)
    (unassessedDiscountBps : ℕ) :
    (aggregateHierarchical evidence discountBps unassessedDiscountBps).value = 0 := by
  have hgroup : ∀ key, groupTotal discountBps (groupMembers evidence key) = 0 := by
    intro key
    have hle := abs_groupTotal_le_terms discountBps evidence key
    rw [memberRanked_agreement hvalue, absSum_discountedTerms_of_zero fun y hy =>
      List.eq_of_mem_replicate hy] at hle
    exact abs_nonpos_iff.mp hle
  have hassessed : absSum (assessedGroupTotals discountBps evidence) ≤ 0 := by
    have hnone : ∀ y ∈ assessedGroupTotals discountBps evidence, |y| ≤ 0 := by
      intro y hy
      have hmem := (levels_perm discountBps evidence).subset (List.mem_append_left _ hy)
      rw [map_fst_groupTotals] at hmem
      obtain ⟨key, _, rfl⟩ := List.mem_map.mp hmem
      rw [hgroup, abs_zero]
    exact (absSum_le hnone).trans_eq (mul_zero _)
  have hcounted : ∀ y ∈ countedTotals discountBps evidence, y = 0 := by
    intro y hy
    obtain ⟨key, _, rfl⟩ := mem_countedTotals hy
    exact hgroup key
  have hle := abs_aggregateHierarchical_le_terms evidence discountBps unassessedDiscountBps
  rw [absSum_discountedTerms_of_zero hcounted, add_zero] at hle
  exact abs_nonpos_iff.mp (hle.trans hassessed)

/-- Equal values that stay in the safe range add up. -/
theorem aggregate_agreement {lo : List LogOdds} (hvalue : ∀ v ∈ lo.map LogOdds.value, v = x)
    (hsafe : lo.length * |x| ≤ LogOdds.safeMax) : (LogOdds.aggregate lo).value = lo.length * x := by
  have hvalues : lo.map LogOdds.value = List.replicate lo.length x :=
    List.eq_replicate_iff.mpr ⟨List.length_map _, hvalue⟩
  have hmax : i64Max = 2 ^ 63 - 1 := rfl
  have hsafeMax : LogOdds.safeMax = 1000000000 := rfl
  have habs := absSum_replicate lo.length x
  have hfold : (List.replicate lo.length x).foldl saturatingAdd 0 = lo.length * x := by
    rw [foldl_saturatingAdd_of_absSum (by rw [abs_zero]; omega), List.sum_replicate, zero_add,
      nsmul_eq_mul]
  rw [LogOdds.aggregate, hvalues, hfold]
  exact safe_value_of_le hsafe

theorem varianceMilli_agreement (discountBps : ℕ) (hvalue : ∀ e ∈ evidence, e.lo.value = x) :
    (NoVariance discountBps evidence x →
      varianceMilli (aggregateHierarchical evidence discountBps unassessedDiscountBps)
        ((evidence.map Evidence.lo).map LogOdds.value) = 0) ∧
    (discountBps ≤ 10000 →
      varianceMilli (aggregateHierarchical evidence discountBps unassessedDiscountBps)
        ((evidence.map Evidence.lo).map LogOdds.value) = 0 → NoVariance discountBps evidence x) := by
  have hvalues : ∀ v ∈ (evidence.map Evidence.lo).map LogOdds.value, v = x := by
    intro v hv
    rw [List.map_map] at hv
    obtain ⟨e, he, rfl⟩ := List.mem_map.mp hv
    exact hvalue e he
  rw [varianceMilli_eq_zero_iff hvalues, List.length_map, List.length_map]
  constructor
  · rintro (hone | rfl | hfull)
    · exact Or.inl hone
    · right
      rw [aggregateHierarchical_of_zero hvalue, Int.zero_tdiv]
    · by_cases hone : evidence.length ≤ 1
      · exact Or.inl hone
      · right
        rw [aggregateHierarchical_of_full hvalue hfull]
        exact Int.mul_tdiv_cancel_left _ (by omega)
  · rintro hd (hone | hmean)
    · exact Or.inl hone
    · by_cases hx : x = 0
      · exact Or.inr (Or.inl hx)
      by_cases hone : evidence.length ≤ 1
      · exact Or.inl hone
      · exact Or.inr (Or.inr (full_of_le hvalue hd hx (mul_abs_le_of_tdiv_eq (by omega) hmean)))

/-- Evidence of one value has no variance in a summary of `reduce`. In a summary of
`reduce_with_reputation_correlated` it has none if it counts in full, and a variance otherwise, as long
as `discount_bps` is a discount. -/
theorem variance_of_agreement (blake3 : Blake3) (claims : List Claim) (reputations : Reputations)
    (discountBps : ℕ) (x : ℤ) (s : Claim) :
    (reduce blake3 claims = some s → (∀ lo ∈ (countedSources claims).2, lo.value = x) →
      (countedSources claims).2.length * |x| ≤ LogOdds.safeMax → s.varianceMilli? = some 0) ∧
    (reduceWithReputationCorrelated blake3 claims reputations discountBps = some s →
      (∀ e ∈ (gatheredSources blake3 reputations claims).2, e.lo.value = x) →
      (NoVariance discountBps (gatheredSources blake3 reputations claims).2 x →
        s.varianceMilli? = some 0) ∧
      (discountBps ≤ 10000 → s.varianceMilli? = some 0 →
        NoVariance discountBps (gatheredSources blake3 reputations claims).2 x)) := by
  refine ⟨fun hs hvalue hsafe => ?_, fun hs hvalue => ?_⟩
  · obtain ⟨-, first, data, -, -, rfl⟩ := reduce_eq_some.mp hs
    have hvalues : ∀ v ∈ (countedSources claims).2.map LogOdds.value, v = x := by
      intro v hv
      obtain ⟨lo, hlo, rfl⟩ := List.mem_map.mp hv
      exact hvalue lo hlo
    refine congrArg some ((varianceMilli_eq_zero_iff hvalues).mpr ?_)
    rw [List.length_map, aggregate_agreement hvalues hsafe]
    by_cases hone : (countedSources claims).2.length ≤ 1
    · exact Or.inl hone
    · exact Or.inr (Int.mul_tdiv_cancel_left _ (by omega))
  · obtain ⟨-, first, data, -, -, -, rfl⟩ := reduceWithReputationCorrelated_eq_some.mp hs
    obtain ⟨hzero, hcond⟩ := varianceMilli_agreement discountBps hvalue
    exact ⟨fun h => congrArg some (hzero h), fun hd h => hcond hd (Option.some_inj.mp h)⟩

/-- Two claims of one author that agree, without a discount. -/
theorem variance_of_agreement_two :
    (reduce sampleHash (oneAuthor 2)).bind Claim.varianceMilli? = some 0 ∧
      (reduceWithReputationCorrelated sampleHash (oneAuthor 2) (fun _ => .full) 10000).bind
        Claim.varianceMilli? = some 0 := by
  constructor
  · obtain ⟨s, hs⟩ := Option.isSome_iff_exists.mp (by decide +kernel :
      (reduce sampleHash (oneAuthor 2)).isSome)
    rw [hs]
    exact (variance_of_agreement sampleHash (oneAuthor 2) (fun _ => .full) 10000 1000 s).1 hs
      (by decide +kernel) (by decide +kernel)
  · obtain ⟨s, hs⟩ := Option.isSome_iff_exists.mp (by decide +kernel :
      (reduceWithReputationCorrelated sampleHash (oneAuthor 2) (fun _ => .full) 10000).isSome)
    have hweighted := (variance_of_agreement sampleHash (oneAuthor 2) (fun _ => .full) 10000 1000
      s).2 hs (by decide +kernel)
    rw [hs]
    exact hweighted.1 (Or.inr (Or.inr ⟨by decide +kernel, Or.inl rfl, by decide +kernel⟩))

/-- With a discount, the second of the two is worth less, which shows as a variance. -/
theorem discount_shows_as_variance :
    (gatheredSources sampleHash (fun _ => .full) (oneAuthor 2)).2.map (fun e => e.lo.value) =
        [1000, 1000] ∧
      ((reduceWithReputationCorrelated sampleHash (oneAuthor 2) (fun _ => .full)
        defaultDiscountBps).bind Claim.reported).map
          (fun r => (r.aggregatedLogodds.value, r.varianceMilli)) = some (1300, 122500) ∧
      (reduce sampleHash (oneAuthor 2)).bind Claim.varianceMilli? = some 0 := by
  decide +kernel

end Aimp.Epistemic
