import Aimp.Epistemic.Proofs.SumProofs

/-!
# Evidence for and against

Negating all evidence keeps the ranking and negates every total, for fewer than `2 ^ 31` items. What may
stay as it is is a product of an unassessed group that wraps around to `i64::MIN`, the one number whose
negative is itself (`term_neg`); a group that large takes the belief to the same side for both signs.
-/

namespace Aimp.Epistemic

/-- `-lo`, for anything but `i32::MIN`. -/
def LogOdds.negate (lo : LogOdds) : LogOdds := .ofInt (-lo.value)

theorem LogOdds.negate_value {lo : LogOdds} (h : i32Min < lo.value) : lo.negate.value = -lo.value := by
  have hmax := lo.isI32.1
  have hmin := lo.isI32.2
  have hi32Min : i32Min = -2 ^ 31 := rfl
  have hi32Max : i32Max = 2 ^ 31 - 1 := rfl
  exact clamp_of_mem (by omega) (by omega)

def Evidence.negate (e : Evidence) : Evidence := { e with lo := e.lo.negate }

theorem absWrap_neg {min x : ℤ} (h : x ≠ min) (h' : -x ≠ min) : absWrap min (-x) = absWrap min x := by
  unfold absWrap
  rw [if_neg h, if_neg h', abs_neg]

/-- Negating all values keeps the ranking. -/
theorem ranked_neg {min : ℤ} {l : List (ℤ × ClaimHash)} (h : ∀ p ∈ l, p.1 ≠ min ∧ -p.1 ≠ min) :
    (l.map fun p => (-p.1, p.2)).insertionSort (strongerOrEqual min) =
      (l.insertionSort (strongerOrEqual min)).map fun p => (-p.1, p.2) := by
  refine (List.map_insertionSort _ _ _ l fun a ha b hb => ?_).symm
  unfold strongerOrEqual
  dsimp only
  rw [absWrap_neg (h a ha).1 (h a ha).2, absWrap_neg (h b hb).1 (h b hb).2]

/-! ## Terms -/

/-- The product wraps around to `i64::MIN`. -/
def WrapsToMin (product : ℤ) : Prop := product % 2 ^ 64 = 2 ^ 63

instance : DecidablePred WrapsToMin := fun _ => inferInstanceAs (Decidable (_ = _))

theorem termOf_of_wrapsToMin {product : ℤ} (h : WrapsToMin product) : termOf product = minTerm := by
  unfold WrapsToMin at h
  have hwrap : wrapI64 product = -2 ^ 63 := by
    unfold wrapI64
    rw [Int.bmod_def]
    omega
  unfold termOf
  rw [hwrap]
  decide

theorem WrapsToMin.neg {product : ℤ} (h : WrapsToMin product) : WrapsToMin (-product) := by
  unfold WrapsToMin at h ⊢
  omega

/-- Any other term changes its sign. -/
theorem term_neg {product : ℤ} (h : ¬ WrapsToMin product) : termOf (-product) = -termOf product := by
  unfold WrapsToMin at h
  have hwrap : wrapI64 (-product) = -wrapI64 product := by
    unfold wrapI64
    rw [Int.bmod_def, Int.bmod_def]
    omega
  unfold termOf
  rw [hwrap, Int.neg_tdiv]

theorem products_neg (discountBps rank : ℕ) (l : List ℤ) :
    products discountBps rank (l.map (-·)) = (products discountBps rank l).map (-·) := by
  induction l generalizing rank with
  | nil => rfl
  | cons x l ih => rw [List.map_cons, products, products, List.map_cons, ih, neg_mul]

/-- The terms that do not wrap to `i64::MIN`, added up. -/
def symmetricSum (products : List ℤ) : ℤ :=
  ((products.filter fun p => ¬ WrapsToMin p).map termOf).sum

theorem sum_termOf (products : List ℤ) :
    (products.map termOf).sum = symmetricSum products + products.countP WrapsToMin * minTerm := by
  induction products with
  | nil => rfl
  | cons p products ih =>
    unfold symmetricSum at ih ⊢
    rw [List.map_cons, List.sum_cons, ih, List.countP_cons, List.filter_cons]
    by_cases h : WrapsToMin p
    · rw [termOf_of_wrapsToMin h]
      simp [h]
      ring
    · simp [h]
      ring

theorem sum_termOf_neg (products : List ℤ) :
    ((products.map (-·)).map termOf).sum =
      -symmetricSum products + products.countP WrapsToMin * minTerm := by
  induction products with
  | nil => rfl
  | cons p products ih =>
    unfold symmetricSum at ih ⊢
    rw [List.map_cons, List.map_cons, List.sum_cons, ih, List.countP_cons, List.filter_cons]
    by_cases h : WrapsToMin p
    · rw [termOf_of_wrapsToMin h.neg]
      simp [h]
      ring
    · rw [term_neg h]
      simp [h]
      ring

/-! ## Groups -/

section Groups

variable {evidence : List Evidence}

theorem groupKeys_negate : groupKeys (evidence.map Evidence.negate) = groupKeys evidence := by
  unfold groupKeys
  rw [List.map_map]
  rfl

theorem groupMembers_negate (key : U64) :
    groupMembers (evidence.map Evidence.negate) key = (groupMembers evidence key).map Evidence.negate :=
  List.filter_map ..

theorem memberRanked_negate (hvalues : ∀ e ∈ evidence, i32Min < e.lo.value) (key : U64) :
    memberRanked (evidence.map Evidence.negate) key = (memberRanked evidence key).map (-·) := by
  have hi32Min : i32Min = -2 ^ 31 := rfl
  have hi32Max : i32Max = 2 ^ 31 - 1 := rfl
  have hmap : (groupMembers (evidence.map Evidence.negate) key).map (fun e => (e.lo.value, e.id)) =
      ((groupMembers evidence key).map fun e => (e.lo.value, e.id)).map fun p => (-p.1, p.2) := by
    rw [groupMembers_negate, List.map_map, List.map_map]
    refine List.map_congr_left fun e he => ?_
    exact Prod.ext (LogOdds.negate_value (hvalues e (List.mem_of_mem_filter he))) rfl
  unfold memberRanked
  rw [hmap, ranked_neg, List.map_map, List.map_map]
  · rfl
  · intro p hp
    obtain ⟨e, he, rfl⟩ := List.mem_map.mp hp
    have hlow := hvalues e (List.mem_of_mem_filter he)
    have hhigh := e.lo.isI32.2
    exact ⟨hlow.ne', by dsimp only; omega⟩

/-- The products of single items do not wrap. -/
theorem discountedTerms_memberRanked_neg {discountBps : ℕ} (hd : discountBps ≤ 10000) (key : U64) :
    (discountedTerms discountBps 0 ((memberRanked evidence key).map (-·))).sum =
      -(discountedTerms discountBps 0 (memberRanked evidence key)).sum := by
  have hall : ∀ (rank : ℕ) (l : List ℤ), (∀ x ∈ l, |x| ≤ 2 ^ 31) →
      ∀ p ∈ products discountBps rank l, ¬ WrapsToMin p := by
    intro rank l
    induction l generalizing rank with
    | nil => exact fun _ p hp => absurd hp List.not_mem_nil
    | cons x l ih =>
      intro hl p hp
      rcases List.mem_cons.mp hp with rfl | hp
      · have hx := hl x (List.mem_cons_self ..)
        have hprod := abs_mul_factor_le hd rank x
        obtain ⟨hlow, hhigh⟩ := abs_le.mp hprod
        unfold WrapsToMin
        omega
      · exact ih _ (fun y hy => hl y (List.mem_cons_of_mem x hy)) p hp
  have hnone : (products discountBps 0 (memberRanked evidence key)).countP WrapsToMin = 0 :=
    List.countP_eq_zero.mpr fun p hp => by
      simpa using hall 0 _ (fun x hx => abs_le_of_mem_memberRanked hx) p hp
  rw [discountedTerms, discountedTerms, products_neg, sum_termOf_neg, sum_termOf, hnone]
  simp

/-- Negating the evidence negates the totals of the groups. -/
theorem groupTotals_negate {discountBps : ℕ} (hd : discountBps ≤ 10000)
    (hvalues : ∀ e ∈ evidence, i32Min < e.lo.value) (hlen : evidence.length < 2 ^ 31) :
    groupTotals discountBps (evidence.map Evidence.negate) =
      (groupTotals discountBps evidence).map fun g => (-g.1, g.2) := by
  have hfits : ∀ {evidence : List Evidence}, evidence.length < 2 ^ 31 → ∀ key,
      absSum (memberRanked evidence key) ≤ i64Max := fun hlen key =>
    (absSum_memberRanked_le hlen key).trans (by decide)
  have hlen' : (evidence.map Evidence.negate).length < 2 ^ 31 := by rwa [List.length_map]
  unfold groupTotals
  rw [groupKeys_negate, List.map_map]
  refine List.map_congr_left fun key _ => ?_
  have htotal : groupTotal discountBps (groupMembers (evidence.map Evidence.negate) key) =
      -groupTotal discountBps (groupMembers evidence key) := by
    rw [groupTotal_eq_sum hd (hfits hlen' key), groupTotal_eq_sum hd (hfits hlen key),
      memberRanked_negate hvalues, discountedTerms_memberRanked_neg hd]
  dsimp only [Function.comp_apply]
  rw [htotal, groupMembers_negate, List.all_map, List.map_map]
  rfl

theorem assessedGroupTotals_negate {discountBps : ℕ} (hd : discountBps ≤ 10000)
    (hvalues : ∀ e ∈ evidence, i32Min < e.lo.value) (hlen : evidence.length < 2 ^ 31) :
    assessedGroupTotals discountBps (evidence.map Evidence.negate) =
      (assessedGroupTotals discountBps evidence).map (-·) := by
  unfold assessedGroupTotals
  rw [groupTotals_negate hd hvalues hlen, List.filter_map, List.map_map, List.map_map]
  rfl

theorem countedTotals_negate {discountBps : ℕ} (hd : discountBps ≤ 10000)
    (hvalues : ∀ e ∈ evidence, i32Min < e.lo.value) (hlen : evidence.length < 2 ^ 31) :
    countedTotals discountBps (evidence.map Evidence.negate) =
      (countedTotals discountBps evidence).map (-·) := by
  have hmap : unassessedGroupTotals discountBps (evidence.map Evidence.negate) =
      (unassessedGroupTotals discountBps evidence).map fun p => (-p.1, p.2) := by
    unfold unassessedGroupTotals
    rw [groupTotals_negate hd hvalues hlen, List.filter_map, List.map_map, List.map_map]
    rfl
  unfold countedTotals
  rw [hmap, ranked_neg, ← List.map_take, List.map_map, List.map_map]
  · rfl
  · -- a total of fewer than `2 ^ 31` items is far from `i64::MIN`
    intro p hp
    obtain ⟨g, hg, rfl⟩ := List.mem_map.mp hp
    obtain ⟨key, _, rfl⟩ := List.mem_map.mp (List.mem_of_mem_filter hg)
    have hfits := absSum_memberRanked_le hlen key
    have hmax : i64Max = 2 ^ 63 - 1 := rfl
    have hmin : i64Min = -2 ^ 63 := rfl
    have habs := (abs_groupTotal_le_absSum hd evidence key).trans hfits
    obtain ⟨hlow, hhigh⟩ := abs_le.mp habs
    exact ⟨by dsimp only; omega, by dsimp only; omega⟩

end Groups

/-! ## The result -/

/-- The contributions to the result that negation negates. -/
def symmetricTotal (discountBps unassessedDiscountBps : ℕ) (evidence : List Evidence) : ℤ :=
  (assessedGroupTotals discountBps evidence).sum +
    symmetricSum (products unassessedDiscountBps 0 (countedTotals discountBps evidence))

/-- The number of the groups whose product wraps around to `i64::MIN`. -/
def minCount (discountBps unassessedDiscountBps : ℕ) (evidence : List Evidence) : ℕ :=
  (products unassessedDiscountBps 0 (countedTotals discountBps evidence)).countP WrapsToMin

/-- No product wraps around to `i64::MIN`, or the other contributions outweigh those that do. -/
def SignBlind (discountBps unassessedDiscountBps : ℕ) (evidence : List Evidence) : Prop :=
  minCount discountBps unassessedDiscountBps evidence = 0 ∨
    LogOdds.safeMax + minCount discountBps unassessedDiscountBps evidence * -minTerm ≤
      |symmetricTotal discountBps unassessedDiscountBps evidence|

section Result

variable {evidence : List Evidence} {discountBps : ℕ}

theorem aggregateHierarchical_value (hd : discountBps ≤ 10000) (hlen : evidence.length < 2 ^ 31)
    (unassessedDiscountBps : ℕ) :
    (aggregateHierarchical evidence discountBps unassessedDiscountBps).value =
      clamp LogOdds.safeMin LogOdds.safeMax
        (symmetricTotal discountBps unassessedDiscountBps evidence +
          minCount discountBps unassessedDiscountBps evidence * minTerm) := by
  rw [aggregateHierarchical_eq_sum hd hlen, discountedTerms, sum_termOf, ← add_assoc]
  rfl

theorem aggregateHierarchical_negate_value (hd : discountBps ≤ 10000)
    (hvalues : ∀ e ∈ evidence, i32Min < e.lo.value) (hlen : evidence.length < 2 ^ 31)
    (unassessedDiscountBps : ℕ) :
    (aggregateHierarchical (evidence.map Evidence.negate) discountBps unassessedDiscountBps).value =
      clamp LogOdds.safeMin LogOdds.safeMax
        (-symmetricTotal discountBps unassessedDiscountBps evidence +
          minCount discountBps unassessedDiscountBps evidence * minTerm) := by
  have hlen' : (evidence.map Evidence.negate).length < 2 ^ 31 := by rwa [List.length_map]
  rw [aggregateHierarchical_eq_sum hd hlen', discountedTerms, assessedGroupTotals_negate hd hvalues hlen,
    countedTotals_negate hd hvalues hlen, products_neg, sum_termOf_neg, ← List.sum_neg, ← add_assoc,
    ← neg_add]
  rfl

/-- Negating all evidence negates the result exactly when no product wraps around to `i64::MIN` or
those that do are outweighed. -/
theorem aggregateHierarchical_negate_iff (hd : discountBps ≤ 10000)
    (hvalues : ∀ e ∈ evidence, i32Min < e.lo.value) (hlen : evidence.length < 2 ^ 31)
    (unassessedDiscountBps : ℕ) :
    (aggregateHierarchical (evidence.map Evidence.negate) discountBps unassessedDiscountBps).value =
        -(aggregateHierarchical evidence discountBps unassessedDiscountBps).value ↔
      SignBlind discountBps unassessedDiscountBps evidence := by
  rw [aggregateHierarchical_value hd hlen, aggregateHierarchical_negate_value hd hvalues hlen]
  unfold SignBlind minTerm LogOdds.safeMin LogOdds.safeMax clamp
  generalize minCount discountBps unassessedDiscountBps evidence = k
  generalize symmetricTotal discountBps unassessedDiscountBps evidence = t
  rcases abs_cases t with ⟨habs, _⟩ | ⟨habs, _⟩
  · rw [habs]
    omega
  · rw [habs]
    omega

end Result

/-- A disagreement within one group. -/
theorem aggregateHierarchical_negate_iff_two :
    (aggregateHierarchical ([⟨⟨500, by decide⟩, ⟨7, false⟩, numberedId 1⟩,
          ⟨⟨-300, by decide⟩, ⟨7, false⟩, numberedId 2⟩].map Evidence.negate) defaultDiscountBps
        unassessedDiscountBps).value =
      -(aggregateHierarchical [⟨⟨500, by decide⟩, ⟨7, false⟩, numberedId 1⟩,
          ⟨⟨-300, by decide⟩, ⟨7, false⟩, numberedId 2⟩] defaultDiscountBps
        unassessedDiscountBps).value ↔
      SignBlind defaultDiscountBps unassessedDiscountBps
        [⟨⟨500, by decide⟩, ⟨7, false⟩, numberedId 1⟩, ⟨⟨-300, by decide⟩, ⟨7, false⟩, numberedId 2⟩] :=
  aggregateHierarchical_negate_iff (by decide) (by decide) (by decide) _

/-- Items of one strength whose product wraps around to `i64::MIN` count against, whatever their sign. -/
theorem aggregateHierarchical_wrapsToMin {lo : LogOdds} {n : ℕ} (hn : 0 < n) (hlen : n < 2 ^ 31)
    (hwrap : WrapsToMin (n * lo.value * 10000)) :
    (aggregateHierarchical (numberedGroup lo n) 10000 10000).value = LogOdds.safeMin := by
  have hne : numberedGroup lo n ≠ [] := by
    rw [← List.length_pos_iff, length_numberedGroup]
    exact hn
  rw [aggregateHierarchical_uniform (fun e he => (mem_numberedGroup he).1)
    (fun e he => (mem_numberedGroup he).2) hne (by rwa [length_numberedGroup]), length_numberedGroup,
    termOf_of_wrapsToMin hwrap]
  rfl

/-- `2 ^ 29` items for a claim, or as many against it: both times the belief is that it is false. -/
theorem aggregateHierarchical_negate_heavy :
    ((numberedGroup ⟨2 ^ 30, by decide⟩ (2 ^ 29)).map Evidence.id).Nodup ∧
      (∀ e ∈ numberedGroup ⟨2 ^ 30, by decide⟩ (2 ^ 29), i32Min < e.lo.value) ∧
      (numberedGroup ⟨2 ^ 30, by decide⟩ (2 ^ 29)).length < 2 ^ 31 ∧
      (aggregateHierarchical (numberedGroup ⟨2 ^ 30, by decide⟩ (2 ^ 29)) 10000 10000).value =
        LogOdds.safeMin ∧
      (aggregateHierarchical ((numberedGroup ⟨2 ^ 30, by decide⟩ (2 ^ 29)).map Evidence.negate) 10000
        10000).value = LogOdds.safeMin ∧
      LogOdds.safeMin ≠ -LogOdds.safeMin := by
  have hneg : (numberedGroup ⟨2 ^ 30, by decide⟩ (2 ^ 29)).map Evidence.negate =
      numberedGroup ⟨-2 ^ 30, by decide⟩ (2 ^ 29) := List.map_map ..
  refine ⟨numberedGroup_ids_nodup (by norm_num), fun e he => ?_, ?_, ?_, ?_, by decide⟩
  · rw [(mem_numberedGroup he).1]
    decide
  · rw [length_numberedGroup]
    norm_num
  · exact aggregateHierarchical_wrapsToMin (by norm_num) (by norm_num) (by
      unfold WrapsToMin
      norm_num)
  · rw [hneg]
    exact aggregateHierarchical_wrapsToMin (by norm_num) (by norm_num) (by
      unfold WrapsToMin
      norm_num)

end Aimp.Epistemic
