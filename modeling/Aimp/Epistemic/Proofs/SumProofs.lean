import Aimp.Epistemic.Proofs.AggregateProofs

/-!
# Saturating and discounted sums

A saturating sum is the sum itself as long as neither the positive nor the negative values leave an
`i64` (`foldl_saturatingAdd_of_fits`). A discounted sum is the saturating sum of its terms
(`addDiscounted_eq_foldl`), and a discount of at most 100% makes no term larger
(`absSum_discountedTerms_le`).
-/

namespace Aimp.Epistemic

/-! ## The safe range -/

/-- `SAFE_MIN..=SAFE_MAX`. -/
def InSafe (lo : LogOdds) : Prop := LogOdds.safeMin ≤ lo.value ∧ lo.value ≤ LogOdds.safeMax

instance : DecidablePred InSafe := fun _ => inferInstanceAs (Decidable (_ ∧ _))

theorem inSafe_safe (x : ℤ) : InSafe (.safe x) := clamp_mem (by decide) x

theorem inSafe_neutral : InSafe .neutral := by decide

/-! ## Saturating sums -/

/-- The sum of the positive values. -/
def positiveSum (l : List ℤ) : ℤ := (l.map fun x => max x 0).sum

/-- The sum of the negative values. -/
def negativeSum (l : List ℤ) : ℤ := (l.map fun x => min x 0).sum

@[simp] theorem positiveSum_cons (x : ℤ) (l : List ℤ) :
    positiveSum (x :: l) = max x 0 + positiveSum l := rfl

@[simp] theorem negativeSum_cons (x : ℤ) (l : List ℤ) :
    negativeSum (x :: l) = min x 0 + negativeSum l := rfl

theorem positiveSum_nonneg (l : List ℤ) : 0 ≤ positiveSum l :=
  List.sum_nonneg fun y hy => by
    obtain ⟨x, _, rfl⟩ := List.mem_map.mp hy
    exact le_max_right x 0

theorem negativeSum_nonpos (l : List ℤ) : negativeSum l ≤ 0 := by
  induction l with
  | nil => exact le_rfl
  | cons x l ih =>
    rw [negativeSum_cons]
    exact add_nonpos (min_le_right x 0) ih

theorem positiveSum_perm {l l' : List ℤ} (h : l.Perm l') : positiveSum l = positiveSum l' :=
  (h.map _).sum_eq

theorem negativeSum_perm {l l' : List ℤ} (h : l.Perm l') : negativeSum l = negativeSum l' :=
  (h.map _).sum_eq

theorem saturatingAdd_of_mem {x y : ℤ} (h : i64Min ≤ x + y) (h' : x + y ≤ i64Max) :
    saturatingAdd x y = x + y := clamp_of_mem h h'

/-- Nothing saturates while the values fit from both sides. -/
theorem foldl_saturatingAdd_of_fits {l : List ℤ} {total : ℤ} (h : total + positiveSum l ≤ i64Max)
    (h' : i64Min ≤ total + negativeSum l) : l.foldl saturatingAdd total = total + l.sum := by
  induction l generalizing total with
  | nil => simp
  | cons x l ih =>
    rw [positiveSum_cons] at h
    rw [negativeSum_cons] at h'
    have hpos := positiveSum_nonneg l
    have hneg := negativeSum_nonpos l
    have hadd : saturatingAdd total x = total + x := saturatingAdd_of_mem (by omega) (by omega)
    rw [List.foldl_cons, hadd, ih (by omega) (by omega), List.sum_cons, add_assoc]

/-- Values of one sign saturate at most once, so the sum is clamped only at the end. -/
theorem foldl_saturatingAdd_of_sign {l : List ℤ} (hl : (∀ x ∈ l, 0 ≤ x) ∨ ∀ x ∈ l, x ≤ 0) {total : ℤ}
    (ht : i64Min ≤ total) (ht' : total ≤ i64Max) :
    l.foldl saturatingAdd total = clamp i64Min i64Max (total + l.sum) := by
  induction l generalizing total with
  | nil => simp [clamp_of_mem ht ht']
  | cons x l ih =>
    have hrest : (∀ y ∈ l, 0 ≤ y) ∨ ∀ y ∈ l, y ≤ 0 :=
      hl.imp (fun h y hy => h y (List.mem_cons_of_mem x hy)) fun h y hy => h y (List.mem_cons_of_mem x hy)
    have hsign : 0 ≤ x ∧ 0 ≤ l.sum ∨ x ≤ 0 ∧ l.sum ≤ 0 := by
      rcases hl with h | h
      · exact Or.inl ⟨h x (List.mem_cons_self ..),
          List.sum_nonneg fun y hy => h y (List.mem_cons_of_mem x hy)⟩
      · refine Or.inr ⟨h x (List.mem_cons_self ..), ?_⟩
        simpa using List.sum_le_card_nsmul l 0 fun y hy => h y (List.mem_cons_of_mem x hy)
    obtain ⟨hmem, hmem'⟩ := saturatingAdd_mem total x
    have hlt : i64Min < i64Max := by decide
    rw [List.foldl_cons, ih hrest hmem hmem', List.sum_cons]
    unfold saturatingAdd clamp
    omega

/-- The sum of the absolute values. -/
def absSum (l : List ℤ) : ℤ := (l.map fun x => |x|).sum

@[simp] theorem absSum_cons (x : ℤ) (l : List ℤ) : absSum (x :: l) = |x| + absSum l := rfl

theorem absSum_nonneg (l : List ℤ) : 0 ≤ absSum l :=
  List.sum_nonneg fun y hy => by
    obtain ⟨x, _, rfl⟩ := List.mem_map.mp hy
    exact abs_nonneg x

theorem absSum_perm {l l' : List ℤ} (h : l.Perm l') : absSum l = absSum l' := (h.map _).sum_eq

theorem absSum_replicate (n : ℕ) (x : ℤ) : absSum (List.replicate n x) = n * |x| := by
  rw [absSum, List.map_replicate, List.sum_replicate, nsmul_eq_mul]

theorem absSum_append (l l' : List ℤ) : absSum (l ++ l') = absSum l + absSum l' := by
  unfold absSum
  rw [List.map_append, List.sum_append]

theorem absSum_sublist {l l' : List ℤ} (h : l.Sublist l') : absSum l ≤ absSum l' :=
  (h.map _).sum_le_sum fun y hy => by
    obtain ⟨x, _, rfl⟩ := List.mem_map.mp hy
    exact abs_nonneg x

theorem abs_le_absSum {l : List ℤ} {x : ℤ} (h : x ∈ l) : |x| ≤ absSum l := by
  have hle := absSum_sublist (List.singleton_sublist.mpr h)
  rwa [absSum_cons, absSum, List.map_nil, List.sum_nil, add_zero] at hle

theorem abs_sum_le_absSum (l : List ℤ) : |l.sum| ≤ absSum l := by
  induction l with
  | nil => exact le_rfl
  | cons x l ih =>
    rw [List.sum_cons, absSum_cons]
    exact (abs_add_le x l.sum).trans (add_le_add_right ih _)

theorem absSum_le {l : List ℤ} {bound : ℤ} (h : ∀ x ∈ l, |x| ≤ bound) :
    absSum l ≤ l.length * bound := by
  induction l with
  | nil => simp [absSum]
  | cons x l ih =>
    have hx := h x (List.mem_cons_self ..)
    have hrest := ih fun y hy => h y (List.mem_cons_of_mem x hy)
    rw [absSum_cons, List.length_cons]
    push_cast
    linarith

theorem positiveSum_le_absSum (l : List ℤ) : positiveSum l ≤ absSum l :=
  List.sum_le_sum fun x _ => max_le (le_abs_self x) (abs_nonneg x)

theorem neg_absSum_le_negativeSum (l : List ℤ) : -absSum l ≤ negativeSum l := by
  induction l with
  | nil => exact le_rfl
  | cons x l ih =>
    rw [absSum_cons, negativeSum_cons]
    have hx : -|x| ≤ min x 0 := le_min (neg_abs_le x) (neg_nonpos.mpr (abs_nonneg x))
    omega

theorem foldl_saturatingAdd_of_absSum {l : List ℤ} {total : ℤ} (h : |total| + absSum l ≤ i64Max) :
    l.foldl saturatingAdd total = total + l.sum := by
  have hpos := positiveSum_le_absSum l
  have hneg := neg_absSum_le_negativeSum l
  have hmin : i64Min = -i64Max - 1 := by decide
  have hle := le_abs_self total
  have hge := neg_abs_le total
  exact foldl_saturatingAdd_of_fits (by omega) (by omega)

theorem abs_foldl_saturatingAdd_le (l : List ℤ) (total : ℤ) :
    |l.foldl saturatingAdd total| ≤ |total| + absSum l := by
  induction l generalizing total with
  | nil => exact (add_zero _).ge
  | cons y l ih =>
    have hstep := abs_saturatingAdd_le total y
    have hrest := ih (saturatingAdd total y)
    rw [List.foldl_cons, absSum_cons]
    omega

/-! ## Discounted sums -/

theorem discountFactor_lt (rank discountBps : ℕ) : discountFactor rank discountBps < 2 ^ 63 := by
  unfold discountFactor
  cases min rank maxDiscountDepth with
  | zero => exact (by norm_num : 10000 < 2 ^ 63)
  | succ n =>
    rw [Function.iterate_succ_apply']
    have hmod := Nat.mod_lt ((fun factor => factor * discountBps % 2 ^ 64 / 10000)^[n] 10000 *
      discountBps) (show 0 < 2 ^ 64 by norm_num)
    omega

/-- A factor needs no wrapping. -/
theorem wrapI64_discountFactor (rank discountBps : ℕ) :
    wrapI64 (discountFactor rank discountBps) = discountFactor rank discountBps := by
  have hlt : (discountFactor rank discountBps : ℤ) < 2 ^ 63 := by
    exact_mod_cast discountFactor_lt rank discountBps
  have hmax : i64Max = 2 ^ 63 - 1 := rfl
  exact wrapI64_of_mem (le_trans (by decide) (Int.natCast_nonneg _)) (by omega)

/-- The products of the ranked values with their factors. -/
def products (discountBps : ℕ) : ℕ → List ℤ → List ℤ
  | _, [] => []
  | rank, x :: xs => x * discountFactor rank discountBps :: products discountBps (rank + 1) xs

/-- What a product adds to a sum. -/
def termOf (product : ℤ) : ℤ := (wrapI64 product).tdiv 10000

/-- The terms of a discounted sum. -/
def discountedTerms (discountBps rank : ℕ) (l : List ℤ) : List ℤ :=
  (products discountBps rank l).map termOf

theorem discountedTerms_cons (discountBps rank : ℕ) (x : ℤ) (l : List ℤ) :
    discountedTerms discountBps rank (x :: l) =
      termOf (x * discountFactor rank discountBps) :: discountedTerms discountBps (rank + 1) l := rfl

theorem addDiscounted_eq_foldl (discountBps rank : ℕ) (total : ℤ) (l : List ℤ) :
    addDiscounted discountBps rank total l =
      (discountedTerms discountBps rank l).foldl saturatingAdd total := by
  induction l generalizing rank total with
  | nil => rfl
  | cons x l ih =>
    rw [addDiscounted, ih, wrapI64_discountFactor, discountedTerms_cons, List.foldl_cons]
    rfl

theorem length_products (discountBps rank : ℕ) (l : List ℤ) :
    (products discountBps rank l).length = l.length := by
  induction l generalizing rank with
  | nil => rfl
  | cons x l ih => exact congrArg (· + 1) (ih _)

theorem abs_mul_factor_le {discountBps : ℕ} (hd : discountBps ≤ 10000) (rank : ℕ) (x : ℤ) :
    |x * discountFactor rank discountBps| ≤ |x| * 10000 := by
  have hf : (discountFactor rank discountBps : ℤ) ≤ 10000 := by
    exact_mod_cast discountFactor_le hd rank
  rw [abs_mul, abs_of_nonneg (Int.natCast_nonneg (discountFactor rank discountBps))]
  exact mul_le_mul_of_nonneg_left hf (abs_nonneg x)

theorem abs_tdiv_le {x bound : ℤ} (h : |x| < (bound + 1) * 10000) : |x.tdiv 10000| ≤ bound := by
  rcases abs_cases x with ⟨habs, hx⟩ | ⟨habs, hx⟩
  · rw [abs_of_nonneg (Int.tdiv_nonneg hx (by decide)), Int.tdiv_eq_ediv_of_nonneg hx]
    omega
  · rw [show x = -(-x) by omega, Int.neg_tdiv, abs_neg,
      abs_of_nonneg (Int.tdiv_nonneg (by omega) (by decide)),
      Int.tdiv_eq_ediv_of_nonneg (by omega)]
    omega

/-- The term of `i64::MIN`, the largest there is. -/
def minTerm : ℤ := -922337203685477

theorem abs_termOf_le (product : ℤ) : |termOf product| ≤ -minTerm := by
  have hwrap : |wrapI64 product| ≤ 2 ^ 63 := by
    unfold wrapI64
    rw [Int.bmod_def, abs_le]
    omega
  refine abs_tdiv_le ?_
  unfold minTerm
  omega

/-- The term of a product that fits into an `i64`. -/
theorem termOf_of_abs_le {product : ℤ} (h : |product| ≤ i64Max) :
    termOf product = product.tdiv 10000 := by
  have hmin : i64Min = -i64Max - 1 := by decide
  obtain ⟨hlow, hhigh⟩ := abs_le.mp h
  rw [termOf, wrapI64_of_mem (by omega) hhigh]

/-- A term is no larger than the value that it discounts, and smaller if there is a discount. -/
theorem abs_termOf_mul_le {factor : ℕ} (hfactor : factor ≤ 10000) (y : ℤ) :
    |termOf (y * factor)| ≤ |y| ∧ (factor < 10000 → y ≠ 0 → |termOf (y * factor)| < |y|) := by
  have habs : |y * (factor : ℤ)| = |y| * factor := by
    rw [abs_mul, abs_of_nonneg (Int.natCast_nonneg factor)]
  have hfactor' : (factor : ℤ) ≤ 10000 := by exact_mod_cast hfactor
  have hprod : |y| * (factor : ℤ) ≤ |y| * 10000 := mul_le_mul_of_nonneg_left hfactor' (abs_nonneg y)
  by_cases hfits : |y * (factor : ℤ)| ≤ i64Max
  · rw [termOf_of_abs_le hfits]
    constructor
    · exact abs_tdiv_le (by omega)
    · intro hlt hne
      have hpos := abs_pos.mpr hne
      have hlt' : (factor : ℤ) < 10000 := by exact_mod_cast hlt
      have hless : |y| * (factor : ℤ) < |y| * 10000 := mul_lt_mul_of_pos_left hlt' hpos
      have hle : |(y * (factor : ℤ)).tdiv 10000| ≤ |y| - 1 := abs_tdiv_le (by omega)
      omega
  · -- a product that wraps around has a term that is smaller than the value
    have hterm := abs_termOf_le (y * (factor : ℤ))
    have hmax : i64Max = 2 ^ 63 - 1 := rfl
    unfold minTerm at hterm
    exact ⟨by omega, fun _ _ => by omega⟩

theorem absSum_discountedTerms_le {discountBps : ℕ} (hd : discountBps ≤ 10000) (rank : ℕ) (l : List ℤ) :
    absSum (discountedTerms discountBps rank l) ≤ absSum l := by
  induction l generalizing rank with
  | nil => exact le_rfl
  | cons y l ih =>
    rw [discountedTerms_cons, absSum_cons, absSum_cons]
    exact add_le_add (abs_termOf_mul_le (discountFactor_le hd rank) y).1 (ih (rank + 1))

theorem absSum_discountedTerms_le_length (discountBps rank : ℕ) (l : List ℤ) :
    absSum (discountedTerms discountBps rank l) ≤ l.length * -minTerm := by
  have hle : absSum (discountedTerms discountBps rank l) ≤
      (discountedTerms discountBps rank l).length * -minTerm := by
    refine absSum_le fun x hx => ?_
    obtain ⟨product, _, rfl⟩ := List.mem_map.mp hx
    exact abs_termOf_le product
  rwa [discountedTerms, List.length_map, length_products] at hle

/-- A discounted sum that cannot saturate. -/
theorem addDiscounted_eq_sum {discountBps : ℕ} (hd : discountBps ≤ 10000) {total : ℤ} {l : List ℤ}
    (h : |total| + absSum l ≤ i64Max) :
    addDiscounted discountBps 0 total l = total + (discountedTerms discountBps 0 l).sum := by
  have hterms := absSum_discountedTerms_le hd 0 l
  rw [addDiscounted_eq_foldl]
  exact foldl_saturatingAdd_of_absSum (by omega)

/-! ## The groups of the evidence -/

/-- The log-odds of a group, strongest first. -/
def memberRanked (evidence : List Evidence) (key : U64) : List ℤ :=
  (((groupMembers evidence key).map fun e => (e.lo.value, e.id)).insertionSort
    (strongerOrEqual i32Min)).map Prod.fst

theorem groupTotal_members (discountBps : ℕ) (evidence : List Evidence) (key : U64) :
    groupTotal discountBps (groupMembers evidence key) =
      addDiscounted discountBps 0 0 (memberRanked evidence key) := rfl

theorem memberRanked_perm (evidence : List Evidence) (key : U64) :
    (memberRanked evidence key).Perm (groupValues evidence key) := by
  refine ((List.perm_insertionSort _ _).map Prod.fst).trans (.of_eq ?_)
  rw [List.map_map]
  rfl

theorem LogOdds.abs_value_le (lo : LogOdds) : |lo.value| ≤ 2 ^ 31 :=
  abs_le.mpr ⟨lo.isI32.1, lo.isI32.2.trans (by decide)⟩

theorem abs_le_of_mem_memberRanked {evidence : List Evidence} {key : U64} {x : ℤ}
    (hx : x ∈ memberRanked evidence key) : |x| ≤ 2 ^ 31 := by
  obtain ⟨e, _, rfl⟩ := List.mem_map.mp ((memberRanked_perm evidence key).mem_iff.mp hx)
  exact e.lo.abs_value_le

theorem memberRanked_fits {evidence : List Evidence} {key : U64} :
    ∀ x ∈ memberRanked evidence key, |x| * 10000 ≤ i64Max := by
  intro x hx
  have hle := abs_le_of_mem_memberRanked hx
  have hmax : i64Max = 2 ^ 63 - 1 := rfl
  omega

/-- The groups together hold the evidence. -/
theorem sum_map_memberRanked {M : Type*} [AddCommMonoid M] (f : ℤ → M) (evidence : List Evidence) :
    ((groupKeys evidence).map fun key => ((memberRanked evidence key).map f).sum).sum =
      (evidence.map fun e => f e.lo.value).sum := by
  have hgroup : ∀ key, ((memberRanked evidence key).map f).sum =
      ((evidence.filter fun e => e.group.key = key).map fun e => f e.lo.value).sum := by
    intro key
    rw [((memberRanked_perm evidence key).map f).sum_eq, groupValues, List.map_map]
    rfl
  simp only [hgroup]
  rw [← List.sum_toFinset _ (nodup_groupKeys evidence)]
  refine sum_map_filter_key (fun e : Evidence => e.group.key) _ fun e he => ?_
  exact List.mem_toFinset.mpr (mem_groupKeys.mpr ⟨e, he, rfl⟩)

theorem sum_absSum_memberRanked (evidence : List Evidence) :
    ((groupKeys evidence).map fun key => absSum (memberRanked evidence key)).sum =
      absSum (evidence.map fun e => e.lo.value) := by
  unfold absSum
  rw [sum_map_memberRanked, List.map_map]
  rfl

/-- Fewer than `2 ^ 31` items cannot saturate anything. -/
theorem absSum_values_le {evidence : List Evidence} (hlen : evidence.length < 2 ^ 31) :
    absSum (evidence.map fun e => e.lo.value) ≤ 2 ^ 62 := by
  have hle : absSum (evidence.map fun e => e.lo.value) ≤
      (evidence.map fun e => e.lo.value).length * 2 ^ 31 := by
    refine absSum_le fun x hx => ?_
    obtain ⟨e, _, rfl⟩ := List.mem_map.mp hx
    exact e.lo.abs_value_le
  rw [List.length_map] at hle
  omega

theorem absSum_memberRanked_le {evidence : List Evidence} (hlen : evidence.length < 2 ^ 31)
    (key : U64) : absSum (memberRanked evidence key) ≤ 2 ^ 62 := by
  have hle := absSum_le fun x (hx : x ∈ memberRanked evidence key) => abs_le_of_mem_memberRanked hx
  have hlength : (memberRanked evidence key).length ≤ evidence.length := by
    rw [(memberRanked_perm evidence key).length_eq, groupValues, List.length_map]
    exact List.length_filter_le _ _
  omega

theorem groupTotal_eq_sum {discountBps : ℕ} (hd : discountBps ≤ 10000) {evidence : List Evidence}
    {key : U64} (h : absSum (memberRanked evidence key) ≤ i64Max) :
    groupTotal discountBps (groupMembers evidence key) =
      (discountedTerms discountBps 0 (memberRanked evidence key)).sum := by
  rw [groupTotal_members, addDiscounted_eq_sum hd (by simpa using h), zero_add]

theorem abs_groupTotal_le_terms (discountBps : ℕ) (evidence : List Evidence) (key : U64) :
    |groupTotal discountBps (groupMembers evidence key)| ≤
      absSum (discountedTerms discountBps 0 (memberRanked evidence key)) := by
  have hle := abs_foldl_saturatingAdd_le
    (discountedTerms discountBps 0 (memberRanked evidence key)) 0
  rwa [abs_zero, zero_add, ← addDiscounted_eq_foldl, ← groupTotal_members] at hle

theorem abs_groupTotal_le_absSum {discountBps : ℕ} (hd : discountBps ≤ 10000)
    (evidence : List Evidence) (key : U64) :
    |groupTotal discountBps (groupMembers evidence key)| ≤ absSum (memberRanked evidence key) :=
  (abs_groupTotal_le_terms discountBps evidence key).trans (absSum_discountedTerms_le hd 0 _)

/-! ## Both levels -/

/-- The totals of the assessed groups. -/
def assessedGroupTotals (discountBps : ℕ) (evidence : List Evidence) : List ℤ :=
  ((groupTotals discountBps evidence).filter fun g => g.2.1).map Prod.fst

/-- The totals of the unassessed groups with their anchors. -/
def unassessedGroupTotals (discountBps : ℕ) (evidence : List Evidence) : List (ℤ × ClaimHash) :=
  ((groupTotals discountBps evidence).filter fun g => !g.2.1).map fun g => (g.1, g.2.2)

/-- The totals of the unassessed groups that count, strongest first. -/
def countedTotals (discountBps : ℕ) (evidence : List Evidence) : List ℤ :=
  (((unassessedGroupTotals discountBps evidence).insertionSort (strongerOrEqual i64Min)).take
    maxDiscountDepth).map Prod.fst

theorem aggregateHierarchical_eq_levels (evidence : List Evidence)
    (discountBps unassessedDiscountBps : ℕ) :
    aggregateHierarchical evidence discountBps unassessedDiscountBps =
      .safe (addDiscounted unassessedDiscountBps 0
        ((assessedGroupTotals discountBps evidence).foldl saturatingAdd 0)
        (countedTotals discountBps evidence)) := by
  unfold aggregateHierarchical
  cases evidence with
  | nil => rfl
  | cons e evidence => rfl

theorem map_fst_groupTotals (discountBps : ℕ) (evidence : List Evidence) :
    (groupTotals discountBps evidence).map Prod.fst =
      (groupKeys evidence).map fun key => groupTotal discountBps (groupMembers evidence key) :=
  List.map_map ..

theorem length_countedTotals_le (discountBps : ℕ) (evidence : List Evidence) :
    (countedTotals discountBps evidence).length ≤ maxDiscountDepth := by
  unfold countedTotals
  rw [List.length_map]
  exact List.length_take_le _ _

/-- The totals of both kinds of groups are those of all groups. -/
theorem levels_perm (discountBps : ℕ) (evidence : List Evidence) :
    (assessedGroupTotals discountBps evidence ++
        (unassessedGroupTotals discountBps evidence).map Prod.fst).Perm
      ((groupTotals discountBps evidence).map Prod.fst) := by
  unfold assessedGroupTotals unassessedGroupTotals
  have hperm := (List.filter_append_perm (fun g : ℤ × Bool × ClaimHash => g.2.1)
    (groupTotals discountBps evidence)).map Prod.fst
  rw [List.map_append] at hperm
  rw [List.map_map]
  exact hperm

/-- What counts of the unassessed groups are totals of groups. -/
theorem mem_countedTotals {discountBps : ℕ} {evidence : List Evidence} {y : ℤ}
    (hy : y ∈ countedTotals discountBps evidence) :
    ∃ key ∈ groupKeys evidence, groupTotal discountBps (groupMembers evidence key) = y := by
  obtain ⟨p, hp, rfl⟩ := List.mem_map.mp hy
  have hmem : p.1 ∈ (groupTotals discountBps evidence).map Prod.fst := by
    refine (levels_perm discountBps evidence).subset (List.mem_append_right _ ?_)
    exact List.mem_map_of_mem ((List.mem_insertionSort _).mp (List.mem_of_mem_take hp))
  rw [map_fst_groupTotals] at hmem
  exact List.mem_map.mp hmem

section Fits

variable {discountBps : ℕ} {evidence : List Evidence}

theorem absSum_assessedGroupTotals_le (hd : discountBps ≤ 10000) (hlen : evidence.length < 2 ^ 31) :
    absSum (assessedGroupTotals discountBps evidence) ≤ 2 ^ 62 := by
  have hle : absSum (assessedGroupTotals discountBps evidence) ≤
      absSum ((groupTotals discountBps evidence).map Prod.fst) :=
    absSum_sublist (List.filter_sublist.map _)
  refine hle.trans (le_trans ?_ (absSum_values_le hlen))
  rw [map_fst_groupTotals, absSum, List.map_map, ← sum_absSum_memberRanked]
  exact List.sum_le_sum fun key _ => abs_groupTotal_le_absSum hd evidence key

/-- With fewer than `2 ^ 31` items neither level saturates. -/
theorem aggregateHierarchical_eq_sum (hd : discountBps ≤ 10000) (hlen : evidence.length < 2 ^ 31)
    (unassessedDiscountBps : ℕ) :
    aggregateHierarchical evidence discountBps unassessedDiscountBps =
      .safe ((assessedGroupTotals discountBps evidence).sum +
        (discountedTerms unassessedDiscountBps 0 (countedTotals discountBps evidence)).sum) := by
  have hassessed := absSum_assessedGroupTotals_le hd hlen
  have hsum := abs_sum_le_absSum (assessedGroupTotals discountBps evidence)
  have hterms := absSum_discountedTerms_le_length unassessedDiscountBps 0
    (countedTotals discountBps evidence)
  have hlength := length_countedTotals_le discountBps evidence
  have hdepth : maxDiscountDepth = 30 := rfl
  have hmax : i64Max = 2 ^ 63 - 1 := rfl
  have hfold : (assessedGroupTotals discountBps evidence).foldl saturatingAdd 0 =
      0 + (assessedGroupTotals discountBps evidence).sum :=
    foldl_saturatingAdd_of_absSum (by rw [abs_zero]; omega)
  unfold minTerm at hterms
  rw [aggregateHierarchical_eq_levels, addDiscounted_eq_foldl,
    hfold,
    zero_add, foldl_saturatingAdd_of_absSum (by omega)]

end Fits

/-! ## One group -/

section OneGroup

variable {evidence : List Evidence} {lo : LogOdds} {key : U64}

theorem discountFactor_full (rank : ℕ) : (discountFactor rank 10000 : ℤ) = 10000 := by
  exact_mod_cast (Function.iterate_fixed (by norm_num) _ : discountFactor rank 10000 = 10000)

theorem discountedTerms_full {l : List ℤ} (hl : ∀ x ∈ l, |x| ≤ 2 ^ 31) (rank : ℕ) :
    discountedTerms 10000 rank l = l := by
  induction l generalizing rank with
  | nil => rfl
  | cons x l ih =>
    have hvalue := hl x (List.mem_cons_self ..)
    have hmax : i64Max = 2 ^ 63 - 1 := rfl
    rw [discountedTerms_cons, ih fun y hy => hl y (List.mem_cons_of_mem x hy), discountFactor_full,
      termOf_of_abs_le, Int.mul_tdiv_cancel _ (by decide)]
    rw [abs_mul, abs_of_pos (show (0 : ℤ) < 10000 by decide)]
    omega

/-- Without a discount every item of a group counts in full. -/
theorem groupTotal_uniform (hlo : ∀ e ∈ evidence, e.lo = lo)
    (hsum : evidence.length * |lo.value| ≤ i64Max) :
    groupTotal 10000 evidence = evidence.length * lo.value := by
  have hvalues : evidence.map (fun e => e.lo.value) = List.replicate evidence.length lo.value := by
    refine List.eq_replicate_iff.mpr ⟨List.length_map _, fun x hx => ?_⟩
    obtain ⟨e, he, rfl⟩ := List.mem_map.mp hx
    rw [hlo e he]
  have hranked : ((evidence.map fun e => (e.lo.value, e.id)).insertionSort
      (strongerOrEqual i32Min)).map Prod.fst = List.replicate evidence.length lo.value := by
    refine List.perm_replicate.mp (((List.perm_insertionSort _ _).map Prod.fst).trans (.of_eq ?_))
    rw [List.map_map, ← hvalues]
    rfl
  unfold groupTotal
  rw [hranked, addDiscounted_eq_foldl, discountedTerms_full, foldl_saturatingAdd_of_absSum,
    List.sum_replicate, zero_add, nsmul_eq_mul]
  · rwa [abs_zero, zero_add, absSum_replicate]
  · intro x hx
    rw [List.eq_of_mem_replicate hx]
    exact lo.abs_value_le

/-- An unassessed group as a whole. -/
theorem levels_one_group (hgroup : ∀ e ∈ evidence, e.group = ⟨key, false⟩) (hne : evidence ≠ [])
    (discountBps : ℕ) :
    assessedGroupTotals discountBps evidence = [] ∧
      countedTotals discountBps evidence = [groupTotal discountBps evidence] := by
  have hflag : (evidence.all fun e => e.group.assessed) = false := by
    obtain ⟨e, he⟩ := List.exists_mem_of_ne_nil _ hne
    refine List.all_eq_false.mpr ⟨e, he, ?_⟩
    rw [hgroup e he]
    exact Bool.false_ne_true
  have htotals : groupTotals discountBps evidence =
      [(groupTotal discountBps evidence, false, minHash (evidence.map Evidence.id))] := by
    rw [groupTotals_of_one_key (fun e he => congrArg CorrelationGroup.key (hgroup e he)) hne, hflag]
  unfold assessedGroupTotals countedTotals unassessedGroupTotals
  rw [htotals]
  exact ⟨rfl, rfl⟩

/-- The evidence of one unassessed group, each item of one value, without any discount. -/
theorem aggregateHierarchical_uniform (hlo : ∀ e ∈ evidence, e.lo = lo)
    (hgroup : ∀ e ∈ evidence, e.group = ⟨key, false⟩) (hne : evidence ≠ [])
    (hlen : evidence.length < 2 ^ 31) (unassessedDiscountBps : ℕ) :
    aggregateHierarchical evidence 10000 unassessedDiscountBps =
      .safe (termOf (evidence.length * lo.value * 10000)) := by
  have hsum : evidence.length * |lo.value| ≤ i64Max := by
    have hvalue := lo.abs_value_le
    have hmax : i64Max = 2 ^ 63 - 1 := rfl
    nlinarith [abs_nonneg lo.value]
  obtain ⟨hassessed, hcounted⟩ := levels_one_group hgroup hne 10000
  rw [aggregateHierarchical_eq_sum le_rfl hlen, hassessed, hcounted, groupTotal_uniform hlo hsum,
    discountedTerms_cons]
  simp [discountFactor, discountedTerms, products]

end OneGroup

/-! ## Numbered evidence -/

/-- The id with the given number. -/
def numberedId (k : ℕ) : ClaimHash := ⟨leBytes 32 k, length_leBytes 32 k⟩

theorem numberedId_inj {j k : ℕ} (hj : j < 256 ^ 32) (hk : k < 256 ^ 32)
    (h : numberedId j = numberedId k) : j = k := leBytes_inj hj hk (congrArg Subtype.val h)

/-- `n` unassessed items of one strength and one group. -/
def numberedGroup (lo : LogOdds) (n : ℕ) : List Evidence :=
  (List.range n).map fun k => ⟨lo, ⟨0, false⟩, numberedId k⟩

section NumberedGroup

variable {lo : LogOdds} {n : ℕ}

theorem mem_numberedGroup {e : Evidence} (he : e ∈ numberedGroup lo n) :
    e.lo = lo ∧ e.group = ⟨0, false⟩ := by
  obtain ⟨k, _, rfl⟩ := List.mem_map.mp he
  exact ⟨rfl, rfl⟩

theorem length_numberedGroup : (numberedGroup lo n).length = n := by
  rw [numberedGroup, List.length_map, List.length_range]

theorem numberedGroup_ids_nodup (hn : n ≤ 256 ^ 32) :
    ((numberedGroup lo n).map Evidence.id).Nodup := by
  unfold numberedGroup
  rw [List.map_map]
  refine List.nodup_range.map_on fun j hj k hk h => ?_
  have hj := List.mem_range.mp hj
  have hk := List.mem_range.mp hk
  exact numberedId_inj (by omega) (by omega) h

end NumberedGroup

end Aimp.Epistemic
