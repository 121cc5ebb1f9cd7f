import Aimp.Epistemic.LogOdds
import Mathlib.Algebra.BigOperators.Group.Finset.Piecewise
import Mathlib.Algebra.Order.BigOperators.Group.List

/-!
# Aggregation of positive evidence

For evidence without negative values the result of `aggregate_hierarchical` depends on nothing but the
multisets of the group totals, and items and groups of value zero do not count
(`aggregateHierarchical_eq_combine`, `combine_perm`, `aggregateHierarchical_insert_zero`). Discounts
only take away (`aggregateHierarchical_le`).
-/

namespace Aimp.Epistemic

/-! ## Ranking -/

theorem absWrap_of_nonneg {min x : ℤ} (hmin : min < 0) (hx : 0 ≤ x) : absWrap min x = x := by
  unfold absWrap
  rw [if_neg (by omega), abs_of_nonneg hx]

instance (min : ℤ) : Std.Total (strongerOrEqual min) where
  total a b := by
    unfold strongerOrEqual
    rcases lt_trichotomy (absWrap min a.1) (absWrap min b.1) with h | h | h
    · exact Or.inr (Or.inl h)
    · exact (le_total a.2 b.2).imp (fun hid => Or.inr ⟨h.symm, hid⟩) fun hid => Or.inr ⟨h, hid⟩
    · exact Or.inl (Or.inl h)

instance (min : ℤ) : IsTrans (ℤ × ClaimHash) (strongerOrEqual min) where
  trans a b c := by
    unfold strongerOrEqual
    rintro (hab | ⟨hab, hidab⟩) (hbc | ⟨hbc, hidbc⟩)
    · exact Or.inl (hbc.trans hab)
    · exact Or.inl (hbc ▸ hab)
    · exact Or.inl (hab ▸ hbc)
    · exact Or.inr ⟨hbc.trans hab, hidab.trans hidbc⟩

/-- The values, largest first. -/
def descending (l : List ℤ) : List ℤ := l.insertionSort (· ≥ ·)

theorem descending_perm {l l' : List ℤ} (h : l.Perm l') : descending l = descending l' :=
  List.Perm.eq_of_pairwise' (List.pairwise_insertionSort _ l) (List.pairwise_insertionSort _ l')
    ((List.perm_insertionSort _ l).trans (h.trans (List.perm_insertionSort _ l').symm))

theorem eq_descending {l l' : List ℤ} (hsorted : l.Pairwise (· ≥ ·)) (h : l.Perm l') :
    l = descending l' :=
  List.Perm.eq_of_pairwise' hsorted (List.pairwise_insertionSort _ l')
    (h.trans (List.perm_insertionSort _ l').symm)

theorem descending_cons_zero {l : List ℤ} (hl : ∀ x ∈ l, 0 ≤ x) :
    descending (0 :: l) = descending l ++ [0] := by
  refine (eq_descending ?_ ?_).symm
  · rw [List.pairwise_append]
    refine ⟨List.pairwise_insertionSort _ l, List.pairwise_singleton _ _, fun x hx y hy => ?_⟩
    rw [List.mem_singleton.mp hy]
    exact hl x ((List.mem_insertionSort _).mp hx)
  · exact (List.perm_append_singleton 0 _).trans ((List.perm_insertionSort _ l).cons 0)

/-- Among values that are not negative the order of the ids does not matter. -/
theorem map_fst_ranked {min : ℤ} (hmin : min < 0) {l : List (ℤ × ClaimHash)}
    (hl : ∀ p ∈ l, 0 ≤ p.1) :
    (l.insertionSort (strongerOrEqual min)).map Prod.fst = descending (l.map Prod.fst) := by
  refine eq_descending ?_ ((List.perm_insertionSort _ l).map Prod.fst)
  rw [List.pairwise_map]
  refine (List.pairwise_insertionSort (strongerOrEqual min) l).imp_of_mem ?_
  intro a b ha hb hab
  have ha0 := hl a ((List.mem_insertionSort _).mp ha)
  have hb0 := hl b ((List.mem_insertionSort _).mp hb)
  unfold strongerOrEqual at hab
  rw [absWrap_of_nonneg hmin ha0, absWrap_of_nonneg hmin hb0] at hab
  rcases hab with hab | ⟨hab, -⟩
  · exact hab.le
  · exact hab.le

/-! ## Sums -/

theorem saturatingAdd_mem (x y : ℤ) :
    i64Min ≤ saturatingAdd x y ∧ saturatingAdd x y ≤ i64Max :=
  clamp_mem (by decide) _

theorem abs_clamp_le {lo hi x : ℤ} (hlo : lo ≤ 0) (hhi : 0 ≤ hi) : |clamp lo hi x| ≤ |x| := by
  unfold clamp
  rw [abs_le]
  have hle := le_abs_self x
  have hneg := neg_abs_le x
  omega

theorem abs_saturatingAdd_le (x y : ℤ) : |saturatingAdd x y| ≤ |x| + |y| :=
  (abs_clamp_le (by decide) (by decide)).trans (abs_add_le x y)

theorem saturatingAdd_zero {x : ℤ} (h : i64Min ≤ x ∧ x ≤ i64Max) : saturatingAdd x 0 = x := by
  rw [saturatingAdd, add_zero, clamp_of_mem h.1 h.2]

theorem saturatingAdd_nonneg {x y : ℤ} (hx : 0 ≤ x) (hy : 0 ≤ y) : 0 ≤ saturatingAdd x y := by
  have hmax : 0 ≤ i64Max := by decide
  exact le_max_of_le_right (le_min (add_nonneg hx hy) hmax)

theorem addDiscounted_append (discountBps rank : ℕ) (total : ℤ) (l l' : List ℤ) :
    addDiscounted discountBps rank total (l ++ l') =
      addDiscounted discountBps (rank + l.length) (addDiscounted discountBps rank total l) l' := by
  induction l generalizing rank total with
  | nil => rfl
  | cons x l ih =>
    rw [List.cons_append, addDiscounted, ih, addDiscounted, List.length_cons]
    congr 1
    omega

theorem addDiscounted_mem (discountBps rank : ℕ) {total : ℤ}
    (h : i64Min ≤ total ∧ total ≤ i64Max) (l : List ℤ) :
    i64Min ≤ addDiscounted discountBps rank total l ∧
      addDiscounted discountBps rank total l ≤ i64Max := by
  induction l generalizing rank total with
  | nil => exact h
  | cons x l ih => exact ih _ (saturatingAdd_mem _ _)

theorem addDiscounted_append_zero (discountBps rank : ℕ) {total : ℤ}
    (h : i64Min ≤ total ∧ total ≤ i64Max) (l : List ℤ) :
    addDiscounted discountBps rank total (l ++ [0]) = addDiscounted discountBps rank total l := by
  rw [addDiscounted_append]
  show saturatingAdd _ ((wrapI64 (0 * _)).tdiv 10000) = _
  have hzero : (wrapI64 (0 * wrapI64 (discountFactor (rank + l.length) discountBps))).tdiv 10000 =
      0 := by
    rw [zero_mul]
    decide
  rw [hzero, saturatingAdd_zero (addDiscounted_mem _ _ h l)]

theorem discountFactor_le {discountBps : ℕ} (hd : discountBps ≤ 10000) (rank : ℕ) :
    discountFactor rank discountBps ≤ 10000 := by
  unfold discountFactor
  generalize min rank maxDiscountDepth = n
  induction n with
  | zero => exact le_rfl
  | succ n ih =>
    rw [Function.iterate_succ_apply']
    refine Nat.div_le_of_le_mul ((Nat.mod_le _ _).trans ?_)
    exact Nat.mul_le_mul ih hd

/-- Discounting by at most 100% takes no value below zero. -/
theorem addDiscounted_nonneg {discountBps : ℕ} (hd : discountBps ≤ 10000) (rank : ℕ) {total : ℤ}
    (ht : 0 ≤ total) {l : List ℤ} (hl : ∀ x ∈ l, 0 ≤ x ∧ x ≤ i32Max) :
    0 ≤ addDiscounted discountBps rank total l := by
  induction l generalizing rank total with
  | nil => exact ht
  | cons x l ih =>
    refine ih _ (saturatingAdd_nonneg ht ?_) fun y hy => hl y (List.mem_cons_of_mem _ hy)
    obtain ⟨hx, hxmax⟩ := hl x (List.mem_cons_self ..)
    have hf := discountFactor_le hd rank
    have hf0 : (0 : ℤ) ≤ discountFactor rank discountBps := Int.natCast_nonneg _
    have hf' : (discountFactor rank discountBps : ℤ) ≤ 10000 := by exact_mod_cast hf
    have hprod : x * discountFactor rank discountBps ≤ i32Max * 10000 :=
      mul_le_mul hxmax hf' hf0 (by decide)
    have hprod0 : 0 ≤ x * discountFactor rank discountBps := mul_nonneg hx hf0
    rw [wrapI64_of_mem (x := (discountFactor rank discountBps : ℤ))
      (le_trans (by decide) hf0) (hf'.trans (by decide)),
      wrapI64_of_mem (le_trans (by decide) hprod0) (hprod.trans (by decide))]
    exact Int.tdiv_nonneg hprod0 (by decide)

/-- The saturating sum of the totals of the assessed groups. -/
theorem foldl_saturatingAdd {l : List ℤ} (hl : ∀ x ∈ l, 0 ≤ x) {total : ℤ} (ht : 0 ≤ total)
    (ht' : total ≤ i64Max) : l.foldl saturatingAdd total = min (total + l.sum) i64Max := by
  induction l generalizing total with
  | nil => simp [min_eq_left ht']
  | cons x l ih =>
    have hx := hl x (List.mem_cons_self ..)
    have hl' := fun y hy => hl y (List.mem_cons_of_mem x hy)
    have hsum := List.sum_nonneg hl'
    rw [List.foldl_cons, ih hl' (saturatingAdd_nonneg ht hx) (saturatingAdd_mem _ _).2,
      List.sum_cons]
    have hmin : i64Min ≤ 0 := by decide
    have hval : saturatingAdd total x = min (total + x) i64Max := by
      unfold saturatingAdd clamp
      exact max_eq_right (le_min (by omega) (by decide))
    rw [hval]
    omega

/-! ## Both levels -/

/-- Level 2: from the totals of the assessed and of the unassessed groups. -/
def combine (unassessedDiscountBps : ℕ) (assessed unassessed : List ℤ) : LogOdds :=
  .safe (addDiscounted unassessedDiscountBps 0 (assessed.foldl saturatingAdd 0)
    ((descending unassessed).take maxDiscountDepth))

theorem combine_perm {unassessedDiscountBps : ℕ} {assessed assessed' unassessed unassessed' : List ℤ}
    (hnonneg : ∀ x ∈ assessed, 0 ≤ x) (ha : assessed.Perm assessed')
    (hu : unassessed.Perm unassessed') :
    combine unassessedDiscountBps assessed unassessed =
      combine unassessedDiscountBps assessed' unassessed' := by
  have hnonneg' : ∀ x ∈ assessed', 0 ≤ x := fun x hx => hnonneg x (ha.mem_iff.mpr hx)
  unfold combine
  rw [descending_perm hu, foldl_saturatingAdd hnonneg le_rfl (by decide),
    foldl_saturatingAdd hnonneg' le_rfl (by decide), ha.sum_eq]

theorem foldl_saturatingAdd_mem (l : List ℤ) :
    i64Min ≤ l.foldl saturatingAdd 0 ∧ l.foldl saturatingAdd 0 ≤ i64Max := by
  induction l using List.reverseRecOn with
  | nil => decide
  | append_singleton l x _ =>
    rw [List.foldl_append]
    exact saturatingAdd_mem _ _

/-- A group of value zero does not count. -/
theorem combine_cons_zero (unassessedDiscountBps : ℕ) (assessed : List ℤ) {unassessed : List ℤ}
    (hu : ∀ x ∈ unassessed, 0 ≤ x) :
    combine unassessedDiscountBps (0 :: assessed) unassessed =
      combine unassessedDiscountBps assessed unassessed ∧
    combine unassessedDiscountBps assessed (0 :: unassessed) =
      combine unassessedDiscountBps assessed unassessed := by
  constructor
  · unfold combine
    rw [List.foldl_cons, saturatingAdd_zero (by decide)]
  · unfold combine
    rw [descending_cons_zero hu, List.take_append]
    cases h : maxDiscountDepth - (descending unassessed).length with
    | zero => rw [List.take_zero, List.append_nil]
    | succ k =>
      rw [List.take_succ_cons, List.take_nil,
        addDiscounted_append_zero _ _ (foldl_saturatingAdd_mem assessed)]

/-- The values of the members of a group. -/
def groupValues (evidence : List Evidence) (key : U64) : List ℤ :=
  (groupMembers evidence key).map fun e => e.lo.value

/-- The discounted total of a group. -/
def valueTotal (discountBps : ℕ) (evidence : List Evidence) (key : U64) : ℤ :=
  addDiscounted discountBps 0 0 (descending (groupValues evidence key))

/-- Every member of the group was assessable. -/
def allAssessed (evidence : List Evidence) (key : U64) : Bool :=
  (groupMembers evidence key).all fun e => e.group.assessed

/-- The totals of the groups that are assessed, or of those that are not. -/
def totalsOf (discountBps : ℕ) (evidence : List Evidence) (keys : List U64) (assessed : Bool) :
    List ℤ :=
  (keys.filter fun key => allAssessed evidence key == assessed).map (valueTotal discountBps evidence)

theorem mem_groupKeys {evidence : List Evidence} {key : U64} :
    key ∈ groupKeys evidence ↔ ∃ e ∈ evidence, e.group.key = key := by
  simp [groupKeys]

theorem nodup_groupKeys (evidence : List Evidence) : (groupKeys evidence).Nodup :=
  (List.perm_insertionSort _ _).nodup_iff.mpr (List.nodup_dedup _)

/-- Items with one key make one group. -/
theorem groupTotals_of_one_key {discountBps : ℕ} {evidence : List Evidence} {key : U64}
    (hone : ∀ e ∈ evidence, e.group.key = key) (hne : evidence ≠ []) :
    groupTotals discountBps evidence =
      [(groupTotal discountBps evidence, evidence.all fun e => e.group.assessed,
        minHash (evidence.map Evidence.id))] := by
  have hkeys : groupKeys evidence = [key] := by
    have hmap : evidence.map (fun e => e.group.key) = List.replicate evidence.length key := by
      refine List.eq_replicate_iff.mpr ⟨List.length_map _, fun k hk => ?_⟩
      obtain ⟨e, he, rfl⟩ := List.mem_map.mp hk
      exact hone e he
    unfold groupKeys
    rw [hmap, List.replicate_dedup (List.length_pos_of_ne_nil hne).ne']
    rfl
  have hmembers : groupMembers evidence key = evidence := by
    refine List.filter_eq_self.mpr fun e he => ?_
    simp [hone e he]
  unfold groupTotals
  rw [hkeys, List.map_singleton, hmembers]

section Nonneg

variable {discountBps : ℕ} {evidence : List Evidence}

theorem groupTotal_eq (hpos : ∀ e ∈ evidence, 0 ≤ e.lo.value) (key : U64) :
    groupTotal discountBps (groupMembers evidence key) = valueTotal discountBps evidence key := by
  unfold groupTotal valueTotal groupValues
  rw [map_fst_ranked (by decide), List.map_map]
  · rfl
  · intro p hp
    obtain ⟨e, he, rfl⟩ := List.mem_map.mp hp
    exact hpos e (List.mem_of_mem_filter he)

theorem mem_groupValues (hpos : ∀ e ∈ evidence, 0 ≤ e.lo.value) (key : U64) :
    ∀ x ∈ descending (groupValues evidence key), 0 ≤ x ∧ x ≤ i32Max := by
  intro x hx
  obtain ⟨e, he, rfl⟩ := List.mem_map.mp ((List.mem_insertionSort _).mp hx)
  exact ⟨hpos e (List.mem_of_mem_filter he), e.lo.isI32.2⟩

theorem valueTotal_nonneg (hd : discountBps ≤ 10000) (hpos : ∀ e ∈ evidence, 0 ≤ e.lo.value)
    (key : U64) : 0 ≤ valueTotal discountBps evidence key :=
  addDiscounted_nonneg hd 0 le_rfl (mem_groupValues hpos key)

theorem totalsOf_nonneg (hd : discountBps ≤ 10000) (hpos : ∀ e ∈ evidence, 0 ≤ e.lo.value)
    (keys : List U64) (assessed : Bool) : ∀ x ∈ totalsOf discountBps evidence keys assessed, 0 ≤ x := by
  intro x hx
  obtain ⟨key, _, rfl⟩ := List.mem_map.mp hx
  exact valueTotal_nonneg hd hpos key

/-- The groups of the source, up to their anchors. -/
theorem groupTotals_filter (discountBps : ℕ) (hpos : ∀ e ∈ evidence, 0 ≤ e.lo.value) (assessed : Bool) :
    ((groupTotals discountBps evidence).filter fun g => g.2.1 == assessed).map Prod.fst =
      totalsOf discountBps evidence (groupKeys evidence) assessed := by
  unfold groupTotals totalsOf
  rw [List.filter_map, List.map_map]
  refine List.map_congr_left fun key _ => ?_
  exact groupTotal_eq hpos key

/-- The ranking of the groups that are not assessed, up to their anchors. -/
theorem unassessed_ranked (hd : discountBps ≤ 10000) (hpos : ∀ e ∈ evidence, 0 ≤ e.lo.value) :
    ((((groupTotals discountBps evidence).filter fun g => !g.2.1).map fun g =>
        (g.1, g.2.2)).insertionSort (strongerOrEqual i64Min)).map Prod.fst =
      descending (totalsOf discountBps evidence (groupKeys evidence) false) := by
  have hfalse := groupTotals_filter discountBps hpos false
  simp only [beq_false] at hfalse
  rw [← hfalse, map_fst_ranked (by decide), List.map_map]
  · rfl
  · intro p hp
    obtain ⟨g, hg, rfl⟩ := List.mem_map.mp hp
    have hmem : g.1 ∈ totalsOf discountBps evidence (groupKeys evidence) false := by
      rw [← hfalse]
      exact List.mem_map.mpr ⟨g, hg, rfl⟩
    exact totalsOf_nonneg hd hpos _ _ _ hmem

/-- The result depends on the totals of the groups alone. -/
theorem aggregateHierarchical_eq_combine (hd : discountBps ≤ 10000)
    (hpos : ∀ e ∈ evidence, 0 ≤ e.lo.value) (unassessedDiscountBps : ℕ) :
    aggregateHierarchical evidence discountBps unassessedDiscountBps =
      combine unassessedDiscountBps (totalsOf discountBps evidence (groupKeys evidence) true)
        (totalsOf discountBps evidence (groupKeys evidence) false) := by
  unfold aggregateHierarchical
  cases evidence with
  | nil =>
    simp only [List.isEmpty_nil, if_true]
    rfl
  | cons e evidence =>
    rw [if_neg (by simp)]
    dsimp only
    unfold combine
    have htrue := groupTotals_filter discountBps hpos true
    simp only [beq_true] at htrue
    rw [← htrue, List.map_take, unassessed_ranked hd hpos]

/-! ## The order of the evidence -/

theorem groupKeys_perm {evidence' : List Evidence} (h : evidence.Perm evidence') :
    (groupKeys evidence).Perm (groupKeys evidence') := by
  refine (List.perm_ext_iff_of_nodup (nodup_groupKeys _) (nodup_groupKeys _)).mpr fun key => ?_
  rw [mem_groupKeys, mem_groupKeys]
  simp only [h.mem_iff]

theorem totalsOf_perm {evidence' : List Evidence} (h : evidence.Perm evidence') (assessed : Bool) :
    (totalsOf discountBps evidence (groupKeys evidence) assessed).Perm
      (totalsOf discountBps evidence' (groupKeys evidence') assessed) := by
  have hmembers : ∀ key, (groupMembers evidence key).Perm (groupMembers evidence' key) := fun key =>
    h.filter _
  have hflag : allAssessed evidence = allAssessed evidence' := by
    funext key
    unfold allAssessed
    rw [Bool.eq_iff_iff, List.all_eq_true, List.all_eq_true]
    simp only [(hmembers key).mem_iff]
  have htotal : valueTotal discountBps evidence = valueTotal discountBps evidence' := by
    funext key
    unfold valueTotal
    rw [descending_perm (l := groupValues evidence key) ((hmembers key).map _)]
    rfl
  unfold totalsOf
  rw [hflag, htotal]
  exact ((groupKeys_perm h).filter _).map _

/-- Evidence is aggregated to the same result in every order. -/
theorem aggregateHierarchical_perm {evidence' : List Evidence} (hd : discountBps ≤ 10000)
    (hpos : ∀ e ∈ evidence, 0 ≤ e.lo.value) (h : evidence.Perm evidence')
    (unassessedDiscountBps : ℕ) :
    aggregateHierarchical evidence discountBps unassessedDiscountBps =
      aggregateHierarchical evidence' discountBps unassessedDiscountBps := by
  have hpos' : ∀ e ∈ evidence', 0 ≤ e.lo.value := fun e he => hpos e (h.mem_iff.mpr he)
  rw [aggregateHierarchical_eq_combine hd hpos, aggregateHierarchical_eq_combine hd hpos']
  exact combine_perm (totalsOf_nonneg hd hpos _ _) (totalsOf_perm h true) (totalsOf_perm h false)

/-! ## An upper bound -/

theorem wrapI64_le {x : ℤ} (h : 0 ≤ x) : wrapI64 x ≤ x := by
  unfold wrapI64
  rw [Int.bmod_def]
  norm_num
  split <;> omega

/-- Discounting by at most 100% adds no more than the values themselves. -/
theorem addDiscounted_le (hd : discountBps ≤ 10000) (rank : ℕ) {total bound : ℤ}
    (ht : total ≤ bound) (hb : 0 ≤ bound) {l : List ℤ} (hl : ∀ x ∈ l, 0 ≤ x) :
    addDiscounted discountBps rank total l ≤ bound + l.sum := by
  induction l generalizing rank total bound with
  | nil => simpa [addDiscounted] using ht
  | cons x l ih =>
    have hx := hl x (List.mem_cons_self ..)
    have hf := discountFactor_le hd rank
    have hf0 : (0 : ℤ) ≤ discountFactor rank discountBps := Int.natCast_nonneg _
    have hf' : (discountFactor rank discountBps : ℤ) ≤ 10000 := by exact_mod_cast hf
    have hprod : x * discountFactor rank discountBps ≤ x * 10000 :=
      mul_le_mul_of_nonneg_left hf' hx
    have hterm : (wrapI64 (x * wrapI64 (discountFactor rank discountBps))).tdiv 10000 ≤ x := by
      rw [wrapI64_of_mem (le_trans (by decide) hf0) (hf'.trans (by decide))]
      have hwrap := (wrapI64_le (mul_nonneg hx hf0)).trans hprod
      generalize wrapI64 (x * discountFactor rank discountBps) = y at hwrap ⊢
      exact (Int.tdiv_le_tdiv (by decide) hwrap).trans_eq (Int.mul_tdiv_cancel x (by decide))
    have hadd : saturatingAdd total ((wrapI64 (x * wrapI64 (discountFactor rank
        discountBps))).tdiv 10000) ≤ bound + x := by
      have hmin : i64Min ≤ 0 := by decide
      unfold saturatingAdd clamp
      omega
    have hrest := ih (rank + 1) hadd (by omega) fun y hy => hl y (List.mem_cons_of_mem x hy)
    rw [addDiscounted, List.sum_cons]
    omega

/-- The values of a list add up to the sums over the values with each key. -/
theorem sum_map_filter_key {α κ M : Type*} [DecidableEq κ] [AddCommMonoid M] (key : α → κ)
    (f : α → M) {l : List α} {S : Finset κ} (h : ∀ x ∈ l, key x ∈ S) :
    ∑ k ∈ S, ((l.filter fun x => key x = k).map f).sum = (l.map f).sum := by
  induction l with
  | nil => simp
  | cons x l ih =>
    have hx := h x (List.mem_cons_self ..)
    have hcons : ∀ k, (((x :: l).filter fun x => key x = k).map f).sum =
        (if key x = k then f x else 0) + ((l.filter fun x => key x = k).map f).sum := by
      intro k
      rw [List.filter_cons]
      by_cases hk : key x = k <;> simp [hk]
    simp only [hcons, Finset.sum_add_distrib, Finset.sum_ite_eq, if_pos hx,
      ih fun y hy => h y (List.mem_cons_of_mem x hy), List.map_cons, List.sum_cons]

theorem valueTotal_le (hd : discountBps ≤ 10000) (hpos : ∀ e ∈ evidence, 0 ≤ e.lo.value)
    (key : U64) : valueTotal discountBps evidence key ≤ (groupValues evidence key).sum := by
  have hsum : (descending (groupValues evidence key)).sum = (groupValues evidence key).sum :=
    (List.perm_insertionSort _ _).sum_eq
  have hle := addDiscounted_le hd 0 le_rfl le_rfl fun x hx => (mem_groupValues hpos key x hx).1
  rwa [zero_add, hsum] at hle

/-- The groups together have no more than the evidence. -/
theorem totalsOf_sum_le (hd : discountBps ≤ 10000) (hpos : ∀ e ∈ evidence, 0 ≤ e.lo.value) :
    (totalsOf discountBps evidence (groupKeys evidence) true).sum +
      (totalsOf discountBps evidence (groupKeys evidence) false).sum ≤
      (evidence.map fun e => e.lo.value).sum := by
  have hsplit : ∀ keys : List U64, (totalsOf discountBps evidence keys true).sum +
      (totalsOf discountBps evidence keys false).sum =
      (keys.map (valueTotal discountBps evidence)).sum := by
    intro keys
    induction keys with
    | nil => rfl
    | cons key keys ih =>
      unfold totalsOf at ih ⊢
      rw [List.map_cons, List.sum_cons, ← ih]
      cases h : allAssessed evidence key <;> simp [h] <;> omega
  have hgroups : ((groupKeys evidence).map fun key => (groupValues evidence key).sum).sum =
      (evidence.map fun e => e.lo.value).sum := by
    rw [← List.sum_toFinset _ (nodup_groupKeys evidence)]
    refine sum_map_filter_key (fun e : Evidence => e.group.key) (fun e => e.lo.value) ?_
    intro e he
    exact List.mem_toFinset.mpr (mem_groupKeys.mpr ⟨e, he, rfl⟩)
  rw [hsplit, ← hgroups]
  exact List.sum_le_sum fun key _ => valueTotal_le hd hpos key

/-- Aggregation with discounts of at most 100% gives no more than the evidence. -/
theorem aggregateHierarchical_le (hd : discountBps ≤ 10000)
    (hpos : ∀ e ∈ evidence, 0 ≤ e.lo.value) {unassessedDiscountBps : ℕ}
    (hd' : unassessedDiscountBps ≤ 10000) :
    (aggregateHierarchical evidence discountBps unassessedDiscountBps).value ≤
      (evidence.map fun e => e.lo.value).sum := by
  rw [aggregateHierarchical_eq_combine hd hpos]
  have hsum := totalsOf_sum_le hd hpos
  have hassessed := totalsOf_nonneg hd hpos (groupKeys evidence) true
  have hunassessed := totalsOf_nonneg hd hpos (groupKeys evidence) false
  generalize totalsOf discountBps evidence (groupKeys evidence) true = assessed at *
  generalize totalsOf discountBps evidence (groupKeys evidence) false = unassessed at *
  have hfold : assessed.foldl saturatingAdd 0 ≤ assessed.sum := by
    rw [foldl_saturatingAdd hassessed le_rfl (by decide), zero_add]
    exact min_le_left _ _
  have hranked : ∀ x ∈ (descending unassessed).take maxDiscountDepth, 0 ≤ x := fun x hx =>
    hunassessed x ((List.mem_insertionSort _).mp (List.mem_of_mem_take hx))
  have htake : ((descending unassessed).take maxDiscountDepth).sum ≤ unassessed.sum := by
    have hperm : (descending unassessed).sum = unassessed.sum :=
      (List.perm_insertionSort _ _).sum_eq
    rw [← hperm, ← List.sum_take_add_sum_drop (descending unassessed) maxDiscountDepth]
    refine le_add_of_nonneg_right (List.sum_nonneg fun x hx => ?_)
    exact hunassessed x ((List.mem_insertionSort _).mp (List.mem_of_mem_drop hx))
  have hadd := addDiscounted_le hd' 0 hfold (List.sum_nonneg hassessed) hranked
  have htotal := add_nonneg (List.sum_nonneg hassessed) (List.sum_nonneg hunassessed)
  unfold combine LogOdds.safe clamp
  have hmin : LogOdds.safeMin ≤ 0 := by decide
  dsimp only
  omega

/-! ## What does not count -/

section Relabel

variable {α : Type} {xs : List α} {f f' : α → Evidence}

theorem mem_groupKeys_map {key : U64} (h : key ∈ groupKeys (xs.map f)) :
    ∃ x ∈ xs, (f x).group.key = key := by
  obtain ⟨e, he, hek⟩ := mem_groupKeys.mp h
  obtain ⟨x, hx, rfl⟩ := List.mem_map.mp he
  exact ⟨x, hx, hek⟩

/-- Two ways to group the items that put the same items together. -/
def SameGroups (xs : List α) (f f' : α → Evidence) : Prop :=
  ∀ x ∈ xs, ∀ y ∈ xs, (f' x).group.key = (f' y).group.key ↔ (f x).group.key = (f y).group.key

theorem SameGroups.exists_relabel (h : SameGroups xs f f') :
    ∃ φ : U64 → U64, ∀ x ∈ xs, φ (f x).group.key = (f' x).group.key := by
  refine ⟨fun key => ((xs.find? fun x => (f x).group.key = key).map fun x =>
    (f' x).group.key).getD key, fun x hx => ?_⟩
  obtain ⟨y, hy⟩ : ∃ y, (xs.find? fun y => (f y).group.key = (f x).group.key) = some y :=
    Option.isSome_iff_exists.mp (List.find?_isSome.mpr ⟨x, hx, by simp⟩)
  have hyx : (f y).group.key = (f x).group.key := by simpa using List.find?_some hy
  dsimp only
  rw [hy]
  exact (h y (List.mem_of_find?_eq_some hy) x hx).mpr hyx

variable {φ : U64 → U64}

theorem groupKeys_relabel (h : SameGroups xs f f')
    (hφ : ∀ x ∈ xs, φ (f x).group.key = (f' x).group.key) :
    (groupKeys (xs.map f')).Perm ((groupKeys (xs.map f)).map φ) := by
  refine (List.perm_ext_iff_of_nodup (nodup_groupKeys _) ?_).mpr fun key => ?_
  · refine (nodup_groupKeys _).map_on fun k hk k' hk' heq => ?_
    obtain ⟨x, hx, rfl⟩ := mem_groupKeys_map hk
    obtain ⟨y, hy, rfl⟩ := mem_groupKeys_map hk'
    rw [hφ x hx, hφ y hy] at heq
    exact (h x hx y hy).mp heq
  · rw [List.mem_map]
    constructor
    · intro hk
      obtain ⟨x, hx, rfl⟩ := mem_groupKeys_map hk
      exact ⟨_, mem_groupKeys.mpr ⟨f x, List.mem_map_of_mem hx, rfl⟩, hφ x hx⟩
    · rintro ⟨k, hk, rfl⟩
      obtain ⟨x, hx, rfl⟩ := mem_groupKeys_map hk
      exact mem_groupKeys.mpr ⟨f' x, List.mem_map_of_mem hx, (hφ x hx).symm⟩

theorem groupMembers_relabel (h : SameGroups xs f f')
    (hφ : ∀ x ∈ xs, φ (f x).group.key = (f' x).group.key) {key : U64}
    (hk : key ∈ groupKeys (xs.map f)) :
    ∃ ys : List α, (∀ y ∈ ys, y ∈ xs) ∧ groupMembers (xs.map f) key = ys.map f ∧
      groupMembers (xs.map f') (φ key) = ys.map f' := by
  obtain ⟨x, hx, rfl⟩ := mem_groupKeys_map hk
  refine ⟨xs.filter fun y => (f y).group.key = (f x).group.key,
    fun y hy => List.mem_of_mem_filter hy, List.filter_map .., ?_⟩
  rw [hφ x hx]
  refine (List.filter_map ..).trans (congrArg _ (List.filter_congr fun y hy => ?_))
  exact decide_eq_decide.mpr (h y hy x hx)

theorem totalsOf_relabel (h : SameGroups xs f f') (hlo : ∀ x ∈ xs, (f' x).lo = (f x).lo)
    (hassessed : ∀ x ∈ xs, (f' x).group.assessed = (f x).group.assessed) (assessed : Bool) :
    (totalsOf discountBps (xs.map f') (groupKeys (xs.map f')) assessed).Perm
      (totalsOf discountBps (xs.map f) (groupKeys (xs.map f)) assessed) := by
  obtain ⟨φ, hφ⟩ := h.exists_relabel
  have hflag : ∀ key ∈ groupKeys (xs.map f),
      allAssessed (xs.map f') (φ key) = allAssessed (xs.map f) key := by
    intro key hk
    obtain ⟨ys, hys, hf, hf'⟩ := groupMembers_relabel h hφ hk
    rw [allAssessed, allAssessed, hf, hf', List.all_map, List.all_map, Bool.eq_iff_iff,
      List.all_eq_true, List.all_eq_true]
    refine forall₂_congr fun y hy => ?_
    rw [Function.comp_apply, Function.comp_apply, hassessed y (hys y hy)]
  have htotal : ∀ key ∈ groupKeys (xs.map f),
      valueTotal discountBps (xs.map f') (φ key) = valueTotal discountBps (xs.map f) key := by
    intro key hk
    obtain ⟨ys, hys, hf, hf'⟩ := groupMembers_relabel h hφ hk
    rw [valueTotal, valueTotal, groupValues, groupValues, hf, hf', List.map_map, List.map_map]
    congr 2
    exact List.map_congr_left fun y hy => congrArg LogOdds.value (hlo y (hys y hy))
  refine (((groupKeys_relabel h hφ).filter _).map _).trans (.of_eq ?_)
  unfold totalsOf
  rw [List.filter_map, List.map_map, List.filter_congr fun key hk => ?_]
  · exact List.map_congr_left fun key hk => htotal key (List.mem_of_mem_filter hk)
  · exact congrArg (· == assessed) (hflag key hk)

/-- Only which items share a key matters, not the keys themselves. -/
theorem aggregateHierarchical_relabel (hd : discountBps ≤ 10000)
    (hpos : ∀ x ∈ xs, 0 ≤ (f x).lo.value) (h : SameGroups xs f f')
    (hlo : ∀ x ∈ xs, (f' x).lo = (f x).lo)
    (hassessed : ∀ x ∈ xs, (f' x).group.assessed = (f x).group.assessed)
    (unassessedDiscountBps : ℕ) :
    aggregateHierarchical (xs.map f') discountBps unassessedDiscountBps =
      aggregateHierarchical (xs.map f) discountBps unassessedDiscountBps := by
  have hposf : ∀ e ∈ xs.map f, 0 ≤ e.lo.value := by
    intro e he
    obtain ⟨x, hx, rfl⟩ := List.mem_map.mp he
    exact hpos x hx
  have hposf' : ∀ e ∈ xs.map f', 0 ≤ e.lo.value := by
    intro e he
    obtain ⟨x, hx, rfl⟩ := List.mem_map.mp he
    rw [hlo x hx]
    exact hpos x hx
  rw [aggregateHierarchical_eq_combine hd hposf', aggregateHierarchical_eq_combine hd hposf]
  exact combine_perm (totalsOf_nonneg hd hposf' _ _) (totalsOf_relabel h hlo hassessed true)
    (totalsOf_relabel h hlo hassessed false)

end Relabel

theorem mem_insert {α : Type*} {l l' : List α} {z x : α} : x ∈ l ++ z :: l' ↔ x = z ∨ x ∈ l ++ l' := by
  rw [List.mem_append, List.mem_cons, List.mem_append]
  tauto

theorem groupMembers_insert {l l' : List Evidence} {z : Evidence} {key : U64} :
    groupMembers (l ++ z :: l') key =
      groupMembers l key ++ (if z.group.key = key then [z] else []) ++ groupMembers l' key := by
  unfold groupMembers
  rw [List.filter_append, List.filter_cons, List.append_assoc]
  by_cases h : z.group.key = key <;> simp [h]

theorem groupMembers_append (l l' : List Evidence) (key : U64) :
    groupMembers (l ++ l') key = groupMembers l key ++ groupMembers l' key :=
  List.filter_append ..

section InsertZero

variable {l l' : List Evidence} {z : Evidence}

/-- An item of value zero adds nothing to the total of its group. -/
theorem valueTotal_insert_zero (hpos : ∀ e ∈ l ++ l', 0 ≤ e.lo.value) (hz : z.lo.value = 0)
    (key : U64) :
    valueTotal discountBps (l ++ z :: l') key = valueTotal discountBps (l ++ l') key := by
  unfold valueTotal groupValues
  rw [groupMembers_insert, groupMembers_append]
  by_cases hkey : z.group.key = key
  · have hperm : ((groupMembers l key ++ [z] ++ groupMembers l' key).map fun e => e.lo.value).Perm
        (0 :: (groupMembers l key ++ groupMembers l' key).map fun e => e.lo.value) := by
      rw [List.append_assoc, List.singleton_append]
      refine (List.perm_middle.map _).trans (.of_eq ?_)
      rw [List.map_cons, hz]
    rw [if_pos hkey, descending_perm hperm, descending_cons_zero,
      addDiscounted_append_zero _ _ (by decide)]
    intro x hx
    obtain ⟨e, he, rfl⟩ := List.mem_map.mp hx
    rw [← groupMembers_append] at he
    exact hpos e (List.mem_of_mem_filter he)
  · rw [if_neg hkey, List.append_nil]

/-- An item leaves the assessment of a group alone that holds no assessed item, if it is not assessed
itself. -/
theorem allAssessed_insert (hassessed : ∀ e ∈ l ++ l', e.group.key = z.group.key →
      e.group.assessed = true → z.group.assessed = true) {key : U64}
    (hkey : ∃ e ∈ l ++ l', e.group.key = key) :
    allAssessed (l ++ z :: l') key = allAssessed (l ++ l') key := by
  obtain ⟨e, he, hek⟩ := hkey
  unfold allAssessed
  rw [groupMembers_insert, groupMembers_append]
  by_cases hkey : z.group.key = key
  · rw [if_pos hkey]
    simp only [List.all_append, List.all_cons, List.all_nil, Bool.and_true]
    cases hz' : z.group.assessed with
    | true => rw [Bool.and_true]
    | false =>
      -- the group was not assessed before either
      have hnot : (groupMembers (l ++ l') key).all (fun e => e.group.assessed) = false := by
        rw [List.all_eq_false]
        refine ⟨e, List.mem_filter.mpr ⟨he, by simpa using hek⟩, fun ha => ?_⟩
        rw [hassessed e he (hek.trans hkey.symm) ha] at hz'
        cases hz'
      rw [groupMembers_append, List.all_append] at hnot
      rw [Bool.and_false, Bool.false_and, hnot]
  · rw [if_neg hkey, List.append_nil]

/-- The keys after an item of a known group. -/
theorem groupKeys_insert_of_mem (h : z.group.key ∈ groupKeys (l ++ l')) :
    (groupKeys (l ++ z :: l')).Perm (groupKeys (l ++ l')) := by
  refine (List.perm_ext_iff_of_nodup (nodup_groupKeys _) (nodup_groupKeys _)).mpr fun key => ?_
  simp only [mem_groupKeys, mem_insert, or_and_right, exists_or, exists_eq_left]
  exact or_iff_right_of_imp fun hkey => hkey ▸ mem_groupKeys.mp h

/-- The keys after an item of a new group. -/
theorem groupKeys_insert_of_not_mem (h : z.group.key ∉ groupKeys (l ++ l')) :
    (groupKeys (l ++ z :: l')).Perm (z.group.key :: groupKeys (l ++ l')) := by
  refine (List.perm_ext_iff_of_nodup (nodup_groupKeys _)
    (List.nodup_cons.mpr ⟨h, nodup_groupKeys _⟩)).mpr fun key => ?_
  simp only [List.mem_cons, mem_groupKeys, mem_insert, or_and_right, exists_or, exists_eq_left]
  exact or_congr_left eq_comm

theorem valueTotal_of_not_mem {evidence : List Evidence} {key : U64}
    (h : key ∉ groupKeys evidence) : valueTotal discountBps evidence key = 0 := by
  have hnone : groupMembers evidence key = [] := by
    rw [groupMembers, List.filter_eq_nil_iff]
    intro e he hek
    exact h (mem_groupKeys.mpr ⟨e, he, by simpa using hek⟩)
  rw [valueTotal, groupValues, hnone]
  rfl

end InsertZero

/-- An item of value zero does not count, unless it takes the assessment of a group away. -/
theorem aggregateHierarchical_insert_zero (l l' : List Evidence) {z : Evidence}
    (hd : discountBps ≤ 10000) (hpos : ∀ e ∈ l ++ l', 0 ≤ e.lo.value) (hz : z.lo.value = 0)
    (hassessed : ∀ e ∈ l ++ l', e.group.key = z.group.key → e.group.assessed = true →
      z.group.assessed = true) (unassessedDiscountBps : ℕ) :
    aggregateHierarchical (l ++ z :: l') discountBps unassessedDiscountBps =
      aggregateHierarchical (l ++ l') discountBps unassessedDiscountBps := by
  have hpos' : ∀ e ∈ l ++ z :: l', 0 ≤ e.lo.value := by
    intro e he
    rcases mem_insert.mp he with rfl | he
    · exact hz.ge
    · exact hpos e he
  rw [aggregateHierarchical_eq_combine hd hpos', aggregateHierarchical_eq_combine hd hpos]
  -- the old groups keep their totals
  have hold : ∀ b, totalsOf discountBps (l ++ z :: l') (groupKeys (l ++ l')) b =
      totalsOf discountBps (l ++ l') (groupKeys (l ++ l')) b := by
    intro b
    unfold totalsOf
    rw [List.filter_congr fun key hk =>
      congrArg (· == b) (allAssessed_insert hassessed (mem_groupKeys.mp hk))]
    exact List.map_congr_left fun key _ => valueTotal_insert_zero hpos hz key
  by_cases hin : z.group.key ∈ groupKeys (l ++ l')
  · have htotals := fun b => (((groupKeys_insert_of_mem hin).filter _).map _).trans (.of_eq (hold b))
    exact combine_perm (totalsOf_nonneg hd hpos' _ _) (htotals true) (htotals false)
  · -- the item is a group of its own, of total 0
    have hzero : valueTotal discountBps (l ++ z :: l') z.group.key = 0 := by
      rw [valueTotal_insert_zero hpos hz, valueTotal_of_not_mem hin]
    have hsplit : ∀ b, (totalsOf discountBps (l ++ z :: l') (groupKeys (l ++ z :: l')) b).Perm
        ((if allAssessed (l ++ z :: l') z.group.key == b then [0] else []) ++
          totalsOf discountBps (l ++ l') (groupKeys (l ++ l')) b) := by
      intro b
      refine (((groupKeys_insert_of_not_mem hin).filter _).map _).trans (.of_eq ?_)
      rw [← hold b, List.filter_cons]
      unfold totalsOf
      split
      · rw [List.map_cons, hzero]
        rfl
      · rfl
    rw [combine_perm (totalsOf_nonneg hd hpos' _ _) (hsplit true) (hsplit false)]
    have hzeros := combine_cons_zero unassessedDiscountBps
      (totalsOf discountBps (l ++ l') (groupKeys (l ++ l')) true)
      (totalsOf_nonneg hd hpos (groupKeys (l ++ l')) false)
    cases allAssessed (l ++ z :: l') z.group.key with
    | true => exact hzeros.1
    | false => exact hzeros.2

/-- Without assessed items, those of value zero do not count. -/
theorem aggregateHierarchical_filter_zero (hd : discountBps ≤ 10000)
    (hpos : ∀ e ∈ evidence, 0 ≤ e.lo.value) (hassessed : ∀ e ∈ evidence, e.group.assessed = false)
    (unassessedDiscountBps : ℕ) :
    aggregateHierarchical (evidence.filter fun e => e.lo.value ≠ 0) discountBps
        unassessedDiscountBps =
      aggregateHierarchical evidence discountBps unassessedDiscountBps := by
  have hrest : ∀ rest done : List Evidence, (∀ e ∈ done ++ rest, 0 ≤ e.lo.value) →
      (∀ e ∈ done ++ rest, e.group.assessed = false) →
      aggregateHierarchical (done ++ rest.filter fun e => e.lo.value ≠ 0) discountBps
          unassessedDiscountBps =
        aggregateHierarchical (done ++ rest) discountBps unassessedDiscountBps := by
    intro rest
    induction rest with
    | nil => exact fun done _ _ => rfl
    | cons z rest ih =>
      intro done hpos hassessed
      have hsub : ∀ e ∈ done ++ rest, e ∈ done ++ z :: rest := by
        intro e he
        rw [List.mem_append] at he ⊢
        exact he.imp_right (List.mem_cons_of_mem z)
      by_cases hz : z.lo.value = 0
      · rw [List.filter_cons_of_neg (by simpa using hz), ih done (fun e he => hpos e (hsub e he))
          fun e he => hassessed e (hsub e he)]
        refine (aggregateHierarchical_insert_zero done rest hd (fun e he => hpos e (hsub e he)) hz
          (fun e he _ ha => ?_) _).symm
        rw [hassessed e (hsub e he)] at ha
        cases ha
      · have hmove : ∀ l : List Evidence, done ++ z :: l = (done ++ [z]) ++ l := by simp
        rw [List.filter_cons_of_pos (by simpa using hz), hmove (rest.filter _), hmove rest]
        rw [hmove rest] at hpos hassessed
        exact ih (done ++ [z]) hpos hassessed
  exact hrest evidence [] hpos hassessed

end Nonneg

end Aimp.Epistemic
