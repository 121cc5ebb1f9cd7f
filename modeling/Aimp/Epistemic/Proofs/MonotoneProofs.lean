import Aimp.Epistemic.Proofs.ClusterProofs
import Aimp.Epistemic.Proofs.FixedPointProofs
import Aimp.Epistemic.Proofs.SumProofs
import Aimp.Lib.Domination

/-!
# Pass 1 is monotone

More trust in the sources of support may permute the ranking within the groups and among them, but the
sorted values only grow, and so do the sums of both levels as long as no product leaves an `i64`. From
one iteration the order is carried over to all (`stabilized_mono`).
-/

namespace Aimp.Epistemic

/-- Log-odds are ordered by their value. -/
instance : Preorder LogOdds where
  le a b := a.value ≤ b.value
  le_refl a := le_refl a.value
  le_trans _ _ _ := le_trans

namespace LogOdds

theorem clamp_mono {lo hi x y : ℤ} (h : x ≤ y) : clamp lo hi x ≤ clamp lo hi y :=
  max_le_max_left _ (min_le_min_right _ h)

theorem safe_mono {x y : ℤ} (h : x ≤ y) : safe x ≤ safe y := clamp_mono h

theorem ofInt_mono {x y : ℤ} (h : x ≤ y) : ofInt x ≤ ofInt y := clamp_mono h

theorem update_mono {a b c d : LogOdds} (hab : a ≤ b) (hcd : c ≤ d) : a.update c ≤ b.update d :=
  safe_mono (add_le_add hab hcd)

theorem positivePart_mono {a b : LogOdds} (h : a ≤ b) : a.positivePart ≤ b.positivePart := by
  have hvalue : a.value ≤ b.value := h
  exact max_le_max_right 0 hvalue

theorem shiftRight_mono {a b : LogOdds} (h : a ≤ b) (shifts : ℕ) :
    a.shiftRight shifts ≤ b.shiftRight shifts :=
  Int.ediv_le_ediv (by positivity) h

/-- What is added to a value of the safe range takes it up, if it is not negative. -/
theorem le_update {lo evidence : LogOdds} (hlo : InSafe lo) (h : 0 ≤ evidence.value) :
    lo ≤ lo.update evidence := by
  have hmono : clamp safeMin safeMax lo.value ≤ clamp safeMin safeMax (lo.value + evidence.value) :=
    clamp_mono (le_add_of_nonneg_right h)
  rwa [clamp_of_mem hlo.1 hlo.2] at hmono

end LogOdds

/-! ## Discounted sums -/

theorem saturatingAdd_mono {x y x' y' : ℤ} (hx : x ≤ x') (hy : y ≤ y') :
    saturatingAdd x y ≤ saturatingAdd x' y' := LogOdds.clamp_mono (add_le_add hx hy)

theorem foldl_saturatingAdd_mono {l l' : List ℤ} (h : List.Forall₂ (· ≤ ·) l l') {total total' : ℤ}
    (ht : total ≤ total') : l.foldl saturatingAdd total ≤ l'.foldl saturatingAdd total' := by
  induction h generalizing total total' with
  | nil => exact ht
  | cons hx _ ih => exact ih (saturatingAdd_mono ht hx)

theorem termOf_mono {p q : ℤ} (hp : 0 ≤ p) (hpq : p ≤ q) (hq : q ≤ i64Max) :
    termOf p ≤ termOf q := by
  have hmin : i64Min ≤ 0 := by decide
  unfold termOf
  rw [wrapI64_of_mem (hmin.trans hp) (hpq.trans hq), wrapI64_of_mem (hmin.trans (hp.trans hpq)) hq]
  exact Int.tdiv_le_tdiv (by decide) hpq

/-- The discounted sum of larger values is larger, as long as their products fit into an `i64`. -/
theorem addDiscounted_mono (discountBps rank : ℕ) {total total' : ℤ} {l l' : List ℤ}
    (h : List.Forall₂ (· ≤ ·) l l') (hl : ∀ x ∈ l, 0 ≤ x)
    (hfits : ∀ p ∈ products discountBps rank l', p ≤ i64Max) (ht : total ≤ total') :
    addDiscounted discountBps rank total l ≤ addDiscounted discountBps rank total' l' := by
  rw [addDiscounted_eq_foldl, addDiscounted_eq_foldl]
  refine foldl_saturatingAdd_mono ?_ ht
  induction h generalizing rank with
  | nil => exact .nil
  | @cons x x' l l' hx _ ih =>
    have hfactor : (0 : ℤ) ≤ discountFactor rank discountBps := Int.natCast_nonneg _
    refine .cons (termOf_mono ?_ ?_ ?_) (ih (rank + 1) ?_ ?_)
    · exact mul_nonneg (hl x (List.mem_cons_self ..)) hfactor
    · exact mul_le_mul_of_nonneg_right hx hfactor
    · exact hfits _ (List.mem_cons_self ..)
    · exact fun y hy => hl y (List.mem_cons_of_mem x hy)
    · exact fun p hp => hfits p (List.mem_cons_of_mem _ hp)

/-- Adding values that are not negative takes a total up. -/
theorem le_addDiscounted (discountBps rank : ℕ) {total : ℤ} (ht : 0 ≤ total) (ht' : total ≤ i64Max)
    {l : List ℤ} (hl : ∀ x ∈ l, 0 ≤ x) (hfits : ∀ p ∈ products discountBps rank l, p ≤ i64Max) :
    total ≤ addDiscounted discountBps rank total l := by
  have hterms : ∀ y ∈ discountedTerms discountBps rank l, 0 ≤ y := by
    induction l generalizing rank with
    | nil => exact fun y hy => absurd hy List.not_mem_nil
    | cons x l ih =>
      rw [discountedTerms_cons, List.forall_mem_cons]
      refine ⟨?_, ih (rank + 1) (fun y hy => hl y (List.mem_cons_of_mem x hy))
        fun p hp => hfits p (List.mem_cons_of_mem _ hp)⟩
      have hprod : 0 ≤ x * discountFactor rank discountBps :=
        mul_nonneg (hl x (List.mem_cons_self ..)) (Int.natCast_nonneg _)
      exact termOf_mono (p := 0) le_rfl hprod (hfits _ (List.mem_cons_self ..))
  have hsum := List.sum_nonneg hterms
  rw [addDiscounted_eq_foldl, foldl_saturatingAdd hterms ht ht']
  exact le_min (by omega) ht'

/-- The products of values below a bound. -/
theorem products_le {discountBps : ℕ} (hd : discountBps ≤ 10000) (rank : ℕ) {bound : ℤ} {l : List ℤ}
    (hl : ∀ x ∈ l, 0 ≤ x ∧ x * 10000 ≤ bound) : ∀ p ∈ products discountBps rank l, p ≤ bound := by
  induction l generalizing rank with
  | nil => exact fun p hp => absurd hp List.not_mem_nil
  | cons x l ih =>
    obtain ⟨hx, hbound⟩ := hl x (List.mem_cons_self ..)
    have hle := (le_abs_self _).trans (abs_mul_factor_le hd rank x)
    rw [abs_of_nonneg hx] at hle
    rw [products, List.forall_mem_cons]
    exact ⟨hle.trans hbound, ih (rank + 1) fun y hy => hl y (List.mem_cons_of_mem x hy)⟩

/-! ## Evidence that grows -/

/-- Evidence of the same group that weighs at least as much. -/
def Evidence.AtMost (e e' : Evidence) : Prop := e.group = e'.group ∧ e.lo ≤ e'.lo

/-- The totals of the unassessed groups that count, by their values alone. -/
theorem countedTotals_eq {discountBps : ℕ} {evidence : List Evidence} (hd : discountBps ≤ 10000)
    (hpos : ∀ e ∈ evidence, 0 ≤ e.lo.value) :
    countedTotals discountBps evidence =
      (descending (totalsOf discountBps evidence (groupKeys evidence) false)).take
        maxDiscountDepth := by
  unfold countedTotals unassessedGroupTotals
  rw [List.map_take, unassessed_ranked hd hpos]

section AtMost

variable {discountBps : ℕ} {evidence evidence' : List Evidence}
  (h : List.Forall₂ Evidence.AtMost evidence evidence')
include h

theorem map_group_of_atMost : evidence.map Evidence.group = evidence'.map Evidence.group := by
  induction h with
  | nil => rfl
  | cons he _ ih => rw [List.map_cons, List.map_cons, he.1, ih]

theorem groupKeys_of_atMost : groupKeys evidence = groupKeys evidence' := by
  have hmap := congrArg (List.map CorrelationGroup.key) (map_group_of_atMost h)
  rw [List.map_map, List.map_map] at hmap
  exact congrArg (fun keys : List U64 => keys.dedup.insertionSort (· ≤ ·)) hmap

theorem groupMembers_atMost (key : U64) :
    List.Forall₂ Evidence.AtMost (groupMembers evidence key) (groupMembers evidence' key) := by
  unfold groupMembers
  induction h with
  | nil => exact .nil
  | @cons e e' _ _ he _ ih =>
    rw [List.filter_cons, List.filter_cons, he.1]
    split
    · exact .cons he ih
    · exact ih

theorem allAssessed_of_atMost (key : U64) : allAssessed evidence key = allAssessed evidence' key := by
  have hmap := congrArg (List.all · CorrelationGroup.assessed)
    (map_group_of_atMost (groupMembers_atMost h key))
  simpa [allAssessed, Function.comp_def] using hmap

theorem groupValues_mono (key : U64) :
    List.Forall₂ (· ≤ ·) (groupValues evidence key) (groupValues evidence' key) := by
  refine List.forall₂_map_left_iff.mpr (List.forall₂_map_right_iff.mpr ?_)
  exact (groupMembers_atMost h key).imp fun _ _ he => he.2

variable (hpos : ∀ e ∈ evidence, 0 ≤ e.lo.value)
include hpos

theorem nonneg_of_atMost : ∀ e ∈ evidence', 0 ≤ e.lo.value := by
  induction h with
  | nil => exact fun e he => absurd he List.not_mem_nil
  | cons he _ ih =>
    obtain ⟨h0, hpos⟩ := List.forall_mem_cons.mp hpos
    exact List.forall_mem_cons.mpr ⟨le_trans h0 he.2, ih hpos⟩

/-- Level 1: the total of a group grows with its members. -/
theorem valueTotal_mono (hd : discountBps ≤ 10000) (key : U64) :
    valueTotal discountBps evidence key ≤ valueTotal discountBps evidence' key := by
  have hpos' := nonneg_of_atMost h hpos
  refine addDiscounted_mono discountBps 0 (Domination.forall₂_insertionSort (groupValues_mono h key))
    (fun x hx => (mem_groupValues hpos key x hx).1) (products_le hd 0 fun x hx => ?_) le_rfl
  -- a single item cannot leave an `i64`
  obtain ⟨hx, hmax⟩ := mem_groupValues hpos' key x hx
  have hi32 : i32Max = 2 ^ 31 - 1 := rfl
  have hi64 : i64Max = 2 ^ 63 - 1 := rfl
  exact ⟨hx, by omega⟩

theorem totalsOf_mono (hd : discountBps ≤ 10000) (assessed : Bool) :
    List.Forall₂ (· ≤ ·) (totalsOf discountBps evidence (groupKeys evidence) assessed)
      (totalsOf discountBps evidence' (groupKeys evidence') assessed) := by
  unfold totalsOf
  simp only [groupKeys_of_atMost h, allAssessed_of_atMost h]
  refine List.forall₂_map_left_iff.mpr (List.forall₂_map_right_iff.mpr (List.forall₂_same.mpr ?_))
  exact fun key _ => valueTotal_mono h hpos hd key

/-- Level 2: the whole grows with the totals of the groups, unless a product leaves an `i64`. -/
theorem aggregateHierarchical_mono (hd : discountBps ≤ 10000) {unassessedDiscountBps : ℕ}
    (hfits : ∀ p ∈ products unassessedDiscountBps 0 (countedTotals discountBps evidence'),
      p ≤ i64Max) :
    aggregateHierarchical evidence discountBps unassessedDiscountBps ≤
      aggregateHierarchical evidence' discountBps unassessedDiscountBps := by
  have hpos' := nonneg_of_atMost h hpos
  rw [countedTotals_eq hd hpos'] at hfits
  rw [aggregateHierarchical_eq_combine hd hpos, aggregateHierarchical_eq_combine hd hpos']
  refine LogOdds.safe_mono (addDiscounted_mono _ 0 (List.forall₂_take _
    (Domination.forall₂_insertionSort (totalsOf_mono h hpos hd false))) (fun x hx => ?_) hfits ?_)
  · exact totalsOf_nonneg hd hpos _ _ x ((List.mem_insertionSort _).mp (List.mem_of_mem_take hx))
  · exact foldl_saturatingAdd_mono (totalsOf_mono h hpos hd true) le_rfl

end AtMost

/-- Evidence that is not negative takes nothing away, unless a product leaves an `i64`. -/
theorem aggregateHierarchical_nonneg_of_fits {discountBps unassessedDiscountBps : ℕ}
    {evidence : List Evidence} (hd : discountBps ≤ 10000) (hpos : ∀ e ∈ evidence, 0 ≤ e.lo.value)
    (hfits : ∀ p ∈ products unassessedDiscountBps 0 (countedTotals discountBps evidence),
      p ≤ i64Max) :
    0 ≤ (aggregateHierarchical evidence discountBps unassessedDiscountBps).value := by
  rw [countedTotals_eq hd hpos] at hfits
  rw [aggregateHierarchical_eq_combine hd hpos]
  have hassessed : 0 ≤ (totalsOf discountBps evidence (groupKeys evidence) true).foldl
      saturatingAdd 0 := by
    rw [foldl_saturatingAdd (totalsOf_nonneg hd hpos _ _) le_rfl (by decide), zero_add]
    exact le_min (List.sum_nonneg (totalsOf_nonneg hd hpos _ _)) (by decide)
  have hle := le_addDiscounted unassessedDiscountBps 0 hassessed (foldl_saturatingAdd_mem _).2
    (fun x hx => totalsOf_nonneg hd hpos _ _ x
      ((List.mem_insertionSort _).mp (List.mem_of_mem_take hx))) hfits
  have hmono := LogOdds.safe_mono (hassessed.trans hle)
  exact hmono

/-! ## One iteration -/

/-- The decay of one entry. -/
def decayedAt (claims : List Claim) (currentTick halfLifeTicks : ℕ) (v : ClaimArenaId)
    (lo : LogOdds) : LogOdds :=
  if 0 < halfLifeTicks ∧ 0 < currentTick then
    (claims[v]?).elim lo fun c =>
      let decaySteps := (currentTick - c.tick.val) / halfLifeTicks
      if 0 < decaySteps then lo.shiftRight (min decaySteps 30) else lo
  else lo

section Decay

variable (claims : List Claim) (currentTick halfLifeTicks : ℕ) (v : ClaimArenaId)

/-- Every entry of a node is shifted by the same number of steps. -/
theorem decayedAt_eq_shiftRight :
    ∃ shifts, ∀ lo, decayedAt claims currentTick halfLifeTicks v lo = lo.shiftRight shifts := by
  have hzero : ∀ lo : LogOdds, lo = lo.shiftRight 0 := fun lo => LogOdds.ext (Int.ediv_one _).symm
  unfold decayedAt
  split
  · cases claims[v]? with
    | none => exact ⟨0, hzero⟩
    | some c =>
      dsimp only [Option.elim_some]
      split
      · exact ⟨_, fun _ => rfl⟩
      · exact ⟨0, hzero⟩
  · exact ⟨0, hzero⟩

theorem decayedAt_mono {lo lo' : LogOdds} (h : lo ≤ lo') :
    decayedAt claims currentTick halfLifeTicks v lo ≤
      decayedAt claims currentTick halfLifeTicks v lo' := by
  obtain ⟨shifts, hshifts⟩ := decayedAt_eq_shiftRight claims currentTick halfLifeTicks v
  rw [hshifts, hshifts]
  exact LogOdds.shiftRight_mono h shifts

theorem inSafe_shiftRight {lo : LogOdds} (h : InSafe lo) (shifts : ℕ) :
    InSafe (lo.shiftRight shifts) := by
  obtain ⟨hlow, hhigh⟩ := h
  have hpos : (0 : ℤ) < 2 ^ shifts := by positivity
  have hmin : LogOdds.safeMin ≤ 0 := by decide
  have hmax : 0 ≤ LogOdds.safeMax := by decide
  constructor
  · refine (Int.le_ediv_iff_mul_le hpos).mpr ?_
    nlinarith
  · refine Int.ediv_le_of_le_mul hpos ?_
    nlinarith

theorem inSafe_decayedAt {lo : LogOdds} (h : InSafe lo) :
    InSafe (decayedAt claims currentTick halfLifeTicks v lo) := by
  obtain ⟨shifts, hshifts⟩ := decayedAt_eq_shiftRight claims currentTick halfLifeTicks v
  rw [hshifts]
  exact inSafe_shiftRight h shifts

theorem decayedAt_neutral : decayedAt claims currentTick halfLifeTicks v .neutral = .neutral := by
  obtain ⟨shifts, hshifts⟩ := decayedAt_eq_shiftRight claims currentTick halfLifeTicks v
  rw [hshifts]
  exact LogOdds.ext (Int.zero_ediv _)

theorem decayedBase_at (baseTrust : TrustMap) :
    (decayedBase baseTrust claims currentTick halfLifeTicks).at v =
      decayedAt claims currentTick halfLifeTicks v (baseTrust.at v) := by
  unfold decayedBase TrustMap.at
  split
  · rename_i hdecays
    rw [HashMap.lookup_mapValues]
    cases baseTrust.lookup v with
    | none => exact (decayedAt_neutral claims currentTick halfLifeTicks v).symm
    | some lo =>
      unfold decayedAt
      rw [if_pos hdecays]
      rfl
  · rename_i hdecays
    unfold decayedAt
    rw [if_neg hdecays]

end Decay

namespace KnowledgeGraph

/-- No product of an unassessed group that reaches a node leaves an `i64`. -/
def SupportFits (g : KnowledgeGraph) (blake3 : Blake3) (claims : List Claim)
    (reputations : Reputations) (discountBps : ℕ) (trust : ClaimArenaId → LogOdds) : Prop :=
  ∀ v, ∀ p ∈ products unassessedDiscountBps 0 (countedTotals discountBps
    (g.supportInto g.cyclicEdgeIndices claims (correlationGroups blake3 claims
      defaultSupportThreshold) reputations trust v)), p ≤ i64Max

section Flow

variable {g : KnowledgeGraph} {blake3 : Blake3} {cyclicEdges : List ℕ} {claims : List Claim}
  {claimGroups : List CorrelationGroup} {reputations : Reputations} {discountBps : ℕ}
  {start start' trust trust' : ClaimArenaId → LogOdds}

theorem contribution_mono (h : trust ≤ trust') (e : EpistemicEdge) :
    g.contribution cyclicEdges claims reputations trust e ≤
      g.contribution cyclicEdges claims reputations trust' e := by
  have hfrom := LogOdds.positivePart_mono (h e.fromId)
  have hshare : 0 ≤ ((e.strength.bps : ℤ) * 10000).tdiv (g.totalOut cyclicEdges e.fromId) :=
    Int.tdiv_nonneg (mul_nonneg (Int.natCast_nonneg _) (by decide)) (totalOut_pos g _ _).le
  have hflow := Int.tdiv_le_tdiv (show (0 : ℤ) < 10000 by decide)
    (mul_le_mul_of_nonneg_right hfrom hshare)
  exact LogOdds.ofInt_mono (Int.tdiv_le_tdiv (by decide)
    (mul_le_mul_of_nonneg_right hflow (authorRep_nonneg claims reputations e.fromId)))

theorem supportInto_mono (h : trust ≤ trust') (v : ClaimArenaId) :
    List.Forall₂ Evidence.AtMost
      (g.supportInto cyclicEdges claims claimGroups reputations trust v)
      (g.supportInto cyclicEdges claims claimGroups reputations trust' v) := by
  refine List.forall₂_map_left_iff.mpr (List.forall₂_map_right_iff.mpr (List.forall₂_same.mpr ?_))
  exact fun e _ => ⟨rfl, contribution_mono h e.1⟩

theorem flow_mono (hd : discountBps ≤ 10000) (hstart : start ≤ start') (h : trust ≤ trust')
    (hfits : g.SupportFits blake3 claims reputations discountBps trust') :
    g.flow g.cyclicEdgeIndices claims (correlationGroups blake3 claims defaultSupportThreshold)
        reputations discountBps start trust ≤
      g.flow g.cyclicEdgeIndices claims (correlationGroups blake3 claims defaultSupportThreshold)
        reputations discountBps start' trust' := by
  intro v
  unfold flow
  split
  · exact hstart v
  · exact LogOdds.update_mono (hstart v) (aggregateHierarchical_mono (supportInto_mono h v)
      (supportInto_nonneg trust v) hd (hfits v))

theorem le_flow (hd : discountBps ≤ 10000) (hstart : ∀ v, InSafe (start v))
    (hfits : g.SupportFits blake3 claims reputations discountBps trust) :
    start ≤ g.flow g.cyclicEdgeIndices claims (correlationGroups blake3 claims
      defaultSupportThreshold) reputations discountBps start trust := by
  intro v
  unfold flow
  split
  · exact le_rfl
  · exact LogOdds.le_update (hstart v)
      (aggregateHierarchical_nonneg_of_fits hd (supportInto_nonneg trust v) (hfits v))

end Flow

/-! ## All iterations -/

/-- As long as no product of an unassessed group leaves an `i64` in the iterations from the larger base
trust, these leave every node with at least as much trust as those from the smaller one, and none of
them takes trust away. -/
theorem stabilized_mono (blake3 : Blake3) (g : KnowledgeGraph) (claims : List Claim)
    (reputations : Reputations) (currentTick halfLifeTicks : ℕ) {discountBps budget : ℕ}
    {baseTrust baseTrust' : TrustMap} (hd : discountBps ≤ 10000)
    (hle : ∀ v, (baseTrust.at v).value ≤ (baseTrust'.at v).value)
    (hsafe : ∀ v, InSafe (baseTrust'.at v))
    (hfits : ∀ k < budget, g.SupportFits blake3 claims reputations discountBps (g.stabilized blake3
      baseTrust' k claims reputations currentTick halfLifeTicks discountBps).at) :
    (∀ n ≤ budget, ∀ v,
      ((g.stabilized blake3 baseTrust n claims reputations currentTick halfLifeTicks
        discountBps).at v).value ≤
      ((g.stabilized blake3 baseTrust' n claims reputations currentTick halfLifeTicks
        discountBps).at v).value) ∧
    ∀ m n, m ≤ n → n ≤ budget → ∀ v,
      ((g.stabilized blake3 baseTrust' m claims reputations currentTick halfLifeTicks
        discountBps).at v).value ≤
      ((g.stabilized blake3 baseTrust' n claims reputations currentTick halfLifeTicks
        discountBps).at v).value := by
  simp only [stabilized_at] at hfits ⊢
  have hstart : (decayedBase baseTrust claims currentTick halfLifeTicks).at ≤
      (decayedBase baseTrust' claims currentTick halfLifeTicks).at := by
    intro v
    rw [decayedBase_at, decayedBase_at]
    exact decayedAt_mono _ _ _ _ (hle v)
  have hsafe' : ∀ v, InSafe ((decayedBase baseTrust' claims currentTick halfLifeTicks).at v) := by
    intro v
    rw [decayedBase_at]
    exact inSafe_decayedAt _ _ _ _ (hsafe v)
  refine ⟨fun n hn => ?_, fun m n hmn hn => ?_⟩
  · exact FixedPoint.iterate_le_iterate (fun s t hst ht => flow_mono hd hstart hst ht) hstart
      fun k hk => hfits k (by omega)
  · rcases Nat.eq_zero_or_pos n with rfl | hpos
    · obtain rfl := Nat.le_zero.mp hmn
      exact fun v => le_rfl
    · exact FixedPoint.iterate_le_of_le (fun s t hst ht => flow_mono hd le_rfl hst ht)
        (le_flow hd hsafe' (hfits 0 (by omega))) (fun k hk => hfits k (by omega)) hmn

/-! ## Graphs with few edges -/

theorem valueTotal_le_length {discountBps : ℕ} {evidence : List Evidence} (hd : discountBps ≤ 10000)
    (hpos : ∀ e ∈ evidence, 0 ≤ e.lo.value) (key : U64) :
    valueTotal discountBps evidence key ≤ evidence.length * i32Max := by
  have hmax : ∀ x ∈ groupValues evidence key, x ≤ i32Max := by
    intro x hx
    obtain ⟨e, -, rfl⟩ := List.mem_map.mp hx
    exact e.lo.isI32.2
  have hcard := List.sum_le_card_nsmul _ i32Max hmax
  have hlen : (groupValues evidence key).length ≤ evidence.length := by
    rw [groupValues, List.length_map]
    exact List.length_filter_le _ _
  calc valueTotal discountBps evidence key
      ≤ (groupValues evidence key).sum := valueTotal_le hd hpos key
    _ ≤ (groupValues evidence key).length * i32Max := by rwa [nsmul_eq_mul] at hcard
    _ ≤ evidence.length * i32Max :=
        mul_le_mul_of_nonneg_right (by exact_mod_cast hlen) (by decide)

/-- With at most 429496 edges every product fits. -/
theorem supportFits_of_few_edges {g : KnowledgeGraph} {discountBps : ℕ} (hd : discountBps ≤ 10000)
    (hedges : g.edges.length ≤ 429496) (blake3 : Blake3) (claims : List Claim)
    (reputations : Reputations) (trust : ClaimArenaId → LogOdds) :
    g.SupportFits blake3 claims reputations discountBps trust := by
  intro v
  have hpos : ∀ e ∈ g.supportInto g.cyclicEdgeIndices claims (correlationGroups blake3 claims
      defaultSupportThreshold) reputations trust v, 0 ≤ e.lo.value := supportInto_nonneg trust v
  have hlen : (g.supportInto g.cyclicEdgeIndices claims (correlationGroups blake3 claims
      defaultSupportThreshold) reputations trust v).length ≤ 429496 := by
    rw [supportInto, List.length_map]
    refine ((List.length_filter_le _ _).trans (List.length_filter_le _ _)).trans ?_
    rwa [List.length_zipIdx]
  refine products_le (by decide) 0 fun x hx => ?_
  rw [countedTotals_eq hd hpos] at hx
  obtain ⟨key, -, rfl⟩ := List.mem_map.mp
    ((List.mem_insertionSort _).mp (List.mem_of_mem_take hx))
  have hle := valueTotal_le_length hd hpos key
  have hmax : i32Max = 2 ^ 31 - 1 := rfl
  have hi64 : i64Max = 2 ^ 63 - 1 := rfl
  rw [hmax] at hle
  exact ⟨valueTotal_nonneg hd hpos key, by omega⟩

/-- The base trust in claim 0 alone. -/
def trustInFirst (lo : LogOdds) : TrustMap := (∅ : TrustMap).insert 0 lo

theorem stabilized_mono_supportedClaim :
    (∀ v, ((trustInFirst ⟨2000, by decide⟩).at v).value ≤
      ((trustInFirst ⟨5000, by decide⟩).at v).value) ∧
    (∀ n ≤ 5, ∀ v,
      ((supportedClaim.stabilized sampleHash (trustInFirst ⟨2000, by decide⟩) n supportedPair
        (fun _ => .full) 0 0 defaultDiscountBps).at v).value ≤
      ((supportedClaim.stabilized sampleHash (trustInFirst ⟨5000, by decide⟩) n supportedPair
        (fun _ => .full) 0 0 defaultDiscountBps).at v).value) ∧
    ∀ m n, m ≤ n → n ≤ 5 → ∀ v,
      ((supportedClaim.stabilized sampleHash (trustInFirst ⟨5000, by decide⟩) m supportedPair
        (fun _ => .full) 0 0 defaultDiscountBps).at v).value ≤
      ((supportedClaim.stabilized sampleHash (trustInFirst ⟨5000, by decide⟩) n supportedPair
        (fun _ => .full) 0 0 defaultDiscountBps).at v).value := by
  have hat : ∀ (lo : LogOdds) v, (trustInFirst lo).at v = if v = 0 then lo else .neutral := by
    intro lo v
    unfold trustInFirst TrustMap.at
    by_cases hv : v = 0
    · rw [hv, AList.lookup_insert, if_pos rfl]
      rfl
    · rw [AList.lookup_insert_ne hv, if_neg hv]
      rfl
  have hle : ∀ v, ((trustInFirst ⟨2000, by decide⟩).at v).value ≤
      ((trustInFirst ⟨5000, by decide⟩).at v).value := by
    intro v
    rw [hat, hat]
    split <;> decide
  refine ⟨hle, stabilized_mono sampleHash supportedClaim supportedPair (fun _ => .full) 0 0
    (by decide) hle (fun v => ?_) fun k _ => ?_⟩
  · rw [hat]
    split <;> decide
  · exact supportFits_of_few_edges (by decide) (by decide) _ _ _ _

/-! ## A flood of support -/

/-- Claims of one author. -/
def numberedClaims (n : ℕ) : List Claim :=
  (List.range n).map fun k => plainClaim (numberedId k) .neutral

/-- An edge of full support for claim 0. -/
def floodEdge (k : ℕ) : EpistemicEdge := ⟨k + 1, 0, .supports, .full⟩

/-- The claims from 1 to `n` support claim 0. -/
def supportFlood (n : ℕ) : KnowledgeGraph :=
  (List.range n).foldl (fun g k => g.addEdge (floodEdge k)) new

/-- They are all trusted alike. -/
def floodBase (lo : LogOdds) (n : ℕ) : TrustMap :=
  (List.range n).foldl (fun t k => t.insert (k + 1) lo) ∅

section Flood

variable {n k : ℕ} {lo : LogOdds}

theorem edges_supportFlood (n : ℕ) : (supportFlood n).edges = (List.range n).map floodEdge := by
  induction n with
  | zero => rfl
  | succ n ih =>
    rw [List.range_succ, List.map_append, ← ih, supportFlood, List.range_succ, List.foldl_append]
    rfl

theorem floodBase_at (lo : LogOdds) (n v : ℕ) :
    (floodBase lo n).at v = if 0 < v ∧ v ≤ n then lo else .neutral := by
  induction n with
  | zero => exact (if_neg (by omega)).symm
  | succ n ih =>
    have hsucc : floodBase lo (n + 1) = (floodBase lo n).insert (n + 1) lo := by
      unfold floodBase
      rw [List.range_succ, List.foldl_append]
      rfl
    rw [hsucc]
    unfold TrustMap.at at ih ⊢
    by_cases hv : v = n + 1
    · rw [hv, AList.lookup_insert, if_pos (by omega)]
      rfl
    · have hiff : (0 < v ∧ v ≤ n) ↔ (0 < v ∧ v ≤ n + 1) := by omega
      rw [AList.lookup_insert_ne hv, ih]
      simp only [hiff]

theorem cyclicEdgeIndices_supportFlood (n : ℕ) : (supportFlood n).cyclicEdgeIndices = [] := by
  rw [List.eq_nil_iff_forall_not_mem]
  intro i hi
  obtain ⟨e, hget, -, hback⟩ := cycle_of_mem_cyclicEdgeIndices hi
  have hmem := List.mem_of_getElem? hget
  rw [edges_supportFlood] at hmem
  obtain ⟨k, -, rfl⟩ := List.mem_map.mp hmem
  -- no edge leads away from claim 0
  rcases Relation.ReflTransGen.cases_head hback with heq | ⟨b, hstep, -⟩
  · exact absurd heq (Nat.succ_ne_zero k).symm
  · obtain ⟨j, e, hget, -, -, hfrom, -⟩ := supportStep_iff.mp hstep
    have hmem := List.mem_of_getElem? hget
    rw [edges_supportFlood] at hmem
    obtain ⟨k', -, rfl⟩ := List.mem_map.mp hmem
    exact absurd hfrom (Nat.succ_ne_zero k')

theorem totalOut_supportFlood (hk : k < n) : (supportFlood n).totalOut [] (k + 1) = 10000 := by
  have hfilter : (((supportFlood n).edges.zipIdx.filter fun e => e.1.fromId = k + 1).filter
      (carries [])).map Prod.fst = ((List.range n).filter (· == k)).map floodEdge := by
    have hcarries : (fun e : EpistemicEdge × ℕ => carries [] e && decide (e.1.fromId = k + 1)) =
        (fun e => e.relation.isSupport && decide (e.fromId = k + 1)) ∘ Prod.fst := by
      funext e
      simp [carries]
    rw [List.filter_filter, hcarries, ← List.filter_map, List.zipIdx_map_fst, edges_supportFlood,
      List.filter_map]
    congr 1
    refine List.filter_congr fun j _ => ?_
    simp [floodEdge, Relation.isSupport, Bool.beq_eq_decide_eq]
  have hone : (List.range n).filter (· == k) = [k] := by
    rw [List.filter_beq, List.count_eq_one_of_mem List.nodup_range (List.mem_range.mpr hk)]
    rfl
  have hmap := congrArg (List.map fun e : EpistemicEdge => (e.strength.bps : ℤ)) hfilter
  rw [List.map_map, hone] at hmap
  rw [totalOut_eq]
  exact congrArg (fun l : List ℤ => max l.sum 1) hmap

/-- Every edge hands on all of the trust in its source. -/
theorem contribution_supportFlood (hk : k < n) (hlo : 0 ≤ lo.value)
    {trust : ClaimArenaId → LogOdds} (htrust : trust (k + 1) = lo) :
    (supportFlood n).contribution [] (numberedClaims (n + 1)) (fun _ => .full) trust (floodEdge k) =
      lo := by
  have hauthor : authorRep (numberedClaims (n + 1)) (fun _ => .full) (k + 1) = 10000 := by
    have hget : (numberedClaims (n + 1))[k + 1]? = some (plainClaim (numberedId (k + 1)) .neutral) := by
      simp [numberedClaims, hk]
    unfold authorRep
    rw [hget]
    rfl
  unfold contribution floodEdge
  dsimp only
  rw [totalOut_supportFlood hk, hauthor, htrust, show lo.positivePart.value = lo.value from
    max_eq_left hlo]
  have hshare : ((Reputation.full.bps : ℤ) * 10000).tdiv 10000 = 10000 := by decide
  rw [hshare, Int.mul_tdiv_cancel _ (by decide), Int.mul_tdiv_cancel _ (by decide)]
  exact LogOdds.ext (clamp_of_mem lo.isI32.1 lo.isI32.2)

/-- The claims are in one group, which is not assessed. -/
theorem correlationGroups_numberedClaims (blake3 : Blake3) (hk : k < n) :
    (correlationGroups blake3 (numberedClaims n) defaultSupportThreshold)[k]? =
      some ⟨Claim.originBucket blake3 plainOrigin, false⟩ := by
  have hget : (numberedClaims n)[k]? = some (plainClaim (numberedId k) .neutral) := by
    simp [numberedClaims, hk]
  obtain ⟨group, hgroup, hspec⟩ := correlationGroups_isGroup blake3 defaultSupportThreshold hget
  have hunassessed : ¬ Assessed (numberedClaims n) (plainClaim (numberedId k) .neutral) := by
    intro h
    cases h.1
  rw [hgroup, hspec.unassessed hunassessed]
  rfl

theorem carriersInto_supportFlood (n : ℕ) :
    (supportFlood n).carriersInto [] 0 = (supportFlood n).edges.zipIdx := by
  unfold carriersInto
  rw [List.filter_filter, List.filter_eq_self]
  intro e he
  have hmem : e.1 ∈ (supportFlood n).edges := List.fst_mem_of_mem_zipIdx he
  rw [edges_supportFlood] at hmem
  obtain ⟨k, -, hk⟩ := List.mem_map.mp hmem
  simp [← hk, carries, floodEdge, Relation.isSupport]

section Iteration

variable {blake3 : Blake3} {trust : ClaimArenaId → LogOdds}

/-- The evidence that reaches claim 0. -/
theorem length_supportFlood :
    ((supportFlood n).supportInto [] (numberedClaims (n + 1)) (correlationGroups blake3
      (numberedClaims (n + 1)) defaultSupportThreshold) (fun _ => .full) trust 0).length = n := by
  rw [supportInto, carriersInto_supportFlood, List.length_map, List.length_zipIdx,
    edges_supportFlood, List.length_map, List.length_range]

theorem mem_supportFlood (hlo : 0 ≤ lo.value) (htrust : ∀ k < n, trust (k + 1) = lo) {e : Evidence}
    (he : e ∈ (supportFlood n).supportInto [] (numberedClaims (n + 1)) (correlationGroups blake3
      (numberedClaims (n + 1)) defaultSupportThreshold) (fun _ => .full) trust 0) :
    e.lo = lo ∧ e.group = ⟨Claim.originBucket blake3 plainOrigin, false⟩ := by
  rw [supportInto, carriersInto_supportFlood] at he
  obtain ⟨x, hx, rfl⟩ := List.mem_map.mp he
  have hmem : x.1 ∈ (supportFlood n).edges := List.fst_mem_of_mem_zipIdx hx
  rw [edges_supportFlood] at hmem
  obtain ⟨k, hk, hxk⟩ := List.mem_map.mp hmem
  have hk := List.mem_range.mp hk
  have hgroup := correlationGroups_numberedClaims blake3 (Nat.succ_lt_succ hk)
  rw [← hxk]
  refine ⟨contribution_supportFlood hk hlo (htrust k hk), ?_⟩
  unfold supportEvidence floodEdge
  dsimp only
  rw [hgroup]
  rfl

/-- One iteration, seen at claim 0. -/
theorem flow_supportFlood (hn : 0 < n) (hlen : n < 2 ^ 31) (hlo : 0 ≤ lo.value)
    {start : ClaimArenaId → LogOdds} (hstart : start 0 = .neutral)
    (htrust : ∀ k < n, trust (k + 1) = lo) :
    (supportFlood n).flow [] (numberedClaims (n + 1)) (correlationGroups blake3
        (numberedClaims (n + 1)) defaultSupportThreshold) (fun _ => .full) 10000 start trust 0 =
      LogOdds.neutral.update (.safe (termOf (n * lo.value * 10000))) := by
  have hlength := @length_supportFlood n blake3 trust
  have hne := List.length_pos_iff.mp (hlength.symm ▸ hn)
  have hsome : ((supportFlood n).carriersInto [] 0).isEmpty = false := by
    rw [Bool.eq_false_iff, ne_eq, List.isEmpty_iff]
    intro hnil
    rw [supportInto, hnil] at hne
    exact hne rfl
  rw [flow, hsome, if_neg Bool.false_ne_true, hstart, aggregateHierarchical_uniform
    (fun e he => (mem_supportFlood hlo htrust he).1) (fun e he => (mem_supportFlood hlo htrust he).2)
    hne (by rwa [hlength]), hlength]

end Iteration

/-- A million claims of one author support claim 0: as long as they are trusted a little it gains, and
when they are trusted as much as possible it ends up as disbelieved as possible. -/
theorem supportFlood_falls :
    (∀ v, ((floodBase ⟨1, by decide⟩ 1000000).at v).value ≤
      ((floodBase ⟨1000000000, by decide⟩ 1000000).at v).value) ∧
    (∀ v, InSafe ((floodBase ⟨1, by decide⟩ 1000000).at v) ∧
      InSafe ((floodBase ⟨1000000000, by decide⟩ 1000000).at v)) ∧
    (((supportFlood 1000000).stabilized sampleHash (floodBase ⟨1, by decide⟩ 1000000) 1
      (numberedClaims 1000001) (fun _ => .full) 0 0 10000).at 0).value = 1000000 ∧
    (((supportFlood 1000000).stabilized sampleHash (floodBase ⟨1000000000, by decide⟩ 1000000) 0
      (numberedClaims 1000001) (fun _ => .full) 0 0 10000).at 0).value = 0 ∧
    (((supportFlood 1000000).stabilized sampleHash (floodBase ⟨1000000000, by decide⟩ 1000000) 1
      (numberedClaims 1000001) (fun _ => .full) 0 0 10000).at 0).value = LogOdds.safeMin := by
  have hstart : ∀ lo : LogOdds, (floodBase lo 1000000).at 0 = .neutral := fun lo => floodBase_at lo _ 0
  have htrust : ∀ (lo : LogOdds) (k : ℕ), k < 1000000 → (floodBase lo 1000000).at (k + 1) = lo := by
    intro lo k hk
    rw [floodBase_at, if_pos (by omega)]
  refine ⟨fun v => ?_, fun v => ?_, ?_, ?_, ?_⟩
  · rw [floodBase_at, floodBase_at]
    split <;> decide
  · rw [floodBase_at, floodBase_at]
    split <;> decide
  · rw [stabilized_at, decayedBase_zero, cyclicEdgeIndices_supportFlood, Function.iterate_one,
      flow_supportFlood (by norm_num) (by norm_num) (by decide) (hstart _) (htrust _)]
    decide
  · rw [stabilized_at, decayedBase_zero, Function.iterate_zero, id_eq, hstart]
    rfl
  · rw [stabilized_at, decayedBase_zero, cyclicEdgeIndices_supportFlood, Function.iterate_one,
      flow_supportFlood (by norm_num) (by norm_num) (by decide) (hstart _) (htrust _)]
    decide

end Flood

end KnowledgeGraph

end Aimp.Epistemic
