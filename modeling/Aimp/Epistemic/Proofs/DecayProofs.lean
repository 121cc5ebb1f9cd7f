import Aimp.Epistemic.Proofs.ConservationProofs
import Aimp.Epistemic.Proofs.MonotoneProofs

/-!
# Temporal decay

A claim loses half of its base trust for every half-life that it is old. Support that flows through the
graph is rounded down at every edge and discounted by rank, and both only help: with every half-life that
passes, the trust of every node at least halves (`stabilized_decays`).
-/

namespace Aimp.Epistemic

open LogOdds

/-! ## The age of a claim -/

/-- By how many bits the base trust of a node is shifted. -/
def decayShifts (claims : List Claim) (currentTick halfLifeTicks : ℕ) (v : ClaimArenaId) : ℕ :=
  if 0 < halfLifeTicks ∧ 0 < currentTick then
    (claims[v]?).elim 0 fun c => min ((currentTick - c.tick.val) / halfLifeTicks) 30
  else 0

section Age

variable {claims : List Claim} {currentTick halfLifeTicks : ℕ} {v : ClaimArenaId}

theorem decayedAt_value (lo : LogOdds) :
    (decayedAt claims currentTick halfLifeTicks v lo).value =
      lo.value / 2 ^ decayShifts claims currentTick halfLifeTicks v := by
  unfold decayedAt decayShifts
  split
  · cases claims[v]? with
    | none => simp
    | some c =>
      dsimp only [Option.elim_some]
      split
      · rfl
      · rename_i hsteps
        simp [Nat.eq_zero_of_not_pos hsteps]
  · simp

theorem decayShifts_mono {tick tick' : ℕ} (h : tick ≤ tick') :
    decayShifts claims tick halfLifeTicks v ≤ decayShifts claims tick' halfLifeTicks v := by
  unfold decayShifts
  split
  · rename_i hdecays
    rw [if_pos ⟨hdecays.1, by omega⟩]
    cases claims[v]? with
    | none => exact le_rfl
    | some c =>
      exact min_le_min_right 30 (Nat.div_le_div_right (Nat.sub_le_sub_right h _))
  · exact Nat.zero_le _

/-- A claim that exists already grows older by as many half-lives as pass. -/
theorem decayShifts_add {c : Claim} (hc : claims[v]? = some c) (htick : c.tick.val ≤ currentTick)
    (hhalf : 0 < halfLifeTicks) (k : ℕ) :
    decayShifts claims (currentTick + k * halfLifeTicks) halfLifeTicks v =
      min (decayShifts claims currentTick halfLifeTicks v + k) 30 := by
  have hage : (currentTick + k * halfLifeTicks - c.tick.val) / halfLifeTicks =
      (currentTick - c.tick.val) / halfLifeTicks + k := by
    rw [Nat.sub_add_comm htick, Nat.add_mul_div_right _ _ hhalf]
  unfold decayShifts
  rw [hc]
  dsimp only [Option.elim_some]
  rw [hage]
  rcases Nat.eq_zero_or_pos currentTick with rfl | hpos
  · -- without a tick nothing decays, and nothing is old yet
    rcases Nat.eq_zero_or_pos k with rfl | hk
    · simp
    · rw [if_pos ⟨hhalf, by positivity⟩, if_neg (by omega)]
      simp
  · rw [if_pos ⟨hhalf, by omega⟩, if_pos ⟨hhalf, hpos⟩]
    omega

/-- A value of the safe range is gone after 30 shifts. -/
theorem mul_shift_le {x : ℤ} (hx : 0 ≤ x) (hmax : x ≤ safeMax) (s k : ℕ) :
    2 ^ k * (x / 2 ^ min (s + k) 30) ≤ x / 2 ^ s := by
  rcases Nat.le_total (s + k) 30 with hle | hle
  · rw [min_eq_left hle, pow_add, ← Int.ediv_ediv_of_nonneg (by positivity)]
    exact Int.mul_ediv_self_le (by positivity)
  · have hgone : x / 2 ^ 30 = 0 := Int.ediv_eq_zero_of_lt hx (hmax.trans_lt (by decide))
    rw [min_eq_right hle, hgone, mul_zero]
    exact Int.ediv_nonneg hx (by positivity)

theorem decayedAt_nonneg {lo : LogOdds} (hlo : 0 ≤ lo.value) :
    0 ≤ (decayedAt claims currentTick halfLifeTicks v lo).value := by
  rw [decayedAt_value]
  exact Int.ediv_nonneg hlo (by positivity)

/-- Trust that is not negative only decays. -/
theorem decayedAt_antitone {tick tick' : ℕ} (h : tick ≤ tick') {lo : LogOdds} (hlo : 0 ≤ lo.value) :
    decayedAt claims tick' halfLifeTicks v lo ≤ decayedAt claims tick halfLifeTicks v lo := by
  show (decayedAt claims tick' halfLifeTicks v lo).value ≤ _
  rw [decayedAt_value, decayedAt_value]
  apply Int.le_ediv_of_mul_le (by positivity)
  have hpow : (2 : ℤ) ^ decayShifts claims tick halfLifeTicks v ≤
      2 ^ decayShifts claims tick' halfLifeTicks v :=
    pow_le_pow_right₀ (by decide) (decayShifts_mono h)
  calc lo.value / 2 ^ decayShifts claims tick' halfLifeTicks v *
        2 ^ decayShifts claims tick halfLifeTicks v
      ≤ lo.value / 2 ^ decayShifts claims tick' halfLifeTicks v *
        2 ^ decayShifts claims tick' halfLifeTicks v :=
        mul_le_mul_of_nonneg_left hpow (Int.ediv_nonneg hlo (by positivity))
    _ ≤ lo.value := Int.ediv_mul_le _ (by positivity)

end Age

/-! ## Terms that are many times larger -/

theorem mul_ediv_le {c p q : ℤ} (hc : 0 ≤ c) (h : c * p ≤ q) : c * (p / 10000) ≤ q / 10000 := by
  apply Int.le_ediv_of_mul_le (by decide)
  calc c * (p / 10000) * 10000 = c * (p / 10000 * 10000) := mul_assoc _ _ _
    _ ≤ c * p := mul_le_mul_of_nonneg_left (Int.ediv_mul_le _ (by decide)) hc
    _ ≤ q := h

section Sums

variable {c : ℤ} {l l' : List ℤ}

theorem nonneg_of_mul_le (hc : 0 ≤ c) (h : List.Forall₂ (fun x y => c * x ≤ y) l l')
    (hl : ∀ x ∈ l, 0 ≤ x) : ∀ y ∈ l', 0 ≤ y := by
  induction h with
  | nil => simp
  | cons hxy _ ih =>
    obtain ⟨hx, hl⟩ := List.forall_mem_cons.mp hl
    exact List.forall_mem_cons.mpr ⟨(mul_nonneg hc hx).trans hxy, ih hl⟩

theorem mul_sum_le (h : List.Forall₂ (fun x y => c * x ≤ y) l l') : c * l.sum ≤ l'.sum := by
  induction h with
  | nil => simp
  | cons hxy _ ih =>
    rw [List.sum_cons, List.sum_cons, mul_add]
    exact add_le_add hxy ih

/-- The products of smaller values fit as well. -/
theorem products_fit (discountBps rank : ℕ) (hc : 1 ≤ c)
    (h : List.Forall₂ (fun x y => c * x ≤ y) l l') (hl : ∀ x ∈ l, 0 ≤ x)
    (hfits : ∀ p ∈ products discountBps rank l', p ≤ i64Max) :
    ∀ p ∈ products discountBps rank l, p ≤ i64Max := by
  induction h generalizing rank with
  | nil => exact fun p hp => absurd hp List.not_mem_nil
  | @cons x y l l' hxy _ ih =>
    obtain ⟨hx, hl⟩ := List.forall_mem_cons.mp hl
    rw [products, List.forall_mem_cons] at hfits ⊢
    have hle : x ≤ y := (le_mul_of_one_le_left hx hc).trans hxy
    exact ⟨(mul_le_mul_of_nonneg_right hle (Int.natCast_nonneg _)).trans hfits.1,
      ih (rank + 1) hl hfits.2⟩

/-- Rounding a term down never helps it to keep up. -/
theorem mul_discountedTerms_le (discountBps rank : ℕ) (hc : 1 ≤ c)
    (h : List.Forall₂ (fun x y => c * x ≤ y) l l') (hl : ∀ x ∈ l, 0 ≤ x)
    (hfits : ∀ p ∈ products discountBps rank l', p ≤ i64Max) :
    List.Forall₂ (fun x y => c * x ≤ y) (discountedTerms discountBps rank l)
      (discountedTerms discountBps rank l') := by
  have hmin : i64Min ≤ 0 := by decide
  induction h generalizing rank with
  | nil => exact .nil
  | @cons x y l l' hxy _ ih =>
    obtain ⟨hx, hl⟩ := List.forall_mem_cons.mp hl
    rw [products, List.forall_mem_cons] at hfits
    have hfactor : (0 : ℤ) ≤ discountFactor rank discountBps := Int.natCast_nonneg _
    have hp : 0 ≤ x * discountFactor rank discountBps := mul_nonneg hx hfactor
    have hpq : c * (x * discountFactor rank discountBps) ≤ y * discountFactor rank discountBps := by
      rw [← mul_assoc]
      exact mul_le_mul_of_nonneg_right hxy hfactor
    have hle : x * discountFactor rank discountBps ≤ y * discountFactor rank discountBps :=
      (le_mul_of_one_le_left hp hc).trans hpq
    rw [discountedTerms_cons, discountedTerms_cons]
    refine .cons ?_ (ih (rank + 1) hl hfits.2)
    unfold termOf
    rw [wrapI64_of_mem (hmin.trans hp) (hle.trans hfits.1),
      wrapI64_of_mem (hmin.trans (hp.trans hle)) hfits.1, Int.tdiv_eq_ediv_of_nonneg hp,
      Int.tdiv_eq_ediv_of_nonneg (hp.trans hle)]
    exact mul_ediv_le (by omega) hpq

theorem discountedTerms_nonneg (discountBps rank : ℕ) (hl : ∀ x ∈ l, 0 ≤ x)
    (hfits : ∀ p ∈ products discountBps rank l, p ≤ i64Max) :
    ∀ x ∈ discountedTerms discountBps rank l, 0 ≤ x := by
  induction l generalizing rank with
  | nil => exact fun x hx => absurd hx List.not_mem_nil
  | cons x l ih =>
    obtain ⟨hx, hl⟩ := List.forall_mem_cons.mp hl
    rw [products, List.forall_mem_cons] at hfits
    rw [discountedTerms_cons, List.forall_mem_cons]
    have hp : 0 ≤ x * (discountFactor rank discountBps : ℤ) := mul_nonneg hx (Int.natCast_nonneg _)
    exact ⟨termOf_mono (p := 0) le_rfl hp hfits.1, ih (rank + 1) hl hfits.2⟩

/-- A sum that does not saturate keeps its distance to one of smaller terms. -/
theorem mul_foldl_saturatingAdd_le (hc : 0 ≤ c) (h : List.Forall₂ (fun x y => c * x ≤ y) l l')
    (hl : ∀ x ∈ l, 0 ≤ x) {total total' : ℤ} (ht : 0 ≤ total) (hmax : total ≤ i64Max)
    (ht' : c * total ≤ total') (hmax' : total' ≤ i64Max)
    (hroom : l'.foldl saturatingAdd total' < i64Max) :
    c * l.foldl saturatingAdd total ≤ l'.foldl saturatingAdd total' := by
  rw [foldl_saturatingAdd (nonneg_of_mul_le hc h hl) ((mul_nonneg hc ht).trans ht') hmax'] at hroom ⊢
  rw [foldl_saturatingAdd hl ht hmax]
  have hsum : total' + l'.sum ≤ i64Max := by omega
  rw [min_eq_left hsum]
  calc c * min (total + l.sum) i64Max ≤ c * (total + l.sum) :=
        mul_le_mul_of_nonneg_left (min_le_left _ _) hc
    _ = c * total + c * l.sum := mul_add _ _ _
    _ ≤ total' + l'.sum := add_le_add ht' (mul_sum_le h)

/-- Level 2, as long as the result stays inside the safe range. -/
theorem mul_combine_le {unassessedDiscountBps : ℕ} {assessed assessed' unassessed unassessed' : List ℤ}
    (hc : 1 ≤ c) (ha : List.Forall₂ (fun x y => c * x ≤ y) assessed assessed')
    (hu : List.Forall₂ (fun x y => c * x ≤ y) unassessed unassessed') (hposA : ∀ x ∈ assessed, 0 ≤ x)
    (hposU : ∀ x ∈ unassessed, 0 ≤ x)
    (hfits : ∀ p ∈ products unassessedDiscountBps 0 ((descending unassessed').take maxDiscountDepth),
      p ≤ i64Max)
    (hroom : (combine unassessedDiscountBps assessed' unassessed').value < safeMax) :
    c * (combine unassessedDiscountBps assessed unassessed).value ≤
      (combine unassessedDiscountBps assessed' unassessed').value := by
  have hcounted : List.Forall₂ (fun x y => c * x ≤ y) ((descending unassessed).take maxDiscountDepth)
      ((descending unassessed').take maxDiscountDepth) := List.forall₂_take _
    (Domination.forall₂_insertionSort_map (strictMono_mul_left_of_pos (by omega : 0 < c)) hu)
  have hposC : ∀ x ∈ (descending unassessed).take maxDiscountDepth, 0 ≤ x := fun x hx =>
    hposU x ((List.mem_insertionSort _).mp (List.mem_of_mem_take hx))
  have hposC' := nonneg_of_mul_le (by omega) hcounted hposC
  have hterms := mul_discountedTerms_le unassessedDiscountBps 0 hc hcounted hposC hfits
  have hfits' := products_fit unassessedDiscountBps 0 hc hcounted hposC hfits
  have hsafe : safeMax < i64Max := by decide
  have hmin : safeMin ≤ 0 := by decide
  have hA : 0 ≤ assessed.foldl saturatingAdd 0 := by
    rw [foldl_saturatingAdd hposA le_rfl (by decide), zero_add]
    exact le_min (List.sum_nonneg hposA) (by decide)
  have hA' : 0 ≤ assessed'.foldl saturatingAdd 0 := by
    have hposA' := nonneg_of_mul_le (by omega) ha hposA
    rw [foldl_saturatingAdd hposA' le_rfl (by decide), zero_add]
    exact le_min (List.sum_nonneg hposA') (by decide)
  have hle := le_addDiscounted unassessedDiscountBps 0 hA (foldl_saturatingAdd_mem _).2 hposC hfits'
  have hle' := le_addDiscounted unassessedDiscountBps 0 hA' (foldl_saturatingAdd_mem _).2 hposC' hfits
  unfold combine at hroom ⊢
  simp only [safe, clamp] at hroom ⊢
  have hassessed := mul_foldl_saturatingAdd_le (by omega) ha hposA le_rfl (by decide) (mul_zero c).le
    (by decide) (by omega)
  have hboth := mul_foldl_saturatingAdd_le (by omega) hterms
    (discountedTerms_nonneg unassessedDiscountBps 0 hposC hfits') hA (foldl_saturatingAdd_mem _).2
    hassessed (foldl_saturatingAdd_mem _).2
  rw [← addDiscounted_eq_foldl, ← addDiscounted_eq_foldl] at hboth
  have hself := le_mul_of_one_le_left (hA.trans hle) hc
  rw [max_eq_right (by omega), max_eq_right (by omega), min_eq_left (by omega), min_eq_left (by omega)]
  exact hboth (by omega)

end Sums

/-! ## Evidence that is many times stronger -/

/-- No product of a group leaves an `i64`. -/
theorem groupValues_fit {discountBps : ℕ} {evidence : List Evidence} (hd : discountBps ≤ 10000)
    (hpos : ∀ e ∈ evidence, 0 ≤ e.lo.value) (key : U64) :
    ∀ p ∈ products discountBps 0 (descending (groupValues evidence key)), p ≤ i64Max := by
  refine products_le hd 0 fun x hx => ?_
  obtain ⟨hx, hmax⟩ := mem_groupValues hpos key x hx
  have hmax' : i32Max * 10000 ≤ i64Max := by decide
  omega

/-- Evidence of the same group that weighs at least `c` times as much. -/
def Evidence.Times (c : ℤ) (e e' : Evidence) : Prop :=
  e.group = e'.group ∧ 0 ≤ e.lo.value ∧ c * e.lo.value ≤ e'.lo.value

section Times

variable {c : ℤ} {discountBps : ℕ} {evidence evidence' : List Evidence}

theorem Evidence.Times.atMost (hc : 1 ≤ c) {e e' : Evidence} (h : e.Times c e') : e.AtMost e' :=
  ⟨h.1, (le_mul_of_one_le_left h.2.1 hc).trans h.2.2⟩

theorem nonneg_of_times (h : List.Forall₂ (Evidence.Times c) evidence evidence') :
    ∀ e ∈ evidence, 0 ≤ e.lo.value := by
  induction h with
  | nil => simp
  | cons he _ ih => exact List.forall_mem_cons.mpr ⟨he.2.1, ih⟩

theorem mul_groupValues_le (h : List.Forall₂ (Evidence.Times c) evidence evidence') (key : U64) :
    List.Forall₂ (fun x y => c * x ≤ y) (groupValues evidence key) (groupValues evidence' key) := by
  refine List.forall₂_map_left_iff.mpr (List.forall₂_map_right_iff.mpr ?_)
  refine (List.rel_filter (R := Evidence.Times c) (fun e e' he => ?_) h).imp fun _ _ he => he.2.2
  simp [he.1]

variable (hc : 1 ≤ c) (h : List.Forall₂ (Evidence.Times c) evidence evidence')
  (hd : discountBps ≤ 10000) (hfew : evidence'.length ≤ 429496)
include hc h hd hfew

/-- Level 1: so few items never saturate the total of a group. -/
theorem mul_valueTotal_le (key : U64) :
    c * valueTotal discountBps evidence key ≤ valueTotal discountBps evidence' key := by
  have hpos := nonneg_of_times h
  have hpos' := nonneg_of_atMost (h.imp fun _ _ he => he.atMost hc) hpos
  have hsorted := Domination.forall₂_insertionSort_map
    (strictMono_mul_left_of_pos (by omega : 0 < c)) (mul_groupValues_le h key)
  have hl := fun x hx => (mem_groupValues hpos key x hx).1
  have hroom : valueTotal discountBps evidence' key < i64Max := by
    have hmax : 429496 * i32Max < i64Max := by decide
    have hlen : (evidence'.length : ℤ) * i32Max ≤ 429496 * i32Max :=
      mul_le_mul_of_nonneg_right (by exact_mod_cast hfew) (by decide)
    exact ((KnowledgeGraph.valueTotal_le_length hd hpos' key).trans hlen).trans_lt hmax
  unfold valueTotal at hroom ⊢
  rw [addDiscounted_eq_foldl] at hroom ⊢
  rw [addDiscounted_eq_foldl]
  exact mul_foldl_saturatingAdd_le (by omega)
    (mul_discountedTerms_le discountBps 0 hc hsorted hl (groupValues_fit hd hpos' key))
    (discountedTerms_nonneg discountBps 0 hl (groupValues_fit hd hpos key)) le_rfl (by decide)
    (mul_zero c).le (by decide) hroom

theorem mul_totalsOf_le (assessed : Bool) :
    List.Forall₂ (fun x y => c * x ≤ y) (totalsOf discountBps evidence (groupKeys evidence) assessed)
      (totalsOf discountBps evidence' (groupKeys evidence') assessed) := by
  have hatMost := h.imp fun _ _ he => he.atMost hc
  unfold totalsOf
  simp only [groupKeys_of_atMost hatMost, allAssessed_of_atMost hatMost]
  refine List.forall₂_map_left_iff.mpr (List.forall₂_map_right_iff.mpr (List.forall₂_same.mpr ?_))
  exact fun key _ => mul_valueTotal_le hc h hd hfew key

/-- The aggregate of evidence that is `c` times as strong is `c` times as strong, unless it reaches the
end of the safe range. -/
theorem mul_aggregateHierarchical_le {unassessedDiscountBps : ℕ}
    (hfits : ∀ p ∈ products unassessedDiscountBps 0 (countedTotals discountBps evidence'), p ≤ i64Max)
    (hroom : (aggregateHierarchical evidence' discountBps unassessedDiscountBps).value < safeMax) :
    c * (aggregateHierarchical evidence discountBps unassessedDiscountBps).value ≤
      (aggregateHierarchical evidence' discountBps unassessedDiscountBps).value := by
  have hpos := nonneg_of_times h
  have hpos' := nonneg_of_atMost (h.imp fun _ _ he => he.atMost hc) hpos
  rw [countedTotals_eq hd hpos'] at hfits
  rw [aggregateHierarchical_eq_combine hd hpos'] at hroom ⊢
  rw [aggregateHierarchical_eq_combine hd hpos]
  exact mul_combine_le hc (mul_totalsOf_le hc h hd hfew true) (mul_totalsOf_le hc h hd hfew false)
    (totalsOf_nonneg hd hpos _ _) (totalsOf_nonneg hd hpos _ _) hfits hroom

end Times

namespace KnowledgeGraph

variable {g : KnowledgeGraph} {blake3 : Blake3} {removed : List ℕ} {claims : List Claim}
  {claimGroups : List CorrelationGroup} {reputations : Reputations} {discountBps : ℕ}
  {start start' trust trust' : ClaimArenaId → LogOdds} {c : ℤ} {v : ClaimArenaId}

/-! ## Trust that is many times higher -/

theorem shareBps_le {e : EpistemicEdge × ℕ} (he : e ∈ g.carriersInto removed v) :
    g.shareBps removed e.1 ≤ 10000 := by
  have hmem : e ∈ g.carriersFrom removed e.1.fromId :=
    List.mem_filter.mpr ⟨List.mem_of_mem_filter he, by simp⟩
  have hnonneg : ∀ x ∈ (g.carriersFrom removed e.1.fromId).map fun e => g.shareBps removed e.1,
      0 ≤ x := by
    intro x hx
    obtain ⟨e', -, rfl⟩ := List.mem_map.mp hx
    exact shareBps_nonneg e'.1
  exact (List.single_le_sum hnonneg _ (List.mem_map_of_mem hmem)).trans
    (sum_shareBps_le g removed e.1.fromId)

theorem authorRep_le (hrep : ∀ o, (reputations o).bps ≤ 10000) (claims : List Claim)
    (v : ClaimArenaId) : authorRep claims reputations v ≤ 10000 := by
  unfold authorRep
  cases claims[v]? with
  | none =>
    show (0 : ℤ) ≤ 10000
    decide
  | some c =>
    show ((reputations c.origin).bps : ℤ) ≤ 10000
    exact_mod_cast hrep c.origin

/-- With reputations of at most 100% no contribution leaves an `i32`. -/
theorem contribution_value (hrep : ∀ o, (reputations o).bps ≤ 10000) {e : EpistemicEdge × ℕ}
    (he : e ∈ g.carriersInto removed v) :
    (g.contribution removed claims reputations trust e.1).value =
      (trust e.1.fromId).positivePart.value * g.shareBps removed e.1 / 10000 *
        authorRep claims reputations e.1.fromId / 10000 := by
  have hfrom : 0 ≤ (trust e.1.fromId).positivePart.value := le_max_right _ _
  have hmax := (trust e.1.fromId).positivePart.isI32.2
  have hprod : 0 ≤ (trust e.1.fromId).positivePart.value * g.shareBps removed e.1 :=
    mul_nonneg hfrom (shareBps_nonneg e.1)
  have hshared := mul_le_mul_of_nonneg_left (shareBps_le he) hfrom
  have hauthor := authorRep_le hrep claims e.1.fromId
  have hauthor0 := authorRep_nonneg claims reputations e.1.fromId
  show clamp i32Min i32Max ((((trust e.1.fromId).positivePart.value * g.shareBps removed e.1).tdiv
    10000 * authorRep claims reputations e.1.fromId).tdiv 10000) = _
  generalize (trust e.1.fromId).positivePart.value * g.shareBps removed e.1 = x at hprod hshared ⊢
  generalize authorRep claims reputations e.1.fromId = rep at hauthor hauthor0 ⊢
  have hx : 0 ≤ x / 10000 := Int.ediv_nonneg hprod (by decide)
  have hweighted : 0 ≤ x / 10000 * rep ∧ x / 10000 * rep ≤ x / 10000 * 10000 :=
    ⟨mul_nonneg hx hauthor0, mul_le_mul_of_nonneg_left hauthor hx⟩
  rw [Int.tdiv_eq_ediv_of_nonneg hprod, Int.tdiv_eq_ediv_of_nonneg hweighted.1]
  have hmin : i32Min ≤ 0 := by decide
  exact clamp_of_mem (by omega) (by omega)

/-- An edge contributes at least `c` times as much if its source has `c` times the trust. -/
theorem mul_contribution_le (hc : 0 ≤ c) (hrep : ∀ o, (reputations o).bps ≤ 10000)
    {e : EpistemicEdge × ℕ} (he : e ∈ g.carriersInto removed v)
    (hpos : 0 ≤ (trust e.1.fromId).value)
    (h : c * (trust e.1.fromId).value ≤ (trust' e.1.fromId).value) :
    c * (g.contribution removed claims reputations trust e.1).value ≤
      (g.contribution removed claims reputations trust' e.1).value := by
  have hpart : ∀ lo : LogOdds, 0 ≤ lo.value → lo.positivePart.value = lo.value :=
    fun _ hlo => max_eq_left hlo
  rw [contribution_value hrep he, contribution_value hrep he, hpart _ hpos,
    hpart _ ((mul_nonneg hc hpos).trans h)]
  apply mul_ediv_le hc
  rw [← mul_assoc]
  refine mul_le_mul_of_nonneg_right (mul_ediv_le hc ?_) (authorRep_nonneg _ _ _)
  rw [← mul_assoc]
  exact mul_le_mul_of_nonneg_right h (shareBps_nonneg _)

theorem times_supportInto (hc : 0 ≤ c) (hrep : ∀ o, (reputations o).bps ≤ 10000)
    (hpos : ∀ u, 0 ≤ (trust u).value) (h : ∀ u, c * (trust u).value ≤ (trust' u).value) :
    List.Forall₂ (Evidence.Times c) (g.supportInto removed claims claimGroups reputations trust v)
      (g.supportInto removed claims claimGroups reputations trust' v) := by
  refine List.forall₂_map_left_iff.mpr (List.forall₂_map_right_iff.mpr (List.forall₂_same.mpr ?_))
  intro e he
  exact ⟨rfl, contribution_nonneg trust e.1, mul_contribution_le hc hrep he (hpos _) (h _)⟩

/-! ## Iterations -/

theorem length_supportInto_le (trust : ClaimArenaId → LogOdds) (v : ClaimArenaId) :
    (g.supportInto removed claims claimGroups reputations trust v).length ≤ g.edges.length := by
  rw [supportInto, List.length_map]
  refine ((List.length_filter_le _ _).trans (List.length_filter_le _ _)).trans ?_
  rw [List.length_zipIdx]

section Few

variable (hd : discountBps ≤ 10000) (hedges : g.edges.length ≤ 429496)
include hd hedges

theorem flow_nonneg (hstart : ∀ u, 0 ≤ (start u).value) :
    0 ≤ (g.flow g.cyclicEdgeIndices claims (correlationGroups blake3 claims defaultSupportThreshold)
      reputations discountBps start trust v).value := by
  have hmin : safeMin ≤ 0 := by decide
  have hmax : 0 ≤ safeMax := by decide
  have hsupport := aggregateHierarchical_nonneg_of_fits hd (supportInto_nonneg trust v)
    (supportFits_of_few_edges hd hedges blake3 claims reputations trust v)
  unfold flow
  split
  · exact hstart v
  · exact le_max_of_le_right (le_min (add_nonneg (hstart v) hsupport) hmax)

/-- One iteration, at a node that does not reach the end of the safe range. -/
theorem mul_flow_le (hc : 1 ≤ c) (hrep : ∀ o, (reputations o).bps ≤ 10000)
    (hstart : ∀ u, 0 ≤ (start u).value) (hstart' : ∀ u, c * (start u).value ≤ (start' u).value)
    (hpos : ∀ u, 0 ≤ (trust u).value) (h : ∀ u, c * (trust u).value ≤ (trust' u).value)
    (hroom : (g.flow g.cyclicEdgeIndices claims (correlationGroups blake3 claims
      defaultSupportThreshold) reputations discountBps start' trust' v).value < safeMax) :
    c * (g.flow g.cyclicEdgeIndices claims (correlationGroups blake3 claims defaultSupportThreshold)
        reputations discountBps start trust v).value ≤
      (g.flow g.cyclicEdgeIndices claims (correlationGroups blake3 claims defaultSupportThreshold)
        reputations discountBps start' trust' v).value := by
  unfold flow at hroom ⊢
  split at hroom
  · rename_i hempty
    rw [if_pos hempty, if_pos hempty]
    exact hstart' v
  · rename_i hempty
    rw [if_neg hempty, if_neg hempty]
    have hfits := supportFits_of_few_edges hd hedges blake3 claims reputations trust v
    have hfits' := supportFits_of_few_edges hd hedges blake3 claims reputations trust' v
    have hsupport := aggregateHierarchical_nonneg_of_fits hd (supportInto_nonneg trust v) hfits
    have hsupport' := aggregateHierarchical_nonneg_of_fits hd (supportInto_nonneg trust' v) hfits'
    have hbase := hstart v
    have hbase' := (mul_nonneg (by omega) hbase).trans (hstart' v)
    have hmin : safeMin ≤ 0 := by decide
    simp only [LogOdds.update, LogOdds.safe, clamp] at hroom ⊢
    have hmul := mul_aggregateHierarchical_le hc
      (times_supportInto (v := v) (by omega) hrep hpos h) hd
      ((length_supportInto_le trust' v).trans hedges) hfits' (by omega)
    have hsum := add_le_add (hstart' v) hmul
    rw [← mul_add] at hsum
    have hself := le_mul_of_one_le_left (add_nonneg hbase hsupport) hc
    rw [max_eq_right (by omega), max_eq_right (by omega), min_eq_left (by omega),
      min_eq_left (by omega)]
    exact hsum

/-- All iterations. -/
theorem mul_iterate_flow_le (hc : 1 ≤ c) (hrep : ∀ o, (reputations o).bps ≤ 10000)
    (hstart : ∀ u, 0 ≤ (start u).value) (hstart' : ∀ u, c * (start u).value ≤ (start' u).value) {n : ℕ}
    (hroom : ∀ k ≤ n, ∀ v, ((g.flow g.cyclicEdgeIndices claims (correlationGroups blake3 claims
      defaultSupportThreshold) reputations discountBps start')^[k] start' v).value < safeMax) :
    ∀ v, 0 ≤ ((g.flow g.cyclicEdgeIndices claims (correlationGroups blake3 claims
          defaultSupportThreshold) reputations discountBps start)^[n] start v).value ∧
      c * ((g.flow g.cyclicEdgeIndices claims (correlationGroups blake3 claims
          defaultSupportThreshold) reputations discountBps start)^[n] start v).value ≤
        ((g.flow g.cyclicEdgeIndices claims (correlationGroups blake3 claims
          defaultSupportThreshold) reputations discountBps start')^[n] start' v).value := by
  induction n with
  | zero => exact fun v => ⟨hstart v, hstart' v⟩
  | succ n ih =>
    intro v
    have hlast := hroom (n + 1) le_rfl v
    rw [Function.iterate_succ_apply'] at hlast
    rw [Function.iterate_succ_apply', Function.iterate_succ_apply']
    have hn := ih fun k hk => hroom k (Nat.le_succ_of_le hk)
    exact ⟨flow_nonneg hd hedges hstart, mul_flow_le hd hedges hc hrep hstart hstart'
      (fun u => (hn u).1) (fun u => (hn u).2) hlast⟩

end Few

/-! ## Decay through the graph -/

theorem trustInFirst_at (lo : LogOdds) (v : ClaimArenaId) :
    (trustInFirst lo).at v = if v = 0 then lo else .neutral := by
  unfold trustInFirst TrustMap.at
  by_cases hv : v = 0
  · rw [hv, AList.lookup_insert, if_pos rfl]
    rfl
  · rw [AList.lookup_insert_ne hv, if_neg hv]
    rfl

theorem at_lt_of_entries {t : TrustMap} {bound : ℤ} (hbound : 0 < bound)
    (h : ∀ e ∈ t.entries, e.2.value < bound) (v : ClaimArenaId) : (t.at v).value < bound := by
  unfold TrustMap.at
  cases hv : t.lookup v with
  | none => exact hbound
  | some lo => exact h ⟨v, lo⟩ (AList.mem_lookup_iff.mp hv)

end KnowledgeGraph

end Aimp.Epistemic
