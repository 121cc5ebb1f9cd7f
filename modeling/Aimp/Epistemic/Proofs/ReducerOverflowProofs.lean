import Aimp.Epistemic.CheckedReducer
import Aimp.Epistemic.Proofs.OverflowProofs
import Aimp.Epistemic.Proofs.ReducerProofs

/-!
# Where the reducers overflow

The variance always fits into an `i128`. What is left are the windows of the summaries that `reduce`
compares, one of which may end before it starts, and the aggregation of the evidence that
`reduce_with_reputation_correlated` weights (`reducers_total_iff`).
-/

namespace Aimp.Epistemic

variable {claims : List Claim} {blake3 : Blake3} {reputations : Reputations} {discountBps : ℕ}
  {result : Option Claim}

/-! ## The variance -/

theorem checkedI128_of_mem {x : ℤ} (h : -2 ^ 127 ≤ x) (h' : x < 2 ^ 127) :
    checkedI128 x = some x := if_pos ⟨h, h'⟩

theorem checkedSum_of_le {l : List ℤ} (hl : ∀ x ∈ l, 0 ≤ x ∧ x ≤ 2 ^ 64) (hlen : l.length < 2 ^ 63) :
    checkedSum l = some l.sum := by
  have hbound : ∀ l : List ℤ, (∀ x ∈ l, 0 ≤ x ∧ x ≤ 2 ^ 64) →
      0 ≤ l.sum ∧ l.sum ≤ 2 ^ 64 * (l.length : ℤ) := by
    intro l hl
    induction l with
    | nil => exact ⟨le_rfl, le_rfl⟩
    | cons x l ih =>
      obtain ⟨⟨hx, hx'⟩, hl⟩ := List.forall_mem_cons.mp hl
      obtain ⟨hsum, hsum'⟩ := ih hl
      rw [List.sum_cons, List.length_cons]
      push_cast
      exact ⟨by omega, by omega⟩
  unfold checkedSum
  induction l using List.reverseRecOn with
  | nil => rfl
  | append_singleton l x ih =>
    have hl' : ∀ y ∈ l, 0 ≤ y ∧ y ≤ 2 ^ 64 := fun y hy => hl y (List.mem_append_left _ hy)
    rw [List.length_append, List.length_singleton] at hlen
    obtain ⟨hsum, hsum'⟩ := hbound (l ++ [x]) hl
    rw [List.length_append, List.length_singleton] at hsum'
    rw [List.sum_append, List.sum_singleton] at hsum hsum' ⊢
    rw [List.foldlM_append, ih hl' (by omega)]
    push_cast at hsum'
    have hfits : l.sum + x < 2 ^ 127 := by omega
    rw [Option.bind_eq_bind, Option.bind_some, List.foldlM_cons,
      checkedI128_of_mem (by omega) hfits]
    rfl

theorem checkedSquare_of_le {mean x : ℤ} (h : |x - mean| ≤ 2 ^ 32) :
    checkedSquare mean x = some ((x - mean) * (x - mean)) := by
  have hle := abs_le.mp h
  have hsquare : (x - mean) * (x - mean) ≤ 2 ^ 64 := by
    rw [← abs_mul_abs_self (x - mean)]
    calc |x - mean| * |x - mean| ≤ 2 ^ 32 * 2 ^ 32 :=
          mul_le_mul h h (abs_nonneg _) (by norm_num)
      _ = 2 ^ 64 := by norm_num
  have hnonneg := mul_self_nonneg (x - mean)
  rw [checkedSquare, checkedI128_of_mem (by omega) (by omega), Option.bind_eq_bind, Option.bind_some,
    checkedI128_of_mem (by omega) (by omega)]

theorem abs_tdiv_le_abs (x n : ℤ) : |x.tdiv n| ≤ |x| := by
  rw [Int.abs_eq_natAbs, Int.abs_eq_natAbs]
  exact Int.ofNat_le.mpr (Int.natAbs_tdiv_le_natAbs x n)

/-- The variance of log-odds never overflows. -/
theorem checkedVarianceMilli_eq (aggregated : LogOdds) {evidence : List LogOdds}
    (hlen : evidence.length < 2 ^ 63) :
    checkedVarianceMilli aggregated (evidence.map LogOdds.value) =
      some (varianceMilli aggregated (evidence.map LogOdds.value)) := by
  unfold checkedVarianceMilli varianceMilli
  dsimp only
  generalize hmean : (if (0 : ℤ) < (evidence.map LogOdds.value).length then
    aggregated.value.tdiv (evidence.map LogOdds.value).length else 0) = mean
  have hmean' : |mean| ≤ 2 ^ 31 := by
    rw [← hmean]
    split
    · exact (abs_tdiv_le_abs _ _).trans aggregated.abs_value_le
    · norm_num
  have hdiff : ∀ x ∈ evidence.map LogOdds.value, |x - mean| ≤ 2 ^ 32 := by
    intro x hx
    obtain ⟨lo, _, rfl⟩ := List.mem_map.mp hx
    have hlo := lo.abs_value_le
    have htriangle := abs_sub lo.value mean
    omega
  have hsquares : (evidence.map LogOdds.value).mapM (checkedSquare mean) =
      some ((evidence.map LogOdds.value).map fun x => (x - mean) * (x - mean)) := by
    generalize evidence.map LogOdds.value = values at hdiff
    induction values with
    | nil => rfl
    | cons x values ih =>
      obtain ⟨hx, hvalues⟩ := List.forall_mem_cons.mp hdiff
      rw [List.mapM_cons, checkedSquare_of_le hx, ih hvalues]
      rfl
  have hsum : checkedSum ((evidence.map LogOdds.value).map fun x => (x - mean) * (x - mean)) =
      some ((evidence.map LogOdds.value).map fun x => (x - mean) * (x - mean)).sum := by
    refine checkedSum_of_le (fun y hy => ?_) (by rwa [List.length_map, List.length_map])
    obtain ⟨x, hx, rfl⟩ := List.mem_map.mp hy
    refine ⟨mul_self_nonneg _, ?_⟩
    rw [← abs_mul_abs_self (x - mean)]
    calc |x - mean| * |x - mean| ≤ 2 ^ 32 * 2 ^ 32 :=
          mul_le_mul (hdiff x hx) (hdiff x hx) (abs_nonneg _) (by norm_num)
      _ = 2 ^ 64 := by norm_num
  split
  · rw [hsquares, Option.bind_eq_bind, Option.bind_some, hsum, Option.bind_eq_bind, Option.bind_some]
    rfl
  · rfl

/-! ## The windows -/

/-- What a computation returns that cannot fail. -/
theorem some_eq_some_iff_of {α : Type} {p : Prop} {x y : α} (h : p) :
    some x = some y ↔ p ∧ y = x := by
  rw [Option.some_inj, eq_comm, and_iff_right h]

/-- The window ends no earlier than it starts. -/
def ClaimKind.Forward (kind : ClaimKind) : Prop := ∀ span ∈ kind.span?, span.1 ≤ span.2.1

theorem window?_eq (kind : ClaimKind) :
    kind.window? = kind.span?.map fun span => (span.2.1 - span.1, span.2.2) := by
  cases kind <;> rfl

theorem mapM_checkedWindow {sorted : List Claim} {windows : List Window} :
    (sorted.filterMap fun c => c.kind.span?).mapM checkedWindow = some windows ↔
      (∀ c ∈ sorted, c.kind.Forward) ∧ windows = sorted.filterMap fun c => c.kind.window? := by
  have hwindow : ∀ (span : U64 × U64 × LogOdds × List Byte) (w : Window),
      checkedWindow span = some w ↔ span.1 ≤ span.2.1 ∧ w = (span.2.1 - span.1, span.2.2) := by
    intro span w
    unfold checkedWindow
    split
    · rename_i h
      exact some_eq_some_iff_of h
    · rename_i h
      exact iff_of_false (fun h => by cases h) fun hand => h hand.1
  rw [mapM_eq_some_iff hwindow, List.map_filterMap]
  simp only [← window?_eq]
  refine and_congr_left fun _ => ?_
  constructor
  · exact fun h c hc span hspan => h span (List.mem_filterMap.mpr ⟨c, hc, hspan⟩)
  · intro h span hspan
    obtain ⟨c, hc, hspan⟩ := List.mem_filterMap.mp hspan
    exact h c hc span hspan

theorem checkedReducedData_eq_some_iff {sorted : List Claim} {kind : ClaimKind}
    {data : Option (List Byte)} :
    checkedReducedData sorted kind = some data ↔
      (kind.isSummary = true → ∀ c ∈ sorted, c.kind.Forward) ∧ data = reducedData sorted kind := by
  cases kind with
  | observation => exact some_eq_some_iff_of fun h => by cases h
  | inference => exact some_eq_some_iff_of fun h => by cases h
  | intent => exact some_eq_some_iff_of fun h => by cases h
  | summary =>
    rw [checkedReducedData]
    simp only [Option.bind_eq_bind, Option.bind_eq_some_iff, mapM_checkedWindow, Option.pure_def,
      Option.some_inj]
    constructor
    · rintro ⟨_, ⟨hforward, rfl⟩, rfl⟩
      exact ⟨fun _ => hforward, rfl⟩
    · rintro ⟨hforward, rfl⟩
      exact ⟨_, ⟨hforward rfl, rfl⟩, rfl⟩

/-! ## The reducers -/

theorem summaryWith_variance (first : Claim) (sourceCount uniqueSources : ℕ) (ticks : List U64)
    (data : List Byte) (aggregated : LogOdds) (evidence : List LogOdds) :
    summaryWith blake3 first sourceCount uniqueSources ticks data aggregated
        (varianceMilli aggregated (evidence.map LogOdds.value)) evidence =
      summaryOf blake3 first sourceCount uniqueSources ticks data aggregated evidence := rfl

theorem length_sortedById_le (claims : List Claim) : (sortedById claims).length ≤ claims.length := by
  have hfrom : ∀ (l : List Claim) (c : Claim), (dedupById.dedupFrom c l).length ≤ l.length := by
    intro l
    induction l with
    | nil => exact fun _ => le_rfl
    | cons d l ih =>
      intro c
      rw [dedupById.dedupFrom]
      split
      · exact (ih c).trans (Nat.le_succ _)
      · exact Nat.succ_le_succ (ih d)
  have hdedup : ∀ l : List Claim, (dedupById l).length ≤ l.length := by
    intro l
    cases l with
    | nil => exact le_rfl
    | cons c l => exact Nat.succ_le_succ (hfrom l c)
  exact (hdedup _).trans (List.length_insertionSort _ _).le

/-- Each item adds at most one. -/
theorem length_foldl_snd_le {α β γ : Type} {f : List α × List β → γ → List α × List β}
    (hf : ∀ s x, (f s x).2.length ≤ s.2.length + 1) (l : List γ) (s : List α × List β) :
    (l.foldl f s).2.length ≤ s.2.length + l.length := by
  induction l generalizing s with
  | nil => exact le_rfl
  | cons x l ih =>
    have hstep := hf s x
    have hrest := ih (f s x)
    rw [List.foldl_cons, List.length_cons]
    omega

theorem length_countedSources_le (claims : List Claim) :
    (countedSources claims).2.length ≤ claims.length := by
  refine (length_foldl_snd_le (fun s c => ?_) _ _).trans ?_
  · unfold countSource
    split
    · exact Nat.le_succ _
    · exact List.length_append.le
  · rw [List.length_nil, Nat.zero_add]
    exact length_sortedById_le claims

theorem length_gatheredSources_le (blake3 : Blake3) (reputations : Reputations) (claims : List Claim) :
    (gatheredSources blake3 reputations claims).2.length ≤ claims.length := by
  refine (length_foldl_snd_le (fun s c => ?_) _ _).trans ?_
  · unfold gather
    split
    · exact Nat.le_succ _
    · split
      · exact Nat.le_succ _
      · exact List.length_append.le
  · rw [List.length_nil, Nat.zero_add, List.length_zip]
    exact (min_le_left _ _).trans (length_sortedById_le claims)

/-- If the claims can be reduced and the one with the smallest id is a summary, then no summary among
them ends before it starts. -/
def WindowsFit (claims : List Claim) : Prop :=
  canReduce claims = true → ∀ first ∈ (sortedById claims).head?, first.kind.isSummary = true →
    ∀ c ∈ sortedById claims, c.kind.Forward

/-- If the claims can be reduced and the one with the smallest id has data, then the aggregation of the
evidence that counts fits. -/
def EvidenceFits (blake3 : Blake3) (reputations : Reputations) (discountBps : ℕ)
    (claims : List Claim) : Prop :=
  canReduce claims = true → ∀ first ∈ (sortedById claims).head?, first.kind.data?.isSome = true →
    GroupsFit discountBps unassessedDiscountBps (gatheredSources blake3 reputations claims).2

theorem checkedReduce_eq_some_iff (hlen : claims.length < 2 ^ 63) :
    checkedReduce blake3 claims = some result ↔
      WindowsFit claims ∧ result = reduce blake3 claims := by
  have hvariance := fun aggregated => checkedVarianceMilli_eq aggregated
    ((length_countedSources_le claims).trans_lt hlen)
  unfold checkedReduce reduce WindowsFit
  unfold countedSources at hvariance
  by_cases hcan : canReduce claims = true
  · rw [if_pos hcan, if_pos hcan]
    dsimp only
    cases (sortedById claims).head? with
    | none => exact some_eq_some_iff_of fun _ first h => absurd h (Option.not_mem_none first)
    | some first =>
      simp only [Option.elim_some, Option.bind_some, hvariance, Option.map_some, summaryWith_variance,
        Option.bind_eq_some_iff, checkedReducedData_eq_some_iff, Option.mem_some_iff, forall_eq', hcan,
        forall_const]
      constructor
      · rintro ⟨_, ⟨hforward, rfl⟩, hresult⟩
        refine ⟨hforward, ?_⟩
        cases hdata : reducedData (sortedById claims) first.kind with
        | none => simpa [hdata, eq_comm] using hresult
        | some data => simpa [hdata, eq_comm] using hresult
      · rintro ⟨hforward, rfl⟩
        refine ⟨_, ⟨hforward, rfl⟩, ?_⟩
        cases reducedData (sortedById claims) first.kind with
        | none => rfl
        | some data => rfl
  · rw [if_neg hcan, if_neg hcan]
    exact some_eq_some_iff_of fun h => absurd h hcan

theorem checkedReduceWithReputationCorrelated_eq_some_iff (hlen : claims.length < 2 ^ 63) :
    checkedReduceWithReputationCorrelated blake3 claims reputations discountBps = some result ↔
      EvidenceFits blake3 reputations discountBps claims ∧
        result = reduceWithReputationCorrelated blake3 claims reputations discountBps := by
  have hevidence : ((gatheredSources blake3 reputations claims).2.map Evidence.lo).length < 2 ^ 63 := by
    rw [List.length_map]
    exact (length_gatheredSources_le blake3 reputations claims).trans_lt hlen
  have hvariance := fun aggregated => checkedVarianceMilli_eq aggregated hevidence
  unfold checkedReduceWithReputationCorrelated reduceWithReputationCorrelated EvidenceFits
  unfold gatheredSources at hvariance ⊢
  by_cases hcan : canReduce claims = true
  · rw [if_pos hcan, if_pos hcan]
    dsimp only
    cases (sortedById claims).head? with
    | none => exact some_eq_some_iff_of fun _ first h => absurd h (Option.not_mem_none first)
    | some first =>
      cases hdata : first.kind.data? with
      | none =>
        rw [Option.elim_some, Option.bind_some, hdata, Option.elim_none, Option.bind_none]
        refine some_eq_some_iff_of fun _ first' h hsome => ?_
        obtain rfl := Option.some_inj.mp h
        rw [hdata] at hsome
        cases hsome
      | some data =>
        generalize ((sortedById claims).zip (correlationGroups blake3 (sortedById claims)
          defaultSupportThreshold)).foldl (gather reputations) ([], []) = gathered at hvariance ⊢
        simp only [Option.elim_some, Option.bind_some, Option.mem_some_iff, forall_eq', hdata,
          Option.isSome_some, hcan, forall_const]
        cases hempty : gathered.2.isEmpty with
        | true =>
          have hfits : GroupsFit discountBps unassessedDiscountBps gathered.2 := by
            rw [List.isEmpty_iff.mp hempty]
            exact ⟨fun key hkey => absurd hkey List.not_mem_nil, Or.inl Nat.zero_lt_two, trivial⟩
          rw [if_pos rfl, if_pos rfl]
          exact some_eq_some_iff_of hfits
        | false =>
          simp only [Bool.false_eq_true, if_false, hvariance, Option.map_some,
            Option.bind_eq_some_iff, checkedAggregateHierarchical_eq_some_iff, Option.some_inj]
          constructor
          · rintro ⟨_, ⟨hfits, rfl⟩, rfl⟩
            exact ⟨hfits, rfl⟩
          · rintro ⟨hfits, rfl⟩
            exact ⟨_, ⟨hfits, rfl⟩, rfl⟩
  · rw [if_neg hcan, if_neg hcan]
    exact some_eq_some_iff_of fun h => absurd h hcan

/-! ## Discounts -/

theorem exactFactor_le (hd : discountBps ≤ 10000) (n : ℕ) : exactFactor discountBps n ≤ 10000 := by
  induction n with
  | zero => exact le_rfl
  | succ n ih =>
    rw [exactFactor_succ]
    exact Nat.div_le_of_le_mul (Nat.mul_le_mul ih hd)

/-- A discount makes factors and products smaller. -/
theorem rankedFits_of_discount (hd : discountBps ≤ 10000) (rank : ℕ) {l : List ℤ}
    (hl : ∀ x ∈ l, |x| * 10000 ≤ i64Max) : RankedFits discountBps rank l := by
  induction l generalizing rank with
  | nil => trivial
  | cons x l ih =>
    obtain ⟨hx, hl⟩ := List.forall_mem_cons.mp hl
    refine ⟨fun k _ => ?_, ?_, ih (rank + 1) hl⟩
    · have hprod := Nat.mul_le_mul (exactFactor_le hd k) hd
      exact hprod.trans_lt (by norm_num)
    · have hmin : i64Min = -i64Max - 1 := by decide
      have hfactor : (exactFactor discountBps (min rank maxDiscountDepth) : ℤ) ≤ 10000 := by
        exact_mod_cast exactFactor_le hd _
      have habs : |x * (exactFactor discountBps (min rank maxDiscountDepth) : ℤ)| ≤ |x| * 10000 := by
        rw [abs_mul, abs_of_nonneg (Int.natCast_nonneg _)]
        exact mul_le_mul_of_nonneg_left hfactor (abs_nonneg x)
      have hle := abs_le.mp (habs.trans hx)
      omega

/-- The weighted confidence of a claim, for any reputation that fits into a `u16`. -/
theorem abs_weightEvidence_le (rep : Reputation) (c : Claim) :
    |(rep.weightEvidence c.declaredConfidence).value| ≤ 90543 := by
  have hdeclared : |c.declaredConfidence.value| ≤ 13816 :=
    abs_le.mpr (clamp_mem (by decide) c.confidence.value)
  have hrep : (rep.bps : ℤ) ≤ 65535 := by
    have hu16 := rep.isU16
    omega
  have hprod : |c.declaredConfidence.value * rep.bps| ≤ 13816 * 65535 := by
    rw [abs_mul, abs_of_nonneg (Int.natCast_nonneg rep.bps)]
    exact mul_le_mul hdeclared hrep (Int.natCast_nonneg _) (by norm_num)
  have hscaled : |(c.declaredConfidence.value * rep.bps).tdiv 10000| ≤ 90543 :=
    abs_tdiv_le (hprod.trans_lt (by norm_num))
  have hmin : i32Min = -2 ^ 31 := rfl
  have hmax : i32Max = 2 ^ 31 - 1 := rfl
  obtain ⟨hlow, hhigh⟩ := abs_le.mp hscaled
  show |clamp i32Min i32Max ((c.declaredConfidence.value * rep.bps).tdiv 10000)| ≤ 90543
  rw [clamp_of_mem (by omega) (by omega)]
  exact hscaled

theorem abs_le_of_mem_gatheredSources {e : Evidence}
    (he : e ∈ (gatheredSources blake3 reputations claims).2) : |e.lo.value| ≤ 90543 := by
  obtain ⟨group, hgroup, _⟩ := exists_group blake3 (sortedById claims) defaultSupportThreshold
  have hgathered : gatheredSources blake3 reputations claims =
      ((counted reputations claims).1, (counted reputations claims).2.map (weighted reputations group)) :=
    gathered hgroup
  rw [hgathered] at he
  obtain ⟨c, _, rfl⟩ := List.mem_map.mp he
  exact abs_weightEvidence_le _ c

/-- With a discount, up to `10 ^ 10` items of evidence fit. -/
theorem groupsFit_of_discount {evidence : List Evidence} (hd : discountBps ≤ 10000)
    {unassessedDiscountBps : ℕ} (hd' : unassessedDiscountBps ≤ 10000)
    (hlo : ∀ e ∈ evidence, |e.lo.value| ≤ 90543) (hlen : evidence.length ≤ 10 ^ 10) :
    GroupsFit discountBps unassessedDiscountBps evidence := by
  have hmax : i64Max = 2 ^ 63 - 1 := rfl
  have hmin : i64Min = -2 ^ 63 := rfl
  have hranked : ∀ key ∈ groupKeys evidence, RankedFits discountBps 0 (memberRanked evidence key) :=
    fun key _ => rankedFits_of_discount hd 0 memberRanked_fits
  have htotal : ∀ p ∈ exactUnassessed discountBps evidence, |p.1| ≤ 90543 * 10 ^ 10 := by
    intro p hp
    rw [← unassessedGroupTotals_eq_exact hranked] at hp
    obtain ⟨g, hg, rfl⟩ := List.mem_map.mp hp
    obtain ⟨key, _, rfl⟩ := List.mem_map.mp (List.mem_of_mem_filter hg)
    have hmem : ∀ x ∈ memberRanked evidence key, |x| ≤ 90543 := by
      intro x hx
      obtain ⟨e, he, rfl⟩ := List.mem_map.mp ((memberRanked_perm evidence key).subset hx)
      exact hlo e (List.mem_of_mem_filter he)
    have hlength : (memberRanked evidence key).length ≤ evidence.length := by
      rw [(memberRanked_perm evidence key).length_eq, groupValues, List.length_map]
      exact List.length_filter_le _ _
    have hsum := absSum_le hmem
    have hbound : absSum (memberRanked evidence key) ≤ 90543 * 10 ^ 10 := by omega
    exact (abs_groupTotal_le_absSum hd evidence key).trans hbound
  refine ⟨fun key hkey => ⟨Or.inr fun p hp => ?_, hranked key hkey⟩, Or.inr fun p hp => ?_, ?_⟩
  · obtain ⟨e, he, rfl⟩ := List.mem_map.mp hp
    have hle := abs_le.mp (hlo e (List.mem_of_mem_filter he))
    have hi32 : i32Min = -2 ^ 31 := rfl
    dsimp only
    omega
  · have hle := abs_le.mp (htotal p hp)
    omega
  · refine rankedFits_of_discount hd' 0 fun x hx => ?_
    obtain ⟨p, hp, rfl⟩ := List.mem_map.mp hx
    have hle := htotal p ((List.mem_insertionSort _).mp (List.mem_of_mem_take hp))
    omega

/-- A summary whose window ends before it starts. -/
def backwardSummary (b : Byte) : Claim :=
  { plainClaim (uniformId b) ⟨1000, isI32_1000⟩ with
    kind := .summary 2 1 0 [] ⟨1000, isI32_1000⟩ 2 0 ⟨500, by decide⟩ ⟨500, by decide⟩ }

/-- Claims of one author and of distinct sources. -/
def oneAuthor (n : ℕ) : List Claim :=
  (List.range n).map fun k => plainClaim (numberedId k) ⟨1000, isI32_1000⟩

end Aimp.Epistemic
