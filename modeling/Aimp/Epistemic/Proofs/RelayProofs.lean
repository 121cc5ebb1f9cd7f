import Aimp.Epistemic.Proofs.CeilingProofs
import Aimp.Epistemic.Proofs.MonotoneProofs
import Aimp.Epistemic.Proofs.ReducerLawProofs
import Aimp.Epistemic.Proofs.ReducerOverflowProofs

/-!
# Relayed evidence

Of the claims of one evidence source the reducer counts the one with the smallest id, before it looks at
the reputation of the author. A claim that repeats evidence leaves the aggregate alone or raises it,
unless it has a smaller id than the claim that counts and weighs less (`aggregate_of_relay`).
-/

namespace Aimp.Epistemic

variable {before after : List Claim} {extra c d : Claim} {reputations : Reputations} {blake3 : Blake3}

/-! ## The claims that are kept -/

/-- A claim with the id of an earlier one is dropped. -/
theorem sortedById_insert_seen (h : ∃ d ∈ before, d.id = extra.id) :
    sortedById (before ++ extra :: after) = sortedById (before ++ after) := by
  refine sortedById_congr fun x => ?_
  rw [List.find?_append, List.find?_append]
  cases hfind : before.find? fun a => a.id = x with
  | some d => rfl
  | none =>
    obtain ⟨d, hd, hid⟩ := h
    have hx := List.find?_eq_none.mp hfind d hd
    rw [List.find?_cons_of_neg (by rwa [hid] at hx)]

/-- A claim with a new id is kept. -/
theorem mem_sortedById_insert (h : ∀ d ∈ before ++ after, d.id ≠ extra.id) :
    c ∈ sortedById (before ++ extra :: after) ↔ c = extra ∨ c ∈ sortedById (before ++ after) := by
  rw [mem_sortedById, mem_sortedById, List.find?_append, List.find?_append]
  by_cases hid : extra.id = c.id
  · have hnone : ∀ l : List Claim, (∀ d ∈ l, d ∈ before ++ after) →
        l.find? (fun a => a.id = c.id) = none := by
      refine fun l hl => List.find?_eq_none.mpr fun d hd => ?_
      rw [decide_eq_true_eq, ← hid]
      exact h d (hl d hd)
    rw [hnone before fun d hd => List.mem_append_left _ hd,
      hnone after fun d hd => List.mem_append_right _ hd, Option.none_or,
      List.find?_cons_of_pos (by simpa using hid), Option.some_inj]
    simp [eq_comm]
  · rw [List.find?_cons_of_neg (by simpa using hid)]
    exact (or_iff_right fun hc => hid (congrArg Claim.id hc.symm)).symm

theorem canReduce_insert (hcan : canReduce (before ++ after) = true) (hc : c ∈ before ++ after)
    (hfingerprint : extra.fingerprint = c.fingerprint) :
    canReduce (before ++ extra :: after) = true := by
  obtain ⟨hlen, hsame⟩ := canReduce_iff.mp hcan
  have hall : ∀ d ∈ before ++ extra :: after, d.fingerprint = c.fingerprint := by
    intro d hd
    rcases mem_insert.mp hd with rfl | hd
    · exact hfingerprint
    · exact hsame d hd c hc
  refine canReduce_iff.mpr ⟨?_, fun d hd e he => (hall d hd).trans (hall e he).symm⟩
  rw [List.length_append] at hlen ⊢
  rw [List.length_cons]
  omega

/-! ## The claims that count -/

/-- Of the claims of a source by authors with a reputation, the one with the smallest id counts. -/
theorem mem_counted_iff {claims : List Claim} :
    c ∈ (counted reputations claims).2 ↔ (c ∈ sortedById claims ∧ reputable reputations c = true) ∧
      ∀ d ∈ sortedById claims, reputable reputations d = true →
        d.evidenceSource = c.evidenceSource → c.id ≤ d.id := by
  unfold counted
  rw [mem_foldl_pick_iff ((pairwise_sortedById claims).filter _)]
  simp only [List.not_mem_nil, not_false_eq_true, true_and, false_or, List.mem_filter, and_imp]

/-- The source of a claim counts, with a claim of no larger id. -/
theorem exists_counted {claims : List Claim} (hd : d ∈ sortedById claims)
    (hrep : reputable reputations d = true) :
    ∃ c ∈ (counted reputations claims).2, c.evidenceSource = d.evidenceSource ∧ c.id ≤ d.id := by
  have hmem : ∀ c, c ∈ ((sortedById claims).filter fun c => reputable reputations c &&
      decide (c.evidenceSource = d.evidenceSource)).toFinset ↔
      c ∈ sortedById claims ∧ reputable reputations c = true ∧
        c.evidenceSource = d.evidenceSource := by simp
  obtain ⟨c, hc, hmin⟩ := Finset.exists_min_image _ Claim.id ⟨d, (hmem d).mpr ⟨hd, hrep, rfl⟩⟩
  obtain ⟨hcs, hcr, hsource⟩ := (hmem c).mp hc
  refine ⟨c, mem_counted_iff.mpr ⟨⟨hcs, hcr⟩, fun e he her hes => ?_⟩, hsource,
    hmin d ((hmem d).mpr ⟨hd, hrep, rfl⟩)⟩
  exact hmin e ((hmem e).mpr ⟨he, her, hes.trans hsource⟩)

theorem nodup_counted (reputations : Reputations) (claims : List Claim) :
    (counted reputations claims).2.Nodup := by
  obtain ⟨l', heq, hsub⟩ := foldl_pick_sublist ((sortedById claims).filter (reputable reputations))
    ([], [])
  rw [counted, heq, List.nil_append]
  exact ((nodup_sortedById claims).filter _).sublist hsub

/-- The counted claims of other sources. -/
def countedElsewhere (reputations : Reputations) (claims : List Claim) (source : ClaimHash) :
    List Claim :=
  (counted reputations claims).2.filter fun c => c.evidenceSource ≠ source

/-- Each source is counted once. -/
theorem eq_of_counted {claims : List Claim} (hc : c ∈ (counted reputations claims).2)
    (hd : d ∈ (counted reputations claims).2) (hsource : d.evidenceSource = c.evidenceSource) :
    d = c := by
  obtain ⟨⟨hcs, hcr⟩, hcmin⟩ := mem_counted_iff.mp hc
  obtain ⟨⟨hds, hdr⟩, hdmin⟩ := mem_counted_iff.mp hd
  have hid := le_antisymm (hdmin c hcs hcr hsource.symm) (hcmin d hds hdr hsource)
  exact List.inj_on_of_nodup_map (nodup_ids_sortedById claims) hds hcs hid

theorem counted_perm {claims : List Claim} (hc : c ∈ (counted reputations claims).2) :
    (counted reputations claims).2.Perm
      (c :: countedElsewhere reputations claims c.evidenceSource) := by
  have hnot : c ∉ countedElsewhere reputations claims c.evidenceSource := fun h => by
    simp [countedElsewhere] at h
  refine (List.perm_ext_iff_of_nodup (nodup_counted _ _)
    (List.nodup_cons.mpr ⟨hnot, (nodup_counted _ _).filter _⟩)).mpr fun d => ?_
  rw [List.mem_cons, countedElsewhere, List.mem_filter, decide_eq_true_eq]
  constructor
  · intro hd
    by_cases hsource : d.evidenceSource = c.evidenceSource
    · exact Or.inl (eq_of_counted hc hd hsource)
    · exact Or.inr ⟨hd, hsource⟩
  · rintro (rfl | h)
    · exact hc
    · exact h.1

theorem countedElsewhere_of_new {claims : List Claim} {source : ClaimHash}
    (h : ∀ c ∈ (counted reputations claims).2, c.evidenceSource ≠ source) :
    countedElsewhere reputations claims source = (counted reputations claims).2 :=
  List.filter_eq_self.mpr fun c hc => decide_eq_true (h c hc)

section Insert

variable (hfresh : ∀ d ∈ before ++ after, d.id ≠ extra.id)

include hfresh

/-- A claim does not count if one of its source with a smaller id does. -/
theorem counted_insert_of_le (hc : c ∈ (counted reputations (before ++ after)).2)
    (hsource : c.evidenceSource = extra.evidenceSource) (hle : c.id ≤ extra.id) :
    (counted reputations (before ++ extra :: after)).2.Perm
      (counted reputations (before ++ after)).2 := by
  obtain ⟨⟨hcs, hcr⟩, hcmin⟩ := mem_counted_iff.mp hc
  have hlt : c.id < extra.id := lt_of_le_of_ne hle (hfresh c (mem_of_mem_sortedById hcs))
  refine (List.perm_ext_iff_of_nodup (nodup_counted _ _) (nodup_counted _ _)).mpr fun d => ?_
  rw [mem_counted_iff, mem_counted_iff, mem_sortedById_insert hfresh]
  simp only [mem_sortedById_insert hfresh]
  constructor
  · rintro ⟨⟨hd | hd, hdr⟩, hmin⟩
    · subst hd
      exact absurd (hmin c (Or.inr hcs) hcr hsource) hlt.not_ge
    · exact ⟨⟨hd, hdr⟩, fun e he => hmin e (Or.inr he)⟩
  · rintro ⟨⟨hd, hdr⟩, hmin⟩
    refine ⟨⟨Or.inr hd, hdr⟩, ?_⟩
    rintro e (rfl | he) her hes
    · exact (hmin c hcs hcr (hsource.trans hes)).trans hle
    · exact hmin e he her hes

/-- A claim counts in place of the one of its source, if that one has a larger id. -/
theorem counted_insert_of_lt (hrep : reputable reputations extra = true)
    (hlt : ∀ c ∈ (counted reputations (before ++ after)).2,
      c.evidenceSource = extra.evidenceSource → extra.id < c.id) :
    (counted reputations (before ++ extra :: after)).2.Perm
      (extra :: countedElsewhere reputations (before ++ after) extra.evidenceSource) := by
  have hnot : extra ∉ countedElsewhere reputations (before ++ after) extra.evidenceSource :=
    fun h => by simp [countedElsewhere] at h
  refine (List.perm_ext_iff_of_nodup (nodup_counted _ _)
    (List.nodup_cons.mpr ⟨hnot, (nodup_counted _ _).filter _⟩)).mpr fun d => ?_
  rw [List.mem_cons, countedElsewhere, List.mem_filter, decide_eq_true_eq, mem_counted_iff,
    mem_counted_iff, mem_sortedById_insert hfresh]
  simp only [mem_sortedById_insert hfresh]
  constructor
  · rintro ⟨⟨hd | hd, hdr⟩, hmin⟩
    · exact Or.inl hd
    · refine Or.inr ⟨⟨⟨hd, hdr⟩, fun e he => hmin e (Or.inr he)⟩, fun hsource => ?_⟩
      have hcounted := mem_counted_iff.mpr ⟨⟨hd, hdr⟩, fun e he => hmin e (Or.inr he)⟩
      exact absurd (hmin extra (Or.inl rfl) hrep hsource.symm) (hlt d hcounted hsource).not_ge
  · rintro (rfl | ⟨⟨⟨hd, hdr⟩, hmin⟩, hsource⟩)
    · refine ⟨⟨Or.inl rfl, hrep⟩, ?_⟩
      rintro e (rfl | he) her hes
      · exact le_rfl
      · obtain ⟨c, hc, hsource, hle⟩ := exists_counted he her
        exact ((hlt c hc (hsource.trans hes)).trans_le hle).le
    · refine ⟨⟨Or.inr hd, hdr⟩, ?_⟩
      rintro e (rfl | he) her hes
      · exact absurd hes.symm hsource
      · exact hmin e he her hes

end Insert

/-! ## The aggregate -/

/-- The aggregated log-odds that `reduce_with_reputation` reports. -/
def reducedLogodds (blake3 : Blake3) (reputations : Reputations) (claims : List Claim) :
    Option LogOdds :=
  (reduceWithReputation blake3 claims reputations).bind Claim.aggregatedLogodds?

theorem reducedLogodds_eq_some {claims : List Claim} {group : Claim → CorrelationGroup}
    (hgroup : correlationGroups blake3 (sortedById claims) defaultSupportThreshold =
      (sortedById claims).map group) {lo : LogOdds} :
    reducedLogodds blake3 reputations claims = some lo ↔
      canReduce claims = true ∧ (representative claims).isSome ∧ (counted reputations claims).2 ≠ [] ∧
        aggregateHierarchical ((counted reputations claims).2.map (weighted reputations group))
          defaultDiscountBps unassessedDiscountBps = lo := by
  have hreport : reducedLogodds blake3 reputations claims =
      (report blake3 claims reputations defaultDiscountBps).map Reported.aggregatedLogodds :=
    Option.map_bind.symm
  rw [hreport, report_eq hgroup]
  cases canReduce claims with
  | false => simp
  | true =>
    cases representative claims with
    | none => simp
    | some data =>
      cases (counted reputations claims).2 with
      | nil => simp
      | cons c rest => simp [reportOf]

theorem weightEvidence_nonneg {lo : LogOdds} (h : 0 ≤ lo.value) (rep : Reputation) :
    0 ≤ (rep.weightEvidence lo).value := by
  have hscaled := Int.tdiv_nonneg (mul_nonneg h (Int.natCast_nonneg rep.bps))
    (show (0 : ℤ) ≤ 10000 by decide)
  have hmin : i32Min = -2 ^ 31 := rfl
  have hmax : i32Max = 2 ^ 31 - 1 := rfl
  show 0 ≤ clamp i32Min i32Max ((lo.value * rep.bps).tdiv 10000)
  unfold clamp
  omega

/-- Weighted evidence of which each item weighs at least as much is worth at least as much. -/
theorem aggregate_le_of_atMost {evidence evidence' : List Evidence}
    (h : List.Forall₂ Evidence.AtMost evidence evidence') (hpos : ∀ e ∈ evidence, 0 ≤ e.lo.value)
    (hle : ∀ e ∈ evidence', |e.lo.value| ≤ 90543) :
    aggregateHierarchical evidence defaultDiscountBps unassessedDiscountBps ≤
      aggregateHierarchical evidence' defaultDiscountBps unassessedDiscountBps := by
  refine aggregateHierarchical_mono h hpos (by decide) (products_le (by decide) 0 fun x hx => ?_)
  obtain ⟨key, _, rfl⟩ := mem_countedTotals hx
  have hmembers : ∀ e ∈ groupMembers evidence' key, |e.lo.value| ≤ 90543 := fun e he =>
    hle e (List.mem_of_mem_filter he)
  have htotal := abs_groupTotal_le hmembers (by decide)
  have hpos' := nonneg_of_atMost h hpos
  have hnonneg : 0 ≤ groupTotal defaultDiscountBps (groupMembers evidence' key) := by
    rw [groupTotal_eq hpos']
    exact valueTotal_nonneg (by decide) hpos' key
  have hmax : i64Max = 2 ^ 63 - 1 := rfl
  rw [abs_of_nonneg hnonneg] at htotal
  exact ⟨hnonneg, by omega⟩

section OneItem

variable {evidence : List Evidence} {z z' : Evidence}

/-- One item weighs more. -/
theorem aggregate_replace (hz : z.AtMost z') (hpos : ∀ e ∈ z :: evidence, 0 ≤ e.lo.value)
    (hle : ∀ e ∈ z' :: evidence, |e.lo.value| ≤ 90543) :
    aggregateHierarchical (z :: evidence) defaultDiscountBps unassessedDiscountBps ≤
      aggregateHierarchical (z' :: evidence) defaultDiscountBps unassessedDiscountBps :=
  aggregate_le_of_atMost (.cons hz (List.forall₂_same.mpr fun _ _ => ⟨rfl, le_rfl⟩)) hpos hle

/-- One more item, which takes the assessment of no group away. -/
theorem aggregate_add (hz : 0 ≤ z.lo.value) (hpos : ∀ e ∈ evidence, 0 ≤ e.lo.value)
    (hle : ∀ e ∈ z :: evidence, |e.lo.value| ≤ 90543)
    (hassessed : ∀ e ∈ evidence, e.group.key = z.group.key → e.group.assessed = true →
      z.group.assessed = true) :
    aggregateHierarchical evidence defaultDiscountBps unassessedDiscountBps ≤
      aggregateHierarchical (z :: evidence) defaultDiscountBps unassessedDiscountBps := by
  have hzero := aggregateHierarchical_insert_zero (z := { z with lo := .neutral }) [] evidence
    (show defaultDiscountBps ≤ 10000 by decide) hpos rfl hassessed unassessedDiscountBps
  rw [List.nil_append, List.nil_append] at hzero
  rw [← hzero]
  exact aggregate_replace ⟨rfl, hz⟩ (List.forall_mem_cons.mpr ⟨le_rfl, hpos⟩) hle

end OneItem

/-! ## Relayed claims -/

/-- The claim repeats the evidence of another one, without an embedding. -/
structure Relays (c extra : Claim) : Prop where
  evidenceSource : extra.evidenceSource = c.evidenceSource
  fingerprint : extra.fingerprint = c.fingerprint
  correlationCell : extra.correlationCell = c.correlationCell
  confidence : extra.confidence = c.confidence
  embedding : extra.embedding = none

/-- The claim weighs at least as much as one that is not assessed, in the same group. -/
structure Outweighs (blake3 : Blake3) (reputations : Reputations) (bucket : List Claim)
    (c extra : Claim) : Prop where
  unassessed : ¬ Assessed (sortedById bucket) c
  cell : c.effectiveCorrelationCell blake3 = extra.effectiveCorrelationCell blake3
  weight : ((reputations c.origin).weightEvidence c.declaredConfidence).value ≤
    ((reputations extra.origin).weightEvidence extra.declaredConfidence).value

/-- The claim does not count, because one of its source with a smaller id does; or it outweighs the one
that it replaces; or its source is new, and its cell is not the key of an assessed group. -/
def KeepsWeight (blake3 : Blake3) (reputations : Reputations) (bucket : List Claim) (extra : Claim) :
    Prop :=
  (∃ c ∈ (counted reputations bucket).2, c.evidenceSource = extra.evidenceSource ∧
    (c.id ≤ extra.id ∨ Outweighs blake3 reputations bucket c extra)) ∨
  (∀ c ∈ (counted reputations bucket).2, c.evidenceSource ≠ extra.evidenceSource) ∧
    ∀ p ∈ (sortedById bucket).zip
        (correlationGroups blake3 (sortedById bucket) defaultSupportThreshold),
      p.1 ∈ (counted reputations bucket).2 → p.2.assessed = true →
        p.2.key ≠ extra.effectiveCorrelationCell blake3

/-- The claims of a bucket keep their groups. -/
theorem group_insert {group group' : Claim → CorrelationGroup}
    (hfresh : ∀ d ∈ before ++ after, d.id ≠ extra.id) (hembedding : extra.embedding = none)
    (hgroup : ∀ c ∈ sortedById (before ++ after),
      IsGroup blake3 (sortedById (before ++ after)) defaultSupportThreshold c (group c))
    (hgroup' : ∀ c ∈ sortedById (before ++ extra :: after),
      IsGroup blake3 (sortedById (before ++ extra :: after)) defaultSupportThreshold c (group' c)) :
    (∀ c ∈ sortedById (before ++ after), group' c = group c) ∧
      group' extra = ⟨extra.effectiveCorrelationCell blake3, false⟩ := by
  constructor
  · intro c hc
    have hspec' := hgroup' c ((mem_sortedById_insert hfresh).mpr (Or.inr hc))
    refine hspec'.unique ((hgroup c hc).congr fun d hd => ?_)
    rw [mem_sortedById_insert hfresh]
    refine (or_iff_right ?_).symm
    rintro rfl
    rw [hembedding] at hd
    cases hd
  · refine (hgroup' extra ((mem_sortedById_insert hfresh).mpr (Or.inl rfl))).unassessed fun h => ?_
    have hsome := h.1
    rw [hembedding] at hsome
    cases hsome

theorem abs_weighted_le (group : Claim → CorrelationGroup) (claims : List Claim) :
    ∀ e ∈ claims.map (weighted reputations group), |e.lo.value| ≤ 90543 := by
  intro e he
  obtain ⟨c, _, rfl⟩ := List.mem_map.mp he
  exact abs_weightEvidence_le _ c

theorem weighted_nonneg {claims : List Claim} (h : ∀ c ∈ claims, 0 ≤ c.declaredConfidence.value)
    (group : Claim → CorrelationGroup) :
    ∀ e ∈ (counted reputations claims).2.map (weighted reputations group), 0 ≤ e.lo.value := by
  intro e he
  obtain ⟨c, hc, rfl⟩ := List.mem_map.mp he
  exact weightEvidence_nonneg (h c (mem_of_mem_sortedById (mem_counted hc).1)) _

/-- The order of the claims that count does not matter. -/
theorem aggregate_counted_perm {claims l : List Claim}
    (h : ∀ c ∈ claims, 0 ≤ c.declaredConfidence.value) (group : Claim → CorrelationGroup)
    (hperm : (counted reputations claims).2.Perm l) :
    aggregateHierarchical ((counted reputations claims).2.map (weighted reputations group))
        defaultDiscountBps unassessedDiscountBps =
      aggregateHierarchical (l.map (weighted reputations group)) defaultDiscountBps
        unassessedDiscountBps :=
  aggregateHierarchical_perm (by decide) (weighted_nonneg h group) (hperm.map _) _

section Weight

variable {group group' : Claim → CorrelationGroup}
  (hfresh : ∀ d ∈ before ++ after, d.id ≠ extra.id) (hrep : reputable reputations extra = true)
  (hpos : ∀ c ∈ before ++ after, 0 ≤ c.declaredConfidence.value)
  (hpos' : ∀ c ∈ before ++ extra :: after, 0 ≤ c.declaredConfidence.value)
  (hold : ∀ c ∈ sortedById (before ++ after), group' c = group c)

include hold in
theorem map_weighted_insert {l : List Claim}
    (hl : ∀ c ∈ l, c ∈ (counted reputations (before ++ after)).2) :
    l.map (weighted reputations group') = l.map (weighted reputations group) := by
  refine List.map_congr_left fun c hc => ?_
  rw [weighted, weighted, hold c (mem_counted (hl c hc)).1]

theorem abs_weighted_insert_le (l : List Claim) :
    ∀ e ∈ weighted reputations group' extra :: l.map (weighted reputations group),
      |e.lo.value| ≤ 90543 :=
  List.forall_mem_cons.mpr ⟨abs_weightEvidence_le _ extra, abs_weighted_le group l⟩

include hfresh hrep hpos hpos' hold

/-- A claim takes the place of one of its group that weighs no more. -/
theorem aggregate_insert_replacing (hc : c ∈ (counted reputations (before ++ after)).2)
    (hsource : c.evidenceSource = extra.evidenceSource) (hid : extra.id < c.id)
    (hle : (weighted reputations group c).AtMost (weighted reputations group' extra)) :
    aggregateHierarchical ((counted reputations (before ++ after)).2.map (weighted reputations group))
        defaultDiscountBps unassessedDiscountBps ≤
      aggregateHierarchical ((counted reputations (before ++ extra :: after)).2.map
        (weighted reputations group')) defaultDiscountBps unassessedDiscountBps := by
  have hcounted := counted_perm hc
  rw [hsource] at hcounted
  have hlt : ∀ d ∈ (counted reputations (before ++ after)).2,
      d.evidenceSource = extra.evidenceSource → extra.id < d.id := by
    intro d hd hds
    rwa [eq_of_counted hc hd (hds.trans hsource.symm)]
  have hcounted' := counted_insert_of_lt hfresh hrep hlt
  have helsewhere : ∀ d ∈ countedElsewhere reputations (before ++ after) extra.evidenceSource,
      d ∈ (counted reputations (before ++ after)).2 := fun d hd => List.mem_of_mem_filter hd
  rw [aggregate_counted_perm hpos' _ hcounted', aggregate_counted_perm hpos _ hcounted,
    List.map_cons, List.map_cons, map_weighted_insert hold helsewhere]
  refine aggregate_replace hle (fun e he => ?_) (abs_weighted_insert_le _)
  exact weighted_nonneg hpos group e ((hcounted.map _).mem_iff.mpr he)

/-- A claim of a new source comes in addition. -/
theorem aggregate_insert_adding
    (hnew : ∀ c ∈ (counted reputations (before ++ after)).2,
      c.evidenceSource ≠ extra.evidenceSource)
    (hassessed : ∀ c ∈ (counted reputations (before ++ after)).2,
      (group c).key = (group' extra).key → (group c).assessed = true →
        (group' extra).assessed = true) :
    aggregateHierarchical ((counted reputations (before ++ after)).2.map (weighted reputations group))
        defaultDiscountBps unassessedDiscountBps ≤
      aggregateHierarchical ((counted reputations (before ++ extra :: after)).2.map
        (weighted reputations group')) defaultDiscountBps unassessedDiscountBps := by
  have hcounted := counted_insert_of_lt hfresh hrep fun d hd hds => absurd hds (hnew d hd)
  rw [countedElsewhere_of_new hnew] at hcounted
  rw [aggregate_counted_perm hpos' _ hcounted, List.map_cons, map_weighted_insert hold fun _ => id]
  refine aggregate_add (weightEvidence_nonneg (hpos' extra (mem_insert.mpr (Or.inl rfl))) _)
    (weighted_nonneg hpos group) (abs_weighted_insert_le _) fun e he => ?_
  obtain ⟨c, hc, rfl⟩ := List.mem_map.mp he
  exact hassessed c hc

end Weight

/-- A claim that keeps the weight of the evidence takes nothing away. -/
theorem aggregate_insert {group group' : Claim → CorrelationGroup}
    (hfresh : ∀ d ∈ before ++ after, d.id ≠ extra.id) (hembedding : extra.embedding = none)
    (hrep : reputable reputations extra = true)
    (hpos : ∀ c ∈ before ++ after, 0 ≤ c.declaredConfidence.value)
    (hpos' : ∀ c ∈ before ++ extra :: after, 0 ≤ c.declaredConfidence.value)
    (hgroups : correlationGroups blake3 (sortedById (before ++ after)) defaultSupportThreshold =
      (sortedById (before ++ after)).map group)
    (hgroup : ∀ c ∈ sortedById (before ++ after),
      IsGroup blake3 (sortedById (before ++ after)) defaultSupportThreshold c (group c))
    (hgroup' : ∀ c ∈ sortedById (before ++ extra :: after),
      IsGroup blake3 (sortedById (before ++ extra :: after)) defaultSupportThreshold c (group' c))
    (hkeeps : KeepsWeight blake3 reputations (before ++ after) extra) :
    aggregateHierarchical ((counted reputations (before ++ after)).2.map (weighted reputations group))
        defaultDiscountBps unassessedDiscountBps ≤
      aggregateHierarchical ((counted reputations (before ++ extra :: after)).2.map
        (weighted reputations group')) defaultDiscountBps unassessedDiscountBps := by
  obtain ⟨hold, hextra⟩ := group_insert hfresh hembedding hgroup hgroup'
  rcases hkeeps with ⟨c, hc, hsource, hkeeps⟩ | ⟨hnew, hkey⟩
  · by_cases hid : c.id ≤ extra.id
    · rw [aggregate_counted_perm hpos' _ (counted_insert_of_le hfresh hc hsource hid),
        map_weighted_insert hold fun _ => id]
    · obtain ⟨hunassessed, hcell, hweight⟩ := hkeeps.resolve_left hid
      have hsame : group c = group' extra := by
        rw [hextra, (hgroup c (mem_counted hc).1).unassessed hunassessed, hcell]
      exact aggregate_insert_replacing hfresh hrep hpos hpos' hold hc hsource (lt_of_not_ge hid)
        ⟨hsame, hweight⟩
  · refine aggregate_insert_adding hfresh hrep hpos hpos' hold hnew fun c hc hsame ha => ?_
    -- no assessed group has the key of the cell
    rw [hgroups, zip_map_self] at hkey
    refine absurd ?_ (hkey _ (List.mem_map_of_mem (mem_counted hc).1) hc ha)
    rw [hsame, hextra]

/-- The aggregate that is not lowered, in a bucket whose groups are given. -/
theorem exists_aggregate_insert {group : Claim → CorrelationGroup}
    (hrelays : ∃ c ∈ before ++ after, Relays c extra) (hrep : reputable reputations extra = true)
    (hpos : ∀ c ∈ before ++ after, 0 ≤ c.declaredConfidence.value)
    (hcounted : (counted reputations (before ++ after)).2 ≠ [])
    (hkeeps : (∃ d ∈ before, d.id = extra.id) ∨ (∀ d ∈ after, d.id ≠ extra.id) ∧
      KeepsWeight blake3 reputations (before ++ after) extra)
    (hgroups : correlationGroups blake3 (sortedById (before ++ after)) defaultSupportThreshold =
      (sortedById (before ++ after)).map group)
    (hgroup : ∀ c ∈ sortedById (before ++ after),
      IsGroup blake3 (sortedById (before ++ after)) defaultSupportThreshold c (group c)) :
    ∃ group' : Claim → CorrelationGroup,
      correlationGroups blake3 (sortedById (before ++ extra :: after)) defaultSupportThreshold =
          (sortedById (before ++ extra :: after)).map group' ∧
        (counted reputations (before ++ extra :: after)).2 ≠ [] ∧
        aggregateHierarchical ((counted reputations (before ++ after)).2.map
            (weighted reputations group)) defaultDiscountBps unassessedDiscountBps ≤
          aggregateHierarchical ((counted reputations (before ++ extra :: after)).2.map
            (weighted reputations group')) defaultDiscountBps unassessedDiscountBps := by
  by_cases hseen : ∃ d ∈ before, d.id = extra.id
  · have hsorted : sortedById (before ++ extra :: after) = sortedById (before ++ after) :=
      sortedById_insert_seen hseen
    refine ⟨group, ?_⟩
    unfold counted at hcounted ⊢
    rw [hsorted]
    exact ⟨hgroups, hcounted, le_rfl⟩
  · obtain ⟨hafter, hkeeps⟩ := hkeeps.resolve_left hseen
    have hfresh : ∀ d ∈ before ++ after, d.id ≠ extra.id := by
      intro d hd hid
      rcases List.mem_append.mp hd with hd | hd
      · exact hseen ⟨d, hd, hid⟩
      · exact hafter d hd hid
    obtain ⟨c₀, hc₀, hrelays⟩ := hrelays
    obtain ⟨group', hgroups', hgroup'⟩ :=
      exists_group blake3 (sortedById (before ++ extra :: after)) defaultSupportThreshold
    obtain ⟨c, hc, -⟩ := exists_counted ((mem_sortedById_insert hfresh).mpr (Or.inl rfl)) hrep
    have hpos' : ∀ c ∈ before ++ extra :: after, 0 ≤ c.declaredConfidence.value := by
      intro c hc
      rcases mem_insert.mp hc with rfl | hc
      · unfold Claim.declaredConfidence
        rw [hrelays.confidence]
        exact hpos c₀ hc₀
      · exact hpos c hc
    exact ⟨group', hgroups', List.ne_nil_of_mem hc,
      aggregate_insert hfresh hrelays.embedding hrep hpos hpos' hgroups hgroup hgroup' hkeeps⟩

/-- A claim that repeats evidence of the bucket and keeps its weight does not lower the aggregated
log-odds, if the claim with the smallest id still has data. -/
theorem aggregate_of_relay (blake3 : Blake3) (reputations : Reputations) (before after : List Claim)
    (extra : Claim) {lo : LogOdds} (hrelays : ∃ c ∈ before ++ after, Relays c extra)
    (hrep : (reputations extra.origin).bps ≠ 0)
    (hpos : ∀ c ∈ before ++ after, 0 ≤ c.declaredConfidence.value)
    (hlo : reducedLogodds blake3 reputations (before ++ after) = some lo)
    (hkeeps : (∃ d ∈ before, d.id = extra.id) ∨ (∀ d ∈ after, d.id ≠ extra.id) ∧
      KeepsWeight blake3 reputations (before ++ after) extra) :
    (∃ lo', reducedLogodds blake3 reputations (before ++ extra :: after) = some lo' ∧ lo ≤ lo') ↔
      (representative (before ++ extra :: after)).isSome := by
  obtain ⟨group, hgroups, hgroup⟩ :=
    exists_group blake3 (sortedById (before ++ after)) defaultSupportThreshold
  obtain ⟨hcan, -, hcounted, rfl⟩ := (reducedLogodds_eq_some hgroups).mp hlo
  have hreputable : reputable reputations extra = true := by simpa [reputable] using hrep
  obtain ⟨group', hgroups', hcounted', hle⟩ :=
    exists_aggregate_insert hrelays hreputable hpos hcounted hkeeps hgroups hgroup
  obtain ⟨c₀, hc₀, hrelays⟩ := hrelays
  have hcan' : canReduce (before ++ extra :: after) = true :=
    canReduce_insert hcan hc₀ hrelays.fingerprint
  simp only [reducedLogodds_eq_some hgroups']
  constructor
  · rintro ⟨_, ⟨_, hdata, _⟩, _⟩
    exact hdata
  · exact fun hdata => ⟨_, ⟨hcan', hdata, hcounted', rfl⟩, hle⟩

/-- Two observations of an author in full standing. -/
def twoReadings : List Claim :=
  [plainClaim (uniformId 2) ⟨1000, isI32_1000⟩, plainClaim (uniformId 3) ⟨1000, isI32_1000⟩]

/-- The first of them, relayed by another author under the given id. -/
def relayedReading (b : Byte) : Claim :=
  { plainClaim (uniformId b) ⟨1000, isI32_1000⟩ with
    origin := ⟨List.replicate 32 2, length_twos⟩
    evidenceSource := uniformId 2 }

/-- The other author has a reputation of one basis point. -/
def oneBasisPoint : Reputations := fun origin =>
  if origin = plainOrigin then .full else ⟨1, isU16_one⟩

theorem aggregate_of_relay_late : ∃ lo',
    reducedLogodds sampleHash oneBasisPoint (twoReadings ++ [relayedReading 4]) = some lo' ∧
      ⟨1300, by decide⟩ ≤ lo' := by
  have hlo : reducedLogodds sampleHash oneBasisPoint (twoReadings ++ []) = some ⟨1300, by decide⟩ := by
    decide +kernel
  refine (aggregate_of_relay sampleHash oneBasisPoint twoReadings [] (relayedReading 4)
    ⟨plainClaim (uniformId 2) ⟨1000, by decide⟩, by decide, rfl, rfl, rfl, rfl, rfl⟩ (by decide)
    (by decide) hlo (Or.inr ⟨by decide, Or.inl ⟨plainClaim (uniformId 2) ⟨1000, by decide⟩,
      by decide +kernel, rfl, Or.inl (by decide)⟩⟩)).mpr (by decide +kernel)

/-- Under a smaller id the relayed observation takes the place of the one it repeats, and weighs nothing. -/
theorem relay_displaces :
    Relays (plainClaim (uniformId 2) ⟨1000, by decide⟩) (relayedReading 1) ∧
      (oneBasisPoint (relayedReading 1).origin).bps = 1 ∧
      (∀ c ∈ twoReadings, 0 ≤ c.declaredConfidence.value) ∧
      reducedLogodds sampleHash oneBasisPoint twoReadings = some ⟨1300, by decide⟩ ∧
      reducedLogodds sampleHash oneBasisPoint (twoReadings ++ [relayedReading 1]) =
        some ⟨1000, by decide⟩ :=
  ⟨⟨rfl, rfl, rfl, rfl, rfl⟩, by decide +kernel⟩

end Aimp.Epistemic
