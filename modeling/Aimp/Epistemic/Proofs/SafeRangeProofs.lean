import Aimp.Epistemic.Proofs.SettleProofs
import Aimp.Epistemic.Proofs.FixedPointProofs
import Aimp.Epistemic.Proofs.SumProofs

/-!
# The safe range

Pass 1 stays in the safe range, as every update is clamped to it, and so does Pass 2 above 0, where the
penalties are capped. A node without positive trust has no such cap: it leaves the range exactly when
what contradicts it adds up to more than its distance from the lower end (`propagateTrustFull_safe_iff`).
-/

namespace Aimp.Epistemic

theorem TrustMap.inSafe_at {t : TrustMap} (h : ∀ v lo, t.lookup v = some lo → InSafe lo)
    (v : ClaimArenaId) : InSafe (t.at v) := by
  unfold TrustMap.at
  cases hv : t.lookup v with
  | none => exact inSafe_neutral
  | some lo => exact h v lo hv

theorem TrustMap.inSafe_of_entries {t : TrustMap} (h : ∀ e ∈ t.entries, InSafe e.2) :
    ∀ v lo, t.lookup v = some lo → InSafe lo :=
  fun v lo hlo => h ⟨v, lo⟩ (AList.mem_lookup_iff.mp hlo)

namespace KnowledgeGraph

variable {g : KnowledgeGraph} {claims : List Claim} {reputations : Reputations}
  {baseTrust : TrustMap} {dampingBps : ℕ}

/-! ## Pass 1 -/

theorem inSafe_flow {cyclicEdges : List ℕ} {claimGroups : List CorrelationGroup} {discountBps : ℕ}
    {start : ClaimArenaId → LogOdds} (hstart : ∀ v, InSafe (start v)) (trust : ClaimArenaId → LogOdds)
    (v : ClaimArenaId) :
    InSafe (g.flow cyclicEdges claims claimGroups reputations discountBps start trust v) := by
  unfold flow
  split
  · exact hstart v
  · exact inSafe_safe _

theorem inSafe_iterate_flow {cyclicEdges : List ℕ} {claimGroups : List CorrelationGroup}
    {discountBps : ℕ} {start : ClaimArenaId → LogOdds} (hstart : ∀ v, InSafe (start v)) (n : ℕ)
    (v : ClaimArenaId) :
    InSafe ((g.flow cyclicEdges claims claimGroups reputations discountBps start)^[n] start v) := by
  cases n with
  | zero => exact hstart v
  | succ n =>
    rw [Function.iterate_succ_apply']
    exact inSafe_flow hstart _ v

/-! ## Pass 2 -/

/-- `raw_penalty` of a contradicting edge. -/
def rawPenalty (claims : List Claim) (reputations : Reputations) (trust : ClaimArenaId → LogOdds)
    (e : EpistemicEdge) : ℤ :=
  ((trust e.fromId).positivePart.value *
    (e.strength.bps * authorRep claims reputations e.fromId).tdiv 10000).tdiv 10000

/-- What contradicts a node, added up. -/
def contradictionInto (g : KnowledgeGraph) (claims : List Claim) (reputations : Reputations)
    (trust : ClaimArenaId → LogOdds) (v : ClaimArenaId) : ℤ :=
  (((g.edges.filter fun e => e.relation = .contradicts).filter fun e => e.toId = v).map
    (rawPenalty claims reputations trust)).sum

theorem rawPenalty_nonneg (trust : ClaimArenaId → LogOdds) (e : EpistemicEdge) :
    0 ≤ rawPenalty claims reputations trust e :=
  Int.tdiv_nonneg (mul_nonneg (le_max_right _ _) (Int.tdiv_nonneg
    (mul_nonneg (Int.natCast_nonneg _) (authorRep_nonneg _ _ _)) (by decide))) (by decide)

/-- Without positive trust in the target nothing caps the penalty of an edge. -/
theorem cappedPenalty_eq {trust : ClaimArenaId → LogOdds} {e : EpistemicEdge}
    (h : (trust e.toId).value ≤ 0) :
    g.cappedPenalty claims reputations trust dampingBps e = rawPenalty claims reputations trust e := by
  have hraw : |rawPenalty claims reputations trust e| = rawPenalty claims reputations trust e :=
    abs_of_nonneg (rawPenalty_nonneg trust e)
  unfold rawPenalty at hraw
  unfold cappedPenalty rawPenalty
  dsimp only
  rw [if_neg (not_lt.mpr h), hraw, min_self]

/-- Wrapping after every addition or once at the end is the same. -/
theorem foldl_wrapI64 {α : Type} (f : α → ℤ) (l : List α) (total : ℤ) :
    l.foldl (fun total x => some (wrapI64 (total.getD 0 + f x))) (some (wrapI64 total)) =
      some (wrapI64 (total + (l.map f).sum)) := by
  induction l generalizing total with
  | nil => simp
  | cons x l ih =>
    have hadd : wrapI64 (wrapI64 total + f x) = wrapI64 (total + f x) := Int.bmod_add_bmod
    rw [List.foldl_cons, Option.getD_some, hadd, ih, List.map_cons, List.sum_cons, add_assoc]

theorem penaltyInto_of_nonpos {trust : ClaimArenaId → LogOdds} {v : ClaimArenaId}
    (h : (trust v).value ≤ 0) :
    g.penaltyInto claims reputations trust dampingBps v =
      if ((g.edges.filter fun e => e.relation = .contradicts).filter fun e => e.toId = v).isEmpty then
        none
      else some (wrapI64 (g.contradictionInto claims reputations trust v)) := by
  unfold penaltyInto contradictionInto
  have hcapped : ∀ e ∈ (g.edges.filter fun e => e.relation = .contradicts).filter
      (fun e => e.toId = v), g.cappedPenalty claims reputations trust dampingBps e =
        rawPenalty claims reputations trust e := by
    intro e he
    have hto : e.toId = v := by simpa using (List.mem_filter.mp he).2
    exact cappedPenalty_eq (hto ▸ h)
  generalize (g.edges.filter fun e => e.relation = .contradicts).filter (fun e => e.toId = v) = l
    at hcapped ⊢
  cases l with
  | nil => rfl
  | cons e l =>
    have hmap : (e :: l).map (g.cappedPenalty claims reputations trust dampingBps) =
        (e :: l).map (rawPenalty claims reputations trust) := List.map_congr_left hcapped
    rw [List.foldl_cons, Option.getD_none, foldl_wrapI64, zero_add, ← List.sum_cons, ← List.map_cons,
      hmap]
    rfl

/-- Pass 2 takes a node without positive trust out of the safe range exactly when it is contradicted by
more than its distance from the lower end. -/
theorem inSafe_settle_iff (hd : dampingBps ≤ 10000) {trust : ClaimArenaId → LogOdds}
    {v : ClaimArenaId} (h : InSafe (trust v)) :
    InSafe (g.settle claims reputations dampingBps trust v) ↔
      ((trust v).value ≤ 0 → wrapI64 (g.contradictionInto claims reputations trust v) ≤
        (trust v).value - LogOdds.safeMin) := by
  obtain ⟨hlow, hhigh⟩ := h
  by_cases hpos : 0 < (trust v).value
  · have hle : (g.settle claims reputations dampingBps trust v).value ≤ (trust v).value :=
      settle_le trust v
    have hnonneg : 0 ≤ (g.settle claims reputations dampingBps trust v).value :=
      settle_nonneg hd hpos
    have hmin : LogOdds.safeMin ≤ 0 := by decide
    exact iff_of_true ⟨hmin.trans hnonneg, hle.trans hhigh⟩ fun hnonpos => absurd hnonpos (not_le.mpr hpos)
  · have hnonpos := not_lt.mp hpos
    rw [imp_iff_right hnonpos]
    unfold settle
    rw [penaltyInto_of_nonpos hnonpos]
    split
    · -- no edge contradicts the node
      rename_i hempty
      have hzero : g.contradictionInto claims reputations trust v = 0 := by
        unfold contradictionInto
        rw [List.isEmpty_iff.mp hempty]
        rfl
      rw [hzero]
      exact iff_of_true ⟨hlow, hhigh⟩ (sub_nonneg.mpr hlow)
    · rw [Option.elim_some, globallyCapped, if_neg hpos, min_self]
      unfold InSafe LogOdds.saturatingSub LogOdds.ofInt clamp
      unfold LogOdds.safeMin LogOdds.safeMax at *
      unfold i32Min i32Max
      dsimp only
      omega

/-! ## Propagation -/

/-- All returned values are in the safe range exactly when no node without positive trust after Pass 1
is contradicted by more than its distance from the lower end of the range. -/
theorem propagateTrustFull_safe_iff (blake3 : Blake3) (g : KnowledgeGraph) (baseTrust : TrustMap)
    (maxIterations : ℕ) {dampingBps : ℕ} (claims : List Claim) (reputations : Reputations)
    (hd : dampingBps ≤ 10000) (hbase : ∀ v lo, baseTrust.lookup v = some lo → InSafe lo) :
    (∀ v lo, (g.propagateTrustFull blake3 baseTrust maxIterations dampingBps claims
        reputations).lookup v = some lo → InSafe lo) ↔
      ∀ v, ((g.stabilized blake3 baseTrust maxIterations claims reputations 0 0
          defaultDiscountBps).at v).value ≤ 0 →
        wrapI64 (g.contradictionInto claims reputations (g.stabilized blake3 baseTrust maxIterations
          claims reputations 0 0 defaultDiscountBps).at v) ≤
        ((g.stabilized blake3 baseTrust maxIterations claims reputations 0 0
          defaultDiscountBps).at v).value - LogOdds.safeMin := by
  rw [stabilized_at, decayedBase_zero]
  have hsafe : ∀ v, InSafe ((g.flow g.cyclicEdgeIndices claims (correlationGroups blake3 claims
      defaultSupportThreshold) reputations defaultDiscountBps baseTrust.at)^[maxIterations]
        baseTrust.at v) := inSafe_iterate_flow (TrustMap.inSafe_at hbase) maxIterations
  constructor
  · intro h v
    have hv := TrustMap.inSafe_at h v
    rw [propagateTrustFull_at] at hv
    exact (inSafe_settle_iff hd (hsafe v)).mp hv
  · intro h v lo hlo
    have hv := (inSafe_settle_iff hd (hsafe v)).mpr (h v)
    rw [← propagateTrustFull_at, TrustMap.at, hlo] at hv
    exact hv

/-- A claim that is trusted as much as possible, and one that is doubted a little. -/
def doubtedBase : TrustMap :=
  ((∅ : TrustMap).insert 0 ⟨1000000000, isI32_safeMax⟩).insert 1 ⟨-1, by decide⟩

/-- Both claims are trusted halfway. -/
def evenBase : TrustMap := ((∅ : TrustMap).insert 0 ⟨5000, isI32_5000⟩).insert 1 ⟨5000, isI32_5000⟩

theorem propagateTrustFull_safe_iff_even :
    (∀ v lo, (contradictedClaim.propagateTrustFull sampleHash evenBase 5 5000 confidentPair
        fun _ => .full).lookup v = some lo → InSafe lo) ↔
      ∀ v, ((contradictedClaim.stabilized sampleHash evenBase 5 confidentPair (fun _ => .full) 0 0
          defaultDiscountBps).at v).value ≤ 0 →
        wrapI64 (contradictedClaim.contradictionInto confidentPair (fun _ => .full)
          (contradictedClaim.stabilized sampleHash evenBase 5 confidentPair (fun _ => .full) 0 0
            defaultDiscountBps).at v) ≤
        ((contradictedClaim.stabilized sampleHash evenBase 5 confidentPair (fun _ => .full) 0 0
          defaultDiscountBps).at v).value - LogOdds.safeMin :=
  propagateTrustFull_safe_iff sampleHash contradictedClaim evenBase 5 confidentPair _ (by decide)
    (TrustMap.inSafe_of_entries (by decide))

/-- One contradiction takes the doubted claim out of the range. -/
theorem doubted_claim_leaves_range :
    (∀ v lo, doubtedBase.lookup v = some lo → InSafe lo) ∧
      (contradictedClaim.propagateTrustFull sampleHash doubtedBase 5 5000 confidentPair
        fun _ => .full).lookup 1 = some ⟨-1000000001, by decide⟩ ∧
      (-1000000001 : ℤ) < LogOdds.safeMin := by
  exact ⟨TrustMap.inSafe_of_entries (by decide), by decide +kernel, by decide⟩

end KnowledgeGraph

end Aimp.Epistemic
