import Aimp.Epistemic.Proofs.BeliefProofs
import Aimp.Epistemic.Proofs.ReducerProofs

/-!
# Compaction and belief

A summary has no author, so the belief engine weighs it by the reputation of the all-zero key. What is
left of its aggregated log-odds decides whether it keeps the class that these ask for
(`keepsClass_summary`).
-/

namespace Aimp.Epistemic

variable {bucket : List Claim} {blake3 : Blake3} {reputations : Reputations} {s : Claim}
  {aggregated : LogOdds}

/-! ## Propagation without edges -/

namespace KnowledgeGraph

/-- Without edges there is nothing to propagate. -/
theorem propagateTrustFull_new (blake3 : Blake3) (baseTrust : TrustMap)
    (maxIterations dampingBps : ℕ) (claims : List Claim) (reputations : Reputations) :
    new.propagateTrustFull blake3 baseTrust maxIterations dampingBps claims reputations = baseTrust := by
  have hstabilized : new.stabilized blake3 baseTrust maxIterations claims reputations 0 0
      defaultDiscountBps = baseTrust := by
    unfold stabilized
    dsimp only
    rw [decayedBase_zero]
    exact FixedPoint.iterateUntil_of_fixed trustChanged rfl maxIterations
  unfold propagateTrustFull propagateTrustAdvanced propagateTrustCorrelated
  dsimp only
  rw [hstabilized]
  rfl

end KnowledgeGraph

namespace LogOddsBeliefEngine

theorem propagated_new (blake3 : Blake3) (engine : LogOddsBeliefEngine) (claims : List Claim)
    (reputations : Reputations) :
    engine.propagated blake3 claims .new reputations = baseTrust claims reputations :=
  KnowledgeGraph.propagateTrustFull_new ..

/-- The claim `v` is in the class that the given log-odds ask for. -/
def KeepsClass (engine : LogOddsBeliefEngine) (state : BeliefState) (v : ClaimArenaId)
    (aggregated : LogOdds) : Prop :=
  (engine.acceptThreshold.value ≤ aggregated.value → v ∈ state.accepted) ∧
  (aggregated.value ≤ engine.rejectThreshold.value → v ∈ state.rejected)

instance (engine : LogOddsBeliefEngine) (state : BeliefState) (v : ClaimArenaId)
    (aggregated : LogOdds) : Decidable (engine.KeepsClass state v aggregated) :=
  inferInstanceAs (Decidable (_ ∧ _))

end LogOddsBeliefEngine

/-! ## The summary of a bucket -/

open LogOddsBeliefEngine

/-- A summary has no author, and is as confident as its evidence. -/
theorem authorless (hs : reduceWithReputation blake3 bucket reputations = some s)
    (haggregated : s.aggregatedLogodds? = some aggregated) :
    s.origin = zeros 32 ∧ s.confidence = aggregated := by
  obtain ⟨-, first, data, -, -, -, rfl⟩ := reduceWithReputationCorrelated_eq_some.mp hs
  exact ⟨rfl, Option.some.inj haggregated⟩

theorem weightEvidence_of_zero {rep : Reputation} (h : rep.bps = 0) (evidence : LogOdds) :
    (rep.weightEvidence evidence).value = 0 := by
  unfold Reputation.weightEvidence
  rw [h]
  show clamp i32Min i32Max ((evidence.value * 0).tdiv 10000) = 0
  rw [mul_zero]
  decide

/-- The summary keeps its class exactly if the reputation of the all-zero key leaves enough of it, which
is nothing at all unless an author of the bucket has that key. -/
theorem keepsClass_summary (hs : reduceWithReputation blake3 bucket reputations = some s)
    (haggregated : s.aggregatedLogodds? = some aggregated)
    (hknown : ∀ origin, (reputations origin).bps ≠ 0 → ∃ c ∈ bucket, c.origin = origin)
    (engine : LogOddsBeliefEngine) (before after : List Claim) :
    (engine.KeepsClass (engine.compute blake3 (before ++ s :: after) .new reputations) before.length
        aggregated ↔
      (engine.acceptThreshold.value ≤ aggregated.value → engine.acceptThreshold.value ≤
        ((reputations (zeros 32)).weightEvidence aggregated.clampDeclared).value) ∧
      (aggregated.value ≤ engine.rejectThreshold.value →
        ((reputations (zeros 32)).weightEvidence aggregated.clampDeclared).value <
          engine.acceptThreshold.value ∧
        ((reputations (zeros 32)).weightEvidence aggregated.clampDeclared).value ≤
          engine.rejectThreshold.value)) ∧
    ((∀ c ∈ bucket, c.origin ≠ zeros 32) →
      ((reputations (zeros 32)).weightEvidence aggregated.clampDeclared).value = 0) := by
  obtain ⟨horigin, hconfidence⟩ := authorless hs haggregated
  have hget : (before ++ s :: after)[before.length]? = some s := by simp
  have hlt : before.length < (before ++ s :: after).length := by simp
  have htrust : (engine.propagated blake3 (before ++ s :: after) .new reputations).at before.length =
      (reputations (zeros 32)).weightEvidence aggregated.clampDeclared := by
    rw [propagated_new, baseTrust_at, hget, Option.elim_some, horigin, Claim.declaredConfidence,
      hconfidence]
  constructor
  · unfold KeepsClass
    rw [mem_accepted, mem_rejected, htrust, iff_true_intro hlt, true_and, true_and, not_le]
  · intro hkeys
    refine weightEvidence_of_zero ?_ _
    by_contra hne
    obtain ⟨c, hc, hkey⟩ := hknown _ hne
    exact hkeys c hc hkey

/-! ### Two confident claims -/

/-- Two claims of one author, each almost enough to be accepted. -/
def confidentClaims : List Claim :=
  [plainClaim (uniformId 1) ⟨2000, isI32_2000⟩, plainClaim (uniformId 2) ⟨2000, isI32_2000⟩]

theorem onlyBucketAuthor_known (origin : NodeId) (h : (onlyBucketAuthor origin).bps ≠ 0) :
    ∃ c ∈ confidentClaims, c.origin = origin := by
  refine ⟨plainClaim (uniformId 1) ⟨2000, by decide⟩, List.mem_cons_self .., ?_⟩
  by_contra hne
  have hother : origin ≠ plainOrigin := Ne.symm hne
  rw [onlyBucketAuthor, if_neg hother] at h
  exact h rfl

/-- An engine that accepts neutral claims accepts the summary. -/
theorem keepsClass_summary_neutral :
    ∃ s aggregated, reduceWithReputation summaryHash confidentClaims onlyBucketAuthor = some s ∧
      s.aggregatedLogodds? = some aggregated ∧
      KeepsClass { LogOddsBeliefEngine.default with acceptThreshold := .neutral }
        (compute summaryHash { LogOddsBeliefEngine.default with acceptThreshold := .neutral } ([] ++ [s])
          .new onlyBucketAuthor) 0 aggregated :=
  ⟨_, ⟨2600, by decide⟩, rfl, rfl, (keepsClass_summary rfl rfl onlyBucketAuthor_known
    { LogOddsBeliefEngine.default with acceptThreshold := .neutral } [] []).1.mpr (by decide +kernel)⟩

/-- The default engine does not accept the summary, although it says more than the engine asks for. -/
theorem summary_uncertain :
    (∀ c ∈ confidentClaims, (onlyBucketAuthor c.origin).bps = 10000) ∧
    ∃ s, reduceWithReputation summaryHash confidentClaims onlyBucketAuthor = some s ∧
      s.aggregatedLogodds? = some ⟨2600, by decide⟩ ∧
      LogOddsBeliefEngine.default.acceptThreshold.value ≤ 2600 ∧
      (LogOddsBeliefEngine.default.compute summaryHash [s] .new onlyBucketAuthor).uncertain = [0] ∧
      ¬ KeepsClass .default (LogOddsBeliefEngine.default.compute summaryHash [s] .new onlyBucketAuthor)
        0 ⟨2600, by decide⟩ := by
  refine ⟨by decide +kernel, _, rfl, ?_, ?_, ?_, ?_⟩ <;> decide +kernel

end Aimp.Epistemic
