import Aimp.Epistemic.Trust

/-!
# The belief engine

`LogOddsBeliefEngine::compute` propagates the reputation-weighted confidence of the claims through the
graph and sorts the claims into accepted, rejected and uncertain ones.
-/

namespace Aimp.Epistemic

/-- `BeliefState`. -/
structure BeliefState where
  accepted : List ClaimArenaId
  rejected : List ClaimArenaId
  uncertain : List ClaimArenaId
deriving DecidableEq

/-- `LogOddsBeliefEngine`. -/
structure LogOddsBeliefEngine where
  acceptThreshold : LogOdds
  rejectThreshold : LogOdds
  maxContradictionDampingBps : ℕ

namespace LogOddsBeliefEngine

/-- `LogOddsBeliefEngine::default`. -/
def default : LogOddsBeliefEngine where
  acceptThreshold := ⟨2197, by decide⟩
  rejectThreshold := ⟨-2197, by decide⟩
  maxContradictionDampingBps := 5000

/-- `base_trust`: the reputation-weighted confidence of each claim. -/
def baseTrust (claims : List Claim) (reputations : Reputations) : TrustMap :=
  claims.zipIdx.foldl (fun m c =>
    m.insert c.2 ((reputations c.1.origin).weightEvidence c.1.declaredConfidence)) ∅

/-- Put a claim into its class. -/
def classify (engine : LogOddsBeliefEngine) (trust : TrustMap) (state : BeliefState)
    (v : ClaimArenaId) : BeliefState :=
  if engine.acceptThreshold.value ≤ (trust.at v).value then
    { state with accepted := state.accepted ++ [v] }
  else if (trust.at v).value ≤ engine.rejectThreshold.value then
    { state with rejected := state.rejected ++ [v] }
  else { state with uncertain := state.uncertain ++ [v] }

/-- `LogOddsBeliefEngine::compute`. -/
def compute (blake3 : Blake3) (engine : LogOddsBeliefEngine) (claims : List Claim)
    (graph : KnowledgeGraph) (reputations : Reputations) : BeliefState :=
  let propagated := graph.propagateTrustFull blake3 (baseTrust claims reputations) 5
    engine.maxContradictionDampingBps claims reputations
  (List.range claims.length).foldl (engine.classify propagated) ⟨[], [], []⟩

end LogOddsBeliefEngine

end Aimp.Epistemic
