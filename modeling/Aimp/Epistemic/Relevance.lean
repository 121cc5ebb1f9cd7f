import Aimp.Epistemic.Graph
import Aimp.Epistemic.Resolver

/-!
# Contradictions and relevance

`EvidenceWeightedContradictionResolver` compares two contradicting claims, and `DependencyAwareScorer`
rates a claim for garbage collection. Both ask the graph about fixed arena ids instead of the claims they
are given.
-/

namespace Aimp.Epistemic

namespace KnowledgeGraph

/-- The body of the loop of `support_ratio`. -/
def countEdge (claimId : ClaimArenaId) (n : ℕ × ℕ) (edge : EpistemicEdge) : ℕ × ℕ :=
  if edge.toId = claimId then
    match edge.relation with
    | .supports => (n.1 + 1, n.2)
    | .contradicts => (n.1, n.2 + 1)
    | .derivedFrom | .sharedSource => n
  else n

/-- `KnowledgeGraph::support_ratio`: the numbers of `Supports` and of `Contradicts` edges to a claim. -/
def supportRatio (g : KnowledgeGraph) (claimId : ClaimArenaId) : ℕ × ℕ :=
  g.edges.foldl (countEdge claimId) (0, 0)

end KnowledgeGraph

/-- `ContradictionOutcome`. -/
inductive ContradictionOutcome where
  | preferA (bPenalty : LogOdds)
  | preferB (aPenalty : LogOdds)
  | undecided
deriving DecidableEq

namespace EvidenceWeightedContradictionResolver

/-- The penalty of the claim that is not preferred. -/
def penalty : LogOdds := ⟨-2000, by decide⟩

/-- `score_a` or `score_b`: the weighted confidence, and 500 for each `Supports` edge. -/
def score (reputations : Reputations) (claim : Claim) (supports : ℕ) : ℤ :=
  ((reputations claim.origin).weightEvidence claim.declaredConfidence).value + supports * 500

/-- `EvidenceWeightedContradictionResolver::resolve`: the supports are those of the arena ids 0 and 1. -/
def resolve (claimA claimB : Claim) (g : KnowledgeGraph) (reputations : Reputations) :
    ContradictionOutcome :=
  let scoreA := score reputations claimA (g.supportRatio 0).1
  let scoreB := score reputations claimB (g.supportRatio 1).1
  if scoreA > scoreB + 1000 then .preferA penalty
  else if scoreB > scoreA + 1000 then .preferB penalty
  else .undecided

end EvidenceWeightedContradictionResolver

/-- `RelevanceScorer::gc_threshold`. -/
def gcThreshold : ℕ := 1000

/-- `DependencyAwareScorer`. -/
structure DependencyAwareScorer where
  halfLifeTicks : ℕ

namespace DependencyAwareScorer

/-- `DependencyAwareScorer::default`. -/
def default : DependencyAwareScorer := ⟨1000⟩

/-- `current_tick`: the latest of the active intents, or the tick of the claim itself. -/
def currentTick (claim : Claim) (activeIntents : List Claim) : ℕ :=
  ((activeIntents.map fun c => c.tick.val).max?).getD claim.tick.val

/-- `DependencyAwareScorer::score`: the graph is asked about the arena id 0. -/
def score (s : DependencyAwareScorer) (claim : Claim) (activeIntents : List Claim)
    (g : KnowledgeGraph) : ℕ :=
  if !(g.dependents 0).isEmpty then 10000
  else if 0 < (g.supportRatio 0).1 then 8000
  else if (g.supportRatio 0).1 < (g.supportRatio 0).2 then 500
  else if s.halfLifeTicks = 0 then 0
  else
    let decaySteps := (currentTick claim activeIntents - claim.tick.val) / s.halfLifeTicks
    if 14 ≤ decaySteps then 0 else 10000 >>> decaySteps

end DependencyAwareScorer

end Aimp.Epistemic
