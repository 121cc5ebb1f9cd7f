import Aimp.Epistemic.Correlation
import Aimp.Epistemic.Graph
import Aimp.Lib.FixedPoint

/-!
# Trust propagation

The two passes of `propagate_trust_correlated`: support flows along the edges that close no cycle until
nothing changes, and then every contradiction takes trust away from its target.
-/

namespace Aimp.Epistemic

/-- Trust by claim; a claim without an entry is neutral. -/
abbrev TrustMap := HashMap ClaimArenaId LogOdds

/-- `trust.get(&v).copied().unwrap_or(LogOdds::NEUTRAL)`. -/
def TrustMap.at (t : TrustMap) (v : ClaimArenaId) : LogOdds := (t.lookup v).getD .neutral

/-- `author_rep`: nothing for a node outside the claim array. -/
def authorRep (claims : List Claim) (reputations : Reputations) (v : ClaimArenaId) : ℤ :=
  (claims[v]?).elim 0 fun c => (reputations c.origin).bps

/-- Temporal decay: an entry is halved for every half-life that its claim is old. -/
def decayedBase (baseTrust : TrustMap) (claims : List Claim) (currentTick halfLifeTicks : ℕ) :
    TrustMap :=
  if 0 < halfLifeTicks ∧ 0 < currentTick then
    baseTrust.mapValues fun v lo => (claims[v]?).elim lo fun c =>
      let decaySteps := (currentTick - c.tick.val) / halfLifeTicks
      if 0 < decaySteps then lo.shiftRight (min decaySteps 30) else lo
  else baseTrust

namespace KnowledgeGraph

/-! ## Pass 1 -/

/-- An edge that carries support: of a supporting relation, and not cyclic. -/
def carries (cyclicEdges : List ℕ) (e : EpistemicEdge × ℕ) : Bool :=
  e.1.relation.isSupport && !cyclicEdges.contains e.2

/-- `total_out`: the strength of all edges of support from a claim. -/
def totalOut (g : KnowledgeGraph) (cyclicEdges : List ℕ) (v : ClaimArenaId) : ℤ :=
  max ((g.adjacency.lookup v).elim 1 fun indices =>
    (((indices.filterMap fun i => (g.edges[i]?).map (·, i)).filter (carries cyclicEdges)).map
      fun e => (e.1.strength.bps : ℤ)).sum) 1

/-- `contribution`: the positive trust of the source, shared out among its edges and weighted by the
reputation of its author. -/
def contribution (g : KnowledgeGraph) (cyclicEdges : List ℕ) (claims : List Claim)
    (reputations : Reputations) (trust : ClaimArenaId → LogOdds) (e : EpistemicEdge) : LogOdds :=
  let fromTrust := (trust e.fromId).positivePart.value
  let shareBps := ((e.strength.bps : ℤ) * 10000).tdiv (g.totalOut cyclicEdges e.fromId)
  .ofInt (((fromTrust * shareBps).tdiv 10000 * authorRep claims reputations e.fromId).tdiv 10000)

/-- What an edge contributes, with the group and the id of its source. -/
def supportEvidence (g : KnowledgeGraph) (cyclicEdges : List ℕ) (claims : List Claim)
    (claimGroups : List CorrelationGroup) (reputations : Reputations)
    (trust : ClaimArenaId → LogOdds) (e : EpistemicEdge) : Evidence where
  lo := g.contribution cyclicEdges claims reputations trust e
  group := (claimGroups[e.fromId]?).getD ⟨0, false⟩
  id := (claims[e.fromId]?).elim (zeros 32) Claim.id

/-- `incoming`: the contributions to each target, in the order of the edges. -/
def incoming (g : KnowledgeGraph) (cyclicEdges : List ℕ) (claims : List Claim)
    (claimGroups : List CorrelationGroup) (reputations : Reputations)
    (trust : ClaimArenaId → LogOdds) : HashMap ClaimArenaId (List Evidence) :=
  (g.edges.zipIdx.filter (carries cyclicEdges)).foldl (fun m e =>
    m.push e.1.toId (g.supportEvidence cyclicEdges claims claimGroups reputations trust e.1)) ∅

/-- Add the discounted support of each target to its base trust. -/
def applySupport (baseTrust : TrustMap) (discountBps : ℕ)
    (incoming : HashMap ClaimArenaId (List Evidence)) (start : TrustMap) : TrustMap :=
  incoming.entries.foldl (fun t e =>
    t.insert e.1 (((t.lookup e.1).getD (baseTrust.at e.1)).update
      (aggregateHierarchical e.2 discountBps unassessedDiscountBps))) start

/-- `changed`: some entry differs from the trust before. -/
def trustChanged (trust newTrust : TrustMap) : Bool :=
  newTrust.entries.any fun e => trust.at e.1 ≠ e.2

/-- The trust after Pass 1. -/
def stabilized (blake3 : Blake3) (g : KnowledgeGraph) (baseTrust : TrustMap) (maxIterations : ℕ)
    (claims : List Claim) (reputations : Reputations) (currentTick halfLifeTicks discountBps : ℕ) :
    TrustMap :=
  let cyclicEdges := g.cyclicEdgeIndices
  let decayed := decayedBase baseTrust claims currentTick halfLifeTicks
  let claimGroups := correlationGroups blake3 claims defaultSupportThreshold
  FixedPoint.iterateUntil trustChanged (fun trust => applySupport baseTrust discountBps
    (g.incoming cyclicEdges claims claimGroups reputations trust.at) decayed) maxIterations decayed

/-! ## Pass 2 -/

/-- The positive trust of the sources of some edges to a target. -/
def weightInto (g : KnowledgeGraph) (trust : ClaimArenaId → LogOdds) (p : Relation → Bool)
    (v : ClaimArenaId) : ℤ :=
  ((g.edges.filter fun e => e.toId = v && p e.relation).map fun e =>
    (trust e.fromId).positivePart.value).sum

/-- `dynamic_alpha_bps`: the share of the contradicting trust, at most `damping_bps`. -/
def dynamicAlphaBps (g : KnowledgeGraph) (trust : ClaimArenaId → LogOdds) (dampingBps : ℕ)
    (v : ClaimArenaId) : ℤ :=
  let weightedSupport := g.weightInto trust Relation.isSupport v
  let weightedContradict := g.weightInto trust (· = .contradicts) v
  let ratio := (wrapI64 (weightedContradict * 10000)).tdiv (weightedSupport + weightedContradict + 1)
  min (ratio % 2 ^ 32) dampingBps

/-- `capped_penalty` of a contradicting edge. -/
def cappedPenalty (g : KnowledgeGraph) (claims : List Claim) (reputations : Reputations)
    (trust : ClaimArenaId → LogOdds) (dampingBps : ℕ) (e : EpistemicEdge) : ℤ :=
  let fromTrust := (trust e.fromId).positivePart.value
  let effectiveWeight := (e.strength.bps * authorRep claims reputations e.fromId).tdiv 10000
  let rawPenalty := (fromTrust * effectiveWeight).tdiv 10000
  let targetTrust := (trust e.toId).value
  let maxPenalty := if 0 < targetTrust then
    (targetTrust * g.dynamicAlphaBps trust dampingBps e.toId).tdiv 10000 else |rawPenalty|
  min |rawPenalty| maxPenalty

/-- `penalties`: the penalties of each target, added up. -/
def penalties (g : KnowledgeGraph) (claims : List Claim) (reputations : Reputations)
    (trust : ClaimArenaId → LogOdds) (dampingBps : ℕ) : HashMap ClaimArenaId ℤ :=
  (g.edges.filter fun e => e.relation = .contradicts).foldl (fun m e =>
    m.insert e.toId (wrapI64 ((m.lookup e.toId).getD 0 +
      g.cappedPenalty claims reputations trust dampingBps e))) ∅

/-- What a total penalty takes from a node, under the global cap. -/
def globallyCapped (dampingBps : ℕ) (target : LogOdds) (totalPenalty : ℤ) : ℤ :=
  let globalMax := if 0 < target.value then (target.value * dampingBps).tdiv 10000 else totalPenalty
  clamp 0 i32Max (min totalPenalty globalMax)

/-- Take the penalties away from the frozen trust. -/
def applyPenalties (dampingBps : ℕ) (frozen : TrustMap) (penalties : HashMap ClaimArenaId ℤ) :
    TrustMap :=
  penalties.entries.foldl (fun t e =>
    t.insert e.1 ((t.at e.1).saturatingSub (globallyCapped dampingBps (frozen.at e.1) e.2))) frozen

/-! ## Propagation -/

/-- `KnowledgeGraph::propagate_trust_correlated`. -/
def propagateTrustCorrelated (blake3 : Blake3) (g : KnowledgeGraph) (baseTrust : TrustMap)
    (maxIterations dampingBps : ℕ) (claims : List Claim) (reputations : Reputations)
    (currentTick halfLifeTicks discountBps : ℕ) : TrustMap :=
  let trust := g.stabilized blake3 baseTrust maxIterations claims reputations currentTick
    halfLifeTicks discountBps
  applyPenalties dampingBps trust (g.penalties claims reputations trust.at dampingBps)

/-- `KnowledgeGraph::propagate_trust_advanced`. -/
def propagateTrustAdvanced (blake3 : Blake3) (g : KnowledgeGraph) (baseTrust : TrustMap)
    (maxIterations dampingBps : ℕ) (claims : List Claim) (reputations : Reputations)
    (currentTick halfLifeTicks : ℕ) : TrustMap :=
  g.propagateTrustCorrelated blake3 baseTrust maxIterations dampingBps claims reputations currentTick
    halfLifeTicks defaultDiscountBps

/-- `KnowledgeGraph::propagate_trust_full`. -/
def propagateTrustFull (blake3 : Blake3) (g : KnowledgeGraph) (baseTrust : TrustMap)
    (maxIterations dampingBps : ℕ) (claims : List Claim) (reputations : Reputations) : TrustMap :=
  g.propagateTrustAdvanced blake3 baseTrust maxIterations dampingBps claims reputations 0 0

end KnowledgeGraph

end Aimp.Epistemic
