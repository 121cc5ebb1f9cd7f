import Aimp.Epistemic.Correlation
import Aimp.Epistemic.Graph
import Aimp.Epistemic.Reputation

/-!
# Semantic topology

`AutoEdgeGenerator`: edges of support and contradiction between claims, from the Hamming distances of
their embeddings.
-/

namespace Aimp.Epistemic

/-- `AutoEdgeConfig`. -/
structure AutoEdgeConfig where
  supportThresholdBits : ℕ
  contradictThresholdBits : ℕ
  maxKNearest : ℕ

namespace AutoEdgeConfig

/-- `AutoEdgeConfig::default`. -/
def default : AutoEdgeConfig where
  supportThresholdBits := defaultSupportThreshold
  contradictThresholdBits := 200
  maxKNearest := 10

/-- What two claims at a distance are to each other, if the distance says enough. -/
def relation (config : AutoEdgeConfig) (distance : ℕ) : Option Relation :=
  if distance ≤ config.supportThresholdBits then some .supports
  else if config.contradictThresholdBits ≤ distance then some .contradicts
  else none

/-- `strength_bps`. -/
def strengthBps (config : AutoEdgeConfig) (distance : ℕ) : Relation → ℕ
  | .supports =>
    let t := max config.supportThresholdBits 1
    let raw := 10000 - distance * 9000 / t
    max 1000 (min raw 10000)
  | .contradicts =>
    let range := max (256 - config.contradictThresholdBits) 1
    let above := distance - config.contradictThresholdBits
    let raw := 1000 + above * 9000 / range
    max 1000 (min raw 10000)
  | _ => 5000

end AutoEdgeConfig

/-- The edges generated so far, and how many of them each claim has. -/
structure EdgeBatch where
  edges : List RawEpistemicEdge
  edgeCounts : HashMap ClaimHash ℕ

/-- `edge_counts.get(&id).copied().unwrap_or(0)`. -/
def EdgeBatch.count (b : EdgeBatch) (id : ClaimHash) : ℕ := (b.edgeCounts.lookup id).getD 0

/-- `*edge_counts.entry(id).or_insert(0) += 1`. -/
def EdgeBatch.countUp (counts : HashMap ClaimHash ℕ) (id : ClaimHash) : HashMap ClaimHash ℕ :=
  counts.insert id ((counts.lookup id).getD 0 + 1)

/-- A claim with the embedding it carries. -/
abbrev EmbeddedClaim := Claim × QuantizedEmbedding

/-- The claims with embeddings, sorted by their ids. -/
def withEmbedding (claims : List Claim) : List EmbeddedClaim :=
  (claims.filterMap fun c => c.embedding.map (c, ·)).insertionSort fun a b => a.1.id ≤ b.1.id

/-- `AutoEdgeGenerator`. -/
structure AutoEdgeGenerator where
  config : AutoEdgeConfig

namespace AutoEdgeGenerator

/-- The edge from one claim to another one of a relation to it. -/
def edge (g : AutoEdgeGenerator) (c₁ c₂ : EmbeddedClaim) (rel : Relation) : RawEpistemicEdge where
  fromHash := c₁.1.id
  fromFingerprint := c₁.1.fingerprint
  toHash := c₂.1.id
  toFingerprint := c₂.1.fingerprint
  relation := rel
  strength := .fromBps (g.config.strengthBps (c₁.2.hammingDistance c₂.2) rel)

/-- The loop body for a pair of claims. -/
def visitPair (g : AutoEdgeGenerator) (b : EdgeBatch) (p : EmbeddedClaim × EmbeddedClaim) : EdgeBatch :=
  let (c₁, c₂) := p
  -- embeddings of different versions are not comparable
  if c₁.1.embeddingVersion ≠ c₂.1.embeddingVersion then b
  else if g.config.maxKNearest ≤ b.count c₁.1.id ∨ g.config.maxKNearest ≤ b.count c₂.1.id then b
  else
    (g.config.relation (c₁.2.hammingDistance c₂.2)).elim b fun rel =>
      ⟨b.edges ++ [g.edge c₁ c₂ rel],
        EdgeBatch.countUp (EdgeBatch.countUp b.edgeCounts c₁.1.id) c₂.1.id⟩

/-- `AutoEdgeGenerator::generate_edges`. -/
def generateEdges (g : AutoEdgeGenerator) (claims : List Claim) : List RawEpistemicEdge :=
  if (withEmbedding claims).length < 2 then []
  else ((orderedPairs (withEmbedding claims)).foldl g.visitPair ⟨[], ∅⟩).edges

end AutoEdgeGenerator

end Aimp.Epistemic
