import Aimp.Epistemic.Claim
import Aimp.Lib.DfsCycles
import Aimp.Lib.HashMap
import Aimp.Lib.Worklist

/-!
# The knowledge graph

Epistemic edges between claims, with the adjacency index that `add_edge` maintains, and the searches for
the dependents of a claim, for cycles of support and for the edges that close them.
-/

namespace Aimp.Epistemic

/-- `Relation`. -/
inductive Relation where
  | supports
  | contradicts
  | derivedFrom
  | sharedSource
deriving DecidableEq

/-- `Supports` or `DerivedFrom`. -/
def Relation.isSupport : Relation → Bool
  | supports => true
  | contradicts => false
  | derivedFrom => true
  | sharedSource => false

/-- `EpistemicEdge`. -/
structure EpistemicEdge where
  fromId : ClaimArenaId
  toId : ClaimArenaId
  relation : Relation
  strength : Reputation
deriving DecidableEq

/-- `RawEpistemicEdge`. -/
structure RawEpistemicEdge where
  fromHash : ClaimHash
  fromFingerprint : SemanticFingerprint
  toHash : ClaimHash
  toFingerprint : SemanticFingerprint
  relation : Relation
  strength : Reputation
deriving DecidableEq

/-- The indices of the edges from a claim. -/
def edgesFrom (edges : List EpistemicEdge) (v : ClaimArenaId) : List ℕ :=
  (edges.zipIdx.filter fun e => e.1.fromId = v).map Prod.snd

/-- `KnowledgeGraph`. -/
structure KnowledgeGraph where
  edges : List EpistemicEdge
  adjacency : HashMap ClaimArenaId (List ℕ)
  adjacent : ∀ v, (adjacency.lookup v).getD [] = edgesFrom edges v

namespace KnowledgeGraph

/-- `KnowledgeGraph::new`. -/
def new : KnowledgeGraph := ⟨[], ∅, fun _ => rfl⟩

/-- `KnowledgeGraph::add_edge`. -/
def addEdge (g : KnowledgeGraph) (edge : EpistemicEdge) : KnowledgeGraph where
  edges := g.edges ++ [edge]
  adjacency := g.adjacency.push edge.fromId g.edges.length
  adjacent := by
    intro v
    rw [HashMap.lookup_push, g.adjacent, edgesFrom, edgesFrom, List.zipIdx_append, List.filter_append,
      List.map_append]
    congr 1
    by_cases h : v = edge.fromId
    · simp [h]
    · simp [h, Ne.symm h]

/-! ## Building the graph -/

/-- `id_map`: the last position of each id. -/
def idMap (claims : List Claim) : HashMap ClaimHash ClaimArenaId :=
  claims.zipIdx.foldl (fun m c => m.insert c.1.id c.2) ∅

/-- `fingerprint_map`: the first position of each fingerprint, or the last one of a summary. -/
def fingerprintMap (claims : List Claim) : HashMap SemanticFingerprint ClaimArenaId :=
  claims.zipIdx.foldl (fun m c =>
    if c.1.kind.isSummary then m.insert c.1.fingerprint c.2
    else (m.lookup c.1.fingerprint).elim (m.insert c.1.fingerprint c.2) fun _ => m) ∅

/-- An endpoint of a raw edge: by its hash, or else by its fingerprint. -/
def resolve (claims : List Claim) (hash : ClaimHash) (fingerprint : SemanticFingerprint) :
    Option ClaimArenaId :=
  ((idMap claims).lookup hash).or ((fingerprintMap claims).lookup fingerprint)

/-- `KnowledgeGraph::build_from_claims`. -/
def buildFromClaims (claims : List Claim) (rawEdges : List RawEpistemicEdge) : KnowledgeGraph :=
  rawEdges.foldl (fun g raw =>
    (resolve claims raw.fromHash raw.fromFingerprint).elim g fun fromId =>
      (resolve claims raw.toHash raw.toFingerprint).elim g fun toId =>
        g.addEdge ⟨fromId, toId, raw.relation, raw.strength⟩) new

/-! ## Dependents -/

/-- The targets of the edges of support from a claim, in the order of the edges. -/
def supportTargets (g : KnowledgeGraph) (v : ClaimArenaId) : List ClaimArenaId :=
  ((((g.adjacency.lookup v).getD []).filterMap fun i => g.edges[i]?).filter
    fun e => e.relation.isSupport).map EpistemicEdge.toId

/-- The loop of `dependents`, stopped after a number of rounds. -/
def dependentsLoop (g : KnowledgeGraph) (rounds : ℕ) (claimId : ClaimArenaId) :
    Worklist.State ClaimArenaId :=
  Worklist.search g.supportTargets rounds claimId

/-- `KnowledgeGraph::dependents`. -/
def dependents (g : KnowledgeGraph) (claimId : ClaimArenaId) : List ClaimArenaId :=
  (g.dependentsLoop (g.edges.length + 1) claimId).found

/-! ## Cycles -/

/-- The endpoints of the edges, in ascending order. -/
def allNodes (g : KnowledgeGraph) : List ClaimArenaId :=
  ((g.edges.flatMap fun e => [e.fromId, e.toId]).insertionSort (· ≤ ·)).dedup

/-- The edges from a claim with their indices, by target. -/
def sortedOut (g : KnowledgeGraph) (v : ClaimArenaId) : List (ℕ × EpistemicEdge) :=
  (((g.adjacency.lookup v).getD []).filterMap fun i => (g.edges[i]?).map (i, ·)).insertionSort
    fun a b => a.2.toId ≤ b.2.toId

/-- The edges of support among them, as the search scans them. -/
def supportOut (g : KnowledgeGraph) (v : ClaimArenaId) : List (ℕ × ClaimArenaId) :=
  ((g.sortedOut v).filter fun e => e.2.relation.isSupport).map fun e => (e.1, e.2.toId)

/-- `KnowledgeGraph::detect_cycles`: the cycles that a depth-first search from all claims closes. -/
def detectCycles (g : KnowledgeGraph) : List (List ClaimArenaId) :=
  (Dfs.findCycles g.supportOut g.allNodes.length g.allNodes).cycles

/-- `KnowledgeGraph::cyclic_edge_indices`: the back edges of a depth-first search from all claims. -/
def cyclicEdgeIndices (g : KnowledgeGraph) : List ℕ :=
  (Dfs.search g.supportOut g.allNodes.length g.allNodes).marked

end KnowledgeGraph

end Aimp.Epistemic
