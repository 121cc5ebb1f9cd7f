import Aimp.Epistemic.Claim
import Aimp.Lib.HashMap
import Aimp.Lib.UnionFind

/-!
# Correlation groups

`correlation_groups`: claims with consistent embeddings are clustered by Hamming distance, all others
are grouped by their declared cell or their origin.
-/

namespace Aimp.Epistemic

/-- `DEFAULT_SUPPORT_THRESHOLD`. -/
def defaultSupportThreshold : ℕ := 30

/-- Pass 0: the first embedding seen for each content, and the contents seen with another one. -/
structure SeenEmbeddings where
  seen : HashMap (ByteArr 16) QuantizedEmbedding
  inconsistent : List (ByteArr 16)

namespace SeenEmbeddings

def note (s : SeenEmbeddings) (c : Claim) : SeenEmbeddings :=
  c.embedding.elim s fun e =>
    (s.seen.lookup c.fingerprint.primary).elim
      { s with seen := s.seen.insert c.fingerprint.primary e } fun prev =>
      if prev ≠ e then { s with inconsistent := c.fingerprint.primary :: s.inconsistent } else s

end SeenEmbeddings

/-- The contents that are claimed with different embeddings. -/
def inconsistentContents (claims : List Claim) : List (ByteArr 16) :=
  (claims.foldl SeenEmbeddings.note ⟨∅, []⟩).inconsistent

/-- A claim is assessable if it carries an embedding and its content is consistent. -/
def assessable (inconsistent : List (ByteArr 16)) (c : Claim) : Bool :=
  c.embedding.isSome && !inconsistent.contains c.fingerprint.primary

/-- Both claims carry embeddings, at most `thresholdBits` apart. -/
def withinThreshold (thresholdBits : ℕ) (a b : Claim) : Bool :=
  a.embedding.any fun e => b.embedding.any fun e' => e.hammingDistance e' ≤ thresholdBits

/-- The pairs of elements of a list at positions `i < j`, by `i` and then by `j`. -/
def orderedPairs {α : Type} : List α → List (α × α)
  | [] => []
  | x :: xs => xs.map (x, ·) ++ orderedPairs xs

/-- The positions that the clustering loop joins. -/
def closePairs (inconsistent : List (ByteArr 16)) (thresholdBits : ℕ) (claims : List Claim) :
    List (ℕ × ℕ) :=
  ((orderedPairs claims.zipIdx).filter fun p =>
    assessable inconsistent p.1.1 && assessable inconsistent p.2.1 &&
      withinThreshold thresholdBits p.1.1 p.2.1).map fun p => (p.1.2, p.2.2)

/-- The parents while the anchors are collected, and the smallest id found below each root. -/
abbrev Anchors := (ℕ → ℕ) × HashMap ℕ ClaimHash

/-- Count a claim towards the anchor of its component. -/
def noteAnchor (n : ℕ) (inconsistent : List (ByteArr 16)) (s : Anchors) (c : Claim × ℕ) :
    Anchors :=
  if assessable inconsistent c.1 then
    let root := UnionFind.find n s.1 c.2
    (root.1, s.2.insert root.2 ((s.2.lookup root.2).elim c.1.id fun m =>
      if c.1.id < m then c.1.id else m))
  else s

/-- The key of the cluster with the given anchor. -/
def clusterKey (blake3 : Blake3) (anchor : ClaimHash) : U64 :=
  firstWord (blake3 (asBytes "aimp.correlation.cluster.v2" ++ anchor.val))

/-- The groups of the claims from some position on. -/
def groupsFrom (blake3 : Blake3) (n : ℕ) (inconsistent : List (ByteArr 16))
    (minId : HashMap ℕ ClaimHash) : (ℕ → ℕ) → List (Claim × ℕ) → List CorrelationGroup
  | _, [] => []
  | parent, c :: rest =>
    if assessable inconsistent c.1 then
      let root := UnionFind.find n parent c.2
      ⟨clusterKey blake3 ((minId.lookup root.2).getD (zeros 32)), true⟩ ::
        groupsFrom blake3 n inconsistent minId root.1 rest
    else
      ⟨c.1.effectiveCorrelationCell blake3, false⟩ ::
        groupsFrom blake3 n inconsistent minId parent rest

/-- `correlation_groups`. -/
def correlationGroups (blake3 : Blake3) (claims : List Claim) (thresholdBits : ℕ) :
    List CorrelationGroup :=
  let n := claims.length
  let inconsistent := inconsistentContents claims
  let parent := UnionFind.unionAll n id (closePairs inconsistent thresholdBits claims)
  let anchors := claims.zipIdx.foldl (noteAnchor n inconsistent) (parent, ∅)
  groupsFrom blake3 n inconsistent anchors.2 anchors.1 claims.zipIdx

end Aimp.Epistemic
