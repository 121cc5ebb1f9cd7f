import Aimp.Epistemic.LogOdds

/-!
# Claims

The knowledge claims of the epistemic layer, with the fields that aggregation and trust propagation
read. `Blake3` stands for the hash function throughout.
-/

namespace Aimp.Epistemic

/-- The hash function: of a byte string, 32 bytes. -/
abbrev Blake3 := List Byte → Hash32

/-- `u64::from_le_bytes(hash.as_bytes()[..8])`. -/
def firstWord (h : Hash32) : U64 :=
  Fin.ofNat (2 ^ 64) ((h.val.take 8).foldr (fun b acc => b.val + 256 * acc) 0)

/-- A position in the arena of claims, which has far fewer entries than a `u32` counts. -/
abbrev ClaimArenaId := ℕ

/-- `SemanticFingerprint`. -/
structure SemanticFingerprint where
  primary : ByteArr 16
  secondary : U64
deriving DecidableEq

/-- `QuantizedEmbedding`: 256 bits in four words. -/
structure QuantizedEmbedding where
  words : List U64
  isQuad : words.length = 4
deriving DecidableEq

/-- `u64::count_ones`. -/
def countOnes (x : U64) : ℕ := (List.range 64).countP fun i => x.val.testBit i

/-- `QuantizedEmbedding::hamming_distance`. -/
def QuantizedEmbedding.hammingDistance (a b : QuantizedEmbedding) : ℕ :=
  ((a.words.zip b.words).map fun w => countOnes (w.1 ^^^ w.2)).sum

@[simp] theorem QuantizedEmbedding.hammingDistance_self (a : QuantizedEmbedding) :
    a.hammingDistance a = 0 := by
  simp [hammingDistance, countOnes, List.zip_eq_zipWith, List.zipWith_self, Function.comp_def]

/-- The type of a claim. -/
inductive ClaimKind where
  | observation (sensorType : Byte) (data : List Byte)
  | inference (modelId : ClaimHash) (inputClaims : List ClaimArenaId) (inferenceType : Byte)
      (weight : LogOdds) (output : List Byte) (reproducible : Bool) (deterministicHash : ClaimHash)
  | intent (action : Byte) (target : List Byte) (constraints : List (Byte × ℕ)) (goal : Byte)
      (utility : ℕ)
  | summary (sourceCount : ℕ) (tickStart tickEnd : U64) (data : List Byte)
      (aggregatedLogodds : LogOdds) (uniqueSources : ℕ) (varianceMilli : ℤ)
      (rangeMin rangeMax : LogOdds)
deriving DecidableEq

/-- `matches!(kind, ClaimKind::Summary { .. })`. -/
def ClaimKind.isSummary : ClaimKind → Bool
  | summary .. => true
  | _ => false

/-- A knowledge claim. -/
structure Claim where
  id : ClaimHash
  fingerprint : SemanticFingerprint
  origin : NodeId
  kind : ClaimKind
  confidence : LogOdds
  evidenceSource : ClaimHash
  tick : U64
  correlationCell : Option U64
  embedding : Option QuantizedEmbedding
  embeddingVersion : ℕ
deriving DecidableEq

namespace Claim

/-- `Claim::declared_confidence`. -/
def declaredConfidence (c : Claim) : LogOdds := c.confidence.clampDeclared

/-- `Claim::origin_bucket`. -/
def originBucket (blake3 : Blake3) (origin : NodeId) : U64 :=
  firstWord (blake3 (asBytes "aimp.correlation.origin.v1" ++ origin.val))

/-- `Claim::effective_correlation_cell`: the declared cell, hashed into a domain of its own, or else the
bucket of the origin. -/
def effectiveCorrelationCell (blake3 : Blake3) (c : Claim) : U64 :=
  c.correlationCell.elim (originBucket blake3 c.origin) fun cell =>
    firstWord (blake3 (asBytes "aimp.correlation.declared.v1" ++ (toLeBytes cell).val))

end Claim

/-- `ReputationTracker::reputation`: what a tracker answers for each origin. -/
abbrev Reputations := NodeId → Reputation

end Aimp.Epistemic
