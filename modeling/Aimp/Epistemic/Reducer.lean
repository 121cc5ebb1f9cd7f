import Aimp.Epistemic.Correlation
import Mathlib.Data.Prod.Lex
import Mathlib.Order.WithBot

/-!
# Reduction of claims to summaries

`ExactMatchReducer`. `reduce_with_reputation_correlated` weights the evidence of a bucket by the
reputation of its authors, discounts it for correlation and makes one summary of it; `reduce` adds the
declared confidences up. `reduce_epoch_aligned` sorts the claims into buckets and reduces each of them.
-/

namespace Aimp.Epistemic

/-- `ExactMatchReducer::can_reduce`: at least two claims, all of one fingerprint. -/
def canReduce (claims : List Claim) : Bool :=
  2 ≤ claims.length && claims.all fun c => claims.head?.map Claim.fingerprint == some c.fingerprint

/-- `dedup_by_key(|c| c.id)`: of adjacent claims with one id, keep the first. -/
def dedupById : List Claim → List Claim
  | [] => []
  | c :: cs => c :: dedupFrom c cs
where
  /-- The claims kept after `c`. -/
  dedupFrom (c : Claim) : List Claim → List Claim
    | [] => []
    | d :: ds => if d.id = c.id then dedupFrom c ds else d :: dedupFrom d ds

/-- `sorted`: the claims by id, each id once. -/
def sortedById (claims : List Claim) : List Claim :=
  dedupById (claims.insertionSort fun a b => a.id ≤ b.id)

/-- The data of the claims that can be reduced. -/
def ClaimKind.data? : ClaimKind → Option (List Byte)
  | observation _ data => some data
  | inference .. => none
  | intent .. => none
  | summary _ _ _ data .. => some data

/-- The sources counted so far, and their evidence. -/
abbrev Gathered := List ClaimHash × List Evidence

/-- Count a claim, unless its author has no reputation or its source was counted before. -/
def gather (reputations : Reputations) (s : Gathered) (c : Claim × CorrelationGroup) : Gathered :=
  if (reputations c.1.origin).bps = 0 then s
  else if c.1.evidenceSource ∈ s.1 then s
  else (s.1 ++ [c.1.evidenceSource],
    s.2 ++ [⟨(reputations c.1.origin).weightEvidence c.1.declaredConfidence, c.2, c.1.id⟩])

/-- `variance_milli`, clamped to an `i64`. -/
def varianceMilli (aggregated : LogOdds) (values : List ℤ) : ℤ :=
  let n : ℤ := values.length
  let mean := if 0 < n then aggregated.value.tdiv n else 0
  if 1 < n then
    clamp i64Min i64Max ((values.map fun x => (x - mean) * (x - mean)).sum.tdiv n)
  else 0

/-- The smallest and the largest of the values, by the given choice between two. -/
def extreme {α : Type} (choose : α → α → α) (default : α) : List α → α
  | [] => default
  | x :: xs => xs.foldl choose x

/-- `i32::to_le_bytes`. -/
def i32Bytes (x : LogOdds) : List Byte := leBytes 4 (x.value % 2 ^ 32).toNat

/-- `i64::to_le_bytes`. -/
def i64Bytes (x : ℤ) : List Byte := leBytes 8 (x % 2 ^ 64).toNat

def LogOdds.min (a b : LogOdds) : LogOdds := if b.value < a.value then b else a
def LogOdds.max (a b : LogOdds) : LogOdds := if a.value ≤ b.value then b else a

/-- `ExactMatchReducer::reduce_with_reputation_correlated`. -/
def reduceWithReputationCorrelated (blake3 : Blake3) (claims : List Claim)
    (reputations : Reputations) (discountBps : ℕ) : Option Claim :=
  if canReduce claims then
    let sorted := sortedById claims
    sorted.head?.bind fun first => first.kind.data?.bind fun data =>
      let groups := correlationGroups blake3 sorted defaultSupportThreshold
      let (uniqueSources, evidenceTuples) := (sorted.zip groups).foldl (gather reputations) ([], [])
      if evidenceTuples.isEmpty then none
      else
        let aggregated := aggregateHierarchical evidenceTuples discountBps unassessedDiscountBps
        let evidenceLogodds := evidenceTuples.map Evidence.lo
        let variance := varianceMilli aggregated (evidenceLogodds.map LogOdds.value)
        let rangeMin := extreme LogOdds.min .neutral evidenceLogodds
        let rangeMax := extreme LogOdds.max .neutral evidenceLogodds
        let tickStart := extreme min 0 (sorted.map Claim.tick)
        let tickEnd := extreme max 0 (sorted.map Claim.tick)
        let id := blake3 (first.fingerprint.primary.val ++ leBytes 4 uniqueSources.length ++
          (toLeBytes tickStart).val ++ (toLeBytes tickEnd).val ++ i32Bytes aggregated ++
          i64Bytes variance ++ first.correlationCell.elim [] fun cell => (toLeBytes cell).val)
        some {
          id := id
          fingerprint := first.fingerprint
          origin := zeros 32
          kind := .summary (claims.length % 2 ^ 32) tickStart tickEnd data aggregated
            (uniqueSources.length % 2 ^ 32) variance rangeMin rangeMax
          confidence := aggregated
          evidenceSource := id
          tick := tickEnd
          correlationCell := first.correlationCell
          embedding := none
          embeddingVersion := 0 }
  else none

/-- `ExactMatchReducer::reduce_with_reputation`. -/
def reduceWithReputation (blake3 : Blake3) (claims : List Claim) (reputations : Reputations) :
    Option Claim :=
  reduceWithReputationCorrelated blake3 claims reputations defaultDiscountBps

/-! ## Without reputations -/

/-- The length of the window of a summary, its log-odds and its data. -/
abbrev Window := U64 × LogOdds × List Byte

/-- The window of a summary; `te - ts` wraps, as it does in a release build. -/
def ClaimKind.window? : ClaimKind → Option Window
  | observation .. => none
  | inference .. => none
  | intent .. => none
  | summary _ tickStart tickEnd data aggregated .. => some (tickEnd - tickStart, aggregated, data)

/-- `max_by_key(|(ts, te, lo, _)| (*te - *ts, lo.value()))`, which takes the last one of equals. -/
def widerWindow (best w : Window) : Window :=
  if w.1 < best.1 ∨ w.1 = best.1 ∧ w.2.1.value < best.2.1.value then best else w

/-- The data of the first claim or, if that is a summary, of the best summary. -/
def reducedData (sorted : List Claim) : ClaimKind → Option (List Byte)
  | .observation _ data => some data
  | .inference .. => none
  | .intent .. => none
  | .summary _ _ _ data .. =>
    some (extreme widerWindow (0, .neutral, data) (sorted.filterMap fun c => c.kind.window?)).2.2

/-- Count a claim, unless its source was counted before. -/
def countSource (s : List ClaimHash × List LogOdds) (c : Claim) : List ClaimHash × List LogOdds :=
  if c.evidenceSource ∈ s.1 then s
  else (s.1 ++ [c.evidenceSource], s.2 ++ [c.declaredConfidence])

/-- The summary of claims with the given ticks, of which `first` comes first. -/
def summaryOf (blake3 : Blake3) (first : Claim) (sourceCount uniqueSources : ℕ) (ticks : List U64)
    (data : List Byte) (aggregated : LogOdds) (evidenceLogodds : List LogOdds) : Claim :=
  let variance := varianceMilli aggregated (evidenceLogodds.map LogOdds.value)
  let rangeMin := extreme LogOdds.min .neutral evidenceLogodds
  let rangeMax := extreme LogOdds.max .neutral evidenceLogodds
  let tickStart := extreme min 0 ticks
  let tickEnd := extreme max 0 ticks
  let id := blake3 (first.fingerprint.primary.val ++ leBytes 4 uniqueSources ++
    (toLeBytes tickStart).val ++ (toLeBytes tickEnd).val ++ i32Bytes aggregated ++
    i64Bytes variance ++ first.correlationCell.elim [] fun cell => (toLeBytes cell).val)
  { id := id
    fingerprint := first.fingerprint
    origin := zeros 32
    kind := .summary (sourceCount % 2 ^ 32) tickStart tickEnd data aggregated
      (uniqueSources % 2 ^ 32) variance rangeMin rangeMax
    confidence := aggregated
    evidenceSource := id
    tick := tickEnd
    correlationCell := first.correlationCell
    embedding := none
    embeddingVersion := 0 }

/-- `ExactMatchReducer::reduce`. -/
def reduce (blake3 : Blake3) (claims : List Claim) : Option Claim :=
  if canReduce claims then
    let sorted := sortedById claims
    sorted.head?.bind fun first => (reducedData sorted first.kind).map fun data =>
      let (uniqueSources, evidenceLogodds) := sorted.foldl countSource ([], [])
      summaryOf blake3 first claims.length uniqueSources.length (sorted.map Claim.tick) data
        (.aggregate evidenceLogodds) evidenceLogodds
  else none

/-! ## Epochs -/

/-- Epoch and correlation cell, in the order of the `BTreeMap`. -/
abbrev BucketKey := ℕ ×ₗ WithBot U64

/-- The key of the bucket of a claim. -/
def bucketKey (gridSize : ℕ) (c : Claim) : BucketKey :=
  toLex (c.tick.val / gridSize, c.correlationCell.elim ⊥ fun cell => (cell : WithBot U64))

/-- The claims with a key, in the order of the claims. -/
def bucketOf (gridSize : ℕ) (claims : List Claim) (key : BucketKey) : List Claim :=
  claims.filter fun c => bucketKey gridSize c = key

/-- `buckets`: the claims by epoch and correlation cell. -/
def buckets (gridSize : ℕ) (claims : List Claim) : List (List Claim) :=
  ((claims.map (bucketKey gridSize)).dedup.insertionSort (· ≤ ·)).map (bucketOf gridSize claims)

/-- `ExactMatchReducer::reduce_epoch_aligned_correlated`. -/
def reduceEpochAlignedCorrelated (blake3 : Blake3) (claims : List Claim) (gridSize : ℕ)
    (reputations : Option Reputations) (discountBps : ℕ) : List Claim :=
  if gridSize = 0 ∨ claims.length < 2 then []
  else (buckets gridSize claims).filterMap fun bucket =>
    reputations.elim (reduce blake3 bucket) fun rep =>
      reduceWithReputationCorrelated blake3 bucket rep discountBps

/-- `ExactMatchReducer::reduce_epoch_aligned`. -/
def reduceEpochAligned (blake3 : Blake3) (claims : List Claim) (gridSize : ℕ)
    (reputations : Option Reputations) : List Claim :=
  reduceEpochAlignedCorrelated blake3 claims gridSize reputations defaultDiscountBps

end Aimp.Epistemic
