import Aimp.Epistemic.Checked
import Aimp.Epistemic.Reducer

/-!
# Overflow checks of the reducers

Both reducers with every plain operation checked, as the aggregation is in `Aimp.Epistemic.Checked`: the
windows of the summaries, the aggregation of the weighted evidence, and the variance.
-/

namespace Aimp.Epistemic

/-- The result of a plain `i128` operation. -/
def checkedI128 (x : ℤ) : Option ℤ := if -2 ^ 127 ≤ x ∧ x < 2 ^ 127 then some x else none

/-- `diff * diff`, for the difference between a value and the mean. -/
def checkedSquare (mean x : ℤ) : Option ℤ := do
  let diff ← checkedI128 (x - mean)
  checkedI128 (diff * diff)

/-- `sum()`. -/
def checkedSum (l : List ℤ) : Option ℤ := l.foldlM (fun sum x => checkedI128 (sum + x)) 0

/-- `variance_milli`. -/
def checkedVarianceMilli (aggregated : LogOdds) (values : List ℤ) : Option ℤ :=
  let n : ℤ := values.length
  let mean := if 0 < n then aggregated.value.tdiv n else 0
  if 1 < n then do
    let squares ← values.mapM (checkedSquare mean)
    let sumSq ← checkedSum squares
    pure (clamp i64Min i64Max (sumSq.tdiv n))
  else some 0

/-- What `reduce` takes from a summary: the ticks of its window, its log-odds and its data. -/
def ClaimKind.span? : ClaimKind → Option (U64 × U64 × LogOdds × List Byte)
  | observation .. => none
  | inference .. => none
  | intent .. => none
  | summary _ tickStart tickEnd data aggregated .. => some (tickStart, tickEnd, aggregated, data)

/-- The key of `max_by_key`, with `*te - *ts`. -/
def checkedWindow (span : U64 × U64 × LogOdds × List Byte) : Option Window :=
  if span.1 ≤ span.2.1 then some (span.2.1 - span.1, span.2.2) else none

/-- The data of the first claim or, if that is a summary, of the best summary. -/
def checkedReducedData (sorted : List Claim) : ClaimKind → Option (Option (List Byte))
  | .observation _ data => some (some data)
  | .inference .. => some none
  | .intent .. => some none
  | .summary _ _ _ data .. => do
    let windows ← (sorted.filterMap fun c => c.kind.span?).mapM checkedWindow
    pure (some (extreme widerWindow (0, .neutral, data) windows).2.2)

/-- The summary with a variance that has been computed. -/
def summaryWith (blake3 : Blake3) (first : Claim) (sourceCount uniqueSources : ℕ) (ticks : List U64)
    (data : List Byte) (aggregated : LogOdds) (variance : ℤ) (evidenceLogodds : List LogOdds) : Claim :=
  let rangeMin := extreme LogOdds.min .neutral evidenceLogodds
  let rangeMax := extreme LogOdds.max .neutral evidenceLogodds
  let tickStart := extreme min 0 ticks
  let tickEnd := extreme max 0 ticks
  let id := blake3 (first.fingerprint.primary.val ++ leBytes 4 uniqueSources ++
    (toLeBytes tickStart).val ++ (toLeBytes tickEnd).val ++ i32Bytes aggregated ++
    i64Bytes variance ++ first.correlationCell.elim [] fun cell => (toLeBytes cell).val)
  { id := id
    fingerprint := first.fingerprint
    origin := zeros 32
    kind := .summary (sourceCount % 2 ^ 32) tickStart tickEnd data aggregated
      (uniqueSources % 2 ^ 32) variance rangeMin rangeMax
    confidence := aggregated
    evidenceSource := id
    tick := tickEnd
    correlationCell := first.correlationCell
    embedding := none
    embeddingVersion := 0 }

/-- `ExactMatchReducer::reduce`. -/
def checkedReduce (blake3 : Blake3) (claims : List Claim) : Option (Option Claim) :=
  if canReduce claims then
    let sorted := sortedById claims
    sorted.head?.elim (some none) fun first =>
      (checkedReducedData sorted first.kind).bind fun reduced =>
        reduced.elim (some none) fun data =>
          let (uniqueSources, evidenceLogodds) := sorted.foldl countSource ([], [])
          let aggregated := LogOdds.aggregate evidenceLogodds
          (checkedVarianceMilli aggregated (evidenceLogodds.map LogOdds.value)).map fun variance =>
            some (summaryWith blake3 first claims.length uniqueSources.length (sorted.map Claim.tick)
              data aggregated variance evidenceLogodds)
  else some none

/-- `ExactMatchReducer::reduce_with_reputation_correlated`. -/
def checkedReduceWithReputationCorrelated (blake3 : Blake3) (claims : List Claim)
    (reputations : Reputations) (discountBps : ℕ) : Option (Option Claim) :=
  if canReduce claims then
    let sorted := sortedById claims
    sorted.head?.elim (some none) fun first => first.kind.data?.elim (some none) fun data =>
      let groups := correlationGroups blake3 sorted defaultSupportThreshold
      let (uniqueSources, evidenceTuples) := (sorted.zip groups).foldl (gather reputations) ([], [])
      if evidenceTuples.isEmpty then some none
      else
        (checkedAggregateHierarchical evidenceTuples discountBps unassessedDiscountBps).bind
          fun aggregated =>
            let evidenceLogodds := evidenceTuples.map Evidence.lo
            (checkedVarianceMilli aggregated (evidenceLogodds.map LogOdds.value)).map fun variance =>
              some (summaryWith blake3 first claims.length uniqueSources.length
                (sorted.map Claim.tick) data aggregated variance evidenceLogodds)
  else some none

end Aimp.Epistemic
