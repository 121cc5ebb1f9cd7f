import Aimp.Epistemic.LogOdds

/-!
# Overflow checks

The aggregation of evidence with every plain operation of the source checked: `none` stands for an
overflow, where a debug build panics and a release build wraps around. What saturates in the source
saturates here as well.
-/

namespace Aimp.Epistemic

/-- The result of a plain `u64` operation. -/
def checkedU64 (x : ℕ) : Option ℕ := if x < 2 ^ 64 then some x else none

/-- The result of a plain `i64` operation. -/
def checkedI64 (x : ℤ) : Option ℤ := if i64Min ≤ x ∧ x ≤ i64Max then some x else none

/-- `x.abs()`, for a signed integer type with the given minimum. -/
def checkedAbs (min x : ℤ) : Option ℤ := if x = min then none else some |x|

/-- One round of the loop of `discount_factor`. -/
def checkedDiscountRound (discountBps : ℕ) (factor : Option ℕ) : Option ℕ := do
  let product ← checkedU64 ((← factor) * discountBps)
  pure (product / 10000)

/-- `discount_factor`. -/
def checkedDiscountFactor (rank discountBps : ℕ) : Option ℕ :=
  (checkedDiscountRound discountBps)^[min rank maxDiscountDepth] (some 10000)

/-- Add up ranked values, each discounted by its rank. The cast of the factor to `i64` is no operation
that can overflow. -/
def checkedAddDiscounted (discountBps : ℕ) : ℕ → ℤ → List ℤ → Option ℤ
  | _, total, [] => some total
  | rank, total, x :: xs => do
    let factor ← checkedDiscountFactor rank discountBps
    let product ← checkedI64 (x * wrapI64 factor)
    checkedAddDiscounted discountBps (rank + 1) (saturatingAdd total (product.tdiv 10000)) xs

/-- The comparison of the ranking. -/
def checkedStronger (min : ℤ) (a b : ℤ × ClaimHash) : Option Bool := do
  let y ← checkedAbs min b.1
  let x ← checkedAbs min a.1
  pure (decide (y < x ∨ (y = x ∧ a.2 ≤ b.2)))

/-- Insert an item into a ranking. -/
def checkedInsert (min : ℤ) (a : ℤ × ClaimHash) : List (ℤ × ClaimHash) → Option (List (ℤ × ClaimHash))
  | [] => some [a]
  | b :: l => do
    if ← checkedStronger min a b then pure (a :: b :: l)
    else pure (b :: (← checkedInsert min a l))

/-- The ranking. A sort compares every item at least once, if there are two of them. -/
def checkedSort (min : ℤ) : List (ℤ × ClaimHash) → Option (List (ℤ × ClaimHash))
  | [] => some []
  | a :: l => do checkedInsert min a (← checkedSort min l)

/-- A cell of `aggregate_correlated`. -/
def checkedCell (evidence : List CellEvidence) (discountBps : ℕ) (total : ℤ) (key : U64) :
    Option ℤ := do
  let ranked ← checkedSort i32Min
    ((evidence.filter fun e => e.cell = some key).map fun e => (e.lo.value, e.id))
  checkedAddDiscounted discountBps 0 total (ranked.map Prod.fst)

/-- `LogOdds::aggregate_correlated`. -/
def checkedAggregateCorrelated (evidence : List CellEvidence) (discountBps : ℕ) : Option LogOdds :=
  if evidence.isEmpty then some .neutral
  else do
    let total ← (cellKeys evidence).foldlM (checkedCell evidence discountBps)
      ((uncorrelated evidence).foldl saturatingAdd 0)
    pure (.safe total)

/-- Level 1 of `aggregate_hierarchical`. -/
def checkedGroup (evidence : List Evidence) (discountBps : ℕ) (key : U64) :
    Option (ℤ × Bool × ClaimHash) := do
  let members := groupMembers evidence key
  let ranked ← checkedSort i32Min (members.map fun e => (e.lo.value, e.id))
  let total ← checkedAddDiscounted discountBps 0 0 (ranked.map Prod.fst)
  pure (total, members.all fun e => e.group.assessed, minHash (members.map Evidence.id))

/-- `LogOdds::aggregate_hierarchical`. -/
def checkedAggregateHierarchical (evidence : List Evidence) (discountBps unassessedDiscountBps : ℕ) :
    Option LogOdds :=
  if evidence.isEmpty then some .neutral
  else do
    let groups ← (groupKeys evidence).mapM (checkedGroup evidence discountBps)
    let assessedTotal := ((groups.filter fun g => g.2.1).map Prod.fst).foldl saturatingAdd 0
    let unassessed ← checkedSort i64Min ((groups.filter fun g => !g.2.1).map fun g => (g.1, g.2.2))
    let total ← checkedAddDiscounted unassessedDiscountBps 0 assessedTotal
      ((unassessed.take maxDiscountDepth).map Prod.fst)
    pure (.safe total)

end Aimp.Epistemic
