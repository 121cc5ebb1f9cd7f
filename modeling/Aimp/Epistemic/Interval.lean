import Aimp.Epistemic.LogOdds
import Mathlib.Algebra.BigOperators.Group.List.Basic

/-!
# Confidence intervals

A range of log-odds instead of a single value, for the local analysis of uncertainty. The bounds are public
fields of the source, so that nothing keeps them in order but the operations.
-/

namespace Aimp.Epistemic

/-- `LogOdds::new(a.value().min(b.value()))`. -/
def LogOdds.smaller (a b : LogOdds) : LogOdds := if a.value ≤ b.value then a else b

/-- `LogOdds::new(a.value().max(b.value()))`. -/
def LogOdds.larger (a b : LogOdds) : LogOdds := if a.value ≤ b.value then b else a

@[simp] theorem LogOdds.value_smaller (a b : LogOdds) : (a.smaller b).value = min a.value b.value := by
  unfold smaller
  split <;> omega

@[simp] theorem LogOdds.value_larger (a b : LogOdds) : (a.larger b).value = max a.value b.value := by
  unfold larger
  split <;> omega

/-- `ConfidenceInterval`. -/
@[ext] structure ConfidenceInterval where
  lower : LogOdds
  upper : LogOdds
deriving DecidableEq

namespace ConfidenceInterval

/-- `ConfidenceInterval::exact`. -/
def exactly (value : LogOdds) : ConfidenceInterval := ⟨value, value⟩

/-- `ConfidenceInterval::new`. -/
def new (lower upper : LogOdds) : ConfidenceInterval := ⟨lower.smaller upper, lower.larger upper⟩

/-- `ConfidenceInterval::midpoint`: the sum is cut to an `i32` before it is halved. -/
def midpoint (i : ConfidenceInterval) : LogOdds :=
  .ofInt ((clamp i32Min i32Max (i.lower.value + i.upper.value)).tdiv 2)

/-- `ConfidenceInterval::width`, with `i32::saturating_sub`. -/
def width (i : ConfidenceInterval) : ℤ := clamp i32Min i32Max (i.upper.value - i.lower.value)

/-- `ConfidenceInterval::aggregate`: around the sum of the midpoints, as wide as the hull. -/
def aggregate : List ConfidenceInterval → ConfidenceInterval
  | [] => exactly .neutral
  | i :: l =>
    let lower := (l.map (·.lower.value)).foldl min i.lower.value
    let upper := (l.map (·.upper.value)).foldl max i.upper.value
    let mid := clamp i32Min i32Max (wrapI64 ((i :: l).map (·.midpoint.value)).sum)
    let halfWidth := clamp 0 i32Max ((upper - lower).tdiv 2)
    ⟨.ofInt (mid - halfWidth), .ofInt (mid + halfWidth)⟩

/-- `ConfidenceInterval::narrow`: the widest of both if they have nothing in common. -/
def narrow (i other : ConfidenceInterval) : ConfidenceInterval :=
  if min i.upper.value other.upper.value < max i.lower.value other.lower.value then
    ⟨i.lower.smaller other.lower, i.upper.larger other.upper⟩
  else ⟨i.lower.larger other.lower, i.upper.smaller other.upper⟩

end ConfidenceInterval

end Aimp.Epistemic
