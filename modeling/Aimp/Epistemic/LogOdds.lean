import Aimp.Protocol.Bytes
import Mathlib.Data.Int.Order.Basic
import Mathlib.Data.List.Sort
import Mathlib.Logic.Function.Iterate
import Mathlib.Order.Lattice
import Mathlib.Tactic.Linarith
import Mathlib.Tactic.Positivity

/-!
# Log-odds

Confidence as scaled log-odds in an `i32`, and the correlation-aware aggregation of evidence. The `i64`
intermediate values are integers; `saturatingAdd` and `wrapI64` are the operations that saturate or wrap
in the source.
-/

namespace Aimp.Epistemic

def i32Min : ℤ := -2 ^ 31
def i32Max : ℤ := 2 ^ 31 - 1
def i64Min : ℤ := -2 ^ 63
def i64Max : ℤ := 2 ^ 63 - 1

/-- `x.clamp(lo, hi)`. -/
def clamp (lo hi x : ℤ) : ℤ := max lo (min x hi)

theorem clamp_mem {lo hi : ℤ} (h : lo ≤ hi) (x : ℤ) : lo ≤ clamp lo hi x ∧ clamp lo hi x ≤ hi :=
  ⟨le_max_left _ _, max_le h (min_le_right _ _)⟩

theorem clamp_of_mem {lo hi x : ℤ} (h : lo ≤ x) (h' : x ≤ hi) : clamp lo hi x = x := by
  unfold clamp
  rw [min_eq_left h', max_eq_right h]

/-- `i64::saturating_add`. -/
def saturatingAdd (x y : ℤ) : ℤ := clamp i64Min i64Max (x + y)

/-- The value that an `i64` holds after an operation with the exact result `x`. -/
def wrapI64 (x : ℤ) : ℤ := x.bmod (2 ^ 64)

theorem wrapI64_of_mem {x : ℤ} (h : i64Min ≤ x) (h' : x ≤ i64Max) : wrapI64 x = x := by
  unfold i64Min at h
  unfold i64Max at h'
  unfold wrapI64
  rw [Int.bmod_eq_of_le] <;> omega

/-- The confidences of samples. -/
theorem isI32_1000 : i32Min ≤ 1000 ∧ 1000 ≤ i32Max := by decide

theorem isI32_2000 : i32Min ≤ 2000 ∧ 2000 ≤ i32Max := by decide

theorem isI32_5000 : i32Min ≤ 5000 ∧ 5000 ≤ i32Max := by decide

theorem isI32_13816 : i32Min ≤ 13816 ∧ 13816 ≤ i32Max := by decide

theorem isI32_safeMax : i32Min ≤ 1000000000 ∧ 1000000000 ≤ i32Max := by decide

/-- Log-odds confidence, scaled by 1000. -/
structure LogOdds where
  value : ℤ
  isI32 : i32Min ≤ value ∧ value ≤ i32Max
deriving DecidableEq

namespace LogOdds

@[ext] theorem ext {a b : LogOdds} (h : a.value = b.value) : a = b := by
  cases a
  cases b
  cases h
  rfl

/-- `x.clamp(i32::MIN, i32::MAX) as i32`. -/
def ofInt (x : ℤ) : LogOdds := ⟨clamp i32Min i32Max x, clamp_mem (by decide) x⟩

/-- 50% confidence. -/
def neutral : LogOdds := ⟨0, by decide⟩

def safeMax : ℤ := 1000000000
def safeMin : ℤ := -1000000000
def maxDeclared : ℤ := 13816
def minDeclared : ℤ := -13816

/-- `x.clamp(SAFE_MIN, SAFE_MAX) as i32`. -/
def safe (x : ℤ) : LogOdds :=
  ⟨clamp safeMin safeMax x,
    le_trans (by decide) (clamp_mem (show safeMin ≤ safeMax by decide) x).1,
    le_trans (clamp_mem (show safeMin ≤ safeMax by decide) x).2 (by decide)⟩

/-- `LogOdds::clamp_declared`. -/
def clampDeclared (lo : LogOdds) : LogOdds :=
  ⟨clamp minDeclared maxDeclared lo.value,
    le_trans (by decide) (clamp_mem (show minDeclared ≤ maxDeclared by decide) lo.value).1,
    le_trans (clamp_mem (show minDeclared ≤ maxDeclared by decide) lo.value).2 (by decide)⟩

/-- `LogOdds::new(lo.value().max(0))`. -/
def positivePart (lo : LogOdds) : LogOdds :=
  ⟨max lo.value 0, lo.isI32.1.trans (le_max_left _ _), max_le lo.isI32.2 (by decide)⟩

/-- `LogOdds::new(lo.value() >> shifts)`: the shift rounds down. -/
def shiftRight (lo : LogOdds) (shifts : ℕ) : LogOdds :=
  ⟨lo.value / 2 ^ shifts, by
    have hpos : (0 : ℤ) < 2 ^ shifts := by positivity
    have hone : (1 : ℤ) ≤ 2 ^ shifts := hpos
    have hmin : i32Min ≤ 0 := by decide
    have hmax : 0 ≤ i32Max := by decide
    constructor
    · rw [Int.le_ediv_iff_mul_le hpos]
      nlinarith [lo.isI32.1]
    · refine Int.ediv_le_of_le_mul hpos ?_
      nlinarith [lo.isI32.2]⟩

/-- `i32::saturating_sub`. -/
def saturatingSub (lo : LogOdds) (x : ℤ) : LogOdds := .ofInt (lo.value - x)

/-- `LogOdds::aggregate`. -/
def aggregate (evidence : List LogOdds) : LogOdds :=
  safe ((evidence.map value).foldl saturatingAdd 0)

/-- `LogOdds::update`. -/
def update (lo evidence : LogOdds) : LogOdds := safe (lo.value + evidence.value)

end LogOdds

theorem isU16_one : 1 < 2 ^ 16 := by decide

/-- Peer reputation in basis points. The constructor of the source caps it at 10000, but the wire format
does not. -/
structure Reputation where
  bps : ℕ
  isU16 : bps < 2 ^ 16
deriving DecidableEq

namespace Reputation

/-- `Reputation::ZERO`. -/
def zero : Reputation := ⟨0, by decide⟩

/-- `Reputation::FULL`. -/
def full : Reputation := ⟨10000, by decide⟩

/-- `Reputation::weight_evidence`. -/
def weightEvidence (rep : Reputation) (evidence : LogOdds) : LogOdds :=
  .ofInt ((evidence.value * rep.bps).tdiv 10000)

end Reputation

/-- `ClaimHash`. -/
abbrev ClaimHash := ByteArr 32

/-- A correlation group, and whether it was derived from evidence. -/
structure CorrelationGroup where
  key : U64
  assessed : Bool
deriving DecidableEq

/-- `MAX_DISCOUNT_DEPTH`. -/
def maxDiscountDepth : ℕ := 30

/-- `DEFAULT_DISCOUNT_BPS`. -/
def defaultDiscountBps : ℕ := 3000

/-- `UNASSESSED_DISCOUNT_BPS`. -/
def unassessedDiscountBps : ℕ := 8000

/-- `discount_factor`. -/
def discountFactor (rank discountBps : ℕ) : ℕ :=
  (fun factor => factor * discountBps % 2 ^ 64 / 10000)^[min rank maxDiscountDepth] 10000

/-- An item of evidence: its log-odds, its correlation group and the claim it comes from. -/
structure Evidence where
  lo : LogOdds
  group : CorrelationGroup
  id : ClaimHash
deriving DecidableEq

/-- Add up ranked values, each discounted by its rank. -/
def addDiscounted (discountBps : ℕ) : ℕ → ℤ → List ℤ → ℤ
  | _, total, [] => total
  | rank, total, x :: xs =>
    addDiscounted discountBps (rank + 1)
      (saturatingAdd total ((wrapI64 (x * wrapI64 (discountFactor rank discountBps))).tdiv 10000)) xs

/-- `x.abs()`, for a signed integer type with the given minimum. -/
def absWrap (min x : ℤ) : ℤ := if x = min then min else |x|

/-- Strongest first, ties in the order of the claims. -/
def strongerOrEqual (min : ℤ) (a b : ℤ × ClaimHash) : Prop :=
  absWrap min b.1 < absWrap min a.1 ∨ (absWrap min b.1 = absWrap min a.1 ∧ a.2 ≤ b.2)

instance (min : ℤ) : DecidableRel (strongerOrEqual min) := fun _ _ =>
  inferInstanceAs (Decidable (_ ∨ _))

/-- An item of evidence with a correlation cell, if it has one. -/
structure CellEvidence where
  lo : LogOdds
  cell : Option U64
  id : ClaimHash
deriving DecidableEq

/-- The cells, in the order of the `BTreeMap`. -/
def cellKeys (evidence : List CellEvidence) : List U64 :=
  (evidence.filterMap CellEvidence.cell).dedup.insertionSort (· ≤ ·)

/-- The log-odds of a cell, strongest first. -/
def cellRanked (evidence : List CellEvidence) (key : U64) : List ℤ :=
  (((evidence.filter fun e => e.cell = some key).map fun e => (e.lo.value, e.id)).insertionSort
    (strongerOrEqual i32Min)).map Prod.fst

/-- The log-odds without a cell, in the order of the evidence. -/
def uncorrelated (evidence : List CellEvidence) : List ℤ :=
  (evidence.filter fun e => e.cell = none).map fun e => e.lo.value

/-- `LogOdds::aggregate_correlated`: the evidence without a cell comes first, at full weight, and then
each cell, discounted within itself. -/
def aggregateCorrelated (evidence : List CellEvidence) (discountBps : ℕ) : LogOdds :=
  if evidence.isEmpty then .neutral
  else .safe ((cellKeys evidence).foldl
    (fun total key => addDiscounted discountBps 0 total (cellRanked evidence key))
    ((uncorrelated evidence).foldl saturatingAdd 0))

/-- The smallest of the given hashes. -/
def minHash : List ClaimHash → ClaimHash
  | [] => zeros 32
  | id :: ids => ids.foldl min id

/-- The keys of the groups, in the order of the `BTreeMap`. -/
def groupKeys (evidence : List Evidence) : List U64 :=
  (evidence.map fun e => e.group.key).dedup.insertionSort (· ≤ ·)

/-- The members of a group, in the order of the evidence. -/
def groupMembers (evidence : List Evidence) (key : U64) : List Evidence :=
  evidence.filter fun e => e.group.key = key

/-- Level 1: the total of a group, discounted within the group. -/
def groupTotal (discountBps : ℕ) (members : List Evidence) : ℤ :=
  addDiscounted discountBps 0 0
    (((members.map fun e => (e.lo.value, e.id)).insertionSort (strongerOrEqual i32Min)).map Prod.fst)

/-- The groups: total, whether every member was assessable, and anchor. -/
def groupTotals (discountBps : ℕ) (evidence : List Evidence) : List (ℤ × Bool × ClaimHash) :=
  (groupKeys evidence).map fun key =>
    let members := groupMembers evidence key
    (groupTotal discountBps members, members.all fun e => e.group.assessed,
      minHash (members.map Evidence.id))

/-- `LogOdds::aggregate_hierarchical`: the assessed groups are added up, the unassessed ones are ranked
and discounted once more. -/
def aggregateHierarchical (evidence : List Evidence) (discountBps unassessedDiscountBps : ℕ) :
    LogOdds :=
  if evidence.isEmpty then .neutral
  else
    let groups := groupTotals discountBps evidence
    let assessedTotal := ((groups.filter fun g => g.2.1).map Prod.fst).foldl saturatingAdd 0
    let unassessed := ((groups.filter fun g => !g.2.1).map fun g => (g.1, g.2.2)).insertionSort
      (strongerOrEqual i64Min)
    .safe (addDiscounted unassessedDiscountBps 0 assessedTotal
      ((unassessed.take maxDiscountDepth).map Prod.fst))

end Aimp.Epistemic
