import Aimp.Epistemic.Claim
import Aimp.Lib.LastMax
import Mathlib.Data.Prod.Lex

/-!
# Resolution of intents

`ReputationWeightedResolver`: of several intents, the one whose author backs it most with its reputation
is acted on.
-/

namespace Aimp.Epistemic

/-- `Resolution`. -/
inductive Resolution where
  | winner (claim : Claim)
  | compromise (claim : Claim)
  | escalate (reason : String) (conflicting : List ClaimHash)
deriving DecidableEq

namespace ReputationWeightedResolver

/-- The key of `max_by_key`: the weighted confidence, then the age. -/
def key (reputations : Reputations) (claim : Claim) : ℤ ×ₗ ℕ :=
  let weighted := (reputations claim.origin).weightEvidence claim.declaredConfidence
  toLex (weighted.value, 2 ^ 64 - 1 - claim.tick.val)

/-- `ReputationWeightedResolver::resolve`. -/
def resolve (intents : List Claim) (reputations : Reputations) : Resolution :=
  match LastMax.lastMax (key reputations) intents with
  | none => .escalate "No intents" []
  | some winner => .winner winner

end ReputationWeightedResolver

end Aimp.Epistemic
