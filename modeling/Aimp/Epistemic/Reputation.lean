import Aimp.Epistemic.LogOdds
import Aimp.Lib.HashMap

/-!
# Reputation

`InMemoryReputationTracker`: the reputation of each node, what a node gains or loses by its own claims,
and the delegation of reputation to other nodes.
-/

namespace Aimp.Epistemic

/-- `Reputation::from_bps`. -/
def Reputation.fromBps (bps : ℕ) : Reputation :=
  ⟨min bps 10000, lt_of_le_of_lt (min_le_right _ _) (by decide)⟩

inductive ReputationEvent where
  | equivocationDetected
  | claimConfirmed
  | claimContradicted
  | activeParticipation
deriving DecidableEq

/-- `u16::saturating_add`. -/
def u16SaturatingAdd (x y : ℕ) : ℕ := min (x + y) (2 ^ 16 - 1)

/-- `InMemoryReputationTracker`. -/
structure InMemoryReputationTracker where
  scores : HashMap NodeId Reputation

namespace InMemoryReputationTracker

/-- `InMemoryReputationTracker::new`. -/
def new : InMemoryReputationTracker := ⟨∅⟩

/-- `InMemoryReputationTracker::set_reputation`. -/
def setReputation (t : InMemoryReputationTracker) (origin : NodeId) (rep : Reputation) :
    InMemoryReputationTracker :=
  ⟨t.scores.insert origin rep⟩

/-- `InMemoryReputationTracker::reputation`: unknown nodes have none. -/
def reputation (t : InMemoryReputationTracker) (origin : NodeId) : Reputation :=
  (t.scores.lookup origin).getD .zero

/-- `InMemoryReputationTracker::update`. -/
def update (t : InMemoryReputationTracker) (origin : NodeId) (event : ReputationEvent) :
    InMemoryReputationTracker :=
  let current := t.reputation origin
  let newScore := match event with
    | .equivocationDetected => 0
    | .claimContradicted => current.bps - 1000
    | .claimConfirmed => min (u16SaturatingAdd current.bps 200) 10000
    | .activeParticipation => min (u16SaturatingAdd current.bps 50) 10000
  ⟨t.scores.insert origin (.fromBps newScore)⟩

/-- `InMemoryReputationTracker::delegate`: the delegator pays half of what it grants. -/
def delegate (t : InMemoryReputationTracker) (fromNode toNode : NodeId) (initialRep : Reputation) :
    InMemoryReputationTracker :=
  let delegatorRep := t.reputation fromNode
  if delegatorRep.bps = 0 then t
  else
    let capped := Reputation.fromBps (min initialRep.bps delegatorRep.bps)
    let cost := capped.bps / 2
    let newDelegatorRep := delegatorRep.bps - cost
    ⟨(t.scores.insert toNode capped).insert fromNode (.fromBps newDelegatorRep)⟩

end InMemoryReputationTracker

end Aimp.Epistemic
