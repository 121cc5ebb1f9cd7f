import Aimp.Epistemic.Proofs.DelegationProofs

/-!
# Where reputation comes from

A node is vouched for if another node with a reputation has called `delegate` on it. `update` does not ask
for that: an event that rewards a node gives reputation to whoever it names. Unless it names a node that
is neither an anchor nor vouched for, only these nodes have any.
-/

namespace Aimp.Epistemic

/-- The event raises the reputation of a node. -/
def ReputationEvent.IsReward : ReputationEvent → Prop
  | .claimConfirmed | .activeParticipation => True
  | .equivocationDetected | .claimContradicted => False

/-- A call to the tracker. -/
inductive ReputationCall where
  | setReputation (origin : NodeId) (rep : Reputation)
  | update (origin : NodeId) (event : ReputationEvent)
  | delegate (fromNode toNode : NodeId) (initialRep : Reputation)

/-- A tracker, and the nodes that were vouched for. -/
structure TrustWeb where
  tracker : InMemoryReputationTracker
  vouched : List NodeId

namespace TrustWeb

open InMemoryReputationTracker

variable {w w' : TrustWeb} {anchors : Set NodeId} {c : ReputationCall} {n : NodeId}

/-- A new tracker. -/
def start : TrustWeb := ⟨.new, []⟩

/-- The tracker after a call. A call of `delegate` vouches for a node if the delegator has a
reputation. -/
def call (w : TrustWeb) : ReputationCall → TrustWeb
  | .setReputation origin rep => { w with tracker := w.tracker.setReputation origin rep }
  | .update origin event => { w with tracker := w.tracker.update origin event }
  | .delegate fromNode toNode initialRep =>
    { tracker := w.tracker.delegate fromNode toNode initialRep
      vouched := if (w.tracker.reputation fromNode).bps = 0 then w.vouched else toNode :: w.vouched }

/-- One call; `set_reputation` is called on anchors only. -/
inductive Step (anchors : Set NodeId) (w : TrustWeb) : ReputationCall → TrustWeb → Prop where
  | setReputation {origin : NodeId} {rep : Reputation} (h : origin ∈ anchors) :
      Step anchors w (.setReputation origin rep) (w.call (.setReputation origin rep))
  | update {origin : NodeId} {event : ReputationEvent} :
      Step anchors w (.update origin event) (w.call (.update origin event))
  | delegate {fromNode toNode : NodeId} {initialRep : Reputation} :
      Step anchors w (.delegate fromNode toNode initialRep)
        (w.call (.delegate fromNode toNode initialRep))

/-- Only anchors and nodes that were vouched for have a reputation. -/
def Sound (anchors : Set NodeId) (w : TrustWeb) : Prop :=
  ∀ n, n ∉ anchors → n ∉ w.vouched → w.tracker.reputation n = .zero

/-- A reward names an anchor or a node that was vouched for. -/
def Earned (anchors : Set NodeId) (w : TrustWeb) : ReputationCall → Prop
  | .update origin event => event.IsReward → origin ∈ anchors ∨ origin ∈ w.vouched
  | _ => True

theorem reputation_eq_zero {rep : Reputation} (h : rep.bps = 0) : rep = .zero := by
  obtain ⟨bps, hu16⟩ := rep
  obtain rfl : bps = 0 := h
  rfl

theorem reputation_update_ne {t : InMemoryReputationTracker} {origin : NodeId} {event : ReputationEvent}
    (h : n ≠ origin) : (t.update origin event).reputation n = t.reputation n := by
  unfold update
  dsimp only
  rw [reputation_insert, if_neg h]

/-- Among the events, only a reward gives a reputation to a node that has none. -/
theorem reputation_update_self {t : InMemoryReputationTracker} {event : ReputationEvent}
    (h : t.reputation n = .zero) : (t.update n event).reputation n = .zero ↔ ¬ event.IsReward := by
  unfold update
  dsimp only
  rw [reputation_insert, if_pos rfl, h]
  cases event with
  | equivocationDetected => exact iff_of_true rfl id
  | claimContradicted => exact iff_of_true (by decide +kernel) id
  | claimConfirmed => exact iff_of_false (by decide +kernel) (not_not_intro trivial)
  | activeParticipation => exact iff_of_false (by decide +kernel) (not_not_intro trivial)

theorem Sound.setReputation (h : Sound anchors w) {origin : NodeId} {rep : Reputation}
    (horigin : origin ∈ anchors) : Sound anchors (w.call (.setReputation origin rep)) := by
  intro n hanchor hvouched
  have hne : n ≠ origin := by
    rintro rfl
    exact hanchor horigin
  show reputation ⟨w.tracker.scores.insert origin rep⟩ n = .zero
  rw [reputation_insert, if_neg hne]
  exact h n hanchor hvouched

/-- A delegator with a reputation is not the node that nobody vouched for. -/
theorem Sound.delegate (h : Sound anchors w) (fromNode toNode : NodeId) (initialRep : Reputation) :
    Sound anchors (w.call (.delegate fromNode toNode initialRep)) := by
  intro n hanchor hvouched
  apply reputation_eq_zero
  show ((w.tracker.delegate fromNode toNode initialRep).reputation n).bps = 0
  have hdel := reputation_delegate w.tracker ⟨fromNode, toNode, initialRep⟩ n
  dsimp only at hdel
  dsimp only [call] at hvouched
  rw [hdel]
  by_cases hzero : (w.tracker.reputation fromNode).bps = 0
  · rw [if_pos hzero] at hvouched ⊢
    rw [h n hanchor hvouched]
    rfl
  · rw [if_neg hzero] at hvouched ⊢
    obtain ⟨hto, hvouched⟩ := not_or.mp (List.mem_cons.not.mp hvouched)
    have hn := h n hanchor hvouched
    have hfrom : n ≠ fromNode := by
      rintro rfl
      exact hzero (by rw [hn]; rfl)
    rw [if_neg hfrom, if_neg hto, hn]
    rfl

theorem Sound.update_iff (h : Sound anchors w) {origin : NodeId} {event : ReputationEvent} :
    Sound anchors (w.call (.update origin event)) ↔ Earned anchors w (.update origin event) := by
  constructor
  · intro hsound hreward
    by_contra hnone
    obtain ⟨hanchor, hvouched⟩ := not_or.mp hnone
    exact (reputation_update_self (h origin hanchor hvouched)).mp (hsound origin hanchor hvouched) hreward
  · intro hearned n hanchor hvouched
    show (w.tracker.update origin event).reputation n = .zero
    by_cases hn : n = origin
    · subst hn
      refine (reputation_update_self (h n hanchor hvouched)).mpr fun hreward => ?_
      rcases hearned hreward with hin | hin
      · exact hanchor hin
      · exact hvouched hin
    · rw [reputation_update_ne hn]
      exact h n hanchor hvouched

/-- The calls that preserve it. -/
theorem Step.sound_iff (hstep : Step anchors w c w') (h : Sound anchors w) :
    Sound anchors w' ↔ Earned anchors w c := by
  cases hstep with
  | setReputation horigin => exact iff_of_true (h.setReputation horigin) trivial
  | update => exact h.update_iff
  | @delegate fromNode toNode initialRep =>
    exact iff_of_true (h.delegate fromNode toNode initialRep) trivial

/-- In every run in which rewards name only anchors and nodes that were vouched for, only these nodes have
a reputation; and this outlives one more call if and only if that call rewards no other node either. -/
theorem reputation_requires_delegation {cs : List ReputationCall}
    (hrun : Run (fun w c w' => Earned anchors w c ∧ Step anchors w c w') start cs w) :
    Sound anchors w ∧ ∀ c w', Step anchors w c w' → (Sound anchors w' ↔ Earned anchors w c) := by
  have hsound : Sound anchors w := by
    refine hrun.invariant (P := fun w => Sound anchors w) ?_ ?_
    · intro n _ _
      rfl
    · rintro w c w' h ⟨hearned, hstep⟩
      exact (hstep.sound_iff h).mpr hearned
  exact ⟨hsound, fun c w' hstep => hstep.sound_iff hsound⟩

/-- An anchor delegates, and the node that it vouched for earns a reward. -/
def vouchedFor : List ReputationCall :=
  [.setReputation (Grants.node 1) .full, .delegate (Grants.node 1) (Grants.node 2) .full,
    .update (Grants.node 2) .claimConfirmed]

/-- The tracker after these calls. -/
theorem reputation_requires_delegation_one_anchor :
    Run (Step {Grants.node 1}) start vouchedFor (vouchedFor.foldl call start) ∧
      (vouchedFor.foldl call start).tracker.reputation (Grants.node 2) = .full ∧
      Sound {Grants.node 1} (vouchedFor.foldl call start) := by
  have hanchor : Run (fun w c w' => Earned {Grants.node 1} w c ∧ Step {Grants.node 1} w c w') start
      ([] ++ [.setReputation (Grants.node 1) .full]) _ := .snoc .nil ⟨trivial, .setReputation rfl⟩
  have hdelegate := hanchor.snoc (m := ReputationCall.delegate (Grants.node 1) (Grants.node 2) .full)
    ⟨trivial, .delegate⟩
  have hrun := hdelegate.snoc (m := ReputationCall.update (Grants.node 2) .claimConfirmed)
    ⟨fun _ => .inr (by decide +kernel), .update⟩
  exact ⟨hrun.mono And.right, by decide +kernel, (reputation_requires_delegation hrun).1⟩

/-- A node that nobody has heard of takes part, and has a reputation. -/
theorem reputation_from_participation :
    Run (Step ∅) start [.update (Grants.node 3) .activeParticipation]
      (start.call (.update (Grants.node 3) .activeParticipation)) ∧
    (start.call (.update (Grants.node 3) .activeParticipation)).vouched = [] ∧
    ((start.call (.update (Grants.node 3) .activeParticipation)).tracker.reputation
      (Grants.node 3)).bps = 50 ∧
    ¬ Sound ∅ (start.call (.update (Grants.node 3) .activeParticipation)) := by
  have hbps : ((start.call (.update (Grants.node 3) .activeParticipation)).tracker.reputation
      (Grants.node 3)).bps = 50 := by decide +kernel
  have hrun : Run (Step ∅) start ([] ++ [.update (Grants.node 3) .activeParticipation]) _ :=
    .snoc .nil .update
  refine ⟨hrun, rfl, hbps, fun hsound => ?_⟩
  rw [hsound (Grants.node 3) (Set.notMem_empty _) List.not_mem_nil] at hbps
  cases hbps

end TrustWeb

end Aimp.Epistemic
