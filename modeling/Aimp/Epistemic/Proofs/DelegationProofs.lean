import Aimp.Epistemic.Reputation
import Aimp.Lib.Run
import Mathlib.Algebra.BigOperators.Group.Finset.Piecewise
import Mathlib.Algebra.Order.BigOperators.Group.Finset

/-!
# What delegation grants

Nobody ever has more reputation than the node that all of it stems from. What is granted in total stays
below twice that reputation as long as it is paid for by this node (`delegated_le`); the halved cost
rounds down, though, and whoever receives a grant can pass it on.
-/

namespace Aimp.Epistemic

/-- A call of `delegate`. -/
structure Delegation where
  fromNode : NodeId
  toNode : NodeId
  initialRep : Reputation

namespace InMemoryReputationTracker

variable {t : InMemoryReputationTracker} {d : Delegation} {n first : NodeId} {rep : Reputation}

/-- What a call grants: no more than was asked for and than the delegator has. -/
def granted (t : InMemoryReputationTracker) (d : Delegation) : ℕ :=
  min (min d.initialRep.bps (t.reputation d.fromNode).bps) 10000

theorem reputation_insert (scores : HashMap NodeId Reputation) (k : NodeId) :
    reputation ⟨scores.insert k rep⟩ n = if n = k then rep else reputation ⟨scores⟩ n := by
  unfold reputation
  by_cases h : n = k
  · subst h
    rw [AList.lookup_insert, if_pos rfl]
    rfl
  · rw [AList.lookup_insert_ne h, if_neg h]

theorem granted_le (t : InMemoryReputationTracker) (d : Delegation) :
    t.granted d ≤ (t.reputation d.fromNode).bps := by
  unfold granted
  omega

/-- The reputations after a call. -/
theorem reputation_delegate (t : InMemoryReputationTracker) (d : Delegation) (n : NodeId) :
    ((t.delegate d.fromNode d.toNode d.initialRep).reputation n).bps =
      if (t.reputation d.fromNode).bps = 0 then (t.reputation n).bps
      else if n = d.fromNode then min ((t.reputation d.fromNode).bps - t.granted d / 2) 10000
      else if n = d.toNode then t.granted d
      else (t.reputation n).bps := by
  unfold delegate
  dsimp only
  by_cases hzero : (t.reputation d.fromNode).bps = 0
  · rw [if_pos hzero, if_pos hzero]
  · rw [if_neg hzero, if_neg hzero, reputation_insert, reputation_insert]
    split
    · rfl
    · split
      · rfl
      · rfl

/-- Nobody gains more than the recipient is granted. -/
theorem reputation_delegate_le (t : InMemoryReputationTracker) (d : Delegation) (n : NodeId) :
    ((t.delegate d.fromNode d.toNode d.initialRep).reputation n).bps ≤
      (t.reputation n).bps + if n = d.toNode then t.granted d else 0 := by
  rw [reputation_delegate]
  split
  · omega
  · split
    · rename_i h
      rw [h]
      omega
    · split
      · omega
      · omega

end InMemoryReputationTracker

/-! ## Runs -/

/-- A tracker, and what has been granted to nodes other than the first one. -/
structure Grants where
  tracker : InMemoryReputationTracker
  total : ℕ

namespace Grants

open InMemoryReputationTracker

variable {s t : Grants} {d : Delegation} {ds : List Delegation} {first : NodeId} {rep : Reputation}

/-- One node has a reputation. -/
def start (first : NodeId) (rep : Reputation) : Grants :=
  ⟨InMemoryReputationTracker.new.setReputation first rep, 0⟩

/-- A call of `delegate`. -/
def call (first : NodeId) (s : Grants) (d : Delegation) : Grants where
  tracker := s.tracker.delegate d.fromNode d.toNode d.initialRep
  total := s.total + if d.toNode = first then 0 else s.tracker.granted d

/-- What a call grants is paid for by the first node: it grants nothing to another node, or it is the
first node that grants an even amount; and it does not raise the reputation of the first node. -/
def Paid (first : NodeId) (s : Grants) (d : Delegation) : Prop :=
  (d.toNode ≠ first → s.tracker.granted d = 0 ∨ d.fromNode = first ∧ 2 ∣ s.tracker.granted d) ∧
  (d.toNode = first → s.tracker.granted d ≤ (s.tracker.reputation first).bps)

instance (first : NodeId) (s : Grants) (d : Delegation) : Decidable (Paid first s d) :=
  inferInstanceAs (Decidable (_ ∧ _))

theorem reputation_start (n : NodeId) :
    ((start first rep).tracker.reputation n).bps = if n = first then rep.bps else 0 := by
  unfold start setReputation
  rw [reputation_insert]
  split
  · rfl
  · rfl

/-- Twice the reputation of the first node and what has been granted do not grow. -/
theorem Paid.budget (h : Paid first s d) :
    (s.call first d).total + 2 * ((s.call first d).tracker.reputation first).bps ≤
      s.total + 2 * (s.tracker.reputation first).bps := by
  obtain ⟨hother, hfirst⟩ := h
  have hle := granted_le s.tracker d
  show s.total + (if d.toNode = first then 0 else s.tracker.granted d) +
    2 * ((s.tracker.delegate d.fromNode d.toNode d.initialRep).reputation first).bps ≤ _
  rw [reputation_delegate]
  by_cases hto : d.toNode = first
  · have hgrant := hfirst hto
    rw [if_pos hto]
    by_cases hfrom : first = d.fromNode
    · rw [← hfrom, if_pos rfl]
      split <;> omega
    · rw [if_neg hfrom, if_pos hto.symm]
      split <;> omega
  · rw [if_neg hto, if_neg (Ne.symm hto)]
    by_cases hfrom : first = d.fromNode
    · rw [← hfrom] at hle ⊢
      -- the cost of an even grant is exactly half of it
      have hcost : 2 ∣ s.tracker.granted d := by
        rcases hother hto with h | h
        · rw [h]
          exact dvd_zero 2
        · exact h.2
      split
      · omega
      · rw [if_pos rfl]
        omega
    · have hnone : s.tracker.granted d = 0 := by
        rcases hother hto with h | h
        · exact h
        · exact absurd h.1.symm hfrom
      rw [if_neg hfrom, hnone]
      split <;> omega

/-- Every other call makes them grow. -/
theorem budget_lt_of_not_paid (hcap : (s.tracker.reputation first).bps ≤ 10000)
    (h : ¬ Paid first s d) : s.total + 2 * (s.tracker.reputation first).bps <
      (s.call first d).total + 2 * ((s.call first d).tracker.reputation first).bps := by
  have hle := granted_le s.tracker d
  show _ < s.total + (if d.toNode = first then 0 else s.tracker.granted d) +
    2 * ((s.tracker.delegate d.fromNode d.toNode d.initialRep).reputation first).bps
  rw [reputation_delegate]
  by_cases hto : d.toNode = first
  · have hgrant : (s.tracker.reputation first).bps < s.tracker.granted d := by
      by_contra hnot
      exact h ⟨fun hne => absurd hto hne, fun _ => not_lt.mp hnot⟩
    have hfrom : first ≠ d.fromNode := by
      rintro rfl
      omega
    rw [if_pos hto, if_neg (by omega), if_neg hfrom, if_pos hto.symm]
    omega
  · have hnot : ¬ (s.tracker.granted d = 0 ∨ d.fromNode = first ∧ 2 ∣ s.tracker.granted d) :=
      fun hor => h ⟨fun _ => hor, fun heq => absurd heq hto⟩
    rw [not_or, not_and] at hnot
    rw [if_neg hto, if_neg (by omega), if_neg (Ne.symm hto)]
    by_cases hfrom : first = d.fromNode
    · have hodd := hnot.2 hfrom.symm
      rw [if_pos hfrom, ← hfrom]
      rw [← hfrom] at hle
      omega
    · rw [if_neg hfrom]
      omega

/-- Every reputation is bounded by the one that all of it stems from. -/
theorem reputation_call_le {bound : ℕ} (h : ∀ n, (s.tracker.reputation n).bps ≤ bound) (n : NodeId) :
    ((s.call first d).tracker.reputation n).bps ≤ bound := by
  have hn := h n
  have hfrom := h d.fromNode
  have hle := granted_le s.tracker d
  show ((s.tracker.delegate d.fromNode d.toNode d.initialRep).reputation n).bps ≤ bound
  rw [reputation_delegate]
  split
  · exact hn
  · split
    · omega
    · split <;> omega

/-- What some nodes other than the first one have together was granted. -/
theorem held_call_le {S : Finset NodeId} (hS : first ∉ S)
    (h : ∑ n ∈ S, (s.tracker.reputation n).bps ≤ s.total) :
    ∑ n ∈ S, ((s.call first d).tracker.reputation n).bps ≤ (s.call first d).total := by
  have hsum : ∑ n ∈ S, ((s.call first d).tracker.reputation n).bps ≤
      ∑ n ∈ S, ((s.tracker.reputation n).bps + if n = d.toNode then s.tracker.granted d else 0) :=
    Finset.sum_le_sum fun n _ => reputation_delegate_le s.tracker d n
  rw [Finset.sum_add_distrib, Finset.sum_ite_eq'] at hsum
  show _ ≤ s.total + if d.toNode = first then 0 else s.tracker.granted d
  by_cases hto : d.toNode = first
  · rw [if_neg (hto ▸ hS)] at hsum
    rw [if_pos hto]
    omega
  · rw [if_neg hto]
    split at hsum <;> omega

/-- In every run of calls no node ever has more reputation than the first one had, and what nodes other
than it have together was granted to them. If every call of the run is paid for, then at most twice the
reputation of the first node is granted in total. -/
theorem delegated_le (first : NodeId) (rep : Reputation) (ds : List Delegation) (s : Grants)
    (hrun : Run (fun s d s' => s' = s.call first d) (start first rep) ds s) :
    (∀ n, (s.tracker.reputation n).bps ≤ rep.bps) ∧
    (∀ S : Finset NodeId, first ∉ S → ∑ n ∈ S, (s.tracker.reputation n).bps ≤ s.total) ∧
    (Run (fun s d s' => Paid first s d ∧ s' = s.call first d) (start first rep) ds s →
      s.total ≤ 2 * rep.bps) := by
  refine ⟨?_, fun S hS => ?_, fun hpaid => ?_⟩
  · refine hrun.invariant (P := fun s => ∀ n, (s.tracker.reputation n).bps ≤ rep.bps) ?_ ?_
    · intro n
      rw [reputation_start]
      split <;> omega
    · rintro s d _ h rfl
      exact reputation_call_le h
  · refine hrun.invariant (P := fun s => ∑ n ∈ S, (s.tracker.reputation n).bps ≤ s.total) ?_ ?_
    · refine (Finset.sum_eq_zero fun n hn => ?_).le
      rw [reputation_start, if_neg (ne_of_mem_of_not_mem hn hS)]
    · rintro s d _ h rfl
      exact held_call_le hS h
  · have hbudget : s.total + 2 * (s.tracker.reputation first).bps ≤ 2 * rep.bps := by
      refine hpaid.invariant
        (P := fun s => s.total + 2 * (s.tracker.reputation first).bps ≤ 2 * rep.bps) ?_ ?_
      · rw [reputation_start, if_pos rfl]
        exact (Nat.zero_add _).le
      · rintro s d _ h ⟨hd, rfl⟩
        exact hd.budget.trans h
    omega

theorem run_calls (s : Grants) (ds : List Delegation) :
    Run (fun s d s' => s' = s.call first d) s ds (ds.foldl (call first) s) := by
  induction ds using List.reverseRecOn with
  | nil => exact .nil
  | append_singleton ds d ih =>
    rw [List.foldl_append]
    exact .snoc ih rfl

/-! ### Sample nodes -/

/-- The node whose key has the bytes `b`. -/
def node (b : Byte) : NodeId := ⟨List.replicate 32 b, length_uniform b⟩

/-- The first node passes on all it has. -/
theorem delegated_le_one_grant :
    ∃ s, Run (fun s d s' => s' = s.call (node 1) d) (start (node 1) .full)
      [⟨node 1, node 2, .full⟩] s ∧ s.total = 10000 ∧ s.total ≤ 2 * Reputation.full.bps := by
  have hrun : Run (fun s d s' => Paid (node 1) s d ∧ s' = s.call (node 1) d) (start (node 1) .full)
      ([] ++ [⟨node 1, node 2, .full⟩]) ((start (node 1) .full).call (node 1)
        ⟨node 1, node 2, .full⟩) := .snoc .nil ⟨by decide +kernel, rfl⟩
  have hcalls := @run_calls (node 1) (start (node 1) .full) [⟨node 1, node 2, .full⟩]
  exact ⟨_, hcalls, by decide +kernel, (delegated_le _ _ _ _ hcalls).2.2 hrun⟩

/-- Everyone passes on what the one before granted. -/
def passedOn : List Delegation :=
  [⟨node 1, node 2, .full⟩, ⟨node 2, node 3, .full⟩, ⟨node 3, node 4, .full⟩,
    ⟨node 4, node 5, .full⟩]

/-- The least reputation there is. -/
def least : Reputation := ⟨1, isU16_one⟩

/-- A node with the least reputation grants it to three others. -/
def costless : List Delegation :=
  [⟨node 1, node 2, least⟩, ⟨node 1, node 3, least⟩, ⟨node 1, node 4, least⟩]

/-- Passed on from one node to the next, or granted in amounts whose cost rounds down to nothing,
reputation multiplies. -/
theorem reputation_minted :
    (∃ s, Run (fun s d s' => s' = s.call (node 1) d) (start (node 1) .full) passedOn s ∧
      2 * Reputation.full.bps < s.total ∧
      2 * Reputation.full.bps < (([node 2, node 3, node 4, node 5].map s.tracker.reputation).map
        Reputation.bps).sum) ∧
    ∃ s, Run (fun s d s' => s' = s.call (node 1) d) (start (node 1) least) costless s ∧
      2 * least.bps < s.total ∧
      2 * least.bps < (([node 2, node 3, node 4].map s.tracker.reputation).map Reputation.bps).sum :=
  ⟨⟨_, run_calls _ _, by decide +kernel, by decide +kernel⟩,
    ⟨_, run_calls _ _, by decide +kernel, by decide +kernel⟩⟩

end Grants

/-! ## The other nodes -/

namespace InMemoryReputationTracker

open Grants (node least)

variable {t : InMemoryReputationTracker} {fromNode toNode n : NodeId} {initialRep : Reputation}

/-- A call writes two entries. -/
theorem reputation_delegate_other (hfrom : n ≠ fromNode) (hto : n ≠ toNode) :
    ((t.delegate fromNode toNode initialRep).reputation n).bps = (t.reputation n).bps := by
  have hn := t.reputation_delegate ⟨fromNode, toNode, initialRep⟩ n
  rw [if_neg hfrom, if_neg hto, ite_self] at hn
  exact hn

/-- What the recipient had is replaced by what it is granted. -/
theorem reputation_delegate_toNode (hzero : (t.reputation fromNode).bps ≠ 0)
    (hne : toNode ≠ fromNode) :
    ((t.delegate fromNode toNode initialRep).reputation toNode).bps =
      min (min initialRep.bps (t.reputation fromNode).bps) 10000 := by
  have hto := t.reputation_delegate ⟨fromNode, toNode, initialRep⟩ toNode
  rw [if_neg hzero, if_neg hne, if_pos rfl] at hto
  exact hto

/-- A call lowers the reputation of no node but the delegator if and only if nothing is delegated to
another node, or the recipient has no more than what is asked for, than the delegator and than a full
reputation. -/
theorem delegate_lowers_no_other_iff (t : InMemoryReputationTracker) (fromNode toNode : NodeId)
    (initialRep : Reputation) :
    (∀ n ≠ fromNode,
      (t.reputation n).bps ≤ ((t.delegate fromNode toNode initialRep).reputation n).bps) ↔
    (t.reputation fromNode).bps = 0 ∨ toNode = fromNode ∨
      ((t.reputation toNode).bps ≤ initialRep.bps ∧
        (t.reputation toNode).bps ≤ (t.reputation fromNode).bps ∧
        (t.reputation toNode).bps ≤ Reputation.full.bps) := by
  constructor
  · intro h
    by_cases hzero : (t.reputation fromNode).bps = 0
    · exact Or.inl hzero
    · by_cases hne : toNode = fromNode
      · exact Or.inr (Or.inl hne)
      · have hto := h toNode hne
        rw [reputation_delegate_toNode hzero hne] at hto
        refine Or.inr (Or.inr ⟨?_, ?_, ?_⟩)
        · omega
        · omega
        · exact hto.trans (min_le_right _ _)
  · intro h n hn
    by_cases hto : n = toNode
    · subst hto
      rcases h with hzero | hne | ⟨hasked, hhas, hfull⟩
      · have hsame := t.reputation_delegate ⟨fromNode, n, initialRep⟩ n
        rw [if_pos hzero] at hsame
        exact hsame.ge
      · exact absurd hne hn
      · by_cases hzero : (t.reputation fromNode).bps = 0
        · omega
        · rw [reputation_delegate_toNode hzero hn]
          exact le_min (le_min hasked hhas) hfull
    · exact (reputation_delegate_other hn hto).ge

/-- A node with the least reputation, and one with a full one. -/
def anchored : InMemoryReputationTracker :=
  (new.setReputation (node 1) least).setReputation (node 2) .full

/-- The first takes all but the least from the second. -/
theorem delegate_lowers_anchor :
    (anchored.reputation (node 2)).bps = 10000 ∧
    ((anchored.delegate (node 1) (node 2) least).reputation (node 2)).bps = 1 ∧
    ¬ ∀ n ≠ node 1, (anchored.reputation n).bps ≤
      ((anchored.delegate (node 1) (node 2) least).reputation n).bps := by
  have hlowered : ((anchored.delegate (node 1) (node 2) least).reputation (node 2)).bps = 1 := by
    decide +kernel
  have hfull : (anchored.reputation (node 2)).bps = 10000 := by decide +kernel
  refine ⟨hfull, hlowered, fun h => ?_⟩
  have hle := h (node 2) (by decide)
  rw [hlowered, hfull] at hle
  exact absurd hle (by decide)

end InMemoryReputationTracker

end Aimp.Epistemic
