import Aimp.Epistemic.Proofs.TrustProofs

/-!
# Dependents

The loop of `dependents` pushes the target of an edge even if it was visited before, and a claim is pushed
once for each edge into it. As a claim is expanded only once, the loop ends after a round for each edge
and one more (`dependents_exact`).
-/

open Relation

namespace Aimp.Epistemic

theorem Relation.isSupport_iff {r : Relation} :
    r.isSupport = true ↔ r = .supports ∨ r = .derivedFrom := by
  cases r <;> decide

namespace KnowledgeGraph

variable {g : KnowledgeGraph} {a b v : ClaimArenaId}

/-- There is an edge from `a` to `b` that is a `Supports` or a `DerivedFrom` edge. -/
def Backs (g : KnowledgeGraph) (a b : ClaimArenaId) : Prop :=
  ∃ e ∈ g.edges, (e.relation = .supports ∨ e.relation = .derivedFrom) ∧ e.fromId = a ∧ e.toId = b

/-- The adjacency index leads to all edges from a claim. -/
theorem supportTargets_eq (g : KnowledgeGraph) (v : ClaimArenaId) :
    g.supportTargets v = ((g.edges.filter fun e => e.fromId = v).filter
      fun e => e.relation.isSupport).map EpistemicEdge.toId := by
  have hfst := congrArg (List.map Prod.fst) (g.filterMap_edgesFrom v)
  rw [List.map_filterMap] at hfst
  have hedges : ((edgesFrom g.edges v).filterMap fun i => g.edges[i]?) =
      g.edges.filter fun e => e.fromId = v := by
    calc ((edgesFrom g.edges v).filterMap fun i => g.edges[i]?)
        = (g.edges.zipIdx.filter fun e => e.1.fromId = v).map Prod.fst := by
          rw [← hfst]
          refine List.filterMap_congr fun i _ => ?_
          rw [Option.map_map]
          exact Option.map_id'.symm
      _ = g.edges.filter fun e => e.fromId = v := by
          conv_rhs => rw [← List.zipIdx_map_fst 0 g.edges, List.filter_map]
          rfl
  unfold supportTargets
  rw [g.adjacent, hedges]

theorem mem_supportTargets : b ∈ g.supportTargets a ↔ g.Backs a b := by
  rw [supportTargets_eq, List.mem_map]
  constructor
  · rintro ⟨e, he, hto⟩
    rw [List.mem_filter, List.mem_filter, decide_eq_true_iff] at he
    exact ⟨e, he.1.1, Relation.isSupport_iff.mp he.2, he.1.2, hto⟩
  · rintro ⟨e, he, hrel, hfrom, hto⟩
    refine ⟨e, ?_, hto⟩
    rw [List.mem_filter, List.mem_filter, decide_eq_true_iff]
    exact ⟨⟨he, hfrom⟩, Relation.isSupport_iff.mpr hrel⟩

/-- The rounds of the loop are paid for by the edges. -/
theorem sum_length_supportTargets_le (g : KnowledgeGraph) :
    ((g.edges.map EpistemicEdge.fromId).dedup.map fun v => (g.supportTargets v).length).sum ≤
      g.edges.length := by
  have hcount : ∀ v ∈ (g.edges.map EpistemicEdge.fromId).dedup,
      (g.supportTargets v).length ≤ (g.edges.map EpistemicEdge.fromId).count v := by
    intro v _
    rw [supportTargets_eq, List.length_map, List.count_eq_countP, List.countP_map,
      List.countP_eq_length_filter]
    refine (List.length_filter_le _ _).trans (le_of_eq ?_)
    congr 2
  have hsum := List.sum_le_sum hcount
  rwa [List.sum_map_count_dedup_eq_length, List.length_map] at hsum

/-- The loop of `dependents` comes to its end. -/
theorem stack_dependentsLoop (g : KnowledgeGraph) (claimId : ClaimArenaId) :
    (g.dependentsLoop (g.edges.length + 1) claimId).stack = [] := by
  have hnodes : ∀ v, g.supportTargets v ≠ [] → v ∈ (g.edges.map EpistemicEdge.fromId).dedup := by
    intro v hv
    obtain ⟨b, hb⟩ := List.exists_mem_of_ne_nil _ hv
    obtain ⟨e, he, _, hfrom, _⟩ := mem_supportTargets.mp hb
    exact List.mem_dedup.mpr (List.mem_map.mpr ⟨e, he, hfrom⟩)
  refine Worklist.stack_run hnodes ?_
  have hwork : Worklist.work g.supportTargets (g.edges.map EpistemicEdge.fromId).dedup
      ⟨[], [claimId], []⟩ =
      1 + ((g.edges.map EpistemicEdge.fromId).dedup.map fun v => (g.supportTargets v).length).sum := by
    unfold Worklist.work
    simp
  have hsum := g.sum_length_supportTargets_le
  omega

/-- `dependents` ends after at most a round for each edge and one more, and it returns the claims that can
be reached by a path of one or more edges of support. -/
theorem dependents_exact (g : KnowledgeGraph) (claimId : ClaimArenaId) :
    (g.dependentsLoop (g.edges.length + 1) claimId).stack = [] ∧
      ∀ c, c ∈ g.dependents claimId ↔ TransGen g.Backs claimId c := by
  refine ⟨g.stack_dependentsLoop claimId, fun c => ?_⟩
  have hsucc : Worklist.Succ g.supportTargets = g.Backs := by
    funext a b
    exact propext mem_supportTargets
  rw [← hsucc]
  exact Worklist.mem_found_iff (g.stack_dependentsLoop claimId)

/-- A cycle with two parallel edges, and an edge that does not count. -/
example :
    let g := [⟨0, 1, .supports, .full⟩, ⟨1, 0, .derivedFrom, .full⟩, ⟨0, 1, .supports, .full⟩,
      ⟨1, 2, .contradicts, .full⟩].foldl addEdge new
    g.dependents 0 = [1, 1, 0] ∧ g.dependents 2 = [] := by
  decide +kernel

end KnowledgeGraph

end Aimp.Epistemic
