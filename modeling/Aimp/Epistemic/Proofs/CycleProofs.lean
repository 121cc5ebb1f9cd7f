import Aimp.Epistemic.Proofs.TrustProofs

/-!
# Breaking cycles

The edges that `cyclic_edge_indices` removes lie on cycles of support, and without them no cycle is left
(`cyclicEdgeIndices_exact`).
-/

open Relation

namespace Aimp.Epistemic

namespace KnowledgeGraph

variable {g : KnowledgeGraph}

/-- An edge of support that is not removed leads from `a` to `b`. -/
def SupportStep (g : KnowledgeGraph) (removed : List ℕ) (a b : ClaimArenaId) : Prop :=
  ∃ e ∈ g.edges.zipIdx, carries removed e = true ∧ e.1.fromId = a ∧ e.1.toId = b

theorem mem_edgesFrom {edges : List EpistemicEdge} {v : ClaimArenaId} {i : ℕ} :
    i ∈ edgesFrom edges v ↔ ∃ e, edges[i]? = some e ∧ e.fromId = v := by
  unfold edgesFrom
  simp only [List.mem_map, List.mem_filter, decide_eq_true_eq, Prod.exists, exists_eq_right]
  constructor
  · rintro ⟨e, hmem, hfrom⟩
    exact ⟨e, List.mem_zipIdx_iff_getElem?.mp hmem, hfrom⟩
  · rintro ⟨e, hget, hfrom⟩
    exact ⟨e, List.mem_zipIdx_iff_getElem?.mpr hget, hfrom⟩

theorem mem_sortedOut {v : ClaimArenaId} {i : ℕ} {e : EpistemicEdge} :
    (i, e) ∈ g.sortedOut v ↔ g.edges[i]? = some e ∧ e.fromId = v := by
  unfold sortedOut
  rw [List.mem_insertionSort, List.mem_filterMap, g.adjacent]
  constructor
  · rintro ⟨j, hj, hmap⟩
    obtain ⟨e', hget, heq⟩ := Option.map_eq_some_iff.mp hmap
    obtain ⟨rfl, rfl⟩ := Prod.mk.inj heq
    obtain ⟨e, hget', hfrom⟩ := mem_edgesFrom.mp hj
    obtain rfl := Option.some.inj (hget.symm.trans hget')
    exact ⟨hget, hfrom⟩
  · rintro ⟨hget, hfrom⟩
    refine ⟨i, mem_edgesFrom.mpr ⟨e, hget, hfrom⟩, ?_⟩
    rw [hget]
    rfl

/-- What the search scans at a node. -/
theorem mem_supportOut {a b : ClaimArenaId} {i : ℕ} :
    (i, b) ∈ g.supportOut a ↔
      ∃ e, g.edges[i]? = some e ∧ e.relation.isSupport = true ∧ e.fromId = a ∧ e.toId = b := by
  unfold supportOut
  simp only [List.mem_map, List.mem_filter, Prod.mk.injEq, Prod.exists]
  constructor
  · rintro ⟨j, e, ⟨hmem, hrel⟩, rfl, hto⟩
    obtain ⟨hget, hfrom⟩ := mem_sortedOut.mp hmem
    exact ⟨e, hget, hrel, hfrom, hto⟩
  · rintro ⟨e, hget, hrel, hfrom, hto⟩
    exact ⟨i, e, ⟨mem_sortedOut.mpr ⟨hget, hfrom⟩, hrel⟩, rfl, hto⟩

theorem supportStep_iff {removed : List ℕ} {a b : ClaimArenaId} :
    g.SupportStep removed a b ↔ ∃ i e, g.edges[i]? = some e ∧ e.relation.isSupport = true ∧
      i ∉ removed ∧ e.fromId = a ∧ e.toId = b := by
  constructor
  · rintro ⟨⟨e, i⟩, hmem, hcarries, hfrom, hto⟩
    obtain ⟨hrel, hnot⟩ := carries_iff.mp hcarries
    exact ⟨i, e, List.mem_zipIdx_iff_getElem?.mp hmem, hrel, hnot, hfrom, hto⟩
  · rintro ⟨i, e, hget, hrel, hnot, hfrom, hto⟩
    exact ⟨(e, i), List.mem_zipIdx_iff_getElem?.mpr hget, carries_iff.mpr ⟨hrel, hnot⟩, hfrom, hto⟩

theorem supportStep_of_mem_carriersInto {removed : List ℕ} {v : ClaimArenaId}
    {e : EpistemicEdge × ℕ} (h : e ∈ g.carriersInto removed v) : g.SupportStep removed e.1.fromId v := by
  obtain ⟨hmem, hcarries, hto⟩ := mem_carriersInto.mp h
  exact ⟨e, hmem, hcarries, rfl, hto⟩

/-- The steps of the graph are the unmarked edges that the search scans. -/
theorem kept_iff_supportStep {removed : List ℕ} {a b : ClaimArenaId} :
    Dfs.Kept g.supportOut removed a b ↔ g.SupportStep removed a b := by
  rw [supportStep_iff]
  constructor
  · rintro ⟨i, hmem, hnot⟩
    obtain ⟨e, hget, hrel, hfrom, hto⟩ := mem_supportOut.mp hmem
    exact ⟨i, e, hget, hrel, hnot, hfrom, hto⟩
  · rintro ⟨i, e, hget, hrel, hnot, hfrom, hto⟩
    exact ⟨i, mem_supportOut.mpr ⟨e, hget, hrel, hfrom, hto⟩, hnot⟩

theorem mem_allNodes {v : ClaimArenaId} :
    v ∈ g.allNodes ↔ ∃ e ∈ g.edges, v = e.fromId ∨ v = e.toId := by
  simp [allNodes]

theorem supportOut_mem_allNodes (w : ClaimArenaId) (i : ℕ) (x : ClaimArenaId)
    (h : (i, x) ∈ g.supportOut w) : x ∈ g.allNodes := by
  obtain ⟨e, hget, _, _, hto⟩ := mem_supportOut.mp h
  exact mem_allNodes.mpr ⟨e, List.mem_of_getElem? hget, Or.inr hto.symm⟩

theorem SupportStep.mem_allNodes {removed : List ℕ} {a b : ClaimArenaId}
    (h : g.SupportStep removed a b) : a ∈ g.allNodes ∧ b ∈ g.allNodes := by
  obtain ⟨i, e, hget, _, _, hfrom, hto⟩ := supportStep_iff.mp h
  have hmem := List.mem_of_getElem? hget
  exact ⟨KnowledgeGraph.mem_allNodes.mpr ⟨e, hmem, Or.inl hfrom.symm⟩,
    KnowledgeGraph.mem_allNodes.mpr ⟨e, hmem, Or.inr hto.symm⟩⟩

/-- Without the marked edges there is no cycle of support. -/
theorem not_cycle_of_supportStep (g : KnowledgeGraph) (v : ClaimArenaId) :
    ¬ TransGen (g.SupportStep g.cyclicEdgeIndices) v v := by
  intro hcycle
  obtain ⟨w, hvw, -⟩ := TransGen.head'_iff.mp hcycle
  have hsettled : Dfs.Settled g.supportOut g.cyclicEdgeIndices v :=
    Dfs.settled_search supportOut_mem_allNodes (fun _ hr => hr) v hvw.mem_allNodes.1
  exact hsettled.not_cycle
    (TransGen.mono (fun _ _ hab => kept_iff_supportStep.mpr hab) _ _ hcycle)

/-- A marked edge lies on a cycle of support. -/
theorem cycle_of_mem_cyclicEdgeIndices {i : ℕ} (h : i ∈ g.cyclicEdgeIndices) :
    ∃ e, g.edges[i]? = some e ∧ e.relation.isSupport = true ∧
      ReflTransGen (g.SupportStep []) e.toId e.fromId := by
  have hinv : Dfs.SearchInv g.supportOut g.allNodes
      (Dfs.search g.supportOut g.allNodes.length g.allNodes) :=
    Dfs.search_spec supportOut_mem_allNodes fun _ hr => hr
  obtain ⟨a, b, hmem, hreach⟩ := hinv.back i h
  obtain ⟨e, hget, hrel, rfl, rfl⟩ := mem_supportOut.mp hmem
  refine ⟨e, hget, hrel, ReflTransGen.mono ?_ _ _ hreach⟩
  rintro a b ⟨j, hj⟩
  exact kept_iff_supportStep.mp ⟨j, hj, List.not_mem_nil⟩

/-- Cycle breaking is sound and exact: no cycle of support is left, every removed edge lies on a cycle,
and nothing is removed where there is no cycle. -/
theorem cyclicEdgeIndices_exact (g : KnowledgeGraph) :
    (∀ v, ¬ TransGen (g.SupportStep g.cyclicEdgeIndices) v v) ∧
    (∀ i ∈ g.cyclicEdgeIndices, ∃ e, g.edges[i]? = some e ∧ e.relation.isSupport = true ∧
      ReflTransGen (g.SupportStep []) e.toId e.fromId) ∧
    ((∀ v, ¬ TransGen (g.SupportStep []) v v) → g.cyclicEdgeIndices = []) := by
  refine ⟨g.not_cycle_of_supportStep, fun i hi => cycle_of_mem_cyclicEdgeIndices hi, ?_⟩
  intro hacyclic
  rw [List.eq_nil_iff_forall_not_mem]
  intro i hi
  obtain ⟨e, hget, hrel, hback⟩ := cycle_of_mem_cyclicEdgeIndices hi
  have hstep : g.SupportStep [] e.fromId e.toId :=
    supportStep_iff.mpr ⟨i, e, hget, hrel, List.not_mem_nil, rfl, rfl⟩
  exact hacyclic e.fromId (TransGen.head' hstep hback)

end KnowledgeGraph

end Aimp.Epistemic
