import Aimp.Epistemic.Proofs.AggregateProofs
import Aimp.Epistemic.Proofs.TrustProofs

/-!
# Renumbered claims

Two graphs over two lists of claims, of which the second one holds the claims of the first one at other
positions and maybe more. If the search for cycles removes the same edges and the correlation groups
join the same claims, then trust propagation gives every claim of the first list the same trust
(`propagateTrustFull_renumber`).
-/

namespace Aimp.Epistemic

/-- An edge between the positions that `σ` gives. -/
def EpistemicEdge.renumber (σ : ClaimArenaId → ClaimArenaId) (e : EpistemicEdge) : EpistemicEdge :=
  { e with fromId := σ e.fromId, toId := σ e.toId }

/-- The group of a claim; outside the claim array it is that of no evidence. -/
def groupAt (groups : List CorrelationGroup) (v : ClaimArenaId) : CorrelationGroup :=
  (groups[v]?).getD ⟨0, false⟩

/-- Two ways to group the claims that assess the same ones and put the same ones together. -/
structure SameGrouping (σ : ClaimArenaId → ClaimArenaId) (n : ℕ)
    (groups groups' : List CorrelationGroup) : Prop where
  assessed : ∀ v < n, (groupAt groups' (σ v)).assessed = (groupAt groups v).assessed
  key : ∀ v < n, ∀ w < n,
    (groupAt groups' (σ v)).key = (groupAt groups' (σ w)).key ↔
      (groupAt groups v).key = (groupAt groups w).key

namespace KnowledgeGraph

/-- `σ` carries the claims and the graph over to other positions. -/
structure Renumbers (σ : ClaimArenaId → ClaimArenaId) (claims claims' : List Claim)
    (g g' : KnowledgeGraph) : Prop where
  inj : ∀ v < claims.length, ∀ w < claims.length, σ v = σ w → v = w
  claim : ∀ v < claims.length, claims'[σ v]? = claims[v]?
  edges : g'.edges = g.edges.map (EpistemicEdge.renumber σ)
  endpoints : ∀ e ∈ g.edges, e.fromId < claims.length ∧ e.toId < claims.length

variable {σ : ClaimArenaId → ClaimArenaId} {claims claims' : List Claim} {g g' : KnowledgeGraph}
  {cyclicEdges cyclicEdges' : List ℕ} {groups groups' : List CorrelationGroup}
  {reputations : Reputations} {trust trust' start start' : ClaimArenaId → LogOdds}
  {v : ClaimArenaId}

/-- An edge with its index, renumbered. -/
def renumberIdx (σ : ClaimArenaId → ClaimArenaId) (e : EpistemicEdge × ℕ) : EpistemicEdge × ℕ :=
  (e.1.renumber σ, e.2)

section Edges

variable (h : Renumbers σ claims claims' g g')
include h

theorem Renumbers.zipIdx : g'.edges.zipIdx = g.edges.zipIdx.map (renumberIdx σ) := by
  rw [h.edges, List.zipIdx_map]
  rfl

theorem Renumbers.mem_zipIdx {e : EpistemicEdge × ℕ} (he : e ∈ g.edges.zipIdx) :
    e.1.fromId < claims.length ∧ e.1.toId < claims.length :=
  h.endpoints e.1 (List.mem_of_getElem? (List.mem_zipIdx_iff_getElem?.mp he))

theorem Renumbers.eq_iff {w : ClaimArenaId} (hv : v < claims.length) (hw : w < claims.length) :
    σ v = σ w ↔ v = w :=
  ⟨h.inj v hv w hw, congrArg σ⟩

theorem Renumbers.authorRep (hv : v < claims.length) :
    authorRep claims' reputations (σ v) = authorRep claims reputations v := by
  unfold Epistemic.authorRep
  rw [h.claim v hv]

end Edges

/-- The two searches for cycles remove the same edges. -/
def SameEdges (cyclicEdges cyclicEdges' : List ℕ) : Prop := ∀ i, i ∈ cyclicEdges' ↔ i ∈ cyclicEdges

theorem SameEdges.carries (hm : SameEdges cyclicEdges cyclicEdges')
    (σ : ClaimArenaId → ClaimArenaId) :
    KnowledgeGraph.carries cyclicEdges' ∘ renumberIdx σ = KnowledgeGraph.carries cyclicEdges := by
  funext e
  rw [Function.comp_apply, Bool.eq_iff_iff, carries_iff, carries_iff]
  exact and_congr_right fun _ => not_congr (hm e.2)

section Flow

variable (h : Renumbers σ claims claims' g g') (hm : SameEdges cyclicEdges cyclicEdges')
include h hm

theorem Renumbers.carriersInto (hv : v < claims.length) :
    g'.carriersInto cyclicEdges' (σ v) = (g.carriersInto cyclicEdges v).map (renumberIdx σ) := by
  unfold KnowledgeGraph.carriersInto
  rw [h.zipIdx, List.filter_map, List.filter_map, hm.carries]
  congr 1
  refine List.filter_congr fun e he => ?_
  show decide (σ e.1.toId = σ v) = _
  rw [decide_eq_decide]
  exact h.eq_iff (h.mem_zipIdx (List.mem_of_mem_filter he)).2 hv

theorem Renumbers.totalOut (hv : v < claims.length) :
    g'.totalOut cyclicEdges' (σ v) = g.totalOut cyclicEdges v := by
  rw [totalOut_eq, totalOut_eq, h.zipIdx, List.filter_map, List.filter_map, List.map_map]
  have hfrom : (g.edges.zipIdx.filter
      ((fun e : EpistemicEdge × ℕ => decide (e.1.fromId = σ v)) ∘ renumberIdx σ)) =
      g.edges.zipIdx.filter fun e => e.1.fromId = v := by
    refine List.filter_congr fun e he => ?_
    show decide (σ e.1.fromId = σ v) = _
    rw [decide_eq_decide]
    exact h.eq_iff (h.mem_zipIdx he).1 hv
  rw [hfrom, hm.carries]
  rfl

/-- The trust of the claims is carried over as well. -/
theorem Renumbers.contribution (htrust : ∀ w < claims.length, trust' (σ w) = trust w)
    {e : EpistemicEdge} (he : e.fromId < claims.length) :
    g'.contribution cyclicEdges' claims' reputations trust' (e.renumber σ) =
      g.contribution cyclicEdges claims reputations trust e := by
  unfold KnowledgeGraph.contribution
  dsimp only [EpistemicEdge.renumber]
  rw [htrust _ he, h.totalOut hm he, h.authorRep he]

/-- One iteration of Pass 1. -/
theorem Renumbers.flow (hgroups : SameGrouping σ claims.length groups groups') {discountBps : ℕ}
    (hd : discountBps ≤ 10000) (hstart : ∀ w < claims.length, start' (σ w) = start w)
    (htrust : ∀ w < claims.length, trust' (σ w) = trust w) (hv : v < claims.length) :
    g'.flow cyclicEdges' claims' groups' reputations discountBps start' trust' (σ v) =
      g.flow cyclicEdges claims groups reputations discountBps start trust v := by
  have hmem : ∀ e ∈ g.carriersInto cyclicEdges v, e.1.fromId < claims.length := fun e he =>
    (h.mem_zipIdx (mem_carriersInto.mp he).1).1
  have hsupport : aggregateHierarchical
      (g'.supportInto cyclicEdges' claims' groups' reputations trust' (σ v)) discountBps
        unassessedDiscountBps =
      aggregateHierarchical (g.supportInto cyclicEdges claims groups reputations trust v) discountBps
        unassessedDiscountBps := by
    unfold supportInto
    rw [h.carriersInto hm hv, List.map_map]
    refine aggregateHierarchical_relabel hd (fun e _ => contribution_nonneg trust e.1)
      (fun x hx y hy => ?_) (fun e he => ?_) (fun e he => ?_) _
    · exact hgroups.key _ (hmem x hx) _ (hmem y hy)
    · exact h.contribution hm htrust (hmem e he)
    · exact hgroups.assessed _ (hmem e he)
  unfold KnowledgeGraph.flow
  rw [hsupport, hstart v hv, h.carriersInto hm hv, List.isEmpty_map]

/-- Pass 1. -/
theorem Renumbers.iterate_flow (hgroups : SameGrouping σ claims.length groups groups')
    {discountBps : ℕ} (hd : discountBps ≤ 10000)
    (hstart : ∀ w < claims.length, start' (σ w) = start w) (k : ℕ) (hv : v < claims.length) :
    (g'.flow cyclicEdges' claims' groups' reputations discountBps start')^[k] start' (σ v) =
      (g.flow cyclicEdges claims groups reputations discountBps start)^[k] start v := by
  induction k generalizing v with
  | zero => exact hstart v hv
  | succ k ih =>
    rw [Function.iterate_succ_apply', Function.iterate_succ_apply']
    exact h.flow hm hgroups hd hstart (fun w hw => ih hw) hv

end Flow

section Settle

variable (h : Renumbers σ claims claims' g g')
  (htrust : ∀ w < claims.length, trust' (σ w) = trust w)
include h htrust

theorem Renumbers.weightInto (p : Relation → Bool) (hv : v < claims.length) :
    g'.weightInto trust' p (σ v) = g.weightInto trust p v := by
  unfold KnowledgeGraph.weightInto
  rw [h.edges, List.filter_map, List.map_map]
  have hto : (g.edges.filter ((fun e : EpistemicEdge => e.toId = σ v && p e.relation) ∘
      EpistemicEdge.renumber σ)) = g.edges.filter fun e => e.toId = v && p e.relation := by
    refine List.filter_congr fun e he => ?_
    show (decide (σ e.toId = σ v) && p e.relation) = _
    rw [decide_eq_decide.mpr (h.eq_iff (h.endpoints e he).2 hv)]
  rw [hto]
  congr 1
  refine List.map_congr_left fun e he => ?_
  show (trust' (σ e.fromId)).positivePart.value = _
  rw [htrust _ (h.endpoints e (List.mem_of_mem_filter he)).1]

theorem Renumbers.dynamicAlphaBps (dampingBps : ℕ) (hv : v < claims.length) :
    g'.dynamicAlphaBps trust' dampingBps (σ v) = g.dynamicAlphaBps trust dampingBps v := by
  unfold KnowledgeGraph.dynamicAlphaBps
  rw [h.weightInto htrust _ hv, h.weightInto htrust _ hv]

theorem Renumbers.cappedPenalty (dampingBps : ℕ) {e : EpistemicEdge} (he : e ∈ g.edges) :
    g'.cappedPenalty claims' reputations trust' dampingBps (e.renumber σ) =
      g.cappedPenalty claims reputations trust dampingBps e := by
  obtain ⟨hfrom, hto⟩ := h.endpoints e he
  unfold KnowledgeGraph.cappedPenalty
  dsimp only [EpistemicEdge.renumber]
  rw [htrust _ hfrom, htrust _ hto, h.authorRep hfrom, h.dynamicAlphaBps htrust dampingBps hto]

theorem Renumbers.penaltyInto (dampingBps : ℕ) (hv : v < claims.length) :
    g'.penaltyInto claims' reputations trust' dampingBps (σ v) =
      g.penaltyInto claims reputations trust dampingBps v := by
  unfold KnowledgeGraph.penaltyInto
  rw [h.edges, List.filter_map, List.filter_map, List.foldl_map]
  have hto : ((g.edges.filter ((fun e : EpistemicEdge => decide (e.relation = .contradicts)) ∘
      EpistemicEdge.renumber σ)).filter ((fun e : EpistemicEdge => decide (e.toId = σ v)) ∘
      EpistemicEdge.renumber σ)) =
      (g.edges.filter fun e => e.relation = .contradicts).filter fun e => e.toId = v := by
    refine List.filter_congr fun e he => ?_
    show decide (σ e.toId = σ v) = _
    rw [decide_eq_decide]
    exact h.eq_iff (h.endpoints e (List.mem_of_mem_filter he)).2 hv
  rw [hto]
  refine List.foldl_ext _ _ _ fun total e he => ?_
  rw [h.cappedPenalty htrust dampingBps (List.mem_of_mem_filter (List.mem_of_mem_filter he))]

/-- Pass 2. -/
theorem Renumbers.settle (dampingBps : ℕ) (hv : v < claims.length) :
    g'.settle claims' reputations dampingBps trust' (σ v) =
      g.settle claims reputations dampingBps trust v := by
  unfold KnowledgeGraph.settle
  rw [h.penaltyInto htrust dampingBps hv, htrust v hv]

end Settle

/-- Trust propagation gives the claims the same trust at their new positions. -/
theorem propagateTrustFull_renumber {blake3 : Blake3} (h : Renumbers σ claims claims' g g')
    (hm : SameEdges g.cyclicEdgeIndices g'.cyclicEdgeIndices)
    (hgroups : SameGrouping σ claims.length
      (correlationGroups blake3 claims defaultSupportThreshold)
      (correlationGroups blake3 claims' defaultSupportThreshold))
    {baseTrust baseTrust' : TrustMap} (hbase : ∀ w < claims.length, baseTrust'.at (σ w) = baseTrust.at w)
    (maxIterations dampingBps : ℕ) (hv : v < claims.length) :
    (g'.propagateTrustFull blake3 baseTrust' maxIterations dampingBps claims' reputations).at (σ v) =
      (g.propagateTrustFull blake3 baseTrust maxIterations dampingBps claims reputations).at v := by
  rw [propagateTrustFull_at, propagateTrustFull_at]
  refine h.settle (fun w hw => ?_) dampingBps hv
  exact h.iterate_flow hm hgroups (by decide) hbase maxIterations hw

end KnowledgeGraph

end Aimp.Epistemic
