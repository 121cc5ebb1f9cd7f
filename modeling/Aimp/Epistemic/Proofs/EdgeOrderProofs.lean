import Aimp.Epistemic.Proofs.AggregateProofs
import Aimp.Epistemic.Proofs.FixedPointProofs
import Aimp.Lib.DfsOrder
import Mathlib.Data.Fin.VecNotation
import Mathlib.Data.List.OfFn
import Mathlib.Logic.Equiv.Basic

/-!
# The order of the edges

The same edges added in another order make the same trust. The search for cycles removes the same edges
(`mem_cyclicEdgeIndices_reorder`), and both passes of propagation count each edge in a way that does
not depend on where it stands (`propagateTrustCorrelated_reorder`).
-/

namespace Aimp.Epistemic

namespace KnowledgeGraph

variable {σ : Equiv.Perm ℕ} {g g' : KnowledgeGraph} {v : ClaimArenaId}

/-- `g'` holds the edges of `g` in another order. Its edge at `i` stands at `σ i` in `g`. -/
def Reorders (σ : Equiv.Perm ℕ) (g g' : KnowledgeGraph) : Prop :=
  ∀ i, g'.edges[i]? = g.edges[σ i]?

/-- An edge of `g'`, with its index in `g`. -/
def oldIndex (σ : Equiv.Perm ℕ) (e : EpistemicEdge × ℕ) : EpistemicEdge × ℕ := (e.1, σ e.2)

theorem nodup_zipIdx (edges : List EpistemicEdge) : edges.zipIdx.Nodup :=
  (List.nodup_zipIdx_map_snd edges).of_map Prod.snd

theorem oldIndex_injective (σ : Equiv.Perm ℕ) : Function.Injective (oldIndex σ) := by
  rintro ⟨e, i⟩ ⟨d, j⟩ h
  obtain ⟨rfl, hidx⟩ := Prod.mk.inj h
  exact congrArg (Prod.mk e) (σ.injective hidx)

theorem Reorders.zipIdx (h : Reorders σ g g') :
    (g'.edges.zipIdx.map (oldIndex σ)).Perm g.edges.zipIdx := by
  refine (List.perm_ext_iff_of_nodup ((nodup_zipIdx _).map (oldIndex_injective σ))
    (nodup_zipIdx _)).mpr ?_
  rintro ⟨e, j⟩
  rw [List.mem_map, List.mem_zipIdx_iff_getElem?]
  constructor
  · rintro ⟨⟨d, i⟩, hmem, heq⟩
    obtain ⟨rfl, rfl⟩ := Prod.mk.inj heq
    rw [← h i]
    exact List.mem_zipIdx_iff_getElem?.mp hmem
  · intro hget
    refine ⟨(e, σ.symm j), List.mem_zipIdx_iff_getElem?.mpr ?_, ?_⟩
    · rwa [h, σ.apply_symm_apply]
    · rw [oldIndex, σ.apply_symm_apply]

theorem Reorders.edges (h : Reorders σ g g') : g'.edges.Perm g.edges := by
  have hfst := h.zipIdx.map Prod.fst
  rw [List.map_map] at hfst
  have hsame : (Prod.fst ∘ oldIndex σ : EpistemicEdge × ℕ → EpistemicEdge) = Prod.fst := rfl
  rwa [hsame, List.zipIdx_map_fst, List.zipIdx_map_fst] at hfst

/-! ## The search for cycles -/

/-- What the search scans at a node, but for the order. -/
theorem supportOut_perm (g : KnowledgeGraph) (v : ClaimArenaId) :
    (g.supportOut v).Perm ((g.edges.zipIdx.filter fun e => e.1.fromId = v &&
      e.1.relation.isSupport).map fun e => (e.2, e.1.toId)) := by
  have hlisted : (((g.adjacency.lookup v).getD []).filterMap fun i => (g.edges[i]?).map (i, ·)) =
      (g.edges.zipIdx.filter fun e => e.1.fromId = v).map Prod.swap := by
    rw [g.adjacent, ← filterMap_edgesFrom, List.map_filterMap]
    refine List.filterMap_congr fun i _ => ?_
    rw [Option.map_map]
    rfl
  unfold supportOut sortedOut
  rw [hlisted]
  refine (((List.perm_insertionSort _ _).filter _).map _).trans (.of_eq ?_)
  rw [List.filter_map, List.map_map, List.filter_filter]
  simp only [Bool.and_comm]
  rfl

theorem supportOut_sorted (g : KnowledgeGraph) (v : ClaimArenaId) :
    (g.supportOut v).Pairwise fun a b => a.2 ≤ b.2 := by
  have htotal : Std.Total fun a b : ℕ × EpistemicEdge => a.2.toId ≤ b.2.toId :=
    ⟨fun a b => le_total a.2.toId b.2.toId⟩
  have htrans : IsTrans (ℕ × EpistemicEdge) fun a b => a.2.toId ≤ b.2.toId :=
    ⟨fun _ _ _ => le_trans⟩
  unfold supportOut
  rw [List.pairwise_map]
  exact (List.pairwise_insertionSort _ _).filter _

theorem Reorders.supportOut (h : Reorders σ g g') (v : ClaimArenaId) :
    ((g'.supportOut v).map (Prod.map σ id)).Perm (g.supportOut v) := by
  have hnew := (g'.supportOut_perm v).map (Prod.map σ id)
  have hold := (h.zipIdx.filter fun e => e.1.fromId = v && e.1.relation.isSupport).map
    fun e => (e.2, e.1.toId)
  rw [List.filter_map, List.map_map] at hold
  rw [List.map_map] at hnew
  exact (hnew.trans hold).trans (g.supportOut_perm v).symm

theorem allNodes_perm (h : g'.edges.Perm g.edges) : g'.allNodes = g.allNodes := by
  unfold allNodes
  congr 1
  refine List.Perm.eq_of_pairwise' (List.pairwise_insertionSort _ _)
    (List.pairwise_insertionSort _ _) ?_
  exact (List.perm_insertionSort _ _).trans
    ((h.flatMap_right _).trans (List.perm_insertionSort _ _).symm)

/-- The search removes the same edges. -/
theorem Reorders.mem_cyclicEdgeIndices (h : Reorders σ g g') (i : ℕ) :
    i ∈ g'.cyclicEdgeIndices ↔ σ i ∈ g.cyclicEdgeIndices := by
  unfold cyclicEdgeIndices
  rw [allNodes_perm h.edges]
  exact Dfs.search_agree (Dfs.sameTargets_of_sorted g.supportOut_sorted g'.supportOut_sorted
    σ.injective h.supportOut) _ _ i

/-- It removes the same edges as well if the sort leaves the edges to one target in another order. -/
theorem mem_search_of_sorted {out : ClaimArenaId → List (ℕ × ClaimArenaId)}
    (hperm : ∀ v, (out v).Perm (g.supportOut v))
    (hsorted : ∀ v, (out v).Pairwise fun a b => a.2 ≤ b.2) (i : ℕ) :
    i ∈ (Dfs.search out g.allNodes.length g.allNodes).marked ↔ i ∈ g.cyclicEdgeIndices := by
  refine Dfs.search_agree (f := id) (Dfs.sameTargets_of_sorted g.supportOut_sorted hsorted
    Function.injective_id fun v => ?_) _ _ i
  rw [Prod.map_id, List.map_id]
  exact hperm v

/-! ## Pass 1 -/

/-- The same edges are removed from both graphs. -/
def SameRemoved (σ : Equiv.Perm ℕ) (cyclicEdges cyclicEdges' : List ℕ) : Prop :=
  ∀ i, i ∈ cyclicEdges' ↔ σ i ∈ cyclicEdges

variable {cyclicEdges cyclicEdges' : List ℕ} {claims : List Claim}
  {claimGroups : List CorrelationGroup} {reputations : Reputations}
  {discountBps : ℕ} {start trust : ClaimArenaId → LogOdds}

theorem SameRemoved.carries (hm : SameRemoved σ cyclicEdges cyclicEdges') :
    KnowledgeGraph.carries cyclicEdges' = KnowledgeGraph.carries cyclicEdges ∘ oldIndex σ := by
  funext e
  rw [Bool.eq_iff_iff, Function.comp_apply, carries_iff, carries_iff, hm e.2]
  rfl

section Flow

variable (h : Reorders σ g g') (hm : SameRemoved σ cyclicEdges cyclicEdges')
include h hm

theorem Reorders.carriersInto (v : ClaimArenaId) :
    ((g'.carriersInto cyclicEdges' v).map (oldIndex σ)).Perm (g.carriersInto cyclicEdges v) := by
  have hperm := (h.zipIdx.filter (KnowledgeGraph.carries cyclicEdges)).filter fun e => e.1.toId = v
  rw [List.filter_map, List.filter_map, ← hm.carries] at hperm
  exact hperm

theorem Reorders.totalOut : g'.totalOut cyclicEdges' = g.totalOut cyclicEdges := by
  funext v
  have hperm := ((h.zipIdx.filter fun e => e.1.fromId = v).filter
    (KnowledgeGraph.carries cyclicEdges)).map fun e => (e.1.strength.bps : ℤ)
  rw [List.filter_map, List.filter_map, ← hm.carries, List.map_map] at hperm
  rw [totalOut_eq, totalOut_eq, ← hperm.sum_eq]
  rfl

/-- Every edge contributes the same, so a node receives the same evidence. -/
theorem Reorders.supportInto (v : ClaimArenaId) :
    (g'.supportInto cyclicEdges' claims claimGroups reputations trust v).Perm
      (g.supportInto cyclicEdges claims claimGroups reputations trust v) := by
  have hevidence : g'.supportEvidence cyclicEdges' claims claimGroups reputations trust =
      g.supportEvidence cyclicEdges claims claimGroups reputations trust := by
    funext e
    unfold supportEvidence contribution
    rw [h.totalOut hm]
  have hperm := (h.carriersInto hm v).map fun e =>
    g.supportEvidence cyclicEdges claims claimGroups reputations trust e.1
  rw [List.map_map] at hperm
  unfold KnowledgeGraph.supportInto
  rw [hevidence]
  exact hperm

theorem Reorders.isEmpty_carriersInto (v : ClaimArenaId) :
    (g'.carriersInto cyclicEdges' v).isEmpty = (g.carriersInto cyclicEdges v).isEmpty := by
  rw [← (h.carriersInto hm v).isEmpty_eq, List.isEmpty_map]

/-- One iteration of Pass 1. -/
theorem Reorders.flow (hd : discountBps ≤ 10000) :
    g'.flow cyclicEdges' claims claimGroups reputations discountBps start =
      g.flow cyclicEdges claims claimGroups reputations discountBps start := by
  funext trust v
  unfold KnowledgeGraph.flow
  rw [h.isEmpty_carriersInto hm,
    aggregateHierarchical_perm hd (supportInto_nonneg trust v) (h.supportInto hm v)]

end Flow

section Pass1

variable {blake3 : Blake3} {baseTrust : TrustMap} {maxIterations currentTick halfLifeTicks : ℕ}

theorem stabilized_zero : g.stabilized blake3 baseTrust 0 claims reputations currentTick halfLifeTicks
    discountBps = decayedBase baseTrust claims currentTick halfLifeTicks :=
  rfl

theorem Reorders.lookup_stabilized (h : Reorders σ g g') (hd : discountBps ≤ 10000)
    (v : ClaimArenaId) :
    (g'.stabilized blake3 baseTrust maxIterations claims reputations currentTick halfLifeTicks
      discountBps).lookup v =
      (g.stabilized blake3 baseTrust maxIterations claims reputations currentTick halfLifeTicks
        discountBps).lookup v := by
  cases maxIterations with
  | zero => rw [stabilized_zero, stabilized_zero]
  | succ n =>
    refine TrustMap.lookup_eq_of_at ?_ ?_
    · rw [KnowledgeGraph.stabilized_at, KnowledgeGraph.stabilized_at,
        h.flow h.mem_cyclicEdgeIndices hd]
    · rw [lookup_stabilized_succ, lookup_stabilized_succ, ← List.isEmpty_iff, ← List.isEmpty_iff,
        h.isEmpty_carriersInto h.mem_cyclicEdgeIndices]

theorem Reorders.stabilized_at (h : Reorders σ g g') (hd : discountBps ≤ 10000) :
    (g'.stabilized blake3 baseTrust maxIterations claims reputations currentTick halfLifeTicks
      discountBps).at =
      (g.stabilized blake3 baseTrust maxIterations claims reputations currentTick halfLifeTicks
        discountBps).at := by
  funext v
  rw [TrustMap.at, TrustMap.at, h.lookup_stabilized hd]

end Pass1

/-! ## Pass 2 -/

section Settle

variable (h : g'.edges.Perm g.edges)
include h

theorem weightInto_perm : g'.weightInto = g.weightInto := by
  funext trust p v
  exact ((h.filter _).map _).sum_eq

theorem cappedPenalty_perm : g'.cappedPenalty = g.cappedPenalty := by
  funext claims reputations trust dampingBps e
  unfold cappedPenalty dynamicAlphaBps
  rw [weightInto_perm h]

/-- Penalties add up to the same total in every order. -/
theorem penaltyInto_perm : g'.penaltyInto = g.penaltyInto := by
  funext claims reputations trust dampingBps v
  unfold penaltyInto
  rw [cappedPenalty_perm h]
  refine ((h.filter _).filter _).foldl_eq' (fun a _ b _ total => ?_) none
  refine congrArg some ?_
  simp only [Option.getD_some, wrapI64, Int.bmod_add_bmod]
  rw [add_right_comm]

end Settle

/-- Trust propagation returns the same map. -/
theorem Reorders.lookup_propagateTrustCorrelated (h : Reorders σ g g') {blake3 : Blake3}
    {baseTrust : TrustMap} {maxIterations dampingBps currentTick halfLifeTicks : ℕ}
    (hd : discountBps ≤ 10000) (v : ClaimArenaId) :
    (g'.propagateTrustCorrelated blake3 baseTrust maxIterations dampingBps claims reputations
      currentTick halfLifeTicks discountBps).lookup v =
      (g.propagateTrustCorrelated blake3 baseTrust maxIterations dampingBps claims reputations
        currentTick halfLifeTicks discountBps).lookup v := by
  unfold propagateTrustCorrelated
  dsimp only
  rw [lookup_applyPenalties, lookup_applyPenalties, lookup_penalties, lookup_penalties,
    penaltyInto_perm h.edges, h.stabilized_at hd, h.lookup_stabilized hd]

/-! ## Adding edges in another order -/

/-- The graph to which the edges are added one after another. -/
def ofEdges (edges : List EpistemicEdge) : KnowledgeGraph := edges.foldl addEdge new

theorem edges_ofEdges (edges : List EpistemicEdge) : (ofEdges edges).edges = edges := by
  unfold ofEdges
  induction edges using List.reverseRecOn with
  | nil => rfl
  | append_singleton edges e ih =>
    rw [List.foldl_append]
    exact congrArg (· ++ [e]) ih

/-- A permutation of the indices of a list, on all indices. -/
def extendIndices {n : ℕ} (σ : Equiv.Perm (Fin n)) : Equiv.Perm ℕ :=
  σ.extendDomain Fin.equivSubtype

theorem extendIndices_val {n : ℕ} (σ : Equiv.Perm (Fin n)) (i : Fin n) :
    extendIndices σ i = (σ i : ℕ) :=
  Equiv.Perm.extendDomain_apply_image σ Fin.equivSubtype i

theorem reorders_ofFn {n : ℕ} (edge : Fin n → EpistemicEdge) (σ : Equiv.Perm (Fin n)) :
    Reorders (extendIndices σ) (ofEdges (List.ofFn edge)) (ofEdges (List.ofFn (edge ∘ σ))) := by
  intro i
  rw [edges_ofEdges, edges_ofEdges]
  by_cases hi : i < n
  · have hval := extendIndices_val σ ⟨i, hi⟩
    dsimp only at hval
    rw [hval]
    simp [hi]
  · have hfix : extendIndices σ i = i := Equiv.Perm.extendDomain_apply_not_subtype σ _ hi
    rw [hfix]
    simp [hi]

/-- Propagation and the search for cycles do not depend on the order in which the edges are added. -/
theorem propagateTrustCorrelated_reorder (blake3 : Blake3) (baseTrust : TrustMap)
    (maxIterations dampingBps : ℕ) (claims : List Claim) (reputations : Reputations)
    (currentTick halfLifeTicks : ℕ) {discountBps : ℕ} (hd : discountBps ≤ 10000) {n : ℕ}
    (edge : Fin n → EpistemicEdge) (σ : Equiv.Perm (Fin n)) :
    (∀ v, ((ofEdges (List.ofFn (edge ∘ σ))).propagateTrustCorrelated blake3 baseTrust maxIterations
        dampingBps claims reputations currentTick halfLifeTicks discountBps).lookup v =
      ((ofEdges (List.ofFn edge)).propagateTrustCorrelated blake3 baseTrust maxIterations dampingBps
        claims reputations currentTick halfLifeTicks discountBps).lookup v) ∧
    ∀ i : Fin n, (i : ℕ) ∈ (ofEdges (List.ofFn (edge ∘ σ))).cyclicEdgeIndices ↔
      (σ i : ℕ) ∈ (ofEdges (List.ofFn edge)).cyclicEdgeIndices := by
  have h := reorders_ofFn edge σ
  refine ⟨fun v => h.lookup_propagateTrustCorrelated hd v, fun i => ?_⟩
  rw [h.mem_cyclicEdgeIndices, extendIndices_val]

/-- Parallel edges on a cycle, with a contradiction. -/
def tangledEdge : Fin 4 → EpistemicEdge :=
  ![⟨0, 1, .supports, .full⟩, ⟨1, 0, .derivedFrom, .full⟩, ⟨1, 0, .supports, .full⟩,
    ⟨0, 1, .contradicts, .full⟩]

theorem propagateTrustCorrelated_reorder_tangled :
    (∀ v, ((ofEdges (List.ofFn (tangledEdge ∘ Equiv.swap 0 2))).propagateTrustCorrelated sampleHash
        highBase 5 9000 supportedPair (fun _ => .full) 0 0 defaultDiscountBps).lookup v =
      ((ofEdges (List.ofFn tangledEdge)).propagateTrustCorrelated sampleHash highBase 5 9000
        supportedPair (fun _ => .full) 0 0 defaultDiscountBps).lookup v) ∧
    ∀ i : Fin 4, (i : ℕ) ∈ (ofEdges (List.ofFn (tangledEdge ∘ Equiv.swap 0 2))).cyclicEdgeIndices ↔
      (Equiv.swap (0 : Fin 4) 2 i : ℕ) ∈ (ofEdges (List.ofFn tangledEdge)).cyclicEdgeIndices :=
  propagateTrustCorrelated_reorder sampleHash highBase 5 9000 supportedPair (fun _ => .full) 0 0
    (by decide) tangledEdge (Equiv.swap 0 2)

end KnowledgeGraph

end Aimp.Epistemic
