import Aimp.Epistemic.Proofs.AggregateProofs
import Aimp.Epistemic.Proofs.CorrelationProofs
import Aimp.Epistemic.Proofs.TrustProofs

/-!
# Edges of strength zero

What an additional edge of support of strength 0 changes, and when it changes nothing
(`propagateTrustFull_addEdge_weightless`).
-/

namespace Aimp.Epistemic

theorem LogOdds.ofInt_zero : LogOdds.ofInt 0 = .neutral := rfl

theorem LogOdds.update_neutral {lo : LogOdds} (h : LogOdds.safeMin ≤ lo.value)
    (h' : lo.value ≤ LogOdds.safeMax) : lo.update .neutral = lo := by
  refine LogOdds.ext ?_
  show clamp LogOdds.safeMin LogOdds.safeMax (lo.value + 0) = lo.value
  rw [add_zero, clamp_of_mem h h']

namespace KnowledgeGraph

variable {g : KnowledgeGraph} {cyclicEdges : List ℕ} {claims : List Claim}
  {claimGroups : List CorrelationGroup} {reputations : Reputations}
  {trust : ClaimArenaId → LogOdds}

/-- An edge of strength 0 contributes nothing. -/
theorem contribution_weightless {e : EpistemicEdge} (h : e.strength.bps = 0) :
    g.contribution cyclicEdges claims reputations trust e = .neutral := by
  unfold contribution
  simp only [h, Nat.cast_zero, zero_mul, Int.zero_tdiv, mul_zero, LogOdds.ofInt_zero]

section AddEdge

variable {e : EpistemicEdge} {cyclicEdges' : List ℕ}

theorem zipIdx_addEdge (g : KnowledgeGraph) (e : EpistemicEdge) :
    (g.addEdge e).edges.zipIdx = g.edges.zipIdx ++ [(e, g.edges.length)] := by
  simp [addEdge, List.zipIdx_append]

/-- The search marks the same edges of `g`, whether or not there is another one. -/
def SameMarks (g : KnowledgeGraph) (cyclicEdges cyclicEdges' : List ℕ) : Prop :=
  ∀ i < g.edges.length, i ∈ cyclicEdges' ↔ i ∈ cyclicEdges

theorem SameMarks.filter_carries (h : SameMarks g cyclicEdges cyclicEdges')
    {l : List (EpistemicEdge × ℕ)} (hl : ∀ e ∈ l, e ∈ g.edges.zipIdx) :
    l.filter (carries cyclicEdges') = l.filter (carries cyclicEdges) := by
  refine List.filter_congr fun e he => ?_
  have hlt := (List.getElem?_eq_some_iff.mp (List.mem_zipIdx_iff_getElem?.mp (hl e he))).1
  rw [Bool.eq_iff_iff, carries_iff, carries_iff, h e.2 hlt]

/-- The edge itself adds no strength. -/
theorem totalOut_addEdge (h : SameMarks g cyclicEdges cyclicEdges') (hz : e.strength.bps = 0)
    (v : ClaimArenaId) : (g.addEdge e).totalOut cyclicEdges' v = g.totalOut cyclicEdges v := by
  rw [totalOut_eq, totalOut_eq, zipIdx_addEdge, List.filter_append, List.filter_append,
    List.map_append, List.sum_append, h.filter_carries fun e he => List.mem_of_mem_filter he]
  have hzero : ((List.filter (carries cyclicEdges')
      ([(e, g.edges.length)].filter fun e => decide (e.1.fromId = v))).map
      fun e => (e.1.strength.bps : ℤ)).sum = 0 := by
    refine List.sum_eq_zero fun x hx => ?_
    obtain ⟨y, hy, rfl⟩ := List.mem_map.mp hx
    rw [List.mem_singleton.mp (List.mem_of_mem_filter (List.mem_of_mem_filter hy)), hz]
    rfl
  rw [hzero, add_zero]

theorem supportEvidence_addEdge (h : SameMarks g cyclicEdges cyclicEdges')
    (hz : e.strength.bps = 0) (x : EpistemicEdge) :
    (g.addEdge e).supportEvidence cyclicEdges' claims claimGroups reputations trust x =
      g.supportEvidence cyclicEdges claims claimGroups reputations trust x := by
  unfold supportEvidence contribution
  rw [totalOut_addEdge h hz]

theorem carriersInto_addEdge (h : SameMarks g cyclicEdges cyclicEdges') (v : ClaimArenaId) :
    (g.addEdge e).carriersInto cyclicEdges' v = g.carriersInto cyclicEdges v ++
      if carries cyclicEdges' (e, g.edges.length) ∧ e.toId = v then [(e, g.edges.length)] else [] := by
  unfold carriersInto
  rw [zipIdx_addEdge, List.filter_append, List.filter_append, h.filter_carries fun _ he => he]
  congr 1
  by_cases hc : carries cyclicEdges' (e, g.edges.length) = true
  · by_cases hv : e.toId = v <;> simp [hc, hv]
  · simp [hc]

/-- The group of the source of an edge. -/
def sourceGroup (claimGroups : List CorrelationGroup) (v : ClaimArenaId) : CorrelationGroup :=
  (claimGroups[v]?).getD ⟨0, false⟩

/-- An unassessed source shares its key with no assessed claim. -/
def KeyApart (claimGroups : List CorrelationGroup) (v : ClaimArenaId) : Prop :=
  ∀ group ∈ claimGroups, group.key = (sourceGroup claimGroups v).key → group.assessed = true →
    (sourceGroup claimGroups v).assessed = true

/-- An iteration of Pass 1 does not notice an edge of strength 0. -/
theorem flow_addEdge (h : SameMarks g cyclicEdges cyclicEdges') (hz : e.strength.bps = 0)
    (hkey : KeyApart claimGroups e.fromId) {start : ClaimArenaId → LogOdds}
    (hsafe : LogOdds.safeMin ≤ (start e.toId).value ∧ (start e.toId).value ≤ LogOdds.safeMax) :
    (g.addEdge e).flow cyclicEdges' claims claimGroups reputations defaultDiscountBps start trust =
      g.flow cyclicEdges claims claimGroups reputations defaultDiscountBps start trust := by
  funext v
  unfold flow supportInto
  simp only [supportEvidence_addEdge h hz]
  have hinto := carriersInto_addEdge (e := e) h v
  by_cases hnew : carries cyclicEdges' (e, g.edges.length) = true ∧ e.toId = v
  · rw [if_pos hnew] at hinto
    obtain ⟨-, rfl⟩ := hnew
    rw [hinto, List.map_append, List.map_singleton]
    have hinsert := aggregateHierarchical_insert_zero
      ((g.carriersInto cyclicEdges e.toId).map fun x =>
        g.supportEvidence cyclicEdges claims claimGroups reputations trust x.1) []
      (z := g.supportEvidence cyclicEdges claims claimGroups reputations trust e)
      (show defaultDiscountBps ≤ 10000 by decide) (by
        rw [List.append_nil]
        exact supportInto_nonneg trust e.toId)
      (congrArg LogOdds.value (contribution_weightless hz)) (by
        intro x hx hxkey hxassessed
        rw [List.append_nil] at hx
        obtain ⟨y, _, rfl⟩ := List.mem_map.mp hx
        -- a source outside of the claim array is not assessed
        cases hy : claimGroups[y.1.fromId]? with
        | none =>
          simp only [supportEvidence, hy, Option.getD_none] at hxassessed
          cases hxassessed
        | some group =>
          simp only [supportEvidence, hy, Option.getD_some] at hxkey hxassessed
          exact hkey group (List.mem_of_getElem? hy) hxkey hxassessed)
      unassessedDiscountBps
    rw [hinsert, List.append_nil, if_neg (by simp)]
    by_cases hempty : (g.carriersInto cyclicEdges e.toId).isEmpty = true
    · rw [if_pos hempty, List.isEmpty_iff.mp hempty]
      exact LogOdds.update_neutral hsafe.1 hsafe.2
    · rw [if_neg hempty]
  · rw [if_neg hnew, List.append_nil] at hinto
    rw [hinto]

/-- An edge without positive trust, or to another node, has no weight at a node. -/
theorem weightInto_addEdge {v : ClaimArenaId} (h : (trust e.fromId).value ≤ 0 ∨ v ≠ e.toId)
    (p : Relation → Bool) : (g.addEdge e).weightInto trust p v = g.weightInto trust p v := by
  show (((g.edges ++ [e]).filter _).map _).sum = _
  rw [List.filter_append, List.map_append, List.sum_append, weightInto]
  refine add_eq_left.mpr (List.sum_eq_zero fun y hy => ?_)
  obtain ⟨z, hz, rfl⟩ := List.mem_map.mp hy
  obtain ⟨hmem, hcond⟩ := List.mem_filter.mp hz
  obtain rfl := List.mem_singleton.mp hmem
  rcases h with hle | hne
  · exact max_eq_right hle
  · have hto : z.toId = v := by simpa using ((Bool.and_eq_true ..).mp hcond).1
    exact absurd hto.symm hne

theorem dynamicAlphaBps_addEdge {v : ClaimArenaId} (h : (trust e.fromId).value ≤ 0 ∨ v ≠ e.toId)
    (dampingBps : ℕ) :
    (g.addEdge e).dynamicAlphaBps trust dampingBps v = g.dynamicAlphaBps trust dampingBps v := by
  unfold dynamicAlphaBps
  rw [weightInto_addEdge h, weightInto_addEdge h]

/-- Pass 2 does not notice an edge of support from a source without positive trust, nor one to a node
that nothing contradicts. -/
theorem settle_addEdge (hrel : e.relation.isSupport = true) {dampingBps : ℕ}
    (hcontra : (trust e.fromId).value ≤ 0 ∨
      ∀ x ∈ g.edges, x.relation = .contradicts → x.toId ≠ e.toId) :
    (g.addEdge e).settle claims reputations dampingBps trust =
      g.settle claims reputations dampingBps trust := by
  have hnot : e.relation ≠ .contradicts := by
    intro h
    rw [h] at hrel
    cases hrel
  have hedges : ((g.addEdge e).edges.filter fun x => x.relation = .contradicts) =
      g.edges.filter fun x => x.relation = .contradicts := by
    show (g.edges ++ [e]).filter _ = _
    rw [List.filter_append, List.filter_cons_of_neg (by simpa using hnot), List.filter_nil,
      List.append_nil]
  funext v
  have hpenalty : (g.addEdge e).penaltyInto claims reputations trust dampingBps v =
      g.penaltyInto claims reputations trust dampingBps v := by
    unfold penaltyInto
    rw [hedges]
    refine List.foldl_ext _ _ _ fun total x hx => ?_
    obtain ⟨hmem, hxrel⟩ := List.mem_filter.mp (List.mem_of_mem_filter hx)
    have hfar : (trust e.fromId).value ≤ 0 ∨ x.toId ≠ e.toId :=
      hcontra.imp_right fun h => h x hmem (by simpa using hxrel)
    unfold cappedPenalty
    rw [dynamicAlphaBps_addEdge hfar]
  unfold settle
  rw [hpenalty]

end AddEdge

/-- The keys that BLAKE3 gives to clusters differ from those of cells and origins, and from 0. -/
def KeysApart (blake3 : Blake3) (claims : List Claim) : Prop :=
  ∀ c ∈ claims, clusterKey blake3 c.id ≠ 0 ∧
    ∀ d ∈ claims, clusterKey blake3 c.id ≠ d.effectiveCorrelationCell blake3

theorem KeysApart.keyApart {blake3 : Blake3} (h : KeysApart blake3 claims) (v : ClaimArenaId) :
    KeyApart (correlationGroups blake3 claims defaultSupportThreshold) v := by
  intro group hgroup hkey hassessed
  obtain ⟨i, hi⟩ := List.mem_iff_getElem?.mp hgroup
  have hlt := (List.getElem?_eq_some_iff.mp hi).1
  rw [length_correlationGroups] at hlt
  obtain ⟨g, hg, hspec⟩ := correlationGroups_isGroup blake3 defaultSupportThreshold
    (List.getElem?_eq_getElem hlt)
  obtain rfl := Option.some.inj (hi.symm.trans hg)
  -- the key of the assessed group is that of the cluster of a claim
  obtain ⟨c, hc, hck⟩ : ∃ c ∈ claims, group.key = clusterKey blake3 c.id := by
    by_cases hca : Assessed claims claims[i]
    · obtain ⟨anchor, ⟨⟨c, hc, _, rfl⟩, _⟩, hgroup⟩ := hspec.assessed hca
      exact ⟨c, hc, congrArg CorrelationGroup.key hgroup⟩
    · rw [hspec.unassessed hca] at hassessed
      cases hassessed
  cases hv : claims[v]? with
  | none =>
    have hnone : (correlationGroups blake3 claims defaultSupportThreshold)[v]? = none := by
      rw [List.getElem?_eq_none_iff] at hv ⊢
      rwa [length_correlationGroups]
    rw [sourceGroup, hnone] at hkey
    exact absurd (hck.symm.trans hkey) (h c hc).1
  | some d =>
    obtain ⟨g', hg', hspec'⟩ := correlationGroups_isGroup blake3 defaultSupportThreshold hv
    rw [sourceGroup, hg', Option.getD_some] at hkey ⊢
    by_cases hda : Assessed claims d
    · obtain ⟨anchor, _, rfl⟩ := hspec'.assessed hda
      rfl
    · rw [hspec'.unassessed hda] at hkey
      exact absurd (hck.symm.trans hkey) ((h c hc).2 d (List.mem_of_getElem? hv))

/-- An additional edge of support of strength 0 changes the trust of no node, provided that the search
for cycles marks the same other edges, the base trust of the target is in the safe range, and the
target is not contradicted or the source has no positive trust. -/
theorem propagateTrustFull_addEdge_weightless {blake3 : Blake3} {e : EpistemicEdge}
    {baseTrust : TrustMap} {maxIterations dampingBps : ℕ} (hrel : e.relation.isSupport = true)
    (hz : e.strength.bps = 0)
    (hmarks : SameMarks g g.cyclicEdgeIndices (g.addEdge e).cyclicEdgeIndices)
    (hsafe : LogOdds.safeMin ≤ (baseTrust.at e.toId).value ∧
      (baseTrust.at e.toId).value ≤ LogOdds.safeMax)
    (hcontra : ((g.stabilized blake3 baseTrust maxIterations claims reputations 0 0
        defaultDiscountBps).at e.fromId).value ≤ 0 ∨
      ∀ x ∈ g.edges, x.relation = .contradicts → x.toId ≠ e.toId)
    (hkeys : KeysApart blake3 claims) (v : ClaimArenaId) :
    ((g.addEdge e).propagateTrustFull blake3 baseTrust maxIterations dampingBps claims
      reputations).at v =
      (g.propagateTrustFull blake3 baseTrust maxIterations dampingBps claims reputations).at v := by
  rw [stabilized_at, decayedBase_zero] at hcontra
  rw [propagateTrustFull_at, propagateTrustFull_at]
  have hflow : (g.addEdge e).flow (g.addEdge e).cyclicEdgeIndices claims
      (correlationGroups blake3 claims defaultSupportThreshold) reputations defaultDiscountBps
      baseTrust.at = g.flow g.cyclicEdgeIndices claims
      (correlationGroups blake3 claims defaultSupportThreshold) reputations defaultDiscountBps
      baseTrust.at := funext fun _ => flow_addEdge hmarks hz (hkeys.keyApart e.fromId) hsafe
  rw [hflow, settle_addEdge hrel hcontra]

/-! ### Runs with three claims -/

/-- Claims 0, 1 and 2 of one author. -/
def threeClaims : List Claim :=
  [plainClaim (uniformId 0) .neutral, plainClaim (uniformId 1) .neutral,
    plainClaim (uniformId 2) .neutral]

/-- An edge of full strength between two of them. -/
def fullEdge (fromId toId : ClaimArenaId) (relation : Relation) : EpistemicEdge :=
  ⟨fromId, toId, relation, .full⟩

/-- Support of strength 0 from claim 0 for claim 2. -/
def weightlessEdge : EpistemicEdge := ⟨0, 2, .supports, .zero⟩

/-- The trust in claim 2, for the given base trust in the claims. -/
def trustInTwo (g : KnowledgeGraph) (base : List (ClaimArenaId × LogOdds)) : LogOdds :=
  (g.propagateTrustFull sampleHash (base.foldl (fun t e => t.insert e.1 e.2) ∅) 5 5000 threeClaims
    fun _ => .full).at 2

/-- Support of claim 2 for claim 0 of full strength, besides support of strength 0 for claim 1. -/
theorem propagateTrustFull_addEdge_weightless_chain :
    weightlessEdge.relation.isSupport = true ∧ weightlessEdge.strength.bps = 0 ∧
    (((new.addEdge (fullEdge 0 1 .supports)).addEdge weightlessEdge).propagateTrustFull sampleHash
      ((∅ : TrustMap).insert 0 ⟨5000, by decide⟩) 5 5000 threeClaims fun _ => .full).at 1 =
      ((new.addEdge (fullEdge 0 1 .supports)).propagateTrustFull sampleHash
      ((∅ : TrustMap).insert 0 ⟨5000, by decide⟩) 5 5000 threeClaims fun _ => .full).at 1 := by
  refine ⟨rfl, rfl, propagateTrustFull_addEdge_weightless rfl rfl ?_ ?_ ?_ ?_ 1⟩
  · unfold SameMarks
    decide +kernel
  · decide +kernel
  · refine Or.inr fun x hx hrel => ?_
    rw [List.mem_singleton.mp hx] at hrel
    cases hrel
  · unfold KeysApart
    decide +kernel

/-- The search for cycles breaks the cycle between claims 1 and 2 at another edge; the contradiction of
claim 2 is damped; and the base trust in claim 2 is cut to the safe range. -/
theorem weightlessEdge_noticed :
    trustInTwo (((new.addEdge (fullEdge 1 2 .supports)).addEdge (fullEdge 2 1 .supports)).addEdge
      weightlessEdge) [(1, ⟨5000, by decide⟩)] ≠
      trustInTwo ((new.addEdge (fullEdge 1 2 .supports)).addEdge (fullEdge 2 1 .supports))
        [(1, ⟨5000, by decide⟩)] ∧
    trustInTwo ((new.addEdge (fullEdge 1 2 .contradicts)).addEdge weightlessEdge)
      [(0, ⟨13816, by decide⟩), (1, ⟨4000, by decide⟩), (2, ⟨4000, by decide⟩)] ≠
      trustInTwo (new.addEdge (fullEdge 1 2 .contradicts))
        [(0, ⟨13816, by decide⟩), (1, ⟨4000, by decide⟩), (2, ⟨4000, by decide⟩)] ∧
    trustInTwo (new.addEdge weightlessEdge) [(2, ⟨2000000000, by decide⟩)] ≠
      trustInTwo new [(2, ⟨2000000000, by decide⟩)] := by
  decide +kernel

end KnowledgeGraph

end Aimp.Epistemic
