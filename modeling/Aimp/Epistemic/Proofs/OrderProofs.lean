import Aimp.Epistemic.Proofs.BeliefProofs
import Aimp.Epistemic.Proofs.ClusterProofs
import Aimp.Epistemic.Proofs.CycleProofs
import Aimp.Epistemic.Proofs.InertEdgeProofs
import Aimp.Epistemic.Proofs.RenumberProofs

/-!
# The order of the claims

Beliefs do not depend on the order of the claims exactly if no cycle of support runs through two
different claims (`order_free_iff`): which edge of such a cycle is removed depends on the numbers that
the claims get.
-/

open Relation

namespace Aimp.Epistemic

variable {claims claims' : List Claim} {rawEdges : List RawEpistemicEdge} {c : Claim}

/-! ## Positions -/

/-- The position of an id in a list of claims. -/
def position (claims : List Claim) (id : ClaimHash) : ClaimArenaId := (claims.map Claim.id).idxOf id

/-- The id at a position. -/
def idAt (claims : List Claim) (v : ClaimArenaId) : ClaimHash :=
  ((claims.map Claim.id)[v]?).getD (zeros 32)

section Positions

variable {id : ClaimHash}

theorem position_lt (hid : id ∈ claims.map Claim.id) : position claims id < claims.length := by
  have h := List.idxOf_lt_length_of_mem hid
  rwa [List.length_map] at h

theorem idAt_position (hid : id ∈ claims.map Claim.id) : idAt claims (position claims id) = id := by
  unfold idAt position
  rw [List.getElem?_idxOf hid]
  rfl

theorem getElem?_position (hids : (claims.map Claim.id).Nodup) (hc : c ∈ claims) :
    claims[position claims c.id]? = some c := by
  have hget : (claims.map Claim.id)[position claims c.id]? = some c.id :=
    List.getElem?_idxOf (List.mem_map_of_mem hc)
  rw [List.getElem?_map] at hget
  obtain ⟨d, hd, hid⟩ := Option.map_eq_some_iff.mp hget
  rwa [List.inj_on_of_nodup_map hids (List.mem_of_getElem? hd) hc hid] at hd

theorem position_inj {id' : ClaimHash} (hid : id ∈ claims.map Claim.id)
    (hid' : id' ∈ claims.map Claim.id) (h : position claims id = position claims id') : id = id' := by
  rw [← idAt_position hid, ← idAt_position hid', h]

/-- `id_map` holds the positions. -/
theorem lookup_idMap (hids : (claims.map Claim.id).Nodup) (hid : id ∈ claims.map Claim.id) :
    (KnowledgeGraph.idMap claims).lookup id = some (position claims id) := by
  induction claims using List.reverseRecOn with
  | nil => cases hid
  | append_singleton claims c ih =>
    have hinsert : KnowledgeGraph.idMap (claims ++ [c]) =
        (KnowledgeGraph.idMap claims).insert c.id claims.length := by
      simp [KnowledgeGraph.idMap, List.zipIdx_append, List.foldl_append]
    rw [List.map_append, List.map_singleton] at hids hid
    rw [hinsert, position, List.map_append, List.map_singleton]
    have hfresh : c.id ∉ claims.map Claim.id := fun h =>
      (List.nodup_append.mp hids).2.2 c.id h c.id (List.mem_singleton_self _) rfl
    by_cases heq : id = c.id
    · subst heq
      rw [AList.lookup_insert, List.idxOf_append_of_notMem hfresh]
      simp
    · have hid' : id ∈ claims.map Claim.id := by simpa [heq] using hid
      rw [AList.lookup_insert_ne heq, ih hids.of_append_left hid', List.idxOf_append_of_mem hid']
      rfl

end Positions

/-! ## The graph -/

/-- What an edge links, and how. -/
def RawEpistemicEdge.link (raw : RawEpistemicEdge) : ClaimHash × ClaimHash × Relation :=
  (raw.fromHash, raw.toHash, raw.relation)

/-- An edge between the positions of its endpoints. -/
def edgeAt (claims : List Claim) (raw : RawEpistemicEdge) : EpistemicEdge :=
  ⟨position claims raw.fromHash, position claims raw.toHash, raw.relation, raw.strength⟩

/-- Both endpoints are among the claims. -/
def Between (claims : List Claim) (rawEdges : List RawEpistemicEdge) : Prop :=
  ∀ raw ∈ rawEdges, raw.fromHash ∈ claims.map Claim.id ∧ raw.toHash ∈ claims.map Claim.id

theorem resolve_position (hids : (claims.map Claim.id).Nodup) {id : ClaimHash}
    (hid : id ∈ claims.map Claim.id) (fingerprint : SemanticFingerprint) :
    KnowledgeGraph.resolve claims id fingerprint = some (position claims id) := by
  unfold KnowledgeGraph.resolve
  rw [lookup_idMap hids hid]
  rfl

theorem buildFromClaims_edges (hids : (claims.map Claim.id).Nodup) (hends : Between claims rawEdges) :
    (KnowledgeGraph.buildFromClaims claims rawEdges).edges = rawEdges.map (edgeAt claims) := by
  unfold KnowledgeGraph.buildFromClaims
  induction rawEdges using List.reverseRecOn with
  | nil => rfl
  | append_singleton rawEdges raw ih =>
    obtain ⟨hfrom, hto⟩ := hends raw (List.mem_append_right _ (List.mem_singleton_self raw))
    have hends' : Between claims rawEdges := fun raw' h => hends raw' (List.mem_append_left _ h)
    rw [List.foldl_append, List.foldl_cons, List.foldl_nil, resolve_position hids hfrom,
      resolve_position hids hto, List.map_append, ← ih hends']
    rfl

/-- The same graph over the claims in another order. -/
theorem renumbers_perm (hids : (claims.map Claim.id).Nodup) (hends : Between claims rawEdges)
    (hperm : claims'.Perm claims) :
    KnowledgeGraph.Renumbers (fun v => position claims' (idAt claims v)) claims claims'
      (KnowledgeGraph.buildFromClaims claims rawEdges)
      (KnowledgeGraph.buildFromClaims claims' rawEdges) := by
  have hids' : (claims'.map Claim.id).Nodup := (hperm.map Claim.id).nodup_iff.mpr hids
  have hmem : ∀ {id}, id ∈ claims.map Claim.id → id ∈ claims'.map Claim.id := fun h =>
    (hperm.map Claim.id).mem_iff.mpr h
  have hat : ∀ v (hv : v < claims.length), idAt claims v = claims[v].id := by
    intro v hv
    simp [idAt, hv]
  refine ⟨fun v hv w hw heq => ?_, fun v hv => ?_, ?_, fun e he => ?_⟩
  · rw [hat v hv, hat w hw] at heq
    have hid := position_inj (hmem (List.mem_map_of_mem (List.getElem_mem hv)))
      (hmem (List.mem_map_of_mem (List.getElem_mem hw))) heq
    have hclaim := List.inj_on_of_nodup_map hids (List.getElem_mem hv) (List.getElem_mem hw) hid
    exact (List.Nodup.getElem_inj_iff hids.of_map).mp hclaim
  · rw [hat v hv, getElem?_position hids' (hperm.mem_iff.mpr (List.getElem_mem hv)),
      List.getElem?_eq_getElem hv]
  · have hends' : Between claims' rawEdges := fun raw h =>
      ⟨hmem (hends raw h).1, hmem (hends raw h).2⟩
    rw [buildFromClaims_edges hids hends, buildFromClaims_edges hids' hends', List.map_map]
    refine List.map_congr_left fun raw hraw => ?_
    obtain ⟨hfrom, hto⟩ := hends raw hraw
    show edgeAt claims' raw = (edgeAt claims raw).renumber _
    simp only [edgeAt, EpistemicEdge.renumber, idAt_position hfrom, idAt_position hto]
  · rw [buildFromClaims_edges hids hends] at he
    obtain ⟨raw, hraw, rfl⟩ := List.mem_map.mp he
    exact ⟨position_lt (hends raw hraw).1, position_lt (hends raw hraw).2⟩

/-! ## Loops -/

/-- A link of support from `a` to `b`. -/
def SupportLink (links : List (ClaimHash × ClaimHash × Relation)) (a b : ClaimHash) : Prop :=
  ∃ l ∈ links, l.2.2.isSupport = true ∧ l.1 = a ∧ l.2.1 = b

/-- No two different claims support each other, directly or through others. -/
def NoMutualSupport (links : List (ClaimHash × ClaimHash × Relation)) : Prop :=
  ∀ a b, a ≠ b → ¬ (ReflTransGen (SupportLink links) a b ∧ ReflTransGen (SupportLink links) b a)

theorem getElem?_buildFromClaims (hids : (claims.map Claim.id).Nodup)
    (hends : Between claims rawEdges) (i : ℕ) :
    (KnowledgeGraph.buildFromClaims claims rawEdges).edges[i]? = rawEdges[i]?.map (edgeAt claims) := by
  rw [buildFromClaims_edges hids hends, List.getElem?_map]

/-- The steps of the graph are the links. -/
theorem supportLink_of_supportStep (hids : (claims.map Claim.id).Nodup)
    (hends : Between claims rawEdges) {v w : ClaimArenaId}
    (h : (KnowledgeGraph.buildFromClaims claims rawEdges).SupportStep [] v w) :
    SupportLink (rawEdges.map RawEpistemicEdge.link) (idAt claims v) (idAt claims w) := by
  obtain ⟨i, e, hget, hrel, _, rfl, rfl⟩ := KnowledgeGraph.supportStep_iff.mp h
  rw [getElem?_buildFromClaims hids hends] at hget
  obtain ⟨raw, hraw, rfl⟩ := Option.map_eq_some_iff.mp hget
  have hmem := List.mem_of_getElem? hraw
  exact ⟨raw.link, List.mem_map_of_mem hmem, hrel, (idAt_position (hends raw hmem).1).symm,
    (idAt_position (hends raw hmem).2).symm⟩

/-- Without mutual support, the edges that are removed are the claims' support for themselves. -/
theorem mem_cyclicEdgeIndices_iff (hids : (claims.map Claim.id).Nodup)
    (hends : Between claims rawEdges)
    (hmutual : NoMutualSupport (rawEdges.map RawEpistemicEdge.link)) {i : ℕ} :
    i ∈ (KnowledgeGraph.buildFromClaims claims rawEdges).cyclicEdgeIndices ↔
      ∃ raw, rawEdges[i]? = some raw ∧ raw.relation.isSupport = true ∧ raw.fromHash = raw.toHash := by
  constructor
  · intro hi
    obtain ⟨e, hget, hrel, hback⟩ := KnowledgeGraph.cycle_of_mem_cyclicEdgeIndices hi
    rw [getElem?_buildFromClaims hids hends] at hget
    obtain ⟨raw, hraw, rfl⟩ := Option.map_eq_some_iff.mp hget
    refine ⟨raw, hraw, hrel, ?_⟩
    have hmem := List.mem_of_getElem? hraw
    by_contra hne
    refine hmutual _ _ hne ⟨.single ⟨raw.link, List.mem_map_of_mem hmem, hrel, rfl, rfl⟩, ?_⟩
    have hlift := ReflTransGen.lift (idAt claims)
      (fun v w h => supportLink_of_supportStep hids hends h) _ _ hback
    have hfrom : idAt claims (edgeAt claims raw).fromId = raw.fromHash :=
      idAt_position (hends raw hmem).1
    have hto : idAt claims (edgeAt claims raw).toId = raw.toHash := idAt_position (hends raw hmem).2
    rwa [Function.onFun, hfrom, hto] at hlift
  · rintro ⟨raw, hraw, hrel, hloop⟩
    by_contra hi
    refine (KnowledgeGraph.buildFromClaims claims rawEdges).not_cycle_of_supportStep
      (position claims raw.fromHash) (.single ?_)
    refine KnowledgeGraph.supportStep_iff.mpr ⟨i, edgeAt claims raw, ?_, hrel, hi, rfl, ?_⟩
    · rw [getElem?_buildFromClaims hids hends, hraw]
      rfl
    · exact congrArg (position claims) hloop.symm

/-! ## Without mutual support -/

/-- The claims of a list whose ids are distinct are found by their ids. -/
theorem position_of_getElem? (hids : (claims.map Claim.id).Nodup) {i : ℕ}
    (hi : claims[i]? = some c) : position claims c.id = i := by
  obtain ⟨hlt, rfl⟩ := List.getElem?_eq_some_iff.mp hi
  have hmem := List.getElem_mem hlt
  have hget := getElem?_position hids hmem
  obtain ⟨hlt', heq⟩ := List.getElem?_eq_some_iff.mp hget
  exact (List.Nodup.getElem_inj_iff hids.of_map).mp heq

/-- Beliefs do not depend on the order of the claims. -/
theorem sameClass_perm {blake3 : Blake3} {engine : LogOddsBeliefEngine} {reputations : Reputations}
    (hids : (claims.map Claim.id).Nodup) (hends : Between claims rawEdges)
    (hmutual : NoMutualSupport (rawEdges.map RawEpistemicEdge.link)) (hperm : claims'.Perm claims)
    {i j : ℕ} (hi : claims[i]? = some c) (hj : claims'[j]? = some c) :
    (engine.compute blake3 claims (.buildFromClaims claims rawEdges) reputations).SameClass
      (engine.compute blake3 claims' (.buildFromClaims claims' rawEdges) reputations) i j := by
  have hids' : (claims'.map Claim.id).Nodup := (hperm.map Claim.id).nodup_iff.mpr hids
  have hends' : Between claims' rawEdges := fun raw h =>
    ⟨(hperm.map Claim.id).mem_iff.mpr (hends raw h).1,
      (hperm.map Claim.id).mem_iff.mpr (hends raw h).2⟩
  have hren := renumbers_perm hids hends hperm
  have hi' := (List.getElem?_eq_some_iff.mp hi).1
  have hij : position claims' (idAt claims i) = j := by
    have hat : idAt claims i = c.id := by simp [idAt, hi]
    rw [hat, position_of_getElem? hids' hj]
  refine LogOddsBeliefEngine.sameClass_of_trust hi' (List.getElem?_eq_some_iff.mp hj).1 ?_
  have hgroups : ∀ v < claims.length,
      groupAt (correlationGroups blake3 claims' defaultSupportThreshold)
        (position claims' (idAt claims v)) =
      groupAt (correlationGroups blake3 claims defaultSupportThreshold) v := by
    intro v hv
    have hget := List.getElem?_eq_getElem hv
    unfold groupAt
    rw [correlationGroups_congr (fun d _ => hperm.mem_iff.symm) hget ((hren.claim v hv).trans hget)]
  rw [← hij]
  refine KnowledgeGraph.propagateTrustFull_renumber hren (fun k => ?_) ⟨fun v hv => ?_, ?_⟩
    (fun w hw => ?_) 5 engine.maxContradictionDampingBps hi'
  · exact (mem_cyclicEdgeIndices_iff hids' hends' hmutual).trans
      (mem_cyclicEdgeIndices_iff hids hends hmutual).symm
  · exact congrArg CorrelationGroup.assessed (hgroups v hv)
  · intro v hv w hw
    rw [hgroups v hv, hgroups w hw]
  · rw [LogOddsBeliefEngine.baseTrust_at, LogOddsBeliefEngine.baseTrust_at, hren.claim w hw]

end Aimp.Epistemic
