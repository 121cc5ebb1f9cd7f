import Aimp.Epistemic.Proofs.OrderProofs
import Mathlib.Algebra.BigOperators.Group.List.Basic

/-!
# Mutual support

Where two claims support each other, some edge between them has to be removed, and the order of the
claims decides which one (`order_free_iff`).
-/

open Relation

namespace Aimp.Epistemic

/-- The highest declared confidence. -/
def strong : LogOdds := ⟨13816, isI32_13816⟩

theorem update_strong : LogOdds.neutral.update strong = strong := by decide

/-- A single item without assessment counts in full. -/
theorem aggregateHierarchical_strong {e : Evidence} (hlo : e.lo = strong)
    (hassessed : e.group.assessed = false) :
    aggregateHierarchical [e] defaultDiscountBps unassessedDiscountBps = strong := by
  have hone : ∀ e' ∈ [e], e'.group.key = e.group.key := fun e' he' => by
    rw [List.mem_singleton.mp he']
  unfold aggregateHierarchical
  rw [groupTotals_of_one_key hone (List.cons_ne_nil e [])]
  have htotal : groupTotal defaultDiscountBps [e] = 13816 := by
    simp [groupTotal, hlo]
    decide
  rw [htotal]
  simp [hassessed]
  decide

namespace KnowledgeGraph

variable {g : KnowledgeGraph} {marks : List ℕ} {claims : List Claim}
  {groups : List CorrelationGroup} {reputations : Reputations} {start trust : ClaimArenaId → LogOdds}
  {k : ℕ} {u w v : ClaimArenaId}

/-- No edge but one has a strength. -/
def OnlyStrong (g : KnowledgeGraph) (k : ℕ) : Prop :=
  ∀ (i : ℕ) (e : EpistemicEdge), g.edges[i]? = some e → i ≠ k → e.strength.bps = 0

section Flow

variable (hgroups : ∀ group ∈ groups, group.assessed = false)
include hgroups

theorem supportInto_unassessed :
    ∀ e ∈ g.supportInto marks claims groups reputations trust v, e.group.assessed = false := by
  intro e he
  obtain ⟨x, _, rfl⟩ := List.mem_map.mp he
  show ((groups[x.1.fromId]?).getD ⟨0, false⟩).assessed = false
  cases hget : groups[x.1.fromId]? with
  | none => rfl
  | some group => exact hgroups group (List.mem_of_getElem? hget)

/-- Only the edges that contribute count. -/
theorem aggregate_supportInto : aggregateHierarchical
      (g.supportInto marks claims groups reputations trust v) defaultDiscountBps
        unassessedDiscountBps =
    aggregateHierarchical (((g.carriersInto marks v).filter fun x =>
        (g.contribution marks claims reputations trust x.1).value ≠ 0).map fun x =>
        g.supportEvidence marks claims groups reputations trust x.1) defaultDiscountBps
      unassessedDiscountBps := by
  rw [← aggregateHierarchical_filter_zero (by decide) (supportInto_nonneg trust v)
    (supportInto_unassessed hgroups)]
  unfold supportInto
  rw [List.filter_map]
  rfl

/-- A node keeps its trust while no edge of strength leads to it. -/
theorem flow_of_weightless (hweightless : ∀ x ∈ g.carriersInto marks v, x.1.strength.bps = 0)
    (hmin : LogOdds.safeMin ≤ (start v).value) (hmax : (start v).value ≤ LogOdds.safeMax) :
    g.flow marks claims groups reputations defaultDiscountBps start trust v = start v := by
  have hnil : (g.carriersInto marks v).filter (fun x =>
      (g.contribution marks claims reputations trust x.1).value ≠ 0) = [] := by
    rw [List.filter_eq_nil_iff]
    intro x hx
    rw [contribution_weightless (hweightless x hx)]
    decide
  unfold flow
  rw [aggregate_supportInto hgroups, hnil]
  split
  · rfl
  · exact LogOdds.update_neutral hmin hmax

/-- A neutral node takes over the trust that one edge brings. -/
theorem flow_of_strong {e : EpistemicEdge} (he : (e, k) ∈ g.carriersInto marks v)
    (honly : g.OnlyStrong k) (hstart : start v = .neutral)
    (hcontribution : g.contribution marks claims reputations trust e = strong) :
    g.flow marks claims groups reputations defaultDiscountBps start trust v = strong := by
  have hone : (g.carriersInto marks v).filter (fun x =>
      (g.contribution marks claims reputations trust x.1).value ≠ 0) = [(e, k)] := by
    refine List.perm_singleton.mp ?_
    have hnodup : (g.carriersInto marks v).Nodup :=
      ((List.nodup_zipIdx_map_snd g.edges).of_map.filter _).filter _
    refine (List.perm_ext_iff_of_nodup (hnodup.filter _) (List.nodup_singleton _)).mpr fun x => ?_
    rw [List.mem_filter, List.mem_singleton]
    constructor
    · rintro ⟨hx, hne⟩
      have hgetx := List.mem_zipIdx_iff_getElem?.mp (mem_carriersInto.mp hx).1
      have hgete := List.mem_zipIdx_iff_getElem?.mp (mem_carriersInto.mp he).1
      have hk : x.2 = k := by
        by_contra hk
        rw [contribution_weightless (honly x.2 x.1 hgetx hk)] at hne
        exact absurd hne (by decide)
      rw [hk] at hgetx
      exact Prod.ext (Option.some.inj (hgetx.symm.trans hgete)) hk
    · rintro rfl
      refine ⟨he, ?_⟩
      rw [hcontribution]
      decide
  unfold flow
  rw [aggregate_supportInto hgroups, hone, if_neg (by simpa using List.ne_nil_of_mem he), hstart,
    List.map_singleton, aggregateHierarchical_strong hcontribution
      (supportInto_unassessed hgroups _ (List.mem_map_of_mem he)), update_strong]

end Flow

theorem cappedPenalty_weightless {dampingBps : ℕ} {e : EpistemicEdge} (h : e.strength.bps = 0) :
    g.cappedPenalty claims reputations trust dampingBps e = 0 := by
  have halpha : 0 ≤ g.dynamicAlphaBps trust dampingBps e.toId :=
    le_min (Int.emod_nonneg _ (by decide)) (Int.natCast_nonneg _)
  unfold cappedPenalty
  simp only [h, Nat.cast_zero, zero_mul, Int.zero_tdiv, mul_zero, abs_zero]
  by_cases hpos : 0 < (trust e.toId).value
  · rw [if_pos hpos]
    exact min_eq_left (Int.tdiv_nonneg (mul_nonneg hpos.le halpha) (by decide))
  · rw [if_neg hpos, min_self]

theorem saturatingSub_globallyCapped_zero (dampingBps : ℕ) (target lo : LogOdds) :
    lo.saturatingSub (globallyCapped dampingBps target 0) = lo := by
  have hzero : globallyCapped dampingBps target 0 = 0 := by
    unfold globallyCapped clamp
    exact max_eq_left ((min_le_left _ _).trans (min_le_left _ _))
  rw [hzero]
  refine LogOdds.ext ?_
  show clamp i32Min i32Max (lo.value - 0) = lo.value
  rw [sub_zero, clamp_of_mem lo.isI32.1 lo.isI32.2]

/-- Edges without strength contradict nothing. -/
theorem settle_of_weightless {dampingBps : ℕ}
    (hweightless : ∀ e ∈ g.edges, e.relation = .contradicts → e.strength.bps = 0) :
    g.settle claims reputations dampingBps trust v = trust v := by
  have hfold : ∀ l : List EpistemicEdge,
      (∀ e ∈ l, g.cappedPenalty claims reputations trust dampingBps e = 0) →
      ∀ t : Option ℤ, t.getD 0 = 0 → (l.foldl (fun total e => some (wrapI64 (total.getD 0 +
        g.cappedPenalty claims reputations trust dampingBps e))) t).getD 0 = 0 := by
    intro l hl
    induction l with
    | nil => exact fun t ht => ht
    | cons e l ih =>
      intro t ht
      refine ih (fun e' he' => hl e' (List.mem_cons_of_mem e he')) _ ?_
      dsimp only
      rw [hl e (List.mem_cons_self ..), ht]
      rfl
  have hpenalty : (g.penaltyInto claims reputations trust dampingBps v).getD 0 = 0 := by
    refine hfold _ (fun e he => ?_) none rfl
    obtain ⟨he, hrel⟩ := List.mem_filter.mp (List.mem_of_mem_filter he)
    exact cappedPenalty_weightless (hweightless e he (by simpa using hrel))
  unfold settle
  cases hinto : g.penaltyInto claims reputations trust dampingBps v with
  | none => rfl
  | some total =>
    rw [hinto, Option.getD_some] at hpenalty
    rw [hpenalty, Option.elim_some, saturatingSub_globallyCapped_zero]

/-! ## One edge of strength -/

section Strong

variable {e : EpistemicEdge} (hget : g.edges[k]? = some e) (honly : g.OnlyStrong k)
  (hstrength : e.strength = .full) (hrel : e.relation.isSupport = true)
include hget honly hstrength hrel

theorem totalOut_of_strong (hmark : k ∉ marks) : g.totalOut marks e.fromId = 10000 := by
  have hmem : (e, k) ∈ g.edges.zipIdx := List.mem_zipIdx_iff_getElem?.mpr hget
  have hnodup : g.edges.zipIdx.Nodup := (List.nodup_zipIdx_map_snd g.edges).of_map
  have hcarrier : (e, k) ∈ (g.edges.zipIdx.filter fun x => x.1.fromId = e.fromId).filter
      (carries marks) :=
    List.mem_filter.mpr ⟨List.mem_filter.mpr ⟨hmem, by simp⟩, carries_iff.mpr ⟨hrel, hmark⟩⟩
  have hnodup' := (hnodup.filter fun x => x.1.fromId = e.fromId).filter (carries marks)
  -- the other edges have no strength
  have hzero : (((((g.edges.zipIdx.filter fun x => x.1.fromId = e.fromId).filter
      (carries marks)).erase (e, k)).map fun x => (x.1.strength.bps : ℤ)).sum) = 0 := by
    refine List.sum_eq_zero fun s hs => ?_
    obtain ⟨x, hx, rfl⟩ := List.mem_map.mp hs
    obtain ⟨hne, hx⟩ := hnodup'.mem_erase_iff.mp hx
    have hgetx := List.mem_zipIdx_iff_getElem?.mp
      (List.mem_of_mem_filter (List.mem_of_mem_filter hx))
    have hk : x.2 ≠ k := by
      intro hk
      rw [hk] at hgetx
      exact hne (Prod.ext (Option.some.inj (hgetx.symm.trans hget)) hk)
    rw [honly x.2 x.1 hgetx hk]
    rfl
  rw [totalOut_eq, ((List.perm_cons_erase hcarrier).map _).sum_eq, List.map_cons, List.sum_cons, hzero,
    hstrength]
  rfl

/-- An edge of full strength that is not removed hands on all of the trust. -/
theorem contribution_of_strong (hmark : k ∉ marks) (htrust : trust e.fromId = strong)
    (hauthor : authorRep claims reputations e.fromId = 10000) :
    g.contribution marks claims reputations trust e = strong := by
  unfold contribution
  rw [totalOut_of_strong hget honly hstrength hrel hmark, htrust, hauthor, hstrength]
  decide

end Strong

/-- One edge of full strength, from a node of strong trust to a neutral one. -/
structure StrongEdge (g : KnowledgeGraph) (k : ℕ) (e : EpistemicEdge)
    (start : ClaimArenaId → LogOdds) : Prop where
  edge : g.edges[k]? = some e
  only : g.OnlyStrong k
  strength : e.strength = .full
  support : e.relation.isSupport = true
  noLoop : e.fromId ≠ e.toId
  source : start e.fromId = strong
  target : start e.toId = .neutral

section Run

variable {e : EpistemicEdge} (h : StrongEdge g k e start)
  (hgroups : ∀ group ∈ groups, group.assessed = false)
include h

theorem StrongEdge.weightless (hv : e.toId ≠ v ∨ k ∈ marks) :
    ∀ x ∈ g.carriersInto marks v, x.1.strength.bps = 0 := by
  intro x hx
  obtain ⟨hmem, hcarries, hto⟩ := mem_carriersInto.mp hx
  have hgetx := List.mem_zipIdx_iff_getElem?.mp hmem
  refine h.only x.2 x.1 hgetx fun hk => ?_
  rcases hv with hv | hv
  · rw [hk] at hgetx
    obtain rfl := Option.some.inj (hgetx.symm.trans h.edge)
    exact hv hto
  · exact (carries_iff.mp hcarries).2 (hk ▸ hv)

theorem StrongEdge.settle (dampingBps : ℕ) :
    g.settle claims reputations dampingBps trust v = trust v := by
  refine settle_of_weightless fun e' he' hrel => ?_
  obtain ⟨i, hi⟩ := List.mem_iff_getElem?.mp he'
  refine h.only i e' hi ?_
  rintro rfl
  obtain rfl := Option.some.inj (hi.symm.trans h.edge)
  have hsupport := h.support
  rw [hrel] at hsupport
  cases hsupport

include hgroups

/-- The source keeps its trust. -/
theorem StrongEdge.iterate_source (n : ℕ) :
    (g.flow marks claims groups reputations defaultDiscountBps start)^[n] start e.fromId = strong := by
  cases n with
  | zero => exact h.source
  | succ n =>
    rw [Function.iterate_succ_apply', flow_of_weightless hgroups (h.weightless (Or.inl h.noLoop.symm)),
      h.source]
    · rw [h.source]
      decide
    · rw [h.source]
      decide

/-- The target takes the trust over, if the edge is not removed. -/
theorem StrongEdge.iterate_target (hmark : k ∉ marks)
    (hauthor : authorRep claims reputations e.fromId = 10000) (n : ℕ) :
    (g.flow marks claims groups reputations defaultDiscountBps start)^[n + 1] start e.toId =
      strong := by
  have hcarrier : (e, k) ∈ g.carriersInto marks e.toId := by
    refine mem_carriersInto.mpr ⟨List.mem_zipIdx_iff_getElem?.mpr h.edge, ?_, rfl⟩
    exact carries_iff.mpr ⟨h.support, hmark⟩
  rw [Function.iterate_succ_apply']
  refine flow_of_strong hgroups hcarrier h.only h.target ?_
  exact contribution_of_strong h.edge h.only h.strength h.support hmark
    (h.iterate_source hgroups n) hauthor

/-- Otherwise it stays neutral. -/
theorem StrongEdge.iterate_removed (hmark : k ∈ marks) (n : ℕ) :
    (g.flow marks claims groups reputations defaultDiscountBps start)^[n] start e.toId =
      .neutral := by
  cases n with
  | zero => exact h.target
  | succ n =>
    rw [Function.iterate_succ_apply', flow_of_weightless hgroups (h.weightless (Or.inr hmark)),
      h.target]
    · rw [h.target]
      decide
    · rw [h.target]
      decide

end Run

/-! ## The first node of the search -/

/-- The search starts at node 0, if an edge touches it. -/
theorem firstRoot_cyclicEdgeIndices (h : 0 ∈ g.allNodes) :
    ∃ s, Dfs.FirstRoot g.supportOut 0 s ∧ s.marked = g.cyclicEdgeIndices := by
  have hsorted : g.allNodes.Pairwise (· ≤ ·) :=
    (List.pairwise_insertionSort (· ≤ ·) _).sublist (List.dedup_sublist _)
  obtain ⟨rest, hrest⟩ : ∃ rest, g.allNodes = 0 :: rest := by
    cases hnodes : g.allNodes with
    | nil =>
      rw [hnodes] at h
      cases h
    | cons v rest =>
      rw [hnodes] at h hsorted
      have hv : v = 0 := by
        rcases List.mem_cons.mp h with hv | hv
        · exact hv.symm
        · exact Nat.le_zero.mp ((List.pairwise_cons.mp hsorted).1 0 hv)
      exact ⟨rest, by rw [hv]⟩
  have hinj : ∀ (i : ℕ) (a x b y : ClaimArenaId), (i, x) ∈ g.supportOut a →
      (i, y) ∈ g.supportOut b → a = b ∧ x = y := by
    intro i a x b y hx hy
    obtain ⟨e, hget, _, hfrom, hto⟩ := mem_supportOut.mp hx
    obtain ⟨e', hget', _, hfrom', hto'⟩ := mem_supportOut.mp hy
    obtain rfl := Option.some.inj (hget.symm.trans hget')
    exact ⟨hfrom.symm.trans hfrom', hto.symm.trans hto'⟩
  have hroots : ∀ v ∈ 0 :: rest, v ∈ g.allNodes := fun v hv => hrest ▸ hv
  refine ⟨_, Dfs.firstRoot_search supportOut_mem_allNodes hinj hroots, ?_⟩
  rw [cyclicEdgeIndices, hrest]

/-- The search keeps the edges that leave node 0. -/
theorem not_mem_cyclicEdgeIndices {e : EpistemicEdge} (hget : g.edges[k]? = some e)
    (hrel : e.relation.isSupport = true) (hfrom : e.fromId = 0) (hto : e.toId ≠ 0) :
    k ∉ g.cyclicEdgeIndices := by
  have hmem := List.mem_of_getElem? hget
  obtain ⟨s, hs, hmarked⟩ :=
    firstRoot_cyclicEdgeIndices (mem_allNodes.mpr ⟨e, hmem, Or.inl hfrom.symm⟩)
  intro hk
  exact hto (hs.own k e.toId (hmarked ▸ hk) (mem_supportOut.mpr ⟨e, hget, hrel, hfrom, rfl⟩))

/-- The search removes the edges that lead back to node 0. -/
theorem mem_cyclicEdgeIndices {e : EpistemicEdge} (hget : g.edges[k]? = some e)
    (hrel : e.relation.isSupport = true) (hto : e.toId = 0)
    (hreach : ReflTransGen (g.SupportStep []) 0 e.fromId) : k ∈ g.cyclicEdgeIndices := by
  have hmem := List.mem_of_getElem? hget
  obtain ⟨s, hs, hmarked⟩ :=
    firstRoot_cyclicEdgeIndices (mem_allNodes.mpr ⟨e, hmem, Or.inr hto.symm⟩)
  rw [← hmarked]
  refine hs.into e.fromId k ?_ (mem_supportOut.mpr ⟨e, hget, hrel, rfl, hto⟩)
  refine ReflTransGen.mono (fun a b hab => ?_) _ _ hreach
  obtain ⟨i, hi, -⟩ := kept_iff_supportStep.mpr hab
  exact ⟨i, hi⟩

end KnowledgeGraph

/-! ## Two orders -/

section Orders

variable {links : List (ClaimHash × ClaimHash × Relation)} {ids : List ClaimHash} {k : ℕ}
  {u w : ClaimHash} {rel : Relation} {blake3 : Blake3}

/-- Claims of one author, of which only `u` is confident. -/
def oneConfident (u : ClaimHash) (ids : List ClaimHash) : List Claim :=
  ids.map fun id => plainClaim id (if id = u then strong else .neutral)

/-- Edges for the links, of which only the one at index `k` has a strength. -/
def oneStrong (links : List (ClaimHash × ClaimHash × Relation)) (k : ℕ) : List RawEpistemicEdge :=
  links.zipIdx.map fun l => ⟨l.1.1, ⟨zeros 16, 0⟩, l.1.2.1, ⟨zeros 16, 0⟩, l.1.2.2,
    if l.2 = k then .full else .zero⟩

@[simp] theorem map_id_oneConfident : (oneConfident u ids).map Claim.id = ids := by
  simp [oneConfident, plainClaim, Function.comp_def]

@[simp] theorem map_link_oneStrong : (oneStrong links k).map RawEpistemicEdge.link = links := by
  unfold oneStrong
  rw [List.map_map]
  exact List.zipIdx_map_fst 0 links

theorem between_oneStrong (hends : ∀ l ∈ links, l.1 ∈ ids ∧ l.2.1 ∈ ids) :
    Between (oneConfident u ids) (oneStrong links k) := by
  intro raw hraw
  rw [map_id_oneConfident]
  obtain ⟨l, hl, rfl⟩ := List.mem_map.mp hraw
  exact hends l.1 (List.mem_of_getElem? (List.mem_zipIdx_iff_getElem?.mp hl))

theorem getElem?_oneConfident (hids : ids.Nodup) {id : ClaimHash} (hid : id ∈ ids) :
    (oneConfident u ids)[position (oneConfident u ids) id]? =
      some (plainClaim id (if id = u then strong else .neutral)) := by
  have hmem : plainClaim id (if id = u then strong else .neutral) ∈ oneConfident u ids :=
    List.mem_map_of_mem hid
  exact getElem?_position (by simpa using hids) hmem

theorem unassessed_oneConfident :
    ∀ group ∈ correlationGroups blake3 (oneConfident u ids) defaultSupportThreshold,
      group.assessed = false := by
  intro group hgroup
  obtain ⟨i, hi⟩ := List.mem_iff_getElem?.mp hgroup
  have hlt := (List.getElem?_eq_some_iff.mp hi).1
  rw [length_correlationGroups] at hlt
  have hspec := isGroup_of_getElem? (List.getElem?_eq_getElem hlt) hi
  rw [Bool.eq_false_iff]
  intro ha
  obtain ⟨id, _, hid⟩ := List.mem_map.mp (List.getElem_mem hlt)
  have hembedding := (hspec.assessed_iff.mp ha).1
  rw [← hid] at hembedding
  cases hembedding

/-- The edge of the confident claim, whatever the order of the claims. -/
theorem strongEdge_oneStrong (hids : ids.Nodup) (hends : ∀ l ∈ links, l.1 ∈ ids ∧ l.2.1 ∈ ids)
    (hk : links[k]? = some (u, w, rel)) (hrel : rel.isSupport = true) (huw : u ≠ w) :
    KnowledgeGraph.StrongEdge
      (.buildFromClaims (oneConfident u ids) (oneStrong links k)) k
      ⟨position (oneConfident u ids) u, position (oneConfident u ids) w, rel, .full⟩
      (LogOddsBeliefEngine.baseTrust (oneConfident u ids) fun _ => .full).at := by
  have hids' : ((oneConfident u ids).map Claim.id).Nodup := by simpa using hids
  have hget : ∀ i, (KnowledgeGraph.buildFromClaims (oneConfident u ids)
      (oneStrong links k)).edges[i]? = links[i]?.map fun l =>
        EpistemicEdge.mk (position (oneConfident u ids) l.1) (position (oneConfident u ids) l.2.1)
          l.2.2 (if i = k then .full else .zero) := by
    intro i
    rw [getElem?_buildFromClaims hids' (between_oneStrong hends), oneStrong, List.getElem?_map,
      List.getElem?_zipIdx]
    cases links[i]? with
    | none => rfl
    | some l => simp [edgeAt]
  obtain ⟨hu, hw⟩ := hends _ (List.mem_of_getElem? hk)
  refine ⟨?_, fun i e hi hne => ?_, rfl, hrel, fun heq => huw ?_, ?_, ?_⟩
  · rw [hget, hk, Option.map_some, if_pos rfl]
  · rw [hget] at hi
    obtain ⟨l, _, rfl⟩ := Option.map_eq_some_iff.mp hi
    rw [if_neg hne]
    rfl
  · exact position_inj (by simpa using hu) (by simpa using hw) heq
  · rw [LogOddsBeliefEngine.baseTrust_at, getElem?_oneConfident hids hu, if_pos rfl]
    show Reputation.full.weightEvidence strong.clampDeclared = strong
    decide
  · rw [LogOddsBeliefEngine.baseTrust_at, getElem?_oneConfident hids hw, if_neg huw.symm]
    show Reputation.full.weightEvidence LogOdds.neutral.clampDeclared = .neutral
    decide

section Belief

variable (hids : ids.Nodup) (hends : ∀ l ∈ links, l.1 ∈ ids ∧ l.2.1 ∈ ids)
  (hk : links[k]? = some (u, w, rel)) (hrel : rel.isSupport = true) (huw : u ≠ w)
include hids hends hk hrel huw

/-- If the confident claim is the first one, then the claim that it supports is accepted. -/
theorem accepted_of_first (hfirst : position (oneConfident u ids) u = 0) :
    position (oneConfident u ids) w ∈ (LogOddsBeliefEngine.default.compute blake3 (oneConfident u ids)
      (.buildFromClaims (oneConfident u ids) (oneStrong links k)) fun _ => .full).accepted := by
  have h := strongEdge_oneStrong hids hends hk hrel huw
  obtain ⟨hu, hw⟩ := hends _ (List.mem_of_getElem? hk)
  have hto : position (oneConfident u ids) w ≠ 0 := fun heq => h.noLoop (hfirst.trans heq.symm)
  have hmark := KnowledgeGraph.not_mem_cyclicEdgeIndices h.edge hrel hfirst hto
  have hauthor : authorRep (oneConfident u ids) (fun _ => .full) (position (oneConfident u ids) u) =
      10000 := by
    rw [authorRep, getElem?_oneConfident hids hu]
    rfl
  refine LogOddsBeliefEngine.mem_accepted.mpr ⟨position_lt (by simpa using hw), ?_⟩
  rw [LogOddsBeliefEngine.propagated, KnowledgeGraph.propagateTrustFull_at, h.settle,
    h.iterate_target unassessed_oneConfident hmark hauthor 4]
  decide

/-- If the claim that it supports is the first one and supports the confident claim in turn, then it is
not accepted. -/
theorem not_accepted_of_first (hfirst : position (oneConfident u ids) w = 0)
    (hback : ReflTransGen (SupportLink links) w u) :
    position (oneConfident u ids) w ∉ (LogOddsBeliefEngine.default.compute blake3
      (oneConfident u ids) (.buildFromClaims (oneConfident u ids) (oneStrong links k))
      fun _ => .full).accepted := by
  have h := strongEdge_oneStrong hids hends hk hrel huw
  have hids' : ((oneConfident u ids).map Claim.id).Nodup := by simpa using hids
  have hstep : ∀ a b, SupportLink links a b →
      (KnowledgeGraph.buildFromClaims (oneConfident u ids) (oneStrong links k)).SupportStep []
        (position (oneConfident u ids) a) (position (oneConfident u ids) b) := by
    rintro a b ⟨l, hl, hsupport, rfl, rfl⟩
    rw [← @map_link_oneStrong links k] at hl
    obtain ⟨raw, hraw, rfl⟩ := List.mem_map.mp hl
    obtain ⟨i, hi⟩ := List.mem_iff_getElem?.mp hraw
    refine KnowledgeGraph.supportStep_iff.mpr ⟨i, edgeAt (oneConfident u ids) raw, ?_, hsupport,
      List.not_mem_nil, rfl, rfl⟩
    rw [getElem?_buildFromClaims hids' (between_oneStrong hends), hi]
    rfl
  have hreach := ReflTransGen.lift (position (oneConfident u ids)) hstep _ _ hback
  rw [Function.onFun, hfirst] at hreach
  have hmark := KnowledgeGraph.mem_cyclicEdgeIndices h.edge hrel hfirst hreach
  intro haccepted
  have htrust := (LogOddsBeliefEngine.mem_accepted.mp haccepted).2
  rw [LogOddsBeliefEngine.propagated, KnowledgeGraph.propagateTrustFull_at, h.settle,
    h.iterate_removed unassessed_oneConfident hmark 5] at htrust
  exact absurd htrust (by decide)

end Belief

/-! ## Exactly without mutual support -/

/-- Whatever the claims with these ids, the strengths of these links and the reputations, the order of
the claims does not matter to the class of any claim. -/
def OrderFree (blake3 : Blake3) (ids : List ClaimHash)
    (links : List (ClaimHash × ClaimHash × Relation)) : Prop :=
  ∀ (engine : LogOddsBeliefEngine) (reputations : Reputations) (claims claims' : List Claim)
    (rawEdges : List RawEpistemicEdge), (claims.map Claim.id).Perm ids → claims'.Perm claims →
    rawEdges.map RawEpistemicEdge.link = links →
    ∀ (i j : ℕ) (c : Claim), claims[i]? = some c → claims'[j]? = some c →
      (engine.compute blake3 claims (.buildFromClaims claims rawEdges) reputations).SameClass
        (engine.compute blake3 claims' (.buildFromClaims claims' rawEdges) reputations) i j

/-- The first step of a path that leaves its start. -/
theorem exists_step_of_ne {α : Type} {r : α → α → Prop} {a b : α} (h : ReflTransGen r a b)
    (hne : a ≠ b) : ∃ c, r a c ∧ a ≠ c ∧ ReflTransGen r c b := by
  induction h using ReflTransGen.head_induction_on with
  | refl => exact absurd rfl hne
  | @head a c hstep hrest ih =>
    by_cases hac : a = c
    · subst hac
      exact ih hne
    · exact ⟨c, hstep, hac, hrest⟩

theorem position_head (u id : ClaimHash) (rest : List ClaimHash) :
    position (oneConfident u (id :: rest)) id = 0 := by
  simp [position, oneConfident, plainClaim]

/-- Beliefs are independent of the order of the claims exactly if no two different claims support each
other. -/
theorem order_free_iff (blake3 : Blake3) (ids : List ClaimHash)
    (links : List (ClaimHash × ClaimHash × Relation)) (hids : ids.Nodup)
    (hends : ∀ l ∈ links, l.1 ∈ ids ∧ l.2.1 ∈ ids) :
    OrderFree blake3 ids links ↔ NoMutualSupport links := by
  constructor
  · intro hfree a b hne ⟨hab, hba⟩
    obtain ⟨w, ⟨l, hl, hsupport, rfl, rfl⟩, huw, hwb⟩ := exists_step_of_ne hab hne
    obtain ⟨u, w, rel⟩ := l
    have hback := hwb.trans hba
    obtain ⟨k, hk⟩ := List.mem_iff_getElem?.mp hl
    obtain ⟨hu, hw⟩ := hends _ hl
    -- once with the one claim first, once with the other one
    have hpermu : (u :: ids.erase u).Perm ids := (List.perm_cons_erase hu).symm
    have hpermw : (w :: ids.erase w).Perm ids := (List.perm_cons_erase hw).symm
    have hendsu : ∀ l ∈ links, l.1 ∈ u :: ids.erase u ∧ l.2.1 ∈ u :: ids.erase u := fun l hl =>
      ⟨hpermu.mem_iff.mpr (hends l hl).1, hpermu.mem_iff.mpr (hends l hl).2⟩
    have hendsw : ∀ l ∈ links, l.1 ∈ w :: ids.erase w ∧ l.2.1 ∈ w :: ids.erase w := fun l hl =>
      ⟨hpermw.mem_iff.mpr (hends l hl).1, hpermw.mem_iff.mpr (hends l hl).2⟩
    have hnodupu := hpermu.nodup_iff.mpr hids
    have hnodupw := hpermw.nodup_iff.mpr hids
    have hsame := hfree .default (fun _ => .full) (oneConfident u (u :: ids.erase u))
      (oneConfident u (w :: ids.erase w)) (oneStrong links k) (by simpa using hpermu)
      ((hpermw.trans hpermu.symm).map _) map_link_oneStrong _ _ _
      (getElem?_oneConfident hnodupu (hpermu.mem_iff.mpr hw))
      (getElem?_oneConfident hnodupw (hpermw.mem_iff.mpr hw))
    have haccepted := hsame.accepted.mp
      (accepted_of_first hnodupu hendsu hk hsupport huw (position_head u u _))
    exact not_accepted_of_first hnodupw hendsw hk hsupport huw (position_head u w _) hback haccepted
  · intro hmutual engine reputations claims claims' rawEdges hperm hperm' hlinks i j c hi hj
    have hids' : (claims.map Claim.id).Nodup := hperm.nodup_iff.mpr hids
    have hends' : Between claims rawEdges := by
      intro raw hraw
      obtain ⟨hfrom, hto⟩ := hends raw.link (hlinks ▸ List.mem_map_of_mem hraw)
      exact ⟨hperm.mem_iff.mpr hfrom, hperm.mem_iff.mpr hto⟩
    exact sameClass_perm hids' hends' (hlinks ▸ hmutual) hperm' hi hj

/-- No mutual support, if support leads upwards. -/
theorem noMutualSupport_of_rank (rank : ClaimHash → ℕ)
    (h : ∀ l ∈ links, l.2.2.isSupport = true → l.1 = l.2.1 ∨ rank l.1 < rank l.2.1) :
    NoMutualSupport links := by
  have hle : ∀ {a b}, ReflTransGen (SupportLink links) a b → rank a ≤ rank b := by
    intro a b hab
    induction hab with
    | refl => exact le_rfl
    | tail _ hstep ih =>
      obtain ⟨l, hl, hsupport, rfl, rfl⟩ := hstep
      rcases h l hl hsupport with heq | hlt
      · exact heq ▸ ih
      · exact ih.trans hlt.le
  rintro a b hne ⟨hab, hba⟩
  obtain ⟨c, ⟨l, hl, hsupport, rfl, rfl⟩, hac, hcb⟩ := exists_step_of_ne hab hne
  have hlt := (h l hl hsupport).resolve_left hac
  exact absurd (hlt.trans_le ((hle hcb).trans (hle hba))) (lt_irrefl _)

end Orders

/-! ### Two claims -/

/-- Support of one claim for another, and of that one for itself. -/
theorem order_free_iff_loop :
    [uniformId 0, uniformId 1].Nodup ∧ OrderFree sampleHash [uniformId 0, uniformId 1]
      [(uniformId 0, uniformId 1, .supports), (uniformId 1, uniformId 1, .supports)] := by
  have hids : [uniformId 0, uniformId 1].Nodup := by decide
  refine ⟨hids, (order_free_iff _ _ _ hids (by decide)).mpr ?_⟩
  exact noMutualSupport_of_rank (fun id => if id = uniformId 0 then 0 else 1) (by decide)

/-- Support of full strength. -/
def fullSupport (fromHash toHash : ClaimHash) : RawEpistemicEdge :=
  ⟨fromHash, ⟨zeros 16, 0⟩, toHash, ⟨zeros 16, 0⟩, .supports, .full⟩

/-- A confident claim and a neutral one. -/
def confidentAndNeutral : List Claim :=
  [plainClaim (uniformId 0) strong, plainClaim (uniformId 1) .neutral]

/-- The claims support each other. The neutral one is accepted if it comes second, and uncertain if it
comes first. -/
theorem mutualSupport_ordered :
    (confidentAndNeutral.map Claim.id).Nodup ∧
    1 ∈ (LogOddsBeliefEngine.default.compute sampleHash confidentAndNeutral
      (.buildFromClaims confidentAndNeutral [fullSupport (uniformId 0) (uniformId 1),
        fullSupport (uniformId 1) (uniformId 0)]) fun _ => .full).accepted ∧
    0 ∈ (LogOddsBeliefEngine.default.compute sampleHash confidentAndNeutral.reverse
      (.buildFromClaims confidentAndNeutral.reverse [fullSupport (uniformId 0) (uniformId 1),
        fullSupport (uniformId 1) (uniformId 0)]) fun _ => .full).uncertain := by
  decide +kernel

end Aimp.Epistemic
