import Aimp.Epistemic.Trust

/-!
# Trust as a function of the nodes

The maps that trust propagation works on hold, up to absent entries, functions from the nodes to
log-odds. On these functions Pass 1 is the iteration of `flow` and Pass 2 is `settle`
(`propagateTrustCorrelated_at`).
-/

namespace Aimp.Epistemic

theorem TrustMap.lookup_decayedBase {baseTrust : TrustMap} {claims : List Claim}
    {currentTick halfLifeTicks : ℕ} {v : ClaimArenaId}
    (h : (decayedBase baseTrust claims currentTick halfLifeTicks).lookup v = none) :
    baseTrust.lookup v = none := by
  unfold decayedBase at h
  split at h
  · rw [HashMap.lookup_mapValues] at h
    exact Option.map_eq_none_iff.mp h
  · exact h

@[simp] theorem decayedBase_zero (baseTrust : TrustMap) (claims : List Claim) :
    decayedBase baseTrust claims 0 0 = baseTrust := by
  simp [decayedBase]

namespace KnowledgeGraph

section Flow

variable (g : KnowledgeGraph) (cyclicEdges : List ℕ) (claims : List Claim)
  (claimGroups : List CorrelationGroup) (reputations : Reputations)

/-- The edges that carry support to a node. -/
def carriersInto (v : ClaimArenaId) : List (EpistemicEdge × ℕ) :=
  (g.edges.zipIdx.filter (carries cyclicEdges)).filter fun e => e.1.toId = v

/-- The evidence that reaches a node. -/
def supportInto (trust : ClaimArenaId → LogOdds) (v : ClaimArenaId) : List Evidence :=
  (g.carriersInto cyclicEdges v).map fun e =>
    g.supportEvidence cyclicEdges claims claimGroups reputations trust e.1

/-- One iteration of Pass 1. -/
def flow (discountBps : ℕ) (start trust : ClaimArenaId → LogOdds) (v : ClaimArenaId) : LogOdds :=
  if (g.carriersInto cyclicEdges v).isEmpty then start v
  else (start v).update (aggregateHierarchical
    (g.supportInto cyclicEdges claims claimGroups reputations trust v) discountBps
    unassessedDiscountBps)

/-- The total penalty of a node, if an edge contradicts it. -/
def penaltyInto (trust : ClaimArenaId → LogOdds) (dampingBps : ℕ) (v : ClaimArenaId) : Option ℤ :=
  ((g.edges.filter fun e => e.relation = .contradicts).filter fun e => e.toId = v).foldl
    (fun total e => some (wrapI64 (total.getD 0 +
      g.cappedPenalty claims reputations trust dampingBps e))) none

/-- Pass 2. -/
def settle (dampingBps : ℕ) (trust : ClaimArenaId → LogOdds) (v : ClaimArenaId) : LogOdds :=
  (g.penaltyInto claims reputations trust dampingBps v).elim (trust v) fun total =>
    (trust v).saturatingSub (globallyCapped dampingBps (trust v) total)

end Flow

theorem carries_iff {cyclicEdges : List ℕ} {e : EpistemicEdge × ℕ} :
    carries cyclicEdges e = true ↔ e.1.relation.isSupport = true ∧ e.2 ∉ cyclicEdges := by
  simp [carries]

theorem mem_carriersInto {g : KnowledgeGraph} {cyclicEdges : List ℕ} {v : ClaimArenaId}
    {e : EpistemicEdge × ℕ} : e ∈ g.carriersInto cyclicEdges v ↔
      e ∈ g.edges.zipIdx ∧ carries cyclicEdges e = true ∧ e.1.toId = v := by
  simp only [carriersInto, List.mem_filter, decide_eq_true_eq, and_assoc]

/-- An edge of the graph at the index that it stands with. -/
theorem filterMap_edgesFrom (g : KnowledgeGraph) (v : ClaimArenaId) :
    ((edgesFrom g.edges v).filterMap fun i => (g.edges[i]?).map (·, i)) =
      g.edges.zipIdx.filter fun e => e.1.fromId = v := by
  rw [edgesFrom, List.filterMap_map]
  conv_rhs => rw [← List.filterMap_some (l := g.edges.zipIdx.filter fun e => e.1.fromId = v)]
  refine List.filterMap_congr fun e he => ?_
  rw [Function.comp_apply, List.mem_zipIdx_iff_getElem?.mp (List.mem_of_mem_filter he)]
  rfl

theorem totalOut_eq (g : KnowledgeGraph) (cyclicEdges : List ℕ) (v : ClaimArenaId) :
    g.totalOut cyclicEdges v =
      max (((g.edges.zipIdx.filter fun e => e.1.fromId = v).filter (carries cyclicEdges)).map
        fun e => (e.1.strength.bps : ℤ)).sum 1 := by
  have hadj := g.adjacent v
  unfold totalOut
  cases h : g.adjacency.lookup v with
  | none =>
    rw [h] at hadj
    have hnil : (g.edges.zipIdx.filter fun e => e.1.fromId = v) = [] :=
      List.map_eq_nil_iff.mp hadj.symm
    rw [hnil]
    rfl
  | some indices =>
    rw [h, Option.getD_some] at hadj
    rw [hadj, Option.elim_some, filterMap_edgesFrom]

variable {g : KnowledgeGraph} {cyclicEdges : List ℕ} {claims : List Claim}
  {claimGroups : List CorrelationGroup} {reputations : Reputations} {baseTrust start : TrustMap}
  {discountBps : ℕ}

theorem authorRep_nonneg (claims : List Claim) (reputations : Reputations) (v : ClaimArenaId) :
    0 ≤ authorRep claims reputations v := by
  unfold authorRep
  cases claims[v]? with
  | none => exact le_rfl
  | some c => exact Int.natCast_nonneg _

theorem totalOut_pos (g : KnowledgeGraph) (cyclicEdges : List ℕ) (v : ClaimArenaId) :
    0 < g.totalOut cyclicEdges v := by
  rw [totalOut_eq]
  exact lt_of_lt_of_le Int.one_pos (le_max_right _ _)

/-- No contribution is negative. -/
theorem contribution_nonneg (trust : ClaimArenaId → LogOdds) (e : EpistemicEdge) :
    0 ≤ (g.contribution cyclicEdges claims reputations trust e).value := by
  have hshare : 0 ≤ ((e.strength.bps : ℤ) * 10000).tdiv (g.totalOut cyclicEdges e.fromId) :=
    Int.tdiv_nonneg (mul_nonneg (Int.natCast_nonneg _) (by decide)) (totalOut_pos g _ _).le
  have hfrom : 0 ≤ (trust e.fromId).positivePart.value := le_max_right _ _
  have hval : 0 ≤ (((trust e.fromId).positivePart.value *
      ((e.strength.bps : ℤ) * 10000).tdiv (g.totalOut cyclicEdges e.fromId)).tdiv 10000 *
      authorRep claims reputations e.fromId).tdiv 10000 :=
    Int.tdiv_nonneg (mul_nonneg (Int.tdiv_nonneg (mul_nonneg hfrom hshare) (by decide))
      (authorRep_nonneg _ _ _)) (by decide)
  have hmax : 0 ≤ i32Max := by decide
  exact le_max_of_le_right (le_min hval hmax)

theorem supportInto_nonneg (trust : ClaimArenaId → LogOdds) (v : ClaimArenaId) :
    ∀ e ∈ g.supportInto cyclicEdges claims claimGroups reputations trust v, 0 ≤ e.lo.value := by
  intro e he
  obtain ⟨x, _, rfl⟩ := List.mem_map.mp he
  exact contribution_nonneg trust x.1

theorem lookup_applySupport (trust : ClaimArenaId → LogOdds) (v : ClaimArenaId) :
    (applySupport baseTrust discountBps
      (g.incoming cyclicEdges claims claimGroups reputations trust) start).lookup v =
      if (g.carriersInto cyclicEdges v).isEmpty then start.lookup v
      else some (((start.lookup v).getD (baseTrust.at v)).update (aggregateHierarchical
        (g.supportInto cyclicEdges claims claimGroups reputations trust v) discountBps
        unassessedDiscountBps)) := by
  unfold applySupport
  rw [HashMap.lookup_foldl_entries (fun v contribs old => (old.getD (baseTrust.at v)).update
    (aggregateHierarchical contribs discountBps unassessedDiscountBps))]
  unfold incoming
  rw [HashMap.lookup_foldl_push (fun e : EpistemicEdge × ℕ => e.1.toId)]
  unfold supportInto carriersInto
  split <;> rfl

theorem applySupport_at (hstart : ∀ v, start.lookup v = none → baseTrust.lookup v = none)
    (trust : ClaimArenaId → LogOdds) :
    (applySupport baseTrust discountBps
      (g.incoming cyclicEdges claims claimGroups reputations trust) start).at =
      g.flow cyclicEdges claims claimGroups reputations discountBps start.at trust := by
  funext v
  have hbase : (start.lookup v).getD (baseTrust.at v) = start.at v := by
    unfold TrustMap.at
    cases h : start.lookup v with
    | none =>
      rw [hstart v h]
      rfl
    | some x => rfl
  rw [TrustMap.at, lookup_applySupport, hbase, flow]
  split <;> rfl

/-- An entry of a trust map of Pass 1 stems from the base trust or from an edge. -/
def Covered (g : KnowledgeGraph) (cyclicEdges : List ℕ) (start t : TrustMap) : Prop :=
  ∀ v, t.lookup v ≠ none → start.lookup v ≠ none ∨ g.carriersInto cyclicEdges v ≠ []

theorem covered_applySupport (trust : ClaimArenaId → LogOdds) :
    Covered g cyclicEdges start (applySupport baseTrust discountBps
      (g.incoming cyclicEdges claims claimGroups reputations trust) start) := by
  intro v hv
  rw [lookup_applySupport] at hv
  by_cases h : (g.carriersInto cyclicEdges v).isEmpty
  · rw [if_pos h] at hv
    exact Or.inl hv
  · exact Or.inr fun hnil => h (List.isEmpty_iff.mpr hnil)

/-- A round without a change leaves the trust of every node alone. -/
theorem applySupport_at_of_unchanged {t : TrustMap} (ht : Covered g cyclicEdges start t)
    (trust : ClaimArenaId → LogOdds)
    (h : trustChanged t (applySupport baseTrust discountBps
      (g.incoming cyclicEdges claims claimGroups reputations trust) start) = false) :
    (applySupport baseTrust discountBps
      (g.incoming cyclicEdges claims claimGroups reputations trust) start).at = t.at := by
  funext v
  cases hv : (applySupport baseTrust discountBps
      (g.incoming cyclicEdges claims claimGroups reputations trust) start).lookup v with
  | some x =>
    have hmem := AList.mem_lookup_iff.mp (Option.mem_def.mpr hv)
    have hall := List.any_eq_false.mp h _ hmem
    have hx : t.at v = x := by simpa using hall
    rw [hx, TrustMap.at, hv]
    rfl
  | none =>
    have hnone : t.lookup v = none := by
      by_contra hsome
      rw [lookup_applySupport] at hv
      rcases ht v hsome with hstart | hinto
      · split at hv
        · exact hstart hv
        · cases hv
      · rw [if_neg (by simpa using hinto)] at hv
        cases hv
    rw [TrustMap.at, TrustMap.at, hv, hnone]

variable {blake3 : Blake3} {maxIterations dampingBps currentTick halfLifeTicks : ℕ}

/-- Pass 1 iterates `flow`. -/
theorem stabilized_at :
    (g.stabilized blake3 baseTrust maxIterations claims reputations currentTick halfLifeTicks
      discountBps).at =
      (g.flow g.cyclicEdgeIndices claims (correlationGroups blake3 claims defaultSupportThreshold)
        reputations discountBps (decayedBase baseTrust claims currentTick halfLifeTicks).at)^[
        maxIterations] (decayedBase baseTrust claims currentTick halfLifeTicks).at := by
  unfold stabilized
  refine FixedPoint.map_iterateUntil TrustMap.at
    (P := Covered g g.cyclicEdgeIndices (decayedBase baseTrust claims currentTick halfLifeTicks))
    (fun t _ => covered_applySupport _)
    (fun t _ => applySupport_at (fun v => TrustMap.lookup_decayedBase) _)
    (fun t ht h => applySupport_at_of_unchanged ht _ h) maxIterations fun v hv => Or.inl hv

theorem lookup_penalties (trust : ClaimArenaId → LogOdds) (v : ClaimArenaId) :
    (g.penalties claims reputations trust dampingBps).lookup v =
      g.penaltyInto claims reputations trust dampingBps v :=
  HashMap.lookup_foldl_insert EpistemicEdge.toId (fun e total => wrapI64 (total.getD 0 +
    g.cappedPenalty claims reputations trust dampingBps e)) _ ∅ v

theorem applyPenalties_at (frozen : TrustMap) :
    (applyPenalties dampingBps frozen
      (g.penalties claims reputations frozen.at dampingBps)).at =
      g.settle claims reputations dampingBps frozen.at := by
  funext v
  have hlookup := HashMap.lookup_foldl_entries (fun v total old =>
    (old.getD .neutral).saturatingSub (globallyCapped dampingBps (frozen.at v) total))
    (g.penalties claims reputations frozen.at dampingBps) frozen v
  refine (congrArg (Option.getD · .neutral) hlookup).trans ?_
  rw [lookup_penalties, settle]
  cases g.penaltyInto claims reputations frozen.at dampingBps v <;> rfl

/-- Trust propagation, seen as a function of the nodes. -/
theorem propagateTrustCorrelated_at :
    (g.propagateTrustCorrelated blake3 baseTrust maxIterations dampingBps claims reputations
      currentTick halfLifeTicks discountBps).at =
      g.settle claims reputations dampingBps
        ((g.flow g.cyclicEdgeIndices claims
          (correlationGroups blake3 claims defaultSupportThreshold) reputations discountBps
          (decayedBase baseTrust claims currentTick halfLifeTicks).at)^[maxIterations]
          (decayedBase baseTrust claims currentTick halfLifeTicks).at) := by
  rw [propagateTrustCorrelated, applyPenalties_at, stabilized_at]

theorem propagateTrustFull_at :
    (g.propagateTrustFull blake3 baseTrust maxIterations dampingBps claims reputations).at =
      g.settle claims reputations dampingBps
        ((g.flow g.cyclicEdgeIndices claims
          (correlationGroups blake3 claims defaultSupportThreshold) reputations defaultDiscountBps
          baseTrust.at)^[maxIterations] baseTrust.at) := by
  rw [propagateTrustFull, propagateTrustAdvanced, propagateTrustCorrelated_at, decayedBase_zero]

end KnowledgeGraph

/-! ## Claims of one author -/

/-- The origin of plain claims. -/
def plainOrigin : NodeId := ⟨List.replicate 32 1, length_ones⟩

/-- An observation without an embedding or a cell. -/
def plainClaim (id : ClaimHash) (confidence : LogOdds) : Claim where
  id := id
  fingerprint := ⟨zeros 16, 0⟩
  origin := plainOrigin
  kind := .observation 1 []
  confidence := confidence
  evidenceSource := id
  tick := 0
  correlationCell := none
  embedding := none
  embeddingVersion := 0

/-- The id whose bytes are all `b`. -/
def uniformId (b : Byte) : ClaimHash := ⟨List.replicate 32 b, length_uniform b⟩

/-- What BLAKE3 gives for the inputs that are hashed to group the sample claims. -/
def sampleDigests : List (List Byte × Hash32) :=
  [(asBytes "aimp.correlation.origin.v1" ++ List.replicate 32 1,
     ⟨[170, 188, 108, 165, 228, 196, 12, 144, 128, 233, 175, 75, 16, 240, 117, 126, 7, 112, 248, 249,
     139, 248, 138, 163, 117, 190, 198, 91, 60, 22, 125, 65], by decide⟩),
   (asBytes "aimp.correlation.origin.v1" ++ List.replicate 32 2,
     ⟨[9, 191, 117, 163, 70, 36, 68, 197, 245, 51, 45, 205, 87, 53, 199, 198, 154, 222, 253, 75, 69,
     58, 125, 159, 27, 152, 170, 74, 33, 86, 156, 108], by decide⟩),
   (asBytes "aimp.correlation.cluster.v2" ++ List.replicate 32 0,
     ⟨[18, 71, 206, 79, 225, 134, 88, 179, 219, 211, 62, 251, 15, 78, 56, 182, 63, 249, 113, 149, 98,
     152, 152, 72, 110, 162, 166, 252, 209, 53, 58, 236], by decide⟩),
   (asBytes "aimp.correlation.cluster.v2" ++ List.replicate 32 1,
     ⟨[208, 173, 74, 222, 211, 213, 133, 121, 229, 37, 132, 77, 22, 15, 194, 83, 253, 117, 81, 113,
     244, 91, 124, 10, 245, 45, 108, 229, 39, 106, 175, 117], by decide⟩),
   (asBytes "aimp.correlation.cluster.v2" ++ List.replicate 32 2,
     ⟨[24, 112, 73, 86, 2, 165, 14, 191, 136, 232, 183, 89, 179, 255, 183, 151, 118, 83, 54, 3, 101,
     20, 193, 37, 156, 52, 230, 211, 221, 119, 47, 203], by decide⟩),
   (asBytes "aimp.correlation.cluster.v2" ++ List.replicate 32 3,
     ⟨[128, 80, 239, 208, 103, 167, 116, 159, 128, 247, 89, 101, 72, 124, 247, 239, 167, 91, 22, 127,
     118, 153, 238, 189, 33, 32, 98, 166, 95, 250, 170, 240], by decide⟩)]

/-- A hash that agrees with BLAKE3 on these inputs. -/
def sampleHash : Blake3 := fun input =>
  ((sampleDigests.find? fun d => d.1 = input).map Prod.snd).getD (zeros 32)

end Aimp.Epistemic
