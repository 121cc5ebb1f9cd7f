import Aimp.Epistemic.Proofs.CycleProofs
import Mathlib.Order.Lattice.Nat

/-!
# The fixed point of Pass 1

Without the cyclic edges the graph of support has a longest path, and after as many iterations as this
path has edges Pass 1 has reached its fixed point (`stabilized_fixed_point`).
-/

open Relation

namespace Aimp.Epistemic

/-- An entry is determined by the trust and by whether there is one. -/
theorem TrustMap.lookup_eq_of_at {t t' : TrustMap} {v : ClaimArenaId} (hat : t.at v = t'.at v)
    (hnone : t.lookup v = none ↔ t'.lookup v = none) : t.lookup v = t'.lookup v := by
  unfold TrustMap.at at hat
  cases ht : t.lookup v with
  | none => rw [hnone.mp ht]
  | some x =>
    cases ht' : t'.lookup v with
    | none =>
      rw [hnone.mpr ht'] at ht
      cases ht
    | some y =>
      rw [ht, ht'] at hat
      exact congrArg some hat

namespace KnowledgeGraph

/-! ## Paths -/

/-- The numbers of edges on the paths of support. -/
def pathLengths (g : KnowledgeGraph) (removed : List ℕ) : Set ℕ :=
  {n | ∃ path : List ClaimArenaId, path.IsChain (g.SupportStep removed) ∧ path.length = n + 1}

variable {g : KnowledgeGraph} {removed : List ℕ}

/-- A path without cycles visits no node twice. -/
theorem nodup_of_isChain (hacyclic : ∀ v, ¬ TransGen (g.SupportStep removed) v v)
    {path : List ClaimArenaId} (h : path.IsChain (g.SupportStep removed)) : path.Nodup := by
  have hchain : path.IsChain (TransGen (g.SupportStep removed)) := h.imp fun _ _ => TransGen.single
  refine hchain.pairwise.imp ?_
  rintro a b hab rfl
  exact hacyclic a hab

/-- The nodes of a path with an edge are nodes of the graph. -/
theorem subset_allNodes_of_isChain {a b : ClaimArenaId} {path : List ClaimArenaId}
    (h : (a :: b :: path).IsChain (g.SupportStep removed)) : a :: b :: path ⊆ g.allNodes := by
  induction path generalizing a b with
  | nil =>
    have hab := (List.isChain_cons_cons.mp h).1.mem_allNodes
    simp [hab]
  | cons c path ih =>
    obtain ⟨hab, hrest⟩ := List.isChain_cons_cons.mp h
    exact List.cons_subset.mpr ⟨hab.mem_allNodes.1, ih hrest⟩

theorem pathLengths_le (hacyclic : ∀ v, ¬ TransGen (g.SupportStep removed) v v) {n : ℕ}
    (h : n ∈ g.pathLengths removed) : n ≤ g.allNodes.length := by
  obtain ⟨path, hchain, hlen⟩ := h
  have hnodup := nodup_of_isChain hacyclic hchain
  match path with
  | [] => simp at hlen
  | [_] =>
    simp at hlen
    omega
  | a :: b :: path =>
    have hle := (hnodup.subperm (subset_allNodes_of_isChain hchain)).length_le
    omega

/-- There is a longest path of support without the cyclic edges. -/
theorem exists_longest_path (g : KnowledgeGraph) :
    ∃ D, IsGreatest (g.pathLengths g.cyclicEdgeIndices) D := by
  have hbdd : BddAbove (g.pathLengths g.cyclicEdgeIndices) :=
    ⟨g.allNodes.length, fun _ hn => pathLengths_le g.not_cycle_of_supportStep hn⟩
  have hne : (g.pathLengths g.cyclicEdgeIndices).Nonempty :=
    ⟨0, [0], List.isChain_singleton 0, rfl⟩
  exact ⟨sSup (g.pathLengths g.cyclicEdgeIndices), Nat.sSup_mem hne hbdd,
    fun _ hn => le_csSup hbdd hn⟩

/-- From no node can the support be followed back further than the longest path goes. -/
theorem within_of_isGreatest {D : ℕ} (hD : IsGreatest (g.pathLengths removed) D)
    (v : ClaimArenaId) : FixedPoint.Within (g.SupportStep removed) D v := by
  by_contra hnot
  obtain ⟨l, hchain, hlen⟩ := FixedPoint.exists_chain_of_not_within hnot
  have hle : D + 1 ≤ D := hD.2 ⟨l ++ [v], hchain, by simp [hlen]⟩
  omega

/-! ## Iterations -/

section Flow

variable {claims : List Claim} {claimGroups : List CorrelationGroup} {reputations : Reputations}
  {discountBps : ℕ} {start trust trust' : ClaimArenaId → LogOdds} {v : ClaimArenaId}

theorem carriersInto_eq_nil (h : ∀ u, ¬ g.SupportStep removed u v) :
    g.carriersInto removed v = [] := by
  rw [List.eq_nil_iff_forall_not_mem]
  intro e he
  exact h e.1.fromId (supportStep_of_mem_carriersInto he)

/-- The support of a node depends on the trust in its supporters alone. -/
theorem supportInto_congr (h : ∀ u, g.SupportStep removed u v → trust u = trust' u) :
    g.supportInto removed claims claimGroups reputations trust v =
      g.supportInto removed claims claimGroups reputations trust' v := by
  unfold supportInto
  refine List.map_congr_left fun e he => ?_
  have hfrom := h e.1.fromId (supportStep_of_mem_carriersInto he)
  unfold supportEvidence contribution
  rw [hfrom]

theorem flow_congr (h : ∀ u, g.SupportStep removed u v → trust u = trust' u) :
    g.flow removed claims claimGroups reputations discountBps start trust v =
      g.flow removed claims claimGroups reputations discountBps start trust' v := by
  unfold flow
  rw [supportInto_congr h]

theorem flow_leaf (h : ∀ u, ¬ g.SupportStep removed u v) :
    g.flow removed claims claimGroups reputations discountBps start trust v = start v := by
  unfold flow
  rw [carriersInto_eq_nil h]
  rfl

theorem iterate_flow_leaf (h : ∀ u, ¬ g.SupportStep removed u v) (n : ℕ) :
    (g.flow removed claims claimGroups reputations discountBps start)^[n] start v = start v := by
  cases n with
  | zero => rfl
  | succ n =>
    rw [Function.iterate_succ_apply']
    exact flow_leaf h

/-- The iterates stand still as soon as they are as many as the longest path has edges. -/
theorem iterate_flow_eq {D n m : ℕ} (hD : IsGreatest (g.pathLengths removed) D) (hn : D ≤ n)
    (hm : D ≤ m) :
    (g.flow removed claims claimGroups reputations discountBps start)^[n] start =
      (g.flow removed claims claimGroups reputations discountBps start)^[m] start := by
  funext v
  have hwithin := within_of_isGreatest hD v
  refine FixedPoint.iterate_eq_of_within ?_ ?_ hwithin hn hm
  · exact fun s t w h => flow_congr h
  · exact fun s w h => flow_leaf h

end Flow

section Pass1

variable {blake3 : Blake3} {baseTrust : TrustMap} {claims : List Claim} {reputations : Reputations}
  {currentTick halfLifeTicks discountBps dampingBps : ℕ}

/-- After an iteration the nodes with an entry are those with a base trust or with support. -/
theorem lookup_stabilized_succ (n : ℕ) (v : ClaimArenaId) :
    (g.stabilized blake3 baseTrust (n + 1) claims reputations currentTick halfLifeTicks
      discountBps).lookup v = none ↔
      (decayedBase baseTrust claims currentTick halfLifeTicks).lookup v = none ∧
        g.carriersInto g.cyclicEdgeIndices v = [] := by
  obtain ⟨t, ht⟩ := FixedPoint.iterateUntil_succ trustChanged (fun trust => applySupport baseTrust
    discountBps (g.incoming g.cyclicEdgeIndices claims (correlationGroups blake3 claims
      defaultSupportThreshold) reputations trust.at)
    (decayedBase baseTrust claims currentTick halfLifeTicks)) n
    (decayedBase baseTrust claims currentTick halfLifeTicks)
  rw [stabilized, ht, lookup_applySupport]
  by_cases h : g.carriersInto g.cyclicEdgeIndices v = []
  · simp [h]
  · simp [h]

theorem lookup_stabilized_none {D n : ℕ} (hD : IsGreatest (g.pathLengths g.cyclicEdgeIndices) D)
    (hn : D ≤ n) (v : ClaimArenaId) :
    (g.stabilized blake3 baseTrust n claims reputations currentTick halfLifeTicks
      discountBps).lookup v = none ↔
      (decayedBase baseTrust claims currentTick halfLifeTicks).lookup v = none ∧
        g.carriersInto g.cyclicEdgeIndices v = [] := by
  cases n with
  | succ n => exact lookup_stabilized_succ n v
  | zero =>
    -- no iteration suffices, so no edge carries support
    obtain rfl : D = 0 := Nat.le_zero.mp hn
    rw [carriersInto_eq_nil (within_of_isGreatest hD v)]
    exact (and_iff_left rfl).symm

/-- From the longest path on, the number of iterations makes no difference to the trust after
Pass 1. -/
theorem lookup_stabilized_eq {D n m : ℕ} (hD : IsGreatest (g.pathLengths g.cyclicEdgeIndices) D)
    (hn : D ≤ n) (hm : D ≤ m) (v : ClaimArenaId) :
    (g.stabilized blake3 baseTrust n claims reputations currentTick halfLifeTicks
      discountBps).lookup v =
      (g.stabilized blake3 baseTrust m claims reputations currentTick halfLifeTicks
        discountBps).lookup v := by
  have hat : (g.stabilized blake3 baseTrust n claims reputations currentTick halfLifeTicks
      discountBps).at v = (g.stabilized blake3 baseTrust m claims reputations currentTick
        halfLifeTicks discountBps).at v := by
    rw [stabilized_at, stabilized_at, iterate_flow_eq hD hn hm]
  refine TrustMap.lookup_eq_of_at hat ?_
  rw [lookup_stabilized_none hD hn, lookup_stabilized_none hD hm]

/-- What is left of the trust in a node after Pass 2. -/
theorem lookup_applyPenalties (frozen : TrustMap) (penalties : HashMap ClaimArenaId ℤ)
    (v : ClaimArenaId) : (applyPenalties dampingBps frozen penalties).lookup v =
      (penalties.lookup v).elim (frozen.lookup v) fun total =>
        some ((frozen.at v).saturatingSub (globallyCapped dampingBps (frozen.at v) total)) := by
  have h := HashMap.lookup_foldl_entries (fun v total old => (old.getD .neutral).saturatingSub
    (globallyCapped dampingBps (frozen.at v) total)) penalties frozen v
  exact h

/-- What a node has in the end does not depend on the number of iterations either. -/
theorem lookup_propagateTrustCorrelated_eq {D n m : ℕ}
    (hD : IsGreatest (g.pathLengths g.cyclicEdgeIndices) D) (hn : D ≤ n) (hm : D ≤ m)
    (v : ClaimArenaId) :
    (g.propagateTrustCorrelated blake3 baseTrust n dampingBps claims reputations currentTick
      halfLifeTicks discountBps).lookup v =
      (g.propagateTrustCorrelated blake3 baseTrust m dampingBps claims reputations currentTick
        halfLifeTicks discountBps).lookup v := by
  have hlookup : ∀ u, (g.stabilized blake3 baseTrust n claims reputations currentTick halfLifeTicks
      discountBps).lookup u = (g.stabilized blake3 baseTrust m claims reputations currentTick
        halfLifeTicks discountBps).lookup u := lookup_stabilized_eq hD hn hm
  have hat : (g.stabilized blake3 baseTrust n claims reputations currentTick halfLifeTicks
      discountBps).at = (g.stabilized blake3 baseTrust m claims reputations currentTick
        halfLifeTicks discountBps).at := by
    funext u
    rw [TrustMap.at, TrustMap.at, hlookup]
  unfold propagateTrustCorrelated
  dsimp only
  rw [lookup_applyPenalties, lookup_applyPenalties, hat, hlookup]

/-- The discounted support of a node, given the trust in the nodes. -/
def discountedSupport (blake3 : Blake3) (g : KnowledgeGraph) (claims : List Claim)
    (reputations : Reputations) (discountBps : ℕ) (trust : ClaimArenaId → LogOdds)
    (v : ClaimArenaId) : LogOdds :=
  aggregateHierarchical (g.supportInto g.cyclicEdgeIndices claims
    (correlationGroups blake3 claims defaultSupportThreshold) reputations trust v) discountBps
    unassessedDiscountBps

/-- Let `D` be the number of edges on the longest path of support without the cyclic edges. After `D`
iterations or more the trust of a node that an edge supports is its decayed base trust plus its
discounted support, clamped to the safe range, and that of the others is their decayed base trust. Trust
propagation returns the same map for every such number of iterations. -/
theorem stabilized_fixed_point (blake3 : Blake3) (g : KnowledgeGraph) (baseTrust : TrustMap)
    (claims : List Claim) (reputations : Reputations)
    (currentTick halfLifeTicks discountBps dampingBps : ℕ) :
    ∃ D, IsGreatest (g.pathLengths g.cyclicEdgeIndices) D ∧ ∀ n, D ≤ n →
      (∀ v, ((g.stabilized blake3 baseTrust n claims reputations currentTick halfLifeTicks
          discountBps).at v).value =
        if (g.carriersInto g.cyclicEdgeIndices v).isEmpty then
          ((decayedBase baseTrust claims currentTick halfLifeTicks).at v).value
        else clamp LogOdds.safeMin LogOdds.safeMax
          (((decayedBase baseTrust claims currentTick halfLifeTicks).at v).value +
            (g.discountedSupport blake3 claims reputations discountBps (g.stabilized blake3
              baseTrust n claims reputations currentTick halfLifeTicks discountBps).at v).value)) ∧
      ∀ m, D ≤ m → ∀ v,
        (g.propagateTrustCorrelated blake3 baseTrust n dampingBps claims reputations currentTick
          halfLifeTicks discountBps).lookup v =
        (g.propagateTrustCorrelated blake3 baseTrust m dampingBps claims reputations currentTick
          halfLifeTicks discountBps).lookup v := by
  obtain ⟨D, hD⟩ := g.exists_longest_path
  refine ⟨D, hD, fun n hn => ⟨fun v => ?_, fun m hm v => ?_⟩⟩
  · conv_lhs =>
      rw [stabilized_at, iterate_flow_eq hD hn (Nat.le_succ_of_le hn), Function.iterate_succ_apply',
        ← stabilized_at, flow]
    split
    · rfl
    · rfl
  · exact lookup_propagateTrustCorrelated_eq hD hn hm v

/-- Claim 0 supports claim 1. -/
def supportedClaim : KnowledgeGraph := new.addEdge ⟨0, 1, .supports, .full⟩

/-- The two claims. -/
def supportedPair : List Claim :=
  [plainClaim (uniformId 0) .neutral, plainClaim (uniformId 1) .neutral]

/-- The base trust in claim 1 is as high as the safe range allows. -/
def highBase : TrustMap :=
  ((∅ : TrustMap).insert 0 ⟨5000, isI32_5000⟩).insert 1 ⟨1000000000, isI32_safeMax⟩

/-- The trust in them after Pass 1. -/
def highTrust : TrustMap :=
  supportedClaim.stabilized sampleHash highBase 5 supportedPair (fun _ => .full) 0 0
    defaultDiscountBps

/-- The support of claim 1 is lost where the sum is clamped. -/
theorem stabilized_stays_safe :
    ∃ D, IsGreatest (supportedClaim.pathLengths supportedClaim.cyclicEdgeIndices) D ∧ D ≤ 5 ∧
      (highTrust.at 1).value ≠ (highBase.at 1).value + (supportedClaim.discountedSupport sampleHash
        supportedPair (fun _ => .full) defaultDiscountBps highTrust.at 1).value := by
  obtain ⟨D, hD⟩ := supportedClaim.exists_longest_path
  have hle := pathLengths_le supportedClaim.not_cycle_of_supportStep hD.1
  have hnodes : supportedClaim.allNodes.length = 2 := by decide +kernel
  exact ⟨D, hD, by omega, by decide +kernel⟩

end Pass1

end KnowledgeGraph

end Aimp.Epistemic
