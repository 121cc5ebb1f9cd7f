import Aimp.Epistemic.Proofs.AggregateProofs
import Aimp.Epistemic.Proofs.FixedPointProofs
import Aimp.Lib.MassFlow
import Mathlib.Algebra.BigOperators.Field

/-!
# Conservation of trust

Pass 1 divides the trust in a claim among the claims that it supports. So along however many paths it
travels, no claim receives more of it than there is (`stabilized_le`).
-/

open Relation

namespace Aimp.Epistemic

namespace KnowledgeGraph

variable {g : KnowledgeGraph} {removed : List ℕ} {claims : List Claim}
  {claimGroups : List CorrelationGroup} {reputations : Reputations}

/-! ## Shares -/

/-- `share_bps`: the share of the source's trust that an edge carries. -/
def shareBps (g : KnowledgeGraph) (removed : List ℕ) (e : EpistemicEdge) : ℤ :=
  ((e.strength.bps : ℤ) * 10000).tdiv (g.totalOut removed e.fromId)

theorem shareBps_nonneg (e : EpistemicEdge) : 0 ≤ g.shareBps removed e :=
  Int.tdiv_nonneg (mul_nonneg (Int.natCast_nonneg _) (by decide)) (totalOut_pos g _ _).le

/-- The edges that carry support away from a node. -/
def carriersFrom (g : KnowledgeGraph) (removed : List ℕ) (u : ClaimArenaId) :
    List (EpistemicEdge × ℕ) :=
  (g.edges.zipIdx.filter (carries removed)).filter fun e => e.1.fromId = u

/-- The shares of a source add up to at most 100%. -/
theorem sum_shareBps_le (g : KnowledgeGraph) (removed : List ℕ) (u : ClaimArenaId) :
    ((g.carriersFrom removed u).map fun e => g.shareBps removed e.1).sum ≤ 10000 := by
  have hpos := totalOut_pos g removed u
  have htotal : ((g.carriersFrom removed u).map fun e => (e.1.strength.bps : ℤ)).sum ≤
      g.totalOut removed u := by
    rw [totalOut_eq, carriersFrom, List.filter_comm]
    exact le_max_left _ _
  -- every share is rounded down
  have hfloor : ∀ l : List (EpistemicEdge × ℕ), (∀ e ∈ l, e.1.fromId = u) →
      (l.map fun e => g.shareBps removed e.1).sum * g.totalOut removed u ≤
        (l.map fun e => (e.1.strength.bps : ℤ)).sum * 10000 := by
    intro l hl
    induction l with
    | nil => simp
    | cons e l ih =>
      have hrest := ih fun e' he' => hl e' (List.mem_cons_of_mem e he')
      have he := hl e (List.mem_cons_self ..)
      have hshare : g.shareBps removed e.1 * g.totalOut removed u ≤ e.1.strength.bps * 10000 := by
        have hnonneg : (0 : ℤ) ≤ e.1.strength.bps * 10000 :=
          mul_nonneg (Int.natCast_nonneg _) (by decide)
        rw [shareBps, he, Int.tdiv_eq_ediv_of_nonneg hnonneg]
        exact Int.ediv_mul_le _ hpos.ne'
      rw [List.map_cons, List.sum_cons, List.map_cons, List.sum_cons, add_mul, add_mul]
      exact add_le_add hshare hrest
  have hsum := hfloor (g.carriersFrom removed u) fun e he => by
    simpa using List.of_mem_filter he
  by_contra hlt
  have hmul : 10001 * g.totalOut removed u ≤
      ((g.carriersFrom removed u).map fun e => g.shareBps removed e.1).sum *
        g.totalOut removed u := mul_le_mul_of_nonneg_right (by omega) hpos.le
  omega

/-- An edge contributes at most its share of the source's trust. -/
theorem contribution_le (hrep : ∀ o, (reputations o).bps ≤ 10000) (trust : ClaimArenaId → LogOdds)
    (e : EpistemicEdge) :
    (g.contribution removed claims reputations trust e).value * 10000 ≤
      (trust e.fromId).positivePart.value * g.shareBps removed e := by
  have hfrom : 0 ≤ (trust e.fromId).positivePart.value := le_max_right _ _
  have hprod : 0 ≤ (trust e.fromId).positivePart.value * g.shareBps removed e :=
    mul_nonneg hfrom (shareBps_nonneg e)
  have hauthor : authorRep claims reputations e.fromId ≤ 10000 := by
    unfold authorRep
    cases claims[e.fromId]? with
    | none =>
      show (0 : ℤ) ≤ 10000
      decide
    | some c =>
      show ((reputations c.origin).bps : ℤ) ≤ 10000
      exact_mod_cast hrep c.origin
  have hauthor0 := authorRep_nonneg claims reputations e.fromId
  show clamp i32Min i32Max ((((trust e.fromId).positivePart.value * g.shareBps removed e).tdiv 10000 *
    authorRep claims reputations e.fromId).tdiv 10000) * 10000 ≤ _
  generalize (trust e.fromId).positivePart.value * g.shareBps removed e = x at hprod ⊢
  generalize authorRep claims reputations e.fromId = rep at hauthor hauthor0 ⊢
  have hshared : 0 ≤ x / 10000 := Int.ediv_nonneg hprod (by decide)
  have hweighted : 0 ≤ x / 10000 * rep ∧ x / 10000 * rep ≤ x / 10000 * 10000 :=
    ⟨mul_nonneg hshared hauthor0, mul_le_mul_of_nonneg_left hauthor hshared⟩
  rw [Int.tdiv_eq_ediv_of_nonneg hprod, Int.tdiv_eq_ediv_of_nonneg hweighted.1]
  have hmin : i32Min ≤ 0 := by decide
  unfold clamp
  omega

/-! ## The flow between the nodes -/

/-- The nodes of the graph. -/
abbrev Node (g : KnowledgeGraph) : Type := {v // v ∈ g.allNodes.toFinset}

/-- The share of the trust in `u` that goes to `v`. -/
def shareBetween (g : KnowledgeGraph) (removed : List ℕ) (u v : ClaimArenaId) : ℤ :=
  (((g.carriersInto removed v).filter fun e => e.1.fromId = u).map fun e =>
    g.shareBps removed e.1).sum

/-- These shares as a matrix. -/
def shareMatrix (g : KnowledgeGraph) (removed : List ℕ) : Matrix g.Node g.Node ℚ := fun u v =>
  g.shareBetween removed u.1 v.1 / 10000

theorem shareBetween_nonneg (u v : ClaimArenaId) : 0 ≤ g.shareBetween removed u v := by
  refine List.sum_nonneg fun x hx => ?_
  obtain ⟨e, _, rfl⟩ := List.mem_map.mp hx
  exact shareBps_nonneg e.1

theorem shareMatrix_nonneg (u v : g.Node) : 0 ≤ g.shareMatrix removed u v := by
  have hshare : (0 : ℚ) ≤ g.shareBetween removed u.1 v.1 := by
    exact_mod_cast shareBetween_nonneg u.1 v.1
  exact div_nonneg hshare (by norm_num)

theorem sum_shareBetween_le (u : ClaimArenaId) :
    ∑ v ∈ g.allNodes.toFinset, g.shareBetween removed u v ≤ 10000 := by
  have hto : ∀ e ∈ g.carriersFrom removed u, e.1.toId ∈ g.allNodes.toFinset := by
    intro e he
    have hmem := List.mem_of_mem_filter (List.mem_of_mem_filter he)
    refine List.mem_toFinset.mpr (mem_allNodes.mpr ⟨e.1, ?_, Or.inr rfl⟩)
    exact List.mem_of_getElem? (List.mem_zipIdx_iff_getElem?.mp hmem)
  have hsum := sum_map_filter_key (fun e : EpistemicEdge × ℕ => e.1.toId)
    (fun e => g.shareBps removed e.1) hto
  refine le_trans (le_of_eq ?_) (sum_shareBps_le g removed u)
  rw [← hsum]
  refine Finset.sum_congr rfl fun v _ => ?_
  unfold shareBetween carriersInto carriersFrom
  rw [List.filter_comm]

theorem shareMatrix_row (u : g.Node) : ∑ v, g.shareMatrix removed u v ≤ 1 := by
  have hle : ((∑ v ∈ g.allNodes.toFinset, g.shareBetween removed u.1 v : ℤ) : ℚ) ≤ 10000 := by
    exact_mod_cast sum_shareBetween_le u.1
  unfold shareMatrix
  rw [← Finset.sum_div, Finset.sum_coe_sort g.allNodes.toFinset fun v =>
    (g.shareBetween removed u.1 v : ℚ), div_le_one (by norm_num)]
  exact_mod_cast hle

/-- Where trust flows, there is a step of support. -/
theorem supportStep_of_step {u v : g.Node} (h : MassFlow.Step (g.shareMatrix removed) u v) :
    g.SupportStep removed u.1 v.1 := by
  by_contra hnot
  refine h ?_
  have hnil : ((g.carriersInto removed v.1).filter fun e => e.1.fromId = u.1) = [] := by
    rw [List.filter_eq_nil_iff]
    intro e he hfrom
    have hstep := supportStep_of_mem_carriersInto he
    rw [of_decide_eq_true hfrom] at hstep
    exact hnot hstep
  rw [shareMatrix, shareBetween, hnil]
  simp

theorem shareMatrix_acyclic (hacyclic : ∀ v, ¬ TransGen (g.SupportStep removed) v v) (v : g.Node) :
    ¬ TransGen (MassFlow.Step (g.shareMatrix removed)) v v := by
  intro hcycle
  exact hacyclic v.1 (hcycle.lift Subtype.val fun _ _ => supportStep_of_step)

/-! ## Iterations -/

/-- What the edges into a node contribute. -/
theorem sum_supportInto_le (hrep : ∀ o, (reputations o).bps ≤ 10000)
    (trust : ClaimArenaId → LogOdds) (v : ClaimArenaId) :
    ((g.supportInto removed claims claimGroups reputations trust v).map fun e => e.lo.value).sum *
        10000 ≤
      ∑ u ∈ g.allNodes.toFinset, (trust u).positivePart.value * g.shareBetween removed u v := by
  have hfrom : ∀ e ∈ g.carriersInto removed v, e.1.fromId ∈ g.allNodes.toFinset := fun e he =>
    List.mem_toFinset.mpr (supportStep_of_mem_carriersInto he).mem_allNodes.1
  have hsum := sum_map_filter_key (fun e : EpistemicEdge × ℕ => e.1.fromId)
    (fun e => (trust e.1.fromId).positivePart.value * g.shareBps removed e.1) hfrom
  have hcongr : ∀ u, (((g.carriersInto removed v).filter fun e => e.1.fromId = u).map fun e =>
      (trust e.1.fromId).positivePart.value * g.shareBps removed e.1).sum =
      (trust u).positivePart.value * g.shareBetween removed u v := by
    intro u
    rw [shareBetween, ← List.sum_map_mul_left]
    refine congrArg List.sum (List.map_congr_left fun e he => ?_)
    have hu : e.1.fromId = u := by
      simpa using List.of_mem_filter he
    rw [hu]
  rw [← Finset.sum_congr rfl fun u _ => hcongr u, hsum, supportInto, List.map_map,
    ← List.sum_map_mul_right]
  exact List.sum_le_sum fun e _ => contribution_le hrep trust e.1

/-- An iteration adds to the base trust of a node no more than its supporters contribute. -/
theorem flow_le_add_sum {discountBps : ℕ} (hd : discountBps ≤ 10000)
    (start trust : ClaimArenaId → LogOdds) (v : ClaimArenaId) :
    (g.flow removed claims claimGroups reputations discountBps start trust v).positivePart.value ≤
      (start v).positivePart.value +
        ((g.supportInto removed claims claimGroups reputations trust v).map fun e =>
          e.lo.value).sum := by
  have hnonneg : ∀ e ∈ g.supportInto removed claims claimGroups reputations trust v,
      0 ≤ e.lo.value := supportInto_nonneg trust v
  have hagg := aggregateHierarchical_le hd hnonneg (show unassessedDiscountBps ≤ 10000 by decide)
  have hsum : 0 ≤ ((g.supportInto removed claims claimGroups reputations trust v).map fun e =>
      e.lo.value).sum := by
    refine List.sum_nonneg fun x hx => ?_
    obtain ⟨e, he, rfl⟩ := List.mem_map.mp hx
    exact hnonneg e he
  unfold flow
  split
  · exact le_add_of_nonneg_right hsum
  · have hmin : LogOdds.safeMin ≤ 0 := by decide
    show max (clamp LogOdds.safeMin LogOdds.safeMax ((start v).value + _)) 0 ≤
      max (start v).value 0 + _
    unfold clamp
    omega

/-- An iteration adds to the base trust of a node no more than the shares of its supporters. -/
theorem flow_le {discountBps : ℕ} (hd : discountBps ≤ 10000)
    (hrep : ∀ o, (reputations o).bps ≤ 10000) (start trust : ClaimArenaId → LogOdds)
    (v : g.Node) :
    ((g.flow removed claims claimGroups reputations discountBps start trust
        v.1).positivePart.value : ℚ) ≤
      (start v.1).positivePart.value +
        ∑ u : g.Node, ((trust u.1).positivePart.value : ℚ) * g.shareMatrix removed u v := by
  have hmatrix : ∑ u : g.Node, ((trust u.1).positivePart.value : ℚ) * g.shareMatrix removed u v =
      ((∑ u ∈ g.allNodes.toFinset,
        (trust u).positivePart.value * g.shareBetween removed u v.1 : ℤ) : ℚ) / 10000 := by
    unfold shareMatrix
    rw [Finset.sum_coe_sort g.allNodes.toFinset fun u =>
      ((trust u).positivePart.value : ℚ) * (g.shareBetween removed u v.1 / 10000)]
    push_cast
    rw [Finset.sum_div]
    exact Finset.sum_congr rfl fun u _ => (mul_div_assoc _ _ _).symm
  rw [hmatrix]
  refine (Int.cast_le.mpr (flow_le_add_sum hd start trust v.1)).trans ?_
  rw [Int.cast_add]
  refine add_le_add_right ((le_div_iff₀ (by norm_num)).mpr ?_) _
  exact_mod_cast sum_supportInto_le hrep trust v.1

/-! ## Ancestors -/

open Classical in
/-- The strict ancestors of a node: those from which its support comes. -/
noncomputable def ancestors (g : KnowledgeGraph) (removed : List ℕ) (v : ClaimArenaId) :
    Finset ClaimArenaId :=
  g.allNodes.toFinset.filter fun u => TransGen (g.SupportStep removed) u v

open Classical in
/-- The ancestors from which trust flows are ancestors in the graph. -/
theorem sum_le_sum_ancestors {f : ClaimArenaId → ℚ} (hf : ∀ u, 0 ≤ f u) (v : g.Node) :
    ∑ u : g.Node with TransGen (MassFlow.Step (g.shareMatrix removed)) u v, f u.1 ≤
      ∑ u ∈ g.ancestors removed v.1, f u := by
  unfold ancestors
  rw [Finset.sum_filter, Finset.sum_filter, ← Finset.sum_coe_sort g.allNodes.toFinset]
  refine Finset.sum_le_sum fun u _ => ?_
  by_cases hreach : TransGen (MassFlow.Step (g.shareMatrix removed)) u v
  · have hanc : TransGen (g.SupportStep removed) u.1 v.1 :=
      hreach.lift Subtype.val fun _ _ => supportStep_of_step
    rw [if_pos hreach, if_pos hanc]
  · rw [if_neg hreach]
    split
    · exact hf u.1
    · exact le_rfl

/-- After any number of iterations a node of the graph has no more trust than there is in it and its
ancestors. -/
theorem iterate_flow_le (claims : List Claim) (claimGroups : List CorrelationGroup)
    {discountBps : ℕ} (hd : discountBps ≤ 10000)
    (hrep : ∀ o, (reputations o).bps ≤ 10000)
    (hacyclic : ∀ v, ¬ TransGen (g.SupportStep removed) v v) (start : ClaimArenaId → LogOdds) (n : ℕ)
    (v : g.Node) :
    (((g.flow removed claims claimGroups reputations discountBps start)^[n] start)
        v.1).positivePart.value ≤
      (start v.1).positivePart.value + ∑ u ∈ g.ancestors removed v.1, (start u).positivePart.value := by
  have hbase : ∀ u, (0 : ℚ) ≤ (start u).positivePart.value := by
    intro u
    exact_mod_cast le_max_right (start u).value 0
  have hle := MassFlow.mass_le shareMatrix_nonneg shareMatrix_row (shareMatrix_acyclic hacyclic)
    (fun v => ((start v.1).positivePart.value : ℚ))
    (fun n v => ((((g.flow removed claims claimGroups reputations discountBps start)^[n]
      start) v.1).positivePart.value : ℚ)) (fun v => hbase v.1) (fun v => le_rfl) ?_ n v
  · have hanc := hle.trans (add_le_add_right (sum_le_sum_ancestors hbase v) _)
    exact_mod_cast hanc
  · intro n v
    rw [Function.iterate_succ_apply']
    exact flow_le hd hrep start _ v

/-- No trust is counted twice: after Pass 1 without temporal decay, the trust of a node is at most its
own positive base trust and that of its strict ancestors, each counted once. (A reputation is at most
10000 basis points.) -/
theorem stabilized_le (blake3 : Blake3) (g : KnowledgeGraph) (baseTrust : TrustMap)
    (maxIterations : ℕ) (claims : List Claim) (reputations : Reputations)
    (currentTick halfLifeTicks discountBps : ℕ) (hd : discountBps ≤ 10000)
    (hdecay : halfLifeTicks = 0 ∨ currentTick = 0) (hrep : ∀ o, (reputations o).bps ≤ 10000)
    (v : ClaimArenaId) :
    ((g.stabilized blake3 baseTrust maxIterations claims reputations currentTick halfLifeTicks
        discountBps).at v).value ≤
      max 0 (baseTrust.at v).value +
        ∑ u ∈ g.ancestors g.cyclicEdgeIndices v, max 0 (baseTrust.at u).value := by
  have hdecayed : decayedBase baseTrust claims currentTick halfLifeTicks = baseTrust := by
    unfold decayedBase
    rw [if_neg]
    omega
  rw [stabilized_at, hdecayed]
  have hcomm : ∀ u, (baseTrust.at u).positivePart.value = max 0 (baseTrust.at u).value := fun u =>
    max_comm _ _
  by_cases hv : v ∈ g.allNodes.toFinset
  · have hle := iterate_flow_le claims (correlationGroups blake3 claims defaultSupportThreshold) hd
      hrep g.not_cycle_of_supportStep baseTrust.at maxIterations ⟨v, hv⟩
    simp only [hcomm] at hle
    exact (le_max_left _ _).trans hle
  · -- no edge supports a node that is not in the graph
    have hleaf : ∀ u, ¬ g.SupportStep g.cyclicEdgeIndices u v := fun u h =>
      hv (List.mem_toFinset.mpr h.mem_allNodes.2)
    rw [iterate_flow_leaf hleaf]
    have hsum : 0 ≤ ∑ u ∈ g.ancestors g.cyclicEdgeIndices v, max 0 (baseTrust.at u).value :=
      Finset.sum_nonneg fun u _ => le_max_left _ _
    omega

/-- Claim 0 supports claim 3 on two ways, over claim 1 and over claim 2. -/
def diamond : KnowledgeGraph :=
  (((new.addEdge ⟨0, 1, .supports, .full⟩).addEdge ⟨0, 2, .supports, .full⟩).addEdge
    ⟨1, 3, .supports, .full⟩).addEdge ⟨2, 3, .supports, .full⟩

/-- Trust in claim 0 alone. -/
def trustInZero : TrustMap := (∅ : TrustMap).insert 0 ⟨5000, isI32_5000⟩

/-- Claim 3 gets no more than the trust in its ancestors. -/
theorem stabilized_le_diamond :
    ((diamond.stabilized sampleHash trustInZero 5
        ([0, 1, 2, 3].map fun b => plainClaim (uniformId b) .neutral) (fun _ => .full) 0 0
        defaultDiscountBps).at 3).value ≤
      max 0 (trustInZero.at 3).value +
        ∑ u ∈ diamond.ancestors diamond.cyclicEdgeIndices 3, max 0 (trustInZero.at u).value :=
  stabilized_le sampleHash diamond trustInZero 5 _ (fun _ => .full) 0 0 defaultDiscountBps
    (by decide) (Or.inl rfl) (fun _ => by decide) 3

end KnowledgeGraph

end Aimp.Epistemic
