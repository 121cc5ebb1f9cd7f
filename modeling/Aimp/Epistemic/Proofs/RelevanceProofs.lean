import Aimp.Epistemic.Proofs.DependentsProofs
import Aimp.Epistemic.Relevance
import Mathlib.Tactic.TFAE

/-!
# Contradictions and relevance

The graph can tip the comparison of two contradicting claims only towards the one that is given first, or
only towards the other one, whatever the claims are: it treats both alike exactly if it has no influence
at all (`resolve_fair_tfae`). A claim falls below the threshold for collection after four half-lives,
unless an edge at node 0 decides (`score_lt_gcThreshold_iff`).
-/

open Relation

namespace Aimp.Epistemic

/-! ## Contradictions -/

/-- The outcome for the claims in the other order. -/
def ContradictionOutcome.swap : ContradictionOutcome → ContradictionOutcome
  | .preferA penalty => .preferB penalty
  | .preferB penalty => .preferA penalty
  | .undecided => .undecided

namespace EvidenceWeightedContradictionResolver

open KnowledgeGraph

variable {claimA claimB : Claim} {g : KnowledgeGraph} {reputations : Reputations}

/-- By how much the claim given first is ahead. -/
def lead (claimA claimB : Claim) (g : KnowledgeGraph) (reputations : Reputations) : ℤ :=
  score reputations claimA (g.supportRatio 0).1 - score reputations claimB (g.supportRatio 1).1

/-- What the graph adds to it. -/
def tilt (g : KnowledgeGraph) : ℤ := ((g.supportRatio 0).1 - (g.supportRatio 1).1) * 500

theorem resolve_eq : resolve claimA claimB g reputations =
    if 1000 < lead claimA claimB g reputations then .preferA penalty
    else if lead claimA claimB g reputations < -1000 then .preferB penalty else .undecided := by
  unfold resolve lead
  dsimp only
  split_ifs <;> first | rfl | omega

theorem lead_eq_add_tilt :
    lead claimA claimB g reputations = lead claimA claimB .new reputations + tilt g := by
  unfold lead tilt score
  rw [show KnowledgeGraph.new.supportRatio 0 = (0, 0) from rfl,
    show KnowledgeGraph.new.supportRatio 1 = (0, 0) from rfl]
  push_cast
  ring

theorem lead_swap :
    lead claimB claimA .new reputations = -lead claimA claimB .new reputations := by
  unfold lead score
  rw [show KnowledgeGraph.new.supportRatio 0 = (0, 0) from rfl,
    show KnowledgeGraph.new.supportRatio 1 = (0, 0) from rfl]
  ring

theorem tilt_eq_zero : tilt g = 0 ↔ (g.supportRatio 0).1 = (g.supportRatio 1).1 := by
  unfold tilt
  omega

/-- The graph has no influence exactly if nodes 0 and 1 have equally many supports, and exactly then the
resolver treats the two claims alike: whenever it prefers a claim, it prefers it also if the claims are
given in the other order. -/
theorem resolve_fair_tfae (g : KnowledgeGraph) : List.TFAE [
    ∀ claimA claimB reputations,
      resolve claimB claimA g reputations = (resolve claimA claimB g reputations).swap,
    (g.supportRatio 0).1 = (g.supportRatio 1).1,
    ∀ claimA claimB reputations,
      resolve claimA claimB g reputations = resolve claimA claimB .new reputations] := by
  tfae_have 1 → 2 := by
    intro hfair
    rw [← tilt_eq_zero]
    by_contra htilt
    -- a claim that is ahead by exactly what is not enough
    let ahead : Claim := plainClaim (uniformId 0) ⟨1000, by decide⟩
    let behind : Claim := plainClaim (uniformId 1) .neutral
    have hlead : lead ahead behind .new (fun _ => .full) = 1000 := by decide
    have hswap : lead behind ahead .new (fun _ => .full) = -lead ahead behind .new fun _ => .full :=
      lead_swap
    have h := hfair ahead behind fun _ => .full
    rw [resolve_eq, resolve_eq, lead_eq_add_tilt, hswap, hlead, lead_eq_add_tilt, hlead] at h
    rcases lt_or_gt_of_ne htilt with hneg | hpos
    · rw [if_neg (by omega), if_pos (by omega), if_neg (by omega)] at h
      split at h <;> cases h
    · rw [if_neg (by omega : ¬ -1000 + tilt g < -1000), if_pos (by omega : 1000 < 1000 + tilt g)] at h
      split at h <;> cases h
  tfae_have 2 → 3 := by
    intro heq claimA claimB reputations
    rw [resolve_eq, resolve_eq, lead_eq_add_tilt, tilt_eq_zero.mpr heq, add_zero]
  tfae_have 3 → 1 := by
    intro hnone claimA claimB reputations
    rw [hnone, hnone, resolve_eq, resolve_eq, lead_swap]
    split_ifs <;> first | rfl | omega
  tfae_finish

end EvidenceWeightedContradictionResolver

/-! ## Relevance -/

namespace KnowledgeGraph

theorem supportRatio_eq (g : KnowledgeGraph) (v : ClaimArenaId) :
    g.supportRatio v = (g.edges.countP fun e => e.toId = v ∧ e.relation = .supports,
      g.edges.countP fun e => e.toId = v ∧ e.relation = .contradicts) := by
  suffices h : ∀ (edges : List EpistemicEdge) n, edges.foldl (countEdge v) n =
      (n.1 + edges.countP fun e => e.toId = v ∧ e.relation = .supports,
        n.2 + edges.countP fun e => e.toId = v ∧ e.relation = .contradicts) by
    simpa [supportRatio] using h g.edges (0, 0)
  intro edges
  induction edges with
  | nil =>
    intro n
    simp
  | cons e edges ih =>
    intro n
    rw [List.foldl_cons, ih]
    unfold countEdge
    by_cases hto : e.toId = v
    · cases hrel : e.relation <;> simp [hto, hrel] <;> omega
    · simp [hto]

theorem dependents_eq_nil_iff (g : KnowledgeGraph) (v : ClaimArenaId) :
    g.dependents v = [] ↔ ∀ u, ¬ g.Backs v u := by
  rw [List.eq_nil_iff_forall_not_mem]
  simp only [(g.dependents_exact v).2]
  constructor
  · exact fun h u hu => h u (.single hu)
  · intro h u hu
    obtain ⟨w, hw, -⟩ := TransGen.head'_iff.mp hu
    exact h w hw

end KnowledgeGraph

namespace DependencyAwareScorer

/-- Halved four times, a full score is below the threshold. -/
theorem halved_lt_gcThreshold (n : ℕ) :
    (if 14 ≤ n then 0 else 10000 >>> n) < gcThreshold ↔ 4 ≤ n := by
  unfold gcThreshold
  split
  · omega
  · interval_cases n <;> decide

/-- A claim may be collected exactly if nothing depends on node 0, nothing supports it, and something
contradicts it, or the claim is four half-lives older than the latest intent. -/
theorem score_lt_gcThreshold_iff (s : DependencyAwareScorer) (claim : Claim)
    (activeIntents : List Claim) (g : KnowledgeGraph) :
    s.score claim activeIntents g < gcThreshold ↔
      (∀ u, ¬ g.Backs 0 u) ∧ (∀ e ∈ g.edges, e.toId = 0 → e.relation ≠ .supports) ∧
      ((∃ e ∈ g.edges, e.toId = 0 ∧ e.relation = .contradicts) ∨ s.halfLifeTicks = 0 ∨
        claim.tick.val + 4 * s.halfLifeTicks ≤ currentTick claim activeIntents) := by
  have hbacks := g.dependents_eq_nil_iff 0
  have hsupports : (g.supportRatio 0).1 = 0 ↔ ∀ e ∈ g.edges, e.toId = 0 → e.relation ≠ .supports := by
    simp [KnowledgeGraph.supportRatio_eq, List.countP_eq_zero]
  have hcontradicts : 0 < (g.supportRatio 0).2 ↔
      ∃ e ∈ g.edges, e.toId = 0 ∧ e.relation = .contradicts := by
    simp [KnowledgeGraph.supportRatio_eq, List.countP_pos_iff]
  rw [← hbacks, ← hsupports, ← hcontradicts]
  unfold score gcThreshold
  split
  · rename_i hdep
    have hne : g.dependents 0 ≠ [] := by simpa using hdep
    simp [hne]
  · rename_i hdep
    have hnil : g.dependents 0 = [] := by simpa using hdep
    split
    · omega
    · split
      · simp [hnil]
        omega
      · split
        · simp [hnil]
          omega
        · rename_i hcon hhalf
          have hsteps : 4 ≤ (currentTick claim activeIntents - claim.tick.val) / s.halfLifeTicks ↔
              claim.tick.val + 4 * s.halfLifeTicks ≤ currentTick claim activeIntents := by
            rw [Nat.le_div_iff_mul_le (Nat.pos_of_ne_zero hhalf)]
            omega
          rw [← hsteps, ← halved_lt_gcThreshold]
          simp [hnil, hhalf, gcThreshold]
          omega

end DependencyAwareScorer

end Aimp.Epistemic
