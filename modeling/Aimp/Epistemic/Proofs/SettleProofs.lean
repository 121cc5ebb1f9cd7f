import Aimp.Epistemic.Proofs.BeliefProofs
import Aimp.Epistemic.Proofs.TrustProofs

/-!
# What contradictions can take away

Pass 2 raises the trust of no node, and of a positive trust it leaves everything but the share
`damping_bps`. So no contradiction makes an accepted claim a rejected one (`contradiction_safety`).
-/

namespace Aimp.Epistemic

/-! ## Penalties -/

theorem LogOdds.saturatingSub_le (lo : LogOdds) {x : ℤ} (h : 0 ≤ x) :
    (lo.saturatingSub x).value ≤ lo.value := by
  have hmin := lo.isI32.1
  show clamp i32Min i32Max (lo.value - x) ≤ lo.value
  unfold clamp
  omega

theorem LogOdds.le_saturatingSub (lo : LogOdds) {x : ℤ} (h : 0 ≤ x) :
    lo.value - x ≤ (lo.saturatingSub x).value := by
  have hmax := lo.isI32.2
  show lo.value - x ≤ clamp i32Min i32Max (lo.value - x)
  unfold clamp
  omega

namespace KnowledgeGraph

variable {g : KnowledgeGraph} {claims : List Claim} {reputations : Reputations} {dampingBps : ℕ}

theorem globallyCapped_nonneg (dampingBps : ℕ) (target : LogOdds) (total : ℤ) :
    0 ≤ globallyCapped dampingBps target total := by
  unfold globallyCapped
  exact (clamp_mem (show (0 : ℤ) ≤ i32Max by decide) _).1

/-- Of a positive trust at most the share `damping_bps` is taken. -/
theorem globallyCapped_le {target : LogOdds} (h : 0 < target.value) (dampingBps : ℕ)
    (total : ℤ) :
    globallyCapped dampingBps target total ≤ target.value * dampingBps / 10000 := by
  have hprod : 0 ≤ target.value * dampingBps := mul_nonneg h.le (Int.natCast_nonneg _)
  have hdiv : (target.value * dampingBps).tdiv 10000 = target.value * dampingBps / 10000 :=
    Int.tdiv_eq_ediv_of_nonneg hprod
  have hnonneg : 0 ≤ target.value * dampingBps / 10000 := Int.ediv_nonneg hprod (by decide)
  unfold globallyCapped clamp
  simp only [if_pos h, hdiv]
  generalize target.value * dampingBps / 10000 = cap at hnonneg ⊢
  omega

/-- Pass 2 raises no trust. -/
theorem settle_le (trust : ClaimArenaId → LogOdds) (v : ClaimArenaId) :
    (g.settle claims reputations dampingBps trust v).value ≤ (trust v).value := by
  unfold settle
  cases g.penaltyInto claims reputations trust dampingBps v with
  | none => exact le_rfl
  | some total => exact (trust v).saturatingSub_le (globallyCapped_nonneg _ _ _)

/-- Pass 2 takes at most the share `damping_bps` of a positive trust. -/
theorem le_settle {trust : ClaimArenaId → LogOdds} {v : ClaimArenaId} (h : 0 < (trust v).value) :
    (trust v).value - (trust v).value * dampingBps / 10000 ≤
      (g.settle claims reputations dampingBps trust v).value := by
  unfold settle
  cases g.penaltyInto claims reputations trust dampingBps v with
  | none =>
    have hprod : 0 ≤ (trust v).value * dampingBps := mul_nonneg h.le (Int.natCast_nonneg _)
    have hnonneg : 0 ≤ (trust v).value * dampingBps / 10000 := Int.ediv_nonneg hprod (by decide)
    simp only [Option.elim_none]
    omega
  | some total =>
    have hcap := globallyCapped_le h dampingBps total
    have hsub := (trust v).le_saturatingSub (globallyCapped_nonneg dampingBps (trust v) total)
    simp only [Option.elim_some]
    omega

/-- A share of at most 100% leaves a positive trust at or above 0. -/
theorem settle_nonneg (hd : dampingBps ≤ 10000) {trust : ClaimArenaId → LogOdds} {v : ClaimArenaId}
    (h : 0 < (trust v).value) : 0 ≤ (g.settle claims reputations dampingBps trust v).value := by
  have hle : (trust v).value * dampingBps / 10000 ≤ (trust v).value := by
    refine Int.ediv_le_of_le_mul (by decide) ?_
    have hd' : (dampingBps : ℤ) ≤ 10000 := by exact_mod_cast hd
    nlinarith
  have hrest : (trust v).value - (trust v).value * dampingBps / 10000 ≤
      (g.settle claims reputations dampingBps trust v).value := le_settle h
  omega

/-- Pass 2 never raises the trust of a node, and leaves of a positive trust at least all but the share
`damping_bps`. So a claim whose trust after Pass 1 reaches a positive accept threshold is not rejected
under a negative reject threshold. -/
theorem contradiction_safety (blake3 : Blake3) (g : KnowledgeGraph) (baseTrust : TrustMap)
    (maxIterations dampingBps : ℕ) (claims : List Claim) (reputations : Reputations)
    (currentTick halfLifeTicks discountBps : ℕ) (hd : dampingBps ≤ 10000) :
    (∀ v, ((g.propagateTrustCorrelated blake3 baseTrust maxIterations dampingBps claims reputations
        currentTick halfLifeTicks discountBps).at v).value ≤
      ((g.stabilized blake3 baseTrust maxIterations claims reputations currentTick halfLifeTicks
        discountBps).at v).value) ∧
    (∀ v, 0 < ((g.stabilized blake3 baseTrust maxIterations claims reputations currentTick
        halfLifeTicks discountBps).at v).value →
      ((g.stabilized blake3 baseTrust maxIterations claims reputations currentTick halfLifeTicks
          discountBps).at v).value -
        ((g.stabilized blake3 baseTrust maxIterations claims reputations currentTick halfLifeTicks
          discountBps).at v).value * dampingBps / 10000 ≤
      ((g.propagateTrustCorrelated blake3 baseTrust maxIterations dampingBps claims reputations
        currentTick halfLifeTicks discountBps).at v).value) ∧
    ∀ engine : LogOddsBeliefEngine, engine.maxContradictionDampingBps = dampingBps →
      0 < engine.acceptThreshold.value → engine.rejectThreshold.value < 0 →
      ∀ v, engine.acceptThreshold.value ≤ ((g.stabilized blake3
          (LogOddsBeliefEngine.baseTrust claims reputations) 5 claims reputations 0 0
          defaultDiscountBps).at v).value →
        v ∉ (engine.compute blake3 claims g reputations).rejected := by
  refine ⟨fun v => ?_, fun v hv => ?_, fun engine hdamping haccept hreject v hv hmem => ?_⟩
  · rw [propagateTrustCorrelated_at, stabilized_at]
    exact settle_le _ v
  · rw [propagateTrustCorrelated_at, ← stabilized_at]
    exact le_settle hv
  · have hle := (LogOddsBeliefEngine.mem_rejected.mp hmem).2.2
    rw [LogOddsBeliefEngine.propagated, propagateTrustFull_at, hdamping] at hle
    rw [stabilized_at, decayedBase_zero] at hv
    have hpos := lt_of_lt_of_le haccept hv
    have hnonneg := le_trans (settle_nonneg hd hpos) hle
    omega

/-- Claim 0 contradicts claim 1. -/
def contradictedClaim : KnowledgeGraph := new.addEdge ⟨0, 1, .contradicts, .full⟩

/-- Two claims of the highest declared confidence. -/
def confidentPair : List Claim :=
  [plainClaim (uniformId 0) ⟨13816, isI32_13816⟩, plainClaim (uniformId 1) ⟨13816, isI32_13816⟩]

/-- Half of the trust in claim 1 is left. -/
theorem contradiction_safety_contradicted_claim :
    6908 ≤ ((contradictedClaim.propagateTrustCorrelated sampleHash
      (LogOddsBeliefEngine.baseTrust confidentPair fun _ => .full) 5 5000 confidentPair
      (fun _ => .full) 0 0 defaultDiscountBps).at 1).value :=
  le_trans (by decide +kernel) ((contradiction_safety sampleHash contradictedClaim
    (LogOddsBeliefEngine.baseTrust confidentPair fun _ => .full) 5 5000 confidentPair
    (fun _ => .full) 0 0 defaultDiscountBps (by decide)).2.1 1 (by decide +kernel))

end KnowledgeGraph

end Aimp.Epistemic
