import Aimp.Epistemic.Proofs.TrustProofs
import Aimp.Epistemic.Resolver

/-!
# The order of intents

Of intents with the greatest weighted confidence, the one with the earliest tick wins, and of several such
intents the one that comes last. Nothing else tells them apart, so that the order matters exactly if there
are several of them (`resolve_perm_iff`).
-/

namespace Aimp.Epistemic

namespace ReputationWeightedResolver

open LastMax

variable {reputations : Reputations} {intents : List Claim} {c d : Claim}

/-- The confidence of an intent, weighted with the reputation of its author. -/
def backing (reputations : Reputations) (c : Claim) : ℤ :=
  ((reputations c.origin).weightEvidence c.declaredConfidence).value

/-- More backing, or the same and an earlier tick. -/
def Outranks (reputations : Reputations) (c d : Claim) : Prop :=
  backing reputations d < backing reputations c ∨
    backing reputations d = backing reputations c ∧ c.tick < d.tick

theorem key_lt_key_iff : key reputations d < key reputations c ↔ Outranks reputations c d := by
  have hc := c.tick.isLt
  have hd := d.tick.isLt
  unfold key Outranks backing
  rw [Prod.Lex.toLex_lt_toLex, Fin.lt_def]
  dsimp only
  refine or_congr_right (and_congr_right fun _ => ?_)
  omega

theorem resolve_eq_iff {intents' : List Claim} :
    resolve intents' reputations = resolve intents reputations ↔
      lastMax (key reputations) intents' = lastMax (key reputations) intents := by
  unfold resolve
  cases lastMax (key reputations) intents <;> cases lastMax (key reputations) intents' <;> simp

/-- The same intent wins in every order if and only if one intent outranks all others. -/
theorem resolve_perm_iff (reputations : Reputations) (hne : intents ≠ []) :
    (∀ intents', intents'.Perm intents →
      resolve intents' reputations = resolve intents reputations) ↔
    ∃ best ∈ intents, ∀ c ∈ intents, c ≠ best → Outranks reputations best c := by
  simp only [resolve_eq_iff, ← key_lt_key_iff]
  exact lastMax_perm_iff (key reputations) hne

/-- An intent of a node with half of a full reputation. -/
def intentClaim (b : Byte) (confidence : LogOdds) : Claim :=
  { plainClaim (uniformId b) confidence with kind := .intent b [] [] 0 5000 }

/-- Everyone has half of a full reputation. -/
def halfReputation : Reputations := fun _ => ⟨5000, by decide⟩

/-- One intent that outranks another wins in both orders. -/
theorem resolve_perm_iff_pair :
    resolve [intentClaim 2 ⟨2000, by decide⟩, intentClaim 1 ⟨4000, by decide⟩] halfReputation =
      resolve [intentClaim 1 ⟨4000, by decide⟩, intentClaim 2 ⟨2000, by decide⟩] halfReputation := by
  refine (resolve_perm_iff halfReputation (by simp)).mpr
    ⟨intentClaim 1 ⟨4000, by decide⟩, List.mem_cons_self .., fun c hc hne => ?_⟩ _
    (List.Perm.swap ..)
  rcases List.mem_cons.mp hc with rfl | hc
  · exact absurd rfl hne
  · obtain rfl := List.mem_singleton.mp hc
    exact Or.inl (by decide)

/-- Two intents of one tick whose confidences differ only before they are weighted: whichever comes last
wins. -/
theorem resolve_depends_on_order :
    ([intentClaim 1 ⟨2000, by decide⟩, intentClaim 2 ⟨2001, by decide⟩].map Claim.id).Nodup ∧
    [intentClaim 2 ⟨2001, by decide⟩, intentClaim 1 ⟨2000, by decide⟩].Perm
      [intentClaim 1 ⟨2000, by decide⟩, intentClaim 2 ⟨2001, by decide⟩] ∧
    resolve [intentClaim 1 ⟨2000, by decide⟩, intentClaim 2 ⟨2001, by decide⟩] halfReputation =
      .winner (intentClaim 2 ⟨2001, by decide⟩) ∧
    resolve [intentClaim 2 ⟨2001, by decide⟩, intentClaim 1 ⟨2000, by decide⟩] halfReputation =
      .winner (intentClaim 1 ⟨2000, by decide⟩) :=
  ⟨by decide +kernel, List.Perm.swap .., by decide +kernel, by decide +kernel⟩

end ReputationWeightedResolver

end Aimp.Epistemic
