import Aimp.Epistemic.Belief
import Mathlib.Data.List.Basic

/-!
# Classes of claims

The class of a claim is read off its trust after propagation, and its base trust off the claim.
-/

namespace Aimp.Epistemic

/-- The node `v` is in the same class of `s` as `w` is of `s'`. -/
structure BeliefState.SameClass (s s' : BeliefState) (v w : ClaimArenaId) : Prop where
  accepted : v ∈ s.accepted ↔ w ∈ s'.accepted
  rejected : v ∈ s.rejected ↔ w ∈ s'.rejected
  uncertain : v ∈ s.uncertain ↔ w ∈ s'.uncertain

namespace LogOddsBeliefEngine

variable {engine : LogOddsBeliefEngine} {blake3 : Blake3} {claims claims' : List Claim}
  {graph graph' : KnowledgeGraph} {reputations : Reputations} {v w : ClaimArenaId}

/-- Every node goes into the class of its trust. -/
theorem foldl_classify (engine : LogOddsBeliefEngine) (trust : TrustMap) (l : List ClaimArenaId)
    (s : BeliefState) : l.foldl (engine.classify trust) s =
      ⟨s.accepted ++ l.filter fun u => engine.acceptThreshold.value ≤ (trust.at u).value,
        s.rejected ++ l.filter fun u => ¬ engine.acceptThreshold.value ≤ (trust.at u).value ∧
          (trust.at u).value ≤ engine.rejectThreshold.value,
        s.uncertain ++ l.filter fun u => ¬ engine.acceptThreshold.value ≤ (trust.at u).value ∧
          ¬ (trust.at u).value ≤ engine.rejectThreshold.value⟩ := by
  induction l generalizing s with
  | nil => simp
  | cons u l ih =>
    rw [List.foldl_cons, ih, classify]
    by_cases haccept : engine.acceptThreshold.value ≤ (trust.at u).value
    · simp [haccept]
    · by_cases hreject : (trust.at u).value ≤ engine.rejectThreshold.value
      · simp [List.filter_cons, haccept, hreject, List.append_assoc]
      · simp [List.filter_cons, haccept, hreject, List.append_assoc]

/-- The trust that `compute` classifies by. -/
def propagated (blake3 : Blake3) (engine : LogOddsBeliefEngine) (claims : List Claim)
    (graph : KnowledgeGraph) (reputations : Reputations) : TrustMap :=
  graph.propagateTrustFull blake3 (baseTrust claims reputations) 5
    engine.maxContradictionDampingBps claims reputations

theorem mem_accepted : v ∈ (engine.compute blake3 claims graph reputations).accepted ↔
    v < claims.length ∧ engine.acceptThreshold.value ≤
      ((engine.propagated blake3 claims graph reputations).at v).value := by
  unfold compute propagated
  simp only [foldl_classify, List.nil_append, List.mem_filter, List.mem_range, decide_eq_true_eq]

theorem mem_rejected : v ∈ (engine.compute blake3 claims graph reputations).rejected ↔
    v < claims.length ∧ ¬ engine.acceptThreshold.value ≤
      ((engine.propagated blake3 claims graph reputations).at v).value ∧
      ((engine.propagated blake3 claims graph reputations).at v).value ≤
        engine.rejectThreshold.value := by
  unfold compute propagated
  simp only [foldl_classify, List.nil_append, List.mem_filter, List.mem_range, decide_eq_true_eq]

theorem mem_uncertain : v ∈ (engine.compute blake3 claims graph reputations).uncertain ↔
    v < claims.length ∧ ¬ engine.acceptThreshold.value ≤
      ((engine.propagated blake3 claims graph reputations).at v).value ∧
      ¬ ((engine.propagated blake3 claims graph reputations).at v).value ≤
        engine.rejectThreshold.value := by
  unfold compute propagated
  simp only [foldl_classify, List.nil_append, List.mem_filter, List.mem_range, decide_eq_true_eq]

/-- Two claims with one trust are in one class. -/
theorem sameClass_of_trust (hv : v < claims.length) (hw : w < claims'.length)
    (h : (engine.propagated blake3 claims' graph' reputations).at w =
      (engine.propagated blake3 claims graph reputations).at v) :
    (engine.compute blake3 claims graph reputations).SameClass
      (engine.compute blake3 claims' graph' reputations) v w := by
  refine ⟨?_, ?_, ?_⟩
  · rw [mem_accepted, mem_accepted, h, iff_true_intro hv, iff_true_intro hw]
  · rw [mem_rejected, mem_rejected, h, iff_true_intro hv, iff_true_intro hw]
  · rw [mem_uncertain, mem_uncertain, h, iff_true_intro hv, iff_true_intro hw]

/-- The base trust of a node is the weighted confidence of its claim. -/
theorem baseTrust_at (claims : List Claim) (reputations : Reputations) (v : ClaimArenaId) :
    (baseTrust claims reputations).at v = (claims[v]?).elim .neutral fun c =>
      (reputations c.origin).weightEvidence c.declaredConfidence := by
  induction claims using List.reverseRecOn with
  | nil => rfl
  | append_singleton claims c ih =>
    have hinsert : baseTrust (claims ++ [c]) reputations = (baseTrust claims reputations).insert
        claims.length ((reputations c.origin).weightEvidence c.declaredConfidence) := by
      simp [baseTrust, List.zipIdx_append, List.foldl_append]
    rw [hinsert]
    by_cases hv : v = claims.length
    · subst hv
      rw [TrustMap.at, AList.lookup_insert, List.getElem?_concat_length]
      rfl
    · have hget : (claims ++ [c])[v]? = claims[v]? := by
        by_cases hlt : v < claims.length
        · exact List.getElem?_append_left hlt
        · have hle : claims.length + 1 ≤ v := lt_of_le_of_ne (not_lt.mp hlt) (Ne.symm hv)
          have hlen : (claims ++ [c]).length ≤ v := by simpa using hle
          rw [List.getElem?_eq_none hlen, List.getElem?_eq_none (not_lt.mp hlt)]
      rw [TrustMap.at, AList.lookup_insert_ne hv, hget]
      exact ih

end LogOddsBeliefEngine

end Aimp.Epistemic
