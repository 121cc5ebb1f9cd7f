import Aimp.Epistemic.Proofs.BeliefProofs
import Aimp.Epistemic.Proofs.ClusterProofs
import Aimp.Epistemic.Proofs.RenumberProofs

/-!
# Bystanders

Claims that no edge touches act on the other claims through the correlation groups alone
(`compute_append`).
-/

open Relation

namespace Aimp.Epistemic

variable {claims extras : List Claim} {graph : KnowledgeGraph} {reputations : Reputations}
  {blake3 : Blake3} {engine : LogOddsBeliefEngine}

/-- The claims are in the groups that they are in without the further claims. -/
def SameGroupsWith (blake3 : Blake3) (claims extras : List Claim) : Prop :=
  SameGrouping id claims.length (correlationGroups blake3 claims defaultSupportThreshold)
    (correlationGroups blake3 (claims ++ extras) defaultSupportThreshold)

/-- Claims without embeddings change no group. -/
theorem sameGroupsWith_of_none (h : ∀ c ∈ extras, c.embedding = none) :
    SameGroupsWith blake3 claims extras := by
  have hmem : ∀ d : Claim, d.embedding.isSome → (d ∈ claims ↔ d ∈ claims ++ extras) := by
    intro d hd
    rw [List.mem_append]
    refine (or_iff_left fun hextra => ?_).symm
    rw [h d hextra] at hd
    cases hd
  have hgroup : ∀ v < claims.length,
      groupAt (correlationGroups blake3 (claims ++ extras) defaultSupportThreshold) v =
        groupAt (correlationGroups blake3 claims defaultSupportThreshold) v := by
    intro v hv
    have hget := List.getElem?_eq_getElem hv
    unfold groupAt
    rw [correlationGroups_congr hmem hget ((List.getElem?_append_left hv).trans hget)]
  refine ⟨fun v hv => ?_, fun v hv w hw => ?_⟩
  · exact congrArg CorrelationGroup.assessed (hgroup v hv)
  · rw [id, id, hgroup v hv, hgroup w hw]

theorem Clustered.append {thresholdBits : ℕ} {c d : Claim}
    (hassessed : ∀ a ∈ claims, Assessed claims a → Assessed (claims ++ extras) a)
    (h : Clustered claims thresholdBits c d) : Clustered (claims ++ extras) thresholdBits c d := by
  refine EqvGen.mono (fun a b hab => ?_) _ _ h
  exact ⟨List.mem_append_left _ hab.left_mem, List.mem_append_left _ hab.right_mem,
    hassessed a hab.left_mem hab.left_assessed, hassessed b hab.right_mem hab.right_assessed, hab.close⟩

/-- If keys do not collide, then the claims stay in their groups as long as the further ones neither
dispute an embedding nor join two clusters. -/
theorem sameGroupsWith_of_clusters (hids : ((claims ++ extras).map Claim.id).Nodup)
    (hkeys : KeysDistinct blake3 (claims ++ extras))
    (hassessed : ∀ c ∈ claims, Assessed claims c → Assessed (claims ++ extras) c)
    (hchains : ∀ c ∈ claims, ∀ d ∈ claims, Assessed claims c →
      Clustered (claims ++ extras) defaultSupportThreshold c d →
      Clustered claims defaultSupportThreshold c d) :
    SameGroupsWith blake3 claims extras := by
  have hids' : (claims.map Claim.id).Nodup := by
    rw [List.map_append] at hids
    exact hids.of_append_left
  have hsub : ∀ c ∈ claims, c ∈ claims ++ extras := fun c hc => List.mem_append_left _ hc
  have hkeys' : KeysDistinct blake3 claims := hkeys.mono hsub
  have hdisputed : ∀ c, ¬ Assessed claims c → ¬ Assessed (claims ++ extras) c := fun c hc h =>
    hc (h.anti hsub)
  -- the group of a claim, with and without the further ones
  have hgroup : ∀ v (hv : v < claims.length),
      IsGroup blake3 claims defaultSupportThreshold claims[v]
        (groupAt (correlationGroups blake3 claims defaultSupportThreshold) v) ∧
      IsGroup blake3 (claims ++ extras) defaultSupportThreshold claims[v]
        (groupAt (correlationGroups blake3 (claims ++ extras) defaultSupportThreshold) v) := by
    intro v hv
    have hget := List.getElem?_eq_getElem hv
    obtain ⟨g, hg, hspec⟩ := correlationGroups_isGroup blake3 defaultSupportThreshold hget
    obtain ⟨g', hg', hspec'⟩ := correlationGroups_isGroup blake3 defaultSupportThreshold
      ((List.getElem?_append_left hv).trans hget)
    unfold groupAt
    rw [hg, hg']
    exact ⟨hspec, hspec'⟩
  refine ⟨fun v hv => ?_, fun v hv w hw => ?_⟩
  · obtain ⟨hspec, hspec'⟩ := hgroup v hv
    rw [Bool.eq_iff_iff, id, hspec.assessed_iff, hspec'.assessed_iff]
    exact ⟨fun h => h.anti hsub, hassessed _ (List.getElem_mem hv)⟩
  · obtain ⟨hv', hv''⟩ := hgroup v hv
    obtain ⟨hw', hw''⟩ := hgroup w hw
    have hmemv := List.getElem_mem hv
    have hmemw := List.getElem_mem hw
    rw [id, id]
    by_cases hva : Assessed claims claims[v]
    · have hva' := hassessed _ hmemv hva
      by_cases hwa : Assessed claims claims[w]
      · rw [hv'.key_eq_iff hids' hkeys' hw' hva hwa,
          hv''.key_eq_iff hids hkeys hw'' hva' (hassessed _ hmemw hwa)]
        exact ⟨hchains _ hmemv _ hmemw hva, Clustered.append hassessed⟩
      · refine iff_of_false ?_ (hv'.key_ne hkeys' hmemw hw' hva hwa)
        exact hv''.key_ne hkeys (hsub _ hmemw) hw'' hva' (hdisputed _ hwa)
    · by_cases hwa : Assessed claims claims[w]
      · refine iff_of_false ?_ (hw'.key_ne hkeys' hmemv hv' hwa hva).symm
        exact (hw''.key_ne hkeys (hsub _ hmemv) hv'' (hassessed _ hmemw hwa)
          (hdisputed _ hva)).symm
      · rw [hv'.unassessed hva, hw'.unassessed hwa, hv''.unassessed (hdisputed _ hva),
          hw''.unassessed (hdisputed _ hwa)]

theorem renumbers_append
    (hends : ∀ e ∈ graph.edges, e.fromId < claims.length ∧ e.toId < claims.length) :
    KnowledgeGraph.Renumbers id claims (claims ++ extras) graph graph where
  inj _ _ _ _ h := h
  claim _ hv := List.getElem?_append_left hv
  edges := (List.map_id graph.edges).symm
  endpoints := hends

/-- Claims that no edge touches leave every other claim in its class, as long as they leave it in its
group. -/
theorem compute_append {v : ClaimArenaId}
    (hends : ∀ e ∈ graph.edges, e.fromId < claims.length ∧ e.toId < claims.length)
    (hgroups : SameGroupsWith blake3 claims extras) (hv : v < claims.length) :
    (engine.compute blake3 claims graph reputations).SameClass
      (engine.compute blake3 (claims ++ extras) graph reputations) v v := by
  have hle : claims.length ≤ (claims ++ extras).length := by simp
  refine LogOddsBeliefEngine.sameClass_of_trust hv (hv.trans_le hle) ?_
  refine KnowledgeGraph.propagateTrustFull_renumber (renumbers_append hends) (fun _ => Iff.rfl)
    hgroups (fun w hw => ?_) 5 engine.maxContradictionDampingBps hv
  rw [LogOddsBeliefEngine.baseTrust_at, LogOddsBeliefEngine.baseTrust_at, id,
    List.getElem?_append_left hw]

/-! ### A bridge between two clusters -/

/-- An embedding with the lowest `k` bits set. -/
def lowBits (k : ℕ) : QuantizedEmbedding := ⟨[Fin.ofNat (2 ^ 64) (2 ^ k - 1), 0, 0, 0], rfl⟩

/-- A claim with a content and an embedding of its own. -/
def embeddedClaim (b : Byte) (confidence : LogOdds) (bits : ℕ) : Claim :=
  { plainClaim (uniformId b) confidence with
    fingerprint := ⟨⟨List.replicate 16 b, by simp⟩, 0⟩
    embedding := some (lowBits bits) }

/-- A claim and its two supporters, whose embeddings are 40 bits apart. -/
def twoSupporters : List Claim :=
  [plainClaim (uniformId 0) .neutral, embeddedClaim 1 ⟨1150, by decide⟩ 0,
    embeddedClaim 2 ⟨1150, by decide⟩ 40]

/-- A claim of another author, 20 bits away from both. -/
def bridgeClaim : Claim :=
  { embeddedClaim 3 .neutral 20 with origin := ⟨List.replicate 32 2, length_twos⟩ }

/-- The support of the two claims, of full strength. -/
def twoSupports : KnowledgeGraph :=
  (KnowledgeGraph.new.addEdge ⟨1, 0, .supports, .full⟩).addEdge ⟨2, 0, .supports, .full⟩

/-- Only the first author has a reputation. -/
def onlyPlainOrigin : Reputations := fun origin => if origin = plainOrigin then .full else .zero

/-- The claim without its embedding joins no clusters. -/
theorem compute_append_without_embedding :
    (∀ e ∈ twoSupports.edges, e.fromId < twoSupporters.length ∧ e.toId < twoSupporters.length) ∧
    (LogOddsBeliefEngine.default.compute sampleHash twoSupporters twoSupports
      onlyPlainOrigin).SameClass
      (LogOddsBeliefEngine.default.compute sampleHash
        (twoSupporters ++ [{ bridgeClaim with embedding := none }]) twoSupports onlyPlainOrigin)
      0 0 := by
  have hends : ∀ e ∈ twoSupports.edges,
      e.fromId < twoSupporters.length ∧ e.toId < twoSupporters.length := by decide
  refine ⟨hends, compute_append hends (sameGroupsWith_of_none fun c hc => ?_) (by decide)⟩
  rw [List.mem_singleton.mp hc]

/-- Through the bridge, two independent supporters become correlated ones, and the claim that they
support is not accepted any more. -/
theorem bridgeClaim_noticed :
    (onlyPlainOrigin bridgeClaim.origin).bps = 0 ∧
    0 ∈ (LogOddsBeliefEngine.default.compute sampleHash twoSupporters twoSupports
      onlyPlainOrigin).accepted ∧
    0 ∈ (LogOddsBeliefEngine.default.compute sampleHash (twoSupporters ++ [bridgeClaim]) twoSupports
      onlyPlainOrigin).uncertain := by
  decide +kernel

end Aimp.Epistemic
