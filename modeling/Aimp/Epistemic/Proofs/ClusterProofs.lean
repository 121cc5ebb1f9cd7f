import Aimp.Epistemic.Proofs.CorrelationProofs
import Aimp.Epistemic.Proofs.TrustProofs

/-!
# Keys of the correlation groups

If distinct inputs are hashed to distinct keys, then the correlation groups are exactly the clusters of
close embeddings (`correlationGroups_exact`).
-/

open Relation

namespace Aimp.Epistemic

variable {blake3 : Blake3} {claims claims' : List Claim} {thresholdBits : ℕ}

/-- What is hashed to the key of a cluster. -/
def clusterInput (anchor : ClaimHash) : List Byte :=
  asBytes "aimp.correlation.cluster.v2" ++ anchor.val

/-- What is hashed to the key of an origin. -/
def originInput (origin : NodeId) : List Byte := asBytes "aimp.correlation.origin.v1" ++ origin.val

/-- What is hashed to the key of a declared cell. -/
def cellInput (cell : U64) : List Byte :=
  asBytes "aimp.correlation.declared.v1" ++ (toLeBytes cell).val

/-- All that may be hashed to a key for the given claims. -/
def keyInputs (claims : List Claim) : Set (List Byte) :=
  {input | ∃ c ∈ claims, input = clusterInput c.id ∨ input = originInput c.origin ∨
    ∃ cell, c.correlationCell = some cell ∧ input = cellInput cell}

/-- Distinct inputs are hashed to distinct 64-bit keys. -/
def KeysDistinct (blake3 : Blake3) (claims : List Claim) : Prop :=
  Set.InjOn (fun input => firstWord (blake3 input)) (keyInputs claims)

theorem KeysDistinct.mono (h : KeysDistinct blake3 claims') (hsub : ∀ c ∈ claims, c ∈ claims') :
    KeysDistinct blake3 claims := by
  refine Set.InjOn.mono ?_ h
  rintro input ⟨c, hc, hinput⟩
  exact ⟨c, hsub c hc, hinput⟩

/-! ## The inputs -/

theorem clusterInput_mem {c : Claim} (hc : c ∈ claims) : clusterInput c.id ∈ keyInputs claims :=
  ⟨c, hc, Or.inl rfl⟩

/-- The key of an unassessed claim is made from its cell or its origin. -/
theorem exists_cellInput (blake3 : Blake3) {c : Claim} (hc : c ∈ claims) :
    ∃ input ∈ keyInputs claims, c.effectiveCorrelationCell blake3 = firstWord (blake3 input) ∧
      ((∃ cell, input = cellInput cell) ∨ ∃ origin, input = originInput origin) := by
  cases hcell : c.correlationCell with
  | none =>
    refine ⟨originInput c.origin, ⟨c, hc, Or.inr (Or.inl rfl)⟩, ?_, Or.inr ⟨_, rfl⟩⟩
    rw [Claim.effectiveCorrelationCell, hcell]
    rfl
  | some cell =>
    refine ⟨cellInput cell, ⟨c, hc, Or.inr (Or.inr ⟨cell, hcell, rfl⟩)⟩, ?_, Or.inl ⟨_, rfl⟩⟩
    rw [Claim.effectiveCorrelationCell, hcell]
    rfl

/-- The domains of the inputs differ in their 18th byte. -/
theorem clusterInput_getElem? (anchor : ClaimHash) : (clusterInput anchor)[17]? = some 99 := by
  rw [clusterInput, List.getElem?_append_left (by decide +kernel)]
  decide +kernel

theorem originInput_getElem? (origin : NodeId) : (originInput origin)[17]? = some 111 := by
  rw [originInput, List.getElem?_append_left (by decide +kernel)]
  decide +kernel

theorem cellInput_getElem? (cell : U64) : (cellInput cell)[17]? = some 100 := by
  rw [cellInput, List.getElem?_append_left (by decide +kernel)]
  decide +kernel

theorem clusterInput_ne {anchor : ClaimHash} {input : List Byte}
    (h : (∃ cell, input = cellInput cell) ∨ ∃ origin, input = originInput origin) :
    clusterInput anchor ≠ input := by
  intro heq
  have hbyte := clusterInput_getElem? anchor
  rw [heq] at hbyte
  rcases h with ⟨cell, rfl⟩ | ⟨origin, rfl⟩
  · rw [cellInput_getElem?] at hbyte
    exact absurd hbyte (by decide)
  · rw [originInput_getElem?] at hbyte
    exact absurd hbyte (by decide)

/-! ## Chains -/

theorem Near.symm {a b : Claim} (h : Near claims thresholdBits a b) :
    Near claims thresholdBits b a :=
  ⟨h.right_mem, h.left_mem, h.right_assessed, h.left_assessed, withinThreshold_comm h.close⟩

theorem chain_symm {a b : Claim} (h : ReflTransGen (Near claims thresholdBits) a b) :
    ReflTransGen (Near claims thresholdBits) b a := by
  induction h with
  | refl => exact .refl
  | tail _ hstep ih => exact .head hstep.symm ih

/-- Clusters are joined by chains of close claims. -/
theorem clustered_iff_chain {a b : Claim} :
    Clustered claims thresholdBits a b ↔ ReflTransGen (Near claims thresholdBits) a b := by
  constructor
  · intro h
    induction h with
    | rel a b h => exact .single h
    | refl => exact .refl
    | symm a b _ ih => exact chain_symm ih
    | trans a b c _ _ ih ih' => exact ih.trans ih'
  · intro h
    induction h with
    | refl => exact .refl _
    | tail _ hstep ih => exact .trans _ _ _ ih (.rel _ _ hstep)

/-! ## Keys -/

/-- A cluster has one anchor, and an anchor belongs to one cluster. -/
theorem anchor_eq_iff (hids : (claims.map Claim.id).Nodup) {c d : Claim} {a a' : ClaimHash}
    (ha : IsLeast (ClusterIds claims thresholdBits c) a)
    (ha' : IsLeast (ClusterIds claims thresholdBits d) a') :
    a = a' ↔ Clustered claims thresholdBits c d := by
  constructor
  · rintro rfl
    obtain ⟨x, hx, hcx, hxa⟩ := ha.1
    obtain ⟨y, hy, hdy, hya⟩ := ha'.1
    obtain rfl := List.inj_on_of_nodup_map hids hx hy (hxa.trans hya.symm)
    exact .trans _ _ _ hcx (.symm _ _ hdy)
  · intro hcd
    have hids' : ClusterIds claims thresholdBits c = ClusterIds claims thresholdBits d := by
      ext h
      constructor
      · rintro ⟨x, hx, hcx, hxh⟩
        exact ⟨x, hx, .trans _ _ _ (.symm _ _ hcd) hcx, hxh⟩
      · rintro ⟨x, hx, hdx, hxh⟩
        exact ⟨x, hx, .trans _ _ _ hcd hdx, hxh⟩
    rw [hids'] at ha
    exact ha.unique ha'

section Groups

variable {i j : ℕ} {c d : Claim} {g h : CorrelationGroup}

/-- The group at a position is the group of the claim there. -/
theorem isGroup_of_getElem? (hi : claims[i]? = some c)
    (hg : (correlationGroups blake3 claims thresholdBits)[i]? = some g) :
    IsGroup blake3 claims thresholdBits c g := by
  obtain ⟨g', hg', hspec⟩ := correlationGroups_isGroup blake3 thresholdBits hi
  obtain rfl := Option.some.inj (hg.symm.trans hg')
  exact hspec

theorem IsGroup.assessed_iff (hg : IsGroup blake3 claims thresholdBits c g) :
    g.assessed = true ↔ Assessed claims c := by
  by_cases hca : Assessed claims c
  · obtain ⟨anchor, _, rfl⟩ := hg.assessed hca
    exact iff_of_true rfl hca
  · rw [hg.unassessed hca]
    exact iff_of_false (by simp) hca

/-- Two assessed claims have one key exactly if they are in one cluster. -/
theorem IsGroup.key_eq_iff (hids : (claims.map Claim.id).Nodup) (hkeys : KeysDistinct blake3 claims)
    (hg : IsGroup blake3 claims thresholdBits c g) (hh : IsGroup blake3 claims thresholdBits d h)
    (hc : Assessed claims c) (hd : Assessed claims d) :
    g.key = h.key ↔ Clustered claims thresholdBits c d := by
  obtain ⟨a, ha, rfl⟩ := hg.assessed hc
  obtain ⟨a', ha', rfl⟩ := hh.assessed hd
  rw [← anchor_eq_iff hids ha ha']
  constructor
  · intro heq
    obtain ⟨x, hx, _, rfl⟩ := ha.1
    obtain ⟨y, hy, _, rfl⟩ := ha'.1
    have hinput := hkeys (clusterInput_mem hx) (clusterInput_mem hy) heq
    exact Subtype.ext (List.append_cancel_left hinput)
  · rintro rfl
    rfl

/-- An unassessed claim shares its key with no assessed one. -/
theorem IsGroup.key_ne (hkeys : KeysDistinct blake3 claims) (hd' : d ∈ claims)
    (hg : IsGroup blake3 claims thresholdBits c g) (hh : IsGroup blake3 claims thresholdBits d h)
    (hc : Assessed claims c) (hd : ¬ Assessed claims d) : g.key ≠ h.key := by
  obtain ⟨a, ⟨⟨x, hx, _, rfl⟩, _⟩, rfl⟩ := hg.assessed hc
  rw [hh.unassessed hd]
  intro heq
  obtain ⟨input, hinput, hcell, hdomain⟩ := exists_cellInput blake3 hd'
  exact clusterInput_ne hdomain (hkeys (clusterInput_mem hx) hinput (heq.trans hcell))

end Groups

/-- The correlation groups are exactly the clusters: a claim is assessed exactly if its embedding is
consistent, assessed claims have one key exactly if a chain of close claims joins them, no unassessed
claim has the key of an assessed one, and a permutation of the claims permutes the groups. -/
theorem correlationGroups_exact (blake3 : Blake3) (claims : List Claim) (thresholdBits : ℕ)
    (hids : (claims.map Claim.id).Nodup) (hkeys : KeysDistinct blake3 claims) :
    (∀ (i : ℕ) (c : Claim) (g : CorrelationGroup), claims[i]? = some c →
      (correlationGroups blake3 claims thresholdBits)[i]? = some g →
      (g.assessed = true ↔ Assessed claims c)) ∧
    (∀ (i j : ℕ) (c d : Claim) (g h : CorrelationGroup),
      claims[i]? = some c → claims[j]? = some d →
      (correlationGroups blake3 claims thresholdBits)[i]? = some g →
      (correlationGroups blake3 claims thresholdBits)[j]? = some h →
      g.assessed = true → h.assessed = true →
      (g.key = h.key ↔ ReflTransGen (Near claims thresholdBits) c d)) ∧
    (∀ g ∈ correlationGroups blake3 claims thresholdBits,
      ∀ h ∈ correlationGroups blake3 claims thresholdBits,
      g.assessed = true → h.assessed = false → g.key ≠ h.key) ∧
    ∀ claims' : List Claim, claims'.Perm claims → ∀ (i j : ℕ) (c : Claim), claims[i]? = some c →
      claims'[j]? = some c →
      (correlationGroups blake3 claims' thresholdBits)[j]? =
        (correlationGroups blake3 claims thresholdBits)[i]? := by
  refine ⟨fun i c g hi hg => (isGroup_of_getElem? hi hg).assessed_iff, ?_, ?_, ?_⟩
  · intro i j c d g h hi hj hg hh hga hha
    have hspec := isGroup_of_getElem? hi hg
    have hspec' := isGroup_of_getElem? hj hh
    rw [← clustered_iff_chain]
    exact hspec.key_eq_iff hids hkeys hspec' (hspec.assessed_iff.mp hga) (hspec'.assessed_iff.mp hha)
  · intro g hg h hh hga hha
    obtain ⟨i, hi⟩ := List.mem_iff_getElem?.mp hg
    obtain ⟨j, hj⟩ := List.mem_iff_getElem?.mp hh
    have hclaim : ∀ {k : ℕ} {g : CorrelationGroup},
        (correlationGroups blake3 claims thresholdBits)[k]? = some g → ∃ c, claims[k]? = some c := by
      intro k g hk
      have hlt := (List.getElem?_eq_some_iff.mp hk).1
      rw [length_correlationGroups] at hlt
      exact ⟨claims[k], List.getElem?_eq_getElem hlt⟩
    obtain ⟨c, hc⟩ := hclaim hi
    obtain ⟨d, hd⟩ := hclaim hj
    have hspec := isGroup_of_getElem? hc hi
    have hspec' := isGroup_of_getElem? hd hj
    refine hspec.key_ne hkeys (List.mem_of_getElem? hd) hspec' (hspec.assessed_iff.mp hga) ?_
    intro hda
    rw [hspec'.assessed_iff.mpr hda] at hha
    cases hha
  · intro claims' hperm i j c hi hj
    exact correlationGroups_congr (fun d _ => hperm.mem_iff.symm) hi hj

/-! ### Two claims -/

/-- An embedding without a set bit. -/
def zeroEmbedding : QuantizedEmbedding := ⟨[0, 0, 0, 0], rfl⟩

/-- A claim with an embedding and one without. -/
def assessedAndUnassessed : List Claim :=
  [{ plainClaim (uniformId 0) .neutral with embedding := some zeroEmbedding },
    plainClaim (uniformId 1) .neutral]

theorem correlationGroups_exact_two_claims :
    KeysDistinct sampleHash assessedAndUnassessed ∧
    ∀ g ∈ correlationGroups sampleHash assessedAndUnassessed defaultSupportThreshold,
      ∀ h ∈ correlationGroups sampleHash assessedAndUnassessed defaultSupportThreshold,
      g.assessed = true → h.assessed = false → g.key ≠ h.key := by
  have hkeys : KeysDistinct sampleHash assessedAndUnassessed := by
    have hinputs : keyInputs assessedAndUnassessed ⊆
        {clusterInput (uniformId 0), clusterInput (uniformId 1), originInput plainOrigin} := by
      rintro input ⟨c, hc, hinput⟩
      rcases List.mem_pair.mp hc with rfl | rfl
      · rcases hinput with rfl | rfl | ⟨cell, hcell, -⟩
        · exact Or.inl rfl
        · exact Or.inr (Or.inr rfl)
        · cases hcell
      · rcases hinput with rfl | rfl | ⟨cell, hcell, -⟩
        · exact Or.inr (Or.inl rfl)
        · exact Or.inr (Or.inr rfl)
        · cases hcell
    refine Set.InjOn.mono hinputs ?_
    rintro x (rfl | rfl | rfl) y (rfl | rfl | rfl) heq
    all_goals first | rfl | exact absurd heq (by decide +kernel)
  have hids : (assessedAndUnassessed.map Claim.id).Nodup := by decide
  exact ⟨hkeys, (correlationGroups_exact sampleHash assessedAndUnassessed defaultSupportThreshold
    hids hkeys).2.2.1⟩

end Aimp.Epistemic
