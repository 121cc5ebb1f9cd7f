import Aimp.Epistemic.AutoEdge
import Aimp.Epistemic.Proofs.OrderProofs

/-!
# Generated edges

Every generated edge leads from a smaller id to a larger one. So the generated graph has no cycles, and
the order of the claims matters neither for the edges nor for the beliefs (`generateEdges_order_free`).
-/

open Relation

namespace Aimp.Epistemic

variable {claims claims' : List Claim} {g : AutoEdgeGenerator}

/-! ## Pairs of sorted claims -/

theorem orderedPairs_of_pairwise {α : Type} {R : α → α → Prop} {l : List α} (hl : l.Pairwise R)
    {x y : α} (h : (x, y) ∈ orderedPairs l) : R x y := by
  induction l with
  | nil => cases h
  | cons z l ih =>
    obtain ⟨hz, hl⟩ := List.pairwise_cons.mp hl
    rcases List.mem_append.mp h with h | h
    · obtain ⟨w, hw, heq⟩ := List.mem_map.mp h
      cases heq
      exact hz _ hw
    · exact ih hl h

theorem mem_withEmbedding {c : EmbeddedClaim} (h : c ∈ withEmbedding claims) :
    c.1 ∈ claims ∧ c.1.embedding = some c.2 := by
  obtain ⟨d, hd, hc⟩ := List.mem_filterMap.mp ((List.mem_insertionSort _).mp h)
  obtain ⟨e, he, rfl⟩ := Option.map_eq_some_iff.mp hc
  exact ⟨hd, he⟩

theorem map_withEmbedding_perm :
    ((withEmbedding claims).map fun c => c.1.id).Perm
      ((claims.filter fun c => c.embedding.isSome).map Claim.id) := by
  refine ((List.perm_insertionSort _ _).map _).trans (.of_eq ?_)
  induction claims with
  | nil => rfl
  | cons c claims ih =>
    cases h : c.embedding with
    | none => simpa [h] using ih
    | some e => simpa [h] using ih

/-- The ids are in strictly ascending order. -/
theorem withEmbedding_sorted (hids : (claims.map Claim.id).Nodup) :
    (withEmbedding claims).Pairwise fun a b => a.1.id < b.1.id := by
  have hle : (withEmbedding claims).Pairwise fun a b => a.1.id ≤ b.1.id :=
    List.pairwise_insertionSort _ _
  have hnodup : ((withEmbedding claims).map fun c => c.1.id).Nodup :=
    map_withEmbedding_perm.nodup_iff.mpr (hids.sublist (List.filter_sublist.map _))
  have hne : (withEmbedding claims).Pairwise fun a b => a.1.id ≠ b.1.id := List.pairwise_map.mp hnodup
  exact hle.imp₂ (fun _ _ h h' => lt_of_le_of_ne h h') hne

/-- Claims that their ids identify are sorted in one way. -/
theorem withEmbedding_perm (hids : ∀ c ∈ claims, ∀ d ∈ claims, c.id = d.id → c = d)
    (hperm : claims'.Perm claims) : withEmbedding claims' = withEmbedding claims := by
  have hsorted : ∀ claims, (withEmbedding claims).Pairwise fun a b => a.1.id ≤ b.1.id := fun claims =>
    List.pairwise_insertionSort _ _
  refine List.Perm.eq_of_pairwise ?_ (hsorted claims') (hsorted claims) ?_
  · intro a b ha hb hab hba
    obtain ⟨ha, hae⟩ := mem_withEmbedding ha
    obtain ⟨hb, hbe⟩ := mem_withEmbedding hb
    have heq := hids a.1 (hperm.subset ha) b.1 hb (le_antisymm hab hba)
    rw [heq, hbe] at hae
    exact Prod.ext heq (Option.some_inj.mp hae).symm
  · exact (List.perm_insertionSort _ _).trans
      ((hperm.filterMap _).trans (List.perm_insertionSort _ _).symm)

/-! ## The generated edges -/

/-- An edge that the generator makes of a pair of claims. -/
def Generated (claims : List Claim) (raw : RawEpistemicEdge) : Prop :=
  ∃ p ∈ orderedPairs (withEmbedding claims), raw.fromHash = p.1.1.id ∧ raw.toHash = p.2.1.id

/-- A pair adds at most one edge, between its claims. -/
theorem AutoEdgeGenerator.edges_visitPair (g : AutoEdgeGenerator) (b : EdgeBatch)
    (p : EmbeddedClaim × EmbeddedClaim) :
    (g.visitPair b p).edges = b.edges ∨
      ∃ rel, (g.visitPair b p).edges = b.edges ++ [g.edge p.1 p.2 rel] := by
  unfold AutoEdgeGenerator.visitPair
  dsimp only
  split
  · exact Or.inl rfl
  · split
    · exact Or.inl rfl
    · cases g.config.relation (p.1.2.hammingDistance p.2.2) with
      | none => exact Or.inl rfl
      | some rel => exact Or.inr ⟨rel, rfl⟩

theorem AutoEdgeGenerator.generated {raw : RawEpistemicEdge} (h : raw ∈ g.generateEdges claims) :
    Generated claims raw := by
  unfold AutoEdgeGenerator.generateEdges at h
  split at h
  · cases h
  · -- the edges of a part of the pairs
    have hpart : ∀ (pairs : List (EmbeddedClaim × EmbeddedClaim)) (b : EdgeBatch),
        pairs ⊆ orderedPairs (withEmbedding claims) → (∀ raw ∈ b.edges, Generated claims raw) →
        ∀ raw ∈ (pairs.foldl g.visitPair b).edges, Generated claims raw := by
      intro pairs
      induction pairs with
      | nil => exact fun _ _ hb => hb
      | cons p pairs ih =>
        intro b hsub hb
        rw [List.cons_subset] at hsub
        refine ih _ hsub.2 fun raw hraw => ?_
        rcases g.edges_visitPair b p with heq | ⟨rel, heq⟩
        · exact hb raw (heq ▸ hraw)
        · rw [heq] at hraw
          rcases List.mem_append.mp hraw with hraw | hraw
          · exact hb raw hraw
          · rw [List.mem_singleton.mp hraw]
            exact ⟨p, hsub.1, rfl, rfl⟩
    exact hpart _ ⟨[], ∅⟩ (fun _ hp => hp) (fun _ hraw => absurd hraw List.not_mem_nil) raw h

theorem Generated.lt {raw : RawEpistemicEdge} (hids : (claims.map Claim.id).Nodup)
    (h : Generated claims raw) : raw.fromHash < raw.toHash := by
  obtain ⟨p, hp, hfrom, hto⟩ := h
  rw [hfrom, hto]
  exact orderedPairs_of_pairwise (withEmbedding_sorted hids) hp

theorem generateEdges_between : Between claims (g.generateEdges claims) := by
  intro raw hraw
  obtain ⟨p, hp, hfrom, hto⟩ := g.generated hraw
  obtain ⟨hp₁, hp₂⟩ := mem_orderedPairs hp
  rw [hfrom, hto]
  exact ⟨List.mem_map_of_mem (mem_withEmbedding hp₁).1, List.mem_map_of_mem (mem_withEmbedding hp₂).1⟩

/-- Generated edges go up, so no two claims support each other. -/
theorem generateEdges_noMutualSupport (hids : (claims.map Claim.id).Nodup) :
    NoMutualSupport ((g.generateEdges claims).map RawEpistemicEdge.link) := by
  have hup : ∀ a b, ReflTransGen
      (SupportLink ((g.generateEdges claims).map RawEpistemicEdge.link)) a b → a ≤ b := by
    intro a b h
    induction h with
    | refl => exact le_rfl
    | tail _ hlink ih =>
      obtain ⟨l, hl, _, rfl, rfl⟩ := hlink
      obtain ⟨raw, hraw, rfl⟩ := List.mem_map.mp hl
      exact ih.trans (g.generated hraw |>.lt hids).le
  intro a b hne h
  exact hne (le_antisymm (hup a b h.1) (hup b a h.2))

theorem AutoEdgeGenerator.generateEdges_perm (g : AutoEdgeGenerator)
    (hids : (claims.map Claim.id).Nodup) (hperm : claims'.Perm claims) :
    g.generateEdges claims' = g.generateEdges claims := by
  unfold AutoEdgeGenerator.generateEdges
  rw [withEmbedding_perm (fun c hc d hd => List.inj_on_of_nodup_map hids hc hd) hperm]

/-- The order of the claims changes neither the generated edges nor a belief that is computed from
them, and none of the edges is removed as a part of a cycle. -/
theorem generateEdges_order_free (blake3 : Blake3) (engine : LogOddsBeliefEngine)
    (reputations : Reputations) (g : AutoEdgeGenerator) (claims claims' : List Claim)
    (hids : (claims.map Claim.id).Nodup) (hperm : claims'.Perm claims) :
    g.generateEdges claims' = g.generateEdges claims ∧
    (KnowledgeGraph.buildFromClaims claims (g.generateEdges claims)).edges.length =
      (g.generateEdges claims).length ∧
    (KnowledgeGraph.buildFromClaims claims (g.generateEdges claims)).cyclicEdgeIndices = [] ∧
    ∀ (i j : ℕ) (c : Claim), claims[i]? = some c → claims'[j]? = some c →
      (engine.compute blake3 claims (.buildFromClaims claims (g.generateEdges claims))
        reputations).SameClass
      (engine.compute blake3 claims' (.buildFromClaims claims' (g.generateEdges claims'))
        reputations) i j := by
  have hmutual := generateEdges_noMutualSupport (g := g) hids
  refine ⟨g.generateEdges_perm hids hperm, ?_, ?_, fun i j c hi hj => ?_⟩
  · rw [buildFromClaims_edges hids generateEdges_between, List.length_map]
  · refine List.eq_nil_iff_forall_not_mem.mpr fun k hk => ?_
    obtain ⟨raw, hraw, _, hloop⟩ :=
      (mem_cyclicEdgeIndices_iff hids generateEdges_between hmutual).mp hk
    have hlt := (g.generated (List.mem_of_getElem? hraw)).lt hids
    exact absurd hloop hlt.ne
  · rw [g.generateEdges_perm hids hperm]
    exact sameClass_perm hids generateEdges_between hmutual hperm hi hj

/-- A neutral claim with an embedding whose first word is `w`. -/
def neutralEmbedded (b : Byte) (w : U64) : Claim :=
  { plainClaim (uniformId b) .neutral with embedding := some ⟨[w, 0, 0, 0], rfl⟩ }

/-- Two claims that support each other, in both orders. -/
theorem generateEdges_order_free_pair :
    ((AutoEdgeGenerator.mk .default).generateEdges [neutralEmbedded 1 0, neutralEmbedded 0 7]).map
      RawEpistemicEdge.link = [(uniformId 0, uniformId 1, .supports)] ∧
    (AutoEdgeGenerator.mk .default).generateEdges [neutralEmbedded 1 0, neutralEmbedded 0 7] =
      (AutoEdgeGenerator.mk .default).generateEdges [neutralEmbedded 0 7, neutralEmbedded 1 0] ∧
    (LogOddsBeliefEngine.default.compute sampleHash [neutralEmbedded 0 7, neutralEmbedded 1 0]
      (.buildFromClaims [neutralEmbedded 0 7, neutralEmbedded 1 0]
        ((AutoEdgeGenerator.mk .default).generateEdges [neutralEmbedded 0 7, neutralEmbedded 1 0]))
      fun _ => .full).SameClass
    (LogOddsBeliefEngine.default.compute sampleHash [neutralEmbedded 1 0, neutralEmbedded 0 7]
      (.buildFromClaims [neutralEmbedded 1 0, neutralEmbedded 0 7]
        ((AutoEdgeGenerator.mk .default).generateEdges [neutralEmbedded 1 0, neutralEmbedded 0 7]))
      fun _ => .full) 1 0 := by
  obtain ⟨hedges, _, _, hsame⟩ := generateEdges_order_free sampleHash .default (fun _ => .full)
    (AutoEdgeGenerator.mk .default) [neutralEmbedded 0 7, neutralEmbedded 1 0]
    [neutralEmbedded 1 0, neutralEmbedded 0 7] (by decide) (.swap _ _ _)
  exact ⟨by decide +kernel, hedges, hsame 1 0 (neutralEmbedded 1 0) rfl rfl⟩

end Aimp.Epistemic
