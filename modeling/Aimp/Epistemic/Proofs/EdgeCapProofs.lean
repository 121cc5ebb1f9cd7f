import Aimp.Epistemic.Proofs.AutoEdgeProofs
import Aimp.Lib.BoundedDegree

/-!
# The cap on generated edges

No claim has more than `max_k_nearest` generated edges, and a pair of claims that is left out has an
endpoint with that many (`generateEdges_bounded_maximal`). The edges of claims that are delivered twice are
others: a claim supports its own copy, and that counts (`generateEdges_repetition`).
-/

namespace Aimp.Epistemic

open BoundedDegree

variable {claims claims' : List Claim} {g : AutoEdgeGenerator} {b : EdgeBatch} {c d : Claim}
  {p : EmbeddedClaim × EmbeddedClaim}

/-! ## Pairs -/

/-- The pairs of a sorted list are in lexicographic order. -/
theorem orderedPairs_pairwise {α : Type} {R : α → α → Prop} {l : List α} (hl : l.Pairwise R) :
    (orderedPairs l).Pairwise fun p q => R p.1 q.1 ∨ p.1 = q.1 ∧ R p.2 q.2 := by
  induction l with
  | nil => exact .nil
  | cons x l ih =>
    obtain ⟨hx, hl⟩ := List.pairwise_cons.mp hl
    refine List.pairwise_append.mpr ⟨?_, ih hl, ?_⟩
    · exact List.pairwise_map.mpr (hl.imp fun h => Or.inr ⟨rfl, h⟩)
    · intro p hp q hq
      obtain ⟨y, _, rfl⟩ := List.mem_map.mp hp
      exact Or.inl (hx q.1 (mem_orderedPairs hq).1)

/-- The endpoints of an edge. -/
def RawEpistemicEdge.ends (raw : RawEpistemicEdge) : ClaimHash × ClaimHash := (raw.fromHash, raw.toHash)

/-- The ids of a pair. -/
def pairIds (p : EmbeddedClaim × EmbeddedClaim) : ClaimHash × ClaimHash := (p.1.1.id, p.2.1.id)

namespace AutoEdgeGenerator

/-- The two claims are compared, and their distance calls for an edge. -/
def callsFor (g : AutoEdgeGenerator) (p : EmbeddedClaim × EmbeddedClaim) : Bool :=
  p.1.1.embeddingVersion = p.2.1.embeddingVersion &&
    (g.config.relation (p.1.2.hammingDistance p.2.2)).isSome

end AutoEdgeGenerator

/-- The number of edges that a claim has. -/
def edgesAt (id : ClaimHash) (edges : List RawEpistemicEdge) : ℕ :=
  edges.countP fun raw => raw.fromHash = id ∨ raw.toHash = id

/-! ## The scan -/

/-- The counts are those of the edges. -/
def EdgeBatch.Counted (b : EdgeBatch) : Prop :=
  ∀ id, b.count id = degree id (b.edges.map RawEpistemicEdge.ends)

theorem EdgeBatch.lookup_countUp (counts : HashMap ClaimHash ℕ) (id id' : ClaimHash) :
    ((EdgeBatch.countUp counts id).lookup id').getD 0 =
      (counts.lookup id').getD 0 + if id = id' then 1 else 0 := by
  unfold EdgeBatch.countUp
  by_cases h : id = id'
  · subst h
    rw [AList.lookup_insert, if_pos rfl, Option.getD_some]
  · rw [AList.lookup_insert_ne (Ne.symm h), if_neg h, Nat.add_zero]

/-- What becomes of the edges and their counts when a pair is visited. -/
theorem AutoEdgeGenerator.visitPair_spec (g : AutoEdgeGenerator) (h : b.Counted)
    (p : EmbeddedClaim × EmbeddedClaim) :
    (g.visitPair b p).Counted ∧
      (g.visitPair b p).edges.map RawEpistemicEdge.ends =
        if g.callsFor p then
          take g.config.maxKNearest (b.edges.map RawEpistemicEdge.ends) (pairIds p)
        else b.edges.map RawEpistemicEdge.ends := by
  unfold AutoEdgeGenerator.visitPair AutoEdgeGenerator.callsFor
  dsimp only
  by_cases hversion : p.1.1.embeddingVersion = p.2.1.embeddingVersion
  · rw [if_neg (not_not.mpr hversion), decide_eq_true hversion, Bool.true_and]
    rw [h p.1.1.id, h p.2.1.id]
    cases hrel : g.config.relation (p.1.2.hammingDistance p.2.2) with
    | none =>
      rw [Option.elim_none, ite_self]
      exact ⟨h, rfl⟩
    | some rel =>
      rw [Option.elim_some, Option.isSome_some, if_pos rfl]
      unfold take pairIds
      dsimp only
      split
      · exact ⟨h, rfl⟩
      · refine ⟨fun id => ?_, List.map_append⟩
        rw [EdgeBatch.count, List.map_append, List.map_singleton, degree_concat, ← h id,
          EdgeBatch.lookup_countUp, EdgeBatch.lookup_countUp, Nat.add_assoc]
        rfl
  · rw [if_pos hversion, decide_eq_false hversion]
    exact ⟨h, rfl⟩

/-- The endpoints of the edges of a scan are chosen greedily. -/
theorem AutoEdgeGenerator.foldl_visitPair (g : AutoEdgeGenerator)
    (pairs : List (EmbeddedClaim × EmbeddedClaim)) :
    (pairs.foldl g.visitPair ⟨[], ∅⟩).Counted ∧
      (pairs.foldl g.visitPair ⟨[], ∅⟩).edges.map RawEpistemicEdge.ends =
        greedy g.config.maxKNearest ((pairs.filter g.callsFor).map pairIds) := by
  induction pairs using List.reverseRecOn with
  | nil => exact ⟨fun _ => rfl, rfl⟩
  | append_singleton pairs p ih =>
    obtain ⟨hcounted, hends⟩ := ih
    have hstep := g.visitPair_spec hcounted p
    rw [List.foldl_append, List.foldl_cons, List.foldl_nil]
    refine ⟨hstep.1, ?_⟩
    rw [hstep.2, hends, List.filter_append, List.map_append]
    by_cases hcalls : g.callsFor p = true
    · rw [if_pos hcalls, List.filter_cons_of_pos hcalls, List.filter_nil, List.map_singleton,
        greedy_concat]
    · rw [if_neg hcalls, List.filter_cons_of_neg hcalls, List.filter_nil, List.map_nil,
        List.append_nil]

theorem AutoEdgeGenerator.generateEdges_eq (g : AutoEdgeGenerator) (claims : List Claim) :
    g.generateEdges claims =
      ((orderedPairs (withEmbedding claims)).foldl g.visitPair ⟨[], ∅⟩).edges := by
  unfold AutoEdgeGenerator.generateEdges
  split
  · rename_i h
    match hl : withEmbedding claims with
    | [] => rfl
    | [_] => rfl
    | _ :: _ :: _ =>
      rw [hl, List.length_cons, List.length_cons] at h
      omega
  · rfl

theorem AutoEdgeGenerator.ends_generateEdges (g : AutoEdgeGenerator) (claims : List Claim) :
    (g.generateEdges claims).map RawEpistemicEdge.ends =
      greedy g.config.maxKNearest
        (((orderedPairs (withEmbedding claims)).filter g.callsFor).map pairIds) := by
  rw [g.generateEdges_eq]
  exact (g.foldl_visitPair _).2

/-! ## Distinct claims -/

theorem mem_withEmbedding_of_mem {e : QuantizedEmbedding} (hc : c ∈ claims)
    (he : c.embedding = some e) : (c, e) ∈ withEmbedding claims := by
  refine (List.mem_insertionSort _).mpr (List.mem_filterMap.mpr ⟨c, hc, ?_⟩)
  rw [he]
  rfl

theorem callsFor_swap : g.callsFor p.swap = g.callsFor p := by
  unfold AutoEdgeGenerator.callsFor
  rw [Prod.fst_swap, Prod.snd_swap, QuantizedEmbedding.hammingDistance_comm, Bool.decide_congr eq_comm]

/-- No generated edge is a loop. -/
theorem ne_of_mem_calledFor (hids : (claims.map Claim.id).Nodup) :
    ∀ q ∈ ((orderedPairs (withEmbedding claims)).filter g.callsFor).map pairIds, q.1 ≠ q.2 := by
  intro q hq
  obtain ⟨p, hp, rfl⟩ := List.mem_map.mp hq
  have hlt := orderedPairs_of_pairwise (withEmbedding_sorted hids) (List.mem_of_mem_filter hp)
  exact hlt.ne

theorem edgesAt_eq_degree (hids : (claims.map Claim.id).Nodup) (id : ClaimHash) :
    edgesAt id (g.generateEdges claims) =
      degree id ((g.generateEdges claims).map RawEpistemicEdge.ends) := by
  have hloop : ∀ q ∈ (g.generateEdges claims).map RawEpistemicEdge.ends, q.1 ≠ q.2 := by
    intro q hq
    rw [g.ends_generateEdges] at hq
    exact ne_of_mem_calledFor hids q ((greedy_sublist _ _).subset hq)
  rw [← countP_endpoint hloop, List.countP_map]
  rfl

theorem edgesAt_le (hids : (claims.map Claim.id).Nodup) (id : ClaimHash) :
    edgesAt id (g.generateEdges claims) ≤ g.config.maxKNearest := by
  rw [edgesAt_eq_degree hids, g.ends_generateEdges]
  exact degree_greedy_le (ne_of_mem_calledFor hids)

/-- The edges are in strict lexicographic order. -/
theorem generateEdges_sorted (hids : (claims.map Claim.id).Nodup) :
    (g.generateEdges claims).Pairwise fun a b =>
      a.fromHash < b.fromHash ∨ a.fromHash = b.fromHash ∧ a.toHash < b.toHash := by
  have hpairs := orderedPairs_pairwise (withEmbedding_sorted hids)
  have hids' : (((orderedPairs (withEmbedding claims)).filter g.callsFor).map pairIds).Pairwise
      fun a b => a.1 < b.1 ∨ a.1 = b.1 ∧ a.2 < b.2 := by
    refine List.pairwise_map.mpr ((hpairs.filter _).imp fun h => ?_)
    exact h.imp_right fun ⟨heq, hlt⟩ => ⟨congrArg (fun c => c.1.id) heq, hlt⟩
  have hends := hids'.sublist (greedy_sublist g.config.maxKNearest _)
  rw [← g.ends_generateEdges] at hends
  exact List.pairwise_map.mp hends

/-- A pair of claims whose distance calls for an edge has one, or one of them has no room for it. -/
theorem edge_or_full (hids : (claims.map Claim.id).Nodup) {e e' : QuantizedEmbedding}
    (hc : c ∈ claims) (hd : d ∈ claims) (hne : c ≠ d) (he : c.embedding = some e)
    (he' : d.embedding = some e') (hcalls : g.callsFor ((c, e), (d, e')) = true) :
    (∃ raw ∈ g.generateEdges claims,
      raw.ends = (c.id, d.id) ∨ raw.ends = (d.id, c.id)) ∨
    edgesAt c.id (g.generateEdges claims) = g.config.maxKNearest ∨
    edgesAt d.id (g.generateEdges claims) = g.config.maxKNearest := by
  have hfull : ∀ {q : ClaimHash × ClaimHash},
      q ∈ ((orderedPairs (withEmbedding claims)).filter g.callsFor).map pairIds →
      (∃ raw ∈ g.generateEdges claims, raw.ends = q) ∨
        edgesAt q.1 (g.generateEdges claims) = g.config.maxKNearest ∨
        edgesAt q.2 (g.generateEdges claims) = g.config.maxKNearest := by
    intro q hq
    have hmax := greedy_maximal (k := g.config.maxKNearest) hq
    rw [← g.ends_generateEdges, ← edgesAt_eq_degree hids, ← edgesAt_eq_degree hids,
      List.mem_map] at hmax
    exact hmax.imp_right (Or.imp (le_antisymm (edgesAt_le hids q.1))
      (le_antisymm (edgesAt_le hids q.2)))
  have hne' : ((c, e) : EmbeddedClaim) ≠ (d, e') := fun h => hne (congrArg Prod.fst h)
  rcases orderedPairs_of_mem (mem_withEmbedding_of_mem hc he) (mem_withEmbedding_of_mem hd he') hne'
    with hmem | hmem
  · rcases hfull (List.mem_map_of_mem (List.mem_filter.mpr ⟨hmem, hcalls⟩)) with
      ⟨raw, hraw, hends⟩ | hfull
    · exact Or.inl ⟨raw, hraw, Or.inl hends⟩
    · exact Or.inr hfull
  · have hcalls' : g.callsFor ((d, e'), (c, e)) = true := callsFor_swap.trans hcalls
    rcases hfull (List.mem_map_of_mem (List.mem_filter.mpr ⟨hmem, hcalls'⟩)) with
      ⟨raw, hraw, hends⟩ | hfull
    · exact Or.inl ⟨raw, hraw, Or.inr hends⟩
    · exact Or.inr hfull.symm

/-- Of distinct claims, none has more edges than the cap, the edges go from smaller to larger ids in strict
lexicographic order, and a pair of compared claims whose distance calls for an edge lacks it only if one
of the claims has as many edges as the cap allows. -/
theorem generateEdges_bounded_maximal (g : AutoEdgeGenerator) (hids : (claims.map Claim.id).Nodup) :
    (∀ id, edgesAt id (g.generateEdges claims) ≤ g.config.maxKNearest) ∧
    (∀ raw ∈ g.generateEdges claims, raw.fromHash < raw.toHash) ∧
    (g.generateEdges claims).Pairwise (fun a b =>
      a.fromHash < b.fromHash ∨ a.fromHash = b.fromHash ∧ a.toHash < b.toHash) ∧
    ∀ c ∈ claims, ∀ d ∈ claims, c ≠ d → ∀ e e', c.embedding = some e → d.embedding = some e' →
      c.embeddingVersion = d.embeddingVersion →
      (g.config.relation (e.hammingDistance e')).isSome →
      (∀ raw ∈ g.generateEdges claims, raw.ends ≠ (c.id, d.id) ∧ raw.ends ≠ (d.id, c.id)) →
      edgesAt c.id (g.generateEdges claims) = g.config.maxKNearest ∨
        edgesAt d.id (g.generateEdges claims) = g.config.maxKNearest := by
  refine ⟨edgesAt_le hids, fun raw hraw => (g.generated hraw).lt hids, generateEdges_sorted hids, ?_⟩
  intro c hc d hd hne e e' he he' hversion hrel hnone
  have hcalls : g.callsFor ((c, e), (d, e')) = true := by
    unfold AutoEdgeGenerator.callsFor
    rw [decide_eq_true hversion, hrel, Bool.and_self]
  refine (edge_or_full hids hc hd hne he he' hcalls).resolve_left ?_
  rintro ⟨raw, hraw, hends⟩
  exact hends.elim (hnone raw hraw).1 (hnone raw hraw).2

/-- One edge for each claim. -/
def oneEdge : AutoEdgeGenerator := ⟨{ AutoEdgeConfig.default with maxKNearest := 1 }⟩

/-- Three claims that are all close to each other. -/
def closeClaims : List Claim := [neutralEmbedded 2 3, neutralEmbedded 0 0, neutralEmbedded 1 1]

/-- The third claim gets no edge to the first one, which has its edge already. -/
theorem generateEdges_bounded_maximal_three :
    (∀ id, edgesAt id (oneEdge.generateEdges closeClaims) ≤ 1) ∧
    (edgesAt (uniformId 0) (oneEdge.generateEdges closeClaims) = 1 ∨
      edgesAt (uniformId 2) (oneEdge.generateEdges closeClaims) = 1) := by
  have hids : (closeClaims.map Claim.id).Nodup := by decide
  obtain ⟨hle, _, _, hfull⟩ := generateEdges_bounded_maximal oneEdge hids
  exact ⟨hle, hfull (neutralEmbedded 0 0) (by simp [closeClaims]) (neutralEmbedded 2 3)
    (by simp [closeClaims]) (by decide) _ _ rfl rfl rfl (by decide +kernel) (by decide +kernel)⟩

/-! ## Repeated claims -/

/-- The same claims, possibly not as often. -/
def SameClaims (claims claims' : List Claim) : Prop := ∀ c, c ∈ claims' ↔ c ∈ claims

/-- The claims that take part. -/
def embedded (claims : List Claim) : List Claim := claims.filter fun c => c.embedding.isSome

theorem withEmbedding_of_notEmbedded (h : ∀ c ∈ claims, c.embedding = none) :
    withEmbedding claims = [] := by
  rw [List.eq_nil_iff_forall_not_mem]
  intro c hc
  obtain ⟨hmem, hsome⟩ := mem_withEmbedding hc
  rw [h c.1 hmem] at hsome
  cases hsome

theorem generateEdges_of_cap_zero (h : g.config.maxKNearest = 0) : g.generateEdges claims = [] := by
  have hends := g.ends_generateEdges claims
  have hnil : ∀ pairs : List (ClaimHash × ClaimHash), greedy 0 pairs = [] := by
    intro pairs
    induction pairs using List.reverseRecOn with
    | nil => rfl
    | append_singleton pairs p ih =>
      rw [greedy_concat, ih]
      exact if_pos (Or.inl (Nat.zero_le _))
  rw [h, hnil] at hends
  exact List.map_eq_nil_iff.mp hends

/-- The generated edges depend on how often each claim with an embedding is there, not on their order. -/
theorem generateEdges_of_perm (hids : ∀ c ∈ claims, ∀ d ∈ claims, c.id = d.id → c = d)
    (hperm : (embedded claims').Perm (embedded claims)) :
    g.generateEdges claims' = g.generateEdges claims := by
  have hfilter : ∀ l : List Claim, withEmbedding l = withEmbedding (embedded l) := by
    intro l
    unfold withEmbedding embedded
    rw [List.filterMap_filter]
    congr 1
    refine List.filterMap_congr fun c _ => ?_
    cases c.embedding with
    | none => rfl
    | some e => rfl
  have hembedded : ∀ c ∈ embedded claims, ∀ d ∈ embedded claims, c.id = d.id → c = d :=
    fun c hc d hd => hids c (List.mem_of_mem_filter hc) d (List.mem_of_mem_filter hd)
  rw [g.generateEdges_eq, g.generateEdges_eq, hfilter claims', hfilter claims,
    withEmbedding_perm hembedded hperm]

/-- The scan only adds edges. -/
theorem edges_foldl_visitPair (g : AutoEdgeGenerator) (b : EdgeBatch)
    (pairs : List (EmbeddedClaim × EmbeddedClaim)) : b.edges ⊆ (pairs.foldl g.visitPair b).edges := by
  induction pairs generalizing b with
  | nil => exact fun _ h => h
  | cons p pairs ih =>
    refine fun raw hraw => ih (g.visitPair b p) ?_
    rcases g.edges_visitPair b p with heq | ⟨rel, heq⟩
    · rw [heq]
      exact hraw
    · rw [heq]
      exact List.mem_append_left _ hraw

/-- Two copies of the claim with the smallest id come first. -/
theorem withEmbedding_copies {x : EmbeddedClaim} {xs : List EmbeddedClaim}
    (h : withEmbedding claims = x :: xs) :
    withEmbedding (x.1 :: x.1 :: claims) = x :: x :: x :: xs := by
  have hx : x.1.embedding = some x.2 := (mem_withEmbedding (h ▸ List.mem_cons_self)).2
  have hcons : ∀ l : List Claim, withEmbedding (x.1 :: l) =
      (withEmbedding l).orderedInsert (fun a b => a.1.id ≤ b.1.id) x := by
    intro l
    unfold withEmbedding
    rw [List.filterMap_cons_some (by rw [hx]; rfl)]
    rfl
  have hinsert : ∀ ys, List.orderedInsert (fun a b : EmbeddedClaim => a.1.id ≤ b.1.id) x (x :: ys) =
      x :: x :: ys := fun ys => if_pos le_rfl
  rw [hcons, hcons, h, hinsert, hinsert]

/-- A claim of which there are several copies supports itself. -/
theorem loop_mem_generateEdges {x : EmbeddedClaim} {xs : List EmbeddedClaim}
    (hcap : 0 < g.config.maxKNearest) (h : withEmbedding claims = x :: xs) :
    ∃ raw ∈ g.generateEdges (x.1 :: x.1 :: claims), raw.fromHash = raw.toHash := by
  have hfirst : g.visitPair ⟨[], ∅⟩ (x, x) =
      ⟨[g.edge x x .supports], EdgeBatch.countUp (EdgeBatch.countUp ∅ x.1.id) x.1.id⟩ := by
    have hrel : g.config.relation (x.2.hammingDistance x.2) = some .supports := by
      unfold AutoEdgeConfig.relation
      rw [QuantizedEmbedding.hammingDistance_self, if_pos (Nat.zero_le _)]
    have hroom : ¬ (g.config.maxKNearest ≤ EdgeBatch.count ⟨[], ∅⟩ x.1.id ∨
        g.config.maxKNearest ≤ EdgeBatch.count ⟨[], ∅⟩ x.1.id) := by
      rw [or_self, not_le]
      exact hcap
    unfold AutoEdgeGenerator.visitPair
    dsimp only
    rw [if_neg (not_not.mpr rfl), if_neg hroom, hrel]
    rfl
  refine ⟨g.edge x x .supports, ?_, rfl⟩
  rw [g.generateEdges_eq, withEmbedding_copies h, orderedPairs, List.map_cons, List.cons_append,
    List.foldl_cons, hfirst]
  exact edges_foldl_visitPair g _ _ (List.mem_singleton_self _)

/-- With two copies more of a claim there is an edge that is not there with each claim once. -/
theorem generateEdges_copies_ne (hids : ∀ c ∈ claims, ∀ d ∈ claims, c.id = d.id → c = d)
    {x : EmbeddedClaim} {xs : List EmbeddedClaim} (hcap : 0 < g.config.maxKNearest)
    (h : withEmbedding claims = x :: xs) :
    g.generateEdges (x.1 :: x.1 :: claims) ≠ g.generateEdges claims.dedup := by
  have hdedup : (claims.dedup.map Claim.id).Nodup :=
    (List.nodup_dedup claims).map_on fun c hc d hd hid =>
      hids c (List.mem_dedup.mp hc) d (List.mem_dedup.mp hd) hid
  intro heq
  obtain ⟨raw, hraw, hloop⟩ := loop_mem_generateEdges hcap h
  rw [heq] at hraw
  exact absurd hloop ((g.generated hraw).lt hdedup).ne

theorem SameClaims.copies (hc : c ∈ claims) : SameClaims claims (c :: c :: claims) := by
  intro d
  rw [List.mem_cons, List.mem_cons]
  constructor
  · rintro (rfl | rfl | hd)
    · exact hc
    · exact hc
    · exact hd
  · exact fun hd => Or.inr (Or.inr hd)

/-- Claims that are identified by their ids make the same edges however often those with an embedding are
repeated if and only if they make none at all for want of embeddings or because of the cap. Each of them
equally often, they always make the same edges. -/
theorem generateEdges_repetition (g : AutoEdgeGenerator)
    (hids : ∀ c ∈ claims, ∀ d ∈ claims, c.id = d.id → c = d) :
    (∀ claims', (embedded claims').Perm (embedded claims) →
      g.generateEdges claims' = g.generateEdges claims) ∧
    ((∀ claims', SameClaims claims claims' → g.generateEdges claims' = g.generateEdges claims) ↔
      g.config.maxKNearest = 0 ∨ ∀ c ∈ claims, c.embedding = none) := by
  refine ⟨fun claims' hperm => generateEdges_of_perm hids hperm, ?_, ?_⟩
  · intro h
    by_contra hnot
    rw [not_or] at hnot
    have hdedup : SameClaims claims claims.dedup := fun c => List.mem_dedup
    cases hl : withEmbedding claims with
    | nil =>
      refine hnot.2 fun c hc => ?_
      cases he : c.embedding with
      | none => rfl
      | some e =>
        have hmem := mem_withEmbedding_of_mem hc he
        rw [hl] at hmem
        cases hmem
    | cons x xs =>
      have hx : x.1 ∈ claims := (mem_withEmbedding (hl ▸ List.mem_cons_self)).1
      refine generateEdges_copies_ne hids (Nat.pos_of_ne_zero hnot.1) hl ?_
      rw [h _ (SameClaims.copies hx), h _ hdedup]
  · rintro (hcap | hnone) claims' hsame
    · rw [generateEdges_of_cap_zero hcap, generateEdges_of_cap_zero hcap]
    · have hnone' : ∀ c ∈ claims', c.embedding = none := fun c hc => hnone c ((hsame c).mp hc)
      rw [g.generateEdges_eq, g.generateEdges_eq, withEmbedding_of_notEmbedded hnone,
        withEmbedding_of_notEmbedded hnone']

/-- Two claims in another order. -/
theorem generateEdges_repetition_pair :
    (AutoEdgeGenerator.mk .default).generateEdges [neutralEmbedded 1 0, neutralEmbedded 0 7] =
      (AutoEdgeGenerator.mk .default).generateEdges [neutralEmbedded 0 7, neutralEmbedded 1 0] := by
  refine (generateEdges_repetition (AutoEdgeGenerator.mk .default) (by decide)).1
    [neutralEmbedded 1 0, neutralEmbedded 0 7] ?_
  exact List.Perm.swap ..

/-- A claim that is delivered twice gets an edge to itself. -/
theorem generateEdges_of_copies :
    SameClaims [neutralEmbedded 1 0] [neutralEmbedded 1 0, neutralEmbedded 1 0] ∧
    (AutoEdgeGenerator.mk .default).generateEdges [neutralEmbedded 1 0] = [] ∧
    ((AutoEdgeGenerator.mk .default).generateEdges [neutralEmbedded 1 0, neutralEmbedded 1 0]).map
      RawEpistemicEdge.link = [(uniformId 1, uniformId 1, .supports)] := by
  refine ⟨fun c => ?_, by decide +kernel, by decide +kernel⟩
  simp only [List.mem_cons, or_self_left]

end Aimp.Epistemic
