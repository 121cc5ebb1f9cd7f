import Aimp.Epistemic.Proofs.OrderProofs

/-!
# Where edges end

An endpoint whose claim is gone falls back to the last summary of its fingerprint, or else to the first
claim of it. The edges are the same in every order of the claims exactly if no such endpoint has a choice
(`namedEdges_perm_iff`).
-/

namespace Aimp.Epistemic

namespace KnowledgeGraph

variable {claims claims' : List Claim} {c : Claim} {hash : ClaimHash} {fp : SemanticFingerprint}
  {raw : RawEpistemicEdge} {rawEdges : List RawEpistemicEdge} {v : ClaimArenaId}

/-! ## Heirs of a fingerprint -/

/-- The claims of a fingerprint. -/
def ofFingerprint (claims : List Claim) (fp : SemanticFingerprint) : List Claim :=
  claims.filter fun c => c.fingerprint = fp

/-- The summaries of a fingerprint. -/
def summariesOf (claims : List Claim) (fp : SemanticFingerprint) : List Claim :=
  (ofFingerprint claims fp).filter fun c => c.kind.isSummary

/-- The summaries of a fingerprint, or all claims of it if there are none. -/
def heirs (claims : List Claim) (fp : SemanticFingerprint) : List Claim :=
  if summariesOf claims fp = [] then ofFingerprint claims fp else summariesOf claims fp

/-- The one that an endpoint falls back to. -/
def heir (claims : List Claim) (fp : SemanticFingerprint) : Option Claim :=
  (summariesOf claims fp).getLast?.or (ofFingerprint claims fp).head?

theorem ofFingerprint_concat (claims : List Claim) (c : Claim) (fp : SemanticFingerprint) :
    ofFingerprint (claims ++ [c]) fp =
      ofFingerprint claims fp ++ if c.fingerprint = fp then [c] else [] := by
  unfold ofFingerprint
  rw [List.filter_append]
  by_cases h : c.fingerprint = fp
  · simp [h]
  · simp [h]

theorem summariesOf_concat (claims : List Claim) (c : Claim) (fp : SemanticFingerprint) :
    summariesOf (claims ++ [c]) fp =
      summariesOf claims fp ++ if c.fingerprint = fp ∧ c.kind.isSummary then [c] else [] := by
  unfold summariesOf
  rw [ofFingerprint_concat, List.filter_append]
  by_cases h : c.fingerprint = fp
  · by_cases hs : c.kind.isSummary
    · simp [h, hs]
    · simp [h, hs]
  · simp [h]

/-- A summary is preferred to all claims before it, a raw claim to none of them. -/
theorem heir_concat (claims : List Claim) (c : Claim) (fp : SemanticFingerprint) :
    heir (claims ++ [c]) fp =
      if c.fingerprint = fp then
        if c.kind.isSummary then some c else (heir claims fp).or (some c)
      else heir claims fp := by
  unfold heir
  rw [ofFingerprint_concat, summariesOf_concat]
  by_cases h : c.fingerprint = fp
  · by_cases hs : c.kind.isSummary
    · simp [h, hs]
    · rw [if_neg fun hand => hs hand.2, if_pos h, if_pos h, if_neg hs, List.append_nil,
        Option.or_assoc, List.head?_append]
      rfl
  · rw [if_neg fun hand => h hand.1, if_neg h, if_neg h, List.append_nil, List.append_nil]

theorem fingerprintMap_concat (claims : List Claim) (c : Claim) :
    fingerprintMap (claims ++ [c]) =
      if c.kind.isSummary then (fingerprintMap claims).insert c.fingerprint claims.length
      else ((fingerprintMap claims).lookup c.fingerprint).elim
        ((fingerprintMap claims).insert c.fingerprint claims.length) fun _ => fingerprintMap claims := by
  unfold fingerprintMap
  rw [List.zipIdx_append, List.foldl_append, Nat.zero_add]
  rfl

theorem idAt_concat_of_lt (hv : v < claims.length) : idAt (claims ++ [c]) v = idAt claims v := by
  unfold idAt
  rw [List.map_append, List.getElem?_append_left (by rwa [List.length_map])]

theorem idAt_concat_length (claims : List Claim) (c : Claim) :
    idAt (claims ++ [c]) claims.length = c.id := by
  unfold idAt
  simp

/-- A new entry holds the position of the last claim. -/
theorem lookup_insert_length (m : HashMap SemanticFingerprint ClaimArenaId) (claims : List Claim)
    (c : Claim) :
    (∀ v ∈ (m.insert c.fingerprint claims.length).lookup c.fingerprint,
        v < (claims ++ [c]).length) ∧
      ((m.insert c.fingerprint claims.length).lookup c.fingerprint).map (idAt (claims ++ [c])) =
        some c.id := by
  rw [AList.lookup_insert, Option.map_some, idAt_concat_length]
  exact ⟨fun v hv => by simp [← Option.some_inj.mp hv], rfl⟩

/-- The map of the fingerprints holds the heirs. -/
theorem lookup_fingerprintMap (claims : List Claim) (fp : SemanticFingerprint) :
    (∀ v ∈ (fingerprintMap claims).lookup fp, v < claims.length) ∧
    ((fingerprintMap claims).lookup fp).map (idAt claims) = (heir claims fp).map Claim.id := by
  induction claims using List.reverseRecOn with
  | nil => exact ⟨fun v hv => absurd hv (Option.not_mem_none v), rfl⟩
  | append_singleton claims c ih =>
    obtain ⟨hlt, heq⟩ := ih
    have hkeep : (∀ v ∈ (fingerprintMap claims).lookup fp, v < (claims ++ [c]).length) ∧
        ((fingerprintMap claims).lookup fp).map (idAt (claims ++ [c])) =
          (heir claims fp).map Claim.id := by
      refine ⟨fun v hv => (hlt v hv).trans_le (by simp), ?_⟩
      rw [← heq]
      exact Option.map_congr fun v hv => idAt_concat_of_lt (hlt v hv)
    rw [heir_concat, fingerprintMap_concat]
    by_cases hfp : c.fingerprint = fp
    · subst hfp
      have hnew := lookup_insert_length (fingerprintMap claims) claims c
      rw [if_pos rfl]
      by_cases hs : c.kind.isSummary
      · rw [if_pos hs, if_pos hs]
        exact hnew
      · rw [if_neg hs, if_neg hs]
        cases hlook : (fingerprintMap claims).lookup c.fingerprint with
        | none =>
          rw [hlook, Option.map_none] at heq
          rw [Option.map_eq_none_iff.mp heq.symm]
          exact hnew
        | some v =>
          rw [hlook, Option.map_some] at heq
          obtain ⟨d, hd, -⟩ := Option.map_eq_some_iff.mp heq.symm
          rw [Option.elim_some, hd, Option.some_or, ← hd]
          exact hkeep
    · have hother : ∀ m : HashMap SemanticFingerprint ClaimArenaId,
          (m.insert c.fingerprint claims.length).lookup fp = m.lookup fp := fun m =>
        AList.lookup_insert_ne (Ne.symm hfp)
      rw [if_neg hfp]
      by_cases hs : c.kind.isSummary
      · rw [if_pos hs, hother]
        exact hkeep
      · rw [if_neg hs]
        cases (fingerprintMap claims).lookup c.fingerprint with
        | none =>
          rw [Option.elim_none, hother]
          exact hkeep
        | some v => exact hkeep

theorem mem_ofFingerprint : c ∈ ofFingerprint claims fp ↔ c ∈ claims ∧ c.fingerprint = fp := by
  unfold ofFingerprint
  rw [List.mem_filter, decide_eq_true_iff]

theorem heir_mem (h : heir claims fp = some c) : c ∈ heirs claims fp := by
  unfold heir at h
  unfold heirs
  by_cases hs : summariesOf claims fp = []
  · rw [hs, List.getLast?_nil, Option.none_or] at h
    rw [if_pos hs]
    exact List.mem_of_head? h
  · rw [List.getLast?_eq_some_getLast hs, Option.some_or, Option.some_inj] at h
    rw [if_neg hs, ← h]
    exact List.getLast_mem hs

theorem heirs_ne_nil_iff : heirs claims fp ≠ [] ↔ ∃ c ∈ claims, c.fingerprint = fp := by
  have hof : ofFingerprint claims fp ≠ [] ↔ ∃ c ∈ claims, c.fingerprint = fp := by
    constructor
    · intro hne
      obtain ⟨c, hc⟩ := List.exists_mem_of_ne_nil _ hne
      exact ⟨c, mem_ofFingerprint.mp hc⟩
    · rintro ⟨c, hc⟩
      exact List.ne_nil_of_mem (mem_ofFingerprint.mpr hc)
  unfold heirs
  by_cases hs : summariesOf claims fp = []
  · rw [if_pos hs, hof]
  · rw [if_neg hs, ← hof]
    refine iff_of_true hs fun hnil => hs ?_
    rw [summariesOf, hnil, List.filter_nil]

theorem heir_isSome_iff : (heir claims fp).isSome ↔ heirs claims fp ≠ [] := by
  unfold heir heirs
  by_cases hs : summariesOf claims fp = []
  · rw [hs, List.getLast?_nil, Option.none_or, if_pos rfl, List.isSome_head?,
      ← List.isEmpty_eq_false_iff]
  · rw [if_neg hs, List.getLast?_eq_some_getLast hs, Option.some_or]
    exact iff_of_true rfl hs

theorem heirs_perm (h : claims'.Perm claims) (fp : SemanticFingerprint) :
    (heirs claims' fp).Perm (heirs claims fp) := by
  have hof : (ofFingerprint claims' fp).Perm (ofFingerprint claims fp) := h.filter _
  have hs : (summariesOf claims' fp).Perm (summariesOf claims fp) := hof.filter _
  have hnil : summariesOf claims' fp = [] ↔ summariesOf claims fp = [] := by
    rw [← List.length_eq_zero_iff, hs.length_eq, List.length_eq_zero_iff]
  unfold heirs
  by_cases hempty : summariesOf claims fp = []
  · rw [if_pos hempty, if_pos (hnil.mpr hempty)]
    exact hof
  · rw [if_neg hempty, if_neg fun h => hempty (hnil.mp h)]
    exact hs

/-- The claims in reverse order, with the heir at the other end of the list. -/
theorem heirs_le_one_of_reverse (hnd : claims.Nodup)
    (h : heir claims.reverse fp = heir claims fp) : (heirs claims fp).length ≤ 1 := by
  have hends : ∀ {l : List Claim}, l.Nodup → l.head? = l.getLast? → l.length ≤ 1 := by
    intro l hl heq
    cases l with
    | nil => exact Nat.zero_le 1
    | cons x xs =>
      rw [List.head?_cons, List.getLast?_cons, Option.some_inj] at heq
      cases xs using List.reverseRecOn with
      | nil => exact le_rfl
      | append_singleton ys y =>
        have hxy : x = y := by simpa using heq
        have hx : x ∉ ys ++ [y] := (List.nodup_cons.mp hl).1
        exact absurd (by simp [hxy]) hx
  have hof : ofFingerprint claims.reverse fp = (ofFingerprint claims fp).reverse :=
    List.filter_reverse
  have hs : summariesOf claims.reverse fp = (summariesOf claims fp).reverse := by
    unfold summariesOf
    rw [hof, List.filter_reverse]
  have hndof : (ofFingerprint claims fp).Nodup := hnd.filter _
  unfold heir at h
  rw [hof, hs, List.getLast?_reverse, List.head?_reverse] at h
  unfold heirs
  by_cases hempty : summariesOf claims fp = []
  · rw [hempty, List.head?_nil, List.getLast?_nil, Option.none_or, Option.none_or] at h
    rw [if_pos hempty]
    exact hends hndof h.symm
  · rw [if_neg hempty]
    refine hends (hndof.filter _) ?_
    rwa [List.head?_eq_some_head hempty, List.getLast?_eq_some_getLast hempty, Option.some_or,
      Option.some_or, ← List.head?_eq_some_head hempty, ← List.getLast?_eq_some_getLast hempty] at h

/-! ## Endpoints -/

/-- The id of the claim that an endpoint resolves to. -/
def resolvedId (claims : List Claim) (hash : ClaimHash) (fp : SemanticFingerprint) :
    Option ClaimHash :=
  (resolve claims hash fp).map (idAt claims)

/-- An endpoint resolves to a claim: there is one of its hash, or one of its fingerprint. -/
def Resolves (claims : List Claim) (hash : ClaimHash) (fp : SemanticFingerprint) : Prop :=
  hash ∈ claims.map Claim.id ∨ ∃ c ∈ claims, c.fingerprint = fp

/-- It has no choice between claims: there is a claim of its hash, or exactly one heir. -/
def Settled (claims : List Claim) (hash : ClaimHash) (fp : SemanticFingerprint) : Prop :=
  hash ∈ claims.map Claim.id ∨ (heirs claims fp).length = 1

theorem lookup_idMap_of_notMem (h : hash ∉ claims.map Claim.id) :
    (idMap claims).lookup hash = none := by
  induction claims using List.reverseRecOn with
  | nil => rfl
  | append_singleton claims c ih =>
    rw [List.map_append, List.mem_append, not_or, List.map_singleton, List.mem_singleton] at h
    have hinsert : idMap (claims ++ [c]) = (idMap claims).insert c.id claims.length := by
      simp [idMap, List.zipIdx_append, List.foldl_append]
    rw [hinsert, AList.lookup_insert_ne h.2, ih h.1]

theorem resolvedId_of_mem (hids : (claims.map Claim.id).Nodup) (h : hash ∈ claims.map Claim.id) :
    resolvedId claims hash fp = some hash := by
  unfold resolvedId
  rw [resolve_position hids h, Option.map_some, idAt_position h]

theorem resolvedId_of_notMem (h : hash ∉ claims.map Claim.id) :
    resolvedId claims hash fp = (heir claims fp).map Claim.id := by
  unfold resolvedId resolve
  rw [lookup_idMap_of_notMem h, Option.none_or, (lookup_fingerprintMap claims fp).2]

theorem resolvedId_isSome_iff (hids : (claims.map Claim.id).Nodup) :
    (resolvedId claims hash fp).isSome ↔ Resolves claims hash fp := by
  unfold Resolves
  by_cases h : hash ∈ claims.map Claim.id
  · rw [resolvedId_of_mem hids h]
    exact iff_of_true rfl (Or.inl h)
  · rw [resolvedId_of_notMem h, Option.isSome_map, heir_isSome_iff, heirs_ne_nil_iff,
      or_iff_right h]

theorem mem_ids_perm (h : claims'.Perm claims) :
    hash ∈ claims'.map Claim.id ↔ hash ∈ claims.map Claim.id :=
  (h.map Claim.id).mem_iff

theorem resolves_perm (h : claims'.Perm claims) :
    Resolves claims' hash fp ↔ Resolves claims hash fp := by
  unfold Resolves
  rw [mem_ids_perm h]
  exact or_congr_right (exists_congr fun c => and_congr_left fun _ => h.mem_iff)

/-- An endpoint without a choice resolves to the same claim in every order. -/
theorem Settled.resolvedId_perm (hids : (claims.map Claim.id).Nodup) (h : Settled claims hash fp)
    (hperm : claims'.Perm claims) : resolvedId claims' hash fp = resolvedId claims hash fp := by
  have hids' : (claims'.map Claim.id).Nodup := (hperm.map Claim.id).nodup_iff.mpr hids
  by_cases hmem : hash ∈ claims.map Claim.id
  · rw [resolvedId_of_mem hids hmem, resolvedId_of_mem hids' ((mem_ids_perm hperm).mpr hmem)]
  · obtain ⟨c, hc⟩ := List.length_eq_one_iff.mp (h.resolve_left hmem)
    have honly : ∀ l : List Claim, l.Perm claims → heir l fp = some c := by
      intro l hl
      have hl' : heirs l fp = [c] := List.perm_singleton.mp (hc ▸ heirs_perm hl fp)
      have hsome : (heir l fp).isSome := by
        rw [heir_isSome_iff, hl']
        exact List.cons_ne_nil c []
      obtain ⟨d, hd⟩ := Option.isSome_iff_exists.mp hsome
      have hmemd := heir_mem hd
      rw [hl', List.mem_singleton] at hmemd
      rw [hd, hmemd]
    rw [resolvedId_of_notMem hmem, resolvedId_of_notMem fun h => hmem ((mem_ids_perm hperm).mp h),
      honly claims' hperm, honly claims (List.Perm.refl claims)]

/-- An endpoint with a choice resolves to another claim in the reverse order. -/
theorem settled_of_reverse (hids : (claims.map Claim.id).Nodup) (hres : Resolves claims hash fp)
    (h : resolvedId claims.reverse hash fp = resolvedId claims hash fp) :
    Settled claims hash fp := by
  by_cases hmem : hash ∈ claims.map Claim.id
  · exact Or.inl hmem
  · have hmem' : hash ∉ claims.reverse.map Claim.id := fun h =>
      hmem ((mem_ids_perm (List.reverse_perm claims)).mp h)
    rw [resolvedId_of_notMem hmem, resolvedId_of_notMem hmem'] at h
    have hclaim : ∀ {l : List Claim} {c : Claim}, l.Perm claims → heir l fp = some c →
        c ∈ claims := by
      intro l c hl hc
      have hc' := (heirs_perm hl fp).subset (heir_mem hc)
      unfold heirs at hc'
      split at hc'
      · exact (mem_ofFingerprint.mp hc').1
      · exact (mem_ofFingerprint.mp (List.mem_of_mem_filter hc')).1
    -- the ids are distinct, so that the heirs are the same if their ids are
    have hheir : heir claims.reverse fp = heir claims fp := by
      cases hr : heir claims.reverse fp with
      | none =>
        rw [hr, Option.map_none] at h
        exact (Option.map_eq_none_iff.mp h.symm).symm
      | some c =>
        rw [hr, Option.map_some] at h
        obtain ⟨d, hd, hid⟩ := Option.map_eq_some_iff.mp h.symm
        have hcd := List.inj_on_of_nodup_map hids (hclaim (List.Perm.refl claims) hd)
          (hclaim (List.reverse_perm claims) hr) hid
        rw [hd, hcd]
    have hle := heirs_le_one_of_reverse (List.Nodup.of_map Claim.id hids) hheir
    have hpos := List.length_pos_iff.mpr (heirs_ne_nil_iff.mpr (hres.resolve_left hmem))
    exact Or.inr (by omega)

/-! ## Edges -/

/-- An edge with its endpoints named by the ids of the claims. -/
def namedEdge (claims : List Claim) (e : EpistemicEdge) :
    ClaimHash × ClaimHash × Relation × Reputation :=
  (idAt claims e.fromId, idAt claims e.toId, e.relation, e.strength)

/-- The edges of the graph over the claims. -/
def namedEdges (claims : List Claim) (rawEdges : List RawEpistemicEdge) :
    List (ClaimHash × ClaimHash × Relation × Reputation) :=
  (buildFromClaims claims rawEdges).edges.map (namedEdge claims)

/-- What becomes of a raw edge. -/
def nameRaw (claims : List Claim) (raw : RawEpistemicEdge) :
    Option (ClaimHash × ClaimHash × Relation × Reputation) :=
  (resolvedId claims raw.fromHash raw.fromFingerprint).bind fun fromId =>
    (resolvedId claims raw.toHash raw.toFingerprint).map fun toId =>
      (fromId, toId, raw.relation, raw.strength)

theorem namedEdges_eq (claims : List Claim) (rawEdges : List RawEpistemicEdge) :
    namedEdges claims rawEdges = rawEdges.filterMap (nameRaw claims) := by
  induction rawEdges using List.reverseRecOn with
  | nil => rfl
  | append_singleton rawEdges raw ih =>
    have hstep : buildFromClaims claims (rawEdges ++ [raw]) =
        (resolve claims raw.fromHash raw.fromFingerprint).elim (buildFromClaims claims rawEdges)
          fun fromId => (resolve claims raw.toHash raw.toFingerprint).elim
            (buildFromClaims claims rawEdges) fun toId =>
              (buildFromClaims claims rawEdges).addEdge ⟨fromId, toId, raw.relation, raw.strength⟩ := by
      unfold buildFromClaims
      rw [List.foldl_append]
      rfl
    have hnamed : nameRaw claims raw =
        (resolve claims raw.fromHash raw.fromFingerprint).bind fun fromId =>
          (resolve claims raw.toHash raw.toFingerprint).map fun toId =>
            (idAt claims fromId, idAt claims toId, raw.relation, raw.strength) := by
      unfold nameRaw resolvedId
      rw [Option.bind_map]
      congr 1
      funext fromId
      rw [Function.comp_apply, Option.map_map]
      rfl
    rw [List.filterMap_append, ← ih, namedEdges, hstep, List.filterMap_cons, hnamed]
    cases resolve claims raw.fromHash raw.fromFingerprint with
    | none => exact (List.append_nil _).symm
    | some fromId =>
      cases resolve claims raw.toHash raw.toFingerprint with
      | none => exact (List.append_nil _).symm
      | some toId => exact List.map_append

theorem nameRaw_isSome_iff (hids : (claims.map Claim.id).Nodup) :
    (nameRaw claims raw).isSome ↔ Resolves claims raw.fromHash raw.fromFingerprint ∧
      Resolves claims raw.toHash raw.toFingerprint := by
  unfold nameRaw
  rw [← resolvedId_isSome_iff hids, ← resolvedId_isSome_iff hids]
  cases resolvedId claims raw.fromHash raw.fromFingerprint <;>
    cases resolvedId claims raw.toHash raw.toFingerprint <;> simp

theorem filterMap_eq_iff {α β : Type} {f g : α → Option β} {l : List α}
    (h : ∀ x ∈ l, (f x).isSome = (g x).isSome) :
    l.filterMap f = l.filterMap g ↔ ∀ x ∈ l, f x = g x := by
  induction l with
  | nil => simp
  | cons x l ih =>
    obtain ⟨hx, hl⟩ := List.forall_mem_cons.mp h
    rw [List.forall_mem_cons, ← ih hl, List.filterMap_cons, List.filterMap_cons]
    cases hf : f x <;> cases hg : g x <;> simp_all

/-- The graph has the same edges in every order of the claims if and only if both endpoints of every edge
that is kept have no choice. -/
theorem namedEdges_perm_iff (hids : (claims.map Claim.id).Nodup) (rawEdges : List RawEpistemicEdge) :
    (∀ claims', claims'.Perm claims → namedEdges claims' rawEdges = namedEdges claims rawEdges) ↔
      ∀ raw ∈ rawEdges, Resolves claims raw.fromHash raw.fromFingerprint →
        Resolves claims raw.toHash raw.toFingerprint →
          Settled claims raw.fromHash raw.fromFingerprint ∧
            Settled claims raw.toHash raw.toFingerprint := by
  have hsome : ∀ {claims'}, claims'.Perm claims → ∀ raw ∈ rawEdges,
      (nameRaw claims' raw).isSome = (nameRaw claims raw).isSome := by
    intro claims' hperm raw _
    rw [Bool.eq_iff_iff, nameRaw_isSome_iff hids,
      nameRaw_isSome_iff ((hperm.map Claim.id).nodup_iff.mpr hids), resolves_perm hperm,
      resolves_perm hperm]
  constructor
  · intro h raw hraw hfrom hto
    have hreverse := h _ (List.reverse_perm claims)
    rw [namedEdges_eq, namedEdges_eq, filterMap_eq_iff (hsome (List.reverse_perm claims))] at hreverse
    obtain ⟨fromId, hfromId⟩ := Option.isSome_iff_exists.mp ((resolvedId_isSome_iff hids).mpr hfrom)
    obtain ⟨toId, htoId⟩ := Option.isSome_iff_exists.mp ((resolvedId_isSome_iff hids).mpr hto)
    have hname := hreverse raw hraw
    rw [nameRaw, nameRaw, hfromId, htoId, Option.bind_some, Option.map_some,
      Option.bind_eq_some_iff] at hname
    obtain ⟨fromId', hfromId', hrest⟩ := hname
    obtain ⟨toId', htoId', hpair⟩ := Option.map_eq_some_iff.mp hrest
    obtain ⟨rfl, htail⟩ := Prod.mk.inj hpair
    obtain ⟨rfl, -⟩ := Prod.mk.inj htail
    exact ⟨settled_of_reverse hids hfrom (hfromId'.trans hfromId.symm),
      settled_of_reverse hids hto (htoId'.trans htoId.symm)⟩
  · intro h claims' hperm
    rw [namedEdges_eq, namedEdges_eq, filterMap_eq_iff (hsome hperm)]
    intro raw hraw
    cases hname : nameRaw claims raw with
    | none =>
      have hnone := hsome hperm raw hraw
      rwa [hname, Option.isSome_none, Option.isSome_eq_false_iff, Option.isNone_iff_eq_none] at hnone
    | some edge =>
      obtain ⟨hfrom, hto⟩ := (nameRaw_isSome_iff hids).mp (Option.isSome_iff_exists.mpr ⟨edge, hname⟩)
      obtain ⟨hsfrom, hsto⟩ := h raw hraw hfrom hto
      rw [← hname, nameRaw, nameRaw, hsfrom.resolvedId_perm hids hperm,
        hsto.resolvedId_perm hids hperm]

/-- A summary of two claims. -/
def summaryOfTwo (b : Byte) : Claim :=
  { plainClaim (uniformId b) ⟨4000, by decide⟩ with
    kind := .summary 2 0 10 [] ⟨4000, by decide⟩ 2 0 ⟨2000, isI32_2000⟩ ⟨2000, isI32_2000⟩ }

/-- The source of the edge is among the claims, its target is compacted. -/
def toCompacted : RawEpistemicEdge :=
  ⟨uniformId 1, ⟨zeros 16, 0⟩, uniformId 9, ⟨zeros 16, 0⟩, .supports, .full⟩

/-- The edge ends at the only summary. -/
theorem namedEdges_perm_iff_one_summary :
    namedEdges [summaryOfTwo 2, plainClaim (uniformId 1) ⟨0, by decide⟩] [toCompacted] =
      namedEdges [plainClaim (uniformId 1) ⟨0, by decide⟩, summaryOfTwo 2] [toCompacted] := by
  refine (namedEdges_perm_iff (by decide) [toCompacted]).mpr (fun raw hraw _ _ => ?_) _
    (List.Perm.swap ..)
  obtain rfl := List.mem_singleton.mp hraw
  exact ⟨Or.inl (by decide), Or.inr (by decide +kernel)⟩

/-- Of two summaries it ends at the one that comes last. -/
theorem namedEdges_depend_on_order :
    ([plainClaim (uniformId 1) ⟨0, by decide⟩, summaryOfTwo 2, summaryOfTwo 3].map Claim.id).Nodup ∧
    [plainClaim (uniformId 1) ⟨0, by decide⟩, summaryOfTwo 3, summaryOfTwo 2].Perm
      [plainClaim (uniformId 1) ⟨0, by decide⟩, summaryOfTwo 2, summaryOfTwo 3] ∧
    namedEdges [plainClaim (uniformId 1) ⟨0, by decide⟩, summaryOfTwo 2, summaryOfTwo 3]
      [toCompacted] = [(uniformId 1, uniformId 3, .supports, .full)] ∧
    namedEdges [plainClaim (uniformId 1) ⟨0, by decide⟩, summaryOfTwo 3, summaryOfTwo 2]
      [toCompacted] = [(uniformId 1, uniformId 2, .supports, .full)] :=
  ⟨by decide +kernel, (List.Perm.swap ..).cons _, by decide +kernel, by decide +kernel⟩

end KnowledgeGraph

end Aimp.Epistemic
