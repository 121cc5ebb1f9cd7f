import Aimp.Epistemic.Proofs.ReducerProofs

/-!
# Reduction by epochs

The summaries of the buckets do not depend on the order of arrival
(`reduceEpochAlignedCorrelated_perm`). Buckets are told apart by epoch and correlation cell only, so a
group of claims with one content is reduced while no other content shares its bucket
(`everyGroupReduced_iff`).
-/

namespace Aimp.Epistemic

variable {claims claims' : List Claim} {blake3 : Blake3} {gridSize discountBps : ℕ}
  {reputations : Option Reputations} {key : BucketKey} {c d s : Claim}

/-! ## Buckets -/

/-- The keys of the buckets, in the order of the `BTreeMap`. -/
def bucketKeys (gridSize : ℕ) (claims : List Claim) : List BucketKey :=
  (claims.map (bucketKey gridSize)).dedup.insertionSort (· ≤ ·)

theorem mem_bucketKeys : key ∈ bucketKeys gridSize claims ↔ ∃ c ∈ claims, bucketKey gridSize c = key := by
  simp [bucketKeys]

theorem nodup_bucketKeys (gridSize : ℕ) (claims : List Claim) : (bucketKeys gridSize claims).Nodup :=
  (List.perm_insertionSort _ _).nodup_iff.mpr (List.nodup_dedup _)

theorem bucketKeys_perm (h : claims.Perm claims') :
    bucketKeys gridSize claims = bucketKeys gridSize claims' := by
  refine List.Perm.eq_of_pairwise' (List.pairwise_insertionSort _ _) (List.pairwise_insertionSort _ _) ?_
  exact (List.perm_insertionSort _ _).trans
    ((h.map _).dedup.trans (List.perm_insertionSort _ _).symm)

theorem mem_bucketOf : c ∈ bucketOf gridSize claims key ↔ c ∈ claims ∧ bucketKey gridSize c = key := by
  unfold bucketOf
  rw [List.mem_filter, decide_eq_true_eq]

/-- What is made of a bucket. -/
def reduceBucket (blake3 : Blake3) (reputations : Option Reputations) (discountBps : ℕ)
    (bucket : List Claim) : Option Claim :=
  reputations.elim (reduce blake3 bucket) fun rep =>
    reduceWithReputationCorrelated blake3 bucket rep discountBps

theorem canReduce_of_reduceBucket {bucket : List Claim}
    (h : reduceBucket blake3 reputations discountBps bucket = some s) : canReduce bucket = true := by
  unfold reduceBucket at h
  cases reputations with
  | none => exact (reduce_eq_some.mp h).1
  | some rep => exact (reduceWithReputationCorrelated_eq_some.mp h).1

/-- The summaries are those of the buckets; a single claim has none anyway. -/
theorem reduceEpochAlignedCorrelated_eq (hgrid : 0 < gridSize) :
    reduceEpochAlignedCorrelated blake3 claims gridSize reputations discountBps =
      (bucketKeys gridSize claims).filterMap fun key =>
        reduceBucket blake3 reputations discountBps (bucketOf gridSize claims key) := by
  have hbuckets : (buckets gridSize claims).filterMap (reduceBucket blake3 reputations discountBps) =
      (bucketKeys gridSize claims).filterMap fun key =>
        reduceBucket blake3 reputations discountBps (bucketOf gridSize claims key) := by
    unfold buckets
    rw [List.filterMap_map]
    rfl
  unfold reduceEpochAlignedCorrelated
  split
  · rename_i hshort
    have hlen : claims.length < 2 := hshort.resolve_left hgrid.ne'
    symm
    rw [List.filterMap_eq_nil_iff]
    intro key _
    cases hbucket : reduceBucket blake3 reputations discountBps (bucketOf gridSize claims key) with
    | none => rfl
    | some s =>
      have htwo := (canReduce_iff.mp (canReduce_of_reduceBucket hbucket)).1
      have hle : (bucketOf gridSize claims key).length ≤ claims.length := List.length_filter_le _ _
      omega
  · exact hbuckets

/-! ## Order of arrival -/

theorem reduceBucket_perm (hids : (claims.map Claim.id).Nodup) (h : claims.Perm claims') :
    reduceBucket blake3 reputations discountBps claims =
      reduceBucket blake3 reputations discountBps claims' := by
  unfold reduceBucket reduce reduceWithReputationCorrelated
  rw [canReduce_perm h, sortedById_perm hids h, h.length_eq]

/-- The summaries do not depend on the order in which the claims arrived. -/
theorem reduceEpochAlignedCorrelated_perm (hids : (claims.map Claim.id).Nodup)
    (h : claims.Perm claims') (blake3 : Blake3) (gridSize : ℕ) (reputations : Option Reputations)
    (discountBps : ℕ) :
    reduceEpochAlignedCorrelated blake3 claims gridSize reputations discountBps =
      reduceEpochAlignedCorrelated blake3 claims' gridSize reputations discountBps := by
  cases gridSize with
  | zero => rfl
  | succ n =>
    rw [reduceEpochAlignedCorrelated_eq n.succ_pos, reduceEpochAlignedCorrelated_eq n.succ_pos,
      bucketKeys_perm h]
    refine List.filterMap_congr fun key _ => ?_
    refine reduceBucket_perm ?_ (h.filter _)
    exact hids.sublist (List.filter_sublist.map _)

/-- Two claims arrive in either order. -/
theorem reduceEpochAlignedCorrelated_perm_twoInBucket :
    reduceEpochAlignedCorrelated summaryHash twoInBucket 100 (some onlyBucketAuthor)
        defaultDiscountBps =
      reduceEpochAlignedCorrelated summaryHash twoInBucket.reverse 100 (some onlyBucketAuthor)
        defaultDiscountBps :=
  reduceEpochAlignedCorrelated_perm (by decide) (List.reverse_perm _).symm _ _ _ _

/-! ## Groups -/

/-- What the claims of a group share: the epoch, the content and the correlation cell. -/
abbrev EpochGroup := ℕ × SemanticFingerprint × Option U64

/-- The group of a claim. -/
def epochGroup (gridSize : ℕ) (c : Claim) : EpochGroup :=
  (c.tick.val / gridSize, c.fingerprint, c.correlationCell)

theorem bucketKey_eq_iff : bucketKey gridSize c = bucketKey gridSize d ↔
    c.tick.val / gridSize = d.tick.val / gridSize ∧ c.correlationCell = d.correlationCell := by
  unfold bucketKey
  rw [toLex_inj, Prod.mk.injEq]
  refine and_congr_right fun _ => ?_
  cases c.correlationCell with
  | none => cases d.correlationCell <;> simp
  | some cell => cases d.correlationCell <;> simp

theorem epochGroup_eq_iff : epochGroup gridSize c = epochGroup gridSize d ↔
    bucketKey gridSize c = bucketKey gridSize d ∧ c.fingerprint = d.fingerprint := by
  unfold epochGroup
  rw [bucketKey_eq_iff, Prod.mk.injEq, Prod.mk.injEq]
  tauto

/-- There is one summary for each group with two different claims, it is the reduction of the group, and
there is no other summary. -/
structure EveryGroupReduced (blake3 : Blake3) (gridSize : ℕ) (claims summaries : List Claim) : Prop where
  once : (summaries.map (epochGroup gridSize)).Nodup
  mem : ∀ group, group ∈ summaries.map (epochGroup gridSize) ↔
    ∃ c ∈ claims, ∃ d ∈ claims, c ≠ d ∧ epochGroup gridSize c = group ∧ epochGroup gridSize d = group
  reduced : ∀ s ∈ summaries,
    reduce blake3 (claims.filter fun c => epochGroup gridSize c = epochGroup gridSize s) = some s

/-- No other content shares the bucket of a group with two different claims, and a claim that is
repeated is not alone in its bucket. -/
structure Undisturbed (gridSize : ℕ) (claims : List Claim) : Prop where
  content : ∀ c ∈ claims, ∀ d ∈ claims, c ≠ d → epochGroup gridSize c = epochGroup gridSize d →
    ∀ e ∈ claims, bucketKey gridSize e = bucketKey gridSize c → e.fingerprint = c.fingerprint
  company : ∀ c, 2 ≤ claims.count c → ∃ d ∈ claims, d ≠ c ∧ bucketKey gridSize d = bucketKey gridSize c

/-- The summary of a bucket is of the group that fills it. -/
theorem reduce_bucketOf (h : reduce blake3 (bucketOf gridSize claims key) = some s) :
    bucketKey gridSize s = key ∧
      ∀ c ∈ bucketOf gridSize claims key, epochGroup gridSize c = epochGroup gridSize s := by
  obtain ⟨-, first, data, hfirst, -, rfl⟩ := reduce_eq_some.mp h
  have hmem := mem_of_mem_sortedById (List.mem_of_mem_head? hfirst)
  have hne : ((sortedById (bucketOf gridSize claims key)).map Claim.tick) ≠ [] := by
    simpa using List.ne_nil_of_mem (List.mem_of_mem_head? hfirst)
  obtain ⟨c, hc, htick⟩ := List.mem_map.mp (extreme_max_spec hne).1
  have hkey : ∀ e ∈ bucketOf gridSize claims key, bucketKey gridSize e = key := fun e he =>
    (mem_bucketOf.mp he).2
  have hc := mem_of_mem_sortedById hc
  have hcell := (bucketKey_eq_iff.mp ((hkey first hmem).trans (hkey c hc).symm)).2
  have hbucket : bucketKey gridSize (summaryOf blake3 first
      (bucketOf gridSize claims key).length
      (countedSources (bucketOf gridSize claims key)).1.length
      ((sortedById (bucketOf gridSize claims key)).map Claim.tick) data
      (.aggregate (countedSources (bucketOf gridSize claims key)).2)
      (countedSources (bucketOf gridSize claims key)).2) = key := by
    refine (bucketKey_eq_iff.mpr ?_).trans (hkey c hc)
    refine ⟨?_, hcell⟩
    show (extreme max 0 _ : U64).val / gridSize = _
    rw [← htick]
  exact ⟨hbucket, fun e he =>
    epochGroup_eq_iff.mpr ⟨(hkey e he).trans hbucket.symm, fingerprint_reduce h he⟩⟩

theorem two_le_length_of_ne {α : Type} {l : List α} {x y : α} (hx : x ∈ l) (hy : y ∈ l) (h : x ≠ y) :
    2 ≤ l.length := by
  match l, hx, hy with
  | [a], hx, hy =>
    exact absurd ((List.mem_singleton.mp hx).trans (List.mem_singleton.mp hy).symm) h
  | _ :: _ :: l, _, _ => exact Nat.le_add_left 2 l.length

section Observations

variable (hobs : ∀ c ∈ claims, ∃ sensorType data, c.kind = .observation sensorType data)
  (hgrid : 0 < gridSize)

include hgrid in
theorem mem_reduceEpochAligned : s ∈ reduceEpochAligned blake3 claims gridSize none ↔
    ∃ key ∈ bucketKeys gridSize claims, reduce blake3 (bucketOf gridSize claims key) = some s := by
  unfold reduceEpochAligned
  rw [reduceEpochAlignedCorrelated_eq hgrid, List.mem_filterMap]
  rfl

include hobs hgrid in
/-- A bucket of at least two claims of one content is reduced. -/
theorem exists_summary (blake3 : Blake3) (hc : c ∈ claims)
    (hlen : 2 ≤ (bucketOf gridSize claims (bucketKey gridSize c)).length)
    (hcontent : ∀ e ∈ claims, bucketKey gridSize e = bucketKey gridSize c →
      e.fingerprint = c.fingerprint) :
    ∃ s ∈ reduceEpochAligned blake3 claims gridSize none,
      epochGroup gridSize s = epochGroup gridSize c := by
  have hcan : canReduce (bucketOf gridSize claims (bucketKey gridSize c)) = true := by
    refine canReduce_iff.mpr ⟨hlen, fun a ha b hb => ?_⟩
    obtain ⟨ha, hakey⟩ := mem_bucketOf.mp ha
    obtain ⟨hb, hbkey⟩ := mem_bucketOf.mp hb
    exact (hcontent a ha hakey).trans (hcontent b hb hbkey).symm
  have hdata : ∀ e ∈ bucketOf gridSize claims (bucketKey gridSize c), e.kind.data?.isSome = true := by
    intro e he
    obtain ⟨sensorType, data, hkind⟩ := hobs e (mem_bucketOf.mp he).1
    rw [hkind]
    rfl
  obtain ⟨s, hs⟩ := exists_reduce blake3 hdata hcan
  refine ⟨s, (mem_reduceEpochAligned hgrid).mpr ⟨_, mem_bucketKeys.mpr ⟨c, hc, rfl⟩, hs⟩, ?_⟩
  exact ((reduce_bucketOf hs).2 c (mem_bucketOf.mpr ⟨hc, rfl⟩)).symm

include hgrid in
theorem nodup_epochGroups :
    ((reduceEpochAligned blake3 claims gridSize none).map (epochGroup gridSize)).Nodup := by
  unfold reduceEpochAligned
  rw [reduceEpochAlignedCorrelated_eq hgrid]
  refine List.pairwise_map.mpr (List.pairwise_filterMap.mpr ?_)
  refine (nodup_bucketKeys gridSize claims).imp fun {k k'} hne s hs s' hs' heq => hne ?_
  exact (reduce_bucketOf hs).1.symm.trans ((epochGroup_eq_iff.mp heq).1.trans (reduce_bucketOf hs').1)

include hgrid in
/-- A summary is the reduction of its group. -/
theorem reduce_group (hs : s ∈ reduceEpochAligned blake3 claims gridSize none) :
    reduce blake3 (claims.filter fun c => epochGroup gridSize c = epochGroup gridSize s) = some s := by
  obtain ⟨key, -, hreduce⟩ := (mem_reduceEpochAligned hgrid).mp hs
  obtain ⟨hkey, hgroup⟩ := reduce_bucketOf hreduce
  have hfilter : claims.filter (fun c => epochGroup gridSize c = epochGroup gridSize s) =
      bucketOf gridSize claims key := by
    refine List.filter_congr fun c hc => decide_eq_decide.mpr ⟨fun h => ?_, fun h => ?_⟩
    · exact (epochGroup_eq_iff.mp h).1.trans hkey
    · exact hgroup c (mem_bucketOf.mpr ⟨hc, h⟩)
  rw [hfilter, hreduce]

/-- A claim that is alone in its bucket fills it with its repetitions. -/
theorem count_of_alone
    (halone : ∀ e ∈ claims, bucketKey gridSize e = bucketKey gridSize c → e = c) :
    claims.count c = (bucketOf gridSize claims (bucketKey gridSize c)).length := by
  have hcount : (bucketOf gridSize claims (bucketKey gridSize c)).count c =
      (bucketOf gridSize claims (bucketKey gridSize c)).length := by
    refine List.count_eq_length.mpr fun e he => ?_
    obtain ⟨he, hkey⟩ := mem_bucketOf.mp he
    exact (halone e he hkey).symm
  unfold bucketOf at hcount ⊢
  rwa [List.count_filter (by simp)] at hcount

include hgrid in
/-- If the group of a claim has a summary, then no other content is in the bucket. -/
theorem fingerprint_of_reduced (hs : s ∈ reduceEpochAligned blake3 claims gridSize none)
    (hgroup : epochGroup gridSize s = epochGroup gridSize c) (hd : d ∈ claims)
    (hkey : bucketKey gridSize d = bucketKey gridSize c) : d.fingerprint = c.fingerprint := by
  obtain ⟨key, -, hreduce⟩ := (mem_reduceEpochAligned hgrid).mp hs
  obtain ⟨hskey, hall⟩ := reduce_bucketOf hreduce
  obtain ⟨hck, hcf⟩ := epochGroup_eq_iff.mp hgroup
  have hmem : d ∈ bucketOf gridSize claims key :=
    mem_bucketOf.mpr ⟨hd, hkey.trans (hck.symm.trans hskey)⟩
  exact (epochGroup_eq_iff.mp (hall d hmem)).2.trans hcf

include hobs hgrid in
theorem undisturbed_of_everyGroupReduced
    (h : EveryGroupReduced blake3 gridSize claims (reduceEpochAligned blake3 claims gridSize none)) :
    Undisturbed gridSize claims := by
  constructor
  · intro c hc d hd hne hgroup e he hkey
    obtain ⟨s, hs, hsgroup⟩ := List.mem_map.mp
      ((h.mem (epochGroup gridSize c)).mpr ⟨c, hc, d, hd, hne, rfl, hgroup.symm⟩)
    exact fingerprint_of_reduced hgrid hs hsgroup he hkey
  · intro c hcount
    by_contra hnone
    push Not at hnone
    have halone : ∀ e ∈ claims, bucketKey gridSize e = bucketKey gridSize c → e = c := by
      intro e he hkey
      by_contra hne
      exact hnone e he hne hkey
    have hc : c ∈ claims := List.count_pos_iff.mp (by omega)
    -- all claims of the bucket are the same one, and still it has a summary
    obtain ⟨s, hs, hsgroup⟩ := exists_summary hobs hgrid blake3 hc
      (hcount.trans_eq (count_of_alone halone)) fun e he hkey => by rw [halone e he hkey]
    obtain ⟨a, ha, b, hb, hne, hga, hgb⟩ :=
      (h.mem (epochGroup gridSize c)).mp (List.mem_map.mpr ⟨s, hs, hsgroup⟩)
    have hac := halone a ha (epochGroup_eq_iff.mp hga).1
    have hbc := halone b hb (epochGroup_eq_iff.mp hgb).1
    exact hne (hac.trans hbc.symm)

include hgrid in
/-- The bucket of a summary holds two different claims. -/
theorem exists_two_of_reduced (h : Undisturbed gridSize claims)
    (hs : s ∈ reduceEpochAligned blake3 claims gridSize none) :
    ∃ c ∈ claims, ∃ d ∈ claims, c ≠ d ∧ epochGroup gridSize c = epochGroup gridSize s ∧
      epochGroup gridSize d = epochGroup gridSize s := by
  obtain ⟨key, hkey, hreduce⟩ := (mem_reduceEpochAligned hgrid).mp hs
  obtain ⟨-, hall⟩ := reduce_bucketOf hreduce
  have hlen := (canReduce_iff.mp (reduce_eq_some.mp hreduce).1).1
  obtain ⟨c, hc, rfl⟩ := mem_bucketKeys.mp hkey
  obtain ⟨d, hd, hne, hdkey⟩ : ∃ d ∈ claims, d ≠ c ∧ bucketKey gridSize d = bucketKey gridSize c := by
    by_contra hnone
    push Not at hnone
    have hcount : claims.count c = (bucketOf gridSize claims (bucketKey gridSize c)).length := by
      refine count_of_alone fun e he hekey => ?_
      by_contra hne
      exact hnone e he hne hekey
    obtain ⟨d, hd, hne, hdkey⟩ := h.company c (by omega)
    exact hnone d hd hne hdkey
  exact ⟨c, hc, d, hd, hne.symm, hall c (mem_bucketOf.mpr ⟨hc, rfl⟩),
    hall d (mem_bucketOf.mpr ⟨hd, hdkey⟩)⟩

include hobs hgrid in
/-- Exactly the groups with two different claims are reduced if and only if no content disturbs another
one. -/
theorem everyGroupReduced_iff :
    EveryGroupReduced blake3 gridSize claims (reduceEpochAligned blake3 claims gridSize none) ↔
      Undisturbed gridSize claims := by
  refine ⟨undisturbed_of_everyGroupReduced hobs hgrid, fun h => ⟨nodup_epochGroups hgrid,
    fun group => ⟨fun hgroup => ?_, ?_⟩, fun s hs => reduce_group hgrid hs⟩⟩
  · obtain ⟨s, hs, rfl⟩ := List.mem_map.mp hgroup
    exact exists_two_of_reduced hgrid h hs
  · rintro ⟨c, hc, d, hd, hne, rfl, hgroup⟩
    have hlen := two_le_length_of_ne (mem_bucketOf.mpr ⟨hc, rfl⟩)
      (mem_bucketOf.mpr ⟨hd, (epochGroup_eq_iff.mp hgroup).1⟩) hne
    obtain ⟨s, hs, hsgroup⟩ := exists_summary hobs hgrid blake3 hc hlen
      (h.content c hc d hd hne hgroup.symm)
    exact List.mem_map.mpr ⟨s, hs, hsgroup⟩

end Observations

/-! ### A bucket with another content -/

/-- Two claims of one content, and a claim of another content at the given tick. -/
def withOtherContent (tick : U64) : List Claim :=
  [plainClaim (uniformId 1) ⟨1000, isI32_1000⟩, plainClaim (uniformId 2) ⟨1000, isI32_1000⟩,
    { plainClaim (uniformId 3) ⟨1000, isI32_1000⟩ with fingerprint := ⟨zeros 16, 1⟩, tick := tick }]

theorem observations_withOtherContent (tick : U64) :
    ∀ c ∈ withOtherContent tick, ∃ sensorType data, c.kind = .observation sensorType data := by
  intro c hc
  refine ⟨1, [], ?_⟩
  simp only [withOtherContent, List.mem_cons, List.not_mem_nil, or_false] at hc
  rcases hc with rfl | rfl | rfl <;> rfl

/-- In another epoch the other content does not disturb. -/
theorem everyGroupReduced_apart :
    EveryGroupReduced summaryHash 100 (withOtherContent 100)
      (reduceEpochAligned summaryHash (withOtherContent 100) 100 none) := by
  refine (everyGroupReduced_iff (observations_withOtherContent 100) (by decide)).mpr
    ⟨by decide +kernel, fun c hcount => ?_⟩
  have hnodup : (withOtherContent 100).Nodup := by decide +kernel
  have hone := List.nodup_iff_count_le_one.mp hnodup c
  omega

/-- In the same epoch it keeps the two claims from being reduced. -/
theorem otherContent_disturbs :
    (∀ c ∈ withOtherContent 0, ∃ sensorType data, c.kind = .observation sensorType data) ∧
    (∃ c ∈ withOtherContent 0, ∃ d ∈ withOtherContent 0, c ≠ d ∧
      epochGroup 100 c = epochGroup 100 d) ∧
    reduceEpochAligned summaryHash (withOtherContent 0) 100 none = [] ∧
    ¬ EveryGroupReduced summaryHash 100 (withOtherContent 0)
      (reduceEpochAligned summaryHash (withOtherContent 0) 100 none) := by
  have hpair : ∃ c ∈ withOtherContent 0, ∃ d ∈ withOtherContent 0, c ≠ d ∧
      epochGroup 100 c = epochGroup 100 d := by decide +kernel
  have hnone : reduceEpochAligned summaryHash (withOtherContent 0) 100 none = [] := by decide +kernel
  refine ⟨observations_withOtherContent 0, hpair, hnone, fun h => ?_⟩
  obtain ⟨c, hc, d, hd, hne, hgroup⟩ := hpair
  have hmem := (h.mem (epochGroup 100 c)).mpr ⟨c, hc, d, hd, hne, rfl, hgroup.symm⟩
  rw [hnone] at hmem
  cases hmem

end Aimp.Epistemic
