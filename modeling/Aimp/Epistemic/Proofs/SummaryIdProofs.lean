import Aimp.Epistemic.Proofs.ReducerProofs

/-!
# The id of a summary

The reducers carry the data of a claim along and tell sources apart, no more: renaming the sources and
replacing the data does not change what they compute (`reduce_relabel`). The id of a summary depends on
neither, so it does not determine the summary (`id_not_unique`).
-/

namespace Aimp.Epistemic

variable {claims : List Claim} {reputations : Reputations} {blake3 : Blake3}
  {discountBps thresholdBits : ℕ} {c d s : Claim}

/-! ## Relabelling -/

/-- The kind with other data. -/
def ClaimKind.mapData (f : List Byte → List Byte) : ClaimKind → ClaimKind
  | observation sensorType data => observation sensorType (f data)
  | inference modelId inputClaims inferenceType weight output reproducible deterministicHash =>
    inference modelId inputClaims inferenceType weight output reproducible deterministicHash
  | intent action target constraints goal utility => intent action target constraints goal utility
  | summary sourceCount tickStart tickEnd data aggregated sources variance rangeMin rangeMax =>
    summary sourceCount tickStart tickEnd (f data) aggregated sources variance rangeMin rangeMax

/-- The claim with another source and other data. -/
def Claim.relabel (g : ClaimHash → ClaimHash) (f : List Byte → List Byte) (c : Claim) : Claim :=
  { c with evidenceSource := g c.evidenceSource, kind := c.kind.mapData f }

variable {g : ClaimHash → ClaimHash} {f : List Byte → List Byte}

@[simp] theorem relabel_id : (c.relabel g f).id = c.id := rfl
@[simp] theorem relabel_fingerprint : (c.relabel g f).fingerprint = c.fingerprint := rfl
@[simp] theorem relabel_origin : (c.relabel g f).origin = c.origin := rfl
@[simp] theorem relabel_evidenceSource : (c.relabel g f).evidenceSource = g c.evidenceSource := rfl
@[simp] theorem relabel_declaredConfidence :
    (c.relabel g f).declaredConfidence = c.declaredConfidence := rfl

/-! ### Correlation groups -/

theorem inconsistentContents_relabel (claims : List Claim) :
    inconsistentContents (claims.map (Claim.relabel g f)) = inconsistentContents claims := by
  unfold inconsistentContents
  rw [List.foldl_map]
  rfl

theorem orderedPairs_map {α β : Type} (f : α → β) (l : List α) :
    orderedPairs (l.map f) = (orderedPairs l).map (Prod.map f f) := by
  induction l with
  | nil => rfl
  | cons x l ih => simp [orderedPairs, ih]

theorem closePairs_relabel (inconsistent : List (ByteArr 16)) (claims : List Claim) :
    closePairs inconsistent thresholdBits (claims.map (Claim.relabel g f)) =
      closePairs inconsistent thresholdBits claims := by
  unfold closePairs
  rw [List.zipIdx_map, orderedPairs_map, List.filter_map, List.map_map]
  rfl

theorem groupsFrom_relabel (n : ℕ) (inconsistent : List (ByteArr 16)) (minId : HashMap ℕ ClaimHash)
    (parent : ℕ → ℕ) (l : List (Claim × ℕ)) :
    groupsFrom blake3 n inconsistent minId parent (l.map (Prod.map (Claim.relabel g f) id)) =
      groupsFrom blake3 n inconsistent minId parent l := by
  induction l generalizing parent with
  | nil => rfl
  | cons c l ih =>
    rw [List.map_cons, groupsFrom, groupsFrom]
    dsimp only
    rw [ih, ih]
    rfl

/-- Sources and data have no part in the correlation of claims. -/
theorem correlationGroups_relabel (claims : List Claim) :
    correlationGroups blake3 (claims.map (Claim.relabel g f)) thresholdBits =
      correlationGroups blake3 claims thresholdBits := by
  unfold correlationGroups
  dsimp only
  rw [inconsistentContents_relabel, closePairs_relabel, List.length_map, List.zipIdx_map,
    groupsFrom_relabel, List.foldl_map]
  rfl

/-! ### The claims that are kept -/

theorem dedupFrom_relabel (l : List Claim) :
    dedupById.dedupFrom (c.relabel g f) (l.map (Claim.relabel g f)) =
      (dedupById.dedupFrom c l).map (Claim.relabel g f) := by
  induction l generalizing c with
  | nil => rfl
  | cons d l ih =>
    rw [List.map_cons, dedupById.dedupFrom, dedupById.dedupFrom, relabel_id, relabel_id]
    split
    · exact ih
    · rw [List.map_cons, ih]

theorem sortedById_relabel (claims : List Claim) :
    sortedById (claims.map (Claim.relabel g f)) = (sortedById claims).map (Claim.relabel g f) := by
  unfold sortedById
  rw [← List.map_insertionSort (fun a b : Claim => a.id ≤ b.id) (fun a b : Claim => a.id ≤ b.id)
    (Claim.relabel g f) claims fun _ _ _ _ => Iff.rfl]
  generalize claims.insertionSort (fun a b => a.id ≤ b.id) = l
  cases l with
  | nil => rfl
  | cons c l => exact congrArg (Claim.relabel g f c :: ·) (dedupFrom_relabel l)

theorem canReduce_relabel (claims : List Claim) :
    canReduce (claims.map (Claim.relabel g f)) = canReduce claims := by
  rw [Bool.eq_iff_iff, canReduce_iff, canReduce_iff, List.length_map, List.forall_mem_map]
  simp only [List.forall_mem_map, relabel_fingerprint]

theorem tick_relabel (l : List Claim) :
    (l.map (Claim.relabel g f)).map Claim.tick = l.map Claim.tick := by
  rw [List.map_map]
  rfl

/-! ### The sources that count -/

theorem countSource_relabel (hg : Function.Injective g) (s : List ClaimHash × List LogOdds) :
    countSource (s.1.map g, s.2) (c.relabel g f) =
      ((countSource s c).1.map g, (countSource s c).2) := by
  unfold countSource
  rw [relabel_evidenceSource, relabel_declaredConfidence]
  dsimp only
  by_cases hc : c.evidenceSource ∈ s.1
  · rw [if_pos (List.mem_map_of_mem hc), if_pos hc]
  · rw [if_neg (mt (List.mem_map_of_injective hg).mp hc), if_neg hc, List.map_append]
    rfl

theorem foldl_countSource_relabel (hg : Function.Injective g) (l : List Claim)
    (s : List ClaimHash × List LogOdds) :
    (l.map (Claim.relabel g f)).foldl countSource (s.1.map g, s.2) =
      ((l.foldl countSource s).1.map g, (l.foldl countSource s).2) := by
  rw [List.foldl_map]
  exact List.foldl_hom (fun s : List ClaimHash × List LogOdds => (s.1.map g, s.2))
    fun s _ => countSource_relabel hg s

theorem countedSources_relabel (hg : Function.Injective g) (claims : List Claim) :
    countedSources (claims.map (Claim.relabel g f)) =
      ((countedSources claims).1.map g, (countedSources claims).2) := by
  unfold countedSources
  rw [sortedById_relabel]
  exact foldl_countSource_relabel hg (sortedById claims) ([], [])

theorem gather_relabel (hg : Function.Injective g) (s : Gathered) (group : CorrelationGroup) :
    gather reputations (s.1.map g, s.2) (c.relabel g f, group) =
      ((gather reputations s (c, group)).1.map g, (gather reputations s (c, group)).2) := by
  unfold gather
  dsimp only
  rw [relabel_evidenceSource, relabel_declaredConfidence, relabel_origin, relabel_id]
  by_cases hrep : (reputations c.origin).bps = 0
  · rw [if_pos hrep, if_pos hrep]
  · rw [if_neg hrep, if_neg hrep]
    by_cases hc : c.evidenceSource ∈ s.1
    · rw [if_pos (List.mem_map_of_mem hc), if_pos hc]
    · rw [if_neg (mt (List.mem_map_of_injective hg).mp hc), if_neg hc, List.map_append]
      rfl

theorem foldl_gather_relabel (hg : Function.Injective g) (l : List (Claim × CorrelationGroup))
    (s : Gathered) :
    (l.map (Prod.map (Claim.relabel g f) id)).foldl (gather reputations) (s.1.map g, s.2) =
      ((l.foldl (gather reputations) s).1.map g, (l.foldl (gather reputations) s).2) := by
  rw [List.foldl_map]
  exact List.foldl_hom (fun s : Gathered => (s.1.map g, s.2)) fun s c => gather_relabel hg s c.2

theorem gatheredSources_relabel (hg : Function.Injective g) (claims : List Claim) :
    gatheredSources blake3 reputations (claims.map (Claim.relabel g f)) =
      ((gatheredSources blake3 reputations claims).1.map g,
        (gatheredSources blake3 reputations claims).2) := by
  unfold gatheredSources
  rw [sortedById_relabel, correlationGroups_relabel]
  have hzip : ((sortedById claims).map (Claim.relabel g f)).zip (correlationGroups blake3
      (sortedById claims) defaultSupportThreshold) = ((sortedById claims).zip (correlationGroups
      blake3 (sortedById claims) defaultSupportThreshold)).map (Prod.map (Claim.relabel g f) id) :=
    List.zip_map_left ..
  rw [hzip]
  exact foldl_gather_relabel hg _ ([], [])

/-! ### The data of the summary -/

theorem data?_mapData (kind : ClaimKind) : (kind.mapData f).data? = kind.data?.map f := by
  cases kind <;> rfl

/-- The window with other data. -/
def Window.mapData (f : List Byte → List Byte) (w : Window) : Window := (w.1, w.2.1, f w.2.2)

theorem window?_mapData (kind : ClaimKind) :
    (kind.mapData f).window? = kind.window?.map (Window.mapData f) := by
  cases kind <;> rfl

theorem widerWindow_mapData (best w : Window) :
    widerWindow (best.mapData f) (w.mapData f) = (widerWindow best w).mapData f := by
  unfold widerWindow
  rw [apply_ite (Window.mapData f)]
  rfl

theorem extreme_mapData (default : Window) (l : List Window) :
    extreme widerWindow (default.mapData f) (l.map (Window.mapData f)) =
      (extreme widerWindow default l).mapData f := by
  cases l with
  | nil => rfl
  | cons w l =>
    show (l.map (Window.mapData f)).foldl widerWindow (w.mapData f) = _
    rw [List.foldl_map]
    exact List.foldl_hom (Window.mapData f) widerWindow_mapData

theorem reducedData_mapData (l : List Claim) (kind : ClaimKind) :
    reducedData (l.map (Claim.relabel g f)) (kind.mapData f) = (reducedData l kind).map f := by
  have hwindows : (l.map (Claim.relabel g f)).filterMap (fun c => c.kind.window?) =
      (l.filterMap fun c => c.kind.window?).map (Window.mapData f) := by
    rw [List.filterMap_map, List.map_filterMap]
    exact List.filterMap_congr fun c _ => window?_mapData c.kind
  cases kind with
  | summary n tickStart tickEnd data aggregated =>
    show some (extreme widerWindow (Window.mapData f (0, .neutral, data)) _).2.2 = _
    rw [hwindows, extreme_mapData]
    rfl
  | _ => rfl

/-! ### The summary -/

/-- Renaming the sources and replacing the data, one gets the same summary with the new data. -/
theorem reduce_relabel (hg : Function.Injective g) (f : List Byte → List Byte)
    (hs : reduce blake3 claims = some s) :
    reduce blake3 (claims.map (Claim.relabel g f)) = some (s.relabel id f) := by
  obtain ⟨hcan, first, data, hfirst, hdata, rfl⟩ := reduce_eq_some.mp hs
  refine reduce_eq_some.mpr ⟨(canReduce_relabel claims).trans hcan, first.relabel g f, f data, ?_, ?_, ?_⟩
  · rw [sortedById_relabel, List.head?_map, hfirst]
    rfl
  · rw [sortedById_relabel]
    exact (reducedData_mapData _ first.kind).trans (congrArg (Option.map f) hdata)
  · rw [countedSources_relabel hg, sortedById_relabel, tick_relabel, List.length_map, List.length_map]
    rfl

theorem reduceWithReputationCorrelated_relabel (hg : Function.Injective g) (f : List Byte → List Byte)
    (hs : reduceWithReputationCorrelated blake3 claims reputations discountBps = some s) :
    reduceWithReputationCorrelated blake3 (claims.map (Claim.relabel g f)) reputations discountBps =
      some (s.relabel id f) := by
  obtain ⟨hcan, first, data, hfirst, hdata, hsome, rfl⟩ :=
    reduceWithReputationCorrelated_eq_some.mp hs
  refine reduceWithReputationCorrelated_eq_some.mpr
    ⟨(canReduce_relabel claims).trans hcan, first.relabel g f, f data, ?_, ?_, ?_, ?_⟩
  · rw [sortedById_relabel, List.head?_map, hfirst]
    rfl
  · exact (data?_mapData first.kind).trans (congrArg (Option.map f) hdata)
  · rw [gatheredSources_relabel hg]
    exact hsome
  · rw [gatheredSources_relabel hg, sortedById_relabel, tick_relabel, List.length_map, List.length_map]
    rfl

/-! ## Collisions -/

theorem summaryOf_relabel_ne {first : Claim} {n sources : ℕ} {ticks : List U64} {data : List Byte}
    {aggregated : LogOdds} {evidence : List LogOdds} (hf : f data ≠ data) :
    (summaryOf blake3 first n sources ticks data aggregated evidence).relabel id f ≠
      summaryOf blake3 first n sources ticks data aggregated evidence := by
  intro heq
  exact hf (ClaimKind.summary.inj (congrArg Claim.kind heq)).2.2.2.1

/-- Every summary shares its id with a different summary, of other sources. -/
theorem id_not_unique (blake3 : Blake3) (g : Equiv.Perm ClaimHash) (claims : List Claim) (s : Claim) :
    (reduce blake3 claims = some s →
      ∃ claims' s', reduce blake3 claims' = some s' ∧ s'.id = s.id ∧ s' ≠ s ∧
        (countedSources claims').1 = (countedSources claims).1.map g) ∧
    (∀ reputations discountBps,
      reduceWithReputationCorrelated blake3 claims reputations discountBps = some s →
        ∃ claims' s', reduceWithReputationCorrelated blake3 claims' reputations discountBps = some s' ∧
          s'.id = s.id ∧ s' ≠ s ∧ (gatheredSources blake3 reputations claims').1 =
            (gatheredSources blake3 reputations claims).1.map g) := by
  have hne : ∀ data : List Byte, (0 :: ·) data ≠ data := fun data => List.cons_ne_self 0 data
  constructor
  · intro hs
    refine ⟨_, _, reduce_relabel g.injective (0 :: ·) hs, rfl, ?_, ?_⟩
    · obtain ⟨-, first, data, -, -, rfl⟩ := reduce_eq_some.mp hs
      exact summaryOf_relabel_ne (hne data)
    · rw [countedSources_relabel g.injective]
  · intro reputations discountBps hs
    refine ⟨_, _, reduceWithReputationCorrelated_relabel g.injective (0 :: ·) hs, rfl, ?_, ?_⟩
    · obtain ⟨-, first, data, -, -, -, rfl⟩ := reduceWithReputationCorrelated_eq_some.mp hs
      exact summaryOf_relabel_ne (hne data)
    · rw [gatheredSources_relabel g.injective]

/-- Two equally confident claims with the given ids and data. -/
def twoPlainClaims (b b' : Byte) (data : List Byte) : List Claim :=
  [{ plainClaim (uniformId b) ⟨1000, isI32_1000⟩ with kind := .observation 1 data },
    { plainClaim (uniformId b') ⟨1000, isI32_1000⟩ with kind := .observation 1 data }]

/-- Claims with nothing in common, whose summaries have one id. -/
theorem summaries_collide :
    ∃ s t, reduce summaryHash (twoPlainClaims 1 2 []) = some s ∧
      reduce summaryHash (twoPlainClaims 3 4 [7]) = some t ∧ s.id = t.id ∧ s ≠ t ∧
      ∀ source ∈ (countedSources (twoPlainClaims 1 2 [])).1,
        source ∉ (countedSources (twoPlainClaims 3 4 [7])).1 := by
  refine ⟨_, _, rfl, rfl, ?_, ?_, ?_⟩ <;> decide +kernel

end Aimp.Epistemic
