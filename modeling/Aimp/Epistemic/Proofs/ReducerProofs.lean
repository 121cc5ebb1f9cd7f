import Aimp.Epistemic.Proofs.SummaryProofs
import Mathlib.Data.Nat.ModEq

/-!
# What the reducers return

Both reducers look at the length of the list, at whether it can be reduced and at the claims that
`sortedById` keeps, and at nothing else (`reduce_eq_some`, `reduceWithReputationCorrelated_eq_some`).
-/

namespace Aimp.Epistemic

variable {claims claims' : List Claim} {reputations : Reputations} {blake3 : Blake3}
  {discountBps : ℕ} {c d s : Claim}

/-! ## The claims that are kept -/

theorem nodup_sortedById (claims : List Claim) : (sortedById claims).Nodup :=
  List.Nodup.of_map _ (nodup_ids_sortedById claims)

theorem sortedById_ext (h : ∀ c, c ∈ sortedById claims ↔ c ∈ sortedById claims') :
    sortedById claims = sortedById claims' :=
  List.Perm.eq_of_pairwise (fun _ _ _ _ hab hba => absurd hba hab.asymm) (pairwise_sortedById _)
    (pairwise_sortedById _)
    ((List.perm_ext_iff_of_nodup (nodup_sortedById _) (nodup_sortedById _)).mpr h)

/-- What is kept are the first claims of each id. -/
theorem sortedById_congr
    (h : ∀ x, claims.find? (fun a => a.id = x) = claims'.find? fun a => a.id = x) :
    sortedById claims = sortedById claims' :=
  sortedById_ext fun c => by rw [mem_sortedById, mem_sortedById, h]

theorem find?_of_nodup (hids : (claims.map Claim.id).Nodup) (hc : c ∈ claims) :
    claims.find? (fun a => a.id = c.id) = some c := by
  induction claims with
  | nil => cases hc
  | cons d claims ih =>
    obtain ⟨hd, hids⟩ := List.nodup_cons.mp hids
    rcases List.mem_cons.mp hc with rfl | hc
    · rw [List.find?_cons_of_pos (by simp)]
    · rw [List.find?_cons_of_neg, ih hids hc]
      simp only [decide_eq_true_eq]
      exact fun heq => hd (heq ▸ List.mem_map_of_mem hc)

/-- Without repeated ids every claim is kept. -/
theorem mem_sortedById_of_nodup (hids : (claims.map Claim.id).Nodup) :
    c ∈ sortedById claims ↔ c ∈ claims :=
  ⟨mem_of_mem_sortedById, fun hc => mem_sortedById.mpr (find?_of_nodup hids hc)⟩

theorem sortedById_perm (hids : (claims.map Claim.id).Nodup) (h : claims.Perm claims') :
    sortedById claims = sortedById claims' := by
  have hids' : (claims'.map Claim.id).Nodup := (h.map Claim.id).nodup_iff.mp hids
  refine sortedById_ext fun c => ?_
  rw [mem_sortedById_of_nodup hids, mem_sortedById_of_nodup hids', h.mem_iff]

theorem sortedById_ne_nil (h : claims ≠ []) : sortedById claims ≠ [] := by
  obtain ⟨c, hc⟩ := List.exists_mem_of_ne_nil claims h
  obtain ⟨d, hd⟩ : ∃ d, claims.find? (fun a => a.id = c.id) = some d :=
    Option.isSome_iff_exists.mp (List.find?_isSome.mpr ⟨c, hc, by simp⟩)
  refine List.ne_nil_of_mem (mem_sortedById (c := d).mpr ?_)
  have hid : d.id = c.id := by simpa using List.find?_some hd
  rwa [hid]

theorem canReduce_congr (hlen : 2 ≤ claims.length ↔ 2 ≤ claims'.length)
    (hmem : ∀ c, c ∈ claims ↔ c ∈ claims') : canReduce claims = canReduce claims' := by
  rw [Bool.eq_iff_iff, canReduce_iff, canReduce_iff, hlen]
  simp only [hmem]

theorem canReduce_perm (h : claims.Perm claims') : canReduce claims = canReduce claims' :=
  canReduce_congr (by rw [h.length_eq]) fun _ => h.mem_iff

/-! ## The summary -/

/-- The sources that `reduce` counts, and their evidence. -/
def countedSources (claims : List Claim) : List ClaimHash × List LogOdds :=
  (sortedById claims).foldl countSource ([], [])

/-- The sources that `reduce_with_reputation_correlated` counts, and their evidence. -/
def gatheredSources (blake3 : Blake3) (reputations : Reputations) (claims : List Claim) : Gathered :=
  ((sortedById claims).zip (correlationGroups blake3 (sortedById claims)
    defaultSupportThreshold)).foldl (gather reputations) ([], [])

theorem reduce_eq_some : reduce blake3 claims = some s ↔ canReduce claims = true ∧
    ∃ first data, (sortedById claims).head? = some first ∧
      reducedData (sortedById claims) first.kind = some data ∧
      summaryOf blake3 first claims.length (countedSources claims).1.length
        ((sortedById claims).map Claim.tick) data (.aggregate (countedSources claims).2)
        (countedSources claims).2 = s := by
  unfold reduce countedSources
  dsimp only
  split
  · rename_i hcan
    simp only [Option.bind_eq_some_iff, Option.map_eq_some_iff, hcan, true_and, exists_and_left]
  · rename_i hcan
    exact iff_of_false (fun h => by cases h) fun h => hcan h.1

theorem reduceWithReputationCorrelated_eq_some :
    reduceWithReputationCorrelated blake3 claims reputations discountBps = some s ↔
      canReduce claims = true ∧ ∃ first data, (sortedById claims).head? = some first ∧
        first.kind.data? = some data ∧
        (gatheredSources blake3 reputations claims).2.isEmpty = false ∧
        summaryOf blake3 first claims.length (gatheredSources blake3 reputations claims).1.length
          ((sortedById claims).map Claim.tick) data
          (aggregateHierarchical (gatheredSources blake3 reputations claims).2 discountBps
            unassessedDiscountBps)
          ((gatheredSources blake3 reputations claims).2.map Evidence.lo) = s := by
  unfold reduceWithReputationCorrelated gatheredSources
  dsimp only
  split
  · rename_i hcan
    simp only [Option.bind_eq_some_iff, hcan, true_and, exists_and_left]
    refine exists_congr fun first => and_congr_right fun _ => exists_congr fun data =>
      and_congr_right fun _ => ?_
    split
    · rename_i hempty
      exact iff_of_false (fun h => by cases h) fun h => by
        rw [hempty] at h
        cases h.1
    · rename_i hempty
      rw [Bool.not_eq_true] at hempty
      simp only [hempty, true_and, Option.some.injEq]
      rfl
  · rename_i hcan
    exact iff_of_false (fun h => by cases h) fun h => hcan h.1

theorem exists_reduce (blake3 : Blake3) (hdata : ∀ c ∈ claims, c.kind.data?.isSome = true)
    (hcan : canReduce claims = true) : ∃ s, reduce blake3 claims = some s := by
  have hne : claims ≠ [] := by
    rintro rfl
    cases hcan
  cases hsorted : sortedById claims with
  | nil => exact absurd hsorted (sortedById_ne_nil hne)
  | cons first rest =>
    have hfirst : (sortedById claims).head? = some first := by rw [hsorted]; rfl
    have hmem := hdata first (mem_of_mem_sortedById (List.mem_of_mem_head? hfirst))
    obtain ⟨data, hreduced⟩ : ∃ data, reducedData (sortedById claims) first.kind = some data := by
      cases hkind : first.kind with
      | observation sensorType data => exact ⟨data, rfl⟩
      | inference =>
        rw [hkind] at hmem
        cases hmem
      | intent =>
        rw [hkind] at hmem
        cases hmem
      | summary => exact ⟨_, rfl⟩
    exact ⟨_, reduce_eq_some.mpr ⟨hcan, first, data, hfirst, hreduced, rfl⟩⟩

/-- A summary has the content of the claims. -/
theorem fingerprint_reduce (hs : reduce blake3 claims = some s) (hc : c ∈ claims) :
    c.fingerprint = s.fingerprint := by
  obtain ⟨hcan, first, data, hfirst, -, rfl⟩ := reduce_eq_some.mp hs
  exact (canReduce_iff.mp hcan).2 c hc first
    (mem_of_mem_sortedById (List.mem_of_mem_head? hfirst))

theorem isSome_data?_reduce (hs : reduce blake3 claims = some s) : s.kind.data?.isSome = true := by
  obtain ⟨-, first, data, -, -, rfl⟩ := reduce_eq_some.mp hs
  rfl

/-- The aggregated log-odds of a summary. -/
def Claim.aggregatedLogodds? (c : Claim) : Option LogOdds := c.reported.map Reported.aggregatedLogodds

/-! ### The number of claims -/

/-- The summary with another source count. -/
def Claim.withSourceCount (c : Claim) (n : ℕ) : Claim :=
  match c.kind with
  | .summary _ tickStart tickEnd data aggregated sources variance rangeMin rangeMax =>
    { c with kind := .summary n tickStart tickEnd data aggregated sources variance rangeMin rangeMax }
  | _ => c

/-- Lists of which the same claims are kept have summaries that differ in the source count at most. -/
theorem reduce_of_kept (hcan : canReduce claims' = canReduce claims)
    (hkept : sortedById claims' = sortedById claims) (hs : reduce blake3 claims = some s) :
    reduce blake3 claims' = some (s.withSourceCount (claims'.length % 2 ^ 32)) := by
  obtain ⟨hred, first, data, hfirst, hdata, rfl⟩ := reduce_eq_some.mp hs
  refine reduce_eq_some.mpr ⟨hcan.trans hred, first, data, ?_, ?_, ?_⟩
  · rw [hkept, hfirst]
  · rw [hkept, hdata]
  · unfold countedSources
    rw [hkept]
    rfl

theorem reduceWithReputationCorrelated_of_kept (hcan : canReduce claims' = canReduce claims)
    (hkept : sortedById claims' = sortedById claims)
    (hs : reduceWithReputationCorrelated blake3 claims reputations discountBps = some s) :
    reduceWithReputationCorrelated blake3 claims' reputations discountBps =
      some (s.withSourceCount (claims'.length % 2 ^ 32)) := by
  obtain ⟨hred, first, data, hfirst, hdata, hsome, rfl⟩ :=
    reduceWithReputationCorrelated_eq_some.mp hs
  have hgathered : gatheredSources blake3 reputations claims' =
      gatheredSources blake3 reputations claims := by
    unfold gatheredSources
    rw [hkept]
  refine reduceWithReputationCorrelated_eq_some.mpr
    ⟨hcan.trans hred, first, data, ?_, hdata, ?_, ?_⟩
  · rw [hkept, hfirst]
  · rw [hgathered, hsome]
  · rw [hgathered, hkept]
    rfl

theorem withSourceCount_summaryOf {first : Claim} {n m sources : ℕ} {ticks : List U64}
    {data : List Byte} {aggregated : LogOdds} {evidence : List LogOdds} :
    (summaryOf blake3 first n sources ticks data aggregated evidence).withSourceCount (m % 2 ^ 32) =
      summaryOf blake3 first n sources ticks data aggregated evidence ↔ m ≡ n [MOD 2 ^ 32] := by
  constructor
  · intro h
    have hkind := congrArg Claim.kind h
    exact (ClaimKind.summary.inj hkind).1
  · intro h
    have hmod : m % 2 ^ 32 = n % 2 ^ 32 := h
    rw [hmod]
    rfl

/-! ### Sample summaries -/

/-- What is hashed to name a summary of plain claims. -/
def summaryInput (sources : ℕ) (tickStart tickEnd : U64) (aggregated variance : ℤ) : List Byte :=
  (zeros 16).val ++ leBytes 4 sources ++ (toLeBytes tickStart).val ++ (toLeBytes tickEnd).val ++
    leBytes 4 (aggregated % 2 ^ 32).toNat ++ i64Bytes variance

/-- What BLAKE3 gives for the names of the sample summaries. -/
def summaryDigests : List (List Byte × Hash32) :=
  [(summaryInput 2 10 20 2000 0,
     ⟨[251, 192, 73, 112, 47, 129, 205, 227, 74, 205, 14, 35, 220, 37, 149, 147, 239, 94, 193,
     252, 207, 174, 246, 211, 52, 6, 255, 141, 105, 197, 244, 241], by decide⟩),
   (summaryInput 2 0 0 2600 490000,
     ⟨[219, 110, 164, 89, 148, 137, 35, 83, 198, 187, 91, 145, 173, 171, 14, 135, 119, 124, 170,
     16, 80, 89, 178, 58, 99, 67, 34, 188, 43, 227, 176, 145], by decide⟩),
   (summaryInput 2 0 0 2000 0,
     ⟨[245, 1, 70, 97, 186, 121, 135, 224, 129, 250, 101, 1, 26, 85, 13, 18, 250, 230, 0, 66, 0,
     121, 3, 80, 162, 73, 169, 33, 166, 1, 205, 44], by decide⟩),
   (summaryInput 2 0 0 3000 250000,
     ⟨[219, 46, 178, 102, 77, 82, 194, 31, 219, 158, 106, 2, 165, 217, 83, 142, 1, 165, 77, 152,
     54, 207, 142, 186, 254, 67, 27, 119, 23, 235, 210, 69], by decide⟩),
   (summaryInput 3 0 0 3000 0,
     ⟨[215, 177, 91, 10, 6, 54, 86, 1, 169, 255, 164, 36, 168, 148, 253, 234, 139, 116, 99, 60,
     83, 87, 193, 198, 168, 77, 130, 2, 53, 69, 11, 116], by decide⟩),
   (summaryInput 2 0 0 20000 0,
     ⟨[25, 107, 136, 229, 49, 3, 52, 204, 215, 17, 155, 204, 86, 47, 187, 23, 163, 40, 239, 164,
     42, 58, 13, 11, 45, 145, 99, 74, 240, 69, 249, 190], by decide⟩),
   (summaryInput 2 0 0 11000 20250000,
     ⟨[68, 149, 106, 213, 167, 16, 186, 110, 52, 78, 216, 218, 183, 69, 20, 85, 187, 183, 207,
     143, 2, 8, 37, 5, 147, 221, 183, 0, 214, 12, 144, 134], by decide⟩),
   (summaryInput 2 0 0 14816 41062464,
     ⟨[132, 110, 167, 190, 120, 75, 48, 179, 142, 119, 179, 9, 47, 8, 185, 214, 239, 92, 104, 22,
     235, 186, 44, 132, 61, 87, 6, 98, 105, 40, 73, 72], by decide⟩),
   (summaryInput 2 0 0 21000 250000,
     ⟨[119, 23, 29, 83, 62, 44, 92, 226, 93, 118, 219, 46, 64, 208, 71, 50, 111, 252, 52, 228, 20,
     96, 115, 151, 22, 186, 61, 204, 44, 203, 36, 179], by decide⟩),
   (summaryInput 3 0 0 21000 18000000,
     ⟨[140, 154, 109, 112, 94, 102, 162, 110, 245, 94, 3, 59, 207, 78, 237, 229, 245, 96, 14, 11,
     188, 8, 149, 111, 67, 70, 107, 93, 34, 165, 120, 243], by decide⟩),
   (summaryInput 2 0 0 13000 20250000,
     ⟨[4, 134, 98, 220, 150, 248, 121, 138, 188, 153, 204, 8, 47, 19, 113, 147, 157, 85, 91, 134,
     91, 227, 14, 252, 240, 7, 156, 217, 169, 5, 156, 50], by decide⟩),
   (summaryInput 3 0 0 12000 18000000,
     ⟨[152, 89, 37, 234, 38, 109, 201, 255, 77, 137, 89, 68, 178, 234, 47, 25, 6, 129, 129, 82,
     191, 187, 220, 56, 66, 202, 192, 180, 112, 9, 2, 239], by decide⟩),
   (summaryInput 2 0 0 1000 250000,
     ⟨[242, 220, 14, 220, 46, 18, 111, 192, 228, 100, 181, 162, 28, 165, 113, 28, 74, 152, 179,
     36, 51, 1, 231, 123, 27, 63, 30, 32, 82, 129, 192, 74], by decide⟩),
   (summaryInput 2 0 0 10000 25000000,
     ⟨[54, 8, 243, 203, 19, 49, 76, 111, 41, 125, 242, 163, 3, 97, 23, 47, 99, 116, 209, 25, 71,
     210, 139, 117, 215, 80, 36, 146, 240, 4, 247, 197], by decide⟩),
   (summaryInput 3 0 0 11000 20222222,
     ⟨[228, 94, 38, 4, 122, 220, 58, 145, 254, 243, 48, 61, 226, 95, 98, 96, 198, 68, 10, 195,
     186, 134, 33, 98, 64, 45, 135, 113, 245, 108, 84, 153], by decide⟩)]

/-- A hash that agrees with BLAKE3 on these inputs as well. -/
def summaryHash : Blake3 := fun input =>
  ((summaryDigests.find? fun d => d.1 = input).map Prod.snd).getD (sampleHash input)

end Aimp.Epistemic
