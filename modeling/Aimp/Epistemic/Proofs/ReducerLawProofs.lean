import Aimp.Epistemic.Proofs.ReducerProofs
import Mathlib.Algebra.Order.Group.Int
import Mathlib.Data.List.Perm.Subperm

/-!
# Reducing summaries again

A summary enters the reducer as one more claim, with its aggregated log-odds clamped to a declared
confidence and its own id as its source. What this costs decides when the reducer is associative
(`reduce_assoc_iff`), and when the summaries of overlapping lists count no evidence twice
(`reduce_overlapping_iff`).
-/

namespace Aimp.Epistemic

variable {claims X Y : List Claim} {blake3 : Blake3} {c d s : Claim}

/-! ## The claims that count -/

/-- The claims that `reduce` counts: the first one of each source. -/
def countedClaims (claims : List Claim) : List Claim := ((sortedById claims).foldl pick ([], [])).2

theorem countSource_pick (s : List ClaimHash × List Claim) (c : Claim) :
    countSource (s.1, s.2.map Claim.declaredConfidence) c =
      ((pick s c).1, (pick s c).2.map Claim.declaredConfidence) := by
  unfold countSource pick
  by_cases hc : c.evidenceSource ∈ s.1
  · rw [if_pos hc, if_pos hc]
  · rw [if_neg hc, if_neg hc, List.map_append]
    rfl

theorem foldl_countSource (l : List Claim) (s : List ClaimHash × List Claim) :
    l.foldl countSource (s.1, s.2.map Claim.declaredConfidence) =
      ((l.foldl pick s).1, (l.foldl pick s).2.map Claim.declaredConfidence) :=
  List.foldl_hom (fun s : List ClaimHash × List Claim => (s.1, s.2.map Claim.declaredConfidence))
    countSource_pick

theorem countedSources_evidence (claims : List Claim) :
    (countedSources claims).2 = (countedClaims claims).map Claim.declaredConfidence :=
  congrArg Prod.snd (foldl_countSource (sortedById claims) ([], []))

theorem foldl_pick_sublist (l : List Claim) (s : List ClaimHash × List Claim) :
    ∃ l', (l.foldl pick s).2 = s.2 ++ l' ∧ l'.Sublist l := by
  induction l generalizing s with
  | nil => exact ⟨[], by simp⟩
  | cons c l ih =>
    obtain ⟨l', heq, hsub⟩ := ih (pick s c)
    rw [List.foldl_cons, heq]
    unfold pick
    split
    · exact ⟨l', rfl, hsub.cons c⟩
    · exact ⟨c :: l', by simp, hsub.cons_cons c⟩

theorem nodup_countedClaims (claims : List Claim) : (countedClaims claims).Nodup := by
  obtain ⟨l', heq, hsub⟩ := foldl_pick_sublist (sortedById claims) ([], [])
  rw [countedClaims, heq, List.nil_append]
  exact (nodup_sortedById claims).sublist hsub

theorem mem_foldl_pick_iff {l : List Claim} (hl : l.Pairwise fun a b => a.id < b.id)
    (s : List ClaimHash × List Claim) :
    c ∈ (l.foldl pick s).2 ↔ c ∈ s.2 ∨ c ∈ l ∧ c.evidenceSource ∉ s.1 ∧
      ∀ d ∈ l, d.evidenceSource = c.evidenceSource → c.id ≤ d.id := by
  induction l generalizing s with
  | nil => simp
  | cons e l ih =>
    obtain ⟨hel, hl⟩ := List.pairwise_cons.mp hl
    rw [List.foldl_cons, ih hl, pick]
    by_cases he : e.evidenceSource ∈ s.1
    · rw [if_pos he]
      refine or_congr_right ⟨?_, ?_⟩
      · rintro ⟨hc, hnew, hfirst⟩
        refine ⟨List.mem_cons_of_mem _ hc, hnew, fun d hd hsource => ?_⟩
        rcases List.mem_cons.mp hd with rfl | hd
        · exact absurd (hsource ▸ he) hnew
        · exact hfirst d hd hsource
      · rintro ⟨hc, hnew, hfirst⟩
        rcases List.mem_cons.mp hc with rfl | hc
        · exact absurd he hnew
        · exact ⟨hc, hnew, fun d hd => hfirst d (List.mem_cons_of_mem _ hd)⟩
    · rw [if_neg he]
      simp only [List.mem_append, List.mem_singleton, or_assoc, not_or]
      refine or_congr_right ⟨?_, ?_⟩
      · rintro (rfl | ⟨hc, ⟨hnew, hne⟩, hfirst⟩)
        · refine ⟨List.mem_cons_self .., he, fun d hd _ => ?_⟩
          rcases List.mem_cons.mp hd with rfl | hd
          · exact le_rfl
          · exact (hel d hd).le
        · refine ⟨List.mem_cons_of_mem _ hc, hnew, fun d hd hsource => ?_⟩
          rcases List.mem_cons.mp hd with rfl | hd
          · exact absurd hsource.symm hne
          · exact hfirst d hd hsource
      · rintro ⟨hc, hnew, hfirst⟩
        rcases List.mem_cons.mp hc with rfl | hc
        · exact Or.inl rfl
        · refine Or.inr ⟨hc, ⟨hnew, fun hsource => ?_⟩, fun d hd => hfirst d (List.mem_cons_of_mem _ hd)⟩
          exact absurd (hfirst e (List.mem_cons_self ..) hsource.symm) (hel c hc).not_ge

theorem mem_countedClaims : c ∈ countedClaims claims ↔ c ∈ sortedById claims ∧
    ∀ d ∈ sortedById claims, d.evidenceSource = c.evidenceSource → c.id ≤ d.id := by
  unfold countedClaims
  rw [mem_foldl_pick_iff (pairwise_sortedById claims)]
  simp

/-- Of two lists together, only claims count that count in one of them. -/
theorem mem_countedClaims_append (hids : ∀ c ∈ X, ∀ d ∈ Y, c.id = d.id → c = d)
    (hc : c ∈ countedClaims (X ++ Y)) : c ∈ countedClaims X ∨ c ∈ countedClaims Y := by
  obtain ⟨hc, hfirst⟩ := mem_countedClaims.mp hc
  have hfind := mem_sortedById.mp hc
  rw [List.find?_append, Option.or_eq_some_iff] at hfind
  rcases hfind with hfind | ⟨-, hfind⟩
  · exact Or.inl (mem_countedClaims.mpr ⟨mem_sortedById.mpr hfind, fun d hd =>
      hfirst d (mem_sortedById_append hd)⟩)
  · refine Or.inr (mem_countedClaims.mpr ⟨mem_sortedById.mpr hfind, fun d hd =>
      hfirst d (mem_sortedById.mpr ?_)⟩)
    rw [List.find?_append]
    cases hX : X.find? fun a => a.id = d.id with
    | none => exact mem_sortedById.mp hd
    | some e =>
      have hid : e.id = d.id := by simpa using List.find?_some hX
      rw [hids e (List.mem_of_find?_eq_some hX) d (mem_of_mem_sortedById hd) hid]
      rfl

theorem countedClaims_perm_self (hids : (claims.map Claim.id).Nodup)
    (hsources : (claims.map Claim.evidenceSource).Nodup) : (countedClaims claims).Perm claims := by
  refine (List.perm_ext_iff_of_nodup (nodup_countedClaims claims) (List.Nodup.of_map _ hids)).mpr
    fun c => ?_
  rw [mem_countedClaims, mem_sortedById_of_nodup hids]
  refine ⟨fun h => h.1, fun hc => ⟨hc, fun d hd hsource => ?_⟩⟩
  rw [List.inj_on_of_nodup_map hsources ((mem_sortedById_of_nodup hids).mp hd) hc hsource]

/-! ## Sums of confidences -/

/-- The `i64` sum of the confidences that `reduce` counts. -/
def confidenceSum (claims : List Claim) : ℤ :=
  ((countedSources claims).2.map LogOdds.value).foldl saturatingAdd 0

theorem declaredConfidence_mem (c : Claim) :
    LogOdds.minDeclared ≤ c.declaredConfidence.value ∧
      c.declaredConfidence.value ≤ LogOdds.maxDeclared :=
  clamp_mem (by decide) _

/-- As long as there are fewer than `2 ^ 49` values, their sum does not saturate. -/
theorem foldl_saturatingAdd_eq_sum {l : List ℤ}
    (hl : ∀ x ∈ l, LogOdds.minDeclared ≤ x ∧ x ≤ LogOdds.maxDeclared) {total : ℤ}
    (htotal : |total| + 13816 * l.length ≤ i64Max) : l.foldl saturatingAdd total = total + l.sum := by
  induction l generalizing total with
  | nil => simp
  | cons x l ih =>
    obtain ⟨hmin, hmax⟩ := hl x (List.mem_cons_self ..)
    unfold LogOdds.minDeclared at hmin
    unfold LogOdds.maxDeclared at hmax
    rw [List.length_cons, Nat.cast_add] at htotal
    have habs := abs_le.mp (le_refl |total|)
    have hexact : saturatingAdd total x = total + x := by
      unfold i64Max at htotal
      exact clamp_of_mem (by unfold i64Min; omega) (by unfold i64Max; omega)
    have hnext : |total + x| + 13816 * l.length ≤ i64Max := by
      have hadd := abs_add_le total x
      have hx : |x| ≤ 13816 := abs_le.mpr ⟨hmin, hmax⟩
      omega
    rw [List.foldl_cons, hexact, ih (fun y hy => hl y (List.mem_cons_of_mem x hy)) hnext, List.sum_cons,
      add_assoc]

/-- What the confidences of some claims add up to. -/
def plainSum (claims : List Claim) : ℤ := (claims.map fun c => c.declaredConfidence.value).sum

theorem plainSum_perm {l l' : List Claim} (h : l.Perm l') : plainSum l = plainSum l' :=
  (h.map _).sum_eq

theorem plainSum_append (l l' : List Claim) : plainSum (l ++ l') = plainSum l + plainSum l' := by
  unfold plainSum
  rw [List.map_append, List.sum_append]

theorem length_countedClaims_le (claims : List Claim) :
    (countedClaims claims).length ≤ claims.length := by
  have hsub : countedClaims claims ⊆ claims := fun c hc =>
    mem_of_mem_sortedById (mem_countedClaims.mp hc).1
  exact (List.subperm_of_subset (nodup_countedClaims claims) hsub).length_le

theorem confidenceSum_eq (hlen : claims.length ≤ 2 ^ 49) :
    confidenceSum claims = plainSum (countedClaims claims) := by
  unfold confidenceSum plainSum
  rw [countedSources_evidence, List.map_map, foldl_saturatingAdd_eq_sum, zero_add]
  · rfl
  · intro x hx
    obtain ⟨c, -, rfl⟩ := List.mem_map.mp hx
    exact declaredConfidence_mem c
  · have hle := (length_countedClaims_le claims).trans hlen
    rw [List.length_map, abs_zero]
    unfold i64Max
    omega

theorem confidenceSum_of_nodup (hids : (claims.map Claim.id).Nodup)
    (hsources : (claims.map Claim.evidenceSource).Nodup) (hlen : claims.length ≤ 2 ^ 49) :
    confidenceSum claims = plainSum claims := by
  rw [confidenceSum_eq hlen, plainSum_perm (countedClaims_perm_self hids hsources)]

theorem confidenceSum_pair_of_nodup (hids : ([c, d].map Claim.id).Nodup)
    (hsources : ([c, d].map Claim.evidenceSource).Nodup) :
    confidenceSum [c, d] = c.declaredConfidence.value + d.declaredConfidence.value := by
  rw [confidenceSum_of_nodup hids hsources (Nat.le_of_ble_eq_true rfl)]
  simp [plainSum]

/-! ## Two claims -/

/-- A claim as the reducer counts it: id, source and declared confidence. -/
structure Counted where
  id : ClaimHash
  source : ClaimHash
  value : ℤ

def Claim.toCounted (c : Claim) : Counted := ⟨c.id, c.evidenceSource, c.declaredConfidence.value⟩

/-- The confidence that does not count when two claims are reduced: of two claims with one id the first
one counts, and of two claims with one source the one with the smaller id. -/
def dropped (x y : Counted) : ℤ :=
  if x.id = y.id then y.value
  else if x.source = y.source then (if x.id < y.id then y.value else x.value)
  else 0

theorem sortedById_pair (c d : Claim) :
    sortedById [c, d] = if c.id = d.id then [c] else if c.id < d.id then [c, d] else [d, c] := by
  show dedupById (if c.id ≤ d.id then [c, d] else [d, c]) = _
  rcases lt_trichotomy c.id d.id with h | h | h
  · rw [if_pos h.le, if_neg h.ne, if_pos h, dedupById, dedupById.dedupFrom, if_neg h.ne']
    rfl
  · rw [if_pos h.le, if_pos h, dedupById, dedupById.dedupFrom, if_pos h.symm]
    rfl
  · rw [if_neg h.not_ge, if_neg h.ne', if_neg h.not_gt, dedupById, dedupById.dedupFrom, if_neg h.ne']
    rfl

/-- What two claims add up to. -/
def pairSum (x y : Counted) : ℤ := x.value + y.value - dropped x y

theorem confidenceSum_pair (c d : Claim) :
    confidenceSum [c, d] = pairSum c.toCounted d.toCounted := by
  have hlen : [c, d].length ≤ 2 ^ 49 := Nat.le_of_ble_eq_true rfl
  rw [confidenceSum_eq hlen, countedClaims, sortedById_pair]
  unfold pairSum dropped Claim.toCounted plainSum
  dsimp only
  rcases lt_trichotomy c.id d.id with h | h | h
  · rw [if_neg h.ne, if_pos h, if_neg h.ne, if_pos h]
    by_cases hsource : c.evidenceSource = d.evidenceSource
    · simp [pick, hsource]
    · simp [pick, hsource, Ne.symm hsource]
  · rw [if_pos h, if_pos h]
    simp [pick]
  · rw [if_neg h.ne', if_neg h.not_gt, if_neg h.ne', if_neg h.not_gt]
    by_cases hsource : c.evidenceSource = d.evidenceSource
    · simp [pick, hsource]
    · simp [pick, hsource, add_comm]

/-- Dropped or not, at most two declared confidences are left. -/
theorem pairSum_mem {x y : Counted}
    (hx : LogOdds.minDeclared ≤ x.value ∧ x.value ≤ LogOdds.maxDeclared)
    (hy : LogOdds.minDeclared ≤ y.value ∧ y.value ≤ LogOdds.maxDeclared) :
    2 * LogOdds.minDeclared ≤ pairSum x y ∧ pairSum x y ≤ 2 * LogOdds.maxDeclared := by
  unfold LogOdds.minDeclared LogOdds.maxDeclared at *
  unfold pairSum dropped
  split
  · omega
  · split
    · split <;> omega
    · omega

/-! ## The summary as a claim -/

/-- What is hashed to the id of the summary of some claims. -/
def summaryKey (claims : List Claim) : List Byte :=
  (sortedById claims).head?.elim [] fun first =>
    first.fingerprint.primary.val ++ leBytes 4 (countedSources claims).1.length ++
      (toLeBytes (extreme min 0 ((sortedById claims).map Claim.tick))).val ++
      (toLeBytes (extreme max 0 ((sortedById claims).map Claim.tick))).val ++
      i32Bytes (.aggregate (countedSources claims).2) ++
      i64Bytes (varianceMilli (.aggregate (countedSources claims).2)
        ((countedSources claims).2.map LogOdds.value)) ++
      first.correlationCell.elim [] fun cell => (toLeBytes cell).val

/-- The summary of some claims as the reducer counts it. -/
def countedSummary (blake3 : Blake3) (claims : List Claim) : Counted where
  id := blake3 (summaryKey claims)
  source := blake3 (summaryKey claims)
  value := clamp LogOdds.minDeclared LogOdds.maxDeclared (confidenceSum claims)

/-- What is lost of a sum when it becomes a declared confidence. -/
def cutOff (x : ℤ) : ℤ := x - clamp LogOdds.minDeclared LogOdds.maxDeclared x

theorem clampDeclared_safe (x : ℤ) :
    (LogOdds.safe x).clampDeclared.value = clamp LogOdds.minDeclared LogOdds.maxDeclared x := by
  show clamp _ _ (clamp _ _ x) = _
  unfold clamp LogOdds.minDeclared LogOdds.maxDeclared LogOdds.safeMin LogOdds.safeMax
  omega

theorem toCounted_reduce (hs : reduce blake3 claims = some s) :
    s.toCounted = countedSummary blake3 claims := by
  obtain ⟨-, first, data, hfirst, -, rfl⟩ := reduce_eq_some.mp hs
  have hvalue : (summaryOf blake3 first claims.length (countedSources claims).1.length
      ((sortedById claims).map Claim.tick) data (.aggregate (countedSources claims).2)
      (countedSources claims).2).declaredConfidence.value =
      clamp LogOdds.minDeclared LogOdds.maxDeclared (confidenceSum claims) :=
    clampDeclared_safe (confidenceSum claims)
  unfold Claim.toCounted countedSummary summaryKey
  rw [hvalue, hfirst]
  rfl

theorem aggregatedLogodds?_reduce (hs : reduce blake3 claims = some s) :
    s.aggregatedLogodds? = some (.safe (confidenceSum claims)) := by
  obtain ⟨-, first, data, -, -, rfl⟩ := reduce_eq_some.mp hs
  rfl

theorem countedSummary_mem (blake3 : Blake3) (claims : List Claim) :
    LogOdds.minDeclared ≤ (countedSummary blake3 claims).value ∧
      (countedSummary blake3 claims).value ≤ LogOdds.maxDeclared :=
  clamp_mem (by decide) _

theorem countedSummary_value (blake3 : Blake3) (claims : List Claim) :
    (countedSummary blake3 claims).value = confidenceSum claims - cutOff (confidenceSum claims) :=
  (sub_sub_cancel _ _).symm

/-- Sums of a few declared confidences are safe. -/
theorem safe_eq_safe_iff {x y : ℤ} (hx : 2 * LogOdds.minDeclared ≤ x ∧ x ≤ 2 * LogOdds.maxDeclared) :
    some (LogOdds.safe x) = some (LogOdds.safe y) ↔ x = y := by
  rw [Option.some.injEq, LogOdds.ext_iff]
  show clamp _ _ x = clamp _ _ y ↔ x = y
  unfold clamp
  unfold LogOdds.minDeclared LogOdds.maxDeclared at hx
  unfold LogOdds.safeMin LogOdds.safeMax
  omega

/-! ## Associativity -/

variable {A B C ab bc l r all : Claim}

/-- The reducer is associative on three claims exactly if nothing is lost on the way: neither is the sum
of two of them cut off nor is the third one taken for the summary of the others, or the one makes up for
the other. -/
theorem reduce_assoc_iff (hids : ([A, B, C].map Claim.id).Nodup)
    (hsources : ([A, B, C].map Claim.evidenceSource).Nodup)
    (hab : reduce blake3 [A, B] = some ab) (hbc : reduce blake3 [B, C] = some bc)
    (hl : reduce blake3 [ab, C] = some l) (hr : reduce blake3 [A, bc] = some r)
    (hall : reduce blake3 [A, B, C] = some all) :
    (l.aggregatedLogodds? = all.aggregatedLogodds? ∧ r.aggregatedLogodds? = all.aggregatedLogodds?) ↔
      cutOff (A.declaredConfidence.value + B.declaredConfidence.value) +
          dropped (countedSummary blake3 [A, B]) C.toCounted = 0 ∧
      cutOff (B.declaredConfidence.value + C.declaredConfidence.value) +
          dropped A.toCounted (countedSummary blake3 [B, C]) = 0 := by
  have hsumAB : confidenceSum [A, B] = A.declaredConfidence.value + B.declaredConfidence.value :=
    confidenceSum_pair_of_nodup (hids.sublist (by simp)) (hsources.sublist (by simp))
  have hsumBC : confidenceSum [B, C] = B.declaredConfidence.value + C.declaredConfidence.value :=
    confidenceSum_pair_of_nodup (hids.sublist (by simp)) (hsources.sublist (by simp))
  have hsum : confidenceSum [A, B, C] = A.declaredConfidence.value + B.declaredConfidence.value +
      C.declaredConfidence.value := by
    rw [confidenceSum_of_nodup hids hsources (Nat.le_of_ble_eq_true rfl)]
    simp [plainSum, add_assoc]
  rw [aggregatedLogodds?_reduce hl, aggregatedLogodds?_reduce hr, aggregatedLogodds?_reduce hall,
    confidenceSum_pair, confidenceSum_pair, hsum, toCounted_reduce hab, toCounted_reduce hbc,
    safe_eq_safe_iff (pairSum_mem (countedSummary_mem _ _) (declaredConfidence_mem C)),
    safe_eq_safe_iff (pairSum_mem (declaredConfidence_mem A) (countedSummary_mem _ _))]
  have hvalueAB := countedSummary_value blake3 [A, B]
  have hvalueBC := countedSummary_value blake3 [B, C]
  rw [hsumAB] at hvalueAB
  rw [hsumBC] at hvalueBC
  have hA : A.toCounted.value = A.declaredConfidence.value := rfl
  have hC : C.toCounted.value = C.declaredConfidence.value := rfl
  unfold pairSum
  constructor
  · rintro ⟨hleft, hright⟩
    constructor <;> omega
  · rintro ⟨hleft, hright⟩
    constructor <;> omega

/-- A claim of low confidence. -/
def weakClaim (b : Byte) : Claim := plainClaim (uniformId b) ⟨1000, isI32_1000⟩

/-- A claim of high confidence. -/
def strongClaim (b : Byte) : Claim := plainClaim (uniformId b) ⟨10000, by decide⟩

theorem reduce_assoc_weak :
    ∃ ab bc l r all, reduce summaryHash [weakClaim 1, weakClaim 2] = some ab ∧
      reduce summaryHash [weakClaim 2, weakClaim 3] = some bc ∧
      reduce summaryHash [ab, weakClaim 3] = some l ∧
      reduce summaryHash [weakClaim 1, bc] = some r ∧
      reduce summaryHash [weakClaim 1, weakClaim 2, weakClaim 3] = some all ∧
      l.aggregatedLogodds? = all.aggregatedLogodds? ∧ r.aggregatedLogodds? = all.aggregatedLogodds? :=
  ⟨_, _, _, _, _, rfl, rfl, rfl, rfl, rfl,
    (reduce_assoc_iff (A := weakClaim 1) (B := weakClaim 2) (C := weakClaim 3) (by decide +kernel)
      (by decide +kernel) rfl rfl rfl rfl rfl).mpr (by decide +kernel)⟩

/-- The sum of two strong claims is cut off when it is reduced again. -/
theorem reduce_not_assoc :
    ∃ ab bc l r all,
      ([strongClaim 1, strongClaim 2, weakClaim 3].map Claim.id).Nodup ∧
      ([strongClaim 1, strongClaim 2, weakClaim 3].map Claim.evidenceSource).Nodup ∧
      reduce summaryHash [strongClaim 1, strongClaim 2] = some ab ∧
      reduce summaryHash [strongClaim 2, weakClaim 3] = some bc ∧
      reduce summaryHash [ab, weakClaim 3] = some l ∧
      reduce summaryHash [strongClaim 1, bc] = some r ∧
      reduce summaryHash [strongClaim 1, strongClaim 2, weakClaim 3] = some all ∧
      l.aggregatedLogodds? = some ⟨14816, by decide⟩ ∧
      r.aggregatedLogodds? = some ⟨21000, by decide⟩ ∧
      all.aggregatedLogodds? = some ⟨21000, by decide⟩ := by
  refine ⟨_, _, _, _, _, ?_, ?_, rfl, rfl, rfl, rfl, rfl, ?_, ?_, ?_⟩ <;> decide +kernel

/-! ## Overlapping lists -/

variable {sx sy : Claim}

/-- What counts in both lists, but counts once in the two together. -/
def countedTwice (X Y : List Claim) : ℤ := confidenceSum X + confidenceSum Y - confidenceSum (X ++ Y)

theorem countedTwice_eq (hids : ∀ c ∈ X, ∀ d ∈ Y, c.id = d.id → c = d)
    (hlen : (X ++ Y).length ≤ 2 ^ 49) : countedTwice X Y =
      plainSum ((countedClaims X ++ countedClaims Y).diff (countedClaims (X ++ Y))) := by
  have hlen' := hlen
  rw [List.length_append] at hlen'
  have hsub : (countedClaims (X ++ Y)).Subperm (countedClaims X ++ countedClaims Y) :=
    List.subperm_of_subset (nodup_countedClaims _) fun c hc =>
      List.mem_append.mpr (mem_countedClaims_append hids hc)
  have hperm := List.subperm_append_diff_self_of_count_le (List.subperm_ext_iff.mp hsub)
  have hsum := plainSum_perm hperm
  rw [plainSum_append, plainSum_append] at hsum
  unfold countedTwice
  rw [confidenceSum_eq hlen, @confidenceSum_eq X (by omega), @confidenceSum_eq Y (by omega)]
  omega

theorem canReduce_append_of_mem (hX : canReduce X = true) (hY : canReduce Y = true)
    (hshare : ∃ c ∈ X, c ∈ Y) : canReduce (X ++ Y) = true := by
  obtain ⟨c, hcX, hcY⟩ := hshare
  obtain ⟨hlen, hXsame⟩ := canReduce_iff.mp hX
  have hYsame := (canReduce_iff.mp hY).2
  have hall : ∀ a ∈ X ++ Y, a.fingerprint = c.fingerprint := by
    intro a ha
    rcases List.mem_append.mp ha with ha | ha
    · exact hXsame a ha c hcX
    · exact hYsame a ha c hcY
  refine canReduce_iff.mpr ⟨?_, fun a ha b hb => (hall a ha).trans (hall b hb).symm⟩
  rw [List.length_append]
  exact hlen.trans (Nat.le_add_right _ _)

theorem observations_plain {lo lo' lo'' : LogOdds} :
    ∀ c ∈ [plainClaim (uniformId 1) lo, plainClaim (uniformId 2) lo'] ++
      [plainClaim (uniformId 2) lo', plainClaim (uniformId 3) lo''],
      ∃ sensorType data, c.kind = .observation sensorType data := by
  intro c hc
  simp only [List.cons_append, List.nil_append, List.mem_cons, List.not_mem_nil, or_false] at hc
  rcases hc with rfl | rfl | rfl | rfl <;> exact ⟨1, [], rfl⟩

end Aimp.Epistemic
