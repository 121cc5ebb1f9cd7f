import Aimp.Epistemic.Proofs.AggregateProofs
import Aimp.Epistemic.Proofs.ClusterProofs
import Aimp.Epistemic.Reducer

/-!
# Summaries and claims without reputation

What claims of authors without reputation can change about the summary of a bucket: its data, its tick
window and the assessment of the claims that count (`report_append`).
-/

namespace Aimp.Epistemic

variable {claims bucket extras : List Claim} {reputations : Reputations} {blake3 : Blake3}
  {discountBps : ℕ} {c d : Claim}

/-! ## Sorting -/

theorem find?_orderedInsert (x : ClaimHash) (c : Claim) (l : List Claim) :
    (l.orderedInsert (fun a b : Claim => a.id ≤ b.id) c).find? (fun a => a.id = x) =
      if c.id = x then some c else l.find? fun a => a.id = x := by
  induction l with
  | nil => by_cases hc : c.id = x <;> simp [hc]
  | cons d l ih =>
    rw [List.orderedInsert_cons]
    by_cases hle : c.id ≤ d.id
    · rw [if_pos hle]
      by_cases hc : c.id = x <;> simp [hc]
    · rw [if_neg hle, List.find?_cons, ih, List.find?_cons]
      by_cases hd : d.id = x
      · have hc : c.id ≠ x := by
          rintro rfl
          exact hle hd.ge
        simp [hd, hc]
      · simp [hd]

/-- The sort is stable: of the claims with one id, the first one stays the first. -/
theorem find?_insertionSort (x : ClaimHash) (claims : List Claim) :
    (claims.insertionSort fun a b => a.id ≤ b.id).find? (fun a => a.id = x) =
      claims.find? fun a => a.id = x := by
  induction claims with
  | nil => rfl
  | cons c claims ih =>
    rw [List.insertionSort_cons, find?_orderedInsert, ih, List.find?_cons]
    by_cases hc : c.id = x <;> simp [hc]

theorem dedupFrom_spec {l : List Claim} (hsorted : l.Pairwise fun a b => a.id ≤ b.id)
    (hle : ∀ d ∈ l, c.id ≤ d.id) :
    (∀ d, d ∈ dedupById.dedupFrom c l ↔ c.id < d.id ∧ l.find? (fun a => a.id = d.id) = some d) ∧
      (dedupById.dedupFrom c l).Pairwise fun a b => a.id < b.id := by
  induction l generalizing c with
  | nil => exact ⟨fun d => iff_of_false List.not_mem_nil (by simp), List.Pairwise.nil⟩
  | cons e l ih =>
    obtain ⟨hel, hl⟩ := List.pairwise_cons.mp hsorted
    have hce := hle e (List.mem_cons_self ..)
    rw [dedupById.dedupFrom]
    by_cases heq : e.id = c.id
    · rw [if_pos heq]
      obtain ⟨hmem, hpair⟩ := ih hl fun d hd => hle d (List.mem_cons_of_mem _ hd)
      refine ⟨fun d => (hmem d).trans (and_congr_right fun hlt => ?_), hpair⟩
      rw [List.find?_cons_of_neg]
      simpa [heq] using hlt.ne
    · rw [if_neg heq]
      have hlt : c.id < e.id := lt_of_le_of_ne hce (Ne.symm heq)
      obtain ⟨hmem, hpair⟩ := ih hl hel
      refine ⟨fun d => ?_, List.pairwise_cons.mpr ⟨fun d hd => ((hmem d).mp hd).1, hpair⟩⟩
      rw [List.mem_cons, hmem, List.find?_cons]
      by_cases hde : e.id = d.id
      · simp only [hde, decide_true, Option.some.injEq, lt_irrefl, false_and, or_false]
        constructor
        · rintro rfl
          exact ⟨hlt, rfl⟩
        · exact fun h => h.2.symm
      · simp only [hde, decide_false]
        constructor
        · rintro (rfl | h)
          · exact absurd rfl hde
          · exact ⟨hlt.trans h.1, h.2⟩
        · rintro ⟨_, hfind⟩
          have hd := hel d (List.mem_of_find?_eq_some hfind)
          exact Or.inr ⟨lt_of_le_of_ne hd hde, hfind⟩

theorem sortedById_spec (claims : List Claim) :
    (∀ c, c ∈ sortedById claims ↔ claims.find? (fun a => a.id = c.id) = some c) ∧
      (sortedById claims).Pairwise fun a b => a.id < b.id := by
  have hsorted := List.pairwise_insertionSort (fun a b : Claim => a.id ≤ b.id) claims
  simp only [← find?_insertionSort _ claims]
  unfold sortedById
  generalize claims.insertionSort (fun a b => a.id ≤ b.id) = l at hsorted ⊢
  cases l with
  | nil => exact ⟨fun c => iff_of_false List.not_mem_nil (by simp), List.Pairwise.nil⟩
  | cons e l =>
    obtain ⟨hel, hl⟩ := List.pairwise_cons.mp hsorted
    obtain ⟨hmem, hpair⟩ := dedupFrom_spec hl hel
    refine ⟨fun c => ?_, List.pairwise_cons.mpr ⟨fun d hd => ((hmem d).mp hd).1, hpair⟩⟩
    show c ∈ e :: dedupById.dedupFrom e l ↔ _
    rw [List.mem_cons, hmem, List.find?_cons]
    by_cases hec : e.id = c.id
    · simp [hec, eq_comm]
    · simp only [hec, decide_false]
      constructor
      · rintro (rfl | h)
        · exact absurd rfl hec
        · exact h.2
      · intro hfind
        exact Or.inr ⟨lt_of_le_of_ne (hel c (List.mem_of_find?_eq_some hfind)) hec, hfind⟩

/-- Of the claims with one id, the first one is kept. -/
theorem mem_sortedById : c ∈ sortedById claims ↔ claims.find? (fun a => a.id = c.id) = some c :=
  (sortedById_spec claims).1 c

theorem pairwise_sortedById (claims : List Claim) :
    (sortedById claims).Pairwise fun a b => a.id < b.id := (sortedById_spec claims).2

theorem nodup_ids_sortedById (claims : List Claim) : ((sortedById claims).map Claim.id).Nodup :=
  List.pairwise_map.mpr ((pairwise_sortedById claims).imp fun h => h.ne)

theorem mem_of_mem_sortedById (h : c ∈ sortedById claims) : c ∈ claims :=
  List.mem_of_find?_eq_some (mem_sortedById.mp h)

theorem mem_sortedById_append (h : c ∈ sortedById bucket) : c ∈ sortedById (bucket ++ extras) := by
  rw [mem_sortedById, List.find?_append, mem_sortedById.mp h]
  rfl

/-- Further claims without a property do not change what is kept of the claims with it. -/
theorem filter_sortedById_append {p : Claim → Bool} (h : ∀ e ∈ extras, p e = false) :
    (sortedById (bucket ++ extras)).filter p = (sortedById bucket).filter p := by
  have hnodup : ∀ claims, ((sortedById claims).filter p).Nodup := fun claims =>
    ((pairwise_sortedById claims).imp fun {a b} hab heq => (heq ▸ hab).ne rfl).filter p
  refine List.Perm.eq_of_pairwise (fun a b _ _ hab hba => absurd hba hab.asymm)
    ((pairwise_sortedById _).filter p) ((pairwise_sortedById _).filter p) ?_
  refine (List.perm_ext_iff_of_nodup (hnodup _) (hnodup _)).mpr fun c => ?_
  rw [List.mem_filter, List.mem_filter]
  refine and_congr_left fun hp => ⟨fun hc => ?_, mem_sortedById_append⟩
  rw [mem_sortedById, List.find?_append] at hc
  cases hfind : bucket.find? (fun a => a.id = c.id) with
  | none =>
    rw [hfind, Option.none_or] at hc
    rw [h c (List.mem_of_find?_eq_some hc)] at hp
    cases hp
  | some d =>
    rw [hfind] at hc
    obtain rfl := Option.some.inj hc
    exact mem_sortedById.mpr hfind

/-! ## Groups of one kind -/

/-- No group has both assessed and unassessed members. -/
def Unmixed (evidence : List Evidence) : Prop :=
  ∀ e ∈ evidence, ∀ e' ∈ evidence, e.group.key = e'.group.key → e.group.assessed = e'.group.assessed

section Unmixed

variable {evidence evidence' : List Evidence}

theorem Unmixed.all_assessed (h : Unmixed evidence) {e : Evidence} (he : e ∈ evidence) :
    ((groupMembers evidence e.group.key).all fun e' => e'.group.assessed) = e.group.assessed := by
  unfold groupMembers
  rw [List.all_filter, Bool.eq_iff_iff, List.all_eq_true]
  constructor
  · intro hall
    simpa using hall e he
  · intro ha e' he'
    by_cases hk : e'.group.key = e.group.key
    · simp [hk, h e' he' e he hk, ha]
    · simp [hk]

/-- The assessed groups are the groups of the assessed items, and so are the unassessed ones. -/
theorem Unmixed.groupTotals_filter (h : Unmixed evidence) (assessed : Bool) :
    (groupTotals discountBps evidence).filter (fun g => g.2.1 == assessed) =
      groupTotals discountBps (evidence.filter fun e => e.group.assessed == assessed) := by
  have hkeys : (groupKeys evidence).filter (fun key =>
      ((groupMembers evidence key).all fun e => e.group.assessed) == assessed) =
      groupKeys (evidence.filter fun e => e.group.assessed == assessed) := by
    refine List.Perm.eq_of_pairwise' ((List.pairwise_insertionSort _ _).filter _)
      (List.pairwise_insertionSort _ _) ?_
    refine (List.perm_ext_iff_of_nodup ((nodup_groupKeys _).filter _) (nodup_groupKeys _)).mpr fun key => ?_
    rw [List.mem_filter, mem_groupKeys, mem_groupKeys]
    constructor
    · rintro ⟨⟨e, he, rfl⟩, ha⟩
      rw [h.all_assessed he] at ha
      exact ⟨e, List.mem_filter.mpr ⟨he, ha⟩, rfl⟩
    · rintro ⟨e, he, rfl⟩
      obtain ⟨he, ha⟩ := List.mem_filter.mp he
      rw [h.all_assessed he]
      exact ⟨⟨e, he, rfl⟩, ha⟩
  have hmembers : ∀ key ∈ groupKeys (evidence.filter fun e => e.group.assessed == assessed),
      groupMembers (evidence.filter fun e => e.group.assessed == assessed) key =
        groupMembers evidence key := by
    intro key hkey
    obtain ⟨e, he, rfl⟩ := mem_groupKeys.mp hkey
    obtain ⟨he, ha⟩ := List.mem_filter.mp he
    unfold groupMembers
    rw [List.filter_filter]
    refine List.filter_congr fun e' he' => ?_
    by_cases hk : e'.group.key = e.group.key
    · rw [h e' he' e he hk, ha, Bool.and_true]
    · simp [hk]
  unfold groupTotals
  rw [List.filter_map]
  refine (congrArg (List.map _) hkeys).trans (List.map_congr_left fun key hkey => ?_)
  rw [hmembers key hkey]

/-- The assessed items have one key, and no unassessed item has it. -/
structure OneAssessedKey (evidence : List Evidence) : Prop where
  one : ∀ e ∈ evidence, ∀ e' ∈ evidence, e.group.assessed = true → e'.group.assessed = true →
    e.group.key = e'.group.key
  apart : ∀ e ∈ evidence, ∀ e' ∈ evidence, e.group.assessed = true → e'.group.assessed = false →
    e.group.key ≠ e'.group.key

theorem OneAssessedKey.unmixed (h : OneAssessedKey evidence) : Unmixed evidence := by
  intro e he e' he' hk
  cases ha : e.group.assessed with
  | true =>
    cases ha' : e'.group.assessed with
    | true => rfl
    | false => exact absurd hk (h.apart e he e' he' ha ha')
  | false =>
    cases ha' : e'.group.assessed with
    | true => exact absurd hk.symm (h.apart e' he' e he ha' ha)
    | false => rfl

/-- The total of the assessed items, if there are any. -/
def assessedTotals (discountBps : ℕ) (evidence : List Evidence) : List ℤ :=
  if evidence.isEmpty then [] else [groupTotal discountBps evidence]

theorem OneAssessedKey.totals (h : OneAssessedKey evidence) :
    (groupTotals discountBps (evidence.filter fun e => e.group.assessed == true)).map Prod.fst =
      assessedTotals discountBps (evidence.filter fun e => e.group.assessed == true) := by
  have hmem : ∀ e ∈ evidence.filter fun e => e.group.assessed == true,
      e ∈ evidence ∧ e.group.assessed = true := by
    intro e he
    obtain ⟨he, ha⟩ := List.mem_filter.mp he
    exact ⟨he, eq_of_beq ha⟩
  generalize evidence.filter (fun e => e.group.assessed == true) = items at hmem ⊢
  cases items with
  | nil => rfl
  | cons e items =>
    have he := hmem e (List.mem_cons_self ..)
    rw [@groupTotals_of_one_key _ _ e.group.key (fun e' he' => ?_) (List.cons_ne_nil _ _)]
    · rfl
    · exact h.one e' (hmem e' he').1 e he.1 (hmem e' he').2 he.2

end Unmixed

section Rekey

variable {α : Type} {xs : List α} {f f' : α → Evidence}

/-- The aggregate of unmixed items is made by the assessed totals and the unassessed items. -/
theorem Unmixed.aggregateHierarchical_congr {evidence evidence' : List Evidence} (h : Unmixed evidence)
    (h' : Unmixed evidence') (hempty : evidence'.isEmpty = evidence.isEmpty)
    (htotals : (groupTotals discountBps (evidence'.filter fun e => e.group.assessed == true)).map
        Prod.fst =
      (groupTotals discountBps (evidence.filter fun e => e.group.assessed == true)).map Prod.fst)
    (hunassessed : (evidence'.filter fun e => e.group.assessed == false) =
      evidence.filter fun e => e.group.assessed == false)
    (unassessedDiscountBps : ℕ) :
    aggregateHierarchical evidence' discountBps unassessedDiscountBps =
      aggregateHierarchical evidence discountBps unassessedDiscountBps := by
  have hbool : ∀ evidence : List Evidence, (groupTotals discountBps evidence).filter (fun g => g.2.1) =
      (groupTotals discountBps evidence).filter fun g => g.2.1 == true := fun evidence =>
    List.filter_congr fun g _ => (beq_true g.2.1).symm
  have hbool' : ∀ evidence : List Evidence,
      (groupTotals discountBps evidence).filter (fun g => !g.2.1) =
      (groupTotals discountBps evidence).filter fun g => g.2.1 == false := fun evidence =>
    List.filter_congr fun g _ => (beq_false g.2.1).symm
  unfold aggregateHierarchical
  dsimp only
  rw [hempty, hbool, hbool, hbool', hbool', h.groupTotals_filter, h.groupTotals_filter,
    h'.groupTotals_filter, h'.groupTotals_filter, htotals, hunassessed]

/-- The key of the assessed items does not matter to the aggregate. -/
theorem aggregateHierarchical_rekey (h : OneAssessedKey (xs.map f)) (h' : OneAssessedKey (xs.map f'))
    (hlo : ∀ x ∈ xs, (f' x).lo = (f x).lo) (hid : ∀ x ∈ xs, (f' x).id = (f x).id)
    (hassessed : ∀ x ∈ xs, (f' x).group.assessed = (f x).group.assessed)
    (hunassessed : ∀ x ∈ xs, (f x).group.assessed = false → f' x = f x)
    (unassessedDiscountBps : ℕ) :
    aggregateHierarchical (xs.map f') discountBps unassessedDiscountBps =
      aggregateHierarchical (xs.map f) discountBps unassessedDiscountBps := by
  have hfilter : ∀ assessed : Bool,
      (xs.filter ((fun e : Evidence => e.group.assessed == assessed) ∘ f')) =
        xs.filter ((fun e : Evidence => e.group.assessed == assessed) ∘ f) := by
    intro assessed
    refine List.filter_congr fun x hx => ?_
    rw [Function.comp, Function.comp, hassessed x hx]
  have hunassessed' : (xs.map f').filter (fun e => e.group.assessed == false) =
      (xs.map f).filter fun e => e.group.assessed == false := by
    rw [List.filter_map, List.filter_map, hfilter]
    refine List.map_congr_left fun x hx => ?_
    obtain ⟨hx, ha⟩ := List.mem_filter.mp hx
    exact hunassessed x hx (eq_of_beq ha)
  have htotals : assessedTotals discountBps ((xs.map f').filter fun e => e.group.assessed == true) =
      assessedTotals discountBps ((xs.map f).filter fun e => e.group.assessed == true) := by
    rw [List.filter_map, List.filter_map, hfilter]
    unfold assessedTotals groupTotal
    rw [List.isEmpty_map, List.isEmpty_map, List.map_map, List.map_map]
    have hranked : (xs.filter ((fun e : Evidence => e.group.assessed == true) ∘ f)).map
        ((fun e => (e.lo.value, e.id)) ∘ f') =
        (xs.filter ((fun e : Evidence => e.group.assessed == true) ∘ f)).map
        ((fun e => (e.lo.value, e.id)) ∘ f) := by
      refine List.map_congr_left fun x hx => ?_
      have hx := List.mem_of_mem_filter hx
      show ((f' x).lo.value, (f' x).id) = ((f x).lo.value, (f x).id)
      rw [hlo x hx, hid x hx]
    rw [hranked]
  refine h.unmixed.aggregateHierarchical_congr h'.unmixed ?_ ?_ hunassessed' unassessedDiscountBps
  · rw [List.isEmpty_map, List.isEmpty_map]
  · rw [h.totals, h'.totals, htotals]

end Rekey

/-! ## The claims that count -/

/-- The claim has an author with a reputation. -/
def reputable (reputations : Reputations) (c : Claim) : Bool := (reputations c.origin).bps ≠ 0

/-- Count a claim of a new source. -/
def pick (s : List ClaimHash × List Claim) (c : Claim) : List ClaimHash × List Claim :=
  if c.evidenceSource ∈ s.1 then s else (s.1 ++ [c.evidenceSource], s.2 ++ [c])

/-- The sources counted and their claims. -/
def counted (reputations : Reputations) (claims : List Claim) : List ClaimHash × List Claim :=
  ((sortedById claims).filter (reputable reputations)).foldl pick ([], [])

/-- The evidence of a claim in its group. -/
def weighted (reputations : Reputations) (group : Claim → CorrelationGroup) (c : Claim) : Evidence :=
  ⟨(reputations c.origin).weightEvidence c.declaredConfidence, group c, c.id⟩

theorem foldl_gather (group : Claim → CorrelationGroup) (l : List Claim)
    (s : List ClaimHash × List Claim) :
    (l.map fun c => (c, group c)).foldl (gather reputations)
        (s.1, s.2.map (weighted reputations group)) =
      (((l.filter (reputable reputations)).foldl pick s).1,
        ((l.filter (reputable reputations)).foldl pick s).2.map (weighted reputations group)) := by
  induction l generalizing s with
  | nil => rfl
  | cons c l ih =>
    rw [List.map_cons, List.foldl_cons]
    by_cases hrep : (reputations c.origin).bps = 0
    · rw [List.filter_cons_of_neg (by simp [reputable, hrep]), gather, if_pos hrep]
      exact ih s
    · rw [List.filter_cons_of_pos (by simp [reputable, hrep]), List.foldl_cons, gather, if_neg hrep,
        pick]
      by_cases hsource : c.evidenceSource ∈ s.1
      · rw [if_pos hsource, if_pos hsource]
        exact ih s
      · rw [if_neg hsource, if_neg hsource, ← ih, List.map_append]
        rfl

theorem mem_foldl_pick {l : List Claim} {s : List ClaimHash × List Claim}
    (h : c ∈ (l.foldl pick s).2) : c ∈ s.2 ∨ c ∈ l := by
  induction l generalizing s with
  | nil => exact Or.inl h
  | cons d l ih =>
    rcases ih h with h | h
    · unfold pick at h
      split at h
      · exact Or.inl h
      · refine (List.mem_append.mp h).imp_right fun h => ?_
        rw [List.mem_singleton.mp h]
        exact List.mem_cons_self ..
    · exact Or.inr (List.mem_cons_of_mem _ h)

theorem mem_counted (h : c ∈ (counted reputations claims).2) :
    c ∈ sortedById claims ∧ reputable reputations c = true := by
  rcases mem_foldl_pick h with h | h
  · cases h
  · exact List.mem_filter.mp h

/-- The groups, as a function of the claims. -/
theorem exists_group (blake3 : Blake3) (claims : List Claim) (thresholdBits : ℕ) :
    ∃ group : Claim → CorrelationGroup,
      correlationGroups blake3 claims thresholdBits = claims.map group ∧
      ∀ c ∈ claims, IsGroup blake3 claims thresholdBits c (group c) := by
  have hgroup : ∀ c, ∃ g, c ∈ claims → IsGroup blake3 claims thresholdBits c g := by
    intro c
    by_cases hc : c ∈ claims
    · obtain ⟨i, hi⟩ := List.mem_iff_getElem?.mp hc
      obtain ⟨g, _, hspec⟩ := correlationGroups_isGroup blake3 thresholdBits hi
      exact ⟨g, fun _ => hspec⟩
    · exact ⟨⟨0, false⟩, fun h => absurd h hc⟩
  choose group hspec using hgroup
  refine ⟨group, List.ext_getElem (by simp) fun i hi hi' => ?_, hspec⟩
  rw [List.length_map] at hi'
  have hget := List.getElem?_eq_getElem hi'
  rw [List.getElem_map]
  exact (isGroup_of_getElem? hget (List.getElem?_eq_getElem hi)).unique
    (hspec _ (List.getElem_mem hi'))

/-! ## The summary -/

/-- What a summary says. -/
structure Reported where
  data : List Byte
  aggregatedLogodds : LogOdds
  uniqueSources : ℕ
  varianceMilli : ℤ
  rangeMin : LogOdds
  rangeMax : LogOdds
  tickStart : U64
  tickEnd : U64
deriving DecidableEq

/-- What a claim says as a summary. -/
def Claim.reported (c : Claim) : Option Reported :=
  match c.kind with
  | .summary _ tickStart tickEnd data aggregated uniqueSources variance rangeMin rangeMax =>
    some ⟨data, aggregated, uniqueSources, variance, rangeMin, rangeMax, tickStart, tickEnd⟩
  | _ => none

/-- What the summary of a bucket says. -/
def report (blake3 : Blake3) (claims : List Claim) (reputations : Reputations) (discountBps : ℕ) :
    Option Reported :=
  (reduceWithReputationCorrelated blake3 claims reputations discountBps).bind Claim.reported

/-- The data of the claim with the smallest id. -/
def representative (claims : List Claim) : Option (List Byte) :=
  (sortedById claims).head?.bind fun first => first.kind.data?

/-- The summary for the given evidence and ticks. -/
def reportOf (discountBps : ℕ) (sources : List ClaimHash) (evidence : List Evidence)
    (ticks : List U64) (data : List Byte) : Reported where
  data := data
  aggregatedLogodds := aggregateHierarchical evidence discountBps unassessedDiscountBps
  uniqueSources := sources.length % 2 ^ 32
  varianceMilli := varianceMilli (aggregateHierarchical evidence discountBps unassessedDiscountBps)
    ((evidence.map Evidence.lo).map LogOdds.value)
  rangeMin := extreme LogOdds.min .neutral (evidence.map Evidence.lo)
  rangeMax := extreme LogOdds.max .neutral (evidence.map Evidence.lo)
  tickStart := extreme min 0 ticks
  tickEnd := extreme max 0 ticks

/-- The items of a list, each with its image. -/
theorem zip_map_self {α β : Type*} (l : List α) (f : α → β) :
    l.zip (l.map f) = l.map fun x => (x, f x) := by
  have hzip : (l.map id).zip (l.map f) = l.map fun x => (id x, f x) := List.zip_map'
  rwa [List.map_id] at hzip

theorem gathered {group : Claim → CorrelationGroup}
    (hgroup : correlationGroups blake3 (sortedById claims) defaultSupportThreshold =
      (sortedById claims).map group) :
    ((sortedById claims).zip (correlationGroups blake3 (sortedById claims)
      defaultSupportThreshold)).foldl (gather reputations) ([], []) =
      ((counted reputations claims).1,
        (counted reputations claims).2.map (weighted reputations group)) := by
  rw [hgroup, zip_map_self]
  exact foldl_gather group (sortedById claims) ([], [])

theorem report_eq {group : Claim → CorrelationGroup}
    (hgroup : correlationGroups blake3 (sortedById claims) defaultSupportThreshold =
      (sortedById claims).map group) :
    report blake3 claims reputations discountBps = if canReduce claims then
        (representative claims).bind fun data =>
          if (counted reputations claims).2.isEmpty then none
          else some (reportOf discountBps (counted reputations claims).1
            ((counted reputations claims).2.map (weighted reputations group))
            ((sortedById claims).map Claim.tick) data)
      else none := by
  unfold report reduceWithReputationCorrelated representative
  by_cases hcan : canReduce claims = true
  · rw [if_pos hcan, if_pos hcan]
    dsimp only
    cases hfirst : (sortedById claims).head? with
    | none => rfl
    | some first =>
      rw [Option.bind_some, Option.bind_some]
      cases hdata : first.kind.data? with
      | none => rfl
      | some data =>
        rw [Option.bind_some, Option.bind_some, gathered hgroup]
        dsimp only
        rw [List.isEmpty_map]
        split
        · rfl
        · rfl
  · rw [if_neg hcan, if_neg hcan]
    rfl

/-! ### The tick window -/

/-- No kept claim is older or younger than all claims that were kept of the bucket alone. -/
def SameWindow (bucket extras : List Claim) : Prop :=
  ∀ e ∈ sortedById (bucket ++ extras),
    (∃ c ∈ sortedById bucket, c.tick ≤ e.tick) ∧ ∃ c ∈ sortedById bucket, e.tick ≤ c.tick

theorem extreme_min_spec {l : List U64} (hl : l ≠ []) :
    extreme min 0 l ∈ l ∧ ∀ x ∈ l, extreme min 0 l ≤ x := by
  cases l with
  | nil => exact absurd rfl hl
  | cons x xs => exact List.min?_eq_some_iff.mp List.min?_cons'

theorem extreme_max_spec {l : List U64} (hl : l ≠ []) :
    extreme max 0 l ∈ l ∧ ∀ x ∈ l, x ≤ extreme max 0 l := by
  cases l with
  | nil => exact absurd rfl hl
  | cons x xs => exact List.max?_eq_some_iff.mp List.max?_cons'

theorem sameWindow_iff (hne : sortedById bucket ≠ []) : SameWindow bucket extras ↔
    extreme min 0 ((sortedById (bucket ++ extras)).map Claim.tick) =
      extreme min 0 ((sortedById bucket).map Claim.tick) ∧
    extreme max 0 ((sortedById (bucket ++ extras)).map Claim.tick) =
      extreme max 0 ((sortedById bucket).map Claim.tick) := by
  have hne' : sortedById (bucket ++ extras) ≠ [] := by
    obtain ⟨c, hc⟩ := List.exists_mem_of_ne_nil _ hne
    exact List.ne_nil_of_mem (mem_sortedById_append hc)
  obtain ⟨hmin, hmin'⟩ := @extreme_min_spec ((sortedById bucket).map Claim.tick) (by simpa)
  obtain ⟨hmax, hmax'⟩ := @extreme_max_spec ((sortedById bucket).map Claim.tick) (by simpa)
  obtain ⟨hmins, hmins'⟩ :=
    @extreme_min_spec ((sortedById (bucket ++ extras)).map Claim.tick) (by simpa)
  obtain ⟨hmaxs, hmaxs'⟩ :=
    @extreme_max_spec ((sortedById (bucket ++ extras)).map Claim.tick) (by simpa)
  have hsub : ∀ x ∈ (sortedById bucket).map Claim.tick,
      x ∈ (sortedById (bucket ++ extras)).map Claim.tick := by
    intro x hx
    obtain ⟨c, hc, rfl⟩ := List.mem_map.mp hx
    exact List.mem_map_of_mem (mem_sortedById_append hc)
  constructor
  · intro h
    constructor
    · obtain ⟨e, he, heq⟩ := List.mem_map.mp hmins
      obtain ⟨⟨c, hc, hle⟩, _⟩ := h e he
      refine le_antisymm (hmins' _ (hsub _ hmin)) ?_
      exact (hmin' _ (List.mem_map_of_mem hc)).trans (heq ▸ hle)
    · obtain ⟨e, he, heq⟩ := List.mem_map.mp hmaxs
      obtain ⟨_, c, hc, hle⟩ := h e he
      refine le_antisymm ?_ (hmaxs' _ (hsub _ hmax))
      exact (heq ▸ hle).trans (hmax' _ (List.mem_map_of_mem hc))
  · rintro ⟨hstart, hend⟩ e he
    obtain ⟨c, hc, hctick⟩ := List.mem_map.mp hmin
    obtain ⟨d, hd, hdtick⟩ := List.mem_map.mp hmax
    refine ⟨⟨c, hc, ?_⟩, d, hd, ?_⟩
    · rw [hctick, ← hstart]
      exact hmins' _ (List.mem_map_of_mem he)
    · rw [hdtick, ← hend]
      exact hmaxs' _ (List.mem_map_of_mem he)

/-! ### Further claims -/

/-- The reputable claims that are assessed within the bucket stay assessed. -/
def KeepsAssessed (reputations : Reputations) (bucket extras : List Claim) : Prop :=
  ∀ c ∈ sortedById bucket, (reputations c.origin).bps ≠ 0 → Assessed (sortedById bucket) c →
    Assessed (sortedById (bucket ++ extras)) c

/-- In a bucket, the assessed claims are one cluster. -/
theorem oneAssessedKey_weighted {group : Claim → CorrelationGroup} {l : List Claim}
    (hfingerprint : ∀ c ∈ claims, ∀ d ∈ claims, c.fingerprint = d.fingerprint)
    (hids : (claims.map Claim.id).Nodup) (hkeys : KeysDistinct blake3 claims)
    (hgroup : ∀ c ∈ claims, IsGroup blake3 claims defaultSupportThreshold c (group c))
    (hl : ∀ c ∈ l, c ∈ claims) :
    OneAssessedKey (l.map (weighted reputations group)) := by
  constructor
  · intro e he e' he' ha ha'
    obtain ⟨c, hc, rfl⟩ := List.mem_map.mp he
    obtain ⟨d, hd, rfl⟩ := List.mem_map.mp he'
    have hspec := hgroup c (hl c hc)
    have hspec' := hgroup d (hl d hd)
    have hca := hspec.assessed_iff.mp ha
    have hda := hspec'.assessed_iff.mp ha'
    refine (hspec.key_eq_iff hids hkeys hspec' hca hda).mpr (.rel _ _ ?_)
    have hembedding := hca.2 d (hl d hd) hda.1
      (congrArg SemanticFingerprint.primary (hfingerprint d (hl d hd) c (hl c hc)))
    exact ⟨hl c hc, hl d hd, hca, hda, withinThreshold_self hca.1 hembedding.symm⟩
  · intro e he e' he' ha ha'
    obtain ⟨c, hc, rfl⟩ := List.mem_map.mp he
    obtain ⟨d, hd, rfl⟩ := List.mem_map.mp he'
    have hspec := hgroup c (hl c hc)
    have hspec' := hgroup d (hl d hd)
    refine hspec.key_ne hkeys (hl d hd) hspec' (hspec.assessed_iff.mp ha) fun hda => ?_
    have ha'' : (group d).assessed = false := ha'
    rw [hspec'.assessed_iff.mpr hda] at ha''
    cases ha''

theorem canReduce_iff : canReduce claims = true ↔
    2 ≤ claims.length ∧ ∀ c ∈ claims, ∀ d ∈ claims, c.fingerprint = d.fingerprint := by
  unfold canReduce
  rw [Bool.and_eq_true, decide_eq_true_eq, List.all_eq_true]
  refine and_congr_right fun hlen => ?_
  cases claims with
  | nil => exact absurd hlen (by decide)
  | cons a claims =>
    have hbeq : ∀ c : Claim, (((a :: claims).head?.map Claim.fingerprint == some c.fingerprint) = true ↔
        a.fingerprint = c.fingerprint) := by simp
    constructor
    · intro h c hc d hd
      exact ((hbeq c).mp (h c hc)).symm.trans ((hbeq d).mp (h d hd))
    · intro h c hc
      exact (hbeq c).mpr (h a (List.mem_cons_self ..) c hc)

theorem counted_append (hzero : ∀ e ∈ extras, (reputations e.origin).bps = 0) :
    counted reputations (bucket ++ extras) = counted reputations bucket := by
  unfold counted
  rw [filter_sortedById_append fun e he => ?_]
  simp [reputable, hzero e he]

/-- The evidence is aggregated to the same value while no counted claim loses its assessment. -/
theorem aggregate_append {group group' : Claim → CorrelationGroup}
    (hfingerprint : ∀ c ∈ bucket ++ extras, ∀ d ∈ bucket ++ extras, c.fingerprint = d.fingerprint)
    (hkeys : KeysDistinct blake3 (bucket ++ extras)) (hkeeps : KeepsAssessed reputations bucket extras)
    (hgroup : ∀ c ∈ sortedById bucket,
      IsGroup blake3 (sortedById bucket) defaultSupportThreshold c (group c))
    (hgroup' : ∀ c ∈ sortedById (bucket ++ extras),
      IsGroup blake3 (sortedById (bucket ++ extras)) defaultSupportThreshold c (group' c)) :
    aggregateHierarchical ((counted reputations bucket).2.map (weighted reputations group'))
        discountBps unassessedDiscountBps =
      aggregateHierarchical ((counted reputations bucket).2.map (weighted reputations group))
        discountBps unassessedDiscountBps := by
  have hmem : ∀ c ∈ sortedById bucket, c ∈ bucket ++ extras := fun c hc =>
    List.mem_append_left _ (mem_of_mem_sortedById hc)
  have hmem' : ∀ c ∈ sortedById (bucket ++ extras), c ∈ bucket ++ extras := fun c hc =>
    mem_of_mem_sortedById hc
  have hcounted : ∀ c ∈ (counted reputations bucket).2, c ∈ sortedById bucket := fun c hc =>
    (mem_counted hc).1
  have hassessed : ∀ c ∈ (counted reputations bucket).2,
      (Assessed (sortedById (bucket ++ extras)) c ↔ Assessed (sortedById bucket) c) := by
    intro c hc
    obtain ⟨hsorted, hrep⟩ := mem_counted hc
    refine ⟨fun h => h.anti fun d hd => mem_sortedById_append hd, hkeeps c hsorted ?_⟩
    simpa [reputable] using hrep
  refine aggregateHierarchical_rekey ?_ ?_ ?_ ?_ (fun c hc => ?_) (fun c hc ha => ?_) _
  · exact oneAssessedKey_weighted (fun c hc d hd => hfingerprint c (hmem c hc) d (hmem d hd))
      (nodup_ids_sortedById _) (hkeys.mono hmem) hgroup hcounted
  · exact oneAssessedKey_weighted (fun c hc d hd => hfingerprint c (hmem' c hc) d (hmem' d hd))
      (nodup_ids_sortedById _) (hkeys.mono hmem') hgroup' fun c hc =>
        mem_sortedById_append (hcounted c hc)
  · exact fun c _ => rfl
  · exact fun c _ => rfl
  · show (group' c).assessed = (group c).assessed
    rw [Bool.eq_iff_iff, (hgroup c (hcounted c hc)).assessed_iff,
      (hgroup' c (mem_sortedById_append (hcounted c hc))).assessed_iff, hassessed c hc]
  · have ha' : (group c).assessed = false := ha
    have hnot : ¬ Assessed (sortedById bucket) c := by
      intro h
      rw [(hgroup c (hcounted c hc)).assessed_iff.mpr h] at ha'
      cases ha'
    unfold weighted
    rw [(hgroup c (hcounted c hc)).unassessed hnot,
      (hgroup' c (mem_sortedById_append (hcounted c hc))).unassessed
        (mt (hassessed c hc).mp hnot)]

/-- A bucket that has a summary can be reduced, and some claim of it counts. -/
theorem exists_of_report_isSome (hsome : (report blake3 claims reputations discountBps).isSome) :
    canReduce claims = true ∧ (counted reputations claims).2.isEmpty = false ∧
      ∃ data, representative claims = some data := by
  obtain ⟨group, hgroups, -⟩ := exists_group blake3 (sortedById claims) defaultSupportThreshold
  rw [report_eq hgroups] at hsome
  cases hcan : canReduce claims with
  | false =>
    rw [hcan] at hsome
    cases hsome
  | true =>
    rw [if_pos hcan] at hsome
    cases hdata : representative claims with
    | none =>
      rw [hdata] at hsome
      cases hsome
    | some data =>
      rw [hdata, Option.bind_some] at hsome
      cases hempty : (counted reputations claims).2.isEmpty with
      | false => exact ⟨rfl, rfl, data, rfl⟩
      | true =>
        rw [hempty] at hsome
        cases hsome

/-- All claims of the enlarged bucket have one fingerprint. -/
theorem canReduce_append (hcan : canReduce bucket = true)
    (hfingerprint : ∀ e ∈ extras, ∀ c ∈ bucket, e.fingerprint = c.fingerprint) :
    canReduce (bucket ++ extras) = true := by
  obtain ⟨hlen, hsame⟩ := canReduce_iff.mp hcan
  obtain ⟨c₀, hc₀⟩ := List.exists_mem_of_length_pos (Nat.lt_of_lt_of_le (by decide) hlen)
  have hall : ∀ c ∈ bucket ++ extras, c.fingerprint = c₀.fingerprint := by
    intro c hc
    rcases List.mem_append.mp hc with hc | hc
    · exact hsame c hc c₀ hc₀
    · exact hfingerprint c hc c₀ hc₀
  refine canReduce_iff.mpr ⟨?_, fun c hc d hd => (hall c hc).trans (hall d hd).symm⟩
  rw [List.length_append]
  exact hlen.trans (Nat.le_add_right _ _)

/-- Claims without reputation leave a summary alone exactly if they neither change its data nor its tick
window, as far as they leave the claims that count assessed. -/
theorem report_append (hsome : (report blake3 bucket reputations discountBps).isSome)
    (hfingerprint : ∀ e ∈ extras, ∀ c ∈ bucket, e.fingerprint = c.fingerprint)
    (hzero : ∀ e ∈ extras, (reputations e.origin).bps = 0)
    (hkeys : KeysDistinct blake3 (bucket ++ extras)) :
    (KeepsAssessed reputations bucket extras →
      representative (bucket ++ extras) = representative bucket → SameWindow bucket extras →
      report blake3 (bucket ++ extras) reputations discountBps =
        report blake3 bucket reputations discountBps) ∧
    (report blake3 (bucket ++ extras) reputations discountBps =
        report blake3 bucket reputations discountBps →
      representative (bucket ++ extras) = representative bucket ∧ SameWindow bucket extras) := by
  obtain ⟨group, hgroups, hgroup⟩ := exists_group blake3 (sortedById bucket) defaultSupportThreshold
  obtain ⟨group', hgroups', hgroup'⟩ :=
    exists_group blake3 (sortedById (bucket ++ extras)) defaultSupportThreshold
  obtain ⟨hcan, hevidence, data, hdata⟩ := exists_of_report_isSome hsome
  have hcan' := canReduce_append hcan hfingerprint
  have hne : sortedById bucket ≠ [] := by
    intro hnil
    rw [representative, hnil] at hdata
    cases hdata
  have hlo : ((counted reputations bucket).2.map (weighted reputations group')).map Evidence.lo =
      ((counted reputations bucket).2.map (weighted reputations group)).map Evidence.lo := by
    rw [List.map_map, List.map_map]
    rfl
  rw [report_eq hgroups, report_eq hgroups', if_pos hcan, if_pos hcan', counted_append hzero, hdata,
    Option.bind_some, hevidence, if_neg Bool.false_ne_true]
  constructor
  · intro hkeeps hdata' hwindow
    obtain ⟨hstart, hend⟩ := (sameWindow_iff hne).mp hwindow
    rw [hdata', Option.bind_some, if_neg Bool.false_ne_true, reportOf, reportOf, hstart, hend, hlo,
      aggregate_append (canReduce_iff.mp hcan').2 hkeys hkeeps hgroup hgroup']
  · intro hreport
    obtain ⟨data', hdata', hreport⟩ := Option.bind_eq_some_iff.mp hreport
    rw [if_neg Bool.false_ne_true] at hreport
    have hreport := Option.some.inj hreport
    refine ⟨?_, (sameWindow_iff hne).mpr ⟨?_, ?_⟩⟩
    · rw [hdata']
      exact congrArg some (congrArg Reported.data hreport)
    · exact congrArg Reported.tickStart hreport
    · exact congrArg Reported.tickEnd hreport

/-! ### A bucket of two claims -/

/-- Two claims of one author, of which the first one carries an embedding. -/
def twoInBucket : List Claim :=
  [{ plainClaim (uniformId 1) ⟨1000, isI32_1000⟩ with tick := 10, embedding := some zeroEmbedding },
    { plainClaim (uniformId 2) ⟨1000, isI32_1000⟩ with tick := 20 }]

/-- A claim of another author. -/
def strangerClaim (b : Byte) (data : List Byte) (tick : U64) (embedding : Option QuantizedEmbedding) :
    Claim :=
  { plainClaim (uniformId b) .neutral with
    origin := ⟨List.replicate 32 2, length_twos⟩
    kind := .observation 1 data
    tick := tick
    embedding := embedding }

/-- Only the author of the two claims has a reputation. -/
def onlyBucketAuthor : Reputations := fun origin => if origin = plainOrigin then .full else .zero

/-- A claim with the same data and embedding, inside the window. -/
theorem report_append_agreeing :
    report sampleHash (twoInBucket ++ [strangerClaim 0 [] 15 (some zeroEmbedding)]) onlyBucketAuthor
        defaultDiscountBps =
      report sampleHash twoInBucket onlyBucketAuthor defaultDiscountBps ∧
    (report sampleHash twoInBucket onlyBucketAuthor defaultDiscountBps).isSome := by
  have hsome : (report sampleHash twoInBucket onlyBucketAuthor defaultDiscountBps).isSome := by
    decide +kernel
  have hkeys : KeysDistinct sampleHash
      (twoInBucket ++ [strangerClaim 0 [] 15 (some zeroEmbedding)]) := by
    have hinputs : keyInputs (twoInBucket ++ [strangerClaim 0 [] 15 (some zeroEmbedding)]) ⊆
        {clusterInput (uniformId 0), clusterInput (uniformId 1), clusterInput (uniformId 2),
          originInput plainOrigin, originInput ⟨List.replicate 32 2, by simp⟩} := by
      have hids : ∀ c ∈ twoInBucket ++ [strangerClaim 0 [] 15 (some zeroEmbedding)],
          c.id = uniformId 0 ∨ c.id = uniformId 1 ∨ c.id = uniformId 2 := by decide
      have horigins : ∀ c ∈ twoInBucket ++ [strangerClaim 0 [] 15 (some zeroEmbedding)],
          c.origin = plainOrigin ∨ c.origin = ⟨List.replicate 32 2, by simp⟩ := by decide
      have hcells : ∀ c ∈ twoInBucket ++ [strangerClaim 0 [] 15 (some zeroEmbedding)],
          c.correlationCell = none := by decide
      rintro input ⟨c, hc, rfl | rfl | ⟨cell, hcell, -⟩⟩
      · rcases hids c hc with h | h | h <;> simp [h]
      · rcases horigins c hc with h | h <;> simp [h]
      · rw [hcells c hc] at hcell
        cases hcell
    refine Set.InjOn.mono hinputs ?_
    rintro x (rfl | rfl | rfl | rfl | rfl) y (rfl | rfl | rfl | rfl | rfl) heq
    all_goals first | rfl | exact absurd heq (by decide +kernel)
  refine ⟨(report_append hsome (by decide +kernel) (by decide +kernel) hkeys).1 ?_ ?_ ?_, hsome⟩
  · unfold KeepsAssessed Assessed
    decide +kernel
  · decide +kernel
  · unfold SameWindow
    decide +kernel

/-- A claim with a smaller id replaces the data, a younger one widens the window, and one with another
embedding makes independent evidence correlated. -/
theorem strangerClaim_noticed :
    (report sampleHash twoInBucket onlyBucketAuthor defaultDiscountBps).isSome ∧
    (onlyBucketAuthor (strangerClaim 0 [7] 15 none).origin).bps = 0 ∧
    (report sampleHash (twoInBucket ++ [strangerClaim 0 [7] 15 none]) onlyBucketAuthor
      defaultDiscountBps).map Reported.data = some [7] ∧
    (report sampleHash twoInBucket onlyBucketAuthor defaultDiscountBps).map Reported.data =
      some [] ∧
    (report sampleHash (twoInBucket ++ [strangerClaim 3 [] 30 none]) onlyBucketAuthor
      defaultDiscountBps).map Reported.tickEnd = some 30 ∧
    (report sampleHash twoInBucket onlyBucketAuthor defaultDiscountBps).map Reported.tickEnd =
      some 20 ∧
    (report sampleHash (twoInBucket ++ [strangerClaim 3 [] 15 (some ⟨[1, 0, 0, 0], rfl⟩)])
      onlyBucketAuthor defaultDiscountBps).map (fun r => r.aggregatedLogodds.value) = some 1300 ∧
    (report sampleHash twoInBucket onlyBucketAuthor defaultDiscountBps).map
      (fun r => r.aggregatedLogodds.value) = some 2000 := by
  decide +kernel

end Aimp.Epistemic
