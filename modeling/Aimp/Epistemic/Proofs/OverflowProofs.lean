import Aimp.Epistemic.Checked
import Aimp.Epistemic.Proofs.SumProofs

/-!
# Where the aggregation overflows

The overflow checks succeed exactly when a condition on the evidence in exact arithmetic holds, and then
they give the result without checks (`checkedAggregateCorrelated_eq_some_iff`,
`checkedAggregateHierarchical_eq_some_iff`): no two items are ranked of which one has no absolute value,
and no factor and no product of a ranked value with its factor leaves its type.
-/

namespace Aimp.Epistemic

/-! ## Factors -/

/-- The factor after `n` rounds, in exact arithmetic. -/
def exactFactor (discountBps n : ℕ) : ℕ := (fun factor => factor * discountBps / 10000)^[n] 10000

theorem exactFactor_succ (discountBps n : ℕ) :
    exactFactor discountBps (n + 1) = exactFactor discountBps n * discountBps / 10000 :=
  Function.iterate_succ_apply' ..

/-- Every product on the way to the factor of a rank fits into a `u64`. -/
def FactorFits (discountBps rank : ℕ) : Prop :=
  ∀ k < min rank maxDiscountDepth, exactFactor discountBps k * discountBps < 2 ^ 64

/-- Applying a function to all items succeeds exactly if it does for each of them. -/
theorem mapM_eq_some_iff {α β : Type} {f : α → Option β} {ok : α → Prop} {g : α → β}
    (hf : ∀ x y, f x = some y ↔ ok x ∧ y = g x) {l : List α} {ys : List β} :
    l.mapM f = some ys ↔ (∀ x ∈ l, ok x) ∧ ys = l.map g := by
  induction l generalizing ys with
  | nil => simp [eq_comm]
  | cons x l ih =>
    rw [List.mapM_cons, List.map_cons, List.forall_mem_cons]
    simp only [Option.bind_eq_bind, Option.bind_eq_some_iff, hf, ih, Option.pure_def, Option.some_inj]
    constructor
    · rintro ⟨_, ⟨hx, rfl⟩, _, ⟨hrest, rfl⟩, rfl⟩
      exact ⟨⟨hx, hrest⟩, rfl⟩
    · rintro ⟨⟨hx, hrest⟩, rfl⟩
      exact ⟨_, ⟨hx, rfl⟩, _, ⟨hrest, rfl⟩, rfl⟩

theorem checkedU64_eq_some_iff {x y : ℕ} : checkedU64 x = some y ↔ x < 2 ^ 64 ∧ y = x := by
  unfold checkedU64
  split <;> simp_all [eq_comm]

theorem checkedI64_eq_some_iff {x y : ℤ} :
    checkedI64 x = some y ↔ (i64Min ≤ x ∧ x ≤ i64Max) ∧ y = x := by
  unfold checkedI64
  split <;> simp_all [eq_comm]

theorem iterate_checkedDiscountRound (discountBps : ℕ) {n factor : ℕ} :
    (checkedDiscountRound discountBps)^[n] (some 10000) = some factor ↔
      (∀ k < n, exactFactor discountBps k * discountBps < 2 ^ 64) ∧
        factor = exactFactor discountBps n := by
  induction n generalizing factor with
  | zero =>
    rw [Function.iterate_zero_apply, Option.some_inj, eq_comm]
    exact (and_iff_right fun k hk => absurd hk (Nat.not_lt_zero k)).symm
  | succ n ih =>
    rw [Function.iterate_succ_apply', checkedDiscountRound, exactFactor_succ]
    simp only [Option.bind_eq_bind, Option.bind_eq_some_iff, ih, checkedU64_eq_some_iff,
      Option.pure_def, Option.some_inj]
    constructor
    · rintro ⟨_, ⟨hfits, rfl⟩, _, ⟨hlt, rfl⟩, rfl⟩
      refine ⟨fun k hk => ?_, rfl⟩
      rcases Nat.lt_succ_iff_lt_or_eq.mp hk with hk | rfl
      · exact hfits k hk
      · exact hlt
    · rintro ⟨hfits, rfl⟩
      exact ⟨_, ⟨fun k hk => hfits k (by omega), rfl⟩, _, ⟨hfits n (by omega), rfl⟩, rfl⟩

/-- Factors that fit are not cut off. -/
theorem discountFactor_eq_exactFactor {discountBps rank : ℕ} (h : FactorFits discountBps rank) :
    discountFactor rank discountBps = exactFactor discountBps (min rank maxDiscountDepth) := by
  unfold discountFactor FactorFits at *
  generalize min rank maxDiscountDepth = n at h ⊢
  induction n with
  | zero => rfl
  | succ n ih =>
    rw [Function.iterate_succ_apply', ih fun k hk => h k (by omega), exactFactor_succ,
      Nat.mod_eq_of_lt (h n (by omega))]

theorem checkedDiscountFactor_eq_some_iff {discountBps rank factor : ℕ} :
    checkedDiscountFactor rank discountBps = some factor ↔
      FactorFits discountBps rank ∧ factor = discountFactor rank discountBps := by
  rw [checkedDiscountFactor, iterate_checkedDiscountRound]
  refine and_congr_right fun h => ?_
  rw [discountFactor_eq_exactFactor h]

/-! ## Ranked values -/

/-- The factor of every rank and the product of every value with its factor fit. -/
def RankedFits (discountBps : ℕ) : ℕ → List ℤ → Prop
  | _, [] => True
  | rank, x :: xs =>
    FactorFits discountBps rank ∧
      (i64Min ≤ x * exactFactor discountBps (min rank maxDiscountDepth) ∧
        x * exactFactor discountBps (min rank maxDiscountDepth) ≤ i64Max) ∧
      RankedFits discountBps (rank + 1) xs

theorem checkedAddDiscounted_eq_some_iff {discountBps rank : ℕ} {total result : ℤ} {l : List ℤ} :
    checkedAddDiscounted discountBps rank total l = some result ↔
      RankedFits discountBps rank l ∧ result = addDiscounted discountBps rank total l := by
  induction l generalizing rank total with
  | nil => simp [checkedAddDiscounted, RankedFits, addDiscounted, eq_comm]
  | cons x l ih =>
    rw [checkedAddDiscounted, RankedFits, addDiscounted]
    simp only [Option.bind_eq_bind, Option.bind_eq_some_iff, checkedDiscountFactor_eq_some_iff,
      checkedI64_eq_some_iff, ih, wrapI64_discountFactor]
    constructor
    · rintro ⟨_, ⟨hfactor, rfl⟩, _, ⟨hprod, rfl⟩, hrest, rfl⟩
      rw [wrapI64_discountFactor, discountFactor_eq_exactFactor hfactor] at hprod
      refine ⟨⟨hfactor, hprod, hrest⟩, ?_⟩
      rw [wrapI64_discountFactor, discountFactor_eq_exactFactor hfactor,
        wrapI64_of_mem hprod.1 hprod.2]
    · rintro ⟨⟨hfactor, hprod, hrest⟩, rfl⟩
      have hexact := discountFactor_eq_exactFactor hfactor
      refine ⟨_, ⟨hfactor, rfl⟩, _, ⟨?_, rfl⟩, hrest, ?_⟩
      · rwa [wrapI64_discountFactor, hexact]
      · rw [wrapI64_discountFactor, hexact, wrapI64_of_mem hprod.1 hprod.2]

/-- The terms of ranked values, in exact arithmetic. -/
def exactTerms (discountBps : ℕ) : ℕ → List ℤ → List ℤ
  | _, [] => []
  | rank, x :: xs =>
    (x * exactFactor discountBps (min rank maxDiscountDepth)).tdiv 10000 ::
      exactTerms discountBps (rank + 1) xs

theorem addDiscounted_eq_exactTerms {discountBps rank : ℕ} {total : ℤ} {l : List ℤ}
    (h : RankedFits discountBps rank l) :
    addDiscounted discountBps rank total l =
      (exactTerms discountBps rank l).foldl saturatingAdd total := by
  induction l generalizing rank total with
  | nil => rfl
  | cons x l ih =>
    obtain ⟨hfactor, hprod, hrest⟩ := h
    rw [addDiscounted, exactTerms, List.foldl_cons, wrapI64_discountFactor,
      discountFactor_eq_exactFactor hfactor, wrapI64_of_mem hprod.1 hprod.2, ih hrest]

/-! ## Rankings -/

/-- At most one item is ranked, or all of them have an absolute value. -/
def SortFits (min : ℤ) (l : List (ℤ × ClaimHash)) : Prop := l.length < 2 ∨ ∀ p ∈ l, p.1 ≠ min

theorem checkedAbs_eq_some_iff {min x y : ℤ} :
    checkedAbs min x = some y ↔ x ≠ min ∧ y = absWrap min x := by
  unfold checkedAbs absWrap
  split <;> simp_all [eq_comm]

theorem checkedStronger_eq_some_iff {min : ℤ} {a b : ℤ × ClaimHash} {stronger : Bool} :
    checkedStronger min a b = some stronger ↔
      (a.1 ≠ min ∧ b.1 ≠ min) ∧ stronger = decide (strongerOrEqual min a b) := by
  unfold checkedStronger strongerOrEqual
  simp only [Option.bind_eq_bind, Option.bind_eq_some_iff, checkedAbs_eq_some_iff, Option.pure_def,
    Option.some_inj]
  constructor
  · rintro ⟨_, ⟨hb, rfl⟩, _, ⟨ha, rfl⟩, rfl⟩
    exact ⟨⟨ha, hb⟩, rfl⟩
  · rintro ⟨⟨ha, hb⟩, rfl⟩
    exact ⟨_, ⟨hb, rfl⟩, _, ⟨ha, rfl⟩, rfl⟩

/-- An insertion that compares at least once needs the absolute values of the first two items. -/
theorem checkedInsert_cons {min : ℤ} {a b : ℤ × ClaimHash} {l l' : List (ℤ × ClaimHash)}
    (h : checkedInsert min a (b :: l) = some l') : a.1 ≠ min ∧ b.1 ≠ min := by
  rw [checkedInsert] at h
  obtain ⟨stronger, hstronger, _⟩ := Option.bind_eq_some_iff.mp h
  exact (checkedStronger_eq_some_iff.mp hstronger).1

theorem checkedInsert_of_fits {min : ℤ} {a : ℤ × ClaimHash} {l : List (ℤ × ClaimHash)}
    (ha : a.1 ≠ min) (hl : ∀ p ∈ l, p.1 ≠ min) :
    checkedInsert min a l = some (l.orderedInsert (strongerOrEqual min) a) := by
  induction l with
  | nil => rfl
  | cons b l ih =>
    have hstronger := checkedStronger_eq_some_iff.mpr ⟨⟨ha, hl b (List.mem_cons_self ..)⟩, rfl⟩
    rw [checkedInsert, hstronger, List.orderedInsert_cons,
      ih fun p hp => hl p (List.mem_cons_of_mem b hp)]
    by_cases h : strongerOrEqual min a b <;> simp [h]

/-- An insertion into a ranking that is not empty needs all absolute values. -/
theorem checkedInsert_sorted {min : ℤ} {a : ℤ × ClaimHash} {l l' : List (ℤ × ClaimHash)}
    (hne : l ≠ []) (hfits : SortFits min l)
    (h : checkedInsert min a (l.insertionSort (strongerOrEqual min)) = some l') :
    ∀ p ∈ a :: l, p.1 ≠ min := by
  cases hsorted : l.insertionSort (strongerOrEqual min) with
  | nil =>
    have hlength := List.length_insertionSort (strongerOrEqual min) l
    rw [hsorted] at hlength
    exact absurd (List.length_eq_zero_iff.mp hlength.symm) hne
  | cons b s =>
    rw [hsorted] at h
    obtain ⟨ha, hb⟩ := checkedInsert_cons h
    intro p hp
    rcases List.mem_cons.mp hp with rfl | hp
    · exact ha
    rcases hfits with hshort | hall
    · -- the only item of the ranking is the one compared
      have hlength := List.length_insertionSort (strongerOrEqual min) l
      rw [hsorted, List.length_cons] at hlength
      rw [← List.mem_insertionSort (strongerOrEqual min), hsorted,
        List.length_eq_zero_iff.mp (by omega : s.length = 0), List.mem_singleton] at hp
      exact hp ▸ hb
    · exact hall p hp

theorem checkedSort_eq_some_iff {min : ℤ} {l l' : List (ℤ × ClaimHash)} :
    checkedSort min l = some l' ↔
      SortFits min l ∧ l' = l.insertionSort (strongerOrEqual min) := by
  induction l generalizing l' with
  | nil => simp [checkedSort, SortFits, eq_comm]
  | cons a l ih =>
    rw [checkedSort, List.insertionSort_cons]
    simp only [Option.bind_eq_bind, Option.bind_eq_some_iff, ih]
    have hinsert : ∀ h : (∀ p ∈ a :: l, p.1 ≠ min),
        checkedInsert min a (l.insertionSort (strongerOrEqual min)) =
          some ((l.insertionSort (strongerOrEqual min)).orderedInsert (strongerOrEqual min) a) :=
      fun h => checkedInsert_of_fits (h a (List.mem_cons_self ..)) fun p hp =>
        h p (List.mem_cons_of_mem a ((List.mem_insertionSort _).mp hp))
    constructor
    · rintro ⟨_, ⟨hfits, rfl⟩, hsome⟩
      by_cases hne : l = []
      · subst hne
        exact ⟨Or.inl (Nat.lt_succ_self 1), (Option.some_inj.mp hsome).symm⟩
      · have hall := checkedInsert_sorted hne hfits hsome
        rw [hinsert hall] at hsome
        exact ⟨Or.inr hall, (Option.some_inj.mp hsome).symm⟩
    · rintro ⟨hfits, rfl⟩
      refine ⟨_, ⟨?_, rfl⟩, ?_⟩
      · rcases hfits with hshort | hall
        · exact Or.inl (lt_trans (Nat.lt_succ_self _) hshort)
        · exact Or.inr fun p hp => hall p (List.mem_cons_of_mem a hp)
      · rcases hfits with hshort | hall
        · rw [List.length_cons] at hshort
          rw [List.length_eq_zero_iff.mp (by omega : l.length = 0)]
          rfl
        · exact hinsert hall

/-! ## Cells -/

/-- The items of a cell. -/
def cellItems (evidence : List CellEvidence) (key : U64) : List (ℤ × ClaimHash) :=
  (evidence.filter fun e => e.cell = some key).map fun e => (e.lo.value, e.id)

/-- Every cell can be ranked and discounted. -/
def CellsFit (discountBps : ℕ) (evidence : List CellEvidence) : Prop :=
  ∀ key ∈ cellKeys evidence, SortFits i32Min (cellItems evidence key) ∧
    RankedFits discountBps 0 (cellRanked evidence key)

theorem checkedCell_eq_some_iff {evidence : List CellEvidence} {discountBps : ℕ} {total result : ℤ}
    {key : U64} :
    checkedCell evidence discountBps total key = some result ↔
      (SortFits i32Min (cellItems evidence key) ∧
        RankedFits discountBps 0 (cellRanked evidence key)) ∧
      result = addDiscounted discountBps 0 total (cellRanked evidence key) := by
  unfold checkedCell
  simp only [Option.bind_eq_bind, Option.bind_eq_some_iff, checkedSort_eq_some_iff,
    checkedAddDiscounted_eq_some_iff]
  constructor
  · rintro ⟨_, ⟨hsort, rfl⟩, hranked, rfl⟩
    exact ⟨⟨hsort, hranked⟩, rfl⟩
  · rintro ⟨⟨hsort, hranked⟩, rfl⟩
    exact ⟨_, ⟨hsort, rfl⟩, hranked, rfl⟩

theorem foldlM_checkedCell {evidence : List CellEvidence} {discountBps : ℕ} {keys : List U64}
    {total result : ℤ} :
    keys.foldlM (checkedCell evidence discountBps) total = some result ↔
      (∀ key ∈ keys, SortFits i32Min (cellItems evidence key) ∧
        RankedFits discountBps 0 (cellRanked evidence key)) ∧
      result = keys.foldl
        (fun total key => addDiscounted discountBps 0 total (cellRanked evidence key)) total := by
  induction keys generalizing total with
  | nil => simp [eq_comm]
  | cons key keys ih =>
    rw [List.foldlM_cons, List.foldl_cons, List.forall_mem_cons]
    simp only [Option.bind_eq_bind, Option.bind_eq_some_iff, checkedCell_eq_some_iff, ih]
    constructor
    · rintro ⟨_, ⟨hfits, rfl⟩, hrest, rfl⟩
      exact ⟨⟨hfits, hrest⟩, rfl⟩
    · rintro ⟨⟨hfits, hrest⟩, rfl⟩
      exact ⟨_, ⟨hfits, rfl⟩, hrest, rfl⟩

theorem checkedAggregateCorrelated_eq_some_iff {evidence : List CellEvidence} {discountBps : ℕ}
    {lo : LogOdds} :
    checkedAggregateCorrelated evidence discountBps = some lo ↔
      CellsFit discountBps evidence ∧ lo = aggregateCorrelated evidence discountBps := by
  unfold checkedAggregateCorrelated aggregateCorrelated CellsFit
  cases evidence with
  | nil => simp [cellKeys, eq_comm]
  | cons e evidence =>
    simp only [List.isEmpty_cons, Bool.false_eq_true, if_false, Option.bind_eq_bind,
      Option.bind_eq_some_iff, foldlM_checkedCell, Option.pure_def, Option.some_inj]
    constructor
    · rintro ⟨_, ⟨hfits, rfl⟩, rfl⟩
      exact ⟨hfits, rfl⟩
    · rintro ⟨hfits, rfl⟩
      exact ⟨_, ⟨hfits, rfl⟩, rfl⟩

/-! ## Groups -/

/-- The items of a group. -/
def groupItems (evidence : List Evidence) (key : U64) : List (ℤ × ClaimHash) :=
  (groupMembers evidence key).map fun e => (e.lo.value, e.id)

/-- The unassessed groups with their totals in exact arithmetic. -/
def exactUnassessed (discountBps : ℕ) (evidence : List Evidence) : List (ℤ × ClaimHash) :=
  ((groupKeys evidence).filter fun key => !allAssessed evidence key).map fun key =>
    ((exactTerms discountBps 0 (memberRanked evidence key)).foldl saturatingAdd 0,
      minHash ((groupMembers evidence key).map Evidence.id))

/-- Every group can be ranked and discounted, and so can the unassessed groups. -/
def GroupsFit (discountBps unassessedDiscountBps : ℕ) (evidence : List Evidence) : Prop :=
  (∀ key ∈ groupKeys evidence, SortFits i32Min (groupItems evidence key) ∧
      RankedFits discountBps 0 (memberRanked evidence key)) ∧
    SortFits i64Min (exactUnassessed discountBps evidence) ∧
    RankedFits unassessedDiscountBps 0
      ((((exactUnassessed discountBps evidence).insertionSort (strongerOrEqual i64Min)).take
        maxDiscountDepth).map Prod.fst)

section Groups

variable {evidence : List Evidence} {discountBps : ℕ}

theorem unassessedGroupTotals_eq_exact
    (h : ∀ key ∈ groupKeys evidence, RankedFits discountBps 0 (memberRanked evidence key)) :
    unassessedGroupTotals discountBps evidence = exactUnassessed discountBps evidence := by
  unfold unassessedGroupTotals groupTotals exactUnassessed
  rw [List.filter_map, List.map_map]
  refine List.map_congr_left fun key hkey => ?_
  have hfits := h key (List.mem_of_mem_filter hkey)
  exact Prod.ext (addDiscounted_eq_exactTerms hfits) rfl

theorem checkedGroup_eq_some_iff {key : U64} {g : ℤ × Bool × ClaimHash} :
    checkedGroup evidence discountBps key = some g ↔
      (SortFits i32Min (groupItems evidence key) ∧
        RankedFits discountBps 0 (memberRanked evidence key)) ∧
      g = (groupTotal discountBps (groupMembers evidence key),
        (groupMembers evidence key).all fun e => e.group.assessed,
        minHash ((groupMembers evidence key).map Evidence.id)) := by
  unfold checkedGroup
  simp only [Option.bind_eq_bind, Option.bind_eq_some_iff, checkedSort_eq_some_iff,
    checkedAddDiscounted_eq_some_iff, Option.pure_def, Option.some_inj]
  constructor
  · rintro ⟨_, ⟨hsort, rfl⟩, _, ⟨hranked, rfl⟩, rfl⟩
    exact ⟨⟨hsort, hranked⟩, rfl⟩
  · rintro ⟨⟨hsort, hranked⟩, rfl⟩
    exact ⟨_, ⟨hsort, rfl⟩, _, ⟨hranked, rfl⟩, rfl⟩

theorem mapM_checkedGroup {keys : List U64} {groups : List (ℤ × Bool × ClaimHash)} :
    keys.mapM (checkedGroup evidence discountBps) = some groups ↔
      (∀ key ∈ keys, SortFits i32Min (groupItems evidence key) ∧
        RankedFits discountBps 0 (memberRanked evidence key)) ∧
      groups = keys.map fun key => (groupTotal discountBps (groupMembers evidence key),
        (groupMembers evidence key).all fun e => e.group.assessed,
        minHash ((groupMembers evidence key).map Evidence.id)) :=
  mapM_eq_some_iff fun _ _ => checkedGroup_eq_some_iff

theorem checkedAggregateHierarchical_eq_some_iff {unassessedDiscountBps : ℕ} {lo : LogOdds} :
    checkedAggregateHierarchical evidence discountBps unassessedDiscountBps = some lo ↔
      GroupsFit discountBps unassessedDiscountBps evidence ∧
        lo = aggregateHierarchical evidence discountBps unassessedDiscountBps := by
  rw [aggregateHierarchical_eq_levels]
  cases evidence with
  | nil =>
    have hfits : GroupsFit discountBps unassessedDiscountBps [] :=
      ⟨fun key hkey => absurd hkey List.not_mem_nil, Or.inl Nat.zero_lt_two, trivial⟩
    exact ⟨fun h => ⟨hfits, (Option.some_inj.mp h).symm⟩, fun h => congrArg some h.2.symm⟩
  | cons e evidence =>
    unfold checkedAggregateHierarchical GroupsFit
    simp only [List.isEmpty_cons, Bool.false_eq_true, if_false, Option.bind_eq_bind,
      Option.bind_eq_some_iff, mapM_checkedGroup, checkedSort_eq_some_iff,
      checkedAddDiscounted_eq_some_iff, Option.pure_def, Option.some_inj]
    constructor
    · rintro ⟨_, ⟨hfits, rfl⟩, _, ⟨hsort, rfl⟩, _, ⟨hranked, rfl⟩, rfl⟩
      have hexact := unassessedGroupTotals_eq_exact fun key hkey => (hfits key hkey).2
      rw [← hexact]
      exact ⟨⟨hfits, hsort, hranked⟩, rfl⟩
    · rintro ⟨⟨hfits, hsort, hranked⟩, rfl⟩
      rw [← unassessedGroupTotals_eq_exact fun key hkey => (hfits key hkey).2] at hsort hranked
      exact ⟨_, ⟨hfits, rfl⟩, _, ⟨hsort, rfl⟩, _, ⟨hranked, rfl⟩, rfl⟩

end Groups

/-! ## Aggregation -/

theorem inSafe_aggregateCorrelated (evidence : List CellEvidence) (discountBps : ℕ) :
    InSafe (aggregateCorrelated evidence discountBps) := by
  unfold aggregateCorrelated
  split
  · exact inSafe_neutral
  · exact inSafe_safe _

theorem inSafe_aggregateHierarchical (evidence : List Evidence)
    (discountBps unassessedDiscountBps : ℕ) :
    InSafe (aggregateHierarchical evidence discountBps unassessedDiscountBps) := by
  rw [aggregateHierarchical_eq_levels]
  exact inSafe_safe _

/-- Exactly where the aggregation overflows nowhere and stays in the safe range. -/
theorem aggregation_safe_iff (rank discountBps unassessedDiscountBps : ℕ) (cells : List CellEvidence)
    (evidence : List Evidence) :
    ((∃ factor, checkedDiscountFactor rank discountBps = some factor) ↔
        FactorFits discountBps rank) ∧
      ((∃ lo, checkedAggregateCorrelated cells discountBps = some lo ∧ InSafe lo) ↔
        CellsFit discountBps cells) ∧
      ((∃ lo, checkedAggregateHierarchical evidence discountBps unassessedDiscountBps = some lo ∧
          InSafe lo) ↔
        GroupsFit discountBps unassessedDiscountBps evidence) := by
  simp only [checkedDiscountFactor_eq_some_iff, checkedAggregateCorrelated_eq_some_iff,
    checkedAggregateHierarchical_eq_some_iff]
  refine ⟨⟨?_, ?_⟩, ⟨?_, ?_⟩, ?_, ?_⟩
  · rintro ⟨_, hfits, _⟩
    exact hfits
  · exact fun hfits => ⟨_, hfits, rfl⟩
  · rintro ⟨_, ⟨hfits, _⟩, _⟩
    exact hfits
  · exact fun hfits => ⟨_, ⟨hfits, rfl⟩, inSafe_aggregateCorrelated cells discountBps⟩
  · rintro ⟨_, ⟨hfits, _⟩, _⟩
    exact hfits
  · exact fun hfits => ⟨_, ⟨hfits, rfl⟩,
      inSafe_aggregateHierarchical evidence discountBps unassessedDiscountBps⟩

/-- `i32::MIN` next to another item of its group has no absolute value to rank it by, and the factor of
rank 30 at a discount of `u16::MAX` leaves the `u64`. -/
theorem aggregation_overflows :
    checkedAggregateCorrelated [⟨⟨i32Min, by decide⟩, some 1, numberedId 1⟩,
        ⟨⟨0, by decide⟩, some 1, numberedId 2⟩] defaultDiscountBps = none ∧
      checkedAggregateHierarchical [⟨⟨i32Min, by decide⟩, ⟨1, false⟩, numberedId 1⟩,
        ⟨⟨0, by decide⟩, ⟨1, false⟩, numberedId 2⟩] defaultDiscountBps unassessedDiscountBps = none ∧
      checkedDiscountFactor 30 65535 = none := by
  decide

end Aimp.Epistemic
