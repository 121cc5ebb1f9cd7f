import Aimp.Epistemic.Proofs.ReducerProofs

/-!
# Repeated claims

A list with some of its claims repeated is reduced to the same summary, but for the source count, which
counts the repetitions as well (`reduce_repeats`).
-/

namespace Aimp.Epistemic

variable {cs ds : List Claim}

/-- `ds` is `cs` with some of its claims repeated any number of times, each after the first claim of its
id. -/
structure Repeats (cs ds : List Claim) : Prop where
  sublist : cs.Sublist ds
  mem : ∀ c ∈ ds, c ∈ cs
  first : ∀ x, ds.find? (fun a => a.id = x) = cs.find? fun a => a.id = x

/-- If ids identify claims, it does not matter where the repetitions stand. -/
theorem Repeats.of_ids (hids : ∀ c ∈ cs, ∀ d ∈ cs, c.id = d.id → c = d) (hsub : cs.Sublist ds)
    (hmem : ∀ c ∈ ds, c ∈ cs) : Repeats cs ds := by
  refine ⟨hsub, hmem, fun x => ?_⟩
  cases hfind : ds.find? fun a => a.id = x with
  | none =>
    rw [List.find?_eq_none] at hfind
    exact (List.find?_eq_none.mpr fun c hc => hfind c (hsub.subset hc)).symm
  | some c =>
    have hc := hmem c (List.mem_of_find?_eq_some hfind)
    have hcx : c.id = x := by simpa using List.find?_some hfind
    obtain ⟨d, hd⟩ : ∃ d, cs.find? (fun a => a.id = x) = some d :=
      Option.isSome_iff_exists.mp (List.find?_isSome.mpr ⟨c, hc, by simpa using hcx⟩)
    have hdx : d.id = x := by simpa using List.find?_some hd
    rw [hd, hids d (List.mem_of_find?_eq_some hd) c hc (hdx.trans hcx.symm)]

theorem Repeats.sortedById (h : Repeats cs ds) : sortedById ds = sortedById cs :=
  sortedById_congr h.first

theorem Repeats.canReduce (h : Repeats cs ds) (hcs : canReduce cs = true) :
    canReduce ds = canReduce cs := by
  have hlen := (canReduce_iff.mp hcs).1
  exact canReduce_congr (iff_of_true (hlen.trans h.sublist.length_le) hlen) fun c =>
    ⟨h.mem c, fun hc => h.sublist.subset hc⟩

/-- Repetitions change nothing but the source count, and this unless their number is a multiple of
`2 ^ 32`. -/
theorem reduce_repeats (h : Repeats cs ds) (blake3 : Blake3) (reputations : Reputations)
    (discountBps : ℕ) :
    (∀ s, reduce blake3 cs = some s →
      reduce blake3 ds = some (s.withSourceCount (ds.length % 2 ^ 32)) ∧
      (reduce blake3 ds = some s ↔ ds.length ≡ cs.length [MOD 2 ^ 32])) ∧
    (∀ s, reduceWithReputationCorrelated blake3 cs reputations discountBps = some s →
      reduceWithReputationCorrelated blake3 ds reputations discountBps =
        some (s.withSourceCount (ds.length % 2 ^ 32)) ∧
      (reduceWithReputationCorrelated blake3 ds reputations discountBps = some s ↔
        ds.length ≡ cs.length [MOD 2 ^ 32])) := by
  constructor
  · intro s hs
    obtain ⟨hred, first, data, -, -, hsummary⟩ := reduce_eq_some.mp hs
    have hds := reduce_of_kept (h.canReduce hred) h.sortedById hs
    refine ⟨hds, ?_⟩
    rw [hds, Option.some.injEq, ← hsummary]
    exact withSourceCount_summaryOf
  · intro s hs
    obtain ⟨hred, first, data, -, -, -, hsummary⟩ := reduceWithReputationCorrelated_eq_some.mp hs
    have hds := reduceWithReputationCorrelated_of_kept (h.canReduce hred) h.sortedById hs
    refine ⟨hds, ?_⟩
    rw [hds, Option.some.injEq, ← hsummary]
    exact withSourceCount_summaryOf

theorem Repeats.self_append (hmem : ∀ c ∈ ds, c ∈ cs) : Repeats cs (cs ++ ds) := by
  refine ⟨List.sublist_append_left cs ds, fun c hc => ?_, fun x => ?_⟩
  · exact (List.mem_append.mp hc).elim id (hmem c)
  · rw [List.find?_append]
    cases hfind : cs.find? fun a => a.id = x with
    | none =>
      have hnone := List.find?_eq_none.mp hfind
      exact List.find?_eq_none.mpr fun c hc => hnone c (hmem c hc)
    | some c => rfl

/-- The second claim arrives twice. -/
theorem reduce_repeats_twoInBucket :
    (∃ s, reduce summaryHash twoInBucket = some s ∧
      (reduce summaryHash (twoInBucket ++ twoInBucket.drop 1) = some s ↔ 3 ≡ 2 [MOD 2 ^ 32])) ∧
    ∃ s, reduceWithReputationCorrelated summaryHash twoInBucket onlyBucketAuthor defaultDiscountBps =
        some s ∧
      (reduceWithReputationCorrelated summaryHash (twoInBucket ++ twoInBucket.drop 1)
        onlyBucketAuthor defaultDiscountBps = some s ↔ 3 ≡ 2 [MOD 2 ^ 32]) := by
  have hrepeats : Repeats twoInBucket (twoInBucket ++ twoInBucket.drop 1) :=
    Repeats.self_append fun c hc => List.mem_of_mem_drop hc
  obtain ⟨s, hs⟩ : ∃ s, reduce summaryHash twoInBucket = some s :=
    Option.isSome_iff_exists.mp (by decide +kernel)
  obtain ⟨t, ht⟩ : ∃ t, reduceWithReputationCorrelated summaryHash twoInBucket onlyBucketAuthor
      defaultDiscountBps = some t := Option.isSome_iff_exists.mp (by decide +kernel)
  obtain ⟨hreduce, hweighted⟩ :=
    reduce_repeats hrepeats summaryHash onlyBucketAuthor defaultDiscountBps
  exact ⟨⟨s, hs, (hreduce s hs).2⟩, t, ht, (hweighted t ht).2⟩

/-- The summaries of two claims, and of the same claims of which one arrived twice, have one id, but are
not the same. -/
theorem repetition_counted :
    Repeats twoInBucket (twoInBucket ++ twoInBucket.drop 1) ∧
    (∃ s t, reduce summaryHash twoInBucket = some s ∧
      reduce summaryHash (twoInBucket ++ twoInBucket.drop 1) = some t ∧ s.id = t.id ∧ s ≠ t) ∧
    ∃ s t, reduceWithReputationCorrelated summaryHash twoInBucket onlyBucketAuthor
        defaultDiscountBps = some s ∧
      reduceWithReputationCorrelated summaryHash (twoInBucket ++ twoInBucket.drop 1) onlyBucketAuthor
        defaultDiscountBps = some t ∧ s.id = t.id ∧ s ≠ t := by
  refine ⟨Repeats.self_append fun c hc => List.mem_of_mem_drop hc, ?_, ?_⟩
  · refine ⟨_, _, rfl, rfl, ?_, ?_⟩ <;> decide +kernel
  · refine ⟨_, _, rfl, rfl, ?_, ?_⟩ <;> decide +kernel

end Aimp.Epistemic
