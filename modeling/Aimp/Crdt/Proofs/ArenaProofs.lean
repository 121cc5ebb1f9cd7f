import Aimp.Crdt.Arena

/-!
# The node arena as a finite map

What each operation of `DagArena` does to `get_by_hash`. Callers use these and never unfold the slab.
-/

namespace Aimp.Crdt

namespace DagArena

theorem contains_iff {a : DagArena} {h : Hash32} :
    a.contains h = true ↔ ∃ n, a.getByHash h = some n := by
  unfold contains getByHash
  cases hl : a.hashToIndex.lookup h with
  | none => simp
  | some i =>
    obtain ⟨n, hn⟩ := Option.isSome_iff_exists.mp (a.occupied h i hl)
    simp [hn]

theorem getByHash_eq_none {a : DagArena} {h : Hash32} :
    a.getByHash h = none ↔ a.hashToIndex.lookup h = none := by
  have hc := contains_iff (a := a) (h := h)
  unfold contains at hc
  cases hg : a.getByHash h <;> cases hl : a.hashToIndex.lookup h <;> simp_all

@[simp] theorem getByHash_new (h : Hash32) : new.getByHash h = none := by
  simp [getByHash, new]

theorem getByHash_insertNew (a : DagArena) (h : Hash32) (n : DagNode)
    (hh : a.hashToIndex.lookup h = none) (k : Hash32) :
    (a.insertNew h n hh).getByHash k = if k = h then some n else a.getByHash k := by
  show ((a.hashToIndex.insert h _).lookup k).bind (a.slab.insert n).1.get = _
  by_cases hk : k = h
  · subst hk
    simp [Slab.get_insert]
  · rw [AList.lookup_insert_ne hk, if_neg hk]
    unfold getByHash
    cases hl : a.hashToIndex.lookup k with
    | none => rfl
    | some i => simp [Slab.get_insert, a.lookup_ne_vacantKey hl]

/-- Inserting under a hash that is present changes nothing. -/
theorem insert_of_contains {a : DagArena} {h : Hash32} {n : DagNode} (hc : a.contains h = true) :
    (a.insert h n).1 = a := by
  unfold contains at hc
  unfold insert
  split
  · rfl
  · simp_all

theorem getByHash_insert {a : DagArena} {h : Hash32} {n : DagNode} (hc : a.contains h = false)
    (k : Hash32) : (a.insert h n).1.getByHash k = if k = h then some n else a.getByHash k := by
  unfold contains at hc
  unfold insert
  split
  · simp_all
  · rename_i hh
    exact a.getByHash_insertNew h n hh k

theorem contains_insert {a : DagArena} {h k : Hash32} {n : DagNode} :
    (a.insert h n).1.contains k = true ↔ a.contains k = true ∨ k = h := by
  cases hc : a.contains h with
  | true =>
    rw [insert_of_contains hc]
    exact ⟨Or.inl, fun hor => hor.elim id fun heq => heq ▸ hc⟩
  | false =>
    rw [contains_iff, contains_iff]
    simp only [getByHash_insert hc]
    by_cases hk : k = h <;> simp [hk]

theorem getByHash_removeAt (a : DagArena) (h : Hash32) (i : ℕ)
    (hi : a.hashToIndex.lookup h = some i) (k : Hash32) :
    (a.removeAt h i hi).getByHash k = if k = h then none else a.getByHash k := by
  show ((a.hashToIndex.erase h).lookup k).bind (a.slab.remove i).get = _
  by_cases hk : k = h
  · subst hk
    simp
  · rw [AList.lookup_erase_ne hk, if_neg hk]
    unfold getByHash
    cases hl : a.hashToIndex.lookup k with
    | none => rfl
    | some j =>
      have hji : j ≠ i := by
        rintro rfl
        exact hk (a.distinct k h j hl hi)
      simp [Slab.get_remove, hji]

theorem getByHash_removeHash (a : DagArena) (h k : Hash32) :
    (a.removeHash h).getByHash k = if k = h then none else a.getByHash k := by
  unfold removeHash
  split
  · exact a.getByHash_removeAt h _ _ k
  · rename_i hl
    split
    · subst_vars
      exact getByHash_eq_none.mpr hl
    · rfl

theorem getByHash_foldl_removeHash (l : List Hash32) (a : DagArena) (k : Hash32) :
    (l.foldl removeHash a).getByHash k = if k ∈ l then none else a.getByHash k := by
  induction l generalizing a with
  | nil => simp
  | cons h l ih =>
    rw [List.foldl_cons, ih, getByHash_removeHash]
    by_cases hkl : k ∈ l <;> by_cases hkh : k = h <;> simp [hkl, hkh]

theorem getByHash_retain (a : DagArena) (keep : List Hash32) (k : Hash32) :
    (a.retain keep).1.getByHash k = if k ∈ keep then a.getByHash k else none := by
  unfold retain
  rw [getByHash_foldl_removeHash]
  by_cases hk : k ∈ keep
  · simp [hk]
  · simp only [List.mem_filter, hk, not_false_eq_true, decide_true, and_true, if_false]
    split
    · rfl
    · rename_i hl
      rw [getByHash_eq_none]
      exact AList.lookup_eq_none.mpr hl

theorem mem_getAllIter {a : DagArena} {h : Hash32} {n : DagNode} :
    (h, n) ∈ a.getAllIter ↔ a.getByHash h = some n := by
  unfold getAllIter getByHash
  simp only [List.mem_filterMap, Option.map_eq_some_iff, Prod.mk.injEq, Option.bind_eq_some_iff]
  constructor
  · rintro ⟨⟨k, i⟩, hmem, m, hm, rfl, rfl⟩
    exact ⟨i, AList.mem_lookup_iff.mpr hmem, hm⟩
  · rintro ⟨i, hi, hn⟩
    exact ⟨⟨h, i⟩, AList.mem_lookup_iff.mp hi, n, hn, rfl, rfl⟩

/-- The hashes of the nodes, in the order of iteration. -/
theorem nodup_keys_getAllIter (a : DagArena) : (a.getAllIter.map Prod.fst).Nodup := by
  have hsub : (a.getAllIter.map Prod.fst).Sublist a.hashToIndex.keys := by
    have hkeys : a.hashToIndex.keys = a.hashToIndex.entries.map Sigma.fst := rfl
    rw [hkeys]
    unfold getAllIter
    generalize a.hashToIndex.entries = l
    induction l with
    | nil => simp
    | cons e l ih =>
      cases hg : a.slab.get e.2 with
      | none => simpa [hg] using ih.cons e.1
      | some n => simpa [hg] using ih.cons_cons e.1
  exact hsub.nodup a.hashToIndex.nodupKeys

end DagArena

end Aimp.Crdt
