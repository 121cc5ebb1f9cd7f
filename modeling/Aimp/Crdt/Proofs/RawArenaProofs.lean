import Aimp.Crdt.RawArena
import Aimp.Crdt.Arena

/-!
# The index of the arena

The map is a bijection onto the occupied slots (`Represents`), whatever slot the slab takes for a new node.
So no lookup, iteration or removal meets a vacant slot, and a slot that is used again belongs to one hash
only.
-/

namespace Aimp.Crdt

namespace RawArena

variable {σ : Type} {S : Slab.Ops σ DagNode} {a : RawArena σ} {h k : Hash32} {n : DagNode} {i : ℕ}

/-- The map is a bijection onto the occupied slots. -/
structure Represents (S : Slab.Ops σ DagNode) (a : RawArena σ) : Prop where
  distinct : ∀ h k i, a.hashToIndex.lookup h = some i → a.hashToIndex.lookup k = some i → h = k
  occupied : ∀ i, (∃ h, a.hashToIndex.lookup h = some i) ↔ (S.get a.slab i).isSome

/-- The node that the arena stores under a hash. -/
def find (S : Slab.Ops σ DagNode) (a : RawArena σ) (h : Hash32) : Option DagNode :=
  (a.hashToIndex.lookup h).bind (S.get a.slab)

/-! ## Reading -/

theorem Represents.get_isSome (ha : Represents S a) (hi : a.hashToIndex.lookup h = some i) :
    (S.get a.slab i).isSome := (ha.occupied i).mp ⟨h, hi⟩

/-- No lookup panics. -/
theorem Represents.getByHash_eq (ha : Represents S a) (h : Hash32) :
    a.getByHash S h = some (a.find S h) := by
  unfold getByHash find
  cases hi : a.hashToIndex.lookup h with
  | none => rfl
  | some i =>
    obtain ⟨n, hn⟩ := Option.isSome_iff_exists.mp (ha.get_isSome hi)
    dsimp only
    rw [Option.bind_some, hn, Option.map_some]

theorem Represents.contains_iff (ha : Represents S a) : a.contains h = true ↔ ∃ n, a.find S h = some n := by
  unfold contains find
  cases hi : a.hashToIndex.lookup h with
  | none => simp
  | some i =>
    rw [Option.bind_some, ← Option.isSome_iff_exists]
    exact iff_of_true rfl (ha.get_isSome hi)

/-- No iteration panics. -/
theorem Represents.getAllIter_isSome (ha : Represents S a) (order : HashMap.IterOrder Hash32 ℕ) :
    (a.getAllIter S order).isSome := by
  unfold getAllIter
  have hmem : ∀ e ∈ (order.of a.hashToIndex).entries, (S.get a.slab e.2).isSome := fun e he =>
    ha.get_isSome (AList.mem_lookup_iff.mpr ((order.perm a.hashToIndex).mem_iff.mp he))
  generalize (order.of a.hashToIndex).entries = l at hmem
  induction l with
  | nil => rfl
  | cons e l ih =>
    obtain ⟨he, hl⟩ := List.forall_mem_cons.mp hmem
    obtain ⟨n, hn⟩ := Option.isSome_iff_exists.mp he
    obtain ⟨rest, hrest⟩ := Option.isSome_iff_exists.mp (ih hl)
    rw [List.mapM_cons, hn, hrest]
    rfl

/-- The length is the number of hashes. -/
theorem Represents.len_eq (hS : S.Lawful) (ha : Represents S a) : a.len S = a.hashToIndex.len := by
  have hindices : ∀ i, i ∈ (a.hashToIndex.entries.map fun e => e.2).toFinset ↔ (S.get a.slab i).isSome := by
    intro i
    rw [List.mem_toFinset, List.mem_map, ← ha.occupied]
    constructor
    · rintro ⟨e, he, rfl⟩
      exact ⟨e.1, AList.mem_lookup_iff.mpr he⟩
    · rintro ⟨h, hi⟩
      exact ⟨⟨h, i⟩, AList.mem_lookup_iff.mp hi, rfl⟩
  have hnodup : (a.hashToIndex.entries.map fun e => e.2).Nodup := by
    refine List.Nodup.map_on ?_ a.hashToIndex.nodupKeys.nodup
    rintro ⟨h, i⟩ he ⟨k, j⟩ he' rfl
    rw [ha.distinct h k i (AList.mem_lookup_iff.mpr he) (AList.mem_lookup_iff.mpr he')]
  unfold len
  rw [hS.len_eq a.slab _ hindices, List.toFinset_card_of_nodup hnodup, List.length_map]
  rfl

/-! ## Writing -/

/-- An empty map and a slab without occupied slots. -/
theorem represents_empty (hempty : a.hashToIndex = ∅) (hslab : ∀ i, S.get a.slab i = none) :
    Represents S a where
  distinct h k i hi := by
    rw [hempty, AList.lookup_empty] at hi
    cases hi
  occupied i := by
    rw [hslab, hempty]
    refine iff_of_false ?_ (by simp)
    rintro ⟨h, hi⟩
    rw [AList.lookup_empty] at hi
    cases hi

theorem represents_new (hS : S.Lawful) : Represents S (new S) :=
  represents_empty rfl hS.get_empty

theorem represents_clear (hS : S.Lawful) (a : RawArena σ) : Represents S (a.clear S) :=
  represents_empty rfl (hS.get_clear a.slab)

theorem insert_of_contains (hc : a.contains h = true) (n : DagNode) : (a.insert S h n).1 = a := by
  obtain ⟨i, hi⟩ := Option.isSome_iff_exists.mp hc
  unfold insert
  rw [hi]

theorem insert_of_not_contains (hc : a.contains h = false) (n : DagNode) :
    (a.insert S h n).1 = ⟨(S.insert a.slab n).1, a.hashToIndex.insert h (S.insert a.slab n).2⟩ := by
  have hi : a.hashToIndex.lookup h = none := by
    unfold contains at hc
    exact Option.not_isSome_iff_eq_none.mp (ne_true_of_eq_false hc)
  unfold insert
  rw [hi]

/-- The slot of a new node does not belong to a hash yet. -/
theorem Represents.ne_vacant (hS : S.Lawful) (ha : Represents S a) (hi : a.hashToIndex.lookup h = some i)
    (n : DagNode) : i ≠ (S.insert a.slab n).2 := by
  rintro rfl
  have hsome := ha.get_isSome hi
  rw [hS.get_vacant] at hsome
  cases hsome

/-- One hash and its slot change. -/
theorem Represents.update {b : RawArena σ} {stored : Option DagNode} (ha : Represents S a)
    (hhash : b.hashToIndex.lookup h = stored.map fun _ => i) (hslot : S.get b.slab i = stored)
    (hhashes : ∀ k ≠ h, b.hashToIndex.lookup k = a.hashToIndex.lookup k)
    (hslots : ∀ j ≠ i, S.get b.slab j = S.get a.slab j)
    (hown : ∀ k j, a.hashToIndex.lookup k = some j → (k = h ↔ j = i)) :
    Represents S b ∧ ∀ k, b.find S k = if k = h then stored else a.find S k := by
  have hlookup : ∀ k j, b.hashToIndex.lookup k = some j ↔
      (k = h ∧ j = i ∧ stored.isSome) ∨ (k ≠ h ∧ a.hashToIndex.lookup k = some j) := by
    intro k j
    by_cases hk : k = h
    · rw [hk, hhash]
      cases stored with
      | none => simp
      | some n => simp [eq_comm]
    · rw [hhashes k hk]
      simp [hk]
  have hiff : ∀ k j, b.hashToIndex.lookup k = some j → (k = h ↔ j = i) := by
    intro k j hk
    rcases (hlookup k j).mp hk with ⟨rfl, rfl, -⟩ | ⟨-, hk⟩
    · exact iff_of_true rfl rfl
    · exact hown k j hk
  refine ⟨⟨?_, ?_⟩, ?_⟩
  · intro k l j hk hl
    by_cases hj : j = i
    · rw [(hiff k j hk).mpr hj, (hiff l j hl).mpr hj]
    · rw [hhashes k (mt (hiff k j hk).mp hj)] at hk
      rw [hhashes l (mt (hiff l j hl).mp hj)] at hl
      exact ha.distinct k l j hk hl
  · intro j
    by_cases hj : j = i
    · rw [hj, hslot]
      constructor
      · rintro ⟨k, hk⟩
        rcases (hlookup k i).mp hk with ⟨-, -, hstored⟩ | ⟨hne, hk⟩
        · exact hstored
        · exact absurd ((hown k i hk).mpr rfl) hne
      · intro hstored
        exact ⟨h, (hlookup h i).mpr (Or.inl ⟨rfl, rfl, hstored⟩)⟩
    · rw [hslots j hj, ← ha.occupied]
      refine exists_congr fun k => ?_
      by_cases hk : k = h
      · refine iff_of_false (fun hb => hj ((hiff k j hb).mp hk)) fun ha' => hj ((hown k j ha').mp hk)
      · rw [hhashes k hk]
  · intro k
    unfold find
    by_cases hk : k = h
    · rw [if_pos hk, hk, hhash]
      cases stored with
      | none => rfl
      | some n => exact hslot
    · rw [if_neg hk, hhashes k hk]
      cases hj : a.hashToIndex.lookup k with
      | none => rfl
      | some j => exact hslots j (mt (hown k j hj).mpr hk)

/-- A new hash takes a vacant slot, and an old one keeps its own. -/
theorem Represents.insert (hS : S.Lawful) (ha : Represents S a) (h : Hash32) (n : DagNode) :
    Represents S (a.insert S h n).1 ∧
      ∀ k, (a.insert S h n).1.find S k = if a.contains h = false ∧ k = h then some n else a.find S k := by
  cases hc : a.contains h with
  | true =>
    rw [insert_of_contains hc]
    exact ⟨ha, fun k => (if_neg fun hfalse => Bool.noConfusion hfalse.1).symm⟩
  | false =>
    rw [insert_of_not_contains hc]
    simp only [true_and]
    refine ha.update ?_ ?_ ?_ ?_ ?_ (i := (S.insert a.slab n).2)
    · exact AList.lookup_insert _
    · rw [hS.get_insert, if_pos rfl]
    · intro k hk
      exact AList.lookup_insert_ne hk
    · intro j hj
      rw [hS.get_insert, if_neg hj]
    · intro k j hk
      refine iff_of_false ?_ (ha.ne_vacant hS hk n)
      rintro rfl
      unfold contains at hc
      rw [hk] at hc
      cases hc

/-- The removal of a hash with its slot does not panic, and leaves the others as they are. -/
theorem Represents.removeEntry (hS : S.Lawful) (ha : Represents S a)
    (hi : a.hashToIndex.lookup h = some i) :
    ∃ a', a.removeEntry S ⟨h, i⟩ = some a' ∧ Represents S a' ∧
      (∀ k ≠ h, a'.hashToIndex.lookup k = a.hashToIndex.lookup k) ∧
      ∀ k, a'.find S k = if k = h then none else a.find S k := by
  obtain ⟨slab, hslab⟩ := Option.isSome_iff_exists.mp
    ((hS.remove_isSome a.slab i).trans (ha.get_isSome hi))
  have hget := fun j => hS.get_remove a.slab slab i j hslab
  have hremoved : a.removeEntry S ⟨h, i⟩ = some ⟨slab, a.hashToIndex.erase h⟩ := by
    unfold RawArena.removeEntry
    rw [hslab]
    rfl
  have hothers : ∀ k ≠ h, (a.hashToIndex.erase h).lookup k = a.hashToIndex.lookup k :=
    fun k hk => AList.lookup_erase_ne hk
  have hupdate : Represents S ⟨slab, a.hashToIndex.erase h⟩ ∧
      ∀ k, find S ⟨slab, a.hashToIndex.erase h⟩ k = if k = h then none else a.find S k := by
    refine ha.update ?_ ?_ hothers ?_ ?_ (i := i)
    · exact AList.lookup_erase _ _
    · rw [hget, if_pos rfl]
    · intro j hj
      rw [hget, if_neg hj]
    · intro k j hk
      constructor
      · rintro rfl
        exact Option.some.inj (hk.symm.trans hi)
      · rintro rfl
        exact ha.distinct k h j hk hi
  exact ⟨_, hremoved, hupdate.1, hothers, hupdate.2⟩

/-- The loop of `retain` over entries of the map does not panic. -/
theorem Represents.foldlM_removeEntry (hS : S.Lawful) (ha : Represents S a)
    {l : List (Sigma fun _ : Hash32 => ℕ)} (hl : (l.map Sigma.fst).Nodup)
    (hmem : ∀ e ∈ l, a.hashToIndex.lookup e.1 = some e.2) :
    ∃ a', l.foldlM (RawArena.removeEntry S) a = some a' ∧ Represents S a' ∧
      ∀ k, a'.find S k = if k ∈ l.map Sigma.fst then none else a.find S k := by
  induction l generalizing a with
  | nil => exact ⟨a, rfl, ha, fun k => rfl⟩
  | cons e l ih =>
    obtain ⟨h, i⟩ := e
    rw [List.map_cons, List.nodup_cons] at hl
    obtain ⟨hi, hrest⟩ := List.forall_mem_cons.mp hmem
    obtain ⟨b, hb, hrep, hlookup, hfind⟩ := ha.removeEntry hS hi
    have hmem' : ∀ e ∈ l, b.hashToIndex.lookup e.1 = some e.2 := by
      intro e he
      rw [hlookup, hrest e he]
      intro heq
      exact hl.1 (List.mem_map.mpr ⟨e, he, heq⟩)
    obtain ⟨a', ha', hrep', hfind'⟩ := ih hrep hl.2 hmem'
    refine ⟨a', ?_, hrep', fun k => ?_⟩
    · rw [List.foldlM_cons, hb]
      exact ha'
    · rw [hfind', hfind, List.map_cons]
      by_cases hkl : k ∈ l.map Sigma.fst <;> by_cases hkh : k = h <;> simp [hkl, hkh]

/-- `retain` removes the hashes that are not kept. -/
theorem Represents.retain (hS : S.Lawful) (ha : Represents S a) (order : HashMap.IterOrder Hash32 ℕ)
    (keep : List Hash32) :
    ∃ a' removed, a.retain S order keep = some (a', removed) ∧ Represents S a' ∧
      ∀ k, a'.find S k = if k ∈ keep then a.find S k else none := by
  have hperm := order.perm a.hashToIndex
  have hnodup : (((order.of a.hashToIndex).entries.filter fun e => e.1 ∉ keep).map Sigma.fst).Nodup :=
    (order.of a.hashToIndex).nodupKeys.sublist List.filter_sublist
  have hmem : ∀ e ∈ (order.of a.hashToIndex).entries.filter fun e => e.1 ∉ keep,
      a.hashToIndex.lookup e.1 = some e.2 := fun e he =>
    AList.mem_lookup_iff.mpr (hperm.mem_iff.mp (List.mem_filter.mp he).1)
  obtain ⟨a', ha', hrep, hfind⟩ := ha.foldlM_removeEntry hS hnodup hmem
  refine ⟨a', ((order.of a.hashToIndex).entries.filter fun e => e.1 ∉ keep).length, ?_, hrep, fun k => ?_⟩
  · unfold RawArena.retain
    dsimp only
    rw [ha']
    rfl
  · rw [hfind]
    by_cases hk : k ∈ keep
    · rw [if_pos hk, if_neg]
      intro hmem
      obtain ⟨e, he, rfl⟩ := List.mem_map.mp hmem
      exact of_decide_eq_true (List.mem_filter.mp he).2 hk
    · rw [if_neg hk]
      split
      · rfl
      · rename_i hnot
        unfold find
        cases hi : a.hashToIndex.lookup k with
        | none => rfl
        | some i =>
          have he : (⟨k, i⟩ : Sigma fun _ : Hash32 => ℕ) ∈ (order.of a.hashToIndex).entries :=
            hperm.mem_iff.mpr (AList.mem_lookup_iff.mp hi)
          exact absurd (List.mem_map.mpr ⟨_, List.mem_filter.mpr ⟨he, decide_eq_true hk⟩, rfl⟩) hnot

end RawArena

/-! ## Runs -/

namespace ArenaCall

/-- The call removes the node of a hash. -/
def Drops (h : Hash32) : ArenaCall → Prop
  | .insert .. => False
  | .retain _ keep => h ∉ keep
  | .clear => True

/-- What a call makes of the node that is stored under a hash. -/
def effect (h : Hash32) (stored : Option DagNode) : ArenaCall → Option DagNode
  | .insert hash node => if stored = none ∧ h = hash then some node else stored
  | .retain _ keep => if h ∈ keep then stored else none
  | .clear => none

/-- A node is stored since before the call, or by it. -/
theorem effect_eq_some {h : Hash32} {n : DagNode} {stored : Option DagNode} {c : ArenaCall} :
    c.effect h stored = some n ↔ (stored = some n ∧ ¬ c.Drops h) ∨ (stored = none ∧ c = .insert h n) := by
  cases c with
  | insert hash node =>
    unfold effect Drops
    dsimp only
    by_cases hnew : stored = none ∧ h = hash
    · obtain ⟨rfl, rfl⟩ := hnew
      simp
    · rw [if_neg hnew, and_iff_left not_false]
      refine ⟨Or.inl, fun hor => hor.elim id fun ⟨hnone, heq⟩ => absurd ?_ hnew⟩
      obtain ⟨rfl, -⟩ := insert.inj heq
      exact ⟨hnone, rfl⟩
  | retain order keep =>
    unfold effect Drops
    by_cases hk : h ∈ keep <;> simp [hk]
  | clear =>
    unfold effect Drops
    simp

end ArenaCall

namespace RawArena

variable {σ : Type} {S : Slab.Ops σ DagNode} {a : RawArena σ} {h : Hash32} {n : DagNode}
  {calls : List ArenaCall} {c : ArenaCall}

/-- No call panics. -/
theorem Represents.call (hS : S.Lawful) (ha : Represents S a) (c : ArenaCall) :
    ∃ a', a.call S c = some a' ∧ Represents S a' ∧ ∀ k, a'.find S k = c.effect k (a.find S k) := by
  cases c with
  | insert hash node =>
    obtain ⟨hrep, hfind⟩ := ha.insert hS hash node
    refine ⟨_, rfl, hrep, fun k => ?_⟩
    have habsent : (a.contains hash = false ∧ k = hash) ↔ (a.find S k = none ∧ k = hash) := by
      refine and_congr_left fun hk => ?_
      rw [hk, ← Bool.not_eq_true, ha.contains_iff, ← Option.isSome_iff_exists, Option.not_isSome_iff_eq_none]
    rw [hfind]
    unfold ArenaCall.effect
    dsimp only
    by_cases hnew : a.contains hash = false ∧ k = hash
    · rw [if_pos hnew, if_pos (habsent.mp hnew)]
    · rw [if_neg hnew, if_neg (mt habsent.mpr hnew)]
  | retain order keep =>
    obtain ⟨a', removed, hretain, hrep, hfind⟩ := ha.retain hS order keep
    refine ⟨a', ?_, hrep, hfind⟩
    unfold RawArena.call
    dsimp only
    rw [hretain]
    rfl
  | clear =>
    refine ⟨a.clear S, rfl, represents_clear hS a, fun k => ?_⟩
    unfold find clear
    rw [AList.lookup_empty]
    rfl

theorem after_concat (S : Slab.Ops σ DagNode) (calls : List ArenaCall) (c : ArenaCall) :
    after S (calls ++ [c]) = (after S calls).bind fun a => a.call S c := by
  unfold after
  rw [List.foldlM_append]
  congr 1
  funext a
  exact bind_pure _

/-- Every run ends in an arena that stores what the calls say. -/
theorem exists_after (hS : S.Lawful) (calls : List ArenaCall) :
    ∃ a, after S calls = some a ∧ Represents S a ∧
      ∀ h, a.find S h = calls.foldl (fun stored c => c.effect h stored) none := by
  induction calls using List.reverseRecOn with
  | nil =>
    refine ⟨new S, rfl, represents_new hS, fun h => ?_⟩
    unfold find new
    rw [AList.lookup_empty]
    rfl
  | append_singleton calls c ih =>
    obtain ⟨a, ha, hrep, hfind⟩ := ih
    obtain ⟨a', ha', hrep', hfind'⟩ := hrep.call hS c
    refine ⟨a', ?_, hrep', fun h => ?_⟩
    · rw [after_concat, ha]
      exact ha'
    · rw [hfind', hfind, List.foldl_append]
      rfl

/-- The call that last stored the hash, when it was absent, stored the node, and no later call removes it. -/
def LastStored (S : Slab.Ops σ DagNode) (calls : List ArenaCall) (h : Hash32) (n : DagNode) : Prop :=
  ∃ before rest, calls = before ++ .insert h n :: rest ∧
    (∃ a : RawArena σ, after S before = some a ∧ a.contains h = false) ∧ ∀ c ∈ rest, ¬ c.Drops h

theorem lastStored_concat :
    LastStored S (calls ++ [c]) h n ↔ (LastStored S calls h n ∧ ¬ c.Drops h) ∨
      ((∃ a : RawArena σ, after S calls = some a ∧ a.contains h = false) ∧ c = .insert h n) := by
  constructor
  · rintro ⟨before, rest, heq, habsent, hrest⟩
    rcases List.eq_nil_or_concat rest with rfl | ⟨rest, d, rfl⟩
    · obtain ⟨rfl, hc⟩ := List.append_inj' heq rfl
      exact Or.inr ⟨habsent, List.singleton_inj.mp hc⟩
    · rw [List.concat_eq_append] at heq hrest
      rw [← List.cons_append, ← List.append_assoc] at heq
      obtain ⟨rfl, hc⟩ := List.append_inj' heq rfl
      obtain rfl := List.singleton_inj.mp hc
      refine Or.inl ⟨⟨before, rest, rfl, habsent, fun c hc => ?_⟩, ?_⟩
      · exact hrest c (List.mem_append_left _ hc)
      · exact hrest _ (List.mem_append_right _ (List.mem_singleton_self _))
  · rintro (⟨⟨before, rest, rfl, habsent, hrest⟩, hc⟩ | ⟨habsent, rfl⟩)
    · refine ⟨before, rest ++ [c], by rw [List.append_assoc]; rfl, habsent, fun d hd => ?_⟩
      rcases List.mem_append.mp hd with hd | hd
      · exact hrest d hd
      · rw [List.mem_singleton.mp hd]
        exact hc
    · exact ⟨calls, [], rfl, habsent, fun d hd => absurd hd List.not_mem_nil⟩

/-- What is stored in the end has been stored by some call and not removed since. -/
theorem foldl_effect_iff (hS : S.Lawful) (calls : List ArenaCall) (h : Hash32) (n : DagNode) :
    calls.foldl (fun stored c => c.effect h stored) none = some n ↔ LastStored S calls h n := by
  induction calls using List.reverseRecOn with
  | nil =>
    refine iff_of_false (fun hnone => by cases hnone) ?_
    rintro ⟨before, rest, heq, -⟩
    exact absurd heq.symm (List.append_ne_nil_of_right_ne_nil before (List.cons_ne_nil _ _))
  | append_singleton calls c ih =>
    obtain ⟨a, ha, hrep, hfind⟩ := exists_after hS calls
    have habsent : calls.foldl (fun stored c => c.effect h stored) none = none ↔
        ∃ a : RawArena σ, after S calls = some a ∧ a.contains h = false := by
      have hcontains : a.contains h = false ↔ a.find S h = none := by
        rw [← Bool.not_eq_true, hrep.contains_iff, ← Option.isSome_iff_exists, Option.not_isSome_iff_eq_none]
      rw [← hfind, ← hcontains, ha]
      simp
    rw [List.foldl_append, List.foldl_cons, List.foldl_nil, ArenaCall.effect_eq_some, ih, habsent,
      lastStored_concat]

/-- After any calls the map is a bijection onto the occupied slots, so that no lookup or iteration panics;
the length is the number of hashes, and a hash leads to the node that was last stored under it. -/
theorem after_represents (hS : S.Lawful) (calls : List ArenaCall) :
    ∃ a : RawArena σ, after S calls = some a ∧
      (∀ h k i, a.hashToIndex.lookup h = some i → a.hashToIndex.lookup k = some i → h = k) ∧
      (∀ i, (∃ h, a.hashToIndex.lookup h = some i) ↔ (S.get a.slab i).isSome) ∧
      (∀ h, (a.getByHash S h).isSome) ∧ (∀ order, (a.getAllIter S order).isSome) ∧
      a.len S = a.hashToIndex.len ∧
      ∀ h n, a.getByHash S h = some (some n) ↔ LastStored S calls h n := by
  obtain ⟨a, ha, hrep, hfind⟩ := exists_after hS calls
  refine ⟨a, ha, hrep.distinct, hrep.occupied, fun h => ?_, hrep.getAllIter_isSome, hrep.len_eq hS,
    fun h n => ?_⟩
  · rw [hrep.getByHash_eq]
    rfl
  · rw [hrep.getByHash_eq, Option.some_inj, hfind, foldl_effect_iff hS]

/-- A node takes the slot that another one has left. -/
def reuseCalls : List ArenaCall :=
  [.insert (zeros 32) ⟨[], zeros 64, zeros 32, ⟨[], List.Pairwise.nil⟩, none⟩, .retain (.id _ _) [],
    .insert ⟨List.replicate 32 1, rfl⟩ ⟨[zeros 32], zeros 64, zeros 32, ⟨[], List.Pairwise.nil⟩, none⟩]

theorem after_represents_reuse :
    ∃ a : RawArena (Slab DagNode), after (Slab.ops DagNode) reuseCalls = some a ∧
      (∀ h k i, a.hashToIndex.lookup h = some i → a.hashToIndex.lookup k = some i → h = k) ∧
      (∀ i, (∃ h, a.hashToIndex.lookup h = some i) ↔ ((Slab.ops DagNode).get a.slab i).isSome) ∧
      (∀ h, (a.getByHash (Slab.ops DagNode) h).isSome) ∧
      (∀ order, (a.getAllIter (Slab.ops DagNode) order).isSome) ∧
      a.len (Slab.ops DagNode) = a.hashToIndex.len ∧
      ∀ h n, a.getByHash (Slab.ops DagNode) h = some (some n) ↔
        LastStored (Slab.ops DagNode) reuseCalls h n :=
  after_represents (Slab.lawful_ops DagNode) reuseCalls

end RawArena

/-! ## The arena with its invariant -/

namespace DagArena

variable {a : DagArena} {h : Hash32} {i : ℕ}

/-- The fields of the arena. -/
def toRaw (a : DagArena) : RawArena (Slab DagNode) := ⟨a.slab, a.hashToIndex⟩

theorem toRaw_represents (a : DagArena) : RawArena.Represents (Slab.ops DagNode) a.toRaw where
  distinct := a.distinct
  occupied i := ⟨fun ⟨h, hi⟩ => a.occupied h i hi, a.covered i⟩

theorem toRaw_new : new.toRaw = .new (Slab.ops DagNode) := rfl

theorem toRaw_clear (a : DagArena) : a.clear.toRaw = a.toRaw.clear (Slab.ops DagNode) := rfl

/-- No lookup panics. -/
theorem toRaw_getByHash (a : DagArena) (h : Hash32) :
    a.toRaw.getByHash (Slab.ops DagNode) h = some (a.getByHash h) :=
  a.toRaw_represents.getByHash_eq h

theorem toRaw_insert (a : DagArena) (h : Hash32) (n : DagNode) :
    a.toRaw.insert (Slab.ops DagNode) h n = ((a.insert h n).1.toRaw, (a.insert h n).2) := by
  unfold DagArena.insert
  split
  · rename_i index hh
    have hraw : a.toRaw.hashToIndex.lookup h = some index := hh
    unfold RawArena.insert
    rw [hraw]
  · rename_i hh
    have hraw : a.toRaw.hashToIndex.lookup h = none := hh
    unfold RawArena.insert
    rw [hraw]
    rfl

theorem removeHash_of_lookup (hi : a.hashToIndex.lookup h = some i) : a.removeHash h = a.removeAt h i hi := by
  unfold removeHash
  split
  · rename_i j hj
    obtain rfl := Option.some.inj (hj.symm.trans hi)
    rfl
  · rename_i hnone
    rw [hnone] at hi
    cases hi

theorem toRaw_removeHash (hi : a.hashToIndex.lookup h = some i) :
    a.toRaw.removeEntry (Slab.ops DagNode) ⟨h, i⟩ = some (a.removeHash h).toRaw := by
  obtain ⟨n, hn⟩ := Option.isSome_iff_exists.mp (a.occupied h i hi)
  rw [removeHash_of_lookup hi]
  unfold RawArena.removeEntry Slab.ops toRaw removeAt
  dsimp only
  rw [hn]
  rfl

/-- The loop of `retain` over entries of the map. -/
theorem toRaw_foldl_removeHash {l : List (Sigma fun _ : Hash32 => ℕ)} (hl : (l.map Sigma.fst).Nodup)
    (hmem : ∀ e ∈ l, a.hashToIndex.lookup e.1 = some e.2) :
    l.foldlM (RawArena.removeEntry (Slab.ops DagNode)) a.toRaw =
      some ((l.map Sigma.fst).foldl removeHash a).toRaw := by
  induction l generalizing a with
  | nil => rfl
  | cons e l ih =>
    rw [List.map_cons, List.nodup_cons] at hl
    obtain ⟨hi, hrest⟩ := List.forall_mem_cons.mp hmem
    have hmem' : ∀ e' ∈ l, (a.removeHash e.1).hashToIndex.lookup e'.1 = some e'.2 := by
      intro e' he'
      rw [removeHash_of_lookup hi]
      show (a.hashToIndex.erase e.1).lookup e'.1 = some e'.2
      rw [AList.lookup_erase_ne, hrest e' he']
      intro heq
      exact hl.1 (List.mem_map.mpr ⟨e', he', heq⟩)
    rw [List.foldlM_cons, List.map_cons, List.foldl_cons, ← ih hl.2 hmem']
    have hstep : a.toRaw.removeEntry (Slab.ops DagNode) e = some (a.removeHash e.1).toRaw :=
      toRaw_removeHash hi
    rw [hstep]
    rfl

theorem toRaw_retain (a : DagArena) (keep : List Hash32) :
    a.toRaw.retain (Slab.ops DagNode) (.id _ _) keep = some ((a.retain keep).1.toRaw, (a.retain keep).2) := by
  have hkeys : a.hashToIndex.keys.filter (fun h => h ∉ keep) =
      (a.hashToIndex.entries.filter fun e => e.1 ∉ keep).map Sigma.fst := List.filter_map ..
  have hl : ((a.hashToIndex.entries.filter fun e => e.1 ∉ keep).map Sigma.fst).Nodup :=
    a.hashToIndex.nodupKeys.sublist List.filter_sublist
  have hmem : ∀ e ∈ a.hashToIndex.entries.filter fun e => e.1 ∉ keep,
      a.hashToIndex.lookup e.1 = some e.2 := fun e he =>
    AList.mem_lookup_iff.mpr (List.mem_filter.mp he).1
  unfold RawArena.retain DagArena.retain
  dsimp only
  rw [hkeys, List.length_map]
  exact congrArg (Option.map _) (toRaw_foldl_removeHash hl hmem)

end DagArena

end Aimp.Crdt
