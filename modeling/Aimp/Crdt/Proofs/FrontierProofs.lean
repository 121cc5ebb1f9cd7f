import Aimp.Lib.Frontier
import Aimp.Lib.Run
import Aimp.Crdt.Actor
import Aimp.Crdt.Proofs.ArenaProofs

/-!
# The frontier and the Merkle root

`heads` is the frontier of the arena, and the cached root is the root of the heads, in every state
that the actor reaches. `Append` puts its node on top of the whole frontier, `Merge` and recovery
recompute the frontier from the arena, and the garbage collector keeps all heads and, with every
other node, a child of it.
-/

namespace Aimp.Crdt

open Frontier

variable {blake3 : List Byte → Hash32}

/-- The nodes `D` as cards: their hashes with their parent links. -/
def nodeCards (blake3 : List Byte → Hash32) (D : List DagNode) : Set (Hash32 × List Hash32) :=
  {c | ∃ n ∈ D, n.computeHash blake3 = c.1 ∧ n.parents = c.2}

/-- Every node of `a` is in `b`, under the same hash. -/
def DagArena.Sub (a b : DagArena) : Prop :=
  ∀ h n, a.getByHash h = some n → b.getByHash h = some n

/-- The nodes of an arena as cards. -/
def DagArena.cards (a : DagArena) : Set (Hash32 × List Hash32) :=
  {c | ∃ n, a.getByHash c.1 = some n ∧ n.parents = c.2}

theorem nodeCards_mono {D D' : List DagNode} (h : ∀ n ∈ D, n ∈ D') :
    nodeCards blake3 D ⊆ nodeCards blake3 D' := fun _ ⟨n, hn, hc⟩ => ⟨n, h n hn, hc⟩

theorem nodeCards_append (D D' : List DagNode) :
    nodeCards blake3 (D ++ D') = nodeCards blake3 D ∪ nodeCards blake3 D' := by
  ext c
  simp only [nodeCards, List.mem_append, or_and_right, exists_or, Set.mem_ofPred_eq, Set.mem_union]

theorem mem_names_nodeCards {D : List DagNode} {h : Hash32} :
    h ∈ names (nodeCards blake3 D) ↔ ∃ n ∈ D, n.computeHash blake3 = h := by
  constructor
  · rintro ⟨_, n, hn, hh, -⟩
    exact ⟨n, hn, hh⟩
  · rintro ⟨n, hn, hh⟩
    exact ⟨n.parents, n, hn, hh, rfl⟩

theorem mem_listed_nodeCards {D : List DagNode} {h : Hash32} :
    h ∈ listed (nodeCards blake3 D) ↔ ∃ n ∈ D, h ∈ n.parents := by
  constructor
  · rintro ⟨_, _, ⟨n, hn, -, rfl⟩, hh⟩
    exact ⟨n, hn, hh⟩
  · rintro ⟨n, hn, hh⟩
    exact ⟨n.computeHash blake3, n.parents, ⟨n, hn, rfl, rfl⟩, hh⟩

namespace DagArena

theorem mem_names {a : DagArena} {h : Hash32} : h ∈ names a.cards ↔ a.contains h = true := by
  rw [contains_iff]
  constructor
  · rintro ⟨_, n, hn, -⟩
    exact ⟨n, hn⟩
  · rintro ⟨n, hn⟩
    exact ⟨n.parents, n, hn, rfl⟩

theorem mem_listed {a : DagArena} {h : Hash32} :
    h ∈ listed a.cards ↔ ∃ k n, a.getByHash k = some n ∧ h ∈ n.parents := by
  constructor
  · rintro ⟨k, _, ⟨n, hn, rfl⟩, hh⟩
    exact ⟨k, n, hn, hh⟩
  · rintro ⟨k, n, hn, hh⟩
    exact ⟨k, n.parents, ⟨n, hn, rfl⟩, hh⟩

theorem child_iff {a : DagArena} {p h : Hash32} :
    Child a.cards p h ↔ ∃ n, a.getByHash h = some n ∧ p ∈ n.parents := by
  constructor
  · rintro ⟨_, ⟨n, hn, rfl⟩, hp⟩
    exact ⟨n, hn, hp⟩
  · rintro ⟨n, hn, hp⟩
    exact ⟨n.parents, ⟨n, hn, rfl⟩, hp⟩

theorem Sub.cards {a b : DagArena} (h : a.Sub b) : a.cards ⊆ b.cards :=
  fun c ⟨n, hn, hc⟩ => ⟨n, h c.1 n hn, hc⟩

theorem retain_sub (a : DagArena) (keep : List Hash32) : (a.retain keep).1.Sub a := by
  intro h n hn
  rw [getByHash_retain] at hn
  split at hn
  · exact hn
  · exact absurd hn (by simp)

theorem finite_names (a : DagArena) : (names a.cards).Finite := by
  refine (List.finite_toSet (a.getAllIter.map Prod.fst)).subset ?_
  rintro h ⟨_, n, hn, -⟩
  exact List.mem_map.mpr ⟨(h, n), mem_getAllIter.mpr hn, rfl⟩

theorem cards_insert {a : DagArena} {h : Hash32} {n : DagNode} (hc : a.contains h = false) :
    (a.insert h n).1.cards = Insert.insert (h, n.parents) a.cards := by
  ext ⟨k, ps⟩
  simp only [cards, Set.mem_ofPred_eq, getByHash_insert hc, Set.mem_insert_iff, Prod.mk.injEq]
  by_cases hk : k = h
  · subst hk
    have hnone : a.getByHash k = none := by
      rw [getByHash_eq_none]
      simpa [contains] using hc
    simp [hnone, eq_comm]
  · simp [hk]

theorem cards_retain (a : DagArena) (keep : List Hash32) :
    (a.retain keep).1.cards = {c ∈ a.cards | c.1 ∈ {h | h ∈ keep}} := by
  ext ⟨k, ps⟩
  simp only [cards, Set.mem_ofPred_eq, getByHash_retain]
  by_cases hk : k ∈ keep <;> simp [hk]

/-- The parents of all nodes of an arena, as collected by iterating over it. -/
theorem mem_allParents {a : DagArena} {h : Hash32} :
    h ∈ a.getAllIter.flatMap (fun c => c.2.parents) ↔ h ∈ listed a.cards := by
  rw [mem_listed, List.mem_flatMap]
  constructor
  · rintro ⟨⟨k, n⟩, hm, hh⟩
    exact ⟨k, n, mem_getAllIter.mp hm, hh⟩
  · rintro ⟨k, n, hn, hh⟩
    exact ⟨(k, n), mem_getAllIter.mpr hn, hh⟩

theorem mem_allHashes {a : DagArena} {h : Hash32} :
    h ∈ a.getAllIter.map Prod.fst ↔ h ∈ names a.cards := by
  rw [mem_names, contains_iff, List.mem_map]
  constructor
  · rintro ⟨⟨k, n⟩, hm, rfl⟩
    exact ⟨n, mem_getAllIter.mp hm⟩
  · rintro ⟨n, hn⟩
    exact ⟨(h, n), mem_getAllIter.mpr hn, rfl⟩

end DagArena

/-! ## The root -/

/-- The Merkle root of a set of heads: the hash of the heads in sorted order, all zeros if there are
none. -/
def rootOf (blake3 : List Byte → Hash32) (heads : List Hash32) : Hash32 :=
  if heads.isEmpty then zeros 32
  else blake3 ((heads.insertionSort (· ≤ ·)).flatMap Subtype.val)

theorem rootOf_perm {heads heads' : List Hash32} (h : heads.Perm heads') :
    rootOf blake3 heads = rootOf blake3 heads' := by
  have hsort : heads.insertionSort (· ≤ ·) = heads'.insertionSort (· ≤ ·) :=
    List.Perm.eq_of_pairwise (fun a b _ _ => le_antisymm) (List.pairwise_insertionSort _ _)
      (List.pairwise_insertionSort _ _)
      ((List.perm_insertionSort _ _).trans (h.trans (List.perm_insertionSort _ _).symm))
  unfold rootOf
  rw [hsort, h.isEmpty_eq]

/-- The heads are the frontier of the arena, and neither the copy of the heads nor the cached root is
stale. -/
structure MerkleCrdtEngine.Coherent (blake3 : List Byte → Hash32) (e : MerkleCrdtEngine) : Prop where
  nodup : e.heads.Nodup
  mem_heads : ∀ h, h ∈ e.heads ↔ h ∈ tips e.arena.cards
  soa : e.headsSoa.Perm e.heads
  root : ∀ r, e.cachedRoot = some r → r = rootOf blake3 e.heads

namespace MerkleCrdtEngine

variable {e : MerkleCrdtEngine}

/-- After invalidating the root only the heads matter. -/
theorem coherent_invalidateRoot (hnd : e.heads.Nodup)
    (hm : ∀ h, h ∈ e.heads ↔ h ∈ tips e.arena.cards) :
    e.invalidateRoot.Coherent blake3 where
  nodup := hnd
  mem_heads := hm
  soa := List.Perm.refl _
  root := by simp [invalidateRoot]

theorem getMerkleRoot_spec (hc : e.Coherent blake3) :
    (e.getMerkleRoot blake3).2 = rootOf blake3 e.heads ∧
      (e.getMerkleRoot blake3).1.Coherent blake3 ∧
      (e.getMerkleRoot blake3).1.heads = e.heads ∧
      (e.getMerkleRoot blake3).1.arena = e.arena ∧
      (e.getMerkleRoot blake3).1.store = e.store := by
  have hroot : rootOf blake3 e.heads = rootOf blake3 e.headsSoa := rootOf_perm hc.soa.symm
  unfold getMerkleRoot
  split
  · rename_i r hr
    exact ⟨hc.root r hr, hc, rfl, rfl, rfl⟩
  · split
    · rename_i hemp
      have hz : rootOf blake3 e.heads = zeros 32 := by rw [hroot, rootOf, if_pos hemp]
      refine ⟨hz.symm, ⟨hc.nodup, hc.mem_heads, hc.soa, ?_⟩, rfl, rfl, rfl⟩
      intro r hr
      rw [hz]
      exact (Option.some.inj hr).symm
    · rename_i hemp
      have hz : rootOf blake3 e.heads =
          blake3 ((e.headsSoa.insertionSort (· ≤ ·)).flatMap Subtype.val) := by
        rw [hroot, rootOf, if_neg hemp]
      refine ⟨hz.symm, ⟨hc.nodup, hc.mem_heads, ?_, ?_⟩, rfl, rfl, rfl⟩
      · exact (List.perm_insertionSort _ _).trans hc.soa
      · intro r hr
        rw [hz]
        exact (Option.some.inj hr).symm

/-! ## Garbage collection -/

/-- The walk over the history below the heads runs until its stack is empty. -/
theorem history_queue (e : MerkleCrdtEngine) (stop : Hash32 → Bool) :
    (e.history stop).queue = [] :=
  DepthWalk.walk_queue (fun _ _ => DagArena.mem_getAllIter.mpr)
    (fun _ _ => DagArena.mem_getAllIter.mp)

/-- `get_vdiff` returns the nodes of the names that its walk visits. -/
theorem mem_getVdiff_iff {remoteHeads : List Hash32} {n : DagNode} :
    n ∈ e.getVdiff remoteHeads ↔
      ∃ h ∈ (e.history fun h => h ∈ remoteHeads).visited, e.arena.getByHash h = some n :=
  DepthWalk.walk_found

/-- The garbage collector keeps all heads. -/
theorem heads_subset_keep {h : Hash32} (hh : h ∈ e.heads) :
    h ∈ (e.history fun _ => false).visited :=
  DepthWalk.walk_roots (e.history_queue fun _ => false) hh rfl

/-- With every node that is not a head, the garbage collector keeps a child of it. -/
theorem keep_child {h : Hash32} (hh : h ∈ (e.history fun _ => false).visited)
    (hn : h ∉ e.heads) : ∃ k ∈ (e.history fun _ => false).visited, Child e.arena.cards h k := by
  rcases DepthWalk.walk_visited hh with hr | ⟨k, hk, n, hkn, hp⟩
  · exact absurd hr hn
  · exact ⟨k, hk, n.parents, ⟨n, hkn, rfl⟩, hp⟩

theorem compactHistory_spec (hc : e.Coherent blake3) :
    e.compactHistory.Coherent blake3 ∧ e.compactHistory.heads = e.heads ∧
      e.compactHistory.arena.Sub e.arena ∧ e.compactHistory.store = e.store := by
  have hsub := e.arena.retain_sub (e.history fun _ => false).visited
  have hfr : tips (e.arena.retain (e.history fun _ => false).visited).1.cards =
      tips e.arena.cards := by
    rw [DagArena.cards_retain]
    refine frontier_restrict ?_ ?_
    · exact fun f hf => heads_subset_keep ((hc.mem_heads f).mpr hf)
    · intro k hk _ hkf
      exact keep_child hk (fun hh => hkf ((hc.mem_heads k).mp hh))
  have hheads : e.heads.filter (· ∈ (e.history fun _ => false).visited) = e.heads :=
    List.filter_eq_self.mpr fun h hh => by simpa using heads_subset_keep hh
  unfold compactHistory
  dsimp only
  split
  · rw [hheads]
    exact ⟨coherent_invalidateRoot hc.nodup (fun h => by rw [hc.mem_heads h, ← hfr]), rfl, hsub,
      rfl⟩
  · exact ⟨⟨hc.nodup, fun h => by rw [hc.mem_heads h, ← hfr], hc.soa, hc.root⟩, rfl, hsub, rfl⟩

theorem countMutation_spec (hc : e.Coherent blake3) :
    e.countMutation.Coherent blake3 ∧ e.countMutation.heads = e.heads ∧
      e.countMutation.arena.Sub e.arena ∧ e.countMutation.store = e.store := by
  have hc' : ({ e with mutationsSinceGc := e.mutationsSinceGc + 1 } : MerkleCrdtEngine).Coherent
      blake3 := ⟨hc.nodup, hc.mem_heads, hc.soa, hc.root⟩
  unfold countMutation
  dsimp only
  split
  · obtain ⟨hcc, hh, hs, hst⟩ := compactHistory_spec hc'
    exact ⟨⟨hcc.nodup, hcc.mem_heads, hcc.soa, hcc.root⟩, hh, hs, hst⟩
  · exact ⟨hc', rfl, fun _ _ hn => hn, rfl⟩

/-! ## Append -/

theorem foldl_erase_self (l : List Hash32) : l.foldl List.erase l = [] := by
  induction l with
  | nil => rfl
  | cons a l ih => simpa using ih

/-- A node on top of all heads is stored, and becomes the only head. -/
theorem addTop_spec (disk : Hash32 → Bool) {hash : Hash32} {node : DagNode}
    (hc : e.Coherent blake3) (hps : node.parents = e.heads)
    (hac : Acyclic (insert (hash, node.parents) e.arena.cards)) :
    (e.addTop disk hash node).Coherent blake3 ∧ (e.addTop disk hash node).heads = [hash] ∧
      ∀ k, (e.addTop disk hash node).arena.getByHash k =
        if k = hash then some node else e.arena.getByHash k := by
  obtain ⟨hnew, hfr⟩ := frontier_insert_top (DagArena.finite_names _) hac
    fun f hf => hps ▸ (hc.mem_heads f).mpr hf
  have hcont : e.arena.contains hash = false := by
    rw [DagArena.mem_names] at hnew
    simpa using hnew
  have hheads : (node.parents.foldl List.erase e.heads).insert hash = [hash] := by
    rw [hps, foldl_erase_self]
    rfl
  have hcards : (e.addTop disk hash node).arena.cards = insert (hash, node.parents) e.arena.cards :=
    DagArena.cards_insert hcont
  have hh : (e.addTop disk hash node).heads = [hash] := hheads
  refine ⟨coherent_invalidateRoot ?_ ?_, hh, DagArena.getByHash_insert hcont⟩
  · show ((node.parents.foldl List.erase e.heads).insert hash).Nodup
    rw [hheads]
    exact List.nodup_singleton _
  · intro h
    show h ∈ (e.addTop disk hash node).heads ↔ h ∈ tips (e.addTop disk hash node).arena.cards
    rw [hh, hcards, hfr, List.mem_singleton, Set.mem_singleton_iff]

end MerkleCrdtEngine

end Aimp.Crdt
