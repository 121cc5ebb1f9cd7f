import Aimp.Crdt.Proofs.ActorProofs

/-!
# Frontier and root coherence

In every state of the actor the heads are the frontier of the arena and the root is the root of the
heads. Two replicas that hold the same nodes therefore have the same root, whatever their histories.
-/

namespace Aimp.Crdt

open Frontier

variable {blake3 : List Byte → Hash32}

/-- In a coherent engine the heads are the present hashes that no present node lists as a parent. -/
theorem MerkleCrdtEngine.Coherent.mem_heads_iff {e : MerkleCrdtEngine} (hc : e.Coherent blake3)
    (h : Hash32) : h ∈ e.heads ↔
      e.arena.contains h = true ∧ ∀ k n, e.arena.getByHash k = some n → h ∉ n.parents := by
  rw [hc.mem_heads h]
  constructor
  · rintro ⟨hn, hl⟩
    exact ⟨DagArena.mem_names.mp hn, fun k n hk hp => hl (DagArena.mem_listed.mpr ⟨k, n, hk, hp⟩)⟩
  · rintro ⟨hcont, hall⟩
    refine ⟨DagArena.mem_names.mpr hcont, fun hl => ?_⟩
    obtain ⟨k, n, hk, hp⟩ := DagArena.mem_listed.mp hl
    exact hall k n hk hp

/-- Arenas that store nodes under their own hashes and hold the same nodes are equal as maps. -/
theorem DagArena.getByHash_eq_of_same_nodes {a b : DagArena} {D D' : List DagNode}
    (ha : a.Holds blake3 D) (hb : b.Holds blake3 D')
    (hsame : ∀ n, (∃ h, a.getByHash h = some n) ↔ ∃ h, b.getByHash h = some n) (h : Hash32) :
    a.getByHash h = b.getByHash h := by
  have key : ∀ {a b : DagArena} {D D' : List DagNode}, a.Holds blake3 D → b.Holds blake3 D' →
      (∀ n, (∃ h, a.getByHash h = some n) → ∃ h, b.getByHash h = some n) → a.Sub b := by
    intro a b D D' ha hb hsub k n hn
    obtain ⟨k', hk'⟩ := hsub n ⟨k, hn⟩
    rw [← (ha k n hn).2, (hb k' n hk').2]
    exact hk'
  have hab := key ha hb fun n => (hsame n).mp
  have hba := key hb ha fun n => (hsame n).mpr
  cases hg : a.getByHash h with
  | some n => exact (hab h n hg).symm
  | none =>
    cases hg' : b.getByHash h with
    | none => rfl
    | some n => rw [← hg, hba h n hg']

namespace CrdtActor

/-- After every run from an empty or a recovered state, in which no hash occurs among the parent links
of its own ancestors: the heads are the hashes in the arena that no node of the arena lists as a
parent, and `get_merkle_root` returns the root of these heads; a second replica, with any history,
whose arena holds the same nodes returns the same root. -/
theorem frontier_root_coherence {store store' : Option PersistentStore}
    (hstore : ∀ p, store = some p → p.Honest blake3)
    (hstore' : ∀ p, store' = some p → p.Honest blake3)
    {threshold gcThreshold threshold' gcThreshold' : ℕ} {ms ms' : List CrdtMsg}
    {D D' : List DagNode} {s s' : CrdtActor}
    (hrun : Run (Step blake3) (storedNodes store, new store threshold gcThreshold) ms (D, s))
    (hrun' : Run (Step blake3) (storedNodes store', new store' threshold' gcThreshold') ms' (D', s'))
    (hac : Acyclic (nodeCards blake3 D)) (hac' : Acyclic (nodeCards blake3 D')) :
    (s.engine.heads.Nodup ∧ ∀ h, h ∈ s.engine.heads ↔ s.engine.arena.contains h = true ∧
      ∀ k n, s.engine.arena.getByHash k = some n → h ∉ n.parents) ∧
    (s.engine.getMerkleRoot blake3).2 = rootOf blake3 s.engine.heads ∧
    ((∀ n, (∃ h, s.engine.arena.getByHash h = some n) ↔
        ∃ h, s'.engine.arena.getByHash h = some n) →
      (s.engine.getMerkleRoot blake3).2 = (s'.engine.getMerkleRoot blake3).2) := by
  obtain ⟨hc, hD⟩ := run_coherent hstore hrun hac
  obtain ⟨hc', hD'⟩ := run_coherent hstore' hrun' hac'
  have hroot := (MerkleCrdtEngine.getMerkleRoot_spec hc).1
  have hroot' := (MerkleCrdtEngine.getMerkleRoot_spec hc').1
  refine ⟨⟨hc.nodup, hc.mem_heads_iff⟩, hroot, fun hsame => ?_⟩
  have hget := DagArena.getByHash_eq_of_same_nodes hD hD' hsame
  have hheads : s.engine.heads.Perm s'.engine.heads := by
    refine (List.perm_ext_iff_of_nodup hc.nodup hc'.nodup).mpr fun h => ?_
    rw [hc.mem_heads_iff, hc'.mem_heads_iff, DagArena.contains_iff, DagArena.contains_iff]
    simp only [hget]
  rw [hroot, hroot', rootOf_perm hheads]

/-! ### A run of two replicas -/

/-- A digest for concrete runs: the last 32 bytes of the input. For a node without vector clock and
evidence this is its data hash. -/
def lastBytes (b : List Byte) : Hash32 :=
  ⟨(List.replicate 32 0 ++ b).drop b.length, by
    rw [List.length_drop, List.length_append, List.length_replicate]; omega⟩

/-- A node with neither vector clock nor evidence, whose data hash starts with the byte `i`. -/
def plainNode (parents : List Hash32) (i : Byte) : DagNode :=
  ⟨parents, zeros 64, ⟨i :: List.replicate 31 0, length_leading i⟩, ⟨[], VClock.sorted_nil⟩, none⟩

/-- One replica appends a node, the other one receives it. -/
theorem frontier_root_coherence_two_replicas :
    ∃ s s' : CrdtActor, s.engine.heads = s'.engine.heads ∧
      (s.engine.getMerkleRoot lastBytes).2 = (s'.engine.getMerkleRoot lastBytes).2 := by
  have hac : Acyclic (nodeCards lastBytes [plainNode [] 1]) := by
    intro h hh
    obtain ⟨k, ⟨ps, ⟨n, hn, -, rfl⟩, hk⟩, -⟩ := Relation.TransGen.head'_iff.mp hh
    rw [List.mem_singleton.mp hn] at hk
    exact absurd hk (by simp [plainNode])
  have hrun : Run (Step lastBytes) (storedNodes none, new none 2 1000)
      ([] ++ [.append (plainNode [] 1).dataHash (zeros 64) ⟨[], by simp⟩ none])
      ([plainNode [] 1], _) := .snoc .nil (.here _ _ _ fun _ => true)
  have hrun' : Run (Step lastBytes) (storedNodes none, new none 2 1000)
      ([] ++ [.merge [plainNode [] 1]]) ([plainNode [] 1], _) :=
    .snoc .nil (.here _ _ _ fun _ => true)
  refine ⟨_, _, ?_, (frontier_root_coherence (by simp) (by simp) hrun hrun' hac hac).2.2 ?_⟩
  · decide +kernel
  · intro n
    rfl

end CrdtActor

end Aimp.Crdt
