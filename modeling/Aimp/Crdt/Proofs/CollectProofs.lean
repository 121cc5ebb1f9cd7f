import Aimp.Crdt.Proofs.ActorProofs

/-!
# What the garbage collector keeps

`Append` counts the mutations and lets the garbage collector run at the threshold; `Merge` does neither.
What outlives a collection hangs from a head by at most `DAG_HISTORY_DEPTH` links.
-/

namespace Aimp.Crdt

open Frontier

variable {blake3 : List Byte → Hash32}

namespace MerkleCrdtEngine

variable {e : MerkleCrdtEngine}

@[simp] theorem getMerkleRoot_arena (e : MerkleCrdtEngine) :
    (e.getMerkleRoot blake3).1.arena = e.arena := by
  unfold getMerkleRoot
  split
  · rfl
  · split <;> rfl

theorem compactHistory_arena (e : MerkleCrdtEngine) :
    e.compactHistory.arena = (e.arena.retain (e.history fun _ => false).visited).1 := by
  unfold compactHistory
  dsimp only
  split <;> rfl

theorem getByHash_compactHistory (e : MerkleCrdtEngine) (h : Hash32) :
    e.compactHistory.arena.getByHash h =
      if h ∈ (e.history fun _ => false).visited then e.arena.getByHash h else none := by
  rw [compactHistory_arena, DagArena.getByHash_retain]

/-- The nodes that are visited outlive a collection. -/
theorem getByHash_compactHistory_eq_some {h : Hash32} {n : DagNode} :
    e.compactHistory.arena.getByHash h = some n ↔
      h ∈ (e.history fun _ => false).visited ∧ e.arena.getByHash h = some n := by
  rw [getByHash_compactHistory]
  by_cases hv : h ∈ (e.history fun _ => false).visited
  · simp [hv]
  · simp [hv]

theorem countMutation_arena (e : MerkleCrdtEngine) : e.countMutation.arena =
    if e.gcThreshold ≤ e.mutationsSinceGc + 1 then e.compactHistory.arena else e.arena := by
  unfold countMutation
  dsimp only
  split
  · rw [compactHistory_arena e]
    exact compactHistory_arena _
  · rfl

/-- A node that outlives a collection hangs from a head by at most `DAG_HISTORY_DEPTH` links. -/
theorem hangs_of_kept {h : Hash32} (hh : e.compactHistory.arena.contains h = true) :
    ∃ l, (h :: l).IsChain (Child e.arena.cards) ∧ l.length ≤ dagHistoryDepth ∧
      ∃ r ∈ e.heads, (h :: l).getLast? = some r := by
  obtain ⟨n, hn⟩ := DagArena.contains_iff.mp hh
  obtain ⟨hv, -⟩ := getByHash_compactHistory_eq_some.mp hn
  obtain ⟨d, hd, l, hl, hlen, hlast⟩ := DepthWalk.walk_visited_hangs hv
  exact ⟨l, hl.imp fun _ _ => DagArena.child_iff.mpr, hlen.trans_le hd, hlast⟩

end MerkleCrdtEngine

namespace CrdtActor

variable {s : CrdtActor}

/-- What is left in the arena after an `Append`. -/
theorem handleAppend_arena (disk : Hash32 → Bool) (dataHash : Hash32) (signature : Signature)
    (vclock : VClock) (evidence : Option AiEvidence) {top : MerkleCrdtEngine}
    (htop : s.engine.addTop disk
      ((s.engine.mutation dataHash signature vclock evidence).computeHash blake3)
      (s.engine.mutation dataHash signature vclock evidence) = top) :
    (s.handleAppend blake3 disk dataHash signature vclock evidence).1.engine.arena =
      if s.engine.gcThreshold ≤ s.engine.mutationsSinceGc + 1 then top.compactHistory.arena
      else top.arena := by
  have harena : (s.handleAppend blake3 disk dataHash signature vclock evidence).1.engine.arena =
      top.countMutation.arena := by
    rw [← htop]
    unfold handleAppend MerkleCrdtEngine.appendMutation
    dsimp only
    split
    · exact MerkleCrdtEngine.getMerkleRoot_arena _
    · rfl
  rw [harena, MerkleCrdtEngine.countMutation_arena, ← htop]
  rfl

/-- `Merge` does not count towards the threshold. -/
theorem handleMerge_counter (blake3 : List Byte → Hash32) (disk : Hash32 → Bool) (s : CrdtActor)
    (nodes : List DagNode) :
    (s.handleMerge blake3 disk nodes).1.engine.gcThreshold = s.engine.gcThreshold ∧
      (s.handleMerge blake3 disk nodes).1.engine.mutationsSinceGc = s.engine.mutationsSinceGc := by
  have hnode : ∀ (acc : CrdtActor × ℕ) (n : DagNode),
      (mergeNode blake3 disk acc n).1.engine.gcThreshold = acc.1.engine.gcThreshold ∧
        (mergeNode blake3 disk acc n).1.engine.mutationsSinceGc = acc.1.engine.mutationsSinceGc := by
    intro acc n
    unfold mergeNode
    dsimp only
    split
    · exact ⟨rfl, rfl⟩
    · exact ⟨rfl, rfl⟩
  have hall : ∀ acc : CrdtActor × ℕ,
      (nodes.foldl (mergeNode blake3 disk) acc).1.engine.gcThreshold = acc.1.engine.gcThreshold ∧
        (nodes.foldl (mergeNode blake3 disk) acc).1.engine.mutationsSinceGc =
          acc.1.engine.mutationsSinceGc := by
    induction nodes with
    | nil => exact fun acc => ⟨rfl, rfl⟩
    | cons n nodes ih =>
      intro acc
      rw [List.foldl_cons, (ih _).1, (ih _).2]
      exact hnode acc n
  unfold handleMerge
  dsimp only
  split
  · exact hall (s, 0)
  · exact hall (s, 0)

end CrdtActor

end Aimp.Crdt
