import Aimp.Crdt.Proofs.ActorProofs

/-!
# Heads without assumptions on cycles

What the heads are in every state that the actor reaches if hashes do not collide, even if some message
delivered nodes that are linked in a cycle: they cover the arena, and as soon as the arena has no cycle
they are its frontier (`Covered.coherent`).
-/

namespace Aimp.Crdt

open Frontier

variable {blake3 : List Byte → Hash32} {D : List DagNode}

namespace MerkleCrdtEngine

/-- Every tip is a head, and so is nothing else except for a single head that some node lists. -/
structure Covered (blake3 : List Byte → Hash32) (D : List DagNode) (e : MerkleCrdtEngine) : Prop where
  nodup : e.heads.Nodup
  tips_heads : ∀ h ∈ tips e.arena.cards, h ∈ e.heads
  present : ∀ h ∈ e.heads, h ∈ names e.arena.cards
  heads_tips : (∃ h, e.heads = [h]) ∨ ∀ h ∈ e.heads, h ∈ tips e.arena.cards
  holds : e.arena.Holds blake3 D
  soa : e.headsSoa.Perm e.heads
  root : ∀ r, e.cachedRoot = some r → r = rootOf blake3 e.heads

variable {e : MerkleCrdtEngine}

theorem Coherent.covered (hc : e.Coherent blake3) (hD : e.arena.Holds blake3 D) :
    e.Covered blake3 D where
  nodup := hc.nodup
  tips_heads h := (hc.mem_heads h).mpr
  present h hh := ((hc.mem_heads h).mp hh).1
  heads_tips := Or.inr fun h => (hc.mem_heads h).mp
  holds := hD
  soa := hc.soa
  root := hc.root

/-- Without cycles the heads are the frontier. -/
theorem Covered.coherent (h : e.Covered blake3 D) (hac : Acyclic e.arena.cards) :
    e.Coherent blake3 := by
  refine ⟨h.nodup, fun k => ⟨fun hk => ?_, h.tips_heads k⟩, h.soa, h.root⟩
  rcases h.heads_tips with ⟨t, hone⟩ | htips
  · obtain ⟨f, hf, -⟩ := exists_frontier_above hac e.arena.finite_names (h.present k hk)
    have hft := h.tips_heads f hf
    rw [hone, List.mem_singleton] at hk hft
    rwa [hk, ← hft]
  · exact htips k hk

theorem Covered.mono {D' : List DagNode} (h : e.Covered blake3 D) (hsub : ∀ n ∈ D, n ∈ D') :
    e.Covered blake3 D' :=
  ⟨h.nodup, h.tips_heads, h.present, h.heads_tips, h.holds.mono hsub, h.soa, h.root⟩

/-! ## Append -/

theorem Covered.addTop (h : e.Covered blake3 D) (disk : Hash32 → Bool) {node : DagNode}
    (hps : node.parents = e.heads) (hcf : CollisionFree blake3 (D ++ [node])) :
    (e.addTop disk (node.computeHash blake3) node).Covered blake3 (D ++ [node]) := by
  set hash := node.computeHash blake3 with hhash
  have hnode : node ∈ D ++ [node] := List.mem_append_right _ (List.mem_singleton_self _)
  have hheads : (e.addTop disk hash node).heads = [hash] := by
    show (node.parents.foldl List.erase e.heads).insert hash = [hash]
    rw [hps, foldl_erase_self]
    rfl
  have harena : (e.addTop disk hash node).arena = (e.arena.insert hash node).1 := rfl
  have hdel := @DagArena.delivered_insert blake3 e.arena node
  have hholds : (e.arena.insert hash node).1.Holds blake3 (D ++ [node]) := hdel.holds h.holds
  have hself : (e.arena.insert hash node).1.getByHash hash = some node := by
    obtain ⟨m, hm⟩ := DagArena.contains_iff.mp (hdel.present node (List.mem_singleton_self _))
    obtain ⟨hmD, hmh⟩ := hholds hash m hm
    rw [hm, hcf m hmD node hnode hmh]
  have hold : ∀ k ∈ names (e.arena.insert hash node).1.cards, k ≠ hash → k ∈ names e.arena.cards := by
    rintro k ⟨ps, n, hn, hps⟩ hne
    rcases hdel.origin k n hn with hn | ⟨hn, hk⟩
    · exact ⟨ps, n, hn, hps⟩
    · rw [List.mem_singleton.mp hn] at hk
      exact absurd hk.symm hne
  refine ⟨?_, ?_, ?_, Or.inl ⟨hash, hheads⟩, hholds, .refl _,
    by simp [MerkleCrdtEngine.addTop, invalidateRoot]⟩
  · rw [hheads]
    exact List.nodup_singleton _
  · rintro k ⟨hk, hnl⟩
    rw [hheads, List.mem_singleton]
    by_contra hne
    -- what was a tip before is listed by the new node
    have htip : k ∈ tips e.arena.cards := ⟨hold k hk hne, fun hl => hnl (listed_mono hdel.sub.cards hl)⟩
    exact hnl (DagArena.mem_listed.mpr ⟨hash, node, hself, hps ▸ h.tips_heads k htip⟩)
  · intro k hk
    rw [hheads, List.mem_singleton] at hk
    rw [hk, harena, DagArena.mem_names, DagArena.contains_iff]
    exact ⟨node, hself⟩

theorem Covered.compactHistory (h : e.Covered blake3 D) : e.compactHistory.Covered blake3 D := by
  have hsub := e.arena.retain_sub (e.history fun _ => false).visited
  have hcards := e.arena.cards_retain (e.history fun _ => false).visited
  have hkeep : ∀ k ∈ e.heads, k ∈ (e.history fun _ => false).visited := fun k => heads_subset_keep
  have htips : ∀ k ∈ tips (e.arena.retain (e.history fun _ => false).visited).1.cards,
      k ∈ e.heads := by
    rintro k ⟨hk, hnl⟩
    by_contra hnot
    rw [hcards] at hk hnl
    obtain ⟨ps, hps, hkK⟩ := hk
    obtain ⟨c, hc, qs, hqs, hkq⟩ := keep_child hkK hnot
    exact hnl ⟨c, qs, ⟨hqs, hc⟩, hkq⟩
  have hpresent : ∀ k ∈ e.heads,
      k ∈ names (e.arena.retain (e.history fun _ => false).visited).1.cards := by
    intro k hk
    rw [hcards]
    obtain ⟨ps, hps⟩ := h.present k hk
    exact ⟨ps, hps, hkeep k hk⟩
  have hheads : (∃ k, e.heads = [k]) ∨ ∀ k ∈ e.heads,
      k ∈ tips (e.arena.retain (e.history fun _ => false).visited).1.cards :=
    h.heads_tips.imp_right fun hall k hk =>
      ⟨hpresent k hk, fun hl => (hall k hk).2 (listed_mono hsub.cards hl)⟩
  have hfilter : e.heads.filter (· ∈ (e.history fun _ => false).visited) = e.heads :=
    List.filter_eq_self.mpr fun k hk => by simpa using hkeep k hk
  unfold MerkleCrdtEngine.compactHistory
  dsimp only
  split
  · rw [hfilter]
    exact ⟨h.nodup, htips, hpresent, hheads, hsub.holds h.holds, .refl _, by simp [invalidateRoot]⟩
  · exact ⟨h.nodup, htips, hpresent, hheads, hsub.holds h.holds, h.soa, h.root⟩

theorem Covered.countMutation (h : e.Covered blake3 D) : e.countMutation.Covered blake3 D := by
  have h' : ({ e with mutationsSinceGc := e.mutationsSinceGc + 1 } : MerkleCrdtEngine).Covered
      blake3 D := ⟨h.nodup, h.tips_heads, h.present, h.heads_tips, h.holds, h.soa, h.root⟩
  unfold MerkleCrdtEngine.countMutation
  dsimp only
  split
  · have hc := h'.compactHistory
    exact ⟨hc.nodup, hc.tips_heads, hc.present, hc.heads_tips, hc.holds, hc.soa, hc.root⟩
  · exact h'

/-- Computing the root changes neither the heads nor the arena. -/
theorem Covered.getMerkleRoot (h : e.Covered blake3 D) :
    (e.getMerkleRoot blake3).1.Covered blake3 D := by
  have hroot : rootOf blake3 e.heads = rootOf blake3 e.headsSoa := rootOf_perm h.soa.symm
  unfold MerkleCrdtEngine.getMerkleRoot
  split
  · exact h
  · split
    · rename_i hemp
      refine ⟨h.nodup, h.tips_heads, h.present, h.heads_tips, h.holds, h.soa, fun r hr => ?_⟩
      rw [hroot, rootOf, if_pos hemp]
      exact (Option.some.inj hr).symm
    · rename_i hemp
      refine ⟨h.nodup, h.tips_heads, h.present, h.heads_tips, h.holds,
        (List.perm_insertionSort _ _).trans h.soa, fun r hr => ?_⟩
      rw [hroot, rootOf, if_neg hemp]
      exact (Option.some.inj hr).symm

end MerkleCrdtEngine

/-! ## Runs -/

namespace CrdtActor

variable {s s' : CrdtActor} {D' : List DagNode}

theorem covered_withHeads {heads : List Hash32} (h : s.engine.Covered blake3 D)
    (hp : heads.Perm s.engine.heads) : (s.withHeads heads).engine.Covered blake3 D where
  nodup := hp.nodup_iff.mpr h.nodup
  tips_heads k hk := hp.mem_iff.mpr (h.tips_heads k hk)
  present k hk := h.present k (hp.mem_iff.mp hk)
  heads_tips := h.heads_tips.imp (fun ⟨k, hk⟩ => ⟨k, List.perm_singleton.mp (hk ▸ hp)⟩)
    fun hall k hk => hall k (hp.mem_iff.mp hk)
  holds := h.holds
  soa := h.soa.trans hp.symm
  root r hr := (h.root r hr).trans (rootOf_perm hp).symm

theorem covered_handleAppend (disk : Hash32 → Bool) {dataHash : Hash32} {signature : Signature}
    {vclock : VClock} {evidence : Option AiEvidence} (h : s.engine.Covered blake3 D)
    (hcf : CollisionFree blake3 (D ++ [s.engine.mutation dataHash signature vclock evidence])) :
    (s.handleAppend blake3 disk dataHash signature vclock evidence).1.engine.Covered blake3
      (D ++ [s.engine.mutation dataHash signature vclock evidence]) := by
  have happend := (h.addTop disk rfl hcf).countMutation
  unfold handleAppend
  dsimp only
  split
  · exact happend.getMerkleRoot
  · exact happend

theorem covered_handleMerge (disk : Hash32 → Bool) (nodes : List DagNode)
    (h : s.engine.Covered blake3 D) :
    (s.handleMerge blake3 disk nodes).1.engine.Covered blake3 (D ++ nodes) := by
  have hm := merging_merge blake3 s disk nodes
  unfold handleMerge
  dsimp only
  split
  · exact (recomputeHeads_coherent _).covered (hm.delivered.holds h.holds)
  · rename_i hadd
    have harena := hm.unchanged (by omega)
    refine ⟨?_, ?_, ?_, ?_, hm.delivered.holds h.holds, ?_, ?_⟩
    · rw [hm.heads]
      exact h.nodup
    · rw [hm.heads, harena]
      exact h.tips_heads
    · rw [hm.heads, harena]
      exact h.present
    · rw [hm.heads, harena]
      exact h.heads_tips
    · rw [hm.heads, hm.soa]
      exact h.soa
    · rw [hm.heads, hm.root]
      exact h.root

theorem Step.covered {m : CrdtMsg} (hstep : Step blake3 (D, s) m (D', s'))
    (hcf : CollisionFree blake3 D') (h : s.engine.Covered blake3 D) :
    s'.engine.Covered blake3 D' := by
  cases hstep with
  | @mk _ _ _ disk heads horder =>
    have h' := covered_withHeads h horder
    have hsame : ∀ n ∈ D, n ∈ D ++ [] := fun n hn => List.mem_append_left _ hn
    cases m with
    | append dataHash signature vclock evidence => exact covered_handleAppend disk h' hcf
    | merge nodes => exact covered_handleMerge disk nodes h'
    | getRoot => exact h'.getMerkleRoot.mono hsame
    | getDiff remoteHeads => exact h'.mono hsame

/-- In every state of a run without collisions the heads cover the arena. -/
theorem run_covered {store : Option PersistentStore}
    (hstore : ∀ p, store = some p → p.Honest blake3) {threshold gcThreshold : ℕ}
    {ms : List CrdtMsg} {t : List DagNode × CrdtActor}
    (hrun : Run (Step blake3) (storedNodes store, new store threshold gcThreshold) ms t) :
    CollisionFree blake3 t.1 → t.2.engine.Covered blake3 t.1 := by
  refine hrun.invariant
    (P := fun t => CollisionFree blake3 t.1 → t.2.engine.Covered blake3 t.1) (fun _ => ?_) ?_
  · obtain ⟨hc, hD⟩ := new_spec hstore threshold gcThreshold
    exact hc.covered hD
  · rintro ⟨D, s⟩ m ⟨D', s'⟩ ih hstep hcf
    exact hstep.covered hcf (ih (hcf.mono hstep.accepted_mono))

end CrdtActor

end Aimp.Crdt
