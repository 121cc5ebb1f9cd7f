import Aimp.Crdt.Proofs.ActorProofs

/-!
# Everything accepted is below the heads

Whatever the replica has accepted stays an ancestor of a head, whether or not the garbage collector drops
it. Hence a new mutation is above everything that the replica has accepted before.
-/

namespace Aimp.Crdt

open Frontier Relation

variable {blake3 : List Byte → Hash32} {D D' : List DagNode}

/-- `Ancestor blake3 D x y`: there is a path from `y` to `x` through the parents of accepted nodes. -/
def Ancestor (blake3 : List Byte → Hash32) (D : List DagNode) (x y : DagNode) : Prop :=
  TransGen (Child (nodeCards blake3 D)) (x.computeHash blake3) (y.computeHash blake3)

theorem Ancestor.mono {x y : DagNode} (h : Ancestor blake3 D x y) (hsub : ∀ n ∈ D, n ∈ D') :
    Ancestor blake3 D' x y :=
  TransGen.mono (child_mono (nodeCards_mono hsub)) _ _ h

namespace CrdtActor

variable {s s' : CrdtActor}

/-- Every accepted node is a head or an ancestor of one. -/
def BelowHeads (blake3 : List Byte → Hash32) (D : List DagNode) (s : CrdtActor) : Prop :=
  ∀ n ∈ D, ∃ h ∈ s.engine.heads, ReflTransGen (Child (nodeCards blake3 D)) (n.computeHash blake3) h

/-- What the arena holds is below the heads. -/
theorem below_of_contains (hc : s.engine.Coherent blake3) (hD : s.engine.arena.Holds blake3 D)
    (hac : Acyclic (nodeCards blake3 D)) {k : Hash32} (hk : s.engine.arena.contains k = true) :
    ∃ h ∈ s.engine.heads, ReflTransGen (Child (nodeCards blake3 D)) k h := by
  obtain ⟨f, hf, hkf⟩ := exists_frontier_above (hac.mono hD.cards) s.engine.arena.finite_names
    (DagArena.mem_names.mpr hk)
  exact ⟨f, (hc.mem_heads f).mpr hf, ReflTransGen.mono (child_mono hD.cards) _ _ hkf⟩

/-- If the old heads are below the new ones, then so is everything that was below the old ones. -/
theorem BelowHeads.lift (hb : BelowHeads blake3 D s) (hsub : ∀ n ∈ D, n ∈ D')
    (hheads : ∀ k ∈ s.engine.heads,
      ∃ h ∈ s'.engine.heads, ReflTransGen (Child (nodeCards blake3 D')) k h) {n : DagNode} (hn : n ∈ D) :
    ∃ h ∈ s'.engine.heads,
      ReflTransGen (Child (nodeCards blake3 D')) (n.computeHash blake3) h := by
  obtain ⟨k, hk, hnk⟩ := hb n hn
  obtain ⟨h, hh, hkh⟩ := hheads k hk
  exact ⟨h, hh, (ReflTransGen.mono (child_mono (nodeCards_mono hsub)) _ _ hnk).trans hkh⟩

/-- A mutation is above everything accepted before it. -/
theorem BelowHeads.mutation (hb : BelowHeads blake3 D s) (dataHash : Hash32) (signature : Signature)
    (vclock : VClock) (evidence : Option AiEvidence) {x : DagNode} (hx : x ∈ D) :
    Ancestor blake3 (D ++ [s.engine.mutation dataHash signature vclock evidence]) x
      (s.engine.mutation dataHash signature vclock evidence) := by
  obtain ⟨h, hh, hxh⟩ := hb x hx
  have hsub : ∀ n ∈ D, n ∈ D ++ [s.engine.mutation dataHash signature vclock evidence] :=
    fun n hn => List.mem_append_left _ hn
  refine TransGen.tail' (ReflTransGen.mono (child_mono (nodeCards_mono hsub)) _ _ hxh) ?_
  exact ⟨s.engine.heads, ⟨_, List.mem_append_right _ (List.mem_singleton_self _), rfl, rfl⟩, hh⟩

theorem belowHeads_append (disk : Hash32 → Bool) {dataHash : Hash32} {signature : Signature}
    {vclock : VClock} {evidence : Option AiEvidence} (hc : s.engine.Coherent blake3)
    (hD : s.engine.arena.Holds blake3 D)
    (hac : Acyclic (nodeCards blake3 (D ++ [s.engine.mutation dataHash signature vclock evidence])))
    (hb : BelowHeads blake3 D s) :
    BelowHeads blake3 (D ++ [s.engine.mutation dataHash signature vclock evidence])
      (s.handleAppend blake3 disk dataHash signature vclock evidence).1 := by
  obtain ⟨-, hheads, -⟩ := handleAppend_spec disk hc hD hac
  intro n hn
  refine ⟨(s.engine.mutation dataHash signature vclock evidence).computeHash blake3, ?_, ?_⟩
  · rw [hheads]
    exact List.mem_singleton_self _
  · rcases List.mem_append.mp hn with hn | hn
    · exact (hb.mutation dataHash signature vclock evidence hn).to_reflTransGen
    · rw [List.mem_singleton.mp hn]

theorem belowHeads_merge (disk : Hash32 → Bool) (nodes : List DagNode)
    (hc : s.engine.Coherent blake3) (hD : s.engine.arena.Holds blake3 D)
    (hac : Acyclic (nodeCards blake3 (D ++ nodes))) (hb : BelowHeads blake3 D s) :
    BelowHeads blake3 (D ++ nodes) (s.handleMerge blake3 disk nodes).1 := by
  obtain ⟨hc', hdel⟩ := handleMerge_spec disk nodes hc
  have hbelow : ∀ k, (s.handleMerge blake3 disk nodes).1.engine.arena.contains k = true →
      ∃ h ∈ (s.handleMerge blake3 disk nodes).1.engine.heads,
        ReflTransGen (Child (nodeCards blake3 (D ++ nodes))) k h :=
    fun k => below_of_contains hc' (hdel.holds hD) hac
  intro n hn
  rcases List.mem_append.mp hn with hn | hn
  · refine hb.lift (fun n hn => List.mem_append_left _ hn) (fun k hk => hbelow k ?_) hn
    -- an old head is in the old arena, hence in the new one
    obtain ⟨m, hm⟩ := DagArena.contains_iff.mp (DagArena.mem_names.mp ((hc.mem_heads k).mp hk).1)
    exact DagArena.contains_iff.mpr ⟨m, hdel.sub k m hm⟩
  · exact hbelow _ (hdel.present n hn)

/-- One message keeps everything accepted below the heads. -/
theorem Step.belowHeads {m : CrdtMsg} (hstep : Step blake3 (D, s) m (D', s'))
    (hac : Acyclic (nodeCards blake3 D')) (hc : s.engine.Coherent blake3)
    (hD : s.engine.arena.Holds blake3 D) (hb : BelowHeads blake3 D s) : BelowHeads blake3 D' s' := by
  cases hstep with
  | @mk _ _ _ disk heads horder =>
    have hc' := coherent_withHeads hc horder
    have hD' : (s.withHeads heads).engine.arena.Holds blake3 D := hD
    have hb' : BelowHeads blake3 D (s.withHeads heads) := by
      intro n hn
      obtain ⟨h, hh, hnh⟩ := hb n hn
      exact ⟨h, horder.mem_iff.mpr hh, hnh⟩
    cases m with
    | append dataHash signature vclock evidence => exact belowHeads_append disk hc' hD' hac hb'
    | merge nodes => exact belowHeads_merge disk nodes hc' hD' hac hb'
    | getRoot =>
      obtain ⟨-, -, hheads, -, -⟩ := MerkleCrdtEngine.getMerkleRoot_spec hc'
      show BelowHeads blake3 (D ++ []) _
      rw [List.append_nil]
      intro n hn
      obtain ⟨h, hh, hnh⟩ := hb' n hn
      exact ⟨h, hheads ▸ hh, hnh⟩
    | getDiff remoteHeads =>
      show BelowHeads blake3 (D ++ []) _
      rw [List.append_nil]
      exact hb'

/-- A new actor has every node of its store below its heads. -/
theorem belowHeads_new {store : Option PersistentStore}
    (hstore : ∀ p, store = some p → p.Honest blake3) (threshold gcThreshold : ℕ)
    (hac : Acyclic (nodeCards blake3 (storedNodes store))) :
    BelowHeads blake3 (storedNodes store) (new store threshold gcThreshold) := by
  obtain ⟨hc, hD⟩ := new_spec hstore threshold gcThreshold
  intro n hn
  exact below_of_contains hc hD hac (contains_new hstore threshold gcThreshold hn)

end CrdtActor

end Aimp.Crdt
