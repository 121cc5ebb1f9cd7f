import Aimp.Crdt.Proofs.FrontierProofs

/-!
# Runs of the actor

What each message does to the engine, and from it what holds in every state that the actor reaches.
-/

namespace Aimp.Crdt

open Frontier

variable {blake3 : List Byte → Hash32}

/-- Every node of the arena is stored under its own hash, and is one of the nodes `D`. -/
def DagArena.Holds (blake3 : List Byte → Hash32) (a : DagArena) (D : List DagNode) : Prop :=
  ∀ h n, a.getByHash h = some n → n ∈ D ∧ n.computeHash blake3 = h

/-- No two of the nodes `D` have the same hash. -/
def CollisionFree (blake3 : List Byte → Hash32) (D : List DagNode) : Prop :=
  ∀ m ∈ D, ∀ n ∈ D, m.computeHash blake3 = n.computeHash blake3 → m = n

theorem CollisionFree.mono {D D' : List DagNode} (h : CollisionFree blake3 D')
    (hsub : ∀ n ∈ D, n ∈ D') : CollisionFree blake3 D :=
  fun m hm n hn => h m (hsub m hm) n (hsub n hn)

namespace DagArena

variable {a b : DagArena} {D D' : List DagNode}

theorem Holds.cards (h : a.Holds blake3 D) : a.cards ⊆ nodeCards blake3 D := by
  rintro ⟨k, ps⟩ ⟨n, hn, hps⟩
  obtain ⟨hD, hk⟩ := h k n hn
  exact ⟨n, hD, hk, hps⟩

theorem Holds.mono (h : a.Holds blake3 D) (hsub : ∀ n ∈ D, n ∈ D') : a.Holds blake3 D' :=
  fun k n hn => ⟨hsub n (h k n hn).1, (h k n hn).2⟩

theorem Sub.holds (hs : a.Sub b) (h : b.Holds blake3 D) : a.Holds blake3 D :=
  fun k n hn => h k n (hs k n hn)

/-- The arena `b` is `a` with the nodes `nodes` added, each under its hash unless that is taken. -/
structure Delivered (blake3 : List Byte → Hash32) (a : DagArena) (nodes : List DagNode)
    (b : DagArena) : Prop where
  sub : a.Sub b
  origin : ∀ h n, b.getByHash h = some n →
    a.getByHash h = some n ∨ n ∈ nodes ∧ n.computeHash blake3 = h
  present : ∀ n ∈ nodes, b.contains (n.computeHash blake3) = true

theorem Delivered.refl (a : DagArena) : a.Delivered blake3 [] a :=
  ⟨fun _ _ hn => hn, fun _ _ hn => Or.inl hn, by simp⟩

theorem Delivered.of_contains {done : List DagNode} {n : DagNode} (h : a.Delivered blake3 done b)
    (hcont : b.contains (n.computeHash blake3) = true) : a.Delivered blake3 (done ++ [n]) b := by
  refine ⟨h.sub, fun k m hm => ?_, fun m hm => ?_⟩
  · rcases h.origin k m hm with h1 | ⟨h1, h2⟩
    · exact Or.inl h1
    · exact Or.inr ⟨List.mem_append_left _ h1, h2⟩
  · rcases List.mem_append.mp hm with hm | hm
    · exact h.present m hm
    · rw [List.mem_singleton.mp hm]
      exact hcont

theorem Delivered.insert {done : List DagNode} {n : DagNode} (h : a.Delivered blake3 done b)
    (hcont : b.contains (n.computeHash blake3) = false) :
    a.Delivered blake3 (done ++ [n]) (b.insert (n.computeHash blake3) n).1 := by
  have hget := getByHash_insert (n := n) hcont
  refine ⟨fun k m hm => ?_, fun k m hm => ?_, fun m hm => ?_⟩
  · have hb : b.contains k = true := contains_iff.mpr ⟨m, h.sub k m hm⟩
    rw [hget, if_neg]
    · exact h.sub k m hm
    · rintro rfl
      rw [hcont] at hb
      exact absurd hb (by simp)
  · rw [hget] at hm
    split at hm
    · rename_i hk
      obtain rfl := Option.some.inj hm
      exact Or.inr ⟨by simp, hk.symm⟩
    · rcases h.origin k m hm with h1 | ⟨h1, h2⟩
      · exact Or.inl h1
      · exact Or.inr ⟨List.mem_append_left _ h1, h2⟩
  · rw [contains_iff]
    simp only [hget]
    split
    · exact ⟨n, rfl⟩
    · rename_i hne
      rcases List.mem_append.mp hm with hm | hm
      · exact contains_iff.mp (h.present m hm)
      · exact absurd (by rw [List.mem_singleton.mp hm]) hne

theorem Delivered.holds {nodes : List DagNode} (h : a.Delivered blake3 nodes b)
    (hD : a.Holds blake3 D) : b.Holds blake3 (D ++ nodes) := by
  intro k n hn
  rcases h.origin k n hn with h1 | ⟨h1, h2⟩
  · exact ⟨List.mem_append_left _ (hD k n h1).1, (hD k n h1).2⟩
  · exact ⟨List.mem_append_right _ h1, h2⟩

/-- A node that is inserted under its hash. -/
theorem delivered_insert (a : DagArena) (n : DagNode) :
    a.Delivered blake3 [n] (a.insert (n.computeHash blake3) n).1 := by
  cases hcont : a.contains (n.computeHash blake3) with
  | true =>
    rw [insert_of_contains hcont]
    exact (Delivered.refl a).of_contains hcont
  | false => exact (Delivered.refl a).insert hcont

end DagArena

/-! ## Append -/

namespace MerkleCrdtEngine

variable {e : MerkleCrdtEngine} {D : List DagNode}

/-- `append_mutation` makes its node the only head, whether or not the garbage collector runs. -/
theorem appendMutation_spec (disk : Hash32 → Bool) {dataHash : Hash32} {signature : Signature}
    {vclock : VClock} {evidence : Option AiEvidence} (hc : e.Coherent blake3)
    (hD : e.arena.Holds blake3 D)
    (hac : Acyclic (nodeCards blake3 (D ++ [e.mutation dataHash signature vclock evidence]))) :
    (e.appendMutation blake3 disk dataHash signature vclock evidence).1.Coherent blake3 ∧
      (e.appendMutation blake3 disk dataHash signature vclock evidence).1.heads =
        [(e.mutation dataHash signature vclock evidence).computeHash blake3] ∧
      (e.appendMutation blake3 disk dataHash signature vclock evidence).1.arena.Holds blake3
        (D ++ [e.mutation dataHash signature vclock evidence]) := by
  set node := e.mutation dataHash signature vclock evidence with hnode
  set hash := node.computeHash blake3 with hhash
  have hsub : insert (hash, node.parents) e.arena.cards ⊆ nodeCards blake3 (D ++ [node]) := by
    rw [nodeCards_append]
    refine Set.insert_subset (Or.inr ⟨node, List.mem_singleton_self _, rfl, rfl⟩) ?_
    exact hD.cards.trans Set.subset_union_left
  obtain ⟨htop, hheads, hget⟩ := addTop_spec disk hc rfl (hac.mono hsub)
  obtain ⟨hcount, hheads', harena, -⟩ := countMutation_spec htop
  refine ⟨hcount, hheads'.trans hheads, harena.holds ?_⟩
  intro k n hn
  rw [hget] at hn
  split at hn
  · rename_i hk
    obtain rfl := Option.some.inj hn
    exact ⟨by simp, hk.symm⟩
  · obtain ⟨h1, h2⟩ := hD k n hn
    exact ⟨List.mem_append_left _ h1, h2⟩

end MerkleCrdtEngine

namespace CrdtActor

variable {s : CrdtActor} {D : List DagNode}

theorem handleAppend_spec (disk : Hash32 → Bool) {dataHash : Hash32} {signature : Signature}
    {vclock : VClock} {evidence : Option AiEvidence} (hc : s.engine.Coherent blake3)
    (hD : s.engine.arena.Holds blake3 D)
    (hac : Acyclic (nodeCards blake3 (D ++ [s.engine.mutation dataHash signature vclock evidence]))) :
    (s.handleAppend blake3 disk dataHash signature vclock evidence).1.engine.Coherent blake3 ∧
      (s.handleAppend blake3 disk dataHash signature vclock evidence).1.engine.heads =
        [(s.engine.mutation dataHash signature vclock evidence).computeHash blake3] ∧
      (s.handleAppend blake3 disk dataHash signature vclock evidence).1.engine.arena.Holds blake3
        (D ++ [s.engine.mutation dataHash signature vclock evidence]) := by
  obtain ⟨h1, h2, h3⟩ := MerkleCrdtEngine.appendMutation_spec disk hc hD hac
  unfold handleAppend
  dsimp only
  split
  · obtain ⟨-, g1, g2, g3, -⟩ := MerkleCrdtEngine.getMerkleRoot_spec h1
    exact ⟨g1, g2.trans h2, by rw [g3]; exact h3⟩
  · exact ⟨h1, h2, h3⟩

/-! ## Merge -/

/-- The state in the middle of a `Merge` into `s`, after the nodes `done`: only the arena, the store
and the quorum have changed, the arena only if a node was added. -/
structure Merging (blake3 : List Byte → Hash32) (s : CrdtActor) (done : List DagNode)
    (acc : CrdtActor × ℕ) : Prop where
  heads : acc.1.engine.heads = s.engine.heads
  soa : acc.1.engine.headsSoa = s.engine.headsSoa
  root : acc.1.engine.cachedRoot = s.engine.cachedRoot
  unchanged : acc.2 = 0 → acc.1.engine.arena = s.engine.arena
  delivered : s.engine.arena.Delivered blake3 done acc.1.engine.arena

theorem Merging.mergeNode {done : List DagNode} {acc : CrdtActor × ℕ}
    (h : Merging blake3 s done acc) (disk : Hash32 → Bool) (n : DagNode) :
    Merging blake3 s (done ++ [n]) (CrdtActor.mergeNode blake3 disk acc n) := by
  obtain ⟨t, added⟩ := acc
  unfold CrdtActor.mergeNode
  dsimp only
  split
  · rename_i hcont
    exact ⟨h.heads, h.soa, h.root, h.unchanged, h.delivered.of_contains hcont⟩
  · rename_i hcont
    exact ⟨h.heads, h.soa, h.root, by simp, h.delivered.insert (by simpa using hcont)⟩

theorem merging_foldl (disk : Hash32 → Bool) (nodes done : List DagNode) {acc : CrdtActor × ℕ}
    (h : Merging blake3 s done acc) :
    Merging blake3 s (done ++ nodes) (nodes.foldl (CrdtActor.mergeNode blake3 disk) acc) := by
  induction nodes generalizing done acc with
  | nil => simpa using h
  | cons n nodes ih =>
    have := ih (done ++ [n]) (h.mergeNode disk n)
    simpa using this

/-- The loop of `Merge` over all the nodes. -/
theorem merging_merge (blake3 : List Byte → Hash32) (s : CrdtActor) (disk : Hash32 → Bool)
    (nodes : List DagNode) :
    Merging blake3 s nodes (nodes.foldl (CrdtActor.mergeNode blake3 disk) (s, 0)) := by
  have hstart : Merging blake3 s [] (s, 0) := ⟨rfl, rfl, rfl, fun _ => rfl, .refl _⟩
  have hm := merging_foldl disk nodes [] hstart
  rwa [List.nil_append] at hm

/-- Recomputing the heads makes any engine coherent. -/
theorem recomputeHeads_coherent (e : MerkleCrdtEngine) :
    (recomputeHeads e).Coherent blake3 := by
  refine MerkleCrdtEngine.coherent_invalidateRoot ?_ ?_
  · exact (DagArena.nodup_keys_getAllIter _).filter _
  · intro h
    simp only [List.mem_filter, DagArena.mem_allHashes, DagArena.mem_allParents,
      decide_eq_true_eq]
    rfl

/-- `Merge` adds the nodes it delivers. -/
theorem handleMerge_delivered (blake3 : List Byte → Hash32) (s : CrdtActor) (disk : Hash32 → Bool)
    (nodes : List DagNode) :
    s.engine.arena.Delivered blake3 nodes (s.handleMerge blake3 disk nodes).1.engine.arena := by
  have hm := merging_merge blake3 s disk nodes
  unfold handleMerge
  dsimp only
  split
  · exact hm.delivered
  · exact hm.delivered

/-- `Merge` adds the nodes it delivers and leaves the heads coherent. -/
theorem handleMerge_spec (disk : Hash32 → Bool) (nodes : List DagNode)
    (hc : s.engine.Coherent blake3) :
    (s.handleMerge blake3 disk nodes).1.engine.Coherent blake3 ∧
      s.engine.arena.Delivered blake3 nodes (s.handleMerge blake3 disk nodes).1.engine.arena := by
  have hm := merging_merge blake3 s disk nodes
  refine ⟨?_, handleMerge_delivered blake3 s disk nodes⟩
  unfold handleMerge
  dsimp only
  split
  · exact recomputeHeads_coherent _
  · rename_i hadd
    refine ⟨?_, ?_, ?_, ?_⟩
    · rw [hm.heads]
      exact hc.nodup
    · rw [hm.heads, hm.unchanged (by omega)]
      exact hc.mem_heads
    · rw [hm.heads, hm.soa]
      exact hc.soa
    · rw [hm.heads, hm.root]
      exact hc.root

/-! ## Recovery -/

/-- The state in the middle of the recovery, after the records `done`. -/
structure Recovering (done : List (Hash32 × DagNode)) (e : MerkleCrdtEngine) : Prop where
  nodup : e.heads.Nodup
  mem_heads : ∀ h, h ∈ e.heads ↔ e.arena.contains h = true
  origin : ∀ h n, e.arena.getByHash h = some n → (h, n) ∈ done

theorem Recovering.insert {done : List (Hash32 × DagNode)} {e : MerkleCrdtEngine}
    (h : Recovering done e) (c : Hash32 × DagNode) :
    Recovering (done ++ [c])
      { e with arena := (e.arena.insert c.1 c.2).1, heads := e.heads.insert c.1 } := by
  cases hcont : e.arena.contains c.1 with
  | true =>
    have hin : c.1 ∈ e.heads := (h.mem_heads c.1).mpr hcont
    rw [DagArena.insert_of_contains hcont, List.insert_of_mem hin]
    exact ⟨h.nodup, h.mem_heads, fun k n hn => List.mem_append_left _ (h.origin k n hn)⟩
  | false =>
    have hget := DagArena.getByHash_insert (n := c.2) hcont
    refine ⟨h.nodup.insert, fun k => ?_, fun k n hn => ?_⟩
    · show k ∈ e.heads.insert c.1 ↔ (e.arena.insert c.1 c.2).1.contains k = true
      rw [List.mem_insert_iff, h.mem_heads, DagArena.contains_iff, DagArena.contains_iff]
      simp only [hget]
      by_cases hk : k = c.1 <;> simp [hk]
    · replace hn : (e.arena.insert c.1 c.2).1.getByHash k = some n := hn
      rw [hget] at hn
      split at hn
      · rename_i hk
        obtain rfl := Option.some.inj hn
        simp [hk]
      · exact List.mem_append_left _ (h.origin k n hn)

theorem recovering_foldl (l done : List (Hash32 × DagNode)) {e : MerkleCrdtEngine}
    (h : Recovering done e) :
    Recovering (done ++ l) (l.foldl (fun e c =>
      { e with arena := (e.arena.insert c.1 c.2).1, heads := e.heads.insert c.1 }) e) := by
  induction l generalizing done e with
  | nil => simpa using h
  | cons c l ih =>
    have := ih (done ++ [c]) (h.insert c)
    simpa using this

end CrdtActor

/-- Every record of the store is a node under its own hash, as `save_node` is called. -/
def PersistentStore.Honest (blake3 : List Byte → Hash32) (s : PersistentStore) : Prop :=
  ∀ h n, s.records.lookup h = some n → n.computeHash blake3 = h

/-- The nodes in a store, if there is one. -/
def storedNodes : Option PersistentStore → List DagNode
  | some s => s.records.entries.map fun e => e.2
  | none => []

namespace CrdtActor

variable {s : CrdtActor} {D : List DagNode}

/-- Recovery leaves the engine coherent, and holding stored nodes only. -/
theorem recover_spec {gcThreshold : ℕ} {store : Option PersistentStore} {p : PersistentStore}
    (hp : p.Honest blake3) :
    (recover (MerkleCrdtEngine.withGcThreshold store gcThreshold) p).Coherent blake3 ∧
      (recover (MerkleCrdtEngine.withGcThreshold store gcThreshold) p).arena.Holds blake3
        (storedNodes (some p)) := by
  have hstart : Recovering [] (MerkleCrdtEngine.withGcThreshold store gcThreshold) :=
    ⟨List.nodup_nil, by simp [MerkleCrdtEngine.withGcThreshold, DagArena.contains_iff],
      by simp [MerkleCrdtEngine.withGcThreshold]⟩
  have hrec := recovering_foldl ((p.loadBatched 1024).flatten) [] hstart
  rw [List.foldl_flatten, List.nil_append, PersistentStore.flatten_loadBatched] at hrec
  refine ⟨MerkleCrdtEngine.coherent_invalidateRoot (hrec.nodup.filter _) ?_, ?_⟩
  · intro h
    simp only [List.mem_filter, hrec.mem_heads, ← DagArena.mem_names, DagArena.mem_allParents,
      decide_eq_true_eq]
    rfl
  · intro h n hn
    obtain ⟨⟨k, m⟩, hm, heq⟩ := List.mem_map.mp (hrec.origin h n hn)
    obtain ⟨rfl, rfl⟩ := Prod.mk.inj heq
    exact ⟨List.mem_map.mpr ⟨_, hm, rfl⟩, hp _ _ (AList.mem_lookup_iff.mpr hm)⟩

/-- Recovery puts every record into the arena. -/
theorem contains_recover {e : MerkleCrdtEngine} {p : PersistentStore} {c : Hash32 × DagNode}
    (hc : c ∈ (p.loadBatched 1024).flatten) : (recover e p).arena.contains c.1 = true := by
  have hload : ∀ (l : List (Hash32 × DagNode)) (e : MerkleCrdtEngine),
      e.arena.contains c.1 = true ∨ c ∈ l → (l.foldl (fun e d =>
        { e with arena := (e.arena.insert d.1 d.2).1, heads := e.heads.insert d.1 })
        e).arena.contains c.1 = true := by
    intro l
    induction l with
    | nil => exact fun e h => h.resolve_right List.not_mem_nil
    | cons d l ih =>
      intro e h
      refine ih _ ?_
      rcases h with h | h
      · exact Or.inl (DagArena.contains_insert.mpr (Or.inl h))
      · rcases List.mem_cons.mp h with rfl | h
        · exact Or.inl (DagArena.contains_insert.mpr (Or.inr rfl))
        · exact Or.inr h
  unfold recover
  dsimp only [MerkleCrdtEngine.invalidateRoot]
  rw [← List.foldl_flatten]
  exact hload _ _ (Or.inr hc)

/-- A new actor is coherent, and holds nodes of its store only. -/
theorem new_spec {store : Option PersistentStore} (hstore : ∀ p, store = some p → p.Honest blake3)
    (threshold gcThreshold : ℕ) :
    (new store threshold gcThreshold).engine.Coherent blake3 ∧
      (new store threshold gcThreshold).engine.arena.Holds blake3 (storedNodes store) := by
  cases store with
  | some p => exact recover_spec (hstore p rfl)
  | none =>
    refine ⟨⟨List.nodup_nil, fun h => ?_, List.Perm.refl _, ?_⟩, ?_⟩
    · refine ⟨fun hh => absurd hh (by simp [new, MerkleCrdtEngine.withGcThreshold]), ?_⟩
      rintro ⟨hn, -⟩
      rw [DagArena.mem_names, DagArena.contains_iff] at hn
      simp [new, MerkleCrdtEngine.withGcThreshold] at hn
    · simp [new, MerkleCrdtEngine.withGcThreshold]
    · intro h n hn
      simp [new, MerkleCrdtEngine.withGcThreshold] at hn

/-- The arena of a new actor has every node of its store. -/
theorem contains_new {store : Option PersistentStore}
    (hstore : ∀ p, store = some p → p.Honest blake3) (threshold gcThreshold : ℕ) {n : DagNode}
    (hn : n ∈ storedNodes store) :
    (new store threshold gcThreshold).engine.arena.contains (n.computeHash blake3) = true := by
  cases store with
  | none => exact absurd hn List.not_mem_nil
  | some p =>
    obtain ⟨c, hc, rfl⟩ := List.mem_map.mp hn
    rw [hstore p rfl c.1 c.2 (AList.mem_lookup_iff.mpr hc)]
    refine contains_recover (c := (c.1, c.2)) ?_
    rw [PersistentStore.flatten_loadBatched]
    exact List.mem_map.mpr ⟨c, hc, rfl⟩

/-! ## Runs -/

/-- Another iteration order of the heads keeps the engine coherent. -/
theorem coherent_withHeads {heads : List Hash32} (hc : s.engine.Coherent blake3)
    (hp : heads.Perm s.engine.heads) : (s.withHeads heads).engine.Coherent blake3 where
  nodup := hp.nodup_iff.mpr hc.nodup
  mem_heads h := hp.mem_iff.trans (hc.mem_heads h)
  soa := hc.soa.trans hp.symm
  root r hr := (hc.root r hr).trans (rootOf_perm hp).symm

/-- What one message does to a coherent engine. -/
theorem Step.coherent {D' : List DagNode} {s' : CrdtActor} {m : CrdtMsg}
    (hstep : Step blake3 (D, s) m (D', s')) (hac : Acyclic (nodeCards blake3 D'))
    (hc : s.engine.Coherent blake3) (hD : s.engine.arena.Holds blake3 D) :
    s'.engine.Coherent blake3 ∧ s'.engine.arena.Holds blake3 D' := by
  cases hstep with
  | @mk _ _ _ disk heads horder =>
    have hc' := coherent_withHeads hc horder
    have hD' : (s.withHeads heads).engine.arena.Holds blake3 D := hD
    cases m with
    | append dataHash signature vclock evidence =>
      obtain ⟨h1, -, h3⟩ := handleAppend_spec disk hc' hD' hac
      exact ⟨h1, h3⟩
    | merge nodes =>
      obtain ⟨h1, h2⟩ := handleMerge_spec disk nodes hc'
      exact ⟨h1, h2.holds hD'⟩
    | getRoot =>
      obtain ⟨-, h2, -, h4, -⟩ := MerkleCrdtEngine.getMerkleRoot_spec hc'
      refine ⟨h2, ?_⟩
      show (MerkleCrdtEngine.getMerkleRoot blake3 _).1.arena.Holds blake3 (D ++ [])
      rw [h4, List.append_nil]
      exact hD'
    | getDiff remoteHeads =>
      refine ⟨hc', ?_⟩
      show (s.withHeads heads).engine.arena.Holds blake3 (D ++ [])
      rw [List.append_nil]
      exact hD'

/-- A message handled in the iteration order at hand. -/
theorem Step.here (D : List DagNode) (s : CrdtActor) (m : CrdtMsg) (disk : Hash32 → Bool) :
    Step blake3 (D, s) m (D ++ s.accepts m, (s.handle blake3 disk m).1) :=
  .mk m disk (List.Perm.refl _)

theorem Step.accepted_mono {D' : List DagNode} {s' : CrdtActor} {m : CrdtMsg}
    (hstep : Step blake3 (D, s) m (D', s')) : ∀ n ∈ D, n ∈ D' := by
  cases hstep
  exact fun n hn => List.mem_append_left _ hn

/-- The engine is coherent after every run whose nodes are acyclic. -/
theorem run_coherent {store : Option PersistentStore}
    (hstore : ∀ p, store = some p → p.Honest blake3) {threshold gcThreshold : ℕ}
    {ms : List CrdtMsg} {t : List DagNode × CrdtActor}
    (hrun : Run (Step blake3) (storedNodes store, new store threshold gcThreshold) ms t) :
    Acyclic (nodeCards blake3 t.1) →
      t.2.engine.Coherent blake3 ∧ t.2.engine.arena.Holds blake3 t.1 := by
  refine hrun.invariant (P := fun t => Acyclic (nodeCards blake3 t.1) →
    t.2.engine.Coherent blake3 ∧ t.2.engine.arena.Holds blake3 t.1)
    (fun _ => new_spec hstore threshold gcThreshold) ?_
  rintro ⟨D, s⟩ m ⟨D', s'⟩ ih hstep hac
  obtain ⟨hc, hD⟩ := ih (hac.mono (nodeCards_mono hstep.accepted_mono))
  exact hstep.coherent hac hc hD

end CrdtActor

end Aimp.Crdt
