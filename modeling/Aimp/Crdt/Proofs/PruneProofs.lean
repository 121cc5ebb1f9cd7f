import Aimp.Crdt.Proofs.AntiEntropyProofs
import Aimp.Crdt.Proofs.GcProofs

/-!
# Pruning and the replicas

Which nodes a replica drops depends on when its own mutations let the garbage collector run, and `Merge`
never does. Two replicas that have accepted the same nodes keep the same ones for sure if no collection
finds a chain of parents longer than `DAG_HISTORY_DEPTH` (`same_retained`); a replica that has dropped a
node differs from one that has received all nodes at once.
-/

namespace Aimp.Crdt

open Frontier

variable {blake3 : List Byte → Hash32} {D D' : List DagNode}

namespace MerkleCrdtEngine

variable {e : MerkleCrdtEngine}

/-- Where no chain is too long, a collection drops nothing. -/
theorem compactHistory_of_shallow (hc : e.Coherent blake3) (hs : e.arena.Shallow) (h : Hash32) :
    e.compactHistory.arena.getByHash h = e.arena.getByHash h := by
  rw [getByHash_compactHistory]
  split
  · rfl
  · rename_i hv
    cases hn : e.arena.getByHash h with
    | none => rfl
    | some n =>
      have hall := history_complete hc hs (fun _ => false) (Q := fun _ => False)
        (fun _ h => absurd h Bool.false_ne_true) (fun _ _ _ h => h) hn
      exact absurd (hall.resolve_right id) hv

end MerkleCrdtEngine

namespace CrdtActor

variable {s s' : CrdtActor}

/-- The message lets the garbage collector run. -/
def CollectionDue (s : CrdtActor) : CrdtMsg → Prop
  | .append .. => s.engine.gcThreshold ≤ s.engine.mutationsSinceGc + 1
  | _ => False

/-- No chain of parents among the nodes has more than `DAG_HISTORY_DEPTH` links. -/
def NothingOld (blake3 : List Byte → Hash32) (D : List DagNode) : Prop :=
  ∀ l : List Hash32, l.IsChain (Child (nodeCards blake3 D)) → l.length ≤ dagHistoryDepth + 1

/-- Every accepted node is in the arena. -/
structure Retains (blake3 : List Byte → Hash32) (t : List DagNode × CrdtActor) : Prop where
  covered : t.2.engine.Covered blake3 t.1
  retained : ∀ n ∈ t.1, t.2.engine.arena.contains (n.computeHash blake3) = true

theorem Retains.getByHash_iff (h : Retains blake3 (D, s)) (hcf : CollisionFree blake3 D)
    {k : Hash32} {n : DagNode} :
    s.engine.arena.getByHash k = some n ↔ n ∈ D ∧ n.computeHash blake3 = k := by
  refine ⟨h.covered.holds k n, ?_⟩
  rintro ⟨hn, rfl⟩
  obtain ⟨m, hm⟩ := DagArena.contains_iff.mp (h.retained n hn)
  obtain ⟨hmD, hmh⟩ := h.covered.holds _ m hm
  rwa [hcf m hmD n hn hmh] at hm

theorem NothingOld.shallow {a : DagArena} (h : NothingOld blake3 D) (hD : a.Holds blake3 D) :
    a.Shallow :=
  fun l hl => h l (hl.imp fun _ _ => child_mono hD.cards _ _)

theorem retains_new {store : Option PersistentStore}
    (hstore : ∀ p, store = some p → p.Honest blake3) (threshold gcThreshold : ℕ) :
    Retains blake3 (storedNodes store, new store threshold gcThreshold) := by
  obtain ⟨hc, hD⟩ := new_spec hstore threshold gcThreshold
  exact ⟨hc.covered hD, fun n hn => contains_new hstore threshold gcThreshold hn⟩

/-- A message after which a collection has found nothing to drop. -/
theorem Step.retains {m : CrdtMsg} (hstep : Step blake3 (D, s) m (D', s'))
    (hold : CollectionDue s m → NothingOld blake3 D') (hcf : CollisionFree blake3 D')
    (h : Retains blake3 (D, s)) : Retains blake3 (D', s') := by
  refine ⟨hstep.covered hcf h.covered, ?_⟩
  have hretained := h.retained
  have hcovered := h.covered
  clear h
  cases hstep with
  | @mk _ _ _ disk heads horder =>
    cases m with
    | append dataHash signature vclock evidence =>
      have hcov := (covered_withHeads hcovered horder).addTop disk rfl hcf
      set node := (s.withHeads heads).engine.mutation dataHash signature vclock evidence
      set top := (s.withHeads heads).engine.addTop disk (node.computeHash blake3) node with htop
      have hall : ∀ n ∈ D ++ [node], top.arena.contains (n.computeHash blake3) = true := by
        intro n hn
        refine DagArena.contains_insert.mpr ?_
        rcases List.mem_append.mp hn with hn | hn
        · exact Or.inl (hretained n hn)
        · exact Or.inr (congrArg _ (List.mem_singleton.mp hn))
      intro n hn
      have harena := handleAppend_arena disk dataHash signature vclock evidence htop.symm
      show ((s.withHeads heads).handleAppend blake3 disk dataHash signature vclock
        evidence).1.engine.arena.contains _ = true
      rw [harena]
      split
      · rename_i hdue
        have hs := (hold hdue).shallow hcov.holds
        have hcoh := hcov.coherent hs.acyclic
        rw [DagArena.contains_iff]
        simp only [MerkleCrdtEngine.compactHistory_of_shallow hcoh hs]
        exact DagArena.contains_iff.mp (hall n hn)
      · exact hall n hn
    | merge nodes =>
      have hdel := handleMerge_delivered blake3 (s.withHeads heads) disk nodes
      intro n hn
      rcases List.mem_append.mp hn with hn | hn
      · exact hdel.sub.contains (hretained n hn)
      · exact hdel.present n hn
    | getRoot =>
      intro n hn
      show ((s.withHeads heads).engine.getMerkleRoot blake3).1.arena.contains _ = true
      rw [MerkleCrdtEngine.getMerkleRoot_arena]
      exact hretained n (List.append_nil D ▸ hn)
    | getDiff remoteHeads => exact fun n hn => hretained n (List.append_nil D ▸ hn)

/-- The steps of a replica whose collections find no long chain of parents. -/
def StepNothingOld (blake3 : List Byte → Hash32) (t : List DagNode × CrdtActor) (m : CrdtMsg)
    (u : List DagNode × CrdtActor) : Prop :=
  (CollectionDue t.2 m → NothingOld blake3 u.1) ∧ Step blake3 t m u

theorem run_retains {store : Option PersistentStore}
    (hstore : ∀ p, store = some p → p.Honest blake3) {threshold gcThreshold : ℕ} {ms : List CrdtMsg}
    {t : List DagNode × CrdtActor}
    (hrun : Run (StepNothingOld blake3) (storedNodes store, new store threshold gcThreshold) ms t) :
    CollisionFree blake3 t.1 → Retains blake3 t := by
  refine hrun.invariant (P := fun t => CollisionFree blake3 t.1 → Retains blake3 t)
    (fun _ => retains_new hstore threshold gcThreshold) ?_
  rintro ⟨D, s⟩ m ⟨D', s'⟩ ih ⟨hold, hstep⟩ hcf
  exact hstep.retains hold hcf (ih (hcf.mono hstep.accepted_mono))

/-- Two replicas with the same threshold that have accepted the same nodes, by whatever messages, have
the same nodes in their arenas, if the hashes of the nodes do not collide and no message of either run
that lets the garbage collector run finds a chain of parents longer than `DAG_HISTORY_DEPTH` among the
nodes accepted so far. And in any run that has dropped an accepted node, the arena differs from that of
a replica that has received the same nodes in one batch. -/
theorem same_retained {store store' : Option PersistentStore}
    (hstore : ∀ p, store = some p → p.Honest blake3)
    (hstore' : ∀ p, store' = some p → p.Honest blake3)
    {threshold threshold' gcThreshold : ℕ} {ms ms' : List CrdtMsg}
    (hrun : Run (StepNothingOld blake3) (storedNodes store, new store threshold gcThreshold) ms (D, s))
    (hrun' : Run (StepNothingOld blake3) (storedNodes store', new store' threshold' gcThreshold) ms'
      (D', s'))
    (hcf : CollisionFree blake3 D) (hsame : ∀ n, n ∈ D ↔ n ∈ D') :
    (∀ h, s.engine.arena.getByHash h = s'.engine.arena.getByHash h) ∧
    ∀ (ms₁ : List CrdtMsg) (D₁ : List DagNode) (s₁ : CrdtActor),
      Run (Step blake3) (storedNodes store, new store threshold gcThreshold) ms₁ (D₁, s₁) →
      CollisionFree blake3 D₁ →
      (∃ n ∈ D₁, s₁.engine.arena.contains (n.computeHash blake3) = false) →
      ∃ s₂, Run (Step blake3) ([], new none threshold gcThreshold) [.merge D₁] (D₁, s₂) ∧
        ∃ h, s₁.engine.arena.getByHash h ≠ s₂.engine.arena.getByHash h := by
  have hcf' : CollisionFree blake3 D' := hcf.mono fun n => (hsame n).mpr
  have hret := run_retains hstore hrun hcf
  have hret' := run_retains hstore' hrun' hcf'
  constructor
  · intro h
    ext n
    show s.engine.arena.getByHash h = some n ↔ s'.engine.arena.getByHash h = some n
    rw [hret.getByHash_iff hcf, hret'.getByHash_iff hcf', hsame]
  · rintro _ D₁ s₁ - hcf₁ ⟨n, hn, hlost⟩
    obtain ⟨s₂, hrun₂, -, -, -, hall⟩ := run_merge threshold gcThreshold hcf₁
    refine ⟨s₂, hrun₂, n.computeHash blake3, fun heq => ?_⟩
    rw [Bool.eq_false_iff, ne_eq, DagArena.contains_iff] at hlost
    exact hlost ⟨n, heq.trans (hall n hn)⟩

/-- A replica appends a node, another one receives it. -/
theorem same_retained_one_node :
    ∃ s s' : CrdtActor, s.engine.arena.getByHash (plainHash 1) = some (plainNode [] 1) ∧
      s.engine.arena.getByHash (plainHash 1) = s'.engine.arena.getByHash (plainHash 1) := by
  have hnone : ∀ p, (none : Option PersistentStore) = some p → p.Honest lastBytes := by simp
  have hold : NothingOld lastBytes [plainNode [] 1] := by
    intro l hl
    match l with
    | [] => exact Nat.zero_le _
    | [_] => exact Nat.succ_le_succ (Nat.zero_le _)
    | p :: h :: _ =>
      obtain ⟨_, ⟨n, hn, -, rfl⟩, hp⟩ := (List.isChain_cons_cons.mp hl).1
      rw [List.mem_singleton.mp hn] at hp
      cases hp
  have hrun : Run (StepNothingOld lastBytes) (storedNodes none, new none 2 1)
      ([] ++ [.append (plainNode [] 1).dataHash (zeros 64) ⟨[], by simp⟩ none])
      ([plainNode [] 1], _) := .snoc .nil ⟨fun _ => hold, .here _ _ _ fun _ => true⟩
  have hrun' : Run (StepNothingOld lastBytes) (storedNodes none, new none 2 1)
      ([] ++ [.merge [plainNode [] 1]]) ([plainNode [] 1], _) :=
    .snoc .nil ⟨fun h => h.elim, .here _ _ _ fun _ => true⟩
  refine ⟨_, _, ?_, (same_retained hnone hnone hrun hrun' ?_ fun _ => Iff.rfl).1 _⟩
  · decide +kernel
  · intro m hm n hn _
    rw [List.mem_singleton.mp hm, List.mem_singleton.mp hn]

/-- One replica has received a chain of 102 nodes and has appended a node to it; the other one has
received all these nodes. Only the first one has dropped the start of the chain. -/
theorem retained_differ :
    ∃ s s' : CrdtActor,
      Run (Step lastBytes) ([], new none 2 1)
        [.merge chain, .append (plainHash 200) (zeros 64) ⟨[], by simp⟩ none]
        (chain ++ [plainNode [plainHash 102] 200], s) ∧
      Run (Step lastBytes) ([], new none 2 1) [.merge (chain ++ [plainNode [plainHash 102] 200])]
        (chain ++ [plainNode [plainHash 102] 200], s') ∧
      CollisionFree lastBytes (chain ++ [plainNode [plainHash 102] 200]) ∧
      s.engine.arena.getByHash (plainHash 1) = none ∧
      s'.engine.arena.getByHash (plainHash 1) = some (chainNode 1) := by
  have hcf : CollisionFree lastBytes (chain ++ [plainNode [plainHash 102] 200]) :=
    lateAccepted_collisionFree.mono fun n hn => List.mem_append_left _ hn
  obtain ⟨s, hrun, hlacks⟩ := run_topped
  obtain ⟨s', hrun', -, -, -, hall⟩ := run_merge 2 1 hcf
  refine ⟨s, s', hrun, hrun', hcf, ?_, ?_⟩
  · have hlack := hlacks 1 (by decide)
    rw [Bool.eq_false_iff, ne_eq, DagArena.contains_iff] at hlack
    exact Option.eq_none_iff_forall_not_mem.mpr fun n hn => hlack ⟨n, hn⟩
  · have hmem : chainNode 1 ∈ chain := mem_chain.mpr ⟨1, by decide, by decide, rfl⟩
    have hget := hall _ (List.mem_append_left _ hmem)
    rwa [chainNode, computeHash_plainNode] at hget

end CrdtActor

end Aimp.Crdt
