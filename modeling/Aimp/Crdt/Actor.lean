import Aimp.Crdt.MerkleDag
import Aimp.Crdt.Consensus

/-!
# The CRDT actor

`CrdtActor` owns the engine and the quorum manager and handles one message after another. A run of
the actor (`CrdtActor.Run`) records the nodes it has accepted, so that statements about a run can
speak of them after the garbage collector has dropped them.
-/

namespace Aimp.Crdt

/-- Tracks the garbage collection epochs. -/
structure EpochManager where
  currentEpoch : ℕ
  finalizedRoot : Option Hash32

namespace EpochManager

/-- `EpochManager::new`. -/
def new : EpochManager := ⟨0, none⟩

/-- `EpochManager::finalize_epoch`. -/
def finalizeEpoch (m : EpochManager) (root : Hash32) : EpochManager :=
  ⟨m.currentEpoch + 1, some root⟩

end EpochManager

/-- Messages handled by the actor. -/
inductive CrdtMsg where
  | append (dataHash : Hash32) (signature : Signature) (vclock : VClock)
      (evidence : Option AiEvidence)
  | merge (nodes : List DagNode)
  | getRoot
  | getDiff (remoteHeads : List Hash32)

/-- The answers sent back to the caller. -/
inductive CrdtResp where
  | hash (h : Hash32)
  | added (n : ℕ)
  | root (h : Hash32)
  | diff (nodes : List DagNode)

structure CrdtActor where
  engine : MerkleCrdtEngine
  quorum : QuorumManager
  epochs : EpochManager

/-- The id under which a node votes: the first 32 bytes of its signature. -/
def DagNode.voterId (n : DagNode) : Hash32 := ⟨n.signature.val.take 32, by simp [n.signature.2]⟩

namespace CrdtActor

/-- Recovery: load the nodes of the store, then drop the heads that are parents of stored nodes. -/
def recover (e : MerkleCrdtEngine) (s : PersistentStore) : MerkleCrdtEngine :=
  let e := (s.loadBatched 1024).foldl (fun e batch => batch.foldl (fun e c =>
    { e with arena := (e.arena.insert c.1 c.2).1, heads := e.heads.insert c.1 }) e) e
  let allParents := e.arena.getAllIter.flatMap fun c => c.2.parents
  { e with heads := e.heads.filter (· ∉ allParents) }.invalidateRoot

/-- `CrdtActor::new`. -/
def new (store : Option PersistentStore) (threshold gcThreshold : ℕ) : CrdtActor where
  engine := match store with
    | some s => recover (MerkleCrdtEngine.withGcThreshold store gcThreshold) s
    | none => MerkleCrdtEngine.withGcThreshold store gcThreshold
  quorum := QuorumManager.new threshold
  epochs := EpochManager.new

/-- `CrdtMsg::Append`: if the garbage collector just ran, the epoch is finalized with the root. -/
def handleAppend (blake3 : List Byte → Hash32) (disk : Hash32 → Bool) (s : CrdtActor)
    (dataHash : Hash32) (signature : Signature) (vclock : VClock) (evidence : Option AiEvidence) :
    CrdtActor × Hash32 :=
  let gcWasPending := s.engine.gcThreshold - 1 ≤ s.engine.mutationsSinceGc
  let (engine, hash) := s.engine.appendMutation blake3 disk dataHash signature vclock evidence
  if gcWasPending ∧ engine.mutationsSinceGc = 0 then
    let (engine, root) := engine.getMerkleRoot blake3
    ({ s with engine := engine, epochs := s.epochs.finalizeEpoch root }, hash)
  else ({ s with engine := engine }, hash)

/-- The quorum part of merging a node that is not in the arena: detect equivocation, then let the
evidence vote. -/
def mergeVote (blake3 : List Byte → Hash32) (q : QuorumManager) (node : DagNode) : QuorumManager :=
  let q := (q.checkEquivocation node (node.computeHash blake3)).1
  match node.evidence with
  | some evidence => (q.observe blake3 node.voterId evidence).1
  | none => q

/-- The loop body of `CrdtMsg::Merge`. -/
def mergeNode (blake3 : List Byte → Hash32) (disk : Hash32 → Bool) (acc : CrdtActor × ℕ)
    (node : DagNode) : CrdtActor × ℕ :=
  let (s, added) := acc
  let hash := node.computeHash blake3
  if s.engine.arena.contains hash then (s, added)
  else
    let engine := { s.engine with arena := (s.engine.arena.insert hash node).1 }
    ({ s with engine := engine.persist disk hash node, quorum := mergeVote blake3 s.quorum node },
      added + 1)

/-- Recompute the heads from the full arena: a node is a head iff no other node lists it as a
parent. -/
def recomputeHeads (e : MerkleCrdtEngine) : MerkleCrdtEngine :=
  let hasChildren := e.arena.getAllIter.flatMap fun c => c.2.parents
  { e with heads := (e.arena.getAllIter.map Prod.fst).filter (· ∉ hasChildren) }.invalidateRoot

/-- `CrdtMsg::Merge`. -/
def handleMerge (blake3 : List Byte → Hash32) (disk : Hash32 → Bool) (s : CrdtActor)
    (nodes : List DagNode) : CrdtActor × ℕ :=
  let (s, added) := nodes.foldl (mergeNode blake3 disk) (s, 0)
  if 0 < added then ({ s with engine := recomputeHeads s.engine }, added) else (s, added)

/-- The body of the loop in `CrdtActor::run`; `disk` tells which writes to the store succeed. -/
def handle (blake3 : List Byte → Hash32) (disk : Hash32 → Bool) (s : CrdtActor) :
    CrdtMsg → CrdtActor × CrdtResp
  | .append dataHash signature vclock evidence =>
    let (s, h) := s.handleAppend blake3 disk dataHash signature vclock evidence
    (s, .hash h)
  | .merge nodes =>
    let (s, n) := s.handleMerge blake3 disk nodes
    (s, .added n)
  | .getRoot =>
    let (engine, root) := s.engine.getMerkleRoot blake3
    ({ s with engine := engine }, .root root)
  | .getDiff remoteHeads => (s, .diff (s.engine.getVdiff remoteHeads))

/-- The set of heads may be iterated over in another order. -/
def withHeads (s : CrdtActor) (heads : List Hash32) : CrdtActor :=
  { s with engine := { s.engine with heads := heads } }

/-- The nodes a message hands to the replica: the one that `Append` creates, those that `Merge`
delivers. -/
def accepts (s : CrdtActor) : CrdtMsg → List DagNode
  | .append dataHash signature vclock evidence =>
    [s.engine.mutation dataHash signature vclock evidence]
  | .merge nodes => nodes
  | .getRoot => []
  | .getDiff _ => []

/-- One message, from any iteration order of the heads and with any outcome of the writes. `D` are
the nodes accepted before it, `D'` those accepted up to and including it. -/
inductive Step (blake3 : List Byte → Hash32) :
    List DagNode × CrdtActor → CrdtMsg → List DagNode × CrdtActor → Prop where
  | mk {D : List DagNode} {s : CrdtActor} (m : CrdtMsg) (disk : Hash32 → Bool)
      {heads : List Hash32} (horder : heads.Perm s.engine.heads) :
      Step blake3 (D, s) m
        (D ++ (s.withHeads heads).accepts m, ((s.withHeads heads).handle blake3 disk m).1)

end CrdtActor

end Aimp.Crdt
