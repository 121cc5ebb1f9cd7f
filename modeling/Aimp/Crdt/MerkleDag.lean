import Aimp.Lib.DepthWalk
import Aimp.Crdt.Arena
import Aimp.Crdt.Store
import Mathlib.Data.List.Sort

/-!
# The Merkle-DAG engine

`MerkleCrdtEngine` holds the nodes, the frontier (`heads`), a copy of the frontier from which the
root is computed (`headsSoa`) and the cached root. A hash set is a list without duplicates, in the
order in which it is iterated over. That order is not specified in the source, so the actor lets it
change between any two messages (`CrdtActor.Step`).
-/

namespace Aimp.Crdt

/-- `DAG_HISTORY_DEPTH`. -/
def dagHistoryDepth : ℕ := 100

/-- The state container for the Merkle-DAG. -/
structure MerkleCrdtEngine where
  arena : DagArena
  heads : List Hash32
  headsSoa : List Hash32
  mutationsSinceGc : ℕ
  gcThreshold : ℕ
  store : Option PersistentStore
  /-- `none`: the heads changed and the root needs recomputation. -/
  cachedRoot : Option Hash32

namespace MerkleCrdtEngine

/-- `MerkleCrdtEngine::with_gc_threshold`. -/
def withGcThreshold (store : Option PersistentStore) (gcThreshold : ℕ) : MerkleCrdtEngine where
  arena := DagArena.new
  heads := []
  headsSoa := []
  mutationsSinceGc := 0
  gcThreshold := gcThreshold
  store := store
  cachedRoot := none

/-- `MerkleCrdtEngine::invalidate_root`. -/
def invalidateRoot (e : MerkleCrdtEngine) : MerkleCrdtEngine :=
  { e with cachedRoot := none, headsSoa := e.heads }

/-- Persist a node if a store is active; `disk` tells which writes succeed. -/
def persist (e : MerkleCrdtEngine) (disk : Hash32 → Bool) (hash : Hash32) (node : DagNode) :
    MerkleCrdtEngine :=
  { e with store := e.store.map fun s => s.saveNode hash node (disk hash) }

/-- The walk over the history below the frontier, as far as `DAG_HISTORY_DEPTH` links, that does not
enter the names in `stop`. -/
def history (e : MerkleCrdtEngine) (stop : Hash32 → Bool) : DepthWalk.State Hash32 DagNode :=
  let spec : DepthWalk.Spec Hash32 DagNode :=
    ⟨e.arena.getByHash, DagNode.parents, stop, dagHistoryDepth⟩
  DepthWalk.walk spec (DepthWalk.fuelFor spec e.heads e.arena.getAllIter) e.heads

/-- `MerkleCrdtEngine::compact_history`: prune the nodes that the walk from the frontier does not
reach. -/
def compactHistory (e : MerkleCrdtEngine) : MerkleCrdtEngine :=
  let keep := (e.history fun _ => false).visited
  let (arena, removed) := e.arena.retain keep
  if 0 < removed then
    { e with arena := arena, heads := e.heads.filter (· ∈ keep) }.invalidateRoot
  else { e with arena := arena }

/-- The node that `append_mutation` creates: its parents are the current heads. -/
def mutation (e : MerkleCrdtEngine) (dataHash : Hash32) (signature : Signature) (vclock : VClock)
    (evidence : Option AiEvidence) : DagNode :=
  ⟨e.heads, signature, dataHash, vclock, evidence⟩

/-- The first part of `append_mutation`: put a new node on top of the frontier. -/
def addTop (e : MerkleCrdtEngine) (disk : Hash32 → Bool) (hash : Hash32) (node : DagNode) :
    MerkleCrdtEngine :=
  let e := { e with heads := (node.parents.foldl List.erase e.heads).insert hash }
  let e := e.persist disk hash node
  { e with arena := (e.arena.insert hash node).1 }.invalidateRoot

/-- The epoch GC trigger at the end of `append_mutation`. -/
def countMutation (e : MerkleCrdtEngine) : MerkleCrdtEngine :=
  let e := { e with mutationsSinceGc := e.mutationsSinceGc + 1 }
  if e.gcThreshold ≤ e.mutationsSinceGc then { e.compactHistory with mutationsSinceGc := 0 } else e

/-- `MerkleCrdtEngine::append_mutation`. -/
def appendMutation (blake3 : List Byte → Hash32) (disk : Hash32 → Bool) (e : MerkleCrdtEngine)
    (dataHash : Hash32) (signature : Signature) (vclock : VClock) (evidence : Option AiEvidence) :
    MerkleCrdtEngine × Hash32 :=
  let node := e.mutation dataHash signature vclock evidence
  let hash := node.computeHash blake3
  ((e.addTop disk hash node).countMutation, hash)

/-- `MerkleCrdtEngine::get_vdiff`: the nodes below the frontier that a peer with heads `remoteHeads`
may lack. -/
def getVdiff (e : MerkleCrdtEngine) (remoteHeads : List Hash32) : List DagNode :=
  (e.history fun h => h ∈ remoteHeads).found

/-- `MerkleCrdtEngine::get_merkle_root`. -/
def getMerkleRoot (blake3 : List Byte → Hash32) (e : MerkleCrdtEngine) :
    MerkleCrdtEngine × Hash32 :=
  match e.cachedRoot with
  | some root => (e, root)
  | none =>
    if e.headsSoa.isEmpty then ({ e with cachedRoot := some (zeros 32) }, zeros 32)
    else
      let sorted := e.headsSoa.insertionSort (· ≤ ·)
      let root := blake3 (sorted.flatMap Subtype.val)
      ({ e with headsSoa := sorted, cachedRoot := some root }, root)

end MerkleCrdtEngine

end Aimp.Crdt
