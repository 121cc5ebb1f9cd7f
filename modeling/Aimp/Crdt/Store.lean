import Aimp.Crdt.Node

/-!
# The persistent store

The store as the engine sees it: the records that decrypt under the store's key. Whether a write
reaches the disk is the environment's choice and is passed to `saveNode`; the engine ignores it.
-/

namespace Aimp.Crdt

structure PersistentStore where
  records : HashMap Hash32 DagNode

namespace PersistentStore

/-- `PersistentStore::save_node`, where `ok` tells whether the write succeeds. -/
def saveNode (s : PersistentStore) (hash : Hash32) (node : DagNode) (ok : Bool) : PersistentStore :=
  if ok then ⟨s.records.insert hash node⟩ else s

/-- The loop of `load_batched`: a batch is handed out when it is full, and at the end if it is not
empty. -/
def batches {α : Type} (size : ℕ) : List α → List α → List (List α)
  | batch, [] => if batch.isEmpty then [] else [batch]
  | batch, x :: xs =>
    if size ≤ (batch ++ [x]).length then (batch ++ [x]) :: batches size [] xs
    else batches size (batch ++ [x]) xs

/-- `PersistentStore::load_batched`: the records, in batches. -/
def loadBatched (s : PersistentStore) (batchSize : ℕ) : List (List (Hash32 × DagNode)) :=
  batches batchSize [] (s.records.entries.map fun e => (e.1, e.2))

theorem flatten_batches {α : Type} (size : ℕ) (batch l : List α) :
    (batches size batch l).flatten = batch ++ l := by
  induction l generalizing batch with
  | nil => cases batch <;> simp [batches]
  | cons x xs ih =>
    unfold batches
    split <;> simp [ih]

/-- Batching neither drops nor reorders records. -/
theorem flatten_loadBatched (s : PersistentStore) (batchSize : ℕ) :
    (s.loadBatched batchSize).flatten = s.records.entries.map fun e => (e.1, e.2) := by
  simp [loadBatched, flatten_batches]

end PersistentStore

end Aimp.Crdt
