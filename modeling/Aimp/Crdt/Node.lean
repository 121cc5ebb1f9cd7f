import Aimp.Protocol.Bytes
import Aimp.Lib.HashMap

/-!
# DAG nodes and their content hash

A node of the Merkle-DAG and `compute_hash`, which streams the node's fields into BLAKE3 one after
another. BLAKE3 itself is a parameter `blake3` of the development.
-/

namespace Aimp.Crdt

/-- Evidence of an AI inference decision. -/
structure AiEvidence where
  prompt : String
  decision : String
  modelHash : Hash32
  timestamp : U64
deriving DecidableEq

/-- `BTreeMap<String, u64>`: its entries in the order of their keys. -/
structure VClock where
  entries : List (String × U64)
  sorted : (entries.map Prod.fst).Pairwise (· < ·)
deriving DecidableEq

theorem VClock.sorted_nil : (([] : List (String × U64)).map Prod.fst).Pairwise (· < ·) :=
  List.Pairwise.nil

/-- A single node in the Merkle-DAG. -/
structure DagNode where
  /-- Causal links. -/
  parents : List Hash32
  signature : Signature
  dataHash : Hash32
  vclock : VClock
  evidence : Option AiEvidence
deriving DecidableEq

/-- The bytes hashed for the vector clock. -/
def VClock.hashInput (c : VClock) : List Byte :=
  c.entries.flatMap fun e => asBytes e.1 ++ (toLeBytes e.2).val

/-- The bytes hashed for the evidence. -/
def AiEvidence.hashInput (e : AiEvidence) : List Byte :=
  asBytes e.prompt ++ asBytes e.decision ++ e.modelHash.val ++ (toLeBytes e.timestamp).val

/-- The bytes that `compute_hash` streams into the hasher. -/
def DagNode.hashInput (n : DagNode) : List Byte :=
  n.parents.flatMap Subtype.val ++ n.signature.val ++ n.dataHash.val ++ n.vclock.hashInput ++
    n.evidence.elim [] AiEvidence.hashInput

/-- `DagNode::compute_hash`: the content hash of a node. -/
def DagNode.computeHash {δ : Type} (blake3 : List Byte → δ) (n : DagNode) : δ :=
  blake3 n.hashInput

end Aimp.Crdt
