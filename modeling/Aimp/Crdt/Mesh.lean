import Aimp.Crdt.Actor

/-!
# A mesh of replicas

Each replica is an actor of its own. A replica creates nodes by `Append`; what it is given to merge are
nodes that some replica has created, in any order and any number of times.
-/

namespace Aimp.Crdt

structure Mesh (ι : Type*) where
  /-- The nodes that each replica has accepted, and its actor. -/
  replica : ι → List DagNode × CrdtActor
  /-- The nodes created so far, in the order of their creation. -/
  created : List DagNode

namespace Mesh

variable {ι : Type*}

/-- All replicas are new, with thresholds of their own and without a store. -/
def init (threshold gcThreshold : ι → ℕ) : Mesh ι where
  replica i := ([], CrdtActor.new none (threshold i) (gcThreshold i))
  created := []

/-- A node with the same content may be created twice; it is one node. -/
def announce (created : List DagNode) (n : DagNode) : List DagNode :=
  if n ∈ created then created else created ++ [n]

/-- One replica handles one message. -/
inductive Step [DecidableEq ι] (blake3 : List Byte → Hash32) :
    Mesh ι → ι × CrdtMsg → Mesh ι → Prop where
  | append {w : Mesh ι} {i : ι} {D : List DagNode} {s s' : CrdtActor} {node : DagNode}
      {dataHash : Hash32} {signature : Signature} {vclock : VClock} {evidence : Option AiEvidence}
      (hi : w.replica i = (D, s))
      (hstep : CrdtActor.Step blake3 (D, s) (.append dataHash signature vclock evidence)
        (D ++ [node], s')) :
      Step blake3 w (i, .append dataHash signature vclock evidence)
        ⟨Function.update w.replica i (D ++ [node], s'), announce w.created node⟩
  | merge {w : Mesh ι} {i : ι} {t : List DagNode × CrdtActor} {nodes : List DagNode}
      (hsent : ∀ n ∈ nodes, n ∈ w.created)
      (hstep : CrdtActor.Step blake3 (w.replica i) (.merge nodes) t) :
      Step blake3 w (i, .merge nodes) ⟨Function.update w.replica i t, w.created⟩
  | getRoot {w : Mesh ι} {i : ι} {t : List DagNode × CrdtActor}
      (hstep : CrdtActor.Step blake3 (w.replica i) .getRoot t) :
      Step blake3 w (i, .getRoot) ⟨Function.update w.replica i t, w.created⟩
  | getDiff {w : Mesh ι} {i : ι} {t : List DagNode × CrdtActor} {remoteHeads : List Hash32}
      (hstep : CrdtActor.Step blake3 (w.replica i) (.getDiff remoteHeads) t) :
      Step blake3 w (i, .getDiff remoteHeads) ⟨Function.update w.replica i t, w.created⟩

end Mesh

end Aimp.Crdt
