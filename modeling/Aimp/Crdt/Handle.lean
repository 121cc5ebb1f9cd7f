import Aimp.Lib.Mailbox
import Aimp.Crdt.Actor

/-!
# The handle of the actor

`CrdtHandle` sends a message to the mailbox of the actor, with a channel for the answer, and waits for the
answer. Handles are cloned and shared by all tasks of a node; a caller may give up, as the health check does
after its timeout.
-/

namespace Aimp.Crdt

namespace CrdtActor

/-- One message with its answer, from any iteration order of the heads and with any outcome of the writes. -/
inductive Serve (blake3 : List Byte → Hash32) :
    List DagNode × CrdtActor → CrdtMsg → CrdtResp → List DagNode × CrdtActor → Prop where
  | mk {D : List DagNode} {s : CrdtActor} (m : CrdtMsg) (disk : Hash32 → Bool)
      {heads : List Hash32} (horder : heads.Perm s.engine.heads) :
      Serve blake3 (D, s) m ((s.withHeads heads).handle blake3 disk m).2
        (D ++ (s.withHeads heads).accepts m, ((s.withHeads heads).handle blake3 disk m).1)

end CrdtActor

/-- The actor with its mailbox, and the calls `κ` made through its handles. -/
abbrev CrdtHandle (κ : Type*) := Mailbox.System κ CrdtMsg CrdtResp (List DagNode × CrdtActor)

namespace CrdtHandle

variable {κ : Type*} [DecidableEq κ]

/-- One step of the actor or of a caller; the mailbox has this capacity. -/
abbrev Step (blake3 : List Byte → Hash32) (capacity : ℕ) :
    CrdtHandle κ → Mailbox.Action κ CrdtMsg CrdtResp → CrdtHandle κ → Prop :=
  Mailbox.Step (CrdtActor.Serve blake3) capacity

end CrdtHandle

end Aimp.Crdt
