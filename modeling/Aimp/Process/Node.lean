import Aimp.Network.Gossip
import Aimp.Process.Infer

/-!
# The pipeline of a node

What `main` connects: the listener hands each envelope it forwards to a task of its own, which holds a permit
until there is room in the channel to the dispatcher; the dispatcher spawns a handler for each envelope; and
a handler sends a message to the mailbox of the CRDT actor. The tasks run in any order.
-/

namespace Aimp.Process

open Aimp.Crdt Aimp.Network Aimp.Protocol Aimp.Rules

/-- `NETWORK_BACKPRESSURE_LIMIT`. -/
def networkBackpressureLimit : ℕ := 100

/-- The capacity of the channel to the dispatcher. -/
def rxChannel : ℕ := 1000

/-- The payload of a message by its op code. -/
inductive Payload where
  | pingRoot (h : Hash32)
  | syncRequest (heads : List Hash32)
  | syncResponse (nodes : List DagNode)
  | inferPrompt (prompt : String)
  | raw (bytes : List Byte)

/-- `rmp_serde::from_slice` for payloads. -/
structure PayloadSerde where
  heads : List Byte → Option (List Hash32)
  nodes : List Byte → Option (List DagNode)

/-- `Payload::decode`. -/
def Payload.decode (serde : PayloadSerde) (op : OpCode) (bytes : List Byte) : Payload :=
  match op with
  | .ping => if h : bytes.length = 32 then .pingRoot ⟨bytes, h⟩ else .raw bytes
  | .syncReq => ((serde.heads bytes).map .syncRequest).getD (.raw bytes)
  | .syncRes => ((serde.nodes bytes).map .syncResponse).getD (.raw bytes)
  | .infer => ((fromUtf8 bytes).map .inferPrompt).getD (.raw bytes)

/-- What the handler of a message does first. -/
inductive Handling where
  /-- `handle_sync` merges the nodes. -/
  | merge (nodes : List DagNode)
  /-- `handle_infer` evaluates the prompt. -/
  | infer (prompt : String)
  /-- Nothing: the op code has no handler, or the payload is malformed. -/
  | nothing

/-- The handler that the dispatcher spawns for a message. -/
def handling (serde : PayloadSerde) (data : AimpData) : Handling :=
  match data.op with
  | .syncRes =>
    match Payload.decode serde data.op data.payload with
    | .syncResponse nodes => .merge nodes
    | _ => .nothing
  | .infer =>
    match Payload.decode serde data.op data.payload with
    | .inferPrompt prompt => .infer prompt
    | _ => .nothing
  | .ping => .nothing
  | .syncReq => .nothing

/-- The state of a node. What has been forwarded, begun and handled is kept for reference only. -/
structure Node (Hs Ts : Type) where
  /-- The listener. -/
  network : GossipNetwork Hs Ts
  /-- The envelopes whose task waits for room in the channel. -/
  sending : List AimpEnvelope
  channel : List AimpEnvelope
  /-- The envelopes whose handler has not begun. -/
  spawned : List AimpEnvelope
  process : NodeProcess
  /-- What the listener has forwarded so far. -/
  forwarded : List AimpEnvelope
  /-- The envelopes whose handler has begun. -/
  begun : List AimpEnvelope
  /-- The messages that the actor has handled. -/
  handled : List CrdtMsg

variable {η Hs Ts : Type}

/-- What can happen next. -/
inductive NodeAction (η : Type) where
  | receive (p : Packet η)
  | enqueue (env : AimpEnvelope)
  | dispatch
  /-- The handler of an envelope begins, `handle_infer` as the task `i`. -/
  | begin (env : AimpEnvelope) (i : ℕ)
  /-- A step of a task of `handle_infer`, of the actor, or of another part of the node. -/
  | advance (a : Action)

/-- Whether an action is one of the tasks and parts of a node that no handler begins with. -/
def Action.advances : Action → Bool
  | .spawn _ _ => false
  | .deliver (.merge _) => false
  | _ => true

/-- The messages that the actor handles in an action. -/
def Action.handles (s : NodeProcess) : Action → List CrdtMsg
  | .process _ _ => s.mailbox.head?.toList.map Letter.msg
  | _ => []

/-- How a handler begins. -/
def Handling.step (P : Host) (s : NodeProcess) (env : AimpEnvelope) (i : ℕ) :
    Handling → Option NodeProcess
  | .merge nodes => s.step P (.deliver (.merge nodes))
  | .infer _ => s.step P (.spawn i env.data)
  | .nothing => some s

namespace Node

/-- A new node over a store. -/
def start (network : GossipNetwork Hs Ts) (process : NodeProcess) : Node Hs Ts :=
  ⟨network, [], [], [], process, [], [], []⟩

/-- The session table may be iterated over in another order. -/
def withSessions (n : Node Hs Ts) (sessions : HashMap SocketAddr (SecureSession Hs Ts)) : Node Hs Ts :=
  { n with network := { n.network with security := { n.network.security with sessions := sessions } } }

/-- The listener takes a packet. -/
def receive (rmp : RmpSerde) (ed : Ed25519) (snow : Snow η Hs Ts) (n : Node Hs Ts) (p : Packet η) :
    Node Hs Ts :=
  let received := n.network.receive rmp ed snow p
  { n with
    network := received.1
    sending := n.sending ++ received.2.toList
    forwarded := n.forwarded ++ received.2.toList }

/-- One step of a node. -/
inductive Step (P : Host) (serde : PayloadSerde) (rmp : RmpSerde) (ed : Ed25519) (snow : Snow η Hs Ts) :
    Node Hs Ts → NodeAction η → Node Hs Ts → Prop where
  /-- The listener holds a permit itself while it waits for a packet. -/
  | receive {n : Node Hs Ts} (p : Packet η) {sessions : HashMap SocketAddr (SecureSession Hs Ts)}
      (horder : sessions.entries.Perm n.network.security.sessions.entries)
      (hpermit : n.sending.length < networkBackpressureLimit) :
      Step P serde rmp ed snow n (.receive p) ((n.withSessions sessions).receive rmp ed snow p)
  | enqueue {n : Node Hs Ts} {env : AimpEnvelope} (hsending : env ∈ n.sending)
      (hroom : n.channel.length < rxChannel) :
      Step P serde rmp ed snow n (.enqueue env)
        { n with sending := n.sending.erase env, channel := n.channel ++ [env] }
  | dispatch {n : Node Hs Ts} {env : AimpEnvelope} {rest : List AimpEnvelope}
      (hchannel : n.channel = env :: rest) :
      Step P serde rmp ed snow n .dispatch { n with channel := rest, spawned := n.spawned ++ [env] }
  | begin {n : Node Hs Ts} {env : AimpEnvelope} {i : ℕ} {process : NodeProcess}
      (hspawned : env ∈ n.spawned)
      (hstep : (handling serde env.data).step P n.process env i = some process) :
      Step P serde rmp ed snow n (.begin env i)
        { n with spawned := n.spawned.erase env, process := process, begun := n.begun ++ [env] }
  | advance {n : Node Hs Ts} {a : Action} {process : NodeProcess} (ha : a.advances = true)
      (hstep : n.process.step P a = some process) :
      Step P serde rmp ed snow n (.advance a)
        { n with process := process, handled := n.handled ++ a.handles n.process }

end Node

end Aimp.Process
