import Aimp.Network.Gossip

/-!
# Broadcasts

`GossipNetwork::broadcast` signs a message and wraps it for the broadcast address. It is called on a handle
from `clone_for_tx`, which shares everything but the filter with the listener, and it is the only code that
calls `wrap`.
-/

namespace Aimp.Network

open Aimp.Protocol

variable {η Hs Ts : Type}

/-- What `broadcast` uses to sign and to serialize. -/
structure Outgoing where
  /-- `SigningKey::sign`. -/
  signBytes : List Byte → Signature
  /-- `rmp_serde::to_vec` of an envelope. -/
  toVec : AimpEnvelope → Except String (List Byte)

/-- Why `broadcast` fails. -/
inductive BroadcastError where
  /-- `CryptoError::SerializationError`. -/
  | serializationError
  /-- `ParserError::EncodeFail`. -/
  | encodeFail (message : String)

/-- `Identity::sign`. -/
def Outgoing.sign (out : Outgoing) (rmp : RmpSerde) (data : AimpData) :
    Except BroadcastError AimpEnvelope :=
  match rmp.toVec data with
  | .ok bytes => .ok ⟨data, out.signBytes bytes⟩
  | .error _ => .error .serializationError

/-- `ProtocolParser::to_bytes`. -/
def Outgoing.toBytes (out : Outgoing) (envelope : AimpEnvelope) : Except BroadcastError (List Byte) :=
  match out.toVec envelope with
  | .ok bytes => .ok bytes
  | .error message => .error (.encodeFail message)

/-- The address to which `broadcast` sends. -/
def broadcastAddr (port : ℕ) : SocketAddr := ⟨"255.255.255.255", port⟩

namespace GossipNetwork

/-- `GossipNetwork::clone_for_tx`. -/
def cloneForTx (net : GossipNetwork Hs Ts) : GossipNetwork Hs Ts :=
  { net with gossipFilter := .new gossipLruSize }

/-- `GossipNetwork::broadcast`: the datagram that is sent, if any. -/
def broadcast (rmp : RmpSerde) (snow : Snow η Hs Ts) (out : Outgoing) (port : ℕ)
    (net : GossipNetwork Hs Ts) (now : ℕ) (seed : η) (data : AimpData) :
    GossipNetwork Hs Ts × Except BroadcastError (Option (List Byte)) :=
  if data.ttl = 0 then (net, .ok none)
  else
    match out.sign rmp { data with ttl := data.ttl - 1 } with
    | .error e => (net, .error e)
    | .ok signedEnvelope =>
      match out.toBytes signedEnvelope with
      | .error e => (net, .error e)
      | .ok bytesToSend =>
        let (security, encryptedToSend, _) :=
          net.security.wrap snow now seed (broadcastAddr port) bytesToSend
        ({ net with
            gossipFilter := net.gossipFilter.insert signedEnvelope.signature
            security := security },
          .ok (if encryptedToSend.isEmpty then none else some encryptedToSend))

end GossipNetwork

end Aimp.Network
