import Aimp.Protocol.Bytes

/-!
# Envelopes

The signed messages of the wire protocol, and how received bytes are read and verified. MessagePack and
Ed25519 are parameters of the development.
-/

namespace Aimp.Protocol

/-- Protocol operation codes. -/
inductive OpCode where
  | ping
  | syncReq
  | syncRes
  | infer
deriving DecidableEq

/-- The data of a message. -/
structure AimpData where
  v : Byte
  op : OpCode
  ttl : Byte
  originPubkey : NodeId
  /-- `BTreeMap<String, u64>`, in the order of its keys. -/
  vclock : List (String × U64)
  payload : List Byte
deriving DecidableEq

/-- A message with the signature of its data. -/
structure AimpEnvelope where
  data : AimpData
  signature : Signature
deriving DecidableEq

/-- `rmp_serde`: MessagePack. -/
structure RmpSerde where
  toVec : AimpData → Except String (List Byte)
  fromSlice : List Byte → Except String AimpEnvelope

/-- `ed25519_dalek`. -/
structure Ed25519 where
  /-- `VerifyingKey::from_bytes` succeeds. -/
  isKey : NodeId → Bool
  verify : NodeId → List Byte → Signature → Bool

inductive ParserError where
  | decodeFail (message : String)
  | invalidSize
deriving DecidableEq

/-- `PROTOCOL_VERSION`. -/
def protocolVersion : Byte := 1

/-- `MIN_PROTOCOL_VERSION`. -/
def minProtocolVersion : Byte := 1

/-- `ProtocolParser::from_bytes`. -/
def fromBytes (rmp : RmpSerde) (bytes : List Byte) : Except ParserError AimpEnvelope :=
  if bytes.isEmpty then .error .invalidSize
  else match rmp.fromSlice bytes with
    | .error message => .error (.decodeFail message)
    | .ok env =>
      if env.data.v < minProtocolVersion ∨ protocolVersion < env.data.v then
        .error (.decodeFail ("Unsupported Protocol Version: " ++ toString env.data.v.val ++
          " (accepted: " ++ toString minProtocolVersion.val ++ "-" ++
          toString protocolVersion.val ++ ")"))
      else .ok env

/-- `SecurityFirewall::verify`. -/
def verify (rmp : RmpSerde) (ed : Ed25519) (envelope : AimpEnvelope) : Bool :=
  if ed.isKey envelope.data.originPubkey then
    match rmp.toVec envelope.data with
    | .ok bytes => ed.verify envelope.data.originPubkey bytes envelope.signature
    | .error _ => false
  else false

end Aimp.Protocol
