import Aimp.Lib.HashMap
import Aimp.Protocol.Bytes
import Mathlib.Data.List.MinMax
import Mathlib.Logic.Function.Iterate

/-!
# Noise sessions

`SessionManager` keeps one Noise XX session for each peer address and evicts idle sessions. The state
machines of the `snow` crate are a parameter of the development: `Hs` are its handshake states, `Ts` its
transport states and `η` the randomness that a new session draws. An `Instant` is a natural number of
nanoseconds.
-/

namespace Aimp.Network

/-- `SESSION_TTL_SECS`. -/
def sessionTtlSecs : ℕ := 300

/-- `SESSION_MAX_COUNT`. -/
def sessionMaxCount : ℕ := 256

/-- `SocketAddr`: the IP address, as it is printed, and the port. -/
structure SocketAddr where
  ip : String
  port : ℕ
deriving DecidableEq

/-- The state machines of `snow`. A message is written or read into a buffer of the given size; this
yields the bytes in the buffer, unless it fails, and the next state. -/
structure Snow (η Hs Ts : Type) where
  buildInitiator : ByteArr 32 → η → Hs
  buildResponder : ByteArr 32 → η → Hs
  writeHandshake : Hs → List Byte → ℕ → Option (List Byte) × Hs
  readHandshake : Hs → List Byte → ℕ → Option (List Byte) × Hs
  isHandshakeFinished : Hs → Bool
  intoTransportMode : Hs → Option Ts
  writeTransport : Ts → List Byte → ℕ → Option (List Byte) × Ts
  readTransport : Ts → List Byte → ℕ → Option (List Byte) × Ts

/-- State machine for a Noise XX session with a single peer. -/
inductive SecureState (Hs Ts : Type) where
  | handshaking (handshake : Hs)
  | active (transport : Ts)
  | invalid

/-- `matches!(state, SecureState::Invalid)`. -/
def SecureState.isInvalid {Hs Ts : Type} : SecureState Hs Ts → Bool
  | .invalid => true
  | _ => false

structure SecureSession (Hs Ts : Type) where
  state : SecureState Hs Ts
  peerAddr : SocketAddr
  /-- Last time this session was used. -/
  lastUsed : ℕ

/-- Manages the sessions for all connected peers. -/
structure SessionManager (Hs Ts : Type) where
  /-- The static Noise secret of the node. -/
  noiseStaticSecret : ByteArr 32
  sessions : HashMap SocketAddr (SecureSession Hs Ts)

variable {η Hs Ts : Type}

namespace SecureSession

/-- `SecureSession::new_initiator`. -/
def newInitiator (snow : Snow η Hs Ts) (secret : ByteArr 32) (seed : η) (peer : SocketAddr)
    (now : ℕ) : SecureSession Hs Ts :=
  ⟨.handshaking (snow.buildInitiator secret seed), peer, now⟩

/-- `SecureSession::new_responder`. -/
def newResponder (snow : Snow η Hs Ts) (secret : ByteArr 32) (seed : η) (peer : SocketAddr)
    (now : ℕ) : SecureSession Hs Ts :=
  ⟨.handshaking (snow.buildResponder secret seed), peer, now⟩

end SecureSession

namespace SessionManager

/-- `SessionManager::new`. -/
def new (noiseStaticSecret : ByteArr 32) : SessionManager Hs Ts := ⟨noiseStaticSecret, ∅⟩

/-- Remove the session that has not been used for the longest time. -/
def removeOldest (sessions : HashMap SocketAddr (SecureSession Hs Ts)) :
    HashMap SocketAddr (SecureSession Hs Ts) :=
  match sessions.entries.argmin fun e => e.2.lastUsed with
  | some oldest => sessions.erase oldest.1
  | none => sessions

/-- `SessionManager::evict_stale`: remove the sessions that are expired or invalid, then the oldest ones
as long as there are too many. -/
def evictStale (now : ℕ) (sessions : HashMap SocketAddr (SecureSession Hs Ts)) :
    HashMap SocketAddr (SecureSession Hs Ts) :=
  let live := sessions.retain fun _ s =>
    now - s.lastUsed < sessionTtlSecs * 10 ^ 9 ∧ s.state.isInvalid = false
  removeOldest^[live.len - sessionMaxCount] live

/-- The session that serves a peer: the one in the table after the eviction, or a new one. -/
def sessionFor (m : SessionManager Hs Ts) (now : ℕ) (peer : SocketAddr)
    (fresh : SecureSession Hs Ts) : SecureSession Hs Ts :=
  ((evictStale now m.sessions).lookup peer).getD fresh

/-- Put the session back into the table. -/
def store (m : SessionManager Hs Ts) (now : ℕ) (peer : SocketAddr)
    (session : SecureSession Hs Ts) (state : SecureState Hs Ts) : SessionManager Hs Ts :=
  { m with
    sessions := (evictStale now m.sessions).insert peer
      { session with state := state, lastUsed := now } }

/-- `SessionManager::wrap`: the message for a peer, and whether it is a handshake message. -/
def wrap (snow : Snow η Hs Ts) (m : SessionManager Hs Ts) (now : ℕ) (seed : η) (peer : SocketAddr)
    (payload : List Byte) : SessionManager Hs Ts × List Byte × Bool :=
  let session := m.sessionFor now peer (.newInitiator snow m.noiseStaticSecret seed peer now)
  match session.state with
  | .active transport =>
    let (message, transport) := snow.writeTransport transport payload (payload.length + 16)
    (m.store now peer session (.active transport), message.getD [], false)
  | .handshaking handshake =>
    let (message, handshake) := snow.writeHandshake handshake [] 1024
    (m.store now peer session (.handshaking handshake), message.getD [], true)
  | .invalid => (m.store now peer session .invalid, [], false)

/-- The state after a handshake message has been read: a finished handshake is turned into a
transport. -/
def finishHandshake (snow : Snow η Hs Ts) (handshake : Hs) : SecureState Hs Ts :=
  if snow.isHandshakeFinished handshake then
    match snow.intoTransportMode handshake with
    | some transport => .active transport
    | none => .invalid
  else .handshaking handshake

/-- `SessionManager::unwrap`: the payload of a message from a peer. -/
def unwrap (snow : Snow η Hs Ts) (m : SessionManager Hs Ts) (now : ℕ) (seed : η)
    (peer : SocketAddr) (payload : List Byte) : SessionManager Hs Ts × Option (List Byte) :=
  let session := m.sessionFor now peer (.newResponder snow m.noiseStaticSecret seed peer now)
  match session.state with
  | .handshaking handshake =>
    match snow.readHandshake handshake payload 1024 with
    | (some plain, handshake) =>
      (m.store now peer session (finishHandshake snow handshake), some plain)
    | (none, handshake) => (m.store now peer session (.handshaking handshake), none)
  | .active transport =>
    let (plain, transport) := snow.readTransport transport payload payload.length
    (m.store now peer session (.active transport), plain)
  | .invalid => (m.store now peer session .invalid, none)

end SessionManager

end Aimp.Network
