import Aimp.Network.Proofs.PipelineProofs

/-!
# Plaintext peers

Without `noise_required`, `listen` takes a packet as it is when `unwrap` returns nothing. `unwrap` does
return something for the first packet of a peer that is long enough: the responder reads it as the first
message of a handshake, whose payload is not encrypted. After that it is the turn of the responder, and it
never writes.
-/

namespace Aimp.Network

open Aimp.Protocol

variable {η Hs Ts : Type} {rmp : RmpSerde} {ed : Ed25519} {snow : Snow η Hs Ts}

/-- What `snow` does with the messages to an XX responder that never writes. The first message consists
of 32 bytes for the ephemeral key and a payload, which has to fit into the buffer. -/
structure XxResponder (snow : Snow η Hs Ts) where
  /-- No message has been read. -/
  fresh : Hs → Prop
  /-- The first message has been read, and it is the turn of the responder. -/
  waiting : Hs → Prop
  build : ∀ secret seed, fresh (snow.buildResponder secret seed)
  first : ∀ {hs message size}, fresh hs → 32 ≤ message.length ∧ message.length - 32 ≤ size →
    (snow.readHandshake hs message size).1 = some (message.drop 32) ∧
      waiting (snow.readHandshake hs message size).2
  reject : ∀ {hs message size}, fresh hs → ¬ (32 ≤ message.length ∧ message.length - 32 ≤ size) →
    (snow.readHandshake hs message size).1 = none ∧ fresh (snow.readHandshake hs message size).2
  turn : ∀ {hs message size}, waiting hs →
    (snow.readHandshake hs message size).1 = none ∧ waiting (snow.readHandshake hs message size).2
  unfinished : ∀ {hs}, waiting hs → snow.isHandshakeFinished hs = false

/-- The responder has read the first message at most. -/
inductive XxResponder.Pending (xx : XxResponder snow) : SecureState Hs Ts → Prop where
  | fresh {hs : Hs} (h : xx.fresh hs) : Pending xx (.handshaking hs)
  | waiting {hs : Hs} (h : xx.waiting hs) : Pending xx (.handshaking hs)

namespace SessionManager

variable {m : SessionManager Hs Ts} {now : ℕ} {seed : η} {peer a : SocketAddr} {payload : List Byte}

/-- The session that serves a packet. -/
def responderFor (snow : Snow η Hs Ts) (m : SessionManager Hs Ts) (now : ℕ) (seed : η)
    (peer : SocketAddr) : SecureSession Hs Ts :=
  m.sessionFor now peer (.newResponder snow m.noiseStaticSecret seed peer now)

/-- The session of a peer, if there is one, has read the first message at most. -/
def Pending (xx : XxResponder snow) (m : SessionManager Hs Ts) (peer : SocketAddr) : Prop :=
  ∀ session, m.sessions.lookup peer = some session → xx.Pending session.state

theorem pending_responderFor {xx : XxResponder snow} (h : m.Pending xx peer) (now : ℕ) (seed : η) :
    xx.Pending (m.responderFor snow now seed peer).state := by
  unfold SessionManager.responderFor sessionFor
  cases hlook : (evictStale now m.sessions).lookup peer with
  | none => exact .fresh (xx.build _ _)
  | some session => exact h session (lookup_evictStale hlook)

/-- A session that is put back into the table. -/
theorem Pending.store {xx : XxResponder snow} (h : m.Pending xx a) {session : SecureSession Hs Ts}
    {state : SecureState Hs Ts} (hstate : a = peer → xx.Pending state) :
    (m.store now peer session state).Pending xx a := by
  intro s hs
  unfold SessionManager.store at hs
  by_cases ha : a = peer
  · subst ha
    rw [AList.lookup_insert] at hs
    obtain rfl := Option.some.inj hs
    exact hstate rfl
  · rw [AList.lookup_insert_ne ha] at hs
    exact h s (lookup_evictStale hs)

theorem wrap_eq_store (snow : Snow η Hs Ts) (m : SessionManager Hs Ts) (now : ℕ) (seed : η)
    (peer : SocketAddr) (payload : List Byte) :
    ∃ session state, (m.wrap snow now seed peer payload).1 = m.store now peer session state := by
  unfold wrap
  dsimp only
  split
  · exact ⟨_, _, rfl⟩
  · exact ⟨_, _, rfl⟩
  · exact ⟨_, _, rfl⟩

theorem unwrap_eq_store (snow : Snow η Hs Ts) (m : SessionManager Hs Ts) (now : ℕ) (seed : η)
    (peer : SocketAddr) (payload : List Byte) :
    ∃ session state, (m.unwrap snow now seed peer payload).1 = m.store now peer session state := by
  unfold unwrap
  dsimp only
  split
  · split
    · exact ⟨_, _, rfl⟩
    · exact ⟨_, _, rfl⟩
  · exact ⟨_, _, rfl⟩
  · exact ⟨_, _, rfl⟩

/-- What a handshake that does not finish returns, and where it ends. -/
theorem unwrap_of_handshaking {hs : Hs}
    (hstate : (m.responderFor snow now seed peer).state = .handshaking hs)
    (hfin : (snow.readHandshake hs payload 1024).1.isSome →
      snow.isHandshakeFinished (snow.readHandshake hs payload 1024).2 = false) :
    m.unwrap snow now seed peer payload =
      (m.store now peer (m.responderFor snow now seed peer)
        (.handshaking (snow.readHandshake hs payload 1024).2),
        (snow.readHandshake hs payload 1024).1) := by
  unfold responderFor at hstate ⊢
  unfold unwrap
  dsimp only
  rw [hstate]
  dsimp only
  generalize snow.readHandshake hs payload 1024 = r at hfin ⊢
  obtain ⟨plain, hs'⟩ := r
  cases plain with
  | none => rfl
  | some plain =>
    have hnot : snow.isHandshakeFinished hs' = false := hfin rfl
    dsimp only
    rw [finishHandshake, if_neg (by simp [hnot])]

/-- The payload is read as the first message of a handshake. -/
structure Opens (xx : XxResponder snow) (m : SessionManager Hs Ts) (now : ℕ) (seed : η)
    (peer : SocketAddr) (payload : List Byte) : Prop where
  fresh : ∃ hs, (m.responderFor snow now seed peer).state = .handshaking hs ∧ xx.fresh hs
  fits : 32 ≤ payload.length ∧ payload.length - 32 ≤ 1024

/-- What a responder does that has read the first message at most. -/
theorem unwrap_of_pending {xx : XxResponder snow} (h : m.Pending xx peer) (now : ℕ) (seed : η)
    (payload : List Byte) :
    (m.unwrap snow now seed peer payload).1.Pending xx peer ∧
    (m.Opens xx now seed peer payload →
      (m.unwrap snow now seed peer payload).2 = some (payload.drop 32)) ∧
    (¬ m.Opens xx now seed peer payload → (m.unwrap snow now seed peer payload).2 = none) := by
  have hpend := pending_responderFor h now seed
  generalize hstate : (m.responderFor snow now seed peer).state = state at hpend
  have hreject : ∀ {hs}, (m.responderFor snow now seed peer).state = .handshaking hs →
      (snow.readHandshake hs payload 1024).1 = none →
      xx.Pending (.handshaking (snow.readHandshake hs payload 1024).2) →
        (m.unwrap snow now seed peer payload).1.Pending xx peer ∧
          (m.unwrap snow now seed peer payload).2 = none := by
    intro hs hstate hnone hnext
    rw [unwrap_of_handshaking hstate (by rw [hnone]; simp)]
    exact ⟨h.store fun _ => hnext, hnone⟩
  cases hpend with
  | @fresh hs hfresh =>
    by_cases hfits : 32 ≤ payload.length ∧ payload.length - 32 ≤ 1024
    · obtain ⟨hread, hwait⟩ := xx.first hfresh hfits
      rw [unwrap_of_handshaking hstate fun _ => xx.unfinished hwait]
      exact ⟨h.store fun _ => .waiting hwait, fun _ => hread,
        fun hnot => absurd ⟨⟨hs, hstate, hfresh⟩, hfits⟩ hnot⟩
    · obtain ⟨hread, hfresh'⟩ := xx.reject hfresh hfits
      obtain ⟨hkept, hnone⟩ := hreject hstate hread (.fresh hfresh')
      exact ⟨hkept, fun hopens => absurd hopens.fits hfits, fun _ => hnone⟩
  | @waiting hs hwait =>
    obtain ⟨hread, hwait'⟩ := xx.turn hwait
    obtain ⟨hkept, hnone⟩ := hreject hstate hread (.waiting hwait')
    refine ⟨hkept, ?_, fun _ => hnone⟩
    rintro ⟨⟨hs', hstate', hfresh⟩, hfits⟩
    -- a fresh responder would have read this message
    obtain rfl : hs = hs' := SecureState.handshaking.inj (hstate.symm.trans hstate')
    rw [(xx.first hfresh hfits).1] at hread
    cases hread

end SessionManager

namespace GossipNetwork

variable {net : GossipNetwork Hs Ts} {p : Packet η} {env : AimpEnvelope} {log : List (Forwarded η Hs Ts)}

theorem receive_security (h : net.admits p) : (net.receive rmp ed snow p).1.security =
    (net.security.unwrap snow p.now p.seed p.peer p.rawBytes).1 := by
  rw [receive_of_admits h]
  split
  · rw [(inspect_frame rmp ed _ _ _).1, opened]
  · rw [opened]

/-- The session of a peer that broadcasts are not wrapped for stays at the first message. -/
theorem pending_receive {xx : XxResponder snow} {peer : SocketAddr} (h : net.security.Pending xx peer) :
    (net.receive rmp ed snow p).1.security.Pending xx peer := by
  by_cases hadm : net.admits p
  · rw [receive_security hadm]
    by_cases hpeer : peer = p.peer
    · subst hpeer
      exact (SessionManager.unwrap_of_pending h _ _ _).1
    · obtain ⟨session, state, heq⟩ := SessionManager.unwrap_eq_store snow net.security p.now p.seed
        p.peer p.rawBytes
      rw [heq]
      exact h.store fun heq => absurd heq hpeer
  · rw [receive_of_not_admits hadm, (checkRateLimit_frame net p.now p.peer.ip).2.2.1]
    exact h

theorem pending_withSessions {xx : XxResponder snow} {peer : SocketAddr}
    {sessions : HashMap SocketAddr (SecureSession Hs Ts)}
    (horder : sessions.entries.Perm net.security.sessions.entries)
    (h : net.security.Pending xx peer) : (net.withSessions sessions).security.Pending xx peer := by
  intro session hlook
  exact h session ((AList.perm_lookup horder).symm.trans hlook)

/-! ## Runs -/

/-- The address to which `broadcast` sends. -/
def broadcastIp : String := "255.255.255.255"

theorem Step.pending {xx : XxResponder snow} {peer : SocketAddr} {m : NetEvent η}
    {log' : List (Forwarded η Hs Ts)} {net' : GossipNetwork Hs Ts}
    (hstep : Step rmp ed snow (log, net) m (log', net')) (hwrap : ∀ p, m = .wrap p → p.peer ≠ peer)
    (h : net.security.Pending xx peer) : net'.security.Pending xx peer := by
  cases hstep with
  | @wrap _ _ p sessions horder =>
    have hpend := pending_withSessions horder h
    generalize net.withSessions sessions = net' at hpend ⊢
    obtain ⟨session, state, heq⟩ := SessionManager.wrap_eq_store snow net'.security p.now p.seed p.peer
      p.bytes
    dsimp only [wrapFor]
    rw [heq]
    exact hpend.store fun heq => absurd heq.symm (hwrap p rfl)
  | @receive _ _ p sessions horder => exact pending_receive (pending_withSessions horder h)

/-! ## Delivery -/

/-- An admitted packet with a valid plaintext envelope that has not been seen. -/
structure Genuine (rmp : RmpSerde) (ed : Ed25519) (net : GossipNetwork Hs Ts) (p : Packet η)
    (env : AimpEnvelope) : Prop where
  admitted : net.admits p
  parsed : fromBytes rmp p.rawBytes = .ok env
  valid : Valid rmp ed env
  new : net.gossipFilter.contains env.signature = false

/-- The envelope is forwarded, and no failure of the peer is counted. -/
structure Delivers (rmp : RmpSerde) (ed : Ed25519) (snow : Snow η Hs Ts) (net : GossipNetwork Hs Ts)
    (p : Packet η) (env : AimpEnvelope) : Prop where
  forwarded : (net.receive rmp ed snow p).2 = some env
  failures : (net.receive rmp ed snow p).1.failures p.peer.ip = net.failures p.peer.ip

/-- The packet is read as the first message of a handshake, and its payload is not the envelope. -/
structure Swallowed (rmp : RmpSerde) (xx : XxResponder snow) (net : GossipNetwork Hs Ts) (p : Packet η)
    (env : AimpEnvelope) : Prop where
  opens : net.security.Opens xx p.now p.seed p.peer p.rawBytes
  payload : fromBytes rmp (p.rawBytes.drop 32) ≠ .ok env

theorem Genuine.withSessions {sessions : HashMap SocketAddr (SecureSession Hs Ts)}
    (h : Genuine rmp ed net p env) : Genuine rmp ed (net.withSessions sessions) p env where
  admitted := admits_withSessions.mpr h.admitted
  parsed := h.parsed
  valid := h.valid
  new := h.new

/-- An envelope is delivered if it is what is parsed. -/
theorem Genuine.delivers_iff (h : Genuine rmp ed net p env) (hnoise : net.noiseRequired = false) :
    Delivers rmp ed snow net p env ↔ fromBytes rmp
      ((net.security.unwrap snow p.now p.seed p.peer p.rawBytes).2.getD p.rawBytes) = .ok env := by
  have hfwd : (net.receive rmp ed snow p).2 = some env ↔ fromBytes rmp
      ((net.security.unwrap snow p.now p.seed p.peer p.rawBytes).2.getD p.rawBytes) = .ok env := by
    rw [receive_of_admits h.admitted, plainBytes, if_neg (by simp [hnoise])]
    dsimp only
    rw [inspect_eq_some, (opened_frame snow net p).1]
    constructor
    · exact fun hall => hall.1
    · exact fun hparse => ⟨hparse, Fin.pos_iff_ne_zero.mp h.valid.ttl, h.new, h.valid.signature⟩
  constructor
  · exact fun hdel => hfwd.mp hdel.forwarded
  · intro hparse
    refine ⟨hfwd.mpr hparse, ?_⟩
    rcases receive_cases rmp ed snow net p with ⟨hnone, -⟩ | ⟨env', -, -, hp⟩
    · rw [hfwd.mpr hparse] at hnone
      cases hnone
    · unfold failures
      rw [hp.health]

/-- A new node that does not require Noise. -/
def plainNet : GossipNetwork (Bool × ℕ) Unit := new (zeros 32) false 50 100

/-- The request, as it is. -/
def helloPlain : Packet Unit := ⟨1, (), peerAddr, helloBytes⟩

/-- The responder of the sample. -/
def xxResponder : XxResponder xxSnow where
  fresh hs := hs = (false, 0)
  waiting hs := hs = (false, 1)
  build _ _ := rfl
  first := by
    rintro _ message size rfl hfits
    dsimp only [xxSnow]
    rw [if_pos ⟨rfl, hfits⟩]
    exact ⟨rfl, rfl⟩
  reject := by
    rintro _ message size rfl hfits
    dsimp only [xxSnow]
    rw [if_neg fun h => hfits h.2]
    exact ⟨rfl, rfl⟩
  turn := by
    rintro _ message size rfl
    simp [xxSnow]
  unfinished := by
    rintro _ rfl
    rfl

/-- Whether the responder of the sample is to read the first message. -/
def readsFirst : SecureState (Bool × ℕ) Unit → Bool
  | .handshaking hs => hs.2 = 0
  | _ => false

theorem genuine_helloPlain {net : GossipNetwork (Bool × ℕ) Unit} (hadm : net.admits helloPlain)
    (hnew : net.gossipFilter.contains helloSignature = false) :
    Genuine helloRmp helloEd net helloPlain helloEnvelope where
  admitted := hadm
  parsed := by decide +kernel
  valid := ⟨by decide, by decide, by decide +kernel⟩
  new := hnew

end GossipNetwork

end Aimp.Network
