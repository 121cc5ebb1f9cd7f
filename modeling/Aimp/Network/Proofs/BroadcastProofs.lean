import Aimp.Network.Broadcast
import Aimp.Network.Proofs.PlaintextProofs

/-!
# What broadcasts deliver

A broadcast is wrapped for the broadcast address. Nothing ever arrives from there, so the handshake of that
session never gets beyond its first message: what is sent is that message, and the payload stays behind. As
nothing else is wrapped, no responder ever answers, and no session becomes active.
-/

namespace Aimp.Network

open Aimp.Protocol

variable {ι η Hs Ts : Type} {rmp : RmpSerde} {ed : Ed25519} {snow : Snow η Hs Ts} {out : Outgoing}
  {port : ℕ}

/-! ## Nodes that broadcast -/

/-- A node with a listener and a handle that broadcasts, what it has sent, and what it has forwarded. -/
structure Gossiper (η Hs Ts : Type) where
  listener : GossipNetwork Hs Ts
  /-- The filter of the handle. -/
  txFilter : GossipFilter
  sent : List (List Byte)
  forwarded : List (Forwarded η Hs Ts)

/-- What happens to a node. -/
inductive GossipEvent (η : Type) where
  | receive (p : Packet η)
  | broadcast (now : ℕ) (seed : η) (data : AimpData)

namespace Gossiper

/-- A new node. -/
def start (listener : GossipNetwork Hs Ts) : Gossiper η Hs Ts :=
  ⟨listener, listener.cloneForTx.gossipFilter, [], []⟩

/-- The handle that broadcasts. -/
def tx (g : Gossiper η Hs Ts) : GossipNetwork Hs Ts := { g.listener with gossipFilter := g.txFilter }

/-- The listener takes a packet. -/
def receive (rmp : RmpSerde) (ed : Ed25519) (snow : Snow η Hs Ts) (g : Gossiper η Hs Ts)
    (p : Packet η) : Gossiper η Hs Ts :=
  let received := g.listener.receive rmp ed snow p
  { g with
    listener := received.1
    forwarded := g.forwarded ++ received.2.toList.map fun env => ⟨g.listener, p, env⟩ }

/-- The handle broadcasts a message. -/
def broadcast (rmp : RmpSerde) (snow : Snow η Hs Ts) (out : Outgoing) (port : ℕ)
    (g : Gossiper η Hs Ts) (now : ℕ) (seed : η) (data : AimpData) : Gossiper η Hs Ts :=
  let result := g.tx.broadcast rmp snow out port now seed data
  { g with
    listener := { g.listener with security := result.1.security }
    txFilter := result.1.gossipFilter
    sent := g.sent ++ (result.2.toOption.getD none).toList }

/-- The session table may be iterated over in another order. -/
def withSessions (g : Gossiper η Hs Ts) (sessions : HashMap SocketAddr (SecureSession Hs Ts)) :
    Gossiper η Hs Ts :=
  { g with listener := g.listener.withSessions sessions }

/-- One event, from any iteration order of the session table. -/
inductive Step (rmp : RmpSerde) (ed : Ed25519) (snow : Snow η Hs Ts) (out : Outgoing) (port : ℕ) :
    Gossiper η Hs Ts → GossipEvent η → Gossiper η Hs Ts → Prop where
  | receive {g : Gossiper η Hs Ts} (p : Packet η)
      {sessions : HashMap SocketAddr (SecureSession Hs Ts)}
      (horder : sessions.entries.Perm g.listener.security.sessions.entries) :
      Step rmp ed snow out port g (.receive p) ((g.withSessions sessions).receive rmp ed snow p)
  | broadcast {g : Gossiper η Hs Ts} (now : ℕ) (seed : η) (data : AimpData)
      {sessions : HashMap SocketAddr (SecureSession Hs Ts)}
      (horder : sessions.entries.Perm g.listener.security.sessions.entries) :
      Step rmp ed snow out port g (.broadcast now seed data)
        ((g.withSessions sessions).broadcast rmp snow out port now seed data)

end Gossiper

/-- One event of a mesh in which nothing is sent but broadcasts: a node broadcasts, or a node receives a
datagram that some node has sent. A datagram may be lost, delayed and delivered several times. -/
inductive GossipStep [DecidableEq ι] (rmp : RmpSerde) (ed : Ed25519) (snow : Snow η Hs Ts)
    (out : ι → Outgoing) (addr : ι → SocketAddr) (port : ℕ) :
    (ι → Gossiper η Hs Ts) → ι × GossipEvent η → (ι → Gossiper η Hs Ts) → Prop where
  | broadcast {w : ι → Gossiper η Hs Ts} {i : ι} {now : ℕ} {seed : η} {data : AimpData}
      {g : Gossiper η Hs Ts}
      (hstep : Gossiper.Step rmp ed snow (out i) port (w i) (.broadcast now seed data) g) :
      GossipStep rmp ed snow out addr port w (i, .broadcast now seed data) (Function.update w i g)
  | deliver {w : ι → Gossiper η Hs Ts} {i j : ι} {p : Packet η} {g : Gossiper η Hs Ts}
      (hsent : p.bytes ∈ (w i).sent) (hpeer : p.peer = addr i)
      (hstep : Gossiper.Step rmp ed snow (out j) port (w j) (.receive p) g) :
      GossipStep rmp ed snow out addr port w (j, .receive p) (Function.update w j g)



/-! ## The session of the broadcast address -/

/-- What `snow` does with the messages of an XX initiator that never reads. The first message is the
ephemeral key, drawn from the randomness of the session, followed by the payload. -/
structure XxInitiator (snow : Snow η Hs Ts) where
  ephemeral : η → List Byte
  length_ephemeral : ∀ seed, (ephemeral seed).length = 32
  /-- No message has been written, the ephemeral key will be the given one. -/
  fresh : List Byte → Hs → Prop
  /-- The first message has been written, and it is the turn of the responder. -/
  waiting : Hs → Prop
  build : ∀ secret seed, fresh (ephemeral seed) (snow.buildInitiator secret seed)
  first : ∀ {key hs payload size}, fresh key hs → key.length + payload.length ≤ size →
    (snow.writeHandshake hs payload size).1 = some (key ++ payload) ∧
      waiting (snow.writeHandshake hs payload size).2
  turn : ∀ {hs payload size}, waiting hs →
    (snow.writeHandshake hs payload size).1 = none ∧ waiting (snow.writeHandshake hs payload size).2

/-- No handshake has got beyond its first message: that of the address `b` waits for an answer, and all
others have read one message at most. -/
structure SessionManager.Stuck (xi : XxInitiator snow) (xr : XxResponder snow) (b : SocketAddr)
    (m : SessionManager Hs Ts) : Prop where
  own : ∀ session, m.sessions.lookup b = some session →
    ∃ hs, session.state = .handshaking hs ∧ xi.waiting hs
  peers : ∀ a, a ≠ b → m.Pending xr a

namespace SessionManager

variable {xi : XxInitiator snow} {xr : XxResponder snow} {m : SessionManager Hs Ts} {b a : SocketAddr}
  {now : ℕ} {seed : η} {payload : List Byte}

theorem stuck_new (secret : ByteArr 32) : (new secret : SessionManager Hs Ts).Stuck xi xr b where
  own _ h := nomatch h
  peers _ _ _ h := nomatch h

theorem Stuck.not_active (h : m.Stuck xi xr b) {session : SecureSession Hs Ts}
    (hlook : m.sessions.lookup a = some session) : session.state.isActive = false := by
  by_cases hab : a = b
  · subst hab
    obtain ⟨hs, hstate, -⟩ := h.own session hlook
    rw [hstate]
    rfl
  · cases hpend : session.state with
    | active ts =>
      have := h.peers a hab session hlook
      rw [hpend] at this
      cases this
    | handshaking | invalid => rfl

/-- Another session is put back into the table. -/
theorem lookup_store_ne {peer : SocketAddr} {session s : SecureSession Hs Ts} {state : SecureState Hs Ts}
    (hne : a ≠ peer) (hlook : (m.store now peer session state).sessions.lookup a = some s) :
    m.sessions.lookup a = some s := by
  unfold store at hlook
  rw [AList.lookup_insert_ne hne] at hlook
  exact lookup_evictStale hlook

/-- A message for the address `b` is the first message of a handshake, or is not sent. -/
theorem Stuck.wrap (h : m.Stuck xi xr b) (now : ℕ) (seed : η) (payload : List Byte) :
    (m.wrap snow now seed b payload).1.Stuck xi xr b ∧
      ((m.wrap snow now seed b payload).2.1 = xi.ephemeral seed ∨
        (m.wrap snow now seed b payload).2.1 = []) := by
  obtain ⟨hs, hstate, hhs⟩ : ∃ hs, (m.sessionFor now b (.newInitiator snow m.noiseStaticSecret seed b
      now)).state = .handshaking hs ∧ (xi.fresh (xi.ephemeral seed) hs ∨ xi.waiting hs) := by
    unfold sessionFor
    cases hlook : (evictStale now m.sessions).lookup b with
    | none => exact ⟨_, rfl, .inl (xi.build _ _)⟩
    | some session =>
      obtain ⟨hs, hstate, hwait⟩ := h.own session (lookup_evictStale hlook)
      exact ⟨hs, hstate, .inr hwait⟩
  have hlen : (xi.ephemeral seed).length + ([] : List Byte).length ≤ 1024 := by
    rw [xi.length_ephemeral]
    decide
  have hwrite : xi.waiting (snow.writeHandshake hs [] 1024).2 ∧
      ((snow.writeHandshake hs [] 1024).1.getD [] = xi.ephemeral seed ∨
        (snow.writeHandshake hs [] 1024).1.getD [] = []) := by
    rcases hhs with hfresh | hwait
    · obtain ⟨hmsg, hwait⟩ := xi.first hfresh hlen
      rw [hmsg, Option.getD_some, List.append_nil]
      exact ⟨hwait, .inl rfl⟩
    · obtain ⟨hmsg, hwait⟩ := xi.turn hwait
      rw [hmsg]
      exact ⟨hwait, .inr rfl⟩
  unfold SessionManager.wrap
  dsimp only
  rw [hstate]
  dsimp only
  refine ⟨⟨?_, fun a hab => (h.peers a hab).store fun heq => absurd heq hab⟩, hwrite.2⟩
  intro session hlook
  unfold store at hlook
  rw [AList.lookup_insert] at hlook
  obtain rfl := Option.some.inj hlook
  exact ⟨_, rfl, hwrite.1⟩

end SessionManager

namespace GossipNetwork

variable {xi : XxInitiator snow} {xr : XxResponder snow} {net : GossipNetwork Hs Ts} {b : SocketAddr}
  {p : Packet η} {env : AimpEnvelope}

theorem stuck_withSessions {sessions : HashMap SocketAddr (SecureSession Hs Ts)}
    (horder : sessions.entries.Perm net.security.sessions.entries)
    (h : net.security.Stuck xi xr b) : (net.withSessions sessions).security.Stuck xi xr b where
  own session hlook := h.own session ((AList.perm_lookup horder).symm.trans hlook)
  peers a hab := pending_withSessions horder (h.peers a hab)

/-- A packet from another address leaves the handshake of `b` alone. -/
theorem stuck_receive (h : net.security.Stuck xi xr b) (hpeer : p.peer ≠ b) :
    (net.receive rmp ed snow p).1.security.Stuck xi xr b := by
  refine ⟨fun session hlook => ?_, fun a hab => pending_receive (h.peers a hab)⟩
  by_cases hadm : net.admits p
  · rw [receive_security hadm] at hlook
    obtain ⟨s, state, heq⟩ := SessionManager.unwrap_eq_store snow net.security p.now p.seed p.peer
      p.rawBytes
    rw [heq] at hlook
    exact h.own session (SessionManager.lookup_store_ne hpeer.symm hlook)
  · rw [receive_of_not_admits hadm, (checkRateLimit_frame net p.now p.peer.ip).2.2.1] at hlook
    exact h.own session hlook

/-- The bytes of a packet, as far as they were not encrypted: the payload of a first handshake message, or
without `noise_required` all of them. -/
def Unencrypted (noiseRequired : Bool) (p : Packet η) (plain : List Byte) : Prop :=
  plain = p.rawBytes.drop 32 ∨ noiseRequired = false ∧ plain = p.rawBytes

/-- What is forwarded for a peer whose handshake is not finished was not encrypted. -/
theorem receive_unencrypted (h : net.security.Pending xr p.peer)
    (henv : (net.receive rmp ed snow p).2 = some env) :
    ∃ plain, fromBytes rmp plain = .ok env ∧ Unencrypted net.noiseRequired p plain := by
  by_cases hadm : net.admits p
  · have hplain : ∀ plain ∈ net.plainBytes snow p, Unencrypted net.noiseRequired p plain := by
      intro plain hmem
      obtain ⟨-, hopens, hnot⟩ := SessionManager.unwrap_of_pending h p.now p.seed p.rawBytes
      unfold plainBytes at hmem
      by_cases ho : net.security.Opens xr p.now p.seed p.peer p.rawBytes
      · rw [hopens ho] at hmem
        split at hmem
        · exact .inl (Option.some.inj hmem).symm
        · exact .inl (Option.some.inj hmem).symm
      · rw [hnot ho] at hmem
        split at hmem
        · cases hmem
        · rename_i hnoise
          exact .inr ⟨Bool.eq_false_iff.mpr hnoise, (Option.some.inj hmem).symm⟩
    rw [receive_of_admits hadm] at henv
    split at henv
    · rename_i plain hsome
      exact ⟨plain, (inspect_eq_some.mp henv).1, hplain plain hsome⟩
    · cases henv
  · rw [receive_of_not_admits hadm] at henv
    cases henv

end GossipNetwork

/-! ## Runs of one node -/

namespace GossipNetwork

/-- `broadcast` leaves the node as it is and sends nothing, or it wraps the message for the broadcast address
and sends what it gets. -/
theorem broadcast_cases (rmp : RmpSerde) (snow : Snow η Hs Ts) (out : Outgoing) (port : ℕ)
    (net : GossipNetwork Hs Ts) (now : ℕ) (seed : η) (data : AimpData) :
    (∃ r, net.broadcast rmp snow out port now seed data = (net, r) ∧ r.toOption.getD none = none) ∨
    ∃ payload filter, net.broadcast rmp snow out port now seed data =
      ({ net with
          gossipFilter := filter
          security := (net.security.wrap snow now seed (broadcastAddr port) payload).1 },
        .ok (if (net.security.wrap snow now seed (broadcastAddr port) payload).2.1.isEmpty then none
          else some (net.security.wrap snow now seed (broadcastAddr port) payload).2.1)) := by
  unfold broadcast
  split
  · exact .inl ⟨_, rfl, rfl⟩
  · split
    · exact .inl ⟨_, rfl, rfl⟩
    · split
      · exact .inl ⟨_, rfl, rfl⟩
      · rename_i envelope _ _ bytes _
        refine .inr ⟨bytes, net.gossipFilter.insert envelope.signature, ?_⟩
        generalize net.security.wrap snow now seed (broadcastAddr port) bytes = wrapped
        obtain ⟨security, encryptedToSend, isHandshake⟩ := wrapped
        rfl

end GossipNetwork

namespace Gossiper

variable {xi : XxInitiator snow} {xr : XxResponder snow} {g g' : Gossiper η Hs Ts} {e : GossipEvent η}
  {es : List (GossipEvent η)} {noiseRequired : Bool}

/-- What holds of the sessions, of what has been sent and of what has been forwarded after the events
`es`. -/
structure Mute (rmp : RmpSerde) (xi : XxInitiator snow) (xr : XxResponder snow) (port : ℕ)
    (noiseRequired : Bool) (es : List (GossipEvent η)) (g : Gossiper η Hs Ts) : Prop where
  stuck : g.listener.security.Stuck xi xr (broadcastAddr port)
  noise : g.listener.noiseRequired = noiseRequired
  sent : ∀ bytes ∈ g.sent, ∃ now seed data, .broadcast now seed data ∈ es ∧ bytes = xi.ephemeral seed
  forwarded : ∀ f ∈ g.forwarded, ∃ plain, fromBytes rmp plain = .ok f.envelope ∧
    GossipNetwork.Unencrypted noiseRequired f.packet plain

theorem mute_start (secret : ByteArr 32) (noiseRequired : Bool) (limit burst : ℕ) :
    Mute rmp xi xr port noiseRequired []
      (start (.new secret noiseRequired limit burst) : Gossiper η Hs Ts) where
  stuck := SessionManager.stuck_new secret
  noise := rfl
  sent _ h := absurd h List.not_mem_nil
  forwarded _ h := absurd h List.not_mem_nil

theorem Mute.withSessions {sessions : HashMap SocketAddr (SecureSession Hs Ts)}
    (horder : sessions.entries.Perm g.listener.security.sessions.entries)
    (h : Mute rmp xi xr port noiseRequired es g) :
    Mute rmp xi xr port noiseRequired es (g.withSessions sessions) :=
  ⟨GossipNetwork.stuck_withSessions horder h.stuck, h.noise, h.sent, h.forwarded⟩

theorem Mute.receive {p : Packet η} (h : Mute rmp xi xr port noiseRequired es g)
    (hpeer : p.peer ≠ broadcastAddr port) :
    Mute rmp xi xr port noiseRequired (es ++ [.receive p]) (g.receive rmp ed snow p) where
  stuck := GossipNetwork.stuck_receive h.stuck hpeer
  noise := (GossipNetwork.receive_noiseRequired g.listener p).trans h.noise
  sent bytes hmem := by
    obtain ⟨now, seed, data, he, hb⟩ := h.sent bytes hmem
    exact ⟨now, seed, data, List.mem_append_left _ he, hb⟩
  forwarded f hf := by
    rcases List.mem_append.mp hf with hf | hf
    · exact h.forwarded f hf
    · obtain ⟨env, henv, rfl⟩ := List.mem_map.mp hf
      rw [← h.noise]
      exact GossipNetwork.receive_unencrypted (h.stuck.peers _ hpeer) (Option.mem_toList.mp henv)

theorem Mute.broadcast (h : Mute rmp xi xr port noiseRequired es g) (now : ℕ) (seed : η)
    (data : AimpData) : Mute rmp xi xr port noiseRequired (es ++ [.broadcast now seed data])
      (g.broadcast rmp snow out port now seed data) := by
  have hlast : GossipEvent.broadcast now seed data ∈ es ++ [.broadcast now seed data] :=
    List.mem_append_right _ (List.mem_singleton_self _)
  have hsent : ∀ bytes ∈ g.sent, ∃ now' seed' data',
      .broadcast now' seed' data' ∈ es ++ [.broadcast now seed data] ∧ bytes = xi.ephemeral seed' := by
    intro bytes hmem
    obtain ⟨now, seed, data, he, hb⟩ := h.sent bytes hmem
    exact ⟨now, seed, data, List.mem_append_left _ he, hb⟩
  unfold Gossiper.broadcast
  rcases GossipNetwork.broadcast_cases rmp snow out port g.tx now seed data with
    ⟨r, heq, hr⟩ | ⟨payload, filter, heq⟩
  · rw [heq]
    dsimp only
    rw [hr, Option.toList_none, List.append_nil]
    exact ⟨h.stuck, h.noise, hsent, h.forwarded⟩
  · obtain ⟨hstuck, hmsg⟩ := h.stuck.wrap now seed payload
    rw [heq, show g.tx.security = g.listener.security from rfl]
    generalize g.listener.security.wrap snow now seed (broadcastAddr port) payload = wrapped at hstuck hmsg ⊢
    refine ⟨hstuck, h.noise, fun bytes hmem => ?_, h.forwarded⟩
    rcases List.mem_append.mp hmem with hmem | hmem
    · exact hsent bytes hmem
    · refine ⟨now, seed, data, hlast, ?_⟩
      replace hmem := Option.mem_toList.mp hmem
      dsimp only [Except.toOption, Option.getD_some] at hmem
      split at hmem
      · cases hmem
      · rename_i hne
        obtain rfl := Option.some.inj hmem
        refine hmsg.resolve_right fun hnil => hne ?_
        rw [hnil]
        rfl

theorem Step.mute (hstep : Step rmp ed snow out port g e g') (hpeer : ∀ p, e = .receive p →
    p.peer ≠ broadcastAddr port) (h : Mute rmp xi xr port noiseRequired es g) :
    Mute rmp xi xr port noiseRequired (es ++ [e]) g' := by
  cases hstep with
  | receive p horder => exact (h.withSessions horder).receive (hpeer p rfl)
  | broadcast now seed data horder => exact (h.withSessions horder).broadcast now seed data

open GossipNetwork

/-- Noise XX on the side of an initiator that never reads. -/
def xxInitiator : XxInitiator xxSnow where
  ephemeral _ := List.replicate 32 9
  length_ephemeral _ := List.length_replicate
  fresh key hs := key = List.replicate 32 9 ∧ hs = (true, 0)
  waiting hs := hs = (true, 1)
  build _ _ := ⟨rfl, rfl⟩
  first := by
    rintro _ _ payload size ⟨rfl, rfl⟩ _
    exact ⟨rfl, rfl⟩
  turn := by
    rintro _ payload size rfl
    exact ⟨rfl, rfl⟩

/-- The signature and the bytes of the request. -/
def helloOutgoing : Outgoing where
  signBytes _ := helloSignature
  toVec _ := .ok helloBytes

/-- The request, before its time to live is decremented. -/
def helloBroadcast : AimpData := { helloData with ttl := 4 }

/-- A new node broadcasts the request, and receives it behind 32 bytes that stand for an ephemeral key. -/
theorem run_broadcast_receive : ∃ g : Gossiper Unit (Bool × ℕ) Unit,
    Run (Step helloRmp helloEd xxSnow helloOutgoing 1337) (start newNet)
      [.broadcast 0 () helloBroadcast, .receive helloHandshake] g ∧
    g.sent = [List.replicate 32 9] ∧ g.forwarded.map Forwarded.envelope = [helloEnvelope] := by
  have hsend : Step helloRmp helloEd xxSnow helloOutgoing 1337 (start newNet)
      (.broadcast 0 () helloBroadcast) _ := .broadcast 0 () helloBroadcast (List.Perm.refl _)
  refine ⟨_, (Run.single hsend).snoc (.receive helloHandshake (List.Perm.refl _)), ?_, ?_⟩
  · decide +kernel
  · decide +kernel

end Gossiper

/-! ## A mesh that talks by broadcasts -/

namespace GossipStep

open Gossiper GossipNetwork

variable [DecidableEq ι] {xi : XxInitiator snow} {xr : XxResponder snow} {outs : ι → Outgoing}
  {addr : ι → SocketAddr} {w w' : ι → Gossiper η Hs Ts} {m : ι × GossipEvent η}
  {es : List (ι × GossipEvent η)} {noise : ι → Bool} {p : Packet η}

/-- What a node sends fits into the receive buffer. -/
theorem rawBytes_of_length (h : p.bytes.length = 32) : p.rawBytes = p.bytes := by
  refine List.take_of_length_le (h.trans_le ?_)
  unfold networkBufferSize
  decide

/-- A datagram of 32 bytes is dropped by a node without active sessions. -/
theorem receive_eq_none {net : GossipNetwork Hs Ts}
    (hshort : ∀ bytes : List Byte, bytes.length = 32 → ∃ message, rmp.fromSlice bytes = .error message)
    (hlen : p.bytes.length = 32) (h : net.security.Pending xr p.peer) :
    (net.receive rmp ed snow p).2 = none := by
  rw [Option.eq_none_iff_forall_not_mem]
  intro env henv
  obtain ⟨plain, hparse, hplain⟩ := GossipNetwork.receive_unencrypted h henv
  unfold Unencrypted at hplain
  rw [rawBytes_of_length hlen, ← hlen, List.drop_length] at hplain
  rcases hplain with rfl | ⟨-, rfl⟩
  · cases hparse
  · obtain ⟨message, herr⟩ := hshort p.bytes hlen
    have hne : p.bytes.isEmpty = false := by
      rw [List.isEmpty_eq_false_iff, ← List.length_pos_iff, hlen]
      decide
    unfold fromBytes at hparse
    rw [hne, herr] at hparse
    cases hparse

/-- Every node is mute, and none has forwarded anything. -/
def Silent (rmp : RmpSerde) (xi : XxInitiator snow) (xr : XxResponder snow) (port : ℕ) (noise : ι → Bool)
    (w : ι → Gossiper η Hs Ts) : Prop :=
  ∀ i, (∃ es, Mute rmp xi xr port (noise i) es (w i)) ∧ (w i).forwarded = []

theorem Silent.step (h : Silent rmp xi xr port noise w) (haddr : ∀ i, addr i ≠ broadcastAddr port)
    (hshort : ∀ bytes : List Byte, bytes.length = 32 → ∃ message, rmp.fromSlice bytes = .error message)
    (hstep : GossipStep rmp ed snow outs addr port w m w') : Silent rmp xi xr port noise w' := by
  have hset : ∀ {i g}, (∃ es, Mute rmp xi xr port (noise i) es g) ∧ g.forwarded = [] →
      Silent rmp xi xr port noise (Function.update w i g) := by
    intro i g hg j
    by_cases hj : j = i
    · subst hj
      rwa [Function.update_self]
    · rw [Function.update_of_ne hj]
      exact h j
  cases hstep with
  | @broadcast i now seed data g' hstep =>
    obtain ⟨⟨es, hi⟩, hnone⟩ := h i
    refine hset ⟨⟨_, hstep.mute (fun p hp => nomatch hp) hi⟩, ?_⟩
    cases hstep with
    | broadcast _ _ _ _ => exact hnone
  | @deliver i j p g' hsent hpeer hstep =>
    obtain ⟨⟨_, hi⟩, -⟩ := h i
    obtain ⟨⟨es, hj⟩, hnone⟩ := h j
    have hother : p.peer ≠ broadcastAddr port := hpeer ▸ haddr i
    have hlen : p.bytes.length = 32 := by
      obtain ⟨-, seed, -, -, hbytes⟩ := hi.sent p.bytes hsent
      rw [hbytes, xi.length_ephemeral]
    refine hset ⟨⟨_, hstep.mute (fun q hq => GossipEvent.receive.inj hq ▸ hother) hj⟩, ?_⟩
    cases hstep with
    | @receive _ sessions horder =>
      have hpend := (hj.withSessions horder).stuck.peers p.peer hother
      show (w j).forwarded ++ _ = []
      rw [hnone, receive_eq_none hshort hlen hpend]
      rfl

/-- The addresses of two nodes. -/
def pairAddr (i : Bool) : SocketAddr := ⟨if i then "192.0.2.7" else "192.0.2.8", 1337⟩

end GossipStep

end Aimp.Network
