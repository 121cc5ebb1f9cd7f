import Aimp.Lib.Run
import Aimp.Network.Gossip

/-!
# Encryption of the forwarded envelopes

`unwrap` also returns the payload of a handshake message, which is not encrypted, and `listen` forwards
it. With `noise_required` an envelope that was not decrypted is forwarded exactly if it arrives in such
a payload.
-/

namespace Aimp.Network

open Aimp.Protocol

variable {η Hs Ts : Type} {rmp : RmpSerde} {ed : Ed25519} {snow : Snow η Hs Ts}

/-- Whether a session is active. -/
def SecureState.isActive : SecureState Hs Ts → Bool
  | .active _ => true
  | _ => false

namespace SessionManager

theorem lookup_removeOldest {sessions : HashMap SocketAddr (SecureSession Hs Ts)} {a : SocketAddr}
    {s : SecureSession Hs Ts} (h : (removeOldest sessions).lookup a = some s) :
    sessions.lookup a = some s := by
  unfold removeOldest at h
  split at h
  · rename_i oldest _
    by_cases ha : a = oldest.1
    · rw [ha, AList.lookup_erase] at h
      exact absurd h (by simp)
    · rwa [AList.lookup_erase_ne ha] at h
  · exact h

/-- The sessions that survive the eviction were in the table before it. -/
theorem lookup_evictStale {now : ℕ} {sessions : HashMap SocketAddr (SecureSession Hs Ts)}
    {a : SocketAddr} {s : SecureSession Hs Ts} (h : (evictStale now sessions).lookup a = some s) :
    sessions.lookup a = some s := by
  have hiter : ∀ n (m : HashMap SocketAddr (SecureSession Hs Ts)),
      (removeOldest^[n] m).lookup a = some s → m.lookup a = some s := by
    intro n
    induction n with
    | zero => exact fun _ h => h
    | succ n ih =>
      intro m hm
      rw [Function.iterate_succ_apply] at hm
      exact lookup_removeOldest (ih _ hm)
  exact (HashMap.lookup_retain.mp (hiter _ _ h)).1

/-- A session that serves a peer and is active was in the table and was not evicted. -/
theorem sessionFor_active {m : SessionManager Hs Ts} {now : ℕ} {peer : SocketAddr} {seed : η}
    {ts : Ts} : (m.sessionFor now peer (.newResponder snow m.noiseStaticSecret seed peer
      now)).state = .active ts ↔
    ∃ session, (evictStale now m.sessions).lookup peer = some session ∧ session.state = .active ts := by
  unfold sessionFor
  cases (evictStale now m.sessions).lookup peer with
  | none => simp [SecureSession.newResponder]
  | some session => simp

/-- `unwrap` returns the payload of a handshake message or decrypts a transport message. -/
theorem unwrap_eq_some {m : SessionManager Hs Ts} {now : ℕ} {peer : SocketAddr} {seed : η}
    {payload plain : List Byte} :
    (m.unwrap snow now seed peer payload).2 = some plain ↔
      (∃ hs, (m.sessionFor now peer (.newResponder snow m.noiseStaticSecret seed peer now)).state =
        .handshaking hs ∧ (snow.readHandshake hs payload 1024).1 = some plain) ∨
      ∃ ts, (m.sessionFor now peer (.newResponder snow m.noiseStaticSecret seed peer now)).state =
        .active ts ∧ (snow.readTransport ts payload payload.length).1 = some plain := by
  unfold unwrap
  dsimp only
  split
  · rename_i hs hstate
    rw [hstate]
    split
    · rename_i h
      simp [h]
    · rename_i h
      simp [h]
  · rename_i ts hstate
    rw [hstate]
    simp
  · rename_i hstate
    rw [hstate]
    simp

end SessionManager

namespace GossipNetwork

variable {net : GossipNetwork Hs Ts} {p : Packet η} {env : AimpEnvelope}

/-- What passes the checks behind the Noise session. -/
theorem inspect_eq_some {peerIp : String} {plainBytes : List Byte} :
    (net.inspect rmp ed peerIp plainBytes).2 = some env ↔
      fromBytes rmp plainBytes = .ok env ∧ env.data.ttl ≠ 0 ∧
        net.gossipFilter.contains env.signature = false ∧ verify rmp ed env = true := by
  unfold inspect
  cases h : fromBytes rmp plainBytes with
  | error e => simp
  | ok envelope =>
    simp only [Except.ok.injEq]
    constructor
    · intro heq
      split at heq
      · exact absurd heq (by simp)
      · split at heq
        · exact absurd heq (by simp)
        · split at heq
          · exact absurd heq (by simp)
          · obtain rfl := Option.some.inj heq
            simp_all
    · rintro ⟨rfl, httl, hseen, hverify⟩
      simp [httl, hseen, hverify]

/-- The checks before the Noise session. -/
def admits (net : GossipNetwork Hs Ts) (p : Packet η) : Prop :=
  (net.checkRateLimit p.now p.peer.ip).2 = true ∧
    (net.peerHealth.lookup p.peer.ip).getD 0 < peerFailureThreshold

theorem checkRateLimit_frame (net : GossipNetwork Hs Ts) (now : ℕ) (ip : String) :
    (net.checkRateLimit now ip).1.gossipFilter = net.gossipFilter ∧
    (net.checkRateLimit now ip).1.peerHealth = net.peerHealth ∧
    (net.checkRateLimit now ip).1.security = net.security ∧
    (net.checkRateLimit now ip).1.noiseRequired = net.noiseRequired := by
  unfold checkRateLimit
  dsimp only
  split <;> exact ⟨rfl, rfl, rfl, rfl⟩

theorem inspect_frame (rmp : RmpSerde) (ed : Ed25519) (net : GossipNetwork Hs Ts) (ip : String)
    (plainBytes : List Byte) :
    (net.inspect rmp ed ip plainBytes).1.security = net.security ∧
    (net.inspect rmp ed ip plainBytes).1.noiseRequired = net.noiseRequired := by
  unfold inspect
  split
  · exact ⟨rfl, rfl⟩
  · split
    · exact ⟨rfl, rfl⟩
    · split
      · exact ⟨rfl, rfl⟩
      · split <;> exact ⟨rfl, rfl⟩

/-- A packet that is not admitted changes only the rate limits. -/
theorem receive_of_not_admits (h : ¬ net.admits p) :
    net.receive rmp ed snow p = ((net.checkRateLimit p.now p.peer.ip).1, none) := by
  have hhealth := (checkRateLimit_frame net p.now p.peer.ip).2.1
  unfold admits at h
  unfold receive
  dsimp only
  generalize net.checkRateLimit p.now p.peer.ip = r at h hhealth ⊢
  obtain ⟨net', admitted⟩ := r
  cases admitted with
  | false => rfl
  | true =>
    have hfail : peerFailureThreshold ≤ (net'.peerHealth.lookup p.peer.ip).getD 0 := by
      rw [show net'.peerHealth = net.peerHealth from hhealth]
      by_contra hlt
      exact h ⟨rfl, by omega⟩
    simp only [Bool.true_eq_false, if_false, if_pos hfail]

/-- The node after the Noise session of an admitted packet has seen it. -/
def opened (snow : Snow η Hs Ts) (net : GossipNetwork Hs Ts) (p : Packet η) : GossipNetwork Hs Ts :=
  { (net.checkRateLimit p.now p.peer.ip).1 with
    security := (net.security.unwrap snow p.now p.seed p.peer p.rawBytes).1 }

theorem opened_frame (snow : Snow η Hs Ts) (net : GossipNetwork Hs Ts) (p : Packet η) :
    (net.opened snow p).gossipFilter = net.gossipFilter ∧
    (net.opened snow p).peerHealth = net.peerHealth ∧
    (net.opened snow p).noiseRequired = net.noiseRequired := by
  obtain ⟨hfilter, hhealth, -, hnoise⟩ := checkRateLimit_frame net p.now p.peer.ip
  unfold opened
  exact ⟨hfilter, hhealth, hnoise⟩

/-- The bytes of an admitted packet that are parsed, if any. -/
def plainBytes (snow : Snow η Hs Ts) (net : GossipNetwork Hs Ts) (p : Packet η) : Option (List Byte) :=
  let plain := (net.security.unwrap snow p.now p.seed p.peer p.rawBytes).2
  if net.noiseRequired then plain else some (plain.getD p.rawBytes)

theorem receive_of_admits (h : net.admits p) : net.receive rmp ed snow p =
    match net.plainBytes snow p with
    | some plain => (net.opened snow p).inspect rmp ed p.peer.ip plain
    | none => (net.opened snow p, none) := by
  obtain ⟨-, hhealth, hsecurity, hnoise⟩ := checkRateLimit_frame net p.now p.peer.ip
  unfold admits at h
  unfold receive plainBytes opened
  dsimp only
  generalize net.checkRateLimit p.now p.peer.ip = r at h hhealth hsecurity hnoise ⊢
  obtain ⟨net', admitted⟩ := r
  dsimp only at h hhealth hsecurity hnoise ⊢
  rw [hhealth, hsecurity, hnoise, if_neg (by simp [h.1]), if_neg (not_le.mpr h.2)]
  generalize net.security.unwrap snow p.now p.seed p.peer p.rawBytes = u
  obtain ⟨security, plain⟩ := u
  cases net.noiseRequired with
  | true =>
    cases plain with
    | none => rfl
    | some plain => rfl
  | false => rfl

theorem receive_noiseRequired (net : GossipNetwork Hs Ts) (p : Packet η) :
    (net.receive rmp ed snow p).1.noiseRequired = net.noiseRequired := by
  have hopened := (opened_frame snow net p).2.2
  by_cases h : net.admits p
  · rw [receive_of_admits h]
    split
    · rw [(inspect_frame rmp ed _ _ _).2, hopened]
    · exact hopened
  · rw [receive_of_not_admits h]
    exact (checkRateLimit_frame net p.now p.peer.ip).2.2.2

/-- With `noise_required`, a packet is forwarded if it is admitted and what `unwrap` returns passes the
checks. -/
theorem receive_eq_some (hreq : net.noiseRequired = true) :
    (net.receive rmp ed snow p).2 = some env ↔ net.admits p ∧
      ∃ plain, (net.security.unwrap snow p.now p.seed p.peer p.rawBytes).2 = some plain ∧
        (net.inspect rmp ed p.peer.ip plain).2 = some env := by
  by_cases h : net.admits p
  · have hfilter := (opened_frame snow net p).1
    rw [receive_of_admits h, plainBytes, if_pos hreq]
    cases (net.security.unwrap snow p.now p.seed p.peer p.rawBytes).2 with
    | none => simp
    | some plain => simp [inspect_eq_some, hfilter, h]
  · rw [receive_of_not_admits h]
    simp [h]

/-! ## Runs -/

/-- The session table may be iterated over in another order. -/
def withSessions (net : GossipNetwork Hs Ts)
    (sessions : HashMap SocketAddr (SecureSession Hs Ts)) : GossipNetwork Hs Ts :=
  { net with security := { net.security with sessions := sessions } }

@[simp] theorem noiseRequired_withSessions (net : GossipNetwork Hs Ts)
    (sessions : HashMap SocketAddr (SecureSession Hs Ts)) :
    (net.withSessions sessions).noiseRequired = net.noiseRequired := by
  dsimp only [withSessions]

theorem admits_withSessions {sessions : HashMap SocketAddr (SecureSession Hs Ts)} :
    (net.withSessions sessions).admits p ↔ net.admits p := by
  have hlimit : ((net.withSessions sessions).checkRateLimit p.now p.peer.ip).2 =
      (net.checkRateLimit p.now p.peer.ip).2 := by
    unfold checkRateLimit withSessions
    dsimp only
    split <;> rfl
  unfold admits
  rw [hlimit]
  rfl

theorem inspect_withSessions {sessions : HashMap SocketAddr (SecureSession Hs Ts)} {ip : String}
    {plainBytes : List Byte} :
    ((net.withSessions sessions).inspect rmp ed ip plainBytes).2 = some env ↔
      (net.inspect rmp ed ip plainBytes).2 = some env := by
  rw [inspect_eq_some, inspect_eq_some]
  rfl

end GossipNetwork

/-- A forwarded envelope, with the packet that carried it and the state in which this packet arrived. -/
structure Forwarded (η Hs Ts : Type) where
  net : GossipNetwork Hs Ts
  packet : Packet η
  envelope : AimpEnvelope

/-- The packet was decrypted to the envelope, under a session that was active when it arrived and that
was not evicted. -/
def Forwarded.Decrypted (rmp : RmpSerde) (snow : Snow η Hs Ts) (f : Forwarded η Hs Ts) : Prop :=
  ∃ session ts plain, f.net.security.sessions.lookup f.packet.peer = some session ∧
    (SessionManager.evictStale f.packet.now f.net.security.sessions).lookup f.packet.peer =
      some session ∧
    session.state = .active ts ∧
    (snow.readTransport ts f.packet.rawBytes f.packet.rawBytes.length).1 = some plain ∧
    fromBytes rmp plain = .ok f.envelope

/-- What happens to a node's sessions: it receives a packet, or a broadcast wraps a message. -/
inductive NetEvent (η : Type) where
  | receive (p : Packet η)
  | wrap (p : Packet η)

namespace GossipNetwork

/-- One event, from any iteration order of the session table. `log` are the envelopes forwarded before
it. -/
inductive Step (rmp : RmpSerde) (ed : Ed25519) (snow : Snow η Hs Ts) :
    List (Forwarded η Hs Ts) × GossipNetwork Hs Ts → NetEvent η →
      List (Forwarded η Hs Ts) × GossipNetwork Hs Ts → Prop where
  | receive {log : List (Forwarded η Hs Ts)} {net : GossipNetwork Hs Ts} (p : Packet η)
      {sessions : HashMap SocketAddr (SecureSession Hs Ts)}
      (horder : sessions.entries.Perm net.security.sessions.entries) :
      Step rmp ed snow (log, net) (.receive p)
        (log ++ ((net.withSessions sessions).receive rmp ed snow p).2.toList.map fun env =>
          ⟨net.withSessions sessions, p, env⟩, ((net.withSessions sessions).receive rmp ed snow p).1)
  | wrap {log : List (Forwarded η Hs Ts)} {net : GossipNetwork Hs Ts} (p : Packet η)
      {sessions : HashMap SocketAddr (SecureSession Hs Ts)}
      (horder : sessions.entries.Perm net.security.sessions.entries) :
      Step rmp ed snow (log, net) (.wrap p) (log, (net.withSessions sessions).wrapFor snow p)

/-- An admitted packet arrives for a session that is still handshaking (perhaps one that it creates), and
the payload of its handshake message is an envelope that passes the checks. -/
def LeaksHandshake (rmp : RmpSerde) (ed : Ed25519) (snow : Snow η Hs Ts) (net : GossipNetwork Hs Ts) :
    NetEvent η → Prop
  | .receive p => ∃ sessions : HashMap SocketAddr (SecureSession Hs Ts),
      sessions.entries.Perm net.security.sessions.entries ∧ net.admits p ∧
      ∃ hs plain env, ((net.withSessions sessions).security.sessionFor p.now p.peer
          (.newResponder snow net.security.noiseStaticSecret p.seed p.peer p.now)).state =
            .handshaking hs ∧
        (snow.readHandshake hs p.rawBytes 1024).1 = some plain ∧
        (net.inspect rmp ed p.peer.ip plain).2 = some env
  | .wrap _ => False

variable {log : List (Forwarded η Hs Ts)}

theorem Step.noiseRequired {log' : List (Forwarded η Hs Ts)} {net' : GossipNetwork Hs Ts}
    {m : NetEvent η} (h : Step rmp ed snow (log, net) m (log', net')) :
    net'.noiseRequired = net.noiseRequired := by
  cases h with
  | receive p horder =>
    rw [receive_noiseRequired, noiseRequired_withSessions]
  | wrap p horder => dsimp only [wrapFor, withSessions]

/-- The packets that are forwarded in a state: those with a handshake payload that passes the checks,
and those that are decrypted. -/
theorem step_decrypted_iff (hreq : net.noiseRequired = true)
    (hlog : ∀ f ∈ log, f.Decrypted rmp snow) (m : NetEvent η) :
    (∀ log' net', Step rmp ed snow (log, net) m (log', net') → ∀ f ∈ log', f.Decrypted rmp snow) ↔
      ¬ net.LeaksHandshake rmp ed snow m := by
  cases m with
  | wrap p =>
    refine iff_of_true (fun log' net' hstep f hf => ?_) id
    cases hstep with
    | wrap _ _ => exact hlog f hf
  | receive p =>
    constructor
    · rintro hall ⟨sessions, horder, hadm, hs, plain, env, hstate, hread, henv⟩
      have hopen := SessionManager.unwrap_eq_some.mpr (Or.inl ⟨hs, hstate, hread⟩)
      have hreq' := (noiseRequired_withSessions net sessions).trans hreq
      have hfwd := (receive_eq_some hreq').mpr
        ⟨admits_withSessions.mpr hadm, plain, hopen, inspect_withSessions.mpr henv⟩
      obtain ⟨session, ts, -, -, hlook, hactive, -⟩ := hall _ _ (.receive p horder)
        ⟨net.withSessions sessions, p, env⟩ (List.mem_append_right _ (by rw [hfwd]; simp))
      have hts := hstate.symm.trans (SessionManager.sessionFor_active.mpr ⟨session, hlook, hactive⟩)
      exact absurd hts (by simp)
    · intro hleak log' net' hstep f hf
      cases hstep with
      | @receive _ _ _ sessions horder =>
        rcases List.mem_append.mp hf with hf | hf
        · exact hlog f hf
        · obtain ⟨env, henv, rfl⟩ := List.mem_map.mp hf
          rw [Option.mem_toList] at henv
          have hreq' := (noiseRequired_withSessions net sessions).trans hreq
          obtain ⟨hadm, plain, hopen, hpass⟩ := (receive_eq_some hreq').mp henv
          rcases SessionManager.unwrap_eq_some.mp hopen with ⟨hs, hstate, hread⟩ | ⟨ts, hstate, hread⟩
          · exact absurd ⟨sessions, horder, admits_withSessions.mp hadm, hs, plain, env, hstate,
              hread, inspect_withSessions.mp hpass⟩ hleak
          · obtain ⟨session, hlook, hactive⟩ := SessionManager.sessionFor_active.mp hstate
            exact ⟨session, ts, plain, SessionManager.lookup_evictStale hlook, hlook, hactive, hread,
              (inspect_eq_some.mp hpass).1⟩

/-- An Ed25519 public key. -/
def helloKey : NodeId :=
  ⟨[215, 90, 152, 1, 130, 177, 10, 183, 213, 75, 254, 211, 201, 100, 7, 58, 14, 225, 114, 243, 218,
    166, 35, 37, 175, 2, 26, 104, 247, 7, 81, 26], rfl⟩

/-- An inference request with the prompt "hi". -/
def helloData : AimpData := ⟨1, .infer, 3, helloKey, [], [104, 105]⟩

/-- The request in MessagePack. -/
def helloDataBytes : List Byte :=
  [0x96, 1, 4, 3, 0xc4, 32] ++ helloKey.val ++ [0x80, 0xc4, 2, 104, 105]

/-- The signature of these bytes. -/
def helloSignature : Signature :=
  ⟨[198, 215, 66, 7, 193, 126, 254, 165, 233, 206, 158, 2, 181, 170, 1, 75, 24, 224, 218, 64, 53,
    68, 33, 14, 209, 207, 51, 60, 23, 246, 7, 51, 25, 176, 98, 205, 31, 192, 69, 90, 53, 61, 58, 69,
    208, 38, 43, 194, 145, 102, 186, 143, 164, 210, 32, 8, 91, 180, 155, 2, 113, 54, 136, 2], rfl⟩

/-- The signed request. -/
def helloEnvelope : AimpEnvelope := ⟨helloData, helloSignature⟩

/-- The signed request in MessagePack. -/
def helloBytes : List Byte := [0x92] ++ helloDataBytes ++ [0xc4, 64] ++ helloSignature.val

/-- MessagePack, on this request. -/
def helloRmp : RmpSerde where
  toVec data := if data = helloData then .ok helloDataBytes else .error "unknown data"
  fromSlice bytes := if bytes = helloBytes then .ok helloEnvelope else .error "unknown bytes"

/-- Ed25519, on this request. -/
def helloEd : Ed25519 where
  isKey key := key = helloKey
  verify key bytes sig := key = helloKey ∧ bytes = helloDataBytes ∧ sig = helloSignature

/-- Noise XX as far as the first message: 32 bytes for the ephemeral key, then the payload as it is. A
handshake state tells the role and the number of messages. A transport message ends with a tag of 16
bytes. -/
def xxSnow : Snow Unit (Bool × ℕ) Unit where
  buildInitiator _ _ := (true, 0)
  buildResponder _ _ := (false, 0)
  writeHandshake hs payload _ :=
    if hs = (true, 0) then (some (List.replicate 32 9 ++ payload), (true, 1)) else (none, hs)
  readHandshake hs message size :=
    if hs = (false, 0) ∧ 32 ≤ message.length ∧ message.length - 32 ≤ size then
      (some (message.drop 32), (false, 1))
    else (none, hs)
  isHandshakeFinished hs := 3 ≤ hs.2
  intoTransportMode _ := some ()
  writeTransport _ payload _ := (some (payload ++ List.replicate 16 0), ())
  readTransport _ message _ :=
    (if 16 ≤ message.length then some (message.take (message.length - 16)) else none, ())

/-- The address of a peer. -/
def peerAddr : SocketAddr := ⟨"192.0.2.7", 1337⟩

/-- A new node. -/
def newNet : GossipNetwork (Bool × ℕ) Unit := new (zeros 32) true 50 100

/-- A node with an active session for that peer. -/
def activeNet : GossipNetwork (Bool × ℕ) Unit :=
  newNet.withSessions (AList.singleton peerAddr ⟨.active (), peerAddr, 0⟩)

/-- The request, encrypted for the active session. -/
def helloTransport : Packet Unit := ⟨1, (), peerAddr, helloBytes ++ List.replicate 16 0⟩

/-- The request behind 32 bytes that stand for an ephemeral key. -/
def helloHandshake : Packet Unit := ⟨1, (), peerAddr, List.replicate 32 9 ++ helloBytes⟩

/-- A new node forwards the request of that first message. -/
theorem run_helloHandshake :
    ∃ net, Run (Step helloRmp helloEd xxSnow) ([], newNet) [.receive helloHandshake]
      ([⟨newNet, helloHandshake, helloEnvelope⟩], net) := by
  have hstep : Step helloRmp helloEd xxSnow ([], newNet) (.receive helloHandshake)
      ([] ++ (newNet.receive helloRmp helloEd xxSnow helloHandshake).2.toList.map fun env =>
        ⟨newNet, helloHandshake, env⟩, _) := .receive helloHandshake (List.Perm.refl _)
  have hfwd : (newNet.receive helloRmp helloEd xxSnow helloHandshake).2 = some helloEnvelope := by
    decide +kernel
  rw [hfwd] at hstep
  exact ⟨_, .snoc .nil hstep⟩

end GossipNetwork

end Aimp.Network
