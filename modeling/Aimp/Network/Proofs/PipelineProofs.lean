import Aimp.Network.Proofs.FilterProofs
import Aimp.Network.Proofs.NoiseProofs

/-!
# The receive pipeline

What `listen` does to its tables on each exit: a packet that is dropped may count as a failure of its peer
and leaves the filter alone, a packet that is forwarded enters the filter. The filter holds the last
`GOSSIP_LRU_SIZE` forwarded signatures.
-/

namespace Aimp.Network

open Aimp.Protocol

variable {η Hs Ts : Type} {rmp : RmpSerde} {ed : Ed25519} {snow : Snow η Hs Ts}

/-! ## The filter -/

namespace GossipFilter

variable {f : GossipFilter} {sigs : List Signature} {sig : Signature}

/-- The filter holds the last signatures of `sigs`. -/
structure Remembers (f : GossipFilter) (sigs : List Signature) : Prop where
  capacity : f.capacity = gossipLruSize
  queue : f.queue = sigs.rtake gossipLruSize
  nodup : f.set.Nodup
  mem_set : ∀ sig, sig ∈ f.set ↔ sig ∈ f.queue

theorem remembers_new : (new gossipLruSize).Remembers [] where
  capacity := rfl
  queue := (List.rtake_nil gossipLruSize).symm
  nodup := List.nodup_nil
  mem_set _ := Iff.rfl

theorem Remembers.contains_iff (h : f.Remembers sigs) :
    f.contains sig = true ↔ sig ∈ sigs.rtake gossipLruSize := by
  unfold contains
  rw [decide_eq_true_iff, h.mem_set, h.queue]

/-- A new signature enters the filter. -/
theorem Remembers.insert (h : f.Remembers sigs) (hsig : sig ∉ sigs.rtake gossipLruSize)
    (hnd : (sigs.rtake gossipLruSize).Nodup) : (f.insert sig).Remembers (sigs ++ [sig]) := by
  have hholds : f.Holds sigs :=
    { queue := by rw [h.capacity, h.queue]
      nodup_queue := by rwa [h.queue]
      nodup_set := h.nodup
      mem_set := h.mem_set }
  have hset : sig ∉ f.set := by rwa [h.mem_set, h.queue]
  have hcap : 1 ≤ f.capacity := by rw [h.capacity]; decide
  have hinsert := hholds.insert hcap hset
  have hcapacity : (f.insert sig).capacity = gossipLruSize := by rw [f.capacity_insert, h.capacity]
  exact
    { capacity := hcapacity
      queue := by rw [hinsert.queue, hcapacity]
      nodup := hinsert.nodup_set
      mem_set := hinsert.mem_set }

end GossipFilter

namespace GossipNetwork

variable {net : GossipNetwork Hs Ts} {p : Packet η} {env : AimpEnvelope} {log : List (Forwarded η Hs Ts)}

/-! ## One packet -/

/-- The number of failures of a peer. -/
def failures (net : GossipNetwork Hs Ts) (ip : String) : ℕ := (net.peerHealth.lookup ip).getD 0

/-- The envelope passes the checks that do not depend on the tables. -/
structure Valid (rmp : RmpSerde) (ed : Ed25519) (env : AimpEnvelope) : Prop where
  version : minProtocolVersion ≤ env.data.v ∧ env.data.v ≤ protocolVersion
  ttl : 0 < env.data.ttl
  signature : verify rmp ed env = true

theorem version_of_fromBytes {bytes : List Byte} (h : fromBytes rmp bytes = .ok env) :
    minProtocolVersion ≤ env.data.v ∧ env.data.v ≤ protocolVersion := by
  unfold fromBytes at h
  split at h
  · cases h
  · split at h
    · cases h
    · split at h
      · cases h
      · rename_i hv
        obtain rfl := Except.ok.inj h
        rw [not_or, Fin.not_lt, Fin.not_lt] at hv
        exact hv

theorem failures_countFailure (net : GossipNetwork Hs Ts) (ip ip' : String) :
    net.failures ip' ≤ (net.countFailure ip).failures ip' := by
  unfold failures countFailure
  by_cases h : ip' = ip
  · subst h
    rw [AList.lookup_insert]
    exact Nat.le_succ _
  · rw [AList.lookup_insert_ne h]

/-- `net'` has the filter of `net`, and no failure is forgotten. -/
structure Dropped (net net' : GossipNetwork Hs Ts) : Prop where
  filter : net'.gossipFilter = net.gossipFilter
  failures : ∀ ip, net.failures ip ≤ net'.failures ip

/-- A valid envelope with a new signature has entered the filter. -/
structure Passed (rmp : RmpSerde) (ed : Ed25519) (net net' : GossipNetwork Hs Ts) (env : AimpEnvelope) :
    Prop where
  valid : Valid rmp ed env
  new : net.gossipFilter.contains env.signature = false
  filter : net'.gossipFilter = net.gossipFilter.insert env.signature
  health : net'.peerHealth = net.peerHealth

/-- Every exit behind the Noise session updates the right table. -/
theorem inspect_cases (rmp : RmpSerde) (ed : Ed25519) (net : GossipNetwork Hs Ts) (ip : String)
    (plain : List Byte) :
    ((net.inspect rmp ed ip plain).2 = none ∧ net.Dropped (net.inspect rmp ed ip plain).1) ∨
    ∃ env, (net.inspect rmp ed ip plain).2 = some env ∧
      net.Passed rmp ed (net.inspect rmp ed ip plain).1 env := by
  have hcount : net.Dropped (net.countFailure ip) := ⟨rfl, net.failures_countFailure ip⟩
  unfold inspect
  split
  · exact .inl ⟨rfl, hcount⟩
  · rename_i envelope hparse
    split
    · exact .inl ⟨rfl, hcount⟩
    · rename_i httl
      split
      · exact .inl ⟨rfl, rfl, fun _ => le_rfl⟩
      · rename_i hnew
        split
        · exact .inl ⟨rfl, hcount⟩
        · rename_i hverify
          rw [Bool.not_eq_true] at hnew
          rw [Bool.not_eq_false] at hverify
          have hvalid : Valid rmp ed envelope :=
            ⟨version_of_fromBytes hparse, Fin.pos_iff_ne_zero.mpr httl, hverify⟩
          exact .inr ⟨envelope, rfl, hvalid, hnew, rfl, rfl⟩

/-- Every exit of the loop body updates the right table. -/
theorem receive_cases (rmp : RmpSerde) (ed : Ed25519) (snow : Snow η Hs Ts) (net : GossipNetwork Hs Ts)
    (p : Packet η) :
    ((net.receive rmp ed snow p).2 = none ∧ net.Dropped (net.receive rmp ed snow p).1) ∨
    ∃ env, (net.receive rmp ed snow p).2 = some env ∧ net.admits p ∧
      net.Passed rmp ed (net.receive rmp ed snow p).1 env := by
  by_cases h : net.admits p
  · obtain ⟨hfilter, hhealth, -⟩ := opened_frame snow net p
    rw [receive_of_admits h]
    split
    · rename_i plain _
      rcases inspect_cases rmp ed (net.opened snow p) p.peer.ip plain with ⟨hnone, hd⟩ | ⟨env, hsome, hp⟩
      · refine .inl ⟨hnone, hd.filter.trans hfilter, ?_⟩
        intro ip
        refine le_trans ?_ (hd.failures ip)
        unfold failures
        rw [hhealth]
      · exact .inr ⟨env, hsome, h, hp.valid, hfilter ▸ hp.new, hfilter ▸ hp.filter,
          hp.health.trans hhealth⟩
    · refine .inl ⟨rfl, hfilter, ?_⟩
      intro ip
      unfold failures
      rw [hhealth]
  · obtain ⟨hfilter, hhealth, -⟩ := checkRateLimit_frame net p.now p.peer.ip
    rw [receive_of_not_admits h]
    refine .inl ⟨rfl, hfilter, ?_⟩
    intro ip
    unfold failures
    rw [hhealth]

/-! ## Runs -/

theorem wrapFor_frame (snow : Snow η Hs Ts) (net : GossipNetwork Hs Ts) (p : Packet η) :
    (net.wrapFor snow p).gossipFilter = net.gossipFilter ∧
      (net.wrapFor snow p).peerHealth = net.peerHealth := by
  dsimp only [wrapFor]
  exact ⟨rfl, rfl⟩

/-- The forwarded envelopes are valid and no signature is among the last ones before it, and the filter
holds the last signatures. -/
structure Piped (rmp : RmpSerde) (ed : Ed25519) (log : List (Forwarded η Hs Ts))
    (net : GossipNetwork Hs Ts) : Prop where
  valid : ∀ f ∈ log, Valid rmp ed f.envelope
  spaced : Recent.Spaced gossipLruSize (log.map fun f => f.envelope.signature)
  filter : net.gossipFilter.Remembers (log.map fun f => f.envelope.signature)

theorem Step.piped {m : NetEvent η} {log' : List (Forwarded η Hs Ts)} {net' : GossipNetwork Hs Ts}
    (hstep : Step rmp ed snow (log, net) m (log', net')) (h : Piped rmp ed log net) :
    Piped rmp ed log' net' := by
  cases hstep with
  | @wrap _ _ p sessions horder =>
    refine ⟨h.valid, h.spaced, ?_⟩
    rw [(wrapFor_frame snow (net.withSessions sessions) p).1]
    exact h.filter
  | @receive _ _ p sessions horder =>
    rcases receive_cases rmp ed snow (net.withSessions sessions) p with
      ⟨hnone, hd⟩ | ⟨env, hsome, -, hp⟩
    · rw [hnone, Option.toList_none, List.map_nil, List.append_nil]
      refine ⟨h.valid, h.spaced, ?_⟩
      rw [hd.filter]
      exact h.filter
    · have hnew : env.signature ∉ (log.map fun f => f.envelope.signature).rtake gossipLruSize := by
        rw [← h.filter.contains_iff, Bool.not_eq_true]
        exact hp.new
      rw [hsome, Option.toList_some, List.map_singleton]
      refine ⟨?_, ?_, ?_⟩
      · intro f hf
        rcases List.mem_append.mp hf with hf | hf
        · exact h.valid f hf
        · rw [List.mem_singleton.mp hf]
          exact hp.valid
      · rw [List.map_append, List.map_singleton]
        exact Recent.spaced_concat.mpr ⟨h.spaced, hnew⟩
      · rw [List.map_append, List.map_singleton, hp.filter]
        exact h.filter.insert hnew h.spaced.nodup

/-- Nothing is forwarded for a peer that has failed too often. -/
theorem Step.failed {m : NetEvent η} {log' : List (Forwarded η Hs Ts)} {net' : GossipNetwork Hs Ts}
    {ip : String} (hstep : Step rmp ed snow (log, net) m (log', net'))
    (h : peerFailureThreshold ≤ net.failures ip) :
    (∃ rest, log' = log ++ rest ∧ ∀ f ∈ rest, f.packet.peer.ip ≠ ip) ∧
      peerFailureThreshold ≤ net'.failures ip := by
  cases hstep with
  | @wrap _ _ p sessions horder =>
    refine ⟨⟨[], (List.append_nil log).symm, by simp⟩, ?_⟩
    unfold failures
    rw [(wrapFor_frame snow (net.withSessions sessions) p).2]
    exact h
  | @receive _ _ p sessions horder =>
    refine ⟨⟨_, rfl, ?_⟩, ?_⟩
    · intro f hf
      obtain ⟨env, henv, rfl⟩ := List.mem_map.mp hf
      rw [Option.mem_toList] at henv
      rcases receive_cases rmp ed snow (net.withSessions sessions) p with
        ⟨hnone, -⟩ | ⟨env', -, hadm, -⟩
      · rw [hnone] at henv
        cases henv
      · rintro rfl
        exact absurd (admits_withSessions.mp hadm).2 (not_lt.mpr h)
    · rcases receive_cases rmp ed snow (net.withSessions sessions) p with
        ⟨-, hd⟩ | ⟨env', -, -, hp⟩
      · exact h.trans (hd.failures ip)
      · unfold failures
        rw [hp.health]
        exact h

/-- A packet that is dropped leaves the filter alone. -/
theorem Step.dropped {log' : List (Forwarded η Hs Ts)} {net' : GossipNetwork Hs Ts}
    (hstep : Step rmp ed snow (log, net) (.receive p) (log', net')) (h : log' = log) :
    net'.gossipFilter = net.gossipFilter := by
  cases hstep with
  | @receive _ _ _ sessions horder =>
    rcases receive_cases rmp ed snow (net.withSessions sessions) p with
      ⟨-, hd⟩ | ⟨env, hsome, -, -⟩
    · exact hd.filter
    · rw [hsome] at h
      simp at h

theorem piped_new (secret : ByteArr 32) (noiseRequired : Bool) (limit burst : ℕ) :
    Piped rmp ed ([] : List (Forwarded η Hs Ts)) (new secret noiseRequired limit burst) where
  valid _ hf := absurd hf List.not_mem_nil
  spaced := Recent.spaced_nil
  filter := GossipFilter.remembers_new

theorem run_failed {ms : List (NetEvent η)} {log' : List (Forwarded η Hs Ts)}
    {net' : GossipNetwork Hs Ts} {ip : String} (h : peerFailureThreshold ≤ net.failures ip)
    (hrun : Run (Step rmp ed snow) (log, net) ms (log', net')) :
    ∃ rest, log' = log ++ rest ∧ ∀ f ∈ rest, f.packet.peer.ip ≠ ip := by
  have hinv : (∃ rest, (log', net').1 = log ++ rest ∧ ∀ f ∈ rest, f.packet.peer.ip ≠ ip) ∧
      peerFailureThreshold ≤ (log', net').2.failures ip := by
    refine hrun.invariant (P := fun t => (∃ rest, t.1 = log ++ rest ∧
      ∀ f ∈ rest, f.packet.peer.ip ≠ ip) ∧ peerFailureThreshold ≤ t.2.failures ip) ?_ ?_
    · exact ⟨⟨[], (List.append_nil log).symm, by simp⟩, h⟩
    · rintro ⟨log₁, net₁⟩ m ⟨log₂, net₂⟩ ⟨⟨rest, hrest, hip⟩, hfail⟩ hstep
      obtain ⟨⟨rest', hrest', hip'⟩, hfail'⟩ := hstep.failed hfail
      refine ⟨⟨rest ++ rest', ?_, ?_⟩, hfail'⟩
      · show log₂ = log ++ (rest ++ rest')
        rw [hrest', show log₁ = log ++ rest from hrest, List.append_assoc]
      · intro f hf
        exact (List.mem_append.mp hf).elim (hip f) (hip' f)
  exact hinv.1

/-- In every run of a new node: what is forwarded passes the checks; between two forwards of one signature
there are `GOSSIP_LRU_SIZE` distinct other ones; a packet that is not forwarded leaves the filter alone,
and the filter holds forwarded signatures only; and once a peer has failed too often nothing is forwarded
for it any more. -/
theorem pipeline_safety {secret : ByteArr 32} {noiseRequired : Bool} {limit burst : ℕ}
    {ms : List (NetEvent η)}
    (hrun : Run (Step rmp ed snow) ([], new secret noiseRequired limit burst) ms (log, net)) :
    (∀ f ∈ log, Valid rmp ed f.envelope) ∧
    (∀ A f B g C, log = A ++ f :: B ++ g :: C → f.envelope.signature = g.envelope.signature →
      ∃ W : List Signature, W.Nodup ∧ W.length = gossipLruSize ∧ f.envelope.signature ∉ W ∧
        ∀ w ∈ W, ∃ b ∈ B, b.envelope.signature = w) ∧
    ((∀ p log' net', Step rmp ed snow (log, net) (.receive p) (log', net') → log' = log →
        net'.gossipFilter = net.gossipFilter) ∧
      ∀ sig, net.gossipFilter.contains sig = true → ∃ f ∈ log, f.envelope.signature = sig) ∧
    ∀ ip, peerFailureThreshold ≤ net.failures ip → ∀ ms' log' net',
      Run (Step rmp ed snow) (log, net) ms' (log', net') →
        ∃ rest, log' = log ++ rest ∧ ∀ f ∈ rest, f.packet.peer.ip ≠ ip := by
  have h : Piped rmp ed (log, net).1 (log, net).2 :=
    hrun.invariant (P := fun t => Piped rmp ed t.1 t.2) (piped_new secret noiseRequired limit burst)
      fun h hstep => hstep.piped h
  refine ⟨h.valid, ?_, ⟨fun p log' net' hstep heq => hstep.dropped heq, ?_⟩, ?_⟩
  · rintro A f B g C rfl hsame
    have hspaced := h.spaced
    simp only [List.map_append, List.map_cons, ← hsame] at hspaced
    obtain ⟨W, hnd, hlen, hmem, hW⟩ := hspaced.between
    refine ⟨W, hnd, hlen, hmem, ?_⟩
    intro w hw
    exact List.mem_map.mp (hW w hw)
  · intro sig hsig
    exact List.mem_map.mp (List.mem_of_mem_drop (h.filter.contains_iff.mp hsig))
  · intro ip hfail ms' log' net' hrun'
    exact run_failed hfail hrun'

/-- One envelope that a new node forwards. -/
theorem pipeline_safety_one_envelope :
    ∃ log net, Run (Step helloRmp helloEd xxSnow) ([], newNet) [.receive helloHandshake] (log, net) ∧
      log.map Forwarded.envelope = [helloEnvelope] ∧ Valid helloRmp helloEd helloEnvelope := by
  obtain ⟨net, hrun⟩ := run_helloHandshake
  have hvalid := (pipeline_safety hrun).1 _ (List.mem_singleton_self _)
  exact ⟨_, net, hrun, rfl, hvalid⟩

end GossipNetwork

end Aimp.Network
