import Aimp.Crdt.Proofs.CoverProofs
import Aimp.Network.Proofs.PipelineProofs
import Aimp.Process.Proofs.AccountProofs

/-!
# From the listener to the DAG

Every envelope that the listener forwards is in one place at any time, and its handler begins once: the nodes
of a sync response reach the actor once, and a prompt becomes one mutation, unless it cannot be decided.
Nothing else reaches the DAG.
-/

namespace Aimp.Process

open Aimp.Crdt Aimp.Network Aimp.Protocol Aimp.Rules

variable {η Hs Ts : Type} {P : Host} {serde : PayloadSerde} {rmp : RmpSerde} {ed : Ed25519}
  {snow : Snow η Hs Ts}

namespace Node

variable {n n' : Node Hs Ts} {a : NodeAction η} {as : List (NodeAction η)}
  {actor : List DagNode × CrdtActor}

/-- The messages sent to the actor so far, in this order. -/
def posted (n : Node Hs Ts) : List CrdtMsg := n.handled ++ n.process.mailbox.map Letter.msg

/-- The data of an envelope whose handler has begun. -/
def Begun (n : Node Hs Ts) (data : AimpData) : Prop := ∃ env ∈ n.begun, env.data = data

/-- Where the envelopes, the messages and the prompts of a node are. -/
structure Sound (P : Host) (serde : PayloadSerde) (rmp : RmpSerde) (ed : Ed25519)
    (actor : List DagNode × CrdtActor) (n : Node Hs Ts) : Prop where
  valid : ∀ env ∈ n.forwarded, GossipNetwork.Valid rmp ed env
  placed : n.forwarded.Perm (n.sending ++ n.channel ++ n.spawned ++ n.begun)
  sending : n.sending.length ≤ networkBackpressureLimit
  channel : n.channel.length ≤ rxChannel
  mailbox : n.process.mailbox.length ≤ crdtChannel
  run : Run (CrdtActor.Step P.blake3) actor n.handled n.process.actor
  merges : n.begun.filterMap (mergeOf serde) = n.posted.filterMap mergedNodes
  traced : ∀ m ∈ n.posted, Traced P n.Begun m
  prompts : ∃ live failed, n.process.Tasked P n.Begun live ∧ (∀ prompt ∈ failed, Unanswered P prompt) ∧
    (n.begun.filterMap (promptOf serde) : Multiset String) =
      n.process.pending live + n.posted.filterMap answeredPrompt + failed

theorem sound_start (network : GossipNetwork Hs Ts) (d : DecisionDispatcher) (file : Option String)
    (actor : List DagNode × CrdtActor) :
    (start network (.start d file actor)).Sound P serde rmp ed actor where
  valid _ h := absurd h List.not_mem_nil
  placed := .refl _
  sending := Nat.zero_le _
  channel := Nat.zero_le _
  mailbox := Nat.zero_le _
  run := .nil
  merges := rfl
  traced _ h := absurd h List.not_mem_nil
  prompts := ⟨∅, 0, ⟨fun _ h => Bool.noConfusion h, fun _ _ h => nomatch h⟩,
    fun _ h => absurd h (Multiset.notMem_zero _), rfl⟩

/-- The listener takes a packet. -/
theorem Sound.receive (h : n.Sound P serde rmp ed actor) (p : Packet η)
    {sessions : HashMap SocketAddr (SecureSession Hs Ts)}
    (hpermit : n.sending.length < networkBackpressureLimit) :
    ((n.withSessions sessions).receive rmp ed snow p).Sound P serde rmp ed actor := by
  have hlast : ∀ net : GossipNetwork Hs Ts, (∀ env ∈ (net.receive rmp ed snow p).2.toList,
      GossipNetwork.Valid rmp ed env) ∧ (net.receive rmp ed snow p).2.toList.length ≤ 1 := by
    intro net
    rcases GossipNetwork.receive_cases rmp ed snow net p with ⟨hnone, -⟩ | ⟨env, hsome, -, hp⟩
    · rw [hnone]
      simp
    · rw [hsome]
      simp [hp.valid]
  obtain ⟨hvalid, hone⟩ := hlast (n.withSessions sessions).network
  generalize hout : ((n.withSessions sessions).network.receive rmp ed snow p).2.toList = out at hvalid hone
  refine ⟨fun env henv => ?_, ?_, ?_, h.channel, h.mailbox, h.run, h.merges, h.traced, h.prompts⟩
  · rcases List.mem_append.mp henv with henv | henv
    · exact h.valid env henv
    · exact hvalid env (hout ▸ henv)
  · show (n.forwarded ++ _).Perm ((n.sending ++ _) ++ n.channel ++ n.spawned ++ n.begun)
    rw [hout, List.perm_iff_count]
    intro env
    have hcount := h.placed.count_eq env
    simp only [List.count_append] at hcount ⊢
    omega
  · show (n.sending ++ _).length ≤ _
    rw [hout, List.length_append]
    omega

/-- A task gets room in the channel. -/
theorem Sound.enqueue (h : n.Sound P serde rmp ed actor) {env : AimpEnvelope} (hsending : env ∈ n.sending)
    (hroom : n.channel.length < rxChannel) :
    Sound P serde rmp ed actor
      { n with sending := n.sending.erase env, channel := n.channel ++ [env] } := by
  refine ⟨h.valid, ?_, (List.length_erase_le ..).trans h.sending, ?_, h.mailbox, h.run, h.merges,
    h.traced, h.prompts⟩
  · refine h.placed.trans (List.perm_iff_count.mpr fun x => ?_)
    have hcount := (List.perm_cons_erase hsending).count_eq x
    simp only [List.count_append, List.count_cons, List.count_nil] at hcount ⊢
    omega
  · show (n.channel ++ [env]).length ≤ _
    rw [List.length_append]
    exact hroom

/-- The dispatcher takes an envelope out of the channel. -/
theorem Sound.dispatch (h : n.Sound P serde rmp ed actor) {env : AimpEnvelope}
    {rest : List AimpEnvelope} (hchannel : n.channel = env :: rest) :
    Sound P serde rmp ed actor { n with channel := rest, spawned := n.spawned ++ [env] } := by
  have hplaced := h.placed
  have hle := h.channel
  rw [hchannel] at hplaced hle
  refine ⟨h.valid, hplaced.trans (List.perm_iff_count.mpr fun x => ?_), h.sending,
    Nat.le_of_succ_le hle, h.mailbox, h.run, h.merges, h.traced, h.prompts⟩
  simp only [List.count_append, List.count_cons, List.count_nil]
  omega

/-- A step of a task, of the actor or of another part of the node. -/
theorem Sound.advance (h : n.Sound P serde rmp ed actor) {a : Action} {process : NodeProcess}
    (ha : a.advances = true) (hstep : n.process.step P a = some process) :
    Sound P serde rmp ed actor
      { n with process := process, handled := n.handled ++ a.handles n.process } := by
  obtain ⟨live, failed, htasked, hfailed, hprompts⟩ := h.prompts
  obtain ⟨posted, failed', hacc⟩ := htasked.accounts ha hstep
  have hsent : Node.posted { n with process := process, handled := n.handled ++ a.handles n.process } =
      n.posted ++ posted := by
    unfold Node.posted
    rw [List.append_assoc, hacc.mail, ← List.append_assoc]
  refine ⟨h.valid, h.placed, h.sending, h.channel, NodeProcess.step_mailbox_le hstep h.mailbox,
    h.run.trans (NodeProcess.step_handles hstep), ?_, ?_, live, failed + failed', hacc.tasked, ?_, ?_⟩
  · rw [hsent, List.filterMap_append, hacc.merges, List.append_nil]
    exact h.merges
  · intro m hm
    rw [hsent] at hm
    exact (List.mem_append.mp hm).elim (h.traced m) (hacc.traced m)
  · intro prompt hmem
    exact (Multiset.mem_add.mp hmem).elim (hfailed prompt) (hacc.failed prompt)
  · rw [hsent, List.filterMap_append, ← Multiset.coe_add]
    refine hprompts.trans ?_
    rw [hacc.prompts]
    abel

/-- A handler begins. -/
theorem Sound.begin (h : n.Sound P serde rmp ed actor) {env : AimpEnvelope} {i : ℕ}
    {process : NodeProcess} (hspawned : env ∈ n.spawned)
    (hstep : (handling serde env.data).step P n.process env i = some process) :
    Sound P serde rmp ed actor
      { n with spawned := n.spawned.erase env, process := process, begun := n.begun ++ [env] } := by
  obtain ⟨live, failed, htasked, hfailed, hprompts⟩ := h.prompts
  set n' : Node Hs Ts :=
    { n with spawned := n.spawned.erase env, process := process, begun := n.begun ++ [env] } with hn'
  have hmono : ∀ data, n.Begun data → n'.Begun data :=
    fun data ⟨e, he, hdata⟩ => ⟨e, List.mem_append_left _ he, hdata⟩
  have hnew : n'.Begun env.data := ⟨env, List.mem_append_right _ (List.mem_singleton_self _), rfl⟩
  have hlast : ∀ {β : Type} (f : AimpEnvelope → Option β), [env].filterMap f = (f env).toList := by
    intro β f
    cases hf : f env <;> simp [hf]
  obtain ⟨posted, live', hb⟩ := (htasked.mono hmono).begins hnew hstep
  have hsent : n'.posted = n.posted ++ posted := by
    unfold Node.posted
    rw [hn', hb.mail, List.append_assoc]
  refine ⟨h.valid, h.placed.trans (List.perm_iff_count.mpr fun x => ?_), h.sending, h.channel,
    hb.mailbox h.mailbox, ?_, ?_, fun m hm => ?_, live', failed, hb.tasked, hfailed, ?_⟩
  · have hcount := (List.perm_cons_erase hspawned).count_eq x
    simp only [hn', List.count_append, List.count_cons, List.count_nil] at hcount ⊢
    omega
  · show Run _ actor n.handled process.actor
    rw [hb.actor]
    exact h.run
  · show (n.begun ++ [env]).filterMap _ = _
    rw [hsent, List.filterMap_append, List.filterMap_append, h.merges, hb.merges, hlast]
  · rw [hsent] at hm
    exact (List.mem_append.mp hm).elim (fun hm => (h.traced m hm).mono hmono) (hb.traced m)
  · have hbegun : (n'.begun.filterMap (promptOf serde) : Multiset String) =
        n.begun.filterMap (promptOf serde) + (promptOf serde env).toList := by
      rw [Multiset.coe_add, ← hlast, ← List.filterMap_append]
    rw [hbegun, hsent, List.filterMap_append, hb.answers, List.append_nil, hprompts]
    show _ = process.pending live' + _ + failed
    rw [hb.prompts]
    abel

theorem Step.sound (hstep : Step P serde rmp ed snow n a n') (h : n.Sound P serde rmp ed actor) :
    n'.Sound P serde rmp ed actor := by
  cases hstep with
  | receive p _ hpermit => exact h.receive p hpermit
  | enqueue hsending hroom => exact h.enqueue hsending hroom
  | dispatch hchannel => exact h.dispatch hchannel
  | begin hspawned hstep => exact h.begin hspawned hstep
  | advance ha hstep => exact h.advance ha hstep

theorem Sound.of_run {network : GossipNetwork Hs Ts} {d : DecisionDispatcher} {file : Option String}
    (hrun : Run (Step P serde rmp ed snow) (start network (.start d file actor)) as n) :
    n.Sound P serde rmp ed actor :=
  hrun.invariant (sound_start network d file actor) fun h hstep => hstep.sound h

/-- Nothing is under way. -/
structure Idle (n : Node Hs Ts) : Prop where
  sending : n.sending = []
  channel : n.channel = []
  spawned : n.spawned = []
  mailbox : n.process.mailbox = []
  tasks : ∀ i, n.process.tasks i = none

/-- In a node that is idle everything that was forwarded has been handled. -/
theorem Sound.idle (h : n.Sound P serde rmp ed actor) (hidle : n.Idle) :
    n.forwarded.Perm n.begun ∧ n.posted = n.handled ∧ ∀ live, n.process.pending live = 0 := by
  refine ⟨?_, ?_, fun live => Finset.sum_eq_zero fun i _ => ?_⟩
  · have hplaced := h.placed
    rwa [hidle.sending, hidle.channel, hidle.spawned] at hplaced
  · rw [posted, hidle.mailbox, List.map_nil, List.append_nil]
  · rw [hidle.tasks]
    rfl

/-- A message brings a node to the actor. -/
def Brings (x : DagNode) : CrdtMsg → Prop
  | .append _ signature vclock evidence =>
    x.signature = signature ∧ x.vclock = vclock ∧ x.evidence = evidence
  | .merge nodes => x ∈ nodes
  | _ => False

/-- The actor accepts what its messages bring. -/
theorem brings_of_run {blake3 : List Byte → Hash32} {t u : List DagNode × CrdtActor} {ms : List CrdtMsg}
    (hrun : Run (CrdtActor.Step blake3) t ms u) : ∀ x ∈ u.1, x ∈ t.1 ∨ ∃ m ∈ ms, Brings x m := by
  induction hrun with
  | nil => exact fun x hx => .inl hx
  | @snoc ms m t u _ hlast ih =>
    intro x hx
    cases hlast with
    | mk m disk horder =>
      rcases List.mem_append.mp hx with hx | hx
      · rcases ih x hx with hx | ⟨m', hm', hbrings⟩
        · exact .inl hx
        · exact .inr ⟨m', List.mem_append_left _ hm', hbrings⟩
      · refine .inr ⟨m, List.mem_append_right _ (List.mem_singleton_self _), ?_⟩
        cases m with
        | append =>
          obtain rfl := List.mem_singleton.mp hx
          exact ⟨rfl, rfl, rfl⟩
        | merge => exact hx
        | getRoot => cases hx
        | getDiff => cases hx

open GossipNetwork

/-- The node with the decision on the request. -/
def helloNode : DagNode where
  parents := []
  signature := lengthSignature 2
  dataHash := normalHash
  vclock := ⟨[(sampleKey, 1)], List.pairwise_singleton ..⟩
  evidence := some ⟨"hi", normalJson, gasEngine.engineHash, 1700000000⟩

def helloDigest : Hash32 := ⟨[92, 200, 192, 131, 157, 96, 77, 1, 49, 176, 6, 105, 12, 117, 5, 116, 59, 119,
  229, 158, 170, 228, 6, 33, 49, 205, 72, 166, 210, 117, 210, 63], by decide⟩

/-- The host of the samples, with the digest of this node. -/
def helloHost : Host := { sampleHost with
  blake3 := fun input => if input = helloNode.hashInput then helloDigest else sampleHost.blake3 input }

/-- No payload of the samples contains heads or nodes. -/
def noSerde : PayloadSerde := ⟨fun _ => none, fun _ => none⟩

/-- What the task, and then the actor, do with the request. -/
def answersHello : List Action :=
  [.reload (.load 0), .reload (.record 0), .evaluate 0, .draw 0, .readHash 0 1700000000, .send 0,
    .process [] fun _ => true]

/-- Steps of the tasks and of the actor are steps of the node. -/
theorem run_advance {as : List Action} {s : NodeProcess} (n : Node Hs Ts)
    (has : ∀ a ∈ as, a.advances = true) (h : as.foldlM (NodeProcess.step P) n.process = some s) :
    ∃ handled, Run (Step P serde rmp ed snow) n (as.map .advance)
      { n with process := s, handled := n.handled ++ handled } := by
  induction as using List.reverseRecOn generalizing s with
  | nil =>
    obtain rfl := Option.some.inj h
    exact ⟨[], by rw [List.append_nil]; exact .nil⟩
  | append_singleton as a ih =>
    rw [List.foldlM_append] at h
    obtain ⟨u, hu, ha⟩ := Option.bind_eq_some_iff.mp h
    obtain ⟨handled, hrun⟩ := ih (fun b hb => has b (List.mem_append_left _ hb)) hu
    have hstep : u.step P a = some s := by simpa using ha
    refine ⟨handled ++ a.handles u, ?_⟩
    rw [List.map_append, ← List.append_assoc]
    exact hrun.snoc (.advance (has a (List.mem_append_right _ (List.mem_singleton_self _))) hstep)

/-- The request arrives, and its decision becomes a node. -/
theorem exists_run_hello : ∃ (as : List (NodeAction Unit)) (n : Node (Bool × ℕ) Unit),
    Run (Step helloHost noSerde helloRmp helloEd xxSnow) (start newNet sampleStart) as n ∧
    n.forwarded = [helloEnvelope] ∧ n.begun = [helloEnvelope] ∧ n.process.actor.1 = [helloNode] ∧
    n.process.actor.2.engine.arena.getByHash helloDigest = some helloNode := by
  have hlog : ((Action.spawn 0 helloData :: answersHello).foldlM (NodeProcess.step helloHost)
      sampleStart).map (fun s => (s.actor.1, s.actor.2.engine.arena.getByHash helloDigest)) =
        some ([helloNode], some helloNode) := by
    decide +kernel
  obtain ⟨s, hs, hlog⟩ := Option.map_eq_some_iff.mp hlog
  obtain ⟨hactor, harena⟩ := Prod.mk.inj hlog
  rw [List.foldlM_cons] at hs
  obtain ⟨p, hp, hs⟩ := Option.bind_eq_some_iff.mp hs
  have hfwd : (newNet.receive helloRmp helloEd xxSnow helloHandshake).2 = some helloEnvelope := by
    decide +kernel
  have hreceive : Step helloHost noSerde helloRmp helloEd xxSnow (start newNet sampleStart)
      (.receive helloHandshake) ⟨(newNet.receive helloRmp helloEd xxSnow helloHandshake).1,
        (newNet.receive helloRmp helloEd xxSnow helloHandshake).2.toList, [], [], sampleStart,
        (newNet.receive helloRmp helloEd xxSnow helloHandshake).2.toList, [], []⟩ :=
    .receive helloHandshake (List.Perm.refl _) (by decide)
  rw [hfwd] at hreceive
  have hhandling : handling noSerde helloEnvelope.data = .infer "hi" :=
    handling_infer.mpr (by decide +kernel)
  have hbegin : (handling noSerde helloEnvelope.data).step helloHost sampleStart helloEnvelope 0 =
      some p := by
    rw [hhandling]
    exact hp
  have hrun := (((Run.single hreceive).snoc (.enqueue (List.mem_singleton_self _) (by decide))).snoc
    (.dispatch rfl)).snoc (.begin (List.mem_singleton_self _) hbegin)
  obtain ⟨handled, hrest⟩ := run_advance ⟨(newNet.receive helloRmp helloEd xxSnow helloHandshake).1, [], [],
    [helloEnvelope].erase helloEnvelope, p, [helloEnvelope], [helloEnvelope], []⟩ (by decide) hs
  exact ⟨_, _, hrun.trans hrest, rfl, rfl, hactor, harena⟩

end Node

end Aimp.Process
