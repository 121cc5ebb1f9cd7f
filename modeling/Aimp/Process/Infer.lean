import Aimp.Crdt.Actor
import Aimp.Protocol.Envelope
import Aimp.Rules.Dispatcher

/-!
# Inference tasks of one node

One node process: any number of `handle_infer` tasks share the decision dispatcher and the clock, and send
what they have decided to the CRDT actor. A step is one access to what is shared; what a task computes for
itself goes with the step before it.
-/

namespace Aimp.Process

open Aimp.Crdt Aimp.Protocol Aimp.Rules

/-- What the tasks use of other libraries, and the identity of the node. -/
structure Host extends Runtime where
  /-- `serde_json::to_string` of the map with the keys `action` and `status`. -/
  toJson : Bool → String → Option String
  /-- `Identity::sign`. -/
  sign : AimpData → Option Signature
  nodeId : NodeId

/-- The key of the node in its own vector clocks. -/
def Host.clockKey (P : Host) : String := String.ofList ((hexEncode P.nodeId.val).toList.take 8)

/-- The vector clock of a mutation of this node. -/
def Host.vclock (P : Host) (tick : U64) : VClock := ⟨[(P.clockKey, tick)], List.pairwise_singleton ..⟩

/-- `String::from_utf8`. -/
def fromUtf8 (bytes : List Byte) : Option String :=
  String.fromUTF8? ⟨(bytes.map UInt8.ofFin).toArray⟩

/-- `Payload::decode`, where it gives an `InferPrompt`. -/
def inferPrompt (data : AimpData) : Option String :=
  match data.op with
  | .infer => fromUtf8 data.payload
  | _ => none

/-- Where a task is. The engine that has decided is kept for reference only. -/
inductive InferPhase where
  /-- In `try_hot_reload`, at the start of `run_evaluation`. -/
  | reloading
  | decided (res : Decision) (decider : DecisionEngine)
  | ticked (json : String) (signature : Signature) (tick : U64) (decider : DecisionEngine)
  /-- The hash of the engine has been looked up, the mutation is to be sent next. -/
  | ready (dataHash : Hash32) (signature : Signature) (vclock : VClock) (evidence : AiEvidence)
      (decider : DecisionEngine)

/-- A task of `handle_infer`. -/
structure InferTask where
  data : AimpData
  prompt : String
  phase : InferPhase

/-- A message on its way to the actor: a mutation of this node, or anything else. -/
inductive Letter where
  | own (dataHash : Hash32) (signature : Signature) (vclock : VClock) (evidence : AiEvidence)
      (decider : DecisionEngine)
  | other (m : CrdtMsg)

def Letter.msg : Letter → CrdtMsg
  | .own dataHash signature vclock evidence _ => .append dataHash signature vclock (some evidence)
  | .other m => m

/-- The capacity of the channel to the actor. -/
def crdtChannel : ℕ := 100

/-- The shared state of a node and its tasks. -/
structure NodeProcess where
  reload : HotReload
  tasks : ℕ → Option InferTask
  nodeClock : U64
  mailbox : List Letter
  /-- The nodes accepted so far, and the actor. -/
  actor : List DagNode × CrdtActor
  /-- The nodes that the actor has created for the tasks, in this order, with the engines that decided. -/
  created : List (DagNode × DecisionEngine)

/-- What can happen next; the number is that of a task. -/
inductive Action where
  /-- A message with the op code `Infer` arrives. -/
  | spawn (i : ℕ) (data : AimpData)
  /-- A step of `try_hot_reload`, or a change of the rules file. -/
  | reload (a : ReloadAction)
  | evaluate (i : ℕ)
  | draw (i : ℕ)
  | readHash (i : ℕ) (now : U64)
  | send (i : ℕ)
  /-- Another part of the node sends a message to the actor. -/
  | deliver (m : CrdtMsg)
  /-- The actor handles a message, with the heads in this order; `disk` tells which writes succeed. -/
  | process (heads : List Hash32) (disk : Hash32 → Bool)

namespace NodeProcess

/-- A node before its first task. -/
def start (dispatcher : DecisionDispatcher) (file : Option String) (actor : List DagNode × CrdtActor) :
    NodeProcess :=
  ⟨.start dispatcher file, fun _ => none, 0, [], actor, []⟩

/-- The task `i` goes on as `task`, or ends. -/
def goOn (s : NodeProcess) (i : ℕ) (task : Option InferTask) : NodeProcess :=
  { s with tasks := Function.update s.tasks i task }

/-- `run_evaluation` after the reload: an error ends the task. -/
def evaluate (s : NodeProcess) (i : ℕ) (task : InferTask) : NodeProcess :=
  let engine := s.reload.dispatcher.engine
  s.goOn i ((engine.evaluate task.prompt).map fun res => { task with phase := .decided res engine })

/-- The decision is serialized and signed, then the clock is incremented; an error ends the task. -/
def draw (P : Host) (s : NodeProcess) (i : ℕ) (task : InferTask) (res : Decision)
    (decider : DecisionEngine) : NodeProcess :=
  match P.toJson res.actionRequired res.status, P.sign task.data with
  | some json, some signature =>
    let currentTick := s.nodeClock + 1
    { s.goOn i (some { task with phase := .ticked json signature currentTick decider }) with
      nodeClock := currentTick }
  | _, _ => s.goOn i none

/-- The evidence names the engine that is active now. -/
def readHash (P : Host) (s : NodeProcess) (i : ℕ) (task : InferTask) (json : String)
    (signature : Signature) (tick : U64) (decider : DecisionEngine) (now : U64) : NodeProcess :=
  let evidence : AiEvidence := ⟨task.prompt, json, s.reload.dispatcher.engine.engineHash, now⟩
  s.goOn i (some { task with
    phase := .ready (P.blake3 (asBytes json)) signature (P.vclock tick) evidence decider })

/-- The nodes created for the tasks when the actor `st` has handled `l`. -/
def createdWith (s : NodeProcess) (st : CrdtActor) : Letter → List (DagNode × DecisionEngine)
  | .own dataHash signature vclock evidence decider =>
    s.created ++ [(st.engine.mutation dataHash signature vclock (some evidence), decider)]
  | .other _ => s.created

/-- The actor handles the message in front. -/
def handle (P : Host) (s : NodeProcess) (heads : List Hash32) (disk : Hash32 → Bool) (l : Letter)
    (rest : List Letter) : NodeProcess :=
  let st := s.actor.2.withHeads heads
  { s with
    mailbox := rest
    actor := (s.actor.1 ++ st.accepts l.msg, (st.handle P.blake3 disk l.msg).1)
    created := s.createdWith st l }

/-- One step of the node. -/
def step (P : Host) (s : NodeProcess) : Action → Option NodeProcess
  | .spawn i data =>
    match s.tasks i, inferPrompt data, s.reload.step P.toRuntime (.enter i) with
    | none, some prompt, some reload =>
      some { s.goOn i (some ⟨data, prompt, .reloading⟩) with reload := reload }
    | _, _, _ => none
  | .reload (.enter _) => none
  | .reload a => (s.reload.step P.toRuntime a).map fun reload => { s with reload := reload }
  | .evaluate i =>
    match s.tasks i, s.reload.calls i with
    | some ⟨data, prompt, .reloading⟩, none => some (s.evaluate i ⟨data, prompt, .reloading⟩)
    | _, _ => none
  | .draw i =>
    match s.tasks i with
    | some ⟨data, prompt, .decided res decider⟩ =>
      some (s.draw P i ⟨data, prompt, .decided res decider⟩ res decider)
    | _ => none
  | .readHash i now =>
    match s.tasks i with
    | some ⟨data, prompt, .ticked json signature tick decider⟩ =>
      some (s.readHash P i ⟨data, prompt, .ticked json signature tick decider⟩ json signature tick
        decider now)
    | _ => none
  | .send i =>
    match s.tasks i with
    | some ⟨_, _, .ready dataHash signature vclock evidence decider⟩ =>
      if s.mailbox.length < crdtChannel then
        some { s.goOn i none with
          mailbox := s.mailbox ++ [.own dataHash signature vclock evidence decider] }
      else none
    | _ => none
  | .deliver (.append ..) => none
  | .deliver m =>
    if s.mailbox.length < crdtChannel then some { s with mailbox := s.mailbox ++ [.other m] } else none
  | .process heads disk =>
    match s.mailbox with
    | l :: rest =>
      if heads.Perm s.actor.2.engine.heads then some (s.handle P heads disk l rest) else none
    | [] => none

end NodeProcess

end Aimp.Process
