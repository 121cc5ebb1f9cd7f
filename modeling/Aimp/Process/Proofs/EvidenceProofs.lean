import Aimp.Process.Infer
import Aimp.Rules.Proofs.ReloadProofs

/-!
# The engine named in the evidence

A task evaluates its prompt and looks up the hash of the engine later. The evidence names the engine that
has decided if and only if no engine with another hash is active by then.
-/

namespace Aimp.Process

open Aimp.Crdt Aimp.Protocol Aimp.Rules

/-- The engine decides the prompt, and `json` is its decision. -/
def Decides (P : Host) (e : DecisionEngine) (prompt json : String) : Prop :=
  ∃ res, e.evaluate prompt = some res ∧ P.toJson res.actionRequired res.status = some json

/-- What the task has computed so far comes from its engine; what it is about to send satisfies `Φ`. -/
def InferTask.Sound (P : Host) (Φ : AiEvidence → DecisionEngine → Prop) (task : InferTask) : Prop :=
  match task.phase with
  | .reloading => True
  | .decided res e => e.evaluate task.prompt = some res
  | .ticked json _ _ e => Decides P e task.prompt json
  | .ready _ _ _ evidence e => Φ evidence e

namespace NodeProcess

variable {P : Host} {Φ : AiEvidence → DecisionEngine → Prop} {s t : NodeProcess} {a : Action} {i : ℕ}
  {task : InferTask} {d : DecisionDispatcher} {file : Option String} {actor : List DagNode × CrdtActor}
  {actions : List Action}

/-- The evidence on its way to the actor, and that of the nodes created for the tasks, satisfies `Φ`. -/
structure Carries (P : Host) (Φ : AiEvidence → DecisionEngine → Prop) (s : NodeProcess) : Prop where
  tasks : ∀ i task, s.tasks i = some task → task.Sound P Φ
  mailbox : ∀ dataHash signature vclock evidence e,
    .own dataHash signature vclock evidence e ∈ s.mailbox → Φ evidence e
  created : ∀ x ∈ s.created, ∀ evidence, x.1.evidence = some evidence → Φ evidence x.2

/-! ## One step -/

/-- What a step requires, and what it does. -/
inductive Transition (P : Host) (s : NodeProcess) : Action → NodeProcess → Prop where
  | spawn {i : ℕ} {data : AimpData} {prompt : String} {reload : HotReload} (htask : s.tasks i = none)
      (hprompt : inferPrompt data = some prompt)
      (hreload : s.reload.step P.toRuntime (.enter i) = some reload) :
      Transition P s (.spawn i data) { s.goOn i (some ⟨data, prompt, .reloading⟩) with reload := reload }
  | reload {a : ReloadAction} {reload : HotReload}
      (hreload : s.reload.step P.toRuntime a = some reload) :
      Transition P s (.reload a) { s with reload := reload }
  | evaluate {i : ℕ} {data : AimpData} {prompt : String}
      (htask : s.tasks i = some ⟨data, prompt, .reloading⟩) (hcall : s.reload.calls i = none) :
      Transition P s (.evaluate i) (s.evaluate i ⟨data, prompt, .reloading⟩)
  | draw {i : ℕ} {data : AimpData} {prompt : String} {res : Decision} {e : DecisionEngine}
      (htask : s.tasks i = some ⟨data, prompt, .decided res e⟩) :
      Transition P s (.draw i) (s.draw P i ⟨data, prompt, .decided res e⟩ res e)
  | readHash {i : ℕ} {now : U64} {data : AimpData} {prompt json : String} {signature : Signature}
      {tick : U64} {e : DecisionEngine}
      (htask : s.tasks i = some ⟨data, prompt, .ticked json signature tick e⟩) :
      Transition P s (.readHash i now) (s.readHash P i ⟨data, prompt, .ticked json signature tick e⟩
        json signature tick e now)
  | send {i : ℕ} {data : AimpData} {prompt : String} {dataHash : Hash32} {signature : Signature}
      {vclock : VClock} {evidence : AiEvidence} {e : DecisionEngine}
      (htask : s.tasks i = some ⟨data, prompt, .ready dataHash signature vclock evidence e⟩)
      (hroom : s.mailbox.length < crdtChannel) :
      Transition P s (.send i) { s.goOn i none with
        mailbox := s.mailbox ++ [.own dataHash signature vclock evidence e] }
  | deliver {m : CrdtMsg} (hroom : s.mailbox.length < crdtChannel) :
      Transition P s (.deliver m) { s with mailbox := s.mailbox ++ [.other m] }
  | process {heads : List Hash32} {disk : Hash32 → Bool} {l : Letter} {rest : List Letter}
      (hmail : s.mailbox = l :: rest) (horder : heads.Perm s.actor.2.engine.heads) :
      Transition P s (.process heads disk) (s.handle P heads disk l rest)

theorem step_transition (hstep : s.step P a = some t) : Transition P s a t := by
  cases a with
  | spawn i data =>
    simp only [step] at hstep
    split at hstep
    · rename_i htask hprompt hreload
      obtain rfl := Option.some.inj hstep
      exact .spawn htask hprompt hreload
    · cases hstep
  | reload a =>
    cases a with
    | enter i => cases hstep
    | changeFile _ | load _ | record _ | swap _ =>
      simp only [step, Option.map_eq_some_iff] at hstep
      obtain ⟨reload, hreload, rfl⟩ := hstep
      exact .reload hreload
  | evaluate i =>
    simp only [step] at hstep
    split at hstep
    · rename_i htask hcall
      obtain rfl := Option.some.inj hstep
      exact .evaluate htask hcall
    · cases hstep
  | draw i =>
    simp only [step] at hstep
    split at hstep
    · rename_i htask
      obtain rfl := Option.some.inj hstep
      exact .draw htask
    · cases hstep
  | readHash i now =>
    simp only [step] at hstep
    split at hstep
    · rename_i htask
      obtain rfl := Option.some.inj hstep
      exact .readHash htask
    · cases hstep
  | send i =>
    simp only [step] at hstep
    split at hstep
    · rename_i htask
      split at hstep
      · rename_i hroom
        obtain rfl := Option.some.inj hstep
        exact .send htask hroom
      · cases hstep
    · cases hstep
  | deliver m =>
    cases m with
    | append => cases hstep
    | merge _ | getRoot | getDiff _ =>
      simp only [step] at hstep
      split at hstep
      · rename_i hroom
        obtain rfl := Option.some.inj hstep
        exact .deliver hroom
      · cases hstep
  | process heads disk =>
    simp only [step] at hstep
    split at hstep
    · rename_i l rest hmail
      split at hstep
      · rename_i horder
        obtain rfl := Option.some.inj hstep
        exact .process hmail horder
      · cases hstep
    · cases hstep

@[simp] theorem goOn_self (s : NodeProcess) (i : ℕ) (next : Option InferTask) :
    (s.goOn i next).tasks i = next := Function.update_self ..

@[simp] theorem goOn_other (s : NodeProcess) (next : Option InferTask) {j : ℕ} (h : j ≠ i) :
    (s.goOn i next).tasks j = s.tasks j := Function.update_of_ne h ..

/-- A task that goes on. -/
theorem Carries.goOn (hs : s.Carries P Φ) {next : Option InferTask}
    (hnext : ∀ task, next = some task → task.Sound P Φ) : (s.goOn i next).Carries P Φ := by
  refine ⟨?_, hs.mailbox, hs.created⟩
  intro j task hj
  by_cases hji : j = i
  · subst hji
    rw [goOn_self] at hj
    exact hnext task hj
  · rw [goOn_other s next hji] at hj
    exact hs.tasks j task hj

theorem Carries.draw (hs : s.Carries P Φ) {res : Decision} {e : DecisionEngine}
    (hres : e.evaluate task.prompt = some res) : (s.draw P i task res e).Carries P Φ := by
  unfold NodeProcess.draw
  split
  · rename_i json signature hjson _
    have hnext : ∀ next, some { task with phase := .ticked json signature (s.nodeClock + 1) e } =
        some next → next.Sound P Φ := by
      rintro next hnext
      obtain rfl := Option.some.inj hnext
      exact ⟨res, hres, hjson⟩
    obtain ⟨htasks, hmailbox, hcreated⟩ := hs.goOn (i := i) hnext
    exact ⟨htasks, hmailbox, hcreated⟩
  · exact hs.goOn (by simp)

theorem Carries.handle (hs : s.Carries P Φ) {heads : List Hash32} {disk : Hash32 → Bool} {l : Letter}
    {rest : List Letter} (hmail : s.mailbox = l :: rest) :
    (s.handle P heads disk l rest).Carries P Φ := by
  refine ⟨hs.tasks, ?_, ?_⟩
  · intro dataHash signature vclock evidence e hmem
    apply hs.mailbox dataHash signature vclock evidence e
    rw [hmail]
    exact List.mem_cons_of_mem l hmem
  · intro x hx evidence hev
    cases l with
    | other m => exact hs.created x hx evidence hev
    | own dataHash signature vclock evidence' e =>
      rcases List.mem_append.mp hx with hx | hx
      · exact hs.created x hx evidence hev
      · obtain rfl := List.mem_singleton.mp hx
        obtain rfl := Option.some.inj hev
        apply hs.mailbox dataHash signature vclock _ e
        rw [hmail]
        exact List.mem_cons_self

/-- A task that sends its mutation. -/
theorem Carries.post (hs : s.Carries P Φ) {l : Letter}
    (hl : ∀ dataHash signature vclock evidence e,
      l = .own dataHash signature vclock evidence e → Φ evidence e) :
    ({ s with mailbox := s.mailbox ++ [l] } : NodeProcess).Carries P Φ := by
  refine ⟨hs.tasks, ?_, hs.created⟩
  intro dataHash signature vclock evidence e hmem
  rcases List.mem_append.mp hmem with hmem | hmem
  · exact hs.mailbox dataHash signature vclock evidence e hmem
  · exact hl dataHash signature vclock evidence e (List.mem_singleton.mp hmem).symm

/-- A step keeps this, if the evidence put together by a task that looks up the hash satisfies `Φ`. -/
theorem step_carries (hs : s.Carries P Φ) (hstep : s.step P a = some t)
    (hread : ∀ i now data prompt json signature tick e, a = .readHash i now →
      s.tasks i = some ⟨data, prompt, .ticked json signature tick e⟩ → Decides P e prompt json →
      Φ ⟨prompt, json, s.reload.dispatcher.engine.engineHash, now⟩ e) : t.Carries P Φ := by
  cases step_transition hstep with
  | @spawn i data prompt reload =>
    have hnext : ∀ next, some (⟨data, prompt, .reloading⟩ : InferTask) = some next →
        next.Sound P Φ := by
      rintro next hnext
      obtain rfl := Option.some.inj hnext
      trivial
    obtain ⟨htasks, hmailbox, hcreated⟩ := hs.goOn (i := i) hnext
    exact ⟨htasks, hmailbox, hcreated⟩
  | reload => exact ⟨hs.tasks, hs.mailbox, hs.created⟩
  | evaluate =>
    apply hs.goOn
    rintro next hnext
    obtain ⟨res, hres, rfl⟩ := Option.map_eq_some_iff.mp hnext
    exact hres
  | draw htask => exact hs.draw (hs.tasks _ _ htask)
  | readHash htask =>
    apply hs.goOn
    rintro next hnext
    obtain rfl := Option.some.inj hnext
    exact hread _ _ _ _ _ _ _ _ rfl htask (hs.tasks _ _ htask)
  | send htask =>
    refine (hs.goOn (by simp)).post ?_
    rintro dataHash signature vclock evidence e hl
    obtain ⟨-, -, -, rfl, rfl⟩ := Letter.own.inj hl
    exact hs.tasks _ _ htask
  | deliver => exact hs.post fun _ _ _ _ _ hl => nomatch hl
  | process hmail => exact hs.handle hmail

theorem start_carries (d : DecisionDispatcher) (file : Option String)
    (actor : List DagNode × CrdtActor) : (start d file actor).Carries P Φ where
  tasks _ _ h := nomatch h
  mailbox _ _ _ _ _ h := nomatch h
  created _ h := nomatch h

/-! ## Runs -/

/-- The engine that has decided for the task `i`, while its hash has not been looked up. -/
def decider (s : NodeProcess) (i : ℕ) : Option DecisionEngine :=
  match s.tasks i with
  | some ⟨_, _, .ticked _ _ _ e⟩ => some e
  | _ => none

/-- When a task looks up the hash of the engine, the active engine has the hash of the one that evaluated
its prompt. -/
def EngineKept (s : NodeProcess) : Action → Prop
  | .readHash i _ => ∀ e ∈ s.decider i, s.reload.dispatcher.engine.engineHash = e.engineHash
  | _ => True

instance (s : NodeProcess) (a : Action) : Decidable (s.EngineKept a) :=
  match a with
  | .readHash i _ => inferInstanceAs (Decidable (∀ e ∈ s.decider i, _ = e.engineHash))
  | .spawn .. | .reload _ | .evaluate _ | .draw _ | .send _ | .deliver _ | .process .. =>
    inferInstanceAs (Decidable True)

/-- Whatever happens, the decision in the evidence is the one of the engine that is recorded with it. -/
theorem run_decides (hrun : Run (fun s a t => s.step P a = some t) (start d file actor) actions s) :
    s.Carries P fun evidence e => Decides P e evidence.prompt evidence.decision := by
  refine hrun.invariant (start_carries d file actor) ?_
  intro s a t hs hstep
  exact step_carries hs hstep fun _ _ _ _ _ _ _ _ _ _ hdec => hdec

/-- As long as the engines are kept, the evidence of every node names the engine that decided. A task that
looks up the hash of another engine names that one. -/
theorem evidence_names_decider
    (hrun : Run (fun s a t => s.step P a = some t ∧ s.EngineKept a) (start d file actor) actions s) :
    (∀ x ∈ s.created, ∀ evidence, x.1.evidence = some evidence →
      Decides P x.2 evidence.prompt evidence.decision ∧ evidence.modelHash = x.2.engineHash) ∧
    ∀ i now t, s.step P (.readHash i now) = some t → ¬ s.EngineKept (.readHash i now) →
      ∃ data prompt dataHash signature vclock evidence e,
        t.tasks i = some ⟨data, prompt, .ready dataHash signature vclock evidence e⟩ ∧
        Decides P e evidence.prompt evidence.decision ∧ evidence.modelHash ≠ e.engineHash := by
  have hdecides := run_decides (hrun.mono And.left)
  have hnames : s.Carries P fun evidence e => evidence.modelHash = e.engineHash := by
    refine hrun.invariant (start_carries d file actor) ?_
    rintro s a t hs ⟨hstep, ha⟩
    refine step_carries hs hstep ?_
    rintro i now data prompt json signature tick e rfl htask -
    exact ha e (by simp [decider, htask])
  refine ⟨?_, ?_⟩
  · intro x hx evidence hev
    exact ⟨hdecides.created x hx evidence hev, hnames.created x hx evidence hev⟩
  · intro i now t hstep hkept
    cases step_transition hstep with
    | @readHash _ _ data prompt json signature tick e htask =>
      refine ⟨data, prompt, _, _, _, _, e, goOn_self .., hdecides.tasks i _ htask, ?_⟩
      intro hhash
      apply hkept
      intro e' he'
      simp only [decider, htask, Option.mem_some_iff] at he'
      rw [← he']
      exact hhash

end NodeProcess

/-! ## Two tasks and a change of the rules file -/

/-- The message of a client that asks for a decision. -/
def inferData (payload : List Byte) : AimpData where
  v := 1
  op := .infer
  ttl := 3
  originPubkey := zeros 32
  vclock := []
  payload := payload

/-- The signature of a message with a payload of this length. -/
def lengthSignature (n : ℕ) : Signature := ⟨List.replicate 64 (Fin.ofNat 256 n), by simp⟩

def warningJson : String := "\x7b\"action\":true,\"status\":\"WARNING\"\x7d"

def normalJson : String := "\x7b\"action\":false,\"status\":\"NORMAL\"\x7d"

def warningHash : Hash32 := ⟨[96, 152, 221, 190, 235, 141, 23, 244, 217, 137, 146, 73, 80, 26, 71, 158, 76,
  169, 20, 93, 104, 42, 231, 244, 19, 176, 210, 13, 214, 3, 18, 71], by decide⟩

def normalHash : Hash32 := ⟨[191, 156, 98, 247, 238, 208, 193, 143, 26, 75, 70, 50, 152, 139, 80, 144, 42,
  6, 234, 86, 213, 231, 163, 255, 202, 151, 31, 173, 42, 220, 66, 2], by decide⟩

def sampleKey : String := "abababab"

/-- The node with the decision of the engine with the hash `modelHash` on the prompt `gas`. -/
def gasNode (parents : List Hash32) (tick : U64) (modelHash : Hash32) : DagNode where
  parents := parents
  signature := lengthSignature 3
  dataHash := warningHash
  vclock := ⟨[(sampleKey, tick)], List.pairwise_singleton ..⟩
  evidence := some ⟨"gas", warningJson, modelHash, 1700000000⟩

/-- The node with the decision of `emptyEngine` on the prompt `gas low`. -/
def lowNode (parents : List Hash32) (tick : U64) : DagNode where
  parents := parents
  signature := lengthSignature 7
  dataHash := normalHash
  vclock := ⟨[(sampleKey, tick)], List.pairwise_singleton ..⟩
  evidence := some ⟨"gas low", normalJson, emptyEngine.engineHash, 1700000000⟩

/-- The digests of `lowNode [] 2` and of the node on top of it. -/
def lowDigest : Hash32 := ⟨[135, 205, 244, 5, 171, 186, 93, 24, 235, 173, 102, 66, 143, 43, 192, 36, 75, 239,
  147, 43, 210, 93, 29, 24, 236, 56, 19, 114, 108, 157, 205, 165], by decide⟩

def lateDigest : Hash32 := ⟨[205, 2, 109, 38, 164, 9, 242, 192, 147, 70, 9, 198, 219, 81, 92, 196, 253, 56,
  25, 87, 170, 83, 49, 226, 59, 208, 244, 46, 58, 19, 199, 209], by decide⟩

/-- The digests of `gasNode [] 1` with the hash of `gasEngine`, and of the node on top of it. -/
def gasDigest : Hash32 := ⟨[152, 168, 229, 1, 97, 91, 138, 253, 130, 54, 14, 50, 103, 68, 16, 73, 117, 61,
  27, 245, 199, 194, 246, 23, 196, 17, 208, 219, 146, 134, 144, 226], by decide⟩

def nextDigest : Hash32 := ⟨[221, 103, 41, 90, 19, 126, 203, 21, 93, 213, 9, 154, 172, 1, 236, 52, 2, 100,
  196, 159, 87, 227, 184, 36, 130, 23, 255, 163, 77, 78, 54, 165], by decide⟩

/-- The digests of the rules files, the decisions and the nodes below. -/
def processDigests : List (List Byte × Hash32) :=
  ruleDigests ++ [(asBytes warningJson, warningHash), (asBytes normalJson, normalHash),
    ((lowNode [] 2).hashInput, lowDigest),
    ((gasNode [lowDigest] 1 emptyEngine.engineHash).hashInput, lateDigest),
    ((gasNode [] 1 gasEngine.engineHash).hashInput, gasDigest),
    ((lowNode [gasDigest] 2).hashInput, nextDigest)]

/-- A node whose id starts with `abababab`. -/
def sampleHost : Host where
  blake3 input := ((processDigests.find? fun entry => entry.1 = input).map Prod.snd).getD (zeros 32)
  parseRules := sampleRuntime.parseRules
  toLowercase := sampleRuntime.toLowercase
  toJson action status := some ("\x7b\"action\":" ++ (if action then "true" else "false") ++
    ",\"status\":\"" ++ status ++ "\"\x7d")
  sign data := some (lengthSignature data.payload.length)
  nodeId := ⟨List.replicate 32 171, by simp⟩

def gasData : AimpData := inferData [103, 97, 115]

def lowData : AimpData := inferData [103, 97, 115, 32, 108, 111, 119]

/-- The node has loaded `gasFile`, and nothing is stored. -/
def sampleStart : NodeProcess :=
  .start (.new sampleRuntime (some gasFile)) (some gasFile) ([], .new none 2 1000)

/-- The first task decides on the prompt `gas` and draws its tick. -/
def firstDecides : List Action :=
  [.spawn 0 gasData, .reload (.load 0), .reload (.record 0), .evaluate 0, .draw 0]

/-- The rules file becomes `[]`; the second task loads it, decides on `gas low` and draws its tick. -/
def secondDecides : List Action :=
  [.reload (.changeFile (some "[]")), .spawn 1 lowData, .reload (.load 1), .reload (.record 1),
    .reload (.swap 1), .evaluate 1, .draw 1]

/-- The task looks up the hash and sends its mutation, which is handled at once. -/
def commits (i : ℕ) (heads : List Hash32) : List Action :=
  [.readHash i 1700000000, .send i, .process heads fun _ => true]

/-- The second task is served before the first one has looked up the hash. -/
def overtaking : List Action :=
  firstDecides ++ secondDecides ++ commits 1 [] ++ commits 0 [lowDigest]

/-- One task after the other. -/
def orderly : List Action :=
  firstDecides ++ commits 0 [] ++ secondDecides ++ commits 1 [gasDigest]

namespace NodeProcess

/-- What the node has created, with the hashes of the engines that decided, and what it has accepted. -/
def log (s : NodeProcess) : List DagNode × List Hash32 × List DagNode :=
  (s.created.map Prod.fst, s.created.map fun x => x.2.engineHash, s.actor.1)

/-- The run in which the second task overtakes the first one. -/
theorem exec_overtaking : ∃ s, Run (fun s a t => s.step sampleHost a = some t) sampleStart overtaking s ∧
    s.log = ([lowNode [] 2, gasNode [lowDigest] 1 emptyEngine.engineHash],
      [emptyEngine.engineHash, gasEngine.engineHash],
      [lowNode [] 2, gasNode [lowDigest] 1 emptyEngine.engineHash]) := by
  have hlog : (overtaking.foldlM (step sampleHost) sampleStart).map log =
      some ([lowNode [] 2, gasNode [lowDigest] 1 emptyEngine.engineHash],
        [emptyEngine.engineHash, gasEngine.engineHash],
        [lowNode [] 2, gasNode [lowDigest] 1 emptyEngine.engineHash]) := by
    decide +kernel
  obtain ⟨s, hs, hlog⟩ := Option.map_eq_some_iff.mp hlog
  exact ⟨s, .of_exec hs, hlog⟩

/-- Two tasks one after the other. -/
theorem evidence_names_decider_orderly :
    ∃ s, Run (fun s a t => s.step sampleHost a = some t ∧ s.EngineKept a) sampleStart orderly s ∧
      s.created.length = 2 ∧ ∀ x ∈ s.created, ∀ evidence, x.1.evidence = some evidence →
        Decides sampleHost x.2 evidence.prompt evidence.decision ∧
          evidence.modelHash = x.2.engineHash := by
  have hlog : (orderly.foldlM (fun s a => if EngineKept s a then step sampleHost s a else none)
      sampleStart).map (fun s : NodeProcess => s.created.length) = some 2 := by
    decide +kernel
  obtain ⟨s, hs, hlen⟩ := Option.map_eq_some_iff.mp hlog
  have hrun := Run.of_checked hs
  exact ⟨s, hrun, hlen, (evidence_names_decider hrun).1⟩

/-- The first task has asked `gasEngine`, and its evidence names `emptyEngine`. -/
theorem evidence_misattributed :
    ∃ s, Run (fun s a t => s.step sampleHost a = some t) sampleStart overtaking s ∧
      ∃ x ∈ s.created, ∃ evidence, x.1.evidence = some evidence ∧ evidence.modelHash ≠ x.2.engineHash := by
  obtain ⟨s, hrun, hlog⟩ := exec_overtaking
  refine ⟨s, hrun, ?_⟩
  obtain ⟨hnodes, hrest⟩ := Prod.mk.inj hlog
  obtain ⟨hhashes, -⟩ := Prod.mk.inj hrest
  obtain ⟨x, y, hcreated⟩ := List.length_eq_two.mp (by simpa using congrArg List.length hnodes)
  rw [hcreated] at hnodes hhashes
  simp only [List.map_cons, List.map_nil, List.cons.injEq, and_true] at hnodes hhashes
  refine ⟨y, by simp [hcreated], _, by rw [hnodes.2]; rfl, ?_⟩
  rw [hhashes.2]
  decide

end NodeProcess

end Aimp.Process
