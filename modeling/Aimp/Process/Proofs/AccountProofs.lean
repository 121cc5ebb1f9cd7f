import Aimp.Process.Node
import Aimp.Process.Proofs.EvidenceProofs
import Mathlib.Algebra.BigOperators.Group.Finset.Basic

/-!
# Accounting for messages and prompts

What each step of the tasks and of the actor does to the messages under way: the actor takes them in the order
in which they were sent, a sync response is sent as one of them, and a prompt is held by one task until its
mutation is sent or it cannot be decided.
-/

namespace Aimp.Process

open Aimp.Crdt Aimp.Protocol Aimp.Rules

variable {P : Host} {serde : PayloadSerde}

/-! ## Messages -/

theorem handling_infer {data : AimpData} {prompt : String} :
    handling serde data = .infer prompt ↔ inferPrompt data = some prompt := by
  unfold handling inferPrompt Payload.decode
  cases data.op with
  | ping | syncReq => simp
  | syncRes => cases serde.nodes data.payload <;> simp
  | infer => cases fromUtf8 data.payload <;> simp

/-- The nodes that the handler of an envelope merges. -/
def mergeOf (serde : PayloadSerde) (env : AimpEnvelope) : Option (List DagNode) :=
  match handling serde env.data with
  | .merge nodes => some nodes
  | _ => none

/-- The prompt that the handler of an envelope evaluates. -/
def promptOf (serde : PayloadSerde) (env : AimpEnvelope) : Option String :=
  match handling serde env.data with
  | .infer prompt => some prompt
  | _ => none

/-- The nodes that a message merges. -/
def mergedNodes : CrdtMsg → Option (List DagNode)
  | .merge nodes => some nodes
  | _ => none

/-- The prompt of the evidence that a message appends. -/
def answeredPrompt : CrdtMsg → Option String
  | .append _ _ _ (some evidence) => some evidence.prompt
  | _ => none

/-- The prompt cannot be decided: the engine fails, or the decision is not serialized or not signed. -/
def Unanswered (P : Host) (prompt : String) : Prop :=
  ∃ (engine : DecisionEngine) (data : AimpData), inferPrompt data = some prompt ∧
    ∀ res, engine.evaluate prompt = some res →
      P.toJson res.actionRequired res.status = none ∨ P.sign data = none

/-- What the task is about to send belongs to its message, which satisfies `D`. -/
structure InferTask.Genuine (P : Host) (D : AimpData → Prop) (task : InferTask) : Prop where
  data : D task.data
  prompt : inferPrompt task.data = some task.prompt
  phase : match task.phase with
    | .reloading => True
    | .decided res e => e.evaluate task.prompt = some res
    | .ticked _ signature _ _ => P.sign task.data = some signature
    | .ready _ signature vclock evidence _ => P.sign task.data = some signature ∧
        evidence.prompt = task.prompt ∧ ∃ tick, vclock = P.vclock tick

/-- A mutation belongs to a message that satisfies `D`. -/
def Traced (P : Host) (D : AimpData → Prop) : CrdtMsg → Prop
  | .append _ signature vclock evidence => ∃ data ev tick, D data ∧ inferPrompt data = some ev.prompt ∧
      evidence = some ev ∧ P.sign data = some signature ∧ vclock = P.vclock tick
  | _ => True

theorem Traced.mono {D D' : AimpData → Prop} {m : CrdtMsg} (h : Traced P D m)
    (hD : ∀ data, D data → D' data) : Traced P D' m := by
  cases m with
  | append =>
    obtain ⟨data, ev, tick, hdata, hrest⟩ := h
    exact ⟨data, ev, tick, hD data hdata, hrest⟩
  | merge | getRoot | getDiff => trivial

/-! ## The tasks of a node -/

/-- The prompt of a task. -/
def asked (task : Option InferTask) : Multiset String := task.elim 0 fun task => {task.prompt}

namespace NodeProcess

variable {D D' : AimpData → Prop} {s t : NodeProcess} {a : Action} {i : ℕ} {live : Finset ℕ}

/-- The prompts of the tasks. -/
def pending (s : NodeProcess) (live : Finset ℕ) : Multiset String := ∑ i ∈ live, asked (s.tasks i)

theorem pending_goOn (hi : i ∈ live) (next : Option InferTask) :
    (s.goOn i next).pending live + asked (s.tasks i) = s.pending live + asked next := by
  have hrest : ∑ j ∈ live.erase i, asked ((s.goOn i next).tasks j) =
      ∑ j ∈ live.erase i, asked (s.tasks j) :=
    Finset.sum_congr rfl fun j hj => by rw [goOn_other s next (Finset.ne_of_mem_erase hj)]
  unfold pending
  rw [← Finset.add_sum_erase _ _ hi, ← Finset.add_sum_erase live (fun j => asked (s.tasks j)) hi, hrest,
    goOn_self]
  abel

/-- The tasks of a node are among `live`, and belong to messages that satisfy `D`. -/
structure Tasked (P : Host) (D : AimpData → Prop) (live : Finset ℕ) (s : NodeProcess) : Prop where
  live : ∀ i, (s.tasks i).isSome → i ∈ live
  genuine : ∀ i task, s.tasks i = some task → task.Genuine P D

theorem Tasked.goOn (h : s.Tasked P D live) {next : Option InferTask} (hi : i ∈ live)
    (hnext : ∀ task, next = some task → task.Genuine P D) : (s.goOn i next).Tasked P D live := by
  refine ⟨fun j hj => ?_, fun j task hj => ?_⟩
  · by_cases hji : j = i
    · exact hji ▸ hi
    · rw [goOn_other s next hji] at hj
      exact h.live j hj
  · by_cases hji : j = i
    · subst hji
      rw [goOn_self] at hj
      exact hnext task hj
    · rw [goOn_other s next hji] at hj
      exact h.genuine j task hj

/-- What a step of a task or of the actor does to the messages and to the prompts. -/
structure Accounts (P : Host) (D : AimpData → Prop) (live : Finset ℕ) (s : NodeProcess) (a : Action)
    (t : NodeProcess) (posted : List CrdtMsg) (failed : Multiset String) : Prop where
  tasked : t.Tasked P D live
  /-- The actor takes the messages in the order in which they were sent. -/
  mail : a.handles s ++ t.mailbox.map Letter.msg = s.mailbox.map Letter.msg ++ posted
  merges : posted.filterMap mergedNodes = []
  traced : ∀ m ∈ posted, Traced P D m
  prompts : s.pending live = t.pending live + posted.filterMap answeredPrompt + failed
  failed : ∀ prompt ∈ failed, Unanswered P prompt

/-- A task that goes on and sends nothing. -/
theorem Tasked.accounts_goOn (h : s.Tasked P D live) {task : InferTask} {next : Option InferTask}
    (htask : s.tasks i = some task) (hnext : ∀ task', next = some task' →
      task'.Genuine P D ∧ task'.prompt = task.prompt) (hnone : next = none → Unanswered P task.prompt)
    (ha : a.handles s = []) :
    Accounts P D live s a (s.goOn i next) [] (if next.isSome then 0 else {task.prompt}) := by
  have hi : i ∈ live := h.live i (by rw [htask]; rfl)
  refine ⟨h.goOn hi fun task' htask' => (hnext task' htask').1, ?_, rfl, by simp, ?_, ?_⟩
  · rw [ha, List.append_nil]
    rfl
  · have hsum := pending_goOn (s := s) hi next
    rw [htask] at hsum
    cases next with
    | none => simpa [asked, eq_comm] using hsum
    | some task' =>
      rw [show asked (some task') = asked (some task) from
        congrArg (fun prompt => ({prompt} : Multiset String)) (hnext task' rfl).2] at hsum
      simpa [eq_comm] using hsum
  · cases next with
    | none =>
      intro prompt hprompt
      obtain rfl := Multiset.mem_singleton.mp hprompt
      exact hnone rfl
    | some task' => exact fun prompt hprompt => absurd hprompt (Multiset.notMem_zero prompt)

/-- A step that leaves the tasks alone. -/
theorem Tasked.accounts_same (h : s.Tasked P D live) (htasks : t.tasks = s.tasks) {posted : List CrdtMsg}
    (hmail : a.handles s ++ t.mailbox.map Letter.msg = s.mailbox.map Letter.msg ++ posted)
    (hmerges : posted.filterMap mergedNodes = []) (htraced : ∀ m ∈ posted, Traced P D m)
    (hprompts : posted.filterMap answeredPrompt = []) : Accounts P D live s a t posted 0 where
  tasked := ⟨htasks ▸ h.live, htasks ▸ h.genuine⟩
  mail := hmail
  merges := hmerges
  traced := htraced
  prompts := by
    unfold pending
    rw [htasks, hprompts]
    simp
  failed prompt hprompt := absurd hprompt (Multiset.notMem_zero prompt)

/-- A decision that is serialized and signed, or ends the task. -/
theorem Tasked.accounts_draw (h : s.Tasked P D live) {data : AimpData} {prompt : String}
    {res : Decision} {e : DecisionEngine} (htask : s.tasks i = some ⟨data, prompt, .decided res e⟩) :
    ∃ posted failed, Accounts P D live s (.draw i)
      (s.draw P i ⟨data, prompt, .decided res e⟩ res e) posted failed := by
  obtain ⟨hD, hprompt, hres⟩ := h.genuine i _ htask
  unfold NodeProcess.draw
  split
  · rename_i json signature hjson hsign
    have hgenuine : ∀ task', some (⟨data, prompt, .ticked json signature (s.nodeClock + 1) e⟩ : InferTask) =
        some task' → task'.Genuine P D ∧ task'.prompt = prompt := by
      intro task' heq
      obtain rfl := Option.some.inj heq
      exact ⟨⟨hD, hprompt, hsign⟩, rfl⟩
    have hacc := h.accounts_goOn (a := .draw i) htask hgenuine (fun hnone => nomatch hnone) rfl
    exact ⟨_, _, ⟨hacc.tasked.live, hacc.tasked.genuine⟩, hacc.mail, hacc.merges, hacc.traced,
      hacc.prompts, hacc.failed⟩
  · rename_i hnot
    refine ⟨_, _, h.accounts_goOn htask (fun _ hnext => nomatch hnext) (fun _ => ?_) rfl⟩
    refine ⟨e, data, hprompt, fun res' hres' => ?_⟩
    obtain rfl := Option.some.inj (hres.symm.trans hres')
    cases hjson : P.toJson res.actionRequired res.status with
    | none => exact .inl rfl
    | some json =>
      cases hsign : P.sign data with
      | none => exact .inr rfl
      | some signature => exact absurd hsign (hnot json signature hjson)

/-- A task that sends its mutation. -/
theorem Tasked.accounts_send (h : s.Tasked P D live) {data : AimpData} {prompt : String}
    {dataHash : Hash32} {signature : Signature} {vclock : VClock} {evidence : AiEvidence}
    {e : DecisionEngine}
    (htask : s.tasks i = some ⟨data, prompt, .ready dataHash signature vclock evidence e⟩) :
    Accounts P D live s (.send i) { s.goOn i none with
        mailbox := s.mailbox ++ [.own dataHash signature vclock evidence e] }
      [.append dataHash signature vclock (some evidence)] 0 := by
  have hi : i ∈ live := h.live i (by rw [htask]; rfl)
  obtain ⟨hD, hdata, hsign, hprompt, tick, hvclock⟩ := h.genuine i _ htask
  have hnext : (s.goOn i none).Tasked P D live := h.goOn hi fun _ hnext => nomatch hnext
  refine ⟨⟨hnext.live, hnext.genuine⟩, ?_, rfl, ?_, ?_,
    fun p hp => absurd hp (Multiset.notMem_zero p)⟩
  · simp [Action.handles, Letter.msg]
  · intro m hm
    obtain rfl := List.mem_singleton.mp hm
    exact ⟨data, evidence, tick, hD, hdata.trans (congrArg some hprompt.symm), rfl, hsign, hvclock⟩
  · have hsum := pending_goOn (s := s) hi none
    rw [htask] at hsum
    show s.pending live = (s.goOn i none).pending live + ({evidence.prompt} : Multiset String) + 0
    rw [hprompt]
    simpa [asked, eq_comm] using hsum

/-- Every step of a task, of the actor or of another part of the node accounts for its messages. -/
theorem Tasked.accounts (h : s.Tasked P D live) (ha : a.advances = true) (hstep : s.step P a = some t) :
    ∃ posted failed, Accounts P D live s a t posted failed := by
  cases step_transition hstep with
  | spawn => cases ha
  | reload =>
    refine ⟨[], 0, h.accounts_same ?_ ?_ rfl (by simp [Traced]) rfl⟩
    · rfl
    · exact (List.append_nil _).symm
  | @evaluate i data prompt htask _ =>
    obtain ⟨hD, hprompt, -⟩ := h.genuine i _ htask
    refine ⟨_, _, h.accounts_goOn htask (fun task' hnext => ?_) (fun hnone => ?_) rfl⟩
    · obtain ⟨res, hres, rfl⟩ := Option.map_eq_some_iff.mp hnext
      exact ⟨⟨hD, hprompt, hres⟩, rfl⟩
    · rw [Option.map_eq_none_iff] at hnone
      exact ⟨_, data, hprompt, fun res hres => absurd (hnone.symm.trans hres) (by simp)⟩
  | draw htask => exact h.accounts_draw htask
  | @readHash i now data prompt json signature tick e htask =>
    obtain ⟨hD, hprompt, hsign⟩ := h.genuine i _ htask
    refine ⟨_, _, h.accounts_goOn htask ?_ (fun hnone => nomatch hnone) rfl⟩
    intro task' heq
    obtain rfl := Option.some.inj heq
    exact ⟨⟨hD, hprompt, hsign, rfl, tick, rfl⟩, rfl⟩
  | send htask _ => exact ⟨_, _, h.accounts_send htask⟩
  | @deliver m _ =>
    cases m with
    | append => cases hstep
    | merge => cases ha
    | getRoot =>
      refine ⟨[.getRoot], 0, h.accounts_same ?_ ?_ rfl (by simp [Traced]) rfl⟩
      · rfl
      · exact List.map_append
    | getDiff remoteHeads =>
      refine ⟨[.getDiff remoteHeads], 0, h.accounts_same ?_ ?_ rfl (by simp [Traced]) rfl⟩
      · rfl
      · exact List.map_append
  | @process heads disk l rest hmail _ =>
    refine ⟨[], 0, h.accounts_same ?_ ?_ rfl (by simp [Traced]) rfl⟩
    · rfl
    · simp [Action.handles, handle, hmail]

theorem Tasked.mono (h : s.Tasked P D live) (hD : ∀ data, D data → D' data) : s.Tasked P D' live :=
  ⟨h.live, fun i task htask =>
    ⟨hD _ (h.genuine i task htask).data, (h.genuine i task htask).prompt, (h.genuine i task htask).phase⟩⟩

/-- A task that begins. -/
theorem Tasked.spawn (h : s.Tasked P D live) {data : AimpData} {prompt : String}
    (hstep : s.step P (.spawn i data) = some t) (hD : D data)
    (hprompt : inferPrompt data = some prompt) : t.Tasked P D (insert i live) ∧
      t.mailbox = s.mailbox ∧ t.actor = s.actor ∧
      t.pending (insert i live) = s.pending live + {prompt} := by
  cases step_transition hstep with
  | @spawn _ _ prompt' reload htask hprompt' _ =>
    obtain rfl := Option.some.inj (hprompt.symm.trans hprompt')
    have hi : i ∈ insert i live := Finset.mem_insert_self i live
    have hwide : s.Tasked P D (insert i live) :=
      ⟨fun j hj => Finset.mem_insert_of_mem (h.live j hj), h.genuine⟩
    have hnew : (s.goOn i (some ⟨data, prompt, .reloading⟩)).Tasked P D (insert i live) :=
      hwide.goOn hi fun task heq => by
        obtain rfl := Option.some.inj heq
        exact ⟨hD, hprompt, trivial⟩
    have hsum := pending_goOn (s := s) hi (some ⟨data, prompt, .reloading⟩)
    have hold : s.pending (insert i live) = s.pending live := by
      unfold pending
      by_cases hmem : i ∈ live
      · rw [Finset.insert_eq_of_mem hmem]
      · rw [Finset.sum_insert hmem, htask]
        exact zero_add _
    rw [htask, hold] at hsum
    exact ⟨⟨hnew.live, hnew.genuine⟩, rfl, rfl, (add_zero _).symm.trans hsum⟩

/-- Nodes that are sent to the actor. -/
theorem step_deliver {m : CrdtMsg} (hstep : s.step P (.deliver m) = some t) :
    t.tasks = s.tasks ∧ t.mailbox = s.mailbox ++ [.other m] ∧ t.actor = s.actor ∧
      s.mailbox.length < crdtChannel := by
  cases step_transition hstep with
  | deliver hroom => exact ⟨rfl, rfl, rfl, hroom⟩

/-- The actor handles what it takes out of the mailbox. -/
theorem step_handles (hstep : s.step P a = some t) :
    Run (CrdtActor.Step P.blake3) s.actor (a.handles s) t.actor := by
  cases step_transition hstep with
  | draw =>
    unfold NodeProcess.draw
    split
    · exact .nil
    · exact .nil
  | @process heads disk l rest hmail horder =>
    have hhandles : Action.handles s (.process heads disk) = [l.msg] := by
      simp [Action.handles, hmail]
    rw [hhandles]
    exact .single (.mk l.msg disk horder)
  | spawn | reload | evaluate | readHash | send | deliver => exact .nil

theorem step_mailbox_le (hstep : s.step P a = some t) (h : s.mailbox.length ≤ crdtChannel) :
    t.mailbox.length ≤ crdtChannel := by
  cases step_transition hstep with
  | draw =>
    unfold NodeProcess.draw
    split
    · exact h
    · exact h
  | send _ hroom | deliver hroom =>
    rw [List.length_append]
    exact hroom
  | process hmail =>
    rw [hmail] at h
    exact Nat.le_of_succ_le h
  | spawn | reload | evaluate | readHash => exact h

/-- What the beginning of a handler does to the messages and to the prompts. -/
structure Begins (P : Host) (serde : PayloadSerde) (D : AimpData → Prop) (live : Finset ℕ)
    (s : NodeProcess) (env : AimpEnvelope) (t : NodeProcess) (posted : List CrdtMsg)
    (live' : Finset ℕ) : Prop where
  tasked : t.Tasked P D live'
  mail : t.mailbox.map Letter.msg = s.mailbox.map Letter.msg ++ posted
  mailbox : s.mailbox.length ≤ crdtChannel → t.mailbox.length ≤ crdtChannel
  actor : t.actor = s.actor
  merges : posted.filterMap mergedNodes = (mergeOf serde env).toList
  answers : posted.filterMap answeredPrompt = []
  traced : ∀ m ∈ posted, Traced P D m
  prompts : t.pending live' = s.pending live + (promptOf serde env).toList

theorem Tasked.begins (h : s.Tasked P D live) {env : AimpEnvelope} (hD : D env.data)
    (hstep : (handling serde env.data).step P s env i = some t) :
    ∃ posted live', Begins P serde D live s env t posted live' := by
  cases hhandling : handling serde env.data with
  | nothing =>
    rw [hhandling] at hstep
    obtain rfl := Option.some.inj hstep
    refine ⟨[], live, h, (List.append_nil _).symm, id, rfl, ?_, rfl, by simp, ?_⟩
    · simp [mergeOf, hhandling]
    · simp [promptOf, hhandling]
  | merge nodes =>
    rw [hhandling] at hstep
    replace hstep : s.step P (.deliver (.merge nodes)) = some t := hstep
    obtain ⟨htasks, hmail, hactor, hroom⟩ := step_deliver hstep
    refine ⟨[.merge nodes], live, ⟨htasks ▸ h.live, htasks ▸ h.genuine⟩, ?_, ?_, hactor, ?_, rfl,
      by simp [Traced], ?_⟩
    · rw [hmail, List.map_append]
      rfl
    · intro _
      rw [hmail, List.length_append]
      exact hroom
    · simp [mergeOf, hhandling, mergedNodes]
    · simp [promptOf, hhandling, pending, htasks]
  | infer prompt =>
    rw [hhandling] at hstep
    replace hstep : s.step P (.spawn i env.data) = some t := hstep
    obtain ⟨htasked, hmail, hactor, hpending⟩ := h.spawn hstep hD (handling_infer.mp hhandling)
    refine ⟨[], insert i live, htasked, ?_, ?_, hactor, ?_, rfl, by simp, ?_⟩
    · rw [hmail, List.append_nil]
    · rw [hmail]
      exact id
    · simp [mergeOf, hhandling]
    · simpa [promptOf, hhandling] using hpending

end NodeProcess

end Aimp.Process
