import Aimp.Crdt.Proofs.DenialProofs

/-!
# How evidence arrives

A node with evidence enters the replica through `Merge`, through `Append`, or from the store at a start.
Only `Merge` lets it vote. As long as all evidence arrives that way and the replica is not restarted
afterwards, enough agreeing voters verify the prompt.
-/

namespace Aimp.Crdt.CrdtActor

variable {blake3 : List Byte → Hash32} {t gcThreshold : ℕ} {q : QuorumManager} {A : List DagNode}

/-! ## Lives of a replica -/

/-- The nodes that a message adds to the replica: the one that `Append` creates, those that `Merge` does
not find in the arena. -/
def added (blake3 : List Byte → Hash32) (disk : Hash32 → Bool) (s : CrdtActor) (m : CrdtMsg) :
    List DagNode :=
  match m with
  | .append dataHash signature vclock evidence =>
    [s.engine.mutation dataHash signature vclock evidence]
  | m => ((s.merges blake3 disk m).filter fun x =>
      !x.1.engine.arena.contains (x.2.computeHash blake3)).map Prod.snd

/-- What happens to a replica. -/
inductive Event where
  | msg (m : CrdtMsg)
  | restart

/-- A message or a restart that recovers from the store. `A` are the nodes accepted before it. -/
inductive LifeStep (blake3 : List Byte → Hash32) (t gcThreshold : ℕ) :
    List DagNode × CrdtActor → Event → List DagNode × CrdtActor → Prop where
  | msg {A : List DagNode} {s : CrdtActor} (m : CrdtMsg) (disk : Hash32 → Bool)
      {heads : List Hash32} (horder : heads.Perm s.engine.heads) :
      LifeStep blake3 t gcThreshold (A, s) (.msg m)
        (A ++ (s.withHeads heads).added blake3 disk m,
          ((s.withHeads heads).handle blake3 disk m).1)
  | restart {A : List DagNode} {s : CrdtActor} :
      LifeStep blake3 t gcThreshold (A, s) .restart (A, new s.engine.store t gcThreshold)

/-- Among the nodes `A` there is one by which the voter supports the decision, and none by which it
supports another decision of the prompt. -/
structure Supports (A : List DagNode) (voter : Hash32) (prompt decision : String) : Prop where
  vote : ∃ n ∈ A, n.voterId = voter ∧
    ∃ e, n.evidence = some e ∧ e.prompt = prompt ∧ e.decision = decision
  only : ∀ n ∈ A, n.voterId = voter →
    ∀ e, n.evidence = some e → e.prompt = prompt → e.decision = decision

/-- A prompt is verified once at least `t` voters that are not denied support a decision. -/
def QuorumReached (blake3 : List Byte → Hash32) (t : ℕ) (A : List DagNode) (q : QuorumManager) :
    Prop :=
  ∀ p d (V : Finset Hash32), t ≤ V.card →
    (∀ v ∈ V, Supports A v p d ∧ hexEncode v.val ∉ q.denied) → q.isVerified blake3 p = true

/-- The prompts and decisions of the nodes. -/
def evidenceTexts (A : List DagNode) : Set String :=
  {s | ∃ n ∈ A, ∃ e, n.evidence = some e ∧ (s = e.prompt ∨ s = e.decision)}

/-- An event that leaves no evidence without its vote: an `Append` without evidence, a restart before any
node with evidence has been accepted, or any other message. -/
def KeepsVotes (A : List DagNode) : Event → Prop
  | .msg (.append _ _ _ evidence) => evidence = none
  | .msg _ => True
  | .restart => ∀ n ∈ A, n.evidence = none

/-! ## What is left of a vote -/

/-- The manager has recorded a vote of `o` on the prompt, or will never ask for one. -/
def Heard (q : QuorumManager) (ph o : Hash32) : Prop :=
  ph ∈ q.verified ∨ hexEncode o.val ∈ q.denied ∨ ∃ dh, o ∈ q.votersFor ph dh

theorem Heard.calls {b : Hash32 → Ballot Hash32 Hash32 t} {ph o : Hash32} (h : Heard q ph o)
    (hb : q.Refines b) (cs : List QuorumCall) : Heard (q.calls blake3 cs) ph o := by
  obtain ⟨b', hb', hsub⟩ := hb.calls blake3 cs
  rcases h with h | h | ⟨dh, h⟩
  · exact Or.inl (hb.verified_calls h cs)
  · exact Or.inr (Or.inl (QuorumManager.calls_denied_subset q cs h))
  · have hmem := hsub ph dh (hb.voters ph dh ▸ List.mem_toFinset.mpr h)
    rw [hb'.voters, List.mem_toFinset] at hmem
    exact Or.inr (Or.inr ⟨dh, hmem⟩)

/-- Whatever `observe` does with a vote, it is heard. -/
theorem heard_observe (blake3 : List Byte → Hash32) {b : Hash32 → Ballot Hash32 Hash32 t}
    (hb : q.Refines b) (o : Hash32) (e : AiEvidence) :
    Heard (q.observe blake3 o e).1 (blake3 (asBytes e.prompt)) o := by
  by_cases hadm : q.Admissible (blake3 (asBytes e.prompt)) o
  · have hnew := hadm.fresh (blake3 (asBytes e.decision))
    exact Or.inr (Or.inr ⟨_, (QuorumManager.mem_votersFor_observe blake3 rfl rfl hnew).mpr hadm⟩)
  · have hold : Heard q (blake3 (asBytes e.prompt)) o := by
      unfold Heard
      by_contra hno
      push Not at hno
      exact hadm ⟨hno.1, hno.2.1, hno.2.2⟩
    exact hold.calls hb [.observe o e]

/-! ## The invariant -/

/-- All evidence among the accepted nodes has been heard, and every voter is the voter of an accepted
node. -/
structure Arrived (blake3 : List Byte → Hash32) (t : ℕ) (A : List DagNode) (q : QuorumManager) :
    Prop where
  calls : ∃ cs, q = (QuorumManager.new t).calls blake3 cs
  heard : ∀ n ∈ A, ∀ e, n.evidence = some e → Heard q (blake3 (asBytes e.prompt)) n.voterId
  voters : ∀ ph dh o, o ∈ q.votersFor ph dh →
    ∃ n ∈ A, n.voterId = o ∧ n.votesFor blake3 ph dh = true

theorem arrived_new (hA : ∀ n ∈ A, n.evidence = none) : Arrived blake3 t A (QuorumManager.new t) :=
  ⟨⟨[], rfl⟩, fun n hn e he => absurd (he.symm.trans (hA n hn)) (Option.some_ne_none e),
    fun _ _ _ h => absurd h List.not_mem_nil⟩

theorem Arrived.append_plain {n : DagNode} (h : Arrived blake3 t A q) (hn : n.evidence = none) :
    Arrived blake3 t (A ++ [n]) q := by
  refine ⟨h.calls, fun m hm e he => ?_, fun ph dh o ho => ?_⟩
  · rcases List.mem_append.mp hm with hm | hm
    · exact h.heard m hm e he
    · rw [List.mem_singleton.mp hm, hn] at he
      exact absurd he.symm (Option.some_ne_none e)
  · obtain ⟨m, hm, hrest⟩ := h.voters ph dh o ho
    exact ⟨m, List.mem_append_left _ hm, hrest⟩

/-- Merging a node that is not in the arena lets its evidence be heard. -/
theorem Arrived.mergeVote (ht : 1 ≤ t) (h : Arrived blake3 t A q) (n : DagNode) :
    Arrived blake3 t (A ++ [n]) (CrdtActor.mergeVote blake3 q n) := by
  obtain ⟨cs, hcs⟩ := h.calls
  obtain ⟨ds, hds⟩ := mergeVote_calls blake3 q n
  obtain ⟨b, hb⟩ := QuorumManager.exists_refines_calls ht blake3 cs
  rw [← hcs] at hb
  refine ⟨⟨cs ++ ds, by rw [hds, QuorumManager.calls_append, ← hcs]⟩, fun m hm e he => ?_,
    fun ph dh o ho => ?_⟩
  · rcases List.mem_append.mp hm with hm | hm
    · rw [hds]
      exact (h.heard m hm e he).calls hb ds
    · obtain rfl := List.mem_singleton.mp hm
      have hcheck := QuorumManager.checkEquivocation_sameVotes q m (m.computeHash blake3)
      unfold CrdtActor.mergeVote
      rw [he]
      exact heard_observe blake3 (hb.sameVotes hcheck) m.voterId e
  · rcases mem_votersFor_mergeVote ho with ho | ⟨e, he, hv, hp, hd⟩
    · obtain ⟨m, hm, hrest⟩ := h.voters ph dh o ho
      exact ⟨m, List.mem_append_left _ hm, hrest⟩
    · exact ⟨n, List.mem_append_right _ (List.mem_singleton_self n), hv,
        DagNode.votesFor_iff.mpr ⟨e, he, hp, hd⟩⟩

/-- The invariant along a trace of merges. -/
theorem Arrived.linked (ht : 1 ≤ t) {T : List (CrdtActor × DagNode)} {q' : QuorumManager}
    (h : Arrived blake3 t A q) (hT : Linked blake3 q T q') :
    Arrived blake3 t (A ++ (T.filter fun x =>
      !x.1.engine.arena.contains (x.2.computeHash blake3)).map Prod.snd) q' := by
  induction T generalizing A q with
  | nil =>
    obtain rfl : q' = q := hT
    rw [List.filter_nil, List.map_nil, List.append_nil]
    exact h
  | cons x T ih =>
    obtain ⟨rfl, hT⟩ := hT
    by_cases hcont : x.1.engine.arena.contains (x.2.computeHash blake3) = true
    · have hsame : quorumAfter blake3 x = x.1.quorum := if_pos hcont
      rw [List.filter_cons_of_neg (by simp [hcont])]
      exact ih h (hsame ▸ hT)
    · have hafter : quorumAfter blake3 x = CrdtActor.mergeVote blake3 x.1.quorum x.2 :=
        if_neg hcont
      rw [List.filter_cons_of_pos (by simp [hcont]), List.map_cons, List.append_cons]
      exact ih (h.mergeVote ht x.2) (hafter ▸ hT)

theorem Arrived.msg (ht : 1 ≤ t) {s : CrdtActor} (h : Arrived blake3 t A s.quorum)
    (disk : Hash32 → Bool) {m : CrdtMsg} (hm : KeepsVotes A (.msg m)) :
    Arrived blake3 t (A ++ s.added blake3 disk m) (s.handle blake3 disk m).1.quorum := by
  have hlinked : Linked blake3 s.quorum (s.merges blake3 disk m)
      (s.handle blake3 disk m).1.quorum := linked_merges disk s m
  cases m with
  | append dataHash signature vclock evidence =>
    obtain rfl : evidence = none := hm
    rw [show (s.handle blake3 disk _).1.quorum = s.quorum from hlinked]
    exact h.append_plain rfl
  | merge nodes => exact h.linked ht hlinked
  | getRoot => exact h.linked ht hlinked
  | getDiff remoteHeads => exact h.linked ht hlinked

/-- The invariant in every run whose events all keep the votes. -/
theorem run_arrived (ht : 1 ≤ t) {store : Option PersistentStore}
    (hstore : ∀ n ∈ storedNodes store, n.evidence = none) {evs : List Event} {s : CrdtActor}
    (hrun : Run (fun u ev v => KeepsVotes u.1 ev ∧ LifeStep blake3 t gcThreshold u ev v)
      (storedNodes store, new store t gcThreshold) evs (A, s)) :
    Arrived blake3 t A s.quorum := by
  have hstart : Arrived blake3 t (storedNodes store) (new store t gcThreshold).quorum :=
    arrived_new hstore
  refine hrun.invariant (P := fun u => Arrived blake3 t u.1 u.2.quorum) hstart ?_
  rintro u ev v hu ⟨hkeeps, hstep⟩
  cases hstep with
  | @msg A s m disk heads horder =>
    have hheads : Arrived blake3 t A (s.withHeads heads).quorum := hu
    exact hheads.msg ht disk hkeeps
  | @restart A s => exact arrived_new hkeeps

/-- In every run from a store without evidence whose events all keep the votes, and where BLAKE3 has no
collision among the texts of the accepted evidence: at least `t` voters that support a decision and are
not denied verify the prompt. -/
theorem quorum_reached (ht : 1 ≤ t) {store : Option PersistentStore}
    (hstore : ∀ n ∈ storedNodes store, n.evidence = none) {evs : List Event} {s : CrdtActor}
    (hrun : Run (fun u ev v => KeepsVotes u.1 ev ∧ LifeStep blake3 t gcThreshold u ev v)
      (storedNodes store, new store t gcThreshold) evs (A, s))
    (hinj : Set.InjOn (fun x => blake3 (asBytes x)) (evidenceTexts A)) :
    QuorumReached blake3 t A s.quorum := by
  have h := run_arrived ht hstore hrun
  obtain ⟨cs, hcs⟩ := h.calls
  intro p d V hV hsupports
  rw [hcs, QuorumManager.isVerified_calls_iff ht, ← hcs]
  by_contra hnone
  push Not at hnone
  obtain ⟨b, hb⟩ := QuorumManager.exists_refines_calls ht blake3 cs
  rw [← hcs] at hb
  have hunverified : blake3 (asBytes p) ∉ s.quorum.verified := by
    intro hver
    rw [← QuorumManager.isVerified_iff, hcs, QuorumManager.isVerified_calls_iff ht, ← hcs] at hver
    obtain ⟨d', hd'⟩ := hver
    exact absurd hd' (not_le_of_gt (hnone d'))
  -- every supporter has been heard, and can only have been recorded for `d`
  have hrecorded : V ⊆ (s.quorum.votersFor (blake3 (asBytes p)) (blake3 (asBytes d))).toFinset := by
    intro v hv
    obtain ⟨hsup, hundenied⟩ := hsupports v hv
    obtain ⟨n, hn, rfl, e, he, rfl, rfl⟩ := hsup.vote
    rcases h.heard n hn e he with hver | hden | ⟨dh, hdh⟩
    · exact absurd hver hunverified
    · exact absurd hden hundenied
    · obtain ⟨m, hm, hmv, hvotes⟩ := h.voters _ _ _ hdh
      obtain ⟨f, hf, hfp, hfd⟩ := DagNode.votesFor_iff.mp hvotes
      have hprompt : f.prompt = e.prompt :=
        hinj ⟨m, hm, f, hf, Or.inl rfl⟩ ⟨n, hn, e, he, Or.inl rfl⟩ hfp
      rw [← hsup.only m hm hmv f hf hprompt, hfd]
      exact List.mem_toFinset.mpr hdh
  have hcard := Finset.card_le_card hrecorded
  rw [List.toFinset_card_of_nodup (hb.nodup _ _), ← QuorumManager.getSupportCount_eq] at hcard
  have hlt := hnone d
  omega

/-! ### Runs with little evidence -/

theorem supports_singleton {n : DagNode} {e : AiEvidence} (he : n.evidence = some e) :
    Supports [n] n.voterId e.prompt e.decision := by
  refine ⟨⟨n, List.mem_singleton_self n, rfl, e, he, rfl, rfl⟩, fun m hm _ f hf _ => ?_⟩
  rw [List.mem_singleton.mp hm, he] at hf
  rw [Option.some.inj hf]

/-- Two voters arrive by one `Merge`. -/
theorem quorum_reached_two_voters :
    ∃ A s, Run (fun u ev v => KeepsVotes u.1 ev ∧ LifeStep sumBytes 2 1000 u ev v)
        ([], new none 2 1000)
        [.msg (.merge [scanNode "a1b2c3d4" 1 1, scanNode "e5f60718" 2 2])] (A, s) ∧
      s.quorum.isVerified sumBytes "scan" = true := by
  let nodes := [scanNode "a1b2c3d4" 1 1, scanNode "e5f60718" 2 2]
  have hadded : (new none 2 1000).added sumBytes (fun _ => true)
      (.merge [scanNode "a1b2c3d4" 1 1, scanNode "e5f60718" 2 2]) =
      [scanNode "a1b2c3d4" 1 1, scanNode "e5f60718" 2 2] := by decide +kernel
  have hstep : LifeStep sumBytes 2 1000 ([], new none 2 1000) (.msg (.merge nodes))
      ([] ++ (new none 2 1000).added sumBytes (fun _ => true) (.merge nodes),
        ((new none 2 1000).handle sumBytes (fun _ => true) (.merge nodes)).1) :=
    .msg (.merge nodes) (fun _ => true) (List.Perm.refl [])
  rw [hadded] at hstep
  have hrun : Run (fun u ev v => KeepsVotes u.1 ev ∧ LifeStep sumBytes 2 1000 u ev v)
      (storedNodes none, new none 2 1000) ([] ++ [.msg (.merge nodes)]) (nodes, _) :=
    .snoc .nil ⟨trivial, hstep⟩
  have hscan : ∀ n ∈ nodes, ∀ e, n.evidence = some e → e.prompt = "scan" ∧ e.decision = "allow" := by
    intro n hn e he
    rcases List.mem_pair.mp hn with rfl | rfl
    all_goals obtain rfl := Option.some.inj he; exact ⟨rfl, rfl⟩
  have hinj : Set.InjOn (fun x => sumBytes (asBytes x)) (evidenceTexts nodes) := by
    have htexts : ∀ s ∈ evidenceTexts nodes, s = "scan" ∨ s = "allow" := by
      rintro s ⟨n, hn, e, he, rfl | rfl⟩
      · exact Or.inl (hscan n hn e he).1
      · exact Or.inr (hscan n hn e he).2
    intro s hs s' hs' h
    rcases htexts s hs with rfl | rfl <;> rcases htexts s' hs' with rfl | rfl
    · rfl
    · exact absurd h (by decide)
    · exact absurd h (by decide)
    · rfl
  refine ⟨_, _, hrun, quorum_reached (by decide) (by simp [storedNodes]) hrun hinj "scan" "allow"
    (nodes.map DagNode.voterId).toFinset (by decide) fun v hv => ?_⟩
  obtain ⟨n, hn, rfl⟩ := List.mem_map.mp (List.mem_toFinset.mp hv)
  have hdenied : ((new none 2 1000).handle sumBytes (fun _ => true) (.merge nodes)).1.quorum.denied =
      [] := by decide +kernel
  refine ⟨⟨?_, fun m hm _ f hf _ => (hscan m hm f hf).2⟩, by rw [hdenied]; exact List.not_mem_nil⟩
  rcases List.mem_pair.mp hn with rfl | rfl
  · exact ⟨_, hn, rfl, _, rfl, rfl, rfl⟩
  · exact ⟨_, hn, rfl, _, rfl, rfl, rfl⟩

/-- The replica's own mutation, with the content of `scanNode`. -/
def scanAppend : CrdtMsg :=
  .append (zeros 32) (scanNode "a1b2c3d4" 1 1).signature (scanNode "a1b2c3d4" 1 1).vclock
    (scanNode "a1b2c3d4" 1 1).evidence

/-- Threshold 1 and one node with evidence: it verifies its prompt neither when it is appended, nor when
it is merged and the replica restarts. -/
theorem lost_votes :
    (∃ A s, Run (LifeStep sumBytes 1 1000) ([], new (some ⟨∅⟩) 1 1000) [.msg scanAppend] (A, s) ∧
      ¬ QuorumReached sumBytes 1 A s.quorum) ∧
    ∃ A s, Run (LifeStep sumBytes 1 1000) ([], new (some ⟨∅⟩) 1 1000)
        [.msg (.merge [scanNode "a1b2c3d4" 1 1]), .restart] (A, s) ∧
      ¬ QuorumReached sumBytes 1 A s.quorum := by
  have hnot : ∀ q : QuorumManager, q.denied = [] → q.isVerified sumBytes "scan" = false →
      ¬ QuorumReached sumBytes 1 [scanNode "a1b2c3d4" 1 1] q := by
    intro q hdenied hver hq
    have := hq "scan" "allow" {(scanNode "a1b2c3d4" 1 1).voterId} (by simp) fun v hv => by
      rw [Finset.mem_singleton.mp hv, hdenied]
      exact ⟨supports_singleton (e := ⟨"scan", "allow", zeros 32, 1⟩) rfl, List.not_mem_nil⟩
    exact absurd (hver.symm.trans this) (by simp)
  constructor
  · have hrun : Run (LifeStep sumBytes 1 1000) ([], new (some ⟨∅⟩) 1 1000) ([] ++ [.msg scanAppend])
        ([scanNode "a1b2c3d4" 1 1],
          ((new (some ⟨∅⟩) 1 1000).handle sumBytes (fun _ => true) scanAppend).1) :=
      .snoc .nil (.msg scanAppend (fun _ => true) (List.Perm.refl []))
    exact ⟨_, _, hrun, hnot _ (by decide +kernel) (by decide +kernel)⟩
  · let merge : CrdtMsg := .merge [scanNode "a1b2c3d4" 1 1]
    have hrun : Run (LifeStep sumBytes 1 1000) ([], new (some ⟨∅⟩) 1 1000)
        (([] ++ [.msg merge]) ++ [.restart]) ([scanNode "a1b2c3d4" 1 1],
          new ((new (some ⟨∅⟩) 1 1000).handle sumBytes (fun _ => true) merge).1.engine.store 1 1000) :=
      .snoc (.snoc .nil (.msg merge (fun _ => true) (List.Perm.refl []))) .restart
    exact ⟨_, _, hrun, hnot _ rfl rfl⟩

end Aimp.Crdt.CrdtActor
