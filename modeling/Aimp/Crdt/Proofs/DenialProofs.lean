import Aimp.Crdt.Proofs.EquivocationProofs
import Aimp.Crdt.Proofs.VotesProofs

/-!
# Denied origins

`check_equivocation` denies keys of vector clocks, while `observe` looks for the hex rendering of a voter
id on the deny list. A denied author therefore keeps voting, unless something else bars its votes.
-/

namespace Aimp.Crdt.CrdtActor

variable {blake3 : List Byte → Hash32} {t : ℕ} {q q' : QuorumManager} {a : String}

/-! ## The nodes that a run merges -/

/-- The quorum manager after the loop of `Merge` has handled the node. -/
def quorumAfter (blake3 : List Byte → Hash32) (x : CrdtActor × DagNode) : QuorumManager :=
  if x.1.engine.arena.contains (x.2.computeHash blake3) then x.1.quorum
  else mergeVote blake3 x.1.quorum x.2

/-- The nodes handled by the loop of `Merge`, each with the actor's state before it. -/
def mergesFrom (blake3 : List Byte → Hash32) (disk : Hash32 → Bool) :
    CrdtActor × ℕ → List DagNode → List (CrdtActor × DagNode)
  | _, [] => []
  | acc, n :: nodes => (acc.1, n) :: mergesFrom blake3 disk (mergeNode blake3 disk acc n) nodes

/-- The nodes that a message merges, each with the actor's state before it. -/
def merges (blake3 : List Byte → Hash32) (disk : Hash32 → Bool) (s : CrdtActor) :
    CrdtMsg → List (CrdtActor × DagNode)
  | .merge nodes => mergesFrom blake3 disk (s, 0) nodes
  | .append .. => []
  | .getRoot => []
  | .getDiff _ => []

/-- One message. `T` are the nodes merged before it. -/
inductive TraceStep (blake3 : List Byte → Hash32) :
    List (CrdtActor × DagNode) × CrdtActor → CrdtMsg → List (CrdtActor × DagNode) × CrdtActor → Prop
    where
  | mk {T : List (CrdtActor × DagNode)} {s : CrdtActor} (m : CrdtMsg) (disk : Hash32 → Bool)
      {heads : List Hash32} (horder : heads.Perm s.engine.heads) :
      TraceStep blake3 (T, s) m
        (T ++ (s.withHeads heads).merges blake3 disk m, ((s.withHeads heads).handle blake3 disk m).1)

theorem map_snd_mergesFrom (disk : Hash32 → Bool) (acc : CrdtActor × ℕ) (nodes : List DagNode) :
    (mergesFrom blake3 disk acc nodes).map Prod.snd = nodes := by
  induction nodes generalizing acc with
  | nil => rfl
  | cons n nodes ih => exact congrArg (n :: ·) (ih _)

/-- Every node of `T` is handled by the quorum manager that the node before it has left behind; the first
one by `q`, and the last one leaves `q'` behind. -/
def Linked (blake3 : List Byte → Hash32) :
    QuorumManager → List (CrdtActor × DagNode) → QuorumManager → Prop
  | q, [], q' => q' = q
  | q, x :: T, q' => x.1.quorum = q ∧ Linked blake3 (quorumAfter blake3 x) T q'

theorem linked_append {T T' : List (CrdtActor × DagNode)} :
    Linked blake3 q (T ++ T') q' ↔ ∃ r, Linked blake3 q T r ∧ Linked blake3 r T' q' := by
  induction T generalizing q with
  | nil => exact ⟨fun h => ⟨q, rfl, h⟩, fun ⟨_, hr, h⟩ => hr ▸ h⟩
  | cons x T ih =>
    constructor
    · rintro ⟨hx, h⟩
      obtain ⟨r, hr, h'⟩ := ih.mp h
      exact ⟨r, ⟨hx, hr⟩, h'⟩
    · rintro ⟨r, ⟨hx, hr⟩, h'⟩
      exact ⟨hx, ih.mpr ⟨r, hr, h'⟩⟩

theorem mergeNode_quorum (disk : Hash32 → Bool) (acc : CrdtActor × ℕ) (n : DagNode) :
    (mergeNode blake3 disk acc n).1.quorum = quorumAfter blake3 (acc.1, n) := by
  unfold mergeNode quorumAfter
  dsimp only
  split <;> rfl

theorem linked_mergesFrom (disk : Hash32 → Bool) (acc : CrdtActor × ℕ) (nodes : List DagNode) :
    Linked blake3 acc.1.quorum (mergesFrom blake3 disk acc nodes)
      (nodes.foldl (mergeNode blake3 disk) acc).1.quorum := by
  induction nodes generalizing acc with
  | nil => rfl
  | cons n nodes ih =>
    refine ⟨rfl, ?_⟩
    rw [← mergeNode_quorum disk acc n]
    exact ih _

theorem linked_merges (disk : Hash32 → Bool) (s : CrdtActor) (m : CrdtMsg) :
    Linked blake3 s.quorum (s.merges blake3 disk m) (s.handle blake3 disk m).1.quorum := by
  cases m with
  | merge nodes =>
    have hquorum : (s.handle blake3 disk (.merge nodes)).1.quorum =
        (nodes.foldl (mergeNode blake3 disk) (s, 0)).1.quorum := by
      show (s.handleMerge blake3 disk nodes).1.quorum = _
      unfold handleMerge
      dsimp only
      split <;> rfl
    rw [hquorum]
    exact linked_mergesFrom disk (s, 0) nodes
  | append dataHash signature vclock evidence =>
    show (s.handleAppend blake3 disk dataHash signature vclock evidence).1.quorum = s.quorum
    unfold handleAppend
    dsimp only
    split <;> rfl
  | getRoot => rfl
  | getDiff remoteHeads => rfl

/-- In a run, the quorum manager changes only where nodes are merged. -/
theorem run_linked {store : Option PersistentStore} {gcThreshold : ℕ} {ms : List CrdtMsg}
    {T : List (CrdtActor × DagNode)} {s : CrdtActor}
    (hrun : Run (TraceStep blake3) ([], new store t gcThreshold) ms (T, s)) :
    Linked blake3 (QuorumManager.new t) T s.quorum := by
  have hstart : Linked blake3 (QuorumManager.new t) [] (new store t gcThreshold).quorum := rfl
  refine hrun.invariant (P := fun u => Linked blake3 (QuorumManager.new t) u.1 u.2.quorum) hstart ?_
  intro u m v hu hstep
  cases hstep with
  | @mk T s _ disk heads horder =>
    exact linked_append.mpr ⟨_, hu, linked_merges disk (s.withHeads heads) m⟩

/-! ## The deny list -/

/-- Merging a node takes nobody off the deny list. -/
theorem denied_subset_quorumAfter (x : CrdtActor × DagNode) :
    x.1.quorum.denied ⊆ (quorumAfter blake3 x).denied := by
  unfold quorumAfter
  split
  · exact List.Subset.refl _
  · obtain ⟨cs, hcs⟩ := mergeVote_calls blake3 x.1.quorum x.2
    rw [hcs]
    exact QuorumManager.calls_denied_subset _ cs

/-- An origin is on the deny list when a node is handled if and only if it was there at first or an
earlier node has put it there. -/
theorem Linked.mem_denied_iff {before after : List (CrdtActor × DagNode)} {y : CrdtActor × DagNode}
    (h : Linked blake3 q (before ++ y :: after) q') :
    a ∈ y.1.quorum.denied ↔
      a ∈ q.denied ∨ ∃ x ∈ before, a ∈ (quorumAfter blake3 x).denied := by
  induction before generalizing q with
  | nil => rw [h.1]; simp
  | cons x before ih =>
    obtain ⟨hx, h⟩ := h
    have hsub : a ∈ q.denied → a ∈ (quorumAfter blake3 x).denied := by
      rw [← hx]
      exact fun ha => denied_subset_quorumAfter x ha
    rw [ih h, List.exists_mem_cons_iff]
    tauto

/-- Checking a node whose only clock entry belongs to a denied origin does nothing. -/
theorem checkEquivocation_of_denied {n : DagNode} {h : Hash32} (ha : n.author = some a)
    (hdenied : a ∈ q.denied) : (q.checkEquivocation n h).1 = q := by
  unfold DagNode.author at ha
  split at ha
  · rename_i origin tick hentries
    obtain rfl := Option.some.inj ha
    unfold QuorumManager.checkEquivocation QuorumManager.checkEntries
    rw [hentries]
    dsimp only
    rw [if_pos hdenied]
    rfl
  · simp at ha

/-! ## Votes of denied authors -/

/-- Merging the node adds a voter to the voters for some decision. -/
def AddsVote (blake3 : List Byte → Hash32) (x : CrdtActor × DagNode) : Prop :=
  ∃ ph dh o, o ∉ x.1.quorum.votersFor ph dh ∧ o ∈ (quorumAfter blake3 x).votersFor ph dh

/-- The node cannot vote, whoever its author is: it is in the arena, or it has no evidence, or the hex
rendering of its voter id is on the deny list, or its prompt is verified, or its voter has voted on this
prompt. -/
def Barred (blake3 : List Byte → Hash32) (x : CrdtActor × DagNode) : Prop :=
  x.1.engine.arena.contains (x.2.computeHash blake3) = true ∨
  ∀ e, x.2.evidence = some e →
    hexEncode x.2.voterId.val ∈ x.1.quorum.denied ∨
    blake3 (asBytes e.prompt) ∈ x.1.quorum.verified ∨
    ∃ dh, x.2.voterId ∈ x.1.quorum.votersFor (blake3 (asBytes e.prompt)) dh

/-- Once an origin is on the deny list, no node merged later that it is the author of adds a vote. -/
def DenialEnforced (blake3 : List Byte → Hash32) (T : List (CrdtActor × DagNode)) : Prop :=
  ∀ before y after, T = before ++ y :: after → ∀ a, y.2.author = some a →
    (∃ x ∈ before, a ∈ (quorumAfter blake3 x).denied) → ¬ AddsVote blake3 y

/-- A node of a denied author adds no vote if and only if it is barred for another reason. -/
theorem not_addsVote_iff {x : CrdtActor × DagNode} (ha : x.2.author = some a)
    (hdenied : a ∈ x.1.quorum.denied) : ¬ AddsVote blake3 x ↔ Barred blake3 x := by
  obtain ⟨s, n⟩ := x
  by_cases hcont : s.engine.arena.contains (n.computeHash blake3) = true
  · have hsame : quorumAfter blake3 (s, n) = s.quorum := if_pos hcont
    refine iff_of_true ?_ (Or.inl hcont)
    rintro ⟨ph, dh, o, hnew, ho⟩
    exact hnew (hsame ▸ ho)
  · have hafter : quorumAfter blake3 (s, n) = mergeVote blake3 s.quorum n := if_neg hcont
    have hcheck := checkEquivocation_of_denied (h := n.computeHash blake3) ha hdenied
    cases he : n.evidence with
    | none =>
      refine iff_of_true ?_ (Or.inr fun e h => ?_)
      · rintro ⟨ph, dh, o, hnew, ho⟩
        rw [hafter, mergeVote, hcheck, he] at ho
        exact hnew ho
      · exact absurd (he.symm.trans h) (by simp)
    | some e =>
      have hvote : quorumAfter blake3 (s, n) = (s.quorum.observe blake3 n.voterId e).1 := by
        rw [hafter, mergeVote, hcheck, he]
      constructor
      · intro hno
        refine Or.inr fun e' he' => ?_
        obtain rfl := Option.some.inj (he.symm.trans he')
        by_contra hbar
        push Not at hbar
        obtain ⟨hhex, hunver, hfresh⟩ := hbar
        refine hno ⟨_, _, n.voterId, hfresh (blake3 (asBytes e.decision)), ?_⟩
        rw [hvote]
        exact (QuorumManager.mem_votersFor_observe blake3 rfl rfl (hfresh _)).mpr
          ⟨hunver, hhex, hfresh⟩
      · rintro (h | hbar) ⟨ph, dh, o, hnew, ho⟩
        · exact hcont h
        · obtain ⟨e', he', rfl, rfl, rfl⟩ :=
            (mem_votersFor_mergeVote (hafter ▸ ho)).resolve_left hnew
          obtain rfl := Option.some.inj (he.symm.trans he')
          rw [hvote] at ho
          have hadm := (QuorumManager.mem_votersFor_observe blake3 rfl rfl hnew).mp ho
          rcases hbar e he with hhex | hver | ⟨dh, hdh⟩
          · exact hadm.undenied hhex
          · exact hadm.unverified hver
          · exact hadm.fresh dh hdh

/-- In every run: denial is enforced if and only if every merged node of an author that is denied by
then is barred for another reason. -/
theorem denial_enforced_iff {store : Option PersistentStore} {gcThreshold : ℕ} {ms : List CrdtMsg}
    {T : List (CrdtActor × DagNode)} {s : CrdtActor}
    (hrun : Run (TraceStep blake3) ([], new store t gcThreshold) ms (T, s)) :
    DenialEnforced blake3 T ↔
      ∀ x ∈ T, ∀ a ∈ x.1.quorum.denied, x.2.author = some a → Barred blake3 x := by
  have hlinked := run_linked hrun
  constructor
  · intro h y hy a hdenied ha
    obtain ⟨before, after, rfl⟩ := List.append_of_mem hy
    have hput := hlinked.mem_denied_iff.mp hdenied
    have hnil : a ∉ (QuorumManager.new t).denied := List.not_mem_nil
    exact (not_addsVote_iff ha hdenied).mp (h before y after rfl a ha (hput.resolve_left hnil))
  · rintro h before y after rfl a ha hput
    have hdenied : a ∈ y.1.quorum.denied := hlinked.mem_denied_iff.mpr (Or.inr hput)
    exact (not_addsVote_iff ha hdenied).mpr
      (h y (List.mem_append_right _ List.mem_cons_self) a hdenied ha)

/-- An author whose clock key is the hex rendering of its voter id is barred once it is denied. -/
theorem barred_of_author_hex {x : CrdtActor × DagNode}
    (hkey : x.2.author = some (hexEncode x.2.voterId.val)) (ha : x.2.author = some a)
    (hdenied : a ∈ x.1.quorum.denied) : Barred blake3 x := by
  obtain rfl := Option.some.inj (hkey.symm.trans ha)
  exact Or.inr fun _ _ => Or.inl hdenied

/-! ### Runs with a denied author -/

/-- A hash without collisions among a few nodes: the sum of their bytes. -/
def sumBytes (b : List Byte) : Hash32 := ⟨b.sum :: List.replicate 31 0, by simp⟩

/-- A node without evidence at tick 1, with given data. -/
def forkNode (author : String) (d : Byte) : DagNode :=
  { scanNode author 1 1 with dataHash := ⟨List.replicate 32 d, length_uniform d⟩, evidence := none }

/-- Two nodes at tick 1 with different data, and then a vote. -/
def forkThenVote (author : String) : List DagNode :=
  [forkNode author 0, forkNode author 1, scanNode author 2 1]

/-- The actor after the first `k` of these nodes. -/
def forkState (author : String) (k : ℕ) : CrdtActor :=
  (((forkThenVote author).take k).foldl (mergeNode sumBytes fun _ => true) (new none 2 1000, 0)).1

/-- The merged nodes and the state reached when a new actor merges the batch. -/
def forkRun (author : String) : List (CrdtActor × DagNode) × CrdtActor :=
  ((new none 2 1000).merges sumBytes (fun _ => true) (.merge (forkThenVote author)),
    ((new none 2 1000).handle sumBytes (fun _ => true) (.merge (forkThenVote author))).1)

theorem run_forkRun (author : String) : Run (TraceStep sumBytes) ([], new none 2 1000)
    [.merge (forkThenVote author)] (forkRun author) := by
  show Run _ _ ([] ++ [_]) _
  exact .snoc .nil (.mk (T := []) _ _ (List.Perm.refl []))

theorem forkRun_merges (author : String) : (forkRun author).1 =
    [(forkState author 0, forkNode author 0), (forkState author 1, forkNode author 1),
      (forkState author 2, scanNode author 2 1)] := by
  simp only [forkRun, merges, forkThenVote, mergesFrom, forkState, List.take_succ_cons,
    List.take_zero, List.foldl_cons, List.foldl_nil]

theorem val_voterId_scanNode (author : String) (tick : U64) (r : Byte) :
    (scanNode author tick r).voterId.val = r :: List.replicate 31 0 := by
  simp [scanNode, DagNode.voterId]

/-- The author's key is the hex rendering of its voter id. -/
theorem denial_enforced_hex_author :
    Run (TraceStep sumBytes) ([], new none 2 1000)
      [.merge (forkThenVote (hexEncode (1 :: List.replicate 31 0)))]
      (forkRun (hexEncode (1 :: List.replicate 31 0))) ∧
    (forkRun (hexEncode (1 :: List.replicate 31 0))).2.quorum.denied =
      [hexEncode (1 :: List.replicate 31 0)] ∧
    DenialEnforced sumBytes (forkRun (hexEncode (1 :: List.replicate 31 0))).1 := by
  have hrun := run_forkRun (hexEncode (1 :: List.replicate 31 0))
  refine ⟨hrun, by decide +kernel, (denial_enforced_iff hrun).mpr fun x hx a hdenied ha => ?_⟩
  have hmem : x.2 ∈ forkThenVote (hexEncode (1 :: List.replicate 31 0)) := by
    rw [← map_snd_mergesFrom (fun _ => true) (new none 2 1000, 0)
      (forkThenVote (hexEncode (1 :: List.replicate 31 0)))]
    exact List.mem_map_of_mem hx
  simp only [forkThenVote, List.mem_cons, List.not_mem_nil, or_false] at hmem
  rcases hmem with h | h | h
  · exact Or.inr fun e he => absurd he (by rw [h]; exact (Option.some_ne_none e).symm)
  · exact Or.inr fun e he => absurd he (by rw [h]; exact (Option.some_ne_none e).symm)
  · refine barred_of_author_hex ?_ ha hdenied
    rw [h, val_voterId_scanNode]
    rfl

/-- The author's key is not the hex rendering of its voter id: denied, it votes. -/
theorem denied_author_votes :
    Run (TraceStep sumBytes) ([], new none 2 1000)
      [.merge (forkThenVote "a1b2c3d4")] (forkRun "a1b2c3d4") ∧
    (forkRun "a1b2c3d4").2.quorum.denied = ["a1b2c3d4"] ∧
    ¬ DenialEnforced sumBytes (forkRun "a1b2c3d4").1 := by
  refine ⟨run_forkRun _, by decide +kernel, fun h => ?_⟩
  refine h [(forkState "a1b2c3d4" 0, forkNode "a1b2c3d4" 0),
    (forkState "a1b2c3d4" 1, forkNode "a1b2c3d4" 1)]
    (forkState "a1b2c3d4" 2, scanNode "a1b2c3d4" 2 1) [] (forkRun_merges _) "a1b2c3d4" rfl
    ⟨_, List.mem_cons_of_mem _ List.mem_cons_self, by decide +kernel⟩
    ⟨sumBytes (asBytes "scan"), sumBytes (asBytes "allow"),
      ⟨1 :: List.replicate 31 0, by simp⟩, by decide +kernel, by decide +kernel⟩

end Aimp.Crdt.CrdtActor
