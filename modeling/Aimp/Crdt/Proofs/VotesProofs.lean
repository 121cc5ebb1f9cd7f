import Aimp.Crdt.Actor
import Aimp.Crdt.Proofs.ConvergenceProofs
import Aimp.Crdt.Proofs.QuorumProofs
import Aimp.Lib.Run

/-!
# Votes and authors

`Merge` lets a node vote under the first half of its signature. Distinct voters are distinct authors only
as long as no author signs two nodes with the same prompt and decision differently.
-/

namespace Aimp.Crdt

/-- The author of a node: the only key of its vector clock. -/
def DagNode.author (n : DagNode) : Option String :=
  match n.vclock.entries with
  | [(origin, _)] => some origin
  | _ => none

/-- The node's evidence is about this prompt and reaches this decision. -/
def DagNode.votesFor (blake3 : List Byte → Hash32) (promptHash decisionHash : Hash32) (n : DagNode) :
    Bool :=
  n.evidence.any fun e =>
    blake3 (asBytes e.prompt) = promptHash ∧ blake3 (asBytes e.decision) = decisionHash

theorem DagNode.votesFor_iff {blake3 : List Byte → Hash32} {ph dh : Hash32} {n : DagNode} :
    n.votesFor blake3 ph dh = true ↔ ∃ e, n.evidence = some e ∧
      blake3 (asBytes e.prompt) = ph ∧ blake3 (asBytes e.decision) = dh := by
  unfold votesFor
  cases n.evidence with
  | none => simp
  | some e => simp

namespace CrdtActor

/-- Merging the node adds its voter to the voters for its decision. -/
def counts (blake3 : List Byte → Hash32) (s : CrdtActor) (n : DagNode) : Bool :=
  !s.engine.arena.contains (n.computeHash blake3) && n.evidence.any fun e =>
    let promptHash := blake3 (asBytes e.prompt)
    let decisionHash := blake3 (asBytes e.decision)
    n.voterId ∉ s.quorum.votersFor promptHash decisionHash ∧
      n.voterId ∈ (mergeVote blake3 s.quorum n).votersFor promptHash decisionHash

/-- The loop body of `CrdtMsg::Merge`, together with the nodes whose votes have been counted. -/
def tallyNode (blake3 : List Byte → Hash32) (disk : Hash32 → Bool)
    (acc : List DagNode × CrdtActor × ℕ) (n : DagNode) : List DagNode × CrdtActor × ℕ :=
  (if acc.2.1.counts blake3 n then acc.1 ++ [n] else acc.1, mergeNode blake3 disk acc.2 n)

/-- A `Merge` of one batch. `C` are the nodes whose votes have been counted before it. -/
inductive MergeStep (blake3 : List Byte → Hash32) :
    List DagNode × CrdtActor → List DagNode → List DagNode × CrdtActor → Prop where
  | mk {C : List DagNode} {s : CrdtActor} (nodes : List DagNode) (disk : Hash32 → Bool)
      {heads : List Hash32} (horder : heads.Perm s.engine.heads) :
      MergeStep blake3 (C, s) nodes
        ((nodes.foldl (tallyNode blake3 disk) (C, s.withHeads heads, 0)).1,
          ((s.withHeads heads).handle blake3 disk (.merge nodes)).1)

/-- The distinct authors of the counted nodes that vote for a decision of a prompt. -/
def authorsFor (blake3 : List Byte → Hash32) (C : List DagNode) (prompt decision : String) :
    List String :=
  ((C.filter (DagNode.votesFor blake3 (blake3 (asBytes prompt)) (blake3 (asBytes decision)))).filterMap
    DagNode.author).dedup

variable {blake3 : List Byte → Hash32} {t : ℕ}

theorem tallyNode_snd (disk : Hash32 → Bool) (nodes : List DagNode)
    (acc : List DagNode × CrdtActor × ℕ) :
    (nodes.foldl (tallyNode blake3 disk) acc).2 = nodes.foldl (mergeNode blake3 disk) acc.2 := by
  induction nodes generalizing acc with
  | nil => rfl
  | cons n nodes ih => exact ih _

/-- The quorum part of `Merge` is one or two calls. -/
theorem mergeVote_calls (blake3 : List Byte → Hash32) (q : QuorumManager) (n : DagNode) :
    ∃ cs, mergeVote blake3 q n = q.calls blake3 cs := by
  unfold mergeVote
  cases n.evidence with
  | none => exact ⟨[.checkEquivocation n (n.computeHash blake3)], rfl⟩
  | some e => exact ⟨[.checkEquivocation n (n.computeHash blake3), .observe n.voterId e], rfl⟩

/-- Merging a node adds no voter but the node's own, for its own decision. -/
theorem mem_votersFor_mergeVote {q : QuorumManager} {n : DagNode} {ph dh o : Hash32}
    (h : o ∈ (mergeVote blake3 q n).votersFor ph dh) :
    o ∈ q.votersFor ph dh ∨ ∃ e, n.evidence = some e ∧ n.voterId = o ∧
      blake3 (asBytes e.prompt) = ph ∧ blake3 (asBytes e.decision) = dh := by
  have hcheck := QuorumManager.checkEquivocation_sameVotes q n (n.computeHash blake3)
  unfold mergeVote at h
  cases he : n.evidence with
  | none =>
    rw [he] at h
    exact Or.inl (hcheck.voters ph dh ▸ h)
  | some e =>
    rw [he] at h
    rcases QuorumManager.mem_votersFor_call (c := .observe n.voterId e) h with h | ⟨f, hf, hp, hd⟩
    · exact Or.inl (hcheck.voters ph dh ▸ h)
    · obtain ⟨rfl, rfl⟩ := QuorumCall.observe.inj hf
      exact Or.inr ⟨e, rfl, rfl, hp, hd⟩

/-! ## The counted nodes -/

/-- Every voter is the voter of a counted node for the same decision, and every counted node has been
delivered with evidence. -/
structure Tallied (blake3 : List Byte → Hash32) (t : ℕ) (delivered C : List DagNode)
    (q : QuorumManager) : Prop where
  calls : ∃ cs, q = (QuorumManager.new t).calls blake3 cs
  voters : ∀ ph dh o, o ∈ q.votersFor ph dh →
    ∃ n ∈ C, n.voterId = o ∧ n.votesFor blake3 ph dh = true
  delivered : ∀ n ∈ C, n ∈ delivered

theorem tallied_new (t : ℕ) : Tallied blake3 t [] [] (QuorumManager.new t) :=
  ⟨⟨[], rfl⟩, fun _ _ _ h => absurd h List.not_mem_nil, by simp⟩

theorem Tallied.tallyNode {delivered : List DagNode} {acc : List DagNode × CrdtActor × ℕ}
    (h : Tallied blake3 t delivered acc.1 acc.2.1.quorum) (disk : Hash32 → Bool) (n : DagNode) :
    Tallied blake3 t (delivered ++ [n]) (CrdtActor.tallyNode blake3 disk acc n).1
      (CrdtActor.tallyNode blake3 disk acc n).2.1.quorum := by
  obtain ⟨C, s, added⟩ := acc
  have hC : ∀ m, m ∈ C → m ∈ (CrdtActor.tallyNode blake3 disk (C, s, added) n).1 := by
    intro m hm
    unfold CrdtActor.tallyNode
    dsimp only
    split
    · exact List.mem_append_left _ hm
    · exact hm
  have hdelivered : ∀ m ∈ (CrdtActor.tallyNode blake3 disk (C, s, added) n).1,
      m ∈ delivered ++ [n] := by
    intro m hm
    unfold CrdtActor.tallyNode at hm
    dsimp only at hm
    split at hm
    · exact (List.mem_append.mp hm).elim (fun h1 => List.mem_append_left _ (h.delivered m h1))
        (List.mem_append_right _)
    · exact List.mem_append_left _ (h.delivered m hm)
  by_cases hc : s.engine.arena.contains (n.computeHash blake3) = true
  · have hs : (CrdtActor.tallyNode blake3 disk (C, s, added) n).2 = (s, added) := if_pos hc
    rw [hs]
    refine ⟨h.calls, fun ph dh o ho => ?_, hdelivered⟩
    obtain ⟨m, hm, hmo⟩ := h.voters ph dh o ho
    exact ⟨m, hC m hm, hmo⟩
  · have hs : (CrdtActor.tallyNode blake3 disk (C, s, added) n).2.1.quorum =
        mergeVote blake3 s.quorum n := congrArg (fun r : CrdtActor × ℕ => r.1.quorum) (if_neg hc)
    rw [hs]
    refine ⟨?_, fun ph dh o ho => ?_, hdelivered⟩
    · obtain ⟨cs, hcs⟩ := h.calls
      obtain ⟨ds, hds⟩ := mergeVote_calls blake3 s.quorum n
      exact ⟨cs ++ ds, by rw [hds, QuorumManager.calls_append, ← hcs]⟩
    · by_cases hold : o ∈ s.quorum.votersFor ph dh
      · obtain ⟨m, hm, hmo⟩ := h.voters ph dh o hold
        exact ⟨m, hC m hm, hmo⟩
      · -- a voter that is new is the voter of `n`, and `n` is counted
        obtain ⟨e, he, rfl, rfl, rfl⟩ := (mem_votersFor_mergeVote ho).resolve_left hold
        have hcounts : s.counts blake3 n = true := by
          rw [counts, he, Bool.not_eq_true _ |>.mp hc]
          simp [hold, ho]
        refine ⟨n, ?_, rfl, DagNode.votesFor_iff.mpr ⟨e, he, rfl, rfl⟩⟩
        show n ∈ if s.counts blake3 n = true then C ++ [n] else C
        rw [if_pos hcounts]
        exact List.mem_append_right _ (List.mem_singleton_self n)

theorem Tallied.foldl {delivered : List DagNode} {acc : List DagNode × CrdtActor × ℕ}
    (h : Tallied blake3 t delivered acc.1 acc.2.1.quorum) (disk : Hash32 → Bool)
    (nodes : List DagNode) :
    Tallied blake3 t (delivered ++ nodes) (nodes.foldl (CrdtActor.tallyNode blake3 disk) acc).1
      (nodes.foldl (CrdtActor.tallyNode blake3 disk) acc).2.1.quorum := by
  induction nodes generalizing delivered acc with
  | nil => simpa using h
  | cons n nodes ih =>
    have := ih (h.tallyNode disk n)
    simpa using this

/-- After any run of merges, every voter is the voter of a counted node. -/
theorem run_tallied {store : Option PersistentStore} {gcThreshold : ℕ}
    {batches : List (List DagNode)} {C : List DagNode} {s : CrdtActor}
    (hrun : Run (MergeStep blake3) ([], new store t gcThreshold) batches (C, s)) :
    Tallied blake3 t batches.flatten C s.quorum := by
  generalize hu : (C, s) = u at hrun
  induction hrun generalizing C s with
  | nil =>
    obtain ⟨rfl, rfl⟩ := Prod.mk.inj hu
    exact tallied_new t
  | @snoc done nodes _ _ hrun hstep ih =>
    cases hstep with
    | @mk C₀ s₀ _ disk heads horder =>
      obtain ⟨rfl, rfl⟩ := Prod.mk.inj hu
      have hdone : Tallied blake3 t done.flatten C₀ s₀.quorum := ih rfl
      have h : Tallied blake3 t (done.flatten ++ nodes)
          (nodes.foldl (CrdtActor.tallyNode blake3 disk) (C₀, s₀.withHeads heads, 0)).1 _ :=
        Tallied.foldl hdone disk nodes
      rw [List.flatten_append, List.flatten_singleton]
      have hquorum : ((s₀.withHeads heads).handle blake3 disk (.merge nodes)).1.quorum =
          (nodes.foldl (CrdtActor.tallyNode blake3 disk) (C₀, s₀.withHeads heads, 0)).2.1.quorum := by
        rw [tallyNode_snd]
        show (handleMerge blake3 disk _ nodes).1.quorum = _
        unfold handleMerge
        dsimp only
        split <;> rfl
      rw [hquorum]
      exact h

/-- If equal values of `f` have equal values of `g`, then `g` has no more values than `f`. -/
theorem card_image_le_of_determines {α β γ : Type*} [DecidableEq β] [DecidableEq γ] {F : Finset α}
    {f : α → β} {g : α → γ} (h : ∀ m ∈ F, ∀ n ∈ F, f m = f n → g m = g n) :
    (F.image g).card ≤ (F.image f).card := by
  have hinj : ∀ a ∈ F.image fun n => (f n, g n), ∀ b ∈ F.image fun n => (f n, g n),
      a.1 = b.1 → a = b := by
    intro a ha b hb hab
    obtain ⟨m, hm, rfl⟩ := Finset.mem_image.mp ha
    obtain ⟨n, hn, rfl⟩ := Finset.mem_image.mp hb
    exact Prod.ext hab (h m hm n hn hab)
  calc (F.image g).card = ((F.image fun n => (f n, g n)).image Prod.snd).card := by
        rw [Finset.image_image]; rfl
    _ ≤ (F.image fun n => (f n, g n)).card := Finset.card_image_le
    _ = ((F.image fun n => (f n, g n)).image Prod.fst).card := (Finset.card_image_of_injOn hinj).symm
    _ = (F.image f).card := by rw [Finset.image_image]; rfl

/-- In every run of merges in which every delivered node with evidence has an author, and delivered
nodes of one author with the same prompt and decision have the same voter: a prompt is verified only by
a decision for which nodes of at least `t` distinct authors have been counted. -/
theorem one_author_one_vote {store : Option PersistentStore} {gcThreshold : ℕ} (ht : 1 ≤ t)
    {batches : List (List DagNode)} {C : List DagNode} {s : CrdtActor}
    (hrun : Run (MergeStep blake3) ([], new store t gcThreshold) batches (C, s))
    (hauthor : ∀ n ∈ batches.flatten, n.evidence.isSome → n.author.isSome)
    (hvoter : ∀ m ∈ batches.flatten, ∀ n ∈ batches.flatten, ∀ ph dh,
      m.votesFor blake3 ph dh = true → n.votesFor blake3 ph dh = true → m.author = n.author →
        m.voterId = n.voterId) (p : String) (hp : s.quorum.isVerified blake3 p = true) :
    ∃ d, t ≤ s.quorum.getSupportCount blake3 p d ∧ t ≤ (authorsFor blake3 C p d).length := by
  have h := run_tallied hrun
  obtain ⟨cs, hcs⟩ := h.calls
  rw [hcs] at hp
  obtain ⟨d, hd⟩ := (QuorumManager.isVerified_calls_iff ht cs p).mp hp
  obtain ⟨b, hb⟩ := QuorumManager.exists_refines_calls ht blake3 cs
  rw [← hcs] at hd hb
  refine ⟨d, hd, ?_⟩
  set ph := blake3 (asBytes p) with hph
  set dh := blake3 (asBytes d) with hdh
  let F := (C.filter (DagNode.votesFor blake3 ph dh)).toFinset
  have hF : ∀ n ∈ F, n ∈ batches.flatten ∧ n.votesFor blake3 ph dh = true := by
    intro n hn
    obtain ⟨h1, h2⟩ := List.mem_filter.mp (List.mem_toFinset.mp hn)
    exact ⟨h.delivered n h1, h2⟩
  have hvoters : (s.quorum.votersFor ph dh).toFinset ⊆ F.image DagNode.voterId := by
    intro o ho
    obtain ⟨n, hn, hno, hnv⟩ := h.voters ph dh o (List.mem_toFinset.mp ho)
    exact Finset.mem_image.mpr ⟨n, List.mem_toFinset.mpr (List.mem_filter.mpr ⟨hn, hnv⟩), hno⟩
  have hauthors : F.image DagNode.author ⊆ ((authorsFor blake3 C p d).map some).toFinset := by
    intro a ha
    obtain ⟨n, hn, rfl⟩ := Finset.mem_image.mp ha
    obtain ⟨e, he, -⟩ := DagNode.votesFor_iff.mp (hF n hn).2
    obtain ⟨a, ha⟩ := Option.isSome_iff_exists.mp (hauthor n (hF n hn).1 (by rw [he]; rfl))
    rw [ha, List.mem_toFinset]
    refine List.mem_map_of_mem (List.mem_dedup.mpr (List.mem_filterMap.mpr ⟨n, ?_, ha⟩))
    exact List.mem_toFinset.mp hn
  calc t ≤ (s.quorum.votersFor ph dh).length := by rwa [QuorumManager.getSupportCount_eq] at hd
    _ = (s.quorum.votersFor ph dh).toFinset.card :=
        (List.toFinset_card_of_nodup (hb.nodup ph dh)).symm
    _ ≤ (F.image DagNode.voterId).card := Finset.card_le_card hvoters
    _ ≤ (F.image DagNode.author).card :=
        card_image_le_of_determines fun m hm n hn =>
          hvoter m (hF m hm).1 n (hF n hn).1 ph dh (hF m hm).2 (hF n hn).2
    _ ≤ ((authorsFor blake3 C p d).map some).toFinset.card := Finset.card_le_card hauthors
    _ ≤ ((authorsFor blake3 C p d).map some).length := List.toFinset_card_le _
    _ = (authorsFor blake3 C p d).length := List.length_map _

/-! ### Runs with threshold 2 -/

/-- A node of the given author: a vote for allowing the scan, at a given tick and with a signature that
starts with the given byte. -/
def scanNode (author : String) (tick : U64) (r : Byte) : DagNode where
  parents := []
  signature := ⟨r :: List.replicate 63 0, by simp⟩
  dataHash := zeros 32
  vclock := ⟨[(author, tick)], List.pairwise_singleton _ _⟩
  evidence := some ⟨"scan", "allow", zeros 32, tick⟩

/-- Two authors vote. -/
theorem one_author_one_vote_two_authors :
    ∃ C s, Run (MergeStep lastBytes) ([], new none 2 1000)
        [[scanNode "a1b2c3d4" 1 1, scanNode "e5f60718" 2 2]] (C, s) ∧
      ∃ d, 2 ≤ s.quorum.getSupportCount lastBytes "scan" d ∧
        2 ≤ (authorsFor lastBytes C "scan" d).length := by
  let nodes := [scanNode "a1b2c3d4" 1 1, scanNode "e5f60718" 2 2]
  have hrun : Run (MergeStep lastBytes) ([], new none 2 1000) ([] ++ [nodes])
      (_, (((new none 2 1000).withHeads []).handle lastBytes (fun _ => true) (.merge nodes)).1) :=
    .snoc .nil (.mk nodes _ (List.Perm.refl []))
  refine ⟨_, _, hrun, one_author_one_vote (by decide) hrun ?_ ?_ "scan" (by decide +kernel)⟩
  · intro n hn _
    rcases List.mem_pair.mp hn with rfl | rfl
    · rfl
    · rfl
  · intro m hm n hn ph dh _ _ hmn
    rcases List.mem_pair.mp hm with rfl | rfl <;> rcases List.mem_pair.mp hn with rfl | rfl
    · rfl
    · exact absurd hmn (by decide)
    · exact absurd hmn (by decide)
    · rfl

/-- Nodes of a single author are nodes of at most one author. -/
theorem authorsFor_le_one {C : List DagNode} {a : String} (h : ∀ n ∈ C, n.author = some a)
    (p d : String) : (authorsFor blake3 C p d).length ≤ 1 := by
  have hall : ∀ b ∈ authorsFor blake3 C p d, b = a := by
    intro b hb
    obtain ⟨n, hn, hnb⟩ := List.mem_filterMap.mp (List.mem_dedup.mp hb)
    exact Option.some.inj (hnb.symm.trans (h n (List.mem_filter.mp hn).1))
  have hnodup : (authorsFor blake3 C p d).Nodup := List.nodup_dedup _
  rw [List.eq_replicate_of_mem hall] at hnodup
  exact List.nodup_replicate.mp hnodup

/-- A single author, with two nodes and two signatures, verifies a prompt. -/
theorem one_author_two_votes :
    ∃ C s, Run (MergeStep lastBytes) ([], new none 2 1000)
        [[scanNode "a1b2c3d4" 1 1, scanNode "a1b2c3d4" 2 2]] (C, s) ∧
      s.quorum.isVerified lastBytes "scan" = true ∧
      ∀ d, (authorsFor lastBytes C "scan" d).length < 2 := by
  let nodes := [scanNode "a1b2c3d4" 1 1, scanNode "a1b2c3d4" 2 2]
  let C := (nodes.foldl (tallyNode lastBytes fun _ => true) ([], (new none 2 1000).withHeads [], 0)).1
  have hrun : Run (MergeStep lastBytes) ([], new none 2 1000) ([] ++ [nodes])
      (C, (((new none 2 1000).withHeads []).handle lastBytes (fun _ => true) (.merge nodes)).1) :=
    .snoc .nil (.mk nodes _ (List.Perm.refl []))
  have hauthor : ∀ n ∈ C, n.author = some "a1b2c3d4" := by
    intro n hn
    rcases List.mem_pair.mp ((run_tallied hrun).delivered n hn) with rfl | rfl
    · rfl
    · rfl
  exact ⟨_, _, hrun, by decide +kernel, fun d => Nat.lt_succ_of_le (authorsFor_le_one hauthor _ d)⟩

end CrdtActor

end Aimp.Crdt
