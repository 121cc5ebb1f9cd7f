import Aimp.Crdt.Proofs.CollectProofs
import Aimp.Crdt.Proofs.HandleProofs

/-!
# Epochs

The garbage collector runs at every `gc_threshold`-th append of the replica, and the epoch manager
finalizes the root that it leaves. What is merged does not count, so a replica that only receives neither
collects nor finalizes. The finalized root is the digest of a single node, the one just appended, and
everything that the replica had accepted by then is an ancestor of it.
-/

namespace Aimp.Crdt

open Frontier

variable {blake3 : List Byte → Hash32}

/-- The number of appends among the messages. -/
def appends (ms : List CrdtMsg) : ℕ :=
  ms.countP fun
    | .append _ _ _ _ => true
    | _ => false

theorem appends_snoc_append (ms : List CrdtMsg) (dataHash : Hash32) (signature : Signature)
    (vclock : VClock) (evidence : Option AiEvidence) :
    appends (ms ++ [.append dataHash signature vclock evidence]) = appends ms + 1 := by
  simp [appends]

theorem rootOf_singleton (h : Hash32) : rootOf blake3 [h] = blake3 h.val := by
  simp [rootOf]

namespace MerkleCrdtEngine

theorem getMerkleRoot_count (blake3 : List Byte → Hash32) (e : MerkleCrdtEngine) :
    (e.getMerkleRoot blake3).1.mutationsSinceGc = e.mutationsSinceGc ∧
      (e.getMerkleRoot blake3).1.gcThreshold = e.gcThreshold := by
  unfold getMerkleRoot
  split
  · exact ⟨rfl, rfl⟩
  · split <;> exact ⟨rfl, rfl⟩

theorem compactHistory_gcThreshold (e : MerkleCrdtEngine) :
    e.compactHistory.gcThreshold = e.gcThreshold := by
  unfold compactHistory
  dsimp only
  split <;> rfl

/-- When the garbage collector is due, it runs and the counter starts again. -/
theorem countMutation_due {e : MerkleCrdtEngine} (h : e.gcThreshold ≤ e.mutationsSinceGc + 1) :
    e.countMutation.mutationsSinceGc = 0 ∧ e.countMutation.gcThreshold = e.gcThreshold := by
  unfold countMutation
  dsimp only
  rw [if_pos h]
  exact ⟨rfl, compactHistory_gcThreshold _⟩

theorem countMutation_not_due {e : MerkleCrdtEngine} (h : ¬ e.gcThreshold ≤ e.mutationsSinceGc + 1) :
    e.countMutation = { e with mutationsSinceGc := e.mutationsSinceGc + 1 } := by
  unfold countMutation
  dsimp only
  rw [if_neg h]

end MerkleCrdtEngine

namespace CrdtActor

variable {s s' : CrdtActor} {D D' : List DagNode}

/-! ## What one message does to the epochs -/

/-- Neither the epochs nor the counter of the garbage collector have changed. -/
structure SameEpoch (s s' : CrdtActor) : Prop where
  epochs : s'.epochs = s.epochs
  mutations : s'.engine.mutationsSinceGc = s.engine.mutationsSinceGc
  gcThreshold : s'.engine.gcThreshold = s.engine.gcThreshold

theorem sameEpoch_merge (blake3 : List Byte → Hash32) (disk : Hash32 → Bool) (s : CrdtActor)
    (nodes : List DagNode) : SameEpoch s (s.handleMerge blake3 disk nodes).1 := by
  have hnode : ∀ (acc : CrdtActor × ℕ) (n : DagNode),
      (mergeNode blake3 disk acc n).1.epochs = acc.1.epochs := by
    intro acc n
    unfold mergeNode
    dsimp only
    split <;> rfl
  have hall : ∀ acc : CrdtActor × ℕ,
      (nodes.foldl (mergeNode blake3 disk) acc).1.epochs = acc.1.epochs := by
    induction nodes with
    | nil => exact fun _ => rfl
    | cons n nodes ih => exact fun acc => (ih _).trans (hnode acc n)
  obtain ⟨hgc, hmut⟩ := handleMerge_counter blake3 disk s nodes
  refine ⟨?_, hmut, hgc⟩
  unfold handleMerge
  dsimp only
  split <;> exact hall (s, 0)

section

variable (blake3 : List Byte → Hash32) (disk : Hash32 → Bool) (dataHash : Hash32) (signature : Signature) (vclock : VClock)
  (evidence : Option AiEvidence)

/-- An append for which the garbage collector is due finalizes the epoch with the root that is left. -/
theorem handleAppend_due (h : s.engine.gcThreshold ≤ s.engine.mutationsSinceGc + 1) :
    (s.handleAppend blake3 disk dataHash signature vclock evidence).1.epochs =
        s.epochs.finalizeEpoch ((s.engine.appendMutation blake3 disk dataHash signature vclock
          evidence).1.getMerkleRoot blake3).2 ∧
      (s.handleAppend blake3 disk dataHash signature vclock evidence).1.engine.mutationsSinceGc = 0 ∧
      (s.handleAppend blake3 disk dataHash signature vclock evidence).1.engine.gcThreshold =
        s.engine.gcThreshold := by
  obtain ⟨hzero, hsame⟩ := MerkleCrdtEngine.countMutation_due
    (e := s.engine.addTop disk ((s.engine.mutation dataHash signature vclock evidence).computeHash
      blake3) (s.engine.mutation dataHash signature vclock evidence)) h
  have hdue : s.engine.gcThreshold - 1 ≤ s.engine.mutationsSinceGc ∧
      (s.engine.appendMutation blake3 disk dataHash signature vclock evidence).1.mutationsSinceGc = 0 :=
    ⟨by omega, hzero⟩
  have hroot := MerkleCrdtEngine.getMerkleRoot_count blake3
    (s.engine.appendMutation blake3 disk dataHash signature vclock evidence).1
  unfold handleAppend
  dsimp only
  rw [if_pos hdue]
  exact ⟨rfl, hroot.1.trans hzero, hroot.2.trans hsame⟩

/-- Any other append is counted, and nothing is dropped. -/
theorem handleAppend_not_due (h : ¬ s.engine.gcThreshold ≤ s.engine.mutationsSinceGc + 1) :
    (s.handleAppend blake3 disk dataHash signature vclock evidence).1.epochs = s.epochs ∧
      (s.handleAppend blake3 disk dataHash signature vclock evidence).1.engine.mutationsSinceGc =
        s.engine.mutationsSinceGc + 1 ∧
      (s.handleAppend blake3 disk dataHash signature vclock evidence).1.engine.gcThreshold =
        s.engine.gcThreshold ∧
      (s.handleAppend blake3 disk dataHash signature vclock evidence).1.engine.arena =
        (s.engine.arena.insert ((s.engine.mutation dataHash signature vclock evidence).computeHash
          blake3) (s.engine.mutation dataHash signature vclock evidence)).1 := by
  have hcount : (s.engine.appendMutation blake3 disk dataHash signature vclock evidence).1 = _ :=
    MerkleCrdtEngine.countMutation_not_due (e := s.engine.addTop disk
      ((s.engine.mutation dataHash signature vclock evidence).computeHash blake3)
      (s.engine.mutation dataHash signature vclock evidence)) h
  have hnot : ¬ (s.engine.gcThreshold - 1 ≤ s.engine.mutationsSinceGc ∧
      (s.engine.appendMutation blake3 disk dataHash signature vclock evidence).1.mutationsSinceGc =
        0) := by
    rw [hcount]
    simp
  unfold handleAppend
  dsimp only
  rw [if_neg hnot, hcount]
  exact ⟨rfl, rfl, rfl, rfl⟩

end

/-- A message that is no append changes neither the epochs nor the counter, and drops nothing. -/
theorem Step.sameEpoch {m : CrdtMsg} (hstep : Step blake3 (D, s) m (D', s'))
    (hm : appends [m] = 0) : SameEpoch s s' ∧ s.engine.arena.Sub s'.engine.arena ∧
      ∀ n ∈ D', n ∈ D ∨ s'.engine.arena.contains (n.computeHash blake3) = true := by
  cases hstep with
  | @mk _ _ _ disk heads horder =>
    cases m with
    | append => simp [appends] at hm
    | merge nodes =>
      have h := sameEpoch_merge blake3 disk (s.withHeads heads) nodes
      have hdel := handleMerge_delivered blake3 (s.withHeads heads) disk nodes
      refine ⟨⟨h.epochs, h.mutations, h.gcThreshold⟩, hdel.sub, ?_⟩
      intro n hn
      exact (List.mem_append.mp hn).imp_right (hdel.present n)
    | getRoot =>
      have h := MerkleCrdtEngine.getMerkleRoot_count blake3 (s.withHeads heads).engine
      have harena : ((s.withHeads heads).engine.getMerkleRoot blake3).1.arena = s.engine.arena :=
        MerkleCrdtEngine.getMerkleRoot_arena _
      refine ⟨⟨rfl, h.1, h.2⟩, fun k n hn => ?_, fun n hn => Or.inl ?_⟩
      · show ((s.withHeads heads).engine.getMerkleRoot blake3).1.arena.getByHash k = some n
        rwa [harena]
      · simpa [accepts] using hn
    | getDiff remoteHeads =>
      exact ⟨⟨rfl, rfl, rfl⟩, fun _ _ hn => hn, fun n hn => Or.inl (by simpa [accepts] using hn)⟩

/-! ## Runs -/

/-- What is known about the epochs after the messages `ms`. -/
structure EpochInv (blake3 : List Byte → Hash32) (start : List DagNode × CrdtActor) (g : ℕ)
    (ms : List CrdtMsg) (t : List DagNode × CrdtActor) : Prop where
  gcThreshold : max t.2.engine.gcThreshold 1 = g
  lt : t.2.engine.mutationsSinceGc < g
  count : t.2.epochs.currentEpoch * g + t.2.engine.mutationsSinceGc = appends ms
  first : t.2.epochs.currentEpoch = 0 → t.2.epochs.finalizedRoot = none ∧
    ∀ n ∈ t.1, t.2.engine.arena.contains (n.computeHash blake3) = true
  last : 0 < t.2.epochs.currentEpoch → ∃ ms₁ ms₂ D₁ s₁ f, ms = ms₁ ++ ms₂ ∧
    Run (Step blake3) start ms₁ (D₁ ++ [f], s₁) ∧ Run (Step blake3) (D₁ ++ [f], s₁) ms₂ t ∧
    appends ms₁ = t.2.epochs.currentEpoch * g ∧ s₁.engine.heads = [f.computeHash blake3] ∧
    t.2.epochs.finalizedRoot = some (blake3 (f.computeHash blake3).val) ∧
    ∀ n ∈ D₁, Ancestor blake3 (D₁ ++ [f]) n f

variable {start : List DagNode × CrdtActor} {g : ℕ} {ms : List CrdtMsg}

/-- A message that is no append. -/
theorem EpochInv.other {m : CrdtMsg} (h : EpochInv blake3 start g ms (D, s))
    (hstep : Step blake3 (D, s) m (D', s')) (hm : appends [m] = 0) :
    EpochInv blake3 start g (ms ++ [m]) (D', s') := by
  obtain ⟨hsame, hsub, hnew⟩ := hstep.sameEpoch hm
  have happ : appends (ms ++ [m]) = appends ms := by
    unfold appends at hm ⊢
    rw [List.countP_append, hm, Nat.add_zero]
  refine ⟨?_, ?_, ?_, ?_, ?_⟩
  · rw [hsame.gcThreshold]
    exact h.gcThreshold
  · rw [hsame.mutations]
    exact h.lt
  · rw [hsame.epochs, hsame.mutations, happ]
    exact h.count
  · intro hzero
    rw [hsame.epochs] at hzero ⊢
    obtain ⟨hnone, hall⟩ := h.first hzero
    refine ⟨hnone, fun n hn => ?_⟩
    rcases hnew n hn with hold | hcont
    · obtain ⟨k, hk⟩ := DagArena.contains_iff.mp (hall n hold)
      exact DagArena.contains_iff.mpr ⟨k, hsub _ _ hk⟩
    · exact hcont
  · intro hpos
    rw [hsame.epochs] at hpos ⊢
    obtain ⟨ms₁, ms₂, D₁, s₁, f, rfl, hrun₁, hrun₂, hrest⟩ := h.last hpos
    exact ⟨ms₁, ms₂ ++ [m], D₁, s₁, f, List.append_assoc .., hrun₁, hrun₂.snoc hstep, hrest⟩

/-- An append, with the garbage collector due or not. -/
theorem EpochInv.append {dataHash : Hash32} {signature : Signature} {vclock : VClock}
    {evidence : Option AiEvidence} (h : EpochInv blake3 start g ms (D, s))
    (hrun : Run (Step blake3) start ms (D, s))
    (hstep : Step blake3 (D, s) (.append dataHash signature vclock evidence) (D', s'))
    (hac : Acyclic (nodeCards blake3 D')) (hc : s.engine.Coherent blake3)
    (hD : s.engine.arena.Holds blake3 D) (hb : BelowHeads blake3 D s) :
    EpochInv blake3 start g (ms ++ [.append dataHash signature vclock evidence]) (D', s') := by
  have hrun' := hrun.snoc hstep
  have happ := appends_snoc_append ms dataHash signature vclock evidence
  cases hstep with
  | @mk _ _ _ disk heads horder =>
    set t := s.withHeads heads with ht
    set f := t.engine.mutation dataHash signature vclock evidence with hf
    have hc' : t.engine.Coherent blake3 := coherent_withHeads hc horder
    have hD' : t.engine.arena.Holds blake3 D := hD
    have hmut : t.engine.mutationsSinceGc = s.engine.mutationsSinceGc := rfl
    have hgc : t.engine.gcThreshold = s.engine.gcThreshold := rfl
    have hep : t.epochs = s.epochs := rfl
    have hg := h.gcThreshold
    have hlt := h.lt
    have hcount := h.count
    dsimp only at hg hlt hcount
    by_cases hdue : t.engine.gcThreshold ≤ t.engine.mutationsSinceGc + 1
    · obtain ⟨hepochs, hzero, hsame⟩ :=
        handleAppend_due blake3 disk dataHash signature vclock evidence hdue
      obtain ⟨hcoh, hheads, -⟩ := MerkleCrdtEngine.appendMutation_spec disk hc' hD' hac
      have hroot := (MerkleCrdtEngine.getMerkleRoot_spec hcoh).1
      rw [hheads, rootOf_singleton] at hroot
      rw [hroot] at hepochs
      have hfull : s.engine.mutationsSinceGc + 1 = g := by omega
      have hepoch : (t.handle blake3 disk (.append dataHash signature vclock
          evidence)).1.epochs.currentEpoch = s.epochs.currentEpoch + 1 :=
        congrArg EpochManager.currentEpoch hepochs
      have hmul : (s.epochs.currentEpoch + 1) * g = appends ms + 1 := by
        rw [Nat.add_mul, ← hcount]
        omega
      refine ⟨?_, ?_, ?_, ?_, ?_⟩
      · exact (congrArg (max · 1) hsame).trans hg
      · exact hzero.symm ▸ by omega
      · show _ * g + (t.handleAppend blake3 disk dataHash signature vclock
          evidence).1.engine.mutationsSinceGc = _
        rw [hzero, hepoch, happ]
        exact hmul
      · intro hnone
        rw [hepoch] at hnone
        omega
      · intro _
        refine ⟨_, [], D, _, f, (List.append_nil _).symm, hrun', .nil, ?_, ?_, ?_, ?_⟩
        · rw [hepoch, happ, hmul]
        · exact (handleAppend_spec disk hc' hD' hac).2.1
        · exact congrArg EpochManager.finalizedRoot hepochs
        · intro n hn
          exact (belowHeads_withHeads hb horder).mutation dataHash signature vclock evidence hn
    · obtain ⟨hepochs, hsucc, hsame, harena⟩ :=
        handleAppend_not_due blake3 disk dataHash signature vclock evidence hdue
      have hepochs' : (t.handle blake3 disk (.append dataHash signature vclock
          evidence)).1.epochs = s.epochs := hepochs
      refine ⟨?_, ?_, ?_, ?_, ?_⟩
      · exact (congrArg (max · 1) hsame).trans hg
      · show (t.handleAppend blake3 disk dataHash signature vclock
          evidence).1.engine.mutationsSinceGc < g
        omega
      · show _ * g + (t.handleAppend blake3 disk dataHash signature vclock
          evidence).1.engine.mutationsSinceGc = _
        rw [hsucc, hepochs', happ, ← hcount]
        rfl
      · intro hzero
        rw [hepochs'] at hzero ⊢
        obtain ⟨hnone, hall⟩ := h.first hzero
        refine ⟨hnone, fun n hn => ?_⟩
        show (t.handleAppend blake3 disk dataHash signature vclock evidence).1.engine.arena.contains
          (n.computeHash blake3) = true
        rw [harena, DagArena.contains_insert]
        rcases List.mem_append.mp hn with hn | hn
        · exact Or.inl (hall n hn)
        · rw [List.mem_singleton.mp hn]
          exact Or.inr rfl
      · intro hpos
        rw [hepochs'] at hpos ⊢
        obtain ⟨ms₁, ms₂, D₁, s₁, f, rfl, hrun₁, hrun₂, hrest⟩ := h.last hpos
        exact ⟨ms₁, _, D₁, s₁, f, List.append_assoc .., hrun₁,
          hrun₂.snoc (.mk _ disk horder), hrest⟩

/-- A new actor has counted nothing. -/
theorem new_counter (store : Option PersistentStore) (threshold gcThreshold : ℕ) :
    (new store threshold gcThreshold).engine.mutationsSinceGc = 0 ∧
      (new store threshold gcThreshold).engine.gcThreshold = gcThreshold := by
  have hload : ∀ (l : List (Hash32 × DagNode)) (e : MerkleCrdtEngine),
      (l.foldl (fun e c =>
        { e with arena := (e.arena.insert c.1 c.2).1, heads := e.heads.insert c.1 }) e).mutationsSinceGc =
          e.mutationsSinceGc ∧
      (l.foldl (fun e c =>
        { e with arena := (e.arena.insert c.1 c.2).1, heads := e.heads.insert c.1 }) e).gcThreshold =
          e.gcThreshold := by
    intro l
    induction l with
    | nil => exact fun _ => ⟨rfl, rfl⟩
    | cons c l ih => exact fun e => ih _
  cases store with
  | none => exact ⟨rfl, rfl⟩
  | some p =>
    unfold new recover
    dsimp only [MerkleCrdtEngine.invalidateRoot]
    rw [← List.foldl_flatten]
    exact hload _ _

theorem epochInv_of_run {store : Option PersistentStore}
    (hstore : ∀ p, store = some p → p.Honest blake3) {threshold gcThreshold : ℕ}
    {t : List DagNode × CrdtActor}
    (hrun : Run (Step blake3) (storedNodes store, new store threshold gcThreshold) ms t)
    (hac : Acyclic (nodeCards blake3 t.1)) :
    EpochInv blake3 (storedNodes store, new store threshold gcThreshold) (max gcThreshold 1) ms t := by
  induction hrun with
  | nil =>
    have hcount := new_counter store threshold gcThreshold
    refine ⟨?_, ?_, ?_, ?_, ?_⟩
    · rw [hcount.2]
    · show (new store threshold gcThreshold).engine.mutationsSinceGc < _
      omega
    · show 0 * _ + (new store threshold gcThreshold).engine.mutationsSinceGc = 0
      rw [hcount.1, Nat.zero_mul]
    · exact fun _ => ⟨rfl, fun n hn => contains_new hstore threshold gcThreshold hn⟩
    · exact fun hpos => absurd hpos (Nat.lt_irrefl 0)
  | @snoc ms m t u hrun hlast ih =>
    obtain ⟨D, s⟩ := t
    obtain ⟨D', s'⟩ := u
    have hac' : Acyclic (nodeCards blake3 D) := hac.mono (nodeCards_mono hlast.accepted_mono)
    cases m with
    | append =>
      obtain ⟨hc, hD⟩ := run_coherent hstore hrun hac'
      exact (ih hac').append hrun hlast hac hc hD (belowHeads_of_run hstore hrun hac')
    | merge => exact (ih hac').other hlast rfl
    | getRoot => exact (ih hac').other hlast rfl
    | getDiff => exact (ih hac').other hlast rfl

/-- After every run the epochs are accounted for: there is one for every `gc_threshold` appends, and the
counter has the rest. Before the first one nothing is finalized and nothing has been dropped. The root
finalized last was finalized right after an append, at the last multiple of the threshold; it is the
digest of the hash of the node appended there, of which everything accepted before is an ancestor. -/
theorem epochs_account {store : Option PersistentStore}
    (hstore : ∀ p, store = some p → p.Honest blake3) {threshold gcThreshold : ℕ}
    (hrun : Run (Step blake3) (storedNodes store, new store threshold gcThreshold) ms (D, s))
    (hac : Acyclic (nodeCards blake3 D)) :
    s.epochs.currentEpoch = appends ms / max gcThreshold 1 ∧
    s.engine.mutationsSinceGc = appends ms % max gcThreshold 1 ∧
    (s.epochs.currentEpoch = 0 → s.epochs.finalizedRoot = none ∧
      ∀ n ∈ D, s.engine.arena.contains (n.computeHash blake3) = true) ∧
    (0 < s.epochs.currentEpoch → ∃ ms₁ ms₂ D₁ s₁ f, ms = ms₁ ++ ms₂ ∧
      Run (Step blake3) (storedNodes store, new store threshold gcThreshold) ms₁ (D₁ ++ [f], s₁) ∧
      Run (Step blake3) (D₁ ++ [f], s₁) ms₂ (D, s) ∧
      appends ms₁ = s.epochs.currentEpoch * max gcThreshold 1 ∧
      s₁.engine.heads = [f.computeHash blake3] ∧
      s.epochs.finalizedRoot = some (blake3 (f.computeHash blake3).val) ∧
      ∀ n ∈ D₁, Ancestor blake3 (D₁ ++ [f]) n f) := by
  obtain ⟨-, hlt, hcount, hfirst, hlast⟩ := epochInv_of_run hstore hrun hac
  dsimp only at hlt hcount
  refine ⟨?_, ?_, hfirst, hlast⟩
  · rw [← hcount, Nat.mul_comm, Nat.mul_add_div (by omega), Nat.div_eq_of_lt hlt, Nat.add_zero]
  · rw [← hcount, Nat.mul_comm, Nat.mul_add_mod, Nat.mod_eq_of_lt hlt]

/-- Two appends with the threshold 2: one epoch, finalized with the second node. -/
theorem epochs_account_two_appends : ∃ (s : CrdtActor) (f : DagNode),
    s.epochs.currentEpoch = 1 ∧ s.engine.mutationsSinceGc = 0 ∧
      s.epochs.finalizedRoot = some (lastBytes (f.computeHash lastBytes).val) := by
  have hstep : ∀ t m, Step lastBytes t m _ := fun t m => .here t.1 t.2 m fun _ => true
  have hrun := (Run.single (hstep (storedNodes none, new none 2 2) (CrdtHandle.plainAppend 1))).snoc
    (hstep _ (CrdtHandle.plainAppend 2))
  have hac := CrdtHandle.acyclic_two_appends
  obtain ⟨hepoch, hcount, -, hlast⟩ := epochs_account (by simp) hrun
    (by convert hac using 2; decide +kernel)
  have hone : appends [CrdtHandle.plainAppend 1, CrdtHandle.plainAppend 2] / max 2 1 = 1 := rfl
  rw [show [_] ++ [_] = [CrdtHandle.plainAppend 1, CrdtHandle.plainAppend 2] from rfl] at hepoch hcount
  obtain ⟨_, _, _, _, f, -, -, -, -, -, hroot, -⟩ := hlast (by rw [hepoch, hone]; exact Nat.one_pos)
  exact ⟨_, f, hepoch.trans hone, hcount, hroot⟩

end CrdtActor

end Aimp.Crdt
