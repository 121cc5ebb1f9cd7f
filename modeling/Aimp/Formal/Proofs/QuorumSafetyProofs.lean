import Aimp.Formal.CrdtConvergence
import Aimp.Lib.Run
import Aimp.Crdt.Proofs.QuorumProofs

/-!
# Quorum safety of the specification, and the quorum manager

The specification goes on taking votes after a quorum, so its threshold must make two quorums meet. The
quorum manager stops at the first quorum. Its votes are a run of `Observe` steps all the same.
-/

namespace Aimp.Formal

variable {ν π δ : Type*} [DecidableEq ν] [DecidableEq π] [DecidableEq δ]
  {c : Constants ν} {s t : State ν π δ}

/-! ## The threshold -/

theorem quorum_observe (s : State ν π δ) (n : ν) (p p' : π) (d d' : δ) :
    (observe s n p d).quorum p' d' =
      if p' = p ∧ d' = d then insert n (s.quorum p d) else s.quorum p' d' := by
  unfold observe
  dsimp only
  by_cases hp : p' = p
  · subst hp
    by_cases hd : d' = d
    · subst hd
      rw [Function.update_self, Function.update_self, if_pos ⟨rfl, rfl⟩]
    · rw [Function.update_self, Function.update_of_ne hd, if_neg fun h => hd h.2]
  · rw [Function.update_of_ne hp, if_neg fun h => hp h.1]

/-- Only nodes vote, and no node votes for two decisions of a prompt. -/
structure VotedOnce (c : Constants ν) (s : State ν π δ) : Prop where
  nodes : ∀ p d, s.quorum p d ⊆ c.nodes
  once : ∀ p {d d' n}, n ∈ s.quorum p d → n ∈ s.quorum p d' → d = d'

omit [DecidableEq ν] [DecidableEq π] [DecidableEq δ] in
theorem votedOnce_init : VotedOnce c (init : State ν π δ) where
  nodes _ _ := Finset.empty_subset _
  once _ _ _ _ hn := absurd hn (Finset.notMem_empty _)

theorem VotedOnce.next {a : Action ν π δ} (h : VotedOnce c s) (hnext : Next c s a t) :
    VotedOnce c t := by
  cases hnext with
  | mutate => exact ⟨h.nodes, h.once⟩
  | receive => exact ⟨h.nodes, h.once⟩
  | @observe n p d hn hnew =>
    have hmem : ∀ p' d' k, k ∈ (observe s n p d).quorum p' d' →
        k ∈ s.quorum p' d' ∨ (k = n ∧ p' = p ∧ d' = d) := by
      intro p' d' k hk
      rw [quorum_observe] at hk
      split at hk
      · rename_i heq
        obtain ⟨rfl, rfl⟩ := heq
        rcases Finset.mem_insert.mp hk with rfl | hk
        · exact Or.inr ⟨rfl, rfl, rfl⟩
        · exact Or.inl hk
      · exact Or.inl hk
    refine ⟨fun p' d' k hk => ?_, fun p' d' d'' k hk hk' => ?_⟩
    · rcases hmem p' d' k hk with hk | ⟨rfl, -, -⟩
      · exact h.nodes p' d' hk
      · exact hn
    · rcases hmem p' d' k hk with hold | ⟨hkn, hp, hd⟩ <;>
        rcases hmem p' d'' k hk' with hold' | ⟨hkn', hp', hd'⟩
      · exact h.once p' hold hold'
      · rw [hkn', hp'] at hold
        exact absurd hold (hnew d')
      · rw [hkn, hp] at hold'
        exact absurd hold' (hnew d'')
      · rw [hd, hd']

theorem votedOnce_of_run {as : List (Action ν π δ)} (hrun : Run (Next c) init as s) :
    VotedOnce c s :=
  hrun.invariant votedOnce_init fun h hnext => h.next hnext

/-- Nodes that have not voted on a prompt can all vote for the same decision. -/
theorem exists_run_votes {p : π} (d : δ) {A : Finset ν} (hA : A ⊆ c.nodes)
    (hnew : ∀ n ∈ A, ∀ d', n ∉ s.quorum p d') :
    ∃ as t, Run (Next c) s as t ∧
      ∀ d', t.quorum p d' = if d' = d then s.quorum p d ∪ A else s.quorum p d' := by
  induction A using Finset.induction_on with
  | empty =>
    refine ⟨[], s, .nil, fun d' => ?_⟩
    split
    · rename_i heq
      rw [heq, Finset.union_empty]
    · rfl
  | @insert n A hn ih =>
    obtain ⟨as, t, hrun, ht⟩ := ih (fun k hk => hA (Finset.mem_insert_of_mem hk))
      fun k hk => hnew k (Finset.mem_insert_of_mem hk)
    have hfresh : ∀ d', n ∉ t.quorum p d' := by
      intro d' hmem
      have hold := hnew n (Finset.mem_insert_self ..)
      rw [ht] at hmem
      split at hmem
      · rcases Finset.mem_union.mp hmem with hmem | hmem
        · exact hold d hmem
        · exact hn hmem
      · exact hold d' hmem
    have hstep : Next c t (.observe n p d) (observe t n p d) :=
      .observe (hA (Finset.mem_insert_self ..)) hfresh
    refine ⟨_, _, hrun.snoc hstep, fun d' => ?_⟩
    rw [quorum_observe, ht, ht, if_pos rfl]
    by_cases hd : d' = d
    · rw [if_pos ⟨rfl, hd⟩, if_pos hd, Finset.union_insert]
    · rw [if_neg fun h => hd h.2, if_neg hd, if_neg hd]

/-- Two disjoint quorums can vote for two decisions of a prompt. -/
theorem exists_run_unsafe (h2 : 2 * c.quorumThreshold ≤ c.nodes.card) (p : π) {d1 d2 : δ}
    (hne : d1 ≠ d2) : ∃ as t, Run (Next c) (init : State ν π δ) as t ∧ ¬ QuorumSafety c t := by
  obtain ⟨A, hA, hcardA⟩ := Finset.exists_subset_card_eq (s := c.nodes) (n := c.quorumThreshold)
    (by omega)
  obtain ⟨B, hB, hcardB⟩ := Finset.exists_subset_card_eq (s := c.nodes \ A)
    (n := c.quorumThreshold) (by rw [Finset.card_sdiff_of_subset hA]; omega)
  obtain ⟨as, t, hrun, ht⟩ := exists_run_votes (c := c) (s := (init : State ν π δ)) (p := p) d1 hA
    fun _ _ _ => Finset.notMem_empty _
  have ht' : ∀ d', t.quorum p d' = if d' = d1 then A else ∅ := by
    intro d'
    rw [ht]
    show (if d' = d1 then ∅ ∪ A else ∅) = _
    rw [Finset.empty_union]
  obtain ⟨bs, u, hrun', hu⟩ := exists_run_votes (c := c) (s := t) (p := p) d2
    (hB.trans Finset.sdiff_subset) fun n hn d' hmem => by
      rw [ht'] at hmem
      split at hmem
      · exact (Finset.mem_sdiff.mp (hB hn)).2 hmem
      · exact absurd hmem (Finset.notMem_empty _)
  refine ⟨as ++ bs, u, hrun.trans hrun', fun hsafe => hne (hsafe p d1 d2 ?_ ?_)⟩
  · rw [hu, if_neg hne, ht', if_pos rfl, hcardA]
  · rw [hu, if_pos rfl, ht', if_neg hne.symm, Finset.empty_union, hcardB]

/-- Quorums are safe in every reachable state if and only if any two of them share a node, unless there
is nothing to decide. -/
theorem quorumSafety_iff : (∀ as (s : State ν π δ), Run (Next c) init as s → QuorumSafety c s) ↔
    c.nodes.card < 2 * c.quorumThreshold ∨ IsEmpty π ∨ Subsingleton δ := by
  constructor
  · intro hsafe
    by_contra hcon
    simp only [not_or, not_lt, not_isEmpty_iff, not_subsingleton_iff_nontrivial] at hcon
    obtain ⟨hle, ⟨p⟩, d1, d2, hne⟩ := hcon
    obtain ⟨as, t, hrun, ht⟩ := exists_run_unsafe hle p hne
    exact ht (hsafe as t hrun)
  · rintro (hlt | hp | hd) as s hrun p d1 d2 h1 h2
    · by_contra hne
      have hv := votedOnce_of_run hrun
      have hdisj : Disjoint (s.quorum p d1) (s.quorum p d2) :=
        Finset.disjoint_left.mpr fun n hn hn' => hne (hv.once p hn hn')
      have hcard := Finset.card_le_card (Finset.union_subset (hv.nodes p d1) (hv.nodes p d2))
      rw [Finset.card_union_of_disjoint hdisj] at hcard
      omega
    · exact hp.elim p
    · exact Subsingleton.elim d1 d2

end Aimp.Formal

namespace Aimp.Crdt.QuorumManager

open Formal (State)

variable {blake3 : List Byte → Hash32} {q : QuorumManager} {t : ℕ} {V : Finset Hash32}

/-! ## The quorum manager -/

/-- The votes of the manager are those of the specification, and what it has verified has reached
quorum there. -/
structure Votes (q : QuorumManager) (s : State Hash32 Hash32 Hash32) : Prop where
  nodup : ∀ ph dh, (q.votersFor ph dh).Nodup
  voters : ∀ ph dh, s.quorum ph dh = (q.votersFor ph dh).toFinset
  verified : ∀ ph, ph ∈ q.verified ↔ ∃ dh, q.threshold ≤ (s.quorum ph dh).card

/-- The origin of the vote, if the call is one, is in `V`. -/
def QuorumCall.Within (V : Finset Hash32) : QuorumCall → Prop
  | .observe origin _ => origin ∈ V
  | .checkEquivocation _ _ => True

theorem votes_new (ht : 0 < t) : (new t).Votes Formal.init where
  nodup _ _ := List.nodup_nil
  voters _ _ := rfl
  verified _ := iff_of_false List.not_mem_nil fun ⟨_, hle⟩ => absurd hle (by
    show ¬ t ≤ (∅ : Finset Hash32).card
    rw [Finset.card_empty]
    exact Nat.not_le_of_lt ht)

variable {s : State Hash32 Hash32 Hash32}

theorem Votes.sameVotes {q' : QuorumManager} (h : q.Votes s) (hs : q.SameVotes q') : q'.Votes s where
  nodup ph dh := by rw [hs.voters]; exact h.nodup ph dh
  voters ph dh := by rw [hs.voters, h.voters]
  verified ph := by rw [hs.verified, hs.threshold, h.verified]

/-- A vote that is recorded is an `Observe` step. -/
theorem Votes.voted {q' : QuorumManager} {ph dh o : Hash32} {r : Bool} (h : q.Votes s)
    (hv : q.Voted ph dh o q' r) : q'.Votes (Formal.observe s o ph dh) := by
  have hnodup : ∀ ph' dh', (q'.votersFor ph' dh').Nodup := by
    intro ph' dh'
    rw [hv.voters]
    split
    · exact (h.nodup ph dh).insert
    · exact h.nodup ph' dh'
  have hvoters : ∀ ph' dh', (Formal.observe s o ph dh).quorum ph' dh' =
      (q'.votersFor ph' dh').toFinset := by
    intro ph' dh'
    rw [Formal.quorum_observe, hv.voters, h.voters, h.voters]
    split
    · ext v
      simp only [Finset.mem_insert, List.mem_toFinset, List.mem_insert_iff]
    · rfl
  have hcard : ∀ ph' dh', ((Formal.observe s o ph dh).quorum ph' dh').card =
      (q'.votersFor ph' dh').length := by
    intro ph' dh'
    rw [hvoters, List.toFinset_card_of_nodup (hnodup ph' dh')]
  have hold : ∀ ph', ph' ∈ q.verified ↔ ∃ dh', q.threshold ≤ (q.votersFor ph' dh').length := by
    intro ph'
    rw [h.verified]
    simp only [h.voters, List.toFinset_card_of_nodup (h.nodup ph' _)]
  refine ⟨hnodup, hvoters, fun ph' => ?_⟩
  simp only [hcard, hv.threshold, hv.verified, hv.result]
  constructor
  · rintro (hver | ⟨hle, rfl⟩)
    · obtain ⟨dh', hle⟩ := (hold ph').mp hver
      have hne : ph' ≠ ph := fun heq => hv.unverified (heq ▸ hver)
      exact ⟨dh', by rwa [hv.voters, if_neg fun hc => hne hc.1]⟩
    · exact ⟨dh, hle⟩
  · rintro ⟨dh', hle⟩
    by_cases hc : ph' = ph ∧ dh' = dh
    · obtain ⟨rfl, rfl⟩ := hc
      exact Or.inr ⟨hle, rfl⟩
    · rw [hv.voters, if_neg hc] at hle
      exact Or.inl ((hold ph').mpr ⟨dh', hle⟩)

end Aimp.Crdt.QuorumManager
