import Aimp.Formal.BeliefConvergence
import Aimp.Lib.Chaotic
import Mathlib.Algebra.BigOperators.Group.Finset.Basic
import Mathlib.Algebra.Order.BigOperators.Group.Finset

/-!
# Positive propagation in the specification

Trust stays between 0 and 100 in every reachable state. The positive pass is a chaotic iteration: an edge
raises the trust of its target, monotonically in the trust of its source. So it stabilizes in whatever
order the edges are taken, always with the same trust, and this trust can be told in advance: a claim
that the pass moves at all ends with full trust.
-/

namespace Aimp.Formal.Belief

variable {ν κ : Type*}

/-! ## Well-formed states -/

/-- Trust is bounded, and edges are proper and between claims that the node holds. -/
structure WellFormed (s : State ν κ) : Prop where
  trust_le : ∀ n k, s.trust n k ≤ 100
  source : ∀ {n e}, e ∈ s.edges n → e.f ∈ s.claims n
  target : ∀ {n e}, e ∈ s.edges n → e.t ∈ s.claims n
  proper : ∀ {n e}, e ∈ s.edges n → e.f ≠ e.t
  strength : ∀ {n e}, e ∈ s.edges n → e.s ≤ 100

theorem wellFormed_init : WellFormed (init : State ν κ) where
  trust_le _ _ := Nat.zero_le _
  source he := absurd he (Finset.notMem_empty _)
  target he := absurd he (Finset.notMem_empty _)
  proper he := absurd he (Finset.notMem_empty _)
  strength he := absurd he (Finset.notMem_empty _)

theorem propagated_eq (trust : κ → ℕ) (e : Edge κ) :
    propagated trust e = min 100 (trust e.t + trust e.f * e.s / 100) := by
  simp only [propagated]
  split <;> omega

theorem propagated_le (trust : κ → ℕ) (e : Edge κ) : propagated trust e ≤ 100 := by
  simp [propagated_eq]

theorem contradicted_le (cap : ℕ) (trust : κ → ℕ) (e : Edge κ) :
    contradicted cap trust e ≤ trust e.t := by
  have h : ∀ penalty, (if penalty < trust e.t then trust e.t - penalty else 0) ≤ trust e.t := by
    intro penalty
    split <;> omega
  exact h _

section Steps

variable [DecidableEq ν] [DecidableEq κ] {c : Constants ν}

theorem trust_setTrust (s : State ν κ) (n m : ν) (k l : κ) (v : ℕ) :
    (setTrust s n k v).trust m l = if m = n ∧ l = k then v else s.trust m l := by
  by_cases hm : m = n
  · subst hm
    by_cases hl : l = k <;> simp [setTrust, hl]
  · simp [setTrust, hm]

/-- Setting one trust value keeps a state well-formed. -/
theorem WellFormed.setTrust {s : State ν κ} (h : WellFormed s) (n : ν) (k : κ) {v : ℕ}
    (hv : v ≤ 100) : WellFormed (setTrust s n k v) where
  trust_le m l := by
    rw [trust_setTrust]
    split
    · exact hv
    · exact h.trust_le m l
  source := h.source
  target := h.target
  proper := h.proper
  strength := h.strength

theorem claims_addClaim (s : State ν κ) (n m : ν) (k : κ) (v : ℕ) :
    (addClaim s n k v).claims m = if m = n then insert k (s.claims n) else s.claims m := by
  simp [addClaim, Function.update_apply]

theorem subset_claims_addClaim (s : State ν κ) (n m : ν) (k : κ) (v : ℕ) :
    s.claims m ⊆ (addClaim s n k v).claims m := by
  rw [claims_addClaim]
  split
  · rename_i hm
    rw [hm]
    exact Finset.subset_insert _ _
  · exact subset_rfl

theorem edges_addEdge (s : State ν κ) (n m : ν) (e : Edge κ) :
    (addEdge s n e).edges m = if m = n then insert e (s.edges n) else s.edges m := by
  simp [addEdge, Function.update_apply]

theorem claims_replicate (s : State ν κ) (src dst m : ν) :
    (replicate s src dst).claims m =
      if m = dst then s.claims dst ∪ s.claims src else s.claims m := by
  simp [replicate, Function.update_apply]

theorem edges_replicate (s : State ν κ) (src dst m : ν) :
    (replicate s src dst).edges m = if m = dst then s.edges dst ∪ s.edges src else s.edges m := by
  simp [replicate, Function.update_apply]

theorem trust_replicate (s : State ν κ) (src dst m : ν) (k : κ) :
    (replicate s src dst).trust m k =
      if m = dst ∧ k ∈ s.claims src ∧ k ∉ s.claims dst then s.trust src k else s.trust m k := by
  by_cases hm : m = dst
  · subst hm
    simp [replicate]
  · simp [replicate, hm]

theorem WellFormed.addClaim {s : State ν κ} (h : WellFormed s) (n : ν) (k : κ) {v : ℕ}
    (hv : v ≤ 100) : WellFormed (addClaim s n k v) where
  trust_le := (h.setTrust n k hv).trust_le
  source he := subset_claims_addClaim s n _ k v (h.source he)
  target he := subset_claims_addClaim s n _ k v (h.target he)
  proper := h.proper
  strength := h.strength

/-- An edge of a node is a new one or was there before. -/
theorem mem_edges_addEdge {s : State ν κ} {n m : ν} {e e' : Edge κ}
    (h : e' ∈ (addEdge s n e).edges m) : (e' = e ∧ m = n) ∨ e' ∈ s.edges m := by
  rw [edges_addEdge] at h
  split at h
  · rename_i hm
    subst hm
    rcases Finset.mem_insert.mp h with rfl | h
    · exact Or.inl ⟨rfl, rfl⟩
    · exact Or.inr h
  · exact Or.inr h

theorem WellFormed.addEdge {s : State ν κ} (h : WellFormed s) {n : ν} {e : Edge κ}
    (hf : e.f ∈ s.claims n) (ht : e.t ∈ s.claims n) (hne : e.f ≠ e.t) (hs : e.s ≤ 100) :
    WellFormed (addEdge s n e) where
  trust_le := h.trust_le
  source he := by
    rcases mem_edges_addEdge he with ⟨rfl, rfl⟩ | he
    · exact hf
    · exact h.source he
  target he := by
    rcases mem_edges_addEdge he with ⟨rfl, rfl⟩ | he
    · exact ht
    · exact h.target he
  proper he := by
    rcases mem_edges_addEdge he with ⟨rfl, -⟩ | he
    · exact hne
    · exact h.proper he
  strength he := by
    rcases mem_edges_addEdge he with ⟨rfl, -⟩ | he
    · exact hs
    · exact h.strength he

theorem mem_edges_replicate {s : State ν κ} {src dst m : ν} {e : Edge κ}
    (h : e ∈ (replicate s src dst).edges m) : e ∈ s.edges m ∨ (m = dst ∧ e ∈ s.edges src) := by
  rw [edges_replicate] at h
  split at h
  · rename_i hm
    subst hm
    exact (Finset.mem_union.mp h).imp_right fun h => ⟨rfl, h⟩
  · exact Or.inl h

theorem subset_claims_replicate (s : State ν κ) (src dst m : ν) :
    s.claims m ⊆ (replicate s src dst).claims m := by
  rw [claims_replicate]
  split
  · rename_i hm
    rw [hm]
    exact Finset.subset_union_left
  · exact subset_rfl

theorem subset_claims_replicate_dst (s : State ν κ) (src dst : ν) :
    s.claims src ⊆ (replicate s src dst).claims dst := by
  rw [claims_replicate, if_pos rfl]
  exact Finset.subset_union_right

theorem WellFormed.replicate {s : State ν κ} (h : WellFormed s) (src dst : ν) :
    WellFormed (replicate s src dst) where
  trust_le m k := by
    rw [trust_replicate]
    split
    · exact h.trust_le src k
    · exact h.trust_le m k
  source he := by
    rcases mem_edges_replicate he with he' | ⟨rfl, he'⟩
    · exact subset_claims_replicate s src dst _ (h.source he')
    · exact subset_claims_replicate_dst s src _ (h.source he')
  target he := by
    rcases mem_edges_replicate he with he' | ⟨rfl, he'⟩
    · exact subset_claims_replicate s src dst _ (h.target he')
    · exact subset_claims_replicate_dst s src _ (h.target he')
  proper he := (mem_edges_replicate he).elim h.proper fun h' => h.proper h'.2
  strength he := (mem_edges_replicate he).elim h.strength fun h' => h.strength h'.2

theorem WellFormed.next {s t : State ν c.ClaimIds} {a : Action ν c.ClaimIds} (h : WellFormed s)
    (hnext : Next c s a t) : WellFormed t := by
  cases hnext with
  | addClaim _ _ _ htrust => exact h.addClaim _ _ htrust
  | addEdge _ hf ht hne hs => exact h.addEdge hf ht hne hs
  | replicate => exact h.replicate _ _
  | propagatePositive => exact h.setTrust _ _ (propagated_le _ _)
  | applyContradiction => exact h.setTrust _ _ ((contradicted_le _ _ _).trans (h.trust_le _ _))
  | classify => exact ⟨h.trust_le, h.source, h.target, h.proper, h.strength⟩

theorem wellFormed_of_run {as : List (Action ν c.ClaimIds)} {s : State ν c.ClaimIds}
    (hrun : Run (Next c) init as s) : WellFormed s :=
  hrun.invariant wellFormed_init fun h hnext => h.next hnext

/-! ## The positive pass -/

/-- The edges that the positive pass uses. -/
def supporting (es : Finset (Edge κ)) : Finset (Edge κ) := es.filter fun e => e.tp = .supports

omit [DecidableEq κ] in
theorem mem_supporting {es : Finset (Edge κ)} {e : Edge κ} :
    e ∈ supporting es ↔ e ∈ es ∧ e.tp = .supports :=
  Finset.mem_filter

/-- What an edge does to the trust of a node in the positive pass. -/
def lift (es : Finset (Edge κ)) (e : Edge κ) (trust : κ → ℕ) : κ → ℕ :=
  if e ∈ supporting es then Function.update trust e.t (propagated trust e) else trust

theorem lift_mono (es : Finset (Edge κ)) (e : Edge κ) : Monotone (lift es e) := by
  intro v w hvw
  unfold lift
  split
  · refine update_le_update_iff.mpr ⟨?_, fun k _ => hvw k⟩
    rw [propagated_eq, propagated_eq]
    have hbonus : v e.f * e.s / 100 ≤ w e.f * e.s / 100 :=
      Nat.div_le_div_right (Nat.mul_le_mul_right _ (hvw e.f))
    exact min_le_min le_rfl (Nat.add_le_add (hvw e.t) hbonus)
  · exact hvw

theorem lt_lift_iff {es : Finset (Edge κ)} {e : Edge κ} {v : κ → ℕ} :
    v < lift es e v ↔ e ∈ supporting es ∧ v e.t < propagated v e := by
  unfold lift
  split
  · rename_i he
    rw [lt_update_self_iff]
    exact (and_iff_right he).symm
  · rename_i he
    exact iff_of_false (lt_irrefl v) fun h => he h.1

/-- `PropagatePositive` at a node is a move of the chaotic iteration on its trust. -/
theorem propagatePositive_iff {s t : State ν c.ClaimIds} (h : WellFormed s) {n : ν}
    {e : Edge c.ClaimIds} : Next c s (.propagatePositive n e) t ↔
      n ∈ c.nodes ∧ t = { s with trust := Function.update s.trust n (t.trust n) } ∧
        Chaotic.Move (lift (s.edges n)) (s.trust n) e (t.trust n) := by
  constructor
  · intro hnext
    cases hnext with
    | propagatePositive hn he htp _ _ _ hinc =>
      have hmem := mem_supporting.mpr ⟨he, htp⟩
      have hlift : lift (s.edges n) e (s.trust n) =
          Function.update (s.trust n) e.t (propagated (s.trust n) e) := if_pos hmem
      refine ⟨hn, ?_, ?_, ?_⟩
      · simp [setTrust]
      · simp [setTrust, hlift]
      · simpa [setTrust] using hinc
  · rintro ⟨hn, ht, hmove, hlt⟩
    have hup := hlt
    rw [hmove, lt_lift_iff] at hup
    obtain ⟨hmem, hinc⟩ := hup
    obtain ⟨he, htp⟩ := mem_supporting.mp hmem
    have hpos : 0 < s.trust n e.f := by
      by_contra hzero
      rw [propagated_eq, Nat.eq_zero_of_not_pos hzero] at hinc
      omega
    have hstep := Next.propagatePositive (c := c) hn he htp (h.source he) (h.target he) hpos hinc
    rw [ht, hmove, lift, if_pos hmem]
    exact hstep

/-- A run of the positive pass at a node changes nothing but the trust of the node, and is a run of the
chaotic iteration. -/
theorem move_of_propagate {s t : State ν c.ClaimIds} (h : WellFormed s) {n : ν}
    {es : List (Edge c.ClaimIds)} (hrun : Run (Next c) s (es.map (.propagatePositive n)) t) :
    t = { s with trust := Function.update s.trust n (t.trust n) } ∧
      Run (Chaotic.Move (lift (s.edges n))) (s.trust n) es (t.trust n) := by
  induction es using List.reverseRecOn generalizing t with
  | nil =>
    generalize hl : ([] : List (Edge c.ClaimIds)).map (Action.propagatePositive n) = as at hrun
    cases hrun with
    | nil => exact ⟨by simp, .nil⟩
    | snoc => simp at hl
  | append_singleton es e ih =>
    rw [List.map_append] at hrun
    obtain ⟨u, hrun, hlast⟩ := hrun.concat_inv
    obtain ⟨hu, hmoves⟩ := ih hrun
    have hwf : WellFormed u := hrun.invariant h fun h hnext => h.next hnext
    obtain ⟨-, ht, hmove⟩ := (propagatePositive_iff hwf).mp hlast
    have hedges : u.edges n = s.edges n := by rw [hu]
    rw [hedges] at hmove
    refine ⟨?_, hmoves.snoc hmove⟩
    rw [ht, hu]
    simp

/-- A run of the chaotic iteration is one of the positive pass. -/
theorem propagate_of_move {s : State ν c.ClaimIds} (h : WellFormed s) {n : ν} (hn : n ∈ c.nodes)
    {es : List (Edge c.ClaimIds)} {v : c.ClaimIds → ℕ}
    (hrun : Run (Chaotic.Move (lift (s.edges n))) (s.trust n) es v) :
    Run (Next c) s (es.map (.propagatePositive n))
      { s with trust := Function.update s.trust n v } := by
  induction hrun with
  | nil => simpa using Run.nil
  | @snoc es e v w _ hmove ih =>
    have hwf := ih.invariant h fun h hnext => h.next hnext
    rw [List.map_append]
    refine ih.snoc ((propagatePositive_iff hwf).mpr ⟨hn, ?_, ?_⟩)
    · simp
    · simpa using hmove

/-- Pass 1 has stabilized when no operator of the iteration raises the trust. -/
theorem stable_iff {s : State ν c.ClaimIds} (h : WellFormed s) {n : ν} (hn : n ∈ c.nodes) :
    Stable c s n ↔ ∀ e, lift (s.edges n) e (s.trust n) ≤ s.trust n := by
  have hle : ∀ e, s.trust n ≤ lift (s.edges n) e (s.trust n) := by
    intro e
    unfold lift
    split
    · refine le_update_iff.mpr ⟨?_, fun _ _ => le_rfl⟩
      have := h.trust_le n e.t
      rw [propagated_eq]
      omega
    · exact le_rfl
  constructor
  · intro hstable e
    by_contra hnot
    have hmove : Chaotic.Move (lift (s.edges n)) (s.trust n) e (lift (s.edges n) e (s.trust n)) :=
      ⟨rfl, lt_of_le_not_ge (hle e) hnot⟩
    refine hstable e
      { s with trust := Function.update s.trust n (lift (s.edges n) e (s.trust n)) }
      ((propagatePositive_iff h).mpr ⟨hn, ?_, ?_⟩)
    · simp
    · simpa using hmove
  · intro hkeep e t hnext
    obtain ⟨-, -, hmove, hlt⟩ := (propagatePositive_iff h).mp hnext
    rw [hmove] at hlt
    exact hlt.not_ge (hkeep e)

/-! ## What the positive pass moves -/

/-- The claims that the positive pass moves, or could: some edge gives the target a bonus at once, or
comes from such a claim with any strength. -/
inductive Boosted (es : Finset (Edge κ)) (trust : κ → ℕ) : κ → Prop where
  | first {e : Edge κ} (he : e ∈ supporting es) (hbonus : 100 ≤ trust e.f * e.s) :
      Boosted es trust e.t
  | next {e : Edge κ} (he : e ∈ supporting es) (hs : 0 < e.s) (hf : Boosted es trust e.f) :
      Boosted es trust e.t

/-- Any trust that no edge raises is full on the boosted claims. -/
theorem Boosted.full {es : Finset (Edge κ)} {v z : κ → ℕ}
    (hz : z ∈ Chaotic.closedAbove (lift es) v) {k : κ} (hk : Boosted es v k) : 100 ≤ z k := by
  have hraise : ∀ e ∈ supporting es, 100 ≤ z e.f * e.s → 100 ≤ z e.t := by
    intro e he hbonus
    have hkeep := hz.2 e
    rw [lift, if_pos he, update_le_self_iff, propagated_eq] at hkeep
    omega
  induction hk with
  | first he hbonus => exact hraise _ he (hbonus.trans (Nat.mul_le_mul_right _ (hz.1 _)))
  | next he hs _ ih => exact hraise _ he (ih.trans (Nat.le_mul_of_pos_right _ hs))

open Classical in
/-- Full trust on the boosted claims and the trust from before on the others is kept by all edges. -/
theorem boosted_closed {es : Finset (Edge κ)} {v : κ → ℕ} (hv : ∀ k, v k ≤ 100) :
    (fun k => if Boosted es v k then 100 else v k) ∈ Chaotic.closedAbove (lift es) v := by
  constructor
  · intro k
    dsimp only
    split
    · exact hv k
    · exact le_rfl
  · intro e
    unfold lift
    split
    · rename_i he
      rw [update_le_self_iff, propagated_eq]
      split
      · omega
      · rename_i ht
        have hbonus : (if Boosted es v e.f then 100 else v e.f) * e.s / 100 = 0 := by
          split
          · rename_i hf
            have hs : e.s = 0 := Nat.eq_zero_of_not_pos fun hs => ht (.next he hs hf)
            simp [hs]
          · have hlt : v e.f * e.s < 100 := Nat.lt_of_not_le fun hle => ht (.first he hle)
            omega
        omega
    · exact le_rfl

omit [DecidableEq ν] in
theorem sum_trust_le {s : State ν c.ClaimIds} (h : WellFormed s) (n : ν) :
    ∑ k, s.trust n k ≤ 100 * c.maxClaims := by
  have hcard : Fintype.card c.ClaimIds = c.maxClaims := by simp
  calc ∑ k, s.trust n k ≤ ∑ _k : c.ClaimIds, 100 := Finset.sum_le_sum fun k _ => h.trust_le n k
    _ = Fintype.card c.ClaimIds * 100 := Finset.sum_const_nat fun _ _ => rfl
    _ = 100 * c.maxClaims := by rw [hcard, mul_comm]

/-- In every reachable state the trust is bounded, and the positive pass at a node stabilizes: every run
of it is short, one that goes on until it has stabilized exists, and wherever such a run ends, in whatever
order it has taken the edges, the boosted claims of the node have full trust and nothing else has
changed. -/
theorem propagatePositive_converges {as : List (Action ν c.ClaimIds)} {s : State ν c.ClaimIds}
    (hrun : Run (Next c) init as s) {n : ν} (hn : n ∈ c.nodes) :
    TrustBounded c s ∧
    (∀ (es : List (Edge c.ClaimIds)) t, Run (Next c) s (es.map (.propagatePositive n)) t →
      es.length + ∑ k, s.trust n k ≤ 100 * c.maxClaims) ∧
    (∃ (es : List (Edge c.ClaimIds)) (t : State ν c.ClaimIds),
      Run (Next c) s (es.map (.propagatePositive n)) t ∧ Stable c t n) ∧
    ∀ (es : List (Edge c.ClaimIds)) t, Run (Next c) s (es.map (.propagatePositive n)) t →
      Stable c t n →
      t = { s with trust := Function.update s.trust n (t.trust n) } ∧
      ∀ k, (Boosted (s.edges n) (s.trust n) k → t.trust n k = 100) ∧
        (¬ Boosted (s.edges n) (s.trust n) k → t.trust n k = s.trust n k) := by
  have hwf := wellFormed_of_run hrun
  have hμ : StrictMono fun v : c.ClaimIds → ℕ => ∑ k, v k := Fintype.sum_strictMono
  have hbound : ∀ es v, Run (Chaotic.Move (lift (s.edges n))) (s.trust n) es v →
      ∑ k, v k ≤ 100 * c.maxClaims := by
    intro es v hmoves
    have h := (propagate_of_move hwf hn hmoves).invariant hwf fun h hnext => h.next hnext
    simpa using sum_trust_le h n
  refine ⟨fun m _ k => hwf.trust_le m k, ?_, ?_, ?_⟩
  · intro es t hpass
    obtain ⟨-, hmoves⟩ := move_of_propagate hwf hpass
    exact (Chaotic.length_add_le hμ hmoves).trans (hbound _ _ hmoves)
  · obtain ⟨es, v, hmoves, hstuck⟩ := Chaotic.exists_stuck hμ hbound
    have hpass := propagate_of_move hwf hn hmoves
    refine ⟨es, _, hpass, ?_⟩
    intro e t hnext
    have h := hpass.invariant hwf fun h hnext => h.next hnext
    obtain ⟨-, -, hmove, hlt⟩ := (propagatePositive_iff h).mp hnext
    rw [hmove] at hlt
    exact hstuck e (by simpa using hlt)
  · intro es t hpass hstable
    have ht := hpass.invariant hwf fun h hnext => h.next hnext
    obtain ⟨hframe, hmoves⟩ := move_of_propagate hwf hpass
    have hedges : t.edges n = s.edges n := by rw [hframe]
    have hleast := Chaotic.isLeast_of_run (lift_mono _) hmoves
      (by simpa [hedges] using (stable_iff ht hn).mp hstable)
    refine ⟨hframe, fun k => ⟨fun hk => ?_, fun hk => ?_⟩⟩
    · exact le_antisymm (ht.trust_le n k) (hk.full hleast.1)
    · have hle := hleast.2 (boosted_closed (hwf.trust_le n)) k
      rw [if_neg hk] at hle
      exact le_antisymm hle (hleast.1.1 k)

end Steps

/-! ## Two linked claims -/

section Linked

variable [DecidableEq ν] [DecidableEq κ] {c : Constants ν}

/-- A node learns two claims and an edge from the first to the second. -/
def linked (s : State ν κ) (n : ν) (v w : ℕ) (e : Edge κ) : State ν κ :=
  addEdge (addClaim (addClaim s n e.f v) n e.t w) n e

theorem trust_linked {s : State ν κ} {n : ν} {v w : ℕ} {e : Edge κ} (hne : e.f ≠ e.t) :
    (linked s n v w e).trust n e.f = v ∧ (linked s n v w e).trust n e.t = w := by
  simp [linked, addEdge, addClaim, setTrust, hne]

theorem claims_linked (s : State ν κ) (n : ν) (v w : ℕ) (e : Edge κ) :
    (linked s n v w e).claims n = insert e.t (insert e.f (s.claims n)) := by
  simp [linked, addEdge, addClaim]

theorem edges_linked (s : State ν κ) (n : ν) (v w : ℕ) (e : Edge κ) :
    (linked s n v w e).edges n = insert e (s.edges n) := by
  simp [linked, addEdge, addClaim, setTrust]

/-- There is always room for a claim that the node does not hold. -/
theorem next_addClaim {s : State ν c.ClaimIds} {n : ν} {k : c.ClaimIds} {v : ℕ} (hn : n ∈ c.nodes)
    (hnew : k ∉ s.claims n) (hv : v ≤ 100) : Next c s (.addClaim n k v) (addClaim s n k v) := by
  refine .addClaim hn hnew ?_ hv
  have hlt := Finset.card_lt_univ_of_notMem hnew
  have hcard : Fintype.card c.ClaimIds = c.maxClaims := by simp
  omega

theorem run_linked {s : State ν c.ClaimIds} {n : ν} {v w : ℕ} {e : Edge c.ClaimIds}
    (hn : n ∈ c.nodes) (hclaims : s.claims n = ∅) (hedges : (s.edges n).card < c.maxEdges)
    (hv : v ≤ 100) (hw : w ≤ 100) (hne : e.f ≠ e.t) (hs : e.s ≤ 100) :
    Run (Next c) s [.addClaim n e.f v, .addClaim n e.t w, .addEdge n e] (linked s n v w e) := by
  have hadd : Next c s (.addClaim n e.f v) (addClaim s n e.f v) :=
    next_addClaim hn (by simp [hclaims]) hv
  have hadd' : Next c (addClaim s n e.f v) (.addClaim n e.t w)
      (addClaim (addClaim s n e.f v) n e.t w) :=
    next_addClaim hn (by simp [claims_addClaim, hclaims, hne.symm]) hw
  refine ((Run.single hadd).snoc hadd').snoc (.addEdge hn ?_ ?_ hne hs ?_)
  · simp [claims_addClaim]
  · simp [claims_addClaim]
  · simpa [addClaim, setTrust] using hedges

/-- A claim that is supported with half the trust of another one: the positive pass gives it full
trust. -/
theorem propagatePositive_converges_support :
    let e : Edge Constants.cfg.ClaimIds := ⟨⟨1, by decide⟩, ⟨2, by decide⟩, .supports, 50⟩
    ∃ (es : List (Edge Constants.cfg.ClaimIds)) (t : State (Fin 3) Constants.cfg.ClaimIds),
      Run (Next Constants.cfg) (linked init 0 80 10 e) (es.map (.propagatePositive 0)) t ∧
        t.trust 0 e.t = 100 := by
  intro e
  have hne : e.f ≠ e.t := by decide
  have hn : (0 : Fin 3) ∈ Constants.cfg.nodes := Finset.mem_univ 0
  have hrun := run_linked (s := init) hn rfl (by decide) (v := 80) (w := 10) (by omega) (by omega)
    hne (by decide)
  obtain ⟨-, -, ⟨es, t, hpass, hstable⟩, hend⟩ := propagatePositive_converges hrun hn
  refine ⟨es, t, hpass, ((hend es t hpass hstable).2 e.t).1 (Boosted.first (e := e) ?_ ?_)⟩
  · rw [edges_linked, mem_supporting]
    exact ⟨Finset.mem_insert_self _ _, rfl⟩
  · rw [(trust_linked hne).1]
    decide

end Linked

end Aimp.Formal.Belief
