import Aimp.Formal.Proofs.BeliefConvergenceProofs
import Mathlib.Tactic.TFAE

/-!
# The safety properties of the belief specification

For which constants the properties hold that the specification names. Beliefs are compared at any time,
also when only one of two nodes has classified its claims. The damping cap decides whether one
contradiction can overturn an accepted claim. Contradictions do trigger new rounds of positive
propagation.
-/

namespace Aimp.Formal.Belief

variable {ν : Type*} [DecidableEq ν] {c : Constants ν}

/-! ## Belief determinism -/

omit [DecidableEq ν] in
theorem classOf_zero {held : Finset c.ClaimIds} {trust : c.ClaimIds → ℕ} {k : c.ClaimIds}
    (hk : k ∈ held) (hzero : trust k = 0) : c.classOf held trust k ≠ .uncertain := by
  simp only [Constants.classOf, hk, hzero, not_true_eq_false, if_false, Nat.zero_le, if_true]
  split <;> simp

/-- Of two nodes that hold the same claim with no trust, one classifies it. -/
theorem exists_run_undetermined {a b : ν} (ha : a ∈ c.nodes) (hb : b ∈ c.nodes) (hab : a ≠ b)
    (k : c.ClaimIds) : ∃ as s, Run (Next c) init as s ∧ ¬ BeliefDeterminism c s := by
  let s := addClaim (addClaim init a k 0) b k 0
  have hrun : Run (Next c) init [.addClaim a k 0, .addClaim b k 0, .classify a]
      (c.classify s a) := by
    have hadd : Next c init (.addClaim a k 0) (addClaim init a k 0) :=
      next_addClaim ha (Finset.notMem_empty _) (Nat.zero_le _)
    have hadd' : Next c (addClaim init a k 0) (.addClaim b k 0) s :=
      next_addClaim hb (by simp [claims_addClaim, init, hab.symm]) (Nat.zero_le _)
    exact ((Run.single hadd).snoc hadd').snoc (.classify ha)
  refine ⟨_, _, hrun, fun hdet => ?_⟩
  have hclaims : s.claims a = s.claims b := by
    simp [s, claims_addClaim, init, hab, hab.symm]
  have htrust : s.trust a = s.trust b := by
    funext l
    simp [s, addClaim, trust_setTrust, init]
  have hbelief := congrFun (hdet a ha b hb hclaims rfl htrust) k
  have ha' : (c.classify s a).belief a k = c.classOf (s.claims a) (s.trust a) k := by
    simp [Constants.classify]
  have hb' : (c.classify s a).belief b k = .uncertain := by
    simp [Constants.classify, hab.symm, s, addClaim, setTrust, init]
  rw [ha', hb'] at hbelief
  refine classOf_zero ?_ ?_ hbelief
  · simp [s, claims_addClaim, hab]
  · simp [s, addClaim, trust_setTrust, init]

/-- Nodes with equal claims, edges and trust have equal beliefs in every reachable state if and only if
there are no two nodes to compare, or no claims. -/
theorem beliefDeterminism_iff :
    (∀ as (s : State ν c.ClaimIds), Run (Next c) init as s → BeliefDeterminism c s) ↔
      c.nodes.card ≤ 1 ∨ c.maxClaims = 0 := by
  constructor
  · intro hdet
    by_contra hcon
    obtain ⟨hcard, hmax⟩ := not_or.mp hcon
    obtain ⟨a, ha, b, hb, hab⟩ := Finset.one_lt_card.mp (Nat.lt_of_not_le hcard)
    obtain ⟨as, s, hrun, hnot⟩ := exists_run_undetermined ha hb hab
      ⟨1, Finset.mem_Icc.mpr ⟨le_rfl, Nat.pos_of_ne_zero hmax⟩⟩
    exact hnot (hdet as s hrun)
  · rintro (hcard | hmax) as s - a ha b hb - - -
    · rw [Finset.card_le_one.mp hcard a ha b hb]
    · funext ⟨k, hk⟩
      have := Finset.mem_Icc.mp hk
      omega

/-! ## Contradiction safety -/

omit [DecidableEq ν] in
/-- Two different claims. -/
theorem exists_two_claims (hclaims : 2 ≤ c.maxClaims) : ∃ k l : c.ClaimIds, k ≠ l :=
  ⟨⟨1, by simp; omega⟩, ⟨2, by simp; omega⟩, by simp⟩

/-- With more trust before, more is left by a contradiction that takes as much as it can. -/
theorem remaining_mono {cap v w : ℕ} (hcap : cap ≤ 100) (hvw : v ≤ w) :
    (v : ℤ) - (v * cap / 100 : ℕ) ≤ (w : ℤ) - (w * cap / 100 : ℕ) := by
  obtain ⟨d, rfl⟩ := Nat.exists_eq_add_of_le hvw
  have hd : (v + d) * cap ≤ v * cap + d * 100 := by
    rw [Nat.add_mul]
    exact Nat.add_le_add_left (Nat.mul_le_mul_left d hcap) _
  have hdiv : (v + d) * cap / 100 ≤ v * cap / 100 + d := by
    have h := Nat.div_le_div_right (c := 100) hd
    rwa [Nat.add_mul_div_right _ _ (by omega)] at h
  omega

omit [DecidableEq ν] in
/-- A contradiction takes at most the capped share of a positive trust. -/
theorem le_contradicted (cap : ℕ) {trust : c.ClaimIds → ℕ} {e : Edge c.ClaimIds}
    (hpos : 0 < trust e.t) :
    (trust e.t : ℤ) - (trust e.t * cap / 100 : ℕ) ≤ contradicted cap trust e := by
  simp only [contradicted, if_pos hpos]
  split <;> split <;> omega

omit [DecidableEq ν] in
/-- A contradiction from a fully trusted claim with full strength takes all that it can. -/
theorem contradicted_full (cap : ℕ) {trust : c.ClaimIds → ℕ} {e : Edge c.ClaimIds}
    (hpos : 0 < trust e.t) (hle : trust e.t ≤ 100) (hf : trust e.f = 100) (hs : e.s = 100) :
    contradicted cap trust e = trust e.t - trust e.t * cap / 100 := by
  simp only [contradicted, if_pos hpos, hf, hs]
  split <;> split <;> omega

theorem safe_of_remaining {cap accept reject : ℕ}
    (h : 100 < accept ∨ (reject : ℤ) < (accept : ℤ) - (accept * cap / 100 : ℕ)) {v : ℕ}
    (hv : v ≤ 100) (haccept : accept ≤ v) : (reject : ℤ) < (v : ℤ) - (v * cap / 100 : ℕ) := by
  rcases h with h | h
  · omega
  · by_cases hcap : cap ≤ 100
    · exact h.trans_le (remaining_mono hcap haccept)
    · have hmul : accept * 100 ≤ accept * cap := Nat.mul_le_mul_left _ (by omega)
      omega

omit [DecidableEq ν] in
theorem classOf_eq_accepted {held : Finset c.ClaimIds} {trust : c.ClaimIds → ℕ} {k : c.ClaimIds} :
    c.classOf held trust k = .accepted ↔ k ∈ held ∧ c.acceptThreshold ≤ trust k := by
  unfold Constants.classOf
  split_ifs <;> simp_all

omit [DecidableEq ν] in
theorem classOf_eq_rejected {held : Finset c.ClaimIds} {trust : c.ClaimIds → ℕ} {k : c.ClaimIds} :
    c.classOf held trust k = .rejected ↔
      k ∈ held ∧ trust k < c.acceptThreshold ∧ trust k ≤ c.rejectThreshold := by
  unfold Constants.classOf
  split_ifs <;> simp_all

/-- A fully trusted claim overturns one that is just accepted, if the damping cap leaves too little. -/
theorem exists_run_overturned {n : ν} (hn : n ∈ c.nodes) (hclaims : 2 ≤ c.maxClaims)
    (hedges : 1 ≤ c.maxEdges) (hlt : c.rejectThreshold < c.acceptThreshold)
    (hle : c.acceptThreshold ≤ 100)
    (hloose : ¬ (c.rejectThreshold : ℤ) <
      (c.acceptThreshold : ℤ) - (c.acceptThreshold * c.dampingCap / 100 : ℕ)) :
    ∃ as s t e, Run (Next c) init as s ∧ Next c s (.applyContradiction n e) t ∧
      c.classOf (s.claims n) (s.trust n) e.t = .accepted ∧
      c.classOf (t.claims n) (t.trust n) e.t = .rejected := by
  obtain ⟨k, l, hkl⟩ := exists_two_claims hclaims
  let e : Edge c.ClaimIds := ⟨k, l, .contradicts, 100⟩
  let s : State ν c.ClaimIds := linked init n 100 c.acceptThreshold e
  have hrun : Run (Next c) init _ s :=
    run_linked (e := e) hn rfl (by simp [init]; omega) le_rfl hle hkl le_rfl
  obtain ⟨hf, ht⟩ : s.trust n e.f = 100 ∧ s.trust n e.t = c.acceptThreshold := trust_linked hkl
  have hheld : s.claims n = insert e.t (insert e.f ∅) := claims_linked ..
  have hmem : e ∈ s.edges n := by
    simp [s, edges_linked]
  have hstep : Next c s (.applyContradiction n e)
      (setTrust s n e.t (contradicted c.dampingCap (s.trust n) e)) :=
    .applyContradiction hn hmem rfl (by simp [hheld]) (by simp [hheld]) (by omega)
  have hafter : contradicted c.dampingCap (s.trust n) e =
      s.trust n e.t - s.trust n e.t * c.dampingCap / 100 :=
    contradicted_full _ (by omega) (by omega) hf rfl
  refine ⟨_, s, _, e, hrun, hstep, ?_, ?_⟩
  · exact classOf_eq_accepted.mpr ⟨by simp [hheld], ht.ge⟩
  · rw [classOf_eq_rejected, trust_setTrust, if_pos ⟨rfl, rfl⟩, hafter, ht]
    exact ⟨by simp [setTrust, hheld], by omega, by omega⟩

/-- If there is a node with room for an edge between two claims, and what is rejected is not accepted,
then these are equivalent: the safety property holds in every reachable state; from no reachable state
does a single contradiction turn an accepted claim into a rejected one; the most that a contradiction can
take from a claim that is just accepted leaves it above the threshold for rejection. -/
theorem contradictionSafety_tfae (hnodes : c.nodes.Nonempty) (hclaims : 2 ≤ c.maxClaims)
    (hedges : 1 ≤ c.maxEdges) (hlt : c.rejectThreshold < c.acceptThreshold) :
    List.TFAE [
      ∀ as (s : State ν c.ClaimIds), Run (Next c) init as s → ContradictionSafety c s,
      ∀ as (s t : State ν c.ClaimIds) n e, Run (Next c) init as s →
        Next c s (.applyContradiction n e) t → ∀ m k,
        c.classOf (s.claims m) (s.trust m) k = .accepted →
        c.classOf (t.claims m) (t.trust m) k ≠ .rejected,
      100 < c.acceptThreshold ∨ (c.rejectThreshold : ℤ) <
        (c.acceptThreshold : ℤ) - (c.acceptThreshold * c.dampingCap / 100 : ℕ)] := by
  obtain ⟨n, hn⟩ := hnodes
  tfae_have 3 → 1 := by
    intro h as s hrun m _ k haccept
    exact safe_of_remaining h ((wellFormed_of_run hrun).trust_le m k) haccept
  tfae_have 1 → 3 := by
    intro h
    by_contra hcon
    obtain ⟨hle, hloose⟩ := not_or.mp hcon
    let k : c.ClaimIds := ⟨1, by simp; omega⟩
    have hrun := Run.single (next_addClaim (s := init) (k := k) hn (Finset.notMem_empty _)
      (Nat.le_of_not_lt hle))
    have htrust : (addClaim init n k c.acceptThreshold).trust n k = c.acceptThreshold := by
      simp [addClaim, trust_setTrust]
    have hsafe := h _ _ hrun n hn k (by rw [htrust])
    rw [htrust] at hsafe
    exact hloose hsafe
  tfae_have 3 → 2 := by
    intro h as s t m e hrun hstep m' k hbefore hafter
    cases hstep with
    | applyContradiction _ _ _ _ _ _ =>
      have haccept := (classOf_eq_accepted.mp hbefore).2
      have hreject := (classOf_eq_rejected.mp hafter).2.2
      rw [trust_setTrust] at hreject
      split at hreject
      · rename_i heq
        obtain ⟨rfl, rfl⟩ := heq
        have hsafe := safe_of_remaining h ((wellFormed_of_run hrun).trust_le m' e.t) haccept
        have hleft := le_contradicted c.dampingCap ((Nat.zero_lt_of_lt hlt).trans_le haccept)
        omega
      · omega
  tfae_have 2 → 3 := by
    intro h
    by_contra hcon
    obtain ⟨hle, hloose⟩ := not_or.mp hcon
    obtain ⟨as, s, t, e, hrun, hstep, hbefore, hafter⟩ :=
      exists_run_overturned hn hclaims hedges hlt (Nat.le_of_not_lt hle) hloose
    exact h as s t n e hrun hstep n e.t hbefore hafter
  tfae_finish

/-- The constants that the model checker is given: half of 60 is above 20. -/
theorem contradictionSafety_tfae_cfg :
    (Constants.cfg.rejectThreshold : ℤ) < (Constants.cfg.acceptThreshold : ℤ) -
      (Constants.cfg.acceptThreshold * Constants.cfg.dampingCap / 100 : ℕ) ∧
    ∀ as (s : State (Fin 3) Constants.cfg.ClaimIds), Run (Next Constants.cfg) init as s →
      ContradictionSafety Constants.cfg s :=
  ⟨by decide, ((contradictionSafety_tfae (c := Constants.cfg) ⟨0, Finset.mem_univ 0⟩ (by decide)
    (by decide) (by decide)).out 0 2).mpr (Or.inr (by decide))⟩

/-! ## Oscillation -/

/-- Without replication, and without edges, no node has more edges than it may add. -/
theorem card_edges_le (h : c.nodes.card ≤ 1 ∨ c.maxEdges = 0)
    {as : List (Action ν c.ClaimIds)} {s : State ν c.ClaimIds} (hrun : Run (Next c) init as s) :
    ∀ n, (s.edges n).card ≤ c.maxEdges := by
  refine hrun.invariant (P := fun s => ∀ n, (s.edges n).card ≤ c.maxEdges)
    (fun _ => Nat.zero_le _) ?_
  intro s a t hs hnext m
  cases hnext with
  | addClaim => exact hs m
  | @addEdge n e _ _ _ _ _ hmax =>
    rw [edges_addEdge]
    split
    · exact (Finset.card_insert_le _ _).trans hmax
    · exact hs m
  | @replicate src dst hsrc hdst hne =>
    rcases h with h | h
    · exact absurd (Finset.card_le_one.mp h src hsrc dst hdst) hne
    · rw [edges_replicate]
      have hsrc' := hs src
      have hdst' := hs dst
      have hunion := Finset.card_union_le (s.edges dst) (s.edges src)
      split
      · omega
      · exact hs m
  | propagatePositive => exact hs m
  | applyContradiction => exact hs m
  | classify => exact hs m

/-- A claim with full trust both supports and contradicts another one. -/
structure Torn (s : State ν c.ClaimIds) (n : ν) (k l : c.ClaimIds) : Prop where
  claims : k ∈ s.claims n ∧ l ∈ s.claims n
  edges : s.edges n = {⟨k, l, .contradicts, 100⟩, ⟨k, l, .supports, 100⟩}
  trust : s.trust n k = 100 ∧ s.trust n l = 100

/-- A node can add both edges, or add one of them and copy the other one. -/
theorem exists_run_torn {n : ν} (hn : n ∈ c.nodes) {k l : c.ClaimIds} (hkl : k ≠ l)
    (hroom : 0 < c.maxEdges) (h : 1 < c.nodes.card ∨ 1 < c.maxEdges) :
    ∃ as s, Run (Next c) init as s ∧ Torn s n k l := by
  let e : Edge c.ClaimIds := ⟨k, l, .contradicts, 100⟩
  let e' : Edge c.ClaimIds := ⟨k, l, .supports, 100⟩
  rcases h with hnodes | hedges
  · obtain ⟨m, hm, hmn⟩ := Finset.exists_mem_ne hnodes n
    let s := linked init m 100 100 e'
    have hclaims : s.claims n = ∅ := by
      simp [s, linked, addEdge, addClaim, init, hmn.symm]
    have hedges : s.edges n = ∅ := by
      simp [s, linked, addEdge, addClaim, setTrust, init, hmn.symm]
    have hrun : Run (Next c) init _ s := run_linked (e := e') hm rfl hroom le_rfl le_rfl hkl le_rfl
    have hrun' : Run (Next c) s _ (linked s n 100 100 e) :=
      run_linked (e := e) hn hclaims (by simpa [hedges] using hroom) le_rfl le_rfl hkl le_rfl
    have hheld : (linked s n 100 100 e).claims n = {l, k} := by
      rw [claims_linked, hclaims]
      rfl
    have hheld' : (linked s n 100 100 e).claims m = {l, k} := by
      simp [linked, addEdge, addClaim, s, init, hmn, e']
    have hedges' : (linked s n 100 100 e).edges m = {e'} := by
      simp [linked, addEdge, addClaim, setTrust, s, init, hmn]
    have htrust := trust_linked (s := s) (n := n) (v := 100) (w := 100) (e := e) hkl
    refine ⟨_, _, (hrun.trans hrun').snoc (.replicate hm hn hmn), ⟨?_, ?_⟩, ?_, ?_, ?_⟩
    · simp [claims_replicate, hheld]
    · simp [claims_replicate, hheld]
    · rw [edges_replicate, if_pos rfl, edges_linked, hedges, hedges']
      rfl
    · rw [trust_replicate, if_neg (by simp [hheld])]
      exact htrust.1
    · rw [trust_replicate, if_neg (by simp [hheld])]
      exact htrust.2
  · have hrun : Run (Next c) init _ (linked init n 100 100 e') :=
      run_linked (e := e') hn rfl hroom le_rfl le_rfl hkl le_rfl
    have hheld := claims_linked (init : State ν c.ClaimIds) n 100 100 e'
    have hadded := edges_linked (init : State ν c.ClaimIds) n 100 100 e'
    refine ⟨_, _, hrun.snoc (.addEdge (e := e) hn ?_ ?_ hkl le_rfl ?_), ⟨?_, ?_⟩, ?_, ?_⟩
    · simp [hheld, e, e']
    · simp [hheld, e, e']
    · rw [hadded]
      simpa [init] using hedges
    · simp [addEdge, hheld, e']
    · simp [addEdge, hheld, e']
    · rw [edges_addEdge, if_pos rfl, hadded]
      rfl
    · exact trust_linked (e := e') hkl

/-- The positive pass has nothing to do for a torn claim, until the contradiction has been applied. -/
theorem Torn.oscillates {s : State ν c.ClaimIds} {n : ν} {k l : c.ClaimIds} (h : Torn s n k l)
    (hn : n ∈ c.nodes) (hkl : k ≠ l) (hcap : 0 < c.dampingCap) : ¬ NoOscillation c s := by
  intro hno
  obtain ⟨hk, hl⟩ := h.claims
  obtain ⟨htk, htl⟩ := h.trust
  let e : Edge c.ClaimIds := ⟨k, l, .contradicts, 100⟩
  let e' : Edge c.ClaimIds := ⟨k, l, .supports, 100⟩
  have hstable : Stable c s n := by
    intro e'' t hnext
    cases hnext with
    | propagatePositive _ he htp _ _ _ hinc =>
      rw [h.edges, Finset.mem_insert, Finset.mem_singleton] at he
      rcases he with rfl | rfl
      · cases htp
      · exact (hinc.trans_le (propagated_le _ _)).ne htl
  have hstep : Next c s (.applyContradiction n e) _ :=
    .applyContradiction hn (by simp [h.edges, e]) rfl hk hl (htk.symm ▸ by omega)
  have hafter : contradicted c.dampingCap (s.trust n) e = 100 - 100 * c.dampingCap / 100 := by
    rw [contradicted_full _ (htl.symm ▸ by omega) htl.le htk rfl]
    show s.trust n l - s.trust n l * c.dampingCap / 100 = _
    rw [htl]
  let t := setTrust s n e.t (contradicted c.dampingCap (s.trust n) e)
  have htl' : t.trust n e'.t = 100 - 100 * c.dampingCap / 100 := by
    rw [trust_setTrust, if_pos ⟨rfl, rfl⟩, hafter]
  have htk' : t.trust n e'.f = 100 := by
    rw [trust_setTrust, if_neg fun heq => hkl heq.2]
    exact htk
  refine hno n e t hstable hstep e' _ (.propagatePositive hn ?_ rfl hk hl (by omega) ?_)
  · show e' ∈ s.edges n
    simp [h.edges, e']
  · rw [propagated_eq, htk', htl']
    show 100 - 100 * c.dampingCap / 100 < min 100 (100 - 100 * c.dampingCap / 100 + 100 * 100 / 100)
    omega

/-- A contradiction never triggers a new round of positive propagation if and only if it never lowers
trust, or no claim can have an edge of each kind. -/
theorem noOscillation_iff :
    (∀ as (s : State ν c.ClaimIds), Run (Next c) init as s → NoOscillation c s) ↔
      c.nodes = ∅ ∨ c.maxClaims ≤ 1 ∨ c.dampingCap = 0 ∨ c.maxEdges = 0 ∨
        (c.nodes.card ≤ 1 ∧ c.maxEdges ≤ 1) := by
  constructor
  · intro hno
    by_contra hcon
    simp only [not_or, not_and_or] at hcon
    obtain ⟨hnodes, hclaims, hcap, hedges, hroom⟩ := hcon
    obtain ⟨n, hn⟩ := Finset.nonempty_iff_ne_empty.mpr hnodes
    obtain ⟨k, l, hkl⟩ := exists_two_claims (c := c) (by omega)
    obtain ⟨as, s, hrun, htorn⟩ := exists_run_torn hn hkl (Nat.pos_of_ne_zero hedges)
      (hroom.imp Nat.lt_of_not_le Nat.lt_of_not_le)
    exact htorn.oscillates hn hkl (Nat.pos_of_ne_zero hcap) (hno as s hrun)
  · intro h as s hrun n e t hstable hstep e' u hnext
    have hwf := wellFormed_of_run hrun
    cases hstep with
    | applyContradiction hn he htp _ ht _ =>
      -- with one edge at most, there is either a contradiction or a support
      have hone : (s.edges n).card ≤ 1 → False := by
        intro hcard
        cases hnext with
        | propagatePositive _ he' htp' =>
          have heq : e = e' := Finset.card_le_one.mp hcard e he e' he'
          rw [heq, htp'] at htp
          cases htp
      rcases h with h | h | h | h | ⟨h, h'⟩
      · simp [h] at hn
      · have hsub : e.f = e.t := by
          have hf := Finset.mem_Icc.mp e.f.2
          have ht := Finset.mem_Icc.mp e.t.2
          exact Subtype.ext (by omega)
        exact hwf.proper he hsub
      · have hsame : contradicted c.dampingCap (s.trust n) e = s.trust n e.t := by
          simp only [contradicted, h, Nat.mul_zero, Nat.zero_div]
          split_ifs <;> omega
        rw [hsame] at hnext
        have hback : setTrust s n e.t (s.trust n e.t) = s := by
          simp [setTrust]
        rw [hback] at hnext
        exact hstable e' u hnext
      · have hcard := card_edges_le (Or.inr h) hrun n
        exact hone (by omega)
      · exact hone ((card_edges_le (Or.inl h) hrun n).trans h')

end Aimp.Formal.Belief
