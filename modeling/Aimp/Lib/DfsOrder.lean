import Aimp.Lib.Dfs
import Mathlib.Data.List.Sort

/-!
# The order of parallel edges in a depth-first search

Two searches that come to the same targets in the same order take the same way through the graph, no
matter which of the edges to one target they scan first. They mark the same edges (`search_agree`).
-/

namespace Dfs

variable {ν ε ε' : Type*} [DecidableEq ν]

/-- What scanning an edge does, with the fuel that is left. -/
def scanEdge (out : ν → List (ε × ν)) (fuel : ℕ) (s : Search ν ε) (e : ε × ν) : Search ν ε :=
  if e.2 ∈ s.onStack then s.mark e.1 else if e.2 ∈ s.visited then s else visit out fuel e.2 s

theorem visit_succ (out : ν → List (ε × ν)) (fuel : ℕ) (v : ν) (s : Search ν ε) :
    visit out (fuel + 1) v s = ((out v).foldl (scanEdge out fuel) (s.enter v)).leave v :=
  rfl

/-- Two ways to list the edges of a graph. They agree on the targets one after another, and `f` names
the edges of the one in terms of the other. -/
structure SameTargets (f : ε' → ε) (out : ν → List (ε × ν)) (out' : ν → List (ε' × ν)) : Prop where
  targets : ∀ v, (out' v).map Prod.snd = (out v).map Prod.snd
  edges : ∀ v e x, (e, x) ∈ out' v ↔ (f e, x) ∈ out v

/-- Two searches at the same point. They have marked the same edges, but for those that are due to be
marked. -/
structure Agree (f : ε' → ε) (due : ε → Prop) (due' : ε' → Prop) (s : Search ν ε)
    (s' : Search ν ε') : Prop where
  visited : s'.visited = s.visited
  onStack : s'.onStack = s.onStack
  marked : ∀ e, e ∈ s'.marked ∨ due' e ↔ f e ∈ s.marked ∨ due (f e)

/-- What is due while the edges `rest` are still to be scanned: of these edges, those to the stack. -/
def Pending (stack : List ν) (rest : List (ε × ν)) (due : ε → Prop) (e : ε) : Prop :=
  (∃ x ∈ stack, (e, x) ∈ rest) ∨ due e

variable {out : ν → List (ε × ν)} {out' : ν → List (ε' × ν)} {f : ε' → ε} {due : ε → Prop}
  {due' : ε' → Prop} {s : Search ν ε} {s' : Search ν ε'} {fuel : ℕ} {v : ν}

/-! ## The stack -/

/-- Scanning edges leaves the stack as it is if visiting nodes does. -/
theorem onStack_foldl_scanEdge (hvisit : ∀ x (t : Search ν ε), (visit out fuel x t).onStack = t.onStack)
    (l : List (ε × ν)) (s : Search ν ε) : (l.foldl (scanEdge out fuel) s).onStack = s.onStack := by
  induction l generalizing s with
  | nil => rfl
  | cons e l ih =>
    rw [List.foldl_cons, ih, scanEdge]
    split
    · rfl
    · split
      · rfl
      · exact hvisit e.2 s

theorem onStack_visit (out : ν → List (ε × ν)) (fuel : ℕ) (v : ν) (s : Search ν ε) :
    (visit out fuel v s).onStack = s.onStack := by
  induction fuel generalizing v s with
  | zero => rfl
  | succ fuel ih =>
    rw [visit_succ]
    show ((out v).foldl (scanEdge out fuel) (s.enter v)).onStack.erase v = s.onStack
    rw [onStack_foldl_scanEdge ih]
    exact List.erase_cons_head ..

/-! ## One visit -/

omit [DecidableEq ν] in
theorem Agree.enter (h : Agree f due due' s s') (v : ν) : Agree f due due' (s.enter v) (s'.enter v) where
  visited := congrArg (v :: ·) h.visited
  onStack := congrArg (v :: ·) h.onStack
  marked := h.marked

theorem Agree.leave (h : Agree f due due' s s') (v : ν) : Agree f due due' (s.leave v) (s'.leave v) where
  visited := h.visited
  onStack := congrArg (·.erase v) h.onStack
  marked := h.marked

omit [DecidableEq ν] in
/-- Before the edges of a node are scanned, the same of them are pending. -/
theorem Agree.pending (h : Agree f due due' s s') (stack : List ν) {l : List (ε × ν)}
    {l' : List (ε' × ν)} (hmem : ∀ e x, (e, x) ∈ l' ↔ (f e, x) ∈ l) :
    Agree f (Pending stack l due) (Pending stack l' due') s s' where
  visited := h.visited
  onStack := h.onStack
  marked := by
    intro e
    have hold := h.marked e
    have hnew : (∃ x ∈ stack, (e, x) ∈ l') ↔ ∃ x ∈ stack, (f e, x) ∈ l := by
      simp only [hmem]
    unfold Pending
    rw [or_left_comm, hnew, hold, or_left_comm]

omit [DecidableEq ν] in
theorem pending_nil (stack : List ν) (due : ε → Prop) : Pending stack [] due = due := by
  funext d
  simp [Pending]

omit [DecidableEq ν] in
/-- An edge to the stack is marked. -/
theorem mark_pending {stack : List ν} {rest : List (ε × ν)} {e : ε} {x : ν} (hx : x ∈ stack) (d : ε) :
    d ∈ (s.mark e).marked ∨ Pending stack rest due d ↔
      d ∈ s.marked ∨ Pending stack ((e, x) :: rest) due d := by
  unfold Pending Search.mark
  constructor
  · rintro (hd | ⟨y, hy, hd⟩ | hd)
    · rcases List.mem_cons.mp hd with rfl | hd
      · exact Or.inr (Or.inl ⟨x, hx, List.mem_cons_self ..⟩)
      · exact Or.inl hd
    · exact Or.inr (Or.inl ⟨y, hy, List.mem_cons_of_mem _ hd⟩)
    · exact Or.inr (Or.inr hd)
  · rintro (hd | ⟨y, hy, hd⟩ | hd)
    · exact Or.inl (List.mem_cons_of_mem _ hd)
    · rcases List.mem_cons.mp hd with heq | hd
      · obtain ⟨rfl, rfl⟩ := Prod.mk.inj heq
        exact Or.inl (List.mem_cons_self ..)
      · exact Or.inr (Or.inl ⟨y, hy, hd⟩)
    · exact Or.inr (Or.inr hd)

omit [DecidableEq ν] in
/-- An edge to another node was not pending. -/
theorem pending_cons {stack : List ν} {rest : List (ε × ν)} {e : ε} {x : ν} (hx : x ∉ stack) :
    Pending stack ((e, x) :: rest) due = Pending stack rest due := by
  funext d
  unfold Pending
  refine propext (or_congr_left (exists_congr fun y => and_congr_right fun hy => ?_))
  rw [List.mem_cons]
  refine or_iff_right fun heq => hx ?_
  rwa [← (Prod.mk.inj heq).2]

/-- Scanning edges to the same targets comes to the same point. -/
theorem foldl_scanEdge_agree
    (hvisit : ∀ x due due' (t : Search ν ε) (t' : Search ν ε'), Agree f due due' t t' →
      Agree f due due' (visit out fuel x t) (visit out' fuel x t'))
    {l : List (ε × ν)} {l' : List (ε' × ν)} (htargets : l'.map Prod.snd = l.map Prod.snd)
    (h : Agree f (Pending s.onStack l due) (Pending s.onStack l' due') s s') :
    Agree f due due' (l.foldl (scanEdge out fuel) s) (l'.foldl (scanEdge out' fuel) s') := by
  induction l generalizing l' s s' with
  | nil =>
    obtain rfl := List.map_eq_nil_iff.mp htargets
    rwa [pending_nil, pending_nil] at h
  | cons e l ih =>
    obtain ⟨e, x⟩ := e
    obtain ⟨⟨e', x'⟩, l', rfl, hx, hrest⟩ := List.map_eq_cons_iff.mp htargets
    obtain rfl : x' = x := hx
    rw [List.foldl_cons, List.foldl_cons]
    by_cases hstack : x' ∈ s.onStack
    · have hstack' : x' ∈ s'.onStack := h.onStack ▸ hstack
      have hmark : scanEdge out fuel s (e, x') = s.mark e := if_pos hstack
      have hmark' : scanEdge out' fuel s' (e', x') = s'.mark e' := if_pos hstack'
      rw [hmark, hmark']
      refine ih hrest ⟨h.visited, h.onStack, fun d => ?_⟩
      exact (mark_pending hstack d).trans ((h.marked d).trans (mark_pending hstack (f d)).symm)
    · have hstack' : x' ∉ s'.onStack := h.onStack ▸ hstack
      rw [pending_cons hstack, pending_cons hstack] at h
      have hscan : scanEdge out fuel s (e, x') =
          if x' ∈ s.visited then s else visit out fuel x' s := if_neg hstack
      have hscan' : scanEdge out' fuel s' (e', x') =
          if x' ∈ s.visited then s' else visit out' fuel x' s' := by
        rw [← h.visited]
        exact if_neg hstack'
      rw [hscan, hscan']
      by_cases hvis : x' ∈ s.visited
      · rw [if_pos hvis, if_pos hvis]
        exact ih hrest h
      · rw [if_neg hvis, if_neg hvis]
        refine ih hrest ?_
        rw [onStack_visit]
        exact hvisit x' _ _ s s' h

/-- Visiting a node comes to the same point in both searches. -/
theorem visit_agree (hsame : SameTargets f out out') (h : Agree f due due' s s') :
    Agree f due due' (visit out fuel v s) (visit out' fuel v s') := by
  induction fuel generalizing v due due' s s' with
  | zero => exact h
  | succ fuel ih =>
    rw [visit_succ, visit_succ]
    refine Agree.leave (foldl_scanEdge_agree (fun x _ _ _ _ ht => ih ht) (hsame.targets v) ?_) v
    exact (h.enter v).pending _ (hsame.edges v)

/-! ## A whole search -/

/-- Both searches mark the same edges. -/
theorem search_agree (hsame : SameTargets f out out') (fuel : ℕ) (roots : List ν) (e : ε') :
    e ∈ (search out' fuel roots).marked ↔ f e ∈ (search out fuel roots).marked := by
  suffices h : Agree f (fun _ => False) (fun _ => False) (search out fuel roots)
      (search out' fuel roots) by simpa using h.marked e
  refine List.foldl_rel ⟨rfl, rfl, fun e => by simp⟩ fun r _ s s' h => ?_
  rw [h.visited]
  split
  · exact h
  · exact visit_agree hsame h

/-- In lists of the same edges that are sorted by target, the targets come one after another in the same
way. -/
theorem sameTargets_of_sorted {ν : Type*} [LinearOrder ν] {f : ε' → ε} {out : ν → List (ε × ν)}
    {out' : ν → List (ε' × ν)} (hsorted : ∀ v, (out v).Pairwise fun a b => a.2 ≤ b.2)
    (hsorted' : ∀ v, (out' v).Pairwise fun a b => a.2 ≤ b.2)
    (hf : Function.Injective f) (hperm : ∀ v, ((out' v).map (Prod.map f id)).Perm (out v)) :
    SameTargets f out out' where
  targets := by
    intro v
    refine List.Perm.eq_of_pairwise' (r := (· ≤ ·)) (List.pairwise_map.mpr (hsorted' v))
      (List.pairwise_map.mpr (hsorted v)) ?_
    have h := (hperm v).map Prod.snd
    rwa [List.map_map] at h
  edges := by
    intro v e x
    rw [← (hperm v).mem_iff, List.mem_map]
    constructor
    · exact fun h => ⟨(e, x), h, rfl⟩
    · rintro ⟨⟨d, y⟩, h, heq⟩
      obtain ⟨hd, rfl⟩ := Prod.mk.inj heq
      rwa [hf hd] at h

end Dfs
