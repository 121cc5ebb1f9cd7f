import Aimp.Lib.Run
import Mathlib.Data.Set.Lattice
import Mathlib.Combinatorics.SimpleGraph.Paths
import Mathlib.Combinatorics.SimpleGraph.Connectivity.Connected

/-!
# Spreading information

Parties pass on all they have to one another. Whose information a party has after a sequence of transfers
depends on the transfers only (`sources`), and what it has is the union of what these parties had at the
beginning (`content_of_run`). If every edge of a connected graph is used in each of `n - 1` rounds, everybody
has everything in the end (`sources_of_connected`).
-/

namespace Spread

variable {ι : Type*} [DecidableEq ι]

/-- Whose information each party has after some transfers; the transfer `(a, b)` is one from `a` to `b`. -/
def sources (ts : List (ι × ι)) : ι → Set ι :=
  ts.foldl (fun f t => Function.update f t.2 (f t.2 ∪ f t.1)) fun i => {i}

variable {ts us : List (ι × ι)} {i j : ι}

theorem sources_concat (ts : List (ι × ι)) (t : ι × ι) : sources (ts ++ [t]) =
    Function.update (sources ts) t.2 (sources ts t.2 ∪ sources ts t.1) :=
  List.foldl_append

/-- Nothing is forgotten. -/
theorem sources_mono (ts us : List (ι × ι)) (i : ι) : sources ts i ⊆ sources (ts ++ us) i := by
  induction us using List.reverseRecOn with
  | nil => rw [List.append_nil]
  | append_singleton us t ih =>
    rw [← List.append_assoc, sources_concat]
    by_cases hi : i = t.2
    · subst hi
      rw [Function.update_self]
      exact ih.trans Set.subset_union_left
    · rwa [Function.update_of_ne hi]

theorem self_mem_sources (ts : List (ι × ι)) (i : ι) : i ∈ sources ts i :=
  sources_mono [] ts i rfl

/-- A transfer passes on what its sender had before the round. -/
theorem sources_transfer (h : (i, j) ∈ us) : sources ts i ⊆ sources (ts ++ us) j := by
  obtain ⟨pre, post, rfl⟩ := List.append_of_mem h
  have hstep : sources ts i ⊆ sources (ts ++ pre ++ [(i, j)]) j := by
    rw [sources_concat, Function.update_self]
    exact (sources_mono ts pre i).trans Set.subset_union_right
  have hlist : ts ++ (pre ++ (i, j) :: post) = ts ++ pre ++ [(i, j)] ++ post := by simp
  rw [hlist]
  exact hstep.trans (sources_mono _ post j)

/-- What a party has after a run of transfers. -/
theorem content_of_run {σ α : Type*} {step : σ → ι × ι → σ → Prop} {content : σ → ι → Set α}
    (hstep : ∀ {s t u}, step s t u →
      content u = Function.update (content s) t.2 (content s t.2 ∪ content s t.1))
    {s u : σ} (hrun : Run step s ts u) (i : ι) :
    content u i = ⋃ j ∈ sources ts i, content s j := by
  induction hrun generalizing i with
  | nil =>
    show content s i = ⋃ j ∈ ({i} : Set ι), content s j
    rw [Set.biUnion_singleton]
  | @snoc ts t _ _ _ hlast ih =>
    rw [hstep hlast, sources_concat]
    by_cases hi : i = t.2
    · subst hi
      rw [Function.update_self, Function.update_self, Set.biUnion_union, ih, ih]
    · rw [Function.update_of_ne hi, Function.update_of_ne hi, ih]

variable {G : SimpleGraph ι} {rounds : List (List (ι × ι))}

/-- A walk of `k` edges is covered in `k` rounds. -/
theorem sources_of_walk (hrounds : ∀ r ∈ rounds, ∀ a b, G.Adj a b → (a, b) ∈ r) (p : G.Walk i j)
    (hp : p.length ≤ rounds.length) : j ∈ sources rounds.flatten i := by
  induction rounds using List.reverseRecOn generalizing i with
  | nil =>
    rw [List.length_nil, Nat.le_zero] at hp
    obtain rfl := SimpleGraph.Walk.eq_of_length_eq_zero hp
    exact self_mem_sources _ _
  | append_singleton rounds r ih =>
    rw [List.flatten_append, List.flatten_singleton]
    cases p with
    | nil => exact self_mem_sources _ _
    | @cons _ k _ hadj q =>
      rw [SimpleGraph.Walk.length_cons, List.length_append, List.length_singleton] at hp
      have hk := ih (fun r hr => hrounds r (List.mem_append_left _ hr)) q (by omega)
      exact sources_transfer (hrounds r (List.mem_append_right _ (List.mem_singleton_self _)) _ _
        hadj.symm) hk

/-- After `n - 1` rounds in which every edge of a connected graph on `n` parties is used in both
directions, every party has the information of all. -/
theorem sources_of_connected [Fintype ι] (hG : G.Connected)
    (hrounds : ∀ r ∈ rounds, ∀ a b, G.Adj a b → (a, b) ∈ r)
    (hlen : Fintype.card ι ≤ rounds.length + 1) (i j : ι) : j ∈ sources rounds.flatten i := by
  obtain ⟨p, hp⟩ := hG.exists_isPath i j
  have := hp.length_lt
  exact sources_of_walk hrounds p (by omega)

end Spread
