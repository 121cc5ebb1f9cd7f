import Mathlib

/-!
# Searches with a worklist

A search takes nodes from a stack. A node that it has not visited yet is expanded: its successors are found
and pushed, visited or not. The search ends after one round for its root and one for each successor that
it finds (`stack_run`), and it finds what can be reached in one step or more (`mem_found_iff`).
-/

namespace Worklist

open Relation

variable {ν : Type*}

/-- The nodes visited so far, the stack with its top first, and the successors found, in order. -/
structure State (ν : Type*) where
  visited : List ν
  stack : List ν
  found : List ν

/-- Take the top of the stack, and expand it unless it was visited before. -/
def pop [DecidableEq ν] (out : ν → List ν) (v : ν) (rest : List ν) (s : State ν) : State ν :=
  if v ∈ s.visited then { s with stack := rest }
  else ⟨v :: s.visited, (out v).reverse ++ rest, s.found ++ out v⟩

/-- At most `fuel` rounds of the loop. -/
def run [DecidableEq ν] (out : ν → List ν) : ℕ → State ν → State ν
  | 0, s => s
  | fuel + 1, s => match s.stack with
    | [] => s
    | v :: rest => run out fuel (pop out v rest s)

/-- The search from a root. -/
def search [DecidableEq ν] (out : ν → List ν) (fuel : ℕ) (root : ν) : State ν := run out fuel ⟨[], [root], []⟩

variable {out : ν → List ν} {root v : ν} {rest : List ν} {s : State ν} {fuel : ℕ}

/-! ## Termination -/

section Termination

variable [DecidableEq ν]

/-- The rounds still to come, if every node with successors is one of `nodes`: one for each node on the
stack and for each successor of a node that is not visited yet. -/
def work (out : ν → List ν) (nodes : List ν) (s : State ν) : ℕ :=
  s.stack.length + (nodes.map fun u => if u ∈ s.visited then 0 else (out u).length).sum

/-- The successors of a node that is visited now need no further round. -/
theorem sum_visit_le {nodes : List ν} (hv : out v ≠ [] → v ∈ nodes) {visited : List ν}
    (hnew : v ∉ visited) :
    (nodes.map fun u => if u ∈ v :: visited then 0 else (out u).length).sum + (out v).length ≤
      (nodes.map fun u => if u ∈ visited then 0 else (out u).length).sum := by
  have hle : ∀ u ∈ nodes, (if u ∈ v :: visited then 0 else (out u).length) ≤
      if u ∈ visited then 0 else (out u).length := by
    intro u _
    by_cases hu : u ∈ visited
    · rw [if_pos (List.mem_cons_of_mem v hu)]
      exact Nat.zero_le _
    · rw [if_neg hu]
      split
      · exact Nat.zero_le _
      · exact le_rfl
  by_cases hout : out v = []
  · rw [hout, List.length_nil, Nat.add_zero]
    exact List.sum_le_sum hle
  · obtain ⟨front, back, rfl⟩ := List.append_of_mem (hv hout)
    have hfront := List.sum_le_sum fun u hu => hle u (List.mem_append_left _ hu)
    have hback := List.sum_le_sum fun u hu =>
      hle u (List.mem_append_right _ (List.mem_cons_of_mem v hu))
    rw [List.map_append, List.map_append, List.sum_append, List.sum_append, List.map_cons, List.map_cons,
      List.sum_cons, List.sum_cons, if_pos List.mem_cons_self, if_neg hnew]
    omega

/-- A round leaves less work. -/
theorem work_pop {nodes : List ν} (hnodes : ∀ u, out u ≠ [] → u ∈ nodes) (hs : s.stack = v :: rest) :
    work out nodes (pop out v rest s) < work out nodes s := by
  unfold pop
  split
  · unfold work
    rw [hs, List.length_cons]
    dsimp only
    omega
  · rename_i hnew
    have hsum := sum_visit_le (hnodes v) hnew
    unfold work
    rw [hs, List.length_append, List.length_reverse, List.length_cons]
    dsimp only
    omega

/-- With fuel for all the work, the loop runs until the stack is empty. -/
theorem stack_run {nodes : List ν} (hnodes : ∀ u, out u ≠ [] → u ∈ nodes)
    (hfuel : work out nodes s ≤ fuel) : (run out fuel s).stack = [] := by
  induction fuel generalizing s with
  | zero =>
    have hzero : s.stack.length = 0 := by
      unfold work at hfuel
      omega
    exact List.length_eq_zero_iff.mp hzero
  | succ fuel ih =>
    unfold run
    split
    · assumption
    · rename_i v rest hs
      have hless := work_pop hnodes hs
      exact ih (by omega)

end Termination

/-! ## What is found -/

/-- There is a step to each successor. -/
def Succ (out : ν → List ν) (a b : ν) : Prop := b ∈ out a

/-- All nodes seen can be reached, what was found are the successors of the visited nodes, and each of
these is visited or on the stack. -/
structure SearchInv (out : ν → List ν) (root : ν) (s : State ν) : Prop where
  visited : ∀ u ∈ s.visited, ReflTransGen (Succ out) root u
  stack : ∀ u ∈ s.stack, ReflTransGen (Succ out) root u
  found : ∀ u, u ∈ s.found ↔ ∃ w ∈ s.visited, Succ out w u
  covered : ∀ w ∈ s.visited, ∀ u, Succ out w u → u ∈ s.visited ∨ u ∈ s.stack
  root : root ∈ s.visited ∨ root ∈ s.stack

theorem searchInv_init : SearchInv out root ⟨[], [root], []⟩ where
  visited u hu := absurd hu List.not_mem_nil
  stack u hu := by rw [List.mem_singleton.mp hu]
  found u := by simp
  covered w hw := absurd hw List.not_mem_nil
  root := Or.inr List.mem_cons_self

/-- A node that was visited before leaves the stack. -/
theorem SearchInv.skip (h : SearchInv out root s) (hs : s.stack = v :: rest) (hv : v ∈ s.visited) :
    SearchInv out root { s with stack := rest } := by
  have hmem : ∀ u, u ∈ s.visited ∨ u ∈ s.stack → u ∈ s.visited ∨ u ∈ rest := by
    intro u hu
    rw [hs, List.mem_cons] at hu
    rcases hu with hu | rfl | hu
    · exact Or.inl hu
    · exact Or.inl hv
    · exact Or.inr hu
  exact
    { visited := h.visited
      stack := fun u hu => h.stack u (by rw [hs]; exact List.mem_cons_of_mem v hu)
      found := h.found
      covered := fun w hw u hu => hmem u (h.covered w hw u hu)
      root := hmem root h.root }

/-- A new node leaves the stack, and its successors enter it. -/
theorem SearchInv.expand (h : SearchInv out root s) (hs : s.stack = v :: rest) :
    SearchInv out root ⟨v :: s.visited, (out v).reverse ++ rest, s.found ++ out v⟩ := by
  have hv : ReflTransGen (Succ out) root v := h.stack v (by rw [hs]; exact List.mem_cons_self)
  have hmem : ∀ u, u ∈ s.visited ∨ u ∈ s.stack →
      u ∈ v :: s.visited ∨ u ∈ (out v).reverse ++ rest := by
    intro u hu
    rw [hs, List.mem_cons] at hu
    rcases hu with hu | rfl | hu
    · exact Or.inl (List.mem_cons_of_mem v hu)
    · exact Or.inl List.mem_cons_self
    · exact Or.inr (List.mem_append_right _ hu)
  refine ⟨?_, ?_, ?_, ?_, hmem root h.root⟩
  · intro u hu
    rcases List.mem_cons.mp hu with rfl | hu
    · exact hv
    · exact h.visited u hu
  · intro u hu
    rcases List.mem_append.mp hu with hu | hu
    · exact hv.tail (List.mem_reverse.mp hu)
    · exact h.stack u (by rw [hs]; exact List.mem_cons_of_mem v hu)
  · intro u
    rw [List.mem_append, h.found, List.exists_mem_cons_iff, or_comm]
    rfl
  · intro w hw u hu
    rcases List.mem_cons.mp hw with rfl | hw
    · exact Or.inr (List.mem_append_left _ (List.mem_reverse.mpr hu))
    · exact hmem u (h.covered w hw u hu)

theorem SearchInv.run [DecidableEq ν] (h : SearchInv out root s) : SearchInv out root (run out fuel s) := by
  induction fuel generalizing s with
  | zero => exact h
  | succ fuel ih =>
    unfold Worklist.run
    split
    · exact h
    · rename_i v rest hs
      unfold pop
      split
      · rename_i hv
        exact ih (h.skip hs hv)
      · exact ih (h.expand hs)

/-- Once the stack is empty, everything that can be reached is visited. -/
theorem SearchInv.complete (h : SearchInv out root s) (hdone : s.stack = []) {u : ν}
    (hu : ReflTransGen (Succ out) root u) : u ∈ s.visited := by
  have hvisited : ∀ w, w ∈ s.visited ∨ w ∈ s.stack → w ∈ s.visited := by
    intro w hw
    rcases hw with hw | hw
    · exact hw
    · rw [hdone] at hw
      exact absurd hw List.not_mem_nil
  induction hu with
  | refl => exact hvisited root h.root
  | tail _ hstep ih => exact hvisited _ (h.covered _ ih _ hstep)

/-- A search that has come to its end has found what can be reached in one step or more. -/
theorem mem_found_iff [DecidableEq ν] (hdone : (search out fuel root).stack = []) {u : ν} :
    u ∈ (search out fuel root).found ↔ TransGen (Succ out) root u := by
  have hinv : SearchInv out root (search out fuel root) := searchInv_init.run
  rw [hinv.found, TransGen.tail'_iff]
  constructor
  · rintro ⟨w, hw, hstep⟩
    exact ⟨w, hinv.visited w hw, hstep⟩
  · rintro ⟨w, hreach, hstep⟩
    exact ⟨w, hinv.complete hdone hreach, hstep⟩

end Worklist
