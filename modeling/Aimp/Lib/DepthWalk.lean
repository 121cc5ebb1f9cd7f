import Mathlib

/-!
# Depth-bounded walks over linked nodes

A worklist walk with an explicit stack: it pops a name with the depth at which it was pushed, skips
it if it was visited before, is a stop name or lies too deep, and otherwise visits it and pushes the
links of its node. The walk visits every node once, so it ends after as many pops as there are names
on the stack and links in the nodes (`run_queue`).
-/

namespace DepthWalk

variable {η ν : Type*} [DecidableEq η]

/-- What a walk is over: the node with a given name, the names it links to, the names at which the
walk stops, and the greatest depth it visits. -/
structure Spec (η ν : Type*) where
  node : η → Option ν
  links : ν → List η
  stop : η → Bool
  limit : ℕ

/-- The stack with its top first, the names visited so far, and their nodes in order of discovery. -/
structure State (η ν : Type*) where
  queue : List (η × ℕ)
  visited : List η
  found : List ν

variable (w : Spec η ν)

/-- One round of the loop: pop a name and visit it, unless it is to be skipped. -/
def step (h : η) (depth : ℕ) (rest : List (η × ℕ)) (s : State η ν) : State η ν :=
  if h ∈ s.visited ∨ w.stop h ∨ w.limit < depth then { s with queue := rest }
  else match w.node h with
    | none => ⟨rest, h :: s.visited, s.found⟩
    | some n => ⟨((w.links n).map (·, depth + 1)).reverse ++ rest, h :: s.visited, s.found ++ [n]⟩

/-- At most `fuel` rounds of the loop. -/
def run : ℕ → State η ν → State η ν
  | 0, s => s
  | fuel + 1, s => match s.queue with
    | [] => s
    | (h, depth) :: rest => run fuel (step w h depth rest s)

/-- The walk from `roots`, the last of which is on top of the stack. -/
def walk (fuel : ℕ) (roots : List η) : State η ν :=
  run w fuel ⟨(roots.map (·, 0)).reverse, [], []⟩

/-- The fuel a walk needs: one pop for each root and for each link of a node. -/
def fuelFor (roots : List η) (nodes : List (η × ν)) : ℕ :=
  roots.length + (nodes.map fun c => (w.links c.2).length).sum

/-- The pops still to come, if every present name is one of `keys`: those of the names on the stack
and of the links of the nodes not visited yet. -/
def work (keys : List η) (s : State η ν) : ℕ :=
  s.queue.length + (keys.map fun k => if k ∈ s.visited then 0
    else ((w.node k).map fun n => (w.links n).length).getD 0).sum

variable {w}

/-- A round leaves less work. -/
theorem work_step {keys : List η} (hkeys : ∀ k, (w.node k).isSome → k ∈ keys) {h : η} {depth : ℕ}
    {rest : List (η × ℕ)} {s : State η ν} (hq : s.queue = (h, depth) :: rest) :
    work w keys (step w h depth rest s) < work w keys s := by
  unfold step
  split
  · simp [work, hq]
  · rename_i hskip
    have hnv : h ∉ s.visited := fun hv => hskip (Or.inl hv)
    have hle : ∀ k ∈ keys, (if k ∈ h :: s.visited then 0
        else ((w.node k).map fun n => (w.links n).length).getD 0) ≤
        (if k ∈ s.visited then 0 else ((w.node k).map fun n => (w.links n).length).getD 0) := by
      intro k _
      by_cases hk : k ∈ s.visited
      · simp [hk]
      · by_cases hkh : k = h <;> simp [hk, hkh]
    cases hn : w.node h with
    | none =>
      have := List.sum_le_sum hle
      simp only [work, hq, List.length_cons]
      omega
    | some n =>
      -- the node's links move from the unvisited nodes to the stack
      have hmem : h ∈ keys := hkeys h (by simp [hn])
      have hsum : (keys.map fun k => if k ∈ h :: s.visited then 0
          else ((w.node k).map fun n => (w.links n).length).getD 0).sum + (w.links n).length ≤
          (keys.map fun k => if k ∈ s.visited then 0
            else ((w.node k).map fun n => (w.links n).length).getD 0).sum := by
        clear hkeys
        induction keys with
        | nil => simp at hmem
        | cons k ks ih =>
          simp only [List.map_cons, List.sum_cons]
          have hrest := List.sum_le_sum fun j hj => hle j (List.mem_cons_of_mem _ hj)
          have hk := hle k (List.mem_cons_self ..)
          rcases List.mem_cons.mp hmem with rfl | hmem
          · simp only [List.mem_cons_self, if_true, hnv, if_false, hn, Option.map_some,
              Option.getD_some]
            omega
          · have := ih (fun j hj => hle j (List.mem_cons_of_mem _ hj)) hmem
            omega
      simp only [work, hq, List.length_append, List.length_reverse, List.length_map,
        List.length_cons]
      omega

/-- With fuel for all the work, the loop runs until the stack is empty. -/
theorem run_queue (keys : List η) (hkeys : ∀ k, (w.node k).isSome → k ∈ keys) :
    ∀ (fuel : ℕ) (s : State η ν), work w keys s ≤ fuel → (run w fuel s).queue = [] := by
  intro fuel
  induction fuel with
  | zero =>
    intro s hs
    simpa [work, run] using (Nat.add_eq_zero_iff.mp (Nat.le_zero.mp hs)).1
  | succ fuel ih =>
    intro s hs
    unfold run
    split
    · assumption
    · rename_i h depth rest hq
      have := work_step hkeys hq
      exact ih _ (by omega)

/-- What every round preserves holds when the loop ends. -/
theorem run_induction {P : State η ν → Prop}
    (hstep : ∀ (h : η) (depth : ℕ) (rest : List (η × ℕ)) (s : State η ν),
      s.queue = (h, depth) :: rest → P s → P (step w h depth rest s)) :
    ∀ (fuel : ℕ) (s : State η ν), P s → P (run w fuel s) := by
  intro fuel
  induction fuel with
  | zero => intro s hs; exact hs
  | succ fuel ih =>
    intro s hs
    unfold run
    split
    · exact hs
    · rename_i h depth rest hq
      exact ih _ (hstep h depth rest s hq hs)

/-- A walk given its fuel empties the stack. -/
theorem walk_queue {roots : List η} {nodes : List (η × ν)}
    (hnodes : ∀ k n, w.node k = some n → (k, n) ∈ nodes)
    (hval : ∀ k n, (k, n) ∈ nodes → w.node k = some n) :
    (walk w (fuelFor w roots nodes) roots).queue = [] := by
  refine run_queue (nodes.map Prod.fst) ?_ _ _ ?_
  · intro k hk
    obtain ⟨n, hn⟩ := Option.isSome_iff_exists.mp hk
    exact List.mem_map.mpr ⟨(k, n), hnodes k n hn, rfl⟩
  · have hmap : (nodes.map fun c => ((w.node c.1).map fun n => (w.links n).length).getD 0) =
        nodes.map fun c => (w.links c.2).length :=
      List.map_congr_left fun c hc => by simp [hval c.1 c.2 hc]
    simp [work, fuelFor, Function.comp_def, hmap]

/-- A visited name is a root or a link of a visited name's node. -/
theorem walk_visited {fuel : ℕ} {roots : List η} {h : η} (hh : h ∈ (walk w fuel roots).visited) :
    h ∈ roots ∨ ∃ k ∈ (walk w fuel roots).visited, ∃ n, w.node k = some n ∧ h ∈ w.links n := by
  let Good : List η → η → Prop := fun visited h =>
    h ∈ roots ∨ ∃ k ∈ visited, ∃ n, w.node k = some n ∧ h ∈ w.links n
  have hmono : ∀ {V x h}, Good V h → Good (x :: V) h := by
    rintro V x h (hr | ⟨k, hk, hn⟩)
    · exact Or.inl hr
    · exact Or.inr ⟨k, List.mem_cons_of_mem _ hk, hn⟩
  have hinv := run_induction (w := w) (P := fun s =>
      (∀ c ∈ s.queue, Good s.visited c.1) ∧ ∀ h ∈ s.visited, Good s.visited h) ?_
    fuel ⟨(roots.map (·, 0)).reverse, [], []⟩ ?_
  · exact hinv.2 h hh
  · rintro k depth rest s hq ⟨h1, h2⟩
    have hk : Good s.visited k := h1 (k, depth) (by rw [hq]; exact List.mem_cons_self ..)
    have hrest : ∀ c ∈ rest, Good s.visited c.1 :=
      fun c hc => h1 c (by rw [hq]; exact List.mem_cons_of_mem _ hc)
    have hvis : ∀ h ∈ k :: s.visited, Good (k :: s.visited) h := by
      intro h hh
      rcases List.mem_cons.mp hh with rfl | hh
      · exact hmono hk
      · exact hmono (h2 h hh)
    unfold step
    split
    · exact ⟨hrest, h2⟩
    · cases hn : w.node k with
      | none => exact ⟨fun c hc => hmono (hrest c hc), hvis⟩
      | some n =>
        refine ⟨fun c hc => ?_, hvis⟩
        rcases List.mem_append.mp hc with hc | hc
        · obtain ⟨p, hp, rfl⟩ := List.mem_map.mp (List.mem_reverse.mp hc)
          exact Or.inr ⟨k, List.mem_cons_self .., n, hn, hp⟩
        · exact hmono (hrest c hc)
  · refine ⟨fun c hc => ?_, by simp⟩
    obtain ⟨p, hp, rfl⟩ := List.mem_map.mp (List.mem_reverse.mp hc)
    exact Or.inl hp

/-- A walk that empties its stack visits every root that it does not stop at. -/
theorem walk_roots {fuel : ℕ} {roots : List η} (hdone : (walk w fuel roots).queue = []) {h : η}
    (hh : h ∈ roots) (hstop : w.stop h = false) : h ∈ (walk w fuel roots).visited := by
  have hinv := run_induction (w := w) (P := fun s => h ∈ s.visited ∨ (h, 0) ∈ s.queue) ?_
    fuel ⟨(roots.map (·, 0)).reverse, [], []⟩ ?_
  · rcases hinv with hv | hq
    · exact hv
    · exact absurd hq (by rw [show (run w fuel _).queue = [] from hdone]; simp)
  · rintro k depth rest s hq hs
    have hs' : h ∈ s.visited ∨ (h, 0) = (k, depth) ∨ (h, 0) ∈ rest := by
      rcases hs with hv | hm
      · exact Or.inl hv
      · rw [hq] at hm
        exact Or.inr (List.mem_cons.mp hm)
    unfold step
    split
    · rename_i hskip
      rcases hs' with hv | heq | hm
      · exact Or.inl hv
      · obtain ⟨rfl, rfl⟩ := Prod.mk.inj heq
        simp only [hstop, Bool.false_eq_true, Nat.not_lt_zero, or_self, or_false] at hskip
        exact Or.inl hskip
      · exact Or.inr hm
    · have hvis : h = k → h ∈ k :: s.visited := fun e => e ▸ List.mem_cons_self ..
      cases hn : w.node k <;>
        rcases hs' with hv | heq | hm
      · exact Or.inl (List.mem_cons_of_mem _ hv)
      · exact Or.inl (hvis (Prod.mk.inj heq).1)
      · exact Or.inr hm
      · exact Or.inl (List.mem_cons_of_mem _ hv)
      · exact Or.inl (hvis (Prod.mk.inj heq).1)
      · exact Or.inr (List.mem_append_right _ hm)
  · exact Or.inr (List.mem_reverse.mpr (List.mem_map.mpr ⟨h, hh, rfl⟩))

/-- No name is visited twice, and what is found are the nodes of the visited names, in the order of the
visits. -/
theorem walk_once {fuel : ℕ} {roots : List η} :
    (walk w fuel roots).visited.Nodup ∧
      (walk w fuel roots).found = (walk w fuel roots).visited.reverse.filterMap w.node := by
  refine run_induction (w := w)
    (P := fun s => s.visited.Nodup ∧ s.found = s.visited.reverse.filterMap w.node) ?_ fuel _
    ⟨List.nodup_nil, rfl⟩
  rintro k depth rest s _ ⟨hnodup, hfound⟩
  unfold step
  split
  · exact ⟨hnodup, hfound⟩
  · rename_i hskip
    have hnew : k ∉ s.visited := fun hv => hskip (Or.inl hv)
    cases hk : w.node k with
    | none => exact ⟨List.nodup_cons.mpr ⟨hnew, hnodup⟩, by simp [hfound, hk]⟩
    | some m => exact ⟨List.nodup_cons.mpr ⟨hnew, hnodup⟩, by simp [hfound, hk]⟩

theorem walk_found {fuel : ℕ} {roots : List η} {n : ν} :
    n ∈ (walk w fuel roots).found ↔ ∃ h ∈ (walk w fuel roots).visited, w.node h = some n := by
  rw [walk_once.2, List.mem_filterMap]
  simp only [List.mem_reverse]

/-! ## The depth limit -/

/-- `p` is among the links of the node named `k`. -/
def Spec.Below (w : Spec η ν) (p k : η) : Prop := ∃ n, w.node k = some n ∧ p ∈ w.links n

/-- A chain of `d` links leads from `h` up to a root. -/
def Spec.Hangs (w : Spec η ν) (roots : List η) (h : η) (d : ℕ) : Prop :=
  ∃ l, (h :: l).IsChain w.Below ∧ l.length = d ∧ ∃ r ∈ roots, (h :: l).getLast? = some r

/-- Every name on the stack hangs from a root at its depth. -/
def Chained (w : Spec η ν) (roots : List η) (s : State η ν) : Prop :=
  ∀ c ∈ s.queue, w.Hangs roots c.1 c.2

omit [DecidableEq η] in
theorem chained_roots (roots : List η) :
    Chained w roots ⟨(roots.map (·, 0)).reverse, [], []⟩ := by
  intro c hc
  obtain ⟨r, hr, rfl⟩ := List.mem_map.mp (List.mem_reverse.mp hc)
  exact ⟨[], .singleton _, rfl, r, hr, rfl⟩

theorem Chained.step {roots : List η} {h : η} {depth : ℕ} {rest : List (η × ℕ)} {s : State η ν}
    (hs : Chained w roots s) (hq : s.queue = (h, depth) :: rest) :
    Chained w roots (step w h depth rest s) := by
  obtain ⟨l, hl, hlen, r, hr, hlast⟩ := hs (h, depth) (by rw [hq]; exact List.mem_cons_self ..)
  have hrest : ∀ c ∈ rest, w.Hangs roots c.1 c.2 :=
    fun c hc => hs c (by rw [hq]; exact List.mem_cons_of_mem _ hc)
  unfold DepthWalk.step
  split
  · exact hrest
  · cases hn : w.node h with
    | none => exact hrest
    | some n =>
      intro c hc
      rcases List.mem_append.mp hc with hc | hc
      · obtain ⟨p, hp, rfl⟩ := List.mem_map.mp (List.mem_reverse.mp hc)
        refine ⟨h :: l, List.isChain_cons_cons.mpr ⟨⟨n, hn, hp⟩, hl⟩, congrArg (· + 1) hlen, r, hr, ?_⟩
        rw [List.getLast?_cons_cons]
        exact hlast
      · exact hrest c hc

/-- A visited name hangs from a root by a chain that is not longer than the limit. -/
theorem walk_visited_hangs {fuel : ℕ} {roots : List η} {h : η}
    (hh : h ∈ (walk w fuel roots).visited) : ∃ d ≤ w.limit, w.Hangs roots h d := by
  have hinv := run_induction (w := w) (P := fun s => Chained w roots s ∧
      ∀ h ∈ s.visited, ∃ d ≤ w.limit, w.Hangs roots h d) ?_
    fuel _ ⟨chained_roots roots, fun h hh => absurd hh List.not_mem_nil⟩
  · exact hinv.2 h hh
  · rintro k depth rest s hq ⟨hchain, hs⟩
    refine ⟨hchain.step hq, ?_⟩
    have hk := hchain (k, depth) (by rw [hq]; exact List.mem_cons_self ..)
    unfold DepthWalk.step
    split
    · exact hs
    · rename_i hskip
      have hvis : ∀ h ∈ k :: s.visited, ∃ d ≤ w.limit, w.Hangs roots h d := by
        intro h hh
        rcases List.mem_cons.mp hh with rfl | hh
        · exact ⟨depth, not_lt.mp fun hlt => hskip (Or.inr (Or.inr hlt)), hk⟩
        · exact hs h hh
      cases w.node k with
      | none => exact hvis
      | some n => exact hvis

/-- Once `k` has been visited, the name `p` below it has been visited or is on the stack. -/
def Linked (p k : η) (s : State η ν) : Prop :=
  k ∈ s.visited → p ∈ s.visited ∨ ∃ d, (p, d) ∈ s.queue

/-- A round that is within the limit keeps names linked. -/
theorem Linked.step {p k h : η} {depth : ℕ} {rest : List (η × ℕ)} {s : State η ν}
    (hs : Linked p k s) (hq : s.queue = (h, depth) :: rest) (hdepth : ¬ w.limit < depth)
    (hp : w.Below p k) (hstop : w.stop p = false) : Linked p k (step w h depth rest s) := by
  obtain ⟨n, hn, hp⟩ := hp
  -- the popped name may be `p` itself
  have hpop : k ∈ s.visited → p ∈ s.visited ∨ p = h ∨ ∃ d, (p, d) ∈ rest := by
    intro hk
    rcases hs hk with hv | ⟨d, hd⟩
    · exact Or.inl hv
    · rw [hq] at hd
      rcases List.mem_cons.mp hd with heq | hd
      · exact Or.inr (Or.inl (Prod.mk.inj heq).1)
      · exact Or.inr (Or.inr ⟨d, hd⟩)
  unfold DepthWalk.step
  split
  · rename_i hskip
    intro hk
    rcases hpop hk with hv | rfl | hd
    · exact Or.inl hv
    · simp only [hstop, hdepth, Bool.false_eq_true, or_self, or_false] at hskip
      exact Or.inl hskip
    · exact Or.inr hd
  · cases hh : w.node h with
    | none =>
      intro hk
      rcases List.mem_cons.mp hk with rfl | hk
      · rw [hn] at hh
        cases hh
      · rcases hpop hk with hv | rfl | hd
        · exact Or.inl (List.mem_cons_of_mem _ hv)
        · exact Or.inl (List.mem_cons_self ..)
        · exact Or.inr hd
    | some m =>
      intro hk
      rcases List.mem_cons.mp hk with rfl | hk
      · rw [hn] at hh
        cases hh
        exact Or.inr ⟨depth + 1, List.mem_append_left _
          (List.mem_reverse.mpr (List.mem_map.mpr ⟨p, hp, rfl⟩))⟩
      · rcases hpop hk with hv | rfl | ⟨d, hd⟩
        · exact Or.inl (List.mem_cons_of_mem _ hv)
        · exact Or.inl (List.mem_cons_self ..)
        · exact Or.inr ⟨d, List.mem_append_right _ hd⟩

/-- If no chain of links is longer than the limit, a walk that empties its stack visits every link of a
visited name's node that it does not stop at. -/
theorem walk_links {fuel : ℕ} {roots : List η} (hdone : (walk w fuel roots).queue = [])
    (hlimit : ∀ l : List η, l.IsChain w.Below → l.length ≤ w.limit + 1) {k p : η}
    (hk : k ∈ (walk w fuel roots).visited) (hp : w.Below p k) (hstop : w.stop p = false) :
    p ∈ (walk w fuel roots).visited := by
  have hinv := run_induction (w := w) (P := fun s => Chained w roots s ∧ Linked p k s) ?_
    fuel _ ⟨chained_roots roots, fun h => absurd h List.not_mem_nil⟩
  · rcases hinv.2 hk with hv | ⟨d, hd⟩
    · exact hv
    · exact absurd hd (by rw [show (run w fuel _).queue = [] from hdone]; simp)
  · rintro h depth rest s hq ⟨hchain, hs⟩
    obtain ⟨l, hl, hlen, -⟩ := hchain (h, depth) (by rw [hq]; exact List.mem_cons_self ..)
    have hdepth : ¬ w.limit < depth := by
      have := hlimit (h :: l) hl
      rw [List.length_cons] at this
      omega
    exact ⟨hchain.step hq, hs.step hq hdepth hp hstop⟩

end DepthWalk
