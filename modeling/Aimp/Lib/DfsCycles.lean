import Aimp.Lib.DfsOrder
import Mathlib.Data.List.Chain
import Mathlib.Data.List.Nodup

/-!
# Depth-first search for cycles

A search that keeps the path to the node that it visits can list the nodes of the cycle that a back edge
closes. It takes the same way through the graph as the search that marks the back edges, and finds one
cycle for each of them (`tracks_search`). No edge is marked twice (`nodup_marked_search`).
-/

namespace Dfs

variable {ν ε : Type*} [DecidableEq ν]

/-- The nodes visited so far, those on the stack, the path to the current node, and the cycles. -/
structure CycleSearch (ν : Type*) where
  visited : List ν
  onStack : List ν
  path : List ν
  cycles : List (List ν)

def CycleSearch.enter (v : ν) (s : CycleSearch ν) : CycleSearch ν :=
  { s with visited := v :: s.visited, onStack := v :: s.onStack, path := s.path ++ [v] }

def CycleSearch.leave (v : ν) (s : CycleSearch ν) : CycleSearch ν :=
  { s with onStack := s.onStack.erase v, path := s.path.dropLast }

/-- The part of the path from a node on is a cycle. -/
def CycleSearch.close (x : ν) (s : CycleSearch ν) : CycleSearch ν :=
  (s.path.idxOf? x).elim s fun pos => { s with cycles := s.cycles ++ [s.path.drop pos] }

/-- Visit a node: scan its outgoing edges, closing cycles and visiting the new nodes. -/
def visitPath (out : ν → List (ε × ν)) : ℕ → ν → CycleSearch ν → CycleSearch ν
  | 0, _, s => s
  | fuel + 1, v, s =>
    ((out v).foldl (fun s e =>
      if e.2 ∈ s.onStack then s.close e.2
      else if e.2 ∈ s.visited then s
      else visitPath out fuel e.2 s) (s.enter v)).leave v

/-- Visit the roots one after another, except those that were visited before. -/
def findCycles (out : ν → List (ε × ν)) (fuel : ℕ) (roots : List ν) : CycleSearch ν :=
  roots.foldl (fun s r => if r ∈ s.visited then s else visitPath out fuel r s) ⟨[], [], [], []⟩

/-- What scanning an edge does, with the fuel that is left. -/
def scanPath (out : ν → List (ε × ν)) (fuel : ℕ) (t : CycleSearch ν) (e : ε × ν) : CycleSearch ν :=
  if e.2 ∈ t.onStack then t.close e.2 else if e.2 ∈ t.visited then t else visitPath out fuel e.2 t

theorem visitPath_succ (out : ν → List (ε × ν)) (fuel : ℕ) (v : ν) (t : CycleSearch ν) :
    visitPath out (fuel + 1) v t = ((out v).foldl (scanPath out fuel) (t.enter v)).leave v :=
  rfl

/-- An edge leads from `a` to `b`. -/
def Step (out : ν → List (ε × ν)) (a b : ν) : Prop := ∃ e, (e, b) ∈ out a

/-- The nodes of a simple cycle, whose last edge is `e`. -/
structure Closes (out : ν → List (ε × ν)) (cycle : List ν) (e : ε) : Prop where
  nodup : cycle.Nodup
  chain : cycle.IsChain (Step out)
  closed : ∃ v x, (e, x) ∈ out v ∧ cycle.getLast? = some v ∧ cycle.head? = some x

/-- The two searches are at the same point. -/
structure Tracks (out : ν → List (ε × ν)) (s : Search ν ε) (t : CycleSearch ν) : Prop where
  visited : t.visited = s.visited
  onStack : t.onStack = s.onStack
  path : t.path = s.onStack.reverse
  nodup : s.onStack.Nodup
  chain : t.path.IsChain (Step out)
  cycles : List.Forall₂ (Closes out) t.cycles s.marked.reverse

variable {out : ν → List (ε × ν)} {s : Search ν ε} {t : CycleSearch ν} {fuel : ℕ} {v x : ν} {e : ε}
  {stack : List ν}

/-! ## One cycle for each marked edge -/

omit [DecidableEq ν] in
theorem Tracks.enter (h : Tracks out s t) (hv : v ∉ s.onStack)
    (hchain : (t.path ++ [v]).IsChain (Step out)) : Tracks out (s.enter v) (t.enter v) where
  visited := congrArg (v :: ·) h.visited
  onStack := congrArg (v :: ·) h.onStack
  path := by
    show t.path ++ [v] = (v :: s.onStack).reverse
    rw [h.path, List.reverse_cons]
  nodup := List.nodup_cons.mpr ⟨hv, h.nodup⟩
  chain := hchain
  cycles := h.cycles

theorem Tracks.leave (h : Tracks out s t) (hstack : s.onStack = v :: stack) :
    Tracks out (s.leave v) (t.leave v) := by
  have hnodup := h.nodup
  rw [hstack] at hnodup
  have hpath : t.path = stack.reverse ++ [v] := by rw [h.path, hstack, List.reverse_cons]
  have hleft : (s.leave v).onStack = stack := by
    show s.onStack.erase v = stack
    rw [hstack, List.erase_cons_head]
  refine ⟨h.visited, ?_, ?_, ?_, h.chain.dropLast, h.cycles⟩
  · show t.onStack.erase v = _
    rw [hleft, h.onStack, hstack, List.erase_cons_head]
  · show t.path.dropLast = _
    rw [hleft, hpath, List.dropLast_concat]
  · rw [hleft]
    exact (List.nodup_cons.mp hnodup).2

/-- An edge to the stack closes a cycle. -/
theorem Tracks.close (h : Tracks out s t) (hstack : s.onStack = v :: stack) (hex : (e, x) ∈ out v)
    (hx : x ∈ s.onStack) : Tracks out (s.mark e) (t.close x) := by
  have hlast : t.path.getLast? = some v := by
    rw [h.path, hstack, List.getLast?_reverse, List.head?_cons]
  have hnodup : t.path.Nodup := by
    rw [h.path]
    exact List.nodup_reverse.mpr h.nodup
  have hmem : x ∈ t.path := by
    rw [h.path]
    exact List.mem_reverse.mpr hx
  obtain ⟨pos, hpos⟩ : ∃ pos, t.path.idxOf? x = some pos := by
    rw [← Option.isSome_iff_exists, List.isSome_idxOf?]
    exact hmem
  obtain ⟨hlt, hget, _⟩ := List.idxOf?_eq_some_iff.mp hpos
  have hcycle : Closes out (t.path.drop pos) e := by
    refine ⟨hnodup.sublist (List.drop_sublist pos _), h.chain.drop pos, v, x, hex, ?_, ?_⟩
    · rw [List.getLast?_drop, if_neg (not_le.mpr hlt), hlast]
    · rw [List.head?_drop, List.getElem?_eq_getElem hlt, hget]
  have hclose : t.close x = { t with cycles := t.cycles ++ [t.path.drop pos] } := by
    rw [CycleSearch.close, hpos]
    rfl
  rw [hclose]
  refine ⟨h.visited, h.onStack, h.path, h.nodup, h.chain, ?_⟩
  show List.Forall₂ (Closes out) (t.cycles ++ [t.path.drop pos]) (e :: s.marked).reverse
  rw [List.reverse_cons]
  exact List.rel_append h.cycles (.cons hcycle .nil)

/-- Both searches visit a node in the same way. -/
theorem Tracks.visit (h : Tracks out s t) (hv : v ∉ s.onStack)
    (hchain : (t.path ++ [v]).IsChain (Step out)) :
    Tracks out (visit out fuel v s) (visitPath out fuel v t) := by
  induction fuel generalizing v s t with
  | zero => exact h
  | succ fuel ih =>
    have hscan : Tracks out ((out v).foldl (scanEdge out fuel) (s.enter v))
          ((out v).foldl (scanPath out fuel) (t.enter v)) ∧
        ((out v).foldl (scanEdge out fuel) (s.enter v)).onStack = v :: s.onStack := by
      refine List.foldl_rel (r := fun (c : Search ν ε) (c' : CycleSearch ν) =>
        Tracks out c c' ∧ c.onStack = v :: s.onStack) ⟨h.enter hv hchain, rfl⟩ ?_
      rintro ⟨e, x⟩ hex c c' ⟨hc, hstack⟩
      unfold scanEdge scanPath
      dsimp only
      rw [hc.onStack, hc.visited]
      by_cases hx : x ∈ c.onStack
      · rw [if_pos hx, if_pos hx]
        exact ⟨hc.close hstack hex hx, hstack⟩
      · rw [if_neg hx, if_neg hx]
        by_cases hvis : x ∈ c.visited
        · rw [if_pos hvis, if_pos hvis]
          exact ⟨hc, hstack⟩
        · rw [if_neg hvis, if_neg hvis]
          refine ⟨ih hc hx ?_, (onStack_visit ..).trans hstack⟩
          -- the path ends with `v`, from where the edge leads on
          have hend : c'.path = s.onStack.reverse ++ [v] := by
            rw [hc.path, hstack, List.reverse_cons]
          have hpath := hc.chain
          rw [hend] at hpath ⊢
          rw [List.append_assoc]
          exact List.isChain_append_cons_cons.mpr ⟨hpath, ⟨e, hex⟩, List.isChain_singleton x⟩
    exact hscan.1.leave hscan.2

/-- The search for cycles finds one for each edge that the search for back edges marks. -/
theorem tracks_search (out : ν → List (ε × ν)) (fuel : ℕ) (roots : List ν) :
    Tracks out (search out fuel roots) (findCycles out fuel roots) := by
  have hsearch : Tracks out (search out fuel roots) (findCycles out fuel roots) ∧
      (search out fuel roots).onStack = [] := by
    unfold search findCycles
    refine List.foldl_rel (r := fun (c : Search ν ε) (c' : CycleSearch ν) =>
      Tracks out c c' ∧ c.onStack = []) ⟨⟨rfl, rfl, rfl, .nil, .nil, .nil⟩, rfl⟩ ?_
    rintro r _ c c' ⟨hc, hstack⟩
    rw [hc.visited]
    by_cases hvis : r ∈ c.visited
    · rw [if_pos hvis, if_pos hvis]
      exact ⟨hc, hstack⟩
    · rw [if_neg hvis, if_neg hvis]
      refine ⟨hc.visit ?_ ?_, (onStack_visit ..).trans hstack⟩
      · rw [hstack]
        exact List.not_mem_nil
      · rw [hc.path, hstack]
        exact List.isChain_singleton r
  exact hsearch.1

/-! ## Enough fuel -/

theorem visited_close (t : CycleSearch ν) (x : ν) : (t.close x).visited = t.visited := by
  unfold CycleSearch.close
  cases t.path.idxOf? x with
  | none => rfl
  | some pos => rfl

theorem visited_scanPath (hvisit : ∀ x (t : CycleSearch ν), t.visited ⊆ (visitPath out fuel x t).visited)
    (t : CycleSearch ν) (e : ε × ν) : t.visited ⊆ (scanPath out fuel t e).visited := by
  unfold scanPath
  split
  · rw [visited_close]
    exact List.Subset.refl _
  · split
    · exact List.Subset.refl _
    · exact hvisit e.2 t

theorem visited_visitPath (out : ν → List (ε × ν)) (fuel : ℕ) (v : ν) (t : CycleSearch ν) :
    t.visited ⊆ (visitPath out fuel v t).visited := by
  induction fuel generalizing v t with
  | zero => exact List.Subset.refl _
  | succ fuel ih =>
    have hscan : ∀ (l : List (ε × ν)) (t : CycleSearch ν),
        t.visited ⊆ (l.foldl (scanPath out fuel) t).visited := by
      intro l
      induction l with
      | nil => exact fun t => List.Subset.refl _
      | cons e l ihl => exact fun t => List.Subset.trans (visited_scanPath ih t e) (ihl _)
    rw [visitPath_succ]
    exact List.Subset.trans (List.subset_cons_self v t.visited) (hscan (out v) (t.enter v))

/-- More fuel than there are nodes to be visited changes nothing. -/
theorem visitPath_fuel {nodes : List ν} (hout : ∀ w e x, (e, x) ∈ out w → x ∈ nodes) (hv : v ∈ nodes)
    (hnew : v ∉ t.visited) (hfuel : (nodes.filter (· ∉ t.visited)).length ≤ fuel) :
    visitPath out (fuel + 1) v t = visitPath out fuel v t := by
  have hlt : ∀ {t : CycleSearch ν} {t' : CycleSearch ν} {v : ν}, v ∈ nodes → v ∉ t.visited →
      v :: t.visited ⊆ t'.visited →
      (nodes.filter (· ∉ t'.visited)).length < (nodes.filter (· ∉ t.visited)).length := by
    intro t t' v hv hnew hsub
    exact unvisited_lt (s := (⟨t.visited, [], []⟩ : Search ν ε))
      (t := (⟨t'.visited, [], []⟩ : Search ν ε)) hv hnew fun w hw => hsub hw
  induction fuel generalizing v t with
  | zero =>
    have hsub : v :: t.visited ⊆ (t.enter v).visited := List.Subset.refl _
    have hless := hlt hv hnew hsub
    omega
  | succ fuel ih =>
    rw [visitPath_succ out (fuel + 1), visitPath_succ out fuel]
    congr 1
    -- the same is scanned as long as `v` and all that was visited before it stay visited
    have hscan : ∀ (l : List (ε × ν)) (u : CycleSearch ν), l ⊆ out v → v :: t.visited ⊆ u.visited →
        l.foldl (scanPath out (fuel + 1)) u = l.foldl (scanPath out fuel) u := by
      intro l
      induction l with
      | nil => exact fun _ _ _ => rfl
      | cons e l ihl =>
        intro u hsub hvisited
        obtain ⟨he, hl⟩ := List.cons_subset.mp hsub
        have hsame : scanPath out (fuel + 1) u e = scanPath out fuel u e := by
          unfold scanPath
          by_cases hstack : e.2 ∈ u.onStack
          · rw [if_pos hstack, if_pos hstack]
          · rw [if_neg hstack, if_neg hstack]
            by_cases hvis : e.2 ∈ u.visited
            · rw [if_pos hvis, if_pos hvis]
            · rw [if_neg hvis, if_neg hvis]
              have hless := hlt hv hnew hvisited
              exact ih (hout v e.1 e.2 he) hvis (by omega)
        rw [List.foldl_cons, List.foldl_cons, hsame]
        have hmore := visited_scanPath (visited_visitPath out fuel) u e
        exact ihl _ hl (List.Subset.trans hvisited hmore)
    exact hscan (out v) (t.enter v) (List.Subset.refl _) (List.Subset.refl _)

/-- With fuel for all nodes the search for cycles comes to its end. -/
theorem findCycles_fuel {nodes : List ν} (hout : ∀ w e x, (e, x) ∈ out w → x ∈ nodes)
    {roots : List ν} (hroots : ∀ r ∈ roots, r ∈ nodes) {fuel : ℕ} (hfuel : nodes.length ≤ fuel) :
    findCycles out fuel roots = findCycles out nodes.length roots := by
  have hvisit : ∀ (k : ℕ) (r : ν) (t : CycleSearch ν), r ∈ nodes → r ∉ t.visited →
      visitPath out (nodes.length + k) r t = visitPath out nodes.length r t := by
    intro k r t hr hnew
    induction k with
    | zero => rfl
    | succ k ih =>
      have hle : (nodes.filter (· ∉ t.visited)).length ≤ nodes.length := List.length_filter_le _ _
      rw [← Nat.add_assoc, visitPath_fuel hout hr hnew (by omega), ih]
  obtain ⟨k, rfl⟩ := Nat.exists_eq_add_of_le hfuel
  unfold findCycles
  refine List.foldl_ext _ _ _ fun t r hr => ?_
  by_cases hvis : r ∈ t.visited
  · rw [if_pos hvis, if_pos hvis]
  · rw [if_neg hvis, if_neg hvis, hvisit k r t (hroots r hr) hvis]

/-! ## No edge is marked twice -/

/-- The edges have distinct names. -/
structure DistinctEdges (out : ν → List (ε × ν)) : Prop where
  nodup : ∀ v, ((out v).map Prod.fst).Nodup
  owner : ∀ e v x w y, (e, x) ∈ out v → (e, y) ∈ out w → v = w

/-- What visiting a node marks: edges of new nodes, each once. -/
def MarksNew (out : ν → List (ε × ν)) (s s' : Search ν ε) : Prop :=
  (∀ w ∈ s.visited, w ∈ s'.visited) ∧ ∃ new : List ε, s'.marked = new ++ s.marked ∧ new.Nodup ∧
    ∀ e ∈ new, ∃ w x, (e, x) ∈ out w ∧ w ∉ s.visited ∧ w ∈ s'.visited

/-- What has been marked while `v` is being visited and the edges `done` are scanned: of the edges of `v`
only such as are in `done`. -/
def MarksScanned (out : ν → List (ε × ν)) (v : ν) (s : Search ν ε) (done : List (ε × ν))
    (t : Search ν ε) : Prop :=
  (∀ w ∈ v :: s.visited, w ∈ t.visited) ∧ ∃ new : List ε, t.marked = new ++ s.marked ∧ new.Nodup ∧
    ∀ e ∈ new, ∃ w x, (e, x) ∈ out w ∧ w ∉ s.visited ∧ w ∈ t.visited ∧
      (w = v → e ∈ done.map Prod.fst)

variable {done : List (ε × ν)} {s' u u' : Search ν ε}

omit [DecidableEq ν] in
theorem MarksScanned.more (h : MarksScanned out v s done u) (edge : ε × ν) :
    MarksScanned out v s (done ++ [edge]) u := by
  obtain ⟨hvisited, new, hmarked, hnodup, hnew⟩ := h
  refine ⟨hvisited, new, hmarked, hnodup, fun e he => ?_⟩
  obtain ⟨w, x, hex, hw, hw', hown⟩ := hnew e he
  refine ⟨w, x, hex, hw, hw', fun hwv => ?_⟩
  rw [List.map_append]
  exact List.mem_append_left _ (hown hwv)

omit [DecidableEq ν] in
/-- The next edge of the node is marked. -/
theorem MarksScanned.mark (hdistinct : DistinctEdges out) (h : MarksScanned out v s done u)
    (hv : v ∉ s.visited) (hex : (e, x) ∈ out v) (hnext : e ∉ done.map Prod.fst) :
    MarksScanned out v s (done ++ [(e, x)]) (u.mark e) := by
  obtain ⟨hvisited, new, hmarked, hnodup, hnew⟩ := h.more (e, x)
  obtain ⟨_, new', hmarked', _, hnew'⟩ := h
  obtain rfl : new = new' := List.append_cancel_right (hmarked.symm.trans hmarked')
  have hfresh : e ∉ new := by
    intro he
    obtain ⟨w, y, hey, _, _, hown⟩ := hnew' e he
    exact hnext (hown (hdistinct.owner e w y v x hey hex))
  refine ⟨hvisited, e :: new, congrArg (e :: ·) hmarked, List.nodup_cons.mpr ⟨hfresh, hnodup⟩, ?_⟩
  intro e' he'
  rcases List.mem_cons.mp he' with rfl | he'
  · refine ⟨v, x, hex, hv, hvisited v List.mem_cons_self, fun _ => ?_⟩
    rw [List.map_append]
    exact List.mem_append_right _ (List.mem_singleton_self e')
  · exact hnew e' he'

omit [DecidableEq ν] in
/-- The edges that two visits mark are distinct. -/
theorem nodup_append_of_owner (hdistinct : DistinctEdges out) {new new' : List ε} (hnodup : new.Nodup)
    (hnodup' : new'.Nodup) (hold : ∀ e ∈ new, ∃ w x, (e, x) ∈ out w ∧ w ∈ u.visited)
    (hnew : ∀ e ∈ new', ∃ w x, (e, x) ∈ out w ∧ w ∉ u.visited) : (new' ++ new).Nodup := by
  refine List.nodup_append.mpr ⟨hnodup', hnodup, fun e he e' he' => ?_⟩
  rintro rfl
  obtain ⟨w, x, hex, hw⟩ := hnew e he
  obtain ⟨w', x', hex', hw'⟩ := hold e he'
  exact hw (hdistinct.owner e w' x' w x hex' hex ▸ hw')

omit [DecidableEq ν] in
/-- The target of the next edge is visited. -/
theorem MarksScanned.visit (hdistinct : DistinctEdges out) (h : MarksScanned out v s done u)
    (hrec : MarksNew out u u') (edge : ε × ν) : MarksScanned out v s (done ++ [edge]) u' := by
  obtain ⟨hvisited, new, hmarked, hnodup, hnew⟩ := h.more edge
  obtain ⟨hvisited', new', hmarked', hnodup', hnew'⟩ := hrec
  refine ⟨fun w hw => hvisited' w (hvisited w hw), new' ++ new, ?_, ?_, fun e he => ?_⟩
  · rw [hmarked', hmarked, List.append_assoc]
  · refine nodup_append_of_owner hdistinct hnodup hnodup' (u := u) (fun e he => ?_) fun e he => ?_
    · obtain ⟨w, x, hex, _, hw, _⟩ := hnew e he
      exact ⟨w, x, hex, hw⟩
    · obtain ⟨w, x, hex, hw, _⟩ := hnew' e he
      exact ⟨w, x, hex, hw⟩
  · rcases List.mem_append.mp he with he | he
    · obtain ⟨w, x, hex, hw, hw'⟩ := hnew' e he
      refine ⟨w, x, hex, fun hs => hw (hvisited w (List.mem_cons_of_mem v hs)), hw', fun hwv => ?_⟩
      exact absurd (hwv ▸ hvisited v List.mem_cons_self) hw
    · obtain ⟨w, x, hex, hw, hw', hown⟩ := hnew e he
      exact ⟨w, x, hex, hw, hvisited' w hw', hown⟩

/-- Visiting a new node marks edges of new nodes, each once. -/
theorem marksNew_visit (hdistinct : DistinctEdges out) (hv : v ∉ s.visited) :
    MarksNew out s (visit out fuel v s) := by
  induction fuel generalizing v s with
  | zero => exact ⟨fun _ hw => hw, [], rfl, List.nodup_nil, fun _ he => absurd he List.not_mem_nil⟩
  | succ fuel ih =>
    rw [visit_succ]
    have hscan : ((out v).map Prod.fst).Nodup →
        MarksScanned out v s (out v) ((out v).foldl (scanEdge out fuel) (s.enter v)) := by
      refine scan_induction (motive := fun done t =>
        (done.map Prod.fst).Nodup → MarksScanned out v s done t) ?_ ?_
      · intro _
        exact ⟨fun _ hw => hw, [], rfl, List.nodup_nil, fun _ he => absurd he List.not_mem_nil⟩
      · rintro done ⟨e, x⟩ t hex h hnodup
        rw [List.map_append, List.map_singleton, List.nodup_append] at hnodup
        have hdone := h hnodup.1
        have hnext : e ∉ done.map Prod.fst := fun he =>
          hnodup.2.2 e he e (List.mem_singleton_self e) rfl
        unfold scanEdge
        dsimp only
        by_cases hx : x ∈ t.onStack
        · rw [if_pos hx]
          exact hdone.mark hdistinct hv hex hnext
        · rw [if_neg hx]
          by_cases hvis : x ∈ t.visited
          · rw [if_pos hvis]
            exact hdone.more (e, x)
          · rw [if_neg hvis]
            exact hdone.visit hdistinct (ih hvis) (e, x)
    obtain ⟨hvisited, new, hmarked, hnodup, hnew⟩ := hscan (hdistinct.nodup v)
    refine ⟨fun w hw => hvisited w (List.mem_cons_of_mem v hw), new, hmarked, hnodup, fun e he => ?_⟩
    obtain ⟨w, x, hex, hw, hw', _⟩ := hnew e he
    exact ⟨w, x, hex, hw, hw'⟩

/-- A search marks no edge twice. -/
theorem nodup_marked_search (hdistinct : DistinctEdges out) (fuel : ℕ) (roots : List ν) :
    (search out fuel roots).marked.Nodup := by
  have hsearch : (search out fuel roots).marked.Nodup ∧
      ∀ e ∈ (search out fuel roots).marked, ∃ w x, (e, x) ∈ out w ∧
        w ∈ (search out fuel roots).visited := by
    induction roots using List.reverseRecOn with
    | nil => exact ⟨List.nodup_nil, fun e he => absurd he List.not_mem_nil⟩
    | append_singleton roots r ih =>
      have hstep : search out fuel (roots ++ [r]) =
          if r ∈ (search out fuel roots).visited then search out fuel roots
          else visit out fuel r (search out fuel roots) := by
        rw [search, List.foldl_append]
        rfl
      rw [hstep]
      by_cases hvis : r ∈ (search out fuel roots).visited
      · rw [if_pos hvis]
        exact ih
      · rw [if_neg hvis]
        have hmarks : MarksNew out _ (visit out fuel r (search out fuel roots)) :=
          marksNew_visit hdistinct hvis
        obtain ⟨hvisited, new, hmarked, hnodup, hnew⟩ := hmarks
        rw [hmarked]
        refine ⟨nodup_append_of_owner hdistinct ih.1 hnodup ih.2 fun e he => ?_, fun e he => ?_⟩
        · obtain ⟨w, x, hex, hw, _⟩ := hnew e he
          exact ⟨w, x, hex, hw⟩
        · rcases List.mem_append.mp he with he | he
          · obtain ⟨w, x, hex, _, hw⟩ := hnew e he
            exact ⟨w, x, hex, hw⟩
          · obtain ⟨w, x, hex, hw⟩ := ih.2 e he
            exact ⟨w, x, hex, hvisited w hw⟩
  exact hsearch.1

end Dfs
