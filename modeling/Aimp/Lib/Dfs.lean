import Mathlib.Data.List.Basic
import Mathlib.Data.List.Induction
import Mathlib.Logic.Relation
import Mathlib.Tactic.TypeStar

/-!
# Depth-first search for back edges

A search over a graph whose nodes list their outgoing edges. It marks the edges that lead to a node on
the stack. `visit_spec` says what visiting a node does, and `search_spec` what a whole search has done.
-/

namespace Dfs

open Relation

variable {ν ε : Type*} [DecidableEq ν]

/-- The nodes visited so far, those on the stack, and the marked edges. -/
structure Search (ν ε : Type*) where
  visited : List ν
  onStack : List ν
  marked : List ε

def Search.enter (v : ν) (s : Search ν ε) : Search ν ε :=
  { s with visited := v :: s.visited, onStack := v :: s.onStack }

def Search.leave (v : ν) (s : Search ν ε) : Search ν ε :=
  { s with onStack := s.onStack.erase v }

def Search.mark (e : ε) (s : Search ν ε) : Search ν ε := { s with marked := e :: s.marked }

/-- Visit a node: scan its outgoing edges, marking those to the stack and visiting the new nodes. -/
def visit (out : ν → List (ε × ν)) : ℕ → ν → Search ν ε → Search ν ε
  | 0, _, s => s
  | fuel + 1, v, s =>
    ((out v).foldl (fun s e =>
      if e.2 ∈ s.onStack then s.mark e.1
      else if e.2 ∈ s.visited then s
      else visit out fuel e.2 s) (s.enter v)).leave v

/-- Visit the roots one after another, except those that were visited before. -/
def search (out : ν → List (ε × ν)) (fuel : ℕ) (roots : List ν) : Search ν ε :=
  roots.foldl (fun s r => if r ∈ s.visited then s else visit out fuel r s) ⟨[], [], []⟩

variable (out : ν → List (ε × ν))

/-- `b` can be reached from `a`. -/
def Reach : ν → ν → Prop := ReflTransGen fun a b => ∃ e, (e, b) ∈ out a

/-- The nodes that are still to be visited. -/
def unvisited (nodes : List ν) (s : Search ν ε) : List ν := nodes.filter (· ∉ s.visited)

/-- What visiting `v` does to the search. -/
structure VisitSpec (v : ν) (s s' : Search ν ε) : Prop where
  onStack : s'.onStack = s.onStack
  visited : ∀ w ∈ s.visited, w ∈ s'.visited
  marked : ∀ e ∈ s.marked, e ∈ s'.marked
  self : v ∈ s'.visited
  /-- A marked edge is a back edge of a new node, at `v` itself one to the stack. -/
  back : ∀ e ∈ s'.marked, e ∈ s.marked ∨ ∃ w x, (e, x) ∈ out w ∧ w ∉ s.visited ∧ Reach out x w ∧
    (w = v → x = v ∨ x ∈ s.onStack)
  /-- The edges of a new node are scanned, and those that lead to it or to the stack are marked. -/
  scanned : ∀ w ∈ s'.visited, w ∉ s.visited → ∀ e x, (e, x) ∈ out w →
    x ∈ s'.visited ∧ (x = w ∨ x = v ∨ x ∈ s.onStack → e ∈ s'.marked)

/-- What holds while `v` is being visited and the edges `done` are scanned. -/
structure ScanInv (v : ν) (s : Search ν ε) (done : List (ε × ν)) (t : Search ν ε) : Prop where
  onStack : t.onStack = v :: s.onStack
  visited : ∀ w ∈ v :: s.visited, w ∈ t.visited
  marked : ∀ e ∈ s.marked, e ∈ t.marked
  back : ∀ e ∈ t.marked, e ∈ s.marked ∨ ∃ w x, (e, x) ∈ out w ∧ w ∉ s.visited ∧ Reach out x w ∧
    (w = v → x = v ∨ x ∈ s.onStack)
  scanned : ∀ w ∈ t.visited, w ∉ s.visited → w ≠ v → ∀ e x, (e, x) ∈ out w →
    x ∈ t.visited ∧ (x = w ∨ x = v ∨ x ∈ s.onStack → e ∈ t.marked)
  done : ∀ e x, (e, x) ∈ done → x ∈ t.visited ∧ (x = v ∨ x ∈ s.onStack → e ∈ t.marked)

variable {out} {nodes : List ν} {fuel : ℕ} {v : ν} {s t : Search ν ε}

omit [DecidableEq ν] in
theorem scanInv_enter (v : ν) (s : Search ν ε) : ScanInv out v s [] (s.enter v) where
  onStack := rfl
  visited := fun _ hw => hw
  marked := fun _ he => he
  back := fun _ he => Or.inl he
  scanned := fun w hw hnew hwv => by
    rcases List.mem_cons.mp hw with rfl | hw
    · exact absurd rfl hwv
    · exact absurd hw hnew
  done := fun _ _ h => nomatch h

theorem ScanInv.leave (h : ScanInv out v s (out v) t) : VisitSpec out v s (t.leave v) where
  onStack := by
    show t.onStack.erase v = s.onStack
    rw [h.onStack, List.erase_cons_head]
  visited := fun w hw => h.visited w (List.mem_cons_of_mem v hw)
  marked := h.marked
  self := h.visited v (List.mem_cons_self ..)
  back := h.back
  scanned := by
    intro w hw hnew e x hex
    by_cases hwv : w = v
    · subst hwv
      obtain ⟨hx, hmark⟩ := h.done e x hex
      refine ⟨hx, fun hor => hmark ?_⟩
      rcases hor with h | h
      · exact Or.inl h
      · exact h
    · exact h.scanned w hw hnew hwv e x hex

omit [DecidableEq ν] in
/-- An edge to the stack is marked. -/
theorem ScanInv.mark {done : List (ε × ν)} {e : ε} {x : ν} (h : ScanInv out v s done t)
    (hnew : v ∉ s.visited) (hstack : ∀ u ∈ s.onStack, u ∈ s.visited ∧ Reach out u v)
    (hex : (e, x) ∈ out v) (hx : x ∈ t.onStack) :
    ScanInv out v s (done ++ [(e, x)]) (t.mark e) where
  onStack := h.onStack
  visited := h.visited
  marked := fun e he => List.mem_cons_of_mem _ (h.marked e he)
  back := by
    intro e' he'
    rcases List.mem_cons.mp he' with rfl | he'
    · rw [h.onStack, List.mem_cons] at hx
      refine Or.inr ⟨v, x, hex, hnew, ?_, fun _ => hx⟩
      rcases hx with rfl | hx
      · exact .refl
      · exact (hstack x hx).2
    · exact h.back e' he'
  scanned := by
    intro w hw hwnew hwv e' x' hex'
    obtain ⟨hx', hmark⟩ := h.scanned w hw hwnew hwv e' x' hex'
    exact ⟨hx', fun hor => List.mem_cons_of_mem _ (hmark hor)⟩
  done := by
    intro e' x' hmem
    rcases List.mem_append.mp hmem with hmem | hmem
    · obtain ⟨hx', hmark⟩ := h.done e' x' hmem
      exact ⟨hx', fun hor => List.mem_cons_of_mem _ (hmark hor)⟩
    · cases List.mem_singleton.mp hmem
      refine ⟨?_, fun _ => List.mem_cons_self ..⟩
      rw [h.onStack, List.mem_cons] at hx
      rcases hx with rfl | hx
      · exact h.visited x (List.mem_cons_self ..)
      · exact h.visited x (List.mem_cons_of_mem _ (hstack x hx).1)

omit [DecidableEq ν] in
/-- An edge to a node that was visited and left before is passed over. -/
theorem ScanInv.skip {done : List (ε × ν)} {e : ε} {x : ν} (h : ScanInv out v s done t)
    (hx : x ∉ t.onStack) (hvis : x ∈ t.visited) : ScanInv out v s (done ++ [(e, x)]) t where
  onStack := h.onStack
  visited := h.visited
  marked := h.marked
  back := h.back
  scanned := h.scanned
  done := by
    intro e' x' hmem
    rcases List.mem_append.mp hmem with hmem | hmem
    · exact h.done e' x' hmem
    · cases List.mem_singleton.mp hmem
      rw [h.onStack, List.mem_cons] at hx
      exact ⟨hvis, fun hor => absurd hor hx⟩

/-- A new node is visited in its turn. -/
theorem ScanInv.visit {done : List (ε × ν)} {e : ε} {x : ν} {t' : Search ν ε}
    (h : ScanInv out v s done t) (hx : x ∉ t.onStack) (hrec : VisitSpec out x t t') :
    ScanInv out v s (done ++ [(e, x)]) t' where
  onStack := hrec.onStack.trans h.onStack
  visited := fun w hw => hrec.visited w (h.visited w hw)
  marked := fun e he => hrec.marked e (h.marked e he)
  back := by
    intro e' he'
    rcases hrec.back e' he' with he' | ⟨w, y, hwy, hwnew, hreach, _⟩
    · exact h.back e' he'
    · refine Or.inr ⟨w, y, hwy, fun hw => hwnew (h.visited w (List.mem_cons_of_mem _ hw)), hreach,
        fun hwv => ?_⟩
      exact absurd (h.visited v (List.mem_cons_self ..)) (hwv ▸ hwnew)
  scanned := by
    intro w hw hwnew hwv e' x' hex'
    by_cases hwt : w ∈ t.visited
    · obtain ⟨hx', hmark⟩ := h.scanned w hwt hwnew hwv e' x' hex'
      exact ⟨hrec.visited x' hx', fun hor => hrec.marked e' (hmark hor)⟩
    · obtain ⟨hx', hmark⟩ := hrec.scanned w hw hwt e' x' hex'
      refine ⟨hx', fun hor => hmark ?_⟩
      rw [h.onStack, List.mem_cons]
      rcases hor with hor | hor
      · exact Or.inl hor
      · exact Or.inr (Or.inr hor)
  done := by
    intro e' x' hmem
    rcases List.mem_append.mp hmem with hmem | hmem
    · obtain ⟨hx', hmark⟩ := h.done e' x' hmem
      exact ⟨hrec.visited x' hx', fun hor => hrec.marked e' (hmark hor)⟩
    · cases List.mem_singleton.mp hmem
      rw [h.onStack, List.mem_cons] at hx
      exact ⟨hrec.self, fun hor => absurd hor hx⟩

theorem unvisited_lt {nodes : List ν} {s t : Search ν ε} {v : ν} (hv : v ∈ nodes)
    (hnew : v ∉ s.visited) (hsub : ∀ w ∈ v :: s.visited, w ∈ t.visited) :
    (unvisited nodes t).length < (unvisited nodes s).length := by
  unfold unvisited
  induction nodes with
  | nil => cases hv
  | cons u nodes ih =>
    have hle : (nodes.filter (· ∉ t.visited)).length ≤ (nodes.filter (· ∉ s.visited)).length := by
      refine (List.monotone_filter_right nodes fun w hw => ?_).length_le
      simp only [decide_eq_true_eq] at hw ⊢
      exact fun h => hw (hsub w (List.mem_cons_of_mem _ h))
    rw [List.filter_cons, List.filter_cons]
    rcases List.mem_cons.mp hv with rfl | hv
    · rw [if_neg (by simpa using hsub v (List.mem_cons_self ..)), if_pos (by simpa using hnew),
        List.length_cons]
      omega
    · have hlt := ih hv
      by_cases hus : u ∈ s.visited
      · rw [if_neg (by simpa using hsub u (List.mem_cons_of_mem _ hus)),
          if_neg (by simpa using hus)]
        exact hlt
      · rw [if_pos (show decide (u ∉ s.visited) = true by simpa using hus), List.length_cons]
        split
        · rw [List.length_cons]
          omega
        · omega

omit [DecidableEq ν] in
/-- What holds before the first edge and is kept by every edge holds when all edges are scanned. -/
theorem scan_induction {motive : List (ε × ν) → Search ν ε → Prop}
    {scan : Search ν ε → ε × ν → Search ν ε} {edges : List (ε × ν)} (hnil : motive [] s)
    (hscan : ∀ done e t, e ∈ edges → motive done t → motive (done ++ [e]) (scan t e)) :
    motive edges (edges.foldl scan s) := by
  induction edges using List.reverseRecOn with
  | nil => exact hnil
  | append_singleton edges e ih =>
    rw [List.foldl_append]
    have hrest := ih fun done x t hx => hscan done x t (List.mem_append_left _ hx)
    exact hscan edges e _ (List.mem_append_right _ (List.mem_singleton_self e)) hrest

omit [DecidableEq ν] in
/-- The stack of a node that is visited from `v`. -/
theorem ScanInv.stack {done : List (ε × ν)} {e : ε} {x : ν} (h : ScanInv out v s done t)
    (hstack : ∀ u ∈ s.onStack, u ∈ s.visited ∧ Reach out u v) (hex : (e, x) ∈ out v) :
    ∀ u ∈ t.onStack, u ∈ t.visited ∧ Reach out u x := by
  intro u hu
  rw [h.onStack, List.mem_cons] at hu
  have hstep : Reach out v x := .single ⟨e, hex⟩
  rcases hu with rfl | hu
  · exact ⟨h.visited u (List.mem_cons_self ..), hstep⟩
  · obtain ⟨hvis, hreach⟩ := hstack u hu
    exact ⟨h.visited u (List.mem_cons_of_mem _ hvis), hreach.trans hstep⟩

/-- With fuel for all the nodes that are still to be visited, visiting a new node does what
`VisitSpec` says. -/
theorem visit_spec (hout : ∀ w e x, (e, x) ∈ out w → x ∈ nodes) (hv : v ∈ nodes)
    (hnew : v ∉ s.visited) (hstack : ∀ u ∈ s.onStack, u ∈ s.visited ∧ Reach out u v)
    (hfuel : (unvisited nodes s).length ≤ fuel) : VisitSpec out v s (visit out fuel v s) := by
  induction fuel generalizing v s with
  | zero =>
    have := unvisited_lt (t := s.enter v) hv hnew fun w hw => hw
    omega
  | succ fuel ih =>
    rw [visit]
    refine ScanInv.leave (scan_induction (motive := ScanInv out v s) (scanInv_enter v s) ?_)
    rintro done ⟨e, x⟩ t hex h
    dsimp only
    by_cases hx : x ∈ t.onStack
    · rw [if_pos hx]
      exact h.mark hnew hstack hex hx
    · rw [if_neg hx]
      by_cases hvis : x ∈ t.visited
      · rw [if_pos hvis]
        exact h.skip hx hvis
      · rw [if_neg hvis]
        have hlt := unvisited_lt hv hnew h.visited
        exact h.visit hx (ih (hout v e x hex) hvis (h.stack hstack hex) (by omega))

/-! ## Finishing -/

/-- An unmarked edge leads from `a` to `b`. -/
def Kept (out : ν → List (ε × ν)) (marked : List ε) (a b : ν) : Prop :=
  ∃ e, (e, b) ∈ out a ∧ e ∉ marked

/-- Every path of unmarked edges from `v` comes to an end. -/
def Settled (out : ν → List (ε × ν)) (marked : List ε) (v : ν) : Prop :=
  Acc (fun b a => Kept out marked a b) v

/-- The nodes that have been left are settled. -/
def Finished (out : ν → List (ε × ν)) (s : Search ν ε) : Prop :=
  ∀ w ∈ s.visited, w ∉ s.onStack → Settled out s.marked w

omit [DecidableEq ν] in
theorem Settled.mono {marked marked' : List ε} (h : Settled out marked v)
    (hsub : ∀ e ∈ marked, e ∈ marked') : Settled out marked' v := by
  induction h with
  | intro v _ ih =>
    refine .intro v fun b hb => ?_
    obtain ⟨e, he, hnot⟩ := hb
    exact ih b ⟨e, he, fun hmem => hnot (hsub e hmem)⟩

omit [DecidableEq ν] in
/-- A settled node lies on no cycle of unmarked edges. -/
theorem Settled.not_cycle {marked : List ε} (h : Settled out marked v) :
    ¬ TransGen (Kept out marked) v v := by
  induction h with
  | intro v _ ih =>
    intro hcycle
    obtain ⟨b, hvb, hbv⟩ := TransGen.head'_iff.mp hcycle
    exact ih b hvb (TransGen.tail' hbv hvb)

/-- What holds besides `ScanInv` if the nodes that were left before are settled. -/
structure FinishInv (out : ν → List (ε × ν)) (v : ν) (s : Search ν ε) (done : List (ε × ν))
    (t : Search ν ε) : Prop where
  scan : ScanInv out v s done t
  finished : Finished out t
  settled : ∀ e x, (e, x) ∈ done → e ∈ t.marked ∨ Settled out t.marked x

omit [DecidableEq ν] in
theorem finishInv_enter (v : ν) (hfin : Finished out s) : FinishInv out v s [] (s.enter v) where
  scan := scanInv_enter v s
  finished := by
    intro w hw hnot
    have hwv : w ≠ v := fun h => hnot (h ▸ List.mem_cons_self ..)
    exact hfin w (List.mem_of_ne_of_mem hwv hw) fun hmem => hnot (List.mem_cons_of_mem v hmem)
  settled := fun _ _ h => nomatch h

/-- When all edges of `v` are scanned, the unmarked ones lead to settled nodes. -/
theorem FinishInv.leave (h : FinishInv out v s (out v) t) : Finished out (t.leave v) := by
  intro w hw hnot
  by_cases hwv : w = v
  · subst hwv
    refine .intro w fun b hb => ?_
    obtain ⟨e, he, hunmarked⟩ := hb
    exact (h.settled e b he).resolve_left hunmarked
  · refine h.finished w hw fun hmem => hnot ?_
    rw [Search.leave, List.mem_erase_of_ne hwv]
    exact hmem

omit [DecidableEq ν] in
/-- One more edge is scanned. -/
theorem FinishInv.scan_edge {done : List (ε × ν)} {e : ε} {x : ν} {t' : Search ν ε}
    (h : FinishInv out v s done t) (hscan : ScanInv out v s (done ++ [(e, x)]) t')
    (hfin : Finished out t') (hmarked : ∀ e ∈ t.marked, e ∈ t'.marked)
    (hnew : e ∈ t'.marked ∨ Settled out t'.marked x) :
    FinishInv out v s (done ++ [(e, x)]) t' where
  scan := hscan
  finished := hfin
  settled := by
    intro e' x' hmem
    rcases List.mem_append.mp hmem with hmem | hmem
    · exact (h.settled e' x' hmem).imp (hmarked e') fun hset => hset.mono hmarked
    · cases List.mem_singleton.mp hmem
      exact hnew

/-- Visiting a node finishes it, and keeps the nodes finished that were left before. -/
theorem visit_finished (hout : ∀ w e x, (e, x) ∈ out w → x ∈ nodes) (hv : v ∈ nodes)
    (hnew : v ∉ s.visited) (hstack : ∀ u ∈ s.onStack, u ∈ s.visited ∧ Reach out u v)
    (hfuel : (unvisited nodes s).length ≤ fuel) (hfin : Finished out s) :
    Finished out (visit out fuel v s) := by
  induction fuel generalizing v s with
  | zero => exact hfin
  | succ fuel ih =>
    rw [visit]
    refine FinishInv.leave (s := s)
      (scan_induction (motive := FinishInv out v s) (finishInv_enter v hfin) ?_)
    rintro done ⟨e, x⟩ t hex h
    dsimp only
    by_cases hx : x ∈ t.onStack
    · rw [if_pos hx]
      have hsub : ∀ e' ∈ t.marked, e' ∈ (t.mark e).marked := fun e' => List.mem_cons_of_mem e
      exact h.scan_edge (h.scan.mark hnew hstack hex hx)
        (fun w hw hnot => (h.finished w hw hnot).mono hsub) hsub (Or.inl (List.mem_cons_self ..))
    · rw [if_neg hx]
      by_cases hvis : x ∈ t.visited
      · rw [if_pos hvis]
        exact h.scan_edge (h.scan.skip hx hvis) h.finished (fun _ he => he)
          (Or.inr (h.finished x hvis hx))
      · rw [if_neg hvis]
        have hlt := unvisited_lt hv hnew h.scan.visited
        have hstackt := h.scan.stack hstack hex
        have hfuelt : (unvisited nodes t).length ≤ fuel := by omega
        have hrec := visit_spec hout (hout v e x hex) hvis hstackt hfuelt
        have hfinrec := ih (hout v e x hex) hvis hstackt hfuelt h.finished
        exact h.scan_edge (h.scan.visit hx hrec) hfinrec hrec.marked
          (Or.inr (hfinrec x hrec.self (hrec.onStack ▸ hx)))

/-! ## A whole search -/

/-- What holds between the visits of the roots. -/
structure SearchInv (out : ν → List (ε × ν)) (done : List ν) (s : Search ν ε) : Prop where
  onStack : s.onStack = []
  roots : ∀ r ∈ done, r ∈ s.visited
  /-- A marked edge lies on a cycle. -/
  back : ∀ e ∈ s.marked, ∃ w x, (e, x) ∈ out w ∧ Reach out x w
  /-- All edges of a visited node are scanned, and its loops are marked. -/
  scanned : ∀ w ∈ s.visited, ∀ e x, (e, x) ∈ out w →
    x ∈ s.visited ∧ (x = w → e ∈ s.marked)

theorem SearchInv.visit {done : List ν} {r : ν} {s' : Search ν ε} (h : SearchInv out done s)
    (hspec : VisitSpec out r s s') : SearchInv out (done ++ [r]) s' where
  onStack := hspec.onStack.trans h.onStack
  roots := by
    intro u hu
    rcases List.mem_append.mp hu with hu | hu
    · exact hspec.visited u (h.roots u hu)
    · rw [List.mem_singleton.mp hu]
      exact hspec.self
  back := by
    intro e he
    rcases hspec.back e he with he | ⟨w, x, hwx, _, hreach, _⟩
    · exact h.back e he
    · exact ⟨w, x, hwx, hreach⟩
  scanned := by
    intro w hw e x hex
    by_cases hws : w ∈ s.visited
    · obtain ⟨hx, hmark⟩ := h.scanned w hws e x hex
      exact ⟨hspec.visited x hx, fun hxw => hspec.marked e (hmark hxw)⟩
    · obtain ⟨hx, hmark⟩ := hspec.scanned w hw hws e x hex
      exact ⟨hx, fun hxw => hmark (Or.inl hxw)⟩

theorem length_unvisited_le (nodes : List ν) (s : Search ν ε) :
    (unvisited nodes s).length ≤ nodes.length :=
  List.length_filter_le _ _

/-- One more root. -/
theorem SearchInv.root {done : List ν} {r : ν} (hout : ∀ w e x, (e, x) ∈ out w → x ∈ nodes)
    (hr : r ∈ nodes) (h : SearchInv out done s) : SearchInv out (done ++ [r])
      (if r ∈ s.visited then s else Dfs.visit out nodes.length r s) := by
  by_cases hvis : r ∈ s.visited
  · rw [if_pos hvis]
    refine ⟨h.onStack, fun u hu => ?_, h.back, h.scanned⟩
    rcases List.mem_append.mp hu with hu | hu
    · exact h.roots u hu
    · rw [List.mem_singleton.mp hu]
      exact hvis
  · rw [if_neg hvis]
    refine h.visit (visit_spec hout hr hvis (fun u hu => ?_) (length_unvisited_le nodes s))
    rw [h.onStack] at hu
    cases hu

/-- A search over all nodes marks edges on cycles only, and all loops. -/
theorem search_spec (hout : ∀ w e x, (e, x) ∈ out w → x ∈ nodes) {roots : List ν}
    (hroots : ∀ r ∈ roots, r ∈ nodes) : SearchInv out roots (search out nodes.length roots) := by
  induction roots using List.reverseRecOn with
  | nil =>
    refine ⟨rfl, fun r hr => absurd hr List.not_mem_nil, fun e he => ?_, fun w hw => ?_⟩
    · cases he
    · cases hw
  | append_singleton roots r ih =>
    rw [search, List.foldl_append]
    exact (ih fun u hu => hroots u (List.mem_append_left _ hu)).root hout
      (hroots r (List.mem_append_right _ (List.mem_singleton_self r)))

/-- A search leaves every root settled. -/
theorem settled_search (hout : ∀ w e x, (e, x) ∈ out w → x ∈ nodes) {roots : List ν}
    (hroots : ∀ r ∈ roots, r ∈ nodes) :
    ∀ r ∈ roots, Settled out (search out nodes.length roots).marked r := by
  have hinv := search_spec hout hroots
  suffices hfin : Finished out (search out nodes.length roots) by
    intro r hr
    refine hfin r (hinv.roots r hr) ?_
    rw [hinv.onStack]
    exact List.not_mem_nil
  clear hinv
  induction roots using List.reverseRecOn with
  | nil => exact fun w hw => nomatch hw
  | append_singleton roots r ih =>
    have hroots' := fun u hu => hroots u (List.mem_append_left _ hu)
    have hinv := search_spec hout hroots'
    have hr := hroots r (List.mem_append_right _ (List.mem_singleton_self r))
    rw [search, List.foldl_append]
    show Finished out (if r ∈ (search out nodes.length roots).visited then _ else _)
    split
    · exact ih hroots'
    · rename_i hvis
      refine visit_finished hout hr hvis (fun u hu => ?_) (length_unvisited_le nodes _) (ih hroots')
      exact absurd (hinv.onStack ▸ hu) List.not_mem_nil

/-! ## The first root -/

/-- What the search has found out about the first root `r`: every edge to it from a node that it reaches
is marked, and of its own edges only the loops are. -/
structure FirstRoot (out : ν → List (ε × ν)) (r : ν) (s : Search ν ε) : Prop where
  onStack : s.onStack = []
  visited : r ∈ s.visited
  into : ∀ w e, Reach out r w → (e, r) ∈ out w → e ∈ s.marked
  own : ∀ e x, e ∈ s.marked → (e, x) ∈ out r → x = r

theorem firstRoot_visit (hout : ∀ w e x, (e, x) ∈ out w → x ∈ nodes)
    (hinj : ∀ e w x w' x', (e, x) ∈ out w → (e, x') ∈ out w' → w = w' ∧ x = x') {r : ν}
    (hr : r ∈ nodes) : FirstRoot out r (visit out nodes.length r ⟨[], [], []⟩) := by
  have hspec := visit_spec hout hr List.not_mem_nil
    (fun _ hu => absurd hu List.not_mem_nil)
    (length_unvisited_le nodes (⟨[], [], []⟩ : Search ν ε))
  refine ⟨hspec.onStack, hspec.self, fun w e hreach he => ?_, fun e x he hex => ?_⟩
  · have hw : w ∈ (visit out nodes.length r ⟨[], [], []⟩).visited := by
      clear he
      induction hreach with
      | refl => exact hspec.self
      | tail _ hstep ih =>
        obtain ⟨e', he'⟩ := hstep
        exact (hspec.scanned _ ih List.not_mem_nil e' _ he').1
    exact (hspec.scanned w hw List.not_mem_nil e r he).2 (Or.inr (Or.inl rfl))
  · rcases hspec.back e he with he | ⟨w, x', hwx, _, _, hown⟩
    · cases he
    · obtain ⟨rfl, rfl⟩ := hinj e r x w x' hex hwx
      rcases hown rfl with h | h
      · exact h
      · cases h

omit [DecidableEq ν] in
theorem FirstRoot.visit {r u : ν} {s' : Search ν ε}
    (hinj : ∀ e w x w' x', (e, x) ∈ out w → (e, x') ∈ out w' → w = w' ∧ x = x')
    (h : FirstRoot out r s) (hspec : VisitSpec out u s s') : FirstRoot out r s' := by
  refine ⟨hspec.onStack.trans h.onStack, hspec.visited r h.visited,
    fun w e hreach he => hspec.marked e (h.into w e hreach he), fun e x he hex => ?_⟩
  rcases hspec.back e he with he | ⟨w, x', hwx, hnew, _⟩
  · exact h.own e x he hex
  · obtain ⟨rfl, -⟩ := hinj e r x w x' hex hwx
    exact absurd h.visited hnew

theorem firstRoot_search (hout : ∀ w e x, (e, x) ∈ out w → x ∈ nodes)
    (hinj : ∀ e w x w' x', (e, x) ∈ out w → (e, x') ∈ out w' → w = w' ∧ x = x') {r : ν}
    {rest : List ν} (hroots : ∀ u ∈ r :: rest, u ∈ nodes) :
    FirstRoot out r (search out nodes.length (r :: rest)) := by
  rw [search, List.foldl_cons, if_neg List.not_mem_nil]
  have hstart := firstRoot_visit hout hinj (hroots r (List.mem_cons_self ..))
  generalize Dfs.visit out nodes.length r ⟨[], [], []⟩ = s at hstart ⊢
  induction rest generalizing s with
  | nil => exact hstart
  | cons u rest ih =>
    have hrest : ∀ w ∈ r :: rest, w ∈ nodes := by
      intro w hw
      rcases List.mem_cons.mp hw with rfl | hw
      · exact hroots w (List.mem_cons_self ..)
      · exact hroots w (List.mem_cons_of_mem _ (List.mem_cons_of_mem _ hw))
    rw [List.foldl_cons]
    refine ih hrest _ ?_
    by_cases hvis : u ∈ s.visited
    · rw [if_pos hvis]
      exact hstart
    · rw [if_neg hvis]
      have hu := hroots u (List.mem_cons_of_mem _ (List.mem_cons_self ..))
      refine hstart.visit hinj (visit_spec hout hu hvis (fun w hw => ?_)
        (length_unvisited_le nodes s))
      rw [hstart.onStack] at hw
      cases hw

end Dfs
