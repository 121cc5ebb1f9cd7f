import Aimp.Lib.DepthWalk
import Mathlib.Data.List.Nodup
import Mathlib.Data.Option.Basic

/-!
# What a depth-bounded walk misses

The walk takes its stack from the top, so that it may come to a name by a long route before it comes to
it by a short one. A name that it marks at the very limit keeps it from what lies behind, although
another route may lead there in time. If no name within the limit is cut off in this way
(`Spec.Cuts`), then the walk visits exactly the names within the limit, in whatever order the roots and
the links are taken (`mem_walk_visited_iff`). If one is, then some order leads the walk to it
(`cutsOff_of_leading`).
-/

namespace DepthWalk

variable {η ν : Type*}

/-! ## Routes -/

/-- The names from a name up to a root, each one below the next, at none of which the walk stops. -/
inductive Spec.Route (w : Spec η ν) (roots : List η) : List η → Prop
  | root {r : η} : r ∈ roots → w.stop r = false → Route w roots [r]
  | link {h k : η} {l : List η} : Route w roots (k :: l) → w.Below h k → w.stop h = false →
      Route w roots (h :: k :: l)

/-- A route of at most `d` links leads from `h` up to a root. -/
def Spec.Within (w : Spec η ν) (roots : List η) (d : ℕ) (h : η) : Prop :=
  ∃ l, w.Route roots (h :: l) ∧ l.length ≤ d

/-- A name within fewer links than the limit that is also at the end of a route of exactly as many,
without a repetition, and a present name below it that is not a root and below no other name of the
route. -/
def Spec.Cuts (w : Spec η ν) (roots : List η) : Prop :=
  ∃ u l q, w.Route roots (u :: l) ∧ (u :: l).Nodup ∧ l.length = w.limit ∧
    (∃ d < w.limit, w.Within roots d u) ∧ w.Below q u ∧ w.stop q = false ∧ (w.node q).isSome ∧
    q ∉ roots ∧ ∀ k ∈ l, ¬ w.Below q k

variable {w : Spec η ν} {roots : List η} {l : List η}

theorem Spec.Route.stop (hl : w.Route roots l) : ∀ h ∈ l, w.stop h = false := by
  induction hl with
  | root _ hstop => exact List.forall_mem_singleton.mpr hstop
  | link _ _ hstop ih => exact List.forall_mem_cons.mpr ⟨hstop, ih⟩

/-- A name of a route is a root or below another one. -/
theorem Spec.Route.root_or_below {u : η} (hl : w.Route roots (u :: l)) :
    ∀ h ∈ u :: l, h ∈ roots ∨ ∃ k ∈ l, w.Below h k := by
  induction l generalizing u with
  | nil =>
    cases hl with
    | root hr _ => exact List.forall_mem_singleton.mpr (Or.inl hr)
  | cons k l ih =>
    cases hl with
    | link hl hbelow _ =>
      refine List.forall_mem_cons.mpr ⟨Or.inr ⟨k, List.mem_cons_self .., hbelow⟩, fun h hh => ?_⟩
      rcases ih hl h hh with hr | ⟨j, hj, hb⟩
      · exact Or.inl hr
      · exact Or.inr ⟨j, List.mem_cons_of_mem k hj, hb⟩

theorem Spec.Route.exists_root {u : η} (hl : w.Route roots (u :: l)) :
    ∃ r ∈ roots, (u :: l).getLast? = some r := by
  induction l generalizing u with
  | nil =>
    cases hl with
    | root hr _ => exact ⟨u, hr, rfl⟩
  | cons k l ih =>
    cases hl with
    | link hl _ _ =>
      obtain ⟨r, hr, hlast⟩ := ih hl
      exact ⟨r, hr, by rwa [List.getLast?_cons_cons]⟩

/-! ## The trails of a walk -/

/-- `u` was visited at depth `d`, and the links of its node have been visited or are on the stack, unless
they lie too deep. -/
def Handled (w : Spec η ν) (s : State η ν) (u : η) (d : ℕ) : Prop :=
  u ∈ s.visited ∧ d ≤ w.limit ∧
    ∀ q, w.Below q u → w.stop q = false → q ∈ s.visited ∨ d = w.limit ∨ (q, d + 1) ∈ s.queue

/-- A route by which the walk has come to a name. -/
inductive Trail (w : Spec η ν) (roots : List η) (s : State η ν) : List η → Prop
  | root {r : η} : r ∈ roots → w.stop r = false → Handled w s r 0 → Trail w roots s [r]
  | link {h k : η} {l : List η} : Trail w roots s (k :: l) → w.Below h k → w.stop h = false →
      h ∉ k :: l → Handled w s h (l.length + 1) → Trail w roots s (h :: k :: l)

section Trail

variable {s s' : State η ν} {u : η}

theorem Trail.route (hl : Trail w roots s l) : w.Route roots l := by
  induction hl with
  | root hr hstop _ => exact .root hr hstop
  | link _ hbelow hstop _ _ ih => exact .link ih hbelow hstop

theorem Trail.nodup (hl : Trail w roots s l) : l.Nodup := by
  induction hl with
  | root => exact List.nodup_singleton _
  | link _ _ _ hnew _ ih => exact List.nodup_cons.mpr ⟨hnew, ih⟩

theorem Trail.handled (hl : Trail w roots s (u :: l)) : Handled w s u l.length := by
  cases hl with
  | root _ _ hhandled => exact hhandled
  | link _ _ _ _ hhandled => exact hhandled

/-- The names above the last one were visited at smaller depths. -/
theorem Trail.handled_of_mem (hl : Trail w roots s (u :: l)) :
    ∀ k ∈ l, ∃ d < l.length, Handled w s k d := by
  induction l generalizing u with
  | nil => exact fun k hk => absurd hk List.not_mem_nil
  | cons k l ih =>
    cases hl with
    | link hl _ _ _ _ =>
      refine List.forall_mem_cons.mpr ⟨⟨l.length, l.length.lt_succ_self, hl.handled⟩, fun j hj => ?_⟩
      obtain ⟨d, hd, hhandled⟩ := ih hl j hj
      exact ⟨d, Nat.lt_succ_of_lt hd, hhandled⟩

theorem Trail.visited (hl : Trail w roots s (u :: l)) : ∀ h ∈ u :: l, h ∈ s.visited := by
  refine List.forall_mem_cons.mpr ⟨hl.handled.1, fun k hk => ?_⟩
  obtain ⟨d, _, hhandled⟩ := hl.handled_of_mem k hk
  exact hhandled.1

theorem Trail.mono (hmono : ∀ u d, Handled w s u d → Handled w s' u d) (hl : Trail w roots s l) :
    Trail w roots s' l := by
  induction hl with
  | root hr hstop hhandled => exact .root hr hstop (hmono _ _ hhandled)
  | link _ hbelow hstop hnew hhandled ih => exact .link ih hbelow hstop hnew (hmono _ _ hhandled)

/-- Why a name is on the stack at a depth. -/
def Pending (w : Spec η ν) (roots : List η) (s : State η ν) (h : η) (d : ℕ) : Prop :=
  (d = 0 ∧ h ∈ roots) ∨ ∃ k l, Trail w roots s (k :: l) ∧ w.Below h k ∧ d = l.length + 1

theorem Pending.within {h : η} {d : ℕ} (hp : Pending w roots s h d) (hstop : w.stop h = false) :
    w.Within roots d h := by
  rcases hp with ⟨rfl, hr⟩ | ⟨k, l, hl, hbelow, rfl⟩
  · exact ⟨[], .root hr hstop, le_rfl⟩
  · exact ⟨k :: l, .link hl.route hbelow hstop, le_rfl⟩

/-- The walk has come to all visited names by routes, and has forgotten no root. -/
structure Traced (w : Spec η ν) (roots : List η) (s : State η ν) : Prop where
  visited : ∀ u ∈ s.visited, ∃ l, Trail w roots s (u :: l)
  queue : ∀ c ∈ s.queue, Pending w roots s c.1 c.2
  roots : ∀ r ∈ roots, w.stop r = false → r ∈ s.visited ∨ (r, 0) ∈ s.queue

theorem traced_roots (w : Spec η ν) (roots : List η) :
    Traced w roots ⟨(roots.map (·, 0)).reverse, [], []⟩ where
  visited u hu := absurd hu List.not_mem_nil
  queue c hc := by
    obtain ⟨r, hr, rfl⟩ := List.mem_map.mp (List.mem_reverse.mp hc)
    exact Or.inl ⟨rfl, hr⟩
  roots r hr _ := Or.inr (List.mem_reverse.mpr (List.mem_map.mpr ⟨r, hr, rfl⟩))

end Trail

/-! ## One round -/

section Step

variable [DecidableEq η] {s : State η ν} {h : η} {depth : ℕ} {rest : List (η × ℕ)}

/-- A round skips the name, or it visits it and puts its links on the stack. -/
theorem step_cases (w : Spec η ν) (h : η) (depth : ℕ) (rest : List (η × ℕ)) (s : State η ν) :
    ((h ∈ s.visited ∨ w.stop h = true ∨ w.limit < depth) ∧
      step w h depth rest s = { s with queue := rest }) ∨
    ((h ∉ s.visited ∧ w.stop h = false ∧ depth ≤ w.limit) ∧
      (step w h depth rest s).visited = h :: s.visited ∧
      ∀ c, c ∈ (step w h depth rest s).queue ↔ c ∈ rest ∨ w.Below c.1 h ∧ c.2 = depth + 1) := by
  unfold step
  split
  · rename_i hskip
    exact Or.inl ⟨hskip, rfl⟩
  · rename_i hskip
    push Not at hskip
    obtain ⟨hv, hstop, hdepth⟩ := hskip
    refine Or.inr ⟨⟨hv, Bool.eq_false_iff.mpr hstop, hdepth⟩, ?_⟩
    unfold Spec.Below
    cases hn : w.node h with
    | none => exact ⟨rfl, fun c => by simp⟩
    | some n =>
      refine ⟨rfl, fun c => ?_⟩
      simp only [List.mem_append, List.mem_reverse, List.mem_map, Option.some.injEq,
        exists_eq_left', or_comm (a := c ∈ rest)]
      refine or_congr_left ⟨?_, ?_⟩
      · rintro ⟨p, hp, rfl⟩
        exact ⟨hp, rfl⟩
      · rintro ⟨hp, hd⟩
        exact ⟨c.1, hp, Prod.ext rfl hd.symm⟩

theorem visited_step {u : η} (hu : u ∈ s.visited) : u ∈ (step w h depth rest s).visited := by
  rcases step_cases w h depth rest s with ⟨-, heq⟩ | ⟨-, hvisited, -⟩
  · rwa [heq]
  · rw [hvisited]
    exact List.mem_cons_of_mem h hu

/-- A name on the stack stays there until it is visited, unless the walk stops at it or it lies too
deep. -/
theorem queue_step {q : η} {d : ℕ} (hq : s.queue = (h, depth) :: rest) (hqd : (q, d) ∈ s.queue)
    (hstop : w.stop q = false) :
    q ∈ (step w h depth rest s).visited ∨ w.limit < d ∨ (q, d) ∈ (step w h depth rest s).queue := by
  rw [hq] at hqd
  rcases step_cases w h depth rest s with ⟨hskip, heq⟩ | ⟨-, hvisited, hqueue⟩
  · rw [heq]
    rcases List.mem_cons.mp hqd with hhead | hrest
    · obtain ⟨rfl, rfl⟩ := Prod.mk.inj hhead
      rcases hskip with hv | hstop' | hdeep
      · exact Or.inl hv
      · rw [hstop] at hstop'
        cases hstop'
      · exact Or.inr (Or.inl hdeep)
    · exact Or.inr (Or.inr hrest)
  · rcases List.mem_cons.mp hqd with hhead | hrest
    · rw [(Prod.mk.inj hhead).1, hvisited]
      exact Or.inl (List.mem_cons_self ..)
    · exact Or.inr (Or.inr ((hqueue _).mpr (Or.inl hrest)))

theorem Handled.step {u : η} {d : ℕ} (hs : Handled w s u d) (hq : s.queue = (h, depth) :: rest) :
    Handled w (step w h depth rest s) u d := by
  obtain ⟨hu, hd, hlinks⟩ := hs
  refine ⟨visited_step hu, hd, fun q hbelow hstop => ?_⟩
  rcases hlinks q hbelow hstop with hv | hlimit | hqd
  · exact Or.inl (visited_step hv)
  · exact Or.inr (Or.inl hlimit)
  · rcases queue_step hq hqd hstop with hv | hdeep | hqd
    · exact Or.inl hv
    · exact Or.inr (Or.inl (by omega))
    · exact Or.inr (Or.inr hqd)

theorem Trail.step (hl : Trail w roots s l) (hq : s.queue = (h, depth) :: rest) :
    Trail w roots (step w h depth rest s) l :=
  hl.mono fun _ _ hu => hu.step hq

theorem Pending.step {k : η} {d : ℕ} (hp : Pending w roots s k d)
    (hq : s.queue = (h, depth) :: rest) : Pending w roots (step w h depth rest s) k d := by
  rcases hp with hr | ⟨j, l, hl, hbelow, hd⟩
  · exact Or.inl hr
  · exact Or.inr ⟨j, l, hl.step hq, hbelow, hd⟩

/-- A name that is visited now gets the trail for which it was on the stack. -/
theorem Traced.trail_step (hs : Traced w roots s) (hq : s.queue = (h, depth) :: rest)
    (hnew : h ∉ s.visited) (hstop : w.stop h = false)
    (hhandled : Handled w (step w h depth rest s) h depth) :
    ∃ l, Trail w roots (step w h depth rest s) (h :: l) ∧ l.length = depth := by
  rcases hs.queue (h, depth) (by rw [hq]; exact List.mem_cons_self ..) with
    ⟨hzero, hr⟩ | ⟨k, l, hl, hbelow, hd⟩
  · obtain rfl : depth = 0 := hzero
    exact ⟨[], .root hr hstop hhandled, rfl⟩
  · obtain rfl : depth = l.length + 1 := hd
    exact ⟨k :: l, .link (hl.step hq) hbelow hstop (fun hmem => hnew (hl.visited h hmem)) hhandled,
      rfl⟩

theorem Traced.step (hs : Traced w roots s) (hq : s.queue = (h, depth) :: rest) :
    Traced w roots (step w h depth rest s) := by
  have hrest : ∀ c ∈ rest, Pending w roots (DepthWalk.step w h depth rest s) c.1 c.2 :=
    fun c hc => (hs.queue c (by rw [hq]; exact List.mem_cons_of_mem _ hc)).step hq
  have hold : ∀ u ∈ s.visited, ∃ l, Trail w roots (DepthWalk.step w h depth rest s) (u :: l) := by
    intro u hu
    obtain ⟨l, hl⟩ := hs.visited u hu
    exact ⟨l, hl.step hq⟩
  have hroots : ∀ r ∈ roots, w.stop r = false →
      r ∈ (DepthWalk.step w h depth rest s).visited ∨
        (r, 0) ∈ (DepthWalk.step w h depth rest s).queue := by
    intro r hr hstop
    rcases hs.roots r hr hstop with hv | hqr
    · exact Or.inl (visited_step hv)
    · exact (queue_step hq hqr hstop).imp_right fun h => h.resolve_left (Nat.not_lt_zero _)
  rcases step_cases w h depth rest s with ⟨-, heq⟩ | ⟨⟨hnew, hstop, hdepth⟩, hvisited, hqueue⟩
  · refine ⟨?_, ?_, hroots⟩
    · rwa [heq] at hold ⊢
    · rwa [heq] at hrest ⊢
  · -- the name has been visited at its depth, and its links are on the stack
    have hhandled : Handled w (DepthWalk.step w h depth rest s) h depth := by
      refine ⟨by rw [hvisited]; exact List.mem_cons_self .., hdepth, fun q hbelow _ => ?_⟩
      exact Or.inr (Or.inr ((hqueue _).mpr (Or.inr ⟨hbelow, rfl⟩)))
    obtain ⟨l, hl, hlen⟩ := hs.trail_step hq hnew hstop hhandled
    refine ⟨fun u hu => ?_, fun c hc => ?_, hroots⟩
    · rw [hvisited] at hu
      rcases List.mem_cons.mp hu with rfl | hu
      · exact ⟨l, hl⟩
      · exact hold u hu
    · rcases (hqueue c).mp hc with hc | ⟨hbelow, hd⟩
      · exact hrest c hc
      · exact Or.inr ⟨h, l, hl, hbelow, by rw [hd, hlen]⟩

theorem traced_run (w : Spec η ν) (roots : List η) (fuel : ℕ) :
    Traced w roots (run w fuel ⟨(roots.map (·, 0)).reverse, [], []⟩) :=
  run_induction (fun _ _ _ _ hq hs => hs.step hq) fuel _ (traced_roots w roots)

/-! ## The names within the limit -/

omit [DecidableEq η] in
/-- A name at the limit is the only kind of name whose links may be missed. -/
theorem Traced.missed {u q : η} (hs : Traced w roots s) (hdone : s.queue = [])
    (hl : Trail w roots s (u :: l)) (hbelow : w.Below q u) (hstop : w.stop q = false) (hq : q ∉ s.visited) :
    l.length = w.limit ∧ q ∉ roots ∧ ∀ k ∈ l, ¬ w.Below q k := by
  have hlinks : ∀ {k d}, Handled w s k d → w.Below q k → d = w.limit := by
    rintro k d ⟨-, -, hlinks⟩ hbelow
    rcases hlinks q hbelow hstop with hv | hlimit | hqd
    · exact absurd hv hq
    · exact hlimit
    · rw [hdone] at hqd
      exact absurd hqd List.not_mem_nil
  have hlimit := hlinks hl.handled hbelow
  refine ⟨hlimit, fun hr => ?_, fun k hk hbelow => ?_⟩
  · rcases hs.roots q hr hstop with hv | hqd
    · exact hq hv
    · rw [hdone] at hqd
      exact absurd hqd List.not_mem_nil
  · obtain ⟨d, hd, hhandled⟩ := hl.handled_of_mem k hk
    have := hlinks hhandled hbelow
    omega

theorem Traced.mem_visited {h : η} (hs : Traced w roots s) (hdone : s.queue = [])
    (hcuts : ¬ w.Cuts roots) {l : List η} (hl : w.Route roots (h :: l)) (hlen : l.length ≤ w.limit)
    (hn : (w.node h).isSome) : h ∈ s.visited := by
  induction l generalizing h with
  | nil =>
    cases hl with
    | root hr hstop =>
      rcases hs.roots h hr hstop with hv | hq
      · exact hv
      · rw [hdone] at hq
        exact absurd hq List.not_mem_nil
  | cons u l ih =>
    cases hl with
    | link hl hbelow hstop =>
      by_contra hnew
      rw [List.length_cons] at hlen
      have hu : (w.node u).isSome := by
        obtain ⟨n, hn, -⟩ := hbelow
        rw [hn]
        rfl
      obtain ⟨t, ht⟩ := hs.visited u (ih hl (by omega) hu)
      obtain ⟨hlimit, hroot, habove⟩ := hs.missed hdone ht hbelow hstop hnew
      exact hcuts ⟨u, t, h, ht.route, ht.nodup, hlimit, ⟨l.length, by omega, l, hl, le_rfl⟩, hbelow,
        hstop, hn, hroot, habove⟩

/-- Unless the limit can cut a name off, a walk that empties its stack visits exactly the names within
the limit. -/
theorem mem_walk_visited_iff {h : η} {fuel : ℕ} (hdone : (walk w fuel roots).queue = [])
    (hcuts : ¬ w.Cuts roots) (hn : (w.node h).isSome) :
    h ∈ (walk w fuel roots).visited ↔ w.Within roots w.limit h := by
  have hs := traced_run w roots fuel
  constructor
  · intro hh
    obtain ⟨l, hl⟩ := hs.visited h hh
    exact ⟨l, hl.route, hl.handled.2.1⟩
  · rintro ⟨l, hl, hlen⟩
    exact hs.mem_visited hdone hcuts hl hlen hn

/-! ## The round that cuts a name off -/

/-- The next round marks `u` at the limit, although `u` lies nearer, and the present name `q` below it
has neither been visited nor is waiting on the stack. -/
def CutsOff (w : Spec η ν) (roots : List η) (s : State η ν) (u q : η) : Prop :=
  ∃ rest, s.queue = (u, w.limit) :: rest ∧ u ∉ s.visited ∧ w.stop u = false ∧
    (∃ d < w.limit, w.Within roots d u) ∧ w.Below q u ∧ w.stop q = false ∧ (w.node q).isSome ∧
    q ≠ u ∧ q ∉ s.visited ∧ ∀ d, (q, d) ∉ rest

omit [DecidableEq η] in
theorem Traced.cuts {u q : η} (hs : Traced w roots s) (hcut : CutsOff w roots s u q) :
    w.Cuts roots := by
  obtain ⟨rest, hq, hu, hstop, hnear, hbelow, hqstop, hqn, hqu, hqv, hqrest⟩ := hcut
  have hqqueue : ∀ d, (q, d) ∉ s.queue := by
    intro d hd
    rw [hq] at hd
    rcases List.mem_cons.mp hd with hhead | hd
    · exact hqu (Prod.mk.inj hhead).1
    · exact hqrest d hd
  have hlinks : ∀ {k d}, Handled w s k d → w.Below q k → d = w.limit := by
    rintro k d ⟨-, -, hlinks⟩ hbelow
    rcases hlinks q hbelow hqstop with hv | hlimit | hqd
    · exact absurd hv hqv
    · exact hlimit
    · exact absurd hqd (hqqueue _)
  rcases hs.queue (u, w.limit) (by rw [hq]; exact List.mem_cons_self ..) with
    ⟨hzero, -⟩ | ⟨k, l, hl, hbelow', hd⟩
  · obtain ⟨d, hd, -⟩ := hnear
    have hzero : w.limit = 0 := hzero
    omega
  · have hd : w.limit = l.length + 1 := hd
    refine ⟨u, k :: l, q, .link hl.route hbelow' hstop, ?_, hd.symm, hnear, hbelow, hqstop, hqn, ?_, ?_⟩
    · exact List.nodup_cons.mpr ⟨fun hmem => hu (hl.visited u hmem), hl.nodup⟩
    · intro hr
      rcases hs.roots q hr hqstop with hv | hqd
      · exact hqv hv
      · exact hqqueue 0 hqd
    · intro j hj hbelow
      rcases List.mem_cons.mp hj with rfl | hj
      · have := hlinks hl.handled hbelow
        omega
      · obtain ⟨d, hdl, hhandled⟩ := hl.handled_of_mem j hj
        have := hlinks hhandled hbelow
        omega

/-- `u` has been visited, and `q` is neither visited nor waiting within the limit. -/
def Lost (w : Spec η ν) (u q : η) (s : State η ν) : Prop :=
  u ∈ s.visited ∧ q ∉ s.visited ∧ ∀ d, (q, d) ∈ s.queue → w.limit < d

/-- A name that is below no other name nearer than the limit stays lost. -/
theorem Lost.step {u q : η} (hs : Lost w u q s) (htraced : Traced w roots s)
    (honly : ∀ k d, d < w.limit → w.Within roots d k → w.Below q k → k = u)
    (hq : s.queue = (h, depth) :: rest) : Lost w u q (step w h depth rest s) := by
  obtain ⟨hu, hqv, hqueue⟩ := hs
  have hrest : ∀ d, (q, d) ∈ rest → w.limit < d :=
    fun d hd => hqueue d (by rw [hq]; exact List.mem_cons_of_mem _ hd)
  rcases step_cases w h depth rest s with ⟨-, heq⟩ | ⟨⟨hnew, hstop, hdepth⟩, hvisited, hqueue'⟩
  · rw [heq]
    exact ⟨hu, hqv, hrest⟩
  · unfold Lost
    rw [hvisited]
    refine ⟨List.mem_cons_of_mem h hu, fun hmem => ?_, fun d hd => ?_⟩
    · rcases List.mem_cons.mp hmem with rfl | hmem
      · have := hqueue depth (by rw [hq]; exact List.mem_cons_self ..)
        omega
      · exact hqv hmem
    · rcases (hqueue' _).mp hd with hd | ⟨hbelow, hd⟩
      · exact hrest d hd
      · have hwithin : w.Within roots depth h :=
          (htraced.queue (h, depth) (by rw [hq]; exact List.mem_cons_self ..)).within hstop
        have hd : d = depth + 1 := hd
        rcases hdepth.lt_or_eq with hlt | heq
        · rw [honly h depth hlt hwithin hbelow] at hnew
          exact absurd hu hnew
        · omega

theorem run_add (w : Spec η ν) (n m : ℕ) (s : State η ν) : run w (n + m) s = run w m (run w n s) := by
  induction n generalizing s with
  | zero => rw [Nat.zero_add, run]
  | succ n ih =>
    rw [Nat.succ_add, run, run]
    split
    · rename_i hq
      cases m with
      | zero => rfl
      | succ m => rw [run, hq]
    · exact ih _

/-- A name that is cut off from `u`, the only nearer name above it, is never visited. -/
theorem CutsOff.not_visited {u q : η} (hcut : CutsOff w roots s u q) (hs : Traced w roots s)
    (honly : ∀ k d, d < w.limit → w.Within roots d k → w.Below q k → k = u) (n : ℕ) :
    q ∉ (run w n s).visited := by
  obtain ⟨rest, hq, hu, hstop, -, -, -, -, hqu, hqv, hqrest⟩ := hcut
  cases n with
  | zero => exact hqv
  | succ n =>
    rw [run, hq]
    have hlost : Lost w u q (step w u w.limit rest s) := by
      rcases step_cases w u w.limit rest s with ⟨hskip, -⟩ | ⟨-, hvisited, hqueue⟩
      · rw [hstop] at hskip
        simp only [hu, Bool.false_eq_true, lt_irrefl, or_self] at hskip
      · unfold Lost
        rw [hvisited]
        refine ⟨List.mem_cons_self .., List.not_mem_cons_of_ne_of_not_mem hqu hqv, fun d hd => ?_⟩
        rcases (hqueue _).mp hd with hd | ⟨-, hd⟩
        · exact absurd hd (hqrest d)
        · have hd : d = w.limit + 1 := hd
          omega
    have hinv := run_induction (P := fun s => Traced w roots s ∧ Lost w u q s)
      (fun _ _ _ _ hq hs => ⟨hs.1.step hq, hs.2.step hs.1 honly hq⟩) n _ ⟨hs.step hq, hlost⟩
    exact hinv.2.2.1

theorem run_walk {n fuel : ℕ} (hdone : (walk w fuel roots).queue = []) :
    run w fuel (run w n ⟨(roots.map (·, 0)).reverse, [], []⟩) = walk w fuel roots := by
  have hend : run w n (walk w fuel roots) = walk w fuel roots := by
    cases n with
    | zero => rfl
    | succ n => rw [run, hdone]
  rw [← hend, walk, ← run_add, Nat.add_comm, run_add]

/-- What a walk has visited stays visited to its end. -/
theorem mem_walk_of_mem_run {q : η} {n fuel : ℕ} (hdone : (walk w fuel roots).queue = [])
    (hq : q ∈ (run w n ⟨(roots.map (·, 0)).reverse, [], []⟩).visited) :
    q ∈ (walk w fuel roots).visited := by
  rw [← run_walk hdone]
  refine run_induction (P := fun s => q ∈ s.visited) (fun h depth rest s _ hs => ?_) fuel _ hq
  rcases step_cases w h depth rest s with ⟨-, heq⟩ | ⟨-, hvisited, -⟩
  · rw [heq]
    exact hs
  · rw [hvisited]
    exact List.mem_cons_of_mem h hs

theorem CutsOff.not_mem_walk {u q : η} {n fuel : ℕ}
    (hcut : CutsOff w roots (run w n ⟨(roots.map (·, 0)).reverse, [], []⟩) u q)
    (honly : ∀ k d, d < w.limit → w.Within roots d k → w.Below q k → k = u)
    (hdone : (walk w fuel roots).queue = []) : q ∉ (walk w fuel roots).visited := by
  rw [← run_walk hdone]
  exact hcut.not_visited (traced_run w roots n) honly fuel

/-! ## An order that leads there -/

/-- A route whose names are the last of the links, so that the walk takes it first. -/
inductive Leading (w : Spec η ν) (roots : List η) : List η → Prop
  | root {r : η} : roots.getLast? = some r → w.stop r = false → Leading w roots [r]
  | link {h k : η} {l : List η} {n : ν} : Leading w roots (k :: l) → w.node k = some n →
      (w.links n).getLast? = some h → w.stop h = false → h ∉ k :: l → Leading w roots (h :: k :: l)

omit [DecidableEq η] in
theorem Leading.route (hl : Leading w roots l) : w.Route roots l := by
  induction hl with
  | root hr hstop => exact .root (List.mem_of_getLast? hr) hstop
  | link _ hn hlast hstop _ ih => exact .link ih ⟨_, hn, List.mem_of_getLast? hlast⟩ hstop

omit [DecidableEq η] in
theorem Leading.head {u : η} (hl : Leading w roots (u :: l)) : u ∉ l ∧ w.stop u = false := by
  cases hl with
  | root _ hstop => exact ⟨List.not_mem_nil, hstop⟩
  | link _ _ _ hstop hnew => exact ⟨hnew, hstop⟩

/-- The walk goes down a leading route, name by name. -/
theorem run_leading {u : η} (hl : Leading w roots (u :: l)) (hlen : l.length ≤ w.limit) :
    ∃ rest, (run w l.length ⟨(roots.map (·, 0)).reverse, [], []⟩).queue = (u, l.length) :: rest ∧
      (run w l.length ⟨(roots.map (·, 0)).reverse, [], []⟩).visited = l ∧
      ∀ c ∈ rest, c.1 ∈ roots ∨ ∃ k ∈ l, w.Below c.1 k := by
  induction l generalizing u with
  | nil =>
    cases hl with
    | root hr _ =>
      obtain ⟨init, rfl⟩ := List.getLast?_eq_some_iff.mp hr
      refine ⟨(init.map (·, 0)).reverse, by simp [run], rfl, fun c hc => ?_⟩
      obtain ⟨r, hr, rfl⟩ := List.mem_map.mp (List.mem_reverse.mp hc)
      exact Or.inl (List.mem_append_left _ hr)
  | cons k l ih =>
    cases hl with
    | @link _ _ _ n hl hn hlast hstop hnew =>
      rw [List.length_cons] at hlen
      obtain ⟨rest, hqueue, hvisited, hrest⟩ := ih hl (by omega)
      have hk := hl.head
      obtain ⟨init, hinit⟩ := List.getLast?_eq_some_iff.mp hlast
      have hskip : ¬ (k ∈ l ∨ w.stop k = true ∨ w.limit < l.length) := by
        rw [hk.2]
        simp only [hk.1, Bool.false_eq_true, false_or]
        omega
      rw [List.length_cons, run_add]
      generalize run w l.length ⟨(roots.map (·, 0)).reverse, [], []⟩ = s at hqueue hvisited ⊢
      have hstep : run w 1 s = ⟨((w.links n).map (·, l.length + 1)).reverse ++ rest, k :: l,
          s.found ++ [n]⟩ := by
        simp only [run, hqueue, step, hvisited, if_neg hskip, hn]
      rw [hstep, hinit]
      refine ⟨(init.map (·, l.length + 1)).reverse ++ rest, by simp, rfl, fun c hc => ?_⟩
      rcases List.mem_append.mp hc with hc | hc
      · obtain ⟨p, hp, rfl⟩ := List.mem_map.mp (List.mem_reverse.mp hc)
        exact Or.inr ⟨k, List.mem_cons_self .., n, hn, hinit ▸ List.mem_append_left _ hp⟩
      · rcases hrest c hc with hr | ⟨j, hj, hbelow⟩
        · exact Or.inl hr
        · exact Or.inr ⟨j, List.mem_cons_of_mem k hj, hbelow⟩

theorem mem_walk_of_leading {u : η} {fuel : ℕ} (hl : Leading w roots (u :: l))
    (hlen : l.length ≤ w.limit) (hdone : (walk w fuel roots).queue = []) :
    u ∈ (walk w fuel roots).visited := by
  obtain ⟨rest, hqueue, hvisited, -⟩ := run_leading hl hlen
  refine mem_walk_of_mem_run (n := l.length + 1) hdone ?_
  rw [run_add]
  generalize run w l.length ⟨(roots.map (·, 0)).reverse, [], []⟩ = s at hqueue hvisited ⊢
  have hround : run w 1 s = step w u l.length rest s := by
    simp only [run, hqueue]
  rw [hround]
  rcases step_cases w u l.length rest s with ⟨hskip, -⟩ | ⟨-, hvisited', -⟩
  · rw [hvisited, hl.head.2] at hskip
    simp only [hl.head.1, Bool.false_eq_true, false_or] at hskip
    omega
  · rw [hvisited']
    exact List.mem_cons_self ..

/-- If the route by which a name can be cut off is taken first, then the walk cuts the name off. -/
theorem cutsOff_of_leading {u q : η} (hl : Leading w roots (u :: l)) (hlen : l.length = w.limit) (hnear : ∃ d < w.limit, w.Within roots d u) (hbelow : w.Below q u)
    (hstop : w.stop q = false) (hn : (w.node q).isSome) (hroot : q ∉ roots)
    (habove : ∀ k ∈ l, ¬ w.Below q k) :
    CutsOff w roots (run w w.limit ⟨(roots.map (·, 0)).reverse, [], []⟩) u q := by
  obtain ⟨rest, hqueue, hvisited, hrest⟩ := run_leading hl hlen.le
  rw [hlen] at hqueue hvisited
  have hu := hl.head
  have hq : q ∉ u :: l := by
    intro hmem
    rcases hl.route.root_or_below q hmem with hr | ⟨k, hk, hb⟩
    · exact hroot hr
    · exact habove k hk hb
  refine ⟨rest, hqueue, hvisited ▸ hu.1, hu.2, hnear, hbelow, hstop, hn,
    List.ne_of_not_mem_cons hq, ?_, fun d hd => ?_⟩
  · rw [hvisited]
    exact fun hmem => hq (List.mem_cons_of_mem u hmem)
  · rcases hrest (q, d) hd with hr | ⟨k, hk, hb⟩
    · exact hroot hr
    · exact habove k hk hb

end Step

/-! ## The order of the roots and the links -/

/-- The walks go over the same names and links, in orders of their own. -/
structure Reordered (w w' : Spec η ν) (roots roots' : List η) : Prop where
  root : ∀ r, r ∈ roots ↔ r ∈ roots'
  below : ∀ p k, w.Below p k ↔ w'.Below p k
  present : ∀ k, (w.node k).isSome = (w'.node k).isSome
  stop : w.stop = w'.stop
  limit : w.limit = w'.limit

section Reordered

variable {w' : Spec η ν} {roots' : List η}

theorem Reordered.symm (h : Reordered w w' roots roots') : Reordered w' w roots' roots where
  root r := (h.root r).symm
  below p k := (h.below p k).symm
  present k := (h.present k).symm
  stop := h.stop.symm
  limit := h.limit.symm

theorem Reordered.route (h : Reordered w w' roots roots') (hl : w.Route roots l) :
    w'.Route roots' l := by
  induction hl with
  | root hr hstop => exact .root ((h.root _).mp hr) (h.stop ▸ hstop)
  | link _ hbelow hstop ih => exact .link ih ((h.below _ _).mp hbelow) (h.stop ▸ hstop)

theorem Reordered.within (h : Reordered w w' roots roots') {d : ℕ} {k : η} :
    w.Within roots d k ↔ w'.Within roots' d k := by
  constructor
  · rintro ⟨l, hl, hlen⟩
    exact ⟨l, h.route hl, hlen⟩
  · rintro ⟨l, hl, hlen⟩
    exact ⟨l, h.symm.route hl, hlen⟩

theorem Reordered.cuts (h : Reordered w w' roots roots') (hcuts : w.Cuts roots) :
    w'.Cuts roots' := by
  obtain ⟨u, l, q, hl, hnodup, hlen, ⟨d, hd, hnear⟩, hbelow, hstop, hn, hroot, habove⟩ := hcuts
  exact ⟨u, l, q, h.route hl, hnodup, h.limit ▸ hlen, ⟨d, h.limit ▸ hd, h.within.mp hnear⟩,
    (h.below _ _).mp hbelow, h.stop ▸ hstop, (h.present q) ▸ hn, fun hr => hroot ((h.root q).mpr hr),
    fun k hk hb => habove k hk ((h.below _ _).mpr hb)⟩

end Reordered

end DepthWalk
