import Mathlib.Data.Finset.Card
import Mathlib.Logic.Function.Iterate
import Mathlib.Logic.Relation

/-!
# Union-find

Disjoint sets over the numbers below `n`, as parent pointers without ranks. `find` halves the path that
it walks, and `union` links one root below another. Joining a list of pairs one after another gives the
equivalence that the pairs generate (`joined_unionAll`).
-/

namespace UnionFind

open Relation

/-- Follow the parents from `x` to its root, pointing every other element on the way to its
grandparent. -/
def find : ℕ → (ℕ → ℕ) → ℕ → (ℕ → ℕ) × ℕ
  | 0, parent, x => (parent, x)
  | fuel + 1, parent, x =>
    if parent x = x then (parent, x)
    else find fuel (Function.update parent x (parent (parent x))) (parent (parent x))

/-- Link the root of `i` below that of `j`, unless they are the same. -/
def union (n : ℕ) (parent : ℕ → ℕ) (i j : ℕ) : ℕ → ℕ :=
  let ri := find n parent i
  let rj := find n ri.1 j
  if ri.2 = rj.2 then rj.1 else Function.update rj.1 ri.2 rj.2

/-- Join the pairs one after another. -/
def unionAll (n : ℕ) (parent : ℕ → ℕ) (pairs : List (ℕ × ℕ)) : ℕ → ℕ :=
  pairs.foldl (fun p e => union n p e.1 e.2) parent

/-! ## Roots -/

/-- The parents of `x` lead in `d` steps to the root `r`. -/
inductive Rep (parent : ℕ → ℕ) : ℕ → ℕ → ℕ → Prop where
  | root {r : ℕ} (h : parent r = r) : Rep parent r r 0
  | step {x r d : ℕ} (hne : parent x ≠ x) (h : Rep parent (parent x) r d) : Rep parent x r (d + 1)

variable {n : ℕ} {parent parent' : ℕ → ℕ} {x y r s d : ℕ}

theorem Rep.det {d' : ℕ} (h : Rep parent x r d) (h' : Rep parent x s d') : r = s ∧ d = d' := by
  induction h generalizing d' with
  | root hr =>
    cases h' with
    | root => exact ⟨rfl, rfl⟩
    | step hne _ => exact absurd hr hne
  | step hne _ ih =>
    cases h' with
    | root hr => exact absurd hr hne
    | step _ h' =>
      obtain ⟨rfl, rfl⟩ := ih h'
      exact ⟨rfl, rfl⟩

theorem Rep.isRoot (h : Rep parent x r d) : parent r = r := by
  induction h with
  | root hr => exact hr
  | step _ _ ih => exact ih

/-- `r` is the root of `x`. -/
def Root (parent : ℕ → ℕ) (x r : ℕ) : Prop := ∃ d, Rep parent x r d

theorem Root.det (h : Root parent x r) (h' : Root parent x s) : r = s := by
  obtain ⟨d, h⟩ := h
  obtain ⟨d', h'⟩ := h'
  exact (h.det h').1

theorem Root.isRoot (h : Root parent x r) : parent r = r := by
  obtain ⟨d, h⟩ := h
  exact h.isRoot

theorem Root.self (h : parent r = r) : Root parent r r := ⟨0, .root h⟩

/-- The parents of the numbers below `n` stay below `n` and lead to roots. -/
structure Forest (n : ℕ) (parent : ℕ → ℕ) : Prop where
  closed : ∀ x < n, parent x < n
  rooted : ∀ x < n, ∃ r, Root parent x r

theorem forest_id : Forest n id := ⟨fun _ h => h, fun x _ => ⟨x, .self rfl⟩⟩

theorem Forest.root_lt (hp : Forest n parent) (hx : x < n) (h : Root parent x r) : r < n := by
  obtain ⟨d, h⟩ := h
  induction h with
  | root => exact hx
  | step _ _ ih => exact ih (hp.closed _ hx)

theorem Rep.iterate {i : ℕ} (h : Rep parent x r d) (hi : i ≤ d) :
    Rep parent (parent^[i] x) r (d - i) := by
  induction i generalizing x d with
  | zero => exact h
  | succ i ih =>
    cases h with
    | root => omega
    | step hne h =>
      rename_i d
      rw [Function.iterate_succ_apply, Nat.add_sub_add_right]
      exact ih h (by omega)

/-- A path to the root visits no number twice, so it has fewer than `n` steps. -/
theorem Forest.depth_lt (hp : Forest n parent) (hx : x < n) (h : Rep parent x r d) : d < n := by
  have hmem : ∀ i, parent^[i] x < n := by
    intro i
    induction i with
    | zero => exact hx
    | succ i ih =>
      rw [Function.iterate_succ_apply']
      exact hp.closed _ ih
  have hinj : Set.InjOn (fun i => parent^[i] x) (Finset.range (d + 1)) := by
    intro i hi j hj hij
    have hi' := Finset.mem_range.mp hi
    have hj' := Finset.mem_range.mp hj
    have hrep := h.iterate (i := j) (by omega)
    rw [← show parent^[i] x = parent^[j] x from hij] at hrep
    have := (h.iterate (i := i) (by omega)).det hrep
    omega
  have hcard := Finset.card_le_card_of_injOn (t := Finset.range n) _
    (fun i _ => Finset.mem_range.mpr (hmem i)) hinj
  rw [Finset.card_range, Finset.card_range] at hcard
  omega

/-- `parent'` is a forest that gives the numbers below `n` the roots that they have in `parent`. -/
structure Keeps (n : ℕ) (parent parent' : ℕ → ℕ) : Prop where
  forest : Forest n parent'
  root : ∀ {x r}, x < n → Root parent x r → Root parent' x r

theorem Keeps.refl (hp : Forest n parent) : Keeps n parent parent := ⟨hp, fun _ h => h⟩

theorem Keeps.trans {parent'' : ℕ → ℕ} (h : Keeps n parent parent')
    (h' : Keeps n parent' parent'') : Keeps n parent parent'' :=
  ⟨h'.forest, fun hx hr => h'.root hx (h.root hx hr)⟩

theorem Keeps.root_iff (h : Keeps n parent parent') (hp : Forest n parent) (hx : x < n) :
    Root parent' x r ↔ Root parent x r := by
  constructor
  · intro hr
    obtain ⟨s, hs⟩ := hp.rooted x hx
    rw [hr.det (h.root hx hs)]
    exact hs
  · exact h.root hx

/-! ## Path halving -/

/-- Halving leaves every root in place, and no path gets longer. -/
theorem Rep.halve (hx : parent x ≠ x) (h : Rep parent y r d) :
    ∃ d' ≤ d, Rep (Function.update parent x (parent (parent x))) y r d' := by
  induction d using Nat.strong_induction_on generalizing y with
  | _ d ih =>
    cases h with
    | root hr =>
      have hyx : r ≠ x := fun hrx => hx (hrx ▸ hr)
      exact ⟨0, le_rfl, .root (by rw [Function.update_of_ne hyx, hr])⟩
    | step hne hrep =>
      rename_i d
      by_cases hyx : y = x
      · subst hyx
        cases hrep with
        | root hr =>
          -- the parent is the root already
          refine ⟨1, le_rfl, .step ?_ ?_⟩
          · rw [Function.update_self, hr]
            exact hne
          · rw [Function.update_self, hr]
            exact .root (by rw [Function.update_of_ne hne, hr])
        | step hne' hrep' =>
          rename_i d
          have hback : parent (parent y) ≠ y := by
            intro hy
            have hlong := Rep.step hne (Rep.step hne' hrep')
            rw [hy] at hrep'
            have := (hlong.det hrep').2
            omega
          obtain ⟨d', hd', hrep''⟩ := ih d (by omega) hrep'
          refine ⟨d' + 1, by omega, .step ?_ ?_⟩
          · rw [Function.update_self]
            exact hback
          · rw [Function.update_self]
            exact hrep''
      · obtain ⟨d', hd', hrep'⟩ := ih d (by omega) hrep
        refine ⟨d' + 1, by omega, .step ?_ ?_⟩
        · rw [Function.update_of_ne hyx]
          exact hne
        · rw [Function.update_of_ne hyx]
          exact hrep'

theorem keeps_halve (hp : Forest n parent) (hx : x < n) (hne : parent x ≠ x) :
    Keeps n parent (Function.update parent x (parent (parent x))) := by
  have hroot : ∀ {y r}, Root parent y r →
      Root (Function.update parent x (parent (parent x))) y r := by
    rintro y r ⟨d, h⟩
    obtain ⟨d', -, h'⟩ := h.halve hne
    exact ⟨d', h'⟩
  refine ⟨⟨fun y hy => ?_, fun y hy => ?_⟩, fun _ h => hroot h⟩
  · by_cases hyx : y = x
    · subst hyx
      rw [Function.update_self]
      exact hp.closed _ (hp.closed _ hx)
    · rw [Function.update_of_ne hyx]
      exact hp.closed _ hy
  · obtain ⟨r, hr⟩ := hp.rooted y hy
    exact ⟨r, hroot hr⟩

theorem find_rep {fuel : ℕ} (hp : Forest n parent) (hx : x < n) (h : Rep parent x r d)
    (hfuel : d ≤ fuel) :
    (find fuel parent x).2 = r ∧ Keeps n parent (find fuel parent x).1 := by
  induction fuel generalizing parent x d with
  | zero =>
    cases h with
    | root => exact ⟨rfl, .refl hp⟩
    | step => omega
  | succ fuel ih =>
    cases h with
    | root hr =>
      rw [find, if_pos hr]
      exact ⟨rfl, .refl hp⟩
    | step hne hrep =>
      rename_i d
      rw [find, if_neg hne]
      have hkeeps := keeps_halve hp hx hne
      have hx' : parent (parent x) < n := hp.closed _ (hp.closed _ hx)
      have hshort : ∃ d' ≤ d, Rep parent (parent (parent x)) r d' := by
        cases hrep with
        | root hr => exact ⟨0, le_rfl, by rw [hr]; exact .root hr⟩
        | step _ hrep => exact ⟨_, by omega, hrep⟩
      obtain ⟨d', hd', hrep'⟩ := hshort
      obtain ⟨d'', hd'', hrep''⟩ := hrep'.halve hne
      obtain ⟨hval, hrest⟩ := ih hkeeps.forest hx' hrep'' (by omega)
      exact ⟨hval, hkeeps.trans hrest⟩

/-- With fuel `n`, `find` returns the root and keeps every root. -/
theorem find_spec (hp : Forest n parent) (hx : x < n) :
    Root parent x (find n parent x).2 ∧ Keeps n parent (find n parent x).1 := by
  obtain ⟨r, d, h⟩ := hp.rooted x hx
  obtain ⟨hval, hkeeps⟩ := find_rep hp hx h (hp.depth_lt hx h).le
  rw [hval]
  exact ⟨⟨d, h⟩, hkeeps⟩

/-! ## Union -/

/-- Linking the root `a` below the root `b` replaces `a` by `b` as a root. -/
theorem root_link {a b : ℕ} (ha : parent a = a) (hb : parent b = b) (hab : a ≠ b)
    (h : Root parent x r) : Root (Function.update parent a b) x (if r = a then b else r) := by
  obtain ⟨d, h⟩ := h
  induction h with
  | root hr =>
    rename_i r
    by_cases hra : r = a
    · subst hra
      rw [if_pos rfl]
      refine ⟨1, .step ?_ ?_⟩
      · rw [Function.update_self]
        exact hab.symm
      · rw [Function.update_self]
        exact .root (by rw [Function.update_of_ne hab.symm, hb])
    · rw [if_neg hra]
      exact .self (by rw [Function.update_of_ne hra, hr])
  | step hne _ ih =>
    rename_i x _ _ _
    have hxa : x ≠ a := fun hxa => hne (hxa ▸ ha)
    obtain ⟨d', hd'⟩ := ih
    exact ⟨d' + 1, .step (by rw [Function.update_of_ne hxa]; exact hne)
      (by rw [Function.update_of_ne hxa]; exact hd')⟩

/-- `x` and `y` have the same root. -/
def Joined (parent : ℕ → ℕ) (x y : ℕ) : Prop := ∃ r, Root parent x r ∧ Root parent y r

theorem Joined.symm (h : Joined parent x y) : Joined parent y x := by
  obtain ⟨r, hx, hy⟩ := h
  exact ⟨r, hy, hx⟩

theorem Joined.trans {z : ℕ} (h : Joined parent x y) (h' : Joined parent y z) :
    Joined parent x z := by
  obtain ⟨r, hx, hy⟩ := h
  obtain ⟨s, hy', hz⟩ := h'
  rw [← hy.det hy'] at hz
  exact ⟨r, hx, hz⟩

/-- What `union` does to the roots: those of `i` and of `j` become one. -/
theorem union_spec {i j : ℕ} (hp : Forest n parent) (hi : i < n) (hj : j < n) :
    ∃ a b, Root parent i a ∧ Root parent j b ∧ Forest n (union n parent i j) ∧
      ∀ {x r}, x < n → Root parent x r →
        Root (union n parent i j) x (if r = a then b else r) := by
  obtain ⟨hri, hki⟩ := find_spec hp hi
  obtain ⟨hrj, hkj⟩ := find_spec hki.forest hj
  have hk := hki.trans hkj
  refine ⟨_, _, hri, (hki.root_iff hp hj).mp hrj, ?_⟩
  unfold union
  dsimp only
  by_cases hab : (find n parent i).2 = (find n (find n parent i).1 j).2
  · rw [if_pos hab]
    refine ⟨hk.forest, fun {x r} hx hr => ?_⟩
    rw [← hab, ite_eq_right_iff.mpr fun h => h.symm]
    exact hk.root hx hr
  · rw [if_neg hab]
    have ha := (hk.root hi hri).isRoot
    have hb := (hkj.root hj hrj).isRoot
    have hroot : ∀ {x r}, x < n → Root parent x r → _ :=
      fun hx hr => root_link ha hb hab (hk.root hx hr)
    refine ⟨⟨fun x hx => ?_, fun x hx => ?_⟩, hroot⟩
    · by_cases hxa : x = (find n parent i).2
      · rw [hxa, Function.update_self]
        exact hki.forest.root_lt hj hrj
      · rw [Function.update_of_ne hxa]
        exact hk.forest.closed x hx
    · obtain ⟨r, hr⟩ := hp.rooted x hx
      exact ⟨_, hroot hx hr⟩

theorem forest_unionAll {pairs : List (ℕ × ℕ)} (hp : Forest n parent)
    (hpairs : ∀ e ∈ pairs, e.1 < n ∧ e.2 < n) : Forest n (unionAll n parent pairs) := by
  induction pairs generalizing parent with
  | nil => exact hp
  | cons e pairs ih =>
    obtain ⟨hi, hj⟩ := hpairs e (List.mem_cons_self ..)
    obtain ⟨_, _, _, _, hforest, _⟩ := union_spec hp hi hj
    exact ih hforest fun e he => hpairs e (List.mem_cons_of_mem _ he)

/-- What is joined stays joined. -/
theorem joined_mono {pairs : List (ℕ × ℕ)} (hp : Forest n parent)
    (hpairs : ∀ e ∈ pairs, e.1 < n ∧ e.2 < n) (hx : x < n) (hy : y < n) (h : Joined parent x y) :
    Joined (unionAll n parent pairs) x y := by
  induction pairs generalizing parent with
  | nil => exact h
  | cons e pairs ih =>
    obtain ⟨hi, hj⟩ := hpairs e (List.mem_cons_self ..)
    obtain ⟨_, _, _, _, hforest, hroot⟩ := union_spec hp hi hj
    obtain ⟨r, hxr, hyr⟩ := h
    exact ih hforest (fun e he => hpairs e (List.mem_cons_of_mem _ he))
      ⟨_, hroot hx hxr, hroot hy hyr⟩

theorem joined_union {i j : ℕ} (hp : Forest n parent) (hi : i < n) (hj : j < n) :
    Joined (union n parent i j) i j := by
  obtain ⟨a, b, ha, hb, _, hroot⟩ := union_spec hp hi hj
  have hib := hroot hi ha
  have hjb := hroot hj hb
  rw [if_pos rfl] at hib
  rw [ite_eq_right_iff.mpr fun _ => rfl] at hjb
  exact ⟨b, hib, hjb⟩

/-- Joining `i` and `j` keeps within any equivalence that holds of `i` and `j`. -/
theorem joined_union_sound {i j : ℕ} {E : ℕ → ℕ → Prop} (hE : Equivalence E)
    (hp : Forest n parent) (hi : i < n) (hj : j < n) (hij : E i j)
    (hsound : ∀ x < n, ∀ y < n, Joined parent x y → E x y) (hx : x < n) (hy : y < n)
    (h : Joined (union n parent i j) x y) : E x y := by
  obtain ⟨a, b, ha, hb, _, hroot⟩ := union_spec hp hi hj
  obtain ⟨r, hr⟩ := hp.rooted x hx
  obtain ⟨s, hs⟩ := hp.rooted y hy
  obtain ⟨t, hxt, hyt⟩ := h
  have hrs : (if r = a then b else r) = if s = a then b else s :=
    ((hroot hx hr).det hxt).trans ((hroot hy hs).det hyt).symm
  have hxa : r = a → E x i := fun h => hsound x hx i hi ⟨a, h ▸ hr, ha⟩
  have hya : s = a → E y i := fun h => hsound y hy i hi ⟨a, h ▸ hs, ha⟩
  by_cases hra : r = a
  · by_cases hsa : s = a
    · exact hE.trans (hxa hra) (hE.symm (hya hsa))
    · rw [if_pos hra, if_neg hsa] at hrs
      exact hE.trans (hxa hra) (hE.trans hij (hsound j hj y hy ⟨b, hb, hrs ▸ hs⟩))
  · by_cases hsa : s = a
    · rw [if_neg hra, if_pos hsa] at hrs
      have hxj : E x j := hsound x hx j hj ⟨b, hrs ▸ hr, hb⟩
      exact hE.trans hxj (hE.trans (hE.symm hij) (hE.symm (hya hsa)))
    · rw [if_neg hra, if_neg hsa] at hrs
      exact hsound x hx y hy ⟨r, hr, hrs ▸ hs⟩

theorem joined_unionAll_sound {pairs : List (ℕ × ℕ)} {E : ℕ → ℕ → Prop} (hE : Equivalence E)
    (hp : Forest n parent) (hpairs : ∀ e ∈ pairs, e.1 < n ∧ e.2 < n)
    (hin : ∀ e ∈ pairs, E e.1 e.2) (hsound : ∀ x < n, ∀ y < n, Joined parent x y → E x y) :
    ∀ x < n, ∀ y < n, Joined (unionAll n parent pairs) x y → E x y := by
  induction pairs generalizing parent with
  | nil => exact hsound
  | cons e pairs ih =>
    obtain ⟨hi, hj⟩ := hpairs e (List.mem_cons_self ..)
    obtain ⟨_, _, _, _, hforest, _⟩ := union_spec hp hi hj
    refine ih hforest (fun e he => hpairs e (List.mem_cons_of_mem _ he))
      (fun e he => hin e (List.mem_cons_of_mem _ he)) fun x hx y hy h => ?_
    exact joined_union_sound hE hp hi hj (hin e (List.mem_cons_self ..)) hsound hx hy h

theorem joined_unionAll_mem {pairs : List (ℕ × ℕ)} {e : ℕ × ℕ} (hp : Forest n parent)
    (hpairs : ∀ e ∈ pairs, e.1 < n ∧ e.2 < n) (he : e ∈ pairs) :
    Joined (unionAll n parent pairs) e.1 e.2 := by
  induction pairs generalizing parent with
  | nil => cases he
  | cons e' pairs ih =>
    obtain ⟨hi, hj⟩ := hpairs e' (List.mem_cons_self ..)
    obtain ⟨_, _, _, _, hforest, _⟩ := union_spec hp hi hj
    have hrest := fun e he => hpairs e (List.mem_cons_of_mem e' he)
    rcases List.mem_cons.mp he with rfl | he
    · show Joined (unionAll n (union n parent e.1 e.2) pairs) e.1 e.2
      exact joined_mono hforest hrest hi hj (joined_union hp hi hj)
    · exact ih hforest hrest he

/-- Joining all pairs, one after another, gives the equivalence that they generate. -/
theorem joined_unionAll {pairs : List (ℕ × ℕ)} (hpairs : ∀ e ∈ pairs, e.1 < n ∧ e.2 < n)
    (hx : x < n) (hy : y < n) :
    Joined (unionAll n id pairs) x y ↔ EqvGen (fun a b => (a, b) ∈ pairs) x y := by
  constructor
  · intro h
    refine joined_unionAll_sound (EqvGen.is_equivalence _) forest_id hpairs
      (fun e he => .rel _ _ he) (fun x _ y _ h => ?_) x hx y hy h
    obtain ⟨r, hxr, hyr⟩ := h
    have hxr' := hxr.det (.self rfl)
    have hyr' := hyr.det (.self rfl)
    rw [← hxr', ← hyr']
    exact .refl _
  · intro h
    have hboth : (x < n ↔ y < n) ∧ (x < n → Joined (unionAll n id pairs) x y) := by
      clear hx hy
      induction h with
      | rel a b hab =>
        obtain ⟨ha, hb⟩ := hpairs _ hab
        exact ⟨iff_of_true ha hb, fun _ => joined_unionAll_mem forest_id hpairs hab⟩
      | refl a =>
        refine ⟨Iff.rfl, fun ha => ?_⟩
        obtain ⟨r, hr⟩ := (forest_unionAll forest_id hpairs).rooted a ha
        exact ⟨r, hr, hr⟩
      | symm a b _ ih => exact ⟨ih.1.symm, fun hb => (ih.2 (ih.1.mpr hb)).symm⟩
      | trans a b c _ _ ih ih' =>
        exact ⟨ih.1.trans ih'.1, fun ha => (ih.2 ha).trans (ih'.2 (ih.1.mp ha))⟩
    exact hboth.2 hx

end UnionFind
