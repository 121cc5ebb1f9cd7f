import Mathlib.Data.Set.Finite.Basic
import Mathlib.Data.Fintype.EquivFin
import Mathlib.Order.WellFounded
import Mathlib.Logic.Relation

/-!
# The frontier of a set of linked cards

A *card* is a name together with the names it links back to (its parents). The frontier of a set of
cards is the set of names that no card of the set links to. Links may dangle: a card may list a name
that no card of the set has.

The three ways a replica changes its cards keep track of the frontier: adding a card on top of the
whole frontier (`frontier_insert_top`), adding cards in the middle (`frontier_union`) and dropping
cards from below (`frontier_restrict`).
-/

namespace Frontier

open Relation

variable {η : Type*}

/-- The names of the cards in `S`. -/
def names (S : Set (η × List η)) : Set η := {h | ∃ ps, (h, ps) ∈ S}

/-- The names that some card in `S` links to. -/
def listed (S : Set (η × List η)) : Set η := {p | ∃ h ps, (h, ps) ∈ S ∧ p ∈ ps}

/-- The names in `S` that no card of `S` links to. -/
def tips (S : Set (η × List η)) : Set η := {h | h ∈ names S ∧ h ∉ listed S}

/-- `Child S p h`: the card named `h` links to `p`. -/
def Child (S : Set (η × List η)) (p h : η) : Prop := ∃ ps, (h, ps) ∈ S ∧ p ∈ ps

/-- No name occurs among the links of its own ancestors. -/
def Acyclic (S : Set (η × List η)) : Prop := ∀ h, ¬ TransGen (Child S) h h

variable {S T : Set (η × List η)}

theorem names_mono (h : S ⊆ T) : names S ⊆ names T := fun _ ⟨ps, hps⟩ => ⟨ps, h hps⟩

theorem listed_mono (h : S ⊆ T) : listed S ⊆ listed T :=
  fun _ ⟨k, ps, hk, hp⟩ => ⟨k, ps, h hk, hp⟩

theorem child_mono (h : S ⊆ T) : Child S ≤ Child T := fun _ _ ⟨ps, hb, ha⟩ => ⟨ps, h hb, ha⟩

theorem Acyclic.mono (hT : Acyclic T) (h : S ⊆ T) : Acyclic S :=
  fun a ha => hT a (TransGen.mono (child_mono h) a a ha)

/-- Cards whose links all go up some level have no cycles. -/
theorem acyclic_of_level (level : η → ℕ) (h : ∀ p c, Child S p c → level p < level c) :
    Acyclic S := by
  have hup : ∀ p c, TransGen (Child S) p c → level p < level c := by
    intro p c hpc
    induction hpc with
    | single hc => exact h _ _ hc
    | tail _ hc ih => exact ih.trans (h _ _ hc)
  exact fun k hk => absurd (hup k k hk) (lt_irrefl _)

/-- Cards whose chains of links are bounded in length have no cycles. -/
theorem acyclic_of_bounded {n : ℕ} (hn : ∀ l : List η, l.IsChain (Child S) → l.length ≤ n) :
    Acyclic S := by
  -- around a cycle there are chains of any length
  have hlong : ∀ (k : ℕ) (h : η), TransGen (Child S) h h →
      ∃ l, (h :: l).IsChain (Child S) ∧ l.length = k := by
    intro k
    induction k with
    | zero => exact fun h _ => ⟨[], .singleton _, rfl⟩
    | succ k ih =>
      intro h hh
      obtain ⟨x, hx, hback⟩ := TransGen.head'_iff.mp hh
      obtain ⟨l, hl, hlen⟩ := ih x (TransGen.tail' hback hx)
      exact ⟨x :: l, List.isChain_cons_cons.mpr ⟨hx, hl⟩, congrArg (· + 1) hlen⟩
  intro h hh
  obtain ⟨l, hl, hlen⟩ := hlong n h hh
  have := hn (h :: l) hl
  rw [List.length_cons] at this
  omega

/-- In a finite acyclic set of cards every card is below a frontier card. -/
theorem exists_frontier_above (hS : Acyclic S) (hfin : (names S).Finite) {h : η}
    (hh : h ∈ names S) : ∃ f ∈ tips S, ReflTransGen (Child S) h f := by
  have : Finite (names S) := hfin
  let r : names S → names S → Prop := fun a b => TransGen (Child S) b.1 a.1
  have : IsTrans (names S) r := ⟨fun _ _ _ hab hbc => hbc.trans hab⟩
  have : Std.Irrefl r := ⟨fun a => hS a.1⟩
  have hwf : WellFounded r := Finite.wellFounded_of_trans_of_irrefl r
  obtain ⟨⟨f, hf⟩, hhf, hmin⟩ := hwf.has_min {a | ReflTransGen (Child S) h a.1} ⟨⟨h, hh⟩, .refl⟩
  refine ⟨f, ⟨hf, ?_⟩, hhf⟩
  rintro ⟨k, ps, hk, hp⟩
  have hfk : Child S f k := ⟨ps, hk, hp⟩
  exact hmin ⟨k, ps, hk⟩ (ReflTransGen.tail hhf hfk) (TransGen.single hfk)

/-- A new card on top of the whole frontier becomes the whole frontier, and its name is new. -/
theorem frontier_insert_top (hfin : (names S).Finite) {h : η} {ps : List η}
    (hac : Acyclic (insert (h, ps) S)) (htop : ∀ f ∈ tips S, f ∈ ps) :
    h ∉ names S ∧ tips (insert (h, ps) S) = {h} := by
  have hsub : S ⊆ insert (h, ps) S := Set.subset_insert _ _
  have hreach : ∀ k ∈ names S, ∃ f ∈ ps, ReflTransGen (Child (insert (h, ps) S)) k f := by
    intro k hk
    obtain ⟨f, hf, hkf⟩ := exists_frontier_above (hac.mono hsub) hfin hk
    exact ⟨f, htop f hf, ReflTransGen.mono (child_mono hsub) k f hkf⟩
  have hbelow : ∀ k ∈ names S, TransGen (Child (insert (h, ps) S)) k h := by
    intro k hk
    obtain ⟨f, hf, hkf⟩ := hreach k hk
    exact TransGen.tail' hkf ⟨ps, Set.mem_insert _ _, hf⟩
  refine ⟨fun hh => hac h (hbelow h hh), Set.eq_singleton_iff_unique_mem.mpr ⟨⟨?_, ?_⟩, ?_⟩⟩
  · exact ⟨ps, Set.mem_insert _ _⟩
  · -- a card that links to `h` is `h` itself or lies below `h`: a cycle either way
    rintro ⟨k, qs, hk, hp⟩
    have hhk : Child (insert (h, ps) S) h k := ⟨qs, hk, hp⟩
    rcases hk with heq | hk
    · obtain ⟨rfl, rfl⟩ := Prod.mk.inj heq
      exact hac _ (TransGen.single hhk)
    · exact hac h (TransGen.head hhk (hbelow k ⟨qs, hk⟩))
  · rintro k ⟨⟨qs, hk⟩, hnl⟩
    rcases hk with heq | hk
    · exact (Prod.mk.inj heq).1
    · have hkS : k ∈ names S := ⟨qs, hk⟩
      by_cases hlist : k ∈ listed S
      · exact absurd (listed_mono hsub hlist) hnl
      · exact absurd ⟨h, ps, Set.mem_insert _ _, htop k ⟨hkS, hlist⟩⟩ hnl

/-- Dropping cards keeps the frontier, if all of the frontier is kept and every other kept card
keeps a card that links to it. -/
theorem frontier_restrict {K : Set η} (hK : tips S ⊆ K)
    (hclosed : ∀ k ∈ K, k ∈ names S → k ∉ tips S → ∃ c ∈ K, Child S k c) :
    tips {c ∈ S | c.1 ∈ K} = tips S := by
  have hsub : {c ∈ S | c.1 ∈ K} ⊆ S := Set.sep_subset _ _
  ext k
  constructor
  · rintro ⟨⟨ps, hk, hkK⟩, hnl⟩
    by_contra hkf
    obtain ⟨c, hc, qs, hqs, hkq⟩ := hclosed k hkK ⟨ps, hk⟩ hkf
    exact hnl ⟨c, qs, ⟨hqs, hc⟩, hkq⟩
  · rintro hk
    obtain ⟨ps, hps⟩ := hk.1
    exact ⟨⟨ps, hps, hK hk⟩, fun hl => hk.2 (listed_mono hsub hl)⟩

/-- Suppose the cards `S` have the same frontier as a larger set `T`, and the cards `N` are added to
both. The frontiers still agree if and only if no added name is on the frontier of `S ∪ N` while a
card of `T` links to it. -/
theorem frontier_union {N : Set (η × List η)} (hST : S ⊆ T) (hf : tips S = tips T) :
    tips (S ∪ N) = tips (T ∪ N) ↔
      ∀ h ∈ names N, h ∉ names S → h ∈ listed T → h ∈ listed (S ∪ N) := by
  have hsub : S ∪ N ⊆ T ∪ N := Set.union_subset_union_left N hST
  constructor
  · intro heq h hN _ hT
    by_contra hnl
    have hmem : h ∈ tips (S ∪ N) := ⟨names_mono Set.subset_union_right hN, hnl⟩
    rw [heq] at hmem
    exact hmem.2 (listed_mono Set.subset_union_left hT)
  · intro hcond
    ext h
    constructor
    · rintro ⟨hn, hnl⟩
      refine ⟨names_mono hsub hn, ?_⟩
      rintro ⟨k, ps, hk, hp⟩
      rcases hk with hk | hk
      · by_cases hS : h ∈ names S
        · -- on the frontier of `S`, hence on the frontier of `T`
          have hfS : h ∈ tips S := ⟨hS, fun hl => hnl (listed_mono Set.subset_union_left hl)⟩
          rw [hf] at hfS
          exact hfS.2 ⟨k, ps, hk, hp⟩
        · obtain ⟨qs, hq⟩ := hn
          have hN : h ∈ names N := hq.elim (fun hq => absurd ⟨qs, hq⟩ hS) fun hq => ⟨qs, hq⟩
          exact hnl (hcond h hN hS ⟨k, ps, hk, hp⟩)
      · exact hnl ⟨k, ps, Or.inr hk, hp⟩
    · rintro ⟨⟨ps, hps⟩, hnl⟩
      refine ⟨?_, fun hl => hnl (listed_mono hsub hl)⟩
      rcases hps with hps | hps
      · have hfT : h ∈ tips T :=
          ⟨⟨ps, hps⟩, fun hl => hnl (listed_mono Set.subset_union_left hl)⟩
        rw [← hf] at hfT
        exact names_mono Set.subset_union_left hfT.1
      · exact ⟨ps, Or.inr hps⟩

end Frontier
