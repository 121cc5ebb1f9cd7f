import Mathlib.Data.Finset.Card
import Mathlib.Logic.Function.Basic

/-!
# Ballots

The votes on one question that is decided as soon as one answer has `t` votes. Every voter votes once,
and the ballot is closed when the question is decided; therefore at most one answer ever gets `t`
votes.
-/

/-- The voters for each answer. -/
@[ext] structure Ballot (δ ω : Type*) (t : ℕ) where
  voters : δ → Finset ω
  once : ∀ {d d' w}, w ∈ voters d → w ∈ voters d' → d = d'
  bounded : ∀ d, (voters d).card ≤ t
  decides : ∀ {d d'}, (voters d).card = t → (voters d').card = t → d = d'

namespace Ballot

variable {δ ω : Type*} {t : ℕ}

/-- Nobody has voted. -/
def empty (ht : 0 < t) : Ballot δ ω t where
  voters _ := ∅
  once hw := absurd hw (Finset.notMem_empty _)
  bounded _ := Nat.zero_le _
  decides h := absurd h (by rw [Finset.card_empty]; exact ne_of_lt ht)

/-- Some answer has `t` votes. -/
def Closed (b : Ballot δ ω t) : Prop := ∃ d, (b.voters d).card = t

theorem not_closed_empty (ht : 0 < t) : ¬ (empty ht : Ballot δ ω t).Closed := by
  rintro ⟨d, hd⟩
  exact absurd hd (ne_of_lt ht)

theorem lt_of_not_closed {b : Ballot δ ω t} (h : ¬ b.Closed) (d : δ) : (b.voters d).card < t :=
  lt_of_le_of_ne (b.bounded d) fun hd => h ⟨d, hd⟩

theorem disjoint (b : Ballot δ ω t) {d d' : δ} (h : d ≠ d') :
    Disjoint (b.voters d) (b.voters d') :=
  Finset.disjoint_left.mpr fun _ hw hw' => h (b.once hw hw')

/-- Votes are never withdrawn: more voters keep a closed ballot closed. -/
theorem Closed.mono {b b' : Ballot δ ω t} (h : b.Closed) (hsub : ∀ d, b.voters d ⊆ b'.voters d) :
    b'.Closed := by
  obtain ⟨d, hd⟩ := h
  exact ⟨d, le_antisymm (b'.bounded d) (hd.ge.trans (Finset.card_le_card (hsub d)))⟩

/-- Two answers that have `t` votes at different times are the same. -/
theorem decides_of_subset {b b' c : Ballot δ ω t} (hb : ∀ d, b.voters d ⊆ c.voters d)
    (hb' : ∀ d, b'.voters d ⊆ c.voters d) {d d' : δ} (hd : t ≤ (b.voters d).card)
    (hd' : t ≤ (b'.voters d').card) : d = d' :=
  c.decides (le_antisymm (c.bounded d) (hd.trans (Finset.card_le_card (hb d))))
    (le_antisymm (c.bounded d') (hd'.trans (Finset.card_le_card (hb' d'))))

variable [DecidableEq ω]

/-- Two majorities among the same voters share a voter outside `F`. -/
theorem exists_mem_of_card_lt {A B V F : Finset ω} (hA : A ⊆ V) (hB : B ⊆ V)
    (h : V.card + F.card < A.card + B.card) : ∃ w ∈ A, w ∈ B ∧ w ∉ F := by
  have hcard : V.card < A.card + (B \ F).card := by
    have := Finset.le_card_sdiff F B
    omega
  obtain ⟨w, hw⟩ := Finset.inter_nonempty_of_card_lt_card_add_card hA
    (Finset.sdiff_subset.trans hB) hcard
  obtain ⟨hwA, hwB⟩ := Finset.mem_inter.mp hw
  obtain ⟨hwB, hwF⟩ := Finset.mem_sdiff.mp hwB
  exact ⟨w, hwA, hwB, hwF⟩

/-- Two ballots on one question, held at different places among `n` voters of which all but `f` give the
same answer everywhere, are not decided differently if `n + f < 2 * t`. -/
theorem agree {b b' : Ballot δ ω t} {V F : Finset ω} {d d' : δ} (hd : (b.voters d).card = t)
    (hd' : (b'.voters d').card = t) (hV : b.voters d ⊆ V) (hV' : b'.voters d' ⊆ V)
    (ht : V.card + F.card < 2 * t)
    (hF : ∀ w ∉ F, w ∈ b.voters d → w ∈ b'.voters d' → d = d') : d = d' := by
  obtain ⟨w, hw, hw', hwF⟩ := exists_mem_of_card_lt (F := F) hV hV' (by omega)
  exact hF w hwF hw hw'

variable [DecidableEq δ]

/-- A new voter votes in an open ballot. -/
def cast (b : Ballot δ ω t) (d : δ) (w : ω) (hopen : ¬ b.Closed) (hnew : ∀ d', w ∉ b.voters d') :
    Ballot δ ω t where
  voters := Function.update b.voters d (insert w (b.voters d))
  once := by
    have hmem : ∀ e v, v ∈ Function.update b.voters d (insert w (b.voters d)) e →
        (v = w ∧ e = d) ∨ v ∈ b.voters e := by
      intro e v hv
      by_cases he : e = d
      · subst he
        rw [Function.update_self, Finset.mem_insert] at hv
        exact hv.imp_left fun h => ⟨h, rfl⟩
      · rw [Function.update_of_ne he] at hv
        exact Or.inr hv
    intro e e' v hv hv'
    rcases hmem e v hv with ⟨rfl, rfl⟩ | h <;> rcases hmem e' v hv' with ⟨rfl', rfl⟩ | h'
    · rfl
    · exact absurd h' (hnew e')
    · exact absurd (rfl' ▸ h) (hnew e)
    · exact b.once h h'
  bounded e := by
    by_cases he : e = d
    · subst he
      rw [Function.update_self]
      exact (Finset.card_insert_le _ _).trans (lt_of_not_closed hopen e)
    · rw [Function.update_of_ne he]
      exact b.bounded e
  decides := by
    have hd : ∀ e, (Function.update b.voters d (insert w (b.voters d)) e).card = t → e = d := by
      intro e he
      by_contra hne
      rw [Function.update_of_ne hne] at he
      exact hopen ⟨e, he⟩
    intro e e' he he'
    rw [hd e he, hd e' he']

variable {b : Ballot δ ω t} {d : δ} {w : ω} {hopen : ¬ b.Closed} {hnew : ∀ d', w ∉ b.voters d'}

theorem voters_cast (d' : δ) : (b.cast d w hopen hnew).voters d' =
    if d' = d then insert w (b.voters d) else b.voters d' :=
  Function.update_apply ..

theorem subset_cast (d' : δ) : b.voters d' ⊆ (b.cast d w hopen hnew).voters d' := by
  rw [voters_cast]
  split
  · rename_i h
    rw [h]
    exact Finset.subset_insert _ _
  · exact Finset.Subset.refl _

/-- A vote closes the ballot if and only if it brings its answer to `t` votes. -/
theorem closed_cast : (b.cast d w hopen hnew).Closed ↔
    ((b.cast d w hopen hnew).voters d).card = t := by
  refine ⟨fun ⟨e, he⟩ => ?_, fun h => ⟨d, h⟩⟩
  by_cases hed : e = d
  · rwa [hed] at he
  · rw [voters_cast, if_neg hed] at he
    exact absurd ⟨e, he⟩ hopen

end Ballot
