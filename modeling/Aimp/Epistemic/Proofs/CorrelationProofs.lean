import Aimp.Epistemic.Correlation
import Mathlib.Order.Bounds.Basic

/-!
# What the correlation groups are

The group of a claim depends on the set of claims alone: a claim is assessed if it carries an embedding
that every claim of the same content agrees on, and the key of its group is made from the smallest id
in its cluster (`correlationGroups_isGroup`).
-/

open Relation UnionFind

namespace Aimp.Epistemic

/-! ## Consistency -/

/-- Every embedding claimed for the content of `c` is the one of `c`. -/
def Assessed (claims : List Claim) (c : Claim) : Prop :=
  c.embedding.isSome ∧ ∀ d ∈ claims, d.embedding.isSome →
    d.fingerprint.primary = c.fingerprint.primary → d.embedding = c.embedding

/-- Two claims give the content `key` different embeddings. -/
def Disputed (claims : List Claim) (key : ByteArr 16) : Prop :=
  ∃ c ∈ claims, ∃ d ∈ claims, c.embedding.isSome ∧ d.embedding.isSome ∧
    c.fingerprint.primary = key ∧ d.fingerprint.primary = key ∧ c.embedding ≠ d.embedding

theorem Assessed.anti {claims claims' : List Claim} {c : Claim} (h : Assessed claims' c)
    (hsub : ∀ d ∈ claims, d ∈ claims') : Assessed claims c :=
  ⟨h.1, fun d hd => h.2 d (hsub d hd)⟩

/-- What Pass 0 knows after the given claims. -/
structure SeenInv (claims : List Claim) (s : SeenEmbeddings) : Prop where
  seen_claim : ∀ key e, s.seen.lookup key = some e →
    ∃ c ∈ claims, c.fingerprint.primary = key ∧ c.embedding = some e
  seen_all : ∀ c ∈ claims, c.embedding.isSome → (s.seen.lookup c.fingerprint.primary).isSome
  inconsistent_iff : ∀ key, key ∈ s.inconsistent ↔ Disputed claims key

theorem Disputed.mono {claims claims' : List Claim} {key : ByteArr 16}
    (h : ∀ c ∈ claims, c ∈ claims') (hd : Disputed claims key) : Disputed claims' key := by
  obtain ⟨c, hc, d, hd, hrest⟩ := hd
  exact ⟨c, h c hc, d, h d hd, hrest⟩

/-- A claim with an embedding disputes its content if an earlier one differs from it. -/
theorem disputed_concat {claims : List Claim} {c : Claim} {key : ByteArr 16} :
    Disputed (claims ++ [c]) key ↔ Disputed claims key ∨
      (c.fingerprint.primary = key ∧ c.embedding.isSome ∧ ∃ d ∈ claims, d.embedding.isSome ∧
        d.fingerprint.primary = key ∧ d.embedding ≠ c.embedding) := by
  constructor
  · rintro ⟨a, ha, b, hb, hae, hbe, hak, hbk, hne⟩
    rcases List.mem_append.mp ha with ha' | ha'
    · rcases List.mem_append.mp hb with hb' | hb'
      · exact Or.inl ⟨a, ha', b, hb', hae, hbe, hak, hbk, hne⟩
      · obtain rfl := List.mem_singleton.mp hb'
        exact Or.inr ⟨hbk, hbe, a, ha', hae, hak, hne⟩
    · obtain rfl := List.mem_singleton.mp ha'
      rcases List.mem_append.mp hb with hb' | hb'
      · exact Or.inr ⟨hak, hae, b, hb', hbe, hbk, hne.symm⟩
      · obtain rfl := List.mem_singleton.mp hb'
        exact absurd rfl hne
  · rintro (h | ⟨hk, he, d, hd, hde, hdk, hne⟩)
    · exact h.mono fun d hd => List.mem_append_left _ hd
    · exact ⟨d, List.mem_append_left _ hd, c, List.mem_append_right _ (List.mem_singleton_self c),
        hde, he, hdk, hk, hne⟩

section Note

variable {claims : List Claim} {s : SeenEmbeddings} {c : Claim} {e prev : QuantizedEmbedding}

theorem mem_concat_left {d : Claim} (hd : d ∈ claims) : d ∈ claims ++ [c] :=
  List.mem_append_left _ hd

theorem mem_concat_self : c ∈ claims ++ [c] := List.mem_append_right _ (List.mem_singleton_self c)

/-- A claim without an embedding is not noted. -/
theorem SeenInv.note_none (h : SeenInv claims s) (hc : c.embedding = none) :
    SeenInv (claims ++ [c]) s := by
  refine ⟨fun key e he => ?_, fun d hd hde => ?_, fun key => ?_⟩
  · obtain ⟨d, hd, hrest⟩ := h.seen_claim key e he
    exact ⟨d, mem_concat_left hd, hrest⟩
  · rcases List.mem_append.mp hd with hd | hd
    · exact h.seen_all d hd hde
    · obtain rfl := List.mem_singleton.mp hd
      simp [hc] at hde
  · rw [disputed_concat, hc]
    simpa using h.inconsistent_iff key

/-- The first embedding of a content is noted. -/
theorem SeenInv.note_fresh (h : SeenInv claims s) (hc : c.embedding = some e)
    (hprev : s.seen.lookup c.fingerprint.primary = none) :
    SeenInv (claims ++ [c]) { s with seen := s.seen.insert c.fingerprint.primary e } := by
  have hfresh : ∀ d ∈ claims, d.embedding.isSome →
      d.fingerprint.primary ≠ c.fingerprint.primary := by
    intro d hd hde hk
    have := h.seen_all d hd hde
    rw [hk, hprev] at this
    cases this
  refine ⟨fun key e' he' => ?_, fun d hd hde => ?_, fun key => ?_⟩
  · by_cases hk : key = c.fingerprint.primary
    · subst hk
      rw [AList.lookup_insert] at he'
      cases he'
      exact ⟨c, mem_concat_self, rfl, hc⟩
    · rw [AList.lookup_insert_ne hk] at he'
      obtain ⟨d, hd, hrest⟩ := h.seen_claim key e' he'
      exact ⟨d, mem_concat_left hd, hrest⟩
  · by_cases hk : d.fingerprint.primary = c.fingerprint.primary
    · rw [hk, AList.lookup_insert]
      rfl
    · rw [AList.lookup_insert_ne hk]
      rcases List.mem_append.mp hd with hd | hd
      · exact h.seen_all d hd hde
      · exact absurd (congrArg (·.fingerprint.primary) (List.mem_singleton.mp hd)) hk
  · show key ∈ s.inconsistent ↔ _
    rw [disputed_concat, h.inconsistent_iff]
    constructor
    · exact Or.inl
    · rintro (hd | ⟨hk, _, d, hd, hde, hdk, _⟩)
      · exact hd
      · exact absurd (hdk.trans hk.symm) (hfresh d hd hde)

/-- What was seen stays right when a content is claimed again. -/
theorem SeenInv.seen_again (h : SeenInv claims s)
    (hprev : s.seen.lookup c.fingerprint.primary = some prev) :
    (∀ key e, s.seen.lookup key = some e →
      ∃ d ∈ claims ++ [c], d.fingerprint.primary = key ∧ d.embedding = some e) ∧
    ∀ d ∈ claims ++ [c], d.embedding.isSome → (s.seen.lookup d.fingerprint.primary).isSome := by
  constructor
  · intro key e he
    obtain ⟨d, hd, hrest⟩ := h.seen_claim key e he
    exact ⟨d, mem_concat_left hd, hrest⟩
  · intro d hd hde
    rcases List.mem_append.mp hd with hd | hd
    · exact h.seen_all d hd hde
    · rw [List.mem_singleton.mp hd, hprev]
      rfl

/-- A claim that agrees with the first one of its content adds a dispute only where there is one. -/
theorem SeenInv.note_agreeing (h : SeenInv claims s) (hc : c.embedding = some e)
    (hprev : s.seen.lookup c.fingerprint.primary = some e) : SeenInv (claims ++ [c]) s := by
  obtain ⟨p, hp, hpk, hpe⟩ := h.seen_claim _ _ hprev
  refine ⟨(h.seen_again hprev).1, (h.seen_again hprev).2, fun key => ?_⟩
  rw [disputed_concat, h.inconsistent_iff]
  constructor
  · exact Or.inl
  · rintro (hd | ⟨hk, _, d, hd, hde, hdk, hne⟩)
    · exact hd
    · refine ⟨d, hd, p, hp, hde, by rw [hpe]; rfl, hdk, hpk.trans hk, ?_⟩
      rw [hpe, ← hc]
      exact hne

/-- A claim that disagrees with the first one of its content makes the content inconsistent. -/
theorem SeenInv.note_disagreeing (h : SeenInv claims s) (hc : c.embedding = some e)
    (hprev : s.seen.lookup c.fingerprint.primary = some prev) (hne : prev ≠ e) :
    SeenInv (claims ++ [c])
      { s with inconsistent := c.fingerprint.primary :: s.inconsistent } := by
  obtain ⟨p, hp, hpk, hpe⟩ := h.seen_claim _ _ hprev
  refine ⟨(h.seen_again hprev).1, (h.seen_again hprev).2, fun key => ?_⟩
  show key ∈ _ :: _ ↔ _
  rw [disputed_concat, List.mem_cons, h.inconsistent_iff]
  constructor
  · rintro (rfl | hd)
    · refine Or.inr ⟨rfl, by rw [hc]; rfl, p, hp, by rw [hpe]; rfl, hpk, ?_⟩
      rw [hpe, hc]
      exact fun heq => hne (Option.some.inj heq)
    · exact Or.inl hd
  · rintro (hd | ⟨hk, _⟩)
    · exact Or.inr hd
    · exact Or.inl hk.symm

theorem SeenInv.note (h : SeenInv claims s) (c : Claim) : SeenInv (claims ++ [c]) (s.note c) := by
  unfold SeenEmbeddings.note
  cases hc : c.embedding with
  | none => exact h.note_none hc
  | some e =>
    cases hprev : s.seen.lookup c.fingerprint.primary with
    | none =>
      rw [Option.elim_some, Option.elim_none]
      exact h.note_fresh hc hprev
    | some prev =>
      rw [Option.elim_some, Option.elim_some]
      by_cases hne : prev = e
      · rw [if_neg (not_not.mpr hne)]
        exact h.note_agreeing hc (hne ▸ hprev)
      · rw [if_pos hne]
        exact h.note_disagreeing hc hprev hne

end Note

theorem seenInv_foldl (claims : List Claim) :
    SeenInv claims (claims.foldl SeenEmbeddings.note ⟨∅, []⟩) := by
  induction claims using List.reverseRecOn with
  | nil =>
    refine ⟨fun key e he => ?_, ?_, fun key => ?_⟩
    · cases he
    · intro c hc
      cases hc
    · refine iff_of_false List.not_mem_nil ?_
      rintro ⟨c, hc, -⟩
      cases hc
  | append_singleton claims c ih =>
    rw [List.foldl_append]
    exact ih.note c

theorem mem_inconsistentContents {claims : List Claim} {key : ByteArr 16} :
    key ∈ inconsistentContents claims ↔ Disputed claims key :=
  (seenInv_foldl claims).inconsistent_iff key

theorem assessable_iff {claims : List Claim} {c : Claim} (hc : c ∈ claims) :
    assessable (inconsistentContents claims) c = true ↔ Assessed claims c := by
  unfold assessable
  rw [Bool.and_eq_true, Bool.not_eq_true', ← Bool.not_eq_true, List.contains_iff_mem,
    mem_inconsistentContents]
  refine and_congr_right fun he => ⟨fun h d hd hde hk => ?_, ?_⟩
  · by_contra hne
    exact h ⟨d, hd, c, hc, hde, he, hk, rfl, hne⟩
  · rintro h ⟨a, ha, b, hb, hae, hbe, hak, hbk, hne⟩
    exact hne ((h a ha hae hak).trans (h b hb hbe hbk).symm)

/-! ## Clusters -/

/-- Two assessed claims of the list whose embeddings are close. -/
structure Near (claims : List Claim) (thresholdBits : ℕ) (a b : Claim) : Prop where
  left_mem : a ∈ claims
  right_mem : b ∈ claims
  left_assessed : Assessed claims a
  right_assessed : Assessed claims b
  close : withinThreshold thresholdBits a b = true

/-- The claims are joined by a chain of close ones. -/
def Clustered (claims : List Claim) (thresholdBits : ℕ) : Claim → Claim → Prop :=
  EqvGen (Near claims thresholdBits)

theorem mem_orderedPairs {α : Type} {l : List α} {x y : α} (h : (x, y) ∈ orderedPairs l) :
    x ∈ l ∧ y ∈ l := by
  induction l with
  | nil => cases h
  | cons z l ih =>
    rcases List.mem_append.mp h with h | h
    · obtain ⟨w, hw, hxy⟩ := List.mem_map.mp h
      cases hxy
      exact ⟨List.mem_cons_self .., List.mem_cons_of_mem _ hw⟩
    · exact ⟨List.mem_cons_of_mem _ (ih h).1, List.mem_cons_of_mem _ (ih h).2⟩

theorem orderedPairs_of_mem {α : Type} {l : List α} {x y : α} (hx : x ∈ l) (hy : y ∈ l)
    (hne : x ≠ y) : (x, y) ∈ orderedPairs l ∨ (y, x) ∈ orderedPairs l := by
  induction l with
  | nil => cases hx
  | cons z l ih =>
    rcases List.mem_cons.mp hx with rfl | hx'
    · rcases List.mem_cons.mp hy with rfl | hy'
      · exact absurd rfl hne
      · exact Or.inl (List.mem_append_left _ (List.mem_map.mpr ⟨y, hy', rfl⟩))
    · rcases List.mem_cons.mp hy with rfl | hy'
      · exact Or.inr (List.mem_append_left _ (List.mem_map.mpr ⟨x, hx', rfl⟩))
      · exact (ih hx' hy').imp (List.mem_append_right _) (List.mem_append_right _)

theorem QuantizedEmbedding.hammingDistance_comm (a b : QuantizedEmbedding) :
    a.hammingDistance b = b.hammingDistance a := by
  unfold hammingDistance
  rw [List.map_zip_eq_zipWith, List.map_zip_eq_zipWith, List.zipWith_comm]
  congr 2
  funext x y
  have hxor : y ^^^ x = x ^^^ y := Fin.ext (by simp [Fin.xor_val, Nat.xor_comm])
  rw [Function.curry_apply, Function.curry_apply, hxor]

theorem withinThreshold_iff {thresholdBits : ℕ} {a b : Claim} :
    withinThreshold thresholdBits a b = true ↔ ∃ e e', a.embedding = some e ∧
      b.embedding = some e' ∧ e.hammingDistance e' ≤ thresholdBits := by
  cases ha : a.embedding <;> cases hb : b.embedding <;> simp [withinThreshold, ha, hb]

theorem withinThreshold_comm {thresholdBits : ℕ} {a b : Claim}
    (h : withinThreshold thresholdBits a b = true) : withinThreshold thresholdBits b a = true := by
  obtain ⟨e, e', ha, hb, hle⟩ := withinThreshold_iff.mp h
  exact withinThreshold_iff.mpr ⟨e', e, hb, ha, e.hammingDistance_comm e' ▸ hle⟩

theorem withinThreshold_self {thresholdBits : ℕ} {a b : Claim} (h : a.embedding.isSome)
    (hab : a.embedding = b.embedding) : withinThreshold thresholdBits a b = true := by
  obtain ⟨e, he⟩ := Option.isSome_iff_exists.mp h
  exact withinThreshold_iff.mpr ⟨e, e, he, hab ▸ he, by simp⟩

section Clusters

variable {claims : List Claim} {thresholdBits : ℕ} {i j : ℕ} {c d : Claim}

theorem closePairs_near
    (h : (i, j) ∈ closePairs (inconsistentContents claims) thresholdBits claims) :
    ∃ c d, claims[i]? = some c ∧ claims[j]? = some d ∧ Near claims thresholdBits c d := by
  obtain ⟨⟨⟨c, i'⟩, d, j'⟩, hp, heq⟩ := List.mem_map.mp h
  cases heq
  obtain ⟨hmem, hcond⟩ := List.mem_filter.mp hp
  obtain ⟨hci, hdj⟩ := mem_orderedPairs hmem
  have hci' := List.mem_zipIdx_iff_getElem?.mp hci
  have hdj' := List.mem_zipIdx_iff_getElem?.mp hdj
  have hc := List.mem_of_getElem? hci'
  have hd := List.mem_of_getElem? hdj'
  rw [Bool.and_eq_true, Bool.and_eq_true] at hcond
  exact ⟨c, d, hci', hdj', hc, hd, (assessable_iff hc).mp hcond.1.1,
    (assessable_iff hd).mp hcond.1.2, hcond.2⟩

theorem closePairs_of_near (hi : claims[i]? = some c) (hj : claims[j]? = some d) (hij : i ≠ j)
    (h : Near claims thresholdBits c d) :
    EqvGen (fun a b => (a, b) ∈ closePairs (inconsistentContents claims) thresholdBits claims)
      i j := by
  have hc := (assessable_iff h.left_mem).mpr h.left_assessed
  have hd := (assessable_iff h.right_mem).mpr h.right_assessed
  rcases orderedPairs_of_mem (x := (c, i)) (y := (d, j)) (List.mem_zipIdx_iff_getElem?.mpr hi)
    (List.mem_zipIdx_iff_getElem?.mpr hj) (fun heq => hij (congrArg Prod.snd heq)) with hp | hp
  · refine .rel _ _ (List.mem_map.mpr ⟨_, List.mem_filter.mpr ⟨hp, ?_⟩, rfl⟩)
    rw [hc, hd, h.close]
    rfl
  · refine .symm _ _ (.rel _ _ (List.mem_map.mpr ⟨_, List.mem_filter.mpr ⟨hp, ?_⟩, rfl⟩))
    rw [hc, hd, withinThreshold_comm h.close]
    rfl

theorem closePairs_lt {e : ℕ × ℕ}
    (h : e ∈ closePairs (inconsistentContents claims) thresholdBits claims) :
    e.1 < claims.length ∧ e.2 < claims.length := by
  obtain ⟨c, d, hi, hj, -⟩ := closePairs_near h
  exact ⟨(List.getElem?_eq_some_iff.mp hi).1, (List.getElem?_eq_some_iff.mp hj).1⟩

theorem near_self (hc : c ∈ claims) (h : Assessed claims c) : Near claims thresholdBits c c :=
  ⟨hc, hc, h, h, withinThreshold_self h.1 rfl⟩

/-- A chain between positions is a chain between the claims at them. -/
theorem clustered_of_eqvGen
    (h : EqvGen (fun a b => (a, b) ∈ closePairs (inconsistentContents claims) thresholdBits claims)
      i j) :
    i = j ∨ ∃ c d, claims[i]? = some c ∧ claims[j]? = some d ∧
      Clustered claims thresholdBits c d := by
  induction h with
  | rel i j h =>
    obtain ⟨c, d, hi, hj, hnear⟩ := closePairs_near h
    exact Or.inr ⟨c, d, hi, hj, .rel _ _ hnear⟩
  | refl => exact Or.inl rfl
  | symm i j _ ih =>
    rcases ih with rfl | ⟨c, d, hi, hj, hcd⟩
    · exact Or.inl rfl
    · exact Or.inr ⟨d, c, hj, hi, .symm _ _ hcd⟩
  | trans i j k _ _ ih ih' =>
    rcases ih with rfl | ⟨c, d, hi, hj, hcd⟩
    · exact ih'
    · rcases ih' with rfl | ⟨d', e, hj', hk, hde⟩
      · exact Or.inr ⟨c, d, hi, hj, hcd⟩
      · obtain rfl := Option.some.inj (hj.symm.trans hj')
        exact Or.inr ⟨c, e, hi, hk, .trans _ _ _ hcd hde⟩

/-- The claims of a chain are assessed, unless it stands still. -/
theorem Clustered.mem_assessed (h : Clustered claims thresholdBits c d) :
    c = d ∨ ((c ∈ claims ∧ Assessed claims c) ∧ d ∈ claims ∧ Assessed claims d) := by
  induction h with
  | rel c d h => exact Or.inr ⟨⟨h.left_mem, h.left_assessed⟩, h.right_mem, h.right_assessed⟩
  | refl => exact Or.inl rfl
  | symm c d _ ih => exact ih.imp Eq.symm And.symm
  | trans c d e _ _ ih ih' =>
    rcases ih with rfl | ⟨hc, hd⟩
    · exact ih'
    · rcases ih' with rfl | ⟨_, he⟩
      · exact Or.inr ⟨hc, hd⟩
      · exact Or.inr ⟨hc, he⟩

theorem eqvGen_of_clustered (h : Clustered claims thresholdBits c d) (hc : c ∈ claims)
    (hca : Assessed claims c) (hi : claims[i]? = some c) (hj : claims[j]? = some d) :
    EqvGen (fun a b => (a, b) ∈ closePairs (inconsistentContents claims) thresholdBits claims)
      i j := by
  have hnear : ∀ {c d i j}, claims[i]? = some c → claims[j]? = some d →
      Near claims thresholdBits c d → EqvGen
        (fun a b => (a, b) ∈ closePairs (inconsistentContents claims) thresholdBits claims) i j := by
    intro c d i j hi hj h
    by_cases hij : i = j
    · rw [hij]
      exact .refl _
    · exact closePairs_of_near hi hj hij h
  -- positions of one claim are joined, as its embedding is close to itself
  have hcase : (c ∈ claims ∧ Assessed claims c) ∧ (d ∈ claims ∧ Assessed claims d) ∧
      ∀ i j, claims[i]? = some c → claims[j]? = some d → EqvGen
        (fun a b => (a, b) ∈ closePairs (inconsistentContents claims) thresholdBits claims) i j := by
    rcases h.mem_assessed with rfl | ⟨hc', hd'⟩
    · exact ⟨⟨hc, hca⟩, ⟨hc, hca⟩, fun i j hi hj => hnear hi hj (near_self hc hca)⟩
    · refine ⟨hc', hd', ?_⟩
      clear hc hca hi hj
      induction h with
      | rel c d h => exact fun i j hi hj => hnear hi hj h
      | refl c => exact fun i j hi hj => hnear hi hj (near_self hc'.1 hc'.2)
      | symm c d _ ih => exact fun i j hi hj => .symm _ _ (ih hd' hc' j i hj hi)
      | trans c d e hcd hde ih ih' =>
        intro i k hi hk
        have hd : d ∈ claims ∧ Assessed claims d := by
          rcases Clustered.mem_assessed hcd with rfl | h
          · exact hc'
          · exact h.2
        obtain ⟨j, hj⟩ := List.mem_iff_getElem?.mp hd.1
        exact .trans _ _ _ (ih hc' hd i j hi hj) (ih' hd hd' j k hj hk)
  exact hcase.2.2 i j hi hj

/-- The clustering loop joins the positions of assessed claims that a chain joins. -/
theorem joined_iff_clustered (hi : claims[i]? = some c) (hj : claims[j]? = some d)
    (hca : Assessed claims c) :
    Joined (unionAll claims.length id
      (closePairs (inconsistentContents claims) thresholdBits claims)) i j ↔
      Clustered claims thresholdBits c d := by
  have hi' := (List.getElem?_eq_some_iff.mp hi).1
  have hj' := (List.getElem?_eq_some_iff.mp hj).1
  rw [joined_unionAll (fun e he => closePairs_lt he) hi' hj']
  constructor
  · intro h
    rcases clustered_of_eqvGen h with rfl | ⟨c', d', hi'', hj'', hcd⟩
    · obtain rfl := Option.some.inj (hi.symm.trans hj)
      exact .refl _
    · obtain rfl := Option.some.inj (hi.symm.trans hi'')
      obtain rfl := Option.some.inj (hj.symm.trans hj'')
      exact hcd
  · intro h
    exact eqvGen_of_clustered h (List.mem_of_getElem? hi) hca hi hj

/-! ## Anchors -/

/-- The ids counted towards the root `r`. -/
def CountedIds (inconsistent : List (ByteArr 16)) (parent : ℕ → ℕ) (done : List (Claim × ℕ))
    (r : ℕ) : Set ClaimHash :=
  {h | ∃ c ∈ done, assessable inconsistent c.1 = true ∧ Root parent c.2 r ∧ c.1.id = h}

/-- The map holds the smallest of the ids counted so far for each root. -/
structure AnchorInv (n : ℕ) (inconsistent : List (ByteArr 16)) (parent : ℕ → ℕ)
    (done : List (Claim × ℕ)) (s : Anchors) : Prop where
  keeps : Keeps n parent s.1
  least : ∀ r m, s.2.lookup r = some m → IsLeast (CountedIds inconsistent parent done r) m
  counted : ∀ r, (CountedIds inconsistent parent done r).Nonempty → (s.2.lookup r).isSome

theorem countedIds_concat {inconsistent : List (ByteArr 16)} {parent : ℕ → ℕ}
    {done : List (Claim × ℕ)} {c : Claim × ℕ} {r : ℕ} {h : ClaimHash} :
    h ∈ CountedIds inconsistent parent (done ++ [c]) r ↔
      h ∈ CountedIds inconsistent parent done r ∨
        (assessable inconsistent c.1 = true ∧ Root parent c.2 r ∧ c.1.id = h) := by
  constructor
  · rintro ⟨d, hd, hrest⟩
    rcases List.mem_append.mp hd with hd | hd
    · exact Or.inl ⟨d, hd, hrest⟩
    · rw [List.mem_singleton.mp hd] at hrest
      exact Or.inr hrest
  · rintro (⟨d, hd, hrest⟩ | hrest)
    · exact ⟨d, List.mem_append_left _ hd, hrest⟩
    · exact ⟨c, List.mem_append_right _ (List.mem_singleton_self c), hrest⟩

/-- What is smallest stays smallest, or the new id is. -/
theorem isLeast_countedIds_concat {inconsistent : List (ByteArr 16)} {parent : ℕ → ℕ}
    {done : List (Claim × ℕ)} {c : Claim × ℕ} {r : ℕ} (ha : assessable inconsistent c.1 = true)
    (hr : Root parent c.2 r) {old : Option ClaimHash}
    (hleast : ∀ m, old = some m → IsLeast (CountedIds inconsistent parent done r) m)
    (hcounted : (CountedIds inconsistent parent done r).Nonempty → old.isSome) :
    IsLeast (CountedIds inconsistent parent (done ++ [c]) r)
      (old.elim c.1.id fun m => if c.1.id < m then c.1.id else m) := by
  have hnew : c.1.id ∈ CountedIds inconsistent parent (done ++ [c]) r :=
    countedIds_concat.mpr (Or.inr ⟨ha, hr, rfl⟩)
  cases old with
  | none =>
    refine ⟨hnew, fun x hx => ?_⟩
    rcases countedIds_concat.mp hx with hx | ⟨_, _, rfl⟩
    · cases hcounted ⟨x, hx⟩
    · exact le_rfl
  | some p =>
    obtain ⟨hpmem, hple⟩ := hleast p rfl
    rw [Option.elim_some]
    by_cases hlt : c.1.id < p
    · rw [if_pos hlt]
      refine ⟨hnew, fun x hx => ?_⟩
      rcases countedIds_concat.mp hx with hx | ⟨_, _, rfl⟩
      · exact hlt.le.trans (hple hx)
      · exact le_rfl
    · rw [if_neg hlt]
      refine ⟨countedIds_concat.mpr (Or.inl hpmem), fun x hx => ?_⟩
      rcases countedIds_concat.mp hx with hx | ⟨_, _, rfl⟩
      · exact hple hx
      · exact not_lt.mp hlt

theorem AnchorInv.note {n : ℕ} {inconsistent : List (ByteArr 16)} {parent : ℕ → ℕ}
    {done : List (Claim × ℕ)} {s : Anchors} (hp : Forest n parent)
    (h : AnchorInv n inconsistent parent done s) {c : Claim × ℕ} (hc : c.2 < n) :
    AnchorInv n inconsistent parent (done ++ [c]) (noteAnchor n inconsistent s c) := by
  unfold noteAnchor
  by_cases ha : assessable inconsistent c.1 = true
  · rw [if_pos ha]
    obtain ⟨hroot, hkeeps⟩ := find_spec h.keeps.forest hc
    have hroot' := (h.keeps.root_iff hp hc).mp hroot
    -- the ids counted towards the other roots stay the same
    have hother : ∀ r, r ≠ (find n s.1 c.2).2 → CountedIds inconsistent parent (done ++ [c]) r =
        CountedIds inconsistent parent done r := by
      intro r hr
      ext x
      rw [countedIds_concat]
      exact or_iff_left fun hx => hr (hx.2.1.det hroot')
    refine ⟨h.keeps.trans hkeeps, fun r m hm => ?_, fun r hr => ?_⟩
    · by_cases hr : r = (find n s.1 c.2).2
      · subst hr
        rw [AList.lookup_insert] at hm
        rw [← Option.some.inj hm]
        exact isLeast_countedIds_concat ha hroot' (h.least _) (h.counted _)
      · rw [AList.lookup_insert_ne hr] at hm
        rw [hother r hr]
        exact h.least r m hm
    · by_cases hr' : r = (find n s.1 c.2).2
      · rw [hr', AList.lookup_insert]
        rfl
      · rw [AList.lookup_insert_ne hr']
        rw [hother r hr'] at hr
        exact h.counted r hr
  · rw [if_neg ha]
    have hsame : ∀ r, CountedIds inconsistent parent (done ++ [c]) r =
        CountedIds inconsistent parent done r := by
      intro r
      ext x
      rw [countedIds_concat]
      exact or_iff_left fun hx => ha hx.1
    refine ⟨h.keeps, fun r m hm => ?_, fun r hr => ?_⟩
    · rw [hsame]
      exact h.least r m hm
    · rw [hsame] at hr
      exact h.counted r hr

theorem anchorInv_foldl {n : ℕ} (inconsistent : List (ByteArr 16)) {parent : ℕ → ℕ}
    {all : List (Claim × ℕ)} (hp : Forest n parent) (hall : ∀ c ∈ all, c.2 < n) :
    AnchorInv n inconsistent parent all (all.foldl (noteAnchor n inconsistent) (parent, ∅)) := by
  induction all using List.reverseRecOn with
  | nil =>
    refine ⟨.refl hp, fun r m hm => ?_, ?_⟩
    · cases hm
    · rintro r ⟨x, c, hc, -⟩
      cases hc
  | append_singleton all c ih =>
    rw [List.foldl_append]
    exact (ih fun d hd => hall d (List.mem_append_left _ hd)).note hp
      (hall c (List.mem_append_right _ (List.mem_singleton_self c)))

theorem groupsFrom_getElem? (blake3 : Blake3) {n : ℕ} (inconsistent : List (ByteArr 16))
    (minId : HashMap ℕ ClaimHash) {parent parent' : ℕ → ℕ} {all : List (Claim × ℕ)}
    (hp : Forest n parent) (hkeeps : Keeps n parent parent') (hall : ∀ c ∈ all, c.2 < n) {k : ℕ}
    {e : Claim × ℕ} (hk : all[k]? = some e) :
    ∃ g, (groupsFrom blake3 n inconsistent minId parent' all)[k]? = some g ∧
      (assessable inconsistent e.1 = true → ∃ r, Root parent e.2 r ∧
        g = ⟨clusterKey blake3 ((minId.lookup r).getD (zeros 32)), true⟩) ∧
      (assessable inconsistent e.1 = false → g = ⟨e.1.effectiveCorrelationCell blake3, false⟩) := by
  induction all generalizing parent' k with
  | nil => cases hk
  | cons c all ih =>
    have hrest := fun d hd => hall d (List.mem_cons_of_mem c hd)
    have hc := hall c (List.mem_cons_self ..)
    cases ha : assessable inconsistent c.1 with
    | true =>
      obtain ⟨hroot, hfind⟩ := find_spec hkeeps.forest hc
      rw [groupsFrom, if_pos ha]
      cases k with
      | zero =>
        obtain rfl := Option.some.inj hk
        refine ⟨_, rfl, fun _ => ⟨_, (hkeeps.root_iff hp hc).mp hroot, rfl⟩, ?_⟩
        rw [ha]
        intro h
        cases h
      | succ k => exact ih (hkeeps.trans hfind) hrest hk
    | false =>
      rw [groupsFrom, if_neg (by rw [ha]; exact Bool.false_ne_true)]
      cases k with
      | zero =>
        obtain rfl := Option.some.inj hk
        refine ⟨_, rfl, ?_, fun _ => rfl⟩
        rw [ha]
        intro h
        cases h
      | succ k => exact ih hkeeps hrest hk

/-! ## Groups -/

/-- The ids in the cluster of `c`. -/
def ClusterIds (claims : List Claim) (thresholdBits : ℕ) (c : Claim) : Set ClaimHash :=
  {h | ∃ d ∈ claims, Clustered claims thresholdBits c d ∧ d.id = h}

/-- What the group of a claim has to be. -/
structure IsGroup (blake3 : Blake3) (claims : List Claim) (thresholdBits : ℕ) (c : Claim)
    (g : CorrelationGroup) : Prop where
  assessed : Assessed claims c → ∃ anchor, IsLeast (ClusterIds claims thresholdBits c) anchor ∧
    g = ⟨clusterKey blake3 anchor, true⟩
  unassessed : ¬ Assessed claims c → g = ⟨c.effectiveCorrelationCell blake3, false⟩

theorem countedIds_eq {r : ℕ} (hi : claims[i]? = some c) (hca : Assessed claims c)
    (hr : Root (unionAll claims.length id
      (closePairs (inconsistentContents claims) thresholdBits claims)) i r) :
    CountedIds (inconsistentContents claims) (unionAll claims.length id
      (closePairs (inconsistentContents claims) thresholdBits claims)) claims.zipIdx r =
      ClusterIds claims thresholdBits c := by
  ext h
  constructor
  · rintro ⟨⟨d, j⟩, hd, _, hroot, rfl⟩
    have hj := List.mem_zipIdx_iff_getElem?.mp hd
    exact ⟨d, List.mem_of_getElem? hj, (joined_iff_clustered hi hj hca).mp ⟨r, hr, hroot⟩, rfl⟩
  · rintro ⟨d, hd, hcd, rfl⟩
    obtain ⟨j, hj⟩ := List.mem_iff_getElem?.mp hd
    obtain ⟨r', hr', hroot⟩ := (joined_iff_clustered hi hj hca).mpr hcd
    obtain rfl := hr.det hr'
    have hda : Assessed claims d := by
      rcases hcd.mem_assessed with rfl | h
      · exact hca
      · exact h.2.2
    exact ⟨(d, j), List.mem_zipIdx_iff_getElem?.mpr hj, (assessable_iff hd).mpr hda, hroot, rfl⟩

/-- `correlation_groups` gives every claim its group. -/
theorem correlationGroups_isGroup (blake3 : Blake3) (thresholdBits : ℕ) (hi : claims[i]? = some c) :
    ∃ g, (correlationGroups blake3 claims thresholdBits)[i]? = some g ∧
      IsGroup blake3 claims thresholdBits c g := by
  have hc := List.mem_of_getElem? hi
  have hlt : ∀ e ∈ closePairs (inconsistentContents claims) thresholdBits claims,
      e.1 < claims.length ∧ e.2 < claims.length := fun e he => closePairs_lt he
  have hforest := forest_unionAll forest_id hlt
  have hall : ∀ e ∈ claims.zipIdx, e.2 < claims.length := fun e he =>
    (List.getElem?_eq_some_iff.mp (List.mem_zipIdx_iff_getElem?.mp he)).1
  have hinv := anchorInv_foldl (inconsistentContents claims) hforest hall
  have hk : claims.zipIdx[i]? = some (c, i) := by simp [List.getElem?_zipIdx, hi]
  obtain ⟨g, hg, ht, hf⟩ := groupsFrom_getElem? blake3 (inconsistentContents claims)
    (claims.zipIdx.foldl (noteAnchor claims.length (inconsistentContents claims))
      (unionAll claims.length id (closePairs (inconsistentContents claims) thresholdBits claims),
        ∅)).2 hforest hinv.keeps hall hk
  refine ⟨g, hg, fun hca => ?_, fun hca => ?_⟩
  · obtain ⟨r, hr, rfl⟩ := ht ((assessable_iff hc).mpr hca)
    have hids := countedIds_eq hi hca hr
    obtain ⟨m, hm⟩ := Option.isSome_iff_exists.mp
      (hinv.counted r (hids ▸ ⟨c.id, c, hc, .refl _, rfl⟩))
    rw [hm]
    exact ⟨m, hids ▸ hinv.least r m hm, rfl⟩
  · exact hf (Bool.eq_false_iff.mpr fun h => hca ((assessable_iff hc).mp h))

end Clusters

theorem IsGroup.unique {blake3 : Blake3} {claims : List Claim} {thresholdBits : ℕ} {c : Claim}
    {g g' : CorrelationGroup} (h : IsGroup blake3 claims thresholdBits c g)
    (h' : IsGroup blake3 claims thresholdBits c g') : g = g' := by
  by_cases hca : Assessed claims c
  · obtain ⟨a, ha, rfl⟩ := h.assessed hca
    obtain ⟨a', ha', rfl⟩ := h'.assessed hca
    rw [ha.unique ha']
  · rw [h.unassessed hca, h'.unassessed hca]

@[simp] theorem length_groupsFrom {blake3 : Blake3} {n : ℕ} {inconsistent : List (ByteArr 16)}
    {minId : HashMap ℕ ClaimHash} {parent : ℕ → ℕ} {all : List (Claim × ℕ)} :
    (groupsFrom blake3 n inconsistent minId parent all).length = all.length := by
  induction all generalizing parent with
  | nil => rfl
  | cons c all ih =>
    unfold groupsFrom
    split <;> simp [ih]

@[simp] theorem length_correlationGroups (blake3 : Blake3) (claims : List Claim)
    (thresholdBits : ℕ) : (correlationGroups blake3 claims thresholdBits).length = claims.length := by
  simp [correlationGroups]

/-- The group of a claim depends on the set of the claims with embeddings alone. -/
theorem IsGroup.congr {blake3 : Blake3} {claims claims' : List Claim} {thresholdBits : ℕ}
    {c : Claim} {g : CorrelationGroup}
    (hmem : ∀ d : Claim, d.embedding.isSome → (d ∈ claims ↔ d ∈ claims'))
    (h : IsGroup blake3 claims thresholdBits c g) : IsGroup blake3 claims' thresholdBits c g := by
  have hassessed : ∀ d, Assessed claims d ↔ Assessed claims' d := by
    intro d
    refine and_congr_right fun _ => ⟨fun h x hx hxe => ?_, fun h x hx hxe => ?_⟩
    · exact h x ((hmem x hxe).mpr hx) hxe
    · exact h x ((hmem x hxe).mp hx) hxe
  have hnear : Near claims thresholdBits = Near claims' thresholdBits := by
    funext a b
    refine propext ⟨fun h => ?_, fun h => ?_⟩
    · exact ⟨(hmem a h.left_assessed.1).mp h.left_mem, (hmem b h.right_assessed.1).mp h.right_mem,
        (hassessed a).mp h.left_assessed, (hassessed b).mp h.right_assessed, h.close⟩
    · exact ⟨(hmem a h.left_assessed.1).mpr h.left_mem, (hmem b h.right_assessed.1).mpr h.right_mem,
        (hassessed a).mpr h.left_assessed, (hassessed b).mpr h.right_assessed, h.close⟩
  have hclustered : Clustered claims thresholdBits = Clustered claims' thresholdBits :=
    congrArg EqvGen hnear
  refine ⟨fun hca => ?_, fun hca => h.unassessed fun h' => hca ((hassessed c).mp h')⟩
  have hca' := (hassessed c).mpr hca
  -- the cluster of an assessed claim holds assessed claims only
  have hids : ClusterIds claims thresholdBits c = ClusterIds claims' thresholdBits c := by
    ext x
    have hembedding : ∀ {d}, Clustered claims thresholdBits c d → d.embedding.isSome := by
      intro d hcd
      rcases hcd.mem_assessed with rfl | hd
      · exact hca.1
      · exact hd.2.2.1
    constructor
    · rintro ⟨d, hd, hcd, rfl⟩
      exact ⟨d, (hmem d (hembedding hcd)).mp hd, hclustered ▸ hcd, rfl⟩
    · rintro ⟨d, hd, hcd, rfl⟩
      rw [← hclustered] at hcd
      exact ⟨d, (hmem d (hembedding hcd)).mpr hd, hcd, rfl⟩
  rw [← hids]
  exact h.assessed hca'

/-- A claim that both lists hold is in one group. -/
theorem correlationGroups_congr {blake3 : Blake3} {claims claims' : List Claim} {thresholdBits : ℕ}
    (hmem : ∀ d : Claim, d.embedding.isSome → (d ∈ claims ↔ d ∈ claims')) {i j : ℕ} {c : Claim}
    (hi : claims[i]? = some c) (hj : claims'[j]? = some c) :
    (correlationGroups blake3 claims' thresholdBits)[j]? =
      (correlationGroups blake3 claims thresholdBits)[i]? := by
  obtain ⟨g, hg, hspec⟩ := correlationGroups_isGroup blake3 thresholdBits hi
  obtain ⟨g', hg', hspec'⟩ := correlationGroups_isGroup blake3 thresholdBits hj
  rw [hg, hg', hspec'.unique (hspec.congr hmem)]

end Aimp.Epistemic
