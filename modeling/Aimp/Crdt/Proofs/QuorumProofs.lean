import Aimp.Crdt.Consensus
import Aimp.Lib.Ballot

/-!
# Quorum safety

The quorum manager refines one ballot for each prompt: `observe` casts a vote in the ballot of its
prompt or changes no ballot, and a prompt is verified if and only if its ballot is closed.
-/

namespace Aimp.Crdt

namespace QuorumManager

variable {blake3 : List Byte → Hash32} {q : QuorumManager} {t : ℕ}

/-! ## The operations on the votes -/

/-- Two managers that differ neither in their votes nor in the verified prompts. -/
structure SameVotes (q q' : QuorumManager) : Prop where
  threshold : q'.threshold = q.threshold
  voters : ∀ ph dh, q'.votersFor ph dh = q.votersFor ph dh
  verified : q'.verified = q.verified

theorem SameVotes.refl (q : QuorumManager) : q.SameVotes q := ⟨rfl, fun _ _ => rfl, rfl⟩

theorem SameVotes.trans {q q' q'' : QuorumManager} (h : q.SameVotes q') (h' : q'.SameVotes q'') :
    q.SameVotes q'' :=
  ⟨h'.threshold.trans h.threshold, fun ph dh => (h'.voters ph dh).trans (h.voters ph dh),
    h'.verified.trans h.verified⟩

theorem checkEntries_sameVotes (dataHash nodeHash : Hash32) (es : List (String × U64))
    (q : QuorumManager) : q.SameVotes (q.checkEntries dataHash nodeHash es).1 := by
  induction es generalizing q with
  | nil => exact .refl q
  | cons e es ih =>
    unfold checkEntries
    split
    · exact ih q
    · split
      · split
        · exact ⟨rfl, fun _ _ => rfl, rfl⟩
        · exact ih q
      · have h := ih { q with observedTicks := q.observedTicks.insert (e.1, e.2) (dataHash, nodeHash) }
        exact ⟨h.threshold, h.voters, h.verified⟩

/-- Detecting equivocation changes no vote. -/
theorem checkEquivocation_sameVotes (q : QuorumManager) (node : DagNode) (nodeHash : Hash32) :
    q.SameVotes (q.checkEquivocation node nodeHash).1 :=
  checkEntries_sameVotes ..

theorem any_entries_iff (m : HashMap Hash32 (List Hash32)) (o : Hash32) :
    (m.entries.any fun e => o ∈ e.2) = true ↔ ∃ dh, o ∈ (m.lookup dh).getD [] := by
  rw [List.any_eq_true]
  constructor
  · rintro ⟨⟨dh, vs⟩, he, ho⟩
    refine ⟨dh, ?_⟩
    rw [AList.mem_lookup_iff.mpr he]
    exact of_decide_eq_true ho
  · rintro ⟨dh, ho⟩
    cases hl : m.lookup dh with
    | none => simp [hl] at ho
    | some vs =>
      rw [hl] at ho
      exact ⟨⟨dh, vs⟩, AList.mem_lookup_iff.mp hl, decide_eq_true ho⟩

/-- `q'` is `q` with the first vote of `o` on the prompt `ph`, for the decision `dh`; `r` tells whether
this verifies the prompt. -/
structure Voted (q : QuorumManager) (ph dh o : Hash32) (q' : QuorumManager) (r : Bool) : Prop where
  unverified : ph ∉ q.verified
  fresh : ∀ dh', o ∉ q.votersFor ph dh'
  threshold : q'.threshold = q.threshold
  voters : ∀ ph' dh', q'.votersFor ph' dh' =
    if ph' = ph ∧ dh' = dh then (q.votersFor ph dh).insert o else q.votersFor ph' dh'
  result : r = true ↔ q.threshold ≤ (q'.votersFor ph dh).length
  verified : ∀ ph', ph' ∈ q'.verified ↔ ph' ∈ q.verified ∨ (r = true ∧ ph' = ph)

theorem votersFor_insert (q : QuorumManager) (m : HashMap Hash32 (List Hash32))
    (ph ph' dh : Hash32) :
    { q with decisions := q.decisions.insert ph m }.votersFor ph' dh =
      if ph' = ph then (m.lookup dh).getD [] else q.votersFor ph' dh := by
  unfold votersFor
  split
  · rename_i h
    rw [h, AList.lookup_insert]
    rfl
  · rename_i h
    rw [AList.lookup_insert_ne h]

theorem votersFor_vote (q : QuorumManager) (ph dh : Hash32) (vs : List Hash32) (ph' dh' : Hash32) :
    { q with decisions := q.decisions.insert ph
              (((q.decisions.lookup ph).getD ∅).insert dh vs) }.votersFor ph' dh' =
      if ph' = ph ∧ dh' = dh then vs else q.votersFor ph' dh' := by
  rw [votersFor_insert]
  by_cases hp : ph' = ph
  · subst hp
    by_cases hd : dh' = dh
    · subst hd
      rw [if_pos rfl, if_pos ⟨rfl, rfl⟩, AList.lookup_insert]
      rfl
    · rw [if_pos rfl, if_neg fun h => hd h.2, AList.lookup_insert_ne hd]
      rfl
  · rw [if_neg hp, if_neg fun h => hp h.1]

/-- A vote is either rejected, or it is the first one of its voter on a prompt that is not verified. -/
theorem observe_cases (blake3 : List Byte → Hash32) (q : QuorumManager) (o : Hash32)
    (e : AiEvidence) :
    ((q.observe blake3 o e).2 = false ∧ q.SameVotes (q.observe blake3 o e).1) ∨
    q.Voted (blake3 (asBytes e.prompt)) (blake3 (asBytes e.decision)) o (q.observe blake3 o e).1
      (q.observe blake3 o e).2 := by
  unfold observe
  generalize blake3 (asBytes e.prompt) = ph
  generalize blake3 (asBytes e.decision) = dh
  dsimp only
  split
  · exact Or.inl ⟨rfl, .refl q⟩
  · rename_i hverified
    split
    · exact Or.inl ⟨rfl, .refl q⟩
    · split
      · refine Or.inl ⟨rfl, rfl, fun ph' dh' => ?_, rfl⟩
        rw [votersFor_insert]
        split
        · rename_i h
          rw [h]
          rfl
        · rfl
      · rename_i hnew
        have hfresh : ∀ dh', o ∉ q.votersFor ph dh' := fun dh' ho =>
          hnew ((any_entries_iff _ o).mpr ⟨dh', ho⟩)
        have hvoters := q.votersFor_vote ph dh ((q.votersFor ph dh).insert o)
        have hself := (hvoters ph dh).trans (if_pos ⟨rfl, rfl⟩)
        right
        split
        · rename_i hle
          refine ⟨hverified, hfresh, rfl, hvoters, ?_, fun ph' => ?_⟩
          · exact iff_of_true rfl (hle.trans (congrArg List.length hself).ge)
          · rw [List.mem_insert_iff]
            tauto
        · rename_i hlt
          refine ⟨hverified, hfresh, rfl, hvoters, ?_, fun ph' => by simp⟩
          exact iff_of_false (by simp) fun hle => hlt (hle.trans (congrArg List.length hself).le)

/-- What `observe` asks of a vote before it records it. -/
structure Admissible (q : QuorumManager) (ph o : Hash32) : Prop where
  unverified : ph ∉ q.verified
  undenied : hexEncode o.val ∉ q.denied
  fresh : ∀ dh, o ∉ q.votersFor ph dh

/-- `observe` records the vote if and only if it is admissible. -/
theorem mem_votersFor_observe (blake3 : List Byte → Hash32) {q : QuorumManager} {o : Hash32}
    {e : AiEvidence} {ph dh : Hash32} (hp : blake3 (asBytes e.prompt) = ph)
    (hd : blake3 (asBytes e.decision) = dh) (hnew : o ∉ q.votersFor ph dh) :
    o ∈ (q.observe blake3 o e).1.votersFor ph dh ↔ q.Admissible ph o := by
  constructor
  · intro ho
    rcases observe_cases blake3 q o e with ⟨-, hs⟩ | hv
    · exact absurd (hs.voters ph dh ▸ ho) hnew
    · rw [hp, hd] at hv
      refine ⟨hv.unverified, fun hdenied => ?_, hv.fresh⟩
      unfold observe at ho
      dsimp only at ho
      rw [hp, if_neg hv.unverified, if_pos hdenied] at ho
      exact hnew ho
  · intro h
    have hany : ¬ (((q.decisions.lookup ph).getD ∅).entries.any fun e => o ∈ e.2) = true := by
      rw [any_entries_iff]
      rintro ⟨dh', ho⟩
      exact h.fresh dh' ho
    have hvoters : (q.observe blake3 o e).1.votersFor ph dh = (q.votersFor ph dh).insert o := by
      unfold observe
      dsimp only
      rw [hp, hd, if_neg h.unverified, if_neg h.undenied, if_neg hany]
      have hvote := (q.votersFor_vote ph dh ((q.votersFor ph dh).insert o) ph dh).trans
        (if_pos ⟨rfl, rfl⟩)
      split
      · exact hvote
      · exact hvote
    rw [hvoters]
    exact List.mem_insert_self

/-! ## The refinement -/

/-- The ballots that the manager keeps, one for each prompt. -/
structure Refines (q : QuorumManager) (b : Hash32 → Ballot Hash32 Hash32 t) : Prop where
  threshold : q.threshold = t
  nodup : ∀ ph dh, (q.votersFor ph dh).Nodup
  voters : ∀ ph dh, ((b ph).voters dh) = (q.votersFor ph dh).toFinset
  verified : ∀ ph, ph ∈ q.verified ↔ (b ph).Closed

theorem Refines.card {b : Hash32 → Ballot Hash32 Hash32 t} (h : q.Refines b) (ph dh : Hash32) :
    ((b ph).voters dh).card = (q.votersFor ph dh).length := by
  rw [h.voters, List.toFinset_card_of_nodup (h.nodup ph dh)]

theorem Refines.length_le {b : Hash32 → Ballot Hash32 Hash32 t} (h : q.Refines b) (ph dh : Hash32) :
    (q.votersFor ph dh).length ≤ t := by
  rw [← h.card]
  exact (b ph).bounded dh

theorem refines_new (ht : 0 < t) : (new t).Refines fun _ => Ballot.empty ht :=
  ⟨rfl, fun _ _ => List.nodup_nil, fun _ _ => rfl, fun _ =>
    iff_of_false List.not_mem_nil (Ballot.not_closed_empty ht)⟩

theorem Refines.sameVotes {q' : QuorumManager} {b : Hash32 → Ballot Hash32 Hash32 t}
    (h : q.Refines b) (hs : q.SameVotes q') : q'.Refines b :=
  ⟨hs.threshold.trans h.threshold, fun ph dh => by rw [hs.voters]; exact h.nodup ph dh,
    fun ph dh => by rw [hs.voters, h.voters], fun ph => by rw [hs.verified, h.verified]⟩

/-- A recorded vote is a vote cast in the ballot of its prompt, and it verifies the prompt if and only
if it closes that ballot. -/
theorem Refines.voted {q' : QuorumManager} {b : Hash32 → Ballot Hash32 Hash32 t} {ph dh o : Hash32}
    {r : Bool} (h : q.Refines b) (hv : q.Voted ph dh o q' r) :
    ∃ hopen hnew, q'.Refines (Function.update b ph ((b ph).cast dh o hopen hnew)) ∧
      (r = true ↔ ((b ph).cast dh o hopen hnew).Closed) := by
  have hopen : ¬ (b ph).Closed := fun hc => hv.unverified ((h.verified ph).mpr hc)
  have hnew : ∀ dh', o ∉ (b ph).voters dh' := fun dh' ho =>
    hv.fresh dh' (List.mem_toFinset.mp (h.voters ph dh' ▸ ho))
  have hnodup : ∀ ph' dh', (q'.votersFor ph' dh').Nodup := by
    intro ph' dh'
    rw [hv.voters]
    split
    · exact (h.nodup ph dh).insert
    · exact h.nodup ph' dh'
  have hcast : ∀ dh', ((b ph).cast dh o hopen hnew).voters dh' = (q'.votersFor ph dh').toFinset := by
    intro dh'
    rw [Ballot.voters_cast, hv.voters, h.voters, h.voters]
    by_cases hd : dh' = dh
    · rw [if_pos hd, if_pos ⟨rfl, hd⟩]
      ext v
      simp only [Finset.mem_insert, List.mem_toFinset, List.mem_insert_iff]
    · rw [if_neg hd, if_neg fun hc => hd hc.2]
  have hclosed : r = true ↔ ((b ph).cast dh o hopen hnew).Closed := by
    rw [hv.result, Ballot.closed_cast, hcast, List.toFinset_card_of_nodup (hnodup ph dh),
      h.threshold]
    have hle := ((b ph).cast dh o hopen hnew).bounded dh
    rw [hcast, List.toFinset_card_of_nodup (hnodup ph dh)] at hle
    exact ⟨le_antisymm hle, Eq.ge⟩
  refine ⟨hopen, hnew, ⟨hv.threshold.trans h.threshold, hnodup, fun ph' dh' => ?_, fun ph' => ?_⟩,
    hclosed⟩
  · by_cases hp : ph' = ph
    · subst hp
      rw [Function.update_self, hcast]
    · rw [Function.update_of_ne hp, h.voters, hv.voters, if_neg fun hc => hp hc.1]
  · rw [hv.verified]
    by_cases hp : ph' = ph
    · subst hp
      rw [Function.update_self, ← hclosed]
      exact ⟨fun hc => hc.elim (fun hc => absurd hc hv.unverified) And.left,
        fun hr => Or.inr ⟨hr, rfl⟩⟩
    · rw [Function.update_of_ne hp, h.verified]
      exact ⟨fun hc => hc.resolve_right fun hc => hp hc.2, Or.inl⟩

end QuorumManager

/-! ## Sequences of calls -/

/-- The calls that change a quorum manager. -/
inductive QuorumCall where
  | observe (origin : Hash32) (evidence : AiEvidence)
  | checkEquivocation (node : DagNode) (nodeHash : Hash32)

namespace QuorumManager

variable {blake3 : List Byte → Hash32} {q : QuorumManager} {t : ℕ}

/-- One call. -/
def call (blake3 : List Byte → Hash32) (q : QuorumManager) : QuorumCall → QuorumManager
  | .observe origin evidence => (q.observe blake3 origin evidence).1
  | .checkEquivocation node nodeHash => (q.checkEquivocation node nodeHash).1

/-- One call after another. -/
def calls (blake3 : List Byte → Hash32) (q : QuorumManager) (cs : List QuorumCall) :
    QuorumManager :=
  cs.foldl (call blake3) q

theorem calls_append (q : QuorumManager) (cs ds : List QuorumCall) :
    q.calls blake3 (cs ++ ds) = (q.calls blake3 cs).calls blake3 ds :=
  List.foldl_append

/-- A call keeps the refinement and withdraws no vote. -/
theorem Refines.call {b : Hash32 → Ballot Hash32 Hash32 t} (h : q.Refines b)
    (blake3 : List Byte → Hash32) (c : QuorumCall) :
    ∃ b' : Hash32 → Ballot Hash32 Hash32 t, (q.call blake3 c).Refines b' ∧
      ∀ ph dh, (b ph).voters dh ⊆ (b' ph).voters dh := by
  cases c with
  | observe o e =>
    rcases observe_cases blake3 q o e with ⟨-, hs⟩ | hv
    · exact ⟨b, h.sameVotes hs, fun _ _ => Finset.Subset.refl _⟩
    · obtain ⟨hopen, hnew, h', -⟩ := h.voted hv
      refine ⟨_, h', fun ph dh => ?_⟩
      by_cases hp : ph = blake3 (asBytes e.prompt)
      · subst hp
        rw [Function.update_self]
        exact Ballot.subset_cast dh
      · rw [Function.update_of_ne hp]
  | checkEquivocation n h' =>
    exact ⟨b, h.sameVotes (checkEquivocation_sameVotes q n h'), fun _ _ => Finset.Subset.refl _⟩

/-- Calls keep the refinement and withdraw no vote. -/
theorem Refines.calls {b : Hash32 → Ballot Hash32 Hash32 t} (h : q.Refines b)
    (blake3 : List Byte → Hash32) (cs : List QuorumCall) :
    ∃ b' : Hash32 → Ballot Hash32 Hash32 t, (q.calls blake3 cs).Refines b' ∧
      ∀ ph dh, (b ph).voters dh ⊆ (b' ph).voters dh := by
  induction cs generalizing q b with
  | nil => exact ⟨b, h, fun _ _ => Finset.Subset.refl _⟩
  | cons c cs ih =>
    obtain ⟨b₁, h₁, hsub₁⟩ := h.call blake3 c
    obtain ⟨b₂, h₂, hsub₂⟩ := ih h₁
    exact ⟨b₂, h₂, fun ph dh => (hsub₁ ph dh).trans (hsub₂ ph dh)⟩

theorem exists_refines_calls (ht : 0 < t) (blake3 : List Byte → Hash32) (cs : List QuorumCall) :
    ∃ b : Hash32 → Ballot Hash32 Hash32 t, ((new t).calls blake3 cs).Refines b := by
  obtain ⟨b, hb, -⟩ := (refines_new ht).calls blake3 cs
  exact ⟨b, hb⟩

/-- A call records no voter but the origin of its vote. -/
theorem mem_votersFor_call {c : QuorumCall} {ph dh o : Hash32}
    (h : o ∈ (q.call blake3 c).votersFor ph dh) : o ∈ q.votersFor ph dh ∨
      ∃ e, c = .observe o e ∧ blake3 (asBytes e.prompt) = ph ∧ blake3 (asBytes e.decision) = dh := by
  cases c with
  | observe o' e =>
    rcases observe_cases blake3 q o' e with ⟨-, hs⟩ | hv
    · exact Or.inl (hs.voters ph dh ▸ h)
    · have h' := hv.voters ph dh ▸ h
      split at h'
      · rename_i heq
        obtain ⟨rfl, rfl⟩ := heq
        rcases List.mem_insert_iff.mp h' with rfl | h'
        · exact Or.inr ⟨e, rfl, rfl, rfl⟩
        · exact Or.inl h'
      · exact Or.inl h'
  | checkEquivocation n h' =>
    exact Or.inl ((checkEquivocation_sameVotes q n h').voters ph dh ▸ h)

theorem mem_votersFor_calls {cs : List QuorumCall} {ph dh o : Hash32}
    (h : o ∈ ((new t).calls blake3 cs).votersFor ph dh) :
    ∃ e, .observe o e ∈ cs ∧ blake3 (asBytes e.prompt) = ph ∧ blake3 (asBytes e.decision) = dh := by
  induction cs using List.reverseRecOn with
  | nil => exact absurd h List.not_mem_nil
  | append_singleton cs c ih =>
    rw [calls_append] at h
    rcases mem_votersFor_call h with h | ⟨e, rfl, hp, hd⟩
    · obtain ⟨e, he, hpd⟩ := ih h
      exact ⟨e, List.mem_append_left _ he, hpd⟩
    · exact ⟨e, List.mem_append_right _ (List.mem_singleton_self _), hp, hd⟩

theorem getSupportCount_eq (q : QuorumManager) (p d : String) :
    q.getSupportCount blake3 p d =
      (q.votersFor (blake3 (asBytes p)) (blake3 (asBytes d))).length := by
  unfold getSupportCount votersFor
  cases q.decisions.lookup (blake3 (asBytes p)) with
  | none => rfl
  | some m =>
    show ((m.lookup _).map List.length).getD 0 = ((m.lookup _).getD []).length
    cases m.lookup (blake3 (asBytes d)) with
    | none => rfl
    | some vs => rfl

/-- A vote for a verified prompt is rejected. -/
theorem observe_of_verified {o : Hash32} {e : AiEvidence}
    (h : blake3 (asBytes e.prompt) ∈ q.verified) : (q.observe blake3 o e).2 = false := by
  unfold observe
  dsimp only
  rw [if_pos h]

section Refines

variable {b : Hash32 → Ballot Hash32 Hash32 t}

/-- `observe` returns true if and only if its vote brings the decision to the threshold. -/
theorem Refines.observe_true_iff (h : q.Refines b) (o : Hash32) (e : AiEvidence) :
    (q.observe blake3 o e).2 = true ↔ q.getSupportCount blake3 e.prompt e.decision < t ∧
      (q.observe blake3 o e).1.getSupportCount blake3 e.prompt e.decision = t := by
  rw [getSupportCount_eq, getSupportCount_eq]
  rcases observe_cases blake3 q o e with ⟨hr, hs⟩ | hv
  · rw [hr, hs.voters]
    exact iff_of_false (by simp) fun hlt => absurd hlt.2 (ne_of_lt hlt.1)
  · obtain ⟨hopen, _, h', -⟩ := h.voted hv
    have hlt := Ballot.lt_of_not_closed hopen (blake3 (asBytes e.decision))
    rw [h.card] at hlt
    rw [hv.result, h.threshold]
    exact ⟨fun hge => ⟨hlt, le_antisymm (h'.length_le _ _) hge⟩, fun heq => heq.2.ge⟩

/-- A verified prompt stays verified. -/
theorem Refines.verified_calls (h : q.Refines b) {ph : Hash32} (hp : ph ∈ q.verified)
    (cs : List QuorumCall) : ph ∈ (q.calls blake3 cs).verified := by
  obtain ⟨b', h', hsub⟩ := h.calls blake3 cs
  exact (h'.verified ph).mpr (((h.verified ph).mp hp).mono (hsub ph))

/-- The vote for which `observe` returns true verifies the prompt. -/
theorem verified_of_observe {o : Hash32} {e : AiEvidence} (h : (q.observe blake3 o e).2 = true) :
    blake3 (asBytes e.prompt) ∈ (q.observe blake3 o e).1.verified := by
  rcases observe_cases blake3 q o e with ⟨hr, -⟩ | hv
  · exact absurd (hr.symm.trans h) (by simp)
  · exact (hv.verified _).mpr (Or.inr ⟨h, rfl⟩)

end Refines

theorem isVerified_iff {p : String} :
    q.isVerified blake3 p = true ↔ blake3 (asBytes p) ∈ q.verified :=
  decide_eq_true_iff

/-- A prompt is verified if and only if some decision has reached the threshold. -/
theorem isVerified_calls_iff (ht : 1 ≤ t) (cs : List QuorumCall) (p : String) :
    ((new t).calls blake3 cs).isVerified blake3 p = true ↔
      ∃ d, t ≤ ((new t).calls blake3 cs).getSupportCount blake3 p d := by
  obtain ⟨b, hb⟩ := exists_refines_calls ht blake3 cs
  simp only [isVerified_iff, hb.verified, getSupportCount_eq, ← hb.card]
  constructor
  · rintro ⟨dh, hdh⟩
    obtain ⟨o, ho⟩ : ((b (blake3 (asBytes p))).voters dh).Nonempty :=
      Finset.card_pos.mp (ht.trans_eq hdh.symm)
    rw [hb.voters, List.mem_toFinset] at ho
    obtain ⟨e, -, -, rfl⟩ := mem_votersFor_calls ho
    exact ⟨e.decision, hdh.ge⟩
  · rintro ⟨d, hd⟩
    exact ⟨_, le_antisymm ((b _).bounded _) hd⟩

/-- After any calls on a new manager, where BLAKE3 has no collision among the texts `S`: no voter supports
two decisions of a prompt; `observe` returns true if and only if its vote brings the decision to the
threshold, and after it has returned true for a prompt it never does so again; no two decisions of a
prompt ever reach the threshold; and a prompt is verified if and only if some decision has reached it. -/
theorem local_quorum_safety {blake3 : List Byte → Hash32} {t : ℕ} (ht : 1 ≤ t) {S : Set String}
    (hinj : Set.InjOn (fun s => blake3 (asBytes s)) S) (cs : List QuorumCall) :
    (∀ p, ∀ d ∈ S, ∀ d' ∈ S, d ≠ d' → List.Disjoint
      (((new t).calls blake3 cs).votersFor (blake3 (asBytes p)) (blake3 (asBytes d)))
      (((new t).calls blake3 cs).votersFor (blake3 (asBytes p)) (blake3 (asBytes d')))) ∧
    (∀ o e, (((new t).calls blake3 cs).observe blake3 o e).2 = true ↔
      ((new t).calls blake3 cs).getSupportCount blake3 e.prompt e.decision < t ∧
      ((new t).calls blake3 (cs ++ [.observe o e])).getSupportCount blake3 e.prompt e.decision = t) ∧
    (∀ o e, (((new t).calls blake3 cs).observe blake3 o e).2 = true →
      ∀ ds o' e', e'.prompt = e.prompt →
        (((new t).calls blake3 (cs ++ .observe o e :: ds)).observe blake3 o' e').2 = false) ∧
    (∀ p, ∀ d ∈ S, ∀ d' ∈ S, ∀ ds, t ≤ ((new t).calls blake3 cs).getSupportCount blake3 p d →
      t ≤ ((new t).calls blake3 (cs ++ ds)).getSupportCount blake3 p d' → d = d') ∧
    ∀ p, ((new t).calls blake3 cs).isVerified blake3 p = true ↔
      ∃ d, t ≤ ((new t).calls blake3 cs).getSupportCount blake3 p d := by
  refine ⟨?_, ?_, ?_, ?_, isVerified_calls_iff ht cs⟩
  all_goals obtain ⟨b, hb⟩ := exists_refines_calls ht blake3 cs
  · intro p d hd d' hd' hne
    have hdisj := (b (blake3 (asBytes p))).disjoint fun h => hne (hinj hd hd' h)
    rw [hb.voters, hb.voters, List.disjoint_toFinset_iff_disjoint] at hdisj
    exact hdisj
  · intro o e
    rw [calls_append]
    exact hb.observe_true_iff o e
  · intro o e ho ds o' e' hp
    obtain ⟨b₁, hb₁, -⟩ := hb.call blake3 (.observe o e)
    rw [calls_append]
    exact observe_of_verified (hp ▸ hb₁.verified_calls (verified_of_observe ho) ds)
  · intro p d hd d' hd' ds h h'
    obtain ⟨b', hb', hsub⟩ := hb.calls blake3 ds
    rw [← calls_append] at hb'
    rw [getSupportCount_eq, ← hb.card] at h
    rw [getSupportCount_eq, ← hb'.card] at h'
    exact hinj hd hd' (Ballot.decides_of_subset (hsub _) (fun _ => Finset.Subset.refl _) h h')

/-- One vote of each of two origins, with threshold 2. -/
theorem local_quorum_safety_two_votes :
    ∃ (blake3 : List Byte → Hash32) (o o' : Hash32) (e : AiEvidence), o ≠ o' ∧
      ((new 2).calls blake3 [.observe o e, .observe o' e]).isVerified blake3 e.prompt = true ∧
      (((new 2).calls blake3 [.observe o e, .observe o' e]).observe blake3 o' e).2 = false ∧
      ∀ d, 2 ≤ ((new 2).calls blake3 [.observe o e, .observe o' e]).getSupportCount blake3
        e.prompt d → d ∈ ["deny", "allow"] → d = "allow" := by
  let firstByte : List Byte → Hash32 := fun b => ⟨b.headD 0 :: List.replicate 31 0, by simp⟩
  let o : Hash32 := zeros 32
  let o' : Hash32 := ⟨1 :: List.replicate 31 0, by simp⟩
  let e : AiEvidence := ⟨"scan", "allow", zeros 32, 0⟩
  have hinj : Set.InjOn (fun s => firstByte (asBytes s)) {s | s ∈ ["deny", "allow"]} := by
    intro s hs s' hs' h
    simp only [Set.mem_ofPred_eq, List.mem_cons, List.not_mem_nil, or_false] at hs hs'
    rcases hs with rfl | rfl <;> rcases hs' with rfl | rfl
    · rfl
    · exact absurd h (by decide)
    · exact absurd h (by decide)
    · rfl
  obtain ⟨-, -, honce, -, -⟩ := local_quorum_safety (t := 2) (by decide) hinj [.observe o e]
  obtain ⟨-, -, -, hone, hver⟩ :=
    local_quorum_safety (t := 2) (by decide) hinj [.observe o e, .observe o' e]
  refine ⟨firstByte, o, o', e, by decide, (hver _).mpr ⟨"allow", by decide +kernel⟩,
    honce o' e (by decide +kernel) [] o' e rfl, fun d hd hmem => ?_⟩
  exact hone "scan" d hmem "allow" (by decide) [] hd (by decide +kernel)

end QuorumManager

end Aimp.Crdt
