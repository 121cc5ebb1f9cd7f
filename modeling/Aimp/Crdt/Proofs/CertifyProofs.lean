import Aimp.Crdt.Proofs.AgreementProofs
import Aimp.Lib.Run

/-!
# What a quorum certifies

Votes are counted by prompt and decision. The hash of the engine that has decided is part of the evidence
and not of the vote, so votes from different engines add up.
-/

namespace Aimp.Crdt

variable {blake3 : List Byte → Hash32} {t : ℕ} {q : QuorumManager} {votes : List (Hash32 × AiEvidence)}
  {c : QuorumCall} {ph dh : Hash32}

/-- The evidence is about this prompt and reaches this decision. -/
def AiEvidence.isFor (blake3 : List Byte → Hash32) (ph dh : Hash32) (e : AiEvidence) : Bool :=
  blake3 (asBytes e.prompt) = ph ∧ blake3 (asBytes e.decision) = dh

theorem AiEvidence.isFor_iff {e : AiEvidence} : e.isFor blake3 ph dh = true ↔
    blake3 (asBytes e.prompt) = ph ∧ blake3 (asBytes e.decision) = dh :=
  decide_eq_true_iff

namespace QuorumManager

/-- The vote that a call adds to the voters for its decision. -/
def newVotes (blake3 : List Byte → Hash32) (q : QuorumManager) :
    QuorumCall → List (Hash32 × AiEvidence)
  | .observe o e =>
    let ph := blake3 (asBytes e.prompt)
    let dh := blake3 (asBytes e.decision)
    if o ∉ q.votersFor ph dh ∧ o ∈ (q.observe blake3 o e).1.votersFor ph dh then [(o, e)] else []
  | .checkEquivocation _ _ => []

/-- One call, together with the votes that have been recorded. -/
def record (blake3 : List Byte → Hash32) (s : List (Hash32 × AiEvidence) × QuorumManager)
    (c : QuorumCall) : List (Hash32 × AiEvidence) × QuorumManager :=
  (s.1 ++ s.2.newVotes blake3 c, s.2.call blake3 c)

/-- At least `t` origins have voted for one decision of the prompt with one model hash. -/
def Certified (blake3 : List Byte → Hash32) (t : ℕ) (votes : List (Hash32 × AiEvidence)) (ph : Hash32) :
    Prop :=
  ∃ (dh m : Hash32) (V : List Hash32), V.Nodup ∧ t ≤ V.length ∧
    ∀ o ∈ V, ∃ e, (o, e) ∈ votes ∧ e.isFor blake3 ph dh = true ∧ e.modelHash = m

/-- Every verified prompt is certified. -/
def CertifiesVerified (blake3 : List Byte → Hash32) (s : List (Hash32 × AiEvidence) × QuorumManager) :
    Prop :=
  ∀ ph ∈ s.2.verified, Certified blake3 s.2.threshold s.1 ph

/-- A vote that brings its decision to the threshold has the model hash of the votes that are recorded
for this decision. -/
def OneModel (blake3 : List Byte → Hash32) (s : List (Hash32 × AiEvidence) × QuorumManager) :
    QuorumCall → Prop
  | .observe o e =>
    s.2.Admissible (blake3 (asBytes e.prompt)) o →
    s.2.threshold ≤ (s.2.votersFor (blake3 (asBytes e.prompt)) (blake3 (asBytes e.decision))).length + 1 →
    ∀ v ∈ s.1, v.2.isFor blake3 (blake3 (asBytes e.prompt)) (blake3 (asBytes e.decision)) = true →
      v.2.modelHash = e.modelHash
  | .checkEquivocation _ _ => True

/-! ## The recorded votes -/

/-- The recorded votes are those of the voters; as long as a prompt is not verified, every decision lacks
votes. -/
structure Records (blake3 : List Byte → Hash32) (t : ℕ) (votes : List (Hash32 × AiEvidence))
    (q : QuorumManager) : Prop where
  threshold : q.threshold = t
  nodup : ∀ ph dh, (q.votersFor ph dh).Nodup
  perm : ∀ ph dh, ((votes.filter fun v => v.2.isFor blake3 ph dh).map Prod.fst).Perm (q.votersFor ph dh)
  lacking : ∀ ph ∉ q.verified, ∀ dh, q.votersFor ph dh = [] ∨ (q.votersFor ph dh).length < t

theorem records_new (t : ℕ) : Records blake3 t [] (new t) where
  threshold := rfl
  nodup _ _ := List.nodup_nil
  perm _ _ := .refl _
  lacking _ _ _ := .inl rfl

/-- Two recorded votes of one origin on one decision are the same. -/
theorem Records.vote_unique (h : Records blake3 t votes q) {v v' : Hash32 × AiEvidence}
    (hv : v ∈ votes) (hv' : v' ∈ votes) (hfor : v.2.isFor blake3 ph dh = true)
    (hfor' : v'.2.isFor blake3 ph dh = true) (ho : v.1 = v'.1) : v = v' :=
  List.inj_on_of_nodup_map ((h.perm ph dh).nodup_iff.mpr (h.nodup ph dh))
    (List.mem_filter.mpr ⟨hv, hfor⟩) (List.mem_filter.mpr ⟨hv', hfor'⟩) ho

theorem Records.mem_votersFor (h : Records blake3 t votes q) {o : Hash32} :
    o ∈ q.votersFor ph dh ↔ ∃ e, (o, e) ∈ votes ∧ e.isFor blake3 ph dh = true := by
  rw [← (h.perm ph dh).mem_iff]
  simp [List.mem_map, List.mem_filter]

theorem Records.sameVotes {q' : QuorumManager} (h : Records blake3 t votes q) (hs : q.SameVotes q') :
    Records blake3 t votes q' where
  threshold := hs.threshold.trans h.threshold
  nodup ph dh := by rw [hs.voters]; exact h.nodup ph dh
  perm ph dh := by rw [hs.voters]; exact h.perm ph dh
  lacking ph hph dh := by
    rw [hs.voters]
    rw [hs.verified] at hph
    exact h.lacking ph hph dh

/-- A call records a vote, or changes neither the votes nor what is verified. -/
theorem record_cases (blake3 : List Byte → Hash32) (votes : List (Hash32 × AiEvidence))
    (q : QuorumManager) (c : QuorumCall) :
    (∃ q', record blake3 (votes, q) c = (votes, q') ∧ q.SameVotes q' ∧
      ∀ o e, c = .observe o e → ¬ q.Admissible (blake3 (asBytes e.prompt)) o) ∨
    ∃ o e q' r, c = .observe o e ∧ record blake3 (votes, q) c = (votes ++ [(o, e)], q') ∧
      q.Admissible (blake3 (asBytes e.prompt)) o ∧
      q.Voted (blake3 (asBytes e.prompt)) (blake3 (asBytes e.decision)) o q' r := by
  cases c with
  | checkEquivocation node nodeHash =>
    left
    refine ⟨(q.checkEquivocation node nodeHash).1, ?_, checkEquivocation_sameVotes q node nodeHash, ?_⟩
    · simp [record, newVotes, call]
    · exact fun _ _ h => QuorumCall.noConfusion h
  | observe o e =>
    have hiff := fun hnew => mem_votersFor_observe blake3 (q := q) (o := o) (e := e) rfl rfl hnew
    rcases observe_cases blake3 q o e with ⟨-, hs⟩ | hv
    · left
      have hsame := hs.voters (blake3 (asBytes e.prompt)) (blake3 (asBytes e.decision))
      refine ⟨(q.observe blake3 o e).1, ?_, hs, ?_⟩
      · simp [record, newVotes, call, hsame]
      · intro o' e' heq hadm
        obtain ⟨rfl, rfl⟩ := QuorumCall.observe.inj heq
        have hnew := hadm.fresh (blake3 (asBytes e.decision))
        exact hnew (hsame ▸ (hiff hnew).mpr hadm)
    · right
      have hnew := hv.fresh (blake3 (asBytes e.decision))
      have hmem : o ∈ (q.observe blake3 o e).1.votersFor (blake3 (asBytes e.prompt))
          (blake3 (asBytes e.decision)) := by
        rw [hv.voters, if_pos ⟨rfl, rfl⟩]
        exact List.mem_insert_self
      refine ⟨o, e, _, _, rfl, ?_, (hiff hnew).mp hmem, hv⟩
      simp [record, newVotes, call, hnew, hmem]

theorem Records.voted {o : Hash32} {e : AiEvidence} {q' : QuorumManager} {r : Bool}
    (h : Records blake3 t votes q)
    (hv : q.Voted (blake3 (asBytes e.prompt)) (blake3 (asBytes e.decision)) o q' r) :
    Records blake3 t (votes ++ [(o, e)]) q' where
  threshold := hv.threshold.trans h.threshold
  nodup ph dh := by
    rw [hv.voters]
    split
    · exact (h.nodup _ _).insert
    · exact h.nodup ph dh
  perm ph dh := by
    rw [List.filter_append, List.map_append, hv.voters]
    split
    · rename_i heq
      obtain ⟨rfl, rfl⟩ := heq
      have hfor : e.isFor blake3 (blake3 (asBytes e.prompt)) (blake3 (asBytes e.decision)) = true :=
        AiEvidence.isFor_iff.mpr ⟨rfl, rfl⟩
      rw [List.insert_of_not_mem (hv.fresh _)]
      simp only [List.filter_cons, hfor, if_pos, List.filter_nil, List.map_cons, List.map_nil]
      exact (List.perm_append_singleton o _).trans ((h.perm _ _).cons o)
    · rename_i hne
      have hfor : e.isFor blake3 ph dh = false := by
        rw [Bool.eq_false_iff]
        intro hfor
        obtain ⟨rfl, rfl⟩ := AiEvidence.isFor_iff.mp hfor
        exact hne ⟨rfl, rfl⟩
      simp only [List.filter_cons, hfor, List.filter_nil, List.map_nil, List.append_nil,
        Bool.false_eq_true, if_false]
      exact h.perm ph dh
  lacking ph hph dh := by
    have hold : ph ∉ q.verified := fun hmem => hph ((hv.verified ph).mpr (.inl hmem))
    rw [hv.voters]
    split
    · rename_i heq
      obtain ⟨rfl, rfl⟩ := heq
      have hr : ¬ r = true := fun hr => hph ((hv.verified _).mpr (.inr ⟨hr, rfl⟩))
      right
      rw [hv.result, hv.voters, if_pos ⟨rfl, rfl⟩, h.threshold] at hr
      omega
    · exact h.lacking ph hold dh

/-- One call keeps the records. -/
theorem Records.record (h : Records blake3 t votes q) (c : QuorumCall) :
    Records blake3 t (record blake3 (votes, q) c).1 (record blake3 (votes, q) c).2 := by
  rcases record_cases blake3 votes q c with ⟨q', heq, hs, -⟩ | ⟨o, e, q', r, -, heq, -, hv⟩
  · rw [heq]
    exact h.sameVotes hs
  · rw [heq]
    exact h.voted hv

/-! ## One call -/

theorem Certified.mono {votes' : List (Hash32 × AiEvidence)} (h : Certified blake3 t votes ph)
    (hsub : ∀ v ∈ votes, v ∈ votes') : Certified blake3 t votes' ph := by
  obtain ⟨dh, m, V, hnd, hlen, hV⟩ := h
  refine ⟨dh, m, V, hnd, hlen, ?_⟩
  intro o ho
  obtain ⟨e, he, hfor⟩ := hV o ho
  exact ⟨e, hsub _ he, hfor⟩

/-- The voters for a decision, if their votes carry one model hash. -/
theorem Records.certified (h : Records blake3 t votes q) (hlen : t ≤ (q.votersFor ph dh).length)
    {m : Hash32} (hm : ∀ v ∈ votes, v.2.isFor blake3 ph dh = true → v.2.modelHash = m) :
    Certified blake3 t votes ph := by
  refine ⟨dh, m, q.votersFor ph dh, h.nodup ph dh, hlen, ?_⟩
  intro o ho
  obtain ⟨e, he, hfor⟩ := h.mem_votersFor.mp ho
  exact ⟨e, he, hfor, hm _ he hfor⟩

/-- A prompt is certified only if all votes for one decision carry one model hash, when this is the only
decision with enough votes and has no vote to spare. -/
theorem Records.one_model (h : Records blake3 t votes q) (hcert : Certified blake3 t votes ph)
    (hother : ∀ dh' ≠ dh, (q.votersFor ph dh').length < t) (hlen : (q.votersFor ph dh).length ≤ t)
    {v v' : Hash32 × AiEvidence} (hv : v ∈ votes) (hv' : v' ∈ votes)
    (hfor : v.2.isFor blake3 ph dh = true) (hfor' : v'.2.isFor blake3 ph dh = true) :
    v.2.modelHash = v'.2.modelHash := by
  obtain ⟨dh', m, V, hnd, hVlen, hV⟩ := hcert
  have hsub : V ⊆ q.votersFor ph dh' := by
    intro o ho
    obtain ⟨e, he, hefor, -⟩ := hV o ho
    exact h.mem_votersFor.mpr ⟨e, he, hefor⟩
  have hle := (hnd.subperm hsub).length_le
  obtain rfl : dh' = dh := by
    by_contra hne
    have := hother dh' hne
    omega
  -- every voter is among the certifying ones
  have hall : ∀ w ∈ votes, w.2.isFor blake3 ph dh' = true → w.2.modelHash = m := by
    intro w hw hwfor
    have hperm := (hnd.subperm hsub).perm_of_length_le (by omega)
    obtain ⟨e, he, hefor, hem⟩ :=
      hV w.1 (hperm.mem_iff.mpr (h.mem_votersFor.mpr ⟨w.2, hw, hwfor⟩))
    have heq := h.vote_unique hw he hwfor hefor rfl
    exact (congrArg (fun x => x.2.modelHash) heq).trans hem
  rw [hall v hv hfor, hall v' hv' hfor']

theorem Voted.length {o : Hash32} {r : Bool} {q' : QuorumManager} (hv : q.Voted ph dh o q' r) :
    (q'.votersFor ph dh).length = (q.votersFor ph dh).length + 1 := by
  rw [hv.voters, if_pos ⟨rfl, rfl⟩, List.insert_of_not_mem (hv.fresh dh), List.length_cons]

/-- A vote that completes the threshold, and is certified with the others, has their model hash. -/
theorem Records.oneModel {o : Hash32} {e : AiEvidence} {q' : QuorumManager} {r : Bool}
    (h : Records blake3 t votes q)
    (hv : q.Voted (blake3 (asBytes e.prompt)) (blake3 (asBytes e.decision)) o q' r)
    (hcert : CertifiesVerified blake3 (votes ++ [(o, e)], q')) :
    OneModel blake3 (votes, q) (.observe o e) := by
  have hnext := h.voted hv
  have hlen := hv.length
  have hresult := hv.result
  rw [hlen] at hresult
  intro _ hle v hmem hvfor
  have hph := hcert _ ((hv.verified _).mpr (.inr ⟨hresult.mpr hle, rfl⟩))
  rw [show q'.threshold = t from hnext.threshold] at hph
  -- the decision has a vote already, so the threshold is not 0
  have hvoter := h.mem_votersFor.mpr ⟨v.2, hmem, hvfor⟩
  have hlack := fun dh => h.lacking _ hv.unverified dh
  have hlt : (q.votersFor (blake3 (asBytes e.prompt)) (blake3 (asBytes e.decision))).length < t :=
    (hlack _).resolve_left (List.ne_nil_of_mem hvoter)
  refine hnext.one_model hph ?_ (by omega) (List.mem_append_left _ hmem)
    (List.mem_append_right _ (List.mem_singleton_self (o, e))) hvfor (AiEvidence.isFor_iff.mpr ⟨rfl, rfl⟩)
  intro dh' hne
  rw [hv.voters, if_neg fun h => hne h.2]
  rcases hlack dh' with hnil | hlt'
  · rw [hnil]
    exact Nat.zero_lt_of_lt hlt
  · exact hlt'

/-- If the vote that completes the threshold has the model hash of the others, they certify the prompt. -/
theorem Records.certifies {o : Hash32} {e : AiEvidence} {q' : QuorumManager} {r : Bool}
    (h : Records blake3 t votes q) (hcert : CertifiesVerified blake3 (votes, q))
    (hadm : q.Admissible (blake3 (asBytes e.prompt)) o)
    (hv : q.Voted (blake3 (asBytes e.prompt)) (blake3 (asBytes e.decision)) o q' r)
    (hone : OneModel blake3 (votes, q) (.observe o e)) :
    CertifiesVerified blake3 (votes ++ [(o, e)], q') := by
  have hnext := h.voted hv
  have hresult := hv.result
  intro ph hph
  rw [show q'.threshold = t from hnext.threshold]
  rcases (hv.verified ph).mp hph with hph | ⟨hr, rfl⟩
  · exact (h.threshold ▸ hcert ph hph).mono fun v hmem => List.mem_append_left _ hmem
  · have hreached := hresult.mp hr
    have hle : q.threshold ≤
        (q.votersFor (blake3 (asBytes e.prompt)) (blake3 (asBytes e.decision))).length + 1 := by
      rw [← hv.length]
      exact hreached
    refine hnext.certified (h.threshold ▸ hreached) (m := e.modelHash) ?_
    intro v hmem hvfor
    rcases List.mem_append.mp hmem with hmem | hmem
    · exact hone hadm hle v hmem hvfor
    · rw [List.mem_singleton.mp hmem]

/-- A call keeps verified prompts certified if and only if it meets the condition. -/
theorem certifiesVerified_record (h : Records blake3 t votes q)
    (hcert : CertifiesVerified blake3 (votes, q)) (c : QuorumCall) :
    CertifiesVerified blake3 (record blake3 (votes, q) c) ↔ OneModel blake3 (votes, q) c := by
  rcases record_cases blake3 votes q c with ⟨q', heq, hs, hadm⟩ | ⟨o, e, q', r, rfl, heq, hadm, hv⟩
  · rw [heq]
    apply iff_of_true
    · intro ph hph
      rw [show q'.threshold = q.threshold from hs.threshold]
      rw [show q'.verified = q.verified from hs.verified] at hph
      exact hcert ph hph
    · cases c with
      | observe o e => exact fun h' => absurd h' (hadm o e rfl)
      | checkEquivocation _ _ => trivial
  · rw [heq]
    exact ⟨h.oneModel hv, h.certifies hcert hadm hv⟩

/-! ## Runs -/

/-- The texts of the votes. -/
def voteTexts (votes : List (Hash32 × AiEvidence)) : Set String :=
  {s | ∃ v ∈ votes, s = v.2.prompt ∨ s = v.2.decision}

/-- Where BLAKE3 has no collision among the texts, the origins that certify a prompt have voted for the
same text. -/
theorem Certified.texts {p : String} (h : Certified blake3 t votes (blake3 (asBytes p)))
    (hinj : Set.InjOn (fun s => blake3 (asBytes s)) (insert p (voteTexts votes))) :
    ∃ (d : String) (m : Hash32) (V : List Hash32), V.Nodup ∧ t ≤ V.length ∧
      ∀ o ∈ V, ∃ e, (o, e) ∈ votes ∧ e.prompt = p ∧ e.decision = d ∧ e.modelHash = m := by
  obtain ⟨dh, m, V, hnd, hlen, hV⟩ := h
  have htext : ∀ v ∈ votes, v.2.prompt ∈ insert p (voteTexts votes) ∧
      v.2.decision ∈ insert p (voteTexts votes) :=
    fun v hv => ⟨.inr ⟨v, hv, .inl rfl⟩, .inr ⟨v, hv, .inr rfl⟩⟩
  rcases List.eq_nil_or_concat V with rfl | ⟨W, o, rfl⟩
  · exact ⟨p, m, [], .nil, hlen, by simp⟩
  · obtain ⟨e, he, hfor, hm⟩ := hV o (by simp)
    refine ⟨e.decision, m, _, hnd, hlen, ?_⟩
    intro o' ho'
    obtain ⟨e', he', hfor', hm'⟩ := hV o' ho'
    obtain ⟨hp, hd⟩ := AiEvidence.isFor_iff.mp hfor
    obtain ⟨hp', hd'⟩ := AiEvidence.isFor_iff.mp hfor'
    refine ⟨e', he', ?_, ?_, hm'⟩
    · exact hinj (htext _ he').1 (.inl rfl) hp'
    · exact hinj (htext _ he').2 (htext _ he).2 (hd'.trans hd.symm)

/-- If every vote that brings its decision to the threshold has the model hash of the earlier ones, then
a verified prompt has `t` origins that voted for one decision with one model hash; and the first vote
that has not breaks this. -/
theorem quorum_certifies {cs : List QuorumCall}
    (hrun : Run (fun s c s' => record blake3 s c = s' ∧ OneModel blake3 s c) ([], new t) cs (votes, q)) :
    (∀ p, q.isVerified blake3 p = true →
      Set.InjOn (fun s => blake3 (asBytes s)) (insert p (voteTexts votes)) →
      ∃ (d : String) (m : Hash32) (V : List Hash32), V.Nodup ∧ t ≤ V.length ∧
        ∀ o ∈ V, ∃ e, (o, e) ∈ votes ∧ e.prompt = p ∧ e.decision = d ∧ e.modelHash = m) ∧
    ∀ c, CertifiesVerified blake3 (record blake3 (votes, q) c) ↔ OneModel blake3 (votes, q) c := by
  obtain ⟨hrec, hcert⟩ : Records blake3 t votes q ∧ CertifiesVerified blake3 (votes, q) := by
    refine hrun.invariant (P := fun s => Records blake3 t s.1 s.2 ∧ CertifiesVerified blake3 s) ?_ ?_
    · exact ⟨records_new t, fun ph hph => absurd hph List.not_mem_nil⟩
    · rintro ⟨votes, q⟩ c s' ⟨hrec, hcert⟩ ⟨rfl, hone⟩
      exact ⟨hrec.record c, (certifiesVerified_record hrec hcert c).mpr hone⟩
  refine ⟨?_, certifiesVerified_record hrec hcert⟩
  intro p hp hinj
  have hph := hcert _ (isVerified_iff.mp hp)
  rw [show (votes, q).2.threshold = t from hrec.threshold] at hph
  exact hph.texts hinj

/-! ### Two origins and threshold 2 -/

/-- The BLAKE3 digests of "scan" and "allow". -/
def sampleBlake3 (b : List Byte) : Hash32 :=
  if b = asBytes "scan" then
    ⟨[146, 225, 156, 27, 239, 53, 103, 164, 152, 75, 241, 237, 27, 51, 156, 201, 159, 206, 215, 244,
      117, 226, 197, 200, 60, 237, 165, 245, 129, 71, 118, 204], rfl⟩
  else if b = asBytes "allow" then
    ⟨[181, 27, 103, 249, 115, 75, 214, 242, 34, 46, 54, 32, 100, 145, 143, 99, 78, 175, 215, 143, 251,
      55, 153, 43, 26, 11, 150, 85, 69, 62, 111, 185], rfl⟩
  else zeros 32

/-- The origin `o` allows the scan by an engine with the given hash. -/
def engineVote (o model : Byte) : Hash32 × AiEvidence :=
  (⟨o :: List.replicate 31 0, length_leading o⟩,
    ⟨"scan", "allow", ⟨model :: List.replicate 31 0, length_leading model⟩, 0⟩)

def engineCalls (votes : List (Hash32 × AiEvidence)) : List QuorumCall :=
  votes.map fun v => .observe v.1 v.2

theorem injOn_engineVotes {o o' m m' : Byte} : Set.InjOn (fun s => sampleBlake3 (asBytes s))
    (insert "scan" (voteTexts [engineVote o m, engineVote o' m'])) := by
  have htexts : ∀ s ∈ insert "scan" (voteTexts [engineVote o m, engineVote o' m']),
      s = "scan" ∨ s = "allow" := by
    rintro s (rfl | ⟨v, hv, hs⟩)
    · exact .inl rfl
    · simp only [List.mem_cons, List.not_mem_nil, or_false] at hv
      rcases hv with rfl | rfl
      · exact hs
      · exact hs
  intro s hs s' hs' h
  rcases htexts s hs with rfl | rfl <;> rcases htexts s' hs' with rfl | rfl
  all_goals first | rfl | exact absurd h (by decide +kernel)

/-- Two votes, one after the other. -/
def twoVotes (v w : Hash32 × AiEvidence) : List (Hash32 × AiEvidence) × QuorumManager :=
  record sampleBlake3 (record sampleBlake3 ([], new 2) (.observe v.1 v.2)) (.observe w.1 w.2)

/-- Two origins with one engine. -/
theorem quorum_certifies_two_origins :
    (twoVotes (engineVote 1 7) (engineVote 2 7)).2.isVerified sampleBlake3 "scan" = true ∧
      ∃ (d : String) (m : Hash32) (V : List Hash32), V.Nodup ∧ 2 ≤ V.length ∧
        ∀ o ∈ V, ∃ e, (o, e) ∈ [engineVote 1 7, engineVote 2 7] ∧ e.prompt = "scan" ∧
          e.decision = d ∧ e.modelHash = m := by
  have hfirst : (record sampleBlake3 ([], new 2) (.observe (engineVote 1 7).1 (engineVote 1 7).2)).1 =
      [engineVote 1 7] := by
    decide +kernel
  have hvotes : (twoVotes (engineVote 1 7) (engineVote 2 7)).1 = [engineVote 1 7, engineVote 2 7] := by
    decide +kernel
  have hverified : (twoVotes (engineVote 1 7) (engineVote 2 7)).2.isVerified sampleBlake3 "scan" = true := by
    decide +kernel
  have hrun : Run (fun s c s' => record sampleBlake3 s c = s' ∧ OneModel sampleBlake3 s c) ([], new 2)
      (engineCalls [engineVote 1 7, engineVote 2 7])
      ([engineVote 1 7, engineVote 2 7], (twoVotes (engineVote 1 7) (engineVote 2 7)).2) := by
    rw [← hvotes]
    show Run _ _ ([] ++ [QuorumCall.observe (engineVote 1 7).1 (engineVote 1 7).2] ++
      [QuorumCall.observe (engineVote 2 7).1 (engineVote 2 7).2]) _
    refine .snoc (.snoc .nil ⟨rfl, ?_⟩) ⟨rfl, ?_⟩
    · exact fun _ _ v hv => absurd hv List.not_mem_nil
    · intro _ _ v hv _
      rw [hfirst] at hv
      rw [List.mem_singleton.mp hv]
      rfl
  exact ⟨hverified, (quorum_certifies hrun).1 "scan" hverified injOn_engineVotes⟩

/-- Two origins with different engines verify the prompt. -/
theorem mixed_engines_verified :
    (twoVotes (engineVote 1 7) (engineVote 2 8)).2.isVerified sampleBlake3 "scan" = true ∧
      Set.InjOn (fun s => sampleBlake3 (asBytes s))
        (insert "scan" (voteTexts (twoVotes (engineVote 1 7) (engineVote 2 8)).1)) ∧
      ¬ ∃ (d : String) (m : Hash32) (V : List Hash32), V.Nodup ∧ 2 ≤ V.length ∧
        ∀ o ∈ V, ∃ e, (o, e) ∈ (twoVotes (engineVote 1 7) (engineVote 2 8)).1 ∧ e.prompt = "scan" ∧
          e.decision = d ∧ e.modelHash = m := by
  have hvotes : (twoVotes (engineVote 1 7) (engineVote 2 8)).1 = [engineVote 1 7, engineVote 2 8] := by
    decide +kernel
  rw [hvotes]
  refine ⟨by decide +kernel, injOn_engineVotes, ?_⟩
  rintro ⟨d, m, V, hnd, hlen, hV⟩
  -- only one of the two origins has voted with the model hash
  have hone : ∃ o, ∀ o' ∈ V, o' = o := by
    by_cases hm : (engineVote 1 7).2.modelHash = m
    · refine ⟨(engineVote 1 7).1, fun o' ho' => ?_⟩
      obtain ⟨e, he, -, -, hem⟩ := hV o' ho'
      simp only [List.mem_cons, List.not_mem_nil, or_false] at he
      rcases he with he | he
      · exact congrArg Prod.fst he
      · rw [show e = (engineVote 2 8).2 from congrArg Prod.snd he, ← hm] at hem
        exact absurd hem (by decide)
    · refine ⟨(engineVote 2 8).1, fun o' ho' => ?_⟩
      obtain ⟨e, he, -, -, hem⟩ := hV o' ho'
      simp only [List.mem_cons, List.not_mem_nil, or_false] at he
      rcases he with he | he
      · exact absurd (congrArg Prod.snd he ▸ hem) hm
      · exact congrArg Prod.fst he
  obtain ⟨o, ho⟩ := hone
  have hsub : V ⊆ [o] := fun o' ho' => List.mem_singleton.mpr (ho o' ho')
  have hle := (hnd.subperm hsub).length_le
  rw [List.length_singleton] at hle
  omega

end QuorumManager

end Aimp.Crdt
