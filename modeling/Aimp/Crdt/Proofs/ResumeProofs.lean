import Aimp.Crdt.Proofs.EquivocationProofs

/-!
# Quorum managers that resume

A session starts with a new manager and restores what the session before had verified. Over all sessions
a prompt is reported as verified at most once. The votes and the deny list are not restored, so a restored
prompt has no support, and an origin that was denied can vote again on the others.
-/

namespace Aimp.Crdt.QuorumManager

variable {blake3 : List Byte → Hash32} {q q₀ : QuorumManager} {t : ℕ} {saved : List Hash32} {ph : Hash32}

/-! ## Reports -/

/-- How often a call reports that the prompt has reached quorum. -/
def callReports (blake3 : List Byte → Hash32) (ph : Hash32) (q : QuorumManager) : QuorumCall → ℕ
  | .observe origin evidence =>
    if blake3 (asBytes evidence.prompt) = ph ∧ (q.observe blake3 origin evidence).2 = true then 1 else 0
  | .checkEquivocation _ _ => 0

/-- How often calls report that the prompt has reached quorum. -/
def reports (blake3 : List Byte → Hash32) (ph : Hash32) : QuorumManager → List QuorumCall → ℕ
  | _, [] => 0
  | q, c :: cs => q.callReports blake3 ph c + reports blake3 ph (q.call blake3 c) cs

/-- Whether the prompt is verified, as a number. -/
def verifiedCount (verified : List Hash32) (ph : Hash32) : ℕ := if ph ∈ verified then 1 else 0

theorem callReports_add (blake3 : List Byte → Hash32) (ph : Hash32) (q : QuorumManager)
    (c : QuorumCall) : q.callReports blake3 ph c + verifiedCount q.verified ph =
    verifiedCount (q.call blake3 c).verified ph := by
  cases c with
  | observe o e =>
    show (if _ then 1 else 0) + _ = verifiedCount (q.observe blake3 o e).1.verified ph
    rcases observe_cases blake3 q o e with ⟨hr, hs⟩ | hv
    · rw [hs.verified, hr, if_neg (by simp)]
      omega
    · have hverified := hv.verified ph
      have hunverified := hv.unverified
      unfold verifiedCount
      by_cases hp : blake3 (asBytes e.prompt) = ph
      · subst hp
        simp only [hverified, hunverified, true_and, and_true, false_or, if_false, Nat.add_zero]
      · simp only [hverified, hp, Ne.symm hp, false_and, and_false, or_false, if_false, Nat.zero_add]
  | checkEquivocation n h =>
    show 0 + _ = verifiedCount (q.checkEquivocation n h).1.verified ph
    rw [(checkEquivocation_sameVotes q n h).verified, Nat.zero_add]

/-- Calls report a prompt once if they verify it, and never otherwise. -/
theorem reports_add (blake3 : List Byte → Hash32) (ph : Hash32) (q : QuorumManager)
    (cs : List QuorumCall) : q.reports blake3 ph cs + verifiedCount q.verified ph =
    verifiedCount (q.calls blake3 cs).verified ph := by
  induction cs generalizing q with
  | nil => exact Nat.zero_add _
  | cons c cs ih =>
    have hc := callReports_add blake3 ph q c
    have hcs := ih (q.call blake3 c)
    show q.callReports blake3 ph c + reports blake3 ph (q.call blake3 c) cs + _ =
      verifiedCount ((q.call blake3 c).calls blake3 cs).verified ph
    omega

/-! ## Sessions -/

/-- A session: a new manager that restores the prompts verified before, and the calls made on it. -/
def session (blake3 : List Byte → Hash32) (t : ℕ) (saved : List Hash32) (cs : List QuorumCall) :
    QuorumManager :=
  ((new t).restoreVerified saved).calls blake3 cs

/-- What is verified after the sessions, each of which restores what the one before has verified. -/
def savedAfter (blake3 : List Byte → Hash32) (t : ℕ) (saved : List Hash32)
    (sessions : List (List QuorumCall)) : List Hash32 :=
  sessions.foldl (fun saved cs => (session blake3 t saved cs).verifiedHashes) saved

/-- How often the sessions report that the prompt has reached quorum. -/
def sessionReports (blake3 : List Byte → Hash32) (t : ℕ) (ph : Hash32) :
    List Hash32 → List (List QuorumCall) → ℕ
  | _, [] => 0
  | saved, cs :: sessions => ((new t).restoreVerified saved).reports blake3 ph cs +
      sessionReports blake3 t ph (session blake3 t saved cs).verifiedHashes sessions

theorem mem_verified_restoreVerified (q : QuorumManager) (hashes : List Hash32) :
    ph ∈ (q.restoreVerified hashes).verified ↔ ph ∈ hashes ∨ ph ∈ q.verified := by
  have hall : ∀ (l v : List Hash32), ph ∈ l.foldl (fun v h => v.insert h) v ↔ ph ∈ l ∨ ph ∈ v := by
    intro l
    induction l with
    | nil => simp
    | cons h l ih =>
      intro v
      rw [List.foldl_cons, ih, List.mem_insert_iff, List.mem_cons]
      tauto
  exact hall hashes q.verified

theorem mem_verified_new_restoreVerified (t : ℕ) (saved : List Hash32) :
    ph ∈ ((new t).restoreVerified saved).verified ↔ ph ∈ saved := by
  rw [mem_verified_restoreVerified]
  simp [new]

theorem sessionReports_add (blake3 : List Byte → Hash32) (t : ℕ) (ph : Hash32) (saved : List Hash32)
    (sessions : List (List QuorumCall)) :
    sessionReports blake3 t ph saved sessions + verifiedCount saved ph =
      verifiedCount (savedAfter blake3 t saved sessions) ph := by
  induction sessions generalizing saved with
  | nil => exact Nat.zero_add _
  | cons cs sessions ih =>
    have hcs := reports_add blake3 ph ((new t).restoreVerified saved) cs
    have hrest := ih (session blake3 t saved cs).verifiedHashes
    have hsaved : verifiedCount ((new t).restoreVerified saved).verified ph = verifiedCount saved ph := by
      unfold verifiedCount
      simp only [mem_verified_new_restoreVerified]
    show ((new t).restoreVerified saved).reports blake3 ph cs + sessionReports blake3 t ph _ sessions + _ =
      verifiedCount (savedAfter blake3 t (session blake3 t saved cs).verifiedHashes sessions) ph
    rw [hsaved] at hcs
    rw [← hrest, Nat.add_right_comm, hcs, Nat.add_comm]
    rfl

/-! ## A session and a manager that starts afresh -/

/-- An admissible vote is recorded. -/
theorem voted_of_admissible {o : Hash32} {e : AiEvidence}
    (h : q.Admissible (blake3 (asBytes e.prompt)) o) :
    q.Voted (blake3 (asBytes e.prompt)) (blake3 (asBytes e.decision)) o (q.observe blake3 o e).1
      (q.observe blake3 o e).2 := by
  rcases observe_cases blake3 q o e with ⟨-, hs⟩ | hv
  · have hmem := (mem_votersFor_observe blake3 rfl rfl (h.fresh (blake3 (asBytes e.decision)))).mpr h
    rw [hs.voters] at hmem
    exact absurd hmem (h.fresh _)
  · exact hv

/-- Any other vote is rejected. -/
theorem rejected_of_not_admissible {o : Hash32} {e : AiEvidence}
    (h : ¬ q.Admissible (blake3 (asBytes e.prompt)) o) :
    (q.observe blake3 o e).2 = false ∧ q.SameVotes (q.observe blake3 o e).1 := by
  rcases observe_cases blake3 q o e with hr | hv
  · exact hr
  · refine absurd ((mem_votersFor_observe blake3 rfl rfl (hv.fresh (blake3 (asBytes e.decision)))).mp ?_) h
    rw [hv.voters, if_pos ⟨rfl, rfl⟩]
    exact List.mem_insert_self

/-- `q` is the manager `q₀` with the prompts `saved` restored: these are verified and have no votes, the
others are as in `q₀`. -/
structure Resumed (saved : List Hash32) (q₀ q : QuorumManager) : Prop where
  threshold : q.threshold = q₀.threshold
  denied : q.denied = q₀.denied
  observedTicks : q.observedTicks = q₀.observedTicks
  restored : ∀ ph ∈ saved, ph ∈ q.verified ∧ ∀ dh, q.votersFor ph dh = []
  verified : ∀ ph, ph ∉ saved → (ph ∈ q.verified ↔ ph ∈ q₀.verified)
  voters : ∀ ph, ph ∉ saved → ∀ dh, q.votersFor ph dh = q₀.votersFor ph dh

theorem resumed_new (t : ℕ) (saved : List Hash32) :
    Resumed saved (new t) ((new t).restoreVerified saved) where
  threshold := rfl
  denied := rfl
  observedTicks := rfl
  restored _ hp := ⟨(mem_verified_new_restoreVerified t saved).mpr hp, fun _ => rfl⟩
  verified ph hp := by
    rw [mem_verified_new_restoreVerified]
    exact iff_of_false hp List.not_mem_nil
  voters _ _ _ := rfl

theorem Resumed.admissible_iff (h : Resumed saved q₀ q) (hp : ph ∉ saved) (o : Hash32) :
    q.Admissible ph o ↔ q₀.Admissible ph o := by
  have hverified := h.verified ph hp
  have hvoters := h.voters ph hp
  constructor
  · rintro ⟨hu, hd, hf⟩
    exact ⟨fun hv => hu (hverified.mpr hv), h.denied ▸ hd, fun dh => hvoters dh ▸ hf dh⟩
  · rintro ⟨hu, hd, hf⟩
    exact ⟨fun hv => hu (hverified.mp hv), h.denied ▸ hd, fun dh => hvoters dh ▸ hf dh⟩

/-- Equivocation is detected from what has been observed, and that alone. -/
theorem checkEntries_congr (d g : Hash32) (es : List (String × U64)) (hd : q.denied = q₀.denied)
    (ho : q.observedTicks = q₀.observedTicks) :
    (q.checkEntries d g es).1.denied = (q₀.checkEntries d g es).1.denied ∧
      (q.checkEntries d g es).1.observedTicks = (q₀.checkEntries d g es).1.observedTicks := by
  induction es generalizing q q₀ with
  | nil => exact ⟨hd, ho⟩
  | cons e es ih =>
    unfold checkEntries
    rw [hd, ho]
    split
    · exact ih hd ho
    · split
      · split
        · exact ⟨rfl, rfl⟩
        · exact ih hd ho
      · exact ih rfl rfl

theorem Resumed.checkEquivocation (h : Resumed saved q₀ q) (n : DagNode) (g : Hash32) :
    Resumed saved (q₀.checkEquivocation n g).1 (q.checkEquivocation n g).1 := by
  have hs := checkEquivocation_sameVotes q n g
  have hs₀ := checkEquivocation_sameVotes q₀ n g
  obtain ⟨hd, ho⟩ := checkEntries_congr n.dataHash g n.vclock.entries h.denied h.observedTicks
  refine ⟨?_, hd, ho, fun ph hp => ?_, fun ph hp => ?_, fun ph hp dh => ?_⟩
  · rw [hs.threshold, hs₀.threshold, h.threshold]
  · rw [hs.verified]
    exact ⟨(h.restored ph hp).1, fun dh => (hs.voters ph dh).trans ((h.restored ph hp).2 dh)⟩
  · rw [hs.verified, hs₀.verified]
    exact h.verified ph hp
  · rw [hs.voters, hs₀.voters, h.voters ph hp]

/-- A vote on a restored prompt is rejected, whatever the manager that starts afresh does with it. -/
theorem Resumed.observe_restored (h : Resumed saved q₀ q) {o : Hash32} {e : AiEvidence}
    (hp : blake3 (asBytes e.prompt) ∈ saved) :
    Resumed saved (q₀.observe blake3 o e).1 (q.observe blake3 o e).1 := by
  have hnot : ¬ q.Admissible (blake3 (asBytes e.prompt)) o :=
    fun ha => ha.unverified (h.restored _ hp).1
  obtain ⟨-, hs⟩ := rejected_of_not_admissible hnot
  obtain ⟨hd, ho⟩ := observe_frame blake3 q o e
  obtain ⟨hd₀, ho₀⟩ := observe_frame blake3 q₀ o e
  have hne : ∀ {ph}, ph ∉ saved → ph ≠ blake3 (asBytes e.prompt) := by
    rintro ph hph rfl
    exact hph hp
  have hother : (q₀.observe blake3 o e).1.threshold = q₀.threshold ∧ ∀ ph, ph ∉ saved →
      (ph ∈ (q₀.observe blake3 o e).1.verified ↔ ph ∈ q₀.verified) ∧
      ∀ dh, (q₀.observe blake3 o e).1.votersFor ph dh = q₀.votersFor ph dh := by
    rcases observe_cases blake3 q₀ o e with ⟨-, hs₀⟩ | hv
    · exact ⟨hs₀.threshold, fun ph _ => ⟨by rw [hs₀.verified], hs₀.voters ph⟩⟩
    · refine ⟨hv.threshold, fun ph hph => ⟨?_, fun dh => ?_⟩⟩
      · rw [hv.verified]
        simp [hne hph]
      · rw [hv.voters, if_neg fun hc => hne hph hc.1]
  refine ⟨?_, ?_, ?_, fun ph hph => ?_, fun ph hph => ?_, fun ph hph dh => ?_⟩
  · rw [hs.threshold, hother.1, h.threshold]
  · rw [hd, hd₀, h.denied]
  · rw [ho, ho₀, h.observedTicks]
  · rw [hs.verified]
    exact ⟨(h.restored ph hph).1, fun dh => (hs.voters ph dh).trans ((h.restored ph hph).2 dh)⟩
  · rw [hs.verified, (hother.2 ph hph).1]
    exact h.verified ph hph
  · rw [hs.voters, (hother.2 ph hph).2, h.voters ph hph]

/-- A vote on any other prompt is treated alike. -/
theorem Resumed.observe_open (h : Resumed saved q₀ q) {o : Hash32} {e : AiEvidence}
    (hp : blake3 (asBytes e.prompt) ∉ saved) :
    Resumed saved (q₀.observe blake3 o e).1 (q.observe blake3 o e).1 := by
  obtain ⟨hd, ho⟩ := observe_frame blake3 q o e
  obtain ⟨hd₀, ho₀⟩ := observe_frame blake3 q₀ o e
  have hdenied : (q.observe blake3 o e).1.denied = (q₀.observe blake3 o e).1.denied := by
    rw [hd, hd₀, h.denied]
  have hobserved : (q.observe blake3 o e).1.observedTicks = (q₀.observe blake3 o e).1.observedTicks := by
    rw [ho, ho₀, h.observedTicks]
  by_cases ha : q.Admissible (blake3 (asBytes e.prompt)) o
  · have hv := voted_of_admissible ha
    have hv₀ := voted_of_admissible ((h.admissible_iff hp o).mp ha)
    have hvoters : ∀ ph, ph ∉ saved → ∀ dh,
        (q.observe blake3 o e).1.votersFor ph dh = (q₀.observe blake3 o e).1.votersFor ph dh := by
      intro ph hph dh
      rw [hv.voters, hv₀.voters, h.voters ph hph, h.voters _ hp]
    have hresult : (q.observe blake3 o e).2 = true ↔ (q₀.observe blake3 o e).2 = true := by
      rw [hv.result, hv₀.result, hvoters _ hp, h.threshold]
    have hne : ∀ {ph}, ph ∈ saved → ph ≠ blake3 (asBytes e.prompt) := by
      rintro ph hph rfl
      exact hp hph
    refine ⟨?_, hdenied, hobserved, fun ph hph => ⟨?_, fun dh => ?_⟩, fun ph hph => ?_, hvoters⟩
    · rw [hv.threshold, hv₀.threshold, h.threshold]
    · exact (hv.verified ph).mpr (Or.inl (h.restored ph hph).1)
    · rw [hv.voters, if_neg fun hc => hne hph hc.1, (h.restored ph hph).2]
    · rw [hv.verified, hv₀.verified, h.verified ph hph, hresult]
  · obtain ⟨-, hs⟩ := rejected_of_not_admissible ha
    obtain ⟨-, hs₀⟩ := rejected_of_not_admissible fun ha₀ => ha ((h.admissible_iff hp o).mpr ha₀)
    refine ⟨?_, hdenied, hobserved, fun ph hph => ?_, fun ph hph => ?_, fun ph hph dh => ?_⟩
    · rw [hs.threshold, hs₀.threshold, h.threshold]
    · rw [hs.verified]
      exact ⟨(h.restored ph hph).1, fun dh => (hs.voters ph dh).trans ((h.restored ph hph).2 dh)⟩
    · rw [hs.verified, hs₀.verified, h.verified ph hph]
    · rw [hs.voters, hs₀.voters, h.voters ph hph]

theorem Resumed.calls (h : Resumed saved q₀ q) (cs : List QuorumCall) :
    Resumed saved (q₀.calls blake3 cs) (q.calls blake3 cs) := by
  induction cs generalizing q₀ q with
  | nil => exact h
  | cons c cs ih =>
    refine ih ?_
    cases c with
    | observe o e =>
      by_cases hp : blake3 (asBytes e.prompt) ∈ saved
      · exact h.observe_restored hp
      · exact h.observe_open hp
    | checkEquivocation n g => exact h.checkEquivocation n g

/-- After any sessions, each restoring what the one before has verified, and any calls in the next one:
every prompt has been reported as verified exactly once if it is verified, and never otherwise; the
restored prompts are verified without any support; the votes on the other prompts, the prompts they verify
and the deny list are those of a manager that starts afresh. -/
theorem sessions_account (blake3 : List Byte → Hash32) (t : ℕ) (sessions : List (List QuorumCall))
    (cs : List QuorumCall) :
    let saved := savedAfter blake3 t [] sessions
    let q := session blake3 t saved cs
    (∀ ph, sessionReports blake3 t ph [] (sessions ++ [cs]) = if ph ∈ q.verifiedHashes then 1 else 0) ∧
    (∀ p, blake3 (asBytes p) ∈ saved →
      q.isVerified blake3 p = true ∧ ∀ d, q.getSupportCount blake3 p d = 0) ∧
    (∀ p, blake3 (asBytes p) ∉ saved →
      q.isVerified blake3 p = ((new t).calls blake3 cs).isVerified blake3 p ∧
      ∀ d, q.getSupportCount blake3 p d = ((new t).calls blake3 cs).getSupportCount blake3 p d) ∧
    ∀ origin, q.isDenied origin = ((new t).calls blake3 cs).isDenied origin := by
  intro saved q
  have h : Resumed saved ((new t).calls blake3 cs) q := (resumed_new t saved).calls cs
  refine ⟨fun ph => ?_, fun p hp => ⟨?_, fun d => ?_⟩, fun p hp => ⟨?_, fun d => ?_⟩, fun origin => ?_⟩
  · have hreports := sessionReports_add blake3 t ph [] (sessions ++ [cs])
    have hzero : verifiedCount [] ph = 0 := rfl
    have hlast : savedAfter blake3 t [] (sessions ++ [cs]) = q.verifiedHashes :=
      List.foldl_append.trans rfl
    rw [hzero, hlast] at hreports
    exact hreports
  · exact isVerified_iff.mpr (h.restored _ hp).1
  · rw [getSupportCount_eq, (h.restored _ hp).2]
    rfl
  · rw [Bool.eq_iff_iff, isVerified_iff, isVerified_iff]
    exact h.verified _ hp
  · rw [getSupportCount_eq, getSupportCount_eq, h.voters _ hp]
  · unfold isDenied
    rw [h.denied]

end Aimp.Crdt.QuorumManager
