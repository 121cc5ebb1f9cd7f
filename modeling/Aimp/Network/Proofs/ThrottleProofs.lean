import Aimp.Network.Proofs.RefillProofs

/-!
# Throttled peers

A peer falls behind an exact bucket if its packets arrive just before a millisecond ends, or if a refill
leaves something over, and both can happen again and again. Only a bucket of one token that is due after a
whole number of milliseconds never loses anything.
-/

namespace Aimp.Network

namespace GossipNetwork

open TokenBucket

variable {Hs Ts : Type} {limit burst now t t' n k m j last tokens : ℕ} {bucket : RateBucket}
  {entry : Option RateBucket} {q : ExactBucket} {c r : ℚ}

/-- Nothing overflows in the refill of the bucket that a packet finds. -/
def FitsFound (limit burst : ℕ) (entry : Option RateBucket) (now : ℕ) : Prop :=
  Fits limit now (found burst now entry)

/-- A nanosecond less than a number of milliseconds and one. -/
def almost (j : ℕ) : ℕ := j * 10 ^ 6 + 999999

/-! ## Packets at one moment -/

/-- The decision on a packet, after the refill of the bucket that it finds. -/
theorem packetStep_of_refill (entry : Option RateBucket) {filled : RateBucket}
    (h : refill limit burst now (found burst now entry) = filled) :
    packetStep limit burst entry now =
      if 0 < filled.tokens then (some { filled with tokens := filled.tokens - 1 }, true)
      else (some filled, false) :=
  packetStep_eq limit burst now entry h

/-- Before the next token is due nothing is refilled. -/
theorem refill_quiet (burst : ℕ) (hquiet : (now - last) / 10 ^ 6 * limit < 1000) (htokens : tokens < 2 ^ 64) :
    Fits limit now ⟨tokens, last⟩ ∧ refill limit burst now ⟨tokens, last⟩ = ⟨tokens, last⟩ := by
  have hzero : refilled limit now ⟨tokens, last⟩ = 0 := Nat.div_eq_of_lt hquiet
  have hfits : Fits limit now ⟨tokens, last⟩ := by
    unfold Fits
    rw [hzero]
    exact ⟨hquiet.trans (by norm_num), htokens⟩
  refine ⟨hfits, ?_⟩
  rw [refill_of_fits burst hfits, hzero, if_neg (lt_irrefl 0)]

/-- Without a refill so many packets are admitted as there are tokens. -/
theorem serve_tokens (burst : ℕ) (hquiet : (now - last) / 10 ^ 6 * limit < 1000) (hk : k ≤ tokens)
    (htokens : tokens < 2 ^ 64) :
    Serves (packetStep limit burst) (FitsFound limit burst) (some ⟨tokens, last⟩) (List.replicate k now) k
      (some ⟨tokens - k, last⟩) := by
  induction k generalizing tokens with
  | zero => exact .nil
  | succ k ih =>
    obtain ⟨hfits, hrefill⟩ := refill_quiet burst hquiet htokens
    have hstep : packetStep limit burst (some ⟨tokens, last⟩) now = (some ⟨tokens - 1, last⟩, true) := by
      rw [packetStep_of_refill (some ⟨tokens, last⟩) hrefill, if_pos (Nat.zero_lt_of_lt hk)]
    have hrest := @ih (tokens - 1) (by omega) (by omega)
    have hfound : FitsFound limit burst (some ⟨tokens, last⟩) now := hfits
    have hserve := Serves.cons hfound hstep hrest
    rw [Bool.toNat_true, Nat.sub_sub, Nat.add_comm 1 k, ← List.replicate_succ] at hserve
    exact hserve

/-- Without a token a packet is refused. -/
theorem serve_none (burst : ℕ) (hquiet : (now - last) / 10 ^ 6 * limit < 1000) :
    Serves (packetStep limit burst) (FitsFound limit burst) (some ⟨0, last⟩) [now] 0 (some ⟨0, last⟩) := by
  obtain ⟨hfits, hrefill⟩ := refill_quiet burst hquiet (Nat.two_pow_pos 64)
  have hstep : packetStep limit burst (some ⟨0, last⟩) now = (some ⟨0, last⟩, false) := by
    rw [packetStep_of_refill (some ⟨0, last⟩) hrefill, if_neg (lt_irrefl 0)]
  exact .single hfits hstep

/-- So many packets are admitted as there are tokens after a refill. -/
theorem serve_filled (hfits : FitsFound limit burst entry now)
    (hrefill : refill limit burst now (found burst now entry) = ⟨tokens, now⟩) (hpos : 0 < tokens)
    (htokens : tokens < 2 ^ 64) :
    Serves (packetStep limit burst) (FitsFound limit burst) entry (List.replicate tokens now) tokens
      (some ⟨0, now⟩) := by
  have hstep : packetStep limit burst entry now = (some ⟨tokens - 1, now⟩, true) := by
    rw [packetStep_of_refill entry hrefill, if_pos hpos]
  have hquiet : (now - now) / 10 ^ 6 * limit < 1000 := by simp
  have hrest := serve_tokens burst hquiet (le_refl (tokens - 1)) (by omega)
  have hserve := Serves.cons hfits hstep hrest
  have hsucc : 1 + (tokens - 1) = tokens := Nat.add_sub_cancel' hpos
  rw [Bool.toNat_true, ← List.replicate_succ, Nat.sub_self, Nat.add_comm (tokens - 1), hsucc] at hserve
  exact hserve

/-- A new peer has a full bucket. -/
theorem serve_new (limit now : ℕ) (hpos : 0 < burst) (hburst : burst < 2 ^ 64) :
    Serves (packetStep limit burst) (FitsFound limit burst) none (List.replicate burst now) burst
      (some ⟨0, now⟩) := by
  have hquiet : (now - now) / 10 ^ 6 * limit < 1000 := by simp
  obtain ⟨hfits, hrefill⟩ := refill_quiet burst hquiet hburst
  exact serve_filled (hfits : FitsFound limit burst none now) hrefill hpos hburst

/-- Packets that find an empty bucket after a number of milliseconds. -/
theorem serve_refilled (helapsed : (now - last) / 10 ^ 6 = j) (hj : j * limit < 2 ^ 64)
    (htokens : min (j * limit / 1000) burst = tokens) (hpos : 0 < tokens) :
    Serves (packetStep limit burst) (FitsFound limit burst) (some ⟨0, last⟩) (List.replicate tokens now)
      tokens (some ⟨0, now⟩) := by
  have hrefilled : refilled limit now ⟨0, last⟩ = j * limit / 1000 := by
    unfold refilled
    rw [helapsed]
  have hfits : Fits limit now ⟨0, last⟩ := by
    unfold Fits
    rw [hrefilled, helapsed]
    dsimp only
    omega
  have hrefill : refill limit burst now ⟨0, last⟩ = ⟨tokens, now⟩ := by
    rw [refill_of_fits burst hfits, hrefilled, if_pos (by omega), Nat.zero_add, htokens]
  exact serve_filled (hfits : FitsFound limit burst (some ⟨0, last⟩) now) hrefill hpos (by omega)

/-! ## Losses that add up -/

theorem two_le_almost (j : ℕ) : 2 ≤ almost j := by
  unfold almost
  omega

theorem elapsed_almost (last j : ℕ) : (last + almost j - last) / 10 ^ 6 = j := by
  unfold almost
  omega

/-- A refill that leaves something over, and one more packet. -/
theorem serve_leftover (last : ℕ) (hj : j * limit < 2 ^ 64) (hm : j * limit / 1000 = m) (hpos : 0 < m)
    (hburst : m < burst) :
    Serves (packetStep limit burst) (FitsFound limit burst) (some ⟨0, last⟩)
      (List.replicate m (last + almost j) ++ [last + almost j + 2]) m (some ⟨0, last + almost j⟩) := by
  have hquiet : (last + almost j + 2 - (last + almost j)) / 10 ^ 6 * limit < 1000 := by
    rw [Nat.add_sub_cancel_left]
    norm_num
  have hmin : min (j * limit / 1000) burst = m := by omega
  exact (serve_refilled (elapsed_almost last j) hj hmin hpos).append (serve_none burst hquiet)

/-- The exact bucket admits all of these packets, although it holds a little less each time. -/
theorem exact_leftover {little : ℚ} (hpos : 0 < m) (hburst : m < burst) (hlittle : little ≤ perNano limit)
    (hquarter : little ≤ 1 / 4) (hc : little ≤ c) (hc' : c ≤ 2 * little)
    (hdue : m + 1 - 3 * little ≤ ((almost j : ℚ) - 2) * perNano limit)
    (h : q.Holds (perNano limit) c (last + 2)) :
    ∃ q', Serves (ExactBucket.step (perNano limit) burst) (fun _ _ => True) q
        (List.replicate m (last + almost j) ++ [last + almost j + 2]) (m + 1) q' ∧
      q'.Holds (perNano limit) (c - little) (last + almost j + 2) := by
  have hburst' : (m : ℚ) + 1 ≤ burst := by exact_mod_cast hburst
  have hone : (1 : ℚ) ≤ m := by exact_mod_cast hpos
  have hwait : last + 2 ≤ last + almost j := Nat.add_le_add_left (two_le_almost j) last
  have hholds : q.Holds (perNano limit) (m + 1 - 3 * little + c) (last + almost j) := by
    refine (h.wait hwait).mono ?_
    push_cast
    linarith
  have henough : (m : ℚ) ≤ m + 1 - 3 * little + c := by linarith
  have hroom : (m : ℚ) + 1 - 3 * little + c ≤ burst := by linarith
  obtain ⟨q', hserve, hholds'⟩ := hholds.serve henough hroom
  have hholds'' : q'.Holds (perNano limit) (1 + c - little) (last + almost j + 2) := by
    refine (hholds'.wait (Nat.le_add_right _ 2)).mono ?_
    push_cast
    linarith
  have hroom' : 1 + c - little ≤ burst := by linarith
  obtain ⟨q'', hstep, hleft⟩ := hholds''.admit (by linarith) hroom'
  exact ⟨q'', hserve.append (.single trivial hstep), hleft.mono (by linarith)⟩

/-- A full bucket is emptied, and one more packet arrives just before a token is refilled. -/
theorem exact_early (hdue : 1 ≤ (almost j : ℚ) * perNano limit) (hpos : 0 < burst)
    (h : q.Holds (perNano limit) burst now) :
    ∃ q', Serves (ExactBucket.step (perNano limit) burst) (fun _ _ => True) q
        (List.replicate burst now ++ [now + almost j]) (burst + 1) q' ∧
      q'.Holds (perNano limit) 0 (now + almost j) := by
  have hone : (1 : ℚ) ≤ burst := by exact_mod_cast hpos
  obtain ⟨q', hserve, hholds⟩ := h.serve (le_refl (burst : ℚ)) le_rfl
  have hholds' : q'.Holds (perNano limit) 1 (now + almost j) := by
    refine (hholds.wait (Nat.le_add_right _ _)).mono ?_
    push_cast
    linarith
  obtain ⟨q'', hstep, hleft⟩ := hholds'.admit le_rfl hone
  exact ⟨q'', hserve.append (.single trivial hstep), hleft.mono (by linarith)⟩

theorem holds_full (limit burst : ℕ) :
    (ExactBucket.full burst).Holds (perNano limit) burst 0 := by
  refine ⟨le_rfl, ?_⟩
  unfold ExactBucket.full
  simp

/-- Sorted times up to a moment. -/
def Until (now : ℕ) (ts : List ℕ) : Prop := ts.Pairwise (· ≤ ·) ∧ ∀ t ∈ ts, t ≤ now

theorem until_replicate (k now : ℕ) : Until now (List.replicate k now) :=
  ⟨List.pairwise_replicate.mpr (Or.inr le_rfl), fun _ ht => (List.eq_of_mem_replicate ht).le⟩

theorem Until.append {ts us : List ℕ} (h : Until t ts) (hus : Until t' us) (hle : ∀ u ∈ us, t ≤ u)
    (htt' : t ≤ t') : Until t' (ts ++ us) := by
  refine ⟨List.pairwise_append.mpr ⟨h.1, hus.1, fun u hu v hv => (h.2 u hu).trans (hle v hv)⟩, ?_⟩
  intro u hu
  rcases List.mem_append.mp hu with hu | hu
  · exact (h.2 u hu).trans htt'
  · exact hus.2 u hu

/-- Packets at one moment and one more later. -/
theorem Until.block {ts : List ℕ} (h : Until t ts) (htnow : t ≤ now) (hnow : now ≤ t') (k : ℕ) :
    Until t' (ts ++ (List.replicate k now ++ [t'])) := by
  have hlast : Until t' [t'] := ⟨List.pairwise_singleton .., fun u hu => (List.mem_singleton.mp hu).le⟩
  have hblock : Until t' (List.replicate k now ++ [t']) :=
    (until_replicate k now).append hlast (fun u hu => hnow.trans (List.mem_singleton.mp hu).ge) hnow
  refine h.append hblock (fun u hu => ?_) (htnow.trans hnow)
  rcases List.mem_append.mp hu with hu | hu
  · exact htnow.trans (List.eq_of_mem_replicate hu).ge
  · exact (htnow.trans hnow).trans (List.mem_singleton.mp hu).ge

/-- Sorted times of packets on which nothing overflows, and of which an exact bucket admits at least two
more. -/
def Throttles (limit burst : ℕ) (ts : List ℕ) : Prop :=
  ts.Pairwise (· ≤ ·) ∧ Each (packetStep limit burst) (FitsFound limit burst) none ts ∧
    admitted (packetStep limit burst) none ts + 1 <
      admitted (ExactBucket.step (perNano limit) burst) (.full burst) ts

theorem throttles_of_serves {ts : List ℕ} {q' : ExactBucket} (hsorted : Until t ts)
    (hcode : Serves (packetStep limit burst) (FitsFound limit burst) none ts n entry)
    (hexact : Serves (ExactBucket.step (perNano limit) burst) (fun _ _ => True) (.full burst) ts k q')
    (hnk : n + 1 < k) : Throttles limit burst ts := by
  refine ⟨hsorted.1, hcode.each, ?_⟩
  rw [hcode.admitted_eq, hexact.admitted_eq]
  exact hnk

/-- The last number of milliseconds for which a refill adds no more tokens than after the first one that
adds any. -/
theorem exists_leftover (hpos : 0 < limit) (hlimit : limit < 2 ^ 64) :
    ∃ j m, (999 / limit + 1) * limit / 1000 = m ∧ 0 < m ∧ j * limit / 1000 = m ∧
      1000 * (m + 1) ≤ (j + 1) * limit ∧ j * limit < 2 ^ 64 := by
  obtain ⟨first, hfirst⟩ : ∃ first, 999 / limit + 1 = first := ⟨_, rfl⟩
  have hbelow : 999 / limit * limit ≤ 999 := Nat.div_mul_le_self 999 limit
  have habove : 999 < first * limit := (Nat.div_lt_iff_lt_mul hpos).mp (by omega)
  have hsucc : first * limit = 999 / limit * limit + limit := by
    rw [← hfirst, Nat.add_mul, Nat.one_mul]
  obtain ⟨m, hm⟩ : ∃ m, first * limit / 1000 = m := ⟨_, rfl⟩
  obtain ⟨j, hj⟩ : ∃ j, (1000 * m + 999) / limit = j := ⟨_, rfl⟩
  have hjle : j * limit ≤ 1000 * m + 999 := hj ▸ Nat.div_mul_le_self _ _
  have hjlt : 1000 * m + 999 < (j + 1) * limit := (Nat.div_lt_iff_lt_mul hpos).mp (by omega)
  have hfirstj : first * limit ≤ j * limit := by
    refine Nat.mul_le_mul_right limit ?_
    rw [← hj, Nat.le_div_iff_mul_le hpos]
    omega
  refine ⟨j, m, by rw [hfirst, hm], by omega, by omega, by omega, ?_⟩
  by_cases hsmall : limit ≤ 999
  · omega
  · -- a millisecond is worth a token
    have hzero : 999 / limit = 0 := Nat.div_eq_of_lt (not_le.mp hsmall)
    have hj1 : j ≤ 1 := by
      have hlt : j < 2 := by
        rw [← hj, Nat.div_lt_iff_lt_mul hpos]
        rw [hzero] at hsucc
        omega
      omega
    calc j * limit ≤ 1 * limit := Nat.mul_le_mul_right limit hj1
      _ = limit := Nat.one_mul limit
      _ < 2 ^ 64 := hlimit

theorem cast_almost (j : ℕ) : (almost j : ℚ) = j * 10 ^ 6 + 999999 := by
  unfold almost
  norm_num

/-- Two refills with something left over. -/
theorem throttles_leftover (hpos : 0 < limit) (hm : 0 < m) (hj : j * limit / 1000 = m)
    (hdue : 1000 * (m + 1) ≤ (j + 1) * limit) (hfits : j * limit < 2 ^ 64) (hburst : burst < 2 ^ 64)
    (h : m < burst) :
    Throttles limit burst (List.replicate burst 0 ++ (List.replicate m (almost j) ++ [almost j + 2]) ++
      (List.replicate m (almost j + almost j) ++ [almost j + almost j + 2])) := by
  have hrate : (0 : ℚ) < perNano limit := div_pos (Nat.cast_pos.mpr hpos) (by norm_num)
  -- what the exact bucket keeps back in a round
  obtain ⟨little, hlittle⟩ : ∃ little, min (perNano limit) (1 / 4) = little := ⟨_, rfl⟩
  have hlittle' : little ≤ perNano limit := hlittle ▸ min_le_left _ _
  have hquarter : little ≤ 1 / 4 := hlittle ▸ min_le_right _ _
  have hnonneg : 0 ≤ little := hlittle ▸ le_min hrate.le (by norm_num)
  have hround : (m : ℚ) + 1 - 3 * little ≤ ((almost j : ℚ) - 2) * perNano limit := by
    have hnext : (m : ℚ) + 1 ≤ (j + 1) * 10 ^ 6 * perNano limit := by
      have hcast : (1000 : ℚ) * (m + 1) ≤ (j + 1) * limit := by exact_mod_cast hdue
      unfold perNano
      linarith
    have hthis : (m : ℚ) ≤ j * 10 ^ 6 * perNano limit := by
      have hcast : (1000 : ℚ) * m ≤ j * limit := by exact_mod_cast (by omega : 1000 * m ≤ j * limit)
      unfold perNano
      linarith
    rw [cast_almost]
    rcases le_total (perNano limit) (1 / 4) with hle | hle
    · rw [min_eq_left hle] at hlittle
      linarith
    · linarith
  have hburst0 : 0 < burst := Nat.zero_lt_of_lt h
  have hfull : (ExactBucket.full burst).Holds (perNano limit) burst 0 := holds_full limit burst
  obtain ⟨q₁, hserve₁, hq₁⟩ := hfull.serve (le_refl (burst : ℚ)) le_rfl
  have hq₁' : q₁.Holds (perNano limit) (2 * little) (0 + 2) := by
    refine (hq₁.wait (Nat.zero_le 2)).mono ?_
    push_cast
    linarith
  obtain ⟨q₂, hserve₂, hq₂⟩ := exact_leftover hm h hlittle' hquarter (by linarith) le_rfl hround hq₁'
  obtain ⟨q₃, hserve₃, -⟩ := exact_leftover hm h hlittle' hquarter (by linarith) (by linarith) hround hq₂
  have hcode := ((serve_new limit 0 hburst0 hburst).append (serve_leftover 0 hfits hj hm h)).append
    (serve_leftover _ hfits hj hm h)
  have hexact := (hserve₁.append hserve₂).append hserve₃
  rw [Nat.zero_add] at hcode hexact
  have hnext : almost j + 2 ≤ almost j + almost j := Nat.add_le_add_left (two_le_almost j) _
  have hsorted := ((until_replicate burst 0).block (Nat.zero_le (almost j)) (Nat.le_add_right _ 2) m).block
    hnext (Nat.le_add_right _ 2) m
  exact throttles_of_serves hsorted hcode hexact (by omega)

/-- The last number of milliseconds before a token is refilled, if that is due in the middle of a millisecond
and fills the bucket. -/
theorem exists_early (hpos : 0 < limit) (hlimit : limit < 2 ^ 64)
    (h : burst ≤ (999 / limit + 1) * limit / 1000) (hdvd : ¬ limit ∣ 1000) :
    ∃ j, j * limit < 1000 ∧ 1000 < (j + 1) * limit ∧ 1000 * burst ≤ (j + 1) * limit ∧
      (2 * j + 1) * limit < 2 ^ 64 := by
  obtain ⟨j, hj⟩ : ∃ j, 999 / limit = j := ⟨_, rfl⟩
  have hbelow : j * limit ≤ 999 := hj ▸ Nat.div_mul_le_self 999 limit
  have habove : 999 < (j + 1) * limit := (Nat.div_lt_iff_lt_mul hpos).mp (by omega)
  have hne : (j + 1) * limit ≠ 1000 := fun heq => hdvd ⟨j + 1, by rw [← heq, Nat.mul_comm]⟩
  rw [hj] at h
  refine ⟨j, by omega, by omega, by omega, ?_⟩
  rw [Nat.add_mul, Nat.mul_assoc, Nat.one_mul]
  rcases Nat.eq_zero_or_pos j with rfl | hjpos
  · omega
  · have hle : limit ≤ j * limit := Nat.le_mul_of_pos_left limit hjpos
    omega

/-- A token that is due in the middle of a millisecond, and a bucket that is full before the time is counted. -/
theorem exists_throttles_early (hquiet : j * limit < 1000) (hdue : 1000 < (j + 1) * limit)
    (hrefill : 1000 * burst ≤ (j + 1) * limit) (hfits : (2 * j + 1) * limit < 2 ^ 64) (hburst0 : 0 < burst)
    (hburst : burst < 2 ^ 64) : ∃ ts, Throttles limit burst ts := by
  have hsucc : (j + 1) * limit = j * limit + limit := Nat.succ_mul j limit
  have htwice : (2 * j + 1) * limit = 2 * (j * limit) + limit := by
    rw [Nat.add_mul, Nat.mul_assoc, Nat.one_mul]
  have hdue' : (1 : ℚ) ≤ (almost j : ℚ) * perNano limit := by
    have hle : 10 ^ 9 ≤ almost j * limit := by
      have hmul : almost j * limit = j * limit * 10 ^ 6 + 999999 * limit := by
        unfold almost
        rw [Nat.add_mul, Nat.mul_right_comm]
      omega
    have hcast : (10 : ℚ) ^ 9 ≤ almost j * limit := by exact_mod_cast hle
    unfold perNano
    linarith
  have hrefill' : (burst : ℚ) ≤ (j + 1) * 10 ^ 6 * perNano limit := by
    have hcast : (1000 : ℚ) * burst ≤ (j + 1) * limit := by exact_mod_cast hrefill
    unfold perNano
    linarith
  obtain ⟨next, hnext⟩ : ∃ next, 0 + almost j + (j + 1) * 10 ^ 6 = next := ⟨_, rfl⟩
  -- the exact bucket is full again after the first packet that the code refuses
  obtain ⟨q₁, hserve₁, hq₁⟩ := exact_early hdue' hburst0 (holds_full limit burst)
  have hfull : q₁.Holds (perNano limit) burst next := by
    refine (hq₁.wait (hnext ▸ Nat.le_add_right _ _)).mono ?_
    rw [← hnext]
    push_cast
    linarith
  obtain ⟨q₂, hserve₂, -⟩ := exact_early hdue' hburst0 hfull
  have hearly : ∀ last, (last + almost j - last) / 10 ^ 6 * limit < 1000 := by
    intro last
    rw [elapsed_almost]
    exact hquiet
  have helapsed : (next - 0) / 10 ^ 6 = 2 * j + 1 := by
    rw [← hnext]
    unfold almost
    omega
  have hmin : min ((2 * j + 1) * limit / 1000) burst = burst := by omega
  have hcode := ((serve_new limit 0 hburst0 hburst).append (serve_none burst (hearly 0))).append
    ((serve_refilled helapsed hfits hmin hburst0).append (serve_none burst (hearly next)))
  have hexact := hserve₁.append hserve₂
  have hnil : Until 0 [] := ⟨List.Pairwise.nil, fun _ h => by cases h⟩
  have hfirst := hnil.block le_rfl (Nat.zero_le (0 + almost j)) burst
  rw [List.nil_append] at hfirst
  have hsorted := hfirst.block (hnext ▸ Nat.le_add_right _ _) (Nat.le_add_right next (almost j)) burst
  exact ⟨_, throttles_of_serves hsorted hcode hexact (by omega)⟩

/-- Any bucket of more than one token throttles some peer, and one of a single token unless that is due after
a whole number of milliseconds. -/
theorem exists_throttles (hlimit : limit < 2 ^ 64) (hburst : burst < 2 ^ 64) (hpos : 0 < limit)
    (hburst0 : 0 < burst) (h : ¬ (burst = 1 ∧ limit ∣ 1000)) : ∃ ts, Throttles limit burst ts := by
  rcases Nat.lt_or_ge ((999 / limit + 1) * limit / 1000) burst with hlt | hge
  · obtain ⟨j, m, hfirst, hm, hj, hdue, hfits⟩ := exists_leftover hpos hlimit
    rw [hfirst] at hlt
    exact ⟨_, throttles_leftover hpos hm hj hdue hfits hburst hlt⟩
  · have hdvd : ¬ limit ∣ 1000 := by
      rintro ⟨ms, hms⟩
      have hdiv : 999 / limit * limit ≤ 999 := Nat.div_mul_le_self 999 limit
      have hlt : 999 / limit < ms := by
        rw [Nat.div_lt_iff_lt_mul hpos, Nat.mul_comm, ← hms]
        exact Nat.lt_succ_self 999
      have hle : (999 / limit + 1) * limit ≤ 1000 := by
        rw [hms, Nat.mul_comm limit]
        exact Nat.mul_le_mul_right limit hlt
      exact h ⟨by omega, ms, hms⟩
    obtain ⟨j, hquiet, hdue, hrefill, hfits⟩ := exists_early hpos hlimit hge hdvd
    exact exists_throttles_early hquiet hdue hrefill hfits hburst0 hburst

/-- Without such a bucket nothing is ever lost. -/
theorem lossless_of_config (h : limit = 0 ∨ burst = 0 ∨ burst = 1 ∧ limit ∣ 1000) (now : ℕ)
    (bucket : RateBucket) : Lossless limit burst now bucket := by
  unfold Lossless due refilled
  generalize now - bucket.lastRefill = elapsed
  rcases h with rfl | rfl | ⟨rfl, ms, hms⟩
  · exact Or.inl (by simp)
  · exact Or.inr (Or.inr (Nat.zero_le _))
  · by_cases hearly : elapsed / 10 ^ 6 < ms
    · left
      have hlt : elapsed < ms * 10 ^ 6 := by omega
      have hpos : 0 < limit := by
        rcases Nat.eq_zero_or_pos limit with rfl | hpos
        · omega
        · exact hpos
      calc elapsed * limit < ms * 10 ^ 6 * limit := Nat.mul_lt_mul_of_pos_right hlt hpos
        _ = limit * ms * 10 ^ 6 := by rw [Nat.mul_comm limit, Nat.mul_right_comm]
        _ = 1000 * 10 ^ 6 := by rw [← hms]
        _ = 10 ^ 9 := by norm_num
    · right
      right
      have hle : ms * limit ≤ elapsed / 10 ^ 6 * limit := Nat.mul_le_mul_right limit (not_lt.mp hearly)
      rw [Nat.mul_comm ms, ← hms] at hle
      omega

/-! ## All peers -/

/-- The times of the packets of a peer. -/
def timesOf (peer : String) (arrivals : List (ℕ × String)) : List ℕ :=
  (arrivals.filter fun p => p.2 = peer).map Prod.fst

/-- The number of packets of a peer that are admitted. -/
def admittedOf (net : GossipNetwork Hs Ts) (peer : String) : List (ℕ × String) → ℕ
  | [] => 0
  | (now, ip) :: arrivals =>
    (if ip = peer then (net.checkRateLimit now ip).2.toNat else 0) +
      admittedOf (net.checkRateLimit now ip).1 peer arrivals

/-- Every packet finds a bucket with some property. -/
def EachFinds (P : ℕ → RateBucket → Prop) (net : GossipNetwork Hs Ts) : List (ℕ × String) → Prop
  | [] => True
  | (now, ip) :: arrivals =>
    P now (found net.peerRateBurst now (net.rateLimits.lookup ip)) ∧
      EachFinds P (net.checkRateLimit now ip).1 arrivals

/-- After each of the packets, no fewer packets of every peer have been admitted than an exact bucket admits,
less one. -/
def KeepsUp (net : GossipNetwork Hs Ts) (arrivals : List (ℕ × String)) : Prop :=
  ∀ before, before <+: arrivals → ∀ peer,
    admitted (ExactBucket.step (perNano net.peerRateLimit) net.peerRateBurst) (.full net.peerRateBurst)
      (timesOf peer before) ≤ net.admittedOf peer before + 1

theorem timesOf_cons (peer : String) (now : ℕ) (ip : String) (arrivals : List (ℕ × String)) :
    timesOf peer ((now, ip) :: arrivals) =
      if ip = peer then now :: timesOf peer arrivals else timesOf peer arrivals := by
  unfold timesOf
  by_cases hip : ip = peer
  · rw [List.filter_cons, if_pos (decide_eq_true hip), if_pos hip, List.map_cons]
  · rw [List.filter_cons, if_neg (ne_true_of_eq_false (decide_eq_false hip)), if_neg hip]

theorem timesOf_map (peer peer' : String) (ts : List ℕ) :
    timesOf peer (ts.map fun t => (t, peer')) = if peer' = peer then ts else [] := by
  induction ts with
  | nil => exact (ite_self []).symm
  | cons t ts ih =>
    rw [List.map_cons, timesOf_cons, ih]
    split <;> rfl

theorem sorted_timesOf {before arrivals : List (ℕ × String)}
    (hsorted : (arrivals.map Prod.fst).Pairwise (· ≤ ·)) (hpart : before <+: arrivals) (peer : String) :
    (timesOf peer before).Pairwise (· ≤ ·) :=
  hsorted.sublist (((List.filter_sublist).trans hpart.sublist).map Prod.fst)

section Project

variable (net : GossipNetwork Hs Ts) (P : ℕ → RateBucket → Prop) (peer : String)

/-- The packets of other peers do not matter. -/
theorem admittedOf_eq (arrivals : List (ℕ × String)) :
    net.admittedOf peer arrivals =
      admitted (packetStep net.peerRateLimit net.peerRateBurst) (net.rateLimits.lookup peer)
        (timesOf peer arrivals) := by
  induction arrivals generalizing net with
  | nil => rfl
  | cons arrival arrivals ih =>
    obtain ⟨now, ip⟩ := arrival
    obtain ⟨net', b, hnet'⟩ : ∃ net' b, net.checkRateLimit now ip = (net', b) :=
      ⟨_, _, Prod.mk.eta.symm⟩
    obtain ⟨hown, hother, hlimit, hburst⟩ := net.checkRateLimit_spec now ip hnet'
    unfold admittedOf
    rw [hnet', ih, hlimit, hburst, timesOf_cons]
    by_cases hip : ip = peer
    · subst hip
      rw [if_pos rfl, if_pos rfl, admitted_cons, hown]
    · rw [if_neg hip, if_neg hip, hother peer (Ne.symm hip), Nat.zero_add]

theorem eachFinds_iff (arrivals : List (ℕ × String)) :
    net.EachFinds P arrivals ↔ ∀ peer, Each (packetStep net.peerRateLimit net.peerRateBurst)
      (fun entry now => P now (found net.peerRateBurst now entry)) (net.rateLimits.lookup peer)
        (timesOf peer arrivals) := by
  induction arrivals generalizing net with
  | nil => exact iff_of_true trivial fun _ => trivial
  | cons arrival arrivals ih =>
    obtain ⟨now, ip⟩ := arrival
    obtain ⟨net', b, hnet'⟩ : ∃ net' b, net.checkRateLimit now ip = (net', b) :=
      ⟨_, _, Prod.mk.eta.symm⟩
    obtain ⟨hown, hother, hlimit, hburst⟩ := net.checkRateLimit_spec now ip hnet'
    unfold EachFinds
    rw [hnet', ih, hlimit, hburst]
    constructor
    · intro ⟨hP, hrest⟩ peer
      rw [timesOf_cons]
      by_cases hip : ip = peer
      · subst hip
        rw [if_pos rfl]
        refine ⟨hP, ?_⟩
        rw [hown]
        exact hrest ip
      · rw [if_neg hip, ← hother peer (Ne.symm hip)]
        exact hrest peer
    · intro h
      have hip := h ip
      rw [timesOf_cons, if_pos rfl] at hip
      refine ⟨hip.1, fun peer => ?_⟩
      by_cases hpeer : ip = peer
      · subst hpeer
        have hrest := hip.2
        rw [hown] at hrest
        exact hrest
      · have hpeer' := h peer
        rw [timesOf_cons, if_neg hpeer] at hpeer'
        rw [hother peer (Ne.symm hpeer)]
        exact hpeer'

end Project

theorem EachFinds.mono {net : GossipNetwork Hs Ts} {P P' : ℕ → RateBucket → Prop}
    {arrivals : List (ℕ × String)} (h : net.EachFinds P arrivals)
    (hP : ∀ now bucket, P now bucket → P' now bucket) : net.EachFinds P' arrivals := by
  induction arrivals generalizing net with
  | nil => trivial
  | cons arrival arrivals ih => exact ⟨hP _ _ h.1, ih h.2⟩

theorem EachFinds.takeBefore {net : GossipNetwork Hs Ts} {P : ℕ → RateBucket → Prop}
    {before arrivals : List (ℕ × String)} (h : net.EachFinds P arrivals) (hpart : before <+: arrivals) :
    net.EachFinds P before := by
  obtain ⟨rest, rfl⟩ := hpart
  induction before generalizing net with
  | nil => trivial
  | cons arrival before ih => exact ⟨h.1, ih h.2⟩

/-- No packet has arrived yet. -/
structure Fresh (limit burst : ℕ) (net : GossipNetwork Hs Ts) : Prop where
  lookup : ∀ peer, net.rateLimits.lookup peer = none
  peerRateLimit : net.peerRateLimit = limit
  peerRateBurst : net.peerRateBurst = burst

theorem fresh_new (noiseStaticSecret : ByteArr 32) (noiseRequired : Bool) (limit burst : ℕ) :
    Fresh limit burst (new noiseStaticSecret noiseRequired limit burst : GossipNetwork Hs Ts) where
  lookup peer := by rw [new_rateLimits, AList.lookup_empty]
  peerRateLimit := new_peerRateLimit ..
  peerRateBurst := new_peerRateBurst ..

section Runs

variable {net : GossipNetwork Hs Ts} {arrivals : List (ℕ × String)}

/-- If nothing is ever lost, a new network keeps up. -/
theorem Fresh.keepsUp (hfresh : Fresh limit burst net) (hsorted : (arrivals.map Prod.fst).Pairwise (· ≤ ·))
    (heach : net.EachFinds (fun now bucket => Fits limit now bucket ∧ Lossless limit burst now bucket)
      arrivals) : net.KeepsUp arrivals := by
  obtain ⟨hnew, rfl, rfl⟩ := hfresh
  intro before hpart peer
  have hbefore := (net.eachFinds_iff _ before).mp (heach.takeBefore hpart) peer
  rw [hnew peer] at hbefore
  rw [admittedOf_eq, hnew peer]
  exact (exact_le_admitted (sorted_timesOf hsorted hpart peer) hbefore).trans (Nat.le_succ _)

/-- A peer whose packets arrive at such times is throttled. -/
theorem Fresh.not_keepsUp (hfresh : Fresh limit burst net) {ts : List ℕ} (hts : Throttles limit burst ts)
    (peer : String) :
    ((ts.map fun t => (t, peer)).map Prod.fst).Pairwise (· ≤ ·) ∧
      net.EachFinds (Fits limit) (ts.map fun t => (t, peer)) ∧
      ¬ net.KeepsUp (ts.map fun t => (t, peer)) := by
  obtain ⟨hnew, rfl, rfl⟩ := hfresh
  obtain ⟨hsorted, heach, hlt⟩ := hts
  refine ⟨?_, ?_, fun hkeeps => ?_⟩
  · rw [List.map_map]
    exact (List.map_id ts).symm ▸ hsorted
  · rw [eachFinds_iff]
    intro peer'
    rw [timesOf_map, hnew peer']
    split
    · exact heach
    · trivial
  · have hle := hkeeps _ List.prefix_rfl peer
    rw [admittedOf_eq, hnew peer, timesOf_map, if_pos rfl] at hle
    exact absurd hlt (not_lt.mpr hle)

end Runs

/-- In a run whose packets all find a bucket that loses nothing, the number of admitted packets keeps up with
the exact bucket. The runs without overflow are all of this kind if no token is ever due, or the bucket holds
none, or a single one that is due after a whole number of milliseconds; otherwise some peer is throttled. -/
theorem keepsUp_iff (noiseStaticSecret : ByteArr 32) (noiseRequired : Bool)
    (hlimit : limit < 2 ^ 64) (hburst : burst < 2 ^ 64) :
    (∀ arrivals : List (ℕ × String), (arrivals.map Prod.fst).Pairwise (· ≤ ·) →
      (new noiseStaticSecret noiseRequired limit burst : GossipNetwork Hs Ts).EachFinds
        (fun now bucket => Fits limit now bucket ∧ Lossless limit burst now bucket) arrivals →
      (new noiseStaticSecret noiseRequired limit burst : GossipNetwork Hs Ts).KeepsUp arrivals) ∧
    ((∀ arrivals : List (ℕ × String), (arrivals.map Prod.fst).Pairwise (· ≤ ·) →
      (new noiseStaticSecret noiseRequired limit burst : GossipNetwork Hs Ts).EachFinds (Fits limit)
        arrivals →
      (new noiseStaticSecret noiseRequired limit burst : GossipNetwork Hs Ts).KeepsUp arrivals) ↔
        limit = 0 ∨ burst = 0 ∨ burst = 1 ∧ limit ∣ 1000) := by
  have hfresh : Fresh limit burst (new noiseStaticSecret noiseRequired limit burst : GossipNetwork Hs Ts) :=
    fresh_new noiseStaticSecret noiseRequired limit burst
  refine ⟨fun arrivals => hfresh.keepsUp, fun h => ?_, fun h arrivals hsorted heach => ?_⟩
  · by_contra hconfig
    rw [not_or, not_or] at hconfig
    obtain ⟨hpos, hpos', hnot⟩ := hconfig
    obtain ⟨ts, hts⟩ :=
      exists_throttles hlimit hburst (Nat.pos_of_ne_zero hpos) (Nat.pos_of_ne_zero hpos') hnot
    obtain ⟨hsorted, heach, hthrottled⟩ := hfresh.not_keepsUp hts "192.0.2.7"
    exact hthrottled (h _ hsorted heach)
  · exact hfresh.keepsUp hsorted
      (heach.mono fun now bucket hfits => ⟨hfits, lossless_of_config h now bucket⟩)

/-- The default rate and burst. -/
theorem keepsUp_iff_default :
    (∀ arrivals : List (ℕ × String), (arrivals.map Prod.fst).Pairwise (· ≤ ·) →
      (new (zeros 32) true 50 100 : GossipNetwork Unit Unit).EachFinds
        (fun now bucket => Fits 50 now bucket ∧ Lossless 50 100 now bucket) arrivals →
      (new (zeros 32) true 50 100 : GossipNetwork Unit Unit).KeepsUp arrivals) ∧
    ((∀ arrivals : List (ℕ × String), (arrivals.map Prod.fst).Pairwise (· ≤ ·) →
      (new (zeros 32) true 50 100 : GossipNetwork Unit Unit).EachFinds (Fits 50) arrivals →
      (new (zeros 32) true 50 100 : GossipNetwork Unit Unit).KeepsUp arrivals) ↔
        50 = 0 ∨ 100 = 0 ∨ 100 = 1 ∧ 50 ∣ 1000) :=
  keepsUp_iff (zeros 32) true (by norm_num) (by norm_num)

/-- With the default rate and burst a peer that has used up its bucket is refused a packet after 40
milliseconds, and again after 80, although two tokens have been due each time. -/
theorem packet_throttled :
    (((List.replicate 100 0 ++ [39999999, 40000001, 79999998, 80000000]).map
      fun t : ℕ => (t, "192.0.2.7")).map Prod.fst).Pairwise (· ≤ ·) ∧
    (new (zeros 32) true 50 100 : GossipNetwork Unit Unit).EachFinds (Fits 50)
      ((List.replicate 100 0 ++ [39999999, 40000001, 79999998, 80000000]).map
        fun t : ℕ => (t, "192.0.2.7")) ∧
    ¬ (new (zeros 32) true 50 100 : GossipNetwork Unit Unit).KeepsUp
      ((List.replicate 100 0 ++ [39999999, 40000001, 79999998, 80000000]).map
        fun t : ℕ => (t, "192.0.2.7")) := by
  have halmost : almost 39 = 39999999 := by
    unfold almost
    norm_num
  have hthrottles := @throttles_leftover 50 100 1 39 (by norm_num) (by norm_num) (by norm_num) (by norm_num)
    (by norm_num) (by norm_num) (by norm_num)
  rw [halmost, List.append_assoc, List.replicate_one, List.replicate_one] at hthrottles
  norm_num only [List.singleton_append, List.cons_append, List.nil_append] at hthrottles
  exact (fresh_new (zeros 32) true 50 100).not_keepsUp hthrottles "192.0.2.7"

end GossipNetwork

end Aimp.Network
