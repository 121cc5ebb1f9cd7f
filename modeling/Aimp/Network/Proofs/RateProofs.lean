import Aimp.Lib.TokenBucket
import Aimp.Network.Gossip

/-!
# The rate limit

A refill rounds down and is applied only if it is not zero, so that what is left of a token waits for the
next packet. This remainder and the tokens together are the credit of a peer, and it never grows faster
than the rate (`checkRateLimit_window`). Products and sums that wrap around only make it smaller.
-/

namespace Aimp.Network

namespace GossipNetwork

open TokenBucket

variable {Hs Ts : Type} {limit burst now t t' : ℕ} {bucket : RateBucket}

/-- The moment that lies a number of milliseconds after the start of the clock. -/
@[irreducible] def instant (ms : ℕ) : ℕ := ms * 10 ^ 6

theorem instant_eq (ms : ℕ) : instant ms = ms * 10 ^ 6 := by
  unfold instant
  rfl

/-! ## One bucket -/

/-- The time since the last refill, in thousandths of a token. -/
def unrefilled (limit now : ℕ) (bucket : RateBucket) : ℕ :=
  (now - bucket.lastRefill) / 10 ^ 6 % 2 ^ 64 * limit % 2 ^ 64

/-- A refill turns time into tokens, and leaves less than a token of it. -/
theorem refill_spec (limit now : ℕ) (h : bucket.tokens ≤ burst) :
    (refill limit burst now bucket).tokens ≤ burst ∧
      1000 * (refill limit burst now bucket).tokens +
          unrefilled limit now (refill limit burst now bucket) ≤
        1000 * bucket.tokens + unrefilled limit now bucket ∧
      unrefilled limit now (refill limit burst now bucket) < 1000 ∧
      ((refill limit burst now bucket).lastRefill = bucket.lastRefill ∨
        (refill limit burst now bucket).lastRefill = now) := by
  have hdef : refill limit burst now bucket =
      if 0 < unrefilled limit now bucket / 1000 then
        ⟨min ((bucket.tokens + unrefilled limit now bucket / 1000) % 2 ^ 64) burst, now⟩
      else bucket := rfl
  rw [hdef]
  by_cases hpos : 0 < unrefilled limit now bucket / 1000
  · rw [if_pos hpos]
    have hzero : ∀ tokens, unrefilled limit now ⟨tokens, now⟩ = 0 := by
      intro tokens
      simp [unrefilled]
    have hwrap := Nat.mod_le (bucket.tokens + unrefilled limit now bucket / 1000) (2 ^ 64)
    rw [hzero]
    refine ⟨min_le_right _ _, ?_, Nat.zero_lt_succ 999, Or.inr rfl⟩
    dsimp only
    omega
  · rw [if_neg hpos]
    exact ⟨h, le_rfl, by omega, Or.inl rfl⟩

/-- The remainder grows no faster than with the rate. -/
theorem unrefilled_le (htt' : t ≤ t') (hlast : ∃ m ≤ t, bucket.lastRefill = instant m) :
    unrefilled limit (instant t') bucket ≤
      unrefilled limit (instant t) bucket + (t' - t) * limit := by
  obtain ⟨m, hmt, hm⟩ := hlast
  have helapsed : ∀ u, (instant u - bucket.lastRefill) / 10 ^ 6 = u - m := by
    intro u
    rw [hm, instant_eq, instant_eq]
    omega
  have hsplit : (t' - m) * limit = (t - m) * limit + (t' - t) * limit := by
    rw [← Nat.add_mul]
    congr 1
    omega
  unfold unrefilled
  rw [helapsed, helapsed, Nat.mod_mul_mod, Nat.mod_mul_mod, hsplit, ← Nat.mod_add_mod]
  exact Nat.mod_le _ _

/-- The decision on a packet that arrives at any moment. -/
def packetStep (limit burst : ℕ) (entry : Option RateBucket) (now : ℕ) : Option RateBucket × Bool :=
  let bucket := refill limit burst now (entry.getD ⟨burst, now⟩)
  if 0 < bucket.tokens then (some { bucket with tokens := bucket.tokens - 1 }, true)
  else (some bucket, false)

/-- The decision on a packet of the peer that has the given bucket, if any. -/
def bucketStep (limit burst : ℕ) (entry : Option RateBucket) (ms : ℕ) : Option RateBucket × Bool :=
  let bucket := refill limit burst (instant ms) (entry.getD ⟨burst, instant ms⟩)
  if 0 < bucket.tokens then (some { bucket with tokens := bucket.tokens - 1 }, true)
  else (some bucket, false)

/-- What is known of a bucket at a time. -/
def BucketInv (burst t : ℕ) (entry : Option RateBucket) : Prop :=
  ∀ bucket ∈ entry, bucket.tokens ≤ burst ∧ ∃ m ≤ t, bucket.lastRefill = instant m

theorem bucketInv_some (tokens lastRefill : ℕ) :
    BucketInv burst t (some ⟨tokens, lastRefill⟩) ↔
      tokens ≤ burst ∧ ∃ m ≤ t, lastRefill = instant m := by
  unfold BucketInv
  simp

/-- The credit of a peer in thousandths of a token; a new peer has a full bucket. -/
def credit (limit burst t : ℕ) (entry : Option RateBucket) : ℕ :=
  entry.elim (1000 * burst) fun bucket =>
    1000 * bucket.tokens + unrefilled limit (instant t) bucket

theorem credit_none : credit limit burst t none = 1000 * burst := rfl

theorem credit_some (b : RateBucket) :
    credit limit burst t (some b) = 1000 * b.tokens + unrefilled limit (instant t) b := by
  unfold credit
  rw [Option.elim_some]

/-- A new bucket is full. -/
theorem unrefilled_new : unrefilled limit now ⟨burst, now⟩ = 0 := by
  unfold unrefilled
  simp

/-- The remainder does not depend on the tokens. -/
theorem unrefilled_tokens (lastRefill tokens : ℕ) :
    unrefilled limit now ⟨tokens, lastRefill⟩ = unrefilled limit now ⟨0, lastRefill⟩ := rfl

/-- The bucket that a packet finds, before the refill. -/
theorem BucketInv.found {entry : Option RateBucket} (limit : ℕ) (h : BucketInv burst t entry)
    (htt' : t ≤ t') (hbucket : entry.getD ⟨burst, instant t'⟩ = bucket) :
    bucket.tokens ≤ burst ∧ (∃ m ≤ t', bucket.lastRefill = instant m) ∧
      1000 * bucket.tokens + unrefilled limit (instant t') bucket ≤
        credit limit burst t entry + (t' - t) * limit := by
  cases entry with
  | none =>
    rw [Option.getD_none] at hbucket
    rw [← hbucket, unrefilled_new, credit_none]
    exact ⟨le_rfl, ⟨t', le_rfl, rfl⟩, Nat.le_add_right _ _⟩
  | some b =>
    rw [Option.getD_some] at hbucket
    rw [hbucket] at h ⊢
    obtain ⟨htokens, m, hmt, hm⟩ := h bucket rfl
    have hle := @unrefilled_le limit t t' bucket htt' ⟨m, hmt, hm⟩
    refine ⟨htokens, ⟨m, hmt.trans htt', hm⟩, ?_⟩
    rw [credit_some]
    generalize unrefilled limit (instant t') bucket = left at hle ⊢
    generalize unrefilled limit (instant t) bucket = left' at hle ⊢
    omega

theorem bucketStep_eq_packetStep (limit burst : ℕ) (entry : Option RateBucket) (ms : ℕ) :
    bucketStep limit burst entry ms = packetStep limit burst entry (instant ms) := rfl

theorem packetStep_eq (limit burst now : ℕ) (entry : Option RateBucket) {filled : RateBucket}
    (h : refill limit burst now (entry.getD ⟨burst, now⟩) = filled) :
    packetStep limit burst entry now =
      if 0 < filled.tokens then (some { filled with tokens := filled.tokens - 1 }, true)
      else (some filled, false) := by
  rw [← h]
  rfl

theorem bucketInv_step {entry entry' : Option RateBucket} {admitted : Bool}
    (h : BucketInv burst t entry) (htt' : t ≤ t')
    (hstep : bucketStep limit burst entry t' = (entry', admitted)) :
    BucketInv burst t' entry' ∧
      credit limit burst t' entry' + 1000 * admitted.toNat ≤
        credit limit burst t entry + (t' - t) * limit ∧
      credit limit burst t' entry' + 1000 * admitted.toNat ≤ 1000 * burst + 999 := by
  obtain ⟨bucket, hbucket⟩ : ∃ bucket, entry.getD ⟨burst, instant t'⟩ = bucket := ⟨_, rfl⟩
  obtain ⟨htokens, ⟨m, hmt, hm⟩, hcredit⟩ := h.found limit htt' hbucket
  obtain ⟨hburst, hspent, hrest, hlast⟩ := refill_spec limit (instant t') htokens
  have hlast' : ∃ m ≤ t', (refill limit burst (instant t') bucket).lastRefill = instant m := by
    rcases hlast with hlast | hlast
    · exact ⟨m, hmt, hlast.trans hm⟩
    · exact ⟨t', le_rfl, hlast⟩
  have hcost := hspent.trans hcredit
  rw [bucketStep_eq_packetStep, packetStep_eq limit burst _ entry rfl, hbucket] at hstep
  generalize refill limit burst (instant t') bucket = filled at hburst hcost hrest hlast' hstep
  obtain ⟨tokens, lastRefill⟩ := filled
  dsimp only at hburst hlast' hcost hstep
  by_cases hpos : 0 < tokens
  · rw [if_pos hpos] at hstep
    obtain ⟨rfl, rfl⟩ := Prod.mk.inj hstep
    rw [bucketInv_some, credit_some, Bool.toNat_true]
    rw [unrefilled_tokens lastRefill tokens] at hcost hrest
    rw [unrefilled_tokens lastRefill (tokens - 1)]
    dsimp only
    generalize unrefilled limit (instant t') ⟨0, lastRefill⟩ = left at hcost hrest ⊢
    exact ⟨⟨by omega, hlast'⟩, by omega⟩
  · rw [if_neg hpos] at hstep
    obtain ⟨rfl, rfl⟩ := Prod.mk.inj hstep
    rw [bucketInv_some, credit_some, Bool.toNat_false]
    dsimp only
    generalize unrefilled limit (instant t') ⟨tokens, lastRefill⟩ = left at hcost hrest ⊢
    exact ⟨⟨hburst, hlast'⟩, by omega⟩

theorem metered (limit burst : ℕ) :
    Metered (bucketStep limit burst) (BucketInv burst) (credit limit burst) 1000
      (1000 * burst + 999) limit where
  keeps h htt' := (bucketInv_step h htt' Prod.mk.eta.symm).1
  spends h htt' := (bucketInv_step h htt' Prod.mk.eta.symm).2.1
  capped h htt' := (bucketInv_step h htt' Prod.mk.eta.symm).2.2

/-! ## All peers -/

/-- The decisions on packets from the given peers, that arrive at the given times in milliseconds. -/
def admissions (net : GossipNetwork Hs Ts) : List (ℕ × String) → List (ℕ × String × Bool)
  | [] => []
  | (ms, ip) :: arrivals =>
    (ms, ip, (net.checkRateLimit (instant ms) ip).2) ::
      admissions (net.checkRateLimit (instant ms) ip).1 arrivals

/-- The number of packets of a peer that are admitted in an interval. -/
def admittedFrom (peer : String) (a b : ℕ) (ds : List (ℕ × String × Bool)) : ℕ :=
  ds.countP fun d => d.2.2 && decide (d.2.1 = peer ∧ a ≤ d.1 ∧ d.1 ≤ b)

theorem checkRateLimit_of_refill (net : GossipNetwork Hs Ts) (ip : String) {filled : RateBucket}
    (h : refill net.peerRateLimit net.peerRateBurst now
      ((net.rateLimits.lookup ip).getD ⟨net.peerRateBurst, now⟩) = filled) :
    net.checkRateLimit now ip =
      if 0 < filled.tokens then
        ({ net with
            rateLimits := net.rateLimits.insert ip { filled with tokens := filled.tokens - 1 } },
          true)
      else ({ net with rateLimits := net.rateLimits.insert ip filled }, false) := by
  rw [← h]
  rfl

/-- A packet is decided on with the bucket of its peer, and no other bucket changes. -/
theorem checkRateLimit_spec (net : GossipNetwork Hs Ts) (now : ℕ) (ip : String)
    {net' : GossipNetwork Hs Ts} {admitted : Bool}
    (h : net.checkRateLimit now ip = (net', admitted)) :
    packetStep net.peerRateLimit net.peerRateBurst (net.rateLimits.lookup ip) now =
        (net'.rateLimits.lookup ip, admitted) ∧
      (∀ peer ≠ ip, net'.rateLimits.lookup peer = net.rateLimits.lookup peer) ∧
      net'.peerRateLimit = net.peerRateLimit ∧ net'.peerRateBurst = net.peerRateBurst := by
  obtain ⟨filled, hfilled⟩ : ∃ filled, refill net.peerRateLimit net.peerRateBurst now
      ((net.rateLimits.lookup ip).getD ⟨net.peerRateBurst, now⟩) = filled := ⟨_, rfl⟩
  rw [checkRateLimit_of_refill net ip hfilled] at h
  rw [packetStep_eq _ _ _ _ hfilled]
  by_cases hpos : 0 < filled.tokens
  · rw [if_pos hpos] at h ⊢
    obtain ⟨rfl, rfl⟩ := Prod.mk.inj h
    refine ⟨?_, fun peer hne => AList.lookup_insert_ne hne, rfl, rfl⟩
    rw [AList.lookup_insert]
  · rw [if_neg hpos] at h ⊢
    obtain ⟨rfl, rfl⟩ := Prod.mk.inj h
    refine ⟨?_, fun peer hne => AList.lookup_insert_ne hne, rfl, rfl⟩
    rw [AList.lookup_insert]

/-- The packets of other peers do not matter. -/
theorem admittedFrom_admissions (net : GossipNetwork Hs Ts) (arrivals : List (ℕ × String))
    (peer : String) (a b : ℕ) :
    admittedFrom peer a b (net.admissions arrivals) =
      admittedIn a b (decisions (bucketStep net.peerRateLimit net.peerRateBurst)
        (net.rateLimits.lookup peer) ((arrivals.filter fun p => p.2 = peer).map Prod.fst)) := by
  induction arrivals generalizing net with
  | nil => rfl
  | cons arrival arrivals ih =>
    obtain ⟨ms, ip⟩ := arrival
    obtain ⟨net', admitted, hnet'⟩ : ∃ net' admitted,
        net.checkRateLimit (instant ms) ip = (net', admitted) := ⟨_, _, Prod.mk.eta.symm⟩
    obtain ⟨hown, hother, hlimit, hburst⟩ := net.checkRateLimit_spec (instant ms) ip hnet'
    have hcons : admittedFrom peer a b (net.admissions ((ms, ip) :: arrivals)) =
        admittedFrom peer a b (net'.admissions arrivals) +
          if ip = peer ∧ a ≤ ms ∧ ms ≤ b then admitted.toNat else 0 := by
      unfold admittedFrom
      rw [admissions, hnet', List.countP_cons]
      congr 1
      by_cases h : ip = peer ∧ a ≤ ms ∧ ms ≤ b
      · cases admitted <;> simp [h]
      · simp [h]
    rw [hcons, ih, hlimit, hburst, List.filter_cons]
    by_cases hip : ip = peer
    · subst hip
      rw [if_pos (decide_eq_true rfl), List.map_cons, admittedIn_cons, bucketStep_eq_packetStep, hown]
      simp only [true_and]
    · rw [if_neg (ne_true_of_eq_false (decide_eq_false hip)), hother peer (Ne.symm hip), if_neg fun h => hip h.1,
        Nat.add_zero]

section New

variable (noiseStaticSecret : ByteArr 32) (noiseRequired : Bool) (limit burst : ℕ)

theorem new_rateLimits :
    (new noiseStaticSecret noiseRequired limit burst : GossipNetwork Hs Ts).rateLimits = ∅ := rfl

theorem new_peerRateLimit :
    (new noiseStaticSecret noiseRequired limit burst : GossipNetwork Hs Ts).peerRateLimit =
      limit := rfl

theorem new_peerRateBurst :
    (new noiseStaticSecret noiseRequired limit burst : GossipNetwork Hs Ts).peerRateBurst =
      burst := rfl

end New

/-- In any interval a peer gets no more packets through than its bucket holds and the rate allows for
the length of the interval, rounded up. -/
theorem checkRateLimit_window (noiseStaticSecret : ByteArr 32) (noiseRequired : Bool)
    (peerRateLimit peerRateBurst : ℕ) {arrivals : List (ℕ × String)}
    (hsorted : (arrivals.map Prod.fst).Pairwise (· ≤ ·)) (peer : String) (a b : ℕ) :
    admittedFrom peer a b ((new noiseStaticSecret noiseRequired peerRateLimit peerRateBurst :
        GossipNetwork Hs Ts).admissions arrivals) ≤
      peerRateBurst + ((b - a) * peerRateLimit + 999) / 1000 := by
  have hnone : BucketInv peerRateBurst 0 none := fun _ h => by cases h
  have htimes : (0 :: (arrivals.filter fun p => p.2 = peer).map Prod.fst).Pairwise (· ≤ ·) :=
    List.pairwise_cons.mpr ⟨fun _ _ => Nat.zero_le _,
      hsorted.sublist (List.filter_sublist.map Prod.fst)⟩
  have hwindow := (metered peerRateLimit peerRateBurst).window hnone htimes a b
  rw [admittedFrom_admissions, new_rateLimits, AList.lookup_empty, new_peerRateLimit,
    new_peerRateBurst]
  generalize admittedIn a b _ = admitted at hwindow ⊢
  omega

/-- Three packets within a millisecond, with a burst of two. -/
theorem checkRateLimit_window_two :
    admittedFrom "a" 0 1 ((new (zeros 32) true 50 2 : GossipNetwork Unit Unit).admissions
      [(0, "a"), (0, "a"), (1, "b"), (1, "a")]) ≤ 2 + ((1 - 0) * 50 + 999) / 1000 :=
  checkRateLimit_window (zeros 32) true 50 2 (by decide) "a" 0 1

end GossipNetwork

end Aimp.Network
