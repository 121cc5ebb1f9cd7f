import Mathlib.Algebra.Order.Field.Basic
import Mathlib.Tactic.NormNum
import Mathlib.Tactic.Positivity
import Aimp.Lib.ExactBucket
import Aimp.Network.Proofs.RateProofs

/-!
# What a refill loses

A refill adds the whole tokens for the whole milliseconds since the last one, and starts the time anew. What
is left over is lost, and a peer whose packets arrive at such moments falls behind an exact bucket without
bound. It does not if less than a token is due at every packet, or exactly what is added, or the bucket is
full.
-/

namespace Aimp.Network

namespace GossipNetwork

open TokenBucket

variable {Hs Ts : Type} {limit burst now t t' d : ℕ} {bucket : RateBucket} {entry : Option RateBucket}
  {q : ExactBucket}

/-! ## One refill -/

/-- What a peer is due since the last refill, in billionths of a token. -/
def due (limit now : ℕ) (bucket : RateBucket) : ℕ := (now - bucket.lastRefill) * limit

/-- The tokens that a refill adds, if nothing overflows. -/
def refilled (limit now : ℕ) (bucket : RateBucket) : ℕ :=
  (now - bucket.lastRefill) / 10 ^ 6 * limit / 1000

/-- The product and the sum of a refill fit into their type. -/
def Fits (limit now : ℕ) (bucket : RateBucket) : Prop :=
  (now - bucket.lastRefill) / 10 ^ 6 * limit < 2 ^ 64 ∧
    bucket.tokens + refilled limit now bucket < 2 ^ 64

/-- A refill that loses nothing: less than a token is due, or exactly what is added, or the bucket is full. -/
def Lossless (limit burst now : ℕ) (bucket : RateBucket) : Prop :=
  due limit now bucket < 10 ^ 9 ∨ due limit now bucket = refilled limit now bucket * 10 ^ 9 ∨
    burst ≤ bucket.tokens + refilled limit now bucket

/-- The bucket that a packet finds. -/
def found (burst now : ℕ) (entry : Option RateBucket) : RateBucket := entry.getD ⟨burst, now⟩

/-- The tokens for a nanosecond. -/
def perNano (limit : ℕ) : ℚ := limit / 10 ^ 9

theorem refill_of_fits (burst : ℕ) (h : Fits limit now bucket) :
    refill limit burst now bucket =
      if 0 < refilled limit now bucket then
        ⟨min (bucket.tokens + refilled limit now bucket) burst, now⟩
      else bucket := by
  obtain ⟨hproduct, hsum⟩ := h
  unfold refilled at hsum ⊢
  unfold refill
  dsimp only
  rw [Nat.mod_mul_mod, Nat.mod_eq_of_lt hproduct, Nat.mod_eq_of_lt hsum]

theorem refilled_eq_zero (h : due limit now bucket < 10 ^ 9) : refilled limit now bucket = 0 := by
  unfold due at h
  unfold refilled
  generalize now - bucket.lastRefill = elapsed at h ⊢
  have hle : elapsed / 10 ^ 6 * limit * 10 ^ 6 ≤ elapsed * limit := by
    rw [Nat.mul_right_comm]
    exact Nat.mul_le_mul_right limit (Nat.div_mul_le_self _ _)
  exact Nat.div_eq_of_lt (by omega)

theorem cast_due (h : bucket.lastRefill ≤ now) :
    ((now : ℚ) - bucket.lastRefill) * perNano limit = due limit now bucket / 10 ^ 9 := by
  unfold due perNano
  rw [Nat.cast_mul, Nat.cast_sub h, mul_div_assoc]

/-- A refill that adds tokens adds all that is due, or fills the bucket. -/
theorem le_of_added {x : ℚ} (hpos : 0 < refilled limit now bucket)
    (hlossless : Lossless limit burst now bucket) (hburst : x ≤ burst)
    (hx : x ≤ d + bucket.tokens + (due limit now bucket : ℚ) / 10 ^ 9) :
    x ≤ d + min (bucket.tokens + refilled limit now bucket : ℚ) burst := by
  have hd : (0 : ℚ) ≤ d := Nat.cast_nonneg d
  rw [← min_add_add_left]
  refine le_min ?_ (by linarith)
  rcases hlossless with hless | hexact | hfull
  · exact absurd (refilled_eq_zero hless) hpos.ne'
  · rw [hexact, Nat.cast_mul] at hx
    have hcancel : (refilled limit now bucket : ℚ) * ((10 ^ 9 : ℕ) : ℚ) / 10 ^ 9 =
        refilled limit now bucket := by norm_num
    rw [hcancel] at hx
    linarith
  · have hcast : (burst : ℚ) ≤ bucket.tokens + refilled limit now bucket := by exact_mod_cast hfull
    linarith

/-- Where nothing is added to an empty bucket, less than a token is due. -/
theorem lt_of_kept {x : ℚ} (hzero : refilled limit now bucket = 0) (htokens : bucket.tokens = 0)
    (hlossless : Lossless limit burst now bucket) (hburst : x ≤ burst)
    (hx : x ≤ d + bucket.tokens + (due limit now bucket : ℚ) / 10 ^ 9) : x < d + 1 := by
  have hd : (0 : ℚ) ≤ d := Nat.cast_nonneg d
  rw [htokens, Nat.cast_zero] at hx
  rcases hlossless with hless | hexact | hfull
  · have hcast : (due limit now bucket : ℚ) < 10 ^ 9 := by exact_mod_cast hless
    have hone : (due limit now bucket : ℚ) / 10 ^ 9 < 1 := by
      rw [div_lt_one (by positivity)]
      exact hcast
    linarith
  · rw [hexact, hzero] at hx
    norm_num at hx
    linarith
  · have hburst' : burst = 0 := by omega
    rw [hburst', Nat.cast_zero] at hburst
    linarith

/-- A refill without loss leaves no less than an exact bucket holds, up to what has been admitted in
advance; and an exact bucket holds no further token if no token is left. -/
theorem refill_lossless {x : ℚ} (hfits : Fits limit now bucket) (hlossless : Lossless limit burst now bucket)
    (hlast : bucket.lastRefill ≤ now) (hburst : x ≤ burst)
    (hx : x ≤ d + bucket.tokens + ((now : ℚ) - bucket.lastRefill) * perNano limit) :
    (refill limit burst now bucket).lastRefill ≤ now ∧
      x ≤ d + (refill limit burst now bucket).tokens +
        ((now : ℚ) - (refill limit burst now bucket).lastRefill) * perNano limit ∧
      ((refill limit burst now bucket).tokens = 0 → x < d + 1) := by
  rw [cast_due hlast] at hx
  rw [refill_of_fits burst hfits]
  by_cases hpos : 0 < refilled limit now bucket
  · rw [if_pos hpos, sub_self, zero_mul, add_zero]
    dsimp only
    rw [Nat.cast_min, Nat.cast_add]
    refine ⟨le_rfl, le_of_added hpos hlossless hburst hx, fun hzero => ?_⟩
    have hburst' : burst = 0 := by omega
    have hd : (0 : ℚ) ≤ d := Nat.cast_nonneg d
    rw [hburst', Nat.cast_zero] at hburst
    linarith
  · rw [if_neg hpos, cast_due hlast]
    exact ⟨hlast, hx, fun hzero => lt_of_kept (Nat.eq_zero_of_not_pos hpos) hzero hlossless hburst hx⟩

/-! ## One peer -/

/-- The bucket of a peer has admitted so many packets more than the exact one, and holds no less than it
otherwise. -/
structure Ahead (limit burst t d : ℕ) (entry : Option RateBucket) (q : ExactBucket) : Prop where
  last_le : q.last ≤ t
  le_burst : q.tokens ≤ burst
  bucket : ∀ bucket ∈ entry, bucket.lastRefill ≤ q.last ∧
    q.tokens ≤ d + bucket.tokens + ((q.last : ℚ) - bucket.lastRefill) * perNano limit

/-- What the exact bucket holds at a packet, against the bucket that the packet finds. -/
theorem Ahead.found (h : Ahead limit burst t d entry q) (htt' : t ≤ t') :
    (found burst t' entry).lastRefill ≤ t' ∧
      q.tokensAt (perNano limit) burst t' ≤ d + (found burst t' entry).tokens +
        ((t' : ℚ) - (found burst t' entry).lastRefill) * perNano limit := by
  unfold GossipNetwork.found ExactBucket.tokensAt
  cases entry with
  | none =>
    rw [Option.getD_none, sub_self, zero_mul, add_zero]
    have hd : (0 : ℚ) ≤ d := Nat.cast_nonneg d
    exact ⟨le_rfl, (min_le_left _ _).trans (by linarith)⟩
  | some bucket =>
    obtain ⟨hlast, htokens⟩ := h.bucket bucket rfl
    rw [Option.getD_some]
    exact ⟨hlast.trans (h.last_le.trans htt'), (min_le_right _ _).trans (by linarith)⟩

theorem Ahead.step (h : Ahead limit burst t d entry q) (htt' : t ≤ t')
    (hfits : Fits limit t' (GossipNetwork.found burst t' entry))
    (hlossless : Lossless limit burst t' (GossipNetwork.found burst t' entry)) :
    ∃ d', Ahead limit burst t' d' (packetStep limit burst entry t').1
        (q.step (perNano limit) burst t').1 ∧
      d' + (q.step (perNano limit) burst t').2.toNat = d + (packetStep limit burst entry t').2.toNat := by
  obtain ⟨hfound, hx⟩ := h.found htt'
  have hburst : q.tokensAt (perNano limit) burst t' ≤ burst := min_le_left _ _
  obtain ⟨hlast, hle, hnone⟩ := refill_lossless hfits hlossless hfound hburst hx
  obtain ⟨q', b, hq'⟩ : ∃ q' b, q.step (perNano limit) burst t' = (q', b) := ⟨_, _, Prod.mk.eta.symm⟩
  obtain ⟨hqlast, hqtokens, hb⟩ := ExactBucket.step_spec _ _ q t' hq'
  rw [packetStep_eq limit burst t' entry rfl, hq']
  unfold GossipNetwork.found at hlast hle hnone
  generalize refill limit burst t' (entry.getD ⟨burst, t'⟩) = filled at hlast hle hnone ⊢
  generalize q.tokensAt (perNano limit) burst t' = x at hburst hle hnone hqtokens hb
  have hb0 : (0 : ℚ) ≤ b.toNat := Nat.cast_nonneg _
  by_cases hpos : 0 < filled.tokens
  · rw [if_pos hpos]
    have hb1 : b.toNat ≤ 1 := Bool.toNat_le b
    refine ⟨d + 1 - b.toNat, ⟨hqlast.le, by linarith, ?_⟩, by simp; omega⟩
    intro bucket hbucket
    obtain rfl := Option.some.inj hbucket
    dsimp only
    rw [hqlast, hqtokens, Nat.cast_sub (by omega), Nat.cast_sub (Nat.one_le_of_lt hpos)]
    refine ⟨hlast, ?_⟩
    push_cast
    linarith
  · rw [if_neg hpos]
    have hlead : b.toNat ≤ d := by
      cases hbool : b with
      | false => exact Nat.zero_le _
      | true =>
        have hone := hb.mp hbool
        have hlt := hnone (Nat.eq_zero_of_not_pos hpos)
        have hcast : (0 : ℚ) < d := by linarith
        exact Nat.cast_pos.mp hcast
    refine ⟨d - b.toNat, ⟨hqlast.le, by linarith, ?_⟩, by simp; omega⟩
    intro bucket hbucket
    obtain rfl := Option.some.inj hbucket
    rw [hqlast, hqtokens, Nat.cast_sub hlead]
    exact ⟨hlast, by linarith⟩

/-- The packets that a bucket decides on lose nothing, so that it does not fall behind. -/
theorem exact_le_admitted {ts : List ℕ} (hts : ts.Pairwise (· ≤ ·))
    (heach : Each (packetStep limit burst) (fun entry now =>
      Fits limit now (found burst now entry) ∧ Lossless limit burst now (found burst now entry)) none ts) :
    admitted (ExactBucket.step (perNano limit) burst) (.full burst) ts ≤
      admitted (packetStep limit burst) none ts := by
  have hfull : Ahead limit burst 0 0 none (.full burst) :=
    ⟨le_rfl, le_rfl, fun bucket hbucket => by cases hbucket⟩
  have hts' : (0 :: ts).Pairwise (· ≤ ·) := List.pairwise_cons.mpr ⟨fun _ _ => Nat.zero_le _, hts⟩
  have hle := admitted_le (fun t d entry q => Ahead limit burst t d entry q)
    (fun hahead htt' hP => hahead.step htt' hP.1 hP.2) hfull hts' heach
  rwa [Nat.zero_add] at hle

end GossipNetwork

end Aimp.Network
