import Mathlib.Algebra.Order.Field.Rat
import Mathlib.Tactic.Linarith
import Aimp.Lib.TokenBucket

/-!
# The exact token bucket

It counts parts of tokens, so that no time is lost. A server that holds no less than it, what it has
admitted in advance included, never admits fewer requests (`TokenBucket.admitted_le`); how many the exact
bucket admits at least follows from a lower bound on what it holds (`ExactBucket.Holds`).
-/

namespace TokenBucket

/-- The tokens of a bucket after its last request, and the time of that request. -/
structure ExactBucket where
  tokens : ℚ
  last : ℕ

namespace ExactBucket

variable {rate burst x y : ℚ} {q : ExactBucket} {t t' k : ℕ}

/-- The tokens at a time after the last request. -/
def tokensAt (rate burst : ℚ) (q : ExactBucket) (t : ℕ) : ℚ :=
  min burst (q.tokens + ((t : ℚ) - q.last) * rate)

/-- A request takes a token, if there is a whole one. -/
def step (rate burst : ℚ) (q : ExactBucket) (t : ℕ) : ExactBucket × Bool :=
  if 1 ≤ q.tokensAt rate burst t then (⟨q.tokensAt rate burst t - 1, t⟩, true)
  else (⟨q.tokensAt rate burst t, t⟩, false)

/-- The bucket before the first request. -/
def full (burst : ℚ) : ExactBucket := ⟨burst, 0⟩

theorem step_spec (rate burst : ℚ) (q : ExactBucket) (t : ℕ) {q' : ExactBucket} {b : Bool}
    (h : q.step rate burst t = (q', b)) :
    q'.last = t ∧ q'.tokens = q.tokensAt rate burst t - b.toNat ∧
      (b = true ↔ 1 ≤ q.tokensAt rate burst t) := by
  unfold step at h
  split at h
  · rename_i hone
    obtain ⟨rfl, rfl⟩ := Prod.mk.inj h
    exact ⟨rfl, by simp, iff_of_true rfl hone⟩
  · rename_i hone
    obtain ⟨rfl, rfl⟩ := Prod.mk.inj h
    exact ⟨rfl, by simp, iff_of_false Bool.false_ne_true hone⟩

/-- The bucket would hold so many tokens at a time, if it were large enough. -/
structure Holds (rate x : ℚ) (t : ℕ) (q : ExactBucket) : Prop where
  last_le : q.last ≤ t
  le : x ≤ q.tokens + ((t : ℚ) - q.last) * rate

theorem Holds.mono (h : Holds rate x t q) (hyx : y ≤ x) : Holds rate y t q :=
  ⟨h.last_le, hyx.trans h.le⟩

theorem Holds.wait (h : Holds rate x t q) (htt' : t ≤ t') :
    Holds rate (x + ((t' : ℚ) - t) * rate) t' q := by
  refine ⟨h.last_le.trans htt', ?_⟩
  have hle := h.le
  linarith

/-- A whole token is enough for a request. -/
theorem Holds.admit (h : Holds rate x t q) (hone : 1 ≤ x) (hburst : x ≤ burst) :
    ∃ q', q.step rate burst t = (q', true) ∧ Holds rate (x - 1) t q' := by
  have htokens : x ≤ q.tokensAt rate burst t := le_min hburst h.le
  refine ⟨⟨q.tokensAt rate burst t - 1, t⟩, if_pos (hone.trans htokens), le_rfl, ?_⟩
  dsimp only
  linarith

/-- So many requests at a time are admitted as there are whole tokens. -/
theorem Holds.serve (h : Holds rate x t q) (hk : k ≤ x) (hburst : x ≤ burst) :
    ∃ q', Serves (step rate burst) (fun _ _ => True) q (List.replicate k t) k q' ∧
      Holds rate (x - k) t q' := by
  induction k generalizing x q with
  | zero =>
    rw [Nat.cast_zero, sub_zero]
    exact ⟨q, .nil, h⟩
  | succ k ih =>
    rw [Nat.cast_succ] at hk
    have hone : 1 ≤ x := by
      have hzero : (0 : ℚ) ≤ k := Nat.cast_nonneg k
      linarith
    obtain ⟨q', hstep, hq'⟩ := h.admit hone hburst
    obtain ⟨q'', hserve, hq''⟩ := ih hq' (by linarith) (by linarith)
    refine ⟨q'', ?_, ?_⟩
    · rw [List.replicate_succ, Nat.add_comm]
      exact .cons trivial hstep hserve
    · rw [Nat.cast_succ]
      exact hq''.mono (by linarith)

end ExactBucket

end TokenBucket
