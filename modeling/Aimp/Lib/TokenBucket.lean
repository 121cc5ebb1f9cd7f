import Mathlib.Algebra.Order.Ring.Nat
import Mathlib.Data.List.Count
import Mathlib.Tactic.Ring
import Mathlib.Tactic.TypeStar

/-!
# Token buckets

A server decides at given times whether it admits a request. If every admission costs credit, and the
credit grows no faster than with a fixed rate and is capped, then the number of admissions in an interval
is bounded by the cap and the length of the interval (`Metered.window`).
-/

namespace TokenBucket

variable {σ : Type*}

/-- The decisions on requests at the given times. -/
def decisions (step : σ → ℕ → σ × Bool) : σ → List ℕ → List (ℕ × Bool)
  | _, [] => []
  | s, t :: ts => (t, (step s t).2) :: decisions step (step s t).1 ts

/-- The number of admissions in an interval. -/
def admittedIn (a b : ℕ) (ds : List (ℕ × Bool)) : ℕ :=
  ds.countP fun d => d.2 && decide (a ≤ d.1 ∧ d.1 ≤ b)

/-- The credit `credit t s` of the state `s` at the time `t` of the last request pays for the admissions:
it grows by at most `rate` for a unit of time, and a request leaves no more than `capacity` of it, its own
cost included. -/
structure Metered (step : σ → ℕ → σ × Bool) (inv : ℕ → σ → Prop) (credit : ℕ → σ → ℕ)
    (cost capacity rate : ℕ) : Prop where
  keeps : ∀ {s t t'}, inv t s → t ≤ t' → inv t' (step s t').1
  spends : ∀ {s t t'}, inv t s → t ≤ t' →
    credit t' (step s t').1 + cost * (step s t').2.toNat ≤ credit t s + (t' - t) * rate
  capped : ∀ {s t t'}, inv t s → t ≤ t' →
    credit t' (step s t').1 + cost * (step s t').2.toNat ≤ capacity

section Run

variable {step : σ → ℕ → σ × Bool} {inv : ℕ → σ → Prop} {credit : ℕ → σ → ℕ}
  {cost capacity rate : ℕ} {s : σ} {t : ℕ} {ts : List ℕ}

theorem admittedIn_cons (a b : ℕ) (s : σ) (t : ℕ) (ts : List ℕ) :
    admittedIn a b (decisions step s (t :: ts)) =
      admittedIn a b (decisions step (step s t).1 ts) +
        if a ≤ t ∧ t ≤ b then (step s t).2.toNat else 0 := by
  unfold admittedIn
  rw [decisions, List.countP_cons]
  congr 1
  by_cases h : a ≤ t ∧ t ≤ b
  · cases (step s t).2 <;> simp [h]
  · simp [h]

/-- Requests after the end of the interval do not count. -/
theorem admittedIn_late (a : ℕ) {b : ℕ} (h : ∀ t ∈ ts, b < t) :
    admittedIn a b (decisions step s ts) = 0 := by
  induction ts generalizing s with
  | nil => rfl
  | cons t ts ih =>
    obtain ⟨ht, hts⟩ := List.forall_mem_cons.mp h
    rw [admittedIn_cons, ih hts, if_neg fun hle => absurd hle.2 (not_le.mpr ht)]

/-- From some request on, the admissions up to a time are paid for by the credit at hand and what is
gained until then. -/
theorem Metered.upTo (h : Metered step inv credit cost capacity rate) (hinv : inv t s)
    (hts : (t :: ts).Pairwise (· ≤ ·)) (a : ℕ) {b : ℕ} (hb : t ≤ b) :
    cost * admittedIn a b (decisions step s ts) ≤ credit t s + (b - t) * rate := by
  induction ts generalizing s t with
  | nil => exact Nat.zero_le _
  | cons t' ts ih =>
    have htt' : t ≤ t' := List.rel_of_pairwise_cons hts (List.mem_cons_self ..)
    have hts' := (List.pairwise_cons.mp hts).2
    rw [admittedIn_cons]
    by_cases hb' : t' ≤ b
    · have hrest := ih (h.keeps hinv htt') hts' hb'
      have hspends := h.spends hinv htt'
      have hgain : (b - t) * rate = (t' - t) * rate + (b - t') * rate := by
        rw [← Nat.add_mul]
        congr 1
        omega
      have hstep : cost * (if a ≤ t' ∧ t' ≤ b then (step s t').2.toNat else 0) ≤
          cost * (step s t').2.toNat := by
        refine Nat.mul_le_mul_left cost ?_
        split
        · exact le_rfl
        · exact Nat.zero_le _
      rw [Nat.mul_add, hgain]
      omega
    · -- this request and all later ones are too late
      have hlate : ∀ t ∈ ts, b < t := fun t ht =>
        (not_le.mp hb').trans_le (List.rel_of_pairwise_cons hts' ht)
      rw [admittedIn_late a hlate, if_neg fun h => hb' h.2]
      exact Nat.zero_le _

/-- The admissions in an interval are paid for by a full account and what is gained in the interval. -/
theorem Metered.window (h : Metered step inv credit cost capacity rate) (hinv : inv t s)
    (hts : (t :: ts).Pairwise (· ≤ ·)) (a b : ℕ) :
    cost * admittedIn a b (decisions step s ts) ≤ capacity + (b - a) * rate := by
  induction ts generalizing s t with
  | nil => exact Nat.zero_le _
  | cons t' ts ih =>
    have htt' : t ≤ t' := List.rel_of_pairwise_cons hts (List.mem_cons_self ..)
    have hts' := (List.pairwise_cons.mp hts).2
    rw [admittedIn_cons]
    by_cases hin : a ≤ t' ∧ t' ≤ b
    · -- the first request in the interval leaves no more credit than the capacity
      have hrest := h.upTo (h.keeps hinv htt') hts' a hin.2
      have hcapped := h.capped hinv htt'
      have hgain : (b - t') * rate ≤ (b - a) * rate := Nat.mul_le_mul_right rate (by omega)
      rw [if_pos hin, Nat.mul_add]
      omega
    · rw [if_neg hin, Nat.add_zero]
      exact ih (h.keeps hinv htt') hts'

end Run

/-! ## Whole runs -/

/-- The number of admitted requests. -/
def admitted (step : σ → ℕ → σ × Bool) (s : σ) (ts : List ℕ) : ℕ :=
  (decisions step s ts).countP Prod.snd

/-- Every request meets a condition on the state that it finds. -/
def Each (step : σ → ℕ → σ × Bool) (P : σ → ℕ → Prop) : σ → List ℕ → Prop
  | _, [] => True
  | s, t :: ts => P s t ∧ Each step P (step s t).1 ts

/-- Requests at the given times, each of which meets the condition, lead from one state to another, and the
given number of them is admitted. -/
inductive Serves (step : σ → ℕ → σ × Bool) (P : σ → ℕ → Prop) : σ → List ℕ → ℕ → σ → Prop where
  | nil {s : σ} : Serves step P s [] 0 s
  | cons {s s' s'' : σ} {t n : ℕ} {b : Bool} {ts : List ℕ} (hP : P s t) (hstep : step s t = (s', b))
      (hrest : Serves step P s' ts n s'') : Serves step P s (t :: ts) (b.toNat + n) s''

section Serve

variable {τ : Type*} {step : σ → ℕ → σ × Bool} {step' : τ → ℕ → τ × Bool} {P : σ → ℕ → Prop}
  {s s' s'' : σ} {q : τ} {t n k d : ℕ} {ts us : List ℕ}

theorem admitted_cons (step : σ → ℕ → σ × Bool) (s : σ) (t : ℕ) (ts : List ℕ) :
    admitted step s (t :: ts) = (step s t).2.toNat + admitted step (step s t).1 ts := by
  unfold admitted
  rw [decisions, List.countP_cons, Nat.add_comm]
  cases (step s t).2 <;> rfl

theorem Serves.single {b : Bool} (hP : P s t) (hstep : step s t = (s', b)) :
    Serves step P s [t] b.toNat s' := .cons hP hstep .nil

theorem Serves.append (h : Serves step P s ts n s') (h' : Serves step P s' us k s'') :
    Serves step P s (ts ++ us) (n + k) s'' := by
  induction h with
  | nil =>
    rw [Nat.zero_add]
    exact h'
  | cons hP hstep _ ih =>
    rw [Nat.add_assoc]
    exact .cons hP hstep (ih h')

theorem Serves.admitted_eq (h : Serves step P s ts n s') : admitted step s ts = n := by
  induction h with
  | nil => rfl
  | cons _ hstep _ ih => rw [admitted_cons, hstep, ih]

theorem Serves.each (h : Serves step P s ts n s') : Each step P s ts := by
  induction h with
  | nil => trivial
  | cons hP hstep _ ih =>
    refine ⟨hP, ?_⟩
    rw [hstep]
    exact ih

/-- A server that is never overtaken: at every request the admissions that it leads by change as the
relation between the two servers demands. -/
theorem admitted_le (R : ℕ → ℕ → σ → τ → Prop)
    (hstep : ∀ {t t' d s q}, R t d s q → t ≤ t' → P s t' → ∃ d', R t' d' (step s t').1 (step' q t').1 ∧
      d' + (step' q t').2.toNat = d + (step s t').2.toNat)
    (h : R t d s q) (hts : (t :: ts).Pairwise (· ≤ ·)) (heach : Each step P s ts) :
    admitted step' q ts ≤ d + admitted step s ts := by
  induction ts generalizing t d s q with
  | nil => exact Nat.zero_le _
  | cons t' ts ih =>
    obtain ⟨hP, hrest⟩ := heach
    have htt' : t ≤ t' := List.rel_of_pairwise_cons hts (List.mem_cons_self ..)
    obtain ⟨d', hR, hlead⟩ := hstep h htt' hP
    have hle := ih hR (List.pairwise_cons.mp hts).2 hrest
    rw [admitted_cons, admitted_cons]
    omega

end Serve

end TokenBucket
