import Mathlib.Data.List.Induction
import Mathlib.Tactic.TypeStar

/-!
# Runs of a labelled transition system

`Run step s ms t`: handling the messages `ms` one after another takes the system from `s` to `t`.
-/

/-- A finite run: the messages handled, in order, and the states before and after. -/
inductive Run {σ μ : Type*} (step : σ → μ → σ → Prop) (s : σ) : List μ → σ → Prop where
  | nil : Run step s [] s
  | snoc {ms : List μ} {m : μ} {t u : σ} (hrun : Run step s ms t) (hstep : step t m u) :
      Run step s (ms ++ [m]) u

namespace Run

variable {σ μ : Type*} {step step' : σ → μ → σ → Prop} {s t : σ} {ms : List μ}

/-- What holds initially and is preserved by every step holds after every run. -/
theorem invariant {P : σ → Prop} (hrun : Run step s ms t) (hinit : P s)
    (hstep : ∀ {t m u}, P t → step t m u → P u) : P t := by
  induction hrun with
  | nil => exact hinit
  | snoc _ hlast ih => exact hstep ih hlast

/-- What every step preserves holds before every step of a run. -/
theorem with_invariant {P : σ → Prop} (hrun : Run step s ms t) (hinit : P s)
    (hstep : ∀ {t m u}, P t → step t m u → P u) : Run (fun t m u => P t ∧ step t m u) s ms t := by
  induction hrun with
  | nil => exact .nil
  | snoc hrun hlast ih => exact .snoc ih ⟨hrun.invariant hinit hstep, hlast⟩

/-- A run whose steps are also steps of a second system is a run of that system. -/
theorem mono (hrun : Run step s ms t) (hsub : ∀ {t m u}, step t m u → step' t m u) :
    Run step' s ms t := by
  induction hrun with
  | nil => exact .nil
  | snoc _ hlast ih => exact .snoc ih (hsub hlast)

/-- A run of one step. -/
theorem single {m : μ} (h : step s m t) : Run step s [m] t := .snoc .nil h

/-- The last step of a run. -/
theorem concat_inv {m : μ} (hrun : Run step s (ms ++ [m]) t) : ∃ u, Run step s ms u ∧ step u m t := by
  generalize hl : ms ++ [m] = l at hrun
  cases hrun with
  | nil => simp at hl
  | snoc hrun hstep =>
    obtain ⟨rfl, hm⟩ := List.append_inj' hl rfl
    obtain rfl := List.singleton_inj.mp hm
    exact ⟨_, hrun, hstep⟩

/-- Two runs, one after the other. -/
theorem trans {u : σ} {ms' : List μ} (hrun : Run step s ms t) (hrun' : Run step t ms' u) :
    Run step s (ms ++ ms') u := by
  induction hrun' with
  | nil => rwa [List.append_nil]
  | snoc _ hlast ih =>
    rw [← List.append_assoc]
    exact .snoc ih hlast

/-- A run of two lists of messages has a state in the middle. -/
theorem split {ms ms' : List μ} {u : σ} (hrun : Run step s (ms ++ ms') u) :
    ∃ t, Run step s ms t ∧ Run step t ms' u := by
  induction ms' using List.reverseRecOn generalizing u with
  | nil => exact ⟨u, by rwa [List.append_nil] at hrun, .nil⟩
  | append_singleton ms' m ih =>
    rw [← List.append_assoc] at hrun
    obtain ⟨v, hrun, hlast⟩ := hrun.concat_inv
    obtain ⟨t, hrun, hrun'⟩ := ih hrun
    exact ⟨t, hrun, hrun'.snoc hlast⟩

/-- A step in the middle of a run. -/
theorem split_at {ms ms' : List μ} {m : μ} {u : σ} (hrun : Run step s (ms ++ m :: ms') u) :
    ∃ t v, Run step s ms t ∧ step t m v ∧ Run step v ms' u := by
  rw [List.append_cons] at hrun
  obtain ⟨v, hrun, hrest⟩ := hrun.split
  obtain ⟨t, hrun, hstep⟩ := hrun.concat_inv
  exact ⟨t, v, hrun, hstep, hrest⟩

/-- Forward simulation: if a second system matches every step by a run of its own, it matches every
run. -/
theorem simulation {σ' μ' : Type*} {next : σ' → μ' → σ' → Prop} {R : σ → σ' → Prop} {s' : σ'}
    (hrun : Run step s ms t) (hinit : R s s')
    (hstep : ∀ {t m u t'}, R t t' → step t m u → ∃ ms' u', Run next t' ms' u' ∧ R u u') :
    ∃ ms' t', Run next s' ms' t' ∧ R t t' := by
  induction hrun with
  | nil => exact ⟨[], s', .nil, hinit⟩
  | snoc _ hlast ih =>
    obtain ⟨ms', t', hrun', hR⟩ := ih
    obtain ⟨ms'', u', hlast', hR'⟩ := hstep hR hlast
    exact ⟨ms' ++ ms'', u', hrun'.trans hlast', hR'⟩

/-- Every step of a run handles one of its messages. -/
theorem with_mem (hrun : Run step s ms t) : Run (fun t m u => m ∈ ms ∧ step t m u) s ms t := by
  induction hrun with
  | nil => exact .nil
  | snoc _ hlast ih =>
    refine .snoc (ih.mono ?_) ⟨List.mem_append_right _ (List.mem_singleton_self _), hlast⟩
    intro t m u ⟨hmem, hstep⟩
    exact ⟨List.mem_append_left _ hmem, hstep⟩

/-- The run of an executable system. -/
theorem of_exec {step : σ → μ → Option σ} (h : ms.foldlM step s = some t) :
    Run (fun s m t => step s m = some t) s ms t := by
  induction ms using List.reverseRecOn generalizing t with
  | nil =>
    obtain rfl := Option.some.inj h
    exact .nil
  | append_singleton ms m ih =>
    rw [List.foldlM_append] at h
    obtain ⟨u, hu, hm⟩ := Option.bind_eq_some_iff.mp h
    rw [List.foldlM_cons] at hm
    obtain ⟨v, hv, hvt⟩ := Option.bind_eq_some_iff.mp hm
    obtain rfl := Option.some.inj hvt
    exact .snoc (ih hu) hv

/-- The run of an executable system that stops where a condition on its steps fails. -/
theorem of_checked {step : σ → μ → Option σ} {C : σ → μ → Prop} [∀ s m, Decidable (C s m)]
    (h : ms.foldlM (fun s m => if C s m then step s m else none) s = some t) :
    Run (fun s m t => step s m = some t ∧ C s m) s ms t := by
  refine (of_exec h).mono ?_
  intro u m v huv
  split at huv
  · rename_i hC
    exact ⟨huv, hC⟩
  · cases huv

end Run
