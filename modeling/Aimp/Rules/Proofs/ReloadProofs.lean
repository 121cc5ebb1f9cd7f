import Aimp.Rules.Dispatcher
import Aimp.Lib.Run

/-!
# Hot reload

`try_hot_reload` records the hash of the new rules, releases the lock and then swaps in the engine. A call
that is overtaken between the two puts older rules in place of newer ones, and as the recorded hash is the
newer one, no later call repairs this.
-/

namespace Aimp.Rules

namespace HotReload

variable {P : Runtime} {s t : HotReload} {a : ReloadAction} {i j : ℕ} {e : DecisionEngine}
  {d : DecisionDispatcher} {file : Option String} {actions : List ReloadAction}

/-! ## Properties of states -/

/-- The dispatcher of a node that starts. -/
def Fresh (P : Runtime) (d : DecisionDispatcher) : Prop :=
  (∃ file, d = .new P file) ∨ ∃ e, d = .withEngine e

/-- No call is in progress. -/
def Quiet (s : HotReload) : Prop := ∀ i, s.calls i = none

/-- The engine is the one whose hash is recorded. -/
def UpToDate (s : HotReload) : Prop :=
  ∀ h, s.dispatcher.rulesHash = some h → s.dispatcher.engine.engineHash = h

/-- A call other than `i` has still to swap in an engine with the hash `h`. -/
def Pending (s : HotReload) (i : ℕ) (h : Hash32) : Prop :=
  ∃ j ≠ i, ∃ e, s.calls j = some (.recorded e) ∧ e.engineHash = h

/-- The call that swaps in its engine has not been overtaken: the recorded hash is still the one of its
engine, or that of an engine which another call has still to swap in. -/
def NotOvertaken (s : HotReload) : ReloadAction → Prop
  | .swap i => ∀ e, s.calls i = some (.recorded e) →
      ∀ h, s.dispatcher.rulesHash = some h → e.engineHash = h ∨ s.Pending i h
  | _ => True

/-- The recorded hash is the one of the engine, or of an engine which a call has still to swap in. -/
def Recorded (s : HotReload) : Prop :=
  ∀ h, s.dispatcher.rulesHash = some h →
    s.dispatcher.engine.engineHash = h ∨ ∃ i e, s.calls i = some (.recorded e) ∧ e.engineHash = h

/-! ## One step -/

@[simp] theorem goOn_dispatcher (s : HotReload) (i : ℕ) (phase : Option ReloadPhase) :
    (s.goOn i phase).dispatcher = s.dispatcher := rfl

@[simp] theorem goOn_self (s : HotReload) (i : ℕ) (phase : Option ReloadPhase) :
    (s.goOn i phase).calls i = phase := Function.update_self ..

@[simp] theorem goOn_other (s : HotReload) (phase : Option ReloadPhase) (h : j ≠ i) :
    (s.goOn i phase).calls j = s.calls j := Function.update_of_ne h ..

/-- A call that returns or goes on without swapping, and has nothing to swap in yet. -/
theorem Recorded.goOn (hs : s.Recorded) (phase : Option ReloadPhase)
    (hi : ∀ e, s.calls i ≠ some (.recorded e)) : (s.goOn i phase).Recorded := by
  intro h hh
  rcases hs h hh with hcur | ⟨j, e, hj, he⟩
  · left
    exact hcur
  · right
    have hji : j ≠ i := by
      rintro rfl
      exact hi e hj
    exact ⟨j, e, by rw [goOn_other s phase hji, hj], he⟩

theorem Recorded.recordHash (hs : s.Recorded) (hi : s.calls i = some (.loaded e)) :
    (s.recordHash i e).Recorded := by
  unfold HotReload.recordHash
  split
  · apply hs.goOn
    intro e' he'
    rw [hi] at he'
    simp at he'
  · intro h hh
    right
    refine ⟨i, e, ?_, Option.some.inj hh⟩
    exact s.goOn_self i _

/-- The engine that is swapped in has the recorded hash, or the one that has it is still to come. -/
theorem Recorded.swapEngine (hi : s.calls i = some (.recorded e)) (hs : s.NotOvertaken (.swap i)) :
    (s.swapEngine i e).Recorded := by
  intro h hh
  rcases hs e hi h hh with he | ⟨j, hji, e', hj, he'⟩
  · left
    exact he
  · right
    exact ⟨j, e', (s.goOn_other none hji).trans hj, he'⟩

theorem step_recorded (hs : s.Recorded) (hstep : s.step P a = some t) (ha : s.NotOvertaken a) :
    t.Recorded := by
  cases a with
  | changeFile content =>
    obtain rfl := Option.some.inj hstep
    exact hs
  | enter i =>
    simp only [step] at hstep
    split at hstep
    · rename_i hi
      obtain rfl := Option.some.inj hstep
      exact hs.goOn _ (by simp [hi])
    · cases hstep
  | load i =>
    simp only [step] at hstep
    split at hstep
    · rename_i hi
      obtain rfl := Option.some.inj hstep
      exact hs.goOn _ (by simp [hi])
    · cases hstep
  | record i =>
    simp only [step] at hstep
    split at hstep
    · rename_i e hi
      obtain rfl := Option.some.inj hstep
      exact hs.recordHash hi
    · cases hstep
  | swap i =>
    simp only [step] at hstep
    split at hstep
    · rename_i e hi
      obtain rfl := Option.some.inj hstep
      exact Recorded.swapEngine hi ha
    · cases hstep

/-! ## Runs -/

theorem start_recorded (hd : Fresh P d) : (start d file).Recorded := by
  intro h hh
  left
  rcases hd with ⟨f, rfl⟩ | ⟨e, rfl⟩
  · unfold start DecisionDispatcher.new at hh ⊢
    split at hh
    · exact Option.some.inj hh
    · cases hh
  · cases hh

theorem Recorded.upToDate (hs : s.Recorded) (hquiet : s.Quiet) : s.UpToDate := by
  intro h hh
  rcases hs h hh with hcur | ⟨i, e, hi, -⟩
  · exact hcur
  · rw [hquiet i] at hi
    cases hi

/-- Unless a call is overtaken, the engine is the one whose hash is recorded as soon as no call is in
progress; and the last swap must not be overtaken for this. -/
theorem engine_upToDate (hd : Fresh P d)
    (hrun : Run (fun s a t => s.step P a = some t ∧ s.NotOvertaken a) (start d file) actions s) :
    (s.Quiet → s.UpToDate) ∧
    ∀ i t, s.step P (.swap i) = some t → t.Quiet → (t.UpToDate ↔ s.NotOvertaken (.swap i)) := by
  have hs : s.Recorded := hrun.invariant (start_recorded hd) fun hs hm => step_recorded hs hm.1 hm.2
  refine ⟨hs.upToDate, ?_⟩
  intro i t hstep hquiet
  constructor
  · intro ht e hi h hh
    left
    simp only [step, hi] at hstep
    obtain rfl := Option.some.inj hstep
    exact ht h hh
  · intro hi
    exact (step_recorded hs hstep hi).upToDate hquiet

end HotReload

/-! ## A call that is overtaken -/

/-- A rules file with one rule. -/
def gasFile : String :=
  "[\x7b\"keywords\":[\"gas\"],\"target\":\"vent\",\"status\":\"WARNING\"," ++
    "\"action_required\":true\x7d]"

def gasRule : DecisionRule := ⟨["gas"], "vent", "WARNING", true⟩

/-- The digests of the rules files `[]` and `gasFile`, and of the versions of their engines. -/
def ruleDigests : List (List Byte × Hash32) := [
  (asBytes "[]", ⟨[213, 61, 24, 194, 50, 18, 234, 123, 99, 0, 89, 75, 184, 155, 206, 96, 33, 143, 110,
    255, 43, 157, 98, 139, 140, 196, 45, 62, 121, 187, 213, 171], by decide⟩),
  (asBytes "rules.file.d53d18c2", ⟨[127, 224, 231, 50, 96, 33, 223, 248, 155, 240, 23, 40, 1, 186, 71,
    75, 29, 148, 204, 190, 28, 3, 155, 236, 36, 201, 191, 86, 21, 67, 181, 162], by decide⟩),
  (asBytes gasFile, ⟨[212, 213, 134, 124, 221, 120, 190, 143, 6, 54, 188, 90, 53, 51, 234, 13, 117, 67,
    217, 90, 221, 252, 239, 27, 31, 83, 105, 93, 20, 127, 198, 98], by decide⟩),
  (asBytes "rules.file.d4d5867c", ⟨[100, 213, 65, 205, 20, 207, 244, 57, 242, 191, 7, 74, 117, 107, 142,
    177, 171, 235, 185, 179, 213, 34, 143, 11, 175, 174, 58, 175, 230, 76, 176, 7], by decide⟩)]

/-- These digests, and the contents of the two rules files. -/
def sampleRuntime : Runtime where
  blake3 input := ((ruleDigests.find? fun entry => entry.1 = input).map Prod.snd).getD (zeros 32)
  parseRules content :=
    if content = "[]" then some [] else if content = gasFile then some [gasRule] else none
  toLowercase := String.toLower

/-- The engines of the two files. -/
def emptyEngine : DecisionEngine := RuleEngine.toEngine sampleRuntime ⟨[], "rules.file.d53d18c2"⟩

def gasEngine : DecisionEngine :=
  RuleEngine.toEngine sampleRuntime ⟨[gasRule], "rules.file.d4d5867c"⟩

namespace HotReload

/-- A node without rules file to which `[]` is added, and one call that finds it. -/
theorem engine_upToDate_one_call :
    ∃ s, Run (fun s a t => s.step sampleRuntime a = some t ∧ s.NotOvertaken a)
        (start (.new sampleRuntime none) (some "[]")) [.enter 0, .load 0, .record 0, .swap 0] s ∧
      s.Quiet ∧ s.UpToDate ∧ s.dispatcher.rulesHash = some emptyEngine.engineHash := by
  obtain ⟨s, hrun, hquiet, hhash⟩ : ∃ s,
      Run (fun s a t => s.step sampleRuntime a = some t ∧ s.NotOvertaken a)
        (start (.new sampleRuntime none) (some "[]")) [.enter 0, .load 0, .record 0, .swap 0] s ∧
      s.Quiet ∧ s.dispatcher.rulesHash = some emptyEngine.engineHash := by
    refine ⟨_, .snoc (.snoc (.snoc (.snoc .nil ⟨rfl, trivial⟩) ⟨rfl, trivial⟩) ⟨rfl, trivial⟩)
      ⟨rfl, ?_⟩, ?_, rfl⟩
    · intro e he h hh
      left
      obtain rfl := ReloadPhase.recorded.inj (Option.some.inj he)
      exact Option.some.inj hh
    · intro i
      match i with
      | 0 => rfl
      | _ + 1 => rfl
  exact ⟨s, hrun, hquiet, (engine_upToDate (.inl ⟨none, rfl⟩) hrun).1 hquiet, hhash⟩

/-- The first call finds `[]` and is overtaken by the second one, which finds `gasFile`; the third call
sees no change. -/
def overtaken : List ReloadAction :=
  [.changeFile (some "[]"), .enter 0, .load 0, .record 0, .changeFile (some gasFile), .enter 1, .load 1,
    .record 1, .swap 1, .swap 0, .enter 2, .load 2, .record 2]

/-- The hash of the newer rules is recorded, and the node runs the older ones. -/
theorem stale_engine :
    ∃ s, overtaken.foldlM (step sampleRuntime) (start (.new sampleRuntime none) none) = some s ∧
      s.Quiet ∧ s.dispatcher.rulesHash = some gasEngine.engineHash ∧
      s.dispatcher.engine = emptyEngine ∧ ¬ s.UpToDate := by
  obtain ⟨s, hrun, hquiet, hhash, hengine⟩ : ∃ s,
      overtaken.foldlM (step sampleRuntime) (start (.new sampleRuntime none) none) = some s ∧
      s.Quiet ∧ s.dispatcher.rulesHash = some gasEngine.engineHash ∧
      s.dispatcher.engine = emptyEngine := by
    refine ⟨_, rfl, ?_, rfl, rfl⟩
    intro i
    match i with
    | 0 | 1 | 2 => rfl
    | _ + 3 => rfl
  refine ⟨s, hrun, hquiet, hhash, hengine, ?_⟩
  intro hs
  have heq := hs _ hhash
  rw [hengine] at heq
  exact absurd heq (by decide)

end HotReload

end Aimp.Rules
