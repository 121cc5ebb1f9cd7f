import Aimp.Rules.Engine
import Mathlib.Logic.Function.Basic

/-!
# The decision dispatcher

`DecisionDispatcher` with its two locks, and any number of concurrent calls of `try_hot_reload`. A call
reads the rules file, records the hash of what it has read under the first lock, and swaps in the engine
under the second one; between these steps other calls run and the file changes.
-/

namespace Aimp.Rules

/-- `DecisionDispatcher`, without its log. -/
structure DecisionDispatcher where
  engine : DecisionEngine
  rulesPath : Option String
  rulesHash : Option Hash32

namespace DecisionDispatcher

/-- `DecisionDispatcher::new`, with the rules file as it is read then. -/
def new (P : Runtime) (file : Option String) : DecisionDispatcher :=
  match RuleEngine.fromFile P file with
  | some re => ⟨re.toEngine P, some "aimp_rules.json", some (re.engineHash P)⟩
  | none => ⟨RuleEngine.defaultRules.toEngine P, some "aimp_rules.json", none⟩

/-- `DecisionDispatcher::with_engine`. -/
def withEngine (engine : DecisionEngine) : DecisionDispatcher := ⟨engine, none, none⟩

end DecisionDispatcher

/-- Where a call of `try_hot_reload` is. -/
inductive ReloadPhase where
  | entered
  /-- The file has been read, `rules_hash` is to be locked next. -/
  | loaded (newEngine : DecisionEngine)
  /-- The hash has been recorded, `engine` is to be locked next. -/
  | recorded (newEngine : DecisionEngine)

/-- The dispatcher, the rules file and the calls in progress. -/
structure HotReload where
  dispatcher : DecisionDispatcher
  /-- What reading the rules file gives, `none` if that fails. -/
  file : Option String
  calls : ℕ → Option ReloadPhase

/-- What can happen next: a change of the file, or the next step of a call. -/
inductive ReloadAction where
  | changeFile (content : Option String)
  | enter (i : ℕ)
  | load (i : ℕ)
  | record (i : ℕ)
  | swap (i : ℕ)

namespace HotReload

/-- No call is in progress. -/
def start (dispatcher : DecisionDispatcher) (file : Option String) : HotReload :=
  ⟨dispatcher, file, fun _ => none⟩

/-- The call `i` goes on with `phase`, or returns. -/
def goOn (s : HotReload) (i : ℕ) (phase : Option ReloadPhase) : HotReload :=
  { s with calls := Function.update s.calls i phase }

/-- The engine that a call reads from the file, if there is a path. -/
def read (P : Runtime) (s : HotReload) : Option DecisionEngine :=
  s.dispatcher.rulesPath.bind fun _ => (RuleEngine.fromFile P s.file).map (RuleEngine.toEngine P)

/-- The section under the lock of `rules_hash`: the call returns if nothing has changed. -/
def recordHash (s : HotReload) (i : ℕ) (newEngine : DecisionEngine) : HotReload :=
  if s.dispatcher.rulesHash = some newEngine.engineHash then s.goOn i none
  else
    { s.goOn i (some (.recorded newEngine)) with
      dispatcher := { s.dispatcher with rulesHash := some newEngine.engineHash } }

/-- The section under the lock of `engine`. -/
def swapEngine (s : HotReload) (i : ℕ) (newEngine : DecisionEngine) : HotReload :=
  { s.goOn i none with dispatcher := { s.dispatcher with engine := newEngine } }

/-- One step of some call, or a change of the file. -/
def step (P : Runtime) (s : HotReload) : ReloadAction → Option HotReload
  | .changeFile content => some { s with file := content }
  | .enter i =>
    match s.calls i with
    | none => some (s.goOn i (some .entered))
    | some _ => none
  | .load i =>
    match s.calls i with
    | some .entered => some (s.goOn i ((s.read P).map .loaded))
    | _ => none
  | .record i =>
    match s.calls i with
    | some (.loaded newEngine) => some (s.recordHash i newEngine)
    | _ => none
  | .swap i =>
    match s.calls i with
    | some (.recorded newEngine) => some (s.swapEngine i newEngine)
    | _ => none

end HotReload

end Aimp.Rules
