import Aimp.Protocol.Bytes
import Mathlib.Data.List.Infix

/-!
# Decision engines

`DecisionEngine` and the rule-based engine that is loaded from the rules file. BLAKE3, `serde_json` and
the lowercase mapping of Unicode are parameters of the development.
-/

namespace Aimp.Rules

/-- The output of an evaluation. -/
structure Decision where
  targetEntity : String
  status : String
  actionRequired : Bool
deriving DecidableEq

/-- `dyn DecisionEngine`: its answer to every prompt (`none` for an error), and the hash of its logic. -/
structure DecisionEngine where
  evaluate : String → Option Decision
  engineHash : Hash32

/-- A rule of the rule-based engine. -/
structure DecisionRule where
  keywords : List String
  target : String
  status : String
  actionRequired : Bool
deriving DecidableEq

/-- What the engines use of other libraries. -/
structure Runtime where
  blake3 : List Byte → Hash32
  /-- `serde_json::from_str::<Vec<DecisionRule>>`. -/
  parseRules : String → Option (List DecisionRule)
  /-- `str::to_lowercase`. -/
  toLowercase : String → String

/-- `RuleEngine`. -/
structure RuleEngine where
  rules : List DecisionRule
  version : String

namespace RuleEngine

/-- `RuleEngine::evaluate`: the first rule with a keyword in the prompt decides. -/
def evaluate (P : Runtime) (e : RuleEngine) (prompt : String) : Decision :=
  let promptLower := P.toLowercase prompt
  let rule := e.rules.find? fun rule =>
    rule.keywords.any fun kw => decide (kw.toList <:+: promptLower.toList)
  rule.elim ⟨"generic_entity", "NORMAL", false⟩ fun rule =>
    ⟨rule.target, rule.status, rule.actionRequired⟩

/-- `RuleEngine::engine_hash`. -/
def engineHash (P : Runtime) (e : RuleEngine) : Hash32 := P.blake3 (asBytes e.version)

/-- A rule engine as a decision engine. -/
def toEngine (P : Runtime) (e : RuleEngine) : DecisionEngine :=
  ⟨fun prompt => some (e.evaluate P prompt), e.engineHash P⟩

/-- `RuleEngine::from_file`; `file` is what reading the file gives, `none` if that fails. -/
def fromFile (P : Runtime) (file : Option String) : Option RuleEngine :=
  file.bind fun content => (P.parseRules content).map fun rules =>
    ⟨rules, "rules.file." ++ hexEncode ((P.blake3 (asBytes content)).val.take 4)⟩

/-- `RuleEngine::default_rules`. -/
def defaultRules : RuleEngine where
  rules := [
    ⟨["error", "failure", "fault", "critical", "danger"], "system_alert", "CRITICAL", true⟩,
    ⟨["valve", "pressure", "flow"], "hydraulic_system", "WARNING", true⟩,
    ⟨["north", "nord"], "sector_north", "NORMAL", false⟩,
    ⟨["south", "sud"], "sector_south", "NORMAL", false⟩]
  version := "rules.v2.default"

end RuleEngine

end Aimp.Rules
