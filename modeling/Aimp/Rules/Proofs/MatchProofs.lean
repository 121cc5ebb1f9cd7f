import Aimp.Rules.Engine
import Mathlib

/-!
# The case of letters in rules

`evaluate` puts the prompt in lower case and leaves the keywords as they are. A keyword with an upper-case
letter never occurs in such a prompt. This shows exactly if no keyword in lower case of the same rule or of
an earlier one is part of it (`evaluate_caseless_iff`).
-/

namespace Aimp.Rules

/-- ASCII text. -/
def IsAscii (s : String) : Prop := ∀ c ∈ s.toList, c.toNat < 128

/-- What is relied on of `str::to_lowercase`: the letters of ASCII text are lowered one by one, and text in
lower case stays as it is. -/
structure Runtime.Lowercases (P : Runtime) : Prop where
  ascii : ∀ s, IsAscii s → P.toLowercase s = s.toLower
  lowered : ∀ s, P.toLowercase (P.toLowercase s) = P.toLowercase s

/-- The rule with its keywords in lower case. -/
def DecisionRule.lower (P : Runtime) (rule : DecisionRule) : DecisionRule :=
  { rule with keywords := rule.keywords.map P.toLowercase }

namespace RuleEngine

variable {P : Runtime} {prompt prompt' kw : String} {keywords : List (List String)}

/-! ## Two ways to compare -/

/-- One of the keywords occurs, as it is written, in the prompt in lower case. -/
def occursAsWritten (P : Runtime) (prompt : String) (keywords : List String) : Bool :=
  keywords.any fun kw => decide (kw.toList <:+: (P.toLowercase prompt).toList)

/-- One of the keywords occurs in the prompt, compared without regard to case. -/
def occursCaseless (P : Runtime) (prompt : String) (keywords : List String) : Bool :=
  keywords.any fun kw => decide ((P.toLowercase kw).toList <:+: (P.toLowercase prompt).toList)

/-- The decision of a rule, or the default decision. -/
def decisionOf (rule : Option DecisionRule) : Decision :=
  rule.elim ⟨"generic_entity", "NORMAL", false⟩ fun rule =>
    ⟨rule.target, rule.status, rule.actionRequired⟩

/-- The decision of the first rule that has a keyword in the prompt, compared without regard to case. -/
def evaluateCaseless (P : Runtime) (e : RuleEngine) (prompt : String) : Decision :=
  decisionOf (e.rules.find? fun rule => occursCaseless P prompt rule.keywords)

/-- Every keyword that matters for ASCII text contains, in lower case, a keyword that is written in lower
case, of the same rule or of an earlier one. -/
def Lowered (P : Runtime) (keywords : List (List String)) : Prop :=
  ∀ before kws after, keywords = before ++ kws :: after → ∀ kw ∈ kws, IsAscii (P.toLowercase kw) →
    ∃ kws' ∈ before ++ [kws], ∃ kw' ∈ kws',
      P.toLowercase kw' = kw' ∧ kw'.toList <:+: (P.toLowercase kw).toList

theorem occursAsWritten_iff {kws : List String} : occursAsWritten P prompt kws = true ↔
    ∃ kw ∈ kws, kw.toList <:+: (P.toLowercase prompt).toList := by
  unfold occursAsWritten
  rw [List.any_eq_true]
  simp only [decide_eq_true_eq]

theorem occursCaseless_iff {kws : List String} : occursCaseless P prompt kws = true ↔
    ∃ kw ∈ kws, (P.toLowercase kw).toList <:+: (P.toLowercase prompt).toList := by
  unfold occursCaseless
  rw [List.any_eq_true]
  simp only [decide_eq_true_eq]

/-- `evaluate` compares the keywords as they are written. -/
theorem evaluate_eq (P : Runtime) (e : RuleEngine) (prompt : String) :
    e.evaluate P prompt = decisionOf (e.rules.find? fun rule => occursAsWritten P prompt rule.keywords) :=
  rfl

/-! ## ASCII text -/

theorem toNat_toLower (c : Char) :
    c.toLower.toNat = if 65 ≤ c.toNat ∧ c.toNat ≤ 90 then c.toNat + 32 else c.toNat := by
  have hrange : (c.val ≥ 'A'.val ∧ c.val ≤ 'Z'.val) ↔ 65 ≤ c.toNat ∧ c.toNat ≤ 90 := by
    simp only [ge_iff_le, UInt32.le_iff_toNat_le, Char.toNat_val]
    exact Iff.rfl
  unfold Char.toLower
  by_cases h : c.val ≥ 'A'.val ∧ c.val ≤ 'Z'.val
  · have hle := (hrange.mp h).2
    rw [dif_pos h, if_pos (hrange.mp h)]
    show (c.val + ('a'.val - 'A'.val)).toNat = c.toNat + 32
    rw [UInt32.toNat_add, Char.toNat_val]
    exact Nat.mod_eq_of_lt (by simp; omega)
  · rw [dif_neg h, if_neg fun hr => h (hrange.mpr hr)]

theorem toLower_ascii {c : Char} (h : c.toNat < 128) : c.toLower.toNat < 128 := by
  rw [toNat_toLower]
  split <;> omega

theorem toLower_toLower (c : Char) : c.toLower.toLower = c.toLower := by
  rw [← Char.toNat_inj, toNat_toLower c.toLower, toNat_toLower c]
  split
  · rw [if_neg (by omega)]
  · rfl

/-- Parts of an ASCII prompt in lower case are in lower case. -/
theorem lower_occurs (hP : P.Lowercases) (hprompt : IsAscii prompt)
    (h : kw.toList <:+: (P.toLowercase prompt).toList) : P.toLowercase kw = kw := by
  rw [hP.ascii prompt hprompt, String.toLower, String.toList_map] at h
  have hchar : ∀ c ∈ kw.toList, ∃ d ∈ prompt.toList, d.toLower = c :=
    fun c hc => List.mem_map.mp (h.subset hc)
  have hascii : IsAscii kw := by
    intro c hc
    obtain ⟨d, hd, rfl⟩ := hchar c hc
    exact toLower_ascii (hprompt d hd)
  rw [hP.ascii kw hascii, ← String.toList_inj, String.toLower, String.toList_map]
  refine (List.map_congr_left fun c hc => ?_).trans (List.map_id kw.toList)
  obtain ⟨d, _, rfl⟩ := hchar c hc
  exact toLower_toLower d

/-- A keyword that occurs as it is written also occurs without regard to case. -/
theorem occursCaseless_of_asWritten (hP : P.Lowercases) (hprompt : IsAscii prompt) {kws : List String}
    (h : occursAsWritten P prompt kws = true) : occursCaseless P prompt kws = true := by
  obtain ⟨kw, hkw, hocc⟩ := occursAsWritten_iff.mp h
  refine occursCaseless_iff.mpr ⟨kw, hkw, ?_⟩
  rwa [lower_occurs hP hprompt hocc]

theorem isAscii_lower (hP : P.Lowercases) (hprompt : IsAscii prompt) :
    IsAscii (P.toLowercase prompt) := by
  intro c hc
  rw [hP.ascii prompt hprompt, String.toLower, String.toList_map] at hc
  obtain ⟨d, hd, rfl⟩ := List.mem_map.mp hc
  exact toLower_ascii (hprompt d hd)

/-! ## One prompt -/

/-- A stronger test that the first element passes finds the same element. -/
theorem find?_eq_of_imp {α : Type} {p q : α → Bool} {l : List α} (himp : ∀ a ∈ l, q a = true → p a = true)
    (hfirst : ∀ a ∈ l.find? p, q a = true) : l.find? q = l.find? p := by
  cases h : l.find? p with
  | none =>
    rw [List.find?_eq_none] at h ⊢
    exact fun a ha hq => h a ha (himp a ha hq)
  | some a =>
    obtain ⟨hp, before, after, rfl, hbefore⟩ := List.find?_eq_some_iff_append.mp h
    refine List.find?_eq_some_iff_append.mpr ⟨hfirst a h, before, after, rfl, fun b hb => ?_⟩
    have hnot := hbefore b hb
    rw [Bool.not_eq_true'] at hnot ⊢
    rw [← Bool.not_eq_true]
    intro hq
    rw [himp b (List.mem_append_left _ hb) hq] at hnot
    cases hnot

/-- The keywords of the first rule with a keyword in the prompt. -/
theorem find?_keywords (rules : List DecisionRule) (p : List String → Bool) :
    (rules.find? fun rule => p rule.keywords).map DecisionRule.keywords =
      (rules.map DecisionRule.keywords).find? p := by
  rw [List.find?_map]
  rfl

/-- Rules with the given keywords, which require action exactly if no keyword occurs as it is written. -/
def probeRules (P : Runtime) (prompt : String) (keywords : List (List String)) : List DecisionRule :=
  keywords.map fun kws => ⟨kws, "generic_entity", "NORMAL", !occursAsWritten P prompt kws⟩

theorem keywords_probeRules (P : Runtime) (prompt : String) (keywords : List (List String)) :
    (probeRules P prompt keywords).map DecisionRule.keywords = keywords := by
  unfold probeRules
  rw [List.map_map]
  exact List.map_id keywords

/-- The decision on a prompt is the right one, whatever the rules decide, if and only if the first rule with
a keyword in the prompt has one that occurs there as it is written. -/
theorem evaluate_prompt_iff (hP : P.Lowercases) (hprompt : IsAscii prompt)
    (keywords : List (List String)) :
    (∀ e : RuleEngine, e.rules.map DecisionRule.keywords = keywords →
      e.evaluate P prompt = e.evaluateCaseless P prompt) ↔
      ∀ kws ∈ keywords.find? (occursCaseless P prompt), occursAsWritten P prompt kws = true := by
  constructor
  · intro h kws hkws
    have hprobe := h ⟨probeRules P prompt keywords, ""⟩ (keywords_probeRules P prompt keywords)
    have hrule : ∀ rule ∈ probeRules P prompt keywords, rule.actionRequired =
        !occursAsWritten P prompt rule.keywords := by
      intro rule hrule
      obtain ⟨kws', _, rfl⟩ := List.mem_map.mp hrule
      rfl
    -- the code never finds a rule that requires action
    have hwritten : (evaluate P ⟨probeRules P prompt keywords, ""⟩ prompt).actionRequired = false := by
      rw [evaluate_eq]
      cases hfind : (probeRules P prompt keywords).find?
          fun rule => occursAsWritten P prompt rule.keywords with
      | none => rfl
      | some rule =>
        have hocc := List.find?_some hfind
        exact (hrule rule (List.mem_of_find?_eq_some hfind)).trans (by rw [hocc, Bool.not_true])
    rw [Option.mem_def, ← keywords_probeRules P prompt keywords, ← find?_keywords,
      Option.map_eq_some_iff] at hkws
    obtain ⟨rule, hfind, rfl⟩ := hkws
    have haction : rule.actionRequired = false := by
      rw [hprobe] at hwritten
      unfold evaluateCaseless at hwritten
      rwa [hfind] at hwritten
    rw [hrule rule (List.mem_of_find?_eq_some hfind), Bool.not_eq_false'] at haction
    exact haction
  · rintro h e rfl
    rw [evaluate_eq, evaluateCaseless]
    congr 1
    refine find?_eq_of_imp (fun rule _ => occursCaseless_of_asWritten hP hprompt) fun rule hrule => ?_
    refine h rule.keywords ?_
    rw [Option.mem_def, ← find?_keywords, Option.mem_def.mp hrule]
    rfl

/-! ## All prompts -/

/-- The first rule is the right one on every ASCII prompt if and only if no keyword is missed for want of a
keyword in lower case. -/
theorem lowered_iff (hP : P.Lowercases) (keywords : List (List String)) :
    (∀ prompt, IsAscii prompt →
      ∀ kws ∈ keywords.find? (occursCaseless P prompt), occursAsWritten P prompt kws = true) ↔
      Lowered P keywords := by
  constructor
  · rintro h before kws after rfl kw hkw hascii
    -- the keyword itself, in lower case, is the prompt
    have hself : occursCaseless P (P.toLowercase kw) kws = true := by
      refine occursCaseless_iff.mpr ⟨kw, hkw, ?_⟩
      rw [hP.lowered]
    obtain ⟨kws', hfind⟩ : ∃ kws', (before ++ [kws]).find? (occursCaseless P (P.toLowercase kw)) =
        some kws' := by
      refine Option.isSome_iff_exists.mp (List.find?_isSome.mpr ⟨kws, ?_, hself⟩)
      exact List.mem_append_right _ (List.mem_singleton_self kws)
    have hfind' : kws' ∈ (before ++ kws :: after).find? (occursCaseless P (P.toLowercase kw)) := by
      rw [List.append_cons, List.find?_append, hfind]
      rfl
    obtain ⟨kw', hkw', hocc⟩ := occursAsWritten_iff.mp (h _ hascii kws' hfind')
    refine ⟨kws', List.mem_of_find?_eq_some hfind, kw', hkw', lower_occurs hP hascii hocc, ?_⟩
    rwa [hP.lowered] at hocc
  · intro h prompt hprompt kws hkws
    obtain ⟨hocc, before, after, rfl, hbefore⟩ := List.find?_eq_some_iff_append.mp hkws
    obtain ⟨kw, hkw, hwithin⟩ := occursCaseless_iff.mp hocc
    have hascii : IsAscii (P.toLowercase kw) :=
      fun c hc => isAscii_lower hP hprompt c (hwithin.subset hc)
    obtain ⟨kws', hkws', kw', hkw', hlower, hpart⟩ := h before kws after rfl kw hkw hascii
    have hwritten : occursAsWritten P prompt kws' = true :=
      occursAsWritten_iff.mpr ⟨kw', hkw', hpart.trans hwithin⟩
    rcases List.mem_append.mp hkws' with hmem | hmem
    · have hnot := hbefore kws' hmem
      rw [occursCaseless_of_asWritten hP hprompt hwritten] at hnot
      cases hnot
    · rwa [List.mem_singleton.mp hmem] at hwritten

/-- Without regard to case, rules decide like those with lowered keywords. -/
theorem evaluateCaseless_eq (P : Runtime) (e : RuleEngine) (prompt : String) :
    e.evaluateCaseless P prompt = evaluate P ⟨e.rules.map (DecisionRule.lower P), e.version⟩ prompt := by
  have hocc : ∀ kws, occursCaseless P prompt kws = occursAsWritten P prompt (kws.map P.toLowercase) := by
    intro kws
    unfold occursCaseless occursAsWritten
    rw [List.any_map]
    rfl
  have hdecision : ∀ rule : Option DecisionRule,
      decisionOf (rule.map (DecisionRule.lower P)) = decisionOf rule := by
    intro rule
    cases rule with
    | none => rfl
    | some rule => rfl
  rw [evaluate_eq, evaluateCaseless, List.find?_map, hdecision]
  congr 2
  funext rule
  exact hocc rule.keywords

/-- Keywords that are all in lower case are not missed. -/
theorem lowered_of_forall (h : ∀ kws ∈ keywords, ∀ kw ∈ kws, P.toLowercase kw = kw) :
    Lowered P keywords := by
  rintro before kws after rfl kw hkw -
  have hlower := h kws (List.mem_append_right _ List.mem_cons_self) kw hkw
  refine ⟨kws, List.mem_append_right _ (List.mem_singleton_self kws), kw, hkw, hlower, ?_⟩
  rw [hlower]

/-- Rules with the given keywords decide on a prompt, whatever they decide, like the first rule with a
keyword in it, compared without regard to case, if and only if this rule has a keyword that occurs there as
it is written. They do so on all ASCII prompts if and only if every keyword contains, in lower case, one that
is written in lower case, of the same rule or of an earlier one. Then the case of the keywords does not
matter, and the case of the prompt never does. -/
theorem evaluate_caseless_iff (hP : P.Lowercases) (keywords : List (List String)) :
    (∀ prompt, IsAscii prompt →
      ((∀ e : RuleEngine, e.rules.map DecisionRule.keywords = keywords →
          e.evaluate P prompt = e.evaluateCaseless P prompt) ↔
        ∀ kws ∈ keywords.find? (occursCaseless P prompt), occursAsWritten P prompt kws = true)) ∧
    ((∀ e : RuleEngine, e.rules.map DecisionRule.keywords = keywords → ∀ prompt, IsAscii prompt →
        e.evaluate P prompt = e.evaluateCaseless P prompt) ↔ Lowered P keywords) ∧
    (∀ e e' : RuleEngine, e.rules.map (DecisionRule.lower P) = e'.rules.map (DecisionRule.lower P) →
      Lowered P (e.rules.map DecisionRule.keywords) → Lowered P (e'.rules.map DecisionRule.keywords) →
      ∀ prompt, IsAscii prompt → e.evaluate P prompt = e'.evaluate P prompt) ∧
    ∀ (e : RuleEngine) (prompt prompt' : String), P.toLowercase prompt = P.toLowercase prompt' →
      e.evaluate P prompt = e.evaluate P prompt' := by
  have hall : ∀ e : RuleEngine, Lowered P (e.rules.map DecisionRule.keywords) →
      ∀ prompt, IsAscii prompt → e.evaluate P prompt = e.evaluateCaseless P prompt := by
    intro e he prompt hprompt
    exact (evaluate_prompt_iff hP hprompt _).mpr ((lowered_iff hP _).mpr he prompt hprompt) e rfl
  refine ⟨fun prompt hprompt => evaluate_prompt_iff hP hprompt keywords, ⟨?_, ?_⟩, ?_, ?_⟩
  · intro h
    refine (lowered_iff hP keywords).mp fun prompt hprompt => ?_
    exact (evaluate_prompt_iff hP hprompt keywords).mp fun e he => h e he prompt hprompt
  · rintro h e rfl prompt hprompt
    exact hall e h prompt hprompt
  · intro e e' hsame he he' prompt hprompt
    rw [hall e he prompt hprompt, hall e' he' prompt hprompt, evaluateCaseless_eq, evaluateCaseless_eq,
      hsame]
    rfl
  · intro e prompt prompt' hsame
    rw [evaluate_eq, evaluate_eq]
    unfold occursAsWritten
    rw [hsame]

/-- The default rules are in lower case. -/
theorem lowered_defaultRules (hP : P.Lowercases) :
    Lowered P (defaultRules.rules.map DecisionRule.keywords) := by
  have hchars : ∀ kws ∈ defaultRules.rules.map DecisionRule.keywords, ∀ kw ∈ kws,
      (∀ c ∈ kw.toList, c.toNat < 128) ∧ kw.toList.map Char.toLower = kw.toList := by
    simp [defaultRules]
  refine lowered_of_forall fun kws hkws kw hkw => ?_
  obtain ⟨hascii, hlower⟩ := hchars kws hkws kw hkw
  rw [hP.ascii kw hascii, ← String.toList_inj, String.toLower, String.toList_map, hlower]

/-- A runtime that lowers ASCII letters only. -/
def asciiRuntime : Runtime where
  blake3 _ := zeros 32
  parseRules _ := none
  toLowercase := String.toLower

theorem lowercases_asciiRuntime : asciiRuntime.Lowercases where
  ascii _ _ := rfl
  lowered s := by
    show s.toLower.toLower = s.toLower
    rw [← String.toList_inj, String.toLower, String.toLower, String.toList_map, String.toList_map,
      List.map_map]
    exact List.map_congr_left fun c _ => toLower_toLower c

/-- The prompt of an alarm in upper case, with the default rules. -/
theorem evaluate_caseless_iff_default :
    defaultRules.evaluate asciiRuntime "CRITICAL ERROR" =
      defaultRules.evaluateCaseless asciiRuntime "CRITICAL ERROR" := by
  have hcaseless := evaluate_caseless_iff lowercases_asciiRuntime
    (defaultRules.rules.map DecisionRule.keywords)
  exact hcaseless.2.1.mpr (lowered_defaultRules lowercases_asciiRuntime) defaultRules rfl "CRITICAL ERROR"
    (by simp [IsAscii])

/-- A keyword that is written with a capital letter, and a prompt that contains it. -/
theorem keyword_missed :
    IsAscii "Valve stuck" ∧
    evaluate asciiRuntime ⟨[⟨["Valve"], "hydraulic_system", "WARNING", true⟩], "v1"⟩ "Valve stuck" =
      ⟨"generic_entity", "NORMAL", false⟩ ∧
    evaluateCaseless asciiRuntime ⟨[⟨["Valve"], "hydraulic_system", "WARNING", true⟩], "v1"⟩
      "Valve stuck" = ⟨"hydraulic_system", "WARNING", true⟩ := by
  have hlower : ∀ s, (asciiRuntime.toLowercase s).toList = s.toList.map Char.toLower :=
    fun _ => String.toList_map
  refine ⟨by simp [IsAscii], ?_, ?_⟩
  · rw [evaluate_eq]
    unfold occursAsWritten
    rw [hlower]
    decide +kernel
  · unfold evaluateCaseless occursCaseless
    simp only [hlower]
    decide +kernel

end RuleEngine

end Aimp.Rules
