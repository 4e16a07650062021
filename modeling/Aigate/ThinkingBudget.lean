import Aigate.ProviderModel

/-!
# The thinking budget of a request to Anthropic

A request that asks for thinking, or whose model thinks unless it is told not to, is sent with a
budget and with room for an answer above it. The budgets that a request can ask for are capped,
and so is the room; the budget of the model is not.
-/
namespace Aigate.ThinkingBudget
open Text JsonTree JsonText JsonEdit Guardrails GuardrailsEdits ChatBody ProviderRequests ProviderModel

/-- What the request itself says about thinking. -/
def requestConfig (inReq : Json) : Option ReasoningConfig :=
  (thinkingConfig inReq).or ((maxThinkingConfig inReq).or (effortConfig inReq))

/-- The tokens that the request asks for. -/
def requestedTokens (inReq : Json) : ℤ := (getInteger inReq "max_tokens").getD 4096

def budgetTokens (route : ModelRec) (inReq : Json) : ℤ :=
  (parseReasoningConfig inReq route).budgetTokens

/-- The builder enables thinking. -/
def Thinks (route : ModelRec) (inReq : Json) : Prop :=
  (parseReasoningConfig inReq route).enabled = true ∧ 1024 ≤ budgetTokens route inReq

/-- A value of the type `long`. -/
def IsLong (n : ℤ) : Prop := -2 ^ 63 ≤ n ∧ n < 2 ^ 63

/-- The budget that a body has. -/
def sentBudget (body : Json) : Option ℤ :=
  (getObject body "thinking").bind fun th => getInteger th "budget_tokens"

/-- The built request has a budget of at least 1024 tokens and room above it, and the one sum
that the builder makes is no greater than its type allows. -/
structure BudgetFits (route : ModelRec) (inBody : Bytes) : Prop where
  sent : ∃ b m, sentBudget (providerAnthropicBuild route inBody).body = some b ∧
    getInteger (providerAnthropicBuild route inBody).body "max_tokens" = some m ∧
      1024 ≤ b ∧ b < m
  sum : requestedTokens (parsedBody inBody) ≤ budgetTokens route (parsedBody inBody) →
    IsLong (budgetTokens route (parsedBody inBody) + 4096)

/-- The budget is that of the model, at least as large as the greatest room that the builder
makes, and the request asks for no more. -/
def Outgrows (route : ModelRec) (inReq : Json) : Prop :=
  requestConfig inReq = none ∧ route.supportsReasoning = true ∧
    132096 ≤ route.defaultThinkingBudget ∧
      requestedTokens inReq ≤ route.defaultThinkingBudget

theorem parseReasoningConfig_eq (route : ModelRec) (inReq : Json) :
    parseReasoningConfig inReq route = (requestConfig inReq).getD
      (if route.supportsReasoning = true ∧ route.defaultThinkingBudget > 0 then
        ⟨true, route.defaultThinkingBudget⟩
      else ⟨false, 0⟩) := rfl

/-- No request gets more than the cap of 128000 tokens. -/
theorem requestConfig_le {inReq : Json} {cfg : ReasoningConfig}
    (h : requestConfig inReq = some cfg) : cfg.budgetTokens ≤ 128000 := by
  have hbounded : ∀ b, boundedBudget b ≤ 128000 := by
    intro b
    unfold boundedBudget
    split <;> omega
  rcases Option.or_eq_some_iff.mp h with hthinking | ⟨-, h⟩
  · obtain ⟨th, -, hth⟩ := Option.bind_eq_some_iff.mp hthinking
    obtain ⟨type, -, htype⟩ := Option.bind_eq_some_iff.mp hth
    split at htype
    · cases htype
      exact hbounded _
    · split at htype
      · cases htype
        decide
      · cases htype
  rcases Option.or_eq_some_iff.mp h with hmax | ⟨-, heffort⟩
  · obtain ⟨b, -, rfl⟩ := Option.map_eq_some_iff.mp hmax
    split
    · exact hbounded _
    · decide
  · obtain ⟨eff, -, rfl⟩ := Option.map_eq_some_iff.mp heffort
    repeat' split
    all_goals decide

/-- A budget from 132096 tokens on is that of the model. -/
theorem budget_of_large {route : ModelRec} {inReq : Json} (hthinks : Thinks route inReq)
    (h : 132096 ≤ budgetTokens route inReq) :
    requestConfig inReq = none ∧ route.supportsReasoning = true ∧
      budgetTokens route inReq = route.defaultThinkingBudget := by
  unfold budgetTokens at h ⊢
  cases hcfg : requestConfig inReq with
  | some cfg =>
    rw [parseReasoningConfig_eq, hcfg, Option.getD_some] at h
    have hle := requestConfig_le hcfg
    omega
  | none =>
    have henabled := hthinks.1
    rw [parseReasoningConfig_eq, hcfg, Option.getD_none] at henabled ⊢
    by_cases hroute : route.supportsReasoning = true ∧ route.defaultThinkingBudget > 0
    · rw [if_pos hroute]
      exact ⟨rfl, hroute.1, rfl⟩
    · rw [if_neg hroute] at henabled
      cases henabled

theorem Outgrows.thinks {route : ModelRec} {inReq : Json} (h : Outgrows route inReq) :
    Thinks route inReq ∧ budgetTokens route inReq = route.defaultThinkingBudget := by
  obtain ⟨hcfg, hsupports, hlarge, -⟩ := h
  have hroute : route.supportsReasoning = true ∧ route.defaultThinkingBudget > 0 :=
    ⟨hsupports, by omega⟩
  unfold Thinks budgetTokens
  rw [parseReasoningConfig_eq, hcfg, Option.getD_none, if_pos hroute]
  exact ⟨⟨rfl, by dsimp only; omega⟩, rfl⟩

/-! What is read back of the body. -/

theorem getInteger_integer {j : Json} {key : String} {n : ℤ} (h : j.get key = some (integer n))
    (hn : IsLong n) : getInteger j key = some n := by
  unfold getInteger
  rw [h]
  exact congrArg some (Int64.toInt_ofInt_of_le hn.1 hn.2)

theorem getInteger_isLong {j : Json} {key : String} {n : ℤ} (h : getInteger j key = some n) :
    IsLong n := by
  obtain ⟨i, -, rfl⟩ := Option.map_eq_some_iff.mp h
  exact ⟨Int64.le_toInt i, Int64.toInt_lt i⟩

/-- The tokens that a request asks for are a `long`. -/
theorem requestedTokens_isLong (inReq : Json) : IsLong (requestedTokens inReq) := by
  unfold requestedTokens
  cases h : getInteger inReq "max_tokens" with
  | none => exact ⟨by decide, by decide⟩
  | some n => exact getInteger_isLong h

/-- The object that enables thinking. -/
def thinkingObject (b : ℤ) : Json :=
  .object [(ascii "type", jsonString (ascii "enabled")), (ascii "budget_tokens", integer b)]

theorem isObject_setSome (j : Json) (key : String) (v : Option Json) :
    (Json.setSome j key v).isObject = j.isObject := by
  cases v with
  | none => rfl
  | some v => exact isObject_set j v key

/-- The budget is sent as it is. -/
theorem build_thinking {route : ModelRec} {inBody : Bytes} (h : Thinks route (parsedBody inBody)) :
    (providerAnthropicBuild route inBody).body.get "thinking" =
      some (thinkingObject (budgetTokens route (parsedBody inBody))) := by
  have hempty : Distinct emptyObject := List.nodup_nil
  have hbudget : antThinking (parseReasoningConfig (parsedBody inBody) route) =
      some (budgetTokens route (parsedBody inBody)) := if_pos h
  unfold providerAnthropicBuild
  dsimp only
  rw [get_mergeDefaults route, hbudget]
  · iterate 6 rw [get_setSome_of_ne _ _ (by simp)]
    rw [Json.get_set_of_ne _ _ (by simp), Option.map_some, Json.setSome, Json.get_set_self]
    · rfl
    · rw [isObject_set, isObject_setSome, isObject_set]
      rfl
  · iterate 6 apply Distinct.setSome
    exact (((((hempty.set _ _).setSome _ _).set _ _).setSome _ _).set _ _)

theorem build_maxTokens (route : ModelRec) (inBody : Bytes) :
    (providerAnthropicBuild route inBody).body.get "max_tokens" =
      some (integer (antMaxTokens (parsedBody inBody)
        (antThinking (parseReasoningConfig (parsedBody inBody) route)))) := by
  have hempty : Distinct emptyObject := List.nodup_nil
  unfold providerAnthropicBuild
  dsimp only
  rw [get_mergeDefaults route]
  · iterate 6 rw [get_setSome_of_ne _ _ (by simp)]
    rw [Json.get_set_self, Option.some_or]
    rw [isObject_setSome, isObject_set, isObject_setSome, isObject_set]
    rfl
  · iterate 6 apply Distinct.setSome
    exact (((((hempty.set _ _).setSome _ _).set _ _).setSome _ _).set _ _)

theorem sentBudget_build {route : ModelRec} {inBody : Bytes} (h : Thinks route (parsedBody inBody))
    (hlong : IsLong (budgetTokens route (parsedBody inBody))) :
    sentBudget (providerAnthropicBuild route inBody).body =
      some (budgetTokens route (parsedBody inBody)) := by
  have hget : (thinkingObject (budgetTokens route (parsedBody inBody))).get "budget_tokens" =
      some (integer (budgetTokens route (parsedBody inBody))) := by
    simp [thinkingObject, Json.get, lookup, ascii_inj]
  unfold sentBudget getObject
  rw [build_thinking h]
  exact getInteger_integer hget hlong

/-- The tokens that are sent with a budget. -/
def raisedTokens (route : ModelRec) (inReq : Json) : ℤ :=
  if requestedTokens inReq ≤ budgetTokens route inReq then
    min (budgetTokens route inReq + 4096) 132096
  else requestedTokens inReq

theorem maxTokens_build {route : ModelRec} {inBody : Bytes} (h : Thinks route (parsedBody inBody)) :
    getInteger (providerAnthropicBuild route inBody).body "max_tokens" =
      some (raisedTokens route (parsedBody inBody)) := by
  have hbudget : antThinking (parseReasoningConfig (parsedBody inBody) route) =
      some (budgetTokens route (parsedBody inBody)) := if_pos h
  have hget := build_maxTokens route inBody
  rw [hbudget] at hget
  refine getInteger_integer hget ?_
  have hlong := requestedTokens_isLong (parsedBody inBody)
  have hlarge := h.2
  change IsLong (raisedTokens route (parsedBody inBody))
  unfold raisedTokens
  unfold IsLong at hlong ⊢
  split <;> omega

/-- Whatever the request asks for and whatever the model has by default, the builder that enables
thinking sends a budget of at least 1024 tokens below `max_tokens`, and makes no sum beyond a
`long`, unless the budget of the model outgrows the room. -/
theorem budgetFits_iff (route : ModelRec) (inBody : Bytes) :
    (Thinks route (parsedBody inBody) → BudgetFits route inBody) ↔
      ¬ Outgrows route (parsedBody inBody) := by
  constructor
  · intro hfits hout
    obtain ⟨hthinks, hbudget⟩ := hout.thinks
    obtain ⟨-, -, hlarge, hroom⟩ := hout
    obtain ⟨⟨b, m, hb, hm, -, hlt⟩, hsum⟩ := hfits hthinks
    rw [hbudget] at hsum
    have hlong := (hsum hroom).2
    have hsent := sentBudget_build hthinks (by rw [hbudget]; exact ⟨by omega, by omega⟩)
    obtain rfl : b = route.defaultThinkingBudget :=
      Option.some.inj (hb.symm.trans (hsent.trans (congrArg some hbudget)))
    obtain rfl := Option.some.inj (hm.symm.trans (maxTokens_build hthinks))
    unfold raisedTokens at hlt
    rw [hbudget, if_pos hroom] at hlt
    omega
  · intro hout hthinks
    have hrequested := requestedTokens_isLong (parsedBody inBody)
    -- a large budget is that of the model, and the request asks for more
    have hroom : budgetTokens route (parsedBody inBody) < 132096 ∨
        budgetTokens route (parsedBody inBody) < requestedTokens (parsedBody inBody) := by
      by_contra hnot
      push Not at hnot
      obtain ⟨hcfg, hsupports, hbudget⟩ := budget_of_large hthinks hnot.1
      rw [hbudget] at hnot
      exact hout ⟨hcfg, hsupports, hnot.1, hnot.2⟩
    have hlarge := hthinks.2
    have hlong : IsLong (budgetTokens route (parsedBody inBody)) := by
      unfold IsLong at hrequested ⊢
      omega
    refine ⟨⟨_, _, sentBudget_build hthinks hlong, maxTokens_build hthinks, hlarge, ?_⟩, ?_⟩
    · unfold raisedTokens
      split <;> omega
    · intro hle
      unfold IsLong
      omega

/-- A model that thinks with a budget of 200000 tokens unless it is told not to. -/
def thinkingModel : ModelRec where
  name := ascii "claude"
  provider := ascii "anthropic"
  endpoint := ascii "https://api.anthropic.com"
  targets := []
  lbPolicy := []
  maxConcurrent := 0
  hedgedEnabled := false
  name_le := by rw [ascii_length]; decide
  endpoint_le := by rw [ascii_length]; decide
  targets_le := Nat.zero_le _
  defaultParamsJson := []
  systemPrompt := []
  promptMode := .prepend
  supportsReasoning := true
  defaultThinkingBudget := 200000
  name_nonzero := nonzero_ascii _ rfl

/-- The budget of the model is above the room that is made for it. -/
theorem not_budgetFits_thinkingModel :
    ¬(Thinks thinkingModel (parsedBody (ascii "\x7b\x7d")) →
      BudgetFits thinkingModel (ascii "\x7b\x7d")) := by
  have hthinks : Thinks thinkingModel (parsedBody (ascii "\x7b\x7d")) := by
    unfold Thinks budgetTokens
    decide +kernel
  have hsent : sentBudget (providerAnthropicBuild thinkingModel (ascii "\x7b\x7d")).body =
      some 200000 := by decide +kernel
  have hroom : getInteger (providerAnthropicBuild thinkingModel (ascii "\x7b\x7d")).body
      "max_tokens" = some 132096 := by decide +kernel
  intro hfits
  obtain ⟨b, m, hb, hm, -, hlt⟩ := (hfits hthinks).sent
  obtain rfl := Option.some.inj (hb.symm.trans hsent)
  obtain rfl := Option.some.inj (hm.symm.trans hroom)
  exact absurd hlt (by decide)

end Aigate.ThinkingBudget
