import Aigate.GroupedTotals
import Aigate.JsonNumbers
import Aigate.JsonText
import Mathlib.Tactic.Linarith
import Mathlib.Tactic.Ring

/-!
# The cost report

A request is charged by the pricing object of its model as soon as it ends. The admin cost
report prices the summed token counts of a model by the same object, with code of its own:
it knows the prices under one name only, has no price for reasoning tokens, and takes the
cached tokens off the prompt tokens after both were summed.
-/
namespace Aigate.CostReport
open Text JsonTree JsonText JsonNumbers GroupedTotals

/-- The first member with one of the names, if it is a number. -/
def price (jp : Json) (names : List String) : Option ℚ :=
  (names.findSome? jp.get).bind numberValue

def pricingObject (pricingJson : Bytes) : Option Json :=
  (loads pricingJson).filter Json.isObject

/-- The columns of a model that prices are taken from. -/
structure ModelRec where
  name : Bytes
  pricingJson : Bytes

/-- The tokens of one request. -/
structure Request where
  prompt : ℤ
  completion : ℤ
  cached : ℤ
  reasoning : ℤ

/-- Prices of a million tokens, and the part of the input price that a cached token costs. -/
structure Rates where
  inMtok : ℚ
  outMtok : ℚ
  cachedDiscount : ℚ

/-- The prices under the given names; both have to be there. -/
def rates (jp : Json) (inNames outNames : List String) : Option Rates :=
  match price jp inNames, price jp outNames with
  | some input, some output =>
    some ⟨input, output, (price jp ["cached_mtok_discount"]).getD 1⟩
  | _, _ => none

def unhitPrompt (prompt cached : ℤ) : ℤ := if cached ≤ prompt then prompt - cached else 0

def normalCompletion (q : Request) : ℤ :=
  if q.reasoning ≤ q.completion then q.completion - q.reasoning else 0

def billedReasoning (q : Request) : ℤ :=
  if q.reasoning ≤ q.completion then q.reasoning else q.completion

def chargedRates (jp : Json) : Option Rates :=
  rates jp ["in_mtok", "input_mtok"] ["out_mtok", "output_mtok"]

/-- Without a price of their own, reasoning tokens cost what output costs. -/
def reasoningMtok (jp : Json) (r : Rates) : ℚ := (price jp ["reasoning_mtok"]).getD r.outMtok

def charge (r : Rates) (reasoningMtok : ℚ) (q : Request) : ℚ :=
  (unhitPrompt q.prompt q.cached * r.inMtok + q.cached * r.inMtok * r.cachedDiscount +
    normalCompletion q * r.outMtok + billedReasoning q * reasoningMtok) / 1000000

/-- The cost of a request in dollars; free without a route or without prices. -/
def calcReqCostExt (route : Option ModelRec) (q : Request) : ℚ :=
  match route with
  | none => 0
  | some m =>
    if m.pricingJson = [] then 0
    else
      match pricingObject m.pricingJson with
      | none => 0
      | some jp =>
        match chargedRates jp with
        | none => 0
        | some r => charge r (reasoningMtok jp r) q

def reportedRates (jp : Json) : Option Rates := rates jp ["in_mtok"] ["out_mtok"]

def usd (r : Rates) (prompt completion cached : ℤ) : ℚ :=
  (unhitPrompt prompt cached * r.inMtok + cached * r.inMtok * r.cachedDiscount +
    completion * r.outMtok) / 1000000

/-- The dollars of some token counts of a model, the first one with the name; nothing when
the model or its prices are missing. -/
def calculateModelCost (modelName : Bytes) (models : List ModelRec)
    (prompt completion cached : ℤ) : Option ℚ :=
  match models.find? fun m => m.name = modelName with
  | none => none
  | some m =>
    match pricingObject m.pricingJson with
    | none => none
    | some jp => (reportedRates jp).map fun r => usd r prompt completion cached

def costCents (cost : Option ℚ) : Option ℤ := cost.map fun usd => llround (usd * 100)

def nameCap : ℕ := 127

/-- The usage of a group and a model on a day; the name is as the store copied it. -/
structure CostRow where
  groupId : ℤ
  model : Bytes
  prompt : ℤ
  completion : ℤ
  cached : ℤ
  requests : ℤ
  bucketDay : ℤ
  held : model.length ≤ nameCap

structure GroupRec where
  id : ℤ
  name : Bytes

structure ModelAgg where
  groupId : ℤ
  groupName : Bytes
  model : Bytes
  prompt : ℤ
  completion : ℤ
  cached : ℤ
  requests : ℤ

/-- A row of the report; a row by model has no day. -/
structure ReportRow where
  bucketDay : Option ℤ
  groupId : ℤ
  groupName : Bytes
  model : Bytes
  promptTokens : ℤ
  completionTokens : ℤ
  cachedPromptTokens : ℤ
  requests : ℤ
  costCents : Option ℤ

def lookupGroupName (groupId : ℤ) (groups : List GroupRec) : Bytes :=
  if groupId = 0 then ascii "(ungrouped)"
  else
    match groups.find? fun g => g.id = groupId with
    | some g => g.name
    | none => ascii "(unknown)"

def CostRow.opened (groups : List GroupRec) (r : CostRow) : ModelAgg where
  groupId := r.groupId
  groupName := (lookupGroupName r.groupId groups).take nameCap
  model := r.model.take nameCap
  prompt := r.prompt
  completion := r.completion
  cached := r.cached
  requests := r.requests

def ModelAgg.absorb (a : ModelAgg) (r : CostRow) : ModelAgg :=
  { a with
    prompt := a.prompt + r.prompt
    completion := a.completion + r.completion
    cached := a.cached + r.cached
    requests := a.requests + r.requests }

def CostRow.key (r : CostRow) : ℤ × Bytes := (r.groupId, r.model)

def CostRow.counts (r : CostRow) : ℤ × ℤ × ℤ × ℤ :=
  (r.prompt, r.completion, r.cached, r.requests)

def ModelAgg.key (a : ModelAgg) : ℤ × Bytes := (a.groupId, a.model)

def ModelAgg.counts (a : ModelAgg) : ℤ × ℤ × ℤ × ℤ :=
  (a.prompt, a.completion, a.cached, a.requests)

def ReportRow.key (r : ReportRow) : ℤ × Bytes := (r.groupId, r.model)

def ReportRow.counts (r : ReportRow) : ℤ × ℤ × ℤ × ℤ :=
  (r.promptTokens, r.completionTokens, r.cachedPromptTokens, r.requests)

/-- The accumulators of the report by model. -/
def aggs (groups : List GroupRec) : Grouping CostRow ModelAgg (ℤ × Bytes) (ℤ × ℤ × ℤ × ℤ) where
  rowKey := CostRow.key
  rowWeight := CostRow.counts
  key := ModelAgg.key
  weight := ModelAgg.counts
  opened := CostRow.opened groups
  absorb := ModelAgg.absorb
  key_opened r := by
    unfold ModelAgg.key CostRow.opened CostRow.key
    rw [List.take_of_length_le r.held]
  weight_opened _ := rfl
  key_absorb _ _ := rfl
  weight_absorb _ _ := rfl

def ModelAgg.row (models : List ModelRec) (a : ModelAgg) : ReportRow where
  bucketDay := none
  groupId := a.groupId
  groupName := a.groupName
  model := a.model
  promptTokens := a.prompt
  completionTokens := a.completion
  cachedPromptTokens := a.cached
  requests := a.requests
  costCents := CostReport.costCents
    (calculateModelCost a.model models a.prompt a.completion a.cached)

def CostRow.row (models : List ModelRec) (groups : List GroupRec) (r : CostRow) : ReportRow where
  bucketDay := some r.bucketDay
  groupId := r.groupId
  groupName := lookupGroupName r.groupId groups
  model := r.model
  promptTokens := r.prompt
  completionTokens := r.completion
  cachedPromptTokens := r.cached
  requests := r.requests
  costCents := CostReport.costCents
    (calculateModelCost r.model models r.prompt r.completion r.cached)

/-- A filter below zero keeps every group. -/
def kept (groupFilter : ℤ) (rows : List CostRow) : List CostRow :=
  rows.filter fun r => !(decide (0 ≤ groupFilter) && decide (r.groupId ≠ groupFilter))

/-- `cost_from_rows`: all the rows of the report. -/
def costFromRows (rows : List CostRow) (models : List ModelRec) (groups : List GroupRec)
    (groupFilter : ℤ) (byModel : Bool) : List ReportRow :=
  if byModel then
    let cap := if 0 < rows.length then rows.length else 1
    ((aggs groups).groups cap (kept groupFilter rows)).map (ModelAgg.row models)
  else (kept groupFilter rows).map (CostRow.row models groups)

theorem length_kept_le (groupFilter : ℤ) (rows : List CostRow) :
    (kept groupFilter rows).length ≤ if 0 < rows.length then rows.length else 1 := by
  have hle : (kept groupFilter rows).length ≤ rows.length := List.length_filter_le ..
  split_ifs
  · exact hle
  · omega

/-- The report by model has each group and model once at most. -/
theorem nodup_costFromRows (rows : List CostRow) (models : List ModelRec)
    (groups : List GroupRec) (groupFilter : ℤ) :
    ((costFromRows rows models groups groupFilter true).map ReportRow.key).Nodup := by
  have hnd := (aggs groups).nodup_groups (length_kept_le groupFilter rows)
  unfold costFromRows
  rw [if_pos rfl, List.map_map]
  exact hnd

/-- Both reports have the same totals for every group and model. -/
theorem totalOf_costFromRows (rows : List CostRow) (models : List ModelRec)
    (groups : List GroupRec) (groupFilter : ℤ) (k : ℤ × Bytes) :
    totalOf ReportRow.key ReportRow.counts k
        (costFromRows rows models groups groupFilter true) =
      totalOf ReportRow.key ReportRow.counts k
        (costFromRows rows models groups groupFilter false) := by
  have htotal := (aggs groups).totalOf_groups (length_kept_le groupFilter rows) k
  unfold costFromRows
  rw [if_pos rfl, if_neg Bool.false_ne_true, totalOf_map, totalOf_map]
  exact htotal

/-- Prompt tokens beyond the cached ones, and cached tokens beyond the prompt. -/
def unhitTotal (requests : List Request) : ℤ :=
  (requests.map fun q => unhitPrompt q.prompt q.cached).sum

def overhitTotal (requests : List Request) : ℤ :=
  (requests.map fun q => unhitPrompt q.cached q.prompt).sum

def cachedTotal (requests : List Request) : ℤ := (requests.map Request.cached).sum

def normalTotal (requests : List Request) : ℤ := (requests.map normalCompletion).sum

def reasoningTotal (requests : List Request) : ℤ := (requests.map billedReasoning).sum

/-- The report knows both prices, and what it does not take off the prompt tokens makes up
for the price of the reasoning tokens; or it misses a price, and the tokens are free. -/
def SameCost (pricingJson : Bytes) (requests : List Request) : Prop :=
  match pricingObject pricingJson with
  | none => True
  | some jp =>
    match chargedRates jp with
    | none => True
    | some r =>
      if (price jp ["in_mtok"]).isSome ∧ (price jp ["out_mtok"]).isSome then
        (min (overhitTotal requests) (unhitTotal requests) : ℤ) * r.inMtok =
          reasoningTotal requests * (r.outMtok - reasoningMtok jp r)
      else
        unhitTotal requests * r.inMtok + cachedTotal requests * r.inMtok * r.cachedDiscount +
          normalTotal requests * r.outMtok + reasoningTotal requests * reasoningMtok jp r = 0

/-- The report of a model costs what its requests were charged, a report without a cost
nothing; and the report by model adds up to the report by day. -/
structure Agrees (models : List ModelRec) (m : ModelRec) (requests : List Request)
    (rows : List CostRow) (groups : List GroupRec) (groupFilter : ℤ) : Prop where
  cost : (calculateModelCost m.name models (requests.map Request.prompt).sum
    (requests.map Request.completion).sum (requests.map Request.cached).sum).getD 0 =
      (requests.map (calcReqCostExt (some m))).sum
  totals : ∀ k, totalOf ReportRow.key ReportRow.counts k
      (costFromRows rows models groups groupFilter true) =
    totalOf ReportRow.key ReportRow.counts k
      (costFromRows rows models groups groupFilter false)

theorem unhitPrompt_sub (prompt cached : ℤ) :
    unhitPrompt prompt cached - unhitPrompt cached prompt = prompt - cached := by
  unfold unhitPrompt
  split_ifs <;> omega

theorem completion_eq (q : Request) : normalCompletion q + billedReasoning q = q.completion := by
  unfold normalCompletion billedReasoning
  split_ifs <;> omega

theorem unhitTotal_sub (requests : List Request) :
    unhitTotal requests - overhitTotal requests =
      (requests.map Request.prompt).sum - (requests.map Request.cached).sum := by
  unfold unhitTotal overhitTotal
  induction requests with
  | nil => rfl
  | cons q rest ih =>
    simp only [List.map_cons, List.sum_cons]
    have := unhitPrompt_sub q.prompt q.cached
    omega

theorem completionTotal_eq (requests : List Request) :
    normalTotal requests + reasoningTotal requests = (requests.map Request.completion).sum := by
  unfold normalTotal reasoningTotal
  induction requests with
  | nil => rfl
  | cons q rest ih =>
    simp only [List.map_cons, List.sum_cons]
    have := completion_eq q
    omega

/-- Clamping the sums instead of summing what is clamped loses the smaller excess. -/
theorem unhitPrompt_sums (requests : List Request) :
    unhitPrompt (requests.map Request.prompt).sum (requests.map Request.cached).sum =
      unhitTotal requests - min (overhitTotal requests) (unhitTotal requests) := by
  have := unhitTotal_sub requests
  unfold unhitPrompt
  split_ifs <;> omega

theorem sum_charge (r : Rates) (reasoning : ℚ) (requests : List Request) :
    (requests.map (charge r reasoning)).sum =
      (unhitTotal requests * r.inMtok + cachedTotal requests * r.inMtok * r.cachedDiscount +
        normalTotal requests * r.outMtok + reasoningTotal requests * reasoning) / 1000000 := by
  unfold unhitTotal cachedTotal normalTotal reasoningTotal
  induction requests with
  | nil => simp
  | cons q rest ih =>
    simp only [List.map_cons, List.sum_cons, Int.cast_add, ih, charge]
    ring

theorem usd_sums (r : Rates) (requests : List Request) :
    usd r (requests.map Request.prompt).sum (requests.map Request.completion).sum
        (requests.map Request.cached).sum =
      ((unhitTotal requests - (min (overhitTotal requests) (unhitTotal requests) : ℤ)) *
          r.inMtok + cachedTotal requests * r.inMtok * r.cachedDiscount +
        (normalTotal requests + reasoningTotal requests) * r.outMtok) / 1000000 := by
  unfold usd
  rw [unhitPrompt_sums, ← completionTotal_eq, Int.cast_sub, Int.cast_add]
  rfl

/-- The report and the charges differ by the excess that was not clamped and by the
difference of the reasoning price. -/
theorem usd_eq_iff (r : Rates) (reasoning : ℚ) (requests : List Request) :
    usd r (requests.map Request.prompt).sum (requests.map Request.completion).sum
        (requests.map Request.cached).sum = (requests.map (charge r reasoning)).sum ↔
      (min (overhitTotal requests) (unhitTotal requests) : ℤ) * r.inMtok =
        reasoningTotal requests * (r.outMtok - reasoning) := by
  rw [usd_sums, sum_charge, div_left_inj' (by norm_num)]
  constructor
  · intro h
    linarith
  · intro h
    linarith

/-- A price under the first name hides the other names. -/
theorem price_cons {jp : Json} {name : String} {p : ℚ} (h : price jp [name] = some p)
    (names : List String) : price jp (name :: names) = some p := by
  unfold price at h ⊢
  rw [List.findSome?_cons] at h ⊢
  cases hget : jp.get name with
  | none => simp [hget] at h
  | some v => simpa [hget] using h

theorem reportedRates_of_isSome {jp : Json} {r : Rates} (hr : chargedRates jp = some r)
    (hin : (price jp ["in_mtok"]).isSome) (hout : (price jp ["out_mtok"]).isSome) :
    reportedRates jp = some r := by
  obtain ⟨i, hi⟩ := Option.isSome_iff_exists.mp hin
  obtain ⟨o, ho⟩ := Option.isSome_iff_exists.mp hout
  unfold chargedRates rates at hr
  rw [price_cons hi, price_cons ho] at hr
  unfold reportedRates rates
  rw [hi, ho]
  exact hr

theorem reportedRates_eq_none {jp : Json}
    (h : ¬((price jp ["in_mtok"]).isSome ∧ (price jp ["out_mtok"]).isSome)) :
    reportedRates jp = none := by
  unfold reportedRates rates
  cases hin : price jp ["in_mtok"] with
  | none => rfl
  | some i =>
    cases hout : price jp ["out_mtok"] with
    | none => rfl
    | some o => exact absurd ⟨by simp [hin], by simp [hout]⟩ h

theorem pricingObject_nil : pricingObject [] = none := by
  decide

/-- What a request is charged: by the prices, or nothing. -/
theorem calcReqCostExt_some (m : ModelRec) (q : Request) :
    calcReqCostExt (some m) q =
      match pricingObject m.pricingJson with
      | none => 0
      | some jp =>
        match chargedRates jp with
        | none => 0
        | some r => charge r (reasoningMtok jp r) q := by
  unfold calcReqCostExt
  by_cases hempty : m.pricingJson = []
  · simp only [hempty, pricingObject_nil, if_true]
  · exact if_neg hempty

theorem calcReqCostExt_free {m : ModelRec}
    (h : ∀ jp, pricingObject m.pricingJson = some jp → chargedRates jp = none)
    (requests : List Request) : (requests.map (calcReqCostExt (some m))).sum = 0 := by
  have hfree : calcReqCostExt (some m) = fun _ => 0 := by
    funext q
    rw [calcReqCostExt_some]
    cases hobj : pricingObject m.pricingJson with
    | none => rfl
    | some jp => simp only [h jp hobj]
  rw [hfree]
  simp

theorem calcReqCostExt_charged {m : ModelRec} {jp : Json} {r : Rates}
    (hobj : pricingObject m.pricingJson = some jp) (hr : chargedRates jp = some r) :
    calcReqCostExt (some m) = charge r (reasoningMtok jp r) := by
  funext q
  rw [calcReqCostExt_some]
  simp only [hobj, hr]

theorem reportedRates_of_charged {jp : Json} (h : chargedRates jp = none) :
    reportedRates jp = none := by
  apply reportedRates_eq_none
  rintro ⟨hin, hout⟩
  obtain ⟨i, hi⟩ := Option.isSome_iff_exists.mp hin
  obtain ⟨o, ho⟩ := Option.isSome_iff_exists.mp hout
  unfold chargedRates rates at h
  rw [price_cons hi, price_cons ho] at h
  cases h

theorem calculateModelCost_found {models : List ModelRec} {m : ModelRec}
    (hm : (models.find? fun x => x.name = m.name) = some m) (prompt completion cached : ℤ) :
    calculateModelCost m.name models prompt completion cached =
      match pricingObject m.pricingJson with
      | none => none
      | some jp => (reportedRates jp).map fun r => usd r prompt completion cached := by
  unfold calculateModelCost
  rw [hm]

/-- The report agrees with the charges exactly when it loses nothing by its own pricing. -/
theorem reported_iff {models : List ModelRec} {m : ModelRec}
    (hm : (models.find? fun x => x.name = m.name) = some m) (requests : List Request)
    (rows : List CostRow) (groups : List GroupRec) (groupFilter : ℤ) :
    Agrees models m requests rows groups groupFilter ↔ SameCost m.pricingJson requests := by
  have htotals := totalOf_costFromRows rows models groups groupFilter
  rw [show Agrees models m requests rows groups groupFilter ↔ _ from
    ⟨fun h => h.cost, fun h => ⟨h, htotals⟩⟩, calculateModelCost_found hm]
  unfold SameCost
  cases hobj : pricingObject m.pricingJson with
  | none => simp [calcReqCostExt_free (m := m) (by simp [hobj])]
  | some jp =>
    simp only
    cases hr : chargedRates jp with
    | none =>
      have hfree := calcReqCostExt_free (m := m) (by simp [hobj, hr]) requests
      simp [hfree, reportedRates_of_charged hr]
    | some r =>
      rw [calcReqCostExt_charged hobj hr]
      by_cases hnames : (price jp ["in_mtok"]).isSome ∧ (price jp ["out_mtok"]).isSome
      · simp only [if_pos hnames, reportedRates_of_isSome hr hnames.1 hnames.2, Option.map_some,
          Option.getD_some]
        exact usd_eq_iff r (reasoningMtok jp r) requests
      · simp only [if_neg hnames, reportedRates_eq_none hnames, Option.map_none, Option.getD_none]
        rw [sum_charge, eq_comm, div_eq_zero_iff]
        simp

/-- Input, output and reasoning tokens have a price each. -/
def reasoningModel : ModelRec where
  name := ascii "m"
  pricingJson := ascii "\x7b\"in_mtok\":1.0,\"out_mtok\":5.0,\"reasoning_mtok\":10.0\x7d"

theorem agrees_iff_reasoningModel :
    Agrees [reasoningModel] reasoningModel [⟨100, 50, 20, 0⟩] [] [] (-1) ↔
      SameCost reasoningModel.pricingJson [⟨100, 50, 20, 0⟩] :=
  reported_iff (by simp) _ [] [] (-1)

/-- Twenty reasoning tokens are charged at their own price, and reported at that of output. -/
theorem not_agrees_reasoning :
    ¬Agrees [reasoningModel] reasoningModel [⟨100, 50, 0, 20⟩] [] [] (-1) := by
  intro h
  have hcost := h.cost
  revert hcost
  decide +kernel

end Aigate.CostReport
