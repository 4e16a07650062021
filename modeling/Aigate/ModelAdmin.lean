import Aigate.ProviderAdmin
import Aigate.Utf8

/-!
# Model routes

A model is created with one statement and then routed by its row: the record that was
cached is dropped, and a fallback is given to the circuit breaker. A change of a model
checks all fields of the body before it is stored with one statement.
-/
namespace Aigate.ModelAdmin
open Text JsonTree JsonText JsonNumbers AdminRequests QueryParams ProviderAdmin Utf8

/-- The tables, the records of routed models and the fallbacks of the circuit breaker. -/
@[ext] structure Models where
  store : Store
  routes : Bytes → Option ModelRec
  fallbacks : Bytes → Option (Field 127)

/-- `model_router_resolve`: the cached record comes first. -/
def Models.resolve (ms : Models) (name : Bytes) : Option ModelRec :=
  (ms.routes name).orElse fun _ => getModel ms.store name

/-- `model_router_invalidate`. -/
def Models.invalidate (ms : Models) (name : Bytes) : Models :=
  { ms with routes := Function.update ms.routes name none }

/-- `cb_configure_sla`, as far as it depends on the request. -/
def Models.configureFallback (ms : Models) (name : Bytes) (fallback : Field 127) : Models :=
  { ms with fallbacks := Function.update ms.fallbacks name (some fallback) }

/-- One target of a request; a negative priority or limit is stored as zero. -/
def parseTarget (item : Json) : Target where
  provider := copyField 31 ((item.getString "provider").getD (ascii "openai"))
  endpoint := copyField 511 ((item.getString "endpoint").getD [])
  upstreamKeyRef :=
    let key := (item.get "upstream_key_ref").orElse fun _ => item.get "upstream_key"
    copyField 1023 ((key.bind Json.stringValue).getD [])
  weight :=
    let weight := ((integerField item "weight").map castInt).getD 1
    if 0 < weight then weight.toNat else 1
  priority := (((integerField item "priority").map castInt).getD 0).toNat
  maxConcurrent :=
    match integerField item "max_concurrent" with
    | some n => if 0 ≤ n then (castInt n).toNat else 0
    | none => 0

/-- `parse_targets_array`. -/
def parseTargetsArray (jtargets : Json) : Option (List Target) :=
  match jtargets.arrayItems with
  | none => none
  | some items =>
    let items := items.take maxTargets
    if items.all Json.isObject then some (items.map parseTarget) else none

/-- An integer that is cast and accepted. -/
def intValue (accepted : ℤ → Bool) (v : Json) : Option ℤ :=
  ((integerValue v).map castInt).filter accepted

def nonNegative (n : ℤ) : Bool := 0 ≤ n

def isPercentage (n : ℤ) : Bool := 0 ≤ n ∧ n ≤ 100

/-- The text of an object that has to fit its field. -/
def packed (v : Json) : Option (Field 1023) :=
  if h : (dumps v).length ≤ 1023 then some ⟨dumps v, h⟩ else none

/-- The hedge budget of a new model: zero for a number that is not a percentage. -/
def newHedgeBudget : Option ℤ → ℤ
  | some n => if isPercentage (castInt n) then castInt n else 0
  | none => 15

/-- A model to be created. -/
structure NewModel where
  name : Bytes
  record : ModelRec
  fallback : Field 127

/-- The record of `model_create`, from the parts of the body that are checked. -/
def newRecord (jbody : Json) (targets : List Target) (params pricing : Field 1023) :
    ModelRec where
  provider :=
    copyField 31 ((jbody.getString "provider").getD
      (orElse ((targets.head?.map Target.provider).getD (noText 31)) openai).1)
  endpoint :=
    copyField 511 ((jbody.getString "endpoint").getD
      ((targets.head?.map Target.endpoint).getD (noText 511)).1)
  upstreamKeyRef :=
    copyField 1023 ((jbody.getString "upstream_key_ref").getD
      ((targets.head?.map Target.upstreamKeyRef).getD (noText 1023)).1)
  defaultParamsJson := params
  enabled := true
  targets := targets
  lbPolicy := copyField 31 ((jbody.getString "lb_policy").getD (ascii "priority"))
  pricingJson := pricing
  systemPrompt := copyField 4095 ((jbody.getString "system_prompt").getD [])
  promptMode := ((jbody.get "prompt_mode").map fun v => parsePromptMode v 0).getD 0
  hedgedDelayMs := ((jbody.get "hedged_delay_ms").bind (intValue nonNegative)).getD 0
  hedgeBudgetPct := newHedgeBudget (integerField jbody "hedge_budget_pct")
  hedgedEnabled := (boolField jbody "hedged_enabled").getD false
  maxConcurrent := ((jbody.get "max_concurrent").bind (intValue nonNegative)).getD 0
  defaultThinkingBudget :=
    ((integerField jbody "default_thinking_budget").filter nonNegative).getD 0
  supportsReasoning := (boolField jbody "supports_reasoning").getD false
  tagEmulationDefault := (boolField jbody "tag_emulation_default").getD false

/-- The default parameters of a request, with the fallback. -/
def newParams (jbody : Json) (fallback : Field 127) : Json :=
  let params := ((jbody.get "default_params").filter Json.isObject).getD (.object [])
  -- a text that was cut inside a character is no JSON string
  if fallback.1 ≠ [] ∧ utf8Check fallback.1 then
    params.set "fallback_model" (.string fallback.1)
  else params

/-- The checks of `model_create` on the fields of the body. -/
def newModel (jbody : Json) : Except String NewModel :=
  let name := (jbody.getString "name").getD []
  if name = [] then .error "name is required"
  else if 128 ≤ name.length then .error "model name too long (max 127 chars)"
  else
    match (jbody.get "targets").elim (some []) parseTargetsArray with
    | none => .error "invalid targets array"
    | some targets =>
      let fallback := copyField 127 ((jbody.getString "fallback_model").getD [])
      match packed (newParams jbody fallback) with
      | none => .error "default_params too large"
      | some params =>
        match jbody.get "pricing" with
        | none => .ok ⟨name, newRecord jbody targets params emptyObject, fallback⟩
        | some v =>
          if v.isObject then
            .ok ⟨name, newRecord jbody targets params (copyField 1023 (dumps v)), fallback⟩
          else .error "pricing must be an object"

/-- The fields of a model that an answer has, but for the limit of its targets. -/
structure ModelSettings where
  hedgedEnabled : Bool
  hedgedDelayMs : ℤ
  hedgeBudgetPct : ℤ
  supportsReasoning : Bool
  defaultThinkingBudget : ℤ
  tagEmulationDefault : Bool
  systemPrompt : Option (Field 4095)
  promptMode : ℤ

def ModelRec.settings (m : ModelRec) : ModelSettings where
  hedgedEnabled := m.hedgedEnabled
  hedgedDelayMs := m.hedgedDelayMs
  hedgeBudgetPct := m.hedgeBudgetPct
  supportsReasoning := m.supportsReasoning
  defaultThinkingBudget := m.defaultThinkingBudget
  tagEmulationDefault := m.tagEmulationDefault
  systemPrompt := if m.systemPrompt.1 = [] then none else some m.systemPrompt
  promptMode := m.promptMode

/-- The answer has the settings and the limit of a model that was created. -/
structure ModelReport where
  name : Bytes
  created : Option (ModelSettings × ℤ)

abbrev ModelReply := Reply ModelReport

/-- `model_create`. -/
def modelCreate (c : Call) (ms : Models) : ModelReply × Models :=
  match parseBody c.body with
  | none => (badRequest "invalid json body", ms)
  | some jbody =>
    match newModel jbody with
    | .error message => (badRequest message, ms)
    | .ok n =>
      match attempt (c.faults 0) (createModel ms.store n.name n.record) with
      | none => (.refused .internal "internal_error" "model create failed", ms)
      | some stored =>
        let ms := Models.invalidate { ms with store := stored } n.name
        (.created ⟨n.name, some (ModelRec.settings n.record, n.record.maxConcurrent)⟩,
          if n.fallback.1 = [] then ms else ms.configureFallback n.name n.fallback)

/-- The fields that `model_patch` sets, in the order of its checks. -/
def patchFields (jbody : Json) (existing : ModelRec) :
    Except String (ModelRec × List ModelColumn) := do
  let m ← changeField (orIgnored Json.stringValue)
    (fun x m => { m with endpoint := copyField 511 x }) ModelColumn.endpoint
    (jbody.get "endpoint") (existing, [])
  let m ← changeField
    (fun v => if v.isObject then orRefused "default_params too large" packed v else .ignored)
    (fun x m => { m with defaultParamsJson := x }) .params (jbody.get "default_params") m
  let m ← changeField (orIgnored Json.stringValue)
    (fun x m => { m with upstreamKeyRef := copyField 1023 x }) .keyRef
    (jbody.get "upstream_key_ref") m
  let m ← changeField (orIgnored boolValue) (fun x m => { m with enabled := x }) .enabled
    (jbody.get "enabled") m
  let m ← changeField (orIgnored Json.stringValue)
    (fun x m => { m with lbPolicy := copyField 31 x }) .lbPolicy (jbody.get "lb_policy") m
  let m ← changeField (orRefused "invalid targets array" parseTargetsArray)
    (fun x m => { m with targets := x }) .targets (jbody.get "targets") m
  let m ← changeField
    (fun v =>
      if v.isObject then orRefused "pricing too large" packed v
      else .refused "pricing must be an object")
    (fun x m => { m with pricingJson := x }) .pricing (jbody.get "pricing") m
  let m ← changeField
    (orRefused "system_prompt must be string or null" (orNull Json.stringValue []))
    (fun x m => { m with systemPrompt := copyField 4095 x }) .systemPrompt
    (jbody.get "system_prompt") m
  let m ← changeField (fun v => .value (parsePromptMode v 0))
    (fun x m => { m with promptMode := x }) .promptMode (jbody.get "prompt_mode") m
  let m ← changeField (orIgnored boolValue) (fun x m => { m with hedgedEnabled := x })
    .hedgedEnabled (jbody.get "hedged_enabled") m
  let m ← changeField (orIgnored (intValue nonNegative))
    (fun x m => { m with hedgedDelayMs := x }) .hedgedDelay (jbody.get "hedged_delay_ms") m
  let m ← changeField (orIgnored (intValue isPercentage))
    (fun x m => { m with hedgeBudgetPct := x }) .hedgeBudget (jbody.get "hedge_budget_pct") m
  let m ← changeField (orIgnored (intValue nonNegative))
    (fun x m => { m with maxConcurrent := x }) .maxConcurrent (jbody.get "max_concurrent") m
  let m ← changeField (orIgnored boolValue) (fun x m => { m with supportsReasoning := x })
    .supportsReasoning (jbody.get "supports_reasoning") m
  let m ← changeField (orIgnored fun v => (integerValue v).filter nonNegative)
    (fun x m => { m with defaultThinkingBudget := x }) .thinkingBudget
    (jbody.get "default_thinking_budget") m
  changeField (orIgnored boolValue) (fun x m => { m with tagEmulationDefault := x })
    .tagEmulationDefault (jbody.get "tag_emulation_default") m

/-- `model_patch`, for what follows the path of the models. -/
def modelPatch (c : Call) (rest : Bytes) (ms : Models) : ModelReply × Models :=
  if rest = [] then (.refused .notFound "not_found" "model name not found", ms)
  else
    match attempt (c.faults 0) (getModel ms.store rest) with
    | none => (.refused .notFound "not_found" "model not found", ms)
    | some existing =>
      match parseBody c.body with
      | none => (badRequest "invalid json body", ms)
      | some jbody =>
        match patchFields jbody existing with
        | .error message => (badRequest message, ms)
        | .ok (m, mask) =>
          match attempt (c.faults 1) (updateModel ms.store rest m mask) with
          | none => (.refused .internal "internal_error" "model update failed", ms)
          | some stored =>
            (.updated ⟨rest, none⟩, Models.invalidate { ms with store := stored } rest)

/-- The targets of the row are held to the limit, each by its own or all by the row's. -/
def LimitsTargets (m : ModelRec) (limit : ℤ) : Prop :=
  m.maxConcurrent = limit ∨ ∀ t ∈ (fillModelRow m).targets, (t.maxConcurrent : ℤ) = limit

/-- The row of the model has what the report has of it, and requests are routed by this
row. -/
def ModelReport.Holds (r : ModelReport) (ms : Models) : Prop :=
  ∃ row, ms.store.models r.name = some row ∧ ms.resolve r.name = getModel ms.store r.name ∧
    ∀ settings limit, r.created = some (settings, limit) →
      ModelRec.settings row.1 = settings ∧ LimitsTargets row.1 limit

/-- A budget that is given is a percentage and not zero. -/
def HedgeFits (jbody : Json) : Prop :=
  ∀ x, integerField jbody "hedge_budget_pct" = some x → 0 < castInt x ∧ castInt x ≤ 100

/-- A limit that is given is one of all targets, or of the only one. -/
def ConcurrencyFits (m : ModelRec) : Prop :=
  0 < m.maxConcurrent → (m.targets = [] → m.endpoint.1 ≠ []) ∧
    ∀ t ∈ m.targets, (t.maxConcurrent : ℤ) = m.maxConcurrent

/-- The budget and the limit of a model that is created are ones that its row can have. -/
def CreateFits (c : Call) (ms : Models) : Prop :=
  ∀ jbody n, parseBody c.body = some jbody → newModel jbody = .ok n →
    c.faults 0 = false → ms.store.models n.name = none →
    HedgeFits jbody ∧ ConcurrencyFits n.record

theorem invalidate_resolve (ms : Models) (name : Bytes) :
    (ms.invalidate name).resolve name = getModel ms.store name := by
  have hdropped : (ms.invalidate name).routes name = none := Function.update_self ..
  unfold Models.resolve
  rw [hdropped]
  rfl

theorem parseTargetsArray_length {jtargets : Json} {targets : List Target}
    (h : parseTargetsArray jtargets = some targets) : targets.length ≤ maxTargets := by
  unfold parseTargetsArray at h
  split at h
  · cases h
  · dsimp only at h
    split_ifs at h
    rw [← Option.some_inj.mp h, List.length_map]
    exact List.length_take_le ..

/-- What is known of a body that passes the checks. -/
theorem newModel_ok {jbody : Json} {n : NewModel} (h : newModel jbody = .ok n) :
    ∃ targets params pricing, n.record = newRecord jbody targets params pricing ∧
      targets.length ≤ maxTargets := by
  unfold newModel at h
  dsimp only at h
  split_ifs at h
  split at h
  · cases h
  rename_i targets htargets
  have hlength : targets.length ≤ maxTargets := by
    cases hv : jbody.get "targets" with
    | none =>
      rw [hv, Option.elim_none, Option.some_inj] at htargets
      rw [← htargets]
      exact Nat.zero_le _
    | some v =>
      rw [hv, Option.elim_some] at htargets
      exact parseTargetsArray_length htargets
  split at h
  · cases h
  split at h
  · obtain rfl := Except.ok.inj h
    exact ⟨_, _, _, rfl, hlength⟩
  · split_ifs at h
    obtain rfl := Except.ok.inj h
    exact ⟨_, _, _, rfl, hlength⟩

/-- The row of a model that is created. -/
theorem createModel_some {st st' : Store} {name : Bytes} {m : ModelRec}
    (h : createModel st name m = some st') : st.models name = none ∧
      ∃ row, st'.models name = some row ∧ row.1.maxConcurrent = 0 ∧
        row.1.targets = serializeTargets m ∧
        ModelRec.settings row.1 = { ModelRec.settings m with
          hedgeBudgetPct := if 0 < m.hedgeBudgetPct then m.hedgeBudgetPct else 15 } := by
  unfold createModel at h
  cases hfree : st.models name with
  | some row => simp [hfree] at h
  | none =>
    simp only [hfree, Option.some.injEq] at h
    rw [← h]
    exact ⟨rfl, _, Function.update_self .., rfl, rfl, rfl⟩

theorem createModel_free {st : Store} {name : Bytes} (m : ModelRec)
    (h : st.models name = none) : ∃ st', createModel st name m = some st' := by
  unfold createModel
  rw [h]
  exact ⟨_, rfl⟩

theorem newRecord_maxConcurrent_nonneg (jbody : Json) (targets : List Target)
    (params pricing : Field 1023) :
    0 ≤ (newRecord jbody targets params pricing).maxConcurrent := by
  simp only [newRecord]
  cases hlimit : (jbody.get "max_concurrent").bind (intValue nonNegative) with
  | none => exact le_rfl
  | some n =>
    obtain ⟨v, -, hv⟩ := Option.bind_eq_some_iff.mp hlimit
    simpa [nonNegative] using (Option.filter_eq_some_iff.mp hv).2

/-- The budget is stored as it is reported. -/
theorem hedge_stored_iff (field : Option ℤ) :
    (if 0 < newHedgeBudget field then newHedgeBudget field else 15) = newHedgeBudget field ↔
      ∀ x, field = some x → 0 < castInt x ∧ castInt x ≤ 100 := by
  cases field with
  | none => simp [newHedgeBudget]
  | some x =>
    simp only [newHedgeBudget, isPercentage, decide_eq_true_eq, Option.some.injEq, forall_eq']
    split_ifs <;> omega

/-- The row of a new model limits its targets as it is reported. -/
theorem limits_iff {m row : ModelRec} (hnonneg : 0 ≤ m.maxConcurrent)
    (hlength : m.targets.length ≤ maxTargets) (hzero : row.maxConcurrent = 0)
    (htargets : row.targets = serializeTargets m) :
    LimitsTargets row m.maxConcurrent ↔ ConcurrencyFits m := by
  unfold LimitsTargets ConcurrencyFits
  rw [hzero]
  rcases hnonneg.eq_or_lt with hno | hlimit
  · exact iff_of_true (.inl hno) fun h => absurd hno h.ne
  have hleft : ((0 : ℤ) = m.maxConcurrent ∨
      ∀ t ∈ (fillModelRow row).targets, (t.maxConcurrent : ℤ) = m.maxConcurrent) ↔
      ∀ t ∈ (fillModelRow row).targets, (t.maxConcurrent : ℤ) = m.maxConcurrent :=
    or_iff_right hlimit.ne
  rw [hleft, forall_prop_of_true hlimit]
  by_cases hnone : m.targets = []
  · by_cases hendpoint : m.endpoint.1 = []
    · -- the row is read with a target that has no limit
      have hrow : (fillModelRow row).targets = [row.primary] := by
        have hempty : row.targets = [] := by
          rw [htargets, serializeTargets, hnone]
          simp [hendpoint]
        unfold fillModelRow
        rw [if_pos hempty]
      rw [hrow]
      simp [hnone, hendpoint, ModelRec.primary, hlimit.ne]
    · have hrow : (fillModelRow row).targets = row.targets := by
        unfold fillModelRow
        rw [if_neg]
        rw [htargets, serializeTargets, if_pos ⟨hnone, hendpoint⟩]
        exact List.cons_ne_nil _ _
      rw [hrow, htargets, serializeTargets, if_pos ⟨hnone, hendpoint⟩]
      simp [hnone, hendpoint, Target.stored, hlimit.le]
  · have hstored : serializeTargets m = m.targets.map Target.stored := by
      unfold serializeTargets
      rw [if_neg fun h => hnone h.1, List.take_of_length_le hlength]
    have hrow : (fillModelRow row).targets = row.targets := by
      unfold fillModelRow
      rw [if_neg]
      rw [htargets, hstored]
      exact fun h => hnone (List.map_eq_nil_iff.mp h)
    rw [hrow, htargets, hstored]
    simp [hnone, Target.stored]

/-- What is reported of a new model holds of its row. -/
theorem created_holds_iff {ms : Models} {stored : Store} {jbody : Json} {n : NewModel}
    (hnew : newModel jbody = .ok n)
    (hcreate : createModel ms.store n.name n.record = some stored) :
    ModelReport.Holds ⟨n.name, some (ModelRec.settings n.record, n.record.maxConcurrent)⟩
        (Models.invalidate { ms with store := stored } n.name) ↔
      HedgeFits jbody ∧ ConcurrencyFits n.record := by
  obtain ⟨-, row, hrow, hzero, htargets, hsettings⟩ := createModel_some hcreate
  obtain ⟨targets, params, pricing, hrecord, hlength⟩ := newModel_ok hnew
  have hhedge := hedge_stored_iff (integerField jbody "hedge_budget_pct")
  have hlimits : LimitsTargets row.1 n.record.maxConcurrent ↔ ConcurrencyFits n.record := by
    apply limits_iff _ _ hzero htargets
    · rw [hrecord]
      exact newRecord_maxConcurrent_nonneg ..
    · rw [hrecord]
      exact hlength
  have hsame : ModelRec.settings row.1 = ModelRec.settings n.record ↔ HedgeFits jbody := by
    unfold HedgeFits
    rw [hsettings, ← hhedge, hrecord]
    constructor
    · exact fun h => congrArg ModelSettings.hedgeBudgetPct h
    · intro h
      exact congrArg (fun x => { ModelRec.settings (newRecord jbody targets params pricing) with
        hedgeBudgetPct := x }) h
  rw [← hsame, ← hlimits]
  constructor
  · rintro ⟨row', hrow', -, hreported⟩
    obtain rfl := Option.some_inj.mp (hrow.symm.trans hrow')
    exact hreported _ _ rfl
  · intro h
    refine ⟨row, hrow, invalidate_resolve _ _, ?_⟩
    rintro _ _ ⟨⟩
    exact h

theorem modelCreate_atomic (c : Call) (ms : Models) :
    Atomic ModelReport.Holds ms (modelCreate c ms) ↔ CreateFits c ms := by
  unfold modelCreate CreateFits
  cases hbody : parseBody c.body with
  | none => exact iff_of_true ((atomic_of_none rfl).mpr rfl) nofun
  | some jbody =>
    dsimp only
    cases hnew : newModel jbody with
    | error message =>
      refine iff_of_true ((atomic_of_none rfl).mpr rfl) fun _ _ hj hn => ?_
      rw [← Option.some_inj.mp hj, hnew] at hn
      cases hn
    | ok n =>
      dsimp only
      cases hcreate : attempt (c.faults 0) (createModel ms.store n.name n.record) with
      | none =>
        refine iff_of_true ((atomic_of_none rfl).mpr rfl) fun _ _ hj hn hfault hfree => ?_
        rw [← Option.some_inj.mp hj, hnew] at hn
        obtain rfl := Except.ok.inj hn
        obtain ⟨st', hst'⟩ := createModel_free n.record hfree
        rw [hfault, attempt_false, hst'] at hcreate
        cases hcreate
      | some stored =>
        dsimp only
        have hcreated := created_holds_iff hnew (attempt_eq_some hcreate)
        have hfree := (createModel_some (attempt_eq_some hcreate)).1
        have honly : (∀ jbody' n', some jbody = some jbody' → newModel jbody' = .ok n' →
            c.faults 0 = false → ms.store.models n'.name = none →
            HedgeFits jbody' ∧ ConcurrencyFits n'.record) ↔
            HedgeFits jbody ∧ ConcurrencyFits n.record := by
          constructor
          · exact fun h => h jbody n rfl hnew (fails_of_attempt hcreate) hfree
          · rintro h _ n' ⟨⟩ hn' - -
            obtain rfl := Except.ok.inj (hnew.symm.trans hn')
            exact h
        rw [atomic_of_some rfl, honly, ← hcreated]
        split_ifs
        · rfl
        · rfl

/-- A change of a model that is stored leaves its row there. -/
theorem updateModel_some {st st' : Store} {name : Bytes} {m : ModelRec} {row : ModelRow}
    {mask : List ModelColumn} (hrow : st.models name = some row)
    (h : updateModel st name m mask = some st') : ∃ row', st'.models name = some row' := by
  unfold updateModel at h
  split_ifs at h
  · rw [← Option.some_inj.mp h]
    exact ⟨row, hrow⟩
  · rw [hrow] at h
    rw [← Option.some_inj.mp h]
    exact ⟨_, Function.update_self ..⟩

/-- A change of a model leaves everything as it was when it is refused, and afterwards
requests are routed by the stored row. -/
theorem modelPatch_atomic (c : Call) (rest : Bytes) (ms : Models) :
    Atomic ModelReport.Holds ms (modelPatch c rest ms) := by
  unfold modelPatch
  split
  · exact (atomic_of_none rfl).mpr rfl
  split
  · exact (atomic_of_none rfl).mpr rfl
  rename_i existing hexisting
  split
  · exact (atomic_of_none rfl).mpr rfl
  split
  · exact (atomic_of_none rfl).mpr rfl
  split
  · exact (atomic_of_none rfl).mpr rfl
  rename_i stored hupdate
  obtain ⟨row, hrow, -⟩ := Option.bind_eq_some_iff.mp (attempt_eq_some hexisting)
  obtain ⟨row', hrow'⟩ := updateModel_some hrow (attempt_eq_some hupdate)
  rw [atomic_of_some rfl]
  exact ⟨row', hrow', invalidate_resolve _ _, nofun⟩

end Aigate.ModelAdmin
