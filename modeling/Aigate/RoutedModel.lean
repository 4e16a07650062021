import Aigate.ProviderModel

/-!
# Routing and the body

The model of a request is rewritten by canary rules, by the SLA fallback and by plugins, and
the route is that of the rewritten model. The body is rewritten by other stages, none of
which sets its model: what reaches the adapter names the model that the client asked for, or
the one in the body of a plugin.
-/
namespace Aigate.RoutedModel
open Text JsonTree JsonText JsonRoundtrip JsonEdit PiiText Guardrails GuardrailsWebhook
  GuardrailsEdits ModelRouter Pipelines ChatBody ProviderRequests ProviderModel

/-- The body of a query names a model, and so does its tree. -/
structure Names (q : ChatQuery) (named : Option Json) : Prop where
  body : bodyMember q.effBody "model" = named
  tree : ∀ j, q.jbody = some j → Readable j ∧ j.get "model" = named

theorem bodyMember_dumps {j : Json} (h : Readable j) (key : String) :
    bodyMember (dumps j) key = j.get key := by
  rw [bodyMember, loads_cString_dumps h, Option.bind_some]

theorem bodyMember_edited {body body' : Bytes} (h : Edited body body') {key : String} {v : Json}
    (hkey : key ∉ textKeys) (hget : bodyMember body key = some v) :
    bodyMember body' key = some v := by
  obtain ⟨j, hload, hmember⟩ := Option.bind_eq_some_iff.mp hget
  obtain ⟨j', hload', -, hsame⟩ := h j hload (isObject_of_get hmember)
  rw [bodyMember, hload', Option.bind_some, hsame key hkey, hmember]

theorem names_resolve {g : Gateway} {r : ChatRequest} {q : ChatQuery} {route : ModelRec}
    (h : resolveChatTarget g r = some (q, route)) :
    Names q (some (.string (requestedModel (loads (cString r.body))))) ∧ q.effBody = r.body ∧
      q.reasoningDegraded = false := by
  unfold resolveChatTarget at h
  dsimp only at h
  split at h
  · cases h
  · rename_i hallowed
    obtain ⟨route', -, heq⟩ := Option.map_eq_some_iff.mp h
    cases heq
    have hmodel : ∃ s, (loads (cString r.body)).bind (·.getString "model") = some s := by
      cases hget : (loads (cString r.body)).bind (·.getString "model") with
      | none =>
        rw [requestedModel, hget] at hallowed
        exact absurd (Or.inl rfl) hallowed
      | some s => exact ⟨s, rfl⟩
    obtain ⟨s, hs⟩ := hmodel
    obtain ⟨j, hload, hget⟩ := Option.bind_eq_some_iff.mp hs
    have hmember := getString_eq_some.mp hget
    refine ⟨⟨?_, ?_⟩, rfl, rfl⟩
    · rw [bodyMember, requestedModel, hs, hload]
      exact hmember
    · intro j' hj'
      obtain rfl := Option.some.inj (hload.symm.trans hj')
      rw [requestedModel, hs]
      exact ⟨Readable.of_loads hload, hmember⟩

/-- What an inspection leaves of a body. -/
theorem edited_inspection {gr : GuardrailsCtx} {body body' : Bytes}
    (h : Inspection.body (guardrailsInspectInboundWithPii gr body (some SessionMap.empty)) body =
      some body') : Edited body body' := by
  unfold Inspection.body at h
  split at h
  · cases h
    exact Edited.refl _
  · rename_i hverdict
    cases h
    cases hblock : keywordBlock gr body with
    | some kw =>
      rw [inspect_of_keywordBlock _ hblock] at hverdict
      cases hverdict
    | none =>
      have hne : body ≠ [] := by
        intro hnil
        rw [hnil] at hverdict
        cases hverdict
      rw [inspect_of_not_keywordBlock _ hne hblock] at hverdict
      refine edited_inspectPii gr.piiCfg (fun m hm e he => ?_) hverdict
      obtain rfl := Option.some.inj hm
      cases he
  · cases h

/-- What the webhooks leave of a body. -/
theorem edited_moderation {gr : GuardrailsCtx} {network : Network} {model : Bytes}
    {keyId timestamp : Int64} {body body' : Bytes}
    (h : Moderation.body
      (guardrailsInspectWebhookInbound gr network model keyId timestamp body) body = some body') :
    Edited body body' := by
  unfold Moderation.body at h
  split at h
  · cases h
    exact Edited.refl _
  · rename_i hdecision
    cases h
    unfold guardrailsInspectWebhookInbound at hdecision
    split at hdecision
    · cases hdecision
    · exact edited_inspectWebhooks _ _ _ _ _ hdecision
  · cases h

theorem names_filterGuardrails {g : Gateway} {r : ChatRequest} {q q' : ChatQuery} {s : Bytes}
    (h : filterGuardrails g r q = some q') (hbody : q.effBody = r.body)
    (hq : Names q (some (.string s))) :
    Names q' (some (.string s)) := by
  have hkey : "model" ∉ textKeys := by simp [textKeys]
  unfold filterGuardrails at h
  split at h
  · cases h
    exact hq
  · split at h
    · cases h
      exact hq
    · obtain ⟨masked, hmasked, h⟩ := Option.bind_eq_some_iff.mp h
      obtain ⟨body, hwebhook, rfl⟩ := Option.map_eq_some_iff.mp h
      refine ⟨?_, hq.tree⟩
      apply bodyMember_edited ((edited_inspection hmasked).trans (edited_moderation hwebhook)) hkey
      rw [← hbody]
      exact hq.body

theorem filterJailbreak_eq {g : Gateway} {r : ChatRequest} {q q' : ChatQuery}
    (h : filterJailbreak g r q = some q') : q' = q := by
  unfold filterJailbreak at h
  split at h
  · cases h
  · exact (Option.some.inj h).symm

theorem nonzero_jsonString (s : Bytes) : wellFormed (jsonString s) = true := by
  have := nonzero_cString s
  simpa [jsonString, wellFormed] using this

theorem fits_templateMessages (mode : PromptMode) (expanded : Bytes) {messages : List Json}
    {n : ℕ} (hn : 2 ≤ n) (h : ∀ m ∈ messages, Fits n m) :
    ∀ m ∈ templateMessages mode expanded messages, Fits n m := by
  have hstring : ∀ s, Fits 1 (jsonString s) := fun s => ⟨nonzero_jsonString s, le_refl _⟩
  intro m hm
  unfold templateMessages at hm
  cases hreplace : replaceFirst isSystemMessage
    (fun m => m.set "content" (jsonString (systemContent mode expanded m))) messages with
  | none =>
    rw [hreplace, Option.getD_none] at hm
    rcases List.mem_cons.mp hm with rfl | hm
    · have hkeys : ascii "role" ≠ ascii "content" := ascii_ne (by simp)
      have hrole : Nonzero (ascii "role") := nonzero_ascii _ rfl
      have hcontent : Nonzero (ascii "content") := nonzero_ascii _ rfl
      refine ⟨?_, ?_⟩
      · simp [wellFormed, wellFormedMembers, nonzero_jsonString, hkeys, hrole, hcontent]
      · simpa [depth, depthMembers, jsonString] using hn
    · exact h m hm
  | some messages' =>
    rw [hreplace, Option.getD_some] at hm
    rcases mem_replaceFirst hreplace hm with hm | ⟨y, hy, rfl⟩
    · exact h m hm
    · exact (h y hy).set_string hn (nonzero_ascii _ rfl) (nonzero_cString _)

/-- The template edits the messages only. -/
theorem readable_promptTemplateApply {clock : Clock} {mode : PromptMode}
    {template model keyName : Bytes} {jbody edited : Json} (hj : Readable jbody)
    (h : promptTemplateApply clock mode template model keyName jbody = some edited) :
    Readable edited ∧ edited.get "model" = jbody.get "model" := by
  unfold promptTemplateApply at h
  split at h
  · cases h
  · obtain ⟨messages, hget, rfl⟩ := Option.map_eq_some_iff.mp h
    have hfits : Fits 2048 jbody := ⟨hj.wellFormed, hj.depth_le⟩
    have hmessages := fits_array (fits_templateMessages mode
      (promptTemplateExpandVars clock model keyName template.length template) (by omega)
      (fits_items (fits_get hfits (getArray_eq_some.mp hget))))
    exact ⟨hj.set (nonzero_ascii _ rfl) hmessages.1 (Nat.add_le_add_right hmessages.2 1),
      Json.get_set_of_ne _ _ (by simp)⟩

theorem names_filterPromptTemplate (r : ChatRequest) (route : ModelRec) {q : ChatQuery}
    {named : Option Json} (hq : Names q named) :
    Names (filterPromptTemplate r route q) named := by
  unfold filterPromptTemplate
  dsimp only
  split
  · exact hq
  · rename_i edited hedited
    obtain ⟨jbody, hjbody, happly⟩ := Option.bind_eq_some_iff.mp hedited
    obtain ⟨hreadable, hmodel⟩ := hq.tree jbody hjbody
    obtain ⟨hreadable', hsame⟩ := readable_promptTemplateApply hreadable happly
    have hnamed : edited.get "model" = named := hsame.trans hmodel
    refine ⟨(bodyMember_dumps hreadable' "model").trans hnamed, ?_⟩
    intro j hj
    obtain rfl := Option.some.inj hj
    exact ⟨hreadable', hnamed⟩

theorem loadb_eq_some {buffer : Bytes} {j : Json} (h : loadb buffer = some j) :
    loads (cString buffer) = some j ∧ Readable j := by
  unfold loadb at h
  split at h
  · cases h
  · rename_i hnonzero
    rw [cString_of_nonzero hnonzero]
    exact ⟨h, Readable.of_loads h⟩

/-- What the plugins' body names, if there is one; else what was named before. -/
theorem names_filterLuaPluginsInbound {g : Gateway} {q q' : ChatQuery} {named : Option Json}
    (h : filterLuaPluginsInbound g q = some q') (hq : Names q named) :
    Names q' (match g.plugins.bind fun run => pluginNewBody (run q.model (pluginInput q)) with
      | some body => bodyMember body "model"
      | none => named) := by
  unfold filterLuaPluginsInbound at h
  cases hplugins : g.plugins with
  | none =>
    rw [hplugins] at h
    cases h
    exact hq
  | some run =>
    rw [hplugins] at h
    dsimp only at h
    rw [Option.bind_some]
    cases hrun : run q.model (pluginInput q) with
    | abort =>
      rw [hrun] at h
      cases h
    | proceed newModel newBody =>
      rw [hrun] at h
      cases newBody with
      | none =>
        cases h
        exact ⟨hq.body, hq.tree⟩
      | some body =>
        cases h
        refine ⟨rfl, ?_⟩
        intro j hj
        obtain ⟨hload, hreadable⟩ := loadb_eq_some hj
        refine ⟨hreadable, ?_⟩
        dsimp only [pluginNewBody]
        rw [bodyMember, hload, Option.bind_some]

theorem readable_suppressReasoning {jbody : Json} (h : Readable jbody) :
    Readable (suppressReasoning jbody) := by
  have hkeys : ascii "type" ≠ ascii "budget_tokens" := ascii_ne (by simp)
  have htype : Nonzero (ascii "type") := nonzero_ascii _ rfl
  have hbudget : Nonzero (ascii "budget_tokens") := nonzero_ascii _ rfl
  have hthinking : wellFormed noThinking = true := by
    simp [noThinking, wellFormed, wellFormedMembers, nonzero_jsonString, hkeys, htype, hbudget]
  exact ((h.set (nonzero_ascii _ rfl) hthinking (by decide)).del _).del _

theorem get_suppressReasoning (jbody : Json) :
    (suppressReasoning jbody).get "model" = jbody.get "model" := by
  unfold suppressReasoning
  rw [Json.get_del_of_ne _ (by simp), Json.get_del_of_ne _ (by simp),
    Json.get_set_of_ne _ _ (by simp)]

theorem names_degradation (spent : Bool) {q : ChatQuery} {named : Option Json}
    (hq : Names q named) : Names (chatApplyReasoningQuotaAndDegradation spent q) named := by
  unfold chatApplyReasoningQuotaAndDegradation
  split
  · exact hq
  · split
    · rename_i jbody hjbody
      obtain ⟨hreadable, hmodel⟩ := hq.tree jbody hjbody
      split
      · have hreadable' := readable_suppressReasoning hreadable
        have hnamed : (suppressReasoning jbody).get "model" = named := by
          rw [get_suppressReasoning, hmodel]
        refine ⟨(bodyMember_dumps hreadable' "model").trans hnamed, ?_⟩
        intro j hj
        obtain rfl := Option.some.inj hj
        exact ⟨hreadable', hnamed⟩
      · exact ⟨hq.body, hq.tree⟩
    · exact ⟨hq.body, hq.tree⟩

theorem bodyMember_optimise (o : Option Optimiser) (body : Bytes) :
    bodyMember (optimise o body) "model" = bodyMember body "model" := by
  unfold optimise
  split
  · rename_i o root hload
    split
    · split
      · rename_i es hes
        have hedits : ∀ (es : List (String × Json)) (j : Json),
            (∀ e ∈ es, e.1 ∈ optimisedKeys ∧ wellFormed e.2 = true ∧ depth e.2 + 1 ≤ maxDepth) →
            Readable j → Readable (es.foldl (fun j e => j.set e.1 e.2) j) ∧
              (es.foldl (fun j e => j.set e.1 e.2) j).get "model" = j.get "model" := by
          intro es
          induction es with
          | nil => exact fun j _ hj => ⟨hj, rfl⟩
          | cons e es ih =>
            intro j hok hj
            obtain ⟨hkey, hw, hd⟩ := hok e List.mem_cons_self
            have hnonzero : Nonzero (ascii e.1) := by
              have hall : ∀ key ∈ optimisedKeys, Nonzero (ascii key) := by
                intro key hkey
                simp only [optimisedKeys, List.mem_cons, List.not_mem_nil, or_false] at hkey
                rcases hkey with rfl | rfl | rfl | rfl <;> exact nonzero_ascii _ rfl
              exact hall e.1 hkey
            have hne : "model" ≠ e.1 := by
              intro h
              rw [← h] at hkey
              simp [optimisedKeys] at hkey
            obtain ⟨hreadable, hget⟩ := ih (j.set e.1 e.2)
              (fun e' he' => hok e' (List.mem_cons_of_mem _ he')) (hj.set hnonzero hw hd)
            exact ⟨hreadable, hget.trans (Json.get_set_of_ne j e.2 hne)⟩
        obtain ⟨hreadable, hget⟩ := hedits es root (o.edits_ok root es hes)
          (Readable.of_loads hload)
        rw [bodyMember_dumps hreadable, hget, bodyMember, hload, Option.bind_some]
      · rfl
    · rfl
  · rfl

/-- The body that the plugins put in the place of the one they are shown. -/
def pluginBody (g : Gateway) (r : ChatRequest) : Option Bytes :=
  (resolveChatTarget g r).bind fun (q, route) =>
    (filterGuardrails g r q).bind fun q =>
      (filterJailbreak g r q).bind fun q =>
        g.plugins.bind fun run =>
          let q := filterPromptTemplate r route q
          pluginNewBody (run q.model (pluginInput q))

/-- The model that a request asks for. -/
def askedModel (r : ChatRequest) : Bytes := requestedModel (loads (cString r.body))

/-- The model named in the plugins' body if there is one, else the requested one. -/
def namedModel (g : Gateway) (r : ChatRequest) : Option Json :=
  match pluginBody g r with
  | some body => bodyMember body "model"
  | none => some (.string (askedModel r))

/-- The body that the adapters are given names the same model as the plugins' or the client's. -/
theorem outgoing_names {g : Gateway} {r : ChatRequest} {q : ChatQuery} {route : ModelRec}
    (h : outgoing g r = some (q, route)) : bodyMember q.effBody "model" = namedModel g r := by
  obtain ⟨⟨q1, route1⟩, hinbound, heq⟩ := Option.map_eq_some_iff.mp h
  cases heq
  obtain ⟨⟨q0, route0⟩, hresolve, hchain⟩ := Option.bind_eq_some_iff.mp hinbound
  obtain ⟨q4, hfilters, heq⟩ := Option.map_eq_some_iff.mp hchain
  cases heq
  obtain ⟨hnames, hbody, -⟩ := names_resolve hresolve
  obtain ⟨q2, hguardrails, hfilters⟩ := Option.bind_eq_some_iff.mp hfilters
  obtain ⟨q3, hjailbreak, hplugins⟩ := Option.bind_eq_some_iff.mp hfilters
  have hnames2 := names_filterGuardrails hguardrails hbody hnames
  obtain rfl := filterJailbreak_eq hjailbreak
  have hnames4 := names_filterLuaPluginsInbound hplugins
    (names_filterPromptTemplate r route1 hnames2)
  have hplugin : pluginBody g r = g.plugins.bind fun run =>
      pluginNewBody (run (filterPromptTemplate r route1 q3).model
        (pluginInput (filterPromptTemplate r route1 q3))) := by
    rw [pluginBody, hresolve, Option.bind_some]
    dsimp only
    rw [hguardrails, Option.bind_some, hjailbreak, Option.bind_some]
  rw [← hplugin] at hnames4
  have hnames5 := names_degradation r.quotaSpent hnames4
  generalize chatApplyReasoningQuotaAndDegradation r.quotaSpent q4 = q5 at hnames5
  have hoptimised : Names { q5 with
      effBody := optimise g.cacheOptimizer (optimise g.compressor q5.effBody) }
      (namedModel g r) := by
    refine ⟨?_, hnames5.tree⟩
    rw [bodyMember_optimise, bodyMember_optimise]
    exact hnames5.body
  exact (names_degradation r.quotaSpentLater hoptimised).body

/-- The route is the one of the model after the canary rules and the SLA fallback. -/
theorem outgoing_route {g : Gateway} {r : ChatRequest} {q : ChatQuery} {route : ModelRec}
    (h : outgoing g r = some (q, route)) : route.name = routedModel g (askedModel r) := by
  obtain ⟨⟨q1, route1⟩, hinbound, heq⟩ := Option.map_eq_some_iff.mp h
  obtain ⟨⟨q0, route0⟩, hresolve, hchain⟩ := Option.bind_eq_some_iff.mp hinbound
  obtain ⟨q4, -, hpair⟩ := Option.map_eq_some_iff.mp hchain
  have hname : route.name = route1.name := by
    rw [← (Prod.mk.inj heq).2]
    split <;> rfl
  rw [hname, ← (Prod.mk.inj hpair).2]
  unfold resolveChatTarget at hresolve
  dsimp only at hresolve
  split at hresolve
  · cases hresolve
  · obtain ⟨route', hfind, heq'⟩ := Option.map_eq_some_iff.mp hresolve
    rw [← (Prod.mk.inj heq').2]
    have := List.find?_some hfind
    simpa [askedModel] using this

/-- The upstream of a target is told the model that the target was chosen for, whenever a
request gets as far as a call to it. -/
def RoutedModelTold (g : Gateway) (r : ChatRequest) (t : Target) : Prop :=
  ∀ q route adapter, outgoing g r = some (q, route) → providerFind t.provider = some adapter →
    NamesModel adapter (buildChat adapter (fillCurRoute route t) q.effBody)
      (routedModel g (askedModel r))

/-- The routed model is told exactly when the body names it: the stages edit the body that the
client or the plugins wrote, and none of them sets its model. -/
theorem routedModelTold_iff (g : Gateway) (r : ChatRequest) (t : Target) :
    RoutedModelTold g r t ↔ ∀ q route adapter, outgoing g r = some (q, route) →
      providerFind t.provider = some adapter → Agrees adapter route (namedModel g r) := by
  constructor
  · intro h q route adapter hout hadapter
    have := h q route adapter hout hadapter
    rw [← outgoing_route hout, namesModel_iff, outgoing_names hout] at this
    exact this
  · intro h q route adapter hout hadapter
    rw [← outgoing_route hout, namesModel_iff, outgoing_names hout]
    exact h q route adapter hout hadapter

/-- A model served by one target of the OpenAI family. -/
theorem sampleEndpoint_le : (ascii "https://api.openai.com/v1").length ≤ 511 := by
  rw [ascii_length]
  decide

def sampleModel (name : Bytes) (h : name.length ≤ 127) (h0 : Char.ofNat 0 ∉ name) : ModelRec where
  name := name
  provider := ascii "openai"
  endpoint := ascii "https://api.openai.com/v1"
  targets := []
  lbPolicy := []
  maxConcurrent := 0
  hedgedEnabled := false
  name_le := h
  endpoint_le := sampleEndpoint_le
  targets_le := Nat.zero_le _
  defaultParamsJson := []
  systemPrompt := []
  promptMode := .prepend
  supportsReasoning := false
  defaultThinkingBudget := 0
  name_nonzero := h0

/-- All requests for `gpt-4o` are sent to `gpt-4o-mini`; nothing else is configured. -/
def canaryGateway : Gateway where
  models := [sampleModel (ascii "gpt-4o-mini") (by rw [ascii_length]; decide)
    (nonzero_ascii _ rfl)]
  canaryRules := [⟨true, ascii "gpt-4o", ascii "gpt-4o-mini", []⟩]
  sampled _ := true
  cbState _ _ := .closed
  fallbackModel _ := []
  guardrails := none
  network := permissive
  jailbreak _ _ := false
  plugins := none
  compressor := none
  cacheOptimizer := none

/-- A request for `gpt-4o`. -/
def sampleTree : Json :=
  .object [(ascii "model", .string (ascii "gpt-4o")), (ascii "messages", .array [])]

def sampleRequest : ChatRequest where
  body := dumps sampleTree
  key := ⟨1, [], [], false, [], .prepend⟩
  clock := ⟨[], [], 0⟩
  quotaSpent := false
  quotaSpentLater := false

def sampleTarget : Target where
  provider := ascii "openai"
  endpoint := ascii "https://api.openai.com/v1"
  weight := 1
  priority := 0
  maxConcurrent := 0
  endpoint_le := sampleEndpoint_le

theorem readable_sampleTree : Readable sampleTree := by
  have hkeys : ascii "model" ≠ ascii "messages" := ascii_ne (by simp)
  have hmodel : Nonzero (ascii "model") := nonzero_ascii _ rfl
  have hmessages : Nonzero (ascii "messages") := nonzero_ascii _ rfl
  have hname : Nonzero (ascii "gpt-4o") := nonzero_ascii _ rfl
  refine ⟨rfl, ?_, by decide⟩
  simp [sampleTree, wellFormed, wellFormedMembers, wellFormedItems, hkeys, hmodel, hmessages,
    hname]

theorem asked_sampleRequest : askedModel sampleRequest = ascii "gpt-4o" := by
  rw [askedModel, sampleRequest, loads_cString_dumps readable_sampleTree]
  simp [requestedModel, sampleTree, Json.getString, Json.get, lookup, Json.stringValue]

/-- The canary sends the request to the target of `gpt-4o-mini`, which is told `gpt-4o`. -/
theorem routedModel_not_told : ¬RoutedModelTold canaryGateway sampleRequest sampleTarget := by
  have hne : ascii "gpt-4o" ≠ [] := by
    intro h
    have := congrArg List.length h
    rw [ascii_length] at this
    revert this
    decide
  have hrouted : routedModel canaryGateway (ascii "gpt-4o") = ascii "gpt-4o-mini" := by
    simp [routedModel, modelRouterApplyCanary, modelRouterResolveWithSla, canaryGateway,
      CanaryRule.applies, modelRouterResolve, sampleModel]
  have hasked := asked_sampleRequest
  have hresolve : resolveChatTarget canaryGateway sampleRequest =
      some (⟨ascii "gpt-4o-mini", some sampleTree, dumps sampleTree, SessionMap.empty, [], false⟩,
        sampleModel (ascii "gpt-4o-mini") (by rw [ascii_length]; decide)
          (nonzero_ascii _ rfl)) := by
    unfold askedModel at hasked
    unfold resolveChatTarget
    dsimp only
    rw [hasked, hrouted, if_neg (by simp [hne, keyAllowsModel, sampleRequest]), sampleRequest,
      loads_cString_dumps readable_sampleTree]
    simp [modelRouterResolve, canaryGateway, sampleModel]
  have hplugin : pluginBody canaryGateway sampleRequest = none := by
    rw [pluginBody, hresolve]
    simp [filterGuardrails, filterJailbreak, canaryGateway, sampleRequest]
  have hout : ∃ q route, outgoing canaryGateway sampleRequest = some (q, route) := by
    rw [outgoing, inbound, hresolve]
    refine ⟨_, _, rfl⟩
  obtain ⟨q, route, hout⟩ := hout
  intro h
  have htold := h q route .openai hout (by simp [providerFind, sampleTarget])
  have hroute := outgoing_route hout
  rw [← hroute, namesModel_iff, outgoing_names hout, namedModel, hplugin] at htold
  simp only [Agrees, Option.some_or, Option.some.injEq, Json.string.injEq] at htold
  rw [hroute, hasked, hrouted] at htold
  exact ascii_ne (by decide) htold

end Aigate.RoutedModel
