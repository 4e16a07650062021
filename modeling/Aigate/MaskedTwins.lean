import Aigate.RoutedModel

/-!
# Requests that are masked alike

Two requests that differ only in the entities that the guardrails mask. As long as no later
stage writes a body from the tree of what the client sent, they reach the cache and the
adapters with the same body.
-/
namespace Aigate.MaskedTwins
open Text JsonTree JsonText JsonEdit PiiText Guardrails GuardrailsWebhook GuardrailsEdits
  ModelRouter ChatBody ProviderModel RoutedModel

/-- The guardrails put a body in the place of the client's. -/
def MaskedTo (g : Gateway) (r : ChatRequest) (body : Bytes) : Prop :=
  ∃ gr, g.guardrails = some gr ∧ r.key.guardrailsEnabled = true ∧
    (guardrailsInspectInboundWithPii gr r.body (some SessionMap.empty)).verdict = .masked body

/-- Requests that say the same, but for what is masked in them. -/
structure Twins (g : Gateway) (r r' : ChatRequest) : Prop where
  rest : r' = { r with body := r'.body }
  asked : askedModel r' = askedModel r
  masked : ∃ body, MaskedTo g r body ∧ MaskedTo g r' body

/-- No template is put into the tree of the client's body, and when the reasoning quota is spent
the tree is that of a body of the plugins. -/
structure FromMasked (g : Gateway) (r : ChatRequest) : Prop where
  template : ∀ q route, resolveChatTarget g r = some (q, route) →
    q.jbody.bind (promptTemplateApply r.clock (promptTemplate r.key route).2
      (promptTemplate r.key route).1 q.model r.key.name) = none
  quota : r.quotaSpent = true ∨ r.quotaSpentLater = true → (pluginBody g r).isSome = true

/-- Queries that differ in their maps, and in the texts of their trees if no quota is spent. -/
structure Alike (spent : Prop) (q q' : ChatQuery) : Prop where
  model : q'.model = q.model
  effBody : q'.effBody = q.effBody
  degraded : q'.reasoningDegraded = q.reasoningDegraded
  tree : ∀ key, key ∉ textKeys → q'.jbody.bind (·.get key) = q.jbody.bind (·.get key)
  same : spent → q'.jbody = q.jbody

theorem MaskedTo.edited {g : Gateway} {r : ChatRequest} {body : Bytes} (h : MaskedTo g r body) :
    Edited r.body body := by
  obtain ⟨gr, -, -, hverdict⟩ := h
  have hbody : Inspection.body (guardrailsInspectInboundWithPii gr r.body (some SessionMap.empty))
      r.body = some body := by
    rw [Inspection.body, hverdict]
  exact edited_inspection hbody

/-- What the webhooks leave of the masked body. -/
def moderated (g : Gateway) (gr : GuardrailsCtx) (r : ChatRequest) (model masked : Bytes) :
    Option Bytes :=
  Moderation.body (guardrailsInspectWebhookInbound gr g.network model r.key.keyId
    r.clock.timestamp masked) masked

/-- The guardrails' stage, when they mask. -/
theorem MaskedTo.filter {g : Gateway} {gr : GuardrailsCtx} {r : ChatRequest} {masked : Bytes}
    (h : MaskedTo g r masked) (hgr : g.guardrails = some gr) (q : ChatQuery) :
    ∃ map originals, filterGuardrails g r q = (moderated g gr r q.model masked).map fun body =>
      { q with effBody := body, piiMap := map, originals := originals } := by
  obtain ⟨gr', hgr', henabled, hverdict⟩ := h
  obtain rfl := Option.some.inj (hgr.symm.trans hgr')
  have hne : ¬(r.key.guardrailsEnabled = false ∨ r.body = []) := by
    rintro (hoff | hnil)
    · rw [henabled] at hoff
      cases hoff
    · rw [hnil] at hverdict
      cases hverdict
  let i := guardrailsInspectInboundWithPii gr r.body (some SessionMap.empty)
  refine ⟨i.map.getD SessionMap.empty, i.originals, ?_⟩
  unfold filterGuardrails
  rw [hgr]
  dsimp only
  rw [if_neg hne, Inspection.body, hverdict, Option.bind_some]
  rfl

/-- Without a template the stages behind the guardrails start from the masked body. -/
theorem MaskedTo.chain {g : Gateway} {gr : GuardrailsCtx} {r : ChatRequest} {masked : Bytes}
    (h : MaskedTo g r masked) (hgr : g.guardrails = some gr) (hr : FromMasked g r) {q : ChatQuery}
    {route : ModelRec} (hres : resolveChatTarget g r = some (q, route)) :
    ∃ map originals,
      filterChainExecuteInbound g r route q = ((moderated g gr r q.model masked).bind fun body =>
        filterJailbreak g r { q with effBody := body, piiMap := map, originals := originals }).bind
          (filterLuaPluginsInbound g) ∧
      pluginBody g r = ((moderated g gr r q.model masked).bind fun body =>
        filterJailbreak g r { q with effBody := body, piiMap := map, originals := originals }).bind
          fun q => g.plugins.bind fun run => pluginNewBody (run q.model (pluginInput q)) := by
  obtain ⟨map, originals, hfilter⟩ := h.filter hgr q
  have htemplate : ∀ body q', filterJailbreak g r
      { q with effBody := body, piiMap := map, originals := originals } = some q' →
        filterPromptTemplate r route q' = q' := by
    intro body q' hq'
    obtain rfl := filterJailbreak_eq hq'
    unfold filterPromptTemplate
    dsimp only
    rw [hr.template q route hres]
  refine ⟨map, originals, ?_, ?_⟩
  · unfold filterChainExecuteInbound
    rw [hfilter]
    cases moderated g gr r q.model masked with
    | none => rfl
    | some body =>
      rw [Option.map_some, Option.bind_some, Option.bind_some]
      refine Option.bind_congr fun q' hq' => ?_
      rw [htemplate body q' hq']
  · unfold pluginBody
    rw [hres, Option.bind_some]
    dsimp only
    rw [hfilter]
    cases moderated g gr r q.model masked with
    | none => rfl
    | some body =>
      rw [Option.map_some, Option.bind_some, Option.bind_some]
      refine Option.bind_congr fun q' hq' => ?_
      rw [htemplate body q' hq']

/-- A request whose target resolves is an object that names its model. -/
theorem isObject_of_resolve {g : Gateway} {r : ChatRequest} {q : ChatQuery} {route : ModelRec}
    (h : resolveChatTarget g r = some (q, route)) :
    ∃ j, loads (cString r.body) = some j ∧ j.isObject = true := by
  obtain ⟨hnames, hbody, -⟩ := names_resolve h
  have hmember := hnames.body
  rw [hbody, bodyMember] at hmember
  obtain ⟨j, hload, hget⟩ := Option.bind_eq_some_iff.mp hmember
  exact ⟨j, hload, isObject_of_get hget⟩

theorem Twins.resolve {g : Gateway} {r r' : ChatRequest} (h : Twins g r r') :
    resolveChatTarget g r = none ∧ resolveChatTarget g r' = none ∨
      ∃ model route, resolveChatTarget g r =
          some (⟨model, loads (cString r.body), r.body, SessionMap.empty, [], false⟩, route) ∧
        resolveChatTarget g r' =
          some (⟨model, loads (cString r'.body), r'.body, SessionMap.empty, [], false⟩, route) := by
  have hasked := h.asked
  unfold askedModel at hasked
  have hkey : r'.key = r.key := by rw [h.rest]
  unfold resolveChatTarget
  dsimp only
  rw [hasked, hkey]
  split
  · exact Or.inl ⟨rfl, rfl⟩
  · cases modelRouterResolve g (routedModel g (requestedModel (loads (cString r.body)))) with
    | none => exact Or.inl ⟨rfl, rfl⟩
    | some route => exact Or.inr ⟨_, route, rfl, rfl⟩

/-- The members beside the texts are the same in both. -/
theorem Twins.members {g : Gateway} {r r' : ChatRequest} (h : Twins g r r') {j j' : Json}
    (hload : loads (cString r.body) = some j) (hobj : j.isObject = true)
    (hload' : loads (cString r'.body) = some j') (hobj' : j'.isObject = true) {key : String}
    (hkey : key ∉ textKeys) : j'.get key = j.get key := by
  obtain ⟨body, hmasked, hmasked'⟩ := h.masked
  obtain ⟨k, hk, -, hget⟩ := hmasked.edited j hload hobj
  obtain ⟨k', hk', -, hget'⟩ := hmasked'.edited j' hload' hobj'
  obtain rfl := Option.some.inj (hk.symm.trans hk')
  rw [← hget key hkey, ← hget' key hkey]

/-- What the webhooks leave of an object is not empty. -/
theorem moderated_ne_nil {g : Gateway} {gr : GuardrailsCtx} {r : ChatRequest}
    {model masked body : Bytes} {j : Json} (h : moderated g gr r model masked = some body)
    (hmasked : MaskedTo g r masked) (hload : loads (cString r.body) = some j)
    (hobj : j.isObject = true) : body ≠ [] := by
  intro hnil
  obtain ⟨j', hload', hobj', -⟩ := (hmasked.edited.trans (edited_moderation h)) j hload hobj
  rw [hnil] at hload'
  cases hload'

/-- The stage of the plugins, on queries with the same body and model. -/
theorem plugins_alike {g : Gateway} {spent : Prop} {q q' : ChatQuery} (h : Alike False q q')
    (hne : q.effBody ≠ [])
    (hspent : spent → ∃ run newModel body, g.plugins = some run ∧
      run q.model (pluginInput q) = .proceed newModel (some body)) :
    Option.Rel (Alike spent) (filterLuaPluginsInbound g q) (filterLuaPluginsInbound g q') := by
  have hinput : pluginInput q' = pluginInput q := by
    unfold pluginInput
    rw [h.effBody, if_pos hne, if_pos hne]
  have hnew : ∀ m, pluginModel q' m = pluginModel q m := by
    intro m
    unfold pluginModel
    rw [h.model]
  unfold filterLuaPluginsInbound
  cases hplugins : g.plugins with
  | none =>
    refine Option.Rel.some ⟨h.model, h.effBody, h.degraded, h.tree, fun hs => ?_⟩
    obtain ⟨run, -, -, hrun, -⟩ := hspent hs
    rw [hplugins] at hrun
    cases hrun
  | some run =>
    dsimp only
    rw [h.model, hinput]
    cases hrun : run q.model (pluginInput q) with
    | abort => exact Option.Rel.none
    | proceed newModel newBody =>
      cases newBody with
      | none =>
        refine Option.Rel.some ⟨hnew newModel, h.effBody, h.degraded, h.tree, fun hs => ?_⟩
        obtain ⟨run', newModel', body, hrun', hbody⟩ := hspent hs
        obtain rfl := Option.some.inj (hplugins.symm.trans hrun')
        rw [hrun] at hbody
        cases hbody
      | some body =>
        exact Option.Rel.some ⟨hnew newModel, rfl, h.degraded, fun _ _ => rfl, fun _ => rfl⟩

/-- The quota's stage works on the same tree in both, if it is spent. -/
theorem degradation_alike {spent : Prop} {now : Bool} {q q' : ChatQuery} (h : Alike spent q q')
    (hspent : now = true → spent) :
    Alike spent (chatApplyReasoningQuotaAndDegradation now q)
      (chatApplyReasoningQuotaAndDegradation now q') := by
  unfold chatApplyReasoningQuotaAndDegradation
  rw [h.degraded]
  split
  · exact h
  · rename_i hnow
    have hs : spent := hspent (by
      cases now with
      | true => rfl
      | false => exact absurd (Or.inr rfl) hnow)
    rw [h.same hs]
    split
    · split
      · exact ⟨h.model, rfl, rfl, fun _ _ => rfl, fun _ => rfl⟩
      · exact ⟨h.model, h.effBody, rfl, fun _ _ => rfl, fun _ => rfl⟩
    · exact ⟨h.model, h.effBody, rfl, fun _ _ => rfl, fun _ => rfl⟩

theorem rel_map {α β γ δ : Type} {R : α → β → Prop} {S : γ → δ → Prop} {f : α → γ} {k : β → δ}
    {a : Option α} {b : Option β} (h : Option.Rel R a b) (hf : ∀ x y, R x y → S (f x) (k y)) :
    Option.Rel S (a.map f) (b.map k) := by
  cases h with
  | none => exact Option.Rel.none
  | some hxy => exact Option.Rel.some (hf _ _ hxy)

theorem rel_bind_eq {α β γ : Type} {R : α → β → Prop} {f : α → Option γ} {k : β → Option γ}
    {a : Option α} {b : Option β} (h : Option.Rel R a b)
    (hf : ∀ x y, a = some x → b = some y → R x y → k y = f x) : b.bind k = a.bind f := by
  cases h with
  | none => rfl
  | some hxy => exact hf _ _ rfl rfl hxy

/-- Both requests are refused, or the cache finds them with the same body. -/
theorem Twins.inbound {g : Gateway} {r r' : ChatRequest} (h : Twins g r r') (hr : FromMasked g r)
    (hr' : FromMasked g r') :
    Option.Rel (fun p p' => Alike (r.quotaSpent = true ∨ r.quotaSpentLater = true) p.1 p'.1 ∧
      p'.2 = p.2) (ChatBody.inbound g r) (ChatBody.inbound g r') := by
  have hkey : r'.key = r.key := by rw [h.rest]
  have hclock : r'.clock = r.clock := by rw [h.rest]
  have hspent : r'.quotaSpent = r.quotaSpent := by rw [h.rest]
  unfold ChatBody.inbound
  rw [hspent]
  rcases h.resolve with ⟨hnone, hnone'⟩ | ⟨model, route, hres, hres'⟩
  · rw [hnone, hnone']
    exact Option.Rel.none
  obtain ⟨j, hload, hobj⟩ := isObject_of_resolve hres
  obtain ⟨j', hload', hobj'⟩ := isObject_of_resolve hres'
  obtain ⟨masked, hmasked, hmasked'⟩ := h.masked
  obtain ⟨gr, hgr, -⟩ := id hmasked
  obtain ⟨map, originals, hchain, hplugin⟩ := hmasked.chain hgr hr hres
  obtain ⟨map', originals', hchain', -⟩ := hmasked'.chain hgr hr' hres'
  have hmoderated : moderated g gr r' model masked = moderated g gr r model masked := by
    unfold moderated
    rw [hkey, hclock]
  rw [hres, hres', Option.bind_some, Option.bind_some]
  dsimp only at hchain hchain' hplugin ⊢
  rw [hchain, hchain', hmoderated]
  cases hbody : moderated g gr r model masked with
  | none => exact Option.Rel.none
  | some body =>
    rw [hbody] at hplugin
    rw [Option.bind_some] at hplugin ⊢
    rw [Option.bind_some]
    have hne : body ≠ [] := moderated_ne_nil hbody hmasked hload hobj
    unfold filterJailbreak at hplugin ⊢
    dsimp only at hplugin ⊢
    rw [hkey]
    split
    · exact Option.Rel.none
    · rename_i hpass
      rw [if_neg hpass, Option.bind_some] at hplugin
      rw [Option.bind_some, Option.bind_some]
      have hnew : r.quotaSpent = true ∨ r.quotaSpentLater = true →
          ∃ run newModel new, g.plugins = some run ∧
            run model (pluginInput ⟨model, loads (cString r.body), body, map, originals, false⟩) =
              .proceed newModel (some new) := by
        intro hspent
        obtain ⟨new, hsome⟩ := Option.isSome_iff_exists.mp (hr.quota hspent)
        rw [hplugin] at hsome
        obtain ⟨run, hrun, hsome⟩ := Option.bind_eq_some_iff.mp hsome
        cases hproceed : run model
            (pluginInput ⟨model, loads (cString r.body), body, map, originals, false⟩) with
        | abort =>
          rw [hproceed] at hsome
          cases hsome
        | proceed newModel newBody =>
          rw [hproceed] at hsome
          exact ⟨run, newModel, new, hrun, by rw [hproceed, show newBody = some new from hsome]⟩
      have halike : Alike False
          (⟨model, loads (cString r.body), body, map, originals, false⟩ : ChatQuery)
          ⟨model, loads (cString r'.body), body, map', originals', false⟩ :=
        ⟨rfl, rfl, rfl, fun key hk => by
          rw [hload, hload', Option.bind_some, Option.bind_some]
          exact h.members hload hobj hload' hobj' hk, fun hf => hf.elim⟩
      have hplugins := plugins_alike halike hne hnew
      exact rel_map hplugins fun q q' hq => ⟨degradation_alike hq Or.inl, rfl⟩

/-- Both requests are refused, or the adapters are given the same body and route. -/
theorem Twins.outgoing {g : Gateway} {r r' : ChatRequest} (h : Twins g r r') (hr : FromMasked g r)
    (hr' : FromMasked g r') :
    Option.Rel (fun p p' => Alike (r.quotaSpent = true ∨ r.quotaSpentLater = true) p.1 p'.1 ∧
      p'.2 = p.2) (ChatBody.outgoing g r) (ChatBody.outgoing g r') := by
  have hlater : r'.quotaSpentLater = r.quotaSpentLater := by rw [h.rest]
  refine rel_map (h.inbound hr hr') fun p p' hp => ?_
  obtain ⟨q, route⟩ := p
  obtain ⟨q', route'⟩ := p'
  obtain ⟨hq, hroute⟩ := hp
  have hsettled : Alike (r.quotaSpent = true ∨ r.quotaSpentLater = true)
      (chatApplyReasoningQuotaAndDegradation r.quotaSpentLater
        { q with effBody := optimise g.cacheOptimizer (optimise g.compressor q.effBody) })
      (chatApplyReasoningQuotaAndDegradation r.quotaSpentLater
        { q' with effBody := optimise g.cacheOptimizer (optimise g.compressor q'.effBody) }) := by
    refine degradation_alike ⟨hq.model, ?_, hq.degraded, hq.tree, hq.same⟩ Or.inr
    rw [hq.effBody]
  dsimp only at hroute ⊢
  rw [hlater]
  refine ⟨hsettled, ?_⟩
  rw [hsettled.degraded, hroute]

end Aigate.MaskedTwins
