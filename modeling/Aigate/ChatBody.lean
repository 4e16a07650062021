import Aigate.CircuitBreaker
import Aigate.GuardrailsWebhook
import Aigate.JsonEdit
import Aigate.ModelRouter

/-!
# The body of a chat request

From the bytes that a client sends to the bytes that an adapter is given. The parsed request
names a model, which a canary rule and the SLA fallback may replace before the route is
looked up. The guardrails, the prompt template, the plugins, the reasoning quota and the
optimisers of the prompt may each put another body in the place of the current one.
-/
namespace Aigate.ChatBody
open Text JsonTree JsonText JsonEdit PiiText Guardrails GuardrailsWebhook ModelRouter CircuitBreaker

/-- `json_string`: the characters up to the first zero. -/
def jsonString (s : Bytes) : Json := .string (cString s)

/-- `json_loadb` reads a whole buffer, in which a zero is an error. -/
def loadb (buffer : Bytes) : Option Json :=
  if Char.ofNat 0 ∈ buffer then none else loads buffer

inductive PromptMode where
  | prepend
  | append
  | override
  deriving DecidableEq, Repr

/-- The fields of `model_rec_t` that routing and the adapters read. -/
structure ModelRec extends Route where
  defaultParamsJson : Bytes
  systemPrompt : Bytes
  promptMode : PromptMode
  supportsReasoning : Bool
  defaultThinkingBudget : ℤ
  name_nonzero : Char.ofNat 0 ∉ name

/-- The fields of `key_rec_t` that the stages read. -/
structure KeyRec where
  keyId : Int64
  name : Bytes
  allowedModels : List Bytes
  guardrailsEnabled : Bool
  systemPrompt : Bytes
  promptMode : PromptMode

structure CanaryRule where
  enabled : Bool
  sourceModel : Bytes
  targetModel : Bytes
  headerMatch : Bytes

/-- What the plugins make of a request. -/
inductive PluginResult where
  | abort
  | proceed (newModel newBody : Option Bytes)

/-- The members that an optimiser of the prompt may set. -/
def optimisedKeys : List String := ["messages", "tools", "functions", "system"]

/-- An optimiser of the prompt: from a parsed request, the new values of some members. -/
structure Optimiser where
  edits : Json → Option (List (String × Json))
  edits_ok : ∀ root es, edits root = some es → ∀ e ∈ es,
    e.1 ∈ optimisedKeys ∧ JsonRoundtrip.wellFormed e.2 = true ∧ depth e.2 + 1 ≤ maxDepth

/-- What a request meets: the routes that resolve, the canary rules with their draws, the
states of the breaker for a model and an endpoint, the fallback of a model, and the stages
that are configured. The verdict of the jailbreak detector has the whitelist taken into
account. -/
structure Gateway where
  models : List ModelRec
  canaryRules : List CanaryRule
  sampled : CanaryRule → Bool
  cbState : Bytes → Bytes → CbState
  fallbackModel : Bytes → Bytes
  guardrails : Option GuardrailsCtx
  network : Network
  jailbreak : Bytes → Bytes → Bool
  plugins : Option (Bytes → Bytes → PluginResult)
  compressor : Option Optimiser
  cacheOptimizer : Option Optimiser

/-- The date, the time and the seconds, as a template writes them. -/
structure Clock where
  date : Bytes
  time : Bytes
  timestamp : Int64

/-- A request of an authenticated key, and whether its reasoning quota is spent when that is
asked for the first and for the second time. -/
structure ChatRequest where
  body : Bytes
  key : KeyRec
  clock : Clock
  quotaSpent : Bool
  quotaSpentLater : Bool

/-- The fields of `chat_req_t` that the stages change. The strings that the guardrails
replaced are kept, though no code reads them. -/
structure ChatQuery where
  model : Bytes
  jbody : Option Json
  effBody : Bytes
  piiMap : SessionMap
  originals : List Bytes
  reasoningDegraded : Bool

/-- `key_allows_model`; an empty list allows every model. -/
def keyAllowsModel (k : KeyRec) (model : Bytes) : Bool :=
  k.allowedModels.isEmpty || k.allowedModels.contains model

/-- `model_router_resolve`. -/
def modelRouterResolve (g : Gateway) (model : Bytes) : Option ModelRec :=
  g.models.find? fun m => m.name = model

/-- `shadow_rule_matches` without headers, and the draw. -/
def CanaryRule.applies (g : Gateway) (source : Bytes) (rule : CanaryRule) : Bool :=
  rule.enabled && decide (rule.sourceModel = source) && rule.headerMatch.isEmpty &&
    g.sampled rule

/-- `model_router_apply_canary`: the first rule that applies and resolves decides; it is not
followed while the breaker is open for all targets of its model. -/
def modelRouterApplyCanary (g : Gateway) (source : Bytes) : List CanaryRule → Option Bytes
  | [] => none
  | rule :: rules =>
    if rule.applies g source then
      match modelRouterResolve g rule.targetModel with
      | none => modelRouterApplyCanary g source rules
      | some route =>
        if route.targets ≠ [] ∧ ∀ t ∈ route.targets, g.cbState route.name t.endpoint = .opened
        then none
        else some rule.targetModel
    else modelRouterApplyCanary g source rules

/-- `model_router_resolve_with_sla`: the fallback of a degraded model, unless it is not well
itself. The state of a model is kept for the empty endpoint. -/
def modelRouterResolveWithSla (g : Gateway) (requested : Bytes) : Option Bytes :=
  let fallback := (g.fallbackModel requested).take 63
  if g.cbState requested [] = .slaDegraded ∧ fallback ≠ [] then
    if g.cbState fallback [] = .opened ∨ g.cbState fallback [] = .slaDegraded then none
    else some fallback
  else none

/-- The model after the canary rules and the SLA fallback. -/
def routedModel (g : Gateway) (requested : Bytes) : Bytes :=
  let model := (modelRouterApplyCanary g requested g.canaryRules).getD requested
  (modelRouterResolveWithSla g model).getD model

/-- The model that a body names. -/
def requestedModel (jbody : Option Json) : Bytes :=
  (jbody.bind (·.getString "model")).getD []

/-- `resolve_chat_target`, up to the choice of the candidates. -/
def resolveChatTarget (g : Gateway) (r : ChatRequest) : Option (ChatQuery × ModelRec) :=
  let jbody := loads (cString r.body)
  let requested := requestedModel jbody
  if requested = [] ∨ keyAllowsModel r.key requested = false then none
  else
    let model := routedModel g requested
    (modelRouterResolve g model).map fun route =>
      (⟨model, jbody, r.body, SessionMap.empty, [], false⟩, route)

/-- The body that an inspection leaves, nothing when it refuses the request. -/
def Inspection.body (i : Inspection) (rawBody : Bytes) : Option Bytes :=
  match i.verdict with
  | .pass => some rawBody
  | .masked body => some body
  | .blocked _ => none

def Moderation.body (m : Moderation) (current : Bytes) : Option Bytes :=
  match m.decision with
  | .pass => some current
  | .masked body => some body
  | .blocked _ => none

def filterGuardrails (g : Gateway) (r : ChatRequest) (q : ChatQuery) : Option ChatQuery :=
  match g.guardrails with
  | none => some q
  | some gr =>
    if r.key.guardrailsEnabled = false ∨ r.body = [] then some q
    else
      let i := guardrailsInspectInboundWithPii gr r.body (some SessionMap.empty)
      (Inspection.body i r.body).bind fun masked =>
        let m := guardrailsInspectWebhookInbound gr g.network q.model r.key.keyId
          r.clock.timestamp masked
        (Moderation.body m masked).map fun body =>
          { q with
            effBody := body
            piiMap := i.map.getD SessionMap.empty
            originals := i.originals }

def filterJailbreak (g : Gateway) (r : ChatRequest) (q : ChatQuery) : Option ChatQuery :=
  if r.key.guardrailsEnabled = true ∧ q.effBody ≠ [] ∧ g.jailbreak q.model q.effBody = true then
    none
  else some q

/-- The value of a template variable. -/
def templateVar (clock : Clock) (model keyName name : Bytes) : Option Bytes :=
  if name = ascii "date" then some clock.date
  else if name = ascii "time" then some clock.time
  else if name = ascii "timestamp" then some (integerText clock.timestamp)
  else if name = ascii "model" then some model
  else if name = ascii "key_name" then some keyName
  else none

/-- `prompt_template_expand_vars`; what is not a variable stays as it is. -/
def promptTemplateExpandVars (clock : Clock) (model keyName : Bytes) : ℕ → Bytes → Bytes
  | 0, _ => []
  | _ + 1, [] => []
  | rounds + 1, c :: rest =>
    match c :: rest with
    | '$' :: '{' :: inner =>
      match (inner.dropWhile (· ≠ '}')),
        templateVar clock model keyName (inner.takeWhile (· ≠ '}')) with
      | _ :: after, some value =>
        value ++ promptTemplateExpandVars clock model keyName rounds after
      | _, _ => c :: promptTemplateExpandVars clock model keyName rounds rest
    | _ => c :: promptTemplateExpandVars clock model keyName rounds rest

def isSystemMessage (message : Json) : Bool :=
  message.getString "role" = some (ascii "system")

def systemContent (mode : PromptMode) (expanded : Bytes) (message : Json) : Bytes :=
  let orig := (message.getString "content").getD []
  match mode with
  | .override => expanded
  | .append => orig ++ '\n' :: '\n' :: expanded
  | .prepend => expanded ++ '\n' :: '\n' :: orig

/-- The first system message is given the template, or a new one is put in front. -/
def templateMessages (mode : PromptMode) (expanded : Bytes) (messages : List Json) : List Json :=
  (replaceFirst isSystemMessage
    (fun m => m.set "content" (jsonString (systemContent mode expanded m))) messages).getD
    (.object [(ascii "role", jsonString (ascii "system")),
      (ascii "content", jsonString expanded)] :: messages)

/-- `prompt_template_apply`: the edited request. -/
def promptTemplateApply (clock : Clock) (mode : PromptMode) (template model keyName : Bytes)
    (jbody : Json) : Option Json :=
  if template = [] then none
  else
    (jbody.getArray "messages").map fun messages =>
      jbody.set "messages" (.array (templateMessages mode
        (promptTemplateExpandVars clock model keyName template.length template) messages))

/-- The template of the key, or else that of the route. -/
def promptTemplate (k : KeyRec) (route : ModelRec) : Bytes × PromptMode :=
  if k.systemPrompt ≠ [] then (k.systemPrompt, k.promptMode)
  else (route.systemPrompt, route.promptMode)

/-- The tree is the one parsed from the client's bytes, not from what the guardrails left. -/
def filterPromptTemplate (r : ChatRequest) (route : ModelRec) (q : ChatQuery) : ChatQuery :=
  let template := promptTemplate r.key route
  match q.jbody.bind
    (promptTemplateApply r.clock template.2 template.1 q.model r.key.name) with
  | none => q
  | some edited => { q with jbody := some edited, effBody := dumps edited }

/-- The body that the plugins are shown. -/
def pluginInput (q : ChatQuery) : Bytes :=
  if q.effBody ≠ [] then q.effBody else (q.jbody.map dumps).getD []

/-- The buffer of `new_model` has 64 bytes. -/
def pluginModel (q : ChatQuery) (newModel : Option Bytes) : Bytes :=
  match newModel with
  | some m => if m = [] then q.model else m.take 63
  | none => q.model

def pluginNewBody : PluginResult → Option Bytes
  | .abort => none
  | .proceed _ newBody => newBody

def filterLuaPluginsInbound (g : Gateway) (q : ChatQuery) : Option ChatQuery :=
  match g.plugins with
  | none => some q
  | some run =>
    match run q.model (pluginInput q) with
    | .abort => none
    | .proceed newModel none => some { q with model := pluginModel q newModel }
    | .proceed newModel (some body) =>
      some { q with model := pluginModel q newModel, effBody := body, jbody := loadb body }

/-- `filter_chain_execute_inbound`. -/
def filterChainExecuteInbound (g : Gateway) (r : ChatRequest) (route : ModelRec)
    (q : ChatQuery) : Option ChatQuery :=
  (filterGuardrails g r q).bind fun q =>
    (filterJailbreak g r q).bind fun q =>
      filterLuaPluginsInbound g (filterPromptTemplate r route q)

/-- The thinking object of a request whose reasoning quota is spent. -/
def noThinking : Json :=
  .object [(ascii "type", jsonString (ascii "enabled")), (ascii "budget_tokens", .integer 0)]

def suppressReasoning (jbody : Json) : Json :=
  ((jbody.set "thinking" noThinking).del "reasoning_effort").del "max_thinking_tokens"

/-- `chat_apply_reasoning_quota_and_degradation`, with the answer of the rate limiter. -/
def chatApplyReasoningQuotaAndDegradation (spent : Bool) (q : ChatQuery) : ChatQuery :=
  if q.reasoningDegraded = true ∨ spent = false then q
  else
    match q.jbody with
    | some jbody =>
      if jbody.isObject then
        { q with
          reasoningDegraded := true
          jbody := some (suppressReasoning jbody)
          effBody := dumps (suppressReasoning jbody) }
      else { q with reasoningDegraded := true }
    | none => { q with reasoningDegraded := true }

/-- The optimisers parse the current body and leave it alone when it is not an object. -/
def optimise (o : Option Optimiser) (body : Bytes) : Bytes :=
  match o, loads (cString body) with
  | some o, some root =>
    if root.isObject then
      match o.edits root with
      | some es => dumps (es.foldl (fun j e => j.set e.1 e.2) root)
      | none => body
    else body
  | _, _ => body

/-- The request as the cache and the optimisers find it. -/
def inbound (g : Gateway) (r : ChatRequest) : Option (ChatQuery × ModelRec) :=
  (resolveChatTarget g r).bind fun (q, route) =>
    (filterChainExecuteInbound g r route q).map fun q =>
      (chatApplyReasoningQuotaAndDegradation r.quotaSpent q, route)

/-- The request as the adapters find it. -/
def outgoing (g : Gateway) (r : ChatRequest) : Option (ChatQuery × ModelRec) :=
  (inbound g r).map fun (q, route) =>
    let q := { q with effBody := optimise g.cacheOptimizer (optimise g.compressor q.effBody) }
    let q := chatApplyReasoningQuotaAndDegradation r.quotaSpentLater q
    (q, if q.reasoningDegraded then { route with defaultThinkingBudget := 0 } else route)

end Aigate.ChatBody
