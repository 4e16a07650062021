import Aigate.ChatBody
import Aigate.PiiRestore
import Aigate.StreamCache
import Aigate.Watermark

/-!
# The outbound filters

What becomes of an answer from upstream before it is stored and sent: the webhooks may refuse
it or put other text in its place; else the placeholders of the request are restored, a
watermark is put in, and the plugins have the last word.
-/
namespace Aigate.OutboundFilters
open Text JsonTree JsonText PiiText Guardrails GuardrailsWebhook ChatBody PiiRestore StreamCache
  Watermark

/-- The text of an answer that `extract_outbound_content` sends to the webhooks. -/
def outboundContent (body : Bytes) : Bytes :=
  (((jsonLoads (cString body)).bind firstChoice).bind fun c0 =>
    ((c0.get "message").bind (·.getString "content")).or (c0.getString "text")).getD (cString body)

/-- Edit the first choice of an answer. -/
def editFirstChoice (f : Json → Json) (root : Json) : Json :=
  match root.getArray "choices" with
  | some (c0 :: choices) => root.set "choices" (.array (f c0 :: choices))
  | _ => root

def maskChoice (content : Bytes) (c0 : Json) : Json :=
  match (c0.get "message").filter Json.isObject with
  | some msg => c0.set "message" (msg.set "content" (.string content))
  | none => if (c0.get "text").isSome then c0.set "text" (.string content) else c0

/-- `apply_outbound_mask`. -/
def applyOutboundMask (body content : Bytes) : Bytes :=
  match (jsonLoads (cString body)).filter Json.isObject with
  | none => content
  | some root => dumps (editFirstChoice (maskChoice content) root)

/-- The loop of `guardrails_inspect_webhook_outbound` from the current body. -/
def inspectWebhooksOutbound (network : Network) (model : Bytes) (keyId timestamp : Int64) :
    List WebhookRule → Bytes → Bool → Decision
  | [], body, anyMasked => if anyMasked then .masked body else .pass
  | rule :: rules, body, anyMasked =>
    let request := dumps (webhookRequest "outbound" model keyId (outboundContent body) none
      timestamp)
    match readAnswer rule (network rule request) with
    | .blocked reason => .blocked reason
    | .masked content =>
      inspectWebhooksOutbound network model keyId timestamp rules
        (applyOutboundMask body content) true
    | .pass => inspectWebhooksOutbound network model keyId timestamp rules body anyMasked

/-- `guardrails_inspect_webhook_outbound`. -/
def guardrailsInspectWebhookOutbound (ctx : GuardrailsCtx) (network : Network) (model : Bytes)
    (keyId timestamp : Int64) (body : Bytes) : Decision :=
  if body = [] then .pass
  else inspectWebhooksOutbound network model keyId timestamp (rulesCopy ctx "outbound") body false

/-- The string member of a key, unless it is empty. -/
def nonemptyString (j : Json) (key : String) : Option Bytes :=
  (j.getString key).filter (· ≠ [])

/-- The content of the message of the first choice gets the tiles. -/
def markMessage (p : WatermarkPayload) (root : Json) : Option Json :=
  (((firstChoice root).bind (·.get "message")).bind (nonemptyString · "content")).map fun text =>
    editFirstChoice (fun c0 => c0.set "message"
      (((c0.get "message").getD .null).set "content" (.string (watermarkInject p text)))) root

/-- A block with a text that is not the model's thinking. -/
def isTextBlock (block : Json) : Bool :=
  decide (block.getString "type" ≠ some (ascii "thinking")) && (nonemptyString block "text").isSome

def markBlock (p : WatermarkPayload) (block : Json) : Json :=
  block.set "text" (.string (watermarkInject p ((block.getString "text").getD [])))

/-- The first such block gets the tiles. -/
def markContent (p : WatermarkPayload) (root : Json) : Option Json :=
  ((root.getArray "content").bind (replaceFirst isTextBlock (markBlock p))).map fun blocks =>
    root.set "content" (.array blocks)

/-- The watermark of an answer, in either of two formats. -/
def watermarkAnswer (p : WatermarkPayload) (body : Bytes) : Bytes :=
  match (jsonLoads (cString body)).bind fun root => (markMessage p root).or (markContent p root) with
  | some marked => dumps marked
  | none => body

/-- What the plugins make of an answer. -/
inductive PluginResponse where
  | abort
  | proceed (newBody : Option Bytes)

/-- What the filters of a request are given besides its query: whether its key has watermarks,
its trace, and the plugins that see the model and the answer. -/
structure Outbound where
  watermarkEnabled : Bool
  traceId : Bytes
  plugins : Option (Bytes → Bytes → PluginResponse)

/-- The webhooks' decision about an answer; a key without guardrails has none asked. -/
def outboundDecision (g : Gateway) (r : ChatRequest) (q : ChatQuery) (now : Int64)
    (body : Bytes) : Decision :=
  match g.guardrails with
  | none => .pass
  | some gr =>
    if r.key.guardrailsEnabled then
      guardrailsInspectWebhookOutbound gr g.network q.model r.key.keyId now body
    else .pass

def filterWatermark (o : Outbound) (keyId now : Int64) (body : Bytes) : Bytes :=
  if o.watermarkEnabled then watermarkAnswer (answerPayload keyId now o.traceId) body else body

def filterLuaPluginsOutbound (o : Outbound) (model body : Bytes) : Option Bytes :=
  match o.plugins with
  | none => some body
  | some run =>
    match run model body with
    | .abort => none
    | .proceed newBody => some (newBody.getD body)

/-- `filter_chain_execute_outbound`: the body that the caller goes on with, nothing when the
request is refused. -/
def filterChainExecuteOutbound (g : Gateway) (o : Outbound) (r : ChatRequest) (q : ChatQuery)
    (now : Int64) (body : Bytes) : Option Bytes :=
  if body = [] then some body
  else
    match outboundDecision g r q now body with
    | .blocked _ => none
    | .masked masked => some masked
    | .pass =>
      filterLuaPluginsOutbound o q.model
        (filterWatermark o r.key.keyId now (restored q.piiMap body))

/-- A text without any placeholder of a map is restored to itself. -/
theorem restored_of_no_placeholder {map : SessionMap} {text : Bytes}
    (h : ∀ e ∈ map.entries, ¬e.placeholder <:+: text) : restored map text = text := by
  have hloop : ∀ (skip : ℕ) (t : Bytes), skip = 0 → t <:+: text →
      restoreLoop map skip t = (t, false) := by
    intro skip t
    fun_induction restoreLoop map skip t with
    | case1 => exact fun _ _ => rfl
    | case2 skip c rest ih => exact fun hskip => absurd hskip (Nat.succ_ne_zero skip)
    | case3 c rest skip original htoken ih =>
      intro _ hin
      have hopen : c = '[' := by
        by_contra hne
        rw [if_neg hne] at htoken
        cases htoken
      rw [if_pos hopen] at htoken
      unfold tokenAhead at htoken
      split at htoken
      · rename_i letters _
        obtain ⟨found, hfound, -⟩ := Option.map_eq_some_iff.mp htoken
        unfold SessionMap.lookupToken at hfound
        split at hfound
        · cases hfound
        · obtain ⟨e, he, -⟩ := Option.map_eq_some_iff.mp hfound
          have hname : e.placeholder = '[' :: rest.take (letters + 1) := by
            simpa using List.find?_some he
          refine absurd ?_ (h e (List.mem_of_find?_eq_some he))
          rw [hname, ← hopen]
          exact ((List.take_prefix (letters + 2) (c :: rest)).isInfix).trans hin
      · cases htoken
    | case4 c rest htoken ih =>
      intro _ hin
      rw [ih rfl ((List.suffix_cons c rest).isInfix.trans hin)]
  unfold restored guardrailsRestorePiiText
  split
  · rfl
  · rw [hloop 0 text rfl List.infix_rfl]
    rfl

/-- The map matters to the filters only through what it restores. -/
theorem filterChainExecuteOutbound_congr {g : Gateway} {o : Outbound} {r r' : ChatRequest}
    {q q' : ChatQuery} {now : Int64} {body : Bytes} (hkey : r'.key = r.key)
    (hmodel : q'.model = q.model)
    (h : outboundDecision g r q now body = .pass → restored q'.piiMap body = restored q.piiMap body) :
    filterChainExecuteOutbound g o r' q' now body = filterChainExecuteOutbound g o r q now body := by
  have hdecision : outboundDecision g r' q' now body = outboundDecision g r q now body := by
    unfold outboundDecision
    rw [hkey, hmodel]
  unfold filterChainExecuteOutbound
  rw [hdecision]
  split
  · rfl
  · cases hd : outboundDecision g r q now body with
    | pass =>
      dsimp only
      rw [h hd, hmodel, hkey]
    | masked _ => rfl
    | blocked _ => rfl

end Aigate.OutboundFilters
