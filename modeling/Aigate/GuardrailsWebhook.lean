import Aigate.Guardrails

/-!
# External webhook moderation

The webhooks of a phase are consulted one after the other. Each is sent the text under
inspection and may let it pass, replace it or refuse the request.
-/
namespace Aigate.GuardrailsWebhook
open Text JsonTree JsonText Guardrails

/-- The answer of an HTTP request that completed. -/
structure HttpAnswer where
  status : ℕ
  body : Bytes
  deriving DecidableEq

/-- The network: how a webhook answers a request, `none` when the transfer fails. -/
abbrev Network := WebhookRule → Bytes → Option HttpAnswer

/-- `strcasecmp` finds no difference. -/
def sameIgnoringCase (s : Bytes) (word : String) : Bool := lower s = lower (ascii word)

def WebhookRule.covers (rule : WebhookRule) (phase : String) : Bool :=
  sameIgnoringCase rule.phase phase || sameIgnoringCase rule.phase "both"

/-- The rules copied from the table for one phase. -/
def rulesCopy (ctx : GuardrailsCtx) (phase : String) : List WebhookRule :=
  ctx.webhooks.filter fun rule => WebhookRule.covers rule phase

/-- The request that a webhook is sent. -/
def webhookRequest (phase : String) (model : Bytes) (keyId : Int64) (content : Bytes)
    (messages : Option (List Json)) (timestamp : Int64) : Json :=
  .object [(ascii "phase", .string (ascii phase)), (ascii "model", .string model),
    (ascii "key_id", .integer keyId), (ascii "content", .string content),
    (ascii "messages", (messages.map Json.array).getD .null),
    (ascii "timestamp", .integer timestamp)]

/-- What a webhook decides. -/
inductive Decision where
  | pass
  | masked (content : Bytes)
  | blocked (reason : Bytes)
  deriving DecidableEq

/-- An unusable answer refuses the request when the rule fails closed. -/
def onFailure (rule : WebhookRule) (reason : String) : Decision :=
  if sameIgnoringCase rule.failMode "closed" then .blocked (ascii reason) else .pass

/-- The reading of a webhook's answer in `execute_single_webhook`. -/
def readAnswer (rule : WebhookRule) (answer : Option HttpAnswer) : Decision :=
  match answer with
  | none => onFailure rule "moderation_webhook_unavailable"
  | some answer =>
    if answer.status < 200 ∨ 300 ≤ answer.status then
      onFailure rule "moderation_webhook_unavailable"
    else
      match loads (cString answer.body) with
      | none => onFailure rule "moderation_webhook_invalid_response"
      | some resp =>
        if !resp.isObject then onFailure rule "moderation_webhook_invalid_response"
        else
          let act := (resp.getString "action").getD (ascii "pass")
          if sameIgnoringCase act "block" then
            .blocked ((resp.getString "reason").getD (ascii "content_policy_violation"))
          else if sameIgnoringCase act "mask" then
            match resp.getString "masked_content" with
            | some content => .masked content
            | none => .pass
          else .pass

def partText (parts : List Json) : Option Bytes := parts.findSome? (·.getString "text")

/-- The text of a user message. -/
def userText (message : Json) : Option Bytes :=
  if message.getString "role" = some (ascii "user") then
    (message.getString "content").or ((message.getArray "content").bind partText)
  else none

/-- The text that `extract_inbound_info` sends to the webhooks: that of the last user message,
the prompt, that of the last contents, or the body itself. -/
def inboundContent (rawBody : Bytes) : Bytes :=
  match loads (cString rawBody) with
  | none => cString rawBody
  | some root =>
    (((root.getArray "messages").bind fun ms => ms.reverse.findSome? userText).or
      ((root.getString "prompt").or
        ((root.getArray "contents").bind fun cs =>
          cs.reverse.findSome? fun item => (item.getArray "parts").bind partText))).getD
      (cString rawBody)

def inboundMessages (rawBody : Bytes) : Option (List Json) :=
  (loads (cString rawBody)).bind (·.getArray "messages")

/-- Update the first item that satisfies a test. -/
def replaceFirst (p : Json → Bool) (f : Json → Json) : List Json → Option (List Json)
  | [] => none
  | x :: rest => if p x then some (f x :: rest) else (replaceFirst p f rest).map (x :: ·)

/-- Update the last item that satisfies a test. -/
def replaceLast (p : Json → Bool) (f : Json → Json) (items : List Json) : Option (List Json) :=
  (replaceFirst p f items.reverse).map List.reverse

def isUserMessage (message : Json) : Bool := message.getString "role" = some (ascii "user")

/-- The last user message, or else the last message, is given the masked content. -/
def maskMessages (content : Bytes) (messages : List Json) : Option (List Json) :=
  let mask := fun (m : Json) => m.set "content" (.string content)
  (replaceLast isUserMessage mask messages).or
    (match messages.reverse with
    | last :: before => if last.isObject then some ((mask last :: before).reverse) else none
    | [] => none)

/-- The first part of the last contents is given the masked text. -/
def maskContents (content : Bytes) (contents : List Json) : Option (List Json) :=
  match contents.reverse with
  | [] => none
  | item :: before =>
    match item.getArray "parts" with
    | some (part :: parts) =>
      if part.isObject then
        some ((item.set "parts" (.array (part.set "text" (.string content) :: parts)) ::
          before).reverse)
      else none
    | _ => none

/-- `apply_inbound_mask`. -/
def applyInboundMask (body content : Bytes) : Bytes :=
  match loads (cString body) with
  | none => content
  | some root =>
    if !root.isObject then content
    else
      match (root.getArray "messages").bind (maskMessages content) with
      | some messages => dumps (root.set "messages" (.array messages))
      | none =>
        if (root.get "prompt").isSome then dumps (root.set "prompt" (.string content))
        else
          match (root.getArray "contents").bind (maskContents content) with
          | some contents => dumps (root.set "contents" (.array contents))
          | none => dumps root

/-- The result of a moderation round, with the webhooks that were sent a request. -/
structure Moderation where
  decision : Decision
  posted : List WebhookRule

/-- The loop of `guardrails_inspect_webhook_inbound` from the current body. -/
def inspectWebhooks (network : Network) (model : Bytes) (keyId timestamp : Int64) :
    List WebhookRule → Bytes → Bool → Moderation
  | [], body, anyMasked => ⟨if anyMasked then .masked body else .pass, []⟩
  | rule :: rules, body, anyMasked =>
    let request := dumps (webhookRequest "inbound" model keyId (inboundContent body)
      (inboundMessages body) timestamp)
    match readAnswer rule (network rule request) with
    | .blocked reason => ⟨.blocked reason, [rule]⟩
    | .masked content =>
      let rest := inspectWebhooks network model keyId timestamp rules
        (applyInboundMask body content) true
      { rest with posted := rule :: rest.posted }
    | .pass =>
      let rest := inspectWebhooks network model keyId timestamp rules body anyMasked
      { rest with posted := rule :: rest.posted }

/-- `guardrails_inspect_webhook_inbound`. -/
def guardrailsInspectWebhookInbound (ctx : GuardrailsCtx) (network : Network) (model : Bytes)
    (keyId timestamp : Int64) (rawBody : Bytes) : Moderation :=
  if rawBody = [] then ⟨.pass, []⟩
  else inspectWebhooks network model keyId timestamp (rulesCopy ctx "inbound") rawBody false

def Decision.isBlocked : Decision → Bool
  | .blocked _ => true
  | _ => false

/-- The webhooks are consulted in order, up to the first that refuses. -/
theorem posted_prefix (network : Network) (model : Bytes) (keyId timestamp : Int64)
    (rules : List WebhookRule) (body : Bytes) (anyMasked : Bool) :
    (inspectWebhooks network model keyId timestamp rules body anyMasked).posted <+: rules := by
  induction rules generalizing body anyMasked with
  | nil => simp [inspectWebhooks]
  | cons rule rules ih =>
    simp only [inspectWebhooks]
    split
    · simp
    · exact List.cons_prefix_cons.mpr ⟨rfl, ih _ _⟩
    · exact List.cons_prefix_cons.mpr ⟨rfl, ih _ _⟩

/-- A request that is not refused was shown to every webhook of the phase. -/
theorem posted_of_not_blocked {network : Network} {model : Bytes} {keyId timestamp : Int64}
    {rules : List WebhookRule} {body : Bytes} {anyMasked : Bool}
    (h : (inspectWebhooks network model keyId timestamp rules body anyMasked).decision.isBlocked
      = false) :
    (inspectWebhooks network model keyId timestamp rules body anyMasked).posted = rules := by
  induction rules generalizing body anyMasked with
  | nil => rfl
  | cons rule rules ih =>
    simp only [inspectWebhooks] at h ⊢
    split at h
    · simp [Decision.isBlocked] at h
    · exact congrArg (rule :: ·) (ih h)
    · exact congrArg (rule :: ·) (ih h)

/-- A network on which every webhook lets everything pass. -/
def permissive : Network := fun _ _ => some ⟨200, ['{', '}']⟩

theorem readAnswer_permissive (rule : WebhookRule) (request : Bytes) :
    readAnswer rule (permissive rule request) = .pass := by
  have hloads : loads (cString ['{', '}']) = some (.object []) := by rfl
  have hpass : (Json.object []).getString "action" = none := rfl
  have hblock : sameIgnoringCase (ascii "pass") "block" = false := by decide +kernel
  have hmask : sameIgnoringCase (ascii "pass") "mask" = false := by decide +kernel
  simp [readAnswer, permissive, hloads, hpass, hblock, hmask, Json.isObject]

theorem decision_permissive (model : Bytes) (keyId timestamp : Int64) (rules : List WebhookRule)
    (body : Bytes) :
    (inspectWebhooks permissive model keyId timestamp rules body false).decision = .pass := by
  induction rules with
  | nil => rfl
  | cons rule rules ih =>
    simp only [inspectWebhooks, readAnswer_permissive]
    exact ih

end Aigate.GuardrailsWebhook
