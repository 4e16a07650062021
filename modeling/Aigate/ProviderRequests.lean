import Aigate.ChatBody
import Aigate.Pipelines

/-!
# The requests of the providers

Each adapter parses the body it is given and builds the request of its provider: the one for
the OpenAI family passes the members on, those for Anthropic and Gemini translate the
conversation, the sampling parameters and the tools.
-/
namespace Aigate.ProviderRequests
open Text JsonTree JsonText Guardrails ModelRouter Pipelines ChatBody

/-- An upstream request; its body is sent as compact text. -/
structure UpstreamRequest where
  url : Bytes
  body : Json

def emptyObject : Json := .object []

/-- `json_object_update`: every member of the other object is set. -/
def updateMembers (members other : List (Bytes × Json)) : List (Bytes × Json) :=
  other.foldl (fun ms m => assign ms m.1 m.2) members

def Json.update : Json → Json → Json
  | .object members, .object other => .object (updateMembers members other)
  | j, _ => j

/-- Set a member when there is a value for it. -/
def Json.setSome (j : Json) (key : String) : Option Json → Json
  | some v => j.set key v
  | none => j

def Json.integerValue : Json → Option Int64
  | .integer n => some n
  | _ => none

def Json.isNumber : Json → Bool
  | .integer _ => true
  | .real _ => true
  | _ => false

def Json.isTrue : Json → Bool
  | .bool true => true
  | _ => false

/-- The integer member of a key. -/
def getInteger (j : Json) (key : String) : Option ℤ :=
  ((j.get key).bind Json.integerValue).map Int64.toInt

def getNumber (j : Json) (key : String) : Option Json := (j.get key).filter Json.isNumber

def getObject (j : Json) (key : String) : Option Json := (j.get key).filter Json.isObject

def integer (n : ℤ) : Json := .integer (Int64.ofInt n)

structure ReasoningConfig where
  enabled : Bool
  budgetTokens : ℤ
  deriving DecidableEq, Repr

def boundedBudget (b : ℤ) : ℤ := if b > 128000 then 128000 else b

/-- An explicit thinking object. -/
def thinkingConfig (reqBody : Json) : Option ReasoningConfig :=
  (getObject reqBody "thinking").bind fun th =>
    (th.getString "type").bind fun type =>
      if type = ascii "enabled" then
        some ⟨true, boundedBudget ((getInteger th "budget_tokens").getD 0)⟩
      else if type = ascii "disabled" then some ⟨false, 0⟩
      else none

def maxThinkingConfig (reqBody : Json) : Option ReasoningConfig :=
  (getInteger reqBody "max_thinking_tokens").map fun b =>
    if b > 0 then ⟨true, boundedBudget b⟩ else ⟨false, 0⟩

def effortConfig (reqBody : Json) : Option ReasoningConfig :=
  (reqBody.getString "reasoning_effort").map fun eff =>
    if eff = ascii "low" then ⟨true, 1024⟩
    else if eff = ascii "medium" then ⟨true, 4096⟩
    else if eff = ascii "high" then ⟨true, 16384⟩
    else if eff = ascii "none" then ⟨false, 0⟩
    else ⟨true, 4096⟩

/-- `parse_reasoning_config`, without the tag emulation of the answer. -/
def parseReasoningConfig (reqBody : Json) (route : ModelRec) : ReasoningConfig :=
  ((thinkingConfig reqBody).or ((maxThinkingConfig reqBody).or (effortConfig reqBody))).getD
    (if route.supportsReasoning = true ∧ route.defaultThinkingBudget > 0 then
      ⟨true, route.defaultThinkingBudget⟩
    else ⟨false, 0⟩)

/-- `fill_cur_route`. -/
def fillCurRoute (route : ModelRec) (t : Target) : ModelRec :=
  { route with provider := t.provider, endpoint := t.endpoint, endpoint_le := t.endpoint_le }

/-- The parsed body, an empty object when there is none. -/
def parsedBody (inBody : Bytes) : Json := (loads (cString inBody)).getD emptyObject

/-- Default parameters under a request; the request wins. -/
def mergeDefaults (route : ModelRec) (req : Json) : Json :=
  if route.defaultParamsJson = [] then req
  else
    match loads (cString route.defaultParamsJson) with
    | none => req
    | some defaults => Json.update (Json.update emptyObject defaults) req

/-- A stream asks for its usage. -/
def withStreamOptions (req : Json) : Json :=
  if (req.get "stream").any Json.isTrue then
    match req.get "stream_options" with
    | none => req.set "stream_options" (.object [(ascii "include_usage", .bool true)])
    | some so =>
      if so.isObject then req.set "stream_options" (so.set "include_usage" (.bool true)) else req
  else req

def knownEffort (eff : Bytes) : Bool :=
  decide (eff = ascii "low" ∨ eff = ascii "medium" ∨ eff = ascii "high" ∨ eff = ascii "none")

/-- An unknown effort becomes `medium`; none is sent when reasoning is off. -/
def withReasoningEffort (rcfg : ReasoningConfig) (req : Json) : Json :=
  match req.getString "reasoning_effort" with
  | none => req
  | some eff =>
    let req :=
      if knownEffort eff then req else req.set "reasoning_effort" (jsonString (ascii "medium"))
    if rcfg.enabled = false ∨ rcfg.budgetTokens = 0 then req.del "reasoning_effort" else req

def isOSeries (route : ModelRec) : Bool :=
  occursIn (ascii "o1") route.name || occursIn (ascii "o3") route.name ||
    occursIn (ascii "o1") route.endpoint

/-- Reasoning models bound the completion under another name. -/
def withCompletionTokens (oSeries : Bool) (req : Json) : Json :=
  if oSeries || (req.getString "reasoning_effort").isSome then
    match req.get "max_tokens", req.get "max_completion_tokens" with
    | some mt, none => (req.set "max_completion_tokens" mt).del "max_tokens"
    | _, _ => req
  else req

def apiVersion (route : ModelRec) (req : Json) : Bytes :=
  if route.provider = ascii "azure" then (req.getString "api-version").getD [] else []

/-- `provider_openai_build`. -/
def providerOpenaiBuild (route : ModelRec) (upPath inBody : Bytes) : UpstreamRequest :=
  let req := mergeDefaults route (Json.update emptyObject (parsedBody inBody))
  let ver := apiVersion route req
  let url := if ver = [] then route.endpoint ++ upPath
    else route.endpoint ++ upPath ++ ascii "?api-version=" ++ ver
  let req := withStreamOptions (if ver = [] then req else req.del "api-version")
  { url := url.take 1023
    body := withCompletionTokens (isOSeries route)
      (withReasoningEffort (parseReasoningConfig req route) req) }

/-- `ant_extract_text`: the text of a content that is a string or an array of parts. -/
def antExtractText : Option Json → Bytes
  | some (.string s) => s
  | some (.array parts) =>
    parts.flatMap fun part =>
      if part.getString "type" = some (ascii "text") then (part.getString "text").getD [] else []
  | _ => []

def textBlock (text : Bytes) : Json :=
  .object [(ascii "type", jsonString (ascii "text")), (ascii "text", jsonString text)]

/-- One part of `ant_build_content_array`. -/
def antPart (part : Json) : Option Json :=
  (part.getString "type").bind fun type =>
    if type = ascii "text" then (part.getString "text").map textBlock
    else if type = ascii "image_url" then
      ((part.get "image_url").bind (·.getString "url")).map fun url =>
        .object [(ascii "type", jsonString (ascii "image")),
          (ascii "source", .object [(ascii "type", jsonString (ascii "url")),
            (ascii "url", jsonString url)])]
    else none

/-- `ant_build_content_array`. -/
def antBuildContentArray : Option Json → Json
  | some (.string s) => jsonString s
  | some (.array parts) => .array (parts.filterMap antPart)
  | _ => jsonString []

/-- The arguments of a tool call, an empty object when they are no JSON document. -/
def toolArguments (fn : Json) : Json :=
  match fn.getString "arguments" with
  | some args => if args = [] then emptyObject else (loads args).getD emptyObject
  | none => emptyObject

/-- A tool call as a `tool_use` block. -/
def antToolUse (tc : Json) : Option Json :=
  (tc.get "function").bind fun fn =>
    (fn.getString "name").map fun name =>
      .object [(ascii "type", jsonString (ascii "tool_use")),
        (ascii "id", jsonString ((tc.getString "id").getD [])),
        (ascii "name", jsonString name), (ascii "input", toolArguments fn)]

def roleOf (message : Json) : Bytes := (message.getString "role").getD (ascii "user")

/-- The tool calls of a message, when there are any. -/
def toolCallsOf (message : Json) : Option (List Json) :=
  (message.getArray "tool_calls").filter fun calls => !calls.isEmpty

def antMessage (message : Json) : Json :=
  let content := message.get "content"
  if roleOf message = ascii "tool" then
    .object [(ascii "role", jsonString (ascii "user")),
      (ascii "content", .array [.object [(ascii "type", jsonString (ascii "tool_result")),
        (ascii "tool_use_id", jsonString ((message.getString "tool_call_id").getD [])),
        (ascii "content", jsonString (antExtractText content))]])]
  else if roleOf message = ascii "assistant" then
    match toolCallsOf message with
    | some calls =>
      let text := antExtractText content
      .object [(ascii "role", jsonString (ascii "assistant")),
        (ascii "content", .array ((if text = [] then [] else [textBlock text]) ++
          calls.filterMap antToolUse))]
    | none =>
      .object [(ascii "role", jsonString (ascii "assistant")),
        (ascii "content", antBuildContentArray content)]
  else
    .object [(ascii "role", jsonString (ascii "user")),
      (ascii "content", antBuildContentArray content)]

/-- The texts of the system messages, with an empty line between them. -/
def joinSystem (texts : List Bytes) : Bytes :=
  ['\n', '\n'].intercalate (texts.filter fun t => !t.isEmpty)

def isSystem (message : Json) : Bool := decide (roleOf message = ascii "system")

def antSystem (messages : List Json) : Option Json :=
  let text := joinSystem ((messages.filter isSystem).map fun m => antExtractText (m.get "content"))
  if text = [] then none else some (jsonString text)

/-- The budget that is sent: Anthropic wants at least 1024 tokens. -/
def antThinking (rcfg : ReasoningConfig) : Option ℤ :=
  if rcfg.enabled = true ∧ 1024 ≤ rcfg.budgetTokens then some rcfg.budgetTokens else none

/-- `max_tokens` must be greater than the budget. -/
def antMaxTokens (inReq : Json) (budget : Option ℤ) : ℤ :=
  let maxTokens := (getInteger inReq "max_tokens").getD 4096
  match budget with
  | some b => if maxTokens ≤ b then min (b + 4096) 132096 else maxTokens
  | none => maxTokens

def stopSequences (inReq : Json) : Option Json :=
  match inReq.get "stop" with
  | some (.string s) => some (.array [.string s])
  | some (.array items) => some (.array items)
  | _ => none

/-- A function of a tool list, with its parameters under the given name. -/
def toolFunction (parameters : String) (tool : Json) : Option Json :=
  (tool.get "function").map fun fn =>
    Json.setSome (Json.setSome (Json.setSome emptyObject "name" (fn.get "name"))
      "description" (fn.get "description")) parameters (fn.get "parameters")

def toolsOf (inReq : Json) : Option (List Json) :=
  (inReq.getArray "tools").filter fun tools => !tools.isEmpty

def antToolChoice (inReq : Json) : Option Json :=
  match inReq.get "tool_choice" with
  | some (.string s) =>
    if s = ascii "auto" then some (.object [(ascii "type", jsonString (ascii "auto"))])
    else if s = ascii "required" then some (.object [(ascii "type", jsonString (ascii "any"))])
    else if s = ascii "none" then some (.object [(ascii "type", jsonString (ascii "none"))])
    else none
  | some (.object members) =>
    (((Json.object members).get "function").bind (·.getString "name")).map fun name =>
      .object [(ascii "type", jsonString (ascii "tool")), (ascii "name", jsonString name)]
  | _ => none

def antUrl (endpoint : Bytes) : Bytes :=
  if (ascii "/v1").isSuffixOf endpoint then endpoint ++ ascii "/messages"
  else if (ascii "/v1/").isSuffixOf endpoint then endpoint ++ ascii "messages"
  else endpoint ++ ascii "/v1/messages"

/-- The model of the request, or else the name of the route. -/
def antModel (route : ModelRec) (inReq : Json) : Bytes :=
  (inReq.getString "model").getD route.name

/-- `provider_anthropic_build`. -/
def providerAnthropicBuild (route : ModelRec) (inBody : Bytes) : UpstreamRequest :=
  let inReq := parsedBody inBody
  let messages := (inReq.getArray "messages").getD []
  let budget := antThinking (parseReasoningConfig inReq route)
  let out := Json.setSome (emptyObject.set "model" (jsonString (antModel route inReq)))
    "system" (antSystem messages)
  let out := out.set "messages"
    (.array ((messages.filter fun m => !isSystem m).map antMessage))
  let out := Json.setSome out "thinking" (budget.map fun b =>
    .object [(ascii "type", jsonString (ascii "enabled")), (ascii "budget_tokens", integer b)])
  let out := out.set "max_tokens" (integer (antMaxTokens inReq budget))
  let out := Json.setSome out "temperature" (getNumber inReq "temperature")
  let out := Json.setSome out "top_p" (getNumber inReq "top_p")
  let out := Json.setSome out "stop_sequences" (stopSequences inReq)
  let out := Json.setSome out "stream" ((inReq.get "stream").filter Json.isTrue)
  let out := Json.setSome out "tools"
    ((toolsOf inReq).map fun tools => .array (tools.filterMap (toolFunction "input_schema")))
  let out := Json.setSome out "tool_choice" (antToolChoice inReq)
  { url := (antUrl route.endpoint).take 1023
    body := mergeDefaults route out }

/-- The endings of an image's path and their types, in the order of the tests. -/
def mimeTypes : List (String × String) :=
  [(".png", "image/png"), (".jpeg", "image/jpeg"), (".jpg", "image/jpeg"),
    (".webp", "image/webp"), (".gif", "image/gif")]

/-- `gemini_infer_mime_type`. -/
def geminiInferMimeType (url : Bytes) : Bytes :=
  let path := url.takeWhile (· ≠ '?')
  match mimeTypes.find? fun m => (ascii m.1).isSuffixOf (lower path) with
  | some m => ascii m.2
  | none => ascii "image/jpeg"

/-- The name of the function of a tool call, when the call has the given id. -/
def toolNameOf (id : Bytes) (tc : Json) : Option Bytes :=
  if tc.getString "id" = some id then (tc.get "function").bind (·.getString "name") else none

/-- `gemini_lookup_tool_name`: the last message that has such a call decides. -/
def geminiLookupToolName (messages : List Json) (id : Bytes) : Bytes :=
  ((messages.reverse.findSome? fun m =>
    if m.getString "role" = some (ascii "assistant") then
      (m.getArray "tool_calls").bind fun calls => calls.findSome? (toolNameOf id)
    else none).getD id).take 127

def textPart (text : Bytes) : Json := .object [(ascii "text", jsonString text)]

def geminiPart (part : Json) : Option Json :=
  let type := (part.getString "type").getD []
  if type = ascii "text" then (part.getString "text").map textPart
  else if type = ascii "image_url" then
    ((part.get "image_url").bind (·.getString "url")).map fun url =>
      .object [(ascii "fileData", .object [(ascii "fileUri", jsonString url),
        (ascii "mimeType", jsonString (geminiInferMimeType url))])]
  else none

/-- A tool call as a `functionCall` part. -/
def geminiFunctionCall (tc : Json) : Option Json :=
  (tc.get "function").bind fun fn =>
    (fn.getString "name").map fun name =>
      .object [(ascii "functionCall",
        .object [(ascii "name", jsonString name), (ascii "args", toolArguments fn)])]

def plainContent (message : Json) : Bytes := (message.getString "content").getD []

/-- The result of a tool, wrapped when it is no JSON document. -/
def toolResult (result : Bytes) : Json :=
  (loads result).getD (.object [(ascii "output", jsonString result)])

def contentEntry (role : String) (parts : List Json) : Json :=
  .object [(ascii "role", jsonString (ascii role)), (ascii "parts", .array parts)]

def geminiContent (messages : List Json) (message : Json) : Json :=
  let text := plainContent message
  let parts :=
    match message.getArray "content" with
    | some parts => parts.filterMap geminiPart
    | none => [textPart text]
  if roleOf message = ascii "tool" then
    contentEntry "user" [.object [(ascii "functionResponse",
      .object [(ascii "name", jsonString (geminiLookupToolName messages
          ((message.getString "tool_call_id").getD []))),
        (ascii "response", toolResult text)])]]
  else if roleOf message = ascii "assistant" then
    match toolCallsOf message with
    | some calls =>
      contentEntry "model"
        ((if text = [] then [] else [textPart text]) ++ calls.filterMap geminiFunctionCall)
    | none => contentEntry "model" parts
  else contentEntry "user" parts

/-- The buffer of the system texts has 8192 bytes; a text that does not fit is left out. -/
def appendSystem (buffer text : Bytes) : Bytes :=
  if text = [] then buffer
  else
    let buffer :=
      if 0 < buffer.length ∧ buffer.length + 2 < 8192 then buffer ++ ['\n', '\n'] else buffer
    if buffer.length + text.length < 8192 then buffer ++ text else buffer

def geminiSystem (messages : List Json) : Option Json :=
  let text := ((messages.filter isSystem).map plainContent).foldl appendSystem []
  if text = [] then none else some (.object [(ascii "parts", .array [textPart text])])

/-- `json_real(json_number_value(j))`, exact for integers of 53 bits. -/
def realValue : Json → Json
  | .integer n =>
    .real ⟨decide (n.toInt < 0), n.toInt.natAbs, ['0'], rfl, List.cons_ne_nil _ _, by
      have hbound : n.toInt.natAbs < 2 ^ 64 := by
        have hlow := n.le_toInt
        have hhigh := n.toInt_lt
        omega
      by_cases hzero : n.toInt.natAbs = 0
      · rw [hzero]
        decide
      · exact ((Nat.log2_lt hzero).mpr hbound).trans (by norm_num)⟩
  | j => j

def geminiThinking (rcfg : ReasoningConfig) : Option Json :=
  if rcfg.enabled = true ∧ 0 ≤ rcfg.budgetTokens then
    some (.object [(ascii "thinkingBudget", integer rcfg.budgetTokens)])
  else none

def generationConfig (inReq : Json) (rcfg : ReasoningConfig) : Option Json :=
  let cfg := Json.setSome emptyObject "temperature"
    ((getNumber inReq "temperature").map realValue)
  let cfg := Json.setSome cfg "maxOutputTokens" ((getInteger inReq "max_tokens").map integer)
  let cfg := Json.setSome cfg "topP" ((getNumber inReq "top_p").map realValue)
  let cfg := Json.setSome cfg "stopSequences" (stopSequences inReq)
  let cfg := Json.setSome cfg "thinkingConfig" (geminiThinking rcfg)
  match cfg with
  | .object [] => none
  | cfg => some cfg

def geminiToolConfig (inReq : Json) : Option Json :=
  (inReq.get "tool_choice").map fun choice =>
    let config : List (Bytes × Json) :=
      match choice with
      | .string s =>
        [(ascii "mode", jsonString (if s = ascii "required" then ascii "ANY"
          else if s = ascii "none" then ascii "NONE" else ascii "AUTO"))]
      | .object members =>
        (ascii "mode", jsonString (ascii "ANY")) ::
          (((Json.object members).get "function").bind (·.getString "name")).toList.map fun name =>
            (ascii "allowedFunctionNames", .array [jsonString name])
      | _ => [(ascii "mode", jsonString (ascii "AUTO"))]
    .object [(ascii "functionCallingConfig", .object config)]

/-- The endpoint without a slash at its end. -/
def geminiBase (endpoint : Bytes) : Bytes :=
  let ep := (if endpoint = [] ∨ endpoint = ['/'] then
    ascii "https://generativelanguage.googleapis.com" else endpoint).take 511
  if ep.getLast? = some '/' then ep.dropLast else ep

def geminiUrl (route : ModelRec) (streaming : Bool) : Bytes :=
  geminiBase route.endpoint ++ ascii "/v1beta/models/" ++ route.name ++
    (if streaming then ascii ":streamGenerateContent?alt=sse" else ascii ":generateContent")

/-- `provider_gemini_build`: the model is named in the URL. -/
def providerGeminiBuild (route : ModelRec) (inBody : Bytes) : UpstreamRequest :=
  let inReq := parsedBody inBody
  let messages := (inReq.getArray "messages").getD []
  let out := Json.setSome emptyObject "systemInstruction" (geminiSystem messages)
  let out := out.set "contents"
    (.array ((messages.filter fun m => !isSystem m).map (geminiContent messages)))
  let out := Json.setSome out "generationConfig"
    (generationConfig inReq (parseReasoningConfig inReq route))
  let out := Json.setSome out "tools" ((toolsOf inReq).map fun tools =>
    .array [.object [(ascii "functionDeclarations",
      .array (tools.filterMap (toolFunction "parameters")))]])
  let out := Json.setSome out "toolConfig" (geminiToolConfig inReq)
  { url := (geminiUrl route ((inReq.get "stream").any Json.isTrue)).take 1023
    body := out }

/-- `build_chat` of an adapter. -/
def buildChat (adapter : Adapter) (route : ModelRec) (inBody : Bytes) : UpstreamRequest :=
  match adapter with
  | .openai => providerOpenaiBuild route (ascii "/chat/completions") inBody
  | .anthropic => providerAnthropicBuild route inBody
  | .gemini => providerGeminiBuild route inBody

end Aigate.ProviderRequests
