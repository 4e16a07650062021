import Aigate.BridgeEvents

/-!
# The bridge of an OpenAI stream

The bridge hands the lines on. With tag emulation it writes the thoughts into the content
between tags; without, it only renames the thoughts of some providers.
-/
namespace Aigate.OpenaiBridge
open Text JsonTree JsonText Guardrails Utf8 StreamCache ProviderRequests BridgeEvents

/-- `openai_bridge_t`, and what it has written. -/
structure Bridge where
  model : Bytes
  promptTokens : Int64
  completionTokens : Int64
  cachedTokens : Int64
  reasoningTokens : Int64
  tagEmulation : Bool
  tagOpened : Bool
  tagClosed : Bool
  sent : List Bytes

/-- `openai_bridge_new`, with the flag that the caller sets. -/
def Bridge.new (model : Bytes) (tagEmulation : Bool) : Bridge where
  model := snprintf 128 model
  promptTokens := 0
  completionTokens := 0
  cachedTokens := 0
  reasoningTokens := 0
  tagEmulation := tagEmulation
  tagOpened := false
  tagClosed := false
  sent := []

/-- `openai_bridge_emit_sse`. -/
def Bridge.emitSse (b : Bridge) (text : Bytes) : Bridge :=
  if text = [] then b else { b with sent := b.sent ++ [text] }

/-- `openai_bridge_emit_delta`, with the member of the delta and the reason for the end. -/
def Bridge.emitDelta (b : Bridge) (delta : List (Bytes × Json)) (finish : Option Bytes) : Bridge :=
  let id := ascii "chatcmpl-" ++ if b.model = [] then ascii "openai" else b.model
  let reason := match finish with
    | some r => stringMember "finish_reason" r
    | none => [(ascii "finish_reason", .null)]
  b.emitSse (snprintf eventCap (dataEvent (dumps (.object (stringMember "id" id ++
    [(ascii "object", .string (ascii "chat.completion.chunk"))] ++ stringMember "model" b.model ++
    [(ascii "choices", .array [.object
      ([(ascii "index", .integer 0), (ascii "delta", .object delta)] ++ reason)])])))))

def Bridge.emitContent (b : Bridge) (text : Bytes) : Bridge :=
  b.emitDelta (stringMember "content" text) none

def openTag : Bytes := ascii "<think>" ++ ['\n']

def closeTag : Bytes := '\n' :: ascii "</think>" ++ ['\n', '\n']

def Bridge.opened (b : Bridge) : Bridge :=
  if b.tagOpened then b else { b.emitContent openTag with tagOpened := true }

def Bridge.closed (b : Bridge) : Bridge :=
  if b.tagOpened = true ∧ b.tagClosed = false then
    { b.emitContent closeTag with tagClosed := true }
  else b

/-- The usage of a chunk, or of the response in an event. -/
def usageOf (root : Json) : Option Json :=
  ((root.get "usage").or ((getObject root "response").bind (·.get "usage"))).filter Json.isObject

/-- The tokens that were read from the cache. -/
def cachedOf (usage : Json) (old : Int64) : Int64 :=
  match usage.get "prompt_cache_hit_tokens" with
  | some (.integer n) => n
  | _ =>
    let details := (usage.get "prompt_tokens_details").or (usage.get "input_tokens_details")
    integerOr ((details.filter Json.isObject).bind (·.get "cached_tokens")) old

def reasoningOf (usage : Json) (old : Int64) : Int64 :=
  let details := (usage.get "completion_tokens_details").or (usage.get "output_tokens_details")
  integerOr ((details.filter Json.isObject).bind (·.get "reasoning_tokens")) old

def Bridge.usage (b : Bridge) (usage : Json) : Bridge :=
  { b with
    promptTokens := integerOr ((usage.get "prompt_tokens").or (usage.get "input_tokens"))
      b.promptTokens
    completionTokens := integerOr ((usage.get "completion_tokens").or (usage.get "output_tokens"))
      b.completionTokens
    cachedTokens := cachedOf usage b.cachedTokens
    reasoningTokens := reasoningOf usage b.reasoningTokens }

/-- The document from the first brace on. -/
def bracedDocument (text : Bytes) : Option Json :=
  (strstr (ascii "\x7b") text).bind jsonLoads

/-- The first choice, when it is an object. -/
def choiceOf (root : Json) : Option Json := (firstChoice root).filter Json.isObject

def Bridge.thought (b : Bridge) (delta : Json) : Bridge :=
  match ((delta.get "reasoning_content").or (delta.get "thought")).bind Json.stringValue with
  | some text => b.opened.emitContent text
  | none => b

def Bridge.content (b : Bridge) (delta : Json) : Bridge :=
  match delta.getString "content" with
  | some text => b.closed.emitContent text
  | none => b

def Bridge.finishOf (b : Bridge) (c0 : Json) : Bridge :=
  match c0.get "finish_reason" with
  | none => b
  | some .null => b
  | some reason => b.closed.emitDelta [] (some (reason.stringValue.getD (ascii "stop")))

/-- A line with tag emulation. -/
def Bridge.tagged (b : Bridge) (dp : Bytes) : Bridge :=
  if dp = ascii "[DONE]" then b.closed.emitSse doneEvent
  else
    match (bracedDocument dp).bind choiceOf with
    | none => b
    | some c0 =>
      match getObject c0 "delta" with
      | some delta => ((b.thought delta).content delta).finishOf c0
      | none => b.finishOf c0

/-- `thought` becomes `reasoning_content` where there is none. -/
def renamedDelta (delta : Json) : Option Json :=
  match delta.get "thought", delta.get "reasoning_content" with
  | some thought, none => some ((delta.set "reasoning_content" thought).del "thought")
  | _, _ => none

/-- The chunk with the delta of its first choice renamed, when there is something to rename. -/
def renamed (root : Json) : Option Json :=
  match root.getArray "choices" with
  | some (c0 :: others) =>
    ((getObject c0 "delta").bind renamedDelta).map fun delta =>
      root.set "choices" (.array (c0.set "delta" delta :: others))
  | _ => none

/-- A line without tag emulation. -/
def Bridge.raw (b : Bridge) (line dp : Bytes) : Bridge :=
  let same := snprintf eventCap (line ++ ['\n', '\n'])
  if dp = ascii "[DONE]" then b.emitSse doneEvent
  else
    match (bracedDocument dp).bind renamed with
    | some root => b.emitSse (snprintf eventCap (dataEvent (dumps root)))
    | none => b.emitSse same

/-- `openai_stream_process_line`. -/
def Bridge.processLine (b : Bridge) (line : Bytes) : Bridge :=
  match strstr (ascii "data:") line with
  | none => b
  | some d =>
    let b :=
      match (strstr (ascii "\"usage\"") d).bind fun _ => (bracedDocument d).bind usageOf with
      | some usage => b.usage usage
      | none => b
    let dp := skipBlanks (d.drop 5)
    if b.tagEmulation then b.tagged dp else b.raw line dp

/-- A completed line; an empty one is skipped, and the string functions see the others up to
their first zero. -/
def Bridge.takeLine (b : Bridge) (line : Bytes) : Bridge :=
  if stripCr line = [] then b else b.processLine (cString (stripCr line))

/-- `openai_bridge_finish`; the empty write at the end has no bytes. -/
def Bridge.finish (b : Bridge) : Bridge := if b.tagEmulation then b.closed else b

end Aigate.OpenaiBridge
