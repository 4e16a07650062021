import Aigate.BridgeEvents

/-!
# The bridge from an OpenAI stream to Anthropic events

The chunks of an OpenAI completion become the events of an Anthropic message with at most one
block of thoughts and one of text.
-/
namespace Aigate.MessagesBridge
open Text JsonTree JsonText Guardrails Utf8 StreamCache ProviderRequests BridgeEvents

/-- `openai_to_anthropic_bridge_t`, and what it has written. -/
structure Bridge where
  msgId : Bytes
  model : Bytes
  messageStartSent : Bool
  inThinking : Bool
  thinkingStarted : Bool
  thinkingClosed : Bool
  textStarted : Bool
  textClosed : Bool
  inputTokens : Int64
  outputTokens : Int64
  finishReason : Bytes
  doneEmitted : Bool
  sent : List Bytes

/-- `provider_openai_to_anthropic_bridge_new`. -/
def Bridge.new (model : Bytes) : Bridge where
  msgId := []
  model := snprintf 64 (cString model)
  messageStartSent := false
  inThinking := false
  thinkingStarted := false
  thinkingClosed := false
  textStarted := false
  textClosed := false
  inputTokens := 0
  outputTokens := 0
  finishReason := []
  doneEmitted := false
  sent := []

/-- `oai_ant_bridge_send`; the texts are not empty. -/
def Bridge.send (b : Bridge) (text : Bytes) : Bridge := { b with sent := b.sent ++ [text] }

/-- The text of an event. -/
def eventText (name : String) (data : Json) : Bytes :=
  ascii "event: " ++ ascii name ++ '\n' :: dataEvent (dumps data)

/-- A packed event is formatted into a buffer and written. -/
def Bridge.emit (b : Bridge) (cap : ℕ) (name : String) (data : Option Json) : Bridge :=
  match data with
  | some d => b.send (snprintf cap (eventText name d))
  | none => b

/-- The id of the message. -/
def msgIdClean (msgId : Bytes) : Bytes :=
  if (ascii "chatcmpl-").isPrefixOf msgId then ascii "msg_" ++ msgId.drop 9
  else if msgId ≠ [] then ascii "msg_" ++ msgId
  else ascii "msg_unknown"

def messageStart (id model : Bytes) (inputTokens : Int64) : Json :=
  .object [(ascii "type", .string (ascii "message_start")),
    (ascii "message", .object [(ascii "id", .string id),
      (ascii "type", .string (ascii "message")), (ascii "role", .string (ascii "assistant")),
      (ascii "model", .string model), (ascii "content", .array []), (ascii "stop_reason", .null),
      (ascii "stop_sequence", .null),
      (ascii "usage", .object [(ascii "input_tokens", .integer (toInt inputTokens)),
        (ascii "output_tokens", .integer 0)])])]

/-- A block of thoughts or of text, empty at its start. -/
def blockStart (index : Int64) (kind : String) : Json :=
  .object [(ascii "type", .string (ascii "content_block_start")), (ascii "index", .integer index),
    (ascii "content_block", .object [(ascii "type", .string (ascii kind)),
      (ascii kind, .string [])])]

def blockDelta (index : Int64) (type kind : String) (text : Bytes) : Json :=
  .object [(ascii "type", .string (ascii "content_block_delta")), (ascii "index", .integer index),
    (ascii "delta", .object [(ascii "type", .string (ascii type)), (ascii kind, .string text)])]

def blockStop (index : Int64) : Json :=
  .object [(ascii "type", .string (ascii "content_block_stop")), (ascii "index", .integer index)]

def messageDelta (stopReason : Bytes) (outputTokens : Int64) : Json :=
  .object [(ascii "type", .string (ascii "message_delta")),
    (ascii "delta", .object [(ascii "stop_reason", .string stopReason),
      (ascii "stop_sequence", .null)]),
    (ascii "usage", .object [(ascii "output_tokens", .integer (toInt outputTokens))])]

def messageStop : Json := .object [(ascii "type", .string (ascii "message_stop"))]

/-- The id and the model are taken from the first chunks that have them. -/
def Bridge.identify (b : Bridge) (root : Json) : Bridge :=
  { b with
    msgId := if b.msgId = [] then snprintf 64 ((root.getString "id").getD []) else b.msgId
    model := if b.model = [] then snprintf 64 ((root.getString "model").getD []) else b.model }

def Bridge.start (b : Bridge) : Bridge :=
  if b.messageStartSent then b
  else
    let id := msgIdClean b.msgId
    let model := if b.model = [] then ascii "unknown" else b.model
    { b.emit 2048 "message_start" (jsonPack [id, model] (messageStart id model b.inputTokens)) with
      messageStartSent := true }

def Bridge.usage (b : Bridge) (root : Json) : Bridge :=
  match getObject root "usage" with
  | none => b
  | some u =>
    { b with
      inputTokens := integerOr ((u.get "prompt_tokens").or (u.get "input_tokens")) b.inputTokens
      outputTokens := integerOr ((u.get "completion_tokens").or (u.get "output_tokens"))
        b.outputTokens }

/-- The reason for the end; others than these leave the one so far. -/
def stopReasonOf (finish : Bytes) (old : Bytes) : Bytes :=
  if finish = ascii "length" then ascii "max_tokens"
  else if finish = ascii "tool_calls" then ascii "tool_use"
  else if finish = ascii "stop" then ascii "end_turn"
  else old

def Bridge.reason (b : Bridge) (c0 : Json) : Bridge :=
  match c0.getString "finish_reason" with
  | some finish => { b with finishReason := stopReasonOf finish b.finishReason }
  | none => b

/-- The first thought starts the block of thoughts. -/
def Bridge.startThinking (b : Bridge) : Bridge :=
  if b.thinkingStarted then b
  else { b.emit 1024 "content_block_start" (some (blockStart 0 "thinking")) with
    thinkingStarted := true, inThinking := true }

def Bridge.thinking (b : Bridge) (delta : Json) : Bridge :=
  match delta.getString "reasoning_content" with
  | some text => b.startThinking.emit 8192 "content_block_delta"
      (jsonPack [text] (blockDelta 0 "thinking_delta" "thinking" text))
  | none => b

def Bridge.stopThinking (b : Bridge) : Bridge :=
  if b.inThinking = true ∧ b.thinkingClosed = false then
    { b.emit 512 "content_block_stop" (some (blockStop 0)) with
      thinkingClosed := true, inThinking := false }
  else b

def Bridge.textIdx (b : Bridge) : Int64 := if b.thinkingStarted then 1 else 0

def Bridge.startText (b : Bridge) : Bridge :=
  if b.textStarted then b
  else { b.emit 1024 "content_block_start" (some (blockStart b.textIdx "text")) with
    textStarted := true }

def Bridge.text (b : Bridge) (delta : Json) : Bridge :=
  match delta.getString "content" with
  | some text =>
    let b := b.stopThinking.startText
    b.emit 8192 "content_block_delta"
      (jsonPack [text] (blockDelta b.textIdx "text_delta" "text" text))
  | none => b

/-- The first choice of a chunk, when it is an object. -/
def choiceOf (root : Json) : Option Json := (firstChoice root).filter Json.isObject

def Bridge.choice (b : Bridge) (c0 : Json) : Bridge :=
  match getObject c0 "delta" with
  | some delta => ((b.reason c0).thinking delta).text delta
  | none => b.reason c0

/-- A parsed chunk. -/
def Bridge.chunk (b : Bridge) (root : Json) : Bridge :=
  match choiceOf root with
  | some c0 => ((b.identify root).start.usage root).choice c0
  | none => (b.identify root).start.usage root

/-- `oai_ant_process_line`. -/
def Bridge.processLine (b : Bridge) (line : Bytes) : Bridge :=
  if (ascii "data:").isPrefixOf line then
    let d := skipBlanks (line.drop 5)
    if (ascii "[DONE]").isPrefixOf d then b
    else
      match jsonLoads d with
      | some root => b.chunk root
      | none => b
  else b

/-- A completed line; the string functions see it up to its first zero. -/
def Bridge.takeLine (b : Bridge) (line : Bytes) : Bridge := b.processLine (cString (stripCr line))

def Bridge.stopText (b : Bridge) : Bridge :=
  if b.textStarted = true ∧ b.textClosed = false then
    { b.emit 512 "content_block_stop" (some (blockStop b.textIdx)) with textClosed := true }
  else b

/-- The end of the message. -/
def Bridge.close (b : Bridge) : Bridge :=
  let reason := if b.finishReason = [] then ascii "end_turn" else b.finishReason
  { (b.emit 1024 "message_delta" (jsonPack [reason] (messageDelta reason b.outputTokens))).send
      (eventText "message_stop" messageStop) with doneEmitted := true }

/-- `provider_openai_to_anthropic_bridge_finish`; the empty write at the end has no bytes. -/
def Bridge.finish (b : Bridge) : Bridge :=
  if b.doneEmitted then b else b.stopThinking.stopText.close

end Aigate.MessagesBridge
