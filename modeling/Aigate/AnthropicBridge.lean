import Aigate.BridgeEvents

/-!
# The bridge of an Anthropic stream

The events of an Anthropic message become chunks of an OpenAI completion. The name of an event
comes on a line of its own, before its data.
-/
namespace Aigate.AnthropicBridge
open Text JsonTree JsonText Guardrails Utf8 StreamCache ProviderRequests BridgeEvents

/-- `anthropic_bridge_t`, and what it has written. -/
structure Bridge where
  currentEvent : Bytes
  msgId : Bytes
  model : Bytes
  inputTokens : Int64
  outputTokens : Int64
  doneEmitted : Bool
  inToolUse : Bool
  toolId : Bytes
  toolName : Bytes
  /-- The text in `tool_args_buf`, none while it is not allocated. -/
  toolArgs : Option Bytes
  toolIndex : ℕ
  inThinking : Bool
  tagEmulation : Bool
  tagOpened : Bool
  tagClosed : Bool
  sent : List Bytes

/-- `anthropic_bridge_init`, with the flag that the caller sets. -/
def Bridge.init (tagEmulation : Bool) : Bridge where
  currentEvent := []
  msgId := []
  model := []
  inputTokens := 0
  outputTokens := 0
  doneEmitted := false
  inToolUse := false
  toolId := []
  toolName := []
  toolArgs := none
  toolIndex := 0
  inThinking := false
  tagEmulation := tagEmulation
  tagOpened := false
  tagClosed := false
  sent := []

/-- `bridge_send_chunk`. -/
def Bridge.send (b : Bridge) (text : Bytes) : Bridge := { b with sent := b.sent ++ [text] }

/-- A packed chunk is written; nothing is when packing failed. -/
def Bridge.emit (b : Bridge) (chunk : Option Json) : Bridge :=
  match chunk with
  | some c => b.send (snprintf eventCap (dataEvent (dumps c)))
  | none => b

def Bridge.idBuf (b : Bridge) : Bytes :=
  ascii "chatcmpl-" ++ if b.msgId = [] then ascii "claude" else b.msgId

/-- The members before the choices. -/
def chunkHead (id model : Bytes) : List (Bytes × Json) :=
  [(ascii "id", .string id), (ascii "object", .string (ascii "chat.completion.chunk")),
    (ascii "model", .string model)]

/-- A chunk with one choice. -/
def chunk (id model : Bytes) (delta finish : Json) : Json :=
  .object (chunkHead id model ++ [(ascii "choices", .array [.object
    [(ascii "index", .integer 0), (ascii "delta", delta), (ascii "finish_reason", finish)]])])

/-- A delta with one text. -/
def Bridge.emitDelta (b : Bridge) (id : Bytes) (key : String) (text : Bytes) : Bridge :=
  b.emit (jsonPack [id, b.model, text]
    (chunk id b.model (.object [(ascii key, .string text)]) .null))

def openTag : Bytes := ascii "<think>" ++ ['\n']

def closeTag : Bytes := '\n' :: ascii "</think>" ++ ['\n', '\n']

/-- The opening tag, before the first thought. -/
def Bridge.opened (b : Bridge) (id : Bytes) : Bridge :=
  if b.tagEmulation = true ∧ b.tagOpened = false then
    { b.emitDelta id "content" openTag with tagOpened := true }
  else b

/-- The closing tag, unless it is written or none was opened. -/
def Bridge.closed (b : Bridge) (id : Bytes) : Bridge :=
  if b.tagEmulation = true ∧ b.tagOpened = true ∧ b.tagClosed = false then
    { b.emitDelta id "content" closeTag with tagClosed := true }
  else b

def Bridge.messageStart (b : Bridge) (data : Json) : Bridge :=
  let msg := getObject data "message"
  let jid := msg.bind (·.getString "id")
  let b1 := { b with
    msgId := (jid.map (snprintf 64)).getD b.msgId
    model := ((msg.bind (·.getString "model")).map (snprintf 64)).getD b.model
    inputTokens := integerOr ((msg.bind (getObject · "usage")).bind (·.get "input_tokens"))
      b.inputTokens }
  let id := if jid.isSome then ascii "chatcmpl-" ++ b1.msgId else b.idBuf
  b1.emit (jsonPack [id, b1.model] (chunk id b1.model
    (.object [(ascii "role", .string (ascii "assistant")), (ascii "content", .string [])]) .null))

/-- A thought in the mode of the bridge. -/
def Bridge.emitThought (b : Bridge) (text : Bytes) : Bridge :=
  b.emitDelta b.idBuf (if b.tagEmulation then "content" else "reasoning_content") text

def redactedText : Bytes := ascii "[redacted thinking]"

def Bridge.blockStart (b : Bridge) (data : Json) : Bridge :=
  match getObject data "content_block" with
  | none => b
  | some cb =>
    match cb.getString "type" with
    | none => b
    | some type =>
      if type = ascii "thinking" then
        { b with inThinking := true, inToolUse := false }.opened b.idBuf
      else if type = ascii "redacted_thinking" then
        ({ b with inThinking := true, inToolUse := false }.opened b.idBuf).emitThought redactedText
      else if type = ascii "text" then
        { b with inThinking := false, inToolUse := false }.closed b.idBuf
      else if type = ascii "tool_use" then
        { b with
          inThinking := false
          inToolUse := true
          toolId := snprintf 64 ((cb.getString "id").getD [])
          toolName := snprintf 128 ((cb.getString "name").getD [])
          toolArgs := none }
      else { b with inThinking := false, inToolUse := false }

/-- The limit of the arguments of a call. -/
def argsCap : ℕ := 65536

/-- A piece of the arguments; one that would reach the limit is dropped. -/
def Bridge.addArgs (b : Bridge) (piece : Bytes) : Bridge :=
  let args := b.toolArgs.getD []
  if args.length + piece.length < argsCap then { b with toolArgs := some (args ++ piece) } else b

def Bridge.blockDelta (b : Bridge) (data : Json) : Bridge :=
  match getObject data "delta" with
  | none => b
  | some del =>
    let dtype := (del.getString "type").getD []
    if dtype = ascii "signature_delta" then
      match del.getString "signature" with
      | some sig => if b.tagEmulation then b else b.emitDelta b.idBuf "reasoning_signature" sig
      | none => b
    else if dtype = ascii "thinking_delta" ∨
        (b.inThinking = true ∧ dtype ≠ ascii "input_json_delta" ∧ dtype ≠ ascii "text_delta") then
      match ((del.get "thinking").or (del.get "text")).bind Json.stringValue with
      | some text => (b.opened b.idBuf).emitThought text
      | none => b
    else if dtype = ascii "text_delta" ∨ dtype = [] then
      match del.getString "text" with
      | some text => (b.closed b.idBuf).emitDelta b.idBuf "content" text
      | none => b.closed b.idBuf
    else if dtype = ascii "input_json_delta" ∧ b.inToolUse = true then
      match del.getString "partial_json" with
      | some piece => b.addArgs piece
      | none => b
    else b

/-- The chunk of a completed tool call. -/
def Bridge.toolChunk (b : Bridge) : Json :=
  .object (stringMember "id" b.idBuf ++
    [(ascii "object", .string (ascii "chat.completion.chunk"))] ++ stringMember "model" b.model ++
    [(ascii "choices", .array [.object [(ascii "index", .integer 0),
      (ascii "delta", .object [(ascii "tool_calls", .array [.object
        ([(ascii "index", .integer (Int64.ofNat b.toolIndex))] ++ stringMember "id" b.toolId ++
          [(ascii "type", .string (ascii "function")),
            (ascii "function", .object (stringMember "name" b.toolName ++
              stringMember "arguments" (b.toolArgs.getD (ascii "\x7b\x7d"))))])])]),
      (ascii "finish_reason", .null)]])])

def Bridge.blockStop (b : Bridge) : Bridge :=
  let b := if b.inThinking then { b with inThinking := false }.closed b.idBuf else b
  if b.inToolUse = true ∧ b.toolId ≠ [] then
    { b.emit (some b.toolChunk) with inToolUse := false, toolIndex := b.toolIndex + 1 }
  else b

def finishReason (stopReason : Option Bytes) : Bytes :=
  if stopReason = some (ascii "max_tokens") then ascii "length"
  else if stopReason = some (ascii "tool_use") then ascii "tool_calls"
  else ascii "stop"

def Bridge.messageDelta (b : Bridge) (data : Json) : Bridge :=
  let reason := finishReason ((getObject data "delta").bind (·.getString "stop_reason"))
  let b := { b with
    outputTokens := integerOr ((getObject data "usage").bind (·.get "output_tokens"))
      b.outputTokens }
  let b := b.emit (jsonPack [b.idBuf, b.model]
    (chunk b.idBuf b.model (.object []) (.string reason)))
  b.emit (jsonPack [b.idBuf, b.model] (.object (chunkHead b.idBuf b.model ++
    [(ascii "choices", .array []), (ascii "usage", usageObject b.inputTokens b.outputTokens)])))

def Bridge.messageStop (b : Bridge) : Bridge :=
  { (b.closed b.idBuf).send doneEvent with doneEmitted := true }

/-- The text of an error; the message is not escaped. -/
def errorText (msg : Bytes) : Bytes :=
  dataEvent (ascii "\x7b\"error\":\x7b\"message\":\"" ++ msg ++
    ascii "\",\"type\":\"upstream_error\",\"code\":502\x7d\x7d") ++ doneEvent

def Bridge.error (b : Bridge) (data : Json) : Bridge :=
  let msg := ((getObject data "error").bind (·.getString "message")).getD (ascii "upstream error")
  { b.send (snprintf eventCap (errorText msg)) with doneEmitted := true }

/-- The data of the current event. -/
def Bridge.event (b : Bridge) (data : Json) : Bridge :=
  if b.currentEvent = ascii "message_start" then b.messageStart data
  else if b.currentEvent = ascii "content_block_start" then b.blockStart data
  else if b.currentEvent = ascii "content_block_delta" then b.blockDelta data
  else if b.currentEvent = ascii "content_block_stop" then b.blockStop
  else if b.currentEvent = ascii "message_delta" then b.messageDelta data
  else if b.currentEvent = ascii "message_stop" then b.messageStop
  else if b.currentEvent = ascii "error" then b.error data
  else b

/-- `bridge_process_line`. -/
def Bridge.processLine (b : Bridge) (line : Bytes) : Bridge :=
  if (ascii "event:").isPrefixOf line then
    { b with currentEvent := snprintf 64 (skipBlanks (line.drop 6)) }
  else if (ascii "data:").isPrefixOf line then
    match jsonLoads (skipBlanks (line.drop 5)) with
    | some data => b.event data
    | none => b
  else if line = [] then { b with currentEvent := [] }
  else b

/-- A completed line; the string functions see it up to its first zero. -/
def Bridge.takeLine (b : Bridge) (line : Bytes) : Bridge := b.processLine (cString (stripCr line))

/-- `anthropic_bridge_finish`; the empty write at the end has no bytes. -/
def Bridge.finish (b : Bridge) : Bridge :=
  let b := b.closed b.idBuf
  if b.doneEmitted then b else { b.send doneEvent with doneEmitted := true }

end Aigate.AnthropicBridge
