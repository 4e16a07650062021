import Aigate.BridgeEvents

/-!
# The bridge of a Gemini stream

Each line of data holds some parts of the answer. A text becomes one chunk, and so does a
function call; the reason for the end is written when the stream is finished.
-/
namespace Aigate.GeminiBridge
open Text JsonTree JsonText Guardrails Utf8 StreamCache ProviderRequests BridgeEvents

/-- `gemini_bridge_t`, and what it has written; the clock tells the time of each event. -/
structure Bridge where
  clock : ℕ → Int64
  model : Bytes
  msgId : Bytes
  finishReason : Bytes
  promptTokens : Int64
  completionTokens : Int64
  doneEmitted : Bool
  tagEmulation : Bool
  tagOpened : Bool
  tagClosed : Bool
  reasoningTokens : Int64
  sent : List Bytes

/-- `provider_gemini_bridge_new` at a time, with the flag that the caller sets. -/
def Bridge.new (clock : ℕ → Int64) (now : Int64) (model : Option Bytes) (tagEmulation : Bool) :
    Bridge where
  clock := clock
  model := snprintf 64 (model.getD (ascii "gemini"))
  msgId := snprintf 64 (ascii "chatcmpl-gemini-" ++ integerText now)
  finishReason := ascii "stop"
  promptTokens := 0
  completionTokens := 0
  doneEmitted := false
  tagEmulation := tagEmulation
  tagOpened := false
  tagClosed := false
  reasoningTokens := 0
  sent := []

/-- `gemini_bridge_send_chunk`. -/
def Bridge.send (b : Bridge) (text : Bytes) : Bridge := { b with sent := b.sent ++ [text] }

/-- A chunk with one choice, at the time of the next event. -/
def Bridge.chunk (b : Bridge) (delta finish : Json) : Json :=
  .object (stringMember "id" b.msgId ++
    [(ascii "object", .string (ascii "chat.completion.chunk")),
      (ascii "created", .integer (b.clock b.sent.length))] ++ stringMember "model" b.model ++
    [(ascii "choices", .array [.object [(ascii "index", .integer 0), (ascii "delta", delta),
      (ascii "finish_reason", finish)]])])

def Bridge.emit (b : Bridge) (delta finish : Json) : Bridge :=
  b.send (snprintf eventCap (dataEvent (dumps (b.chunk delta finish))))

/-- `gemini_bridge_emit_delta`. -/
def Bridge.emitDelta (b : Bridge) (key : String) (text : Bytes) : Bridge :=
  b.emit (.object (stringMember key text)) .null

def openTag : Bytes := ascii "<think>" ++ ['\n']

def closeTag : Bytes := '\n' :: ascii "</think>" ++ ['\n', '\n']

def Bridge.opened (b : Bridge) : Bridge :=
  if b.tagOpened then b else { b.emitDelta "content" openTag with tagOpened := true }

def Bridge.closed (b : Bridge) : Bridge :=
  if b.tagEmulation = true ∧ b.tagOpened = true ∧ b.tagClosed = false then
    { b.emitDelta "content" closeTag with tagClosed := true }
  else b

/-- A quarter of the bytes of a thought is added to its tokens, and one at least is counted. -/
def addReasoning (tokens : Int64) (text : Bytes) : Int64 :=
  let sum := tokens + Int64.ofNat (text.length / 4)
  if sum ≤ 0 then 1 else sum

def isThought (part : Json) : Bool := (part.get "thought").any Json.isTrue

/-- The text of a part. -/
def Bridge.textPart (b : Bridge) (part : Json) : Bridge :=
  match part.getString "text" with
  | none => b
  | some text =>
    if text = [] then b
    else if isThought part then
      let b := { b with reasoningTokens := addReasoning b.reasoningTokens text }
      if b.tagEmulation then b.opened.emitDelta "content" text
      else b.emitDelta "reasoning_content" text
    else b.closed.emitDelta "content" text

/-- The id that a call is given: its name and its place among the parts. -/
def callId (name : Bytes) (pi : ℕ) : Bytes :=
  snprintf 64 (ascii "call_" ++ name ++ '_' :: decimal pi)

def callFunction (fc : Json) : Json :=
  let name := (fc.getString "name").getD []
  .object (stringMember "name" name ++ stringMember "arguments" (argumentsText (fc.get "args")))

/-- The delta of a function call. -/
def callDelta (fc : Json) (pi : ℕ) : Json :=
  .object [(ascii "tool_calls", .array [.object
    ([(ascii "index", .integer (toInt (Int64.ofNat pi)))] ++
      stringMember "id" (callId ((fc.getString "name").getD []) pi) ++
      [(ascii "type", .string (ascii "function")), (ascii "function", callFunction fc)])])]

def Bridge.callPart (b : Bridge) (part : Json) (pi : ℕ) : Bridge :=
  match getObject part "functionCall" with
  | none => b
  | some fc => { b.emit (callDelta fc pi) .null with finishReason := ascii "tool_calls" }

def Bridge.part (b : Bridge) (p : Json × ℕ) : Bridge := (b.textPart p.1).callPart p.1 p.2

/-- `map_gemini_finish_reason`. -/
def mapGeminiFinishReason (reason : Bytes) : Bytes :=
  if reason = ascii "STOP" then ascii "stop"
  else if reason = ascii "MAX_TOKENS" then ascii "length"
  else if reason = ascii "SAFETY" ∨ reason = ascii "RECITATION" then ascii "content_filter"
  else ascii "stop"

/-- The first candidate of an answer. -/
def candidateOf (root : Json) : Option Json := (root.getArray "candidates").bind List.head?

def partsOf (c0 : Json) : List Json := ((getObject c0 "content").bind (·.getArray "parts")).getD []

def Bridge.usage (b : Bridge) (root : Json) : Bridge :=
  match getObject root "usageMetadata" with
  | none => b
  | some u =>
    { b with
      promptTokens := integerOr (u.get "promptTokenCount") b.promptTokens
      completionTokens := integerOr (u.get "candidatesTokenCount") b.completionTokens
      reasoningTokens := integerOr (u.get "thoughtsTokenCount") b.reasoningTokens }

/-- The reason of a candidate, unless calls have been made. -/
def Bridge.finishOf (b : Bridge) (c0 : Json) : Bridge :=
  match c0.getString "finishReason" with
  | none => b
  | some reason =>
    if b.finishReason = ascii "tool_calls" then b
    else { b with finishReason := snprintf 32 (mapGeminiFinishReason reason) }

def Bridge.candidate (b : Bridge) (c0 : Json) : Bridge :=
  ((partsOf c0).zipIdx.foldl Bridge.part b).finishOf c0

/-- `gemini_bridge_process_line`. -/
def Bridge.processLine (b : Bridge) (line : Bytes) : Bridge :=
  match strstr (ascii "data:") line with
  | none => b
  | some found =>
    let d := (found.drop 5).dropWhile fun c => c = ' ' ∨ c = '\t'
    if d = [] then b
    else
      match jsonLoads d with
      | none => b
      | some root =>
        match candidateOf root with
        | none => b.usage root
        | some c0 => (b.usage root).candidate c0

def stripEnd (line : Bytes) : Bytes := line.rdropWhile fun c => c = '\r' ∨ c = ' '

/-- A completed line; the string functions see it up to its first zero. -/
def Bridge.takeLine (b : Bridge) (line : Bytes) : Bridge := b.processLine (cString (stripEnd line))

/-- `gemini_stream_bridge_finish`; the empty write at the end has no bytes. -/
def Bridge.finish (b : Bridge) : Bridge :=
  if b.doneEmitted then b
  else
    let b := b.closed
    let reason := if b.finishReason = [] then ascii "stop" else b.finishReason
    { (b.emit (.object []) (.string reason)).send doneEvent with doneEmitted := true }

end Aigate.GeminiBridge
