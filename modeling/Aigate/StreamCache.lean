import Aigate.GuardrailsEdits
import Aigate.LineBuffer
import Aigate.Utf8

/-!
# Storing and replaying a stream

While a completion is streamed to the client, an accumulator reads the events and collects
the texts of the deltas; a completed stream is stored in the response cache as one JSON
document. A hit is replayed as events again, with the content in pieces of 32 bytes. A client
reads a message off the events.
-/
namespace Aigate.StreamCache
open Text JsonTree JsonText Guardrails LineBuffer Utf8

/-- `json_loads`, which rejects a text that is not UTF-8. -/
def jsonLoads (text : Bytes) : Option Json := if utf8Check text then loads text else none

/-- The JSON object of a `data:` line, unless the line ends the stream. -/
def sseData (line : Bytes) : Option Json :=
  let line := cString line
  if (ascii "data: ").isPrefixOf line ∧ line ≠ ascii "data: [DONE]" then
    (jsonLoads (line.drop 6)).filter Json.isObject
  else none

def firstChoice (root : Json) : Option Json := (root.getArray "choices").bind List.head?

/-- The delta of an event's first choice. -/
def deltaOf (root : Json) : Option Json :=
  (firstChoice root).bind fun c0 => (c0.get "delta").filter Json.isObject

def deltaContent (root : Json) : Bytes :=
  ((deltaOf root).bind (·.getString "content")).getD []

def deltaToolCalls (root : Json) : List Json :=
  ((deltaOf root).bind (·.getArray "tool_calls")).getD []

def choiceFinish (root : Json) : Option Bytes :=
  (firstChoice root).bind (·.getString "finish_reason")

/-- The assistant message that a stream carries. -/
structure Message where
  content : Bytes
  toolCalls : List Json
  finishReason : Option Bytes

def Message.empty : Message := ⟨[], [], none⟩

/-- What one line adds to the message. -/
def Message.read (m : Message) (line : Bytes) : Message :=
  match sseData line with
  | none => m
  | some root =>
    { content := m.content ++ deltaContent root
      toolCalls := m.toolCalls ++ deltaToolCalls root
      finishReason := (choiceFinish root).or m.finishReason }

/-- The message that a client reads off the bytes of a stream. -/
def readMessage (stream : Bytes) : Message := (lines '\n' stream).foldl Message.read Message.empty

/-- The fields of `stream_cache_acc_t` behind the backfill. -/
structure StreamCacheAcc where
  accumContent : Bytes
  lineBuf : Bytes
  id : Bytes
  created : Int64
  overflow : Bool

def StreamCacheAcc.init : StreamCacheAcc := ⟨[], [], [], 0, false⟩

/-- The buffers double up to a limit, so a reservation fails exactly above it. -/
def lineLimit : ℕ := 1024 * 1024

def contentLimit : ℕ := 512 * 1024

/-- `acc_reserve_content` and the copy behind it. -/
def appendContent (acc : StreamCacheAcc) (text : Bytes) : StreamCacheAcc :=
  if text = [] then acc
  else if acc.accumContent.length + text.length + 1 ≤ contentLimit then
    if acc.overflow then acc else { acc with accumContent := acc.accumContent ++ text }
  else { acc with overflow := true }

def integerMember (j : Json) (key : String) : Option Int64 :=
  match j.get key with
  | some (.integer n) => some n
  | _ => none

/-- `accumulate_sse_line`; the buffer of the id has 64 bytes. -/
def accumulateSseLine (acc : StreamCacheAcc) (line : Bytes) : StreamCacheAcc :=
  match sseData line with
  | none => acc
  | some root =>
    appendContent
      { acc with
        id := if acc.id = [] then ((root.getString "id").getD []).take 63 else acc.id
        created :=
          if acc.created = 0 then (integerMember root "created").getD acc.created
          else acc.created }
      (deltaContent root)

/-- A completed line; one that does not fit in its buffer is dropped. -/
def takeLine (acc : StreamCacheAcc) (line : Bytes) : StreamCacheAcc :=
  if line.length + 1 ≤ lineLimit then accumulateSseLine acc line
  else { acc with overflow := true }

/-- `stream_cache_acc_write`, behind the watermark. -/
def streamCacheAccWrite (acc : StreamCacheAcc) (chunk : Bytes) : StreamCacheAcc :=
  if chunk = [] ∨ acc.overflow = true then acc
  else
    let s := split '\n' acc.lineBuf chunk
    let acc := s.1.foldl takeLine acc
    if s.2.length + 1 ≤ lineLimit then { acc with lineBuf := s.2 }
    else { acc with lineBuf := [], overflow := true }

/-- A completed stream: the chunks that the bridge writes, what the watermark makes of them
(the chunks themselves when it is off), and what the store of the backfill is given. -/
structure StreamRun where
  chunks : List Bytes
  marked : List Bytes
  cacheable : Bool
  status : ℤ
  model : Bytes
  model_le : model.length ≤ 127
  model_nonzero : Char.ofNat 0 ∉ model
  now : Int64
  ptok : Int64
  ctok : Int64

def StreamRun.acc (s : StreamRun) : StreamCacheAcc :=
  s.marked.foldl streamCacheAccWrite StreamCacheAcc.init

/-- `json_pack` fails when a string it is given is not UTF-8. -/
def jsonPack (given : List Bytes) (tree : Json) : Option Json :=
  if given.all utf8Check then some tree else none

/-- The conversion to `int`. -/
def toInt (n : Int64) : Int64 := n.toInt32.toInt64

def usageObject (ptok ctok : Int64) : Json :=
  .object [(ascii "prompt_tokens", .integer (toInt ptok)),
    (ascii "completion_tokens", .integer (toInt ctok)),
    (ascii "total_tokens", .integer (toInt (ptok + ctok)))]

/-- The document that `cache_store_stream` packs. -/
def fullResponse (id model content : Bytes) (created ptok ctok : Int64) : Json :=
  .object [(ascii "id", .string id), (ascii "object", .string (ascii "chat.completion")),
    (ascii "created", .integer created), (ascii "model", .string model),
    (ascii "choices", .array [.object [(ascii "index", .integer 0),
      (ascii "message", .object [(ascii "role", .string (ascii "assistant")),
        (ascii "content", .string content)]),
      (ascii "finish_reason", .string (ascii "stop"))]]),
    (ascii "usage", usageObject ptok ctok)]

def storedId (acc : StreamCacheAcc) : Bytes :=
  if acc.id ≠ [] then acc.id else ascii "chatcmpl-stream"

/-- `cache_store_stream`: the body that is stored, unless the cache refuses it for its size. -/
def cacheStoreStream (s : StreamRun) : Option Bytes :=
  let acc := s.acc
  if s.cacheable = true ∧ acc.overflow = false ∧ (s.status = 0 ∨ s.status = 200) ∧
      acc.accumContent ≠ [] then
    ((jsonPack [storedId acc, s.model, acc.accumContent]
      (fullResponse (storedId acc) s.model acc.accumContent
        (if 0 < acc.created then acc.created else s.now) s.ptok s.ctok)).map dumps).filter
      fun body => body.length ≤ 1048576
  else none

/-- A call of `write`: the bytes formatted into the buffer, and the length that is passed. -/
structure Write where
  formatted : Bytes
  length : ℕ

/-- `snprintf` into 2048 bytes; the length is that of the whole text. -/
def writeEvent (event : Json) : Write :=
  let text := ascii "data: " ++ dumps event ++ ['\n', '\n']
  ⟨text.take 2047, text.length⟩

/-- The bytes that a write hands on; beyond those formatted there is nothing to tell. -/
def Write.sent (w : Write) : Bytes := w.formatted.take w.length

/-- An event with one choice. -/
def chunkObject (id model : Bytes) (created : Int64) (delta finish : Json)
    (more : List (Bytes × Json)) : Json :=
  .object ([(ascii "id", .string id), (ascii "object", .string (ascii "chat.completion.chunk")),
    (ascii "created", .integer created), (ascii "model", .string model),
    (ascii "choices", .array [.object [(ascii "index", .integer 0), (ascii "delta", delta),
      (ascii "finish_reason", finish)]])] ++ more)

/-- The content in pieces of at most 32 bytes. -/
def pieces : ℕ → Bytes → List Bytes
  | 0, _ => []
  | _ + 1, [] => []
  | n + 1, c :: cs => (c :: cs).take 32 :: pieces n ((c :: cs).drop 32)

def contentPieces (content : Bytes) : List Bytes := pieces content.length content

/-- The fields of a cached entry. -/
structure CachedEntry where
  responseBody : Bytes
  createdAt : Int64
  promptTokens : Int64
  completionTokens : Int64

def cachedContent (root : Json) : Option Bytes :=
  ((firstChoice root).bind (·.get "message")).bind (·.getString "content")

/-- `cache_stream_replay`: the writes, for a request for the given model. -/
def cacheStreamReplay (ce : CachedEntry) (model : Bytes) : List Write :=
  let root := jsonLoads (cString ce.responseBody)
  let id := (root.bind (·.getString "id")).getD (ascii "chatcmpl-cache")
  let model := (root.bind (·.getString "model")).getD model
  let created := (root.bind (integerMember · "created")).getD ce.createdAt
  let content := (root.bind cachedContent).getD []
  let role := jsonPack [id, model] (chunkObject id model created
    (.object [(ascii "role", .string (ascii "assistant")), (ascii "content", .string [])]) .null [])
  let chunks := (contentPieces content).filterMap fun piece =>
    jsonPack [id, model, piece]
      (chunkObject id model created (.object [(ascii "content", .string piece)]) .null [])
  let fin := jsonPack [id, model] (chunkObject id model created (.object [])
    (.string (ascii "stop")) [(ascii "usage", usageObject ce.promptTokens ce.completionTokens)])
  (role.toList ++ chunks ++ fin.toList).map writeEvent ++
    [⟨ascii "data: [DONE]" ++ ['\n', '\n'], 14⟩, ⟨[], 0⟩]

/-- What the client of a hit receives. -/
def replayed (ws : List Write) : Bytes := ws.flatMap Write.sent

end Aigate.StreamCache
