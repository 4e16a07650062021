import Aigate.ChatBody
import Aigate.JailbreakDetector
import Aigate.StreamCache

/-!
# The prompt cache optimiser

The tools of a request are sorted by name, a header of the system prompt that changes from
request to request is moved behind the rest, and blocks are marked up to which the upstream may
cache the prompt. Every pass edits a part of the request of its own.
-/
namespace Aigate.CacheOptimizer
open Text JsonTree JsonText JsonEdit PiiText Guardrails JailbreakDetector StreamCache
open ChatBody (isSystemMessage)

/-- The switches of `cache_optimizer_rule_t`. -/
structure Rule where
  sortTools : Bool
  sinkDynamicSystem : Bool
  injectAnthropicBreakpoints : Bool
  minTokensThreshold : UInt32

def anthropicMaxBreakpoints : ℕ := 4

/-- The value of the first item that satisfies a test is replaced, if it has another one. -/
def updateAt (p : Json → Bool) (f : Json → Option Json) : List Json → Option (List Json)
  | [] => none
  | x :: rest => if p x then (f x).map (· :: rest) else (updateAt p f rest).map (x :: ·)

/-- The first item that can be replaced is. -/
def updateFirst (f : Json → Option Json) : List Json → Option (List Json) :=
  updateAt (fun x => (f x).isSome) f

section sort

/-- `qsort` by name. Which of two tools with one name comes first is left open. -/
structure Qsort where
  sort : List (Bytes × Json) → List (Bytes × Json)
  perm : ∀ entries, (sort entries).Perm entries
  sorted : ∀ entries, (sort entries).Pairwise fun a b => a.1 ≤ b.1

def toolName (item : Json) : Bytes :=
  (((item.get "function").bind (·.getString "name")).or (item.getString "name")).getD []

/-- The tools in the order of their names, if they are not. -/
def sortedTools (qsort : Qsort) (tools : List Json) : Option (List Json) :=
  if tools.length ≤ 1 ∨ (tools.map toolName).IsChain (· ≤ ·) then none
  else some ((qsort.sort (tools.map fun item => (toolName item, item))).map Prod.snd)

/-- `cache_optimizer_sort_tools`. -/
def sortTools (qsort : Qsort) (root : Json) : Option Json :=
  match root.getArray "tools" with
  | some tools => (sortedTools qsort tools).map fun sorted => root.set "tools" (.array sorted)
  | none => (root.getArray "functions").bind fun functions =>
    (sortedTools qsort functions).map fun sorted => root.set "functions" (.array sorted)

end sort

section sink

/-- `strncasecmp` with a header in lower case. -/
def startsWith (header : String) (p : Bytes) : Bool := lower (p.take header.length) = ascii header

/-- `YYYY-MM-DD`, or with slashes. -/
def isoDate (p : Bytes) : Bool :=
  match p with
  | a :: b :: c :: d :: s :: e :: f :: s' :: g :: h :: _ =>
    [a, b, c, d, e, f, g, h].all Char.isDigit && (s = '-' || s = '/') && (s' = '-' || s' = '/')
  | _ => false

def isDynamicHeaderPrefix (p : Bytes) : Bool :=
  decide (8 ≤ p.length) &&
    (["today is", "current date", "current time", "session id:", "session_id:", "session:",
      "request id:", "request_id:"].any (startsWith · p) || isoDate p)

/-- The first sentence, with its period, or the first line without its end; and the rest. -/
def cutSentence : Bytes → Bytes × Bytes
  | [] => ([], [])
  | c :: rest =>
    if c = '\n' then ([], c :: rest)
    else if c = '.' && (rest.head?.all isSpaceC) then ([c], rest)
    else (c :: (cutSentence rest).1, (cutSentence rest).2)

/-- A period or white space. -/
def isTrimmed (c : Char) : Bool := c = '.' || isSpaceC c

/-- `cache_optimizer_sink_dynamic_system`, with a buffer that the new text always fits in. -/
def sinkDynamicSystem (text : Bytes) : Option Bytes :=
  let body := text.dropWhile isSpaceC
  let dyn := (cutSentence body).1.rdropWhile isTrimmed
  let static := (cutSentence body).2.dropWhile isSpaceC
  if isDynamicHeaderPrefix body = false ∨ dyn = [] ∨ static = [] then none
  else some (static ++ ascii "\n\n[Runtime Context: " ++ dyn ++ ascii "]\n")

/-- A text is replaced. -/
def sinkString (key : String) (j : Json) : Option Json :=
  ((j.getString key).bind sinkDynamicSystem).map fun text => j.set key (.string text)

/-- The first system message is looked at, and no other. -/
def sinkMessages (root : Json) : Option Json :=
  ((root.getArray "messages").bind (updateAt isSystemMessage (sinkString "content"))).map fun ms =>
    root.set "messages" (.array ms)

end sink

section inject

def ephemeral : Json := .object [(ascii "type", .string (ascii "ephemeral"))]

def estimateTokensLen (charLen : ℕ) : UInt32 := UInt32.ofNat ((charLen + 3) / 4)

def markedText (text : Bytes) : Json :=
  .object [(ascii "type", .string (ascii "text")), (ascii "text", .string text),
    (ascii "cache_control", ephemeral)]

/-- The last block is marked if it is an object. -/
def markBlocks (blocks : List Json) : Option (List Json) :=
  match blocks.getLast? with
  | some last =>
    if last.isObject then some (blocks.dropLast ++ [last.set "cache_control" ephemeral]) else none
  | none => none

/-- A string becomes a block with a mark if it is long enough. -/
def markContent (minTokens : UInt32) : Json → Option Json
  | .string text =>
    if minTokens ≤ estimateTokensLen text.length then some (.array [markedText text]) else none
  | .array blocks => (markBlocks blocks).map .array
  | _ => none

def markMessage (minTokens : UInt32) (role : String) (msg : Json) : Option Json :=
  if msg.getString "role" = some (ascii role) then
    ((msg.get "content").bind (markContent minTokens)).map fun content => msg.set "content" content
  else none

def injectTools (minTokens : UInt32) (root : Json) : Option Json :=
  (root.getArray "tools").bind fun tools =>
    if minTokens ≤ estimateTokensLen (dumps (.array tools)).length then
      (markBlocks tools).map fun marked => root.set "tools" (.array marked)
    else none

def injectSystem (minTokens : UInt32) (root : Json) : Option Json :=
  ((root.get "system").bind (markContent minTokens)).map fun content => root.set "system" content

def editMessages (edit : List Json → Option (List Json)) (root : Json) : Option Json :=
  ((root.getArray "messages").bind edit).map fun messages => root.set "messages" (.array messages)

/-- The messages between the first and the last, from the end. -/
def editInner (edit : List Json → Option (List Json)) : List Json → Option (List Json)
  | first :: rest =>
    match rest.getLast? with
    | some last =>
      (edit rest.dropLast.reverse).map fun inner => first :: (inner.reverse ++ [last])
    | none => none
  | [] => none

def injectSystemMessage (minTokens : UInt32) : Json → Option Json :=
  editMessages (updateFirst (markMessage minTokens "system"))

def injectAssistantTurn (minTokens : UInt32) : Json → Option Json :=
  editMessages (editInner (updateFirst (markMessage minTokens "assistant")))

/-- A pass that marks a block counts it, and there are at most four. -/
def markPass (pass : Json → Option Json) (s : Json × ℕ) : Json × ℕ :=
  if s.2 < anthropicMaxBreakpoints then
    match pass s.1 with
    | some root => (root, s.2 + 1)
    | none => s
  else s

/-- `cache_optimizer_inject_anthropic_breakpoints`. -/
def injectAnthropicBreakpoints (root : Json) (minTokens : UInt32) : Json × ℕ :=
  let s := markPass (injectTools minTokens) (root, 0)
  let s := markPass (injectSystem minTokens) s
  let s := markPass (injectSystemMessage minTokens) s
  markPass (injectAssistantTurn minTokens) s

end inject

/-- A pass that edits the request says so. -/
def editPass (on : Bool) (pass : Json → Option Json) (s : Json × Bool) : Json × Bool :=
  if on then
    match pass s.1 with
    | some root => (root, true)
    | none => s
  else s

/-- The request after all passes, and whether it was modified. -/
def optimize (qsort : Qsort) (rule : Rule) (root : Json) : Json × Bool :=
  let s := editPass rule.sortTools (sortTools qsort) (root, false)
  let s := editPass rule.sinkDynamicSystem sinkMessages s
  let s := editPass rule.sinkDynamicSystem (sinkString "system") s
  if rule.injectAnthropicBreakpoints then
    let injected := injectAnthropicBreakpoints s.1 rule.minTokensThreshold
    (injected.1, s.2 || decide (0 < injected.2))
  else s

/-- `cache_optimizer_process_payload`: the new payload, if the request was modified. -/
def processPayload (qsort : Qsort) (rule : Rule) (payload : Bytes) : Option Bytes :=
  (jsonLoads (cString payload)).bind fun root =>
    if root.isObject ∧ (optimize qsort rule root).2 = true then
      some (dumps (optimize qsort rule root).1)
    else none

end Aigate.CacheOptimizer
