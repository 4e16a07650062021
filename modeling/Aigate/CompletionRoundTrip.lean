import Aigate.EventStreams
import Aigate.JsonSort
import Aigate.MessagesAgreement

/-!
# A completion as a message and back

A whole completion is translated to an Anthropic message, and an Anthropic message to a
completion. What the first translation keeps of the calls, the second one gives back, as long as
the message is not nested too deeply to be parsed again.
-/
namespace Aigate.CompletionRoundTrip
open Text JsonTree JsonText JsonRoundtrip JsonEdit JsonUtf8 Guardrails GuardrailsEdits Utf8
  StreamCache BridgeEvents EventTexts EventStreams
open ProviderRequests (getObject)
open MessagesAnswer (added finishOf inputOf outputOf integerValue)
open MessagesAgreement

/-! ### A message as a completion -/

/-- The texts and the calls in the content of a message. -/
structure Scan where
  thinking : Option Bytes
  signature : Option Bytes
  content : Option Bytes
  toolCalls : List Json

def Scan.new : Scan := ⟨none, none, none, []⟩

/-- The call of a `tool_use` block. -/
def toolCall (block : Json) : Json :=
  .object (stringMember "id" ((block.getString "id").getD []) ++
    [(ascii "type", .string (ascii "function")),
      (ascii "function", .object (stringMember "name" ((block.getString "name").getD []) ++
        stringMember "arguments" (argumentsText (block.get "input"))))])

def Scan.block (s : Scan) (block : Json) : Scan :=
  match block.getString "type" with
  | some type =>
    if type = ascii "thinking" then
      { s with
        thinking := added s.thinking (block.getString "thinking")
        signature := s.signature.or (block.getString "signature") }
    else if type = ascii "redacted_thinking" then
      { s with thinking := added s.thinking (some (ascii "[redacted thinking]")) }
    else if type = ascii "text" then
      { s with content := added s.content (block.getString "text") }
    else if type = ascii "tool_use" then { s with toolCalls := s.toolCalls ++ [toolCall block] }
    else s
  | none => s

/-- All blocks of a message. -/
def scan (root : Json) : Scan := ((root.getArray "content").getD []).foldl Scan.block .new

/-- The content of the completion; with tag emulation the thoughts come before it. -/
def Scan.contentMember (s : Scan) (tagEmulation : Bool) : List (Bytes × Json) :=
  if tagEmulation ∧ s.thinking.getD [] ≠ [] then
    stringMember "content" (ascii "<think>\n" ++ s.thinking.getD [] ++ ascii "\n</think>\n\n" ++
      s.content.getD [])
  else if s.content.getD [] ≠ [] then stringMember "content" (s.content.getD [])
  else [(ascii "content", .null)]

def Scan.message (s : Scan) (tagEmulation : Bool) : Json :=
  .object ([(ascii "role", .string (ascii "assistant"))] ++
    s.thinking.toList.flatMap (stringMember "reasoning_content") ++
    (if tagEmulation then [] else s.signature.toList.flatMap (stringMember "reasoning_signature")) ++
    s.contentMember tagEmulation ++
    (if s.toolCalls.isEmpty then [] else [(ascii "tool_calls", .array s.toolCalls)]))

def completionId (root : Json) : Bytes :=
  snprintf 128 (ascii "chatcmpl-" ++ (root.getString "id").getD (ascii "unknown"))

def completionModel (root : Json) (reqModel : Option Bytes) : Bytes :=
  (root.getString "model").getD (reqModel.getD (ascii "claude"))

def completionFinish (root : Json) : Bytes :=
  match root.getString "stop_reason" with
  | some reason =>
    if reason = ascii "max_tokens" then ascii "length"
    else if reason = ascii "tool_use" then ascii "tool_calls"
    else ascii "stop"
  | none => ascii "stop"

/-- The tokens under a name in the usage of a message. -/
def messageTokens (root : Json) (key : String) : Int64 :=
  (integerValue ((getObject root "usage").bind (·.get key))).getD 0

def completionUsage (ptok ctok : Int64) : Json :=
  .object [(ascii "prompt_tokens", .integer ptok), (ascii "completion_tokens", .integer ctok),
    (ascii "total_tokens", .integer (ptok + ctok))]

/-- The completion that `provider_anthropic_resp_to_openai_ext` dumps. -/
def completionOf (root : Json) (reqModel : Option Bytes) (tagEmulation : Bool) (created : Int64) :
    Json :=
  .object (stringMember "id" (completionId root) ++
    [(ascii "object", .string (ascii "chat.completion")), (ascii "created", .integer created)] ++
    stringMember "model" (completionModel root reqModel) ++
    [(ascii "choices", .array [.object [(ascii "index", .integer 0),
        (ascii "message", (scan root).message tagEmulation),
        (ascii "finish_reason", .string (completionFinish root))]]),
      (ascii "usage", completionUsage (messageTokens root "input_tokens")
        (messageTokens root "output_tokens"))])

/-- `provider_anthropic_resp_to_openai_ext`: the completion, and the tokens of the prompt and of
the completion. -/
def providerAnthropicRespToOpenaiExt (anthropicResp : Bytes) (reqModel : Option Bytes)
    (tagEmulation : Bool) (created : Int64) : Option (Json × Int64 × Int64) :=
  (jsonLoads (cString anthropicResp)).map fun root =>
    (completionOf root reqModel tagEmulation created, messageTokens root "input_tokens",
      messageTokens root "output_tokens")

/-- `provider_anthropic_resp_to_openai`. -/
def providerAnthropicRespToOpenai (anthropicResp : Bytes) (reqModel : Option Bytes)
    (created : Int64) : Option (Json × Int64 × Int64) :=
  providerAnthropicRespToOpenaiExt anthropicResp reqModel false created

/-- A completion is translated to a message and that one back. -/
def thereAndBack (oaiResp : Bytes) (reqModel reqModel' : Option Bytes) (created : Int64) :
    Option Json :=
  (providerOpenaiRespToAnthropic oaiResp reqModel).bind fun message =>
    (providerAnthropicRespToOpenai (dumps message.1) reqModel' created).map (·.1)

/-! ### What a client reads in a completion -/

/-- Any JSON value, not only a document. -/
def valueOf (text : Bytes) : Option Json :=
  if utf8Check text then
    match parseValue (text.length + 1) text with
    | some (j, rest) => if (skipSpace rest).isEmpty then some j else none
    | none => none
  else none

structure ToolCall where
  id : Bytes
  name : Bytes
  arguments : Option Json

def readCall (tc : Json) : ToolCall :=
  ⟨(tc.getString "id").getD [], ((getObject tc "function").bind (·.getString "name")).getD [],
    ((getObject tc "function").bind (·.getString "arguments")).bind valueOf⟩

structure Reply where
  content : Bytes
  reasoning : Bytes
  calls : List ToolCall
  finishReason : Option Bytes
  promptTokens : Int64
  completionTokens : Int64

def toolCallsOf (root : Json) : List Json :=
  ((messageOf root).bind (·.getArray "tool_calls")).getD []

def readReply (root : Json) : Reply where
  content := (contentOf root).getD []
  reasoning := (reasoningOf root).getD []
  calls := (toolCallsOf root).map readCall
  finishReason := finishOf root
  promptTokens := (inputOf root).getD 0
  completionTokens := (outputOf root).getD 0

/-- A value that is parsed on its own: an array or an object that is not too deep. -/
def isParsed (j : Json) : Bool := isDocument j && decide (depth j ≤ maxDepth)

/-- The arguments of a call in a message; an empty object stands for all that is not parsed. -/
def ToolCall.kept (c : ToolCall) : ToolCall :=
  { c with arguments := some ((c.arguments.filter isParsed).getD (.object [])) }

/-- The calls that have a function. -/
def keptCalls (root : Json) : List ToolCall :=
  ((toolCallsOf root).filter fun tc => (getObject tc "function").isSome).map
    fun tc => (readCall tc).kept

/-! ### Both ways -/

/-- What is read again of a document that was written: nothing, if it is too deep. -/
theorem jsonLoads_dumps_eq {j : Json} (hj : Clean j) (hd : isDocument j = true) :
    jsonLoads (cString (dumps j)) = if depth j ≤ maxDepth then some j else none := by
  rw [cString_of_nonzero (nonzero_dumps j), jsonLoads, if_pos (utf8Check_dumps hj.utf8)]
  have hparsed := parseValue_dumps j hj.wellFormed _ [] (le_refl _) stops_nil
  rw [List.append_nil] at hparsed
  by_cases hdepth : depth j ≤ maxDepth <;> simp [loads, hparsed, hd, hdepth, skipSpace]

theorem valueOf_dumps {j : Json} (hj : Clean j) : valueOf (dumps j) = some j := by
  have hparsed := parseValue_dumps j hj.wellFormed _ [] (le_refl _) stops_nil
  rw [List.append_nil] at hparsed
  simp [valueOf, utf8Check_dumps hj.utf8, hparsed, skipSpace]

/-- The input of a call is a document. -/
theorem input_document (c : Call) : Clean c.input ∧ isDocument c.input = true := by
  unfold Call.input
  cases hinput : jsonLoads c.arguments with
  | none => exact ⟨clean_object List.nodup_nil (List.forall_mem_nil _), rfl⟩
  | some j => exact ⟨clean_jsonLoads hinput, (StreamCacheStore.jsonLoads_readable hinput).document⟩

theorem jsonLoads_eq_filter (text : Bytes) : jsonLoads text = (valueOf text).filter isParsed := by
  unfold jsonLoads valueOf loads
  split
  · cases parseValue (text.length + 1) text with
    | none => rfl
    | some parsed =>
      obtain ⟨j, rest⟩ := parsed
      by_cases hrest : (skipSpace rest).isEmpty <;> simp [hrest, isParsed, Option.filter]
  · rfl

theorem kept_callOf {tc : Json} {c : Call} (h : callOf tc = some c) :
    (readCall tc).kept = ⟨c.id, c.name, some c.input⟩ := by
  obtain ⟨fn, hfn, rfl⟩ := Option.map_eq_some_iff.mp h
  have hempty : (jsonLoads (ascii "\x7b\x7d")).getD (.object []) = .object [] := by
    have hread : jsonLoads (dumps (.object [])) = some (.object []) :=
      Clean.jsonLoads_dumps (clean_object List.nodup_nil (List.forall_mem_nil _)) rfl (by decide)
    have htext : ascii "\x7b\x7d" = dumps (.object []) := by decide +kernel
    rw [htext, hread]
    rfl
  unfold ToolCall.kept readCall Call.input
  rw [hfn, Option.bind_some, Option.bind_some]
  cases hargs : fn.getString "arguments" with
  | none => simp [hempty]
  | some args => simp [jsonLoads_eq_filter]

theorem keptCalls_eq (root : Json) :
    keptCalls root = (callsOf root).map fun c => ⟨c.id, c.name, some c.input⟩ := by
  change ((toolCallsOf root).filter _).map _ = ((toolCallsOf root).filterMap callOf).map _
  induction toolCallsOf root with
  | nil => rfl
  | cons tc rest ih =>
    cases hcall : callOf tc with
    | none =>
      have hnone : getObject tc "function" = none := Option.map_eq_none_iff.mp hcall
      simp [hnone, hcall, ih]
    | some c =>
      have hsome : (getObject tc "function").isSome := by
        obtain ⟨fn, hfn, -⟩ := Option.map_eq_some_iff.mp hcall
        rw [hfn]
        rfl
      simp [hsome, hcall, ih, kept_callOf hcall]

/-- The call that comes back. -/
def backCall (c : Call) : Json :=
  .object [(ascii "id", .string c.id), (ascii "type", .string (ascii "function")),
    (ascii "function", .object [(ascii "name", .string c.name),
      (ascii "arguments", .string (dumps c.input))])]

theorem toolCall_content {c : Call} (h : Packable c) : toolCall c.content = backCall c := by
  have hargs : utf8Check (dumps c.input) = true := utf8Check_dumps (input_document c).1.utf8
  simp [toolCall, backCall, Call.content, stringMember, argumentsText, h.id.1, h.name.1, hargs,
    (input_document c).2, Json.getString, Json.get, lookup, Json.stringValue, ascii_inj]

theorem block_content (s : Scan) {c : Call} (h : Packable c) :
    s.block c.content = { s with toolCalls := s.toolCalls ++ [backCall c] } := by
  have htype : c.content.getString "type" = some (ascii "tool_use") := by
    simp [Call.content, Json.getString, Json.get, lookup, Json.stringValue]
  unfold Scan.block
  rw [htype]
  simp [ascii_inj, toolCall_content h]

theorem foldl_contents (s : Scan) {calls : List Call} (h : ∀ c ∈ calls, Packable c) :
    (calls.map Call.content).foldl Scan.block s =
      { s with toolCalls := s.toolCalls ++ calls.map backCall } := by
  induction calls generalizing s with
  | nil => simp
  | cons c rest ih =>
    obtain ⟨hc, hrest⟩ := List.forall_mem_cons.mp h
    simp [block_content s hc, ih _ hrest]

/-- A block of thoughts or of text is collected, if there is one. -/
theorem foldl_thinking {text : Option Bytes} (h : ∀ t ∈ text, utf8Check t = true) :
    (textBlock "thinking" text).foldl Scan.block .new = ⟨nonempty text, none, none, []⟩ := by
  cases text with
  | none => rfl
  | some t =>
    by_cases ht : t = []
    · simp [textBlock, nonempty, ht, Scan.new, Option.filter]
    · simp [textBlock, nonempty, ht, Scan.new, Scan.block, added, stringMember, h t rfl,
        Option.filter, Json.getString, Json.get, lookup, Json.stringValue, ascii_inj]

theorem foldl_text (thinking : Option Bytes) {text : Option Bytes}
    (h : ∀ t ∈ text, utf8Check t = true) :
    (textBlock "text" text).foldl Scan.block ⟨thinking, none, none, []⟩ =
      ⟨thinking, none, nonempty text, []⟩ := by
  cases text with
  | none => rfl
  | some t =>
    by_cases ht : t = []
    · simp [textBlock, nonempty, ht, Option.filter]
    · simp [textBlock, nonempty, ht, Scan.block, added, stringMember, h t rfl, Option.filter,
        Json.getString, Json.get, lookup, Json.stringValue, ascii_inj]

/-- The members of the message that the way back reads. -/
theorem get_respMessage (root : Json) (reqModel : Option Bytes) :
    (respMessage root reqModel).getArray "content" =
        some (textBlock "thinking" (reasoningOf root) ++ textBlock "text" (contentOf root) ++
          (callsOf root).map Call.content) ∧
      (respMessage root reqModel).getString "stop_reason" = some (respFinishReason root) ∧
      getObject (respMessage root reqModel) "usage" =
        some (.object [(ascii "input_tokens", .integer ((inputOf root).getD 0)),
          (ascii "output_tokens", .integer ((outputOf root).getD 0))]) := by
  unfold respMessage stringMember
  split <;> split
  all_goals
    simp [getObject, Json.getArray, Json.getString, Json.get, lookup, Json.stringValue,
      Json.arrayItems, Json.isObject, ascii_inj, Option.filter]

theorem scan_respMessage {root : Json} (hroot : Clean root) (reqModel : Option Bytes) :
    scan (respMessage root reqModel) =
      ⟨nonempty (reasoningOf root), none, nonempty (contentOf root),
        (callsOf root).map backCall⟩ := by
  have hthinking : ∀ t ∈ reasoningOf root, utf8Check t = true :=
    fun t ht => (valid_message hroot "reasoning_content" t ht).1
  have htext : ∀ t ∈ contentOf root, utf8Check t = true :=
    fun t ht => (valid_message hroot "content" t ht).1
  unfold scan
  rw [(get_respMessage root reqModel).1, Option.getD_some, List.foldl_append, List.foldl_append,
    foldl_thinking hthinking, foldl_text _ htext, foldl_contents _ (packable_callsOf hroot)]
  rfl

theorem depth_object_le_iff {members : List (Bytes × Json)} {n : ℕ} :
    depth (.object members) ≤ n + 1 ↔ ∀ m ∈ members, depth m.2 ≤ n := by
  rw [depth, Nat.add_le_add_iff_right, JsonSort.depthMembers_le_iff]

theorem depth_array_le_iff {items : List Json} {n : ℕ} :
    depth (.array items) ≤ n + 1 ↔ ∀ x ∈ items, depth x ≤ n := by
  rw [depth, Nat.add_le_add_iff_right, depthItems_le_iff]

/-- The inputs lie three levels below the message. -/
theorem depth_respMessage_le_iff (root : Json) (reqModel : Option Bytes) :
    depth (respMessage root reqModel) ≤ maxDepth ↔
      ∀ c ∈ callsOf root, depth c.input + 3 ≤ maxDepth := by
  have hmember : ∀ (key : String) (s : Bytes), ∀ m ∈ stringMember key s, depth m.2 ≤ 2045 := by
    intro key s m hm
    unfold stringMember at hm
    split at hm <;> simp_all [depth]
  have htext : ∀ (kind : String) (text : Option Bytes), ∀ x ∈ textBlock kind text,
      depth x ≤ 2046 := by
    intro kind text x hx
    unfold textBlock at hx
    split at hx
    · split at hx
      · cases hx
      · rw [List.mem_singleton.mp hx, depth_object_le_iff, List.forall_mem_cons]
        exact ⟨by simp [depth], hmember _ _⟩
    · cases hx
  have hcall : ∀ c : Call, depth c.content ≤ 2046 ↔ depth c.input ≤ 2045 := by
    intro c
    unfold Call.content
    rw [depth_object_le_iff]
    simp only [List.forall_mem_cons, List.forall_mem_append]
    exact ⟨fun h => h.2.2.1, fun h => ⟨by simp [depth], ⟨hmember _ _, hmember _ _⟩, h, by simp⟩⟩
  have hcontent : depth (.array (textBlock "thinking" (reasoningOf root) ++
      textBlock "text" (contentOf root) ++ (callsOf root).map Call.content)) ≤ 2047 ↔
      ∀ c ∈ callsOf root, depth c.input ≤ 2045 := by
    rw [depth_array_le_iff]
    simp only [List.forall_mem_append, List.forall_mem_map, hcall]
    exact ⟨fun h => h.2, fun h => ⟨⟨htext _ _, htext _ _⟩, h⟩⟩
  have hsmall : ∀ (key : String) (s : Bytes), ∀ m ∈ stringMember key s, depth m.2 ≤ 2047 :=
    fun key s m hm => (hmember key s m hm).trans (by decide)
  have hdepth : depth (respMessage root reqModel) ≤ maxDepth ↔
      ∀ c ∈ callsOf root, depth c.input ≤ 2045 := by
    rw [← hcontent, maxDepth, respMessage, depth_object_le_iff]
    simp only [List.forall_mem_append, List.forall_mem_cons]
    exact ⟨fun h => h.2.1, fun h => ⟨⟨⟨hsmall _ _, by simp [depth]⟩, hsmall _ _⟩, h,
      by simp [depth, depthMembers]⟩⟩
  rw [hdepth]
  exact forall₂_congr fun c _ => by unfold maxDepth; omega

theorem clean_textBlock {kind : String} (hkind : Clean (.string (ascii kind)))
    (hne : ascii "type" ≠ ascii kind) {text : Option Bytes}
    (h : ∀ t ∈ text, utf8Check t = true ∧ Nonzero t) : ∀ x ∈ textBlock kind text, Clean x := by
  intro x hx
  unfold textBlock at hx
  split at hx
  · rename_i t
    split at hx
    · cases hx
    · rw [List.mem_singleton.mp hx, stringMember, if_pos (h t rfl).1]
      refine clean_object (by simp [hne]) ?_
      simp only [List.forall_mem_cons]
      exact ⟨⟨clean_ascii _ (by decide), hkind⟩, ⟨hkind, clean_string (h t rfl)⟩,
        List.forall_mem_nil _⟩
  · cases hx

theorem clean_content {c : Call} (h : Packable c) : Clean c.content := by
  unfold Call.content stringMember
  rw [if_pos h.id.1, if_pos h.name.1]
  refine clean_object (by simp [ascii_inj]) ?_
  simp only [List.cons_append, List.nil_append, List.forall_mem_cons]
  exact ⟨⟨clean_ascii _ (by decide), clean_ascii _ (by decide)⟩,
    ⟨clean_ascii _ (by decide), clean_string h.id⟩,
    ⟨clean_ascii _ (by decide), clean_string h.name⟩,
    ⟨clean_ascii _ (by decide), (input_document c).1⟩, List.forall_mem_nil _⟩

theorem nonzero_respId {root : Json} (hroot : Clean root) : Nonzero (respId root) := by
  have hid := (hroot.getString_getD "id" (valid_ascii "unknown" (by decide))).2
  unfold respId
  refine nonzero_sublist (List.take_sublist _ _) (nonzero_append (nonzero_ascii _ (by decide)) ?_)
  split
  · exact nonzero_sublist (List.drop_sublist _ _) hid
  · exact hid

theorem nonzero_respModel {root : Json} (hroot : Clean root) {reqModel : Option Bytes}
    (hmodel : ∀ m ∈ reqModel, Nonzero m) : Nonzero (respModel root reqModel) := by
  unfold respModel
  cases hname : root.getString "model" with
  | some s => exact (hroot.getString hname).2
  | none =>
    cases reqModel with
    | some m => exact hmodel m rfl
    | none => exact nonzero_ascii "unknown" (by decide)

theorem clean_respMessage {root : Json} (hroot : Clean root) {reqModel : Option Bytes}
    (hmodel : ∀ m ∈ reqModel, Nonzero m) : Clean (respMessage root reqModel) := by
  have hid := clean_stringMember (clean_ascii "id" (by decide)) (nonzero_respId hroot)
  have hname := clean_stringMember (clean_ascii "model" (by decide))
    (nonzero_respModel hroot hmodel)
  have hblocks : ∀ x ∈ textBlock "thinking" (reasoningOf root) ++
      textBlock "text" (contentOf root) ++ (callsOf root).map Call.content, Clean x := by
    simp only [List.forall_mem_append, List.forall_mem_map]
    exact ⟨⟨clean_textBlock (clean_ascii _ (by decide)) (by simp [ascii_inj])
        (valid_message hroot "reasoning_content"),
      clean_textBlock (clean_ascii _ (by decide)) (by simp [ascii_inj])
        (valid_message hroot "content")⟩, fun c hc => clean_content (packable_callsOf hroot c hc)⟩
  have hreason : Clean (.string (respFinishReason root)) := by
    unfold respFinishReason
    split
    · split_ifs <;> exact clean_ascii _ (by decide)
    · exact clean_ascii _ (by decide)
  have husage : Clean (.object [(ascii "input_tokens", .integer ((inputOf root).getD 0)),
      (ascii "output_tokens", .integer ((outputOf root).getD 0))]) := by
    refine clean_object (by simp [ascii_inj]) ?_
    simp only [List.forall_mem_cons]
    exact ⟨⟨clean_ascii _ (by decide), clean_integer _⟩, ⟨clean_ascii _ (by decide),
      clean_integer _⟩, List.forall_mem_nil _⟩
  refine clean_object ?_ ?_
  · unfold stringMember
    split_ifs <;> simp [ascii_inj]
  · simp only [List.forall_mem_append, List.forall_mem_cons]
    exact ⟨⟨⟨hid, ⟨clean_ascii _ (by decide), clean_ascii _ (by decide)⟩,
        ⟨clean_ascii _ (by decide), clean_ascii _ (by decide)⟩, List.forall_mem_nil _⟩, hname⟩,
      ⟨clean_ascii _ (by decide), clean_array hblocks⟩, ⟨clean_ascii _ (by decide), hreason⟩,
      ⟨clean_ascii _ (by decide), clean_null⟩, ⟨clean_ascii _ (by decide), husage⟩,
      List.forall_mem_nil _⟩

/-! ### What comes back -/

theorem getD_nonempty (text : Option Bytes) : (nonempty text).getD [] = text.getD [] := by
  cases text with
  | none => rfl
  | some t => by_cases ht : t = [] <;> simp [nonempty, ht, Option.filter]

/-- The members of a message without a signature. -/
theorem get_message {thinking content : Option Bytes} (toolCalls : List Json)
    (hthinking : ∀ t ∈ thinking, utf8Check t = true)
    (hcontent : ∀ t ∈ content, utf8Check t = true) :
    let message := Scan.message ⟨thinking, none, content, toolCalls⟩ false
    message.getString "reasoning_content" = thinking ∧
      (message.getString "content").getD [] = content.getD [] ∧
      (message.getArray "tool_calls").getD [] = toolCalls := by
  have hutf8 : utf8Check (content.getD []) = true := by
    cases content with
    | none => rfl
    | some t => exact hcontent t rfl
  unfold Scan.message Scan.contentMember
  cases thinking with
  | none =>
    by_cases hempty : content.getD [] = [] <;> cases toolCalls
    all_goals
      simp [hempty, hutf8, stringMember, Json.getString, Json.getArray, Json.get, lookup,
        Json.stringValue, Json.arrayItems, ascii_inj]
  | some t =>
    have ht := hthinking t rfl
    by_cases hempty : content.getD [] = [] <;> cases toolCalls
    all_goals
      simp [hempty, hutf8, ht, stringMember, Json.getString, Json.getArray, Json.get, lookup,
        Json.stringValue, Json.arrayItems, ascii_inj]

theorem get_completionOf (root : Json) (reqModel : Option Bytes) (tagEmulation : Bool)
    (created : Int64) :
    messageOf (completionOf root reqModel tagEmulation created) =
        some ((scan root).message tagEmulation) ∧
      finishOf (completionOf root reqModel tagEmulation created) = some (completionFinish root) ∧
      inputOf (completionOf root reqModel tagEmulation created) =
        some (messageTokens root "input_tokens") ∧
      outputOf (completionOf root reqModel tagEmulation created) =
        some (messageTokens root "output_tokens") := by
  obtain ⟨members, hmessage⟩ : ∃ members, (scan root).message tagEmulation = .object members :=
    ⟨_, rfl⟩
  unfold completionOf stringMember
  rw [hmessage]
  split <;> split
  all_goals
    simp [messageOf, finishOf, inputOf, outputOf, MessagesBridge.choiceOf, firstChoice,
      completionUsage, integerValue, getObject, Json.getString, Json.getArray, Json.get,
      lookup, Json.stringValue, Json.arrayItems, Json.isObject, Option.filter, ascii_inj]

theorem readCall_backCall (c : Call) : readCall (backCall c) = ⟨c.id, c.name, some c.input⟩ := by
  simp [readCall, backCall, getObject, Json.getString, Json.get, lookup, Json.stringValue,
    Json.isObject, Option.filter, ascii_inj, valueOf_dumps (input_document c).1]

/-- The reasons for the end that a message has words for. -/
def finishReasons : List Bytes := [ascii "stop", ascii "length", ascii "tool_calls"]

theorem completionFinish_respMessage {root : Json} (reqModel : Option Bytes) {finish : Bytes}
    (hfinish : finishOf root = some finish) (h : finish ∈ finishReasons) :
    completionFinish (respMessage root reqModel) = finish := by
  unfold completionFinish
  rw [(get_respMessage root reqModel).2.1]
  unfold respFinishReason
  rw [hfinish]
  simp only [finishReasons, List.mem_cons, List.not_mem_nil, or_false] at h
  rcases h with rfl | rfl | rfl <;> simp [ascii_inj]

theorem messageTokens_respMessage (root : Json) (reqModel : Option Bytes) :
    messageTokens (respMessage root reqModel) "input_tokens" = (inputOf root).getD 0 ∧
      messageTokens (respMessage root reqModel) "output_tokens" = (outputOf root).getD 0 := by
  unfold messageTokens
  rw [(get_respMessage root reqModel).2.2]
  simp [integerValue, Json.get, lookup, ascii_inj]

theorem mem_of_mem_nonempty {text : Option Bytes} {t : Bytes} (h : t ∈ nonempty text) : t ∈ text :=
  (Option.filter_eq_some_iff.mp h).1

theorem readReply_completionOf {root : Json} (hroot : Clean root)
    (reqModel reqModel' : Option Bytes) (created : Int64) {finish : Bytes}
    (hfinish : finishOf root = some finish) (h : finish ∈ finishReasons) :
    readReply (completionOf (respMessage root reqModel) reqModel' false created) =
      { readReply root with calls := keptCalls root } := by
  obtain ⟨hmessage, hback, hinput, houtput⟩ :=
    get_completionOf (respMessage root reqModel) reqModel' false created
  obtain ⟨hprompt, hcompletion⟩ := messageTokens_respMessage root reqModel
  rw [scan_respMessage hroot] at hmessage
  rw [completionFinish_respMessage reqModel hfinish h] at hback
  rw [hprompt] at hinput
  rw [hcompletion] at houtput
  generalize completionOf (respMessage root reqModel) reqModel' false created = back at *
  have hthinking : ∀ t ∈ nonempty (reasoningOf root), utf8Check t = true := fun t ht =>
    (valid_message hroot "reasoning_content" t (mem_of_mem_nonempty ht)).1
  have hcontent : ∀ t ∈ nonempty (contentOf root), utf8Check t = true := fun t ht =>
    (valid_message hroot "content" t (mem_of_mem_nonempty ht)).1
  obtain ⟨hthoughts, htext, hcalls⟩ :=
    get_message ((callsOf root).map backCall) hthinking hcontent
  have hread : (toolCallsOf back).map readCall = keptCalls root := by
    rw [toolCallsOf, hmessage, Option.bind_some, hcalls, List.map_map, keptCalls_eq]
    exact List.map_congr_left fun c _ => readCall_backCall c
  have hreasoning : (reasoningOf back).getD [] = (reasoningOf root).getD [] := by
    rw [reasoningOf, hmessage, Option.bind_some, hthoughts, getD_nonempty]
  have htexts : (contentOf back).getD [] = (contentOf root).getD [] := by
    rw [contentOf, hmessage, Option.bind_some, htext, getD_nonempty]
  unfold readReply
  rw [hread, hreasoning, htexts, hback, hinput, houtput, hfinish]
  rfl

/-- On the way back a completion has kept its texts, the reason for its end, its tokens and those
of its calls that have a function, with an empty object for arguments that are no document; one
with too deep arguments has no way back. -/
theorem readReply_thereAndBack {oaiResp : Bytes} {root : Json}
    (hroot : jsonLoads (cString oaiResp) = some root) {reqModel : Option Bytes}
    (hmodel : ∀ m ∈ reqModel, Nonzero m) (reqModel' : Option Bytes) (created : Int64)
    {finish : Bytes} (hfinish : finishOf root = some finish) (h : finish ∈ finishReasons) :
    (thereAndBack oaiResp reqModel reqModel' created).map readReply =
      if ∀ c ∈ callsOf root, depth c.input + 3 ≤ maxDepth then
        some { readReply root with calls := keptCalls root }
      else none := by
  have hclean := clean_jsonLoads hroot
  unfold thereAndBack providerOpenaiRespToAnthropic providerAnthropicRespToOpenai
    providerAnthropicRespToOpenaiExt
  rw [hroot, Option.map_some, Option.bind_some, jsonLoads_dumps_eq (clean_respMessage hclean hmodel) rfl]
  by_cases hdepth : ∀ c ∈ callsOf root, depth c.input + 3 ≤ maxDepth
  · rw [if_pos hdepth, if_pos ((depth_respMessage_le_iff root reqModel).mpr hdepth)]
    exact congrArg some (readReply_completionOf hclean reqModel reqModel' created hfinish h)
  · rw [if_neg hdepth, if_neg fun hle => hdepth ((depth_respMessage_le_iff root reqModel).mp hle)]
    rfl

theorem readReply_thereAndBack_toolCall : ∃ root, jsonLoads (cString toolResp) = some root ∧
    (thereAndBack toolResp none none 0).map readReply =
      if ∀ c ∈ callsOf root, depth c.input + 3 ≤ maxDepth then
        some { readReply root with calls := keptCalls root }
      else none := by
  have hparsed : ((jsonLoads (cString toolResp)).bind finishOf) = some (ascii "tool_calls") := by
    decide +kernel
  obtain ⟨root, hroot, hfinish⟩ := Option.bind_eq_some_iff.mp hparsed
  exact ⟨root, hroot, readReply_thereAndBack hroot (by simp) none 0 hfinish (by simp [finishReasons])⟩

/-- The arguments of the call are a number. -/
def numberResp : Bytes :=
  ascii "\x7b\"choices\":[\x7b\"message\":\x7b\"tool_calls\":[" ++
    ascii "\x7b\"id\":\"c1\",\"function\":\x7b\"name\":\"f\",\"arguments\":\"5\"\x7d\x7d]\x7d," ++
    ascii "\"finish_reason\":\"tool_calls\"\x7d]\x7d"

/-- The arguments of the calls, as they would be written. -/
def shownArguments (root : Json) : List (Option Bytes) :=
  (readReply root).calls.map fun c => c.arguments.map dumps

theorem not_roundTrip_number : ∃ root, jsonLoads (cString numberResp) = some root ∧
    finishOf root = some (ascii "tool_calls") ∧
      (thereAndBack numberResp none none 0).map readReply ≠ some (readReply root) := by
  have hparsed : ((jsonLoads (cString numberResp)).map fun root =>
      (finishOf root, shownArguments root)) = some (some (ascii "tool_calls"), [some ['5']]) := by
    decide +kernel
  have hback : (thereAndBack numberResp none none 0).map shownArguments =
      some [some ['{', '}']] := by decide +kernel
  obtain ⟨root, hroot, hboth⟩ := Option.map_eq_some_iff.mp hparsed
  obtain ⟨hfinish, hshown⟩ := Prod.mk.inj hboth
  refine ⟨root, hroot, hfinish, fun heq => ?_⟩
  obtain ⟨back, hsome, hreply⟩ := Option.map_eq_some_iff.mp heq
  have hsame : shownArguments back = shownArguments root := by
    unfold shownArguments
    rw [hreply]
  rw [hsome, Option.map_some, hsame, hshown] at hback
  cases hback

end Aigate.CompletionRoundTrip
