import Aigate.ProviderRequests

/-!
# Messages requests for OpenAI targets

A request on `/v1/messages` is translated for a target that speaks the OpenAI protocol. What
a request of either format asks for is one conversation: its turns, its tools and its limits.
The translation is compared with its source by the conversations of the two.
-/
namespace Aigate.MessagesRequest
open Text JsonTree JsonText ProviderRequests

/-- The texts of the blocks that have one. -/
def blockTexts (blocks : List Json) : List Bytes :=
  blocks.filterMap fun blk => blk.getString "text"

/-- A message of the translation. The strings of a parsed body are valid UTF-8, and what is
joined of them is too. -/
def chatMessage (role : Bytes) (content : Json) : Json :=
  .object [(ascii "role", .string role), (ascii "content", content)]

/-- The system prompt, if there is one. -/
def systemMessage (antReq : Json) : List Json :=
  match antReq.get "system" with
  | some (.string s) => [chatMessage (ascii "system") (.string s)]
  | some (.array blocks) =>
    if blockTexts blocks = [] then []
    else [chatMessage (ascii "system") (.string (blockTexts blocks).flatten)]
  | _ => []

/-- An inbound message; one without content is left out. -/
def inboundMessage (am : Json) : Option Json :=
  match am.get "content" with
  | some (.string s) => some (chatMessage (roleOf am) (.string s))
  | some (.array blocks) => some (chatMessage (roleOf am) (.string (blockTexts blocks).flatten))
  | _ => none

def isInteger : Json → Bool
  | .integer _ => true
  | _ => false

def isBoolean : Json → Bool
  | .bool _ => true
  | _ => false

/-- `anthropic_req_to_openai`. -/
def anthropicReqToOpenai (antReq : Json) (model : Bytes) : Option Json :=
  if antReq.isObject then
    let messages := (antReq.getArray "messages").getD []
    let oai := (emptyObject.set "model" (.string model)).set "messages"
      (.array (systemMessage antReq ++ messages.filterMap inboundMessage))
    let oai := Json.setSome oai "max_tokens" ((antReq.get "max_tokens").filter isInteger)
    let oai := Json.setSome oai "temperature" (getNumber antReq "temperature")
    let oai := Json.setSome oai "top_p" (getNumber antReq "top_p")
    some (Json.setSome oai "stream" ((antReq.get "stream").filter isBoolean))
  else none

structure ToolCall where
  id : Option Bytes
  name : Option Bytes
  input : Option Json

inductive Turn where
  | text (role text : Bytes)
  | call (c : ToolCall)
  | result (id : Option Bytes) (text : Bytes)

structure ToolDefinition where
  name : Option Bytes
  description : Option Bytes
  schema : Option Json

/-- What a request asks for, in whatever format. -/
@[ext] structure Conversation where
  turns : List Turn
  tools : List ToolDefinition
  maxTokens : Option Json
  stops : List Json
  temperature : Option Json
  topP : Option Json

/-- All text of a content, which is a string or has blocks. -/
def contentText : Option Json → Bytes
  | some (.string s) => s
  | some (.array blocks) => (blockTexts blocks).flatten
  | _ => []

/-- A text, unless it is empty. -/
def textTurn (role text : Bytes) : List Turn :=
  if text = [] then [] else [.text role text]

/-- The blocks of a type in the content of a message. -/
def blocksOf (type : String) (am : Json) : List Json :=
  ((am.getArray "content").getD []).filter fun blk => blk.getString "type" = some (ascii type)

def toolUse (blk : Json) : ToolCall :=
  ⟨blk.getString "id", blk.getString "name", blk.get "input"⟩

/-- The turns of a message in the Anthropic format: results, text and calls. -/
def anthropicTurns (am : Json) : List Turn :=
  ((blocksOf "tool_result" am).map fun blk =>
    .result (blk.getString "tool_use_id") (contentText (blk.get "content"))) ++
  textTurn (roleOf am) (contentText (am.get "content")) ++
  (blocksOf "tool_use" am).map fun blk => .call (toolUse blk)

/-- The conversation of a request in the Anthropic format. -/
def anthropicConversation (antReq : Json) : Conversation where
  turns := textTurn (ascii "system") (contentText (antReq.get "system")) ++
    ((antReq.getArray "messages").getD []).flatMap anthropicTurns
  tools := ((antReq.getArray "tools").getD []).map fun tool =>
    ⟨tool.getString "name", tool.getString "description", tool.get "input_schema"⟩
  maxTokens := antReq.get "max_tokens"
  stops := (antReq.getArray "stop_sequences").getD []
  temperature := antReq.get "temperature"
  topP := antReq.get "top_p"

def functionOf (j : Json) : Json := (j.get "function").getD emptyObject

def toolCall (call : Json) : ToolCall :=
  ⟨call.getString "id", (functionOf call).getString "name",
    ((functionOf call).getString "arguments").bind loads⟩

/-- The turns of a message in the OpenAI format: the result of a call, or text and calls. -/
def openaiTurns (message : Json) : List Turn :=
  match message.getString "tool_call_id" with
  | some id => [.result (some id) (contentText (message.get "content"))]
  | none =>
    textTurn (roleOf message) (contentText (message.get "content")) ++
    ((message.getArray "tool_calls").getD []).map fun call => .call (toolCall call)

/-- The conversation of a request in the OpenAI format. -/
def openaiConversation (oai : Json) : Conversation where
  turns := ((oai.getArray "messages").getD []).flatMap openaiTurns
  tools := ((oai.getArray "tools").getD []).map fun tool =>
    ⟨(functionOf tool).getString "name", (functionOf tool).getString "description",
      (functionOf tool).get "parameters"⟩
  maxTokens := oai.get "max_tokens"
  stops := (oai.getArray "stop").getD []
  temperature := oai.get "temperature"
  topP := oai.get "top_p"

/-- There is nothing in the request that the translation leaves out. -/
structure PlainText (antReq : Json) : Prop where
  blocks : ∀ am ∈ (antReq.getArray "messages").getD [],
    blocksOf "tool_use" am = [] ∧ blocksOf "tool_result" am = []
  tools : (antReq.getArray "tools").getD [] = []
  maxTokens : ∀ v, antReq.get "max_tokens" = some v → isInteger v = true
  stops : (antReq.getArray "stop_sequences").getD [] = []
  temperature : ∀ v, antReq.get "temperature" = some v → Json.isNumber v = true
  topP : ∀ v, antReq.get "top_p" = some v → Json.isNumber v = true

theorem get_setSome_of_ne (j : Json) {key key' : String} (v : Option Json) (h : key' ≠ key) :
    (Json.setSome j key v).get key' = j.get key' := by
  cases v with
  | none => rfl
  | some v => exact Json.get_set_of_ne j v h

theorem get_setSome_self {j : Json} {key : String} (v : Option Json)
    (hobject : j.isObject = true) (hnew : j.get key = none) :
    (Json.setSome j key v).get key = v := by
  cases v with
  | none => exact hnew
  | some v => exact Json.get_set_self hobject

theorem isObject_set {j : Json} {key : String} {v : Json} (h : j.isObject = true) :
    (j.set key v).isObject = true := by
  cases j <;> first | rfl | cases h

theorem isObject_setSome {j : Json} {key : String} {v : Option Json} (h : j.isObject = true) :
    (Json.setSome j key v).isObject = true := by
  cases v with
  | none => exact h
  | some v => exact isObject_set h

/-- What the translation of an object has. -/
theorem translated_get {antReq oai : Json} {model : Bytes}
    (h : anthropicReqToOpenai antReq model = some oai) :
    oai.getArray "messages" = some (systemMessage antReq ++
      ((antReq.getArray "messages").getD []).filterMap inboundMessage) ∧
    oai.get "tools" = none ∧ oai.get "stop" = none ∧
    oai.get "max_tokens" = (antReq.get "max_tokens").filter isInteger ∧
    oai.get "temperature" = (antReq.get "temperature").filter Json.isNumber ∧
    oai.get "top_p" = (antReq.get "top_p").filter Json.isNumber := by
  unfold anthropicReqToOpenai at h
  split_ifs at h
  obtain rfl := Option.some_inj.mp h
  have hnone (key : String) (hmodel : key ≠ "model") (hmessages : key ≠ "messages") (v w : Json) :
      ((emptyObject.set "model" v).set "messages" w).get key = none := by
    rw [Json.get_set_of_ne _ _ hmessages, Json.get_set_of_ne _ _ hmodel]
    rfl
  have hobject (v w : Json) : ((emptyObject.set "model" v).set "messages" w).isObject = true :=
    isObject_set (isObject_set rfl)
  refine ⟨?_, ?_, ?_, ?_, ?_, ?_⟩
  · unfold Json.getArray
    rw [get_setSome_of_ne _ _ (by decide), get_setSome_of_ne _ _ (by decide),
      get_setSome_of_ne _ _ (by decide), get_setSome_of_ne _ _ (by decide),
      Json.get_set_self (isObject_set rfl)]
    rfl
  · rw [get_setSome_of_ne _ _ (by decide), get_setSome_of_ne _ _ (by decide),
      get_setSome_of_ne _ _ (by decide), get_setSome_of_ne _ _ (by decide),
      hnone _ (by decide) (by decide)]
  · rw [get_setSome_of_ne _ _ (by decide), get_setSome_of_ne _ _ (by decide),
      get_setSome_of_ne _ _ (by decide), get_setSome_of_ne _ _ (by decide),
      hnone _ (by decide) (by decide)]
  · rw [get_setSome_of_ne _ _ (by decide), get_setSome_of_ne _ _ (by decide),
      get_setSome_of_ne _ _ (by decide)]
    exact get_setSome_self _ (hobject _ _) (hnone _ (by decide) (by decide) _ _)
  · rw [get_setSome_of_ne _ _ (by decide), get_setSome_of_ne _ _ (by decide)]
    apply get_setSome_self _ (isObject_setSome (hobject _ _))
    rw [get_setSome_of_ne _ _ (by decide), hnone _ (by decide) (by decide)]
  · rw [get_setSome_of_ne _ _ (by decide)]
    apply get_setSome_self _ (isObject_setSome (isObject_setSome (hobject _ _)))
    rw [get_setSome_of_ne _ _ (by decide), get_setSome_of_ne _ _ (by decide),
      hnone _ (by decide) (by decide)]

theorem chatMessage_get (role : Bytes) (content : Json) {key : String} (hrole : key ≠ "role")
    (hcontent : key ≠ "content") : (chatMessage role content).get key = none := by
  simp [chatMessage, Json.get, lookup, ascii_inj, hrole.symm, hcontent.symm]

theorem openaiTurns_chatMessage (role text : Bytes) :
    openaiTurns (chatMessage role (.string text)) = textTurn role text := by
  have hid : (chatMessage role (.string text)).getString "tool_call_id" = none := by
    rw [Json.getString, chatMessage_get _ _ (by decide) (by decide), Option.bind_none]
  have hcalls : (chatMessage role (.string text)).getArray "tool_calls" = none := by
    rw [Json.getArray, chatMessage_get _ _ (by decide) (by decide), Option.bind_none]
  have hcontent : (chatMessage role (.string text)).get "content" = some (.string text) := by
    simp [chatMessage, Json.get, lookup, ascii_inj]
  have hrole : roleOf (chatMessage role (.string text)) = role := by
    simp [roleOf, chatMessage, Json.getString, Json.get, lookup, Json.stringValue]
  simp [openaiTurns, hid, hcalls, hcontent, hrole, contentText]

theorem systemMessage_turns (antReq : Json) :
    (systemMessage antReq).flatMap openaiTurns =
      textTurn (ascii "system") (contentText (antReq.get "system")) := by
  unfold systemMessage contentText
  split
  · simp [openaiTurns_chatMessage]
  · split_ifs with hnone
    · simp [hnone, textTurn]
    · simp [openaiTurns_chatMessage]
  · simp_all [textTurn]

theorem inboundMessage_turns (am : Json) :
    (inboundMessage am).toList.flatMap openaiTurns =
      textTurn (roleOf am) (contentText (am.get "content")) := by
  unfold inboundMessage contentText
  split
  · simp [openaiTurns_chatMessage]
  · simp [openaiTurns_chatMessage]
  · simp_all [textTurn]

/-- The turns of the translation: the texts of the messages, and nothing else. -/
theorem translated_turns {antReq oai : Json} {model : Bytes}
    (h : anthropicReqToOpenai antReq model = some oai) :
    (openaiConversation oai).turns =
      textTurn (ascii "system") (contentText (antReq.get "system")) ++
      ((antReq.getArray "messages").getD []).flatMap fun am =>
        textTurn (roleOf am) (contentText (am.get "content")) := by
  show ((oai.getArray "messages").getD []).flatMap openaiTurns = _
  rw [(translated_get h).1, Option.getD_some, List.flatMap_append, systemMessage_turns,
    List.filterMap_eq_flatMap_toList, List.flatMap_assoc]
  simp only [inboundMessage_turns]

def Turn.isText : Turn → Bool
  | .text _ _ => true
  | _ => false

theorem isText_of_mem_textTurn {role text : Bytes} {t : Turn} (h : t ∈ textTurn role text) :
    t.isText = true := by
  unfold textTurn at h
  split_ifs at h
  · cases h
  · rw [List.mem_singleton.mp h]
    rfl

/-- Only messages without calls and results have no other turns than their texts. -/
theorem turns_eq_iff (messages : List Json) :
    (messages.flatMap fun am => textTurn (roleOf am) (contentText (am.get "content"))) =
        messages.flatMap anthropicTurns ↔
      ∀ am ∈ messages, blocksOf "tool_use" am = [] ∧ blocksOf "tool_result" am = [] := by
  constructor
  · intro heq am ham
    have htext : ∀ t ∈ anthropicTurns am, t.isText = true := by
      intro t ht
      have hmem : t ∈ messages.flatMap anthropicTurns := List.mem_flatMap.mpr ⟨am, ham, ht⟩
      rw [← heq] at hmem
      obtain ⟨_, -, ht'⟩ := List.mem_flatMap.mp hmem
      exact isText_of_mem_textTurn ht'
    constructor
    · rw [List.eq_nil_iff_forall_not_mem]
      intro blk hblk
      have hcall := htext (.call (toolUse blk))
        (List.mem_append_right _ (List.mem_map_of_mem hblk))
      cases hcall
    · rw [List.eq_nil_iff_forall_not_mem]
      intro blk hblk
      have hresult := htext _
        (List.mem_append_left _ (List.mem_append_left _ (List.mem_map_of_mem hblk)))
      cases hresult
  · intro hnone
    apply List.flatMap_congr
    intro am ham
    obtain ⟨huse, hresult⟩ := hnone am ham
    unfold anthropicTurns
    rw [huse, hresult, List.map_nil, List.map_nil, List.nil_append, List.append_nil]

theorem filter_eq_self_iff {α : Type*} {p : α → Bool} {o : Option α} :
    o.filter p = o ↔ ∀ v, o = some v → p v = true := by
  cases o with
  | none => simp
  | some v => simp [Option.filter]

/-- The translation asks for the conversation of its source exactly if there is nothing in
the source that it leaves out. -/
theorem conversation_kept_iff (antReq : Json) (model : Bytes) :
    (∀ oai, anthropicReqToOpenai antReq model = some oai →
      openaiConversation oai = anthropicConversation antReq) ↔
      (antReq.isObject = true → PlainText antReq) := by
  by_cases hobject : antReq.isObject = true
  · obtain ⟨oai, hoai⟩ : ∃ oai, anthropicReqToOpenai antReq model = some oai :=
      ⟨_, if_pos hobject⟩
    obtain ⟨-, htools, hstop, hmax, htemp, htop⟩ := translated_get hoai
    have hturns := translated_turns hoai
    have honly : (∀ oai', anthropicReqToOpenai antReq model = some oai' →
        openaiConversation oai' = anthropicConversation antReq) ↔
        openaiConversation oai = anthropicConversation antReq := by
      constructor
      · exact fun h => h oai hoai
      · intro h oai' hoai'
        rwa [← Option.some_inj.mp (hoai.symm.trans hoai')]
    have hturnsIff : (openaiConversation oai).turns = (anthropicConversation antReq).turns ↔
        ∀ am ∈ (antReq.getArray "messages").getD [],
          blocksOf "tool_use" am = [] ∧ blocksOf "tool_result" am = [] := by
      rw [hturns, ← turns_eq_iff]
      exact List.append_right_inj _
    have htoolsIff : (openaiConversation oai).tools = (anthropicConversation antReq).tools ↔
        (antReq.getArray "tools").getD [] = [] := by
      simp only [openaiConversation, anthropicConversation, Json.getArray, htools]
      rw [Option.bind_none, Option.getD_none, List.map_nil, eq_comm, List.map_eq_nil_iff]
    have hstopsIff : (openaiConversation oai).stops = (anthropicConversation antReq).stops ↔
        (antReq.getArray "stop_sequences").getD [] = [] := by
      simp only [openaiConversation, anthropicConversation]
      rw [Json.getArray, hstop, Option.bind_none, Option.getD_none, eq_comm]
    rw [honly, forall_prop_of_true hobject, Conversation.ext_iff, hturnsIff, htoolsIff, hstopsIff]
    simp only [openaiConversation, anthropicConversation, hmax, htemp, htop, filter_eq_self_iff]
    constructor
    · rintro ⟨blocks, tools, maxTokens, stops, temperature, topP⟩
      exact ⟨blocks, tools, maxTokens, stops, temperature, topP⟩
    · intro h
      exact ⟨h.blocks, h.tools, h.maxTokens, h.stops, h.temperature, h.topP⟩
  · refine iff_of_true (fun oai h => ?_) fun h => absurd h hobject
    rw [anthropicReqToOpenai, if_neg hobject] at h
    cases h

/-- An answer of the assistant that calls a tool. -/
def toolUseBody : Bytes :=
  ascii ("\x7b\"model\":\"m\",\"max_tokens\":64,\"messages\":[\x7b\"role\":\"assistant\"," ++
    "\"content\":[\x7b\"type\":\"tool_use\",\"id\":\"t1\",\"name\":\"f\"," ++
    "\"input\":\x7b\x7d\x7d]\x7d]\x7d")

/-- The call is lost. -/
theorem not_kept_toolUse :
    ¬∀ antReq oai, loads toolUseBody = some antReq →
      anthropicReqToOpenai antReq (ascii "m") = some oai →
      openaiConversation oai = anthropicConversation antReq := by
  intro h
  have hturns : ((loads toolUseBody).bind fun antReq =>
      (anthropicReqToOpenai antReq (ascii "m")).map fun oai =>
        ((openaiConversation oai).turns.length, (anthropicConversation antReq).turns.length)) =
      some (0, 1) := by
    decide +kernel
  obtain ⟨antReq, hreq, hmap⟩ := Option.bind_eq_some_iff.mp hturns
  obtain ⟨oai, hoai, hlengths⟩ := Option.map_eq_some_iff.mp hmap
  rw [h antReq oai hreq hoai] at hlengths
  obtain ⟨hzero, hone⟩ := Prod.mk.inj hlengths
  omega

end Aigate.MessagesRequest
