import Aigate.AnthropicBridge
import Aigate.EventStreams

/-!
# What an Anthropic event is translated to

An event changes the state of the bridge and is written as some chunks; each of the two is told
without the other.
-/
namespace Aigate.AnthropicChunks
open Text JsonTree JsonText JsonRoundtrip JsonEdit JsonUtf8 Guardrails GuardrailsEdits Utf8
  LineBuffer StreamCache StreamCacheReplay ProviderRequests BridgeEvents EventTexts EventStreams
  AnthropicBridge

/-- A bridge that has written some more. -/
def writing (b : Bridge) (writes : List Bytes) : Bridge := { b with sent := b.sent ++ writes }

/-! ### The chunks of an event -/

def textChunks (b : Bridge) (key : String) (text : Bytes) : List Json :=
  (jsonPack [b.idBuf, b.model, text]
    (chunk b.idBuf b.model (.object [(ascii key, .string text)]) .null)).toList

def openChunks (b : Bridge) : List Json :=
  if b.tagEmulation = true ∧ b.tagOpened = false then textChunks b "content" openTag else []

/-- A tag is open. -/
def TagOpen (b : Bridge) : Prop :=
  b.tagEmulation = true ∧ b.tagOpened = true ∧ b.tagClosed = false

instance (b : Bridge) : Decidable (TagOpen b) := inferInstanceAs (Decidable (_ ∧ _))

def closeChunks (b : Bridge) : List Json :=
  if TagOpen b then textChunks b "content" closeTag else []

def thoughtChunks (b : Bridge) (text : Bytes) : List Json :=
  textChunks b (if b.tagEmulation then "content" else "reasoning_content") text

/-- The bridge with the id, the model and the tokens of a message. -/
def greeted (b : Bridge) (data : Json) : Bridge :=
  let msg := getObject data "message"
  { b with
    msgId := ((msg.bind (·.getString "id")).map (snprintf 64)).getD b.msgId
    model := ((msg.bind (·.getString "model")).map (snprintf 64)).getD b.model
    inputTokens := integerOr ((msg.bind (getObject · "usage")).bind (·.get "input_tokens"))
      b.inputTokens }

def startId (b : Bridge) (data : Json) : Bytes :=
  if ((getObject data "message").bind (·.getString "id")).isSome then
    ascii "chatcmpl-" ++ (greeted b data).msgId
  else b.idBuf

def startChunks (b : Bridge) (data : Json) : List Json :=
  (jsonPack [startId b data, (greeted b data).model]
    (chunk (startId b data) (greeted b data).model
      (.object [(ascii "role", .string (ascii "assistant")), (ascii "content", .string [])])
      .null)).toList

/-- The type of the block that starts. -/
def blockType (data : Json) : Option Bytes :=
  (getObject data "content_block").bind (·.getString "type")

def blockStartChunks (b : Bridge) (data : Json) : List Json :=
  if blockType data = some (ascii "thinking") then openChunks b
  else if blockType data = some (ascii "redacted_thinking") then
    openChunks b ++ thoughtChunks b redactedText
  else if blockType data = some (ascii "text") then closeChunks b
  else []

/-- What a delta is for. -/
inductive Delta where
  | signature (text : Option Bytes)
  | thought (text : Option Bytes)
  | text (text : Option Bytes)
  | arguments (piece : Option Bytes)
  | other

/-- The text in a delta. -/
def Delta.piece : Delta → Option Bytes
  | .signature t => t
  | .thought t => t
  | .text t => t
  | .arguments t => t
  | .other => none

def readDelta (b : Bridge) (data : Json) : Delta :=
  match getObject data "delta" with
  | none => .other
  | some del =>
    let dtype := (del.getString "type").getD []
    if dtype = ascii "signature_delta" then .signature (del.getString "signature")
    else if dtype = ascii "thinking_delta" ∨
        (b.inThinking = true ∧ dtype ≠ ascii "input_json_delta" ∧ dtype ≠ ascii "text_delta") then
      .thought (((del.get "thinking").or (del.get "text")).bind Json.stringValue)
    else if dtype = ascii "text_delta" ∨ dtype = [] then .text (del.getString "text")
    else if dtype = ascii "input_json_delta" ∧ b.inToolUse = true then
      .arguments (del.getString "partial_json")
    else .other

def blockDeltaChunks (b : Bridge) (data : Json) : List Json :=
  match readDelta b data with
  | .signature (some sig) => if b.tagEmulation then [] else textChunks b "reasoning_signature" sig
  | .thought (some text) => openChunks b ++ thoughtChunks b text
  | .text text => closeChunks b ++ (text.map (textChunks b "content")).getD []
  | _ => []

def blockStopChunks (b : Bridge) : List Json :=
  (if b.inThinking then closeChunks b else []) ++
    if b.inToolUse = true ∧ b.toolId ≠ [] then [b.toolChunk] else []

/-- The bridge with the tokens of a completion. -/
def counted (b : Bridge) (data : Json) : Bridge :=
  { b with
    outputTokens := integerOr ((getObject data "usage").bind (·.get "output_tokens"))
      b.outputTokens }

def finishChunk (b : Bridge) (data : Json) : Json :=
  chunk b.idBuf b.model (.object [])
    (.string (finishReason ((getObject data "delta").bind (·.getString "stop_reason"))))

def usageChunk (b : Bridge) : Json :=
  .object (chunkHead b.idBuf b.model ++ [(ascii "choices", .array []),
    (ascii "usage", usageObject b.inputTokens b.outputTokens)])

def messageDeltaChunks (b : Bridge) (data : Json) : List Json :=
  (jsonPack [b.idBuf, b.model] (finishChunk b data)).toList ++
    (jsonPack [b.idBuf, b.model] (usageChunk (counted b data))).toList

/-- The chunks of the current event. -/
def chunksOf (b : Bridge) (data : Json) : List Json :=
  if b.currentEvent = ascii "message_start" then startChunks b data
  else if b.currentEvent = ascii "content_block_start" then blockStartChunks b data
  else if b.currentEvent = ascii "content_block_delta" then blockDeltaChunks b data
  else if b.currentEvent = ascii "content_block_stop" then blockStopChunks b
  else if b.currentEvent = ascii "message_delta" then messageDeltaChunks b data
  else if b.currentEvent = ascii "message_stop" then closeChunks b
  else []

def errorMessage (data : Json) : Bytes :=
  ((getObject data "error").bind (·.getString "message")).getD (ascii "upstream error")

/-- What is written behind the chunks. -/
def ending (b : Bridge) (data : Json) : List Bytes :=
  if b.currentEvent = ascii "message_stop" then [doneEvent]
  else if b.currentEvent = ascii "error" then [snprintf eventCap (errorText (errorMessage data))]
  else []

/-! ### The state behind an event -/

def tagOpening (b : Bridge) : Bridge := { b with tagOpened := b.tagOpened || b.tagEmulation }

def tagClosing (b : Bridge) : Bridge :=
  { b with tagClosed := b.tagClosed || (b.tagEmulation && b.tagOpened) }

def startBlock (b : Bridge) (data : Json) : Bridge :=
  match blockType data with
  | none => b
  | some type =>
    if type = ascii "thinking" ∨ type = ascii "redacted_thinking" then
      tagOpening { b with inThinking := true, inToolUse := false }
    else if type = ascii "text" then tagClosing { b with inThinking := false, inToolUse := false }
    else if type = ascii "tool_use" then
      let cb := getObject data "content_block"
      { b with
        inThinking := false
        inToolUse := true
        toolId := snprintf 64 ((cb.bind (·.getString "id")).getD [])
        toolName := snprintf 128 ((cb.bind (·.getString "name")).getD [])
        toolArgs := none }
    else { b with inThinking := false, inToolUse := false }

def addDelta (b : Bridge) (data : Json) : Bridge :=
  match readDelta b data with
  | .thought (some _) => tagOpening b
  | .text _ => tagClosing b
  | .arguments (some piece) => b.addArgs piece
  | _ => b

def stopBlock (b : Bridge) : Bridge :=
  let b := if b.inThinking then tagClosing { b with inThinking := false } else b
  if b.inToolUse = true ∧ b.toolId ≠ [] then
    { b with inToolUse := false, toolIndex := b.toolIndex + 1 }
  else b

def after (b : Bridge) (data : Json) : Bridge :=
  if b.currentEvent = ascii "message_start" then greeted b data
  else if b.currentEvent = ascii "content_block_start" then startBlock b data
  else if b.currentEvent = ascii "content_block_delta" then addDelta b data
  else if b.currentEvent = ascii "content_block_stop" then stopBlock b
  else if b.currentEvent = ascii "message_delta" then counted b data
  else if b.currentEvent = ascii "message_stop" then { tagClosing b with doneEmitted := true }
  else if b.currentEvent = ascii "error" then { b with doneEmitted := true }
  else b

/-! ### Both together are the event -/

theorem emit_eq (b : Bridge) (c : Option Json) : b.emit c = writing b (c.toList.map cut) := by
  cases c with
  | none => simp [Bridge.emit, writing]
  | some c => rfl

theorem emitDelta_eq (b : Bridge) (key : String) (text : Bytes) :
    b.emitDelta b.idBuf key text = writing b ((textChunks b key text).map cut) := emit_eq b _

theorem opened_eq (b : Bridge) :
    b.opened b.idBuf = writing (tagOpening b) ((openChunks b).map cut) := by
  unfold Bridge.opened openChunks
  by_cases h : b.tagEmulation = true ∧ b.tagOpened = false
  · rw [if_pos h, if_pos h, emitDelta_eq]
    simp [writing, tagOpening, h.1]
  · have hopened : (b.tagOpened || b.tagEmulation) = b.tagOpened := by
      cases ho : b.tagOpened <;> simp_all
    rw [if_neg h, if_neg h]
    simp [writing, tagOpening, hopened]

theorem closed_eq (b : Bridge) :
    b.closed b.idBuf = writing (tagClosing b) ((closeChunks b).map cut) := by
  unfold Bridge.closed closeChunks
  by_cases h : TagOpen b
  · rw [if_pos h, if_pos (show b.tagEmulation = true ∧ _ from h), emitDelta_eq]
    simp [writing, tagClosing, h.1, h.2.1]
  · have hclosed : (b.tagClosed || (b.tagEmulation && b.tagOpened)) = b.tagClosed := by
      unfold TagOpen at h
      cases hc : b.tagClosed <;> simp_all
    rw [if_neg h, if_neg (show ¬(b.tagEmulation = true ∧ _) from h)]
    simp [writing, tagClosing, hclosed]

theorem emitThought_eq (b : Bridge) (text : Bytes) :
    b.emitThought text = writing b ((thoughtChunks b text).map cut) := emitDelta_eq b _ text

theorem messageStart_eq (b : Bridge) (data : Json) :
    b.messageStart data = writing (greeted b data) ((startChunks b data).map cut) :=
  emit_eq (greeted b data) _

theorem writing_nil (b : Bridge) : writing b [] = b := by
  simp [writing]

theorem writing_writing (b : Bridge) (ws ws' : List Bytes) :
    writing (writing b ws) ws' = writing b (ws ++ ws') := by
  simp [writing]

theorem blockStart_eq (b : Bridge) (data : Json) :
    b.blockStart data = writing (startBlock b data) ((blockStartChunks b data).map cut) := by
  unfold Bridge.blockStart startBlock blockStartChunks
  cases hcb : getObject data "content_block" with
  | none =>
    rw [show blockType data = none from by rw [blockType, hcb]; rfl]
    exact (writing_nil b).symm
  | some cb =>
    dsimp only
    cases htype : cb.getString "type" with
    | none =>
      rw [show blockType data = none from by rw [blockType, hcb]; exact htype]
      exact (writing_nil b).symm
    | some type =>
      rw [show blockType data = some type from by rw [blockType, hcb]; exact htype]
      dsimp only
      simp only [Option.some.injEq]
      by_cases hthinking : type = ascii "thinking"
      · rw [if_pos hthinking, if_pos (Or.inl hthinking), if_pos hthinking]
        exact opened_eq { b with inThinking := true, inToolUse := false }
      rw [if_neg hthinking, if_neg hthinking]
      by_cases hredacted : type = ascii "redacted_thinking"
      · rw [if_pos hredacted, if_pos (Or.inr hredacted), if_pos hredacted]
        have hopened := opened_eq { b with inThinking := true, inToolUse := false }
        change (Bridge.opened { b with inThinking := true, inToolUse := false }
          (Bridge.idBuf { b with inThinking := true, inToolUse := false })).emitThought _ = _
        rw [hopened, emitThought_eq, writing_writing, ← List.map_append]
        rfl
      rw [if_neg hredacted, if_neg (not_or.mpr ⟨hthinking, hredacted⟩), if_neg hredacted]
      by_cases htext : type = ascii "text"
      · rw [if_pos htext, if_pos htext, if_pos htext]
        exact closed_eq { b with inThinking := false, inToolUse := false }
      rw [if_neg htext, if_neg htext, if_neg htext]
      by_cases htool : type = ascii "tool_use"
      · rw [if_pos htool, if_pos htool]
        exact (writing_nil _).symm
      · rw [if_neg htool, if_neg htool]
        exact (writing_nil _).symm

theorem blockDelta_eq (b : Bridge) (data : Json) :
    b.blockDelta data = writing (addDelta b data) ((blockDeltaChunks b data).map cut) := by
  unfold Bridge.blockDelta addDelta blockDeltaChunks readDelta
  cases hdelta : getObject data "delta" with
  | none => exact (writing_nil b).symm
  | some del =>
    dsimp only
    by_cases hsignature : (del.getString "type").getD [] = ascii "signature_delta"
    · rw [if_pos hsignature, if_pos hsignature]
      cases hsig : del.getString "signature" with
      | none => exact (writing_nil b).symm
      | some sig =>
        dsimp only
        cases htag : b.tagEmulation with
        | true => exact (writing_nil b).symm
        | false => exact emitDelta_eq b _ sig
    rw [if_neg hsignature, if_neg hsignature]
    by_cases hthought : (del.getString "type").getD [] = ascii "thinking_delta" ∨
        (b.inThinking = true ∧ (del.getString "type").getD [] ≠ ascii "input_json_delta" ∧
          (del.getString "type").getD [] ≠ ascii "text_delta")
    · rw [if_pos hthought, if_pos hthought]
      cases ht : ((del.get "thinking").or (del.get "text")).bind Json.stringValue with
      | none => exact (writing_nil b).symm
      | some text =>
        dsimp only
        rw [opened_eq, emitThought_eq, writing_writing, ← List.map_append]
        rfl
    rw [if_neg hthought, if_neg hthought]
    by_cases htext : (del.getString "type").getD [] = ascii "text_delta" ∨
        (del.getString "type").getD [] = []
    · rw [if_pos htext, if_pos htext]
      cases ht : del.getString "text" with
      | none =>
        dsimp only
        rw [closed_eq, Option.map_none, Option.getD_none, List.append_nil]
      | some text =>
        dsimp only
        have hemit := emitDelta_eq (writing (tagClosing b) ((closeChunks b).map cut)) "content" text
        rw [closed_eq, Option.map_some, Option.getD_some, List.map_append, ← writing_writing]
        exact hemit
    rw [if_neg htext, if_neg htext]
    by_cases hinput : (del.getString "type").getD [] = ascii "input_json_delta" ∧
        b.inToolUse = true
    · rw [if_pos hinput, if_pos hinput]
      cases hpiece : del.getString "partial_json" with
      | none => exact (writing_nil b).symm
      | some piece => exact (writing_nil _).symm
    · rw [if_neg hinput, if_neg hinput]
      exact (writing_nil b).symm

/-- The chunk of a call at the end of its block. -/
theorem callEnd_eq (b b' : Bridge) (ws : List Bytes) (h : b.toolChunk = b'.toolChunk) :
    (if (writing b ws).inToolUse = true ∧ (writing b ws).toolId ≠ [] then
      { (writing b ws).emit (some (writing b ws).toolChunk) with
        inToolUse := false
        toolIndex := (writing b ws).toolIndex + 1 }
    else writing b ws) =
      writing (if b.inToolUse = true ∧ b.toolId ≠ [] then
        { b with inToolUse := false, toolIndex := b.toolIndex + 1 } else b)
        (ws ++ (if b.inToolUse = true ∧ b.toolId ≠ [] then [b'.toolChunk] else []).map cut) := by
  by_cases hcall : b.inToolUse = true ∧ b.toolId ≠ []
  · have hwriting : (writing b ws).inToolUse = true ∧ (writing b ws).toolId ≠ [] := hcall
    rw [if_pos hcall, if_pos hcall, if_pos hwriting, ← h, emit_eq, writing_writing]
    rfl
  · have hwriting : ¬((writing b ws).inToolUse = true ∧ (writing b ws).toolId ≠ []) := hcall
    rw [if_neg hcall, if_neg hcall, if_neg hwriting, List.map_nil, List.append_nil]

theorem blockStop_eq (b : Bridge) :
    b.blockStop = writing (stopBlock b) ((blockStopChunks b).map cut) := by
  unfold Bridge.blockStop stopBlock blockStopChunks
  cases hthinking : b.inThinking with
  | true =>
    have hclosed : Bridge.closed { b with inThinking := false } b.idBuf =
        writing (tagClosing { b with inThinking := false }) ((closeChunks b).map cut) :=
      closed_eq { b with inThinking := false }
    dsimp only
    rw [if_pos rfl, if_pos rfl, if_pos rfl, hclosed, List.map_append]
    exact callEnd_eq _ b _ rfl
  | false =>
    dsimp only
    rw [if_neg Bool.false_ne_true, if_neg Bool.false_ne_true, if_neg Bool.false_ne_true]
    have hend := callEnd_eq b b [] rfl
    rw [writing_nil] at hend
    exact hend

theorem messageDelta_eq (b : Bridge) (data : Json) :
    b.messageDelta data = writing (counted b data) ((messageDeltaChunks b data).map cut) := by
  have hboth : b.messageDelta data =
      ((counted b data).emit (jsonPack [b.idBuf, b.model] (finishChunk b data))).emit
        (jsonPack [b.idBuf, b.model] (usageChunk (counted b data))) := by
    have hfirst := emit_eq (counted b data) (jsonPack [b.idBuf, b.model] (finishChunk b data))
    have hshape : b.messageDelta data =
        let b' := (counted b data).emit (jsonPack [b.idBuf, b.model] (finishChunk b data))
        b'.emit (jsonPack [b'.idBuf, b'.model] (usageChunk b')) := rfl
    rw [hshape, hfirst]
    rfl
  rw [hboth, emit_eq, emit_eq, writing_writing, ← List.map_append]
  rfl

theorem messageStop_eq (b : Bridge) :
    b.messageStop = writing { tagClosing b with doneEmitted := true }
      ((closeChunks b).map cut ++ [doneEvent]) := by
  unfold Bridge.messageStop
  rw [closed_eq]
  simp [Bridge.send, writing]

/-- An event writes its chunks, and changes the state as told. -/
theorem event_eq (b : Bridge) (data : Json) :
    b.event data = writing (after b data) ((chunksOf b data).map cut ++ ending b data) := by
  have hnone : b.currentEvent ≠ ascii "message_stop" → b.currentEvent ≠ ascii "error" →
      ending b data = [] := by
    intro hstop herror
    rw [ending, if_neg hstop, if_neg herror]
  unfold Bridge.event after chunksOf
  by_cases hstart : b.currentEvent = ascii "message_start"
  · rw [hnone (by simp [hstart, ascii_inj]) (by simp [hstart, ascii_inj]), List.append_nil,
      if_pos hstart, if_pos hstart, if_pos hstart]
    exact messageStart_eq b data
  rw [if_neg hstart, if_neg hstart, if_neg hstart]
  by_cases hblock : b.currentEvent = ascii "content_block_start"
  · rw [hnone (by simp [hblock, ascii_inj]) (by simp [hblock, ascii_inj]), List.append_nil,
      if_pos hblock, if_pos hblock, if_pos hblock]
    exact blockStart_eq b data
  rw [if_neg hblock, if_neg hblock, if_neg hblock]
  by_cases hdelta : b.currentEvent = ascii "content_block_delta"
  · rw [hnone (by simp [hdelta, ascii_inj]) (by simp [hdelta, ascii_inj]), List.append_nil,
      if_pos hdelta, if_pos hdelta, if_pos hdelta]
    exact blockDelta_eq b data
  rw [if_neg hdelta, if_neg hdelta, if_neg hdelta]
  by_cases hblockStop : b.currentEvent = ascii "content_block_stop"
  · rw [hnone (by simp [hblockStop, ascii_inj]) (by simp [hblockStop, ascii_inj]), List.append_nil,
      if_pos hblockStop, if_pos hblockStop, if_pos hblockStop]
    exact blockStop_eq b
  rw [if_neg hblockStop, if_neg hblockStop, if_neg hblockStop]
  by_cases hend : b.currentEvent = ascii "message_delta"
  · rw [hnone (by simp [hend, ascii_inj]) (by simp [hend, ascii_inj]), List.append_nil,
      if_pos hend, if_pos hend, if_pos hend]
    exact messageDelta_eq b data
  rw [if_neg hend, if_neg hend, if_neg hend]
  by_cases hstop : b.currentEvent = ascii "message_stop"
  · rw [ending, if_pos hstop, if_pos hstop, if_pos hstop, if_pos hstop]
    exact messageStop_eq b
  rw [if_neg hstop, if_neg hstop, if_neg hstop]
  by_cases herror : b.currentEvent = ascii "error"
  · rw [ending, if_neg hstop, if_pos herror, if_pos herror, if_pos herror]
    rfl
  · rw [hnone hstop herror, if_neg herror, if_neg herror]
    exact (writing_nil b).symm

end Aigate.AnthropicChunks
