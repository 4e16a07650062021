import Aigate.BlockGrammar

/-!
# The answer in an Anthropic message

What a client has behind the events of a message: the blocks with the texts of their deltas, the
reason for the end and the numbers of tokens.
-/
namespace Aigate.MessagesAnswer
open Text JsonTree JsonText JsonRoundtrip JsonEdit JsonUtf8 Guardrails GuardrailsEdits Utf8
  StreamCache StreamCacheReplay ProviderRequests BridgeEvents EventTexts MessagesBridge BlockEvents
  BlockModes BlockGrammar

inductive Block where
  | thinking (text : Bytes)
  | text (text : Bytes)
  | toolUse (id name : Bytes) (input : Json)

/-- The content of an assistant's message, and how it ended. -/
structure Answer where
  blocks : List Block
  stopReason : Option Bytes
  inputTokens : Option Int64
  outputTokens : Option Int64

/-- A block of content, and what its deltas added. -/
def blockOf (content : Json) (added : Bytes) : Option Block :=
  (content.getString "type").bind fun type =>
    if type = ascii "thinking" then
      some (.thinking ((content.getString "thinking").getD [] ++ added))
    else if type = ascii "text" then some (.text ((content.getString "text").getD [] ++ added))
    else if type = ascii "tool_use" then
      (if added = [] then content.get "input" else jsonLoads added).map
        (.toolUse ((content.getString "id").getD []) ((content.getString "name").getD []))
    else none

/-- A client on its way through the events; the newest block is the first. -/
structure Client where
  blocks : List (Json × Bytes)
  stopReason : Option Bytes
  inputTokens : Option Int64
  outputTokens : Option Int64

def Client.new : Client := ⟨[], none, none, none⟩

/-- The text in a delta. -/
def addedBy (delta : Json) : Bytes :=
  if delta.getString "type" = some (ascii "text_delta") then (delta.getString "text").getD []
  else if delta.getString "type" = some (ascii "thinking_delta") then
    (delta.getString "thinking").getD []
  else if delta.getString "type" = some (ascii "input_json_delta") then
    (delta.getString "partial_json").getD []
  else []

def addTo (added : Bytes) : List (Json × Bytes) → List (Json × Bytes)
  | (content, text) :: older => (content, text ++ added) :: older
  | [] => []

def tokens (usage : Option Json) (key : String) : Option Int64 := usage.bind (integerMember · key)

def Client.take (c : Client) (data : Json) : Client :=
  match eventOf data with
  | some .messageStart =>
    let usage := (data.get "message").bind (·.get "usage")
    { c with
      inputTokens := tokens usage "input_tokens"
      outputTokens := tokens usage "output_tokens" }
  | some (.blockStart _ _) =>
    { c with blocks := ((data.get "content_block").toList.map fun content => (content, [])) ++ c.blocks }
  | some (.blockDelta _ _) =>
    { c with blocks := addTo (((data.get "delta").map addedBy).getD []) c.blocks }
  | some .messageDelta =>
    { c with
      stopReason := (data.get "delta").bind (·.getString "stop_reason")
      outputTokens := (tokens (data.get "usage") "output_tokens").or c.outputTokens }
  | _ => c

/-- What a client is told by some writes. -/
def told (writes : List Bytes) : Client := (writes.filterMap eventData).foldl Client.take .new

def Client.answer (c : Client) : Option Answer :=
  (c.blocks.reverse.mapM fun b => blockOf b.1 b.2).map
    (⟨·, c.stopReason, c.inputTokens, c.outputTokens⟩)

/-- The answer of a stream, when its events are those of one whole message. -/
def streamedAnswer (writes : List Bytes) : Option Answer :=
  if IsMessage writes then (told writes).answer else none

/-- The answer in a message that comes as one document. -/
def wholeAnswer (message : Json) : Option Answer :=
  ((message.getArray "content").bind (·.mapM fun content => blockOf content [])).map
    (⟨·, message.getString "stop_reason", tokens (message.get "usage") "input_tokens",
      tokens (message.get "usage") "output_tokens"⟩)

theorem told_append (a b : List Bytes) :
    told (a ++ b) = (b.filterMap eventData).foldl Client.take (told a) := by
  unfold told
  rw [List.filterMap_append, List.foldl_append]

theorem told_emit {b : Bridge} {cap : ℕ} {name : String} {data : Json}
    (h : eventData (snprintf cap (eventText name data)) = some data) :
    told (b.emit cap name (some data)).sent = (told b.sent).take data := by
  change told (b.sent ++ [_]) = _
  rw [told_append, List.filterMap_cons_some h]
  rfl

/-- The content of a block at its start. -/
def emptyBlock (kind : String) : Json :=
  .object [(ascii "type", .string (ascii kind)), (ascii kind, .string [])]

theorem take_blockStart (c : Client) (i : Int64) {kind : String} (hkind : IsKind kind) :
    c.take (blockStart i kind) = { c with blocks := (emptyBlock kind, []) :: c.blocks } := by
  unfold Client.take
  rw [eventOf_blockStart i hkind]
  have hget : (blockStart i kind).get "content_block" = some (emptyBlock kind) := by
    simp [blockStart, emptyBlock, Json.get, lookup, ascii_inj]
  dsimp only
  rw [hget]
  rfl

theorem take_blockDelta (c : Client) (i : Int64) {kind : String} (hkind : IsKind kind)
    (text : Bytes) :
    c.take (blockDelta i (kind ++ "_delta") kind text) =
      { c with blocks := addTo text c.blocks } := by
  unfold Client.take
  rw [eventOf_blockDelta i hkind text]
  have hadded : ((blockDelta i (kind ++ "_delta") kind text).get "delta").map addedBy =
      some text := by
    rcases hkind with rfl | rfl
    all_goals
      simp [blockDelta, addedBy, Json.getString, Json.get, lookup, Json.stringValue, ascii_inj]
  dsimp only
  rw [hadded]
  rfl

theorem take_blockStop (c : Client) (i : Int64) : c.take (blockStop i) = c := by
  unfold Client.take
  rw [eventOf_blockStop]

theorem take_messageStart (c : Client) (id model : Bytes) (n : Int64) :
    c.take (messageStart id model n) =
      { c with inputTokens := some (toInt n), outputTokens := some 0 } := by
  unfold Client.take
  rw [eventOf_messageStart]
  simp [messageStart, tokens, integerMember, Json.get, lookup, ascii_inj]

theorem take_messageDelta (c : Client) (reason : Bytes) (n : Int64) :
    c.take (messageDelta reason n) =
      { c with stopReason := some reason, outputTokens := some (toInt n) } := by
  unfold Client.take
  rw [eventOf_messageDelta]
  simp [messageDelta, tokens, integerMember, Json.getString, Json.get, lookup, Json.stringValue,
    ascii_inj]

/-! ### The blocks so far -/

/-- The texts of the two blocks that the bridge may have opened. -/
structure Draft where
  thoughts : Option Bytes
  text : Option Bytes

def added (text : Option Bytes) (delta : Option Bytes) : Option Bytes :=
  match delta with
  | some d => some (text.getD [] ++ d)
  | none => text

def Draft.mode : Draft → Mode
  | ⟨none, none⟩ => .begun
  | ⟨some _, none⟩ => .thinking
  | ⟨none, some _⟩ => .text false
  | ⟨some _, some _⟩ => .text true

def Draft.blocks (d : Draft) : List (Json × Bytes) :=
  (d.text.toList.map fun text => (emptyBlock "text", text)) ++
    d.thoughts.toList.map fun text => (emptyBlock "thinking", text)

def Draft.onChunk (d : Draft) (root : Json) : Draft :=
  ⟨added d.thoughts (thoughtOf root), added d.text (textOf root)⟩

/-- What a client is told when the blocks so far are those of a draft. -/
def Draft.client (d : Draft) : Client := ⟨d.blocks, none, some 0, some 0⟩

/-- A bridge that has shown a draft. -/
structure Shows (b : Bridge) (d : Draft) : Prop where
  inMode : InMode b d.mode
  client : told b.sent = d.client

theorem onThought_mode {d : Draft} {thought : Option Bytes} {m : Mode}
    (h : d.mode.onThought thought = some m) : m = Draft.mode ⟨added d.thoughts thought, d.text⟩ := by
  unfold Mode.onThought at h
  cases thought with
  | none => exact (Option.some.inj h).symm
  | some t =>
    dsimp only at h
    split at h
    · obtain ⟨thoughts, text⟩ := d
      cases thoughts <;> cases text <;> cases h <;> rfl
    · cases h

theorem onText_mode {d : Draft} {text : Option Bytes} {m : Mode}
    (h : d.mode.onText text = some m) : m = Draft.mode ⟨d.thoughts, added d.text text⟩ := by
  unfold Mode.onText at h
  cases text with
  | none => exact (Option.some.inj h).symm
  | some t =>
    dsimp only at h
    split at h
    · obtain ⟨thoughts, text⟩ := d
      cases thoughts <;> cases text <;> cases h <;> rfl
    · cases h

theorem onChunk_mode {d : Draft} {root : Json} {m : Mode} (h : d.mode.onChunk root = some m) :
    m = (d.onChunk root).mode := by
  obtain ⟨m', hthought, htext⟩ := Option.bind_eq_some_iff.mp h
  rw [onThought_mode hthought] at htext
  exact onText_mode htext

theorem told_startThinking {b : Bridge} (h : b.thinkingStarted = false) :
    told b.startThinking.sent = (told b.sent).take (blockStart 0 "thinking") := by
  unfold Bridge.startThinking
  rw [h, if_neg Bool.false_ne_true]
  exact told_emit (eventData_blockStart 0 (Or.inl rfl))

theorem told_delta (b : Bridge) {i : Int64} (hi : i = 0 ∨ i = 1) {kind : String}
    (hkind : IsKind kind) {text : Bytes} (htext : utf8Check text = true ∧ Nonzero text)
    (hfits : Fits kind text) :
    told (b.emit 8192 "content_block_delta"
        (jsonPack [text] (blockDelta i (kind ++ "_delta") kind text))).sent =
      { told b.sent with blocks := addTo text (told b.sent).blocks } := by
  have hpack : ∀ j, jsonPack [text] j = some j := fun j => by simp [jsonPack, htext.1]
  have hdata := eventData_blockDelta hi hkind htext
  rw [if_pos hfits] at hdata
  rw [hpack, told_emit hdata, take_blockDelta _ i hkind]

theorem Shows.thinking {b : Bridge} {d : Draft} (h : Shows b d) {delta : Json}
    (hdelta : Clean delta) {m : Mode}
    (hm : d.mode.onThought (delta.getString "reasoning_content") = some m) :
    Shows (b.thinking delta) ⟨added d.thoughts (delta.getString "reasoning_content"), d.text⟩ := by
  have htracks := h.inMode.thinking hdelta
  have hmode := onThought_mode hm
  rw [hm] at htracks
  cases hthought : delta.getString "reasoning_content" with
  | none =>
    unfold Bridge.thinking
    rw [hthought]
    exact h
  | some t =>
    rw [hthought] at hm hmode
    refine ⟨hmode ▸ htracks, ?_⟩
    unfold Mode.onThought at hm
    dsimp only at hm
    split at hm
    swap
    · cases hm
    rename_i hfits
    have hadd : told (b.thinking delta).sent =
        { told b.startThinking.sent with blocks := addTo t (told b.startThinking.sent).blocks } := by
      unfold Bridge.thinking
      rw [hthought]
      exact told_delta b.startThinking (Or.inl rfl) (Or.inl rfl : IsKind "thinking")
        (hdelta.getString hthought) hfits
    rw [hadd]
    obtain ⟨thoughts, text⟩ := d
    cases text with
    | some text => cases thoughts <;> cases hm
    | none =>
      cases thoughts with
      | none =>
        rw [told_startThinking h.inMode.thinkingStarted, h.client,
          take_blockStart _ 0 (Or.inl rfl)]
        rfl
      | some thoughts =>
        rw [startThinking_started h.inMode.thinkingStarted, h.client]
        rfl

theorem told_stopThinking (b : Bridge) : told b.stopThinking.sent = told b.sent := by
  unfold Bridge.stopThinking
  split
  · exact (told_emit (eventData_blockStop 0)).trans (take_blockStop _ 0)
  · rfl

theorem told_stopText (b : Bridge) : told b.stopText.sent = told b.sent := by
  unfold Bridge.stopText
  split
  · exact (told_emit (eventData_blockStop _)).trans (take_blockStop _ _)
  · rfl

theorem told_startText {b : Bridge} (h : b.textStarted = false) :
    told b.startText.sent = (told b.sent).take (blockStart b.textIdx "text") := by
  unfold Bridge.startText
  rw [h, if_neg Bool.false_ne_true]
  exact told_emit (eventData_blockStart _ (Or.inr rfl))

theorem stopThinking_textStarted (b : Bridge) : b.stopThinking.textStarted = b.textStarted := by
  unfold Bridge.stopThinking
  split <;> rfl

/-- Before a text, its block is there. -/
theorem Shows.startText {b : Bridge} {d : Draft} (h : Shows b d) :
    told b.stopThinking.startText.sent = (⟨d.thoughts, some (d.text.getD [])⟩ : Draft).client := by
  have hstarted : b.stopThinking.textStarted = d.text.isSome := by
    rw [stopThinking_textStarted, h.inMode.textStarted]
    obtain ⟨thoughts, text⟩ := d
    cases thoughts <;> cases text <;> rfl
  obtain ⟨thoughts, text⟩ := d
  cases text with
  | none =>
    rw [told_startText hstarted, told_stopThinking, h.client, take_blockStart _ _ (Or.inr rfl)]
    rfl
  | some text =>
    have hsame : b.stopThinking.startText = b.stopThinking := by
      unfold Bridge.startText
      exact if_pos hstarted
    rw [hsame, told_stopThinking, h.client]
    rfl

theorem Shows.text {b : Bridge} {d : Draft} (h : Shows b d) {delta : Json} (hdelta : Clean delta)
    {m : Mode} (hm : d.mode.onText (delta.getString "content") = some m) :
    Shows (b.text delta) ⟨d.thoughts, added d.text (delta.getString "content")⟩ := by
  have htracks := h.inMode.text hdelta
  have hmode := onText_mode hm
  rw [hm] at htracks
  cases htext : delta.getString "content" with
  | none =>
    unfold Bridge.text
    rw [htext]
    exact h
  | some t =>
    rw [htext] at hm hmode
    unfold Mode.onText at hm
    dsimp only at hm
    split at hm
    swap
    · cases hm
    rename_i hfits
    refine ⟨hmode ▸ htracks, ?_⟩
    unfold Bridge.text
    rw [htext]
    refine (told_delta b.stopThinking.startText (textIdx_cases _) (Or.inr rfl : IsKind "text")
      (hdelta.getString htext) hfits).trans ?_
    rw [h.startText]
    rfl

theorem Shows.of_sent {b b' : Bridge} {d : Draft} (h : Shows b d) (hmode : InMode b' d.mode)
    (hsent : b'.sent = b.sent) : Shows b' d := ⟨hmode, by rw [hsent, h.client]⟩

/-- A chunk adds its deltas to what was shown. -/
theorem Shows.choice {b : Bridge} {d : Draft} (h : Shows b d) {c0 : Json} (hc0 : Clean c0)
    {m : Mode}
    (hm : (d.mode.onThought ((getObject c0 "delta").bind (·.getString "reasoning_content"))).bind
      (·.onText ((getObject c0 "delta").bind (·.getString "content"))) = some m) :
    Shows (b.choice c0)
      ⟨added d.thoughts ((getObject c0 "delta").bind (·.getString "reasoning_content")),
        added d.text ((getObject c0 "delta").bind (·.getString "content"))⟩ := by
  have hreason : Shows (b.reason c0) d := h.of_sent (h.inMode.reasonOf c0) (reason_sent b c0)
  unfold Bridge.choice
  cases hdelta : getObject c0 "delta" with
  | none => exact hreason
  | some delta =>
    have hclean : Clean delta := hc0.getObject hdelta
    rw [hdelta, Option.bind_some, Option.bind_some] at hm
    obtain ⟨m', hthought, htext⟩ := Option.bind_eq_some_iff.mp hm
    have hthinking := hreason.thinking hclean hthought
    rw [onThought_mode hthought] at htext
    exact hthinking.text hclean htext

theorem Shows.chunk {b : Bridge} {d : Draft} (h : Shows b d) {root : Json} (hroot : Clean root)
    {m : Mode} (hm : d.mode.onChunk root = some m) : Shows (b.chunk root) (d.onChunk root) := by
  have hidentify : Shows (b.identify root) d := h.of_sent ⟨h.inMode.phase, h.inMode.started,
    h.inMode.notDone, h.inMode.inThinking, h.inMode.thinkingStarted, h.inMode.thinkingClosed,
    h.inMode.textStarted, h.inMode.textClosed, h.inMode.reason⟩ rfl
  have hstart : (b.identify root).start = b.identify root := by
    unfold Bridge.start
    rw [if_pos hidentify.inMode.started]
  have husage : Shows ((b.identify root).start.usage root) d := by
    rw [hstart]
    exact hidentify.of_sent (hidentify.inMode.usage root) (usage_sent _ root)
  unfold Mode.onChunk thoughtOf textOf deltaObject at hm
  unfold Bridge.chunk Draft.onChunk thoughtOf textOf deltaObject
  cases hchoice : MessagesBridge.choiceOf root with
  | none => exact husage
  | some c0 =>
    rw [hchoice] at hm
    exact husage.choice (hroot.firstChoice (Option.filter_eq_some_iff.mp hchoice).1) hm

/-- The first chunk starts the message, with no tokens in it yet. -/
theorem Shows.chunk_first {model : Bytes} {root : Json} (hroot : Clean root)
    (hnamed : Named model root) {m : Mode} (hm : Mode.begun.onChunk root = some m) :
    Shows ((Bridge.new model).chunk root) (Draft.onChunk ⟨none, none⟩ root) := by
  have hstart : Shows ((Bridge.new model).identify root).start ⟨none, none⟩ := by
    refine ⟨InMode.start hroot hnamed, ?_⟩
    obtain ⟨hid, hmodel⟩ := named_bounds hroot hnamed
    rw [start_named hnamed]
    refine (told_emit (eventData_messageStart 0 hid hmodel)).trans ?_
    rw [take_messageStart]
    rfl
  have husage : Shows (((Bridge.new model).identify root).start.usage root) ⟨none, none⟩ :=
    hstart.of_sent (hstart.inMode.usage root) (usage_sent _ root)
  unfold Mode.onChunk thoughtOf textOf deltaObject at hm
  unfold Bridge.chunk Draft.onChunk thoughtOf textOf deltaObject
  cases hchoice : MessagesBridge.choiceOf root with
  | none => exact husage
  | some c0 =>
    rw [hchoice] at hm
    exact husage.choice (hroot.firstChoice (Option.filter_eq_some_iff.mp hchoice).1) hm

theorem Shows.foldl {roots : List Json} (hroots : ∀ root ∈ roots, Clean root) {b : Bridge}
    {d : Draft} (h : Shows b d) (hm : (roots.foldlM Mode.onChunk d.mode).isSome = true) :
    Shows (roots.foldl Bridge.chunk b) (roots.foldl Draft.onChunk d) := by
  induction roots generalizing b d with
  | nil => exact h
  | cons root rest ih =>
    rw [List.foldlM_cons] at hm
    cases hnext : d.mode.onChunk root with
    | none =>
      rw [hnext] at hm
      cases hm
    | some m =>
      have hchunk := h.chunk (hroots root List.mem_cons_self) hnext
      rw [hnext, onChunk_mode hnext] at hm
      exact ih (fun r hr => hroots r (List.mem_cons_of_mem _ hr)) hchunk hm

/-! ### The end of the message -/

theorem eventData_messageStop : eventData (eventText "message_stop" messageStop) =
    some messageStop := by
  refine eventData_eventText (not_mem_ascii _ (by decide)) ⟨?_, ?_⟩ rfl (by decide)
  · simp (disch := decide) [messageStop, wellFormed, wellFormedMembers, nonzero_ascii]
  · simp (disch := decide) [messageStop, strings, stringsMembers, utf8Check_ascii]

theorem take_messageStop (c : Client) : c.take messageStop = c := by
  have hevent : eventOf messageStop = some .messageStop := by decide +kernel
  unfold Client.take
  rw [hevent]

/-- The reason that ends the message. -/
def endReason (reason : Bytes) : Bytes := if reason = [] then ascii "end_turn" else reason

theorem told_close {b : Bridge} (h : IsReason b.finishReason) :
    told b.close.sent = { told b.sent with
      stopReason := some (endReason b.finishReason)
      outputTokens := some (toInt b.outputTokens) } := by
  have hvalid : utf8Check (endReason b.finishReason) = true ∧ Nonzero (endReason b.finishReason) ∧
      (endReason b.finishReason).length ≤ 63 := isReason_valid h
  have hpack : ∀ j, jsonPack [endReason b.finishReason] j = some j := fun j => by
    simp [jsonPack, hvalid.1]
  unfold Bridge.close
  dsimp only
  rw [← endReason, hpack]
  change told ((b.emit 1024 "message_delta" (some _)).sent ++ [_]) = _
  rw [told_append, List.filterMap_cons_some eventData_messageStop,
    told_emit (eventData_messageDelta b.outputTokens hvalid), take_messageDelta]
  exact take_messageStop _

theorem stops_outputTokens (b : Bridge) :
    b.stopThinking.stopText.outputTokens = b.outputTokens := by
  unfold Bridge.stopText Bridge.stopThinking
  dsimp only
  split
  · split <;> rfl
  · split <;> rfl

theorem Shows.finish {b : Bridge} {d : Draft} (h : Shows b d) :
    told b.finish.sent = { d.client with
      stopReason := some (endReason b.finishReason)
      outputTokens := some (toInt b.outputTokens) } := by
  have hreason : IsReason b.stopThinking.stopText.finishReason := stops_reason b ▸ h.inMode.reason
  unfold Bridge.finish
  rw [h.inMode.notDone, if_neg Bool.false_ne_true, told_close hreason, told_stopText,
    told_stopThinking, h.client, stops_reason, stops_outputTokens]

theorem Draft.answer (d : Draft) (stop : Option Bytes) (input output : Option Int64) :
    Client.answer ⟨d.blocks, stop, input, output⟩ =
      some ⟨(d.thoughts.toList.map Block.thinking) ++ d.text.toList.map Block.text, stop, input,
        output⟩ := by
  have hthinking : ∀ t, blockOf (emptyBlock "thinking") t = some (.thinking t) := fun t => by
    simp [blockOf, emptyBlock, Json.getString, Json.get, lookup, Json.stringValue, ascii_inj]
  have htext : ∀ t, blockOf (emptyBlock "text") t = some (.text t) := fun t => by
    simp [blockOf, emptyBlock, Json.getString, Json.get, lookup, Json.stringValue, ascii_inj]
  obtain ⟨thoughts, text⟩ := d
  cases thoughts <;> cases text
  all_goals simp [Client.answer, Draft.blocks, hthinking, htext]

/-! ### The whole stream -/

/-- The texts of the deltas, when there are any. -/
def joined (deltas : List Bytes) : Option Bytes :=
  if deltas = [] then none else some deltas.flatten

theorem foldl_added (f : Json → Option Bytes) (roots : List Json) (text : Option Bytes) :
    roots.foldl (fun text root => added text (f root)) text =
      if roots.filterMap f = [] then text
      else some (text.getD [] ++ (roots.filterMap f).flatten) := by
  induction roots generalizing text with
  | nil => rfl
  | cons root rest ih =>
    rw [List.foldl_cons, ih]
    cases hf : f root with
    | none =>
      rw [List.filterMap_cons_none hf]
      rfl
    | some t =>
      rw [List.filterMap_cons_some hf, if_neg (List.cons_ne_nil _ _), List.flatten_cons]
      by_cases hrest : rest.filterMap f = []
      · simp [hrest, added]
      · simp [hrest, added]

/-- What the deltas of some chunks add up to. -/
def drafted (roots : List Json) : Draft :=
  ⟨joined (roots.filterMap thoughtOf), joined (roots.filterMap textOf)⟩

theorem foldl_onChunk (roots : List Json) (d : Draft) :
    roots.foldl Draft.onChunk d =
      ⟨roots.foldl (fun text root => added text (thoughtOf root)) d.thoughts,
        roots.foldl (fun text root => added text (textOf root)) d.text⟩ := by
  induction roots generalizing d with
  | nil => rfl
  | cons root rest ih => rw [List.foldl_cons, ih, List.foldl_cons, List.foldl_cons]; rfl

theorem foldl_onChunk_none (roots : List Json) :
    roots.foldl Draft.onChunk ⟨none, none⟩ = drafted roots := by
  rw [foldl_onChunk, foldl_added, foldl_added]
  rfl

/-- The reason for the end in a chunk. -/
def finishOf (root : Json) : Option Bytes :=
  (MessagesBridge.choiceOf root).bind (·.getString "finish_reason")

def integerValue (j : Option Json) : Option Int64 := j.bind fun j =>
  match j with
  | .integer n => some n
  | _ => none

/-- The number of tokens of the prompt, under the name of either protocol. -/
def inputOf (root : Json) : Option Int64 :=
  integerValue ((getObject root "usage").bind fun u =>
    (u.get "prompt_tokens").or (u.get "input_tokens"))

def outputOf (root : Json) : Option Int64 :=
  integerValue ((getObject root "usage").bind fun u =>
    (u.get "completion_tokens").or (u.get "output_tokens"))

theorem integerOr_eq (j : Option Json) (old : Int64) :
    integerOr j old = (integerValue j).getD old := by
  unfold integerOr integerValue
  cases j with
  | none => rfl
  | some j => cases j <;> rfl

@[simp] theorem emit_outputTokens (b : Bridge) (cap : ℕ) (name : String) (d : Option Json) :
    (b.emit cap name d).outputTokens = b.outputTokens := by
  cases d <;> rfl

theorem thinking_ending (b : Bridge) (delta : Json) :
    (b.thinking delta).finishReason = b.finishReason ∧
      (b.thinking delta).outputTokens = b.outputTokens := by
  unfold Bridge.thinking Bridge.startThinking
  split
  · split <;> simp
  · exact ⟨rfl, rfl⟩

theorem text_ending (b : Bridge) (delta : Json) :
    (b.text delta).finishReason = b.finishReason ∧
      (b.text delta).outputTokens = b.outputTokens := by
  unfold Bridge.text Bridge.startText Bridge.stopThinking
  split
  · dsimp only
    split
    · split <;> simp
    · split <;> simp
  · exact ⟨rfl, rfl⟩

theorem start_ending (b : Bridge) (root : Json) :
    (b.identify root).start.finishReason = b.finishReason ∧
      (b.identify root).start.outputTokens = b.outputTokens := by
  unfold Bridge.start
  split
  · exact ⟨rfl, rfl⟩
  · simp [Bridge.identify]

theorem usage_ending (b : Bridge) (root : Json) :
    (b.usage root).finishReason = b.finishReason ∧
      (b.usage root).outputTokens = (outputOf root).getD b.outputTokens := by
  unfold Bridge.usage outputOf
  cases husage : getObject root "usage" with
  | none => exact ⟨rfl, rfl⟩
  | some u => exact ⟨rfl, integerOr_eq _ _⟩

theorem choice_ending (b : Bridge) (c0 : Json) :
    (b.choice c0).finishReason =
        ((c0.getString "finish_reason").map (stopReasonOf · b.finishReason)).getD b.finishReason ∧
      (b.choice c0).outputTokens = b.outputTokens := by
  have hreason : (b.reason c0).finishReason =
      ((c0.getString "finish_reason").map (stopReasonOf · b.finishReason)).getD b.finishReason ∧
      (b.reason c0).outputTokens = b.outputTokens := by
    unfold Bridge.reason
    cases c0.getString "finish_reason" with
    | none => exact ⟨rfl, rfl⟩
    | some finish => exact ⟨rfl, rfl⟩
  unfold Bridge.choice
  cases getObject c0 "delta" with
  | none => exact hreason
  | some delta =>
    dsimp only
    rw [(text_ending _ delta).1, (text_ending _ delta).2, (thinking_ending _ delta).1,
      (thinking_ending _ delta).2]
    exact hreason

/-- What a chunk tells about the end. -/
theorem chunk_ending (b : Bridge) (root : Json) :
    (b.chunk root).finishReason =
        ((finishOf root).map (stopReasonOf · b.finishReason)).getD b.finishReason ∧
      (b.chunk root).outputTokens = (outputOf root).getD b.outputTokens := by
  have hbefore : ((b.identify root).start.usage root).finishReason = b.finishReason ∧
      ((b.identify root).start.usage root).outputTokens = (outputOf root).getD b.outputTokens := by
    rw [(usage_ending _ root).1, (usage_ending _ root).2, (start_ending b root).1,
      (start_ending b root).2]
    exact ⟨rfl, rfl⟩
  unfold Bridge.chunk finishOf
  cases MessagesBridge.choiceOf root with
  | none => exact hbefore
  | some c0 =>
    dsimp only
    rw [(choice_ending _ c0).1, (choice_ending _ c0).2, hbefore.1, hbefore.2]
    exact ⟨rfl, rfl⟩

theorem foldl_ending (roots : List Json) (b : Bridge) :
    (roots.foldl Bridge.chunk b).finishReason =
        (roots.filterMap finishOf).foldl (fun old finish => stopReasonOf finish old)
          b.finishReason ∧
      (roots.foldl Bridge.chunk b).outputTokens =
        (roots.filterMap outputOf).getLast?.getD b.outputTokens := by
  induction roots generalizing b with
  | nil => exact ⟨rfl, rfl⟩
  | cons root rest ih =>
    obtain ⟨hfinish, houtput⟩ := chunk_ending b root
    rw [List.foldl_cons, (ih _).1, (ih _).2, hfinish, houtput]
    constructor
    · cases hf : finishOf root with
      | none => rw [List.filterMap_cons_none hf]; rfl
      | some finish => rw [List.filterMap_cons_some hf]; rfl
    · cases ho : outputOf root with
      | none => rw [List.filterMap_cons_none ho]; rfl
      | some n =>
        rw [List.filterMap_cons_some ho, List.getLast?_cons]
        rfl

/-- The answer that the chunks of a stream are shown as. -/
def shownAnswer (roots : List Json) : Answer where
  blocks := (joined (roots.filterMap thoughtOf)).toList.map Block.thinking ++
    (joined (roots.filterMap textOf)).toList.map Block.text
  stopReason := some (endReason
    ((roots.filterMap finishOf).foldl (fun old finish => stopReasonOf finish old) []))
  inputTokens := some 0
  outputTokens := some (toInt ((roots.filterMap outputOf).getLast?.getD 0))

theorem streamedAnswer_orderly (model : Bytes) {roots : List Json}
    (hroots : ∀ root ∈ roots, Clean root) (h : Orderly model roots) :
    streamedAnswer (roots.foldl Bridge.chunk (Bridge.new model)).finish.sent =
      some (shownAnswer roots) := by
  have hmessage := (isMessage_iff model hroots).mpr h
  obtain ⟨⟨first, hfirst, hnamed⟩, hfits, hordered⟩ := h
  unfold streamedAnswer
  rw [if_pos hmessage]
  cases roots with
  | nil => cases hfirst
  | cons root rest =>
    obtain rfl : root = first := Option.some.inj hfirst
    have hrun : ((root :: rest).foldlM Mode.onChunk .begun).isSome = true :=
      (run_isSome_iff (root :: rest) .begun).mpr
        ⟨hfits, fun hand => absurd hand Bool.false_ne_true, hordered⟩
    have hending := foldl_ending (root :: rest) (Bridge.new model)
    have hshows : Shows ((root :: rest).foldl Bridge.chunk (Bridge.new model))
        (drafted (root :: rest)) := by
      rw [← foldl_onChunk_none]
      rw [List.foldlM_cons] at hrun
      cases hnext : Mode.begun.onChunk root with
      | none =>
        rw [hnext] at hrun
        cases hrun
      | some m =>
        have hchunk := Shows.chunk_first (hroots root List.mem_cons_self) hnamed hnext
        rw [hnext, onChunk_mode (d := ⟨none, none⟩) hnext] at hrun
        exact hchunk.foldl (fun r hr => hroots r (List.mem_cons_of_mem _ hr)) hrun
    rw [hshows.finish, hending.1, hending.2]
    exact Draft.answer _ _ _ _

end Aigate.MessagesAnswer
