import Aigate.EventTexts

/-!
# The events of an Anthropic message

A client follows the events of a message: one start, the blocks one after the other, the end.
Each event of the bridge is read as it is meant when it fits in its buffer.
-/
namespace Aigate.BlockEvents
open Text JsonTree JsonText JsonRoundtrip JsonEdit JsonUtf8 Guardrails GuardrailsEdits Utf8
  StreamCache StreamCacheReplay ProviderRequests BridgeEvents EventTexts MessagesBridge

/-- An event without its payload. -/
inductive Event where
  | messageStart
  | blockStart (index : Int64) (kind : Bytes)
  | blockDelta (index : Int64) (type : Bytes)
  | blockStop (index : Int64)
  | messageDelta
  | messageStop
  deriving DecidableEq

def eventOf (data : Json) : Option Event :=
  (data.getString "type").bind fun type =>
    if type = ascii "message_start" then some .messageStart
    else if type = ascii "content_block_start" then
      (integerMember data "index").bind fun i =>
        ((data.get "content_block").bind (·.getString "type")).map (.blockStart i)
    else if type = ascii "content_block_delta" then
      (integerMember data "index").bind fun i =>
        ((data.get "delta").bind (·.getString "type")).map (.blockDelta i)
    else if type = ascii "content_block_stop" then (integerMember data "index").map .blockStop
    else if type = ascii "message_delta" then some .messageDelta
    else if type = ascii "message_stop" then some .messageStop
    else none

/-- Where a client is in a message; the last index is that of the block before. -/
inductive Phase where
  | fresh
  | between (last : Option Int64)
  | inside (index : Int64) (kind : Bytes)
  | ending
  | ended
  deriving DecidableEq

/-- The next event, unless it is out of place: indices increase, and a delta is for the open
block and of its kind. -/
def Phase.step : Phase → Event → Option Phase
  | .fresh, .messageStart => some (.between none)
  | .between last, .blockStart i kind => if ∀ j ∈ last, j < i then some (.inside i kind) else none
  | .between _, .messageDelta => some .ending
  | .inside i kind, .blockDelta j type =>
    if j = i ∧ type = kind ++ ascii "_delta" then some (.inside i kind) else none
  | .inside i _, .blockStop j => if j = i then some (.between (some i)) else none
  | .ending, .messageStop => some .ended
  | _, _ => none

theorem step_blockStart {last : Option Int64} {i : Int64} (h : ∀ j ∈ last, j < i) (kind : Bytes) :
    (Phase.between last).step (.blockStart i kind) = some (.inside i kind) := by
  unfold Phase.step
  exact if_pos h

theorem step_blockDelta (i : Int64) {kind type : Bytes} (h : type = kind ++ ascii "_delta") :
    (Phase.inside i kind).step (.blockDelta i type) = some (.inside i kind) := if_pos ⟨rfl, h⟩

theorem step_blockDelta_ne {i j : Int64} (h : j ≠ i) (kind type : Bytes) :
    (Phase.inside i kind).step (.blockDelta j type) = none := if_neg fun hand => h hand.1

theorem step_blockStop (i : Int64) (kind : Bytes) :
    (Phase.inside i kind).step (.blockStop i) = some (.between (some i)) := if_pos rfl

def readEvent (w : Bytes) : Option Event := (eventData w).bind eventOf

/-- One write of the bridge. -/
def readWrite (p : Phase) (w : Bytes) : Option Phase := (readEvent w).bind p.step

/-- The phase after some writes. -/
def phaseAfter (writes : List Bytes) : Option Phase := writes.foldlM readWrite .fresh

/-- The writes are the events of one whole message. -/
def IsMessage (writes : List Bytes) : Prop := phaseAfter writes = some .ended

instance (writes : List Bytes) : Decidable (IsMessage writes) := inferInstanceAs (Decidable (_ = _))

theorem phaseAfter_append (a b : List Bytes) :
    phaseAfter (a ++ b) = (phaseAfter a).bind fun p => b.foldlM readWrite p :=
  List.foldlM_append

theorem eventData_snprintf {name : String} {data : Json} (cap : ℕ) (hname : '\n' ∉ ascii name)
    (hclean : Clean data) (hd : isDocument data = true) (hdepth : depth data ≤ maxDepth) :
    eventData (snprintf cap (eventText name data)) =
      if (eventText name data).length ≤ cap - 1 then some data else none := by
  unfold snprintf
  split
  · rename_i hfits
    rw [List.take_of_length_le hfits, eventData_eventText hname hclean hd hdepth]
  · rename_i hlong
    exact eventData_cut hname (by omega)

/-- The kinds of block that the bridge knows. -/
def IsKind (kind : String) : Prop := kind = "thinking" ∨ kind = "text"

/-- The delta that adds a text to a block of a kind. -/
def deltaText (i : Int64) (kind : String) (text : Bytes) : Bytes :=
  eventText "content_block_delta" (blockDelta i (kind ++ "_delta") kind text)

theorem eventData_blockStart (i : Int64) {kind : String} (hkind : IsKind kind) :
    eventData (snprintf 1024 (eventText "content_block_start" (blockStart i kind))) =
      some (blockStart i kind) := by
  have hlen := integerText_length_le i
  rcases hkind with rfl | rfl
  all_goals
    rw [eventData_snprintf 1024 (not_mem_ascii _ (by decide)) _ rfl _, if_pos]
    · rw [eventText_length, show "content_block_start".length = 19 from rfl]
      simp (disch := decide) [blockStart, dumps, dumpsMembers, quoted_ascii_length, quoted_nil]
      omega
    · constructor
      · simp (disch := decide) [blockStart, wellFormed, wellFormedMembers, ascii_inj,
          nonzero_ascii]
      · simp (disch := decide) [blockStart, strings, stringsMembers, utf8Check_ascii, utf8Check]
    · simp [blockStart, depth, depthMembers, maxDepth]

theorem eventOf_blockStart (i : Int64) {kind : String} (hkind : IsKind kind) :
    eventOf (blockStart i kind) = some (.blockStart i (ascii kind)) := by
  rcases hkind with rfl | rfl
  all_goals
    simp [eventOf, blockStart, Json.getString, Json.get, lookup, Json.stringValue, ascii_inj,
      integerMember]

theorem read_blockStart (i : Int64) {kind : String} (hkind : IsKind kind) :
    readEvent (snprintf 1024 (eventText "content_block_start" (blockStart i kind))) =
      some (.blockStart i (ascii kind)) := by
  rw [readEvent, eventData_blockStart i hkind]
  exact eventOf_blockStart i hkind

theorem eventData_blockStop (i : Int64) :
    eventData (snprintf 512 (eventText "content_block_stop" (blockStop i))) =
      some (blockStop i) := by
  have hlen := integerText_length_le i
  rw [eventData_snprintf 512 (not_mem_ascii _ (by decide)) _ rfl _, if_pos]
  · rw [eventText_length, show "content_block_stop".length = 18 from rfl]
    simp (disch := decide) [blockStop, dumps, dumpsMembers, quoted_ascii_length]
    omega
  · constructor
    · simp (disch := decide) [blockStop, wellFormed, wellFormedMembers, ascii_inj, nonzero_ascii]
    · simp (disch := decide) [blockStop, strings, stringsMembers, utf8Check_ascii]
  · simp [blockStop, depth, depthMembers, maxDepth]

theorem eventOf_blockStop (i : Int64) : eventOf (blockStop i) = some (.blockStop i) := by
  simp [eventOf, blockStop, Json.getString, Json.get, lookup, Json.stringValue, ascii_inj,
    integerMember]

theorem read_blockStop (i : Int64) :
    readEvent (snprintf 512 (eventText "content_block_stop" (blockStop i))) =
      some (.blockStop i) := by
  rw [readEvent, eventData_blockStop]
  exact eventOf_blockStop i

/-- The delta fits in the buffer of an event. -/
def Fits (kind : String) (text : Bytes) : Prop := (deltaText 0 kind text).length ≤ 8191

instance (kind : String) (text : Bytes) : Decidable (Fits kind text) :=
  inferInstanceAs (Decidable (_ ≤ _))

theorem deltaText_length (i : Int64) (hi : i = 0 ∨ i = 1) (kind : String) (text : Bytes) :
    (deltaText i kind text).length = (deltaText 0 kind text).length := by
  rcases hi with rfl | rfl
  · rfl
  · unfold deltaText
    rw [eventText_length, eventText_length]
    congr 2
    have hint : (integerText 1).length = (integerText 0).length := rfl
    simp [blockDelta, dumps, dumpsMembers, hint]

theorem delta_type (kind : String) : ascii (kind ++ "_delta") = ascii kind ++ ascii "_delta" := by
  unfold ascii
  exact String.toList_append

theorem eventData_blockDelta {i : Int64} (hi : i = 0 ∨ i = 1) {kind : String} (hkind : IsKind kind)
    {text : Bytes} (htext : utf8Check text = true ∧ Nonzero text) :
    eventData (snprintf 8192 (deltaText i kind text)) =
      if Fits kind text then some (blockDelta i (kind ++ "_delta") kind text) else none := by
  obtain ⟨hutf8, hnonzero⟩ := htext
  have hread : eventData (snprintf 8192 (deltaText i kind text)) =
      if (deltaText i kind text).length ≤ 8191 then
        some (blockDelta i (kind ++ "_delta") kind text) else none := by
    rcases hkind with rfl | rfl
    all_goals
      refine eventData_snprintf 8192 (not_mem_ascii _ (by decide)) ⟨?_, ?_⟩ rfl ?_
      · simp (disch := decide) [blockDelta, wellFormed, wellFormedMembers, ascii_inj,
          nonzero_ascii, hnonzero]
      · simp (disch := decide) [blockDelta, strings, stringsMembers, utf8Check_ascii, hutf8]
      · simp [blockDelta, depth, depthMembers, maxDepth]
  rw [hread, deltaText_length i hi]
  by_cases hfits : Fits kind text
  · exact (if_pos hfits).trans (if_pos hfits).symm
  · exact (if_neg hfits).trans (if_neg hfits).symm

theorem eventOf_blockDelta (i : Int64) {kind : String} (hkind : IsKind kind) (text : Bytes) :
    eventOf (blockDelta i (kind ++ "_delta") kind text) =
      some (.blockDelta i (ascii kind ++ ascii "_delta")) := by
  rw [← delta_type]
  rcases hkind with rfl | rfl
  all_goals
    simp [eventOf, blockDelta, Json.getString, Json.get, lookup, Json.stringValue, ascii_inj,
      integerMember]

theorem read_blockDelta {i : Int64} (hi : i = 0 ∨ i = 1) {kind : String} (hkind : IsKind kind)
    {text : Bytes} (htext : utf8Check text = true ∧ Nonzero text) :
    readEvent (snprintf 8192 (deltaText i kind text)) =
      if Fits kind text then some (.blockDelta i (ascii kind ++ ascii "_delta")) else none := by
  rw [readEvent, eventData_blockDelta hi hkind htext]
  by_cases hfits : Fits kind text
  · rw [if_pos hfits, if_pos hfits]
    exact eventOf_blockDelta i hkind text
  · rw [if_neg hfits, if_neg hfits]
    rfl

theorem eventData_messageStart {id model : Bytes} (tokens : Int64)
    (hid : utf8Check id = true ∧ Nonzero id ∧ id.length ≤ 70)
    (hmodel : utf8Check model = true ∧ Nonzero model ∧ model.length ≤ 70) :
    eventData (snprintf 2048 (eventText "message_start" (messageStart id model tokens))) =
      some (messageStart id model tokens) := by
  have hlen := integerText_length_le (toInt tokens)
  have hlen0 := integerText_length_le 0
  have hqid := quoted_length_le id
  have hqmodel := quoted_length_le model
  obtain ⟨hiutf8, hinonzero, hilen⟩ := hid
  obtain ⟨hmutf8, hmnonzero, hmlen⟩ := hmodel
  rw [eventData_snprintf 2048 (not_mem_ascii _ (by decide)) _ rfl _, if_pos]
  · rw [eventText_length, show "message_start".length = 13 from rfl]
    simp (disch := decide) [messageStart, dumps, dumpsMembers, dumpsItems, quoted_ascii_length]
    omega
  · constructor
    · simp (disch := decide) [messageStart, wellFormed, wellFormedMembers, wellFormedItems,
        ascii_inj, nonzero_ascii, hinonzero, hmnonzero]
    · simp (disch := decide) [messageStart, strings, stringsMembers, stringsItems,
        utf8Check_ascii, hiutf8, hmutf8]
  · simp [messageStart, depth, depthMembers, depthItems, maxDepth]

theorem eventOf_messageStart (id model : Bytes) (tokens : Int64) :
    eventOf (messageStart id model tokens) = some .messageStart := by
  simp [eventOf, messageStart, Json.getString, Json.get, lookup, Json.stringValue, ascii_inj]

theorem read_messageStart {id model : Bytes} (tokens : Int64)
    (hid : utf8Check id = true ∧ Nonzero id ∧ id.length ≤ 70)
    (hmodel : utf8Check model = true ∧ Nonzero model ∧ model.length ≤ 70) :
    readEvent (snprintf 2048 (eventText "message_start" (messageStart id model tokens))) =
      some .messageStart := by
  rw [readEvent, eventData_messageStart tokens hid hmodel]
  exact eventOf_messageStart id model tokens

theorem eventData_messageDelta {reason : Bytes} (tokens : Int64)
    (hreason : utf8Check reason = true ∧ Nonzero reason ∧ reason.length ≤ 63) :
    eventData (snprintf 1024 (eventText "message_delta" (messageDelta reason tokens))) =
      some (messageDelta reason tokens) := by
  have hlen := integerText_length_le (toInt tokens)
  have hquoted := quoted_length_le reason
  obtain ⟨hutf8, hnonzero, hle⟩ := hreason
  rw [eventData_snprintf 1024 (not_mem_ascii _ (by decide)) _ rfl _, if_pos]
  · rw [eventText_length, show "message_delta".length = 13 from rfl]
    simp (disch := decide) [messageDelta, dumps, dumpsMembers, quoted_ascii_length]
    omega
  · constructor
    · simp (disch := decide) [messageDelta, wellFormed, wellFormedMembers, ascii_inj,
        nonzero_ascii, hnonzero]
    · simp (disch := decide) [messageDelta, strings, stringsMembers, utf8Check_ascii, hutf8]
  · simp [messageDelta, depth, depthMembers, maxDepth]

theorem eventOf_messageDelta (reason : Bytes) (tokens : Int64) :
    eventOf (messageDelta reason tokens) = some .messageDelta := by
  simp [eventOf, messageDelta, Json.getString, Json.get, lookup, Json.stringValue, ascii_inj]

theorem read_messageDelta {reason : Bytes} (tokens : Int64)
    (hreason : utf8Check reason = true ∧ Nonzero reason ∧ reason.length ≤ 63) :
    readEvent (snprintf 1024 (eventText "message_delta" (messageDelta reason tokens))) =
      some .messageDelta := by
  rw [readEvent, eventData_messageDelta tokens hreason]
  exact eventOf_messageDelta reason tokens

theorem read_messageStop : readEvent (eventText "message_stop" messageStop) =
    some .messageStop := by
  decide +kernel

end Aigate.BlockEvents
