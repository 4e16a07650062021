import Aigate.GeminiBridge
import Aigate.EventStreams
import Aigate.GuardedRuns

/-!
# What the bridge of a Gemini stream writes

The chunks of the parts are documents when they fit in their buffer, and the end of the stream is
written once, when the bridge is finished.
-/
namespace Aigate.GeminiOutput
open Text JsonTree JsonText JsonRoundtrip JsonEdit JsonUtf8 Guardrails GuardrailsEdits Utf8
  LineBuffer StreamCache StreamCacheReplay ProviderRequests BridgeEvents EventTexts EventStreams
  GeminiBridge GuardedRuns

/-- The chunk fits in the buffer of an event. -/
def Fits (b : Bridge) (delta finish : Json) : Prop :=
  (dataEvent (dumps (b.chunk delta finish))).length < eventCap

/-- The key and the text of the delta for a part. -/
def textDelta (b : Bridge) (part : Json) : Option (String × Bytes) :=
  ((part.getString "text").filter (· ≠ [])).map fun text =>
    (if isThought part = true ∧ b.tagEmulation = false then "reasoning_content" else "content", text)

/-- The bridge before the text of a part is written, with the tag that it needs. -/
def tagged (b : Bridge) (part : Json) : Bridge :=
  if isThought part then
    let b := { b with
      reasoningTokens := addReasoning b.reasoningTokens ((part.getString "text").getD []) }
    if b.tagEmulation then b.opened else b
  else b.closed

theorem textPart_eq (b : Bridge) (part : Json) :
    b.textPart part = match textDelta b part with
      | some (key, text) => (tagged b part).emitDelta key text
      | none => b := by
  unfold Bridge.textPart textDelta tagged
  cases htext : part.getString "text" with
  | none => rfl
  | some text =>
    dsimp only
    by_cases hempty : text = []
    · rw [if_pos hempty, hempty]
      rfl
    · have hfilter : (some text).filter (· ≠ []) = some text := by simp [Option.filter, hempty]
      rw [if_neg hempty, hfilter, Option.map_some, Option.getD_some]
      dsimp only
      cases isThought part <;> cases b.tagEmulation <;> rfl

/-- What a part must be: its chunks fit in their buffer. -/
structure PartOk (b : Bridge) (p : Json × ℕ) : Prop where
  text : ∀ d ∈ textDelta b p.1, Fits (tagged b p.1) (.object (stringMember d.1 d.2)) .null
  call : ∀ fc ∈ getObject p.1 "functionCall", Fits (b.textPart p.1) (callDelta fc p.2) .null

/-- The strings of a bridge are C strings, and short where their buffers are. -/
structure Strings (b : Bridge) : Prop where
  msgId : Nonzero b.msgId ∧ b.msgId.length ≤ 63
  model : Nonzero b.model ∧ b.model.length ≤ 63
  reason : Clean (.string b.finishReason) ∧ b.finishReason.length ≤ 31

/-- A bridge that can end its stream well. -/
structure Good (b : Bridge) : Prop where
  strings : Strings b
  notDone : b.doneEmitted = false
  chunks : ∀ w ∈ b.sent, IsChunk w

theorem writable_chunk {b : Bridge} (h : Strings b) {delta finish : Json}
    (hdelta : Clean delta ∧ depth delta ≤ 5) (hfinish : Clean finish ∧ depth finish ≤ 5) :
    Writable (b.chunk delta finish) := by
  have hchoice := clean_choice hdelta.1 hfinish.1
  refine ⟨clean_object ?_ ?_, rfl, ?_⟩
  · unfold stringMember
    split_ifs <;> simp [ascii_inj]
  · rw [List.forall_mem_append, List.forall_mem_append, List.forall_mem_append]
    refine ⟨⟨⟨clean_stringMember (clean_ascii _ (by decide)) h.msgId.1, ?_⟩,
      clean_stringMember (clean_ascii _ (by decide)) h.model.1⟩, ?_⟩
    · simp only [List.forall_mem_cons]
      exact ⟨⟨clean_ascii _ (by decide), clean_ascii _ (by decide)⟩,
        ⟨clean_ascii _ (by decide), clean_integer _⟩, List.forall_mem_nil _⟩
    · exact List.forall_mem_singleton.mpr ⟨clean_ascii _ (by decide),
        clean_array (List.forall_mem_singleton.mpr hchoice)⟩
  · have hd := hdelta.2
    have hf := hfinish.2
    unfold Bridge.chunk stringMember
    split_ifs
    all_goals
      simp [depth, depthMembers, depthItems]
      omega

theorem Good.emit {b : Bridge} (h : Good b) {d e : Json} (hd : Clean d ∧ depth d ≤ 5)
    (he : Clean e ∧ depth e ≤ 5) (hfits : Fits b d e) : Good (b.emit d e) :=
  ⟨⟨h.strings.msgId, h.strings.model, h.strings.reason⟩, h.notDone, List.forall_mem_append.mpr
    ⟨h.chunks, List.forall_mem_singleton.mpr ((writable_chunk h.strings hd he).isChunk hfits)⟩⟩

theorem Good.emitDelta {b : Bridge} (h : Good b) {key : String}
    (hkey : Clean (.string (ascii key))) {text : Bytes} (htext : Nonzero text)
    (hfits : Fits b (.object (stringMember key text)) .null) : Good (b.emitDelta key text) := by
  refine h.emit ⟨clean_object ?_ (clean_stringMember hkey htext), ?_⟩ ⟨clean_null, by simp [depth]⟩
    hfits
  · unfold stringMember
    split_ifs <;> simp
  · unfold stringMember
    split_ifs <;> simp [depth, depthMembers]

/-- A short text under a short key fits. -/
theorem fits_short {b : Bridge} (h : Strings b) {delta finish : Json}
    (hdelta : (dumps delta).length ≤ 500) (hfinish : (dumps finish).length ≤ 500) :
    Fits b delta finish := by
  have hid := quoted_length_le b.msgId
  have hmodel := quoted_length_le b.model
  have hidLen := h.msgId.2
  have hmodelLen := h.model.2
  have htime := integerText_length_le (b.clock b.sent.length)
  have hzero := integerText_length_le 0
  unfold Fits eventCap Bridge.chunk stringMember
  rw [dataEvent_length]
  split_ifs
  all_goals
    simp (disch := decide) [dumps, dumpsMembers, dumpsItems, quoted_ascii_length]
    omega

theorem clean_content : Clean (.string (ascii "content")) := clean_ascii _ (by decide)

theorem fits_tag {b : Bridge} (h : Strings b) {tag : Bytes} (htag : tag.length ≤ 20) :
    Fits b (.object (stringMember "content" tag)) .null := by
  have hquoted := quoted_length_le tag
  refine fits_short h ?_ (by simp [dumps])
  unfold stringMember
  split_ifs
  · simp (disch := decide) [dumps, dumpsMembers, quoted_ascii_length]
    omega
  · simp [dumps, dumpsMembers]

theorem tag_lengths : openTag.length ≤ 20 ∧ closeTag.length ≤ 20 := by
  unfold openTag closeTag ascii
  decide

theorem nonzero_openTag : Nonzero openTag :=
  nonzero_append (nonzero_ascii _ (by decide)) (by decide)

theorem nonzero_closeTag : Nonzero closeTag :=
  nonzero_cons (by decide) (nonzero_append (nonzero_ascii _ (by decide)) (by decide))

theorem Good.opened {b : Bridge} (h : Good b) : Good b.opened := by
  unfold Bridge.opened
  split
  · exact h
  · have hopened := h.emitDelta clean_content nonzero_openTag
      (fits_tag h.strings tag_lengths.1)
    exact ⟨⟨hopened.strings.msgId, hopened.strings.model, hopened.strings.reason⟩, hopened.notDone,
      hopened.chunks⟩

theorem Good.closed {b : Bridge} (h : Good b) : Good b.closed := by
  unfold Bridge.closed
  split
  · have hclosed := h.emitDelta clean_content nonzero_closeTag
      (fits_tag h.strings tag_lengths.2)
    exact ⟨⟨hclosed.strings.msgId, hclosed.strings.model, hclosed.strings.reason⟩,
      hclosed.notDone, hclosed.chunks⟩
  · exact h

theorem Good.tagged {b : Bridge} (h : Good b) (part : Json) : Good (tagged b part) := by
  unfold GeminiOutput.tagged
  have hcounted : ∀ n, Good { b with reasoningTokens := n } := fun _ =>
    ⟨⟨h.strings.msgId, h.strings.model, h.strings.reason⟩, h.notDone, h.chunks⟩
  dsimp only
  split_ifs
  · exact (hcounted _).opened
  · exact hcounted _
  · exact h.closed

/-- The text of a part is a C string from a document. -/
theorem nonzero_textDelta {b : Bridge} {part : Json} (hpart : Clean part) {key : String}
    {text : Bytes} (h : textDelta b part = some (key, text)) :
    Clean (.string (ascii key)) ∧ Nonzero text := by
  obtain ⟨t, ht, heq⟩ := Option.map_eq_some_iff.mp h
  obtain ⟨hkey, rfl⟩ := Prod.mk.inj heq
  refine ⟨?_, (hpart.getString (Option.filter_eq_some_iff.mp ht).1).2⟩
  rw [← hkey]
  split
  · exact clean_ascii _ (by decide)
  · exact clean_content

theorem Good.textPart {b : Bridge} (h : Good b) {part : Json} (hpart : Clean part)
    (hok : ∀ d ∈ textDelta b part, Fits (GeminiOutput.tagged b part)
      (.object (stringMember d.1 d.2)) .null) : Good (b.textPart part) := by
  rw [textPart_eq]
  cases hdelta : textDelta b part with
  | none => exact h
  | some d =>
    obtain ⟨key, text⟩ := d
    obtain ⟨hkey, htext⟩ := nonzero_textDelta hpart hdelta
    exact (h.tagged part).emitDelta hkey htext (hok (key, text) hdelta)

theorem nonzero_argumentsText (args : Option Json) : Nonzero (argumentsText args) := by
  have hempty : Nonzero (ascii "\x7b\x7d") := nonzero_ascii _ (by decide)
  unfold argumentsText
  cases args with
  | none => exact hempty
  | some j =>
    dsimp only
    split
    · exact nonzero_dumps j
    · exact hempty

theorem clean_callDelta {fc : Json} (hfc : Clean fc) (pi : ℕ) :
    Clean (callDelta fc pi) ∧ depth (callDelta fc pi) ≤ 5 := by
  have hname := (hfc.getString_getD "name" valid_nil).2
  have hid : Nonzero (callId ((fc.getString "name").getD []) pi) := by
    refine nonzero_sublist (List.take_sublist _ _) (nonzero_append
      (nonzero_append (nonzero_ascii _ (by decide)) hname) (nonzero_cons (by decide) (nonzero_decimal pi)))
  have hfunction : Clean (callFunction fc) := by
    refine clean_object ?_ ?_
    · unfold stringMember
      split_ifs <;> simp [ascii_inj]
    · exact List.forall_mem_append.mpr ⟨clean_stringMember (clean_ascii _ (by decide)) hname,
        clean_stringMember (clean_ascii _ (by decide)) (nonzero_argumentsText _)⟩
  have hcall : Clean (.object ([(ascii "index", .integer (toInt (Int64.ofNat pi)))] ++
      stringMember "id" (callId ((fc.getString "name").getD []) pi) ++
        [(ascii "type", .string (ascii "function")), (ascii "function", callFunction fc)])) := by
    refine clean_object ?_ ?_
    · unfold stringMember
      split_ifs <;> simp [ascii_inj]
    · rw [List.forall_mem_append, List.forall_mem_append]
      refine ⟨⟨?_, clean_stringMember (clean_ascii _ (by decide)) hid⟩, ?_⟩
      · exact List.forall_mem_singleton.mpr ⟨clean_ascii _ (by decide), clean_integer _⟩
      · simp only [List.forall_mem_cons]
        exact ⟨⟨clean_ascii _ (by decide), clean_ascii _ (by decide)⟩,
          ⟨clean_ascii _ (by decide), hfunction⟩, List.forall_mem_nil _⟩
  refine ⟨clean_object (by simp) (List.forall_mem_singleton.mpr ⟨clean_ascii _ (by decide),
    clean_array (List.forall_mem_singleton.mpr hcall)⟩), ?_⟩
  unfold callDelta callFunction
  dsimp only
  unfold stringMember
  split_ifs
  all_goals simp [depth, depthMembers, depthItems]

theorem Good.part {b : Bridge} (h : Good b) {p : Json × ℕ} (hp : Clean p.1) (hok : PartOk b p) :
    Good (b.part p) := by
  have htext := h.textPart hp hok.text
  unfold Bridge.part Bridge.callPart
  cases hcall : getObject p.1 "functionCall" with
  | none => exact htext
  | some fc =>
    obtain ⟨hclean, hdepth⟩ := clean_callDelta (hp.getObject hcall) p.2
    have hemit := htext.emit ⟨hclean, hdepth⟩ ⟨clean_null, by simp [depth]⟩ (hok.call fc hcall)
    have hlen : (ascii "tool_calls").length ≤ 31 := by rw [ascii_length]; decide
    exact ⟨⟨hemit.strings.msgId, hemit.strings.model, clean_ascii _ (by decide), hlen⟩,
      hemit.notDone, hemit.chunks⟩

theorem Good.parts {ps : List (Json × ℕ)} (hps : ∀ p ∈ ps, Clean p.1) {b : Bridge} (h : Good b)
    (hok : RunOk Bridge.part PartOk b ps) : Good (ps.foldl Bridge.part b) := by
  induction ps generalizing b with
  | nil => exact h
  | cons p rest ih =>
    obtain ⟨hp, hrest⟩ := List.forall_mem_cons.mp hps
    exact ih hrest (h.part hp hok.1) hok.2

theorem Good.usage {b : Bridge} (h : Good b) (root : Json) : Good (b.usage root) := by
  unfold Bridge.usage
  split
  · exact h
  · exact ⟨⟨h.strings.msgId, h.strings.model, h.strings.reason⟩, h.notDone, h.chunks⟩

theorem mapped_reason (reason : Bytes) :
    Clean (.string (snprintf 32 (mapGeminiFinishReason reason))) ∧
      (snprintf 32 (mapGeminiFinishReason reason)).length ≤ 31 := by
  refine ⟨clean_string ?_, List.length_take_le _ _⟩
  unfold mapGeminiFinishReason
  split_ifs <;> exact ⟨by decide +kernel, by decide +kernel⟩

theorem Good.finishOf {b : Bridge} (h : Good b) (c0 : Json) : Good (b.finishOf c0) := by
  unfold Bridge.finishOf
  split
  · exact h
  · split
    · exact h
    · exact ⟨⟨h.strings.msgId, h.strings.model, mapped_reason _⟩, h.notDone, h.chunks⟩

/-- The document in a line. -/
def lineData (line : Bytes) : Option Json :=
  (strstr (ascii "data:") (cString (stripEnd line))).bind fun found =>
    let d := (found.drop 5).dropWhile fun c => c = ' ' ∨ c = '\t'
    if d = [] then none else jsonLoads d

theorem takeLine_eq (b : Bridge) (line : Bytes) :
    b.takeLine line = match lineData line with
      | none => b
      | some root =>
        match candidateOf root with
        | none => b.usage root
        | some c0 => (b.usage root).candidate c0 := by
  unfold Bridge.takeLine Bridge.processLine lineData
  cases strstr (ascii "data:") (cString (stripEnd line)) with
  | none => rfl
  | some found =>
    dsimp only [Option.bind_some]
    generalize (found.drop 5).dropWhile (fun c => c = ' ' ∨ c = '\t') = d
    cases d with
    | nil => rfl
    | cons c cs =>
      have hne := List.cons_ne_nil c cs
      cases hroot : jsonLoads (c :: cs) with
      | none => simp only [if_neg hne]
      | some root => cases hc0 : candidateOf root <;> simp only [if_neg hne, hc0]

theorem clean_lineData {line : Bytes} {root : Json} (h : lineData line = some root) :
    Clean root := by
  obtain ⟨found, -, hloads⟩ := Option.bind_eq_some_iff.mp h
  dsimp only at hloads
  split_ifs at hloads
  exact clean_jsonLoads hloads

theorem clean_partsOf {root c0 : Json} (hroot : Clean root) (h : candidateOf root = some c0) :
    ∀ part ∈ partsOf c0, Clean part := by
  obtain ⟨items, hitems, hhead⟩ := Option.bind_eq_some_iff.mp h
  have hc0 : Clean c0 := hroot.getArray hitems (List.mem_of_mem_head? hhead)
  unfold partsOf
  cases hparts : (getObject c0 "content").bind (·.getArray "parts") with
  | none => exact List.forall_mem_nil _
  | some parts =>
    obtain ⟨content, hcontent, harray⟩ := Option.bind_eq_some_iff.mp hparts
    exact fun part hpart => (hc0.getObject hcontent).getArray harray hpart

def LineOk (b : Bridge) (line : Bytes) : Prop :=
  ∀ root ∈ lineData line, ∀ c0 ∈ candidateOf root,
    RunOk Bridge.part PartOk (b.usage root) (partsOf c0).zipIdx

theorem Good.takeLine {b : Bridge} (h : Good b) {line : Bytes} (hok : LineOk b line) :
    Good (b.takeLine line) := by
  rw [takeLine_eq]
  cases hdata : lineData line with
  | none => exact h
  | some root =>
    dsimp only
    cases hcandidate : candidateOf root with
    | none => exact h.usage root
    | some c0 =>
      have hparts := clean_partsOf (clean_lineData hdata) hcandidate
      refine ((h.usage root).parts (fun p hp => ?_) (hok root hdata c0 hcandidate)).finishOf c0
      exact hparts p.1 (List.fst_mem_of_mem_zipIdx hp)

theorem Good.finish {b : Bridge} (h : Good b) : IsStream b.finish.sent.flatten := by
  have hclosed := h.closed
  unfold Bridge.finish
  rw [h.notDone, if_neg Bool.false_ne_true]
  dsimp only
  have hreason : ∀ r, (r = if b.closed.finishReason = [] then ascii "stop"
      else b.closed.finishReason) → Clean (.string r) ∧ r.length ≤ 31 := by
    rintro r rfl
    split
    · exact ⟨clean_ascii _ (by decide), by rw [ascii_length]; decide⟩
    · exact hclosed.strings.reason
  obtain ⟨hclean, hlen⟩ := hreason _ rfl
  generalize (if b.closed.finishReason = [] then ascii "stop" else b.closed.finishReason) = r
    at hclean hlen
  have hquoted := quoted_length_le r
  have hend := hclosed.emit (d := .object []) (e := .string r)
    ⟨clean_object (by simp) (List.forall_mem_nil _), by simp [depth, depthMembers]⟩
    ⟨hclean, by simp [depth]⟩
    (fits_short hclosed.strings (by simp [dumps, dumpsMembers]) (by rw [dumps]; omega))
  change IsStream ((b.closed.emit (.object []) (.string r)).sent ++ [doneEvent]).flatten
  rw [List.flatten_append, List.flatten_singleton]
  exact isStream_chunks hend.chunks

theorem good_new (clock : ℕ → Int64) (now : Int64) (model : Option Bytes) (tagEmulation : Bool) :
    Good (Bridge.new clock now (model.map cString) tagEmulation) where
  strings := by
    refine ⟨⟨nonzero_sublist (List.take_sublist _ _) (nonzero_append (nonzero_ascii _ (by decide))
      (nonzero_dumps (.integer now))), List.length_take_le _ _⟩,
      ⟨nonzero_sublist (List.take_sublist _ _) ?_, List.length_take_le _ _⟩,
      clean_ascii _ (by decide), ?_⟩
    · cases model with
      | none => exact nonzero_ascii "gemini" (by decide)
      | some model => exact nonzero_cString model
    · change (ascii "stop").length ≤ 31
      rw [ascii_length]
      decide
  notDone := rfl
  chunks := List.forall_mem_nil _

/-- In a run of lines whose chunks fit, the bridge can end its stream well at any time. -/
theorem always_stream (clock : ℕ → Int64) (now : Int64) (model : Option Bytes)
    (tagEmulation : Bool) {ls : List Bytes}
    (h : RunOk Bridge.takeLine LineOk (Bridge.new clock now (model.map cString) tagEmulation) ls) :
    Always Bridge.takeLine (fun b => IsStream b.finish.sent.flatten)
      (Bridge.new clock now (model.map cString) tagEmulation) ls := by
  have hgood : Always Bridge.takeLine Good
      (Bridge.new clock now (model.map cString) tagEmulation) ls :=
    always_of_runOk (fun _ _ hb hline => hb.takeLine hline)
      (good_new clock now model tagEmulation) h
  exact fun n => (hgood n).finish

end Aigate.GeminiOutput
