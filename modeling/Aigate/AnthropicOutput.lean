import Aigate.AnthropicChunks
import Aigate.GuardedRuns

/-!
# What the bridge of an Anthropic stream writes

Every chunk that the bridge packs is a document. Cut off in its buffer it is none, and neither is
an error whose message would need escapes; behind the mark of the end nothing more may come.
-/
namespace Aigate.AnthropicOutput
open Text JsonTree JsonText JsonRoundtrip JsonEdit JsonUtf8 Guardrails GuardrailsEdits Utf8
  LineBuffer StreamCache StreamCacheReplay ProviderRequests BridgeEvents EventTexts EventStreams
  AnthropicBridge AnthropicChunks GuardedRuns

/-- The strings that a bridge keeps are C strings, and short where their buffers are. -/
structure Strings (b : Bridge) : Prop where
  msgId : Nonzero b.msgId ∧ b.msgId.length ≤ 63
  model : Nonzero b.model ∧ b.model.length ≤ 63
  toolId : Nonzero b.toolId
  toolName : Nonzero b.toolName
  toolArgs : ∀ args ∈ b.toolArgs, Nonzero args

theorem writable_chunk {id model : Bytes} {delta finish : Json}
    (hid : utf8Check id = true ∧ Nonzero id) (hmodel : utf8Check model = true ∧ Nonzero model)
    (hdelta : Clean delta ∧ depth delta ≤ 4) (hfinish : Clean finish ∧ depth finish ≤ 4) :
    Writable (chunk id model delta finish) := by
  have hchoice := clean_choice hdelta.1 hfinish.1
  refine ⟨clean_object (by simp [chunkHead, ascii_inj]) ?_, rfl, ?_⟩
  · simp only [chunkHead, List.cons_append, List.nil_append, List.forall_mem_cons]
    exact ⟨⟨clean_ascii _ (by decide), clean_string hid⟩,
      ⟨clean_ascii _ (by decide), clean_ascii _ (by decide)⟩,
      ⟨clean_ascii _ (by decide), clean_string hmodel⟩,
      ⟨clean_ascii _ (by decide), clean_array (List.forall_mem_singleton.mpr hchoice)⟩,
      List.forall_mem_nil _⟩
  · have hd := hdelta.2
    have hf := hfinish.2
    simp [chunk, chunkHead, depth, depthMembers, depthItems]
    omega

theorem Strings.idBuf {b : Bridge} (h : Strings b) :
    Nonzero b.idBuf ∧ b.idBuf.length ≤ 72 := by
  have hhead : Nonzero (ascii "chatcmpl-") ∧ (ascii "chatcmpl-").length = 9 :=
    ⟨nonzero_ascii _ (by decide), ascii_length _⟩
  have hclaude : Nonzero (ascii "claude") ∧ (ascii "claude").length = 6 :=
    ⟨nonzero_ascii _ (by decide), ascii_length _⟩
  unfold Bridge.idBuf
  rw [List.length_append, hhead.2]
  split
  · exact ⟨nonzero_append hhead.1 hclaude.1, by omega⟩
  · exact ⟨nonzero_append hhead.1 h.msgId.1, by have := h.msgId.2; omega⟩

/-- The texts of a packed chunk were UTF-8. -/
theorem writable_textChunks {b : Bridge} (h : Strings b) {key : String}
    (hkey : Clean (.string (ascii key))) {text : Bytes} (htext : Nonzero text) :
    ∀ c ∈ textChunks b key text, Writable c := by
  intro c hc
  obtain ⟨hutf8, rfl⟩ := jsonPack_eq_some.mp (Option.mem_toList.mp hc)
  simp only [List.forall_mem_cons] at hutf8
  obtain ⟨hid, hmodel, htext8, -⟩ := hutf8
  refine writable_chunk ⟨hid, h.idBuf.1⟩ ⟨hmodel, h.model.1⟩ ⟨clean_object (by simp) ?_, ?_⟩
    ⟨clean_null, by simp [depth]⟩
  · exact List.forall_mem_singleton.mpr ⟨hkey, clean_string ⟨htext8, htext⟩⟩
  · simp [depth, depthMembers]

theorem nonzero_openTag : Nonzero openTag :=
  nonzero_append (nonzero_ascii _ (by decide)) (by decide)

theorem nonzero_closeTag : Nonzero closeTag :=
  nonzero_cons (by decide) (nonzero_append (nonzero_ascii _ (by decide)) (by decide))

theorem clean_content : Clean (.string (ascii "content")) := clean_ascii _ (by decide)

theorem writable_openChunks {b : Bridge} (h : Strings b) : ∀ c ∈ openChunks b, Writable c := by
  unfold openChunks
  split
  · exact writable_textChunks h clean_content nonzero_openTag
  · exact List.forall_mem_nil _

theorem writable_closeChunks {b : Bridge} (h : Strings b) : ∀ c ∈ closeChunks b, Writable c := by
  unfold closeChunks
  split
  · exact writable_textChunks h clean_content nonzero_closeTag
  · exact List.forall_mem_nil _

theorem writable_thoughtChunks {b : Bridge} (h : Strings b) {text : Bytes} (htext : Nonzero text) :
    ∀ c ∈ thoughtChunks b text, Writable c := by
  unfold thoughtChunks
  split
  · exact writable_textChunks h clean_content htext
  · exact writable_textChunks h (clean_ascii _ (by decide)) htext

/-- The call of a chunk; members whose text is not UTF-8 are missing. -/
theorem writable_toolChunk {b : Bridge} (h : Strings b) : Writable b.toolChunk := by
  have hargs : Nonzero (b.toolArgs.getD (ascii "\x7b\x7d")) := by
    cases hargs : b.toolArgs with
    | none => exact nonzero_ascii _ (by decide)
    | some args => exact h.toolArgs args hargs
  have hfunction : Clean (.object (stringMember "name" b.toolName ++
      stringMember "arguments" (b.toolArgs.getD (ascii "\x7b\x7d")))) := by
    refine clean_object ?_ ?_
    · unfold stringMember
      split_ifs <;> simp [ascii_inj]
    · exact List.forall_mem_append.mpr ⟨clean_stringMember (clean_ascii _ (by decide)) h.toolName,
        clean_stringMember (clean_ascii _ (by decide)) hargs⟩
  have hcall : Clean (.object ([(ascii "index", .integer (Int64.ofNat b.toolIndex))] ++
      stringMember "id" b.toolId ++ [(ascii "type", .string (ascii "function")),
        (ascii "function", .object (stringMember "name" b.toolName ++
          stringMember "arguments" (b.toolArgs.getD (ascii "\x7b\x7d"))))])) := by
    refine clean_object ?_ ?_
    · unfold stringMember
      split_ifs <;> simp [ascii_inj]
    · rw [List.forall_mem_append, List.forall_mem_append]
      refine ⟨⟨?_, clean_stringMember (clean_ascii _ (by decide)) h.toolId⟩, ?_⟩
      · exact List.forall_mem_singleton.mpr ⟨clean_ascii _ (by decide), clean_integer _⟩
      · simp only [List.forall_mem_cons]
        exact ⟨⟨clean_ascii _ (by decide), clean_ascii _ (by decide)⟩,
          ⟨clean_ascii _ (by decide), hfunction⟩, List.forall_mem_nil _⟩
  have hchoice := clean_choice (d := .object [(ascii "tool_calls", .array [.object
    ([(ascii "index", .integer (Int64.ofNat b.toolIndex))] ++ stringMember "id" b.toolId ++
      [(ascii "type", .string (ascii "function")),
        (ascii "function", .object (stringMember "name" b.toolName ++
          stringMember "arguments" (b.toolArgs.getD (ascii "\x7b\x7d"))))])])])
    (clean_object (by simp) (List.forall_mem_singleton.mpr ⟨clean_ascii _ (by decide),
      clean_array (List.forall_mem_singleton.mpr hcall)⟩)) clean_null
  refine ⟨clean_object ?_ ?_, rfl, ?_⟩
  · unfold stringMember
    split_ifs <;> simp [ascii_inj]
  · rw [List.forall_mem_append, List.forall_mem_append, List.forall_mem_append]
    refine ⟨⟨⟨clean_stringMember (clean_ascii _ (by decide)) h.idBuf.1, ?_⟩,
      clean_stringMember (clean_ascii _ (by decide)) h.model.1⟩, ?_⟩
    · exact List.forall_mem_singleton.mpr ⟨clean_ascii _ (by decide), clean_ascii _ (by decide)⟩
    · exact List.forall_mem_singleton.mpr ⟨clean_ascii _ (by decide),
        clean_array (List.forall_mem_singleton.mpr hchoice)⟩
  · unfold Bridge.toolChunk stringMember
    split_ifs
    all_goals simp [depth, depthMembers, depthItems]

/-- The texts of a delta come from a parsed document. -/
theorem valid_piece {b : Bridge} {data : Json} (hdata : Clean data) :
    ∀ t ∈ (readDelta b data).piece, utf8Check t = true ∧ Nonzero t := by
  unfold readDelta
  cases hdelta : getObject data "delta" with
  | none =>
    intro t ht
    cases ht
  | some del =>
    have hclean : Clean del := hdata.getObject hdelta
    intro t ht
    dsimp only at ht
    split_ifs at ht
    · exact hclean.getString ht
    · obtain ⟨j, hj, hstring⟩ := Option.bind_eq_some_iff.mp ht
      rcases Option.or_eq_some_iff.mp hj with hj | ⟨-, hj⟩
      · exact (hclean.get hj).stringValue hstring
      · exact (hclean.get hj).stringValue hstring
    · exact hclean.getString ht
    · exact hclean.getString ht
    · cases ht

theorem writable_blockDeltaChunks {b : Bridge} (h : Strings b) {data : Json} (hdata : Clean data) :
    ∀ c ∈ blockDeltaChunks b data, Writable c := by
  have hpiece := valid_piece (b := b) hdata
  unfold blockDeltaChunks
  cases hdelta : readDelta b data with
  | signature text =>
    rw [hdelta] at hpiece
    cases text with
    | none => exact List.forall_mem_nil _
    | some sig =>
      dsimp only
      split
      · exact List.forall_mem_nil _
      · exact writable_textChunks h (clean_ascii _ (by decide)) (hpiece sig rfl).2
  | thought text =>
    rw [hdelta] at hpiece
    cases text with
    | none => exact List.forall_mem_nil _
    | some t =>
      exact List.forall_mem_append.mpr
        ⟨writable_openChunks h, writable_thoughtChunks h (hpiece t rfl).2⟩
  | text text =>
    rw [hdelta] at hpiece
    refine List.forall_mem_append.mpr ⟨writable_closeChunks h, ?_⟩
    cases text with
    | none => exact List.forall_mem_nil _
    | some t => exact writable_textChunks h clean_content (hpiece t rfl).2
  | arguments piece => cases piece <;> exact List.forall_mem_nil _
  | other => exact List.forall_mem_nil _

theorem writable_blockStartChunks {b : Bridge} (h : Strings b) (data : Json) :
    ∀ c ∈ blockStartChunks b data, Writable c := by
  unfold blockStartChunks
  split_ifs
  · exact writable_openChunks h
  · exact List.forall_mem_append.mpr
      ⟨writable_openChunks h, writable_thoughtChunks h (nonzero_ascii _ (by decide))⟩
  · exact writable_closeChunks h
  · exact List.forall_mem_nil _

theorem writable_blockStopChunks {b : Bridge} (h : Strings b) :
    ∀ c ∈ blockStopChunks b, Writable c := by
  refine List.forall_mem_append.mpr ⟨?_, ?_⟩
  · split
    · exact writable_closeChunks h
    · exact List.forall_mem_nil _
  · split
    · exact List.forall_mem_singleton.mpr (writable_toolChunk h)
    · exact List.forall_mem_nil _

/-- A text that comes as a string of a document, cut to the size of its buffer. -/
theorem stored_snprintf {j : Option Json} (hj : ∀ v ∈ j, Clean v) (key : String) {old : Bytes}
    (hold : Nonzero old ∧ old.length ≤ 63) :
    Nonzero (((j.bind (·.getString key)).map (snprintf 64)).getD old) ∧
      (((j.bind (·.getString key)).map (snprintf 64)).getD old).length ≤ 63 := by
  cases hs : j.bind (·.getString key) with
  | none => exact hold
  | some s =>
    obtain ⟨v, hv, hstring⟩ := Option.bind_eq_some_iff.mp hs
    exact ⟨nonzero_sublist (List.take_sublist _ _) ((hj v hv).getString hstring).2,
      List.length_take_le _ _⟩

theorem Strings.greeted {b : Bridge} (h : Strings b) {data : Json} (hdata : Clean data) :
    Strings (greeted b data) :=
  ⟨stored_snprintf (fun _ hv => hdata.getObject hv) "id" h.msgId,
    stored_snprintf (fun _ hv => hdata.getObject hv) "model" h.model, h.toolId, h.toolName,
    h.toolArgs⟩

theorem nonzero_startId {b : Bridge} (h : Strings b) {data : Json} (hdata : Clean data) :
    Nonzero (startId b data) := by
  unfold startId
  split
  · exact nonzero_append (nonzero_ascii _ (by decide)) (h.greeted hdata).msgId.1
  · exact h.idBuf.1

theorem writable_startChunks {b : Bridge} (h : Strings b) {data : Json} (hdata : Clean data) :
    ∀ c ∈ startChunks b data, Writable c := by
  intro c hc
  obtain ⟨hutf8, rfl⟩ := jsonPack_eq_some.mp (Option.mem_toList.mp hc)
  simp only [List.forall_mem_cons] at hutf8
  obtain ⟨hid, hmodel, -⟩ := hutf8
  refine writable_chunk ⟨hid, nonzero_startId h hdata⟩ ⟨hmodel, (h.greeted hdata).model.1⟩
    ⟨clean_object (by simp [ascii_inj]) ?_, by simp [depth, depthMembers]⟩
    ⟨clean_null, by simp [depth]⟩
  simp only [List.forall_mem_cons]
  exact ⟨⟨clean_ascii _ (by decide), clean_ascii _ (by decide)⟩,
    ⟨clean_ascii _ (by decide), clean_string ⟨rfl, List.not_mem_nil⟩⟩, List.forall_mem_nil _⟩

theorem clean_finishReason (stopReason : Option Bytes) :
    Clean (.string (finishReason stopReason)) := by
  unfold finishReason
  split_ifs
  all_goals exact clean_ascii _ (by decide)

theorem writable_messageDeltaChunks {b : Bridge} (h : Strings b) (data : Json) :
    ∀ c ∈ messageDeltaChunks b data, Writable c := by
  refine List.forall_mem_append.mpr ⟨fun c hc => ?_, fun c hc => ?_⟩
  · obtain ⟨hutf8, rfl⟩ := jsonPack_eq_some.mp (Option.mem_toList.mp hc)
    simp only [List.forall_mem_cons] at hutf8
    exact writable_chunk ⟨hutf8.1, h.idBuf.1⟩ ⟨hutf8.2.1, h.model.1⟩
      ⟨clean_object (by simp) (List.forall_mem_nil _), by simp [depth, depthMembers]⟩
      ⟨clean_finishReason _, by simp [depth]⟩
  · obtain ⟨hutf8, rfl⟩ := jsonPack_eq_some.mp (Option.mem_toList.mp hc)
    simp only [List.forall_mem_cons] at hutf8
    have husage : Clean (usageObject (counted b data).inputTokens (counted b data).outputTokens) := by
      refine clean_object (by simp [ascii_inj]) ?_
      simp only [List.forall_mem_cons]
      exact ⟨⟨clean_ascii _ (by decide), clean_integer _⟩, ⟨clean_ascii _ (by decide),
        clean_integer _⟩, ⟨clean_ascii _ (by decide), clean_integer _⟩, List.forall_mem_nil _⟩
    refine ⟨clean_object (by simp [chunkHead, ascii_inj]) ?_, rfl, ?_⟩
    · simp only [chunkHead, List.cons_append, List.nil_append, List.forall_mem_cons]
      exact ⟨⟨clean_ascii _ (by decide), clean_string ⟨hutf8.1, h.idBuf.1⟩⟩,
        ⟨clean_ascii _ (by decide), clean_ascii _ (by decide)⟩,
        ⟨clean_ascii _ (by decide), clean_string ⟨hutf8.2.1, h.model.1⟩⟩,
        ⟨clean_ascii _ (by decide), clean_array (List.forall_mem_nil _)⟩,
        ⟨clean_ascii _ (by decide), husage⟩, List.forall_mem_nil _⟩
    · simp [usageChunk, chunkHead, usageObject, depth, depthMembers, depthItems]

/-- All chunks are documents. -/
theorem writable_chunksOf {b : Bridge} (h : Strings b) {data : Json} (hdata : Clean data) :
    ∀ c ∈ chunksOf b data, Writable c := by
  unfold chunksOf
  split_ifs
  · exact writable_startChunks h hdata
  · exact writable_blockStartChunks h data
  · exact writable_blockDeltaChunks h hdata
  · exact writable_blockStopChunks h
  · exact writable_messageDeltaChunks h data
  · exact writable_closeChunks h
  · exact List.forall_mem_nil _

/-! ### The strings behind an event -/

theorem nonzero_stringOr {j : Option Json} (hj : ∀ v ∈ j, Clean v) (key : String) (cap : ℕ) :
    Nonzero (snprintf cap ((j.bind (·.getString key)).getD [])) := by
  refine nonzero_sublist (List.take_sublist _ _) ?_
  cases hs : j.bind (·.getString key) with
  | none => exact List.not_mem_nil
  | some s =>
    obtain ⟨v, hv, hstring⟩ := Option.bind_eq_some_iff.mp hs
    exact ((hj v hv).getString hstring).2

theorem Strings.startBlock {b : Bridge} (h : Strings b) {data : Json} (hdata : Clean data) :
    Strings (startBlock b data) := by
  unfold AnthropicChunks.startBlock
  cases blockType data with
  | none => exact h
  | some type =>
    dsimp only
    split_ifs
    · exact ⟨h.msgId, h.model, h.toolId, h.toolName, h.toolArgs⟩
    · exact ⟨h.msgId, h.model, h.toolId, h.toolName, h.toolArgs⟩
    · exact ⟨h.msgId, h.model, nonzero_stringOr (fun _ hv => hdata.getObject hv) "id" 64,
        nonzero_stringOr (fun _ hv => hdata.getObject hv) "name" 128, fun _ hargs => by cases hargs⟩
    · exact ⟨h.msgId, h.model, h.toolId, h.toolName, h.toolArgs⟩

theorem Strings.addArgs {b : Bridge} (h : Strings b) {piece : Bytes} (hpiece : Nonzero piece) :
    Strings (b.addArgs piece) := by
  unfold Bridge.addArgs
  dsimp only
  split
  · refine ⟨h.msgId, h.model, h.toolId, h.toolName, fun args hargs => ?_⟩
    obtain rfl := Option.some.inj hargs
    refine nonzero_append ?_ hpiece
    cases hold : b.toolArgs with
    | none => exact List.not_mem_nil
    | some old => exact h.toolArgs old hold
  · exact h

theorem Strings.addDelta {b : Bridge} (h : Strings b) {data : Json} (hdata : Clean data) :
    Strings (addDelta b data) := by
  have hpiece := valid_piece (b := b) hdata
  unfold AnthropicChunks.addDelta
  cases hdelta : readDelta b data with
  | signature text => exact h
  | thought text =>
    cases text with
    | none => exact h
    | some t => exact ⟨h.msgId, h.model, h.toolId, h.toolName, h.toolArgs⟩
  | text text => exact ⟨h.msgId, h.model, h.toolId, h.toolName, h.toolArgs⟩
  | arguments piece =>
    cases piece with
    | none => exact h
    | some t =>
      rw [hdelta] at hpiece
      exact h.addArgs (hpiece t rfl).2
  | other => exact h

theorem Strings.stopBlock {b : Bridge} (h : Strings b) : Strings (stopBlock b) := by
  unfold AnthropicChunks.stopBlock
  dsimp only
  split_ifs <;> exact ⟨h.msgId, h.model, h.toolId, h.toolName, h.toolArgs⟩

theorem Strings.after {b : Bridge} (h : Strings b) {data : Json} (hdata : Clean data) :
    Strings (after b data) := by
  unfold AnthropicChunks.after
  split_ifs
  · exact h.greeted hdata
  · exact h.startBlock hdata
  · exact h.addDelta hdata
  · exact h.stopBlock
  · exact ⟨h.msgId, h.model, h.toolId, h.toolName, h.toolArgs⟩
  · exact ⟨h.msgId, h.model, h.toolId, h.toolName, h.toolArgs⟩
  · exact ⟨h.msgId, h.model, h.toolId, h.toolName, h.toolArgs⟩
  · exact h

/-! ### Tags -/

theorem textChunks_eq_nil_iff {b : Bridge} {key : String} {text : Bytes}
    (htext : utf8Check text = true) :
    textChunks b key text = [] ↔ ¬(utf8Check b.idBuf = true ∧ utf8Check b.model = true) := by
  unfold textChunks jsonPack
  split
  · rename_i h
    rw [List.all_eq_true] at h
    simp only [List.forall_mem_cons] at h
    exact iff_of_false (by simp) fun hnot => hnot ⟨h.1, h.2.1⟩
  · rename_i h
    refine iff_of_true rfl fun hand => h ?_
    simp [hand.1, hand.2, htext]

theorem utf8_tags : utf8Check openTag = true ∧ utf8Check closeTag = true := by decide +kernel

theorem closeChunks_tagClosing (b : Bridge) : closeChunks (tagClosing b) = [] := by
  refine if_neg fun h => ?_
  obtain ⟨hemulation, hopened, hclosed⟩ := h
  have hor : (b.tagClosed || (b.tagEmulation && b.tagOpened)) = false := hclosed
  rw [show b.tagEmulation = true from hemulation, show b.tagOpened = true from hopened] at hor
  simp at hor

/-- A tag that could not be written when it was opened cannot be written when it is closed. -/
theorem closeChunks_tagOpening {b : Bridge} (hopen : openChunks b = []) (hclose : closeChunks b = []) :
    closeChunks (tagOpening b) = [] := by
  by_cases hnew : b.tagEmulation = true ∧ b.tagOpened = false
  · rw [openChunks, if_pos hnew, textChunks_eq_nil_iff utf8_tags.1] at hopen
    unfold closeChunks
    split
    · exact (textChunks_eq_nil_iff (b := tagOpening b) utf8_tags.2).mpr hopen
    · rfl
  · have hopened : (b.tagOpened || b.tagEmulation) = b.tagOpened := by
      cases ho : b.tagOpened <;> simp_all
    have hsame : tagOpening b = b := by
      unfold tagOpening
      rw [hopened]
    rw [hsame, hclose]

theorem utf8_startId {b : Bridge} {data : Json} (h : utf8Check (greeted b data).idBuf = true) :
    utf8Check (startId b data) = true := by
  unfold startId
  cases hid : (getObject data "message").bind (·.getString "id") with
  | none =>
    have hmsgId : (greeted b data).msgId = b.msgId := by
      unfold greeted
      dsimp only
      rw [hid]
      rfl
    have hsame : (greeted b data).idBuf = b.idBuf := by
      unfold Bridge.idBuf
      rw [hmsgId]
    rw [Option.isSome_none, if_neg Bool.false_ne_true, ← hsame]
    exact h
  | some id =>
    rw [Option.isSome_some, if_pos rfl]
    unfold Bridge.idBuf at h
    split at h
    · rename_i hnil
      rw [hnil, List.append_nil]
      exact utf8Check_ascii _ (by decide)
    · exact h

theorem closeChunks_startBlock {b : Bridge} {data : Json} (hclose : closeChunks b = [])
    (hchunks : blockStartChunks b data = []) : closeChunks (startBlock b data) = [] := by
  unfold blockStartChunks at hchunks
  unfold startBlock
  cases htype : blockType data with
  | none => exact hclose
  | some type =>
    rw [htype] at hchunks
    simp only [Option.some.injEq] at hchunks
    dsimp only
    by_cases hthinking : type = ascii "thinking"
    · rw [if_pos hthinking] at hchunks
      rw [if_pos (Or.inl hthinking)]
      exact closeChunks_tagOpening (b := { b with inThinking := true, inToolUse := false }) hchunks
        hclose
    rw [if_neg hthinking] at hchunks
    by_cases hredacted : type = ascii "redacted_thinking"
    · rw [if_pos hredacted] at hchunks
      rw [if_pos (Or.inr hredacted)]
      exact closeChunks_tagOpening (b := { b with inThinking := true, inToolUse := false })
        (List.append_eq_nil_iff.mp hchunks).1 hclose
    rw [if_neg (not_or.mpr ⟨hthinking, hredacted⟩)]
    split_ifs
    · exact closeChunks_tagClosing { b with inThinking := false, inToolUse := false }
    · exact hclose
    · exact hclose

/-- With nothing written, there is still nothing to close. -/
theorem closeChunks_after {b : Bridge} {data : Json} (hclose : closeChunks b = [])
    (hchunks : chunksOf b data = []) : closeChunks (after b data) = [] := by
  unfold chunksOf at hchunks
  unfold AnthropicChunks.after
  split_ifs at hchunks ⊢
  · have hnot : ¬(utf8Check (startId b data) = true ∧ utf8Check (greeted b data).model = true) := by
      intro hand
      unfold startChunks jsonPack at hchunks
      rw [if_pos (by simp [hand.1, hand.2])] at hchunks
      cases hchunks
    unfold closeChunks
    split
    · refine (textChunks_eq_nil_iff (b := greeted b data) utf8_tags.2).mpr fun hand => hnot ?_
      exact ⟨utf8_startId hand.1, hand.2⟩
    · rfl
  · exact closeChunks_startBlock hclose hchunks
  · unfold blockDeltaChunks at hchunks
    unfold addDelta
    cases hdelta : readDelta b data with
    | signature text => exact hclose
    | thought text =>
      rw [hdelta] at hchunks
      cases text with
      | none => exact hclose
      | some t => exact closeChunks_tagOpening (List.append_eq_nil_iff.mp hchunks).1 hclose
    | text text => exact closeChunks_tagClosing b
    | arguments piece =>
      cases piece with
      | none => exact hclose
      | some t =>
        dsimp only
        unfold Bridge.addArgs
        dsimp only
        split <;> exact hclose
    | other => exact hclose
  · unfold stopBlock
    dsimp only
    split_ifs
    · exact closeChunks_tagClosing { b with inThinking := false }
    · exact closeChunks_tagClosing { b with inThinking := false }
    · exact hclose
    · exact hclose
  · exact hclose
  · exact closeChunks_tagClosing b
  · exact hclose
  · exact hclose

/-! ### Runs -/

theorem closeChunks_fit {b : Bridge} (h : Strings b) :
    ∀ c ∈ closeChunks b, (dataEvent (dumps c)).length < eventCap := by
  intro c hc
  unfold closeChunks at hc
  split at hc
  swap
  · cases hc
  obtain ⟨-, rfl⟩ := jsonPack_eq_some.mp (Option.mem_toList.mp hc)
  have hid := quoted_length_le b.idBuf
  have hmodel := quoted_length_le b.model
  have htag := quoted_length_le closeTag
  have hlen : closeTag.length = 11 := by
    simp [closeTag]
    rfl
  have hidLen := h.idBuf.2
  have hmodelLen := h.model.2
  rw [dataEvent_length]
  unfold eventCap
  have hzero := integerText_length_le 0
  simp (disch := decide) [chunk, chunkHead, dumps, dumpsMembers, dumpsItems, quoted_ascii_length]
  omega

/-- What the bridge would write at its end is a stream, now and after each step. -/
structure Good (b : Bridge) : Prop where
  strings : Strings b
  running : b.doneEmitted = false → ∀ w ∈ b.sent, IsChunk w
  ended : b.doneEmitted = true → IsStream b.sent.flatten ∧ closeChunks b = []

theorem isChunk_cut {cs : List Json} (hw : ∀ c ∈ cs, Writable c)
    (hfits : ∀ c ∈ cs, (dataEvent (dumps c)).length < eventCap) :
    ∀ w ∈ cs.map cut, IsChunk w := by
  intro w hmem
  obtain ⟨c, hc, rfl⟩ := List.mem_map.mp hmem
  exact (hw c hc).isChunk (hfits c hc)

theorem Good.finish {b : Bridge} (h : Good b) : IsStream b.finish.sent.flatten := by
  unfold Bridge.finish
  rw [closed_eq]
  cases hdone : b.doneEmitted with
  | true =>
    obtain ⟨hstream, hclose⟩ := h.ended hdone
    have hended : (writing (tagClosing b) ((closeChunks b).map cut)).doneEmitted = true := hdone
    dsimp only
    rw [if_pos hended, hclose, List.map_nil, writing_nil]
    exact hstream
  | false =>
    have hrunning : (writing (tagClosing b) ((closeChunks b).map cut)).doneEmitted = false := hdone
    have hall : ∀ w ∈ b.sent ++ (closeChunks b).map cut, IsChunk w :=
      List.forall_mem_append.mpr ⟨h.running hdone,
        isChunk_cut (writable_closeChunks h.strings) (closeChunks_fit h.strings)⟩
    have hstream := isStream_chunks hall
    dsimp only
    rw [if_neg (by rw [hrunning]; exact Bool.false_ne_true)]
    change IsStream ((b.sent ++ (closeChunks b).map cut) ++ [doneEvent]).flatten
    rw [List.flatten_append, List.flatten_singleton]
    exact hstream

theorem good_init (tagEmulation : Bool) : Good (Bridge.init tagEmulation) where
  strings := ⟨⟨List.not_mem_nil, Nat.zero_le _⟩, ⟨List.not_mem_nil, Nat.zero_le _⟩,
    List.not_mem_nil, List.not_mem_nil, fun _ h => by cases h⟩
  running := fun _ => List.forall_mem_nil _
  ended := fun h => by cases h

/-- A text that is written without escapes. -/
def Plain (s : Bytes) : Prop := s.flatMap escapeChar = s

/-- What an event must be for a stream to stay one: its chunks fit, the message of an error needs
no escapes and comes when no tag is open, and behind the end there is nothing. -/
structure EventOk (b : Bridge) (data : Json) : Prop where
  fits : ∀ c ∈ chunksOf b data, (dataEvent (dumps c)).length < eventCap
  error : b.currentEvent = ascii "error" → Plain (errorMessage data) ∧
    (errorText (errorMessage data)).length < eventCap ∧ closeChunks b = []
  ended : b.doneEmitted = true → chunksOf b data = [] ∧ ending b data = []

def errorDocument (msg : Bytes) : Json :=
  .object [(ascii "error", .object [(ascii "message", .string msg),
    (ascii "type", .string (ascii "upstream_error")), (ascii "code", .integer 502)])]

/-- A plain message makes the text of an error the event of a document. -/
theorem errorText_plain {msg : Bytes} (h : Plain msg) :
    errorText msg = dataEvent (dumps (errorDocument msg)) ++ doneEvent := by
  have hquoted : quoted msg = '"' :: msg ++ ['"'] := by
    unfold quoted
    rw [h]
  have hfront : ascii "\x7b\"error\":\x7b\"message\":\"" =
      '{' :: quoted (ascii "error") ++ ':' :: '{' :: quoted (ascii "message") ++ [':', '"'] := by
    unfold ascii
    rfl
  have hback : ascii "\",\"type\":\"upstream_error\",\"code\":502\x7d\x7d" =
      '"' :: ',' :: quoted (ascii "type") ++ ':' :: quoted (ascii "upstream_error") ++
        ',' :: quoted (ascii "code") ++ ':' :: integerText 502 ++ ['}', '}'] := by
    unfold ascii
    rfl
  unfold errorText errorDocument
  rw [hfront, hback]
  simp [dumps, dumpsMembers, hquoted]

theorem valid_errorMessage {data : Json} (hdata : Clean data) :
    utf8Check (errorMessage data) = true ∧ Nonzero (errorMessage data) := by
  unfold errorMessage
  cases hmsg : (getObject data "error").bind (·.getString "message") with
  | none => exact ⟨utf8Check_ascii _ (by decide), nonzero_ascii _ (by decide)⟩
  | some msg =>
    obtain ⟨err, herr, hstring⟩ := Option.bind_eq_some_iff.mp hmsg
    exact (hdata.getObject herr).getString hstring

/-- An error with a plain message ends the stream. -/
theorem isStream_error {b : Bridge} (hb : ∀ w ∈ b.sent, IsChunk w) {data : Json}
    (hdata : Clean data) (hplain : Plain (errorMessage data))
    (hfits : (errorText (errorMessage data)).length < eventCap) :
    IsStream (b.sent ++ [snprintf eventCap (errorText (errorMessage data))]).flatten := by
  have hwhole : snprintf eventCap (errorText (errorMessage data)) =
      errorText (errorMessage data) := List.take_of_length_le (by omega)
  have hinner : Clean (.object [(ascii "message", .string (errorMessage data)),
      (ascii "type", .string (ascii "upstream_error")), (ascii "code", .integer 502)]) := by
    refine clean_object (by simp [ascii_inj]) ?_
    simp only [List.forall_mem_cons]
    exact ⟨⟨clean_ascii _ (by decide), clean_string (valid_errorMessage hdata)⟩,
      ⟨clean_ascii _ (by decide), clean_ascii _ (by decide)⟩,
      ⟨clean_ascii _ (by decide), clean_integer _⟩, List.forall_mem_nil _⟩
  have hw : Writable (errorDocument (errorMessage data)) :=
    ⟨clean_object (by simp) (List.forall_mem_singleton.mpr ⟨clean_ascii _ (by decide), hinner⟩),
      rfl, by simp [errorDocument, depth, depthMembers]⟩
  have hchunk : IsChunk (dataEvent (dumps (errorDocument (errorMessage data)))) :=
    ⟨_, rfl, newline_not_mem_dumps _, by rw [hw.jsonLoads_dumps]; rfl⟩
  rw [hwhole, errorText_plain hplain, List.flatten_append, List.flatten_singleton,
    ← List.append_assoc, ← List.flatten_singleton (l := dataEvent _), ← List.flatten_append]
  exact isStream_chunks (List.forall_mem_append.mpr ⟨hb, List.forall_mem_singleton.mpr hchunk⟩)

/-! The state of an event leaves what was written and, before the end, the mark of the end. -/

theorem startBlock_frame (b : Bridge) (data : Json) :
    (startBlock b data).doneEmitted = b.doneEmitted ∧ (startBlock b data).sent = b.sent := by
  unfold startBlock
  cases blockType data with
  | none => exact ⟨rfl, rfl⟩
  | some type =>
    dsimp only
    split_ifs <;> exact ⟨rfl, rfl⟩

theorem addDelta_frame (b : Bridge) (data : Json) :
    (addDelta b data).doneEmitted = b.doneEmitted ∧ (addDelta b data).sent = b.sent := by
  unfold addDelta
  cases readDelta b data with
  | thought text => cases text <;> exact ⟨rfl, rfl⟩
  | arguments piece =>
    cases piece with
    | none => exact ⟨rfl, rfl⟩
    | some t =>
      dsimp only
      unfold Bridge.addArgs
      dsimp only
      split <;> exact ⟨rfl, rfl⟩
  | _ => exact ⟨rfl, rfl⟩

theorem stopBlock_frame (b : Bridge) :
    (stopBlock b).doneEmitted = b.doneEmitted ∧ (stopBlock b).sent = b.sent := by
  unfold stopBlock
  dsimp only
  split_ifs <;> exact ⟨rfl, rfl⟩

theorem after_sent (b : Bridge) (data : Json) : (after b data).sent = b.sent := by
  unfold AnthropicChunks.after
  split_ifs
  · rfl
  · exact (startBlock_frame b data).2
  · exact (addDelta_frame b data).2
  · exact (stopBlock_frame b).2
  · rfl
  · rfl
  · rfl
  · rfl

theorem after_doneEmitted {b : Bridge} {data : Json} (hstop : b.currentEvent ≠ ascii "message_stop")
    (herror : b.currentEvent ≠ ascii "error") : (after b data).doneEmitted = b.doneEmitted := by
  unfold AnthropicChunks.after
  rw [if_neg hstop, if_neg herror]
  split_ifs
  · rfl
  · exact (startBlock_frame b data).1
  · exact (addDelta_frame b data).1
  · exact (stopBlock_frame b).1
  · rfl
  · rfl

/-- An event after which nothing else may come. -/
theorem good_ended {b' : Bridge} (hs : Strings b') (hdone : b'.doneEmitted = true)
    (hstream : IsStream b'.sent.flatten) (hclose : closeChunks b' = []) : Good b' :=
  ⟨hs, fun hrunning => absurd (hdone.symm.trans hrunning) (by decide), fun _ => ⟨hstream, hclose⟩⟩

/-- The step lemma: an event that is as it must be keeps the stream one. -/
theorem Good.event {b : Bridge} (h : Good b) {data : Json} (hdata : Clean data)
    (hok : EventOk b data) : Good (b.event data) := by
  have hs := h.strings.after hdata
  have hstrings : Strings (writing (after b data) ((chunksOf b data).map cut ++ ending b data)) :=
    ⟨hs.msgId, hs.model, hs.toolId, hs.toolName, hs.toolArgs⟩
  have hchunks := isChunk_cut (writable_chunksOf h.strings hdata) hok.fits
  have hsent : (writing (after b data) ((chunksOf b data).map cut ++ ending b data)).sent =
      b.sent ++ ((chunksOf b data).map cut ++ ending b data) := by
    change (after b data).sent ++ _ = _
    rw [after_sent]
  rw [event_eq]
  cases hdone : b.doneEmitted with
  | true =>
    obtain ⟨hnone, hending⟩ := hok.ended hdone
    obtain ⟨hstream, hclose⟩ := h.ended hdone
    have hstop : b.currentEvent ≠ ascii "message_stop" := fun hstop => by
      rw [ending, if_pos hstop] at hending
      cases hending
    have herror : b.currentEvent ≠ ascii "error" := fun herror => by
      rw [ending, if_neg hstop, if_pos herror] at hending
      cases hending
    refine good_ended hstrings ((after_doneEmitted hstop herror).trans hdone) ?_
      (closeChunks_after hclose hnone)
    rw [hsent, hnone, hending]
    simpa using hstream
  | false =>
    have hall : ∀ w ∈ b.sent ++ (chunksOf b data).map cut, IsChunk w :=
      List.forall_mem_append.mpr ⟨h.running hdone, hchunks⟩
    by_cases hstop : b.currentEvent = ascii "message_stop"
    · have hafter : after b data = { tagClosing b with doneEmitted := true } := by
        simp [AnthropicChunks.after, hstop, ascii_inj]
      refine good_ended hstrings (by rw [hafter]; rfl) ?_
        (by rw [hafter]; exact closeChunks_tagClosing b)
      rw [hsent, ending, if_pos hstop, ← List.append_assoc, List.flatten_append,
        List.flatten_singleton]
      exact isStream_chunks hall
    by_cases herror : b.currentEvent = ascii "error"
    · obtain ⟨hplain, hfits, hclose⟩ := hok.error herror
      have hafter : after b data = { b with doneEmitted := true } := by
        simp [AnthropicChunks.after, herror, ascii_inj]
      have hnone : chunksOf b data = [] := by simp [chunksOf, herror, ascii_inj]
      refine good_ended hstrings (by rw [hafter]; rfl) ?_ (by rw [hafter]; exact hclose)
      rw [hsent, hnone, ending, if_neg hstop, if_pos herror]
      exact isStream_error (h.running hdone) hdata hplain hfits
    · have hending : ending b data = [] := by rw [ending, if_neg hstop, if_neg herror]
      have hrunning : (after b data).doneEmitted = false :=
        (after_doneEmitted hstop herror).trans hdone
      refine ⟨hstrings, fun _ => ?_, fun hended => absurd (hrunning.symm.trans hended) (by decide)⟩
      rw [hsent, hending, List.append_nil]
      exact hall

/-! ### Lines -/

/-- The document in a line of data. -/
def lineData (line : Bytes) : Option Json :=
  let line := cString (stripCr line)
  if (ascii "event:").isPrefixOf line then none
  else if (ascii "data:").isPrefixOf line then jsonLoads (skipBlanks (line.drop 5))
  else none

/-- The bridge behind a line that holds no document. -/
def named (b : Bridge) (line : Bytes) : Bridge :=
  let line := cString (stripCr line)
  if (ascii "event:").isPrefixOf line then
    { b with currentEvent := snprintf 64 (skipBlanks (line.drop 6)) }
  else if (ascii "data:").isPrefixOf line then b
  else if line = [] then { b with currentEvent := [] }
  else b

theorem takeLine_eq (b : Bridge) (line : Bytes) :
    b.takeLine line = ((lineData line).map b.event).getD (named b line) := by
  unfold Bridge.takeLine Bridge.processLine lineData named
  dsimp only
  by_cases hevent : (ascii "event:").isPrefixOf (cString (stripCr line)) = true
  · rw [if_pos hevent, if_pos hevent, if_pos hevent]
    rfl
  rw [if_neg hevent, if_neg hevent, if_neg hevent]
  by_cases hdata : (ascii "data:").isPrefixOf (cString (stripCr line)) = true
  · rw [if_pos hdata, if_pos hdata, if_pos hdata]
    cases jsonLoads (skipBlanks ((cString (stripCr line)).drop 5)) <;> rfl
  · rw [if_neg hdata, if_neg hdata, if_neg hdata]
    rfl

/-- A line with the name of an event. -/
theorem takeLine_name (b : Bridge) {line name : Bytes}
    (hevent : (ascii "event:").isPrefixOf (cString (stripCr line)) = true)
    (hname : snprintf 64 (skipBlanks ((cString (stripCr line)).drop 6)) = name) :
    b.takeLine line = { b with currentEvent := name } := by
  unfold Bridge.takeLine Bridge.processLine
  rw [if_pos hevent, hname]

theorem clean_lineData {line : Bytes} {data : Json} (h : lineData line = some data) :
    Clean data := by
  unfold lineData at h
  dsimp only at h
  split_ifs at h
  exact clean_jsonLoads h

theorem Good.named {b : Bridge} (h : Good b) (line : Bytes) : Good (named b line) := by
  unfold AnthropicOutput.named
  dsimp only
  have hstrings : ∀ e, Strings { b with currentEvent := e } := fun _ =>
    ⟨h.strings.msgId, h.strings.model, h.strings.toolId, h.strings.toolName, h.strings.toolArgs⟩
  split_ifs
  · exact ⟨hstrings _, h.running, h.ended⟩
  · exact h
  · exact ⟨hstrings _, h.running, h.ended⟩
  · exact h

def LineOk (b : Bridge) (line : Bytes) : Prop := ∀ data ∈ lineData line, EventOk b data

theorem Good.takeLine {b : Bridge} (h : Good b) {line : Bytes} (hok : LineOk b line) :
    Good (b.takeLine line) := by
  rw [takeLine_eq]
  cases hdata : lineData line with
  | none => exact h.named line
  | some data => exact h.event (clean_lineData hdata) (hok data hdata)

/-- In a run of lines that are as they must be, the bridge can end its stream well at any time. -/
theorem always_stream (tagEmulation : Bool) {ls : List Bytes}
    (h : RunOk Bridge.takeLine LineOk (Bridge.init tagEmulation) ls) :
    Always Bridge.takeLine (fun b => IsStream b.finish.sent.flatten) (Bridge.init tagEmulation) ls := by
  have hgood : Always Bridge.takeLine Good (Bridge.init tagEmulation) ls :=
    always_of_runOk (fun _ _ hb hline => hb.takeLine hline) (good_init tagEmulation) h
  exact fun n => (hgood n).finish

end Aigate.AnthropicOutput
