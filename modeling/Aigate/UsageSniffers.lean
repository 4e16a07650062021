import Aigate.AnthropicOutput
import Aigate.GeminiOutput

/-!
# The tokens of a stream that is passed on

A stream that is not translated is read beside the client, only for its tokens. The reader takes
the lines of the stream as the bridges do, and is stricter about how a field is spelled.
-/
namespace Aigate.UsageSniffers
open Text JsonTree JsonText JsonEdit Guardrails GuardrailsEdits LineBuffer StreamCache
  StreamCacheReplay ProviderRequests BoundedLines BridgeEvents EventTexts

/-! ### Anthropic -/

/-- `anthropic_sniffer_t` without its line buffer. -/
structure AnthropicSniffer where
  currentEvent : Bytes
  inputTokens : Int64
  outputTokens : Int64
  cachedTokens : Int64

/-- `anthropic_sniffer_init`. -/
def AnthropicSniffer.init : AnthropicSniffer := ⟨[], 0, 0, 0⟩

/-- A number in the usage of an object. -/
def usageMember (owner : Option Json) (key : String) : Option Json :=
  (owner.bind (·.get "usage")).bind (·.get key)

def AnthropicSniffer.messageStart (s : AnthropicSniffer) (root : Json) : AnthropicSniffer :=
  { s with
    inputTokens := integerOr (usageMember (root.get "message") "input_tokens") s.inputTokens
    cachedTokens :=
      integerOr (usageMember (root.get "message") "cache_read_input_tokens") s.cachedTokens }

def AnthropicSniffer.messageDelta (s : AnthropicSniffer) (root : Json) : AnthropicSniffer :=
  { s with outputTokens := integerOr (usageMember (some root) "output_tokens") s.outputTokens }

/-- `anthropic_sniffer_process_line`. -/
def AnthropicSniffer.processLine (s : AnthropicSniffer) (line : Bytes) : AnthropicSniffer :=
  if line = [] then { s with currentEvent := [] }
  else if (ascii "event: ").isPrefixOf line then
    { s with currentEvent := snprintf 64 (line.drop 7) }
  else if (ascii "data: ").isPrefixOf line then
    let payload := line.drop 6
    if payload = ascii "[DONE]" then s
    else if s.currentEvent = ascii "message_start" then
      ((jsonLoads payload).map s.messageStart).getD s
    else if s.currentEvent = ascii "message_delta" then
      ((jsonLoads payload).map s.messageDelta).getD s
    else s
  else s

/-- A completed line of `anthropic_sniffer_feed`. -/
def AnthropicSniffer.takeLine (s : AnthropicSniffer) (line : Bytes) : AnthropicSniffer :=
  s.processLine (cString (stripCr line))

/-- A line of the event stream spells its field as it should: one blank is behind the colon. -/
def Spelled (line : Bytes) : Prop :=
  ∀ field ∈ [ascii "event", ascii "data"], (field ++ [':']).isPrefixOf line = true →
    (field ++ [':', ' ']).isPrefixOf line = true ∧ (line.drop (field.length + 2)).head? ≠ some ' '

instance (line : Bytes) : Decidable (Spelled line) :=
  inferInstanceAs (Decidable (∀ field ∈ [ascii "event", ascii "data"], _ → _ ∧ _))

/-- The reader and the bridge are in the same event and have the same tokens. -/
structure Agree (s : AnthropicSniffer) (b : AnthropicBridge.Bridge) : Prop where
  currentEvent : s.currentEvent = b.currentEvent
  inputTokens : s.inputTokens = b.inputTokens
  outputTokens : s.outputTokens = b.outputTokens

theorem getObject_bind_get (j : Json) (key key' : String) :
    (getObject j key).bind (·.get key') = (j.get key).bind (·.get key') := by
  unfold getObject
  cases j.get key with
  | none => rfl
  | some v => cases v <;> rfl

theorem Spelled.value {line field : Bytes} (h : Spelled line)
    (hfield : field ∈ [ascii "event", ascii "data"])
    (hshown : (field ++ [':']).isPrefixOf line = true) :
    ∃ value, line = field ++ [':', ' '] ++ value ∧ value.head? ≠ some ' ' := by
  obtain ⟨hblank, hhead⟩ := h field hfield hshown
  obtain ⟨value, rfl⟩ := List.isPrefixOf_iff_prefix.mp hblank
  refine ⟨value, rfl, ?_⟩
  rwa [List.drop_left' (by simp)] at hhead

/-- The fields of a bridge that its reader has too. -/
def view (b : AnthropicBridge.Bridge) : Bytes × Int64 × Int64 :=
  (b.currentEvent, b.inputTokens, b.outputTokens)

theorem view_startBlock (b : AnthropicBridge.Bridge) (data : Json) :
    view (AnthropicChunks.startBlock b data) = view b := by
  unfold AnthropicChunks.startBlock
  cases AnthropicChunks.blockType data with
  | none => rfl
  | some type =>
    dsimp only
    split_ifs <;> rfl

theorem view_addDelta (b : AnthropicBridge.Bridge) (data : Json) :
    view (AnthropicChunks.addDelta b data) = view b := by
  unfold AnthropicChunks.addDelta
  cases AnthropicChunks.readDelta b data with
  | thought text => cases text <;> rfl
  | arguments piece =>
    cases piece with
    | none => rfl
    | some t =>
      dsimp only
      unfold AnthropicBridge.Bridge.addArgs
      dsimp only
      split <;> rfl
  | _ => rfl

theorem view_stopBlock (b : AnthropicBridge.Bridge) :
    view (AnthropicChunks.stopBlock b) = view b := by
  unfold AnthropicChunks.stopBlock
  dsimp only
  split_ifs <;> rfl

/-- What the reader does with the data of its event. -/
def AnthropicSniffer.event (s : AnthropicSniffer) (root : Json) : AnthropicSniffer :=
  if s.currentEvent = ascii "message_start" then s.messageStart root
  else if s.currentEvent = ascii "message_delta" then s.messageDelta root
  else s

theorem Agree.of_view {s : AnthropicSniffer} {b b' : AnthropicBridge.Bridge} (h : Agree s b)
    (hview : view b' = view b) : Agree s b' := by
  simp only [view, Prod.mk.injEq] at hview
  exact ⟨h.currentEvent.trans hview.1.symm, h.inputTokens.trans hview.2.1.symm,
    h.outputTokens.trans hview.2.2.symm⟩

/-- The two take the same numbers from an event. -/
theorem Agree.event {s : AnthropicSniffer} {b : AnthropicBridge.Bridge} (h : Agree s b)
    (root : Json) : Agree (s.event root) (b.event root) := by
  have hwritten : ∀ (b' : AnthropicBridge.Bridge) (ws : List Bytes),
      view (AnthropicChunks.writing b' ws) = view b' := fun _ _ => rfl
  suffices hafter : Agree (s.event root) (AnthropicChunks.after b root) by
    rw [AnthropicChunks.event_eq]
    exact hafter.of_view (hwritten _ _)
  unfold AnthropicSniffer.event AnthropicChunks.after
  rw [h.currentEvent]
  by_cases hstart : b.currentEvent = ascii "message_start"
  · rw [if_pos hstart, if_pos hstart]
    refine ⟨h.currentEvent, ?_, h.outputTokens⟩
    have hinput : (((getObject root "message").bind (getObject · "usage")).bind
        (·.get "input_tokens")) = usageMember (root.get "message") "input_tokens" := by
      unfold usageMember
      rw [← getObject_bind_get, Option.bind_assoc, Option.bind_assoc]
      exact Option.bind_congr fun msg _ => getObject_bind_get msg "usage" "input_tokens"
    change integerOr _ s.inputTokens = integerOr _ b.inputTokens
    rw [hinput, h.inputTokens]
  rw [if_neg hstart, if_neg hstart]
  by_cases hdelta : b.currentEvent = ascii "message_delta"
  · have hother : b.currentEvent ≠ ascii "content_block_start" ∧
        b.currentEvent ≠ ascii "content_block_delta" ∧
          b.currentEvent ≠ ascii "content_block_stop" := by simp [hdelta, ascii_inj]
    rw [if_pos hdelta, if_neg hother.1, if_neg hother.2.1, if_neg hother.2.2, if_pos hdelta]
    refine ⟨h.currentEvent, h.inputTokens, ?_⟩
    change integerOr _ s.outputTokens = integerOr _ b.outputTokens
    rw [getObject_bind_get, h.outputTokens]
    rfl
  · rw [if_neg hdelta, if_neg hdelta]
    split_ifs
    · exact h.of_view (view_startBlock b root)
    · exact h.of_view (view_addDelta b root)
    · exact h.of_view (view_stopBlock b)
    · exact ⟨h.currentEvent, h.inputTokens, h.outputTokens⟩
    · exact ⟨h.currentEvent, h.inputTokens, h.outputTokens⟩
    · exact h

theorem skipBlanks_cons {value : Bytes} (h : value.head? ≠ some ' ') :
    skipBlanks (' ' :: value) = value := by
  unfold skipBlanks
  rw [List.dropWhile_cons_of_pos (by decide)]
  cases value with
  | nil => rfl
  | cons c rest =>
    have hc : c ≠ ' ' := fun heq => h (congrArg some heq)
    rw [List.dropWhile_cons_of_neg (by simpa using hc)]

theorem jsonLoads_done : jsonLoads (ascii "[DONE]") = none := by decide +kernel

/-- The fields, as the two readers spell them. -/
theorem fields : ascii "event" = ['e', 'v', 'e', 'n', 't'] ∧ ascii "data" = ['d', 'a', 't', 'a'] ∧
    ascii "event:" = ['e', 'v', 'e', 'n', 't', ':'] ∧ ascii "data:" = ['d', 'a', 't', 'a', ':'] ∧
    ascii "event: " = ['e', 'v', 'e', 'n', 't', ':', ' '] ∧
    ascii "data: " = ['d', 'a', 't', 'a', ':', ' '] := by
  decide +kernel

/-- The data of an event, which the end of a stream has none of. -/
theorem AnthropicSniffer.processLine_data (s : AnthropicSniffer) (value : Bytes) :
    s.processLine (ascii "data" ++ [':', ' '] ++ value) =
      ((jsonLoads value).map s.event).getD s := by
  have hne : ascii "data" ++ [':', ' '] ++ value ≠ [] := by simp
  have hevent : (ascii "event: ").isPrefixOf (ascii "data" ++ [':', ' '] ++ value) = false := by
    simp only [fields]
    rfl
  have hdata : (ascii "data: ").isPrefixOf (ascii "data" ++ [':', ' '] ++ value) = true := by
    simp only [fields]
    exact List.isPrefixOf_iff_prefix.mpr (List.prefix_append _ _)
  have hdrop : (ascii "data" ++ [':', ' '] ++ value).drop 6 = value := by
    simp only [fields]
    rfl
  unfold AnthropicSniffer.processLine AnthropicSniffer.event
  rw [if_neg hne, hevent, if_neg Bool.false_ne_true, if_pos hdata, hdrop]
  dsimp only
  by_cases hdone : value = ascii "[DONE]"
  · rw [if_pos hdone, hdone, jsonLoads_done]
    rfl
  rw [if_neg hdone]
  split_ifs
  · rfl
  · rfl
  · cases jsonLoads value <;> rfl

theorem AnthropicSniffer.processLine_event (s : AnthropicSniffer) (value : Bytes) :
    s.processLine (ascii "event" ++ [':', ' '] ++ value) =
      { s with currentEvent := snprintf 64 value } := by
  have hne : ascii "event" ++ [':', ' '] ++ value ≠ [] := by simp
  have hevent : (ascii "event: ").isPrefixOf (ascii "event" ++ [':', ' '] ++ value) = true := by
    simp only [fields]
    exact List.isPrefixOf_iff_prefix.mpr (List.prefix_append _ _)
  have hdrop : (ascii "event" ++ [':', ' '] ++ value).drop 7 = value := by
    simp only [fields]
    rfl
  rw [AnthropicSniffer.processLine, if_neg hne, if_pos hevent, hdrop]

/-- What a bridge does with a field that is spelled as it should be. -/
theorem processLine_spelled (b : AnthropicBridge.Bridge) {value : Bytes}
    (h : value.head? ≠ some ' ') :
    b.processLine (ascii "event" ++ [':', ' '] ++ value) =
        { b with currentEvent := snprintf 64 value } ∧
      b.processLine (ascii "data" ++ [':', ' '] ++ value) =
        ((jsonLoads value).map b.event).getD b := by
  have hevent : ascii "event:" = ascii "event" ++ [':'] := by
    simp only [fields]
    rfl
  have hdata : ascii "data:" = ascii "data" ++ [':'] := by
    simp only [fields]
    rfl
  have hother : (ascii "event:").isPrefixOf (ascii "data" ++ [':', ' '] ++ value) = false := by
    simp only [fields]
    rfl
  have hpos : ∀ field : Bytes,
      (field ++ [':']).isPrefixOf (field ++ [':', ' '] ++ value) = true := by
    intro field
    rw [List.isPrefixOf_iff_prefix]
    exact ⟨' ' :: value, by simp⟩
  have hdrop : (ascii "event" ++ [':', ' '] ++ value).drop 6 = ' ' :: value ∧
      (ascii "data" ++ [':', ' '] ++ value).drop 5 = ' ' :: value := by
    simp only [fields]
    exact ⟨rfl, rfl⟩
  unfold AnthropicBridge.Bridge.processLine
  rw [hother, if_neg Bool.false_ne_true, hevent, hdata, if_pos (hpos _), if_pos (hpos _), hdrop.1,
    hdrop.2, skipBlanks_cons h]
  exact ⟨rfl, by cases jsonLoads value <;> rfl⟩

/-- A line without a field that the two read. -/
theorem processLine_other {line : Bytes} (hevent : (ascii "event:").isPrefixOf line = false)
    (hdata : (ascii "data:").isPrefixOf line = false) (hne : line ≠ []) (s : AnthropicSniffer)
    (b : AnthropicBridge.Bridge) : s.processLine line = s ∧ b.processLine line = b := by
  have hlonger : ∀ short long : String, ascii short ++ [' '] = ascii long →
      (ascii short).isPrefixOf line = false → (ascii long).isPrefixOf line = false := by
    intro short long hlong hnone
    rw [Bool.eq_false_iff, Ne, List.isPrefixOf_iff_prefix] at hnone ⊢
    exact fun hshown => hnone ((List.prefix_append _ _).trans (hlong ▸ hshown))
  have hevent' : (ascii "event: ").isPrefixOf line = false := by
    refine hlonger "event:" "event: " ?_ hevent
    simp only [fields]
    rfl
  have hdata' : (ascii "data: ").isPrefixOf line = false := by
    refine hlonger "data:" "data: " ?_ hdata
    simp only [fields]
    rfl
  rw [AnthropicSniffer.processLine, AnthropicBridge.Bridge.processLine, if_neg hne, hevent', hdata',
    hevent, hdata]
  exact ⟨rfl, if_neg hne⟩

/-- One line keeps the agreement. -/
theorem Agree.takeLine {s : AnthropicSniffer} {b : AnthropicBridge.Bridge} (h : Agree s b)
    {line : Bytes} (hspelled : Spelled (cString (stripCr line))) :
    Agree (s.takeLine line) (b.takeLine line) := by
  have hfields : ascii "event:" = ascii "event" ++ [':'] ∧ ascii "data:" = ascii "data" ++ [':'] := by
    simp only [fields]
    exact ⟨rfl, rfl⟩
  unfold AnthropicSniffer.takeLine AnthropicBridge.Bridge.takeLine
  generalize cString (stripCr line) = text at hspelled
  by_cases hevent : (ascii "event:").isPrefixOf text = true
  · obtain ⟨value, rfl, hvalue⟩ := hspelled.value (by simp) (hfields.1 ▸ hevent)
    rw [AnthropicSniffer.processLine_event, (processLine_spelled b hvalue).1]
    exact ⟨rfl, h.inputTokens, h.outputTokens⟩
  by_cases hdata : (ascii "data:").isPrefixOf text = true
  · obtain ⟨value, rfl, hvalue⟩ := hspelled.value (by simp) (hfields.2 ▸ hdata)
    rw [AnthropicSniffer.processLine_data, (processLine_spelled b hvalue).2]
    cases jsonLoads value with
    | none => exact h
    | some root => exact h.event root
  rw [Bool.not_eq_true] at hevent hdata
  by_cases hne : text = []
  · subst hne
    have hs : s.processLine [] = { s with currentEvent := [] } := if_pos rfl
    have hb : b.processLine [] = { b with currentEvent := [] } := by
      rw [AnthropicBridge.Bridge.processLine, hevent, hdata]
      rfl
    rw [hs, hb]
    exact ⟨rfl, h.inputTokens, h.outputTokens⟩
  · obtain ⟨hs, hb⟩ := processLine_other hevent hdata hne s b
    rw [hs, hb]
    exact h

/-- The lines that are taken from a stream whose lines are short, however it is cut. -/
theorem taken_eq {stream : Bytes} {chunks : List Bytes} (hchunks : chunks.flatten = stream)
    (hshort : ∀ l ∈ lines '\n' stream, l.length < eventCap - 1) :
    taken chunks = lines '\n' stream := by
  subst hchunks
  exact completed_eq chunks (Or.inl rfl) hshort

/-- A client whose stream is passed on is charged for the same tokens as one whose stream is
translated, however the two streams are cut into chunks. -/
theorem anthropic_tokens_agree (tagEmulation : Bool) (stream : Bytes)
    (hshort : ∀ l ∈ lines '\n' stream, l.length < eventCap - 1)
    (hspelled : ∀ l ∈ lines '\n' stream, Spelled (cString (stripCr l)))
    (chunks chunks' : List Bytes) (hchunks : chunks.flatten = stream)
    (hchunks' : chunks'.flatten = stream) :
    Agree (feedAll AnthropicSniffer.takeLine .init chunks)
      (feedAll AnthropicBridge.Bridge.takeLine (.init tagEmulation) chunks') := by
  have hrun : ∀ (ls : List Bytes) (s : AnthropicSniffer) (b : AnthropicBridge.Bridge),
      (∀ l ∈ ls, Spelled (cString (stripCr l))) → Agree s b →
        Agree (ls.foldl AnthropicSniffer.takeLine s)
          (ls.foldl AnthropicBridge.Bridge.takeLine b) := by
    intro ls
    induction ls with
    | nil => exact fun _ _ _ h => h
    | cons l rest ih =>
      intro s b hls h
      obtain ⟨hl, hrest⟩ := List.forall_mem_cons.mp hls
      exact ih _ _ hrest (h.takeLine hl)
  rw [feedAll_eq, feedAll_eq, taken_eq hchunks hshort, taken_eq hchunks' hshort]
  exact hrun _ _ _ hspelled ⟨rfl, rfl, rfl⟩

/-- The start of a message, in one piece and cut in two. -/
def sampleChunks : List Bytes :=
  [ascii "event: message_start", '\n' :: ascii "data: \x7b\x7d" ++ ['\n', '\n']]

theorem anthropic_tokens_sample :
    Agree (feedAll AnthropicSniffer.takeLine .init [sampleChunks.flatten])
      (feedAll AnthropicBridge.Bridge.takeLine (.init true) sampleChunks) := by
  have hlines : (lines '\n' sampleChunks.flatten).all
      (fun l => decide (l.length < eventCap - 1 ∧ Spelled (cString (stripCr l)))) = true := by
    decide +kernel
  have hall := fun l hl => of_decide_eq_true (List.all_eq_true.mp hlines l hl)
  exact anthropic_tokens_agree true sampleChunks.flatten (fun l hl => (hall l hl).1)
    (fun l hl => (hall l hl).2) [sampleChunks.flatten] sampleChunks (by simp) rfl

/-! ### Gemini -/

/-- `gemini_sniffer_t` without its line buffer. -/
structure GeminiSniffer where
  promptTokens : Int64
  candidatesTokens : Int64
  cachedTokens : Int64

/-- `gemini_sniffer_init`. -/
def GeminiSniffer.init : GeminiSniffer := ⟨0, 0, 0⟩

def GeminiSniffer.usage (s : GeminiSniffer) (root : Json) : GeminiSniffer :=
  match getObject root "usageMetadata" with
  | none => s
  | some um =>
    { promptTokens := integerOr (um.get "promptTokenCount") s.promptTokens
      candidatesTokens := integerOr (um.get "candidatesTokenCount") s.candidatesTokens
      cachedTokens := integerOr (um.get "cachedContentTokenCount") s.cachedTokens }

/-- `gemini_sniffer_process_line`; a text without the key is not parsed. -/
def GeminiSniffer.processLine (s : GeminiSniffer) (line : Bytes) : GeminiSniffer :=
  if (ascii "data: ").isPrefixOf line then
    let payload := line.drop 6
    if payload = ascii "[DONE]" then s
    else if (strstr (ascii "usageMetadata") payload).isSome then
      ((jsonLoads payload).map s.usage).getD s
    else s
  else s

/-- A completed line of `gemini_sniffer_feed`. -/
def GeminiSniffer.takeLine (s : GeminiSniffer) (line : Bytes) : GeminiSniffer :=
  s.processLine (cString (stripCr line))

/-- `gemini_sniff_usage_json`. -/
def geminiSniffUsageJson (json : Bytes) : Option GeminiSniffer :=
  if json = [] then none else (jsonLoads json).map GeminiSniffer.init.usage

/-- A document that can be read again. -/
structure Document (d : Json) : Prop where
  clean : Clean d
  isDocument : JsonText.isDocument d = true
  shallow : depth d ≤ maxDepth

theorem Document.jsonLoads_dumps {d : Json} (h : Document d) : jsonLoads (dumps d) = some d :=
  h.clean.jsonLoads_dumps h.isDocument h.shallow

/-- The lines of a stream of documents; a carriage return may be before the end of a line. -/
def streamLines (cr : Bytes) (docs : List Json) : List Bytes :=
  docs.flatMap fun d => [eventLine d ++ cr, cr]

def eventStream (cr : Bytes) (docs : List Json) : Bytes :=
  (streamLines cr docs).flatMap (· ++ ['\n'])

theorem isSome_strstr {pat s : Bytes} (h : pat <:+: s) : (strstr pat s).isSome = true := by
  induction s with
  | nil =>
    rw [List.infix_nil.mp h]
    rfl
  | cons c s ih =>
    rw [strstr]
    split
    · rfl
    · rename_i hnot
      rcases List.infix_cons_iff.mp h with hpre | hinfix
      · exact absurd (List.isPrefixOf_iff_prefix.mpr hpre) hnot
      · exact ih hinfix

/-- The key of a member is in the text of its object. -/
theorem quoted_inside {members : List (Bytes × Json)} {key : Bytes} {v : Json}
    (h : lookup members key = some v) : quoted key <:+: dumpsMembers members := by
  induction members with
  | nil => cases h
  | cons m rest ih =>
    obtain ⟨k, w⟩ := m
    have hfirst : ∀ tail : Bytes, k = key → quoted key <:+: quoted k ++ ':' :: dumps w ++ tail := by
      rintro tail rfl
      exact ⟨[], ':' :: dumps w ++ tail, by simp⟩
    by_cases hk : k = key
    · cases rest with
      | nil =>
        have := hfirst [] hk
        rwa [List.append_nil] at this
      | cons m' rest =>
        rw [dumpsMembers]
        exact hfirst _ hk
    · rw [lookup, if_neg hk] at h
      cases rest with
      | nil => cases h
      | cons m' rest =>
        have hbehind : dumpsMembers (m' :: rest) <:+
            quoted k ++ ':' :: dumps w ++ ',' :: dumpsMembers (m' :: rest) :=
          ⟨quoted k ++ ':' :: dumps w ++ [','], by simp⟩
        rw [dumpsMembers]
        exact (ih h).trans hbehind.isInfix

/-- A document with the key is not passed over. -/
theorem isSome_strstr_of_get {d v : Json} (h : d.get "usageMetadata" = some v) :
    (strstr (ascii "usageMetadata") (dumps d)).isSome = true := by
  cases d with
  | object members =>
    have hkey : ascii "usageMetadata" <:+: quoted (ascii "usageMetadata") :=
      ⟨['"'], ['"'], by decide +kernel⟩
    have hmembers := hkey.trans (quoted_inside h)
    refine isSome_strstr (hmembers.trans ⟨['{'], ['}'], ?_⟩)
    rw [dumps]
    rfl
  | _ => cases h

/-- The text of a document neither begins nor ends with a blank. -/
theorem Document.ends {d : Json} (h : JsonText.isDocument d = true) :
    ∃ first last mid, dumps d = first :: mid ++ [last] ∧
      first ∈ ['{', '['] ∧ last ∈ ['}', ']'] := by
  cases d with
  | array items => exact ⟨'[', ']', dumpsItems items, by rw [dumps], by simp, by simp⟩
  | object members => exact ⟨'{', '}', dumpsMembers members, by rw [dumps], by simp, by simp⟩
  | _ => cases h

theorem nonzero_eventLine (d : Json) : Nonzero (eventLine d) :=
  nonzero_append (nonzero_ascii _ (by decide)) (nonzero_dumps d)

theorem strip_eventLine {d : Json} (h : JsonText.isDocument d = true) {cr : Bytes}
    (hcr : cr = [] ∨ cr = ['\r']) :
    stripCr (eventLine d ++ cr) = eventLine d ∧
      GeminiBridge.stripEnd (eventLine d ++ cr) = eventLine d := by
  obtain ⟨first, last, mid, hdumps, -, hlast⟩ := Document.ends h
  have hline : eventLine d = (ascii "data: " ++ first :: mid) ++ [last] := by
    rw [eventLine, hdumps]
    simp
  have hkept : last ≠ '\r' ∧ last ≠ ' ' := by
    simp only [List.mem_cons, List.not_mem_nil, or_false] at hlast
    rcases hlast with rfl | rfl <;> decide
  have hend : GeminiBridge.stripEnd (eventLine d) = eventLine d := by
    rw [hline, GeminiBridge.stripEnd, List.rdropWhile_concat_neg]
    simp [hkept]
  rcases hcr with rfl | rfl
  · rw [List.append_nil]
    refine ⟨?_, hend⟩
    rw [stripCr, hline, List.getLast?_concat, if_neg]
    exact fun heq => hkept.1 (Option.some.inj heq)
  · constructor
    · rw [stripCr, List.getLast?_concat, if_pos rfl, List.dropLast_concat]
    · have hdrop : GeminiBridge.stripEnd (eventLine d ++ ['\r']) =
          GeminiBridge.stripEnd (eventLine d) :=
        List.rdropWhile_concat_pos _ _ _ (by decide)
      rw [hdrop, hend]

theorem GeminiSniffer.takeLine_data (s : GeminiSniffer) {d : Json} (hd : Document d) {cr : Bytes}
    (hcr : cr = [] ∨ cr = ['\r']) : s.takeLine (eventLine d ++ cr) = s.usage d := by
  have hshown : (ascii "data: ").isPrefixOf (eventLine d) = true :=
    List.isPrefixOf_iff_prefix.mpr (List.prefix_append _ _)
  have hdrop : (eventLine d).drop 6 = dumps d := by
    rw [eventLine]
    simp only [fields]
    rfl
  have hdone : dumps d ≠ ascii "[DONE]" := by
    intro heq
    have hloads := hd.jsonLoads_dumps
    rw [heq, jsonLoads_done] at hloads
    cases hloads
  rw [takeLine, (strip_eventLine hd.isDocument hcr).1, cString_of_nonzero (nonzero_eventLine d),
    processLine, if_pos hshown, hdrop]
  dsimp only
  rw [if_neg hdone, hd.jsonLoads_dumps]
  by_cases hfound : (strstr (ascii "usageMetadata") (dumps d)).isSome = true
  · rw [if_pos hfound]
    rfl
  · have hnone : getObject d "usageMetadata" = none := by
      rw [Option.eq_none_iff_forall_not_mem]
      intro um hum
      exact hfound (isSome_strstr_of_get (Option.filter_eq_some_iff.mp hum).1)
    rw [if_neg hfound, usage, hnone]

theorem GeminiSniffer.takeLine_blank (s : GeminiSniffer) {cr : Bytes}
    (hcr : cr = [] ∨ cr = ['\r']) : s.takeLine cr = s := by
  have hempty : cString (stripCr cr) = [] := by rcases hcr with rfl | rfl <;> rfl
  have hnone : (ascii "data: ").isPrefixOf [] = false := by
    simp only [fields]
    rfl
  rw [takeLine, hempty, processLine, hnone, if_neg Bool.false_ne_true]

/-- A bridge reads the document of a line. -/
theorem lineData_eventLine {d : Json} (hd : Document d) {cr : Bytes}
    (hcr : cr = [] ∨ cr = ['\r']) : GeminiOutput.lineData (eventLine d ++ cr) = some d := by
  obtain ⟨first, last, mid, hdumps, hfirst, -⟩ := Document.ends hd.isDocument
  have hline : eventLine d = ascii "data:" ++ ' ' :: dumps d := by
    rw [eventLine]
    simp only [fields]
    rfl
  have hfound : strstr (ascii "data:") (eventLine d) = some (eventLine d) := by
    rw [hline]
    simp only [fields]
    rfl
  have hdrop : (eventLine d).drop 5 = ' ' :: dumps d := by
    rw [hline]
    simp only [fields]
    rfl
  have hblanks : (' ' :: dumps d).dropWhile (fun c => c = ' ' ∨ c = '\t') = dumps d := by
    have hkept : first ≠ ' ' ∧ first ≠ '\t' := by
      simp only [List.mem_cons, List.not_mem_nil, or_false] at hfirst
      rcases hfirst with rfl | rfl <;> decide
    rw [List.dropWhile_cons_of_pos (by decide), hdumps, List.cons_append,
      List.dropWhile_cons_of_neg (by simp [hkept])]
  have hne : dumps d ≠ [] := by
    rw [hdumps]
    exact List.cons_ne_nil _ _
  rw [GeminiOutput.lineData, (strip_eventLine hd.isDocument hcr).2,
    cString_of_nonzero (nonzero_eventLine d), hfound, Option.bind_some, hdrop]
  dsimp only
  rw [hblanks, if_neg hne, hd.jsonLoads_dumps]

theorem lineData_blank {cr : Bytes} (hcr : cr = [] ∨ cr = ['\r']) :
    GeminiOutput.lineData cr = none := by
  have hname : ascii "data:" ≠ [] := by simp only [fields, ne_eq, reduceCtorEq, not_false_eq_true]
  have hnil : strstr (ascii "data:") [] = none := if_neg hname
  rcases hcr with rfl | rfl
  · rw [GeminiOutput.lineData, GeminiBridge.stripEnd, List.rdropWhile_nil]
    change (strstr (ascii "data:") []).bind _ = none
    rw [hnil, Option.bind_none]
  · have hstrip : GeminiBridge.stripEnd ['\r'] = [] :=
      List.rdropWhile_concat_pos _ [] '\r' (by decide)
    rw [GeminiOutput.lineData, hstrip]
    change (strstr (ascii "data:") []).bind _ = none
    rw [hnil, Option.bind_none]

theorem takeLine_blank (b : GeminiBridge.Bridge) {cr : Bytes} (hcr : cr = [] ∨ cr = ['\r']) :
    b.takeLine cr = b := by
  rw [GeminiOutput.takeLine_eq, lineData_blank hcr]

/-- The short lines of a stream of documents are taken one by one, however it is cut. -/
theorem taken_eventStream {cr : Bytes} (hcr : cr = [] ∨ cr = ['\r']) {docs : List Json}
    (hshort : ∀ d ∈ docs, (dumps d).length + 8 < eventCap) {chunks : List Bytes}
    (hchunks : chunks.flatten = eventStream cr docs) : taken chunks = streamLines cr docs := by
  have hcrLength : cr.length ≤ 1 := by rcases hcr with rfl | rfl <;> decide
  have hcrNewline : '\n' ∉ cr := by rcases hcr with rfl | rfl <;> decide
  have hfield : (ascii "data: ").length = 6 := ascii_length _
  have hlines : ∀ l ∈ streamLines cr docs, '\n' ∉ l ∧ l.length < eventCap - 1 := by
    intro l hl
    obtain ⟨d, hd, hl⟩ := List.mem_flatMap.mp hl
    simp only [List.mem_cons, List.not_mem_nil, or_false] at hl
    have hlength := hshort d hd
    rcases hl with rfl | rfl
    · refine ⟨?_, ?_⟩
      · simp only [eventLine, List.mem_append, not_or]
        exact ⟨⟨not_mem_ascii _ (by decide), newline_not_mem_dumps d⟩, hcrNewline⟩
      · simp only [eventLine, List.length_append, hfield]
        omega
    · exact ⟨hcrNewline, by omega⟩
  have hall : lines '\n' (eventStream cr docs) = streamLines cr docs :=
    lines_flatMap fun l hl => (hlines l hl).1
  rw [taken_eq hchunks (hall.symm ▸ fun l hl => (hlines l hl).2), hall]

/-- The tokens that a bridge has counted for its client. -/
def bridgeTokens (b : GeminiBridge.Bridge) : Int64 × Int64 := (b.promptTokens, b.completionTokens)

theorem bridgeTokens_textPart (b : GeminiBridge.Bridge) (part : Json) :
    bridgeTokens (b.textPart part) = bridgeTokens b := by
  unfold GeminiBridge.Bridge.textPart GeminiBridge.Bridge.opened GeminiBridge.Bridge.closed
  cases part.getString "text" with
  | none => rfl
  | some text =>
    dsimp only
    split_ifs <;> rfl

theorem bridgeTokens_part (b : GeminiBridge.Bridge) (p : Json × ℕ) :
    bridgeTokens (b.part p) = bridgeTokens b := by
  rw [← bridgeTokens_textPart b p.1]
  unfold GeminiBridge.Bridge.part GeminiBridge.Bridge.callPart
  cases getObject p.1 "functionCall" <;> rfl

theorem bridgeTokens_candidate (b : GeminiBridge.Bridge) (c0 : Json) :
    bridgeTokens (b.candidate c0) = bridgeTokens b := by
  have hparts : ∀ (ps : List (Json × ℕ)) (b : GeminiBridge.Bridge),
      bridgeTokens (ps.foldl GeminiBridge.Bridge.part b) = bridgeTokens b := by
    intro ps
    induction ps with
    | nil => exact fun _ => rfl
    | cons p rest ih => exact fun b => (ih _).trans (bridgeTokens_part b p)
  rw [← hparts (GeminiBridge.partsOf c0).zipIdx b]
  unfold GeminiBridge.Bridge.candidate GeminiBridge.Bridge.finishOf
  cases c0.getString "finishReason" with
  | none => rfl
  | some reason =>
    dsimp only
    split_ifs <;> rfl

/-- Of an event, only the usage counts for the tokens. -/
theorem bridgeTokens_takeLine (b : GeminiBridge.Bridge) {d : Json} (hd : Document d) {cr : Bytes}
    (hcr : cr = [] ∨ cr = ['\r']) :
    bridgeTokens (b.takeLine (eventLine d ++ cr)) = bridgeTokens (b.usage d) := by
  rw [GeminiOutput.takeLine_eq, lineData_eventLine hd hcr]
  dsimp only
  cases GeminiBridge.candidateOf d with
  | none => rfl
  | some c0 => exact bridgeTokens_candidate _ c0

/-- The tokens of the reader that a bridge has too. -/
def GeminiSniffer.shared (s : GeminiSniffer) : Int64 × Int64 := (s.promptTokens, s.candidatesTokens)

theorem shared_usage {s : GeminiSniffer} {b : GeminiBridge.Bridge} (h : s.shared = bridgeTokens b)
    (d : Json) : (s.usage d).shared = bridgeTokens (b.usage d) := by
  simp only [GeminiSniffer.shared, bridgeTokens, Prod.mk.injEq] at h
  unfold GeminiSniffer.usage GeminiBridge.Bridge.usage
  cases getObject d "usageMetadata" with
  | none => simp only [GeminiSniffer.shared, bridgeTokens, h]
  | some um => simp only [GeminiSniffer.shared, bridgeTokens, h]

/-- The counts that an event may carry. -/
def geminiCounts : List String :=
  ["promptTokenCount", "candidatesTokenCount", "cachedContentTokenCount"]

/-- An event that carries all counts. -/
def AllCounts (d : Json) : Prop :=
  ∃ um, getObject d "usageMetadata" = some um ∧
    ∀ key ∈ geminiCounts, ∃ n, um.get key = some (.integer n)

theorem usage_of_allCounts {d : Json} (h : AllCounts d) (s s' : GeminiSniffer) :
    s.usage d = s'.usage d := by
  obtain ⟨um, hum, hcounts⟩ := h
  simp only [geminiCounts, List.forall_mem_cons] at hcounts
  obtain ⟨⟨p, hp⟩, ⟨c, hc⟩, ⟨k, hk⟩, -⟩ := hcounts
  simp only [GeminiSniffer.usage, hum, hp, hc, hk, integerOr]

theorem foldl_sniffer {cr : Bytes} (hcr : cr = [] ∨ cr = ['\r']) {docs : List Json}
    (hdocs : ∀ d ∈ docs, Document d) (s : GeminiSniffer) :
    (streamLines cr docs).foldl GeminiSniffer.takeLine s = docs.foldl GeminiSniffer.usage s := by
  induction docs generalizing s with
  | nil => rfl
  | cons d rest ih =>
    obtain ⟨hd, hrest⟩ := List.forall_mem_cons.mp hdocs
    rw [streamLines, List.flatMap_cons, List.foldl_append, List.foldl_cons, List.foldl_cons,
      List.foldl_nil, GeminiSniffer.takeLine_data s hd hcr, GeminiSniffer.takeLine_blank _ hcr]
    exact ih hrest _

theorem foldl_bridge {cr : Bytes} (hcr : cr = [] ∨ cr = ['\r']) {docs : List Json}
    (hdocs : ∀ d ∈ docs, Document d) {s : GeminiSniffer} {b : GeminiBridge.Bridge}
    (h : s.shared = bridgeTokens b) :
    (docs.foldl GeminiSniffer.usage s).shared =
      bridgeTokens ((streamLines cr docs).foldl GeminiBridge.Bridge.takeLine b) := by
  induction docs generalizing s b with
  | nil => exact h
  | cons d rest ih =>
    obtain ⟨hd, hrest⟩ := List.forall_mem_cons.mp hdocs
    have hstep : (s.usage d).shared = bridgeTokens (b.takeLine (eventLine d ++ cr)) :=
      (shared_usage h d).trans (bridgeTokens_takeLine b hd hcr).symm
    rw [streamLines, List.flatMap_cons, List.foldl_append, List.foldl_cons, List.foldl_cons,
      List.foldl_cons, List.foldl_nil, takeLine_blank _ hcr]
    exact ih hrest hstep

def sampleUsage : Json :=
  .object [(ascii "usageMetadata", .object [(ascii "promptTokenCount", .integer 3),
    (ascii "candidatesTokenCount", .integer 5), (ascii "cachedContentTokenCount", .integer 1)])]

end Aigate.UsageSniffers
