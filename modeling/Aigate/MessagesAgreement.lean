import Aigate.MessagesAnswer

/-!
# Whole completions and streamed ones as Anthropic messages

A completion is translated in one piece or chunk by chunk. The bridge of the stream leaves the
tool calls out and writes the tokens of the prompt before it knows them, so that the two agree for
completions without either.
-/
namespace Aigate.MessagesAgreement
open Text JsonTree JsonText JsonRoundtrip JsonEdit JsonUtf8 Guardrails GuardrailsEdits Utf8
  StreamCache StreamCacheReplay ProviderRequests BridgeEvents EventTexts MessagesBridge BlockEvents
  BlockModes BlockGrammar MessagesAnswer

/-! ### A whole completion -/

structure Call where
  id : Bytes
  name : Bytes
  arguments : Bytes
  deriving DecidableEq

/-- The message of the first choice. -/
def messageOf (root : Json) : Option Json :=
  (MessagesBridge.choiceOf root).bind (getObject · "message")

def reasoningOf (root : Json) : Option Bytes :=
  (messageOf root).bind (·.getString "reasoning_content")

def contentOf (root : Json) : Option Bytes := (messageOf root).bind (·.getString "content")

/-- A call without a function is skipped. -/
def callOf (tc : Json) : Option Call :=
  (getObject tc "function").map fun fn =>
    ⟨(tc.getString "id").getD [], (fn.getString "name").getD [],
      (fn.getString "arguments").getD (ascii "\x7b\x7d")⟩

def callsOf (root : Json) : List Call :=
  (((messageOf root).bind (·.getArray "tool_calls")).getD []).filterMap callOf

def respId (root : Json) : Bytes :=
  let id := (root.getString "id").getD (ascii "unknown")
  snprintf 128 (ascii "msg_" ++ if (ascii "chatcmpl-").isPrefixOf id then id.drop 9 else id)

def respModel (root : Json) (reqModel : Option Bytes) : Bytes :=
  (root.getString "model").getD (reqModel.getD (ascii "unknown"))

def respFinishReason (root : Json) : Bytes :=
  match finishOf root with
  | some finish =>
    if finish = ascii "length" then ascii "max_tokens"
    else if finish = ascii "tool_calls" then ascii "tool_use"
    else ascii "end_turn"
  | none => ascii "end_turn"

/-- A block of thoughts or of text, unless it would be empty. -/
def textBlock (kind : String) (text : Option Bytes) : List Json :=
  match text with
  | some t =>
    if t = [] then []
    else [.object ((ascii "type", .string (ascii kind)) :: stringMember kind t)]
  | none => []

/-- Arguments that cannot be parsed become an empty object. -/
def Call.input (c : Call) : Json := (jsonLoads c.arguments).getD (.object [])

def Call.content (c : Call) : Json :=
  .object ((ascii "type", .string (ascii "tool_use")) :: (stringMember "id" c.id ++
    stringMember "name" c.name ++ [(ascii "input", c.input)]))

/-- The message that `provider_openai_resp_to_anthropic` dumps. -/
def respMessage (root : Json) (reqModel : Option Bytes) : Json :=
  .object (stringMember "id" (respId root) ++ [(ascii "type", .string (ascii "message")),
      (ascii "role", .string (ascii "assistant"))] ++ stringMember "model" (respModel root reqModel) ++
    [(ascii "content", .array (textBlock "thinking" (reasoningOf root) ++
        textBlock "text" (contentOf root) ++ (callsOf root).map Call.content)),
      (ascii "stop_reason", .string (respFinishReason root)), (ascii "stop_sequence", .null),
      (ascii "usage", .object [(ascii "input_tokens", .integer ((inputOf root).getD 0)),
        (ascii "output_tokens", .integer ((outputOf root).getD 0))])])

/-- `provider_openai_resp_to_anthropic`: the message, and the tokens of the prompt and of the
completion. -/
def providerOpenaiRespToAnthropic (oaiResp : Bytes) (reqModel : Option Bytes) :
    Option (Json × Int64 × Int64) :=
  (jsonLoads (cString oaiResp)).map fun root =>
    (respMessage root reqModel, (inputOf root).getD 0, (outputOf root).getD 0)

/-- The block of a call, as a client reads it. -/
def Call.block (c : Call) : Block := .toolUse c.id c.name c.input

/-- A text that is not empty. -/
def nonempty (text : Option Bytes) : Option Bytes := text.filter (· ≠ [])

theorem mapM_textBlock {k : String} {b : Bytes → Block}
    (hblock : ∀ t, utf8Check t = true → blockOf (.object [(ascii "type", .string (ascii k)),
      (ascii k, .string t)]) [] = some (b t))
    {text : Option Bytes} (htext : ∀ t ∈ text, utf8Check t = true) :
    (textBlock k text).mapM (fun content => blockOf content []) =
      some ((nonempty text).toList.map b) := by
  unfold textBlock nonempty
  cases text with
  | none => rfl
  | some t =>
    have hutf8 := htext t rfl
    by_cases hempty : t = []
    · simp [hempty]
    · simp [hempty, stringMember, hutf8, hblock, Option.filter]

/-- The id and the name of a call can be packed. -/
structure Packable (c : Call) : Prop where
  id : utf8Check c.id = true ∧ Nonzero c.id
  name : utf8Check c.name = true ∧ Nonzero c.name

theorem blockOf_content {c : Call} (h : Packable c) : blockOf c.content [] = some c.block := by
  simp [blockOf, Call.content, Call.block, stringMember, h.id.1, h.name.1, Json.getString,
    Json.get, lookup, Json.stringValue, ascii_inj]

theorem mapM_contents {calls : List Call} (h : ∀ c ∈ calls, Packable c) :
    (calls.map Call.content).mapM (fun content => blockOf content []) =
      some (calls.map Call.block) := by
  induction calls with
  | nil => rfl
  | cons c rest ih =>
    obtain ⟨hc, hrest⟩ := List.forall_mem_cons.mp h
    rw [List.map_cons, List.mapM_cons, blockOf_content hc, ih hrest]
    rfl

theorem clean_messageOf {root message : Json} (hroot : Clean root)
    (h : messageOf root = some message) : Clean message := by
  obtain ⟨c0, hc0, hmessage⟩ := Option.bind_eq_some_iff.mp h
  exact (hroot.firstChoice (Option.filter_eq_some_iff.mp hc0).1).getObject hmessage

theorem valid_message {root : Json} (hroot : Clean root) (key : String) :
    ∀ t ∈ (messageOf root).bind (·.getString key), utf8Check t = true ∧ Nonzero t := by
  intro t ht
  obtain ⟨message, hmessage, hstring⟩ := Option.bind_eq_some_iff.mp ht
  exact (clean_messageOf hroot hmessage).getString hstring

theorem packable_callsOf {root : Json} (hroot : Clean root) : ∀ c ∈ callsOf root, Packable c := by
  intro c hc
  obtain ⟨tc, htc, hcall⟩ := List.mem_filterMap.mp hc
  obtain ⟨fn, hfn, rfl⟩ := Option.map_eq_some_iff.mp hcall
  cases hitems : (messageOf root).bind (·.getArray "tool_calls") with
  | none => simp [hitems] at htc
  | some items =>
    obtain ⟨message, hmessage, harray⟩ := Option.bind_eq_some_iff.mp hitems
    rw [hitems] at htc
    have hclean : Clean tc := (clean_messageOf hroot hmessage).getArray harray htc
    exact ⟨hclean.getString_getD "id" valid_nil,
      (hclean.getObject hfn).getString_getD "name" valid_nil⟩

/-- What a client reads in the message of a whole completion. -/
theorem wholeAnswer_respMessage {root : Json} (hroot : Clean root) (reqModel : Option Bytes) :
    wholeAnswer (respMessage root reqModel) = some {
      blocks := (nonempty (reasoningOf root)).toList.map Block.thinking ++
        (nonempty (contentOf root)).toList.map Block.text ++ (callsOf root).map Call.block
      stopReason := some (respFinishReason root)
      inputTokens := some ((inputOf root).getD 0)
      outputTokens := some ((outputOf root).getD 0) } := by
  have hthinking := mapM_textBlock (k := "thinking") (b := Block.thinking)
    (fun t _ => by
      simp [blockOf, Json.getString, Json.get, lookup, Json.stringValue, ascii_inj])
    (fun t ht => (valid_message hroot "reasoning_content" t ht).1)
  have htext := mapM_textBlock (k := "text") (b := Block.text)
    (fun t _ => by
      simp [blockOf, Json.getString, Json.get, lookup, Json.stringValue, ascii_inj])
    (fun t ht => (valid_message hroot "content" t ht).1)
  have hcalls := mapM_contents (packable_callsOf hroot)
  have hblocks : (textBlock "thinking" (reasoningOf root) ++ textBlock "text" (contentOf root) ++
      (callsOf root).map Call.content).mapM (fun content => blockOf content []) =
      some ((nonempty (reasoningOf root)).toList.map Block.thinking ++
        (nonempty (contentOf root)).toList.map Block.text ++ (callsOf root).map Call.block) := by
    rw [List.mapM_append, List.mapM_append, reasoningOf, contentOf, hthinking, htext, hcalls]
    rfl
  unfold wholeAnswer respMessage stringMember
  generalize textBlock "thinking" (reasoningOf root) ++ textBlock "text" (contentOf root) ++
    (callsOf root).map Call.content = content at hblocks ⊢
  split <;> split
  all_goals
    simp [Json.getArray, Json.getString, Json.get, lookup, Json.stringValue, Json.arrayItems,
      ascii_inj, hblocks, tokens, integerMember]

/-! ### A completion in chunks -/

/-- A part of a call in a delta. -/
structure Fragment where
  index : Int64
  id : Option Bytes
  name : Option Bytes
  arguments : Bytes

def fragmentOf (tc : Json) : Fragment :=
  let fn := getObject tc "function"
  ⟨(integerMember tc "index").getD 0, tc.getString "id", fn.bind (·.getString "name"),
    (fn.bind (·.getString "arguments")).getD []⟩

def fragmentsOf (root : Json) : List Fragment :=
  (((deltaObject root).bind (·.getArray "tool_calls")).getD []).map fragmentOf

def Fragment.addTo (f : Fragment) (c : Call) : Call :=
  ⟨f.id.getD c.id, f.name.getD c.name, c.arguments ++ f.arguments⟩

/-- The fragments of one index belong to one call. -/
def joinFragment (calls : List (Int64 × Call)) (f : Fragment) : List (Int64 × Call) :=
  if calls.any (·.1 = f.index) then
    calls.map fun c => if c.1 = f.index then (c.1, f.addTo c.2) else c
  else calls ++ [(f.index, f.addTo ⟨[], [], []⟩)]

def joinedCalls (fragments : List Fragment) : List Call :=
  (fragments.foldl joinFragment []).map Prod.snd

/-- The chunks of a stream say the same as a whole completion: its deltas are cut from the texts
and the calls, and the reason for the end and the tokens come once. -/
structure Serialises (roots : List Json) (answer : Json) : Prop where
  thoughts : (roots.filterMap thoughtOf).flatten = (reasoningOf answer).getD []
  text : (roots.filterMap textOf).flatten = (contentOf answer).getD []
  calls : joinedCalls (roots.flatMap fragmentsOf) = callsOf answer
  finish : roots.filterMap finishOf = (finishOf answer).toList
  input : (roots.filterMap inputOf).getLast? = inputOf answer
  output : (roots.filterMap outputOf).getLast? = outputOf answer

instance (roots : List Json) (answer : Json) : Decidable (Serialises roots answer) :=
  decidable_of_iff
    ((roots.filterMap thoughtOf).flatten = (reasoningOf answer).getD [] ∧
      (roots.filterMap textOf).flatten = (contentOf answer).getD [] ∧
      joinedCalls (roots.flatMap fragmentsOf) = callsOf answer ∧
      roots.filterMap finishOf = (finishOf answer).toList ∧
      (roots.filterMap inputOf).getLast? = inputOf answer ∧
      (roots.filterMap outputOf).getLast? = outputOf answer)
    ⟨fun ⟨h₁, h₂, h₃, h₄, h₅, h₆⟩ => ⟨h₁, h₂, h₃, h₄, h₅, h₆⟩,
      fun ⟨h₁, h₂, h₃, h₄, h₅, h₆⟩ => ⟨h₁, h₂, h₃, h₄, h₅, h₆⟩⟩

/-- What both translations can tell: no calls, no block for an empty text, no tokens in the prompt
and few enough in the completion. -/
structure Plain (roots : List Json) (answer : Json) : Prop where
  noCalls : callsOf answer = []
  thoughts : (reasoningOf answer).getD [] = [] → roots.filterMap thoughtOf = []
  text : (contentOf answer).getD [] = [] → roots.filterMap textOf = []
  input : (inputOf answer).getD 0 = 0
  output : toInt ((outputOf answer).getD 0) = (outputOf answer).getD 0

/-- The reason for the end that some chunks leave. -/
def reasonFold (roots : List Json) : Bytes :=
  endReason ((roots.filterMap finishOf).foldl (fun old finish => stopReasonOf finish old) [])

theorem endReason_finish {roots : List Json} {answer : Json}
    (h : roots.filterMap finishOf = (finishOf answer).toList) :
    reasonFold roots = respFinishReason answer := by
  unfold reasonFold
  rw [h]
  unfold respFinishReason
  cases finishOf answer with
  | none => rfl
  | some finish =>
    change endReason (stopReasonOf finish []) = _
    have hnonempty : ascii "max_tokens" ≠ [] ∧ ascii "tool_use" ≠ [] ∧ ascii "end_turn" ≠ [] := by
      decide +kernel
    unfold endReason stopReasonOf
    split_ifs <;> simp_all

/-- A text gives the same block both ways unless its deltas are all empty. -/
theorem joined_eq_nonempty_iff (deltas : List Bytes) (text : Option Bytes) :
    joined deltas = nonempty text ↔
      deltas.flatten = text.getD [] ∧ (text.getD [] = [] → deltas = []) := by
  unfold joined nonempty
  cases text with
  | none =>
    by_cases hd : deltas = []
    · simp [hd]
    · simp [hd]
  | some t =>
    by_cases hd : deltas = []
    · by_cases ht : t = []
      · simp [hd, ht, Option.filter]
      · simp [hd, ht, Option.filter, Ne.symm ht]
    · by_cases ht : t = []
      · simp [hd, ht, Option.filter]
      · simp [hd, ht, Option.filter]

theorem blocks_eq_iff (thoughts text thoughts' text' : Option Bytes) (calls : List Call) :
    thoughts.toList.map Block.thinking ++ text.toList.map Block.text =
        thoughts'.toList.map Block.thinking ++ text'.toList.map Block.text ++
          calls.map Call.block ↔
      thoughts = thoughts' ∧ text = text' ∧ calls = [] := by
  cases thoughts <;> cases text <;> cases thoughts' <;> cases text' <;> cases calls
  all_goals simp [Call.block]

/-- What a reader hands on still tells the same as all chunks of a stream. -/
structure Kept (handed all : List Json) : Prop where
  thoughts : (handed.filterMap thoughtOf).flatten = (all.filterMap thoughtOf).flatten
  text : (handed.filterMap textOf).flatten = (all.filterMap textOf).flatten
  reason : reasonFold handed = reasonFold all
  output : toInt ((handed.filterMap outputOf).getLast?.getD 0) =
    toInt ((all.filterMap outputOf).getLast?.getD 0)

theorem toInt_toInt (n : Int64) : toInt (toInt n) = toInt n := by
  unfold toInt
  rw [Int32.toInt32_toInt64]

/-- A stream and the whole completion agree exactly when the chunks that are handed on tell the
same as all, are orderly, and both are plain. -/
theorem agree_iff (model : Bytes) (reqModel : Option Bytes) {handed all : List Json}
    {answer : Json} (hhanded : ∀ root ∈ handed, Clean root) (hanswer : Clean answer)
    (h : Serialises all answer) :
    streamedAnswer (handed.foldl Bridge.chunk (Bridge.new model)).finish.sent =
        wholeAnswer (respMessage answer reqModel) ↔
      Orderly model handed ∧ Kept handed all ∧ Plain handed answer := by
  rw [wholeAnswer_respMessage hanswer]
  by_cases horderly : Orderly model handed
  · rw [streamedAnswer_orderly model hhanded horderly, Option.some.injEq]
    unfold shownAnswer
    rw [Answer.mk.injEq, blocks_eq_iff, joined_eq_nonempty_iff, joined_eq_nonempty_iff,
      ← endReason_finish h.finish, ← h.output]
    constructor
    · rintro ⟨⟨⟨hthoughts, hnoThoughts⟩, ⟨htext, hnoText⟩, hcalls⟩, hreason, hinput, houtput⟩
      have hlast := Option.some.inj houtput
      refine ⟨horderly, ⟨hthoughts.trans h.thoughts.symm, htext.trans h.text.symm,
        Option.some.inj hreason, ?_⟩, hcalls, hnoThoughts, hnoText,
        (Option.some.inj hinput).symm, ?_⟩
      · rw [← hlast, toInt_toInt]
      · rw [← h.output, ← hlast, toInt_toInt]
    · rintro ⟨-, hkept, hplain⟩
      have houtput := hplain.output
      rw [← h.output] at houtput
      exact ⟨⟨⟨hkept.thoughts.trans h.thoughts, hplain.thoughts⟩,
        ⟨hkept.text.trans h.text, hplain.text⟩, hplain.noCalls⟩, congrArg some hkept.reason,
        by rw [hplain.input], by rw [hkept.output, houtput]⟩
  · refine iff_of_false (fun heq => ?_) fun hand => horderly hand.1
    have hmessage : ¬IsMessage (handed.foldl Bridge.chunk (Bridge.new model)).finish.sent :=
      fun hm => horderly ((isMessage_iff model hhanded).mp hm)
    unfold streamedAnswer at heq
    rw [if_neg hmessage] at heq
    cases heq

theorem clean_chunks (ls : List Bytes) : ∀ root ∈ ls.filterMap chunkOf, Clean root := by
  intro root hroot
  obtain ⟨line, -, hline⟩ := List.mem_filterMap.mp hroot
  exact clean_chunkOf hline

/-- The stream of a completion gives the answer of the whole one exactly when the reader of lines
loses nothing of what it tells, its chunks are orderly and both are plain. -/
theorem agreement_iff (model : Bytes) (reqModel : Option Bytes) (chunks : List Bytes)
    (oaiResp : Bytes) (answer : Json) (hanswer : jsonLoads (cString oaiResp) = some answer)
    (h : Serialises ((LineBuffer.lines '\n' chunks.flatten).filterMap chunkOf) answer) :
    streamedAnswer (feedAll Bridge.takeLine (Bridge.new model) chunks).finish.sent =
        (providerOpenaiRespToAnthropic oaiResp reqModel).bind (wholeAnswer ·.1) ↔
      Orderly model ((taken chunks).filterMap chunkOf) ∧
        Kept ((taken chunks).filterMap chunkOf)
          ((LineBuffer.lines '\n' chunks.flatten).filterMap chunkOf) ∧
          Plain ((taken chunks).filterMap chunkOf) answer := by
  unfold providerOpenaiRespToAnthropic
  rw [feedAll_eq, foldl_takeLine, hanswer]
  exact agree_iff model reqModel (clean_chunks _) (clean_jsonLoads hanswer) h

def helloLine : Bytes :=
  ascii "data: \x7b\"choices\":[\x7b\"delta\":\x7b\"content\":\"hello\"\x7d," ++
    ascii "\"finish_reason\":\"stop\"\x7d]\x7d"

def helloResp : Bytes :=
  ascii "\x7b\"choices\":[\x7b\"message\":\x7b\"content\":\"hello\"\x7d," ++
    ascii "\"finish_reason\":\"stop\"\x7d]\x7d"

theorem agreement_hello : ∃ answer, jsonLoads (cString helloResp) = some answer ∧
    (streamedAnswer (feedAll Bridge.takeLine (Bridge.new (ascii "m"))
          [[helloLine].flatMap (· ++ ['\n'])]).finish.sent =
        (providerOpenaiRespToAnthropic helloResp none).bind (wholeAnswer ·.1) ↔
      Orderly (ascii "m") ((taken [[helloLine].flatMap (· ++ ['\n'])]).filterMap chunkOf) ∧
        Kept ((taken [[helloLine].flatMap (· ++ ['\n'])]).filterMap chunkOf)
          ((LineBuffer.lines '\n' [[helloLine].flatMap (· ++ ['\n'])].flatten).filterMap chunkOf) ∧
          Plain ((taken [[helloLine].flatMap (· ++ ['\n'])]).filterMap chunkOf) answer) := by
  have hparsed : ((jsonLoads (cString helloResp)).map fun answer =>
      decide (Serialises ([helloLine].filterMap chunkOf) answer)) = some true := by decide +kernel
  obtain ⟨answer, hanswer, hserialises⟩ := Option.map_eq_some_iff.mp hparsed
  have hlines : LineBuffer.lines '\n' [[helloLine].flatMap (· ++ ['\n'])].flatten = [helloLine] := by
    rw [List.flatten_singleton]
    exact LineBuffer.lines_flatMap (by decide +kernel)
  exact ⟨answer, hanswer, agreement_iff (ascii "m") none [[helloLine].flatMap (· ++ ['\n'])]
    helloResp answer hanswer (by rw [hlines]; exact of_decide_eq_true hserialises)⟩

/-- The fragments of one call come in two chunks. -/
def toolLines : List Bytes :=
  [ascii "data: \x7b\"choices\":[\x7b\"delta\":\x7b\"tool_calls\":[" ++
    ascii "\x7b\"index\":0,\"id\":\"c1\",\"function\":\x7b\"name\":\"f\"\x7d\x7d]\x7d\x7d]\x7d",
    ascii "data: \x7b\"choices\":[\x7b\"delta\":\x7b\"tool_calls\":[" ++
    ascii "\x7b\"index\":0,\"function\":\x7b\"arguments\":\"\x7b\x7d\"\x7d\x7d]\x7d\x7d]\x7d",
    ascii "data: \x7b\"choices\":[\x7b\"delta\":\x7b\x7d,\"finish_reason\":\"tool_calls\"\x7d]\x7d"]

def toolResp : Bytes :=
  ascii "\x7b\"choices\":[\x7b\"message\":\x7b\"tool_calls\":[" ++
    ascii "\x7b\"id\":\"c1\",\"function\":\x7b\"name\":\"f\",\"arguments\":\"\x7b\x7d\"\x7d\x7d]\x7d," ++
    ascii "\"finish_reason\":\"tool_calls\"\x7d]\x7d"

theorem not_agreement_toolCall : ∃ answer, jsonLoads (cString toolResp) = some answer ∧
    Serialises ((LineBuffer.lines '\n' [toolLines.flatMap (· ++ ['\n'])].flatten).filterMap chunkOf)
        answer ∧
      streamedAnswer (feedAll Bridge.takeLine (Bridge.new (ascii "m"))
          [toolLines.flatMap (· ++ ['\n'])]).finish.sent ≠
        (providerOpenaiRespToAnthropic toolResp none).bind (wholeAnswer ·.1) := by
  have hparsed : ((jsonLoads (cString toolResp)).map fun answer =>
      decide (Serialises (toolLines.filterMap chunkOf) answer ∧ callsOf answer ≠ [])) =
        some true := by decide +kernel
  obtain ⟨answer, hanswer, hboth⟩ := Option.map_eq_some_iff.mp hparsed
  obtain ⟨hserialises, hcalls⟩ := of_decide_eq_true hboth
  have htaken : taken [toolLines.flatMap (· ++ ['\n'])] = toolLines :=
    taken_lines (by decide +kernel)
  have hlines : LineBuffer.lines '\n' [toolLines.flatMap (· ++ ['\n'])].flatten = toolLines := by
    rw [List.flatten_singleton]
    exact LineBuffer.lines_flatMap (by decide +kernel)
  refine ⟨answer, hanswer, by rw [hlines]; exact hserialises, fun heq => ?_⟩
  unfold providerOpenaiRespToAnthropic at heq
  rw [feedAll_eq, foldl_takeLine, htaken, hanswer] at heq
  have hiff := agree_iff (ascii "m") none (clean_chunks toolLines) (clean_jsonLoads hanswer)
    hserialises
  exact hcalls (hiff.mp heq).2.2.noCalls

end Aigate.MessagesAgreement
